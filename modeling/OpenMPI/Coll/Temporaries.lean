import OpenMPI.Coll.ReduceScatter
import OpenMPI.Coll.Topo
import OpenMPI.Lib.Block

/-!
# The temporary buffers of the tuned reductions

What one process asks for and which elements of it the calls of an algorithm are given.  A receive touches
its elements when it is posted.  What lies in the buffers of the caller is left out.
-/

namespace OpenMPI.Coll.Tuned

open Lib

inductive TempBuf
  | inplacebuf
  | inbuf (inbi : ℕ)
  | accumbuf
  | tmpbuf
  | inplaceTemp
  | freeBuffer
  | recvBuf
  | resultBuf
  | tmprbuf
  deriving DecidableEq, Repr

/-- A pointer to a place in a temporary buffer; `none` is one into a buffer of the caller. -/
abbrev Ptr := Option (TempBuf × ℤ)

/-- `count` elements of `dtype`, from element `first` on. -/
def access (p : Ptr) (first count : ℕ) : List (Touch TempBuf) :=
  p.toList.map fun (buf, off) => ⟨buf, off, first, count⟩

structure Communicator where
  size : ℕ
  rank : ℕ
  rank_lt : rank < size

variable (d : Layout) (comm : Communicator)

def typelng : ℕ := d.bytes.length

structure BlockCount where
  splitRank : ℕ
  early : ℕ
  late : ℕ

def computeBlockcount (count numBlocks : ℕ) : BlockCount where
  splitRank := count % numBlocks
  early := if count % numBlocks ≠ 0 then count / numBlocks + 1 else count / numBlocks
  late := count / numBlocks

namespace BlockCount

def offset (c : BlockCount) (block : ℕ) : ℕ :=
  if block < c.splitRank then block * c.early else block * c.late + c.splitRank

def count (c : BlockCount) (block : ℕ) : ℕ := if block < c.splitRank then c.early else c.late

end BlockCount

/-- The loop over the distances; it ends with the pointer `tmpsend`. -/
def doublingLoop (rank adjsize extraRanks count newrank : ℕ) :
    (fuel distance : ℕ) → (tmpsend tmprecv : Ptr) → List (Touch TempBuf) × Ptr
  | 0, _, tmpsend, _ => ([], tmpsend)
  | fuel + 1, distance, tmpsend, tmprecv =>
    if distance < adjsize then
      let newremote := newrank ^^^ distance
      let remote := if newremote < extraRanks then newremote * 2 + 1 else newremote + extraRanks
      let exchange := access tmprecv 0 count ++ access tmpsend 0 count
      let reduce := access tmpsend 0 count ++ access tmprecv 0 count
      let (rest, result) :=
        if rank < remote then
          doublingLoop rank adjsize extraRanks count newrank fuel (distance <<< 1) tmprecv tmpsend
        else doublingLoop rank adjsize extraRanks count newrank fuel (distance <<< 1) tmpsend tmprecv
      (exchange ++ reduce ++ rest, result)
    else ([], tmpsend)

def allreduceIntraRecursivedoubling (count : ℕ) : List (MemOp TempBuf) :=
  if comm.size = 1 then []
  else
    let tmpsend : Ptr := some (.inplacebuf, 0)
    let tmprecv : Ptr := none
    let adjsize := nearestPower comm.size
    let extraRanks := comm.size - adjsize
    let copy := access tmpsend 0 count
    if comm.rank < 2 * extraRanks ∧ comm.rank % 2 = 0 then
      [.malloc .inplacebuf (d.span count), .touch (copy ++ access tmpsend 0 count)]
    else
      let fold :=
        if comm.rank < 2 * extraRanks then
          access tmprecv 0 count ++ access tmprecv 0 count ++ access tmpsend 0 count
        else []
      let newrank := if comm.rank < 2 * extraRanks then comm.rank >>> 1 else comm.rank - extraRanks
      let (loop, tmpsend) := doublingLoop comm.rank adjsize extraRanks count newrank adjsize 1 tmpsend tmprecv
      let unfold := if comm.rank < 2 * extraRanks then access tmpsend 0 count else []
      [.malloc .inplacebuf (d.span count), .touch (copy ++ fold ++ loop ++ unfold ++ access tmpsend 0 count)]

/-- The computation loop around the ring, on the blocks of `acc`. -/
def ringTouches (size maxcount : ℕ) (inbuf : ℕ → Ptr) (acc : Ptr) (off cnt : ℕ → ℕ) (first : ℕ)
    (prevblock : ℕ → ℕ) (last : ℕ) : List (Touch TempBuf) :=
  access (inbuf 0) 0 maxcount ++ access acc (off first) (cnt first) ++
    ((List.range' 2 (size - 2)).flatMap fun k =>
      let inbi := (k - 1) % 2
      let prev := prevblock k
      access (inbuf inbi) 0 maxcount ++ access (inbuf (inbi ^^^ 1)) 0 (cnt prev) ++
        access acc (off prev) (cnt prev) ++ access acc (off prev) (cnt prev)) ++
    access (inbuf ((size - 2) % 2)) 0 (cnt last) ++ access acc (off last) (cnt last)

/-- The one or two buffers for what comes in, each of `elems` elements. -/
def mallocInbufs (two : Bool) (elems : ℕ) : List (MemOp TempBuf) :=
  .malloc (.inbuf 0) (d.span elems) :: if two then [.malloc (.inbuf 1) (d.span elems)] else []

def allreduceIntraRing (count : ℕ) : List (MemOp TempBuf) :=
  if comm.size = 1 then []
  else if count < comm.size then allreduceIntraRecursivedoubling d comm count
  else
    let blocks := computeBlockcount count comm.size
    let maxSegcount := blocks.early
    mallocInbufs d (2 < comm.size) maxSegcount ++
      [.touch (ringTouches comm.size maxSegcount (fun inbi => some (.inbuf inbi, 0)) none blocks.offset
        blocks.count comm.rank (fun k => (comm.rank + comm.size - k + 1) % comm.size)
        ((comm.rank + 1) % comm.size))]

def numPhases (size count segcount : ℕ) : ℕ :=
  let rest := count % (size * segcount)
  if size ≤ rest ∧ size * segcount / 2 < rest then count / (size * segcount) + 1
  else count / (size * segcount)

def allreduceIntraRingSegmented (count segsize : ℕ) : List (MemOp TempBuf) :=
  let segcount := computedSegcount segsize (typelng d) count
  if comm.size = 1 then []
  else if count < comm.size * segcount then allreduceIntraRing d comm count
  else
    let phases := numPhases comm.size count segcount
    let blocks := computeBlockcount count comm.size
    let maxSegcount := (computeBlockcount blocks.early phases).early
    mallocInbufs d (2 < comm.size) maxSegcount ++
      [.touch ((List.range phases).flatMap fun phase =>
        let segment block := computeBlockcount (blocks.count block) phases
        ringTouches comm.size maxSegcount (fun inbi => some (.inbuf inbi, 0)) none
          (fun block => blocks.offset block + (segment block).offset phase)
          (fun block => (segment block).count phase) comm.rank
          (fun k => (comm.rank + comm.size - k + 1) % comm.size) ((comm.rank + 1) % comm.size))]

/-- The number of elements in segment `segindex`, which is smaller in the last one. -/
def recvcount (originalCount countBySegment numSegments segindex : ℕ) : ℕ :=
  if segindex + 1 = numSegments then originalCount - countBySegment * segindex else countBySegment

/-- What is done for child `i` in step `segindex`: a segment is received into `accumbuf` at once where
the operation commutes and the data is not in place, and reduced one child later. -/
def childTouches (originalCount countBySegment numSegments nextsize : ℕ) (direct root : Bool)
    (sendtmpbuf accumbuf : Ptr) (inbuf : ℕ → Ptr) (segindex i : ℕ) : List (Touch TempBuf) :=
  let inbi := (segindex * nextsize + i) % 2
  let count := recvcount originalCount countBySegment numSegments segindex
  let prevcount := recvcount originalCount countBySegment numSegments (segindex - 1)
  let irecv :=
    if segindex < numSegments then
      if i = 0 ∧ direct then access accumbuf (segindex * countBySegment) count
      else access (inbuf inbi) 0 count
    else []
  let reduce :=
    if 0 < i then
      (if i = 1 ∧ direct then access sendtmpbuf (segindex * countBySegment) count
        else access (inbuf (inbi ^^^ 1)) 0 count) ++ access accumbuf (segindex * countBySegment) count
    else if 0 < segindex then
      (if nextsize ≤ 1 ∧ direct then access sendtmpbuf ((segindex - 1) * countBySegment) prevcount
        else access (inbuf (inbi ^^^ 1)) 0 prevcount) ++
        access accumbuf ((segindex - 1) * countBySegment) prevcount ++
        if root then [] else access accumbuf ((segindex - 1) * countBySegment) prevcount
    else []
  irecv ++ reduce

/-- The loop over the segments, of which the last step ends with the first child. -/
def segmentTouches (originalCount countBySegment numSegments nextsize : ℕ) (direct root : Bool)
    (sendtmpbuf accumbuf : Ptr) (inbuf : ℕ → Ptr) : List (Touch TempBuf) :=
  (List.range (numSegments + 1)).flatMap fun segindex =>
    (List.range (if 0 < segindex ∧ segindex = numSegments then 1 else nextsize)).flatMap
      (childTouches originalCount countBySegment numSegments nextsize direct root sendtmpbuf accumbuf
        inbuf segindex)

/-- The accumulator is a buffer of its own where there is no receive buffer or it is to be kept. -/
def ownAccumbuf (root : ℕ) (recvbuf : Option Ptr) : Bool := recvbuf.isNone || decide (root ≠ comm.rank)

/-- `MPI_IN_PLACE` is no send buffer, and `NULL` no receive buffer.  Without elements, where the source
divides by zero, nothing is touched. -/
def reduceGeneric (sendbuf recvbuf : Option Ptr) (originalCount : ℕ) (commute : Bool) (root : ℕ)
    (tree : CollTree) (countBySegment : ℕ) : List (MemOp TempBuf) :=
  let numSegments := (originalCount + countBySegment - 1) / countBySegment
  let sendtmpbuf := sendbuf.getD (recvbuf.getD none)
  let own := ownAccumbuf comm root recvbuf
  let accumbuf : Ptr := if own then some (.accumbuf, -d.lb) else recvbuf.getD none
  let nextsize := tree.next.length
  if 0 < nextsize then
    let copy := if commute then [] else access accumbuf 0 originalCount ++ access sendtmpbuf 0 originalCount
    let direct := commute && !(sendbuf.isNone && decide (comm.rank = tree.root))
    (if own then [.malloc .accumbuf (d.span originalCount)] else []) ++ [.touch copy] ++
      mallocInbufs d (decide (1 < numSegments ∨ 1 < nextsize)) countBySegment ++
      [.touch (segmentTouches originalCount countBySegment numSegments nextsize direct
        (decide (comm.rank = tree.root)) sendtmpbuf accumbuf fun inbi => some (.inbuf inbi, -d.lb))]
  else
    -- with or without a limit on the pending requests
    [.touch ((List.range numSegments).flatMap fun segindex =>
      access (sendbuf.getD none) (segindex * countBySegment)
        (recvcount originalCount countBySegment numSegments segindex))]

def reduceIntraTree (inPlace recvNull : Bool) (count : ℕ) (commute : Bool) (root segsize : ℕ)
    (tree : Option CollTree) : List (MemOp TempBuf) :=
  tree.elim [] fun tree =>
    reduceGeneric d comm (if inPlace then none else some none) (if recvNull then none else some none)
      count commute root tree (computedSegcount segsize (typelng d) count)

def reduceIntraChain (inPlace recvNull : Bool) (count : ℕ) (commute : Bool) (root segsize fanout : ℕ) :
    List (MemOp TempBuf) :=
  reduceIntraTree d comm inPlace recvNull count commute root segsize
    (buildChain fanout comm.size comm.rank root)

def reduceIntraPipeline (inPlace recvNull : Bool) (count : ℕ) (commute : Bool) (root segsize : ℕ) :
    List (MemOp TempBuf) :=
  reduceIntraTree d comm inPlace recvNull count commute root segsize (buildChain 1 comm.size comm.rank root)

def reduceIntraBinary (inPlace recvNull : Bool) (count : ℕ) (commute : Bool) (root segsize : ℕ) :
    List (MemOp TempBuf) :=
  reduceIntraTree d comm inPlace recvNull count commute root segsize (buildTree 2 comm.size comm.rank root)

def reduceIntraBinomial (inPlace recvNull : Bool) (count : ℕ) (commute : Bool) (root segsize : ℕ) :
    List (MemOp TempBuf) :=
  reduceIntraTree d comm inPlace recvNull count commute root segsize
    (buildInOrderBmtree comm.size comm.rank root)

/-- The root of the tree is the last rank.  A root with its data in place copies it, and the last rank
sends what it has received into a buffer of its own to the root. -/
def reduceIntraInOrderBinary (inPlace recvNull : Bool) (count : ℕ) (commute : Bool) (root segsize : ℕ) :
    List (MemOp TempBuf) :=
  let ioRoot := comm.size - 1
  let tmpbuf : Ptr := some (.tmpbuf, 0)
  let copied := ioRoot ≠ root ∧ root = comm.rank ∧ inPlace
  let received := ioRoot ≠ root ∧ ¬ (root = comm.rank ∧ inPlace) ∧ ioRoot = comm.rank
  let sendbuf := if copied then some tmpbuf else if inPlace then none else some none
  let recvbuf := if received then some tmpbuf else if recvNull then none else some none
  (buildInOrderBintree comm.size comm.rank).elim [] fun tree =>
    (if copied ∨ received then [.malloc .tmpbuf (d.span count)] else []) ++
      (if copied then [.touch (access tmpbuf 0 count)] else []) ++
      reduceGeneric d comm sendbuf recvbuf count commute ioRoot tree
        (computedSegcount segsize (typelng d) count) ++
      if received then [.touch (access tmpbuf 0 count)] else []

/-- The copy back reads from the beginning of the memory. -/
def reduceIntraBasicLinear (inPlace : Bool) (count root : ℕ) : List (MemOp TempBuf) :=
  if comm.rank ≠ root then []
  else
    let rbuf : Ptr := if inPlace then some (.inplaceTemp, -d.lb) else none
    let pmlBuffer : Ptr := some (.freeBuffer, -d.lb)
    let loop :=
      (List.range (comm.size - 1)).reverse.flatMap fun i =>
        if comm.rank = i then access rbuf 0 count
        else access pmlBuffer 0 count ++ access pmlBuffer 0 count ++ access rbuf 0 count
    let back := if inPlace then access (some (.inplaceTemp, 0)) 0 count else []
    (if inPlace then [.malloc .inplaceTemp (d.span count)] else []) ++
      (if 1 < comm.size then [.malloc .freeBuffer (d.span count)] else []) ++
      [.touch (access rbuf 0 count ++ loop ++ back)]

def allreduceIntraBasicLinear (inPlace : Bool) (count : ℕ) : List (MemOp TempBuf) :=
  if inPlace ∧ comm.rank ≠ 0 then reduceIntraBasicLinear d comm false count 0
  else reduceIntraBasicLinear d comm inPlace count 0

/-- `coll_reduce` and `coll_scatterv` are given the buffer. -/
def reduceScatterIntraNonoverlapping (inPlace : Bool) (rcounts : ℕ → ℕ) : List (MemOp TempBuf) :=
  let totalCount := disps rcounts comm.size
  if inPlace = false ∧ comm.rank = 0 then
    let tmprbuf : Ptr := some (.tmprbuf, -d.lb)
    [.mallocUnchecked .tmprbuf (d.span totalCount),
      .touch (access tmprbuf 0 totalCount ++
        (List.range comm.size).flatMap fun i => access tmprbuf (disps rcounts i) (rcounts i))]
  else []

def halvingTouches (recvBuf resultBuf : Ptr) (counts : ℕ → ℕ) (tmpRank : ℕ) :
    (fuel mask sendIndex recvIndex lastIndex : ℕ) → List (Touch TempBuf)
  | 0, _, _, _, _ => []
  | fuel + 1, mask, sendIndex, recvIndex, lastIndex =>
    if 0 < mask then
      let tmpPeer := tmpRank ^^^ mask
      let low := tmpRank < tmpPeer
      let sendIndex := if low then recvIndex + mask else sendIndex
      let recvIndex := if low then recvIndex else sendIndex + mask
      let sendCount := if low then countsBetween counts sendIndex lastIndex
        else countsBetween counts sendIndex recvIndex
      let recvCount := if low then countsBetween counts recvIndex sendIndex
        else countsBetween counts recvIndex lastIndex
      let irecv := if 0 < sendCount ∧ recvCount ≠ 0 then access recvBuf (disps counts recvIndex) recvCount
        else []
      let send := if 0 < recvCount ∧ sendCount ≠ 0 then access resultBuf (disps counts sendIndex) sendCount
        else []
      let push := if 0 < recvCount then
        access recvBuf (disps counts recvIndex) recvCount ++ access resultBuf (disps counts recvIndex) recvCount
        else []
      irecv ++ send ++ push ++
        halvingTouches recvBuf resultBuf counts tmpRank fuel (mask >>> 1) recvIndex recvIndex (recvIndex + mask)
    else []

/-- The allocation of the result buffer is not checked. -/
def reduceScatterIntraBasicRecursivehalving (rcounts : ℕ → ℕ) : List (MemOp TempBuf) :=
  let count := disps rcounts comm.size
  let rank := comm.rank
  let recvBuf : Ptr := some (.recvBuf, -d.lb)
  let resultBuf : Ptr := some (.resultBuf, -d.lb)
  let tmpSize := nearestPower comm.size
  let remain := comm.size - tmpSize
  let fold :=
    if rank < 2 * remain then
      if rank % 2 = 0 then access resultBuf 0 count
      else access recvBuf 0 count ++ access recvBuf 0 count ++ access resultBuf 0 count
    else []
  let loop (tmpRank : ℕ) :=
    halvingTouches recvBuf resultBuf (tmpRcounts rcounts remain) tmpRank tmpSize (tmpSize >>> 1) 0 0 tmpSize ++
      if rcounts rank ≠ 0 then access resultBuf (disps rcounts rank) (rcounts rank) else []
  let work :=
    if rank < 2 * remain then if rank % 2 = 0 then [] else loop (rank / 2)
    else loop (rank - remain)
  let unfold :=
    if rank < 2 * remain ∧ rank % 2 ≠ 0 ∧ rcounts (rank - 1) ≠ 0 then
      access resultBuf (disps rcounts (rank - 1)) (rcounts (rank - 1))
    else []
  if count = 0 then []
  else
    [.malloc .recvBuf (d.span count), .mallocUnchecked .resultBuf (d.span count),
      .touch (access resultBuf 0 count ++ fold ++ work ++ unfold)]

def reduceScatterIntraRing (rcounts : ℕ → ℕ) : List (MemOp TempBuf) :=
  let totalCount := disps rcounts comm.size
  let maxBlock := maxBlockCount rcounts comm.size
  let accumbuf : Ptr := some (.accumbuf, -d.lb)
  if comm.size = 1 then []
  else
    .malloc .accumbuf (d.span totalCount) :: mallocInbufs d (2 < comm.size) maxBlock ++
      [.touch (access accumbuf 0 totalCount ++
        ringTouches comm.size maxBlock (fun inbi => some (.inbuf inbi, -d.lb)) accumbuf (disps rcounts)
          rcounts ((comm.rank + comm.size - 1) % comm.size)
          (fun k => (comm.rank + comm.size - k) % comm.size) comm.rank ++
        access accumbuf (disps rcounts comm.rank) (rcounts comm.rank))]

/-- A call of one of the algorithms that have buffers of their own.  Of a reduction, `recvNull` is whether
it gets no receive buffer, and `commute` whether its operation commutes. -/
inductive Call
  | allreduceBasicLinear (inPlace : Bool) (count : ℕ)
  | allreduceRecursivedoubling (count : ℕ)
  | allreduceRing (count : ℕ)
  | allreduceRingSegmented (count segsize : ℕ)
  | reduceBasicLinear (inPlace : Bool) (count root : ℕ)
  | reduceChain (inPlace recvNull : Bool) (count : ℕ) (commute : Bool) (root segsize fanout : ℕ)
  | reducePipeline (inPlace recvNull : Bool) (count : ℕ) (commute : Bool) (root segsize : ℕ)
  | reduceBinary (inPlace recvNull : Bool) (count : ℕ) (commute : Bool) (root segsize : ℕ)
  | reduceBinomial (inPlace recvNull : Bool) (count : ℕ) (commute : Bool) (root segsize : ℕ)
  | reduceInOrderBinary (inPlace recvNull : Bool) (count : ℕ) (commute : Bool) (root segsize : ℕ)
  | reduceScatterNonoverlapping (inPlace : Bool) (rcounts : ℕ → ℕ)
  | reduceScatterRecursivehalving (rcounts : ℕ → ℕ)
  | reduceScatterRing (rcounts : ℕ → ℕ)

def Call.ops : Call → List (MemOp TempBuf)
  | allreduceBasicLinear inPlace count => allreduceIntraBasicLinear d comm inPlace count
  | allreduceRecursivedoubling count => allreduceIntraRecursivedoubling d comm count
  | allreduceRing count => allreduceIntraRing d comm count
  | allreduceRingSegmented count segsize => allreduceIntraRingSegmented d comm count segsize
  | reduceBasicLinear inPlace count root => reduceIntraBasicLinear d comm inPlace count root
  | reduceChain inPlace recvNull count commute root segsize fanout =>
    reduceIntraChain d comm inPlace recvNull count commute root segsize fanout
  | reducePipeline inPlace recvNull count commute root segsize =>
    reduceIntraPipeline d comm inPlace recvNull count commute root segsize
  | reduceBinary inPlace recvNull count commute root segsize =>
    reduceIntraBinary d comm inPlace recvNull count commute root segsize
  | reduceBinomial inPlace recvNull count commute root segsize =>
    reduceIntraBinomial d comm inPlace recvNull count commute root segsize
  | reduceInOrderBinary inPlace recvNull count commute root segsize =>
    reduceIntraInOrderBinary d comm inPlace recvNull count commute root segsize
  | reduceScatterNonoverlapping inPlace rcounts => reduceScatterIntraNonoverlapping d comm inPlace rcounts
  | reduceScatterRecursivehalving rcounts => reduceScatterIntraBasicRecursivehalving d comm rcounts
  | reduceScatterRing rcounts => reduceScatterIntraRing d comm rcounts

end OpenMPI.Coll.Tuned
