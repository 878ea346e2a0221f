import OpenMPI.Coll.Bcast
import OpenMPI.Coll.Gather
import OpenMPI.Lib.Traffic

/-!
# Collectives over a type signature

Every rank describes the same data by its own count and datatype.  A buffer is the sequence of the bytes of the signature, and of a
datatype only its size matters.  Comparisons in floating point are parameters.
-/

namespace OpenMPI.Coll

open Lib

variable {α : Type*}

structure Description where
  count : ℕ
  typelng : ℕ
  deriving DecidableEq, Repr

/-- The operations of `ompi_coll_tuned_bcast_intra_generic`, in units of the datatype. -/
def genericMoves (rank root originalCount countBySegment : ℕ) (tree : CollTree) : List (BufMove Unit) :=
  let numSegments := (originalCount + countBySegment - 1) / countBySegment
  let prev := tree.prev.toNat
  if rank = root then
    (List.range numSegments).flatMap fun segindex =>
      let sendcount := if segindex = numSegments - 1 then originalCount - segindex * countBySegment
        else countBySegment
      tree.next.map fun child => .send child () (segindex * countBySegment) sendcount
  else
    let last := numSegments - 1
    if tree.next ≠ [] then
      ((List.range last).flatMap fun segindex =>
        .recv prev () (segindex * countBySegment) countBySegment ::
          tree.next.map fun child => .send child () (segindex * countBySegment) countBySegment) ++
      (.recv prev () (last * countBySegment) countBySegment ::
        let sendcount := originalCount - last * countBySegment
        tree.next.map fun child => .send child () (last * countBySegment) sendcount)
    else
      ((List.range last).map fun segindex =>
        .recv prev () (segindex * countBySegment) countBySegment) ++
      [.recv prev () (last * countBySegment) countBySegment]

/-- The broadcasts that differ in their tree only, in bytes. -/
def bcastDescribed (tree : Option CollTree) (rank root segsize : ℕ) (d : Description) :
    Option (List (Instr (Bufs Unit α) α)) :=
  tree.map fun tree =>
    let segcount := computedSegcount segsize d.typelng d.count
    ((genericMoves rank root d.count segcount tree).map (BufMove.scale d.typelng)).map BufMove.instr

/-- What a rank other than the root does in `ompi_coll_tuned_gather_intra_linear_sync`, in units of `sdtype`. -/
def linearSyncSender (root firstSegmentSize : ℕ) (s : Description) : List (BufMove RootedBuf) :=
  let firstSegmentCount := computedSegcount firstSegmentSize s.typelng s.count
  [.recv root .sbuf 0 0, .send root .sbuf 0 firstSegmentCount,
    .send root .sbuf firstSegmentCount (s.count - firstSegmentCount)]

/-- The root in turn posts the receive of the first segment of a rank, tells the rank to go on, and waits for the segment. -/
def linearSyncFirst (size rank firstSegmentSize : ℕ) (r : Description) : List (BufMove RootedBuf) :=
  let firstSegmentCount := computedSegcount firstSegmentSize r.typelng r.count
  (List.range size).flatMap fun i =>
    if i = rank then [] else [.send i .rbuf 0 0, .recv i .rbuf (i * r.count) firstSegmentCount]

def linearSyncSecond (size rank firstSegmentSize : ℕ) (r : Description) : List (BufMove RootedBuf) :=
  let firstSegmentCount := computedSegcount firstSegmentSize r.typelng r.count
  (List.range size).flatMap fun i =>
    if i = rank then []
    else [.recv i .rbuf (i * r.count + firstSegmentCount) (r.count - firstSegmentCount)]

/-- The operations in bytes; only the root looks at `r`, and only there the data may be in place. -/
def linearSyncMoves (size rank root firstSegmentSize : ℕ) (s r : Description) (inPlace : Bool) :
    List (BufMove RootedBuf) :=
  if rank ≠ root then (linearSyncSender root firstSegmentSize s).map (BufMove.scale s.typelng)
  else
    (linearSyncFirst size rank firstSegmentSize r).map (BufMove.scale r.typelng) ++
      (if inPlace then []
      else [.copy .sbuf 0 (s.count * s.typelng) .rbuf (rank * r.count * r.typelng) (r.count * r.typelng)]) ++
      (linearSyncSecond size rank firstSegmentSize r).map (BufMove.scale r.typelng)

def gatherIntraLinearSync (size rank root firstSegmentSize : ℕ) (s r : Description) (inPlace : Bool) :
    List (Instr (Bufs RootedBuf α) α) :=
  (linearSyncMoves size rank root firstSegmentSize s r inPlace).map BufMove.instr

inductive BcastChoice
  | binomial (segsize : ℕ)
  | splitBintree (segsize : ℕ)
  | pipeline (segsize : ℕ)
  deriving DecidableEq, Repr

/-- `communicator_size < (a * message_size + b)`, for each pair of constants. -/
structure SizeModel where
  p128 : (communicatorSize messageSize : ℕ) → Bool
  p64 : (communicatorSize messageSize : ℕ) → Bool
  p16 : (communicatorSize messageSize : ℕ) → Bool

def bcastIntraDecFixed (model : SizeModel) (communicatorSize : ℕ) (d : Description) : BcastChoice :=
  let smallMessageSize := 2048
  let intermediateMessageSize := 370728
  let messageSize := d.typelng * d.count
  if messageSize < smallMessageSize ∨ d.count ≤ 1 then .binomial 0
  else if messageSize < intermediateMessageSize then .splitBintree 1024
  else if model.p128 communicatorSize messageSize then .pipeline (1024 <<< 7)
  else if communicatorSize < 13 then .splitBintree (1024 <<< 3)
  else if model.p64 communicatorSize messageSize then .pipeline (1024 <<< 6)
  else if model.p16 communicatorSize messageSize then .pipeline (1024 <<< 4)
  else .pipeline (1024 <<< 3)

end OpenMPI.Coll
