import OpenMPI.Coll.Topo
import OpenMPI.Coll.Util

/-!
# Broadcast

The only buffer is the one that is broadcast.  `none` stands for a tree that could not be built and
for a division by zero.
-/

namespace OpenMPI.Coll

open Lib

variable {α : Type*}

/-- A process between the root and the leaves posts the receive of the next segment before it waits for
this one. -/
def bcastIntraGeneric (rank root originalCount countBySegment : ℕ) (tree : CollTree) :
    List (Instr (Bufs Unit α) α) :=
  let numSegments := (originalCount + countBySegment - 1) / countBySegment
  let prev := tree.prev.toNat
  if rank = root then
    (List.range numSegments).flatMap fun segindex =>
      let sendcount := if segindex = numSegments - 1 then originalCount - segindex * countBySegment
        else countBySegment
      tree.next.map fun child => .sendBuf child () (segindex * countBySegment) sendcount
  else
    let last := numSegments - 1
    if tree.next ≠ [] then
      ((List.range last).flatMap fun segindex =>
        .recvBuf prev () (segindex * countBySegment) countBySegment ::
          tree.next.map fun child => .sendBuf child () (segindex * countBySegment) countBySegment) ++
      (.recvBuf prev () (last * countBySegment) countBySegment ::
        let sendcount := originalCount - last * countBySegment
        tree.next.map fun child => .sendBuf child () (last * countBySegment) sendcount)
    else
      ((List.range last).map fun segindex =>
        .recvBuf prev () (segindex * countBySegment) countBySegment) ++
      [.recvBuf prev () (last * countBySegment) countBySegment]

def bcastIntra (tree : Option CollTree) (rank root count segsize typelng : ℕ) :
    Option (List (Instr (Bufs Unit α) α)) :=
  tree.map (bcastIntraGeneric rank root count (computedSegcount segsize typelng count))

def bcastIntraBintree (size rank root count segsize typelng : ℕ) :
    Option (List (Instr (Bufs Unit α) α)) :=
  bcastIntra (buildTree 2 size rank root) rank root count segsize typelng

def bcastIntraPipeline (size rank root count segsize typelng : ℕ) :
    Option (List (Instr (Bufs Unit α) α)) :=
  bcastIntra (buildChain 1 size rank root) rank root count segsize typelng

def bcastIntraChain (size rank root count segsize typelng chains : ℕ) :
    Option (List (Instr (Bufs Unit α) α)) :=
  bcastIntra (buildChain chains size rank root) rank root count segsize typelng

def bcastIntraBinomial (size rank root count segsize typelng : ℕ) :
    Option (List (Instr (Bufs Unit α) α)) :=
  bcastIntra (buildBmtree size rank root) rank root count segsize typelng

/-- Half 0 or 1 of the data: where it begins, its length, and its segments. -/
structure Half where
  off : ℕ
  count : ℕ
  segcount : ℕ
  numSegments : ℕ
  deriving DecidableEq, Repr

namespace Half

def sendcount (h : Half) (segindex : ℕ) : ℕ :=
  if segindex = h.numSegments - 1 then h.count - segindex * h.segcount else h.segcount

end Half

def splitHalves (count segsize typeSize : ℕ) : Option (Half × Half) :=
  let count0 := if count % 2 ≠ 0 then count / 2 + 1 else count / 2
  let count1 := count - count0
  if 0 < segsize then
    if typeSize = 0 then none
    else
      let segcount := segsize / typeSize
      if segcount = 0 then none
      else
        let half off count :=
          { off, count, segcount
            numSegments := count / segcount + if count % segcount ≠ 0 then 1 else 0 : Half }
        some (half 0 count0, half count0 count1)
  else some (⟨0, count0, count0, 1⟩, ⟨count0, count1, count1, 1⟩)

/-- Down the tree: the root sends each of its two children one half, and each passes its half on. -/
def splitDown (rank root : ℕ) (tree : CollTree) (half0 half1 mine : Half) :
    List (Instr (Bufs Unit α) α) :=
  let prev := tree.prev.toNat
  if rank = root then
    (List.range half0.numSegments).flatMap fun segindex =>
      (tree.next.zip [half0, half1]).flatMap fun (child, half) =>
        if half.numSegments ≤ segindex then []
        else [.sendBuf child () (half.off + segindex * half.segcount) (half.sendcount segindex)]
  else if tree.next ≠ [] then
    let last := mine.numSegments - 1
    -- the first receive is posted before the loop, with the full segment
    let posted segindex := if segindex = 0 then mine.segcount else mine.sendcount segindex
    ((List.range last).flatMap fun segindex =>
      .recvBuf prev () (mine.off + segindex * mine.segcount) (posted segindex) ::
        tree.next.map fun child =>
          .sendBuf child () (mine.off + segindex * mine.segcount) mine.segcount) ++
    (.recvBuf prev () (mine.off + last * mine.segcount) (posted last) ::
      tree.next.map fun child => .sendBuf child () (mine.off + last * mine.segcount) (posted last))
  else
    (List.range mine.numSegments).map fun segindex =>
      .recvBuf prev () (mine.off + segindex * mine.segcount) (mine.sendcount segindex)

/-- Then the processes exchange the halves in pairs; the last one gets its other half from the root if
it has no partner. -/
def splitExchange (size rank root lr : ℕ) (half1 mine other : Half) : List (Instr (Bufs Unit α) α) :=
  let pair := if lr = 0 then (rank + 1) % size else (rank + size - 1) % size
  if size % 2 ≠ 0 ∧ rank ≠ root then
    sendrecv rank () mine.off mine.count pair () other.off other.count pair
  else if size % 2 = 0 then
    if rank = root then [.sendBuf ((root + size - 1) % size) () half1.off half1.count]
    else if rank = (root + size - 1) % size then [.recvBuf root () half1.off half1.count]
    else sendrecv rank () mine.off mine.count pair () other.off other.count pair
  else []

/-- The segment size, pushed up to hold one element; the size of the datatype is cut off to 32 bits. -/
def pushedUp (segsize typeSize : ℕ) : ℕ :=
  if 0 < segsize ∧ segsize < typeSize % 2 ^ 32 then typeSize % 2 ^ 32 else segsize

def bcastIntraSplitBintree (size rank root count segsize typeSize : ℕ) :
    Option (List (Instr (Bufs Unit α) α)) :=
  if size = 1 then some []
  else
    let segsize := pushedUp segsize typeSize
    (buildTree 2 size rank root).bind fun tree =>
      (splitHalves count segsize typeSize).bind fun (half0, half1) =>
        if (half0.count = 0 ∨ half1.count = 0) ∨ half0.count * typeSize < segsize ∨
            half1.count * typeSize < segsize then
          bcastIntraChain size rank root count segsize typeSize 1
        else
          let lr := ((rank + size - root) % size + 1) % 2
          let mine := if lr = 0 then half0 else half1
          let other := if lr = 0 then half1 else half0
          some (splitDown rank root tree half0 half1 mine ++
            splitExchange size rank root lr half1 mine other)

end OpenMPI.Coll
