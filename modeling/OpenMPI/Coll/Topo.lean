import Mathlib.Data.Nat.Bitwise

/-!
# The trees of the collective operations

Each rank computes its own place in a tree: its parent and its children, from the size of the
communicator, its rank and the root.  `none` stands for a `NULL` tree, a division by zero and a loop
without an end.
-/

namespace OpenMPI.Coll

def maxTreeFanout : ℕ := 32

/-- What one rank knows of a tree: its parent, which is -1 or the root itself at the root, and the
first `tree_nextsize` places of `tree_next`. -/
structure CollTree where
  root : ℕ
  prev : ℤ
  next : List ℕ
  deriving DecidableEq, Inhabited, Repr

namespace CollTree

def parent? (rank : ℕ) (t : CollTree) : Option ℕ :=
  if t.prev < 0 ∨ t.prev = rank then none else some t.prev.toNat

end CollTree

def shift (size root rank : ℕ) : ℕ := if rank < root then rank + size - root else rank - root

/-- The power, for a level `num`. -/
def pown (fanout num : ℕ) : ℕ :=
  if num = 1 then fanout
  else if fanout = 2 then 1 <<< num
  else (List.range num).foldl (fun p _ => p * fanout) 1

def levelLoop (fanout rank : ℕ) : (fuel level num : ℕ) → Option ℕ
  | 0, _, _ => none
  | fuel + 1, level, num =>
    if num ≤ rank then levelLoop fanout rank fuel (level + 1) (num + pown fanout level)
    else some (level - 1)

def calculateLevel (fanout rank : ℕ) : Option ℕ := levelLoop fanout rank (rank + 2) 0 0

def calculateNumNodesUpToLevel (fanout level : ℕ) : Option ℕ :=
  if fanout - 1 = 0 then none else some ((pown fanout level - 1) / (fanout - 1))

def parentLoop (slimit step : ℕ) : (fuel sparent : ℕ) → Option ℕ
  | 0, _ => none
  | fuel + 1, sparent =>
    if slimit ≤ sparent then parentLoop slimit step fuel (sparent - step) else some sparent

/-- The parent of a shifted rank on a level of `delta` nodes that begins at `slimit`. -/
def findParent (fanout slimit delta shiftedrank : ℕ) : Option ℕ :=
  if shiftedrank < fanout then some 0
  else parentLoop slimit (delta / fanout) (shiftedrank + 1) shiftedrank

def buildTree (fanout size rank root : ℕ) : Option CollTree :=
  if fanout < 1 then none
  else if maxTreeFanout < fanout then none
  else if size < 2 then some { root, prev := -1, next := [] }
  else do
    let shiftedrank := shift size root rank
    let level ← calculateLevel fanout shiftedrank
    let delta := pown fanout level
    let schild := ((List.range fanout).map fun i => shiftedrank + delta * (i + 1)).takeWhile (· < size)
    let slimit ← calculateNumNodesUpToLevel fanout level
    let sparent ← findParent fanout slimit delta shiftedrank
    some { root, prev := ((sparent + root) % size : ℕ), next := schild.map fun s => (s + root) % size }

/-- Down the tree to `myrank`: `size` ranks from `delta` on, with `parent` the last of them.  `prev` is
the parent found on the way. -/
def inOrderLoop : (fuel : ℕ) → (myrank parent delta size prev : ℤ) → Option (ℤ × ℤ × ℤ)
  | 0, _, _, _, _, _ => none
  | fuel + 1, myrank, parent, delta, size, prev =>
    let rightsize := size >>> (1 : ℕ)
    let lchild := if size - 1 > 0 then parent - 1 else -1
    let rchild := if size - 1 > 0 ∧ lchild > 0 then rightsize - 1 else -1
    if myrank = parent then
      some (prev, if 0 ≤ lchild then lchild + delta else -1, if 0 ≤ rchild then rchild + delta else -1)
    else if myrank > rchild then
      inOrderLoop fuel (myrank - rightsize) (size - rightsize - 1 - 1) (delta + rightsize)
        (size - rightsize - 1) (if myrank = lchild then parent + delta else prev)
    else
      inOrderLoop fuel myrank rchild delta rightsize (if myrank = rchild then parent + delta else prev)

/-- The first `tree_nextsize` places of `tree_next`. -/
def inOrderNext (next0 next1 : ℤ) : List ℕ :=
  let nextsize := (if 0 ≤ next0 then 1 else 0) + if 0 ≤ next1 then 1 else 0
  ([next0, next1].take nextsize).map Int.toNat

def buildInOrderBintree (size rank : ℕ) : Option CollTree := do
  let (prev, next0, next1) ← inOrderLoop (size + 1) rank (size - 1) 0 size (-1)
  some { root := size - 1, prev, next := inOrderNext next0 next1 }

def maskLoop (index : ℕ) : (fuel mask : ℕ) → Option ℕ
  | 0, _ => none
  | fuel + 1, mask => if mask ≤ index then maskLoop index fuel (mask <<< 1) else some mask

def childsLoop (size root index : ℕ) : (fuel mask : ℕ) → (next : List ℕ) → Option (List ℕ)
  | 0, _, _ => none
  | fuel + 1, mask, next =>
    if mask < size then
      let remote := index ^^^ mask
      if size ≤ remote then some next
      else
        let remote := if size ≤ remote + root then remote + root - size else remote + root
        if next.length = maxTreeFanout then none
        else childsLoop size root index fuel (mask <<< 1) (next ++ [remote])
    else some next

def buildBmtree (size rank root : ℕ) : Option CollTree := do
  let index := shift size root rank
  let mask ← maskLoop index (index + 2) 1
  let remote := (index ^^^ (mask >>> 1)) + root
  let prev := if root = rank then root else if size ≤ remote then remote - size else remote
  let next ← childsLoop size root index (size + 1) mask []
  some { root, prev, next }

def inOrderBmLoop (size root vrank : ℕ) : (fuel mask : ℕ) → (prev : ℤ) → (next : List ℕ) →
    Option (ℤ × List ℕ)
  | 0, _, _, _ => none
  | fuel + 1, mask, prev, next =>
    if mask < size then
      let remote := vrank ^^^ mask
      if remote < vrank then some (((remote + root) % size : ℕ), next)
      else if remote < size then
        let next := next ++ [(remote + root) % size]
        if next.length = maxTreeFanout then none
        else inOrderBmLoop size root vrank fuel (mask <<< 1) prev next
      else inOrderBmLoop size root vrank fuel (mask <<< 1) prev next
    else some (prev, next)

/-- The parent of another rank than the root has no value before the loop. -/
def buildInOrderBmtree (size rank root : ℕ) : Option CollTree := do
  let vrank := (rank + size - root) % size
  let (prev, next) ← inOrderBmLoop size root vrank (size + 1) 1 (if root = rank then root else -1) []
  some { root, prev, next }

/-- The first rank and the length of the chain of the shifted rank `srank`. -/
def chainOf (mark maxchainlen srank : ℕ) : Option (ℕ × ℕ) :=
  if srank - 1 < mark * maxchainlen then
    some (1 + (srank - 1) / maxchainlen * maxchainlen, maxchainlen)
  else if maxchainlen - 1 = 0 then none
  else
    let column := mark + (srank - 1 - mark * maxchainlen) / (maxchainlen - 1)
    some (mark * maxchainlen + 1 + (column - mark) * (maxchainlen - 1), maxchainlen - 1)

/-- The first ranks of the chains, from that of chain `i - 1` on. -/
def headsLoop (size mark maxchainlen : ℕ) : (left i head : ℕ) → List ℕ
  | 0, _, _ => []
  | left + 1, i, head =>
    let head := head + maxchainlen
    let head := (if mark < i then head - 1 else head) % size
    head :: headsLoop size mark maxchainlen left (i + 1) head

def buildChain (fanout size rank root : ℕ) : Option CollTree :=
  let fanout := if fanout < 1 then 1 else fanout
  let fanout := if maxTreeFanout < fanout then maxTreeFanout else fanout
  let fanout := if size - 1 < fanout then size - 1 else fanout
  let srank := shift size root rank
  if fanout = 1 then
    some
      { root
        prev := if srank = 0 then -1 else ((srank - 1 + root) % size : ℕ)
        next := if size ≤ srank + 1 then [] else [(srank + 1 + root) % size] }
  else if size = 1 then some { root, prev := -1, next := [] }
  else do
    let maxchainlen := (size - 1) / fanout + if (size - 1) % fanout ≠ 0 then 1 else 0
    let mark := if (size - 1) % fanout ≠ 0 then (size - 1) % fanout else fanout + 1
    if rank = root then
      let first := (root + 1) % size
      some { root, prev := -1, next := first :: headsLoop size mark maxchainlen (fanout - 1) 1 first }
    else do
      let (head, len) ← chainOf mark maxchainlen srank
      let prev := if srank = head then 0 else srank - 1
      let next := if srank = head + len - 1 then [] else if srank + 1 < size then [srank + 1] else []
      some { root, prev := ((prev + root) % size : ℕ), next := next.map fun s => (s + root) % size }

end OpenMPI.Coll
