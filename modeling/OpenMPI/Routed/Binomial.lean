import OpenMPI.Class.Bitmap
import OpenMPI.Lib.Spanning

/-!
# The binomial routing tree of the daemons

`routed_binomial`: each daemon searches itself from daemon 0 on, and where it is found, records its children and
the daemons below each of them.
-/

namespace OpenMPI.Routed

open Class Lib

/-- The loop of `opal_cube_dim`; it has no result when `size` does not fit an `int`. -/
def cubeDimLoop (value : ℕ) : (fuel dim size : ℕ) → Option ℕ
  | 0, _, _ => none
  | fuel + 1, dim, size =>
    if size < value then if size <<< 1 < 2 ^ 31 then cubeDimLoop value fuel (dim + 1) (size <<< 1) else none
    else some dim

def cubeDim (value : ℕ) : Option ℕ := cubeDimLoop value 32 0 1

def hibit (value : ℕ) : ℕ → ℤ
  | 0 => -1
  | start + 1 => if value &&& (1 <<< start) ≠ 0 then start else hibit value start

def peers (numProcs bitmap rank : ℕ) : List ℕ :=
  (((List.range bitmap).filter fun i : ℕ => hibit rank bitmap + 1 ≤ i).map fun i => rank ||| 1 <<< i).filter
    (· < numProcs)

section BinomialTree

variable {σ : Type*}

/-- The search of the peers, until one has found it. -/
def searchPeers (search : ℕ → σ → Option (ℤ × σ)) : List ℕ → σ → Option (ℤ × σ)
  | [], acc => some (-1, acc)
  | peer :: rest, acc => do
    let (found, acc) ← search peer acc
    if 0 ≤ found then some (found, acc) else searchPeers search rest acc

def binomialTree (peers : ℕ → List ℕ) (found : ℕ → σ → Option σ) (me : ℕ) :
    (fuel rank parent : ℕ) → σ → Option (ℤ × σ)
  | 0, _, _, _ => none
  | fuel + 1, rank, parent, acc =>
    if me = rank then do
      let acc ← (peers rank).foldlM (fun acc peer => found peer acc) acc
      some (parent, acc)
    else searchPeers (fun peer acc => binomialTree peers found me fuel peer rank acc) (peers rank) acc

end BinomialTree

/-- `binomial_tree` for the relatives of `me`: `childrn` is `NULL`. -/
def relativesOf (peers : ℕ → List ℕ) (depth : ℕ) : (fuel me : ℕ) → Bitmap → Option Bitmap
  | 0, _, _ => none
  | fuel + 1, me, relatives => do
    let (_, relatives) ← binomialTree peers
      (fun peer relatives => relativesOf peers depth fuel peer (relatives.setBit peer)) me depth 0 0 relatives
    some relatives

structure RoutedTree where
  vpid : ℕ
  relatives : Bitmap

structure Table where
  myParent : ℤ
  numChildren : ℕ
  myChildren : List RoutedTree

def recordChild (numProcs : ℕ) (peers : ℕ → List ℕ) (peer : ℕ) (acc : ℕ × List RoutedTree) :
    Option (ℕ × List RoutedTree) := do
  let relatives ← relativesOf peers (numProcs + 1) (numProcs + 1) peer (Bitmap.init numProcs)
  some (acc.1 + 1, acc.2 ++ [⟨peer, relatives⟩])

/-- `update_routing_tree` of daemon `me`; no search goes through more than all daemons. -/
def updateRoutingTree (numProcs me : ℕ) : Option Table := do
  let bitmap ← cubeDim numProcs
  let r ← binomialTree (peers numProcs bitmap) (recordChild numProcs (peers numProcs bitmap)) me (numProcs + 1) 0 0
    (0, [])
  some { myParent := r.1, numChildren := r.2.1, myChildren := r.2.2 }

namespace Table

def procIsBelow (t : Table) (root target : ℕ) : Bool :=
  if root = target then true
  else match t.myChildren.find? (·.vpid = root) with
    | some child => child.relatives.isSetBit target
    | none => false

/-- The parent of daemon `me`; daemon 0 is its own, and has none. -/
def parent? (me : ℕ) (t : Table) : Option ℕ := if t.myParent = me then none else some t.myParent.toNat

def children (t : Table) : List ℕ := t.myChildren.map RoutedTree.vpid

end Table

/-- All daemons have tables of one tree, which say what is below each child. -/
structure Routes (numProcs : ℕ) (tables : ℕ → Table) : Prop where
  update : ∀ me < numProcs, updateRoutingTree numProcs me = some (tables me)
  count : ∀ me < numProcs, (tables me).numChildren = (tables me).myChildren.length
  tree : Spanning numProcs 0 (fun me => (tables me).parent? me) fun me => (tables me).children
  path : ∀ v < numProcs, ∃! l, Path (fun me => (tables me).children) 0 l v
  relatives : ∀ me < numProcs, ∀ child ∈ (tables me).myChildren, ∀ v, child.relatives.isSetBit v = true ↔
    ∃ l ≠ [], Path (fun me => (tables me).children) child.vpid l v
  below : ∀ me < numProcs, ∀ child ∈ (tables me).myChildren, ∀ v, (tables me).procIsBelow child.vpid v = true ↔
    ∃ l, Path (fun me => (tables me).children) child.vpid l v
  relayed : 0 < numProcs → ∀ fuel ≥ numProcs,
    (relay (fun me => (tables me).children) fuel 0).Perm (List.range numProcs)

end OpenMPI.Routed
