import Mathlib.Data.Int.Notation
import OpenMPI.Lib.RedBlack

/-!
# The red-black tree

`ompi_rb_tree_t` keeps its nodes in memory that comes from a free list.  A node is named by its
address, `NULL` being 0.  The left and the right half of a function are the same function of a side.
A loop has a bound on its rounds, and no result if that is too small.
-/

namespace OpenMPI.Class

open Lib.RedBlack (Color Side)

structure FreeList where
  /-- The items that are not in use, the last one returned first. -/
  items : List ℕ := []
  numAllocated : ℕ := 0
  deriving DecidableEq, Repr

namespace FreeList

def numPerAlloc : ℕ := 128

def grow (fl : FreeList) (memory : Bool) : FreeList :=
  if memory then
    { items := ((List.range' (fl.numAllocated + 1) numPerAlloc).reverse) ++ fl.items
      numAllocated := fl.numAllocated + numPerAlloc }
  else fl

def pop (fl : FreeList) : Option ℕ × FreeList :=
  match fl.items with
  | [] => (none, fl)
  | item :: items => (some item, { fl with items := items })

def get (fl : FreeList) (memory : Bool) : Option ℕ × FreeList :=
  if fl.items = [] then (fl.grow memory).pop else fl.pop

def put (fl : FreeList) (item : ℕ) : FreeList := { fl with items := item :: fl.items }

end FreeList

structure RbNode (K V : Type) where
  color : Color
  parent : ℕ
  left : ℕ
  right : ℕ
  key : K
  value : V

def RbNode.child {K V : Type} (n : RbNode K V) : Side → ℕ
  | .left => n.left
  | .right => n.right

abbrev Heap (K V : Type) := ℕ → RbNode K V

namespace Heap

variable {K V : Type}

def setColor (h : Heap K V) (a : ℕ) (c : Color) : Heap K V :=
  Function.update h a { h a with color := c }

def setParent (h : Heap K V) (a p : ℕ) : Heap K V :=
  Function.update h a { h a with parent := p }

def setChild (h : Heap K V) (s : Side) (a b : ℕ) : Heap K V :=
  Function.update h a (match s with
    | .left => { h a with left := b }
    | .right => { h a with right := b })

def setData (h : Heap K V) (a : ℕ) (key : K) (value : V) : Heap K V :=
  Function.update h a { h a with key := key, value := value }

/-- `left_rotate` for the left side, `right_rotate` for the right one. -/
def rotate (nill : ℕ) (s : Side) (h : Heap K V) (x : ℕ) : Heap K V :=
  let y := (h x).child s.other
  let h := if (h y).child s ≠ nill then h.setParent ((h y).child s) x else h
  let h := if x = (h (h x).parent).left then h.setChild .left (h x).parent y
    else h.setChild .right (h x).parent y
  let h := h.setParent y (h x).parent
  let h := h.setParent x y
  let h := h.setChild s.other x ((h y).child s)
  h.setChild s y x

def leftRotate (nill : ℕ) : Heap K V → ℕ → Heap K V := rotate nill .left

def rightRotate (nill : ℕ) : Heap K V → ℕ → Heap K V := rotate nill .right

/-- The body of the loop in `ompi_rb_tree_insert` where the parent is the child on side `s`. -/
def insertStep (nill : ℕ) (s : Side) (h : Heap K V) (node : ℕ) : Heap K V × ℕ :=
  let parent := (h node).parent
  let y := (h (h parent).parent).child s.other
  if (h y).color = .red then
    let h := (h.setColor parent .black).setColor y .black
    (h.setColor (h parent).parent .red, (h parent).parent)
  else
    let inner := node = (h parent).child s.other
    let h := if inner then h.rotate nill s parent else h
    let node := if inner then parent else node
    let h := h.setColor (h node).parent .black
    let h := h.setColor (h (h node).parent).parent .red
    (h.rotate nill s.other (h (h node).parent).parent, node)

def insertFixup (nill : ℕ) : ℕ → Heap K V → ℕ → Option (Heap K V)
  | 0, _, _ => none
  | fuel + 1, h, node =>
    let parent := (h node).parent
    if (h parent).color = .red then
      let s := if parent = (h (h parent).parent).left then Side.left else .right
      let (h, node) := h.insertStep nill s node
      insertFixup nill fuel h node
    else some h

/-- The body of the loop in `btree_delete_fixup` where `x` is the child on side `s`, with the node
the loop goes on at. -/
def deleteStep (nill root : ℕ) (s : Side) (h : Heap K V) (x : ℕ) : Heap K V × ℕ :=
  let w := (h (h x).parent).child s.other
  let red := (h w).color = .red
  let h := if red then
      let h := (h.setColor w .black).setColor (h x).parent .red
      h.rotate nill s (h x).parent
    else h
  let w := if red then (h (h x).parent).child s.other else w
  if (h ((h w).child s)).color = .black ∧ (h ((h w).child s.other)).color = .black then
    (h.setColor w .red, (h x).parent)
  else
    let near := (h ((h w).child s.other)).color = .black
    let h := if near then
        let h := (h.setColor ((h w).child s) .black).setColor w .red
        h.rotate nill s.other w
      else h
    let w := if near then (h (h x).parent).child s.other else w
    let h := h.setColor w (h (h x).parent).color
    let h := h.setColor (h x).parent .black
    let h := h.setColor ((h w).child s.other) .black
    (h.rotate nill s (h x).parent, root)

/-- The loop of `btree_delete_fixup`, with the root as it was before the loop. -/
def deleteLoop (nill root : ℕ) : ℕ → Heap K V → ℕ → Option (Heap K V)
  | 0, _, _ => none
  | fuel + 1, h, x =>
    if x ≠ root ∧ (h x).color = .black then
      let s := if x = (h (h x).parent).left then Side.left else .right
      let (h, x) := h.deleteStep nill root s x
      deleteLoop nill root fuel h x
    else some (h.setColor x .black)

def deleteFixup (nill rootPtr fuel : ℕ) (h : Heap K V) (x : ℕ) : Option (Heap K V) :=
  deleteLoop nill (h rootPtr).left fuel h x

end Heap

inductive RbStatus
  | success
  | notFound
  | tempOutOfResource
  deriving DecidableEq, Repr

structure RbTree (K V : Type) where
  heap : Heap K V
  rootPtr : ℕ
  nill : ℕ
  comp : K → K → ℤ
  freeList : FreeList
  treeSize : ℕ

namespace RbTree

variable {K V : Type}

/-- `ompi_rb_tree_init` of a constructed tree, over memory that holds anything. -/
def init (heap : Heap K V) (comp : K → K → ℤ) (memory : Bool) : Option (RbTree K V) :=
  let (root, freeList) := FreeList.get {} memory
  root.bind fun rootPtr =>
    let (nill, freeList) := freeList.get memory
    nill.map fun nill =>
      let heap := ((heap.setColor nill .black).setChild .left nill nill).setChild .right nill nill
      let heap := heap.setParent nill nill
      let heap := (heap.setChild .left rootPtr nill).setChild .right rootPtr nill
      let heap := (heap.setParent rootPtr nill).setColor rootPtr .black
      { heap, rootPtr, nill, comp, freeList, treeSize := 0 }

/-- The loop that finds the leaf in `btree_insert`: the parent of the new node. -/
def findLeaf (h : Heap K V) (t : RbTree K V) (key : K) : ℕ → ℕ → ℕ → Option ℕ
  | 0, _, _ => none
  | fuel + 1, parent, n =>
    if n ≠ t.nill then
      findLeaf h t key fuel n (if t.comp key (h n).key ≤ 0 then (h n).left else (h n).right)
    else some parent

def btreeInsert (fuel : ℕ) (t : RbTree K V) (node : ℕ) : Option (RbTree K V) :=
  let h := (t.heap.setColor node .red).setParent node 0
  let h := (h.setChild .left node t.nill).setChild .right node t.nill
  (findLeaf h t (h node).key fuel t.rootPtr (h t.rootPtr).left).map fun parent =>
    let s := if parent = t.rootPtr ∨ t.comp (h node).key (h parent).key ≤ 0 then Side.left else .right
    let h := (h.setChild s parent node).setParent node parent
    let h := (h.setChild .left node t.nill).setChild .right node t.nill
    { t with heap := h, treeSize := t.treeSize + 1 }

def insert (fuel : ℕ) (t : RbTree K V) (key : K) (value : V) (memory : Bool) :
    Option (RbStatus × RbTree K V) :=
  match t.freeList.get memory with
  | (none, freeList) => some (.tempOutOfResource, { t with freeList })
  | (some node, freeList) =>
    let t := { t with freeList, heap := t.heap.setData node key value }
    (t.btreeInsert fuel node).bind fun t =>
      (t.heap.insertFixup t.nill fuel node).map fun h =>
        (.success, { t with heap := h.setColor (h t.rootPtr).left .black })

/-- The loop of `ompi_rb_tree_find_with` and of `ompi_rb_tree_find_node`: the node found. -/
def findLoop (t : RbTree K V) (compfn : K → K → ℤ) (key : K) : ℕ → ℕ → Option (Option ℕ)
  | 0, _ => none
  | fuel + 1, node =>
    if node ≠ t.nill then
      let compvalue := compfn key (t.heap node).key
      if compvalue = 0 then some (some node)
      else
        findLoop t compfn key fuel
          (if compvalue < 0 then (t.heap node).left else (t.heap node).right)
    else some none

def findWith (fuel : ℕ) (t : RbTree K V) (key : K) (compfn : K → K → ℤ) : Option (Option V) :=
  (t.findLoop compfn key fuel (t.heap t.rootPtr).left).map fun node =>
    node.map fun node => (t.heap node).value

def find (fuel : ℕ) (t : RbTree K V) (key : K) : Option (Option V) := t.findWith fuel key t.comp

def findNode (fuel : ℕ) (t : RbTree K V) (key : K) : Option (Option ℕ) :=
  t.findLoop t.comp key fuel (t.heap t.rootPtr).left

def successorUp (t : RbTree K V) : ℕ → ℕ → ℕ → Option ℕ
  | 0, _, _ => none
  | fuel + 1, node, p =>
    if node = (t.heap p).right then successorUp t fuel p (t.heap p).parent
    else some (if p = t.rootPtr then t.nill else p)

def successorDown (t : RbTree K V) : ℕ → ℕ → Option ℕ
  | 0, _ => none
  | fuel + 1, p =>
    if (t.heap p).left ≠ t.nill then successorDown t fuel (t.heap p).left else some p

def btreeSuccessor (fuel : ℕ) (t : RbTree K V) (node : ℕ) : Option ℕ :=
  if (t.heap node).right = t.nill then t.successorUp fuel node (t.heap node).parent
  else t.successorDown fuel (t.heap node).right

/-- Take the node `todelete`, which is `p` or its successor, out of the tree. -/
def unlink (t : RbTree K V) (p todelete : ℕ) : Heap K V × ℕ :=
  let h := t.heap
  let y := if (h todelete).left = t.nill then (h todelete).right else (h todelete).left
  let h := h.setParent y (h todelete).parent
  let h := if (h y).parent = t.rootPtr then h.setChild .left t.rootPtr y
    else if todelete = (h (h todelete).parent).left then h.setChild .left (h todelete).parent y
    else h.setChild .right (h todelete).parent y
  (if todelete ≠ p then h.setData p (h todelete).key (h todelete).value else h, y)

def delete (fuel : ℕ) (t : RbTree K V) (key : K) : Option (RbStatus × RbTree K V) :=
  (t.findNode fuel key).bind fun
    | none => some (.notFound, t)
    | some p =>
      let todelete := if (t.heap p).left = t.nill ∨ (t.heap p).right = t.nill then some p
        else t.btreeSuccessor fuel p
      todelete.bind fun todelete =>
        let (h, y) := t.unlink p todelete
        let h := if (h todelete).color = .black then h.deleteFixup t.nill t.rootPtr fuel y else some h
        h.map fun h =>
          (.success, { t with
            heap := h, freeList := t.freeList.put todelete, treeSize := t.treeSize - 1 })

inductive Call (K V : Type)
  | insert (key : K) (value : V) (memory : Bool)
  | delete (key : K)
  | find (key : K)
  deriving DecidableEq, Repr

inductive Answer (V : Type)
  | status (rc : RbStatus)
  | value (v : Option V)
  deriving DecidableEq, Repr

def call (fuel : ℕ) (t : RbTree K V) : Call K V → Option (Answer V × RbTree K V)
  | .insert key value memory => (t.insert fuel key value memory).map fun r => (.status r.1, r.2)
  | .delete key => (t.delete fuel key).map fun r => (.status r.1, r.2)
  | .find key => (t.find fuel key).map fun v => (.value v, t)

def run (fuel : ℕ) (t : RbTree K V) (calls : List (Call K V)) : Option (RbTree K V) :=
  calls.foldlM (fun t c => (t.call fuel c).map Prod.snd) t

end RbTree

end OpenMPI.Class
