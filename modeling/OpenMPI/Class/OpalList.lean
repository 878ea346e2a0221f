import Mathlib.Algebra.Order.Ring.Int
import Mathlib.Data.Set.Insert
import OpenMPI.Lib.Linked
import OpenMPI.Lib.Run

/-!
# Doubly linked lists

`opal_list_t`, without the checks of a debug build.  A list is known by the address of its sentinel, an
item by its own; address 0 is `NULL`.  `opal_list_length` counts items, which are fewer than there are
addresses, so that it does not wrap around.  `none` stands for an overflow of the `int` that counts in
`opal_list_insert` and for a loop that does not end.
-/

namespace OpenMPI.Class.OpalList

/-- The links of all items and sentinels, and the lengths of the lists. -/
structure Heap where
  next : ℕ → ℕ
  prev : ℕ → ℕ
  length : ℕ → ℕ

namespace Heap

def setNext (h : Heap) (item v : ℕ) : Heap := { h with next := Function.update h.next item v }

def setPrev (h : Heap) (item v : ℕ) : Heap := { h with prev := Function.update h.prev item v }

def setLength (h : Heap) (list v : ℕ) : Heap := { h with length := Function.update h.length list v }

end Heap

variable (h : Heap) (list : ℕ)

def append (item : ℕ) : Heap :=
  let h := h.setPrev item (h.prev list)
  let h := h.setNext (h.prev list) item
  let h := h.setNext item list
  let h := h.setPrev list item
  h.setLength list (h.length list + 1)

def prepend (item : ℕ) : Heap :=
  let h := h.setNext item (h.next list)
  let h := h.setPrev item list
  let h := h.setPrev (h.next list) item
  let h := h.setNext list item
  h.setLength list (h.length list + 1)

def insertPos (pos item : ℕ) : Heap :=
  let h := h.setNext item pos
  let h := h.setPrev item (h.prev pos)
  let h := h.setNext (h.prev pos) item
  let h := h.setPrev pos item
  h.setLength list (h.length list + 1)

def insert (item : ℕ) (idx : ℤ) : Option (Bool × Heap) :=
  if idx ≥ h.length list then some (false, h)
  else if idx = 0 then
    let h := prepend h list item
    some (true, h.setLength list (h.length list + 1))
  else if idx - 1 > 2 ^ 31 - 1 then none
  else
    let ptr := h.next^[(idx - 1).toNat] (h.next list)
    let next := h.next ptr
    let h := h.setNext item next
    let h := h.setPrev item ptr
    let h := h.setPrev next item
    let h := h.setNext ptr item
    some (true, h.setLength list (h.length list + 1))

def removeItem (item : ℕ) : ℕ × Heap :=
  let h := h.setNext (h.prev item) (h.next item)
  let h := h.setPrev (h.next item) (h.prev item)
  (h.prev item, h.setLength list (h.length list - 1))

def removeFirst : ℕ × Heap :=
  if h.length list = 0 then (0, h)
  else
    let h := h.setLength list (h.length list - 1)
    let item := h.next list
    let h := h.setPrev (h.next item) (h.prev item)
    (item, h.setNext list (h.next item))

def removeLast : ℕ × Heap :=
  if h.length list = 0 then (0, h)
  else
    let h := h.setLength list (h.length list - 1)
    let item := h.prev list
    let h := h.setNext (h.prev item) (h.next item)
    (item, h.setPrev list (h.prev item))

/-- `opal_list_transfer`: the items from `first` to the one before `last` go before `pos`. -/
def transfer (pos first last : ℕ) : Heap :=
  if pos = last then h
  else
    let h := h.setNext (h.prev last) pos
    let h := h.setNext (h.prev first) last
    let h := h.setNext (h.prev pos) first
    let tmp := h.prev pos
    let h := h.setPrev pos (h.prev last)
    let h := h.setPrev last (h.prev first)
    h.setPrev first tmp

def join (pos xlist : ℕ) : Heap :=
  if h.length xlist = 0 then h
  else
    let h := transfer h pos (h.next xlist) xlist
    let h := h.setLength list (h.length list + h.length xlist)
    h.setLength xlist 0

/-- The loop of `opal_list_splice`: how many items there are before `last`. -/
def countUntil (last : ℕ) : (fuel tmp change : ℕ) → Option ℕ
  | 0, _, _ => none
  | fuel + 1, tmp, change => if tmp = last then some change else countUntil last fuel (h.next tmp) (change + 1)

/-- `opal_list_splice`; a loop longer than the list has gone around. -/
def splice (pos xlist first last : ℕ) : Option Heap :=
  if first = last then some h
  else
    (countUntil h last (h.length xlist + 1) first 0).map fun change =>
      let h := transfer h pos first last
      let h := h.setLength list (h.length list + change)
      h.setLength xlist (h.length xlist - change)

def drain : (fuel : ℕ) → Heap → Option (List ℕ × Heap)
  | 0, _ => none
  | fuel + 1, h =>
    match removeFirst h list with
    | (0, h) => some ([], h)
    | (item, h) => (drain fuel h).map fun (items, h) => (item :: items, h)

/-- `opal_list_sort`, with what `qsort` makes of the array, if there is memory for it. -/
def sort (qsort : List ℕ → List ℕ) (memory : Bool) : Option Heap :=
  if h.length list = 0 ∨ memory = false then some h
  else (drain list (h.length list + 1) h).map fun (items, h) => (qsort items).foldl (fun h item => append h list item) h

/-- `qsort` with a comparison: the same items, in an order without a step down if the comparison is one
of a total order. -/
structure Qsort where
  compare : ℕ → ℕ → ℤ
  sorted : List ℕ → List ℕ
  perm : ∀ l, (sorted l).Perm l
  pairwise : (∀ a b, compare a b ≤ 0 ∨ compare b a ≤ 0) →
    (∀ a b c, compare a b ≤ 0 → compare b c ≤ 0 → compare a c ≤ 0) →
    ∀ l, (sorted l).Pairwise fun a b => compare a b ≤ 0

inductive Op
  | append (list item : ℕ)
  | prepend (list item : ℕ)
  | insert (list item : ℕ) (idx : ℤ)
  | insertPos (list pos item : ℕ)
  | removeItem (list item : ℕ)
  | removeFirst (list : ℕ)
  | removeLast (list : ℕ)
  | join (list pos xlist : ℕ)
  | splice (list pos xlist first last : ℕ)
  | sort (list : ℕ) (q : Qsort) (memory : Bool)

inductive Ret
  | void
  | bool (b : Bool)
  | item (p : ℕ)
  deriving DecidableEq

def run (h : Heap) : Op → Option (Ret × Heap)
  | .append list item => some (.void, append h list item)
  | .prepend list item => some (.void, prepend h list item)
  | .insert list item idx => (insert h list item idx).map fun (b, h) => (.bool b, h)
  | .insertPos list pos item => some (.void, insertPos h list pos item)
  | .removeItem list item => let (p, h) := removeItem h list item; some (.item p, h)
  | .removeFirst list => let (p, h) := removeFirst h list; some (.item p, h)
  | .removeLast list => let (p, h) := removeLast h list; some (.item p, h)
  | .join list pos xlist => some (.void, join h list pos xlist)
  | .splice list pos xlist first last => (splice h list pos xlist first last).map fun h => (.void, h)
  | .sort list q memory => (sort h list q.sorted memory).map fun h => (.void, h)

def insertBefore (pos : ℕ) (items xs : List ℕ) : List ℕ := xs.takeWhile (· ≠ pos) ++ (items ++ xs.dropWhile (· ≠ pos))

/-- The items from `first` to the one before `last`, and all others. -/
def range (first last : ℕ) (xs : List ℕ) : List ℕ := (xs.dropWhile (· ≠ first)).takeWhile (· ≠ last)

def others (first last : ℕ) (xs : List ℕ) : List ℕ :=
  xs.takeWhile (· ≠ first) ++ (xs.dropWhile (· ≠ first)).dropWhile (· ≠ last)

/-- What a call does to the sequences, and returns. -/
def apply (seqs : ℕ → List ℕ) : Op → Ret × (ℕ → List ℕ)
  | .append list item => (.void, Function.update seqs list (seqs list ++ [item]))
  | .prepend list item => (.void, Function.update seqs list (item :: seqs list))
  | .insert list item idx =>
    if 0 ≤ idx ∧ idx < (seqs list).length then
      (.bool true, Function.update seqs list ((seqs list).take idx.toNat ++ item :: (seqs list).drop idx.toNat))
    else (.bool false, seqs)
  | .insertPos list pos item => (.void, Function.update seqs list (insertBefore pos [item] (seqs list)))
  | .removeItem list item =>
    (.item ((list :: (seqs list).takeWhile (· ≠ item)).getLastD 0), Function.update seqs list ((seqs list).erase item))
  | .removeFirst list => (.item ((seqs list).headD 0), Function.update seqs list (seqs list).tail)
  | .removeLast list => (.item ((seqs list).getLastD 0), Function.update seqs list (seqs list).dropLast)
  | .join list pos xlist =>
    (.void, Function.update (Function.update seqs xlist []) list (insertBefore pos (seqs xlist) (seqs list)))
  | .splice list pos xlist first last =>
    let rest := Function.update seqs xlist (others first last (seqs xlist))
    (.void, Function.update rest list (insertBefore pos (range first last (seqs xlist)) (rest list)))
  | .sort list q memory => (.void, if memory then Function.update seqs list (q.sorted (seqs list)) else seqs)

def Loose (lists : Set ℕ) (seqs : ℕ → List ℕ) (item : ℕ) : Prop :=
  item ≠ 0 ∧ item ∉ lists ∧ ∀ l ∈ lists, item ∉ seqs l

/-- What the calls ask of their arguments: items put in are on no list, and positions are those of the
list or its end; a list is not joined to itself, and items do not go between themselves. -/
def Allowed (lists : Set ℕ) (seqs : ℕ → List ℕ) : Op → Prop
  | .append list item | .prepend list item | .insert list item _ => list ∈ lists ∧ Loose lists seqs item
  | .insertPos list pos item => list ∈ lists ∧ Loose lists seqs item ∧ pos ∈ list :: seqs list
  | .removeItem list item => list ∈ lists ∧ item ∈ seqs list
  | .removeFirst list | .removeLast list | .sort list _ _ => list ∈ lists
  | .join list pos xlist => list ∈ lists ∧ xlist ∈ lists ∧ list ≠ xlist ∧ pos ∈ list :: seqs list
  | .splice list pos xlist first last => list ∈ lists ∧ xlist ∈ lists ∧ pos ∈ list :: seqs list ∧
    ∃ as bs cs, seqs xlist = as ++ (bs ++ cs) ∧ (bs ++ cs ++ [xlist]).head? = some first ∧
      (cs ++ [xlist]).head? = some last ∧ pos ∉ bs

/-- The lists with their sequences, and what each call has returned beside what it should. -/
structure World where
  heap : Heap
  seqs : ℕ → List ℕ
  returned : List (Ret × Ret)

def World.call (w : World) (op : Op) : Option World :=
  (run w.heap op).map fun (ret, heap) => ⟨heap, (apply w.seqs op).2, w.returned ++ [(ret, (apply w.seqs op).1)]⟩

def step (lists : Set ℕ) : Option World → Op → Option World → Prop
  | none, _, _ => False
  | some w, op, t => Allowed lists w.seqs op ∧ t = w.call op

/-- Calls on any number of lists that `opal_list_construct` has made. -/
def calls (lists : Set ℕ) : Lib.System (Option World) Op where
  init s := ∃ w, s = some w ∧ w.returned = [] ∧ 0 ∉ lists ∧
    ∀ l ∈ lists, w.seqs l = [] ∧ w.heap.next l = l ∧ w.heap.prev l = l ∧ w.heap.length l = 0
  step := step lists

/-- Each list's links are those of its sequence, in both directions, its length is right, and so is what
the calls returned. -/
def Refines (lists : Set ℕ) (s : Option World) : Prop :=
  ∃ w, s = some w ∧ (∀ l ∈ lists, Lib.Ring w.heap.next w.heap.prev l (w.seqs l) ∧ w.heap.length l = (w.seqs l).length) ∧
    ∀ r ∈ w.returned, r.1 = r.2

/-- `opal_list_insert` puts nothing in before the first item, nor behind a place that an `int` cannot count
to; from the length of the list on, it does nothing. -/
def Careful : Option World → Op → Prop
  | some w, .insert list _ idx => (0 < idx ∧ idx ≤ 2 ^ 31) ∨ (w.seqs list).length ≤ idx
  | _, _ => True

end OpenMPI.Class.OpalList
