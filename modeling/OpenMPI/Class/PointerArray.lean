import Mathlib.Algebra.Order.Ring.Int
import Mathlib.Data.List.Basic

/-!
# Pointer arrays

`opal_pointer_array_t` is a table of pointers that grows, with a count of its free slots and the
index of the lowest one.  An operation has no result where it reads or writes outside the table or
uses memory that it gave back.

Whether there is memory is a parameter of the operations that ask for some.  An `int` that overflows
wraps, and more than 2^63 bytes are never there.  The lock is left out.
-/

namespace OpenMPI.Class

/-- `opal_pointer_array_t`; a slot that is `NULL` is `none`, and so is `addr` before there is a
table. -/
structure PointerArray (α : Type) where
  lowestFree : ℤ
  numberFree : ℤ
  size : ℤ
  maxSize : ℤ
  blockSize : ℤ
  addr : Option (List (Option α))
  deriving DecidableEq, Repr

namespace PointerArray

variable {α : Type}

def intMax : ℤ := 2147483647

def toInt (n : ℤ) : ℤ := n.bmod (2 ^ 32)

def fortranHandleMax : ℤ := intMax

def tableInit : ℤ := 1

def tableGrow : ℤ := 2

def construct : PointerArray α := ⟨0, 0, 0, intMax, 0, none⟩

def slots (t : PointerArray α) : List (Option α) := t.addr.getD []

def slot (t : PointerArray α) (index : ℤ) : Option (Option α) :=
  if index < 0 then none else t.slots[index.toNat]?

/-- `addr[index] = value`, where there is a slot. -/
def store (t : PointerArray α) (index : ℤ) (value : Option α) : PointerArray α :=
  { t with addr := t.addr.map fun slots => slots.set index.toNat value }

def getItem (t : PointerArray α) (index : ℤ) : Option α := (t.slot index).join

def nextFree (t : PointerArray α) (index : ℤ) : Option ℤ :=
  let i := index.toNat
  ((List.range' i (t.size.toNat - i)).find? fun i => t.slots[i]?.any Option.isNone).map (↑)

def init (t : PointerArray α) (initialAllocation maxSize blockSize : ℤ) (memory : Bool) :
    Bool × PointerArray α :=
  if maxSize < blockSize then (false, t)
  else
    let numBytes := if 0 < initialAllocation then initialAllocation else blockSize
    let t := { t with maxSize, blockSize, numberFree := numBytes, size := numBytes }
    if 0 ≤ numBytes ∧ memory then
      (true, { t with addr := some (List.replicate numBytes.toNat none) })
    else (false, { t with addr := none })

def growTable (t : PointerArray α) (soft hard : ℤ) (memory : Bool) :
    Option (Bool × PointerArray α) :=
  if soft > t.maxSize ∧ hard > t.maxSize then some (false, t)
  else
    let newSize := if soft > t.maxSize then hard else soft
    if newSize ≥ t.maxSize then some (false, t)
    -- the table is given back
    else if newSize = 0 then none
    else if 0 < newSize ∧ memory then
      some (true, { t with
        numberFree := t.numberFree + (newSize - t.size)
        addr := some (t.slots.take newSize.toNat ++
          List.replicate (newSize.toNat - t.slots.length) none)
        size := newSize })
    else some (false, t)

/-- The table grows if no slot is free. -/
def growFull (t : PointerArray α) (memory : Bool) : Option (Bool × PointerArray α) :=
  if t.numberFree = 0 then
    t.growTable (if t.addr.isNone then tableInit else toInt (t.size * tableGrow)) fortranHandleMax
      memory
  else some (true, t)

def softFor (index : ℤ) : ℤ := toInt ((index.tdiv tableGrow + 1) * tableGrow)

def growTo (t : PointerArray α) (index : ℤ) (memory : Bool) : Option (Bool × PointerArray α) :=
  if t.size ≤ index then t.growTable (softFor index) index memory else some (true, t)

def add (t : PointerArray α) (ptr : α) (memory : Bool) : Option (Option ℤ × PointerArray α) :=
  (t.growFull memory).bind fun (grown, t) =>
    if !grown then some (none, t)
    else
      let index := t.lowestFree
      (t.slot index).map fun _ =>
        let t := { t.store index (some ptr) with numberFree := t.numberFree - 1 }
        (some index, { t with
          lowestFree :=
            if t.numberFree > 0 then (t.nextFree (index + 1)).getD t.lowestFree else t.size })

def setItem (t : PointerArray α) (index : ℤ) (value : Option α) (memory : Bool) :
    Option (Bool × PointerArray α) :=
  (t.growTo index memory).bind fun (grown, t) =>
    if !grown then some (false, t)
    else
      (t.slot index).map fun old =>
        let t :=
          if value.isNone then
            { t with
              lowestFree := if index < t.lowestFree then index else t.lowestFree
              numberFree := if old.isSome then t.numberFree + 1 else t.numberFree }
          else
            { t with
              numberFree := if old.isNone then t.numberFree - 1 else t.numberFree
              lowestFree :=
                if index = t.lowestFree then (t.nextFree (index + 1)).getD t.size
                else t.lowestFree }
        (true, t.store index value)

def testAndSetItem (t : PointerArray α) (index : ℤ) (value : α) (memory : Bool) :
    Option (Bool × PointerArray α) :=
  let inUse := if index < t.size then (t.slot index).map Option.isSome else some false
  inUse.bind fun inUse =>
    if inUse then some (false, t)
    else
      (t.growTo index memory).bind fun (grown, t) =>
        if !grown then some (false, t)
        else
          (t.slot index).map fun _ =>
            let t := { t.store index (some value) with numberFree := t.numberFree - 1 }
            (true, { t with
              lowestFree :=
                if index = t.lowestFree then (t.nextFree index).getD t.size else t.lowestFree })

inductive Call (α : Type)
  | init (initialAllocation maxSize blockSize : Int32) (memory : Bool)
  | add (ptr : α) (memory : Bool)
  | setItem (index : Int32) (value : Option α) (memory : Bool)
  | testAndSetItem (index : Int32) (value : α) (memory : Bool)
  deriving DecidableEq

/-- What a call returns: it failed, or it is done, at an index and with a value. -/
inductive Result (α : Type)
  | failed
  | initialised
  | item (index : ℤ) (value : Option α)
  deriving DecidableEq, Repr

def call (t : PointerArray α) : Call α → Option (Result α × PointerArray α)
  | .init initialAllocation maxSize blockSize memory =>
    let (done, t) := t.init initialAllocation.toInt maxSize.toInt blockSize.toInt memory
    some (if done then .initialised else .failed, t)
  | .add ptr memory =>
    (t.add ptr memory).map fun (index, t) =>
      (match index with
        | some index => .item index (some ptr)
        | none => .failed, t)
  | .setItem index value memory =>
    (t.setItem index.toInt value memory).map fun (done, t) =>
      (if done then .item index.toInt value else .failed, t)
  | .testAndSetItem index value memory =>
    (t.testAndSetItem index.toInt value memory).map fun (done, t) =>
      (if done then .item index.toInt (some value) else .failed, t)

def run (calls : List (Call α)) : Option (PointerArray α) :=
  calls.foldlM (fun t c => (t.call c).map Prod.snd) construct

end PointerArray

end OpenMPI.Class
