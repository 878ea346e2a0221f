import Mathlib.Algebra.Order.Ring.Int
import Mathlib.Order.Bounds.Defs
import OpenMPI.Lib.Run

/-!
# Bitmaps

`opal_bitmap`: the bits of an array of bytes, which grows when a bit beyond its end is set.
-/

namespace OpenMPI.Class

/-- `opal_bitmap_t`; `array_size` is the length. -/
abbrev Bitmap := List (BitVec 8)

namespace Bitmap

def init (size : ℕ) : Bitmap := List.replicate (size / 8 + if size % 8 = 0 then 0 else 1) 0

def setBit (bm : Bitmap) (bit : ℕ) : Bitmap :=
  let index := bit / 8
  let offset := bit % 8
  let newSize := if bm.length ≤ index then (index / bm.length + 1) * bm.length else bm.length
  (bm ++ List.replicate (newSize - bm.length) 0).modify index (· ||| BitVec.twoPow 8 offset)

def isSetBit (bm : Bitmap) (bit : ℕ) : Bool :=
  if bit ≥ bm.length * 8 then false
  else bm.getD (bit / 8) 0 &&& BitVec.twoPow 8 (bit % 8) ≠ 0

/-- `OMPI_FORTRAN_HANDLE_MAX`, where a Fortran integer is as long as an `int`. -/
def handleMax : ℕ := 2147483647

def ompiSetBit (bm : Bitmap) (bit : ℕ) : Option Bitmap :=
  let index := bit / 8
  let offset := bit % 8
  if bit > handleMax then none
  else if index ≥ bm.length ∧ bm.length ≥ handleMax then none
  else
    let newSize := if index ≥ bm.length then min ((index / bm.length + 1) * bm.length) handleMax else bm.length
    some ((bm ++ List.replicate (newSize - bm.length) 0).modify index (· ||| BitVec.twoPow 8 offset))

def ompiClearBit (bm : Bitmap) (bit : ℕ) : Bitmap :=
  if bit ≥ bm.length * 8 then bm else bm.modify (bit / 8) (· &&& ~~~BitVec.twoPow 8 (bit % 8))

def lowOnes : ℕ → BitVec 8 → ℕ
  | 0, _ => 0
  | n + 1, temp => if temp &&& 1 = 0 then 0 else lowOnes n (temp >>> 1) + 1

def findAndSetFirstUnsetBit (bm : Bitmap) : Option (ℕ × Bitmap) :=
  let i := (bm.takeWhile (· == 0xff)).length
  if i = bm.length then
    let position := bm.length * 8
    (ompiSetBit bm position).map fun bm => (position, bm)
  else
    let temp := bm.getD i 0
    some (lowOnes 8 temp + i * 8, bm.set i (temp ||| (temp + 1)))

/-- `array_size * SIZE_OF_CHAR`, an `int`. -/
def numBits (bm : Bitmap) : ℤ := ((bm.length * 8 : ℕ) : ℤ).bmod (2 ^ 32)

def errBadParam : ℤ := -5

def ompiIsSetBit (bm : Bitmap) (bit : ℤ) : ℤ :=
  if bit < 0 ∨ bit ≥ bm.numBits then errBadParam
  else if bit.toNat / 8 ≥ bm.length then errBadParam
  else if bm.getD (bit.toNat / 8) 0 &&& BitVec.twoPow 8 (bit.toNat % 8) ≠ 0 then 1
  else 0

/-- The calls that change a bitmap; a bit is an `int`. -/
inductive Call
  | setBit (bit : ℤ)
  | clearBit (bit : ℤ)
  | findAndSetFirstUnsetBit

/-- The bitmap after a call, and the bit that it set or cleared, if it does not fail. -/
def Call.run (bm : Bitmap) : Call → Bitmap × Option ℕ
  | setBit bit =>
    if bit < 0 then (bm, none)
    else match bm.ompiSetBit bit.toNat with
      | some bm' => (bm', some bit.toNat)
      | none => (bm, none)
  | clearBit bit => if bit < 0 ∨ bit ≥ bm.numBits then (bm, none) else (bm.ompiClearBit bit.toNat, some bit.toNat)
  -- beyond the last `int` the position is negative, and refused as well
  | findAndSetFirstUnsetBit =>
    match bm.findAndSetFirstUnsetBit with
    | some (position, bm') => (bm', some position)
    | none => (bm, none)

/-- A bitmap, with the calls there were and their results, the last one first. -/
structure World where
  bm : Bitmap
  log : List (Call × Option ℕ)

def World.call (w : World) (call : Call) : World := ⟨(call.run w.bm).1, (call, (call.run w.bm).2) :: w.log⟩

/-- All calls there may be on a bitmap that was made for some bits. -/
def calls : Lib.System World Call where
  init w := ∃ size, 0 < size ∧ size ≤ handleMax ∧ w = ⟨init size, []⟩
  step w call t := t = w.call call

/-- The number was set, and not cleared since. -/
def Stands (i : ℕ) : List (Call × Option ℕ) → Prop
  | [] => False
  | (.setBit _, result) :: log => result = some i ∨ Stands i log
  | (.clearBit bit, _) :: log => (i : ℤ) ≠ bit ∧ Stands i log
  | (.findAndSetFirstUnsetBit, result) :: log => result = some i ∨ Stands i log

/-- What a call returns after those of the log: a bit is set unless it is out of range, and the search finds the least
number that is not there. -/
def Call.Answers (log : List (Call × Option ℕ)) (result : Option ℕ) : Call → Prop
  | setBit bit => result = if 0 ≤ bit ∧ bit ≤ handleMax then some bit.toNat else none
  | clearBit _ => True
  | findAndSetFirstUnsetBit => ∃ position, IsLeast {i | ¬Stands i log} position ∧ result = some position

def Answered : List (Call × Option ℕ) → Prop
  | [] => True
  | (call, result) :: log => call.Answers log result ∧ Answered log

/-- The bitmap is the set of the numbers that stand, and the results were those of the set. -/
def Refines (w : World) : Prop :=
  (∀ bit : ℤ, w.bm.ompiIsSetBit bit = 1 ↔ 0 ≤ bit ∧ Stands bit.toNat w.log) ∧ Answered w.log

end Bitmap

end OpenMPI.Class
