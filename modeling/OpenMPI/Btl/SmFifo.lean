import OpenMPI.Btl.Base
import OpenMPI.Lib.Run

/-!
# The queue of a process in shared memory

`btl_sm`: writers put values into the slots of a queue one at a time, holding the head lock.  The reader takes
them out without a lock, and clears the slots that it has read later, some of them at once.
-/

namespace OpenMPI.Btl

open Lib

/-- `mca_btl_sm_fifo_t`; a slot with nothing holds `SM_FIFO_FREE`. -/
structure Fifo (α : Type*) where
  queue : ℕ → Option α
  head : ℕ
  mask : ℕ
  tail : ℕ
  numToClear : ℤ
  lazyFree : ℤ

/-- The parameters `fifo_size` and `fifo_lazy_free`, which are `int`s. -/
structure FifoParams where
  fifoSize : ℤ
  fifoLazyFree : ℤ
  size_int : -2 ^ 31 ≤ fifoSize ∧ fifoSize < 2 ^ 31
  lazy_int : -2 ^ 31 ≤ fifoLazyFree ∧ fifoLazyFree < 2 ^ 31

/-- `mca_btl_sm_component_open`: `fifo_lazy_free` is made to fit `fifo_size`. -/
def FifoParams.lazyFree (p : FifoParams) : ℕ :=
  let fifoSize := size64 p.fifoSize
  let fifoLazyFree := size64 p.fifoLazyFree
  let fifoLazyFree := if fifoLazyFree ≥ fifoSize >>> 1 then fifoSize >>> 1 else fifoLazyFree
  if fifoLazyFree ≤ 0 then 1 else fifoLazyFree

/-- The loop that doubles `qsize`; it has no result when a double does not fit an `int`. -/
def qsizeLoop (fifoSize : ℤ) : ℕ → ℕ → Option ℕ
  | 0, _ => none
  | fuel + 1, qsize =>
    if qsize < fifoSize then if 2 * qsize < 2 ^ 31 then qsizeLoop fifoSize fuel (2 * qsize) else none
    else some qsize

/-- An index with `& fifo->mask`. -/
def masked (i : ℤ) (mask : ℕ) : ℕ := (i % 2 ^ 32).toNat &&& mask

section Fifo

variable {ι α : Type*}

def fifoInit (fifoSize lazyFree : ℤ) : Option (Fifo α) :=
  (qsizeLoop fifoSize 32 1).map fun qsize => ⟨fun _ => none, 0, qsize - 1, 0, 0, lazyFree⟩

/-- `sm_fifo_write`, or nothing for `OMPI_ERR_OUT_OF_RESOURCE`. -/
def fifoWrite (value : α) (fifo : Fifo α) : Option (Fifo α) :=
  match fifo.queue fifo.head with
  | some _ => none
  | none => some { fifo with
      queue := Function.update fifo.queue fifo.head (some value)
      head := masked (fifo.head + 1) fifo.mask }

/-- Where a call of `sm_fifo_read` is: it clears slot `i` next, and will return a value. -/
inductive Reader (α : Type*)
  | out
  | clearing (value : α) (i : ℕ)

structure FifoState (α : Type*) where
  fifo : Fifo α
  reader : Reader α
  written : List α
  read : List α

inductive FifoStep (ι α : Type*)
  | write (writer : ι) (value : α)
  | read
  | clear

namespace FifoState

/-- `sm_fifo_read` up to the loop that clears. -/
def enterRead (s : FifoState α) : FifoState α :=
  match s.fifo.queue s.fifo.tail with
  | none => s
  | some value =>
    let fifo := { s.fifo with
      tail := masked (s.fifo.tail + 1) s.fifo.mask
      numToClear := s.fifo.numToClear + 1 }
    if fifo.numToClear ≥ fifo.lazyFree then
      { s with fifo := fifo, reader := .clearing value (masked (fifo.tail - fifo.numToClear) fifo.mask) }
    else { s with fifo := fifo, read := s.read ++ [value] }

/-- One turn of the loop that clears, or the return after it. -/
def clear (s : FifoState α) (value : α) (i : ℕ) : FifoState α :=
  if s.fifo.numToClear > 0 then
    { s with
      fifo := { s.fifo with
        queue := Function.update s.fifo.queue i none
        numToClear := s.fifo.numToClear - 1 }
      reader := .clearing value (masked (i + 1) s.fifo.mask) }
  else { s with reader := .out, read := s.read ++ [value] }

def write (s : FifoState α) (value : α) : FifoState α :=
  match fifoWrite value s.fifo with
  | none => s
  | some fifo => { s with fifo := fifo, written := s.written ++ [value] }

def step (s : FifoState α) : FifoStep ι α → FifoState α → Prop
  | .write _ value, s' => s' = s.write value
  | .read, s' => s.reader = .out ∧ s' = s.enterRead
  | .clear, s' => ∃ value i, s.reader = .clearing value i ∧ s' = s.clear value i

/-- What was read is what was written, in order; a write is refused only when all slots are in use, and never
when all was read. -/
structure Right (s : FifoState α) : Prop where
  ordered : s.read <+: s.written
  refused : ∀ value, fifoWrite value s.fifo = none →
    ∀ i ≤ s.fifo.mask, ∃ w ∈ s.written, s.fifo.queue i = some w
  accepted : s.read = s.written → ∀ value, fifoWrite value s.fifo ≠ none

end FifoState

variable (ι α) in
def FifoParams.system (p : FifoParams) : System (FifoState α) (FifoStep ι α) where
  init s := fifoInit (int32 (size64 p.fifoSize)) (int32 p.lazyFree) = some s.fifo ∧ s.reader = .out ∧
    s.written = [] ∧ s.read = []
  step := FifoState.step

variable (ι α) in
def FifoParams.Sound (p : FifoParams) : Prop :=
  (∃ s, (p.system ι α).init s) ∧ ∀ s, (p.system ι α).Reachable s → s.Right

end Fifo

/-- The sizes that a doubling reaches, and below them only clearing at once. -/
def FifoParams.Fits (p : FifoParams) : Prop :=
  0 ≤ p.fifoSize ∧ p.fifoSize ≤ 2 ^ 30 ∨ p.fifoSize < 0 ∧ p.fifoLazyFree ≤ 1

end OpenMPI.Btl
