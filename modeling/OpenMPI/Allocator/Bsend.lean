import Mathlib.Algebra.Order.Ring.Int
import OpenMPI.Lib.Run

/-!
# Buffered sends

The user's buffer of the buffered sends, which `mca_allocator_basic` gets as one segment, splits and
merges.  Addresses and sizes are of 64 bits.
-/

namespace OpenMPI.Allocator

/-- The range of an address or a `size_t`. -/
def word : ℕ := 2 ^ 64

structure Segment where
  segAddr : ℕ
  segSize : ℕ
  deriving DecidableEq, Repr

/-- The static variables of `pml_base_bsend.c`, with the `seg_list` of the allocator and the word that
precedes each block in the buffer. -/
structure Bsend where
  base : ℕ
  addr : ℕ
  size : ℕ
  count : ℕ
  segList : List Segment
  header : ℕ → ℕ

/-- `mca_pml_base_bsend_attach`, where nothing is attached yet; `none` for `OMPI_ERR_BUFFER`. -/
def attach (addr : ℕ) (size : ℤ) (header : ℕ → ℕ) : Option Bsend :=
  if addr = 0 ∨ size ≤ 0 then none
  else
    let align := 8 - addr % 8
    some
      { base := (addr + align) % word
        addr := (addr + align) % word
        size := ((size - align) % word).toNat
        count := 0
        segList := []
        header := header }

def allocSegment (b : Bsend) (size : ℕ) : Option (ℕ × ℕ × Bsend) :=
  if (b.base + b.size) % word < (b.addr + size) % word then none
  else
    -- all that is left
    let size := ((b.size - (b.addr - b.base) : ℤ) % word).toNat
    some (b.addr, size, { b with addr := (b.addr + size) % word })

/-- The size of a block with its header, a multiple of the size of a header. -/
def normalize (size : ℕ) : ℕ :=
  let size := (size + 8) % word
  (size + (8 - size % 8)) % word

def takeFrom (size : ℕ) : List Segment → Option (ℕ × List Segment)
  | [] => none
  | seg :: l =>
    if size < seg.segSize then some (seg.segAddr, ⟨seg.segAddr + size, seg.segSize - size⟩ :: l)
    else if seg.segSize = size then some (seg.segAddr, l)
    else (takeFrom size l).map fun (addr, l) => (addr, seg :: l)

/-- `mca_allocator_basic_alloc`, which asks for a segment of `(unsigned char) size` bytes. -/
def basicAlloc (b : Bsend) (size : ℕ) : Option ℕ × Bsend :=
  let size := normalize size
  match takeFrom size b.segList with
  | some (addr, segList) =>
    (some (addr + 8), { b with segList := segList, header := Function.update b.header addr size })
  | none =>
    match allocSegment b (size % 2 ^ 8) with
    | none => (none, b)
    | some (addr, allocated, b) =>
      let segList :=
        if size < allocated then b.segList ++ [⟨addr + size, allocated - size⟩] else b.segList
      (some (addr + 8), { b with segList := segList, header := Function.update b.header addr size })

def combineNext (seg : Segment) : List Segment → List Segment
  | [] => [seg]
  | next :: l =>
    if seg.segAddr + seg.segSize = next.segAddr then ⟨seg.segAddr, next.segSize + seg.segSize⟩ :: l
    else seg :: next :: l

/-- `mca_allocator_basic_combine_prev`, with the list before the segment and after it. -/
def combinePrev (before : List Segment) (seg : Segment) (l : List Segment) : List Segment :=
  match before.getLast? with
  | none => seg :: l
  | some prev =>
    if prev.segAddr + prev.segSize = seg.segAddr then
      before.dropLast ++ ⟨prev.segAddr, prev.segSize + seg.segSize⟩ :: l
    else before ++ seg :: l

/-- The loop of `mca_allocator_basic_free`, with the segments it has gone past. -/
def putBack (addr size : ℕ) (before : List Segment) : List Segment → List Segment
  | [] => before ++ [⟨addr, size⟩]
  | seg :: l =>
    if seg.segAddr < addr then
      if seg.segAddr + seg.segSize = addr then
        before ++ combineNext ⟨seg.segAddr, seg.segSize + size⟩ l
      else putBack addr size (before ++ [seg]) l
    else if addr + size = seg.segAddr then combinePrev before ⟨addr, seg.segSize + size⟩ l
    else before ++ ⟨addr, size⟩ :: seg :: l

def basicFree (b : Bsend) (ptr : ℕ) : Bsend :=
  { b with segList := putBack (ptr - 8) (b.header (ptr - 8)) [] b.segList }

def requestAlloc (b : Bsend) (size : ℕ) : Option ℕ × Bsend :=
  if b.addr = 0 then (none, b)
  else
    match basicAlloc b size with
    | (none, b) => (none, b)
    | (some ptr, b) => (some ptr, { b with count := b.count + 1 })

def requestFree (b : Bsend) (ptr : ℕ) : Bsend :=
  let b := basicFree b ptr
  { b with count := b.count - 1 }

/-- A buffered send asks for memory; its completion gives it back. -/
inductive Call
  | alloc (size : ℕ)
  | free (ptr : ℕ)

/-- The blocks in use, each with the size asked for. -/
structure Sends where
  bsend : Bsend
  inUse : List (ℕ × ℕ)

def grant (s : Sends) (size : ℕ) : Sends :=
  match requestAlloc s.bsend size with
  | (none, b) => ⟨b, s.inUse⟩
  | (some ptr, b) => ⟨b, (ptr, size) :: s.inUse⟩

/-- The runs with a buffer attached; a block is given back once. -/
def sends (addr : ℕ) (size : ℤ) (header : ℕ → ℕ) : Lib.System Sends Call where
  init s := attach addr size header = some s.bsend ∧ s.inUse = []
  step s c t :=
    match c with
    | .alloc size => t = grant s size
    | .free ptr => ∃ size, (ptr, size) ∈ s.inUse ∧
        t = ⟨requestFree s.bsend ptr, s.inUse.erase (ptr, size)⟩

end OpenMPI.Allocator
