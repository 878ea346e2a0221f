import OpenMPI.Allocator.Bsend
import OpenMPI.Lib.Linked

/-!
# The bucket allocator

`allocator_bucket_alloc.c`.  The chunks of a segment are kept as the list that their `next_in_segment`
goes through, the segments of a bucket as that of their `next_segment`; the free lists go through the
words of the chunks' headers.  `none` stands for an access outside the array of buckets or at address 0,
and for a loop that does not end.
-/

namespace OpenMPI.Allocator.Buckets

open Lib (seek)

/-- A segment with the size that `get_mem_fn` gave it. -/
structure Seg where
  addr : ℕ
  size : ℕ
  chunks : List ℕ

structure Bucket where
  freeChunk : ℕ
  segments : List Seg

/-- The allocator: `u` is the union in the header of the chunk at an address, and `data` are the bytes of
the blocks. -/
structure Mem (β : Type*) where
  numBuckets : ℕ
  buckets : ℕ → Bucket
  u : ℕ → ℕ
  data : ℕ → β

variable {β : Type*}

/-- `u.bucket`, the lower half of the word. -/
def bucketOf (w : ℕ) : ℕ := w % 2 ^ 32

def setBucket (w k : ℕ) : ℕ := w / 2 ^ 32 * 2 ^ 32 + k

/-- Which bucket a chunk comes from, and the size of its chunks. -/
def findBucket (size : ℕ) : (fuel bucketNum bucketSize : ℕ) → Option (ℕ × ℕ)
  | 0, _, _ => none
  | fuel + 1, bucketNum, bucketSize =>
    if bucketSize < size then findBucket size fuel (bucketNum + 1) (bucketSize * 2 % word)
    else some (bucketNum, bucketSize)

/-- The loop over the chunks after the first one, whose words link them. -/
def carve (bucketSize : ℕ) : (n chunk : ℕ) → (ℕ → ℕ) → ℕ → ℕ
  | 0, chunk, u => Function.update u chunk 0
  | n + 1, chunk, u =>
    carve bucketSize n (chunk + bucketSize)
      (Function.update u (chunk + bucketSize) (chunk + bucketSize + bucketSize))

def headerSize : ℕ := 16

/-- A chunk for a request, with its bucket: the first of the free list, or the first of a new segment,
which `getMem` gives with its size. -/
def takeChunk (s : Mem β) (k bucketSize : ℕ) (getMem : Option (ℕ × ℕ)) : ℕ × Mem β :=
  let bucket := s.buckets k
  if bucket.freeChunk ≠ 0 then
    let chunk := bucket.freeChunk
    (chunk + headerSize, { s with
      buckets := Function.update s.buckets k { bucket with freeChunk := s.u chunk }
      u := Function.update s.u chunk (setBucket (s.u chunk) k) })
  else
    match getMem with
    | none => (0, s)
    | some (addr, allocatedSize) =>
      let first := addr + headerSize
      -- how often the loop finds another chunk
      let n := (allocatedSize - (headerSize + bucketSize)) / bucketSize
      let chunks := (List.range (n + 1)).map fun j => first + j * bucketSize
      let u := if n = 0 then s.u else carve bucketSize n first s.u
      (first + headerSize, { s with
        buckets := Function.update s.buckets k
          ⟨if n = 0 then 0 else first + bucketSize, ⟨addr, allocatedSize, chunks⟩ :: bucket.segments⟩
        u := Function.update u first (setBucket (u first) k) })

def alloc (s : Mem β) (size : ℕ) (getMem : Option (ℕ × ℕ)) : Option (ℕ × Mem β) :=
  (findBucket ((size + headerSize) % word) 64 0 8).bind fun (k, bucketSize) =>
    if s.numBuckets ≤ k then none else some (takeChunk s k bucketSize getMem)

/-- The halvings of `mca_allocator_bucket_alloc_align`, which count the bucket up from 1. -/
def halve : (fuel bucketSize bucketNum : ℕ) → ℕ
  | 0, _, bucketNum => bucketNum
  | fuel + 1, bucketSize, bucketNum => if 8 < bucketSize then halve fuel (bucketSize / 2) (bucketNum + 1) else bucketNum

/-- `mca_allocator_bucket_alloc_align`: always a new segment, with the header of the first chunk just
before the aligned address. -/
def allocAlign (s : Mem β) (size alignment : ℕ) (getMem : Option (ℕ × ℕ)) : Option (ℕ × Mem β) :=
  let alignedMaxSize := (size + alignment + headerSize + headerSize) % word
  match getMem with
  | none => some (0, s)
  | some (addr, allocatedSize) =>
    let aligned := addr + headerSize + headerSize
    let aligned := aligned + (alignment - aligned % alignment)
    let first := aligned - headerSize
    let k := halve 64 ((size + headerSize) % word) 1
    let bucketSize := 2 ^ (k + 3) % word
    if s.numBuckets ≤ k then none
    -- no size is below 0, and the loop finds chunks without end
    else if bucketSize = 0 then none
    else
      let bucket := s.buckets k
      let n := (allocatedSize - alignedMaxSize) / bucketSize
      let chunks := (List.range (n + 1)).map fun j => first + j * bucketSize
      let u := if n = 0 then s.u else carve bucketSize n first s.u
      some (aligned, { s with
        buckets := Function.update s.buckets k
          ⟨if n = 0 then bucket.freeChunk else first + bucketSize, ⟨addr, allocatedSize, chunks⟩ :: bucket.segments⟩
        u := Function.update u first (setBucket (u first) k) })

def free (s : Mem β) (ptr : ℕ) : Option (Mem β) :=
  let chunk := ptr - headerSize
  let k := bucketOf (s.u chunk)
  if s.numBuckets ≤ k then none
  else
    some { s with
      buckets := Function.update s.buckets k { s.buckets k with freeChunk := chunk }
      u := Function.update s.u chunk (s.buckets k).freeChunk }

def capacity (k : ℕ) : ℕ := 2 ^ (k + 3) - headerSize

def memcpy (data : ℕ → β) (dst src n : ℕ) (x : ℕ) : β :=
  if dst ≤ x ∧ x < dst + n then data (src + (x - dst)) else data x

def realloc (s : Mem β) (ptr size : ℕ) (getMem : Option (ℕ × ℕ)) : Option (ℕ × Mem β) :=
  let k := bucketOf (s.u (ptr - headerSize))
  if size ≤ capacity k then some (ptr, s)
  else
    (alloc s size getMem).bind fun (ret, s) =>
      if ret = 0 then some (0, s)
      else (free { s with data := memcpy s.data ret ptr (capacity k) } ptr).map fun s => (ret, s)

def looksUsed (u : ℕ → ℕ) (k chunk : ℕ) : Bool := bucketOf (u chunk) = k

def isEmpty (u : ℕ → ℕ) (k : ℕ) (seg : Seg) : Bool := seg.chunks.all fun chunk => ¬ looksUsed u k chunk

/-- A chunk is removed from the free list, given by its first chunk and the words. -/
def unlink (fuel : ℕ) (list : ℕ × (ℕ → ℕ)) (chunk : ℕ) : Option (ℕ × (ℕ → ℕ)) :=
  let (freeChunk, u) := list
  if freeChunk = chunk then some (u chunk, u)
  else (seek u chunk fuel freeChunk).map fun p => (freeChunk, Function.update u p (u chunk))

/-- The way along the segments: the segments that stay, and the free list. -/
def sweep (fuel k : ℕ) : List Seg → ℕ × (ℕ → ℕ) → Option (List Seg × ℕ × (ℕ → ℕ))
  | [], list => some ([], list)
  | seg :: segs, list =>
    if isEmpty list.2 k seg then
      (seg.chunks.foldlM (unlink fuel) list).bind fun list => sweep fuel k segs list
    else (sweep fuel k segs list).map fun (segs, list) => (seg :: segs, list)

def cleanBucket (s : Mem β) (k : ℕ) : Option (Mem β) :=
  let bucket := s.buckets k
  if bucket.segments = [] then some s
  else if bucket.segments.all (isEmpty s.u k) then
    some { s with buckets := Function.update s.buckets k ⟨0, []⟩ }
  else
    -- a search that does not meet the chunk within the number of chunks never ends
    let fuel := (bucket.segments.map fun seg => seg.chunks.length).sum
    (sweep fuel k bucket.segments (bucket.freeChunk, s.u)).map fun (segs, freeChunk, u) =>
      { s with buckets := Function.update s.buckets k ⟨freeChunk, segs⟩, u := u }

def cleanup (s : Mem β) : Option (Mem β) := (List.range s.numBuckets).foldlM cleanBucket s

/-- The blocks in use, each with the size asked for. -/
structure World (β : Type*) where
  mem : Mem β
  inUse : List (ℕ × ℕ)

/-- The calls, with what `get_mem_fn` answers, and the user's writes to the blocks in use. -/
inductive Call (β : Type*)
  | alloc (size : ℕ) (getMem : Option (ℕ × ℕ))
  | realloc (ptr size : ℕ) (getMem : Option (ℕ × ℕ))
  | free (ptr : ℕ)
  | cleanup
  | write (addr : ℕ) (byte : β)

/-- Two pieces of memory, given by address and size, do not overlap. -/
def Apart (a b : ℕ × ℕ) : Prop := a.1 + a.2 ≤ b.1 ∨ b.1 + b.2 ≤ a.1

/-- `get_mem_fn` gives memory that is in no live segment, at least what it is asked for. -/
def FreshMem (s : Mem β) (size : ℕ) (getMem : Option (ℕ × ℕ)) : Prop :=
  ∀ addr got, getMem = some (addr, got) → 0 < addr ∧ addr + got ≤ word ∧
    (∀ k bucketSize, findBucket ((size + headerSize) % word) 64 0 8 = some (k, bucketSize) →
      bucketSize + headerSize ≤ got) ∧
    ∀ k, ∀ seg ∈ (s.buckets k).segments, Apart (addr, got) (seg.addr, seg.size)

/-- A block in use is given back or reallocated once; after `none` nothing more happens. -/
def step : Option (World β) → Call β → Option (World β) → Prop
  | none, _, _ => False
  | some w, .alloc size getMem, t => FreshMem w.mem size getMem ∧
    t = (alloc w.mem size getMem).map fun (ptr, mem) =>
      ⟨mem, if ptr = 0 then w.inUse else (ptr, size) :: w.inUse⟩
  | some w, .realloc ptr size getMem, t => FreshMem w.mem size getMem ∧ ∃ old, (ptr, old) ∈ w.inUse ∧
    t = (realloc w.mem ptr size getMem).map fun (ret, mem) =>
      ⟨mem, if ret = 0 then w.inUse else (ret, size) :: w.inUse.erase (ptr, old)⟩
  | some w, .free ptr, t => ∃ old, (ptr, old) ∈ w.inUse ∧
    t = (free w.mem ptr).map fun mem => ⟨mem, w.inUse.erase (ptr, old)⟩
  | some w, .cleanup, t => t = (cleanup w.mem).map fun mem => ⟨mem, w.inUse⟩
  | some w, .write addr byte, t => (∃ p ∈ w.inUse, p.1 ≤ addr ∧ addr < p.1 + p.2) ∧
    t = some ⟨{ w.mem with data := Function.update w.mem.data addr byte }, w.inUse⟩

/-- `mca_allocator_bucket_init` leaves all buckets empty; the number of buckets is a positive `int`. -/
def calls (β : Type*) : Lib.System (Option (World β)) (Call β) where
  init s := ∃ w, s = some w ∧ w.inUse = [] ∧ 0 < w.mem.numBuckets ∧ w.mem.numBuckets < 2 ^ 31 ∧
    ∀ k, w.mem.buckets k = ⟨0, []⟩
  step := step

end OpenMPI.Allocator.Buckets
