import OpenMPI.Proofs.Allocator.Bucket

/-!
# Aligned blocks of the bucket allocator

The bucket of an aligned block is found by halving, and its chunks may be larger than what was asked of
`get_mem_fn`: the block is `Recyclable` where the segment has room for all its chunks, and where no
free list is overwritten by that of the new chunks (`recycled_iff`).
-/

namespace OpenMPI.Allocator.Buckets

open List Nat

open Lib (Chain)

variable {β : Type*}

theorem halve_spec {fuel b k : ℕ} (hfuel : b < 2 ^ fuel) : b < 9 * 2 ^ (halve fuel b k - k) ∧ k ≤ halve fuel b k := by
  induction fuel generalizing b k with
  | zero =>
    rw [halve]
    simp only [pow_zero, Nat.sub_self] at hfuel ⊢
    omega
  | succ fuel ih =>
    rw [halve]
    split
    · have hhalf : b / 2 < 2 ^ fuel := by
        rw [pow_succ] at hfuel
        omega
      obtain ⟨hlt, hle⟩ := ih (k := k + 1) hhalf
      have hsplit : halve fuel (b / 2) (k + 1) - k = halve fuel (b / 2) (k + 1) - (k + 1) + 1 := by omega
      rw [hsplit, pow_succ]
      omega
    · simp only [Nat.sub_self, pow_zero]
      omega

theorem size_le_halve {b : ℕ} (hb : b < word) : b ≤ 2 ^ (halve 64 b 1 + 3) := by
  obtain ⟨hlt, hle⟩ := halve_spec (k := 1) (show b < 2 ^ 64 from hb)
  have hsplit : halve 64 b 1 + 3 = (halve 64 b 1 - 1) + 4 := by omega
  rw [hsplit, pow_add]
  omega

structure Live (s : Mem β) : Prop where
  few : s.numBuckets < 2 ^ 31
  inside : ∀ k, ∀ seg ∈ (s.buckets k).segments, ∀ c ∈ seg.chunks, seg.addr ≤ c ∧ c + 2 ^ (k + 3) ≤ seg.addr + seg.size
  lists : ∀ k, ∃ l, FreeList s k l ∧ ∀ c ∈ l, IsChunk s k c

theorem Inv.live {s : Mem β} {inUse : List (ℕ × ℕ)} (h : Inv s inUse) : Live s where
  few := h.few
  inside k seg hseg c hc := by
    have := (h.ok k seg hseg).2.inside hc
    omega
  lists k := by
    obtain ⟨l, hl, hmem⟩ := h.lists k
    exact ⟨l, hl, fun c hc => ((hmem c).mp hc).1⟩

/-- `get_mem_fn` gives memory that is in no live segment, at least what it is asked for. -/
structure FreshAlign (s : Mem β) (size alignment addr got : ℕ) : Prop where
  pos : 0 < addr
  bound : addr + got ≤ word
  enough : (size + alignment + headerSize + headerSize) % word ≤ got
  apart : ∀ k, ∀ seg ∈ (s.buckets k).segments, Apart (addr, got) (seg.addr, seg.size)

/-- The block at `ptr` is aligned and in its segment.  Its chunk, which `mca_allocator_bucket_free` puts
on the list of bucket `k`, and all others of the segment lie within the segment and overlap no other
chunk; what was free before still is. -/
structure Recycled (s : Mem β) (size alignment addr got ptr : ℕ) (s' : Mem β) (k : ℕ) (chunks : List ℕ) : Prop where
  aligned : alignment ∣ ptr
  block : addr ≤ ptr ∧ ptr + size ≤ addr + got
  freed : ∃ s'', free s' ptr = some s'' ∧ (s''.buckets k).freeChunk = ptr - headerSize
  segment : (s'.buckets k).segments = ⟨addr, got, chunks⟩ :: (s.buckets k).segments
  first : ptr - headerSize ∈ chunks
  inside : ∀ c ∈ chunks, addr ≤ c ∧ c + 2 ^ (k + 3) ≤ addr + got
  apart : ∀ c ∈ chunks, ∀ k' d, IsChunk s' k' d → k = k' ∧ c = d ∨ Apart (c, 2 ^ (k + 3)) (d, 2 ^ (k' + 3))
  kept : ∀ k' l, FreeList s k' l → ∃ l', FreeList s' k' l' ∧ l ⊆ l'

section Call

variable {s s' : Mem β} {size alignment addr got : ℕ}

def alignBucket (size : ℕ) : ℕ := halve 64 ((size + headerSize) % word) 1

def alignMore (size alignment got : ℕ) : ℕ :=
  (got - (size + alignment + headerSize + headerSize) % word) / 2 ^ (alignBucket size + 3)

def pad (alignment addr : ℕ) : ℕ := alignment - (addr + headerSize + headerSize) % alignment

def alignFirst (alignment addr : ℕ) : ℕ := addr + headerSize + pad alignment addr

theorem pad_pos (halign : 0 < alignment) : 0 < pad alignment addr := by
  have := mod_lt (addr + headerSize + headerSize) halign
  rw [pad]
  omega

def addAligned (s : Mem β) (k addr got first n : ℕ) : Mem β :=
  let u := if n = 0 then s.u else carve (2 ^ (k + 3)) n first s.u
  { s with
    buckets := Function.update s.buckets k ⟨if n = 0 then (s.buckets k).freeChunk else first + 2 ^ (k + 3),
      ⟨addr, got, chunkList (2 ^ (k + 3)) first (n + 1)⟩ :: (s.buckets k).segments⟩
    u := Function.update u first (setBucket (u first) k) }

theorem allocAlign_some (hk : alignBucket size < s.numBuckets) (hword : alignBucket size + 3 < 64) :
    allocAlign s size alignment (some (addr, got)) = some (alignFirst alignment addr + headerSize,
      addAligned s (alignBucket size) addr got (alignFirst alignment addr) (alignMore size alignment got)) := by
  have hmod : 2 ^ (alignBucket size + 3) % word = 2 ^ (alignBucket size + 3) :=
    mod_eq_of_lt (Nat.pow_lt_pow_right (by decide) hword)
  have hbucket : halve 64 ((size + headerSize) % word) 1 = alignBucket size := rfl
  have hmore : (got - (size + alignment + headerSize + headerSize) % word) / 2 ^ (alignBucket size + 3) =
      alignMore size alignment got := rfl
  have haligned : addr + headerSize + headerSize + (alignment - (addr + headerSize + headerSize) % alignment) =
      alignFirst alignment addr + headerSize := by
    rw [alignFirst, pad]
    omega
  have hpos := (Nat.two_pow_pos (alignBucket size + 3)).ne'
  simp only [allocAlign, hbucket, hmod, hmore, haligned, Nat.add_sub_cancel, if_neg (Nat.not_le.mpr hk), if_neg hpos]
  rfl

theorem allocAlign_none (h : s.numBuckets ≤ alignBucket size ∨ 64 ≤ alignBucket size + 3) :
    allocAlign s size alignment (some (addr, got)) = none := by
  rw [allocAlign]
  change (if s.numBuckets ≤ alignBucket size then none
    else if 2 ^ (alignBucket size + 3) % word = 0 then none else _) = _
  split_ifs with hk hzero
  · rfl
  · rfl
  · have hdvd : word ∣ 2 ^ (alignBucket size + 3) := pow_dvd_pow 2 (h.resolve_left hk)
    exact absurd (mod_eq_zero_of_dvd hdvd) hzero

section State

variable {k k' first n c d : ℕ}

theorem addAligned_segments (k' : ℕ) : ((addAligned s k addr got first n).buckets k').segments =
    if k' = k then ⟨addr, got, chunkList (2 ^ (k + 3)) first (n + 1)⟩ :: (s.buckets k).segments
    else (s.buckets k').segments := by
  rw [addAligned]
  by_cases hk : k' = k
  · subst hk
    simp
  · simp [hk]

theorem addAligned_isChunk : IsChunk (addAligned s k addr got first n) k' c ↔
    k' = k ∧ c ∈ chunkList (2 ^ (k + 3)) first (n + 1) ∨ IsChunk s k' c := by
  rw [IsChunk, addAligned_segments]
  by_cases hk : k' = k
  · subst hk
    simp [IsChunk]
  · simp [hk, IsChunk]

theorem addAligned_u (hd : d ∉ chunkList (2 ^ (k + 3)) first (n + 1)) :
    (addAligned s k addr got first n).u d = s.u d := by
  have hne (j : ℕ) (hj : j ≤ n) : d ≠ first + j * 2 ^ (k + 3) :=
    fun heq => hd (mem_chunkList.mpr ⟨j, by omega, heq⟩)
  have hfirst : d ≠ first := by simpa using hne 0 (zero_le n)
  rw [addAligned]
  dsimp only
  rw [Function.update_of_ne hfirst]
  split_ifs
  · rfl
  · exact carve_other hne

theorem freeList_addAligned : FreeList (addAligned s k addr got first (n + 1)) k
    (chunkList (2 ^ (k + 3)) (first + 2 ^ (k + 3)) (n + 1)) := by
  have hpos := Nat.two_pow_pos (k + 3)
  refine ⟨?_, chunkList_nodup hpos⟩
  have hstart : ((addAligned s k addr got first (n + 1)).buckets k).freeChunk = first + 2 ^ (k + 3) := by
    simp [addAligned]
  rw [hstart, addAligned]
  refine (carve_chain (n := n) (c := first) (u := s.u) hpos).update fun hmem => ?_
  obtain ⟨j, -, heq⟩ := mem_chunkList.mp hmem
  omega

end State

theorem chunkList_apart {z first n c d : ℕ} (hc : c ∈ chunkList z first n) (hd : d ∈ chunkList z first n) :
    c = d ∨ Apart (c, z) (d, z) := by
  obtain ⟨i, -, rfl⟩ := mem_chunkList.mp hc
  obtain ⟨j, -, rfl⟩ := mem_chunkList.mp hd
  rcases lt_trichotomy i j with hij | rfl | hij
  · have hmul := mul_le_mul_right z (succ_le_of_lt hij)
    rw [succ_mul] at hmul
    exact .inr (.inl (by dsimp only; omega))
  · exact .inl rfl
  · have hmul := mul_le_mul_right z (succ_le_of_lt hij)
    rw [succ_mul] at hmul
    exact .inr (.inr (by dsimp only; omega))

/-- The segment has room for all chunks, which are in a bucket that exists, and if there are more than
the one of the block the bucket had no free chunk. -/
structure Recyclable (s : Mem β) (size alignment addr got : ℕ) : Prop where
  bucket : alignBucket size < s.numBuckets
  small : size + headerSize < word
  room : headerSize + pad alignment addr + (alignMore size alignment got + 1) * 2 ^ (alignBucket size + 3) ≤ got
  list : alignMore size alignment got = 0 ∨ (s.buckets (alignBucket size)).freeChunk = 0

theorem Recycled.chunks_eq {k k' first n ptr : ℕ} {chunks : List ℕ}
    (h : Recycled s size alignment addr got ptr (addAligned s k' addr got first n) k chunks) :
    k = k' ∧ chunks = chunkList (2 ^ (k' + 3)) first (n + 1) := by
  have hsegment := h.segment
  rw [addAligned_segments] at hsegment
  split_ifs at hsegment with hk
  · subst hk
    have hhead := (List.cons.inj hsegment).1
    exact ⟨rfl, (congrArg Seg.chunks hhead).symm⟩
  · exact absurd hsegment.symm (cons_ne_self _ _)

theorem Recycled.room {k k' n ptr : ℕ} {chunks : List ℕ}
    (h : Recycled s size alignment addr got ptr
      (addAligned s k' addr got (alignFirst alignment addr) n) k chunks) :
    headerSize + pad alignment addr + (n + 1) * 2 ^ (k' + 3) ≤ got := by
  obtain ⟨rfl, rfl⟩ := h.chunks_eq
  have hlast := (h.inside (alignFirst alignment addr + n * 2 ^ (k + 3)) (mem_chunkList.mpr ⟨n, by omega, rfl⟩)).2
  rw [succ_mul]
  rw [alignFirst] at hlast
  omega

theorem recycled_iff {a : ℕ} (hs : Live s) (halign : alignment = 2 ^ a) (hfresh : FreshAlign s size alignment addr got) :
    (∃ ptr s' k chunks, allocAlign s size alignment (some (addr, got)) = some (ptr, s') ∧
      Recycled s size alignment addr got ptr s' k chunks) ↔ Recyclable s size alignment addr got := by
  have hword := hfresh.bound
  have hpad : 0 < pad alignment addr := pad_pos (halign ▸ Nat.two_pow_pos a)
  constructor
  · rintro ⟨ptr, s', k, chunks, hcall, h⟩
    by_cases hnone : s.numBuckets ≤ alignBucket size ∨ 64 ≤ alignBucket size + 3
    · rw [allocAlign_none hnone] at hcall
      cases hcall
    rw [not_or, Nat.not_le, Nat.not_le] at hnone
    rw [allocAlign_some hnone.1 hnone.2] at hcall
    cases hcall
    have hroom := h.room
    obtain ⟨rfl, rfl⟩ := h.chunks_eq
    refine ⟨hnone.1, ?_, hroom, ?_⟩
    · have hblock := h.block.2
      rw [alignFirst] at hblock
      omega
    · -- a chunk that was free before is in an older segment, so not among the new ones
      rcases hmore : alignMore size alignment got with _ | n
      · exact .inl rfl
      · right
        by_contra hfree
        rw [hmore] at h
        obtain ⟨l, hl, hchunks⟩ := hs.lists (alignBucket size)
        obtain ⟨l', rfl, -⟩ := hl.1.eq_cons hfree
        obtain ⟨l'', hl'', hsub⟩ := h.kept _ _ hl
        obtain rfl := hl''.1.unique freeList_addAligned.1
        have hnew : (s.buckets (alignBucket size)).freeChunk ∈
            chunkList (2 ^ (alignBucket size + 3)) (alignFirst alignment addr) (n + 1 + 1) := by
          rw [chunkList_succ]
          exact mem_cons_of_mem _ (hsub mem_cons_self)
        obtain ⟨seg, hseg, hc⟩ := hchunks _ mem_cons_self
        have hold := hs.inside _ seg hseg _ hc
        have hin := h.inside _ hnew
        have hapart := hfresh.apart _ seg hseg
        have hpos := Nat.two_pow_pos (alignBucket size + 3)
        simp only [Apart] at hapart
        omega
  · intro h
    have hpow : 2 ^ (alignBucket size + 3) < 2 ^ 64 := by
      have hmul : 2 ^ (alignBucket size + 3) ≤ (alignMore size alignment got + 1) * 2 ^ (alignBucket size + 3) :=
        Nat.le_mul_of_pos_left _ (succ_pos _)
      have hroom := h.room
      have hpos := hfresh.pos
      have hlt : 2 ^ (alignBucket size + 3) < word := by omega
      exact hlt
    have hlarge := (Nat.pow_lt_pow_iff_right (by decide)).mp hpow
    have hroom := h.room
    refine ⟨_, _, alignBucket size, chunkList (2 ^ (alignBucket size + 3)) (alignFirst alignment addr)
      (alignMore size alignment got + 1), allocAlign_some h.bucket hlarge, ?_⟩
    set k := alignBucket size with hk
    set n := alignMore size alignment got with hn
    set first := alignFirst alignment addr with hfirst
    have hnew {c : ℕ} (hc : c ∈ chunkList (2 ^ (k + 3)) first (n + 1)) :
        addr + headerSize ≤ c ∧ c + 2 ^ (k + 3) ≤ addr + got := by
      obtain ⟨j, hj, rfl⟩ := mem_chunkList.mp hc
      have hmul := Nat.mul_le_mul_right (2 ^ (k + 3)) (succ_le_of_lt hj)
      rw [succ_mul] at hmul
      rw [hfirst, alignFirst]
      omega
    -- chunks of the segments from before are apart from the new ones
    have hold {k' d : ℕ} (hd : IsChunk s k' d) : ∃ seg ∈ (s.buckets k').segments,
        seg.addr ≤ d ∧ d + 2 ^ (k' + 3) ≤ seg.addr + seg.size := by
      obtain ⟨seg, hseg, hd⟩ := hd
      exact ⟨seg, hseg, hs.inside k' seg hseg d hd⟩
    have happart {c k' d : ℕ} (hc : c ∈ chunkList (2 ^ (k + 3)) first (n + 1)) (hd : IsChunk s k' d) :
        Apart (c, 2 ^ (k + 3)) (d, 2 ^ (k' + 3)) := by
      obtain ⟨seg, hseg, hin⟩ := hold hd
      have hc := hnew hc
      have hseg := hfresh.apart k' seg hseg
      simp only [Apart] at hseg ⊢
      omega
    have hmem : first ∈ chunkList (2 ^ (k + 3)) first (n + 1) := by
      rw [chunkList_succ]
      exact mem_cons_self
    refine ⟨?_, ?_, ?_, ?_, ?_, fun c hc => ?_, fun c hc k' d hd => ?_, fun k' l hl => ?_⟩
    · -- the padding goes to the next multiple
      have hle : (addr + headerSize + headerSize) % alignment ≤ alignment :=
        (mod_lt _ (halign ▸ Nat.two_pow_pos a)).le
      have hsum : first + headerSize = alignment * ((addr + headerSize + headerSize) / alignment + 1) := by
        have hdiv := div_add_mod (addr + headerSize + headerSize) alignment
        rw [Nat.mul_add, Nat.mul_one, hfirst, alignFirst, pad]
        omega
      exact ⟨_, hsum⟩
    · have hsize := size_le_halve h.small
      rw [← mod_eq_of_lt h.small] at hsize
      have hin := hnew hmem
      change (size + headerSize) % word ≤ 2 ^ (k + 3) at hsize
      rw [mod_eq_of_lt h.small] at hsize
      omega
    · rw [free, Nat.add_sub_cancel]
      have hword : bucketOf ((addAligned s k addr got first n).u first) = k := by
        rw [addAligned]
        dsimp only
        rw [Function.update_self]
        exact bucketOf_setBucket (by have := hs.few; have := h.bucket; omega)
      simp only [hword]
      rw [if_neg (show ¬(addAligned s k addr got first n).numBuckets ≤ k from Nat.not_le.mpr h.bucket)]
      exact ⟨_, rfl, by simp⟩
    · rw [addAligned_segments, if_pos rfl]
    · rw [Nat.add_sub_cancel]
      exact hmem
    · have := hnew hc
      omega
    · rcases addAligned_isChunk.mp hd with ⟨heq, hdnew⟩ | hdold
      · rw [heq]
        exact (chunkList_apart hc hdnew).imp (fun hcd => ⟨rfl, hcd⟩) id
      · exact .inr (happart hc hdold)
    · obtain ⟨l₀, hl₀, hchunks⟩ := hs.lists k'
      obtain rfl := hl.1.unique hl₀.1
      -- the words of the cells of the old lists stay
      have hwords : ∀ c ∈ l, (addAligned s k addr got first n).u c = s.u c := by
        intro c hc
        refine addAligned_u fun hcnew => ?_
        have hboth := happart hcnew (hchunks c hc)
        have hpos := Nat.two_pow_pos (k + 3)
        have hpos' := Nat.two_pow_pos (k' + 3)
        simp only [Apart] at hboth
        omega
      by_cases hother : k' = k ∧ n ≠ 0
      · obtain ⟨rfl, hne⟩ := hother
        have hempty := h.list.resolve_left hne
        have hnil : l = [] := by
          have hchain := hl.1
          rw [hempty] at hchain
          exact hchain.eq_nil
        obtain ⟨n', hn'⟩ := exists_eq_succ_of_ne_zero hne
        rw [hn']
        exact ⟨_, freeList_addAligned, by simp [hnil]⟩
      · have hstart : ((addAligned s k addr got first n).buckets k').freeChunk = (s.buckets k').freeChunk := by
          rw [addAligned]
          by_cases hk' : k' = k
          · have hzero : n = 0 := by_contra fun hne => hother ⟨hk', hne⟩
            simp [hk', hzero]
          · simp [hk']
        refine ⟨l, ⟨?_, hl.2⟩, List.Subset.refl l⟩
        rw [hstart]
        exact hl.1.congr hwords

theorem fresh_aligned (got : ℕ) (hgot : 196 ≤ got) (hbound : 4096 + got ≤ word) :
    FreshAlign sixteen.mem 100 64 4096 got where
  pos := by decide
  bound := hbound
  enough := by
    rw [show (100 + 64 + headerSize + headerSize) % word = 196 from rfl]
    exact hgot
  apart k seg hseg := by simp [sixteen] at hseg

/-- With 660 bytes there is room for the chunk of 256 bytes and for one more. -/
theorem recycled_aligned : ∃ ptr s' k chunks, allocAlign sixteen.mem 100 64 (some (4096, 660)) = some (ptr, s') ∧
    Recycled sixteen.mem 100 64 4096 660 ptr s' k chunks :=
  (recycled_iff (a := 6) (Inv.init (by decide) rfl fun _ => rfl).live rfl (fresh_aligned 660 (by decide) (by decide))).mpr
    ⟨by decide, by decide, by decide, .inr rfl⟩

/-- The 196 bytes that the call asks for are fewer than the 256 of the chunk. -/
theorem not_recycled_aligned : ¬ ∃ ptr s' k chunks, allocAlign sixteen.mem 100 64 (some (4096, 196)) = some (ptr, s') ∧
    Recycled sixteen.mem 100 64 4096 196 ptr s' k chunks := by
  rintro ⟨ptr, s', k, chunks, hcall, h⟩
  rw [allocAlign_some (by decide) (by decide)] at hcall
  cases hcall
  exact absurd h.room (by decide)

end Call

end OpenMPI.Allocator.Buckets
