import Mathlib.Data.List.Perm.Subperm
import Mathlib.Data.List.Range
import Mathlib.Tactic.Ring
import Mathlib.Tactic.Linarith
import OpenMPI.Allocator.Bucket

/-!
# The bucket allocator

The free list of a bucket goes through the chunks of its segments that are not in use (`Inv`).  A chunk
not in use looks used to `cleanup` when the lower half of its word, which is an address, happens to be
the number of the bucket, and requests too large for the last bucket go outside the array (`Careful`).
-/

namespace OpenMPI.Allocator.Buckets

open Lib (Chain)
open List hiding Chain

variable {β : Type*}

@[simp] theorem bucketOf_setBucket {w k : ℕ} (hk : k < 2 ^ 32) : bucketOf (setBucket w k) = k := by
  unfold bucketOf setBucket
  rw [Nat.mul_add_mod_self_right, Nat.mod_eq_of_lt hk]

theorem findBucket_eq {size fuel k : ℕ} (hfuel : 61 ≤ fuel + k) (hk : k ≤ 60) (hsize : size ≤ 2 ^ 63)
    (hmin : k = 0 ∨ 2 ^ (k + 2) < size) : ∃ k', findBucket size fuel k (2 ^ (k + 3)) = some (k', 2 ^ (k' + 3)) ∧
      size ≤ 2 ^ (k' + 3) ∧ (k' = 0 ∨ 2 ^ (k' + 2) < size) := by
  induction fuel generalizing k with
  | zero => omega
  | succ fuel ih =>
    rw [findBucket]
    by_cases hlt : 2 ^ (k + 3) < size
    · rw [if_pos hlt]
      have hk' : k + 3 < 63 := (Nat.pow_lt_pow_iff_right (by decide)).mp (hlt.trans_le hsize)
      have hdouble : 2 ^ (k + 3) * 2 % word = 2 ^ (k + 1 + 3) := by
        rw [← pow_succ]
        exact Nat.mod_eq_of_lt (Nat.pow_lt_pow_right (by decide) (by omega))
      rw [hdouble]
      exact ih (by omega) (by omega) (.inr hlt)
    · rw [if_neg hlt]
      exact ⟨k, rfl, not_lt.mp hlt, hmin⟩

theorem findBucket_lt {size n : ℕ} (hn : 0 < n) (hmax : size ≤ 2 ^ 63) (hsize : size ≤ 8 * 2 ^ (n - 1)) :
    ∃ k < n, findBucket size 64 0 8 = some (k, 2 ^ (k + 3)) ∧ size ≤ 2 ^ (k + 3) := by
  obtain ⟨k, hfind, hle, hmin⟩ : ∃ k, findBucket size 64 0 8 = some (k, 2 ^ (k + 3)) ∧ size ≤ 2 ^ (k + 3) ∧
      (k = 0 ∨ 2 ^ (k + 2) < size) := findBucket_eq (by decide) (by decide) hmax (.inl rfl)
  refine ⟨k, ?_, hfind, hle⟩
  rcases hmin with rfl | hmin
  · exact hn
  · have hpow : 8 * 2 ^ (n - 1) = 2 ^ (n + 2) := by
      rw [show n + 2 = (n - 1) + 3 by omega, pow_add]
      ring
    have hlt := (Nat.pow_lt_pow_iff_right (by decide)).mp (hmin.trans_le (hpow ▸ hsize))
    omega

def chunkList (bucketSize first n : ℕ) : List ℕ := (List.range n).map fun j => first + j * bucketSize

section Carve

variable {z n c x : ℕ} {u : ℕ → ℕ}

theorem carve_other (hx : ∀ j, j ≤ n → x ≠ c + j * z) : carve z n c u x = u x := by
  induction n generalizing c u with
  | zero =>
    have hx := hx 0 le_rfl
    rw [zero_mul, add_zero] at hx
    rw [carve, Function.update_of_ne hx]
  | succ n ih =>
    rw [carve, ih fun j hj => ?_, Function.update_of_ne]
    · have hx := hx 1 (by omega)
      rwa [one_mul] at hx
    · have hx := hx (j + 1) (by omega)
      rwa [add_assoc, add_comm z, ← Nat.succ_mul]

theorem chunkList_succ (z c n : ℕ) : chunkList z c (n + 1) = c :: chunkList z (c + z) n := by
  rw [chunkList, range_succ_eq_map, map_cons, map_map, zero_mul, add_zero, chunkList]
  refine congrArg _ (map_congr_left fun j _ => ?_)
  simp only [Function.comp_apply, Nat.succ_eq_add_one]
  ring

theorem carve_chain (hz : 0 < z) : Chain (carve z (n + 1) c u) (c + z) (chunkList z (c + z) (n + 1)) := by
  induction n generalizing c u with
  | zero =>
    rw [chunkList_succ]
    refine ⟨rfl, by omega, ?_⟩
    simp [carve, chunkList, Chain]
  | succ n ih =>
    rw [chunkList_succ]
    refine ⟨rfl, by omega, ?_⟩
    have hword : carve z (n + 1 + 1) c u (c + z) = c + z + z := by
      rw [carve, carve, carve_other, Function.update_of_ne (by omega), Function.update_self]
      intro j _ heq
      omega
    rw [hword, carve]
    exact ih

end Carve

structure Seg.Ok (k : ℕ) (seg : Seg) : Prop where
  addr : 0 < seg.addr
  chunks : ∃ n, seg.chunks = chunkList (2 ^ (k + 3)) (seg.addr + headerSize) (n + 1) ∧
    headerSize + (n + 1) * 2 ^ (k + 3) ≤ seg.size

def IsChunk (s : Mem β) (k c : ℕ) : Prop := ∃ seg ∈ (s.buckets k).segments, c ∈ seg.chunks

section Geometry

variable {k : ℕ} {seg : Seg} {c d : ℕ}

theorem mem_chunkList {z first n : ℕ} : c ∈ chunkList z first n ↔ ∃ j < n, c = first + j * z := by
  simp [chunkList, eq_comm]

theorem chunkList_nodup {z first n : ℕ} (hz : 0 < z) : (chunkList z first n).Nodup := by
  refine List.Nodup.map (fun i j hij => ?_) nodup_range
  exact Nat.eq_of_mul_eq_mul_right hz (add_left_cancel hij)

theorem Seg.Ok.inside (h : seg.Ok k) (hc : c ∈ seg.chunks) :
    seg.addr + headerSize ≤ c ∧ c + 2 ^ (k + 3) ≤ seg.addr + seg.size := by
  obtain ⟨n, hchunks, hsize⟩ := h.chunks
  rw [hchunks, mem_chunkList] at hc
  obtain ⟨j, hj, rfl⟩ := hc
  have hmul : j * 2 ^ (k + 3) + 2 ^ (k + 3) ≤ (n + 1) * 2 ^ (k + 3) := by
    rw [← Nat.succ_mul]
    exact Nat.mul_le_mul_right _ hj
  omega

theorem Seg.Ok.nodup (h : seg.Ok k) : seg.chunks.Nodup := by
  obtain ⟨n, hchunks, -⟩ := h.chunks
  rw [hchunks]
  exact chunkList_nodup (Nat.two_pow_pos _)

theorem Seg.Ok.apart (h : seg.Ok k) (hc : c ∈ seg.chunks) (hd : d ∈ seg.chunks) :
    c = d ∨ Apart (c, 2 ^ (k + 3)) (d, 2 ^ (k + 3)) := by
  obtain ⟨n, hchunks, -⟩ := h.chunks
  rw [hchunks, mem_chunkList] at hc hd
  obtain ⟨i, -, rfl⟩ := hc
  obtain ⟨j, -, rfl⟩ := hd
  rcases lt_trichotomy i j with hij | rfl | hij
  · have hmul := Nat.mul_le_mul_right (2 ^ (k + 3)) (Nat.succ_le_of_lt hij)
    rw [Nat.succ_mul] at hmul
    exact .inr (.inl (by dsimp only; omega))
  · exact .inl rfl
  · have hmul := Nat.mul_le_mul_right (2 ^ (k + 3)) (Nat.succ_le_of_lt hij)
    rw [Nat.succ_mul] at hmul
    exact .inr (.inr (by dsimp only; omega))

end Geometry

def Used (inUse : List (ℕ × ℕ)) (c : ℕ) : Prop := c + headerSize ∈ inUse.map Prod.fst

structure Segs (s : Mem β) : Prop where
  few : s.numBuckets < 2 ^ 31
  ok : ∀ k, ∀ seg ∈ (s.buckets k).segments, k < s.numBuckets ∧ seg.Ok k
  apart : ∀ k k', ∀ seg ∈ (s.buckets k).segments, ∀ seg' ∈ (s.buckets k').segments,
    k = k' ∧ seg = seg' ∨ Apart (seg.addr, seg.size) (seg'.addr, seg'.size)
  nodup : ∀ k, (s.buckets k).segments.Nodup

def FreeList (s : Mem β) (k : ℕ) (l : List ℕ) : Prop := Chain s.u (s.buckets k).freeChunk l ∧ l.Nodup

/-- The free lists have the chunks not in use, and the words of the others say their buckets. -/
structure Inv (s : Mem β) (inUse : List (ℕ × ℕ)) : Prop extends Segs s where
  lists : ∀ k, ∃ l, FreeList s k l ∧ ∀ c, c ∈ l ↔ IsChunk s k c ∧ ¬ Used inUse c
  used : ∀ p ∈ inUse, headerSize ≤ p.1 ∧ ∃ k, IsChunk s k (p.1 - headerSize) ∧
    bucketOf (s.u (p.1 - headerSize)) = k ∧ p.2 + headerSize ≤ 2 ^ (k + 3)
  ptrs : (inUse.map Prod.fst).Nodup

section Invariant

variable {s : Mem β} {inUse : List (ℕ × ℕ)} {k k' c d : ℕ}

theorem Segs.lt (h : Segs s) (hc : IsChunk s k c) : k < s.numBuckets := by
  obtain ⟨seg, hseg, -⟩ := hc
  exact (h.ok k seg hseg).1

theorem Segs.pos (h : Segs s) (hc : IsChunk s k c) : 0 < c := by
  obtain ⟨seg, hseg, hc⟩ := hc
  have hok := (h.ok k seg hseg).2
  have haddr := hok.addr
  have hin := hok.inside hc
  omega

theorem Segs.chunk_apart (h : Segs s) (hc : IsChunk s k c) (hd : IsChunk s k' d) :
    k = k' ∧ c = d ∨ Apart (c, 2 ^ (k + 3)) (d, 2 ^ (k' + 3)) := by
  obtain ⟨seg, hseg, hc⟩ := hc
  obtain ⟨seg', hseg', hd⟩ := hd
  rcases h.apart k k' seg hseg seg' hseg' with ⟨rfl, rfl⟩ | hapart
  · exact ((h.ok k seg hseg).2.apart hc hd).imp (fun heq => ⟨rfl, heq⟩) id
  · have hin := (h.ok k seg hseg).2.inside hc
    have hin' := (h.ok k' seg' hseg').2.inside hd
    right
    simp only [Apart] at hapart ⊢
    omega

theorem Segs.chunk_unique (h : Segs s) (hc : IsChunk s k c) (hd : IsChunk s k' c) : k = k' := by
  rcases h.chunk_apart hc hd with ⟨rfl, -⟩ | hapart
  · rfl
  · have h₁ := Nat.two_pow_pos (k + 3)
    have h₂ := Nat.two_pow_pos (k' + 3)
    simp only [Apart] at hapart
    omega

theorem Inv.used_iff (h : Inv s inUse) (hc : IsChunk s k c) (hused : Used inUse c) :
    bucketOf (s.u c) = k := by
  obtain ⟨p, hp, hpc⟩ := mem_map.mp hused
  obtain ⟨-, k', hchunk, hbucket, -⟩ := h.used p hp
  have hc' : p.1 - headerSize = c := by omega
  rw [hc'] at hchunk hbucket
  exact hbucket.trans (h.chunk_unique hchunk hc)

theorem Segs.congr {s' : Mem β} (h : Segs s) (hnum : s'.numBuckets = s.numBuckets)
    (hsegs : ∀ k, (s'.buckets k).segments = (s.buckets k).segments) : Segs s' := by
  refine ⟨hnum ▸ h.few, ?_, ?_, fun k => hsegs k ▸ h.nodup k⟩
  · simp only [hsegs, hnum]
    exact h.ok
  · simp only [hsegs]
    exact h.apart

theorem isChunk_congr {s' : Mem β} (hsegs : ∀ k, (s'.buckets k).segments = (s.buckets k).segments) :
    IsChunk s' k c ↔ IsChunk s k c := by
  rw [IsChunk, hsegs, IsChunk]

def relist (s : Mem β) (k freeChunk c w : ℕ) : Mem β :=
  { s with
    buckets := Function.update s.buckets k { s.buckets k with freeChunk := freeChunk }
    u := Function.update s.u c w }

theorem relist_u (v w : ℕ) : (relist s k v c w).u = Function.update s.u c w :=
  rfl

theorem relist_self (v w : ℕ) : ((relist s k v c w).buckets k).freeChunk = v := by
  simp [relist]

theorem relist_of_ne (hk : k' ≠ k) (v w : ℕ) : (relist s k v c w).buckets k' = s.buckets k' := by
  simp [relist, hk]

theorem relist_segments {v w : ℕ} (k' : ℕ) :
    ((relist s k v c w).buckets k').segments = (s.buckets k').segments := by
  rw [relist]
  by_cases hk : k' = k
  · subst hk
    simp
  · simp [hk]

theorem Inv.other (h : Inv s inUse) (hc : IsChunk s k c) (hk : k' ≠ k) {v w : ℕ} {l : List ℕ}
    (hl : FreeList s k' l) (hmem : ∀ d, d ∈ l ↔ IsChunk s k' d ∧ ¬ Used inUse d) :
    FreeList (relist s k v c w) k' l := by
  have hnot : c ∉ l := fun hcl => hk (h.chunk_unique ((hmem c).mp hcl).1 hc)
  refine ⟨?_, hl.2⟩
  rw [relist_of_ne hk]
  exact hl.1.update hnot

theorem Inv.reuse (h : Inv s inUse) {size : ℕ} (hfree : (s.buckets k).freeChunk ≠ 0)
    (hk : k < s.numBuckets) (hsize : size + headerSize ≤ 2 ^ (k + 3)) :
    Inv (relist s k (s.u (s.buckets k).freeChunk) (s.buckets k).freeChunk
      (setBucket (s.u (s.buckets k).freeChunk) k))
      (((s.buckets k).freeChunk + headerSize, size) :: inUse) := by
  obtain ⟨l, ⟨hchain, hnodup⟩, hmem⟩ := h.lists k
  obtain ⟨l', rfl, hchain'⟩ := hchain.eq_cons hfree
  generalize (s.buckets k).freeChunk = c at *
  obtain ⟨hcl, hnodup'⟩ := nodup_cons.mp hnodup
  obtain ⟨hc, hunused⟩ := (hmem c).mp mem_cons_self
  have hused (d : ℕ) : Used ((c + headerSize, size) :: inUse) d ↔ d = c ∨ Used inUse d := by
    simp [Used]
  refine ⟨h.toSegs.congr rfl relist_segments, fun k' => ?_, fun p hp => ?_, ?_⟩
  · by_cases hk' : k' = k
    · subst hk'
      refine ⟨l', ⟨?_, hnodup'⟩, fun d => ?_⟩
      · rw [relist_self]
        exact hchain'.update hcl
      · rw [isChunk_congr relist_segments, hused, not_or]
        constructor
        · intro hd
          obtain ⟨hchunk, hnot⟩ := (hmem d).mp (mem_cons_of_mem _ hd)
          exact ⟨hchunk, ne_of_mem_of_not_mem hd hcl, hnot⟩
        · rintro ⟨hchunk, hne, hnot⟩
          exact (mem_cons.mp ((hmem d).mpr ⟨hchunk, hnot⟩)).resolve_left hne
    · obtain ⟨l'', hl'', hmem''⟩ := h.lists k'
      refine ⟨l'', h.other hc hk' hl'' hmem'', fun d => ?_⟩
      rw [hmem'', isChunk_congr relist_segments, hused, not_or]
      refine and_congr_right fun hd => (and_iff_right ?_).symm
      rintro rfl
      exact hk' (h.chunk_unique hd hc)
  · rcases mem_cons.mp hp with rfl | hold
    · refine ⟨Nat.le_add_left _ _, k, ?_, ?_, hsize⟩
      · rwa [Nat.add_sub_cancel, isChunk_congr relist_segments]
      · have hfew := h.few
        rw [Nat.add_sub_cancel, relist_u, Function.update_self, bucketOf_setBucket (by omega)]
    · obtain ⟨hle, k', hchunk, hbucket, hroom⟩ := h.used p hold
      refine ⟨hle, k', (isChunk_congr relist_segments).mpr hchunk, ?_, hroom⟩
      rw [relist_u, Function.update_of_ne, hbucket]
      rintro rfl
      exact hunused (mem_map.mpr ⟨p, hold, by omega⟩)
  · rw [map_cons, nodup_cons]
    exact ⟨hunused, h.ptrs⟩

theorem Inv.release (h : Inv s inUse) {p : ℕ × ℕ} (hp : p ∈ inUse) :
    ∃ s', free s p.1 = some s' ∧ Inv s' (inUse.erase p) ∧ s'.data = s.data ∧
      s'.numBuckets = s.numBuckets ∧ ∀ k, (s'.buckets k).segments = (s.buckets k).segments := by
  obtain ⟨hle, k, hchunk, hbucket, -⟩ := h.used p hp
  have hlt : ¬ s.numBuckets ≤ bucketOf (s.u (p.1 - headerSize)) := by
    rw [hbucket]
    exact not_le.mpr (h.lt hchunk)
  have hfree : free s p.1 = some (relist s k (p.1 - headerSize) (p.1 - headerSize) (s.buckets k).freeChunk) := by
    rw [free, if_neg hlt, hbucket]
    rfl
  refine ⟨_, hfree, ?_, rfl, rfl, relist_segments⟩
  have hpc : p.1 - headerSize + headerSize = p.1 := Nat.sub_add_cancel hle
  have hperm := perm_cons_erase hp
  have hptrs := (hperm.map Prod.fst).nodup_iff.mp h.ptrs
  rw [map_cons, nodup_cons] at hptrs
  have hused (d : ℕ) : Used inUse d ↔ d = p.1 - headerSize ∨ Used (inUse.erase p) d := by
    rw [Used, (hperm.map Prod.fst).mem_iff, map_cons, mem_cons, Used]
    refine or_congr_left ?_
    omega
  have hself : ¬ Used (inUse.erase p) (p.1 - headerSize) := by
    rw [Used, hpc]
    exact hptrs.1
  generalize p.1 - headerSize = c at *
  refine ⟨h.toSegs.congr rfl relist_segments, fun k' => ?_, fun q hq => ?_, hptrs.2⟩
  · obtain ⟨l, hl, hmem⟩ := h.lists k'
    by_cases hk' : k' = k
    · subst hk'
      have hcl : c ∉ l := fun hcl => ((hmem c).mp hcl).2 ((hused c).mpr (.inl rfl))
      refine ⟨c :: l, ⟨?_, nodup_cons.mpr ⟨hcl, hl.2⟩⟩, fun d => ?_⟩
      · rw [relist_self]
        exact hl.1.push hcl (h.pos hchunk).ne'
      · rw [mem_cons, hmem, isChunk_congr relist_segments, hused, not_or]
        constructor
        · rintro (rfl | ⟨hd, -, hnot⟩)
          · exact ⟨hchunk, hself⟩
          · exact ⟨hd, hnot⟩
        · rintro ⟨hd, hnot⟩
          exact (em (d = c)).imp_right fun hne => ⟨hd, hne, hnot⟩
    · refine ⟨l, h.other hchunk hk' hl hmem, fun d => ?_⟩
      rw [hmem, isChunk_congr relist_segments, hused, not_or]
      refine and_congr_right fun hd => and_iff_right ?_
      rintro rfl
      exact hk' (h.chunk_unique hd hchunk)
  · obtain ⟨hle', k', hchunk', hbucket', hroom⟩ := h.used q (mem_of_mem_erase hq)
    refine ⟨hle', k', (isChunk_congr relist_segments).mpr hchunk', ?_, hroom⟩
    rw [relist_u, Function.update_of_ne, hbucket']
    rintro rfl
    exact hself (mem_map.mpr ⟨q, hq, by omega⟩)

def addSegment (s : Mem β) (k addr got n : ℕ) : Mem β :=
  let first := addr + headerSize
  let u := if n = 0 then s.u else carve (2 ^ (k + 3)) n first s.u
  { s with
    buckets := Function.update s.buckets k ⟨if n = 0 then 0 else first + 2 ^ (k + 3),
      ⟨addr, got, chunkList (2 ^ (k + 3)) first (n + 1)⟩ :: (s.buckets k).segments⟩
    u := Function.update u first (setBucket (u first) k) }

section NewSegment

variable {addr got n : ℕ}

theorem addSegment_segments (k' : ℕ) : ((addSegment s k addr got n).buckets k').segments =
    if k' = k then ⟨addr, got, chunkList (2 ^ (k + 3)) (addr + headerSize) (n + 1)⟩ :: (s.buckets k).segments
    else (s.buckets k').segments := by
  rw [addSegment]
  by_cases hk : k' = k
  · subst hk
    simp
  · simp [hk]

theorem addSegment_isChunk : IsChunk (addSegment s k addr got n) k' c ↔
    k' = k ∧ c ∈ chunkList (2 ^ (k + 3)) (addr + headerSize) (n + 1) ∨ IsChunk s k' c := by
  rw [IsChunk, addSegment_segments]
  by_cases hk : k' = k
  · subst hk
    simp [IsChunk]
  · simp [hk, IsChunk]

theorem Segs.addSegment (h : Segs s) (hk : k < s.numBuckets) (haddr : 0 < addr)
    (hgot : headerSize + (n + 1) * 2 ^ (k + 3) ≤ got)
    (hapart : ∀ k, ∀ seg ∈ (s.buckets k).segments, Apart (addr, got) (seg.addr, seg.size)) :
    Segs (addSegment s k addr got n) := by
  have hmem (k' : ℕ) (seg : Seg) (hseg : seg ∈ ((Buckets.addSegment s k addr got n).buckets k').segments) :
      k' = k ∧ seg = ⟨addr, got, chunkList (2 ^ (k + 3)) (addr + headerSize) (n + 1)⟩ ∨
        seg ∈ (s.buckets k').segments := by
    rw [addSegment_segments] at hseg
    split_ifs at hseg with hk'
    · subst hk'
      exact (mem_cons.mp hseg).imp (fun heq => ⟨rfl, heq⟩) id
    · exact .inr hseg
  refine ⟨h.few, fun k' seg hseg => ?_, fun k₁ k₂ seg₁ h₁ seg₂ h₂ => ?_, fun k' => ?_⟩
  · rcases hmem k' seg hseg with ⟨rfl, rfl⟩ | hseg
    · exact ⟨hk, haddr, n, rfl, hgot⟩
    · exact h.ok k' seg hseg
  · rcases hmem k₁ seg₁ h₁ with ⟨rfl, rfl⟩ | hold₁ <;> rcases hmem k₂ seg₂ h₂ with ⟨rfl, rfl⟩ | hold₂
    · exact .inl ⟨rfl, rfl⟩
    · exact .inr (hapart k₂ seg₂ hold₂)
    · exact .inr (Or.symm (hapart k₁ seg₁ hold₁))
    · exact h.apart k₁ k₂ seg₁ hold₁ seg₂ hold₂
  · rw [addSegment_segments]
    split_ifs with hk'
    · refine nodup_cons.mpr ⟨fun hseg => ?_, h.nodup k⟩
      have hself := hapart k _ hseg
      simp only [Apart, headerSize] at hself hgot
      omega
    · exact h.nodup k'

theorem Segs.not_new (h : Segs s) (hgot : headerSize + (n + 1) * 2 ^ (k + 3) ≤ got)
    (hapart : ∀ k, ∀ seg ∈ (s.buckets k).segments, Apart (addr, got) (seg.addr, seg.size))
    (hd : IsChunk s k' d) : d ∉ chunkList (2 ^ (k + 3)) (addr + headerSize) (n + 1) := by
  intro hnew
  obtain ⟨seg, hseg, hd⟩ := hd
  have hin := (h.ok k' seg hseg).2.inside hd
  obtain ⟨j, hj, rfl⟩ := mem_chunkList.mp hnew
  have hmul : j * 2 ^ (k + 3) + 2 ^ (k + 3) ≤ (n + 1) * 2 ^ (k + 3) := by
    rw [← Nat.succ_mul]
    exact Nat.mul_le_mul_right _ hj
  have hpos := Nat.two_pow_pos (k + 3)
  have hpos' := Nat.two_pow_pos (k' + 3)
  have hseg' := hapart k' seg hseg
  simp only [Apart] at hseg'
  omega

theorem addSegment_u (hd : d ∉ chunkList (2 ^ (k + 3)) (addr + headerSize) (n + 1)) :
    (addSegment s k addr got n).u d = s.u d := by
  have hne (j : ℕ) (hj : j ≤ n) : d ≠ addr + headerSize + j * 2 ^ (k + 3) :=
    fun heq => hd (mem_chunkList.mpr ⟨j, by omega, heq⟩)
  have hfirst : d ≠ addr + headerSize := by simpa using hne 0 (Nat.zero_le n)
  rw [addSegment]
  dsimp only
  rw [Function.update_of_ne hfirst]
  split_ifs
  · rfl
  · exact carve_other hne

theorem Inv.addSegment (h : Inv s inUse) {size : ℕ} (hfree : (s.buckets k).freeChunk = 0)
    (hk : k < s.numBuckets) (hsize : size + headerSize ≤ 2 ^ (k + 3)) (haddr : 0 < addr)
    (hgot : headerSize + (n + 1) * 2 ^ (k + 3) ≤ got)
    (hapart : ∀ k, ∀ seg ∈ (s.buckets k).segments, Apart (addr, got) (seg.addr, seg.size)) :
    Inv (addSegment s k addr got n) ((addr + headerSize + headerSize, size) :: inUse) := by
  have hsegs := h.toSegs.addSegment hk haddr hgot hapart
  have hnew {k' d : ℕ} (hd : IsChunk s k' d) := h.toSegs.not_new hgot hapart hd
  have hfirst : addr + headerSize ∈ chunkList (2 ^ (k + 3)) (addr + headerSize) (n + 1) := by
    rw [chunkList_succ]
    exact mem_cons_self
  have hused (d : ℕ) : Used ((addr + headerSize + headerSize, size) :: inUse) d ↔
      d = addr + headerSize ∨ Used inUse d := by
    simp [Used]
  have hold {d : ℕ} (hd : Used inUse d) : ∃ k', IsChunk s k' d := by
    obtain ⟨p, hp, hpd⟩ := mem_map.mp hd
    obtain ⟨-, k', hchunk, -⟩ := h.used p hp
    have hpd' : p.1 - headerSize = d := by omega
    exact ⟨k', hpd' ▸ hchunk⟩
  have hnotUsed {d : ℕ} (hd : d ∈ chunkList (2 ^ (k + 3)) (addr + headerSize) (n + 1)) : ¬ Used inUse d := by
    intro hused
    obtain ⟨k', hchunk⟩ := hold hused
    exact hnew hchunk hd
  have hnodup : (chunkList (2 ^ (k + 3)) (addr + headerSize) (n + 1)).Nodup :=
    chunkList_nodup (Nat.two_pow_pos (k + 3))
  rw [chunkList_succ] at hnodup
  obtain ⟨hnotTail, hnodup⟩ := nodup_cons.mp hnodup
  refine ⟨hsegs, fun k' => ?_, fun p hp => ?_, ?_⟩
  · obtain ⟨l, hl, hmem⟩ := h.lists k'
    by_cases hk' : k' = k
    · subst hk'
      obtain rfl : l = [] := (hfree ▸ hl.1).eq_nil
      refine ⟨chunkList (2 ^ (k' + 3)) (addr + headerSize + 2 ^ (k' + 3)) n, ⟨?_, hnodup⟩, fun d => ?_⟩
      · rw [Buckets.addSegment]
        dsimp only
        rw [Function.update_self]
        rcases n with _ | n
        · simp [chunkList, Chain]
        · rw [if_neg (by omega), if_neg (by omega)]
          exact (carve_chain (Nat.two_pow_pos _)).update hnotTail
      · rw [addSegment_isChunk, hused, not_or, chunkList_succ, mem_cons]
        constructor
        · intro hd
          refine ⟨.inl ⟨rfl, .inr hd⟩, ne_of_mem_of_not_mem hd hnotTail, hnotUsed ?_⟩
          rw [chunkList_succ]
          exact mem_cons_of_mem _ hd
        · rintro ⟨⟨-, rfl | hd⟩ | hd, hne, hnot⟩
          · exact absurd rfl hne
          · exact hd
          · exact absurd ((hmem d).mpr ⟨hd, hnot⟩) not_mem_nil
    · refine ⟨l, ⟨?_, hl.2⟩, fun d => ?_⟩
      · have hbucket : (Buckets.addSegment s k addr got n).buckets k' = s.buckets k' := by
          rw [Buckets.addSegment]
          dsimp only
          rw [Function.update_of_ne hk']
        rw [hbucket]
        exact hl.1.congr fun d hd => addSegment_u (hnew ((hmem d).mp hd).1)
      · rw [hmem, addSegment_isChunk, hused, not_or]
        constructor
        · rintro ⟨hd, hnot⟩
          refine ⟨.inr hd, ?_, hnot⟩
          rintro rfl
          exact hnew hd hfirst
        · rintro ⟨⟨heq, -⟩ | hd, -, hnot⟩
          · exact absurd heq hk'
          · exact ⟨hd, hnot⟩
  · rcases mem_cons.mp hp with rfl | hp'
    · refine ⟨Nat.le_add_left _ _, k, ?_, ?_, hsize⟩
      · rw [Nat.add_sub_cancel, addSegment_isChunk]
        exact .inl ⟨rfl, hfirst⟩
      · have hfew := h.few
        rw [Nat.add_sub_cancel, Buckets.addSegment]
        dsimp only
        rw [Function.update_self, bucketOf_setBucket (by omega)]
    · obtain ⟨hle, k', hchunk, hbucket, hroom⟩ := h.used p hp'
      refine ⟨hle, k', addSegment_isChunk.mpr (.inr hchunk), ?_, hroom⟩
      rw [addSegment_u (hnew hchunk), hbucket]
  · rw [map_cons, nodup_cons]
    exact ⟨hnotUsed hfirst, h.ptrs⟩

end NewSegment

def Holds (numBuckets size : ℕ) : Prop :=
  size + headerSize ≤ 2 ^ 63 ∧ size + headerSize ≤ 8 * 2 ^ (numBuckets - 1)

theorem takeChunk_reuse (hfree : (s.buckets k).freeChunk ≠ 0) (z : ℕ) (getMem : Option (ℕ × ℕ)) :
    takeChunk s k z getMem = ((s.buckets k).freeChunk + headerSize,
      relist s k (s.u (s.buckets k).freeChunk) (s.buckets k).freeChunk
        (setBucket (s.u (s.buckets k).freeChunk) k)) := by
  unfold takeChunk
  exact if_pos hfree

theorem takeChunk_none (hfree : (s.buckets k).freeChunk = 0) (z : ℕ) : takeChunk s k z none = (0, s) := by
  unfold takeChunk
  exact if_neg (not_not.mpr hfree)

theorem takeChunk_some (hfree : (s.buckets k).freeChunk = 0) (addr got : ℕ) :
    takeChunk s k (2 ^ (k + 3)) (some (addr, got)) = (addr + headerSize + headerSize,
      addSegment s k addr got ((got - (headerSize + 2 ^ (k + 3))) / 2 ^ (k + 3))) := by
  unfold takeChunk
  exact if_neg (not_not.mpr hfree)

section

variable (h : Inv s inUse)

include h

theorem Inv.alloc {size : ℕ} {getMem : Option (ℕ × ℕ)} (hnum : 0 < s.numBuckets)
    (hholds : Holds s.numBuckets size) (hfresh : FreshMem s size getMem) :
    ∃ ptr s', alloc s size getMem = some (ptr, s') ∧ s'.data = s.data ∧ s'.numBuckets = s.numBuckets ∧
      (ptr = 0 ∧ s' = s ∨ ptr ≠ 0 ∧ Inv s' ((ptr, size) :: inUse)) := by
  have hword : (size + headerSize) % word = size + headerSize :=
    Nat.mod_eq_of_lt (hholds.1.trans_lt (by decide))
  obtain ⟨k, hk, hfind, hsize⟩ := findBucket_lt hnum hholds.1 hholds.2
  have halloc : Buckets.alloc s size getMem = some (takeChunk s k (2 ^ (k + 3)) getMem) := by
    rw [Buckets.alloc, hword, hfind, Option.bind_some]
    exact if_neg (not_le.mpr hk)
  have hheader (c : ℕ) : c + headerSize ≠ 0 := Nat.succ_ne_zero _
  rw [halloc]
  by_cases hfree : (s.buckets k).freeChunk = 0
  · rcases getMem with _ | ⟨addr, got⟩
    · rw [takeChunk_none hfree]
      exact ⟨0, s, rfl, rfl, rfl, .inl ⟨rfl, rfl⟩⟩
    · obtain ⟨haddr, -, hlarge, hapart⟩ := hfresh addr got rfl
      have hgot := hlarge k _ (hword ▸ hfind)
      have hdiv := Nat.div_mul_le_self (got - (headerSize + 2 ^ (k + 3))) (2 ^ (k + 3))
      rw [takeChunk_some hfree]
      refine ⟨_, _, rfl, rfl, rfl, .inr ⟨hheader _, h.addSegment hfree hk hsize haddr ?_ hapart⟩⟩
      rw [Nat.succ_mul]
      omega
  · rw [takeChunk_reuse hfree]
    exact ⟨_, _, rfl, rfl, rfl, .inr ⟨hheader _, h.reuse hfree hk hsize⟩⟩

theorem Inv.withData (data : ℕ → β) : Inv { s with data := data } inUse :=
  ⟨⟨h.few, h.ok, h.apart, h.nodup⟩, h.lists, h.used, h.ptrs⟩

theorem Inv.resize {ptr old size : ℕ} (hp : (ptr, old) ∈ inUse)
    (hsize : size ≤ capacity (bucketOf (s.u (ptr - headerSize)))) :
    Inv s ((ptr, size) :: inUse.erase (ptr, old)) := by
  have hperm := ((perm_cons_erase hp).map Prod.fst).symm
  have hused (c : ℕ) : Used ((ptr, size) :: inUse.erase (ptr, old)) c ↔ Used inUse c := hperm.mem_iff
  refine ⟨h.toSegs, fun k => ?_, fun q hq => ?_, hperm.nodup_iff.mpr h.ptrs⟩
  · simp only [hused]
    exact h.lists k
  · rcases mem_cons.mp hq with rfl | hq
    · obtain ⟨hle, k, hchunk, hbucket, hroom⟩ := h.used (ptr, old) hp
      refine ⟨hle, k, hchunk, hbucket, ?_⟩
      dsimp only at hbucket hroom ⊢
      rw [hbucket, capacity] at hsize
      omega
    · exact h.used q (mem_of_mem_erase hq)

theorem Inv.blocks_apart {p q : ℕ × ℕ} (hp : p ∈ inUse) (hq : q ∈ inUse)
    (hne : p.1 ≠ q.1) : Apart (p.1, capacity (bucketOf (s.u (p.1 - headerSize))))
      (q.1, capacity (bucketOf (s.u (q.1 - headerSize)))) := by
  obtain ⟨hle, k, hchunk, hbucket, -⟩ := h.used p hp
  obtain ⟨hle', k', hchunk', hbucket', -⟩ := h.used q hq
  rw [hbucket, hbucket']
  rcases h.chunk_apart hchunk hchunk' with ⟨-, heq⟩ | hapart
  · omega
  · have hpos := Nat.two_pow_pos (k + 3)
    have hpos' := Nat.two_pow_pos (k' + 3)
    simp only [Apart, capacity] at hapart ⊢
    omega

theorem Inv.large {p : ℕ × ℕ} (hp : p ∈ inUse) :
    p.2 ≤ capacity (bucketOf (s.u (p.1 - headerSize))) := by
  obtain ⟨-, k, -, hbucket, hroom⟩ := h.used p hp
  rw [hbucket, capacity]
  omega

theorem Inv.realloc {ptr old size : ℕ} {getMem : Option (ℕ × ℕ)} (hnum : 0 < s.numBuckets)
    (hp : (ptr, old) ∈ inUse) (hfresh : FreshMem s size getMem)
    (hholds : size ≤ capacity (bucketOf (s.u (ptr - headerSize))) ∨ Holds s.numBuckets size) :
    ∃ ret s', realloc s ptr size getMem = some (ret, s') ∧ s'.numBuckets = s.numBuckets ∧
      (ret = 0 ∧ s' = s ∨ ret ≠ 0 ∧ Inv s' ((ret, size) :: inUse.erase (ptr, old)) ∧
        (∀ j < old, s'.data (ret + j) = s.data (ptr + j)) ∧
        ∀ q ∈ inUse.erase (ptr, old), ∀ j < q.2, s'.data (q.1 + j) = s.data (q.1 + j)) := by
  rw [Buckets.realloc]
  dsimp only
  by_cases hstay : size ≤ capacity (bucketOf (s.u (ptr - headerSize)))
  · have hle := (h.used _ hp).1
    refine ⟨ptr, s, if_pos hstay, rfl, .inr ⟨?_, h.resize hp hstay, fun _ _ => rfl, fun _ _ _ _ => rfl⟩⟩
    simp only [headerSize] at hle
    omega
  · rw [if_neg hstay]
    obtain ⟨ret, s₁, halloc, hdata, hnum₁, hcase⟩ := h.alloc hnum (hholds.resolve_left hstay) hfresh
    rw [halloc, Option.bind_some]
    dsimp only
    rcases hcase with ⟨rfl, rfl⟩ | ⟨hret, hinv⟩
    · exact ⟨0, s₁, if_pos rfl, rfl, .inl ⟨rfl, rfl⟩⟩
    · rw [if_neg hret]
      obtain ⟨s₂, hfree, hinv₂, hdata₂, hnum₂, -⟩ := (hinv.withData
        (memcpy s₁.data ret ptr (capacity (bucketOf (s.u (ptr - headerSize)))))).release
          (mem_cons_of_mem (ret, size) hp)
      rw [hfree, Option.map_some]
      have hnotin : ret ∉ inUse.map Prod.fst := by
        have hptrs := hinv.ptrs
        rw [map_cons, nodup_cons] at hptrs
        exact hptrs.1
      have herase : ((ret, size) :: inUse).erase (ptr, old) = (ret, size) :: inUse.erase (ptr, old) := by
        refine erase_cons_tail ?_
        have hne : ret ≠ ptr := fun heq => hnotin (heq ▸ mem_map_of_mem hp)
        simp [hne]
      rw [herase] at hinv₂
      refine ⟨ret, s₂, rfl, hnum₂.trans hnum₁, .inr ⟨hret, hinv₂, fun j hj => ?_, fun q hq j hj => ?_⟩⟩
      · have hlarge := h.large hp
        dsimp only at hlarge
        rw [hdata₂]
        dsimp only
        rw [memcpy, if_pos (by omega), hdata, Nat.add_sub_cancel_left]
      · have hq' : q ∈ inUse := mem_of_mem_erase hq
        have hne : ret ≠ q.1 := fun heq => hnotin (heq ▸ mem_map_of_mem hq')
        have hapart := hinv.blocks_apart mem_cons_self (mem_cons_of_mem _ hq') hne
        have hlarge := hinv.large (mem_cons_self : (ret, size) ∈ (ret, size) :: inUse)
        have hlarge' := hinv.large (mem_cons_of_mem (ret, size) hq')
        simp only [Apart] at hapart hlarge
        rw [hdata₂]
        dsimp only
        rw [memcpy, if_neg (by omega), hdata]

end

end Invariant

/-- What taking the cells `out` out of a free list leaves: a word that changes is in the list, and gets
the word of one of these cells. -/
structure Unlinked (u : ℕ → ℕ) (l : List ℕ) (out : ℕ → Prop) (f' : ℕ) (u' : ℕ → ℕ) (l' : List ℕ) : Prop where
  chain : Chain u' f' l'
  sublist : l'.Sublist l
  mem : ∀ d, d ∈ l' ↔ d ∈ l ∧ ¬ out d
  word : ∀ d, u' d = u d ∨ d ∈ l ∧ ∃ c, out c ∧ u' d = u c

def Emptied (u : ℕ → ℕ) (k : ℕ) (segs : List Seg) (c : ℕ) : Prop :=
  ∃ seg ∈ segs, isEmpty u k seg = true ∧ c ∈ seg.chunks

/-- The segments that seem to be empty have all their chunks in the free list, the others a chunk that is
not there. -/
structure Sweepable (u : ℕ → ℕ) (k : ℕ) (l : List ℕ) (segs : List Seg) : Prop where
  empty : ∀ seg ∈ segs, isEmpty u k seg = true → seg.chunks ⊆ l
  kept : ∀ seg ∈ segs, isEmpty u k seg ≠ true → ∃ c ∈ seg.chunks, looksUsed u k c = true ∧ c ∉ l
  nodup : ∀ seg ∈ segs, seg.chunks.Nodup
  disjoint : segs.Pairwise fun a b => a.chunks.Disjoint b.chunks

section Sweep

variable {u u₁ u₂ : ℕ → ℕ} {f f₁ f₂ k fuel c : ℕ} {l l₁ l₂ : List ℕ} {out out' : ℕ → Prop} {seg : Seg}
  {segs : List Seg}

theorem isEmpty_iff : isEmpty u k seg = true ↔ ∀ c ∈ seg.chunks, ¬ looksUsed u k c = true := by
  simp [isEmpty]

theorem Unlinked.refl (h : Chain u f l) : Unlinked u l (fun _ => False) f u l :=
  ⟨h, List.Sublist.refl l, by simp, fun _ => .inl rfl⟩

theorem Unlinked.trans (h : Unlinked u l out f₁ u₁ l₁) (h' : Unlinked u₁ l₁ out' f₂ u₂ l₂) :
    Unlinked u l (fun c => out c ∨ out' c) f₂ u₂ l₂ := by
  refine ⟨h'.chain, h'.sublist.trans h.sublist, fun d => ?_, fun d => ?_⟩
  · rw [h'.mem, h.mem, not_or, and_assoc]
  · rcases h'.word d with heq' | ⟨hd, c, hc, heq'⟩
    · rw [heq']
      refine (h.word d).imp_right ?_
      rintro ⟨hd, c, hc, heq⟩
      exact ⟨hd, c, .inl hc, heq⟩
    · right
      refine ⟨h.sublist.subset hd, ?_⟩
      rcases h.word c with heq | ⟨-, c', hc', heq⟩
      · exact ⟨c, .inr hc, heq'.trans heq⟩
      · exact ⟨c', .inl hc', heq'.trans heq⟩

theorem Unlinked.congr (h : Unlinked u l out f₁ u₁ l₁) (heq : ∀ c, out c ↔ out' c) :
    Unlinked u l out' f₁ u₁ l₁ := by
  obtain rfl : out = out' := funext fun c => propext (heq c)
  exact h

theorem unlink_eq (h : Chain u f l) (hnodup : l.Nodup) (hc : c ∈ l) (hfuel : l.length ≤ fuel) :
    ∃ f' u' l', unlink fuel (f, u) c = some (f', u') ∧ Unlinked u l (· = c) f' u' l' := by
  have hmem (d : ℕ) : d ∈ l.erase c ↔ d ∈ l ∧ ¬ d = c := by
    rw [hnodup.mem_erase_iff, and_comm]
  unfold unlink
  by_cases hf : f = c
  · subst hf
    refine ⟨u f, u, l.erase f, if_pos rfl, ?_, erase_sublist, hmem, fun _ => .inl rfl⟩
    obtain ⟨l', rfl, hrest⟩ := h.eq_cons (h.ne_zero hc)
    rwa [erase_cons_head]
  · obtain ⟨q, hq, -, hseek, hchain⟩ := h.seek hnodup hc hf hfuel
    refine ⟨f, Function.update u q (u c), l.erase c, ?_, hchain, erase_sublist, hmem, fun d => ?_⟩
    · dsimp only
      rw [if_neg hf, hseek, Option.map_some]
    · by_cases hd : d = q
      · subst hd
        exact .inr ⟨hq, c, rfl, Function.update_self ..⟩
      · exact .inl (Function.update_of_ne hd _ _)

theorem unlinkAll_eq {cs : List ℕ} (h : Chain u f l) (hnodup : l.Nodup) (hcs : cs.Nodup) (hsub : cs ⊆ l)
    (hfuel : l.length ≤ fuel) :
    ∃ f' u' l', cs.foldlM (unlink fuel) (f, u) = some (f', u') ∧ Unlinked u l (· ∈ cs) f' u' l' := by
  induction cs generalizing f u l with
  | nil => exact ⟨f, u, l, rfl, (Unlinked.refl h).congr (by simp)⟩
  | cons c cs ih =>
    obtain ⟨hc, hcs⟩ := nodup_cons.mp hcs
    obtain ⟨f₁, u₁, l₁, h₁, hun₁⟩ := unlink_eq h hnodup (hsub mem_cons_self) hfuel
    have hsub₁ : cs ⊆ l₁ := fun d hd =>
      (hun₁.mem d).mpr ⟨hsub (mem_cons_of_mem _ hd), ne_of_mem_of_not_mem hd hc⟩
    obtain ⟨f₂, u₂, l₂, h₂, hun₂⟩ := ih hun₁.chain (hnodup.sublist hun₁.sublist) hcs hsub₁
      (hun₁.sublist.length_le.trans hfuel)
    refine ⟨f₂, u₂, l₂, ?_, (hun₁.trans hun₂).congr fun d => mem_cons.symm⟩
    rw [foldlM_cons, h₁]
    exact h₂

theorem Unlinked.isEmpty_eq (h : Unlinked u l out f₁ u₁ l₁) (hout : ∀ c, out c → ¬ looksUsed u k c = true)
    (hkept : isEmpty u k seg ≠ true → ∃ c ∈ seg.chunks, looksUsed u k c = true ∧ c ∉ l) :
    isEmpty u₁ k seg = isEmpty u k seg := by
  rw [Bool.eq_iff_iff]
  by_cases hempty : isEmpty u k seg = true
  · refine iff_of_true (isEmpty_iff.mpr fun c hc => ?_) hempty
    rcases h.word c with heq | ⟨-, d, hd, heq⟩
    · rw [looksUsed, heq]
      exact isEmpty_iff.mp hempty c hc
    · rw [looksUsed, heq]
      exact hout d hd
  · refine iff_of_false (fun hempty₁ => ?_) hempty
    obtain ⟨c, hc, hlooks, hcl⟩ := hkept hempty
    refine isEmpty_iff.mp hempty₁ c hc ?_
    rcases h.word c with heq | ⟨hmem, -⟩
    · rwa [looksUsed, heq]
    · exact absurd hmem hcl

theorem Sweepable.tail (h : Sweepable u k l (seg :: segs)) : Sweepable u k l segs :=
  ⟨fun s hs => h.empty s (mem_cons_of_mem _ hs), fun s hs => h.kept s (mem_cons_of_mem _ hs),
    fun s hs => h.nodup s (mem_cons_of_mem _ hs), (pairwise_cons.mp h.disjoint).2⟩

theorem Sweepable.next (h : Sweepable u k l (seg :: segs)) (hempty : isEmpty u k seg = true)
    (hun : Unlinked u l (· ∈ seg.chunks) f₁ u₁ l₁) :
    Sweepable u₁ k l₁ segs ∧ ∀ s ∈ segs, isEmpty u₁ k s = isEmpty u k s := by
  have hsame (s : Seg) (hs : s ∈ segs) : isEmpty u₁ k s = isEmpty u k s :=
    hun.isEmpty_eq (isEmpty_iff.mp hempty) (h.tail.kept s hs)
  refine ⟨⟨fun s hs hempty₁ c hc => ?_, fun s hs hempty₁ => ?_, h.tail.nodup, h.tail.disjoint⟩, hsame⟩
  · rw [hsame s hs] at hempty₁
    have hdisjoint := (pairwise_cons.mp h.disjoint).1 s hs
    exact (hun.mem c).mpr ⟨h.tail.empty s hs hempty₁ hc, fun hmem => hdisjoint hmem hc⟩
  · rw [hsame s hs] at hempty₁
    obtain ⟨c, hc, hlooks, hcl⟩ := h.tail.kept s hs hempty₁
    refine ⟨c, hc, ?_, fun hmem => hcl (hun.sublist.subset hmem)⟩
    rcases hun.word c with heq | ⟨hmem, -⟩
    · rwa [looksUsed, heq]
    · exact absurd hmem hcl

theorem emptied_cons : Emptied u k (seg :: segs) c ↔
    isEmpty u k seg = true ∧ c ∈ seg.chunks ∨ Emptied u k segs c := by
  simp [Emptied]

theorem sweep_eq (h : Chain u f l) (hnodup : l.Nodup) (hsegs : Sweepable u k l segs) (hfuel : l.length ≤ fuel) :
    ∃ f' u' l', sweep fuel k segs (f, u) = some (segs.filter fun seg => !isEmpty u k seg, f', u') ∧
      Unlinked u l (Emptied u k segs) f' u' l' := by
  induction segs generalizing f u l with
  | nil => exact ⟨f, u, l, rfl, (Unlinked.refl h).congr (by simp [Emptied])⟩
  | cons seg segs ih =>
    rw [sweep]
    by_cases hempty : isEmpty u k seg = true
    · obtain ⟨f₁, u₁, l₁, h₁, hun₁⟩ := unlinkAll_eq h hnodup (hsegs.nodup seg mem_cons_self)
        (hsegs.empty seg mem_cons_self hempty) hfuel
      obtain ⟨hnext, hsame⟩ := hsegs.next hempty hun₁
      obtain ⟨f₂, u₂, l₂, h₂, hun₂⟩ := ih hun₁.chain (hnodup.sublist hun₁.sublist) hnext
        (hun₁.sublist.length_le.trans hfuel)
      refine ⟨f₂, u₂, l₂, ?_, (hun₁.trans hun₂).congr fun c => ?_⟩
      · rw [if_pos hempty, h₁, Option.bind_some, h₂, filter_cons_of_neg (by simp [hempty])]
        exact congrArg (fun segs => some (segs, f₂, u₂)) (filter_congr fun s hs => by rw [hsame s hs])
      · rw [emptied_cons, and_iff_right hempty]
        refine or_congr_right (exists_congr fun s => and_congr_right fun hs => ?_)
        rw [hsame s hs]
    · obtain ⟨f', u', l', heq, hun⟩ := ih h hnodup hsegs.tail hfuel
      refine ⟨f', u', l', ?_, hun.congr fun c => ?_⟩
      · rw [if_neg hempty, heq, Option.map_some, filter_cons_of_pos (by simp [hempty])]
      · rw [emptied_cons, or_iff_right fun hc => hempty hc.1]

end Sweep

section Cleanup

variable {s s' : Mem β} {inUse : List (ℕ × ℕ)} {k k' c d f' : ℕ} {u' : ℕ → ℕ} {l l' : List ℕ} {seg seg' : Seg}

/-- A chunk of a segment of the bucket that has no block in use does not look used. -/
def Clean (s : Mem β) (inUse : List (ℕ × ℕ)) (k : ℕ) : Prop :=
  ∀ seg ∈ (s.buckets k).segments, (∀ c ∈ seg.chunks, ¬ Used inUse c) → ∀ c ∈ seg.chunks, ¬ looksUsed s.u k c = true

theorem Segs.seg_unique (h : Segs s) (hseg : seg ∈ (s.buckets k).segments) (hseg' : seg' ∈ (s.buckets k').segments)
    (hc : c ∈ seg.chunks) (hc' : c ∈ seg'.chunks) : seg = seg' := by
  rcases h.apart k k' seg hseg seg' hseg' with ⟨-, heq⟩ | hapart
  · exact heq
  · have hin := (h.ok k seg hseg).2.inside hc
    have hin' := (h.ok k' seg' hseg').2.inside hc'
    have hpos := Nat.two_pow_pos (k + 3)
    have hpos' := Nat.two_pow_pos (k' + 3)
    simp only [Apart] at hapart
    omega

theorem Inv.looksUsed (h : Inv s inUse) (hseg : seg ∈ (s.buckets k).segments) (hc : c ∈ seg.chunks)
    (hused : Used inUse c) : looksUsed s.u k c = true := by
  rw [Buckets.looksUsed, decide_eq_true_eq]
  exact h.used_iff ⟨seg, hseg, hc⟩ hused

theorem Inv.isEmpty_iff (h : Inv s inUse) (hclean : Clean s inUse k) (hseg : seg ∈ (s.buckets k).segments) :
    isEmpty s.u k seg = true ↔ ∀ c ∈ seg.chunks, ¬ Used inUse c := by
  rw [Buckets.isEmpty_iff]
  constructor
  · intro hempty c hc hused
    exact hempty c hc (h.looksUsed hseg hc hused)
  · exact hclean seg hseg

theorem Inv.sweepable (h : Inv s inUse) (hclean : Clean s inUse k)
    (hmem : ∀ c, c ∈ l ↔ IsChunk s k c ∧ ¬ Used inUse c) : Sweepable s.u k l (s.buckets k).segments := by
  refine ⟨fun seg hseg hempty c hc => ?_, fun seg hseg hempty => ?_, fun seg hseg => (h.ok k seg hseg).2.nodup, ?_⟩
  · exact (hmem c).mpr ⟨⟨seg, hseg, hc⟩, (h.isEmpty_iff hclean hseg).mp hempty c hc⟩
  · rw [ne_eq, h.isEmpty_iff hclean hseg] at hempty
    push Not at hempty
    obtain ⟨c, hc, hused⟩ := hempty
    exact ⟨c, hc, h.looksUsed hseg hc hused, fun hcl => ((hmem c).mp hcl).2 hused⟩
  · refine (h.nodup k).imp_of_mem fun {a b} ha hb hne c hca hcb => ?_
    exact hne (h.seg_unique ha hb hca hcb)

def shrink (s : Mem β) (k f' : ℕ) (u' : ℕ → ℕ) : Mem β :=
  { s with
    buckets := Function.update s.buckets k ⟨f', (s.buckets k).segments.filter fun seg => !isEmpty s.u k seg⟩
    u := u' }

theorem mem_shrink : seg ∈ ((shrink s k f' u').buckets k').segments ↔
    seg ∈ (s.buckets k').segments ∧ (k' = k → isEmpty s.u k seg ≠ true) := by
  rw [shrink]
  by_cases hk : k' = k
  · subst hk
    simp
  · simp [hk]

theorem shrink_self : (shrink s k f' u').buckets k =
    ⟨f', (s.buckets k).segments.filter fun seg => !isEmpty s.u k seg⟩ :=
  Function.update_self ..

theorem shrink_of_ne (hk : k' ≠ k) : (shrink s k f' u').buckets k' = s.buckets k' :=
  Function.update_of_ne hk ..

theorem Segs.shrink (h : Segs s) (k f' : ℕ) (u' : ℕ → ℕ) : Segs (shrink s k f' u') := by
  refine ⟨h.few, fun k' seg hseg => h.ok k' seg (mem_shrink.mp hseg).1, fun k₁ k₂ seg₁ h₁ seg₂ h₂ =>
    h.apart k₁ k₂ seg₁ (mem_shrink.mp h₁).1 seg₂ (mem_shrink.mp h₂).1, fun k' => ?_⟩
  by_cases hk : k' = k
  · subst hk
    rw [shrink_self]
    exact (h.nodup k').filter _
  · rw [shrink_of_ne hk]
    exact h.nodup k'

theorem Segs.shrink_isChunk (h : Segs s) : IsChunk (Buckets.shrink s k f' u') k' c ↔
    IsChunk s k' c ∧ (k' = k → ¬ Emptied s.u k (s.buckets k).segments c) := by
  constructor
  · rintro ⟨seg, hseg, hc⟩
    obtain ⟨hold, hkeep⟩ := mem_shrink.mp hseg
    refine ⟨⟨seg, hold, hc⟩, ?_⟩
    rintro rfl ⟨seg', hseg', hempty, hc'⟩
    obtain rfl := h.seg_unique hold hseg' hc hc'
    exact hkeep rfl hempty
  · rintro ⟨⟨seg, hseg, hc⟩, hkeep⟩
    refine ⟨seg, mem_shrink.mpr ⟨hseg, ?_⟩, hc⟩
    rintro rfl hempty
    exact hkeep rfl ⟨seg, hseg, hempty, hc⟩

theorem Inv.shrink (h : Inv s inUse) (hmem : ∀ c, c ∈ l ↔ IsChunk s k c ∧ ¬ Used inUse c) (hnodup : l.Nodup)
    (hun : Unlinked s.u l (Emptied s.u k (s.buckets k).segments) f' u' l') :
    Inv (Buckets.shrink s k f' u') inUse := by
  have hword {d : ℕ} (hd : d ∉ l) : u' d = s.u d := (hun.word d).resolve_right fun hd' => hd hd'.1
  have hkeep {c k' : ℕ} (hc : IsChunk s k' c) (hused : Used inUse c) (hk : k' = k) :
      ¬ Emptied s.u k (s.buckets k).segments c := by
    rintro ⟨seg, hseg, hempty, hcseg⟩
    exact Buckets.isEmpty_iff.mp hempty c hcseg (h.looksUsed hseg hcseg hused)
  refine ⟨h.toSegs.shrink k f' u', fun k' => ?_, fun p hp => ?_, h.ptrs⟩
  · by_cases hk : k' = k
    · subst hk
      refine ⟨l', ⟨?_, hnodup.sublist hun.sublist⟩, fun d => ?_⟩
      · rw [shrink_self]
        exact hun.chain
      · rw [hun.mem, hmem, h.toSegs.shrink_isChunk, imp_iff_right rfl, and_right_comm]
    · obtain ⟨l'', hl, hmem''⟩ := h.lists k'
      refine ⟨l'', ⟨?_, hl.2⟩, fun d => ?_⟩
      · rw [shrink_of_ne hk]
        refine hl.1.congr fun d hd => hword fun hdl => hk ?_
        exact h.chunk_unique ((hmem'' d).mp hd).1 ((hmem d).mp hdl).1
      · rw [hmem'', h.toSegs.shrink_isChunk, and_iff_left (absurd · hk)]
  · obtain ⟨hle, k', hchunk, hbucket, hroom⟩ := h.used p hp
    have hused : Used inUse (p.1 - headerSize) := by
      rw [Used, Nat.sub_add_cancel hle]
      exact mem_map_of_mem hp
    refine ⟨hle, k', h.toSegs.shrink_isChunk.mpr ⟨hchunk, hkeep hchunk hused⟩, ?_, hroom⟩
    rw [Buckets.shrink]
    dsimp only
    rw [hword fun hl => ((hmem _).mp hl).2 hused, hbucket]

/-- The buckets `ks` lose the segments without a block in use. -/
structure Cleaned (s : Mem β) (inUse : List (ℕ × ℕ)) (ks : List ℕ) (s' : Mem β) : Prop where
  inv : Inv s' inUse
  data : s'.data = s.data
  numBuckets : s'.numBuckets = s.numBuckets
  segments : ∀ k seg, seg ∈ (s'.buckets k).segments ↔
    seg ∈ (s.buckets k).segments ∧ (k ∈ ks → ∃ c ∈ seg.chunks, Used inUse c)
  words : ∀ k, k ∉ ks → ∀ c, IsChunk s k c → s'.u c = s.u c

theorem cleanBucket_eq (h : Inv s inUse) (hclean : Clean s inUse k) :
    ∃ f' u' l l', cleanBucket s k = some (shrink s k f' u') ∧ l.Nodup ∧
      (∀ c, c ∈ l ↔ IsChunk s k c ∧ ¬ Used inUse c) ∧
      Unlinked s.u l (Emptied s.u k (s.buckets k).segments) f' u' l' := by
  obtain ⟨l, ⟨hchain, hnodup⟩, hmem⟩ := h.lists k
  rw [cleanBucket]
  dsimp only
  by_cases hnil : (s.buckets k).segments = []
  · refine ⟨(s.buckets k).freeChunk, s.u, l, l, ?_, hnodup, hmem, (Unlinked.refl hchain).congr ?_⟩
    · have hbucket : Bucket.mk (s.buckets k).freeChunk [] = s.buckets k := by rw [← hnil]
      rw [if_pos hnil, shrink, hnil, filter_nil, hbucket, Function.update_eq_self]
    · simp [hnil, Emptied]
  · rw [if_neg hnil]
    by_cases hall : (s.buckets k).segments.all (isEmpty s.u k) = true
    · rw [all_eq_true] at hall
      refine ⟨0, s.u, l, [], ?_, hnodup, hmem, rfl, nil_sublist l, fun d => ?_, fun d => .inl rfl⟩
      · rw [if_pos (all_eq_true.mpr hall), shrink, filter_eq_nil_iff.mpr]
        simpa using hall
      · refine iff_of_false not_mem_nil ?_
        rintro ⟨hd, hstay⟩
        obtain ⟨seg, hseg, hdseg⟩ := ((hmem d).mp hd).1
        exact hstay ⟨seg, hseg, hall seg hseg, hdseg⟩
    · rw [if_neg hall]
      have hfuel : l.length ≤ ((s.buckets k).segments.map fun seg => seg.chunks.length).sum := by
        rw [← length_flatMap]
        refine (List.Nodup.subperm hnodup fun c hc => ?_).length_le
        obtain ⟨seg, hseg, hcseg⟩ := ((hmem c).mp hc).1
        exact mem_flatMap.mpr ⟨seg, hseg, hcseg⟩
      obtain ⟨f', u', l', hsweep, hun⟩ := sweep_eq hchain hnodup (h.sweepable hclean hmem) hfuel
      refine ⟨f', u', l, l', ?_, hnodup, hmem, hun⟩
      rw [hsweep]
      rfl

theorem cleanBucket_cleaned (h : Inv s inUse) (hclean : Clean s inUse k) :
    ∃ s', cleanBucket s k = some s' ∧ Cleaned s inUse [k] s' := by
  obtain ⟨f', u', l, l', heq, hnodup, hmem, hun⟩ := cleanBucket_eq h hclean
  refine ⟨_, heq, h.shrink hmem hnodup hun, rfl, rfl, fun k' seg => ?_, fun k' hk' c hc => ?_⟩
  · rw [mem_shrink, mem_singleton]
    refine and_congr_right fun hseg => ?_
    by_cases hk : k' = k
    · subst hk
      rw [imp_iff_right rfl, imp_iff_right rfl, ne_eq, h.isEmpty_iff hclean hseg]
      push Not
      rfl
    · exact iff_of_true (absurd · hk) (absurd · hk)
  · refine (hun.word c).resolve_right fun hcl => hk' ?_
    rw [mem_singleton]
    exact h.chunk_unique hc ((hmem c).mp hcl.1).1

theorem cleanBuckets_cleaned {ks : List ℕ} (h : Inv s inUse) (hnodup : ks.Nodup)
    (hclean : ∀ k ∈ ks, Clean s inUse k) : ∃ s', ks.foldlM cleanBucket s = some s' ∧ Cleaned s inUse ks s' := by
  induction ks generalizing s with
  | nil => exact ⟨s, rfl, h, rfl, rfl, by simp, fun _ _ _ _ => rfl⟩
  | cons k ks ih =>
    obtain ⟨hk, hnodup⟩ := nodup_cons.mp hnodup
    obtain ⟨s₁, h₁, hclean₁⟩ := cleanBucket_cleaned h (hclean k mem_cons_self)
    have hsame {k' : ℕ} (hk' : k' ∉ [k]) (seg : Seg) :
        seg ∈ (s₁.buckets k').segments ↔ seg ∈ (s.buckets k').segments := by
      rw [hclean₁.segments, and_iff_left (absurd · hk')]
    have hrest (k' : ℕ) (hk' : k' ∈ ks) : Clean s₁ inUse k' := by
      have hne : k' ∉ [k] := fun hmem => ne_of_mem_of_not_mem hk' hk (mem_singleton.mp hmem)
      intro seg hseg hunused c hc
      rw [hsame hne] at hseg
      rw [looksUsed, hclean₁.words k' hne c ⟨seg, hseg, hc⟩]
      exact hclean k' (mem_cons_of_mem _ hk') seg hseg hunused c hc
    obtain ⟨s₂, h₂, hclean₂⟩ := ih hclean₁.inv hnodup hrest
    refine ⟨s₂, ?_, hclean₂.inv, hclean₂.data.trans hclean₁.data, hclean₂.numBuckets.trans hclean₁.numBuckets,
      fun k' seg => ?_, fun k' hk' c hc => ?_⟩
    · rw [foldlM_cons, h₁]
      exact h₂
    · rw [hclean₂.segments, hclean₁.segments, mem_singleton, mem_cons, or_imp, and_assoc]
    · rw [mem_cons, not_or] at hk'
      have hne : k' ∉ [k] := fun hmem => hk'.1 (mem_singleton.mp hmem)
      have hc₁ : IsChunk s₁ k' c := by
        obtain ⟨seg, hseg, hcseg⟩ := hc
        exact ⟨seg, (hsame hne seg).mpr hseg, hcseg⟩
      rw [hclean₂.words k' hk'.2 c hc₁, hclean₁.words k' hne c hc]

theorem Inv.cleanup (h : Inv s inUse) (hclean : ∀ k, Clean s inUse k) : ∃ s', cleanup s = some s' ∧
    Inv s' inUse ∧ s'.data = s.data ∧ s'.numBuckets = s.numBuckets ∧
      ∀ k seg, seg ∈ (s'.buckets k).segments ↔
        seg ∈ (s.buckets k).segments ∧ ∃ c ∈ seg.chunks, Used inUse c := by
  obtain ⟨s', heq, hcleaned⟩ := cleanBuckets_cleaned h nodup_range fun k _ => hclean k
  refine ⟨s', heq, hcleaned.inv, hcleaned.data, hcleaned.numBuckets, fun k seg => ?_⟩
  rw [hcleaned.segments]
  refine and_congr_right fun hseg => imp_iff_right ?_
  rw [mem_range]
  exact (h.ok k seg hseg).1

end Cleanup

def room (s : Mem β) (ptr : ℕ) : ℕ := capacity (bucketOf (s.u (ptr - headerSize)))

/-- A block of at least the size asked for in one segment, apart from the others, and the chunks not in use
on the free lists. -/
structure Sound (w : World β) : Prop where
  large : ∀ p ∈ w.inUse, p.2 ≤ room w.mem p.1
  inside : ∀ p ∈ w.inUse, ∃! at_ : ℕ × Seg, at_.2 ∈ (w.mem.buckets at_.1).segments ∧
    at_.2.addr < p.1 ∧ p.1 + room w.mem p.1 ≤ at_.2.addr + at_.2.size
  apart : w.inUse.Pairwise fun p q => p.1 ≠ q.1 ∧ Apart (p.1, room w.mem p.1) (q.1, room w.mem q.1)
  lists : ∀ k, ∃ l, Chain w.mem.u (w.mem.buckets k).freeChunk l ∧ l.Nodup ∧
    ∀ c, c ∈ l ↔ (∃ seg ∈ (w.mem.buckets k).segments, c ∈ seg.chunks) ∧
      c + headerSize ∉ w.inUse.map Prod.fst

/-- What a call does to the blocks in use and to the segments. -/
def Done : World β → Call β → World β → Prop
  | w, .alloc _ _, w' => w'.mem.data = w.mem.data
  | w, .realloc ptr size _, w' => w' = w ∨ ∃ ret old, (ptr, old) ∈ w.inUse ∧
    w'.inUse = (ret, size) :: w.inUse.erase (ptr, old) ∧
    (∀ j < old, w'.mem.data (ret + j) = w.mem.data (ptr + j)) ∧
    ∀ q ∈ w.inUse.erase (ptr, old), ∀ j < q.2, w'.mem.data (q.1 + j) = w.mem.data (q.1 + j)
  | w, .free _, w' => w'.mem.data = w.mem.data
  | w, .cleanup, w' => w'.inUse = w.inUse ∧ w'.mem.data = w.mem.data ∧
    ∀ k seg, seg ∈ (w'.mem.buckets k).segments ↔ seg ∈ (w.mem.buckets k).segments ∧
      ∃ c ∈ seg.chunks, c + headerSize ∈ w.inUse.map Prod.fst
  | w, .write _ _, w' => w'.inUse = w.inUse

/-- No request is larger than the last bucket can hold, and at a cleanup no chunk of an empty segment looks
used. -/
def Careful : Option (World β) → Call β → Prop
  | some w, .alloc size _ => Holds w.mem.numBuckets size
  | some w, .realloc ptr size _ => size ≤ room w.mem ptr ∨ Holds w.mem.numBuckets size
  | some w, .cleanup => ∀ k, Clean w.mem w.inUse k
  | _, _ => True

section Runs

variable {w : World β} {s₀ s t : Option (World β)} {c : Call β} {es : List (Call β)}

theorem Inv.init (hnum : w.mem.numBuckets < 2 ^ 31) (hinUse : w.inUse = [])
    (hbuckets : ∀ k, w.mem.buckets k = ⟨0, []⟩) : Inv w.mem w.inUse := by
  have hnone (k : ℕ) (seg : Seg) : seg ∉ (w.mem.buckets k).segments := by simp [hbuckets]
  rw [hinUse]
  refine ⟨⟨hnum, fun k seg hseg => absurd hseg (hnone k seg),
    fun k _ seg hseg => absurd hseg (hnone k seg), fun k => by simp [hbuckets]⟩, fun k => ⟨[], ?_, ?_⟩, ?_, ?_⟩
  · simp [FreeList, hbuckets, Chain]
  · simp [IsChunk, hbuckets]
  · simp
  · simp

theorem Inv.sound (h : Inv w.mem w.inUse) : Sound w := by
  refine ⟨fun p hp => h.large hp, fun p hp => ?_, ?_, fun k => ?_⟩
  · obtain ⟨hle, k, ⟨seg, hseg, hc⟩, hbucket, hroom⟩ := h.used p hp
    have hin := (h.ok k seg hseg).2.inside hc
    have hin' : seg.addr < p.1 ∧ p.1 + room w.mem p.1 ≤ seg.addr + seg.size := by
      have hheader : 0 < headerSize := by decide
      rw [room, hbucket, capacity]
      omega
    refine ⟨(k, seg), ⟨hseg, hin'⟩, ?_⟩
    rintro ⟨k', seg'⟩ ⟨hseg', hin''⟩
    dsimp only at hseg' hin''
    rcases h.apart k k' seg hseg seg' hseg' with ⟨rfl, rfl⟩ | hapart
    · rfl
    · simp only [Apart] at hapart
      omega
  · refine (pairwise_map.mp h.ptrs).imp_of_mem fun {p q} hp hq hne => ⟨hne, ?_⟩
    exact h.blocks_apart hp hq hne
  · obtain ⟨l, hl, hmem⟩ := h.lists k
    exact ⟨l, hl.1, hl.2, hmem⟩

theorem Inv.step (h : Inv w.mem w.inUse) (hnum : 0 < w.mem.numBuckets) (hcare : Careful (some w) c)
    (hstep : step (some w) c t) :
    ∃ w', t = some w' ∧ 0 < w'.mem.numBuckets ∧ Inv w'.mem w'.inUse ∧ Done w c w' := by
  cases c with
  | alloc size getMem =>
    obtain ⟨hfresh, rfl⟩ := hstep
    obtain ⟨ptr, s', heq, hdata, hnum', hcase⟩ := h.alloc hnum hcare hfresh
    rw [heq]
    refine ⟨_, rfl, hnum' ▸ hnum, ?_, hdata⟩
    rcases hcase with ⟨rfl, rfl⟩ | ⟨hptr, hinv⟩
    · exact h
    · dsimp only
      rwa [if_neg hptr]
  | realloc ptr size getMem =>
    obtain ⟨hfresh, old, hold, rfl⟩ := hstep
    obtain ⟨ret, s', heq, hnum', hcase⟩ := h.realloc hnum hold hfresh hcare
    rw [heq]
    refine ⟨_, rfl, hnum' ▸ hnum, ?_⟩
    rcases hcase with ⟨rfl, rfl⟩ | ⟨hret, hinv, hmoved, hothers⟩
    · exact ⟨h, .inl rfl⟩
    · dsimp only
      rw [if_neg hret]
      exact ⟨hinv, .inr ⟨ret, old, hold, rfl, hmoved, hothers⟩⟩
  | free ptr =>
    obtain ⟨old, hold, rfl⟩ := hstep
    obtain ⟨s', heq, hinv, hdata, hnum', -⟩ := h.release hold
    dsimp only at heq
    rw [heq]
    exact ⟨_, rfl, hnum' ▸ hnum, hinv, hdata⟩
  | cleanup =>
    obtain rfl : t = _ := hstep
    obtain ⟨s', heq, hinv, hdata, hnum', hsegs⟩ := h.cleanup hcare
    rw [heq]
    exact ⟨_, rfl, hnum' ▸ hnum, hinv, rfl, hdata, hsegs⟩
  | write addr byte =>
    obtain ⟨-, rfl⟩ := hstep
    exact ⟨_, rfl, hnum, h.withData _, rfl⟩

theorem inv_of_run (hinit : (calls β).init s₀) (hrun : ((calls β).restrict Careful).Run s₀ es s) :
    ∃ w, s = some w ∧ 0 < w.mem.numBuckets ∧ Inv w.mem w.inUse := by
  refine hrun.invariant (P := fun s => ∃ w, s = some w ∧ 0 < w.mem.numBuckets ∧ Inv w.mem w.inUse) ?_ ?_
  · rintro _ c t ⟨w, rfl, hnum, hinv⟩ ⟨hcare, hstep⟩
    obtain ⟨w', rfl, hnum', hinv', -⟩ := hinv.step hnum hcare hstep
    exact ⟨w', rfl, hnum', hinv'⟩
  · obtain ⟨w, rfl, hinUse, hpos, hnum, hbuckets⟩ := hinit
    exact ⟨w, rfl, hpos, .init hnum hinUse hbuckets⟩

/-- After careful calls the blocks in use are sound, and the next one does what it should. -/
theorem bucket_sound (hinit : (calls β).init s₀) (hrun : ((calls β).restrict Careful).Run s₀ es s) :
    ∃ w, s = some w ∧ Sound w ∧
      ∀ c t, Careful s c → (calls β).step s c t → ∃ w', t = some w' ∧ Done w c w' := by
  obtain ⟨w, rfl, hnum, hinv⟩ := inv_of_run hinit hrun
  refine ⟨w, rfl, hinv.sound, fun c t hcare hstep => ?_⟩
  obtain ⟨w', rfl, -, -, hdone⟩ := hinv.step hnum hcare hstep
  exact ⟨w', rfl, hdone⟩

end Runs

def sixteen : World ℕ := ⟨⟨16, fun _ => ⟨0, []⟩, fun _ => 0, fun _ => 0⟩, []⟩

theorem sixteen_init : (calls ℕ).init (some sixteen) :=
  ⟨sixteen, rfl, rfl, by decide, by decide, fun _ => rfl⟩

theorem fresh_sixteen {size got : ℕ} (addr k : ℕ) (hfind : findBucket (size + headerSize) 64 0 8 = some (k, 2 ^ (k + 3)))
    (haddr : 0 < addr ∧ addr + got ≤ word) (hsize : size + headerSize < word) (hgot : 2 ^ (k + 3) + headerSize ≤ got) :
    FreshMem sixteen.mem size (some (addr, got)) := by
  rintro _ _ ⟨⟩
  refine ⟨haddr.1, haddr.2, fun k' z hfind' => ?_, fun _ _ hseg => absurd hseg not_mem_nil⟩
  rw [Nat.mod_eq_of_lt hsize, hfind] at hfind'
  cases hfind'
  exact hgot

/-- A block of 100 bytes, from 400 bytes of memory. -/
theorem bucket_sound_sixteen : ∃ s, (calls ℕ).step (some sixteen) (.alloc 100 (some (4096, 400))) s ∧
    ∃ w, s = some w ∧ Sound w ∧
      ∀ c t, Careful s c → (calls ℕ).step s c t → ∃ w', t = some w' ∧ Done w c w' := by
  have hfresh : FreshMem sixteen.mem 100 (some (4096, 400)) :=
    fresh_sixteen 4096 4 (by decide) (by decide) (by decide) (by decide)
  have hstep : (calls ℕ).step (some sixteen) (.alloc 100 (some (4096, 400))) _ := ⟨hfresh, rfl⟩
  have hcare : Careful (some sixteen) (.alloc 100 (some (4096, 400))) := ⟨by decide, by decide⟩
  exact ⟨_, hstep, bucket_sound sixteen_init (.single ⟨hcare, hstep⟩)⟩

/-- Three chunks of bucket 8, of which the last one is at an address with 8 as its lower half. -/
def base : ℕ := 2 ^ 32 + 8 - 2 * 2048 - 16

def taken : World ℕ :=
  ⟨(takeChunk sixteen.mem 8 2048 (some (base, 3 * 2048 + 16))).2, [(base + 32, 2000)]⟩

def given : World ℕ := ⟨relist taken.mem 8 (base + 16) (base + 16) (base + 16 + 2048), []⟩

theorem given_run : (calls ℕ).Run (some sixteen) [.alloc 2000 (some (base, 3 * 2048 + 16)), .free (base + 32)]
    (some given) := by
  have hfresh : FreshMem sixteen.mem 2000 (some (base, 3 * 2048 + 16)) :=
    fresh_sixteen base 8 (by decide) (by decide) (by decide) (by decide)
  have halloc : (calls ℕ).step (some sixteen) (.alloc 2000 (some (base, 3 * 2048 + 16))) (some taken) :=
    ⟨hfresh, rfl⟩
  have hfree : (calls ℕ).step (some taken) (.free (base + 32)) (some given) :=
    ⟨2000, mem_cons_self, rfl⟩
  exact (Lib.System.Run.single halloc).snoc hfree

/-- The segment stays, without a block in use. -/
theorem bucket_leaked : ¬ ∀ s₀ es s, (calls ℕ).init s₀ → (calls ℕ).Run s₀ es s →
    ∃ w, s = some w ∧ Sound w ∧ ∀ c t, (calls ℕ).step s c t → ∃ w', t = some w' ∧ Done w c w' := by
  intro h
  obtain ⟨w, hw, -, hnext⟩ := h _ _ _ sixteen_init given_run
  cases hw
  obtain ⟨w', heq, -, -, hsegs⟩ := hnext .cleanup _ rfl
  have hleft : (cleanup given.mem).map (fun s => (s.buckets 8).segments.length) = some 1 := by decide
  obtain ⟨s', hs', rfl⟩ := Option.map_eq_some_iff.mp heq
  rw [hs', Option.map_some, Option.some_inj, length_eq_one_iff] at hleft
  obtain ⟨seg, hleft⟩ := hleft
  obtain ⟨-, c, -, hc⟩ := (hsegs 8 seg).mp (hleft ▸ mem_singleton_self seg)
  exact absurd hc not_mem_nil

end OpenMPI.Allocator.Buckets
