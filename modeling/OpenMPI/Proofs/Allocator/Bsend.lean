import Mathlib.Tactic.Linarith
import OpenMPI.Allocator.Bsend

/-!
# Buffered sends

Once the allocator has got its segment, the free segments and the blocks in use make up the user's
buffer (`Inv`).  The allocator asks for a segment of `(unsigned char) size` bytes and takes whatever it
gets, so a request that no free segment satisfies must be refused or fit into what is left (`Careful`).
-/

namespace OpenMPI.Allocator

open List

structure Spaced (l : List Segment) : Prop where
  pos : ∀ seg ∈ l, 0 < seg.segSize
  gap : l.Pairwise fun a b => a.segAddr + a.segSize < b.segAddr

def Free (l : List Segment) (x : ℕ) : Prop :=
  ∃ seg ∈ l, seg.segAddr ≤ x ∧ x < seg.segAddr + seg.segSize

section Lists

variable {l l' before : List Segment} {seg : Segment} {addr size x lo hi : ℕ}

@[simp] theorem free_nil : ¬ Free [] x := by simp [Free]

@[simp] theorem free_cons :
    Free (seg :: l) x ↔ seg.segAddr ≤ x ∧ x < seg.segAddr + seg.segSize ∨ Free l x := by
  simp [Free]

@[simp] theorem free_append : Free (l ++ l') x ↔ Free l x ∨ Free l' x := by
  simp only [Free, mem_append, or_and_right, exists_or]

theorem spaced_append : Spaced (l ++ l') ↔ Spaced l ∧ Spaced l' ∧
    ∀ a ∈ l, ∀ b ∈ l', a.segAddr + a.segSize < b.segAddr := by
  constructor
  · intro h
    obtain ⟨hl, hl', hgap⟩ := pairwise_append.mp h.gap
    exact ⟨⟨fun a ha => h.pos a (mem_append_left _ ha), hl⟩,
      ⟨fun a ha => h.pos a (mem_append_right _ ha), hl'⟩, hgap⟩
  · rintro ⟨hl, hl', hgap⟩
    refine ⟨fun a ha => ?_, pairwise_append.mpr ⟨hl.gap, hl'.gap, hgap⟩⟩
    rcases mem_append.mp ha with ha | ha
    · exact hl.pos a ha
    · exact hl'.pos a ha

theorem spaced_cons : Spaced (seg :: l) ↔ 0 < seg.segSize ∧ Spaced l ∧
    ∀ b ∈ l, seg.segAddr + seg.segSize < b.segAddr := by
  constructor
  · intro h
    obtain ⟨hgap, hl⟩ := pairwise_cons.mp h.gap
    exact ⟨h.pos seg mem_cons_self, ⟨fun a ha => h.pos a (mem_cons_of_mem _ ha), hl⟩, hgap⟩
  · rintro ⟨hpos, hl, hgap⟩
    exact ⟨by simpa using ⟨hpos, hl.pos⟩, pairwise_cons.mpr ⟨hgap, hl.gap⟩⟩

theorem spaced_nil : Spaced [] := ⟨nofun, .nil⟩

theorem Spaced.eq_single (h : Spaced l) (hfree : ∀ x, Free l x ↔ lo ≤ x ∧ x < hi) (hlt : lo < hi) :
    l = [⟨lo, hi - lo⟩] := by
  rcases l with _ | ⟨⟨a, z⟩, l⟩
  · exact absurd ((hfree lo).mpr ⟨le_rfl, hlt⟩) free_nil
  · obtain ⟨hpos, hl, hgap⟩ := spaced_cons.mp h
    have hnone : ∀ x ≤ a + z, ¬ Free l x := by
      rintro x hx ⟨b, hb, hbx, -⟩
      have hb' := hgap b hb
      dsimp only at hb'
      omega
    have hrange : ∀ x ≤ a + z, (a ≤ x ∧ x < a + z) ↔ lo ≤ x ∧ x < hi := by
      intro x hx
      rw [← hfree x, free_cons, or_iff_left (hnone x hx)]
    dsimp only at hpos
    have hstart := hrange a (by omega)
    have hend := hrange (a + z) le_rfl
    have hlast := hrange (a + z - 1) (by omega)
    obtain rfl : a = lo := by
      by_contra hne
      have hfirst := hrange lo (by omega)
      omega
    rcases l with _ | ⟨b, l⟩
    · have hsize : z = hi - a := by omega
      rw [hsize]
    · have hb := hgap b mem_cons_self
      have hbfree : Free (⟨a, z⟩ :: b :: l) b.segAddr := by
        have hbpos := (spaced_cons.mp hl).1
        simp only [free_cons]
        omega
      have hbhi := (hfree b.segAddr).mp hbfree
      dsimp only at hb
      omega

theorem takeFrom_spec {l₁ : List Segment} (h : takeFrom size l = some (addr, l₁)) (hsize : 0 < size)
    (hl : Spaced l) : Spaced l₁ ∧ (∀ x, addr ≤ x → x < addr + size → Free l x) ∧
      ∀ x, Free l₁ x ↔ Free l x ∧ ¬ (addr ≤ x ∧ x < addr + size) := by
  suffices hsplit : ∃ l₂ seg l₃, l = l₂ ++ seg :: l₃ ∧ seg.segAddr = addr ∧
      (size < seg.segSize ∧ l₁ = l₂ ++ ⟨addr + size, seg.segSize - size⟩ :: l₃ ∨
        seg.segSize = size ∧ l₁ = l₂ ++ l₃) by
    obtain ⟨l₂, seg, l₃, rfl, rfl, hcase⟩ := hsplit
    obtain ⟨h₂, h₃, hgap⟩ := spaced_append.mp hl
    obtain ⟨hpos, h₃, hgap'⟩ := spaced_cons.mp h₃
    have hbefore : ∀ x, seg.segAddr ≤ x → ¬ Free l₂ x := by
      rintro x hx ⟨a, ha, -, hax⟩
      have hgap := hgap a ha seg mem_cons_self
      omega
    have hafter : ∀ x, x < seg.segAddr + seg.segSize → ¬ Free l₃ x := by
      rintro x hx ⟨a, ha, hax, -⟩
      have hgap := hgap' a ha
      omega
    rcases hcase with ⟨hlt, rfl⟩ | ⟨rfl, rfl⟩
    · refine ⟨?_, fun x hx hx' => ?_, fun x => ?_⟩
      · refine spaced_append.mpr ⟨h₂, spaced_cons.mpr ⟨by dsimp only; omega, h₃, fun b hb => ?_⟩,
          fun a ha b hb => ?_⟩
        · have hb := hgap' b hb
          dsimp only
          omega
        · rcases mem_cons.mp hb with rfl | hb
          · have ha := hgap a ha seg mem_cons_self
            dsimp only
            omega
          · exact hgap a ha b (mem_cons_of_mem _ hb)
      · simp only [free_append, free_cons]
        omega
      · have hb := hbefore x
        have ha := hafter x
        simp only [free_append, free_cons]
        by_cases hx : seg.segAddr ≤ x ∧ x < seg.segAddr + seg.segSize
        · have hb := hb hx.1
          have ha := ha hx.2
          simp only [hb, ha, false_or, or_false]
          omega
        · have hnot : ¬ (seg.segAddr + size ≤ x ∧ x < seg.segAddr + size + (seg.segSize - size)) := by omega
          have hnot' : ¬ (seg.segAddr ≤ x ∧ x < seg.segAddr + size) := by omega
          simp only [hx, hnot, hnot', not_false_eq_true, and_true]
    · refine ⟨?_, fun x hx hx' => ?_, fun x => ?_⟩
      · exact spaced_append.mpr ⟨h₂, h₃, fun a ha b hb => hgap a ha b (mem_cons_of_mem _ hb)⟩
      · simp only [free_append, free_cons]
        omega
      · have hb := hbefore x
        have ha := hafter x
        simp only [free_append, free_cons]
        by_cases hx : seg.segAddr ≤ x ∧ x < seg.segAddr + seg.segSize
        · simp [hb hx.1, ha hx.2, hx]
        · simp only [hx, not_false_eq_true, and_true, false_or]
  induction l generalizing l₁ with
  | nil => cases h
  | cons seg l ih =>
    rw [takeFrom] at h
    split_ifs at h with hlt heq
    · cases h
      exact ⟨[], seg, l, rfl, rfl, .inl ⟨hlt, rfl⟩⟩
    · cases h
      exact ⟨[], seg, l, rfl, rfl, .inr ⟨heq, rfl⟩⟩
    · obtain ⟨⟨a, l'⟩, htake, hcons⟩ := Option.map_eq_some_iff.mp h
      obtain ⟨rfl, rfl⟩ := Prod.mk.inj hcons
      obtain ⟨l₂, s, l₃, rfl, ha, hcase⟩ := ih htake (spaced_cons.mp hl).2.1
      refine ⟨seg :: l₂, s, l₃, rfl, ha, ?_⟩
      rcases hcase with ⟨hlt, rfl⟩ | ⟨heq, rfl⟩
      · exact .inl ⟨hlt, rfl⟩
      · exact .inr ⟨heq, rfl⟩

theorem combineNext_spec (hpos : 0 < seg.segSize) (hl : Spaced l)
    (hle : ∀ b ∈ l, seg.segAddr + seg.segSize ≤ b.segAddr) : Spaced (combineNext seg l) ∧
      (∀ b ∈ combineNext seg l, seg.segAddr ≤ b.segAddr) ∧
      ∀ x, Free (combineNext seg l) x ↔ Free (seg :: l) x := by
  rcases l with _ | ⟨next, l⟩
  · exact ⟨spaced_cons.mpr ⟨hpos, hl, nofun⟩, by simp [combineNext], fun x => Iff.rfl⟩
  · obtain ⟨hposN, hl', hgap⟩ := spaced_cons.mp hl
    rw [combineNext]
    split_ifs with heq
    · refine ⟨spaced_cons.mpr ⟨by dsimp only; omega, hl', fun b hb => ?_⟩, fun b hb => ?_, fun x => ?_⟩
      · have hb := hgap b hb
        dsimp only
        omega
      · rcases mem_cons.mp hb with rfl | hb
        · exact le_rfl
        · have hb := hgap b hb
          omega
      · simp only [free_cons, ← or_assoc]
        refine or_congr_left ?_
        omega
    · refine ⟨spaced_cons.mpr ⟨hpos, hl, fun b hb => ?_⟩, fun b hb => ?_, fun x => Iff.rfl⟩
      · have hnext := hle next mem_cons_self
        rcases mem_cons.mp hb with rfl | hb
        · omega
        · have hb := hgap b hb
          omega
      · rcases mem_cons.mp hb with rfl | hb
        · exact le_rfl
        · have hb := hle b hb
          omega

theorem combinePrev_eq (hbefore : ∀ b ∈ before, b.segAddr + b.segSize < seg.segAddr) :
    combinePrev before seg l = before ++ seg :: l := by
  unfold combinePrev
  rcases hlast : before.getLast? with _ | prev
  · rw [getLast?_eq_none_iff.mp hlast]
    rfl
  · have hprev := hbefore prev (mem_of_getLast? hlast)
    exact if_neg (by omega)

theorem putBack_spec (hsize : 0 < size) (hl : Spaced (before ++ l))
    (hbefore : ∀ b ∈ before, b.segAddr + b.segSize < addr)
    (hnew : ∀ x, addr ≤ x → x < addr + size → ¬ Free l x) : Spaced (putBack addr size before l) ∧
      ∀ x, Free (putBack addr size before l) x ↔ Free (before ++ l) x ∨ addr ≤ x ∧ x < addr + size := by
  induction l generalizing before with
  | nil =>
    rw [append_nil] at hl ⊢
    refine ⟨spaced_append.mpr ⟨hl, spaced_cons.mpr ⟨hsize, spaced_nil, nofun⟩, fun a ha b hb => ?_⟩,
      fun x => by simp [putBack]⟩
    obtain rfl := mem_singleton.mp hb
    exact hbefore a ha
  | cons seg l ih =>
    obtain ⟨hb, hsl, hgap⟩ := spaced_append.mp hl
    obtain ⟨hpos, hl', hgap'⟩ := spaced_cons.mp hsl
    -- the segment is wholly before the block or wholly behind it
    have hside : seg.segAddr + seg.segSize ≤ addr ∨ addr + size ≤ seg.segAddr := by
      have hmem := hnew (max addr seg.segAddr) (le_max_left _ _)
      simp only [free_cons] at hmem
      omega
    rw [putBack]
    split_ifs with hlt heq heq
    · have hle : ∀ b ∈ l, (⟨seg.segAddr, seg.segSize + size⟩ : Segment).segAddr + (seg.segSize + size) ≤
          b.segAddr := by
        intro b hb
        have hgap := hgap' b hb
        have hposB := hl'.pos b hb
        have hmem := hnew b.segAddr (by omega)
        by_contra hlt
        refine hmem (by dsimp only at hlt; omega) ?_
        rw [free_cons]
        exact .inr ⟨b, hb, le_rfl, by omega⟩
      obtain ⟨hspaced, hstart, hfree⟩ := combineNext_spec (by dsimp only; omega) hl' hle
      refine ⟨spaced_append.mpr ⟨hb, hspaced, fun a ha b hb => ?_⟩, fun x => ?_⟩
      · have hab := hgap a ha seg mem_cons_self
        have hsb := hstart b hb
        dsimp only at hsb
        omega
      · have hx : (seg.segAddr ≤ x ∧ x < seg.segAddr + (seg.segSize + size)) ↔
            (seg.segAddr ≤ x ∧ x < seg.segAddr + seg.segSize) ∨ addr ≤ x ∧ x < addr + size := by omega
        simp only [free_append, free_cons, hfree, hx, or_assoc, or_comm]
    · have hseg : seg.segAddr + seg.segSize < addr := by omega
      have hnext := ih (by rwa [append_assoc, singleton_append] : Spaced ((before ++ [seg]) ++ l))
        (fun b hb => ?_) (fun x hx hx' hfree => hnew x hx hx' (free_cons.mpr (.inr hfree)))
      · rwa [append_assoc, singleton_append] at hnext
      · rcases mem_append.mp hb with hb | hb
        · exact hbefore b hb
        · exact mem_singleton.mp hb ▸ hseg
    · rw [combinePrev_eq hbefore]
      refine ⟨spaced_append.mpr ⟨hb, spaced_cons.mpr ⟨by dsimp only; omega, hl', fun b hb => ?_⟩,
        fun a ha b hb => ?_⟩, fun x => ?_⟩
      · have hb := hgap' b hb
        dsimp only
        omega
      · rcases mem_cons.mp hb with rfl | hb
        · exact hbefore a ha
        · exact hgap a ha b (mem_cons_of_mem _ hb)
      · have hx : (addr ≤ x ∧ x < addr + (seg.segSize + size)) ↔
            (seg.segAddr ≤ x ∧ x < seg.segAddr + seg.segSize) ∨ addr ≤ x ∧ x < addr + size := by omega
        simp only [free_append, free_cons, hx, or_assoc, or_comm]
    · have hbehind : addr + size < seg.segAddr := by omega
      refine ⟨spaced_append.mpr ⟨hb, spaced_cons.mpr ⟨hsize, hsl, fun b hb => ?_⟩, fun a ha b hb => ?_⟩,
        fun x => ?_⟩
      · rcases mem_cons.mp hb with rfl | hb
        · exact hbehind
        · have hb := hgap' b hb
          dsimp only
          omega
      · rcases mem_cons.mp hb with rfl | hb
        · exact hbefore a ha
        · exact hgap a ha b hb
      · simp only [free_append, free_cons, or_assoc, or_comm]

end Lists

def block (b : Bsend) (u : ℕ × ℕ) : ℕ × ℕ := (u.1 - 8, b.header (u.1 - 8))

def Apart (u v : ℕ × ℕ) : Prop := u.1 + u.2 ≤ v.1 ∨ v.1 + v.2 ≤ u.1

/-- The whole of `[lo, hi)` has been handed to the allocator. -/
structure Inv (lo hi : ℕ) (b : Bsend) (inUse : List (ℕ × ℕ)) : Prop where
  spaced : Spaced b.segList
  free : ∀ x, Free b.segList x ↔ (lo ≤ x ∧ x < hi) ∧
    ∀ u ∈ inUse, ¬ ((block b u).1 ≤ x ∧ x < (block b u).1 + (block b u).2)
  inside : ∀ u ∈ inUse, lo + 8 ≤ u.1 ∧ (block b u).1 + (block b u).2 ≤ hi
  large : ∀ u ∈ inUse, u.2 + 8 ≤ (block b u).2
  apart : (inUse.map (block b)).Pairwise Apart
  addr : b.addr = hi

section Steps

variable {lo hi addr size ptr : ℕ} {b : Bsend} {inUse : List (ℕ × ℕ)}

theorem Inv.grant (h : Inv lo hi b inUse) {z : ℕ} {b' : Bsend} (haddr : b'.addr = b.addr)
    (hheader : b'.header = Function.update b.header addr z) (hsize : size + 8 ≤ z)
    (hspaced : Spaced b'.segList) (hin : ∀ x, addr ≤ x → x < addr + z → Free b.segList x)
    (hfree : ∀ x, Free b'.segList x ↔ Free b.segList x ∧ ¬ (addr ≤ x ∧ x < addr + z)) :
    Inv lo hi b' ((addr + 8, size) :: inUse) := by
  have hnew : block b' (addr + 8, size) = (addr, z) := by simp [block, hheader]
  have hapart : ∀ u ∈ inUse, Apart (addr, z) (block b u) := by
    intro u hu
    have hlarge := h.large u hu
    have hnot : ∀ x, addr ≤ x → x < addr + z →
        ¬ ((block b u).1 ≤ x ∧ x < (block b u).1 + (block b u).2) :=
      fun x hx hx' => ((h.free x).mp (hin x hx hx')).2 u hu
    have hmax := hnot (max addr (block b u).1) (le_max_left _ _)
    simp only [Apart]
    omega
  have hsame : ∀ u ∈ inUse, block b' u = block b u := by
    intro u hu
    have hne : u.1 - 8 ≠ addr := by
      have hu' := hapart u hu
      have hlarge := h.large u hu
      simp only [Apart, block] at hu' hlarge
      omega
    rw [block, hheader, Function.update_of_ne hne, block]
  have hrange : lo ≤ addr ∧ addr + z ≤ hi := by
    have hfirst := (h.free addr).mp (hin addr le_rfl (by omega))
    have hlast := (h.free (addr + z - 1)).mp (hin _ (by omega) (by omega))
    omega
  refine ⟨hspaced, fun x => ?_, fun u hu => ?_, fun u hu => ?_, ?_, haddr.trans h.addr⟩
  · rw [hfree, h.free, forall_mem_cons, hnew, and_assoc]
    refine and_congr_right fun _ => ?_
    rw [and_comm]
    refine and_congr_right fun _ => ?_
    exact ⟨fun hall u hu => hsame u hu ▸ hall u hu, fun hall u hu => hsame u hu ▸ hall u hu⟩
  · rcases mem_cons.mp hu with rfl | hu
    · rw [hnew]
      dsimp only
      omega
    · rw [hsame u hu]
      exact h.inside u hu
  · rcases mem_cons.mp hu with rfl | hu
    · rw [hnew]
      exact hsize
    · rw [hsame u hu]
      exact h.large u hu
  · rw [map_cons, pairwise_cons, hnew, map_congr_left hsame]
    refine ⟨fun v hv => ?_, h.apart⟩
    obtain ⟨u, hu, rfl⟩ := mem_map.mp hv
    exact hapart u hu

theorem Apart.symm {u v : ℕ × ℕ} (h : Apart u v) : Apart v u := Or.symm h

theorem Inv.free_block (h : Inv lo hi b inUse) {u : ℕ × ℕ} (hu : u ∈ inUse) :
    Inv lo hi (requestFree b u.1) (inUse.erase u) := by
  have hperm := perm_cons_erase hu
  have hapart := (hperm.map (block b)).pairwise_iff (R := Apart) Apart.symm |>.mp h.apart
  rw [map_cons, pairwise_cons] at hapart
  obtain ⟨hothers, hrest⟩ := hapart
  have hmem {v : ℕ × ℕ} (hv : v ∈ inUse.erase u) : v ∈ inUse := mem_of_mem_erase hv
  have hlarge := h.large u hu
  have hinside := h.inside u hu
  have hpos : 0 < (block b u).2 := by omega
  have hspaced₀ : Spaced ([] ++ b.segList) := h.spaced
  obtain ⟨hspaced, hfree⟩ := putBack_spec hpos hspaced₀ nofun
    fun x (hx : (block b u).1 ≤ x) hx' hfree => ((h.free x).mp hfree).2 u hu ⟨hx, hx'⟩
  refine ⟨hspaced, fun x => (hfree x).trans ?_, fun v hv => h.inside v (hmem hv),
    fun v hv => h.large v (hmem hv), hrest, h.addr⟩
  rw [nil_append, h.free]
  constructor
  · rintro (⟨hx, hall⟩ | hx)
    · exact ⟨hx, fun v hv => hall v (hmem hv)⟩
    · refine ⟨by simp only [block] at hx hinside; omega, fun v hv hxv => ?_⟩
      have hne := hothers _ (mem_map_of_mem hv)
      change (block b v).1 ≤ x ∧ x < (block b v).1 + (block b v).2 at hxv
      simp only [Apart] at hne
      omega
  · rintro ⟨hx, hall⟩
    by_cases hxu : (block b u).1 ≤ x ∧ x < (block b u).1 + (block b u).2
    · exact .inr hxu
    · refine .inl ⟨hx, fun v hv => ?_⟩
      rcases mem_cons.mp (hperm.mem_iff.mp hv) with rfl | hv
      · exact hxu
      · exact hall v hv

end Steps

theorem normalize_eq {n : ℕ} (h : n + 16 < word) : normalize n = n + 16 - n % 8 := by
  unfold normalize
  unfold word at h ⊢
  simp only [Nat.reducePow] at h ⊢
  omega

theorem requestAlloc_cases (b : Bsend) (n : ℕ) : requestAlloc b n = (none, b) ∨
    (∃ addr segList, takeFrom (normalize n) b.segList = some (addr, segList) ∧
      requestAlloc b n = (some (addr + 8), { b with
        count := b.count + 1, segList := segList
        header := Function.update b.header addr (normalize n) })) ∨
    b.addr ≠ 0 ∧ takeFrom (normalize n) b.segList = none ∧ ∃ addr allocated b',
      allocSegment b (normalize n % 2 ^ 8) = some (addr, allocated, b') ∧
      requestAlloc b n = (some (addr + 8), { b' with
        count := b'.count + 1
        segList := if normalize n < allocated then
          b'.segList ++ [⟨addr + normalize n, allocated - normalize n⟩] else b'.segList
        header := Function.update b'.header addr (normalize n) }) := by
  unfold requestAlloc
  by_cases haddr : b.addr = 0
  · exact .inl (if_pos haddr)
  · simp only [if_neg haddr, basicAlloc]
    rcases htake : takeFrom (normalize n) b.segList with _ | ⟨addr, segList⟩
    · rcases hseg : allocSegment b (normalize n % 2 ^ 8) with _ | ⟨addr, allocated, b'⟩
      · exact .inl rfl
      · exact .inr (.inr ⟨haddr, rfl, addr, allocated, b', rfl, rfl⟩)
    · exact .inr (.inl ⟨addr, segList, rfl, rfl⟩)

theorem requestAlloc_none {b : Bsend} {n : ℕ} (h : (requestAlloc b n).1 = none) :
    requestAlloc b n = (none, b) := by
  rcases requestAlloc_cases b n with heq | ⟨_, _, -, heq⟩ | ⟨-, -, _, _, _, -, heq⟩
  · exact heq
  · rw [heq] at h
    cases h
  · rw [heq] at h
    cases h

/-- A request that no free segment satisfies is refused, or fits into what is left of the buffer. -/
def Careful (addr size : ℕ) (s : Sends) : Call → Prop
  | .alloc n => n + 16 < word ∧ ((takeFrom (normalize n) s.bsend.segList).isSome ∨ s.bsend.addr = 0 ∨
      allocSegment s.bsend (normalize n % 2 ^ 8) = none ∨ s.bsend.addr + normalize n ≤ addr + size)
  | .free _ => True

section Requests

variable {addr size n : ℕ} {header : ℕ → ℕ} {b b₀ : Bsend} {inUse : List (ℕ × ℕ)}

def align (addr : ℕ) : ℕ := addr + (8 - addr % 8)

theorem attach_eq (h : attach addr (size : ℤ) header = some b₀) : addr ≠ 0 ∧ b₀ =
    ⟨align addr % word, align addr % word, ((size - (8 - addr % 8 : ℕ) : ℤ) % word).toNat, 0, [], header⟩ := by
  unfold attach at h
  split_ifs at h with hbad
  exact ⟨fun h0 => hbad (.inl h0), (Option.some.inj h).symm⟩

theorem attach_alloc (h : attach addr (size : ℤ) header = some b₀) (hend : addr + size < word)
    (hcare : Careful addr size ⟨b₀, []⟩ (.alloc n)) {ptr : ℕ} (hptr : (requestAlloc b₀ n).1 = some ptr) :
    align addr + normalize n ≤ addr + size ∧
      Inv (align addr) (addr + size) (requestAlloc b₀ n).2 [(ptr, n)] := by
  obtain ⟨-, rfl⟩ := attach_eq h
  obtain ⟨hn, hcare⟩ := hcare
  have hnorm := normalize_eq hn
  rcases requestAlloc_cases _ n with heq | ⟨_, _, htake, -⟩ | ⟨hne, -, a, allocated, b', hseg, heq⟩
  · rw [heq] at hptr
    cases hptr
  · cases htake
  · have hfit := ((hcare.resolve_left nofun).resolve_left hne).resolve_left (by rw [hseg]; nofun)
    dsimp only at hne hfit
    have hbase : align addr % word = align addr := by
      refine Nat.mod_eq_of_lt (lt_of_le_of_ne ?_ fun heq => hne (by rw [heq, Nat.mod_self]))
      unfold align
      unfold word at hend ⊢
      omega
    rw [hbase] at hseg hfit
    have hbuffer : ((size - (8 - addr % 8 : ℕ) : ℤ) % word).toNat = addr + size - align addr := by
      have hle : 8 - addr % 8 ≤ size := by
        unfold align at hfit
        omega
      rw [← Nat.cast_sub hle, ← Int.natCast_mod, Int.toNat_natCast, Nat.mod_eq_of_lt (by omega)]
      unfold align
      omega
    rw [hbuffer] at hseg
    have hlast : align addr + (addr + size - align addr) = addr + size := by omega
    have hleft : (((addr + size - align addr : ℕ) - ((align addr : ℕ) - (align addr : ℕ)) : ℤ) % word).toNat =
        addr + size - align addr := by
      rw [sub_self, sub_zero, ← Int.natCast_mod, Int.toNat_natCast, Nat.mod_eq_of_lt (by omega)]
    rw [allocSegment, hleft, hlast, Nat.mod_eq_of_lt hend] at hseg
    split_ifs at hseg
    obtain ⟨rfl, rfl, rfl⟩ : align addr = a ∧ addr + size - align addr = allocated ∧ _ = b' := by
      simpa using hseg
    rw [heq] at hptr ⊢
    cases hptr
    refine ⟨hfit, ?_⟩
    -- the state where the list has the whole segment
    have hwhole : Inv (align addr) (addr + size) ⟨align addr, addr + size, addr + size - align addr, 0,
        [⟨align addr, addr + size - align addr⟩], header⟩ [] := by
      refine ⟨spaced_cons.mpr ⟨by dsimp only; omega, spaced_nil, nofun⟩, fun x => ?_, nofun, nofun, .nil, rfl⟩
      simp only [free_cons, free_nil, or_false, not_mem_nil, false_imp_iff, implies_true, and_true, hlast]
    refine hwhole.grant ?_ rfl (by omega) ?_ (fun x hx hx' => ?_) fun x => ?_
    · dsimp only
      rw [hlast, Nat.mod_eq_of_lt hend]
    · dsimp only
      split_ifs with hlt
      · exact spaced_cons.mpr ⟨by dsimp only; omega, spaced_nil, nofun⟩
      · exact spaced_nil
    · simp only [free_cons, free_nil, or_false]
      omega
    · dsimp only
      split_ifs with hlt
      · simp only [nil_append, free_cons, free_nil, or_false]
        omega
      · refine iff_of_false free_nil ?_
        simp only [free_cons, free_nil, or_false]
        omega

theorem Inv.alloc {lo hi : ℕ} (h : Inv lo hi b inUse) (hn : n + 16 < word)
    (hcare : (takeFrom (normalize n) b.segList).isSome ∨ allocSegment b (normalize n % 2 ^ 8) = none)
    {ptr : ℕ} (hptr : (requestAlloc b n).1 = some ptr) :
    Inv lo hi (requestAlloc b n).2 ((ptr, n) :: inUse) := by
  have hnorm := normalize_eq hn
  rcases requestAlloc_cases b n with heq | ⟨a, segList, htake, heq⟩ | ⟨-, htake, a, _, _, hseg, heq⟩
  · rw [heq] at hptr
    cases hptr
  · rw [heq] at hptr ⊢
    cases hptr
    obtain ⟨hspaced, hin, hfree⟩ := takeFrom_spec htake (by omega) h.spaced
    exact h.grant rfl rfl (by omega) hspaced hin hfree
  · rw [htake, hseg] at hcare
    rcases hcare with hcare | hcare
    · cases hcare
    · cases hcare

end Requests

/-- The blocks in use, with their headers, lie in the buffer, are large enough and are disjoint. -/
structure Sound (addr size : ℕ) (s : Sends) : Prop where
  inside : ∀ u ∈ s.inUse, addr ≤ (block s.bsend u).1 ∧ (block s.bsend u).1 + 8 = u.1 ∧
    (block s.bsend u).1 + (block s.bsend u).2 ≤ addr + size
  large : ∀ u ∈ s.inUse, u.2 + 8 ≤ (block s.bsend u).2
  disjoint : (s.inUse.map (block s.bsend)).Pairwise Apart

section Runs

variable {addr size : ℕ} {header : ℕ → ℕ} {s₀ s : Sends} {calls : List Call}

theorem inv_of_run (hend : addr + size < word) (hinit : (sends addr size header).init s₀)
    (hrun : ((sends addr size header).restrict (Careful addr size)).Run s₀ calls s) :
    s = s₀ ∨ Inv (align addr) (addr + size) s.bsend s.inUse := by
  refine hrun.invariant (P := fun s => s = s₀ ∨ Inv (align addr) (addr + size) s.bsend s.inUse)
    (fun s c t hs hstep => ?_) (.inl rfl)
  obtain ⟨hcare, hstep⟩ := hstep
  rcases c with n | ptr
  · obtain rfl : t = grant s n := hstep
    rcases hptr : (requestAlloc s.bsend n).1 with _ | ptr
    · have hgrant : grant s n = s := by
        rw [grant, requestAlloc_none hptr]
      rwa [hgrant]
    · have hgrant : grant s n = ⟨(requestAlloc s.bsend n).2, (ptr, n) :: s.inUse⟩ := by
        rw [grant]
        generalize requestAlloc s.bsend n = r at hptr ⊢
        obtain ⟨o, b⟩ := r
        obtain rfl : o = some ptr := hptr
        rfl
      rw [hgrant]
      right
      rcases hs with rfl | hinv
      · obtain ⟨hattach, hnil⟩ := hinit
        obtain ⟨b₀, inUse⟩ := s
        obtain rfl : inUse = [] := hnil
        exact (attach_alloc hattach hend hcare hptr).2
      · obtain ⟨hn, hcare⟩ := hcare
        refine hinv.alloc hn ?_ hptr
        have hnorm := normalize_eq hn
        rcases hcare with hfits | hnull | hrefused | hleft
        · exact .inl hfits
        · have hnone : requestAlloc s.bsend n = (none, s.bsend) := if_pos hnull
          rw [hnone] at hptr
          cases hptr
        · exact .inr hrefused
        · rw [hinv.addr] at hleft
          omega
  · obtain ⟨n, hmem, rfl⟩ := hstep
    rcases hs with rfl | hinv
    · rw [hinit.2] at hmem
      cases hmem
    · have hfree := hinv.free_block hmem
      exact .inr hfree

/-- In a run of careful requests the blocks in use are sound, a refused request changes nothing, and
when all blocks have been given back, what was granted first can be granted again. -/
theorem bsend_sound (hend : addr + size < word) (hinit : (sends addr size header).init s₀)
    (hrun : ((sends addr size header).restrict (Careful addr size)).Run s₀ calls s) :
    Sound addr size s ∧ (∀ n, (requestAlloc s.bsend n).1 = none → grant s n = s) ∧
      (s.inUse = [] → ∀ n, Careful addr size s₀ (.alloc n) →
        (requestAlloc s₀.bsend n).1 ≠ none → (requestAlloc s.bsend n).1 ≠ none) := by
  have hphase := inv_of_run hend hinit hrun
  refine ⟨?_, fun n hnone => by rw [grant, requestAlloc_none hnone], fun hnil n hcare hfirst => ?_⟩
  · rcases hphase with rfl | hinv
    · have hnone (u : ℕ × ℕ) : u ∉ s.inUse := by simp [hinit.2]
      exact ⟨fun u hu => absurd hu (hnone u), fun u hu => absurd hu (hnone u), by simp [hinit.2]⟩
    · refine ⟨fun u hu => ?_, hinv.large, hinv.apart⟩
      obtain ⟨hstart, hlast⟩ := hinv.inside u hu
      unfold align at hstart
      refine ⟨?_, ?_, hlast⟩ <;> simp only [block] <;> omega
  · rcases hphase with rfl | hinv
    · exact hfirst
    · obtain ⟨b₀, inUse⟩ := s₀
      obtain ⟨hattach, hnil₀⟩ := hinit
      obtain rfl : inUse = [] := hnil₀
      obtain ⟨ptr, hptr⟩ := Option.ne_none_iff_exists'.mp hfirst
      obtain ⟨hfit, -⟩ := attach_alloc hattach hend hcare hptr
      obtain ⟨hn, -⟩ := hcare
      have hnorm := normalize_eq hn
      have hfree : ∀ x, Free s.bsend.segList x ↔ align addr ≤ x ∧ x < addr + size := by
        intro x
        rw [hinv.free, hnil]
        simp
      have hsingle := hinv.spaced.eq_single hfree (by omega)
      obtain ⟨taken, htake⟩ : ∃ taken, takeFrom (normalize n) s.bsend.segList = some taken := by
        rw [hsingle, takeFrom]
        dsimp only
        split_ifs
        · exact ⟨_, rfl⟩
        · exact ⟨_, rfl⟩
        · omega
      have haddr : s.bsend.addr ≠ 0 := by
        have hne := (attach_eq hattach).1
        rw [hinv.addr]
        omega
      rw [requestAlloc, if_neg haddr, basicAlloc, htake]
      exact Option.some_ne_none _

end Runs

def smallBuffer : Bsend := ⟨16, 16, 56, 0, [], fun _ => 0⟩

theorem small_init : (sends 8 64 fun _ => 0).init ⟨smallBuffer, []⟩ := ⟨rfl, rfl⟩

theorem small_careful : Careful 8 64 ⟨smallBuffer, []⟩ (.alloc 24) :=
  ⟨by decide, .inr (.inr (.inr (by decide)))⟩

theorem bsend_sound_small : Sound 8 64 (grant ⟨smallBuffer, []⟩ 24) ∧
    (∀ n, (requestAlloc (grant ⟨smallBuffer, []⟩ 24).bsend n).1 = none →
      grant (grant ⟨smallBuffer, []⟩ 24) n = grant ⟨smallBuffer, []⟩ 24) ∧
    ((grant ⟨smallBuffer, []⟩ 24).inUse = [] → ∀ n, Careful 8 64 ⟨smallBuffer, []⟩ (.alloc n) →
      (requestAlloc smallBuffer n).1 ≠ none → (requestAlloc (grant ⟨smallBuffer, []⟩ 24).bsend n).1 ≠ none) :=
  bsend_sound (by decide) small_init (.single ⟨small_careful, rfl⟩)

/-- 300 bytes are granted there: they are asked for as 56 bytes. -/
theorem small_exceeded : ¬ ∀ s, (sends 8 64 fun _ => 0).Reachable s → Sound 8 64 s := by
  intro h
  have hsound := h (grant ⟨smallBuffer, []⟩ 300)
    ⟨⟨smallBuffer, []⟩, [.alloc 300], small_init, .single rfl⟩
  exact absurd (hsound.inside (24, 300) (by decide)).2.2 (by decide)

end OpenMPI.Allocator
