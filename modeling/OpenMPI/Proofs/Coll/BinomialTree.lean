import OpenMPI.Lib.Bits
import OpenMPI.Proofs.Coll.Topo

/-!
# The binomial trees

In the one tree the parent of a shifted rank lacks its highest bit, in the in-order tree its lowest
bit.  A communicator has fewer than `2 ^ 31` ranks, so no rank has more than 31 children.
-/

namespace OpenMPI.Coll

open Lib
open List hiding rotate

variable {size root rank v : ℕ}

def AddsLow (p c : ℕ) : Prop := ∃ k, 2 ^ (k + 1) ∣ p ∧ c = p + 2 ^ k

theorem AddsLow.lt {p c : ℕ} (h : AddsLow p c) : p < c := by
  obtain ⟨k, -, rfl⟩ := h
  exact Nat.lt_add_of_pos_right (Nat.two_pow_pos k)

theorem AddsLow.unique {p q c : ℕ} (hp : AddsLow p c) (hq : AddsLow q c) : p = q := by
  obtain ⟨k, hk, hck⟩ := hp
  obtain ⟨l, hl, hcl⟩ := hq
  -- with two different bits the lower one would divide `c` twice
  have hno (i j : ℕ) (r s : ℕ) (hr : 2 ^ (i + 1) ∣ r) (hs : 2 ^ (j + 1) ∣ s)
      (h : r + 2 ^ i = s + 2 ^ j) : ¬i < j := by
    intro hij
    have hj : 2 ^ (i + 1) ∣ s + 2 ^ j := by
      refine Nat.dvd_add (dvd_trans ?_ hs) ?_
      · exact pow_dvd_pow 2 (by omega)
      · exact pow_dvd_pow 2 hij
    rw [← h] at hj
    have hi := (Nat.dvd_add_right hr).mp hj
    have hle := Nat.le_of_dvd (Nat.two_pow_pos i) hi
    rw [pow_succ] at hle
    have := Nat.two_pow_pos i
    omega
  have hkl : k = l := by
    have h1 := hno k l p q hk hl (by omega)
    have h2 := hno l k q p hl hk (by omega)
    omega
  subst hkl
  omega

theorem length_le_of_bits {cs : List ℕ} (hsize : size < 2 ^ 31) (hnodup : cs.Nodup)
    (h : ∀ c ∈ cs, c < size ∧ ∃ k, c = v + 2 ^ k) : cs.length ≤ maxTreeFanout := by
  have hsub : cs ⊆ (range 31).map fun k => v + 2 ^ k := by
    intro c hc
    obtain ⟨hlt, k, rfl⟩ := h c hc
    refine mem_map.mpr ⟨k, mem_range.mpr ?_, rfl⟩
    have : 2 ^ k < 2 ^ 31 := by omega
    exact (Nat.pow_lt_pow_iff_right (by decide)).mp this
  have hle := (hnodup.subperm hsub).length_le
  rw [length_map, length_range] at hle
  exact le_trans hle (by decide)

theorem maskLoop_eq (fuel k : ℕ) (hfuel : v + 2 ≤ 2 ^ k + fuel) (hpos : fuel ≠ 0)
    (hk : k = 0 ∨ 2 ^ (k - 1) ≤ v) :
    ∃ l, maskLoop v fuel (2 ^ k) = some (2 ^ l) ∧ v < 2 ^ l ∧ (l = 0 ∨ 2 ^ (l - 1) ≤ v) := by
  induction fuel generalizing k with
  | zero => exact absurd rfl hpos
  | succ fuel ih =>
    unfold maskLoop
    split_ifs with hle
    · have hpow : 2 ^ (k + 1) = 2 ^ k + 2 ^ k := by rw [pow_succ, Nat.mul_two]
      have := Nat.two_pow_pos k
      rw [Nat.shiftLeft_eq, ← pow_add]
      exact ih (k + 1) (by omega) (by omega) (.inr (by simpa using hle))
    · exact ⟨k, rfl, by omega, hk⟩

theorem not_child_of_ge {k : ℕ} (hge : size ≤ v + 2 ^ k) (c : ℕ) :
    ¬(c < size ∧ ∃ j, k ≤ j ∧ c = v + 2 ^ j) := by
  rintro ⟨hlt, j, hj, rfl⟩
  have : 2 ^ k ≤ 2 ^ j := Nat.pow_le_pow_right (by decide) hj
  omega

theorem childsLoop_eq (hsize : size < 2 ^ 31) (hroot : root < size) (fuel k : ℕ) (next : List ℕ)
    (hfuel : size + 1 ≤ 2 ^ k + fuel) (hpos : fuel ≠ 0) (hv : v < 2 ^ k) (hnext : next.length ≤ k) :
    ∃ cs : List ℕ, childsLoop size root v fuel (2 ^ k) next = some (next ++ cs.map (rotate size root)) ∧
      cs.Pairwise (· < ·) ∧ ∀ c, c ∈ cs ↔ c < size ∧ ∃ j, k ≤ j ∧ c = v + 2 ^ j := by
  induction fuel generalizing k next with
  | zero => exact absurd rfl hpos
  | succ fuel ih =>
    unfold childsLoop
    rw [xor_of_lt hv]
    by_cases hmask : 2 ^ k < size
    · rw [if_pos hmask]
      by_cases hge : size ≤ v + 2 ^ k
      · exact ⟨[], by simp [hge], List.Pairwise.nil, fun c => iff_of_false (by simp) (not_child_of_ge hge c)⟩
      · have hk : k < 31 := (Nat.pow_lt_pow_iff_right (by decide)).mp (lt_trans hmask hsize)
        have hlength : next.length ≠ maxTreeFanout := by
          have : maxTreeFanout = 32 := rfl
          omega
        have hpow : 2 ^ (k + 1) = 2 ^ k + 2 ^ k := by rw [pow_succ, Nat.mul_two]
        have hrot : (if size ≤ v + 2 ^ k + root then v + 2 ^ k + root - size else v + 2 ^ k + root) =
            rotate size root (v + 2 ^ k) := by
          rw [rotate_eq hroot (by omega)]
          split_ifs <;> omega
        obtain ⟨cs, hloop, hsorted, hmem⟩ := ih (k + 1) (next ++ [rotate size root (v + 2 ^ k)])
          (by omega) (by omega) (by omega) (by simpa using hnext)
        refine ⟨(v + 2 ^ k) :: cs, ?_, ?_, fun c => ?_⟩
        · simp only [hge, if_false, hlength, hrot]
          rw [Nat.shiftLeft_eq, ← pow_add, hloop]
          simp
        · refine pairwise_cons.mpr ⟨fun c hc => ?_, hsorted⟩
          obtain ⟨-, j, hj, rfl⟩ := (hmem c).mp hc
          have : 2 ^ k < 2 ^ j := Nat.pow_lt_pow_right (by decide) hj
          omega
        · rw [mem_cons, hmem]
          constructor
          · rintro (rfl | ⟨hlt, j, hj, rfl⟩)
            · exact ⟨by omega, k, le_rfl, rfl⟩
            · exact ⟨hlt, j, by omega, rfl⟩
          · rintro ⟨hlt, j, hj, rfl⟩
            rcases eq_or_lt_of_le hj with rfl | hj
            · exact .inl rfl
            · exact .inr ⟨hlt, j, hj, rfl⟩
    · rw [if_neg hmask]
      exact ⟨[], by simp, List.Pairwise.nil, fun c => iff_of_false (by simp) (not_child_of_ge (by omega) c)⟩

theorem exists_bmtree (hsize : size < 2 ^ 31) (hroot : root < size) (v : ℕ) :
    ∃ (mask p : ℕ) (cs : List ℕ), maskLoop v (v + 2) 1 = some mask ∧
      (v ≠ 0 → v ^^^ (mask >>> 1) = p ∧ AddsHigh p v) ∧
      childsLoop size root v (size + 1) mask [] = some (cs.map (rotate size root)) ∧
      cs.Pairwise (· < ·) ∧ ∀ c, c ∈ cs ↔ AddsHigh v c ∧ c < size := by
  obtain ⟨l, hmask, hlt, hl⟩ := maskLoop_eq (v := v) (v + 2) 0 (by omega) (by omega) (.inl rfl)
  have hpos := Nat.two_pow_pos l
  obtain ⟨cs, hloop, hsorted, hmem⟩ :=
    childsLoop_eq hsize hroot (size + 1) l [] (by omega) (by omega) hlt (Nat.zero_le l)
  refine ⟨2 ^ l, v ^^^ (2 ^ l >>> 1), cs, hmask, fun hv => ⟨rfl, l - 1, ?_⟩, hloop, hsorted, fun c => ?_⟩
  · obtain ⟨l, rfl⟩ : ∃ k, l = k + 1 := by
      refine Nat.exists_eq_add_one.mpr (Nat.pos_of_ne_zero ?_)
      rintro rfl
      omega
    have hle : 2 ^ l ≤ v := by simpa using hl
    have hpow : 2 ^ (l + 1) = 2 ^ l + 2 ^ l := by rw [pow_succ, Nat.mul_two]
    have hdiv : v / 2 ^ l = 1 := Nat.div_eq_of_lt_le (by omega) (by omega)
    rw [Nat.shiftRight_eq_div_pow, pow_one, pow_succ, Nat.mul_div_cancel _ (by decide), xor_two_pow,
      hdiv, if_neg (by decide), Nat.add_sub_cancel]
    omega
  · rw [hmem, and_comm]
    refine and_congr_left fun _ => ?_
    constructor
    · rintro ⟨j, hj, rfl⟩
      exact ⟨j, lt_of_lt_of_le hlt (Nat.pow_le_pow_right (by decide) hj), rfl⟩
    · rintro ⟨j, hj, rfl⟩
      refine ⟨j, ?_, rfl⟩
      rcases hl with rfl | hl
      · exact Nat.zero_le j
      · have := (Nat.pow_lt_pow_iff_right (by decide)).mp (lt_of_le_of_lt hl hj)
        omega

theorem consistent_buildBmtree (hsize : size < 2 ^ 31) (hroot : root < size) :
    Consistent size root (fun r => buildBmtree size r root) := by
  choose mask parent childs hmask hparent hchilds hsorted hmem using exists_bmtree hsize hroot
  have hspan : Spanning size 0 (fun v => if v = 0 then none else some (parent v)) childs :=
    .of_rel (fun p c h => h.lt) (fun p q c hp hq => hp.unique hq) (fun c _ hc => (hparent c hc).2)
      (fun p _ c => hmem p c) fun p _ => hsorted p
  refine consistent_of_shifted hspan hroot (fun s _ => ?_) fun r hr => ?_
  · refine length_le_of_bits hsize ((hsorted s).imp fun h => ne_of_lt h) (v := s) fun c hc => ?_
    obtain ⟨⟨k, -, hk⟩, hlt⟩ := (hmem s c).mp hc
    exact ⟨hlt, k, hk⟩
  · have hbuild : buildBmtree size r root = some
        { root
          prev := (if root = r then root
            else if size ≤ (shift size root r ^^^ (mask (shift size root r) >>> 1)) + root then
              (shift size root r ^^^ (mask (shift size root r) >>> 1)) + root - size
            else (shift size root r ^^^ (mask (shift size root r) >>> 1)) + root : ℕ)
          next := (childs (shift size root r)).map (rotate size root) } := by
      unfold buildBmtree
      simp only [hmask, Option.bind_eq_bind, Option.bind_some, hchilds]
    refine ⟨_, hbuild, ?_⟩
    by_cases hzero : shift size root r = 0
    · obtain rfl := (shift_eq_zero hroot hr).mp hzero
      rw [if_pos hzero, if_pos rfl]
      exact .of_root (.inr rfl) rfl
    · have hne : root ≠ r := fun heq => hzero ((shift_eq_zero hroot hr).mpr heq.symm)
      obtain ⟨hremote, hadds⟩ := hparent _ hzero
      have hlt := shift_lt hroot hr
      have hrot := rotate_eq hroot (lt_trans hadds.lt hlt)
      rw [if_neg hzero, if_neg hne, hremote]
      refine .of_prev hroot hr hadds.lt ?_ rfl
      rw [hrot]
      split_ifs <;> first | rfl | omega

theorem inOrderBmLoop_eq (root : ℕ) (hsize : size < 2 ^ 31) (hv : v < size) (fuel k : ℕ) (prev : ℤ)
    (next : List ℕ) (hfuel : size + 1 ≤ 2 ^ k + fuel) (hpos : fuel ≠ 0) (hdvd : 2 ^ k ∣ v)
    (hnext : next.length ≤ k) :
    ∃ (prev' : ℤ) (cs : List ℕ), inOrderBmLoop size root v fuel (2 ^ k) prev next =
        some (prev', next ++ cs.map (rotate size root)) ∧
      (if v = 0 then prev' = prev else ∃ p, AddsLow p v ∧ prev' = rotate size root p) ∧
      cs.Pairwise (· < ·) ∧
      ∀ c, c ∈ cs ↔ c < size ∧ ∃ j, k ≤ j ∧ 2 ^ (j + 1) ∣ v ∧ c = v + 2 ^ j := by
  induction fuel generalizing k next with
  | zero => exact absurd rfl hpos
  | succ fuel ih =>
    unfold inOrderBmLoop
    by_cases hmask : 2 ^ k < size
    · rw [if_pos hmask]
      have hpow : 2 ^ (k + 1) = 2 ^ k + 2 ^ k := by rw [pow_succ, Nat.mul_two]
      have htwo := Nat.two_pow_pos k
      by_cases hbit : 2 ^ (k + 1) ∣ v
      · have hk : k < 31 := (Nat.pow_lt_pow_iff_right (by decide)).mp (lt_trans hmask hsize)
        have hmax : maxTreeFanout = 32 := rfl
        have hcons {c : ℕ} : (c < size ∧ ∃ j, k ≤ j ∧ 2 ^ (j + 1) ∣ v ∧ c = v + 2 ^ j) ↔
            c < size ∧ c = v + 2 ^ k ∨
              c < size ∧ ∃ j, k + 1 ≤ j ∧ 2 ^ (j + 1) ∣ v ∧ c = v + 2 ^ j := by
          constructor
          · rintro ⟨hlt, j, hj, hj', rfl⟩
            rcases eq_or_lt_of_le hj with rfl | hj
            · exact .inl ⟨hlt, rfl⟩
            · exact .inr ⟨hlt, j, hj, hj', rfl⟩
          · rintro (⟨hlt, rfl⟩ | ⟨hlt, j, hj, hj', rfl⟩)
            · exact ⟨hlt, k, le_rfl, hbit, rfl⟩
            · exact ⟨hlt, j, by omega, hj', rfl⟩
        rw [xor_of_dvd hbit, Nat.shiftLeft_eq, ← pow_add]
        by_cases hlt : v + 2 ^ k < size
        · obtain ⟨prev', cs, hloop, hprev, hsorted, hmem⟩ :=
            ih (k + 1) (next ++ [rotate size root (v + 2 ^ k)]) (by omega) (by omega) hbit
              (by simpa using hnext)
          refine ⟨prev', (v + 2 ^ k) :: cs, ?_, hprev, ?_, fun c => ?_⟩
          · have hlength : (next ++ [rotate size root (v + 2 ^ k)]).length ≠ maxTreeFanout := by
              rw [length_append, length_singleton]
              omega
            rw [if_neg (by omega), if_pos hlt]
            exact (if_neg hlength).trans (hloop.trans (by simp))
          · refine pairwise_cons.mpr ⟨fun c hc => ?_, hsorted⟩
            obtain ⟨-, j, hj, -, rfl⟩ := (hmem c).mp hc
            have : 2 ^ k < 2 ^ j := Nat.pow_lt_pow_right (by decide) hj
            omega
          · rw [mem_cons, hmem, hcons]
            exact or_congr_left ⟨fun h => ⟨h ▸ hlt, h⟩, fun h => h.2⟩
        · obtain ⟨prev', cs, hloop, hprev, hsorted, hmem⟩ :=
            ih (k + 1) next (by omega) (by omega) hbit (by omega)
          refine ⟨prev', cs, ?_, hprev, hsorted, fun c => ?_⟩
          · rw [if_neg (by omega), if_neg hlt]
            exact hloop
          · rw [hmem, hcons, or_iff_right]
            rintro ⟨hc, rfl⟩
            exact hlt hc
      · obtain ⟨hxor, hle, hdvd'⟩ := xor_of_not_dvd hdvd hbit
        rw [hxor, if_pos (by omega)]
        refine ⟨_, [], by simp; rfl, ?_, List.Pairwise.nil, fun c => iff_of_false nofun ?_⟩
        · rw [if_neg (by omega)]
          exact ⟨v - 2 ^ k, ⟨k, hdvd', by omega⟩, rfl⟩
        · rintro ⟨-, j, hj, hj', -⟩
          exact hbit ((pow_dvd_pow 2 (by omega)).trans hj')
    · rw [if_neg hmask]
      have hzero : v = 0 := Nat.eq_zero_of_dvd_of_lt hdvd (by omega)
      refine ⟨prev, [], by simp, by rw [if_pos hzero], List.Pairwise.nil, fun c => iff_of_false nofun ?_⟩
      rintro ⟨hlt, j, hj, -, rfl⟩
      have : 2 ^ k ≤ 2 ^ j := Nat.pow_le_pow_right (by decide) hj
      omega

theorem consistent_buildInOrderBmtree (hsize : size < 2 ^ 31) (hroot : root < size) :
    Consistent size root (fun r => buildInOrderBmtree size r root) := by
  have hex (v : ℕ) (hv : v < size) := inOrderBmLoop_eq root hsize hv (size + 1) 0
    (if v = 0 then root else -1) [] (by simp) (by omega) (one_dvd v) (Nat.le_refl 0)
  choose! prev childs hloop hprev hsorted hmem using hex
  have hparent (v : ℕ) (hv : v < size) (hne : v ≠ 0) := by
    have h := hprev v hv
    rw [if_neg hne] at h
    exact h
  choose! parent hadds hprev' using hparent
  have hmem' (v : ℕ) (hv : v < size) (c : ℕ) : c ∈ childs v ↔ AddsLow v c ∧ c < size := by
    rw [hmem v hv, and_comm]
    refine and_congr_left fun _ => ?_
    exact ⟨fun ⟨j, _, hj, hc⟩ => ⟨j, hj, hc⟩, fun ⟨j, hj, hc⟩ => ⟨j, Nat.zero_le j, hj, hc⟩⟩
  have hspan : Spanning size 0 (fun v => if v = 0 then none else some (parent v)) childs :=
    .of_rel (fun p c h => h.lt) (fun p q c hp hq => hp.unique hq) hadds hmem' hsorted
  refine consistent_of_shifted hspan hroot (fun s hs => ?_) fun r hr => ?_
  · refine length_le_of_bits hsize ((hsorted s hs).imp fun h => ne_of_lt h) (v := s) fun c hc => ?_
    obtain ⟨⟨k, -, hk⟩, hlt⟩ := (hmem' s hs c).mp hc
    exact ⟨hlt, k, hk⟩
  · have hlt := shift_lt hroot hr
    have hbuild : buildInOrderBmtree size r root = some
        { root
          prev := prev (shift size root r)
          next := (childs (shift size root r)).map (rotate size root) } := by
      have hl := hloop _ hlt
      have hif : (if root = r then (root : ℤ) else -1) = if shift size root r = 0 then (root : ℤ) else -1 := by
        simp only [shift_eq_zero hroot hr, eq_comm]
      unfold buildInOrderBmtree
      rw [show (r + size - root) % size = shift size root r from (shift_eq_unrotate hroot hr).symm, hif]
      simp only [pow_zero, nil_append] at hl
      simp only [hl, Option.bind_eq_bind, Option.bind_some]
    refine ⟨_, hbuild, ?_⟩
    by_cases hzero : shift size root r = 0
    · obtain rfl := (shift_eq_zero hroot hr).mp hzero
      have h := hprev 0 (by omega)
      rw [if_pos rfl, if_pos rfl] at h
      rw [if_pos hzero]
      exact .of_root (.inr (hzero ▸ h)) rfl
    · rw [if_neg hzero]
      exact .of_prev hroot hr (hadds _ hlt hzero).lt (hprev' _ hlt hzero) rfl

end OpenMPI.Coll
