import OpenMPI.Coll.Util
import OpenMPI.Lib.Bits

/-!
# Folding the ranks to a power of two

With `n = 2 ^ K + remain` ranks, each even rank below `2 * remain` leaves its part to the rank after it
(`folded`), and the others are numbered anew: rank `r` gets number `tmpRank r`, and number `w` is rank
`realOf w`, which stands for the ranks `ranksOf w`.
-/

namespace OpenMPI.Coll

open Lib List

theorem growLoop_eq (size fuel k : ℕ) (hk : k = 0 ∨ 2 ^ (k - 1) ≤ size)
    (hfuel : size + 1 ≤ 2 ^ k + fuel) (hpos : 1 ≤ size) :
    ∃ K, growLoop size fuel (2 ^ k) = 2 ^ (K + 1) ∧ 2 ^ K ≤ size ∧ size < 2 ^ (K + 1) := by
  induction fuel generalizing k with
  | zero =>
    rcases Nat.eq_zero_or_pos k with rfl | hk0
    · rw [pow_zero] at hfuel
      omega
    · refine ⟨k - 1, ?_, hk.resolve_left (ne_of_gt hk0), ?_⟩
      · rw [Nat.sub_add_cancel hk0]
        rfl
      · rw [Nat.sub_add_cancel hk0]
        omega
  | succ fuel ih =>
    have hpow := Nat.two_pow_pos k
    unfold growLoop
    split_ifs with hle
    · rw [Nat.shiftLeft_eq, pow_one, ← pow_succ]
      exact ih (k + 1) (.inr hle) (by rw [pow_succ]; omega)
    · rcases Nat.eq_zero_or_pos k with rfl | hk0
      · rw [pow_zero] at hle
        omega
      · refine ⟨k - 1, ?_, hk.resolve_left (ne_of_gt hk0), ?_⟩
        · rw [Nat.sub_add_cancel hk0]
        · rw [Nat.sub_add_cancel hk0]
          omega

theorem nearestPower_eq {size : ℕ} (hpos : 1 ≤ size) :
    ∃ K, nearestPower size = 2 ^ K ∧ 2 ^ K ≤ size ∧ size < 2 ^ (K + 1) := by
  obtain ⟨K, hgrow, hle, hlt⟩ := growLoop_eq size (size + 1) 0 (.inl rfl) (by omega) hpos
  refine ⟨K, ?_, hle, hlt⟩
  rw [pow_zero] at hgrow
  rw [nearestPower, hgrow, pow_succ, Nat.shiftRight_eq_div_pow, pow_one,
    Nat.mul_div_cancel _ two_pos]

theorem nearestPower_add {size : ℕ} (hpos : 1 ≤ size) :
    ∃ K remain, nearestPower size = 2 ^ K ∧ size = 2 ^ K + remain ∧ remain < 2 ^ K := by
  obtain ⟨K, hsize, hle, hlt⟩ := nearestPower_eq hpos
  rw [pow_succ] at hlt
  exact ⟨K, size - 2 ^ K, hsize, by omega, by omega⟩

def realOf (remain w : ℕ) : ℕ := if w < remain then w * 2 + 1 else w + remain

def tmpRank (remain r : ℕ) : ℕ := if r < 2 * remain then r / 2 else r - remain

def folded (remain r : ℕ) : Prop := r < 2 * remain ∧ r % 2 = 0

instance (remain r : ℕ) : Decidable (folded remain r) := inferInstanceAs (Decidable (_ ∧ _))

def ranksOf (remain w : ℕ) : List ℕ := if w < remain then [w * 2, w * 2 + 1] else [w + remain]

variable {n remain N w r : ℕ}

theorem realOf_lt (hn : n = N + remain) (hw : w < N) : realOf remain w < n := by
  unfold realOf
  split_ifs <;> omega

theorem tmpRank_lt (hn : n = N + remain) (hlt : remain < N) (hr : r < n) : tmpRank remain r < N := by
  unfold tmpRank
  split_ifs <;> omega

@[simp] theorem tmpRank_realOf (remain w : ℕ) : tmpRank remain (realOf remain w) = w := by
  unfold tmpRank realOf
  split_ifs <;> omega

theorem tmpRank_of_mem (h : r ∈ ranksOf remain w) : tmpRank remain r = w := by
  unfold ranksOf at h
  unfold tmpRank
  split_ifs at h with hw
  · rcases mem_pair.mp h with rfl | rfl
    · rw [if_pos (by omega)]
      omega
    · rw [if_pos (by omega)]
      omega
  · obtain rfl := mem_singleton.mp h
    rw [if_neg (by omega), Nat.add_sub_cancel]

theorem not_folded_realOf (remain w : ℕ) : ¬folded remain (realOf remain w) := by
  unfold folded realOf
  split_ifs <;> omega

theorem realOf_tmpRank (h : ¬folded remain r) : realOf remain (tmpRank remain r) = r := by
  unfold folded at h
  unfold tmpRank realOf
  split_ifs <;> omega

theorem flatMap_ranksOf (remain W : ℕ) :
    (range W).flatMap (ranksOf remain) = range (W + min W remain) := by
  induction W with
  | zero => rw [Nat.zero_min]; rfl
  | succ W ih =>
    rw [range_succ, flatMap_append, flatMap_singleton, ih, ranksOf]
    split_ifs with h
    · rw [min_eq_left (le_of_lt h), min_eq_left h,
        show W + 1 + (W + 1) = W + W + 1 + 1 by omega, range_succ, range_succ,
        append_assoc]
      congr 2
      · omega
      · simp [Nat.mul_two]
    · rw [min_eq_right (by omega), min_eq_right (by omega),
        show W + 1 + remain = W + remain + 1 by omega, range_succ]

end OpenMPI.Coll
