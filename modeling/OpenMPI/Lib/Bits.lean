import Mathlib.Data.Nat.Bitwise
import Mathlib.Data.Nat.Multiplicity

/-!
# One bit of a number

Flipping one bit of a number adds or takes away its power of two.
-/

namespace OpenMPI.Lib

open Nat

theorem xor_one (x : ℕ) : x ^^^ 1 = if x % 2 = 0 then x + 1 else x - 1 := by
  split_ifs with h
  · exact xor_one_of_even (Nat.even_iff.mpr h)
  · exact xor_one_of_odd (Nat.odd_iff.mpr (by omega))

theorem xor_two_pow (x k : ℕ) :
    x ^^^ 2 ^ k = if x / 2 ^ k % 2 = 0 then x + 2 ^ k else x - 2 ^ k := by
  have hpos : 0 < 2 ^ k := Nat.two_pow_pos k
  have hdiv : (x ^^^ 2 ^ k) / 2 ^ k = x / 2 ^ k ^^^ 1 := by
    rw [xor_div_two_pow, Nat.div_self hpos]
  have hmod : (x ^^^ 2 ^ k) % 2 ^ k = x % 2 ^ k := by
    rw [xor_mod_two_pow, mod_self, xor_zero]
  have hx := div_add_mod x (2 ^ k)
  have hy := div_add_mod (x ^^^ 2 ^ k) (2 ^ k)
  rw [hdiv, hmod, xor_one] at hy
  split_ifs at hy ⊢ with h
  · rw [mul_add, mul_one] at hy
    omega
  · have hne : x / 2 ^ k ≠ 0 := fun h0 => h (by rw [h0])
    have hle : 2 ^ k * 1 ≤ 2 ^ k * (x / 2 ^ k) := mul_le_mul_left _ (Nat.pos_of_ne_zero hne)
    rw [Nat.mul_sub, mul_one] at hy
    omega

theorem xor_mod (w j : ℕ) : (w ^^^ 2 ^ j) % 2 ^ j = w % 2 ^ j := by
  rw [xor_mod_two_pow, mod_self, xor_zero]

theorem xor_div_self (w j : ℕ) : (w ^^^ 2 ^ j) / 2 ^ j = w / 2 ^ j ^^^ 1 := by
  rw [xor_div_two_pow, Nat.div_self (Nat.two_pow_pos j)]

theorem xor_div_mod (w j : ℕ) : (w ^^^ 2 ^ j) / 2 ^ j % 2 = 1 - w / 2 ^ j % 2 := by
  rw [xor_div_self, xor_one]
  split_ifs <;> omega

theorem xor_div_succ (w j : ℕ) : (w ^^^ 2 ^ j) / 2 ^ (j + 1) = w / 2 ^ (j + 1) := by
  rw [xor_div_two_pow, div_eq_of_lt (Nat.pow_lt_pow_right (by decide) j.lt_succ_self),
    xor_zero]

theorem xor_of_lt {v k : ℕ} (h : v < 2 ^ k) : v ^^^ 2 ^ k = v + 2 ^ k := by
  rw [xor_two_pow, div_eq_of_lt h, if_pos rfl]

theorem xor_of_dvd {v k : ℕ} (h : 2 ^ (k + 1) ∣ v) : v ^^^ 2 ^ k = v + 2 ^ k := by
  obtain ⟨a, rfl⟩ := h
  rw [xor_two_pow, if_pos]
  rw [pow_succ, mul_assoc, Nat.mul_div_cancel_left _ (Nat.two_pow_pos k), mul_mod_right]

theorem xor_of_not_dvd {v k : ℕ} (h : 2 ^ k ∣ v) (hnot : ¬2 ^ (k + 1) ∣ v) :
    v ^^^ 2 ^ k = v - 2 ^ k ∧ 2 ^ k ≤ v ∧ 2 ^ (k + 1) ∣ v - 2 ^ k := by
  obtain ⟨a, rfl⟩ := h
  have hodd : a % 2 = 1 := by
    by_contra hne
    obtain ⟨b, rfl⟩ := dvd_of_mod_eq_zero (show a % 2 = 0 by omega)
    exact hnot ⟨b, by rw [pow_succ, mul_assoc]⟩
  have hle : 2 ^ k * 1 ≤ 2 ^ k * a := mul_le_mul_left _ (by omega)
  refine ⟨?_, by omega, ?_⟩
  · rw [xor_two_pow, Nat.mul_div_cancel_left _ (Nat.two_pow_pos k), if_neg (by omega)]
  · refine ⟨a / 2, ?_⟩
    rw [pow_succ, mul_assoc, ← Nat.mul_sub_one]
    congr 1
    omega

theorem two_pow_succ_dvd {x k : ℕ} (h : 2 ^ k ∣ x) : 2 ^ (k + 1) ∣ x ↔ x / 2 ^ k % 2 = 0 := by
  obtain ⟨a, rfl⟩ := h
  rw [pow_succ, Nat.mul_div_cancel_left _ (Nat.two_pow_pos k), ← dvd_iff_mod_eq_zero,
    Nat.mul_dvd_mul_iff_left (Nat.two_pow_pos k)]

theorem testBit_eq_false {x k : ℕ} (h : x / 2 ^ k % 2 = 0) : x.testBit k = false := by
  rw [testBit_eq_decide_div_mod_eq, h]
  rfl

theorem and_two_pow_eq_zero (x k : ℕ) : x &&& 2 ^ k = 0 ↔ x / 2 ^ k % 2 = 0 := by
  rw [Nat.and_comm, two_pow_and, testBit_eq_decide_div_mod_eq]
  rcases mod_two_eq_zero_or_one (x / 2 ^ k) with h | h
  · simp [h]
  · simp [h]

theorem or_two_pow {x k : ℕ} (h : x / 2 ^ k % 2 = 0) : x ||| 2 ^ k = x + 2 ^ k := by
  have hxor : x ||| 2 ^ k = x ^^^ 2 ^ k := by
    refine eq_of_testBit_eq fun i => ?_
    rw [testBit_or, testBit_xor, testBit_two_pow]
    by_cases hi : k = i
    · subst hi
      simp [testBit_eq_false h]
    · simp [hi]
  rw [hxor, xor_two_pow, if_pos h]

theorem ldiff_two_pow {x k : ℕ} (h : x / 2 ^ k % 2 = 1) : Nat.ldiff x (2 ^ k) = x - 2 ^ k := by
  have hxor : Nat.ldiff x (2 ^ k) = x ^^^ 2 ^ k := by
    refine eq_of_testBit_eq fun i => ?_
    rw [Nat.testBit_ldiff, testBit_xor, testBit_two_pow]
    by_cases hi : k = i
    · subst hi
      simp [testBit_eq_decide_div_mod_eq, h]
    · simp [hi]
  rw [hxor, xor_two_pow, if_neg (by omega)]

/-- `c` is `p` with one more bit, above all bits of `p`. -/
def AddsHigh (p c : ℕ) : Prop := ∃ k, p < 2 ^ k ∧ c = p + 2 ^ k

theorem AddsHigh.lt {p c : ℕ} (h : AddsHigh p c) : p < c := by
  obtain ⟨k, -, rfl⟩ := h
  exact Nat.lt_add_of_pos_right (Nat.two_pow_pos k)

theorem AddsHigh.unique {p q c : ℕ} (hp : AddsHigh p c) (hq : AddsHigh q c) : p = q := by
  obtain ⟨k, hk, hck⟩ := hp
  obtain ⟨l, hl, hcl⟩ := hq
  have hkl : k = l := by
    have hlow (i j : ℕ) (r : ℕ) (hr : r < 2 ^ i) (hle : 2 ^ j ≤ r + 2 ^ i) : j ≤ i := by
      have : 2 ^ j < 2 ^ (i + 1) := by
        rw [pow_succ]
        omega
      have := (Nat.pow_lt_pow_iff_right (by decide)).mp this
      omega
    exact le_antisymm (hlow l k q hl (by omega)) (hlow k l p hk (by omega))
  subst hkl
  omega

theorem AddsHigh.of_pos {c : ℕ} (h : c ≠ 0) : AddsHigh (c - 2 ^ Nat.log 2 c) c := by
  have hle : 2 ^ Nat.log 2 c ≤ c := pow_log_le_self 2 h
  have hlt : c < 2 ^ (Nat.log 2 c + 1) := lt_pow_succ_log_self (by decide) c
  rw [pow_succ] at hlt
  exact ⟨Nat.log 2 c, by omega, by omega⟩

end OpenMPI.Lib
