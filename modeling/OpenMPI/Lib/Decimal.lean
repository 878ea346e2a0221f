import Mathlib.Algebra.Ring.Nat
import Mathlib.Data.List.Basic
import Mathlib.Data.List.Induction

/-!
# Numbers of a fixed number of digits

A string of digits is the decimal number of its value, with zeros before it (`zeros_append_toDigits`).
-/

namespace OpenMPI.Lib

open List Nat

abbrev digitsValue (s : List Char) : ℕ := Nat.ofDigitChars 10 s 0

theorem exists_digitChar {c : Char} (h : c.isDigit = true) : ∃ d < 10, c = Nat.digitChar d := by
  simp only [Char.isDigit, Bool.and_eq_true, decide_eq_true_eq] at h
  have hle : 48 ≤ c.toNat := h.1
  have hlt : c.toNat < 58 := lt_succ_of_le h.2
  have hchar : ∀ n < 58, 48 ≤ n → Char.ofNat n = Nat.digitChar (n - 48) := by decide
  refine ⟨c.toNat - 48, by omega, ?_⟩
  rw [← hchar _ hlt hle, Char.ofNat_toNat]

theorem digitsValue_concat {s : List Char} {d : ℕ} (hd : d < 10) :
    digitsValue (s ++ [Nat.digitChar d]) = 10 * digitsValue s + d := by
  rw [digitsValue, ofDigitChars_append, ofDigitChars_cons_digitChar_of_lt_ten hd, ofDigitChars_nil]

theorem digitsValue_lt {s : List Char} (h : ∀ c ∈ s, c.isDigit = true) : digitsValue s < 10 ^ s.length := by
  induction s using List.reverseRecOn with
  | nil => simp
  | append_singleton s c ih =>
    obtain ⟨d, hd, rfl⟩ := exists_digitChar (h c (by simp))
    have := ih fun e he => h e (by simp [he])
    rw [digitsValue_concat hd, length_append, length_singleton, pow_succ]
    omega

theorem digitsValue_toDigits (n : ℕ) : digitsValue (Nat.toDigits 10 n) = n := ofDigitChars_ten_toDigits

theorem digitsValue_zeros_append (k : ℕ) (s : List Char) : digitsValue (replicate k '0' ++ s) = digitsValue s := by
  rw [digitsValue, ofDigitChars_append, ofDigitChars_replicate_zero, mul_zero]

theorem zeros_append_toDigits {s : List Char} (hs : s ≠ []) (h : ∀ c ∈ s, c.isDigit = true) :
    replicate (s.length - (Nat.toDigits 10 (digitsValue s)).length) '0' ++ Nat.toDigits 10 (digitsValue s) = s := by
  induction s using List.reverseRecOn with
  | nil => exact absurd rfl hs
  | append_singleton s c ih =>
    obtain ⟨d, hd, rfl⟩ := exists_digitChar (h c (by simp))
    have hdigits : ∀ e ∈ s, e.isDigit = true := fun e he => h e (by simp [he])
    rw [digitsValue_concat hd]
    rcases Nat.eq_zero_or_pos (digitsValue s) with hzero | hpos
    · rw [hzero, mul_zero, zero_add, toDigits_of_lt_base hd, length_append, length_singleton,
        Nat.add_sub_cancel]
      congr 1
      rcases eq_or_ne s [] with rfl | hne
      · rfl
      · have hs := ih hne hdigits
        rw [hzero, toDigits_zero, length_singleton, ← replicate_one, replicate_append_replicate] at hs
        rw [← hs, length_replicate]
    · have hne : s ≠ [] := by
        rintro rfl
        exact absurd hpos (by simp)
      have hlast : Nat.toDigits 10 (10 * digitsValue s + d) = Nat.toDigits 10 (digitsValue s) ++ [Nat.digitChar d] := by
        rw [← toDigits_append_toDigits (by decide) hpos hd, toDigits_of_lt_base hd]
      rw [hlast, length_append, length_append, length_singleton, Nat.add_sub_add_right,
        ← append_assoc, ih hne hdigits]

end OpenMPI.Lib
