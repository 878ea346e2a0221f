import Mathlib.Data.List.Basic

/-!
# A queue in a ring of slots

A list grows at its end, and its `j`th item is put into slot `j % q`.  Slots are emptied in the order in which they
were filled, so the slots hold the items from some place on (`Queued`), at most `q` of them.
-/

namespace OpenMPI.Lib

open Nat

variable {α : Type*}

/-- The slots of a ring of size `q` hold the items of `l` from the `c`th on. -/
def Queued (q : ℕ) (slots : ℕ → Option α) (l : List α) (c : ℕ) : Prop :=
  ∀ j, c ≤ j → j < c + q → slots (j % q) = l[j]?

theorem mod_ne_of_lt {q i j : ℕ} (hlt : i < j) (hq : j < i + q) : i % q ≠ j % q := by
  intro h
  have hdvd : q ∣ j - i := dvd_of_mod_eq_zero (sub_mod_eq_zero_of_mod_eq h.symm)
  have := Nat.le_of_dvd (by omega) hdvd
  omega

namespace Queued

variable {q c : ℕ} {slots : ℕ → Option α} {l : List α}

theorem nil : Queued q (fun _ => none) ([] : List α) 0 := fun _ _ _ => rfl

section

variable (h : Queued q slots l c)

include h

theorem free_iff (hq : 0 < q) (hc : c ≤ l.length) (hle : l.length ≤ c + q) :
    slots (l.length % q) = none ↔ l.length < c + q := by
  constructor
  · intro hfree
    by_contra hlt
    have heq : l.length = c + q := by omega
    have hslot := h c (Nat.le_refl c) (by omega)
    rw [heq, add_mod_right, hslot, List.getElem?_eq_none_iff] at hfree
    omega
  · intro hlt
    rw [h _ hc hlt, List.getElem?_eq_none (Nat.le_refl _)]

theorem full (hlength : l.length = c + q) {i : ℕ} (hi : i < q) :
    ∃ a ∈ l, slots i = some a := by
  have hmem (j : ℕ) (hc : c ≤ j) (hlt : j < c + q) (hmod : j % q = i) : ∃ a ∈ l, slots i = some a := by
    have hj : j < l.length := by omega
    refine ⟨l[j], List.getElem_mem hj, ?_⟩
    rw [← hmod, h j hc hlt, List.getElem?_eq_getElem hj]
  have hdiv := div_add_mod c q
  have hlt := mod_lt c (by omega : 0 < q)
  by_cases hle : c % q ≤ i
  · refine hmem (q * (c / q) + i) (by omega) (by omega) ?_
    rw [mul_add_mod, mod_eq_of_lt hi]
  · refine hmem (q * (c / q + 1) + i) (by rw [mul_succ]; omega) (by rw [mul_succ]; omega) ?_
    rw [mul_add_mod, mod_eq_of_lt hi]

theorem push (hc : c ≤ l.length) (hlt : l.length < c + q) (a : α) :
    Queued q (Function.update slots (l.length % q) (some a)) (l ++ [a]) c := by
  intro j hcj hj
  rcases Nat.lt_trichotomy j l.length with hlast | rfl | hlast
  · rw [Function.update_of_ne (mod_ne_of_lt hlast (by omega)), h j hcj hj, List.getElem?_append_left hlast]
  · rw [Function.update_self, List.getElem?_concat_length]
  · rw [Function.update_of_ne (mod_ne_of_lt hlast (by omega)).symm, h j hcj hj,
      List.getElem?_eq_none (by omega), List.getElem?_eq_none (by simp; omega)]

theorem clear (hle : l.length ≤ c + q) :
    Queued q (Function.update slots (c % q) none) l (c + 1) := by
  intro j hcj hj
  by_cases heq : j = c + q
  · rw [heq, add_mod_right, Function.update_self, List.getElem?_eq_none hle]
  · rw [Function.update_of_ne (mod_ne_of_lt (by omega) (by omega)).symm, h j (by omega) (by omega)]

end

end Queued

end OpenMPI.Lib
