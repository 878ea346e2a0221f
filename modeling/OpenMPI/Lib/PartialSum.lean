import Mathlib.Algebra.Order.BigOperators.Group.List
import Mathlib.Tactic.Ring

/-!
# Partial sums of lists of positive numbers

They tell the numbers of elements apart, and two lists with the same partial sums are the same.
-/

namespace OpenMPI.Lib

open List

variable {l l' : List ℕ} {i j k : ℕ}

theorem sum_take_le_sum (l : List ℕ) (k : ℕ) : (l.take k).sum ≤ l.sum := by
  conv_rhs => rw [← take_append_drop k l, sum_append]
  exact Nat.le_add_right _ _

theorem sum_take_lt (hpos : ∀ s ∈ l, 0 < s) (hij : i < j) (hj : j ≤ l.length) :
    (l.take i).sum < (l.take j).sum := by
  have hi : i < l.length := by omega
  have hstep : (l.take (i + 1)).sum = (l.take i).sum + l[i] := sum_take_succ l i hi
  have hmono : (l.take (i + 1)).sum ≤ (l.take j).sum := by
    have := sum_take_le_sum (l.take j) (i + 1)
    rwa [take_take, min_eq_left (by omega)] at this
  have := hpos _ (getElem_mem hi)
  omega

theorem sum_take_inj (hpos : ∀ s ∈ l, 0 < s) (hi : i ≤ l.length) (hj : j ≤ l.length)
    (h : (l.take i).sum = (l.take j).sum) : i = j := by
  rcases lt_trichotomy i j with hlt | heq | hlt
  · have := sum_take_lt hpos hlt hj
    omega
  · exact heq
  · have := sum_take_lt hpos hlt hi
    omega

theorem length_le_sum (hpos : ∀ s ∈ l, 0 < s) : l.length ≤ l.sum := by
  induction l with
  | nil => simp
  | cons s l ih =>
    have := hpos s mem_cons_self
    have := ih fun s hs => hpos s (mem_cons_of_mem _ hs)
    simp only [length_cons, sum_cons]
    omega

theorem sum_take_ne (hk : k < l.length) {n : ℕ}
    (hlt : (l.take k).sum < n) (hgt : n < (l.take k).sum + l[k]) (j : ℕ) :
    (l.take j).sum ≠ n := by
  have hstep : (l.take (k + 1)).sum = (l.take k).sum + l[k] := sum_take_succ l k hk
  rcases lt_or_ge k j with hj | hj
  · have := sum_take_le_sum (l.take j) (k + 1)
    rw [take_take, min_eq_left (by omega)] at this
    omega
  · have := sum_take_le_sum (l.take k) j
    rw [take_take, min_eq_left hj] at this
    omega

theorem take_of_isPrefix {α : Type*} {l l' : List α} (h : l <+: l') (hk : k ≤ l.length) :
    l'.take k = l.take k := by
  obtain ⟨t, rfl⟩ := h
  exact take_append_of_le_length hk

theorem prefix_of_sum_take {l l' : List ℕ} (hlength : l.length ≤ l'.length)
    (h : ∀ k ≤ l.length, (l'.take k).sum = (l.take k).sum) : l <+: l' := by
  rw [prefix_iff_eq_take]
  apply ext_getElem
  · simp [hlength]
  · intro k hk _
    have hsum := sum_take_succ l k hk
    have hsum' := sum_take_succ l' k (by omega)
    have h0 := h k hk.le
    have h1 := h (k + 1) hk
    simp only [getElem_take]
    omega

end OpenMPI.Lib
