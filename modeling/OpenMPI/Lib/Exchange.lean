import Mathlib.Data.List.Perm.Basic
import Mathlib.Order.Lattice

/-!
# Sorting by exchanges

Every place of a list is compared with all later ones and takes over what is greater: the list is in
non-increasing order at the end, and its elements are the same ones.
-/

namespace OpenMPI.Lib

open List

variable {α : Type*} [LinearOrder α]

/-- The greater one of the elements at two places goes to the first place. -/
def exchange (l : List α) (i j : ℕ) : List α :=
  match l[i]?, l[j]? with
  | some x, some y => if x < y then (l.set i y).set j x else l
  | _, _ => l

/-- Place `i` is compared with all later ones. -/
def exchangeRow (l : List α) (i : ℕ) : List α :=
  (List.range' (i + 1) (l.length - (i + 1))).foldl (fun l j => exchange l i j) l

def exchangeSort (l : List α) : List α :=
  (List.range (l.length - 1)).foldl exchangeRow l

theorem exchange_perm (l : List α) (i j : ℕ) : (exchange l i j).Perm l := by
  rw [exchange]
  split
  · rename_i x y hx hy
    obtain ⟨hi, rfl⟩ := List.getElem?_eq_some_iff.mp hx
    obtain ⟨hj, rfl⟩ := List.getElem?_eq_some_iff.mp hy
    split
    · exact set_set_perm hi hj
    · exact .refl l
  · exact .refl l

theorem foldl_exchange_perm (l : List α) (i : ℕ) (js : List ℕ) :
    (js.foldl (fun l j => exchange l i j) l).Perm l := by
  induction js generalizing l with
  | nil => exact .refl l
  | cons j js ih => exact (ih _).trans (exchange_perm l i j)

theorem exchangeRow_perm (l : List α) (i : ℕ) : (exchangeRow l i).Perm l := foldl_exchange_perm l i _

theorem exchangeSort_perm (l : List α) : (exchangeSort l).Perm l := by
  rw [exchangeSort]
  generalize range (l.length - 1) = is
  induction is generalizing l with
  | nil => exact .refl l
  | cons i is ih => exact (ih _).trans (exchangeRow_perm l i)

/-- No element after a place before `i` is greater than the one there, and none of those before `j` is
greater than the one at `i`. -/
def Settled (l : List α) (i j : ℕ) : Prop :=
  ∀ a b x y, a < b → a < i ∨ a = i ∧ b < j → l[a]? = some x → l[b]? = some y → y ≤ x

theorem Settled.exchange {l : List α} {i j : ℕ} (h : Settled l i j) (hij : i < j) :
    Settled (exchange l i j) i (j + 1) := by
  intro a b x y hab hplace hx hy
  rw [Lib.exchange] at hx hy
  split at hx
  · rename_i u v hu hv
    split at hx
    · rename_i huv
      simp only [hu, hv, if_pos huv, getElem?_set, length_set] at hx hy
      have hi := (List.getElem?_eq_some_iff.mp hu).1
      have hj := (List.getElem?_eq_some_iff.mp hv).1
      rcases hplace with ha | ⟨rfl, hb⟩
      · -- the places before `i` keep theirs, and what comes after them only changes places
        rw [if_neg (by omega), if_neg (by omega)] at hx
        split_ifs at hy with h1 h2
        · cases hy
          exact h a i x _ (by omega) (.inl ha) hx hu
        · cases hy
          exact h a j x _ (by omega) (.inl ha) hx hv
        · exact h a b x y hab (.inl ha) hx hy
      · rw [if_neg (by omega), if_pos rfl, if_pos hi] at hx
        cases hx
        split_ifs at hy with h1 h2
        · cases hy
          exact huv.le
        · omega
        · exact (h a b u y hab (.inr ⟨rfl, by omega⟩) hu hy).trans huv.le
    · rename_i huv
      simp only [hu, hv, if_neg huv] at hy
      rcases hplace with ha | ⟨rfl, hb⟩
      · exact h a b x y hab (.inl ha) hx hy
      · rcases Nat.lt_succ_iff_lt_or_eq.mp hb with hb | rfl
        · exact h a b x y hab (.inr ⟨rfl, hb⟩) hx hy
        · rw [hx] at hu
          rw [hy] at hv
          cases hu
          cases hv
          exact not_lt.mp huv
  · rename_i hnone
    have hne : l[i]? = none ∨ l[j]? = none := by
      rcases hu : l[i]? with _ | u
      · exact .inl rfl
      · rcases hv : l[j]? with _ | v
        · exact .inr rfl
        · exact absurd hv (hnone u v hu)
    have hy' : l[b]? = some y := by
      rcases hne with hu | hv
      · simpa [hu] using hy
      · rcases hu : l[i]? with _ | u <;> simpa [hu, hv] using hy
    rcases hplace with ha | ⟨rfl, hb⟩
    · exact h a b x y hab (.inl ha) hx hy'
    · rcases Nat.lt_succ_iff_lt_or_eq.mp hb with hb | rfl
      · exact h a b x y hab (.inr ⟨rfl, hb⟩) hx hy'
      · simp [hx, hy'] at hne

theorem Settled.row {l : List α} {i : ℕ} (h : Settled l i (i + 1)) : Settled (exchangeRow l i) (i + 1) (i + 2) := by
  have hrun (k : ℕ) : Settled ((range' (i + 1) k).foldl (fun l j => Lib.exchange l i j) l) i (i + 1 + k) := by
    induction k with
    | zero => exact h
    | succ k ih =>
      rw [range'_1_concat, foldl_append]
      exact ih.exchange (by omega)
  have hlength : (exchangeRow l i).length = l.length := (exchangeRow_perm l i).length_eq
  intro a b x y hab hplace hx hy
  have hb := (List.getElem?_eq_some_iff.mp hy).1
  exact hrun (l.length - (i + 1)) a b x y hab (by omega) hx hy

theorem exchangeSort_pairwise (l : List α) : (exchangeSort l).Pairwise (· ≥ ·) := by
  have hrun (k : ℕ) : Settled ((range k).foldl exchangeRow l) k (k + 1) := by
    induction k with
    | zero =>
      intro a b x y hab hplace
      omega
    | succ k ih =>
      rw [range_succ, foldl_append]
      exact ih.row
  rw [pairwise_iff_getElem]
  intro a b ha hb hab
  have hlength : (exchangeSort l).length = l.length := (exchangeSort_perm l).length_eq
  refine hrun (l.length - 1) a b _ _ hab (.inl (by omega)) (getElem?_eq_getElem ha) (getElem?_eq_getElem hb)

end OpenMPI.Lib
