import Mathlib.Data.Set.Lattice
import Mathlib.Order.CompletePartialOrder

/-!
# Segments that partition an initial interval

A segment is its start and its length.  Segments that follow one another from `0` to `n` partition
`[0, n)` (`Tiles.partitions`).
-/

namespace OpenMPI.Lib

def segment (r : ℕ × ℕ) : Set ℕ := Set.Ico r.1 (r.1 + r.2)

/-- The segments are pairwise disjoint and make up `[0, n)`. -/
structure Partitions (n : ℕ) (l : List (ℕ × ℕ)) : Prop where
  disjoint : l.Pairwise fun r s => Disjoint (segment r) (segment s)
  covers : ∀ x, (∃ r ∈ l, x ∈ segment r) ↔ x < n

/-- The segments follow one another from `a` to `b`. -/
inductive Tiles : ℕ → ℕ → List (ℕ × ℕ) → Prop
  | nil (a : ℕ) : Tiles a a []
  | cons {a b : ℕ} {l : List (ℕ × ℕ)} (n : ℕ) (h : Tiles (a + n) b l) : Tiles a b ((a, n) :: l)

namespace Tiles

variable {a b c : ℕ} {l l' : List (ℕ × ℕ)}

theorem le (h : Tiles a b l) : a ≤ b := by
  induction h with
  | nil => exact le_rfl
  | cons n _ ih => omega

theorem append (h : Tiles a b l) (h' : Tiles b c l') : Tiles a c (l ++ l') := by
  induction h with
  | nil => exact h'
  | cons n _ ih => exact .cons n (ih h')

theorem single {a n : ℕ} : Tiles a (a + n) [(a, n)] := .cons n (.nil _)

theorem exists_mem_segment_iff (h : Tiles a b l) (x : ℕ) :
    (∃ r ∈ l, x ∈ segment r) ↔ a ≤ x ∧ x < b := by
  induction h with
  | nil =>
    simp only [List.not_mem_nil, false_and, exists_false, false_iff, not_and, not_lt]
    exact id
  | cons n h ih =>
    have := h.le
    simp only [List.mem_cons, or_and_right, exists_or, exists_eq_left, ih]
    simp only [segment, Set.mem_Ico]
    omega

theorem pairwise_disjoint (h : Tiles a b l) :
    l.Pairwise fun r s => Disjoint (segment r) (segment s) := by
  induction h with
  | nil => exact .nil
  | @cons a b l n h ih =>
    refine .cons (fun s hs => ?_) ih
    rw [Set.disjoint_left]
    intro x hx hxs
    have := (h.exists_mem_segment_iff x).mp ⟨s, hs, hxs⟩
    simp only [segment, Set.mem_Ico] at hx
    omega

theorem partitions {n : ℕ} (h : Tiles 0 n l) : Partitions n l :=
  ⟨h.pairwise_disjoint, fun x => by simp [h.exists_mem_segment_iff x]⟩

end Tiles

end OpenMPI.Lib
