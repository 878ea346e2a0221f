import Mathlib.Data.List.Basic

/-!
# A channel that keeps the order

What is on a channel may be lost or come twice, but nothing overtakes.  So stamps that do not fall
along the channel still do not after a disturbance (`Ordered.lose`, `Ordered.double`), and whoever
took something off it meets with no older stamp any more (`Ordered.tail`).
-/

namespace OpenMPI.Lib.Channel

open List

variable {α : Type*} {l m : List α} {a : α} {k : ℕ}

/-- What is at position `k` is lost. -/
def lose (k : ℕ) (l : List α) : List α := l.eraseIdx k

/-- What is at position `k` comes twice. -/
def double (k : ℕ) (l : List α) : List α := l.take (k + 1) ++ l.drop k

theorem mem_of_mem_lose (h : a ∈ lose k l) : a ∈ l := mem_of_mem_eraseIdx h

theorem mem_of_mem_double (h : a ∈ double k l) : a ∈ l := by
  rcases mem_append.mp h with h | h
  · exact mem_of_mem_take h
  · exact mem_of_mem_drop h

/-- The stamps do not fall along the channel and are between two bounds. -/
structure Ordered (stamp : α → ℕ) (lo hi : ℕ) (l : List α) : Prop where
  pairwise : l.Pairwise fun a b => stamp a ≤ stamp b
  between : ∀ a ∈ l, lo ≤ stamp a ∧ stamp a ≤ hi

namespace Ordered

variable {stamp : α → ℕ} {lo lo' hi hi' : ℕ}

theorem nil : Ordered stamp lo hi [] := ⟨.nil, fun _ h => nomatch h⟩

theorem mono (h : Ordered stamp lo hi l) (hlo : lo' ≤ lo) (hhi : hi ≤ hi') : Ordered stamp lo' hi' l where
  pairwise := h.pairwise
  between a ha := by
    obtain ⟨h1, h2⟩ := h.between a ha
    exact ⟨Nat.le_trans hlo h1, Nat.le_trans h2 hhi⟩

theorem tail (h : Ordered stamp lo hi (a :: l)) : Ordered stamp (stamp a) hi l where
  pairwise := h.pairwise.of_cons
  between b hb := ⟨rel_of_pairwise_cons h.pairwise hb, (h.between b (mem_cons_of_mem _ hb)).2⟩

theorem append (h : Ordered stamp lo hi l) (hle : lo ≤ hi) (hm : ∀ a ∈ m, stamp a = hi) :
    Ordered stamp lo hi (l ++ m) where
  pairwise := by
    refine pairwise_append.mpr ⟨h.pairwise, pairwise_of_forall_mem_list ?_, ?_⟩
    · intro a ha b hb
      exact Nat.le_of_eq ((hm a ha).trans (hm b hb).symm)
    · intro a ha b hb
      rw [hm b hb]
      exact (h.between a ha).2
  between a ha := by
    rcases mem_append.mp ha with ha | ha
    · exact h.between a ha
    · rw [hm a ha]
      exact ⟨hle, Nat.le_refl hi⟩

theorem lose (h : Ordered stamp lo hi l) (k : ℕ) : Ordered stamp lo hi (lose k l) where
  pairwise := h.pairwise.sublist (eraseIdx_sublist l k)
  between a ha := h.between a (mem_of_mem_lose ha)

theorem double (h : Ordered stamp lo hi l) (k : ℕ) : Ordered stamp lo hi (double k l) where
  pairwise := by
    refine pairwise_append.mpr ⟨h.pairwise.sublist (take_sublist _ _),
      h.pairwise.sublist (drop_sublist _ _), ?_⟩
    intro a ha b hb
    obtain ⟨i, hi, rfl⟩ := mem_iff_getElem.mp ha
    obtain ⟨j, hj, rfl⟩ := mem_iff_getElem.mp hb
    rw [length_take] at hi
    rw [length_drop] at hj
    rw [getElem_take, getElem_drop]
    rcases Nat.lt_or_ge i (k + j) with hlt | hge
    · exact pairwise_iff_getElem.mp h.pairwise i (k + j) _ _ hlt
    · obtain rfl : i = k + j := by omega
      exact Nat.le_refl _
  between a ha := h.between a (mem_of_mem_double ha)

end Ordered

end OpenMPI.Lib.Channel
