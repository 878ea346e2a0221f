import Mathlib.Data.List.Pairwise
import Mathlib.Data.Nat.Count

/-!
# Positions that are counted on the way

A scan goes through positions, counts those with a property, and stops where it is told to by the position and the count
(`scan`).  A strictly increasing list is told by its members: the place of one is the count of those below it.
-/

namespace OpenMPI.Lib

open List

/-- The position where a scan stops with the count there, or the count at the end. -/
def scan (P : ℕ → Bool) (stop : ℕ → ℕ → Bool) : List ℕ → ℕ → (ℕ × ℕ) ⊕ ℕ
  | [], count => .inr count
  | p :: ps, count =>
    let count := if P p then count + 1 else count
    if stop p count then .inl (p, count) else scan P stop ps count

variable {P : ℕ → Bool} {stop : ℕ → ℕ → Bool}

theorem scan_append (ps qs : List ℕ) (count : ℕ) :
    scan P stop (ps ++ qs) count = (scan P stop ps count).elim .inl (scan P stop qs) := by
  induction ps generalizing count with
  | nil => rfl
  | cons p ps ih =>
    rw [cons_append, scan, scan]
    by_cases hstop : stop p (if P p then count + 1 else count) = true
    · rw [if_pos hstop, if_pos hstop]
      rfl
    · rw [if_neg hstop, if_neg hstop]
      exact ih _

theorem scan_range_inr {n : ℕ} (h : ∀ p < n, stop p (Nat.count (P · = true) (p + 1)) = false) :
    scan P stop (range n) 0 = .inr (Nat.count (P · = true) n) := by
  induction n with
  | zero => rfl
  | succ n ih =>
    rw [range_succ, scan_append, ih fun p hp => h p (Nat.lt_succ_of_lt hp)]
    have hlast := h n (Nat.lt_succ_self n)
    rw [Nat.count_succ] at hlast ⊢
    show scan P stop [n] _ = _
    rw [scan]
    by_cases hp : P n = true
    · rw [if_pos hp] at hlast ⊢
      simp [hp, hlast, scan]
    · rw [if_neg hp] at hlast ⊢
      rw [add_zero] at hlast
      simp [hp, hlast, scan]

theorem scan_range_inl (P : ℕ → Bool) (stop : ℕ → ℕ → Bool) {n p : ℕ} (hp : p < n) (hstop : stop p (Nat.count (P · = true) (p + 1)) = true)
    (hfirst : ∀ q < p, stop q (Nat.count (P · = true) (q + 1)) = false) :
    scan P stop (range n) 0 = .inl (p, Nat.count (P · = true) (p + 1)) := by
  obtain ⟨k, rfl⟩ := Nat.exists_eq_add_of_lt hp
  have hrange : range (p + k + 1) = range p ++ p :: range' (p + 1) k := by
    rw [range_eq_range', range_eq_range', add_assoc, ← range'_append_1, zero_add, range'_succ]
  rw [hrange, scan_append, scan_range_inr hfirst]
  show scan P stop (p :: _) _ = _
  rw [scan]
  rw [Nat.count_succ] at hstop ⊢
  by_cases hP : P p = true
  · rw [if_pos hP] at hstop ⊢
    simp [hP, hstop]
  · rw [if_neg hP] at hstop ⊢
    rw [add_zero] at hstop
    simp [hP, hstop]

theorem idxOf_eq_length_filter {l : List ℕ} (hl : l.Pairwise (· < ·)) {m : ℕ} (hm : m ∈ l) :
    l.idxOf m = (l.filter (· < m)).length := by
  induction l with
  | nil => cases hm
  | cons r l ih =>
    obtain ⟨hr, hl⟩ := pairwise_cons.mp hl
    rcases mem_cons.mp hm with rfl | hm
    · have hnone : l.filter (· < m) = [] := filter_eq_nil_iff.mpr fun x hx => by simpa using (hr x hx).le
      simp [hnone]
    · have hlt := hr m hm
      rw [idxOf_cons_ne _ (ne_of_lt hlt), ih hl hm, filter_cons_of_pos (by simpa using hlt)]
      rfl

theorem count_eq_idxOf {l : List ℕ} (hl : l.Pairwise (· < ·)) {m : ℕ} (hm : m ∈ l) (hP : ∀ p < m, P p = true ↔ p ∈ l) :
    Nat.count (P · = true) m = l.idxOf m := by
  have hnodup : (l.filter (· < m)).Nodup := (hl.imp ne_of_lt).filter _
  rw [idxOf_eq_length_filter hl hm, Nat.count_eq_card_filter_range, ← toFinset_card_of_nodup hnodup]
  congr 1
  ext x
  simp only [Finset.mem_filter, Finset.mem_range, mem_toFinset, mem_filter, decide_eq_true_eq]
  rw [and_comm (a := x ∈ l)]
  exact and_congr_right (hP x)

end OpenMPI.Lib
