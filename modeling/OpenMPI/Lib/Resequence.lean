import Mathlib.Data.List.Nodup
import Mathlib.Data.List.Perm.Basic
import Mathlib.Data.List.Range

/-!
# Restoring an order from sequence numbers

A receiver expects one sequence number at a time.  An item that carries it is released, followed by
whatever the receiver held that is now in turn; any other item is held back.

The numbers may repeat, as a counter of fixed width does.  What matters is that two positions
within a window of width `W` never carry the same number (`Numbering`): then the items released are
those at consecutive positions, and no item held is the expected one (`accept_spec`).
-/

namespace OpenMPI.Lib

open List

namespace Resequence


variable {α σ : Type*} [DecidableEq σ] (seqOf : α → σ) (succ : σ → σ)

theorem length_eraseP_lt_of_find? {P : α → Bool} {l : List α} {a : α}
    (h : l.find? P = some a) : (l.eraseP P).length < l.length := by
  have hm := mem_of_find?_eq_some h
  have := length_pos_of_mem hm
  rw [length_eraseP_of_mem hm (find?_some h)]
  omega

/-- The items let go once `e` is expected, the number expected next, and what is still held. -/
def release (e : σ) (held : List α) : List α × σ × List α :=
  match _h : held.find? fun x => decide (seqOf x = e) with
  | none => ([], e, held)
  | some x =>
    let r := release (succ e) (held.eraseP fun x => decide (seqOf x = e))
    (x :: r.1, r.2)
termination_by held.length
decreasing_by exact length_eraseP_lt_of_find? _h

def accept (e : σ) (held : List α) (x : α) : List α × σ × List α :=
  if seqOf x = e then
    let r := release seqOf succ (succ e) held
    (x :: r.1, r.2)
  else
    ([], e, held ++ [x])

theorem release_of_find?_eq_none {e : σ} {held : List α}
    (h : held.find? (fun x => decide (seqOf x = e)) = none) :
    release seqOf succ e held = ([], e, held) := by
  rw [release]
  split
  · rfl
  · simp_all

theorem release_of_find?_eq_some {e : σ} {held : List α} {x : α}
    (h : held.find? (fun x => decide (seqOf x = e)) = some x) :
    release seqOf succ e held =
      (x :: (release seqOf succ (succ e) (held.eraseP fun x => decide (seqOf x = e))).1,
        (release seqOf succ (succ e) (held.eraseP fun x => decide (seqOf x = e))).2) := by
  rw [release]
  split
  · simp_all
  · rename_i y hy
    rw [h, Option.some.injEq] at hy
    subst hy
    rfl

theorem accept_of_eq {e : σ} {x : α} (h : seqOf x = e) (held : List α) :
    accept seqOf succ e held x =
      (x :: (release seqOf succ (succ e) held).1, (release seqOf succ (succ e) held).2) :=
  if_pos h

theorem accept_of_ne {e : σ} {x : α} (h : seqOf x ≠ e) (held : List α) :
    accept seqOf succ e held x = ([], e, held ++ [x]) :=
  if_neg h

/-- Position `k` is numbered `num k`, and a number names one position within any window of
`W` positions. -/
structure Numbering (succ : σ → σ) (W : ℕ) (num : ℕ → σ) : Prop where
  num_succ : ∀ k, num (k + 1) = succ (num k)
  window : ∀ i j, i ≤ j → j < i + W → num i = num j → i = j

/-- The positions held while position `n` is expected. -/
structure Held (W n : ℕ) (ks : List ℕ) : Prop where
  nodup : ks.Nodup
  ahead : ∀ k ∈ ks, n < k ∧ k < n + W

namespace Held

variable {W n : ℕ} {ks : List ℕ}

theorem nil : Held W n [] := ⟨nodup_nil, by simp⟩

theorem not_mem (h : Held W n ks) : n ∉ ks := fun hn => absurd (h.ahead n hn).1 (by omega)

theorem eq_nil_of_perm (h : Held W n ks) {N : ℕ} (hp : range n ++ ks ~ range N) :
    n = N ∧ ks = [] := by
  have hlen := hp.length_eq
  simp only [length_append, length_range] at hlen
  rcases lt_or_ge n N with hlt | hge
  · have hmem : n ∈ range n ++ ks := hp.mem_iff.mpr (mem_range.mpr hlt)
    rcases mem_append.mp hmem with hmem | hmem
    · simp at hmem
    · exact absurd hmem h.not_mem
  · have hks : ks.length = 0 := by omega
    exact ⟨by omega, length_eq_zero_iff.mp hks⟩

end Held

section Spec

variable {seqOf succ} {W : ℕ} {num : ℕ → σ} {item : ℕ → α}

theorem range'_sub_cons {n m : ℕ} (h : n < m) :
    range' n (m - n) = n :: range' (n + 1) (m - (n + 1)) := by
  rw [show m - n = (m - (n + 1)) + 1 by omega, range'_succ]

theorem range_eq_append {n m : ℕ} (h : n ≤ m) :
    range m = range n ++ range' n (m - n) := by
  have happ := @range'_append_1 0 n (m - n)
  rw [Nat.zero_add, Nat.add_sub_cancel' h] at happ
  rw [range_eq_range', range_eq_range', happ]

theorem position_of_find?_eq_some (hN : Numbering succ W num) {n : ℕ} {ks : List ℕ}
    (hnd : ks.Nodup) (hks : ∀ k ∈ ks, n ≤ k ∧ k < n + W)
    (hitem : ∀ k ∈ ks, seqOf (item k) = num k) {x : α}
    (h : (ks.map item).find? (fun x => decide (seqOf x = num n)) = some x) :
    x = item n ∧ ∃ ks', ks ~ n :: ks' ∧ (∀ k ∈ ks', n + 1 ≤ k ∧ k < n + 1 + W)
      ∧ (ks.map item).eraseP (fun x => decide (seqOf x = num n)) = ks'.map item := by
  have hpos : ∀ k ∈ ks, seqOf (item k) = num n → k = n := by
    intro k hk hkn
    rw [hitem k hk] at hkn
    exact (hN.window n k (hks k hk).1 (hks k hk).2 hkn.symm).symm
  rw [find?_map, Option.map_eq_some_iff] at h
  obtain ⟨k, hk, rfl⟩ := h
  have hmem := mem_of_find?_eq_some hk
  have hsat := find?_some hk
  obtain ⟨a, l₁, l₂, -, ha, hks', herase⟩ := exists_of_eraseP hmem hsat
  have hkn : k = n := hpos k hmem (by simpa using hsat)
  have han : a = n := hpos a (by simp [hks']) (by simpa using ha)
  subst han
  have hperm : ks ~ a :: (l₁ ++ l₂) := hks' ▸ perm_middle
  refine ⟨by rw [hkn], l₁ ++ l₂, hperm, fun j hj => ?_, ?_⟩
  · have hnd' := nodup_cons.mp (hperm.nodup_iff.mp hnd)
    have := hks j (hperm.mem_iff.mpr (mem_cons_of_mem _ hj))
    have hne : j ≠ a := fun h => hnd'.1 (h ▸ hj)
    omega
  · rw [eraseP_map, herase]

theorem release_spec (hN : Numbering succ W num) (n : ℕ) (ks : List ℕ) (hnd : ks.Nodup)
    (hks : ∀ k ∈ ks, n ≤ k ∧ k < n + W) (hitem : ∀ k ∈ ks, seqOf (item k) = num k) :
    ∃ m ks', release seqOf succ (num n) (ks.map item)
        = ((range' n (m - n)).map item, num m, ks'.map item)
      ∧ n ≤ m ∧ ks ~ range' n (m - n) ++ ks' ∧ Held W m ks' := by
  induction hlen : ks.length generalizing n ks with
  | zero =>
    have hks0 := length_eq_zero_iff.mp hlen
    subst hks0
    exact ⟨n, [], by rw [release_of_find?_eq_none] <;> simp, le_rfl, by simp, .nil⟩
  | succ len ih =>
    rcases h : (ks.map item).find? (fun x => decide (seqOf x = num n)) with _ | x
    · refine ⟨n, ks, ?_, le_rfl, by simp, hnd, fun k hk => ?_⟩
      · rw [release_of_find?_eq_none _ _ h]
        simp
      · have hne : k ≠ n := by
          rintro rfl
          rw [find?_eq_none] at h
          exact h (item k) (mem_map_of_mem hk) (by simp [hitem k hk])
        have := hks k hk
        omega
    · obtain ⟨rfl, ks', hperm, hks', herase⟩ := position_of_find?_eq_some hN hnd hks hitem h
      have hlen' := hperm.length_eq
      rw [length_cons, hlen] at hlen'
      obtain ⟨m, ks'', hr, hm, hp, hheld⟩ := ih (n + 1) ks'
        (nodup_cons.mp (hperm.nodup_iff.mp hnd)).2 hks'
        (fun k hk => hitem k (hperm.mem_iff.mpr (mem_cons_of_mem _ hk))) (by omega)
      refine ⟨m, ks'', ?_, by omega, ?_, hheld⟩
      · rw [release_of_find?_eq_some _ _ h, herase, ← hN.num_succ, hr, range'_sub_cons hm]
        simp
      · rw [range'_sub_cons hm]
        exact hperm.trans (hp.cons n)

theorem accept_spec (hN : Numbering succ W num) {n k : ℕ} {ks : List ℕ} (hheld : Held W n ks)
    (hk : k ∉ ks) (hnk : n ≤ k) (hkW : k < n + W) (hitem : ∀ j ∈ k :: ks, seqOf (item j) = num j) :
    ∃ m ks', accept seqOf succ (num n) (ks.map item) (item k)
        = ((range' n (m - n)).map item, num m, ks'.map item)
      ∧ n ≤ m ∧ k :: ks ~ range' n (m - n) ++ ks' ∧ Held W m ks' := by
  have hks : ∀ j ∈ ks, n < j ∧ j < n + W := hheld.ahead
  by_cases h : seqOf (item k) = num n
  · have hkn : k = n := by
      rw [hitem k (by simp)] at h
      exact (hN.window n k hnk hkW h.symm).symm
    subst hkn
    obtain ⟨m, ks', hr, hm, hp, hh⟩ := release_spec hN (k + 1) ks hheld.nodup
      (fun j hj => ⟨(hks j hj).1, by have := hks j hj; omega⟩)
      (fun j hj => hitem j (mem_cons_of_mem _ hj))
    refine ⟨m, ks', ?_, by omega, ?_, hh⟩
    · rw [accept_of_eq _ _ h, ← hN.num_succ, hr, range'_sub_cons hm]
      simp
    · rw [range'_sub_cons hm]
      exact hp.cons k
  · have hkn : k ≠ n := by
      rintro rfl
      exact h (hitem k (by simp))
    refine ⟨n, ks ++ [k], ?_, le_rfl, ?_, ?_, fun j hj => ?_⟩
    · rw [accept_of_ne _ _ h]
      simp
    · simpa using (perm_append_singleton k ks).symm
    · exact nodup_append.mpr ⟨hheld.nodup, by simp, by grind⟩
    · simp only [mem_append, mem_singleton] at hj
      rcases hj with hj | rfl
      · exact hks j hj
      · omega

end Spec

end Resequence

end OpenMPI.Lib
