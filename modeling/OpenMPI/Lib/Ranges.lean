import Mathlib.Data.List.Basic

/-!
# Sets of numbers as ranges

A set of numbers is kept as its ranges, from the first number to the last, in increasing order and
with a number missing between any two of them (`Apart`).
-/

namespace OpenMPI.Lib

open List

/-- The ranges are in order, none is empty and no two of them touch. -/
structure Apart (l : List (ℕ × ℕ)) : Prop where
  le : ∀ r ∈ l, r.1 ≤ r.2
  gap : l.Pairwise fun a b => a.2 + 1 < b.1

def Covers (l : List (ℕ × ℕ)) (n : ℕ) : Prop := ∃ r ∈ l, r.1 ≤ n ∧ n ≤ r.2

variable {l l' : List (ℕ × ℕ)} {r : ℕ × ℕ} {a b c n m : ℕ}

theorem apart_append : Apart (l ++ l') ↔
    Apart l ∧ Apart l' ∧ ∀ r ∈ l, ∀ r' ∈ l', r.2 + 1 < r'.1 := by
  constructor
  · intro h
    have hgap := pairwise_append.mp h.gap
    exact ⟨⟨fun r hr => h.le r (mem_append_left _ hr), hgap.1⟩,
      ⟨fun r hr => h.le r (mem_append_right _ hr), hgap.2.1⟩, hgap.2.2⟩
  · rintro ⟨h, h', hgap⟩
    refine ⟨fun r hr => ?_, pairwise_append.mpr ⟨h.gap, h'.gap, hgap⟩⟩
    rcases mem_append.mp hr with hr | hr
    · exact h.le r hr
    · exact h'.le r hr

theorem apart_cons : Apart (r :: l) ↔ r.1 ≤ r.2 ∧ Apart l ∧ ∀ r' ∈ l, r.2 + 1 < r'.1 := by
  constructor
  · intro h
    have hgap := pairwise_cons.mp h.gap
    exact ⟨h.le r mem_cons_self, ⟨fun r' hr => h.le r' (mem_cons_of_mem _ hr), hgap.2⟩,
      hgap.1⟩
  · rintro ⟨hle, h, hgap⟩
    exact ⟨by simpa using ⟨hle, fun a b hr => h.le (a, b) hr⟩, pairwise_cons.mpr ⟨hgap, h.gap⟩⟩

theorem apart_nil : Apart [] := ⟨by simp, List.Pairwise.nil⟩

@[simp] theorem covers_nil : ¬Covers [] n := by simp [Covers]

@[simp] theorem covers_cons : Covers (r :: l) n ↔ (r.1 ≤ n ∧ n ≤ r.2) ∨ Covers l n := by
  simp [Covers]

@[simp] theorem covers_append : Covers (l ++ l') n ↔ Covers l n ∨ Covers l' n := by
  simp only [Covers, mem_append, or_and_right, exists_or]

theorem Apart.insert (h : Apart (l ++ l')) (hl : ∀ r ∈ l, r.2 + 1 < n) (hl' : ∀ r ∈ l', n + 1 < r.1) :
    Apart (l ++ (n, n) :: l') := by
  obtain ⟨h, h', hgap⟩ := apart_append.mp h
  refine apart_append.mpr ⟨h, apart_cons.mpr ⟨Nat.le_refl _, h', hl'⟩, fun r hr r' hr' => ?_⟩
  rcases mem_cons.mp hr' with rfl | hr'
  · exact hl r hr
  · exact hgap r hr r' hr'

theorem Apart.replace (h : Apart (l ++ r :: l')) (hle : a ≤ b) (hl : ∀ r ∈ l, r.2 + 1 < a)
    (hl' : ∀ r ∈ l', b + 1 < r.1) : Apart (l ++ (a, b) :: l') := by
  obtain ⟨h, h', hgap⟩ := apart_append.mp h
  refine apart_append.mpr ⟨h, apart_cons.mpr ⟨hle, (apart_cons.mp h').2.1, hl'⟩, fun s hs s' hs' => ?_⟩
  rcases mem_cons.mp hs' with rfl | hs'
  · exact hl s hs
  · exact hgap s hs s' (mem_cons_of_mem _ hs')

theorem Apart.join {r' : ℕ × ℕ} (h : Apart (l ++ r :: r' :: l')) : Apart (l ++ (r.1, r'.2) :: l') := by
  obtain ⟨h, h', hgap⟩ := apart_append.mp h
  obtain ⟨hr, h', hgap'⟩ := apart_cons.mp h'
  obtain ⟨hr', h', hgap''⟩ := apart_cons.mp h'
  have := hgap' r' mem_cons_self
  refine apart_append.mpr ⟨h, apart_cons.mpr ⟨by dsimp only; omega, h', hgap''⟩, fun s hs s' hs' => ?_⟩
  rcases mem_cons.mp hs' with rfl | hs'
  · exact hgap s hs r mem_cons_self
  · exact hgap s hs s' (by simp [hs'])

theorem Apart.lt_of_mem_cons (h : Apart (r :: l)) (hn : n < r.1) : ∀ s ∈ r :: l, n < s.1 := by
  obtain ⟨hle, -, hgap⟩ := apart_cons.mp h
  intro s hs
  rcases mem_cons.mp hs with rfl | hs
  · exact hn
  · have := hgap s hs
    omega

theorem Apart.lt_of_mem_concat (h : Apart (l ++ [r])) (hn : r.2 < n) : ∀ s ∈ l ++ [r], s.2 < n := by
  obtain ⟨-, hr, hgap⟩ := apart_append.mp h
  have hle := (apart_cons.mp hr).1
  intro s hs
  rcases mem_append.mp hs with hs | hs
  · have := hgap s hs r mem_cons_self
    omega
  · rw [mem_singleton.mp hs]
    exact hn

end OpenMPI.Lib
