import Mathlib.Algebra.BigOperators.Group.List.Basic
import Mathlib.Tactic.Ring

/-!
# Cells of a grid in row-major order

A grid has a size in each dimension, a cell a coordinate below each size.  The last dimension varies fastest: `index` is
the place of a cell in that order and `cell` the cell at a place.  `select` keeps the entries of a list that a vector of
flags marks and `merge` puts two selections together again.
-/

namespace OpenMPI.Lib.Grid

open List Nat

def index : List ℕ → List ℕ → ℕ
  | _ :: ds, c :: cs => c * ds.prod + index ds cs
  | _, _ => 0

def cell : List ℕ → ℕ → List ℕ
  | [], _ => []
  | _ :: ds, r => r / ds.prod :: cell ds (r % ds.prod)

def Within (cs ds : List ℕ) : Prop := List.Forall₂ (· < ·) cs ds

abbrev Positive (ds : List ℕ) : Prop := ∀ d ∈ ds, 0 < d

variable {d : ℕ} {ds cs : List ℕ}

theorem Positive.prod (h : Positive ds) : 0 < ds.prod := by
  induction ds with
  | nil => exact one_pos
  | cons d ds ih =>
    rw [prod_cons]
    exact mul_pos (h d (by simp)) (ih fun x hx => h x (by simp [hx]))

theorem Within.positive (h : Within cs ds) : Positive ds := by
  induction h with
  | nil => simp [Positive]
  | @cons c d cs ds hc _ ih =>
    intro x hx
    rcases mem_cons.1 hx with rfl | hx
    · exact zero_lt_of_lt hc
    · exact ih x hx

theorem index_lt (h : Within cs ds) : index ds cs < ds.prod := by
  induction h with
  | nil => exact one_pos
  | @cons c d cs ds hc _ ih =>
    rw [index, prod_cons]
    calc c * ds.prod + index ds cs < c * ds.prod + ds.prod := Nat.add_lt_add_left ih _
      _ = (c + 1) * ds.prod := (succ_mul c _).symm
      _ ≤ d * ds.prod := mul_le_mul_right _ hc

theorem cell_index (h : Within cs ds) : cell ds (index ds cs) = cs := by
  induction h with
  | nil => rfl
  | @cons c d cs ds _ htail ih =>
    have hlt := index_lt htail
    have hpos : 0 < ds.prod := (Within.positive htail).prod
    rw [index, cell, mul_comm, mul_add_div hpos, div_eq_of_lt hlt, add_zero, mul_add_mod,
      mod_eq_of_lt hlt, ih]

theorem length_cell (ds : List ℕ) (r : ℕ) : (cell ds r).length = ds.length := by
  induction ds generalizing r with
  | nil => rfl
  | cons d ds ih => simp [cell, ih]

theorem cell_within {r : ℕ} (hpos : Positive ds) (hr : r < ds.prod) : Within (cell ds r) ds := by
  induction ds generalizing r with
  | nil => exact .nil
  | cons d ds ih =>
    have htail : Positive ds := fun x hx => hpos x (by simp [hx])
    rw [prod_cons] at hr
    refine .cons ?_ (ih htail (mod_lt _ htail.prod))
    exact (Nat.div_lt_iff_lt_mul htail.prod).2 hr

theorem index_cell {r : ℕ} (hpos : Positive ds) (hr : r < ds.prod) : index ds (cell ds r) = r := by
  induction ds generalizing r with
  | nil =>
    rw [prod_nil, lt_one_iff] at hr
    rw [hr]
    rfl
  | cons d ds ih =>
    have htail : Positive ds := fun x hx => hpos x (by simp [hx])
    rw [cell, index, ih htail (mod_lt _ htail.prod)]
    exact div_add_mod' r _

theorem Within.index_inj {cs' : List ℕ} (h : Within cs ds) (h' : Within cs' ds) (heq : index ds cs = index ds cs') :
    cs = cs' := by
  rw [← cell_index h, heq, cell_index h']

theorem index_set {i c v : ℕ} (hlen : cs.length = ds.length) (hc : cs[i]? = some c) :
    (index ds (cs.set i v) : ℤ) = index ds cs + ((v : ℤ) - c) * (ds.drop (i + 1)).prod := by
  induction ds generalizing cs i with
  | nil =>
    rw [length_nil, length_eq_zero_iff] at hlen
    simp [hlen] at hc
  | cons d ds ih =>
    rcases cs with _ | ⟨c', cs⟩
    · simp at hlen
    rcases i with _ | i
    · simp only [getElem?_cons_zero, Option.some.injEq] at hc
      subst hc
      simp only [set_cons_zero, index, drop_succ_cons, drop_zero, Nat.cast_add, Nat.cast_mul]
      ring
    · simp only [getElem?_cons_succ] at hc
      have := ih (by simpa using hlen) hc
      simp only [set_cons_succ, index, drop_succ_cons, Nat.cast_add, Nat.cast_mul]
      rw [this]
      ring

theorem Within.set {i v : ℕ} (h : Within cs ds) (hd : ds[i]? = some d) (hv : v < d) : Within (cs.set i v) ds := by
  induction h generalizing i with
  | nil => simp at hd
  | @cons c d' cs ds hc htail ih =>
    rcases i with _ | i
    · simp only [getElem?_cons_zero, Option.some.injEq] at hd
      subst hd
      exact .cons hv htail
    · exact .cons hc (ih (by simpa using hd))

variable {α β : Type*}

/-- The entries that the flags mark. -/
def select : List Bool → List α → List α
  | true :: fs, x :: xs => x :: select fs xs
  | false :: fs, _ :: xs => select fs xs
  | _, _ => []

def unselect (fs : List Bool) (xs : List α) : List α := select (fs.map not) xs

/-- The list whose marked entries are the first one's and whose others are the second one's. -/
def merge : List Bool → List α → List α → List α
  | true :: fs, x :: xs, ys => x :: merge fs xs ys
  | false :: fs, xs, y :: ys => y :: merge fs xs ys
  | _, _, _ => []

@[simp] theorem select_nil (fs : List Bool) : select fs ([] : List α) = [] := by
  cases fs with
  | nil => rfl
  | cons f fs => cases f <;> rfl

@[simp] theorem select_cons_true (fs : List Bool) (x : α) (xs : List α) :
    select (true :: fs) (x :: xs) = x :: select fs xs := rfl

@[simp] theorem select_cons_false (fs : List Bool) (x : α) (xs : List α) :
    select (false :: fs) (x :: xs) = select fs xs := rfl

@[simp] theorem unselect_cons_true (fs : List Bool) (x : α) (xs : List α) :
    unselect (true :: fs) (x :: xs) = unselect fs xs := rfl

@[simp] theorem unselect_cons_false (fs : List Bool) (x : α) (xs : List α) :
    unselect (false :: fs) (x :: xs) = x :: unselect fs xs := rfl

theorem Within.select {fs : List Bool} (h : Within cs ds) : Within (Grid.select fs cs) (Grid.select fs ds) := by
  induction h generalizing fs with
  | nil =>
    rw [select_nil]
    exact .nil
  | cons hc _ ih =>
    rcases fs with _ | ⟨_ | _, fs⟩
    · exact .nil
    · exact ih
    · exact .cons hc ih

theorem Within.unselect {fs : List Bool} (h : Within cs ds) : Within (Grid.unselect fs cs) (Grid.unselect fs ds) :=
  h.select

theorem length_select {fs : List Bool} {xs : List α} {ys : List β} (h : xs.length = ys.length) :
    (select fs xs).length = (select fs ys).length := by
  induction fs generalizing xs ys with
  | nil => rfl
  | cons f fs ih =>
    rcases xs with _ | ⟨x, xs⟩ <;> rcases ys with _ | ⟨y, ys⟩
    · simp
    · simp at h
    · simp at h
    · have := @ih xs ys (by simpa using h)
      cases f <;> simpa using this

theorem length_select_le (fs : List Bool) (xs : List α) : (select fs xs).length ≤ xs.length := by
  induction fs generalizing xs with
  | nil => exact zero_le _
  | cons f fs ih =>
    rcases xs with _ | ⟨x, xs⟩
    · simp
    cases f with
    | true => simpa using ih xs
    | false => exact (ih xs).trans (le_succ _)

theorem Positive.select {fs : List Bool} (h : Positive ds) : Positive (Grid.select fs ds) := by
  induction fs generalizing ds with
  | nil => simp [Grid.select, Positive]
  | cons f fs ih =>
    rcases ds with _ | ⟨d, ds⟩
    · simp [Positive]
    have htail : Positive (Grid.select fs ds) := ih fun x hx => h x (by simp [hx])
    cases f with
    | true =>
      intro x hx
      rcases mem_cons.1 hx with rfl | hx
      · exact h x (by simp)
      · exact htail x hx
    | false => exact htail

theorem prod_select_le {fs : List Bool} (h : Positive ds) : (Grid.select fs ds).prod ≤ ds.prod := by
  induction fs generalizing ds with
  | nil => exact h.prod
  | cons f fs ih =>
    rcases ds with _ | ⟨d, ds⟩
    · simp
    have htail : (Grid.select fs ds).prod ≤ ds.prod := ih fun x hx => h x (by simp [hx])
    rw [prod_cons]
    cases f with
    | true => simpa using mul_le_mul_left d htail
    | false => exact htail.trans (Nat.le_mul_of_pos_left _ (h d (by simp)))

theorem eq_of_selections {fs : List Bool} {xs ys : List α} (hx : xs.length = fs.length) (hy : ys.length = fs.length)
    (hs : select fs xs = select fs ys) (hu : unselect fs xs = unselect fs ys) : xs = ys := by
  induction fs generalizing xs ys with
  | nil =>
    rw [length_nil, length_eq_zero_iff] at hx hy
    rw [hx, hy]
  | cons f fs ih =>
    rcases xs with _ | ⟨x, xs⟩
    · simp at hx
    rcases ys with _ | ⟨y, ys⟩
    · simp at hy
    cases f with
    | true =>
      rw [select_cons_true, select_cons_true, List.cons.injEq] at hs
      rw [hs.1, ih (by simpa using hx) (by simpa using hy) hs.2 hu]
    | false =>
      rw [unselect_cons_false, unselect_cons_false, List.cons.injEq] at hu
      rw [hu.1, ih (by simpa using hx) (by simpa using hy) hs hu.2]

theorem merge_spec {fs : List Bool} {ks us : List ℕ} (hlen : ds.length = fs.length) (hk : Within ks (select fs ds))
    (hu : Within us (unselect fs ds)) :
    Within (merge fs ks us) ds ∧ select fs (merge fs ks us) = ks ∧ unselect fs (merge fs ks us) = us := by
  induction fs generalizing ds ks us with
  | nil =>
    rw [length_nil, length_eq_zero_iff] at hlen
    subst hlen
    cases hk
    cases hu
    exact ⟨.nil, rfl, rfl⟩
  | cons f fs ih =>
    rcases ds with _ | ⟨d, ds⟩
    · simp at hlen
    cases f with
    | true =>
      rw [select_cons_true] at hk
      rcases hk with _ | ⟨hc, hk⟩
      obtain ⟨hw, hs, hu⟩ := ih (by simpa using hlen) hk hu
      exact ⟨.cons hc hw, congrArg _ hs, hu⟩
    | false =>
      rw [unselect_cons_false] at hu
      rcases hu with _ | ⟨hc, hu⟩
      obtain ⟨hw, hs, hu⟩ := ih (by simpa using hlen) hk hu
      exact ⟨.cons hc hw, hs, congrArg _ hu⟩

/-- The places that the flags mark, from the place `i` on. -/
def marked : List Bool → ℕ → List ℕ
  | [], _ => []
  | true :: fs, i => i :: marked fs (i + 1)
  | false :: fs, i => marked fs (i + 1)

theorem marked_lt {fs : List Bool} {i j k : ℕ} (h : (marked fs i)[j]? = some k) :
    i ≤ k ∧ k < i + fs.length ∧ j ≤ k - i := by
  induction fs generalizing i j with
  | nil => simp [marked] at h
  | cons f fs ih =>
    cases f with
    | true =>
      rcases j with _ | j
      · simp only [marked, getElem?_cons_zero, Option.some.injEq] at h
        simp only [length_cons]
        omega
      · have := ih (by simpa [marked] using h)
        simp only [length_cons]
        omega
    | false =>
      have := ih (by simpa [marked] using h)
      simp only [length_cons]
      omega

theorem select_getElem? {fs : List Bool} {xs : List α} {i j k : ℕ} (h : (marked fs i)[j]? = some k) (hlen : xs.length = fs.length) :
    (select fs xs)[j]? = xs[k - i]? := by
  induction fs generalizing xs i j with
  | nil => simp [marked] at h
  | cons f fs ih =>
    rcases xs with _ | ⟨x, xs⟩
    · simp at hlen
    cases f with
    | true =>
      rcases j with _ | j
      · simp only [marked, getElem?_cons_zero, Option.some.injEq] at h
        simp [h]
      · rw [marked, getElem?_cons_succ] at h
        obtain ⟨hle, -⟩ := marked_lt h
        rw [select_cons_true, getElem?_cons_succ, ih h (by simpa using hlen), show k - i = (k - (i + 1)) + 1 by omega,
          getElem?_cons_succ]
    | false =>
      rw [marked] at h
      obtain ⟨hle, -⟩ := marked_lt h
      rw [select_cons_false, ih h (by simpa using hlen), show k - i = (k - (i + 1)) + 1 by omega, getElem?_cons_succ]

theorem select_set {fs : List Bool} {xs : List α} {i j k : ℕ} (v : α) (h : (marked fs i)[j]? = some k)
    (hlen : xs.length = fs.length) :
    select fs (xs.set (k - i) v) = (select fs xs).set j v ∧ unselect fs (xs.set (k - i) v) = unselect fs xs := by
  induction fs generalizing xs i j with
  | nil => simp [marked] at h
  | cons f fs ih =>
    rcases xs with _ | ⟨x, xs⟩
    · simp at hlen
    cases f with
    | true =>
      rcases j with _ | j
      · simp only [marked, getElem?_cons_zero, Option.some.injEq] at h
        simp [h]
      · rw [marked, getElem?_cons_succ] at h
        obtain ⟨hle, -⟩ := marked_lt h
        obtain ⟨hs, hu⟩ := ih h (by simpa using hlen)
        rw [show k - i = (k - (i + 1)) + 1 by omega]
        exact ⟨congrArg _ hs, hu⟩
    | false =>
      rw [marked] at h
      obtain ⟨hle, -⟩ := marked_lt h
      obtain ⟨hs, hu⟩ := ih h (by simpa using hlen)
      rw [show k - i = (k - (i + 1)) + 1 by omega]
      exact ⟨hs, congrArg (x :: ·) hu⟩

end OpenMPI.Lib.Grid

/-!
## Boxes in a grid

A part of a dimension is a range of its coordinates, and one part for each dimension makes a box.  The places of its
cells in row-major order are those of the box of all dimensions but the first, once for every coordinate in the part of
the first (`box_eq`).
-/

namespace OpenMPI.Lib.Grid

open List

/-- The `length` coordinates from `start` on, in a dimension of the size. -/
structure Part where
  size : ℕ
  start : ℕ
  length : ℕ
  pos : 0 < length
  fits : start + length ≤ size

def Part.Has (d : Part) (c : ℕ) : Prop := d.start ≤ c ∧ c < d.start + d.length

instance (d : Part) (c : ℕ) : Decidable (d.Has c) := inferInstanceAs (Decidable (_ ∧ _))

def volume (parts : List Part) : ℕ := (parts.map Part.size).prod

/-- The places of the cells with every coordinate in its part. -/
def box (parts : List Part) : List ℕ :=
  (List.range (volume parts)).filter fun p =>
    decide (List.Forall₂ Part.Has parts (cell (parts.map Part.size) p))

def offset : List Part → ℕ
  | [] => 0
  | d :: parts => d.start * volume parts + offset parts

/-- The places of the cells of the box, counted from that of the first. -/
def relative : List Part → List ℕ
  | [] => [0]
  | d :: parts => (List.range d.length).flatMap fun i => (relative parts).map (i * volume parts + ·)

variable {d : Part} {parts : List Part}

@[simp] theorem volume_nil : volume [] = 1 := rfl

@[simp] theorem volume_cons : volume (d :: parts) = d.size * volume parts := by simp [volume]

theorem volume_pos : 0 < volume parts := by
  induction parts with
  | nil => exact one_pos
  | cons d parts ih =>
    have := d.pos
    have := d.fits
    rw [volume_cons]
    exact mul_pos (by omega) ih

theorem range_mul (m n : ℕ) :
    range (m * n) = (range m).flatMap fun i => (range n).map (i * n + ·) := by
  induction m with
  | zero => simp
  | succ m ih => rw [Nat.succ_mul, range_add, ih, range_succ, flatMap_append,
      flatMap_singleton]

theorem filter_has (d : Part) :
    (range d.size).filter (fun c => decide (d.Has c)) = (range d.length).map (d.start + ·) := by
  obtain ⟨k, hk⟩ := Nat.exists_eq_add_of_le d.fits
  have hbefore : (range d.start).filter (fun c => decide (d.Has c)) = [] := by
    refine filter_eq_nil_iff.mpr fun c hc => ?_
    rw [mem_range] at hc
    rw [decide_eq_true_eq]
    exact fun h => absurd h.1 (by omega)
  have hin : ((range d.length).map (d.start + ·)).filter (fun c => decide (d.Has c))
      = (range d.length).map (d.start + ·) := by
    refine filter_eq_self.mpr fun c hc => ?_
    obtain ⟨i, hi, rfl⟩ := mem_map.mp hc
    rw [mem_range] at hi
    rw [decide_eq_true_eq]
    exact ⟨by omega, by omega⟩
  have hbehind : ((range k).map (d.start + d.length + ·)).filter (fun c => decide (d.Has c))
      = [] := by
    refine filter_eq_nil_iff.mpr fun c hc => ?_
    obtain ⟨i, -, rfl⟩ := mem_map.mp hc
    rw [decide_eq_true_eq]
    exact fun h => absurd h.2 (by omega)
  rw [hk, range_add, range_add, filter_append, filter_append, hbefore, hin, hbehind,
    nil_append, append_nil]

theorem box_cons : box (d :: parts)
    = (range d.length).flatMap fun i => (box parts).map ((d.start + i) * volume parts + ·) := by
  have hrow (c : ℕ) : ((range (volume parts)).map (c * volume parts + ·)).filter (fun p =>
      decide (List.Forall₂ Part.Has (d :: parts) (cell ((d :: parts).map Part.size) p)))
        = if d.Has c then (box parts).map (c * volume parts + ·) else [] := by
    have hcell : ∀ r ∈ range (volume parts),
        (List.Forall₂ Part.Has (d :: parts) (cell ((d :: parts).map Part.size) (c * volume parts + r))
          ↔ d.Has c ∧ List.Forall₂ Part.Has parts (cell (parts.map Part.size) r)) := by
      intro r hr
      rw [mem_range] at hr
      have hdiv : (c * volume parts + r) / volume parts = c := by
        rw [mul_comm, Nat.mul_add_div volume_pos, Nat.div_eq_of_lt hr, add_zero]
      have hmod : (c * volume parts + r) % volume parts = r := by
        rw [mul_comm, Nat.mul_add_mod, Nat.mod_eq_of_lt hr]
      rw [map_cons, cell]
      change List.Forall₂ _ _ ((c * volume parts + r) / volume parts ::
        cell _ ((c * volume parts + r) % volume parts)) ↔ _
      rw [hdiv, hmod, forall₂_cons]
    rw [filter_map]
    split_ifs with hc
    · refine congrArg (List.map _) (filter_congr fun r hr => ?_)
      simp only [Function.comp_apply, hcell r hr, hc, true_and]
    · rw [map_eq_nil_iff, filter_eq_nil_iff]
      intro r hr
      simp only [Function.comp_apply, hcell r hr, hc, false_and, decide_false, Bool.false_eq_true,
        not_false_eq_true]
  have hskip (l : List ℕ) (u : ℕ → List ℕ) :
      (l.flatMap fun c => if d.Has c then u c else [])
        = (l.filter fun c => decide (d.Has c)).flatMap u := by
    induction l with
    | nil => rfl
    | cons c l ih =>
      rw [flatMap_cons, ih, filter_cons]
      by_cases hc : d.Has c <;> simp [hc]
  unfold box
  rw [volume_cons, range_mul, filter_flatMap]
  simp only [hrow]
  rw [hskip, filter_has, flatMap_map]
  rfl

theorem box_eq (parts : List Part) : box parts = (relative parts).map (offset parts + ·) := by
  induction parts with
  | nil => rfl
  | cons d parts ih =>
    rw [box_cons, relative, offset, map_flatMap]
    refine flatMap_congr fun i _ => ?_
    rw [ih, map_map, map_map]
    refine map_congr_left fun p _ => ?_
    simp only [Function.comp_apply]
    ring

end OpenMPI.Lib.Grid
