import Mathlib.Algebra.BigOperators.Group.List.Lemmas
import OpenMPI.Topo.Cart

/-!
# Sub-grids of a Cartesian communicator

The members of a sub-communicator are the processes with the same coordinates in the dropped dimensions, and the key of
each is its place in the grid of the kept ones, so the sorted list has every place once and the rank is the key
(`CartComm.lranks_key`).  A shift sets one coordinate (`cartShift_eq`), which in both communicators is the same process as
long as the period is the same; the periods of a sub-communicator are the first ones of its parent, and not those of the
kept dimensions (`CartComm.coherent_iff`).
-/

namespace OpenMPI.Topo

open List

open Groups (procNull undefined)
open Ddt (int32)
open Lib Lib.Grid

structure Grid where
  dims : List ℕ
  periods : List ℤ
  positive : Positive dims
  length_periods : periods.length = dims.length
  fits : dims.prod < 2 ^ 31

/-- What the process of rank `r` has of a communicator with the grid `g` and the processes `procs`. -/
structure Member (g : Grid) (procs : List ℕ) (r : ℕ) (comm : Comm) : Prop where
  procs : comm.procs = procs
  rank : comm.rank = r
  ndims : comm.topo.ndims = g.dims.length
  dims : comm.topo.dims.take g.dims.length = g.dims
  periods : comm.topo.periods.take g.dims.length = g.periods
  coords : comm.topo.coords.take g.dims.length = cell g.dims r

/-- A Cartesian communicator: what each of its processes has of it. -/
structure CartComm where
  grid : Grid
  procs : List ℕ
  nodup : procs.Nodup
  size : procs.length = grid.dims.prod
  view : ℕ → Comm
  member : ∀ r < grid.dims.prod, Member grid procs r (view r)

def flags (remainDims : List ℤ) : List Bool := remainDims.map (· != 0)

abbrev Grid.keptDims (g : Grid) (remainDims : List ℤ) : List ℕ := select (flags remainDims) g.dims

abbrev Grid.kept (g : Grid) (remainDims : List ℤ) (r : ℕ) : List ℕ := select (flags remainDims) (cell g.dims r)

abbrev Grid.dropped (g : Grid) (remainDims : List ℤ) (r : ℕ) : List ℕ := unselect (flags remainDims) (cell g.dims r)

abbrev Grid.place (g : Grid) (remainDims : List ℤ) (r : ℕ) : ℕ := index (g.keptDims remainDims) (g.kept remainDims r)

/-- The grid that `mca_topo_base_cart_sub` leaves: the dimensions are those kept, the periods the first ones. -/
def Grid.sub (g : Grid) (remainDims : List ℤ) : Grid where
  dims := select (flags remainDims) g.dims
  periods := g.periods.take (select (flags remainDims) g.dims).length
  positive := g.positive.select
  length_periods := by
    rw [length_take, g.length_periods]
    exact min_eq_left (length_select_le _ _)
  fits := (prod_select_le g.positive).trans_lt g.fits

/-- The colours and the keys of all processes, as the allgather of the split leaves them with each. -/
def CartComm.results (c : CartComm) (remainDims : List ℤ) : List (ℤ × ℤ) :=
  (List.range c.procs.length).map fun r => colourKey (c.view r) remainDims

def CartComm.sub (c : CartComm) (remainDims : List ℤ) (r : ℕ) : Option Comm :=
  cartSub (c.view r) remainDims (c.results remainDims)

def Comm.peer (comm : Comm) (rank : ℤ) : Option (Option ℕ) :=
  if rank = procNull then some none
  else if 0 ≤ rank then comm.procs[rank.toNat]?.map some
  else none

/-- The sub-communicator of the process `r` is the grid of the kept dimensions, its processes are those with the same
coordinates in the dropped ones, and a shift along a kept dimension reaches the process that it reaches in the parent. -/
structure CoherentAt (c : CartComm) (remainDims : List ℤ) (r : ℕ) (new : Comm) : Prop where
  rank : new.rank = c.grid.place remainDims r
  size : new.size = (c.grid.keptDims remainDims).prod
  ndims : new.topo.ndims = (c.grid.keptDims remainDims).length
  dims : new.topo.dims.take new.topo.ndims = c.grid.keptDims remainDims
  coords : new.topo.coords.take new.topo.ndims = c.grid.kept remainDims r
  shares : ∀ other (h : other < c.procs.length), c.procs[other] ∈ new.procs ↔
    c.grid.dropped remainDims other = c.grid.dropped remainDims r
  shift : ∀ direction i, (marked (flags remainDims) 0)[direction]? = some i → ∀ disp : ℤ, -2 ^ 31 ≤ disp → disp < 2 ^ 31 →
    new.peer (cartShift new direction disp).1 = (c.view r).peer (cartShift (c.view r) i disp).1 ∧
    new.peer (cartShift new direction disp).2 = (c.view r).peer (cartShift (c.view r) i disp).2

def Coherent (c : CartComm) (remainDims : List ℤ) : Prop :=
  ∀ r < c.procs.length, ∃ new, c.sub remainDims r = some new ∧ CoherentAt c remainDims r new

def SamePeriods (c : CartComm) (remainDims : List ℤ) : Prop :=
  ∀ direction i, (marked (flags remainDims) 0)[direction]? = some i →
    (c.grid.periods.getD direction 0 = 0 ↔ c.grid.periods.getD i 0 = 0)

theorem coordsLoop_eq {dims : List ℕ} (hpos : Positive dims) (rank : ℕ) : coordsLoop dims dims.prod rank = cell dims rank := by
  induction dims generalizing rank with
  | nil => rfl
  | cons d ds ih =>
    have hd : 0 < d := hpos d (by simp)
    rw [coordsLoop, cell, prod_cons, Nat.mul_div_cancel_left _ hd, ih fun x hx => hpos x (by simp [hx])]

@[simp] theorem take_fill {α : Type*} (array values : List α) : (fill array values).take values.length = values := by
  rw [fill, take_left]

theorem cartCreate_eq {topo : Cart} {procCount rank : ℕ} {created : Created} (hlen : topo.dims.length = topo.ndims)
    (h : cartCreate topo procCount rank topo.ndims = some created) (hrank : rank < topo.dims.prod) :
    Positive topo.dims ∧ created.procCount = topo.dims.prod ∧ created.newRank = rank ∧
      created.topo.coords.take topo.ndims = cell topo.dims rank := by
  rw [cartCreate, take_of_length_le hlen.le] at h
  by_cases hany : topo.dims.any (· == 0) = true
  · rw [if_pos hany] at h
    contradiction
  rw [if_neg hany] at h
  have hpos : Positive topo.dims := by
    intro d hd
    rcases Nat.eq_zero_or_pos d with rfl | hlt
    · exact absurd (any_eq_true.2 ⟨0, hd, by simp⟩) hany
    · exact hlt
  by_cases hfew : procCount < topo.dims.prod
  · rw [if_pos hfew] at h
    contradiction
  rw [if_neg hfew, if_neg (by omega), Option.some.injEq] at h
  subst h
  refine ⟨hpos, rfl, rfl, ?_⟩
  rw [take_of_length_le hlen.le, coordsLoop_eq hpos]
  have hcell : (cell topo.dims rank).length = topo.ndims := by rw [length_cell, hlen]
  rw [← hcell, take_fill]

theorem splitLoop_zip {dims coords : List ℕ} {remainDims : List ℤ} (hdims : dims.length = remainDims.length)
    (hcoords : coords.length = remainDims.length) :
    (dims.zip (coords.zip remainDims)).foldr Split.step ⟨0, 0, 1, 1, 0⟩ =
      { colour := index (unselect (flags remainDims) dims) (unselect (flags remainDims) coords)
        key := index (select (flags remainDims) dims) (select (flags remainDims) coords)
        colfactor := (unselect (flags remainDims) dims).prod
        keyfactor := (select (flags remainDims) dims).prod
        ndim := (select (flags remainDims) dims).length } := by
  induction remainDims generalizing dims coords with
  | nil => simp [flags, select, unselect, index]
  | cons r rs ih =>
    rcases dims with _ | ⟨d, ds⟩
    · simp at hdims
    rcases coords with _ | ⟨c, cs⟩
    · simp at hcoords
    rw [zip_cons_cons, zip_cons_cons, foldr_cons, ih (by simpa using hdims) (by simpa using hcoords)]
    by_cases hr : r = 0
    · have hflag : flags (r :: rs) = false :: flags rs := by simp [flags, hr]
      rw [Split.step, if_pos hr, hflag]
      simp only [select_cons_false, unselect_cons_false, index, prod_cons, Split.mk.injEq, and_true, true_and]
      constructor
      · rw [add_comm, mul_comm]
      · rw [mul_comm]
    · have hflag : flags (r :: rs) = true :: flags rs := by simp [flags, hr]
      rw [Split.step, if_neg hr, hflag]
      simp only [select_cons_true, unselect_cons_true, index, prod_cons, Split.mk.injEq, true_and, length_cons]
      refine ⟨?_, ?_, trivial⟩
      · rw [add_comm, mul_comm]
      · rw [mul_comm]

theorem keptLoop_zip {dims : List ℕ} {remainDims : List ℤ} (hdims : dims.length = remainDims.length) :
    keptLoop (dims.zip remainDims) = select (flags remainDims) dims := by
  induction remainDims generalizing dims with
  | nil => simp [flags, select, keptLoop]
  | cons r rs ih =>
    rcases dims with _ | ⟨d, ds⟩
    · simp at hdims
    rw [zip_cons_cons, keptLoop, ih (by simpa using hdims)]
    by_cases hr : r = 0
    · have hflag : flags (r :: rs) = false :: flags rs := by simp [flags, hr]
      rw [if_pos hr, hflag, select_cons_false]
    · have hflag : flags (r :: rs) = true :: flags rs := by simp [flags, hr]
      rw [if_neg hr, hflag, select_cons_true]

theorem zip_take {α β : Type*} (xs : List α) (ys : List β) (n : ℕ) : (xs.zip ys).take n = (xs.take n).zip (ys.take n) :=
  take_zipWith

section Members
variable {g : Grid} {procs : List ℕ} {r : ℕ} {comm : Comm} {remainDims : List ℤ}

theorem Member.splitLoop (m : Member g procs r comm) (hlen : remainDims.length = g.dims.length) :
    splitLoop comm.topo remainDims =
      { colour := index (unselect (flags remainDims) g.dims) (g.dropped remainDims r)
        key := g.place remainDims r
        colfactor := (unselect (flags remainDims) g.dims).prod
        keyfactor := (g.keptDims remainDims).prod
        ndim := (g.keptDims remainDims).length } := by
  rw [Topo.splitLoop, m.ndims, zip_take, zip_take, m.dims, m.coords, take_of_length_le hlen.le]
  exact splitLoop_zip hlen.symm ((length_cell _ _).trans hlen.symm)

theorem Member.colourKey (m : Member g procs r comm) (hlen : remainDims.length = g.dims.length) :
    colourKey comm remainDims =
      (if (g.keptDims remainDims).length = 0 then (r : ℤ)
        else index (unselect (flags remainDims) g.dims) (g.dropped remainDims r),
        (g.place remainDims r : ℤ)) := by
  rw [Topo.colourKey, m.splitLoop hlen, m.rank]

end Members

theorem place_index {g : Grid} {remainDims : List ℤ} {cs : List ℕ} (h : Within cs g.dims) :
    g.place remainDims (index g.dims cs) = index (g.keptDims remainDims) (select (flags remainDims) cs) := by
  rw [Grid.place, Grid.kept, cell_index h]

theorem dropped_index {g : Grid} {remainDims : List ℤ} {cs : List ℕ} (h : Within cs g.dims) :
    g.dropped remainDims (index g.dims cs) = unselect (flags remainDims) cs := by
  rw [Grid.dropped, cell_index h]

theorem cell_eq_of_selections {g : Grid} {remainDims : List ℤ} {p q : ℕ} (hlen : remainDims.length = g.dims.length)
    (hp : p < g.dims.prod) (hq : q < g.dims.prod)
    (hs : g.kept remainDims p = g.kept remainDims q)
    (hu : g.dropped remainDims p = g.dropped remainDims q) : p = q := by
  have hflags : (flags remainDims).length = g.dims.length := by rw [flags, length_map, hlen]
  have hcell := eq_of_selections ((length_cell _ _).trans hflags.symm) ((length_cell _ _).trans hflags.symm) hs hu
  rw [← index_cell g.positive hp, hcell, index_cell g.positive hq]

theorem CartComm.colour_eq_iff (c : CartComm) {remainDims : List ℤ} (hlen : remainDims.length = c.grid.dims.length) {p q : ℕ}
    (hp : p < c.grid.dims.prod) (hq : q < c.grid.dims.prod) :
    (colourKey (c.view p) remainDims).1 = (colourKey (c.view q) remainDims).1 ↔
      c.grid.dropped remainDims p = c.grid.dropped remainDims q := by
  rw [(c.member p hp).colourKey hlen, (c.member q hq).colourKey hlen]
  by_cases hnone : (c.grid.keptDims remainDims).length = 0
  · simp only [if_pos hnone, Nat.cast_inj]
    refine ⟨fun h => by rw [h], fun hu => cell_eq_of_selections hlen hp hq ?_ hu⟩
    have hempty : ∀ r, c.grid.kept remainDims r = [] := fun r =>
      length_eq_zero_iff.1 ((length_select (length_cell _ _)).trans hnone)
    rw [hempty, hempty]
  · simp only [if_neg hnone, Nat.cast_inj]
    refine ⟨fun h => ?_, fun h => by rw [h]⟩
    exact (cell_within c.grid.positive hp).unselect.index_inj (cell_within c.grid.positive hq).unselect h

theorem rankkeycompare_le {a b : ℕ × ℤ} : rankkeycompare a b ≤ 0 ↔ a.2 < b.2 ∨ a.2 = b.2 ∧ a.1 ≤ b.1 := by
  rw [rankkeycompare]
  by_cases hlt : a.2 < b.2
  · simp [hlt]
  rw [if_neg hlt]
  by_cases hgt : a.2 > b.2
  · rw [if_pos hgt]
    omega
  rw [if_neg hgt]
  by_cases hrank : a.1 < b.1
  · rw [if_pos hrank]
    omega
  rw [if_neg hrank]
  by_cases heq : a.1 = b.1
  · rw [if_pos heq]
    omega
  · rw [if_neg heq]
    omega

theorem members_eq (n : ℕ) (f : ℕ → ℤ × ℤ) (color : ℤ) :
    ((((range n).map f).zipIdx.filter fun r => r.1.1 = color).map fun r => (r.2, r.1.2)) =
      ((range n).filter fun r => (f r).1 = color).map fun r => (r, (f r).2) := by
  have hzip : ((range n).map f).zipIdx = (range n).map fun r => (f r, r) := by
    refine ext_getElem (by simp) fun i h1 h2 => ?_
    simp
  rw [hzip, filter_map, map_map]
  rfl

theorem mem_splitRanks {n : ℕ} {f : ℕ → ℤ × ℤ} {color : ℤ} {r : ℕ} :
    r ∈ splitRanks ((range n).map f) color ↔ r < n ∧ (f r).1 = color := by
  rw [splitRanks, members_eq]
  simp [mem_insertionSort]

instance : Std.Total fun a b : ℕ × ℤ => rankkeycompare a b ≤ 0 where
  total a b := by
    rw [rankkeycompare_le, rankkeycompare_le]
    omega

instance : IsTrans (ℕ × ℤ) fun a b => rankkeycompare a b ≤ 0 where
  trans a b c := by
    rw [rankkeycompare_le, rankkeycompare_le, rankkeycompare_le]
    omega

theorem splitRanks_keys {n K : ℕ} {f : ℕ → ℤ × ℤ} {color : ℤ}
    (hkey : ∀ r < n, (f r).1 = color → ∃ k < K, (f r).2 = (k : ℕ))
    (hall : ∀ k < K, ∃ r < n, (f r).1 = color ∧ (f r).2 = (k : ℕ))
    (hinj : ∀ q < n, ∀ r < n, (f q).1 = color → (f r).1 = color → (f q).2 = (f r).2 → q = r) :
    (splitRanks ((range n).map f) color).map (fun r => (f r).2) = (range K).map (Nat.cast : ℕ → ℤ) := by
  set members := ((range n).filter fun r => (f r).1 = color).map fun r => (r, (f r).2) with hmembers
  set sorted := members.insertionSort fun a b => rankkeycompare a b ≤ 0 with hsorted
  have hmem : ∀ x ∈ sorted, x.1 < n ∧ (f x.1).1 = color ∧ x.2 = (f x.1).2 := by
    intro x hx
    rw [hsorted, mem_insertionSort, hmembers, mem_map] at hx
    obtain ⟨r, hr, rfl⟩ := hx
    rw [mem_filter, mem_range, decide_eq_true_eq] at hr
    exact ⟨hr.1, hr.2, rfl⟩
  have hnodup : sorted.Nodup := by
    rw [hsorted, (perm_insertionSort _ _).nodup_iff, hmembers]
    exact (List.nodup_range.filter _).map fun q r heq => (Prod.mk.inj heq).1
  have hmap : (splitRanks ((range n).map f) color).map (fun r => (f r).2) = sorted.map Prod.snd := by
    rw [splitRanks, members_eq, ← hmembers, map_map]
    exact map_congr_left fun x hx => (hmem x hx).2.2.symm
  have hstrict : (sorted.map Prod.snd).Pairwise (· < ·) := by
    rw [pairwise_map]
    have hle : sorted.Pairwise fun a b => rankkeycompare a b ≤ 0 := pairwise_insertionSort _ members
    refine (hle.and hnodup).imp_of_mem ?_
    rintro ⟨a, x⟩ ⟨b, y⟩ ha hb ⟨hcmp, hne⟩
    rcases rankkeycompare_le.1 hcmp with hlt | ⟨hxy, -⟩
    · exact hlt
    · obtain ⟨han, hac, hax⟩ := hmem _ ha
      obtain ⟨hbn, hbc, hby⟩ := hmem _ hb
      have hab : a = b := hinj a han b hbn hac hbc (by rw [← hax, ← hby]; exact hxy)
      exact absurd (Prod.ext hab hxy) hne
  have hrange : ((range K).map (Nat.cast : ℕ → ℤ)).Pairwise (· < ·) := by
    rw [pairwise_map]
    exact List.pairwise_lt_range.imp fun h => by exact_mod_cast h
  rw [hmap]
  refine hstrict.sortedLT.eq_of_mem_iff hrange.sortedLT fun x => ?_
  rw [← hmap, mem_map, mem_map]
  constructor
  · rintro ⟨r, hr, rfl⟩
    obtain ⟨hr, hcolor⟩ := mem_splitRanks.1 hr
    obtain ⟨k, hk, hfr⟩ := hkey r hr hcolor
    exact ⟨k, mem_range.2 hk, hfr.symm⟩
  · rintro ⟨k, hk, rfl⟩
    obtain ⟨r, hr, hcolor, hfr⟩ := hall k (mem_range.1 hk)
    exact ⟨r, mem_splitRanks.2 ⟨hr, hcolor⟩, hfr⟩

namespace CartComm

variable (c : CartComm) {remainDims : List ℤ}

def lranks (remainDims : List ℤ) (p : ℕ) : List ℕ :=
  splitRanks (c.results remainDims) (colourKey (c.view p) remainDims).1

theorem mem_lranks (hlen : remainDims.length = c.grid.dims.length) {p q : ℕ} (hp : p < c.grid.dims.prod) :
    q ∈ c.lranks remainDims p ↔ q < c.grid.dims.prod ∧
      c.grid.dropped remainDims q = c.grid.dropped remainDims p := by
  rw [lranks, results, mem_splitRanks, c.size]
  exact and_congr_right fun hq => c.colour_eq_iff hlen hq hp

theorem length_flags {g : Grid} (hlen : remainDims.length = g.dims.length) : g.dims.length = (flags remainDims).length := by
  rw [flags, length_map, hlen]

section

variable (hlen : remainDims.length = c.grid.dims.length)

include hlen

theorem lranks_key {p : ℕ} (hp : p < c.grid.dims.prod) :
    (c.lranks remainDims p).map (c.grid.place remainDims) =
      range (c.grid.keptDims remainDims).prod := by
  have hsame := fun q (hq : q < c.grid.dims.prod) => c.colour_eq_iff hlen hq hp
  have hkeys := @splitRanks_keys c.grid.dims.prod (c.grid.keptDims remainDims).prod (fun q => colourKey (c.view q) remainDims)
    (colourKey (c.view p) remainDims).1 ?_ ?_ ?_
  · refine map_injective_iff.2 (@Nat.cast_injective ℤ _ _) ?_
    rw [← hkeys, map_map, lranks, results, c.size]
    refine map_congr_left fun q hq => ?_
    rw [(c.member q (mem_splitRanks.1 hq).1).colourKey hlen]
    rfl
  · intro q hq _
    rw [(c.member q hq).colourKey hlen]
    exact ⟨_, index_lt (cell_within c.grid.positive hq).select, rfl⟩
  · intro k hk
    have hkept : Positive (c.grid.keptDims remainDims) := (cell_within c.grid.positive hp).select.positive
    obtain ⟨hw, hs, hu⟩ := merge_spec (length_flags hlen) (cell_within hkept hk) (cell_within c.grid.positive hp).unselect
    refine ⟨_, index_lt hw, (hsame _ (index_lt hw)).2 ?_, ?_⟩
    · rw [dropped_index hw, hu]
    · rw [(c.member _ (index_lt hw)).colourKey hlen, place_index hw, hs, index_cell hkept hk]
  · intro q hq r hr hqc hrc heq
    rw [(c.member q hq).colourKey hlen, (c.member r hr).colourKey hlen] at heq
    refine cell_eq_of_selections hlen hq hr ?_ (((hsame q hq).1 hqc).trans ((hsame r hr).1 hrc).symm)
    exact (cell_within c.grid.positive hq).select.index_inj (cell_within c.grid.positive hr).select (Nat.cast_injective heq)

theorem lranks_getElem? {p q : ℕ} (hp : p < c.grid.dims.prod)
    (hq : q ∈ c.lranks remainDims p) :
    (c.lranks remainDims p)[c.grid.place remainDims q]? =
      some q := by
  have hkey := c.lranks_key hlen hp
  obtain ⟨hqn, hqu⟩ := (c.mem_lranks hlen hp).1 hq
  set k := c.grid.place remainDims q with hk
  have hlt : k < (c.grid.keptDims remainDims).prod := index_lt (cell_within c.grid.positive hqn).select
  have hat : ((c.lranks remainDims p).map (c.grid.place remainDims))[k]? = some k := by
    rw [hkey, getElem?_range hlt]
  rw [getElem?_map, Option.map_eq_some_iff] at hat
  obtain ⟨r, hr, hrk⟩ := hat
  obtain ⟨hrn, hru⟩ := (c.mem_lranks hlen hp).1 (mem_of_getElem? hr)
  have hrq : r = q := cell_eq_of_selections hlen hrn hqn
    ((cell_within c.grid.positive hrn).select.index_inj (cell_within c.grid.positive hqn).select hrk) (hru.trans hqu.symm)
  rw [hr, hrq]

theorem lranks_nodup {p : ℕ} (hp : p < c.grid.dims.prod) :
    (c.lranks remainDims p).Nodup := by
  refine List.Nodup.of_map (c.grid.place remainDims) ?_
  rw [c.lranks_key hlen hp]
  exact nodup_range

theorem length_lranks {p : ℕ} (hp : p < c.grid.dims.prod) :
    (c.lranks remainDims p).length = (c.grid.keptDims remainDims).prod := by
  rw [← @length_map _ _ _ (c.grid.place remainDims), c.lranks_key hlen hp, length_range]

end

def subProcs (remainDims : List ℤ) (p : ℕ) : List ℕ := (c.lranks remainDims p).map fun q => c.procs.getD q 0

theorem procs_getD {q : ℕ} (hq : q < c.grid.dims.prod) : ∃ h : q < c.procs.length, c.procs.getD q 0 = c.procs[q] := by
  have h : q < c.procs.length := c.size ▸ hq
  exact ⟨h, by simp [getD_eq_getElem?_getD, h]⟩

theorem getD_inj {q r : ℕ} (hq : q < c.grid.dims.prod) (hr : r < c.grid.dims.prod)
    (heq : c.procs.getD q 0 = c.procs.getD r 0) : q = r := by
  obtain ⟨hq', hqp⟩ := c.procs_getD hq
  obtain ⟨hr', hrp⟩ := c.procs_getD hr
  rw [hqp, hrp] at heq
  exact (c.nodup.getElem_inj_iff).1 heq

section

variable (hlen : remainDims.length = c.grid.dims.length)

include hlen

theorem subProcs_nodup {p : ℕ} (hp : p < c.grid.dims.prod) :
    (c.subProcs remainDims p).Nodup := by
  refine List.Nodup.map_on (fun q hq r hr heq => ?_) (c.lranks_nodup hlen hp)
  exact c.getD_inj ((c.mem_lranks hlen hp).1 hq).1 ((c.mem_lranks hlen hp).1 hr).1 heq

theorem idxOf_subProcs {p q : ℕ} (hp : p < c.grid.dims.prod)
    (hq : q ∈ c.lranks remainDims p) : (c.subProcs remainDims p).idxOf (c.procs.getD q 0) = c.grid.place remainDims q := by
  have hat := c.lranks_getElem? hlen hp hq
  obtain ⟨hlt, hget⟩ := List.getElem?_eq_some_iff.1 hat
  have hlt' : c.grid.place remainDims q < (c.subProcs remainDims p).length := by
    rw [subProcs, length_map]
    exact hlt
  have hproc : (c.subProcs remainDims p)[c.grid.place remainDims q] = c.procs.getD q 0 := by
    simp only [subProcs, getElem_map]
    rw [hget]
  rw [← hproc]
  exact (c.subProcs_nodup hlen hp).idxOf_getElem _ hlt'

theorem self_mem_lranks {p : ℕ} (hp : p < c.grid.dims.prod) :
    p ∈ c.lranks remainDims p := (c.mem_lranks hlen hp).2 ⟨hp, rfl⟩

theorem colour_nonneg {p : ℕ} (hp : p < c.grid.dims.prod) :
    (colourKey (c.view p) remainDims).1 ≠ undefined := by
  rw [(c.member p hp).colourKey hlen]
  show (if _ then _ else _ : ℤ) ≠ -32766
  by_cases hnone : (c.grid.keptDims remainDims).length = 0
  · rw [if_pos hnone]
    omega
  · rw [if_neg hnone]
    omega

theorem sub_eq {p : ℕ} (hp : p < c.grid.dims.prod) :
    ∃ new, c.sub remainDims p = some new ∧
      Member (c.grid.sub remainDims) (c.subProcs remainDims p) (c.grid.place remainDims p) new := by
  have m := c.member p hp
  have hrank := c.idxOf_subProcs hlen hp (c.self_mem_lranks hlen hp)
  have hprocs : (splitRanks (c.results remainDims) (colourKey (c.view p) remainDims).1).map
      (fun q => (c.view p).procs.getD q 0) = c.subProcs remainDims p := by
    rw [m.procs]
    rfl
  rw [CartComm.sub, cartSub, commSplit, if_neg (c.colour_nonneg hlen hp), hprocs, m.rank, m.procs, hrank, m.splitLoop hlen]
  refine ⟨_, rfl, ?_⟩
  dsimp only
  have hsize : (c.subProcs remainDims p).length = (c.grid.keptDims remainDims).prod := by
    rw [subProcs, length_map, c.length_lranks hlen hp]
  have hkept : keptLoop (((c.view p).topo.dims.zip remainDims).take (c.view p).topo.ndims) = c.grid.keptDims remainDims := by
    rw [m.ndims, zip_take, m.dims, take_of_length_le hlen.le, keptLoop_zip hlen.symm]
  by_cases hnone : (c.grid.keptDims remainDims).length = 0
  · have hempty : c.grid.keptDims remainDims = [] := length_eq_zero_iff.1 hnone
    have hsub : (c.grid.sub remainDims).dims.length = 0 := hnone
    rw [if_neg (by omega)]
    refine ⟨rfl, rfl, rfl, ?_, ?_, ?_⟩
    · rw [hsub, take_zero]
      exact hempty.symm
    · rw [hsub, take_zero]
      exact (length_eq_zero_iff.1 ((c.grid.sub remainDims).length_periods.trans hsub)).symm
    · rw [hsub, take_zero]
      exact (length_eq_zero_iff.1 ((length_cell _ _).trans hsub)).symm
  · have hdims : (c.view p).topo.ndims ≠ 0 := by
      rw [m.ndims]
      have hle : (c.grid.keptDims remainDims).length ≤ c.grid.dims.length := length_select_le _ _
      omega
    rw [if_pos (by omega), copyTopo, if_neg hdims, hkept]
    refine ⟨rfl, rfl, rfl, take_fill _ _, ?_, ?_⟩
    · show ((c.view p).topo.periods.take _).take _ = c.grid.periods.take _
      rw [m.ndims, m.periods]
      rfl
    · show (fill _ (coordsLoop (((fill _ _).take _).take _) (c.subProcs remainDims p).length _)).take _ = _
      rw [take_fill, take_length, hsize, coordsLoop_eq c.grid.positive.select]
      have hcell : (c.grid.sub remainDims).dims.length = (cell (c.grid.keptDims remainDims) (c.grid.place remainDims p)).length :=
        (length_cell _ _).symm
      rw [hcell]
      exact take_fill _ _

end

end CartComm

/-- The rank of the process whose coordinate in the dimension `i` is `target`, which wraps around where it may. -/
def moved (dims cs : List ℕ) (i d : ℕ) (period target : ℤ) : ℤ :=
  if (target < 0 ∨ target ≥ d) ∧ period = 0 then procNull else index dims (cs.set i (target % d).toNat)

theorem tmod_wrapped {d : ℕ} (hd : 0 < d) (x : ℤ) :
    (if x.tmod d < 0 then x.tmod d + d else x.tmod d) = x % d := by
  have hd' : (0 : ℤ) < d := by exact_mod_cast hd
  have hnonneg := Int.emod_nonneg x hd'.ne'
  have hlt := Int.emod_lt_of_pos x hd'
  rw [Int.tmod_eq_emod]
  by_cases h : 0 ≤ x ∨ (d : ℤ) ∣ x
  · rw [if_pos h, Nat.cast_zero, Int.sub_zero, if_neg (not_lt.2 hnonneg)]
  · rw [if_neg h, Int.natAbs_natCast, if_pos (by omega), Int.sub_add_cancel]

theorem shiftRank_eq {dims cs : List ℕ} {i d o : ℕ} (hw : Within cs dims) (hd : dims[i]? = some d) (ho : cs[i]? = some o)
    (period target : ℤ) :
    shiftRank (index dims cs) o (dims.drop (i + 1)).prod d period target = moved dims cs i d period target := by
  rw [shiftRank, moved]
  by_cases hout : (target < 0 ∨ target ≥ d) ∧ period = 0
  · rw [if_pos hout, if_pos hout]
  have hdpos : 0 < d := hw.positive d (mem_of_getElem? hd)
  have hnonneg := Int.emod_nonneg target (show (d : ℤ) ≠ 0 by omega)
  rw [if_neg hout, if_neg hout]
  simp only [tmod_wrapped hdpos]
  rw [index_set hw.length_eq ho, Int.toNat_of_nonneg hnonneg]

theorem shiftLoop_eq {dims : List ℕ} {periods : List ℤ} (hpos : Positive dims) {i d : ℕ} {q : ℤ} (hd : dims[i]? = some d)
    (hq : periods[i]? = some q) (ord this : ℕ) (thisperiod : ℤ) :
    ∃ left, shiftLoop ((dims.zip periods).take (i + 1)) ord dims.prod this thisperiod = (left, (dims.drop (i + 1)).prod, d, q) ∧
      (cell dims (ord % dims.prod))[i]? = some (left / (dims.drop (i + 1)).prod) := by
  induction dims generalizing periods i ord this thisperiod with
  | nil => simp at hd
  | cons d' ds ih =>
    rcases periods with _ | ⟨q', qs⟩
    · simp at hq
    have hd' : 0 < d' := hpos d' (by simp)
    rw [zip_cons_cons, take_succ_cons, shiftLoop]
    have hfactor : (d' :: ds).prod / d' = ds.prod := by rw [prod_cons, Nat.mul_div_cancel_left _ hd']
    rw [hfactor]
    rcases i with _ | i
    · simp only [getElem?_cons_zero, Option.some.injEq] at hd hq
      subst hd hq
      refine ⟨ord % (d' :: ds).prod, ?_, ?_⟩
      · simp [shiftLoop]
      · simp [cell]
    · obtain ⟨left, hloop, hcell⟩ := ih (fun x hx => hpos x (by simp [hx])) (by simpa using hd) (by simpa using hq)
        (ord % (d' :: ds).prod) d' q'
      refine ⟨left, hloop, ?_⟩
      rw [cell, getElem?_cons_succ]
      exact hcell

theorem int32_of_fits {x : ℤ} (hlow : -2 ^ 31 ≤ x) (hhigh : x < 2 ^ 31) : int32 x = x :=
  Int.bmod_eq_of_le (by omega) (by omega)

theorem Grid.size_fits (g : Grid) {i d : ℕ} (hd : g.dims[i]? = some d) : 0 < d ∧ d < 2 ^ 31 := by
  have hmem := mem_of_getElem? hd
  have hle : d ≤ g.dims.prod := Nat.le_of_dvd g.positive.prod (dvd_prod hmem)
  exact ⟨g.positive d hmem, hle.trans_lt g.fits⟩

theorem moved_self {dims cs : List ℕ} {i d o : ℕ} (ho : cs[i]? = some o) (hlt : o < d) (q : ℤ) :
    moved dims cs i d q o = index dims cs := by
  obtain ⟨hi, hget⟩ := List.getElem?_eq_some_iff.1 ho
  rw [moved, if_neg (by omega), Int.emod_eq_of_lt (by omega) (by omega), Int.toNat_natCast, ← hget, set_getElem_self]

theorem cartShift_eq {g : Grid} {procs : List ℕ} {r : ℕ} {comm : Comm} (m : Member g procs r comm) (hsize : procs.length = g.dims.prod)
    (hr : r < g.dims.prod) {i d o : ℕ} {q : ℤ} (hd : g.dims[i]? = some d) (hq : g.periods[i]? = some q)
    (ho : (cell g.dims r)[i]? = some o) (disp : ℤ) :
    cartShift comm i disp = (moved g.dims (cell g.dims r) i d q (int32 (o - disp)), moved g.dims (cell g.dims r) i d q (int32 (o + disp))) := by
  have hw := cell_within g.positive hr
  obtain ⟨left, hloop, hcell⟩ := shiftLoop_eq g.positive hd hq r 0 0
  rw [Nat.mod_eq_of_lt hr, ho, Option.some.injEq] at hcell
  rw [cartShift, m.rank]
  by_cases hzero : disp = 0
  · have hlt : o < d := by
      obtain ⟨hi, rfl⟩ := List.getElem?_eq_some_iff.1 ho
      obtain ⟨hi', rfl⟩ := List.getElem?_eq_some_iff.1 hd
      exact hw.get hi hi'
    have hfits := (g.size_fits hd).2
    rw [if_pos hzero, hzero, Int.sub_zero, add_zero, int32_of_fits (by omega) (by omega), moved_self ho hlt,
      index_cell g.positive hr]
  · rw [if_neg hzero, Comm.size, m.procs, hsize, m.ndims, zip_take, m.dims, m.periods, hloop]
    simp only [← hcell]
    have hindex : index g.dims (cell g.dims r) = r := index_cell g.positive hr
    have hmove := fun target => shiftRank_eq hw hd ho q target
    rw [hindex] at hmove
    rw [hmove, hmove]

theorem peer_natCast (comm : Comm) (k : ℕ) : comm.peer k = comm.procs[k]?.map some := by
  have hne : (k : ℤ) ≠ procNull := by
    rw [procNull]
    omega
  rw [Comm.peer, if_neg hne, if_pos (Int.natCast_nonneg k), Int.toNat_natCast]

theorem peer_procNull (comm : Comm) : comm.peer procNull = some none := if_pos rfl

namespace CartComm

variable (c : CartComm) {remainDims : List ℤ} {p : ℕ} {new : Comm}

section

variable (hlen : remainDims.length = c.grid.dims.length)

include hlen

theorem peer_index (hp : p < c.grid.dims.prod)
    (hprocs : new.procs = c.subProcs remainDims p) {direction i d v : ℕ} (hi : (marked (flags remainDims) 0)[direction]? = some i)
    (hd : c.grid.dims[i]? = some d) (hv : v < d) :
    ∃ proc, new.peer (index (c.grid.keptDims remainDims) ((c.grid.kept remainDims p).set direction v)) = some (some proc) ∧
      (c.view p).peer (index c.grid.dims ((cell c.grid.dims p).set i v)) = some (some proc) := by
  have hflags : (cell c.grid.dims p).length = (flags remainDims).length := (length_cell _ _).trans (length_flags hlen)
  have hw : Within ((cell c.grid.dims p).set i v) c.grid.dims := (cell_within c.grid.positive hp).set hd hv
  obtain ⟨hs, hu⟩ := select_set v hi hflags
  rw [Nat.sub_zero] at hs hu
  have hmem : index c.grid.dims ((cell c.grid.dims p).set i v) ∈ c.lranks remainDims p := by
    refine (c.mem_lranks hlen hp).2 ⟨index_lt hw, ?_⟩
    rw [dropped_index hw, hu]
  have hat := c.lranks_getElem? hlen hp hmem
  rw [place_index hw, hs] at hat
  obtain ⟨h, hget⟩ := c.procs_getD (index_lt hw)
  refine ⟨c.procs.getD (index c.grid.dims ((cell c.grid.dims p).set i v)) 0, ?_, ?_⟩
  · rw [peer_natCast, hprocs, subProcs, getElem?_map, hat]
    rfl
  · rw [peer_natCast, (c.member p hp).procs, hget, getElem?_eq_getElem h]
    rfl

theorem peer_moved (hp : p < c.grid.dims.prod)
    (hprocs : new.procs = c.subProcs remainDims p) {direction i d : ℕ} (hi : (marked (flags remainDims) 0)[direction]? = some i)
    (hd : c.grid.dims[i]? = some d) (q q' target : ℤ) :
    new.peer (moved (c.grid.keptDims remainDims) (c.grid.kept remainDims p) direction d q target) =
        (c.view p).peer (moved c.grid.dims (cell c.grid.dims p) i d q' target) ↔
      ((target < 0 ∨ target ≥ d) → (q = 0 ↔ q' = 0)) := by
  have hd0 : 0 < d := (c.grid.size_fits hd).1
  have hv : (target % d).toNat < d := by
    have := Int.emod_lt_of_pos target (show (0 : ℤ) < d by omega)
    omega
  obtain ⟨proc, hnew, hold⟩ := c.peer_index hlen hp hprocs hi hd hv
  rw [moved, moved]
  by_cases hout : target < 0 ∨ target ≥ d
  · rcases eq_or_ne q 0 with hq | hq <;> rcases eq_or_ne q' 0 with hq' | hq'
    · rw [if_pos ⟨hout, hq⟩, if_pos ⟨hout, hq'⟩, peer_procNull, peer_procNull]
      simp [hq, hq']
    · rw [if_pos ⟨hout, hq⟩, if_neg (fun h => hq' h.2), peer_procNull, hold]
      simp [hq, hq', hout]
    · rw [if_neg (fun h => hq h.2), if_pos ⟨hout, hq'⟩, peer_procNull, hnew]
      simp [hq, hq', hout]
    · rw [if_neg (fun h => hq h.2), if_neg (fun h => hq' h.2), hnew, hold]
      simp [hq, hq']
  · rw [if_neg (fun h => hout h.1), if_neg (fun h => hout h.1), hnew, hold]
    simp [hout]

theorem kept_dimension (p : ℕ) {direction i : ℕ}
    (hi : (marked (flags remainDims) 0)[direction]? = some i) :
    ∃ d o, c.grid.dims[i]? = some d ∧ (c.grid.keptDims remainDims)[direction]? = some d ∧
      (cell c.grid.dims p)[i]? = some o ∧ (c.grid.kept remainDims p)[direction]? = some o ∧
      c.grid.periods[i]? = some (c.grid.periods.getD i 0) ∧
      (c.grid.sub remainDims).periods[direction]? = some (c.grid.periods.getD direction 0) := by
  obtain ⟨-, hlt, hle⟩ := marked_lt hi
  have hflags := length_flags hlen
  have hi' : i < c.grid.dims.length := by omega
  have hcell : i < (cell c.grid.dims p).length := by
    rw [length_cell]
    exact hi'
  have hperiods : i < c.grid.periods.length := by
    rw [c.grid.length_periods]
    exact hi'
  have hsel := select_getElem? hi hflags
  have hsel' := select_getElem? hi ((length_cell c.grid.dims p).trans hflags)
  rw [Nat.sub_zero] at hsel hsel'
  rw [getElem?_eq_getElem hi'] at hsel
  rw [getElem?_eq_getElem hcell] at hsel'
  have hdir : direction < (c.grid.keptDims remainDims).length := (List.getElem?_eq_some_iff.1 hsel).1
  refine ⟨_, _, getElem?_eq_getElem hi', hsel, getElem?_eq_getElem hcell, hsel', ?_, ?_⟩
  · simp [getD_eq_getElem?_getD, hperiods]
  · have hperiods' : direction < c.grid.periods.length := by omega
    show (c.grid.periods.take _)[direction]? = _
    rw [getElem?_take_of_lt hdir]
    simp [getD_eq_getElem?_getD, hperiods']

theorem coherentAt_of_shift (hp : p < c.grid.dims.prod)
    (m : Member (c.grid.sub remainDims) (c.subProcs remainDims p) (c.grid.place remainDims p) new)
    (hsame : SamePeriods c remainDims) : CoherentAt c remainDims p new := by
  have hprod : (c.subProcs remainDims p).length = (c.grid.sub remainDims).dims.prod := by
    rw [subProcs, length_map, c.length_lranks hlen hp]
    rfl
  refine ⟨m.rank, ?_, m.ndims, ?_, ?_, fun other hother => ?_, fun direction i hi disp _ _ => ?_⟩
  · rw [Comm.size, m.procs, hprod]
    rfl
  · rw [m.ndims]
    exact m.dims
  · rw [m.ndims, m.coords]
    exact cell_index (cell_within c.grid.positive hp).select
  · have hother' : other < c.grid.dims.prod := c.size ▸ hother
    obtain ⟨_, hget⟩ := c.procs_getD hother'
    rw [← hget, m.procs, subProcs, mem_map]
    constructor
    · rintro ⟨q, hq, heq⟩
      obtain ⟨hqn, hu⟩ := (c.mem_lranks hlen hp).1 hq
      rw [← c.getD_inj hqn hother' heq]
      exact hu
    · exact fun hu => ⟨other, (c.mem_lranks hlen hp).2 ⟨hother', hu⟩, rfl⟩
  · obtain ⟨d, o, hd, hsd, ho, hso, hq, hsq⟩ := c.kept_dimension hlen p hi
    have hplace : c.grid.place remainDims p < (c.grid.sub remainDims).dims.prod :=
      index_lt (cell_within c.grid.positive hp).select
    have hcell : cell (c.grid.sub remainDims).dims (c.grid.place remainDims p) = c.grid.kept remainDims p :=
      cell_index (cell_within c.grid.positive hp).select
    rw [← hcell] at hso
    rw [cartShift_eq (c.member p hp) c.size hp hd hq ho, cartShift_eq m hprod hplace hsd hsq hso, hcell]
    have hpeer := fun target => (c.peer_moved hlen hp m.procs hi hd (c.grid.periods.getD direction 0)
      (c.grid.periods.getD i 0) target).2 fun _ => hsame direction i hi
    exact ⟨hpeer _, hpeer _⟩

theorem samePeriods_of_shift (hp : p < c.grid.dims.prod)
    (m : Member (c.grid.sub remainDims) (c.subProcs remainDims p) (c.grid.place remainDims p) new)
    (h : CoherentAt c remainDims p new) : SamePeriods c remainDims := by
  intro direction i hi
  obtain ⟨d, o, hd, hsd, ho, hso, hq, hsq⟩ := c.kept_dimension hlen p hi
  have hprod : (c.subProcs remainDims p).length = (c.grid.sub remainDims).dims.prod := by
    rw [subProcs, length_map, c.length_lranks hlen hp]
    rfl
  have hplace : c.grid.place remainDims p < (c.grid.sub remainDims).dims.prod :=
    index_lt (cell_within c.grid.positive hp).select
  have hcell : cell (c.grid.sub remainDims).dims (c.grid.place remainDims p) = c.grid.kept remainDims p :=
    cell_index (cell_within c.grid.positive hp).select
  rw [← hcell] at hso
  obtain ⟨-, hfits⟩ := c.grid.size_fits hd
  have hlt : o < d := by
    obtain ⟨hi', rfl⟩ := List.getElem?_eq_some_iff.1 ho
    obtain ⟨hi'', rfl⟩ := List.getElem?_eq_some_iff.1 hd
    exact (cell_within c.grid.positive hp).get hi' hi''
  have hdest := (h.shift direction i hi ((d : ℤ) - o) (by omega) (by omega)).2
  have hsum : int32 ((o : ℤ) + (d - o)) = d := by
    rw [show (o : ℤ) + (d - o) = d by omega, int32_of_fits (by omega) (by omega)]
  rw [cartShift_eq (c.member p hp) c.size hp hd hq ho, cartShift_eq m hprod hplace hsd hsq hso, hcell, hsum] at hdest
  exact (c.peer_moved hlen hp m.procs hi hd _ _ _).1 hdest (Or.inr le_rfl)

end

end CartComm

/-- Sub-grids are coherent when, and only when, the first dimensions of the parent are periodic where the kept ones are:
the periods of a sub-communicator are not those of its dimensions. -/
theorem coherent_iff (c : CartComm) (remainDims : List ℤ) (hlen : remainDims.length = c.grid.dims.length) :
    Coherent c remainDims ↔ SamePeriods c remainDims := by
  constructor
  · intro h
    have hpos : 0 < c.grid.dims.prod := c.grid.positive.prod
    obtain ⟨new, hnew, hcoherent⟩ := h 0 (c.size ▸ hpos)
    obtain ⟨new', hnew', m⟩ := c.sub_eq hlen hpos
    rw [hnew, Option.some.injEq] at hnew'
    exact c.samePeriods_of_shift hlen hpos (hnew' ▸ m) hcoherent
  · intro h r hr
    have hr' : r < c.grid.dims.prod := c.size ▸ hr
    obtain ⟨new, hnew, m⟩ := c.sub_eq hlen hr'
    exact ⟨new, hnew, c.coherentAt_of_shift hlen hr' m h⟩

/-- Two rows of two processes; the columns are periodic, the rows are not. -/
def rows : CartComm where
  grid := ⟨[2, 2], [1, 0], by decide, rfl, by simp⟩
  procs := [0, 1, 2, 3]
  nodup := by decide
  size := rfl
  view r := ⟨[0, 1, 2, 3], r, ⟨2, [2, 2], [1, 0], cell [2, 2] r⟩⟩
  member r _ := ⟨rfl, rfl, rfl, rfl, rfl, rfl⟩

theorem coherent_iff_rows : Coherent rows [1, 0] ↔ SamePeriods rows [1, 0] := coherent_iff rows [1, 0] rfl

/-- In a row of its own the last process has a neighbour that it has not in the grid. -/
theorem not_coherent_rows :
    ¬∀ (c : CartComm) (remainDims : List ℤ), remainDims.length = c.grid.dims.length → Coherent c remainDims := by
  intro h
  obtain ⟨new, hnew, hcoherent⟩ := h rows [0, 1] rfl 1 (by decide)
  have hsub : rows.sub [0, 1] 1 = some ⟨[0, 1], 1, ⟨1, [2, 2], [1, 0], [1, 1]⟩⟩ := rfl
  rw [hsub, Option.some.injEq] at hnew
  subst hnew
  have hshift := (hcoherent.shift 0 1 rfl 1 (by decide) (by decide)).2
  revert hshift
  decide

end OpenMPI.Topo
