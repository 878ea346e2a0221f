import OpenMPI.Proofs.Topo.Cart

/-!
# Ranks and coordinates of a Cartesian communicator

`mca_topo_base_cart_rank` is the place in row-major order of the residues of the coordinates (`cartRank_eq`), and so the
inverse of `mca_topo_base_cart_coords`.  A shift reaches the rank of the coordinates that it moves to, unless the sum of a
coordinate and a displacement wraps around (`wellShifted_iff`).
-/

namespace OpenMPI.Topo

open List

open Groups (procNull)
open Ddt (int32)
open Lib Lib.Grid

def residues (dims : List ℕ) (coords : List ℤ) : List ℕ := dims.zipWith (fun d c => (c % d).toNat) coords

def InRange (dims : List ℕ) (coords : List ℤ) : Prop := List.Forall₂ (fun (c : ℤ) (d : ℕ) => 0 ≤ c ∧ c < d) coords dims

theorem rankStep_eq {d : ℕ} (hd : 0 < d) (c : ℤ) (s : ℤ × ℕ) :
    rankStep (d, c) s = (s.1 + s.2 * (c % d).toNat, s.2 * d) := by
  have hnonneg := Int.emod_nonneg c (show (d : ℤ) ≠ 0 by omega)
  unfold rankStep
  dsimp only
  rw [Int.toNat_of_nonneg hnonneg]
  by_cases hout : c < 0 ∨ c ≥ d
  · rw [if_pos hout, tmod_wrapped hd]
  · rw [if_neg hout, Int.emod_eq_of_lt (by omega) (by omega)]

theorem rankLoop_eq {dims : List ℕ} {coords : List ℤ} (hpos : Positive dims) (hlen : coords.length = dims.length) :
    (dims.zip coords).foldr rankStep (0, 1) = (↑(index dims (residues dims coords)), dims.prod) := by
  induction dims generalizing coords with
  | nil => rfl
  | cons d ds ih =>
    rcases coords with _ | ⟨c, cs⟩
    · simp at hlen
    rw [zip_cons_cons, foldr_cons, ih (fun x hx => hpos x (by simp [hx])) (by simpa using hlen),
      rankStep_eq (hpos d (by simp))]
    change _ = (((index (d :: ds) ((c % d).toNat :: residues ds cs) : ℕ) : ℤ), _)
    rw [index, prod_cons]
    push_cast
    rw [Nat.mul_comm]
    congr 1
    ring

theorem residues_within {dims : List ℕ} {coords : List ℤ} (hpos : Positive dims) (hlen : coords.length = dims.length) :
    Within (residues dims coords) dims := by
  induction dims generalizing coords with
  | nil => exact .nil
  | cons d ds ih =>
    rcases coords with _ | ⟨c, cs⟩
    · simp at hlen
    have hd : (0 : ℤ) < d := by exact_mod_cast hpos d (by simp)
    have hlt := Int.emod_lt_of_pos c hd
    have hnonneg := Int.emod_nonneg c hd.ne'
    have hhead : (c % d).toNat < d := by omega
    exact .cons hhead (ih (fun x hx => hpos x (by simp [hx])) (by simpa using hlen))

theorem residues_natCast {dims cs : List ℕ} (h : Within cs dims) : residues dims (cs.map (Nat.cast : ℕ → ℤ)) = cs := by
  induction h with
  | nil => rfl
  | @cons c d cs ds hc _ ih =>
    rw [residues] at ih ⊢
    rw [map_cons, zipWith_cons_cons, ih, Int.emod_eq_of_lt (by omega) (by omega), Int.toNat_natCast]

theorem inRange_natCast {dims cs : List ℕ} (h : Within cs dims) : InRange dims (cs.map (Nat.cast : ℕ → ℤ)) := by
  refine forall₂_map_left_iff.2 (h.imp fun c d hlt => ⟨by omega, ?_⟩)
  exact_mod_cast hlt

theorem InRange.natCast {dims : List ℕ} {coords : List ℤ} (h : InRange dims coords) :
    ∃ cs, Within cs dims ∧ coords = cs.map (Nat.cast : ℕ → ℤ) := by
  induction h with
  | nil => exact ⟨[], .nil, rfl⟩
  | @cons c d coords dims hc _ ih =>
    obtain ⟨cs, hcs, rfl⟩ := ih
    refine ⟨c.toNat :: cs, .cons (by omega) hcs, ?_⟩
    rw [map_cons, Int.toNat_of_nonneg hc.1]

section Member

variable {g : Grid} {procs : List ℕ} {p r : ℕ} {comm : Comm}

def coordsOf (comm : Comm) (r : ℕ) : List ℤ := (cartCoords comm r comm.topo.ndims []).map Nat.cast

theorem coordsOf_eq (m : Member g procs p comm) (hsize : procs.length = g.dims.prod) (r : ℕ) :
    coordsOf comm r = (cell g.dims r).map Nat.cast := by
  rw [coordsOf, cartCoords, m.ndims, m.dims, take_of_length_le le_rfl, Comm.size, m.procs, hsize,
    coordsLoop_eq g.positive, fill, drop_nil, append_nil]

theorem cartRank_eq (m : Member g procs p comm) {coords : List ℤ} (hlen : coords.length = g.dims.length) :
    cartRank comm coords = index g.dims (residues g.dims coords) := by
  rw [cartRank, m.ndims, zip_take, m.dims, take_of_length_le hlen.le, rankLoop_eq g.positive hlen]

/-- What the functions for ranks and coordinates have to do with each other, for a communicator with these sizes. -/
structure Inverse (dims : List ℕ) (comm : Comm) : Prop where
  inRange : ∀ r < comm.size, InRange dims (coordsOf comm r)
  rank_coords : ∀ r < comm.size, cartRank comm (coordsOf comm r) = r
  coords_rank : ∀ coords, InRange dims coords → ∃ r < comm.size, cartRank comm coords = r ∧ coordsOf comm r = coords
  residues : ∀ coords : List ℤ, coords.length = dims.length →
    cartRank comm coords = cartRank comm ((residues dims coords).map Nat.cast)

theorem Member.inverse (m : Member g procs p comm) (hsize : procs.length = g.dims.prod) : Inverse g.dims comm := by
  have hcomm : comm.size = g.dims.prod := by rw [Comm.size, m.procs, hsize]
  have hrank {cs : List ℕ} (h : Within cs g.dims) : cartRank comm (cs.map Nat.cast) = index g.dims cs := by
    rw [cartRank_eq m (by simpa using h.length_eq), residues_natCast h]
  refine ⟨fun r hr => ?_, fun r hr => ?_, fun coords h => ?_, fun coords hlen => ?_⟩
  · rw [coordsOf_eq m hsize]
    exact inRange_natCast (cell_within g.positive (hcomm ▸ hr))
  · rw [hcomm] at hr
    rw [coordsOf_eq m hsize, hrank (cell_within g.positive hr), index_cell g.positive hr]
  · obtain ⟨cs, hcs, rfl⟩ := h.natCast
    refine ⟨index g.dims cs, hcomm ▸ index_lt hcs, hrank hcs, ?_⟩
    rw [coordsOf_eq m hsize, cell_index hcs]
  · rw [hrank (residues_within g.positive hlen), cartRank_eq m hlen]

/-- `mca_topo_base_cart_create` leaves the coordinates of the rank with each member. -/
def CreatesCoords (dims : List ℕ) (comm : Comm) (r : ℕ) : Prop :=
  ∀ topo procCount, topo.ndims = dims.length → topo.dims = dims → comm.size ≤ procCount →
    ∃ created, cartCreate topo procCount r topo.ndims = some created ∧ created.newRank = r ∧
      (created.topo.coords.take topo.ndims).map Nat.cast = coordsOf comm r

theorem Member.createsCoords (m : Member g procs p comm) (hsize : procs.length = g.dims.prod) (hr : r < g.dims.prod) :
    CreatesCoords g.dims comm r := by
  intro topo procCount hndims hdims hcount
  have hcomm : comm.size = topo.dims.prod := by rw [Comm.size, m.procs, hsize, hdims]
  have hpositive := g.positive
  rw [← hdims] at hndims hr hpositive
  have hpos : topo.dims.any (· == 0) = false := by
    rw [any_eq_false]
    intro d hd
    have := hpositive d hd
    simp only [beq_iff_eq]
    omega
  obtain ⟨created, hcreated⟩ : ∃ created, cartCreate topo procCount r topo.ndims = some created := by
    rw [cartCreate, take_of_length_le hndims.ge, hpos, if_neg Bool.false_ne_true, if_neg (by omega), if_neg (by omega)]
    exact ⟨_, rfl⟩
  obtain ⟨-, -, hrank, hcoords⟩ := cartCreate_eq hndims.symm hcreated hr
  refine ⟨created, hcreated, hrank, ?_⟩
  rw [hcoords, coordsOf_eq m hsize, hdims]

end Member

/-- The rank of the process that has `target` for the coordinate of dimension `i`, of size `d`. -/
def neighbour (comm : Comm) (r i d : ℕ) (period target : ℤ) : ℤ :=
  if (target < 0 ∨ target ≥ d) ∧ period = 0 then procNull else cartRank comm ((coordsOf comm r).set i target)

def WellShifted (g : Grid) (comm : Comm) (r i : ℕ) (disp : ℤ) : Prop :=
  ∀ d period o, g.dims[i]? = some d → g.periods[i]? = some period → (coordsOf comm r)[i]? = some o →
    cartShift comm i disp =
      (neighbour comm r i d period (o - disp), neighbour comm r i d period (o + disp))

/-- The sums of the coordinate and the displacement are numbers of an `int`, or it does not matter what they wrap
around to. -/
def Unwrapped (g : Grid) (r i : ℕ) (disp : ℤ) : Prop :=
  ∀ (d : ℕ) (period : ℤ) (o : ℕ), g.dims[i]? = some d → g.periods[i]? = some period → (cell g.dims r)[i]? = some o →
    period = 0 ∨ d ∣ 2 ^ 32 ∨ (o - disp < 2 ^ 31 ∧ o + disp < 2 ^ 31)

theorem moved_int32_iff {dims cs : List ℕ} {i d : ℕ} (hw : Within cs dims) (hd : dims[i]? = some d) (hfits : d < 2 ^ 31)
    {period x : ℤ} (hlow : -2 ^ 31 ≤ x) (hhigh : x < 2 ^ 32) :
    moved dims cs i d period (int32 x) = moved dims cs i d period x ↔ period = 0 ∨ d ∣ 2 ^ 32 ∨ x < 2 ^ 31 := by
  rcases lt_or_ge x (2 ^ 31) with hlt | hge
  · rw [int32_of_fits hlow hlt]
    exact iff_of_true rfl (.inr (.inr hlt))
  · have hwrap : int32 x = x - 2 ^ 32 := by
      rw [int32, Int.bmod_def]
      omega
    by_cases hperiod : period = 0
    · rw [hwrap, moved, moved, if_pos ⟨by omega, hperiod⟩, if_pos ⟨by omega, hperiod⟩]
      simp [hperiod]
    · have hdpos : 0 < d := hw.positive d (mem_of_getElem? hd)
      have hres (y : ℤ) : (y % d).toNat < d ∧ ((y % d).toNat : ℤ) = y % d := by
        have := Int.emod_nonneg y (show (d : ℤ) ≠ 0 by omega)
        have := Int.emod_lt_of_pos y (show (0 : ℤ) < d by omega)
        omega
      obtain ⟨hi, -⟩ := List.getElem?_eq_some_iff.1 hd
      rw [hwrap, moved, moved, if_neg (fun h => hperiod h.2), if_neg (fun h => hperiod h.2), Nat.cast_inj]
      have hmod : (x - 2 ^ 32) % d = x % d ↔ d ∣ 2 ^ 32 := by
        rw [Int.emod_eq_emod_iff_emod_sub_eq_zero, sub_sub_cancel_left, ← Int.dvd_iff_emod_eq_zero, Int.dvd_neg]
        exact_mod_cast Iff.rfl
      constructor
      · intro heq
        have hset := (hw.set hd (hres (x - 2 ^ 32)).1).index_inj (hw.set hd (hres x).1) heq
        have := congrArg (fun l => l[i]?) hset
        rw [getElem?_set_self (hw.length_eq ▸ hi), getElem?_set_self (hw.length_eq ▸ hi), Option.some.injEq] at this
        refine .inr (.inl (hmod.1 ?_))
        rw [← (hres _).2, this, (hres _).2]
      · rintro (h | h | h)
        · exact absurd h hperiod
        · rw [hmod.2 h]
        · omega

theorem residues_set {dims : List ℕ} {i d : ℕ} (hd : dims[i]? = some d) (coords : List ℤ) (target : ℤ) :
    residues dims (coords.set i target) = (residues dims coords).set i (target % d).toNat := by
  induction dims generalizing i coords with
  | nil => simp at hd
  | cons d' ds ih =>
    rcases coords with _ | ⟨c, cs⟩
    · simp [residues]
    rcases i with _ | i
    · simp only [getElem?_cons_zero, Option.some.injEq] at hd
      subst hd
      rfl
    · exact congrArg (List.cons _) (ih (by simpa using hd) cs)

theorem neighbour_eq {g : Grid} {procs : List ℕ} {p r i d : ℕ} {comm : Comm} (m : Member g procs p comm)
    (hsize : procs.length = g.dims.prod) (hr : r < g.dims.prod) (hd : g.dims[i]? = some d) (period target : ℤ) :
    neighbour comm r i d period target = moved g.dims (cell g.dims r) i d period target := by
  have hw := cell_within g.positive hr
  rw [neighbour, moved, coordsOf_eq m hsize, cartRank_eq m (by simpa using hw.length_eq), residues_set hd,
    residues_natCast hw]

theorem wellShifted_iff {g : Grid} {procs : List ℕ} {r i : ℕ} {comm : Comm} (m : Member g procs r comm)
    (hsize : procs.length = g.dims.prod) (hr : r < g.dims.prod) {disp : ℤ} (hlow : -2 ^ 31 ≤ disp)
    (hhigh : disp < 2 ^ 31) : WellShifted g comm r i disp ↔ Unwrapped g r i disp := by
  have hw := cell_within g.positive hr
  rw [WellShifted, coordsOf_eq m hsize]
  constructor
  · intro h d period o hd hq ho
    obtain ⟨hi, rfl⟩ := List.getElem?_eq_some_iff.1 ho
    obtain ⟨hi', rfl⟩ := List.getElem?_eq_some_iff.1 hd
    have hlt := hw.get hi hi'
    have hfits := (g.size_fits hd).2
    simp only [get_eq_getElem] at hlt
    have heq := h _ period (cell g.dims r)[i] hd hq (by simp [ho])
    rw [cartShift_eq m hsize hr hd hq ho, neighbour_eq m hsize hr hd, neighbour_eq m hsize hr hd, Prod.mk.injEq,
      moved_int32_iff hw hd hfits (by omega) (by omega), moved_int32_iff hw hd hfits (by omega) (by omega)] at heq
    tauto
  · intro h d period o hd hq ho
    obtain ⟨k, hk, rfl⟩ : ∃ k : ℕ, (cell g.dims r)[i]? = some k ∧ (k : ℤ) = o := by simpa using ho
    obtain ⟨hi, hget⟩ := List.getElem?_eq_some_iff.1 hk
    obtain ⟨hi', hget'⟩ := List.getElem?_eq_some_iff.1 hd
    have hlt := hw.get hi hi'
    have hfits := (g.size_fits hd).2
    simp only [get_eq_getElem, hget, hget'] at hlt
    have := h d period k hd hq hk
    rw [cartShift_eq m hsize hr hd hq hk, neighbour_eq m hsize hr hd, neighbour_eq m hsize hr hd, Prod.mk.injEq,
      moved_int32_iff hw hd hfits (by omega) (by omega), moved_int32_iff hw hd hfits (by omega) (by omega)]
    tauto

/-- Ranks and coordinates of every Cartesian communicator are inverse, each member has the coordinates of its rank, and a
shift tells the ranks of the coordinates that it moves to if and only if no sum wraps around where it matters. -/
theorem coordinates_iff (c : CartComm) {r i : ℕ} (hr : r < c.grid.dims.prod) {disp : ℤ} (hlow : -2 ^ 31 ≤ disp)
    (hhigh : disp < 2 ^ 31) :
    Inverse c.grid.dims (c.view r) ∧ CreatesCoords c.grid.dims (c.view r) r ∧ WellShifted c.grid (c.view r) r i disp ↔
      Unwrapped c.grid r i disp := by
  rw [wellShifted_iff (c.member r hr) c.size hr hlow hhigh]
  constructor
  · rintro ⟨-, -, h⟩
    exact h
  · intro h
    exact ⟨(c.member r hr).inverse c.size, (c.member r hr).createsCoords c.size hr, h⟩

/-- Three processes in a circle. -/
def circle : CartComm where
  grid := ⟨[3], [1], by decide, rfl, by simp⟩
  procs := [0, 1, 2]
  nodup := by decide
  size := rfl
  view r := ⟨[0, 1, 2], r, ⟨1, [3], [1], cell [3] r⟩⟩
  member r _ := ⟨rfl, rfl, rfl, rfl, rfl, rfl⟩

theorem coordinates_iff_circle :
    Inverse [3] (circle.view 2) ∧ CreatesCoords [3] (circle.view 2) 2 ∧ WellShifted circle.grid (circle.view 2) 2 0 7 ↔
      Unwrapped circle.grid 2 0 7 :=
  coordinates_iff circle (by decide) (by decide) (by decide)

/-- The sum of the last coordinate and the largest displacement is negative, and has another residue. -/
theorem not_wellShifted_circle : ¬WellShifted circle.grid (circle.view 2) 2 0 (2 ^ 31 - 1) := by
  intro h
  have := h 3 1 2 rfl rfl rfl
  revert this
  decide

end OpenMPI.Topo
