import OpenMPI.Ddt.Subarray
import OpenMPI.Proofs.Ddt.Merge

/-!
# What a subarray selects

Every dimension adds copies of the datatype of those that vary faster, so the type map is that of the
cells of the box, in their order (`createSubarray_iff`).  It goes wrong where `ompi_ddt_add` does not
add copies, and the bounds where the old datatype has explicit ones beyond the array.
-/

namespace OpenMPI.Ddt

open Lib Lib.Grid List

namespace Datatype

variable {old cur : Datatype} {count : ℕ} {stride extent : ℤ} {k : List (ℤ × Basic)} {d : Part}
  {done : List Part}

def copied (cur : Datatype) (count : ℕ) (stride : ℤ) : Datatype := ddtCreate.ddtAdd cur count 0 stride

def Copies (cur : Datatype) (count : ℕ) (stride : ℤ) : Prop :=
  count ≤ 1 ∨ Short cur ∧ extentOr cur stride = stride ∧ ¬Flattens cur stride

instance : Decidable (Copies cur count stride) := inferInstanceAs (Decidable (_ ∨ _ ∧ _ ∧ _))

def Off (m k : List (ℤ × Basic)) : Prop := m ≠ k ∧ (m = [] ∨ m.length = k.length)

theorem fresh_copied (hcur : Built cur) : Fresh (copied cur count stride) := fresh_create.ddtAdd hcur

theorem unit_of_fresh (h : Fresh cur) : cur.unit = typeMap cur.desc := by
  unfold unit
  rw [h.predefined]
  rfl

theorem typeMap_eq_nil_iff (hcur : Sound cur) : typeMap cur.desc = [] ↔ cur.size = 0 := by
  obtain ⟨b, hb, -⟩ := hcur.described
  rw [hb.desc_eq, Body.typeMap_flatten]
  constructor
  · intro hnil
    by_contra hsize
    exact Body.entries_ne_nil hb.ok (hb.ne_nil (Nat.pos_of_ne_zero hsize)) hnil
  · intro hzero
    rw [hzero] at hb
    rw [hb.eq_nil]
    rfl

theorem typeMap_copied (hcur : Sound cur) : typeMap (copied cur count stride).desc
    = if Skips cur count then [] else typeMap (addedDesc cur count 0 (extentOr cur stride)) := by
  have := @typeMap_ddtAdd count 0 stride ddtCreate cur sound_empty hcur
  rwa [show typeMap ddtCreate.desc = [] from rfl, List.nil_append] at this

theorem not_skips (hdata : ¬NoData cur) (hcount : 0 < count) (h : count = 1 ∨ Short cur) :
    ¬Skips cur count := by
  unfold NoData at hdata
  have hmany : cur.tooManyEntries count = false := by
    rcases h with rfl | h
    · simp [tooManyEntries]
    · exact h.tooManyEntries count
  unfold Skips
  rw [hmany]
  simp only [Bool.false_eq_true, false_or]
  omega

theorem typeMap_addedDesc_one {disp : ℤ} (hcur : Sound cur) (hsize : 0 < cur.size) :
    typeMap (addedDesc cur 1 disp extent) = shift disp cur.unit := by
  by_cases h : Flattens cur extent
  · obtain ⟨e, he, hextent, -⟩ := h.exists_elem
    rw [typeMap_addedDesc_of_flattens he h, unit_of_flattens he h, hextent, mul_one,
      shift_strided, shift_cons, shift_nil]
  · rw [typeMap_addedDesc hcur hsize h, strided_one]

theorem typeMap_copied_of_copies (hcur : Sound cur) (hdata : ¬NoData cur) (hcount : 0 < count)
    (h : Copies cur count stride) :
    typeMap (copied cur count stride).desc = strided count stride cur.unit := by
  have hsize : 0 < cur.size := by
    unfold NoData at hdata
    omega
  rw [typeMap_copied hcur]
  rcases h with h | ⟨hshort, hstride, hflattens⟩
  · obtain rfl : count = 1 := by omega
    rw [if_neg (not_skips hdata hcount (.inl rfl)), typeMap_addedDesc_one hcur hsize, strided_one, shift_zero]
  · rw [if_neg (not_skips hdata hcount (.inr hshort)), hstride, typeMap_addedDesc hcur hsize hflattens,
      shift_zero]

theorem typeMap_copied_cases (hcur : Sound cur) (hcount : 0 < count) :
    typeMap (copied cur count stride).desc = [] ∨
      ∃ s, typeMap (copied cur count stride).desc = strided count s cur.unit ∧
        (s = stride → Copies cur count stride) := by
  rw [typeMap_copied hcur]
  split_ifs with hskips
  · exact .inl rfl
  · have hsize : 0 < cur.size := by
      unfold Skips at hskips
      omega
    have hshort : 2 ≤ count → Short cur := by
      intro htwo
      unfold Skips tooManyEntries at hskips
      unfold Short tooManyEntries
      have hone : count ≠ 1 := by omega
      simp only [not_or] at hskips
      simpa [hone] using hskips.2.2.1
    have hcopies : (2 ≤ count → extentOr cur stride = stride ∧ ¬Flattens cur stride) →
        Copies cur count stride := by
      intro h
      by_cases htwo : 2 ≤ count
      · exact .inr ⟨hshort htwo, h htwo⟩
      · exact .inl (by omega)
    refine .inr ?_
    by_cases h : Flattens cur (extentOr cur stride)
    · obtain ⟨e, he, hextent, htwo⟩ := h.exists_elem
      refine ⟨e.count * e.extent, ?_, fun hsame => hcopies fun _ => ?_⟩
      · rw [typeMap_addedDesc_of_flattens he h, unit_of_flattens he h, hextent, mul_comm, add_zero,
          strided_mul]
      · -- the blocks would be as far apart as the copies
        exfalso
        rw [← hextent] at hsame
        unfold extentOr at h hsame
        split_ifs at h hsame with hdefault
        · have hone : (e.count : ℤ) ∣ 1 := ⟨-cur.extent, by rw [hdefault] at hsame; linarith⟩
          have := Int.le_of_dvd one_pos hone
          omega
        · have : ((e.count : ℤ) - 1) * stride = 0 := by linarith
          rcases mul_eq_zero.mp this with hzero | hzero
          · omega
          · exact h.2.2.1 hzero
    · refine ⟨extentOr cur stride, ?_, fun hsame => hcopies fun _ => ⟨hsame, ?_⟩⟩
      · rw [typeMap_addedDesc hcur hsize h, shift_zero]
      · rwa [hsame] at h

theorem unit_ne_nil (hcur : Sound cur) (hdata : ¬NoData cur) : cur.unit ≠ [] := by
  have hsize : 0 < cur.size := by
    unfold NoData at hdata
    omega
  unfold unit
  split_ifs
  · simp
  · exact fun hnil => hsize.ne' ((typeMap_eq_nil_iff hcur).mp hnil)

theorem strided_ne_nil {β : Type*} {k : List (ℤ × β)} (hcount : 0 < count) (hk : k ≠ []) :
    strided count stride k ≠ [] := by
  rw [← length_pos_iff, length_strided]
  exact mul_pos hcount (length_pos_iff.mpr hk)

theorem off_copied (hcur : Sound cur) (hdata : ¬NoData cur) (hcount : 0 < count)
    (h : ¬Copies cur count stride) :
    Off (typeMap (copied cur count stride).desc) (strided count stride cur.unit) := by
  have hunit := unit_ne_nil hcur hdata
  rcases @typeMap_copied_cases cur count stride hcur hcount with hnil | ⟨s, hs, hcopies⟩
  · exact ⟨hnil ▸ (strided_ne_nil hcount hunit).symm, .inl hnil⟩
  · refine ⟨fun hsame => h (hcopies ?_), .inr ?_⟩
    · have htwo : 2 ≤ count := by
        by_contra hlt
        exact h (.inl (by omega))
      exact stride_inj hunit htwo (hs.symm.trans hsame)
    · rw [hs, length_strided, length_strided]

theorem Off.copied (h : Off cur.unit k) (hcur : Sound cur) (hcount : 0 < count) (s : ℤ) :
    Off (typeMap (copied cur count stride).desc) (strided count s k) := by
  obtain ⟨hne, hlength⟩ := h
  have hk : k ≠ [] := by
    rintro rfl
    rcases hlength with h | h
    · exact hne h
    · exact hne (length_eq_zero_iff.mp h)
  rcases @typeMap_copied_cases cur count stride hcur hcount with hnil | ⟨s', hs, -⟩
  · exact ⟨hnil ▸ (strided_ne_nil hcount hk).symm, .inl hnil⟩
  · rw [hs]
    rcases hlength with hnil | hlength
    · rw [hnil, strided_nil]
      exact ⟨(strided_ne_nil hcount hk).symm, .inl rfl⟩
    · refine ⟨fun hsame => hne (strided_inj hcount hlength hsame), .inr ?_⟩
      rw [length_strided, length_strided, hlength]

def Tells (good : Prop) (m k : List (ℤ × Basic)) : Prop := (good → m = k) ∧ (¬good → Off m k)

variable {good : Prop} {m : List (ℤ × Basic)}

theorem Tells.eq_iff (h : Tells good m k) : m = k ↔ good := by
  refine ⟨fun hsame => ?_, h.1⟩
  by_contra hgood
  exact (h.2 hgood).1 hsame

theorem size_ne_zero_of_unit (hcur : Sound cur) (h : cur.unit ≠ []) : cur.size ≠ 0 := by
  intro hzero
  unfold unit at h
  split_ifs at h with hbasic hsize
  · omega
  · exact h rfl
  · exact h ((typeMap_eq_nil_iff hcur).mpr hzero)

theorem Tells.copied (h : Tells good cur.unit k) (hcur : Sound cur)
    (hmarker : cur.id ≠ dtLb ∧ cur.id ≠ dtUb) (hk : k ≠ []) (hcount : 0 < count) :
    Tells (good ∧ Copies cur count stride) (typeMap (copied cur count stride).desc)
      (strided count stride k) := by
  by_cases hgood : good
  · have hunit := h.1 hgood
    have hdata : ¬NoData cur := by
      have := size_ne_zero_of_unit hcur (hunit ▸ hk)
      unfold NoData
      tauto
    rw [← hunit]
    exact ⟨fun hboth => typeMap_copied_of_copies hcur hdata hcount hboth.2,
      fun hnot => off_copied hcur hdata hcount fun hcopies => hnot ⟨hgood, hcopies⟩⟩
  · exact ⟨fun hboth => absurd hboth.1 hgood, fun _ => (h.2 hgood).copied hcur hcount stride⟩

theorem id_copied : (copied cur count stride).id = 0 := by
  unfold Datatype.copied ddtAdd
  dsimp only
  split_ifs <;> rfl

theorem not_marker_copied :
    (copied cur count stride).id ≠ dtLb ∧ (copied cur count stride).id ≠ dtUb := by
  rw [id_copied]
  decide

def VectorCopies (count bLength : ℕ) (stride : ℤ) (apart : Bool) (old : Datatype) : Prop :=
  if !apart || 1 ≥ count then Copies old (count * bLength) old.extent
  else if bLength = 1 then Copies old count stride
  else Copies old bLength old.extent ∧ Copies (copied old bLength old.extent) count stride

instance {bLength : ℕ} {apart : Bool} : Decidable (VectorCopies count bLength stride apart old) :=
  inferInstanceAs (Decidable (if !apart || 1 ≥ count then Copies old (count * bLength) old.extent
    else if bLength = 1 then Copies old count stride
    else Copies old bLength old.extent ∧ Copies (copied old bLength old.extent) count stride))

theorem fresh_createVector {bLength : ℕ} {apart : Bool} (hold : Built old) (hcount : 0 < count) :
    Fresh (createVector count bLength stride apart old) := by
  unfold createVector
  rw [if_neg hcount.ne']
  split_ifs
  · exact fresh_copied hold
  · exact fresh_copied hold
  · exact fresh_copied (fresh_copied hold).built

theorem id_createVector {bLength : ℕ} {apart : Bool} (hcount : 0 < count) :
    (createVector count bLength stride apart old).id = 0 := by
  unfold createVector
  rw [if_neg hcount.ne']
  split_ifs
  · exact id_copied
  · exact id_copied
  · exact id_copied

theorem tells_createVector {bLength : ℕ} {apart : Bool} (hold : Built old) (hdata : ¬NoData old)
    (hcount : 0 < count) (hlength : 0 < bLength)
    (hapart : apart = false → stride = bLength * old.extent) :
    Tells (VectorCopies count bLength stride apart old)
      (typeMap (createVector count bLength stride apart old).desc)
      (strided count stride (strided bLength old.extent old.unit)) := by
  have hmarker : old.id ≠ dtLb ∧ old.id ≠ dtUb := by
    unfold NoData at hdata
    tauto
  have hunit := unit_ne_nil hold.sound hdata
  have hstart : Tells True old.unit old.unit := ⟨fun _ => rfl, fun h => absurd trivial h⟩
  have htells {n : ℕ} {s : ℤ} (hn : 0 < n) : Tells (Copies old n s) (typeMap (copied old n s).desc)
      (strided n s old.unit) := by
    have := @Tells.copied old n s old.unit True hstart hold.sound hmarker hunit hn
    rwa [true_and] at this
  unfold createVector VectorCopies
  rw [if_neg hcount.ne']
  split_ifs with htogether hone
  · have hblocks : strided count stride (strided bLength old.extent old.unit)
        = strided (count * bLength) old.extent old.unit := by
      rw [strided_mul]
      rw [Bool.or_eq_true, decide_eq_true_eq] at htogether
      rcases htogether with h | h
      · rw [hapart (by simpa using h)]
      · obtain rfl : count = 1 := by omega
        rw [strided_one, strided_one]
    rw [hblocks]
    exact htells (mul_pos hcount hlength)
  · rw [hone, strided_one]
    exact htells hcount
  · have hfresh := @fresh_copied old bLength old.extent hold
    have hinner := @htells bLength old.extent hlength
    rw [← unit_of_fresh hfresh] at hinner
    exact hinner.copied hfresh.built.sound not_marker_copied (strided_ne_nil hlength hunit) hcount

theorem ddtCreateHvector_eq (hcount : 0 < count) :
    ∃ s, ddtCreateHvector count 1 stride cur = copied cur count s ∧ (s = stride ∨ count = 1) := by
  unfold ddtCreateHvector createVector
  rw [if_neg hcount.ne', Nat.cast_one, mul_one, mul_one, if_pos rfl]
  split_ifs with h
  · refine ⟨cur.extent, rfl, ?_⟩
    rw [Bool.or_eq_true, decide_eq_true_eq] at h
    rcases h with h | h
    · exact .inl (by simpa using h)
    · exact .inr (by omega)
  · exact ⟨stride, rfl, .inl rfl⟩

theorem Tells.ddtCreateHvector (h : Tells good cur.unit k) (hcur : Sound cur)
    (hmarker : cur.id ≠ dtLb ∧ cur.id ≠ dtUb) (hk : k ≠ []) (hcount : 0 < count) :
    Tells (good ∧ Copies cur count stride) (typeMap (ddtCreateHvector count 1 stride cur).desc)
      (strided count stride k) := by
  obtain ⟨s, hs, hstride⟩ := @ddtCreateHvector_eq cur count stride hcount
  rw [hs]
  rcases hstride with rfl | rfl
  · exact h.copied hcur hmarker hk hcount
  · have hone := @Tells.copied cur 1 s k good h hcur hmarker hk one_pos
    rw [strided_one] at hone ⊢
    have hcopies (s : ℤ) : Copies cur 1 s := .inl le_rfl
    simpa [hcopies] using hone

def LoopCopies (extent : ℤ) : List Part → Datatype → ℤ → Prop
  | [], _, _ => True
  | d :: dims, last, size =>
    Copies last d.length (size * extent) ∧
      LoopCopies extent dims (ddtCreateHvector d.length 1 (size * extent) last) (size * d.size)

/-- All additions add copies. -/
def AllCopies (dims : List Part) (old : Datatype) : Prop :=
  match dims with
  | [] => True
  | [d] => Copies old d.length old.extent
  | d :: d' :: dims =>
    VectorCopies d'.length d.length (old.extent * d.size) (decide ((d.length : ℤ) ≠ d.size)) old ∧
      LoopCopies old.extent dims (ddtCreateVector d'.length d.length d.size old) (d.size * d'.size)

section Placed

variable {β : Type*} {k : List (ℤ × β)}

def placed (k : List (ℤ × β)) (extent : ℤ) (cells : List ℕ) : List (ℤ × β) :=
  cells.flatMap fun p : ℕ => shift (p * extent) k

theorem placed_cons : placed k extent (relative (d :: done))
    = strided d.length (volume done * extent) (placed k extent (relative done)) := by
  rw [strided_eq_flatMap, placed, relative, flatMap_assoc]
  refine flatMap_congr fun i _ => ?_
  rw [flatMap_map, placed]
  unfold shift
  rw [map_flatMap]
  refine flatMap_congr fun p _ => ?_
  rw [map_map]
  refine map_congr_left fun x _ => ?_
  simp only [Function.comp_apply, Prod.mk.injEq, and_true]
  push_cast
  ring

theorem placed_nil : placed k extent (relative []) = k := by simp [placed, relative]

theorem placed_ne_nil (hk : k ≠ []) : placed k extent (relative done) ≠ [] := by
  induction done with
  | nil => rwa [placed_nil]
  | cons d done ih =>
    rw [placed_cons]
    exact strided_ne_nil d.pos ih

theorem placed_box (done : List Part) : placed k extent (box done)
    = shift (offset done * extent) (placed k extent (relative done)) := by
  rw [box_eq, placed, flatMap_map, placed, shift, map_flatMap]
  refine flatMap_congr fun p _ => ?_
  change shift _ _ = shift _ (shift _ _)
  rw [shift_shift]
  congr 1
  push_cast
  ring

end Placed

theorem fresh_ddtCreateHvector (hcur : Built cur) (hcount : 0 < count) :
    Fresh (ddtCreateHvector count 1 stride cur) ∧ (ddtCreateHvector count 1 stride cur).id = 0 := by
  obtain ⟨s, hs, -⟩ := @ddtCreateHvector_eq cur count stride hcount
  rw [hs]
  exact ⟨fresh_copied hcur, id_copied⟩

theorem fresh_subarrayGo {dims : List Part} {size displ : ℤ} (hcur : Fresh cur) (hid : cur.id = 0) :
    Fresh (subarrayGo extent dims cur size displ).1 ∧
      (subarrayGo extent dims cur size displ).1.id = 0 := by
  induction dims generalizing cur size displ with
  | nil => exact ⟨hcur, hid⟩
  | cons d dims ih =>
    obtain ⟨hfresh, hid⟩ := @fresh_ddtCreateHvector cur d.length (size * extent) hcur.built d.pos
    exact ih hfresh hid

theorem volume_mul : (volume done : ℤ) * d.size = volume (d :: done) := by
  rw [volume_cons]
  push_cast
  ring

theorem offset_add : (offset done : ℤ) + volume done * d.start = offset (d :: done) := by
  rw [offset]
  push_cast
  ring

theorem subarrayGo_size (extent : ℤ) (dims done : List Part) (last : Datatype) :
    (subarrayGo extent dims last (volume done) (offset done)).2
      = (((volume (dims.reverse ++ done) : ℕ) : ℤ), ((offset (dims.reverse ++ done) : ℕ) : ℤ)) := by
  induction dims generalizing done last with
  | nil => rfl
  | cons d dims ih =>
    rw [reverse_cons, List.append_assoc, singleton_append, subarrayGo, volume_mul, offset_add]
    exact ih (d :: done) _

theorem tells_subarrayGo {dims : List Part} (hk : k ≠ []) (hcur : Fresh cur) (hid : cur.id = 0)
    (h : Tells good (typeMap cur.desc) (placed k extent (relative done))) :
    Tells (good ∧ LoopCopies extent dims cur (volume done))
      (typeMap (subarrayGo extent dims cur (volume done) (offset done)).1.desc)
      (placed k extent (relative (dims.reverse ++ done))) := by
  induction dims generalizing cur done good with
  | nil => simpa [subarrayGo, LoopCopies] using h
  | cons d dims ih =>
    obtain ⟨hfresh, hid'⟩ := @fresh_ddtCreateHvector cur d.length (volume done * extent)
      hcur.built d.pos
    rw [← unit_of_fresh hcur] at h
    have hstep := @Tells.ddtCreateHvector cur d.length (volume done * extent) _ good h hcur.built.sound
      (by rw [hid]; decide) (placed_ne_nil hk) d.pos
    rw [← placed_cons] at hstep
    rw [LoopCopies, ← and_assoc, subarrayGo, volume_mul, offset_add, reverse_cons,
      List.append_assoc, singleton_append]
    exact ih hfresh hid' hstep

structure BoundsAt (l u : Option ℤ) (k : List (ℤ × Unit)) (cur : Datatype) : Prop where
  userLb : cur.userLb = l.isSome
  lb : ∀ v ∈ l, IsLeast {x | ∃ b ∈ k, x = b.1 + v} cur.lb
  userUb : cur.userUb = u.isSome
  ub : ∀ v ∈ u, IsGreatest {x | ∃ b ∈ k, x = b.1 + v} cur.ub

variable {l u : Option ℤ} {places : List (ℤ × Unit)}

theorem mem_strided_iff {n : ℕ} {b : ℤ × Unit} :
    b ∈ strided n stride places ↔ ∃ i < n, ∃ c ∈ places, b.1 = c.1 + i * stride := by
  rw [strided_eq_flatMap]
  simp only [mem_flatMap, mem_range, shift, mem_map]
  constructor
  · rintro ⟨i, hi, c, hc, rfl⟩
    exact ⟨i, hi, c, hc, rfl⟩
  · rintro ⟨i, hi, c, hc, hb⟩
    exact ⟨i, hi, c, hc, Prod.ext hb.symm rfl⟩

theorem mul_stride_bounds {i n : ℕ} (hi : i < n) :
    min 0 (stride * (n - 1 : ℕ)) ≤ i * stride ∧ (i : ℤ) * stride ≤ max 0 (stride * (n - 1 : ℕ)) := by
  have hle : (i : ℤ) ≤ (n - 1 : ℕ) := by omega
  rcases le_total 0 stride with hpos | hneg
  · have h1 : 0 ≤ (i : ℤ) * stride := mul_nonneg (by omega) hpos
    have h2 : (i : ℤ) * stride ≤ (n - 1 : ℕ) * stride := mul_le_mul_of_nonneg_right hle hpos
    rw [mul_comm stride]
    exact ⟨(min_le_left _ _).trans h1, h2.trans (le_max_right _ _)⟩
  · have h1 : (i : ℤ) * stride ≤ 0 := mul_nonpos_of_nonneg_of_nonpos (by omega) hneg
    have h2 : ((n - 1 : ℕ) : ℤ) * stride ≤ i * stride := mul_le_mul_of_nonpos_right hle hneg
    rw [mul_comm stride]
    exact ⟨(min_le_right _ _).trans h2, h1.trans (le_max_left _ _)⟩

theorem exists_mul_stride {n : ℕ} (hn : 0 < n) (stride : ℤ) :
    (∃ i < n, (i : ℤ) * stride = min 0 (stride * (n - 1 : ℕ))) ∧
      ∃ i < n, (i : ℤ) * stride = max 0 (stride * (n - 1 : ℕ)) := by
  have hzero : ((0 : ℕ) : ℤ) * stride = 0 := by simp
  rcases le_total 0 (stride * (n - 1 : ℕ)) with hpos | hneg
  · rw [min_eq_left hpos, max_eq_right hpos]
    exact ⟨⟨0, hn, hzero⟩, n - 1, by omega, mul_comm _ _⟩
  · rw [min_eq_right hneg, max_eq_left hneg]
    exact ⟨⟨n - 1, by omega, mul_comm _ _⟩, 0, hn, hzero⟩

theorem isLeast_strided {n : ℕ} (hn : 0 < n) {v a : ℤ}
    (h : IsLeast {x | ∃ b ∈ places, x = b.1 + v} a) :
    IsLeast {x | ∃ b ∈ strided n stride places, x = b.1 + v} (min 0 (stride * (n - 1 : ℕ)) + a) := by
  obtain ⟨⟨b, hb, rfl⟩, hleast⟩ := h
  obtain ⟨i, hi, hmin⟩ := (exists_mul_stride hn stride).1
  refine ⟨⟨(b.1 + i * stride, ()), mem_strided_iff.mpr ⟨i, hi, b, hb, rfl⟩, ?_⟩, ?_⟩
  · rw [← hmin]
    ring
  · rintro x ⟨c, hc, rfl⟩
    obtain ⟨j, hj, c', hc', hplace⟩ := mem_strided_iff.mp hc
    have := hleast ⟨c', hc', rfl⟩
    have := (@mul_stride_bounds stride j n hj).1
    omega

theorem isGreatest_strided {n : ℕ} (hn : 0 < n) {v a : ℤ}
    (h : IsGreatest {x | ∃ b ∈ places, x = b.1 + v} a) :
    IsGreatest {x | ∃ b ∈ strided n stride places, x = b.1 + v}
      (max 0 (stride * (n - 1 : ℕ)) + a) := by
  obtain ⟨⟨b, hb, rfl⟩, hgreatest⟩ := h
  obtain ⟨i, hi, hmax⟩ := (exists_mul_stride hn stride).2
  refine ⟨⟨(b.1 + i * stride, ()), mem_strided_iff.mpr ⟨i, hi, b, hb, rfl⟩, ?_⟩, ?_⟩
  · rw [← hmax]
    ring
  · rintro x ⟨c, hc, rfl⟩
    obtain ⟨j, hj, c', hc', hplace⟩ := mem_strided_iff.mp hc
    have := hgreatest ⟨c', hc', rfl⟩
    have := (@mul_stride_bounds stride j n hj).2
    omega

theorem bounds_copied (hmarker : cur.id ≠ dtLb ∧ cur.id ≠ dtUb) (hcount : 0 < count)
    (h : Copies cur count stride) :
    ((copied cur count stride).userLb = cur.userLb ∧ (copied cur count stride).userUb = cur.userUb) ∧
      (cur.userLb = true →
        (copied cur count stride).lb = min 0 (stride * (count - 1 : ℕ)) + cur.lb) ∧
      (cur.userUb = true →
        (copied cur count stride).ub = max 0 (stride * (count - 1 : ℕ)) + cur.ub) := by
  have hmany : cur.tooManyEntries count = false := by
    rcases h with h | h
    · obtain rfl : count = 1 := by omega
      simp [tooManyEntries]
    · exact h.1.tooManyEntries count
  have hreach : extentOr cur stride * (count - 1 : ℕ) = stride * (count - 1 : ℕ) := by
    rcases h with h | h
    · obtain rfl : count = 1 := by omega
      simp
    · rw [h.2.1]
  have hbounds : SameBounds (copied cur count stride)
      (ddtCreate.addBounds cur count 0 (extentOr cur stride)) := by
    unfold copied ddtAdd extentOr
    generalize (if stride = -1 then cur.extent else stride) = extent
    dsimp only
    rw [if_neg hmarker.1, if_neg hmarker.2, hmany, if_neg Bool.false_ne_true]
    split_ifs <;> exact ⟨rfl, rfl, rfl, rfl, rfl⟩
  rw [hbounds.userLb, hbounds.userUb, hbounds.lb, hbounds.ub, addBounds_lb, addBounds_ub, lbUbCont_eq,
    hreach]
  have hnew : ddtCreate.userLb = false ∧ ddtCreate.userUb = false := ⟨rfl, rfl⟩
  refine ⟨⟨?_, ?_⟩, fun huser => ?_, fun huser => ?_⟩
  · simp [addBounds, hnew]
  · simp [addBounds, hnew]
  · simp [lbWith, huser, hnew]
  · simp [ubWith, huser, hnew]

theorem BoundsAt.copied (h : BoundsAt l u places cur) (hmarker : cur.id ≠ dtLb ∧ cur.id ≠ dtUb)
    (hcount : 0 < count) (hcopies : Copies cur count stride) :
    BoundsAt l u (strided count stride places) (copied cur count stride) := by
  obtain ⟨⟨huserLb, huserUb⟩, hlb, hub⟩ := bounds_copied hmarker hcount hcopies
  refine ⟨huserLb.trans h.userLb, fun v hv => ?_, huserUb.trans h.userUb, fun v hv => ?_⟩
  · rw [hlb (by rw [h.userLb, Option.mem_def.mp hv]; rfl)]
    exact isLeast_strided hcount (h.lb v hv)
  · rw [hub (by rw [h.userUb, Option.mem_def.mp hv]; rfl)]
    exact isGreatest_strided hcount (h.ub v hv)

def Marker (old : Datatype) : Prop := old.id = dtLb ∨ old.id = dtUb

def explicitLb (old : Datatype) : Option ℤ :=
  if old.id = dtLb then some 0
  else if old.id = dtUb then none
  else if old.userLb then some old.lb else none

def explicitUb (old : Datatype) : Option ℤ :=
  if old.id = dtLb then none
  else if old.id = dtUb then some 0
  else if old.userUb then some old.ub else none

def origin : List (ℤ × Unit) := [(0, ())]

theorem mem_strided_origin {n : ℕ} {b : ℤ × Unit} (hn : 0 < n) :
    b ∈ strided n 0 origin ↔ b = (0, ()) := by
  rw [mem_strided_iff]
  constructor
  · rintro ⟨i, -, c, hc, hb⟩
    rw [mem_singleton.mp hc, mul_zero] at hb
    exact Prod.ext hb rfl
  · rintro rfl
    exact ⟨0, hn, (0, ()), mem_singleton.mpr rfl, by simp⟩

theorem boundsAt_copied (hmarker : Marker old → stride = 0) (hcount : 0 < count)
    (hcopies : Copies old count stride) :
    BoundsAt (explicitLb old) (explicitUb old) (strided count stride origin)
      (copied old count stride) := by
  have hleast : IsLeast {x | ∃ b ∈ strided count 0 origin, x = b.1 + 0} (0 : ℤ) := by
    refine ⟨⟨(0, ()), (mem_strided_origin hcount).mpr rfl, by simp⟩, ?_⟩
    rintro x ⟨b, hb, rfl⟩
    rw [(mem_strided_origin hcount).mp hb]
    simp
  have hgreatest : IsGreatest {x | ∃ b ∈ strided count 0 origin, x = b.1 + 0} (0 : ℤ) := by
    refine ⟨⟨(0, ()), (mem_strided_origin hcount).mpr rfl, by simp⟩, ?_⟩
    rintro x ⟨b, hb, rfl⟩
    rw [(mem_strided_origin hcount).mp hb]
    simp
  have hdiffer : dtUb ≠ dtLb := by decide
  by_cases hlb : old.id = dtLb
  · rw [hmarker (.inl hlb), explicitLb, explicitUb, if_pos hlb, if_pos hlb]
    have heq : copied old count 0 = ddtCreate.addLb 0 := by
      unfold Datatype.copied ddtAdd
      rw [if_pos hlb]
    rw [heq]
    refine ⟨rfl, fun v hv => ?_, rfl, fun v hv => by simp at hv⟩
    obtain rfl : v = 0 := by simpa [eq_comm] using hv
    exact hleast
  by_cases hub : old.id = dtUb
  · rw [hmarker (.inr hub), explicitLb, explicitUb, if_neg hlb, if_pos hub, if_neg hlb, if_pos hub]
    have heq : copied old count 0 = ddtCreate.addUb 0 := by
      unfold Datatype.copied ddtAdd
      rw [if_neg hlb, if_pos hub]
    rw [heq]
    refine ⟨rfl, fun v hv => by simp at hv, rfl, fun v hv => ?_⟩
    obtain rfl : v = 0 := by simpa [eq_comm] using hv
    exact hgreatest
  · have hstart : BoundsAt (explicitLb old) (explicitUb old) origin old := by
      have hsingle (v : ℤ) : {x | ∃ b ∈ origin, x = b.1 + v} = {v} := by
        ext x
        simp [origin]
      unfold explicitLb explicitUb
      rw [if_neg hlb, if_neg hub, if_neg hlb, if_neg hub]
      refine ⟨by cases old.userLb <;> rfl, fun v hv => ?_, by cases old.userUb <;> rfl, fun v hv => ?_⟩
      · split_ifs at hv
        · rw [hsingle, Option.mem_some_iff.mp hv]
          exact isLeast_singleton
        · cases hv
      · split_ifs at hv
        · rw [hsingle, Option.mem_some_iff.mp hv]
          exact isGreatest_singleton
        · cases hv
    exact hstart.copied ⟨hlb, hub⟩ hcount hcopies

theorem boundsAt_createVector {bLength : ℕ} {apart : Bool}
    (hmarker : Marker old → old.extent = 0 ∧ stride = 0) (hcount : 0 < count) (hlength : 0 < bLength)
    (hapart : apart = false → stride = bLength * old.extent)
    (h : VectorCopies count bLength stride apart old) :
    BoundsAt (explicitLb old) (explicitUb old) (strided count stride (strided bLength old.extent origin))
      (createVector count bLength stride apart old) := by
  unfold createVector
  unfold VectorCopies at h
  rw [if_neg hcount.ne']
  split_ifs at h ⊢ with htogether hone
  · have hblocks : strided count stride (strided bLength old.extent origin)
        = strided (count * bLength) old.extent origin := by
      rw [strided_mul]
      rw [Bool.or_eq_true, decide_eq_true_eq] at htogether
      rcases htogether with h | h
      · rw [hapart (by simpa using h)]
      · obtain rfl : count = 1 := by omega
        rw [strided_one, strided_one]
    rw [hblocks]
    exact boundsAt_copied (fun h => (hmarker h).1) (mul_pos hcount hlength) h
  · rw [hone, strided_one]
    exact boundsAt_copied (fun h => (hmarker h).2) hcount h
  · have hinner := @boundsAt_copied old bLength old.extent (fun h => (hmarker h).1) hlength h.1
    exact hinner.copied not_marker_copied hcount h.2

theorem BoundsAt.ddtCreateHvector (h : BoundsAt l u places cur)
    (hmarker : cur.id ≠ dtLb ∧ cur.id ≠ dtUb) (hcount : 0 < count) (hcopies : Copies cur count stride) :
    BoundsAt l u (strided count stride places) (ddtCreateHvector count 1 stride cur) := by
  obtain ⟨s, hs, hstride⟩ := @ddtCreateHvector_eq cur count stride hcount
  rw [hs]
  rcases hstride with rfl | rfl
  · exact h.copied hmarker hcount hcopies
  · have hone : BoundsAt l u (strided 1 s places) (Datatype.copied cur 1 s) :=
      h.copied hmarker one_pos (.inl le_rfl)
    rw [strided_one] at hone ⊢
    exact hone

theorem boundsAt_subarrayGo {dims : List Part} (hid : cur.id = 0)
    (h : BoundsAt l u (placed origin extent (relative done)) cur)
    (hcopies : LoopCopies extent dims cur (volume done)) :
    BoundsAt l u (placed origin extent (relative (dims.reverse ++ done)))
      (subarrayGo extent dims cur (volume done) (offset done)).1 := by
  induction dims generalizing cur done with
  | nil => exact h
  | cons d dims ih =>
    obtain ⟨s, hs, -⟩ := @ddtCreateHvector_eq cur d.length (volume done * extent) d.pos
    have hid' : (ddtCreateHvector d.length 1 (volume done * extent) cur).id = 0 := by
      rw [hs]
      exact id_copied
    have hstep := h.ddtCreateHvector (by rw [hid]; decide) d.pos hcopies.1
    have hrest := hcopies.2
    rw [← placed_cons] at hstep
    rw [volume_mul] at hrest
    rw [subarrayGo, volume_mul, offset_add, reverse_cons, List.append_assoc, singleton_append]
    exact ih hid' hstep hrest

theorem replaceSubarrayType_eq (last : Datatype) (size displ : ℤ) :
    replaceSubarrayType extent last size displ
      = (((ddtCreate.addLb 0).ddtAdd last 1 (displ * extent) last.extent).addUb (size * extent)) := by
  have hlb : (ddtCreate.ddtAdd (marker dtLb) 1 0 (marker dtLb).extent) = ddtCreate.addLb 0 := by
    unfold ddtAdd
    rfl
  have hub (d : Datatype) (disp : ℤ) :
      d.ddtAdd (marker dtUb) 1 disp (marker dtUb).extent = d.addUb disp := by
    unfold ddtAdd
    rfl
  simp only [replaceSubarrayType, ddtCreateStruct, createStructGo, hlb, hub]
  rfl

theorem typeMap_replaceSubarrayType {last : Datatype} (hlast : Fresh last) (hid : last.id = 0)
    (size displ : ℤ) : typeMap (replaceSubarrayType extent last size displ).desc
      = shift (displ * extent) (typeMap last.desc) := by
  have hbase : Sound (ddtCreate.addLb 0) :=
    sound_empty.of_data rfl rfl rfl rfl rfl rfl (fun h => by cases h) (fun h => by cases h)
  have hadded := @typeMap_ddtAdd 1 (displ * extent) last.extent (ddtCreate.addLb 0) last hbase
    hlast.built.sound
  rw [extentOr_extent, show typeMap (ddtCreate.addLb 0).desc = [] from rfl, List.nil_append] at hadded
  rw [replaceSubarrayType_eq]
  refine Eq.trans (show _ = typeMap ((ddtCreate.addLb 0).ddtAdd last 1 (displ * extent)
    last.extent).desc from rfl) (hadded.trans ?_)
  by_cases hsize : last.size = 0
  · rw [if_pos (by unfold Skips; tauto), (typeMap_eq_nil_iff hlast.built.sound).mpr hsize, shift_nil]
  · have hdata : ¬NoData last := by
      unfold NoData
      rw [hid]
      simp only [hsize, or_false]
      decide
    rw [if_neg (not_skips hdata one_pos (.inl rfl)),
      typeMap_addedDesc_one hlast.built.sound (Nat.pos_of_ne_zero hsize), unit_of_fresh hlast]

theorem bounds_replaceSubarrayType {last : Datatype} (hid : last.id = 0) (size displ : ℤ) :
    (replaceSubarrayType extent last size displ).lb
        = (if last.userLb then min 0 (displ * extent + last.lb) else 0) ∧
      (replaceSubarrayType extent last size displ).ub
        = if last.userUb then max (displ * extent + last.ub) (size * extent) else size * extent := by
  have hmarker : last.id ≠ dtLb ∧ last.id ≠ dtUb := by
    rw [hid]
    decide
  have hadded := @sameBounds_ddtAdd (ddtCreate.addLb 0) last 1 (displ * extent)
  rw [boundsWith, if_neg hmarker.1, if_neg hmarker.2,
    show last.tooManyEntries 1 = false by simp [tooManyEntries], if_neg Bool.false_ne_true] at hadded
  have hnew : (ddtCreate.addLb 0).userLb = true ∧ (ddtCreate.addLb 0).userUb = false ∧
      (ddtCreate.addLb 0).lb = 0 := ⟨rfl, rfl, rfl⟩
  rw [replaceSubarrayType_eq, addUb]
  refine ⟨?_, ?_⟩
  · change ((ddtCreate.addLb 0).ddtAdd last 1 (displ * extent) last.extent).lb = _
    rw [hadded.lb, addBounds_lb, lbUbCont_eq, lbWith, hnew.1, hnew.2.2]
    cases last.userLb <;> simp
  · dsimp only
    have huser : ((ddtCreate.addLb 0).addBounds last 1 (displ * extent) last.extent).userUb
        = last.userUb := by
      simp [addBounds, hnew.2.1]
    rw [hadded.userUb, huser, hadded.ub, addBounds_ub, lbUbCont_eq, ubWith, hnew.2.1]
    cases last.userUb <;> simp

/-- The cells of the array that the subarray has; an array without dimensions has none. -/
def subarrayCells : List Part → List ℕ
  | [] => []
  | dims => box dims

theorem subarrayCells_cons (d : Part) (dims : List Part) :
    subarrayCells (d :: dims) = box (d :: dims) := rfl

def arrayCells : List Part → ℕ
  | [] => 0
  | dims => volume dims

structure IsSubarray (dims : List Part) (old new : Datatype) : Prop where
  typeMap : typeMap new.desc = placed old.unit old.extent (subarrayCells dims)
  lb : new.lb = 0
  extent : new.extent = arrayCells dims * old.extent

/-- What a subarray takes: every addition adds copies, and no explicit bound of an instance is beyond
the array. -/
structure Selects (dims : List Part) (old : Datatype) : Prop where
  copies : AllCopies dims.reverse old
  lb : ∀ v ∈ explicitLb old, ∀ p ∈ subarrayCells dims, 0 ≤ (p : ℤ) * old.extent + v
  ub : ∀ v ∈ explicitUb old, ∀ p ∈ subarrayCells dims,
    (p : ℤ) * old.extent + v ≤ arrayCells dims * old.extent
  marker : Marker old → old.extent = 0 ∧ old.size = 0

theorem typeMap_copied_eq_nil (hcur : Sound cur) (hsize : cur.size = 0) :
    typeMap (copied cur count stride).desc = [] := by
  rw [typeMap_copied hcur, if_pos]
  unfold Skips
  tauto

theorem typeMap_createVector_eq_nil {bLength : ℕ} {apart : Bool} (hold : Built old)
    (hsize : old.size = 0) (hcount : 0 < count) :
    typeMap (createVector count bLength stride apart old).desc = [] := by
  have hblock := (@fresh_copied old bLength old.extent hold).built.sound
  unfold createVector
  rw [if_neg hcount.ne']
  split_ifs
  · exact typeMap_copied_eq_nil hold.sound hsize
  · exact typeMap_copied_eq_nil hold.sound hsize
  · refine typeMap_copied_eq_nil hblock ?_
    exact (typeMap_eq_nil_iff hblock).mp (typeMap_copied_eq_nil hold.sound hsize)

theorem typeMap_subarrayGo_eq_nil {dims : List Part} {size displ : ℤ} (hcur : Fresh cur)
    (h : typeMap cur.desc = []) : typeMap (subarrayGo extent dims cur size displ).1.desc = [] := by
  induction dims generalizing cur size displ with
  | nil => exact h
  | cons d dims ih =>
    obtain ⟨s, hs, -⟩ := @ddtCreateHvector_eq cur d.length (size * extent) d.pos
    rw [subarrayGo, hs]
    exact ih (fresh_copied hcur.built)
      (typeMap_copied_eq_nil hcur.built.sound ((typeMap_eq_nil_iff hcur.built.sound).mp h))

/-- What the loop leaves, of all dimensions. -/
structure Last (dims : List Part) (old last : Datatype) : Prop where
  fresh : Fresh last
  id : last.id = 0
  tells : ¬NoData old → Tells (AllCopies dims.reverse old) (typeMap last.desc)
    (placed old.unit old.extent (relative dims))
  noData : old.size = 0 → typeMap last.desc = []
  bounds : AllCopies dims.reverse old → (Marker old → old.extent = 0) →
    BoundsAt (explicitLb old) (explicitUb old) (placed origin old.extent (relative dims)) last

theorem placed_relative_singleton {β : Type*} (k : List (ℤ × β)) :
    placed k extent (relative [d]) = strided d.length extent k := by
  rw [placed_cons, placed_nil, volume_nil, Nat.cast_one, one_mul]

theorem last_contiguous (hold : Built old) (d : Part) :
    Last [d] old (ddtCreateContiguous d.length old) := by
  have hadded : ddtCreateContiguous d.length old = copied old d.length old.extent := by
    rw [ddtCreateContiguous, if_neg d.pos.ne']
    rfl
  rw [hadded]
  refine ⟨fresh_copied hold, id_copied, fun hdata => ?_, fun hsize => ?_, fun hcopies hmarker => ?_⟩
  · have hmarker : old.id ≠ dtLb ∧ old.id ≠ dtUb := by
      unfold NoData at hdata
      tauto
    have hstart : Tells True old.unit old.unit := ⟨fun _ => rfl, fun h => absurd trivial h⟩
    rw [placed_relative_singleton]
    have := @Tells.copied old d.length old.extent old.unit True hstart hold.sound hmarker
      (unit_ne_nil hold.sound hdata) d.pos
    rwa [true_and] at this
  · exact typeMap_copied_eq_nil hold.sound hsize
  · rw [placed_relative_singleton]
    exact boundsAt_copied hmarker d.pos hcopies

theorem last_subarrayGo (hold : Built old) (d d' : Part) (dims : List Part) :
    Last (dims.reverse ++ [d', d]) old
      (subarrayGo old.extent dims (ddtCreateVector d'.length d.length d.size old)
        (d.size * d'.size) (d.start + d'.start * d.size)).1 := by
  have hvolume : (d.size : ℤ) * d'.size = volume [d', d] := by
    simp only [volume_cons, volume_nil]
    push_cast
    ring
  have hoffset : (d.start : ℤ) + d'.start * d.size = offset [d', d] := by
    simp only [offset, volume_cons, volume_nil]
    push_cast
    ring
  have hreverse : (dims.reverse ++ [d', d]).reverse = d :: d' :: dims := by simp
  have hplaced {β : Type} (k : List (ℤ × β)) : placed k old.extent (relative [d', d])
      = strided d'.length (old.extent * d.size) (strided d.length old.extent k) := by
    rw [placed_cons, placed_relative_singleton, volume_cons, volume_nil, mul_one, mul_comm]
  have hapart : decide ((d.length : ℤ) ≠ d.size) = false →
      old.extent * d.size = d.length * old.extent := by
    intro h
    rw [decide_eq_false_iff_not, not_not] at h
    rw [h, mul_comm]
  have hfresh := @fresh_createVector old d'.length (old.extent * d.size) d.length
    (decide ((d.length : ℤ) ≠ d.size)) hold d'.pos
  have hid := @id_createVector old d'.length (old.extent * d.size) d.length
    (decide ((d.length : ℤ) ≠ d.size)) d'.pos
  rw [hvolume, hoffset]
  unfold ddtCreateVector
  refine ⟨?_, ?_, fun hdata => ?_, fun hsize => ?_, fun hcopies hmarker => ?_⟩
  · exact (fresh_subarrayGo hfresh hid).1
  · exact (fresh_subarrayGo hfresh hid).2
  · have hvector := tells_createVector hold hdata d'.pos d.pos hapart
    rw [← hplaced] at hvector
    rw [hreverse, AllCopies, hvolume]
    exact tells_subarrayGo (unit_ne_nil hold.sound hdata) hfresh hid hvector
  · exact typeMap_subarrayGo_eq_nil hfresh (typeMap_createVector_eq_nil hold hsize d'.pos)
  · rw [hreverse, AllCopies, hvolume] at hcopies
    have hvector := boundsAt_createVector (fun h => ⟨hmarker h, by rw [hmarker h, zero_mul]⟩) d'.pos
      d.pos hapart hcopies.1
    rw [← hplaced] at hvector
    exact boundsAt_subarrayGo hid hvector hcopies.2

theorem exists_last (hold : Built old) {dims : List Part} (hne : dims ≠ []) :
    ∃ last, Last dims old last ∧ createSubarray dims.reverse old
      = replaceSubarrayType old.extent last (volume dims) (offset dims) := by
  obtain ⟨loop, rfl⟩ : ∃ loop : List Part, dims = loop.reverse := ⟨dims.reverse, by simp⟩
  rw [reverse_reverse]
  match loop with
  | [] => exact absurd rfl hne
  | [d] =>
    refine ⟨_, last_contiguous hold d, ?_⟩
    simp [createSubarray, offset]
  | d :: d' :: loop =>
    have hlast := last_subarrayGo hold d d' loop
    have hsize := subarrayGo_size old.extent loop [d', d] (ddtCreateVector d'.length d.length d.size old)
    have hvolume : (volume [d', d] : ℤ) = d.size * d'.size := by
      rw [← volume_mul, volume_cons, volume_nil, mul_one]
    have hoffset : (offset [d', d] : ℤ) = d.start + d'.start * d.size := by
      rw [← offset_add, volume_cons, volume_nil, mul_one, offset, offset, volume_nil, mul_one,
        add_zero, mul_comm]
    rw [hvolume, hoffset] at hsize
    have hdims : (d :: d' :: loop).reverse = loop.reverse ++ [d', d] := by simp
    rw [hdims]
    exact ⟨_, hlast, congrArg₂ (replaceSubarrayType old.extent _) (congrArg Prod.fst hsize)
      (congrArg Prod.snd hsize)⟩

theorem mem_placed_origin {cells : List ℕ} {b : ℤ × Unit} :
    b ∈ placed origin extent cells ↔ ∃ p ∈ cells, b.1 = p * extent := by
  simp only [placed, mem_flatMap, shift, origin, map_cons, map_nil, mem_singleton,
    zero_add]
  exact exists_congr fun p => and_congr_right fun _ => ⟨congrArg Prod.fst, fun hb => Prod.ext hb rfl⟩

theorem BoundsAt.box {dims : List Part}
    (h : BoundsAt l u (placed origin extent (relative dims)) cur) :
    (∀ v ∈ l, (0 ≤ offset dims * extent + cur.lb ↔ ∀ p ∈ box dims, 0 ≤ (p : ℤ) * extent + v)) ∧
      ∀ v ∈ u, ∀ top : ℤ, (offset dims * extent + cur.ub ≤ top ↔
        ∀ p ∈ box dims, (p : ℤ) * extent + v ≤ top) := by
  have hcells : ∀ p, p ∈ Grid.box dims ↔ ∃ q ∈ relative dims, p = offset dims + q := by
    intro p
    rw [box_eq, mem_map]
    exact ⟨fun ⟨q, hq, hp⟩ => ⟨q, hq, hp.symm⟩, fun ⟨q, hq, hp⟩ => ⟨q, hq, hp.symm⟩⟩
  have hplace (q : ℕ) (v : ℤ) : ((offset dims + q : ℕ) : ℤ) * extent + v
      = offset dims * extent + (q * extent + v) := by
    push_cast
    ring
  constructor
  · intro v hv
    obtain ⟨⟨b, hb, hlb⟩, hleast⟩ := h.lb v hv
    obtain ⟨q, hq, hbq⟩ := mem_placed_origin.mp hb
    constructor
    · intro hpos p hp
      obtain ⟨q', hq', rfl⟩ := (hcells p).mp hp
      have := hleast ⟨(q' * extent, ()), mem_placed_origin.mpr ⟨q', hq', rfl⟩, rfl⟩
      rw [hplace]
      dsimp only at this
      omega
    · intro hall
      have := hall (offset dims + q) ((hcells _).mpr ⟨q, hq, rfl⟩)
      rwa [hplace, ← hbq, ← hlb] at this
  · intro v hv top
    obtain ⟨⟨b, hb, hub⟩, hgreatest⟩ := h.ub v hv
    obtain ⟨q, hq, hbq⟩ := mem_placed_origin.mp hb
    constructor
    · intro hle p hp
      obtain ⟨q', hq', rfl⟩ := (hcells p).mp hp
      have := hgreatest ⟨(q' * extent, ()), mem_placed_origin.mpr ⟨q', hq', rfl⟩, rfl⟩
      rw [hplace]
      dsimp only at this
      omega
    · intro hall
      have := hall (offset dims + q) ((hcells _).mpr ⟨q, hq, rfl⟩)
      rwa [hplace, ← hbq, ← hub] at this

theorem bounds_iff {dims : List Part} {last : Datatype} (hid : last.id = 0)
    (h : BoundsAt l u (placed origin extent (relative dims)) last) :
    ((replaceSubarrayType extent last (volume dims) (offset dims)).lb = 0 ∧
        (replaceSubarrayType extent last (volume dims) (offset dims)).extent = volume dims * extent) ↔
      (∀ v ∈ l, ∀ p ∈ box dims, 0 ≤ (p : ℤ) * extent + v) ∧
        ∀ v ∈ u, ∀ p ∈ box dims, (p : ℤ) * extent + v ≤ volume dims * extent := by
  obtain ⟨hlb, hub⟩ := @bounds_replaceSubarrayType extent last hid (volume dims) (offset dims)
  obtain ⟨hlower, hupper⟩ := h.box
  have hlower' : (replaceSubarrayType extent last (volume dims) (offset dims)).lb = 0 ↔
      ∀ v ∈ l, ∀ p ∈ box dims, 0 ≤ (p : ℤ) * extent + v := by
    rw [hlb, h.userLb]
    cases l with
    | none => simp
    | some v =>
      have := hlower v rfl
      simp only [Option.isSome_some, if_true, Option.mem_def, Option.some.injEq, forall_eq', ← this]
      omega
  have hupper' : (replaceSubarrayType extent last (volume dims) (offset dims)).ub = volume dims * extent
      ↔ ∀ v ∈ u, ∀ p ∈ box dims, (p : ℤ) * extent + v ≤ volume dims * extent := by
    rw [hub, h.userUb]
    cases u with
    | none => simp
    | some v =>
      have := hupper v rfl (volume dims * extent)
      simp only [Option.isSome_some, if_true, Option.mem_def, Option.some.injEq, forall_eq', ← this]
      omega
  rw [← hlower', ← hupper', Datatype.extent]
  omega

theorem createSubarray_isSubarray (hold : Built old) (dims : List Part) :
    (Selects dims old → IsSubarray dims old (createSubarray dims.reverse old)) ∧
      (¬NoData old → IsSubarray dims old (createSubarray dims.reverse old) → Selects dims old) := by
  rcases dims with _ | ⟨d, dims⟩
  · refine ⟨fun _ => ⟨rfl, rfl, by simp [arrayCells]; rfl⟩, fun hdata _ => ⟨trivial, ?_, ?_, ?_⟩⟩
    · simp [subarrayCells]
    · simp [subarrayCells]
    · exact fun hmarker => absurd (by unfold NoData; unfold Marker at hmarker; tauto) hdata
  · obtain ⟨last, hlast, heq⟩ := exists_last hold (cons_ne_nil d dims)
    have hmap := @typeMap_replaceSubarrayType old.extent last hlast.fresh hlast.id (volume (d :: dims))
      (offset (d :: dims))
    rw [heq]
    constructor
    · intro hselects
      have hbounds := hlast.bounds hselects.copies fun h => (hselects.marker h).1
      obtain ⟨hlb, hextent⟩ := (bounds_iff hlast.id hbounds).mpr ⟨hselects.lb, hselects.ub⟩
      refine ⟨?_, hlb, hextent⟩
      rw [hmap, subarrayCells_cons, placed_box]
      by_cases hdata : NoData old
      · have hsize : old.size = 0 := by
          rcases hdata with h | h | h
          · exact (hselects.marker (.inl h)).2
          · exact (hselects.marker (.inr h)).2
          · exact h
        have hunit : old.unit = [] := by
          by_contra hne
          exact size_ne_zero_of_unit hold.sound hne hsize
        rw [hlast.noData hsize, hunit]
        simp [placed, shift]
      · rw [(hlast.tells hdata).1 hselects.copies]
    · intro hdata hsubarray
      have hmarker : ¬Marker old := by
        unfold NoData at hdata
        unfold Marker
        tauto
      have hcopies : AllCopies (d :: dims).reverse old := by
        rw [← (hlast.tells hdata).eq_iff]
        have hsame := hsubarray.typeMap
        rw [hmap, subarrayCells_cons, placed_box] at hsame
        exact map_injective_iff.mpr (fun x y h => by
          simp only [Prod.mk.injEq, add_left_inj] at h
          exact Prod.ext h.1 h.2) hsame
      have hbounds := hlast.bounds hcopies fun h => absurd h hmarker
      obtain ⟨hlb, hub⟩ := (bounds_iff hlast.id hbounds).mp ⟨hsubarray.lb, hsubarray.extent⟩
      exact ⟨hcopies, hlb, hub, fun h => absurd h hmarker⟩

/-- The dimensions in row-major order: C order is, Fortran order is the other way round. -/
def rowMajor (order : ℤ) (dims : List Part) : List Part :=
  if order = mpiOrderC then dims else dims.reverse

theorem mpiTypeCreateSubarray_selects {dims : List Dim} {parts : List Part} {order : ℤ}
    (hold : Built old) (hnull : old ≠ mpiDatatypeNull)
    (horder : order = mpiOrderC ∨ order = mpiOrderFortran) (hcheck : dims.mapM Dim.check = some parts) :
    ∃ new, mpiTypeCreateSubarray dims order old = .ok new ∧
      (Selects (rowMajor order parts) old → IsSubarray (rowMajor order parts) old new) ∧
      (¬NoData old → IsSubarray (rowMajor order parts) old new → Selects (rowMajor order parts) old) := by
  refine ⟨createSubarray (rowMajor order parts).reverse old, ?_, createSubarray_isSubarray hold _⟩
  have hloop : (rowMajor order parts).reverse = if order = mpiOrderC then parts.reverse else parts := by
    unfold rowMajor
    split_ifs
    · rfl
    · exact reverse_reverse parts
  unfold mpiTypeCreateSubarray
  rw [if_neg hnull, if_neg (by tauto), hcheck, hloop]

/-- Two rows and two columns of integers, from the second on, of three rows of four. -/
theorem mpiTypeCreateSubarray_selects_mpiInt :
    ∃ new, mpiTypeCreateSubarray [⟨3, 2, 1⟩, ⟨4, 2, 1⟩] mpiOrderC mpiInt = .ok new ∧
      typeMap new.desc = [20, 24, 36, 40].map (fun disp : ℤ => (disp, (⟨11, 4, by decide⟩ : Basic))) ∧
      new.lb = 0 ∧ new.extent = 48 := by
  obtain ⟨new, hnew, hselects, -⟩ := @mpiTypeCreateSubarray_selects mpiInt [⟨3, 2, 1⟩, ⟨4, 2, 1⟩]
    [⟨3, 1, 2, by decide, by decide⟩, ⟨4, 1, 2, by decide, by decide⟩] mpiOrderC built_mpiInt (by decide)
    (.inl rfl) rfl
  have hnone : explicitLb mpiInt = none ∧ explicitUb mpiInt = none := ⟨rfl, rfl⟩
  have hsubarray := hselects ⟨⟨by decide, trivial⟩, by simp [hnone], by simp [hnone],
    fun h => absurd h (by unfold Marker; decide)⟩
  exact ⟨new, hnew, hsubarray.typeMap.trans (by decide), hsubarray.lb, hsubarray.extent.trans (by decide)⟩

/-- Two pairs of integers of which the second starts four bytes after the first, and an integer with a
lower bound four bytes before it. -/
theorem subarray_not_selected :
    (∃ new, mpiTypeCreateSubarray [⟨3, 2, 0⟩] mpiOrderC
        ((ddtCreateContiguous 2 mpiInt).ddtCreateResized 0 4) = .ok new ∧
      typeMap new.desc = [0, 4, 8, 12].map (fun disp : ℤ => (disp, (⟨11, 4, by decide⟩ : Basic)))) ∧
    ∃ new, mpiTypeCreateSubarray [⟨3, 2, 0⟩] mpiOrderC
        (ddtCreateStruct [⟨1, -4, 0, marker dtLb⟩, ⟨1, 0, 1, mpiInt⟩]) = .ok new ∧ new.lb = -4 :=
  ⟨⟨_, rfl, by decide⟩, _, rfl, by decide⟩

end Datatype

end OpenMPI.Ddt
