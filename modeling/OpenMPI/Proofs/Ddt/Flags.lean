import OpenMPI.Proofs.Ddt.Datatype

/-!
# What the layout flags say

The contiguous flag is right for every datatype (`Built.sound`).  `DT_FLAG_NO_GAPS` also depends on the
extent, and what has no bytes moves the bounds without a look at the flag: the flags stay right
exactly where the extent is the same then (`ddtAdd_truthful_iff`).
-/

namespace OpenMPI.Ddt

open Lib

namespace Datatype

variable {d base add old : Datatype} {count : ℕ} {disp extent : ℤ}

/-- The flags are right: the bytes of one element, and of any number of them, are one run. -/
structure Truthful (d : Datatype) : Prop where
  contiguous : d.contiguous = true → bytes (stream d.desc d.extent 1) = run d.trueLb d.size
  noGaps : d.noGaps = true → d.contiguous = true ∧ d.ub - d.lb = d.size ∧
    ∀ count, bytes (stream d.desc d.extent count) = run d.trueLb (count * d.size)

def lbWith (base add : Datatype) (lb : ℤ) : ℤ :=
  if add.userLb = base.userLb then min base.lb lb else if base.userLb then base.lb else lb

def ubWith (base add : Datatype) (ub : ℤ) : ℤ :=
  if add.userUb = base.userUb then max base.ub ub else if base.userUb then base.ub else ub

/-- The extent of two, up to the next multiple of the alignment if no upper bound is explicit. -/
def extentWith (base add : Datatype) (bounds : ℤ × ℤ) : ℤ :=
  let extent := ubWith base add bounds.2 - lbWith base add bounds.1
  let align : ℕ := max base.align add.align
  let epsilon := extent.tmod align
  if !(base.userUb || add.userUb) && epsilon ≠ 0 then extent + (align - epsilon) else extent

theorem extent_addBounds : (base.addBounds add count disp extent).extent
    = extentWith base add (lbUbCont count disp add.lb add.ub extent) := by
  have hlb (lb : ℤ) : (if add.userLb ≠ base.userLb then (if base.userLb then base.lb else lb)
      else min base.lb lb) = lbWith base add lb := by
    unfold lbWith
    split_ifs <;> simp_all
  have hub (ub : ℤ) : (if base.userUb ≠ add.userUb then (if base.userUb then base.ub else ub)
      else max base.ub ub) = ubWith base add ub := by
    unfold ubWith
    split_ifs <;> simp_all
  unfold Datatype.extent addBounds extentWith
  simp only [hlb, hub]
  split_ifs
  · ring
  · rfl

/-- What is added has bytes, is a marker or leaves the extent of a base without gaps as it is. -/
def KeepsExtent (base add : Datatype) (count : ℕ) (disp extent : ℤ) : Prop :=
  base.noGaps = true → add.id ≠ dtLb → add.id ≠ dtUb → add.tooManyEntries count = false →
    count = 0 ∨ add.size = 0 →
      extentWith base add (lbUbCont count disp add.lb add.ub
        (if extent = -1 then add.extent else extent)) = base.extent

theorem Sound.bytes_visits (hd : Sound d) (hcontiguous : d.contiguous = true) :
    bytes (visits d.desc) = run d.trueLb d.size := by
  obtain ⟨b, hb, hrun⟩ := hd.described
  rw [hb.desc_eq, Body.visits_flatten]
  rcases Nat.eq_zero_or_pos d.size with hzero | hpos
  · have hnil : bytes b.blocks = [] :=
      List.length_eq_zero_iff.mp (by rw [length_bytes, hb.width_eq, hzero])
    rw [hnil, hzero, run_zero]
  · exact hrun hcontiguous hpos

theorem Sound.truthful (hd : Sound d)
    (h : d.noGaps = true → d.contiguous = true ∧ d.ub - d.lb = d.size) : Truthful d := by
  refine ⟨fun hcontiguous => ?_, fun hgaps => ⟨(h hgaps).1, (h hgaps).2, fun count => ?_⟩⟩
  · rw [stream, strided_one]
    exact hd.bytes_visits hcontiguous
  · obtain ⟨hcontiguous, hextent⟩ := h hgaps
    rw [stream, Datatype.extent, hextent, ← bytes_strided_run]
    refine bytes_strided_congr ?_
    rw [hd.bytes_visits hcontiguous]
    simp

theorem Truthful.addLb (hbase : Sound base) (h : Truthful base)
    (hopen : base.committed = false ∧ base.predefined = false) : Truthful (base.addLb disp) := by
  have hsound : Sound (base.addLb disp) :=
    hbase.of_data rfl rfl rfl rfl rfl rfl (fun h => by simp [Datatype.addLb, hopen.2] at h)
      (fun h => by simp [Datatype.addLb, hopen.1] at h)
  refine hsound.truthful fun hgaps => ?_
  simp only [Datatype.addLb, Bool.and_eq_true, decide_eq_true_eq] at hgaps
  exact ⟨(h.noGaps hgaps.1).1, hgaps.2⟩

theorem Truthful.addUb (hbase : Sound base) (h : Truthful base)
    (hopen : base.committed = false ∧ base.predefined = false) : Truthful (base.addUb disp) := by
  have hsound : Sound (base.addUb disp) :=
    hbase.of_data rfl rfl rfl rfl rfl rfl (fun h => by simp [Datatype.addUb, hopen.2] at h)
      (fun h => by simp [Datatype.addUb, hopen.1] at h)
  refine hsound.truthful fun hgaps => ?_
  simp only [Datatype.addUb, Bool.and_eq_true, decide_eq_true_eq] at hgaps
  exact ⟨(h.noGaps hgaps.1).1, hgaps.2⟩

theorem noGaps_addData (h : (base.addData add count disp extent).noGaps = true) :
    (base.addData add count disp extent).contiguous = true ∧
      (base.addData add count disp extent).ub - (base.addData add count disp extent).lb
        = (base.addData add count disp extent).size := by
  simp only [Datatype.addData, Bool.and_eq_true, decide_eq_true_eq] at h ⊢
  exact ⟨h.1, h.2.symm⟩

theorem truthful_addBounds_iff (hbase : Sound base) (htruthful : Truthful base)
    (hopen : base.committed = false ∧ base.predefined = false) :
    Truthful (base.addBounds add count disp extent) ↔ (base.noGaps = true →
      extentWith base add (lbUbCont count disp add.lb add.ub extent) = base.extent) := by
  have hsound : Sound (base.addBounds add count disp extent) :=
    hbase.of_data rfl rfl rfl rfl rfl rfl (fun h => by simp [addBounds, hopen.2] at h)
      (fun h => by simp [addBounds, hopen.1] at h)
  have hextent := @extent_addBounds base add count disp extent
  constructor
  · intro h hgaps
    have hafter : (base.addBounds add count disp extent).extent = base.size :=
      (h.noGaps hgaps).2.1
    rw [← hextent, hafter]
    exact (htruthful.noGaps hgaps).2.1.symm
  · intro h
    refine hsound.truthful fun hgaps => ⟨(htruthful.noGaps hgaps).1, ?_⟩
    rw [← Datatype.extent, hextent, h hgaps]
    exact (htruthful.noGaps hgaps).2.1

theorem ddtAdd_truthful_iff (hbase : Sound base) (htruthful : Truthful base)
    (hopen : base.committed = false ∧ base.predefined = false) (hadd : Sound add) :
    Truthful (base.ddtAdd add count disp extent) ↔ KeepsExtent base add count disp extent := by
  have hsound : Sound (base.ddtAdd add count disp extent) := hbase.ddtAdd hopen hadd
  unfold KeepsExtent Datatype.ddtAdd at *
  by_cases hlb : add.id = dtLb
  · rw [if_pos hlb]
    exact iff_of_true (htruthful.addLb hbase hopen) fun _ h => absurd hlb h
  by_cases hub : add.id = dtUb
  · rw [if_neg hlb, if_pos hub]
    exact iff_of_true (htruthful.addUb hbase hopen) fun _ _ h => absurd hub h
  by_cases hmany : add.tooManyEntries count = true
  · rw [if_neg hlb, if_neg hub, if_pos hmany]
    exact iff_of_true htruthful fun _ _ _ h => by rw [hmany] at h; cases h
  dsimp only at hsound ⊢
  rw [if_neg hlb, if_neg hub, if_neg hmany] at hsound ⊢
  generalize (if extent = -1 then add.extent else extent) = extent at hsound ⊢
  by_cases hempty : count = 0 ∨ add.size = 0
  · rw [if_pos hempty, truthful_addBounds_iff hbase htruthful hopen]
    exact ⟨fun h hgaps _ _ _ _ => h hgaps,
      fun h hgaps => h hgaps hlb hub (Bool.eq_false_of_not_eq_true hmany) hempty⟩
  · rw [if_neg hempty] at hsound ⊢
    exact iff_of_true (hsound.truthful noGaps_addData) fun _ _ _ _ h => absurd h hempty

theorem truthful_basic (t : Basic) (align : ℕ) : Truthful (basic t align) :=
  (sound_basic t align).truthful fun _ => ⟨rfl, by simp [basic]⟩

theorem truthful_create : Truthful ddtCreate :=
  sound_empty.truthful fun h => absurd h (by decide)

theorem truthful_marker (id : ℕ) : Truthful (marker id) :=
  (sound_marker id).truthful fun h => absurd h (by simp [marker])

theorem Truthful.duplicate (hd : Sound d) (h : Truthful d) : Truthful d.ddtDuplicate :=
  hd.duplicate.truthful fun hgaps => ⟨(h.noGaps hgaps).1, (h.noGaps hgaps).2.1⟩

theorem truthful_resized (hd : Sound d) (lb extent : ℤ) : Truthful (d.ddtCreateResized lb extent) := by
  refine (hd.resized lb extent).truthful fun hgaps => ?_
  simp only [ddtCreateResized, Bool.and_eq_true, decide_eq_true_eq] at hgaps
  refine ⟨hgaps.2, ?_⟩
  show lb + extent - lb = d.size
  omega

theorem Truthful.commit (hd : Sound d) (h : Truthful d) : Truthful d.ddtCommit := by
  refine hd.commit.truthful fun hgaps => ?_
  unfold ddtCommit at hgaps ⊢
  split_ifs at hgaps ⊢ <;> exact ⟨(h.noGaps hgaps).1, (h.noGaps hgaps).2.1⟩

theorem Truthful.predefine (hd : Sound d) (h : Truthful d) (id : ℕ) {ub : ℤ}
    (huncommitted : d.committed = false) (hlb : d.trueLb = 0) (hub : d.noGaps = true → ub = d.ub) :
    Truthful (d.predefine id ub) := by
  refine (hd.predefine id ub huncommitted hlb).truthful fun hgaps => ?_
  unfold Datatype.predefine ddtCommit at hgaps ⊢
  rw [if_neg (by simp [huncommitted])] at hgaps ⊢
  refine ⟨(h.noGaps hgaps).1, ?_⟩
  show ub - d.lb = d.size
  rw [hub hgaps]
  exact (h.noGaps hgaps).2.1

/-- What the constructors build where nothing that is added without bytes moves the bounds of a
datatype without gaps.  A structure of two basic types that has no gaps ends, for the compiler, where
its description does. -/
inductive Careful : Datatype → Prop
  | basic {t : Basic} {align : ℕ} (hid : t.id ≠ dtLb ∧ t.id ≠ dtUb) : Careful (basic t align)
  | marker {id : ℕ} : Careful (marker id)
  | create : Careful ddtCreate
  | add {base add : Datatype} {count : ℕ} {disp extent : ℤ} (hbase : Careful base)
    (hopen : base.committed = false ∧ base.predefined = false) (hadd : Careful add)
    (hkeeps : KeepsExtent base add count disp extent) : Careful (base.ddtAdd add count disp extent)
  | duplicate {old : Datatype} (hold : Careful old) : Careful old.ddtDuplicate
  | resized {old : Datatype} {lb extent : ℤ} (hold : Careful old) :
    Careful (old.ddtCreateResized lb extent)
  | commit {d : Datatype} (hd : Careful d) : Careful d.ddtCommit
  | predefine {d : Datatype} {id : ℕ} {ub : ℤ} (hd : Careful d) (hcommitted : d.committed = false)
    (hdata : d.data = true) (hlb : d.trueLb = 0) (hid : id ≠ dtLb ∧ id ≠ dtUb)
    (hub : d.noGaps = true → ub = d.ub) : Careful (d.predefine id ub)

theorem Careful.built (h : Careful d) : Built d := by
  induction h with
  | basic hid => exact .basic hid
  | marker => exact .marker
  | create => exact .create
  | add _ hopen _ _ hbase hadd => exact .add hbase hopen hadd
  | duplicate _ hold => exact .duplicate hold
  | resized _ hold => exact .resized hold
  | commit _ hd => exact .commit hd
  | predefine _ hcommitted hdata hlb hid _ hd => exact .predefine hd hcommitted hdata hlb hid

theorem Careful.truthful (h : Careful d) : Truthful d := by
  induction h with
  | basic => exact truthful_basic _ _
  | marker => exact truthful_marker _
  | create => exact truthful_create
  | add hbase hopen hadd hkeeps htruthful _ =>
    exact (ddtAdd_truthful_iff hbase.built.sound htruthful hopen hadd.built.sound).mpr hkeeps
  | duplicate hold htruthful => exact htruthful.duplicate hold.built.sound
  | resized hold _ => exact truthful_resized hold.built.sound _ _
  | commit hd htruthful => exact htruthful.commit hd.built.sound
  | predefine hd hcommitted _ hlb _ hub htruthful =>
    exact htruthful.predefine hd.built.sound _ hcommitted hlb hub

def farEmpty : Datatype := ddtCreateStruct [⟨1, 0, 0, mpiInt⟩, ⟨0, 100, 0, mpiInt⟩]

end Datatype

end OpenMPI.Ddt
