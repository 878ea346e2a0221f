import Mathlib.Data.List.Find
import Mathlib.Data.List.Induction
import OpenMPI.Class.PointerArray

/-!
# The books of a pointer array

`number_free` and `lowest_free` say which slots are free (`Kept`), as long as the calls are `Careful`.
-/

namespace OpenMPI.Class

open List Option

namespace PointerArray

variable {α : Type} {t t' : PointerArray α} {index soft hard : ℤ} {value : Option α} {memory : Bool}

structure Kept (t : PointerArray α) : Prop where
  size_eq : t.size = t.slots.length
  size_le : t.size ≤ t.maxSize
  maxSize_le : t.maxSize ≤ intMax
  numberFree : t.numberFree = t.slots.countP Option.isNone
  lowestFree : 0 ≤ t.lowestFree ∧ t.lowestFree ≤ t.size
  taken : ∀ i, 0 ≤ i → i < t.lowestFree → t.getItem i ≠ none
  free : t.lowestFree < t.size → t.getItem t.lowestFree = none

@[simp] theorem slot_natCast (t : PointerArray α) (n : ℕ) : t.slot n = t.slots[n]? := by
  simp [slot, show ¬(n : ℤ) < 0 by omega]

@[simp] theorem getItem_natCast (t : PointerArray α) (n : ℕ) : t.getItem n = t.slots[n]?.join := by
  rw [getItem, slot_natCast]

theorem slot_eq_some (h : t.size = t.slots.length) (hpos : 0 ≤ index) (hlt : index < t.size) :
    t.slot index = some (t.getItem index) := by
  obtain ⟨n, rfl⟩ := Int.eq_ofNat_of_zero_le hpos
  have hn : n < t.slots.length := by omega
  rw [slot_natCast, getItem_natCast, getElem?_eq_getElem hn]
  rfl

theorem slot_eq_none (h : t.size = t.slots.length) (hout : index < 0 ∨ t.size ≤ index) :
    t.slot index = none := by
  unfold slot
  split_ifs with hneg
  · rfl
  · simp only [List.getElem?_eq_none_iff]
    omega

theorem getItem_of_size_le (h : t.size = t.slots.length) (hle : t.size ≤ index) :
    t.getItem index = none := by
  rw [getItem, slot_eq_none h (.inr hle)]
  rfl

theorem slots_store (t : PointerArray α) (index : ℤ) (value : Option α) :
    (t.store index value).slots = t.slots.set index.toNat value := by
  cases h : t.addr <;> simp [store, slots, h]

theorem getItem_store (h : t.size = t.slots.length) (hpos : 0 ≤ index) (hlt : index < t.size)
    (value : Option α) (i : ℤ) :
    (t.store index value).getItem i = if i = index then value else t.getItem i := by
  obtain ⟨n, rfl⟩ := Int.eq_ofNat_of_zero_le hpos
  by_cases hneg : i < 0
  · rw [getItem, slot, if_pos hneg, getItem, slot, if_pos hneg, if_neg (by omega)]
  · obtain ⟨m, rfl⟩ := Int.eq_ofNat_of_zero_le (Int.not_lt.mp hneg)
    have hn : n < t.slots.length := by omega
    rw [getItem_natCast, slots_store, Int.toNat_natCast, getElem?_set, getItem_natCast]
    by_cases heq : n = m
    · subst heq
      simp [hn]
    · rw [if_neg heq, if_neg (by omega)]

theorem nextFree_spec (h : t.size = t.slots.length) (hpos : 0 ≤ index) (hle : index ≤ t.size)
    (htaken : ∀ i, 0 ≤ i → i < index → t.getItem i ≠ none) :
    (0 ≤ (t.nextFree index).getD t.size ∧ (t.nextFree index).getD t.size ≤ t.size) ∧
      (∀ i, 0 ≤ i → i < (t.nextFree index).getD t.size → t.getItem i ≠ none) ∧
      ((t.nextFree index).getD t.size < t.size →
        t.getItem ((t.nextFree index).getD t.size) = none) := by
  obtain ⟨n, rfl⟩ := Int.eq_ofNat_of_zero_le hpos
  have hfree (m : ℕ) (hm : m < t.slots.length) :
      (t.slots[m]?.any Option.isNone = true) ↔ t.getItem m = none := by
    rw [getItem_natCast, getElem?_eq_getElem hm]
    simp
  have hsize : t.size.toNat = t.slots.length := by omega
  unfold nextFree
  simp only [Int.toNat_natCast, hsize]
  cases hfind : (range' n (t.slots.length - n)).find? fun i =>
      t.slots[i]?.any Option.isNone with
  | none =>
    rw [find?_range'_eq_none] at hfind
    simp only [map_none, getD_none]
    refine ⟨by omega, fun i hi hlt => ?_, fun hlt => absurd hlt (lt_irrefl _)⟩
    obtain ⟨m, rfl⟩ := Int.eq_ofNat_of_zero_le hi
    by_cases hm : m < n
    · exact htaken m (by omega) (by omega)
    · have := hfind m (by omega) (by omega)
      rw [Ne, ← hfree m (by omega)]
      simpa using this
  | some k =>
    rw [find?_range'_eq_some] at hfind
    obtain ⟨hk, hmem, hbefore⟩ := hfind
    have hmem' := mem_range'_1.mp hmem
    simp only [map_some, getD_some]
    refine ⟨by omega, fun i hi hlt => ?_, fun _ => (hfree k (by omega)).mp hk⟩
    obtain ⟨m, rfl⟩ := Int.eq_ofNat_of_zero_le hi
    by_cases hm : m < n
    · exact htaken m (by omega) (by omega)
    · have := hbefore m (by omega) (by omega)
      rw [Ne, ← hfree m (by omega)]
      simpa using this

theorem countP_store (h : t.size = t.slots.length) (hpos : 0 ≤ index) (hlt : index < t.size)
    (value : Option α) :
    ((t.store index value).slots.countP Option.isNone : ℤ)
      = t.slots.countP Option.isNone - (if (t.getItem index).isNone then 1 else 0)
        + (if value.isNone then 1 else 0) := by
  obtain ⟨n, rfl⟩ := Int.eq_ofNat_of_zero_le hpos
  have hn : n < t.slots.length := by omega
  have hget : t.getItem n = t.slots[n] := by
    rw [getItem_natCast, getElem?_eq_getElem hn]
    rfl
  rw [slots_store, Int.toNat_natCast, countP_set hn, hget]
  have hpos : t.slots[n].isNone = true → 0 < t.slots.countP Option.isNone := fun hnone =>
    countP_pos_iff.mpr ⟨_, getElem_mem hn, hnone⟩
  split_ifs with h1 h2
  · have := hpos h1
    omega
  · have := hpos h1
    omega
  all_goals omega

def newSize (t : PointerArray α) (soft hard : ℤ) : ℤ := if soft > t.maxSize then hard else soft

def resized (t : PointerArray α) (n : ℕ) : PointerArray α :=
  { t with
    numberFree := t.numberFree + (n - t.size)
    addr := some (t.slots.take n ++ List.replicate (n - t.slots.length) none)
    size := n }

theorem growTable_cases {grown : Bool} (h : t.growTable soft hard memory = some (grown, t')) :
    (grown = false ∧ t' = t) ∨
      ∃ n : ℕ, grown = true ∧ t.newSize soft hard = n ∧ 0 < n ∧ (n : ℤ) < t.maxSize ∧
        t' = t.resized n := by
  unfold growTable at h
  rw [show (if soft > t.maxSize then hard else soft) = t.newSize soft hard from rfl] at h
  dsimp only at h
  split_ifs at h with h1 h2 h3 h4 <;> simp only [Option.some.injEq, Prod.mk.injEq] at h
  · exact .inl ⟨h.1.symm, h.2.symm⟩
  · exact .inl ⟨h.1.symm, h.2.symm⟩
  · obtain ⟨n, hn⟩ := Int.eq_ofNat_of_zero_le (le_of_lt h4.1)
    refine .inr ⟨n, h.1.symm, hn, by omega, by omega, ?_⟩
    rw [← h.2, hn]
    rfl
  · exact .inl ⟨h.1.symm, h.2.symm⟩

theorem growTable_total (h : t.newSize soft hard = 0 → t.maxSize ≤ 0) :
    ∃ grown t', t.growTable soft hard memory = some (grown, t') := by
  unfold growTable
  rw [show (if soft > t.maxSize then hard else soft) = t.newSize soft hard from rfl]
  dsimp only
  split_ifs with h1 h2 h3 h4
  · exact ⟨_, _, rfl⟩
  · exact ⟨_, _, rfl⟩
  · have := h h3
    omega
  · exact ⟨_, _, rfl⟩
  · exact ⟨_, _, rfl⟩

theorem slots_resized {n : ℕ} (hle : t.slots.length ≤ n) :
    (t.resized n).slots = t.slots ++ replicate (n - t.slots.length) none := by
  simp [resized, slots, take_of_length_le (show (t.addr.getD []).length ≤ n from hle)]

theorem getItem_resized {n : ℕ} (hle : t.slots.length ≤ n) (i : ℤ) :
    (t.resized n).getItem i = t.getItem i := by
  by_cases hneg : i < 0
  · rw [getItem, slot, if_pos hneg, getItem, slot, if_pos hneg]
  · obtain ⟨m, rfl⟩ := Int.eq_ofNat_of_zero_le (Int.not_lt.mp hneg)
    rw [getItem_natCast, getItem_natCast, slots_resized hle, getElem?_append]
    split_ifs with hlt
    · rfl
    · rw [getElem?_replicate, getElem?_eq_none (by omega)]
      split_ifs <;> rfl

theorem Kept.resized (h : Kept t) {n : ℕ} (hle : t.size ≤ n) (hlt : (n : ℤ) < t.maxSize) :
    Kept (t.resized n) := by
  have hsize := h.size_eq
  have hlow := h.lowestFree
  have hslots := @slots_resized α t n (by omega)
  have hget := @getItem_resized α t n (by omega)
  refine ⟨?_, le_of_lt hlt, h.maxSize_le, ?_, ⟨hlow.1, le_trans hlow.2 hle⟩, ?_, ?_⟩
  · rw [hslots]
    simp only [PointerArray.resized, length_append, length_replicate]
    omega
  · rw [hslots, countP_append, countP_replicate]
    simp only [PointerArray.resized, isNone_none, if_true, h.numberFree]
    omega
  · intro i hi hlt'
    rw [hget]
    exact h.taken i hi hlt'
  · intro hlt'
    rw [hget]
    by_cases hin : t.lowestFree < t.size
    · exact h.free hin
    · exact getItem_of_size_le hsize (Int.not_lt.mp hin)

/-- The call fails and changes nothing, or it is done within the table, changes one item and keeps
the books. -/
def Ok (t : PointerArray α) (r : Result α) (t' : PointerArray α) : Prop :=
  match r with
  | .failed => t' = t
  | .initialised => Kept t' ∧ ∀ i, t'.getItem i = none
  | .item index value =>
    Kept t' ∧ 0 ≤ index ∧ index < t'.size ∧ t'.size ≤ t'.maxSize ∧ t'.getItem index = value ∧
      ∀ i, i ≠ index → t'.getItem i = t.getItem i

theorem Kept.stored (h : Kept t) (hpos : 0 ≤ index) (hlt : index < t.size) {numberFree low : ℤ}
    (hfree : numberFree = t.numberFree - (if (t.getItem index).isNone then 1 else 0)
      + (if value.isNone then 1 else 0))
    (hlow : (0 ≤ low ∧ low ≤ t.size) ∧
      (∀ i, 0 ≤ i → i < low → (t.store index value).getItem i ≠ none) ∧
      (low < t.size → (t.store index value).getItem low = none)) :
    Ok t (.item index value)
      { t.store index value with numberFree := numberFree, lowestFree := low } := by
  have hsize := h.size_eq
  have hget := @getItem_store α t index hsize hpos hlt value
  refine ⟨⟨?_, h.size_le, h.maxSize_le, ?_, hlow.1, hlow.2.1, hlow.2.2⟩, hpos, hlt, h.size_le, ?_, ?_⟩
  · show t.size = (t.store index value).slots.length
    rw [slots_store, length_set, hsize]
  · show numberFree = (t.store index value).slots.countP Option.isNone
    rw [countP_store hsize hpos hlt, hfree, h.numberFree]
  · show (t.store index value).getItem index = value
    rw [hget, if_pos rfl]
  · intro i hi
    show (t.store index value).getItem i = t.getItem i
    rw [hget, if_neg hi]

def Lowest (t : PointerArray α) (low : ℤ) : Prop :=
  (0 ≤ low ∧ low ≤ t.size) ∧ (∀ i, 0 ≤ i → i < low → t.getItem i ≠ none) ∧
    (low < t.size → t.getItem low = none)

theorem Kept.lowest_taken (h : Kept t) (hpos : 0 ≤ index) (hlt : index < t.size)
    (hvalue : value ≠ none) (hlow : index = t.lowestFree) {start : ℤ}
    (hstart : start = index ∨ start = index + 1) :
    (t.store index value).Lowest (((t.store index value).nextFree start).getD t.size) := by
  have hget := @getItem_store α t index h.size_eq hpos hlt value
  have hsize : (t.store index value).size = (t.store index value).slots.length := by
    rw [slots_store, length_set]
    exact h.size_eq
  refine @nextFree_spec α (t.store index value) start hsize (by omega)
    (show start ≤ t.size by omega) fun i hi hlt' => ?_
  rw [hget]
  split_ifs with heq
  · exact hvalue
  · exact h.taken i hi (by omega)

theorem nextFree_store (hpos : 0 ≤ index) (value : Option α) :
    (t.store index value).nextFree (index + 1) = t.nextFree (index + 1) := by
  unfold nextFree
  rw [slots_store]
  dsimp only
  congr 1
  refine find?_congr fun i hi => ?_
  have := (mem_range'_1.mp hi).1
  rw [getElem?_set_ne (by omega)]

theorem Kept.lowest_other (h : Kept t) (hpos : 0 ≤ index) (hlt : index < t.size)
    (hvalue : value ≠ none) (hlow : index ≠ t.lowestFree) :
    (t.store index value).Lowest t.lowestFree := by
  have hget := @getItem_store α t index h.size_eq hpos hlt value
  refine ⟨h.lowestFree, fun i hi hlt' => ?_, fun hlt' => ?_⟩
  · rw [hget]
    split_ifs
    · exact hvalue
    · exact h.taken i hi hlt'
  · rw [hget, if_neg (Ne.symm hlow)]
    exact h.free hlt'

theorem Kept.lowest_freed (h : Kept t) (hpos : 0 ≤ index) (hlt : index < t.size) :
    (t.store index none).Lowest (if index < t.lowestFree then index else t.lowestFree) := by
  have hget := @getItem_store α t index h.size_eq hpos hlt none
  have hlow := h.lowestFree
  unfold Lowest
  split_ifs with hin
  · refine ⟨⟨hpos, le_of_lt hlt⟩, fun i hi hlt' => ?_, fun _ => by rw [hget, if_pos rfl]⟩
    rw [hget, if_neg (by omega)]
    exact h.taken i hi (by omega)
  · refine ⟨hlow, fun i hi hlt' => ?_, fun hlt' => ?_⟩
    · rw [hget, if_neg (by omega)]
      exact h.taken i hi hlt'
    · rw [hget]
      split_ifs
      · rfl
      · exact h.free hlt'

theorem Kept.lowest_lt (h : Kept t) (hfree : 0 < t.numberFree) : t.lowestFree < t.size := by
  by_contra hle
  rw [h.numberFree, Int.natCast_pos, countP_pos_iff] at hfree
  obtain ⟨slot, hmem, hnone⟩ := hfree
  obtain ⟨n, hn, rfl⟩ := getElem_of_mem hmem
  have hsize := h.size_eq
  have hlow := h.lowestFree
  refine h.taken n (by omega) (by omega) ?_
  rw [getItem_natCast, getElem?_eq_getElem hn]
  simpa using hnone

theorem Kept.lowest_eq_size (h : Kept t) (hfull : t.numberFree = 0) : t.lowestFree = t.size := by
  have hsize := h.size_eq
  have hlow := h.lowestFree
  by_contra hne
  have hfree := h.free (by omega)
  obtain ⟨n, hn⟩ := Int.eq_ofNat_of_zero_le hlow.1
  have hlt : n < t.slots.length := by omega
  rw [hn, getItem_natCast, getElem?_eq_getElem hlt] at hfree
  have hzero := h.numberFree
  rw [hfull] at hzero
  have hcount : t.slots.countP Option.isNone = 0 := by omega
  have := countP_eq_zero.mp hcount _ (getElem_mem hlt)
  simp only [join_some] at hfree
  simp [hfree] at this

theorem Kept.numberFree_nonneg (h : Kept t) : 0 ≤ t.numberFree := by
  rw [h.numberFree]
  omega

theorem toInt_eq {n : ℤ} (hpos : 0 ≤ n) (hlt : n ≤ intMax) : toInt n = n := by
  unfold intMax at hlt
  rw [toInt, Int.bmod_def]
  split_ifs <;> omega

theorem toInt_neg {n : ℤ} (hlt : intMax < n) (hle : n ≤ 2 * intMax) : toInt n < 0 := by
  unfold intMax at hlt hle
  rw [toInt, Int.bmod_def]
  split_ifs <;> omega

theorem lt_of_newSize_softFor {n : ℕ} (hpos : 0 ≤ index) (hint : index ≤ intMax)
    (hmax : t.maxSize ≤ intMax)
    (hodd : ¬(index + 1 = t.maxSize ∧ t.maxSize % 2 = 1 ∧ t.maxSize < intMax))
    (hsize : t.newSize (softFor index) index = n) (hlt : (n : ℤ) < t.maxSize) : index < n := by
  have hdiv : (index.tdiv tableGrow + 1) * tableGrow = (index / 2 + 1) * 2 := by
    rw [Int.tdiv_eq_ediv_of_nonneg hpos]
    rfl
  unfold newSize softFor at hsize
  rw [hdiv] at hsize
  by_cases hfit : (index / 2 + 1) * 2 ≤ intMax
  · rw [toInt_eq (by omega) hfit] at hsize
    split_ifs at hsize <;> omega
  · have := toInt_neg (Int.not_le.mp hfit) (by unfold intMax at *; omega)
    unfold intMax at *
    split_ifs at hsize <;> omega

theorem lt_of_newSize_double {n : ℕ} (hpos : 0 < t.size) (hsize : t.size ≤ intMax)
    (hmax : t.maxSize ≤ intMax) (hnew : t.newSize (toInt (t.size * tableGrow)) fortranHandleMax = n)
    (hlt : (n : ℤ) < t.maxSize) : t.size < n := by
  unfold newSize at hnew
  by_cases hfit : t.size * tableGrow ≤ intMax
  · rw [toInt_eq (by unfold tableGrow; omega) hfit] at hnew
    unfold fortranHandleMax tableGrow at hnew
    split_ifs at hnew <;> omega
  · have := toInt_neg (Int.not_le.mp hfit) (by unfold tableGrow; omega)
    unfold fortranHandleMax at hnew
    split_ifs at hnew <;> omega

/-- What a call has to be like for the books to be kept.  An array is set up once, with no more slots
than it may have, and gets the memory; items are set at indexes, but not beyond the table at the
last one of an odd number that the table may have. -/
def Careful (t : PointerArray α) : Call α → Prop
  | .init initialAllocation maxSize blockSize memory =>
    let n := if 0 < initialAllocation.toInt then initialAllocation.toInt else blockSize.toInt
    maxSize.toInt < blockSize.toInt ∨
      (memory = true ∧ 0 ≤ n ∧ n ≤ maxSize.toInt ∧ t.lowestFree = 0)
  | .add _ _ => t.addr = none ∨ 0 < t.size ∨ t.maxSize ≤ 0
  | .setItem index _ _ => Reaches index.toInt
  | .testAndSetItem index _ _ => Reaches index.toInt
where
  /-- The table can be made to reach beyond the index, or is known not to. -/
  Reaches (index : ℤ) : Prop :=
    0 ≤ index ∧ ¬(t.size ≤ index ∧ index + 1 = t.maxSize ∧ t.maxSize % 2 = 1 ∧ t.maxSize < intMax)

theorem Kept.growTo (h : Kept t) (hint : index ≤ intMax) (hreach : Careful.Reaches t index)
    (memory : Bool) :
    t.growTo index memory = some (false, t) ∨
      ∃ t', t.growTo index memory = some (true, t') ∧ Kept t' ∧ index < t'.size ∧
        (∀ i, t'.getItem i = t.getItem i) ∧ (index < t.size → t' = t) := by
  obtain ⟨hpos, hodd⟩ := hreach
  unfold PointerArray.growTo
  split_ifs with hle
  · have hodd' := fun hmax => hodd ⟨hle, hmax⟩
    obtain ⟨grown, t', hgrow⟩ := @growTable_total α t (softFor index) index memory fun hzero => by
      by_contra hmax
      have := @lt_of_newSize_softFor α t index 0 hpos hint h.maxSize_le hodd' hzero (by omega)
      omega
    rw [hgrow]
    obtain ⟨rfl, rfl⟩ | ⟨n, rfl, hnew, -, hlt, rfl⟩ := growTable_cases hgrow
    · exact .inl rfl
    · have hin := lt_of_newSize_softFor hpos hint h.maxSize_le hodd' hnew hlt
      have hsize := h.size_eq
      exact .inr ⟨_, rfl, h.resized (by omega) hlt, hin, getItem_resized (by omega),
        fun hlt => absurd hlt (by omega)⟩
  · exact .inr ⟨t, rfl, h, by omega, fun _ => rfl, fun _ => rfl⟩

theorem Ok.of_same_items {t₀ : PointerArray α} (hsame : ∀ i, t.getItem i = t₀.getItem i)
    (h : Ok t (.item index value) t') : Ok t₀ (.item index value) t' := by
  obtain ⟨hkept, hpos, hlt, hmax, hitem, hother⟩ := h
  exact ⟨hkept, hpos, hlt, hmax, hitem, fun i hi => (hother i hi).trans (hsame i)⟩

theorem ok_setItem (h : Kept t) (hint : index ≤ intMax) (hreach : Careful.Reaches t index)
    (value : Option α) (memory : Bool) :
    ∃ done t', t.setItem index value memory = some (done, t') ∧
      Ok t (if done then .item index value else .failed) t' := by
  have hpos := hreach.1
  unfold setItem
  obtain hfail | ⟨t', hgrow, hkept, hlt, hsame, -⟩ := h.growTo hint hreach memory
  · rw [hfail]
    exact ⟨false, t, rfl, rfl⟩
  · rw [hgrow]
    simp only [bind_some, Bool.not_true, Bool.false_eq_true, if_false, map_some,
      slot_eq_some hkept.size_eq hpos hlt]
    refine ⟨true, _, rfl, Ok.of_same_items hsame ?_⟩
    cases value with
    | none =>
      refine hkept.stored hpos hlt ?_ (hkept.lowest_freed hpos hlt)
      cases t'.getItem index <;> simp
    | some value =>
      refine hkept.stored hpos hlt ?_ ?_
      · cases t'.getItem index <;> simp
      · show (t'.store index (some value)).Lowest
          (if index = t'.lowestFree then (t'.nextFree (index + 1)).getD t'.size else t'.lowestFree)
        split_ifs with hlow
        · rw [← nextFree_store hpos (some value)]
          exact hkept.lowest_taken hpos hlt (by simp) hlow (.inr rfl)
        · exact hkept.lowest_other hpos hlt (by simp) hlow

theorem ok_testAndSetItem (h : Kept t) (hint : index ≤ intMax) (hreach : Careful.Reaches t index)
    (value : α) (memory : Bool) :
    ∃ done t', t.testAndSetItem index value memory = some (done, t') ∧
      Ok t (if done then .item index (some value) else .failed) t' := by
  have hpos := hreach.1
  obtain ⟨inUse, huse, hfree⟩ : ∃ inUse,
      (if index < t.size then (t.slot index).map Option.isSome else some false) = some inUse ∧
        (inUse = false → t.getItem index = none) := by
    split_ifs with hlt
    · rw [slot_eq_some h.size_eq hpos hlt]
      exact ⟨_, rfl, by simp⟩
    · exact ⟨false, rfl, fun _ => getItem_of_size_le h.size_eq (Int.not_lt.mp hlt)⟩
  unfold testAndSetItem
  simp only [huse, bind_some]
  cases inUse with
  | true => exact ⟨false, t, rfl, rfl⟩
  | false =>
    simp only [Bool.false_eq_true, if_false]
    obtain hfail | ⟨t', hgrow, hkept, hlt, hsame, -⟩ := h.growTo hint hreach memory
    · rw [hfail]
      exact ⟨false, t, rfl, rfl⟩
    · rw [hgrow]
      simp only [bind_some, Bool.not_true, Bool.false_eq_true, if_false, map_some,
        slot_eq_some hkept.size_eq hpos hlt]
      refine ⟨true, _, rfl, Ok.of_same_items hsame ?_⟩
      refine hkept.stored hpos hlt ?_ ?_
      · simp [hsame, hfree rfl]
      · show (t'.store index (some value)).Lowest (if index = t'.lowestFree then
          ((t'.store index (some value)).nextFree index).getD t'.size else t'.lowestFree)
        split_ifs with hlow
        · exact hkept.lowest_taken hpos hlt (by simp) hlow (.inl rfl)
        · exact hkept.lowest_other hpos hlt (by simp) hlow

theorem Kept.growFull (h : Kept t) (hcare : t.addr = none ∨ 0 < t.size ∨ t.maxSize ≤ 0)
    (memory : Bool) :
    t.growFull memory = some (false, t) ∨
      ∃ t', t.growFull memory = some (true, t') ∧ Kept t' ∧ 0 < t'.numberFree ∧
        (∀ i, t'.getItem i = t.getItem i) := by
  unfold PointerArray.growFull
  have hsize := h.size_eq
  split_ifs with hfull hnull
  · have hempty : t.size = 0 := by
      rw [hsize, slots, isNone_iff_eq_none.mp hnull]
      rfl
    obtain ⟨grown, t', hgrow⟩ := @growTable_total α t tableInit fortranHandleMax memory fun hzero => by
      unfold newSize tableInit fortranHandleMax intMax at hzero
      split_ifs at hzero <;> omega
    rw [hgrow]
    obtain ⟨rfl, rfl⟩ | ⟨n, rfl, hnew, hpos, hlt, rfl⟩ := growTable_cases hgrow
    · exact .inl rfl
    · refine .inr ⟨_, rfl, h.resized (by omega) hlt, ?_, getItem_resized (by omega)⟩
      simp only [PointerArray.resized, hfull, hempty]
      omega
  · have hlt₀ : t.maxSize ≤ 0 ∨ 0 < t.size := by
      rcases hcare with hnone | hpos | hmax
      · simp [hnone] at hnull
      · exact .inr hpos
      · exact .inl hmax
    have hle := h.size_le
    have hmax := h.maxSize_le
    obtain ⟨grown, t', hgrow⟩ := @growTable_total α t (toInt (t.size * tableGrow)) fortranHandleMax
      memory fun hzero => by
        by_contra hpos
        have := @lt_of_newSize_double α t 0 (by omega) (by omega) hmax hzero (by omega)
        omega
    rw [hgrow]
    obtain ⟨rfl, rfl⟩ | ⟨n, rfl, hnew, hpos, hlt, rfl⟩ := growTable_cases hgrow
    · exact .inl rfl
    · have hmore := lt_of_newSize_double (by omega) (by omega) hmax hnew hlt
      refine .inr ⟨_, rfl, h.resized (by omega) hlt, ?_, getItem_resized (by omega)⟩
      simp only [PointerArray.resized, hfull]
      omega
  · have := h.numberFree_nonneg
    exact .inr ⟨t, rfl, h, by omega, fun _ => rfl⟩

theorem ok_add (h : Kept t) (hcare : t.addr = none ∨ 0 < t.size ∨ t.maxSize ≤ 0) (ptr : α)
    (memory : Bool) :
    ∃ index t', t.add ptr memory = some (index, t') ∧
      Ok t (match index with
        | some index => .item index (some ptr)
        | none => .failed) t' := by
  unfold add
  obtain hfail | ⟨t', hgrow, hkept, hfree, hsame⟩ := h.growFull hcare memory
  · rw [hfail]
    exact ⟨none, t, rfl, rfl⟩
  · rw [hgrow]
    have hlow := hkept.lowestFree
    have hlt := hkept.lowest_lt hfree
    have hget := hkept.free hlt
    simp only [bind_some, Bool.not_true, Bool.false_eq_true, if_false, map_some,
      slot_eq_some hkept.size_eq hlow.1 hlt]
    refine ⟨some t'.lowestFree, _, rfl, Ok.of_same_items hsame ?_⟩
    have htaken := @Kept.lowest_taken α t' t'.lowestFree (some ptr) hkept hlow.1 hlt (by simp) rfl _
      (.inr rfl)
    have hnumber : t'.numberFree - 1 = t'.numberFree
        - (if (t'.getItem t'.lowestFree).isNone then 1 else 0)
        + (if (some ptr : Option α).isNone then 1 else 0) := by
      simp [hget]
    have hnext := (hkept.stored hlow.1 hlt hnumber htaken).1
    refine hkept.stored hlow.1 hlt hnumber ?_
    show (t'.store t'.lowestFree (some ptr)).Lowest (if t'.numberFree - 1 > 0 then
      ((t'.store t'.lowestFree (some ptr)).nextFree (t'.lowestFree + 1)).getD t'.lowestFree
      else t'.size)
    split_ifs with hmore
    · -- a slot is free, so the search finds one
      have hfound := hnext.lowest_lt hmore
      cases hsearch : (t'.store t'.lowestFree (some ptr)).nextFree (t'.lowestFree + 1) with
      | none =>
        rw [hsearch] at hfound
        exact absurd hfound (lt_irrefl _)
      | some low =>
        rw [hsearch] at htaken
        exact htaken
    · have hlast := hnext.lowest_eq_size (by show t'.numberFree - 1 = 0; omega)
      rw [show ((t'.store t'.lowestFree (some ptr)).nextFree (t'.lowestFree + 1)).getD t'.size
        = t'.size from hlast] at htaken
      exact htaken

theorem ok_init (t : PointerArray α) {initialAllocation maxSize blockSize : ℤ}
    (hmax : maxSize ≤ intMax)
    (hcare : maxSize < blockSize ∨ (memory = true ∧
      0 ≤ (if 0 < initialAllocation then initialAllocation else blockSize) ∧
      (if 0 < initialAllocation then initialAllocation else blockSize) ≤ maxSize ∧
      t.lowestFree = 0)) :
    Ok t (if (t.init initialAllocation maxSize blockSize memory).1 then .initialised else .failed)
      (t.init initialAllocation maxSize blockSize memory).2 := by
  unfold init
  by_cases hreject : maxSize < blockSize
  · rw [if_pos hreject]
    rfl
  · obtain ⟨hmem, hpos, hle, hlow⟩ := hcare.resolve_left hreject
    rw [if_neg hreject]
    obtain ⟨n, hn⟩ := Int.eq_ofNat_of_zero_le hpos
    rw [hn] at hle
    simp only [hn, hmem, show (0 : ℤ) ≤ n by omega, and_self, if_true, Int.toNat_natCast]
    have hget (i : ℤ) : getItem { t with
        maxSize, blockSize, numberFree := n, size := n
        addr := some (replicate n (none : Option α)) } i = none := by
      unfold getItem slot
      split_ifs
      · rfl
      · simp only [slots, getD_some, getElem?_replicate]
        split_ifs <;> rfl
    refine ⟨⟨?_, hle, hmax, ?_, ?_, ?_, fun _ => hget _⟩, hget⟩
    · simp [slots]
    · simp [slots, countP_replicate]
    · simp only [hlow]
      omega
    · intro i hi hlt
      simp only [hlow] at hlt
      omega

theorem toInt_le (n : Int32) : n.toInt ≤ intMax := by
  have := n.toInt_lt
  unfold intMax
  omega

theorem ok_call (h : Kept t) {c : Call α} (hcare : Careful t c) :
    ∃ r t', t.call c = some (r, t') ∧ Ok t r t' := by
  cases c with
  | init initialAllocation maxSize blockSize memory =>
    exact ⟨_, _, rfl, ok_init t (toInt_le maxSize) hcare⟩
  | add ptr memory =>
    obtain ⟨index, t', hadd, hok⟩ := ok_add h hcare ptr memory
    exact ⟨_, t', by rw [call, hadd]; rfl, hok⟩
  | setItem index value memory =>
    obtain ⟨done, t', hset, hok⟩ := ok_setItem h (toInt_le index) hcare value memory
    exact ⟨_, t', by rw [call, hset]; rfl, hok⟩
  | testAndSetItem index value memory =>
    obtain ⟨done, t', hset, hok⟩ := ok_testAndSetItem h (toInt_le index) hcare value memory
    exact ⟨_, t', by rw [call, hset]; rfl, hok⟩

theorem Ok.kept {r : Result α} (h : Kept t) (hok : Ok t r t') : Kept t' := by
  cases r with
  | failed => exact hok ▸ h
  | initialised => exact hok.1
  | item index value => exact hok.1

theorem kept_construct : Kept (construct : PointerArray α) := by
  refine ⟨rfl, ?_, Int.le_refl intMax, rfl, ⟨Int.le_refl 0, Int.le_refl 0⟩, fun i hi hlt => ?_,
    fun hlt => absurd hlt (lt_irrefl 0)⟩
  · show (0 : ℤ) ≤ intMax
    decide
  · exact absurd hlt (Int.not_lt.mpr hi)

theorem run_concat (calls : List (Call α)) (c : Call α) :
    run (calls ++ [c]) = (run calls).bind fun t => (t.call c).map Prod.snd := by
  simp [run, foldlM_append]

def AllCareful (calls : List (Call α)) : Prop :=
  ∀ l c t, l ++ [c] <+: calls → run l = some t → Careful t c

theorem run_kept_of_careful (calls : List (Call α)) (h : AllCareful calls) :
    ∃ t, run calls = some t ∧ Kept t := by
  induction calls using List.reverseRecOn with
  | nil => exact ⟨construct, rfl, kept_construct⟩
  | append_singleton calls c ih =>
    obtain ⟨t, hrun, hkept⟩ := ih fun l c t hl => h l c t (hl.trans (prefix_append _ _))
    obtain ⟨r, t', hcall, hok⟩ := ok_call hkept (h calls c t prefix_rfl hrun)
    exact ⟨t', by rw [run_concat, hrun, bind_some, hcall]; rfl, hok.kept hkept⟩

/-- In a run of careful calls the books are kept throughout, and every call fails and changes
nothing, or is done within the table and changes one item. -/
theorem run_kept (calls : List (Call α)) (h : AllCareful calls) :
    ∀ l, l <+: calls → ∃ t, run l = some t ∧ Kept t ∧
      ∀ c, l ++ [c] <+: calls → ∃ r t', t.call c = some (r, t') ∧ Ok t r t' := by
  intro l hl
  obtain ⟨t, hrun, hkept⟩ := run_kept_of_careful l fun l' c t hl' => h l' c t (hl'.trans hl)
  exact ⟨t, hrun, hkept, fun c hc => ok_call hkept (h l c t hc hrun)⟩

theorem allCareful_reserve :
    AllCareful [.init 2 8 2 true, .testAndSetItem 5 () true, .add () true] := by
  intro l c t hl hrun
  obtain ⟨rest, hrest⟩ := hl
  match l, hrest with
  | [], hrest =>
    cases hrun
    cases hrest
    exact .inr (by decide)
  | [_], hrest =>
    cases hrest
    cases hrun
    exact ⟨by decide, by decide⟩
  | [_, _], hrest =>
    cases hrest
    cases hrun
    exact .inr (.inl (by decide))
  | [_, _, _], hrest => simp at hrest
  | _ :: _ :: _ :: _ :: _, hrest => simp at hrest

/-- Two slots, the one with index 5 in a table that grows to 6, and the lowest one that is free. -/
theorem run_kept_reserve :
    ∃ t, run [.init 2 8 2 true, .testAndSetItem 5 () true, .add () true] = some t ∧ Kept t ∧
      t.slots = [some (), none, none, none, none, some ()] := by
  obtain ⟨t, hrun, hkept, -⟩ := run_kept _ allCareful_reserve _ prefix_rfl
  refine ⟨t, hrun, hkept, ?_⟩
  cases hrun
  decide

/-- In an array that may have five slots, the one with index 4 is written behind the table. -/
theorem run_not_kept : ¬∀ calls : List (Call Unit), ∀ l, l <+: calls → ∃ t, run l = some t ∧ Kept t ∧
    ∀ c, l ++ [c] <+: calls → ∃ r t', t.call c = some (r, t') ∧ Ok t r t' := by
  intro h
  obtain ⟨t, hrun, -, hcall⟩ := h [.init 2 5 2 true, .setItem 4 (some ()) true] [.init 2 5 2 true]
    (by decide)
  obtain ⟨r, t', hsome, -⟩ := hcall (.setItem 4 (some ()) true) (by decide)
  have hnone : ((run [.init 2 5 2 true]).bind fun t : PointerArray Unit =>
      t.call (.setItem 4 (some ()) true)) = none := by decide
  rw [hrun, bind_some, hsome] at hnone
  cases hnone

end PointerArray

end OpenMPI.Class
