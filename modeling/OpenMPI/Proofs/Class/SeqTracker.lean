import OpenMPI.Class.SeqTracker
import OpenMPI.Lib.Ranges

/-!
# A tracker is the set of the numbers inserted

Every walk ends at the gap or the range of its number, whichever item it starts from.  The ends of
the ranges are compared with `+ 1` and `- 1` on 32 bits, so a range that ends at the last number
counts as next to 0, and one that starts at 0 as next to the last number; it goes wrong if and only
if the walk starts on such a range.
-/

namespace OpenMPI.Class

open Lib List

namespace SeqTrackerRange

def nat (item : SeqTrackerRange) : ℕ × ℕ := (item.seqIdLow.toNat, item.seqIdHigh.toNat)

/-- The item is at one end of the numbers and the number, which it does not have, at the other. -/
def Wraps (item : SeqTrackerRange) (seqId : UInt32) : Prop :=
  (seqId.toNat = 0 ∧ item.seqIdHigh.toNat + 1 = 2 ^ 32 ∧ 0 < item.seqIdLow.toNat) ∨
    (seqId.toNat + 1 = 2 ^ 32 ∧ item.seqIdLow.toNat = 0 ∧ item.seqIdHigh.toNat + 2 < 2 ^ 32)

instance (item : SeqTrackerRange) (seqId : UInt32) : Decidable (item.Wraps seqId) :=
  inferInstanceAs (Decidable (_ ∨ _))

theorem has_iff (item : SeqTrackerRange) (seqId : UInt32) :
    item.Has seqId ↔ item.nat.1 ≤ seqId.toNat ∧ seqId.toNat ≤ item.nat.2 := by
  simp only [Has, nat, ge_iff_le, UInt32.le_iff_toNat_le]
  exact And.comm

end SeqTrackerRange

namespace SeqTracker

open SeqTrackerRange

def ranges (l : List SeqTrackerRange) : List (ℕ × ℕ) := l.map nat

@[simp] theorem ranges_nil : ranges [] = [] := rfl

@[simp] theorem ranges_cons (item : SeqTrackerRange) (l : List SeqTrackerRange) :
    ranges (item :: l) = item.nat :: ranges l := rfl

@[simp] theorem ranges_append (l l' : List SeqTrackerRange) :
    ranges (l ++ l') = ranges l ++ ranges l' := map_append

variable {before after : List SeqTrackerRange} {item : SeqTrackerRange} {seqId : UInt32}
  {t t' : SeqTracker}

theorem toNat_add_one (n : UInt32) : (n + 1).toNat = (n.toNat + 1) % 2 ^ 32 := by
  simp [UInt32.toNat_add]

theorem toNat_sub_one (n : UInt32) : (n - 1).toNat = (n.toNat + (2 ^ 32 - 1)) % 2 ^ 32 := by
  simp only [UInt32.toNat_sub]
  rw [add_comm]
  rfl

structure Adds (l l' : List (ℕ × ℕ)) (n : ℕ) : Prop where
  apart : Apart l'
  covers : ∀ m, Covers l' m ↔ m = n ∨ Covers l m

theorem adds_high (h : Apart (ranges before.reverse ++ item.nat :: ranges after))
    (hhigh : item.nat.2 + 1 = seqId.toNat) (hafter : ∀ r ∈ ranges after, seqId.toNat + 1 < r.1) :
    Adds (ranges before.reverse ++ item.nat :: ranges after)
      (ranges before.reverse ++ { item with seqIdHigh := seqId }.nat :: ranges after)
      seqId.toNat := by
  obtain ⟨-, hitem, hbefore⟩ := apart_append.mp h
  have hle := (apart_cons.mp hitem).1
  refine ⟨h.replace (by simp only [nat] at *; omega) (fun r hr => ?_) hafter, fun m => ?_⟩
  · exact hbefore r hr _ mem_cons_self
  · simp only [covers_append, covers_cons, nat] at *
    have : (item.seqIdLow.toNat ≤ m ∧ m ≤ seqId.toNat) ↔
        m = seqId.toNat ∨ (item.seqIdLow.toNat ≤ m ∧ m ≤ item.seqIdHigh.toNat) := by omega
    rw [this]
    tauto

theorem adds_low (h : Apart (ranges before.reverse ++ item.nat :: ranges after))
    (hlow : seqId.toNat + 1 = item.nat.1)
    (hbefore : ∀ r ∈ ranges before.reverse, r.2 + 1 < seqId.toNat) :
    Adds (ranges before.reverse ++ item.nat :: ranges after)
      (ranges before.reverse ++ { item with seqIdLow := seqId }.nat :: ranges after)
      seqId.toNat := by
  obtain ⟨-, hitem, -⟩ := apart_append.mp h
  obtain ⟨hle, -, hafter⟩ := apart_cons.mp hitem
  refine ⟨h.replace (by simp only [nat] at *; omega) hbefore hafter, fun m => ?_⟩
  simp only [covers_append, covers_cons, nat] at *
  have : (seqId.toNat ≤ m ∧ m ≤ item.seqIdHigh.toNat) ↔
      m = seqId.toNat ∨ (item.seqIdLow.toNat ≤ m ∧ m ≤ item.seqIdHigh.toNat) := by omega
  rw [this]
  tauto

theorem adds_join {low high : SeqTrackerRange} {l l' : List (ℕ × ℕ)}
    (h : Apart (l ++ low.nat :: high.nat :: l')) (hlow : low.nat.2 + 1 = seqId.toNat)
    (hhigh : seqId.toNat + 1 = high.nat.1) :
    Adds (l ++ low.nat :: high.nat :: l') (l ++ (low.nat.1, high.nat.2) :: l') seqId.toNat := by
  obtain ⟨-, hitem, -⟩ := apart_append.mp h
  obtain ⟨hle, hitem, -⟩ := apart_cons.mp hitem
  have hle' := (apart_cons.mp hitem).1
  refine ⟨h.join, fun m => ?_⟩
  simp only [covers_append, covers_cons]
  have : (low.nat.1 ≤ m ∧ m ≤ high.nat.2) ↔ m = seqId.toNat ∨
      (low.nat.1 ≤ m ∧ m ≤ low.nat.2) ∨ (high.nat.1 ≤ m ∧ m ≤ high.nat.2) := by omega
  rw [this]
  tauto

theorem adds_new {l l' : List (ℕ × ℕ)} (h : Apart (l ++ l')) (hl : ∀ r ∈ l, r.2 + 1 < seqId.toNat)
    (hl' : ∀ r ∈ l', seqId.toNat + 1 < r.1) :
    Adds (l ++ l') (l ++ (new seqId).nat :: l') seqId.toNat := by
  refine ⟨h.insert hl hl', fun m => ?_⟩
  simp only [covers_append, covers_cons, new, nat]
  have : (seqId.toNat ≤ m ∧ m ≤ seqId.toNat) ↔ m = seqId.toNat := by omega
  rw [this]
  tauto

theorem eq_high_of_not_has (hhas : ¬item.Has seqId) (hwrap : ¬item.Wraps seqId)
    (hle : item.nat.1 ≤ item.nat.2) (h : item.seqIdHigh + 1 = seqId) :
    item.nat.2 + 1 = seqId.toNat := by
  have hlt := item.seqIdHigh.toNat_lt
  have := congrArg UInt32.toNat h
  rw [toNat_add_one] at this
  rw [has_iff] at hhas
  simp only [Wraps, nat] at hwrap hhas hle ⊢
  omega

theorem eq_low_of_not_has (hhas : ¬item.Has seqId) (hwrap : ¬item.Wraps seqId)
    (hle : item.nat.1 ≤ item.nat.2) (hhigh : item.seqIdHigh + 1 ≠ seqId)
    (h : item.seqIdLow - 1 = seqId) : seqId.toNat + 1 = item.nat.1 := by
  have hlt := seqId.toNat_lt
  have hlt' := item.seqIdLow.toNat_lt
  have := congrArg UInt32.toNat h
  rw [toNat_sub_one] at this
  rw [has_iff] at hhas
  have hne : item.seqIdHigh.toNat + 1 ≠ seqId.toNat := by
    intro heq
    apply hhigh
    apply UInt32.toNat_inj.mp
    rw [toNat_add_one, Nat.mod_eq_of_lt (by omega), heq]
  simp only [Wraps, nat] at hwrap hhas hle ⊢
  omega

theorem nat_low_eq_iff {other : SeqTrackerRange} (h : seqId.toNat < other.nat.1) :
    other.seqIdLow = seqId + 1 ↔ seqId.toNat + 1 = other.nat.1 := by
  have hlt := other.seqIdLow.toNat_lt
  rw [← UInt32.toNat_inj, toNat_add_one]
  simp only [nat] at h ⊢
  omega

theorem nat_high_eq_iff {other : SeqTrackerRange} (h : other.nat.2 < seqId.toNat) :
    other.seqIdHigh = seqId - 1 ↔ other.nat.2 + 1 = seqId.toNat := by
  have hlt := seqId.toNat_lt
  rw [← UInt32.toNat_inj, toNat_sub_one]
  simp only [nat] at h ⊢
  omega

theorem insertHere_adds (h : Apart (ranges (before.reverse ++ item :: after)))
    (hwrap : ¬item.Wraps seqId) (hhere : insertHere seqId before item after = some t) :
    Adds (ranges (before.reverse ++ item :: after)) (ranges t.seqIds) seqId.toNat ∧
      t.after ≠ [] := by
  simp only [ranges_append, ranges_cons] at h ⊢
  obtain ⟨hfront, hitem, hbefore⟩ := apart_append.mp h
  obtain ⟨hle, hrest, hafter⟩ := apart_cons.mp hitem
  unfold insertHere at hhere
  split_ifs at hhere with hhas hhigh hlow
  · cases hhere
    refine ⟨⟨by simpa [seqIds] using h, fun m => ?_⟩, by simp⟩
    simp only [seqIds, ranges_append, ranges_cons, covers_append, covers_cons]
    rw [has_iff] at hhas
    constructor
    · exact .inr
    · rintro (rfl | hm)
      · exact .inr (.inl hhas)
      · exact hm
  · have hnext := eq_high_of_not_has hhas hwrap hle hhigh
    cases after with
    | nil =>
      cases hhere
      refine ⟨?_, by simp⟩
      simpa [seqIds] using adds_high h hnext (by simp)
    | cons nextItem rest =>
      have hbehind := hafter _ mem_cons_self
      rw [hnext] at hbehind
      dsimp only at hhere
      split_ifs at hhere with hjoin
      · cases hhere
        refine ⟨?_, by simp⟩
        have := @adds_join seqId item nextItem (ranges before.reverse) (ranges rest) h hnext
          ((nat_low_eq_iff hbehind).mp hjoin)
        simpa [seqIds, nat] using this
      · cases hhere
        refine ⟨?_, by simp⟩
        have hne := mt (nat_low_eq_iff hbehind).mpr hjoin
        have := adds_high h hnext (hrest.lt_of_mem_cons (by omega))
        simpa [seqIds] using this
  · have hprev := eq_low_of_not_has hhas hwrap hle hhigh hlow
    cases before with
    | nil =>
      cases hhere
      refine ⟨?_, by simp⟩
      simpa [seqIds] using adds_low h hprev (by simp)
    | cons prevItem rest =>
      have hahead := hbefore prevItem.nat (by simp) _ mem_cons_self
      have hlt : prevItem.nat.2 < seqId.toNat := by omega
      rw [reverse_cons, ranges_append, ranges_cons, ranges_nil] at hfront
      dsimp only at hhere
      split_ifs at hhere with hjoin
      · cases hhere
        refine ⟨?_, by simp⟩
        have := @adds_join seqId prevItem item (ranges rest.reverse) (ranges after)
          (by simpa using h) ((nat_high_eq_iff hlt).mp hjoin) hprev
        simpa [seqIds, nat] using this
      · cases hhere
        refine ⟨?_, by simp⟩
        have hne := mt (nat_high_eq_iff hlt).mpr hjoin
        have hends := hfront.lt_of_mem_concat (show prevItem.nat.2 < seqId.toNat - 1 by omega)
        have := adds_low h hprev fun r hr => by
          have := hends r (by simpa using hr)
          omega
        simpa [seqIds] using this

theorem insertHere_none (h : insertHere seqId before item after = none) :
    ¬item.Has seqId ∧ item.seqIdHigh + 1 ≠ seqId ∧ item.seqIdLow - 1 ≠ seqId := by
  unfold insertHere at h
  split_ifs at h with hhas hhigh hlow
  · cases after with
    | nil => cases h
    | cons nextItem rest =>
      dsimp only at h
      split_ifs at h
  · cases before with
    | nil => cases h
    | cons prevItem rest =>
      dsimp only at h
      split_ifs at h
  · exact ⟨hhas, hhigh, hlow⟩

theorem not_wraps_of_lt {r : ℕ × ℕ} (hr : r.2 + 1 < item.nat.1) (hlt : r.2 + 1 < seqId.toNat) :
    ¬item.Wraps seqId := by
  simp only [nat] at hr
  unfold Wraps
  omega

theorem not_wraps_of_gt {r : ℕ × ℕ} (hr : item.nat.2 + 1 < r.1) (hlt : seqId.toNat + 1 < r.1)
    (hle : r.1 < 2 ^ 32) : ¬item.Wraps seqId := by
  simp only [nat] at hr
  unfold Wraps
  omega

theorem add_one_lt_of_gt (hhigh : item.seqIdHigh + 1 ≠ seqId) (h : seqId > item.seqIdHigh) :
    item.nat.2 + 1 < seqId.toNat := by
  have hlt := seqId.toNat_lt
  have hne := mt UInt32.toNat_inj.mp hhigh
  rw [toNat_add_one] at hne
  have := UInt32.lt_iff_toNat_lt.mp h
  simp only [nat]
  omega

theorem add_one_lt_of_lt (hlow : item.seqIdLow - 1 ≠ seqId) (h : seqId < item.seqIdLow) :
    seqId.toNat + 1 < item.nat.1 := by
  have hlt := item.seqIdLow.toNat_lt
  have hne := mt UInt32.toNat_inj.mp hlow
  rw [toNat_sub_one] at hne
  have := UInt32.lt_iff_toNat_lt.mp h
  simp only [nat]
  omega

theorem lt_low_of_not_gt (hhas : ¬item.Has seqId) (h : ¬seqId > item.seqIdHigh) :
    seqId < item.seqIdLow := by
  rw [has_iff] at hhas
  rw [gt_iff_lt, UInt32.lt_iff_toNat_lt] at h
  rw [UInt32.lt_iff_toNat_lt]
  simp only [nat] at hhas
  omega

theorem insertNext_adds (h : Apart (ranges (before.reverse ++ after)))
    (hbefore : before ≠ []) (hlt : ∀ r ∈ ranges before, r.2 + 1 < seqId.toNat) :
    Adds (ranges (before.reverse ++ after)) (ranges (insertNext seqId before after).seqIds)
        seqId.toNat ∧
      (insertNext seqId before after).after ≠ [] := by
  induction after generalizing before with
  | nil =>
    refine ⟨?_, by simp [insertNext]⟩
    have := @adds_new seqId (ranges before.reverse) [] (by simpa using h)
      (fun r hr => hlt r (by simpa [ranges] using hr)) (by simp)
    simpa [insertNext, seqIds] using this
  | cons item after ih =>
    unfold insertNext
    obtain ⟨r, hr⟩ := exists_mem_of_ne_nil _ hbefore
    have hitem : r.nat.2 + 1 < item.nat.1 := by
      rw [ranges_append] at h
      exact (apart_append.mp h).2.2 _ (by simpa [ranges] using ⟨r, hr, rfl⟩) _ mem_cons_self
    have hwrap := not_wraps_of_lt hitem (hlt _ (mem_map_of_mem hr))
    cases hhere : insertHere seqId before item after with
    | some t => exact insertHere_adds h hwrap hhere
    | none =>
      obtain ⟨hhas, hhigh, hlow⟩ := insertHere_none hhere
      dsimp only
      split_ifs with hgt
      · have := ih (by simpa using h) (cons_ne_nil item before) fun r hr => by
          rcases mem_cons.mp hr with rfl | hr
          · exact add_one_lt_of_gt hhigh hgt
          · exact hlt r hr
        simpa using this
      · refine ⟨?_, by simp⟩
        have hfar := add_one_lt_of_lt hlow (lt_low_of_not_gt hhas hgt)
        rw [ranges_append] at h
        have := @adds_new seqId (ranges before.reverse) (ranges (item :: after)) h
          (fun r hr => hlt r (by simpa [ranges] using hr))
          ((apart_append.mp h).2.1.lt_of_mem_cons hfar)
        simpa [seqIds] using this

theorem insertPrev_adds (h : Apart (ranges (before.reverse ++ after)))
    (hafter : after ≠ []) (hlt : ∀ r ∈ ranges after, seqId.toNat + 1 < r.1) :
    Adds (ranges (before.reverse ++ after)) (ranges (insertPrev seqId before after).seqIds)
        seqId.toNat ∧
      (insertPrev seqId before after).after ≠ [] := by
  induction before generalizing after with
  | nil =>
    refine ⟨?_, by simp [insertPrev]⟩
    have := @adds_new seqId [] (ranges after) (by simpa using h) (by simp) hlt
    simpa [insertPrev, seqIds] using this
  | cons item before ih =>
    unfold insertPrev
    rw [reverse_cons, append_assoc, singleton_append] at h ⊢
    obtain ⟨r, hr⟩ := exists_mem_of_ne_nil _ hafter
    have hr' := mem_map_of_mem (f := nat) hr
    have hitem : item.nat.2 + 1 < r.nat.1 := by
      rw [ranges_append, ranges_cons] at h
      exact (apart_cons.mp (apart_append.mp h).2.1).2.2 _ hr'
    have hwrap := not_wraps_of_gt hitem (hlt _ hr') r.seqIdLow.toNat_lt
    cases hhere : insertHere seqId before item after with
    | some t => exact insertHere_adds h hwrap hhere
    | none =>
      obtain ⟨hhas, hhigh, hlow⟩ := insertHere_none hhere
      dsimp only
      split_ifs with hgt
      · refine ⟨?_, by simp⟩
        have hfar := add_one_lt_of_gt hhigh hgt
        rw [ranges_append, ranges_cons] at h
        have := @adds_new seqId (ranges before.reverse ++ [item.nat]) (ranges after)
          (by simpa using h)
          (fun s hs => ?_) hlt
        · simpa [seqIds] using this
        · have hfront : Apart (ranges before.reverse ++ [item.nat]) :=
            (apart_append.mp (show Apart ((ranges before.reverse ++ [item.nat]) ++ ranges after) by
              simpa using h)).1
          have := hfront.lt_of_mem_concat (show item.nat.2 < seqId.toNat - 1 by omega) s hs
          omega
      · refine ih h (cons_ne_nil item after) fun r hr => ?_
        rcases mem_cons.mp hr with rfl | hr
        · exact add_one_lt_of_lt hlow (lt_low_of_not_gt hhas hgt)
        · exact hlt r hr

theorem checkNext_spec (hlt : ∀ r ∈ ranges before, r.2 < seqId.toNat)
    (h : Apart (ranges (before.reverse ++ after))) :
    ((checkNext seqId before after).isSome ↔ Covers (ranges after) seqId.toNat) ∧
      ∀ t, checkNext seqId before after = some t →
        t.seqIds = before.reverse ++ after ∧ t.after ≠ [] := by
  induction after generalizing before with
  | nil => simp [checkNext]
  | cons item after ih =>
    unfold checkNext
    have hhas := item.has_iff seqId
    split_ifs with hin hgt
    · refine ⟨by simp [hhas.mp hin], fun t ht => ?_⟩
      cases ht
      exact ⟨rfl, by simp⟩
    · have hfar : item.nat.2 < seqId.toNat := UInt32.lt_iff_toNat_lt.mp hgt
      have := @ih (item :: before) (fun r hr => ?_) (by simpa using h)
      · rw [ranges_cons, covers_cons, reverse_cons] at *
        rw [this.1]
        refine ⟨?_, fun t ht => ⟨by simpa using (this.2 t ht).1, (this.2 t ht).2⟩⟩
        rw [or_iff_right (by omega)]
      · rcases mem_cons.mp hr with rfl | hr
        · exact hfar
        · exact hlt r hr
    · refine ⟨?_, nofun⟩
      rw [ranges_append] at h
      have hlow := UInt32.lt_iff_toNat_lt.mp (lt_low_of_not_gt hin hgt)
      have hbehind := (apart_append.mp h).2.1.lt_of_mem_cons hlow
      simp only [Option.isSome_none, Bool.false_eq_true, false_iff]
      rintro ⟨r, hr, hr'⟩
      have := hbehind r hr
      omega

theorem checkPrev_spec (hlt : ∀ r ∈ ranges after, seqId.toNat < r.1)
    (h : Apart (ranges (before.reverse ++ after))) :
    ((checkPrev seqId before after).isSome ↔ Covers (ranges before.reverse) seqId.toNat) ∧
      ∀ t, checkPrev seqId before after = some t →
        t.seqIds = before.reverse ++ after ∧ t.after ≠ [] := by
  induction before generalizing after with
  | nil => simp [checkPrev]
  | cons item before ih =>
    unfold checkPrev
    have hhas := item.has_iff seqId
    rw [reverse_cons, append_assoc, singleton_append] at h
    rw [reverse_cons, ranges_append, covers_append, ranges_cons, covers_cons]
    split_ifs with hin hgt hlow
    · refine ⟨by simp [hhas.mp hin], fun t ht => ?_⟩
      cases ht
      exact ⟨by simp [seqIds], by simp⟩
    · refine ⟨?_, nofun⟩
      have hfar : item.nat.2 < seqId.toNat := UInt32.lt_iff_toNat_lt.mp hgt
      have hfront : Apart (ranges before.reverse ++ [item.nat]) :=
        (apart_append.mp (show Apart ((ranges before.reverse ++ [item.nat]) ++ ranges after) by
          simpa using h)).1
      have hahead := hfront.lt_of_mem_concat hfar
      simp only [Option.isSome_none, Bool.false_eq_true, false_iff, ranges_nil, covers_nil, or_false]
      rintro (⟨r, hr, hr'⟩ | hr)
      · have := hahead r (mem_append_left _ hr)
        omega
      · omega
    · have hfar : seqId.toNat < item.nat.1 := UInt32.lt_iff_toNat_lt.mp hlow
      have := @ih (item :: after) (fun r hr => ?_) h
      · rw [this.1]
        refine ⟨?_, fun t ht => ⟨by simpa using (this.2 t ht).1, (this.2 t ht).2⟩⟩
        rw [ranges_nil, or_iff_left (covers_nil), or_iff_left (by omega)]
      · rcases mem_cons.mp hr with rfl | hr
        · exact hfar
        · exact hlt r hr
    · exact absurd (lt_low_of_not_gt hin hgt) hlow

structure Sound (t : SeqTracker) : Prop where
  apart : Apart (ranges t.seqIds)
  current : t.after = [] → t.before = []

theorem checkDuplicate_spec (h : Sound t) (seqId : UInt32) :
    ((t.checkDuplicate seqId).1 = true ↔ Covers (ranges t.seqIds) seqId.toNat) ∧
      (t.checkDuplicate seqId).2.seqIds = t.seqIds ∧ Sound (t.checkDuplicate seqId).2 := by
  have hapart := h.apart
  have hfound (found : Option SeqTracker) (hspec : ∀ t', found = some t' →
      t'.seqIds = t.seqIds ∧ t'.after ≠ []) :
      (found.getD t).seqIds = t.seqIds ∧ Sound (found.getD t) := by
    cases found with
    | none => exact ⟨rfl, h⟩
    | some t' =>
      obtain ⟨hsame, hne⟩ := hspec t' rfl
      exact ⟨hsame, ⟨hsame ▸ hapart, fun hnil => absurd hnil hne⟩⟩
  unfold checkDuplicate
  cases hafter : t.after with
  | nil =>
    have hbefore := h.current hafter
    exact ⟨by simp [seqIds, hafter, hbefore], rfl, h⟩
  | cons item after =>
    have hlist : t.seqIds = (item :: t.before).reverse ++ after := by simp [seqIds, hafter]
    have hlist' : t.seqIds = t.before.reverse ++ item :: after := by rw [seqIds, hafter]
    have hhas := item.has_iff seqId
    rw [hlist', ranges_append] at hapart
    obtain ⟨hfront, hback, hgap⟩ := apart_append.mp hapart
    have hle := (apart_cons.mp hback).1
    dsimp only
    split_ifs with hin hgt hlow
    · refine ⟨?_, rfl, h⟩
      rw [hlist', ranges_append, ranges_cons, covers_append, covers_cons]
      simp [hhas.mp hin]
    · have hfar : item.nat.2 < seqId.toNat := UInt32.lt_iff_toNat_lt.mp hgt
      have hfront' : Apart (ranges t.before.reverse ++ [item.nat]) :=
        (apart_append.mp (show Apart ((ranges t.before.reverse ++ [item.nat]) ++ ranges after) by
          simpa using hapart)).1
      have hahead := hfront'.lt_of_mem_concat hfar
      obtain ⟨hsome, hspec⟩ := @checkNext_spec (item :: t.before) after seqId
        (fun r hr => hahead r (by simpa [ranges, or_comm] using hr)) (by simpa using hapart)
      rw [← hlist] at hspec
      refine ⟨?_, hfound _ hspec⟩
      rw [hsome, hlist', ranges_append, ranges_cons, covers_append, covers_cons]
      refine ⟨fun hc => .inr (.inr hc), ?_⟩
      rintro (⟨r, hr, hr'⟩ | hr | hc)
      · have := hahead r (mem_append_left _ hr)
        omega
      · omega
      · exact hc
    · have hfar : seqId.toNat < item.nat.1 := UInt32.lt_iff_toNat_lt.mp hlow
      have hbehind := hback.lt_of_mem_cons hfar
      obtain ⟨hsome, hspec⟩ := @checkPrev_spec t.before (item :: after) seqId hbehind
        (by rw [ranges_append]; exact hapart)
      rw [← hlist'] at hspec
      refine ⟨?_, hfound _ hspec⟩
      rw [hsome, hlist', ranges_append, covers_append]
      refine ⟨.inl, ?_⟩
      rintro (hc | ⟨r, hr, hr'⟩)
      · exact hc
      · have := hbehind r hr
        omega
    · exact absurd (lt_low_of_not_gt hin hgt) hlow

def Wraps (t : SeqTracker) (seqId : UInt32) : Prop := ∃ item ∈ t.after.head?, item.Wraps seqId

theorem insert_adds (h : Sound t) (hwrap : ¬t.Wraps seqId) :
    Adds (ranges t.seqIds) (ranges (t.insert seqId).seqIds) seqId.toNat ∧
      (t.insert seqId).after ≠ [] := by
  have hapart := h.apart
  unfold SeqTracker.insert
  cases hafter : t.after with
  | nil =>
    have hbefore := h.current hafter
    refine ⟨?_, by simp⟩
    have := @adds_new seqId [] [] apart_nil (by simp) (by simp)
    simpa [seqIds, hafter, hbefore] using this
  | cons item after =>
    have hlist : t.seqIds = t.before.reverse ++ item :: after := by rw [seqIds, hafter]
    have hwrap' : ¬item.Wraps seqId := fun hw => hwrap ⟨item, by rw [hafter]; rfl, hw⟩
    rw [hlist] at hapart ⊢
    dsimp only
    cases hhere : insertHere seqId t.before item after with
    | some t' => exact insertHere_adds hapart hwrap' hhere
    | none =>
      obtain ⟨hhas, hhigh, hlow⟩ := insertHere_none hhere
      have hsplit := hapart
      rw [ranges_append, ranges_cons] at hsplit
      dsimp only
      split_ifs with hgt hlt
      · have hfar := add_one_lt_of_gt hhigh hgt
        have hfront : Apart (ranges t.before.reverse ++ [item.nat]) :=
          (apart_append.mp (show Apart ((ranges t.before.reverse ++ [item.nat]) ++ ranges after) by
            simpa using hsplit)).1
        have hahead := hfront.lt_of_mem_concat (show item.nat.2 < seqId.toNat - 1 by omega)
        have := @insertNext_adds (item :: t.before) after seqId (by simpa using hapart)
          (cons_ne_nil _ _) fun r hr => by
            have := hahead r (by simpa [ranges, or_comm] using hr)
            omega
        simpa using this
      · exact insertPrev_adds hapart (cons_ne_nil _ _)
          ((apart_append.mp hsplit).2.1.lt_of_mem_cons (add_one_lt_of_lt hlow hlt))
      · exact absurd (lt_low_of_not_gt hhas hgt) hlt

theorem not_apart_insert (h : Apart (ranges t.seqIds)) (hwrap : t.Wraps seqId) :
    ¬Apart (ranges (t.insert seqId).seqIds) := by
  obtain ⟨item, hitem, hwrap⟩ := hwrap
  obtain ⟨after, hafter⟩ : ∃ after, t.after = item :: after := by
    cases hlist : t.after with
    | nil => simp [hlist] at hitem
    | cons first after => exact ⟨after, by simpa [hlist] using hitem⟩
  rw [seqIds, hafter, ranges_append, ranges_cons] at h
  obtain ⟨-, hback, hgap⟩ := apart_append.mp h
  obtain ⟨-, -, hbehind⟩ := apart_cons.mp hback
  have hhigh := item.seqIdHigh.toNat_lt
  have hhas := item.has_iff seqId
  simp only [nat] at hgap hbehind hhas
  rcases hwrap with ⟨hzero, hlast, hpos⟩ | ⟨hlast, hzero, hlt⟩
  · have hnil : after = [] := by
      rw [eq_nil_iff_forall_not_mem]
      intro r hr
      have := hbehind _ (mem_map_of_mem hr)
      have := r.seqIdLow.toNat_lt
      simp only [nat] at *
      omega
    have hnext : item.seqIdHigh + 1 = seqId := by
      apply UInt32.toNat_inj.mp
      rw [toNat_add_one, hlast, hzero, Nat.mod_self]
    have hinsert : t.insert seqId = ⟨t.before, [{ item with seqIdHigh := seqId }]⟩ := by
      unfold SeqTracker.insert insertHere
      rw [hafter, hnil]
      dsimp only
      rw [if_neg (by rw [hhas]; omega), if_pos hnext]
    intro hapart
    rw [hinsert] at hapart
    have := hapart.le (nat { item with seqIdHigh := seqId }) (by simp [seqIds])
    simp only [nat] at this
    omega
  · have hnil : t.before = [] := by
      rw [eq_nil_iff_forall_not_mem]
      intro r hr
      have := hgap r.nat (by simpa [ranges] using ⟨r, hr, rfl⟩) _ mem_cons_self
      omega
    have hnext : item.seqIdHigh + 1 ≠ seqId := by
      intro heq
      have := congrArg UInt32.toNat heq
      rw [toNat_add_one] at this
      omega
    have hprev : item.seqIdLow - 1 = seqId := by
      apply UInt32.toNat_inj.mp
      rw [toNat_sub_one, hzero]
      omega
    have hinsert : t.insert seqId = ⟨[], { item with seqIdLow := seqId } :: after⟩ := by
      unfold SeqTracker.insert insertHere
      rw [hafter, hnil]
      dsimp only
      rw [if_neg (by rw [hhas]; omega), if_neg hnext, if_pos hprev]
    intro hapart
    rw [hinsert] at hapart
    have := hapart.le (nat { item with seqIdLow := seqId }) (by simp [seqIds])
    simp only [nat] at this
    omega

/-- The tracker has the numbers inserted, whichever of its items it was at last. -/
structure Tracks (t : SeqTracker) (seen : List UInt32) : Prop where
  apart : Apart (ranges t.seqIds)
  checkDuplicate : ∀ t' : SeqTracker, t'.seqIds = t.seqIds → (t'.after = [] → t'.before = []) →
    ∀ seqId, (t'.checkDuplicate seqId).1 = true ↔ seqId ∈ seen

structure Inv (t : SeqTracker) (seen : List UInt32) : Prop where
  sound : Sound t
  covers : ∀ n, Covers (ranges t.seqIds) n ↔ n ∈ seen.map UInt32.toNat

theorem Inv.tracks {seen : List UInt32} (h : Inv t seen) : Tracks t seen := by
  refine ⟨h.sound.apart, fun t' hsame hcurrent seqId => ?_⟩
  have hsound : Sound t' := ⟨hsame ▸ h.sound.apart, hcurrent⟩
  rw [(checkDuplicate_spec hsound seqId).1, hsame, h.covers, mem_map]
  constructor
  · rintro ⟨n, hn, heq⟩
    rwa [← UInt32.toNat_inj.mp heq]
  · exact fun hmem => ⟨seqId, hmem, rfl⟩

theorem inv_init : Inv {} [] :=
  ⟨⟨by simpa [seqIds] using apart_nil, fun _ => rfl⟩, fun n => by simp [seqIds]⟩

theorem Inv.insert {seen : List UInt32} (h : Inv t seen) (hwrap : ¬t.Wraps seqId) :
    Inv (t.insert seqId) (seen ++ [seqId]) := by
  obtain ⟨hadds, hne⟩ := insert_adds h.sound hwrap
  refine ⟨⟨hadds.apart, fun hnil => absurd hnil hne⟩, fun n => ?_⟩
  rw [hadds.covers, h.covers]
  simp only [map_append, mem_append, map_cons, map_nil, mem_singleton]
  exact or_comm

theorem Inv.checkDuplicate {seen : List UInt32} (h : Inv t seen) (seqId : UInt32) :
    Inv (t.checkDuplicate seqId).2 seen := by
  obtain ⟨-, hsame, hsound⟩ := checkDuplicate_spec h.sound seqId
  exact ⟨hsound, fun n => by rw [hsame, h.covers]⟩

theorem run_concat (calls : List Call) (call : Call) :
    run (calls ++ [call]) = step (run calls) call := by
  simp [run]

theorem inv_run (calls : List Call)
    (h : ∀ l seqId, l ++ [.insert seqId] <+: calls → ¬(run l).Wraps seqId) :
    Inv (run calls) (inserted calls) := by
  induction calls using List.reverseRecOn with
  | nil => exact inv_init
  | append_singleton calls call ih =>
    have hinv := ih fun l seqId hl => h l seqId (hl.trans (prefix_append _ _))
    rw [run_concat]
    cases call with
    | insert seqId =>
      have : inserted (calls ++ [.insert seqId]) = inserted calls ++ [seqId] := by
        simp [inserted]
      rw [this]
      exact hinv.insert (h calls seqId prefix_rfl)
    | checkDuplicate seqId =>
      have : inserted (calls ++ [.checkDuplicate seqId]) = inserted calls := by simp [inserted]
      rw [this]
      exact hinv.checkDuplicate seqId

/-- After every call the tracker has the numbers inserted, if and only if no walk starts on an item
that wraps. -/
theorem run_tracks_iff (calls : List Call) :
    (∀ l, l <+: calls → Tracks (run l) (inserted l)) ↔
      ∀ l seqId, l ++ [.insert seqId] <+: calls → ¬(run l).Wraps seqId := by
  constructor
  · intro h l seqId hl hwrap
    have hbefore := (h l ((prefix_append _ _).trans hl)).apart
    have hafter := (h _ hl).apart
    rw [run_concat] at hafter
    exact not_apart_insert hbefore hwrap hafter
  · intro h l hl
    exact (inv_run l fun l' seqId hl' => h l' seqId (hl'.trans hl)).tracks

/-- The range of the last number becomes one from the last number to 0. -/
theorem run_not_tracks : ¬∀ calls : List Call, Tracks (run calls) (inserted calls) := by
  intro h
  have := (h [.insert 0xFFFFFFFF, .insert 0]).checkDuplicate (run [.insert 0xFFFFFFFF, .insert 0]) rfl
    (by decide) 0xFFFFFFFF
  revert this
  decide

end SeqTracker

end OpenMPI.Class
