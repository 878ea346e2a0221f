import Mathlib.Algebra.Order.Group.MinMax
import Mathlib.Data.List.SplitBy
import OpenMPI.Proofs.Ddt.Flags
import OpenMPI.Proofs.Ddt.TypeMap

/-!
# Blocks that are added together

The indexed constructors and that of structures add a run of blocks, each where the one before ends,
as one block.  Its type map is that of the blocks one after the other unless the blocks of a single
element are taken for copies (`runMap_eq_iff`).  Its bounds are theirs unless the run ends in an empty
block, or the bounds are not in their order (`addRun_sameBounds`).
-/

namespace OpenMPI.Ddt

open Lib List

namespace Datatype

variable {base add old : Datatype} {count : ℕ} {disp extent : ℤ} {f : Field} {rest run : List Field}

def Field.addTo (pdt : Datatype) (f : Field) : Datatype :=
  pdt.ddtAdd f.type f.blockLength f.disp f.type.extent

def addFields (pdt : Datatype) (fields : List Field) : Datatype := fields.foldl Field.addTo pdt

def separately : List Field → Datatype
  | [] => empty
  | fields => addFields ddtCreate fields

def total (run : List Field) : ℕ := (run.map Field.blockLength).sum

def addRun (pdt : Datatype) : List Field → Datatype
  | [] => pdt
  | f :: rest => Field.addTo pdt { f with blockLength := total (f :: rest) }

def follows (a b : Field) : Bool :=
  decide (b.handle = a.handle ∧ b.disp = a.disp + a.blockLength * a.type.extent)

def structRuns (fields : List Field) : List (List Field) := fields.splitBy follows

def indexedFields (old : Datatype) (unit : ℤ) (blocks : List (ℕ × ℤ)) : List Field :=
  blocks.map fun b => ⟨b.1, b.2 * unit, 0, old⟩

def indexedRuns (old : Datatype) (unit step : ℤ) (blocks : List (ℕ × ℤ)) : List (List Field) :=
  (blocks.splitBy fun a b => decide (a.2 + (a.1 : ℤ) * step = b.2)).map (indexedFields old unit)

def Run (run : List Field) : Prop :=
  run.IsChain fun a b : Field => b.type = a.type ∧ b.disp = a.disp + a.blockLength * a.type.extent

@[simp] theorem total_nil : total [] = 0 := rfl

@[simp] theorem total_cons : total (f :: rest) = f.blockLength + total rest := by simp [total]

theorem total_singleton : total [f] = f.blockLength := by simp

theorem total_append : total (rest ++ run) = total rest + total run := by simp [total]

theorem total_eq_zero : total run = 0 ↔ ∀ f ∈ run, f.blockLength = 0 := by
  induction run with
  | nil => simp
  | cons f rest ih => simp [ih]

theorem addRun_singleton (pdt : Datatype) : addRun pdt [f] = f.addTo pdt := by simp [addRun]

theorem flatten_structRuns (fields : List Field) : (structRuns fields).flatten = fields :=
  flatten_splitBy _ _

theorem flatten_indexedRuns (old : Datatype) (unit step : ℤ) (blocks : List (ℕ × ℤ)) :
    (indexedRuns old unit step blocks).flatten = indexedFields old unit blocks := by
  unfold indexedRuns indexedFields
  rw [← map_flatten, flatten_splitBy]

theorem createStructGo_eq (types : ℕ → Datatype) {fields : List Field}
    (hfields : ∀ f ∈ fields, f.type = types f.handle) {a f : Field} {g mid : List Field}
    {gs : List (List Field)} (hrun : (a :: g).reverse = f :: mid) (ha : a.type = types a.handle)
    (hf : f.type = types f.handle) (hhandle : a.handle = f.handle)
    (hend : f.disp + total (f :: mid) * f.type.extent = a.disp + a.blockLength * a.type.extent) :
    createStructGo fields { f with blockLength := total (f :: mid) }
        (f.disp + total (f :: mid) * f.type.extent) (gs.reverse.foldl addRun base)
      = (List.splitBy.loop follows fields a g gs).foldl addRun base := by
  induction fields generalizing a f g mid gs with
  | nil => simp [createStructGo, List.splitBy.loop, hrun, addRun, Field.addTo]
  | cons b fields ih =>
    have hb := hfields b mem_cons_self
    have hrest : ∀ f ∈ fields, f.type = types f.handle := fun f hf =>
      hfields f (mem_cons_of_mem _ hf)
    have htest : (b.handle = f.handle ∧ b.disp = f.disp + total (f :: mid) * f.type.extent)
        ↔ follows a b = true := by
      rw [follows, decide_eq_true_eq, hend, hhandle]
    unfold createStructGo
    rw [List.splitBy.loop]
    by_cases hfollows : follows a b = true
    · obtain ⟨hbhandle, hbdisp⟩ := htest.mpr hfollows
      have htype : b.type = f.type := by rw [hb, hf, hbhandle]
      have htotal : total (f :: mid) + b.blockLength = total (f :: (mid ++ [b])) := by
        simp [total_append, add_assoc]
      rw [if_pos (htest.mpr hfollows), hfollows]
      dsimp only
      rw [htotal]
      refine ih hrest ?_ hb hf hbhandle ?_
      · rw [reverse_cons, hrun, cons_append]
      · rw [hbdisp, htype, ← htotal]
        push_cast
        ring
    · rw [if_neg fun h => hfollows (htest.mp h), (Bool.not_eq_true _).mp hfollows]
      dsimp only
      have hadded : Field.addTo (gs.reverse.foldl addRun base)
          { f with blockLength := total (f :: mid) }
            = (((a :: g).reverse :: gs).reverse).foldl addRun base := by
        rw [reverse_cons, foldl_append, hrun]
        rfl
      have hnext := @ih hrest b b [] [] ((a :: g).reverse :: gs) rfl hb hb rfl (by simp)
      rw [← hadded] at hnext
      rw [← hnext, total_singleton, mul_comm b.type.extent]
      rfl

theorem ddtCreateStruct_eq (types : ℕ → Datatype) {fields : List Field}
    (hfields : ∀ f ∈ fields, f.type = types f.handle) (h : fields ≠ []) :
    ddtCreateStruct fields = (structRuns fields).foldl addRun ddtCreate := by
  cases fields with
  | nil => exact absurd rfl h
  | cons f fields =>
    have hf := hfields f mem_cons_self
    have := @createStructGo_eq ddtCreate types fields (fun f hf => hfields f (mem_cons_of_mem _ hf))
      f f [] [] [] rfl hf hf rfl (by simp)
    rw [total_singleton, mul_comm] at this
    exact this

theorem createIndexedGo_eq {unit step : ℤ} {blocks : List (ℕ × ℤ)} {a b : ℕ × ℤ}
    {g mid : List (ℕ × ℤ)} {gs : List (List (ℕ × ℤ))} (hrun : (a :: g).reverse = b :: mid) :
    createIndexedGo old unit step blocks (total (indexedFields old unit (b :: mid))) b.2
        (a.2 + a.1 * step) ((gs.reverse.map (indexedFields old unit)).foldl addRun base)
      = ((List.splitBy.loop (fun a b => decide (a.2 + (a.1 : ℤ) * step = b.2)) blocks a g gs).map
          (indexedFields old unit)).foldl addRun base := by
  induction blocks generalizing a b g mid gs with
  | nil =>
    simp [createIndexedGo, List.splitBy.loop, hrun, addRun, Field.addTo, indexedFields]
  | cons c blocks ih =>
    obtain ⟨length, disp'⟩ := c
    unfold createIndexedGo
    rw [List.splitBy.loop]
    by_cases hnext : a.2 + a.1 * step = disp'
    · rw [if_pos hnext, decide_eq_true hnext]
      dsimp only
      have htotal : total (indexedFields old unit (b :: mid)) + length
          = total (indexedFields old unit (b :: (mid ++ [(length, disp')]))) := by
        simp [indexedFields, total_append, add_assoc]
      have hlast : a.2 + a.1 * step + length * step = disp' + length * step := by rw [hnext]
      rw [htotal, hlast]
      refine @ih (length, disp') b (a :: g) (mid ++ [(length, disp')]) gs ?_
      rw [reverse_cons, hrun, cons_append]
    · rw [if_neg hnext, decide_eq_false hnext]
      dsimp only
      have hadded : ((gs.reverse.map (indexedFields old unit)).foldl addRun base).ddtAdd old
          (total (indexedFields old unit (b :: mid))) (b.2 * unit) old.extent
            = ((((a :: g).reverse :: gs).reverse).map (indexedFields old unit)).foldl addRun base := by
        rw [reverse_cons, map_append, foldl_append, hrun]
        rfl
      have hgo := @ih (length, disp') (length, disp') [] [] ((a :: g).reverse :: gs) rfl
      rw [← hgo, hadded]
      simp [indexedFields]

theorem createIndexed_eq {unit step : ℤ} {blocks : List (ℕ × ℤ)} (h : blocks ≠ []) :
    createIndexed unit step old blocks
      = (indexedRuns old unit step blocks).foldl addRun ddtCreate := by
  cases blocks with
  | nil => exact absurd rfl h
  | cons b blocks =>
    have := @createIndexedGo_eq ddtCreate old unit step blocks b b [] [] [] rfl
    simp only [indexedFields, map_cons, map_nil, total_cons, total_nil, add_zero] at this
    exact this

theorem run_structRuns (types : ℕ → Datatype) {fields : List Field}
    (hfields : ∀ f ∈ fields, f.type = types f.handle) (h : run ∈ structRuns fields) : Run run := by
  have hmem : ∀ f ∈ run, f.type = types f.handle := fun f hf =>
    hfields f (by rw [← flatten_structRuns fields]; exact mem_flatten_of_mem h hf)
  refine (isChain_of_mem_splitBy h).imp_of_mem_imp fun a b ha hb hab => ?_
  simp only [follows, decide_eq_true_eq] at hab
  exact ⟨by rw [hmem a ha, hmem b hb, hab.1], hab.2⟩

theorem run_indexedRuns {unit step : ℤ} {blocks : List (ℕ × ℤ)} (hstep : step * unit = old.extent)
    (h : run ∈ indexedRuns old unit step blocks) : Run run := by
  obtain ⟨mid, hmid, rfl⟩ := mem_map.mp h
  refine (isChain_map _).mpr ((isChain_of_mem_splitBy hmid).imp fun a b hab => ⟨rfl, ?_⟩)
  rw [decide_eq_true_eq] at hab
  simp only [← hab, ← hstep]
  ring

def NoData (add : Datatype) : Prop := add.id = dtLb ∨ add.id = dtUb ∨ add.size = 0

instance : Decidable (NoData add) := inferInstanceAs (Decidable (_ ∨ _ ∨ _))

def Short (add : Datatype) : Prop := add.tooManyEntries 2 = false

instance : Decidable (Short add) := inferInstanceAs (Decidable (_ = _))

def added (add : Datatype) (count : ℕ) (disp : ℤ) : List (ℤ × Basic) :=
  if Skips add count then [] else typeMap (addedDesc add count disp add.extent)

def Field.entries (f : Field) : List (ℤ × Basic) := added f.type f.blockLength f.disp

def runMap : List Field → List (ℤ × Basic)
  | [] => []
  | f :: rest => added f.type (total (f :: rest)) f.disp

/-- The runs whose type map is that of their blocks.  Of a datatype that would be taken for its only
element there is a single block that is not empty, and what no loop fits around is not added alone. -/
def KeepsMap : List Field → Prop
  | [] => True
  | f :: rest => NoData f.type ∨
      if Short f.type then
        ¬Flattens f.type f.type.extent ∨
          ((f :: rest).filter fun b => decide (0 < b.blockLength)).length ≤ 1
      else total (f :: rest) = 1 ∨ ∀ b ∈ f :: rest, b.blockLength ≠ 1

theorem Short.tooManyEntries (h : Short add) (count : ℕ) : add.tooManyEntries count = false := by
  unfold Short Datatype.tooManyEntries at *
  simp only [Bool.and_eq_false_iff] at h ⊢
  rcases h with (h | h) | h
  · exact .inl (.inl h)
  · simp at h
  · exact .inr h

theorem Short.skips_iff (h : Short add) : Skips add count ↔ NoData add ∨ count = 0 := by
  unfold Skips NoData
  rw [h.tooManyEntries count]
  tauto

theorem added_of_noData (h : NoData add) : added add count disp = [] := by
  refine if_pos ?_
  unfold NoData at h
  unfold Skips
  tauto

@[simp] theorem added_zero : added add 0 disp = [] := if_pos (by simp [Skips])

theorem added_eq (hadd : Sound add) (hshort : Short add) (hdata : ¬NoData add)
    (h : ¬Flattens add add.extent) :
    added add count disp = strided count add.extent (shift disp add.unit) := by
  rcases Nat.eq_zero_or_pos count with rfl | hcount
  · simp
  · have hsize : 0 < add.size := by
      unfold NoData at hdata
      omega
    unfold added
    rw [if_neg (by rw [hshort.skips_iff]; exact not_or.mpr ⟨hdata, hcount.ne'⟩),
      typeMap_addedDesc hadd hsize h]

theorem added_of_flattens (hshort : Short add) (hdata : ¬NoData add)
    (h : Flattens add add.extent) : ∃ e : Elem, 2 ≤ e.count ∧ ∀ count disp,
      added add count disp = strided (e.count * count) add.extent [(e.disp + disp, e.type)] := by
  obtain ⟨e, he, -, htwo⟩ := h.exists_elem
  refine ⟨e, htwo, fun count disp => ?_⟩
  rcases Nat.eq_zero_or_pos count with rfl | hcount
  · simp
  · unfold added
    rw [if_neg (by rw [hshort.skips_iff]; exact not_or.mpr ⟨hdata, hcount.ne'⟩),
      typeMap_addedDesc_of_flattens he h]

theorem exists_length_added (hadd : Sound add) (hshort : Short add) :
    ∃ n, ∀ count disp, (added add count disp).length = count * n := by
  by_cases hdata : NoData add
  · exact ⟨0, fun count disp => by simp [added_of_noData hdata]⟩
  by_cases h : Flattens add add.extent
  · obtain ⟨e, -, he⟩ := added_of_flattens hshort hdata h
    exact ⟨e.count, fun count disp => by simp [he, mul_comm]⟩
  · exact ⟨add.unit.length, fun count disp => by simp [added_eq hadd hshort hdata h]⟩

theorem added_add (hadd : Sound add) (h : NoData add ∨ Short add ∧ ¬Flattens add add.extent)
    (m n : ℕ) : added add (m + n) disp = added add m disp ++ added add n (disp + m * add.extent) := by
  by_cases hdata : NoData add
  · simp [added_of_noData hdata]
  · obtain ⟨hshort, hflattens⟩ := h.resolve_left hdata
    rw [added_eq hadd hshort hdata hflattens, added_eq hadd hshort hdata hflattens,
      added_eq hadd hshort hdata hflattens, strided_add, shift_strided, shift_shift, add_comm disp]

theorem runMap_cons {b : Field} (hrun : Run (f :: b :: rest)) :
    runMap (b :: rest)
      = added f.type (total (b :: rest)) (f.disp + f.blockLength * f.type.extent) := by
  obtain ⟨⟨htype, hdisp⟩, -⟩ := isChain_cons_cons.mp hrun
  rw [runMap, htype, hdisp]

theorem runMap_singleton : runMap [f] = f.entries := by
  rw [runMap, total_singleton, Field.entries]

theorem flatMap_entries_of_total (h : total run = 0) : run.flatMap Field.entries = [] := by
  rw [flatMap_eq_nil_iff]
  intro f hf
  rw [Field.entries, total_eq_zero.mp h f hf, added_zero]

theorem runMap_eq (hadd : Sound f.type)
    (h : NoData f.type ∨ Short f.type ∧ ¬Flattens f.type f.type.extent) (hrun : Run (f :: rest)) :
    runMap (f :: rest) = (f :: rest).flatMap Field.entries := by
  induction rest generalizing f with
  | nil => simp [runMap_singleton]
  | cons b rest ih =>
    obtain ⟨⟨htype, -⟩, hrest⟩ := isChain_cons_cons.mp hrun
    rw [flatMap_cons, ← ih (htype ▸ hadd) (htype ▸ h) hrest, runMap_cons hrun, runMap, total_cons,
      Field.entries]
    exact added_add hadd h _ _

theorem runMap_eq_of_single (hrun : Run (f :: rest))
    (h : ((f :: rest).filter fun b => decide (0 < b.blockLength)).length ≤ 1) :
    runMap (f :: rest) = (f :: rest).flatMap Field.entries := by
  induction rest generalizing f with
  | nil => simp [runMap_singleton]
  | cons b rest ih =>
    obtain ⟨-, hrest⟩ := isChain_cons_cons.mp hrun
    rcases Nat.eq_zero_or_pos f.blockLength with hzero | hpos
    · rw [filter_cons_of_neg (by simp [hzero])] at h
      rw [flatMap_cons, ← ih hrest h, runMap_cons hrun, runMap, total_cons, Field.entries, hzero]
      simp
    · rw [filter_cons_of_pos (by simpa using hpos), length_cons] at h
      have hempty : total (b :: rest) = 0 := by
        have hnone : (b :: rest).filter (fun b => decide (0 < b.blockLength)) = [] :=
          length_eq_zero_iff.mp (by omega)
        simp only [filter_eq_nil_iff, decide_eq_true_eq, not_lt, Nat.le_zero] at hnone
        exact total_eq_zero.mpr hnone
      rw [flatMap_cons, flatMap_entries_of_total hempty, runMap, total_cons, hempty,
        add_zero, List.append_nil, Field.entries]

theorem exists_strided_eq_cons {n : ℕ} (hn : 0 < n) (stride : ℤ) (x : ℤ × Basic) :
    ∃ l, strided n stride [x] = x :: l := by
  obtain ⟨n, rfl⟩ := Nat.exists_eq_succ_of_ne_zero hn.ne'
  exact ⟨_, rfl⟩

section Flattened

variable {e : Elem} (htwo : 2 ≤ e.count) (hadded : ∀ count disp,
  added add count disp = strided (e.count * count) add.extent [(e.disp + disp, e.type)])

include htwo hadded

theorem exists_flatMap_entries_eq_cons (hrun : Run (f :: rest)) (htype : f.type = add)
    (hpos : 0 < total (f :: rest)) :
    ∃ l, (f :: rest).flatMap Field.entries = (e.disp + f.disp, e.type) :: l := by
  induction rest generalizing f with
  | nil =>
    rw [total_singleton] at hpos
    simp only [flatMap_cons, List.flatMap_nil, List.append_nil, Field.entries, htype, hadded]
    exact exists_strided_eq_cons (mul_pos (by omega) hpos) _ _
  | cons b rest ih =>
    obtain ⟨⟨hb, hdisp⟩, hrest⟩ := isChain_cons_cons.mp hrun
    rw [flatMap_cons, Field.entries, htype]
    rcases Nat.eq_zero_or_pos f.blockLength with hzero | hlength
    · rw [total_cons, hzero, zero_add] at hpos
      obtain ⟨l, hl⟩ := ih hrest (hb.trans htype) hpos
      refine ⟨l, ?_⟩
      rw [hzero, added_zero, List.nil_append, hl, hdisp, hzero]
      simp
    · obtain ⟨l, hl⟩ := exists_strided_eq_cons (mul_pos (by omega : 0 < e.count) hlength)
        add.extent (e.disp + f.disp, e.type)
      rw [hadded, hl]
      exact ⟨_, rfl⟩

theorem runMap_ne (hextent : add.extent ≠ 0) (hrun : Run (f :: rest)) (htype : f.type = add)
    (h : 2 ≤ ((f :: rest).filter fun b => decide (0 < b.blockLength)).length) :
    runMap (f :: rest) ≠ (f :: rest).flatMap Field.entries := by
  induction rest generalizing f with
  | nil =>
    have := length_filter_le (fun b : Field => decide (0 < b.blockLength)) [f]
    rw [length_singleton] at this
    omega
  | cons b rest ih =>
    obtain ⟨⟨hb, hdisp⟩, hrest⟩ := isChain_cons_cons.mp hrun
    rcases Nat.eq_zero_or_pos f.blockLength with hzero | hpos
    · rw [filter_cons_of_neg (by simp [hzero])] at h
      have := ih hrest (hb.trans htype) h
      rw [runMap_cons hrun] at this
      rw [flatMap_cons, Field.entries, runMap, total_cons, hzero]
      simpa [hzero] using this
    · rw [filter_cons_of_pos (by simpa using hpos), length_cons] at h
      have hrestpos : 0 < total (b :: rest) := by
        obtain ⟨c, hc⟩ := exists_mem_of_length_pos (by omega : 0 < ((b :: rest).filter fun b =>
          decide (0 < b.blockLength)).length)
        rw [mem_filter, decide_eq_true_eq] at hc
        exact Nat.pos_of_ne_zero fun hzero => hc.2.ne' (total_eq_zero.mp hzero c hc.1)
      obtain ⟨l, hl⟩ := exists_flatMap_entries_eq_cons htwo hadded hrest (hb.trans htype) hrestpos
      obtain ⟨l', hl'⟩ := exists_strided_eq_cons (mul_pos (by omega : 0 < e.count) hrestpos)
        add.extent (e.disp + f.disp + (e.count * f.blockLength : ℕ) * add.extent, e.type)
      rw [flatMap_cons, Field.entries, runMap, total_cons, htype, hadded, hadded, mul_add,
        strided_add, shift_strided, shift_cons, shift_nil, hl, hl', hdisp, htype]
      intro hsame
      have hplace := (List.cons.inj (append_cancel_left hsame)).1
      simp only [Prod.mk.injEq, and_true] at hplace
      push_cast at hplace
      have hzero : ((e.count : ℤ) - 1) * (f.blockLength * add.extent) = 0 := by linarith
      have hlength : (f.blockLength : ℤ) ≠ 0 := by omega
      rcases mul_eq_zero.mp hzero with h | h
      · omega
      · exact (mul_ne_zero hlength hextent) h

end Flattened

theorem added_of_not_short (hshort : ¬Short add) (hcount : count ≠ 1) :
    added add count disp = [] := by
  refine if_pos (.inr (.inr (.inl ?_)))
  unfold Short Datatype.tooManyEntries at *
  simpa [hcount] using hshort

theorem added_one_ne_nil (hadd : Sound add) (hdata : ¬NoData add) : added add 1 disp ≠ [] := by
  have hsize : 0 < add.size := by
    unfold NoData at hdata
    omega
  obtain ⟨b, hb, -⟩ := @Sound.added add 1 disp add.extent hadd hsize one_pos
  have hskips : ¬Skips add 1 := by
    unfold Skips NoData Datatype.tooManyEntries at *
    simp only [not_or] at hdata ⊢
    refine ⟨hdata.1, hdata.2.1, by simp, by simp, hdata.2.2⟩
  unfold added
  rw [if_neg hskips, hb.desc_eq, Body.typeMap_flatten]
  exact Body.entries_ne_nil hb.ok (hb.ne_nil (by omega))

theorem entries_of_not_short (hshort : ¬Short f.type) (hrun : Run (f :: rest))
    (h : ∀ b ∈ f :: rest, b.blockLength ≠ 1) : (f :: rest).flatMap Field.entries = [] := by
  induction rest generalizing f with
  | nil => simpa [Field.entries] using added_of_not_short hshort (h f mem_cons_self)
  | cons b rest ih =>
    obtain ⟨⟨htype, -⟩, hrest⟩ := isChain_cons_cons.mp hrun
    rw [flatMap_cons, Field.entries, added_of_not_short hshort (h f mem_cons_self),
      ih (htype ▸ hshort) hrest fun c hc => h c (mem_cons_of_mem _ hc), List.append_nil]

theorem filter_le_total (run : List Field) :
    (run.filter fun b => decide (0 < b.blockLength)).length ≤ total run := by
  induction run with
  | nil => simp
  | cons f rest ih =>
    rw [filter_cons, total_cons]
    split
    · next hpos =>
      rw [decide_eq_true_eq] at hpos
      rw [length_cons]
      omega
    · omega

theorem Run.type_eq (hrun : Run (f :: rest)) : ∀ b ∈ f :: rest, b.type = f.type := by
  induction rest generalizing f with
  | nil => simp
  | cons b rest ih =>
    obtain ⟨⟨htype, -⟩, hrest⟩ := isChain_cons_cons.mp hrun
    rw [forall_mem_cons]
    exact ⟨rfl, fun c hc => (ih hrest c hc).trans htype⟩

theorem runMap_eq_iff (hadd : ∀ f ∈ run, Sound f.type) (hrun : Run run) :
    runMap run = run.flatMap Field.entries ↔ KeepsMap run := by
  cases run with
  | nil => simp [runMap, KeepsMap]
  | cons f rest =>
    have hsound := hadd f mem_cons_self
    rw [KeepsMap]
    by_cases hdata : NoData f.type
    · exact iff_of_true (runMap_eq hsound (.inl hdata) hrun) (.inl hdata)
    by_cases hshort : Short f.type
    · rw [if_pos hshort]
      by_cases hflattens : Flattens f.type f.type.extent
      · obtain ⟨e, htwo, he⟩ := added_of_flattens hshort hdata hflattens
        by_cases hsingle : ((f :: rest).filter fun b => decide (0 < b.blockLength)).length ≤ 1
        · exact iff_of_true (runMap_eq_of_single hrun hsingle) (.inr (.inr hsingle))
        · exact iff_of_false (runMap_ne htwo he hflattens.2.2.1 hrun rfl (by omega)) (by tauto)
      · exact iff_of_true (runMap_eq hsound (.inr ⟨hshort, hflattens⟩) hrun) (by tauto)
    · rw [if_neg hshort]
      by_cases hone : total (f :: rest) = 1
      · exact iff_of_true (runMap_eq_of_single hrun (hone ▸ filter_le_total _)) (.inr (.inl hone))
      have hnil : runMap (f :: rest) = [] := added_of_not_short hshort hone
      rw [hnil]
      by_cases hnone : ∀ b ∈ f :: rest, b.blockLength ≠ 1
      · exact iff_of_true (entries_of_not_short hshort hrun hnone).symm (.inr (.inr hnone))
      · refine iff_of_false (fun h => hnone fun b hb hlength => ?_) (by tauto)
        have hentries := flatMap_eq_nil_iff.mp h.symm b hb
        rw [Field.entries, hlength] at hentries
        exact added_one_ne_nil (hadd b hb) ((hrun.type_eq b hb).symm ▸ hdata) hentries

theorem length_runMap_le (hadd : ∀ f ∈ run, Sound f.type) (hrun : Run run) :
    (runMap run).length ≤ (run.flatMap Field.entries).length := by
  cases run with
  | nil => simp [runMap]
  | cons f rest =>
    have hsound := hadd f mem_cons_self
    by_cases hshort : Short f.type
    · obtain ⟨n, hn⟩ := exists_length_added hsound hshort
      rw [runMap, hn]
      clear hadd hsound hshort
      induction rest generalizing f with
      | nil => simp [Field.entries, hn]
      | cons b rest ih =>
        obtain ⟨⟨htype, -⟩, hrest⟩ := isChain_cons_cons.mp hrun
        have := ih b hrest (htype ▸ hn)
        rw [flatMap_cons, length_append, Field.entries, hn, total_cons, add_mul]
        omega
    · by_cases hone : total (f :: rest) = 1
      · rw [runMap_eq_of_single hrun (hone ▸ filter_le_total _)]
      · rw [runMap, added_of_not_short hshort hone]
        exact Nat.zero_le _

theorem flatMap_eq_flatMap_iff {α β : Type*} {l : List α} {u v : α → List β}
    (h : ∀ x ∈ l, (u x).length ≤ (v x).length) :
    l.flatMap u = l.flatMap v ↔ ∀ x ∈ l, u x = v x := by
  have hlength (l : List α) (h : ∀ x ∈ l, (u x).length ≤ (v x).length) :
      (l.flatMap u).length ≤ (l.flatMap v).length := by
    induction l with
    | nil => simp
    | cons x l ih =>
      rw [flatMap_cons, flatMap_cons, length_append, length_append]
      exact add_le_add (h x mem_cons_self) (ih fun y hy => h y (mem_cons_of_mem _ hy))
  induction l with
  | nil => simp
  | cons x l ih =>
    have hrest : ∀ y ∈ l, (u y).length ≤ (v y).length := fun y hy => h y (mem_cons_of_mem _ hy)
    rw [forall_mem_cons, flatMap_cons, flatMap_cons]
    constructor
    · intro hsame
      have hboth := congrArg List.length hsame
      rw [length_append, length_append] at hboth
      have := h x mem_cons_self
      have := hlength l hrest
      obtain ⟨h1, h2⟩ := append_inj hsame (by omega)
      exact ⟨h1, (ih hrest).mp h2⟩
    · rintro ⟨h1, h2⟩
      rw [h1, (ih hrest).mpr h2]

theorem Fresh.addTo (hbase : Fresh base) (hf : Built f.type) : Fresh (f.addTo base) :=
  hbase.ddtAdd hf

theorem Fresh.addRun (hbase : Fresh base) (hrun : ∀ f ∈ run, Built f.type) :
    Fresh (addRun base run) := by
  cases run with
  | nil => exact hbase
  | cons f rest => exact hbase.ddtAdd (hrun f mem_cons_self)

theorem typeMap_addTo (hbase : Fresh base) (hf : Built f.type) :
    typeMap (f.addTo base).desc = typeMap base.desc ++ f.entries := by
  have := @typeMap_ddtAdd f.blockLength f.disp f.type.extent base f.type hbase.built.sound hf.sound
  rwa [extentOr_extent] at this

theorem typeMap_addFields {fields : List Field} (hbase : Fresh base)
    (hfields : ∀ f ∈ fields, Built f.type) :
    typeMap (addFields base fields).desc = typeMap base.desc ++ fields.flatMap Field.entries := by
  induction fields generalizing base with
  | nil => simp [addFields]
  | cons f fields ih =>
    have hf := hfields f mem_cons_self
    have := ih (hbase.addTo hf) fun f hf => hfields f (mem_cons_of_mem _ hf)
    rw [flatMap_cons, ← List.append_assoc]
    refine this.trans (congrArg (· ++ _) ?_)
    exact typeMap_addTo hbase hf

theorem typeMap_addRun (hbase : Fresh base) (hrun : ∀ f ∈ run, Built f.type) :
    typeMap (addRun base run).desc = typeMap base.desc ++ runMap run := by
  cases run with
  | nil => simp [addRun, runMap]
  | cons f rest =>
    have hf := hrun f mem_cons_self
    exact @typeMap_addTo base { f with blockLength := total (f :: rest) } hbase hf

theorem typeMap_addRuns {runs : List (List Field)} (hbase : Fresh base)
    (hruns : ∀ run ∈ runs, ∀ f ∈ run, Built f.type) :
    typeMap (runs.foldl addRun base).desc = typeMap base.desc ++ runs.flatMap runMap := by
  induction runs generalizing base with
  | nil => simp
  | cons run runs ih =>
    have hrun := hruns run mem_cons_self
    rw [foldl_cons, ih (hbase.addRun hrun) fun r hr => hruns r (mem_cons_of_mem _ hr),
      typeMap_addRun hbase hrun, flatMap_cons, List.append_assoc]

theorem typeMap_addRuns_iff {runs : List (List Field)} (hbase : Fresh base)
    (hruns : ∀ run ∈ runs, Run run) (hbuilt : ∀ run ∈ runs, ∀ f ∈ run, Built f.type) :
    typeMap (runs.foldl addRun base).desc = typeMap (addFields base runs.flatten).desc
      ↔ ∀ run ∈ runs, KeepsMap run := by
  have hflatten : ∀ f ∈ runs.flatten, Built f.type := fun f hf => by
    obtain ⟨run, hrun, hmem⟩ := mem_flatten.mp hf
    exact hbuilt run hrun f hmem
  have hentries : runs.flatten.flatMap Field.entries
      = runs.flatMap fun run => run.flatMap Field.entries := by
    rw [flatten_eq_flatMap, flatMap_assoc]
    rfl
  rw [typeMap_addRuns hbase hbuilt, typeMap_addFields hbase hflatten, append_cancel_left_eq,
    hentries, flatMap_eq_flatMap_iff fun run hrun =>
      length_runMap_le (fun f hf => (hbuilt run hrun f hf).sound) (hruns run hrun)]
  refine forall₂_congr fun run hrun => ?_
  exact runMap_eq_iff (fun f hf => (hbuilt run hrun f hf).sound) (hruns run hrun)

structure SameBounds (a b : Datatype) : Prop where
  lb : a.lb = b.lb
  ub : a.ub = b.ub
  userLb : a.userLb = b.userLb
  userUb : a.userUb = b.userUb
  align : a.align = b.align

theorem SameBounds.same {a : Datatype} : SameBounds a a := ⟨rfl, rfl, rfl, rfl, rfl⟩

theorem SameBounds.symm {a b : Datatype} (h : SameBounds a b) : SameBounds b a :=
  ⟨h.lb.symm, h.ub.symm, h.userLb.symm, h.userUb.symm, h.align.symm⟩

theorem SameBounds.trans {a b c : Datatype} (h : SameBounds a b) (h' : SameBounds b c) :
    SameBounds a c :=
  ⟨h.lb.trans h'.lb, h.ub.trans h'.ub, h.userLb.trans h'.userLb, h.userUb.trans h'.userUb,
    h.align.trans h'.align⟩

def rounded (align : ℕ) (x : ℤ) : ℤ :=
  if x.tmod align ≠ 0 then x + (align - x.tmod align) else x

theorem le_rounded {m : ℕ} (hm : 0 < m) (x : ℤ) : x ≤ rounded m x := by
  have := Int.tmod_lt_of_pos x (by exact_mod_cast hm : (0 : ℤ) < m)
  unfold rounded
  split_ifs <;> omega

theorem rounded_of_tmod {m : ℕ} {x : ℤ} (h : x.tmod m = 0) : rounded m x = x := by
  unfold rounded
  rw [if_neg (not_not.mpr h)]

theorem dvd_rounded (m : ℕ) (x : ℤ) : (m : ℤ) ∣ rounded m x := by
  unfold rounded
  have := Int.tmod_add_mul_tdiv x m
  split_ifs with h
  · exact ⟨x.tdiv m + 1, by linarith⟩
  · exact Int.dvd_of_tmod_eq_zero (not_not.mp h)

theorem rounded_rounded (m : ℕ) (x : ℤ) : rounded m (rounded m x) = rounded m x :=
  rounded_of_tmod (Int.tmod_eq_zero_of_dvd (dvd_rounded m x))

theorem rounded_le {m : ℕ} {x y : ℤ} (hx : 0 ≤ x) (hy : (m : ℤ) ∣ y) (h : x ≤ y) :
    rounded m x ≤ y := by
  unfold rounded
  split_ifs with hmod
  · obtain ⟨q, rfl⟩ := hy
    have hdiv := Int.tmod_add_mul_tdiv x m
    have hpos : 0 ≤ x.tmod m := Int.tmod_nonneg _ hx
    have hlt : x.tdiv m < q := by
      by_contra hle
      have : (m : ℤ) * q ≤ m * x.tdiv m := mul_le_mul_of_nonneg_left (by omega) (by omega)
      omega
    have : (m : ℤ) * (x.tdiv m + 1) ≤ m * q := mul_le_mul_of_nonneg_left (by omega) (by omega)
    linarith
  · exact h

theorem rounded_max {m : ℕ} (hm : 0 < m) {x y : ℤ} (h : 0 ≤ x ∨ y ≤ x) :
    rounded m (max (rounded m x) y) = rounded m (max x y) := by
  have hle := le_rounded hm x
  rcases le_total y x with hyx | hxy
  · rw [max_eq_left (hyx.trans hle), max_eq_left hyx, rounded_rounded]
  · rw [max_eq_right hxy]
    rcases le_total y (rounded m x) with hy | hy
    · rw [max_eq_left hy, rounded_rounded]
      rcases h with h | h
      · exact le_antisymm (rounded_le h (dvd_rounded m y) (hxy.trans (le_rounded hm y)))
          (rounded_le (h.trans hxy) (dvd_rounded m x) hy)
      · rw [le_antisymm hxy h]
    · rw [max_eq_right hy]

theorem lbUbCont_eq (lb ub : ℤ) : lbUbCont count disp lb ub extent
    = (disp + min 0 (extent * (count - 1 : ℕ)) + lb, disp + max 0 (extent * (count - 1 : ℕ)) + ub) := by
  unfold lbUbCont
  split_ifs with hzero
  · simp [hzero, add_comm]
  · dsimp only
    rw [Nat.cast_sub (by omega), Nat.cast_one]
    split_ifs with hlt
    · rw [min_eq_left (by omega), max_eq_right (by omega), add_zero]
    · rw [min_eq_right (by omega), max_eq_left (by omega), add_zero]

theorem addBounds_lb : (base.addBounds add count disp extent).lb
    = lbWith base add (lbUbCont count disp add.lb add.ub extent).1 := by
  unfold addBounds lbWith
  dsimp only
  split_ifs <;> simp_all

theorem addBounds_ub : (base.addBounds add count disp extent).ub
    = if base.userUb || add.userUb then
        ubWith base add (lbUbCont count disp add.lb add.ub extent).2
      else
        lbWith base add (lbUbCont count disp add.lb add.ub extent).1 +
          rounded (max base.align add.align) (ubWith base add (lbUbCont count disp add.lb add.ub extent).2
            - lbWith base add (lbUbCont count disp add.lb add.ub extent).1) := by
  have hextent := @extent_addBounds base add count disp extent
  have hlb := @addBounds_lb base add count disp extent
  have hub : (base.addBounds add count disp extent).ub
      = lbWith base add (lbUbCont count disp add.lb add.ub extent).1 +
        extentWith base add (lbUbCont count disp add.lb add.ub extent) := by
    rw [← hlb, ← hextent, Datatype.extent]
    ring
  rw [hub]
  unfold extentWith rounded
  dsimp only
  by_cases huser : (base.userUb || add.userUb) = true
  · rw [if_pos huser, huser]
    simp
  · rw [if_neg huser, (Bool.not_eq_true _).mp huser]
    simp

def Ordered (base add : Datatype) (disp : ℤ) : Prop :=
  base.userUb = true ∨ add.userUb = true ∨
    0 < add.extent ∧ (base.userLb = true → add.userLb = false → base.lb ≤ disp + add.ub)

def Merges (base add : Datatype) (m n : ℕ) (disp : ℤ) : Prop :=
  add.extent = 0 ∨ m + n = 0 ∨ 0 < n ∧ Ordered base add disp

theorem lbUbCont_add {m n : ℕ} (h : extent = 0 ∨ m + n = 0 ∨ 0 < n) (lb ub : ℤ) :
    min (lbUbCont m disp lb ub extent).1 (lbUbCont n (disp + m * extent) lb ub extent).1
        = (lbUbCont (m + n) disp lb ub extent).1 ∧
      max (lbUbCont m disp lb ub extent).2 (lbUbCont n (disp + m * extent) lb ub extent).2
        = (lbUbCont (m + n) disp lb ub extent).2 := by
  simp only [lbUbCont_eq]
  rcases h with rfl | h | h
  · simp
  · obtain ⟨rfl, rfl⟩ : m = 0 ∧ n = 0 := by omega
    simp
  · obtain ⟨n, rfl⟩ := Nat.exists_eq_succ_of_ne_zero h.ne'
    rcases Nat.eq_zero_or_pos m with rfl | hm
    · simp only [zero_add, Nat.zero_sub, Nat.cast_zero, mul_zero, zero_mul, min_self, max_self,
        add_zero, Nat.succ_eq_add_one, Nat.add_sub_cancel]
      omega
    · obtain ⟨m, rfl⟩ := Nat.exists_eq_succ_of_ne_zero hm.ne'
      have hsub : m.succ + n.succ - 1 = m + 1 + n := by omega
      simp only [hsub, Nat.succ_eq_add_one, Nat.add_sub_cancel]
      push_cast
      have hm : extent * (m + 1 + n) = extent * m + extent + extent * n := by ring
      have hm' : (m + 1) * extent = extent * m + extent := by ring
      rw [hm, hm']
      rcases le_total 0 extent with hpos | hneg
      · have h1 : 0 ≤ extent * m := mul_nonneg hpos (by omega)
        have h2 : 0 ≤ extent * n := mul_nonneg hpos (by omega)
        omega
      · have h1 : extent * m ≤ 0 := mul_nonpos_of_nonpos_of_nonneg hneg (by omega)
        have h2 : extent * n ≤ 0 := mul_nonpos_of_nonpos_of_nonneg hneg (by omega)
        omega

variable {m n : ℕ}

theorem lbWith_addBounds {l : ℤ} : lbWith (base.addBounds add count disp extent) add l
    = lbWith base add (min (lbUbCont count disp add.lb add.ub extent).1 l) := by
  have huser : (base.addBounds add count disp extent).userLb = (base.userLb || add.userLb) := by rfl
  unfold lbWith
  rw [huser, addBounds_lb, lbWith]
  cases base.userLb <;> cases add.userLb <;> simp [min_assoc]

theorem ubWith_addBounds (huser : (base.userUb || add.userUb) = true) {u : ℤ} :
    ubWith (base.addBounds add count disp extent) add u
      = ubWith base add (max (lbUbCont count disp add.lb add.ub extent).2 u) := by
  have hsame : (base.addBounds add count disp extent).userUb = (base.userUb || add.userUb) := by rfl
  have hub : (base.addBounds add count disp extent).ub
      = ubWith base add (lbUbCont count disp add.lb add.ub extent).2 := by
    rw [addBounds_ub, if_pos huser]
  unfold ubWith
  rw [hsame, hub, ubWith]
  cases hbase : base.userUb <;> cases hadd : add.userUb <;> simp_all [max_assoc]

theorem Merges.bounds (h : Merges base add m n disp) (huser : ¬(base.userUb || add.userUb) = true) :
    lbWith base add (lbUbCont m disp add.lb add.ub add.extent).1
        = lbWith base add (lbUbCont (m + n) disp add.lb add.ub add.extent).1 ∧
      (lbWith base add (lbUbCont m disp add.lb add.ub add.extent).1
          ≤ (lbUbCont m disp add.lb add.ub add.extent).2 ∨
        (lbUbCont n (disp + m * add.extent) add.lb add.ub add.extent).2
          ≤ (lbUbCont m disp add.lb add.ub add.extent).2) := by
  simp only [lbUbCont_eq]
  rcases h with h | h | ⟨-, h⟩
  · simp [h]
  · obtain ⟨rfl, rfl⟩ : m = 0 ∧ n = 0 := by omega
    simp
  · simp only [Bool.or_eq_true, not_or] at huser
    obtain ⟨hextent, hlb⟩ := (h.resolve_left huser.1).resolve_left huser.2
    have hreach (count : ℕ) : 0 ≤ add.extent * (count - 1 : ℕ) := mul_nonneg hextent.le (by omega)
    rw [min_eq_left (hreach m), min_eq_left (hreach (m + n)), max_eq_right (hreach m)]
    refine ⟨rfl, .inl ?_⟩
    have hreach := hreach m
    have : add.extent = add.ub - add.lb := rfl
    unfold lbWith
    cases hbase : base.userLb <;> cases hadd : add.userLb <;>
      simp only [hbase, hadd, if_true, if_false, Bool.false_eq_true, Bool.true_eq_false] at hlb ⊢
    · omega
    · omega
    · have := hlb trivial trivial
      omega
    · omega

theorem addBounds_addBounds (halign : 0 < base.align) (h : Merges base add m n disp) :
    SameBounds ((base.addBounds add m disp add.extent).addBounds add n (disp + m * add.extent) add.extent)
      (base.addBounds add (m + n) disp add.extent) := by
  have hreach := @lbUbCont_add disp add.extent m n (by unfold Merges at h; tauto) add.lb add.ub
  have hlb : lbWith (base.addBounds add m disp add.extent) add
      (lbUbCont n (disp + m * add.extent) add.lb add.ub add.extent).1
        = lbWith base add (lbUbCont (m + n) disp add.lb add.ub add.extent).1 := by
    rw [lbWith_addBounds, hreach.1]
  have huserUb : (base.addBounds add m disp add.extent).userUb = (base.userUb || add.userUb) := by rfl
  have halign' : (base.addBounds add m disp add.extent).align = max base.align add.align := by rfl
  refine ⟨?_, ?_, ?_, ?_, ?_⟩
  · rw [addBounds_lb, addBounds_lb, hlb]
  · rw [addBounds_ub, @addBounds_ub base, hlb, huserUb, halign', Bool.or_assoc, Bool.or_self,
      max_assoc, max_self]
    by_cases huser : (base.userUb || add.userUb) = true
    · rw [if_pos huser, if_pos huser, ubWith_addBounds huser, hreach.2]
    · rw [if_neg huser, if_neg huser]
      obtain ⟨hfirst, hle⟩ := h.bounds huser
      have hnone : base.userUb = false ∧ add.userUb = false := by simpa using huser
      have hub (d : Datatype) (hd : d.userUb = false) (u : ℤ) : ubWith d add u = max d.ub u := by
        rw [ubWith, if_pos (by rw [hd, hnone.2])]
      rw [hub _ (by rw [huserUb]; simpa using huser), hub base hnone.1, addBounds_ub, if_neg huser,
        hub base hnone.1, ← hreach.2, hfirst, ← max_assoc]
      rw [hfirst] at hle
      generalize lbWith base add (lbUbCont (m + n) disp add.lb add.ub add.extent).1 = l at hle ⊢
      generalize (lbUbCont m disp add.lb add.ub add.extent).2 = u at hle ⊢
      generalize (lbUbCont n (disp + m * add.extent) add.lb add.ub add.extent).2 = u' at hle ⊢
      have hmax := @rounded_max (max base.align add.align) (lt_max_of_lt_left halign)
        (max base.ub u - l) (u' - l) (by
          have := le_max_right base.ub u
          rcases hle with hle | hle
          · exact .inl (by omega)
          · exact .inr (by omega))
      rw [max_sub_sub_right] at hmax
      rw [← hmax, ← max_sub_sub_right, add_sub_cancel_left]
  · simp [addBounds]
  · simp [addBounds]
  · simp [addBounds]

def boundsWith (base add : Datatype) (count : ℕ) (disp : ℤ) : Datatype :=
  if add.id = dtLb then base.addLb disp
  else if add.id = dtUb then base.addUb disp
  else if add.tooManyEntries count then base
  else base.addBounds add count disp add.extent

theorem sameBounds_ddtAdd :
    SameBounds (base.ddtAdd add count disp add.extent) (boundsWith base add count disp) := by
  unfold ddtAdd boundsWith
  rw [ite_self]
  dsimp only
  split_ifs
  · exact .same
  · exact .same
  · exact .same
  · exact .same
  · exact ⟨rfl, rfl, rfl, rfl, rfl⟩

theorem SameBounds.addBounds {a b : Datatype} (h : SameBounds a b) :
    SameBounds (a.addBounds add count disp extent) (b.addBounds add count disp extent) := by
  have hlb (l : ℤ) : lbWith a add l = lbWith b add l := by rw [lbWith, lbWith, h.lb, h.userLb]
  have hub (u : ℤ) : ubWith a add u = ubWith b add u := by rw [ubWith, ubWith, h.ub, h.userUb]
  refine ⟨?_, ?_, ?_, ?_, ?_⟩
  · rw [addBounds_lb, addBounds_lb, hlb]
  · rw [addBounds_ub, addBounds_ub, hlb, hub, h.userUb, h.align]
  · exact congrArg (· || add.userLb) h.userLb
  · exact congrArg (· || add.userUb) h.userUb
  · exact congrArg (max · add.align) h.align

theorem SameBounds.ddtAdd {a b : Datatype} (h : SameBounds a b) :
    SameBounds (a.ddtAdd add count disp add.extent) (b.ddtAdd add count disp add.extent) := by
  refine sameBounds_ddtAdd.trans (SameBounds.trans ?_ sameBounds_ddtAdd.symm)
  unfold boundsWith
  split_ifs
  · exact ⟨by simp [addLb, h.lb, h.userLb], h.ub, rfl, h.userUb, h.align⟩
  · exact ⟨h.lb, by simp [addUb, h.ub, h.userUb], h.userLb, rfl, h.align⟩
  · exact h
  · exact h.addBounds

theorem SameBounds.addFields {a b : Datatype} (h : SameBounds a b) (fields : List Field) :
    SameBounds (addFields a fields) (addFields b fields) := by
  induction fields generalizing a b with
  | nil => exact h
  | cons f fields ih => exact ih h.ddtAdd

theorem align_ddtAdd_pos (h : 0 < base.align) : 0 < (base.ddtAdd add count disp add.extent).align := by
  rw [sameBounds_ddtAdd.align]
  unfold boundsWith
  split_ifs
  · exact h
  · exact h
  · exact h
  · exact lt_max_of_lt_left h

theorem Ordered.ddtAdd {disp' : ℤ} (h : Ordered base add disp)
    (hmarker : ¬add.id = dtLb ∧ ¬add.id = dtUb) (hle : 0 < add.extent → disp ≤ disp') :
    Ordered (base.ddtAdd add count disp add.extent) add disp' := by
  have hbounds : SameBounds (base.ddtAdd add count disp add.extent)
      (if add.tooManyEntries count then base else base.addBounds add count disp add.extent) := by
    have := @sameBounds_ddtAdd base add count disp
    rwa [boundsWith, if_neg hmarker.1, if_neg hmarker.2] at this
  unfold Ordered
  rw [hbounds.userUb, hbounds.userLb, hbounds.lb]
  split_ifs
  · rcases h with h | h | ⟨h, hlb⟩
    · exact .inl h
    · exact .inr (.inl h)
    · exact .inr (.inr ⟨h, fun h1 h2 => (hlb h1 h2).trans (by have := hle h; omega)⟩)
  · rcases h with h | h | ⟨h, hlb⟩
    · exact .inl (by simp [Datatype.addBounds, h])
    · exact .inr (.inl h)
    · refine .inr (.inr ⟨h, fun h1 h2 => ?_⟩)
      have hbase : base.userLb = true := by simpa [Datatype.addBounds, h2] using h1
      rw [addBounds_lb, lbWith, if_neg (by rw [h2, hbase]; exact Bool.false_ne_true), if_pos hbase]
      have := hle h
      exact (hlb hbase h2).trans (by omega)

/-- The runs whose bounds are those of their blocks: the last block is not empty, and the bounds are
in their order; or all blocks have the same. -/
def KeepsBounds (base : Datatype) : List Field → Prop
  | f :: b :: rest =>
    if f.type.id = dtLb then 0 ≤ f.type.extent
    else if f.type.id = dtUb then f.type.extent ≤ 0
    else Short f.type ∧ (f.type.extent = 0 ∨ total (f :: b :: rest) = 0 ∨
      0 < ((b :: rest).getLast (cons_ne_nil _ _)).blockLength ∧ Ordered base f.type f.disp)
  | _ => True

def KeepsAllBounds (base : Datatype) : List (List Field) → Prop
  | [] => True
  | run :: runs => KeepsBounds base run ∧ KeepsAllBounds (addRun base run) runs

theorem getLast_le_total (h : run ≠ []) : (run.getLast h).blockLength ≤ total run := by
  have hsplit := congrArg total (dropLast_append_getLast h)
  rw [total_append, total_singleton] at hsplit
  omega

theorem addTo_addTo {b : Field} (halign : 0 < base.align) (htype : b.type = f.type)
    (hdisp : b.disp = f.disp + f.blockLength * f.type.extent)
    (h : if f.type.id = dtLb then 0 ≤ f.type.extent else if f.type.id = dtUb then f.type.extent ≤ 0
      else Short f.type ∧ Merges base f.type f.blockLength b.blockLength f.disp) :
    SameBounds (b.addTo (f.addTo base))
      (Field.addTo base { f with blockLength := f.blockLength + b.blockLength }) := by
  have hstep : SameBounds (b.addTo (f.addTo base))
      (boundsWith (boundsWith base f.type f.blockLength f.disp) f.type b.blockLength b.disp) := by
    unfold Field.addTo
    rw [htype]
    exact SameBounds.trans sameBounds_ddtAdd.ddtAdd sameBounds_ddtAdd
  refine hstep.trans (SameBounds.trans ?_ sameBounds_ddtAdd.symm)
  unfold boundsWith
  dsimp only
  have hpos : (0 : ℤ) ≤ f.blockLength := by omega
  by_cases hlb : f.type.id = dtLb
  · rw [if_pos hlb] at h ⊢
    have := mul_nonneg hpos h
    rw [if_pos hlb, if_pos hlb, hdisp]
    refine ⟨?_, rfl, rfl, rfl, rfl⟩
    simp only [addLb, if_true]
    rw [min_eq_left]
    split_ifs
    · exact (min_le_right _ _).trans (by omega)
    · omega
  by_cases hub : f.type.id = dtUb
  · rw [if_neg hlb, if_pos hub] at h
    have := mul_nonpos_of_nonneg_of_nonpos hpos h
    rw [if_neg hlb, if_neg hlb, if_neg hlb, if_pos hub, if_pos hub, if_pos hub, hdisp]
    refine ⟨rfl, ?_, rfl, rfl, rfl⟩
    simp only [addUb, if_true]
    rw [max_eq_left]
    split_ifs
    · exact le_trans (by omega) (le_max_right _ _)
    · omega
  · rw [if_neg hlb, if_neg hub] at h
    obtain ⟨hshort, hmerges⟩ := h
    simp only [if_neg hlb, if_neg hub, hshort.tooManyEntries, Bool.false_eq_true, if_false, hdisp]
    exact addBounds_addBounds halign hmerges

theorem addRun_sameBounds (halign : 0 < base.align) (hrun : Run run) (h : KeepsBounds base run) :
    SameBounds (addRun base run) (addFields base run) := by
  cases run with
  | nil => exact .same
  | cons f rest =>
    induction rest generalizing f base with
    | nil =>
      rw [addRun_singleton]
      exact .same
    | cons b rest ih =>
      obtain ⟨⟨htype, hdisp⟩, hrest⟩ := isChain_cons_cons.mp hrun
      rw [KeepsBounds] at h
      -- the blocks behind the first are merged first
      have hnext : KeepsBounds (f.addTo base) (b :: rest) := by
        cases rest with
        | nil => trivial
        | cons c rest =>
          rw [KeepsBounds, htype]
          split_ifs at h ⊢ with hlb hub
          · exact h
          · exact h
          · refine ⟨h.1, ?_⟩
            rcases h.2 with h | h | ⟨hlast, hordered⟩
            · exact .inl h
            · rw [total_cons] at h
              exact .inr (.inl (by omega))
            · rw [getLast_cons (cons_ne_nil _ _)] at hlast
              refine .inr (.inr ⟨hlast, hordered.ddtAdd ⟨hlb, hub⟩ fun hextent => ?_⟩)
              have : 0 ≤ f.blockLength * f.type.extent := mul_nonneg (by omega) hextent.le
              omega
      have halign' : 0 < (f.addTo base).align := align_ddtAdd_pos halign
      have hbehind := ih (f := b) halign' hrest hnext
      refine SameBounds.trans ?_ hbehind
      refine (addTo_addTo (b := { b with blockLength := total (b :: rest) }) halign htype hdisp ?_).symm
      split_ifs at h ⊢ with hlb hub
      · exact h
      · exact h
      · refine ⟨h.1, ?_⟩
        rcases h.2 with h | h | ⟨hlast, hordered⟩
        · exact .inl h
        · rw [total_cons] at h
          exact .inr (.inl h)
        · have := getLast_le_total (cons_ne_nil b rest)
          exact .inr (.inr ⟨hlast.trans_le this, hordered⟩)

theorem align_addRun_pos (h : 0 < base.align) : 0 < (addRun base run).align := by
  cases run with
  | nil => exact h
  | cons f rest => exact align_ddtAdd_pos h

theorem addRuns_sameBounds {runs : List (List Field)} (halign : 0 < base.align)
    (hruns : ∀ run ∈ runs, Run run) (h : KeepsAllBounds base runs) :
    SameBounds (runs.foldl addRun base) (addFields base runs.flatten) := by
  induction runs generalizing base with
  | nil => exact .same
  | cons run runs ih =>
    have hrun := addRun_sameBounds halign (hruns run mem_cons_self) h.1
    have hrest := ih (align_addRun_pos halign) (fun r hr => hruns r (mem_cons_of_mem _ hr)) h.2
    rw [foldl_cons, flatten_cons, addFields, foldl_append]
    exact hrest.trans (hrun.addFields runs.flatten)

/-- The merged datatype is like that of the blocks one by one: with its type map if and only if every
run has that of its blocks, and with its bounds if every run keeps them. -/
structure MergedLike (runs : List (List Field)) (merged single : Datatype) : Prop where
  typeMap : typeMap merged.desc = typeMap single.desc ↔ ∀ run ∈ runs, KeepsMap run
  bounds : KeepsAllBounds ddtCreate runs → merged.lb = single.lb ∧ merged.ub = single.ub

theorem mergedLike_addRuns {runs : List (List Field)} {fields : List Field}
    (hflatten : runs.flatten = fields) (hne : fields ≠ []) (hruns : ∀ run ∈ runs, Run run)
    (hbuilt : ∀ f ∈ fields, Built f.type) :
    MergedLike runs (runs.foldl addRun ddtCreate) (separately fields) := by
  have hsingle : separately fields = addFields ddtCreate fields := by
    cases fields with
    | nil => exact absurd rfl hne
    | cons f rest => rfl
  rw [hsingle, ← hflatten]
  refine ⟨typeMap_addRuns_iff fresh_create hruns fun run hrun f hf => hbuilt f ?_, fun h => ?_⟩
  · rw [← hflatten]
    exact mem_flatten_of_mem hrun hf
  · have := addRuns_sameBounds one_pos hruns h
    exact ⟨this.lb, this.ub⟩

theorem mergedLike_empty : MergedLike [] empty (separately []) :=
  ⟨by simp [separately], fun _ => ⟨rfl, rfl⟩⟩

theorem mergedLike_createIndexed {unit step : ℤ} (hstep : step * unit = old.extent)
    (hold : Built old) (blocks : List (ℕ × ℤ)) :
    MergedLike (indexedRuns old unit step blocks) (createIndexed unit step old blocks)
      (separately (indexedFields old unit blocks)) := by
  by_cases hne : blocks = []
  · subst hne
    exact mergedLike_empty
  · rw [createIndexed_eq hne]
    refine mergedLike_addRuns (flatten_indexedRuns old unit step blocks) (by simpa [indexedFields])
      (fun run hrun => run_indexedRuns hstep hrun) fun f hf => ?_
    obtain ⟨b, -, rfl⟩ := mem_map.mp hf
    exact hold

theorem mergedLike_ddtCreateStruct (types : ℕ → Datatype) {fields : List Field}
    (hfields : ∀ f ∈ fields, f.type = types f.handle) (hbuilt : ∀ f ∈ fields, Built f.type) :
    MergedLike (structRuns fields) (ddtCreateStruct fields) (separately fields) := by
  by_cases hne : fields = []
  · subst hne
    exact mergedLike_empty
  · rw [ddtCreateStruct_eq types hfields hne]
    exact mergedLike_addRuns (flatten_structRuns fields) hne
      (fun run hrun => run_structRuns types hfields hrun) hbuilt

theorem ddtCreateIndexedBlock_eq {bLength : ℕ} (hne : bLength ≠ 0) (disps : List ℤ) :
    ddtCreateIndexedBlock bLength disps old
      = createIndexed old.extent 1 old (disps.map fun d => (bLength, d)) := by
  unfold ddtCreateIndexedBlock
  cases disps with
  | nil => rfl
  | cons d disps =>
    dsimp only
    rw [if_neg hne]

theorem mergedLike_ddtCreateIndexedBlock_zero (hold : Built old) {d : ℤ} {disps : List ℤ}
    (h : ∀ d' ∈ disps, d' * old.extent = d * old.extent) :
    MergedLike [indexedFields old old.extent ((d :: disps).map fun d => (0, d))]
      (ddtCreateIndexedBlock 0 (d :: disps) old)
      (separately (indexedFields old old.extent ((d :: disps).map fun d => (0, d)))) := by
  have hzero : ∀ f ∈ indexedFields old old.extent ((d :: disps).map fun d => (0, d)),
      f.type = old ∧ f.blockLength = 0 ∧ f.disp = d * old.extent := by
    intro f hf
    simp only [indexedFields, map_map, mem_map, Function.comp_apply] at hf
    obtain ⟨d', hd', rfl⟩ := hf
    refine ⟨rfl, rfl, ?_⟩
    rcases mem_cons.mp hd' with rfl | hd'
    · rfl
    · exact h d' hd'
  have hadded : ddtCreateIndexedBlock 0 (d :: disps) old
      = [indexedFields old old.extent ((d :: disps).map fun d => (0, d))].foldl addRun ddtCreate := by
    have htotal := total_eq_zero.mpr fun f hf => (hzero f hf).2.1
    rw [foldl_cons, foldl_nil]
    simp only [indexedFields, map_cons] at htotal ⊢
    simp only [ddtCreateIndexedBlock, addRun, Field.addTo, htotal, if_true]
  rw [hadded]
  refine mergedLike_addRuns (by simp) (by simp [indexedFields]) (fun run hrun => ?_) fun f hf => ?_
  · rw [mem_singleton.mp hrun]
    refine List.IsChain.imp_of_mem_imp (fun a b ha hb _ => ?_)
      (List.Pairwise.isChain (R := fun _ _ => True) (pairwise_of_forall fun _ _ => trivial))
    obtain ⟨ha, hlength, hdisp⟩ := hzero a ha
    obtain ⟨hb, -, hdisp'⟩ := hzero b hb
    rw [ha, hb, hlength, hdisp, hdisp']
    simp
  · rw [(hzero f hf).1]
    exact hold

def structFields (types : ℕ → Datatype) (fields : List (ℕ × ℤ × ℕ)) : List Field :=
  fields.map fun f => ⟨f.1, f.2.1, f.2.2, types f.2.2⟩

end Datatype

end OpenMPI.Ddt
