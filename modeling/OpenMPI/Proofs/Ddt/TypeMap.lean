import OpenMPI.Proofs.Ddt.Datatype

/-!
# What is added to a type map

`ompi_ddt_add` puts copies of the type map of what it adds behind that of the base
(`typeMap_addedDesc`), except where it takes the blocks of a single element for copies of the
datatype (`Flattens`).
-/

namespace OpenMPI.Ddt

open Lib

variable {count : ℕ} {disp extent : ℤ}

namespace Body

theorem entries_move (b : Body) : (b.move disp).entries = shift disp b.entries := by
  induction b with
  | nil => rfl
  | elem e rest ih => simp [move, entries, ih, Elem.entries, shift_strided]
  | loop contiguous loops extent body rest ih1 ih2 => simp [move, entries, ih1, ih2, shift_strided]

theorem entries_ne_nil {b : Body} (hok : b.Ok) (h : b ≠ nil) : b.entries ≠ [] := by
  intro hnil
  have hpos := Body.width_pos hok h
  rw [blocks_eq, hnil] at hpos
  simp at hpos

end Body

namespace Datatype

variable {base add : Datatype}

/-- One instance of what is added: to `ompi_ddt_add` a predefined datatype is a basic one. -/
def unit (add : Datatype) : List (ℤ × Basic) :=
  if add.predefined && add.data then
    if h : 0 < add.size then [(0, ⟨add.id, add.size, h⟩)] else []
  else typeMap add.desc

/-- The blocks of the only element of the description are as far apart as the copies are to be. -/
def Flattens (add : Datatype) (extent : ℤ) : Prop :=
  (add.predefined && add.data) = false ∧ extent = add.extent ∧ extent ≠ 0 ∧
    (match add.desc with
      | [.elem e] => decide (extent = e.extent ∧ 2 ≤ e.count)
      | _ => false) = true

instance : Decidable (Flattens add extent) := inferInstanceAs (Decidable (_ ∧ _ ∧ _ ∧ _ = true))

theorem typeMap_addedLoop (b : Body) :
    typeMap (addedDesc.addedLoop add count extent b.flatten) = strided count extent b.entries := by
  unfold addedDesc.addedLoop
  split_ifs with hone
  · simp only [typeMap, List.cons_append, typeMapGo, Body.typeMapGo_flatten, List.nil_append]
  · obtain rfl : count = 1 := by simpa using hone
    rw [Body.typeMap_flatten, strided_one]

theorem Flattens.exists_elem (h : Flattens add extent) :
    ∃ e, add.desc = [.elem e] ∧ extent = e.extent ∧ 2 ≤ e.count := by
  have helem := h.2.2.2
  split at helem
  · next e he => exact ⟨e, he, of_decide_eq_true helem⟩
  · cases helem

theorem unit_of_flattens {e : Elem} (hdesc : add.desc = [.elem e]) (h : Flattens add extent) :
    add.unit = strided e.count e.extent [(e.disp, e.type)] := by
  rw [unit, if_neg (by rw [h.1]; exact Bool.false_ne_true), hdesc]
  simp [typeMap, typeMapGo, Elem.entries]

theorem typeMap_addedDesc_of_flattens {e : Elem} (hdesc : add.desc = [.elem e])
    (h : Flattens add extent) : typeMap (addedDesc add count disp extent)
      = strided (e.count * count) extent [(e.disp + disp, e.type)] := by
  obtain ⟨e', hdesc', he, -⟩ := h.exists_elem
  obtain rfl : e' = e := by simpa [hdesc] using hdesc'.symm
  unfold addedDesc
  rw [if_neg (by rw [h.1]; exact Bool.false_ne_true), hdesc]
  dsimp only
  rw [if_pos ⟨h.2.1, he⟩]
  simp [typeMap, typeMapGo, Elem.entries, he]

theorem typeMap_addedDesc (hadd : Sound add) (hsize : 0 < add.size) (h : ¬Flattens add extent) :
    typeMap (addedDesc add count disp extent) = strided count extent (shift disp add.unit) := by
  unfold addedDesc unit
  by_cases hbasic : (add.predefined && add.data) = true
  · rw [if_pos hbasic, if_pos hbasic, dif_pos hsize, dif_pos hsize]
    dsimp only
    split_ifs with hgaps
    · simp [typeMap, typeMapGo, Elem.entries]
    · simp [typeMap, typeMapGo, Elem.entries]
  · obtain ⟨b, hb, -⟩ := hadd.described
    have hgeneral : typeMap (addedDesc.addedLoop add count extent (add.desc.map (Desc.move disp)))
        = strided count extent (shift disp (typeMap add.desc)) := by
      rw [hb.desc_eq, ← Body.flatten_move hb.ok, typeMap_addedLoop, Body.entries_move,
        Body.typeMap_flatten]
    rw [if_neg hbasic, if_neg hbasic]
    split
    · next e he =>
      split_ifs with hsame
      · have hpos : 0 < e.count := by
          have hwidth := hb.width_eq
          rw [← Body.visits_flatten, ← hb.desc_eq, he] at hwidth
          simp only [visits, visitsGo, List.nil_append, Elem.width_blocks] at hwidth
          exact Nat.pos_of_ne_zero fun hzero => by simp [hzero] at hwidth; omega
        have hmap : typeMap [.elem e] = strided e.count e.extent [(e.disp, e.type)] := by
          simp [typeMap, typeMapGo, Elem.entries]
        have hcopies : strided (e.count * count) e.extent [(e.disp + disp, e.type)]
            = strided count e.extent (strided e.count e.extent [(e.disp + disp, e.type)]) := by
          by_cases hzero : e.extent = 0
          · rw [hzero, strided_mul_of_zero]
          · have hone : e.count = 1 := by
              by_contra hone
              refine h ⟨by simpa using hbasic, hsame.1, hsame.2 ▸ hzero, ?_⟩
              rw [he]
              simp only [decide_eq_true_eq]
              exact ⟨hsame.2, by omega⟩
            rw [hone, one_mul, strided_one]
        rw [he, hmap, hsame.2, shift_strided, shift_cons, shift_nil, ← hcopies]
        simp [typeMap, typeMapGo, Elem.entries]
      · simpa [he, Desc.move] using hgeneral
    · exact hgeneral

def Skips (add : Datatype) (count : ℕ) : Prop :=
  add.id = dtLb ∨ add.id = dtUb ∨ add.tooManyEntries count = true ∨ count = 0 ∨ add.size = 0

instance : Decidable (Skips add count) := inferInstanceAs (Decidable (_ ∨ _ ∨ _ ∨ _ ∨ _))

def extentOr (add : Datatype) (extent : ℤ) : ℤ := if extent = -1 then add.extent else extent

@[simp] theorem extentOr_extent : extentOr add add.extent = add.extent := ite_self _

theorem typeMap_ddtAdd (hbase : Sound base) (hadd : Sound add) :
    typeMap (base.ddtAdd add count disp extent).desc = typeMap base.desc ++
      if Skips add count then [] else typeMap (addedDesc add count disp (extentOr add extent)) := by
  unfold ddtAdd extentOr
  by_cases hskips : Skips add count
  · rw [if_pos hskips, List.append_nil]
    dsimp only
    split_ifs with hlb hub hmany hext hempty hempty
    · rfl
    · rfl
    · rfl
    · rfl
    · rfl
    · unfold Skips at hskips
      tauto
    · unfold Skips at hskips
      tauto
  · rw [if_neg hskips]
    simp only [Skips, not_or] at hskips
    obtain ⟨hlb, hub, hmany, hcount, hsize⟩ := hskips
    obtain ⟨b, hb, -⟩ := hbase.described
    rw [if_neg hlb, if_neg hub, if_neg hmany]
    dsimp only
    rw [if_neg (by tauto)]
    generalize (if extent = -1 then add.extent else extent) = extent
    obtain ⟨b', hb', -⟩ := @Sound.added add count disp extent hadd (Nat.pos_of_ne_zero hsize)
      (Nat.pos_of_ne_zero hcount)
    change typeMap (base.desc ++ addedDesc add count disp extent) = _
    rw [hb.desc_eq, hb'.desc_eq, ← Body.flatten_append, Body.typeMap_flatten, Body.typeMap_flatten,
      Body.typeMap_flatten, Body.entries_append]

end Datatype

end OpenMPI.Ddt
