import Mathlib.Data.List.Perm.Subperm
import OpenMPI.Proofs.Ddt.Convertor

/-!
# Unpacking fragments

A call of `ompi_generic_simple_unpack_function` writes its fragments where the stream goes on
(`unpackGo_spec`), if a basic element that a fragment ends in is short and the next fragment has all
the rest of it (`Fits`).
-/

namespace OpenMPI.Ddt

open Lib List Option

namespace Convertor

section Partial

variable {e : Elem} {mem : ℤ → UInt8} {userBuffer : ℤ} {start : ℕ} {data : List UInt8}

theorem unusedByte_notMem (h : data.length < 128) : unusedByte data ∉ data := by
  unfold unusedByte
  rcases hfind : ((range 128).map fun k => UInt8.ofNat (127 - k)).find? fun b => b ∉ data
    with _ | b
  · exfalso
    rw [find?_eq_none] at hfind
    have hsubset : ((range 128).map fun k => UInt8.ofNat (127 - k)) ⊆ data := by
      intro b hb
      simpa using hfind b hb
    have hnodup : ((range 128).map fun k => UInt8.ofNat (127 - k)).Nodup := by
      refine List.Nodup.map_on (fun i hi j hj hij => ?_) nodup_range
      have hval := congrArg UInt8.toNat hij
      rw [UInt8.toNat_ofNat', UInt8.toNat_ofNat'] at hval
      have := mem_range.mp hi
      have := mem_range.mp hj
      omega
    have := (hnodup.subperm hsubset).length_le
    simp at this
    omega
  · simpa using find?_some hfind

theorem unpackPartialDatatype_eq (hsize : e.type.size ≤ 16) (hfit : start + data.length ≤ e.type.size) :
    unpackPartialDatatype e mem userBuffer start data
      = some (scatter mem (run (userBuffer + e.disp + start) data.length) data) := by
  have hunused := @unusedByte_notMem data (by omega)
  unfold unpackPartialDatatype
  rw [if_neg (by omega)]
  dsimp only
  generalize userBuffer + e.disp = a
  generalize unusedByte data = unused at hunused ⊢
  set temporary := replicate start unused ++ data ++
    replicate (e.type.size - (start + data.length)) unused with htemporary
  have hlength : temporary.length = e.type.size := by
    simp [htemporary]
    omega
  rw [gather_scatter nodup_run (by simpa using hlength)]
  set restored := temporary.zipWith (fun b saved => if b = unused then saved else b)
    (gather mem (run a e.type.size)) with hrestored
  have hlength' : restored.length = e.type.size := by
    simp [hrestored, hlength]
  congr 1
  funext x
  rw [← hlength', scatter_run_apply, hlength', ← hlength, scatter_run_apply, scatter_run_apply]
  by_cases hx : a ≤ x
  · obtain ⟨i, rfl⟩ : ∃ i : ℕ, x = a + i := ⟨(x - a).toNat, by omega⟩
    rw [if_pos hx, if_pos hx, show (a + (i : ℤ) - a).toNat = i by omega]
    rcases lt_or_ge i e.type.size with hi | hi
    · -- the byte that was saved is back unless the fragment has one for it
      have hbyte : restored[i]? = (temporary[i]?).map fun b =>
          if b = unused then mem (a + i) else b := by
        rw [hrestored, getElem?_zipWith, getElem?_gather_run hi]
        cases temporary[i]? <;> rfl
      rw [hbyte]
      rcases lt_or_ge i start with hbefore | hafter
      · have htemp : temporary[i]? = some unused := by
          rw [htemporary, List.append_assoc, getElem?_append_left (by simpa using hbefore)]
          simp [hbefore]
        rw [htemp, if_neg (by omega)]
        simp
      · rw [if_pos (by omega), show (a + (i : ℤ) - (a + start)).toNat = i - start by omega]
        rcases lt_or_ge i (start + data.length) with hin | hbehind
        · have hget : i - start < data.length := by omega
          have htemp : temporary[i]? = some data[i - start] := by
            rw [htemporary, List.append_assoc, getElem?_append_right (by simpa using hafter),
              length_replicate, getElem?_append_left hget, getElem?_eq_getElem hget]
          have hne : data[i - start] ≠ unused := fun h => hunused (h ▸ getElem_mem hget)
          rw [htemp, getElem?_eq_getElem hget]
          simp [hne]
        · have htemp : temporary[i]? = some unused := by
            rw [htemporary, getElem?_append_right (by simpa using hbehind), length_append,
              length_replicate, getElem?_replicate, if_pos (by omega)]
          rw [htemp, getElem?_eq_none (by omega)]
          simp
    · rw [getElem?_eq_none (by omega), getElem?_eq_none (by omega), if_pos (by omega),
        getElem?_eq_none (by omega)]
      rfl
  · rw [if_neg hx, if_neg hx, if_neg (by omega)]

end Partial

/-- A fragment of `n` bytes from `p` on has all the rest of a block that it starts in, and the block
that it ends in has at most 16 bytes. -/
def Fits (l : List (ℤ × ℕ)) (p n : ℕ) : Prop :=
  ((locate l p).2 = 0 ∨ headWidth (locate l p).1 ≤ (locate l p).2 + n) ∧
    ((locate l (p + n)).2 = 0 ∨ headWidth (locate l (p + n)).1 ≤ 16)

instance (l : List (ℤ × ℕ)) (p n : ℕ) : Decidable (Fits l p n) :=
  inferInstanceAs (Decidable (_ ∧ _))

variable {desc : List Desc} {extent : ℤ} {u : Unpacking} {l : List (ℤ × ℕ)} {p : ℕ}
  {data : List UInt8}

structure At (desc : List Desc) (extent : ℤ) (u : Unpacking) (l : List (ℤ × ℕ)) (p : ℕ) : Prop where
  rep : ∃ m, Walk.Rep unpackSame desc extent u.walk (locate l p).1 m
  partialLength : u.partialLength = (locate l p).2
  inside : u.partialLength ≠ 0 → headWidth (locate l p).1 ≤ 16 ∧
    ∃ e, desc[u.walk.posDesc]? = some (.elem e)

theorem finishPartial_spec (h : At desc extent u l p) (hpos : ∀ b ∈ l, 0 < b.2) (hp : p < width l)
    (hfits : (locate l p).2 = 0 ∨ headWidth (locate l p).1 ≤ (locate l p).2 + data.length) :
    ∃ u' n, n ≤ data.length ∧ finishPartial desc u data = some (u', data.drop n) ∧
      At desc extent u' l (p + n) ∧ u'.partialLength = 0 ∧
      u'.mem = scatter u.mem ((bytes l).drop p) (data.take n) := by
  obtain ⟨⟨m, hrep⟩, hpart, hinside⟩ := h
  unfold finishPartial
  by_cases hzero : u.partialLength = 0
  · rw [if_pos hzero]
    exact ⟨u, 0, Nat.zero_le _, rfl, ⟨⟨m, hrep⟩, hpart, hinside⟩, hzero, by simp⟩
  · rw [if_neg hzero]
    obtain ⟨hshort, e, helem⟩ := hinside hzero
    obtain ⟨rest, m', hleft, hnext⟩ := hrep.elem helem
    have hlt := locate_lt hp
    have hbytes : (bytes l).drop p = (bytes (locate l p).1).drop u.partialLength := by
      rw [hpart, drop_bytes]
    have hrestpos : ∀ b ∈ rest, 0 < b.2 := by
      intro b hb
      refine hpos b ((@locate_suffix l p).subset ?_)
      rw [hleft]
      exact mem_cons_of_mem _ hb
    rw [hleft] at hfits hlt hshort hbytes
    rw [← hpart] at hfits hlt
    simp only [headWidth] at hfits hlt hshort
    have hmissing : e.type.size - u.partialLength ≤ data.length := by omega
    have hlocate : locate l (p + (e.type.size - u.partialLength)) = (rest, 0) := by
      rw [locate_add, hleft, ← hpart, locate, if_neg (by dsimp only; omega)]
      rw [show u.partialLength + (e.type.size - u.partialLength) - e.type.size = 0 by omega,
        locate_zero hrestpos]
    have hpart := @unpackPartialDatatype_eq e u.mem u.walk.pointer u.partialLength
      (data.take (e.type.size - u.partialLength)) hshort (by rw [length_take]; omega)
    simp only [helem]
    rw [if_neg (by omega), hpart, map_some]
    refine ⟨_, e.type.size - u.partialLength, hmissing, rfl, ⟨⟨m', ?_⟩, ?_, ?_⟩, rfl, ?_⟩
    · rw [hlocate]
      exact hnext _ rfl
    · rw [hlocate]
    · exact fun h => absurd rfl h
    · rw [hbytes, bytes_cons, drop_append_of_le_length (by simp; omega), run_drop hlt.le,
        scatter_run_append (by rw [length_take]; omega)]

theorem finishPartial_eq_none (h : At desc extent u l p)
    (hzero : (locate l p).2 ≠ 0)
    (hmissing : (locate l p).2 + data.length < headWidth (locate l p).1) :
    finishPartial desc u data = none := by
  obtain ⟨⟨m, hrep⟩, hpart, hinside⟩ := h
  rw [← hpart] at hzero hmissing
  obtain ⟨hshort, e, helem⟩ := hinside hzero
  obtain ⟨rest, m', hleft, -⟩ := hrep.elem helem
  rw [hleft, headWidth] at hmissing
  unfold finishPartial
  rw [if_neg hzero]
  simp only [helem]
  rw [if_pos (by dsimp only at hmissing; omega)]

theorem run_spec (h : At desc extent u l p) (hzero : u.partialLength = 0) (data : List UInt8) :
    ∃ fuel w status, (∀ fuel' ≥ fuel, Walk.run unpackSame desc extent fuel'
        { u.walk with space := data.length, moved := [] } = some (w, status)) ∧
      w.space = (locate l (p + data.length)).2 ∧
      bytes w.moved = (bytes (locate l p).1).take (data.length - w.space) ∧
      (bytes (locate l p).1).drop (data.length - w.space) = bytes (locate l (p + data.length)).1 ∧
      (status = .completed ↔ (locate l (p + data.length)).1 = []) ∧
      (status ≠ .completed →
        (∃ m', Walk.Rep unpackSame desc extent w (locate l (p + data.length)).1 m') ∧
        ∃ e, desc[w.posDesc]? = some (.elem e)) := by
  obtain ⟨⟨m, hrep⟩, hpart, -⟩ := h
  have hlocate : locate l (p + data.length) = locate (locate l p).1 data.length := by
    rw [locate_add, ← hpart, hzero, zero_add]
  obtain ⟨w, status, left', hrun, hleft, hmoved, hspace, hdone, hrest⟩ :=
    (hrep.update data.length []).run (Nat.lt_succ_self m)
  dsimp only at hleft hmoved hspace
  rw [hlocate]
  generalize (locate l p).1 = left at *
  have hleft' : (locate left data.length).1 = left' := by
    have := @fitting_append_locate left data.length
    exact append_cancel_left (this.trans hleft)
  have hwidth := @width_fitting_add left data.length
  have hspace' : w.space = (locate left data.length).2 := by omega
  have hsplit : bytes left = bytes (fitting data.length left) ++ bytes left' := by
    rw [← bytes_append, ← hleft]
  have hlength : data.length - w.space = (bytes (fitting data.length left)).length := by
    rw [length_bytes]
    omega
  refine ⟨m + 1, w, status, fun fuel' hfuel => Walk.run_mono hrun hfuel, hspace', ?_, ?_, ?_, ?_⟩
  · rw [hmoved, hlength, hsplit, take_left]
    rfl
  · rw [hlength, hsplit, drop_left, hleft']
  · rw [hleft']
    exact hdone
  · intro hne
    rw [hleft']
    refine ⟨hrest fun hnil => hne (hdone.mpr hnil), ?_⟩
    rcases status with _ | _ | _
    · exact absurd hrun (Walk.run_ne_more _ _)
    · obtain ⟨e, he, -⟩ := Walk.run_full hrun
      exact ⟨e, he⟩
    · exact absurd rfl hne

theorem startPartial_spec {w : Walk} (hspace : w.space = (locate l p).2) {mem : ℤ → UInt8}
    (hrep : (∃ m, Walk.Rep unpackSame desc extent w (locate l p).1 m) ∧
      ∃ e, desc[w.posDesc]? = some (.elem e))
    (hp : p < width l) (hle : w.space ≤ data.length) :
    ((locate l p).2 = 0 ∨ headWidth (locate l p).1 ≤ 16 →
        ∃ u', startPartial desc ⟨w, 0, mem⟩ data = some u' ∧ At desc extent u' l p ∧
          u'.mem = scatter mem (bytes (locate l p).1) (data.drop (data.length - w.space))) ∧
      (¬((locate l p).2 = 0 ∨ headWidth (locate l p).1 ≤ 16) →
        startPartial desc ⟨w, 0, mem⟩ data = none) := by
  obtain ⟨⟨m, hrep⟩, e, helem⟩ := hrep
  unfold startPartial
  dsimp only
  by_cases hzero : w.space = 0
  · rw [if_pos hzero]
    refine ⟨fun _ => ⟨_, rfl, ⟨⟨m, hrep⟩, hzero ▸ hspace, fun h => absurd rfl h⟩, by simp [hzero]⟩,
      fun h => absurd (.inl (hspace ▸ hzero)) h⟩
  · obtain ⟨rest, m', hleft, -⟩ := hrep.elem helem
    have hlt := locate_lt hp
    have hhead : headWidth (locate l p).1 = e.type.size := by rw [hleft, headWidth]
    have hdrop : (data.drop (data.length - w.space)).length = w.space := by
      rw [length_drop]
      omega
    rw [← hspace, hhead] at hlt ⊢
    rw [if_neg hzero, helem]
    dsimp only
    constructor
    · intro hshort
      rw [unpackPartialDatatype_eq (by omega) (by omega), map_some]
      refine ⟨_, rfl, ⟨⟨m, hrep.update 0 w.moved⟩, hspace, fun _ => ?_⟩, ?_⟩
      · rw [hhead]
        exact ⟨by omega, e, helem⟩
      · rw [hleft, bytes_cons, scatter_run_append (by dsimp only; omega)]
        simp
    · intro hlong
      rw [unpackPartialDatatype, if_pos (by omega), map_none]

def AllFit (l : List (ℤ × ℕ)) : ℕ → List ℕ → Prop
  | _, [] => True
  | p, n :: lens => Fits l p n ∧ AllFit l (p + n) lens

instance decidableAllFit (l : List (ℤ × ℕ)) : ∀ p lens, Decidable (AllFit l p lens)
  | _, [] => inferInstanceAs (Decidable True)
  | p, n :: lens =>
    have := decidableAllFit l (p + n) lens
    inferInstanceAs (Decidable (_ ∧ _))

theorem locate_eq_nil_iff (hp : p ≤ width l) :
    (locate l p).1 = [] ↔ p = width l := by
  constructor
  · intro h
    by_contra hne
    have := locate_lt (show p < width l by omega)
    rw [h] at this
    cases this
  · rintro rfl
    rw [locate_width]

theorem unpackGo_mono {fuel fuel' : ℕ} (hle : fuel ≤ fuel') {iov : List (List UInt8)}
    {r : Unpacking × ℕ} (h : unpackGo fuel desc extent iov u = some r) :
    unpackGo fuel' desc extent iov u = some r := by
  induction iov generalizing u r with
  | nil => exact h
  | cons data iov ih =>
    rw [unpackGo] at h ⊢
    obtain ⟨⟨u1, rest⟩, hfinish, h⟩ := bind_eq_some_iff.mp h
    rw [hfinish, bind_some]
    rcases hrun : Walk.run unpackSame desc extent fuel
      { u1.walk with space := rest.length, moved := [] } with _ | ⟨w, status⟩ <;>
      simp only [hrun] at h
    · cases h
    · simp only [Walk.run_mono hrun hle]
      split_ifs at h ⊢
      · exact h
      · obtain ⟨u2, hstart, h⟩ := bind_eq_some_iff.mp h
        obtain ⟨r', hgo, rfl⟩ := map_eq_some_iff.mp h
        rw [hstart, bind_some, ih hgo, map_some]

theorem none_of_enough {fuel : ℕ} {iov : List (List UInt8)}
    (h : ∀ fuel' ≥ fuel, unpackGo fuel' desc extent iov u = none) (fuel' : ℕ) :
    unpackGo fuel' desc extent iov u = none := by
  rcases hgo : unpackGo fuel' desc extent iov u with _ | r
  · rfl
  · have := unpackGo_mono (le_max_left fuel' fuel) hgo
    rw [h _ (le_max_right fuel' fuel)] at this
    cases this

/-- What becomes of a call by its first fragment, if that has the rest of the block it starts in. -/
inductive First (desc : List Desc) (extent : ℤ) (u : Unpacking) (l : List (ℤ × ℕ)) (p : ℕ)
    (data : List UInt8) : Prop
  | completed (fuel : ℕ) (u' : Unpacking) (hend : p + data.length = width l)
      (hmem : u'.mem = scatter u.mem ((bytes l).drop p) data)
      (hrun : ∀ fuel' ≥ fuel, ∀ iov,
        unpackGo fuel' desc extent (data :: iov) u = some (u', data.length))
  | overrun (fuel : ℕ) (hend : p + data.length < width l)
      (hlong : ¬((locate l (p + data.length)).2 = 0 ∨ headWidth (locate l (p + data.length)).1 ≤ 16))
      (hrun : ∀ fuel' ≥ fuel, ∀ iov, unpackGo fuel' desc extent (data :: iov) u = none)
  | more (fuel : ℕ) (u' : Unpacking) (hend : p + data.length < width l)
      (hshort : (locate l (p + data.length)).2 = 0 ∨ headWidth (locate l (p + data.length)).1 ≤ 16)
      (hmem : u'.mem = scatter u.mem ((bytes l).drop p) data)
      (hat : At desc extent u' l (p + data.length))
      (hrun : ∀ fuel' ≥ fuel, ∀ iov, unpackGo fuel' desc extent (data :: iov) u
        = (unpackGo fuel' desc extent iov u').map fun r => (r.1, data.length + r.2))

theorem first_spec (hpos : ∀ b ∈ l, 0 < b.2) (h : At desc extent u l p) (hp : p < width l)
    (htotal : p + data.length ≤ width l)
    (hfits : (locate l p).2 = 0 ∨ headWidth (locate l p).1 ≤ (locate l p).2 + data.length) :
    First desc extent u l p data := by
  obtain ⟨u1, n, hn, hfinish, hat, hzero, hmem⟩ := finishPartial_spec h hpos hp hfits
  obtain ⟨fuel, w, status, hrun, hspace, hmoved, hleft, hdone, hrest⟩ :=
    run_spec hat hzero (data.drop n)
  have hend : p + n + (data.drop n).length = p + data.length := by
    rw [length_drop]
    omega
  rw [hend] at hspace hleft hdone hrest
  have hle : w.space ≤ (data.drop n).length := by
    have hlocate := @locate_add l (p + n) (data.drop n).length
    rw [hend, ← hat.partialLength, hzero, zero_add] at hlocate
    rw [hspace, hlocate]
    exact locate_le
  have hhere : bytes (locate l (p + n)).1 = ((bytes l).drop p).drop n := by
    rw [drop_drop, drop_bytes, ← hat.partialLength, hzero, drop_zero]
  generalize hk : (data.drop n).length - w.space = k at hmoved hleft
  -- what the walk writes, behind the rest of the element before it
  have hwritten : scatter u1.mem (bytes w.moved) (data.drop n)
      = scatter u1.mem (((bytes l).drop p).drop n) ((data.drop n).take k) := by
    rw [hmoved, hhere, scatter_take_comm]
  have hwalk (fuel' : ℕ) (iov : List (List UInt8))
      (hfuel : Walk.run unpackSame desc extent fuel'
        { u1.walk with space := (data.drop n).length, moved := [] } = some (w, status)) :
      unpackGo fuel' desc extent (data :: iov) u =
        if status = .completed then
          some (⟨w, 0, scatter u1.mem (bytes w.moved) (data.drop n)⟩, data.length - w.space)
        else
          (startPartial desc ⟨w, 0, scatter u1.mem (bytes w.moved) (data.drop n)⟩
            (data.drop n)).bind fun u =>
              (unpackGo fuel' desc extent iov u).map fun r => (r.1, data.length + r.2) := by
    rw [unpackGo, hfinish, bind_some]
    simp only [hfuel, hzero]
  by_cases hcompleted : status = .completed
  · have hwidth : p + data.length = width l :=
      (locate_eq_nil_iff htotal).mp (hdone.mp hcompleted)
    have hspace0 : w.space = 0 := by rw [hspace, hwidth, locate_width]
    refine .completed fuel ⟨w, 0, scatter u1.mem (bytes w.moved) (data.drop n)⟩ hwidth ?_
      fun fuel' hfuel iov => ?_
    · have hall : (data.drop n).take k = data.drop n := take_of_length_le (by omega)
      dsimp only
      rw [hwritten, hall, hmem, scatter_take_drop]
    · rw [hwalk fuel' iov (hrun fuel' hfuel), if_pos hcompleted, hspace0]
      rfl
  · have hlt : p + data.length < width l := by
      refine lt_of_le_of_ne htotal fun heq => hcompleted (hdone.mpr ?_)
      rw [heq, locate_width]
    obtain ⟨hshort, hlong⟩ := @startPartial_spec desc extent l _ (data.drop n) w hspace
      (scatter u1.mem (bytes w.moved) (data.drop n)) (hrest hcompleted) hlt hle
    by_cases hfit : (locate l (p + data.length)).2 = 0 ∨ headWidth (locate l (p + data.length)).1 ≤ 16
    · obtain ⟨u2, hstart, hat2, hmem2⟩ := hshort hfit
      refine .more fuel u2 hlt hfit ?_ hat2 fun fuel' hfuel iov => ?_
      · rw [hmem2, hwritten, hmem, ← hleft, hhere, hk, scatter_take_drop, scatter_take_drop]
      · rw [hwalk fuel' iov (hrun fuel' hfuel), if_neg hcompleted, hstart]
        rfl
    · refine .overrun fuel hlt hfit fun fuel' hfuel iov => ?_
      rw [hwalk fuel' iov (hrun fuel' hfuel), if_neg hcompleted, hlong hfit]
      rfl

theorem allFit_width {lens : List ℕ} (h : lens.sum = 0) : AllFit l (width l) lens := by
  induction lens with
  | nil => trivial
  | cons n lens ih =>
    rw [sum_cons, Nat.add_eq_zero_iff] at h
    obtain ⟨rfl, h⟩ := h
    exact ⟨⟨by simp [locate_width], by simp [locate_width]⟩, ih h⟩

theorem unpackGo_spec (hpos : ∀ b ∈ l, 0 < b.2) (iov : List (List UInt8)) (h : At desc extent u l p)
    (hp : p < width l) (htotal : p + iov.flatten.length ≤ width l) :
    (AllFit l p (iov.map List.length) →
        ∃ fuel u', (∀ fuel' ≥ fuel, unpackGo fuel' desc extent iov u
            = some (u', iov.flatten.length)) ∧
          u'.mem = scatter u.mem ((bytes l).drop p) iov.flatten ∧
          (p + iov.flatten.length < width l → At desc extent u' l (p + iov.flatten.length))) ∧
      (¬AllFit l p (iov.map List.length) → ∀ fuel, unpackGo fuel desc extent iov u = none) := by
  induction iov generalizing u p with
  | nil => exact ⟨fun _ => ⟨0, u, fun _ _ => rfl, by simp, fun _ => h⟩, fun hnot => absurd trivial hnot⟩
  | cons data iov ih =>
    rw [flatten_cons, length_append, ← add_assoc] at htotal ⊢
    rw [map_cons, AllFit, Fits]
    by_cases hrest : (locate l p).2 = 0 ∨ headWidth (locate l p).1 ≤ (locate l p).2 + data.length
    · rcases first_spec hpos h hp (by omega) hrest with
        ⟨fuel, u', hend, hmem, hrun⟩ | ⟨fuel, hend, hlong, hrun⟩ |
          ⟨fuel, u', hend, hshort, hmem, hat, hrun⟩
      · have hempty : iov.flatten = [] := length_eq_zero_iff.mp (by omega)
        rw [hempty, List.append_nil, length_nil, add_zero]
        refine ⟨fun _ => ⟨fuel, u', fun fuel' hfuel => hrun fuel' hfuel iov, hmem, fun hlt => ?_⟩,
          fun hnot => absurd ⟨⟨hrest, ?_⟩, ?_⟩ hnot⟩
        · omega
        · rw [hend, locate_width]
          exact .inl rfl
        · rw [hend]
          refine allFit_width ?_
          rw [← List.length_flatten, hempty, length_nil]
      · refine ⟨fun hall => absurd hall.1.2 hlong, fun _ => none_of_enough fun k hk => hrun k hk iov⟩
      · obtain ⟨hall, hnone⟩ := ih hat hend htotal
        constructor
        · rintro ⟨-, hfit⟩
          obtain ⟨fuel', u'', hrun', hmem', hat'⟩ := hall hfit
          refine ⟨max fuel fuel', u'', fun k hk => ?_, ?_, hat'⟩
          · rw [hrun k (le_of_max_le_left hk), hrun' k (le_of_max_le_right hk)]
            rfl
          · have hdrop : (bytes l).drop (p + data.length)
                = ((bytes l).drop p).drop data.length := by rw [drop_drop]
            have hsplit := @scatter_take_drop _ u.mem ((bytes l).drop p) (data ++ iov.flatten)
              data.length
            rw [take_left, drop_left] at hsplit
            rw [hmem', hmem, hdrop, hsplit]
        · intro hnot
          have hfit : ¬AllFit l (p + data.length) (iov.map List.length) :=
            fun hfit => hnot ⟨⟨hrest, hshort⟩, hfit⟩
          refine @none_of_enough desc extent u fuel _ fun k hk => ?_
          rw [hrun k hk, hnone hfit k]
          rfl
    · refine ⟨fun hall => absurd hall.1.1 hrest, fun _ fuel => ?_⟩
      rw [not_or, not_le] at hrest
      rw [unpackGo, finishPartial_eq_none h hrest.1 hrest.2]
      rfl

theorem allFit_append {lens lens' : List ℕ} :
    AllFit l p (lens ++ lens') ↔ AllFit l p lens ∧ AllFit l (p + lens.sum) lens' := by
  induction lens generalizing p with
  | nil => simp [AllFit]
  | cons n lens ih =>
    rw [cons_append, AllFit, AllFit, ih, sum_cons, ← add_assoc, and_assoc]

theorem allFit_zero {lens : List ℕ} (h : lens.sum = 0) : AllFit l 0 lens := by
  have hlocate : (locate l 0).2 = 0 := Nat.le_zero.mp locate_le
  induction lens with
  | nil => trivial
  | cons n lens ih =>
    rw [sum_cons, Nat.add_eq_zero_iff] at h
    obtain ⟨rfl, h⟩ := h
    exact ⟨⟨.inl hlocate, .inl hlocate⟩, ih h⟩

theorem locate_congr {l l' : List (ℤ × ℕ)} (h : l.map Prod.snd = l'.map Prod.snd) (n : ℕ) :
    (locate l n).2 = (locate l' n).2 ∧ headWidth (locate l n).1 = headWidth (locate l' n).1 := by
  induction l generalizing l' n with
  | nil =>
    obtain rfl : l' = [] := by simpa using h.symm
    exact ⟨rfl, rfl⟩
  | cons b l ih =>
    rcases l' with _ | ⟨b', l'⟩
    · simp at h
    · rw [map_cons, map_cons, List.cons.injEq] at h
      rw [locate, locate, h.1]
      split_ifs
      · exact ⟨rfl, h.1⟩
      · exact ih h.2 _

theorem allFit_congr {l l' : List (ℤ × ℕ)} (h : l.map Prod.snd = l'.map Prod.snd) {p : ℕ}
    {lens : List ℕ} : AllFit l p lens ↔ AllFit l' p lens := by
  induction lens generalizing p with
  | nil => exact Iff.rfl
  | cons n lens ih =>
    rw [AllFit, AllFit, ih, Fits, Fits, (locate_congr h p).1, (locate_congr h p).2,
      (locate_congr h (p + n)).1, (locate_congr h (p + n)).2]

/-- A function that writes from the position of a convertor on, if the fragments of its call `fit`,
and that fails if they do not. -/
structure Unpacks
    (advance : ℕ → Convertor → (ℤ → UInt8) → List (List UInt8) → Option (Convertor × (ℤ → UInt8)))
    (ready : Convertor → ℕ → Prop) (fit : ℕ → List ℕ → Prop) (as : List ℤ) : Prop where
  writes : ∀ c p mem iov, ready c p → p + iov.flatten.length ≤ as.length →
    fit p (iov.map List.length) →
    ∃ fuel c', (∀ fuel' ≥ fuel, advance fuel' c mem iov
        = some (c', scatter mem (as.drop p) iov.flatten)) ∧
      (p + iov.flatten.length = as.length ∧ c'.completed = true ∨
        ready c' (p + iov.flatten.length))
  fails : ∀ c p mem iov, ready c p → p + iov.flatten.length ≤ as.length →
    ¬fit p (iov.map List.length) → ∀ fuel, advance fuel c mem iov = none
  mono : ∀ {fuel fuel' c mem iov r}, fuel ≤ fuel' → advance fuel c mem iov = some r →
    advance fuel' c mem iov = some r
  not_completed : ∀ c p, ready c p → c.completed = false
  fit_nil : ∀ p, fit p []
  fit_append : ∀ p lens lens', fit p (lens ++ lens') ↔ fit p lens ∧ fit (p + lens.sum) lens'
  fit_end : ∀ lens : List ℕ, lens.sum = 0 → fit as.length lens

section Calls

variable
  {advance : ℕ → Convertor → (ℤ → UInt8) → List (List UInt8) → Option (Convertor × (ℤ → UInt8))}
  {ready : Convertor → ℕ → Prop} {fit : ℕ → List ℕ → Prop} {as : List ℤ} {c : Convertor}
  {mem : ℤ → UInt8} {calls : List (List (List UInt8))}

theorem unpackCalls_completed (h : c.completed = true) (fuel : ℕ) :
    unpackCalls (advance fuel) c mem calls = some (c, mem) := by
  induction calls with
  | nil => rfl
  | cons iov calls ih => rw [unpackCalls, if_pos h, bind_some, ih]

theorem Unpacks.run (hunpacks : Unpacks advance ready fit as)
    (h : p = as.length ∧ c.completed = true ∨ ready c p)
    (htotal : p + calls.flatten.flatten.length ≤ as.length) :
    (fit p (calls.flatten.map List.length) → ∃ fuel c', ∀ fuel' ≥ fuel,
        unpackCalls (advance fuel') c mem calls
          = some (c', scatter mem (as.drop p) calls.flatten.flatten)) ∧
      (¬fit p (calls.flatten.map List.length) → ∀ fuel,
        unpackCalls (advance fuel) c mem calls = none) := by
  induction calls generalizing c mem p with
  | nil =>
    exact ⟨fun _ => ⟨0, c, fun _ _ => by simp [unpackCalls]⟩,
      fun hnot => absurd (hunpacks.fit_nil p) hnot⟩
  | cons iov calls ih =>
    rcases h with ⟨rfl, hcompleted⟩ | hready
    · have hempty : (iov :: calls).flatten.flatten = [] := length_eq_zero_iff.mp (by omega)
      refine ⟨fun _ => ⟨0, c, fun fuel _ => ?_⟩, fun hnot => absurd (hunpacks.fit_end _ ?_) hnot⟩
      · rw [unpackCalls_completed hcompleted, hempty, scatter_nil_right]
      · rw [← List.length_flatten, hempty, length_nil]
    · rw [flatten_cons, List.flatten_append, length_append, ← add_assoc] at htotal
      rw [flatten_cons, map_append, hunpacks.fit_append, ← List.length_flatten,
        List.flatten_append]
      have hstep (fuel : ℕ) : unpackCalls (advance fuel) c mem (iov :: calls)
          = (advance fuel c mem iov).bind fun r => unpackCalls (advance fuel) r.1 r.2 calls := by
        rw [unpackCalls, if_neg (by rw [hunpacks.not_completed c p hready]; exact Bool.false_ne_true)]
      by_cases hfit : fit p (iov.map List.length)
      · obtain ⟨fuel, c', hrun, hnext⟩ := hunpacks.writes c p mem iov hready (by omega) hfit
        obtain ⟨hwrites, hfails⟩ := @ih (p + iov.flatten.length) c'
          (scatter mem (as.drop p) iov.flatten) hnext htotal
        constructor
        · rintro ⟨-, hrest⟩
          obtain ⟨fuel', c'', hrun'⟩ := hwrites hrest
          refine ⟨max fuel fuel', c'', fun k hk => ?_⟩
          have hsplit := @scatter_take_drop _ mem (as.drop p)
            (iov.flatten ++ calls.flatten.flatten) iov.flatten.length
          rw [take_left, drop_left, drop_drop] at hsplit
          rw [hstep, hrun k (le_of_max_le_left hk), bind_some,
            hrun' k (le_of_max_le_right hk), hsplit]
        · intro hnot k
          have hfit' : ¬fit (p + iov.flatten.length) (calls.flatten.map List.length) :=
            fun hfit' => hnot ⟨hfit, hfit'⟩
          rw [hstep]
          rcases hadvance : advance k c mem iov with _ | r
          · rfl
          · have hmono := hunpacks.mono (le_max_left k fuel) hadvance
            rw [hrun _ (le_max_right k fuel)] at hmono
            cases hmono
            exact hfails hfit' k
      · refine ⟨fun hall => absurd hall.1 hfit, fun _ fuel => ?_⟩
        rw [hstep, hunpacks.fails c p mem iov hready (by omega) hfit]
        rfl

/-- The convertor is at byte `p` of the stream of these blocks, which is not its end. -/
structure Ready (l : List (ℤ × ℕ)) (c : Convertor) (p : ℕ) : Prop where
  at_ : ∃ w, c.resume = some w ∧ ∀ mem, At c.type.optDesc c.type.extent ⟨w, c.partialLength, mem⟩ l p
  bConverted : c.bConverted = p
  localSize : c.localSize = width l
  completed : c.completed = false
  inside : p < width l

theorem ready_advance (h : Ready l c p) {u' : Unpacking} {n : ℕ} (hle : p + n ≤ width l)
    (hat : p + n < width l → At c.type.optDesc c.type.extent u' l (p + n)) :
    p + n = width l ∧ ({ c.advance u'.walk n with partialLength := u'.partialLength }).completed = true ∨
      Ready l { c.advance u'.walk n with partialLength := u'.partialLength } (p + n) := by
  rcases hle.eq_or_lt with heq | hlt
  · refine .inl ⟨heq, completed_advance ?_⟩
    rw [h.bConverted, h.localSize, heq]
  · obtain ⟨⟨m, hrep⟩, hpart, hinside⟩ := hat hlt
    have hmore : c.bConverted + n ≠ c.localSize := by
      rw [h.bConverted, h.localSize]
      exact hlt.ne
    refine .inr ?_
    unfold advance
    dsimp only
    rw [if_neg hmore]
    refine ⟨⟨{ u'.walk with space := 0, moved := [] }, ?_, fun mem => ?_⟩, ?_, h.localSize,
      h.completed, hlt⟩
    · simp [suspend, resume, Walk.disp]
    · exact ⟨⟨m, hrep.update 0 []⟩, hpart, hinside⟩
    · simp [suspend, h.bConverted]

theorem unpacks_genericSimple (hpos : ∀ b ∈ l, 0 < b.2) :
    Unpacks genericSimpleUnpack (Ready l) (AllFit l) (bytes l) where
  writes c p mem iov h htotal hfit := by
    obtain ⟨w, hresume, hat⟩ := h.at_
    rw [length_bytes] at htotal ⊢
    obtain ⟨fuel, u', hrun, hmem, hat'⟩ := (unpackGo_spec hpos iov (hat mem) h.inside htotal).1 hfit
    refine ⟨fuel, _, fun fuel' hfuel => ?_, ready_advance h htotal hat'⟩
    rw [genericSimpleUnpack, hresume, bind_some, hrun fuel' hfuel, map_some, ← hmem]
  fails c p mem iov h htotal hfit fuel := by
    obtain ⟨w, hresume, hat⟩ := h.at_
    rw [length_bytes] at htotal
    rw [genericSimpleUnpack, hresume, bind_some,
      (unpackGo_spec hpos iov (hat mem) h.inside htotal).2 hfit fuel, map_none]
  mono {fuel fuel' c mem iov r} hle h := by
    unfold genericSimpleUnpack at h ⊢
    obtain ⟨w, hresume, h⟩ := bind_eq_some_iff.mp h
    obtain ⟨r', hgo, rfl⟩ := map_eq_some_iff.mp h
    rw [hresume, bind_some, unpackGo_mono hle hgo, map_some]
  not_completed c p h := h.completed
  fit_nil p := trivial
  fit_append p lens lens' := allFit_append
  fit_end lens h := by
    rw [length_bytes]
    exact allFit_width h

def unpackStream (d : Datatype) (b : Body) (count : ℕ) : List (ℤ × ℕ) :=
  strided count d.extent (b.seen unpackSame).blocks

theorem pos_unpackStream {d : Datatype} {b : Body} (hb : Walkable d b) {count : ℕ} :
    ∀ x ∈ unpackStream d b count, 0 < x.2 := by
  intro x hx
  obtain ⟨y, hy, hlen⟩ := mem_strided hx
  rw [← hlen]
  exact pos_of_ok (hb.ok unpackSame) y hy

theorem width_unpackStream {d : Datatype} {b : Body} (hb : Walkable d b) {count : ℕ} :
    width (unpackStream d b count) = count * d.size := by
  rw [unpackStream, width_strided, Body.width_seen, hb.width_eq]

theorem allFit_unpackStream {d : Datatype} {b : Body} (hb : Walkable d b) {count p : ℕ}
    {lens : List ℕ} : AllFit (unpackStream d b count) p lens ↔
      AllFit (stream d.optDesc d.extent count) p lens := by
  obtain ⟨e, hdesc, -⟩ := hb.optDesc_eq
  refine allFit_congr ?_
  have hwidths (l l' : List (ℤ × ℕ)) (h : l.map Prod.snd = l'.map Prod.snd) (n : ℕ) (s s' : ℤ) :
      (strided n s l).map Prod.snd = (strided n s' l').map Prod.snd := by
    induction n with
    | zero => rfl
    | succ n ih => simpa [strided_succ, shift, Function.comp_def, h] using ih
  have hseen (b : Body) : (b.seen unpackSame).blocks.map Prod.snd = b.blocks.map Prod.snd := by
    induction b with
    | nil => rfl
    | elem e rest ih =>
      rw [Body.seen, Body.blocks_elem, Body.blocks_elem, map_append, map_append, ih]
      exact congrArg (· ++ _) (hwidths _ _ rfl _ _ _)
    | loop contiguous loops extent body rest ih1 ih2 =>
      rw [Body.seen, Body.blocks_loop, Body.blocks_loop, map_append, map_append, ih2,
        hwidths _ _ ih1 loops extent extent]
  rw [unpackStream, stream, hdesc, Body.visits_flatten_endLoop]
  exact hwidths _ _ (hseen b) _ _ _

theorem ready_prepare {d : Datatype} {b : Body} (hb : Walkable d b) {count : ℕ} (hcount : 0 < count)
    (hsize : 0 < d.size) : Ready (unpackStream d b count) (prepare d count) 0 := by
  obtain ⟨w, m, hresume, hrep⟩ := @stands_prepare unpackSame d b hb count hcount
  have hlocate : locate (unpackStream d b count) 0 = (unpackStream d b count, 0) := locate_zero (pos_unpackStream hb)
  refine ⟨⟨w, hresume, fun mem => ⟨⟨m, ?_⟩, ?_, fun h => absurd rfl h⟩⟩, rfl, ?_, ?_, ?_⟩
  · rw [hlocate]
    exact hrep
  · rw [hlocate]
    rfl
  · rw [width_unpackStream hb]
    rfl
  · simp [prepare]
    omega
  · rw [width_unpackStream hb]
    exact mul_pos hcount hsize

end Calls

theorem allFit_flatten {l rest : List (ℤ × ℕ)} (taken : List (List (ℤ × ℕ))) :
    AllFit (l ++ (taken.flatten ++ rest)) (width l) (taken.map width) := by
  induction taken generalizing l with
  | nil => trivial
  | cons t taken ih =>
    have hstart (l l' : List (ℤ × ℕ)) : (locate (l ++ l') (width l)).2 = 0 := by
      rw [locate_width_append]
      exact Nat.le_zero.mp locate_le
    rw [map_cons, AllFit, Fits, ← width_append]
    refine ⟨⟨.inl (hstart l _), .inl ?_⟩, ?_⟩
    all_goals rw [flatten_cons, List.append_assoc, ← List.append_assoc l]
    · exact hstart _ _
    · exact ih

def sameDesc : Desc → Bool
  | .elem e => unpackSame e == packSame e
  | _ => true

theorem seen_unpackSame {b : Body} (h : ∀ x ∈ b.flatten, sameDesc x = true) : b.seen unpackSame = b := by
  induction b with
  | nil => rfl
  | elem e rest ih =>
    simp only [Body.flatten, mem_cons, forall_eq_or_imp, sameDesc, beq_iff_eq] at h
    have he : e.seen unpackSame = e.seen packSame := by
      unfold Elem.seen
      rw [h.1]
    have hseen := seen_packSame (.elem e .nil)
    simp only [Body.seen, Body.elem.injEq, and_true] at hseen
    rw [Body.seen, ih h.2, he, hseen]
  | loop contiguous loops extent body rest ih1 ih2 =>
    rw [Body.seen, ih1 fun x hx => h x ?_, ih2 fun x hx => h x ?_]
    all_goals simp [Body.flatten, hx]

/-- Every fragment that is packed is unpacked by a call of its own.  What the receiver then has is the
sender's bytes as far as the type map has gone, and all else as it was. -/
def Transfers (d : Datatype) (count : ℕ) (lens : List ℕ) : Prop :=
  ∀ mem mem', ∃ fuel c c' outs, genericPackCalls fuel (prepare d count) lens = some (c, outs) ∧
    unpackCalls (genericSimpleUnpack fuel) (prepare d count) mem'
        (outs.map fun moved => [gather mem (bytes moved)])
      = some (c', fun a =>
          if a ∈ (typeMapBytes d count).take (outs.map width).sum then mem a else mem' a) ∧
    (c.completed = true → (outs.map width).sum = count * d.size)

theorem transfers {d : Datatype} (hd : d.Built) (hcommitted : d.committed = true)
    (hfit : d.size < 2 ^ 31) (hclean : Clean d.desc) (hextent : ∀ x ∈ d.optDesc, sameDesc x = true)
    (count : ℕ) (lens : List ℕ) : Transfers d count lens := by
  intro mem mem'
  rcases Nat.eq_zero_or_pos (count * d.size) with hzero | hpos
  · refine ⟨0, prepare d count, prepare d count, [], ?_, by simp [unpackCalls], fun _ => hzero.symm⟩
    exact genericPackCalls_completed (completed_prepare hzero)
  · obtain ⟨b, hb⟩ := hd.sound.walkable hcommitted (Nat.pos_of_mul_pos_left hpos) hfit
    obtain ⟨e, hdesc, -⟩ := hb.optDesc_eq
    have hseen : b.seen unpackSame = b := seen_unpackSame fun x hx => hextent x (by simp [hdesc, hx])
    have hmap : typeMapBytes d count = bytes (unpackStream d b count) := by
      rw [typeMapBytes_eq hd, ← (hd.sound.sameStream_iff hcommitted hfit).mpr hclean, stream, hdesc,
        Body.visits_flatten_endLoop, unpackStream, hseen]
    have hstream : unpackStream d b count = strided count d.extent b.blocks := by rw [unpackStream, hseen]
    obtain ⟨fuel, c, outs, taken, hpack, -, htaken, hsplit, hpacking⟩ := (packing_prepare hb hpos).run lens
    rw [← hstream] at hsplit hpacking
    have hwidth : outs.map width = taken.map width := by
      have := congrArg (map List.length) htaken
      simpa [Function.comp_def] using this
    have hpacked : outs.flatMap bytes = bytes taken.flatten := by
      have hbytes (ts : List (List (ℤ × ℕ))) : (ts.map bytes).flatten = bytes ts.flatten := by
        induction ts with
        | nil => rfl
        | cons t ts ih => rw [map_cons, flatten_cons, flatten_cons, ih, bytes_append]
      rw [flatMap_def, htaken, hbytes]
    have hlength : (outs.map width).sum = (outs.flatMap bytes).length := by simp [length_flatMap]
    have hsent : (typeMapBytes d count).take (outs.map width).sum = outs.flatMap bytes := by
      rw [hmap, ← hsplit, bytes_append, hlength, hpacked, take_left]
    have hflatten : (outs.map fun moved => [gather mem (bytes moved)]).flatten
        = outs.map fun moved => gather mem (bytes moved) := by
      rw [← flatMap_def, ← map_eq_flatMap]
    have hstreamed : (outs.map fun moved => gather mem (bytes moved)).flatten
        = gather mem (outs.flatMap bytes) := by
      rw [gather, map_flatMap, flatMap_def]
      rfl
    have hready := ready_prepare hb (Nat.pos_of_mul_pos_right hpos) (Nat.pos_of_mul_pos_left hpos)
    obtain ⟨hwrites, -⟩ := @Unpacks.run _ _ _ _ _ _ mem' (outs.map fun moved => [gather mem (bytes moved)])
      (unpacks_genericSimple (@pos_unpackStream d b hb count)) (.inr hready) (by
        rw [hflatten, hstreamed, length_gather, hpacked, ← hsplit, bytes_append, length_append]
        omega)
    rw [hflatten, hstreamed] at hwrites
    have hboundaries := @allFit_flatten [] (drain lens (unpackStream d b count)).2 taken
    rw [hsplit, ← hwidth] at hboundaries
    obtain ⟨fuel', c', hunpack⟩ := hwrites (by simpa [Function.comp_def] using hboundaries)
    refine ⟨max fuel fuel', c, c', outs, hpack _ (le_max_left _ _), ?_, fun hcompleted => ?_⟩
    · rw [hunpack _ (le_max_right _ _), drop_zero, ← hmap, ← scatter_take, length_gather, ← hlength, hsent,
        scatter_gather]
    · rcases hpacking.stands with ⟨hnil, -⟩ | ⟨-, hopen, -⟩
      · rw [hnil, List.append_nil] at hsplit
        rw [hlength, hpacked, hsplit, length_bytes, width_unpackStream hb]
      · cases hopen.symm.trans hcompleted

theorem transfers_vector : Transfers vector 2 [7, 3, 30, 12] :=
  transfers built_vector (by decide) (by decide) (by decide) (by decide) 2 _

end Convertor

end OpenMPI.Ddt
