import OpenMPI.Ddt.Convertor
import OpenMPI.Proofs.Ddt.Datatype
import OpenMPI.Proofs.Ddt.Walk

/-!
# Convertors walk over the optimised description

The optimised description of a committed datatype is nested (`Walkable`), so a prepared convertor
stands for the blocks of all the elements (`stands_prepare`), and every call of
`ompi_generic_simple_pack_function` takes the blocks that fit its buffers (`genericSimplePack_spec`).
-/

namespace OpenMPI.Ddt

open Lib List

variable {same : Elem → Bool}

namespace Body

@[simp] theorem seen_append (a b : Body) : (a ++ b).seen same = a.seen same ++ b.seen same := by
  induction a with
  | nil => rfl
  | elem e rest ih => simp [seen, ih]
  | loop contiguous loops extent body rest _ ih => simp [seen, ih]

@[simp] theorem seen_ofBytes (disp : ℤ) (n : ℕ) :
    (Elem.ofBytes disp n).seen same = Elem.ofBytes disp n := by
  simp [Elem.seen, Elem.ofBytes, dtByte]

theorem ok_gap {loops n : ℕ} (hloops : 0 < loops) (hn : 0 < n) (extent disp : ℤ) :
    ((gap loops extent disp n).seen same).Ok := by
  simp only [gap, seen, seen_ofBytes, Ok, blocks, List.append_nil, Elem.bytes_ofBytes, first,
    width_ofBytes, ne_eq, reduceCtorEq, not_false_eq_true, true_and, and_true]
  exact ⟨⟨hloops, fun _ => rfl⟩, hn⟩

def Counts (p : Option Elem) : Prop := ∀ e, p = some e → 0 < e.count

theorem ok_ofPending {p : Option Elem} (hp : Counts p) : ((ofPending p).seen same).Ok := by
  cases p with
  | none => trivial
  | some e => exact ⟨hp e rfl, trivial⟩

theorem ok_putElem {y : Elem} (hy : 0 < y.count) {p : Option Elem} (hp : Counts p) :
    ((putElem y p).1.seen same).Ok ∧ Counts (putElem y p).2 := by
  cases p with
  | none =>
    refine ⟨trivial, ?_⟩
    rintro _ ⟨rfl⟩
    exact hy
  | some e =>
    rw [putElem]
    split_ifs with h
    · refine ⟨trivial, ?_⟩
      rintro _ ⟨rfl⟩
      unfold Elem.join
      split_ifs with htype
      · exact Nat.add_pos_right _ hy
      · exact Nat.add_pos_right _ (mul_pos hy y.type.pos)
    · refine ⟨⟨hp e rfl, trivial⟩, ?_⟩
      rintro _ ⟨rfl⟩
      exact hy

theorem ok_putContiguous {loops : ℕ} (hloops : 2 ≤ loops) (extent : ℤ) {body : Body}
    (hwidth : 0 < width body.blocks) {p : Option Elem} (hp : Counts p) :
    ((putContiguous loops extent body p).1.seen same).Ok ∧
      Counts (putContiguous loops extent body p).2 := by
  have hbytes : 0 < loops * width body.blocks := mul_pos (by omega) hwidth
  have hcounts (disp : ℤ) {n : ℕ} (hn : 0 < n) : Counts (some (.ofBytes disp n)) := by
    rintro _ ⟨rfl⟩
    exact hn
  unfold putContiguous putWhole putGap
  split_ifs with hwhole
  · cases p with
    | none => exact ⟨trivial, hcounts _ hbytes⟩
    | some e =>
      dsimp only
      split_ifs
      · exact ⟨trivial, hcounts _ (Nat.add_pos_right _ hbytes)⟩
      · exact ⟨⟨hp e rfl, trivial⟩, hcounts _ hbytes⟩
  · have hnone : Counts none := nofun
    cases p with
    | none => exact ⟨ok_gap (by omega) hwidth _ _, hnone⟩
    | some e =>
      dsimp only
      split_ifs
      · refine ⟨?_, hnone⟩
        rw [seen_append, ok_append]
        refine ⟨⟨?_, trivial⟩, ok_gap (by omega) hwidth _ _⟩
        rw [seen_ofBytes]
        exact Nat.add_pos_right _ hwidth
      · refine ⟨?_, hnone⟩
        rw [seen_append, ok_append]
        exact ⟨⟨hp e rfl, trivial⟩, ok_gap (by omega) hwidth _ _⟩

theorem ok_unrolled (loops : ℕ) (extent : ℤ) {y : Elem} (hy : 0 < y.count) :
    ((unrolled loops extent y).seen same).Ok := by
  induction loops generalizing y with
  | zero => trivial
  | succ n ih =>
    rw [unrolled_succ]
    exact ⟨hy, ih hy⟩

theorem ok_putLoop {loops : ℕ} (hloops : 2 ≤ loops) (extent : ℤ) {inner body : Body}
    (hinner : (inner.seen same).Ok) (hne : inner ≠ nil) (hbody : body.Ok) :
    ((putLoop loops extent inner body).seen same).Ok := by
  have hloop : ((loop false loops extent inner nil).seen same).Ok :=
    ⟨⟨by omega, seen_ne_nil.mpr hne, by simp⟩, hinner, trivial⟩
  unfold putLoop
  split
  · next y =>
    split_ifs with hone
    · exact ⟨by change 0 < loops; omega, trivial⟩
    · exact ok_unrolled loops extent hbody.1
    · exact hloop
  · exact hloop

theorem optimize_ne_nil {b : Body} (hok : b.Ok) (hne : b ≠ nil) : b.optimize ≠ nil := by
  intro hnil
  have hwidth := width_optimize hok
  have hpos := width_pos hok hne
  rw [hnil] at hwidth
  simp at hwidth
  omega

theorem ok_opt {b : Body} (hok : b.Ok) (hrep : b.Repeats) {p : Option Elem} (hp : Counts p) :
    ((closed (b.opt p)).seen same).Ok := by
  induction b generalizing p with
  | nil => exact ok_ofPending hp
  | elem y rest ih =>
    have hput := @ok_putElem same y hok.1 p hp
    rw [closed_opt_elem, seen_append, ok_append]
    exact ⟨hput.1, ih hok.2 hrep hput.2⟩
  | loop contiguous loops extent body rest ih1 ih2 =>
    obtain ⟨⟨hloops, hne, hrun⟩, hbody, hrest⟩ := hok
    obtain ⟨hrep, hbody', hrest'⟩ := hrep
    cases contiguous with
    | true =>
      have hput := @ok_putContiguous same loops hrep extent body (width_pos hbody hne) p hp
      rw [closed_opt_contiguous, seen_append, ok_append]
      exact ⟨hput.1, ih2 hrest hrest' hput.2⟩
    | false =>
      have hnone : Counts none := nofun
      rw [closed_opt_loop, seen_append, seen_append, ok_append, ok_append]
      exact ⟨ok_ofPending hp,
        ok_putLoop hrep extent (ih1 hbody hbody' hnone) (optimize_ne_nil hbody hne) hbody,
        ih2 hrest hrest' hnone⟩

end Body

/-- The optimised description of a committed datatype, behind which is the fake end of loop. -/
structure Walkable (d : Datatype) (b : Body) : Prop where
  optDesc_eq : ∃ e, d.optDesc = b.flatten ++ [.endLoop e] ∧ e.firstElemDisp = b.first
  ok : ∀ same, (b.seen same).Ok
  width_eq : width b.blocks = d.size
  ne_nil : b ≠ .nil

namespace Datatype

variable {d : Datatype}

theorem Sound.walkable (hd : Sound d) (hcommitted : d.committed = true) (hsize : 0 < d.size)
    (hfit : d.size < 2 ^ 31) : ∃ b, Walkable d b := by
  obtain ⟨b, hb, -⟩ := hd.described
  have hnone : Body.Counts none := nofun
  refine ⟨b.optimize, ⟨_, (hd.committed hcommitted).trans (hb.optimized hsize hfit), ?_⟩, fun same =>
    Body.ok_opt hb.ok hb.repeats hnone, ?_, Body.optimize_ne_nil hb.ok (hb.ne_nil hsize)⟩
  · exact (Body.first_optimize hb.ok).symm
  · rw [Body.width_optimize hb.ok, hb.width_eq]

end Datatype

namespace Walk

variable {desc : List Desc} {extent : ℤ} {w w' : Walk} {status : Status} {left : List (ℤ × ℕ)} {m : ℕ}

theorem run_mono {fuel fuel' : ℕ} (h : w.run same desc extent fuel = some (w', status))
    (hle : fuel ≤ fuel') : w.run same desc extent fuel' = some (w', status) := by
  induction fuel generalizing w fuel' with
  | zero => cases h
  | succ fuel ih =>
    obtain ⟨fuel', rfl⟩ : ∃ k, fuel' = k + 1 := ⟨fuel' - 1, by omega⟩
    rw [run] at h ⊢
    rcases hstep : w.step same desc extent with _ | ⟨w1, _ | _ | _⟩ <;> rw [hstep] at h <;>
      dsimp only at h ⊢
    · cases h
    · exact ih h (by omega)
    · exact h
    · exact h

theorem run_ne_more (fuel : ℕ) (w : Walk) :
    w.run same desc extent fuel ≠ some (w', .more) := by
  induction fuel generalizing w with
  | zero => exact nofun
  | succ fuel ih =>
    rw [run]
    rcases hstep : w.step same desc extent with _ | ⟨w1, _ | _ | _⟩
    · exact nofun
    · exact ih w1
    · exact nofun
    · exact nofun

theorem Rep.update (h : Rep same desc extent w left m) (space : ℕ) (moved : List (ℤ × ℕ)) :
    Rep same desc extent { w with space, moved } left m := h

theorem step_full (h : w.step same desc extent = some (w', .full)) :
    ∃ e, desc[w'.posDesc]? = some (.elem e) ∧ w'.countDesc ≠ 0 := by
  unfold step at h
  split at h
  · cases h
  · next e he =>
    dsimp only at h
    split_ifs at h with hzero
    · cases h
    · cases h
      exact ⟨e, he, hzero⟩
  · split at h
    · cases h
    · split_ifs at h <;> cases h
  · split_ifs at h
    · split at h
      · dsimp only at h
        split_ifs at h <;> cases h
      · cases h
    · cases h

theorem run_full {fuel : ℕ} (h : w.run same desc extent fuel = some (w', .full)) :
    ∃ e, desc[w'.posDesc]? = some (.elem e) ∧ w'.countDesc ≠ 0 := by
  induction fuel generalizing w with
  | zero => cases h
  | succ fuel ih =>
    rw [run] at h
    rcases hstep : w.step same desc extent with _ | ⟨w1, _ | _ | _⟩ <;> rw [hstep] at h <;>
      dsimp only at h
    · cases h
    · exact ih h
    · cases h
      exact step_full hstep
    · cases h

theorem Rep.elem {e : Elem} (h : Rep same desc extent w left m)
    (helem : desc[w.posDesc]? = some (.elem e)) :
    ∃ rest m', left = (w.pointer + e.disp, e.type.size) :: rest ∧
      ∀ w' : Walk, w' = { w with
          countDesc := w.countDesc - 1
          pointer := w.pointer + (e.seen same).extent } →
        Rep same desc extent (if w'.countDesc = 0 then w'.enter desc (w'.posDesc + 1) else w')
          rest m' := by
  obtain ⟨items, tail, after, n, hloops, hpos, hok, hcurrent, rfl, rfl⟩ := h
  cases items with
  | nil =>
    exfalso
    generalize w.stack = stack at hloops
    cases hloops with
    | whole hdesc _ => simp [getElem?_of_drop hpos] at helem
    | loop hup hdesc _ _ => simp [getElem?_of_drop hpos] at helem
  | loop contiguous loops loopExtent b rest =>
    rw [Body.flatten_loop_append] at hpos
    simp [getElem?_of_drop hpos] at helem
  | elem e' rest =>
    have hget : desc[w.posDesc]? = some (.elem e') := getElem?_of_drop hpos
    obtain rfl : e' = e := by simpa [hget] using helem
    obtain ⟨c, hc⟩ : ∃ c, w.countDesc = c + 1 := ⟨w.countDesc - 1, by
      have : 0 < w.countDesc := hcurrent
      omega⟩
    rw [pending, hc, strided_succ, shift_strided]
    simp only [shift_cons, shift_nil, List.append_assoc, cons_append, List.nil_append]
    by_cases hzero : c = 0
    · refine ⟨_, rest.turns + n, rfl, ?_⟩
      rintro w' rfl
      dsimp only
      subst hzero
      rw [Nat.add_sub_cancel, if_pos rfl, strided_zero, List.nil_append]
      exact @rep_enter same desc extent
        { w with countDesc := 0, pointer := w.pointer + (e'.seen same).extent } _ _ _ _ _ hloops
        (drop_succ_of_drop hpos) hok.2
    · refine ⟨_, (Body.elem e' rest).turns + n, rfl, ?_⟩
      rintro w' rfl
      dsimp only
      rw [Nat.add_sub_cancel, if_neg hzero]
      refine ⟨.elem e' rest, tail, after, n, hloops, hpos, hok, Nat.pos_of_ne_zero hzero, ?_, rfl⟩
      rw [pending, List.append_assoc]
      simp only [add_right_comm]
      rfl

end Walk

namespace Convertor

variable {c c' : Convertor} {left : List (ℤ × ℕ)}

def Stands (same : Elem → Bool) (c : Convertor) (left : List (ℤ × ℕ)) : Prop :=
  ∃ w m, c.resume = some w ∧ Walk.Rep same c.type.optDesc c.type.extent w left m

theorem stands_prepare {d : Datatype} {b : Body} (hb : Walkable d b) {count : ℕ}
    (hcount : 0 < count) :
    Stands same (prepare d count) (strided count d.extent (b.seen same).blocks) := by
  obtain ⟨e, hdesc, -⟩ := hb.optDesc_eq
  obtain ⟨k, rfl⟩ : ∃ k, count = k + 1 := ⟨count - 1, by omega⟩
  have hrep := @Walk.rep_enter same d.optDesc d.extent
    { posDesc := 0, countDesc := 0, pointer := 0, stack := [⟨-1, k + 1, 0⟩], space := 0 }
    b _ _ _ 0 (.whole hdesc (hb.ok same)) (by simpa using hdesc) (hb.ok same)
  refine ⟨_, b.turns + (k * (b.turns + 1) + 1), rfl, ?_⟩
  rw [strided_succ]
  simpa [Walk.enter, Walk.disp, Walk.topDisp, prepare] using hrep

theorem completed_advance {w : Walk} {converted : ℕ}
    (hdone : c.bConverted + converted = c.localSize) : (c.advance w converted).completed = true := by
  unfold advance
  dsimp only
  rw [if_pos hdone]

/-- The blocks that go to buffers of these lengths, and those that are left. -/
def drain : List ℕ → List (ℤ × ℕ) → List (List (ℤ × ℕ)) × List (ℤ × ℕ)
  | [], left => ([], left)
  | len :: iov, left =>
    let taken := fitting len left
    let left := left.drop taken.length
    if left = [] then ([taken], [])
    else (taken :: (drain iov left).1, (drain iov left).2)

theorem packGo_spec {desc : List Desc} {extent : ℤ} {w : Walk} {m : ℕ}
    (h : Walk.Rep packSame desc extent w left m) (iov : List ℕ) :
    ∃ fuel w' out, (∀ fuel' ≥ fuel, packGo fuel' desc extent iov w = some (w', out)) ∧
      out.map bytes = (drain iov left).1.map bytes ∧
      ((drain iov left).2 ≠ [] → ∃ m', Walk.Rep packSame desc extent w' (drain iov left).2 m') := by
  induction iov generalizing w left m with
  | nil => exact ⟨0, w, [], fun _ _ => rfl, rfl, fun _ => ⟨m, h⟩⟩
  | cons len iov ih =>
    obtain ⟨w', status, left', hrun, hleft, hmoved, -, hdone, hrest⟩ :=
      (h.update len []).run (Nat.lt_succ_self m)
    dsimp only at hleft hmoved
    have hdrop : left.drop (fitting len left).length = left' := by
      generalize fitting len left = taken at hleft ⊢
      rw [hleft, drop_left]
    rw [drain, hdrop]
    by_cases hnil : left' = []
    · rw [if_pos hnil]
      obtain rfl := hdone.mpr hnil
      refine ⟨m + 1, w', [w'.moved], fun fuel hfuel => ?_, by simpa using hmoved, by simp⟩
      rw [packGo, Walk.run_mono hrun hfuel]
    · rw [if_neg hnil]
      obtain ⟨m', hrep⟩ := hrest hnil
      obtain ⟨fuel, w'', out, hpack, hbytes, hrep'⟩ := ih hrep
      refine ⟨max (m + 1) fuel, w'', w'.moved :: out, fun fuel' hfuel => ?_, ?_, hrep'⟩
      · rw [packGo, Walk.run_mono hrun (le_of_max_le_left hfuel)]
        rcases status with _ | _ | _
        · simp [hpack fuel' (le_of_max_le_right hfuel)]
        · simp [hpack fuel' (le_of_max_le_right hfuel)]
        · exact absurd (hdone.mp rfl) hnil
      · rw [map_cons, map_cons, hbytes]
        simpa using hmoved

theorem seen_packSame (b : Body) : b.seen packSame = b := by
  induction b with
  | nil => rfl
  | elem e rest ih =>
    have he : e.seen packSame = e := by
      unfold Elem.seen packSame
      by_cases h : (e.type.size : ℤ) = e.extent
      · simp [h]
      · simp [h]
    rw [Body.seen, he, ih]
  | loop contiguous loops extent body rest ih1 ih2 => rw [Body.seen, ih1, ih2]

theorem pos_of_ok {b : Body} (hok : b.Ok) : ∀ x ∈ b.blocks, 0 < x.2 := by
  induction b with
  | nil => exact nofun
  | elem e rest ih =>
    intro x hx
    rw [Body.blocks_elem, mem_append] at hx
    rcases hx with hx | hx
    · obtain ⟨y, hy, hlen⟩ := mem_strided hx
      rw [mem_singleton] at hy
      rw [← hlen, hy]
      exact e.type.pos
    · exact ih hok.2 x hx
  | loop contiguous loops extent body rest ih1 ih2 =>
    intro x hx
    rw [Body.blocks_loop, mem_append] at hx
    rcases hx with hx | hx
    · obtain ⟨y, hy, hlen⟩ := mem_strided hx
      rw [← hlen]
      exact ih1 hok.2.1 y hy
    · exact ih2 hok.2.2 x hx

theorem width_pos_of_ne_nil (hpos : ∀ b ∈ left, 0 < b.2) (hne : left ≠ []) : 0 < width left := by
  obtain ⟨b, rest, rfl⟩ := exists_cons_of_ne_nil hne
  have := hpos b mem_cons_self
  rw [width_cons]
  omega

theorem fitting_whole {d : Datatype} {b : Body} (hb : Walkable d b) (count : ℕ) :
    fitting (count * d.size) (strided count d.extent b.blocks) = strided count d.extent b.blocks := by
  have hfit := @eq_fitting (strided count d.extent b.blocks) [] (count * d.size)
    (by rw [width_strided, hb.width_eq]) (.inl rfl)
  rw [List.append_nil] at hfit
  exact hfit.symm

/-- The convertor is completed, or it is at the start of what is left. -/
structure Packing (c : Convertor) (left : List (ℤ × ℕ)) : Prop where
  pos : ∀ b ∈ left, 0 < b.2
  stands : left = [] ∧ c.completed = true ∨ left ≠ [] ∧ c.completed = false ∧ Stands packSame c left ∧
    c.bConverted + width left = c.localSize

theorem packing_prepare {d : Datatype} {b : Body} (hb : Walkable d b) {count : ℕ}
    (hpos : 0 < count * d.size) : Packing (prepare d count) (strided count d.extent b.blocks) := by
  have hwidth : width (strided count d.extent b.blocks) = count * d.size := by
    rw [width_strided, hb.width_eq]
  have hok := hb.ok packSame
  have hstands := @stands_prepare packSame d b hb count (Nat.pos_of_mul_pos_right hpos)
  rw [seen_packSame] at hok hstands
  refine ⟨fun x hx => ?_, .inr ⟨?_, ?_, hstands, ?_⟩⟩
  · obtain ⟨y, hy, hlen⟩ := mem_strided hx
    rw [← hlen]
    exact pos_of_ok hok y hy
  · rintro hnil
    rw [hnil, width_nil] at hwidth
    omega
  · simpa [prepare] using Nat.mul_ne_zero_iff.mp hpos.ne'
  · rw [hwidth]
    exact zero_add _

theorem Packing.step {c : Convertor} (h : Packing c left) (hopen : c.completed = false) (len : ℕ) :
    ∃ fuel c' moved, (∀ fuel' ≥ fuel, genericSimplePack fuel' c [len] = some (c', [moved])) ∧
      bytes moved = bytes (fitting len left) ∧ Packing c' (left.drop (fitting len left).length) := by
  obtain ⟨hpos, ⟨-, hcompleted⟩ | ⟨-, -, ⟨w, m, hresume, hrep⟩, hwidth⟩⟩ := h
  · rw [hopen] at hcompleted
    cases hcompleted
  obtain ⟨fuel, w', out, hpack, hbytes, hrest⟩ := packGo_spec hrep [len]
  have hdrain : drain [len] left = ([fitting len left], left.drop (fitting len left).length) := by
    rw [drain]
    split_ifs with hnil
    · rw [hnil]
    · rfl
  rw [hdrain] at hbytes hrest
  obtain ⟨moved, rfl⟩ : ∃ moved, out = [moved] := by
    have := congrArg List.length hbytes
    rw [length_map, length_map] at this
    exact length_eq_one_iff.mp this
  have hmoved : bytes moved = bytes (fitting len left) := by simpa using hbytes
  have hall : fitting len left ++ left.drop (fitting len left).length = left :=
    prefix_iff_eq_append.mp ⟨_, fitting_append_locate⟩
  have hsum : width left = width moved + width (left.drop (fitting len left).length) := by
    rw [width_eq_of_bytes_eq hmoved, ← width_append, hall]
  refine ⟨fuel, c.advance w' ([moved].map width).sum, moved, fun fuel' hfuel => ?_, hmoved,
    fun b hb => hpos b (mem_of_mem_drop hb), ?_⟩
  · rw [genericSimplePack, hresume, Option.bind_some, hpack fuel' hfuel]
    rfl
  · rw [map_singleton, sum_singleton]
    by_cases hnil : left.drop (fitting len left).length = []
    · rw [hnil, width_nil] at hsum
      exact .inl ⟨hnil, completed_advance (by omega)⟩
    · obtain ⟨m', hrep'⟩ := hrest hnil
      have hmore := width_pos_of_ne_nil (fun b hb => hpos b (mem_of_mem_drop hb)) hnil
      unfold advance
      dsimp only
      rw [if_neg (by omega)]
      refine .inr ⟨hnil, hopen, ⟨{ w' with space := 0, moved := [] }, m', ?_, hrep'.update 0 []⟩, ?_⟩
      · simp [suspend, resume, Walk.disp]
      · dsimp only [suspend]
        omega

theorem genericSimplePack_whole {d : Datatype} {b : Body} (hb : Walkable d b) {count : ℕ}
    (hcount : 0 < count) :
    ∃ fuel c' moved, (∀ fuel' ≥ fuel, genericSimplePack fuel' (prepare d count) [count * d.size]
        = some (c', [moved])) ∧ c'.completed = true ∧
      bytes moved = bytes (strided count d.extent b.blocks) := by
  have hok := hb.ok packSame
  rw [seen_packSame] at hok
  have hpos := mul_pos hcount (hb.width_eq ▸ Body.width_pos hok hb.ne_nil)
  obtain ⟨fuel, c', moved, hrun, hmoved, -, ⟨-, hdone⟩ | ⟨hleft, -⟩⟩ := (packing_prepare hb hpos).step
    (by simpa [prepare] using Nat.mul_ne_zero_iff.mp hpos.ne') (count * d.size)
  · exact ⟨fuel, c', moved, hrun, hdone, by rw [hmoved, fitting_whole hb]⟩
  · rw [fitting_whole hb, drop_length] at hleft
    exact absurd rfl hleft

theorem drain_cons (len : ℕ) (lens : List ℕ) (left : List (ℤ × ℕ)) :
    (drain (len :: lens) left).1.flatMap bytes = bytes (fitting len left) ++
        (drain lens (left.drop (fitting len left).length)).1.flatMap bytes ∧
      (drain (len :: lens) left).2 = (drain lens (left.drop (fitting len left).length)).2 := by
  rw [drain]
  split_ifs with hnil
  · rw [hnil]
    cases lens <;> simp [drain, fitting]
  · exact ⟨rfl, rfl⟩

theorem drain_append (lens : List ℕ) (left : List (ℤ × ℕ)) :
    (drain lens left).1.flatMap bytes ++ bytes (drain lens left).2 = bytes left := by
  induction lens generalizing left with
  | nil => rfl
  | cons len lens ih =>
    obtain ⟨hbytes, hleft⟩ := drain_cons len lens left
    rw [hbytes, hleft, List.append_assoc, ih, ← bytes_append]
    exact congrArg bytes (prefix_iff_eq_append.mp ⟨_, fitting_append_locate⟩)

theorem genericPackCalls_completed (h : c.completed = true) {fuel : ℕ} {lens : List ℕ} :
    genericPackCalls fuel c lens = some (c, []) := by
  cases lens
  · rfl
  · exact if_pos h

theorem completed_prepare {d : Datatype} {count : ℕ} (h : count * d.size = 0) :
    (prepare d count).completed = true := by
  rw [prepare, decide_eq_true_iff]
  exact Nat.mul_eq_zero.mp h

theorem Packing.run {c : Convertor} (h : Packing c left) (lens : List ℕ) : ∃ fuel c' outs,
    ∃ taken : List (List (ℤ × ℕ)), (∀ fuel' ≥ fuel, genericPackCalls fuel' c lens = some (c', outs)) ∧
      outs.flatMap bytes = (drain lens left).1.flatMap bytes ∧ outs.map bytes = taken.map bytes ∧
      taken.flatten ++ (drain lens left).2 = left ∧ Packing c' (drain lens left).2 := by
  induction lens generalizing c left with
  | nil => exact ⟨0, c, [], [], fun _ _ => rfl, rfl, rfl, rfl, h⟩
  | cons len lens ih =>
    obtain ⟨hbytes, hleft⟩ := drain_cons len lens left
    rw [hbytes, hleft]
    rcases hcompleted : c.completed with - | -
    · obtain ⟨fuel, c1, moved, hrun, hmoved, hpacking⟩ := h.step hcompleted len
      obtain ⟨fuel', c', outs, taken, hcalls, hdrained, htaken, hsplit, hpacking'⟩ := ih hpacking
      refine ⟨max fuel fuel', c', moved :: outs, fitting len left :: taken, fun k hk => ?_, ?_, ?_, ?_,
        hpacking'⟩
      · rw [genericPackCalls, if_neg (by rw [hcompleted]; exact Bool.false_ne_true), hrun k (le_of_max_le_left hk),
          Option.bind_some, hcalls k (le_of_max_le_right hk)]
        rfl
      · rw [flatMap_cons, hmoved, hdrained]
      · rw [map_cons, map_cons, hmoved, htaken]
      · rw [flatten_cons, List.append_assoc, hsplit]
        exact prefix_iff_eq_append.mp ⟨_, fitting_append_locate⟩
    · rcases h.stands with ⟨rfl, -⟩ | ⟨-, hopen, -⟩
      · refine ⟨0, c, [], [], fun _ _ => genericPackCalls_completed hcompleted, ?_⟩
        cases lens <;> simpa [drain, fitting] using h
      · rw [hcompleted] at hopen
        cases hopen

/-- The bytes of the type map, visited `count` times. -/
def typeMapBytes (d : Datatype) (count : ℕ) : List ℤ :=
  bytes (strided count d.extent ((typeMap d.desc).map (Prod.map id Basic.size)))

theorem typeMapBytes_eq {d : Datatype} (hd : d.Built) (count : ℕ) :
    typeMapBytes d count = bytes (stream d.desc d.extent count) := by
  obtain ⟨b, hb, -⟩ := hd.sound.described
  rw [typeMapBytes, stream, hb.desc_eq, Body.typeMap_flatten, Body.visits_flatten, Body.blocks_eq]

/-- Every buffer gets what fits of the elements that are left, and all that the buffers got is the start of
the type map; where it is all of it, the convertor is completed. -/
def PacksTypeMap (d : Datatype) (count : ℕ) : Prop :=
  ∀ lens, ∃ fuel c outs, genericPackCalls fuel (prepare d count) lens = some (c, outs) ∧
    outs.flatMap bytes = (drain lens (stream d.optDesc d.extent count)).1.flatMap bytes ∧
    outs.flatMap bytes <+: typeMapBytes d count ∧
    (c.completed = true ↔ outs.flatMap bytes = typeMapBytes d count)

/-- The generic function packs the type map if and only if no two neighbours in the description clash. -/
theorem packsTypeMap_iff {d : Datatype} (hd : d.Built) (hcommitted : d.committed = true)
    (hfit : d.size < 2 ^ 31) (count : ℕ) : PacksTypeMap d count ↔ count = 0 ∨ Clean d.desc := by
  have hmap := typeMapBytes_eq hd count
  rcases Nat.eq_zero_or_pos (count * d.size) with hzero | hpos
  · have hcompleted := completed_prepare hzero
    have hnil : count = 0 ∨ d.desc = [] ∧ d.optDesc = [] :=
      (Nat.mul_eq_zero.mp hzero).imp_right (hd.sound.empty hcommitted)
    have hl : stream d.optDesc d.extent count = [] ∧ typeMapBytes d count = [] := by
      rw [hmap]
      rcases hnil with rfl | ⟨hdesc, hopt⟩
      · exact ⟨rfl, rfl⟩
      · have hempty : stream [] d.extent count = [] := by
          refine eq_nil_iff_forall_not_mem.mpr fun x hx => ?_
          obtain ⟨y, hy, -⟩ := mem_strided hx
          cases hy
        rw [hdesc, hopt, hempty]
        exact ⟨rfl, rfl⟩
    refine iff_of_true (fun lens => ⟨0, prepare d count, [], ?_, ?_, ?_⟩) (hnil.imp_right fun h => ?_)
    · exact genericPackCalls_completed hcompleted
    · rw [hl.1]
      cases lens <;> simp [drain, fitting]
    · rw [hl.2]
      exact ⟨prefix_rfl, iff_of_true hcompleted rfl⟩
    · rw [h.1]
      rfl
  · obtain ⟨b, hb⟩ := hd.sound.walkable hcommitted (Nat.pos_of_mul_pos_left hpos) hfit
    obtain ⟨e, hdesc, -⟩ := hb.optDesc_eq
    have hstream : stream d.optDesc d.extent count = strided count d.extent b.blocks := by
      rw [stream, hdesc, Body.visits_flatten_endLoop]
    have hpacking := packing_prepare hb hpos
    rw [or_iff_right (by rintro rfl; simp at hpos), ← hd.sound.sameStream_iff hcommitted hfit]
    constructor
    · intro h
      obtain ⟨b', hb', -⟩ := hd.sound.described
      obtain ⟨k, rfl⟩ : ∃ k, count = k + 1 := ⟨count - 1, by have := Nat.pos_of_mul_pos_right hpos; omega⟩
      obtain ⟨-, -, outs, -, hbytes, hprefix, -⟩ := h [(k + 1) * d.size]
      have hwhole : outs.flatMap bytes = bytes (strided (k + 1) d.extent b.blocks) := by
        rw [hbytes, hstream, (drain_cons ..).1, fitting_whole hb]
        simp [drain]
      rw [hmap, stream, hb'.desc_eq, Body.visits_flatten, hwhole] at hprefix
      have hsame := hprefix.eq_of_length (by simp [hb.width_eq, hb'.width_eq])
      rw [strided_succ, strided_succ, bytes_append, bytes_append] at hsame
      have hone := append_inj_left hsame (by simp [hb.width_eq, hb'.width_eq])
      intro extent count
      rw [stream, stream, hdesc, Body.visits_flatten_endLoop, hb'.desc_eq, Body.visits_flatten]
      exact bytes_strided_congr hone
    · intro hsame lens
      obtain ⟨fuel, c, outs, -, hrun, hbytes, -, -, hpos', hleft⟩ := hpacking.run lens
      have hall := drain_append lens (strided count d.extent b.blocks)
      refine ⟨fuel, c, outs, hrun fuel (le_rfl), by rw [hbytes, hstream], ?_⟩
      rw [hmap, ← hsame, hstream, ← hall, hbytes]
      refine ⟨prefix_append _ _, ?_⟩
      rw [self_eq_append_right]
      rcases hleft with ⟨hnil, hdone⟩ | ⟨hne, hopen, -⟩
      · exact iff_of_true hdone (by rw [hnil]; rfl)
      · have hmore := width_pos_of_ne_nil hpos' hne
        refine iff_of_false (by simp [hopen]) fun hnil => ?_
        rw [← length_bytes, hnil] at hmore
        cases hmore

def vector : Datatype := (Datatype.ddtCreateVector 3 2 4 Datatype.mpiInt).ddtCommit

theorem built_vector : vector.Built := .commit (Datatype.built_createVector Datatype.built_mpiInt)

theorem packsTypeMap_vector : PacksTypeMap vector 2 :=
  (packsTypeMap_iff built_vector (by decide) (by decide) 2).mpr (.inr (by decide))

end Convertor

end OpenMPI.Ddt
