import OpenMPI.Ddt.Optimize

/-!
# The optimiser on nested descriptions

`Body.opt` is `ompi_ddt_optimize_short` on the structure that the array flattens
(`optimizeGo_flatten`): it writes entries and leaves one element pending.
-/

namespace OpenMPI.Ddt

open Lib List

namespace Elem

def stop (e : Elem) : ℤ := e.disp + e.count * e.type.size

def ofBytes (disp : ℤ) (n : ℕ) : Elem := ⟨true, dtByte, n, 1, disp⟩

def join (e y : Elem) : Elem :=
  if y.type = e.type then { e with count := e.count + y.count, extent := y.extent }
  else ofBytes e.disp (e.count * e.type.size + y.count * y.type.size)

end Elem

namespace Body

def ofPending : Option Elem → Body
  | none => nil
  | some e => elem e nil

def putElem (y : Elem) : Option Elem → Body × Option Elem
  | none => (nil, some { y with contiguous := true })
  | some e =>
    if y.contiguous = true ∧ e.stop = y.disp ∧ y.extent = y.type.size then (nil, some (e.join y))
    else (elem e nil, some { y with contiguous := true })

def putWhole (bytes : ℕ) (disp : ℤ) : Option Elem → Body × Option Elem
  | none => (nil, some (.ofBytes disp bytes))
  | some e =>
    if e.stop = disp then (nil, some (.ofBytes e.disp (e.count * e.type.size + bytes)))
    else (elem e nil, some (.ofBytes disp bytes))

def gap (loops : ℕ) (extent : ℤ) (disp : ℤ) (bytes : ℕ) : Body :=
  loop true loops extent (elem (.ofBytes disp bytes) nil) nil

def putGap (loops : ℕ) (extent : ℤ) (disp : ℤ) (bytes : ℕ) : Option Elem → Body × Option Elem
  | none => (gap loops extent disp bytes, none)
  | some e =>
    if e.stop = disp then
      (elem (.ofBytes e.disp (e.count * e.type.size + bytes)) nil ++
        gap (loops - 1) extent disp bytes, none)
    else (elem e nil ++ gap loops extent disp bytes, none)

def putContiguous (loops : ℕ) (extent : ℤ) (body : Body) (p : Option Elem) :
    Body × Option Elem :=
  if extent = width body.blocks then putWhole (loops * width body.blocks) body.first p
  else putGap loops extent body.first (width body.blocks) p

def unrolled (loops : ℕ) (extent : ℤ) (y : Elem) : Body :=
  (List.range loops).foldr (fun (i : ℕ) rest => elem { y with disp := y.disp + i * extent } rest) nil

/-- What is written of a loop that is not contiguous, `inner` being what is written of its body. -/
def putLoop (loops : ℕ) (extent : ℤ) (inner : Body) : Body → Body
  | elem y nil =>
    if y.count = 1 ∧ y.extent = y.type.size then elem ⟨false, y.type, loops, extent, y.disp⟩ nil
    else if loops < 3 then unrolled loops extent y
    else loop false loops extent inner nil
  | _ => loop false loops extent inner nil

/-- What the optimiser writes of a description, and what is pending behind it. -/
def opt : Body → Option Elem → Body × Option Elem
  | nil, p => (nil, p)
  | elem y rest, p =>
    let (out, q) := putElem y p
    let (out', q') := rest.opt q
    (out ++ out', q')
  | loop true loops extent body rest, p =>
    let (out, q) := putContiguous loops extent body p
    let (out', q') := rest.opt q
    (out ++ out', q')
  | loop false loops extent body rest, p =>
    let (inner, q) := body.opt none
    let (out', q') := rest.opt none
    (ofPending p ++ putLoop loops extent (inner ++ ofPending q) body ++ out', q')

def closed (r : Body × Option Elem) : Body := r.1 ++ ofPending r.2

def optimize (b : Body) : Body := closed (b.opt none)

theorem append_nil (b : Body) : b ++ nil = b := by
  induction b with
  | nil => rfl
  | elem e rest ih => rw [elem_append, ih]
  | loop contiguous loops extent body rest _ ih => rw [loop_append, ih]

theorem append_assoc (a b c : Body) : a ++ b ++ c = a ++ (b ++ c) := by
  induction a with
  | nil => rfl
  | elem e rest ih => rw [elem_append, elem_append, elem_append, ih]
  | loop contiguous loops extent body rest _ ih =>
    rw [loop_append, loop_append, loop_append, ih]

def Repeats : Body → Prop
  | nil => True
  | elem _ rest => rest.Repeats
  | loop _ loops _ body rest => 2 ≤ loops ∧ body.Repeats ∧ rest.Repeats

theorem closed_opt_elem (y : Elem) (rest : Body) (p : Option Elem) :
    closed ((elem y rest).opt p) = (putElem y p).1 ++ closed (rest.opt (putElem y p).2) := by
  simp only [opt, closed, append_assoc]

theorem closed_opt_contiguous (loops : ℕ) (extent : ℤ) (body rest : Body) (p : Option Elem) :
    closed ((loop true loops extent body rest).opt p) = (putContiguous loops extent body p).1 ++
      closed (rest.opt (putContiguous loops extent body p).2) := by
  simp only [opt, closed, append_assoc]

theorem closed_opt_loop (loops : ℕ) (extent : ℤ) (body rest : Body) (p : Option Elem) :
    closed ((loop false loops extent body rest).opt p) =
      ofPending p ++ (putLoop loops extent body.optimize body ++ closed (rest.opt none)) := by
  simp only [opt, closed, optimize, append_assoc]

@[simp] theorem blocks_nil : (nil : Body).blocks = [] := rfl

@[simp] theorem blocks_elem (e : Elem) (rest : Body) :
    (elem e rest).blocks = e.blocks ++ rest.blocks := rfl

@[simp] theorem blocks_loop (contiguous : Bool) (loops : ℕ) (extent : ℤ) (body rest : Body) :
    (loop contiguous loops extent body rest).blocks
      = strided loops extent body.blocks ++ rest.blocks := rfl

@[simp] theorem ofPending_none : ofPending none = nil := rfl

@[simp] theorem ofPending_some (e : Elem) : ofPending (some e) = elem e nil := rfl

@[simp] theorem count_ofBytes (disp : ℤ) (n : ℕ) : (Elem.ofBytes disp n).count = n := rfl

@[simp] theorem size_ofBytes (disp : ℤ) (n : ℕ) : (Elem.ofBytes disp n).type.size = 1 := rfl

@[simp] theorem width_ofBytes (disp : ℤ) (n : ℕ) : width (Elem.ofBytes disp n).blocks = n := by
  simp [Elem.width_blocks, Elem.ofBytes, dtByte]

theorem width_join (e y : Elem) :
    width (e.join y).blocks = width e.blocks + width y.blocks := by
  unfold Elem.join
  split_ifs with htype
  · simp only [Elem.width_blocks, htype]
    ring
  · rw [width_ofBytes, Elem.width_blocks, Elem.width_blocks]

theorem width_putElem (y : Elem) (p : Option Elem) :
    width (closed (putElem y p)).blocks = width (ofPending p).blocks + width y.blocks := by
  cases p with
  | none => simp [putElem, closed, Elem.width_blocks]
  | some e =>
    simp only [putElem]
    split_ifs
    · simp [closed, width_join]
    · simp [closed, Elem.width_blocks]

theorem width_putWhole (n : ℕ) (disp : ℤ) (p : Option Elem) :
    width (closed (putWhole n disp p)).blocks = width (ofPending p).blocks + n := by
  cases p with
  | none => simp [putWhole, closed]
  | some e =>
    simp only [putWhole]
    split_ifs
    · simp [closed, Elem.width_blocks]
    · simp [closed]

theorem width_gap (loops : ℕ) (extent disp : ℤ) (n : ℕ) :
    width (gap loops extent disp n).blocks = loops * n := by
  simp [gap]

theorem width_putGap {loops : ℕ} (hloops : 0 < loops) (extent disp : ℤ) (n : ℕ)
    (p : Option Elem) :
    width (closed (putGap loops extent disp n p)).blocks
      = width (ofPending p).blocks + loops * n := by
  cases p with
  | none => simp [putGap, closed, width_gap]
  | some e =>
    simp only [putGap]
    split_ifs
    · obtain ⟨k, rfl⟩ := Nat.exists_eq_succ_of_ne_zero hloops.ne'
      simp only [closed, blocks_append, width_append, width_gap, ofPending_none, blocks_nil,
        width_nil, blocks_elem, Nat.succ_sub_one, ofPending_some, Elem.width_blocks, count_ofBytes,
        size_ofBytes, Nat.succ_mul]
      ring
    · simp [closed, width_gap]

theorem width_putContiguous {loops : ℕ} (hloops : 0 < loops) (extent : ℤ) (body : Body)
    (p : Option Elem) :
    width (closed (putContiguous loops extent body p)).blocks
      = width (ofPending p).blocks + loops * width body.blocks := by
  unfold putContiguous
  split_ifs
  · exact width_putWhole _ _ p
  · exact width_putGap hloops _ _ _ p

theorem width_unrolled (loops : ℕ) (extent : ℤ) (y : Elem) :
    width (unrolled loops extent y).blocks = loops * width y.blocks := by
  have h (l : List ℕ) : width (l.foldr (fun (i : ℕ) rest =>
      elem { y with disp := y.disp + i * extent } rest) nil).blocks = l.length * width y.blocks := by
    induction l with
    | nil => simp
    | cons i l ih =>
      simp only [foldr_cons, blocks_elem, width_append, ih, length_cons,
        Elem.width_blocks]
      ring
  simpa [unrolled] using h (range loops)

theorem width_putLoop {loops : ℕ} (extent : ℤ) {inner body : Body}
    (h : width inner.blocks = width body.blocks) :
    width (putLoop loops extent inner body).blocks = loops * width body.blocks := by
  unfold putLoop
  split
  · split_ifs with h1
    · simp [Elem.width_blocks, h1.1]
    · simp [width_unrolled]
    · simp [h]
  · simp [h]

theorem width_opt {b : Body} (hok : b.Ok) (p : Option Elem) :
    width (closed (b.opt p)).blocks = width (ofPending p).blocks + width b.blocks := by
  induction b generalizing p with
  | nil => simp [opt, closed]
  | elem y rest ih =>
    have := width_putElem y p
    rw [closed, blocks_append, width_append] at this
    rw [closed_opt_elem, blocks_append, width_append, ih hok.2, blocks_elem, width_append]
    omega
  | loop contiguous loops extent body rest ih1 ih2 =>
    obtain ⟨⟨hloops, -, -⟩, hbody, hrest⟩ := hok
    cases contiguous with
    | true =>
      have := width_putContiguous hloops extent body p
      rw [closed, blocks_append, width_append] at this
      rw [closed_opt_contiguous, blocks_append, width_append, ih2 hrest, blocks_loop, width_append,
        width_strided]
      omega
    | false =>
      have hinner : width body.optimize.blocks = width body.blocks := by
        simpa [optimize] using ih1 hbody none
      rw [closed_opt_loop, blocks_append, width_append, blocks_append, width_append,
        width_putLoop extent hinner, ih2 hrest, blocks_loop, width_append, width_strided]
      simp

theorem width_optimize {b : Body} (hok : b.Ok) : width b.optimize.blocks = width b.blocks := by
  simpa [optimize] using width_opt hok none

theorem first_append {a : Body} (h : a ≠ nil) (b : Body) : (a ++ b).first = a.first := by
  cases a with
  | nil => exact absurd rfl h
  | elem e rest => rfl
  | loop contiguous loops extent body rest => rfl

theorem first_putElem (y : Elem) (p : Option Elem) (rest : Body) :
    closed (putElem y p) ≠ nil ∧
      (closed (putElem y p)).first = (ofPending p ++ elem y rest).first := by
  cases p with
  | none => simp [putElem, closed, first]
  | some e =>
    have hjoin : (e.join y).disp = e.disp := by
      unfold Elem.join
      split_ifs <;> rfl
    simp only [putElem]
    split_ifs
    · simp [closed, first, hjoin]
    · simp [closed, first]

theorem first_putContiguous (loops : ℕ) (extent : ℤ) (body rest : Body) (p : Option Elem) :
    closed (putContiguous loops extent body p) ≠ nil ∧
      (closed (putContiguous loops extent body p)).first
        = (ofPending p ++ loop true loops extent body rest).first := by
  unfold putContiguous
  cases p with
  | none =>
    simp only [putWhole, putGap]
    split_ifs <;> simp [closed, gap, first, Elem.ofBytes]
  | some e =>
    simp only [putWhole, putGap]
    split_ifs <;> simp [closed, first, Elem.ofBytes]

theorem first_putLoop {loops : ℕ} (hloops : 0 < loops) (extent : ℤ) {inner body : Body}
    (h : inner.first = body.first) :
    putLoop loops extent inner body ≠ nil ∧
      (putLoop loops extent inner body).first = body.first := by
  unfold putLoop
  obtain ⟨n, rfl⟩ := Nat.exists_eq_succ_of_ne_zero hloops.ne'
  split
  · split_ifs
    · simp [first]
    · rw [unrolled, range_succ_eq_map]
      simp [first]
    · exact ⟨by simp, h⟩
  · exact ⟨by simp, h⟩

theorem first_opt {b : Body} (hok : b.Ok) (p : Option Elem) :
    (closed (b.opt p)).first = (ofPending p ++ b).first := by
  -- what is written for the first entry is first
  have hstep (r : Body × Option Elem) (rest : Body) (hr : closed r ≠ nil)
      (ih : ∀ q, (closed (rest.opt q)).first = (ofPending q ++ rest).first) :
      (r.1 ++ closed (rest.opt r.2)).first = (closed r).first := by
    obtain ⟨out, q⟩ := r
    by_cases hout : out = nil
    · subst hout
      cases q with
      | none => exact absurd rfl hr
      | some e => exact ih (some e)
    · rw [first_append hout]
      exact (first_append hout _).symm
  induction b generalizing p with
  | nil => simp [opt, closed, append_nil]
  | elem y rest ih =>
    obtain ⟨hne, hfirst⟩ := first_putElem y p rest
    rw [closed_opt_elem, hstep _ rest hne (ih hok.2), hfirst]
  | loop contiguous loops extent body rest ih1 ih2 =>
    obtain ⟨⟨hloops, -, -⟩, hbody, hrest⟩ := hok
    cases contiguous with
    | true =>
      obtain ⟨hne, hfirst⟩ := first_putContiguous loops extent body rest p
      rw [closed_opt_contiguous, hstep _ rest hne (ih2 hrest), hfirst]
    | false =>
      rw [closed_opt_loop]
      cases p with
      | none =>
        obtain ⟨hne, hfirst⟩ := first_putLoop hloops extent (ih1 hbody none)
        exact (first_append hne _).trans hfirst
      | some e => rfl

theorem first_optimize {b : Body} (hok : b.Ok) : b.optimize.first = b.first := first_opt hok none

end Body

namespace Body

@[simp] theorem flatten_unrolled (loops : ℕ) (extent : ℤ) (y : Elem) :
    (unrolled loops extent y).flatten = (List.range loops).map fun i : ℕ =>
      Desc.elem { y with disp := y.disp + i * extent } := by
  unfold unrolled
  induction List.range loops with
  | nil => rfl
  | cons i l ih => simp only [foldr_cons, flatten, ih, map_cons]

end Body

theorem int32_eq {n : ℕ} (h : n < 2 ^ 31) : int32 n = n :=
  Int.bmod_eq_of_le (by omega) (by omega)

theorem int32_add {m n : ℕ} (h : m + n < 2 ^ 31) : int32 ((m : ℤ) + n) = (m + n : ℕ) := by
  rw [← Nat.cast_add, int32_eq h]

theorem uint32_eq {n : ℕ} (h : n < 2 ^ 31) : uint32 n = n := by
  unfold uint32
  omega

def Pending.run (p : Pending) : Option Elem :=
  if p.lastLength = 0 then none
  else p.lastType.map fun t => ⟨true, t, p.lastLength.toNat, p.lastExtent, p.lastDisp⟩

structure Pending.Ok (p : Pending) : Prop where
  nonneg : 0 ≤ p.lastLength
  small : p.lastLength < (2 ^ 31 : ℕ)
  type : p.lastLength ≠ 0 → p.lastType ≠ none

inductive Pending.Cases : Pending → Prop
  | none {disp : ℤ} {type : Option Basic} {extent : ℤ} : Cases ⟨disp, 0, type, extent⟩
  | some {disp : ℤ} {n : ℕ} {type : Basic} {extent : ℤ} (hpos : 0 < n) (hsmall : n < 2 ^ 31) :
    Cases ⟨disp, n, some type, extent⟩

theorem Pending.Ok.cases {p : Pending} (hp : p.Ok) : p.Cases := by
  obtain ⟨disp, length, type, extent⟩ := p
  obtain ⟨h0, hsmall, htype⟩ := hp
  dsimp only at h0 hsmall htype
  obtain ⟨n, rfl⟩ := Int.eq_ofNat_of_zero_le h0
  rcases Nat.eq_zero_or_pos n with rfl | hpos
  · exact .none
  · obtain ⟨t, rfl⟩ := Option.ne_none_iff_exists'.mp (htype (by omega))
    exact .some hpos (by omega)

section

variable {disp extent : ℤ} {n : ℕ} {t : Basic} {type : Option Basic}

@[simp] theorem Pending.run_zero : (⟨disp, 0, type, extent⟩ : Pending).run = none := rfl

theorem Pending.run_some (hn : 0 < n) :
    (⟨disp, n, some t, extent⟩ : Pending).run = some ⟨true, t, n, extent, disp⟩ := by
  simp [run, hn.ne']

@[simp] theorem Pending.createElem_zero :
    (⟨disp, 0, type, extent⟩ : Pending).createElem = [] := rfl

theorem Pending.ok_zero : (⟨disp, 0, type, extent⟩ : Pending).Ok :=
  ⟨le_rfl, show (0 : ℤ) < (2 ^ 31 : ℕ) by omega, fun h => absurd rfl h⟩

theorem Pending.ok_some (hsmall : n < 2 ^ 31) : (⟨disp, n, some t, extent⟩ : Pending).Ok :=
  ⟨Int.natCast_nonneg n, show (n : ℤ) < (2 ^ 31 : ℕ) by omega, fun _ => by simp⟩

theorem Pending.continues_some {d : ℤ} : (⟨disp, n, some t, extent⟩ : Pending).Continues d ↔
    Elem.stop ⟨true, t, n, extent, disp⟩ = d := by
  simp [Continues, bytes, size, Elem.stop]

theorem Pending.continues_zero {d : ℤ} : (⟨disp, 0, type, extent⟩ : Pending).Continues d ↔
    disp = d := by
  simp [Continues, bytes]

end

theorem Pending.Ok.createElem_eq {p : Pending} (hp : p.Ok) :
    p.createElem = (Body.ofPending p.run).flatten := by
  cases hp.cases with
  | none => rfl
  | @some disp n t extent hpos hsmall =>
    have hne : (n : ℤ) ≠ 0 := by omega
    rw [run_some hpos, createElem, if_neg hne]
    simp only [uint32_eq hsmall, Option.map_some, Option.toList_some]
    rfl

structure Emits (s s' : Opt) (r : Body × Option Elem) : Prop where
  desc : s'.desc = s.desc ++ r.1.flatten
  stack : s'.stack = s.stack
  ok : s'.pending.Ok
  run : s'.pending.run = r.2

namespace Opt

variable {s : Opt}

theorem emits_of {out : Body} {disp extent : ℤ} {n : ℕ} {t : Basic} (hpos : 0 < n)
    (hsmall : n < 2 ^ 31) : Emits s ⟨⟨disp, n, some t, extent⟩, s.desc ++ out.flatten, s.stack⟩
      (out, some ⟨true, t, n, extent, disp⟩) :=
  ⟨rfl, rfl, Pending.ok_some hsmall, Pending.run_some hpos⟩

theorem emits_nil {disp extent : ℤ} {n : ℕ} {t : Basic} (hpos : 0 < n) (hsmall : n < 2 ^ 31) :
    Emits s ⟨⟨disp, n, some t, extent⟩, s.desc, s.stack⟩
      (.nil, some ⟨true, t, n, extent, disp⟩) :=
  ⟨by simp [Body.flatten], rfl, Pending.ok_some hsmall, Pending.run_some hpos⟩

theorem emits_elem {y : Elem} (hy : 0 < y.count) (hp : s.pending.Ok)
    (hfit : width (Body.ofPending s.pending.run).blocks + width y.blocks < 2 ^ 31) :
    Emits s (s.elem y) (Body.putElem y s.pending.run) := by
  have hcount : y.count ≤ width y.blocks := by
    rw [Elem.width_blocks]
    exact Nat.le_mul_of_pos_right _ y.type.pos
  have hfresh : int32 y.count = y.count := int32_eq (by omega)
  obtain ⟨p, desc, stack⟩ := s
  dsimp only at hp hfit
  unfold elem
  cases hp.cases with
  | @none disp type extent =>
    rw [Pending.run_zero, Body.putElem]
    simp only [Pending.continues_zero, hfresh]
    split_ifs with h htype
    · obtain ⟨-, rfl, -⟩ := h
      rw [zero_add, hfresh, ← htype]
      exact emits_nil hy (by omega)
    · obtain ⟨-, rfl, -⟩ := h
      exact emits_nil hy (by omega)
    · rw [Pending.createElem_zero, List.append_nil]
      exact emits_nil hy (by omega)
  | @some disp n t extent hpos hsmall =>
    have hout := (Pending.ok_some hsmall : (⟨disp, n, some t, extent⟩ : Pending).Ok).createElem_eq
    rw [Pending.run_some hpos] at hfit hout ⊢
    have hwidth : width (Body.ofPending (some ⟨true, t, n, extent, disp⟩)).blocks = n * t.size := by
      simp [Elem.width_blocks]
    have hn : n ≤ n * t.size := Nat.le_mul_of_pos_right _ t.pos
    rw [hwidth] at hfit
    rw [Elem.width_blocks] at hfit hcount
    by_cases h : y.contiguous = true ∧
      Elem.stop ⟨true, t, n, extent, disp⟩ = y.disp ∧ y.extent = y.type.size
    · have hput : Body.putElem y (some ⟨true, t, n, extent, disp⟩)
          = (.nil, some (Elem.join ⟨true, t, n, extent, disp⟩ y)) := if_pos h
      rw [hput, if_pos ⟨h.1, Pending.continues_some.mpr h.2.1, h.2.2⟩]
      have hbytes : (⟨disp, n, some t, extent⟩ : Pending).bytes = (n * t.size : ℕ) := by
        simp [Pending.bytes, Pending.size]
      by_cases htype : y.type = t
      · have hlt : n + y.count < 2 ^ 31 := lt_of_le_of_lt (add_le_add hn hcount) hfit
        simp only [htype, if_true, int32_add hlt, Elem.join]
        exact emits_nil (Nat.add_pos_left hpos _) hlt
      · have hne : (n : ℤ) ≠ 0 := Int.natCast_ne_zero.mpr hpos.ne'
        simp only [Option.some.injEq, htype, if_false, hbytes, ← Nat.cast_mul, int32_add hfit,
          if_neg hne, Elem.join]
        exact emits_nil (Nat.add_pos_left (lt_of_lt_of_le hpos hn) _) hfit
    · have hput : Body.putElem y (some ⟨true, t, n, extent, disp⟩)
          = (.elem ⟨true, t, n, extent, disp⟩ .nil, some { y with contiguous := true }) := if_neg h
      rw [hput, if_neg fun h' => h ⟨h'.1, Pending.continues_some.mp h'.2.1, h'.2.2⟩, hfresh, hout]
      exact emits_of hy (by omega)

theorem emits_wholeLoop {l : Loop} {close : EndLoop} {disp : ℤ} (hpos : 0 < l.loops * close.size)
    (hp : s.pending.Ok)
    (hfit : width (Body.ofPending s.pending.run).blocks + l.loops * close.size < 2 ^ 31) :
    Emits s (s.wholeLoop l close disp)
      (Body.putWhole (l.loops * close.size) disp s.pending.run) := by
  have hfresh : int32 ((l.loops : ℤ) * close.size) = (l.loops * close.size : ℕ) := by
    rw [← Nat.cast_mul, int32_eq (by omega)]
  obtain ⟨p, desc, stack⟩ := s
  dsimp only at hp hfit
  unfold wholeLoop
  cases hp.cases with
  | @none d type extent =>
    have hbytes : (⟨d, 0, type, extent⟩ : Pending).bytes = 0 := by simp [Pending.bytes]
    rw [Pending.run_zero, Body.putWhole]
    simp only [Pending.continues_zero, hbytes, zero_add, hfresh]
    split_ifs with h
    · subst h
      exact emits_nil hpos (by omega)
    · rw [Pending.createElem_zero, List.append_nil]
      exact emits_nil hpos (by omega)
  | @some d n t extent hn hsmall =>
    have hout := (Pending.ok_some hsmall : (⟨d, n, some t, extent⟩ : Pending).Ok).createElem_eq
    rw [Pending.run_some hn] at hfit hout ⊢
    have hwidth : width (Body.ofPending (some ⟨true, t, n, extent, d⟩)).blocks = n * t.size := by
      simp [Elem.width_blocks]
    rw [hwidth] at hfit
    by_cases h : Elem.stop ⟨true, t, n, extent, d⟩ = disp
    · have hput : Body.putWhole (l.loops * close.size) disp (some ⟨true, t, n, extent, d⟩)
          = (.nil, some (.ofBytes d (n * t.size + l.loops * close.size))) := if_pos h
      have hlen : int32 ((⟨d, n, some t, extent⟩ : Pending).bytes + l.loops * close.size)
          = (n * t.size + l.loops * close.size : ℕ) := by
        have hbytes : (⟨d, n, some t, extent⟩ : Pending).bytes = (n * t.size : ℕ) := by
          simp [Pending.bytes, Pending.size]
        rw [hbytes, ← Nat.cast_mul, int32_add hfit]
      have hpos' : 0 < n * t.size + l.loops * close.size := by omega
      rw [hput, if_pos (Pending.continues_some.mpr h), hlen]
      exact emits_nil hpos' hfit
    · have hput : Body.putWhole (l.loops * close.size) disp (some ⟨true, t, n, extent, d⟩)
          = (.elem ⟨true, t, n, extent, d⟩ .nil, some (.ofBytes disp (l.loops * close.size))) :=
        if_neg h
      rw [hput, if_neg fun h' => h (Pending.continues_some.mp h'), hfresh, hout]
      exact emits_of hpos (by omega)

theorem emits_gapLoop {loops items : ℕ} {extent disp : ℤ} {size : ℕ} (hp : s.pending.Ok)
    (hfit : width (Body.ofPending s.pending.run).blocks + size < 2 ^ 31) (closeItems : ℕ) :
    Emits s (s.gapLoop ⟨true, loops, items, extent⟩ ⟨closeItems, size, disp⟩ disp)
      (Body.putGap loops extent disp size s.pending.run) := by
  have hgap (k : ℕ) : (Body.gap k extent disp size).flatten
      = [.loop ⟨true, k, 2, extent⟩, .elem (.ofBytes disp size), .endLoop ⟨2, size, disp⟩] := by
    simp [Body.gap, Body.flatten, Body.used, Body.blocks, Body.first, Elem.blocks, Elem.ofBytes,
      dtByte]
  obtain ⟨p, desc, stack⟩ := s
  dsimp only at hp hfit
  unfold gapLoop
  cases hp.cases with
  | @none d type x =>
    rw [Pending.run_zero, Body.putGap]
    simp only [ne_eq, not_true, false_and, if_false, if_true]
    exact ⟨by simp [Pending.createElem, hgap, Elem.ofBytes], rfl, Pending.ok_zero, rfl⟩
  | @some d n t x hn hsmall =>
    have hout := (Pending.ok_some hsmall : (⟨d, n, some t, x⟩ : Pending).Ok).createElem_eq
    have hne : (n : ℤ) ≠ 0 := by omega
    rw [Pending.run_some hn] at hfit hout ⊢
    have hwidth : width (Body.ofPending (some ⟨true, t, n, x, d⟩)).blocks = n * t.size := by
      simp [Elem.width_blocks]
    rw [hwidth] at hfit
    by_cases h : Elem.stop ⟨true, t, n, x, d⟩ = disp
    · have hput : Body.putGap loops extent disp size (some ⟨true, t, n, x, d⟩)
          = (.elem (.ofBytes d (n * t.size + size)) .nil ++ .gap (loops - 1) extent disp size,
            none) := if_pos h
      have hlen : int32 (int32 (⟨d, n, some t, x⟩ : Pending).bytes + size)
          = (n * t.size + size : ℕ) := by
        have hbytes : (⟨d, n, some t, x⟩ : Pending).bytes = (n * t.size : ℕ) := by
          simp [Pending.bytes, Pending.size]
        rw [hbytes, int32_eq (by omega), int32_add hfit]
      have hpos : 0 < n * t.size + size := by
        have := mul_pos hn t.pos
        omega
      have hmerged := (Pending.ok_some (by omega) :
        (⟨d, (n * t.size + size : ℕ), some dtByte, 1⟩ : Pending).Ok).createElem_eq
      rw [Pending.run_some hpos] at hmerged
      have hne' : ((n * t.size + size : ℕ) : ℤ) ≠ 0 := by omega
      have hcond : (n : ℤ) ≠ 0 ∧ (⟨d, n, some t, x⟩ : Pending).Continues disp :=
        ⟨hne, Pending.continues_some.mpr h⟩
      rw [hput]
      dsimp only
      rw [if_pos hcond]
      dsimp only
      rw [hlen, if_neg hne', hmerged]
      refine ⟨?_, rfl, Pending.ok_zero, rfl⟩
      simp only [Body.flatten_append, hgap, List.append_assoc]
      rfl
    · have hput : Body.putGap loops extent disp size (some ⟨true, t, n, x, d⟩)
          = (.elem ⟨true, t, n, x, d⟩ .nil ++ .gap loops extent disp size, none) := if_neg h
      have hcond : ¬((n : ℤ) ≠ 0 ∧ (⟨d, n, some t, x⟩ : Pending).Continues disp) := fun h' =>
        h (Pending.continues_some.mp h'.2)
      rw [hput]
      dsimp only
      rw [if_neg hcond]
      dsimp only
      rw [if_neg hne, hout]
      refine ⟨?_, rfl, Pending.ok_zero, rfl⟩
      simp only [Body.flatten_append, hgap, List.append_assoc]
      rfl

end Opt

theorem optimizeGo_skip (l rest : List Desc) (s : Opt) :
    optimizeGo l.length (l ++ rest) s = optimizeGo 0 rest s := by
  induction l with
  | nil => rfl
  | cons d l ih => rw [length_cons, cons_append, optimizeGo, ih]

theorem modify_append {α : Type*} (a c : List α) (x : α) (f : α → α) :
    (a ++ x :: c).modify a.length f = a ++ f x :: c := by
  induction a with
  | nil => rfl
  | cons y a ih => simp [ih]

variable {s : Opt}

def Reads (s : Opt) (l tail : List Desc) (r : Body × Option Elem) : Prop :=
  ∃ s', optimizeGo 0 (l ++ tail) s = optimizeGo 0 tail s' ∧ Emits s s' r

theorem Reads.append {l l' tail : List Desc} {r : Body × Option Elem} {b : Body}
    (h : Reads s l (l' ++ tail) r)
    (h' : ∀ s' : Opt, s'.pending.Ok → s'.pending.run = r.2 → Reads s' l' tail (b.opt r.2)) :
    Reads s (l ++ l') tail (r.1 ++ (b.opt r.2).1, (b.opt r.2).2) := by
  obtain ⟨s1, h1, e1⟩ := h
  obtain ⟨s2, h2, e2⟩ := h' s1 e1.ok e1.run
  refine ⟨s2, by rw [List.append_assoc, h1, h2], ⟨?_, e2.stack.trans e1.stack, e2.ok, e2.run⟩⟩
  rw [e2.desc, e1.desc, Body.flatten_append, List.append_assoc]

theorem reads_contiguous {loops : ℕ} {extent : ℤ} {body : Body} (hloops : 0 < loops)
    (hbody : body.Ok) (hne : body ≠ .nil) (hp : s.pending.Ok)
    (hfit : width (Body.ofPending s.pending.run).blocks + loops * width body.blocks < 2 ^ 31)
    (tail : List Desc) :
    Reads s (Body.loop true loops extent body .nil).flatten tail
      (Body.putContiguous loops extent body s.pending.run) := by
  have hwidth := mul_pos hloops (Body.width_pos hbody hne)
  have hlast : (body.flatten ++ [Desc.endLoop ⟨body.used + 1, width body.blocks, body.first⟩]).length
      = body.used + 1 := by
    simp [Body.length_flatten]
  have hget : (body.flatten ++
      .endLoop ⟨body.used + 1, width body.blocks, body.first⟩ :: tail)[body.used]?
      = some (.endLoop ⟨body.used + 1, width body.blocks, body.first⟩) := by
    rw [getElem?_append_right (by simp [Body.length_flatten])]
    simp [Body.length_flatten]
  refine ⟨(s.loop ⟨true, loops, body.used + 1, extent⟩ (body.flatten ++
    .endLoop ⟨body.used + 1, width body.blocks, body.first⟩ :: tail)).2, ?_, ?_⟩
  · rw [Body.flatten_loop_append, optimizeGo]
    simp only [Opt.loop, if_true, Nat.add_sub_cancel, hget, Body.flatten, List.nil_append]
    have := optimizeGo_skip (body.flatten ++
      [Desc.endLoop ⟨body.used + 1, width body.blocks, body.first⟩]) tail
    rw [hlast, List.append_assoc] at this
    exact this _
  · simp only [Opt.loop, if_true, Nat.add_sub_cancel, hget, Body.putContiguous,
      Body.firstElemDisp_flatten hbody hne]
    split_ifs
    · exact Opt.emits_wholeLoop hwidth hp hfit
    · have := Nat.le_mul_of_pos_left (width body.blocks) hloops
      exact Opt.emits_gapLoop hp (by omega) _

theorem run_flushed (p : Pending) (hp : p.Ok) :
    let p' := if p.lastLength = 0 then p
      else { p with lastDisp := p.lastDisp + p.lastLength, lastLength := 0, lastType := none }
    p'.Ok ∧ p'.run = none := by
  dsimp only
  split_ifs with h
  · exact ⟨hp, if_pos h⟩
  · exact ⟨Pending.ok_zero, rfl⟩

theorem reads_push {loops : ℕ} {extent : ℤ} {body : Body} (hbody : body.Ok)
    (ih : ∀ (s : Opt) (tail : List Desc), s.pending.Ok → s.pending.run = none →
      Reads s body.flatten tail (body.opt s.pending.run))
    (hp : s.pending.Ok) (hrun : s.pending.run = none) (desc : List Desc) (stack : List ℕ)
    (hdesc : s.desc = desc ++ [.loop ⟨false, loops, body.used + 1, extent⟩])
    (hstack : s.stack = (desc.length + 1) :: stack) (tail : List Desc) :
    ∃ s', optimizeGo 0 (body.flatten ++
        .endLoop ⟨body.used + 1, width body.blocks, body.first⟩ :: tail) s = optimizeGo 0 tail s' ∧
      s'.desc = desc ++ (Body.loop false loops extent body.optimize .nil).flatten ∧
      s'.stack = stack ∧ s'.pending.Ok ∧ s'.pending.run = none := by
  obtain ⟨s2, h2, e2⟩ := ih s (.endLoop ⟨body.used + 1, width body.blocks, body.first⟩ :: tail) hp hrun
  have hwritten : s2.desc ++ s2.pending.createElem
      = desc ++ (.loop ⟨false, loops, body.used + 1, extent⟩ :: body.optimize.flatten) := by
    rw [e2.desc, e2.ok.createElem_eq, e2.run, hrun, hdesc, List.append_assoc, List.append_assoc,
      ← Body.flatten_append]
    rfl
  refine ⟨_, by rw [h2, optimizeGo], ?_⟩
  unfold Opt.endLoop
  rw [e2.stack, hstack]
  dsimp only
  refine ⟨?_, rfl, Pending.ok_zero, rfl⟩
  rw [hwritten, Nat.add_sub_cancel, List.append_assoc, cons_append, modify_append]
  have hitems : (desc ++ (Desc.loop ⟨false, loops, body.used + 1, extent⟩ ::
      body.optimize.flatten)).length - (desc.length + 1) + 1 = body.optimize.used + 1 := by
    simp only [length_append, length_cons, Body.length_flatten]
    omega
  rw [hitems]
  simp only [Opt.setItems, Body.flatten, cons_append, Body.width_optimize hbody,
    Body.first_optimize hbody]

theorem reads_loop {loops : ℕ} {extent : ℤ} {body : Body} (hbody : body.Ok) (hne : body ≠ .nil)
    (ih : ∀ (s : Opt) (tail : List Desc), s.pending.Ok → s.pending.run = none →
      Reads s body.flatten tail (body.opt s.pending.run))
    (hp : s.pending.Ok) (tail : List Desc) :
    Reads s (Body.loop false loops extent body .nil).flatten tail
      (Body.ofPending s.pending.run ++ Body.putLoop loops extent body.optimize body, none) := by
  have hflush := run_flushed s.pending hp
  generalize hq : (if s.pending.lastLength = 0 then s.pending
    else { s.pending with
      lastDisp := s.pending.lastDisp + s.pending.lastLength
      lastLength := 0
      lastType := none }) = q at hflush
  obtain ⟨hq1, hq2⟩ := hflush
  unfold Reads
  rw [Body.flatten_loop_append, optimizeGo, Body.flatten, List.nil_append]
  have hpush := @reads_push
    ⟨q, s.desc ++ s.pending.createElem ++ [.loop ⟨false, loops, body.used + 1, extent⟩],
      ((s.desc ++ s.pending.createElem).length + 1) :: s.stack⟩ loops extent body hbody ih hq1 hq2
    (s.desc ++ s.pending.createElem) s.stack rfl rfl tail
  obtain ⟨s', hgo, hdesc, hstack, hok, hrun⟩ := hpush
  have hloop : Emits s s'
      (Body.ofPending s.pending.run ++ .loop false loops extent body.optimize .nil, none) := by
    refine ⟨?_, hstack, hok, hrun⟩
    rw [hdesc, hp.createElem_eq, Body.flatten_append, List.append_assoc]
  cases body with
  | nil => exact absurd rfl hne
  | loop contiguous loops' extent' body' rest' =>
    exact ⟨s', by simpa [Opt.loop, hq, Body.used, Body.flatten] using hgo, hloop⟩
  | elem y rest =>
    cases rest with
    | elem z rest => exact ⟨s', by simpa [Opt.loop, hq, Body.used, Body.flatten] using hgo, hloop⟩
    | loop contiguous loops' extent' body' rest' =>
      exact ⟨s', by simpa [Opt.loop, hq, Body.used, Body.flatten] using hgo, hloop⟩
    | nil =>
      have hskip (s1 : Opt) : optimizeGo 2 ([.elem y] ++
          .endLoop ⟨(Body.elem y .nil).used + 1, width (Body.elem y .nil).blocks, y.disp⟩ :: tail) s1
          = optimizeGo 0 tail s1 := rfl
      have hdesc' (b : Body) : s.desc ++ s.pending.createElem ++ b.flatten
          = s.desc ++ (Body.ofPending s.pending.run ++ b).flatten := by
        rw [hp.createElem_eq, Body.flatten_append, List.append_assoc]
      by_cases hone : y.count = 1 ∧ y.extent = y.type.size
      · refine ⟨⟨q, s.desc ++ s.pending.createElem ++
          [.elem ⟨false, y.type, loops, extent, y.disp⟩], s.stack⟩, ?_, ?_⟩
        · simp only [Opt.loop, hq, Body.used, Body.flatten, Bool.false_eq_true, if_false,
            cons_append, List.nil_append, if_pos hone]
          exact hskip _
        · rw [Body.putLoop, if_pos hone]
          exact ⟨hdesc' (.elem _ .nil), rfl, hq1, hq2⟩
      · by_cases hsmall : loops < 3
        · refine ⟨⟨q, s.desc ++ s.pending.createElem ++ (range loops).map fun i : ℕ =>
            .elem { y with disp := y.disp + i * extent }, s.stack⟩, ?_, ?_⟩
          · simp only [Opt.loop, hq, Body.used, Body.flatten, Bool.false_eq_true, if_false,
              cons_append, List.nil_append, if_neg hone, if_pos hsmall]
            exact hskip _
          · rw [Body.putLoop, if_neg hone, if_pos hsmall]
            refine ⟨?_, rfl, hq1, hq2⟩
            rw [← hdesc', Body.flatten_unrolled]
        · rw [Body.putLoop, if_neg hone, if_neg hsmall]
          refine ⟨s', ?_, hloop⟩
          simp only [Opt.loop, hq, Body.used, Body.flatten, Bool.false_eq_true, if_false,
            cons_append, List.nil_append, if_neg hone, if_neg hsmall]
          exact hgo

theorem reads_flatten {b : Body} (hok : b.Ok) (s : Opt) (tail : List Desc) (hp : s.pending.Ok)
    (hfit : width (Body.ofPending s.pending.run).blocks + width b.blocks < 2 ^ 31) :
    Reads s b.flatten tail (b.opt s.pending.run) := by
  induction b generalizing s tail with
  | nil => exact ⟨s, rfl, by simp [Body.flatten, Body.opt], rfl, hp, rfl⟩
  | elem y rest ih =>
    rw [Body.blocks_elem, width_append] at hfit
    have hread : Reads s [.elem y] (rest.flatten ++ tail) (Body.putElem y s.pending.run) :=
      ⟨s.elem y, rfl, Opt.emits_elem hok.1 hp (by omega)⟩
    have hwidth := Body.width_putElem y s.pending.run
    rw [Body.closed, Body.blocks_append, width_append] at hwidth
    exact hread.append fun s' hs' hrun => hrun ▸ ih hok.2 s' tail hs' (by rw [hrun]; omega)
  | loop contiguous loops extent body rest ih1 ih2 =>
    obtain ⟨⟨hloops, hne, -⟩, hbody, hrest⟩ := hok
    have hsplit : (Body.loop contiguous loops extent body rest).flatten
        = (Body.loop contiguous loops extent body .nil).flatten ++ rest.flatten := by
      rw [← Body.flatten_append]
      rfl
    rw [Body.blocks_loop, width_append, width_strided] at hfit
    have hle := Nat.le_mul_of_pos_left (width body.blocks) hloops
    rw [hsplit]
    cases contiguous with
    | true =>
      have hwidth := Body.width_putContiguous hloops extent body s.pending.run
      rw [Body.closed, Body.blocks_append, width_append] at hwidth
      exact (reads_contiguous hloops hbody hne hp (by omega) (rest.flatten ++ tail)).append
        fun s' hs' hrun => hrun ▸ ih2 hrest s' tail hs' (by rw [hrun]; omega)
    | false =>
      have hinner (s : Opt) (tail : List Desc) (hs : s.pending.Ok) (hrun : s.pending.run = none) :
          Reads s body.flatten tail (body.opt s.pending.run) :=
        ih1 hbody s tail hs (by rw [hrun, Body.ofPending_none, Body.blocks_nil, width_nil]; omega)
      exact (reads_loop hbody hne hinner hp (rest.flatten ++ tail)).append
        fun s' hs' hrun => hrun ▸ ih2 hrest s' tail hs'
          (by rw [hrun, Body.ofPending_none, Body.blocks_nil, width_nil]; omega)

theorem optimizeShort_flatten {b : Body} (hok : b.Ok) (hfit : width b.blocks < 2 ^ 31)
    (items size : ℕ) (disp : ℤ) :
    optimizeShort (b.flatten ++ [.endLoop ⟨items, size, disp⟩])
      = b.optimize.flatten ++ [.endLoop ⟨b.optimize.used + 2, size, disp⟩] := by
  obtain ⟨s, hs, e⟩ := reads_flatten hok { pending := ⟨0, 0, some dtByte, 1⟩ }
    [.endLoop ⟨items, size, disp⟩] Pending.ok_zero (by simpa using hfit)
  have hwritten : s.desc ++ s.pending.createElem = b.optimize.flatten := by
    rw [e.desc, e.ok.createElem_eq, e.run, List.nil_append, ← Body.flatten_append]
    rfl
  rw [optimizeShort, hs, optimizeGo, optimizeGo, Opt.endLoop, e.stack]
  dsimp only
  rw [hwritten, Body.length_flatten]

end OpenMPI.Ddt
