import OpenMPI.Ddt.Walk

/-!
# The walk takes the blocks that fit

A suspended walk stands for the blocks it still has to visit (`Rep`): those of the current element,
of what follows in the loops around it, and of the iterations these have left.  One turn takes
blocks off the front of them (`Rep.step`), so the walk takes the blocks that fit the space and no
other (`Rep.run`).
-/

namespace OpenMPI.Ddt

open Lib

/-- The element as the walk goes through it: its stride is its size where `same` says so. -/
def Elem.seen (same : Elem → Bool) (e : Elem) : Elem :=
  { e with extent := if same e then (e.type.size : ℤ) else e.extent }

namespace Body

def seen (same : Elem → Bool) : Body → Body
  | nil => nil
  | elem e rest => elem (e.seen same) (rest.seen same)
  | loop contiguous loops extent body rest =>
    loop contiguous loops extent (body.seen same) (rest.seen same)

def turns : Body → ℕ
  | nil => 0
  | elem _ rest => rest.turns + 1
  | loop _ loops _ body rest => loops * (body.turns + 1) + 1 + rest.turns

variable {same : Elem → Bool}

theorem seen_ne_nil {b : Body} : b.seen same ≠ nil ↔ b ≠ nil := by
  cases b <;> simp [seen]

@[simp] theorem width_seen (b : Body) : width (b.seen same).blocks = width b.blocks := by
  induction b with
  | nil => rfl
  | elem e rest ih => simp [seen, blocks, Elem.width_blocks, Elem.seen, ih]
  | loop contiguous loops extent body rest ih1 ih2 => simp [seen, blocks, ih1, ih2]

@[simp] theorem first_seen (b : Body) : (b.seen same).first = b.first := by
  induction b with
  | nil => rfl
  | elem e rest ih => rfl
  | loop contiguous loops extent body rest ih1 ih2 => simpa [seen, first] using ih1

end Body

theorem getElem?_of_drop {α : Type*} {l rest : List α} {d : α} {i : ℕ} (h : l.drop i = d :: rest) :
    l[i]? = some d := by
  have := congrArg (fun l => l[0]?) h
  simpa using this

theorem drop_add_of_drop {α : Type*} {l rest tail : List α} {i : ℕ} (h : l.drop i = rest ++ tail) :
    l.drop (i + rest.length) = tail := by
  rw [← List.drop_drop, h, List.drop_left]

theorem drop_succ_of_drop {α : Type*} {l rest : List α} {d : α} {i : ℕ} (h : l.drop i = d :: rest) :
    l.drop (i + 1) = rest := by
  rw [← List.drop_drop, h]
  rfl

namespace Walk

section Rep

variable (same : Elem → Bool) (desc : List Desc) (extent : ℤ)

/-- The loops around the current position: their stack entries, the array from the end of the
innermost one on, the blocks visited from there on and a bound on the turns it takes. -/
inductive Loops : List StackEntry → List Desc → List (ℤ × ℕ) → ℕ → Prop
  | whole {b : Body} {endLoop : EndLoop} {count : ℕ} {disp : ℤ}
      (hdesc : desc = b.flatten ++ [.endLoop endLoop]) (hok : (b.seen same).Ok) :
      Loops [⟨-1, count + 1, disp⟩] [.endLoop endLoop]
        (shift (disp + extent) (strided count extent (b.seen same).blocks))
        (count * (b.turns + 1) + 1)
  | loop {up : List StackEntry} {tail : List Desc} {after : List (ℤ × ℕ)} {m : ℕ}
      {index count loops : ℕ} {disp loopExtent : ℤ} {contiguous : Bool} {b rest : Body}
      (hup : Loops up tail after m)
      (hdesc : desc.drop index
        = (Body.loop contiguous loops loopExtent b rest).flatten ++ tail)
      (hok : (b.seen same).Ok) (hrest : (rest.seen same).Ok) :
      Loops (⟨index, count + 1, disp⟩ :: up)
        (.endLoop ⟨b.used + 1, width b.blocks, b.first⟩ :: (rest.flatten ++ tail))
        (shift (disp + loopExtent) (strided count loopExtent (b.seen same).blocks) ++
          (shift (topDisp up) (rest.seen same).blocks ++ after))
        (count * (b.turns + 1) + 1 + rest.turns + m)

/-- What is left of the current element or loop and of what follows it there. -/
def pending (w : Walk) : Body → List (ℤ × ℕ)
  | .nil => []
  | .elem e rest =>
    strided w.countDesc (e.seen same).extent [(w.pointer + e.disp, e.type.size)] ++
      shift w.disp (rest.seen same).blocks
  | .loop _ _ loopExtent b rest =>
    shift w.disp (strided w.countDesc loopExtent (b.seen same).blocks) ++
      shift w.disp (rest.seen same).blocks

def Current (w : Walk) : Body → Prop
  | .nil => True
  | .elem _ _ => 0 < w.countDesc
  | .loop _ loops _ _ _ => w.countDesc = loops ∧ w.pointer = w.disp

def Rep (w : Walk) (left : List (ℤ × ℕ)) (m : ℕ) : Prop :=
  ∃ items tail after n, Loops same desc extent w.stack tail after n ∧
    desc.drop w.posDesc = items.flatten ++ tail ∧ (items.seen same).Ok ∧ w.Current items ∧
    left = w.pending same items ++ after ∧ m = items.turns + n

variable {same desc extent}

theorem pending_of_fresh {w : Walk} {items : Body}
    (hcount : ∀ d rest, items.flatten = d :: rest → w.countDesc = d.count)
    (hpointer : w.pointer = w.disp) : w.pending same items = shift w.disp (items.seen same).blocks := by
  cases items with
  | nil => rfl
  | elem e rest =>
    have := hcount _ _ rfl
    simp only [pending, Body.seen, Body.blocks, shift_append, Elem.blocks, shift_strided, this,
      hpointer, Elem.seen, Desc.count, shift_cons, shift_nil]
    rw [add_comm]
  | loop contiguous loops loopExtent b rest =>
    have := hcount _ _ rfl
    simp only [pending, Body.seen, Body.blocks, shift_append, this, Desc.count]

theorem rep_enter {w : Walk} {items : Body} {tail : List Desc} {after : List (ℤ × ℕ)} {n pos : ℕ}
    (hloops : Loops same desc extent w.stack tail after n)
    (hpos : desc.drop pos = items.flatten ++ tail) (hok : (items.seen same).Ok) :
    Rep same desc extent (w.enter desc pos) (shift w.disp (items.seen same).blocks ++ after)
      (items.turns + n) := by
  have hdisp : (w.enter desc pos).disp = w.disp := rfl
  have hcount : ∀ d rest, items.flatten = d :: rest → (w.enter desc pos).countDesc = d.count := by
    intro d rest h
    rw [h, List.cons_append] at hpos
    simp [enter, getElem?_of_drop hpos]
  refine ⟨items, tail, after, n, hloops, hpos, hok, ?_, ?_, rfl⟩
  · cases items with
    | nil => trivial
    | elem e rest =>
      have := hcount _ _ rfl
      simp only [Current, this, Desc.count]
      exact hok.1
    | loop contiguous loops loopExtent b rest => exact ⟨hcount _ _ rfl, rfl⟩
  · rw [pending_of_fresh hcount rfl, hdisp]

theorem copyCount_spec {space count size : ℕ} (hsize : 0 < size) :
    ∃ k, (if space < count * size then space / size else count) = k ∧ k ≤ count ∧
      k * size ≤ space ∧ (k < count → space - k * size < size) := by
  refine ⟨_, rfl, ?_⟩
  split_ifs with h
  · have hlt : space / size < count := (Nat.div_lt_iff_lt_mul hsize).mpr h
    have hmod := Nat.mod_lt space hsize
    have hdiv := Nat.div_add_mod' space size
    exact ⟨hlt.le, Nat.div_mul_le_self _ _, fun _ => by omega⟩
  · exact ⟨le_rfl, by omega, fun h => absurd h (by omega)⟩

theorem predefinedData_spec (w : Walk) (e : Elem) :
    ∃ k moved, w.predefinedData same e
        = { w with
            pointer := w.pointer + k * (e.seen same).extent
            space := w.space - k * e.type.size
            countDesc := w.countDesc - k
            moved := w.moved ++ moved } ∧
      k ≤ w.countDesc ∧ k * e.type.size ≤ w.space ∧
      (k < w.countDesc → w.space - k * e.type.size < e.type.size) ∧
      bytes moved
        = bytes (strided k (e.seen same).extent [(w.pointer + e.disp, e.type.size)]) := by
  obtain ⟨k, hk, hle, hfit, hnext⟩ := @copyCount_spec w.space w.countDesc _ e.type.pos
  refine ⟨k, if same e then [(w.pointer + e.disp, k * e.type.size)]
    else strided k e.extent [(w.pointer + e.disp, e.type.size)], ?_, hle, hfit, hnext, ?_⟩
  · simp only [predefinedData, hk, Elem.seen]
  · simp only [Elem.seen]
    split_ifs
    · rw [bytes_strided_run]
      simp
    · rfl

theorem contiguousLoop_spec (w : Walk) (l : Loop) {e : EndLoop} (hsize : 0 < e.size) :
    ∃ k, w.contiguousLoop l e
        = { w with
            pointer := w.pointer + k * l.extent
            space := w.space - k * e.size
            countDesc := w.countDesc - k
            moved := w.moved ++
              strided k l.extent [(w.pointer + e.firstElemDisp, e.size)] } ∧
      k ≤ w.countDesc ∧ k * e.size ≤ w.space := by
  obtain ⟨k, hk, hle, hfit, -⟩ := @copyCount_spec w.space w.countDesc _ hsize
  refine ⟨k, ?_, hle, hfit⟩
  simp only [contiguousLoop, hk]

variable {w : Walk} {left : List (ℤ × ℕ)} {m : ℕ}

/-- What a turn makes of the blocks left: those it takes are moved, and the walk goes on with the
others unless none is left or the next one does not fit. -/
structure Turn (same : Elem → Bool) (desc : List Desc) (extent : ℤ) (w w' : Walk)
    (status : Status) (taken left' : List (ℤ × ℕ)) (m : ℕ) : Prop where
  moved : bytes w'.moved = bytes w.moved ++ bytes taken
  space : w'.space + width taken = w.space
  rep : status ≠ .completed →
    ∃ m', Rep same desc extent w' left' m' ∧ (status = .more → m' < m)
  full : status = .full → ∃ b r, left' = b :: r ∧ w'.space < b.2
  completed : status = .completed → left' = []

def Steps (same : Elem → Bool) (desc : List Desc) (extent : ℤ) (w : Walk) (left : List (ℤ × ℕ))
    (m : ℕ) : Prop :=
  ∃ w' status taken left', w.step same desc extent = some (w', status) ∧ left = taken ++ left' ∧
    Turn same desc extent w w' status taken left' m

theorem steps_of_more {w' : Walk} {m' : ℕ} (hstep : w.step same desc extent = some (w', .more))
    (hmoved : w'.moved = w.moved) (hspace : w'.space = w.space)
    (hrep : Rep same desc extent w' left m') (hlt : m' < m) : Steps same desc extent w left m := by
  refine ⟨w', .more, [], left, hstep, (List.nil_append left).symm, ?_⟩
  refine ⟨?_, ?_, fun _ => ⟨m', hrep, fun _ => hlt⟩, nofun, nofun⟩
  · simp [hmoved]
  · simp [hspace]

theorem step_elem {e : Elem} {rest : Body} {tail : List Desc} {after : List (ℤ × ℕ)} {n : ℕ}
    (hloops : Loops same desc extent w.stack tail after n)
    (hpos : desc.drop w.posDesc = (Body.elem e rest).flatten ++ tail)
    (hok : ((Body.elem e rest).seen same).Ok) :
    Steps same desc extent w (w.pending same (.elem e rest) ++ after)
      ((Body.elem e rest).turns + n) := by
  obtain ⟨k, moved, hw', hle, hfit, hnext, hmoved⟩ := @predefinedData_spec same w e
  have hget : desc[w.posDesc]? = some (.elem e) := getElem?_of_drop hpos
  obtain ⟨c, hc⟩ : ∃ c, w.countDesc = k + c := ⟨w.countDesc - k, by omega⟩
  have hsplit : w.pending same (.elem e rest) ++ after
      = strided k (e.seen same).extent [(w.pointer + e.disp, e.type.size)] ++
        (strided c (e.seen same).extent
          [(w.pointer + k * (e.seen same).extent + e.disp, e.type.size)] ++
        (shift w.disp (rest.seen same).blocks ++ after)) := by
    rw [pending, hc, strided_add, shift_strided]
    simp only [shift_cons, shift_nil, List.append_assoc]
    rw [show w.pointer + e.disp + k * (e.seen same).extent
      = w.pointer + k * (e.seen same).extent + e.disp by ring]
  have hwidth : width (strided k (e.seen same).extent [(w.pointer + e.disp, e.type.size)])
      = k * e.type.size := by simp
  unfold Steps step
  simp only [hget, hw']
  by_cases hzero : w.countDesc - k = 0
  · refine ⟨_, .more, _, _, by rw [if_pos hzero], hsplit, ?_⟩
    have hc0 : c = 0 := by omega
    subst hc0
    simp only [strided_zero, List.nil_append]
    refine ⟨?_, ?_, fun _ => ⟨rest.turns + n, ?_, fun _ => ?_⟩, by simp, by simp⟩
    · simp [enter, hmoved]
    · simp only [enter, hwidth]
      omega
    · exact rep_enter hloops (drop_succ_of_drop hpos) hok.2
    · simp only [Body.turns]
      omega
  · refine ⟨_, .full, _, _, by rw [if_neg hzero], hsplit, ?_⟩
    obtain ⟨c, rfl⟩ : ∃ c', c = c' + 1 := ⟨c - 1, by omega⟩
    refine ⟨?_, ?_, fun _ => ⟨(Body.elem e rest).turns + n, ?_, nofun⟩, fun _ => ?_, nofun⟩
    · simp [hmoved]
    · simp only [hwidth]
      omega
    · refine ⟨.elem e rest, tail, after, n, hloops, hpos, hok, ?_, ?_, rfl⟩
      · simp only [Current]
        omega
      · simp only [pending, hc, Nat.add_sub_cancel_left, List.append_assoc]
        rfl
    · refine ⟨_, _, rfl, ?_⟩
      simp only
      exact hnext (by omega)

theorem rep_pushLoop {contiguous : Bool} {loops count : ℕ} {loopExtent : ℤ} {b rest : Body}
    {tail : List Desc} {after : List (ℤ × ℕ)} {n : ℕ}
    (hloops : Loops same desc extent w.stack tail after n)
    (hpos : desc.drop w.posDesc
      = (Body.loop contiguous loops loopExtent b rest).flatten ++ tail)
    (hok : ((Body.loop contiguous loops loopExtent b rest).seen same).Ok)
    (hcount : w.countDesc = count + 1) (hle : count + 1 ≤ loops) (localDisp : ℤ) :
    ∃ m', Rep same desc extent (w.pushLoop desc localDisp)
        (shift (w.disp + localDisp) (strided (count + 1) loopExtent (b.seen same).blocks) ++
          (shift w.disp (rest.seen same).blocks ++ after)) m' ∧
      m' < (Body.loop contiguous loops loopExtent b rest).turns + n := by
  have hbody : desc.drop (w.posDesc + 1) = b.flatten ++
      (.endLoop ⟨b.used + 1, width b.blocks, b.first⟩ :: (rest.flatten ++ tail)) := by
    rw [Body.flatten_loop_append] at hpos
    exact drop_succ_of_drop hpos
  have hrep := @rep_enter same desc extent
    { w with stack := ⟨w.posDesc, count + 1, w.disp + localDisp⟩ :: w.stack } _ _ _ _ _
    (.loop hloops hpos hok.2.1 hok.2.2) hbody hok.2.1
  rw [strided_succ, shift_append, shift_shift, List.append_assoc, add_comm loopExtent]
  rw [← hcount] at hrep
  refine ⟨_, hrep, ?_⟩
  have := Nat.mul_le_mul_right (b.turns + 1) hle
  rw [Nat.succ_mul] at this
  simp only [Body.turns]
  omega

theorem step_loop {contiguous : Bool} {loops : ℕ} {loopExtent : ℤ} {b rest : Body}
    {tail : List Desc} {after : List (ℤ × ℕ)} {n : ℕ}
    (hloops : Loops same desc extent w.stack tail after n)
    (hpos : desc.drop w.posDesc
      = (Body.loop contiguous loops loopExtent b rest).flatten ++ tail)
    (hok : ((Body.loop contiguous loops loopExtent b rest).seen same).Ok)
    (hcurrent : w.Current (.loop contiguous loops loopExtent b rest)) :
    Steps same desc extent w (w.pending same (.loop contiguous loops loopExtent b rest) ++ after)
      ((Body.loop contiguous loops loopExtent b rest).turns + n) := by
  obtain ⟨hcount, hpointer⟩ := hcurrent
  obtain ⟨⟨hpos', hne, hrun⟩, hbody, hrest⟩ := hok
  have hget : desc[w.posDesc]? = some (.loop ⟨contiguous, loops, b.used + 1, loopExtent⟩) :=
    getElem?_of_drop hpos
  have hend : desc.drop (w.posDesc + (b.used + 1))
      = .endLoop ⟨b.used + 1, width b.blocks, b.first⟩ :: (rest.flatten ++ tail) := by
    rw [Body.flatten_loop_append] at hpos
    have := drop_add_of_drop (drop_succ_of_drop hpos)
    rwa [b.length_flatten, add_assoc, add_comm 1] at this
  cases contiguous with
  | false =>
    obtain ⟨c, hc⟩ : ∃ c, loops = c + 1 := ⟨loops - 1, by omega⟩
    obtain ⟨m', hrep, hm'⟩ := rep_pushLoop hloops hpos ⟨⟨hpos', hne, hrun⟩, hbody, hrest⟩
      (hcount.trans hc) hc.ge 0
    have hstep : w.step same desc extent = some (w.pushLoop desc 0, .more) := by
      simp [step, hget]
    rw [pending, hcount, hc, List.append_assoc]
    rw [add_zero] at hrep
    rw [hc] at hm'
    exact steps_of_more hstep rfl rfl hrep hm'
  | true =>
    have hsize : 0 < width b.blocks := by
      have := Body.width_pos hbody hne
      rwa [Body.width_seen] at this
    obtain ⟨k, hw', hle, hfit⟩ := contiguousLoop_spec w ⟨true, loops, b.used + 1, loopExtent⟩
      (show 0 < (⟨b.used + 1, width b.blocks, b.first⟩ : EndLoop).size from hsize)
    dsimp only at hw' hfit
    unfold Steps step
    simp only [hget, getElem?_of_drop hend, hw', if_true]
    obtain ⟨c, hc⟩ : ∃ c, w.countDesc = k + c := ⟨w.countDesc - k, by omega⟩
    have hsplit : w.pending same (.loop true loops loopExtent b rest) ++ after
        = shift w.disp (strided k loopExtent (b.seen same).blocks) ++
          (shift (w.disp + k * loopExtent) (strided c loopExtent (b.seen same).blocks) ++
            (shift w.disp (rest.seen same).blocks ++ after)) := by
      rw [pending, hc, strided_add, shift_append, shift_shift, List.append_assoc, List.append_assoc,
        add_comm (k * loopExtent)]
    have hmoved : bytes (strided k loopExtent [(w.pointer + b.first, width b.blocks)])
        = bytes (shift w.disp (strided k loopExtent (b.seen same).blocks)) := by
      rw [shift_strided]
      apply bytes_strided_congr
      rw [bytes_shift, hrun rfl, map_add_run, hpointer, Body.width_seen, Body.first_seen, add_comm]
      simp
    by_cases hzero : w.countDesc - k = 0
    · refine ⟨_, .more, _, _, by rw [if_pos hzero], hsplit, ?_⟩
      have hc0 : c = 0 := by omega
      subst hc0
      simp only [strided_zero, shift_nil, List.nil_append]
      refine ⟨?_, ?_, fun _ => ⟨rest.turns + n, ?_, fun _ => ?_⟩, by simp, by simp⟩
      · simp [enter, hmoved]
      · simp only [enter, width_shift, width_strided, Body.width_seen]
        omega
      · exact rep_enter hloops (drop_succ_of_drop hend) hrest
      · simp only [Body.turns]
        omega
    · refine ⟨_, .more, _, _, by rw [if_neg hzero], hsplit, ?_⟩
      obtain ⟨c, rfl⟩ : ∃ c', c = c' + 1 := ⟨c - 1, by omega⟩
      obtain ⟨m', hrep, hm'⟩ := @rep_pushLoop same desc extent
        { w with
          pointer := w.pointer + k * loopExtent
          space := w.space - k * width b.blocks
          countDesc := w.countDesc - k
          moved := w.moved ++ strided k loopExtent [(w.pointer + b.first, width b.blocks)] }
        true loops c loopExtent b rest tail after n hloops hpos ⟨⟨hpos', hne, hrun⟩, hbody, hrest⟩
        (show w.countDesc - k = c + 1 by omega) (by omega)
        (w.pointer + k * loopExtent - w.pointer)
      refine ⟨?_, ?_, fun _ => ⟨m', ?_, fun _ => hm'⟩, by simp, by simp⟩
      · simp [pushLoop, enter, hmoved]
      · simp only [pushLoop, enter, width_shift, width_strided, Body.width_seen]
        omega
      · rw [add_sub_cancel_left] at hrep ⊢
        exact hrep

theorem step_endLoop {tail : List Desc} {after : List (ℤ × ℕ)} {n : ℕ}
    (hloops : Loops same desc extent w.stack tail after n) (hpos : desc.drop w.posDesc = tail) :
    Steps same desc extent w after n := by
  generalize hstack : w.stack = stack at hloops
  cases hloops with
  | @whole b endLoop count disp hdesc hok =>
    have hget := getElem?_of_drop hpos
    cases count with
    | zero =>
      have hstep : w.step same desc extent
          = some ({ w with stack := [⟨-1, 0, disp⟩] }, .completed) := by
        simp [step, hget, hstack]
      exact ⟨_, .completed, [], [], hstep, rfl, by simp, by simp, by simp, nofun, fun _ => rfl⟩
    | succ count =>
      have hstep : w.step same desc extent
          = some (enter desc { w with stack := [⟨-1, count + 1, disp + extent⟩] } 0, .more) := by
        simp [step, hget, hstack, loopExtent]
      have hback : desc.drop 0 = b.flatten ++ [.endLoop endLoop] := hdesc
      have hrep := @rep_enter same desc extent
        { w with stack := [⟨-1, count + 1, disp + extent⟩] } _ _ _ _ _ (.whole hdesc hok) hback hok
      rw [strided_succ, shift_append, shift_shift, add_comm extent]
      refine steps_of_more hstep rfl rfl hrep ?_
      rw [Nat.succ_mul]
      omega
  | @loop up tail after m index count loops disp loopExtent contiguous b rest hup hdesc hok hrest =>
    have hget := getElem?_of_drop hpos
    cases count with
    | zero =>
      have hne : up ≠ [] := by
        rintro rfl
        cases hup
      have hstep : w.step same desc extent
          = some (enter desc { w with stack := up } (w.posDesc + 1), .more) := by
        simp [step, hget, hstack, hne]
      have hrep := @rep_enter same desc extent { w with stack := up } _ _ _ _ _ hup
        (drop_succ_of_drop hpos) hrest
      rw [strided_zero, shift_nil, List.nil_append]
      refine steps_of_more hstep rfl rfl hrep ?_
      omega
    | succ count =>
      have hloop : desc[index]? = some (.loop ⟨contiguous, loops, b.used + 1, loopExtent⟩) :=
        getElem?_of_drop hdesc
      have hext : Walk.loopExtent desc extent index = loopExtent := by
        simp [Walk.loopExtent, hloop]
      have hstep : w.step same desc extent
          = some (enter desc { w with stack := ⟨index, count + 1, disp + loopExtent⟩ :: up }
            (index + 1), .more) := by
        simp only [step, hget, hstack, hext]
        rfl
      have hback := hdesc
      rw [Body.flatten_loop_append] at hback
      have hrep := @rep_enter same desc extent
        { w with stack := ⟨index, count + 1, disp + loopExtent⟩ :: up } _ _ _ _ _
        (.loop hup hdesc hok hrest) (drop_succ_of_drop hback) hok
      rw [strided_succ, shift_append, shift_shift, List.append_assoc, add_comm loopExtent]
      refine steps_of_more hstep rfl rfl hrep ?_
      rw [Nat.succ_mul]
      omega

theorem Rep.step (h : Rep same desc extent w left m) : Steps same desc extent w left m := by
  obtain ⟨items, tail, after, n, hloops, hpos, hok, hcurrent, rfl, rfl⟩ := h
  cases items with
  | nil =>
    rw [Body.turns, zero_add]
    exact step_endLoop hloops hpos
  | elem e rest => exact step_elem hloops hpos hok
  | loop contiguous loops loopExtent b rest => exact step_loop hloops hpos hok hcurrent

theorem Rep.run {fuel : ℕ} (h : Rep same desc extent w left m) (hfuel : m < fuel) :
    ∃ w' status left', w.run same desc extent fuel = some (w', status) ∧
      left = fitting w.space left ++ left' ∧
      bytes w'.moved = bytes w.moved ++ bytes (fitting w.space left) ∧
      w'.space + width (fitting w.space left) = w.space ∧
      (status = .completed ↔ left' = []) ∧
      (left' ≠ [] → ∃ m', Rep same desc extent w' left' m') := by
  induction fuel generalizing w left m with
  | zero => omega
  | succ fuel ih =>
    obtain ⟨w', status, taken, left', hstep, rfl, hturn⟩ := h.step
    unfold Walk.run
    rw [hstep]
    have hspace := hturn.space
    cases status with
    | more =>
      obtain ⟨m', hrep, hm'⟩ := hturn.rep (by simp)
      obtain ⟨w'', status, rest, hrun, hleft, hmoved, hspace', hdone, hrest⟩ :=
        ih hrep (lt_of_lt_of_le (hm' rfl) (by omega))
      have hfit : fitting w.space (taken ++ left') = taken ++ fitting w'.space left' := by
        rw [fitting_append (by omega), show w.space - width taken = w'.space by omega]
      refine ⟨w'', status, rest, hrun, ?_, ?_, ?_, hdone, hrest⟩
      · rw [hfit, List.append_assoc, ← hleft]
      · rw [hfit, bytes_append, ← List.append_assoc, ← hturn.moved, hmoved]
      · rw [hfit, width_append]
        omega
    | full =>
      obtain ⟨m', hrep, -⟩ := hturn.rep (by simp)
      obtain ⟨b, r, rfl, hlt⟩ := hturn.full rfl
      have hfit := @eq_fitting taken (b :: r) w.space (by omega) (.inr ⟨b, r, rfl, by omega⟩)
      rw [← hfit]
      exact ⟨w', .full, b :: r, rfl, rfl, hturn.moved, hspace, by simp, fun _ => ⟨m', hrep⟩⟩
    | completed =>
      obtain rfl := hturn.completed rfl
      have hfit := @eq_fitting taken [] w.space (by omega) (.inl rfl)
      rw [← hfit]
      exact ⟨w', .completed, [], rfl, rfl, hturn.moved, hspace, by simp, by simp⟩

end Rep

end Walk

end OpenMPI.Ddt
