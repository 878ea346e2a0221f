import OpenMPI.Ddt.Datatype
import OpenMPI.Proofs.Ddt.Commit

/-!
# What the constructors build

Every datatype has a nested description of as many bytes as it says, which is one run of bytes from
its true lower bound on if it is flagged contiguous (`Datatype.Built.sound`).
-/

namespace OpenMPI.Ddt

open Lib List Nat

namespace Body

def move (disp : ℤ) : Body → Body
  | nil => nil
  | elem e rest => elem { e with disp := e.disp + disp } (rest.move disp)
  | loop contiguous loops extent body rest =>
    loop contiguous loops extent (body.move disp) (rest.move disp)

variable {disp : ℤ}

theorem move_ne_nil {b : Body} : b.move disp ≠ nil ↔ b ≠ nil := by
  cases b <;> simp [move]

@[simp] theorem used_move (b : Body) : (b.move disp).used = b.used := by
  induction b with
  | nil => rfl
  | elem e rest ih => simp [move, used, ih]
  | loop contiguous loops extent body rest ih1 ih2 => simp [move, used, ih1, ih2]

theorem blocks_move (b : Body) : (b.move disp).blocks = shift disp b.blocks := by
  induction b with
  | nil => rfl
  | elem e rest ih => simp [move, blocks, ih, Elem.blocks, shift_strided]
  | loop contiguous loops extent body rest ih1 ih2 => simp [move, blocks, ih1, ih2, shift_strided]

theorem first_move {b : Body} (hok : b.Ok) (h : b ≠ nil) : (b.move disp).first = b.first + disp := by
  induction b with
  | nil => exact absurd rfl h
  | elem e rest _ => rfl
  | loop contiguous loops extent body rest ih _ =>
    obtain ⟨⟨-, hne, -⟩, hbody, -⟩ := hok
    exact ih hbody hne

theorem flatten_move {b : Body} (hok : b.Ok) :
    (b.move disp).flatten = b.flatten.map (Desc.move disp) := by
  induction b with
  | nil => rfl
  | elem e rest ih => simp [move, flatten, ih hok.2, Desc.move]
  | loop contiguous loops extent body rest ih1 ih2 =>
    obtain ⟨⟨-, hne, -⟩, hbody, hrest⟩ := hok
    simp [move, flatten, ih1 hbody, ih2 hrest, Desc.move, blocks_move, first_move hbody hne]

theorem ok_move {b : Body} (hok : b.Ok) : (b.move disp).Ok := by
  induction b with
  | nil => trivial
  | elem e rest ih => exact ⟨hok.1, ih hok.2⟩
  | loop contiguous loops extent body rest ih1 ih2 =>
    obtain ⟨⟨hloops, hne, hrun⟩, hbody, hrest⟩ := hok
    refine ⟨⟨hloops, move_ne_nil.mpr hne, fun h => ?_⟩, ih1 hbody, ih2 hrest⟩
    rw [blocks_move, bytes_shift, hrun h, map_add_run, width_shift, first_move hbody hne]

theorem repeats_move {b : Body} (h : b.Repeats) : (b.move disp).Repeats := by
  induction b with
  | nil => trivial
  | elem e rest ih => exact ih h
  | loop contiguous loops extent body rest ih1 ih2 => exact ⟨h.1, ih1 h.2.1, ih2 h.2.2⟩

theorem ok_append {a b : Body} : (a ++ b).Ok ↔ a.Ok ∧ b.Ok := by
  induction a with
  | nil => simp [Ok]
  | elem e rest ih => simp [Ok, ih, and_assoc]
  | loop contiguous loops extent body rest _ ih => simp only [loop_append, Ok, ih, and_assoc]

theorem repeats_append {a b : Body} : (a ++ b).Repeats ↔ a.Repeats ∧ b.Repeats := by
  induction a with
  | nil => simp [Repeats]
  | elem e rest ih => simp [Repeats, ih]
  | loop contiguous loops extent body rest _ ih => simp only [loop_append, Repeats, ih, and_assoc]

theorem exists_bytes_eq {b : Body} (hok : b.Ok) (h : b ≠ nil) :
    ∃ l, bytes b.blocks = b.first :: l := by
  induction b with
  | nil => exact absurd rfl h
  | elem e rest _ =>
    obtain ⟨n, hn⟩ := exists_eq_succ_of_ne_zero hok.1.ne'
    obtain ⟨k, hk⟩ := exists_eq_succ_of_ne_zero e.type.pos.ne'
    refine ⟨?_, ?_⟩
    rotate_left
    · rw [blocks_elem, Elem.blocks, hn, succ_eq_add_one, strided_succ, bytes_append,
        bytes_append, bytes_cons, hk, run, range_succ_eq_map]
      simp only [map_cons, cons_append, Nat.cast_zero, add_zero]
      rfl
  | loop contiguous loops extent body rest ih _ =>
    obtain ⟨⟨hloops, hne, -⟩, hbody, -⟩ := hok
    obtain ⟨n, rfl⟩ := exists_eq_succ_of_ne_zero hloops.ne'
    obtain ⟨l, hl⟩ := ih hbody hne
    refine ⟨?_, ?_⟩
    rotate_left
    · rw [blocks_loop, succ_eq_add_one, strided_succ, bytes_append, bytes_append, hl]
      rfl

theorem first_eq_of_run {b : Body} (hok : b.Ok) (h : b ≠ nil) {a : ℤ} {n : ℕ}
    (hrun : bytes b.blocks = run a n) : b.first = a := by
  obtain ⟨l, hl⟩ := exists_bytes_eq hok h
  rw [hl] at hrun
  cases n with
  | zero => simp at hrun
  | succ n =>
    rw [run, range_succ_eq_map] at hrun
    simp only [map_cons, List.cons.injEq, Nat.cast_zero, add_zero] at hrun
    exact hrun.1

end Body

namespace Datatype

structure Describes (b : Body) (desc : List Desc) (size : ℕ) : Prop where
  desc_eq : desc = b.flatten
  ok : b.Ok
  repeats : b.Repeats
  width_eq : width b.blocks = size

structure Sound (d : Datatype) : Prop where
  described : ∃ b, Describes b d.desc d.size ∧
    (d.contiguous = true → 0 < d.size → bytes b.blocks = run d.trueLb d.size)
  trueUb : d.contiguous = true → 0 < d.size → d.trueUb = d.trueLb + d.size
  nbElems : d.nbElems = 0 → d.size = 0
  predefined : d.predefined = true → 0 < d.size → d.trueLb = 0
  committed : d.committed = true → d.optDesc = d.optimized

variable {base add d : Datatype} {count : ℕ} {disp extent : ℤ}

theorem Describes.ne_nil {b : Body} {desc : List Desc} {size : ℕ} (h : Describes b desc size)
    (hsize : 0 < size) : b ≠ .nil := by
  rintro rfl
  have := h.width_eq
  simp at this
  omega

theorem describes_addedLoop {b : Body} {desc : List Desc} (h : Describes b desc add.size)
    (hsize : 0 < add.size) (hcount : 0 < count)
    (hrun : add.contiguous = true → bytes b.blocks = run b.first add.size) :
    ∃ b', Describes b' (addedDesc.addedLoop add count extent desc) (count * add.size) ∧
      (add.contiguous = true → (add.size : ℤ) = extent ∨ count < 2 →
        bytes b'.blocks = run b.first (count * add.size)) := by
  have hne := h.ne_nil hsize
  unfold addedDesc.addedLoop
  by_cases hone : count = 1
  · subst hone
    refine ⟨b, ?_, fun hcontiguous _ => ?_⟩
    · rw [if_neg (by simp), one_mul]
      exact h
    · rw [hrun hcontiguous, one_mul]
  · rw [if_pos hone]
    refine ⟨.loop add.contiguous count extent b .nil, ⟨?_, ?_, ?_, ?_⟩, ?_⟩
    · simp only [Body.flatten, h.desc_eq, Body.length_flatten, h.width_eq]
      have := Body.firstElemDisp_flatten h.ok hne []
      rw [List.append_nil] at this
      rw [this]
    · exact ⟨⟨hcount, hne, fun hcontiguous => by rw [hrun hcontiguous, h.width_eq]⟩, h.ok, trivial⟩
    · exact ⟨by omega, h.repeats, trivial⟩
    · simp [h.width_eq]
    · intro hcontiguous hextent
      have hextent : extent = add.size := by
        rcases hextent with h | h
        · exact h.symm
        · omega
      rw [Body.blocks_loop, Body.blocks_nil, List.append_nil, hextent, ← bytes_strided_run]
      apply bytes_strided_congr
      rw [hrun hcontiguous]
      simp

theorem Describes.move {b : Body} {desc : List Desc} {size : ℕ} (h : Describes b desc size) :
    Describes (b.move disp) (desc.map (Desc.move disp)) size :=
  ⟨by rw [h.desc_eq, Body.flatten_move h.ok], Body.ok_move h.ok, Body.repeats_move h.repeats,
    by rw [Body.blocks_move, width_shift, h.width_eq]⟩

theorem describes_merged {e : Elem} {desc : List Desc}
    (h : Describes (.elem e .nil) desc add.size) (hcount : 0 < count) (hextent : extent = e.extent)
    (hrun : add.contiguous = true →
      bytes (Body.elem e .nil).blocks = run add.trueLb add.size) :
    ∃ b, Describes b [.elem { e with count := e.count * count, disp := e.disp + disp }]
        (count * add.size) ∧
      (add.contiguous = true → (add.size : ℤ) = extent ∨ count < 2 →
        bytes b.blocks = run (disp + add.trueLb) (count * add.size)) := by
  have hwidth : e.count * e.type.size = add.size := by
    have := h.width_eq
    simpa [Elem.width_blocks] using this
  refine ⟨.elem { e with count := e.count * count, disp := e.disp + disp } .nil,
    ⟨rfl, ⟨mul_pos h.ok.1 hcount, trivial⟩, trivial, ?_⟩, fun hcontiguous hone => ?_⟩
  · simp only [Body.blocks_elem, Body.blocks_nil, List.append_nil, Elem.width_blocks, ← hwidth]
    ring
  · have hbytes := hrun hcontiguous
    have hdisp : e.disp = add.trueLb := Body.first_eq_of_run h.ok (by simp) hbytes
    have hspread : e.spread = false := by
      by_contra hspread
      refine Elem.bytes_of_spread (Bool.not_eq_false _ ▸ hspread) [] 0 ?_
      rw [add_zero, hwidth, hdisp]
      simpa using hbytes
    rw [Body.blocks_elem, Body.blocks_nil, List.append_nil, Elem.bytes_of_not_spread]
    · rw [add_comm disp, hdisp, ← hwidth]
      congr 1
      ring
    · simp only [Elem.spread, decide_eq_false_iff_not] at hspread ⊢
      rintro ⟨htwo, hne⟩
      apply hspread
      refine ⟨?_, hne⟩
      have hpos := h.ok.1
      rcases hone with hone | hone
      · -- a single block is as long as the datatype
        by_contra hlt
        have hcount1 : e.count = 1 := by omega
        rw [hcount1, one_mul] at hwidth
        apply hne
        rw [← hextent, ← hone, hwidth]
      · have : count = 1 := by omega
        rwa [this, mul_one] at htwo

theorem Sound.added (hadd : Sound add) (hsize : 0 < add.size) (hcount : 0 < count) :
    ∃ b, Describes b (addedDesc add count disp extent) (count * add.size) ∧
      (add.contiguous = true → (add.size : ℤ) = extent ∨ count < 2 →
        bytes b.blocks = run (disp + add.trueLb) (count * add.size)) := by
  unfold addedDesc
  by_cases hpredefined : (add.predefined && add.data) = true
  · rw [if_pos hpredefined, dif_pos hsize]
    rw [Bool.and_eq_true] at hpredefined
    rw [hadd.predefined hpredefined.1 hsize, add_zero]
    dsimp only
    split_ifs with h
    · refine ⟨.loop false count extent
        (.elem ⟨true, ⟨add.id, add.size, hsize⟩, 1, add.size, disp⟩ .nil) .nil, ⟨?_, ?_, ?_, ?_⟩, ?_⟩
      · simp [Body.flatten, Body.used, Body.first, Elem.width_blocks]
      · exact ⟨⟨hcount, by simp, by simp⟩, ⟨by simp, trivial⟩, trivial⟩
      · exact ⟨h.2, trivial, trivial⟩
      · simp [Elem.width_blocks]
      · intro _ hextent
        have := h.1
        omega
    · refine ⟨.elem ⟨add.contiguous, ⟨add.id, add.size, hsize⟩, count, extent, disp⟩ .nil,
        ⟨rfl, ⟨hcount, trivial⟩, trivial, by simp [Elem.width_blocks]⟩, fun _ _ => ?_⟩
      rw [Body.blocks_elem, Body.blocks_nil, List.append_nil]
      apply Elem.bytes_of_not_spread
      simp only [Elem.spread, decide_eq_false_iff_not]
      omega
  · rw [if_neg hpredefined]
    obtain ⟨b, hb, hrun⟩ := hadd.described
    have hne := hb.ne_nil hsize
    have hfirst : add.contiguous = true → b.first = add.trueLb := fun hcontiguous =>
      Body.first_eq_of_run hb.ok hne (hrun hcontiguous hsize)
    have hmoved : add.contiguous = true →
        bytes (b.move disp).blocks = run (b.move disp).first add.size := by
      intro hcontiguous
      rw [Body.blocks_move, bytes_shift, hrun hcontiguous hsize, map_add_run,
        Body.first_move hb.ok hne, hfirst hcontiguous]
    have hloop := @describes_addedLoop add count extent _ _ (@Describes.move disp _ _ _ hb) hsize
      hcount hmoved
    obtain ⟨b', hb', hrun'⟩ := hloop
    have hgeneral : ∃ b, Describes b
        (addedDesc.addedLoop add count extent (add.desc.map (Desc.move disp)))
        (count * add.size) ∧
      (add.contiguous = true → (add.size : ℤ) = extent ∨ count < 2 →
        bytes b.blocks = run (disp + add.trueLb) (count * add.size)) := by
      refine ⟨b', hb', fun hcontiguous hextent => ?_⟩
      rw [hrun' hcontiguous hextent, Body.first_move hb.ok hne, hfirst hcontiguous, add_comm]
    split
    · next e he =>
      split_ifs with h
      · have hb1 : b = .elem e .nil := by
          have := hb.desc_eq.symm.trans he
          cases b with
          | nil => simp [Body.flatten] at this
          | loop contiguous loops extent' body rest => simp [Body.flatten] at this
          | elem e' rest =>
            cases rest <;> simp_all [Body.flatten]
        subst hb1
        exact describes_merged hb hcount h.2 (fun hcontiguous => hrun hcontiguous hsize)
      · simpa [he, Desc.move] using hgeneral
    · exact hgeneral

theorem Sound.of_data (hd : Sound d) {d' : Datatype} (hdesc : d'.desc = d.desc)
    (hsize : d'.size = d.size) (hcontiguous : d'.contiguous = d.contiguous)
    (htrueLb : d'.trueLb = d.trueLb) (htrueUb : d'.trueUb = d.trueUb)
    (hnbElems : d'.nbElems = d.nbElems)
    (hpredefined : d'.predefined = true → 0 < d'.size → d'.trueLb = 0)
    (hcommitted : d'.committed = true → d'.optDesc = d'.optimized) : Sound d' := by
  refine ⟨?_, ?_, ?_, hpredefined, hcommitted⟩
  · rw [hdesc, hsize, hcontiguous, htrueLb]
    exact hd.described
  · rw [hsize, hcontiguous, htrueLb, htrueUb]
    exact hd.trueUb
  · rw [hsize, hnbElems]
    exact hd.nbElems

theorem addedTrueBounds_eq (hcount : 0 < count) (hsize : 0 < add.size)
    (htrueUb : add.trueUb = add.trueLb + add.size) (hextent : (add.size : ℤ) = extent ∨ count < 2) :
    addedTrueBounds add count disp extent
      = (disp + add.trueLb, disp + add.trueLb + count * add.size) := by
  obtain ⟨n, rfl⟩ := exists_eq_succ_of_ne_zero hcount.ne'
  have hbounds : lbUbCont (n + 1) disp add.lb add.ub extent
      = (disp + add.lb, disp + n * add.size + add.ub) := by
    simp only [lbUbCont, succ_ne_zero, if_false]
    push_cast
    rw [add_sub_cancel_right]
    rcases Nat.eq_zero_or_pos n with rfl | hn
    · simp
    · have hextent : extent = add.size := by
        rcases hextent with h | h
        · exact h.symm
        · omega
      have hpos : 0 < extent * n := by
        rw [hextent]
        positivity
      rw [if_pos (by omega), hextent]
      simp only [Prod.mk.injEq, true_and]
      ring
  have hle : ¬ disp + add.trueLb > disp + add.trueLb + (n + 1) * add.size := by
    have : (0 : ℤ) ≤ (n + 1) * add.size := by positivity
    omega
  simp only [addedTrueBounds, succ_eq_add_one, hbounds, htrueUb]
  rw [show disp + add.lb - (add.lb - add.trueLb) = disp + add.trueLb by ring,
    show disp + n * add.size + add.ub - (add.ub - (add.trueLb + add.size))
      = disp + add.trueLb + (n + 1) * add.size by ring, if_neg hle]
  push_cast
  rfl

theorem Sound.addData (hbase : Sound base) (hopen : base.predefined = false)
    (huncommitted : base.committed = false) (hadd : Sound add) (hsize : 0 < add.size)
    (hcount : 0 < count) : Sound (base.addData add count disp extent) := by
  obtain ⟨b, hb, hrun⟩ := hbase.described
  obtain ⟨b', hb', hrun'⟩ := @Sound.added add count disp extent hadd hsize hcount
  have hbytes := mul_pos hcount hsize
  -- what the flag says where it is set
  have hflag : (base.addData add count disp extent).contiguous = true →
      (base.addData add count disp extent).trueUb = (base.addData add count disp extent).trueLb +
          (base.addData add count disp extent).size ∧
        bytes (b ++ b').blocks = run (base.addData add count disp extent).trueLb
          (base.addData add count disp extent).size := by
    intro hcontiguous
    simp only [Datatype.addData, Bool.and_eq_true, decide_eq_true_eq] at hcontiguous ⊢
    obtain ⟨⟨⟨hc1, hc2⟩, hnext⟩, hextent⟩ := hcontiguous
    rw [addedTrueBounds_eq hcount hsize (hadd.trueUb hc2 hsize) hextent]
    rw [Body.blocks_append, bytes_append, hrun' hc2 hextent]
    dsimp only
    rcases Nat.eq_zero_or_pos base.size with hzero | hpos
    · have hnil : bytes b.blocks = [] := by
        rw [← length_eq_zero_iff, length_bytes, hb.width_eq, hzero]
      rw [if_pos hzero, if_pos hzero, hzero, hnil, zero_add]
      push_cast
      exact ⟨rfl, rfl⟩
    · have hnb : base.nbElems ≠ 0 := fun h => hpos.ne' (hbase.nbElems h)
      rw [if_neg hnb, hbase.trueUb hc1 hpos] at hnext
      have : (0 : ℤ) ≤ count * add.size := by positivity
      rw [if_neg hpos.ne', if_neg hpos.ne', hnext, hbase.trueUb hc1 hpos, hrun hc1 hpos, run_add,
        min_eq_right (by omega), max_eq_left (by omega)]
      push_cast
      exact ⟨by ring, rfl⟩
  refine ⟨⟨b ++ b', ⟨?_, ?_, ?_, ?_⟩, fun hcontiguous _ => (hflag hcontiguous).2⟩,
    fun hcontiguous _ => (hflag hcontiguous).1, ?_, ?_, ?_⟩
  · simp [Datatype.addData, hb.desc_eq, hb'.desc_eq]
  · exact Body.ok_append.mpr ⟨hb.ok, hb'.ok⟩
  · exact Body.repeats_append.mpr ⟨hb.repeats, hb'.repeats⟩
  · simp [Datatype.addData, hb.width_eq, hb'.width_eq]
  · intro hnb
    simp only [Datatype.addData] at hnb ⊢
    have : add.nbElems ≠ 0 := fun h => hsize.ne' (hadd.nbElems h)
    have := mul_pos hcount (Nat.pos_of_ne_zero this)
    omega
  · intro hpredefined
    simp [Datatype.addData, hopen] at hpredefined
  · intro hcommitted
    simp [Datatype.addData, huncommitted] at hcommitted

theorem Sound.ddtAdd (hbase : Sound base) (hopen : base.committed = false ∧ base.predefined = false)
    (hadd : Sound add) : Sound (base.ddtAdd add count disp extent) := by
  have hbounds (extent : ℤ) : Sound (base.addBounds add count disp extent) :=
    hbase.of_data rfl rfl rfl rfl rfl rfl
      (fun h => by simp [addBounds, hopen.2] at h) (fun h => by simp [addBounds, hopen.1] at h)
  unfold Datatype.ddtAdd
  dsimp only
  split_ifs with hlb hub hmany hext hempty hempty
  · exact hbase.of_data rfl rfl rfl rfl rfl rfl
      (fun h => by simp [addLb, hopen.2] at h) (fun h => by simp [addLb, hopen.1] at h)
  · exact hbase.of_data rfl rfl rfl rfl rfl rfl
      (fun h => by simp [addUb, hopen.2] at h) (fun h => by simp [addUb, hopen.1] at h)
  · exact hbase
  · exact hbounds _
  · exact hbounds _
  · exact (hbounds _).addData hopen.2 hopen.1 hadd (by omega) (by omega)
  · exact (hbounds _).addData hopen.2 hopen.1 hadd (by omega) (by omega)

theorem sound_basic (t : Basic) (align : ℕ) : Sound (basic t align) := by
  refine ⟨⟨.elem ⟨true, t, 1, t.size, 0⟩ .nil, ⟨rfl, ⟨by simp, trivial⟩, trivial, ?_⟩, ?_⟩, ?_, ?_,
    fun _ _ => rfl, fun _ => ?_⟩
  · simp [basic, Elem.width_blocks]
  · simp [basic, Elem.blocks]
  · simp [basic]
  · simp [basic]
  · have hone : int32 (1 : ℤ) = 1 := rfl
    by_cases h : some t = some dtByte <;>
      simp [basic, optimized, fakeEnd, optimizeShort, optimizeGo, Opt.elem, Opt.endLoop,
        Pending.Continues, Pending.bytes, Pending.createElem, firstElemDisp, h, hone] <;>
      simp_all [uint32]

theorem sound_empty : Sound ddtCreate :=
  ⟨⟨.nil, ⟨rfl, trivial, trivial, rfl⟩, fun _ h => absurd h (by decide)⟩,
    fun _ h => absurd h (by decide), fun _ => rfl, fun h => absurd h (by decide),
    fun h => absurd h (by decide)⟩

theorem sound_marker (id : ℕ) : Sound (marker id) :=
  ⟨⟨.nil, ⟨rfl, trivial, trivial, rfl⟩, fun h => absurd h (by simp [marker])⟩,
    fun h => absurd h (by simp [marker]), fun _ => rfl, fun _ _ => rfl,
    fun h => absurd h (by simp [marker])⟩

theorem Sound.duplicate (hd : Sound d) : Sound d.ddtDuplicate :=
  hd.of_data rfl rfl rfl rfl rfl rfl (fun h => by simp [ddtDuplicate] at h) hd.committed

theorem Sound.resized (hd : Sound d) (lb extent : ℤ) : Sound (d.ddtCreateResized lb extent) :=
  hd.of_data rfl rfl rfl rfl rfl rfl (fun h => by simp [ddtCreateResized, ddtDuplicate] at h)
    hd.committed

theorem Sound.commit (hd : Sound d) : Sound d.ddtCommit := by
  unfold ddtCommit
  split_ifs
  · exact hd
  · exact hd.of_data rfl rfl rfl rfl rfl rfl hd.predefined fun _ => rfl

theorem Sound.predefine (hd : Sound d) (id : ℕ) (ub : ℤ) (huncommitted : d.committed = false)
    (hlb : d.trueLb = 0) : Sound (d.predefine id ub) := by
  unfold Datatype.predefine ddtCommit
  rw [if_neg (by simp [huncommitted])]
  exact hd.of_data rfl rfl rfl rfl rfl rfl (fun _ _ => hlb) fun _ => rfl

theorem Built.sound (h : Built d) : Sound d := by
  induction h with
  | basic => exact sound_basic _ _
  | marker => exact sound_marker _
  | create => exact sound_empty
  | add _ hopen _ hbase hadd => exact hbase.ddtAdd hopen hadd
  | duplicate _ hold => exact hold.duplicate
  | resized _ hold => exact hold.resized _ _
  | commit _ hd => exact hd.commit
  | predefine _ hcommitted _ hlb _ hd => exact hd.predefine _ _ hcommitted hlb

theorem Describes.eq_nil {b : Body} {desc : List Desc} (h : Describes b desc 0) : b = .nil := by
  by_contra hne
  have := Body.width_pos h.ok hne
  have := h.width_eq
  omega

theorem Describes.optimized {b : Body} (h : Describes b d.desc d.size) (hsize : 0 < d.size)
    (hfit : d.size < 2 ^ 31) :
    d.optimized = b.optimize.flatten ++ [.endLoop ⟨b.optimize.used, d.size, b.first⟩] := by
  have hne := h.ne_nil hsize
  have hdesc : d.desc ≠ [] := by
    rw [h.desc_eq, ← length_pos_iff, Body.length_flatten]
    cases b with
    | nil => exact absurd rfl hne
    | elem e rest => simp [Body.used]
    | loop contiguous loops extent body rest => simp [Body.used]
  have hused : b.optimize.used ≠ 0 := by
    intro hzero
    have hwidth := Body.width_optimize h.ok
    rw [h.width_eq] at hwidth
    cases hopt : b.optimize with
    | nil =>
      rw [hopt] at hwidth
      simp at hwidth
      omega
    | elem e rest => simp [hopt, Body.used] at hzero
    | loop contiguous loops extent body rest => simp [hopt, Body.used] at hzero
  have hfake (used : ℕ) : fakeEnd d.desc used d.size = .endLoop ⟨used, d.size, b.first⟩ := by
    have := Body.firstElemDisp_flatten h.ok hne []
    rw [List.append_nil] at this
    rw [fakeEnd, if_pos hsize.ne', h.desc_eq, this]
  have hlen : (b.optimize.flatten ++ [Desc.endLoop ⟨b.optimize.used + 2, d.size, b.first⟩]).length - 1
      = b.optimize.flatten.length := by
    simp
  unfold Datatype.optimized
  rw [if_neg hdesc]
  simp only [hfake]
  rw [h.desc_eq, optimizeShort_flatten h.ok (by rw [h.width_eq]; exact hfit), hlen, take_left,
    Body.length_flatten, if_pos hused]

theorem Sound.empty (hd : Sound d) (hcommitted : d.committed = true) (hzero : d.size = 0) :
    d.desc = [] ∧ d.optDesc = [] := by
  obtain ⟨b, hb, -⟩ := hd.described
  rw [hzero] at hb
  have hnil : d.desc = [] := by
    rw [hb.desc_eq, hb.eq_nil]
    rfl
  exact ⟨hnil, by rw [hd.committed hcommitted, Datatype.optimized, if_pos hnil]⟩

/-- Both descriptions visit the same bytes, however many elements of whatever extent there are. -/
def SameStream (d : Datatype) : Prop :=
  ∀ (extent : ℤ) (count : ℕ),
    bytes (stream d.optDesc extent count) = bytes (stream d.desc extent count)

theorem Sound.sameStream_iff (hd : Sound d) (hcommitted : d.committed = true)
    (hfit : d.size < 2 ^ 31) : SameStream d ↔ Clean d.desc := by
  obtain ⟨b, hb, -⟩ := hd.described
  rcases Nat.eq_zero_or_pos d.size with hzero | hpos
  · obtain ⟨hnil, hopt⟩ := hd.empty hcommitted hzero
    simp [SameStream, hnil, hopt, Clean, cleanGo]
  · rw [hb.desc_eq, Body.clean_iff_bytes_optimize hb.ok hb.repeats, SameStream, hd.committed hcommitted,
      hb.optimized hpos hfit, hb.desc_eq]
    simp only [stream, Body.visits_flatten, Body.visits_flatten_endLoop]
    refine ⟨fun h => ?_, fun h extent count => bytes_strided_congr h⟩
    simpa using h 0 1

end Datatype

end OpenMPI.Ddt

/-!
## The constructors and the commit

The constructors only create and add, so what they make is `Built`.  A commit keeps the stream of
exactly those datatypes whose description is clean (`ddtCommit_sameStream_iff`).
-/

namespace OpenMPI.Ddt

open List

namespace Datatype

variable {d base add old : Datatype} {count : ℕ} {disp extent : ℤ}

structure Fresh (d : Datatype) : Prop where
  built : Built d
  committed : d.committed = false
  predefined : d.predefined = false

theorem fresh_create : Fresh ddtCreate := ⟨.create, rfl, rfl⟩

theorem Fresh.ddtAdd (hbase : Fresh base) (hadd : Built add) :
    Fresh (base.ddtAdd add count disp extent) := by
  have hsame : (base.ddtAdd add count disp extent).committed = base.committed ∧
      (base.ddtAdd add count disp extent).predefined = base.predefined := by
    unfold Datatype.ddtAdd
    dsimp only
    split_ifs <;> exact ⟨rfl, rfl⟩
  exact ⟨.add hbase.built ⟨hbase.committed, hbase.predefined⟩ hadd,
    hsame.1.trans hbase.committed, hsame.2.trans hbase.predefined⟩

theorem fresh_empty : Fresh empty := fresh_create.ddtAdd .marker

theorem built_ddtCreateContiguous (hold : Built old) : Built (ddtCreateContiguous count old) := by
  unfold ddtCreateContiguous
  split_ifs
  · exact fresh_empty.built
  · exact (fresh_create.ddtAdd hold).built

theorem built_createVector {bLength : ℕ} {stride : ℤ} {apart : Bool} (hold : Built old) :
    Built (createVector count bLength stride apart old) := by
  unfold createVector
  split_ifs
  · exact fresh_empty.built
  · exact (fresh_create.ddtAdd hold).built
  · exact (fresh_create.ddtAdd hold).built
  · exact (fresh_create.ddtAdd (fresh_create.ddtAdd hold).built).built

theorem built_ddtCreateStruct {fields : List Field} (h : ∀ field ∈ fields, Built field.type) :
    Built (ddtCreateStruct fields) := by
  have hgo (fields : List Field) (last : Field) (endto : ℤ) (pdt : Datatype)
      (hfields : ∀ field ∈ fields, Built field.type) (hlast : Built last.type) (hpdt : Fresh pdt) :
      Built (createStructGo fields last endto pdt) := by
    induction fields generalizing last endto pdt with
    | nil => exact (hpdt.ddtAdd hlast).built
    | cons field fields ih =>
      have hrest : ∀ field ∈ fields, Built field.type := fun f hf =>
        hfields f (mem_cons_of_mem _ hf)
      unfold createStructGo
      split_ifs
      · exact ih _ _ _ hrest hlast hpdt
      · exact ih _ _ _ hrest (hfields field mem_cons_self) (hpdt.ddtAdd hlast)
  cases fields with
  | nil => exact fresh_empty.built
  | cons field fields =>
    exact hgo _ _ _ _ (fun f hf => h f (mem_cons_of_mem _ hf)) (h field mem_cons_self)
      fresh_create

theorem ddtCommit_desc (d : Datatype) : d.ddtCommit.desc = d.desc ∧ d.ddtCommit.size = d.size ∧
    d.ddtCommit.committed = true := by
  unfold ddtCommit
  split_ifs with h
  · exact ⟨rfl, rfl, h⟩
  · exact ⟨rfl, rfl, rfl⟩

def mpiInt : Datatype := basic ⟨11, 4, by decide⟩ 4

def gapStruct : Datatype :=
  ddtCreateStruct [⟨1, 0, 0, mpiInt⟩,
    ⟨3, 4, 1, (ddtCreateContiguous 2 mpiInt).ddtCreateResized 0 16⟩]

theorem built_mpiInt : Built mpiInt := .basic (by decide)

theorem built_gapStruct : Built gapStruct := by
  apply built_ddtCreateStruct
  simp only [mem_cons, not_mem_nil, or_false, forall_eq_or_imp, forall_eq]
  exact ⟨built_mpiInt, .resized (built_ddtCreateContiguous built_mpiInt)⟩

end Datatype

end OpenMPI.Ddt
