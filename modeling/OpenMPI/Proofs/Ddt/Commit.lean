import OpenMPI.Proofs.Ddt.Optimize

/-!
# When the optimised description is the description

The optimiser merges what follows the pending element in memory with it, whatever the stride of
the pending element, and the first iteration of a loop with gaps without moving the loop that is
left.  A description is `Clean` if neither happens where it matters, and exactly then the
optimised one visits the same bytes (`clean_iff`).
-/

namespace OpenMPI.Ddt

open Lib List

def Elem.spread (e : Elem) : Bool := decide (2 ≤ e.count ∧ e.extent ≠ e.type.size)

/-- What starts at `disp` continues the last element, which is spread, or `moves` on later. -/
def clash (last : Option Elem) (disp : ℤ) (moves : Bool) : Bool :=
  match last with
  | none => false
  | some e => decide (e.stop = disp) && (e.spread || moves)

def Elem.mergeable (e : Elem) : Bool := e.contiguous && decide (e.extent = e.type.size)

/-- The test of a description, with the number of entries to jump over and the last element. -/
def cleanGo : ℕ → List Desc → Option Elem → Bool
  | _, [], _ => true
  | skip + 1, _ :: rest, last => cleanGo skip rest last
  | 0, .elem e :: rest, last => !(e.mergeable && clash last e.disp false) && cleanGo 0 rest (some e)
  | 0, .endLoop _ :: rest, _ => cleanGo 0 rest none
  | 0, .loop l :: rest, last =>
    if l.contiguous then
      match rest[l.items - 1]? with
      | some (.endLoop close) =>
        let disp := firstElemDisp rest
        if l.extent = close.size then
          !clash last disp false && cleanGo l.items rest (some (.ofBytes disp (l.loops * close.size)))
        else !clash last disp (decide (l.extent ≠ 0)) && cleanGo l.items rest none
      | _ => false
    else cleanGo 0 rest none

def Clean (desc : List Desc) : Prop := cleanGo 0 desc none = true

instance (desc : List Desc) : Decidable (Clean desc) := inferInstanceAs (Decidable (_ = _))

namespace Body

def Clean : Body → Option Elem → Prop
  | nil, _ => True
  | elem y rest, last => (y.mergeable && clash last y.disp false) = false ∧ rest.Clean (some y)
  | loop true loops extent body rest, last =>
    if extent = width body.blocks then
      clash last body.first false = false ∧
        rest.Clean (some (.ofBytes body.first (loops * width body.blocks)))
    else clash last body.first (decide (extent ≠ 0)) = false ∧ rest.Clean none
  | loop false _ _ body rest, _ => body.Clean none ∧ rest.Clean none

end Body

theorem cleanGo_skip (l rest : List Desc) (last : Option Elem) :
    cleanGo l.length (l ++ rest) last = cleanGo 0 rest last := by
  induction l with
  | nil => rfl
  | cons d l ih => rw [length_cons, cons_append, cleanGo, ih]

theorem cleanGo_flatten {b : Body} (hok : b.Ok) (last : Option Elem) :
    ∃ last', ∀ tail, cleanGo 0 (b.flatten ++ tail) last = true ↔
      b.Clean last ∧ cleanGo 0 tail last' = true := by
  induction b generalizing last with
  | nil => exact ⟨last, fun tail => by simp [Body.flatten, Body.Clean]⟩
  | elem y rest ih =>
    obtain ⟨last', h⟩ := ih hok.2 (some y)
    refine ⟨last', fun tail => ?_⟩
    rw [Body.flatten, cons_append, cleanGo, Bool.and_eq_true, Bool.not_eq_true', h, Body.Clean,
      and_assoc]
  | loop contiguous loops extent body rest ih1 ih2 =>
    obtain ⟨⟨-, hne, -⟩, hbody, hrest⟩ := hok
    cases contiguous with
    | false =>
      obtain ⟨last1, h1⟩ := ih1 hbody none
      obtain ⟨last2, h2⟩ := ih2 hrest none
      refine ⟨last2, fun tail => ?_⟩
      rw [Body.flatten_loop_append, cleanGo]
      simp only [Bool.false_eq_true, if_false]
      rw [h1, cleanGo, h2, Body.Clean, and_assoc]
    | true =>
      have hlast (tail : List Desc) : cleanGo (body.used + 1) (body.flatten ++
          .endLoop ⟨body.used + 1, width body.blocks, body.first⟩ :: (rest.flatten ++ tail))
          = cleanGo 0 (rest.flatten ++ tail) := by
        funext last
        have := cleanGo_skip (body.flatten ++
          [.endLoop ⟨body.used + 1, width body.blocks, body.first⟩]) (rest.flatten ++ tail) last
        simpa [Body.length_flatten] using this
      have hget (tail : List Desc) : (body.flatten ++
          .endLoop ⟨body.used + 1, width body.blocks, body.first⟩ :: tail)[body.used]?
          = some (.endLoop ⟨body.used + 1, width body.blocks, body.first⟩) := by
        rw [getElem?_append_right (by simp [Body.length_flatten])]
        simp [Body.length_flatten]
      by_cases hwhole : extent = width body.blocks
      · obtain ⟨last', h⟩ := ih2 hrest (some (.ofBytes body.first (loops * width body.blocks)))
        refine ⟨last', fun tail => ?_⟩
        rw [Body.flatten_loop_append, cleanGo]
        simp only [if_true, Nat.add_sub_cancel, hget, hlast, if_pos hwhole,
          Body.firstElemDisp_flatten hbody hne, Bool.and_eq_true, Bool.not_eq_true', h, Body.Clean,
          and_assoc]
      · obtain ⟨last', h⟩ := ih2 hrest none
        refine ⟨last', fun tail => ?_⟩
        rw [Body.flatten_loop_append, cleanGo]
        simp only [if_true, Nat.add_sub_cancel, hget, hlast, if_neg hwhole,
          Body.firstElemDisp_flatten hbody hne, Bool.and_eq_true, Bool.not_eq_true', h, Body.Clean,
          and_assoc]

theorem clean_flatten {b : Body} (hok : b.Ok) : Clean b.flatten ↔ b.Clean none := by
  obtain ⟨last, h⟩ := cleanGo_flatten hok none
  have := h []
  rw [List.append_nil] at this
  rw [Clean, this]
  simp [cleanGo]

namespace Elem

theorem bytes_of_not_spread {e : Elem} (h : e.spread = false) :
    bytes e.blocks = run e.disp (e.count * e.type.size) := by
  unfold spread at h
  rw [decide_eq_false_iff_not, not_and_or, not_not] at h
  rcases h with h | h
  · obtain h0 | h1 : e.count = 0 ∨ e.count = 1 := by omega
    · simp [blocks, h0]
    · simp [blocks, h1]
  · rw [blocks, h, bytes_strided_run]

theorem bytes_of_spread {e : Elem} (h : e.spread = true) (l : List ℤ) (n : ℕ) :
    bytes e.blocks ++ l ≠ run e.disp (e.count * e.type.size + n) := by
  intro heq
  obtain ⟨hcount, hextent⟩ := of_decide_eq_true h
  obtain ⟨c, hc⟩ : ∃ c, e.count = c + 1 + 1 := ⟨e.count - 2, by omega⟩
  have hsplit : e.count * e.type.size + n
      = e.type.size + (e.type.size + (c * e.type.size + n)) := by
    rw [hc]
    ring
  rw [blocks, hc, strided_succ, strided_succ] at heq
  rw [← hc, hsplit, run_add, run_add] at heq
  simp only [bytes_append, bytes_cons, bytes_nil, shift_append, shift_cons, shift_nil,
    List.append_nil, List.append_assoc] at heq
  have h2 := (append_inj heq (by simp)).2
  have h3 := run_inj e.type.pos (append_inj h2 (by simp)).1
  omega

@[simp] theorem bytes_ofBytes (disp : ℤ) (n : ℕ) : bytes (ofBytes disp n).blocks = run disp n := by
  rw [bytes_of_not_spread]
  · simp [ofBytes, dtByte]
  · simp [spread, ofBytes, dtByte]

theorem stop_ofBytes (disp : ℤ) (n : ℕ) : (ofBytes disp n).stop = disp + n := by
  simp [stop, ofBytes, dtByte]

theorem bytes_join (e : Elem) {y : Elem} (h : y.extent = y.type.size) :
    bytes (e.join y).blocks = run e.disp (e.count * e.type.size + y.count * y.type.size) := by
  unfold join
  split_ifs with htype
  · rw [blocks, h, htype, bytes_strided_run, add_mul]
  · rw [bytes_ofBytes]

def Tight (p : Option Elem) : Prop := ∀ e, p = some e → e.extent = e.type.size

theorem tight_join (e : Elem) {y : Elem} (h : y.extent = y.type.size) : Tight (some (e.join y)) := by
  rintro _ ⟨rfl⟩
  unfold join
  split_ifs with htype
  · rw [← htype]
    exact h
  · rfl

theorem tight_ofBytes (disp : ℤ) (n : ℕ) : Tight (some (ofBytes disp n)) := by
  rintro _ ⟨rfl⟩
  rfl

theorem bytes_of_tight {e : Elem} (h : Tight (some e)) :
    bytes e.blocks = run e.disp (e.count * e.type.size) := by
  rw [blocks, h e rfl, bytes_strided_run]

end Elem

namespace Body

open Elem

theorem prefix_opt (b : Body) {p : Option Elem} (hp : Tight p) :
    bytes (ofPending p).blocks <+: bytes (closed (b.opt p)).blocks := by
  cases p with
  | none => exact List.nil_prefix
  | some e =>
    induction b generalizing e with
    | nil => simp [opt, closed]
    | elem y rest ih =>
      rw [closed_opt_elem, putElem]
      split_ifs with h
      · refine List.IsPrefix.trans ?_ (ih _ (tight_join e h.2.2))
        simp only [ofPending_some, blocks_elem, blocks_nil, List.append_nil, bytes_join e h.2.2,
          bytes_of_tight hp, run_add]
        exact prefix_append _ _
      · simp
    | loop contiguous loops extent body rest _ ih =>
      cases contiguous with
      | false =>
        rw [closed_opt_loop]
        simp
      | true =>
        rw [closed_opt_contiguous, putContiguous, putWhole, putGap]
        split_ifs
        · refine List.IsPrefix.trans ?_ (ih _ (tight_ofBytes _ _))
          simp only [ofPending_some, blocks_elem, blocks_nil, List.append_nil, bytes_ofBytes,
            bytes_of_tight hp, run_add]
          exact prefix_append _ _
        · simp
        · simp only [ofPending_some, blocks_elem, blocks_nil, List.append_nil, bytes_ofBytes,
            bytes_of_tight hp, run_add, blocks_append, bytes_append, List.append_assoc]
          exact prefix_append _ _
        · simp

/-- What is written for one entry `i` of the description is what it visits, or clashes with it. -/
structure Puts (p : Option Elem) (i : Body) (clash : Bool) (r : Body × Option Elem) : Prop where
  width : width (closed r).blocks = Lib.width (ofPending p).blocks + Lib.width i.blocks
  clean : clash = false → bytes (closed r).blocks = bytes (ofPending p).blocks ++ bytes i.blocks
  bad : clash = true →
    bytes (closed r).blocks ≠ bytes (ofPending p).blocks ++ bytes i.blocks ∧ Tight r.2

theorem Puts.step {p : Option Elem} {i rest : Body} {clash : Bool} {r : Body × Option Elem}
    {P : Prop} (h : Puts p i clash r)
    (ih : P ↔ bytes (closed (rest.opt r.2)).blocks
      = bytes (ofPending r.2).blocks ++ bytes rest.blocks) :
    (clash = false ∧ P) ↔ bytes (r.1 ++ closed (rest.opt r.2)).blocks
      = bytes (ofPending p).blocks ++ (bytes i.blocks ++ bytes rest.blocks) := by
  cases hclash : clash with
  | false =>
    have hclean := h.clean hclash
    have hr : bytes (closed r).blocks = bytes r.1.blocks ++ bytes (ofPending r.2).blocks := by
      rw [closed, blocks_append, bytes_append]
    rw [← List.append_assoc, ← hclean, hr, blocks_append, bytes_append, List.append_assoc,
      append_cancel_left_eq, ih]
    simp
  | true =>
    obtain ⟨hne, htight⟩ := h.bad hclash
    simp only [Bool.true_eq_false, false_and, false_iff]
    intro heq
    apply hne
    -- the bytes written for the entry are first on both sides
    obtain ⟨l, hl⟩ := prefix_opt rest htight
    rw [blocks_append, bytes_append, ← hl, ← List.append_assoc, ← bytes_append, ← blocks_append,
      ← List.append_assoc] at heq
    refine (append_inj heq ?_).1
    rw [length_bytes, length_append, length_bytes, length_bytes, ← h.width]
    rfl

theorem puts_elem (y : Elem) {p last : Option Elem}
    (hlast : ∀ disp moves, clash last disp moves = clash p disp moves) :
    Puts p (elem y nil) (y.mergeable && clash last y.disp false) (putElem y p) := by
  refine ⟨by simpa using width_putElem y p, ?_, ?_⟩
  · intro h
    rw [hlast] at h
    cases p with
    | none => simp [putElem, closed, Elem.blocks]
    | some e =>
      simp only [putElem]
      split_ifs with hmerge
      · have hspread : e.spread = false := by
          simpa [Elem.mergeable, clash, hmerge] using h
        have hy : y.spread = false := by simp [spread, hmerge.2.2]
        simp only [closed, nil_append, ofPending_some, blocks_elem, blocks_nil, List.append_nil,
          bytes_join e hmerge.2.2, bytes_of_not_spread hspread, bytes_of_not_spread hy, run_add]
        rw [← hmerge.2.1, Elem.stop]
        push_cast
        rfl
      · simp [closed, Elem.blocks]
  · intro h
    rw [hlast, Bool.and_eq_true] at h
    obtain ⟨hmergeable, hclash⟩ := h
    cases p with
    | none => simp [clash] at hclash
    | some e =>
      simp only [Elem.mergeable, clash, Bool.and_eq_true, decide_eq_true_eq, Bool.or_false]
        at hmergeable hclash
      have hmerge : y.contiguous = true ∧ e.stop = y.disp ∧ y.extent = y.type.size :=
        ⟨hmergeable.1, hclash.1, hmergeable.2⟩
      simp only [putElem, if_pos hmerge]
      refine ⟨?_, tight_join e hmerge.2.2⟩
      simp only [closed, nil_append, ofPending_some, blocks_elem, blocks_nil, List.append_nil,
        bytes_join e hmerge.2.2]
      exact (bytes_of_spread hclash.2 _ _).symm

theorem bytes_gap (loops : ℕ) (extent disp : ℤ) (n : ℕ) :
    bytes (gap loops extent disp n).blocks = bytes (strided loops extent [(disp, n)]) := by
  rw [gap, blocks_loop, blocks_nil, List.append_nil]
  apply bytes_strided_congr
  simp

theorem strided_ne_shift {n size : ℕ} {extent disp : ℤ} (hn : 0 < n) (hsize : 0 < size)
    (hextent : extent ≠ 0) : bytes (strided n extent [(disp, size)])
      ≠ bytes (shift extent (strided n extent [(disp, size)])) := by
  intro heq
  obtain ⟨k, rfl⟩ := Nat.exists_eq_succ_of_ne_zero hn.ne'
  rw [Nat.succ_eq_add_one, strided_succ, shift_append, bytes_append, bytes_append] at heq
  have := (append_inj heq (by simp)).1
  simp only [shift_cons, shift_nil, bytes_cons, bytes_nil, List.append_nil] at this
  have := run_inj hsize this
  omega

theorem puts_contiguous {loops : ℕ} {extent : ℤ} {body : Body} (hloops : 2 ≤ loops)
    (hsize : 0 < Lib.width body.blocks)
    (hrun : bytes body.blocks = run body.first (Lib.width body.blocks)) {p last : Option Elem}
    (hlast : ∀ disp moves, clash last disp moves = clash p disp moves) :
    Puts p (loop true loops extent body nil)
      (if extent = Lib.width body.blocks then clash last body.first false
        else clash last body.first (decide (extent ≠ 0)))
      (putContiguous loops extent body p) := by
  have hbody : bytes (loop true loops extent body nil).blocks
      = bytes (strided loops extent [(body.first, Lib.width body.blocks)]) := by
    rw [blocks_loop, blocks_nil, List.append_nil]
    apply bytes_strided_congr
    rw [hrun]
    simp
  refine ⟨?_, ?_, ?_⟩
  · rw [width_putContiguous (by omega)]
    simp
  · intro h
    rw [hlast, hlast] at h
    rw [hbody]
    unfold putContiguous
    split_ifs at h ⊢ with hwhole
    · rw [hwhole, bytes_strided_run]
      cases p with
      | none => simp [putWhole, closed]
      | some e =>
        simp only [putWhole]
        split_ifs with hstop
        · have hspread : e.spread = false := by simpa [clash, hstop] using h
          simp only [closed, nil_append, ofPending_some, blocks_elem, blocks_nil, List.append_nil,
            bytes_ofBytes, bytes_of_not_spread hspread, run_add]
          rw [← hstop, Elem.stop]
          push_cast
          rfl
        · simp [closed]
    · cases p with
      | none => simp [putGap, closed, append_nil, bytes_gap]
      | some e =>
        simp only [putGap]
        split_ifs with hstop
        · obtain ⟨hspread, rfl⟩ : e.spread = false ∧ extent = 0 := by
            simpa [clash, hstop] using h
          obtain ⟨n, rfl⟩ : ∃ n, loops = n + 1 := ⟨loops - 1, by omega⟩
          simp only [closed, append_nil, ofPending_none, ofPending_some, blocks_elem, blocks_nil,
            blocks_append, bytes_append, List.append_nil, bytes_ofBytes, bytes_gap,
            bytes_of_not_spread hspread, run_add, Nat.add_sub_cancel, strided_succ, shift_zero,
            bytes_cons, bytes_nil, List.append_assoc]
          rw [← hstop, Elem.stop]
          push_cast
          rfl
        · simp [closed, append_nil, bytes_gap]
  · intro h
    rw [hlast, hlast] at h
    rw [hbody]
    cases p with
    | none => simp [clash] at h
    | some e =>
      unfold putContiguous
      split_ifs at h ⊢ with hwhole
      · obtain ⟨hstop, hspread⟩ : e.stop = body.first ∧ e.spread = true := by
          simpa [clash] using h
        simp only [putWhole, if_pos hstop]
        refine ⟨?_, tight_ofBytes _ _⟩
        simp only [closed, nil_append, ofPending_some, blocks_elem, blocks_nil, List.append_nil,
          bytes_ofBytes]
        exact (bytes_of_spread hspread _ _).symm
      · obtain ⟨hstop, hbad⟩ : e.stop = body.first ∧ (e.spread = true ∨ extent ≠ 0) := by
          simpa [clash] using h
        simp only [putGap, if_pos hstop]
        refine ⟨?_, by simp [Tight]⟩
        simp only [closed, append_nil, ofPending_none, ofPending_some, blocks_elem, blocks_nil,
          blocks_append, bytes_append, List.append_nil, bytes_ofBytes, bytes_gap]
        obtain ⟨n, rfl⟩ : ∃ n, loops = n + 1 := ⟨loops - 1, by omega⟩
        cases hspread : e.spread with
        | true =>
          intro heq
          rw [strided_succ, bytes_append, Nat.add_sub_cancel] at heq
          have := (append_inj ((List.append_assoc _ _ _).symm ▸ heq) (by
            simp [Elem.width_blocks])).1
          exact bytes_of_spread hspread _ _ this.symm
        | false =>
          rw [hspread] at hbad
          have hextent : extent ≠ 0 := by simpa using hbad
          rw [bytes_of_not_spread hspread, run_add, Nat.add_sub_cancel, strided_succ, bytes_append,
            List.append_assoc, Ne, append_cancel_left_eq]
          intro heq
          have := (append_inj heq (by simp)).2
          exact strided_ne_shift (by omega) hsize hextent this

theorem clash_putElem (y : Elem) (p : Option Elem) (disp : ℤ) (moves : Bool) :
    clash (some y) disp moves = clash (putElem y p).2 disp moves := by
  cases p with
  | none => rfl
  | some e =>
    simp only [putElem]
    split_ifs with h
    · have hstop : (e.join y).stop = y.stop := by
        obtain ⟨-, hstop, -⟩ := h
        unfold Elem.join
        split_ifs with htype
        · simp only [Elem.stop, htype, ← hstop]
          push_cast
          ring
        · rw [stop_ofBytes, Elem.stop, ← hstop, Elem.stop]
          push_cast
          ring
      have hy : y.spread = false := by simp [spread, h.2.2]
      have hjoin : (e.join y).spread = false := by
        simp [spread, tight_join e h.2.2 _ rfl]
      simp only [clash, hstop, hy, hjoin]
    · rfl

theorem clash_putContiguous (loops : ℕ) (extent : ℤ) (body : Body) (p : Option Elem) (disp : ℤ)
    (moves : Bool) :
    clash (if extent = Lib.width body.blocks
      then some (.ofBytes body.first (loops * Lib.width body.blocks)) else none) disp moves
      = clash (putContiguous loops extent body p).2 disp moves := by
  unfold putContiguous putWhole putGap
  split_ifs
  · cases p with
    | none => rfl
    | some e =>
      dsimp only
      split_ifs with hstop
      · have h : (Elem.ofBytes e.disp (e.count * e.type.size + loops * Lib.width body.blocks)).stop
            = (Elem.ofBytes body.first (loops * Lib.width body.blocks)).stop := by
          rw [stop_ofBytes, stop_ofBytes, ← hstop, Elem.stop]
          push_cast
          ring
        simp only [clash, h]
        simp [spread, Elem.ofBytes, dtByte]
      · rfl
  · cases p with
    | none => rfl
    | some e =>
      dsimp only
      split_ifs <;> rfl

theorem unrolled_succ (n : ℕ) (extent : ℤ) (y : Elem) : unrolled (n + 1) extent y
    = elem y (unrolled n extent { y with disp := y.disp + extent }) := by
  unfold unrolled
  rw [range_succ_eq_map, foldr_cons, foldr_map]
  congr 1
  · simp
  · congr 1
    funext i rest
    congr 2
    push_cast
    ring

theorem bytes_unrolled (loops : ℕ) (extent : ℤ) (y : Elem) :
    bytes (unrolled loops extent y).blocks = bytes (strided loops extent y.blocks) := by
  induction loops generalizing y with
  | zero => rfl
  | succ n ih =>
    rw [unrolled_succ, blocks_elem, bytes_append, ih, strided_succ, bytes_append, shift_strided]
    simp only [Elem.blocks, shift_strided, shift_cons, shift_nil]

theorem bytes_putLoop {loops : ℕ} (hloops : 0 < loops) (extent : ℤ) {inner body : Body}
    (hwidth : Lib.width inner.blocks = Lib.width body.blocks)
    (h : body.Clean none ↔ bytes inner.blocks = bytes body.blocks) :
    body.Clean none ↔
      bytes (putLoop loops extent inner body).blocks = bytes (strided loops extent body.blocks) := by
  unfold putLoop
  split
  · next y =>
    have hclean : (elem y nil).Clean none := by simp [Clean, clash]
    split_ifs with hone
    · simp only [hclean, blocks_elem, blocks_nil, List.append_nil, Elem.blocks, hone.1,
        strided_one]
    · simp only [hclean, bytes_unrolled, blocks_elem, blocks_nil, List.append_nil]
    · rw [h, blocks_loop, blocks_nil, List.append_nil, bytes_strided_inj hloops hwidth]
  · rw [h, blocks_loop, blocks_nil, List.append_nil, bytes_strided_inj hloops hwidth]

theorem clean_iff {b : Body} (hok : b.Ok) (hrep : b.Repeats) {p last : Option Elem}
    (hlast : ∀ disp moves, clash last disp moves = clash p disp moves) :
    b.Clean last ↔
      bytes (closed (b.opt p)).blocks = bytes (ofPending p).blocks ++ bytes b.blocks := by
  induction b generalizing p last with
  | nil => simp [Clean, opt, closed]
  | elem y rest ih =>
    have := (puts_elem y hlast).step (ih hok.2 hrep (clash_putElem y p))
    rw [closed_opt_elem, Clean, this]
    simp
  | loop contiguous loops extent body rest ih1 ih2 =>
    obtain ⟨⟨hloops, hne, hrun⟩, hbody, hrest⟩ := hok
    obtain ⟨hrep, hbody', hrest'⟩ := hrep
    cases contiguous with
    | true =>
      have := (puts_contiguous hrep (width_pos hbody hne) (hrun rfl) hlast).step
        (ih2 hrest hrest' (clash_putContiguous loops extent body p))
      rw [blocks_loop, blocks_nil, List.append_nil] at this
      rw [closed_opt_contiguous, blocks_loop, bytes_append, ← this, Clean]
      split_ifs <;> rfl
    | false =>
      have hinner := ih1 hbody hbody' (fun _ _ => rfl : ∀ disp moves, clash none disp moves = _)
      have hafter := ih2 hrest hrest' (fun _ _ => rfl : ∀ disp moves, clash none disp moves = _)
      have hput := bytes_putLoop hloops extent (width_optimize hbody) hinner
      have hwidth : Lib.width (putLoop loops extent body.optimize body).blocks
          = Lib.width (strided loops extent body.blocks) := by
        rw [width_putLoop extent (width_optimize hbody), width_strided]
      rw [Clean, hput, hafter, closed_opt_loop, blocks_append, bytes_append, blocks_append,
        bytes_append, blocks_loop, bytes_append, append_cancel_left_eq]
      constructor
      · rintro ⟨h1, h2⟩
        rw [h1, h2]
        simp
      · intro h
        obtain ⟨h1, h2⟩ := append_inj h (by rw [length_bytes, length_bytes, hwidth])
        exact ⟨h1, by simpa using h2⟩

theorem clean_iff_bytes_optimize {b : Body} (hok : b.Ok) (hrep : b.Repeats) :
    OpenMPI.Ddt.Clean b.flatten ↔ bytes b.optimize.blocks = bytes b.blocks := by
  rw [clean_flatten hok]
  exact clean_iff hok hrep fun _ _ => rfl

end Body

end OpenMPI.Ddt
