import Mathlib.Algebra.BigOperators.Group.Finset.Piecewise
import Mathlib.Algebra.Order.BigOperators.Group.Finset
import Mathlib.Data.List.GetD
import OpenMPI.Osc.Fence
import OpenMPI.Proofs.Osc.Pt2pt

/-!
# Fence

A request that was made is at its origin, on its way, or over.  A process sends the requests of an epoch when
every process has entered the fence that ends it, and leaves that fence when those that target it are over, so
that the counters are about one epoch at a time (`Inv`).
-/

namespace OpenMPI.Osc

open BigOperators List Function

variable {P : Type*}

def Item.Plain : Item P → Prop
  | .msg _ _ (.send _ _) => True
  | .msg _ _ (.reply _ _) => True
  | .cb _ _ => True
  | _ => False

section Plain

variable {z : Sizes} {m : Module P} {i : Item P}

theorem replyreqSend_plain (me : P) (req : Sendreq P) : ∀ j ∈ replyreqSend z me req, j.Plain := by
  unfold replyreqSend
  dsimp only
  split_ifs <;> simp [Item.Plain]

theorem sendreqSend_plain (me : P) (req : Sendreq P) : ∀ j ∈ sendreqSend z me req, j.Plain := by
  unfold sendreqSend
  dsimp only
  split_ifs <;> simp [Item.Plain]

theorem handle_plain (hi : i.Plain) (hunlocks : m.unlocksPending = []) :
    (i.handle z m).1.unlocksPending = [] ∧ (i.handle z m).1.locksPending = m.locksPending ∧
      ∀ j ∈ (i.handle z m).2, j.Plain := by
  have hmark (me : P) (req : Sendreq P) : inmsgMarkComplete me m req =
      ({ m with window := m.window ++ [req], numPendingIn := m.numPendingIn - 1 }, []) := by
    unfold inmsgMarkComplete
    exact if_neg fun h => h.2.2 hunlocks
  cases i with
  | msg src dst content =>
    cases content with
    | send req msgLength =>
      rw [Item.handle, fragmentCb, sendreqRecv]
      split_ifs
      · exact ⟨hunlocks, rfl, replyreqSend_plain dst req⟩
      · rw [hmark]
        exact ⟨hunlocks, rfl, by simp⟩
      · exact ⟨hunlocks, rfl, by simp [Item.Plain]⟩
    | reply req msgLength =>
      rw [Item.handle, fragmentCb, replyreqRecv]
      split_ifs
      · exact ⟨hunlocks, rfl, by simp⟩
      · exact ⟨hunlocks, rfl, by simp [Item.Plain]⟩
    | post => exact hi.elim
    | complete count => exact hi.elim
    | lockReq origin type => exact hi.elim
    | unlockReq origin count => exact hi.elim
    | unlockReply => exact hi.elim
  | cb dst c =>
    cases c with
    | sendCb req msgLength =>
      rw [Item.handle, mpireqCb]
      split_ifs <;> exact ⟨hunlocks, rfl, by simp⟩
    | sendLongCb req => exact ⟨hunlocks, rfl, by simp [Item.handle, mpireqCb]⟩
    | recvLongCb req =>
      rw [Item.handle, mpireqCb, hmark]
      exact ⟨hunlocks, rfl, by simp⟩
    | replySendCb req msgLength =>
      rw [Item.handle, mpireqCb, hmark]
      split_ifs <;> exact ⟨hunlocks, rfl, by simp⟩
    | replySendLongCb req =>
      rw [Item.handle, mpireqCb, hmark]
      exact ⟨hunlocks, rfl, by simp⟩
    | replyRecvLongCb req => exact ⟨hunlocks, rfl, by simp [Item.handle, mpireqCb]⟩

theorem plain_counts (hi : i.Plain) : i.announced = 0 ∧ i.unlocked = 0 := by
  cases i with
  | msg src dst content => cases content <;> first | exact ⟨rfl, rfl⟩ | exact hi.elim
  | cb dst c => exact ⟨rfl, rfl⟩

end Plain

variable [DecidableEq P]

namespace Fence

def left (s : Fence P) (p : P) : ℕ :=
  match s.phase p with
  | .collective _ => s.fences p - 1
  | _ => s.fences p

/-- The requests that are on their way to their target, and those whose end is on its way to the origin. -/
def unapplied (s : Fence P) : List (Sendreq P) := s.world.net.flatMap Item.unapplied

def incomplete (s : Fence P) : List (Sendreq P) := s.world.net.flatMap Item.incomplete

def applied (s : Fence P) (p : P) : ℕ := (s.world.modules p).window.countP fun req => req.epoch + 1 = s.fences p

def unfinished (s : Fence P) (p : P) : ℕ := s.incomplete.countP fun req => req.origin = p

def between (p q : P) (epoch : ℕ) (req : Sendreq P) : Bool := req.origin = p ∧ req.target = q ∧ req.epoch = epoch

/-- What the counters of a process are in each phase. -/
def Books [Fintype P] (s : Fence P) (p : P) (m : Module P) : FencePhase → Prop
  | .outside => m.copyPendingSendreqs = [] ∧ m.numPendingIn = 0 ∧ m.numPendingOut = 0 ∧ s.unfinished p = 0
  | .collective outgoing => m.pendingSendreqs = [] ∧ outgoing = m.copyPendingSendreqs.length ∧
    m.numPendingIn = -s.applied p ∧ m.numPendingOut = 0 ∧ s.unfinished p = 0 ∧ 0 < s.fences p
  | .sending outgoing incoming => m.pendingSendreqs = [] ∧ incoming = s.incoming (s.fences p - 1) p ∧
    m.numPendingIn = -s.applied p ∧
    m.numPendingOut + outgoing = m.copyPendingSendreqs.length + s.unfinished p ∧ 0 < s.fences p
  | .waiting => m.pendingSendreqs = [] ∧ m.copyPendingSendreqs = [] ∧
    m.numPendingIn = s.incoming (s.fences p - 1) p - s.applied p ∧ m.numPendingOut = s.unfinished p ∧
    0 < s.fences p

def Returned (s : Fence P) (p : P) (epoch : ℕ) : Prop :=
  epoch + 1 < s.fences p ∨ epoch + 1 = s.fences p ∧ s.phase p = .outside

structure Inv [Fintype P] (s : Fence P) : Prop where
  plain : ∀ i ∈ s.world.net, i.Placed ∧ i.Plain
  locks : ∀ p, (s.world.modules p).unlocksPending = [] ∧ (s.world.modules p).locksPending = []
  books : ∀ p, s.Books p (s.world.modules p) (s.phase p)
  pendingAt : ∀ p, ∀ req ∈ (s.world.modules p).pendingSendreqs, req.origin = p ∧ req.epoch = s.fences p
  copyAt : ∀ p, ∀ req ∈ (s.world.modules p).copyPendingSendreqs, req.origin = p ∧ req.epoch + 1 = s.fences p
  unappliedAt : ∀ req ∈ s.unapplied, req.epoch + 1 ≤ s.left req.origin
  incompleteAt : ∀ req ∈ s.incomplete, req.epoch + 1 ≤ s.left req.origin
  windowAt : ∀ p, ∀ req ∈ (s.world.modules p).window, req.target = p ∧ req.epoch + 1 ≤ s.left req.origin
  completedAt : ∀ p, ∀ req ∈ (s.world.modules p).completed, req.origin = p ∧ req.epoch + 1 ≤ s.left p
  counts : ∀ p q, (s.world.modules p).numPendingSendreqs q =
    (s.world.modules p).pendingSendreqs.countP fun req => req.target = q
  given : ∀ p q epoch, epoch < s.fences p →
    (s.given p).getD epoch (fun _ => 0) q = s.issued.countP (between p q epoch)
  left_le : ∀ p q, s.left p ≤ s.fences q
  conserved : ∀ p q (f : Sendreq P → Bool), (∀ req, f req → req.origin = p ∧ req.target = q) →
    s.issued.countP f = (s.world.modules p).pendingSendreqs.countP f +
      (s.world.modules p).copyPendingSendreqs.countP f + s.unapplied.countP f +
      (s.world.modules q).window.countP f
  finished : ∀ p (f : Sendreq P → Bool), (∀ req, f req → req.origin = p) →
    s.issued.countP f = (s.world.modules p).pendingSendreqs.countP f +
      (s.world.modules p).copyPendingSendreqs.countP f + s.incomplete.countP f +
      (s.world.modules p).completed.countP f
  unappliedOpen : ∀ req ∈ s.unapplied, ¬ s.Returned req.target req.epoch
  copyOpen : ∀ p, ∀ req ∈ (s.world.modules p).copyPendingSendreqs, ¬ s.Returned req.target req.epoch

section Counters

variable [Fintype P] {s : Fence P} {p q : P} {epoch : ℕ}

theorem sum_between (reqs : List (Sendreq P)) (p : P) (epoch : ℕ) :
    ∑ q, reqs.countP (between q p epoch) = reqs.countP fun req => req.target = p ∧ req.epoch = epoch := by
  induction reqs with
  | nil => simp
  | cons req reqs ih =>
    simp only [countP_cons, Finset.sum_add_distrib, ih]
    congr 1
    by_cases hreq : req.target = p ∧ req.epoch = epoch
    · simp [between, hreq.1, hreq.2]
    · have hnone (q : P) : between q p epoch req = false := by
        rw [between, decide_eq_false_iff_not]
        exact fun h => hreq h.2
      simp [hnone, hreq]

theorem Inv.applied_between (h : s.Inv) (hpos : 0 < s.fences p) :
    ∑ q, (s.world.modules p).window.countP (between q p (s.fences p - 1)) = s.applied p := by
  rw [sum_between, applied]
  refine countP_congr fun req hreq => ?_
  have htarget := (h.windowAt p req hreq).1
  simp only [htarget, true_and, decide_eq_true_eq]
  omega

theorem Inv.incoming_between (h : s.Inv) (hall : ∀ q, s.fences p ≤ s.fences q) (hpos : 0 < s.fences p) :
    s.incoming (s.fences p - 1) p = ∑ q, s.issued.countP (between q p (s.fences p - 1)) := by
  refine Finset.sum_congr rfl fun q _ => h.given q p _ ?_
  have hq := hall q
  omega

omit [Fintype P] in
theorem between_ends {req : Sendreq P} (h : between q p epoch req = true) :
    req.origin = q ∧ req.target = p ∧ req.epoch = epoch := by
  rwa [between, decide_eq_true_eq] at h

theorem Inv.window_le (h : s.Inv) (q p : P) (epoch : ℕ) :
    (s.world.modules p).window.countP (between q p epoch) ≤ s.issued.countP (between q p epoch) := by
  rw [h.conserved q p (between q p epoch) fun req hreq => ⟨(between_ends hreq).1, (between_ends hreq).2.1⟩]
  exact Nat.le_add_left ..

theorem Inv.applied_le (h : s.Inv) (hall : ∀ q, s.fences p ≤ s.fences q) (hpos : 0 < s.fences p) :
    s.applied p ≤ s.incoming (s.fences p - 1) p := by
  rw [h.incoming_between hall hpos, ← h.applied_between hpos]
  exact Finset.sum_le_sum fun q _ => h.window_le q p _

theorem Inv.none_open (h : s.Inv) (hall : ∀ q, s.fences p ≤ s.fences q) (hpos : 0 < s.fences p)
    (hle : s.incoming (s.fences p - 1) p ≤ s.applied p) {req : Sendreq P} (htarget : req.target = p)
    (hepoch : req.epoch + 1 = s.fences p) :
    req ∉ s.unapplied ∧ req ∉ (s.world.modules req.origin).copyPendingSendreqs := by
  have hsum : ∑ q, (s.world.modules p).window.countP (between q p (s.fences p - 1)) =
      ∑ q, s.issued.countP (between q p (s.fences p - 1)) := by
    rw [← h.incoming_between hall hpos, h.applied_between hpos]
    exact le_antisymm (h.applied_le hall hpos) hle
  rw [Finset.sum_eq_sum_iff_of_le fun q _ => h.window_le q p _] at hsum
  have hsame := hsum req.origin (Finset.mem_univ _)
  have hsplit := h.conserved req.origin p (between req.origin p (s.fences p - 1))
    fun req hreq => ⟨(between_ends hreq).1, (between_ends hreq).2.1⟩
  have hreq : between req.origin p (s.fences p - 1) req = true := by
    rw [between, decide_eq_true_eq]
    exact ⟨rfl, htarget, by omega⟩
  refine ⟨fun hopen => ?_, fun hopen => ?_⟩ <;>
    have hpos := countP_pos_iff.mpr ⟨req, hopen, hreq⟩ <;> omega

end Counters

section Steps

variable [Fintype P] {z : Sizes} {s s' : Fence P} {p : P}

theorem Books.congr {m : Module P} {phase : FencePhase} (h : s.Books p m phase)
    (hunfinished : s'.unfinished p = s.unfinished p) (happlied : s'.applied p = s.applied p)
    (hgiven : s'.given = s.given) : s'.Books p m phase := by
  have hfences : s'.fences p = s.fences p := by rw [fences, fences, hgiven]
  have hincoming (epoch : ℕ) : s'.incoming epoch p = s.incoming epoch p := by rw [incoming, incoming, hgiven]
  cases phase <;> simpa only [Books, hunfinished, happlied, hfences, hincoming] using h

omit [Fintype P] in
theorem countP_own {q : P} {reqs : List (Sendreq P)} {f : Sendreq P → Bool} (hreqs : ∀ req ∈ reqs, req.origin = p)
    (hf : ∀ req, f req → req.origin = q) : (if q = p then reqs else []).countP f = reqs.countP f := by
  split_ifs with hq
  · rfl
  · refine (countP_eq_zero.mpr fun req hreq hfreq => hq ?_).symm
    rw [← hf req hfreq, hreqs req hreq]

/-- A process sends some of the requests that it copied, and changes its counters. -/
structure Moves (s : Fence P) (p : P) (m : Module P) (new : List (Item P)) (phase : FencePhase)
    (moved : List (Sendreq P)) : Prop where
  same : ∃ numPendingIn numPendingOut copyPendingSendreqs, m = { s.world.modules p with
    numPendingIn := numPendingIn, numPendingOut := numPendingOut, copyPendingSendreqs := copyPendingSendreqs }
  copy : (s.world.modules p).copyPendingSendreqs = moved ++ m.copyPendingSendreqs
  plain : ∀ i ∈ new, i.Placed ∧ i.Plain
  unapplied : new.flatMap Item.unapplied = moved
  incomplete : new.flatMap Item.incomplete = moved
  books : (s.act p (m, new) phase).Books p m phase
  left : s.left p ≤ (s.act p (m, new) phase).left p
  left_le : ∀ q, (s.act p (m, new) phase).left p ≤ s.fences q
  sent : ∀ req ∈ moved, req.epoch + 1 ≤ (s.act p (m, new) phase).left p
  past : phase = .outside → ∀ req, req.target = p → req.epoch + 1 = s.fences p →
    req ∉ s.unapplied ∧ (∀ q, req ∉ (s.world.modules q).copyPendingSendreqs)

theorem Inv.moves (h : s.Inv) {m : Module P} {new : List (Item P)} {phase : FencePhase}
    {moved : List (Sendreq P)} (hm : Moves s p m new phase moved) : (s.act p (m, new) phase).Inv := by
  have hmod (q : P) : ∃ numPendingIn numPendingOut copyPendingSendreqs,
      update s.world.modules p m q = { s.world.modules q with
        numPendingIn := numPendingIn, numPendingOut := numPendingOut
        copyPendingSendreqs := copyPendingSendreqs } ∧
      (s.world.modules q).copyPendingSendreqs = (if q = p then moved else []) ++ copyPendingSendreqs := by
    by_cases hq : q = p
    · subst hq
      obtain ⟨_, _, _, heq⟩ := hm.same
      have hcopy := hm.copy
      rw [update_self, if_pos rfl]
      rw [heq] at hcopy ⊢
      exact ⟨_, _, _, rfl, hcopy⟩
    · rw [update_of_ne hq, if_neg hq]
      exact ⟨_, _, _, rfl, rfl⟩
  have hfences (q : P) : (s.act p (m, new) phase).fences q = s.fences q := rfl
  have hleft (q : P) (hq : q ≠ p) : (s.act p (m, new) phase).left q = s.left q := by
    simp [Fence.left, act, hq, fences]
  have hmono (q : P) : s.left q ≤ (s.act p (m, new) phase).left q := by
    by_cases hq : q = p
    · rw [hq]
      exact hm.left
    · rw [hleft q hq]
  have hmoved : ∀ req ∈ moved, req.origin = p := by
    intro req hreq
    refine (h.copyAt p req ?_).1
    rw [hm.copy]
    exact mem_append_left _ hreq
  have hunapplied : (s.act p (m, new) phase).unapplied = s.unapplied ++ moved := by
    simp [Fence.unapplied, act, World.act, hm.unapplied]
  have hincomplete : (s.act p (m, new) phase).incomplete = s.incomplete ++ moved := by
    simp [Fence.incomplete, act, World.act, hm.incomplete]
  have hopen (req : Sendreq P) (hreq : ¬ s.Returned req.target req.epoch)
      (hsome : req ∈ s.unapplied ∨ ∃ q, req ∈ (s.world.modules q).copyPendingSendreqs) :
      ¬ (s.act p (m, new) phase).Returned req.target req.epoch := by
    rintro (hless | ⟨hlast, hphase⟩)
    · exact hreq (.inl hless)
    · by_cases hp : req.target = p
      · dsimp only [act] at hphase
        rw [hp, update_self] at hphase
        obtain ⟨hnone, hnone'⟩ := hm.past hphase req hp (hp ▸ hlast)
        rcases hsome with hopen | ⟨q, hopen⟩
        · exact hnone hopen
        · exact hnone' q hopen
      · dsimp only [act] at hphase
        rw [update_of_ne hp] at hphase
        exact hreq (.inr ⟨hlast, hphase⟩)
  refine ⟨fun i hi => ?_, fun q => ?_, fun q => ?_, fun q => ?_, fun q => ?_, fun req hreq => ?_, fun req hreq => ?_,
    fun q => ?_, fun q => ?_, fun q => ?_, h.given, fun q r => ?_, fun q r f hf => ?_, fun q f hf => ?_,
    fun req hreq => ?_, fun q req hreq => ?_⟩
  · rcases mem_append.mp hi with hi | hi
    · exact h.plain i hi
    · exact hm.plain i hi
  · obtain ⟨_, _, _, hq, -⟩ := hmod q
    dsimp only [act, World.act]
    rw [hq]
    exact h.locks q
  · by_cases hq : q = p
    · subst hq
      dsimp only [act, World.act]
      rw [update_self, update_self]
      exact hm.books
    · dsimp only [act, World.act]
      rw [update_of_ne hq, update_of_ne hq]
      refine (h.books q).congr ?_ ?_ rfl
      · have hnone : moved.countP (fun req => decide (req.origin = q)) = 0 := by
          refine countP_eq_zero.mpr fun req hreq => ?_
          rw [decide_eq_true_eq, hmoved req hreq]
          exact Ne.symm hq
        exact (congrArg _ hincomplete).trans (by rw [countP_append, hnone]; rfl)
      · obtain ⟨_, _, _, hmod, -⟩ := hmod q
        dsimp only [applied, act, World.act]
        rw [hmod]
        rfl
  · obtain ⟨_, _, _, hq, -⟩ := hmod q
    dsimp only [act, World.act]
    rw [hq]
    exact h.pendingAt q
  · obtain ⟨_, _, _, hq, hcopy⟩ := hmod q
    have hat := h.copyAt q
    rw [hcopy] at hat
    dsimp only [act, World.act]
    rw [hq]
    exact fun req hreq => hat req (mem_append_right _ hreq)
  · rw [hunapplied] at hreq
    rcases mem_append.mp hreq with hreq | hreq
    · exact (h.unappliedAt req hreq).trans (hmono _)
    · rw [hmoved req hreq]
      exact hm.sent req hreq
  · rw [hincomplete] at hreq
    rcases mem_append.mp hreq with hreq | hreq
    · exact (h.incompleteAt req hreq).trans (hmono _)
    · rw [hmoved req hreq]
      exact hm.sent req hreq
  · obtain ⟨_, _, _, hq, -⟩ := hmod q
    dsimp only [act, World.act]
    rw [hq]
    exact fun req hreq => (h.windowAt q req hreq).imp id fun hle => hle.trans (hmono _)
  · obtain ⟨_, _, _, hq, -⟩ := hmod q
    dsimp only [act, World.act]
    rw [hq]
    exact fun req hreq => (h.completedAt q req hreq).imp id fun hle => hle.trans (hmono _)
  · obtain ⟨_, _, _, hq, -⟩ := hmod q
    dsimp only [act, World.act]
    rw [hq]
    exact h.counts q
  · by_cases hq : q = p
    · rw [hq]
      exact hm.left_le r
    · rw [hleft q hq]
      exact h.left_le q r
  · obtain ⟨_, _, _, hq, hcopy⟩ := hmod q
    obtain ⟨_, _, _, hr, -⟩ := hmod r
    have hsplit := h.conserved q r f hf
    rw [hcopy, countP_append, countP_own hmoved fun req hreq => (hf req hreq).1] at hsplit
    rw [hunapplied, countP_append]
    dsimp only [act, World.act]
    rw [hq, hr, hsplit]
    dsimp only
    omega
  · obtain ⟨_, _, _, hq, hcopy⟩ := hmod q
    have hsplit := h.finished q f hf
    rw [hcopy, countP_append, countP_own hmoved hf] at hsplit
    rw [hincomplete, countP_append]
    dsimp only [act, World.act]
    rw [hq, hsplit]
    dsimp only
    omega
  · rw [hunapplied] at hreq
    rcases mem_append.mp hreq with hreq | hreq
    · exact hopen req (h.unappliedOpen req hreq) (.inl hreq)
    · have hcopy : req ∈ (s.world.modules p).copyPendingSendreqs := by
        rw [hm.copy]
        exact mem_append_left _ hreq
      exact hopen req (h.copyOpen p req hcopy) (.inr ⟨p, hcopy⟩)
  · obtain ⟨_, _, _, hq, hcopy⟩ := hmod q
    dsimp only [act, World.act] at hreq
    rw [hq] at hreq
    have hmem : req ∈ (s.world.modules q).copyPendingSendreqs := by
      rw [hcopy]
      exact mem_append_right _ hreq
    exact hopen req (h.copyOpen q req hmem) (.inr ⟨q, hmem⟩)

omit [Fintype P] in
theorem act_counts (m : Module P) (new : List (Item P)) (phase : FencePhase) {moved : List (Sendreq P)}
    (hwindow : m.window = (s.world.modules p).window) (hnew : new.flatMap Item.incomplete = moved)
    (hmoved : ∀ req ∈ moved, req.origin = p) :
    (s.act p (m, new) phase).applied p = s.applied p ∧
      (s.act p (m, new) phase).unfinished p = s.unfinished p + moved.length := by
  constructor
  · dsimp only [applied, act, World.act]
    rw [update_self, hwindow]
    rfl
  · have hall : moved.countP (fun req => decide (req.origin = p)) = moved.length :=
      countP_eq_length.mpr fun req hreq => decide_eq_true (hmoved req hreq)
    dsimp only [unfinished, Fence.incomplete, act, World.act]
    rw [flatMap_append, hnew, countP_append, hall]

omit [DecidableEq P] [Fintype P] in
theorem left_eq (hphase : ∀ outgoing, s.phase p ≠ .collective outgoing) : s.left p = s.fences p := by
  rw [left]
  split
  · rename_i outgoing hcollective
    exact absurd hcollective (hphase outgoing)
  · rfl

theorem Inv.leave (h : s.Inv) {outgoing : ℕ} (hcollective : s.phase p = .collective outgoing)
    (hall : ∀ q, s.fences p ≤ s.fences q) :
    (s.act p (s.world.modules p, []) (.sending outgoing (s.incoming (s.fences p - 1) p))).Inv := by
  have hbooks := h.books p
  rw [hcollective] at hbooks
  obtain ⟨hpending, hcopy, hin, hout, hunfinished, hpos⟩ := hbooks
  obtain ⟨happlied', hunfinished'⟩ := act_counts (s := s) (p := p) (s.world.modules p) []
    (.sending outgoing (s.incoming (s.fences p - 1) p)) rfl List.flatMap_nil (by simp)
  have hleft : (s.act p (s.world.modules p, []) (.sending outgoing (s.incoming (s.fences p - 1) p))).left p =
      s.fences p := by simp [left, act, fences]
  refine h.moves ⟨⟨_, _, _, rfl⟩, rfl, by simp, rfl, rfl, ⟨hpending, rfl, ?_, ?_, hpos⟩, ?_, ?_, by simp, by simp⟩
  · rw [happlied', hin]
  · rw [hunfinished', hout, hunfinished, hcopy]
    simp
  · rw [hleft, left, hcollective]
    exact Nat.sub_le ..
  · rw [hleft]
    exact hall

theorem Inv.send (h : s.Inv) {outgoing incoming : ℕ} {req : Sendreq P} {rest : List (Sendreq P)}
    (hsending : s.phase p = .sending outgoing incoming)
    (hcopy : (s.world.modules p).copyPendingSendreqs = req :: rest) :
    (s.act p (fenceSend z p (s.world.modules p) req rest) (.sending outgoing incoming)).Inv := by
  have hbooks := h.books p
  rw [hsending] at hbooks
  obtain ⟨hpending, hincoming, hin, hout, hpos⟩ := hbooks
  obtain ⟨horigin, hepoch⟩ := h.copyAt p req (by rw [hcopy]; exact mem_cons_self)
  have hnew : (sendreqSend z p req).flatMap Item.incomplete = [req] := sendreqSend_incomplete z p req
  obtain ⟨happlied', hunfinished'⟩ := act_counts (s := s) (p := p)
    { s.world.modules p with copyPendingSendreqs := rest } (sendreqSend z p req) (.sending outgoing incoming)
    rfl hnew (by simpa using horigin)
  have hleft : (s.act p (fenceSend z p (s.world.modules p) req rest) (.sending outgoing incoming)).left p =
      s.fences p := by simp [left, act, fences]
  have hbefore : s.left p = s.fences p := left_eq (by simp [hsending])
  refine h.moves ⟨⟨_, _, _, rfl⟩, hcopy, fun i hi => ?_, sendreqSend_unapplied z p req, hnew,
    ⟨hpending, hincoming, ?_, ?_, hpos⟩, ?_, ?_, ?_, by simp⟩
  · exact ⟨sendreqSend_placed z p horigin i hi, sendreqSend_plain p req i hi⟩
  · rw [happlied', ← hin]
  · rw [hunfinished']
    rw [hcopy] at hout
    simp only [length_cons, length_nil] at hout ⊢
    omega
  · exact (hbefore.trans hleft.symm).le
  · intro q
    refine hleft.le.trans ?_
    rw [← hbefore]
    exact h.left_le p q
  · intro req' hreq'
    rw [mem_singleton.mp hreq', hepoch]
    exact hleft.ge

theorem Inv.count (h : s.Inv) {outgoing incoming : ℕ} (hsending : s.phase p = .sending outgoing incoming)
    (hcopy : (s.world.modules p).copyPendingSendreqs = []) :
    (s.act p (fenceCount (s.world.modules p) incoming outgoing, []) .waiting).Inv := by
  have hbooks := h.books p
  rw [hsending] at hbooks
  obtain ⟨hpending, hincoming, hin, hout, hpos⟩ := hbooks
  obtain ⟨happlied', hunfinished'⟩ := act_counts (s := s) (p := p)
    (fenceCount (s.world.modules p) incoming outgoing) [] .waiting rfl List.flatMap_nil (by simp)
  have hleft : (s.act p (fenceCount (s.world.modules p) incoming outgoing, []) .waiting).left p = s.fences p := by
    simp [left, act, fences]
  have hbefore : s.left p = s.fences p := left_eq (by simp [hsending])
  refine h.moves ⟨⟨_, _, _, rfl⟩, rfl, by simp, rfl, rfl, ⟨hpending, hcopy, ?_, ?_, hpos⟩, ?_, ?_, by simp, by simp⟩
  · rw [happlied', fenceCount, hin, hincoming]
    dsimp only
    rw [add_comm]
    rfl
  · rw [hunfinished', fenceCount]
    rw [hcopy] at hout
    simpa using hout
  · rw [hleft, hbefore]
  · rw [hleft, ← hbefore]
    exact h.left_le p

theorem Inv.settled (h : s.Inv) (hwaiting : s.phase p = .waiting) (hdone : ¬ FenceWaits (s.world.modules p)) :
    s.incoming (s.fences p - 1) p = s.applied p ∧ (s.world.modules p).numPendingIn = 0 ∧ s.unfinished p = 0 := by
  have hbooks := h.books p
  rw [hwaiting] at hbooks
  obtain ⟨-, -, hin, hout, hpos⟩ := hbooks
  rw [FenceWaits, not_or, not_not] at hdone
  have hbefore : s.left p = s.fences p := left_eq (by simp [hwaiting])
  have hle := h.applied_le (fun q => hbefore ▸ h.left_le p q) hpos
  omega

theorem Inv.ret (h : s.Inv) (hwaiting : s.phase p = .waiting) (hdone : ¬ FenceWaits (s.world.modules p)) :
    (s.act p (s.world.modules p, []) .outside).Inv := by
  obtain ⟨hall, hin, hunfinished⟩ := h.settled hwaiting hdone
  have hbooks := h.books p
  rw [hwaiting] at hbooks
  obtain ⟨hpending, hcopy, -, hout, hpos⟩ := hbooks
  obtain ⟨happlied', hunfinished'⟩ := act_counts (s := s) (p := p) (s.world.modules p) [] .outside
    rfl List.flatMap_nil (by simp)
  have hleft : (s.act p (s.world.modules p, []) .outside).left p = s.fences p := by simp [left, act, fences]
  have hbefore : s.left p = s.fences p := left_eq (by simp [hwaiting])
  have hentered (q : P) : s.fences p ≤ s.fences q := hbefore ▸ h.left_le p q
  refine h.moves ⟨⟨_, _, _, rfl⟩, rfl, by simp, rfl, rfl, ⟨hcopy, hin, ?_, ?_⟩, ?_, ?_, by simp, ?_⟩
  · rw [hout, hunfinished]
    rfl
  · rw [hunfinished', hunfinished]
    rfl
  · rw [hleft, hbefore]
  · rw [hleft]
    exact hentered
  · intro _ req htarget hepoch
    obtain ⟨hunapplied, hcopied⟩ := h.none_open hentered hpos hall.le htarget hepoch
    refine ⟨hunapplied, fun q hreq => hcopied ?_⟩
    rw [(h.copyAt q req hreq).1]
    exact hreq

theorem Inv.request (h : s.Inv) {req : Sendreq P} (houtside : s.phase req.origin = .outside)
    (hepoch : req.epoch = s.fences req.origin) :
    Inv { s.act req.origin (enqueueSendreq (s.world.modules req.origin) req, []) .outside with
      issued := s.issued ++ [req] } := by
  have hphase : update s.phase req.origin .outside = s.phase := by rw [← houtside, Function.update_eq_self]
  have hnet : s.world.net ++ ([] : List (Item P)) = s.world.net := append_nil _
  have hmod (q : P) : ∃ counts, update s.world.modules req.origin
      (enqueueSendreq (s.world.modules req.origin) req) q = { s.world.modules q with
        pendingSendreqs := (s.world.modules q).pendingSendreqs ++ if q = req.origin then [req] else []
        numPendingSendreqs := counts } ∧ ∀ r, counts r =
        ((s.world.modules q).pendingSendreqs ++ if q = req.origin then [req] else []).countP
          fun req => req.target = r := by
    have hcounts := h.counts q
    by_cases hq : q = req.origin
    · subst hq
      rw [update_self, if_pos rfl]
      refine ⟨_, rfl, fun r => ?_⟩
      rw [countP_append, ← hcounts]
      by_cases hr : r = req.target
      · simp [hr]
      · simp [hr, Ne.symm hr]
    · rw [update_of_ne hq, if_neg hq]
      simp only [append_nil]
      exact ⟨_, rfl, hcounts⟩
  have hown : ∀ req' ∈ [req], req'.origin = req.origin := by simp
  simp only [act, World.act, hphase, hnet]
  generalize update s.world.modules req.origin (enqueueSendreq (s.world.modules req.origin) req) = modules at hmod
  refine ⟨h.plain, fun q => ?_, fun q => ?_, fun q => ?_, fun q => ?_, h.unappliedAt, h.incompleteAt, fun q => ?_,
    fun q => ?_, fun q r => ?_, fun q r epoch hepoch' => ?_, h.left_le, fun q r f hf => ?_, fun q f hf => ?_,
    h.unappliedOpen, fun q => ?_⟩
  all_goals obtain ⟨counts, hq, hcounts⟩ := hmod q
  · dsimp only
    rw [hq]
    exact h.locks q
  · have hbooks : (⟨⟨modules, s.world.net, s.world.made⟩, s.phase, s.given, s.issued ++ [req]⟩ : Fence P).Books q
        (s.world.modules q) (s.phase q) := (h.books q).congr rfl (by dsimp only [applied]; rw [hq]; rfl) rfl
    dsimp only
    rw [hq]
    by_cases hqo : q = req.origin
    · subst hqo
      rw [houtside] at hbooks ⊢
      exact hbooks
    · simp only [if_neg hqo, append_nil]
      cases hphase : s.phase q <;> rw [hphase] at hbooks <;> exact hbooks
  · dsimp only
    rw [hq]
    intro req' hreq'
    rcases mem_append.mp hreq' with hreq' | hreq'
    · exact h.pendingAt q req' hreq'
    · split_ifs at hreq' with hqo
      · rw [mem_singleton.mp hreq', hqo]
        exact ⟨rfl, hepoch⟩
      · cases hreq'
  · dsimp only
    rw [hq]
    exact h.copyAt q
  · dsimp only
    rw [hq]
    exact h.windowAt q
  · dsimp only
    rw [hq]
    exact h.completedAt q
  · dsimp only
    rw [hq]
    exact hcounts r
  · have hnone : between q r epoch req = false := by
      rw [between, decide_eq_false_iff_not]
      rintro ⟨horigin, -, hreq⟩
      rw [horigin] at hepoch
      have hless : epoch < s.fences q := hepoch'
      omega
    dsimp only
    rw [h.given q r epoch hepoch', countP_append, countP_singleton, hnone]
    rfl
  · obtain ⟨_, hr, -⟩ := hmod r
    have hsplit := h.conserved q r f hf
    dsimp only
    rw [hq, hr, countP_append, countP_append, countP_own hown fun req hreq => (hf req hreq).1, hsplit]
    simp only [Fence.unapplied]
    omega
  · have hsplit := h.finished q f hf
    dsimp only
    rw [hq, countP_append, countP_append, countP_own hown hf, hsplit]
    simp only [Fence.incomplete]
    omega
  · dsimp only
    rw [hq]
    exact h.copyOpen q

omit [DecidableEq P] [Fintype P] in
theorem Returned.le_left {epoch : ℕ} (h : s.Returned p epoch) : epoch + 1 ≤ s.left p := by
  rcases h with hless | ⟨hlast, houtside⟩
  · rw [left]
    split <;> omega
  · rw [left_eq (by simp [houtside])]
    exact hlast.le

structure Enters (s s' : Fence P) (p : P) : Prop where
  self : s'.world.modules p = { s.world.modules p with
    copyNumPendingSendreqs := (s.world.modules p).numPendingSendreqs, numPendingSendreqs := fun _ => 0
    copyPendingSendreqs := (s.world.modules p).pendingSendreqs, pendingSendreqs := [] }
  others : ∀ q, q ≠ p → s'.world.modules q = s.world.modules q
  phase : s'.phase p = .collective (s.world.modules p).pendingSendreqs.length
  phases : ∀ q, q ≠ p → s'.phase q = s.phase q
  gives : s'.given p = s.given p ++ [(s.world.modules p).numPendingSendreqs]
  given : ∀ q, q ≠ p → s'.given q = s.given q
  net : s'.world.net = s.world.net
  issued : s'.issued = s.issued

namespace Enters

variable (he : Enters s s' p)
include he

omit [Fintype P] in
theorem fences (q : P) : s'.fences q = s.fences q + if q = p then 1 else 0 := by
  by_cases hq : q = p
  · rw [Fence.fences, hq, he.gives, if_pos rfl, length_append]
    rfl
  · rw [Fence.fences, he.given q hq, if_neg hq]
    rfl

omit [Fintype P] in
theorem left (houtside : s.phase p = .outside) (q : P) : s'.left q = s.left q := by
  by_cases hq : q = p
  · have hfences := he.fences q
    rw [if_pos hq] at hfences
    rw [hq] at hfences ⊢
    rw [Fence.left, Fence.left, he.phase, houtside]
    dsimp only
    omega
  · have hfences := he.fences q
    rw [if_neg hq] at hfences
    rw [Fence.left, Fence.left, he.phases q hq, hfences]
    rfl

omit [Fintype P] in
theorem returned (houtside : s.phase p = .outside) {q : P} {epoch : ℕ} (h : s'.Returned q epoch) :
    s.Returned q epoch := by
  have hfences := he.fences q
  by_cases hq : q = p
  · rw [if_pos hq] at hfences
    subst hq
    rcases h with hless | ⟨-, hphase⟩
    · rcases lt_or_ge (epoch + 1) (s.fences q) with hless' | hge
      · exact .inl hless'
      · exact .inr ⟨by omega, houtside⟩
    · rw [he.phase] at hphase
      cases hphase
  · rw [if_neg hq] at hfences
    rw [Returned, hfences, he.phases q hq] at h
    exact h

omit [DecidableEq P] in
theorem incoming {epoch : ℕ} (hepoch : epoch < s.fences p) (q : P) : s'.incoming epoch q = s.incoming epoch q := by
  refine Finset.sum_congr rfl fun r _ => ?_
  by_cases hr : r = p
  · rw [hr, he.gives, getD_append _ _ _ _ hepoch]
  · rw [he.given r hr]

end Enters

theorem Inv.entered (h : s.Inv) (houtside : s.phase p = .outside) (he : Enters s s' p) : s'.Inv := by
  have hbooks := h.books p
  rw [houtside] at hbooks
  obtain ⟨hcopy, hin, hout, hunfinished⟩ := hbooks
  have hleft : s.left p = s.fences p := left_eq (by simp [houtside])
  have hunapplied : s'.unapplied = s.unapplied := by rw [unapplied, unapplied, he.net]
  have hincomplete : s'.incomplete = s.incomplete := by rw [incomplete, incomplete, he.net]
  have hwindow (q : P) : (s'.world.modules q).window = (s.world.modules q).window := by
    by_cases hq : q = p
    · rw [hq, he.self]
    · rw [he.others q hq]
  have hsplit (q : P) (f : Sendreq P → Bool) : (s'.world.modules q).pendingSendreqs.countP f +
      (s'.world.modules q).copyPendingSendreqs.countP f = (s.world.modules q).pendingSendreqs.countP f +
        (s.world.modules q).copyPendingSendreqs.countP f := by
    by_cases hq : q = p
    · rw [hq, he.self, hcopy]
      exact add_comm ..
    · rw [he.others q hq]
  have hwindowAt : ∀ req ∈ (s.world.modules p).window, req.epoch + 1 ≤ s.fences p := fun req hreq =>
    (h.windowAt p req hreq).2.trans (h.left_le _ p)
  refine ⟨he.net ▸ h.plain, fun q => ?_, fun q => ?_, fun q => ?_, fun q => ?_, fun req hreq => ?_, fun req hreq => ?_,
    fun q => ?_, fun q => ?_, fun q r => ?_, fun q r epoch hepoch => ?_, fun q r => ?_, fun q r f hf => ?_,
    fun q f hf => ?_, fun req hreq hreturned => ?_, fun q req hreq hreturned => ?_⟩
  · by_cases hq : q = p
    · rw [hq, he.self]
      exact h.locks p
    · rw [he.others q hq]
      exact h.locks q
  · have hfences := he.fences q
    by_cases hq : q = p
    · subst hq
      rw [if_pos rfl] at hfences
      rw [he.self, he.phase]
      refine ⟨rfl, rfl, ?_, hout, ?_, by omega⟩
      · have hnone : s'.applied q = 0 := by
          rw [applied, hwindow]
          refine countP_eq_zero.mpr fun req hreq => ?_
          have hle := hwindowAt req hreq
          rw [decide_eq_true_eq]
          omega
        rw [hin, hnone]
        rfl
      · rw [unfinished, hincomplete]
        exact hunfinished
    · rw [if_neg hq, add_zero] at hfences
      rw [he.others q hq, he.phases q hq]
      have hsame : s'.unfinished q = s.unfinished q ∧ s'.applied q = s.applied q := by
        rw [unfinished, hincomplete, applied, hwindow, hfences]
        exact ⟨rfl, rfl⟩
      have hincoming (hpos : 0 < s.fences q) (hphase : s.left q = s.fences q) :
          s'.incoming (s.fences q - 1) q = s.incoming (s.fences q - 1) q := by
        refine he.incoming ?_ q
        have hle := h.left_le q p
        omega
      have hbooks := h.books q
      cases hphase : s.phase q with
      | outside =>
        rw [hphase] at hbooks
        exact ⟨hbooks.1, hbooks.2.1, hbooks.2.2.1, hsame.1.trans hbooks.2.2.2⟩
      | collective outgoing =>
        rw [hphase] at hbooks
        simpa only [Books, hsame, hfences] using hbooks
      | sending outgoing incoming =>
        rw [hphase] at hbooks
        have hincoming := hincoming hbooks.2.2.2.2 (left_eq (by simp [hphase]))
        simpa only [Books, hsame, hfences, hincoming] using hbooks
      | waiting =>
        rw [hphase] at hbooks
        have hincoming := hincoming hbooks.2.2.2.2 (left_eq (by simp [hphase]))
        simpa only [Books, hsame, hfences, hincoming] using hbooks
  · have hfences := he.fences q
    by_cases hq : q = p
    · rw [hq, he.self]
      simp
    · rw [if_neg hq] at hfences
      rw [he.others q hq, hfences]
      exact h.pendingAt q
  · have hfences := he.fences q
    by_cases hq : q = p
    · subst hq
      rw [if_pos rfl] at hfences
      rw [he.self, hfences]
      exact fun req hreq => (h.pendingAt q req hreq).imp id fun hepoch => by rw [hepoch]
    · rw [if_neg hq] at hfences
      rw [he.others q hq, hfences]
      exact h.copyAt q
  · rw [he.left houtside]
    exact h.unappliedAt req (hunapplied ▸ hreq)
  · rw [he.left houtside]
    exact h.incompleteAt req (hincomplete ▸ hreq)
  · rw [hwindow]
    simp only [he.left houtside]
    exact h.windowAt q
  · have hcompleted : (s'.world.modules q).completed = (s.world.modules q).completed := by
      by_cases hq : q = p
      · rw [hq, he.self]
      · rw [he.others q hq]
    rw [hcompleted, he.left houtside]
    exact h.completedAt q
  · by_cases hq : q = p
    · rw [hq, he.self]
      rfl
    · rw [he.others q hq]
      exact h.counts q r
  · rw [he.issued]
    have hfences := he.fences q
    by_cases hq : q = p
    · subst hq
      rw [if_pos rfl] at hfences
      rw [he.gives]
      rcases lt_or_ge epoch (s.fences q) with hless | hge
      · rw [getD_append _ _ _ _ hless]
        exact h.given q r epoch hless
      · obtain rfl : epoch = s.fences q := by omega
        have hsame := h.conserved q r (between q r (s.fences q))
          fun req hreq => ⟨(between_ends hreq).1, (between_ends hreq).2.1⟩
        have hpending : (s.world.modules q).pendingSendreqs.countP (between q r (s.fences q)) =
            (s.world.modules q).numPendingSendreqs r := by
          rw [h.counts]
          refine countP_congr fun req hreq => ?_
          obtain ⟨horigin, hepoch⟩ := h.pendingAt q req hreq
          simp [between, horigin, hepoch]
        have hnone : s.unapplied.countP (between q r (s.fences q)) = 0 := by
          refine countP_eq_zero.mpr fun req hreq hbetween => ?_
          obtain ⟨horigin, -, hepoch⟩ := between_ends hbetween
          have hle := h.unappliedAt req hreq
          rw [horigin, hleft] at hle
          omega
        have hnone' : (s.world.modules r).window.countP (between q r (s.fences q)) = 0 := by
          refine countP_eq_zero.mpr fun req hreq hbetween => ?_
          obtain ⟨horigin, -, hepoch⟩ := between_ends hbetween
          have hle := (h.windowAt r req hreq).2
          rw [horigin, hleft] at hle
          omega
        rw [hsame, hpending, hcopy, hnone, hnone', fences, getD_append_right _ _ _ _ (le_rfl),
          Nat.sub_self]
        rfl
    · rw [if_neg hq] at hfences
      rw [he.given q hq]
      exact h.given q r epoch (by omega)
  · rw [he.left houtside, he.fences]
    exact (h.left_le q r).trans (Nat.le_add_right ..)
  · have hsame := h.conserved q r f hf
    have hsplit := hsplit q f
    rw [he.issued, hunapplied, hwindow]
    omega
  · have hsame := h.finished q f hf
    have hsplit := hsplit q f
    have hcompleted : (s'.world.modules q).completed = (s.world.modules q).completed := by
      by_cases hq : q = p
      · rw [hq, he.self]
      · rw [he.others q hq]
    rw [he.issued, hincomplete, hcompleted]
    omega
  · exact h.unappliedOpen req (hunapplied ▸ hreq) (he.returned houtside hreturned)
  · have hbefore := he.returned houtside hreturned
    by_cases hq : q = p
    · subst hq
      rw [he.self] at hreq
      have hepoch := (h.pendingAt q req hreq).2
      have hle := hbefore.le_left.trans (h.left_le _ q)
      omega
    · rw [he.others q hq] at hreq
      exact h.copyOpen q req hreq hbefore

theorem Inv.enter (h : s.Inv) (houtside : s.phase p = .outside) :
    Inv { s.act p (flipSendreqs (s.world.modules p), [])
        (.collective (flipSendreqs (s.world.modules p)).copyPendingSendreqs.length) with
      given := update s.given p (s.given p ++ [(flipSendreqs (s.world.modules p)).copyNumPendingSendreqs]) } := by
  have hbooks := h.books p
  rw [houtside] at hbooks
  obtain ⟨hcopy, -⟩ := hbooks
  have hflip : flipSendreqs (s.world.modules p) = { s.world.modules p with
      copyNumPendingSendreqs := (s.world.modules p).numPendingSendreqs, numPendingSendreqs := fun _ => 0
      copyPendingSendreqs := (s.world.modules p).pendingSendreqs, pendingSendreqs := [] } := by
    rw [flipSendreqs, hcopy, nil_append]
  rw [hflip]
  exact h.entered houtside ⟨update_self .., fun q hq => update_of_ne hq .., update_self ..,
    fun q hq => update_of_ne hq .., update_self .., fun q hq => update_of_ne hq ..,
    append_nil _, rfl⟩

theorem Inv.over_current (h : s.Inv) {req : Sendreq P} (hreq : req ∈ s.unapplied) :
    req.epoch + 1 = s.fences req.target ∧ s.phase req.target ≠ .outside := by
  have hle := (h.unappliedAt req hreq).trans (h.left_le _ req.target)
  have hopen := h.unappliedOpen req hreq
  rw [Returned, not_or] at hopen
  obtain ⟨hless, hlast⟩ := hopen
  have heq : req.epoch + 1 = s.fences req.target := by omega
  exact ⟨heq, fun houtside => hlast ⟨heq, houtside⟩⟩

theorem Inv.come (h : s.Inv) {i : Item P} {w : World P} (hcomes : Comes z s.world i w) :
    Inv { s with world := w } := by
  obtain ⟨hplaced, hplain⟩ : i.Placed ∧ i.Plain := by
    refine h.plain i ?_
    cases hcomes with
    | intro hnet _ =>
      rw [hnet]
      exact mem_append_right _ mem_cons_self
  obtain ⟨past, done, hd⟩ := hcomes.delivered z hplaced
  obtain ⟨hannounced, hunlocked⟩ := plain_counts hplain
  have hunapplied (f : Sendreq P → Bool) : s.unapplied.countP f =
      past.countP f + (w.net.flatMap Item.unapplied).countP f := by
    rw [unapplied, hd.unapplied.countP_eq, countP_append]
  have hincomplete (f : Sendreq P → Bool) : s.incomplete.countP f =
      done.countP f + (w.net.flatMap Item.incomplete).countP f := by
    rw [incomplete, hd.incomplete.countP_eq, countP_append]
  have hover : ∀ req ∈ past, req ∈ s.unapplied := fun req hreq =>
    hd.unapplied.mem_iff.mpr (mem_append_left _ hreq)
  have hstay : ∀ req ∈ w.net.flatMap Item.unapplied, req ∈ s.unapplied := fun req hreq =>
    hd.unapplied.mem_iff.mpr (mem_append_right _ hreq)
  have hdone : ∀ req ∈ done, req ∈ s.incomplete := fun req hreq =>
    hd.incomplete.mem_iff.mpr (mem_append_left _ hreq)
  refine ⟨?_, ?_, fun q => ?_, fun q => ?_, fun q => ?_, fun req hreq => h.unappliedAt req (hstay req hreq),
    fun req hreq => ?_, fun q req hreq => ?_, fun q req hreq => ?_, fun q r => ?_, h.given, h.left_le,
    fun q r f hf => ?_, fun q f hf => ?_, fun req hreq => h.unappliedOpen req (hstay req hreq), fun q => ?_⟩
  · cases hcomes with
    | @intro before after _ hnet _ =>
      intro j hj
      rcases mem_append.mp hj with hold | hnew
      · refine h.plain j ?_
        rw [hnet]
        exact List.perm_middle.mem_iff.mpr (mem_cons_of_mem _ hold)
      · exact ⟨(handle_settles z _ hplaced).placed j hnew, (handle_plain hplain (h.locks _).1).2.2 j hnew⟩
  · cases hcomes with
    | intro hnet _ =>
      intro q
      obtain ⟨hunlocks, hlocks, -⟩ := handle_plain (z := z) hplain (h.locks i.owner).1
      dsimp only [World.act]
      by_cases hq : q = i.owner
      · rw [hq, update_self, hlocks]
        exact ⟨hunlocks, (h.locks i.owner).2⟩
      · rw [update_of_ne hq]
        exact h.locks q
  · have hbooks := h.books q
    have hin := hd.pendingIn q
    have hout := hd.pendingOut q
    have hunfinished : s.unfinished q =
        (if q = i.owner then done.length else 0) + unfinished { s with world := w } q := by
      rw [unfinished, hincomplete, countP_origin hd.origin]
      rfl
    have happlied : applied { s with world := w } q = s.applied q + if q = i.owner then past.length else 0 := by
      have hcurrent : (if q = i.owner then past else []).countP (fun req => decide (req.epoch + 1 = s.fences q)) =
          if q = i.owner then past.length else 0 := by
        split_ifs with hq
        · refine countP_eq_length.mpr fun req hreq => decide_eq_true ?_
          rw [hq, ← hd.target req hreq]
          exact (h.over_current (hover req hreq)).1
        · rfl
      dsimp only [applied]
      rw [hd.window, countP_append, ← hcurrent]
      rfl
    have hlast (hq : q = i.owner) (houtside : s.phase q = .outside) : past = [] := by
      refine eq_nil_iff_forall_not_mem.mpr fun req hreq => (h.over_current (hover req hreq)).2 ?_
      rw [hd.target req hreq, ← hq, houtside]
    rw [hannounced] at hin
    rw [hunlocked] at hout
    dsimp only
    cases hphase : s.phase q with
    | outside =>
      rw [hphase] at hbooks
      obtain ⟨hcopy, hin', hout', hnone⟩ := hbooks
      refine ⟨(hd.copyPending q).trans hcopy, ?_, ?_, ?_⟩
      · by_cases hq : q = i.owner
        · rw [hin, hin', if_pos hq, hlast hq hphase]
          rfl
        · rw [hin, hin', if_neg hq]
          rfl
      · split_ifs at hout hunfinished <;> omega
      · omega
    | collective outgoing =>
      rw [hphase] at hbooks
      obtain ⟨hpending, hcopy, hin', hout', hnone, hpos⟩ := hbooks
      refine ⟨(hd.pending q).trans hpending, hcopy.trans (congrArg _ (hd.copyPending q).symm), ?_, ?_, ?_, hpos⟩
      · split_ifs at hin happlied <;> omega
      · split_ifs at hout hunfinished <;> omega
      · omega
    | sending outgoing incoming =>
      rw [hphase] at hbooks
      obtain ⟨hpending, hincoming, hin', hout', hpos⟩ := hbooks
      refine ⟨(hd.pending q).trans hpending, hincoming, ?_, ?_, hpos⟩
      · split_ifs at hin happlied <;> omega
      · rw [hd.copyPending]
        split_ifs at hout hunfinished <;> omega
    | waiting =>
      rw [hphase] at hbooks
      obtain ⟨hpending, hcopy, hin', hout', hpos⟩ := hbooks
      refine ⟨(hd.pending q).trans hpending, (hd.copyPending q).trans hcopy, ?_, ?_, hpos⟩
      · have hsame : incoming { s with world := w } (fences { s with world := w } q - 1) q =
            s.incoming (s.fences q - 1) q := rfl
        rw [hsame]
        split_ifs at hin happlied <;> omega
      · split_ifs at hout hunfinished <;> omega
  · dsimp only
    rw [hd.pending]
    exact h.pendingAt q
  · dsimp only
    rw [hd.copyPending]
    exact h.copyAt q
  · exact h.incompleteAt req (hd.incomplete.mem_iff.mpr (mem_append_right _ hreq))
  · dsimp only at hreq
    rw [hd.window] at hreq
    rcases mem_append.mp hreq with hreq | hreq
    · exact h.windowAt q req hreq
    · split_ifs at hreq with hq
      · exact ⟨(hd.target req hreq).trans hq.symm, h.unappliedAt req (hover req hreq)⟩
      · cases hreq
  · dsimp only at hreq
    rw [hd.completed] at hreq
    rcases mem_append.mp hreq with hreq | hreq
    · exact h.completedAt q req hreq
    · split_ifs at hreq with hq
      · have horigin := (hd.origin req hreq).trans hq.symm
        exact ⟨horigin, horigin ▸ h.incompleteAt req (hdone req hreq)⟩
      · cases hreq
  · dsimp only
    rw [hd.numPending, hd.pending]
    exact h.counts q r
  · have hsame := h.conserved q r f hf
    have hown : (if r = i.owner then past else []).countP f = past.countP f := by
      split_ifs with hr
      · rfl
      · refine (countP_eq_zero.mpr fun req hreq hfreq => hr ?_).symm
        rw [← (hf req hfreq).2, hd.target req hreq]
    rw [hunapplied] at hsame
    dsimp only
    rw [hd.pending, hd.copyPending, hd.window, countP_append, hown, hsame]
    simp only [unapplied]
    omega
  · have hsame := h.finished q f hf
    rw [hincomplete] at hsame
    dsimp only
    rw [hd.pending, hd.copyPending, hd.completed, countP_append, countP_own hd.origin hf, hsame]
    simp only [incomplete]
    omega
  · dsimp only
    rw [hd.copyPending]
    exact h.copyOpen q

end Steps

end Fence

end OpenMPI.Osc
