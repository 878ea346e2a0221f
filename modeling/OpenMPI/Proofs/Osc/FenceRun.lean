import Mathlib.Data.Finset.Max
import OpenMPI.Proofs.Osc.Fence

/-!
# What a fence closes

All steps keep the books, so that a process that returns from a fence has seen the end of the epoch, and one
that waits waits for the fence of another.
-/

namespace OpenMPI.Osc.Fence

open BigOperators List

variable {P : Type*} [DecidableEq P] [Fintype P] {z : Sizes} {s s' : Fence P} {p q : P}

theorem Inv.init (hworld : s.world = .init) (hphase : ∀ p, s.phase p = .outside) (hgiven : ∀ p, s.given p = [])
    (hissued : s.issued = []) : s.Inv := by
  obtain ⟨world, phase, given, issued⟩ := s
  dsimp only at hworld hphase hgiven hissued
  subst hworld hissued
  have hfences (p : P) : fences (⟨.init, phase, given, []⟩ : Fence P) p = 0 := by
    dsimp only [fences]
    rw [hgiven]
    rfl
  refine ⟨?_, fun p => ⟨rfl, rfl⟩, fun p => ?_, ?_, ?_, ?_, ?_, ?_, ?_, fun p q => rfl, fun p q epoch hepoch => ?_,
    fun p q => ?_, fun p q f hf => rfl, fun p f hf => rfl, ?_, ?_⟩
  case refine_2 =>
    dsimp only
    rw [hphase]
    exact ⟨rfl, rfl, rfl, rfl⟩
  case refine_9 =>
    rw [hfences] at hepoch
    cases hepoch
  case refine_10 =>
    rw [left_eq (by simp [hphase]), hfences]
    exact Nat.zero_le _
  all_goals simp [unapplied, incomplete, World.init, Module.init]

theorem Inv.step {e : FenceStep P} (h : s.Inv) (hstep : Fence.step z s e s') : s'.Inv := by
  cases e with
  | request req =>
    obtain ⟨houtside, hepoch, rfl⟩ := hstep
    exact h.request houtside hepoch
  | noPrecede p =>
    obtain ⟨-, rfl⟩ := hstep
    exact h
  | enter p =>
    obtain ⟨houtside, m, rfl, rfl⟩ := hstep
    exact h.enter houtside
  | leave p =>
    obtain ⟨outgoing, hcollective, hall, rfl⟩ := hstep
    exact h.leave hcollective hall
  | send p =>
    obtain ⟨outgoing, incoming, req, rest, hsending, hcopy, rfl⟩ := hstep
    exact h.send hsending hcopy
  | count p =>
    obtain ⟨outgoing, incoming, hsending, hcopy, rfl⟩ := hstep
    exact h.count hsending hcopy
  | ret p =>
    obtain ⟨hwaiting, hdone, rfl⟩ := hstep
    exact h.ret hwaiting hdone
  | come i =>
    obtain ⟨hcomes, hs'⟩ := hstep
    rw [hs']
    exact h.come hcomes

theorem reachable_inv (h : (Fence.system z).Reachable s) : s.Inv :=
  h.invariant (fun _ h => .init h.1 h.2.1 h.2.2.1 h.2.2.2) fun _ _ _ hs hstep => hs.step hstep

theorem Inv.closed (h : s.Inv) (hwaiting : s.phase p = .waiting) (hdone : ¬ FenceWaits (s.world.modules p)) :
    (s.act p (s.world.modules p, []) .outside).Closed p := by
  obtain ⟨-, hin, hunfinished⟩ := h.settled hwaiting hdone
  have hafter := h.ret hwaiting hdone
  have hbooks := h.books p
  rw [hwaiting] at hbooks
  obtain ⟨hpending, hcopy, -, hout, hpos⟩ := hbooks
  have hleft : s.left p = s.fences p := left_eq (by simp [hwaiting])
  have hself : (s.act p (s.world.modules p, []) .outside).world.modules = s.world.modules :=
    Function.update_eq_self ..
  refine ⟨?_, ?_, fun req htarget hepoch => ?_, fun req horigin => ?_, fun req hreq => ?_⟩
  · rw [hself, hin]
  · rw [hself, hout, hunfinished]
    rfl
  · have hsplit := hafter.conserved req.origin p (· == req) fun r hr => by
      rw [beq_iff_eq] at hr
      exact ⟨by rw [hr], by rw [hr, htarget]⟩
    have hreturned : (s.act p (s.world.modules p, []) .outside).Returned req.target req.epoch := by
      rw [htarget]
      rcases Nat.lt_or_ge (req.epoch + 1) (s.fences p) with hless | hge
      · exact .inl hless
      · exact .inr ⟨Nat.le_antisymm hepoch hge, Function.update_self ..⟩
    have hnotPending : req ∉ ((s.act p (s.world.modules p, []) .outside).world.modules
        req.origin).pendingSendreqs := by
      intro hreq
      have hentered := h.left_le p req.origin
      have heq : req.epoch = s.fences req.origin := (hafter.pendingAt _ req hreq).2
      have hless : req.epoch < s.fences p := hepoch
      omega
    have hnotCopied := fun hreq => hafter.copyOpen req.origin req hreq hreturned
    have hnotOpen := fun hreq => hafter.unappliedOpen req hreq hreturned
    rw [← count_eq_countP, ← count_eq_countP, ← count_eq_countP, ← count_eq_countP,
      ← count_eq_countP, count_eq_zero.mpr hnotPending, count_eq_zero.mpr hnotCopied,
      count_eq_zero.mpr hnotOpen, Nat.zero_add] at hsplit
    exact hsplit.symm
  · have hsplit := h.finished p (· == req) fun r hr => by
      rw [beq_iff_eq] at hr
      rw [hr, horigin]
    have hnone : req ∉ s.incomplete := by
      rw [unfinished, countP_eq_zero] at hunfinished
      exact fun hreq => hunfinished req hreq (by simpa using horigin)
    rw [← count_eq_countP, ← count_eq_countP, ← count_eq_countP, ← count_eq_countP,
      ← count_eq_countP, hpending, hcopy, count_nil, count_eq_zero.mpr hnone, Nat.zero_add]
      at hsplit
    rw [hself]
    exact hsplit.symm
  · rw [hself] at hreq
    rcases hreq with hreq | hreq
    · exact (h.windowAt p req hreq).2.trans (h.left_le _ p)
    · exact (h.completedAt p req hreq).2.trans hleft.le

theorem Inv.all_applied (h : s.Inv) (hnet : s.world.net = []) (hentered : ∀ q, s.fences p ≤ s.fences q)
    (hpos : 0 < s.fences p)
    (hcopy : ∀ q, ∀ req ∈ (s.world.modules q).copyPendingSendreqs, req.epoch + 1 ≠ s.fences p) :
    s.incoming (s.fences p - 1) p = s.applied p := by
  rw [h.incoming_between hentered hpos, ← h.applied_between hpos]
  refine Finset.sum_congr rfl fun q _ => ?_
  rw [h.conserved q p (between q p (s.fences p - 1)) fun req hreq => ⟨(between_ends hreq).1, (between_ends hreq).2.1⟩]
  have hpending : (s.world.modules q).pendingSendreqs.countP (between q p (s.fences p - 1)) = 0 := by
    refine countP_eq_zero.mpr fun req hreq hbetween => ?_
    have hepoch := (h.pendingAt q req hreq).2
    have hbefore := (between_ends hbetween).2.2
    have hq := hentered q
    omega
  have hcopied : (s.world.modules q).copyPendingSendreqs.countP (between q p (s.fences p - 1)) = 0 := by
    refine countP_eq_zero.mpr fun req hreq hbetween => hcopy q req hreq ?_
    have hbefore := (between_ends hbetween).2.2
    omega
  rw [hpending, hcopied, unapplied, hnet, List.flatMap_nil, countP_nil, Nat.zero_add]

/-- A process that waits when nothing is left to do waits for a fence that another has not called. -/
theorem Inv.progress (h : s.Inv) (hidle : ∀ e s', e.Internal → ¬ Fence.step z s e s') (hp : s.phase p ≠ .outside) :
    (∃ outgoing, s.phase p = .collective outgoing) ∧ ∃ q, s.phase q = .outside ∧ s.fences q < s.fences p := by
  have hnet : s.world.net = [] := by
    by_contra hne
    obtain ⟨i, net, hnet⟩ := exists_cons_of_ne_nil hne
    exact hidle (.come i) { s with world := _ } trivial ⟨.intro (by rw [hnet, nil_append]) (by simp), rfl⟩
  have hsending (q : P) (outgoing incoming : ℕ) : s.phase q ≠ .sending outgoing incoming := by
    intro hphase
    cases hcopy : (s.world.modules q).copyPendingSendreqs with
    | nil => exact hidle (.count q) _ trivial ⟨outgoing, incoming, hphase, hcopy, rfl⟩
    | cons req rest => exact hidle (.send q) _ trivial ⟨outgoing, incoming, req, rest, hphase, hcopy, rfl⟩
  have hcollective (q : P) (outgoing : ℕ) (hphase : s.phase q = .collective outgoing) :
      ∃ r, s.fences r < s.fences q := by
    by_contra hall
    refine hidle (.leave q) _ trivial ⟨outgoing, hphase, fun r => ?_, rfl⟩
    exact Nat.le_of_not_lt fun hr => hall ⟨r, hr⟩
  have hwaiting (q : P) : s.phase q ≠ .waiting := by
    intro hphase
    have hbooks := h.books q
    rw [hphase] at hbooks
    obtain ⟨-, -, hin, hout, hpos⟩ := hbooks
    have hleft : s.left q = s.fences q := left_eq (by simp [hphase])
    have hentered (r : P) : s.fences q ≤ s.fences r := hleft ▸ h.left_le q r
    have hcopy (r : P) (req : Sendreq P) (hreq : req ∈ (s.world.modules r).copyPendingSendreqs) :
        req.epoch + 1 ≠ s.fences q := by
      intro hlast
      rw [(h.copyAt r req hreq).2] at hlast
      have hbooks := h.books r
      cases hphase : s.phase r with
      | outside =>
        rw [hphase] at hbooks
        rw [hbooks.1] at hreq
        cases hreq
      | collective outgoing =>
        obtain ⟨r', hr'⟩ := hcollective r outgoing hphase
        have hentered := hentered r'
        omega
      | sending outgoing incoming => exact hsending r outgoing incoming hphase
      | waiting =>
        rw [hphase] at hbooks
        rw [hbooks.2.1] at hreq
        cases hreq
    have hall := h.all_applied hnet hentered hpos hcopy
    have hunfinished : s.unfinished q = 0 := by
      rw [unfinished, incomplete, hnet]
      rfl
    refine hidle (.ret q) _ trivial ⟨hphase, ?_, rfl⟩
    rw [FenceWaits]
    omega
  have hinside (q : P) (hq : s.phase q ≠ .outside) : ∃ outgoing, s.phase q = .collective outgoing := by
    cases hphase : s.phase q with
    | outside => exact absurd hphase hq
    | collective outgoing => exact ⟨outgoing, rfl⟩
    | sending outgoing incoming => exact absurd hphase (hsending q outgoing incoming)
    | waiting => exact absurd hphase (hwaiting q)
  obtain ⟨outgoing, hphase⟩ := hinside p hp
  obtain ⟨r, hr⟩ := hcollective p outgoing hphase
  -- A process that has called the fewest fences does not wait.
  obtain ⟨q, -, hq⟩ := Finset.exists_min_image Finset.univ s.fences ⟨p, Finset.mem_univ p⟩
  refine ⟨⟨outgoing, hphase⟩, q, ?_, (hq r (Finset.mem_univ r)).trans_lt hr⟩
  by_contra hinner
  obtain ⟨outgoing', hphase'⟩ := hinside q hinner
  obtain ⟨r', hr'⟩ := hcollective q outgoing' hphase'
  exact absurd (hq r' (Finset.mem_univ r')) (Nat.not_le.mpr hr')

def FencePhase.work : FencePhase → ℕ
  | .outside => 0
  | .collective _ => 3
  | .sending _ _ => 2
  | .waiting => 1

def due (s : Fence P) (p : P) : ℕ :=
  8 * (s.world.modules p).copyPendingSendreqs.length + FencePhase.work (s.phase p)

def work (s : Fence P) : ℕ := workOf s.world.net + ∑ p, s.due p

theorem sum_due (hother : ∀ q, q ≠ p → s'.due q = s.due q) :
    ∑ q, s'.due q + s.due p = ∑ q, s.due q + s'.due p := by
  have hrest : ∑ q ∈ Finset.univ.erase p, s'.due q = ∑ q ∈ Finset.univ.erase p, s.due q :=
    Finset.sum_congr rfl fun q hq => hother q (Finset.ne_of_mem_erase hq)
  rw [← Finset.add_sum_erase _ s'.due (Finset.mem_univ p), ← Finset.add_sum_erase _ s.due (Finset.mem_univ p), hrest]
  omega

theorem act_work {r : Module P × List (Item P)} {phase : FencePhase}
    (hless : workOf r.2 + (8 * r.1.copyPendingSendreqs.length + FencePhase.work phase) + 1 ≤ s.due p) :
    (s.act p r phase).work + 1 ≤ s.work := by
  have hsum : ∑ q, (s.act p r phase).due q + s.due p = ∑ q, s.due q + (s.act p r phase).due p :=
    sum_due fun q hq => by simp [due, act, World.act, hq]
  have hself : (s.act p r phase).due p = 8 * r.1.copyPendingSendreqs.length + FencePhase.work phase := by
    simp [due, act, World.act]
  rw [hself] at hsum
  have hnet : workOf (s.act p r phase).world.net = workOf s.world.net + workOf r.2 := workOf_append ..
  rw [work, work, hnet]
  omega

omit [DecidableEq P] [Fintype P] in
theorem sendreqSend_work (req : Sendreq P) : workOf (sendreqSend z p req) ≤ 7 := by
  unfold sendreqSend
  dsimp only
  split_ifs <;> simp [Item.work]

theorem Inv.work_lt {e : FenceStep P} (h : s.Inv) (hinternal : e.Internal) (hstep : Fence.step z s e s') :
    s'.work + 1 ≤ s.work := by
  cases e with
  | request req => exact hinternal.elim
  | noPrecede p => exact hinternal.elim
  | enter p => exact hinternal.elim
  | leave p =>
    obtain ⟨outgoing, hcollective, -, rfl⟩ := hstep
    refine act_work ?_
    simp [due, hcollective, FencePhase.work]
  | send p =>
    obtain ⟨outgoing, incoming, req, rest, hsending, hcopy, rfl⟩ := hstep
    have hwork := sendreqSend_work (z := z) (p := p) req
    refine act_work ?_
    simp only [due, hsending, hcopy, fenceSend, FencePhase.work, length_cons]
    omega
  | count p =>
    obtain ⟨outgoing, incoming, hsending, hcopy, rfl⟩ := hstep
    refine act_work ?_
    simp [due, hsending, fenceCount, FencePhase.work]
  | ret p =>
    obtain ⟨hwaiting, -, rfl⟩ := hstep
    refine act_work ?_
    simp [due, hwaiting, FencePhase.work]
  | come i =>
    obtain ⟨hcomes, hs'⟩ := hstep
    rw [hs']
    generalize s'.world = w at hcomes ⊢
    obtain ⟨past, done, hd⟩ : ∃ past done, Delivered i s.world w past done := by
      refine hcomes.delivered z (h.plain i ?_).1
      cases hcomes with
      | intro hnet _ =>
        rw [hnet]
        exact mem_append_right _ mem_cons_self
    have hdue (q : P) : due { s with world := w } q = s.due q := by
      rw [due, due]
      dsimp only
      rw [hd.copyPending]
    have hwork := handle_work z (s.world.modules i.owner) i
    have hnone : (s.world.modules i.owner).work = 0 := by
      rw [Module.work, (h.locks i.owner).1, (h.locks i.owner).2]
      rfl
    have hsum : ∑ q, due { s with world := w } q = ∑ q, s.due q := Finset.sum_congr rfl fun q _ => hdue q
    rw [work, work, hsum]
    cases hcomes with
    | intro hnet _ =>
      dsimp only [World.act]
      rw [hnet, workOf_append, workOf_append, workOf_append, workOf_cons]
      omega

theorem internal_run {es : List (FenceStep P)} (h : s.Inv) (hrun : (Fence.system z).Run s es s')
    (hinternal : ∀ e ∈ es, e.Internal) : s'.Inv ∧ es.length + s'.work ≤ s.work := by
  induction hrun with
  | nil => exact ⟨h, by simp⟩
  | snoc hrun hstep ih =>
    rename_i t u es e
    obtain ⟨hinv, hwork⟩ := ih fun e he => hinternal e (mem_append_left _ he)
    have hnext : Fence.step z t e u := hstep
    have hless := hinv.work_lt (hinternal e (mem_append_right _ mem_cons_self)) hnext
    refine ⟨hinv.step hnext, ?_⟩
    rw [length_append, length_singleton]
    omega

/-- A fence that returns has closed the epoch; what processes do without a call comes to an end, and whoever is
in a fence then waits for the fence of another. -/
theorem fence_closes (h : (Fence.system z).Reachable s) :
    (∀ p s', (Fence.system z).step s (.ret p) s' → s'.Closed p) ∧
      ((∀ e s', e.Internal → ¬ (Fence.system z).step s e s') → ∀ p, s.phase p ≠ .outside →
        (∃ outgoing, s.phase p = .collective outgoing) ∧ ∃ q, s.phase q = .outside ∧ s.fences q < s.fences p) ∧
      ∀ es s', (Fence.system z).Run s es s' → (∀ e ∈ es, e.Internal) → es.length ≤ s.work := by
  have hinv := reachable_inv h
  refine ⟨?_, fun hidle p hp => hinv.progress hidle hp, fun es s' hrun hinternal => ?_⟩
  · rintro p s' ⟨hwaiting, hdone, rfl⟩
    exact hinv.closed hwaiting hdone
  · exact (Nat.le_add_right ..).trans (internal_run hinv hrun hinternal).2

/-- A process puts something into its own window. -/
theorem fence_closes_put : ∃ s : Fence Unit, s.Closed () ∧ (s.world.modules ()).window ≠ [] := by
  let z : Sizes := ⟨4096, 32, 24⟩
  let req : Sendreq Unit := ⟨.put, (), (), 8, 4, 0, 0⟩
  let message : Item Unit := .msg () () (.send req 4)
  let sendCb : Item Unit := .cb () (.sendCb req 4)
  let idle : Fence Unit := ⟨.init, fun _ => .outside, fun _ => [], []⟩
  let issued := { idle.act () (enqueueSendreq (idle.world.modules ()) req, []) .outside with issued := [req] }
  let entered := { issued.act () (flipSendreqs (issued.world.modules ()), []) (.collective 1) with
    given := fun _ => [fun _ => 1] }
  let left := entered.act () (entered.world.modules (), []) (.sending 1 1)
  let sent := left.act () (fenceSend z () (left.world.modules ()) req []) (.sending 1 1)
  let counted := sent.act () (fenceCount (sent.world.modules ()) 1 1, []) .waiting
  let applied : Fence Unit := { counted with
    world := ({ counted.world with net := [sendCb] } : World Unit).act () (message.handle z (counted.world.modules ())) }
  let finished : Fence Unit := { applied with
    world := ({ applied.world with net := [] } : World Unit).act () (sendCb.handle z (applied.world.modules ())) }
  have hidle : (Fence.system z).Reachable idle := ⟨idle, [], ⟨rfl, fun _ => rfl, fun _ => rfl, rfl⟩, .nil _⟩
  have hissued : (Fence.system z).Reachable issued := hidle.step (e := .request req) ⟨rfl, rfl, rfl⟩
  have hentered : (Fence.system z).Reachable entered := hissued.step (e := .enter ()) ⟨rfl, _, rfl, rfl⟩
  have hleft : (Fence.system z).Reachable left := hentered.step (e := .leave ()) ⟨1, rfl, fun _ => le_rfl, rfl⟩
  have hsent : (Fence.system z).Reachable sent := hleft.step (e := .send ()) ⟨1, 1, req, [], rfl, rfl, rfl⟩
  have hcounted : (Fence.system z).Reachable counted := hsent.step (e := .count ()) ⟨1, 1, rfl, rfl, rfl⟩
  have happlied : (Fence.system z).Reachable applied := hcounted.step (e := .come message)
    ⟨@Comes.intro Unit _ z counted.world [] [sendCb] message rfl (by simp), rfl⟩
  have hfinished : (Fence.system z).Reachable finished := happlied.step (e := .come sendCb)
    ⟨@Comes.intro Unit _ z applied.world [] [] sendCb rfl (by simp), rfl⟩
  have hreturns : (Fence.system z).step finished (.ret ()) (finished.act () (finished.world.modules (), []) .outside) := by
    refine ⟨rfl, ?_, rfl⟩
    rw [FenceWaits]
    decide
  refine ⟨_, (fence_closes hfinished).1 () _ hreturns, ?_⟩
  exact cons_ne_nil req []

end OpenMPI.Osc.Fence
