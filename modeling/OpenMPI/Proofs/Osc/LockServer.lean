import OpenMPI.Proofs.Osc.Passive

/-!
# The lock of one window

What the origins call keeps the invariant, so that it holds in each reachable state.
-/

namespace OpenMPI.Osc

open Item List Function

variable {P : Type*} [DecidableEq P] {z : Sizes} {target p : P} {s s' : Passive P} {phase : Phase P}

structure Asks (target p : P) (new : List (Item P)) : Prop where
  all : ∀ j ∈ new, ∃ type, j = .msg p target (.lockReq p (some type))

namespace Asks

variable {new : List (Item P)} (h : Asks target p new)
include h

omit [DecidableEq P] in
theorem filterMap_nil {β : Type*} (f : Item P → Option β)
    (hf : ∀ type, f (.msg p target (.lockReq p (some type))) = none) : new.filterMap f = [] := by
  refine filterMap_eq_nil_iff.mpr fun j hj => ?_
  obtain ⟨type, rfl⟩ := h.all j hj
  exact hf type

omit [DecidableEq P] in
theorem flatMap_nil {β : Type*} (f : Item P → List β)
    (hf : ∀ type, f (.msg p target (.lockReq p (some type))) = []) : new.flatMap f = [] := by
  refine flatMap_eq_nil_iff.mpr fun j hj => ?_
  obtain ⟨type, rfl⟩ := h.all j hj
  exact hf type

theorem concerns (q : P) : new.filter (Item.Concerns q) = [] := by
  refine filter_eq_nil_iff.mpr fun j hj => ?_
  obtain ⟨type, rfl⟩ := h.all j hj
  simp [Concerns, unlockOf, unapplied]

end Asks

/-- A call that sends nothing, or a lock request. -/
theorem Inv.call (h : Inv target s) {reqs : List (Sendreq P)} {counts : P → ℕ} {new : List (Item P)}
    (hreqs : ∀ req ∈ reqs, req.origin = p ∧ req.target = target) (hnew : Asks target p new)
    (hphase : ∀ type announced, phase ≠ .unlocking type announced)
    (hmanaged : Managed (update s.phase p phase) (fun q => (s.world.modules q).lockReceivedAck)
      (s.world.net ++ new) (s.world.modules target)) :
    Inv target (s.call p ({ s.world.modules p with
      pendingSendreqs := reqs, numPendingSendreqs := counts }, new) phase) := by
  have hmod (q : P) : ∃ reqs' counts', update s.world.modules p { s.world.modules p with
      pendingSendreqs := reqs, numPendingSendreqs := counts } q =
      { s.world.modules q with pendingSendreqs := reqs', numPendingSendreqs := counts' } ∧
      ∀ req ∈ reqs', req.origin = q ∧ req.target = target := by
    by_cases hq : q = p
    · subst hq
      rw [update_self]
      exact ⟨reqs, counts, rfl, hreqs⟩
    · rw [update_of_ne hq]
      exact ⟨_, _, rfl, (h.pending q).2⟩
  have hgrants := hnew.filterMap_nil grantOf fun _ => rfl
  have hunlocks := hnew.filterMap_nil unlockOf fun _ => rfl
  have hreplies := hnew.filterMap_nil replyOf fun _ => rfl
  have hsent := hnew.flatMap_nil Item.sent fun _ => rfl
  have hopen := hnew.flatMap_nil unapplied fun _ => rfl
  have hunfinished := hnew.flatMap_nil incomplete fun _ => rfl
  have hopenOf (q : P) : openOf (s.world.net ++ new) q = openOf s.world.net q := by
    rw [openOf, flatMap_append, hopen, append_nil]
    rfl
  have hunfinishedOf (q : P) : unfinishedOf (s.world.net ++ new) q = unfinishedOf s.world.net q := by
    rw [unfinishedOf, flatMap_append, hunfinished, append_nil]
    rfl
  have hleaving : (s.call p ({ s.world.modules p with
      pendingSendreqs := reqs, numPendingSendreqs := counts }, new) phase).leaving target = s.leaving target := by
    obtain ⟨_, _, htarget, -⟩ := hmod target
    dsimp only [Passive.leaving, Passive.call, World.act]
    rw [htarget, filterMap_append, hunlocks, append_nil]
  obtain ⟨_, _, htarget, -⟩ := hmod target
  refine ⟨?_, fun j hj => ?_, ?_, ?_, fun q type announced hunlocking => ?_, fun req => ?_, fun q hq => ?_,
    fun q => ?_, fun q => ?_, fun q => ?_, fun q => ?_, ?_⟩
  · have hacks : (fun q => (update s.world.modules p { s.world.modules p with
        pendingSendreqs := reqs, numPendingSendreqs := counts } q).lockReceivedAck) =
        fun q => (s.world.modules q).lockReceivedAck := acks_update rfl
    dsimp only [Passive.call, World.act]
    rw [hacks, htarget]
    exact hmanaged.congr rfl rfl rfl rfl
  · rcases mem_append.mp hj with hj | hj
    · exact h.placed j hj
    · obtain ⟨type, rfl⟩ := hnew.all j hj
      exact ⟨trivial, rfl, rfl⟩
  · dsimp only [Passive.call, World.act]
    intro q hq
    rw [filterMap_append, hunlocks, append_nil] at hq
    rw [filter_append, hnew.concerns, append_nil, hopenOf]
    exact h.behind q hq
  · dsimp only [Passive.call, World.act]
    rw [htarget]
    simpa only [filterMap_append, hunlocks, append_nil, flatMap_append, hopen] using h.pendingIn
  · have hqp : q ≠ p := by
      rintro rfl
      dsimp only [Passive.call] at hunlocking
      rw [update_self] at hunlocking
      exact hphase type announced hunlocking
    dsimp only [Passive.call, World.act] at hunlocking ⊢
    rw [update_of_ne hqp] at hunlocking
    rw [flatMap_append, hsent, append_nil]
    exact h.announced q type announced hunlocking
  · dsimp only [Passive.call, World.act]
    rw [htarget, flatMap_append, flatMap_append, hsent, hopen, append_nil, append_nil]
    exact h.sent req
  · rw [hleaving] at hq
    dsimp only [Passive.call, World.act]
    rw [hopenOf]
    exact h.settled q hq
  · obtain ⟨_, _, hq, -⟩ := hmod q
    rw [hleaving]
    dsimp only [Passive.call, World.act]
    rw [hq, hunfinishedOf, filterMap_append, hreplies, append_nil]
    exact h.pendingOut q
  · obtain ⟨_, _, hq, hmem⟩ := hmod q
    dsimp only [Passive.call, World.act]
    rw [hq]
    exact ⟨(h.pending q).1, hmem⟩
  · have hasked := h.asked q
    rw [Passive.asking, countP_append] at hasked
    dsimp only [Passive.asking, Passive.call, World.act]
    rw [htarget, filterMap_append, filterMap_append, filterMap_append, hgrants, append_nil,
      countP_append, countP_append, countP_append]
    dsimp only
    omega
  · rw [hleaving]
    dsimp only [Passive.call, World.act]
    rw [filterMap_append, filterMap_append, hunlocks, hreplies, append_nil, append_nil]
    exact h.left q
  · dsimp only [Passive.call, World.act]
    rw [htarget]
    exact h.waiting

section Unlock

variable {reqs : List (Sendreq P)}

omit [DecidableEq P] in
theorem sends_open : (reqs.flatMap (sendreqSend z p)).flatMap unapplied = reqs := by
  rw [flatMap_assoc]
  simp

omit [DecidableEq P] in
theorem sends_unfinished : (reqs.flatMap (sendreqSend z p)).flatMap incomplete = reqs := by
  rw [flatMap_assoc]
  simp

omit [DecidableEq P] in
theorem sends_sent : (reqs.flatMap (sendreqSend z p)).flatMap sent = reqs := by
  rw [flatMap_assoc]
  refine (flatMap_congr fun req _ => ?_).trans (flatMap_singleton' reqs)
  unfold sendreqSend
  dsimp only
  split_ifs <;> rfl

omit [DecidableEq P] in
theorem sends_quiet : ∀ j ∈ reqs.flatMap (sendreqSend z p), j.Quiet := by
  intro j hj
  obtain ⟨req, -, hj⟩ := mem_flatMap.mp hj
  unfold sendreqSend at hj
  dsimp only at hj
  split_ifs at hj <;> simp at hj <;> rcases hj with rfl | rfl | rfl <;> exact ⟨rfl, rfl, rfl, rfl⟩

omit [DecidableEq P] in
theorem sends_placed (hreqs : ∀ req ∈ reqs, req.origin = p ∧ req.target = target) :
    ∀ j ∈ reqs.flatMap (sendreqSend z p), j.Placed ∧ j.AtTarget target := by
  intro j hj
  obtain ⟨req, hreq, hj⟩ := mem_flatMap.mp hj
  refine ⟨sendreqSend_placed z p (hreqs req hreq).1 j hj, ?_⟩
  unfold sendreqSend at hj
  dsimp only at hj
  split_ifs at hj <;> simp at hj <;> rcases hj with rfl | rfl | rfl <;>
    first | exact (hreqs req hreq).2 | trivial

theorem sends_onWay (hreqs : ∀ req ∈ reqs, req.origin = p ∧ req.target = target) :
    ∀ j ∈ (reqs.flatMap (sendreqSend z p)).filter (Item.Concerns p), j.OnWay p target := by
  intro j hj
  rw [mem_filter] at hj
  obtain ⟨hj, hconcerns⟩ := hj
  obtain ⟨req, hreq, hj⟩ := mem_flatMap.mp hj
  unfold sendreqSend at hj
  dsimp only at hj
  split_ifs at hj <;> simp at hj <;> rcases hj with rfl | rfl | rfl <;>
    first | exact ⟨rfl, (hreqs req hreq).2⟩ | simp [Concerns, unlockOf, unapplied] at hconcerns

theorem sends_concerns {q : P} (hq : q ≠ p) (hreqs : ∀ req ∈ reqs, req.origin = p ∧ req.target = target) :
    (reqs.flatMap (sendreqSend z p)).filter (Item.Concerns q) = [] := by
  refine filter_eq_nil_iff.mpr fun j hj hconcerns => ?_
  rw [Concerns, decide_eq_true_eq, (sends_quiet j hj).2.2.1] at hconcerns
  rcases hconcerns with hnone | ⟨req, hreq, horigin⟩
  · cases hnone
  · have hmem := mem_flatMap.mpr ⟨j, hj, hreq⟩
    rw [sends_open] at hmem
    exact hq (horigin ▸ (hreqs req hmem).1)

end Unlock

/-- The items of an unlock with its requests. -/
structure Leaves (target p : P) (reqs : List (Sendreq P)) (new : List (Item P)) : Prop where
  placed : ∀ j ∈ new, j.Placed ∧ j.AtTarget target
  locks : new.filterMap lockOf = []
  grants : new.filterMap grantOf = []
  unlocks : new.filterMap unlockOf = [p]
  replies : new.filterMap replyOf = []
  sent : new.flatMap sent = reqs
  unapplied : new.flatMap unapplied = reqs
  incomplete : new.flatMap incomplete = reqs
  first : ∃ l, new.filter (Item.Concerns p) = .msg p target (.unlockReq p reqs.length) :: l ∧
    ∀ i ∈ l, i.OnWay p target
  others : ∀ q, q ≠ p → new.filter (Item.Concerns q) = []

theorem leaves_sends {reqs : List (Sendreq P)} (hreqs : ∀ req ∈ reqs, req.origin = p ∧ req.target = target) :
    Leaves target p reqs (.msg p target (.unlockReq p reqs.length) :: reqs.flatMap (sendreqSend z p)) := by
  have hquiet : ∀ j ∈ reqs.flatMap (sendreqSend z p), j.Quiet := sends_quiet
  refine ⟨?_, ?_, ?_, ?_, ?_, ?_, ?_, ?_, ⟨_, ?_, sends_onWay (z := z) hreqs⟩, fun q hq => ?_⟩
  · intro j hj
    rcases mem_cons.mp hj with rfl | hj
    · exact ⟨trivial, rfl, rfl⟩
    · exact sends_placed hreqs j hj
  · rw [filterMap_cons]
    exact filterMap_eq_nil_iff.mpr fun j hj => (hquiet j hj).1
  · rw [filterMap_cons]
    exact filterMap_eq_nil_iff.mpr fun j hj => (hquiet j hj).2.1
  · rw [filterMap_cons]
    exact congrArg _ (filterMap_eq_nil_iff.mpr fun j hj => (hquiet j hj).2.2.1)
  · rw [filterMap_cons]
    exact filterMap_eq_nil_iff.mpr fun j hj => (hquiet j hj).2.2.2
  · rw [flatMap_cons, sends_sent]
    rfl
  · rw [flatMap_cons, sends_open]
    rfl
  · rw [flatMap_cons, sends_unfinished]
    rfl
  · rw [filter_cons_of_pos]
    simp [Concerns, unlockOf]
  · rw [filter_cons_of_neg, sends_concerns hq hreqs]
    simp [Concerns, unlockOf, Item.unapplied, Ne.symm hq]

omit [DecidableEq P] in
theorem moduleUnlock_eq {m : Module P} (hcopy : m.copyPendingSendreqs = []) : moduleUnlock z p target m =
    ({ m with
      lockReceivedAck := m.lockReceivedAck - 1, numPendingOut := m.numPendingOut + (m.pendingSendreqs.length + 1)
      copyNumPendingSendreqs := m.numPendingSendreqs, numPendingSendreqs := fun _ => 0
      copyPendingSendreqs := [], pendingSendreqs := [] },
    .msg p target (.unlockReq p m.pendingSendreqs.length) :: m.pendingSendreqs.flatMap (sendreqSend z p)) := by
  simp [moduleUnlock, flipSendreqs, hcopy]

theorem Inv.closed (h : Inv target s) (hp : p ∉ s.leaving target) :
    (∀ req ∈ s.world.net.flatMap unapplied, req.origin ≠ p) ∧ s.world.net.filter (Item.Concerns p) = [] := by
  have hclosed : ∀ req ∈ s.world.net.flatMap unapplied, req.origin ≠ p := by
    have hopen := h.settled p hp
    rw [openOf, countP_eq_zero] at hopen
    exact fun req hreq => by simpa using hopen req hreq
  refine ⟨hclosed, filter_eq_nil_iff.mpr fun j hj hconcerns => ?_⟩
  rw [Concerns, decide_eq_true_eq] at hconcerns
  rcases hconcerns with hunlock | ⟨req, hreq, horigin⟩
  · exact hp (mem_append_left _ (mem_filterMap.mpr ⟨j, hj, hunlock⟩))
  · exact hclosed req (mem_flatMap.mpr ⟨j, hj, hreq⟩) horigin

theorem Inv.unlock (h : Inv target s) {type : LockType} (hlocked : s.phase p = .locked type)
    (hack : (s.world.modules p).lockReceivedAck ≠ 0) :
    Inv target (s.call p (moduleUnlock z p target (s.world.modules p))
      (.unlocking type (flipSendreqs (s.world.modules p)).copyPendingSendreqs)) := by
  obtain ⟨hcopy, hreqs⟩ := h.pending p
  have hannounced : (flipSendreqs (s.world.modules p)).copyPendingSendreqs = (s.world.modules p).pendingSendreqs := by
    rw [flipSendreqs, hcopy, nil_append]
  rw [moduleUnlock_eq hcopy, hannounced]
  generalize hr : (s.world.modules p).pendingSendreqs = reqs at hreqs ⊢
  have hnew := leaves_sends (z := z) hreqs
  generalize Item.msg p target (.unlockReq p reqs.length) :: reqs.flatMap (sendreqSend z p) = new at hnew ⊢
  have hstage := h.managed.1.stage p
  rw [hlocked] at hstage
  obtain ⟨-, hleaves, -⟩ := hstage
  have hnot : p ∉ s.leaving target := count_eq_zero.mp hleaves
  obtain ⟨hclosed, hnone⟩ := h.closed hnot
  have hmod (q : P) : ∃ reqs' counts' counts'', update s.world.modules p { s.world.modules p with
      lockReceivedAck := (s.world.modules p).lockReceivedAck - 1
      numPendingOut := (s.world.modules p).numPendingOut + (reqs.length + 1)
      copyNumPendingSendreqs := (s.world.modules p).numPendingSendreqs, numPendingSendreqs := fun _ => 0
      copyPendingSendreqs := [], pendingSendreqs := [] } q = { s.world.modules q with
        lockReceivedAck := update (fun q => (s.world.modules q).lockReceivedAck) p
          ((s.world.modules p).lockReceivedAck - 1) q
        numPendingOut := (s.world.modules q).numPendingOut + if q = p then (reqs.length + 1 : ℤ) else 0
        copyNumPendingSendreqs := counts', numPendingSendreqs := counts'', copyPendingSendreqs := []
        pendingSendreqs := reqs' } ∧ ∀ req ∈ reqs', req.origin = q ∧ req.target = target := by
    by_cases hq : q = p
    · subst hq
      rw [update_self, update_self, if_pos rfl]
      exact ⟨[], _, _, rfl, by simp⟩
    · obtain ⟨hcopy, hreqs⟩ := h.pending q
      rw [update_of_ne hq, update_of_ne hq, if_neg hq, add_zero, ← hcopy]
      exact ⟨_, _, _, rfl, hreqs⟩
  generalize ({ s.world.modules p with
      lockReceivedAck := (s.world.modules p).lockReceivedAck - 1
      numPendingOut := (s.world.modules p).numPendingOut + (reqs.length + 1)
      copyNumPendingSendreqs := (s.world.modules p).numPendingSendreqs, numPendingSendreqs := fun _ => 0
      copyPendingSendreqs := [], pendingSendreqs := [] } : Module P) = m at hmod ⊢
  have hopen (q : P) : openOf (s.world.net ++ new) q = openOf s.world.net q + if q = p then reqs.length else 0 := by
    rw [openOf, flatMap_append, hnew.unapplied, countP_append, countP_origin fun req hreq => (hreqs req hreq).1]
    rfl
  have hunfinished (q : P) : unfinishedOf (s.world.net ++ new) q =
      unfinishedOf s.world.net q + if q = p then reqs.length else 0 := by
    rw [unfinishedOf, flatMap_append, hnew.incomplete, countP_append,
      countP_origin fun req hreq => (hreqs req hreq).1]
    rfl
  have hleaving (q : P) : ((s.call p (m, new) (.unlocking type reqs)).leaving target).count q =
      (s.leaving target).count q + if q = p then 1 else 0 := by
    obtain ⟨_, _, _, htarget, -⟩ := hmod target
    dsimp only [Passive.leaving, Passive.call, World.act]
    rw [htarget, filterMap_append, hnew.unlocks, count_append, count_append, count_append,
      count_singleton]
    by_cases hq : q = p
    · rw [if_pos hq, if_pos (by simp [hq])]
      dsimp only
      omega
    · rw [if_neg hq, if_neg (by simp [Ne.symm hq])]
      dsimp only
      omega
  obtain ⟨_, _, _, htarget, -⟩ := hmod target
  refine ⟨?_, fun j hj => ?_, fun q hq => ?_, ?_, fun q type' announced hunlocking req => ?_, fun req => ?_,
    fun q hq => ?_, fun q => ?_, fun q => ?_, fun q => ?_, fun q => ?_, ?_⟩
  · have hacks : (fun q => (update s.world.modules p m q).lockReceivedAck) = update
        (fun q => (s.world.modules q).lockReceivedAck) p ((s.world.modules p).lockReceivedAck - 1) := by
      funext q
      obtain ⟨_, _, _, hq, -⟩ := hmod q
      rw [hq]
    have hleave : LockInv (update s.phase p (.unlocking type reqs)) _ _ _ _ _ _ :=
      h.managed.1.leave hlocked hack
    dsimp only [Passive.call, World.act]
    rw [hacks, htarget]
    refine Managed.congr (m := s.world.modules target) ⟨?_, h.managed.2⟩ rfl rfl rfl rfl
    rw [filterMap_append, filterMap_append, filterMap_append, filterMap_append, hnew.locks,
      hnew.grants, hnew.unlocks, hnew.replies, append_nil, append_nil, append_nil]
    exact hleave
  · rcases mem_append.mp hj with hj | hj
    · exact h.placed j hj
    · exact hnew.placed j hj
  · dsimp only [Passive.call, World.act] at hq ⊢
    rw [filterMap_append, hnew.unlocks, mem_append, mem_singleton] at hq
    rw [filter_append, hopen]
    by_cases hqp : q = p
    · subst hqp
      rw [hnone, nil_append, if_pos rfl, h.settled q hnot, zero_add]
      exact hnew.first
    · rw [hnew.others q hqp, append_nil, if_neg hqp, add_zero]
      exact h.behind q (hq.resolve_right hqp)
  · dsimp only [Passive.call, World.act]
    rw [htarget]
    have hsame : (s.world.net.flatMap unapplied).countP (fun req =>
        decide (req.origin ∉ s.world.net.filterMap unlockOf ++ [p])) =
        (s.world.net.flatMap unapplied).countP fun req =>
          decide (req.origin ∉ s.world.net.filterMap unlockOf) := by
      refine countP_congr fun req hreq => ?_
      simp [hclosed req hreq]
    have hnone : reqs.countP (fun req => decide (req.origin ∉ s.world.net.filterMap unlockOf ++ [p])) = 0 := by
      refine countP_eq_zero.mpr fun req hreq => ?_
      simp [(hreqs req hreq).1]
    simp only [filterMap_append, flatMap_append, hnew.unlocks, hnew.unapplied, countP_append, hsame,
      hnone, add_zero]
    exact h.pendingIn
  · dsimp only [Passive.call, World.act] at hunlocking ⊢
    rw [flatMap_append, hnew.sent, count_append]
    by_cases hqp : q = p
    · subst hqp
      rw [update_self] at hunlocking
      cases hunlocking
      exact Nat.le_add_left ..
    · rw [update_of_ne hqp] at hunlocking
      exact le_trans (h.announced q type' announced hunlocking req) (Nat.le_add_right ..)
  · dsimp only [Passive.call, World.act]
    rw [htarget, flatMap_append, flatMap_append, hnew.sent, hnew.unapplied, count_append,
      count_append, h.sent req]
    exact add_assoc ..
  · rw [← count_eq_zero, hleaving] at hq
    have hqp : q ≠ p := by
      rintro rfl
      rw [if_pos rfl] at hq
      omega
    rw [if_neg hqp, add_zero, count_eq_zero] at hq
    dsimp only [Passive.call, World.act]
    rw [hopen, if_neg hqp, h.settled q hq]
  · obtain ⟨_, _, _, hq, -⟩ := hmod q
    have hout := h.pendingOut q
    rw [hleaving]
    dsimp only [Passive.call, World.act]
    rw [hq, hunfinished, filterMap_append, hnew.replies, append_nil]
    dsimp only
    split_ifs <;> omega
  · obtain ⟨_, _, _, hq, hmem⟩ := hmod q
    dsimp only [Passive.call, World.act]
    rw [hq]
    exact ⟨rfl, hmem⟩
  · dsimp only [Passive.asking, Passive.call, World.act]
    rw [htarget, filterMap_append, filterMap_append, filterMap_append, hnew.locks, hnew.grants,
      append_nil, append_nil, append_nil]
    exact h.asked q
  · have hleft := h.left q
    rw [hleaving]
    dsimp only [Passive.call, World.act]
    rw [filterMap_append, filterMap_append, hnew.unlocks, hnew.replies, append_nil, count_append,
      count_singleton, hleft]
    by_cases hqp : q = p
    · rw [if_pos hqp, if_pos (by simp [hqp])]
      omega
    · rw [if_neg hqp, if_neg (by simp [Ne.symm hqp])]
      omega
  · dsimp only [Passive.call, World.act]
    rw [htarget]
    exact h.waiting

theorem Inv.init (hworld : s.world = .init) (hphase : ∀ p, s.phase p = .idle) : Inv target s := by
  obtain ⟨world, phase⟩ := s
  dsimp only at hworld hphase
  subst hworld
  refine ⟨⟨⟨fun p => ?_, ?_, ⟨[], ⟨nodup_nil, ?_, ?_, ?_⟩, fun p => ?_⟩, fun p => ?_⟩, fun _ => rfl⟩, ?_, ?_, ?_,
    fun p type announced hunlocking => ?_, fun req => ?_, fun p hp => ?_, fun p => ?_, fun p => ?_, fun p => ?_,
    fun p => ?_, ?_⟩
  · dsimp only
    rw [hphase]
    exact ⟨rfl, rfl, rfl, rfl⟩
  · intro a ha
    cases ha
  · exact iff_of_true rfl rfl
  · intro hstatus
    cases hstatus
  · rfl
  · simp [World.init, Module.init]
  · simp [World.init, Module.init]
  · intro i hi
    cases hi
  · intro p hp
    cases hp
  · rfl
  · dsimp only at hunlocking
    rw [hphase] at hunlocking
    cases hunlocking
  · rfl
  · rfl
  · rfl
  · exact ⟨rfl, fun req hreq => absurd hreq not_mem_nil⟩
  · rfl
  · rfl
  · exact fun hpending => absurd rfl hpending

theorem Inv.step {e : PassiveStep P} (h : Inv target s) (hstep : Passive.step z target s e s') : Inv target s' := by
  cases e with
  | lock p type =>
    obtain ⟨hidle, rfl⟩ := hstep
    have hask : Managed (update s.phase p (.locked type)) (fun q => (s.world.modules q).lockReceivedAck)
        (s.world.net ++ [.msg p target (.lockReq p (some type))]) (s.world.modules target) := by
      refine ⟨?_, h.managed.2⟩
      have hask : LockInv (update s.phase p (.locked type)) _ _ _ _ _ _ := h.managed.1.ask hidle
      simpa [filterMap_cons, lockOf, grantOf, unlockOf, replyOf] using hask
    exact h.call (h.pending p).2 ⟨by simp⟩ (by simp) hask
  | request req =>
    obtain ⟨htarget, ⟨type, hlocked⟩, rfl⟩ := hstep
    refine h.call ?_ ⟨by simp⟩ ?_ ?_
    · intro req' hreq'
      rcases mem_append.mp hreq' with hold | hnew
      · exact (h.pending req.origin).2 req' hold
      · rw [mem_singleton.mp hnew]
        exact ⟨rfl, htarget⟩
    · intro type' announced hunlocking
      rw [hlocked] at hunlocking
      cases hunlocking
    · rw [Function.update_eq_self, append_nil]
      exact h.managed
  | unlock p =>
    obtain ⟨type, hlocked, hack, rfl⟩ := hstep
    exact h.unlock hlocked hack
  | finish p =>
    obtain ⟨⟨type, announced, hunlocking⟩, hout, rfl⟩ := hstep
    have hpending := h.pendingOut p
    rw [hout] at hpending
    refine h.call (h.pending p).2 ⟨by simp⟩ (by simp) ?_
    rw [append_nil]
    refine ⟨h.managed.1.finish hunlocking ?_ ?_, h.managed.2⟩
    · rw [Passive.leaving] at hpending
      omega
    · omega
  | come i => exact h.come hstep.1 hstep.2

theorem reachable_inv (h : (Passive.system z target).Reachable s) : Inv target s :=
  h.invariant (fun _ h => .init h.1 h.2) fun _ _ _ hs hstep => hs.step hstep

theorem Inv.holds_iff (h : Inv target s) (p : P) (type : LockType) : s.Holds target p type ↔
    (0 < s.granted p ∨ 0 < (s.leaving target).count p) ∧ (s.phase p).type = some type := by
  have hstage := h.managed.1.stage p
  rw [Passive.Holds]
  cases hphase : s.phase p with
  | idle => simp [Phase.type]
  | locked type' =>
    rw [hphase] at hstage
    obtain ⟨-, hleaves, -⟩ := hstage
    have hnot : (s.leaving target).count p = 0 := hleaves
    rw [hnot]
    simp [Phase.type, and_comm]
  | unlocking type' announced =>
    rw [hphase] at hstage
    obtain ⟨-, hgrants, -⟩ := hstage
    have hnot : s.granted p = 0 := hgrants
    rw [hnot, count_pos_iff]
    simp [Phase.type, and_comm]

theorem Inv.holders (h : Inv target s) : ∃ holders : List P, Table (s.world.modules target) holders ∧
    ∀ p type, s.Holds target p type ↔ p ∈ holders ∧ (s.world.modules target).lockStatus = some type := by
  obtain ⟨holders, htable, hmem⟩ := h.managed.1.table
  refine ⟨holders, htable, fun p type => ?_⟩
  rw [h.holds_iff, hmem]
  refine and_congr_right fun hp => ?_
  rw [h.managed.1.holding p hp]

theorem Inv.sound (h : Inv target s) : s.Sound target := by
  obtain ⟨holders, htable, hholds⟩ := h.holders
  refine ⟨fun p hp q type hq => ?_, ?_, h.asked, fun p type hlocked => ?_, h.left,
    fun p type announced hunlocking => ⟨?_, h.announced p type announced hunlocking⟩, fun req => ⟨?_, fun hreq => ?_⟩,
    fun hnobody => ?_⟩
  · obtain ⟨hp, hstatus⟩ := (hholds p .exclusive).mp hp
    obtain ⟨hq, -⟩ := (hholds q type).mp hq
    obtain ⟨holder, rfl⟩ := length_eq_one_iff.mp (htable.exclusive hstatus)
    rw [mem_singleton.mp hp, mem_singleton.mp hq]
  · by_cases hstatus : (s.world.modules target).lockStatus = some .shared
    · refine ⟨holders, htable.nodup, fun p => ?_, ?_⟩
      · rw [hholds]
        exact (and_iff_left hstatus).symm
      · rw [htable.count, if_neg (by simp [hstatus])]
    · refine ⟨[], nodup_nil, fun p => ?_, ?_⟩
      · rw [hholds]
        exact iff_of_false not_mem_nil fun hp => hstatus hp.2
      · rw [htable.count]
        split_ifs with hexclusive
        · rfl
        · have hfree : (s.world.modules target).lockStatus = none := by
            cases hlock : (s.world.modules target).lockStatus with
            | none => rfl
            | some type =>
              cases type with
              | exclusive => exact absurd hlock hexclusive
              | shared => exact absurd hlock hstatus
          rw [htable.free.mp hfree]
  · have hstage := h.managed.1.stage p
    rw [hlocked] at hstage
    exact hstage.1
  · have hstage := h.managed.1.stage p
    rw [hunlocking] at hstage
    obtain ⟨-, -, hone⟩ := hstage
    exact le_trans (Nat.le_add_right ..) hone
  · rw [h.sent req]
    exact Nat.le_add_right ..
  · rw [h.sent req, count_eq_zero.mpr fun hopen => (h.closed hreq).1 req hopen rfl, add_zero]
  · refine h.managed.2 (htable.free.mpr (eq_nil_iff_forall_not_mem.mpr fun p hp => ?_))
    cases hstatus : (s.world.modules target).lockStatus with
    | none =>
      rw [htable.free.mp hstatus] at hp
      cases hp
    | some type => exact hnobody p type ((hholds p type).mpr ⟨hp, hstatus⟩)

theorem Inv.quiescent (h : Inv target s) (hnet : s.world.net = []) : s.Settled target := by
  have hin := h.pendingIn
  have hunlocks : (s.world.modules target).unlocksPending = [] := by
    by_contra hunlocks
    refine h.waiting hunlocks ?_
    rw [hin, hnet]
    rfl
  have hleaving : s.leaving target = [] := by
    rw [Passive.leaving, hnet, hunlocks]
    rfl
  refine ⟨hleaving, fun p => ?_, fun a ha => ?_⟩
  · rw [h.pendingOut p, hleaving, hnet]
    rfl
  · rw [Passive.asking, hnet] at ha
    obtain ⟨holders, htable, hmem⟩ := h.managed.1.table
    have hholders : holders ≠ [] := by
      intro hnone
      rw [h.managed.2 (htable.free.mpr hnone)] at ha
      cases ha
    obtain ⟨p, others, rfl⟩ := exists_cons_of_ne_nil hholders
    have hp := (hmem p).mp mem_cons_self
    rw [hnet, hunlocks] at hp
    have hack : (s.world.modules p).lockReceivedAck ≠ 0 := by simpa [Nat.pos_iff_ne_zero] using hp
    have hstage := h.managed.1.stage p
    cases hphase : s.phase p with
    | idle =>
      rw [hphase] at hstage
      obtain ⟨-, hgrants, -⟩ := hstage
      omega
    | locked type => exact ⟨p, type, hphase, hack⟩
    | unlocking type announced =>
      rw [hphase] at hstage
      obtain ⟨-, hgrants, -⟩ := hstage
      omega

def Passive.work (target : P) (s : Passive P) : ℕ := workOf s.world.net + (s.world.modules target).work

theorem Inv.come_work (h : Inv target s) {i : Item P} (hcomes : Comes z s.world i s'.world) :
    s'.work target + 1 ≤ s.work target := by
  rw [Passive.work, Passive.work]
  generalize s'.world = w' at hcomes ⊢
  obtain ⟨hplaced, hat⟩ : i.Placed ∧ i.AtTarget target := by
    refine h.placed i ?_
    cases hcomes with
    | intro hnet _ =>
      rw [hnet]
      exact mem_append_right _ mem_cons_self
  have heffect := handle_effect (z := z) (m := s.world.modules i.owner) hplaced hat
  have hwork := handle_work z (s.world.modules i.owner) i
  cases hcomes with
  | intro hnet _ =>
    dsimp only [World.act]
    rw [hnet, workOf_append, workOf_append, workOf_append, workOf_cons]
    by_cases howner : target = i.owner
    · rw [howner, update_self]
      omega
    · rw [update_of_ne howner]
      obtain ⟨hlocks, hunlocks⟩ := heffect.queues howner
      have hsame : (i.handle z (s.world.modules i.owner)).1.work = (s.world.modules i.owner).work := by
        rw [Module.work, Module.work, hlocks, hunlocks]
      omega

theorem come_enabled (hnet : s.world.net ≠ []) : ∃ i s', (Passive.system z target).step s (.come i) s' := by
  obtain ⟨i, net, hnet⟩ := exists_cons_of_ne_nil hnet
  exact ⟨i, ⟨_, s.phase⟩, .intro (by rw [hnet, nil_append]) (by simp), rfl⟩

theorem come_run {es : List (PassiveStep P)} (h : Inv target s) (hrun : (Passive.system z target).Run s es s')
    (hcome : ∀ e ∈ es, ∃ i, e = .come i) : Inv target s' ∧ es.length + s'.work target ≤ s.work target := by
  induction hrun with
  | nil => exact ⟨h, by simp⟩
  | snoc hrun hstep ih =>
    rename_i t u es e
    obtain ⟨hinv, hwork⟩ := ih fun e he => hcome e (mem_append_left _ he)
    obtain ⟨i, rfl⟩ := hcome _ (mem_append_right _ mem_cons_self)
    have hless := hinv.come_work hstep.1
    have hnext : Passive.step z target t (.come i) u := hstep
    refine ⟨hinv.step hnext, ?_⟩
    rw [length_append, length_singleton]
    omega

/-- In each reachable state the lock does what it is for; what is on its way comes up, in a bounded number
of steps. -/
theorem passive_lock_sound (h : (Passive.system z target).Reachable s) :
    s.Sound target ∧ (s.world.net = [] → s.Settled target) ∧
      (s.world.net ≠ [] → ∃ i s', (Passive.system z target).step s (.come i) s') ∧
      ∀ es s', (Passive.system z target).Run s es s' → (∀ e ∈ es, ∃ i, e = .come i) →
        es.length ≤ s.work target := by
  have hinv := reachable_inv h
  refine ⟨hinv.sound, hinv.quiescent, come_enabled, fun es s' hrun hcome => ?_⟩
  exact Nat.le_trans (Nat.le_add_right ..) (come_run hinv hrun hcome).2

/-- An origin asks for the lock of another process, and gets it. -/
theorem passive_lock_sound_exclusive :
    ∃ s : Passive Bool, s.Sound false ∧ s.Holds false true .exclusive := by
  let idle : Passive Bool := ⟨.init, fun _ => .idle⟩
  let asked := idle.call true (moduleLock true false (idle.world.modules true) .exclusive) (.locked .exclusive)
  let request : Item Bool := .msg true false (.lockReq true (some .exclusive))
  let z : Sizes := ⟨4096, 32, 24⟩
  let granted : Passive Bool := ⟨({ asked.world with net := [] } : World Bool).act false
    (request.handle z (asked.world.modules false)), asked.phase⟩
  have hidle : (Passive.system z false).Reachable idle := ⟨idle, [], ⟨rfl, fun _ => rfl⟩, .nil idle⟩
  have hasked : (Passive.system z false).Reachable asked := hidle.step (e := .lock true .exclusive) ⟨rfl, rfl⟩
  have hgranted : (Passive.system z false).Reachable granted :=
    hasked.step (e := .come request) ⟨@Comes.intro Bool _ z asked.world [] [] request rfl (by simp), rfl⟩
  refine ⟨granted, (passive_lock_sound hgranted).1, .inl ⟨rfl, ?_⟩⟩
  decide

end OpenMPI.Osc
