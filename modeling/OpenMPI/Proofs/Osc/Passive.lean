import Mathlib.Data.List.Flatten
import OpenMPI.Proofs.Osc.Lock

/-!
# Passive target synchronization

An unlock request goes before the requests that it announces, so that the pending requests are those of the
unlocks that have come (`Inv`).  When none is pending, all that the pending unlocks announced is over.
-/

namespace OpenMPI.Osc

open Item List Function

variable {P : Type*} [DecidableEq P]

def Item.OnWay (src dst : P) : Item P → Prop
  | .msg src' dst' _ => src' = src ∧ dst' = dst
  | _ => False

/-- The item is the unlock request of `p`, or has a request of `p` that is not over. -/
def Item.Concerns (p : P) (i : Item P) : Bool :=
  i.unlockOf = some p ∨ ∃ req ∈ i.unapplied, req.origin = p

def openOf (net : List (Item P)) (p : P) : ℕ := (net.flatMap unapplied).countP fun req => req.origin = p

def unfinishedOf (net : List (Item P)) (p : P) : ℕ := (net.flatMap incomplete).countP fun req => req.origin = p

structure Inv (target : P) (s : Passive P) : Prop where
  managed : Managed s.phase (fun p => (s.world.modules p).lockReceivedAck) s.world.net
    (s.world.modules target)
  placed : ∀ i ∈ s.world.net, i.Placed ∧ i.AtTarget target
  behind : ∀ p ∈ s.world.net.filterMap unlockOf, ∃ l, s.world.net.filter (Item.Concerns p) =
    .msg p target (.unlockReq p (openOf s.world.net p)) :: l ∧ ∀ i ∈ l, i.OnWay p target
  pendingIn : (s.world.modules target).numPendingIn =
    (s.world.net.flatMap unapplied).countP fun req => req.origin ∉ s.world.net.filterMap unlockOf
  announced : ∀ p type announced, s.phase p = .unlocking type announced → ∀ req,
    announced.count req ≤ (s.world.made.flatMap sent).count req
  sent : ∀ req, (s.world.made.flatMap sent).count req =
    (s.world.modules target).window.count req + (s.world.net.flatMap unapplied).count req
  settled : ∀ p, p ∉ s.leaving target → openOf s.world.net p = 0
  pendingOut : ∀ p, (s.world.modules p).numPendingOut =
    unfinishedOf s.world.net p + (s.leaving target).count p + (s.world.net.filterMap replyOf).count p
  pending : ∀ p, (s.world.modules p).copyPendingSendreqs = [] ∧
    ∀ req ∈ (s.world.modules p).pendingSendreqs, req.origin = p ∧ req.target = target
  asked : ∀ p, (s.world.made.filterMap lockOf).countP (fun a => a.1 = p) =
    (s.world.made.filterMap grantOf).count p + (s.asking target).countP fun a => a.1 = p
  left : ∀ p, (s.world.made.filterMap unlockOf).count p =
    (s.world.made.filterMap replyOf).count p + (s.leaving target).count p
  waiting : (s.world.modules target).unlocksPending ≠ [] → (s.world.modules target).numPendingIn ≠ 0

section Come

variable {z : Sizes} {target p : P} {s s' : Passive P} {i : Item P} {before after net : List (Item P)}

theorem unlock_first {n : ℕ} {l : List (Item P)} (hnet : net = before ++ i :: after)
    (hfirst : ∀ j ∈ before, ¬ j.SameWay i)
    (hl : net.filter (Item.Concerns p) = .msg p target (.unlockReq p n) :: l) (hway : ∀ i ∈ l, i.OnWay p target)
    (hi : i.Concerns p = true) : i = .msg p target (.unlockReq p n) := by
  have hsplit : net.filter (Item.Concerns p) =
      before.filter (Item.Concerns p) ++ i :: after.filter (Item.Concerns p) := by
    rw [hnet, filter_append, filter_cons_of_pos hi]
  rw [hl] at hsplit
  rcases hbefore : before.filter (Item.Concerns p) with _ | ⟨u, rest⟩
  · rw [hbefore, nil_append] at hsplit
    exact (List.cons.inj hsplit).1.symm
  · rw [hbefore, cons_append] at hsplit
    obtain ⟨rfl, hrest⟩ := List.cons.inj hsplit
    have hu : Item.msg p target (.unlockReq p n) ∈ before := by
      refine mem_of_mem_filter (p := Item.Concerns p) ?_
      rw [hbefore]
      exact mem_cons_self
    have hil : i.OnWay p target := hway i (by rw [hrest]; exact mem_append_right _ mem_cons_self)
    refine absurd ?_ (hfirst _ hu)
    cases i with
    | msg src dst m =>
      obtain ⟨rfl, rfl⟩ := hil
      exact ⟨rfl, rfl⟩
    | cb dst c => exact hil.elim

omit [DecidableEq P] in
theorem placed_target (hat : i.AtTarget target) : ∀ req ∈ i.unapplied, req.target = target := by
  intro req hreq
  cases i with
  | msg src dst m =>
    cases m <;> simp [unapplied] at hreq
    subst hreq
    exact hat
  | cb dst c =>
    cases c <;> simp [unapplied] at hreq
    · subst hreq
      exact hat
    · obtain ⟨-, rfl⟩ := hreq
      exact hat
    · subst hreq
      exact hat

omit [DecidableEq P] in
theorem announced_none (hat : i.AtTarget target) (hi : i.unlockOf = none) : i.announced = 0 := by
  cases i with
  | msg src dst m =>
    cases m <;> try rfl
    · exact hat.elim
    · cases hi
  | cb dst c => rfl

omit [DecidableEq P] in
theorem unapplied_unlock (hi : i.unlockOf = some p) : i.unapplied = [] := by
  cases i with
  | msg src dst m => cases m <;> first | rfl | cases hi
  | cb dst c => cases hi

theorem reply_unlocked (i : Item P) (p : P) :
    i.replyOf.toList.count p = if p = i.owner then i.unlocked else 0 := by
  cases i with
  | msg src dst m =>
    cases m
    case unlockReply =>
      by_cases hp : p = dst
      · simp [replyOf, owner, unlocked, hp]
      · simp [replyOf, owner, hp, Ne.symm hp]
    all_goals simp [replyOf, unlocked]
  | cb dst c => simp [replyOf, unlocked]

theorem Inv.locked (h : Inv target s) : (s.world.modules target).unlocksPending ≠ [] →
    (s.world.modules target).lockStatus ≠ none := by
  intro hpending hfree
  obtain ⟨p, unlocks, hunlocks⟩ := exists_cons_of_ne_nil hpending
  obtain ⟨holders, htable, hmem⟩ := h.managed.1.table
  have hp : p ∈ holders := by
    rw [hmem, hunlocks, count_append, count_cons_self]
    omega
  rw [htable.free.mp hfree] at hp
  cases hp

theorem countP_not_mem_cons {unlocks : List P} (hp : p ∉ unlocks) (reqs : List (Sendreq P)) :
    reqs.countP (fun req => decide (req.origin ∉ unlocks)) =
      reqs.countP (fun req => decide ¬(req.origin = p ∨ req.origin ∈ unlocks)) +
        reqs.countP fun req => decide (req.origin = p) := by
  induction reqs with
  | nil => rfl
  | cons req reqs ih =>
    rw [countP_cons, countP_cons, countP_cons, ih]
    by_cases hreq : req.origin = p
    · simp [hreq, hp]
      omega
    · simp [hreq]
      omega

theorem settles_target {modules : P → Module P} {m' : Module P} {new : List (Item P)}
    (hs : Settles i.owner i (modules i.owner) m' new) (hat : i.AtTarget target) :
    ∃ past, i.unapplied = past ++ new.flatMap unapplied ∧
      (update modules i.owner m' target).window = (modules target).window ++ past ∧
      (update modules i.owner m' target).numPendingIn =
        (modules target).numPendingIn + i.announced - past.length := by
  obtain ⟨past, hover, htarget, hwindow, hpending⟩ := hs.past
  refine ⟨past, hover, ?_⟩
  by_cases howner : target = i.owner
  · rw [howner, update_self]
    exact ⟨hwindow, hpending⟩
  · have hnil : past = [] := by
      refine eq_nil_iff_forall_not_mem.mpr fun req hreq => howner ?_
      rw [← htarget req hreq]
      exact (placed_target hat req (hover ▸ mem_append_left _ hreq)).symm
    have hannounced : i.announced = 0 := by
      cases i with
      | msg src dst m =>
        cases m <;> try rfl
        · exact hat.elim
        · exact absurd hat.2.symm howner
      | cb dst c => rfl
    rw [update_of_ne howner, hnil, hannounced]
    simp

omit [DecidableEq P] in
theorem handle_atTarget (hat : i.AtTarget target) (m : Module P) : ∀ j ∈ (i.handle z m).2, j.AtTarget target := by
  have hreply (me : P) (req : Sendreq P) (hreq : req.target = target) :
      ∀ j ∈ replyreqSend z me req, j.AtTarget target := by
    unfold replyreqSend
    dsimp only
    split_ifs <;> simp [AtTarget, hreq]
  have hcomplete (me : P) (m : Module P) : ∀ j ∈ (passiveUnlockComplete me m).2, j.AtTarget target := by
    unfold passiveUnlockComplete
    split_ifs
    · simp
    · intro j hj
      rcases mem_append.mp hj with hack | hgrant
      · obtain ⟨origin, -, rfl⟩ := mem_map.mp hack
        trivial
      · unfold grantNext at hgrant
        split at hgrant
        · obtain rfl := mem_singleton.mp hgrant
          trivial
        · cases hgrant
  have hmark (me : P) (req : Sendreq P) : ∀ j ∈ (inmsgMarkComplete me m req).2, j.AtTarget target := by
    unfold inmsgMarkComplete
    dsimp only
    split_ifs
    · exact hcomplete me _
    · simp
  cases i with
  | msg src dst content =>
    cases content with
    | send req msgLength =>
      rw [handle, fragmentCb, sendreqRecv]
      split_ifs
      · exact hreply dst req hat
      · exact hmark dst req
      · simpa [AtTarget] using hat
    | reply req msgLength =>
      rw [handle, fragmentCb, replyreqRecv]
      split_ifs <;> simp [AtTarget]
    | post => exact hat.elim
    | complete count => exact hat.elim
    | lockReq origin type =>
      cases type with
      | none => simp [handle, fragmentCb]
      | some type =>
        rw [handle, fragmentCb]
        unfold passiveLock
        cases type <;> dsimp only <;> split_ifs <;> simp [AtTarget]
    | unlockReq origin count => exact hcomplete dst _
    | unlockReply => simp [handle, fragmentCb]
  | cb dst c =>
    cases c with
    | sendCb req msgLength => simp [handle, mpireqCb]
    | sendLongCb req => simp [handle, mpireqCb]
    | recvLongCb req => exact hmark dst req
    | replySendCb req msgLength =>
      rw [handle, mpireqCb]
      split_ifs
      · exact hmark dst req
      · simp
    | replySendLongCb req => exact hmark dst req
    | replyRecvLongCb req => simp [handle, mpireqCb]

omit [DecidableEq P] in
theorem handle_sent (m : Module P) (i : Item P) : (i.handle z m).2.flatMap sent = [] := by
  have hreply (me : P) (req : Sendreq P) : (replyreqSend z me req).flatMap sent = [] := by
    unfold replyreqSend
    dsimp only
    split_ifs <;> rfl
  have hcomplete (me : P) (m : Module P) : (passiveUnlockComplete me m).2.flatMap sent = [] := by
    unfold passiveUnlockComplete
    split_ifs
    · rfl
    · unfold grantNext
      split <;> simp [flatMap_map, sent]
  have hmark (me : P) (m : Module P) (req : Sendreq P) : (inmsgMarkComplete me m req).2.flatMap sent = [] := by
    unfold inmsgMarkComplete
    dsimp only
    split_ifs
    · exact hcomplete me _
    · rfl
  cases i with
  | msg src dst content =>
    cases content with
    | send req msgLength =>
      rw [handle, fragmentCb, sendreqRecv]
      split_ifs
      · exact hreply dst req
      · exact hmark dst m req
      · rfl
    | reply req msgLength =>
      rw [handle, fragmentCb, replyreqRecv]
      split_ifs <;> rfl
    | post => rfl
    | complete count => rfl
    | lockReq origin type =>
      cases type with
      | none => rfl
      | some type =>
        rw [handle, fragmentCb]
        unfold passiveLock
        cases type <;> dsimp only <;> split_ifs <;> rfl
    | unlockReq origin count => exact hcomplete dst _
    | unlockReply => rfl
  | cb dst c =>
    cases c with
    | sendCb req msgLength => rfl
    | sendLongCb req => rfl
    | recvLongCb req => exact hmark dst m req
    | replySendCb req msgLength =>
      rw [handle, mpireqCb]
      split_ifs
      · exact hmark dst m req
      · rfl
    | replySendLongCb req => exact hmark dst m req
    | replyRecvLongCb req => rfl

theorem Inv.not_concerns (h : Inv target s) (hnet : s.world.net = before ++ i :: after)
    (hfirst : ∀ j ∈ before, ¬ j.SameWay i) (hp : p ∈ (before ++ after).filterMap unlockOf) :
    i.Concerns p = false := by
  have hperm : s.world.net.Perm (i :: (before ++ after)) := hnet ▸ perm_middle
  by_contra hi
  rw [Bool.not_eq_false] at hi
  obtain ⟨l, hl, hway⟩ := h.behind p ((hperm.filterMap _).mem_iff.mpr (by
    rw [filterMap_cons]
    split
    · exact hp
    · exact mem_cons_of_mem _ hp))
  have hunlock := unlock_first hnet hfirst hl hway hi
  have hstage := h.managed.1.stage p
  have hcount := (hperm.filterMap unlockOf).count_eq p
  rw [hunlock, filterMap_cons, unlockOf, count_cons_self] at hcount
  have hpos := count_pos_iff.mpr hp
  rw [count_append] at hstage
  cases hphase : s.phase p <;> rw [hphase] at hstage <;> unfold Stage at hstage <;> omega

theorem Inv.announced_eq (h : Inv target s) (hnet : s.world.net = before ++ i :: after)
    (hfirst : ∀ j ∈ before, ¬ j.SameWay i) (hp : i.unlockOf = some p) : i.announced = openOf s.world.net p := by
  have hmem : p ∈ s.world.net.filterMap unlockOf := by
    rw [hnet, mem_filterMap]
    exact ⟨i, mem_append_right _ mem_cons_self, hp⟩
  obtain ⟨l, hl, hway⟩ := h.behind p hmem
  rw [unlock_first hnet hfirst hl hway (by simp [Concerns, hp])]
  rfl

/-- What happens when an item comes up: the requests `over` are over at the target, and `done` at the owner
of the item. -/
structure Came (target : P) (s : Passive P) (i : Item P) (rest new : List (Item P)) (m' : Module P)
    (past done : List (Sendreq P)) : Prop where
  at_ : i.AtTarget target
  split : ∃ before after, s.world.net = before ++ i :: after ∧ rest = before ++ after
  perm : s.world.net.Perm (i :: rest)
  settles : Settles i.owner i (s.world.modules i.owner) m' new
  effect : Effect target i (s.world.modules i.owner) (m', new)
  newAt : ∀ j ∈ new, j.AtTarget target
  newSent : new.flatMap Item.sent = []
  unapplied : i.unapplied = past ++ new.flatMap unapplied
  window : (Function.update s.world.modules i.owner m' target).window = (s.world.modules target).window ++ past
  pendingIn : (Function.update s.world.modules i.owner m' target).numPendingIn =
    (s.world.modules target).numPendingIn + i.announced - past.length
  incomplete : i.incomplete = done ++ new.flatMap incomplete
  origin : ∀ req ∈ done, req.origin = i.owner
  pendingOut : m'.numPendingOut = (s.world.modules i.owner).numPendingOut - done.length - i.unlocked
  concerns : ∀ p ∈ rest.filterMap unlockOf, i.Concerns p = false
  announced : ∀ p, i.unlockOf = some p → i.announced = openOf s.world.net p

theorem Inv.came {w' : World P} (h : Inv target s) (hcomes : Comes z s.world i w') :
    ∃ rest new m' past done, Came target s i rest new m' past done ∧
      w' = ⟨update s.world.modules i.owner m', rest ++ new, s.world.made ++ new⟩ := by
  obtain ⟨hnet, hfirst⟩ := hcomes
  rename_i before after
  have hperm : s.world.net.Perm (i :: (before ++ after)) := hnet ▸ perm_middle
  obtain ⟨hplaced, hat⟩ := h.placed i (hperm.mem_iff.mpr mem_cons_self)
  have hs := handle_settles z (s.world.modules i.owner) hplaced
  obtain ⟨past, hover, hwindow, hin⟩ := settles_target hs hat
  obtain ⟨done, hdone, horigin, -, hout⟩ := hs.done
  exact ⟨before ++ after, _, _, past, done, ⟨hat, ⟨before, after, hnet, rfl⟩, hperm, hs, handle_effect hplaced hat, handle_atTarget hat _,
    handle_sent _ i, hover,
    hwindow, hin, hdone, horigin, hout, fun p hp => h.not_concerns hnet hfirst hp,
    fun p hp => h.announced_eq hnet hfirst hp⟩, rfl⟩

namespace Came

variable {rest new : List (Item P)} {m' : Module P} {past done : List (Sendreq P)}
  (h : Came target s i rest new m' past done)
include h

theorem unapplied_perm : (s.world.net.flatMap Item.unapplied).Perm (past ++ (rest ++ new).flatMap Item.unapplied) := by
  refine (h.perm.flatMap_right Item.unapplied).trans ?_
  rw [flatMap_cons, h.unapplied, append_assoc, flatMap_append]
  exact List.perm_append_comm.append_left past

theorem incomplete_perm :
    (s.world.net.flatMap Item.incomplete).Perm (done ++ (rest ++ new).flatMap Item.incomplete) := by
  refine (h.perm.flatMap_right Item.incomplete).trans ?_
  rw [flatMap_cons, h.incomplete, append_assoc, flatMap_append]
  exact List.perm_append_comm.append_left done

theorem unlocks_perm : (s.world.net.filterMap unlockOf).Perm (i.unlockOf.toList ++ rest.filterMap unlockOf) := by
  refine (h.perm.filterMap unlockOf).trans ?_
  cases hi : i.unlockOf <;> simp [hi]

theorem unlocks_after : (rest ++ new).filterMap unlockOf = rest.filterMap unlockOf := by
  rw [filterMap_append, h.effect.noRequest.2, append_nil]

theorem not_origin {req : Sendreq P} (hp : p ∈ rest.filterMap unlockOf) (hreq : req ∈ i.unapplied) :
    req.origin ≠ p := by
  intro horigin
  have hi := h.concerns p hp
  rw [Concerns, decide_eq_false_iff_not, not_or] at hi
  exact hi.2 ⟨req, hreq, horigin⟩

theorem open_eq (hp : p ∈ rest.filterMap unlockOf) : openOf (rest ++ new) p = openOf s.world.net p := by
  have hover : past.countP (fun req => req.origin = p) = 0 := by
    refine countP_eq_zero.mpr fun req hreq => ?_
    rw [decide_eq_true_eq]
    exact h.not_origin hp (h.unapplied ▸ mem_append_left _ hreq)
  rw [openOf, openOf, h.unapplied_perm.countP_eq, countP_append, hover, zero_add]

theorem new_concerns (hp : p ∈ rest.filterMap unlockOf) : ∀ j ∈ new, j.Concerns p = false := by
  intro j hj
  have hunlock := filterMap_eq_nil_iff.mp h.effect.noRequest.2 j hj
  rw [Concerns, decide_eq_false_iff_not, hunlock]
  rintro (hnone | ⟨req, hreq, horigin⟩)
  · cases hnone
  · refine h.not_origin hp ?_ horigin
    rw [h.unapplied]
    exact mem_append_right _ (mem_flatMap.mpr ⟨j, hj, hreq⟩)

theorem behind (hinv : Inv target s) : ∀ p ∈ (rest ++ new).filterMap unlockOf, ∃ l,
    (rest ++ new).filter (Item.Concerns p) = .msg p target (.unlockReq p (openOf (rest ++ new) p)) :: l ∧
      ∀ i ∈ l, i.OnWay p target := by
  intro p hp
  rw [h.unlocks_after] at hp
  obtain ⟨l, hl, hway⟩ := hinv.behind p (h.unlocks_perm.mem_iff.mpr (mem_append_right _ hp))
  refine ⟨l, ?_, hway⟩
  obtain ⟨before, after, hnet, hrest⟩ := h.split
  have hnew : new.filter (Item.Concerns p) = [] := filter_eq_nil_iff.mpr fun j hj => by
    rw [h.new_concerns hp j hj]
    exact Bool.false_ne_true
  have hi : ¬ i.Concerns p = true := by
    rw [h.concerns p hp]
    exact Bool.false_ne_true
  rw [h.open_eq hp, ← hl, filter_append, hnew, append_nil, hnet, hrest, filter_append,
    filter_append, filter_cons_of_neg hi]

theorem pendingIn_after (hinv : Inv target s) :
    (update s.world.modules i.owner m' target).numPendingIn =
      ((rest ++ new).flatMap Item.unapplied).countP fun req => req.origin ∉ (rest ++ new).filterMap unlockOf := by
  have hsplit := h.unapplied_perm.countP_eq fun req => decide (req.origin ∉ s.world.net.filterMap unlockOf)
  rw [countP_append] at hsplit
  rw [h.pendingIn, hinv.pendingIn, h.unlocks_after, hsplit]
  cases hi : i.unlockOf with
  | none =>
    have hmem (p : P) : p ∈ s.world.net.filterMap unlockOf ↔ p ∈ rest.filterMap unlockOf := by
      rw [h.unlocks_perm.mem_iff, hi]
      exact Iff.rfl
    have hover : past.countP (fun req => decide (req.origin ∉ rest.filterMap unlockOf)) = past.length := by
      refine countP_eq_length.mpr fun req hreq => decide_eq_true fun horigin => ?_
      exact h.not_origin horigin (h.unapplied ▸ mem_append_left _ hreq) rfl
    simp only [hmem, announced_none h.at_ hi, hover]
    omega
  | some p =>
    have hp : p ∉ rest.filterMap unlockOf := by
      intro hp
      have hconcerns := h.concerns p hp
      rw [Concerns, decide_eq_false_iff_not] at hconcerns
      exact hconcerns (.inl hi)
    have hmem (q : P) : q ∈ s.world.net.filterMap unlockOf ↔ q = p ∨ q ∈ rest.filterMap unlockOf := by
      rw [h.unlocks_perm.mem_iff, hi]
      exact mem_cons
    have hnil := unapplied_unlock hi
    rw [h.unapplied, append_eq_nil_iff] at hnil
    have hopen : openOf s.world.net p = ((rest ++ new).flatMap Item.unapplied).countP fun req => req.origin = p := by
      rw [openOf, h.unapplied_perm.countP_eq, hnil.1, nil_append]
    rw [h.announced p hi, hopen, hnil.1, countP_not_mem_cons hp ((rest ++ new).flatMap Item.unapplied)]
    simp only [hmem, countP_nil, length_nil]
    omega

theorem leaving_eq (p : P) : (s.leaving target).count p = (new.filterMap replyOf).count p +
    ((rest ++ new).filterMap unlockOf ++
      (update s.world.modules i.owner m' target).unlocksPending).count p := by
  have hledger := (ledger_come h.effect).leaves p
  rw [count_append] at hledger
  dsimp only at hledger
  rw [Passive.leaving, count_append, h.unlocks_perm.count_eq, count_append, h.unlocks_after,
    count_append]
  omega

theorem asking_eq (p : P) : (s.asking target).countP (fun a => a.1 = p) = (new.filterMap grantOf).count p +
    ((rest ++ new).filterMap lockOf ++
      (update s.world.modules i.owner m' target).locksPending).countP fun a => a.1 = p := by
  have hledger := (ledger_come h.effect).asks p
  have hlocks : (s.world.net.filterMap lockOf).Perm (i.lockOf.toList ++ rest.filterMap lockOf) := by
    refine (h.perm.filterMap lockOf).trans ?_
    cases hi : i.lockOf <;> simp [hi]
  rw [countP_append] at hledger
  dsimp only at hledger
  rw [Passive.asking, countP_append, hlocks.countP_eq, countP_append, filterMap_append,
    h.effect.noRequest.1, append_nil, countP_append]
  omega

theorem settled (hinv : Inv target s) (hp : p ∉ (rest ++ new).filterMap unlockOf ++
    (update s.world.modules i.owner m' target).unlocksPending) : openOf (rest ++ new) p = 0 := by
  by_cases hreplies : new.filterMap replyOf = []
  · have hleaving : p ∉ s.leaving target := by
      rw [← count_eq_zero] at hp ⊢
      rw [h.leaving_eq, hp, hreplies, count_nil]
    have hopen := hinv.settled p hleaving
    rw [openOf, h.unapplied_perm.countP_eq, countP_append] at hopen
    rw [openOf]
    omega
  · obtain ⟨howner, hin⟩ := h.effect.answered hreplies
    have hpending := h.pendingIn_after hinv
    rw [← howner, update_self, hin, eq_comm, Int.natCast_eq_zero] at hpending
    refine Nat.le_zero.mp (hpending ▸ countP_mono_left fun req hreq horigin => ?_)
    rw [decide_eq_true_eq] at horigin ⊢
    rw [horigin]
    exact fun hunlock => hp (mem_append_left _ hunlock)

theorem unfinished_after (p : P) : unfinishedOf s.world.net p =
    (if p = i.owner then done.length else 0) + unfinishedOf (rest ++ new) p := by
  rw [unfinishedOf, unfinishedOf, h.incomplete_perm.countP_eq, countP_append]
  congr 1
  split_ifs with hp
  · refine countP_eq_length.mpr fun req hreq => decide_eq_true ?_
    rw [hp]
    exact h.origin req hreq
  · refine countP_eq_zero.mpr fun req hreq => ?_
    rw [decide_eq_true_eq, h.origin req hreq]
    exact Ne.symm hp

theorem replies_after (p : P) : (s.world.net.filterMap replyOf).count p + (new.filterMap replyOf).count p =
    (if p = i.owner then i.unlocked else 0) + ((rest ++ new).filterMap replyOf).count p := by
  have hreplies : (s.world.net.filterMap replyOf).Perm (i.replyOf.toList ++ rest.filterMap replyOf) := by
    refine (h.perm.filterMap replyOf).trans ?_
    cases hi : i.replyOf <;> simp [hi]
  rw [hreplies.count_eq, count_append, filterMap_append, count_append, reply_unlocked]
  omega

theorem pendingOut_after (hinv : Inv target s) (p : P) :
    (update s.world.modules i.owner m' p).numPendingOut = unfinishedOf (rest ++ new) p +
      ((rest ++ new).filterMap unlockOf ++
        (update s.world.modules i.owner m' target).unlocksPending).count p +
      ((rest ++ new).filterMap replyOf).count p := by
  have hout := hinv.pendingOut p
  have hunfinished := h.unfinished_after p
  have hreplies := h.replies_after p
  have hleaving := h.leaving_eq p
  by_cases hp : p = i.owner
  · rw [if_pos hp] at hunfinished hreplies
    have hpending := h.pendingOut
    rw [← hp] at hpending ⊢
    rw [update_self]
    rw [← hp] at hleaving
    omega
  · rw [if_neg hp] at hunfinished hreplies
    rw [update_of_ne hp]
    omega

end Came

theorem Inv.come (h : Inv target s) (hcomes : Comes z s.world i s'.world) (hphase : s'.phase = s.phase) :
    Inv target s' := by
  obtain ⟨rest, new, m', past, done, hcame, hworld⟩ := h.came hcomes
  obtain ⟨world, phase⟩ := s'
  dsimp only at hworld hphase
  subst hworld hphase
  refine ⟨(h.managed.perm hcame.perm).come hcame.effect, ?_, hcame.behind h, hcame.pendingIn_after h, ?_, ?_,
    fun p hp => hcame.settled h hp, fun p => hcame.pendingOut_after h p, fun p => ?_, fun p => ?_, fun p => ?_, ?_⟩
  · intro j hj
    rcases mem_append.mp hj with hrest | hnew
    · exact h.placed j (hcame.perm.mem_iff.mpr (mem_cons_of_mem _ hrest))
    · exact ⟨hcame.settles.placed j hnew, hcame.newAt j hnew⟩
  · intro p type announced hunlocking req
    dsimp only
    rw [flatMap_append, hcame.newSent, append_nil]
    exact h.announced p type announced hunlocking req
  · intro req
    have hsent := h.sent req
    rw [hcame.unapplied_perm.count_eq, count_append] at hsent
    dsimp only
    rw [flatMap_append, hcame.newSent, append_nil, hcame.window, count_append, hsent, add_assoc]
  · by_cases hp : p = i.owner
    · subst hp
      dsimp only
      rw [update_self, hcame.settles.pending, hcame.settles.copyPending]
      exact h.pending i.owner
    · dsimp only
      rw [update_of_ne hp]
      exact h.pending p
  · have hasked := h.asked p
    have hlocks : (s.world.made ++ new).filterMap lockOf = s.world.made.filterMap lockOf := by
      rw [filterMap_append, hcame.effect.noRequest.1, append_nil]
    have hgrants : ((s.world.made ++ new).filterMap grantOf).count p =
        (s.world.made.filterMap grantOf).count p + (new.filterMap grantOf).count p := by
      rw [filterMap_append, count_append]
    rw [hcame.asking_eq p] at hasked
    rw [Passive.asking]
    dsimp only
    rw [hlocks, hgrants, hasked, add_assoc]
  · have hleft := h.left p
    have hunlocks : (s.world.made ++ new).filterMap unlockOf = s.world.made.filterMap unlockOf := by
      rw [filterMap_append, hcame.effect.noRequest.2, append_nil]
    have hreplies : ((s.world.made ++ new).filterMap replyOf).count p =
        (s.world.made.filterMap replyOf).count p + (new.filterMap replyOf).count p := by
      rw [filterMap_append, count_append]
    rw [hcame.leaving_eq p] at hleft
    rw [Passive.leaving]
    dsimp only
    rw [hunlocks, hreplies, hleft, add_assoc]
  · dsimp only
    by_cases howner : target = i.owner
    · rw [howner, update_self]
      refine hcame.effect.waiting ?_ ?_ <;> rw [← howner]
      · exact h.locked
      · exact h.waiting
    · rw [update_of_ne howner]
      exact h.waiting

end Come

end OpenMPI.Osc
