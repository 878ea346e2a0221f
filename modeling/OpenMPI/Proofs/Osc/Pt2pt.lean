import Mathlib.Tactic.SplitIfs
import OpenMPI.Osc.Pt2pt

/-!
# One-sided communication over messages

A request that was sent is kept by one item until it is over at its target, and by one until it is over at
its origin.  The callback that takes such an item either counts the request or hands it on to one other
item (`Settles`).
-/

namespace OpenMPI.Osc

open List

variable {P : Type*}

namespace Item

def unapplied : Item P → List (Sendreq P)
  | .msg _ _ (.send req _) => [req]
  | .cb _ (.recvLongCb req) => [req]
  | .cb _ (.replySendCb req msgLength) => if msgLength ≠ 0 then [req] else []
  | .cb _ (.replySendLongCb req) => [req]
  | _ => []

def incomplete : Item P → List (Sendreq P)
  | .msg _ _ (.send req _) => if req.type = .get then [req] else []
  | .msg _ _ (.reply req _) => [req]
  | .cb _ (.sendCb req msgLength) => if req.type ≠ .get ∧ msgLength ≠ 0 then [req] else []
  | .cb _ (.sendLongCb req) => [req]
  | .cb _ (.replyRecvLongCb req) => [req]
  | _ => []

def announced : Item P → ℕ
  | .msg _ _ (.unlockReq _ count) => count
  | .msg _ _ (.complete count) => count
  | _ => 0

def unlocked : Item P → ℕ
  | .msg _ _ .unlockReply => 1
  | _ => 0

def Placed : Item P → Prop
  | .msg src dst (.send req _) => src = req.origin ∧ dst = req.target
  | .msg src dst (.reply req _) => src = req.target ∧ dst = req.origin
  | .cb dst (.sendCb req _) => dst = req.origin
  | .cb dst (.sendLongCb req) => dst = req.origin
  | .cb dst (.recvLongCb req) => dst = req.target
  | .cb dst (.replySendCb req _) => dst = req.target
  | .cb dst (.replySendLongCb req) => dst = req.target
  | .cb dst (.replyRecvLongCb req) => dst = req.origin
  | _ => True

end Item

open Item

/-- What the callback of an item does to the requests. -/
structure Settles (me : P) (i : Item P) (m m' : Module P) (new : List (Item P)) : Prop where
  past : ∃ past, i.unapplied = past ++ new.flatMap unapplied ∧ (∀ req ∈ past, req.target = me) ∧
    m'.window = m.window ++ past ∧ m'.numPendingIn = m.numPendingIn + i.announced - past.length
  done : ∃ done, i.incomplete = done ++ new.flatMap incomplete ∧ (∀ req ∈ done, req.origin = me) ∧
    m'.completed = m.completed ++ done ∧ m'.numPendingOut = m.numPendingOut - done.length - i.unlocked
  placed : ∀ j ∈ new, j.Placed
  pending : m'.pendingSendreqs = m.pendingSendreqs
  numPending : m'.numPendingSendreqs = m.numPendingSendreqs
  copyPending : m'.copyPendingSendreqs = m.copyPendingSendreqs
  copyNumPending : m'.copyNumPendingSendreqs = m.copyNumPendingSendreqs

variable (z : Sizes) (me : P) (m : Module P)

theorem sendreqSend_placed {req : Sendreq P} (hreq : req.origin = me) : ∀ i ∈ sendreqSend z me req, i.Placed := by
  subst hreq
  unfold sendreqSend
  dsimp only
  split_ifs <;> simp [Placed]

theorem replyreqSend_placed {req : Sendreq P} (hreq : req.target = me) :
    ∀ i ∈ replyreqSend z me req, i.Placed := by
  subst hreq
  unfold replyreqSend
  dsimp only
  split_ifs <;> simp [Placed]

@[simp] theorem sendreqSend_unapplied (req : Sendreq P) : (sendreqSend z me req).flatMap unapplied = [req] := by
  unfold sendreqSend
  dsimp only
  split_ifs <;> simp [unapplied]

@[simp] theorem sendreqSend_incomplete (req : Sendreq P) :
    (sendreqSend z me req).flatMap incomplete = [req] := by
  unfold sendreqSend
  by_cases hget : req.type = .get
  · simp [incomplete, hget]
  · by_cases hlength : sendMsgLength z req = 0
    · simp [incomplete, hget, hlength]
    · simp [incomplete, hget, hlength]

theorem replyreqSend_unapplied (req : Sendreq P) : (replyreqSend z me req).flatMap unapplied = [req] := by
  unfold replyreqSend
  by_cases hlength : replyMsgLength z req = 0
  · simp [unapplied, hlength]
  · simp [unapplied, hlength]

theorem replyreqSend_incomplete (req : Sendreq P) : (replyreqSend z me req).flatMap incomplete = [req] := by
  unfold replyreqSend
  dsimp only
  split_ifs <;> simp [incomplete]

def LockOnly (m m' : Module P) : Prop := ∃ lockStatus sharedCount locksPending unlocksPending,
  m' = { m with
    lockStatus := lockStatus, sharedCount := sharedCount, locksPending := locksPending
    unlocksPending := unlocksPending }

def NoRequest (new : List (Item P)) : Prop :=
  new.flatMap unapplied = [] ∧ new.flatMap incomplete = [] ∧ ∀ i ∈ new, i.Placed

theorem releaseLock_lockOnly : LockOnly m (releaseLock m) := by
  unfold releaseLock
  split_ifs
  · exact ⟨none, m.sharedCount, m.locksPending, [], rfl⟩
  · exact ⟨_, _, m.locksPending, [], rfl⟩

theorem grantNext_spec : LockOnly m (grantNext me m).1 ∧ NoRequest (grantNext me m).2 := by
  unfold grantNext
  split
  · exact ⟨⟨_, _, _, m.unlocksPending, rfl⟩, rfl, rfl, by simp [Placed]⟩
  · exact ⟨⟨m.lockStatus, m.sharedCount, m.locksPending, m.unlocksPending, rfl⟩, rfl, rfl, by simp⟩

theorem LockOnly.trans {m m' m'' : Module P} (h : LockOnly m m') (h' : LockOnly m' m'') : LockOnly m m'' := by
  obtain ⟨_, _, _, _, rfl⟩ := h
  obtain ⟨a, b, c, d, rfl⟩ := h'
  exact ⟨a, b, c, d, rfl⟩

theorem passiveUnlockComplete_spec :
    LockOnly m (passiveUnlockComplete me m).1 ∧ NoRequest (passiveUnlockComplete me m).2 := by
  unfold passiveUnlockComplete
  split_ifs
  · exact ⟨⟨m.lockStatus, m.sharedCount, m.locksPending, m.unlocksPending, rfl⟩, rfl, rfl, by simp⟩
  · obtain ⟨hgrant, hunapplied, hincomplete, hplaced⟩ :=
      grantNext_spec me (releaseLock m)
    refine ⟨(releaseLock_lockOnly m).trans hgrant, ?_, ?_, fun i hi => ?_⟩
    · rw [flatMap_append, hunapplied]
      simp [unapplied, flatMap_map]
    · rw [flatMap_append, hincomplete]
      simp [incomplete, flatMap_map]
    · rcases mem_append.mp hi with hack | hgrant
      · obtain ⟨origin, -, rfl⟩ := mem_map.mp hack
        trivial
      · exact hplaced i hgrant

theorem passiveLock_spec (origin : P) (type : LockType) :
    LockOnly m (passiveLock me m origin type).1 ∧ NoRequest (passiveLock me m origin type).2 := by
  unfold passiveLock
  cases type with
  | exclusive =>
    dsimp only
    split_ifs
    · exact ⟨⟨_, m.sharedCount, m.locksPending, m.unlocksPending, rfl⟩, rfl, rfl, by simp [Placed]⟩
    · exact ⟨⟨m.lockStatus, m.sharedCount, _, m.unlocksPending, rfl⟩, rfl, rfl, by simp⟩
  | shared =>
    dsimp only
    split_ifs
    · exact ⟨⟨_, _, m.locksPending, m.unlocksPending, rfl⟩, rfl, rfl, by simp [Placed]⟩
    · exact ⟨⟨m.lockStatus, m.sharedCount, _, m.unlocksPending, rfl⟩, rfl, rfl, by simp⟩

section Settles

variable {m' : Module P} {i : Item P} {new : List (Item P)} {req : Sendreq P}

theorem inmsgMarkComplete_settles (hunapplied : i.unapplied = [req]) (hincomplete : i.incomplete = [])
    (hannounced : i.announced = 0) (hunlocked : i.unlocked = 0) (hreq : req.target = me) :
    Settles me i m (inmsgMarkComplete me m req).1 (inmsgMarkComplete me m req).2 := by
  generalize hr : inmsgMarkComplete me m req = r
  have hspec : LockOnly { m with window := m.window ++ [req], numPendingIn := m.numPendingIn - 1 } r.1 ∧
      NoRequest r.2 := by
    rw [← hr, inmsgMarkComplete]
    dsimp only
    split_ifs
    · exact passiveUnlockComplete_spec me _
    · exact ⟨⟨m.lockStatus, m.sharedCount, m.locksPending, m.unlocksPending, rfl⟩, rfl, rfl, by simp⟩
  obtain ⟨⟨a, b, c, d, heq⟩, hnoUnapplied, hnoIncomplete, hplaced⟩ := hspec
  rw [heq]
  refine ⟨⟨[req], ?_, by simpa using hreq, rfl, ?_⟩, ⟨[], ?_, by simp, ?_, ?_⟩, hplaced, rfl, rfl, rfl, rfl⟩
  · rw [hunapplied, hnoUnapplied, append_nil]
  · simp [hannounced]
  · rw [hincomplete, hnoIncomplete, append_nil]
  · simp
  · simp [hunlocked]

theorem sendreqDone_settles (hunapplied : i.unapplied = []) (hincomplete : i.incomplete = [req])
    (hannounced : i.announced = 0) (hunlocked : i.unlocked = 0) (hreq : req.origin = me) :
    Settles me i m (sendreqDone m req) [] := by
  refine ⟨⟨[], hunapplied, by simp, ?_, ?_⟩, ⟨[req], hincomplete, by simpa using hreq, rfl, ?_⟩, by simp, rfl,
    rfl, rfl, rfl⟩
  · simp [sendreqDone]
  · simp [sendreqDone, hannounced]
  · simp [sendreqDone, hunlocked]

theorem settles_of_lockOnly (hm : LockOnly m m') (hunapplied : i.unapplied = new.flatMap unapplied)
    (hincomplete : i.incomplete = new.flatMap incomplete) (hannounced : i.announced = 0)
    (hunlocked : i.unlocked = 0) (hplaced : ∀ j ∈ new, j.Placed) : Settles me i m m' new := by
  obtain ⟨a, b, c, d, rfl⟩ := hm
  refine ⟨⟨[], hunapplied, by simp, ?_, ?_⟩, ⟨[], hincomplete, by simp, ?_, ?_⟩, hplaced, rfl, rfl, rfl, rfl⟩
  · simp
  · simp [hannounced]
  · simp
  · simp [hunlocked]

theorem settles_self (hunapplied : i.unapplied = new.flatMap unapplied)
    (hincomplete : i.incomplete = new.flatMap incomplete) (hannounced : i.announced = 0)
    (hunlocked : i.unlocked = 0) (hplaced : ∀ j ∈ new, j.Placed) : Settles me i m m new :=
  settles_of_lockOnly me m ⟨m.lockStatus, m.sharedCount, m.locksPending, m.unlocksPending, rfl⟩ hunapplied
    hincomplete hannounced hunlocked hplaced

theorem settles_count (hunapplied : i.unapplied = []) (hincomplete : i.incomplete = [])
    (hin : m'.numPendingIn = m.numPendingIn + i.announced)
    (hout : m'.numPendingOut = m.numPendingOut - i.unlocked) (hrest : ∃ postMsgs completeMsgs ack,
      m' = { m with
        numPendingIn := m'.numPendingIn, numPendingOut := m'.numPendingOut, numPostMsgs := postMsgs
        numCompleteMsgs := completeMsgs, lockReceivedAck := ack }) : Settles me i m m' [] := by
  obtain ⟨a, b, c, heq⟩ := hrest
  refine ⟨⟨[], hunapplied, by simp, ?_, ?_⟩, ⟨[], hincomplete, by simp, ?_, ?_⟩, by simp, ?_, ?_, ?_, ?_⟩
  · rw [heq, append_nil]
  · simpa using hin
  · rw [heq, append_nil]
  · simpa using hout
  all_goals rw [heq]

theorem fragmentCb_settles {src : P} {content : Msg P} (hplaced : (Item.msg src me content).Placed) :
    Settles me (.msg src me content) m (fragmentCb z me m content).1 (fragmentCb z me m content).2 := by
  cases content with
  | send req msgLength =>
    obtain ⟨rfl, hreq⟩ := hplaced
    rw [fragmentCb, sendreqRecv]
    by_cases hget : req.type = .get
    · rw [if_pos hget]
      refine settles_self me m ?_ ?_ rfl rfl (replyreqSend_placed z me hreq.symm)
      · exact (replyreqSend_unapplied z me req).symm
      · rw [replyreqSend_incomplete, incomplete, if_pos hget]
    · rw [if_neg hget]
      have hincomplete : (Item.msg req.origin me (.send req msgLength)).incomplete = [] := if_neg (by simpa using hget)
      split_ifs
      · exact inmsgMarkComplete_settles me m rfl hincomplete rfl rfl hreq.symm
      · exact settles_self me m rfl hincomplete rfl rfl (by simpa [Placed] using hreq)
  | reply req msgLength =>
    obtain ⟨-, hreq⟩ := hplaced
    rw [fragmentCb, replyreqRecv]
    split_ifs
    · exact sendreqDone_settles me m rfl rfl rfl rfl hreq.symm
    · exact settles_self me m rfl rfl rfl rfl (by simpa [Placed] using hreq)
  | post =>
    exact settles_count me m rfl rfl (by simp [fragmentCb, announced]) (by simp [fragmentCb, unlocked])
      ⟨_, m.numCompleteMsgs, m.lockReceivedAck, rfl⟩
  | complete count =>
    exact settles_count me m rfl rfl rfl (by simp [fragmentCb, unlocked]) ⟨m.numPostMsgs, _, m.lockReceivedAck, rfl⟩
  | lockReq origin type =>
    cases type with
    | none =>
      exact settles_count me m rfl rfl (by simp [fragmentCb, announced]) (by simp [fragmentCb, unlocked])
        ⟨m.numPostMsgs, m.numCompleteMsgs, _, rfl⟩
    | some type =>
      obtain ⟨hlock, hunapplied, hincomplete, hnew⟩ := passiveLock_spec me m origin type
      exact settles_of_lockOnly me m hlock hunapplied.symm hincomplete.symm rfl rfl hnew
  | unlockReq origin count =>
    rw [fragmentCb, passiveUnlock]
    obtain ⟨⟨a, b, c, d, heq⟩, hunapplied, hincomplete, hnew⟩ := passiveUnlockComplete_spec me { m with
      numPendingIn := m.numPendingIn + count, unlocksPending := m.unlocksPending ++ [origin] }
    rw [heq]
    refine ⟨⟨[], hunapplied.symm, by simp, ?_, ?_⟩, ⟨[], hincomplete.symm, by simp, ?_, ?_⟩, hnew, rfl, rfl, rfl,
      rfl⟩ <;> simp [announced, unlocked]
  | unlockReply =>
    exact settles_count me m rfl rfl (by simp [fragmentCb, announced]) rfl
      ⟨m.numPostMsgs, m.numCompleteMsgs, m.lockReceivedAck, rfl⟩

theorem mpireqCb_settles {c : Callback P} (hplaced : (Item.cb me c).Placed) :
    Settles me (.cb me c) m (mpireqCb me m c).1 (mpireqCb me m c).2 := by
  cases c with
  | sendCb req msgLength =>
    rw [mpireqCb]
    by_cases hdone : req.type ≠ .get ∧ msgLength ≠ 0
    · rw [if_pos hdone]
      exact sendreqDone_settles me m rfl (if_pos hdone) rfl rfl hplaced.symm
    · rw [if_neg hdone]
      exact settles_self me m rfl (if_neg hdone) rfl rfl (by simp)
  | sendLongCb req => exact sendreqDone_settles me m rfl rfl rfl rfl hplaced.symm
  | recvLongCb req => exact inmsgMarkComplete_settles me m rfl rfl rfl rfl hplaced.symm
  | replySendCb req msgLength =>
    rw [mpireqCb]
    by_cases hover : msgLength ≠ 0
    · rw [if_pos hover]
      exact inmsgMarkComplete_settles me m (if_pos hover) rfl rfl rfl hplaced.symm
    · rw [if_neg hover]
      exact settles_self me m (if_neg hover) rfl rfl rfl (by simp)
  | replySendLongCb req => exact inmsgMarkComplete_settles me m rfl rfl rfl rfl hplaced.symm
  | replyRecvLongCb req => exact sendreqDone_settles me m rfl rfl rfl rfl hplaced.symm

theorem handle_settles {i : Item P} (hplaced : i.Placed) :
    Settles i.owner i m (i.handle z m).1 (i.handle z m).2 := by
  cases i with
  | msg src dst content => exact fragmentCb_settles z dst m hplaced
  | cb dst c => exact mpireqCb_settles dst m hplaced

end Settles

section Comes

variable [DecidableEq P] {i : Item P} {w w' : World P} {past done : List (Sendreq P)}

theorem countP_origin {p : P} {reqs : List (Sendreq P)} (hreqs : ∀ req ∈ reqs, req.origin = p) {q : P} :
    reqs.countP (fun req => decide (req.origin = q)) = if q = p then reqs.length else 0 := by
  split_ifs with hq
  · exact countP_eq_length.mpr fun req hreq => decide_eq_true (by rw [hreqs req hreq, hq])
  · refine countP_eq_zero.mpr fun req hreq => ?_
    rw [decide_eq_true_eq, hreqs req hreq]
    exact Ne.symm hq

/-- The requests `over` are over at their target, and `done` at their origin. -/
structure Delivered (i : Item P) (w w' : World P) (past done : List (Sendreq P)) : Prop where
  unapplied : (w.net.flatMap unapplied).Perm (past ++ w'.net.flatMap unapplied)
  incomplete : (w.net.flatMap incomplete).Perm (done ++ w'.net.flatMap incomplete)
  target : ∀ req ∈ past, req.target = i.owner
  origin : ∀ req ∈ done, req.origin = i.owner
  window : ∀ q, (w'.modules q).window = (w.modules q).window ++ if q = i.owner then past else []
  completed : ∀ q, (w'.modules q).completed = (w.modules q).completed ++ if q = i.owner then done else []
  pendingIn : ∀ q, (w'.modules q).numPendingIn =
    (w.modules q).numPendingIn + if q = i.owner then (i.announced - past.length : ℤ) else 0
  pendingOut : ∀ q, (w'.modules q).numPendingOut =
    (w.modules q).numPendingOut - if q = i.owner then (done.length + i.unlocked : ℤ) else 0
  pending : ∀ q, (w'.modules q).pendingSendreqs = (w.modules q).pendingSendreqs
  numPending : ∀ q, (w'.modules q).numPendingSendreqs = (w.modules q).numPendingSendreqs
  copyPending : ∀ q, (w'.modules q).copyPendingSendreqs = (w.modules q).copyPendingSendreqs

theorem Comes.delivered (h : Comes z w i w') (hplaced : i.Placed) : ∃ past done, Delivered i w w' past done := by
  cases h with
  | @intro before after _ hnet _ =>
    have hs := handle_settles z (w.modules i.owner) hplaced
    generalize i.handle z (w.modules i.owner) = r at hs
    obtain ⟨past, hover, htarget, hwindow, hin⟩ := hs.past
    obtain ⟨done, hdone, horigin, hcompleted, hout⟩ := hs.done
    have hperm : w.net.Perm (i :: (before ++ after)) := hnet ▸ perm_middle
    refine ⟨past, done, ?_, ?_, htarget, horigin, fun q => ?_, fun q => ?_, fun q => ?_, fun q => ?_, fun q => ?_,
      fun q => ?_, fun q => ?_⟩
    · refine (hperm.flatMap_right Item.unapplied).trans ?_
      dsimp only [World.act]
      rw [flatMap_cons, hover, append_assoc, flatMap_append, flatMap_append,
        flatMap_append]
      exact List.perm_append_comm.append_left past
    · refine (hperm.flatMap_right Item.incomplete).trans ?_
      dsimp only [World.act]
      rw [flatMap_cons, hdone, append_assoc, flatMap_append, flatMap_append,
        flatMap_append]
      exact List.perm_append_comm.append_left done
    all_goals
      dsimp only [World.act]
      by_cases hq : q = i.owner
      · subst hq
        simp only [Function.update_self, if_true]
        first
          | exact hs.pending
          | exact hs.numPending
          | exact hs.copyPending
          | assumption
          | omega
      · simp [hq]

end Comes

def Item.work : Item P → ℕ
  | .msg _ _ (.send _ _) => 5
  | .msg _ _ (.reply _ _) => 2
  | .msg _ _ (.lockReq _ (some _)) => 3
  | .msg _ _ (.unlockReq _ _) => 3
  | _ => 1

def Module.work (m : Module P) : ℕ := 2 * (m.locksPending.length + m.unlocksPending.length)

def workOf (net : List (Item P)) : ℕ := (net.map Item.work).sum

@[simp] theorem workOf_append (net new : List (Item P)) : workOf (net ++ new) = workOf net + workOf new := by
  simp [workOf]

@[simp] theorem workOf_cons (i : Item P) (net : List (Item P)) : workOf (i :: net) = i.work + workOf net := by
  simp [workOf]

@[simp] theorem workOf_nil : workOf ([] : List (Item P)) = 0 :=
  rfl

section Work

theorem grantNext_work : workOf (grantNext me m).2 + (grantNext me m).1.work ≤ m.work := by
  unfold grantNext
  split
  · rename_i hlocks
    simp [Module.work, hlocks, Item.work] <;> omega
  · simp

theorem passiveUnlockComplete_work :
    workOf (passiveUnlockComplete me m).2 + (passiveUnlockComplete me m).1.work ≤ m.work := by
  unfold passiveUnlockComplete
  split_ifs
  · simp
  · have hacks : workOf (m.unlocksPending.map fun origin => Item.msg me origin .unlockReply) =
        m.unlocksPending.length := by
      simp [workOf, Function.comp_def, Item.work, map_const', sum_replicate_nat]
    have hrelease : (releaseLock m).work = 2 * m.locksPending.length := by
      unfold releaseLock
      split_ifs <;> simp [Module.work]
    have hgrant := grantNext_work me (releaseLock m)
    have hwork : m.work = 2 * (m.locksPending.length + m.unlocksPending.length) := rfl
    dsimp only
    rw [workOf_append, hacks]
    omega

theorem inmsgMarkComplete_work (req : Sendreq P) :
    workOf (inmsgMarkComplete me m req).2 + (inmsgMarkComplete me m req).1.work ≤ m.work := by
  unfold inmsgMarkComplete
  dsimp only
  split_ifs
  · exact passiveUnlockComplete_work me _
  · simp [Module.work]

theorem handle_work (i : Item P) :
    workOf (i.handle z m).2 + (i.handle z m).1.work + 1 ≤ i.work + m.work := by
  cases i with
  | msg src dst content =>
    rw [Item.handle]
    cases content with
    | send req msgLength =>
      have hmark := inmsgMarkComplete_work dst m req
      rw [fragmentCb, sendreqRecv]
      split_ifs
      · unfold replyreqSend
        dsimp only
        split_ifs <;> simp [Item.work] <;> omega
      · simp only [Item.work]
        omega
      · simp [Item.work] <;> omega
    | reply req msgLength =>
      rw [fragmentCb, replyreqRecv]
      split_ifs <;> simp [Item.work, sendreqDone, Module.work] <;> omega
    | post =>
      simp [fragmentCb, Item.work, Module.work] <;> omega
    | complete count =>
      simp [fragmentCb, Item.work, Module.work] <;> omega
    | lockReq origin type =>
      cases type with
      | none =>
        simp [fragmentCb, Item.work, Module.work] <;> omega
      | some type =>
        rw [fragmentCb]
        unfold passiveLock
        cases type <;> dsimp only <;> split_ifs <;> simp [Item.work, Module.work] <;> omega
    | unlockReq origin count =>
      have hcomplete := passiveUnlockComplete_work dst { m with
        numPendingIn := m.numPendingIn + count, unlocksPending := m.unlocksPending ++ [origin] }
      simp only [Module.work, length_append, length_singleton] at hcomplete
      simp only [fragmentCb, passiveUnlock, Item.work, Module.work]
      omega
    | unlockReply =>
      simp [fragmentCb, Item.work, Module.work] <;> omega
  | cb dst c =>
    have hmark (req : Sendreq P) := inmsgMarkComplete_work dst m req
    rw [Item.handle]
    cases c with
    | sendCb req msgLength =>
      rw [mpireqCb]
      split_ifs <;> simp [Item.work, sendreqDone, Module.work] <;> omega
    | sendLongCb req =>
      simp [mpireqCb, Item.work, sendreqDone, Module.work] <;> omega
    | recvLongCb req =>
      have hmark := hmark req
      simp only [mpireqCb, Item.work]
      omega
    | replySendCb req msgLength =>
      have hmark := hmark req
      rw [mpireqCb]
      split_ifs
      · simp only [Item.work]
        omega
      · simp [Item.work] <;> omega
    | replySendLongCb req =>
      have hmark := hmark req
      simp only [mpireqCb, Item.work]
      omega
    | replyRecvLongCb req =>
      simp [mpireqCb, Item.work, sendreqDone, Module.work] <;> omega

end Work

end OpenMPI.Osc
