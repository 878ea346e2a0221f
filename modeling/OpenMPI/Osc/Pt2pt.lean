import Mathlib.Algebra.Order.Ring.Int
import Mathlib.Logic.Function.Basic

/-!
# One-sided communication over messages

`osc_pt2pt`.  The processes of a window send each other control messages, and the data of a long request
in a message of its own.  What a process does with a control message that came, or when a request that it
waits for is over, is a callback; it answers with messages and with requests to wait for.
-/

namespace OpenMPI.Osc

inductive ReqType
  | put
  | acc
  | get
  deriving DecidableEq

inductive LockType
  | exclusive
  | shared
  deriving DecidableEq

/-- `ompi_osc_pt2pt_sendreq_t`, and at the target what answers it. -/
structure Sendreq (P : Type*) where
  type : ReqType
  origin : P
  target : P
  /-- The length of the packed target datatype. -/
  ddtLen : ℕ
  /-- `req_origin_bytes_packed` -/
  bytes : ℕ
  /-- `rep_target_bytes_packed` -/
  targetBytes : ℕ
  /-- How often the origin had synchronized when it made the request; the source has no such field. -/
  epoch : ℕ
  deriving DecidableEq

/-- The control messages; a `LOCK_REQ` without a type is the answer to one. -/
inductive Msg (P : Type*)
  | send (req : Sendreq P) (msgLength : ℕ)
  | reply (req : Sendreq P) (msgLength : ℕ)
  | post
  | complete (count : ℕ)
  | lockReq (origin : P) (type : Option LockType)
  | unlockReq (origin : P) (count : ℕ)
  | unlockReply
  deriving DecidableEq

/-- The requests that a process waits for, by the callbacks at their end. -/
inductive Callback (P : Type*)
  | sendCb (req : Sendreq P) (msgLength : ℕ)
  | sendLongCb (req : Sendreq P)
  | recvLongCb (req : Sendreq P)
  | replySendCb (req : Sendreq P) (msgLength : ℕ)
  | replySendLongCb (req : Sendreq P)
  | replyRecvLongCb (req : Sendreq P)
  deriving DecidableEq

/-- A message on its way, or a request of a process. -/
inductive Item (P : Type*)
  | msg (src dst : P) (m : Msg P)
  | cb (dst : P) (c : Callback P)
  deriving DecidableEq

/-- `ompi_osc_pt2pt_module_t`, with the requests that are over on its window and those of its own that are,
each in their order. -/
structure Module (P : Type*) where
  numPendingIn : ℤ
  numPendingOut : ℤ
  numPostMsgs : ℤ
  numCompleteMsgs : ℤ
  pendingSendreqs : List (Sendreq P)
  numPendingSendreqs : P → ℕ
  copyPendingSendreqs : List (Sendreq P)
  copyNumPendingSendreqs : P → ℕ
  lockStatus : Option LockType
  sharedCount : ℤ
  locksPending : List (P × LockType)
  unlocksPending : List P
  lockReceivedAck : ℕ
  window : List (Sendreq P)
  completed : List (Sendreq P)

structure Sizes where
  eagerSize : ℕ
  sendHeader : ℕ
  replyHeader : ℕ

variable {P : Type*} (z : Sizes) (me : P) (m : Module P)

def Module.init : Module P where
  numPendingIn := 0
  numPendingOut := 0
  numPostMsgs := 0
  numCompleteMsgs := 0
  pendingSendreqs := []
  numPendingSendreqs _ := 0
  copyPendingSendreqs := []
  copyNumPendingSendreqs _ := 0
  lockStatus := none
  sharedCount := 0
  locksPending := []
  unlocksPending := []
  lockReceivedAck := 0
  window := []
  completed := []

def enqueueSendreq [DecidableEq P] (req : Sendreq P) : Module P :=
  { m with
    pendingSendreqs := m.pendingSendreqs ++ [req]
    numPendingSendreqs :=
      Function.update m.numPendingSendreqs req.target (m.numPendingSendreqs req.target + 1) }

def flipSendreqs : Module P :=
  { m with
    copyNumPendingSendreqs := m.numPendingSendreqs
    numPendingSendreqs := fun _ => 0
    copyPendingSendreqs := m.copyPendingSendreqs ++ m.pendingSendreqs
    pendingSendreqs := [] }

/-- `hdr_msg_length` of a request: 0 if the data goes by itself, or for a get. -/
def sendMsgLength (req : Sendreq P) : ℕ :=
  if req.type ≠ .get ∧ z.sendHeader + req.ddtLen + req.bytes ≤ z.eagerSize then req.bytes else 0

def sendreqSend (req : Sendreq P) : List (Item P) :=
  let msgLength := sendMsgLength z req
  [.msg me req.target (.send req msgLength), .cb me (.sendCb req msgLength)] ++
    if req.type ≠ .get ∧ msgLength = 0 then [.cb me (.sendLongCb req)] else []

def sendreqDone (req : Sendreq P) : Module P :=
  { m with numPendingOut := m.numPendingOut - 1, completed := m.completed ++ [req] }

def replyreqRecv (req : Sendreq P) (msgLength : ℕ) : Module P × List (Item P) :=
  if 0 < msgLength then (sendreqDone m req, []) else (m, [.cb me (.replyRecvLongCb req)])

def passiveLock (origin : P) (type : LockType) : Module P × List (Item P) :=
  let queued := { m with locksPending := m.locksPending ++ [(origin, type)] }
  let ack := [Item.msg me origin (.lockReq me none)]
  match type with
  | .exclusive =>
    if m.lockStatus = none then ({ m with lockStatus := some .exclusive }, ack) else (queued, [])
  | .shared =>
    if m.lockStatus ≠ some .exclusive then
      ({ m with lockStatus := some .shared, sharedCount := m.sharedCount + 1 }, ack)
    else (queued, [])

/-- The lock is released for the pending unlocks, which are taken from their list. -/
def releaseLock : Module P :=
  if m.lockStatus = some .exclusive then { m with lockStatus := none, unlocksPending := [] }
  else
    let sharedCount := m.sharedCount - m.unlocksPending.length
    { m with
      sharedCount, lockStatus := if sharedCount = 0 then none else m.lockStatus, unlocksPending := [] }

/-- The next lock request is granted, if the lock is free. -/
def grantNext : Module P × List (Item P) :=
  match m.lockStatus, m.locksPending with
  | none, (origin, type) :: locks =>
    ({ m with
      locksPending := locks
      lockStatus := some type
      sharedCount := if type = .shared then m.sharedCount + 1 else m.sharedCount },
      [.msg me origin (.lockReq me none)])
  | _, _ => (m, [])

def passiveUnlockComplete : Module P × List (Item P) :=
  if m.numPendingIn ≠ 0 then (m, [])
  else
    let acks := m.unlocksPending.map fun origin => Item.msg me origin .unlockReply
    let next := grantNext me (releaseLock m)
    (next.1, acks ++ next.2)

def passiveUnlock (origin : P) (count : ℕ) : Module P × List (Item P) :=
  passiveUnlockComplete me { m with
    numPendingIn := m.numPendingIn + count, unlocksPending := m.unlocksPending ++ [origin] }

/-- `inmsg_mark_complete`, after what the request does to the window. -/
def inmsgMarkComplete (req : Sendreq P) : Module P × List (Item P) :=
  let m := { m with window := m.window ++ [req], numPendingIn := m.numPendingIn - 1 }
  if m.numPendingIn = 0 ∧ m.lockStatus ≠ none ∧ m.unlocksPending ≠ [] then passiveUnlockComplete me m
  else (m, [])

def replyMsgLength (req : Sendreq P) : ℕ :=
  if z.replyHeader + req.targetBytes ≤ z.eagerSize then req.targetBytes else 0

def replyreqSend (req : Sendreq P) : List (Item P) :=
  let msgLength := replyMsgLength z req
  [.msg me req.origin (.reply req msgLength), .cb me (.replySendCb req msgLength)] ++
    if msgLength = 0 then [.cb me (.replySendLongCb req)] else []

/-- `ompi_osc_pt2pt_sendreq_recv_put` and `ompi_osc_pt2pt_sendreq_recv_accum`, or the answer to a get. -/
def sendreqRecv (req : Sendreq P) (msgLength : ℕ) : Module P × List (Item P) :=
  if req.type = .get then (m, replyreqSend z me req)
  else if 0 < msgLength then inmsgMarkComplete me m req
  else (m, [.cb me (.recvLongCb req)])

def fragmentCb : Msg P → Module P × List (Item P)
  | .send req msgLength => sendreqRecv z me m req msgLength
  | .reply req msgLength => replyreqRecv me m req msgLength
  | .post => ({ m with numPostMsgs := m.numPostMsgs - 1 }, [])
  | .complete count =>
    ({ m with numCompleteMsgs := m.numCompleteMsgs - 1, numPendingIn := m.numPendingIn + count }, [])
  | .lockReq origin (some type) => passiveLock me m origin type
  | .lockReq _ none => ({ m with lockReceivedAck := m.lockReceivedAck + 1 }, [])
  | .unlockReq origin count => passiveUnlock me m origin count
  | .unlockReply => ({ m with numPendingOut := m.numPendingOut - 1 }, [])

def mpireqCb : Callback P → Module P × List (Item P)
  | .sendCb req msgLength =>
    (if req.type ≠ .get ∧ msgLength ≠ 0 then sendreqDone m req else m, [])
  | .sendLongCb req => (sendreqDone m req, [])
  | .recvLongCb req => inmsgMarkComplete me m req
  | .replySendCb req msgLength => if msgLength ≠ 0 then inmsgMarkComplete me m req else (m, [])
  | .replySendLongCb req => inmsgMarkComplete me m req
  | .replyRecvLongCb req => (sendreqDone m req, [])

namespace Item

def owner : Item P → P
  | .msg _ dst _ => dst
  | .cb dst _ => dst

/-- Two messages between the same processes, which come in their order. -/
def SameWay : Item P → Item P → Prop
  | .msg src dst _, .msg src' dst' _ => src = src' ∧ dst = dst'
  | _, _ => False

def handle (z : Sizes) (m : Module P) : Item P → Module P × List (Item P)
  | .msg _ dst content => fragmentCb z dst m content
  | .cb dst c => mpireqCb dst m c

end Item

/-- The messages and requests of all processes are kept together, in the order they were made in; `made`
are all of them so far. -/
structure World (P : Type*) where
  modules : P → Module P
  net : List (Item P)
  made : List (Item P)

def World.init : World P := ⟨fun _ => .init, [], []⟩

def World.act [DecidableEq P] (w : World P) (p : P) (r : Module P × List (Item P)) : World P where
  modules := Function.update w.modules p r.1
  net := w.net ++ r.2
  made := w.made ++ r.2

/-- An item comes up: a message is the first on its way, a request of a process any that it has. -/
inductive Comes [DecidableEq P] (z : Sizes) (w : World P) : Item P → World P → Prop
  | intro {before after : List (Item P)} {i : Item P} (hnet : w.net = before ++ i :: after)
    (hfirst : ∀ j ∈ before, ¬ j.SameWay i) :
    Comes z w i ({ w with net := before ++ after }.act i.owner (i.handle z (w.modules i.owner)))

end OpenMPI.Osc
