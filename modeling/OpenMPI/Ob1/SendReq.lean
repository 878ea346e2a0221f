import OpenMPI.Lib.Pool

/-!
# Completion of a rendezvous send

A rendezvous send is completed by whichever callback finds, after its own update, that no event is
left: the local completion of the rendezvous, the ACK, the completion of a PUT or of a fragment, or
the scheduler when it gives the request's lock back.  Each access of a callback to the request that
another thread can see is one action here.  An event that has not been handled yet is the first
action of its handler.
-/

namespace OpenMPI.Ob1

/-- What the callbacks work on.  `reqRecv` tells whether `req_recv.pval` is set, a range is its
offset and length, and `pmlCompletions` counts the calls of `send_request_pml_complete`, which no
callback reads. -/
structure SendRequest where
  reqState : ℤ
  reqLock : ℤ := 0
  reqThrottleSends : Bool
  reqPipelineDepth : UInt64 := 0
  reqBytesDelivered : ℕ := 0
  reqRecv : Bool
  reqSendRanges : List (ℕ × ℕ) := []
  pmlCompletions : ℕ := 0
  deriving DecidableEq, Repr

/-- What the receiver answers: an ACK, with the PUTs of the pipeline, or PUTs alone, the first of
which has the ACK flag.  A PUT is its offset and length. -/
inductive Reply
  | ack (sendOffset : ℕ) (nordma : Bool) (puts : List (ℕ × ℕ))
  | put (first : ℕ × ℕ) (puts : List (ℕ × ℕ))

namespace Reply

def ackSent : Reply → Bool
  | ack .. => true
  | put .. => false

def sendOffset : Reply → ℕ
  | ack sendOffset .. => sendOffset
  | put .. => 0

def bytes (packed : ℕ) : Reply → ℕ
  | ack sendOffset _ puts => (packed - sendOffset) + (puts.map Prod.snd).sum
  | put first puts => first.2 + (puts.map Prod.snd).sum

end Reply

/-- One transfer: what is sent, what the receiver answers, the parameters of the component, how
many BTLs a range is spread over, and what an earlier use left in the request. -/
structure Transfer where
  reqBytesPacked : ℕ
  eager : ℕ
  reply : Reply
  sendPipelineDepth : UInt64
  rdmaPutRetriesLimit : ℕ
  rangeBtlCnt : ℕ
  reqRecv : Bool
  reqThrottleSends : Bool
  offset_le : reply.sendOffset ≤ reqBytesPacked
  covers : reqBytesPacked ≤ eager + reply.bytes reqBytesPacked

/-- The next action of a thread, or an event that waits for its handler. -/
inductive SendTask
  -- mca_pml_ob1_rndv_completion
  | rndvCompletion (size : ℕ)
  | rndvState
  -- mca_pml_ob1_frag_completion
  | fragCompletion (size : ℕ)
  | fragDelivered (size : ℕ)
  -- mca_pml_ob1_put_completion
  | putCompletion (size : ℕ)
  -- mca_pml_ob1_recv_frag_callback_ack
  | ack (sendOffset : ℕ) (nordma : Bool)
  | ackThrottle (sendOffset : ℕ) (nordma : Bool)
  | ackCopyInOut (sendOffset : ℕ)
  | ackState
  | ackDecrement
  -- mca_pml_ob1_send_request_put and mca_pml_ob1_send_request_put_frag
  | put (flagAck : Bool) (offset length : ℕ)
  | putFrag (offset length retries : ℕ)
  | rdmaPending (offset length retries : ℕ)
  | putCopyInOut (offset length : ℕ)
  | scheduleIfRecv
  -- send_request_pml_complete_check, which may be followed by a call of the scheduler
  | checkState (orSchedule : Bool)
  | checkDelivered (orSchedule : Bool)
  | checkLock (orSchedule : Bool)
  | pmlComplete
  -- mca_pml_ob1_send_request_schedule and mca_pml_ob1_send_request_schedule_once
  | schedule
  | scheduleOnce
  | getSendRange
  | scheduleLoop (range : Bool) (prevBytesRemaining numFail : ℕ)
  | send (prevBytesRemaining numFail : ℕ)
  | sent (size prevBytesRemaining numFail : ℕ)
  | nextSendRange (numFail : ℕ)
  | unlock
  | sendPending
  deriving DecidableEq, Repr

/-- What a BTL answers: it has no descriptor, it has no room to send one, or it takes so many
bytes. -/
inductive Btl
  | noDescriptor
  | outOfResource
  | takes (size : ℕ)
  deriving DecidableEq, Repr

namespace SendRequest

/-- `mca_pml_ob1_send_request_copy_in_out`, which queues nothing for no bytes. -/
def copyInOut (r : SendRequest) (offset length : ℕ) : SendRequest :=
  { r with
    reqSendRanges :=
      if length = 0 then r.reqSendRanges else r.reqSendRanges ++ [(offset, length)] }

def rangeSendLength (r : SendRequest) : ℕ :=
  match r.reqSendRanges with
  | [] => 0
  | range :: _ => range.2

def advanceRange (r : SendRequest) (size : ℕ) : SendRequest :=
  { r with
    reqSendRanges :=
      match r.reqSendRanges with
      | [] => []
      | range :: rest => (range.1 + size, range.2 - size) :: rest }

def dropRange (r : SendRequest) : SendRequest := { r with reqSendRanges := r.reqSendRanges.tail }

/-- The scheduler may send: it is not throttled, or few enough fragments are under way. -/
def maySend (t : Transfer) (r : SendRequest) : Bool :=
  !r.reqThrottleSends || r.reqPipelineDepth < t.sendPipelineDepth

end SendRequest

def SendTask.unlessComplete (orSchedule : Bool) : List SendTask :=
  if orSchedule then [schedule] else []

open SendTask in
/-- One action: the request afterwards and what is left to do.  None is an answer a BTL does not
give. -/
def exec (t : Transfer) (btl : Btl) (task : SendTask) (r : SendRequest) :
    Option (SendRequest × List SendTask) :=
  match task with
  | rndvCompletion size =>
    some ({ r with reqBytesDelivered := r.reqBytesDelivered + size }, [rndvState])
  | rndvState => some ({ r with reqState := r.reqState - 1 }, [checkState false])
  | fragCompletion size =>
    some ({ r with reqPipelineDepth := r.reqPipelineDepth - 1 }, [fragDelivered size])
  | fragDelivered size =>
    some ({ r with reqBytesDelivered := r.reqBytesDelivered + size }, [checkState true])
  | putCompletion size =>
    some ({ r with reqBytesDelivered := r.reqBytesDelivered + size }, [checkState false])
  | .ack sendOffset nordma => some ({ r with reqRecv := true }, [ackThrottle sendOffset nordma])
  | ackThrottle sendOffset nordma =>
    some ({ r with reqThrottleSends := r.reqThrottleSends || nordma }, [ackCopyInOut sendOffset])
  | ackCopyInOut sendOffset =>
    some (r.copyInOut sendOffset (t.reqBytesPacked - sendOffset), [ackState])
  | ackState => some (r, [if r.reqState ≠ 0 then ackDecrement else checkState true])
  | ackDecrement => some ({ r with reqState := r.reqState - 1 }, [checkState true])
  | put flagAck offset length =>
    some (if flagAck then { r with reqState := r.reqState - 1 } else r, [putFrag offset length 0])
  | putFrag offset length retries =>
    match btl with
    | .noDescriptor =>
      if retries < t.rdmaPutRetriesLimit then some (r, [rdmaPending offset length retries])
      else some (r, [putCopyInOut offset length])
    | .outOfResource => some (r, [rdmaPending offset length retries])
    | .takes _ => some (r, [putCompletion length])
  | rdmaPending offset length retries => some (r, [putFrag offset length (retries + 1)])
  | putCopyInOut offset length => some (r.copyInOut offset length, [scheduleIfRecv])
  | scheduleIfRecv => some (r, if r.reqRecv then [schedule] else [])
  | checkState orSchedule =>
    some (r, if r.reqState = 0 then [checkDelivered orSchedule] else unlessComplete orSchedule)
  | checkDelivered orSchedule =>
    some (r, if t.reqBytesPacked ≤ r.reqBytesDelivered then [checkLock orSchedule]
      else unlessComplete orSchedule)
  | checkLock orSchedule =>
    some ({ r with reqLock := r.reqLock + 1 },
      if r.reqLock + 1 = 1 then [pmlComplete] else unlessComplete orSchedule)
  | pmlComplete => some ({ r with pmlCompletions := r.pmlCompletions + 1 }, [])
  | schedule =>
    some ({ r with reqLock := r.reqLock + 1 }, if r.reqLock + 1 = 1 then [scheduleOnce] else [])
  | scheduleOnce => some (r, [if r.maySend t then getSendRange else unlock])
  | getSendRange => some (r, [scheduleLoop (!r.reqSendRanges.isEmpty) 0 0])
  | scheduleLoop range prevBytesRemaining numFail =>
    if range && r.maySend t then
      let numFail' := if prevBytesRemaining = r.rangeSendLength then numFail + 1 else 0
      -- the request stays locked on the pending list
      if numFail' = t.rangeBtlCnt then some (r, [sendPending])
      else some (r, [send r.rangeSendLength numFail'])
    else some (r, [unlock])
  | send prevBytesRemaining numFail =>
    match btl with
    | .takes size =>
      -- any part of the range, as the BTL's share and its largest fragment have it
      if 0 < size ∧ size ≤ r.rangeSendLength then
        some (r, [fragCompletion size, sent size prevBytesRemaining numFail])
      else none
    | _ => some (r, [scheduleLoop true prevBytesRemaining numFail])
  | sent size prevBytesRemaining numFail =>
    some ({ r.advanceRange size with reqPipelineDepth := r.reqPipelineDepth + 1 },
      [if r.rangeSendLength - size = 0 then nextSendRange numFail
        else scheduleLoop true prevBytesRemaining numFail])
  | nextSendRange numFail =>
    some (r.dropRange, [scheduleLoop (!r.dropRange.reqSendRanges.isEmpty) 0 numFail])
  | unlock =>
    some ({ r with reqLock := r.reqLock - 1 },
      [if r.reqLock - 1 = 0 then checkState false else scheduleOnce])
  | sendPending => some (r, [scheduleOnce])

def Reply.tasks : Reply → List SendTask
  | .ack sendOffset nordma puts =>
    .ack sendOffset nordma :: puts.map fun put => .put false put.1 put.2
  | .put first puts =>
    .put true first.1 first.2 :: puts.map fun put => .put false put.1 put.2

namespace Transfer

/-- The request waits for the ACK and for the completion of the rendezvous. -/
def start (t : Transfer) : Lib.Pool SendRequest SendTask where
  shared :=
    { reqState := 2, reqRecv := t.reqRecv, reqThrottleSends := t.reqThrottleSends }
  tasks := .rndvCompletion t.eager :: t.reply.tasks

def system (t : Transfer) : Lib.System (Lib.Pool SendRequest SendTask) (ℕ × Btl) :=
  Lib.Pool.system (exec t) fun p => p = t.start

/-- The request is completed at most once, with its counters where they belong; when nothing is
left to do it is completed, and until then something can be done. -/
structure CompletesOnce (t : Transfer) (p : Lib.Pool SendRequest SendTask) : Prop where
  at_most_once : p.shared.pmlCompletions ≤ 1
  only_after : p.shared.pmlCompletions ≠ 0 →
    p.shared.reqState = 0 ∧ t.reqBytesPacked ≤ p.shared.reqBytesDelivered
  not_stuck : p.tasks = [] → p.shared.pmlCompletions = 1
  progress : p.tasks ≠ [] → ∃ e p', t.system.step p e p'

/-- A PUT that gives up falls back on fragments only when the receiver's request is known or its
ACK is on the way, and sends are throttled only to a positive depth. -/
def Meets (t : Transfer) (p : Lib.Pool SendRequest SendTask) (e : ℕ × Btl) : Prop :=
  (∀ offset length, p.tasks[e.1]? = some (.putCopyInOut offset length) →
    p.shared.reqRecv ∨ t.reply.ackSent) ∧
  (p.shared.reqThrottleSends → t.sendPipelineDepth ≠ 0)

end Transfer

end OpenMPI.Ob1
