import OpenMPI.Lib.Pool
import OpenMPI.Ob1.Match
import OpenMPI.Ob1.Rndv

/-!
# Completion and cancellation of a receive

A receive is completed by whichever callback finds that all the bytes of its message are there, and at
the MPI level also by `mca_pml_ob1_recv_request_cancel`.  Each access to the request that another
thread can see is one action here, and what is done behind the matching lock or the request lock is
one action too.  The events of the message, and what the user calls, are the first actions of their
handlers.
-/

namespace OpenMPI.Ob1

/-- `mca_pml_ob1_recv_request_t`, from its start on.  `posted` is whether it is in a list of posted
receives.  No callback reads whether a message was `matched` to it, the bytes that were written into
the user's buffer and how often it was completed in the PML and at the MPI level. -/
structure RecvReq where
  posted : Bool := true
  mpiTag : ℤ := anyTag
  cancelled : Bool := false
  statusCount : ℕ := 0
  truncated : Bool := false
  reqComplete : Bool := false
  reqPmlComplete : Bool := false
  reqFreeCalled : Bool := false
  reqMatchReceived : Bool
  reqLock : ℤ := 0
  reqPipelineDepth : UInt64 := 0
  reqBytesPacked : ℕ := 0
  reqBytesReceived : ℕ := 0
  reqBytesDelivered : ℕ
  reqRdmaOffset : ℕ
  reqSendOffset : ℕ
  reqRdmaCnt : ℕ
  reqAckSent : Bool := false
  matched : Bool := false
  userBytes : ℕ := 0
  pmlCompletions : ℕ := 0
  mpiCompletions : ℕ := 0
  deriving DecidableEq, Repr

/-- The fragment that a receive matches. -/
inductive Message
  | eager (tag : ℤ) (bytes : ℕ)
  | rndv (tag : ℤ) (hdr : Rendezvous)
  | rget (tag : ℤ) (hdr : Rendezvous)
  deriving DecidableEq, Repr

namespace Message

def tag : Message → ℤ
  | eager tag _ | rndv tag _ | rget tag _ => tag

def packed : Message → ℕ
  | eager _ bytes => bytes
  | rndv _ hdr | rget _ hdr => hdr.hdrMsgLength.toNat

def rdmaOffset : Message → Option ℕ
  | rndv _ hdr => some hdr.bytesReceived.toNat
  | _ => none

def isEager : Message → Bool
  | eager .. => true
  | _ => false

end Message

/-- The next action of a thread, or an event that waits for its handler. -/
inductive RecvTask
  -- a message arrives, or is found among the unexpected ones
  | arrive (m : Message)
  -- the start of mca_pml_ob1_recv_request_progress_match, _rndv and _rget, with recv_req_matched
  | progress (m : Message)
  | matchedTag (m : Message)
  | matchReceived (m : Message)
  -- the rest of mca_pml_ob1_recv_request_progress_match
  | eagerUnpack (bytes : ℕ)
  | eagerReceived (bytes : ℕ)
  | eagerComplete
  -- mca_pml_ob1_recv_request_ack
  | requestAck (hdr : Rendezvous) (bytes : Option ℕ)
  -- the rest of mca_pml_ob1_recv_request_progress_rndv, mca_pml_ob1_recv_request_progress_frag
  | unpack (bytes : ℕ)
  | addReceived (bytes : ℕ) (orSchedule : Bool)
  -- mca_pml_ob1_recv_request_get_frag and mca_pml_ob1_rget_completion
  | getFrag (bytes : ℕ)
  | rgetCompletion (bytes : ℕ)
  -- mca_pml_ob1_put_completion
  | putCompletion (bytes : ℕ)
  -- recv_request_pml_complete_check, which may be followed by a call of the scheduler
  | checkReceived (orSchedule : Bool)
  | checkLock (orSchedule : Bool)
  | pmlComplete
  | testOffset
  -- mca_pml_ob1_recv_request_schedule and mca_pml_ob1_recv_request_schedule_once
  | schedule
  | scheduleOnce
  | scheduleLoop (bytesRemaining prevBytesRemaining numFail : ℕ)
  | sendPut (bytesRemaining prevBytesRemaining numFail : ℕ)
  | putSent (size bytesRemaining prevBytesRemaining numFail : ℕ)
  | unlock
  | recvPending
  -- mca_pml_ob1_recv_request_cancel
  | cancel
  | cancelMatch
  | cancelComplete
  -- mca_pml_ob1_recv_request_free
  | free
  deriving DecidableEq, Repr

/-- What a BTL or the sender answers: there is no descriptor or no room to send one; what is asked for
comes, by one PUT or GET or in fragments. -/
inductive Peer
  | noDescriptor
  | outOfResource
  | fin (size : ℕ)
  | frags (size : ℕ) (fragments : List ℕ)
  deriving DecidableEq, Repr

def Peer.fragments : Peer → List ℕ
  | frags _ fragments => fragments
  | _ => []

namespace RecvReq

def mpiComplete (r : RecvReq) : RecvReq :=
  { r with reqComplete := true, mpiCompletions := r.mpiCompletions + 1 }

def recvPmlComplete (r : RecvReq) : RecvReq :=
  let r := { r with pmlCompletions := r.pmlCompletions + 1 }
  if r.reqFreeCalled then r
  else
    mpiComplete { r with
      reqPmlComplete := true
      statusCount := if r.reqBytesPacked > r.reqBytesDelivered then r.reqBytesPacked
        else r.reqBytesReceived
      truncated := r.truncated || decide (r.reqBytesPacked > r.reqBytesDelivered) }

end RecvReq

def RecvTask.afterMatch : Message → RecvTask
  | .eager _ bytes => eagerUnpack bytes
  | .rndv _ hdr => requestAck hdr (some hdr.bytesReceived.toNat)
  | .rget _ hdr =>
    if hdr.needBuffers then requestAck { hdr with bytesReceived := 0 } none
    else getFrag hdr.hdrMsgLength.toNat

def RecvTask.unlessComplete (orSchedule : Bool) : List RecvTask :=
  if orSchedule then [testOffset] else []

open RecvTask in
/-- One action: the request afterwards and what is left to do.  None is an answer that is not given, or
the removal from a list of a request that is not there. -/
def recvExec (recvPipelineDepth : UInt64) (peer : Peer) (task : RecvTask) (r : RecvReq) :
    Option (RecvReq × List RecvTask) :=
  match task with
  | arrive m =>
    if r.posted then some ({ r with posted := false, matched := true }, [progress m])
    -- another request has it
    else some (r, [])
  | progress m =>
    some ({ r with
      reqBytesPacked := m.packed
      reqRdmaOffset := m.rdmaOffset.getD r.reqRdmaOffset }, [matchedTag m])
  | matchedTag m => some ({ r with mpiTag := m.tag }, [matchReceived m])
  | matchReceived m => some ({ r with reqMatchReceived := true }, [afterMatch m])
  | eagerUnpack bytes => some ({ r with userBytes := r.userBytes + bytes }, [eagerReceived bytes])
  | eagerReceived bytes =>
    some ({ r with reqBytesReceived := r.reqBytesReceived + bytes }, [eagerComplete])
  | eagerComplete => some (r.recvPmlComplete, [])
  | requestAck hdr bytes =>
    some ({ r with
      reqSendOffset := hdr.reqSendOffset.toNat
      reqRdmaCnt := hdr.reqRdmaCnt
      reqAckSent := r.reqAckSent || hdr.ackSent },
      (bytes.map fun bytes => if 0 < bytes then unpack bytes else addReceived 0 true).toList ++
        if hdr.ackSent then peer.fragments.map unpack else [])
  | unpack bytes => some ({ r with userBytes := r.userBytes + bytes }, [addReceived bytes true])
  | addReceived bytes orSchedule =>
    some ({ r with reqBytesReceived := r.reqBytesReceived + bytes }, [checkReceived orSchedule])
  | getFrag bytes =>
    some (r, [match peer with
      | .fin size => rgetCompletion size
      -- it is tried again
      | _ => getFrag bytes])
  | rgetCompletion bytes =>
    some ({ r with userBytes := r.userBytes + bytes }, [addReceived bytes false])
  | putCompletion bytes =>
    some ({ r with
      reqPipelineDepth := r.reqPipelineDepth - 1
      userBytes := r.userBytes + bytes }, [addReceived bytes true])
  | checkReceived orSchedule =>
    some (r, if r.reqMatchReceived ∧ r.reqBytesPacked ≤ r.reqBytesReceived then [checkLock orSchedule]
      else unlessComplete orSchedule)
  | checkLock orSchedule =>
    some ({ r with reqLock := r.reqLock + 1 },
      if r.reqLock + 1 = 1 then [pmlComplete] else unlessComplete orSchedule)
  | pmlComplete => some (r.recvPmlComplete, [])
  | testOffset => some (r, if r.reqRdmaOffset < r.reqSendOffset then [schedule] else [])
  | schedule =>
    some ({ r with reqLock := r.reqLock + 1 }, if r.reqLock + 1 = 1 then [scheduleOnce] else [])
  | scheduleOnce => some (r, [scheduleLoop (r.reqSendOffset - r.reqRdmaOffset) 0 0])
  | scheduleLoop bytesRemaining prevBytesRemaining numFail =>
    some (r, [
      if 0 < bytesRemaining ∧ r.reqPipelineDepth < recvPipelineDepth then
        if prevBytesRemaining = bytesRemaining then
          -- the request stays locked on the pending list
          if numFail + 1 = r.reqRdmaCnt then recvPending
          else sendPut bytesRemaining prevBytesRemaining (numFail + 1)
        else sendPut bytesRemaining bytesRemaining 0
      else unlock])
  | sendPut bytesRemaining prevBytesRemaining numFail =>
    match peer with
    | .noDescriptor => some (r, [scheduleLoop bytesRemaining prevBytesRemaining numFail])
    | .outOfResource =>
      some ({ r with reqAckSent := true }, [scheduleLoop bytesRemaining prevBytesRemaining numFail])
    | .fin size =>
      if 0 < size ∧ size ≤ bytesRemaining then
        some ({ r with reqAckSent := true },
          [putSent size bytesRemaining prevBytesRemaining numFail, putCompletion size])
      else none
    -- the sender gives the PUT up
    | .frags size fragments =>
      if 0 < size ∧ size ≤ bytesRemaining then
        some ({ r with reqAckSent := true },
          putSent size bytesRemaining prevBytesRemaining numFail :: fragments.map unpack)
      else none
  | putSent size bytesRemaining prevBytesRemaining numFail =>
    some ({ r with
      reqRdmaOffset := r.reqRdmaOffset + size
      reqPipelineDepth := r.reqPipelineDepth + 1 },
      [scheduleLoop (bytesRemaining - size) prevBytesRemaining numFail])
  | unlock =>
    some ({ r with reqLock := r.reqLock - 1 },
      [if r.reqLock - 1 = 0 then checkReceived false else scheduleOnce])
  | recvPending => some (r, [scheduleOnce])
  | cancel => some (r, if r.reqComplete then [] else [cancelMatch])
  | cancelMatch =>
    if r.mpiTag = anyTag then
      if r.posted then some ({ r with posted := false, reqPmlComplete := true }, [cancelComplete])
      else none
    else some (r, [cancelComplete])
  | cancelComplete => some (({ r with cancelled := true }).mpiComplete, [])
  | free => some ({ r with reqFreeCalled := true }, [])

/-- One receive: its message, if one comes, how often it is cancelled and whether it is freed, and what
is in the request from an earlier use. -/
structure Receive where
  message : Option Message
  cancels : ℕ
  frees : Bool
  recvPipelineDepth : UInt64
  localSize : ℕ
  reqMatchReceived : Bool
  reqRdmaOffset : ℕ
  reqSendOffset : ℕ
  reqRdmaCnt : ℕ
  -- a message without bytes is sent eagerly
  rget_pos : ∀ tag hdr, message = some (.rget tag hdr) → 0 < hdr.hdrMsgLength

namespace Receive

def start (c : Receive) : Lib.Pool RecvReq RecvTask where
  shared :=
    { reqMatchReceived := c.reqMatchReceived
      reqBytesDelivered := c.localSize
      reqRdmaOffset := c.reqRdmaOffset
      reqSendOffset := c.reqSendOffset
      reqRdmaCnt := c.reqRdmaCnt }
  tasks := (c.message.map .arrive).toList ++ List.replicate c.cancels .cancel ++
    if c.frees then [.free] else []

def system (c : Receive) : Lib.System (Lib.Pool RecvReq RecvTask) (ℕ × Peer) :=
  Lib.Pool.system (recvExec c.recvPipelineDepth) fun p => p = c.start

/-- A request with a message is not cancelled, one that is cancelled gets no data, and none is
completed twice; when nothing is left to do, one that was cancelled or has its message is completed. -/
structure Safe (p : Lib.Pool RecvReq RecvTask) : Prop where
  not_matched : p.shared.cancelled = true → p.shared.matched = false
  no_data : p.shared.cancelled = true → p.shared.userBytes = 0
  at_most_once : p.shared.mpiCompletions ≤ 1
  completed : p.tasks = [] → p.shared.posted = false →
    (p.shared.matched = true → p.shared.reqBytesPacked ≤ p.shared.reqBytesReceived) →
    p.shared.mpiCompletions = 1

/-- The request is cancelled as long as it is among the posted ones, or was completed before, and it is
not freed before it is completed. -/
def Meets (p : Lib.Pool RecvReq RecvTask) (e : ℕ × Peer) : Prop :=
  (p.tasks[e.1]? = some .cancelMatch → p.shared.posted = true) ∧
  (p.tasks[e.1]? = some .free → p.shared.reqComplete = true)

end Receive

end OpenMPI.Ob1
