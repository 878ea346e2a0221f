import Mathlib.Algebra.Ring.Nat
import OpenMPI.Lib.Tiling

/-!
# How a long message is split

The sender puts some bytes into the rendezvous fragment.  The receiver decides in
`mca_pml_ob1_recv_request_ack` up to which offset it fetches the rest by PUT, and tells the sender
in the ACK to send what is beyond.  All lengths are `size_t`, so the arithmetic here wraps as the
code's does; the operands of each subtraction are kept beside the result.
-/

namespace OpenMPI.Ob1

/-- What the decision reads: the rendezvous header, the receive request, the limits of the
endpoint's BTLs and what looking for registered memory returned. -/
structure Rendezvous where
  hdrMsgLength : UInt64
  flagContig : Bool
  flagPin : Bool
  bytesReceived : UInt64
  needBuffers : Bool
  localSize : UInt64
  rdmaNum : ℕ
  rdmaBtls : ℕ
  rdmaPipelineBtls : ℕ
  btlSendLimit : UInt64
  btlPipelineSendLength : UInt64
  deriving DecidableEq, Repr

namespace Rendezvous

/-- `ompi_convertor_set_position` on a contiguous receive stops at the end of the receive buffer. -/
def setPosition (localSize position : UInt64) : UInt64 :=
  if localSize ≤ position then localSize else position

/-- The branch of the protocol the request takes. -/
inductive Protocol
  | copyInOut
  | putAtOnce
  | pipeline
  deriving DecidableEq, Repr

def protocol (r : Rendezvous) : Protocol :=
  if r.bytesReceived < r.hdrMsgLength ∧ r.needBuffers = false ∧ r.flagContig ∧ r.rdmaNum ≠ 0 then
    if r.flagPin ∧ r.rdmaBtls ≠ 0 then .putAtOnce
    else if r.btlSendLimit < r.hdrMsgLength then .pipeline
    else .copyInOut
  else .copyInOut

/-- The offset the pipeline starts from before the convertor sees it. -/
def pipelineOffset (r : Rendezvous) : UInt64 :=
  let offset := r.hdrMsgLength - r.btlPipelineSendLength
  if offset < r.bytesReceived then r.bytesReceived else offset

def reqSendOffset (r : Rendezvous) : UInt64 :=
  match r.protocol with
  | .copyInOut => r.bytesReceived
  | .putAtOnce => r.hdrMsgLength
  | .pipeline => setPosition r.localSize r.pipelineOffset

def reqRdmaCnt (r : Rendezvous) : ℕ :=
  match r.protocol with
  | .copyInOut => 0
  | .putAtOnce => r.rdmaBtls
  | .pipeline => r.rdmaPipelineBtls

/-- Whether an ACK goes out: not when the rest of the message is fetched by PUT. -/
def ackSent (r : Rendezvous) : Bool :=
  !(r.bytesReceived < r.hdrMsgLength && r.reqSendOffset = r.hdrMsgLength)

def nordma (r : Rendezvous) : Bool := r.reqSendOffset = r.bytesReceived

/-- `bytes_remaining` of `mca_pml_ob1_recv_request_schedule_once`, which runs while
`req_rdma_offset` is below `req_send_offset`. -/
def bytesRemaining (r : Rendezvous) : UInt64 :=
  if r.bytesReceived < r.reqSendOffset then r.reqSendOffset - r.bytesReceived else 0

/-- A whole schedule of PUT requests.  The size of each is what the chosen BTL prepares, and its
offset is where the convertor lets `req_rdma_offset` be. -/
inductive Puts (localSize : UInt64) : UInt64 → UInt64 → List (UInt64 × UInt64) → Prop
  | done (offset : UInt64) : Puts localSize offset 0 []
  | put {offset remaining size : UInt64} {l : List (UInt64 × UInt64)} (hpos : 0 < size)
      (hle : size ≤ remaining)
      (h : Puts localSize (setPosition localSize offset + size) (remaining - size) l) :
      Puts localSize offset remaining ((setPosition localSize offset, size) :: l)

/-- The schedules of the request: it starts at `req_rdma_offset = bytes_received`. -/
def Scheduled (r : Rendezvous) (puts : List (UInt64 × UInt64)) : Prop :=
  Puts r.localSize r.bytesReceived r.bytesRemaining puts

/-- The range `mca_pml_ob1_send_request_copy_in_out` queues when the ACK arrives. -/
def fragRange (r : Rendezvous) : List (UInt64 × UInt64) :=
  if r.ackSent then
    let sendLength := r.hdrMsgLength - r.reqSendOffset
    if sendLength = 0 then [] else [(r.reqSendOffset, sendLength)]
  else []

/-- The operands of every subtraction on the way. -/
def subtractions (r : Rendezvous) : List (UInt64 × UInt64) :=
  (if r.protocol = .pipeline then
    [(r.hdrMsgLength, r.btlPipelineSendLength), (r.reqSendOffset, r.bytesReceived)] else [])
  ++ (if r.bytesReceived < r.reqSendOffset then [(r.reqSendOffset, r.bytesReceived)] else [])
  ++ (if r.ackSent then [(r.hdrMsgLength, r.reqSendOffset)] else [])

/-- The ranges of the message that travel eagerly, by PUT and by FRAG. -/
def ranges (r : Rendezvous) (puts : List (UInt64 × UInt64)) : List (ℕ × ℕ) :=
  ((0, r.bytesReceived) :: puts ++ r.fragRange).map fun s => (s.1.toNat, s.2.toNat)

/-- What a sender puts into a rendezvous header: no more bytes than the message has, and none with
the PIN flag. -/
structure Sent (r : Rendezvous) : Prop where
  eager : r.bytesReceived ≤ r.hdrMsgLength
  pin : r.flagPin = true → r.bytesReceived = 0

/-- The message is split into disjoint ranges that make it up, whatever the schedule of the PUTs,
the offset acknowledged is within it and no subtraction underflows. -/
structure Splits (r : Rendezvous) : Prop where
  partitions : ∀ puts, r.Scheduled puts → Lib.Partitions r.hdrMsgLength.toNat (r.ranges puts)
  offset_le : r.reqSendOffset ≤ r.hdrMsgLength
  no_underflow : ∀ s ∈ r.subtractions, s.2 ≤ s.1

/-- When the receive is long enough for the branch taken: in the pipeline for the bytes already
received, with a send length within the message; in put-at-once for every offset a PUT may start
at. -/
def LongEnough (r : Rendezvous) : Prop :=
  match r.protocol with
  | .copyInOut => True
  | .putAtOnce => r.hdrMsgLength.toNat ≤ r.localSize.toNat + 1
  | .pipeline => r.btlPipelineSendLength ≤ r.hdrMsgLength ∧ r.bytesReceived ≤ r.localSize

end Rendezvous

end OpenMPI.Ob1
