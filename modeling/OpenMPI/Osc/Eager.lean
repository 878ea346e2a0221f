import OpenMPI.Ddt.Args
import OpenMPI.Osc.Pt2pt

/-!
# The buffer of a one-sided request

What `ompi_osc_pt2pt_sendreq_send` writes to a control buffer and sends of it, byte for byte.  A buffer has
as many bytes as every receive for control messages, the eager size.
-/

namespace OpenMPI.Osc.Eager

open Ddt.Args (Datatype packDescriptionLength)

structure Component where
  /-- `p2p_c_eager_size` -/
  eagerSize : ℕ
  eagerSize_lt : eagerSize < 2 ^ 64

/-- The length of the receives that `component_select` and `component_fragment_cb` post. -/
def Component.recvLength (c : Component) : ℕ := c.eagerSize

inductive Status
  | success
  | tempOutOfResource
  | outOfResource
  | fatal
  | other
  deriving DecidableEq

structure Sendreq where
  type : ReqType
  originRank : ℤ
  originBytesPacked : ℕ
  targetDisp : ℤ
  targetCount : ℤ
  targetDatatype : Datatype
  opId : ℤ

structure Header where
  type : ReqType
  origin : ℤ
  originTag : ℤ
  targetDisp : ℤ
  targetCount : ℤ
  /-- Set by an accumulate only. -/
  targetOp : Option ℤ
  msgLength : ℤ

/-- `sizeof(ompi_osc_pt2pt_send_header_t)`: two bytes, padding, an `int32_t`, a pointer and five more
`int32_t`, up to a multiple of 8. -/
def sizeofSendHeader : ℕ := 40

/-- What a call does: the places in the buffer that it writes to, each an offset with a length, the message
with its header, and whether the data is sent by itself. -/
structure Outcome where
  ret : Status
  writes : List (ℕ × ℕ)
  sent : Option (Header × ℕ)
  long : Bool

/-- A `size_t` as `int32_t`. -/
def int32 (n : ℕ) : ℤ := (n : ℤ).bmod (2 ^ 32)

variable (c : Component)

/-- `ompi_osc_pt2pt_sendreq_send`, where there is a buffer or not, `ompi_convertor_pack` succeeds or not, the
next tag is `tag`, and `isend` is what sending the control message returns. -/
def sendreqSend (buffer packs : Bool) (tag : ℤ) (isend : Status) (req : Sendreq) : Outcome :=
  let packedDdtLen := packDescriptionLength req.targetDatatype
  if buffer = false then ⟨.tempOutOfResource, [], none, false⟩
  else if c.eagerSize < sizeofSendHeader then ⟨.outOfResource, [], none, false⟩
  else
    let header : Header :=
      { type := req.type
        origin := req.originRank
        originTag := 0
        targetDisp := req.targetDisp
        targetCount := req.targetCount
        targetOp := if req.type = .acc then some req.opId else none
        msgLength := 0 }
    let writes := [(0, sizeofSendHeader), (sizeofSendHeader, packedDdtLen)]
    let writtenData := (sizeofSendHeader + packedDdtLen) % 2 ^ 64
    if req.type = .get then ⟨isend, writes, some (header, writtenData), false⟩
    else if c.eagerSize ≥ (writtenData + req.originBytesPacked) % 2 ^ 64 then
      let writes := writes ++ [(writtenData, req.originBytesPacked)]
      if packs = false then ⟨.fatal, writes, none, false⟩
      else
        let writtenData := (writtenData + req.originBytesPacked) % 2 ^ 64
        let header := { header with msgLength := int32 req.originBytesPacked }
        ⟨isend, writes, some (header, writtenData), decide (header.msgLength = 0)⟩
    else ⟨isend, writes, some ({ header with originTag := tag }, writtenData), true⟩

/-- Every byte written is in the buffer, and the message fits the receive. -/
def Fits (o : Outcome) : Prop :=
  (∀ w ∈ o.writes, w.1 + w.2 ≤ c.eagerSize) ∧ ∀ m ∈ o.sent, m.2 ≤ c.recvLength

end OpenMPI.Osc.Eager
