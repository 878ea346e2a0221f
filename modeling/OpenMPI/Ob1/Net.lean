import Mathlib.Algebra.Ring.Nat
import OpenMPI.Lib.Run
import OpenMPI.Ob1.Match

/-!
# Peers sending to one process

Peers number their messages with a counter kept for the destination, and the network hands the
messages over in any order.  The state also keeps what was sent, what arrived and what the handlers
reported, which no handler reads; a message in flight is tagged with its position among those its
peer sent.
-/

namespace OpenMPI.Ob1

variable {ρ δ : Type*}

/-- `send_sequence` is incremented, and the low half of the result goes into the header. -/
def sendRequestStart (proc : CommProc ρ δ) : CommProc ρ δ × UInt16 :=
  let sequence := proc.sendSequence + 1
  ({ proc with sendSequence := sequence }, sequence.toUInt16)

def Event.searched : Event ρ δ → Option (RecvFrag δ)
  | .searchPosted frag => some frag
  | _ => none

def Event.pair : Event ρ δ → Option (RecvRequest ρ × RecvFrag δ)
  | .matched req frag => some (req, frag)
  | _ => none

/-- The fragments offered to the posted receives, in order. -/
def searched (log : List (Event ρ δ)) : List (RecvFrag δ) := log.filterMap Event.searched

def pairs (log : List (Event ρ δ)) : List (RecvRequest ρ × RecvFrag δ) := log.filterMap Event.pair

def matchedFrags (log : List (Event ρ δ)) : List (RecvFrag δ) := (pairs log).map Prod.snd

def fromPeer (p : ℕ) (frags : List (RecvFrag δ)) : List (RecvFrag δ) :=
  frags.filter fun frag => frag.hdr.hdrSrc = p

structure Net (ρ δ : Type*) where
  comm : Comm ρ δ
  senders : ℕ → CommProc ρ δ := fun _ => {}
  inFlight : ℕ → List (ℕ × RecvFrag δ) := fun _ => []
  sent : ℕ → List (RecvFrag δ) := fun _ => []
  arrived : ℕ → List (RecvFrag δ) := fun _ => []
  log : List (Event ρ δ) := []

inductive Action (ρ δ : Type*)
  | send (p : ℕ) (hdrType : HdrType) (tag : ℤ) (segments : δ)
  | arrive (p k : ℕ) (frag : RecvFrag δ)
  | post (req : RecvRequest ρ)

namespace Net

def offered (net : Net ρ δ) (p : ℕ) : List (RecvFrag δ) := fromPeer p (searched net.log)

def matched (net : Net ρ δ) (p : ℕ) : List (RecvFrag δ) := fromPeer p (matchedFrags net.log)

def send (ctx : UInt16) (net : Net ρ δ) (p : ℕ) (hdrType : HdrType) (tag : ℤ) (segments : δ) :
    Net ρ δ :=
  let r := sendRequestStart (net.senders p)
  let frag : RecvFrag δ := ⟨⟨hdrType, ctx, p, tag, r.2⟩, segments⟩
  { net with
    senders := Function.update net.senders p r.1
    sent := Function.update net.sent p (net.sent p ++ [frag])
    inFlight := Function.update net.inFlight p
      (net.inFlight p ++ [((net.sent p).length, frag)]) }

def arrive [DecidableEq δ] (net : Net ρ δ) (p k : ℕ) (frag : RecvFrag δ) : Net ρ δ :=
  let r := recvFragCallback net.comm frag
  { net with
    comm := r.1
    inFlight := Function.update net.inFlight p ((net.inFlight p).erase (k, frag))
    arrived := Function.update net.arrived p (net.arrived p ++ [frag])
    log := net.log ++ r.2 }

def post (net : Net ρ δ) (req : RecvRequest ρ) : Net ρ δ :=
  let r := recvReqStart net.comm req
  { net with comm := r.1, log := net.log ++ r.2 }

/-- A peer of the communicator sends; a message in flight arrives while fewer than `2 ^ 16` of its
peer's are outstanding beyond the expected one; a receive or a probe is posted for a rank of the
communicator or any. -/
def step [DecidableEq δ] (ctx : UInt16) (net : Net ρ δ) : Action ρ δ → Net ρ δ → Prop
  | .send p hdrType tag segments, net' =>
    p < net.comm.numProcs ∧ net' = net.send ctx p hdrType tag segments
  | .arrive p k frag, net' =>
    (k, frag) ∈ net.inFlight p ∧ k < (net.offered p).length + 2 ^ 16 ∧ net' = net.arrive p k frag
  | .post req, net' =>
    (req.reqPeer = anySource ∨ 0 ≤ req.reqPeer ∧ req.reqPeer.toNat < net.comm.numProcs) ∧
      net' = net.post req

def system [DecidableEq δ] (n : ℕ) (ctx : UInt16) : Lib.System (Net ρ δ) (Action ρ δ) where
  init net := net = { comm := .initSize n }
  step := step ctx

end Net

end OpenMPI.Ob1

/-!
## Communicators and early messages

A message may arrive for a communicator that this process has not created yet.  It waits on one
list for all of them, and `mca_pml_ob1_add_comm` moves the messages of the new communicator to its
peers.  It does not call the matching code for that, but checks the sequence numbers and drains the
out-of-order list itself.
-/

namespace OpenMPI.Ob1

variable {ρ δ : Type*}

/-- A communicator is looked up by its context id. -/
structure Pml (ρ δ : Type*) where
  communicators : ℕ → Option (Comm ρ δ) := fun _ => none
  nonExistingCommunicatorPending : List (RecvFrag δ) := []
  pmlMaxContextid : ℕ := 65535

namespace Pml

def recvFrag (pml : Pml ρ δ) (frag : RecvFrag δ) : Pml ρ δ :=
  match pml.communicators frag.hdr.hdrCtx.toNat with
  | none =>
    { pml with
      nonExistingCommunicatorPending := pml.nonExistingCommunicatorPending ++ [frag] }
  | some comm =>
    { pml with
      communicators := Function.update pml.communicators frag.hdr.hdrCtx.toNat
        (some (recvFragCallback comm frag).1) }

def recvFrags (pml : Pml ρ δ) (frags : List (RecvFrag δ)) : Pml ρ δ := frags.foldl recvFrag pml

/-- The messages a new communicator takes, in their order. -/
def forContext (ctx : ℕ) (frags : List (RecvFrag δ)) : List (RecvFrag δ) :=
  frags.filter fun frag => frag.hdr.hdrCtx.toNat = ctx

def forOthers (ctx : ℕ) (frags : List (RecvFrag δ)) : List (RecvFrag δ) :=
  frags.filter fun frag => frag.hdr.hdrCtx.toNat ≠ ctx

/-- What arrivals at an existing communicator make of it. -/
def arrivals (comm : Comm ρ δ) (frags : List (RecvFrag δ)) : Comm ρ δ :=
  frags.foldl (fun comm frag => (recvFragCallback comm frag).1) comm

/-- From `add_fragment_to_unexpected` on, for a fragment in sequence.  The fragments on `p`'s
out-of-order list are `p`'s, so going back to the label stays with `p`. -/
def addFragmentToUnexpected (comm : Comm ρ δ) (p : ℕ) (frag : RecvFrag δ) : Comm ρ δ :=
  let comm' := (comm.setProc p (comm.procs p).expectNext).appendUnexpected p frag
  match _h : checkCantmatchForMatch (comm'.procs p) with
  | none => comm'
  | some (frag', proc') => addFragmentToUnexpected (comm'.setProc p proc') p frag'
termination_by (comm.procs p).fragsCantMatch.length
decreasing_by
  have := checkCantmatchForMatch_length _h
  simpa [comm', CommProc.expectNext] using this

def addFragment (comm : Comm ρ δ) (frag : RecvFrag δ) : Comm ρ δ :=
  let p := frag.hdr.hdrSrc
  if frag.hdr.hdrSeq = (comm.procs p).expectedSequence then
    addFragmentToUnexpected comm p frag
  else
    comm.appendCantMatch p frag

/-- The walk over the pending list: what is not for the new communicator stays. -/
def grabPending (ctx : ℕ) (comm : Comm ρ δ) : List (RecvFrag δ) → Comm ρ δ × List (RecvFrag δ)
  | [] => (comm, [])
  | frag :: rest =>
    if frag.hdr.hdrCtx.toNat ≠ ctx then
      let r := grabPending ctx comm rest
      (r.1, frag :: r.2)
    else
      grabPending ctx (addFragment comm frag) rest

/-- `mca_pml_ob1_add_comm`; none is `OMPI_ERR_OUT_OF_RESOURCE`. -/
def addComm (pml : Pml ρ δ) (ctx n : ℕ) : Option (Pml ρ δ) :=
  if pml.pmlMaxContextid < ctx then
    none
  else
    let r := grabPending ctx (.initSize n) pml.nonExistingCommunicatorPending
    some { pml with
      communicators := Function.update pml.communicators ctx (some r.1)
      nonExistingCommunicatorPending := r.2 }

end Pml

end OpenMPI.Ob1
