import Mathlib.Algebra.Ring.Nat
import OpenMPI.Lib.Run
import OpenMPI.Ob1.Match

/-!
# What matching is for

MPI's matching rule with one list of pending receives in the order they were posted and, for each
source, the unexpected messages in the order they arrived.  A message goes to the earliest pending
receive that accepts it, a receive to the earliest message of its source that it accepts.  The ob1
queues are to behave as this one list does.
-/

namespace OpenMPI.Mpi

open Ob1

/-- No source is any source, no tag any tag. -/
structure Receive (ρ : Type*) where
  kind : RequestType
  source : Option ℕ
  tag : Option ℤ
  user : ρ

structure Message (μ : Type*) where
  source : ℕ
  tag : ℤ
  body : μ

variable {ρ μ : Type*}

/-- Any tag accepts the tags of users, which are not negative. -/
def Receive.accepts (r : Receive ρ) (m : Message μ) : Bool :=
  r.source.elim true (fun p => p = m.source) && r.tag.elim (decide (0 ≤ m.tag)) (fun t => t = m.tag)

def Receive.takes (r : Receive ρ) (m : Message μ) : Bool :=
  r.kind ≠ .probe && r.accepts m

inductive Outcome (ρ μ : Type*)
  | paired (r : Receive ρ) (m : Message μ)
  | probed (r : Receive ρ) (m : Message μ)

structure State (ρ μ : Type*) where
  pending : List (Receive ρ) := []
  unexpected : ℕ → List (Message μ) := fun _ => []
  size : ℕ

namespace State

/-- The first pending receive that takes the message is paired with it; probes posted before that
one and accepting the message complete. -/
def arrive (s : State ρ μ) (m : Message μ) : State ρ μ × List (Outcome ρ μ) :=
  let passed := s.pending.takeWhile fun r => !r.takes m
  let probes := passed.filter fun r => r.accepts m
  let waiting := passed.filter fun r => !r.accepts m
  match s.pending.dropWhile fun r => !r.takes m with
  | [] =>
    ({ s with
        pending := waiting
        unexpected := Function.update s.unexpected m.source (s.unexpected m.source ++ [m]) },
      probes.map (.probed · m))
  | r :: later =>
    ({ s with pending := waiting ++ later }, probes.map (.probed · m) ++ [.paired r m])

/-- The ranks a receive may be served from, in the order they are looked at. -/
def sources (s : State ρ μ) (r : Receive ρ) : List ℕ :=
  r.source.elim (List.range s.size) fun p => [p]

def find (s : State ρ μ) (r : Receive ρ) : Option (ℕ × Message μ) :=
  (s.sources r).findSome? fun p => ((s.unexpected p).find? fun m => r.accepts m).map fun m => (p, m)

def post (s : State ρ μ) (r : Receive ρ) : State ρ μ × List (Outcome ρ μ) :=
  match s.find r with
  | none => ({ s with pending := if r.kind = .iprobe then s.pending else s.pending ++ [r] }, [])
  | some (p, m) =>
    if r.kind = .recv then
      ({ s with
          unexpected := Function.update s.unexpected p
            ((s.unexpected p).eraseP fun m => r.accepts m) },
        [.paired r m])
    else
      (s, [.probed r m])

end State

end OpenMPI.Mpi

namespace OpenMPI.Ob1

variable {ρ δ : Type*}

def RecvRequest.toReceive (req : RecvRequest ρ) : Mpi.Receive ρ where
  kind := req.reqType
  source := if req.reqPeer = anySource then none else some req.reqPeer.toNat
  tag := if req.reqTag = anyTag then none else some req.reqTag
  user := req.user

def RecvFrag.toMessage (frag : RecvFrag δ) : Mpi.Message (RecvFrag δ) :=
  ⟨frag.hdr.hdrSrc, frag.hdr.hdrTag, frag⟩

def Event.outcome : Event ρ δ → Option (Mpi.Outcome ρ (RecvFrag δ))
  | .searchPosted _ => none
  | .matched req frag => some (.paired req.toReceive frag.toMessage)
  | .probed req frag => some (.probed req.toReceive frag.toMessage)

def outcomes (log : List (Event ρ δ)) : List (Mpi.Outcome ρ (RecvFrag δ)) :=
  log.filterMap Event.outcome

inductive Input (ρ δ : Type*)
  | arrive (frag : RecvFrag δ)
  | post (req : RecvRequest ρ)

/-- A communicator and how many receives and probes were started on it. -/
structure Session (ρ δ : Type*) where
  comm : Comm ρ δ
  started : ℕ := 0

/-- Messages arrive in sequence and not with the tag that stands for any; fewer than `2 ^ 32`
receives and probes are started. -/
def Session.step (s : Session ρ δ) :
    Input ρ δ × List (Mpi.Outcome ρ (RecvFrag δ)) → Session ρ δ → Prop
  | (.arrive frag, out), s' =>
    frag.hdr.hdrTag ≠ anyTag
      ∧ frag.hdr.hdrSeq = (s.comm.procs frag.hdr.hdrSrc).expectedSequence
      ∧ s' = { s with comm := (recvFragCallback s.comm frag).1 }
      ∧ out = outcomes (recvFragCallback s.comm frag).2
  | (.post req, out), s' =>
    (req.reqPeer = anySource ∨ 0 ≤ req.reqPeer) ∧ s.started + 1 < 2 ^ 32
      ∧ s' = ⟨(recvReqStart s.comm req).1, s.started + 1⟩
      ∧ out = outcomes (recvReqStart s.comm req).2

def Session.system (n : ℕ) :
    Lib.System (Session ρ δ) (Input ρ δ × List (Mpi.Outcome ρ (RecvFrag δ))) where
  init s := s = ⟨.initSize n, 0⟩
  step := Session.step

def mpiStep (s : Mpi.State ρ (RecvFrag δ)) :
    Input ρ δ × List (Mpi.Outcome ρ (RecvFrag δ)) → Mpi.State ρ (RecvFrag δ) → Prop
  | (.arrive frag, out), s' => (s', out) = s.arrive frag.toMessage
  | (.post req, out), s' => (s', out) = s.post req.toReceive

def mpiSystem (n : ℕ) : Lib.System (Mpi.State ρ (RecvFrag δ))
    (Input ρ δ × List (Mpi.Outcome ρ (RecvFrag δ))) where
  init s := s = { size := n }
  step := mpiStep

def pairOf : Mpi.Outcome ρ (RecvFrag δ) → Option (Mpi.Receive ρ × Mpi.Message (RecvFrag δ))
  | .paired r m => some (r, m)
  | .probed _ _ => none

def Input.receive : Input ρ δ → Option (Mpi.Receive ρ)
  | .arrive _ => none
  | .post req => if req.reqType = .recv then some req.toReceive else none

def Input.message : Input ρ δ → Option (Mpi.Message (RecvFrag δ))
  | .arrive frag => some frag.toMessage
  | .post _ => none

section Run

variable (es : List (Input ρ δ × List (Mpi.Outcome ρ (RecvFrag δ))))

def received : List (Mpi.Receive ρ) := es.filterMap fun e => e.1.receive

def arrived : List (Mpi.Message (RecvFrag δ)) := es.filterMap fun e => e.1.message

def paired : List (Mpi.Receive ρ × Mpi.Message (RecvFrag δ)) :=
  es.flatMap fun e => e.2.filterMap pairOf

end Run

end OpenMPI.Ob1
