import Mathlib.Data.Int.Notation
import OpenMPI.Lib.Run

/-!
# Control messages that wait for resources

An ACK or a FIN that cannot be sent is saved in an object of a free list and sent again when a BTL has resources.  The
answers of the BTLs come with each step, and calls of `mca_pml_ob1_process_pending_packets` nest, each being `Frame`.  A
free list that may not grow is left out, as are the byte orders of the headers.
-/

namespace OpenMPI.Ob1.Pckt

open Lib

/-- `mca_pml_ob1_ack_hdr_t` and `mca_pml_ob1_fin_hdr_t`, both with `hdr_flags`. -/
inductive Hdr
  | ack (flags : BitVec 8) (srcReq dstReq sendOffset : ℕ)
  | fin (flags : BitVec 8) (des fail : ℕ)
  deriving DecidableEq

def Hdr.flags : Hdr → BitVec 8
  | .ack flags .. => flags
  | .fin flags .. => flags

def nordmaFlag : BitVec 8 := 16

structure BmlBtl where
  proc : ℕ
  btl : ℕ
  deriving DecidableEq

/-- A message to a process, and the call it comes from. -/
structure Msg where
  call : ℕ
  proc : ℕ
  hdr : Hdr
  deriving DecidableEq

/-- `mca_pml_ob1_pckt_pending_t`, and the call whose message it is. -/
structure Pending where
  proc : ℕ
  hdr : Hdr
  bmlBtl : Option BmlBtl
  order : ℕ
  call : ℕ

/-- A running `mca_pml_ob1_process_pending_packets`: the BTL, the turns left, and the object it will return. -/
structure Frame where
  btl : ℕ
  left : ℕ
  pckt : Option ℕ

/-- What a BTL answers: no descriptor, or what sending it returns. -/
abbrev Attempt := Option ℤ

def Attempt.ok (a : Attempt) : Bool := a.elim false (0 ≤ ·)

inductive Status
  | success
  | outOfResource
  deriving DecidableEq

/-- `mca_pml_ob1`, where `free` is `pending_pckts` with the objects below `made`.  The last two tell what the callers
wanted sent and what was sent. -/
structure State where
  mem : ℕ → Pending
  pending : List ℕ
  free : List ℕ
  made : ℕ
  frames : List Frame
  posted : List Msg
  sent : List Msg

/-- The eager BTLs to each process, and by how many objects the free list grows beyond one. -/
structure Config where
  btlEager : ℕ → List ℕ
  more : ℕ

inductive Step
  | ack (proc srcReq dstReq sendOffset : ℕ) (nordma : Bool) (attempts : ℕ → Attempt)
  | fin (bmlBtl : BmlBtl) (des order status : ℕ) (attempt : Attempt)
  | progress (btl : ℕ)
  | turn (attempt : Attempt)

namespace State

def alloc (z : Config) (s : State) : ℕ × State :=
  match s.free with
  | item :: free => (item, { s with free := free })
  | [] => (s.made, { s with free := List.range' (s.made + 1) z.more, made := s.made + 1 + z.more })

def giveBack (s : State) (pckt : ℕ) : State := { s with free := pckt :: s.free }

def save (s : State) (pckt : ℕ) (p : Pending) : State :=
  { s with mem := Function.update s.mem pckt p, pending := s.pending ++ [pckt] }

/-- `MCA_PML_OB1_ADD_ACK_TO_PENDING`; the flags are those that the object had. -/
def addAckToPending (z : Config) (s : State) (call proc srcReq dstReq sendOffset : ℕ) : State :=
  let item := s.alloc z
  let old := s.mem item.1
  item.2.save item.1 { old with
    proc := proc, hdr := .ack old.hdr.flags srcReq dstReq sendOffset, bmlBtl := none, call := call }

def addFinToPending (z : Config) (s : State) (call proc des : ℕ) (bmlBtl : BmlBtl) (order status : ℕ) : State :=
  let item := s.alloc z
  let old := s.mem item.1
  item.2.save item.1 ⟨proc, .fin old.hdr.flags des status, some bmlBtl, order, call⟩

def send (s : State) (m : Msg) : State := { s with sent := s.sent ++ [m] }

def ackSendBtl (s : State) (call : ℕ) (bmlBtl : BmlBtl) (srcReq dstReq sendOffset : ℕ) (nordma : Bool) (a : Attempt) :
    Status × State :=
  if a.ok then
    (.success, s.send ⟨call, bmlBtl.proc, .ack (if nordma then nordmaFlag else 0) srcReq dstReq sendOffset⟩)
  else (.outOfResource, s)

/-- The loop of `mca_pml_ob1_recv_request_ack_send` over the eager BTLs. -/
def ackSendLoop (s : State) (call proc srcReq dstReq sendOffset : ℕ) (nordma : Bool) (attempts : ℕ → Attempt) :
    List (ℕ × ℕ) → Status × State
  | [] => (.outOfResource, s)
  | (btl, i) :: btls =>
    let out := s.ackSendBtl call ⟨proc, btl⟩ srcReq dstReq sendOffset nordma (attempts i)
    if out.1 = .success then out else ackSendLoop s call proc srcReq dstReq sendOffset nordma attempts btls

def ackSend (z : Config) (s : State) (call proc srcReq dstReq sendOffset : ℕ) (nordma : Bool)
    (attempts : ℕ → Attempt) : Status × State :=
  let out := s.ackSendLoop call proc srcReq dstReq sendOffset nordma attempts (z.btlEager proc).zipIdx
  if out.1 = .success then out else (.outOfResource, s.addAckToPending z call proc srcReq dstReq sendOffset)

/-- The part of `MCA_PML_OB1_PROGRESS_PENDING` that is about the pending packets. -/
def progressPending (s : State) (btl : ℕ) : State :=
  if s.pending.length = 0 then s else { s with frames := ⟨btl, s.pending.length, none⟩ :: s.frames }

def sendFin (z : Config) (s : State) (call proc : ℕ) (bmlBtl : BmlBtl) (des order status : ℕ) (a : Attempt) :
    Status × State :=
  if a.ok then
    let s := s.send ⟨call, bmlBtl.proc, .fin 0 des status⟩
    (.success, if a = some 1 then s.progressPending bmlBtl.btl else s)
  else (.outOfResource, s.addFinToPending z call proc des bmlBtl order status)

/-- The BTL to the process of a saved message, where that is the BTL which has resources. -/
def sendDst (z : Config) (p : Pending) (btl : ℕ) : Option BmlBtl :=
  match p.bmlBtl with
  | some b => if b.btl = btl then some b else if btl ∈ z.btlEager p.proc then some ⟨p.proc, btl⟩ else none
  | none => if btl ∈ z.btlEager p.proc then some ⟨p.proc, btl⟩ else none

/-- A turn of the loop of `mca_pml_ob1_process_pending_packets`, or the return of the object behind it. -/
def turn (z : Config) (s : State) (a : Attempt) : State :=
  match s.frames with
  | [] => s
  | ⟨btl, left, some pckt⟩ :: frames => { s with frames := ⟨btl, left - 1, none⟩ :: frames }.giveBack pckt
  | ⟨_, 0, none⟩ :: frames => { s with frames := frames }
  | ⟨btl, left + 1, none⟩ :: frames =>
    match s.pending with
    | [] => { s with frames := frames }
    | pckt :: pending =>
      let p := s.mem pckt
      let t := { s with pending := pending }
      match sendDst z p btl with
      | none => { t with pending := pending ++ [pckt], frames := ⟨btl, left, none⟩ :: frames }
      | some dst =>
        match p.hdr with
        | .ack flags srcReq dstReq sendOffset =>
          let out := t.ackSendBtl p.call dst srcReq dstReq sendOffset (flags &&& nordmaFlag ≠ 0) a
          if out.1 = .outOfResource then { out.2 with pending := pending ++ [pckt], frames := frames }
          else { out.2 with frames := ⟨btl, left + 1, some pckt⟩ :: frames }
        | .fin _ des fail =>
          let out := { t with frames := ⟨btl, left + 1, some pckt⟩ :: frames }.sendFin z p.call p.proc dst des p.order fail a
          if out.1 = .outOfResource then { out.2 with frames := frames } else out.2

def next (z : Config) (s : State) : Step → State
  | .ack proc srcReq dstReq sendOffset nordma attempts =>
    let m : Msg := ⟨s.posted.length, proc, .ack (if nordma then nordmaFlag else 0) srcReq dstReq sendOffset⟩
    ({ s with posted := s.posted ++ [m] }.ackSend z m.call proc srcReq dstReq sendOffset nordma attempts).2
  | .fin bmlBtl des order status attempt =>
    let m : Msg := ⟨s.posted.length, bmlBtl.proc, .fin 0 des status⟩
    ({ s with posted := s.posted ++ [m] }.sendFin z m.call bmlBtl.proc bmlBtl des order status attempt).2
  | .progress btl => s.progressPending btl
  | .turn attempt => s.turn z attempt

end State

structure Init (s : State) : Prop where
  pending : s.pending = []
  free : s.free = List.range s.made
  frames : s.frames = []
  posted : s.posted = []
  sent : s.sent = []

def system (z : Config) : System State Step where
  init := Init
  step s e t := s.next z e = t

end OpenMPI.Ob1.Pckt
