import Mathlib.Algebra.Order.Ring.Int
import OpenMPI.Lib.Run

/-!
# Receives of the out-of-band TCP component

A DATA message goes to the first posted receive that matches it, or waits in a list; a receive takes a waiting message,
or is posted.  A callback runs with the lock released, so messages come and receives are posted and cancelled while it
runs.  Callbacks nest as the functions that call them do.  `ORTE_RML_PEEK` is left out, and so is the time a message
takes to come in.
-/

namespace OpenMPI.Oob

open Lib

/-- `orte_process_name_t`, where `none` is a wildcard. -/
structure Name where
  jobid : Option ℕ
  vpid : Option ℕ
  deriving DecidableEq

def sameField (a b : Option ℕ) : Bool := a.isNone || b.isNone || a == b

def Name.compare (a b : Name) : Bool := sameField a.jobid b.jobid && sameField a.vpid b.vpid

/-- A DATA message that has come in.  `number` tells it from others, `peer` is `msg_peer`, the process at the other end
of the connection, and `rwSize` the sum of its `msg_rwiov` lengths. -/
structure Msg (β : Type*) where
  number : ℕ
  origin : Name
  peer : Name
  tag : ℤ
  data : List β
  rwSize : ℕ

/-- A call of `mca_oob_tcp_recv_nb`, with the lengths of the iovecs the user passed. -/
structure Recv where
  id : ℕ
  name : Name
  tag : ℤ
  persistent : Bool
  alloc : Bool
  trunc : Bool
  recursive : Bool
  user : List ℕ
  deriving DecidableEq

/-- The test of `mca_oob_tcp_msg_match_recv` and of `mca_oob_tcp_msg_match_post`. -/
def Recv.takes {β : Type*} (r : Recv) (m : Msg β) : Bool := r.name.compare m.origin && decide (r.tag = m.tag)

inductive Status
  | badParam
  | bytes (n : ℕ)
  deriving DecidableEq

/-- A receive with its message and what was copied into its iovecs. -/
structure Taken (β : Type*) where
  recv : Recv
  msg : Msg β
  rc : Status
  chunks : List (List β)

/-- A call of a callback, with its arguments.  `live` tells whether the receive was not cancelled before. -/
structure Call (β : Type*) extends Taken β where
  peer : Name
  tag : ℤ
  live : Bool

/-- A running callback, told by what comes after it. -/
inductive Frame (β : Type*)
  | plain
  /-- `mca_oob_tcp_msg_complete`, before its loop -/
  | completing (t : Taken β)
  /-- the loop of `mca_oob_tcp_msg_complete` -/
  | dispatching
  /-- the loop of `mca_oob_tcp_recv_nb` for a persistent receive -/
  | posting (r : Recv)

/-- The lists of the component (`tcp_msg_post`, `tcp_msg_recv` and `tcp_msg_completed`), the running callbacks, the
innermost one first, and the iovec lengths of each receive.  `arrived`, `calls`, `handed` and `cancelled` tell what
happened. -/
structure State (β : Type*) where
  posted : List Recv
  queued : List (Msg β)
  completed : List (Taken β)
  frames : List (Frame β)
  iovs : ℕ → List ℕ
  arrived : List (Msg β)
  calls : List Recv
  handed : List (Call β)
  cancelled : List ℕ

inductive Step (β : Type*)
  | arrive (m : Msg β)
  | recvNb (r : Recv)
  | cancel (name : Name) (tag : ℤ)
  /-- The innermost callback returns. -/
  | ret

variable {β : Type*}

/-- `mca_oob_tcp_msg_copy`: what goes into each iovec, and the lengths then. -/
def msgCopy (alloc : Bool) : List ℕ → List β → List (List β) × List ℕ
  | [], _ => ([], [])
  | n :: lens, src =>
    let k := if alloc && lens.isEmpty then src.length else min n src.length
    if k = src.length then ([src], k :: lens)
    else
      let rest := msgCopy alloc lens (src.drop k)
      (src.take k :: rest.1, k :: rest.2)

def Recv.count (r : Recv) (m : Msg β) (chunks : List (List β)) : ℕ :=
  if r.trunc then m.rwSize else (chunks.map List.length).sum

namespace State

def copy (s : State β) (r : Recv) (m : Msg β) : State β :=
  { s with iovs := Function.update s.iovs r.id (msgCopy r.alloc (s.iovs r.id) m.data).2 }

def filled (s : State β) (r : Recv) (m : Msg β) : Taken β :=
  let chunks := (msgCopy r.alloc (s.iovs r.id) m.data).1
  ⟨r, m, .bytes (r.count m chunks), chunks⟩

def call (s : State β) (t : Taken β) (peer : Name) (tag : ℤ) (f : Frame β) : State β :=
  { s with
    handed := s.handed ++ [{ t with peer := peer, tag := tag, live := decide (t.recv.id ∉ s.cancelled) }]
    frames := f :: s.frames }

def msgComplete (s : State β) (t : Taken β) (peer : Name) : State β :=
  if t.recv.recursive then s.call t peer t.recv.tag .plain
  else if s.completed = [] then { s with completed := [t] }.call t peer t.recv.tag (.completing t)
  else { s with completed := s.completed ++ [t] }

def dispatch (s : State β) : State β :=
  match s.completed with
  | [] => s
  | t :: rest => { s with completed := rest }.call t t.recv.name t.recv.tag .dispatching

def msgData (s : State β) (m : Msg β) : State β :=
  let s := { s with arrived := s.arrived ++ [m] }
  match s.posted.find? (·.takes m) with
  | none => { s with queued := s.queued ++ [m] }
  | some r =>
    let t := if s.iovs r.id = [] then ⟨r, m, .badParam, []⟩ else s.filled r m
    if r.persistent then (s.copy r m).call t m.peer r.tag .plain
    else { s.copy r m with posted := s.posted.eraseP (·.takes m) }.msgComplete t m.origin

def msgMatched (s : State β) (r : Recv) (m : Msg β) (f : Frame β) : State β :=
  { s.copy r m with queued := s.queued.eraseP (r.takes ·) }.call (s.filled r m) m.peer m.tag f

def matchLoop (s : State β) (r : Recv) : State β :=
  match s.queued.find? (r.takes ·) with
  | none => s
  | some m => s.msgMatched r m (.posting r)

/-- `mca_oob_tcp_recv_nb`, where `none` is `ORTE_ERR_BAD_PARAM`. -/
def recvNb (s : State β) (r : Recv) : Option (State β) :=
  if r.user = [] then none
  else
    let s := { s with calls := s.calls ++ [r], iovs := Function.update s.iovs r.id r.user }
    if r.persistent then some ({ s with posted := s.posted ++ [r] }.matchLoop r)
    else
      match s.queued.find? (r.takes ·) with
      | none => some { s with posted := s.posted ++ [r] }
      | some m => some (s.msgMatched r m .plain)

/-- The posted receives that a call of `mca_oob_tcp_recv_cancel` names. -/
def named (name : Name) (tag : ℤ) (r : Recv) : Bool := name.compare r.name && decide (r.tag = tag)

/-- `mca_oob_tcp_recv_cancel`, and whether it gives `ORTE_SUCCESS`. -/
def recvCancel (s : State β) (name : Name) (tag : ℤ) : State β × Bool :=
  ({ s with
    posted := s.posted.filter fun r => !named name tag r
    cancelled := s.cancelled ++ (s.posted.filter (named name tag)).map Recv.id },
   (s.posted.filter (named name tag)) ≠ [])

def ret (s : State β) : Option (State β) :=
  match s.frames with
  | [] => none
  | .plain :: frames => some { s with frames := frames }
  | .completing t :: frames =>
    some { s with
      frames := frames
      completed := s.completed.eraseP fun t' => t'.recv.id = t.recv.id }.dispatch
  | .dispatching :: frames => some { s with frames := frames }.dispatch
  | .posting r :: frames => some ({ s with frames := frames }.matchLoop r)

/-- A step; messages and receives are numbered as they come. -/
def next (s : State β) : Step β → Option (State β)
  | .arrive m => if m.number = s.arrived.length then some (s.msgData m) else none
  | .recvNb r => if r.id = s.calls.length then s.recvNb r else none
  | .cancel name tag => some (s.recvCancel name tag).1
  | .ret => s.ret

end State

/-- Nothing has come and nothing is posted; what the iovecs of later receives are is not known. -/
structure Init (s : State β) : Prop where
  posted : s.posted = []
  queued : s.queued = []
  completed : s.completed = []
  frames : s.frames = []
  arrived : s.arrived = []
  calls : s.calls = []
  handed : s.handed = []
  cancelled : s.cancelled = []

def system (β : Type*) : System (State β) (Step β) where
  init := Init
  step s e t := s.next e = some t

end OpenMPI.Oob
