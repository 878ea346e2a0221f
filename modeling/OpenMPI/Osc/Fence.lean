import Mathlib.Algebra.BigOperators.Group.Finset.Defs
import OpenMPI.Lib.Run
import OpenMPI.Osc.Pt2pt

/-!
# Fence

All processes of a window call fences, and make requests between them.  In a fence a process learns by a
reduce-scatter how many requests it gets, sends its own one after the other, and waits.
-/

namespace OpenMPI.Osc

open BigOperators

variable {P : Type*} (z : Sizes) (me : P) (m : Module P)

/-- `ompi_osc_pt2pt_module_fence` sends the first of the requests that it copied. -/
def fenceSend (req : Sendreq P) (rest : List (Sendreq P)) : Module P × List (Item P) :=
  ({ m with copyPendingSendreqs := rest }, sendreqSend z me req)

/-- It counts the requests that it waits for; some of them may be over. -/
def fenceCount (incoming outgoing : ℕ) : Module P :=
  { m with numPendingIn := m.numPendingIn + incoming, numPendingOut := m.numPendingOut + outgoing }

def FenceWaits : Prop := 0 < m.numPendingIn ∨ m.numPendingOut ≠ 0

inductive FencePhase
  | outside
  | collective (outgoing : ℕ)
  | sending (outgoing incoming : ℕ)
  | waiting

/-- `given` is what each process gave to the reduce-scatters that it called, and `issued` are all requests
that were made. -/
structure Fence (P : Type*) where
  world : World P
  phase : P → FencePhase
  given : P → List (P → ℕ)
  issued : List (Sendreq P)

/-- `noPrecede` is a fence with `MPI_MODE_NOPRECEDE`, and `ret` the return from any other. -/
inductive FenceStep (P : Type*)
  | request (req : Sendreq P)
  | noPrecede (p : P)
  | enter (p : P)
  | leave (p : P)
  | send (p : P)
  | count (p : P)
  | ret (p : P)
  | come (i : Item P)

def FenceStep.Internal : FenceStep P → Prop
  | .request _ | .noPrecede _ | .enter _ => False
  | _ => True

namespace Fence

def fences (s : Fence P) (p : P) : ℕ := (s.given p).length

/-- What the reduce-scatter of a fence gives to a process. -/
def incoming [Fintype P] (s : Fence P) (fence : ℕ) (p : P) : ℕ :=
  ∑ q, (s.given q).getD fence (fun _ => 0) p

variable [DecidableEq P]

def act (s : Fence P) (p : P) (r : Module P × List (Item P)) (phase : FencePhase) : Fence P :=
  { s with world := s.world.act p r, phase := Function.update s.phase p phase }

def step [Fintype P] (s : Fence P) : FenceStep P → Fence P → Prop
  | .request req, s' => s.phase req.origin = .outside ∧ req.epoch = s.fences req.origin ∧
    s' = { s.act req.origin (enqueueSendreq (s.world.modules req.origin) req, []) .outside with
      issued := s.issued ++ [req] }
  | .noPrecede p, s' => s.phase p = .outside ∧ s' = s
  | .enter p, s' => s.phase p = .outside ∧ ∃ m, m = flipSendreqs (s.world.modules p) ∧
    s' = { s.act p (m, []) (.collective m.copyPendingSendreqs.length) with
      given := Function.update s.given p (s.given p ++ [m.copyNumPendingSendreqs]) }
  | .leave p, s' => ∃ outgoing, s.phase p = .collective outgoing ∧ (∀ q, s.fences p ≤ s.fences q) ∧
    s' = s.act p (s.world.modules p, []) (.sending outgoing (s.incoming (s.fences p - 1) p))
  | .send p, s' => ∃ outgoing incoming req rest, s.phase p = .sending outgoing incoming ∧
    (s.world.modules p).copyPendingSendreqs = req :: rest ∧
    s' = s.act p (fenceSend z p (s.world.modules p) req rest) (.sending outgoing incoming)
  | .count p, s' => ∃ outgoing incoming, s.phase p = .sending outgoing incoming ∧
    (s.world.modules p).copyPendingSendreqs = [] ∧
    s' = s.act p (fenceCount (s.world.modules p) incoming outgoing, []) .waiting
  | .ret p, s' => s.phase p = .waiting ∧ ¬ FenceWaits (s.world.modules p) ∧
    s' = s.act p (s.world.modules p, []) .outside
  | .come i, s' => Comes z s.world i s'.world ∧ s' = { s with world := s'.world }

def system [Fintype P] : Lib.System (Fence P) (FenceStep P) where
  init s := s.world = .init ∧ (∀ p, s.phase p = .outside) ∧ (∀ p, s.given p = []) ∧ s.issued = []
  step := step z

/-- The epoch of the last fence that `p` entered is over at `p`. -/
structure Closed (s : Fence P) (p : P) : Prop where
  pendingIn : (s.world.modules p).numPendingIn = 0
  pendingOut : (s.world.modules p).numPendingOut = 0
  /-- Each request of the epoch that targets `p` is over as often as it was made. -/
  applied : ∀ req, req.target = p → req.epoch < s.fences p →
    (s.world.modules p).window.count req = s.issued.count req
  completed : ∀ req, req.origin = p → (s.world.modules p).completed.count req = s.issued.count req
  /-- No request of a later epoch was counted. -/
  current : ∀ req, req ∈ (s.world.modules p).window ∨ req ∈ (s.world.modules p).completed →
    req.epoch < s.fences p

end Fence

end OpenMPI.Osc

/-!
## Start and fence, with their errors

What a window has besides the counters of its module: the group of a started epoch, the ranks in it, the
mode, and the references to groups and processes.  `ompi_osc_pt2pt_module_fence` is followed up to the
end of its reduce-scatter; the rest is that of `Fence`.
-/

namespace OpenMPI.Osc

/-- `ompi_group_t` at its address, with its processes. -/
structure Group (P : Type*) where
  addr : ℕ
  procs : List P
  deriving DecidableEq

inductive WinMode
  | fence
  | accessEpoch
  | exposeEpoch
  | started
  | posted
  | lockAccess
  deriving DecidableEq

/-- A window; the references of a group go with its address. -/
structure Win (P : Type*) where
  module : Module P
  scGroup : Option (Group P)
  scRemoteActiveRanks : ℕ → Bool
  scRemoteRanks : ℕ → ℕ
  mode : WinMode → Bool
  groupRefs : ℕ → ℕ
  procRefs : P → ℕ

/-- `MPI_ERR_RMA_SYNC`, or the error of a collective. -/
inductive SyncError
  | rmaSync
  | collective
  deriving DecidableEq

variable {P : Type*} [DecidableEq P] (comm : List P) (w : Win P)

/-- `OBJ_RETAIN` and `ompi_group_increment_proc_count` -/
def retainGroup (group : Group P) : Win P :=
  { w with
    groupRefs := Function.update w.groupRefs group.addr (w.groupRefs group.addr + 1)
    procRefs := fun p => w.procRefs p + group.procs.count p }

/-- `ompi_group_decrement_proc_count` and `OBJ_RELEASE` -/
def releaseGroup (group : Group P) : Win P :=
  { w with
    procRefs := fun p => w.procRefs p - group.procs.count p
    groupRefs := Function.update w.groupRefs group.addr (w.groupRefs group.addr - 1) }

/-- The loop of `ompi_osc_pt2pt_module_start` over the processes of the group from the one at `i` on, and
whether it came to its end. -/
def markRanks : List P → ℕ → Win P → Bool × Win P
  | [], _, w => (true, w)
  | p :: procs, i, w =>
    match comm.findIdx? (· = p) with
    | none => (false, w)
    | some commRank => markRanks procs (i + 1) { w with
        scRemoteActiveRanks := Function.update w.scRemoteActiveRanks commRank true
        scRemoteRanks := Function.update w.scRemoteRanks i commRank }

/-- `ompi_osc_pt2pt_module_start`, in a window of the processes `comm`. -/
def moduleStart (group : Group P) : Except (SyncError × Win P) (Win P) :=
  let w := retainGroup w group
  if w.scGroup.isSome then .error (.rmaSync, releaseGroup w group)
  else
    let w := { w with
      scGroup := some group
      module := { w.module with numPostMsgs := w.module.numPostMsgs + group.procs.length }
      scRemoteActiveRanks := fun _ => false }
    match markRanks comm group.procs 0 w with
    | (false, w) => .error (.rmaSync, releaseGroup w group)
    | (true, w) => .ok { w with
        mode := fun f => f = .accessEpoch ∨ f = .started ∨ (f ≠ .fence ∧ w.mode f) }

/-- `ompi_win_set_mode` with the flags of `assert`. -/
def setFenceMode (noSucceed : Bool) : Win P := { w with mode := fun f => !noSucceed && f = .fence }

def putBack (m : Module P) : Module P :=
  { m with
    pendingSendreqs := m.pendingSendreqs ++ m.copyPendingSendreqs
    copyPendingSendreqs := []
    numPendingSendreqs := fun p => m.numPendingSendreqs p + m.copyNumPendingSendreqs p }

/-- `ompi_osc_pt2pt_module_fence`, with the phase it goes on in; `reduceScatter` is what the collective
gives, nothing if it fails. -/
def moduleFence (noPrecede noSucceed : Bool) (reduceScatter : Option ℕ) :
    Except (SyncError × Win P) (Win P × FencePhase) :=
  if noPrecede then
    if w.module.pendingSendreqs.length ≠ 0 then .error (.rmaSync, w)
    else .ok (setFenceMode w noSucceed, .outside)
  else
    let w := { w with module := flipSendreqs w.module }
    let numOutgoing := w.module.copyPendingSendreqs.length
    match reduceScatter with
    | none => .error (.collective, { w with module := putBack w.module })
    | some incomingReqs => .ok (w, .sending numOutgoing incomingReqs)

inductive SyncCall (P : Type*)
  | start (group : Group P)
  | fence (noPrecede noSucceed : Bool) (reduceScatter : Option ℕ)

def SyncCall.run : SyncCall P → Except (SyncError × Win P) (Win P × FencePhase)
  | .start group => (moduleStart comm w group).map fun w => (w, .outside)
  | .fence noPrecede noSucceed reduceScatter => moduleFence w noPrecede noSucceed reduceScatter

/-- Windows are the same but for the copies of the counts, which the next call overwrites before it reads
them. -/
def Win.Same (w w' : Win P) : Prop :=
  w' = { w with module := { w.module with copyNumPendingSendreqs := w'.module.copyNumPendingSendreqs } }

def SameOutcome : Except (SyncError × Win P) (Win P × FencePhase) → Except (SyncError × Win P) (Win P × FencePhase) → Prop
  | .ok (w, phase), .ok (w', phase') => w.Same w' ∧ phase = phase'
  | .error (e, w), .error (e', w') => e = e' ∧ w.Same w'
  | _, _ => False

/-- If the call returns an error, the window is what it was, and calls made afterwards come out as if it
had not been made. -/
def Harmless (call : SyncCall P) : Prop :=
  ∀ e w', call.run comm w = .error (e, w') →
    w.Same w' ∧ ∀ later : SyncCall P, SameOutcome (later.run comm w) (later.run comm w')

end OpenMPI.Osc
