import OpenMPI.Lib.Run
import OpenMPI.Osc.Pt2pt

/-!
# Passive target synchronization

Origins lock the window of one target, make requests, and unlock it.  A process computes from one wait to
the next in one step.
-/

namespace OpenMPI.Osc

variable {P : Type*} (z : Sizes) (me target : P) (m : Module P)

def moduleLock (type : LockType) : Module P × List (Item P) :=
  (m, [.msg me target (.lockReq me (some type))])

/-- `ompi_osc_pt2pt_module_unlock`, from the end of its first wait to its second one. -/
def moduleUnlock : Module P × List (Item P) :=
  let m := flipSendreqs { m with lockReceivedAck := m.lockReceivedAck - 1 }
  let outCount := m.copyPendingSendreqs.length
  ({ m with numPendingOut := m.numPendingOut + (outCount + 1), copyPendingSendreqs := [] },
    .msg me target (.unlockReq me outCount) :: m.copyPendingSendreqs.flatMap (sendreqSend z me))

/-- Where an origin is in its calls; after the first wait of an unlock, with the requests it announced. -/
inductive Phase (P : Type*)
  | idle
  | locked (type : LockType)
  | unlocking (type : LockType) (announced : List (Sendreq P))

structure Passive (P : Type*) where
  world : World P
  phase : P → Phase P

inductive PassiveStep (P : Type*)
  | lock (p : P) (type : LockType)
  | request (req : Sendreq P)
  | unlock (p : P)
  | finish (p : P)
  | come (i : Item P)

namespace Passive

variable [DecidableEq P]

def call (s : Passive P) (p : P) (r : Module P × List (Item P)) (phase : Phase P) : Passive P :=
  ⟨s.world.act p r, Function.update s.phase p phase⟩

def step (s : Passive P) : PassiveStep P → Passive P → Prop
  | .lock p type, s' => s.phase p = .idle ∧
    s' = s.call p (moduleLock p target (s.world.modules p) type) (.locked type)
  | .request req, s' => req.target = target ∧ (∃ type, s.phase req.origin = .locked type) ∧
    s' = s.call req.origin (enqueueSendreq (s.world.modules req.origin) req, []) (s.phase req.origin)
  | .unlock p, s' => ∃ type, s.phase p = .locked type ∧ (s.world.modules p).lockReceivedAck ≠ 0 ∧
    s' = s.call p (moduleUnlock z p target (s.world.modules p))
      (.unlocking type (flipSendreqs (s.world.modules p)).copyPendingSendreqs)
  | .finish p, s' => (∃ type announced, s.phase p = .unlocking type announced) ∧
    (s.world.modules p).numPendingOut = 0 ∧ s' = s.call p (s.world.modules p, []) .idle
  | .come i, s' => Comes z s.world i s'.world ∧ s'.phase = s.phase

def system : Lib.System (Passive P) (PassiveStep P) where
  init s := s.world = .init ∧ ∀ p, s.phase p = .idle
  step := step z target

end Passive

namespace Item

def lockOf : Item P → Option (P × LockType)
  | .msg src _ (.lockReq _ (some type)) => some (src, type)
  | _ => none

/-- The origin that a message tells that it has the lock. -/
def grantOf : Item P → Option P
  | .msg _ dst (.lockReq _ none) => some dst
  | _ => none

def unlockOf : Item P → Option P
  | .msg src _ (.unlockReq _ _) => some src
  | _ => none

/-- The origin that a message tells that its unlock is over. -/
def replyOf : Item P → Option P
  | .msg _ dst .unlockReply => some dst
  | _ => none

def sent : Item P → List (Sendreq P)
  | .msg _ _ (.send req _) => [req]
  | _ => []

end Item

namespace Passive

/-- The lock requests that are not granted: on their way or queued. -/
def asking (s : Passive P) : List (P × LockType) :=
  s.world.net.filterMap Item.lockOf ++ (s.world.modules target).locksPending

/-- The unlocks that are not acknowledged: on their way or pending. -/
def leaving (s : Passive P) : List P :=
  s.world.net.filterMap Item.unlockOf ++ (s.world.modules target).unlocksPending

variable [DecidableEq P]

/-- How often `p` was told that it has the lock and did not unlock since. -/
def granted (s : Passive P) (p : P) : ℕ :=
  (s.world.net.filterMap Item.grantOf).count p + (s.world.modules p).lockReceivedAck

/-- `p` holds the lock: it was granted, and an unlock is not acknowledged. -/
def Holds (s : Passive P) (p : P) (type : LockType) : Prop :=
  s.phase p = .locked type ∧ 0 < s.granted p ∨
    (∃ announced, s.phase p = .unlocking type announced) ∧ p ∈ s.leaving target

structure Sound (s : Passive P) : Prop where
  /-- Nobody else holds an exclusive lock. -/
  exclusive : ∀ p, s.Holds target p .exclusive → ∀ q type, s.Holds target q type → q = p
  shared : ∃ holders : List P, holders.Nodup ∧ (∀ p, p ∈ holders ↔ s.Holds target p .shared) ∧
    (s.world.modules target).sharedCount = holders.length
  /-- Each lock request is granted once, or it is not granted yet. -/
  granted : ∀ p, (s.world.made.filterMap Item.lockOf).countP (fun a => a.1 = p) =
    (s.world.made.filterMap Item.grantOf).count p + (s.asking target).countP fun a => a.1 = p
  /-- An origin waits for its grant, or it has it. -/
  once : ∀ p type, s.phase p = .locked type →
    ((s.asking target).countP fun a => a.1 = p) + s.granted p = 1
  /-- Each unlock is acknowledged once, or it is not acknowledged yet. -/
  acknowledged : ∀ p, (s.world.made.filterMap Item.unlockOf).count p =
    (s.world.made.filterMap Item.replyOf).count p + (s.leaving target).count p
  announced : ∀ p type announced, s.phase p = .unlocking type announced →
    (s.leaving target).count p ≤ 1 ∧ ∀ req, announced.count req ≤ (s.world.made.flatMap Item.sent).count req
  /-- No request is over more often than it was sent, and as often once its unlock is acknowledged. -/
  applied : ∀ req, (s.world.modules target).window.count req ≤ (s.world.made.flatMap Item.sent).count req ∧
    (req.origin ∉ s.leaving target →
      (s.world.modules target).window.count req = (s.world.made.flatMap Item.sent).count req)
  /-- If nobody holds the lock, no lock request is queued. -/
  free : (∀ p type, ¬ s.Holds target p type) → (s.world.modules target).locksPending = []

/-- Where nothing is on its way, the unlocks are over, and who waits for the lock waits for one who has it. -/
structure Settled (s : Passive P) : Prop where
  leaving : s.leaving target = []
  pendingOut : ∀ p, (s.world.modules p).numPendingOut = 0
  asking : ∀ a ∈ s.asking target, ∃ p type, s.phase p = .locked type ∧ (s.world.modules p).lockReceivedAck ≠ 0

end Passive

end OpenMPI.Osc
