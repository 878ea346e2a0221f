import OpenMPI.Iof.Output

/-!
# Forwarded stdin

The HNP reads its stdin and passes each chunk to its stdin sinks: those of its own processes have a write event, the
others send the chunk to a daemon, which looks for the sinks of the target.  A sink that is backed up stops the read
event, that of the HNP itself or by a message.  Job termination and `SIGCONT` are left out.
-/

namespace OpenMPI.Iof

open Lib

namespace Stdin

def maxInputBuffers : ℕ := 50

structure Name where
  jobid : ℕ
  vpid : ℕ
  deriving DecidableEq

/-- The name of a target, where `none` is `ORTE_VPID_WILDCARD`. -/
structure Target where
  jobid : ℕ
  vpid : Option ℕ
  deriving DecidableEq

def Name.target (p : Name) : Target := ⟨p.jobid, some p.vpid⟩

/-- The tests of `process_msg` at a daemon. -/
def Target.Names (t : Target) (p : Name) : Prop := t.jobid = p.jobid ∧ (t.vpid = none ∨ some p.vpid = t.vpid)

instance (t : Target) (p : Name) : Decidable (t.Names p) := inferInstanceAs (Decidable (_ ∧ _))

/-- `sink->daemon` of a sink that is not local: it is invalid as long as nothing else is set. -/
inductive Endpoint (δ : Type*)
  | invalid
  | everyone
  | daemon (d : δ)
  deriving DecidableEq

inductive HnpSink (δ : Type*)
  | here (p : Name)
  | away (host : Endpoint δ) (t : Target)
  deriving DecidableEq

/-- The sinks of the HNP and of the daemons, a process having a sink where it lives.  `none` is the HNP. -/
structure Sinks (δ : Type*) where
  home : Name → Option δ
  hnp : List (HnpSink δ)
  orted : δ → List Name
  nodup : hnp.Nodup
  orted_nodup : ∀ d, (orted d).Nodup
  /-- `hnp_pull` -/
  pulled : ∀ p, .here p ∈ hnp → home p = none
  /-- `hnp_push`: for a wildcard no daemon is set. -/
  pushed : ∀ host t, .away host t ∈ hnp →
    (host = .invalid ∧ t.vpid = none) ∨ ∃ p d, host = .daemon d ∧ t = p.target ∧ home p = some d
  /-- `orted_pull` -/
  orted_pulled : ∀ d, ∀ p ∈ orted d, home p = some d

structure ReadEvent where
  active : Bool
  armed : Bool

inductive Flow
  | xon
  | xoff
  deriving DecidableEq

/-- All processes, with the messages on their way.  `wev` are the write events of sinks, and `xoff` the flags of the
daemons.  `read`, `ended`, `queued`, `held` and `overran` tell what happened: the chunks that were read, whether the
last one was empty, the chunks that were queued for a process, whether an XOFF came after the last XON or drained sink,
and how many reads were started then. -/
structure World (δ : Type*) where
  stdinev : Option ReadEvent
  timers : ℕ
  wev : Name → Option WriteEvent
  xoff : δ → Bool
  toOrted : δ → List (Target × Output)
  toHnp : δ → List Flow
  read : List Output
  ended : Bool
  queued : Name → List Output
  held : Bool
  overran : ℕ

inductive Step (δ : Type*)
  /-- A read at the HNP; an error gives an empty chunk. -/
  | read (chunk : Output) (foreground : Bool)
  | readAgain
  | timer
  /-- The write event of a sink. -/
  | fire (p : Name) (results : ℕ → Written)
  /-- The same with an error. -/
  | fail (p : Name)
  /-- A message comes to a daemon, or from it. -/
  | toOrted (d : δ)
  | toHnp (d : δ)

variable {δ : Type*} [DecidableEq δ]

namespace World

def queue (w : World δ) (p : Name) (wev : WriteEvent) (chunk : Output) : World δ :=
  { w with
    wev := Function.update w.wev p (some (writeOutput wev chunk).1)
    queued := Function.update w.queued p (w.queued p ++ [chunk]) }

/-- `orte_iof_hnp_send_data_to_endpoint`; there is no route to an invalid name. -/
def sendData (w : World δ) (host : Endpoint δ) (t : Target) (chunk : Output) : World δ :=
  match host with
  | .invalid => w
  | .everyone => { w with toOrted := fun d => w.toOrted d ++ [(t, chunk)] }
  | .daemon d => { w with toOrted := Function.update w.toOrted d (w.toOrted d ++ [(t, chunk)]) }

/-- The loop over the sinks, and whether a local one is backed up, which ends it. -/
def stdinLoop (chunk : Output) : List (HnpSink δ) → World δ → World δ × Bool
  | [], w => (w, false)
  | .here p :: sinks, w =>
    match w.wev p with
    | none => stdinLoop chunk sinks w
    | some wev =>
      if maxInputBuffers < (writeOutput wev chunk).2 then (w.queue p wev chunk, true)
      else stdinLoop chunk sinks (w.queue p wev chunk)
  | .away host t :: sinks, w => stdinLoop chunk sinks (w.sendData host t chunk)

def restartStdin (w : World δ) : World δ := { w with stdinev := w.stdinev.map fun _ => ⟨true, true⟩ }

def startRead (w : World δ) (rev : ReadEvent) : World δ :=
  { w with stdinev := some { rev with armed := false }, overran := if w.held then w.overran + 1 else w.overran }

def readLocalHandler (z : Sinks δ) (w : World δ) (rev : ReadEvent) (chunk : Output) (foreground : Bool) : World δ :=
  let w := { w.startRead rev with read := w.read ++ [chunk], ended := w.ended || chunk.numbytes = 0 }
  let (w, backedUp) := stdinLoop chunk z.hnp w
  if backedUp then { w with stdinev := some ⟨false, false⟩ }
  else if chunk.numbytes = 0 then { w with stdinev := none }
  else if foreground then w.restartStdin
  else { w with timers := w.timers + 1 }

/-- The event of the HNP goes on, if it is off. -/
def resume (w : World δ) : World δ :=
  match w.stdinev with
  | none => w
  | some rev => if rev.active then w else { w with stdinev := some ⟨true, true⟩, held := false }

/-- `stdin_write_handler` of the HNP, when the write event has fired. -/
def hnpWrite (w : World δ) (p : Name) (wev : WriteEvent) (results : ℕ → Written) : World δ :=
  let wev := (hnpStdinWriteHandler false { wev with armed := false } results).1
  let w := { w with wev := Function.update w.wev p wev }
  match wev with
  | none => w
  | some wev => if wev.outputs.length < maxInputBuffers then w.resume else w

def hnpProcessMsg (w : World δ) : Flow → World δ
  | .xon => { w.resume with held := false }
  | .xoff =>
    { w with
      stdinev := w.stdinev.map fun rev => if rev.active then rev else ⟨false, false⟩
      held := true }

def hold (w : World δ) (d : δ) : World δ :=
  if w.xoff d then w
  else
    { w with
      xoff := Function.update w.xoff d true
      toHnp := Function.update w.toHnp d (w.toHnp d ++ [.xoff]) }

def letGo (w : World δ) (d : δ) : World δ :=
  if w.xoff d then
    { w with
      xoff := Function.update w.xoff d false
      toHnp := Function.update w.toHnp d (w.toHnp d ++ [.xon]) }
  else w

/-- `process_msg` of a daemon: a closed sink of the target ends the loop. -/
def ortedProcessMsg (d : δ) (t : Target) (chunk : Output) : List Name → World δ → World δ
  | [], w => w
  | p :: ps, w =>
    if t.Names p then
      match w.wev p with
      | none => w
      | some wev =>
        let w' := w.queue p wev chunk
        ortedProcessMsg d t chunk ps (if maxInputBuffers < (writeOutput wev chunk).2 then w'.hold d else w')
    else ortedProcessMsg d t chunk ps w

/-- `stdin_write_handler` of a daemon, when the write event has fired. -/
def ortedWrite (w : World δ) (d : δ) (p : Name) (wev : WriteEvent) (results : ℕ → Written) : World δ :=
  let wev := (ortedStdinWriteHandler { wev with armed := false } results).1
  let w := { w with wev := Function.update w.wev p wev }
  match wev with
  | none => w
  | some wev => if wev.outputs.length < maxInputBuffers then w.letGo d else w

/-- A `write` fails: the channel is closed, and a daemon sends XOFF. -/
def writeFails (z : Sinks δ) (w : World δ) (p : Name) : World δ :=
  let w := { w with wev := Function.update w.wev p none }
  match z.home p with
  | none => w
  | some d => w.hold d

def step (z : Sinks δ) (w : World δ) : Step δ → World δ → Prop
  | .read chunk foreground, w' => ∃ rev, w.stdinev = some rev ∧ rev.armed = true ∧
      w' = w.readLocalHandler z rev chunk foreground
  | .readAgain, w' => ∃ rev, w.stdinev = some rev ∧ rev.armed = true ∧
      w' = { w.startRead rev with stdinev := some { rev with armed := true } }
  | .timer, w' => 0 < w.timers ∧ w' = { w.restartStdin with timers := w.timers - 1 }
  | .fire p results, w' => ∃ wev, w.wev p = some wev ∧ wev.armed = true ∧
      w' = match z.home p with
        | none => w.hnpWrite p wev results
        | some d => w.ortedWrite d p wev results
  | .fail p, w' => ∃ wev o, w.wev p = some wev ∧ wev.armed = true ∧ wev.outputs.head? = some o ∧ o.numbytes ≠ 0 ∧
      w' = w.writeFails z p
  | .toOrted d, w' => ∃ t chunk rest, w.toOrted d = (t, chunk) :: rest ∧
      w' = ortedProcessMsg d t chunk (z.orted d) { w with toOrted := Function.update w.toOrted d rest }
  | .toHnp d, w' => ∃ flow rest, w.toHnp d = flow :: rest ∧
      w' = { w with toHnp := Function.update w.toHnp d rest }.hnpProcessMsg flow

structure Init (w : World δ) : Prop where
  stdinev : w.stdinev = some ⟨true, true⟩
  timers : w.timers = 0
  wev : ∀ p wev, w.wev p = some wev → wev = ⟨false, false, []⟩
  xoff : ∀ d, w.xoff d = false
  toOrted : ∀ d, w.toOrted d = []
  toHnp : ∀ d, w.toHnp d = []
  read : w.read = []
  ended : w.ended = false
  queued : ∀ p, w.queued p = []
  held : w.held = false
  overran : w.overran = 0

def system (z : Sinks δ) : System (World δ) (Step δ) where
  init := Init
  step := step z

def onWay (w : World δ) (d : δ) (p : Name) : List Output :=
  (w.toOrted d).filterMap fun m => if m.1.Names p then some m.2 else none

/-- Each chunk comes once and in order to each open sink of a target, no read starts after an XOFF, and the read event
is not off for good. -/
structure Feeds (z : Sinks δ) (w : World δ) : Prop where
  here : ∀ p, .here p ∈ z.hnp → w.wev p ≠ none → w.queued p = w.read
  away : ∀ host t d p, .away host t ∈ z.hnp → p ∈ z.orted d → t.Names p → w.wev p ≠ none →
    w.queued p ++ w.onWay d p = w.read
  holds : w.overran = 0
  restarts : w.ended = false → (∀ rev, w.stdinev = some rev → rev.armed = false) →
    (∀ p wev, w.wev p = some wev → wev.outputs = []) → (∃ d, .xon ∈ w.toHnp d) ∨ 0 < w.timers

def Full (w : World δ) : HnpSink δ → Prop
  | .here p => ∃ wev, w.wev p = some wev ∧ maxInputBuffers ≤ wev.outputs.length
  | .away _ _ => False

def Open (z : Sinks δ) (w : World δ) : HnpSink δ → Prop
  | .here p => w.wev p ≠ none
  | .away _ t => ∃ d, ∃ p ∈ z.orted d, t.Names p ∧ w.wev p ≠ none

/-- A step that meets no defect: no open sink is behind a full one and none of a daemon is for a wildcard when a chunk
is read; XOFF comes when the read event is off; and it is not off when a full sink of the HNP is lost. -/
def Careful (z : Sinks δ) (w : World δ) : Step δ → Prop
  | .read _ _ => z.hnp.Pairwise (fun s s' => w.Full s → ¬w.Open z s') ∧
      ∀ t, .away .invalid t ∈ z.hnp → ¬w.Open z (.away .invalid t)
  | .fail p => z.home p = none → w.ended = true ∨ (∀ rev, w.stdinev = some rev → rev.active = true) ∨
      ∃ q ≠ p, z.home q = none ∧ w.Full (.here q)
  | .toHnp d => (w.toHnp d).head? = some .xoff → ∀ rev, w.stdinev = some rev → rev.active = false
  | _ => True

end World

end Stdin

end OpenMPI.Iof
