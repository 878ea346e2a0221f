import OpenMPI.Lib.Run

/-!
# Forwarded output

`iof`: chunks are queued for a descriptor, and a handler writes them when the descriptor can take more.  The
handlers are that of output (`base`) and those of stdin at the HNP and at a daemon.
-/

namespace OpenMPI.Iof

open Lib

structure Output where
  data : List UInt8
  numbytes : ℕ
  fits : numbytes ≤ data.length

/-- What a call of `write` gives; a count is at most that of the bytes it was given. -/
inductive Written
  | count (n : ℕ)
  | again

namespace Output

def bytes (o : Output) : List UInt8 := o.data.take o.numbytes

/-- The `memmove` after an incomplete write. -/
def cut (o : Output) (numWritten : ℕ) : Output where
  data := (o.data.drop numWritten).take (o.numbytes - numWritten) ++ o.data.drop (o.numbytes - numWritten)
  numbytes := o.numbytes
  fits := by
    have := o.fits
    rw [List.length_append, List.length_take, List.length_drop, List.length_drop]
    omega

end Output

/-- `orte_iof_write_event_t`; an event that was added and did not fire yet is armed. -/
structure WriteEvent where
  pending : Bool
  armed : Bool
  outputs : List Output

/-- `orte_iof_base_write_output` from `process` on, and `num_buffered`. -/
def writeOutput (channel : WriteEvent) (output : Output) : WriteEvent × ℕ :=
  let channel := { channel with outputs := channel.outputs ++ [output] }
  (if ¬channel.pending then { channel with armed := true, pending := true } else channel, channel.outputs.length)

/-- How the loop of a handler is left: nothing is queued, a chunk is pushed back, or the channel is closed. -/
inductive Exit
  | drained
  | pushed
  | closed
  deriving DecidableEq

structure Turn where
  outputs : List Output
  written : List UInt8
  exit : Exit

/-- The loop of a handler.  `closes`: an empty chunk closes the channel; `dumps`: nothing is written any more. -/
def writeLoop (closes dumps : Bool) : List Output → (ℕ → Written) → Turn
  | [], _ => ⟨[], [], .drained⟩
  | output :: outputs, results =>
    if dumps then writeLoop closes dumps outputs results
    else if output.numbytes = 0 then
      -- `write` of no bytes gives 0
      if closes then ⟨outputs, [], .closed⟩ else writeLoop closes dumps outputs results
    else match results 0 with
      | .again => ⟨output :: outputs, [], .pushed⟩
      | .count numWritten =>
        if numWritten < output.numbytes then
          ⟨output.cut numWritten :: outputs, output.bytes.take numWritten, .pushed⟩
        else
          let turn := writeLoop closes dumps outputs fun i => results (i + 1)
          { turn with written := output.bytes ++ turn.written }

/-- `orte_iof_base_write_handler`: the event stays what it is when a chunk is pushed back. -/
def baseWriteHandler (wev : WriteEvent) (results : ℕ → Written) : Option WriteEvent × List UInt8 :=
  let turn := writeLoop false false wev.outputs results
  match turn.exit with
  | .drained => (some ⟨false, false, turn.outputs⟩, turn.written)
  | _ => (some { wev with outputs := turn.outputs }, turn.written)

/-- What both `stdin_write_handler`s do with the channel. -/
def stdinWriteHandler (dumps : Bool) (wev : WriteEvent) (results : ℕ → Written) : Option WriteEvent × List UInt8 :=
  let turn := writeLoop true dumps wev.outputs results
  match turn.exit with
  | .drained => (some { wev with pending := false, outputs := turn.outputs }, turn.written)
  | .pushed => (some ⟨true, true, turn.outputs⟩, turn.written)
  | .closed => (none, turn.written)

def hnpStdinWriteHandler (abnormalTermOrdered : Bool) : WriteEvent → (ℕ → Written) → Option WriteEvent × List UInt8 :=
  stdinWriteHandler abnormalTermOrdered

def ortedStdinWriteHandler : WriteEvent → (ℕ → Written) → Option WriteEvent × List UInt8 :=
  stdinWriteHandler false

inductive Handler
  | base
  | hnp
  | orted
  deriving DecidableEq

/-- The chunks whose bytes the descriptor should get: those of stdin to the first empty one. -/
def Handler.expected : Handler → List Output → List UInt8
  | .base, queued => queued.flatMap Output.bytes
  | _, queued => (queued.takeWhile (·.numbytes ≠ 0)).flatMap Output.bytes

/-- A channel, which is gone when its stdin is closed, with all chunks that were queued and all bytes that were
written. -/
structure Channel where
  wev : Option WriteEvent
  abnormalTermOrdered : Bool
  queued : List Output
  written : List UInt8

inductive Step
  | queue (output : Output)
  | fire (results : ℕ → Written)
  | terminate

namespace Channel

def queue (s : Channel) (wev : WriteEvent) (output : Output) : Channel :=
  { s with wev := some (writeOutput wev output).1, queued := s.queued ++ [output] }

def fire (h : Handler) (s : Channel) (wev : WriteEvent) (results : ℕ → Written) : Channel :=
  let fired := { wev with armed := false }
  let r := match h with
    | .base => baseWriteHandler fired results
    | .hnp => hnpStdinWriteHandler s.abnormalTermOrdered fired results
    | .orted => ortedStdinWriteHandler fired results
  { s with wev := r.1, written := s.written ++ r.2 }

def step (h : Handler) (s : Channel) : Step → Channel → Prop
  | .queue output, s' => ∃ wev, s.wev = some wev ∧ s' = s.queue wev output
  | .fire results, s' => ∃ wev, s.wev = some wev ∧ wev.armed = true ∧ s' = s.fire h wev results
  | .terminate, s' => s' = { s with abnormalTermOrdered := true }

def system (h : Handler) : System Channel Step where
  init s := s = ⟨some ⟨false, false, []⟩, false, [], []⟩
  step := step h

/-- What is written is right so far, the event is armed as long as chunks are queued, and a descriptor that takes
all gets all. -/
structure Right (h : Handler) (s : Channel) : Prop where
  ordered : s.written <+: h.expected s.queued
  armed : ∀ wev, s.wev = some wev → wev.outputs ≠ [] → wev.armed = true
  drains : s.abnormalTermOrdered = false → ∀ wev, s.wev = some wev → ∀ results : ℕ → Written,
    (∀ i, ∃ n, results i = .count n ∧ ∀ output ∈ wev.outputs, output.numbytes ≤ n) →
      (s.fire h wev results).written = h.expected s.queued

/-- The calls of `write` that a handler makes cut no chunk, and the one for output writes all chunks. -/
def Uncut (h : Handler) : List Output → (ℕ → Written) → Prop
  | [], _ => True
  | output :: outputs, results =>
    if output.numbytes = 0 then if h = .base then Uncut h outputs results else True
    else match results 0 with
      | .again => h ≠ .base
      | .count numWritten =>
        if numWritten < output.numbytes then h ≠ .base ∧ numWritten = 0
        else Uncut h outputs fun i => results (i + 1)

/-- A step in which no chunk is cut, if anything is written. -/
def Careful (h : Handler) (s : Channel) : Step → Prop
  | .fire results => ∀ wev, s.wev = some wev → (h = .hnp ∧ s.abnormalTermOrdered = true) ∨ Uncut h wev.outputs results
  | _ => True

end Channel

end OpenMPI.Iof
