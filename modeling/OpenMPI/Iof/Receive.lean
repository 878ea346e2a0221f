import OpenMPI.Routed.RouteTable

/-!
# Requests to forward output

`process_msg` of the HNP: a tool asks for the streams of processes or asks no more, and daemons send output.  What is
unpacked is given; flow control is in `Iof.Stdin`.
-/

namespace OpenMPI.Iof

open Routed (ProcessName invalid wildcard)

namespace Tag

def stdout : UInt8 := 0x02
def stderr : UInt8 := 0x04
def stddiag : UInt8 := 0x08
def stdoutAll : UInt8 := 0x0e
def xon : UInt8 := 0x10
def xoff : UInt8 := 0x20
def pull : UInt8 := 0x40
def close : UInt8 := 0x80

end Tag

/-- `orte_iof_sink_t`; the constructor makes the daemon invalid, and only tools and stdin set it. -/
structure Sink where
  name : ProcessName
  tag : UInt8
  daemon : ProcessName
  deriving DecidableEq

structure Message where
  sender : ProcessName
  stream : UInt8
  origin : ProcessName
  data : List UInt8

def Message.has (msg : Message) (tag : UInt8) : Bool := tag &&& msg.stream ≠ 0

structure Packet where
  host : ProcessName
  target : ProcessName
  tag : UInt8
  data : Option (List UInt8)
  deriving DecidableEq

/-- A call of `orte_iof_base_write_output` for the HNP's own stdout or stderr. -/
structure OwnOutput where
  toStdout : Bool
  name : ProcessName
  stream : UInt8
  data : List UInt8

structure Hnp where
  sinks : List Sink
  sent : List Packet
  written : List OwnOutput

def Sink.designated (sink : Sink) (msg : Message) : Bool :=
  msg.stream &&& sink.tag ≠ 0 && sink.name.jobid = msg.origin.jobid &&
    (sink.name.vpid = wildcard || msg.origin.vpid = wildcard || sink.name.vpid = msg.origin.vpid)

/-- `ORTE_IOF_SINK_DEFINE` for a stream that a tool asks for. -/
def pullStream (msg : Message) (tag : UInt8) (sinks : List Sink) : List Sink :=
  if msg.has tag then sinks ++ [⟨msg.origin, tag, msg.sender⟩] else sinks

def Sink.ack (msg : Message) (sink : Sink) : Packet := ⟨sink.daemon, msg.origin, Tag.close, none⟩

def Sink.copy (msg : Message) (sink : Sink) : Packet := ⟨sink.daemon, msg.origin, msg.stream, some msg.data⟩

/-- The `while` loop of a close, with the sinks before `item` and those from it on.  It gives nothing when it has not
ended within the fuel. -/
def closeLoop (msg : Message) : ℕ → List Sink → List Sink → List Packet → Option (List Sink × List Packet)
  | 0, _, _, _ => none
  | _ + 1, before, [], sent => some (before, sent)
  | fuel + 1, before, sink :: rest, sent =>
    -- `continue`: `item` is still the same
    if sink.daemon.jobid = invalid then closeLoop msg fuel before (sink :: rest) sent
    else if sink.designated msg then closeLoop msg fuel before rest (sent ++ [sink.ack msg])
    else closeLoop msg fuel (before ++ [sink]) rest sent

def outputLoop (msg : Message) : List Sink → List Packet
  | [] => []
  | sink :: rest =>
    if sink.daemon.jobid = invalid then outputLoop msg rest
    else if sink.designated msg then sink.copy msg :: outputLoop msg rest
    else outputLoop msg rest

def processMsg (xmlOutput : Bool) (fuel : ℕ) (hnp : Hnp) (msg : Message) : Option Hnp :=
  if msg.has Tag.xon || msg.has Tag.xoff then some hnp
  else if msg.has Tag.pull then
    some { hnp with
      sinks := pullStream msg Tag.stddiag (pullStream msg Tag.stderr (pullStream msg Tag.stdout hnp.sinks)) }
  else if msg.has Tag.close then
    (closeLoop msg fuel [] hnp.sinks hnp.sent).map fun r => { hnp with sinks := r.1, sent := r.2 }
  else
    some { hnp with
      sent := hnp.sent ++ outputLoop msg hnp.sinks
      written := hnp.written ++ [⟨msg.has Tag.stdout || xmlOutput, msg.origin, msg.stream, msg.data⟩] }

namespace Message

inductive Kind
  | flow
  | pull
  | close
  | output
  deriving DecidableEq

def kind (msg : Message) : Kind :=
  if msg.has Tag.xon || msg.has Tag.xoff then .flow
  else if msg.has Tag.pull then .pull
  else if msg.has Tag.close then .close
  else .output

/-- A sink with a destination, for the process and one of the streams of the message. -/
def For (msg : Message) (sink : Sink) : Prop := sink.daemon.jobid ≠ invalid ∧ sink.designated msg = true

instance (msg : Message) (sink : Sink) : Decidable (msg.For sink) := inferInstanceAs (Decidable (_ ∧ _))

def Done (msg : Message) (hnp hnp' : Hnp) : Prop :=
  match msg.kind with
  | .close => hnp'.sinks = hnp.sinks.filter (¬msg.For ·) ∧
      hnp'.sent = hnp.sent ++ (hnp.sinks.filter (msg.For ·)).map (Sink.ack msg)
  | .output => hnp'.sinks = hnp.sinks ∧ ∃ copies, hnp'.sent = hnp.sent ++ copies ∧
      (∀ copy ∈ copies, ∃ sink ∈ hnp.sinks, msg.For sink ∧ copy = sink.copy msg) ∧
      ∀ sink ∈ hnp.sinks, msg.For sink → copies.count (sink.copy msg) = 1
  | _ => hnp'.sent = hnp.sent

def Served (xmlOutput : Bool) (msg : Message) (hnp : Hnp) : Prop :=
  ∃ fuel hnp', processMsg xmlOutput fuel hnp msg = some hnp' ∧ msg.Done hnp hnp'

/-- Each sink has a destination when a stream is closed, and no two sinks that output is for have the same one. -/
def Servable (msg : Message) (sinks : List Sink) : Prop :=
  match msg.kind with
  | .close => ∀ sink ∈ sinks, sink.daemon.jobid ≠ invalid
  | .output => ((sinks.filter (msg.For ·)).map Sink.daemon).Nodup
  | _ => True

end Message

end OpenMPI.Iof
