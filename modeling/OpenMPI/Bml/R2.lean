import Mathlib.Algebra.Order.Ring.Rat
import Mathlib.Data.List.Sort
import OpenMPI.Btl.Base
import OpenMPI.Lib.Run

/-!
# BTLs for processes

`bml/r2`: which BTLs take first fragments, other fragments and RDMA of each process.  The three arrays are made when
a process is added; a BTL that is deleted is taken out of each.  Left out is the index for round robin.
-/

namespace OpenMPI.Bml

open Btl Lib

structure BtlModule (F : Type*) where
  exclusivity : ℕ
  latency : ℕ
  bandwidth : ℕ
  flags : UInt32
  /-- There is a `btl_put` -/
  put : Bool
  /-- There is a `btl_get` -/
  get : Bool
  maxSendSize : ℕ
  rdmaPipelineSendLength : ℕ
  minRdmaPipelineSize : ℕ
  /-- `btl_progress` of its component -/
  progress : Option F
  latency_lt : latency < 2 ^ 32
  bandwidth_lt : bandwidth < 2 ^ 32
  maxSendSize_lt : maxSendSize < 2 ^ 64

def flagsSend : UInt32 := 0x0001
def flagsPut : UInt32 := 0x0002
def flagsGet : UInt32 := 0x0004
def flagsHeterogeneousRdma : UInt32 := 0x0100

/-- The BTL modules `B`, the processes `P` with their `proc_arch`, and that of this process. -/
structure Host (B P F : Type*) where
  btl : B → BtlModule F
  arch : P → UInt32
  localArch : UInt32

/-- `mca_bml_base_btl_t` with an endpoint of type `E`. -/
structure BmlBtl (B E : Type*) where
  flags : UInt32
  weight : ℚ
  btl : B
  endpoint : E

/-- `mca_bml_base_btl_array_t`: its items, and what is in the places that are reserved after them. -/
structure BtlArray (B E : Type*) where
  items : List (BmlBtl B E)
  rest : List (Option (BmlBtl B E))

structure Endpoint (B E : Type*) where
  pipelineSendLength : ℕ
  sendLimit : ℕ
  maxSendSize : ℕ
  eager : BtlArray B E
  send : BtlArray B E
  rdma : BtlArray B E
  flagsOr : UInt32

variable {B P E F : Type*} [DecidableEq B] [DecidableEq P] [DecidableEq F]

namespace BtlArray

/-- `mca_bml_base_btl_array_reserve` of an array that has no items. -/
def reserve (size : ℕ) : BtlArray B E := ⟨[], List.replicate size none⟩

def insert (array : BtlArray B E) (item : BmlBtl B E) : BtlArray B E := ⟨array.items ++ [item], array.rest.tail⟩

/-- `mca_bml_base_btl_array_remove`: the last item stays behind in its place. -/
def remove (array : BtlArray B E) (btl : B) : BtlArray B E × Bool :=
  if array.items.any (·.btl = btl) then
    (⟨array.items.eraseP (·.btl = btl), array.items.getLast? :: array.rest⟩, true)
  else (array, false)

/-- `mca_bml_base_btl_array_get_index`; a place may not have been filled. -/
def getIndex (array : BtlArray B E) (i : ℕ) : Option (BmlBtl B E) := (array.items.map some ++ array.rest)[i]?.join

end BtlArray

namespace Host

variable (z : Host B P F)

def flagsOf (btl : B) : UInt32 :=
  let flags := (z.btl btl).flags
  let flags := if flags &&& flagsPut ≠ 0 ∧ !(z.btl btl).put then flags ^^^ flagsPut else flags
  let flags := if flags &&& flagsGet ≠ 0 ∧ !(z.btl btl).get then flags ^^^ flagsGet else flags
  if flags &&& (flagsPut ||| flagsGet ||| flagsSend) = 0 then flags ||| flagsSend else flags

def newEndpoint (numBtlModules : ℕ) : Endpoint B E :=
  ⟨0, 0, 2 ^ 64 - 1, .reserve numBtlModules, .reserve numBtlModules, .reserve numBtlModules, 0⟩

/-- A BTL reaches a process.  It is not used if its exclusivity is less than that of the last one. -/
def offer (ep : Endpoint B E) (btl : B) (endpoint : E) : Endpoint B E × Bool :=
  if ep.send.items.getLast?.any fun last => (z.btl last.btl).exclusivity > (z.btl btl).exclusivity then
    -- its `btl_del_procs` is called with the endpoint that it gave
    (ep, false)
  else
    ({ ep with
        send := ep.send.insert ⟨z.flagsOf btl, 0, btl, endpoint⟩
        flagsOr := ep.flagsOr ||| z.flagsOf btl }, true)

/-- The loop over the new processes for a BTL, with `btl_inuse`.  `reachable` gives the endpoints of the processes that
the BTL reaches. -/
def reachLoop (numBtlModules : ℕ) (btl : B) (reachable : P → Option E) :
    List P → (P → Option (Endpoint B E)) × ℕ → (P → Option (Endpoint B E)) × ℕ
  | [], r => r
  | p :: newProcs, (bml, inuse) =>
    match reachable p with
    | none => reachLoop numBtlModules btl reachable newProcs (bml, inuse)
    | some endpoint =>
      let offered := z.offer ((bml p).getD (newEndpoint numBtlModules)) btl endpoint
      reachLoop numBtlModules btl reachable newProcs
        (Function.update bml p (some offered.1), if offered.2 then inuse + 1 else inuse)

def bandwidthCompare (b1 b2 : BmlBtl B E) : ℤ := int32 ((z.btl b2.btl).bandwidth - (z.btl b1.btl).bandwidth)

def totalBandwidth (items : List (BmlBtl B E)) : ℚ := (items.map fun item => ((z.btl item.btl).bandwidth : ℚ)).sum

def reweigh (items : List (BmlBtl B E)) : List (BmlBtl B E) :=
  items.map fun item => { item with
    weight := if (z.btl item.btl).bandwidth > 0 then (z.btl item.btl).bandwidth / z.totalBandwidth items
      else 1 / items.length }

/-- The flags tell that RDMA is preferred with a process of this architecture. -/
def PrefersRdma (p : P) (btl : B) : Prop :=
  (z.btl btl).flags &&& (flagsPut ||| flagsGet) ≠ 0 ∧
    ¬(z.arch p ≠ z.localArch ∧ (z.btl btl).flags &&& flagsHeterogeneousRdma = 0)

instance (p : P) (btl : B) : Decidable (z.PrefersRdma p btl) := inferInstanceAs (Decidable (_ ∧ _))

def account (p : P) (latency : ℕ) (ep : Endpoint B E) (item : BmlBtl B E) : Endpoint B E :=
  let btl := z.btl item.btl
  let ep := if btl.latency = latency then { ep with eager := ep.eager.insert item } else ep
  let ep := if ep.maxSendSize > btl.maxSendSize then { ep with maxSendSize := btl.maxSendSize } else ep
  if z.PrefersRdma p item.btl then
    { ep with
      rdma := ep.rdma.insert item
      pipelineSendLength := max ep.pipelineSendLength btl.rdmaPipelineSendLength
      sendLimit := max ep.sendLimit btl.minRdmaPipelineSize }
  else ep

def metrics (p : P) (ep : Endpoint B E) : Endpoint B E :=
  let items := ep.send.items.mergeSort fun b1 b2 => z.bandwidthCompare b1 b2 ≤ 0
  let latency := items.foldl (fun latency item => min (z.btl item.btl).latency latency) 0xffffffff
  let items := z.reweigh items
  items.foldl (z.account p latency) { ep with send := ⟨items, ep.send.rest⟩ }

def delProcBtl (btl : B) (ep : Endpoint B E) : Endpoint B E :=
  let ep := { ep with eager := (ep.eager.remove btl).1 }
  let send := ep.send.remove btl
  let ep :=
    if send.2 then
      { ep with
        send := ⟨z.reweigh send.1.items, send.1.rest⟩
        maxSendSize := send.1.items.foldl (fun size item => min (z.btl item.btl).maxSendSize size) ep.maxSendSize }
    else ep
  let rdma := ep.rdma.remove btl
  if rdma.2 then
    { ep with
      rdma := ⟨z.reweigh rdma.1.items, rdma.1.rest⟩
      pipelineSendLength := rdma.1.items.foldl
        (fun length item => max length (z.btl item.btl).rdmaPipelineSendLength) ep.pipelineSendLength
      sendLimit := rdma.1.items.foldl
        (fun limit item => max limit (z.btl item.btl).minRdmaPipelineSize) ep.sendLimit }
  else ep

end Host

/-- `mca_bml_r2` with `mca_btl_base_modules_initialized`, the progress functions that are registered, the processes of
`ompi_proc_list`, their reference counts and `proc_bml`. -/
structure R2 (B P E F : Type*) where
  initialized : List B
  btlsAdded : Bool
  btlModules : List B
  btlProgress : List F
  callbacks : List F
  procs : List P
  refs : P → ℕ
  bml : P → Option (Endpoint B E)

namespace R2

variable (z : Host B P F)

/-- `mca_bml_r2_add_btls`: modules with more exclusivity come first. -/
def addBtls (s : R2 B P E F) : R2 B P E F :=
  if s.btlsAdded then s
  else
    { s with
      btlModules := s.initialized.mergeSort fun b1 b2 => (z.btl b2).exclusivity ≤ (z.btl b1).exclusivity
      btlProgress := []
      btlsAdded := true }

def retain (s : R2 B P E F) (procs : List P) : R2 B P E F :=
  { s with refs := procs.foldl (fun refs p => Function.update refs p (refs p + 1)) s.refs }

def registerProgress (s : R2 B P E F) (btl : B) : R2 B P E F :=
  match (z.btl btl).progress with
  | none => s
  | some progress =>
    if progress ∈ s.btlProgress then s
    else { s with btlProgress := s.btlProgress ++ [progress], callbacks := s.callbacks ++ [progress] }

/-- What a BTL answers: nothing if it fails, and otherwise the processes that it reaches with their endpoints. -/
abbrev Answer (B P E : Type*) := B → Option (P → Option E)

def addBtl (answer : Answer B P E) (newProcs : List P) (s : R2 B P E F) (btl : B) : R2 B P E F :=
  match answer btl with
  | none => s
  | some reachable =>
    let r := z.reachLoop s.btlModules.length btl reachable newProcs (s.bml, 0)
    let s := { s with bml := r.1 }
    if r.2 > 0 then s.registerProgress z btl else s

def metricsLoop (newProcs : List P) (s : R2 B P E F) : R2 B P E F :=
  { s with bml := newProcs.foldl (fun bml p => Function.update bml p ((bml p).map (z.metrics p))) s.bml }

/-- `mca_bml_r2_add_procs`, and whether all new processes can be reached. -/
def addProcs (answer : Answer B P E) (procs : List P) (s : R2 B P E F) : R2 B P E F × Bool :=
  if procs = [] then (s, true)
  else
    let s := (s.addBtls z).retain procs
    let newProcs := procs.filter fun p => (s.bml p).isNone
    let s := (s.btlModules.foldl (addBtl z answer newProcs) s).metricsLoop z newProcs
    (s, newProcs.all fun p => (s.bml p).isSome)

def removeBtlProgress (s : R2 B P E F) (btl : B) : R2 B P E F :=
  match (z.btl btl).progress with
  | none => s
  | some progress =>
    if progress ∈ s.btlProgress then
      { s with
        -- the last one moves to its place
        btlProgress := (s.btlProgress.set (s.btlProgress.idxOf progress) (s.btlProgress.getLastD progress)).dropLast
        callbacks := s.callbacks.erase progress }
    else s

/-- `mca_bml_r2_del_btl`: not of one of two.  `ompi_proc_all` retains each process. -/
def delBtl (btl : B) (s : R2 B P E F) : R2 B P E F :=
  let s := s.retain s.procs
  if s.initialized.length = 2 then s
  else
    let s := s.removeBtlProgress z btl
    let s := { s with bml := fun p => if p ∈ s.procs then (s.bml p).map (z.delProcBtl btl) else s.bml p }
    if btl ∈ s.initialized then
      { s with initialized := s.initialized.erase btl, btlModules := s.btlModules.filter (· ≠ btl) }
    else s

end R2

/-- The calls of `btl_del_procs` for a process: the second loop takes as many items from `btl_eager` as there are in
`btl_send`.  Those of `btl_send` that the first loop clears are not read again. -/
def Endpoint.delCalls (ep : Endpoint B E) : List (B × E) :=
  (ep.eager.items ++ (List.range ep.send.items.length).filterMap ep.eager.getIndex).map fun item =>
    (item.btl, item.endpoint)

def notify (fails : B → Bool) : List (B × E) → List (B × E) × Bool
  | [] => ([], true)
  | call :: calls =>
    if fails call.1 then ([call], false)
    else
      let r := notify fails calls
      (call :: r.1, r.2)

/-- A process that was deleted, with its `btl_send` and the calls of `btl_del_procs`. -/
structure Deletion (B P E : Type*) where
  proc : P
  send : List (BmlBtl B E)
  calls : List (B × E)

namespace R2

def release (s : R2 B P E F) (p : P) : R2 B P E F :=
  { s with procs := s.procs.erase p, refs := Function.update s.refs p 0, bml := Function.update s.bml p none }

/-- The loop over the processes that are deleted.  A process without an endpoint has no result, nor has one that
keeps items without a BTL because a later call failed. -/
def delLoop (fails : B → Bool) : List P → R2 B P E F → Option (R2 B P E F × List (Deletion B P E))
  | [], s => some (s, [])
  | p :: procs, s =>
    match s.bml p with
    | none => none
    | some ep =>
      match notify fails ep.delCalls with
      | (calls, true) =>
        (delLoop fails procs (s.release p)).map fun r => (r.1, ⟨p, ep.send.items, calls⟩ :: r.2)
      | ([_], false) => some (s, [])
      | _ => none

def delProcs (fails : B → Bool) (procs : List P) (s : R2 B P E F) : Option (R2 B P E F × List (Deletion B P E)) :=
  s.delLoop fails (procs.filter fun p => s.refs p = 1)

end R2

/-- A BML with the endpoints that each BTL gave for the processes that it reached, and the processes that were
deleted. -/
structure Session (B P E F : Type*) where
  r2 : R2 B P E F
  reached : P → B → Option E
  deletions : List (Deletion B P E)

/-- What is called.  References are also taken and given back by others, but for the last one. -/
inductive Call (B P E : Type*)
  | newProc (p : P)
  | retain (p : P)
  | release (p : P)
  | addProcs (answer : R2.Answer B P E) (procs : List P)
  | delBtl (btl : B)
  | delProcs (fails : B → Bool) (procs : List P)

def R2.newProcs (s : R2 B P E F) (procs : List P) : List P := procs.filter fun p => (s.bml p).isNone

def R2.reachedBy (s : R2 B P E F) (answer : R2.Answer B P E) (p : P) (b : B) : Option E :=
  if b ∈ s.initialized then (answer b).bind (· p) else none

namespace Session

def start (btls : List B) : Session B P E F :=
  ⟨⟨btls, false, [], [], [], [], fun _ => 0, fun _ => none⟩, fun _ _ => none, []⟩

def Step (z : Host B P F) (s : Session B P E F) : Call B P E → Session B P E F → Prop
  | .newProc p, s' => p ∉ s.r2.procs ∧ s' =
      { s with
        r2 := { s.r2 with procs := s.r2.procs ++ [p], refs := Function.update s.r2.refs p 1 }
        reached := Function.update s.reached p fun _ => none }
  | .retain p, s' => p ∈ s.r2.procs ∧ s' = { s with r2 := s.r2.retain [p] }
  | .release p, s' => 2 ≤ s.r2.refs p ∧ s' =
      { s with r2 := { s.r2 with refs := Function.update s.r2.refs p (s.r2.refs p - 1) } }
  | .addProcs answer procs, s' => (∀ p ∈ procs, p ∈ s.r2.procs) ∧ s' =
      { s with
        r2 := (s.r2.addProcs z answer procs).1
        reached := fun p => if p ∈ s.r2.newProcs procs then s.r2.reachedBy answer p else s.reached p }
  | .delBtl btl, s' => s' = { s with r2 := s.r2.delBtl z btl }
  | .delProcs fails procs, s' => (∀ p ∈ procs, p ∈ s.r2.procs) ∧ ∃ r, s.r2.delProcs fails procs = some r ∧
      s' = { s with r2 := r.1, deletions := s.deletions ++ r.2 }

def system (z : Host B P F) : System (Session B P E F) (Call B P E) where
  init s := ∃ btls : List B, btls.Nodup ∧ s = start btls
  step := Step z

end Session

/-- A BTL has the greatest exclusivity of those that reached a process. -/
def Host.Greatest (z : Host B P F) (reached : B → Option E) (b : B) : Prop :=
  reached b ≠ none ∧ ∀ b', reached b' ≠ none → (z.btl b').exclusivity ≤ (z.btl b).exclusivity

structure Copies (send items : List (BmlBtl B E)) (which : B → Prop) : Prop where
  nodup : (items.map BmlBtl.btl).Nodup
  mem_iff : ∀ b, b ∈ items.map BmlBtl.btl ↔ b ∈ send.map BmlBtl.btl ∧ which b
  valid : ∀ item ∈ items, 0 < item.weight ∧
    ∃ item' ∈ send, item'.btl = item.btl ∧ item'.endpoint = item.endpoint ∧ item'.flags = item.flags

/-- An endpoint describes the live BTLs of a process. -/
structure Endpoint.Right (z : Host B P F) (live : List B) (reached : B → Option E) (p : P) (ep : Endpoint B E) :
    Prop where
  nodup : (ep.send.items.map BmlBtl.btl).Nodup
  mem_send : ∀ b, b ∈ ep.send.items.map BmlBtl.btl ↔ b ∈ live ∧ z.Greatest reached b
  endpoint : ∀ item ∈ ep.send.items, reached item.btl = some item.endpoint
  eager : Copies ep.send.items ep.eager.items fun b =>
    ∀ b' ∈ ep.send.items.map BmlBtl.btl, (z.btl b).latency ≤ (z.btl b').latency
  rdma : Copies ep.send.items ep.rdma.items (z.PrefersRdma p)
  weight_pos : ∀ item ∈ ep.send.items, 0 < item.weight
  weight_sum : ep.send.items ≠ [] → (ep.send.items.map BmlBtl.weight).sum = 1
  maxSendSize : ep.send.items ≠ [] → (∀ item ∈ ep.send.items, ep.maxSendSize ≤ (z.btl item.btl).maxSendSize) ∧
    ∃ item ∈ ep.send.items, (z.btl item.btl).maxSendSize = ep.maxSendSize

def R2.InUse (s : R2 B P E F) (b : B) : Prop := ∃ p ep, s.bml p = some ep ∧ b ∈ ep.send.items.map BmlBtl.btl

structure Session.Right (z : Host B P F) (s : Session B P E F) : Prop where
  endpoints : ∀ p ep, s.r2.bml p = some ep → ep.Right z s.r2.initialized (s.reached p) p
  unreached : ∀ p ∈ s.r2.procs, s.r2.bml p = none → ∀ b, s.reached p b = none
  deletions : ∀ d ∈ s.deletions, d.calls.Perm (d.send.map fun item => (item.btl, item.endpoint))
  progress : ∀ f, f ∈ s.r2.callbacks ↔ ∃ b, s.r2.InUse b ∧ (z.btl b).progress = some f

/-- A BTL can be taken out of an endpoint: another one has as small a latency as all, and another one as small a
maximum. -/
def Endpoint.Spares (z : Host B P F) (btl : B) (ep : Endpoint B E) : Prop :=
  (∀ b ∈ ep.send.items.map BmlBtl.btl, b = btl) ∨
    (∃ b ∈ ep.send.items.map BmlBtl.btl, b ≠ btl ∧ (z.btl b).latency ≤ (z.btl btl).latency) ∧
    ∃ b ∈ ep.send.items.map BmlBtl.btl, b ≠ btl ∧ (z.btl b).maxSendSize ≤ (z.btl btl).maxSendSize

/-- The processes that are deleted have no BTL, up to one whose first BTL fails. -/
def R2.Deletable (s : R2 B P E F) (fails : B → Bool) : List P → Prop
  | [] => True
  | p :: procs => ∃ ep, s.bml p = some ep ∧
      ((ep.send.items = [] ∧ p ∉ procs ∧ s.Deletable fails procs) ∨
        ∃ item items, ep.eager.items = item :: items ∧ fails item.btl = true)

def Session.Careful (z : Host B P F) (s : Session B P E F) : Call B P E → Prop
  | .addProcs answer procs => (s.r2.newProcs procs).Nodup ∧ ∀ p ∈ s.r2.newProcs procs, ∀ b b',
      z.Greatest (s.r2.reachedBy answer p) b → z.Greatest (s.r2.reachedBy answer p) b' →
        ((z.btl b).bandwidth = 0 ↔ (z.btl b').bandwidth = 0)
  | .delBtl btl => s.r2.initialized.length = 2 ∨
      (∀ b, s.r2.InUse b → b ≠ btl → (z.btl btl).progress ≠ none → (z.btl b).progress ≠ (z.btl btl).progress) ∧
      ∀ p ep, s.r2.bml p = some ep → btl ∈ ep.send.items.map BmlBtl.btl → ep.Spares z btl
  | .delProcs fails procs => s.r2.Deletable fails (procs.filter fun p => s.r2.refs p = 1)
  | _ => True

end OpenMPI.Bml
