import Mathlib.Data.Int.Notation
import Mathlib.Data.List.Basic

/-!
# Completion of requests

`req_wait.c` and `req_test.c`.  A call that waits goes on in a state in which what it waits for holds; in
any other it has no outcome.  `req_free` of a request that is complete returns `OMPI_SUCCESS`.
-/

namespace OpenMPI.Completion

structure Status where
  source : ℤ
  tag : ℤ
  error : ℤ
  count : ℤ
  cancelled : Bool
  deriving DecidableEq

def success : ℤ := 0

def errInStatus : ℤ := 18

/-- `ompi_status_empty`: from `MPI_ANY_SOURCE`, with `MPI_ANY_TAG`. -/
def statusEmpty : Status := ⟨-1, -1, success, 0, false⟩

/-- `ompi_request_t`.  A generalised request comes with what its query function makes of its status. -/
inductive Request
  | null
  | ordinary (complete : Bool) (status : Status)
  | persistent (active complete : Bool) (status : Status)
  | generalised (complete : Bool) (status : Status) (query : Status → Status)

namespace Request

def isGen : Request → Bool
  | generalised .. => true
  | _ => false

def complete : Request → Bool
  | null => true
  | ordinary complete _ | persistent _ complete _ | generalised complete .. => complete

def inactive : Request → Bool
  | null => true
  | persistent active .. => !active
  | _ => false

def isPersistent : Request → Bool
  | persistent .. => true
  | _ => false

/-- `req_status`; that of `ompi_request_null` is from `MPI_PROC_NULL`. -/
def status : Request → Status
  | null => ⟨-2, -1, success, 0, false⟩
  | ordinary _ status | persistent _ _ status | generalised _ status _ => status

def invokeQuery : Request → Request
  | generalised complete status query => generalised complete (query status) query
  | r => r

def deactivate : Request → Request
  | persistent _ complete status => persistent false complete status
  | r => r

def done (r : Request) : Bool := !r.inactive && r.complete

end Request

/-- What a call has done: the requests as they are, those whose query functions it called, the statuses that
it wrote, and what it will return. -/
structure Pass where
  requests : List Request
  queried : List ℕ
  statuses : List Status
  rc : ℤ

/-- Which requests a call completes; `undefined` is `MPI_UNDEFINED`. -/
inductive Done
  | nothing
  | undefined
  | places (is : List ℕ)
  deriving DecidableEq

namespace Pass

def start (requests : List Request) : Pass := ⟨requests, [], [], success⟩

variable (p : Pass) (i : ℕ)

def request : Request := p.requests.getD i .null

def set (r : Request) : Pass := { p with requests := p.requests.set i r }

def query : Pass :=
  if (p.request i).isGen then { p.set i (p.request i).invokeQuery with queried := p.queried ++ [i] } else p

def deactivate : Pass := p.set i (p.request i).deactivate

def free : Pass := p.set i .null

def report (status : Status) : Pass := { p with statuses := p.statuses ++ [status] }

def reportOne (requested : Bool) (old : Status) : Pass :=
  if requested then p.report { (p.request i).status with error := old.error } else p

end Pass

variable (requested : Bool) (old : Status)

def wait (req : Request) : Option (Done × Pass) :=
  if req.complete = false then none
  else
    let p := ((Pass.start [req]).query 0).reportOne 0 requested old
    if (p.request 0).isPersistent then
      if (p.request 0).inactive then some (.places [0], { p with rc := success })
      else some (.places [0], { p.deactivate 0 with rc := (p.request 0).status.error })
    else if (p.request 0).status.error ≠ success then
      some (.places [0], { p with rc := (p.request 0).status.error })
    else some (.places [0], { p.free 0 with rc := success })

def testOnce (request : Request) : Option (Done × Pass) :=
  let p := Pass.start [request]
  if request.inactive then some (.places [0], if requested then p.report statusEmpty else p)
  else if request.complete then
    let p := (p.query 0).reportOne 0 requested old
    if (p.request 0).isPersistent then
      some (.places [0], { p.deactivate 0 with rc := (p.request 0).status.error })
    else if (p.request 0).status.error ≠ success then
      some (.places [0], { p with rc := (p.request 0).status.error })
    else some (.places [0], { p.free 0 with rc := success })
  else none

/-- `ompi_request_default_test`, with what `opal_progress` makes of the request. -/
def test (progress : ℕ → Request → Request) (request : Request) : Done × Pass :=
  match testOnce requested old request with
  | some out => out
  | none =>
    let request := progress 0 request
    match testOnce requested old request with
    | some out => out
    | none => (.nothing, Pass.start [request])

/-- The loop up to the first request that is complete, and the number of null and inactive ones before. -/
def scan : List Request → (i inactive : ℕ) → Option ℕ × ℕ
  | [], _, inactive => (none, inactive)
  | request :: requests, i, inactive =>
    if request.inactive then scan requests (i + 1) (inactive + 1)
    else if request.complete then (some i, inactive)
    else scan requests (i + 1) inactive

def waitAny (requests : List Request) : Option (Done × Pass) :=
  let p := Pass.start requests
  let (completed, inactive) := scan requests 0 0
  if inactive = requests.length then some (.undefined, if requested then p.report statusEmpty else p)
  else
    completed.map fun i =>
      let p := (p.query i).reportOne i requested old
      let rc := (p.request i).status.error
      if (p.request i).isPersistent then (.places [i], { p.deactivate i with rc := rc })
      else if rc = success then (.places [i], { p.free i with rc := success })
      else (.places [i], { p with rc := rc })

def testAny (progress : ℕ → Request → Request) (requests : List Request) : Done × Pass :=
  let p := Pass.start requests
  match scan requests 0 0 with
  | (some i, _) =>
    let p := (p.query i).reportOne i requested old
    if (p.request i).isPersistent then (.places [i], { p.deactivate i with rc := success })
    else if (p.request i).status.error ≠ success then
      (.places [i], { p with rc := (p.request i).status.error })
    else (.places [i], { p.free i with rc := success })
  | (none, inactive) =>
    if inactive ≠ requests.length then (.nothing, Pass.start (requests.mapIdx progress))
    else (.undefined, if requested then p.report statusEmpty else p)

def waitAllStatus (p : Pass) (i : ℕ) : Pass :=
  let p := p.query i
  let status := (p.request i).status
  let p := p.report status
  let p :=
    if (p.request i).isPersistent then p.deactivate i else if status.error = success then p.free i else p
  if status.error ≠ success then { p with rc := errInStatus } else p

def waitAllIgnore (p : Pass) (i : ℕ) : Pass :=
  let p := p.query i
  let rc := if (p.request i).inactive then statusEmpty.error else (p.request i).status.error
  let p := if (p.request i).isPersistent then p.deactivate i else if rc = success then p.free i else p
  if rc ≠ success then { p with rc := rc } else p

def waitAll (requests : List Request) : Option (Done × Pass) :=
  if requests.all Request.complete then
    let is := List.range requests.length
    some (.places is, is.foldl (if requested then waitAllStatus else waitAllIgnore) (Pass.start requests))
  else none

def testAllStatus (p : Pass) (i : ℕ) : Pass :=
  if (p.request i).inactive then p.report (p.request i).status
  else
    let p := p.query i
    let p := p.report (p.request i).status
    if (p.request i).isPersistent then p.deactivate i
    else if (p.request i).status.error = success then p.free i
    else { p with rc := errInStatus }

def testAllIgnore (p : Pass) (i : ℕ) : Pass :=
  if (p.request i).inactive then p
  else
    let p := p.query i
    if (p.request i).isPersistent then p.deactivate i
    else if (p.request i).status.error = success then p.free i
    else { p with rc := errInStatus }

def testAll (progress : ℕ → Request → Request) (requests : List Request) : Done × Pass :=
  if requests.all fun r => r.inactive || r.complete then
    let is := List.range requests.length
    (.places is, is.foldl (if requested then testAllStatus else testAllIgnore) (Pass.start requests))
  else (.nothing, Pass.start (requests.mapIdx progress))

/-- The index array is compressed in place: the places whose entry is not 0 move to its front. -/
def compress (indices : List ℕ) : List ℕ × ℕ :=
  (List.range indices.length).foldl
    (fun (indices, n) i => if indices.getD i 0 ≠ 0 then (indices.set n i, n + 1) else (indices, n)) (indices, 0)

def waitSomeOne (p : Pass) (i : ℕ) : Pass :=
  let p := p.query i
  let p := if requested then p.report (p.request i).status else p
  let error := (p.request i).status.error
  let p := if error ≠ success then { p with rc := errInStatus } else p
  if (p.request i).isPersistent then p.deactivate i else if error = success then p.free i else p

def waitSome (requests : List Request) : Option (Done × Pass) :=
  let p := Pass.start requests
  if requests.countP Request.inactive = requests.length then some (.undefined, p)
  else if requests.countP Request.done > 0 then
    let (indices, n) := compress (requests.map fun r => if r.done then 1 else 0)
    some (.places (indices.take n), (indices.take n).foldl (waitSomeOne requested) p)
  else none

def testSomeOne (p : Pass) (i : ℕ) : Pass :=
  let p := if requested then (let p := p.query i; p.report (p.request i).status) else p
  let error := (p.request i).status.error
  let p := if error ≠ success then { p with rc := errInStatus } else p
  if (p.request i).isPersistent then p.deactivate i else if error = success then p.free i else p

/-- `ompi_request_default_test_some`; an `outcount` of 0 completes nothing. -/
def testSome (progress : ℕ → Request → Request) (requests : List Request) : Done × Pass :=
  let p := Pass.start requests
  let indices := (List.range requests.length).filter fun i => (p.request i).done
  if requests.countP Request.inactive = requests.length then (.undefined, p)
  else if indices.length = 0 then (.nothing, Pass.start (requests.mapIdx progress))
  else (.places indices, indices.foldl (testSomeOne requested) p)

inductive Call
  | wait (req : Request)
  | test (request : Request)
  | waitAny (requests : List Request)
  | testAny (requests : List Request)
  | waitAll (requests : List Request)
  | testAll (requests : List Request)
  | waitSome (requests : List Request)
  | testSome (requests : List Request)

def run (progress : ℕ → Request → Request) : Call → Option (Done × Pass)
  | .wait req => wait requested old req
  | .test request => some (test requested old progress request)
  | .waitAny requests => waitAny requested old requests
  | .testAny requests => some (testAny requested old progress requests)
  | .waitAll requests => waitAll requested requests
  | .testAll requests => some (testAll requested progress requests)
  | .waitSome requests => waitSome requested requests
  | .testSome requests => some (testSome requested progress requests)

/-- What becomes of a request that a call completes. -/
def settle (r : Request) : Request :=
  if r.inactive then r
  else if r.isPersistent then r.invokeQuery.deactivate
  else if r.invokeQuery.status.error = success then .null
  else r.invokeQuery

def reported (r : Request) : Status := if r.inactive then statusEmpty else r.invokeQuery.status

/-- Two statuses agree; that of a single request need not have its error, which is returned. -/
def Agree (single : Bool) (s t : Status) : Prop := s = t ∨ (single ∧ s = { t with error := s.error })

/-- The requests at some places are completed as they should be, and no others. -/
structure Completes (rs : List Request) (is : List ℕ) (requested single : Bool) (p : Pass) : Prop where
  requests : p.requests = rs.mapIdx fun i r => if i ∈ is then settle r else r
  queried : p.queried = is.filter fun i => (rs.getD i .null).isGen
  statuses : requested → List.Forall₂ (Agree single) p.statuses (is.map fun i => reported (rs.getD i .null))
  rc : p.rc = success ↔ ∀ i ∈ is, (reported (rs.getD i .null)).error = success

def Settled (requests : List Request) (p : Pass) : Prop :=
  p.requests = requests ∧ p.queried = [] ∧ p.rc = success

/-- The rules for the requests of a call as they were, or as `opal_progress` left them: one or all of them
are complete, or any one or all that are.  A call that finds less waits, or leaves the requests in the state
`left`. -/
def RulesAll (requests left : List Request) (waits requested single : Bool) : Option (Done × Pass) → Prop
  | none => waits ∧ ¬∀ r ∈ requests, r.inactive ∨ r.complete
  | some (.places is, p) => (∀ r ∈ requests, r.inactive ∨ r.complete) ∧ is = List.range requests.length ∧
    Completes requests is requested single p
  | some (.nothing, p) => ¬waits ∧ (¬∀ r ∈ requests, r.inactive ∨ r.complete) ∧ Settled left p
  | some (.undefined, _) => False

def RulesAny (requests left : List Request) (waits requested : Bool) : Option (Done × Pass) → Prop
  | none => waits ∧ (∃ r ∈ requests, ¬r.inactive) ∧ ∀ r ∈ requests, r.done = false
  | some (.places is, p) => ∃ i, is = [i] ∧ (requests.getD i .null).done ∧ Completes requests [i] requested true p
  | some (.nothing, p) => ¬waits ∧ (∃ r ∈ requests, ¬r.inactive) ∧ (∀ r ∈ requests, r.done = false) ∧ Settled left p
  | some (.undefined, p) => (∀ r ∈ requests, r.inactive) ∧ Settled requests p ∧ (requested → p.statuses = [statusEmpty])

def RulesSome (requests left : List Request) (waits requested : Bool) : Option (Done × Pass) → Prop
  | none => waits ∧ (∃ r ∈ requests, ¬r.inactive) ∧ ∀ r ∈ requests, r.done = false
  | some (.places is, p) => (∃ r ∈ requests, r.done) ∧
    is = (List.range requests.length).filter (fun i => (requests.getD i .null).done) ∧
    Completes requests is requested false p
  | some (.nothing, p) => ¬waits ∧ (∃ r ∈ requests, ¬r.inactive) ∧ (∀ r ∈ requests, r.done = false) ∧ Settled left p
  | some (.undefined, p) => (∀ r ∈ requests, r.inactive) ∧ Settled requests p

/-- The rules that all eight calls share. -/
def Rules (progress : ℕ → Request → Request) (requested : Bool) : Call → Option (Done × Pass) → Prop
  | .wait req => RulesAll [req] [req] true requested true
  | .test request =>
    let request := if request.inactive || request.complete then request else progress 0 request
    RulesAll [request] [request] false requested true
  | .waitAny requests => RulesAny requests requests true requested
  | .testAny requests => RulesAny requests (requests.mapIdx progress) false requested
  | .waitAll requests => RulesAll requests requests true requested false
  | .testAll requests => RulesAll requests (requests.mapIdx progress) false requested false
  | .waitSome requests => RulesSome requests requests true requested
  | .testSome requests => RulesSome requests (requests.mapIdx progress) false requested

def Keeps (requested : Bool) : Call → Prop
  | .wait req => req.inactive → req.complete ∧ (requested → Agree true req.status statusEmpty)
  | .waitAll requests => (∀ r ∈ requests, r.inactive ∨ r.complete) →
    ∀ r ∈ requests, r.inactive → r.complete ∧ (requested → r.status = statusEmpty)
  | .testAll requests => (∀ r ∈ requests, r.inactive ∨ r.complete) →
    (requested → ∀ r ∈ requests, r.inactive → r.status = statusEmpty) ∧
      ((∃ r ∈ requests, (reported r).error ≠ success) →
        ∃ r ∈ requests, r.isPersistent = false ∧ (reported r).error ≠ success)
  | .testAny requests => ∀ i, (scan requests 0 0).1 = some i → (requests.getD i .null).isPersistent →
    (requests.getD i .null).status.error = success
  | .testSome requests => requested ∨ ∀ r ∈ requests, r.done → r.isGen = false
  | .test _ | .waitAny _ | .waitSome _ => True

end OpenMPI.Completion
