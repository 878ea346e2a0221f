import OpenMPI.Class.HashTable

/-!
# The routing table

`update_route`, `delete_route` and `get_route` of the binomial routed component.  Exact names are in one hash table, jobs
and job families in another one.
-/

namespace OpenMPI.Routed

open Class (HashTable)

structure ProcessName where
  jobid : UInt32
  vpid : UInt32
  deriving DecidableEq

def invalid : UInt32 := 0xffffffff

def wildcard : UInt32 := 0xfffffffe

def nameInvalid : ProcessName := ⟨invalid, invalid⟩

def jobFamily (n : UInt32) : UInt32 := (n >>> 16) &&& 0x0000ffff

def hashName (name : ProcessName) : UInt64 := (name.jobid.toUInt64 <<< 32) + name.vpid.toUInt64

/-- `orte_dt_compare_name`: a wildcard is equal to anything. -/
def compareName (value1 value2 : ProcessName) : Bool :=
  (value1.jobid = wildcard || value2.jobid = wildcard || value1.jobid = value2.jobid) &&
    (value1.vpid = wildcard || value2.vpid = wildcard || value1.vpid = value2.vpid)

/-- `orte_process_info`, `ORTE_PROC_MY_NAME` and the names of its HNP and of its daemon. -/
structure ProcessInfo where
  hnp : Bool
  daemon : Bool
  tool : Bool
  myName : ProcessName
  myHnp : ProcessName
  myDaemon : ProcessName

def ProcessInfo.isApp (z : ProcessInfo) : Bool := !z.hnp && !z.daemon && !z.tool

def ProcessInfo.foreign (z : ProcessInfo) (jobid : UInt32) : Bool := jobFamily jobid ≠ jobFamily z.myName.jobid

structure RouteTable where
  peerList : HashTable ProcessName
  vpidWildcardList : HashTable ProcessName
  wildcardRoute : ProcessName

inductive Entry
  | peer (key : UInt64)
  | vpidWildcard (key : UInt32)
  deriving DecidableEq

inductive Ret
  | success
  | badParam
  | notSupported
  deriving DecidableEq

/-- The tests with which `update_route` and `delete_route` begin: the entry for the target, if there is anything to do. -/
def entryOf (z : ProcessInfo) (target : ProcessName) : Except Ret (Option Entry) :=
  if target.jobid = invalid ∨ target.vpid = invalid then .error .badParam
  else if z.isApp then .ok none
  else if z.foreign target.jobid then
    -- a daemon routes this by way of its HNP
    if z.daemon then .ok none else .ok (some (.vpidWildcard (jobFamily target.jobid)))
  else if target.jobid ≠ wildcard ∧ target.vpid = wildcard then .ok (some (.vpidWildcard target.jobid))
  else if target.jobid ≠ wildcard ∧ target.vpid ≠ wildcard then .ok (some (.peer (hashName target)))
  else .error .notSupported

namespace RouteTable

def get (t : RouteTable) : Entry → Option ProcessName
  | .peer key => t.peerList.getValue key.toNat
  | .vpidWildcard key => t.vpidWildcardList.getValue key.toNat

def set (t : RouteTable) (route : ProcessName) : Entry → RouteTable
  | .peer key => { t with peerList := t.peerList.setValue key.toNat route }
  | .vpidWildcard key => { t with vpidWildcardList := t.vpidWildcardList.setValue key.toNat route }

def remove (t : RouteTable) : Entry → RouteTable
  | .peer key => { t with peerList := t.peerList.removeValue key.toNat }
  | .vpidWildcard key => { t with vpidWildcardList := t.vpidWildcardList.removeValue key.toNat }

def updateRoute (z : ProcessInfo) (t : RouteTable) (target route : ProcessName) : Ret × RouteTable :=
  match entryOf z target with
  | .error rc => (rc, t)
  | .ok none => (.success, t)
  | .ok (some entry) => (.success, t.set route entry)

def deleteRoute (z : ProcessInfo) (t : RouteTable) (proc : ProcessName) : Ret × RouteTable :=
  match entryOf z proc with
  | .error rc => (rc, t)
  | .ok none => (.success, t)
  | .ok (some entry) => (.success, if (t.get entry).isSome then t.remove entry else t)

def getRoute (z : ProcessInfo) (t : RouteTable) (target : ProcessName) : ProcessName :=
  if target.jobid = invalid ∨ target.vpid = invalid then nameInvalid
  else if compareName z.myName target then target
  else if z.isApp then z.myDaemon
  else if z.foreign target.jobid then
    if z.daemon then z.myHnp
    else (t.get (.vpidWildcard (jobFamily target.jobid))).getD nameInvalid
  else match t.get (.peer (hashName target)) with
    | some route => route
    | none => (t.get (.vpidWildcard target.jobid)).getD t.wildcardRoute

end RouteTable

inductive Call
  | update (target route : ProcessName)
  | delete (proc : ProcessName)

def Call.target : Call → ProcessName
  | update target _ => target
  | delete proc => proc

def RouteTable.after (z : ProcessInfo) (wildcardRoute : ProcessName) : List Call → RouteTable
  | [] => ⟨.empty, .empty, wildcardRoute⟩
  | .update target route :: calls => (updateRoute z (after z wildcardRoute calls) target route).2
  | .delete proc :: calls => (deleteRoute z (after z wildcardRoute calls) proc).2

inductive Key
  | name (name : ProcessName)
  | job (jobid : UInt32)
  | family (family : UInt32)
  deriving DecidableEq

def keyOf (z : ProcessInfo) (target : ProcessName) : Option Key :=
  if target.jobid = invalid ∨ target.vpid = invalid then none
  else if z.foreign target.jobid then if z.daemon then none else some (.family (jobFamily target.jobid))
  else if target.jobid = wildcard then none
  else if target.vpid = wildcard then some (.job target.jobid)
  else some (.name target)

/-- The route that was last set and not deleted since. -/
def lastSet (z : ProcessInfo) (key : Key) : List Call → Option ProcessName
  | [] => none
  | .update target route :: calls => if keyOf z target = some key then some route else lastSet z key calls
  | .delete proc :: calls => if keyOf z proc = some key then none else lastSet z key calls

def routeTo (z : ProcessInfo) (default : ProcessName) (calls : List Call) (target : ProcessName) : ProcessName :=
  if z.foreign target.jobid then
    if z.daemon then z.myHnp else (lastSet z (.family (jobFamily target.jobid)) calls).getD nameInvalid
  else match lastSet z (.name target) calls with
    | some route => route
    | none => (lastSet z (.job target.jobid) calls).getD default

/-- Whether a route for the key can be the answer for the target. -/
def Key.Concerns (z : ProcessInfo) (target : ProcessName) : Key → Prop
  | name n => n = target
  | job jobid => jobid = target.jobid
  | family f => z.foreign target.jobid = true ∧ f = jobFamily target.jobid

/-- A call changes the answers for what it is about only. -/
def Separate (z : ProcessInfo) (default : ProcessName) (calls : List Call) (target : ProcessName) : Prop :=
  ∀ call : Call, (∀ key, keyOf z call.target = some key → ¬key.Concerns z target) →
    (RouteTable.after z default (call :: calls)).getRoute z target = (RouteTable.after z default calls).getRoute z target

end OpenMPI.Routed
