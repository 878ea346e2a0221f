import Mathlib.Data.List.Basic

/-!
# The ranks of a job

`orte_rmaps_base_compute_vpids`.  Processes are named by pointers of type `π`; the arrays of pointers
may have holes.
-/

namespace OpenMPI.Rmaps

variable {π ι : Type*} [DecidableEq π] [DecidableEq ι]

/-- `map->nodes`, each node with its `procs`, of this job and of others. -/
abbrev Nodes (π : Type*) := List (Option (List (Option π)))

structure Policy where
  byslot : Bool
  bysocket : Bool
  byboard : Bool
  bynode : Bool

structure JobMap (π ι : Type*) where
  policy : Policy
  nodes : Nodes π
  numNodes : ℕ
  jobid : ι
  numProcs : ℕ

/-- `proc->name.vpid`, where `none` is `ORTE_VPID_INVALID`, and `jdata->procs`. -/
structure Vpids (π : Type*) where
  vpid : π → Option ℕ
  procs : ℕ → Option π

/-- A loop over the processes that are there, each with the index of its node. -/
def eachProc {σ : Type*} (nodes : Nodes π) (body : σ → ℕ → π → Option σ) (s : σ) : Option σ :=
  nodes.zipIdx.foldlM (fun s (node, i) =>
    match node with
    | none => some s
    | some procs => procs.foldlM (fun s proc =>
        match proc with
        | none => some s
        | some proc => body s i proc) s) s

/-- The next free vpid, by slot: `num_procs` if there is none. -/
def nextVpid (procs : ℕ → Option π) (numProcs : ℕ) : ℕ :=
  ((List.range numProcs).find? fun v => (procs v).isNone).getD numProcs

/-- The next free vpid, by node: `none` if it is not met within `fuel` steps. -/
def seekVpid (procs : ℕ → Option π) (numNodes numProcs : ℕ) : (fuel vpid : ℕ) → Option ℕ
  | 0, _ => none
  | fuel + 1, vpid =>
    if procs vpid = none then some vpid
    else
      let vpid := vpid + numNodes
      seekVpid procs numNodes numProcs fuel (if numProcs ≤ vpid then vpid - numProcs else vpid)

/-- The process is put into `jdata->procs`, if the place of its vpid is free. -/
def setProc (s : Vpids π) (proc : π) : Vpids π :=
  match s.vpid proc with
  | none => s
  | some v => if s.procs v = none then { s with procs := Function.update s.procs v (some proc) } else s

/-- What the loops do with a process; `find` finds a vpid for one that has none. -/
def placeProc (jobidOf : π → ι) (jobid : ι) (find : (ℕ → Option π) → ℕ → Option ℕ) (s : Vpids π) (i : ℕ)
    (proc : π) : Option (Vpids π) :=
  if jobidOf proc ≠ jobid then some s
  else if s.vpid proc = none then
    (find s.procs i).map fun v =>
      setProc { s with vpid := Function.update s.vpid proc (some v) } proc
  else some (setProc s proc)

inductive Error
  | notImplemented
  deriving DecidableEq, Repr

/-- `none` if a search does not end within `fuel` steps. -/
def computeVpids (fuel : ℕ) (jobidOf : π → ι) (map : JobMap π ι) (s : Vpids π) :
    Option (Except Error (Vpids π)) :=
  if map.policy.byslot ∨ map.policy.bysocket ∨ map.policy.byboard then
    (eachProc map.nodes (placeProc jobidOf map.jobid fun procs _ =>
      some (nextVpid procs map.numProcs)) s).map .ok
  else if map.policy.bynode then
    (eachProc map.nodes (placeProc jobidOf map.jobid fun procs i =>
      seekVpid procs map.numNodes map.numProcs fuel i) s).map .ok
  else some (.error .notImplemented)

end OpenMPI.Rmaps
