import Mathlib.Algebra.Ring.Nat
import Mathlib.Data.Finset.Card
import OpenMPI.Lib.Run

/-!
# Local and node ranks

`orte_rmaps_base_compute_local_ranks` and `orte_rmaps_base_update_local_ranks`.  Processes are named by
pointers of type `π`, nodes by `ν`, jobs by `ι`.
-/

namespace OpenMPI.Rmaps

variable {π ν ι : Type*} [DecidableEq π] [DecidableEq ν] [DecidableEq ι]

def rankInvalid : ℕ := 2 ^ 16 - 1

def vpidMax : ℕ := 2 ^ 32 - 1 - 2

def succRank (rank : ℕ) : ℕ := (rank + 1) % 2 ^ 16

structure Proc (ι : Type*) where
  jobid : ι
  vpid : ℕ
  localRank : ℕ
  nodeRank : ℕ
  deriving DecidableEq

structure Node (π : Type*) where
  procs : List (Option π)
  nextNodeRank : ℕ

structure Cluster (π ν ι : Type*) where
  proc : π → Proc ι
  node : ν → Node π

def Cluster.on (s : Cluster π ν ι) (n : ν) : List π := (s.node n).procs.filterMap id

def minVpid (proc : π → Proc ι) (wanted : Proc ι → Bool) (procs : List (Option π)) : Option π :=
  (procs.foldl (fun (minv, psave) p =>
    match p with
    | none => (minv, psave)
    | some p =>
      if wanted (proc p) ∧ (proc p).vpid < minv then ((proc p).vpid, some p) else (minv, psave))
    (vpidMax, none)).2

structure Ranking (π ι : Type*) where
  proc : π → Proc ι
  localRank : ℕ
  nextNodeRank : ℕ

def Ranking.setLocal (r : Ranking π ι) : Option π → Ranking π ι
  | none => r
  | some p => { r with
      proc := Function.update r.proc p { r.proc p with localRank := r.localRank }
      localRank := succRank r.localRank }

def Ranking.setNode (r : Ranking π ι) : Option π → Ranking π ι
  | none => r
  | some p => { r with
      proc := Function.update r.proc p { r.proc p with nodeRank := r.nextNodeRank }
      nextNodeRank := succRank r.nextNodeRank }

/-- The loop over `k`: at each process that is there, one local rank and one node rank are given. -/
def rankNode (job : ι) (procs : List (Option π)) : List (Option π) → Ranking π ι → Ranking π ι
  | [], r => r
  | none :: rest, r => rankNode job procs rest r
  | some _ :: rest, r =>
    let psave := minVpid r.proc (fun p => p.jobid = job ∧ p.localRank = rankInvalid) procs
    let psave2 := minVpid r.proc (fun p => p.nodeRank = rankInvalid) procs
    if psave = none ∧ psave2 = none then r
    else rankNode job procs rest ((r.setLocal psave).setNode psave2)

def rankOn (job : ι) (s : Cluster π ν ι) (n : ν) : Cluster π ν ι :=
  let r := rankNode job (s.node n).procs (s.node n).procs ⟨s.proc, 0, (s.node n).nextNodeRank⟩
  ⟨r.proc, Function.update s.node n { s.node n with nextNodeRank := r.nextNodeRank }⟩

def computeLocalRanks (job : ι) (nodes : List (Option ν)) (s : Cluster π ν ι) : Cluster π ν ι :=
  nodes.foldl (fun s node =>
    match node with
    | none => s
    | some n => rankOn job s n) s

/-- The `goto` loops: `none` if all numbers are in use, where they go on for ever. -/
def retry (inUse : ℕ → Bool) : (fuel rank : ℕ) → Option ℕ
  | 0, _ => none
  | fuel + 1, rank => if inUse rank then retry inUse fuel (succRank rank) else some rank

def updateLocalRanks (job : ι) (s : Cluster π ν ι) (oldnode newnode : ν) (newproc : π) :
    Option (Cluster π ν ι) :=
  if oldnode = newnode then some s
  else
    (retry (fun rank => (s.on newnode).any fun p => rank = (s.proc p).nodeRank) (2 ^ 16) 0).bind
      fun nodeRank =>
        let s := { s with
          proc := Function.update s.proc newproc { s.proc newproc with nodeRank := nodeRank } }
        (retry (fun rank => (s.on newnode).any fun p =>
          (s.proc p).jobid = job ∧ rank = (s.proc p).localRank) (2 ^ 16) 0).map fun localRank =>
            { s with proc := Function.update s.proc newproc { s.proc newproc with localRank := localRank } }

/-- New processes of a job have been put on the nodes of its map. -/
structure Mapped (job : ι) (nodes : List (Option ν)) (s placed : Cluster π ν ι) : Prop where
  distinct : (nodes.filterMap id).Nodup
  next : ∀ n, (placed.node n).nextNodeRank = (s.node n).nextNodeRank
  kept : ∀ n, ∀ p ∈ s.on n, p ∈ placed.on n ∧ placed.proc p = s.proc p
  nodup : ∀ n, (placed.on n).Nodup
  once : ∀ n m p, p ∈ placed.on n → p ∈ placed.on m → n = m
  new : ∀ n, ∀ p ∈ placed.on n, p ∉ s.on n → some n ∈ nodes ∧ (placed.proc p).jobid = job ∧
    (placed.proc p).vpid < vpidMax ∧ (placed.proc p).localRank = rankInvalid ∧
    (placed.proc p).nodeRank = rankInvalid
  vpid : ∀ n m, ∀ p ∈ placed.on n, ∀ q ∈ placed.on m, (placed.proc p).jobid = job →
    (placed.proc q).jobid = job → (placed.proc p).vpid = (placed.proc q).vpid → p = q

/-- A process has been taken from its node and put on another. -/
structure Moved (p : π) (oldnode newnode : ν) (s moved : Cluster π ν ι) : Prop where
  old : p ∈ s.on oldnode
  proc : moved.proc = s.proc
  next : ∀ n, (moved.node n).nextNodeRank = (s.node n).nextNodeRank
  nodup : ∀ n, (moved.on n).Nodup
  mem : ∀ n q, q ∈ moved.on n ↔ if q = p then n = newnode else q ∈ s.on n

/-- What happens to the nodes: `placed` is the table the job has been mapped into. -/
inductive Event (π ν ι : Type*)
  | map (job : ι) (nodes : List (Option ν)) (placed : Cluster π ν ι)
  | restart (p : π) (oldnode newnode : ν)

/-- The process may be moved before the ranks are updated or after. -/
def next (s : Cluster π ν ι) : Event π ν ι → Cluster π ν ι → Prop
  | .map job nodes placed, t => Mapped job nodes s placed ∧ t = computeLocalRanks job nodes placed
  | .restart p oldnode newnode, t =>
    let update := fun s => updateLocalRanks (s.proc p).jobid s oldnode newnode p
    (∃ moved, Moved p oldnode newnode s moved ∧ update moved = some t) ∨
      ∃ updated, update s = some updated ∧ Moved p oldnode newnode updated t

def ranks : Lib.System (Cluster π ν ι) (Event π ν ι) where
  init s := ∀ n, s.on n = [] ∧ (s.node n).nextNodeRank = 0
  step s e t := next s e t

end OpenMPI.Rmaps
