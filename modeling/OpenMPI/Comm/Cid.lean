import OpenMPI.Class.PointerArray
import OpenMPI.Lib.Collective

/-!
# The id of a new communicator

`ompi_comm_nextcid` in every process: each one reserves the lowest id that is free in its own table,
a reduction with `MPI_MAX` gives the id that all of them try, and one with `MPI_MIN` tells whether all
of them could have it.  The processes meet in the reductions only.

A pointer to a communicator is a value of any type.  The call is the only one that is registered, so
`ompi_comm_lowest_cid` is its own communicator's, and there is memory for the tables.
-/

namespace OpenMPI.Comm

open Class Lib

variable {α : Type}

inductive Op
  | max
  | min
  deriving DecidableEq, Repr

inductive Place
  | max
  | min
  | done
  deriving DecidableEq, Repr

/-- The arguments and the variables of `ompi_comm_nextcid`, the table of communicators and what is set
in the new one; `pmlMaxContextid` is that of the process's PML. -/
structure Process (α : Type) where
  comm : α
  newcomm : α
  pmlMaxContextid : ℤ
  table : PointerArray α
  place : Place
  start : ℤ
  nextlocalCid : ℤ
  nextcid : ℤ
  response : ℤ
  cContextid : Option ℤ
  cFToCIndex : Option ℤ
  deriving DecidableEq, Repr

/-- The first id from `i` on, of so many, that is taken by the call, and the table afterwards. -/
def reserve (comm : α) : ℕ → ℤ → PointerArray α → Option (Option ℤ × PointerArray α)
  | 0, _, t => some (none, t)
  | n + 1, i, t =>
    (t.testAndSetItem i comm true).bind fun (flag, t) =>
      if flag then some (some i, t) else reserve comm n (i + 1) t

namespace Process

/-- The loop over the ids up to the first reduction; `nextlocal_cid` stays what it was where no id is
free. -/
def search (p : Process α) : Option (Process α) :=
  (reserve p.comm (p.pmlMaxContextid - p.start).toNat p.start p.table).map fun (cid, t) =>
    { p with table := t, nextlocalCid := cid.getD p.nextlocalCid, place := .max }

def respond (p : Process α) (nextcid : ℤ) : Option (Process α) :=
  let p := { p with nextcid, place := .min }
  if nextcid = p.nextlocalCid then some { p with response := 1 }
  else
    (p.table.setItem p.nextlocalCid none true).bind fun (_, t) =>
      (t.testAndSetItem nextcid p.comm true).map fun (flag, t) =>
        { p with table := t, response := if flag then 1 else 0 }

/-- From the second reduction on: the end of the call or the next round. -/
def conclude (p : Process α) (glresponse : ℤ) : Option (Process α) :=
  if glresponse = 1 then
    (p.table.setItem p.nextcid (some p.newcomm) true).map fun (_, t) =>
      { p with
        table := t
        cContextid := some p.nextcid
        cFToCIndex := some p.nextcid
        place := .done }
  else if glresponse = 0 then
    (if p.response = 1 then (p.table.setItem p.nextcid none true).map Prod.snd
      else some p.table).bind fun t =>
        search { p with table := t, start := p.nextcid + 1 }
  else p.search

def offer (p : Process α) : Option (Op × ℤ) :=
  match p.place with
  | .max => some (.max, p.nextlocalCid)
  | .min => some (.min, p.response)
  | .done => none

def resume (p : Process α) (result : ℤ) : Option (Process α) :=
  match p.place with
  | .max => p.respond result
  | .min => p.conclude result
  | .done => some p

end Process

/-- The processes; one that used a table in a way that is not defined is none. -/
def process : Party (Option (Process α)) Op ℤ where
  offer p := p.bind Process.offer
  resume p result := p.bind (Process.resume · result)

/-- What a process starts the call with; the last three are what the variables happen to be. -/
structure Setting (α : Type) where
  comm : α
  newcomm : α
  pmlMaxContextid : ℤ
  table : PointerArray α
  nextlocalCid : ℤ
  nextcid : ℤ
  response : ℤ

def Setting.begin (s : Setting α) : Option (Process α) :=
  Process.search {
    comm := s.comm
    newcomm := s.newcomm
    pmlMaxContextid := s.pmlMaxContextid
    table := s.table
    place := .max
    start := s.table.lowestFree
    nextlocalCid := s.nextlocalCid
    nextcid := s.nextcid
    response := s.response
    cContextid := none
    cFToCIndex := none }

section Reduce

open Finset

variable {P : Type}

def reduce (s : Finset P) (hs : s.Nonempty) (o : Op) (values : P → ℤ) : ℤ :=
  match o with
  | .max => s.sup' hs values
  | .min => s.inf' hs values

def combine : Op → ℤ → ℤ → ℤ
  | .max, a, b => max a b
  | .min, a, b => min a b

variable [Fintype P] [DecidableEq P]

def intraNextcid [Nonempty P] (s : P → Setting α) :
    System (Net P (Option (Process α)) ℤ) (Move P) :=
  intra process (reduce univ univ_nonempty) fun p => (s p).begin

/-- The two groups of an inter-communicator, with their processes of rank 0. -/
structure Split (P : Type) where
  group : P → Bool
  leader : Bool → P
  leader_mem : ∀ g, group (leader g) = g

omit [DecidableEq P] in
theorem Split.nonempty (S : Split P) (g : Bool) : Finset.Nonempty {p | S.group p = g} :=
  ⟨S.leader g, by simp [S.leader_mem g]⟩

def Split.groups (S : Split P) : Groups P Op ℤ where
  group := S.group
  leader := S.leader
  reduce o g values := Comm.reduce {p | S.group p = g} (S.nonempty g) o values
  combine := combine
  leader_mem := S.leader_mem
  reduce_congr o g values values' h := by
    cases o
    · exact sup'_congr (S.nonempty g) rfl fun p hp => h p (mem_filter.mp hp).2
    · exact inf'_congr (S.nonempty g) rfl fun p hp => h p (mem_filter.mp hp).2
  combine_comm o a b := by
    cases o
    · exact max_comm a b
    · exact min_comm a b

def interNextcid (S : Split P) (s : P → Setting α) :
    System (InterNet P (Option (Process α)) ℤ) (InterMove P) :=
  inter process S.groups fun p => (s p).begin

end Reduce

/-- A process has finished, with the id and with its table as it was but for the id's slot. -/
def Finished (s : Setting α) (cid : ℤ) (p : Process α) : Prop :=
  p.cContextid = some cid ∧ p.cFToCIndex = some cid ∧
    p.table.getItem cid = some s.newcomm ∧ ∀ i, i ≠ cid → p.table.getItem i = s.table.getItem i

/-- No process has done what is not defined, and those that are done have the same id. -/
def Agreed {P : Type} (s : P → Setting α) (cid : ℤ) (state : P → Option (Process α)) : Prop :=
  ∀ p, ∃ q, state p = some q ∧ (q.place = .done → Finished (s p) cid q)

def AllDone {P : Type} (s : P → Setting α) (cid : ℤ) (state : P → Option (Process α)) : Prop :=
  ∀ p, ∃ q, state p = some q ∧ q.place = .done ∧ Finished (s p) cid q

/-- There is an id, free in all the tables, on which all runs agree; none is longer than a bound, and
none stops before all the processes have finished. -/
def Agrees {P ν ε : Type} (s : P → Setting α) (S : System ν ε) (state : ν → P → Option (Process α))
    (start : ν) : Prop :=
  ∃ cid bound, (∀ p, (s p).table.getItem cid = none) ∧ ∀ es n, S.Run start es n →
    Agreed s cid (state n) ∧ es.length ≤ bound ∧ (AllDone s cid (state n) ∨ ∃ e n', S.step n e n')

end OpenMPI.Comm
