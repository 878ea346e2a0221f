import Mathlib.Algebra.Order.Ring.Int
import Mathlib.Data.List.Nodup
import OpenMPI.Lib.Run

/-!
# Round-robin mapping

`orte_rmaps_base_map_byslot` and `orte_rmaps_base_map_bynode`, as the round-robin component calls them
for one application after the other.  Nodes are named by pointers of type `ν`.
-/

namespace OpenMPI.Rmaps.RoundRobin

variable {ν : Type*} [DecidableEq ν]

structure Slots where
  slots : ℕ
  slotsMax : ℕ
  slotsInuse : ℕ

structure Map where
  bynode : Bool
  cpusPerRank : ℕ
  npernode : ℕ
  oversubscribe : Bool

def Within (map : Map) (node : Slots) : Prop :=
  (node.slotsMax ≠ 0 → node.slotsInuse ≤ node.slotsMax) ∧
    (map.oversubscribe = false → node.slotsInuse ≤ node.slots)

/-- An application, with the nodes and their `slots_alloc` as its hostfiles leave them. -/
structure App (ν : Type*) where
  numProcs : ℕ
  nodes : List ν
  slotsAlloc : ν → ℕ
  nodup : nodes.Nodup

/-- The nodes, and the processes of the job, each with its node and its vpid. -/
structure Job (ν : Type*) where
  node : ν → Slots
  procs : List (ν × ℕ)
  numProcs : ℕ
  bookmark : Option ν

inductive Rc
  | success
  | errSilent
  deriving DecidableEq, Repr

/-- The loop of `orte_rmaps_base_get_target_nodes` that removes the nodes at max usage. -/
def getTargetNodes (s : Job ν) (app : App ν) : List ν :=
  app.nodes.filter fun n => ¬ (0 ≠ (s.node n).slotsMax ∧ (s.node n).slotsInuse > (s.node n).slotsMax)

def numSlots (s : Job ν) (app : App ν) : ℕ := ((getTargetNodes s app).map app.slotsAlloc).sum

/-- `opal_list_get_next`, around the end of the list. -/
def getNext (l : List ν) (cur : ν) : ν := (l.drop (l.idxOf cur + 1)).headD (l.headD cur)

def overload (s : Job ν) (app : App ν) (n : ν) : ℤ :=
  (s.node n).slotsInuse - app.slotsAlloc n

/-- The way down the list: the first node that would not be oversubscribed, else the least overloaded. -/
def lightest (s : Job ν) (app : App ν) : (ndmin : ν) → List ν → ν
  | ndmin, [] => ndmin
  | ndmin, nd1 :: l =>
    if (s.node nd1).slotsInuse < app.slotsAlloc nd1 then nd1
    else lightest s app (if overload s app nd1 ≤ overload s app ndmin then nd1 else ndmin) l

def bookmarked (s : Job ν) (l : List ν) (first : ν) : ν :=
  match s.bookmark with
  | some n => if n ∈ l then n else first
  | none => first

/-- `none` if there are no nodes. -/
def getStartingPoint (s : Job ν) (app : App ν) (l : List ν) : Option ν :=
  l.head?.map fun first =>
    let cur := bookmarked s l first
    if app.slotsAlloc cur ≤ (s.node cur).slotsInuse then
      lightest s app cur (l.drop (l.idxOf cur + 1) ++ l.take (l.idxOf cur))
    else cur

/-- The state of a mapper's loop: `start` is the next vpid. -/
structure Round (ν : Type*) where
  node : ν → Slots
  nodeList : List ν
  procs : List (ν × ℕ)
  start : ℕ

def fullyUsed (map : Map) (node : Slots) : Bool :=
  (0 ≠ node.slotsMax ∧ node.slotsMax ≤ node.slotsInuse) ∨
    (¬ map.oversubscribe ∧ node.slots ≤ node.slotsInuse)

/-- `orte_rmaps_base_claim_slot`, with the vpid that the mappers assign after it, and whether the node
is fully used. -/
def claimSlot (map : Map) (r : Round ν) (n : ν) : Round ν × Bool :=
  let node := { r.node n with slotsInuse := (r.node n).slotsInuse + map.cpusPerRank }
  let r' : Round ν :=
    { node := Function.update r.node n node
      nodeList := r.nodeList
      procs := r.procs ++ [(n, r.start)]
      start := r.start + 1 }
  if fullyUsed map node then ({ r' with nodeList := r'.nodeList.erase n }, true) else (r', false)

def mapBynode (map : Map) : (left : ℕ) → Round ν → (cur : ν) → Rc × Round ν
  | 0, r, _ => (.success, r)
  | left + 1, r, cur =>
    if r.nodeList = [] then (.errSilent, r)
    else
      -- the next node is looked up before the slot is claimed
      let next := getNext r.nodeList cur
      mapBynode map left (claimSlot map r cur).1 next

def numProcsToAssign (map : Map) (slotsAlloc : ℕ) (node : Slots) : ℕ :=
  if 0 < map.npernode then map.npernode
  else if slotsAlloc ≤ node.slotsInuse ∨ node.slotsInuse = 0 then
    if slotsAlloc = 0 then 1
    else if slotsAlloc / map.cpusPerRank = 0 then 1
    else slotsAlloc / map.cpusPerRank
  else if (slotsAlloc - node.slotsInuse) / map.cpusPerRank = 0 then 1
  else (slotsAlloc - node.slotsInuse) / map.cpusPerRank

/-- The inner loop, with what is left to be mapped after it. -/
def bite (map : Map) (n : ν) : (numProcsToAssign left : ℕ) → Round ν → Round ν × ℕ
  | 0, left, r => (r, left)
  | i + 1, left, r =>
    let (r', full) := claimSlot map r n
    if left - 1 = 0 ∨ full then (r', left - 1) else bite map n i (left - 1) r'

/-- The last node is for the bookmark.  The inner loop ends with all of its processes assigned or with
the node fully used, so the way goes on to the next node; `none` if it does not end within `fuel` turns. -/
def mapByslot (map : Map) (slotsAlloc : ν → ℕ) :
    (fuel left : ℕ) → Round ν → (cur : ν) → Option (Rc × Round ν × ν)
  | 0, left, r, cur => if left = 0 then some (.success, r, cur) else none
  | fuel + 1, left, r, cur =>
    if left = 0 then some (.success, r, cur)
    else if r.nodeList = [] then some (.errSilent, r, cur)
    else
      let next := getNext r.nodeList cur
      let (r', left') := bite map cur (numProcsToAssign map (slotsAlloc cur) (r.node cur)) left r
      if left' = 0 then some (.success, r', cur)
      else mapByslot map slotsAlloc fuel left' r' next

def numWanted (s : Job ν) (app : App ν) : ℕ := if app.numProcs = 0 then numSlots s app else app.numProcs

/-- The round of one application: by node the bookmark is left alone. -/
def mapNodes (map : Map) (s : Job ν) (app : App ν) (cur : ν) : Option (Rc × Round ν × Option ν) :=
  let r := ⟨s.node, getTargetNodes s app, s.procs, s.numProcs⟩
  if map.bynode then
    let (rc, r) := mapBynode map (numWanted s app) r cur
    some (rc, r, s.bookmark)
  else
    (mapByslot map app.slotsAlloc (numWanted s app) (numWanted s app) r cur).map fun (rc, r, cur) =>
      (rc, r, some cur)

/-- The body of the loop over the applications in `orte_rmaps_rr_map`. -/
def mapApp (map : Map) (numApps : ℕ) (s : Job ν) (app : App ν) : Option (Rc × Job ν) :=
  if app.numProcs = 0 ∧ 1 < numApps then some (.errSilent, s)
  else if numSlots s app = 0 then some (.errSilent, s)
  else
    (getStartingPoint s app (getTargetNodes s app)).bind fun cur =>
      (mapNodes map s app cur).map fun (rc, r, bookmark) =>
        match rc with
        | .success => (.success, ⟨r.node, r.procs, s.numProcs + numWanted s app, bookmark⟩)
        | .errSilent => (.errSilent, ⟨r.node, r.procs, s.numProcs, s.bookmark⟩)

/-- The applications of a job, mapped one after the other as long as that succeeds. -/
def mapping (map : Map) (numApps : ℕ) : Lib.System (Job ν) (App ν) where
  init s := s.procs = [] ∧ s.numProcs = 0
  step s app t := mapApp map numApps s app = some (.success, t)

end OpenMPI.Rmaps.RoundRobin
