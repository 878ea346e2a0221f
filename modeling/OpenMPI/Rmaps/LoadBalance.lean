import OpenMPI.Rmaps.RoundRobin
import OpenMPI.Rmaps.Vpids

/-!
# Load-balanced mapping

`rmaps/load_balance`: so many processes on each node, board or socket, or the same number on all nodes.  Slots are
claimed for one application after the other, and ranks are computed after each.  What the other jobs have on the
nodes is left out.
-/

namespace OpenMPI.Rmaps.LoadBalance

open RoundRobin (Slots Map App getTargetNodes numSlots numWanted getStartingPoint getNext fullyUsed Within)

variable {ν : Type*} [DecidableEq ν]

/-- The settings, which are 0 if not given, and what is known of the nodes. -/
structure Config (ν : Type*) where
  map : Map
  policy : Policy
  npernode : ℕ
  nperboard : ℕ
  npersocket : ℕ
  boards : ν → ℕ
  socketsPerBoard : ν → ℕ

/-- A job: its processes are numbered as they were created, each with its node and `app_idx`.  `targets` are the nodes
that the applications could use. -/
structure Job (ν : Type*) where
  node : ν → Slots
  mapNodes : List ν
  procs : List (ν × ℕ)
  vpids : Vpids ℕ
  numProcs : ℕ
  bookmark : Option ν
  targets : List (List ν)

inductive Error
  | nodeFullyUsed
  | silent
  | notImplemented
  /-- A search does not end. -/
  | endless
  deriving DecidableEq, Repr

namespace Job

/-- What `orte_rmaps_base_get_target_nodes` and `orte_rmaps_base_get_starting_point` read. -/
def view (s : Job ν) : RoundRobin.Job ν := ⟨s.node, [], s.numProcs, s.bookmark⟩

def procsOn (s : Job ν) (n : ν) : List ℕ := (s.procs.zipIdx.filter fun x => x.1.1 = n).map Prod.snd

def jobMap (s : Job ν) (policy : Policy) : JobMap ℕ Unit :=
  ⟨policy, s.mapNodes.map fun n => some ((s.procsOn n).map some), s.mapNodes.length, (), s.numProcs⟩

def computeVpids (policy : Policy) (s : Job ν) : Except Error (Job ν) :=
  match Rmaps.computeVpids (s.procs.length + 1) (fun _ => ()) (s.jobMap policy) s.vpids with
  | some (.ok vpids) => .ok { s with vpids := vpids }
  | some (.error .notImplemented) => .error .notImplemented
  | none => .error .endless

/-- `orte_rmaps_base_claim_slot`: the node stays on the list.  The second result is `ORTE_ERR_NODE_FULLY_USED`. -/
def claimSlot (map : Map) (idx : ℕ) (s : Job ν) (n : ν) : Job ν × Bool :=
  let node := { s.node n with slotsInuse := (s.node n).slotsInuse + map.cpusPerRank }
  ({ s with
    node := Function.update s.node n node
    mapNodes := if n ∈ s.mapNodes then s.mapNodes else s.mapNodes ++ [n]
    procs := s.procs ++ [(n, idx)] }, fullyUsed map node)

end Job

/-- The innermost loop, with `left` turns left and `total_procs`.  A full node is an error before the last turn. -/
def claimLoop (map : Map) (idx np : ℕ) (n : ν) : (left : ℕ) → Job ν × ℕ → Except Error (Job ν × ℕ)
  | 0, r => .ok r
  | left + 1, (s, totalProcs) =>
    if totalProcs < np then
      let claimed := s.claimSlot map idx n
      if claimed.2 ∧ left ≠ 0 then .error .nodeFullyUsed
      else claimLoop map idx np n left (claimed.1, totalProcs + 1)
    else .ok (s, totalProcs)

/-- A loop over boards or sockets. -/
def partLoop (np : ℕ) (body : Job ν × ℕ → Except Error (Job ν × ℕ)) :
    (parts : ℕ) → Job ν × ℕ → Except Error (Job ν × ℕ)
  | 0, r => .ok r
  | parts + 1, r => if r.2 < np then body r >>= partLoop np body parts else .ok r

def npOf (app : App ν) : ℕ := if 0 < app.numProcs then app.numProcs else 2 ^ 31 - 1

def mapNper (policy : Policy) (nodeLoop : (np : ℕ) → ν → Job ν × ℕ → Except Error (Job ν × ℕ)) (s : Job ν)
    (app : App ν) : Except Error (Job ν × ℕ) :=
  if numSlots s.view app = 0 then .error .silent
  else do
    let targets := getTargetNodes s.view app
    let r ← targets.foldlM (fun r n => nodeLoop (npOf app) n r) (s, 0)
    let s ← Job.computeVpids policy { r.1 with targets := r.1.targets ++ [targets] }
    .ok (s, r.2)

namespace Config

variable (cfg : Config ν)

def npernodeApp (idx : ℕ) : Job ν → App ν → Except Error (Job ν × ℕ) :=
  mapNper cfg.policy fun np n => claimLoop cfg.map idx np n cfg.npernode

def nperboardApp (idx : ℕ) : Job ν → App ν → Except Error (Job ν × ℕ) :=
  mapNper cfg.policy fun np n => partLoop np (claimLoop cfg.map idx np n cfg.nperboard) (cfg.boards n)

def npersocketApp (idx : ℕ) : Job ν → App ν → Except Error (Job ν × ℕ) :=
  mapNper cfg.policy fun np n =>
    partLoop np (partLoop np (claimLoop cfg.map idx np n cfg.npersocket) (cfg.socketsPerBoard n)) (cfg.boards n)

end Config

def ppnLoop (map : Map) (idx : ℕ) (n : ν) : (left : ℕ) → Job ν × ℕ → Except Error (Job ν × ℕ)
  | 0, r => .ok r
  | left + 1, (s, totalProcs) =>
    let claimed := s.claimSlot map idx n
    if claimed.2 ∧ left ≠ 0 then .error .nodeFullyUsed
    else ppnLoop map idx n left (claimed.1, totalProcs + 1)

/-- The processes that are left, one on each node, with the last node.  A full node is no error. -/
def leftoverLoop (map : Map) (idx : ℕ) (nodeList : List ν) : (left : ℕ) → (item last : ν) → Job ν × ℕ →
    (Job ν × ℕ) × ν
  | 0, _, last, r => (r, last)
  | left + 1, item, _, (s, totalProcs) =>
    leftoverLoop map idx nodeList left (getNext nodeList item) item ((s.claimSlot map idx item).1, totalProcs + 1)

def around (nodeList : List ν) (start : ν) : List ν :=
  nodeList.drop (nodeList.idxOf start) ++ nodeList.take (nodeList.idxOf start)

def Config.loadbalanceApp (cfg : Config ν) (idx : ℕ) (s : Job ν) (app : App ν) : Except Error (Job ν × ℕ) :=
  if numSlots s.view app = 0 then .error .silent
  else
    let nodeList := getTargetNodes s.view app
    let numProcs := numWanted s.view app
    match getStartingPoint s.view app nodeList with
    | none => .error .silent
    | some start => do
      let nodes := around nodeList start
      let r ← nodes.foldlM (fun r n => ppnLoop cfg.map idx n (numProcs / nodeList.length) r) (s, 0)
      let (r, last) := leftoverLoop cfg.map idx nodeList (numProcs - r.2) start (nodes.getLastD start) r
      let s ← Job.computeVpids cfg.policy { r.1 with bookmark := some last, targets := r.1.targets ++ [nodeList] }
      .ok (s, r.2)

/-- The function that `switchyard` calls, for an application. -/
def Config.mapApp (cfg : Config ν) : (idx : ℕ) → Job ν → App ν → Except Error (Job ν × ℕ) :=
  if 0 < cfg.npernode then cfg.npernodeApp
  else if 0 < cfg.nperboard then cfg.nperboardApp
  else if 0 < cfg.npersocket then cfg.npersocketApp
  else cfg.loadbalanceApp

/-- The loop over the applications, with the `total_procs` of the last one. -/
def Config.appLoop (cfg : Config ν) (apps : List (App ν)) (s : Job ν) : Except Error (Job ν × ℕ) :=
  apps.zipIdx.foldlM (fun r x => cfg.mapApp x.2 r.1 x.1) (s, 0)

def Config.mapJob (cfg : Config ν) (apps : List (App ν)) (s : Job ν) : Except Error (Job ν) := do
  let r ← cfg.appLoop apps s
  .ok { r.1 with numProcs := r.2 }

def Job.new (node : ν → Slots) : Job ν := ⟨node, [], [], ⟨fun _ => none, fun _ => none⟩, 0, none, []⟩

namespace Config

variable (cfg : Config ν)

def Limited : Prop := 0 < cfg.npernode ∨ 0 < cfg.nperboard ∨ 0 < cfg.npersocket

instance : Decidable cfg.Limited := inferInstanceAs (Decidable (_ ∨ _))

/-- What the setting allows on a node. -/
def capacity (n : ν) : ℕ :=
  if 0 < cfg.npernode then cfg.npernode
  else if 0 < cfg.nperboard then cfg.boards n * cfg.nperboard
  else cfg.boards n * (cfg.socketsPerBoard n * cfg.npersocket)

end Config

structure Job.Proper (cfg : Config ν) (s : Job ν) : Prop where
  numProcs : s.numProcs = s.procs.length
  ranks : ∀ p < s.procs.length, ∃ v < s.numProcs, s.vpids.vpid p = some v ∧ s.vpids.procs v = some p
  order : ∀ p q x y, s.procs[p]? = some x → s.procs[q]? = some y → x.2 < y.2 → ∀ v w,
    s.vpids.vpid p = some v → s.vpids.vpid q = some w → v < w
  allowed : cfg.Limited → ∀ n idx, s.procs.count (n, idx) ≤ cfg.capacity n
  within : ∀ x ∈ s.procs, Within cfg.map (s.node x.1)
  spread : ¬cfg.Limited → ∀ idx targets, s.targets[idx]? = some targets → ∀ n ∈ targets, ∀ m ∈ targets,
    s.procs.count (n, idx) ≤ s.procs.count (m, idx) + 1

/-- So many processes fill the nodes, one node after the other. -/
def fill (capacity : ν → ℕ) : List ν → ℕ → List ν
  | [], _ => []
  | n :: nodes, left =>
    List.replicate (min (capacity n) left) n ++ fill capacity nodes (left - min (capacity n) left)

/-- The same number on each node, and one more on the first ones. -/
def deal (nodes : List ν) (numProcs : ℕ) : List ν :=
  nodes.flatMap (fun n => List.replicate (numProcs / nodes.length) n) ++ nodes.take (numProcs % nodes.length)

/-- The nodes of the processes of an application. -/
def Config.plan (cfg : Config ν) (s : Job ν) (app : App ν) : List ν :=
  let targets := getTargetNodes s.view app
  if cfg.Limited then fill cfg.capacity targets (npOf app)
  else match getStartingPoint s.view app targets with
    | none => []
    | some start => deal (around targets start) (numWanted s.view app)

def used (l : List ν) : List ν := l.foldl (fun nodes n => if n ∈ nodes then nodes else nodes ++ [n]) []

/-- An application, with no other one, is mapped as it should be.  By slot there is at most one process.  By node,
rank `i` and then each `k`-th one, for the `i`-th of `k` nodes, stay below the number of processes. -/
structure Config.Fair (cfg : Config ν) (s : Job ν) (app : App ν) : Prop where
  byslot : cfg.policy.byslot ∨ cfg.policy.bysocket ∨ cfg.policy.byboard → (cfg.plan s app).length ≤ 1
  bynode : ¬(cfg.policy.byslot ∨ cfg.policy.bysocket ∨ cfg.policy.byboard) →
    ∀ i n, (used (cfg.plan s app))[i]? = some n →
      i + ((cfg.plan s app).count n - 1) * (used (cfg.plan s app)).length < (cfg.plan s app).length
  within : ∀ n ∈ cfg.plan s app, Within cfg.map
    { s.node n with slotsInuse := (s.node n).slotsInuse + cfg.map.cpusPerRank * (cfg.plan s app).count n }

def Config.AllFair (cfg : Config ν) (s : Job ν) (apps : List (App ν)) : Prop :=
  apps = [] ∨ ∃ before app, apps = before ++ [app] ∧ (∀ a ∈ before, cfg.plan s a = []) ∧ cfg.Fair s app

end OpenMPI.Rmaps.LoadBalance
