import OpenMPI.Proofs.Rmaps.RoundRobin
import OpenMPI.Proofs.Rmaps.Vpids
import OpenMPI.Rmaps.LoadBalance

/-!
# Load-balanced mapping

Where it succeeds, the mapper claims the slots of `plan` one after the other (`mapApp_mapped`).  Ranks are computed
while `num_procs` is 0: by slot all are 0 (`run_slot`), by node those of a node have equal distances (`run_seek`).
-/

namespace OpenMPI.Rmaps.LoadBalance

open List Function

open Lib (bind_eq_ok)
open RoundRobin (Slots Map App getTargetNodes numSlots numWanted getStartingPoint getNext fullyUsed Within Around
  getStartingPoint_mem getTargetNodes_ne_nil)

variable {ν : Type*} [DecidableEq ν]

section Claims

variable {map : Map} {idx np : ℕ} {s : Job ν} {l l' : List ν} {n : ν}

def claimAll (map : Map) (idx : ℕ) (s : Job ν) (l : List ν) : Job ν :=
  l.foldl (fun s n => (s.claimSlot map idx n).1) s

theorem claimAll_cons (n : ν) (l : List ν) :
    claimAll map idx s (n :: l) = claimAll map idx (s.claimSlot map idx n).1 l := rfl

theorem claimAll_append : claimAll map idx s (l ++ l') = claimAll map idx (claimAll map idx s l) l' :=
  foldl_append

theorem claimAll_node (s : Job ν) (l : List ν) (n : ν) : (claimAll map idx s l).node n =
    { s.node n with slotsInuse := (s.node n).slotsInuse + map.cpusPerRank * l.count n } := by
  induction l generalizing s with
  | nil => rfl
  | cons m l ih =>
    rw [claimAll_cons, ih, count_cons, Job.claimSlot]
    dsimp only
    by_cases hmn : m = n
    · subst hmn
      rw [update_self, if_pos (beq_self_eq_true m)]
      dsimp only
      congr 1
      ring
    · rw [update_of_ne (Ne.symm hmn), if_neg (by simpa using hmn), add_zero]

theorem claimAll_procs (s : Job ν) (l : List ν) :
    (claimAll map idx s l).procs = s.procs ++ l.map fun n => (n, idx) := by
  induction l generalizing s with
  | nil => simp [claimAll]
  | cons m l ih =>
    rw [claimAll_cons, ih, map_cons, append_cons]
    rfl

theorem claimAll_mapNodes (s : Job ν) (l : List ν) : (claimAll map idx s l).mapNodes =
    l.foldl (fun nodes n => if n ∈ nodes then nodes else nodes ++ [n]) s.mapNodes := by
  induction l generalizing s with
  | nil => rfl
  | cons m l ih =>
    rw [claimAll_cons, ih]
    rfl

theorem claimAll_rest (map : Map) (idx : ℕ) (s : Job ν) (l : List ν) : (claimAll map idx s l).vpids = s.vpids ∧
    (claimAll map idx s l).numProcs = s.numProcs ∧ (claimAll map idx s l).bookmark = s.bookmark ∧
    (claimAll map idx s l).targets = s.targets := by
  induction l generalizing s with
  | nil => exact ⟨rfl, rfl, rfl, rfl⟩
  | cons m l ih => exact ih _

def Fills (map : Map) (idx np : ℕ) (n : ν) (capacity : ℕ) (body : Job ν × ℕ → Except Error (Job ν × ℕ)) : Prop :=
  ∀ s total r, body (s, total) = .ok r → r =
    (claimAll map idx s (List.replicate (min capacity (np - total)) n), total + min capacity (np - total))

theorem claimLoop_fills (left : ℕ) : Fills map idx np n left (claimLoop map idx np n left) := by
  intro s total r h
  induction left generalizing s total with
  | zero =>
    obtain rfl := Except.ok.inj h
    simp [claimAll]
  | succ left ih =>
    rw [claimLoop] at h
    dsimp only at h
    split_ifs at h with hlt
    · obtain ⟨k, hk⟩ : ∃ k, np - total = k + 1 := ⟨np - total - 1, by omega⟩
      have hsub : np - (total + 1) = k := by omega
      rw [ih _ _ h, hsub, hk, Nat.add_min_add_right, replicate_succ, claimAll_cons]
      congr 1
      omega
    · obtain rfl := Except.ok.inj h
      rw [Nat.sub_eq_zero_of_le (Nat.not_lt.mp hlt)]
      simp [claimAll]

theorem partLoop_fills {capacity : ℕ} {body : Job ν × ℕ → Except Error (Job ν × ℕ)}
    (hbody : Fills map idx np n capacity body) (parts : ℕ) :
    Fills map idx np n (parts * capacity) (partLoop np body parts) := by
  intro s total r h
  induction parts generalizing s total with
  | zero =>
    obtain rfl := Except.ok.inj h
    simp [claimAll]
  | succ parts ih =>
    rw [partLoop] at h
    split_ifs at h with hlt
    · obtain ⟨r', hr', hrest⟩ := bind_eq_ok h
      rw [hbody s total r' hr'] at hrest
      rw [ih _ _ hrest, ← claimAll_append, replicate_append_replicate, Nat.succ_mul]
      congr 1 <;> [congr 2; skip] <;> omega
    · obtain rfl := Except.ok.inj h
      dsimp only at hlt
      rw [Nat.sub_eq_zero_of_le (Nat.not_lt.mp hlt)]
      simp [claimAll]

theorem foldlM_fill {capacity : ν → ℕ} {nodeLoop : ν → Job ν × ℕ → Except Error (Job ν × ℕ)}
    (hloop : ∀ n, Fills map idx np n (capacity n) (nodeLoop n)) {nodes : List ν} {total : ℕ} {r : Job ν × ℕ}
    (h : nodes.foldlM (fun r n => nodeLoop n r) (s, total) = .ok r) : r =
      (claimAll map idx s (fill capacity nodes (np - total)), total + (fill capacity nodes (np - total)).length) := by
  induction nodes generalizing s total with
  | nil =>
    obtain rfl := Except.ok.inj h
    rfl
  | cons n nodes ih =>
    rw [foldlM_cons] at h
    obtain ⟨r', hr', hrest⟩ := bind_eq_ok h
    rw [hloop n s total r' hr'] at hrest
    have hleft : np - (total + min (capacity n) (np - total)) = np - total - min (capacity n) (np - total) := by omega
    rw [ih hrest, fill, claimAll_append, hleft, length_append, length_replicate, add_assoc]

theorem ppnLoop_spec {left total : ℕ} {r : Job ν × ℕ} (h : ppnLoop map idx n left (s, total) = .ok r) :
    r = (claimAll map idx s (replicate left n), total + left) := by
  induction left generalizing s total with
  | zero =>
    obtain rfl := Except.ok.inj h
    rfl
  | succ left ih =>
    rw [ppnLoop] at h
    split_ifs at h
    rw [ih h, replicate_succ, claimAll_cons]
    congr 1
    omega

theorem foldlM_ppnLoop {ppn total : ℕ} {nodes : List ν} {r : Job ν × ℕ}
    (h : nodes.foldlM (fun r n => ppnLoop map idx n ppn r) (s, total) = .ok r) :
    r = (claimAll map idx s (nodes.flatMap fun n => replicate ppn n), total + nodes.length * ppn) := by
  induction nodes generalizing s total with
  | nil =>
    obtain rfl := Except.ok.inj h
    simp [claimAll]
  | cons n nodes ih =>
    rw [foldlM_cons] at h
    obtain ⟨r', hr', hrest⟩ := bind_eq_ok h
    rw [ppnLoop_spec hr'] at hrest
    rw [ih hrest, flatMap_cons, claimAll_append, length_cons, Nat.succ_mul]
    congr 1
    omega

theorem leftoverLoop_spec (map : Map) (idx : ℕ) (s : Job ν) (total : ℕ) {nodeList rest : List ν}
    (hnodup : nodeList.Nodup) {left : ℕ} {cur : ν} (last : ν)
    (h : Around nodeList cur rest) (hleft : left ≤ rest.length + 1) :
    (leftoverLoop map idx nodeList left cur last (s, total)).1 =
      (claimAll map idx s ((cur :: rest).take left), total + left) := by
  induction left generalizing s total cur last rest with
  | zero => rfl
  | succ left ih =>
    obtain ⟨rest', haround, heq⟩ := (h.next hnodup).1
    have hlength := congrArg List.length heq
    rw [length_cons, length_append, length_singleton] at hlength
    rw [leftoverLoop, ih _ _ _ haround (by omega), heq, take_succ_cons, claimAll_cons,
      take_append_of_le_length (by omega)]
    congr 1
    omega

theorem around_eq {nodeList : List ν} {start : ν} (h : start ∈ nodeList) :
    ∃ rest, Around nodeList start rest ∧ around nodeList start = start :: rest := by
  have hlt := idxOf_lt_length_of_mem h
  refine ⟨nodeList.drop (nodeList.idxOf start + 1) ++ nodeList.take (nodeList.idxOf start),
    ⟨nodeList.take (nodeList.idxOf start), nodeList.drop (nodeList.idxOf start + 1), ?_, rfl⟩, ?_⟩
  · conv_lhs => rw [← take_append_drop (nodeList.idxOf start) nodeList]
    rw [drop_eq_getElem_cons hlt, getElem_idxOf]
  · rw [around, drop_eq_getElem_cons hlt, getElem_idxOf, cons_append]

theorem around_perm (nodeList : List ν) (start : ν) : (around nodeList start).Perm nodeList := by
  refine perm_append_comm.trans ?_
  rw [take_append_drop]

end Claims

section Ranks

variable {find : (ℕ → Option ℕ) → ℕ → Option ℕ} {l : List (ℕ × ℕ)} {start s' : Vpids ℕ}

theorem run_induct {P : List (ℕ × ℕ) → Vpids ℕ → Prop} (hrun : run (fun _ => ()) () find l start = some s')
    (hnodup : (l.map Prod.snd).Nodup) (hfresh : ∀ p, start.vpid p = none) (hstart : P [] start)
    (hstep : ∀ done x s v, x ∈ l → P done s → x.2 ∉ done.map Prod.snd → find s.procs x.1 = some v →
      P (done ++ [x]) (setProc { s with vpid := update s.vpid x.2 (some v) } x.2)) :
    P l s' ∧ ∀ p ∉ l.map Prod.snd, s'.vpid p = none := by
  induction l using List.reverseRecOn generalizing s' with
  | nil =>
    cases hrun
    exact ⟨hstart, fun p _ => hfresh p⟩
  | append_singleton l x ih =>
    rw [map_append, nodup_append] at hnodup
    rw [run, foldlM_append] at hrun
    obtain ⟨s, hs, hlast⟩ := Option.bind_eq_some_iff.mp hrun
    obtain ⟨hP, hnone⟩ := ih hs hnodup.1 fun done y s v hy => hstep done y s v (mem_append_left _ hy)
    have hx : x.2 ∉ l.map Prod.snd := fun h => hnodup.2.2 _ h _ (by simp) rfl
    rcases hv : find s.procs x.1 with _ | v
    · simp [placeProc, hnone x.2 hx, hv] at hlast
    · obtain rfl : setProc { s with vpid := update s.vpid x.2 (some v) } x.2 = s' := by
        simpa [placeProc, hnone x.2 hx, hv] using hlast
      refine ⟨hstep l x s v (by simp) hP hx hv, fun p hp => ?_⟩
      rw [map_append, mem_append, not_or, map_singleton, mem_singleton] at hp
      rw [setProc_vpid]
      exact (update_of_ne hp.2 _ _).trans (hnone p hp.1)

theorem run_slot (hrun : run (fun _ => ()) () (fun procs _ => some (nextVpid procs 0)) l start = some s')
    (hnodup : (l.map Prod.snd).Nodup) (hfresh : ∀ p, start.vpid p = none) (hfree : start.procs 0 = none) :
    (∀ x ∈ l, s'.vpid x.2 = some 0) ∧ s'.procs 0 = l.head?.map Prod.snd := by
  refine (run_induct hrun hnodup hfresh (P := fun done s => (∀ x ∈ done, s.vpid x.2 = some 0) ∧
    s.procs 0 = done.head?.map Prod.snd) ⟨nofun, hfree⟩ fun done x s v _ ih hx hv => ?_).1
  obtain ⟨hzero, hfirst⟩ := ih
  obtain rfl : 0 = v := Option.some.inj hv
  refine ⟨fun y hy => ?_, ?_⟩
  · rw [setProc_vpid]
    dsimp only
    by_cases heq : y.2 = x.2
    · rw [heq, update_self]
    · rw [update_of_ne heq]
      rcases mem_append.mp hy with hy | hy
      · exact hzero y hy
      · exact absurd (congrArg Prod.snd (mem_singleton.mp hy)) heq
  · rcases done with _ | ⟨y, done⟩
    · rw [setProc_procs hfirst, update_self]
      rfl
    · simp [setProc, hfirst]

theorem seekVpid_zero {procs : ℕ → Option ℕ} {k fuel v w : ℕ} (h : seekVpid procs k 0 fuel v = some w) :
    ∃ j, w = v + j * k ∧ procs w = none ∧ ∀ i < j, procs (v + i * k) ≠ none := by
  induction fuel generalizing v with
  | zero => cases h
  | succ fuel ih =>
    simp only [seekVpid, zero_le, if_true, Nat.sub_zero] at h
    split_ifs at h with hfree
    · cases h
      exact ⟨0, by simp, hfree, by simp⟩
    · obtain ⟨j, hj, hnone, hbefore⟩ := ih h
      refine ⟨j + 1, ?_, hnone, fun i hi => ?_⟩
      · rw [hj]
        ring
      · rcases i with _ | i
        · simpa using hfree
        · have hi := hbefore i (by omega)
          rwa [add_assoc, add_comm k, ← Nat.succ_mul] at hi

theorem run_seek {k fuel : ℕ} (hrun : run (fun _ => ()) () (fun procs i => seekVpid procs k 0 fuel i) l start = some s')
    (hnodup : (l.map Prod.snd).Nodup) (hfresh : ∀ p, start.vpid p = none) (hfree : ∀ v, start.procs v = none)
    (hk : ∀ x ∈ l, x.1 < k) :
    Placed l s' ∧ ∀ v, s'.procs v = none ↔ (l.countP fun x => x.1 = v % k) ≤ v / k := by
  refine (run_induct hrun hnodup hfresh (P := fun done s => Placed done s ∧
    ∀ v, s.procs v = none ↔ (done.countP fun x => x.1 = v % k) ≤ v / k)
    ⟨.nil hfree, fun v => by simp [hfree v]⟩ fun done x s w hx ih hnew hw => ?_).1
  obtain ⟨hplaced, hprocs⟩ := ih
  obtain ⟨j, rfl, hnone, hbefore⟩ := seekVpid_zero hw
  refine ⟨hplaced.place hnew hnone, fun v => ?_⟩
  have hlt := hk x hx
  have hpos : 0 < k := by omega
  have hmod (i : ℕ) : (x.1 + i * k) % k = x.1 := by rw [Nat.add_mul_mod_self_right, Nat.mod_eq_of_lt hlt]
  have hdiv (i : ℕ) : (x.1 + i * k) / k = i := by
    rw [Nat.add_mul_div_right _ _ hpos, Nat.div_eq_of_lt hlt, zero_add]
  -- the rank is the first free one of the node
  have hcount : (done.countP fun y => y.1 = x.1) = j := by
    refine le_antisymm ?_ ?_
    · simpa [hmod, hdiv] using (hprocs _).mp hnone
    · rcases j with _ | j
      · exact Nat.zero_le _
      · have := hbefore j (by omega)
        rw [Ne, hprocs, hmod, hdiv] at this
        omega
  rw [setProc_procs hnone, countP_append, countP_singleton]
  by_cases hv : v = x.1 + j * k
  · subst hv
    rw [update_self, hmod, hdiv, hcount]
    simp
  · rw [update_of_ne hv, hprocs]
    by_cases hclass : x.1 = v % k
    · have hne : v / k ≠ j := by
        rintro rfl
        exact hv (by rw [hclass, Nat.mod_add_div'])
      rw [← hclass, hcount]
      simp only [decide_true, if_true]
      omega
    · simp [hclass]

structure Listed (s : Job ν) : Prop where
  nodup : s.mapNodes.Nodup
  mem : ∀ n, n ∈ s.mapNodes ↔ n ∈ s.procs.map Prod.fst

variable {s : Job ν} {policy : Policy}

theorem mem_procsOn {n : ν} {p : ℕ} : p ∈ s.procsOn n ↔ s.procs[p]?.map Prod.fst = some n := by
  simp only [Job.procsOn, mem_map, mem_filter, mem_zipIdx_iff_getElem?, decide_eq_true_eq,
    Option.map_eq_some_iff]
  constructor
  · rintro ⟨⟨x, q⟩, ⟨hx, hn⟩, rfl⟩
    exact ⟨x, hx, hn⟩
  · rintro ⟨x, hx, hn⟩
    exact ⟨(x, p), ⟨hx, hn⟩, rfl⟩

theorem procsOn_nodup (s : Job ν) (n : ν) : (s.procsOn n).Nodup := by
  have hrange : (s.procs.zipIdx.map Prod.snd).Nodup := by
    rw [zipIdx_map_snd]
    exact nodup_range'
  exact hrange.sublist (List.filter_sublist.map Prod.snd)

theorem length_procsOn (s : Job ν) (n : ν) : (s.procsOn n).length = (s.procs.map Prod.fst).count n := by
  have hfst : s.procs.map Prod.fst = s.procs.zipIdx.map fun x => x.1.1 := by
    conv_lhs => rw [← zipIdx_map_fst 0 s.procs, map_map]
    rfl
  rw [Job.procsOn, length_map, ← countP_eq_length_filter, hfst, List.count, countP_map]
  refine countP_congr fun x _ => ?_
  simp

theorem slots_jobMap (s : Job ν) (policy : Policy) : slots (s.jobMap policy).nodes =
    s.mapNodes.zipIdx.flatMap fun x => (s.procsOn x.1).map fun p => (x.2, p) := by
  have hnode (procs : List ℕ) (i : ℕ) : nodeSlots (some (procs.map some)) i = procs.map fun p => (i, p) := by
    simp [nodeSlots, filterMap_map]
  rw [slots, Job.jobMap, zipIdx_map, flatMap_map]
  exact congrArg (List.flatMap · _) (funext fun x => hnode _ _)

theorem mem_slots {x : ℕ × ℕ} : x ∈ slots (s.jobMap policy).nodes ↔
    ∃ n, s.mapNodes[x.1]? = some n ∧ s.procs[x.2]?.map Prod.fst = some n := by
  simp only [slots_jobMap, mem_flatMap, mem_zipIdx_iff_getElem?, mem_map, mem_procsOn]
  constructor
  · rintro ⟨⟨n, i⟩, hn, p, hp, rfl⟩
    exact ⟨n, hn, hp⟩
  · rintro ⟨n, hn, hp⟩
    exact ⟨(n, x.1), hn, x.2, hp, rfl⟩

theorem Listed.slots_nodup (h : Listed s) : ((slots (s.jobMap policy).nodes).map Prod.snd).Nodup := by
  have hflat : (slots (s.jobMap policy).nodes).map Prod.snd = s.mapNodes.flatMap s.procsOn := by
    rw [slots_jobMap, map_flatMap]
    conv_rhs => rw [← zipIdx_map_fst 0 s.mapNodes, flatMap_map]
    simp [Function.comp_def]
  rw [hflat, nodup_flatMap]
  refine ⟨fun n _ => procsOn_nodup s n, h.nodup.imp fun {n m} hne p hn hm => hne ?_⟩
  exact Option.some.inj ((mem_procsOn.mp hn).symm.trans (mem_procsOn.mp hm))

omit [DecidableEq ν] in
theorem countP_zipIdx (f : ν → List ℕ) (nodes : List ν) (k i : ℕ) :
    (((nodes.zipIdx k).flatMap fun x => (f x.1).map fun p => (x.2, p)).countP fun x => x.1 = k + i) =
      (nodes[i]?.map fun n => (f n).length).getD 0 := by
  induction nodes generalizing k i with
  | nil => rfl
  | cons n nodes ih =>
    rw [zipIdx_cons, flatMap_cons, countP_append, countP_map]
    rcases i with _ | i
    · have hrest : (((nodes.zipIdx (k + 1)).flatMap fun x => (f x.1).map fun p => (x.2, p)).countP
          fun x => x.1 = k + 0) = 0 := by
        refine countP_eq_zero.mpr fun x hx => ?_
        simp only [mem_flatMap, mem_map] at hx
        obtain ⟨⟨m, j⟩, hm, p, -, rfl⟩ := hx
        have := le_snd_of_mem_zipIdx hm
        simp only [decide_eq_true_eq] at this ⊢
        omega
      rw [hrest, countP_eq_length.mpr (by simp)]
      simp
    · have hhead : (f n).countP ((fun x : ℕ × ℕ => decide (x.1 = k + (i + 1))) ∘ fun p => (k, p)) = 0 :=
        countP_eq_zero.mpr fun p _ => by simp
      have hnext := ih (k + 1) i
      rw [hhead, zero_add, getElem?_cons_succ, ← hnext, add_right_comm, add_assoc]

theorem countP_slots {i : ℕ} {n : ν} (hn : s.mapNodes[i]? = some n) :
    ((slots (s.jobMap policy).nodes).countP fun x => x.1 = i) = (s.procs.map Prod.fst).count n := by
  have hcount := countP_zipIdx s.procsOn s.mapNodes 0 i
  rw [zero_add, hn, Option.map_some, Option.getD_some, length_procsOn] at hcount
  rw [slots_jobMap, hcount]

theorem Listed.mem_slots (h : Listed s) (policy : Policy) {p : ℕ} (hp : p < s.procs.length) :
    ∃ x ∈ slots (s.jobMap policy).nodes, x.2 = p := by
  have hmem : (s.procs[p]).1 ∈ s.mapNodes := (h.mem _).mpr (mem_map_of_mem (getElem_mem hp))
  obtain ⟨i, hi⟩ := mem_iff_getElem?.mp hmem
  exact ⟨(i, p), LoadBalance.mem_slots.mpr ⟨_, hi, by simp [hp]⟩, rfl⟩

theorem lt_of_mem_slots {x : ℕ × ℕ} (h : x ∈ slots (s.jobMap policy).nodes) :
    x.1 < s.mapNodes.length ∧ x.2 < s.procs.length := by
  obtain ⟨n, hn, hp⟩ := mem_slots.mp h
  obtain ⟨y, hy, -⟩ := Option.map_eq_some_iff.mp hp
  exact ⟨(List.getElem?_eq_some_iff.mp hn).1, (List.getElem?_eq_some_iff.mp hy).1⟩

def RanksBelow (length : ℕ) (vpids : Vpids ℕ) : Prop :=
  ∀ p < length, ∃ v < length, vpids.vpid p = some v ∧ vpids.procs v = some p

def noVpids : Vpids ℕ := ⟨fun _ => none, fun _ => none⟩

variable {fuel : ℕ} {vpids : Vpids ℕ}

theorem Listed.ranks_slot (h : Listed s) (hnum : s.numProcs = 0) (hslot : policy.bySlots)
    (hok : computeVpids fuel (fun _ => ()) (s.jobMap policy) noVpids = some (.ok vpids)) :
    RanksBelow s.procs.length vpids ↔ s.procs.length ≤ 1 := by
  rw [computeVpids_byslot (s.jobMap policy) hslot, Option.map_eq_some_iff] at hok
  obtain ⟨vpids, hrun, hok⟩ := hok
  obtain rfl := Except.ok.inj hok
  have hnumProcs : (s.jobMap policy).numProcs = 0 := hnum
  rw [hnumProcs] at hrun
  obtain ⟨hzero, hfirst⟩ := run_slot hrun h.slots_nodup (fun _ => rfl) rfl
  have hrank : ∀ p < s.procs.length, vpids.vpid p = some 0 := by
    intro p hp
    obtain ⟨x, hx, rfl⟩ := h.mem_slots policy hp
    exact hzero x hx
  constructor
  · intro hranks
    by_contra hlt
    obtain ⟨v, -, hv, h0⟩ := hranks 0 (by omega)
    obtain ⟨w, -, hw, h1⟩ := hranks 1 (by omega)
    obtain rfl := Option.some.inj ((hrank 0 (by omega)).symm.trans hv)
    obtain rfl := Option.some.inj ((hrank 1 (by omega)).symm.trans hw)
    exact absurd (h0.symm.trans h1) (by simp)
  · intro hle p hp
    refine ⟨0, by omega, hrank p hp, ?_⟩
    obtain ⟨x, hx, -⟩ := h.mem_slots policy hp
    obtain ⟨y, rest, heq⟩ := exists_cons_of_ne_nil (ne_nil_of_mem hx)
    have hy := (lt_of_mem_slots (heq ▸ mem_cons_self : y ∈ slots (s.jobMap policy).nodes)).2
    rw [hfirst, heq, head?_cons, Option.map_some, show y.2 = p by omega]

theorem Listed.ranks_node (h : Listed s) (hnum : s.numProcs = 0) (hslot : ¬policy.bySlots)
    (hok : computeVpids fuel (fun _ => ()) (s.jobMap policy) noVpids = some (.ok vpids)) :
    RanksBelow s.procs.length vpids ↔ ∀ i n, s.mapNodes[i]? = some n →
      i + ((s.procs.map Prod.fst).count n - 1) * s.mapNodes.length < s.procs.length := by
  have hnode : policy.bynode = true := (computeVpids_policy (s.jobMap policy) hok).resolve_left hslot
  rw [computeVpids_bynode (s.jobMap policy) hslot hnode, Option.map_eq_some_iff] at hok
  obtain ⟨vpids, hrun, hok⟩ := hok
  obtain rfl := Except.ok.inj hok
  have hnumProcs : (s.jobMap policy).numProcs = 0 := hnum
  have hnumNodes : (s.jobMap policy).numNodes = s.mapNodes.length := rfl
  rw [hnumProcs, hnumNodes] at hrun
  obtain ⟨hplaced, hprocs⟩ := run_seek hrun h.slots_nodup (fun _ => rfl) (fun _ => rfl)
    fun x hx => (lt_of_mem_slots hx).1
  constructor
  · intro hranks i n hn
    have hi : i < s.mapNodes.length := (List.getElem?_eq_some_iff.mp hn).1
    have hcount : 0 < (s.procs.map Prod.fst).count n :=
      count_pos_iff.mpr ((h.mem n).mp (mem_of_getElem? hn))
    -- the last rank of the node is taken
    have htaken : vpids.procs (i + ((s.procs.map Prod.fst).count n - 1) * s.mapNodes.length) ≠ none := by
      rw [Ne, hprocs, Nat.add_mul_mod_self_right, Nat.mod_eq_of_lt hi, countP_slots hn,
        Nat.add_mul_div_right _ _ (by omega), Nat.div_eq_of_lt hi]
      omega
    obtain ⟨p, hp⟩ := Option.ne_none_iff_exists'.mp htaken
    obtain ⟨x, hx, rfl, hv⟩ := hplaced.owner _ _ hp
    obtain ⟨w, hw, hvpid, -⟩ := hranks x.2 (lt_of_mem_slots hx).2
    rwa [Option.some.inj (hv.symm.trans hvpid)]
  · intro hbelow p hp
    obtain ⟨x, hx, rfl⟩ := h.mem_slots policy hp
    obtain ⟨v, hvpid, hproc⟩ := hplaced.rank x hx
    have hpos : 0 < s.mapNodes.length := Nat.zero_lt_of_lt (lt_of_mem_slots hx).1
    have hmod := Nat.mod_lt v hpos
    have hn : s.mapNodes[v % s.mapNodes.length]? = some (s.mapNodes[v % s.mapNodes.length]) :=
      getElem?_eq_getElem hmod
    have htaken : ¬vpids.procs v = none := by simp [hproc]
    rw [hprocs, countP_slots hn, not_le] at htaken
    refine ⟨v, ?_, hvpid, hproc⟩
    calc v = v % s.mapNodes.length + v / s.mapNodes.length * s.mapNodes.length := (Nat.mod_add_div' _ _).symm
      _ ≤ _ := Nat.add_le_add_left (Nat.mul_le_mul_right _ (by omega)) _
      _ < s.procs.length := hbelow _ _ hn

end Ranks

section App

variable {cfg : Config ν} {idx total : ℕ} {s t : Job ν} {app : App ν}

/-- An application is mapped from `s` to `t`: its slots are claimed and ranks computed. -/
structure Mapped (cfg : Config ν) (idx : ℕ) (s : Job ν) (app : App ν) (t : Job ν) (total : ℕ) : Prop where
  total : total = (cfg.plan s app).length
  vpids : ∃ bookmark, (cfg.plan s app = [] → bookmark = s.bookmark) ∧
    Job.computeVpids cfg.policy { claimAll cfg.map idx s (cfg.plan s app) with
      bookmark := bookmark
      targets := s.targets ++ [getTargetNodes s.view app] } = .ok t

theorem mapNper_mapped {nodeLoop : ℕ → ν → Job ν × ℕ → Except Error (Job ν × ℕ)} (hlimited : cfg.Limited)
    (hloop : ∀ np n, Fills cfg.map idx np n (cfg.capacity n) (nodeLoop np n))
    (h : mapNper cfg.policy nodeLoop s app = .ok (t, total)) : Mapped cfg idx s app t total := by
  rw [mapNper] at h
  split_ifs at h
  obtain ⟨r, hr, hrest⟩ := bind_eq_ok h
  obtain ⟨s', hs', hlast⟩ := bind_eq_ok hrest
  obtain ⟨rfl, rfl⟩ := Prod.mk.inj (Except.ok.inj hlast)
  have hplan : cfg.plan s app = fill cfg.capacity (getTargetNodes s.view app) (npOf app) := if_pos hlimited
  rw [foldlM_fill (hloop _) hr, Nat.sub_zero, ← hplan] at hs'
  obtain ⟨-, -, hbookmark, htargets⟩ := claimAll_rest cfg.map idx s (cfg.plan s app)
  refine ⟨?_, s.bookmark, fun _ => rfl, ?_⟩
  · rw [foldlM_fill (hloop _) hr, Nat.sub_zero, ← hplan, zero_add]
  · rw [← hs', ← hbookmark, ← htargets]

omit [DecidableEq ν] in
theorem length_deal (nodes : List ν) (numProcs : ℕ) (h : nodes ≠ []) : (deal nodes numProcs).length = numProcs := by
  have hpos := length_pos_iff.mpr h
  have hmod := (Nat.mod_lt numProcs hpos).le
  have hflat : (nodes.flatMap fun n => replicate (numProcs / nodes.length) n).length =
      nodes.length * (numProcs / nodes.length) := by
    rw [length_flatMap]
    simp
  rw [deal, length_append, hflat, length_take, min_eq_left hmod, Nat.div_add_mod]

theorem loadbalanceApp_mapped (hlimited : ¬cfg.Limited) (h : cfg.loadbalanceApp idx s app = .ok (t, total)) :
    Mapped cfg idx s app t total := by
  rw [Config.loadbalanceApp] at h
  split_ifs at h with hslots
  have hne := getTargetNodes_ne_nil hslots
  obtain ⟨start, hmem, hstart⟩ := @getStartingPoint_mem _ _ s.view app _ hne
  have hnodup : (getTargetNodes s.view app).Nodup := app.nodup.filter _
  obtain ⟨rest, haround, heq⟩ := around_eq hmem
  have hlength : (around (getTargetNodes s.view app) start).length = (getTargetNodes s.view app).length :=
    (around_perm _ start).length_eq
  have hmod := Nat.mod_lt (numWanted s.view app) (length_pos_iff.mpr hne)
  have hleft : numWanted s.view app - (getTargetNodes s.view app).length *
      (numWanted s.view app / (getTargetNodes s.view app).length) =
        numWanted s.view app % (getTargetNodes s.view app).length := by
    have := Nat.div_add_mod (numWanted s.view app) (getTargetNodes s.view app).length
    omega
  have hplan : cfg.plan s app = deal (around (getTargetNodes s.view app) start) (numWanted s.view app) := by
    rw [Config.plan, if_neg hlimited, hstart]
  dsimp only at h
  have hwanted : (cfg.plan s app).length = numWanted s.view app := by
    rw [hplan, length_deal]
    exact ne_nil_of_mem (heq ▸ mem_cons_self)
  rw [hstart] at h
  obtain ⟨r, hr, hrest⟩ := bind_eq_ok h
  have hclaimed := foldlM_ppnLoop hr
  rw [zero_add, hlength] at hclaimed
  have hspec := leftoverLoop_spec cfg.map idx r.1 r.2 hnodup
    ((around (getTargetNodes s.view app) start).getLastD start) haround (show numWanted s.view app - r.2 ≤ _ by
      rw [hclaimed]
      dsimp only
      rw [hleft, ← length_cons, ← heq, hlength]
      exact hmod.le)
  rcases hloop : leftoverLoop cfg.map idx (getTargetNodes s.view app) (numWanted s.view app - r.2) start
    ((around (getTargetNodes s.view app) start).getLastD start) r with ⟨r', last⟩
  rw [hloop] at hspec hrest
  dsimp only at hspec hrest
  obtain ⟨s', hs', hlast⟩ := bind_eq_ok hrest
  obtain ⟨rfl, rfl⟩ := Prod.mk.inj (Except.ok.inj hlast)
  have hr' : r' = (claimAll cfg.map idx s (cfg.plan s app), (cfg.plan s app).length) := by
    rw [hspec, hclaimed]
    dsimp only
    rw [hleft, ← heq, ← claimAll_append, hwanted, hplan, deal, hlength, Nat.div_add_mod]
  obtain ⟨-, -, -, htargets⟩ := claimAll_rest cfg.map idx s (cfg.plan s app)
  refine ⟨?_, some last, fun hnil => ?_, ?_⟩
  · rw [hr']
  · -- some processes are wanted
    rw [hnil, length_nil, numWanted] at hwanted
    split_ifs at hwanted
    · exact absurd hwanted.symm hslots
    · omega
  · rw [← hs', hr', ← htargets]

theorem mapApp_mapped (h : cfg.mapApp idx s app = .ok (t, total)) : Mapped cfg idx s app t total := by
  rw [Config.mapApp] at h
  split_ifs at h with hnode hboard hsocket
  · refine mapNper_mapped (.inl hnode) (fun np n => ?_) h
    rw [Config.capacity, if_pos hnode]
    exact claimLoop_fills _
  · refine mapNper_mapped (.inr (.inl hboard)) (fun np n => ?_) h
    rw [Config.capacity, if_neg hnode, if_pos hboard]
    exact partLoop_fills (claimLoop_fills _) _
  · refine mapNper_mapped (.inr (.inr hsocket)) (fun np n => ?_) h
    rw [Config.capacity, if_neg hnode, if_neg hboard]
    exact partLoop_fills (partLoop_fills (claimLoop_fills _) _) _
  · exact loadbalanceApp_mapped (by simp [Config.Limited, hnode, hboard, hsocket]) h

theorem Mapped.computed (h : Mapped cfg idx s app t total) : ∃ bookmark vpids,
    (cfg.plan s app = [] → bookmark = s.bookmark) ∧
    Rmaps.computeVpids ((claimAll cfg.map idx s (cfg.plan s app)).procs.length + 1) (fun _ => ())
      ((claimAll cfg.map idx s (cfg.plan s app)).jobMap cfg.policy) s.vpids = some (.ok vpids) ∧
    t = { claimAll cfg.map idx s (cfg.plan s app) with
      vpids := vpids
      bookmark := bookmark
      targets := s.targets ++ [getTargetNodes s.view app] } := by
  obtain ⟨bookmark, hbookmark, hok⟩ := h.vpids
  rw [← (claimAll_rest cfg.map idx s (cfg.plan s app)).1]
  rw [Job.computeVpids] at hok
  split at hok
  · rename_i vpids hsome
    exact ⟨bookmark, vpids, hbookmark, hsome, (Except.ok.inj hok).symm⟩
  · cases hok
  · cases hok

theorem used_spec (l : List ν) : (used l).Nodup ∧ ∀ n, n ∈ used l ↔ n ∈ l := by
  induction l using List.reverseRecOn with
  | nil => simp [used]
  | append_singleton l n ih =>
    obtain ⟨hnodup, hmem⟩ := ih
    have hused : used (l ++ [n]) = if n ∈ used l then used l else used l ++ [n] := by
      rw [used, foldl_append]
      rfl
    rw [hused]
    split_ifs with hn
    · refine ⟨hnodup, fun m => ?_⟩
      rw [mem_append, mem_singleton, ← hmem]
      exact ⟨.inl, fun h => h.elim id fun heq => heq ▸ hn⟩
    · refine ⟨concat_eq_append ▸ hnodup.concat hn, fun m => ?_⟩
      rw [mem_append, mem_append, hmem]

omit [DecidableEq ν] in
theorem mem_fill {capacity : ν → ℕ} {nodes : List ν} {left : ℕ} {n : ν} (h : n ∈ fill capacity nodes left) :
    n ∈ nodes := by
  induction nodes generalizing left with
  | nil => cases h
  | cons m nodes ih =>
    rcases mem_append.mp h with h | h
    · exact mem_cons.mpr (.inl (eq_of_mem_replicate h))
    · exact mem_cons_of_mem m (ih h)

theorem count_fill_le {capacity : ν → ℕ} {nodes : List ν} (hnodup : nodes.Nodup) (left : ℕ) (n : ν) :
    (fill capacity nodes left).count n ≤ capacity n := by
  induction nodes generalizing left with
  | nil => simp [fill]
  | cons m nodes ih =>
    rw [nodup_cons] at hnodup
    rw [fill, count_append, count_replicate]
    split_ifs with hmn
    · obtain rfl : m = n := by simpa using hmn
      rw [count_eq_zero.mpr fun hmem => hnodup.1 (mem_fill hmem)]
      omega
    · rw [zero_add]
      exact ih hnodup.2 _

theorem count_flatMap_replicate (nodes : List ν) (k : ℕ) (n : ν) :
    (nodes.flatMap fun n => replicate k n).count n = nodes.count n * k := by
  induction nodes with
  | nil => simp
  | cons m nodes ih =>
    rw [flatMap_cons, count_append, ih, count_replicate, count_cons, add_mul, add_comm]
    split_ifs <;> simp

theorem count_deal_le {nodes : List ν} (hnodup : nodes.Nodup) (numProcs : ℕ) {n m : ν} (hn : n ∈ nodes)
    (hm : m ∈ nodes) : (deal nodes numProcs).count n ≤ (deal nodes numProcs).count m + 1 := by
  have hle : (nodes.take (numProcs % nodes.length)).count n ≤ 1 :=
    nodup_iff_count_le_one.mp (hnodup.sublist (take_sublist _ _)) n
  rw [deal, count_append, count_append, count_flatMap_replicate, count_flatMap_replicate,
    count_eq_one_of_mem hnodup hn, count_eq_one_of_mem hnodup hm]
  omega

end App

section Job

variable {cfg : Config ν} {idx total : ℕ} {node : ν → Slots} {targets : List (List ν)} {s t : Job ν} {app : App ν}
  {apps : List (App ν)}

def unmapped (node : ν → Slots) (targets : List (List ν)) : Job ν := { Job.new node with targets := targets }

theorem Mapped.listed (cfg : Config ν) (idx : ℕ) (node : ν → Slots) (targets : List (List ν)) (l : List ν) : Listed (claimAll cfg.map idx (unmapped node targets) l) := by
  have hprocs : (claimAll cfg.map idx (unmapped node targets) l).procs.map Prod.fst = l := by
    rw [claimAll_procs, map_append, map_map]
    exact map_id l
  have hnodes : (claimAll cfg.map idx (unmapped node targets) l).mapNodes = used l := claimAll_mapNodes _ l
  exact ⟨hnodes ▸ (used_spec l).1, fun n => by rw [hnodes, hprocs, (used_spec l).2]⟩

theorem plan_unmapped (cfg : Config ν) (node : ν → Slots) (targets : List (List ν)) (app : App ν) :
    cfg.plan (unmapped node targets) app = cfg.plan (Job.new node) app := rfl

theorem plan_allowed (hlimited : cfg.Limited) (n : ν) : (cfg.plan s app).count n ≤ cfg.capacity n := by
  rw [Config.plan, if_pos hlimited]
  exact count_fill_le (app.nodup.filter _) _ n

theorem plan_spread (hlimited : ¬cfg.Limited) {n m : ν} (hn : n ∈ getTargetNodes s.view app)
    (hm : m ∈ getTargetNodes s.view app) : (cfg.plan s app).count n ≤ (cfg.plan s app).count m + 1 := by
  rw [Config.plan, if_neg hlimited]
  split
  · simp
  · rename_i start _
    have hperm := around_perm (getTargetNodes s.view app) start
    exact count_deal_le (hperm.nodup_iff.mpr (app.nodup.filter _)) _ (hperm.mem_iff.mpr hn) (hperm.mem_iff.mpr hm)

theorem count_map_pair (l : List ν) (idx : ℕ) (n : ν) (i : ℕ) :
    (l.map fun n => (n, idx)).count (n, i) = if i = idx then l.count n else 0 := by
  split_ifs with heq
  · subst heq
    exact count_map_of_injective l _ (fun _ _ h => (Prod.mk.inj h).1) n
  · refine count_eq_zero.mpr fun hmem => heq ?_
    obtain ⟨m, -, hm⟩ := mem_map.mp hmem
    exact (Prod.mk.inj hm).2.symm

section

variable (h : Mapped cfg idx (unmapped node targets) app t total)

include h

theorem Mapped.ranks_iff :
    RanksBelow (cfg.plan (Job.new node) app).length t.vpids ↔
      (cfg.policy.bySlots → (cfg.plan (Job.new node) app).length ≤ 1) ∧
      (¬cfg.policy.bySlots → ∀ i n, (used (cfg.plan (Job.new node) app))[i]? = some n →
        i + ((cfg.plan (Job.new node) app).count n - 1) * (used (cfg.plan (Job.new node) app)).length <
          (cfg.plan (Job.new node) app).length) := by
  obtain ⟨bookmark, vpids, -, hok, rfl⟩ := h.computed
  rw [plan_unmapped] at hok ⊢
  generalize cfg.plan (Job.new node) app = l at hok ⊢
  have hlisted := listed cfg idx node targets l
  have hnum : (claimAll cfg.map idx (unmapped node targets) l).numProcs = 0 := (claimAll_rest _ _ _ l).2.1
  have hprocs : (claimAll cfg.map idx (unmapped node targets) l).procs = l.map fun n => (n, idx) :=
    claimAll_procs _ l
  have hnodes : (claimAll cfg.map idx (unmapped node targets) l).mapNodes = used l := claimAll_mapNodes _ l
  have hlength : (claimAll cfg.map idx (unmapped node targets) l).procs.length = l.length := by
    rw [hprocs, length_map]
  have hfst : (claimAll cfg.map idx (unmapped node targets) l).procs.map Prod.fst = l := by
    rw [hprocs, map_map]
    exact map_id l
  by_cases hslot : cfg.policy.bySlots
  · have hiff := hlisted.ranks_slot hnum hslot hok
    rw [hlength] at hiff
    simp only [hslot, true_imp_iff, not_true, false_imp_iff, and_true]
    exact hiff
  · have hiff := hlisted.ranks_node hnum hslot hok
    rw [hlength, hfst, hnodes] at hiff
    simp only [hslot, true_imp_iff, not_false_eq_true, false_imp_iff, true_and]
    exact hiff

theorem Mapped.proper_iff (hidx : targets.length = idx) :
    Job.Proper cfg { t with numProcs := total } ↔ cfg.Fair (Job.new node) app := by
  have hranks := h.ranks_iff
  obtain ⟨bookmark, vpids, -, -, rfl⟩ := h.computed
  rw [h.total, plan_unmapped]
  rw [plan_unmapped] at hranks
  have hprocs : (claimAll cfg.map idx (unmapped node targets) (cfg.plan (Job.new node) app)).procs =
      (cfg.plan (Job.new node) app).map fun n => (n, idx) := claimAll_procs _ _
  have hlength : (claimAll cfg.map idx (unmapped node targets) (cfg.plan (Job.new node) app)).procs.length =
      (cfg.plan (Job.new node) app).length := by
    rw [hprocs, length_map]
  constructor
  · rintro ⟨-, hbelow, -, -, hwithin, -⟩
    dsimp only at hbelow hwithin
    rw [hlength] at hbelow
    obtain ⟨hslot, hnode⟩ := hranks.mp hbelow
    refine ⟨hslot, hnode, fun n hn => ?_⟩
    have := hwithin (n, idx) (by rw [hprocs]; exact mem_map_of_mem hn)
    rwa [claimAll_node] at this
  · rintro ⟨hslot, hnode, hwithin⟩
    refine ⟨hlength.symm, ?_, ?_, ?_, ?_, ?_⟩
    · dsimp only
      rw [hlength]
      exact hranks.mpr ⟨hslot, hnode⟩
    · dsimp only
      rw [hprocs]
      intro p q x y hx hy hlt
      obtain ⟨n, -, rfl⟩ := mem_map.mp (mem_of_getElem? hx)
      obtain ⟨m, -, rfl⟩ := mem_map.mp (mem_of_getElem? hy)
      exact absurd hlt (lt_irrefl idx)
    · intro hlimited n i
      dsimp only
      rw [hprocs, count_map_pair]
      split_ifs
      · exact plan_allowed hlimited n
      · exact Nat.zero_le _
    · dsimp only
      rw [hprocs]
      intro x hx
      obtain ⟨n, hn, rfl⟩ := mem_map.mp hx
      rw [claimAll_node]
      exact hwithin n hn
    · intro hlimited i nodes hnodes n hn m hm
      dsimp only at hnodes ⊢
      rw [hprocs, count_map_pair, count_map_pair]
      split_ifs with hi
      · subst hi
        obtain rfl : getTargetNodes (unmapped node targets).view app = nodes := by
          simpa [unmapped, ← hidx] using hnodes
        exact plan_spread hlimited hn hm
      · exact Nat.zero_le _

theorem Mapped.unmapped (hnil : cfg.plan (Job.new node) app = []) : t = LoadBalance.unmapped node t.targets := by
  obtain ⟨bookmark, vpids, hbookmark, hok, rfl⟩ := h.computed
  rw [plan_unmapped, hnil] at hok ⊢
  have hvpids : vpids = noVpids := by
    rcases computeVpids_policy _ hok with hslot | hnode
    · rw [computeVpids_byslot _ hslot] at hok
      exact (Except.ok.inj (Option.some.inj hok)).symm
    · by_cases hslot : cfg.policy.bySlots
      · rw [computeVpids_byslot (Job.jobMap _ cfg.policy) hslot] at hok
        exact (Except.ok.inj (Option.some.inj hok)).symm
      · rw [computeVpids_bynode (Job.jobMap _ cfg.policy) hslot hnode] at hok
        exact (Except.ok.inj (Option.some.inj hok)).symm
  rw [hvpids, hbookmark hnil]
  rfl

end

theorem appLoop_concat (h : cfg.appLoop (apps ++ [app]) s = .ok (t, total)) :
    ∃ s' before, cfg.appLoop apps s = .ok (s', before) ∧ Mapped cfg apps.length s' app t total := by
  rw [Config.appLoop, zipIdx_append, foldlM_append] at h
  obtain ⟨⟨s', before⟩, hs, hlast⟩ := bind_eq_ok h
  rw [zero_add, zipIdx_singleton, foldlM_cons] at hlast
  obtain ⟨r, hr, hok⟩ := bind_eq_ok hlast
  obtain rfl := Except.ok.inj hok
  exact ⟨s', before, hs, mapApp_mapped hr⟩

theorem Mapped.rest (h : Mapped cfg idx s app t total) :
    t.procs = s.procs ++ (cfg.plan s app).map (fun n => (n, idx)) ∧
      t.targets = s.targets ++ [getTargetNodes s.view app] := by
  obtain ⟨bookmark, vpids, -, -, rfl⟩ := h.computed
  exact ⟨claimAll_procs s _, rfl⟩

theorem appLoop_spec (h : cfg.appLoop apps (Job.new node) = .ok (t, total)) : t.targets.length = apps.length ∧
    (t.procs = [] ↔ ∀ a ∈ apps, cfg.plan (Job.new node) a = []) ∧
    (t.procs = [] → t = unmapped node t.targets) := by
  induction apps using List.reverseRecOn generalizing t total with
  | nil =>
    obtain ⟨rfl, rfl⟩ := Prod.mk.inj (Except.ok.inj h)
    simp [Job.new, unmapped]
  | append_singleton apps app ih =>
    obtain ⟨s, before, hs, hmapped⟩ := appLoop_concat h
    obtain ⟨htargets, hprocs, hsame⟩ := ih hs
    have hnil : t.procs = [] ↔ s.procs = [] ∧ cfg.plan s app = [] := by
      rw [hmapped.rest.1, append_eq_nil_iff, map_eq_nil_iff]
    refine ⟨by simp [hmapped.rest.2, htargets], ?_, fun ht => ?_⟩
    · rw [hnil, forall_mem_append, ← hprocs, forall_mem_singleton]
      refine and_congr_right fun hs => ?_
      rw [hsame hs]
      rfl
    · obtain ⟨hs, hplan⟩ := hnil.mp ht
      rw [hsame hs] at hmapped hplan
      exact hmapped.unmapped hplan

theorem allFair_concat {before : List (App ν)} : cfg.AllFair s (before ++ [app]) ↔
    (∀ a ∈ before, cfg.plan s a = []) ∧ cfg.Fair s app := by
  constructor
  · rintro (hnil | ⟨before', app', heq, hplan, hfair⟩)
    · simp at hnil
    · obtain ⟨rfl, hsingle⟩ := append_inj' heq rfl
      obtain rfl := singleton_inj.mp hsingle
      exact ⟨hplan, hfair⟩
  · rintro ⟨hplan, hfair⟩
    exact .inr ⟨before, app, rfl, hplan, hfair⟩

end Job

/-- By slot, so many processes on the one node, for an application on it. -/
def onOneNode (npernode : ℕ) : Config Unit :=
  { map := ⟨false, 1, npernode, false⟩
    policy := ⟨true, false, false, false⟩
    npernode := npernode
    nperboard := 0
    npersocket := 0
    boards := fun _ => 1
    socketsPerBoard := fun _ => 1 }

def fourSlots : Unit → Slots := fun _ => ⟨4, 0, 0⟩

def oneApp : App Unit := ⟨0, [()], fun _ => 4, List.nodup_singleton ()⟩

def mappedOnOneNode (npernode : ℕ) : Job Unit :=
  match (onOneNode npernode).mapJob [oneApp] (Job.new fourSlots) with
  | .ok t => t
  | .error _ => Job.new fourSlots

end OpenMPI.Rmaps.LoadBalance
