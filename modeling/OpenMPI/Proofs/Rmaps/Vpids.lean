import Mathlib.Data.Int.CardIntervalMod
import Mathlib.Tactic.LinearCombination
import OpenMPI.Rmaps.Vpids

/-!
# The ranks of a job

By node, the search for a free rank goes from the index of the node through its residue class modulo
the greatest common divisor of the numbers of nodes and processes, and through no other ranks.  So the
nodes of a class must have as many processes as the class has ranks (`Even`).
-/

namespace OpenMPI.Rmaps

open List Function Nat Option

variable {π ι : Type*}

variable {procs : ℕ → Option π} {N P : ℕ}

theorem seekVpid_used {fuel v : ℕ} (hused : procs v ≠ none) : seekVpid procs N P (fuel + 1) v =
    seekVpid procs N P fuel (if P ≤ v + N then v + N - P else v + N) :=
  if_neg hused

theorem seekVpid_spec {fuel v w : ℕ} (h : seekVpid procs N P fuel v = some w) :
    procs w = none ∧ w ≡ v [MOD Nat.gcd N P] := by
  induction fuel generalizing v with
  | zero => cases h
  | succ fuel ih =>
    by_cases hused : procs v = none
    · rw [seekVpid, if_pos hused] at h
      cases h
      exact ⟨hused, rfl⟩
    · rw [seekVpid_used hused] at h
      obtain ⟨hw, hmod⟩ := ih h
      refine ⟨hw, hmod.trans ?_⟩
      have hN : N ≡ 0 [MOD Nat.gcd N P] := Nat.modEq_zero_iff_dvd.mpr (Nat.gcd_dvd_left N P)
      have hP : P ≡ 0 [MOD Nat.gcd N P] := Nat.modEq_zero_iff_dvd.mpr (Nat.gcd_dvd_right N P)
      split_ifs with hle
      · have hback : v + N - P + P ≡ v + 0 [MOD Nat.gcd N P] := by
          rw [Nat.sub_add_cancel hle]
          exact hN.add_left v
        exact Nat.ModEq.add_right_cancel hP hback
      · exact hN.add_left v

theorem seekVpid_succ (hN : N ≤ P) {fuel v : ℕ} (hv : v < P) (hused : procs v ≠ none) :
    seekVpid procs N P (fuel + 1) v = seekVpid procs N P fuel ((v + N) % P) := by
  rw [seekVpid_used hused]
  by_cases hle : P ≤ v + N
  · rw [if_pos hle, mod_eq_sub_mod hle, mod_eq_of_lt (by omega)]
  · rw [if_neg hle, mod_eq_of_lt (by omega)]

theorem seekVpid_isSome (hN : N ≤ P) {fuel k v : ℕ} (hv : v < P) (hk : k < fuel)
    (hfree : procs ((v + k * N) % P) = none) : ∃ w < P, seekVpid procs N P fuel v = some w := by
  induction fuel generalizing k v with
  | zero => cases hk
  | succ fuel ih =>
    by_cases hused : procs v = none
    · exact ⟨v, hv, by rw [seekVpid, if_pos hused]⟩
    · rw [seekVpid_succ hN hv hused]
      rcases k with _ | k
      · rw [zero_mul, add_zero, mod_eq_of_lt hv] at hfree
        exact absurd hfree hused
      · refine ih (k := k) (mod_lt _ (by omega)) (by omega) ?_
        rwa [mod_add_mod, add_assoc, add_comm N, ← succ_mul]

theorem seekVpid_lt (hN : N ≤ P) {fuel v w : ℕ} (hv : v < P)
    (h : seekVpid procs N P fuel v = some w) : w < P := by
  induction fuel generalizing v with
  | zero => cases h
  | succ fuel ih =>
    by_cases hused : procs v = none
    · rw [seekVpid, if_pos hused] at h
      exact Option.some.inj h ▸ hv
    · rw [seekVpid_succ hN hv hused] at h
      exact ih (mod_lt _ (by omega)) h

theorem exists_steps {v i : ℕ} (hv : v < P) (hmod : i ≡ v [MOD Nat.gcd N P]) :
    ∃ k < P, (i + k * N) % P = v := by
  have hP : (P : ℤ) ≠ 0 := by omega
  obtain ⟨c, hc⟩ := Nat.modEq_iff_dvd.mp hmod
  rw [Nat.gcd_eq_gcd_ab] at hc
  let a : ℤ := Nat.gcdA N P * c
  have hlt := Int.emod_lt_of_pos a (show (0 : ℤ) < P by omega)
  have hnat : ((a % P).toNat : ℤ) = a % P := Int.toNat_of_nonneg (Int.emod_nonneg a hP)
  refine ⟨(a % P).toNat, by omega, ?_⟩
  have hint : ((i + (a % P).toNat * N : ℕ) : ℤ) ≡ v [ZMOD P] := by
    push_cast
    rw [hnat]
    calc (i : ℤ) + a % P * N ≡ i + a * N [ZMOD P] := ((Int.mod_modEq a P).mul_right N).add_left i
      _ = v - P * (Nat.gcdB N P * c) := by linear_combination -hc
      _ ≡ v [ZMOD P] := by
        rw [Int.modEq_iff_dvd]
        exact ⟨Nat.gcdB N P * c, by ring⟩
  have hmodP := (Int.natCast_modEq_iff).mp hint
  rwa [Nat.ModEq, mod_eq_of_lt hv] at hmodP

def nodeSlots (node : Option (List (Option π))) (i : ℕ) : List (ℕ × π) :=
  (node.getD []).filterMap (Option.map fun proc => (i, proc))

def slots (nodes : Nodes π) : List (ℕ × π) := nodes.zipIdx.flatMap fun (node, i) => nodeSlots node i

theorem eachProc_eq {σ : Type*} (nodes : Nodes π) (body : σ → ℕ → π → Option σ) (s : σ) :
    eachProc nodes body s = (slots nodes).foldlM (fun s x => body s x.1 x.2) s := by
  have hnode (f : σ → Option π → Option σ) (procs : List (Option π)) (i : ℕ) (s : σ) (hnone : ∀ s, f s none = some s)
      (hsome : ∀ s proc, f s (some proc) = body s i proc) :
      procs.foldlM f s = (procs.filterMap (Option.map fun proc => (i, proc))).foldlM (fun s x => body s x.1 x.2) s := by
    induction procs generalizing s with
    | nil => rfl
    | cons proc procs ih =>
      rcases proc with _ | proc
      · rw [foldlM_cons, hnone]
        exact ih s
      · simp only [foldlM_cons, filterMap_cons_some (map_some ..), hsome]
        exact congrArg _ (funext ih)
  unfold eachProc slots
  generalize nodes.zipIdx = l
  induction l generalizing s with
  | nil => rfl
  | cons x l ih =>
    obtain ⟨node, i⟩ := x
    rw [foldlM_cons, flatMap_cons, foldlM_append]
    rcases node with _ | procs
    · exact ih s
    · exact congrArg₂ Option.bind (hnode _ procs i s (fun _ => rfl) fun _ _ => rfl) (funext ih)

variable [DecidableEq π] [DecidableEq ι]

def own (jobidOf : π → ι) (map : JobMap π ι) : List (ℕ × π) :=
  (slots map.nodes).filter fun x => jobidOf x.2 = map.jobid

/-- A map of processes none of which has a rank yet; nodes are in the map for the sake of processes of
the job. -/
structure Fresh (jobidOf : π → ι) (map : JobMap π ι) (s : Vpids π) : Prop where
  nodup : ((slots map.nodes).map Prod.snd).Nodup
  numProcs : map.numProcs = (own jobidOf map).length
  numNodes : map.numNodes = (map.nodes.filterMap id).length
  used : ∀ node ∈ map.nodes, ∀ procs, node = some procs →
    ∃ proc, some proc ∈ procs ∧ jobidOf proc = map.jobid
  vpid : ∀ x ∈ own jobidOf map, s.vpid x.2 = none
  procs : ∀ v, s.procs v = none

/-- The processes of the job have the ranks below `num_procs`, each exactly once. -/
structure Ranked (jobidOf : π → ι) (map : JobMap π ι) (s : Vpids π) : Prop where
  rank : ∀ x ∈ own jobidOf map, ∃ v < map.numProcs, s.vpid x.2 = some v ∧ s.procs v = some x.2
  all : ∀ v < map.numProcs, ∃ x ∈ own jobidOf map, s.vpid x.2 = some v ∧ s.procs v = some x.2

structure Placed (done : List (ℕ × π)) (s : Vpids π) : Prop where
  rank : ∀ x ∈ done, ∃ v, s.vpid x.2 = some v ∧ s.procs v = some x.2
  owner : ∀ v p, s.procs v = some p → ∃ x ∈ done, x.2 = p ∧ s.vpid p = some v

theorem Placed.place {done : List (ℕ × π)} {s : Vpids π} (h : Placed done s) {x : ℕ × π} {v : ℕ}
    (hx : x.2 ∉ done.map Prod.snd) (hv : s.procs v = none) :
    Placed (done ++ [x]) (setProc { s with vpid := update s.vpid x.2 (some v) } x.2) := by
  have hset : setProc { s with vpid := update s.vpid x.2 (some v) } x.2 =
      ⟨update s.vpid x.2 (some v), update s.procs v (some x.2)⟩ := by
    simp [setProc, hv]
  rw [hset]
  have hne {y : ℕ × π} (hy : y ∈ done) : y.2 ≠ x.2 := fun heq => hx (heq ▸ mem_map_of_mem hy)
  refine ⟨fun y hy => ?_, fun w p hw => ?_⟩
  · rcases mem_append.mp hy with hy | hy
    · obtain ⟨w, hvpid, hproc⟩ := h.rank y hy
      have hwv : w ≠ v := by
        rintro rfl
        exact absurd (hv.symm.trans hproc) nofun
      exact ⟨w, by simp [hne hy, hvpid], by simp [hwv, hproc]⟩
    · obtain rfl := mem_singleton.mp hy
      exact ⟨v, by simp, by simp⟩
  · by_cases hwv : w = v
    · subst hwv
      obtain rfl : x.2 = p := by simpa using hw
      exact ⟨x, by simp, rfl, by simp⟩
    · have hw' : s.procs w = some p := by simpa [hwv] using hw
      obtain ⟨y, hy, rfl, hvpid⟩ := h.owner w p hw'
      exact ⟨y, mem_append_left _ hy, rfl, by simp [hne hy, hvpid]⟩

omit [DecidableEq π] in
theorem Placed.count_le {done : List (ℕ × π)} {s : Vpids π} (h : Placed done s) (P : ℕ) (q : ℕ → Bool)
    (q' : ℕ × π → Bool) (hq : ∀ x ∈ done, ∀ v, s.vpid x.2 = some v → q v = true → q' x = true)
    (htaken : ∀ v < P, q v = true → s.procs v ≠ none) :
    ((range P).filter q).length ≤ (done.filter q').length := by
  have hinj : (((range P).filter q).map s.procs).Nodup := by
    refine List.Nodup.map_on (fun v hv w hw heq => ?_) (List.nodup_range.filter q)
    obtain ⟨p, hp⟩ := ne_none_iff_exists'.mp
      (htaken v (mem_range.mp (mem_filter.mp hv).1) (mem_filter.mp hv).2)
    obtain ⟨x, -, hx, hvpid⟩ := h.owner v p hp
    obtain ⟨y, -, hy, hvpid'⟩ := h.owner w p (heq ▸ hp)
    exact Option.some.inj (hvpid.symm.trans hvpid')
  have hsub : ((range P).filter q).map s.procs ⊆ (done.filter q').map fun x => some x.2 := by
    intro o ho
    obtain ⟨v, hv, rfl⟩ := mem_map.mp ho
    obtain ⟨hv, hqv⟩ := mem_filter.mp hv
    obtain ⟨p, hp⟩ := ne_none_iff_exists'.mp (htaken v (mem_range.mp hv) hqv)
    obtain ⟨x, hx, rfl, hvpid⟩ := h.owner v p hp
    exact mem_map.mpr ⟨x, mem_filter.mpr ⟨hx, hq x hx v hvpid hqv⟩, hp.symm⟩
  simpa using (subperm_of_subset hinj hsub).length_le

/-- Each process gone through has a rank of the kind `good` for the index of its node. -/
def AllGood (good : ℕ → ℕ → Prop) (done : List (ℕ × π)) (s : Vpids π) : Prop :=
  Placed done s ∧ ∀ x ∈ done, ∀ v, s.vpid x.2 = some v → good x.1 v

theorem AllGood.place {good : ℕ → ℕ → Prop} {done : List (ℕ × π)} {s : Vpids π} (h : AllGood good done s)
    {x : ℕ × π} {v : ℕ} (hx : x.2 ∉ done.map Prod.snd) (hv : s.procs v = none) (hgood : good x.1 v) :
    AllGood good (done ++ [x]) (setProc { s with vpid := update s.vpid x.2 (some v) } x.2) := by
  have hvpid : (setProc { s with vpid := update s.vpid x.2 (some v) } x.2).vpid =
      update s.vpid x.2 (some v) := by
    simp [setProc, hv]
  refine ⟨h.1.place hx hv, fun y hy w hw => ?_⟩
  rw [hvpid] at hw
  rcases mem_append.mp hy with hy | hy
  · have hne : y.2 ≠ x.2 := fun heq => hx (heq ▸ mem_map_of_mem hy)
    rw [update_of_ne hne] at hw
    exact h.2 y hy w hw
  · obtain rfl := mem_singleton.mp hy
    rw [update_self] at hw
    exact Option.some.inj hw ▸ hgood

def run (jobidOf : π → ι) (job : ι) (find : (ℕ → Option π) → ℕ → Option ℕ) (l : List (ℕ × π))
    (s : Vpids π) : Option (Vpids π) :=
  l.foldlM (fun s x => placeProc jobidOf job find s x.1 x.2) s

variable {jobidOf : π → ι} {job : ι} {find : (ℕ → Option π) → ℕ → Option ℕ} {l : List (ℕ × π)}
  {s s' : Vpids π}

def Keeps (find : (ℕ → Option π) → ℕ → Option ℕ) (n : ℕ) (I : List (ℕ × π) → Vpids π → Prop) : Prop :=
  ∀ done s x v, I done s → x.2 ∉ done.map Prod.snd → done.length < n → find s.procs x.1 = some v →
    s.procs v = none ∧
      I (done ++ [x]) (setProc { s with vpid := Function.update s.vpid x.2 (some v) } x.2)

variable {n : ℕ} {I : List (ℕ × π) → Vpids π → Prop}

theorem AllGood.keeps {good : ℕ → ℕ → Prop} (hfind : ∀ done s i v, AllGood good done s →
    done.length < n → find s.procs i = some v → s.procs v = none ∧ good i v) :
    Keeps find n (AllGood (π := π) good) := by
  intro done s x v h hx hlen hv
  obtain ⟨hfree, hgood⟩ := hfind done s x.1 v h hlen hv
  exact ⟨hfree, h.place hx hfree hgood⟩

theorem run_keeps (hkeep : Keeps find n I) (hnodup : (l.map Prod.snd).Nodup)
    (hfresh : ∀ x ∈ l, jobidOf x.2 = job → s.vpid x.2 = none) (hrun : run jobidOf job find l s = some s') :
    ∀ done, I done s → (∀ x ∈ l, x.2 ∉ done.map Prod.snd) →
      (done ++ l.filter fun x => jobidOf x.2 = job).length ≤ n →
      I (done ++ l.filter fun x => jobidOf x.2 = job) s' ∧
        ∀ p, p ∉ l.map Prod.snd → s'.vpid p = s.vpid p := by
  induction l generalizing s with
  | nil =>
    intro done hdone _ _
    cases hrun
    rw [filter_nil, append_nil]
    exact ⟨hdone, fun _ _ => rfl⟩
  | cons x l ih =>
    intro done hdone hnew hlen
    rw [map_cons, nodup_cons] at hnodup
    obtain ⟨hx, hnodup⟩ := hnodup
    have hne {y : ℕ × π} (hy : y ∈ l) : y.2 ≠ x.2 := fun heq => hx (heq ▸ mem_map_of_mem hy)
    rw [run, foldlM_cons] at hrun
    by_cases hjob : jobidOf x.2 = job
    · have hcons : (x :: l).filter (fun x => jobidOf x.2 = job) =
          x :: l.filter fun x => jobidOf x.2 = job := filter_cons_of_pos (by simpa using hjob)
      rw [hcons] at hlen ⊢
      rw [placeProc, if_neg (not_not.mpr hjob), if_pos (hfresh x mem_cons_self hjob)] at hrun
      rcases hv : find s.procs x.1 with _ | v
      · simp [hv] at hrun
      · rw [hv] at hrun
        have hlen' : done.length < n := by
          rw [length_append, length_cons] at hlen
          omega
        obtain ⟨hfree, hkept⟩ := hkeep done s x v hdone (hnew x mem_cons_self) hlen' hv
        have hvpid : (setProc { s with vpid := update s.vpid x.2 (some v) } x.2).vpid =
            update s.vpid x.2 (some v) := by
          simp [setProc, hfree]
        have hnext := ih hnodup (fun y hy hyj => ?_) hrun (done ++ [x]) hkept (fun y hy hmem => ?_)
          (by rwa [append_assoc, singleton_append])
        · rw [append_assoc, singleton_append] at hnext
          refine ⟨hnext.1, fun p hp => ?_⟩
          rw [map_cons, mem_cons, not_or] at hp
          rw [hnext.2 p hp.2, hvpid, update_of_ne hp.1]
        · rw [hvpid, update_of_ne (hne hy)]
          exact hfresh y (mem_cons_of_mem x hy) hyj
        · rw [map_append, mem_append] at hmem
          rcases hmem with hmem | hmem
          · exact hnew y (mem_cons_of_mem x hy) hmem
          · exact hne hy (by simpa using hmem)
    · have hcons : (x :: l).filter (fun x => jobidOf x.2 = job) =
          l.filter fun x => jobidOf x.2 = job := filter_cons_of_neg (by simpa using hjob)
      rw [hcons] at hlen ⊢
      rw [placeProc, if_pos hjob] at hrun
      have hnext := ih hnodup (fun y hy => hfresh y (mem_cons_of_mem x hy)) hrun done hdone
        (fun y hy => hnew y (mem_cons_of_mem x hy)) hlen
      exact ⟨hnext.1, fun p hp => hnext.2 p fun h => hp (mem_cons_of_mem _ h)⟩

theorem run_isSome (hkeep : Keeps find n I) (hnodup : (l.map Prod.snd).Nodup)
    (hfresh : ∀ x ∈ l, jobidOf x.2 = job → s.vpid x.2 = none) (hstart : I [] s)
    (hlen : (l.filter fun x => jobidOf x.2 = job).length ≤ n)
    (hmeet : ∀ done x rest, done ++ x :: rest = (l.filter fun x => jobidOf x.2 = job) →
      ∀ s, I done s → ∃ v, find s.procs x.1 = some v) :
    ∃ s', run jobidOf job find l s = some s' := by
  induction l using List.reverseRecOn with
  | nil => exact ⟨s, rfl⟩
  | append_singleton l x ih =>
    rw [map_append, nodup_append] at hnodup
    rw [filter_append] at hlen hmeet
    have hlen' : (l.filter fun x => jobidOf x.2 = job).length ≤ n := by
      rw [length_append] at hlen
      omega
    obtain ⟨s₁, h₁⟩ := ih hnodup.1 (fun y hy => hfresh y (mem_append_left _ hy)) hlen'
      fun done y rest heq => hmeet done y (rest ++ [x].filter fun x => jobidOf x.2 = job) (by
        rw [← heq, append_assoc, cons_append])
    obtain ⟨hgood, hsame⟩ := run_keeps hkeep hnodup.1 (fun y hy => hfresh y (mem_append_left _ hy)) h₁ []
      hstart (by simp) hlen'
    rw [run, foldlM_append]
    change ∃ s', (run jobidOf job find l s).bind _ = some s'
    rw [h₁]
    by_cases hjob : jobidOf x.2 = job
    · have hx : x.2 ∉ l.map Prod.snd := fun h => hnodup.2.2 _ h _ (by simp) rfl
      have hnone := (hsame x.2 hx).trans (hfresh x (by simp) hjob)
      obtain ⟨v, hv⟩ := hmeet _ x [] (by simp [hjob]) s₁ hgood
      simp [placeProc, hjob, hnone, hv]
    · simp [placeProc, hjob]

variable {map : JobMap π ι}

theorem eachProc_placeProc (find : (ℕ → Option π) → ℕ → Option ℕ) (nodes : Nodes π) (s : Vpids π) :
    eachProc nodes (placeProc jobidOf job find) s = run jobidOf job find (slots nodes) s :=
  eachProc_eq nodes _ s

theorem Fresh.keeps (h : Fresh jobidOf map s) (hkeep : Keeps find map.numProcs I) (hstart : I [] s)
    (hrun : run jobidOf map.jobid find (slots map.nodes) s = some s') : I (own jobidOf map) s' := by
  refine (run_keeps hkeep h.nodup (fun x hx hj => h.vpid x ?_) hrun [] hstart (by simp) ?_).1
  · exact mem_filter.mpr ⟨hx, by simpa using hj⟩
  · rw [nil_append, h.numProcs, own]

theorem Fresh.isSome (h : Fresh jobidOf map s) (hkeep : Keeps find map.numProcs I) (hstart : I [] s)
    (hmeet : ∀ done x rest, done ++ x :: rest = own jobidOf map →
      ∀ s, I done s → ∃ v, find s.procs x.1 = some v) :
    ∃ s', run jobidOf map.jobid find (slots map.nodes) s = some s' := by
  refine run_isSome hkeep h.nodup (fun x hx hj => h.vpid x ?_) hstart ?_ hmeet
  · exact mem_filter.mpr ⟨hx, by simpa using hj⟩
  · rw [h.numProcs, own]

omit [DecidableEq π] in
theorem Fresh.own_nodup (h : Fresh jobidOf map s) : ((own jobidOf map).map Prod.snd).Nodup :=
  h.nodup.sublist (List.filter_sublist.map Prod.snd)

omit [DecidableEq π] in
theorem Placed.nil (hprocs : ∀ v, s.procs v = none) : Placed [] s where
  rank := nofun
  owner v _ hp := absurd ((hprocs v).symm.trans hp) nofun

omit [DecidableEq π] in
theorem Fresh.ranks_nodup (h : Fresh jobidOf map s) (hplaced : Placed (own jobidOf map) s') :
    ((own jobidOf map).map fun x => s'.vpid x.2).Nodup := by
  have hnodup := h.own_nodup
  refine List.Nodup.map_on (fun x hx y hy heq => ?_) hnodup.of_map
  obtain ⟨v, hvpid, hproc⟩ := hplaced.rank x hx
  obtain ⟨w, hvpid', hproc'⟩ := hplaced.rank y hy
  obtain rfl : v = w := Option.some.inj (hvpid.symm.trans (heq.trans hvpid'))
  exact inj_on_of_nodup_map hnodup hx hy (Option.some.inj (hproc.symm.trans hproc'))

omit [DecidableEq π] in
theorem Fresh.ranked (h : Fresh jobidOf map s) (hplaced : Placed (own jobidOf map) s')
    (hlt : ∀ x ∈ own jobidOf map, ∀ v, s'.vpid x.2 = some v → v < map.numProcs) :
    Ranked jobidOf map s' := by
  have hrank : ∀ x ∈ own jobidOf map, ∃ v < map.numProcs, s'.vpid x.2 = some v ∧ s'.procs v = some x.2 := by
    intro x hx
    obtain ⟨v, hvpid, hproc⟩ := hplaced.rank x hx
    exact ⟨v, hlt x hx v hvpid, hvpid, hproc⟩
  refine ⟨hrank, fun v hv => ?_⟩
  have hsub : ((own jobidOf map).map fun x => s'.vpid x.2) ⊆ (range map.numProcs).map some := by
    intro o ho
    obtain ⟨x, hx, rfl⟩ := mem_map.mp ho
    obtain ⟨w, hw, hvpid, -⟩ := hrank x hx
    exact mem_map.mpr ⟨w, mem_range.mpr hw, hvpid.symm⟩
  have hperm := (subperm_of_subset (h.ranks_nodup hplaced) hsub).perm_of_length_le
    (by simp [h.numProcs])
  obtain ⟨x, hx, hvpid⟩ := mem_map.mp
    (hperm.mem_iff.mpr (mem_map_of_mem (f := some) (mem_range.mpr hv)))
  obtain ⟨w, -, hvpid', hproc⟩ := hrank x hx
  obtain rfl : w = v := Option.some.inj (hvpid'.symm.trans hvpid)
  exact ⟨x, hx, hvpid, hproc⟩

omit [DecidableEq π] in
theorem nextVpid_free {procs : ℕ → Option π} (h : nextVpid procs n < n) :
    procs (nextVpid procs n) = none := by
  unfold nextVpid at h ⊢
  rcases hfind : (range n).find? fun v => (procs v).isNone with _ | v
  · rw [hfind] at h
    exact absurd h (lt_irrefl n)
  · simpa using find?_some hfind

omit [DecidableEq π] in
theorem Placed.nextVpid_lt {done : List (ℕ × π)} (h : Placed done s) (hlen : done.length < n) :
    nextVpid s.procs n < n := by
  by_contra hge
  have hall : ∀ v < n, s.procs v ≠ none := by
    intro v hv hfree
    unfold nextVpid at hge
    rcases hfind : (range n).find? fun v => (s.procs v).isNone with _ | w
    · have hnot := find?_eq_none.mp hfind v (mem_range.mpr hv)
      simp [hfree] at hnot
    · rw [hfind] at hge
      exact hge (mem_range.mp (mem_of_find?_eq_some hfind))
  have hle := h.count_le n (fun _ => true) (fun _ => true) (fun _ _ _ _ _ => rfl) fun v hv _ => hall v hv
  simp only [filter_true, length_range] at hle
  omega

theorem Fresh.byslot (h : Fresh jobidOf map s) : ∃ s',
    run jobidOf map.jobid (fun procs _ => some (nextVpid procs map.numProcs)) (slots map.nodes) s =
      some s' ∧ Ranked jobidOf map s' := by
  have hkeep : Keeps (fun procs _ => some (nextVpid procs map.numProcs)) map.numProcs
      (AllGood (π := π) fun _ v => v < map.numProcs) := by
    refine AllGood.keeps fun done s i v hdone hlen hv => ?_
    cases hv
    have hlt := hdone.1.nextVpid_lt hlen
    exact ⟨nextVpid_free hlt, hlt⟩
  have hstart : AllGood (fun _ v => v < map.numProcs) [] s := ⟨.nil h.procs, nofun⟩
  obtain ⟨s', hrun⟩ := h.isSome hkeep hstart fun _ _ _ _ s _ => ⟨_, rfl⟩
  obtain ⟨hplaced, hlt⟩ := h.keeps hkeep hstart hrun
  exact ⟨s', hrun, h.ranked hplaced hlt⟩

omit [DecidableEq π] in
theorem Fresh.numNodes_le (h : Fresh jobidOf map s) : map.numNodes ≤ map.numProcs := by
  rw [h.numNodes, h.numProcs, own, slots]
  have hused := h.used
  generalize map.nodes = nodes at hused ⊢
  generalize 0 = k
  induction nodes generalizing k with
  | nil => simp
  | cons node nodes ih =>
    have hnext := ih (fun node hnode => hused node (mem_cons_of_mem _ hnode)) (k + 1)
    rw [zipIdx_cons, flatMap_cons, filter_append, length_append]
    rcases node with _ | l
    · simpa [nodeSlots] using hnext
    · obtain ⟨proc, hproc, hjob⟩ := hused _ mem_cons_self l rfl
      have hmem : (k, proc) ∈ (nodeSlots (some l) k).filter fun x => jobidOf x.2 = map.jobid :=
        mem_filter.mpr ⟨mem_filterMap.mpr ⟨some proc, hproc, rfl⟩, by simpa using hjob⟩
      have hpos := length_pos_of_mem hmem
      have hcons : (some l :: nodes).filterMap id = l :: nodes.filterMap id := rfl
      rw [hcons, length_cons, add_comm]
      exact Nat.add_le_add hpos hnext

/-- The numbers of processes on the nodes go with the numbers of ranks: every residue class modulo the
greatest common divisor has as many processes as ranks. -/
def Even (jobidOf : π → ι) (map : JobMap π ι) : Prop :=
  let g := Nat.gcd map.numNodes map.numProcs
  (∀ x ∈ own jobidOf map, x.1 < map.numProcs) ∧
    ∀ c < g, ((own jobidOf map).filter fun x => x.1 % g = c).length = map.numProcs / g

theorem length_class {g P c : ℕ} (hdvd : g ∣ P) (hc : c < g) :
    ((range P).filter fun v => v % g = c).length = P / g := by
  have hcount := count_modEq_card P (by omega : 0 < g) c
  rw [mod_eq_zero_of_dvd hdvd, if_neg (Nat.not_lt_zero _), add_zero] at hcount
  rw [← hcount, Nat.count, countP_eq_length_filter]
  refine congrArg _ (filter_congr fun v _ => ?_)
  simp [Nat.ModEq, mod_eq_of_lt hc]

theorem Fresh.bynode (h : Fresh jobidOf map s) (heven : Even jobidOf map) : ∃ s',
    run jobidOf map.jobid (fun procs i => seekVpid procs map.numNodes map.numProcs map.numProcs i)
      (slots map.nodes) s = some s' ∧ Ranked jobidOf map s' := by
  obtain ⟨hlt, hclass⟩ := heven
  let good : ℕ → ℕ → Prop := fun i v =>
    (i < map.numProcs → v < map.numProcs) ∧ v ≡ i [MOD Nat.gcd map.numNodes map.numProcs]
  have hkeep : Keeps (fun procs i => seekVpid procs map.numNodes map.numProcs map.numProcs i) map.numProcs
      (AllGood (π := π) good) := by
    refine AllGood.keeps fun done s i v _ _ hv => ?_
    obtain ⟨hfree, hmod⟩ := seekVpid_spec hv
    exact ⟨hfree, fun hi => seekVpid_lt h.numNodes_le hi hv, hmod⟩
  have hstart : AllGood good [] s := ⟨.nil h.procs, nofun⟩
  obtain ⟨s', hrun⟩ := h.isSome hkeep hstart fun done x rest heq s hs => by
    have hx : x ∈ own jobidOf map := by simp [← heq]
    have hpos : 0 < Nat.gcd map.numNodes map.numProcs :=
      gcd_pos_of_pos_right _ (zero_lt_of_lt (hlt x hx))
    -- if all ranks of the class were taken, the class would have too many processes
    obtain ⟨v, hv, hmod, hfree⟩ : ∃ v < map.numProcs,
        v % Nat.gcd map.numNodes map.numProcs = x.1 % Nat.gcd map.numNodes map.numProcs ∧
          s.procs v = none := by
      by_contra hnone
      push Not at hnone
      have hle := hs.1.count_le map.numProcs
        (fun v => v % Nat.gcd map.numNodes map.numProcs = x.1 % Nat.gcd map.numNodes map.numProcs)
        (fun y => y.1 % Nat.gcd map.numNodes map.numProcs = x.1 % Nat.gcd map.numNodes map.numProcs)
        (fun y hy w hw hq => ?_) (fun v hv hq => hnone v hv (by simpa using hq))
      · have hall := hclass _ (mod_lt x.1 hpos)
        rw [← heq, filter_append, filter_cons_of_pos (by simp), length_append,
          length_cons] at hall
        rw [length_class (Nat.gcd_dvd_right ..) (mod_lt x.1 hpos)] at hle
        omega
      · have hmod := (hs.2 y hy w hw).2
        simp only [decide_eq_true_eq] at hq ⊢
        exact Eq.trans hmod.symm hq
    obtain ⟨k, hk, hkv⟩ := exists_steps (N := map.numNodes) hv (Nat.ModEq.symm hmod)
    obtain ⟨w, -, hw⟩ := seekVpid_isSome h.numNodes_le (hlt x hx) hk (hkv ▸ hfree)
    exact ⟨w, hw⟩
  obtain ⟨hplaced, hgood⟩ := h.keeps hkeep hstart hrun
  exact ⟨s', hrun, h.ranked hplaced fun x hx v hv => (hgood x hx v hv).1 (hlt x hx)⟩

omit [DecidableEq π] in
theorem setProc_vpid (s : Vpids π) (p : π) : (setProc s p).vpid = s.vpid := by
  unfold setProc
  split
  · rfl
  · split_ifs <;> rfl

theorem setProc_procs {v : ℕ} {p : π} (hfree : s.procs v = none) :
    (setProc { s with vpid := update s.vpid p (some v) } p).procs =
      update s.procs v (some p) := by
  simp [setProc, hfree]

theorem seekVpid_keeps (N P fuel : ℕ) : Keeps (fun procs i => seekVpid procs N P fuel i) P
    fun (done : List (ℕ × π)) s => AllGood (fun i v => v ≡ i [MOD Nat.gcd N P]) done s ∧
      ((∃ x ∈ done, P ≤ x.1) → ∃ v ≥ P, s.procs v ≠ none) := by
  rintro done s x v ⟨hgood, hlate⟩ hx hlen hv
  obtain ⟨hfree, hmod⟩ := seekVpid_spec hv
  refine ⟨hfree, hgood.place hx hfree hmod, ?_⟩
  rw [setProc_procs hfree]
  have hgrow {w : ℕ} (hw : s.procs w ≠ none) : update s.procs v (some x.2) w ≠ none := by
    by_cases hwv : w = v
    · simp [hwv]
    · simpa [hwv] using hw
  rintro ⟨y, hy, hle⟩
  rcases mem_append.mp hy with hy | hy
  · obtain ⟨w, hw, hused⟩ := hlate ⟨y, hy, hle⟩
    exact ⟨w, hw, hgrow hused⟩
  · obtain rfl := mem_singleton.mp hy
    refine ⟨y.1, hle, ?_⟩
    by_cases hfirst : s.procs y.1 = none
    · rcases fuel with _ | fuel
      · cases hv
      · simp only [seekVpid, if_pos hfirst, Option.some.injEq] at hv
        simp [hv]
    · exact hgrow hfirst

theorem Fresh.even (h : Fresh jobidOf map s) {fuel : ℕ}
    (hrun : run jobidOf map.jobid (fun procs i => seekVpid procs map.numNodes map.numProcs fuel i)
      (slots map.nodes) s = some s') (hranked : Ranked jobidOf map s') : Even jobidOf map := by
  obtain ⟨⟨hplaced, hmod⟩, hlate⟩ := h.keeps (seekVpid_keeps _ _ _)
    ⟨⟨.nil h.procs, nofun⟩, fun ⟨_, hx, _⟩ => absurd hx nofun⟩ hrun
  refine ⟨fun x hx => ?_, fun c hc => le_antisymm ?_ ?_⟩
  · by_contra hge
    obtain ⟨v, hv, hused⟩ := hlate ⟨x, hx, by omega⟩
    obtain ⟨p, hp⟩ := ne_none_iff_exists'.mp hused
    obtain ⟨y, hy, rfl, hvpid⟩ := hplaced.owner v p hp
    obtain ⟨w, hw, hvpid', -⟩ := hranked.rank y hy
    obtain rfl : v = w := Option.some.inj (hvpid.symm.trans hvpid')
    omega
  · -- the processes of the class have ranks of the class
    have hsub : (((own jobidOf map).filter fun x => x.1 % Nat.gcd map.numNodes map.numProcs = c).map
        fun x => s'.vpid x.2) ⊆
        ((range map.numProcs).filter fun v => v % Nat.gcd map.numNodes map.numProcs = c).map some := by
      intro o ho
      obtain ⟨x, hx, rfl⟩ := mem_map.mp ho
      obtain ⟨hx, hxc⟩ := mem_filter.mp hx
      obtain ⟨v, hv, hvpid, -⟩ := hranked.rank x hx
      refine mem_map.mpr ⟨v, mem_filter.mpr ⟨mem_range.mpr hv, ?_⟩, hvpid.symm⟩
      simp only [decide_eq_true_eq] at hxc ⊢
      exact Eq.trans (hmod x hx v hvpid) hxc
    have hle := (subperm_of_subset
      ((h.ranks_nodup hplaced).sublist (List.filter_sublist.map _)) hsub).length_le
    rwa [length_map, length_map, length_class (Nat.gcd_dvd_right ..) hc] at hle
  · -- and all ranks of the class are taken
    have hle := hplaced.count_le map.numProcs
      (fun v => v % Nat.gcd map.numNodes map.numProcs = c)
      (fun x => x.1 % Nat.gcd map.numNodes map.numProcs = c) (fun x hx v hv hq => ?_) (fun v hv _ => ?_)
    · rwa [length_class (Nat.gcd_dvd_right ..) hc] at hle
    · simp only [decide_eq_true_eq] at hq ⊢
      exact Eq.trans (hmod x hx v hv).symm hq
    · obtain ⟨x, -, -, hproc⟩ := hranked.all v hv
      simp [hproc]

def Policy.bySlots (policy : Policy) : Prop := policy.byslot ∨ policy.bysocket ∨ policy.byboard

instance (policy : Policy) : Decidable policy.bySlots := inferInstanceAs (Decidable (_ ∨ _ ∨ _))

theorem computeVpids_byslot (map : JobMap π ι) (hslot : map.policy.bySlots) (fuel : ℕ) :
    computeVpids fuel jobidOf map s = (run jobidOf map.jobid (fun procs _ => some (nextVpid procs map.numProcs))
      (slots map.nodes) s).map .ok := by
  rw [Policy.bySlots] at hslot
  rw [computeVpids, if_pos hslot, eachProc_placeProc]

theorem computeVpids_bynode (map : JobMap π ι) (hslot : ¬ map.policy.bySlots) (hnode : map.policy.bynode) (fuel : ℕ) :
    computeVpids fuel jobidOf map s = (run jobidOf map.jobid
      (fun procs i => seekVpid procs map.numNodes map.numProcs fuel i) (slots map.nodes) s).map .ok := by
  rw [Policy.bySlots] at hslot
  rw [computeVpids, if_neg hslot, if_pos hnode, eachProc_placeProc]

theorem computeVpids_policy (map : JobMap π ι) {fuel : ℕ} (h : computeVpids fuel jobidOf map s = some (.ok s')) :
    map.policy.bySlots ∨ map.policy.bynode := by
  by_contra hnone
  rw [not_or, Policy.bySlots] at hnone
  rw [computeVpids, if_neg hnone.1, if_neg hnone.2] at h
  cases h

theorem computeVpids_ranked_iff (h : Fresh jobidOf map s)
    (hpolicy : map.policy.bySlots ∨ map.policy.bynode) :
    (∃ fuel s', computeVpids fuel jobidOf map s = some (.ok s') ∧ Ranked jobidOf map s') ↔
      map.policy.bySlots ∨ Even jobidOf map := by
  by_cases hslot : map.policy.bySlots
  · refine iff_of_true ?_ (.inl hslot)
    obtain ⟨s', hrun, hranked⟩ := h.byslot
    exact ⟨0, s', by rw [computeVpids_byslot map hslot, hrun, map_some], hranked⟩
  · have hnode := hpolicy.resolve_left hslot
    constructor
    · rintro ⟨fuel, s', hsome, hranked⟩
      rw [computeVpids_bynode map hslot hnode, map_eq_some_iff] at hsome
      obtain ⟨s₁, hrun, hok⟩ := hsome
      obtain rfl := Except.ok.inj hok
      exact .inr (h.even hrun hranked)
    · rintro (h' | heven)
      · exact absurd h' hslot
      · obtain ⟨s', hrun, hranked⟩ := h.bynode heven
        exact ⟨map.numProcs, s', by rw [computeVpids_bynode map hslot hnode, hrun, map_some], hranked⟩

def threeAndOne (policy : Policy) : JobMap ℕ ℕ :=
  ⟨policy, [some [some 0, some 1, some 2], some [some 3]], 2, 0, 4⟩

def unranked : Vpids ℕ := ⟨fun _ => none, fun _ => none⟩

theorem threeAndOne_fresh (policy : Policy) : Fresh (fun _ => 0) (threeAndOne policy) unranked where
  nodup := (by decide : [0, 1, 2, 3].Nodup)
  numProcs := rfl
  numNodes := rfl
  used := by
    intro node hnode l hl
    subst hl
    simp only [threeAndOne, mem_cons, Option.some.injEq, not_mem_nil, or_false] at hnode
    rcases hnode with rfl | rfl
    · exact ⟨0, by decide, rfl⟩
    · exact ⟨3, by decide, rfl⟩
  vpid := fun _ _ => rfl
  procs := fun _ => rfl

theorem computeVpids_ranked_iff_threeAndOne :
    (∃ fuel s', computeVpids fuel (fun _ => 0) (threeAndOne ⟨true, false, false, false⟩) unranked =
      some (.ok s') ∧ Ranked (fun _ => 0) (threeAndOne ⟨true, false, false, false⟩) s') ↔
      (threeAndOne ⟨true, false, false, false⟩).policy.bySlots ∨
        Even (fun _ => 0) (threeAndOne ⟨true, false, false, false⟩) :=
  computeVpids_ranked_iff (threeAndOne_fresh _) (.inl (by decide))

/-- By node, the third process of the first node finds no rank. -/
theorem threeAndOne_bynode : ¬ ∃ fuel s',
    computeVpids fuel (fun _ => 0) (threeAndOne ⟨false, false, false, true⟩) unranked = some (.ok s') ∧
      Ranked (fun _ => 0) (threeAndOne ⟨false, false, false, true⟩) s' := by
  rintro ⟨fuel, s', hsome, hranked⟩
  rw [computeVpids_bynode _ (by decide) rfl, map_eq_some_iff] at hsome
  obtain ⟨s₁, hrun, hok⟩ := hsome
  obtain rfl := Except.ok.inj hok
  have heven := ((threeAndOne_fresh _).even hrun hranked).2 0 (by decide)
  exact absurd heven (by decide)

end OpenMPI.Rmaps
