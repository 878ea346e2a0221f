import Mathlib.Data.Finset.Lattice.Fold
import OpenMPI.Rmaps.Ranks

/-!
# Local and node ranks

The loop over a node gives the new processes of a job their ranks in the order of their vpids
(`rankNode_eq`).  The local ranks start at 0 and the node ranks at the node's counter, whatever ranks are
in use: `update_local_ranks` takes ranks without the counter being told.  `Room` says that the ranks to
be given are free.
-/

namespace OpenMPI.Rmaps

open List Function

variable {π ν ι : Type*} [DecidableEq π] [DecidableEq ν] [DecidableEq ι]

omit [DecidableEq π] [DecidableEq ι] in
theorem minVpid_spec (proc : π → Proc ι) (wanted : Proc ι → Bool) (procs : List (Option π)) :
    (∀ p, minVpid proc wanted procs = some p → some p ∈ procs ∧ wanted (proc p) ∧
      ∀ q, some q ∈ procs → wanted (proc q) → (proc p).vpid ≤ (proc q).vpid) ∧
    (minVpid proc wanted procs = none →
      ∀ q, some q ∈ procs → wanted (proc q) → vpidMax ≤ (proc q).vpid) := by
  unfold minVpid
  generalize hbest : procs.foldl _ _ = best
  suffices h : (∀ p, best.2 = some p → best.1 = (proc p).vpid ∧ some p ∈ procs ∧ wanted (proc p)) ∧
      (best.2 = none → best.1 = vpidMax) ∧
      ∀ q, some q ∈ procs → wanted (proc q) → best.1 ≤ (proc q).vpid by
    obtain ⟨hsome, hnone, hmin⟩ := h
    refine ⟨fun p hp => ?_, fun hp q hq hw => hnone hp ▸ hmin q hq hw⟩
    obtain ⟨heq, hmem, hw⟩ := hsome p hp
    exact ⟨hmem, hw, fun q hq hw => heq ▸ hmin q hq hw⟩
  induction procs using List.reverseRecOn generalizing best with
  | nil =>
    subst hbest
    exact ⟨nofun, fun _ => rfl, nofun⟩
  | append_singleton procs x ih =>
    rw [foldl_append] at hbest
    obtain ⟨hsome, hnone, hmin⟩ := ih _ rfl
    generalize procs.foldl _ _ = best₀ at hbest hsome hnone hmin
    obtain ⟨minv, psave⟩ := best₀
    simp only [mem_append, mem_singleton]
    have hkeep : (∀ p, psave = some p → minv = (proc p).vpid ∧ (some p ∈ procs ∨ some p = x) ∧
        wanted (proc p)) ∧ (psave = none → minv = vpidMax) :=
      ⟨fun p hp => ⟨(hsome p hp).1, .inl (hsome p hp).2.1, (hsome p hp).2.2⟩, hnone⟩
    rcases x with _ | p
    · subst hbest
      refine ⟨hkeep.1, hkeep.2, fun q hq hw => ?_⟩
      rcases hq with hq | hq
      · exact hmin q hq hw
      · cases hq
    · simp only [foldl_cons, foldl_nil] at hbest
      by_cases htake : wanted (proc p) ∧ (proc p).vpid < minv
      · rw [if_pos htake] at hbest
        subst hbest
        refine ⟨fun q hq => ?_, fun hp => absurd hp nofun, fun q hq hw => ?_⟩
        · cases hq
          exact ⟨rfl, .inr rfl, htake.1⟩
        · rcases hq with hq | hq
          · exact htake.2.le.trans (hmin q hq hw)
          · cases hq
            exact le_rfl
      · rw [if_neg htake] at hbest
        subst hbest
        refine ⟨hkeep.1, hkeep.2, fun q hq hw => ?_⟩
        rcases hq with hq | hq
        · exact hmin q hq hw
        · cases hq
          exact not_lt.mp fun hlt => htake ⟨hw, hlt⟩

def place (proc : π → Proc ι) (new : Finset π) (p : π) : ℕ :=
  (new.filter fun q => (proc q).vpid < (proc p).vpid).card

section Place

variable {proc : π → Proc ι} {new : Finset π}

omit [DecidableEq π] [DecidableEq ι] in
theorem place_mono {p q : π} (h : (proc p).vpid ≤ (proc q).vpid) : place proc new p ≤ place proc new q :=
  Finset.card_le_card (Finset.monotone_filter_right _ fun _ _ hr => hr.trans_le h)

omit [DecidableEq π] [DecidableEq ι] in
theorem place_lt_place {p q : π} (hp : p ∈ new) (h : (proc p).vpid < (proc q).vpid) :
    place proc new p < place proc new q := by
  refine Finset.card_lt_card (Finset.ssubset_iff_of_subset
    (Finset.monotone_filter_right _ fun _ _ hr => hr.trans h) |>.mpr ⟨p, ?_, ?_⟩)
  · simpa using ⟨hp, h⟩
  · simp

omit [DecidableEq π] [DecidableEq ι] in
theorem place_lt (proc : π → Proc ι) {p : π} (hp : p ∈ new) : place proc new p < new.card :=
  Finset.card_lt_card (Finset.filter_ssubset.mpr ⟨p, hp, lt_irrefl _⟩)

omit [DecidableEq π] [DecidableEq ι] in
theorem place_inj (hvpid : ∀ p ∈ new, ∀ q ∈ new, (proc p).vpid = (proc q).vpid → p = q)
    {p q : π} (hp : p ∈ new) (hq : q ∈ new) (h : place proc new p = place proc new q) :
    p = q := by
  refine hvpid p hp q hq (le_antisymm ?_ ?_)
  · exact not_lt.mp fun hlt => (place_lt_place hq hlt).ne' h
  · exact not_lt.mp fun hlt => (place_lt_place hp hlt).ne h

omit [DecidableEq π] [DecidableEq ι] in
theorem exists_place (hvpid : ∀ p ∈ new, ∀ q ∈ new, (proc p).vpid = (proc q).vpid → p = q)
    {i : ℕ} (hi : i < new.card) : ∃ p ∈ new, place proc new p = i := by
  have himage : new.image (place proc new) = Finset.range new.card := by
    refine Finset.eq_of_subset_of_card_le (fun i hi => ?_) ?_
    · obtain ⟨p, hp, rfl⟩ := Finset.mem_image.mp hi
      exact Finset.mem_range.mpr (place_lt proc hp)
    · rw [Finset.card_range, Finset.card_image_of_injOn]
      exact fun p hp q hq => place_inj hvpid hp hq
  exact Finset.mem_image.mp (himage ▸ Finset.mem_range.mpr hi)

end Place

structure New (job : ι) (proc : π → Proc ι) (procs : List (Option π)) (new : Finset π) : Prop where
  mem : ∀ p ∈ new, some p ∈ procs
  unranked : ∀ p ∈ new, (proc p).jobid = job ∧ (proc p).vpid < vpidMax ∧
    (proc p).localRank = rankInvalid ∧ (proc p).nodeRank = rankInvalid
  old : ∀ p, some p ∈ procs → p ∉ new → (proc p).localRank ≠ rankInvalid ∧ (proc p).nodeRank ≠ rankInvalid
  vpid : ∀ p ∈ new, ∀ q ∈ new, (proc p).vpid = (proc q).vpid → p = q

def ranked (proc : π → Proc ι) (new : Finset π) (next i : ℕ) (p : π) : Proc ι :=
  if p ∈ new ∧ place proc new p < i then
    { proc p with localRank := place proc new p, nodeRank := next + place proc new p }
  else proc p

section Loop

variable {job : ι} {proc : π → Proc ι} {procs : List (Option π)} {new : Finset π} {next i : ℕ}

omit [DecidableEq ι] in
@[simp] theorem ranked_vpid (p : π) : (ranked proc new next i p).vpid = (proc p).vpid := by
  unfold ranked
  split_ifs <;> rfl

omit [DecidableEq ι] in
@[simp] theorem ranked_jobid (p : π) : (ranked proc new next i p).jobid = (proc p).jobid := by
  unfold ranked
  split_ifs <;> rfl

omit [DecidableEq ι] in
theorem New.unranked_iff (h : New job proc procs new) (hroom : next + new.card ≤ rankInvalid) {p : π}
    (hp : some p ∈ procs) :
    ((ranked proc new next i p).localRank = rankInvalid ↔ p ∈ new ∧ i ≤ place proc new p) ∧
      ((ranked proc new next i p).nodeRank = rankInvalid ↔ p ∈ new ∧ i ≤ place proc new p) := by
  unfold ranked
  by_cases hnew : p ∈ new
  · have hlt := place_lt proc hnew
    by_cases hi : place proc new p < i
    · rw [if_pos ⟨hnew, hi⟩]
      exact ⟨iff_of_false (by dsimp only; omega) (by omega), iff_of_false (by dsimp only; omega) (by omega)⟩
    · rw [if_neg fun hboth => hi hboth.2]
      obtain ⟨-, -, hlocal, hnode⟩ := h.unranked p hnew
      exact ⟨iff_of_true hlocal ⟨hnew, not_lt.mp hi⟩, iff_of_true hnode ⟨hnew, not_lt.mp hi⟩⟩
  · rw [if_neg fun hboth => hnew hboth.1]
    obtain ⟨hlocal, hnode⟩ := h.old p hp hnew
    exact ⟨iff_of_false hlocal fun hboth => hnew hboth.1, iff_of_false hnode fun hboth => hnew hboth.1⟩

omit [DecidableEq ι] in
theorem New.minVpid_eq (h : New job proc procs new) (hi : i < new.card) (wanted : Proc ι → Bool)
    (hwanted : ∀ p, some p ∈ procs →
      (wanted (ranked proc new next i p) ↔ p ∈ new ∧ i ≤ place proc new p)) :
    ∃ p ∈ new, place proc new p = i ∧ minVpid (ranked proc new next i) wanted procs = some p := by
  obtain ⟨q, hq, hplace⟩ := exists_place h.vpid hi
  have hqw := (hwanted q (h.mem q hq)).mpr ⟨hq, hplace.ge⟩
  obtain ⟨hsome, hnone⟩ := minVpid_spec (ranked proc new next i) wanted procs
  rcases hmin : minVpid (ranked proc new next i) wanted procs with _ | p
  · have hle := hnone hmin q (h.mem q hq) hqw
    rw [ranked_vpid] at hle
    exact absurd (h.unranked q hq).2.1 (not_lt.mpr hle)
  · obtain ⟨hp, hpw, hle⟩ := hsome p hmin
    obtain ⟨hpnew, hpi⟩ := (hwanted p hp).mp hpw
    refine ⟨p, hpnew, le_antisymm ?_ hpi, rfl⟩
    have hle := hle q (h.mem q hq) hqw
    rw [ranked_vpid, ranked_vpid] at hle
    exact (place_mono hle).trans hplace.le

omit [DecidableEq ι] in
theorem minVpid_none (hi : new.card ≤ i) (wanted : Proc ι → Bool)
    (hwanted : ∀ p, some p ∈ procs →
      (wanted (ranked proc new next i p) ↔ p ∈ new ∧ i ≤ place proc new p)) :
    minVpid (ranked proc new next i) wanted procs = none := by
  obtain ⟨hsome, -⟩ := minVpid_spec (ranked proc new next i) wanted procs
  rcases hmin : minVpid (ranked proc new next i) wanted procs with _ | p
  · rfl
  · obtain ⟨hp, hpw, -⟩ := hsome p hmin
    obtain ⟨hpnew, hpi⟩ := (hwanted p hp).mp hpw
    exact absurd (place_lt proc hpnew) (by omega)

omit [DecidableEq ι] in
theorem New.turn (h : New job proc procs new) (hroom : next + new.card ≤ rankInvalid) {p : π}
    (hp : p ∈ new) (hplace : place proc new p = i) :
    ((⟨ranked proc new next i, i, next + i⟩ : Ranking π ι).setLocal (some p)).setNode (some p) =
      ⟨ranked proc new next (i + 1), i + 1, next + (i + 1)⟩ := by
  have hi : i < new.card := hplace ▸ place_lt proc hp
  have hlocal : succRank i = i + 1 := Nat.mod_eq_of_lt (by unfold rankInvalid at hroom; omega)
  have hnode : succRank (next + i) = next + (i + 1) :=
    Nat.mod_eq_of_lt (by unfold rankInvalid at hroom; omega)
  simp only [Ranking.setLocal, Ranking.setNode, hlocal, hnode, update_self,
    Function.update_idem, Ranking.mk.injEq, and_true]
  funext q
  by_cases hqp : q = p
  · subst hqp
    rw [update_self, ranked, ranked, if_neg (by omega), if_pos ⟨hp, by omega⟩, hplace]
  · rw [update_of_ne hqp, ranked, ranked]
    refine if_congr (and_congr_right fun hq => ?_) rfl rfl
    have hne : place proc new q ≠ i := fun heq =>
      hqp (place_inj h.vpid hq hp (heq.trans hplace.symm))
    omega

theorem New.rankNode_eq (h : New job proc procs new) (hroom : next + new.card ≤ rankInvalid)
    (rest : List (Option π)) (hi : i ≤ new.card) :
    let j := min new.card (i + (rest.filterMap id).length)
    rankNode job procs rest ⟨ranked proc new next i, i, next + i⟩ =
      ⟨ranked proc new next j, j, next + j⟩ := by
  induction rest generalizing i with
  | nil => simp [rankNode, min_eq_right hi]
  | cons x rest ih =>
    rcases x with _ | x
    · exact ih hi
    · have hlocal : ∀ p, some p ∈ procs → (decide ((ranked proc new next i p).jobid = job ∧
          (ranked proc new next i p).localRank = rankInvalid) = true ↔ p ∈ new ∧ i ≤ place proc new p) := by
        intro p hp
        rw [decide_eq_true_eq, (h.unranked_iff hroom hp).1, ranked_jobid]
        exact and_iff_right_of_imp fun hnew => (h.unranked p hnew.1).1
      have hnode : ∀ p, some p ∈ procs → (decide ((ranked proc new next i p).nodeRank = rankInvalid) = true ↔
          p ∈ new ∧ i ≤ place proc new p) := by
        intro p hp
        rw [decide_eq_true_eq, (h.unranked_iff hroom hp).2]
      rw [rankNode]
      rcases lt_or_ge i new.card with hlt | hge
      · obtain ⟨p, hp, hplace, hmin⟩ := h.minVpid_eq hlt
          (fun p => p.jobid = job ∧ p.localRank = rankInvalid) hlocal
        obtain ⟨q, hq, hplace', hmin'⟩ := h.minVpid_eq hlt
          (fun p => p.nodeRank = rankInvalid) hnode
        obtain rfl : p = q := place_inj h.vpid hp hq (hplace.trans hplace'.symm)
        simp only [hmin, hmin', reduceCtorEq, and_self, if_false]
        rw [h.turn hroom hp hplace, ih hlt]
        have hlength : i + ((some x :: rest).filterMap id).length = i + 1 + (rest.filterMap id).length := by
          simp
          omega
        rw [hlength]
      · rw [minVpid_none hge (fun p => p.jobid = job ∧ p.localRank = rankInvalid) hlocal,
          minVpid_none hge (fun p => p.nodeRank = rankInvalid) hnode]
        obtain rfl : i = new.card := by omega
        simp

omit [DecidableEq π] [DecidableEq ι] in
theorem New.congr (h : New job proc procs new) {proc' : π → Proc ι}
    (heq : ∀ p, some p ∈ procs → proc' p = proc p) : New job proc' procs new where
  mem := h.mem
  unranked p hp := by
    rw [heq p (h.mem p hp)]
    exact h.unranked p hp
  old p hp := by
    rw [heq p hp]
    exact h.old p hp
  vpid p hp q hq := by
    rw [heq p (h.mem p hp), heq q (h.mem q hq)]
    exact h.vpid p hp q hq

omit [DecidableEq ι] in
theorem New.ranked_congr (h : New job proc procs new) {proc' : π → Proc ι}
    (heq : ∀ p, some p ∈ procs → proc' p = proc p) {p : π} (hp : some p ∈ procs) :
    ranked proc' new next i p = ranked proc new next i p := by
  have hplace : place proc' new p = place proc new p := by
    refine congrArg _ (Finset.filter_congr fun q hq => ?_)
    rw [heq p hp, heq q (h.mem q hq)]
  rw [ranked, ranked, hplace, heq p hp]

end Loop

omit [DecidableEq π] [DecidableEq ν] [DecidableEq ι] in
theorem mem_on {s : Cluster π ν ι} {n : ν} {p : π} : p ∈ s.on n ↔ some p ∈ (s.node n).procs := by
  simp [Cluster.on]

def newOn (s : Cluster π ν ι) (n : ν) : Finset π :=
  (s.on n).toFinset.filter fun p => (s.proc p).nodeRank = rankInvalid

/-- The ranks to be given on a node are free. -/
structure Room (job : ι) (s : Cluster π ν ι) (n : ν) : Prop where
  counter : (s.node n).nextNodeRank + (newOn s n).card ≤ rankInvalid
  nodeRank : ∀ p ∈ s.on n, (s.proc p).nodeRank ≠ rankInvalid →
    (s.proc p).nodeRank < (s.node n).nextNodeRank ∨
      (s.node n).nextNodeRank + (newOn s n).card ≤ (s.proc p).nodeRank
  localRank : ∀ p ∈ s.on n, (s.proc p).jobid = job → (s.proc p).localRank ≠ rankInvalid →
    (newOn s n).card ≤ (s.proc p).localRank

structure Good (s : Cluster π ν ι) : Prop where
  nodup : ∀ n, (s.on n).Nodup
  once : ∀ n m p, p ∈ s.on n → p ∈ s.on m → n = m
  valid : ∀ n, ∀ p ∈ s.on n, (s.proc p).localRank ≠ rankInvalid ∧ (s.proc p).nodeRank ≠ rankInvalid
  localRank : ∀ n, ∀ p ∈ s.on n, ∀ q ∈ s.on n, (s.proc p).jobid = (s.proc q).jobid →
    (s.proc p).localRank = (s.proc q).localRank → p = q
  nodeRank : ∀ n, ∀ p ∈ s.on n, ∀ q ∈ s.on n, (s.proc p).nodeRank = (s.proc q).nodeRank → p = q

section Map

variable {job : ι} {nodes : List (Option ν)} {s placed : Cluster π ν ι}

omit [DecidableEq ν] [DecidableEq ι] in
theorem mem_newOn {n : ν} {p : π} :
    p ∈ newOn s n ↔ p ∈ s.on n ∧ (s.proc p).nodeRank = rankInvalid := by
  simp [newOn]

omit [DecidableEq ν] [DecidableEq ι] in
theorem Mapped.new_iff (h : Mapped job nodes s placed) (hgood : Good s) {n : ν} {p : π} :
    p ∈ newOn placed n ↔ p ∈ placed.on n ∧ p ∉ s.on n := by
  rw [mem_newOn]
  refine and_congr_right fun hp => ⟨fun hinvalid hold => ?_, fun hnew => (h.new n p hp hnew).2.2.2.2⟩
  rw [(h.kept n p hold).2] at hinvalid
  exact (hgood.valid n p hold).2 hinvalid

omit [DecidableEq ν] [DecidableEq ι] in
theorem Mapped.isNew (h : Mapped job nodes s placed) (hgood : Good s) (n : ν) :
    New job placed.proc (placed.node n).procs (newOn placed n) where
  mem p hp := mem_on.mp (mem_newOn.mp hp).1
  unranked p hp := by
    obtain ⟨hon, hnew⟩ := (h.new_iff hgood).mp hp
    exact (h.new n p hon hnew).2
  old p hp hnot := by
    have hold : p ∈ s.on n := by
      by_contra hnew
      exact hnot ((h.new_iff hgood).mpr ⟨mem_on.mpr hp, hnew⟩)
    rw [(h.kept n p hold).2]
    exact hgood.valid n p hold
  vpid p hp q hq := by
    obtain ⟨hp, hpnew⟩ := (h.new_iff hgood).mp hp
    obtain ⟨hq, hqnew⟩ := (h.new_iff hgood).mp hq
    exact h.vpid n n p hp q hq (h.new n p hp hpnew).2.1 (h.new n q hq hqnew).2.1

theorem rankOn_eq {t : Cluster π ν ι} {n : ν} {new : Finset π}
    (h : New job t.proc (t.node n).procs new) (hroom : (t.node n).nextNodeRank + new.card ≤ rankInvalid) :
    rankOn job t n = ⟨ranked t.proc new (t.node n).nextNodeRank new.card,
      update t.node n { t.node n with nextNodeRank := (t.node n).nextNodeRank + new.card }⟩ := by
  have hstart : ranked t.proc new (t.node n).nextNodeRank 0 = t.proc := by
    funext p
    simp [ranked]
  have hcard : new.card ≤ ((t.node n).procs.filterMap id).length := by
    refine (Finset.card_le_card fun p hp => ?_).trans (toFinset_card_le _)
    simpa using h.mem p hp
  have hloop := h.rankNode_eq hroom (t.node n).procs (Nat.zero_le _)
  rw [hstart, Nat.zero_add, Nat.min_eq_left hcard] at hloop
  rw [rankOn]
  simp only [Nat.add_zero] at hloop
  rw [hloop]

theorem computeLocalRanks_none (l : List (Option ν)) (s : Cluster π ν ι) :
    computeLocalRanks job (l ++ [none]) s = computeLocalRanks job l s := by
  simp [computeLocalRanks]

theorem computeLocalRanks_some (l : List (Option ν)) (n : ν) (s : Cluster π ν ι) :
    computeLocalRanks job (l ++ [some n]) s = rankOn job (computeLocalRanks job l s) n := by
  simp [computeLocalRanks]

theorem Mapped.compute (h : Mapped job nodes s placed) (hgood : Good s) (l : List (Option ν))
    (hnodup : (l.filterMap id).Nodup) (hroom : ∀ n, some n ∈ l → Room job placed n) :
    (∀ n, ((computeLocalRanks job l placed).node n).procs = (placed.node n).procs) ∧
      (∀ n, some n ∉ l → (computeLocalRanks job l placed).node n = placed.node n) ∧
      ∀ n, ∀ p ∈ placed.on n, (computeLocalRanks job l placed).proc p = if some n ∈ l then
        ranked placed.proc (newOn placed n) (placed.node n).nextNodeRank (newOn placed n).card p
        else placed.proc p := by
  induction l using List.reverseRecOn with
  | nil => exact ⟨fun _ => rfl, fun _ _ => rfl, fun _ _ _ => rfl⟩
  | append_singleton l x ih =>
    rw [filterMap_append, nodup_append] at hnodup
    obtain ⟨hprocs, hnode, hproc⟩ := ih hnodup.1 fun n hn => hroom n (mem_append_left _ hn)
    rcases x with _ | m
    · rw [computeLocalRanks_none]
      refine ⟨hprocs, fun n hn => hnode n fun hmem => hn (mem_append_left _ hmem), fun n p hp => ?_⟩
      rw [hproc n p hp]
      exact if_congr (by simp) rfl rfl
    · have hm : some m ∉ l := fun hmem => hnodup.2.2 m (mem_filterMap.mpr ⟨_, hmem, rfl⟩) m (by simp) rfl
      rw [computeLocalRanks_some]
      generalize computeLocalRanks job l placed = t at hprocs hnode hproc ⊢
      have hsame : ∀ p, some p ∈ (placed.node m).procs → t.proc p = placed.proc p := by
        intro p hp
        rw [hproc m p (mem_on.mpr hp), if_neg hm]
      have hnew := h.isNew hgood m
      have hnew' := hnew.congr hsame
      rw [← hnode m hm] at hnew'
      have hcounter := (hroom m (by simp)).counter
      rw [← hnode m hm] at hcounter
      rw [rankOn_eq hnew' hcounter]
      refine ⟨fun n => ?_, fun n hn => ?_, fun n p hp => ?_⟩ <;> dsimp only
      · by_cases hnm : n = m
        · subst hnm
          rw [update_self, hprocs]
        · rw [update_of_ne hnm, hprocs]
      · have hnm : n ≠ m := fun heq => hn (by simp [heq])
        rw [update_of_ne hnm]
        exact hnode n fun hmem => hn (mem_append_left _ hmem)
      · by_cases hnm : n = m
        · subst hnm
          rw [if_pos (by simp), hnew.ranked_congr hsame (mem_on.mp hp), hnode n hm]
        · -- the processes of other nodes are not among the new ones of this node
          have hnot : p ∉ newOn placed m := fun hmem => hnm (h.once n m p hp (mem_newOn.mp hmem).1)
          rw [ranked, if_neg fun hboth => hnot hboth.1, hproc n p hp]
          exact if_congr (by simp [hnm]) rfl rfl

theorem Mapped.cases (h : Mapped job nodes s placed) (hgood : Good s)
    (hroom : ∀ n, some n ∈ nodes → Room job placed n) {n : ν} {p : π}
    (hp : p ∈ (computeLocalRanks job nodes placed).on n) :
    p ∈ s.on n ∧ (computeLocalRanks job nodes placed).proc p = placed.proc p ∨
      p ∈ newOn placed n ∧ some n ∈ nodes ∧ (placed.proc p).jobid = job ∧
        (computeLocalRanks job nodes placed).proc p = { placed.proc p with
          localRank := place placed.proc (newOn placed n) p
          nodeRank := (placed.node n).nextNodeRank + place placed.proc (newOn placed n) p } := by
  obtain ⟨hprocs, -, hproc⟩ := h.compute hgood nodes h.distinct hroom
  rw [mem_on, hprocs, ← mem_on] at hp
  rw [hproc n p hp]
  by_cases hold : p ∈ s.on n
  · refine .inl ⟨hold, ?_⟩
    have hnot : p ∉ newOn placed n := fun hmem => ((h.new_iff hgood).mp hmem).2 hold
    have hranked : ∀ next i, ranked placed.proc (newOn placed n) next i p = placed.proc p :=
      fun _ _ => if_neg fun hboth => hnot hboth.1
    rw [hranked, ite_self]
  · have hnew := (h.new_iff hgood).mpr ⟨hp, hold⟩
    obtain ⟨hn, hjob, -⟩ := h.new n p hp hold
    refine .inr ⟨hnew, hn, hjob, ?_⟩
    rw [if_pos hn, ranked, if_pos ⟨hnew, place_lt _ hnew⟩]

theorem Mapped.good (h : Mapped job nodes s placed) (hgood : Good s)
    (hroom : ∀ n, some n ∈ nodes → Room job placed n) : Good (computeLocalRanks job nodes placed) := by
  have hon (n : ν) : (computeLocalRanks job nodes placed).on n = placed.on n :=
    congrArg _ ((h.compute hgood nodes h.distinct hroom).1 n)
  -- a new process and an old one
  have hdiff {n : ν} {p q : π} (hp : p ∈ s.on n) (hq : q ∈ newOn placed n) (hn : some n ∈ nodes) :
      ((placed.proc p).jobid = job → (placed.proc p).localRank ≠ place placed.proc (newOn placed n) q) ∧
        (placed.proc p).nodeRank ≠
          (placed.node n).nextNodeRank + place placed.proc (newOn placed n) q := by
    have hlt := place_lt placed.proc hq
    obtain ⟨hp', hproc⟩ := h.kept n p hp
    obtain ⟨hlocal, hnode⟩ := hgood.valid n p hp
    rw [← hproc] at hlocal hnode
    refine ⟨fun hjob => ?_, ?_⟩
    · have hroom := (hroom n hn).localRank p hp' hjob hlocal
      omega
    · have hroom := (hroom n hn).nodeRank p hp' hnode
      omega
  refine ⟨fun n => hon n ▸ h.nodup n, fun n m p hp hq => ?_, fun n p hp => ?_, fun n p hp q hq => ?_,
    fun n p hp q hq => ?_⟩
  · rw [hon] at hp hq
    exact h.once n m p hp hq
  · rcases h.cases hgood hroom hp with ⟨hold, heq⟩ | ⟨hnew, hn, -, heq⟩
    · rw [heq, (h.kept n p hold).2]
      exact hgood.valid n p hold
    · have hlt := place_lt placed.proc hnew
      have hcounter := (hroom n hn).counter
      rw [heq]
      exact ⟨by dsimp only; omega, by dsimp only; omega⟩
  · rcases h.cases hgood hroom hp with ⟨hold, heq⟩ | ⟨hnew, hn, hjob, heq⟩ <;>
      rcases h.cases hgood hroom hq with ⟨hold', heq'⟩ | ⟨hnew', hn', hjob', heq'⟩ <;>
      rw [heq, heq']
    · rw [(h.kept n p hold).2, (h.kept n q hold').2]
      exact hgood.localRank n p hold q hold'
    · intro hjobs hranks
      exact absurd hranks ((hdiff hold hnew' hn').1 (hjobs.trans hjob'))
    · intro hjobs hranks
      exact absurd hranks.symm ((hdiff hold' hnew hn).1 (hjobs.symm.trans hjob))
    · intro _ hranks
      exact place_inj (h.isNew hgood n).vpid hnew hnew' hranks
  · rcases h.cases hgood hroom hp with ⟨hold, heq⟩ | ⟨hnew, hn, hjob, heq⟩ <;>
      rcases h.cases hgood hroom hq with ⟨hold', heq'⟩ | ⟨hnew', hn', hjob', heq'⟩ <;>
      rw [heq, heq']
    · rw [(h.kept n p hold).2, (h.kept n q hold').2]
      exact hgood.nodeRank n p hold q hold'
    · intro hranks
      exact absurd hranks (hdiff hold hnew' hn').2
    · intro hranks
      exact absurd hranks.symm (hdiff hold' hnew hn).2
    · intro hranks
      exact place_inj (h.isNew hgood n).vpid hnew hnew' (add_left_cancel hranks)

/-- Where a job has no processes yet, its local ranks are 0 to `k - 1` in the order of the vpids. -/
def Ordered (job : ι) (s : Cluster π ν ι) : Prop :=
  ∀ n, ∀ p ∈ s.on n, (s.proc p).jobid = job → (s.proc p).localRank =
    ((s.on n).toFinset.filter fun q => (s.proc q).jobid = job ∧ (s.proc q).vpid < (s.proc p).vpid).card

theorem Mapped.ordered (h : Mapped job nodes s placed) (hgood : Good s)
    (hroom : ∀ n, some n ∈ nodes → Room job placed n)
    (hfresh : ∀ n, ∀ p ∈ s.on n, (s.proc p).jobid ≠ job) :
    Ordered job (computeLocalRanks job nodes placed) := by
  have hon (n : ν) : (computeLocalRanks job nodes placed).on n = placed.on n :=
    congrArg _ ((h.compute hgood nodes h.distinct hroom).1 n)
  have hsame {n : ν} {q : π} (hq : q ∈ (computeLocalRanks job nodes placed).on n) :
      ((computeLocalRanks job nodes placed).proc q).jobid = (placed.proc q).jobid ∧
        ((computeLocalRanks job nodes placed).proc q).vpid = (placed.proc q).vpid := by
    rcases h.cases hgood hroom hq with ⟨-, heq⟩ | ⟨-, -, -, heq⟩ <;> simp [heq]
  intro n p hp hjob
  rcases h.cases hgood hroom hp with ⟨hold, -⟩ | ⟨-, -, -, heq⟩
  · rw [(hsame hp).1, (h.kept n p hold).2] at hjob
    exact absurd hjob (hfresh n p hold)
  · rw [heq]
    change place placed.proc (newOn placed n) p = _
    unfold place
    refine congrArg Finset.card (Finset.ext fun q => ?_)
    simp only [Finset.mem_filter, mem_toFinset, hon]
    constructor
    · rintro ⟨hq, hlt⟩
      obtain ⟨hqon, hqold⟩ := (h.new_iff hgood).mp hq
      rw [(hsame (hon n ▸ hqon)).1, (hsame (hon n ▸ hqon)).2]
      exact ⟨hqon, (h.new n q hqon hqold).2.1, hlt⟩
    · rintro ⟨hqon, hqjob, hlt⟩
      rw [(hsame (hon n ▸ hqon)).1] at hqjob
      rw [(hsame (hon n ▸ hqon)).2] at hlt
      refine ⟨(h.new_iff hgood).mpr ⟨hqon, fun hold => ?_⟩, hlt⟩
      rw [(h.kept n q hold).2] at hqjob
      exact hfresh n q hold hqjob

end Map

theorem retry_spec {inUse : ℕ → Bool} {fuel rank x : ℕ} (hfuel : rank + fuel = 2 ^ 16)
    (h : retry inUse fuel rank = some x) : inUse x = false ∧ ∀ y, rank ≤ y → y < x → inUse y = true := by
  induction fuel generalizing rank with
  | zero => cases h
  | succ fuel ih =>
    rw [retry] at h
    by_cases hused : inUse rank = true
    · rw [if_pos hused] at h
      rcases fuel with _ | fuel
      · cases h
      · have hsucc : succRank rank = rank + 1 := Nat.mod_eq_of_lt (by omega)
        rw [hsucc] at h
        obtain ⟨hfree, hall⟩ := ih (by omega) h
        refine ⟨hfree, fun y hy hlt => ?_⟩
        rcases eq_or_lt_of_le hy with rfl | hy
        · exact hused
        · exact hall y hy hlt
    · rw [if_neg hused] at h
      cases h
      exact ⟨by simpa using hused, fun y hy hlt => absurd hlt (not_lt.mpr hy)⟩

omit [DecidableEq π] in
theorem retry_any {l : List π} {x : ℕ} {has : π → ℕ → Prop} [∀ p, DecidablePred (has p)] {f : π → ℕ}
    (hhas : ∀ p y, has p y → f p = y)
    (h : retry (fun rank => l.any fun p => has p rank) (2 ^ 16) 0 = some x) :
    x ≤ l.length ∧ ∀ p ∈ l, ¬ has p x := by
  obtain ⟨hfree, hused⟩ := retry_spec (zero_add _) h
  have hsub : range x ⊆ l.map f := by
    intro y hy
    obtain ⟨p, hp, hpy⟩ := any_eq_true.mp (hused y (Nat.zero_le y) (mem_range.mp hy))
    exact mem_map.mpr ⟨p, hp, hhas p y (of_decide_eq_true hpy)⟩
  refine ⟨by simpa using (subperm_of_subset nodup_range hsub).length_le, fun p hp => ?_⟩
  exact of_decide_eq_false (by simpa using any_eq_false.mp hfree p hp)

section Restart

variable {job : ι} {s t moved : Cluster π ν ι} {p : π} {oldnode newnode : ν}

theorem updateLocalRanks_spec (hne : oldnode ≠ newnode)
    (h : updateLocalRanks job s oldnode newnode p = some t) : ∃ nodeRank localRank,
      t = ⟨update s.proc p { s.proc p with nodeRank := nodeRank, localRank := localRank }, s.node⟩ ∧
      nodeRank ≤ (s.on newnode).length ∧ localRank ≤ (s.on newnode).length ∧
      ∀ q ∈ s.on newnode, nodeRank ≠ (s.proc q).nodeRank ∧
        ((s.proc q).jobid = job → localRank ≠ (s.proc q).localRank) := by
  rw [updateLocalRanks, if_neg hne, Option.bind_eq_some_iff] at h
  obtain ⟨nodeRank, hnode, h⟩ := h
  obtain ⟨localRank, hlocal, rfl⟩ := Option.map_eq_some_iff.mp h
  have hproc (q : π) : (update s.proc p { s.proc p with nodeRank := nodeRank } q).jobid =
      (s.proc q).jobid ∧ (update s.proc p { s.proc p with nodeRank := nodeRank } q).localRank =
        (s.proc q).localRank := by
    by_cases hqp : q = p
    · subst hqp
      simp
    · simp [hqp]
  obtain ⟨hnodeLe, hnodeFree⟩ := retry_any (fun _ _ h => h.symm) hnode
  obtain ⟨hlocalLe, hlocalFree⟩ := retry_any (fun _ _ h => h.2.symm) hlocal
  refine ⟨nodeRank, localRank, ?_, hnodeLe, hlocalLe, fun q hq => ⟨hnodeFree q hq, fun hjob heq => ?_⟩⟩
  · simp
  · exact hlocalFree q hq ⟨(hproc q).1.trans hjob, heq.trans (hproc q).2.symm⟩

theorem restart_cases (hne : oldnode ≠ newnode) (hfew : (s.on newnode).length + 1 < rankInvalid)
    (h : next s (.restart p oldnode newnode) t) : ∃ nodeRank < rankInvalid, ∃ localRank < rankInvalid,
      t.proc = update s.proc p { s.proc p with nodeRank := nodeRank, localRank := localRank } ∧
      (∀ n, (t.on n).Nodup) ∧ (∀ n q, q ∈ t.on n ↔ if q = p then n = newnode else q ∈ s.on n) ∧
      ∀ q ∈ s.on newnode, q ≠ p → nodeRank ≠ (s.proc q).nodeRank ∧
        ((s.proc q).jobid = (s.proc p).jobid → localRank ≠ (s.proc q).localRank) := by
  rcases h with ⟨moved, hmoved, hupdate⟩ | ⟨updated, hupdate, hmoved⟩
  · obtain ⟨nodeRank, localRank, rfl, hnode, hlocal, hfree⟩ := updateLocalRanks_spec hne hupdate
    have hlength : (moved.on newnode).length ≤ (s.on newnode).length + 1 := by
      have hsub : moved.on newnode ⊆ p :: s.on newnode := by
        intro q hq
        rw [hmoved.mem] at hq
        split_ifs at hq with hqp
        · exact hqp ▸ mem_cons_self
        · exact mem_cons_of_mem p hq
      exact (subperm_of_subset (hmoved.nodup newnode) hsub).length_le
    refine ⟨nodeRank, by omega, localRank, by omega, by rw [hmoved.proc], hmoved.nodup, hmoved.mem,
      fun q hq hqp => ?_⟩
    rw [← hmoved.proc]
    exact hfree q ((hmoved.mem newnode q).mpr (by rwa [if_neg hqp]))
  · obtain ⟨nodeRank, localRank, rfl, hnode, hlocal, hfree⟩ := updateLocalRanks_spec hne hupdate
    exact ⟨nodeRank, by omega, localRank, by omega, hmoved.proc, hmoved.nodup, hmoved.mem,
      fun q hq _ => hfree q hq⟩

theorem restart_good (hgood : Good s) (hfew : (s.on newnode).length + 1 < rankInvalid)
    (h : next s (.restart p oldnode newnode) t) : Good t := by
  by_cases hne : oldnode = newnode
  · -- nothing has changed
    subst hne
    have hsame : t.proc = s.proc ∧ (∀ n, (t.on n).Nodup) ∧ ∀ n q, q ∈ t.on n ↔ q ∈ s.on n := by
      have hupdate (s : Cluster π ν ι) : updateLocalRanks (s.proc p).jobid s oldnode oldnode p = some s :=
        if_pos rfl
      obtain ⟨moved, hmoved, rfl⟩ : ∃ moved, Moved p oldnode oldnode s moved ∧ t = moved := by
        rcases h with ⟨moved, hmoved, hsome⟩ | ⟨updated, hsome, hmoved⟩
        · exact ⟨moved, hmoved, (Option.some.inj ((hupdate moved).symm.trans hsome)).symm⟩
        · obtain rfl := Option.some.inj ((hupdate s).symm.trans hsome)
          exact ⟨t, hmoved, rfl⟩
      refine ⟨hmoved.proc, hmoved.nodup, fun n q => ?_⟩
      rw [hmoved.mem]
      split_ifs with hqp
      · subst hqp
        exact ⟨fun hn => hn ▸ hmoved.old, fun hq => hgood.once n oldnode q hq hmoved.old⟩
      · rfl
    obtain ⟨hproc, hnodup, hmem⟩ := hsame
    refine ⟨hnodup, ?_, ?_, ?_, ?_⟩ <;> simp only [hmem, hproc]
    exacts [hgood.once, hgood.valid, hgood.localRank, hgood.nodeRank]
  · obtain ⟨nodeRank, hnode, localRank, hlocal, hproc, hnodup, hmem, hfree⟩ := restart_cases hne hfew h
    have hself : t.proc p = { s.proc p with nodeRank := nodeRank, localRank := localRank } := by
      rw [hproc, update_self]
    have hother {q : π} (hq : q ≠ p) : t.proc q = s.proc q := by
      rw [hproc, update_of_ne hq]
    have hstay {n : ν} {q : π} (hqp : q ≠ p) (hq : q ∈ t.on n) : q ∈ s.on n := by
      simpa [hqp] using (hmem n q).mp hq
    have hthere {n : ν} (hp : p ∈ t.on n) : n = newnode := by simpa using (hmem n p).mp hp
    have hpair {n : ν} {q : π} (hp : p ∈ t.on n) (hqp : q ≠ p) (hq : q ∈ t.on n) :
        nodeRank ≠ (s.proc q).nodeRank ∧
          ((s.proc q).jobid = (s.proc p).jobid → localRank ≠ (s.proc q).localRank) :=
      hfree q (hthere hp ▸ hstay hqp hq) hqp
    refine ⟨hnodup, fun n m q hq hq' => ?_, fun n q hq => ?_, fun n q hq r hr => ?_, fun n q hq r hr => ?_⟩
    · by_cases hqp : q = p
      · subst hqp
        exact (hthere hq).trans (hthere hq').symm
      · exact hgood.once n m q (hstay hqp hq) (hstay hqp hq')
    · by_cases hqp : q = p
      · subst hqp
        rw [hself]
        exact ⟨hlocal.ne, hnode.ne⟩
      · rw [hother hqp]
        exact hgood.valid n q (hstay hqp hq)
    · by_cases hqp : q = p <;> by_cases hrp : r = p
      · exact fun _ _ => hqp.trans hrp.symm
      · subst hqp
        rw [hself, hother hrp]
        exact fun hjob heq => absurd heq ((hpair hq hrp hr).2 hjob.symm)
      · subst hrp
        rw [hself, hother hqp]
        exact fun hjob heq => absurd heq.symm ((hpair hr hqp hq).2 hjob)
      · rw [hother hqp, hother hrp]
        exact hgood.localRank n q (hstay hqp hq) r (hstay hrp hr)
    · by_cases hqp : q = p <;> by_cases hrp : r = p
      · exact fun _ => hqp.trans hrp.symm
      · subst hqp
        rw [hself, hother hrp]
        exact fun heq => absurd heq (hpair hq hrp hr).1
      · subst hrp
        rw [hself, hother hqp]
        exact fun heq => absurd heq.symm (hpair hr hqp hq).1
      · rw [hother hqp, hother hrp]
        exact hgood.nodeRank n q (hstay hqp hq) r (hstay hrp hr)

end Restart

/-- The ranks that a mapping gives are free, and a node that a process is put on is not full. -/
def Careful (s : Cluster π ν ι) : Event π ν ι → Prop
  | .map job nodes placed => ∀ n, some n ∈ nodes → Room job placed n
  | .restart _ _ newnode => (s.on newnode).length + 1 < rankInvalid

theorem good_of_run {s₀ s : Cluster π ν ι} {events : List (Event π ν ι)} (hinit : ranks.init s₀)
    (hrun : (ranks.restrict Careful).Run s₀ events s) : Good s := by
  refine hrun.invariant (fun s e t hgood hstep => ?_) ?_
  · obtain ⟨hcare, hstep⟩ := hstep
    rcases e with ⟨job, nodes, placed⟩ | ⟨p, oldnode, newnode⟩
    · obtain ⟨hmapped, rfl⟩ := hstep
      exact hmapped.good hgood hcare
    · exact restart_good hgood hcare hstep
  · have hnone {n : ν} {p : π} : p ∉ s₀.on n := by simp [(hinit n).1]
    exact ⟨fun n => by simp [(hinit n).1], fun _ _ _ hp => absurd hp hnone, fun _ _ hp => absurd hp hnone,
      fun _ _ hp => absurd hp hnone, fun _ _ hp => absurd hp hnone⟩

/-- Two processes on a node have different node ranks, and different local ranks if they are of one job. -/
def Distinct (s : Cluster π ν ι) : Prop :=
  ∀ n, ∀ p ∈ s.on n, ∀ q ∈ s.on n, p ≠ q → (s.proc p).nodeRank ≠ (s.proc q).nodeRank ∧
    ((s.proc p).jobid = (s.proc q).jobid → (s.proc p).localRank ≠ (s.proc q).localRank)

theorem ranks_distinct {s₀ s : Cluster π ν ι} {events : List (Event π ν ι)} (hinit : ranks.init s₀)
    (hrun : (ranks.restrict Careful).Run s₀ events s) : Distinct s ∧
    ∀ job nodes placed t, (ranks.restrict Careful).step s (.map job nodes placed) t →
      (∀ n, ∀ p ∈ s.on n, (s.proc p).jobid ≠ job) → Ordered job t := by
  have hgood := good_of_run hinit hrun
  refine ⟨fun n p hp q hq hne => ⟨?_, ?_⟩, fun job nodes placed t hstep hfresh => ?_⟩
  · exact fun heq => hne (hgood.nodeRank n p hp q hq heq)
  · exact fun hjob heq => hne (hgood.localRank n p hp q hq hjob heq)
  · obtain ⟨hcare, hmapped, rfl⟩ := hstep
    exact hmapped.ordered hgood hcare hfresh

def empty : Cluster ℕ Bool Bool := ⟨fun p => ⟨false, p, rankInvalid, rankInvalid⟩, fun _ => ⟨[], 0⟩⟩

def placedFirst : Cluster ℕ Bool Bool :=
  ⟨empty.proc, fun n => if n then ⟨[some 2], 0⟩ else ⟨[some 0, some 1], 0⟩⟩

def mapFirst : Event ℕ Bool Bool := .map false [some false, some true] placedFirst

def afterFirst : Cluster ℕ Bool Bool := computeLocalRanks false [some false, some true] placedFirst

def moved : Cluster ℕ Bool Bool :=
  ⟨afterFirst.proc, fun n => if n then ⟨[some 2, some 0], 1⟩ else ⟨[none, some 1], 2⟩⟩

def afterRestart : Cluster ℕ Bool Bool := (updateLocalRanks false moved false true 0).getD moved

def placedSecond : Cluster ℕ Bool Bool :=
  ⟨Function.update afterRestart.proc 3 ⟨true, 0, rankInvalid, rankInvalid⟩,
    fun n => if n then ⟨[some 2, some 0, some 3], 1⟩ else ⟨[none, some 1], 2⟩⟩

def afterSecond : Cluster ℕ Bool Bool := computeLocalRanks true [some true] placedSecond

theorem init_empty : ranks.init empty := fun _ => ⟨rfl, rfl⟩

theorem step_first : ranks.step empty mapFirst afterFirst := by
  refine ⟨⟨by decide, by decide, by decide, by decide, ?_, by decide, by decide⟩, rfl⟩
  rintro (_ | _) (_ | _) p hp hp' <;> simp_all [Cluster.on, placedFirst]

theorem careful_first : Careful empty mapFirst := by
  rintro (_ | _) - <;> exact ⟨by decide, by decide, by decide⟩

theorem ranks_distinct_first : Distinct afterFirst ∧
    ∀ job nodes placed t, (ranks.restrict Careful).step afterFirst (.map job nodes placed) t →
      (∀ n, ∀ p ∈ afterFirst.on n, (afterFirst.proc p).jobid ≠ job) → Ordered job t :=
  ranks_distinct init_empty (.single ⟨careful_first, step_first⟩)

theorem step_restart : ranks.step afterFirst (.restart 0 false true) afterRestart := by
  refine .inl ⟨moved, ⟨by decide, rfl, by decide, by decide, ?_⟩, ?_⟩
  · have hfirst : afterFirst.on false = [0, 1] ∧ afterFirst.on true = [2] := by decide
    have hmoved : moved.on false = [1] ∧ moved.on true = [2, 0] := by decide
    rintro (_ | _) p <;> by_cases hp : p = 0 <;> simp [hfirst, hmoved, hp]
  · have hsome : (updateLocalRanks false moved false true 0).isSome := by decide +kernel
    obtain ⟨t, ht⟩ := Option.isSome_iff_exists.mp hsome
    have hrestart : afterRestart = t := by rw [afterRestart, ht, Option.getD_some]
    rw [hrestart]
    exact ht

theorem step_second : ranks.step afterRestart (.map true [some true] placedSecond) afterSecond := by
  refine ⟨⟨by decide, by decide +kernel, by decide +kernel, by decide, ?_, by decide +kernel,
    by decide +kernel⟩, rfl⟩
  rintro (_ | _) (_ | _) p hp hp' <;> simp_all [Cluster.on, placedSecond]

/-- Processes 0 and 3 have both node rank 1. -/
theorem ranks_not_distinct : ¬ ∀ s : Cluster ℕ Bool Bool, ranks.Reachable s → Distinct s := by
  intro h
  have hrun := ((Lib.System.Run.single step_first).snoc step_restart).snoc step_second
  exact (h afterSecond ⟨empty, _, init_empty, hrun⟩ true 0 (by decide +kernel) 3 (by decide +kernel)
    (by decide)).1 (by decide +kernel)

end OpenMPI.Rmaps
