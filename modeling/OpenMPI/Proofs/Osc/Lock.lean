import Mathlib.Data.List.Nodup
import OpenMPI.Osc.Passive
import OpenMPI.Proofs.Osc.Pt2pt

/-!
# The lock manager

Each origin between its lock and the end of its unlock has one lock request, grant or unlock somewhere
(`Stage`), and those with a grant or an unlock hold the lock (`Table`).
-/

namespace OpenMPI.Osc

open List Function

variable {P : Type*} [DecidableEq P]

def Stage (asks grants leaves replies : ℕ) : Phase P → Prop
  | .idle => asks = 0 ∧ grants = 0 ∧ leaves = 0 ∧ replies = 0
  | .locked _ => asks + grants = 1 ∧ leaves = 0 ∧ replies = 0
  | .unlocking _ _ => asks = 0 ∧ grants = 0 ∧ leaves + replies ≤ 1

def Phase.type : Phase P → Option LockType
  | .idle => none
  | .locked type => some type
  | .unlocking type _ => some type

structure Table (m : Module P) (holders : List P) : Prop where
  nodup : holders.Nodup
  free : m.lockStatus = none ↔ holders = []
  exclusive : m.lockStatus = some .exclusive → holders.length = 1
  count : m.sharedCount = if m.lockStatus = some .exclusive then 0 else (holders.length : ℤ)

/-- The lock manager, with the lock requests, grants, unlocks and answers that are on their way, and the
grants that have come. -/
structure LockInv (phase : P → Phase P) (ack : P → ℕ) (asks : List (P × LockType)) (grants leaves replies : List P)
    (m : Module P) : Prop where
  stage : ∀ p, Stage ((asks ++ m.locksPending).countP fun a => a.1 = p) (grants.count p + ack p)
    ((leaves ++ m.unlocksPending).count p) (replies.count p) (phase p)
  types : ∀ a ∈ asks ++ m.locksPending, phase a.1 = .locked a.2
  table : ∃ holders, Table m holders ∧
    ∀ p, p ∈ holders ↔ 0 < grants.count p + ack p ∨ 0 < (leaves ++ m.unlocksPending).count p
  holding : ∀ p, 0 < grants.count p + ack p ∨ 0 < (leaves ++ m.unlocksPending).count p →
    (phase p).type = m.lockStatus

section Manager

variable {phase : P → Phase P} {ack : P → ℕ} {asks asks' : List (P × LockType)}
  {grants grants' leaves leaves' replies replies' : List P} {m m' : Module P} {p : P} {type : LockType}
  {announced : List (Sendreq P)}

theorem LockInv.requeue (h : LockInv phase ack asks grants leaves replies m)
    (hasks : (asks ++ m.locksPending).Perm (asks' ++ m'.locksPending)) (hgrants : grants.Perm grants')
    (hleaves : leaves.Perm leaves') (hreplies : replies.Perm replies') (hstatus : m'.lockStatus = m.lockStatus)
    (hshared : m'.sharedCount = m.sharedCount) (hunlocks : m'.unlocksPending = m.unlocksPending) :
    LockInv phase ack asks' grants' leaves' replies' m' := by
  have hcount (p : P) : (leaves' ++ m'.unlocksPending).count p = (leaves ++ m.unlocksPending).count p := by
    rw [hunlocks]
    exact (hleaves.append_right _).symm.count_eq p
  obtain ⟨stage, types, ⟨holders, ⟨hnodup, hfree, hexclusive, hshare⟩, hmem⟩, holding⟩ := h
  refine ⟨fun p => ?_, fun a ha => types a (hasks.mem_iff.mpr ha), ⟨holders, ⟨hnodup, ?_, ?_, ?_⟩, fun p => ?_⟩,
    fun p => ?_⟩
  · rw [← hasks.countP_eq, ← hgrants.count_eq, hcount, ← hreplies.count_eq]
    exact stage p
  · rwa [hstatus]
  · rwa [hstatus]
  · rwa [hstatus, hshared]
  · rw [← hgrants.count_eq, hcount]
    exact hmem p
  · rw [← hgrants.count_eq, hcount, hstatus]
    exact holding p

theorem LockInv.ask (h : LockInv phase ack asks grants leaves replies m) (hidle : phase p = .idle) :
    LockInv (update phase p (.locked type)) ack (asks ++ [(p, type)]) grants leaves replies m := by
  have hstage := h.stage p
  rw [hidle] at hstage
  obtain ⟨hasks, hgrants, hleaves, hreplies⟩ := hstage
  have hnone (a : P × LockType) (ha : a ∈ asks ++ m.locksPending) : a.1 ≠ p := by
    rintro rfl
    have htype := h.types a ha
    rw [hidle] at htype
    cases htype
  refine ⟨fun q => ?_, fun a ha => ?_, h.table, fun q hq => ?_⟩
  · by_cases hq : q = p
    · subst hq
      rw [update_self]
      rw [countP_append] at hasks
      refine ⟨?_, hleaves, hreplies⟩
      simp only [countP_append, countP_singleton, decide_true, if_true]
      omega
    · rw [update_of_ne hq]
      have hstage := h.stage q
      rwa [countP_append, countP_append, countP_singleton, if_neg (by simpa using Ne.symm hq),
        add_zero, ← countP_append]
  · rw [append_assoc, mem_append, mem_append, mem_singleton, or_left_comm] at ha
    rcases ha with rfl | ha
    · exact update_self ..
    · rw [update_of_ne (hnone a (mem_append.mpr ha))]
      exact h.types a (mem_append.mpr ha)
  · have hqp : q ≠ p := by
      rintro rfl
      omega
    rw [update_of_ne hqp]
    exact h.holding q hq

theorem LockInv.acked (h : LockInv phase ack asks (p :: grants) leaves replies m) :
    LockInv phase (update ack p (ack p + 1)) asks grants leaves replies m := by
  have hsum (q : P) : grants.count q + update ack p (ack p + 1) q = (p :: grants).count q + ack q := by
    rw [count_cons]
    by_cases hq : q = p
    · subst hq
      rw [update_self, if_pos (by simp)]
      omega
    · rw [update_of_ne hq, if_neg (by simpa using Ne.symm hq)]
      omega
  obtain ⟨stage, types, table, holding⟩ := h
  refine ⟨?_, types, ?_, ?_⟩
  · simpa only [hsum] using stage
  · simpa only [hsum] using table
  · simpa only [hsum] using holding

theorem LockInv.leave (h : LockInv phase ack asks grants leaves replies m) (hlocked : phase p = .locked type)
    (hack : ack p ≠ 0) : LockInv (update phase p (.unlocking type announced))
      (update ack p (ack p - 1)) asks grants (leaves ++ [p]) replies m := by
  have hstage := h.stage p
  rw [hlocked] at hstage
  obtain ⟨hgrant, hleaves, hreplies⟩ := hstage
  have hcount (q : P) : (leaves ++ [p] ++ m.unlocksPending).count q =
      (leaves ++ m.unlocksPending).count q + if q = p then 1 else 0 := by
    rw [count_append, count_append, count_append, count_singleton]
    by_cases hq : q = p
    · subst hq
      simp
      omega
    · simp [hq, Ne.symm hq]
  have hother (q : P) (hq : q ≠ p) : grants.count q + update ack p (ack p - 1) q = grants.count q + ack q := by
    rw [update_of_ne hq]
  have hholds (q : P) : 0 < grants.count q + update ack p (ack p - 1) q ∨
      0 < (leaves ++ [p] ++ m.unlocksPending).count q ↔
      0 < grants.count q + ack q ∨ 0 < (leaves ++ m.unlocksPending).count q := by
    rw [hcount]
    by_cases hq : q = p
    · subst hq
      rw [if_pos rfl]
      exact iff_of_true (.inr (by omega)) (.inl (by omega))
    · rw [if_neg hq, hother q hq, add_zero]
  refine ⟨fun q => ?_, fun a ha => ?_, ?_, fun q hq => ?_⟩
  · rw [hcount]
    by_cases hq : q = p
    · subst hq
      rw [update_self, update_self, if_pos rfl]
      refine ⟨?_, ?_, ?_⟩ <;> omega
    · rw [if_neg hq, hother q hq, add_zero, update_of_ne hq]
      exact h.stage q
  · have hap : a.1 ≠ p := by
      intro hap
      have hpos : 0 < (asks ++ m.locksPending).countP fun a => a.1 = p :=
        countP_pos_iff.mpr ⟨a, ha, by simpa using hap⟩
      omega
    rw [update_of_ne hap]
    exact h.types a ha
  · simp only [hholds]
    exact h.table
  · rw [hholds] at hq
    have htype := h.holding q hq
    by_cases hqp : q = p
    · subst hqp
      rw [update_self]
      rw [hlocked] at htype
      exact htype
    · rwa [update_of_ne hqp]

theorem LockInv.arrive (h : LockInv phase ack asks grants (p :: leaves) replies m)
    (hstatus : m'.lockStatus = m.lockStatus) (hshared : m'.sharedCount = m.sharedCount)
    (hlocks : m'.locksPending = m.locksPending) (hunlocks : m'.unlocksPending = m.unlocksPending ++ [p]) :
    LockInv phase ack asks grants leaves replies m' := by
  have hcount (q : P) : (leaves ++ m'.unlocksPending).count q = (p :: leaves ++ m.unlocksPending).count q := by
    rw [hunlocks, ← append_assoc]
    exact (perm_append_singleton p (leaves ++ m.unlocksPending)).count_eq q
  obtain ⟨stage, types, ⟨holders, ⟨hnodup, hfree, hexclusive, hshare⟩, hmem⟩, holding⟩ := h
  refine ⟨?_, hlocks ▸ types, ⟨holders, ⟨hnodup, ?_, ?_, ?_⟩, ?_⟩, ?_⟩
  · simpa only [hcount, hlocks] using stage
  · rwa [hstatus]
  · rwa [hstatus]
  · rwa [hstatus, hshared]
  · simpa only [hcount] using hmem
  · simpa only [hcount, hstatus] using holding

theorem LockInv.grant (h : LockInv phase ack ((p, type) :: asks) grants leaves replies m)
    (hfree : m.lockStatus = none ∨ m.lockStatus = some .shared ∧ type = .shared)
    (hstatus : m'.lockStatus = some type)
    (hshared : m'.sharedCount = if type = .shared then m.sharedCount + 1 else m.sharedCount)
    (hlocks : m'.locksPending = m.locksPending) (hunlocks : m'.unlocksPending = m.unlocksPending) :
    LockInv phase ack asks (p :: grants) leaves replies m' := by
  obtain ⟨stage, types, ⟨holders, ⟨hnodup, hnone, -, hcount⟩, hmem⟩, holding⟩ := h
  have hphase : phase p = .locked type := types (p, type) mem_cons_self
  have hstage := stage p
  rw [hphase, cons_append, countP_cons_of_pos (by simp)] at hstage
  obtain ⟨hgrants, hleaves, hreplies⟩ := hstage
  have hp : p ∉ holders := by
    rw [hmem]
    omega
  have hgrant (q : P) : 0 < (p :: grants).count q + ack q ∨ 0 < (leaves ++ m.unlocksPending).count q ↔
      q = p ∨ q ∈ holders := by
    rw [hmem, count_cons]
    by_cases hq : q = p
    · subst hq
      exact iff_of_true (.inl (by rw [if_pos (beq_self_eq_true q)]; omega)) (.inl rfl)
    · rw [if_neg (by simpa using Ne.symm hq), add_zero, or_iff_right hq]
  rw [← hunlocks] at hgrant hleaves
  refine ⟨fun q => ?_, fun a ha => ?_, ⟨p :: holders, ⟨?_, ?_, ?_, ?_⟩, fun q => ?_⟩, fun q hq => ?_⟩
  · by_cases hq : q = p
    · subst hq
      rw [hphase, hlocks, count_cons_self]
      exact ⟨by omega, hleaves, hreplies⟩
    · have hstage := stage q
      rwa [cons_append, countP_cons_of_neg (by simpa using Ne.symm hq), ← hlocks, ← hunlocks,
        ← count_cons_of_ne (Ne.symm hq)] at hstage
  · rw [hlocks] at ha
    exact types a (mem_cons_of_mem _ ha)
  · exact nodup_cons.mpr ⟨hp, hnodup⟩
  · simp [hstatus]
  · intro hexclusive
    rw [hstatus, Option.some_inj] at hexclusive
    rcases hfree with hfree | ⟨-, htype⟩
    · simp [hnone.mp hfree]
    · rw [htype] at hexclusive
      cases hexclusive
  · rw [hshared, hstatus, hcount]
    rcases hfree with hfree | ⟨hfree, rfl⟩
    · cases type <;> simp [hnone.mp hfree, hfree]
    · simp [hfree]
  · rw [hgrant, mem_cons]
  · rcases (hgrant q).mp hq with rfl | hq
    · rw [hphase, hstatus]
      rfl
    · rw [holding q ((hmem q).mp hq), hstatus]
      rcases hfree with hfree | ⟨hfree, rfl⟩
      · rw [hnone.mp hfree] at hq
        cases hq
      · exact hfree

theorem LockInv.release (h : LockInv phase ack asks grants leaves replies m) (hpending : m.unlocksPending ≠ []) :
    LockInv phase ack asks grants leaves (replies ++ m.unlocksPending) (releaseLock m) := by
  obtain ⟨stage, types, ⟨holders, ⟨hnodup, hnone, hexclusive, hcount⟩, hmem⟩, holding⟩ := h
  have hlocks : (releaseLock m).locksPending = m.locksPending := by
    unfold releaseLock
    split_ifs <;> rfl
  have hunlocks : (releaseLock m).unlocksPending = [] := by
    unfold releaseLock
    split_ifs <;> rfl
  have hstage (q : P) : grants.count q + ack q + (leaves.count q + m.unlocksPending.count q) ≤ 1 := by
    have hstage := stage q
    rw [count_append] at hstage
    cases hphase : phase q <;> rw [hphase] at hstage <;> unfold Stage at hstage <;> omega
  have hsub : m.unlocksPending ⊆ holders := by
    intro q hq
    rw [hmem, count_append]
    have hpos := count_pos_iff.mpr hq
    omega
  have hunique : m.unlocksPending.Nodup := nodup_iff_count_le_one.mpr fun q => by
    have hstage := hstage q
    omega
  have hlength : (holders.filter fun q => q ∉ m.unlocksPending).length + m.unlocksPending.length =
      holders.length := by
    have hin : (holders.filter fun q => q ∈ m.unlocksPending).Perm m.unlocksPending := by
      refine (perm_ext_iff_of_nodup (hnodup.filter _) hunique).mpr fun q => ?_
      simpa using fun hq => hsub hq
    have hsplit := length_eq_length_filter_add (fun q => decide (q ∈ m.unlocksPending)) (l := holders)
    rw [hin.length_eq] at hsplit
    simp only [decide_not]
    omega
  have hlocked : m.lockStatus ≠ none := by
    rw [ne_eq, hnone]
    rintro rfl
    exact hpending (eq_nil_of_subset_nil hsub)
  have hkept (q : P) : q ∈ (holders.filter fun q => q ∉ m.unlocksPending) ↔
      0 < grants.count q + ack q ∨ 0 < leaves.count q := by
    have hstage := hstage q
    have hpos : q ∈ m.unlocksPending ↔ 0 < m.unlocksPending.count q := count_pos_iff.symm
    rw [mem_filter, decide_eq_true_eq, hmem, count_append, hpos]
    omega
  have htable : Table (releaseLock m) (holders.filter fun q => q ∉ m.unlocksPending) ∧
      ∀ q ∈ holders.filter fun q => q ∉ m.unlocksPending, (releaseLock m).lockStatus = m.lockStatus := by
    have hpos := length_pos_iff.mpr hpending
    unfold releaseLock
    split_ifs with hstatus
    · have hnil : (holders.filter fun q => q ∉ m.unlocksPending) = [] := by
        have hone := hexclusive hstatus
        exact length_eq_zero_iff.mp (by omega)
      rw [hnil]
      refine ⟨⟨nodup_nil, by simp, by simp, ?_⟩, by simp⟩
      rw [hcount, if_pos hstatus]
      simp
    · rw [if_neg hstatus] at hcount
      have hzero : m.sharedCount - m.unlocksPending.length = 0 ↔
          (holders.filter fun q => q ∉ m.unlocksPending) = [] := by
        rw [← length_eq_zero_iff]
        omega
      refine ⟨⟨hnodup.filter _, ?_, ?_, ?_⟩, fun q hq => ?_⟩
      · dsimp only
        rw [← hzero]
        split_ifs with hall
        · exact iff_of_true rfl hall
        · exact iff_of_false hlocked hall
      · intro hstatus'
        dsimp only at hstatus'
        split_ifs at hstatus'
        exact absurd hstatus' hstatus
      · dsimp only
        rw [if_neg]
        · omega
        · split_ifs
          · simp
          · exact hstatus
      · dsimp only
        rw [if_neg]
        rw [hzero]
        exact ne_nil_of_mem hq
  refine ⟨fun q => ?_, hlocks ▸ types, ⟨_, htable.1, fun q => ?_⟩, fun q hq => ?_⟩
  · have hstage := stage q
    rw [count_append] at hstage
    rw [hlocks, hunlocks, append_nil, count_append]
    cases hphase : phase q <;> rw [hphase] at hstage <;> unfold Stage at hstage ⊢ <;> omega
  · rw [hkept, hunlocks, append_nil]
  · rw [hunlocks, append_nil, ← hkept] at hq
    rw [htable.2 q hq]
    exact holding q ((hmem q).mp (mem_of_mem_filter hq))

theorem LockInv.reply (h : LockInv phase ack asks grants leaves (p :: replies) m) :
    LockInv phase ack asks grants leaves replies m := by
  refine ⟨fun q => ?_, h.types, h.table, h.holding⟩
  have hstage := h.stage q
  have hle : replies.count q ≤ (p :: replies).count q := count_le_count_cons
  cases hphase : phase q with
  | idle =>
    rw [hphase] at hstage
    obtain ⟨hasks, hgrants, hleaves, hreplies⟩ := hstage
    exact ⟨hasks, hgrants, hleaves, by omega⟩
  | locked type =>
    rw [hphase] at hstage
    obtain ⟨hasks, hleaves, hreplies⟩ := hstage
    exact ⟨hasks, hleaves, by omega⟩
  | unlocking type announced =>
    rw [hphase] at hstage
    obtain ⟨hasks, hgrants, hreplies⟩ := hstage
    exact ⟨hasks, hgrants, by omega⟩

theorem LockInv.finish (h : LockInv phase ack asks grants leaves replies m)
    (hunlocking : phase p = .unlocking type announced) (hleaves : (leaves ++ m.unlocksPending).count p = 0)
    (hreplies : replies.count p = 0) :
    LockInv (update phase p .idle) ack asks grants leaves replies m := by
  have hstage := h.stage p
  rw [hunlocking] at hstage
  obtain ⟨hasks, hgrants, -⟩ := hstage
  refine ⟨fun q => ?_, fun a ha => ?_, h.table, fun q hq => ?_⟩
  · by_cases hq : q = p
    · subst hq
      rw [update_self]
      exact ⟨hasks, hgrants, hleaves, hreplies⟩
    · rw [update_of_ne hq]
      exact h.stage q
  · have hap : a.1 ≠ p := by
      intro hap
      have htype := h.types a ha
      rw [hap, hunlocking] at htype
      cases htype
    rw [update_of_ne hap]
    exact h.types a ha
  · have hqp : q ≠ p := by
      rintro rfl
      omega
    rw [update_of_ne hqp]
    exact h.holding q hq

end Manager

open Item

def Managed (phase : P → Phase P) (ack : P → ℕ) (net : List (Item P)) (m : Module P) : Prop :=
  LockInv phase ack (net.filterMap lockOf) (net.filterMap grantOf) (net.filterMap unlockOf)
    (net.filterMap replyOf) m ∧ (m.lockStatus = none → m.locksPending = [])

/-- A callback makes grants of the lock requests and answers of the unlocks that it takes from the queues. -/
structure Ledger (i : Item P) (m m' : Module P) (new : List (Item P)) : Prop where
  asks : ∀ p, (i.lockOf.toList ++ m.locksPending).countP (fun a => a.1 = p) =
    (new.filterMap grantOf).count p + m'.locksPending.countP fun a => a.1 = p
  leaves : ∀ p, (i.unlockOf.toList ++ m.unlocksPending).count p =
    (new.filterMap replyOf).count p + m'.unlocksPending.count p

section Callbacks

variable {phase : P → Phase P} {ack : P → ℕ} {net rest : List (Item P)} {m m' : Module P} {i : Item P} {p me : P}
  {type : LockType}

theorem Managed.perm (h : Managed phase ack net m) (hperm : net.Perm rest) : Managed phase ack rest m :=
  ⟨h.1.requeue ((hperm.filterMap _).append_right _) (hperm.filterMap _) (hperm.filterMap _) (hperm.filterMap _)
    rfl rfl rfl, h.2⟩

theorem Managed.congr (h : Managed phase ack net m) (hstatus : m'.lockStatus = m.lockStatus)
    (hshared : m'.sharedCount = m.sharedCount) (hlocks : m'.locksPending = m.locksPending)
    (hunlocks : m'.unlocksPending = m.unlocksPending) : Managed phase ack net m' := by
  refine ⟨h.1.requeue ?_ (.refl _) (.refl _) (.refl _) hstatus hshared hunlocks, ?_⟩
  · rw [hlocks]
  · rw [hstatus, hlocks]
    exact h.2

theorem managed_grantNext (h : LockInv phase ack (net.filterMap lockOf) (net.filterMap grantOf)
    (net.filterMap unlockOf) (net.filterMap replyOf) m) :
    Managed phase ack (net ++ (grantNext me m).2) (grantNext me m).1 := by
  unfold grantNext
  split
  · rename_i origin type locks hstatus hlocks
    have hasks : LockInv phase ack ((origin, type) :: net.filterMap lockOf) (net.filterMap grantOf)
        (net.filterMap unlockOf) (net.filterMap replyOf) { m with locksPending := locks } := by
      refine h.requeue ?_ (.refl _) (.refl _) (.refl _) rfl rfl rfl
      rw [hlocks]
      exact perm_middle
    have hgrant : LockInv _ _ _ _ _ _ { m with
        locksPending := locks, lockStatus := some type
        sharedCount := if type = .shared then m.sharedCount + 1 else m.sharedCount } :=
      hasks.grant (.inl hstatus) rfl rfl rfl rfl
    refine ⟨hgrant.requeue ?_ ?_ ?_ ?_ rfl rfl rfl, by simp⟩
    · simp [filterMap_cons, lockOf]
    · simpa [filterMap_cons, grantOf] using (perm_append_singleton _ _).symm
    · simp [filterMap_cons, unlockOf]
    · simp [filterMap_cons, replyOf]
  · rename_i hnone
    refine ⟨by simpa using h, fun hstatus => ?_⟩
    by_contra hlocks
    obtain ⟨⟨origin, type⟩, locks, hlocks⟩ := exists_cons_of_ne_nil hlocks
    exact hnone origin type locks hstatus hlocks

theorem Managed.complete (h : Managed phase ack net m) (hpending : m.unlocksPending ≠ []) :
    Managed phase ack (net ++ (passiveUnlockComplete me m).2) (passiveUnlockComplete me m).1 := by
  unfold passiveUnlockComplete
  split_ifs
  · simpa using h
  · have hacks (net : List (Item P)) : (net ++ m.unlocksPending.map fun origin =>
        Item.msg me origin .unlockReply).filterMap replyOf = net.filterMap replyOf ++ m.unlocksPending := by
      simp [filterMap_map, replyOf, Function.comp_def]
    have hrelease := h.1.release hpending
    rw [← hacks] at hrelease
    dsimp only
    rw [← append_assoc]
    refine managed_grantNext ?_
    simpa [filterMap_map, lockOf, grantOf, unlockOf, Function.comp_def] using hrelease

theorem Managed.mark (h : Managed phase ack net m) (req : Sendreq P) :
    Managed phase ack (net ++ (inmsgMarkComplete me m req).2) (inmsgMarkComplete me m req).1 := by
  unfold inmsgMarkComplete
  dsimp only
  split_ifs with hneed
  · exact (h.congr rfl rfl rfl rfl : Managed phase ack net
      { m with window := m.window ++ [req], numPendingIn := m.numPendingIn - 1 }).complete hneed.2.2
  · rw [append_nil]
    exact h.congr rfl rfl rfl rfl

theorem Managed.passiveLock (h : Managed phase ack (.msg p me (.lockReq p (some type)) :: net) m) :
    Managed phase ack (net ++ (passiveLock me m p type).2) (passiveLock me m p type).1 := by
  obtain ⟨hinv, hfree⟩ := h
  simp only [filterMap_cons, lockOf, grantOf, unlockOf, replyOf] at hinv
  have hqueue (hstatus : m.lockStatus ≠ none) : Managed phase ack (net ++ [])
      { m with locksPending := m.locksPending ++ [(p, type)] } := by
    rw [append_nil]
    refine ⟨hinv.requeue ?_ (.refl _) (.refl _) (.refl _) rfl rfl rfl, fun hstatus' => absurd hstatus' hstatus⟩
    rw [cons_append, ← append_assoc]
    exact (perm_append_singleton _ _).symm
  have hgrant (m' : Module P) (hstatus : m'.lockStatus = some type) (hlocks : m'.locksPending = m.locksPending)
      (h' : LockInv phase ack (net.filterMap lockOf) (p :: net.filterMap grantOf) (net.filterMap unlockOf)
        (net.filterMap replyOf) m') : Managed phase ack (net ++ [.msg me p (.lockReq me none)]) m' := by
    refine ⟨h'.requeue ?_ ?_ ?_ ?_ rfl rfl rfl, by simp [hstatus]⟩
    · simp [filterMap_cons, lockOf]
    · simpa [filterMap_cons, grantOf] using (perm_append_singleton _ _).symm
    · simp [filterMap_cons, unlockOf]
    · simp [filterMap_cons, replyOf]
  unfold Osc.passiveLock
  cases type with
  | exclusive =>
    dsimp only
    split_ifs with hstatus
    · exact hgrant _ rfl rfl (hinv.grant (.inl hstatus) rfl rfl rfl rfl)
    · exact hqueue hstatus
  | shared =>
    dsimp only
    split_ifs with hstatus
    · refine hgrant _ rfl rfl (hinv.grant ?_ rfl rfl rfl rfl)
      cases hlock : m.lockStatus with
      | none => exact .inl rfl
      | some type =>
        cases type with
        | exclusive => exact absurd hlock hstatus
        | shared => exact .inr ⟨rfl, rfl⟩
    · rw [not_not] at hstatus
      exact hqueue (by simp [hstatus])

theorem Managed.passiveUnlock {count : ℕ} (h : Managed phase ack (.msg p me (.unlockReq p count) :: net) m) :
    Managed phase ack (net ++ (passiveUnlock me m p count).2) (passiveUnlock me m p count).1 := by
  obtain ⟨hinv, hfree⟩ := h
  simp only [filterMap_cons, lockOf, grantOf, unlockOf, replyOf] at hinv
  unfold Osc.passiveUnlock
  refine Managed.complete ?_ (by simp)
  exact ⟨hinv.arrive rfl rfl rfl rfl, hfree⟩

theorem ledger_same (hi : i.lockOf = none) (hi' : i.unlockOf = none) (hlocks : m'.locksPending = m.locksPending)
    (hunlocks : m'.unlocksPending = m.unlocksPending) : Ledger i m m' [] := by
  refine ⟨fun p => ?_, fun p => ?_⟩
  · simp [hi, hlocks]
  · simp [hi', hunlocks]

theorem grantNext_queue (me : P) (m : Module P) (p : P) : m.locksPending.countP (fun a => a.1 = p) =
    ((grantNext me m).2.filterMap grantOf).count p + (grantNext me m).1.locksPending.countP fun a => a.1 = p := by
  unfold grantNext
  split
  · rename_i origin type locks hstatus hlocks
    by_cases hp : origin = p
    · simp [hlocks, grantOf, hp]
      omega
    · simp [hlocks, grantOf, hp]
  · simp

omit [DecidableEq P] in
theorem grantNext_unlocks (me : P) (m : Module P) : (grantNext me m).1.unlocksPending = m.unlocksPending ∧
    (grantNext me m).2.filterMap replyOf = [] := by
  unfold grantNext
  split
  · exact ⟨rfl, rfl⟩
  · exact ⟨rfl, rfl⟩

theorem passiveUnlockComplete_queues (me : P) (m : Module P) : (∀ p, m.locksPending.countP (fun a => a.1 = p) =
    ((passiveUnlockComplete me m).2.filterMap grantOf).count p +
      (passiveUnlockComplete me m).1.locksPending.countP fun a => a.1 = p) ∧
    ∀ p, m.unlocksPending.count p = ((passiveUnlockComplete me m).2.filterMap replyOf).count p +
      (passiveUnlockComplete me m).1.unlocksPending.count p := by
  unfold passiveUnlockComplete
  split_ifs
  · simp
  · have hlocks : (releaseLock m).locksPending = m.locksPending := by
      unfold releaseLock
      split_ifs <;> rfl
    have hunlocks : (releaseLock m).unlocksPending = [] := by
      unfold releaseLock
      split_ifs <;> rfl
    have hgrant := grantNext_queue me (releaseLock m)
    obtain ⟨hsame, hnone⟩ := grantNext_unlocks me (releaseLock m)
    rw [hlocks] at hgrant
    rw [hunlocks] at hsame
    refine ⟨fun p => ?_, fun p => ?_⟩
    · rw [hgrant p]
      simp [filterMap_map, grantOf, Function.comp_def]
    · simp [filterMap_map, replyOf, Function.comp_def, hsame, hnone]

theorem inmsgMarkComplete_queues (me : P) (m : Module P) (req : Sendreq P) : (∀ p, m.locksPending.countP (fun a => a.1 = p) =
    ((inmsgMarkComplete me m req).2.filterMap grantOf).count p +
      (inmsgMarkComplete me m req).1.locksPending.countP fun a => a.1 = p) ∧
    ∀ p, m.unlocksPending.count p = ((inmsgMarkComplete me m req).2.filterMap replyOf).count p +
      (inmsgMarkComplete me m req).1.unlocksPending.count p := by
  unfold inmsgMarkComplete
  dsimp only
  split_ifs
  · exact passiveUnlockComplete_queues me
      { m with window := m.window ++ [req], numPendingIn := m.numPendingIn - 1 }
  · simp

def Item.Quiet (i : Item P) : Prop := i.lockOf = none ∧ i.grantOf = none ∧ i.unlockOf = none ∧ i.replyOf = none

/-- The items for a window that is only locked, at one target. -/
def Item.AtTarget (target : P) : Item P → Prop
  | .msg _ _ (.send req _) => req.target = target
  | .msg src dst (.lockReq origin (some _)) => origin = src ∧ dst = target
  | .msg src dst (.unlockReq origin _) => origin = src ∧ dst = target
  | .msg _ _ .post => False
  | .msg _ _ (.complete _) => False
  | .cb _ (.recvLongCb req) => req.target = target
  | .cb _ (.replySendCb req _) => req.target = target
  | .cb _ (.replySendLongCb req) => req.target = target
  | _ => True

/-- What a callback does to the lock manager. -/
inductive Effect (target : P) (i : Item P) (m : Module P) : Module P × List (Item P) → Prop
  | quiet {m' : Module P} {new : List (Item P)} (hi : i.Quiet) (hnew : ∀ j ∈ new, j.Quiet)
    (hstatus : m'.lockStatus = m.lockStatus) (hshared : m'.sharedCount = m.sharedCount)
    (hlocks : m'.locksPending = m.locksPending) (hunlocks : m'.unlocksPending = m.unlocksPending)
    (hack : m'.lockReceivedAck = m.lockReceivedAck) (hin : m'.numPendingIn = m.numPendingIn) :
    Effect target i m (m', new)
  | mark (hi : i.Quiet) (howner : i.owner = target) (req : Sendreq P) :
    Effect target i m (inmsgMarkComplete target m req)
  | lock (origin : P) (type : LockType) (hi : i = .msg origin target (.lockReq origin (some type))) :
    Effect target i m (passiveLock target m origin type)
  | ack (src origin dst : P) (hi : i = .msg src dst (.lockReq origin none)) :
    Effect target i m ({ m with lockReceivedAck := m.lockReceivedAck + 1 }, [])
  | unlock (origin : P) (count : ℕ) (hi : i = .msg origin target (.unlockReq origin count)) :
    Effect target i m (passiveUnlock target m origin count)
  | reply (src dst : P) (hi : i = .msg src dst .unlockReply) :
    Effect target i m ({ m with numPendingOut := m.numPendingOut - 1 }, [])

variable {target : P} {z : Sizes}

omit [DecidableEq P] in
theorem replyreqSend_quiet (req : Sendreq P) : ∀ j ∈ replyreqSend z me req, j.Quiet := by
  unfold replyreqSend
  dsimp only
  split_ifs <;> simp [Item.Quiet, lockOf, grantOf, unlockOf, replyOf]

omit [DecidableEq P] in
theorem handle_effect (hplaced : i.Placed) (hat : i.AtTarget target) :
    Effect target i m (i.handle z m) := by
  have hquiet (i : Item P) (hi : i.Quiet) : Effect target i m (m, []) :=
    .quiet hi (by simp) rfl rfl rfl rfl rfl rfl
  have hdone (i : Item P) (req : Sendreq P) (hi : i.Quiet) : Effect target i m (sendreqDone m req, []) :=
    .quiet hi (by simp) rfl rfl rfl rfl rfl rfl
  have hmark (i : Item P) (req : Sendreq P) (hi : i.Quiet) (howner : i.owner = target) :
      Effect target i m (inmsgMarkComplete target m req) := .mark hi howner req
  cases i with
  | msg src dst content =>
    cases content with
    | send req msgLength =>
      obtain ⟨rfl, rfl⟩ := hplaced
      obtain rfl : req.target = target := hat
      have hi : (Item.msg req.origin req.target (.send req msgLength)).Quiet := ⟨rfl, rfl, rfl, rfl⟩
      rw [Item.handle, fragmentCb, sendreqRecv]
      split_ifs
      · exact .quiet hi (replyreqSend_quiet req) rfl rfl rfl rfl rfl rfl
      · exact .mark hi rfl req
      · exact .quiet hi (by simp [Item.Quiet, lockOf, grantOf, unlockOf, replyOf]) rfl rfl rfl rfl rfl rfl
    | reply req msgLength =>
      rw [Item.handle, fragmentCb, replyreqRecv]
      split_ifs
      · exact hdone _ req ⟨rfl, rfl, rfl, rfl⟩
      · exact .quiet ⟨rfl, rfl, rfl, rfl⟩ (by simp [Item.Quiet, lockOf, grantOf, unlockOf, replyOf]) rfl rfl
          rfl rfl rfl rfl
    | post => exact hat.elim
    | complete count => exact hat.elim
    | lockReq origin type =>
      cases type with
      | none => exact .ack src origin dst rfl
      | some type =>
        obtain ⟨rfl, rfl⟩ := hat
        exact .lock origin type rfl
    | unlockReq origin count =>
      obtain ⟨rfl, rfl⟩ := hat
      exact .unlock origin count rfl
    | unlockReply => exact .reply src dst rfl
  | cb dst c =>
    cases c with
    | sendCb req msgLength =>
      rw [Item.handle, mpireqCb]
      split_ifs
      · exact hdone _ req ⟨rfl, rfl, rfl, rfl⟩
      · exact hquiet _ ⟨rfl, rfl, rfl, rfl⟩
    | sendLongCb req => exact hdone _ req ⟨rfl, rfl, rfl, rfl⟩
    | recvLongCb req =>
      obtain rfl : dst = target := hplaced.trans hat
      exact hmark _ req ⟨rfl, rfl, rfl, rfl⟩ rfl
    | replySendCb req msgLength =>
      obtain rfl : dst = target := hplaced.trans hat
      rw [Item.handle, mpireqCb]
      split_ifs
      · exact hmark _ req ⟨rfl, rfl, rfl, rfl⟩ rfl
      · exact hquiet _ ⟨rfl, rfl, rfl, rfl⟩
    | replySendLongCb req =>
      obtain rfl : dst = target := hplaced.trans hat
      exact hmark _ req ⟨rfl, rfl, rfl, rfl⟩ rfl
    | replyRecvLongCb req => exact hdone _ req ⟨rfl, rfl, rfl, rfl⟩

theorem Managed.skip (h : Managed phase ack (i :: net) m) (hi : i.Quiet) : Managed phase ack net m := by
  obtain ⟨hlock, hgrant, hunlock, hreply⟩ := hi
  simpa only [Managed, filterMap_cons, hlock, hgrant, hunlock, hreply] using h

theorem Managed.append (h : Managed phase ack net m) {new : List (Item P)} (hnew : ∀ j ∈ new, j.Quiet) :
    Managed phase ack (net ++ new) m := by
  have hnil {β : Type _} (f : Item P → Option β) (hf : ∀ j ∈ new, f j = none) : new.filterMap f = [] :=
    filterMap_eq_nil_iff.mpr hf
  rw [Managed, filterMap_append, filterMap_append, filterMap_append, filterMap_append,
    hnil lockOf fun j hj => (hnew j hj).1, hnil grantOf fun j hj => (hnew j hj).2.1,
    hnil unlockOf fun j hj => (hnew j hj).2.2.1, hnil replyOf fun j hj => (hnew j hj).2.2.2, append_nil,
    append_nil, append_nil, append_nil]
  exact h

theorem acks_update {modules : P → Module P} (hack : m.lockReceivedAck = (modules p).lockReceivedAck) :
    (fun q => (update modules p m q).lockReceivedAck) = fun q => (modules q).lockReceivedAck := by
  funext q
  by_cases hq : q = p
  · subst hq
    rw [update_self, hack]
  · rw [update_of_ne hq]

omit [DecidableEq P] in
theorem LockOnly.acks (h : LockOnly m m') : m'.lockReceivedAck = m.lockReceivedAck := by
  obtain ⟨_, _, _, _, rfl⟩ := h
  rfl

omit [DecidableEq P] in
theorem inmsgMarkComplete_acks (me : P) (m : Module P) (req : Sendreq P) :
    (inmsgMarkComplete me m req).1.lockReceivedAck = m.lockReceivedAck := by
  unfold inmsgMarkComplete
  dsimp only
  split_ifs
  · exact (passiveUnlockComplete_spec me _).1.acks
  · rfl

omit [DecidableEq P] in
theorem passiveUnlock_acks (me : P) (m : Module P) (origin : P) (count : ℕ) :
    (passiveUnlock me m origin count).1.lockReceivedAck = m.lockReceivedAck :=
  (passiveUnlockComplete_spec me _).1.acks

theorem Managed.come {modules : P → Module P} {r : Module P × List (Item P)}
    (h : Managed phase (fun p => (modules p).lockReceivedAck) (i :: net) (modules target))
    (heffect : Effect target i (modules i.owner) r) :
    Managed phase (fun p => (update modules i.owner r.1 p).lockReceivedAck) (net ++ r.2)
      (update modules i.owner r.1 target) := by
  cases heffect with
  | quiet hi hnew hstatus hshared hlocks hunlocks hack hin =>
    rw [acks_update hack]
    refine ((h.skip hi).append hnew).congr ?_ ?_ ?_ ?_ <;> by_cases howner : target = i.owner
    all_goals first
      | rw [update_of_ne howner]
      | rw [howner, update_self]; assumption
  | mark hi howner req =>
    rw [howner, acks_update (inmsgMarkComplete_acks ..), update_self]
    exact (h.skip hi).mark req
  | lock origin type hi =>
    subst hi
    rw [Item.owner, acks_update (passiveLock_spec ..).1.acks, update_self]
    exact h.passiveLock
  | unlock origin count hi =>
    subst hi
    rw [Item.owner, acks_update (passiveUnlock_acks ..), update_self]
    exact h.passiveUnlock
  | ack src origin dst hi =>
    subst hi
    obtain ⟨hinv, hfree⟩ := h
    simp only [filterMap_cons, lockOf, grantOf, unlockOf, replyOf] at hinv
    rw [append_nil, Item.owner]
    have hacks : (fun p => (update modules dst { modules dst with
        lockReceivedAck := (modules dst).lockReceivedAck + 1 } p).lockReceivedAck) =
        update (fun p => (modules p).lockReceivedAck) dst ((modules dst).lockReceivedAck + 1) := by
      funext q
      by_cases hq : q = dst
      · subst hq
        simp
      · simp [hq]
    have hmanaged : Managed phase (update (fun p => (modules p).lockReceivedAck) dst
        ((modules dst).lockReceivedAck + 1)) net (modules target) := ⟨hinv.acked, hfree⟩
    rw [hacks]
    by_cases hdst : target = dst
    · subst hdst
      rw [update_self]
      exact hmanaged.congr rfl rfl rfl rfl
    · rwa [update_of_ne hdst]
  | reply src dst hi =>
    subst hi
    obtain ⟨hinv, hfree⟩ := h
    simp only [filterMap_cons, lockOf, grantOf, unlockOf, replyOf] at hinv
    rw [append_nil, Item.owner,
      acks_update (m := { modules dst with numPendingOut := (modules dst).numPendingOut - 1 }) rfl]
    have hmanaged : Managed phase (fun p => (modules p).lockReceivedAck) net (modules target) :=
      ⟨hinv.reply, hfree⟩
    by_cases hdst : target = dst
    · subst hdst
      rw [update_self]
      exact hmanaged.congr rfl rfl rfl rfl
    · rwa [update_of_ne hdst]

omit [DecidableEq P] in
theorem Effect.noRequest {r : Module P × List (Item P)} (h : Effect target i m r) :
    r.2.filterMap lockOf = [] ∧ r.2.filterMap unlockOf = [] := by
  have hcomplete (m : Module P) : (passiveUnlockComplete target m).2.filterMap lockOf = [] ∧
      (passiveUnlockComplete target m).2.filterMap unlockOf = [] := by
    unfold passiveUnlockComplete
    split_ifs
    · exact ⟨rfl, rfl⟩
    · unfold grantNext
      split <;> simp [filterMap_map, filterMap_cons, lockOf, unlockOf, Function.comp_def]
  cases h with
  | quiet hi hnew _ _ _ _ _ _ =>
    exact ⟨filterMap_eq_nil_iff.mpr fun j hj => (hnew j hj).1,
      filterMap_eq_nil_iff.mpr fun j hj => (hnew j hj).2.2.1⟩
  | mark hi howner req =>
    unfold inmsgMarkComplete
    dsimp only
    split_ifs
    · exact hcomplete _
    · exact ⟨rfl, rfl⟩
  | lock origin type hi =>
    unfold passiveLock
    cases type <;> dsimp only <;> split_ifs <;> simp [filterMap_cons, lockOf, unlockOf]
  | unlock origin count hi => exact hcomplete _
  | ack src origin dst hi => exact ⟨rfl, rfl⟩
  | reply src dst hi => exact ⟨rfl, rfl⟩

omit [DecidableEq P] in
theorem Effect.answered {r : Module P × List (Item P)} (h : Effect target i m r) (hr : r.2.filterMap replyOf ≠ []) :
    i.owner = target ∧ r.1.numPendingIn = 0 := by
  have hcomplete (m : Module P) (hr : (passiveUnlockComplete target m).2.filterMap replyOf ≠ []) :
      (passiveUnlockComplete target m).1.numPendingIn = 0 := by
    obtain ⟨⟨a, b, c, d, heq⟩, -⟩ := passiveUnlockComplete_spec target m
    rw [heq]
    unfold passiveUnlockComplete at hr
    split_ifs at hr with hzero
    · exact absurd rfl hr
    · exact not_not.mp hzero
  cases h with
  | quiet hi hnew _ _ _ _ _ _ =>
    exact absurd (filterMap_eq_nil_iff.mpr fun j hj => (hnew j hj).2.2.2) hr
  | mark hi howner req =>
    refine ⟨howner, ?_⟩
    unfold inmsgMarkComplete at hr ⊢
    dsimp only at hr ⊢
    split_ifs at hr ⊢
    · exact hcomplete _ hr
    · exact absurd rfl hr
  | lock origin type hi =>
    unfold passiveLock at hr
    cases type <;> dsimp only at hr <;> split_ifs at hr <;> exact absurd rfl hr
  | unlock origin count hi =>
    subst hi
    exact ⟨rfl, hcomplete _ hr⟩
  | ack src origin dst hi => exact absurd rfl hr
  | reply src dst hi => exact absurd rfl hr

omit [DecidableEq P] in
theorem Effect.waiting {r : Module P × List (Item P)} (h : Effect target i m r)
    (hlocked : m.unlocksPending ≠ [] → m.lockStatus ≠ none) (hwaiting : m.unlocksPending ≠ [] → m.numPendingIn ≠ 0) :
    r.1.unlocksPending ≠ [] → r.1.numPendingIn ≠ 0 := by
  have hcomplete (m : Module P) : (passiveUnlockComplete target m).1.unlocksPending ≠ [] →
      (passiveUnlockComplete target m).1.numPendingIn ≠ 0 := by
    unfold passiveUnlockComplete
    split_ifs with hin
    · exact fun _ => hin
    · intro hunlocks
      rw [(grantNext_unlocks target (releaseLock m)).1] at hunlocks
      refine absurd ?_ hunlocks
      unfold releaseLock
      split_ifs <;> rfl
  cases h with
  | quiet hi hnew _ _ _ hunlocks _ hin =>
    rw [hunlocks, hin]
    exact hwaiting
  | mark hi howner req =>
    unfold inmsgMarkComplete
    dsimp only
    split_ifs with hneed
    · exact hcomplete _
    · intro hunlocks hin
      exact hneed ⟨hin, hlocked hunlocks, hunlocks⟩
  | lock origin type hi =>
    unfold passiveLock
    cases type <;> dsimp only <;> split_ifs <;> exact hwaiting
  | unlock origin count hi => exact hcomplete _
  | ack src origin dst hi => exact hwaiting
  | reply src dst hi => exact hwaiting

omit [DecidableEq P] in
theorem Effect.queues {r : Module P × List (Item P)} (h : Effect target i m r) (howner : target ≠ i.owner) :
    r.1.locksPending = m.locksPending ∧ r.1.unlocksPending = m.unlocksPending := by
  cases h with
  | quiet hi hnew _ _ hlocks hunlocks _ _ => exact ⟨hlocks, hunlocks⟩
  | mark hi howner' req => exact absurd howner'.symm howner
  | lock origin type hi => exact absurd (hi ▸ rfl) howner
  | unlock origin count hi => exact absurd (hi ▸ rfl) howner
  | ack src origin dst hi => exact ⟨rfl, rfl⟩
  | reply src dst hi => exact ⟨rfl, rfl⟩

theorem Effect.ledger {r : Module P × List (Item P)} (h : Effect target i m r) : Ledger i m r.1 r.2 := by
  cases h with
  | quiet hi hnew _ _ hlocks hunlocks _ _ =>
    obtain ⟨hlock, -, hunlock, -⟩ := hi
    have hgrants := filterMap_eq_nil_iff.mpr fun j hj => (hnew j hj).2.1
    have hreplies := filterMap_eq_nil_iff.mpr fun j hj => (hnew j hj).2.2.2
    refine ⟨fun p => ?_, fun p => ?_⟩
    · simp [hlock, hlocks, hgrants]
    · simp [hunlock, hunlocks, hreplies]
  | mark hi howner req =>
    obtain ⟨hlock, -, hunlock, -⟩ := hi
    obtain ⟨hlocks, hunlocks⟩ := inmsgMarkComplete_queues target m req
    refine ⟨fun p => ?_, fun p => ?_⟩
    · rw [hlock]
      exact hlocks p
    · rw [hunlock]
      exact hunlocks p
  | lock origin type hi =>
    subst hi
    unfold passiveLock
    refine ⟨fun p => ?_, fun p => ?_⟩
    · cases type <;> dsimp only <;> split_ifs <;>
        simp [lockOf, grantOf, countP_cons, count_cons] <;> omega
    · cases type <;> dsimp only <;> split_ifs <;> simp [unlockOf, replyOf, filterMap_cons]
  | unlock origin count hi =>
    subst hi
    obtain ⟨hlocks, hunlocks⟩ := passiveUnlockComplete_queues target { m with
      numPendingIn := m.numPendingIn + count, unlocksPending := m.unlocksPending ++ [origin] }
    refine ⟨hlocks, fun p => (hunlocks p).symm ▸ ?_⟩
    exact (perm_append_singleton origin m.unlocksPending).symm.count_eq p
  | ack src origin dst hi =>
    subst hi
    exact ledger_same rfl rfl rfl rfl
  | reply src dst hi =>
    subst hi
    exact ledger_same rfl rfl rfl rfl

theorem ledger_come {modules : P → Module P} {r : Module P × List (Item P)}
    (h : Effect target i (modules i.owner) r) :
    Ledger i (modules target) (update modules i.owner r.1 target) r.2 := by
  by_cases howner : target = i.owner
  · rw [howner, update_self]
    exact h.ledger
  · rw [update_of_ne howner]
    cases h with
    | quiet hi hnew _ _ _ _ _ _ =>
      obtain ⟨hlock, -, hunlock, -⟩ := hi
      have hgrants := filterMap_eq_nil_iff.mpr fun j hj => (hnew j hj).2.1
      have hreplies := filterMap_eq_nil_iff.mpr fun j hj => (hnew j hj).2.2.2
      refine ⟨fun p => ?_, fun p => ?_⟩
      · simp [hlock, hgrants]
      · simp [hunlock, hreplies]
    | mark hi howner' req => exact absurd howner'.symm howner
    | lock origin type hi => exact absurd (hi ▸ rfl) howner
    | unlock origin count hi => exact absurd (hi ▸ rfl) howner
    | ack src origin dst hi =>
      subst hi
      exact ledger_same rfl rfl rfl rfl
    | reply src dst hi =>
      subst hi
      exact ledger_same rfl rfl rfl rfl

end Callbacks

end OpenMPI.Osc
