import OpenMPI.Proofs.Osc.FenceRun

/-!
# Errors of start and fence

A fence puts back what it took (`fence_harmless_iff`), and so does a start that finds an epoch started.  A
start that finds a process outside the window leaves its group and the posts it expects behind, so that
only this error does harm (`harmless_iff`).
-/

namespace OpenMPI.Osc

section Same

variable {P : Type*} {w : Win P} {m : Module P}

def Win.withCopy (w : Win P) (counts : P → ℕ) : Win P :=
  { w with module := { w.module with copyNumPendingSendreqs := counts } }

theorem Win.same_withCopy (w : Win P) (counts : P → ℕ) : w.Same (w.withCopy counts) := rfl

theorem putBack_flip (hcopy : m.copyPendingSendreqs = []) :
    putBack (flipSendreqs m) = { m with copyNumPendingSendreqs := m.numPendingSendreqs } := by
  simp [putBack, flipSendreqs, hcopy]

end Same

variable {P : Type*} [DecidableEq P] {comm : List P} {w w' : Win P}

theorem releaseGroup_retainGroup (group : Group P) : releaseGroup (retainGroup w group) group = w := by
  rw [releaseGroup, retainGroup]
  simp

theorem markRanks_fst (procs : List P) (i : ℕ) (w : Win P) : (markRanks comm procs i w).1 = decide (procs ⊆ comm) := by
  induction procs generalizing i w with
  | nil => simp [markRanks]
  | cons p procs ih =>
    rw [markRanks]
    rcases hfind : comm.findIdx? (· = p) with _ | j
    · have hout : p ∉ comm := by
        rw [List.findIdx?_eq_none_iff] at hfind
        intro hp
        simpa using hfind p hp
      simp [hout]
    · have hin : p ∈ comm := by
        obtain ⟨hj, hp, -⟩ := List.findIdx?_eq_some_iff_getElem.mp hfind
        rw [← of_decide_eq_true hp]
        exact List.getElem_mem hj
      simp [ih, hin]

theorem markRanks_scGroup (procs : List P) (i : ℕ) (w : Win P) : (markRanks comm procs i w).2.scGroup = w.scGroup := by
  induction procs generalizing i w with
  | nil => rfl
  | cons p procs ih =>
    rw [markRanks]
    rcases comm.findIdx? (· = p) with _ | j
    · rfl
    · exact ih (i + 1) _

theorem markRanks_withCopy (procs : List P) (i : ℕ) (w : Win P) (counts : P → ℕ) :
    markRanks comm procs i (w.withCopy counts) =
      ((markRanks comm procs i w).1, (markRanks comm procs i w).2.withCopy counts) := by
  induction procs generalizing i w with
  | nil => rfl
  | cons p procs ih =>
    rw [markRanks, markRanks]
    rcases comm.findIdx? (· = p) with _ | j
    · rfl
    · exact ih (i + 1) { w with
        scRemoteActiveRanks := Function.update w.scRemoteActiveRanks j true
        scRemoteRanks := Function.update w.scRemoteRanks i j }

def starting (w : Win P) (group : Group P) : Win P :=
  { retainGroup w group with
    scGroup := some group
    module := { w.module with numPostMsgs := w.module.numPostMsgs + group.procs.length }
    scRemoteActiveRanks := fun _ => false }

theorem moduleStart_isSome (h : w.scGroup.isSome = true) (group : Group P) :
    moduleStart comm w group = .error (.rmaSync, w) := by
  have h' : (retainGroup w group).scGroup.isSome = true := h
  rw [moduleStart]
  simp only [if_pos h', releaseGroup_retainGroup]

theorem moduleStart_isNone (h : ¬w.scGroup.isSome = true) (group : Group P) :
    moduleStart comm w group =
      if group.procs ⊆ comm then
        .ok { (markRanks comm group.procs 0 (starting w group)).2 with
          mode := fun f => f = .accessEpoch ∨ f = .started ∨
            (f ≠ .fence ∧ (markRanks comm group.procs 0 (starting w group)).2.mode f) }
      else .error (.rmaSync, releaseGroup (markRanks comm group.procs 0 (starting w group)).2 group) := by
  have h' : ¬(retainGroup w group).scGroup.isSome = true := h
  have hfst : (markRanks comm group.procs 0 (starting w group)).1 = decide (group.procs ⊆ comm) :=
    markRanks_fst group.procs 0 (starting w group)
  rw [moduleStart]
  simp only [if_neg h']
  split
  · next v hv =>
    have hmark : markRanks comm group.procs 0 (starting w group) = (false, v) := hv
    rw [hmark] at hfst
    rw [if_neg (of_decide_eq_false hfst.symm), hmark]
  · next v hv =>
    have hmark : markRanks comm group.procs 0 (starting w group) = (true, v) := hv
    rw [hmark] at hfst
    rw [if_pos (of_decide_eq_true hfst.symm), hmark]

theorem moduleStart_withCopy (group : Group P) (counts : P → ℕ) :
    moduleStart comm (w.withCopy counts) group =
      match moduleStart comm w group with
      | .ok w => .ok (w.withCopy counts)
      | .error (e, w) => .error (e, w.withCopy counts) := by
  by_cases h : w.scGroup.isSome = true
  · rw [moduleStart_isSome h, moduleStart_isSome (w := w.withCopy counts) h]
  · have hstarting : starting (w.withCopy counts) group = (starting w group).withCopy counts := rfl
    rw [moduleStart_isNone h, moduleStart_isNone (w := w.withCopy counts) h, hstarting, markRanks_withCopy]
    split_ifs <;> rfl

theorem run_same (h : w.Same w') (call : SyncCall P) : SameOutcome (call.run comm w) (call.run comm w') := by
  obtain ⟨counts, rfl⟩ : ∃ counts, w' = w.withCopy counts := ⟨_, h⟩
  rcases call with group | ⟨noPrecede, noSucceed, reduceScatter⟩
  · rw [SyncCall.run, SyncCall.run, moduleStart_withCopy]
    rcases moduleStart comm w group with ⟨e, v⟩ | v
    · exact ⟨rfl, v.same_withCopy counts⟩
    · exact ⟨v.same_withCopy counts, rfl⟩
  · rw [SyncCall.run, SyncCall.run, moduleFence, moduleFence]
    split
    · change SameOutcome _ (if w.module.pendingSendreqs.length ≠ 0 then _ else _)
      split
      · exact ⟨rfl, w.same_withCopy counts⟩
      · exact ⟨rfl, rfl⟩
    · rcases reduceScatter with _ | incomingReqs
      · exact ⟨rfl, rfl⟩
      · exact ⟨rfl, rfl⟩

theorem fence_harmless_iff (noPrecede noSucceed : Bool) (reduceScatter : Option ℕ) :
    Harmless comm w (.fence noPrecede noSucceed reduceScatter) ↔
      (noPrecede = false → reduceScatter = none → w.module.copyPendingSendreqs = []) := by
  constructor
  · rintro h rfl rfl
    exact congrArg (fun v : Win P => v.module.copyPendingSendreqs) (h _ _ rfl).1.symm
  · intro hcopy e w' hrun
    have hsame : w.Same w' := by
      rw [SyncCall.run, moduleFence] at hrun
      split at hrun
      · split at hrun
        · cases hrun
          rfl
        · cases hrun
      · rename_i hprecede
        rcases reduceScatter with _ | incomingReqs
        · cases hrun
          rw [Win.Same, putBack_flip (hcopy (Bool.eq_false_iff.mpr hprecede) rfl)]
        · cases hrun
    exact ⟨hsame, fun later => run_same hsame later⟩

theorem start_harmless_iff (group : Group P) :
    Harmless comm w (.start group) ↔ w.scGroup.isSome ∨ group.procs ⊆ comm := by
  by_cases h : w.scGroup.isSome = true
  · refine iff_of_true (fun e w' hrun => ?_) (.inl h)
    rw [SyncCall.run, moduleStart_isSome h] at hrun
    cases hrun
    have hsame : w.Same w := rfl
    exact ⟨hsame, fun later => run_same hsame later⟩
  · rw [Harmless, SyncCall.run, moduleStart_isNone h]
    by_cases hsub : group.procs ⊆ comm
    · rw [if_pos hsub]
      exact iff_of_true (fun e w' hrun => nomatch hrun) (.inr hsub)
    · rw [if_neg hsub]
      refine iff_of_false (fun hharmless => ?_) (fun hor => hor.elim h hsub)
      have hsame := (hharmless _ _ rfl).1
      -- the group of the failed call is left in the window
      have hgroup : (releaseGroup (markRanks comm group.procs 0 (starting w group)).2 group).scGroup = some group :=
        markRanks_scGroup ..
      rw [Win.Same] at hsame
      rw [hsame] at hgroup
      exact h (by rw [show w.scGroup = some group from hgroup]; rfl)

/-- The errors that do no harm: all but that of a process outside the window when no epoch is started,
and that of a fence whose list of copies is in use, which it never is between calls. -/
theorem harmless_iff (call : SyncCall P) :
    Harmless comm w call ↔
      (∀ group, call = .start group → w.scGroup.isSome ∨ group.procs ⊆ comm) ∧
      ∀ noSucceed, call = .fence false noSucceed none → w.module.copyPendingSendreqs = [] := by
  rcases call with group | ⟨noPrecede, noSucceed, reduceScatter⟩
  · rw [start_harmless_iff]
    simp
  · rw [fence_harmless_iff]
    simp only [reduceCtorEq, false_implies, implies_true, true_and, SyncCall.fence.injEq]
    exact ⟨fun h noSucceed heq => h heq.1 heq.2.2, fun h h₁ h₂ => h noSucceed ⟨h₁, rfl, h₂⟩⟩

/-- A window that nothing has happened to, and a group with a process that is not in it. -/
def freshWin : Win ℕ := ⟨.init, none, fun _ => false, fun _ => 0, fun _ => false, fun _ => 1, fun _ => 1⟩

theorem start_not_harmless : ¬Harmless [0, 1] freshWin (.start ⟨0, [7]⟩) := by
  intro h
  have hsame := (h .rmaSync (releaseGroup (starting freshWin ⟨0, [7]⟩) ⟨0, [7]⟩) rfl).1
  exact absurd (congrArg Win.scGroup hsame) nofun

end OpenMPI.Osc
