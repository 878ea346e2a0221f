import Mathlib.Algebra.Ring.Nat
import OpenMPI.Proofs.Class.HashTable
import OpenMPI.Routed.RouteTable

/-!
# The routing table is a map

Names, jobs and job families have entries of their own unless the jobs of the process have numbers as small as those of
families (`entry_inj`), so every answer is the route that was last set (`getRoute_after`).
-/

namespace OpenMPI.Routed

variable {z : ProcessInfo} {default target route : ProcessName} {calls : List Call} {key : Key} {t : RouteTable}

theorem toNat_jobFamily (n : UInt32) : (jobFamily n).toNat = n.toNat / 2 ^ 16 % 2 ^ 16 := by
  rw [jobFamily, UInt32.toNat_and, UInt32.toNat_shiftRight]
  exact (Nat.and_two_pow_sub_one_eq_mod _ 16).trans (by rw [Nat.shiftRight_eq_div_pow]; rfl)

theorem toNat_hashName (name : ProcessName) : (hashName name).toNat = name.jobid.toNat * 2 ^ 32 + name.vpid.toNat := by
  have hjobid := name.jobid.toNat_lt
  have hvpid := name.vpid.toNat_lt
  rw [hashName, UInt64.toNat_add, UInt64.toNat_shiftLeft, UInt32.toNat_toUInt64, UInt32.toNat_toUInt64]
  show (name.jobid.toNat <<< 32 % 2 ^ 64 + name.vpid.toNat) % 2 ^ 64 = _
  rw [Nat.shiftLeft_eq]
  omega

def Key.entry : Key → Entry
  | name n => .peer (hashName n)
  | job jobid => .vpidWildcard jobid
  | family f => .vpidWildcard f

/-- What there are routes for. -/
def Key.Possible (z : ProcessInfo) : Key → Prop
  | name _ => True
  | job jobid => z.foreign jobid = false
  | family f => z.daemon = false ∧ ∃ jobid, f = jobFamily jobid

theorem entry_inj (hfamily : z.daemon = true ∨ jobFamily z.myName.jobid ≠ 0) {key key' : Key} (h : key.Possible z)
    (h' : key'.Possible z) : key.entry = key'.entry ↔ key = key' := by
  have hsplit {jobid : UInt32} (hown : z.foreign jobid = false) {n : UInt32} (hother : z.daemon = false) :
      jobid ≠ jobFamily n := by
    rintro rfl
    have hzero : (jobFamily (jobFamily n)).toNat = 0 := by
      rw [toNat_jobFamily, toNat_jobFamily]
      omega
    have hsame : jobFamily (jobFamily n) = jobFamily z.myName.jobid := by simpa [ProcessInfo.foreign] using hown
    rcases hfamily with hdaemon | hne
    · rw [hdaemon] at hother
      cases hother
    · exact hne (hsame ▸ UInt32.toNat_inj.mp hzero)
  refine ⟨fun heq => ?_, fun heq => heq ▸ rfl⟩
  rcases key with n | j | f <;> rcases key' with n' | j' | f' <;>
    simp only [Key.entry, Entry.peer.injEq, Entry.vpidWildcard.injEq, reduceCtorEq] at heq
  · have hnat := congrArg UInt64.toNat heq
    rw [toNat_hashName, toNat_hashName] at hnat
    have hvpid := n.vpid.toNat_lt
    have hvpid' := n'.vpid.toNat_lt
    have hjobid : n.jobid = n'.jobid := UInt32.toNat_inj.mp (by omega)
    have hvpids : n.vpid = n'.vpid := UInt32.toNat_inj.mp (by omega)
    obtain ⟨jobid, vpid⟩ := n
    obtain ⟨jobid', vpid'⟩ := n'
    rw [Key.name.injEq, ProcessName.mk.injEq]
    exact ⟨hjobid, hvpids⟩
  · rw [heq]
  · obtain ⟨hother, n, rfl⟩ := h'
    exact absurd heq (hsplit h hother)
  · obtain ⟨hother, n, rfl⟩ := h
    exact absurd heq.symm (hsplit h' hother)
  · rw [heq]

theorem possible_of_keyOf (h : keyOf z target = some key) : key.Possible z := by
  unfold keyOf at h
  split_ifs at h with hinvalid hforeign hdaemon hjobid hvpid <;> cases h
  · exact ⟨by simpa using hdaemon, _, rfl⟩
  · exact Bool.eq_false_iff.mpr hforeign
  · trivial

theorem entryOf_eq (hrole : z.isApp = false) (target : ProcessName) : (∃ rc, entryOf z target = .error rc) ∧ keyOf z target = none ∨
    entryOf z target = .ok ((keyOf z target).map Key.entry) := by
  unfold entryOf keyOf
  rw [hrole]
  split_ifs <;> simp_all [Key.entry]

theorem get_set {entry entry' : Entry} :
    (t.set route entry).get entry' = if entry' = entry then some route else t.get entry' := by
  cases entry <;> cases entry' <;>
    simp [RouteTable.get, RouteTable.set, Class.HashTable.getValue_setValue, UInt32.toNat_inj, UInt64.toNat_inj]

theorem get_remove {entry entry' : Entry} :
    (t.remove entry).get entry' = if entry' = entry then none else t.get entry' := by
  cases entry <;> cases entry' <;>
    simp [RouteTable.get, RouteTable.remove, Class.HashTable.getValue_removeValue, UInt32.toNat_inj, UInt64.toNat_inj]

theorem get_updateRoute (hrole : z.isApp = false) (hfamily : z.daemon = true ∨ jobFamily z.myName.jobid ≠ 0)
    (hkey : key.Possible z) :
    (t.updateRoute z target route).2.get key.entry =
      if keyOf z target = some key then some route else t.get key.entry := by
  unfold RouteTable.updateRoute
  rcases entryOf_eq hrole target with ⟨⟨rc, hentry⟩, hnone⟩ | hentry
  · rw [hentry, hnone]
    rfl
  · rw [hentry]
    cases hk : keyOf z target with
    | none => rfl
    | some key' =>
      simp only [Option.map_some, get_set, entry_inj hfamily hkey (possible_of_keyOf hk), Option.some.injEq, eq_comm]

theorem get_deleteRoute (hrole : z.isApp = false) (hfamily : z.daemon = true ∨ jobFamily z.myName.jobid ≠ 0)
    (hkey : key.Possible z) :
    (t.deleteRoute z target).2.get key.entry = if keyOf z target = some key then none else t.get key.entry := by
  unfold RouteTable.deleteRoute
  rcases entryOf_eq hrole target with ⟨⟨rc, hentry⟩, hnone⟩ | hentry
  · rw [hentry, hnone]
    rfl
  · rw [hentry]
    cases hk : keyOf z target with
    | none => rfl
    | some key' =>
      have hinj := entry_inj hfamily hkey (possible_of_keyOf hk)
      simp only [Option.map_some]
      split_ifs with hsome hsame hsame
      · rw [get_remove, if_pos (hinj.mpr (Option.some.inj hsame).symm)]
      · rw [get_remove, if_neg fun heq => hsame (congrArg some (hinj.mp heq).symm)]
      · rw [← Option.some.inj hsame]
        simpa using hsome
      · rfl

theorem get_after (hrole : z.isApp = false) (hfamily : z.daemon = true ∨ jobFamily z.myName.jobid ≠ 0) (key : Key)
    (hkey : key.Possible z) : (RouteTable.after z default calls).get key.entry = lastSet z key calls := by
  induction calls with
  | nil => cases key <;> rfl
  | cons call calls ih =>
    cases call with
    | update target route => rw [RouteTable.after, get_updateRoute hrole hfamily hkey, ih, lastSet]
    | delete proc => rw [RouteTable.after, get_deleteRoute hrole hfamily hkey, ih, lastSet]

theorem wildcardRoute_updateRoute : (t.updateRoute z target route).2.wildcardRoute = t.wildcardRoute := by
  unfold RouteTable.updateRoute
  split
  · rfl
  · rfl
  · rename_i entry _
    cases entry <;> rfl

theorem wildcardRoute_deleteRoute : (t.deleteRoute z target).2.wildcardRoute = t.wildcardRoute := by
  unfold RouteTable.deleteRoute
  split
  · rfl
  · rfl
  · rename_i entry _
    dsimp only
    split_ifs
    · cases entry <;> rfl
    · rfl

theorem wildcardRoute_after : (RouteTable.after z default calls).wildcardRoute = default := by
  induction calls with
  | nil => rfl
  | cons call calls ih =>
    cases call with
    | update target route => exact wildcardRoute_updateRoute.trans ih
    | delete proc => exact wildcardRoute_deleteRoute.trans ih

theorem getRoute_after (hrole : z.isApp = false) (hfamily : z.daemon = true ∨ jobFamily z.myName.jobid ≠ 0) :
    (RouteTable.after z default calls).getRoute z target =
      if target.jobid = invalid ∨ target.vpid = invalid then nameInvalid
      else if compareName z.myName target then target
      else routeTo z default calls target := by
  unfold RouteTable.getRoute routeTo
  rw [hrole, wildcardRoute_after]
  simp only [Bool.false_eq_true, if_false]
  cases hforeign : z.foreign target.jobid with
  | true =>
    cases hdaemon : z.daemon with
    | true => rfl
    | false =>
      have hget : (RouteTable.after z default calls).get (.vpidWildcard (jobFamily target.jobid)) = _ :=
        get_after hrole hfamily (.family _) ⟨hdaemon, _, rfl⟩
      simp only [if_true, hget]
  | false =>
    have hname : (RouteTable.after z default calls).get (.peer (hashName target)) = _ :=
      get_after hrole hfamily (.name _) trivial
    have hjob : (RouteTable.after z default calls).get (.vpidWildcard target.jobid) = _ :=
      get_after hrole hfamily (.job _) hforeign
    simp only [Bool.false_eq_true, if_false, hname, hjob]

theorem lastSet_cons {call : Call} (h : keyOf z call.target ≠ some key) :
    lastSet z key (call :: calls) = lastSet z key calls := by
  cases call <;> exact if_neg h

theorem routeTo_cons {call : Call} (h : ∀ key, keyOf z call.target = some key → ¬key.Concerns z target) :
    routeTo z default (call :: calls) target = routeTo z default calls target := by
  have hname : keyOf z call.target ≠ some (.name target) := fun hk => h _ hk rfl
  have hjob : keyOf z call.target ≠ some (.job target.jobid) := fun hk => h _ hk rfl
  unfold routeTo
  rw [lastSet_cons hname, lastSet_cons hjob]
  cases hforeign : z.foreign target.jobid with
  | true =>
    have hother : keyOf z call.target ≠ some (.family (jobFamily target.jobid)) := fun hk => h _ hk ⟨hforeign, rfl⟩
    rw [lastSet_cons hother]
  | false => rfl

/-- The answer for a name that is not its own is the route last set, where the jobs of the process are told apart from
families. -/
theorem getRoute_separate (z : ProcessInfo) (hrole : z.isApp = false)
    (hfamily : z.daemon = true ∨ jobFamily z.myName.jobid ≠ 0) (default : ProcessName) (calls : List Call)
    (target : ProcessName) :
    (RouteTable.after z default calls).getRoute z target =
      (if target.jobid = invalid ∨ target.vpid = invalid then nameInvalid
      else if compareName z.myName target then target
      else routeTo z default calls target) ∧ Separate z default calls target := by
  refine ⟨getRoute_after hrole hfamily, fun call hcall => ?_⟩
  rw [getRoute_after hrole hfamily, getRoute_after hrole hfamily, routeTo_cons hcall]

/-- An HNP with one job beside its own. -/
def exampleHnp : ProcessInfo where
  hnp := true
  daemon := false
  tool := false
  myName := ⟨0x10000, 0⟩
  myHnp := ⟨0x10000, 0⟩
  myDaemon := ⟨0x10000, 0⟩

theorem getRoute_separate_job :
    (RouteTable.after exampleHnp ⟨0x10000, 1⟩ [.update ⟨0x10001, wildcard⟩ ⟨0x10000, 2⟩]).getRoute exampleHnp
      ⟨0x10001, 7⟩ = ⟨0x10000, 2⟩ := by
  rw [(getRoute_separate exampleHnp rfl (.inr (by decide)) ⟨0x10000, 1⟩
    [.update ⟨0x10001, wildcard⟩ ⟨0x10000, 2⟩] ⟨0x10001, 7⟩).1]
  decide

/-- The route to itself is direct, whatever was set for its name. -/
theorem getRoute_own :
    ¬(RouteTable.after exampleHnp ⟨0x10000, 1⟩ [.update ⟨0x10000, 0⟩ ⟨0x10000, 2⟩]).getRoute exampleHnp ⟨0x10000, 0⟩ =
      routeTo exampleHnp ⟨0x10000, 1⟩ [.update ⟨0x10000, 0⟩ ⟨0x10000, 2⟩] ⟨0x10000, 0⟩ := by
  decide

end OpenMPI.Routed
