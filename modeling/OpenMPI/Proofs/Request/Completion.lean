import Mathlib.Data.List.Nodup
import OpenMPI.Request.Completion

/-!
# The calls that complete requests, by one set of rules

Each loop does to the requests at some places what one of them asks for (`Effect.foldl_run`), so that a call
keeps to the rules if its loop does so for one request (`rules_run_iff`).
-/

namespace OpenMPI.Completion

open List

variable {p : Pass} {i : ℕ} {is : List ℕ} {rs : List Request}

namespace Request

@[simp] theorem isPersistent_invokeQuery (r : Request) : r.invokeQuery.isPersistent = r.isPersistent := by
  cases r <;> rfl

@[simp] theorem inactive_invokeQuery (r : Request) : r.invokeQuery.inactive = r.inactive := by
  cases r <;> rfl

theorem invokeQuery_of_not_isGen {r : Request} (h : r.isGen = false) : r.invokeQuery = r := by
  cases r <;> first | rfl | cases h

theorem isGen_of_isPersistent {r : Request} (h : r.isPersistent) : r.isGen = false := by
  cases r <;> first | rfl | cases h

theorem isGen_of_inactive {r : Request} (h : r.inactive) : r.isGen = false := by
  cases r <;> first | rfl | cases h

end Request

namespace Pass

theorem request_set (hi : i < rs.length) (r : Request) (queried : List ℕ) (statuses : List Status) (rc : ℤ) :
    (⟨rs.set i r, queried, statuses, rc⟩ : Pass).request i = r := by
  rw [request, getD_eq_getElem?_getD, getElem?_set_self hi, Option.getD_some]

theorem set_request (hi : i < p.requests.length) : p.set i (p.request i) = p := by
  have : p.requests.getD i .null = p.requests[i] := by
    rw [getD_eq_getElem?_getD, getElem?_eq_getElem hi, Option.getD_some]
  rw [set, request, this, set_getElem_self]

theorem query_eq (hi : i < p.requests.length) :
    p.query i = ⟨p.requests.set i (p.request i).invokeQuery, p.queried ++ (if (p.request i).isGen then [i] else []),
      p.statuses, p.rc⟩ := by
  rw [query]
  cases hgen : (p.request i).isGen with
  | true => rfl
  | false =>
    have hsame : p.requests.set i (p.request i) = p.requests := congrArg Pass.requests (set_request hi)
    rw [Request.invokeQuery_of_not_isGen hgen, hsame]
    simp

end Pass

/-- What a loop does with one request: what is left of it, whether its query function is called, the
statuses written, and what the call will return. -/
structure Effect where
  slot : Request → Request
  queried : Request → Bool
  statuses : Request → List Status
  rc : ℤ → Request → ℤ

def Effect.run (E : Effect) (p : Pass) (i : ℕ) : Pass where
  requests := p.requests.set i (E.slot (p.request i))
  queried := p.queried ++ if E.queried (p.request i) then [i] else []
  statuses := p.statuses ++ E.statuses (p.request i)
  rc := E.rc p.rc (p.request i)

theorem Effect.foldl_run (E : Effect) {body : Pass → ℕ → Pass}
    (hbody : ∀ p i, i < p.requests.length → body p i = E.run p i) (hnodup : is.Nodup)
    (his : ∀ i ∈ is, i < p.requests.length) :
    is.foldl body p =
      { requests := p.requests.mapIdx fun i r => if i ∈ is then E.slot r else r
        queried := p.queried ++ is.filter fun i => E.queried (p.request i)
        statuses := p.statuses ++ is.flatMap fun i => E.statuses (p.request i)
        rc := is.foldl (fun rc i => E.rc rc (p.request i)) p.rc } := by
  induction is generalizing p with
  | nil =>
    have hsame : p.requests.mapIdx (fun _ r => r) = p.requests := ext_getElem? fun j => by simp
    simp [hsame]
  | cons i is ih =>
    obtain ⟨hnot, hnodup⟩ := nodup_cons.mp hnodup
    have hi := his i mem_cons_self
    have hrequest : ∀ j ∈ is, (E.run p i).request j = p.request j := by
      intro j hj
      have hne : i ≠ j := fun heq => hnot (heq ▸ hj)
      rw [Pass.request, Pass.request, Effect.run, getD_eq_getElem?_getD, getD_eq_getElem?_getD,
        getElem?_set_ne hne]
    have hlength : (E.run p i).requests.length = p.requests.length := length_set
    rw [foldl_cons, hbody p i hi, ih hnodup fun j hj => hlength ▸ his j (mem_cons_of_mem i hj)]
    congr 1
    · refine ext_getElem? fun j => ?_
      rw [getElem?_mapIdx, getElem?_mapIdx, Effect.run]
      rcases eq_or_ne i j with rfl | hne
      · rw [getElem?_set_self hi, getElem?_eq_getElem hi]
        simp [hnot, Pass.request, getD_eq_getElem?_getD, getElem?_eq_getElem hi]
      · rw [getElem?_set_ne hne]
        simp [hne.symm]
    · rw [filter_congr fun j hj => by rw [hrequest j hj], filter_cons, Effect.run, append_assoc]
      split <;> simp
    · rw [flatMap_cons, Effect.run, append_assoc]
      congr 2
      exact flatMap_congr fun j hj => congrArg E.statuses (hrequest j hj)
    · rw [foldl_cons]
      exact foldl_ext _ _ _ fun rc j hj => by rw [hrequest j hj]

theorem invokeQuery_of_inactive {r : Request} (h : r.inactive) : r.invokeQuery = r :=
  Request.invokeQuery_of_not_isGen (Request.isGen_of_inactive h)

theorem settle_eq (r : Request) :
    settle r = if r.isPersistent then r.invokeQuery.deactivate
      else if r.invokeQuery.status.error = success then .null else r.invokeQuery := by
  rcases r with _ | _ | ⟨active, _, _⟩ | _
  · rfl
  · rfl
  · cases active <;> rfl
  · rfl

theorem settle_eq_reported (r : Request) :
    settle r = if r.isPersistent then r.invokeQuery.deactivate
      else if (reported r).error = success then .null else r.invokeQuery := by
  rcases r with _ | _ | ⟨active, _, _⟩ | _
  · rfl
  · rfl
  · cases active <;> rfl
  · rfl

def settling (statuses : Request → List Status) (rc : ℤ → Request → ℤ) : Effect where
  slot := settle
  queried := Request.isGen
  statuses := statuses
  rc := rc

section

variable (hi : i < p.requests.length)

include hi

theorem waitAllStatus_eq :
    waitAllStatus p i = (settling (fun r => [r.invokeQuery.status])
      fun rc r => if r.invokeQuery.status.error ≠ success then errInStatus else rc).run p i := by
  simp only [waitAllStatus, Pass.query_eq hi, Pass.report, Pass.request_set hi, Pass.deactivate, Pass.free, Pass.set,
    set_set, Effect.run, settling, settle_eq, Request.isPersistent_invokeQuery]
  split_ifs <;> simp_all

theorem waitAllIgnore_eq :
    waitAllIgnore p i = (settling (fun _ => [])
      fun rc r => if (reported r).error ≠ success then (reported r).error else rc).run p i := by
  have hreported : (if (p.request i).invokeQuery.inactive then statusEmpty.error
      else (p.request i).invokeQuery.status.error) = (reported (p.request i)).error := by
    rw [reported, apply_ite Status.error, Request.inactive_invokeQuery]
  simp only [waitAllIgnore, Pass.query_eq hi, Pass.request_set hi, Pass.deactivate, Pass.free, Pass.set, set_set,
    Effect.run, settling, settle_eq_reported, Request.isPersistent_invokeQuery, hreported]
  split_ifs <;> simp_all

theorem settling_run_of_inactive (h : (p.request i).inactive)
    (statuses : Request → List Status) (rc : ℤ → Request → ℤ) :
    (settling statuses rc).run p i =
      ⟨p.requests, p.queried, p.statuses ++ statuses (p.request i), rc p.rc (p.request i)⟩ := by
  have hsame : p.requests.set i (p.request i) = p.requests := congrArg Pass.requests (Pass.set_request hi)
  simp [Effect.run, settling, settle, h, hsame, Request.isGen_of_inactive h]

theorem testAllStatus_eq :
    testAllStatus p i = (settling (fun r => [r.invokeQuery.status])
      fun rc r => if r.isPersistent = false ∧ (reported r).error ≠ success then errInStatus else rc).run p i := by
  cases h : (p.request i).inactive with
  | true =>
    rw [settling_run_of_inactive hi h, testAllStatus, if_pos h, Pass.report, invokeQuery_of_inactive h, reported,
      if_pos h]
    simp [statusEmpty]
  | false =>
    simp only [testAllStatus, h, Bool.false_eq_true, if_false, Pass.query_eq hi, Pass.report, Pass.request_set hi,
      Pass.deactivate, Pass.free, Pass.set, set_set, Effect.run, settling, settle_eq, reported,
      Request.isPersistent_invokeQuery]
    split_ifs <;> simp_all

theorem testAllIgnore_eq :
    testAllIgnore p i = (settling (fun _ => [])
      fun rc r => if r.isPersistent = false ∧ (reported r).error ≠ success then errInStatus else rc).run p i := by
  cases h : (p.request i).inactive with
  | true =>
    rw [settling_run_of_inactive hi h, testAllIgnore, if_pos h, reported, if_pos h]
    simp [statusEmpty]
  | false =>
    simp only [testAllIgnore, h, Bool.false_eq_true, if_false, Pass.query_eq hi, Pass.request_set hi, Pass.deactivate,
      Pass.free, Pass.set, set_set, Effect.run, settling, settle_eq, reported, Request.isPersistent_invokeQuery]
    split_ifs <;> simp_all

end

theorem waitSomeOne_eq (requested : Bool) (hi : i < p.requests.length) :
    waitSomeOne requested p i = (settling (fun r => if requested then [r.invokeQuery.status] else [])
      fun rc r => if r.invokeQuery.status.error ≠ success then errInStatus else rc).run p i := by
  cases requested <;> by_cases herror : (p.request i).invokeQuery.status.error = success <;>
    simp only [waitSomeOne, Pass.query_eq hi, Pass.report, Pass.request_set hi, Pass.deactivate, Pass.free, Pass.set,
      set_set, Effect.run, settling, settle_eq, Request.isPersistent_invokeQuery, herror, ne_eq, not_true,
      not_false_eq_true, Bool.false_eq_true, if_true, if_false] <;>
    split_ifs <;> simp_all

theorem forall_range_iff {P : Request → Prop} :
    (∀ i ∈ range rs.length, P (rs.getD i .null)) ↔ ∀ r ∈ rs, P r := by
  constructor
  · intro h r hr
    obtain ⟨i, hi, rfl⟩ := getElem_of_mem hr
    have := h i (mem_range.mpr hi)
    rwa [getD_eq_getElem?_getD, getElem?_eq_getElem hi] at this
  · intro h i hi
    rw [getD_eq_getElem?_getD, getElem?_eq_getElem (mem_range.mp hi)]
    exact h _ (getElem_mem _)

theorem foldl_rc_iff {bad : ℕ → Prop} [DecidablePred bad] {code : ℕ → ℤ} (hcode : ∀ i, bad i → code i ≠ success)
    (rc : ℤ) : is.foldl (fun rc i => if bad i then code i else rc) rc = success ↔ rc = success ∧ ∀ i ∈ is, ¬bad i := by
  induction is generalizing rc with
  | nil => simp
  | cons i is ih =>
    rw [foldl_cons, ih, forall_mem_cons]
    by_cases hbad : bad i
    · simp [hbad, hcode i hbad]
    · simp [hbad]

theorem forall₂_agree_iff {single : Bool} {f g : ℕ → Status} :
    List.Forall₂ (Agree single) (is.flatMap fun i => [f i]) (is.map g) ↔ ∀ i ∈ is, Agree single (f i) (g i) := by
  rw [← map_eq_flatMap, forall₂_map_left_iff, forall₂_map_right_iff, forall₂_same]

theorem completes_settling_iff {statuses : Request → List Status} {rc : ℤ → Request → ℤ} {body : Pass → ℕ → Pass}
    (hbody : ∀ p i, i < p.requests.length → body p i = (settling statuses rc).run p i) (hnodup : is.Nodup)
    (his : ∀ i ∈ is, i < rs.length) {requested single : Bool} :
    Completes rs is requested single (is.foldl body (Pass.start rs)) ↔
      (requested → List.Forall₂ (Agree single) (is.flatMap fun i => statuses (rs.getD i .null))
        (is.map fun i => reported (rs.getD i .null))) ∧
      (is.foldl (fun c i => rc c (rs.getD i .null)) success = success ↔
        ∀ i ∈ is, (reported (rs.getD i .null)).error = success) := by
  rw [Effect.foldl_run _ hbody hnodup his]
  constructor
  · rintro ⟨-, -, hstatuses, hrc⟩
    exact ⟨hstatuses, hrc⟩
  · rintro ⟨hstatuses, hrc⟩
    exact ⟨rfl, rfl, hstatuses, hrc⟩

theorem agree_reported_iff (r : Request) :
    Agree false r.invokeQuery.status (reported r) ↔ (r.inactive → r.status = statusEmpty) := by
  simp only [Agree, Bool.false_eq_true, false_and, or_false]
  cases h : r.inactive with
  | true =>
    rw [invokeQuery_of_inactive h, reported, if_pos h]
    simp
  | false =>
    rw [reported, h, if_neg Bool.false_ne_true]
    simp

theorem rules_waitAll_iff (requested : Bool) (rs : List Request) :
    RulesAll rs rs true requested false (waitAll requested rs) ↔ ((∀ r ∈ rs, r.inactive ∨ r.complete) →
      ∀ r ∈ rs, r.inactive → r.complete ∧ (requested → r.status = statusEmpty)) := by
  rw [waitAll]
  have hlt : ∀ i ∈ range rs.length, i < rs.length := fun i => mem_range.mp
  by_cases hall : rs.all Request.complete
  · rw [if_pos hall]
    rw [all_eq_true] at hall
    have hready : ∀ r ∈ rs, r.inactive ∨ r.complete := fun r hr => .inr (hall r hr)
    simp only [RulesAll, true_and]
    rw [and_iff_right hready, forall_prop_of_true hready]
    cases requested with
    | true =>
      rw [if_pos rfl, completes_settling_iff (fun _ _ hi => waitAllStatus_eq hi) nodup_range hlt, forall₂_agree_iff,
        foldl_rc_iff fun _ _ => by decide]
      simp only [true_imp_iff, not_not, true_and]
      rw [forall_range_iff (P := fun r => Agree false r.invokeQuery.status (reported r)),
        forall_range_iff (P := fun r => r.invokeQuery.status.error = success),
        forall_range_iff (P := fun r => (reported r).error = success)]
      constructor
      · rintro ⟨hagree, -⟩ r hr hin
        exact ⟨hall r hr, (agree_reported_iff r).mp (hagree r hr) hin⟩
      · intro h
        have hagree : ∀ r ∈ rs, Agree false r.invokeQuery.status (reported r) := fun r hr =>
          (agree_reported_iff r).mpr fun hin => (h r hr hin).2
        refine ⟨hagree, forall₂_congr fun r hr => ?_⟩
        rw [(hagree r hr).resolve_right (by simp)]
    | false =>
      rw [if_neg Bool.false_ne_true, completes_settling_iff (fun _ _ hi => waitAllIgnore_eq hi) nodup_range hlt,
        foldl_rc_iff fun _ h => h]
      simp only [Bool.false_eq_true, false_implies, and_true, true_and, not_not]
      simpa using fun r hr _ => hall r hr
  · rw [if_neg hall]
    simp only [RulesAll, true_and]
    rw [all_eq_true] at hall
    constructor
    · exact fun hnot hready => absurd hready hnot
    · intro h hready
      refine hall fun r hr => ?_
      rcases hready r hr with hin | hcomplete
      · exact (h hready r hr hin).1
      · exact hcomplete

theorem rules_testAll_iff (requested : Bool) (progress : ℕ → Request → Request) (rs : List Request) :
    RulesAll rs (rs.mapIdx progress) false requested false (some (testAll requested progress rs)) ↔
      ((∀ r ∈ rs, r.inactive ∨ r.complete) →
        (requested → ∀ r ∈ rs, r.inactive → r.status = statusEmpty) ∧
          ((∃ r ∈ rs, (reported r).error ≠ success) →
            ∃ r ∈ rs, r.isPersistent = false ∧ (reported r).error ≠ success)) := by
  have hlt : ∀ i ∈ range rs.length, i < rs.length := fun i => mem_range.mp
  have hall : (rs.all fun r => r.inactive || r.complete) = true ↔ ∀ r ∈ rs, r.inactive ∨ r.complete := by
    simp
  rw [testAll]
  by_cases hready : ∀ r ∈ rs, r.inactive ∨ r.complete
  · rw [if_pos (hall.mpr hready), forall_prop_of_true hready]
    simp only [RulesAll, true_and]
    rw [and_iff_right hready]
    have hrc : (∀ i ∈ range rs.length, ¬((rs.getD i .null).isPersistent = false ∧
        (reported (rs.getD i .null)).error ≠ success)) ↔
        ∀ r ∈ rs, ¬(r.isPersistent = false ∧ (reported r).error ≠ success) :=
      forall_range_iff (P := fun r => ¬(r.isPersistent = false ∧ (reported r).error ≠ success))
    have herrors : (∀ i ∈ range rs.length, (reported (rs.getD i .null)).error = success) ↔
        ∀ r ∈ rs, (reported r).error = success := forall_range_iff (P := fun r => (reported r).error = success)
    -- an error is reported if some request with one is not persistent
    have hreport : ((∀ r ∈ rs, ¬(r.isPersistent = false ∧ (reported r).error ≠ success)) ↔
        ∀ r ∈ rs, (reported r).error = success) ↔ ((∃ r ∈ rs, (reported r).error ≠ success) →
          ∃ r ∈ rs, r.isPersistent = false ∧ (reported r).error ≠ success) := by
      constructor
      · rintro h ⟨r, hr, herror⟩
        by_contra hnone
        push Not at hnone
        exact herror (h.mp (fun s hs hbad => hbad.2 (hnone s hs hbad.1)) r hr)
      · intro h
        refine ⟨fun hnone r hr => ?_, fun hgood r hr hbad => hbad.2 (hgood r hr)⟩
        by_contra herror
        obtain ⟨s, hs, hbad⟩ := h ⟨r, hr, herror⟩
        exact hnone s hs hbad
    cases requested with
    | true =>
      rw [if_pos rfl, completes_settling_iff (fun _ _ hi => testAllStatus_eq hi) nodup_range hlt, forall₂_agree_iff,
        foldl_rc_iff fun _ _ => by decide, hrc, herrors, and_iff_right rfl, hreport,
        forall_range_iff (P := fun r => Agree false r.invokeQuery.status (reported r))]
      simp only [agree_reported_iff, true_imp_iff]
    | false =>
      rw [if_neg Bool.false_ne_true, completes_settling_iff (fun _ _ hi => testAllIgnore_eq hi) nodup_range hlt,
        foldl_rc_iff fun _ _ => by decide, hrc, herrors, and_iff_right rfl, hreport]
      simp only [Bool.false_eq_true, false_imp_iff]
  · rw [if_neg fun h => hready (hall.mp h)]
    simp only [RulesAll, Settled, Pass.start]
    simp [hready]

/-- A request that a call completes by itself: its status is written without the error. -/
def single (requested : Bool) (old : Status) (rc : ℤ → Request → ℤ) : Effect :=
  settling (fun r => if requested then [{ r.invokeQuery.status with error := old.error }] else []) rc

theorem query_reportOne_eq (requested : Bool) (old : Status) (hi : i < p.requests.length) :
    (p.query i).reportOne i requested old =
      ⟨p.requests.set i (p.request i).invokeQuery, p.queried ++ (if (p.request i).isGen then [i] else []),
        p.statuses ++ (if requested then [{ (p.request i).invokeQuery.status with error := old.error }] else []), p.rc⟩ := by
  rw [Pass.reportOne, Pass.query_eq hi, Pass.request_set hi, Pass.report]
  cases requested <;> simp

theorem wait_eq (requested : Bool) (old : Status) (req : Request) :
    wait requested old req = if req.complete then
      some (.places [0], (single requested old fun _ r => (reported r).error).run (Pass.start [req]) 0) else none := by
  have hi : 0 < (Pass.start [req]).requests.length := Nat.one_pos
  have hrequest : (Pass.start [req]).request 0 = req := rfl
  rw [wait]
  cases hcomplete : req.complete with
  | false => rfl
  | true =>
    simp only [query_reportOne_eq requested old hi, Pass.request_set hi, hrequest, Pass.deactivate, Pass.free, Pass.set,
      set_set, Effect.run, single, settling, settle_eq, Request.isPersistent_invokeQuery,
      Request.inactive_invokeQuery, Bool.true_eq_false, if_false, if_true, reported]
    cases req with
    | null => simp [Request.isPersistent, Request.inactive, Request.invokeQuery, Request.status, statusEmpty]
    | ordinary | generalised => simp only [Request.isPersistent, Request.inactive]; split_ifs <;> simp_all
    | persistent active =>
      cases active <;>
        simp [Request.isPersistent, Request.inactive, Request.invokeQuery, Request.deactivate, statusEmpty]

theorem testOnce_eq (requested : Bool) (old : Status) (r : Request) :
    testOnce requested old r =
      if r.inactive then some (.places [0], ⟨[r], [], if requested then [statusEmpty] else [], success⟩)
      else if r.complete then
        some (.places [0], (single requested old fun _ r => r.invokeQuery.status.error).run (Pass.start [r]) 0)
      else none := by
  have hi : 0 < (Pass.start [r]).requests.length := Nat.one_pos
  have hrequest : (Pass.start [r]).request 0 = r := rfl
  rw [testOnce]
  cases hin : r.inactive with
  | true => cases requested <;> rfl
  | false =>
    cases hcomplete : r.complete with
    | false => rfl
    | true =>
      simp only [query_reportOne_eq requested old hi, Pass.request_set hi, hrequest, Pass.deactivate, Pass.free, Pass.set,
        set_set, Effect.run, single, settling, settle_eq, Request.isPersistent_invokeQuery, Bool.false_eq_true,
        if_false, if_true]
      split_ifs <;> simp_all

theorem completes_single_iff {rc : ℤ → Request → ℤ} {requested : Bool} {old : Status} (hi : i < rs.length) :
    Completes rs [i] requested true ((single requested old rc).run (Pass.start rs) i) ↔
      (requested → Agree true { (rs.getD i .null).invokeQuery.status with error := old.error }
        (reported (rs.getD i .null))) ∧
      (rc success (rs.getD i .null) = success ↔ (reported (rs.getD i .null)).error = success) := by
  have h : Completes rs [i] requested true ([i].foldl (single requested old rc).run (Pass.start rs)) ↔ _ :=
    completes_settling_iff (fun _ _ _ => rfl) (nodup_singleton i) (by simpa using hi)
  rw [foldl_cons, foldl_nil] at h
  rw [h]
  cases requested <;> simp

theorem agree_single_iff (old : Status) (r : Request) :
    Agree true { r.invokeQuery.status with error := old.error } (reported r) ↔
      (r.inactive → Agree true r.status statusEmpty) := by
  cases h : r.inactive with
  | true =>
    rw [invokeQuery_of_inactive h, reported, if_pos h]
    rcases hstatus : r.status with ⟨source, tag, error, count, cancelled⟩
    simp only [Agree, statusEmpty, Status.mk.injEq, true_and, true_imp_iff]
    tauto
  | false =>
    rw [reported, h, if_neg Bool.false_ne_true]
    simp [Agree]

theorem rules_wait_iff (requested : Bool) (old : Status) (req : Request) :
    RulesAll [req] [req] true requested true (wait requested old req) ↔
      (req.inactive → req.complete ∧ (requested → Agree true req.status statusEmpty)) := by
  rw [wait_eq]
  cases hcomplete : req.complete with
  | false => simp [RulesAll, hcomplete]
  | true =>
    have hlength : 0 < [req].length := Nat.one_pos
    have hget : [req].getD 0 .null = req := rfl
    simp only [if_true, RulesAll, completes_single_iff hlength, hget, agree_single_iff]
    simp only [hcomplete, mem_singleton, forall_eq, or_true, length_singleton, range_one, true_and,
      and_true]
    exact imp.swap

theorem rules_test (requested : Bool) (old : Status) (progress : ℕ → Request → Request) (request : Request) :
    Rules progress requested (.test request) (some (test requested old progress request)) := by
  have hlength {r : Request} : 0 < [r].length := Nat.one_pos
  have hget {r : Request} : [r].getD 0 .null = r := rfl
  -- the first look, or the one after `opal_progress`, finds a request that is complete
  have hfound {r : Request} {out : Done × Pass} (h : testOnce requested old r = some out) :
      RulesAll [r] [r] false requested true (some out) := by
    rw [testOnce_eq] at h
    cases hin : r.inactive with
    | true =>
      rw [hin, if_pos rfl] at h
      cases h
      refine ⟨by simp [hin], rfl, ⟨?_, ?_, ?_, ?_⟩⟩
      · simp [settle, hin]
      · simp [Request.isGen_of_inactive hin]
      · rintro rfl
        simp [reported, hin, Agree]
      · simp [reported, hin, statusEmpty]
    | false =>
      cases hcomplete : r.complete with
      | false => simp [hin, hcomplete] at h
      | true =>
        rw [hin, hcomplete, if_neg Bool.false_ne_true, if_pos rfl] at h
        cases h
        refine ⟨by simp [hcomplete], rfl, (completes_single_iff hlength).mpr ⟨fun _ => ?_, ?_⟩⟩
        · rw [hget, agree_single_iff]
          simp [hin]
        · rw [hget, reported, hin, if_neg Bool.false_ne_true]
  have hnone {r : Request} : testOnce requested old r = none ↔ (r.inactive || r.complete) = false := by
    rw [testOnce_eq]
    cases r.inactive <;> cases r.complete <;> simp
  simp only [Rules, test]
  rcases hfirst : testOnce requested old request with _ | out
  · rw [hnone] at hfirst
    rw [hfirst, if_neg Bool.false_ne_true]
    rcases hsecond : testOnce requested old (progress 0 request) with _ | out
    · rw [hnone] at hsecond
      simp only [Bool.or_eq_false_iff] at hsecond
      simp [RulesAll, Settled, Pass.start, hsecond]
    · exact hfound hsecond
  · have hready : (request.inactive || request.complete) = true := by
      by_contra hnot
      rw [Bool.not_eq_true, ← hnone (r := request), hfirst] at hnot
      cases hnot
    rw [hready, if_pos rfl]
    exact hfound hfirst

theorem scan_spec (rs : List Request) (i n : ℕ) :
    (∃ j m, scan rs i n = (some (i + j), m) ∧ j < rs.length ∧ (rs.getD j .null).done ∧ m < n + rs.length) ∨
      (scan rs i n = (none, n + rs.countP Request.inactive) ∧ ∀ r ∈ rs, r.done = false) := by
  induction rs generalizing i n with
  | nil => simp [scan]
  | cons r rs ih =>
    rw [scan]
    cases hin : r.inactive with
    | true =>
      rw [if_pos rfl]
      rcases ih (i + 1) (n + 1) with ⟨j, m, hscan, hj, hdone, hm⟩ | ⟨hscan, hnone⟩
      · refine .inl ⟨j + 1, m, ?_, ?_, hdone, ?_⟩
        · rw [hscan, Nat.add_assoc, Nat.add_comm 1]
        · rw [length_cons]
          omega
        · rw [length_cons]
          omega
      · refine .inr ⟨?_, forall_mem_cons.mpr ⟨by simp [Request.done, hin], hnone⟩⟩
        rw [hscan, countP_cons_of_pos hin, Nat.add_assoc, Nat.add_comm 1]
    | false =>
      rw [if_neg Bool.false_ne_true]
      cases hcomplete : r.complete with
      | true =>
        refine .inl ⟨0, n, rfl, ?_, by simp [Request.done, hin, hcomplete], ?_⟩
        · rw [length_cons]
          omega
        · rw [length_cons]
          omega
      | false =>
        rw [if_neg Bool.false_ne_true]
        rcases ih (i + 1) n with ⟨j, m, hscan, hj, hdone, hm⟩ | ⟨hscan, hnone⟩
        · refine .inl ⟨j + 1, m, ?_, ?_, hdone, ?_⟩
          · rw [hscan, Nat.add_assoc, Nat.add_comm 1]
          · rw [length_cons]
            omega
          · rw [length_cons]
            omega
        · refine .inr ⟨?_, forall_mem_cons.mpr ⟨by simp [Request.done, hin, hcomplete], hnone⟩⟩
          rw [hscan, countP_cons_of_neg (by simp [hin])]

theorem start_request (rs : List Request) (i : ℕ) : (Pass.start rs).request i = rs.getD i .null := rfl

theorem not_inactive_of_done {r : Request} (hdone : r.done = true) : r.inactive = false := by
  rw [Request.done, Bool.and_eq_true, Bool.not_eq_true'] at hdone
  exact hdone.1

theorem completes_single_of_done {rc : ℤ → Request → ℤ} (requested : Bool) (old : Status) (hi : i < rs.length)
    (hdone : (rs.getD i .null).done) :
    Completes rs [i] requested true ((single requested old rc).run (Pass.start rs) i) ↔
      (rc success (rs.getD i .null) = success ↔ (reported (rs.getD i .null)).error = success) := by
  rw [completes_single_iff hi, agree_single_iff]
  have hactive := not_inactive_of_done hdone
  simp only [hactive, Bool.false_eq_true, false_imp_iff, implies_true, true_and]

theorem rules_waitAny (requested : Bool) (old : Status) (rs : List Request) :
    RulesAny rs rs true requested (waitAny requested old rs) := by
  rw [waitAny]
  rcases scan_spec rs 0 0 with ⟨i, m, hscan, hi, hdone, hm⟩ | ⟨hscan, hnone⟩
  · rw [Nat.zero_add] at hscan hm
    have hlength : i < (Pass.start rs).requests.length := hi
    have hactive := not_inactive_of_done hdone
    have hrun : ∀ p, p = (single requested old fun _ r => r.invokeQuery.status.error).run (Pass.start rs) i →
        RulesAny rs rs true requested (some (.places [i], p)) := by
      rintro p rfl
      refine ⟨i, rfl, hdone, (completes_single_of_done requested old hi hdone).mpr ?_⟩
      rw [reported, hactive, if_neg Bool.false_ne_true]
    simp only [hscan, Nat.ne_of_lt hm, if_false, Option.map_some, query_reportOne_eq requested old hlength,
      Pass.request_set hlength, Pass.deactivate, Pass.free, Pass.set, set_set, Request.isPersistent_invokeQuery]
    split_ifs with hpersistent herror
    all_goals
      refine hrun _ ?_
      simp_all [Effect.run, single, settling, settle_eq]
  · rw [Nat.zero_add] at hscan
    by_cases hall : ∀ r ∈ rs, r.inactive
    · have hcount : rs.countP Request.inactive = rs.length := countP_eq_length.mpr hall
      simp only [hscan, hcount, if_true]
      refine ⟨hall, ?_, ?_⟩
      · cases requested <;> exact ⟨rfl, rfl, rfl⟩
      · rintro rfl
        rfl
    · have hcount : rs.countP Request.inactive ≠ rs.length := fun h => hall (countP_eq_length.mp h)
      simp only [hscan, hcount, if_false, Option.map_none]
      exact ⟨rfl, by simpa using hall, hnone⟩

theorem rules_testAny_iff (requested : Bool) (old : Status) (progress : ℕ → Request → Request) (rs : List Request) :
    RulesAny rs (rs.mapIdx progress) false requested (some (testAny requested old progress rs)) ↔
      ∀ i, (scan rs 0 0).1 = some i → (rs.getD i .null).isPersistent → (rs.getD i .null).status.error = success := by
  rw [testAny]
  rcases scan_spec rs 0 0 with ⟨i, m, hscan, hi, hdone, hm⟩ | ⟨hscan, hnone⟩
  · rw [Nat.zero_add] at hscan hm
    have hlength : i < (Pass.start rs).requests.length := hi
    have hactive := not_inactive_of_done hdone
    have hrun : ∀ p, p = (single requested old fun _ r => if r.isPersistent then success
        else r.invokeQuery.status.error).run (Pass.start rs) i →
        (RulesAny rs (rs.mapIdx progress) false requested (some (.places [i], p)) ↔
          ((rs.getD i .null).isPersistent → (rs.getD i .null).status.error = success)) := by
      rintro p rfl
      simp only [RulesAny, List.cons.injEq, and_true, exists_eq_left']
      rw [and_iff_right hdone, completes_single_of_done requested old hi hdone, reported, hactive,
        if_neg Bool.false_ne_true]
      cases hpersistent : (rs.getD i .null).isPersistent with
      | true =>
        rw [Request.invokeQuery_of_not_isGen (Request.isGen_of_isPersistent hpersistent), if_pos rfl]
        simp
      | false => simp
    simp only [hscan, Option.some.injEq, forall_eq', query_reportOne_eq requested old hlength, Pass.request_set hlength,
      Pass.deactivate, Pass.free, Pass.set, set_set, Request.isPersistent_invokeQuery]
    split_ifs with hpersistent herror
    all_goals
      refine hrun _ ?_
      simp_all [Effect.run, single, settling, settle_eq, start_request]
  · rw [Nat.zero_add] at hscan
    simp only [hscan, reduceCtorEq, false_imp_iff, implies_true, iff_true]
    by_cases hall : ∀ r ∈ rs, r.inactive
    · have hcount : rs.countP Request.inactive = rs.length := countP_eq_length.mpr hall
      simp only [hcount, ne_eq, not_true, if_false]
      refine ⟨hall, ?_, ?_⟩
      · cases requested <;> exact ⟨rfl, rfl, rfl⟩
      · rintro rfl
        rfl
    · have hcount : rs.countP Request.inactive ≠ rs.length := fun h => hall (countP_eq_length.mp h)
      simp only [hcount, ne_eq, not_false_eq_true, if_true]
      exact ⟨Bool.false_ne_true, by simpa using hall, hnone, rfl, rfl, rfl⟩

theorem compress_eq (indices : List ℕ) :
    (compress indices).1.take (compress indices).2 =
      (range indices.length).filter fun i => indices.getD i 0 ≠ 0 := by
  have hinvariant : ∀ k ≤ indices.length,
      let s := (range k).foldl (fun (s : List ℕ × ℕ) i =>
        if s.1.getD i 0 ≠ 0 then (s.1.set s.2 i, s.2 + 1) else (s.1, s.2)) (indices, 0)
      s.1.take s.2 = (range k).filter (fun i => indices.getD i 0 ≠ 0) ∧ s.2 ≤ k ∧
        s.1.length = indices.length ∧ ∀ j, k ≤ j → s.1[j]? = indices[j]? := by
    intro k hk
    induction k with
    | zero => simp
    | succ k ih =>
      obtain ⟨htake, hle, hlength, hrest⟩ := ih (by omega)
      rw [range_succ, foldl_append, filter_append, foldl_cons, foldl_nil, filter_singleton]
      generalize (range k).foldl (fun (s : List ℕ × ℕ) i =>
        if s.1.getD i 0 ≠ 0 then (s.1.set s.2 i, s.2 + 1) else (s.1, s.2)) (indices, 0) = s at *
      have hentry : s.1.getD k 0 = indices.getD k 0 := by
        rw [getD_eq_getElem?_getD, getD_eq_getElem?_getD, hrest k (Nat.le_refl _)]
      rw [hentry]
      by_cases hzero : indices.getD k 0 = 0
      · simp only [hzero, ne_eq, not_true, if_false, decide_false, cond_false, append_nil]
        exact ⟨htake, by omega, hlength, fun j hj => hrest j (by omega)⟩
      · simp only [hzero, ne_eq, not_false_eq_true, if_true, decide_true, cond_true]
        refine ⟨?_, by omega, by rw [length_set, hlength], fun j hj => ?_⟩
        · rw [take_add_one, take_set_of_le (Nat.le_refl _), htake, getElem?_set_self (by omega)]
          rfl
        · rw [getElem?_set_ne (by omega), hrest j (by omega)]
  have hend := hinvariant indices.length (Nat.le_refl _)
  exact hend.1

theorem countP_done_pos_iff : rs.countP Request.done > 0 ↔ ∃ r ∈ rs, r.done := countP_pos_iff

theorem exists_active_iff : rs.countP Request.inactive ≠ rs.length ↔ ∃ r ∈ rs, ¬r.inactive := by
  rw [ne_eq, countP_eq_length]
  simp

def donePlaces (rs : List Request) : List ℕ := (List.range rs.length).filter fun i => (rs.getD i .null).done

theorem mem_donePlaces : i ∈ donePlaces rs ↔ i < rs.length ∧ (rs.getD i .null).done := by
  rw [donePlaces, mem_filter, mem_range]

theorem nodup_donePlaces (rs : List Request) : (donePlaces rs).Nodup := List.Nodup.filter _ nodup_range

theorem forall_donePlaces_iff {P : Request → Prop} :
    (∀ i ∈ donePlaces rs, P (rs.getD i .null)) ↔ ∀ r ∈ rs, r.done → P r := by
  rw [← forall_range_iff (P := fun r => r.done → P r)]
  simp only [donePlaces, mem_filter, and_imp]

theorem donePlaces_eq_nil_iff : donePlaces rs = [] ↔ ∀ r ∈ rs, r.done = false := by
  rw [eq_nil_iff_forall_not_mem]
  refine (forall_donePlaces_iff (P := fun _ => False)).trans (forall₂_congr fun r _ => ?_)
  rw [imp_false, Bool.not_eq_true]

theorem compress_done (rs : List Request) :
    let (indices, n) := compress (rs.map fun r => if r.done then 1 else 0)
    indices.take n = donePlaces rs := by
  have h := compress_eq (rs.map fun r => if r.done then 1 else 0)
  simp only [h, donePlaces, length_map]
  refine filter_congr fun i hi => ?_
  rw [getD_eq_getElem?_getD, getElem?_map, getD_eq_getElem?_getD,
    getElem?_eq_getElem (mem_range.mp hi), Option.map_some, Option.getD_some, Option.getD_some]
  split <;> simp_all

theorem active_of_done {r : Request} (h : r.done) : r.inactive = false := by
  rw [Request.done, Bool.and_eq_true, Bool.not_eq_true'] at h
  exact h.1

theorem completes_some {body : Pass → ℕ → Pass} (requested : Bool)
    (hbody : ∀ p i, i < p.requests.length → body p i = (settling (fun r => if requested then [r.invokeQuery.status] else [])
      fun rc r => if r.invokeQuery.status.error ≠ success then errInStatus else rc).run p i) :
    Completes rs (donePlaces rs) requested false ((donePlaces rs).foldl body (Pass.start rs)) := by
  have hreported : ∀ i ∈ donePlaces rs, reported (rs.getD i .null) = (rs.getD i .null).invokeQuery.status := by
    intro i hi
    rw [reported, active_of_done (mem_donePlaces.mp hi).2, if_neg Bool.false_ne_true]
  rw [completes_settling_iff hbody (nodup_donePlaces rs) fun i hi => (mem_donePlaces.mp hi).1]
  constructor
  · rintro rfl
    simp only [if_true]
    rw [forall₂_agree_iff]
    exact fun i hi => .inl (hreported i hi).symm
  · rw [foldl_rc_iff fun _ _ => by decide, and_iff_right rfl]
    refine forall₂_congr fun i hi => ?_
    rw [hreported i hi, not_not]

theorem rules_waitSome (requested : Bool) (rs : List Request) :
    RulesSome rs rs true requested (waitSome requested rs) := by
  rw [waitSome]
  by_cases hall : rs.countP Request.inactive = rs.length
  · rw [if_pos hall]
    exact ⟨countP_eq_length.mp hall, rfl, rfl, rfl⟩
  · rw [if_neg hall]
    by_cases hdone : rs.countP Request.done > 0
    · have hplaces := compress_done rs
      simp only [hdone, if_true, hplaces]
      exact ⟨countP_done_pos_iff.mp hdone, rfl, completes_some requested fun _ _ hi => waitSomeOne_eq requested hi⟩
    · rw [if_neg hdone]
      refine ⟨rfl, exists_active_iff.mp hall, fun r hr => ?_⟩
      rw [countP_done_pos_iff] at hdone
      exact Bool.eq_false_iff.mpr fun h => hdone ⟨r, hr, h⟩

/-- The loop of `ompi_request_default_test_some` where the statuses are ignored. -/
def unqueried : Effect where
  slot r := if r.isPersistent then r.deactivate else if r.status.error = success then .null else r
  queried _ := false
  statuses _ := []
  rc rc r := if r.status.error ≠ success then errInStatus else rc

theorem testSomeOne_false_eq (hi : i < p.requests.length) : testSomeOne false p i = unqueried.run p i := by
  have hsame : p.requests.set i (p.request i) = p.requests := congrArg Pass.requests (Pass.set_request hi)
  by_cases herror : (p.request i).status.error = success
  · simp only [testSomeOne, Bool.false_eq_true, if_false, herror, ne_eq, not_true, Pass.deactivate, Pass.free, Pass.set,
      unqueried, Effect.run]
    split_ifs <;> simp
  · have hrequest : ∀ c, ({ p with rc := c } : Pass).request i = p.request i := fun _ => rfl
    simp only [testSomeOne, Bool.false_eq_true, if_false, herror, ne_eq, not_false_eq_true, if_true, Pass.deactivate,
      Pass.free, Pass.set, hrequest, unqueried, Effect.run]
    split_ifs <;> simp [hsame]

theorem rules_testSome_iff (requested : Bool) (progress : ℕ → Request → Request) (rs : List Request) :
    RulesSome rs (rs.mapIdx progress) false requested (some (testSome requested progress rs)) ↔
      (requested ∨ ∀ r ∈ rs, r.done → r.isGen = false) := by
  rw [testSome]
  have hplaces : (range rs.length).filter (fun i => ((Pass.start rs).request i).done) =
    donePlaces rs := rfl
  by_cases hall : rs.countP Request.inactive = rs.length
  · have hinactive := countP_eq_length.mp hall
    rw [if_pos hall]
    refine iff_of_true ⟨hinactive, rfl, rfl, rfl⟩ (.inr fun r hr _ => Request.isGen_of_inactive (hinactive r hr))
  · rw [if_neg hall]
    by_cases hnone : ∀ r ∈ rs, r.done = false
    · rw [hplaces, donePlaces_eq_nil_iff.mpr hnone, if_pos length_nil]
      refine iff_of_true ⟨Bool.false_ne_true, exists_active_iff.mp hall, hnone, rfl, rfl, rfl⟩ (.inr fun r hr hdone => ?_)
      rw [hnone r hr] at hdone
      cases hdone
    · have hsome : (donePlaces rs).length ≠ 0 := fun h =>
        hnone (donePlaces_eq_nil_iff.mp (length_eq_zero_iff.mp h))
      have hdone : ∃ r ∈ rs, r.done := by
        by_contra hnot
        exact hnone fun r hr => Bool.eq_false_iff.mpr fun h => hnot ⟨r, hr, h⟩
      rw [hplaces, if_neg hsome]
      have hrules : ∀ q, RulesSome rs (rs.mapIdx progress) false requested (some (.places (donePlaces rs), q)) ↔
          Completes rs (donePlaces rs) requested false q := fun q => by
        rw [RulesSome, and_iff_right hdone]
        exact and_iff_right rfl
      rw [hrules]
      cases requested with
      | true => exact iff_of_true (completes_some true fun _ _ hi => waitSomeOne_eq true hi) (.inl rfl)
      | false =>
        rw [Effect.foldl_run unqueried (fun _ _ hi => testSomeOne_false_eq hi) (nodup_donePlaces rs) fun i hi =>
          (mem_donePlaces.mp hi).1, or_iff_right Bool.false_ne_true]
        constructor
        · -- no query function is called
          rintro ⟨-, hqueried, -, -⟩
          have hfalse : (donePlaces rs).filter (fun i => (rs.getD i .null).isGen) = [] := by
            rw [← hqueried]
            simp [unqueried, Pass.start]
          rw [← forall_donePlaces_iff (P := fun r => r.isGen = false)]
          intro i hi
          exact Bool.eq_false_iff.mpr (filter_eq_nil_iff.mp hfalse i hi)
        · intro hgen
          have hgen' := forall_donePlaces_iff (P := fun r => r.isGen = false).mpr hgen
          have hquery : ∀ i ∈ donePlaces rs, (rs.getD i .null).invokeQuery = rs.getD i .null := fun i hi =>
            Request.invokeQuery_of_not_isGen (hgen' i hi)
          have hreported : ∀ i ∈ donePlaces rs, reported (rs.getD i .null) = (rs.getD i .null).status := by
            intro i hi
            rw [reported, active_of_done (mem_donePlaces.mp hi).2, if_neg Bool.false_ne_true, hquery i hi]
          refine ⟨?_, ?_, fun h => absurd h Bool.false_ne_true, ?_⟩
          · refine ext_getElem? fun i => ?_
            rw [getElem?_mapIdx, getElem?_mapIdx]
            by_cases hi : i ∈ donePlaces rs
            · have hlt := (mem_donePlaces.mp hi).1
              have hq := hquery i hi
              rw [getD_eq_getElem?_getD, getElem?_eq_getElem hlt, Option.getD_some] at hq
              simp only [Pass.start, getElem?_eq_getElem hlt, hi, if_true, Option.map_some, unqueried, settle_eq, hq]
            · simp [Pass.start, hi]
          · rw [filter_eq_nil_iff.mpr fun i hi => Bool.eq_false_iff.mp (hgen' i hi)]
            simp [unqueried, Pass.start]
          · simp only [unqueried, start_request]
            rw [foldl_rc_iff fun _ _ => by decide]
            refine (and_iff_right rfl).trans (forall₂_congr fun i hi => ?_)
            rw [hreported i hi, not_not]

theorem rules_run_iff (requested : Bool) (old : Status) (progress : ℕ → Request → Request) (call : Call) :
    Rules progress requested call (run requested old progress call) ↔ Keeps requested call := by
  cases call with
  | wait req => exact rules_wait_iff requested old req
  | test request => exact iff_of_true (rules_test requested old progress request) trivial
  | waitAny rs => exact iff_of_true (rules_waitAny requested old rs) trivial
  | testAny rs => exact rules_testAny_iff requested old progress rs
  | waitAll rs => exact rules_waitAll_iff requested rs
  | testAll rs => exact rules_testAll_iff requested progress rs
  | waitSome rs => exact iff_of_true (rules_waitSome requested rs) trivial
  | testSome rs => exact rules_testSome_iff requested progress rs

/-- A persistent request with an error in its status: `MPI_Testany` does not return it. -/
theorem not_rules_testAny : ¬∀ (requested : Bool) (old : Status) (progress : ℕ → Request → Request) (call : Call),
    Rules progress requested call (run requested old progress call) := by
  intro hall
  obtain ⟨i, hi, -, hcompletes⟩ := hall true statusEmpty (fun _ r => r)
    (.testAny [.persistent true true { statusEmpty with error := 15 }])
  obtain ⟨rfl, -⟩ := List.cons.inj hi
  exact absurd (hcompletes.rc.mp rfl 0 mem_cons_self) (by decide)

end OpenMPI.Completion
