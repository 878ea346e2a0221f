import OpenMPI.Proofs.Bml.R2

/-!
# Runs of the BML

Every endpoint is right and every progress function is registered while it is in use (`Inv`), as long as no call
reaches a defect.  A call of `addProcs` tries one BTL after another (`Trying`).
-/

namespace OpenMPI.Bml

open Btl Lib List

variable {B P E F : Type*} [DecidableEq B] [DecidableEq P] [DecidableEq F] {z : Host B P F}

omit [DecidableEq B] [DecidableEq P] in
theorem perm_erase_of_set_dropLast {l : List F} (hnodup : l.Nodup) {a : F} (ha : a ∈ l) :
    (l.set (l.idxOf a) (l.getLastD a)).dropLast.Perm (l.erase a) := by
  induction l using List.reverseRecOn with
  | nil => cases ha
  | append_singleton l last =>
    have hlast : last ∉ l := fun hmem => (nodup_append.mp hnodup).2.2 last hmem last (by simp) rfl
    rw [getLastD_concat]
    by_cases hmem : a ∈ l
    · have hlt : l.idxOf a < l.length := idxOf_lt_length_of_mem hmem
      rw [idxOf_append_of_mem hmem, set_append_left _ _ hlt, dropLast_concat,
        erase_append_left _ hmem, erase_eq_eraseIdx_of_idxOf rfl]
      exact (set_perm_cons_eraseIdx hlt last).trans (perm_append_singleton last _).symm
    · obtain rfl : a = last := by simpa [hmem] using ha
      rw [idxOf_append_of_notMem hmem, erase_append_right _ hmem]
      simp

omit [DecidableEq B] [DecidableEq P] [DecidableEq F] in
theorem nodup_concat {l : List F} (hnodup : l.Nodup) {a : F} (ha : a ∉ l) : (l ++ [a]).Nodup :=
  (perm_append_singleton a l).nodup_iff.mpr (nodup_cons.mpr ⟨ha, hnodup⟩)

namespace R2

variable {s : R2 B P E F} {b : B} {f : F}

structure Registry (s : R2 B P E F) : Prop where
  nodup : s.btlProgress.Nodup
  nodup_callbacks : s.callbacks.Nodup
  mem_iff : ∀ f, f ∈ s.btlProgress ↔ f ∈ s.callbacks

omit [DecidableEq B] [DecidableEq P] in
theorem Registry.register (h : s.Registry) (b : B) : (s.registerProgress z b).Registry ∧
    ∀ f, f ∈ (s.registerProgress z b).callbacks ↔ f ∈ s.callbacks ∨ (z.btl b).progress = some f := by
  rw [registerProgress]
  cases hprogress : (z.btl b).progress with
  | none => exact ⟨h, by simp⟩
  | some f =>
    dsimp only
    by_cases hf : f ∈ s.btlProgress
    · rw [if_pos hf]
      refine ⟨h, fun g => ⟨.inl, ?_⟩⟩
      rintro (hg | hg)
      · exact hg
      · exact Option.some.inj hg ▸ (h.mem_iff f).mp hf
    · rw [if_neg hf]
      have hf' : f ∉ s.callbacks := mt (h.mem_iff f).mpr hf
      refine ⟨⟨?_, ?_, fun g => ?_⟩, fun g => ?_⟩
      · exact nodup_concat h.nodup hf
      · exact nodup_concat h.nodup_callbacks hf'
      · simp [h.mem_iff]
      · simp [eq_comm]

omit [DecidableEq B] [DecidableEq P] in
theorem Registry.remove (h : s.Registry) (b : B) : (s.removeBtlProgress z b).Registry ∧
    ∀ f, f ∈ (s.removeBtlProgress z b).callbacks ↔ f ∈ s.callbacks ∧ (z.btl b).progress ≠ some f := by
  rw [removeBtlProgress]
  cases hprogress : (z.btl b).progress with
  | none => exact ⟨h, by simp⟩
  | some f =>
    dsimp only
    by_cases hf : f ∈ s.btlProgress
    · rw [if_pos hf]
      have hperm := perm_erase_of_set_dropLast h.nodup hf
      refine ⟨⟨hperm.nodup_iff.mpr (h.nodup.erase f), h.nodup_callbacks.erase f, fun g => ?_⟩, fun g => ?_⟩
      · rw [hperm.mem_iff, h.nodup.mem_erase_iff, h.nodup_callbacks.mem_erase_iff, h.mem_iff]
      · rw [h.nodup_callbacks.mem_erase_iff, and_comm]
        simp [eq_comm]
    · rw [if_neg hf]
      refine ⟨h, fun g => ⟨fun hg => ⟨hg, ?_⟩, And.left⟩⟩
      rintro heq
      exact hf ((h.mem_iff f).mpr (Option.some.inj heq ▸ hg))

end R2

section Loop

variable {n k : ℕ} {btl b : B} {reachable : P → Option E} {newProcs : List P} {bml : P → Option (Endpoint B E)} {p : P}

def Host.tried (z : Host B P F) (n : ℕ) (btl : B) (endpoint : Option E) (o : Option (Endpoint B E)) :
    Option (Endpoint B E) :=
  match endpoint with
  | none => o
  | some endpoint => some (z.offer (o.getD (Host.newEndpoint n)) btl endpoint).1

def Host.Uses (z : Host B P F) (n : ℕ) (btl : B) (endpoint : Option E) (o : Option (Endpoint B E)) : Prop :=
  ∃ e, endpoint = some e ∧ (z.offer (o.getD (Host.newEndpoint n)) btl e).2 = true

omit [DecidableEq B] [DecidableEq F] in
theorem reachLoop_spec (z : Host B P F) (n : ℕ) (btl : B) (reachable : P → Option E) (hnodup : newProcs.Nodup)
    (bml : P → Option (Endpoint B E)) (k : ℕ) :
    (∀ p, (z.reachLoop n btl reachable newProcs (bml, k)).1 p =
      if p ∈ newProcs then z.tried n btl (reachable p) (bml p) else bml p) ∧
    (0 < (z.reachLoop n btl reachable newProcs (bml, k)).2 ↔
      0 < k ∨ ∃ p ∈ newProcs, z.Uses n btl (reachable p) (bml p)) := by
  induction newProcs generalizing bml k with
  | nil => simp [Host.reachLoop]
  | cons p newProcs ih =>
    obtain ⟨hp, hnodup⟩ := nodup_cons.mp hnodup
    rw [Host.reachLoop]
    cases hreach : reachable p with
    | none =>
      obtain ⟨hbml, hinuse⟩ := ih hnodup bml k
      refine ⟨fun q => ?_, ?_⟩
      · rw [hbml]
        by_cases hq : q = p
        · subst hq
          simp [hp, Host.tried, hreach]
        · simp [hq]
      · rw [hinuse]
        simp [Host.Uses, hreach]
    | some endpoint =>
      dsimp only
      obtain ⟨hbml, hinuse⟩ := ih hnodup (Function.update bml p
        (some (z.offer ((bml p).getD (Host.newEndpoint n)) btl endpoint).1))
        (if (z.offer ((bml p).getD (Host.newEndpoint n)) btl endpoint).2 then k + 1 else k)
      refine ⟨fun q => ?_, ?_⟩
      · rw [hbml]
        by_cases hq : q = p
        · subst hq
          simp [hp, Host.tried, hreach]
        · simp [hq]
      · have hother : ∀ q ∈ newProcs, Function.update bml p
            (some (z.offer ((bml p).getD (Host.newEndpoint n)) btl endpoint).1) q = bml q := fun q hq =>
          Function.update_of_ne (fun heq : q = p => hp (heq ▸ hq)) _ _
        rw [hinuse, exists_mem_cons_iff]
        have huses : z.Uses n btl (reachable p) (bml p) ↔
            (z.offer ((bml p).getD (Host.newEndpoint n)) btl endpoint).2 = true := by
          simp [Host.Uses, hreach]
        rw [huses, ← or_assoc]
        refine or_congr ?_ ?_
        · split_ifs with hused <;> simp [hused]
        · refine exists_congr fun q => and_congr_right fun hq => ?_
          rw [hother q hq]

end Loop

structure R2.Inv (z : Host B P F) (s : R2 B P E F) (reached : P → B → Option E) : Prop where
  live : s.initialized.Nodup
  registry : s.Registry
  notAdded : s.btlsAdded = false → s.callbacks = [] ∧ ∀ p, s.bml p = none
  modules : s.btlsAdded = true → s.btlModules.Nodup ∧ (∀ b, b ∈ s.btlModules ↔ b ∈ s.initialized) ∧
    s.btlModules.Pairwise fun b b' => (z.btl b').exclusivity ≤ (z.btl b).exclusivity
  distinct : s.procs.Nodup
  procs : ∀ p, s.bml p ≠ none → p ∈ s.procs
  endpoints : ∀ p ep, s.bml p = some ep → ep.Right z s.initialized (reached p) p ∧ z.Uniform ep.send.items
  unreached : ∀ p ∈ s.procs, s.bml p = none → ∀ b, reached p b = none
  progress : ∀ f, f ∈ s.callbacks ↔ ∃ b, s.InUse b ∧ (z.btl b).progress = some f

structure Trying (z : Host B P F) (s₀ : R2 B P E F) (newProcs : List P) (reached : P → B → Option E) (tried : List B)
    (s : R2 B P E F) : Prop where
  same : s = { s₀ with bml := s.bml, btlProgress := s.btlProgress, callbacks := s.callbacks }
  others : ∀ p, p ∉ newProcs → s.bml p = s₀.bml p
  taken : ∀ p ∈ newProcs, TakenBy z tried (reached p) (s.bml p)
  registry : s.Registry
  progress : ∀ f, f ∈ s.callbacks ↔ ∃ b, s.InUse b ∧ (z.btl b).progress = some f

section Trying

variable {s₀ s : R2 B P E F} {newProcs : List P} {reached : P → B → Option E} {tried : List B} {b btl : B} {n : ℕ}
  {o : Option (Endpoint B E)} {endpoint : Option E}

omit [DecidableEq B] [DecidableEq P] [DecidableEq F]

theorem inUse_iff : s.InUse b ↔ ∃ p ep, s.bml p = some ep ∧ b ∈ ep.send.items.map BmlBtl.btl := Iff.rfl

theorem mem_tried : (∃ ep, z.tried n btl endpoint o = some ep ∧ b ∈ ep.send.items.map BmlBtl.btl) ↔
    (∃ ep, o = some ep ∧ b ∈ ep.send.items.map BmlBtl.btl) ∨ b = btl ∧ z.Uses n btl endpoint o := by
  cases endpoint with
  | none => simp [Host.tried, Host.Uses]
  | some endpoint =>
    simp only [Host.tried, Option.some.injEq, exists_eq_left', Host.Uses]
    rw [mem_offer]
    refine or_congr_left ?_
    cases o with
    | none => simp [Host.newEndpoint, BtlArray.reserve]
    | some ep => simp

theorem TakenBy.next {p : P} (h : TakenBy z tried (reached p) o) (hnew : btl ∉ tried)
    (hle : ∀ b ∈ tried, (z.btl btl).exclusivity ≤ (z.btl b).exclusivity) :
    TakenBy z (tried ++ [btl]) (reached p) (z.tried n btl (reached p btl) o) := by
  cases hreached : reached p btl with
  | none => exact h.skip hreached
  | some endpoint =>
    cases o with
    | none => exact offer_first h hreached n
    | some ep => exact Taken.offer h hreached hnew hle

end Trying

section Trying

variable {s₀ s : R2 B P E F} {newProcs : List P} {reached : P → B → Option E} {tried : List B} {b btl : B} {n : ℕ}
  {answer : R2.Answer B P E}

omit [DecidableEq B] in
theorem Trying.addBtl (h : Trying z s₀ newProcs reached tried s) (hnodup : newProcs.Nodup) (hnew : btl ∉ tried)
    (hle : ∀ b ∈ tried, (z.btl btl).exclusivity ≤ (z.btl b).exclusivity)
    (hreached : ∀ p ∈ newProcs, reached p btl = (answer btl).bind (· p)) :
    Trying z s₀ newProcs reached (tried ++ [btl]) (s.addBtl z answer newProcs btl) := by
  rw [R2.addBtl]
  cases hanswer : answer btl with
  | none =>
    refine ⟨h.same, h.others, fun p hp => (h.taken p hp).skip ?_, h.registry, h.progress⟩
    rw [hreached p hp, hanswer]
    rfl
  | some reachable =>
    have hreached' : ∀ p ∈ newProcs, reachable p = reached p btl := fun p hp => by
      rw [hreached p hp, hanswer]
      rfl
    dsimp only
    obtain ⟨hbml, hinuse⟩ := reachLoop_spec z s.btlModules.length btl reachable hnodup s.bml 0
    generalize z.reachLoop s.btlModules.length btl reachable newProcs (s.bml, 0) = r at hbml hinuse
    have huse (b : B) : ({ s with bml := r.1 } : R2 B P E F).InUse b ↔ s.InUse b ∨ b = btl ∧ r.2 > 0 := by
      have hpos : r.2 > 0 ↔ ∃ p ∈ newProcs, z.Uses s.btlModules.length btl (reachable p) (s.bml p) := by
        rw [gt_iff_lt, hinuse]
        simp
      rw [hpos]
      constructor
      · rintro ⟨p, ep, hp, hb⟩
        dsimp only at hp
        rw [hbml] at hp
        split_ifs at hp with hmem
        · rcases mem_tried.mp ⟨ep, hp, hb⟩ with ⟨ep', hp', hb'⟩ | ⟨rfl, huses⟩
          · exact .inl ⟨p, ep', hp', hb'⟩
          · exact .inr ⟨rfl, p, hmem, huses⟩
        · exact .inl ⟨p, ep, hp, hb⟩
      · have htried {p : P} (hmem : p ∈ newProcs) (h : (∃ ep, s.bml p = some ep ∧ b ∈ ep.send.items.map BmlBtl.btl) ∨
            b = btl ∧ z.Uses s.btlModules.length btl (reachable p) (s.bml p)) :
            ({ s with bml := r.1 } : R2 B P E F).InUse b := by
          obtain ⟨ep, hp, hb⟩ := mem_tried.mpr h
          exact ⟨p, ep, by dsimp only; rw [hbml, if_pos hmem, hp], hb⟩
        rintro (⟨p, ep, hp, hb⟩ | ⟨rfl, p, hmem, huses⟩)
        · by_cases hmem : p ∈ newProcs
          · exact htried hmem (.inl ⟨ep, hp, hb⟩)
          · exact ⟨p, ep, by dsimp only; rw [hbml, if_neg hmem, hp], hb⟩
        · exact htried hmem (.inr ⟨rfl, huses⟩)
    have hothers : ∀ p, p ∉ newProcs → r.1 p = s₀.bml p := fun p hp => by
      rw [hbml, if_neg hp, h.others p hp]
    have htaken : ∀ p ∈ newProcs, TakenBy z (tried ++ [btl]) (reached p) (r.1 p) := fun p hp => by
      rw [hbml, if_pos hp, hreached' p hp]
      exact (h.taken p hp).next hnew hle
    have hregistry : ({ s with bml := r.1 } : R2 B P E F).Registry :=
      ⟨h.registry.nodup, h.registry.nodup_callbacks, h.registry.mem_iff⟩
    have hsame : ({ s with bml := r.1 } : R2 B P E F) =
        { s₀ with bml := r.1, btlProgress := s.btlProgress, callbacks := s.callbacks } := by
      rw [h.same]
    by_cases hpos : r.2 > 0
    · rw [if_pos hpos]
      obtain ⟨hregistry', hcallbacks⟩ := hregistry.register (z := z) btl
      have hbml' : (({ s with bml := r.1 } : R2 B P E F).registerProgress z btl).bml = r.1 := by
        rw [R2.registerProgress]
        cases (z.btl btl).progress with
        | none => rfl
        | some f =>
          dsimp only
          split_ifs <;> rfl
      have huse' (b : B) : (({ s with bml := r.1 } : R2 B P E F).registerProgress z btl).InUse b ↔
          s.InUse b ∨ b = btl := by
        rw [inUse_iff, hbml', ← and_true (b = btl), ← iff_true_intro hpos]
        exact huse b
      refine ⟨?_, ?_, ?_, hregistry', fun f => ?_⟩
      · rw [R2.registerProgress]
        cases (z.btl btl).progress with
        | none => exact hsame
        | some f =>
          dsimp only
          split_ifs
          · exact hsame
          · rw [h.same]
      · rw [hbml']
        exact hothers
      · rw [hbml']
        exact htaken
      · rw [hcallbacks]
        simp only [huse', or_and_right, exists_or]
        exact or_congr (h.progress f) (by simp)
    · rw [if_neg hpos]
      refine ⟨hsame, hothers, htaken, hregistry, fun f => ?_⟩
      simp only [huse, hpos, and_false, or_false]
      exact h.progress f

omit [DecidableEq B] in
theorem Trying.foldl (hnodup : newProcs.Nodup) (rest : List B) (h : Trying z s₀ newProcs reached tried s)
    (hmodules : (tried ++ rest).Nodup)
    (hsorted : (tried ++ rest).Pairwise fun b b' => (z.btl b').exclusivity ≤ (z.btl b).exclusivity)
    (hreached : ∀ b ∈ rest, ∀ p ∈ newProcs, reached p b = (answer b).bind (· p)) :
    Trying z s₀ newProcs reached (tried ++ rest) (rest.foldl (R2.addBtl z answer newProcs) s) := by
  induction rest generalizing tried s with
  | nil => simpa using h
  | cons btl rest ih =>
    have hnew : btl ∉ tried := fun hmem => (nodup_append.mp hmodules).2.2 btl hmem btl mem_cons_self rfl
    have hle : ∀ b ∈ tried, (z.btl btl).exclusivity ≤ (z.btl b).exclusivity := fun b hb =>
      (pairwise_append.mp hsorted).2.2 b hb btl mem_cons_self
    have hstep := h.addBtl hnodup hnew hle fun p hp => hreached btl mem_cons_self p hp
    rw [append_cons] at hmodules hsorted ⊢
    exact ih hstep hmodules hsorted fun b hb => hreached b (mem_cons_of_mem _ hb)

end Trying


section Calls

variable {s : R2 B P E F} {reached : P → B → Option E} {b : B}

omit [DecidableEq B] [DecidableEq F] in
theorem R2.Inv.retain (h : s.Inv z reached) (procs : List P) : (s.retain procs).Inv z reached :=
  ⟨h.live, ⟨h.registry.nodup, h.registry.nodup_callbacks, h.registry.mem_iff⟩, h.notAdded, h.modules, h.distinct,
    h.procs, h.endpoints, h.unreached, h.progress⟩

omit [DecidableEq B] [DecidableEq F] [DecidableEq P] in
theorem R2.Inv.addBtls (h : s.Inv z reached) :
    (s.addBtls z).Inv z reached ∧ (s.addBtls z).btlsAdded = true ∧ (s.addBtls z).bml = s.bml ∧
      (s.addBtls z).procs = s.procs ∧ (s.addBtls z).initialized = s.initialized := by
  rw [R2.addBtls]
  by_cases hadded : s.btlsAdded = true
  · rw [if_pos hadded]
    exact ⟨h, hadded, rfl, rfl, rfl⟩
  · rw [if_neg hadded]
    obtain ⟨hcallbacks, hbml⟩ := h.notAdded (by simpa using hadded)
    have hperm : (s.initialized.mergeSort fun b1 b2 => (z.btl b2).exclusivity ≤ (z.btl b1).exclusivity).Perm
        s.initialized := mergeSort_perm _ _
    refine ⟨⟨h.live, ⟨nodup_nil, h.registry.nodup_callbacks, by simp [hcallbacks]⟩, fun hfalse => absurd hfalse (by simp),
      fun _ => ⟨hperm.nodup_iff.mpr h.live, fun b => hperm.mem_iff, ?_⟩, h.distinct, h.procs, h.endpoints, h.unreached,
      h.progress⟩, rfl, rfl, rfl, rfl⟩
    have hsorted := @pairwise_mergeSort B
      (fun b1 b2 : B => decide ((z.btl b2).exclusivity ≤ (z.btl b1).exclusivity))
      (by simp only [decide_eq_true_eq]; intro a b c hab hbc; exact hbc.trans hab)
      (by simp only [Bool.or_eq_true, decide_eq_true_eq]; intro a b; exact le_total _ _) s.initialized
    simpa using hsorted

omit [DecidableEq B] [DecidableEq F] in
theorem foldl_update {β : Type*} {l : List P} (hnodup : l.Nodup) (f : P → β → β) (m : P → β) (p : P) :
    (l.foldl (fun m p => Function.update m p (f p (m p))) m) p = if p ∈ l then f p (m p) else m p := by
  induction l generalizing m with
  | nil => simp
  | cons q l ih =>
    obtain ⟨hq, hnodup⟩ := nodup_cons.mp hnodup
    rw [foldl_cons, ih hnodup]
    by_cases hp : p = q
    · subst hp
      simp [hq]
    · simp [hp]

omit [DecidableEq B] [DecidableEq P] [DecidableEq F] in
theorem mem_metrics (p : P) (ep : Endpoint B E) :
    b ∈ (z.metrics p ep).send.items.map BmlBtl.btl ↔ b ∈ ep.send.items.map BmlBtl.btl := by
  rw [Host.metrics, (foldl_account p _ _ _).1, map_btl_reweigh]
  exact ((mergeSort_perm _ _).map _).mem_iff

theorem R2.Inv.addProcs (h : s.Inv z reached) {answer : R2.Answer B P E} {procs : List P}
    (hprocs : ∀ p ∈ procs, p ∈ s.procs) (hnodup : (s.newProcs procs).Nodup)
    (huniform : ∀ p ∈ s.newProcs procs, ∀ b b', z.Greatest (s.reachedBy answer p) b →
      z.Greatest (s.reachedBy answer p) b' → ((z.btl b).bandwidth = 0 ↔ (z.btl b').bandwidth = 0)) :
    (s.addProcs z answer procs).1.Inv z fun p =>
      if p ∈ s.newProcs procs then s.reachedBy answer p else reached p := by
  rw [R2.addProcs]
  by_cases hnil : procs = []
  · subst hnil
    simpa [R2.newProcs] using h
  rw [if_neg hnil]
  obtain ⟨hadds, hadded, hbml₁, hprocs₁, hlive₁⟩ := h.addBtls
  have h₁ := hadds.retain procs
  set s₁ := (s.addBtls z).retain procs with hs₁
  have hbml : s₁.bml = s.bml := hbml₁
  have hlive : s₁.initialized = s.initialized := hlive₁
  have hnew : procs.filter (fun p => (s₁.bml p).isNone) = s.newProcs procs := by rw [hbml, R2.newProcs]
  obtain ⟨hmodules, hmem, hsorted⟩ := h₁.modules hadded
  have hnone : ∀ p ∈ s.newProcs procs, s.bml p = none := fun p hp => by
    simpa using (mem_filter.mp hp).2
  have htrying : Trying z s₁ (s.newProcs procs) (s.reachedBy answer) [] s₁ := by
    refine ⟨rfl, fun _ _ => rfl, fun p hp => ?_, h₁.registry, h₁.progress⟩
    rw [hbml, hnone p hp]
    exact fun b hb => absurd hb not_mem_nil
  have hdone := htrying.foldl hnodup s₁.btlModules (by simpa using hmodules) (by simpa using hsorted)
    fun b hb p hp => by
      rw [R2.reachedBy, if_pos]
      rw [← hlive]
      exact (hmem b).mp hb
  dsimp only
  rw [hnew]
  rw [nil_append] at hdone
  set s₂ := s₁.btlModules.foldl (R2.addBtl z answer (s.newProcs procs)) s₁ with hs₂
  have hmetrics (p : P) : (s₂.metricsLoop z (s.newProcs procs)).bml p =
      if p ∈ s.newProcs procs then (s₂.bml p).map (z.metrics p) else s₂.bml p :=
    foldl_update hnodup (fun p (o : Option (Endpoint B E)) => o.map (z.metrics p)) s₂.bml p
  have hlive₂ : s₂.initialized = s.initialized := by rw [hdone.same, ← hlive]
  have hreached (p : P) : ∀ b, s.reachedBy answer p b ≠ none → b ∈ s.initialized := by
    intro b hb
    by_contra hnot
    exact hb (if_neg hnot)
  have huse (b : B) : (s₂.metricsLoop z (s.newProcs procs)).InUse b ↔ s₂.InUse b := by
    rw [inUse_iff, inUse_iff]
    refine exists_congr fun p => ?_
    rw [hmetrics]
    split_ifs
    · cases s₂.bml p with
      | none => simp
      | some ep =>
        simp only [Option.map_some, Option.some.injEq, exists_eq_left']
        exact mem_metrics p ep
    · rfl
  refine ⟨hlive₂ ▸ h.live, ⟨hdone.registry.nodup, hdone.registry.nodup_callbacks,
    hdone.registry.mem_iff⟩, fun hfalse => ?_, fun _ => ?_, ?_, fun p hp => ?_, fun p ep hp => ?_,
    fun p hp hnil b => ?_, fun f => ?_⟩
  · have hadded₂ : s₂.btlsAdded = true := by rw [hdone.same]; exact hadded
    exact absurd hfalse (by simp [R2.metricsLoop, hadded₂])
  · have hmodules₂ : s₂.btlModules = s₁.btlModules := by rw [hdone.same]
    have hinit : s₂.initialized = s₁.initialized := by rw [hdone.same]
    simp only [R2.metricsLoop, hmodules₂, hinit]
    exact ⟨hmodules, hmem, hsorted⟩
  · change s₂.procs.Nodup
    rw [hdone.same]
    exact h₁.distinct
  · change p ∈ s₂.procs
    rw [hdone.same]
    rw [hmetrics] at hp
    split_ifs at hp with hmem'
    · exact hprocs₁ ▸ hprocs p (mem_of_mem_filter hmem')
    · rw [hdone.others p hmem'] at hp
      exact h₁.procs p hp
  · change ep.Right z s₂.initialized _ p ∧ _
    rw [hmetrics] at hp
    rw [hlive₂]
    split_ifs at hp ⊢ with hmem'
    · obtain ⟨ep₀, hep₀, rfl⟩ := Option.map_eq_some_iff.mp hp
      have htaken := hdone.taken p hmem'
      rw [hep₀] at htaken
      have htaken : Taken z s₁.btlModules (s.reachedBy answer p) ep₀ := htaken
      have hgreatest : ∀ item ∈ ep₀.send.items, z.Greatest (s.reachedBy answer p) item.btl := fun item hitem => by
        obtain ⟨-, hne, hle⟩ := (htaken.mem_send item.btl).mp (mem_map_of_mem hitem)
        refine ⟨hne, fun b hb => hle b ?_ hb⟩
        rw [hmem, hlive]
        exact hreached p b hb
      refine metrics_right htaken (fun b => by rw [hmem, hlive]) (hreached p) ?_
      obtain ⟨item₀, hitem₀⟩ := exists_mem_of_ne_nil _ htaken.ne_nil
      by_cases hzero : (z.btl item₀.btl).bandwidth = 0
      · exact .inr fun item hitem =>
          (huniform p hmem' _ _ (hgreatest item₀ hitem₀) (hgreatest item hitem)).mp hzero
      · exact .inl fun item hitem => Nat.pos_of_ne_zero fun hzero' => hzero
          ((huniform p hmem' _ _ (hgreatest item₀ hitem₀) (hgreatest item hitem)).mpr hzero')
    · rw [hdone.others p hmem', hbml] at hp
      exact h.endpoints p ep hp
  · change p ∈ s₂.procs at hp
    rw [hdone.same] at hp
    rw [hmetrics] at hnil
    split_ifs at hnil ⊢ with hmem'
    · have htaken := hdone.taken p hmem'
      rw [Option.map_eq_none_iff.mp hnil] at htaken
      by_contra hne
      exact hne (htaken b ((hmem b).mpr (hlive ▸ hreached p b hne)))
    · rw [hdone.others p hmem', hbml] at hnil
      exact h.unreached p (hprocs₁ ▸ hp) hnil b
  · simp only [huse]
    exact hdone.progress f

omit [DecidableEq P] [DecidableEq F] in
theorem mem_delProcBtl {live : List B} {reached : B → Option E} {p : P} {ep : Endpoint B E} {btl : B}
    (h : ep.Right z live reached p) : b ∈ (z.delProcBtl btl ep).send.items.map BmlBtl.btl ↔
      b ∈ ep.send.items.map BmlBtl.btl ∧ b ≠ btl := by
  by_cases hbtl : btl ∈ ep.send.items.map BmlBtl.btl
  · rw [(delProcBtl_of_mem (z := z) hbtl).1, map_btl_reweigh, mem_others h.nodup]
  · rw [delProcBtl_of_not_mem h hbtl]
    refine ⟨fun hb => ⟨hb, ?_⟩, And.left⟩
    rintro rfl
    exact hbtl hb

omit [DecidableEq B] [DecidableEq P] in
theorem removeBtlProgress_eq (s : R2 B P E F) (b : B) : s.removeBtlProgress z b =
    { s with
      btlProgress := (s.removeBtlProgress z b).btlProgress
      callbacks := (s.removeBtlProgress z b).callbacks } := by
  rw [R2.removeBtlProgress]
  cases (z.btl b).progress with
  | none => rfl
  | some f =>
    dsimp only
    split_ifs <;> rfl

theorem R2.Inv.delBtl (h : s.Inv z reached) {btl : B} (hcareful : s.initialized.length = 2 ∨
    (∀ b, s.InUse b → b ≠ btl → (z.btl btl).progress ≠ none → (z.btl b).progress ≠ (z.btl btl).progress) ∧
    ∀ p ep, s.bml p = some ep → btl ∈ ep.send.items.map BmlBtl.btl → ep.Spares z btl) :
    (s.delBtl z btl).Inv z reached := by
  have hretain := h.retain s.procs
  rw [R2.delBtl]
  dsimp only
  rw [show (s.retain s.procs).initialized = s.initialized from rfl]
  by_cases htwo : s.initialized.length = 2
  · rw [if_pos htwo]
    exact hretain
  rw [if_neg htwo]
  obtain ⟨halone, hspares⟩ := hcareful.resolve_left htwo
  obtain ⟨hregistry, hcallbacks⟩ := hretain.registry.remove (z := z) btl
  have heq := removeBtlProgress_eq (z := z) (s.retain s.procs) btl
  set s₁ := (s.retain s.procs).removeBtlProgress z btl with hs₁
  have hbml : s₁.bml = s.bml := by rw [heq]; rfl
  have hprocs : s₁.procs = s.procs := by rw [heq]; rfl
  have hinit : s₁.initialized = s.initialized := by rw [heq]; rfl
  set bml : P → Option (Endpoint B E) :=
    fun p => if p ∈ s₁.procs then (s₁.bml p).map (z.delProcBtl btl) else s₁.bml p with hbml'
  have hmap (p : P) : bml p = (s.bml p).map (z.delProcBtl btl) := by
    rw [hbml']
    dsimp only
    rw [hprocs, hbml]
    split_ifs with hp
    · rfl
    · rw [not_not.mp (mt (h.procs p) hp)]
      rfl
  have hmain (live modules : List B) (hlive : live.Nodup) (hmem : ∀ b, b ∈ live ↔ b ∈ s.initialized ∧ b ≠ btl)
      (hmodules : s.btlsAdded = true → modules.Nodup ∧ (∀ b, b ∈ modules ↔ b ∈ live) ∧
        modules.Pairwise fun b b' => (z.btl b').exclusivity ≤ (z.btl b).exclusivity) :
      ({ s₁ with initialized := live, btlModules := modules, bml := bml } : R2 B P E F).Inv z reached := by
    have huse (b : B) : ({ s₁ with initialized := live, btlModules := modules, bml := bml } : R2 B P E F).InUse b ↔
        s.InUse b ∧ b ≠ btl := by
      rw [inUse_iff, inUse_iff]
      dsimp only
      simp only [hmap, Option.map_eq_some_iff]
      constructor
      · rintro ⟨p, -, ⟨ep, hp, rfl⟩, hb⟩
        have hb := (mem_delProcBtl (h.endpoints p ep hp).1).mp hb
        exact ⟨⟨p, ep, hp, hb.1⟩, hb.2⟩
      · rintro ⟨⟨p, ep, hp, hb⟩, hne⟩
        exact ⟨p, _, ⟨ep, hp, rfl⟩, (mem_delProcBtl (h.endpoints p ep hp).1).mpr ⟨hb, hne⟩⟩
    refine ⟨hlive, ⟨hregistry.nodup, hregistry.nodup_callbacks, hregistry.mem_iff⟩, fun hadded => ?_, fun hadded => ?_,
      ?_, fun p hp => ?_, fun p ep hp => ?_, fun p hp hnil => ?_, fun f => ?_⟩
    · have hadded' : s.btlsAdded = false := by
        have : s₁.btlsAdded = s.btlsAdded := by rw [heq]; rfl
        rw [← this]
        exact hadded
      obtain ⟨hnone, hbml₀⟩ := h.notAdded hadded'
      refine ⟨?_, fun p => by dsimp only; rw [hmap, hbml₀ p]; rfl⟩
      refine eq_nil_iff_forall_not_mem.mpr fun f hf => ?_
      have hf' : f ∈ s.callbacks := ((hcallbacks f).mp hf).1
      rw [hnone] at hf'
      cases hf'
    · refine hmodules ?_
      have : s₁.btlsAdded = s.btlsAdded := by rw [heq]; rfl
      rw [← this]
      exact hadded
    · dsimp only
      rw [hprocs]
      exact h.distinct
    · dsimp only at hp ⊢
      rw [hmap, Ne, Option.map_eq_none_iff] at hp
      rw [hprocs]
      exact h.procs p hp
    · dsimp only at hp ⊢
      rw [hmap] at hp
      obtain ⟨ep₀, hp₀, rfl⟩ := Option.map_eq_some_iff.mp hp
      obtain ⟨hright, huniform⟩ := h.endpoints p ep₀ hp₀
      exact delProcBtl_right hright huniform hmem (hspares p ep₀ hp₀)
    · dsimp only at hp hnil
      rw [hprocs] at hp
      rw [hmap, Option.map_eq_none_iff] at hnil
      exact h.unreached p hp hnil
    · simp only [huse]
      rw [hcallbacks f, show (s.retain s.procs).callbacks = s.callbacks from rfl, h.progress]
      constructor
      · rintro ⟨⟨b, hb, hf⟩, hne⟩
        refine ⟨b, ⟨hb, ?_⟩, hf⟩
        rintro rfl
        exact hne hf
      · rintro ⟨b, ⟨hb, hne⟩, hf⟩
        refine ⟨⟨b, hb, hf⟩, fun hf' => ?_⟩
        exact halone b hb hne (by rw [hf']; simp) (hf.trans hf'.symm)
  have hmodules₁ : s₁.btlModules = s.btlModules := by rw [heq]; rfl
  by_cases hbtl : btl ∈ s.initialized
  · rw [if_pos (by rw [hinit]; exact hbtl)]
    have hmem (b : B) : b ∈ s.initialized.erase btl ↔ b ∈ s.initialized ∧ b ≠ btl := by
      rw [h.live.mem_erase_iff, and_comm]
    have := hmain _ (s.btlModules.filter (· ≠ btl)) (h.live.erase btl) hmem fun hadded => by
      obtain ⟨hnodup, hmods, hsorted⟩ := h.modules hadded
      refine ⟨hnodup.filter _, fun b => ?_, hsorted.filter _⟩
      rw [mem_filter, hmods, hmem]
      simp
    rw [hinit, hmodules₁]
    exact this
  · rw [if_neg (by rw [hinit]; exact hbtl)]
    have := hmain _ _ h.live (fun b => ⟨fun hb => ⟨hb, fun heq => hbtl (heq ▸ hb)⟩, And.left⟩) h.modules
    rw [← hinit, ← hmodules₁] at this
    exact this

omit [DecidableEq B] [DecidableEq P] [DecidableEq F] in
theorem delCalls_eq_nil {live : List B} {reached : B → Option E} {p : P} {ep : Endpoint B E}
    (h : ep.Right z live reached p) (hsend : ep.send.items = []) : ep.delCalls = [] := by
  have heager : ep.eager.items = [] := by
    refine eq_nil_iff_forall_not_mem.mpr fun item hitem => ?_
    have := ((h.eager.mem_iff item.btl).mp (mem_map_of_mem hitem)).1
    rw [hsend] at this
    cases this
  rw [Endpoint.delCalls, heager, hsend]
  rfl

omit [DecidableEq B] [DecidableEq F] in
theorem R2.Inv.release (h : s.Inv z reached) {p : P} {ep : Endpoint B E} (hp : s.bml p = some ep)
    (hsend : ep.send.items = []) : (s.release p).Inv z reached := by
  have hbml (q : P) : (s.release p).bml q = if q = p then none else s.bml q := by
    by_cases hq : q = p
    · subst hq
      simp [R2.release]
    · simp [R2.release, hq]
  have huse (b : B) : (s.release p).InUse b ↔ s.InUse b := by
    rw [inUse_iff, inUse_iff]
    simp only [hbml]
    constructor
    · rintro ⟨q, ep', hq, hb⟩
      split_ifs at hq
      exact ⟨q, ep', hq, hb⟩
    · rintro ⟨q, ep', hq, hb⟩
      refine ⟨q, ep', ?_, hb⟩
      rw [if_neg, hq]
      rintro rfl
      rw [hp, Option.some.injEq] at hq
      rw [← hq, hsend] at hb
      cases hb
  refine ⟨h.live, ⟨h.registry.nodup, h.registry.nodup_callbacks, h.registry.mem_iff⟩, fun hadded => ?_, h.modules,
    h.distinct.erase p, fun q hq => ?_, fun q ep' hq => ?_, fun q hmem hnil => ?_, fun f => ?_⟩
  · obtain ⟨hcallbacks, hnone⟩ := h.notAdded hadded
    refine ⟨hcallbacks, fun q => ?_⟩
    rw [hbml, hnone, ite_self]
  · rw [hbml] at hq
    by_cases hqp : q = p
    · exact absurd (if_pos hqp) hq
    · rw [if_neg hqp] at hq
      exact (mem_erase_of_ne hqp).mpr (h.procs q hq)
  · rw [hbml] at hq
    split_ifs at hq
    exact h.endpoints q ep' hq
  · obtain ⟨hqp, hmem⟩ := h.distinct.mem_erase_iff.mp hmem
    rw [hbml, if_neg hqp] at hnil
    exact h.unreached q hmem hnil
  · simp only [huse]
    exact h.progress f

omit [DecidableEq B] [DecidableEq F] in
theorem R2.Deletable.release {fails : B → Bool} {p : P} {procs : List P} (h : s.Deletable fails procs)
    (hp : p ∉ procs) : (s.release p).Deletable fails procs := by
  induction procs with
  | nil => trivial
  | cons q procs ih =>
    obtain ⟨ep, hq, hcase⟩ := h
    have hne : q ≠ p := fun heq => hp (heq ▸ mem_cons_self)
    refine ⟨ep, ?_, ?_⟩
    · simpa [R2.release, hne] using hq
    · rcases hcase with ⟨hsend, hnot, hrest⟩ | hfails
      · exact .inl ⟨hsend, hnot, ih hrest fun hmem => hp (mem_cons_of_mem _ hmem)⟩
      · exact .inr hfails

omit [DecidableEq B] [DecidableEq F] in
theorem R2.Inv.delLoop {fails : B → Bool} {procs : List P} (h : s.Inv z reached) (hdel : s.Deletable fails procs)
    {r : R2 B P E F × List (Deletion B P E)} (hr : s.delLoop fails procs = some r) : r.1.Inv z reached ∧
      ∀ d ∈ r.2, d.calls.Perm (d.send.map fun item => (item.btl, item.endpoint)) := by
  induction procs generalizing s r with
  | nil =>
    cases hr
    exact ⟨h, by simp⟩
  | cons p procs ih =>
    obtain ⟨ep, hp, hcase⟩ := hdel
    rw [R2.delLoop, hp] at hr
    dsimp only at hr
    rcases hcase with ⟨hsend, hnot, hrest⟩ | ⟨item, items, heager, hfails⟩
    · rw [delCalls_eq_nil (h.endpoints p ep hp).1 hsend, notify] at hr
      obtain ⟨r', hr', rfl⟩ := Option.map_eq_some_iff.mp hr
      obtain ⟨hinv, hall⟩ := ih (h.release hp hsend) (hrest.release hnot) hr'
      refine ⟨hinv, fun d hd => ?_⟩
      rcases mem_cons.mp hd with rfl | hd
      · rw [hsend]
        exact .refl _
      · exact hall d hd
    · rw [Endpoint.delCalls, heager, cons_append, map_cons, notify, if_pos hfails] at hr
      cases hr
      exact ⟨h, by simp⟩

end Calls

namespace Session

variable {s s' : Session B P E F}

def Inv (z : Host B P F) (s : Session B P E F) : Prop :=
  s.r2.Inv z s.reached ∧ ∀ d ∈ s.deletions, d.calls.Perm (d.send.map fun item => (item.btl, item.endpoint))

omit [DecidableEq B] [DecidableEq P] [DecidableEq F] in
theorem inv_start {btls : List B} (h : btls.Nodup) : (start btls : Session B P E F).Inv z := by
  refine ⟨⟨h, ⟨nodup_nil, nodup_nil, by simp [start]⟩, fun _ => ⟨rfl, fun _ => rfl⟩, fun hadded => ?_,
    nodup_nil, fun _ hp => absurd rfl hp, fun _ _ hp => ?_, fun _ _ _ _ => rfl, fun f => ?_⟩, by simp [start]⟩
  · cases hadded
  · cases hp
  · simp [start, R2.InUse]

theorem Inv.step (h : s.Inv z) {c : Call B P E} (hcareful : s.Careful z c) (hstep : Step z s c s') : s'.Inv z := by
  obtain ⟨hinv, hdel⟩ := h
  cases c with
  | newProc p =>
    obtain ⟨hp, rfl⟩ := hstep
    have hnone : s.r2.bml p = none := not_not.mp (mt (hinv.procs p) hp)
    have hreached {q : P} (hq : q ≠ p) : Function.update s.reached p (fun _ => none) q = s.reached q :=
      Function.update_of_ne hq _ _
    refine ⟨⟨hinv.live, ⟨hinv.registry.nodup, hinv.registry.nodup_callbacks, hinv.registry.mem_iff⟩, hinv.notAdded,
      hinv.modules, nodup_concat hinv.distinct hp, fun q hq => mem_append_left _ (hinv.procs q hq),
      fun q ep hq => ?_, fun q hmem hnil => ?_, hinv.progress⟩, hdel⟩
    · have hne : q ≠ p := by
        rintro rfl
        rw [hnone] at hq
        cases hq
      dsimp only
      rw [hreached hne]
      exact hinv.endpoints q ep hq
    · dsimp only
      by_cases hqp : q = p
      · subst hqp
        simp
      · rw [hreached hqp]
        rcases mem_append.mp hmem with hmem | hmem
        · exact hinv.unreached q hmem hnil
        · exact absurd (mem_singleton.mp hmem) hqp
  | retain p =>
    obtain ⟨-, rfl⟩ := hstep
    exact ⟨hinv.retain [p], hdel⟩
  | release p =>
    obtain ⟨-, rfl⟩ := hstep
    exact ⟨⟨hinv.live, ⟨hinv.registry.nodup, hinv.registry.nodup_callbacks, hinv.registry.mem_iff⟩, hinv.notAdded,
      hinv.modules, hinv.distinct, hinv.procs, hinv.endpoints, hinv.unreached, hinv.progress⟩, hdel⟩
  | addProcs answer procs =>
    obtain ⟨hprocs, rfl⟩ := hstep
    exact ⟨hinv.addProcs hprocs hcareful.1 hcareful.2, hdel⟩
  | delBtl btl =>
    obtain rfl := hstep
    exact ⟨hinv.delBtl hcareful, hdel⟩
  | delProcs fails procs =>
    obtain ⟨-, r, hr, rfl⟩ := hstep
    obtain ⟨hinv', hall⟩ := hinv.delLoop hcareful hr
    refine ⟨hinv', fun d hd => ?_⟩
    rcases mem_append.mp hd with hd | hd
    · exact hdel d hd
    · exact hall d hd

theorem inv_of_careful {s : Session B P E F} (h : ((system z).restrict (Careful z)).Reachable s) : s.Inv z := by
  refine h.invariant (fun s hinit => ?_)
    fun s c s' hs (hstep : s.Careful z c ∧ Step z s c s') => hs.step hstep.1 hstep.2
  obtain ⟨btls, hnodup, rfl⟩ := hinit
  exact inv_start hnodup

/-- In a run of careful calls every endpoint describes the live BTLs, and progress functions are registered as long
as they are in use. -/
theorem paths_of_careful (z : Host B P F) {s : Session B P E F} (h : ((system z).restrict (Careful z)).Reachable s) :
    s.Right z :=
  have hinv := inv_of_careful h
  ⟨fun p ep hp => (hinv.1.endpoints p ep hp).1, hinv.1.unreached, hinv.2, hinv.1.progress⟩

omit [DecidableEq B] [DecidableEq P] [DecidableEq F] in
theorem not_perm_delCalls {live : List B} {reached : B → Option E} {p : P} {ep : Endpoint B E}
    (h : ep.Right z live reached p) (hne : ep.send.items ≠ []) :
    ¬ep.delCalls.Perm (ep.send.items.map fun item => (item.btl, item.endpoint)) := by
  obtain ⟨hleast, item, hitem, heq⟩ := foldl_min_attained hne (f := fun item => (z.btl item.btl).latency) (n := 2 ^ 32)
    fun item _ => le_of_lt (z.btl item.btl).latency_lt
  have heager : item.btl ∈ ep.eager.items.map BmlBtl.btl := by
    refine (h.eager.mem_iff item.btl).mpr ⟨mem_map_of_mem hitem, fun b hb => ?_⟩
    obtain ⟨item', hitem', rfl⟩ := mem_map.mp hb
    rw [heq]
    exact hleast item' hitem'
  obtain ⟨first, rest, hfirst⟩ := exists_cons_of_ne_nil (ne_nil_of_mem heager)
  obtain ⟨e, es, hes, -, -⟩ := map_eq_cons_iff.mp hfirst
  obtain ⟨n, hn⟩ := Nat.exists_eq_add_one.mpr (length_pos_iff.mpr hne)
  have hget : ep.eager.getIndex 0 = some e := by simp [BtlArray.getIndex, hes]
  intro hperm
  have hbtls := hperm.map Prod.fst
  rw [Endpoint.delCalls, hn, range_succ_eq_map, filterMap_cons, hget, hes, map_map, map_map] at hbtls
  have hnodup := hbtls.nodup_iff.mpr h.nodup
  simp at hnodup

def sender : BtlModule Unit := ⟨1024, 100, 800, flagsSend, false, false, 65536, 0, 0, none, by decide, by decide, by decide⟩

def oneHost : Host Unit Unit Unit := ⟨fun _ => sender, fun _ => 0, 0⟩

def oneAnswer : R2.Answer Unit Unit Unit := fun _ => some fun _ => some ()

def oneProc : Session Unit Unit Unit Unit :=
  { (start [()] : Session Unit Unit Unit Unit) with
    r2 := { (start [()] : Session Unit Unit Unit Unit).r2 with procs := [()], refs := fun _ => 1 } }

def oneAdded : Session Unit Unit Unit Unit :=
  { oneProc with r2 := (oneProc.r2.addProcs oneHost oneAnswer [()]).1, reached := oneProc.r2.reachedBy oneAnswer }

theorem reachable_oneAdded : ((system oneHost).restrict (Careful oneHost)).Reachable oneAdded := by
  have hnew : ((system oneHost).restrict (Careful oneHost)).step (start [()]) (.newProc ()) oneProc := by
    refine ⟨trivial, by simp [start], ?_⟩
    have hrefs : Function.update (fun _ : Unit => 0) () 1 = fun _ => 1 := rfl
    simp [oneProc, start, hrefs]
  have hnewProcs : oneProc.r2.newProcs [()] = [()] := rfl
  have hadd : ((system oneHost).restrict (Careful oneHost)).step oneProc (.addProcs oneAnswer [()]) oneAdded := by
    refine ⟨⟨by simp [hnewProcs], fun p _ b b' _ _ => Iff.rfl⟩, by simp [oneProc], ?_⟩
    rw [hnewProcs]
    simp [oneAdded]
  exact ⟨start [()], _, ⟨[()], by simp, rfl⟩, ((System.Run.nil _).snoc hnew).snoc hadd⟩

theorem oneAdded_bml : ∃ ep, oneAdded.r2.bml () = some ep ∧ ep.send.items ≠ [] := by
  have hright := (inv_of_careful reachable_oneAdded).1
  have hreached : oneAdded.reached () () = some () := by simp [oneAdded, oneProc, start, R2.reachedBy, oneAnswer]
  have hlive : oneAdded.r2.initialized = [()] := by
    simp [oneAdded, oneProc, start, R2.addProcs, R2.addBtls, R2.retain, R2.metricsLoop, R2.addBtl, R2.registerProgress,
      oneHost, oneAnswer, sender]
  cases hbml : oneAdded.r2.bml () with
  | none =>
    have := hright.unreached () (by simp [oneAdded, oneProc, start, R2.addProcs, R2.addBtls, R2.retain,
      R2.metricsLoop, R2.addBtl, R2.registerProgress, oneHost, oneAnswer, sender]) hbml ()
    rw [hreached] at this
    cases this
  | some ep =>
    refine ⟨ep, rfl, ?_⟩
    have hmem := ((hright.endpoints () ep hbml).1.mem_send ()).mpr
      ⟨by simp [hlive], by simp [hreached], fun _ _ => le_rfl⟩
    rintro hnil
    rw [hnil] at hmem
    cases hmem

theorem paths_of_careful_one : (∃ ep, oneAdded.r2.bml () = some ep ∧ ep.send.items ≠ []) ∧ oneAdded.Right oneHost :=
  ⟨oneAdded_bml, paths_of_careful oneHost reachable_oneAdded⟩

/-- The BTL is told twice that the process is deleted. -/
theorem not_right_of_deleted : ∃ s : Session Unit Unit Unit Unit, (system oneHost).Reachable s ∧ ¬s.Right oneHost := by
  obtain ⟨ep, hbml, hne⟩ := oneAdded_bml
  have hright := ((inv_of_careful reachable_oneAdded).1.endpoints () ep hbml).1
  have hnotify : ∀ calls : List (Unit × Unit), notify (fun _ => false) calls = (calls, true) := by
    intro calls
    induction calls with
    | nil => rfl
    | cons call calls ih => simp [notify, ih]
  -- the reference of the call is given back
  set released : Session Unit Unit Unit Unit := { oneAdded with
    r2 := { oneAdded.r2 with refs := Function.update oneAdded.r2.refs () (oneAdded.r2.refs () - 1) } } with hreleased
  have hrefs : oneAdded.r2.refs () = 2 := by
    simp [oneAdded, oneProc, start, R2.addProcs, R2.addBtls, R2.retain, R2.metricsLoop, R2.addBtl, R2.registerProgress,
      oneHost, oneAnswer, sender]
  have hrelease : (system oneHost).step oneAdded (.release ()) released := ⟨by simp [hrefs], rfl⟩
  have hdelete : released.r2.delProcs (fun _ => false) [()] =
      some (released.r2.release (), [⟨(), ep.send.items, ep.delCalls⟩]) := by
    have hone : released.r2.refs () = 1 := by simp [hreleased, hrefs]
    have hbml' : released.r2.bml () = some ep := hbml
    simp [R2.delProcs, hone, R2.delLoop, hbml', hnotify]
  have hprocs : () ∈ released.r2.procs := by
    simp [hreleased, oneAdded, oneProc, start, R2.addProcs, R2.addBtls, R2.retain, R2.metricsLoop, R2.addBtl,
      R2.registerProgress, oneHost, oneAnswer, sender]
  have hdel : (system oneHost).step released (.delProcs (fun _ => false) [()])
      { released with
        r2 := released.r2.release (), deletions := released.deletions ++ [⟨(), ep.send.items, ep.delCalls⟩] } :=
    ⟨fun _ _ => hprocs, _, hdelete, rfl⟩
  refine ⟨_, (reachable_oneAdded.of_restrict.step hrelease).step hdel, fun hr => not_perm_delCalls hright hne ?_⟩
  exact hr.deletions ⟨(), ep.send.items, ep.delCalls⟩ (mem_append_right _ (mem_singleton.mpr rfl))

end Session

end OpenMPI.Bml
