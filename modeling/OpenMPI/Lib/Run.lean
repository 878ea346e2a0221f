import Mathlib.Data.List.Basic
import Mathlib.Data.List.Induction
import Mathlib.Logic.Relation

/-!
# Runs of a labelled transition system

A system takes labelled steps.  A property of the starting states that every step preserves holds
of every reachable state (`System.Reachable.invariant`), and a relation between two systems that
every step of the first preserves, with the second answering by the same label, carries whole runs
(`System.Run.simulate`).
-/

namespace OpenMPI.Lib

open List

universe v

/-- States `σ`, steps labelled with `ε`. -/
structure System (σ ε : Type*) where
  init : σ → Prop
  step : σ → ε → σ → Prop

namespace System

variable {σ τ ε : Type*} {S : System σ ε} {T : System τ ε}

inductive Run (S : System σ ε) : σ → List ε → σ → Prop
  | nil (s : σ) : Run S s [] s
  | snoc {s t u : σ} {es : List ε} {e : ε} (h : Run S s es t) (hs : S.step t e u) :
      Run S s (es ++ [e]) u

/-- The same system where only steps that meet a condition are taken. -/
def restrict (S : System σ ε) (C : σ → ε → Prop) : System σ ε where
  init := S.init
  step s e t := C s e ∧ S.step s e t

def Reachable (S : System σ ε) (s : σ) : Prop := ∃ s₀ es, S.init s₀ ∧ S.Run s₀ es s

theorem Run.append {s t u : σ} {es fs : List ε} (h : S.Run s es t) (h' : S.Run t fs u) :
    S.Run s (es ++ fs) u := by
  induction h' with
  | nil => simpa using h
  | snoc _ hs ih =>
    rw [← append_assoc]
    exact ih.snoc hs

theorem Run.single {s t : σ} {e : ε} (h : S.step s e t) : S.Run s [e] t :=
  (Run.nil s).snoc h

theorem Run.restrict {C : σ → ε → Prop} {s t : σ} {es : List ε} (h : S.Run s es t)
    (hC : ∀ s e, C s e) : (S.restrict C).Run s es t := by
  induction h with
  | nil => exact .nil _
  | snoc _ hs ih => exact ih.snoc ⟨hC _ _, hs⟩

theorem Run.invariant {P : σ → Prop} (hstep : ∀ s e t, P s → S.step s e t → P t) {s t : σ}
    {es : List ε} (h : S.Run s es t) (hs : P s) : P t := by
  induction h with
  | nil => exact hs
  | snoc _ ht ih => exact hstep _ _ _ ih ht

theorem Run.count {f : σ → ℕ} (hstep : ∀ s e t, S.step s e t → f t = f s + 1) {s t : σ}
    {es : List ε} (h : S.Run s es t) : f t = f s + es.length := by
  induction h with
  | nil => rfl
  | snoc _ hs ih =>
    rw [hstep _ _ _ hs, ih, length_append]
    rfl

theorem Reachable.invariant {P : σ → Prop} (hinit : ∀ s, S.init s → P s)
    (hstep : ∀ s e t, P s → S.step s e t → P t) {s : σ} (h : S.Reachable s) : P s := by
  obtain ⟨s₀, es, h0, hr⟩ := h
  exact hr.invariant hstep (hinit s₀ h0)

theorem Reachable.step {s t : σ} {e : ε} (h : S.Reachable s) (hs : S.step s e t) :
    S.Reachable t := by
  obtain ⟨s₀, es, h0, hr⟩ := h
  exact ⟨s₀, es ++ [e], h0, hr.snoc hs⟩

theorem Reachable.of_foldlM {f : σ → ε → Option σ} (hf : ∀ s e t, f s e = some t → S.step s e t) {s t : σ} {es : List ε}
    (hs : S.Reachable s) (h : es.foldlM f s = some t) : S.Reachable t := by
  induction es generalizing s with
  | nil =>
    cases h
    exact hs
  | cons e es ih =>
    rw [foldlM_cons] at h
    obtain ⟨u, hu, hrest⟩ := Option.bind_eq_some_iff.mp h
    exact ih (hs.step (hf _ _ _ hu)) hrest

theorem Run.of_restrict {C : σ → ε → Prop} {s t : σ} {es : List ε} (h : (S.restrict C).Run s es t) :
    S.Run s es t := by
  induction h with
  | nil => exact .nil _
  | snoc _ hs ih => exact ih.snoc hs.2

theorem Reachable.of_restrict {C : σ → ε → Prop} {s : σ} (h : (S.restrict C).Reachable s) : S.Reachable s := by
  obtain ⟨s₀, es, h0, hr⟩ := h
  exact ⟨s₀, es, h0, hr.of_restrict⟩

theorem Run.simulate {R : σ → τ → Prop}
    (hstep : ∀ s e s' t, R s t → S.step s e s' → ∃ t', T.step t e t' ∧ R s' t')
    {s s' : σ} {es : List ε} (h : S.Run s es s') {t : τ} (hst : R s t) :
    ∃ t', T.Run t es t' ∧ R s' t' := by
  induction h with
  | nil => exact ⟨t, .nil t, hst⟩
  | snoc _ hs ih =>
    obtain ⟨t', ht', hr⟩ := ih
    obtain ⟨t'', ht'', hr'⟩ := hstep _ _ _ _ hr hs
    exact ⟨t'', ht'.snoc ht'', hr'⟩

theorem Run.nil_eq {s t : σ} (h : S.Run s [] t) : s = t := by
  generalize hl : ([] : List ε) = l at h
  cases h with
  | nil => rfl
  | snoc => exact absurd hl.symm (append_ne_nil_of_right_ne_nil _ (cons_ne_nil _ _))

theorem Run.uncons {s t : σ} {e : ε} {es : List ε} (h : S.Run s (e :: es) t) :
    ∃ u, S.step s e u ∧ S.Run u es t := by
  generalize hl : e :: es = l at h
  induction h generalizing e es with
  | nil => cases hl
  | snoc hrun hs ih =>
    rename_i fs f
    cases fs with
    | nil =>
      obtain ⟨rfl, rfl⟩ := List.cons.inj hl
      obtain rfl := hrun.nil_eq
      exact ⟨_, hs, .nil _⟩
    | cons g fs =>
      obtain ⟨rfl, rfl⟩ := List.cons.inj hl
      obtain ⟨u, hu, hrest⟩ := ih rfl
      exact ⟨u, hu, hrest.snoc hs⟩

/-- Steps with one label go one way, and steps with two labels in either order to one state. -/
structure Commuting (S : System σ ε) : Prop where
  det : ∀ s e t t', S.step s e t → S.step s e t' → t = t'
  diamond : ∀ s e f t u, e ≠ f → S.step s e t → S.step s f u → ∃ v, S.step t f v ∧ S.step u e v

theorem Run.rejoin_step (hS : S.Commuting) {s t u : σ} {es : List ε} {e : ε} (h : S.Run s es t)
    (hend : ∀ e u, ¬S.step t e u) (hs : S.step s e u) :
    ∃ es', S.Run u es' t ∧ es'.length + 1 = es.length := by
  induction es generalizing s u with
  | nil =>
    obtain rfl := h.nil_eq
    exact absurd hs (hend e u)
  | cons f es ih =>
    obtain ⟨v, hv, hrest⟩ := h.uncons
    by_cases hef : e = f
    · subst hef
      obtain rfl := hS.det _ _ _ _ hs hv
      exact ⟨es, hrest, rfl⟩
    · obtain ⟨w, hw, hw'⟩ := hS.diamond _ _ _ _ _ hef hs hv
      obtain ⟨es', hrun, hlength⟩ := ih hrest hw'
      refine ⟨f :: es', (Run.single hw).append hrun, ?_⟩
      rw [length_cons, length_cons, hlength]

theorem Run.rejoin (hS : S.Commuting) {s t u : σ} {es fs : List ε} (h : S.Run s es t)
    (hend : ∀ e u, ¬S.step t e u) (h' : S.Run s fs u) :
    ∃ gs, S.Run u gs t ∧ fs.length + gs.length = es.length := by
  induction h' with
  | nil => exact ⟨es, h, Nat.zero_add _⟩
  | snoc _ hs ih =>
    obtain ⟨gs, hrun, hlength⟩ := ih
    obtain ⟨gs', hrun', hlength'⟩ := hrun.rejoin_step hS hend hs
    refine ⟨gs', hrun', ?_⟩
    rw [length_append, length_singleton]
    omega

end System

section Calls

variable {ε : Type*} {P : List ε → Prop} {Ok Careful : List ε → ε → Prop}

theorem calls_invariant (hnil : P []) (hnext : ∀ l c, P l → Careful l c → P (l ++ [c]))
    (calls : List ε) (h : ∀ l c, l ++ [c] <+: calls → Careful l c) : P calls := by
  induction calls using List.reverseRecOn with
  | nil => exact hnil
  | append_singleton calls c ih =>
    refine hnext calls c (ih fun l c' hl => ?_) (h calls c prefix_rfl)
    exact h l c' (hl.trans (prefix_append _ _))

theorem calls_concat (Q : List ε → ε → Prop) (calls : List ε) (c : ε) :
    (∀ l c', l ++ [c'] <+: calls ++ [c] → Q l c') ↔ (∀ l c', l ++ [c'] <+: calls → Q l c') ∧ Q calls c := by
  constructor
  · exact fun h => ⟨fun l c' hl => h l c' (hl.trans (prefix_append _ _)),
      h calls c prefix_rfl⟩
  · rintro ⟨h, hc⟩ l c' hl
    rcases prefix_concat_iff.mp hl with heq | hl
    · obtain ⟨rfl, hcc⟩ := append_inj' heq rfl
      cases hcc
      exact hc
    · exact h l c' hl

theorem calls_iff (hnil : P []) (hnext : ∀ l c, P l → Careful l c → P (l ++ [c]))
    (hok : ∀ l c, P l → (Ok l c ↔ Careful l c)) (calls : List ε) :
    (∀ l c, l ++ [c] <+: calls → Ok l c) ↔ ∀ l c, l ++ [c] <+: calls → Careful l c := by
  induction calls using List.reverseRecOn with
  | nil => simp
  | append_singleton calls c ih =>
    rw [calls_concat, calls_concat, ih]
    refine and_congr_right fun hcare => ?_
    exact hok calls c (calls_invariant hnil hnext calls hcare)

end Calls

theorem bind_eq_ok {ε : Type*} {α β : Type v} {x : Except ε α} {f : α → Except ε β} {b : β} (h : x >>= f = .ok b) :
    ∃ a, x = .ok a ∧ f a = .ok b := by
  cases x with
  | error e => cases h
  | ok a => exact ⟨a, rfl, h⟩

end OpenMPI.Lib
