import Mathlib.Algebra.Ring.Nat
import Mathlib.Data.List.Basic

/-!
# Writers and readers

Actions on a state that stores a sequence: what was read of it already and what is left.  A writer adds to its end, a
reader takes from what is left, and what is told of both goes through sequencing and loops.  A reader undoes a writer if
it reads what that writes.
-/

namespace OpenMPI.Lib

open List

variable {σ ε α γ β : Type}

/-- An action that can fail, on a state that stays when it does. -/
abbrev Action (σ ε : Type) := ExceptT ε (StateM σ)

namespace Action

def exec (m : Action σ ε α) (s : σ) : Except ε α × σ := StateT.run (ExceptT.run m) s

@[simp] theorem exec_pure (a : α) (s : σ) : exec (pure a : Action σ ε α) s = (.ok a, s) := rfl

@[simp] theorem exec_get (s : σ) : exec (get : Action σ ε σ) s = (.ok s, s) := rfl

@[simp] theorem exec_set (s s' : σ) : exec (set s' : Action σ ε PUnit) s = (.ok ⟨⟩, s') := rfl

theorem exec_bind {m : Action σ ε α} {f : α → Action σ ε γ} {s s' : σ} {a : α} (h : exec m s = (.ok a, s')) :
    exec (m >>= f) s = exec (f a) s' := by
  change StateT.run (ExceptT.run m >>= ExceptT.bindCont f) s = _
  rw [StateT.run_bind]
  unfold exec at h
  rw [h]
  rfl

theorem exec_bind_error {m : Action σ ε α} {f : α → Action σ ε γ} {s s' : σ} {e : ε} (h : exec m s = (.error e, s')) :
    exec (m >>= f) s = (.error e, s') := by
  change StateT.run (ExceptT.run m >>= ExceptT.bindCont f) s = _
  rw [StateT.run_bind]
  unfold exec at h
  rw [h]
  rfl

variable (Stored : σ → List β → List β → Prop)

def Writes (m : Action σ ε PUnit) (out : List β) : Prop :=
  ∀ s taken rest, Stored s taken rest → ∃ s', exec m s = (.ok ⟨⟩, s') ∧ Stored s' taken (rest ++ out)

def Reads (m : Action σ ε α) (inn : List β) (a : α) : Prop :=
  ∀ s taken rest, Stored s taken (inn ++ rest) → ∃ s', exec m s = (.ok a, s') ∧ Stored s' (taken ++ inn) rest

variable {Stored}

theorem Writes.pure : Writes Stored (pure ⟨⟩ : Action σ ε PUnit) [] := by
  intro s taken rest hs
  exact ⟨s, rfl, by rwa [append_nil]⟩

theorem Writes.bind {m m' : Action σ ε PUnit} {out out' : List β} (h : Writes Stored m out) (h' : Writes Stored m' out') :
    Writes Stored (m >>= fun _ => m') (out ++ out') := by
  intro s taken rest hs
  obtain ⟨s', hm, hs'⟩ := h s taken rest hs
  obtain ⟨s'', hm', hs''⟩ := h' s' taken _ hs'
  exact ⟨s'', by rw [exec_bind hm, hm'], by rwa [← append_assoc]⟩

theorem Writes.get {f : σ → Action σ ε PUnit} {out : List β} (h : ∀ s taken rest, Stored s taken rest → Writes Stored (f s) out) :
    Writes Stored (MonadState.get >>= f) out := by
  intro s taken rest hs
  rw [exec_bind (exec_get s)]
  exact h s taken rest hs s taken rest hs

theorem Writes.forM {f : α → Action σ ε PUnit} {out : α → List β} {l : List α} (h : ∀ a ∈ l, Writes Stored (f a) (out a)) :
    Writes Stored (l.forM f) (l.flatMap out) := by
  induction l with
  | nil => exact Writes.pure
  | cons a l ih =>
    rw [flatMap_cons]
    exact (h a mem_cons_self).bind (ih fun b hb => h b (mem_cons_of_mem _ hb))

theorem Reads.pure (a : α) : Reads Stored (pure a : Action σ ε α) [] a := by
  intro s taken rest hs
  exact ⟨s, rfl, by rwa [append_nil]⟩

theorem Reads.bind {m : Action σ ε α} {f : α → Action σ ε γ} {x y : List β} {a : α} {c : γ} (h : Reads Stored m x a)
    (h' : Reads Stored (f a) y c) : Reads Stored (m >>= f) (x ++ y) c := by
  intro s taken rest hs
  rw [append_assoc] at hs
  obtain ⟨s', hm, hs'⟩ := h s taken _ hs
  obtain ⟨s'', hm', hs''⟩ := h' s' _ rest hs'
  exact ⟨s'', by rw [exec_bind hm, hm'], by rwa [← append_assoc]⟩

theorem Reads.get {f : σ → Action σ ε α} {inn : List β} {a : α}
    (h : ∀ s taken rest, Stored s taken (inn ++ rest) → Reads Stored (f s) inn a) : Reads Stored (MonadState.get >>= f) inn a := by
  intro s taken rest hs
  rw [exec_bind (exec_get s)]
  exact h s taken rest hs s taken rest hs

theorem Reads.map {m : Action σ ε α} {inn : List β} {a : α} (h : Reads Stored m inn a) (f : α → γ) :
    Reads Stored (m >>= fun a => Pure.pure (f a)) inn (f a) := by
  have := h.bind (f := fun a => Pure.pure (f a)) (Reads.pure (f a))
  rwa [append_nil] at this

theorem Reads.mapM {δ : Type} {f : δ → Action σ ε α} {inn : α → List β} {l : List α} {places : List δ}
    (h : List.Forall₂ (fun d a => Reads Stored (f d) (inn a) a) places l) :
    Reads Stored (places.mapM f) (l.flatMap inn) l := by
  induction h with
  | nil => exact Reads.pure []
  | cons hd _ ih =>
    rw [mapM_cons, flatMap_cons]
    exact hd.bind (ih.map _)

section Keeps

variable (I : σ → Prop)

def Keeps (m : Action σ ε α) : Prop := ∀ s, I s → I (exec m s).2

variable {I}

theorem Keeps.pure (a : α) : Keeps I (pure a : Action σ ε α) := fun _ h => h

theorem Keeps.throw (e : ε) : Keeps I (throw e : Action σ ε α) := fun _ h => h

theorem Keeps.bind {m : Action σ ε α} {f : α → Action σ ε γ} (h : Keeps I m) (hf : ∀ a, Keeps I (f a)) : Keeps I (m >>= f) := by
  intro s hs
  have hm := h s hs
  cases hexec : exec m s with
  | mk result s' =>
    rw [hexec] at hm
    cases result with
    | ok a =>
      rw [exec_bind hexec]
      exact hf a s' hm
    | error e =>
      rw [exec_bind_error hexec]
      exact hm

theorem Keeps.get {f : σ → Action σ ε α} (h : ∀ s, I s → Keeps I (f s)) : Keeps I (MonadState.get >>= f) := by
  intro s hs
  rw [exec_bind (exec_get s)]
  exact h s hs s hs

theorem Keeps.mapM {δ : Type} {f : δ → Action σ ε α} (h : ∀ d, Keeps I (f d)) : ∀ places : List δ, Keeps I (places.mapM f)
  | [] => Keeps.pure []
  | d :: places => by
    rw [mapM_cons]
    exact (h d).bind fun a => (Keeps.mapM h places).bind fun l => Keeps.pure (a :: l)

end Keeps

section Follows

variable (R : σ → σ → Prop)

/-- Where the first action does not fail the second one does the same from a related state. -/
def Follows (m m' : Action σ ε α) : Prop :=
  ∀ s s' a s₁, R s s' → exec m s = (.ok a, s₁) → ∃ s₁', exec m' s' = (.ok a, s₁') ∧ R s₁ s₁'

variable {R}

theorem Follows.pure (a : α) : Follows R (pure a : Action σ ε α) (pure a) := by
  intro s s' b s₁ hs h
  cases h
  exact ⟨s', rfl, hs⟩

theorem Follows.throw (e : ε) (m' : Action σ ε α) : Follows R (throw e : Action σ ε α) m' := by
  intro s s' b s₁ hs h
  cases h

theorem Follows.bind {m m' : Action σ ε α} {f f' : α → Action σ ε γ} (h : Follows R m m') (hf : ∀ a, Follows R (f a) (f' a)) :
    Follows R (m >>= f) (m' >>= f') := by
  intro s s' c s₂ hs hexec
  cases hm : exec m s with
  | mk result s₁ =>
    cases result with
    | ok a =>
      rw [exec_bind hm] at hexec
      obtain ⟨s₁', hm', hs₁⟩ := h s s' a s₁ hs hm
      rw [exec_bind hm']
      exact hf a s₁ s₁' c s₂ hs₁ hexec
    | error e =>
      rw [exec_bind_error hm] at hexec
      cases hexec

theorem Follows.get {f f' : σ → Action σ ε α} (h : ∀ s s', R s s' → Follows R (f s) (f' s')) :
    Follows R (MonadState.get >>= f) (MonadState.get >>= f') := by
  intro s s' a s₁ hs hexec
  rw [exec_bind (exec_get s)] at hexec
  rw [exec_bind (exec_get s')]
  exact h s s' hs s s' a s₁ hs hexec

theorem Follows.mapM {δ : Type} {f f' : δ → Action σ ε α} (h : ∀ d, Follows R (f d) (f' d)) :
    ∀ places : List δ, Follows R (places.mapM f) (places.mapM f')
  | [] => Follows.pure []
  | d :: places => by
    rw [mapM_cons, mapM_cons]
    exact (h d).bind fun a => (Follows.mapM h places).bind fun l => Follows.pure (a :: l)

end Follows

end Action

end OpenMPI.Lib
