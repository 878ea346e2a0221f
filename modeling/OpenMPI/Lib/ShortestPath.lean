import Mathlib.Data.List.Nodup
import Mathlib.Order.Bounds.Basic

/-!
# Shortest paths

Steps between vertices have weights, and there may be many between two of them.  A vertex is settled after all that are not farther away, with
the weight of a least walk that goes over settled vertices (`Settling`), so that in the end that is its distance (`Settling.distance`).
-/

namespace OpenMPI.Lib

open List

variable {V : Type*} {E : V → V → ℕ → Prop} {s u v : V} {n w B : ℕ}

inductive Walk (E : V → V → ℕ → Prop) (s : V) : V → ℕ → Prop
  | refl : Walk E s s 0
  | step {u v : V} {n w : ℕ} (h : Walk E s u n) (hE : E u v w) : Walk E s v (n + w)

/-- A walk with the vertices it goes over, from its end on. -/
inductive Trail (E : V → V → ℕ → Prop) (s : V) : List V → V → ℕ → Prop
  | refl : Trail E s [s] s 0
  | step {l : List V} {u v : V} {n w : ℕ} (h : Trail E s l u n) (hE : E u v w) : Trail E s (v :: l) v (n + w)

/-- Paths that do not come to a vertex twice weigh less than `B`. -/
def Light (E : V → V → ℕ → Prop) (B : ℕ) : Prop := ∀ s l v n, Trail E s l v n → l.Nodup → n < B

/-- The least weight of a walk, or `B` if there is none. -/
structure IsDistance (E : V → V → ℕ → Prop) (B : ℕ) (s v : V) (d : ℕ) : Prop where
  least : ∀ n, Walk E s v n → IsLeast {n | Walk E s v n} d
  none : (∀ n, ¬Walk E s v n) → d = B

theorem Walk.mono {E' : V → V → ℕ → Prop} (hE : ∀ u v w, E u v w → E' u v w) (h : Walk E s v n) : Walk E' s v n := by
  induction h with
  | refl => exact .refl
  | step _ hstep ih => exact ih.step (hE _ _ _ hstep)

theorem Trail.walk {l : List V} (h : Trail E s l v n) : Walk E s v n := by
  induction h with
  | refl => exact .refl
  | step _ hE ih => exact ih.step hE

theorem Trail.mono {E' : V → V → ℕ → Prop} (hE : ∀ u v w, E u v w → E' u v w) {l : List V} (h : Trail E s l v n) : Trail E' s l v n := by
  induction h with
  | refl => exact .refl
  | step _ hstep ih => exact ih.step (hE _ _ _ hstep)

theorem Trail.cut {l : List V} (h : Trail E s l u n) (hv : v ∈ l) : ∃ l' m, Trail E s l' v m ∧ m ≤ n ∧ l' <:+ l := by
  induction h with
  | refl =>
    rw [mem_singleton.mp hv]
    exact ⟨[s], 0, .refl, le_rfl, suffix_refl _⟩
  | step h hE ih =>
    rcases mem_cons.mp hv with rfl | hv
    · exact ⟨_, _, h.step hE, le_rfl, suffix_refl _⟩
    · obtain ⟨l', m, htrail, hle, hsuffix⟩ := ih hv
      exact ⟨l', m, htrail, Nat.le_add_right_of_le hle, hsuffix.trans (suffix_cons _ _)⟩

theorem Walk.exists_trail [DecidableEq V] (h : Walk E s v n) : ∃ l m, Trail E s l v m ∧ l.Nodup ∧ m ≤ n := by
  induction h with
  | refl => exact ⟨[s], 0, .refl, nodup_singleton s, le_rfl⟩
  | @step u v n w h hE ih =>
    obtain ⟨l, m, htrail, hnodup, hle⟩ := ih
    by_cases hv : v ∈ l
    · obtain ⟨l', m', htrail', hle', hsuffix⟩ := htrail.cut hv
      exact ⟨l', m', htrail', hnodup.sublist hsuffix.sublist, by omega⟩
    · exact ⟨v :: l, m + w, htrail.step hE, nodup_cons.mpr ⟨hv, hnodup⟩, by omega⟩

theorem Light.exists_lt [DecidableEq V] (hlight : Light E B) (h : Walk E s v n) : ∃ m ≤ n, m < B ∧ Walk E s v m := by
  obtain ⟨l, m, htrail, hnodup, hle⟩ := h.exists_trail
  exact ⟨m, hle, hlight s l v m htrail hnodup, htrail.walk⟩

theorem Light.mono {E' : V → V → ℕ → Prop} (hE : ∀ u v w, E u v w → E' u v w) (h : Light E' B) : Light E B :=
  fun s l v n htrail hnodup => h s l v n (htrail.mono hE) hnodup

theorem Light.step_lt (h : Light E B) (hE : E u v w) (hne : u ≠ v) : w < B := by
  have := h u [v, u] v (0 + w) (Trail.refl.step hE) (by simp [hne.symm])
  omega

/-- The vertices that are settled and the others, with the weights of walks to them as far as these are less than `B`. -/
structure Settling (E : V → V → ℕ → Prop) (B : ℕ) (s : V) (done queue : List (V × ℕ)) : Prop where
  nodup : ((done ++ queue).map Prod.fst).Nodup
  walk : ∀ p ∈ done ++ queue, p.2 < B → Walk E s p.1 p.2
  le : ∀ p ∈ done ++ queue, p.2 ≤ B
  order : ∀ p ∈ done, ∀ q ∈ queue, p.2 ≤ q.2
  relaxed : ∀ p ∈ done, ∀ q ∈ done ++ queue, ∀ w, E p.1 q.1 w → p.2 + w < B → q.2 ≤ p.2 + w
  source : (s, 0) ∈ done ++ queue

/-- What becomes of the weight of a vertex where another one is settled. -/
structure Relaxes (E : V → V → ℕ → Prop) (B : ℕ) (p q q' : V × ℕ) : Prop where
  vertex : q'.1 = q.1
  weight : q'.2 = q.2 ∨ ∃ w, E p.1 q.1 w ∧ q'.2 = p.2 + w ∧ p.2 + w < q.2
  least : ∀ w, E p.1 q.1 w → p.2 + w < B → q'.2 ≤ p.2 + w

theorem Relaxes.le {p q q' : V × ℕ} (h : Relaxes E B p q q') : q'.2 ≤ q.2 := by
  rcases h.weight with heq | ⟨w, -, heq, hlt⟩
  · exact le_of_eq heq
  · omega

theorem Settling.settle {done queue queue' : List (V × ℕ)} {p : V × ℕ} (h : Settling E B s done (p :: queue))
    (hmin : ∀ q ∈ queue, p.2 ≤ q.2) {f : V × ℕ → V × ℕ} (hrelax : ∀ q ∈ queue, Relaxes E B p q (f q))
    (hperm : queue'.Perm (queue.map f)) : Settling E B s (done ++ [p]) queue' := by
  have hfrom : ∀ q' ∈ queue', ∃ q ∈ queue, q' = f q ∧ Relaxes E B p q q' := by
    intro q' hq'
    obtain ⟨q, hq, rfl⟩ := mem_map.mp (hperm.subset hq')
    exact ⟨q, hq, rfl, hrelax q hq⟩
  have hp : p ∈ done ++ p :: queue := mem_append_right _ mem_cons_self
  have hold : ∀ q ∈ queue, q ∈ done ++ p :: queue := fun q hq => mem_append_right _ (mem_cons_of_mem _ hq)
  have hdone : ∀ q ∈ done ++ [p], q ∈ done ++ p :: queue := by
    intro q hq
    rcases mem_append.mp hq with hq | hq
    · exact mem_append_left _ hq
    · exact mem_singleton.mp hq ▸ hp
  have hkeys : (queue'.map Prod.fst).Perm (queue.map Prod.fst) := by
    refine (hperm.map Prod.fst).trans (List.Perm.of_eq ?_)
    rw [map_map]
    exact map_congr_left fun q hq => (hrelax q hq).vertex
  refine ⟨?_, fun q hq hlt => ?_, fun q hq => ?_, fun q hq q' hq' => ?_, fun q hq q' hq' w hE hlt => ?_, ?_⟩
  · have hnodup := h.nodup
    rw [append_cons, map_append] at hnodup
    rw [map_append]
    exact ((List.Perm.append_left _ hkeys).nodup_iff).mpr hnodup
  · rcases mem_append.mp hq with hq | hq
    · exact h.walk q (hdone q hq) hlt
    · obtain ⟨q, hq, -, hrel⟩ := hfrom _ hq
      rcases hrel.weight with heq | ⟨w, hE, heq, hless⟩
      · rw [hrel.vertex, heq]
        exact h.walk q (hold q hq) (heq ▸ hlt)
      · rw [hrel.vertex, heq]
        exact (h.walk p hp (by omega)).step hE
  · rcases mem_append.mp hq with hq | hq
    · exact h.le q (hdone q hq)
    · obtain ⟨q, hq, -, hrel⟩ := hfrom _ hq
      exact hrel.le.trans (h.le q (hold q hq))
  · obtain ⟨q₀, hq₀, -, hrel⟩ := hfrom _ hq'
    have hless : q.2 ≤ p.2 := by
      rcases mem_append.mp hq with hq | hq
      · exact h.order q hq p mem_cons_self
      · exact le_of_eq (congrArg Prod.snd (mem_singleton.mp hq))
    have := hmin q₀ hq₀
    rcases hrel.weight with heq | ⟨w, -, heq, -⟩
    · omega
    · omega
  · have hbefore : ∀ q₀ ∈ done ++ p :: queue, q ∈ done → E q.1 q₀.1 w → q₀.2 ≤ q.2 + w :=
      fun q₀ hq₀ hq hE => h.relaxed q hq q₀ hq₀ w hE hlt
    rcases mem_append.mp hq with hq | hq
    · rcases mem_append.mp hq' with hq' | hq'
      · exact hbefore q' (hdone q' hq') hq hE
      · obtain ⟨q₀, hq₀, -, hrel⟩ := hfrom _ hq'
        exact hrel.le.trans (hbefore q₀ (hold q₀ hq₀) hq (hrel.vertex ▸ hE))
    · rw [mem_singleton.mp hq] at hE hlt ⊢
      rcases mem_append.mp hq' with hq' | hq'
      · -- what is settled already is no farther away
        rcases mem_append.mp hq' with hq' | hq'
        · exact (h.order q' hq' p mem_cons_self).trans (Nat.le_add_right _ _)
        · rw [mem_singleton.mp hq']
          exact Nat.le_add_right _ _
      · obtain ⟨q₀, hq₀, -, hrel⟩ := hfrom _ hq'
        exact hrel.least w (hrel.vertex ▸ hE) hlt
  · rcases mem_append.mp h.source with hs | hs
    · exact mem_append_left _ (mem_append_left _ hs)
    · rcases mem_cons.mp hs with rfl | hs
      · exact mem_append_left _ (mem_append_right _ (mem_singleton_self _))
      · have hrel := hrelax _ hs
        have heq : f (s, 0) = (s, 0) := Prod.ext hrel.vertex (Nat.le_zero.mp hrel.le)
        exact mem_append_right _ (hperm.symm.subset (mem_map.mpr ⟨_, hs, heq⟩))

theorem Settling.le_walk {done : List (V × ℕ)} (h : Settling E B s done []) (hstarts : ∀ u v w, E u v w → u ∈ done.map Prod.fst)
    (hwalk : Walk E s v n) : ∀ d, (v, d) ∈ done → d ≤ n ∨ B ≤ n := by
  have hunique : ∀ v d d', (v, d) ∈ done → (v, d') ∈ done → d = d' := by
    intro v d d' hd hd'
    have hnodup := h.nodup
    rw [append_nil] at hnodup
    exact congrArg Prod.snd (inj_on_of_nodup_map hnodup hd hd' rfl)
  induction hwalk with
  | refl =>
    intro d hd
    have hsource := h.source
    rw [append_nil] at hsource
    exact .inl (le_of_eq (hunique _ _ _ hd hsource))
  | @step u v n w hwalk hE ih =>
    intro d hd
    obtain ⟨⟨u', d'⟩, hd', hu⟩ := mem_map.mp (hstarts u v w hE)
    dsimp only at hu
    subst hu
    rcases ih d' hd' with hle | hle
    · rcases lt_or_ge (d' + w) B with hlt | hge
      · have := h.relaxed _ hd' _ (mem_append_left [] hd) w hE hlt
        dsimp only at this
        omega
      · omega
    · omega

theorem Settling.distance [DecidableEq V] {done : List (V × ℕ)} (h : Settling E B s done []) (hlight : Light E B)
    (hstarts : ∀ u v w, E u v w → u ∈ done.map Prod.fst) {d : ℕ} (hd : (v, d) ∈ done) : IsDistance E B s v d where
  least n hn := by
    obtain ⟨m, -, hlt, hm⟩ := hlight.exists_lt hn
    have hdm : d ≤ m := by
      rcases h.le_walk hstarts hm d hd with hle | hle
      · exact hle
      · omega
    refine ⟨h.walk _ (mem_append_left [] hd) (by dsimp only; omega), fun n' hn' => ?_⟩
    rcases h.le_walk hstarts hn' d hd with hle | hle
    · exact hle
    · omega
  none hnone := by
    rcases lt_or_ge d B with hlt | hge
    · exact absurd (h.walk _ (mem_append_left [] hd) hlt) (hnone d)
    · exact le_antisymm (h.le _ (mem_append_left [] hd)) hge

end OpenMPI.Lib
