import Mathlib.Algebra.Order.BigOperators.Group.Finset
import Mathlib.Data.Fintype.BigOperators
import OpenMPI.Lib.Run

/-!
# Parties that meet in collective operations

A party gives a value to one collective operation after the other and goes on with the results.  The
operations put the parties in step: whatever the order of the steps, a party that has left `r`
operations is in the state that it has after `r` operations which all the parties take at once (`lock`).

Either one group takes an operation, or two groups whose leaders exchange what they have of the other
group's values.
-/

namespace OpenMPI.Lib

open Finset Function

/-- What a party gives to its next operation, if there is one, and how it goes on with the result. -/
structure Party (σ ω α : Type*) where
  offer : σ → Option (ω × α)
  resume : σ → α → σ

/-- The parties on their way: the operations they have left and the values they have given. -/
structure Net (P σ α : Type*) where
  state : P → σ
  left : P → ℕ
  entered : P → List α

namespace Net

variable {P σ ω α : Type*} [DecidableEq P]

def start (init : P → σ) : Net P σ α := ⟨init, fun _ => 0, fun _ => []⟩

def enter (n : Net P σ α) (p : P) (v : α) : Net P σ α :=
  { n with entered := Function.update n.entered p (n.entered p ++ [v]) }

def leave (n : Net P σ α) (p : P) (s : σ) : Net P σ α :=
  { n with
    state := Function.update n.state p s
    left := Function.update n.left p (n.left p + 1) }

end Net

section Lock

variable {P σ ω α : Type*} [Inhabited α] (party : Party σ ω α) (total : ω → (P → α) → α) (ops : ℕ → ω)
  (init : P → σ)

def Party.value (s : σ) : α := ((party.offer s).map Prod.snd).getD default

/-- The states after `r` operations that all the parties take at once. -/
def lock : ℕ → P → σ
  | 0 => init
  | r + 1 => fun p => party.resume (lock r p) (total (ops r) fun q => party.value (lock r q))

/-- All the parties take `k` operations, which are the same for all of them, and no more. -/
structure InStep (k : ℕ) : Prop where
  offer : ∀ r < k, ∀ p, ∃ v, party.offer (lock party total ops init r p) = some (ops r, v)
  done : ∀ p, party.offer (lock party total ops init k p) = none

/-- The parties are in the states of `lock`, with the values given that they give there, and none has
left an operation that another one has not entered. -/
structure Synced (k : ℕ) (n : Net P σ α) : Prop where
  state : ∀ p, n.state p = lock party total ops init (n.left p) p
  entered : ∀ p, n.entered p = (List.range (n.entered p).length).map fun r =>
    party.value (lock party total ops init r p)
  near : ∀ p, (n.entered p).length = n.left p ∨ (n.entered p).length = n.left p + 1
  le : ∀ p, (n.entered p).length ≤ k
  all : ∀ p q, n.left p ≤ (n.entered q).length

end Lock

section Synced

variable {P σ ω α : Type*} [Inhabited α] {party : Party σ ω α} {total : ω → (P → α) → α} {ops : ℕ → ω}
  {init : P → σ} {k : ℕ} {n : Net P σ α} {p : P} {o : ω} {v : α}

theorem synced_start : Synced party total ops init k (Net.start init) :=
  ⟨fun _ => rfl, fun _ => rfl, fun _ => .inl rfl, fun _ => Nat.zero_le _, fun _ _ => Nat.le_refl _⟩

section

variable (h : Synced party total ops init k n)

include h

theorem Synced.left_le (p : P) : n.left p ≤ k := by
  have := h.near p
  have := h.le p
  omega

section

variable (hstep : InStep party total ops init k)

include hstep

theorem Synced.offer (hlt : n.left p < k) :
    party.offer (n.state p)
      = some (ops (n.left p), party.value (lock party total ops init (n.left p) p)) := by
  obtain ⟨v, hv⟩ := hstep.offer _ hlt p
  rw [h.state, hv, Party.value, hv]
  rfl

theorem Synced.left_lt (hoffer : party.offer (n.state p) = some (o, v)) : n.left p < k := by
  rcases lt_or_ge (n.left p) k with hlt | hge
  · exact hlt
  · have heq : n.left p = k := by
      have := h.left_le p
      omega
    rw [h.state, heq, hstep.done] at hoffer
    cases hoffer

theorem Synced.offer_eq (hoffer : party.offer (n.state p) = some (o, v)) :
    o = ops (n.left p) ∧ v = party.value (lock party total ops init (n.left p) p) := by
  rw [h.offer hstep (h.left_lt hstep hoffer)] at hoffer
  cases hoffer
  exact ⟨rfl, rfl⟩

end

theorem Synced.getElem?_entered {r : ℕ}
    (hentered : (n.entered p)[r]? = some v) : v = party.value (lock party total ops init r p) := by
  have hlt : r < (n.entered p).length := (List.getElem?_eq_some_iff.mp hentered).1
  rw [h.entered p, List.getElem?_map, List.getElem?_range hlt] at hentered
  exact (Option.some.inj hentered).symm

end

variable [DecidableEq P]

theorem Synced.enter (h : Synced party total ops init k n) (hstep : InStep party total ops init k)
    (hoffer : party.offer (n.state p) = some (o, v)) (hlen : (n.entered p).length = n.left p) :
    Synced party total ops init k (n.enter p v) := by
  have hlt := h.left_lt hstep hoffer
  obtain ⟨-, rfl⟩ := h.offer_eq hstep hoffer
  have hother (q : P) (hq : q ≠ p) :
      (n.enter p (party.value (lock party total ops init (n.left p) p))).entered q = n.entered q :=
    update_of_ne hq ..
  have hself : (n.enter p (party.value (lock party total ops init (n.left p) p))).entered p
      = n.entered p ++ [party.value (lock party total ops init (n.left p) p)] :=
    update_self ..
  have hlength : ((n.enter p (party.value (lock party total ops init (n.left p) p))).entered p).length
      = n.left p + 1 := by
    rw [hself, List.length_append, List.length_singleton, hlen]
  refine ⟨h.state, fun q => ?_, fun q => ?_, fun q => ?_, fun q r => ?_⟩
  · rcases eq_or_ne q p with rfl | hq
    · rw [hlength, hself, h.entered q, hlen, List.range_succ, List.map_append]
      simp
    · rw [hother q hq]
      exact h.entered q
  · rcases eq_or_ne q p with rfl | hq
    · exact .inr hlength
    · rw [hother q hq]
      exact h.near q
  · rcases eq_or_ne q p with rfl | hq
    · omega
    · rw [hother q hq]
      exact h.le q
  · rcases eq_or_ne r p with rfl | hr
    · have := h.all q r
      show n.left q ≤ _
      omega
    · rw [hother r hr]
      exact h.all q r

theorem Synced.leave (h : Synced party total ops init k n)
    (hlen : (n.entered p).length = n.left p + 1) (hall : ∀ q, n.left p < (n.entered q).length) :
    Synced party total ops init k (n.leave p (party.resume (n.state p)
      (total (ops (n.left p)) fun q => party.value (lock party total ops init (n.left p) q)))) := by
  generalize hs : party.resume (n.state p)
    (total (ops (n.left p)) fun q => party.value (lock party total ops init (n.left p) q)) = s
  have hleft (q : P) : (n.leave p s).left q = if q = p then n.left p + 1 else n.left q :=
    Function.update_apply ..
  have hstate (q : P) : (n.leave p s).state q = if q = p then s else n.state q :=
    Function.update_apply ..
  refine ⟨fun q => ?_, h.entered, fun q => ?_, h.le, fun q r => ?_⟩
  · rw [hleft, hstate]
    split_ifs with hq
    · rw [← hs, h.state p, hq]
      rfl
    · exact h.state q
  · rw [hleft]
    split_ifs with hq
    · exact .inl (hq ▸ hlen)
    · exact h.near q
  · rw [hleft]
    split_ifs with hq
    · exact hall r
    · exact h.all q r

end Synced

section Intra

variable {P σ ω α : Type*} [DecidableEq P] [Inhabited α]

/-- A party enters its next operation or leaves it. -/
inductive Move (P : Type*)
  | enter (p : P)
  | leave (p : P)

/-- An operation is left by a party once all have entered it. -/
def intra (party : Party σ ω α) (total : ω → (P → α) → α) (init : P → σ) :
    System (Net P σ α) (Move P) where
  init n := n = .start init
  step n
    | .enter p, n' => ∃ o v, party.offer (n.state p) = some (o, v) ∧
      (n.entered p).length = n.left p ∧ n' = n.enter p v
    | .leave p, n' => ∃ o v vs, party.offer (n.state p) = some (o, v) ∧
      (n.entered p).length = n.left p + 1 ∧ (∀ q, (n.entered q)[n.left p]? = some (vs q)) ∧
      n' = n.leave p (party.resume (n.state p) (total o vs))

variable {party : Party σ ω α} {total : ω → (P → α) → α} {ops : ℕ → ω} {init : P → σ} {k : ℕ}
  {n n' : Net P σ α}

theorem intra_synced (hstep : InStep party total ops init k) (e : Move P)
    (h : Synced party total ops init k n) (hs : (intra party total init).step n e n') :
    Synced party total ops init k n' := by
  cases e with
  | enter p =>
    obtain ⟨o, v, hoffer, hlen, rfl⟩ := hs
    exact h.enter hstep hoffer hlen
  | leave p =>
    obtain ⟨o, v, vs, hoffer, hlen, hvs, rfl⟩ := hs
    obtain ⟨rfl, -⟩ := h.offer_eq hstep hoffer
    have hvalues : vs = fun q => party.value (lock party total ops init (n.left p) q) :=
      funext fun q => h.getElem?_entered (hvs q)
    rw [hvalues]
    exact h.leave hlen fun q => (List.getElem?_eq_some_iff.mp (hvs q)).1

theorem intra_goes_on (hstep : InStep party total ops init k) (h : Synced party total ops init k n)
    (p : P) (hlt : n.left p < k) : ∃ e n', (intra party total init).step n e n' := by
  induction hp : n.left p using Nat.strong_induction_on generalizing p with
  | _ r ih =>
    subst hp
    rcases h.near p with hlen | hlen
    · exact ⟨.enter p, _, _, _, h.offer hstep hlt, hlen, rfl⟩
    rcases Classical.em (∀ q, n.left p < (n.entered q).length) with hall | hsome
    · refine ⟨.leave p, _, _, _, fun q => (n.entered q).get ⟨n.left p, hall q⟩, h.offer hstep hlt,
        hlen, fun q => List.getElem?_eq_getElem (hall q), rfl⟩
    · -- a party that has not entered the operation has this to do, or one before it
      obtain ⟨q, hq⟩ := Classical.not_forall.mp hsome
      have hle := h.all p q
      rcases h.near q with hq' | hq'
      · exact ⟨.enter q, _, _, _, h.offer hstep (by omega), hq', rfl⟩
      · exact ih (n.left q) (by omega) q (by omega) rfl

variable [Fintype P]

def Net.steps (n : Net P σ α) : ℕ := ∑ p, (n.left p + (n.entered p).length)

theorem sum_bump {f g : P → ℕ} {p : P} (h : ∀ q, g q = if q = p then f q + 1 else f q) :
    ∑ q, g q = ∑ q, f q + 1 := by
  have hg : g = fun q => f q + if q = p then 1 else 0 := by
    funext q
    rw [h q]
    split_ifs <;> rfl
  rw [hg, sum_add_distrib, sum_ite_eq' univ p, if_pos (mem_univ p)]

omit [Inhabited α] in
theorem Net.steps_enter (n : Net P σ α) (p : P) (v : α) : (n.enter p v).steps = n.steps + 1 := by
  refine sum_bump (p := p) fun q => ?_
  show n.left q + (Function.update n.entered p (n.entered p ++ [v]) q).length = _
  rw [Function.update_apply]
  split_ifs with hq
  · rw [hq, List.length_append, List.length_singleton, add_assoc]
  · rfl

omit [Inhabited α] in
theorem Net.steps_leave (n : Net P σ α) (p : P) (s : σ) : (n.leave p s).steps = n.steps + 1 := by
  refine sum_bump (p := p) fun q => ?_
  show Function.update n.left p (n.left p + 1) q + (n.entered q).length = _
  rw [Function.update_apply]
  split_ifs with hq
  · rw [hq]
    omega
  · rfl

omit [DecidableEq P] in
theorem Synced.steps_le (h : Synced party total ops init k n) :
    n.steps ≤ Fintype.card P * (2 * k) := by
  refine (sum_le_card_nsmul univ _ (2 * k) fun p _ => ?_).trans (le_of_eq ?_)
  · have := h.left_le p
    have := h.le p
    omega
  · rw [card_univ, Nat.nsmul_eq_mul]

omit [Inhabited α] in
theorem intra_steps {e : Move P} (hs : (intra party total init).step n e n') :
    n'.steps = n.steps + 1 := by
  cases e with
  | enter p =>
    obtain ⟨o, v, -, -, rfl⟩ := hs
    exact n.steps_enter p v
  | leave p =>
    obtain ⟨o, v, vs, -, -, -, rfl⟩ := hs
    exact n.steps_leave p _

omit [DecidableEq P] [Inhabited α] in
theorem Net.steps_start (init : P → σ) : (Net.start init : Net P σ α).steps = 0 :=
  sum_eq_zero fun _ _ => rfl

theorem intra_run (hstep : InStep party total ops init k) {es : List (Move P)}
    (hrun : (intra party total init).Run (.start init) es n) :
    Synced party total ops init k n ∧ es.length ≤ Fintype.card P * (2 * k) ∧
      ((∀ p, n.left p = k) ∨ ∃ e n', (intra party total init).step n e n') := by
  have hsynced := hrun.invariant (fun _ e _ h hs => intra_synced hstep e h hs) synced_start
  have hlength := hrun.count fun _ _ _ hs => intra_steps hs
  rw [Net.steps_start, zero_add] at hlength
  refine ⟨hsynced, hlength ▸ hsynced.steps_le, ?_⟩
  rcases Classical.em (∀ p, n.left p = k) with hall | hsome
  · exact .inl hall
  · obtain ⟨p, hp⟩ := Classical.not_forall.mp hsome
    have := hsynced.left_le p
    exact .inr (intra_goes_on hstep hsynced p (by omega))

end Intra

section Inter

variable {P σ ω α : Type*} [DecidableEq P] [Inhabited α]

/-- Two groups of parties, their leaders, and an operation over one group and for two results. -/
structure Groups (P ω α : Type*) where
  group : P → Bool
  leader : Bool → P
  reduce : ω → Bool → (P → α) → α
  combine : ω → α → α → α
  leader_mem : ∀ g, group (leader g) = g
  reduce_congr : ∀ o g vs vs', (∀ q, group q = g → vs q = vs' q) → reduce o g vs = reduce o g vs'
  combine_comm : ∀ o a b, combine o a b = combine o b a

def Groups.total (G : Groups P ω α) (o : ω) (vs : P → α) : α :=
  G.combine o (G.reduce o false vs) (G.reduce o true vs)

/-- The parties, the results over the other group that each leader has told the other one, and the
results over both groups that it has given to its parties' last step. -/
structure InterNet (P σ α : Type*) extends Net P σ α where
  told : Bool → List α
  overall : Bool → List α

namespace InterNet

def start (init : P → σ) : InterNet P σ α := ⟨.start init, fun _ => [], fun _ => []⟩

def tell (n : InterNet P σ α) (g : Bool) (a : α) : InterNet P σ α :=
  { n with told := Function.update n.told g (n.told g ++ [a]) }

def combine (n : InterNet P σ α) (g : Bool) (a : α) : InterNet P σ α :=
  { n with overall := Function.update n.overall g (n.overall g ++ [a]) }

end InterNet

inductive InterMove (P : Type*)
  | enter (p : P)
  | tell (g : Bool)
  | combine (g : Bool)
  | leave (p : P)

/-- A leader tells the other one the result over the other group, once that has entered, puts the two
results together, and gives the overall one to the other group. -/
def inter (party : Party σ ω α) (G : Groups P ω α) (init : P → σ) :
    System (InterNet P σ α) (InterMove P) where
  init n := n = .start init
  step n
    | .enter p, n' => ∃ o v, party.offer (n.state p) = some (o, v) ∧
      (n.entered p).length = n.left p ∧ n' = { n with toNet := n.toNet.enter p v }
    | .tell g, n' => ∃ o v vs, party.offer (n.state (G.leader g)) = some (o, v) ∧
      (n.entered (G.leader g)).length = n.left (G.leader g) + 1 ∧
      (n.told g).length = n.left (G.leader g) ∧
      (∀ q, G.group q = !g → (n.entered q)[n.left (G.leader g)]? = some (vs q)) ∧
      n' = n.tell g (G.reduce o (!g) vs)
    | .combine g, n' => ∃ o v a b, party.offer (n.state (G.leader g)) = some (o, v) ∧
      (n.overall g).length = n.left (G.leader g) ∧
      (n.told g)[n.left (G.leader g)]? = some a ∧ (n.told !g)[n.left (G.leader g)]? = some b ∧
      n' = n.combine g (G.combine o a b)
    | .leave p, n' => ∃ o v a, party.offer (n.state p) = some (o, v) ∧
      (n.entered p).length = n.left p + 1 ∧ (n.overall !(G.group p))[n.left p]? = some a ∧
      (p = G.leader (G.group p) → (n.overall (G.group p)).length = n.left p + 1) ∧
      n' = { n with toNet := n.toNet.leave p (party.resume (n.state p) a) }

/-- The parties are in step, and the leaders have told and put together the results over the values
of `lock`. -/
structure InterSynced (party : Party σ ω α) (G : Groups P ω α) (ops : ℕ → ω) (init : P → σ) (k : ℕ)
    (n : InterNet P σ α) : Prop where
  synced : Synced party G.total ops init k n.toNet
  told : ∀ g, n.told g = (List.range (n.told g).length).map fun r =>
    G.reduce (ops r) (!g) fun q => party.value (lock party G.total ops init r q)
  overall : ∀ g, n.overall g = (List.range (n.overall g).length).map fun r =>
    G.total (ops r) fun q => party.value (lock party G.total ops init r q)
  reach : ∀ g, n.left (G.leader g) ≤ (n.overall g).length ∧
    (n.overall g).length ≤ (n.told g).length ∧
    (n.told g).length ≤ (n.entered (G.leader g)).length
  others : ∀ g q, G.group q = !g → (n.told g).length ≤ (n.entered q).length
  both : ∀ g g', (n.overall g).length ≤ (n.told g').length
  given : ∀ p, n.left p ≤ (n.overall !(G.group p)).length

variable {party : Party σ ω α} {G : Groups P ω α} {ops : ℕ → ω} {init : P → σ} {k : ℕ}
  {n n' : InterNet P σ α} {g : Bool} {r : ℕ} {a : α}

omit [DecidableEq P] in
theorem interSynced_start : InterSynced party G ops init k (.start init) :=
  ⟨synced_start, fun _ => rfl, fun _ => rfl, fun _ => ⟨le_rfl, le_rfl, le_rfl⟩,
    fun _ _ _ => le_rfl, fun _ _ => le_rfl, fun _ => le_rfl⟩

omit [DecidableEq P] in
theorem InterSynced.getElem?_told (h : InterSynced party G ops init k n) (hr : (n.told g)[r]? = some a) :
    a = G.reduce (ops r) (!g) fun q => party.value (lock party G.total ops init r q) := by
  have hlt : r < (n.told g).length := (List.getElem?_eq_some_iff.mp hr).1
  rw [h.told g, List.getElem?_map, List.getElem?_range hlt] at hr
  exact (Option.some.inj hr).symm

omit [DecidableEq P] in
theorem InterSynced.getElem?_overall (h : InterSynced party G ops init k n)
    (hr : (n.overall g)[r]? = some a) :
    a = G.total (ops r) fun q => party.value (lock party G.total ops init r q) := by
  have hlt : r < (n.overall g).length := (List.getElem?_eq_some_iff.mp hr).1
  rw [h.overall g, List.getElem?_map, List.getElem?_range hlt] at hr
  exact (Option.some.inj hr).symm

omit [Inhabited α] in
theorem map_range_concat {f : ℕ → α} {l : List α} (hl : l = (List.range l.length).map f) (ha : a = f l.length) :
    l ++ [a] = (List.range (l ++ [a]).length).map f := by
  rw [List.length_append, List.length_singleton, List.range_succ, List.map_append, ← hl, ha]
  rfl

theorem inter_synced (hstep : InStep party G.total ops init k) (e : InterMove P)
    (h : InterSynced party G ops init k n) (hs : (inter party G init).step n e n') :
    InterSynced party G ops init k n' := by
  cases e with
  | enter p =>
    obtain ⟨o, v, hoffer, hlen, rfl⟩ := hs
    have hlonger (q : P) : (n.entered q).length ≤ ((n.toNet.enter p v).entered q).length := by
      show _ ≤ (Function.update n.entered p (n.entered p ++ [v]) q).length
      rw [Function.update_apply]
      split_ifs with hq
      · rw [hq, List.length_append]
        omega
      · exact le_rfl
    refine ⟨h.synced.enter hstep hoffer hlen, h.told, h.overall, fun g => ?_, fun g q hq => ?_, h.both,
      h.given⟩
    · have hreach := h.reach g
      exact ⟨hreach.1, hreach.2.1, hreach.2.2.trans (hlonger _)⟩
    · exact (h.others g q hq).trans (hlonger q)
  | tell g =>
    obtain ⟨o, v, vs, hoffer, hlen, htold, hvs, rfl⟩ := hs
    obtain ⟨rfl, -⟩ := h.synced.offer_eq hstep hoffer
    have hself : (n.tell g (G.reduce (ops (n.left (G.leader g))) (!g) vs)).told g = n.told g ++ [_] :=
      update_self ..
    have hother (g' : Bool) (hg : g' ≠ g) :
        (n.tell g (G.reduce (ops (n.left (G.leader g))) (!g) vs)).told g' = n.told g' :=
      update_of_ne hg ..
    have hreach := h.reach g
    have hlonger (g' : Bool) : (n.told g').length
        ≤ ((n.tell g (G.reduce (ops (n.left (G.leader g))) (!g) vs)).told g').length := by
      rcases eq_or_ne g' g with rfl | hg
      · rw [hself, List.length_append]
        omega
      · rw [hother g' hg]
    refine ⟨h.synced, fun g' => ?_, h.overall, fun g' => ?_, fun g' q hq => ?_,
      fun g₁ g₂ => (h.both g₁ g₂).trans (hlonger g₂), h.given⟩
    · rcases eq_or_ne g' g with rfl | hg
      · rw [hself]
        refine map_range_concat (h.told g') ?_
        rw [htold]
        exact G.reduce_congr _ _ _ _ fun q hq => h.synced.getElem?_entered (hvs q hq)
      · rw [hother g' hg]
        exact h.told g'
    · have hreach' := h.reach g'
      refine ⟨hreach'.1, hreach'.2.1.trans (hlonger g'), ?_⟩
      rcases eq_or_ne g' g with rfl | hg
      · rw [hself, List.length_append, List.length_singleton]
        show _ ≤ (n.entered _).length
        omega
      · rw [hother g' hg]
        exact hreach'.2.2
    · rcases eq_or_ne g' g with rfl | hg
      · have := (List.getElem?_eq_some_iff.mp (hvs q hq)).1
        rw [hself, List.length_append, List.length_singleton]
        show _ ≤ (n.entered _).length
        omega
      · rw [hother g' hg]
        exact h.others g' q hq
  | combine g =>
    obtain ⟨o, v, a, b, hoffer, hlen, ha, hb, rfl⟩ := hs
    obtain ⟨rfl, -⟩ := h.synced.offer_eq hstep hoffer
    have hself : (n.combine g (G.combine (ops (n.left (G.leader g))) a b)).overall g
        = n.overall g ++ [_] := update_self ..
    have hother (g' : Bool) (hg : g' ≠ g) :
        (n.combine g (G.combine (ops (n.left (G.leader g))) a b)).overall g' = n.overall g' :=
      update_of_ne hg ..
    have hlonger (g' : Bool) : (n.overall g').length
        ≤ ((n.combine g (G.combine (ops (n.left (G.leader g))) a b)).overall g').length := by
      rcases eq_or_ne g' g with rfl | hg
      · rw [hself, List.length_append]
        omega
      · rw [hother g' hg]
    have ha' := (List.getElem?_eq_some_iff.mp ha).1
    have hb' := (List.getElem?_eq_some_iff.mp hb).1
    have hshort (g' : Bool) : ((n.combine g (G.combine (ops (n.left (G.leader g))) a b)).overall g).length
        ≤ (n.told g').length := by
      rw [hself, List.length_append, List.length_singleton]
      rcases Bool.eq_or_eq_not g' g with rfl | rfl
      · omega
      · omega
    refine ⟨h.synced, h.told, fun g' => ?_, fun g' => ?_, h.others, fun g₁ g₂ => ?_,
      fun p => (h.given p).trans (hlonger _)⟩
    · rcases eq_or_ne g' g with rfl | hg
      · rw [hself]
        refine map_range_concat (h.overall g') ?_
        rw [hlen, h.getElem?_told ha, h.getElem?_told hb]
        cases g'
        · exact G.combine_comm ..
        · rfl
      · rw [hother g' hg]
        exact h.overall g'
    · have hreach := h.reach g'
      refine ⟨hreach.1.trans (hlonger g'), ?_, hreach.2.2⟩
      rcases eq_or_ne g' g with rfl | hg
      · exact hshort g'
      · rw [hother g' hg]
        exact hreach.2.1
    · rcases eq_or_ne g₁ g with rfl | hg
      · exact hshort g₂
      · rw [hother g₁ hg]
        exact h.both g₁ g₂
  | leave p =>
    obtain ⟨o, v, a, hoffer, hlen, ha, hleader, rfl⟩ := hs
    obtain rfl := h.getElem?_overall ha
    have hlt := (List.getElem?_eq_some_iff.mp ha).1
    have hall (q : P) : n.left p < (n.entered q).length := by
      have htold := h.both (!(G.group p)) (!(G.group q))
      have := h.others (!(G.group q)) q (by rw [Bool.not_not])
      omega
    have hleft (q : P) : (n.toNet.leave p (party.resume (n.state p) (G.total (ops (n.left p)) fun q =>
        party.value (lock party G.total ops init (n.left p) q)))).left q
          = if q = p then n.left p + 1 else n.left q := Function.update_apply ..
    refine ⟨h.synced.leave hlen hall, h.told, h.overall, fun g => ?_, h.others, h.both, fun q => ?_⟩
    · have hreach := h.reach g
      refine ⟨?_, hreach.2⟩
      show (n.toNet.leave p _).left (G.leader g) ≤ _
      rw [hleft]
      split_ifs with hq
      · have hg : G.group p = g := hq ▸ G.leader_mem g
        rw [← hg]
        exact le_of_eq (hleader (by rw [hg, hq])).symm
      · exact hreach.1
    · show (n.toNet.leave p _).left q ≤ (n.overall _).length
      rw [hleft]
      split_ifs with hq
      · rw [hq]
        exact hlt
      · exact h.given q

theorem inter_goes_on (hstep : InStep party G.total ops init k) (h : InterSynced party G ops init k n)
    (p : P) (hlt : n.left p < k) : ∃ e n', (inter party G init).step n e n' := by
  induction hp : n.left p using Nat.strong_induction_on generalizing p with
  | _ r ih =>
    subst hp
    rcases h.synced.near p with hlen | hlen
    · exact ⟨.enter p, _, _, _, h.synced.offer hstep hlt, hlen, rfl⟩
    rcases Classical.em (∀ q, n.left p < (n.entered q).length) with hall | hsome
    case inr =>
      -- a party that has not entered the operation has this to do, or one before it
      obtain ⟨q, hq⟩ := Classical.not_forall.mp hsome
      have hle := h.synced.all p q
      rcases h.synced.near q with hq' | hq'
      · exact ⟨.enter q, _, _, _, h.synced.offer hstep (by omega), hq', rfl⟩
      · exact ih (n.left q) (by omega) q (by omega) rfl
    rcases Classical.em (∀ g, n.left p < (n.told g).length) with htold | hsome
    case inr =>
      obtain ⟨g, hg⟩ := Classical.not_forall.mp hsome
      obtain ⟨h₁, h₂, h₃⟩ := h.reach g
      rcases lt_or_ge (n.left (G.leader g)) (n.left p) with hl | hl
      · exact ih _ hl (G.leader g) (by omega) rfl
      · have hleader : n.left (G.leader g) = n.left p := by omega
        have hentered := hall (G.leader g)
        refine ⟨.tell g, _, _, _, fun q => (n.entered q).get ⟨n.left p, hall q⟩,
          h.synced.offer hstep (by omega), ?_, by omega, fun q _ => ?_, rfl⟩
        · rcases h.synced.near (G.leader g) with hn | hn
          · omega
          · exact hn
        · rw [hleader]
          exact List.getElem?_eq_getElem (hall q)
    rcases Classical.em (∀ g, n.left p < (n.overall g).length) with hoverall | hsome
    case inr =>
      obtain ⟨g, hg⟩ := Classical.not_forall.mp hsome
      have hreach := (h.reach g).1
      rcases lt_or_ge (n.left (G.leader g)) (n.left p) with hl | hl
      · exact ih _ hl (G.leader g) (by omega) rfl
      · have hleader : n.left (G.leader g) = n.left p := by omega
        refine ⟨.combine g, _, _, _, (n.told g).get ⟨n.left p, htold g⟩,
          (n.told !g).get ⟨n.left p, htold !g⟩, h.synced.offer hstep (by omega), by omega, ?_, ?_, rfl⟩
        · rw [hleader]
          exact List.getElem?_eq_getElem (htold g)
        · rw [hleader]
          exact List.getElem?_eq_getElem (htold !g)
    refine ⟨.leave p, _, _, _, (n.overall !(G.group p)).get ⟨n.left p, hoverall _⟩,
      h.synced.offer hstep hlt, hlen, List.getElem?_eq_getElem (hoverall _), fun hl => ?_, rfl⟩
    have hreach := h.reach (G.group p)
    rw [← hl] at hreach
    have := hoverall (G.group p)
    omega

variable [Fintype P]

def InterNet.steps (n : InterNet P σ α) : ℕ :=
  n.toNet.steps + ∑ g, ((n.told g).length + (n.overall g).length)

omit [Inhabited α] in
theorem inter_steps {e : InterMove P} (hs : (inter party G init).step n e n') :
    n'.steps = n.steps + 1 := by
  cases e with
  | enter p =>
    obtain ⟨o, v, -, -, rfl⟩ := hs
    show (n.toNet.enter p v).steps + _ = _
    rw [n.toNet.steps_enter]
    exact add_right_comm ..
  | tell g =>
    obtain ⟨o, v, vs, -, -, -, -, rfl⟩ := hs
    refine congrArg (n.toNet.steps + ·) (sum_bump (p := g) fun g' => ?_)
    show (Function.update n.told g (n.told g ++ [_]) g').length + (n.overall g').length = _
    rw [Function.update_apply]
    split_ifs with hg
    · rw [hg, List.length_append, List.length_singleton]
      omega
    · rfl
  | combine g =>
    obtain ⟨o, v, a, b, -, -, -, -, rfl⟩ := hs
    refine congrArg (n.toNet.steps + ·) (sum_bump (p := g) fun g' => ?_)
    show (n.told g').length + (Function.update n.overall g (n.overall g ++ [_]) g').length = _
    rw [Function.update_apply]
    split_ifs with hg
    · rw [hg, List.length_append, List.length_singleton]
      omega
    · rfl
  | leave p =>
    obtain ⟨o, v, a, -, -, -, -, rfl⟩ := hs
    show (n.toNet.leave p _).steps + _ = _
    rw [n.toNet.steps_leave]
    exact add_right_comm ..

theorem inter_run (hstep : InStep party G.total ops init k) {es : List (InterMove P)}
    (hrun : (inter party G init).Run (.start init) es n) :
    InterSynced party G ops init k n ∧ es.length ≤ Fintype.card P * (2 * k) + 4 * k ∧
      ((∀ p, n.left p = k) ∨ ∃ e n', (inter party G init).step n e n') := by
  have hsynced := hrun.invariant (fun _ e _ h hs => inter_synced hstep e h hs) interSynced_start
  have hlength := hrun.count fun _ _ _ hs => inter_steps hs
  have hstart : (InterNet.start init : InterNet P σ α).steps = 0 :=
    congrArg (· + _) (Net.steps_start init)
  rw [hstart, zero_add] at hlength
  have hmessages : ∑ g, ((n.told g).length + (n.overall g).length) ≤ 4 * k := by
    refine (sum_le_card_nsmul univ _ (2 * k) fun g _ => ?_).trans (le_of_eq ?_)
    · have := (hsynced.reach g).2
      have := hsynced.synced.le (G.leader g)
      omega
    · rw [card_univ, Fintype.card_bool, Nat.nsmul_eq_mul]
      omega
  have hparties := hsynced.synced.steps_le
  refine ⟨hsynced, hlength ▸ add_le_add hparties hmessages, ?_⟩
  rcases Classical.em (∀ p, n.left p = k) with hall | hsome
  · exact .inl hall
  · obtain ⟨p, hp⟩ := Classical.not_forall.mp hsome
    have := hsynced.synced.left_le p
    exact .inr (inter_goes_on hstep hsynced p (by omega))

end Inter

end OpenMPI.Lib
