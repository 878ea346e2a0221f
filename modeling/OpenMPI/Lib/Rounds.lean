import OpenMPI.Lib.Posting
import Mathlib.Algebra.BigOperators.Ring.Finset
import Mathlib.Algebra.Order.BigOperators.Group.Finset

/-!
# Calls that go in rounds

The operations of every process are told round by round: in a round a process posts some sends and receives and may wait
at its end.  If at every wait the messages meant for its receives were sent in rounds before its end, and the other way
round, then no process waits for ever (`Sound.waits_for`), and who hears of whom in which round tells who must have entered
a call before another one returns (`Sound.separates`).
-/

namespace OpenMPI.Lib.Posting

open List Nat

structure Rounds where
  G : ℕ
  posts : ℕ → ℕ → List Op
  waits : ℕ → ℕ → Bool
  no_wait : ∀ g p, Op.wait ∉ posts g p

namespace Rounds

variable (R : Rounds)

def part (p g : ℕ) : List Op := R.posts g p ++ if R.waits g p = true then [.wait] else []

/-- Its operations in the rounds before `g`. -/
def upTo (p g : ℕ) : List Op := (List.range g).flatMap (R.part p)

def prog (p : ℕ) : List Op := R.upTo p R.G

def tally (p : ℕ) (f : Op → Bool) (g : ℕ) : ℕ := (R.upTo p g).countP f

def calls (n : ℕ) (eager : ℕ → ℕ → ℕ → Bool) : Calls := ⟨n, R.prog, eager⟩

theorem upTo_succ (p g : ℕ) : R.upTo p (g + 1) = R.upTo p g ++ R.part p g := by
  rw [upTo, range_succ, flatMap_append, flatMap_singleton]
  rfl

theorem tally_zero (p : ℕ) (f : Op → Bool) : R.tally p f 0 = 0 := rfl

theorem tally_succ (p : ℕ) {f : Op → Bool} (hf : f .wait = false) (g : ℕ) :
    R.tally p f (g + 1) = R.tally p f g + (R.posts g p).countP f := by
  rw [tally, upTo_succ, part, countP_append, countP_append]
  split_ifs
  · rw [countP_singleton, hf]
    rfl
  · rfl

theorem upTo_prefix {p g g' : ℕ} (h : g ≤ g') : R.upTo p g <+: R.upTo p g' := by
  induction g', h using le_induction with
  | base => exact prefix_rfl
  | succ g' _ ih =>
    rw [upTo_succ]
    exact ih.trans (prefix_append _ _)

theorem tally_mono {p : ℕ} {f : Op → Bool} {g g' : ℕ} (h : g ≤ g') : R.tally p f g ≤ R.tally p f g' :=
  (R.upTo_prefix h).sublist.countP_le

variable {R}

theorem mem_upTo {p g : ℕ} {op : Op} (h : op ∈ R.upTo p g) (hop : op ≠ .wait) : ∃ g' < g, op ∈ R.posts g' p := by
  obtain ⟨g', hg', hmem⟩ := mem_flatMap.mp h
  refine ⟨g', mem_range.mp hg', ?_⟩
  rcases mem_append.mp hmem with hpost | hwait
  · exact hpost
  · split_ifs at hwait
    · exact absurd (mem_singleton.mp hwait) hop
    · cases hwait

theorem getElem?_upTo {p g i : ℕ} (h : (R.upTo p g)[i]? = some .wait) :
    ∃ g' < g, R.waits g' p = true ∧ i + 1 = (R.upTo p (g' + 1)).length := by
  induction g with
  | zero => cases h
  | succ g ih =>
    rcases lt_or_ge i (R.upTo p g).length with hlt | hge
    · rw [upTo_succ, getElem?_append_left hlt] at h
      obtain ⟨g', hg', hrest⟩ := ih h
      exact ⟨g', lt_succ_of_lt hg', hrest⟩
    · rw [upTo_succ, getElem?_append_right hge, part] at h
      refine ⟨g, Nat.lt_succ_self g, ?_⟩
      rcases lt_or_ge (i - (R.upTo p g).length) (R.posts g p).length with hpost | hpost
      · rw [getElem?_append_left hpost] at h
        exact absurd (mem_of_getElem? h) (R.no_wait g p)
      · rw [getElem?_append_right hpost] at h
        split_ifs at h with hwaits
        · refine ⟨hwaits, ?_⟩
          have hlast : i - (R.upTo p g).length - (R.posts g p).length < 1 := (List.getElem?_eq_some_iff.mp h).1
          rw [upTo_succ, part, if_pos hwaits, length_append, length_append, length_singleton]
          omega
        · cases h

theorem wait_upTo {p g : ℕ} (hg : g < R.G) (hwaits : R.waits g p = true) :
    ∃ i, i + 1 = (R.upTo p (g + 1)).length ∧ (R.prog p)[i]? = some .wait := by
  have hlen : (R.upTo p (g + 1)).length = (R.upTo p g ++ R.posts g p).length + 1 := by
    rw [upTo_succ, part, if_pos hwaits, ← append_assoc, length_append, length_singleton]
  refine ⟨(R.upTo p g ++ R.posts g p).length, hlen.symm, ?_⟩
  obtain ⟨rest, hrest⟩ := R.upTo_prefix (p := p) (show g + 1 ≤ R.G from hg)
  rw [prog, ← hrest, getElem?_append_left (by omega), upTo_succ, part, if_pos hwaits, ← append_assoc,
    getElem?_concat_length]

/-- A process that has not entered its call `k`, or waits in it at the end of a round, having done what is before `g`. -/
inductive At (C : Calls) (R : Rounds) (s : State) (p k : ℕ) : ℕ → Prop
  | outside (h : s.pos p = k * C.period p) : At C R s p k 0
  | waiting {g : ℕ} (hg : g < R.G) (hwaits : R.waits g p = true) (h : s.pos p = k * C.period p + (R.upTo p (g + 1)).length) :
      At C R s p k (g + 1)

def Past (C : Calls) (R : Rounds) (s : State) (p k g : ℕ) : Prop := k * C.period p + 1 + (R.upTo p g).length ≤ s.pos p

variable {n : ℕ} {eager : ℕ → ℕ → ℕ → Bool} {s t : State}

theorem length_upTo_lt {p g : ℕ} (hg : g ≤ R.G) : (R.upTo p g).length < (R.calls n eager).period p :=
  lt_succ_of_le (R.upTo_prefix hg).length_le

theorem past_zero {p k : ℕ} : Past (R.calls n eager) R s p k 0 ↔ (R.calls n eager).Entered s p k := Iff.rfl

theorem past_G {p k : ℕ} : Past (R.calls n eager) R s p k R.G ↔ (R.calls n eager).Returned s p k := by
  have hperiod : (R.calls n eager).period p = (R.upTo p R.G).length + 1 := rfl
  unfold Past Calls.Returned
  rw [succ_mul, hperiod]
  omega

theorem Past.mono {p k g g' : ℕ} (h : Past (R.calls n eager) R s p k g') (hg : g ≤ g') : Past (R.calls n eager) R s p k g := by
  have := (R.upTo_prefix (p := p) hg).length_le
  unfold Past at h ⊢
  omega

theorem count_calls {p k g : ℕ} {f : Op → Bool} (hg : g ≤ R.G) :
    (R.calls n eager).count p f (k * (R.calls n eager).period p + (1 + (R.upTo p g).length)) =
      k * R.tally p f R.G + R.tally p f g := by
  have hpre := R.upTo_prefix (p := p) hg
  rw [Calls.count_period_add, add_comm 1, Calls.count_one_add _ hpre.length_le]
  congr 2
  exact (prefix_iff_eq_take.mp hpre).symm

theorem At.count {p k g : ℕ} {f : Op → Bool} (hf : f .wait = false) (h : At (R.calls n eager) R s p k g) :
    (R.calls n eager).count p f (s.pos p) = k * R.tally p f R.G + R.tally p f g := by
  cases h with
  | outside h =>
    rw [h, ← add_zero (k * _), Calls.count_period_add, Calls.count_zero]
    rfl
  | @waiting g hg hwaits h =>
    obtain ⟨i, hi, hwait⟩ := R.wait_upTo hg hwaits
    have hnext : (R.calls n eager).next p (s.pos p) = some .wait := by
      have hlt : i + 1 < (R.calls n eager).period p := by
        rw [hi]
        exact length_upTo_lt hg
      rw [h, Calls.next_add_mul, ← hi, Calls.next, mod_eq_of_lt hlt, if_neg (succ_ne_zero i), Nat.add_sub_cancel]
      exact hwait
    have hafter := Calls.count_succ (R.calls n eager) p f (s.pos p)
    rw [hnext, Option.any_some, hf, if_neg Bool.false_ne_true] at hafter
    refine hafter.symm.trans ?_
    rw [h, add_assoc, add_comm _ 1, count_calls hg]

theorem At.le_G {p k g : ℕ} (h : At (R.calls n eager) R s p k g) : g ≤ R.G := by
  cases h with
  | outside => exact zero_le _
  | waiting hg => exact hg

theorem At.not_entered {p k k' g : ℕ} (h : At (R.calls n eager) R s p k' g) (hk : k' < k ∨ (k' = k ∧ g = 0)) :
    ¬(R.calls n eager).Entered s p k := by
  have hlt : (R.upTo p g).length < (R.calls n eager).period p := length_upTo_lt h.le_G
  unfold Calls.Entered
  rcases hk with hk | ⟨rfl, rfl⟩
  · have hmul := mul_le_mul_right ((R.calls n eager).period p) (succ_le_of_lt hk)
    rw [succ_mul] at hmul
    cases h with
    | outside h => omega
    | waiting _ _ h => omega
  · cases h with
    | outside h => omega

theorem past_of_count_lt {p k g : ℕ} {f : Op → Bool} (hg : g ≤ R.G)
    (h : k * R.tally p f R.G + R.tally p f g < (R.calls n eager).count p f (s.pos p)) : Past (R.calls n eager) R s p k g := by
  by_contra hpast
  unfold Past at hpast
  rw [← @count_calls R n eager p k g f hg] at h
  refine absurd h (Nat.not_lt_of_le (Calls.count_mono _ ?_))
  omega

end Rounds

variable {C : Calls} {s t : State}

theorem bump_le (f : ℕ → ℕ → ℕ) (p q a b : ℕ) : f a b ≤ bump f p q a b := by
  unfold bump
  split_ifs
  · exact le_succ _
  · exact le_rfl

theorem step_mono {e : Event} (h : C.step s e = some t) :
    (∀ p q, s.matched p q ≤ t.matched p q) ∧ ∀ p, t.pos p ≤ s.pos p + 1 ∧ (t.pos p ≠ s.pos p → e = .exec p) := by
  have hpos (p : ℕ) {e : Event} (he : e = .exec p) (q : ℕ) : Function.update s.pos p (s.pos p + 1) q ≤ s.pos q + 1 ∧
      (Function.update s.pos p (s.pos p + 1) q ≠ s.pos q → e = .exec q) := by
    by_cases hq : q = p
    · subst hq
      rw [Function.update_self]
      exact ⟨le_rfl, fun _ => he⟩
    · rw [Function.update_of_ne hq]
      exact ⟨le_succ _, fun hne => absurd rfl hne⟩
  cases e with
  | exec p =>
    unfold Calls.step at h
    dsimp only at h
    split_ifs at h
    unfold Calls.exec at h
    dsimp only at h
    split at h
    · cases h
      exact ⟨fun _ _ => le_rfl, hpos p rfl⟩
    · cases h
      exact ⟨fun _ _ => le_rfl, hpos p rfl⟩
    · split at h
      · cases h
        exact ⟨bump_le _ _ _, hpos p rfl⟩
      · cases h
        exact ⟨fun _ _ => le_rfl, hpos p rfl⟩
    · split_ifs at h
      cases h
      exact ⟨fun _ _ => le_rfl, hpos p rfl⟩
  | deliver p q =>
    unfold Calls.step Calls.deliver at h
    dsimp only at h
    split_ifs at h
    split at h
    · cases h
      exact ⟨bump_le _ _ _, fun p => ⟨le_succ _, fun hne => absurd rfl hne⟩⟩
    · cases h
      exact ⟨fun _ _ => le_rfl, fun p => ⟨le_succ _, fun hne => absurd rfl hne⟩⟩

theorem posted_of_step {p : ℕ} (hop : C.next p (s.pos p) = some .wait) (h : C.step s (.exec p) = some t) : s.posted p = [] := by
  unfold Calls.step at h
  dsimp only at h
  split_ifs at h
  unfold Calls.exec at h
  rw [hop] at h
  dsimp only at h
  split_ifs at h with hdone
  exact hdone.1

namespace Rounds

variable {R : Rounds} {n : ℕ} {eager : ℕ → ℕ → ℕ → Bool} {wild : ℕ → Bool} {due : ℕ → ℕ → ℕ → ℕ}

/-- A process that takes one round's messages from any source, and lets no source send again before it has them all. -/
structure Gathered (R : Rounds) (n : ℕ) (wild : ℕ → Bool) (due : ℕ → ℕ → ℕ → ℕ) (q : ℕ) : Prop where
  pos : 0 < R.G
  waits : R.waits 0 q = true
  first : ∀ p < n, due q p 1 = due q p R.G
  released : ∀ p < n, 0 < due q p R.G →
    ∃ g < R.G, R.waits g p = true ∧ wild p = false ∧ R.tally q (isSend p) 1 < due p q (g + 1)

/-- `due q p g` messages from `p` are for the receives of `q` before round `g`: as many are sent before the ends of rounds in
which `q` waits, and are received before the ends of rounds in which `p` waits.  Receives from any source are for the
messages of one process only, or gathered. -/
structure Sound (R : Rounds) (n : ℕ) (wild : ℕ → Bool) (due : ℕ → ℕ → ℕ → ℕ) : Prop where
  pure : ∀ q < n, ∀ r, Op.irecv r ∈ R.prog q → (r = none ↔ wild q = true)
  source_lt : ∀ q < n, ∀ p, Op.irecv (some p) ∈ R.prog q → p < n
  due_sum : ∀ q < n, ∀ r, (r = none ↔ wild q = true) → (∀ p, r = some p → p < n) → ∀ g ≤ R.G,
    ∑ p ∈ (Finset.range n).filter (fun p => accepts r p = true), due q p g = R.tally q (isRecv r) g
  due_mono : ∀ q < n, ∀ p < n, ∀ g g', g ≤ g' → g' ≤ R.G → due q p g ≤ due q p g'
  total : ∀ q < n, ∀ p < n, due q p R.G = R.tally p (isSend q) R.G
  sent_before : ∀ q < n, ∀ p < n, ∀ g < R.G, R.waits g q = true → due q p (g + 1) ≤ R.tally p (isSend q) (g + 1)
  taken_before : ∀ q < n, ∀ p < n, ∀ g < R.G, R.waits g p = true → R.tally p (isSend q) (g + 1) ≤ due q p (g + 1)
  sources : ∀ q < n, wild q = true →
    (∃ p₀ < n, ∀ p < n, p ≠ p₀ → R.tally p (isSend q) R.G = 0) ∨ Gathered R n wild due q

namespace Sound

variable (h : Sound R n wild due)

include h

theorem inv (hs : (R.calls n eager).system.Reachable s) : Inv (R.calls n eager) wild s := Inv.of_reachable ⟨h.pure⟩ hs

theorem matched_le (hs : (R.calls n eager).system.Reachable s) (p q : ℕ) :
    s.matched p q ≤ (R.calls n eager).count p (isSend q) (s.pos p) := by
  have hinv := h.inv hs
  have hflow := hinv.flow p q
  rw [hinv.sends] at hflow
  omega

variable {k g p q : ℕ}

section

variable (hs : (R.calls n eager).system.Reachable s)

include hs

theorem sum_matched (hq : q < n) (hat : At (R.calls n eager) R s q k g)
    {r : Option ℕ} (hr : r = none ↔ wild q = true) (hlt : ∀ p, r = some p → p < n) (hposted : r ∉ s.posted q) :
    ∑ p ∈ (Finset.range n).filter (fun p => accepts r p = true), s.matched p q =
      ∑ p ∈ (Finset.range n).filter (fun p => accepts r p = true), (k * due q p R.G + due q p g) := by
  have hrecvs := (h.inv hs).recvs q r hr
  rw [hat.count rfl, count_eq_zero.mpr hposted, zero_add] at hrecvs
  rw [Finset.sum_add_distrib, ← Finset.mul_sum, h.due_sum q hq r hr hlt _ (le_rfl), h.due_sum q hq r hr hlt g hat.le_G,
    hrecvs]
  rfl

theorem matched_specific (hq : q < n) (hp : p < n)
    (hat : At (R.calls n eager) R s q k g) (hwild : wild q = false)
    (hposted : ∀ r ∈ s.posted q, accepts r p = false) : s.matched p q = k * due q p R.G + due q p g := by
  have hr : (some p : Option ℕ) = none ↔ wild q = true := by rw [hwild]; simp
  have hnot : some p ∉ s.posted q := fun hmem => absurd (hposted _ hmem) (by rw [accepts_some.mpr rfl]; simp)
  have hsum := h.sum_matched hs hq hat hr (fun _ hp' => Option.some.inj hp' ▸ hp) hnot
  rwa [filter_accepts_some hp, Finset.sum_singleton, Finset.sum_singleton] at hsum

theorem matched_eq_zero (hp : R.tally p (isSend q) R.G = 0) : s.matched p q = 0 := by
  refine le_zero.mp (le_trans (h.matched_le hs p q) ?_)
  have hle : s.pos p ≤ s.pos p * (R.calls n eager).period p + 0 := Nat.le_mul_of_pos_right _ (succ_pos _)
  refine le_trans (Calls.count_mono _ hle) ?_
  have hprog : ((R.calls n eager).prog p).countP (isSend q) = 0 := hp
  rw [Calls.count_period_add, hprog, Calls.count_zero, mul_zero]

theorem matched_wild (hq : q < n) (hat : At (R.calls n eager) R s q k g)
    (hwild : wild q = true) (hposted : s.posted q = [])
    (hle : (∀ p < n, s.matched p q ≤ k * due q p R.G + due q p g) ∨ ∀ p < n, k * due q p R.G + due q p g ≤ s.matched p q) :
    ∀ p < n, s.matched p q = k * due q p R.G + due q p g := by
  have hsum := h.sum_matched hs hq hat (r := none) (by simp [hwild]) (fun _ hp => by cases hp) (by simp [hposted])
  rw [filter_accepts_none] at hsum
  intro p hp
  rcases hle with hle | hle
  · exact (Finset.sum_eq_sum_iff_of_le fun p hp => hle p (Finset.mem_range.mp hp)).mp hsum p (Finset.mem_range.mpr hp)
  · exact ((Finset.sum_eq_sum_iff_of_le fun p hp => hle p (Finset.mem_range.mp hp)).mp hsum.symm p
      (Finset.mem_range.mpr hp)).symm

end

omit h in
theorem due_le_of_key (hg : g < R.G) (hwaits : R.waits g q = true)
    (hkey : ∀ s, (R.calls n eager).system.Reachable s → ∀ k, At (R.calls n eager) R s q k (g + 1) → s.posted q = [] →
      ∀ p < n, k * due q p R.G + due q p (g + 1) ≤ s.matched p q)
    (hs : (R.calls n eager).system.Reachable s) (hpast : Past (R.calls n eager) R s q k (g + 1)) (hp : p < n) :
    k * due q p R.G + due q p (g + 1) ≤ s.matched p q := by
  suffices hall : (R.calls n eager).system.Reachable s ∧ ∀ k, Past (R.calls n eager) R s q k (g + 1) → ∀ p < n,
      k * due q p R.G + due q p (g + 1) ≤ s.matched p q from hall.2 k hpast p hp
  refine hs.invariant (P := fun s => (R.calls n eager).system.Reachable s ∧ ∀ k, Past (R.calls n eager) R s q k (g + 1) →
    ∀ p < n, k * due q p R.G + due q p (g + 1) ≤ s.matched p q) (fun s hs => ⟨⟨s, [], hs, .nil s⟩, fun k hpast => ?_⟩)
    fun s e t hI hst => ⟨hI.1.step hst, ?_⟩
  · obtain rfl : s = .start := hs
    exact absurd hpast (Nat.not_le_of_lt (Nat.lt_of_lt_of_le (succ_pos _) (Nat.le_add_right _ _)))
  · intro k hpast p hp
    obtain ⟨hmatched, hpos⟩ := step_mono hst
    by_cases hbefore : Past (R.calls n eager) R s q k (g + 1)
    · exact le_trans (hI.2 k hbefore p hp) (hmatched p q)
    · -- the step is the one past the wait
      obtain ⟨hle, hexec⟩ := hpos q
      unfold Past at hpast hbefore
      have hat : s.pos q = k * (R.calls n eager).period q + (R.upTo q (g + 1)).length := by omega
      obtain rfl := hexec (by omega)
      have hwait := At.waiting (C := R.calls n eager) hg hwaits hat
      obtain ⟨i, hi, hwaitOp⟩ := R.wait_upTo hg hwaits
      have hnext : (R.calls n eager).next q (s.pos q) = some .wait := by
        have hlt : i + 1 < (R.calls n eager).period q := by
          rw [hi]
          exact length_upTo_lt hg
        rw [hat, Calls.next_add_mul, ← hi, Calls.next, mod_eq_of_lt hlt, if_neg (succ_ne_zero i), Nat.add_sub_cancel]
        exact hwaitOp
      exact le_trans (hkey s hI.1 k hwait (posted_of_step hnext hst) p hp) (hmatched p q)

theorem due_le_specific (hs : (R.calls n eager).system.Reachable s) (hq : q < n) (hwild : wild q = false) (hg : g < R.G)
    (hwaits : R.waits g q = true) (hpast : Past (R.calls n eager) R s q k (g + 1)) (hp : p < n) :
    k * due q p R.G + due q p (g + 1) ≤ s.matched p q := by
  refine due_le_of_key hg hwaits (fun s hs k hat hposted p hp => ?_) hs hpast hp
  exact le_of_eq (h.matched_specific hs hq hp hat hwild (by simp [hposted])).symm

theorem gathered_past (hgath : Gathered R n wild due q) (hs : (R.calls n eager).system.Reachable s) (hq : q < n) (hp : p < n)
    (hdue : 0 < due q p R.G) (hpast : Past (R.calls n eager) R s p k R.G) : Past (R.calls n eager) R s q k 1 := by
  obtain ⟨g, hg, hwaits, hwild, hlt⟩ := hgath.released p hp hdue
  have hmatched := h.due_le_specific hs hp hwild hg hwaits (hpast.mono hg) hq
  have hle := h.matched_le hs q p
  rw [h.total p hp q hq] at hmatched
  refine past_of_count_lt (f := isSend p) hgath.pos ?_
  omega

theorem gathered_matched_le (hgath : Gathered R n wild due q) (hs : (R.calls n eager).system.Reachable s) (hq : q < n)
    (hp : p < n) (hnot : ¬Past (R.calls n eager) R s q k 1) : s.matched p q ≤ k * due q p R.G + due q p 1 := by
  rw [hgath.first p hp]
  rcases Nat.eq_zero_or_pos (due q p R.G) with hzero | hpos
  · rw [h.matched_eq_zero hs ((h.total q hq p hp).symm.trans hzero)]
    exact zero_le _
  · by_contra hlt
    refine hnot (h.gathered_past hgath hs hq hp hpos (past_of_count_lt (f := isSend q) (le_rfl) ?_))
    have hle := h.matched_le hs p q
    rw [← h.total q hq p hp]
    omega

theorem gathered_due_le (hgath : Gathered R n wild due q) (hs : (R.calls n eager).system.Reachable s) (hq : q < n)
    (hwild : wild q = true) (hpast : Past (R.calls n eager) R s q k 1) (hp : p < n) :
    k * due q p R.G + due q p 1 ≤ s.matched p q := by
  refine due_le_of_key hgath.pos hgath.waits (fun s hs k hat hposted p hp => ?_) hs hpast hp
  have hnot : ¬Past (R.calls n eager) R s q k 1 := by
    cases hat with
    | waiting _ _ hpos =>
      rw [zero_add] at hpos
      unfold Past
      omega
  exact le_of_eq (h.matched_wild hs hq hat hwild hposted (.inl fun p hp => h.gathered_matched_le hgath hs hq hp hnot) p hp).symm

/-- Where no receive of a process is left that accepts `p`, its messages were matched as far as they are due. -/
theorem matched_eq (hs : (R.calls n eager).system.Reachable s) (hq : q < n) (hp : p < n)
    (hat : At (R.calls n eager) R s q k g) (hposted : ∀ r ∈ s.posted q, accepts r p = false) :
    s.matched p q = k * due q p R.G + due q p g := by
  rcases Bool.eq_false_or_eq_true (wild q) with hwild | hwild
  · have hnil : s.posted q = [] := by
      refine eq_nil_iff_forall_not_mem.mpr fun r hr => ?_
      obtain rfl := ((h.inv hs).kind q r hr).mpr hwild
      exact absurd (hposted none hr) (by simp [accepts])
    rcases h.sources q hq hwild with ⟨p₀, hp₀, hsole⟩ | hgath
    · have hother : ∀ p' < n, p' ≠ p₀ → s.matched p' q = 0 ∧ k * due q p' R.G + due q p' g = 0 := by
        intro p' hp' hne
        have hzero := hsole p' hp' hne
        have htotal := (h.total q hq p' hp').trans hzero
        have hmono := h.due_mono q hq p' hp' g R.G hat.le_G (le_rfl)
        refine ⟨h.matched_eq_zero hs hzero, ?_⟩
        rw [htotal, mul_zero]
        omega
      rcases le_total (s.matched p₀ q) (k * due q p₀ R.G + due q p₀ g) with hle | hle
      · refine h.matched_wild hs hq hat hwild hnil (.inl fun p' hp' => ?_) p hp
        by_cases hne : p' = p₀
        · exact hne ▸ hle
        · rw [(hother p' hp' hne).1]
          exact zero_le _
      · refine h.matched_wild hs hq hat hwild hnil (.inr fun p' hp' => ?_) p hp
        by_cases hne : p' = p₀
        · exact hne ▸ hle
        · rw [(hother p' hp' hne).2]
          exact zero_le _
    · have hfirst : ∀ g', 1 ≤ g' → g' ≤ R.G → ∀ p < n, due q p g' = due q p 1 := by
        intro g' h1 hG p hp
        refine le_antisymm ?_ (h.due_mono q hq p hp 1 g' h1 hG)
        rw [hgath.first p hp]
        exact h.due_mono q hq p hp g' R.G hG (le_rfl)
      cases hat with
      | outside hpos =>
        have hzero : ∀ p < n, due q p 0 = 0 := by
          intro p hp
          have hsum := h.due_sum q hq none (by simp [hwild]) (fun _ hp => by cases hp) 0 (zero_le _)
          exact Finset.sum_eq_zero_iff.mp hsum p (Finset.mem_filter.mpr ⟨Finset.mem_range.mpr hp, rfl⟩)
        refine h.matched_wild hs hq (.outside hpos) hwild hnil (.inr fun p hp => ?_) p hp
        rw [hzero p hp]
        cases k with
        | zero => simp
        | succ k =>
          have hpast : Past (R.calls n eager) R s q k 1 := by
            refine Past.mono (past_G.mpr ?_) hgath.pos
            exact le_of_eq hpos.symm
          have hle := h.gathered_due_le hgath hs hq hwild hpast hp
          rw [hgath.first p hp] at hle
          rw [succ_mul]
          exact hle
      | @waiting g hg hwaits hpos =>
        by_cases hpast : Past (R.calls n eager) R s q k 1
        · refine h.matched_wild hs hq (.waiting hg hwaits hpos) hwild hnil (.inr fun p hp => ?_) p hp
          rw [hfirst (g + 1) (succ_pos g) hg p hp]
          exact h.gathered_due_le hgath hs hq hwild hpast hp
        · refine h.matched_wild hs hq (.waiting hg hwaits hpos) hwild hnil (.inl fun p hp => ?_) p hp
          rw [hfirst (g + 1) (succ_pos g) hg p hp]
          exact h.gathered_matched_le hgath hs hq hp hpast
  · exact h.matched_specific hs hq hp hat hwild hposted

theorem due_le (hs : (R.calls n eager).system.Reachable s) (hq : q < n) (hg : g < R.G) (hwaits : R.waits g q = true)
    (hpast : Past (R.calls n eager) R s q k (g + 1)) (hp : p < n) : k * due q p R.G + due q p (g + 1) ≤ s.matched p q := by
  refine due_le_of_key hg hwaits (fun s hs k hat hposted p hp => ?_) hs hpast hp
  exact le_of_eq (h.matched_eq hs hq hp hat (by simp [hposted])).symm

end Sound

/-- What process `q` knows when it is past the rounds before `g`: that `r` has entered the call.  It hears of it through a
message that is due at the end of a round, and that `p` sends past the rounds before `g'`. -/
inductive Knows (R : Rounds) (n : ℕ) (due : ℕ → ℕ → ℕ → ℕ) : ℕ → ℕ → ℕ → Prop
  | own (q g : ℕ) : Knows R n due q g q
  | later {q g r : ℕ} (h : Knows R n due q g r) : Knows R n due q (g + 1) r
  | heard {q g p g' r : ℕ} (hq : q < n) (hp : p < n) (hg : g < R.G) (hwaits : R.waits g q = true) (hg' : g' ≤ R.G)
      (hdue : R.tally p (isSend q) g' < due q p (g + 1)) (h : Knows R n due p g' r) : Knows R n due q (g + 1) r

theorem Knows.mono {q g g' r : ℕ} (h : Knows R n due q g r) (hg : g ≤ g') : Knows R n due q g' r := by
  induction g', hg using le_induction with
  | base => exact h
  | succ g' _ ih => exact ih.later

namespace Sound

variable (h : Sound R n wild due)

include h

theorem entered_of_knows (hs : (R.calls n eager).system.Reachable s) {q g r : ℕ} (hknows : Knows R n due q g r) {k : ℕ}
    (hpast : Past (R.calls n eager) R s q k g) : (R.calls n eager).Entered s r k := by
  induction hknows with
  | own q g => exact past_zero.mp (hpast.mono (zero_le g))
  | later _ ih => exact ih (hpast.mono (le_succ _))
  | @heard q g p g' r hq hp hg hwaits hg' hdue _ ih =>
    refine ih (past_of_count_lt (f := isSend q) hg' ?_)
    have hmatched := h.due_le hs hq hg hwaits hpast hp
    have hle := h.matched_le hs p q
    rw [h.total q hq p hp] at hmatched
    omega

theorem separates (hs : (R.calls n eager).system.Reachable s) {q r k : ℕ} (hknows : Knows R n due q R.G r)
    (hreturned : (R.calls n eager).Returned s q k) : (R.calls n eager).Entered s r k :=
  h.entered_of_knows hs hknows (past_G.mpr hreturned)

end Sound

theorem flight_eq_zero {C : Calls} (hstuck : C.Stuck s) (p q : ℕ) : s.flight p q = 0 := by
  by_contra hne
  have hstep := hstuck.1 p q
  unfold Calls.step Calls.deliver at hstep
  dsimp only at hstep
  rw [if_neg hne] at hstep
  split at hstep <;> cases hstep

theorem mem_prog_of_count {e : ℕ → ℕ → ℕ → Bool} {p q x : ℕ} (h : 0 < (R.calls n e).count p (isRecv (some q)) x) :
    Op.irecv (some q) ∈ R.prog p := by
  have hpos : 0 < (R.prog p).countP (isRecv (some q)) := by
    refine Nat.pos_of_ne_zero fun hzero => ?_
    have hle : x ≤ x * (R.calls n e).period p + 0 := Nat.le_mul_of_pos_right _ (succ_pos _)
    have hcount := Calls.count_mono (C := R.calls n e) (p := p) (f := isRecv (some q)) hle
    have hprog : ((R.calls n e).prog p).countP (isRecv (some q)) = 0 := hzero
    rw [Calls.count_period_add, hprog, Calls.count_zero, mul_zero] at hcount
    omega
  obtain ⟨op, hop, hrecv⟩ := countP_pos_iff.mp hpos
  cases op with
  | irecv src =>
    obtain rfl : src = some q := of_decide_eq_true hrecv
    exact hop
  | isend dst sync => cases hrecv
  | wait => cases hrecv

theorem at_of_stuck (hstuck : (R.calls n eager).Stuck s) {p : ℕ} (hp : p < n) :
    ∃ k g, At (R.calls n eager) R s p k g ∧
      (g ≠ 0 → ¬(s.posted p = [] ∧ (R.calls n eager).SendsDone s p)) := by
  have hdiv := div_add_mod (s.pos p) ((R.calls n eager).period p)
  rw [mul_comm] at hdiv
  cases hop : (R.calls n eager).next p (s.pos p) with
  | none =>
    refine ⟨s.pos p / (R.calls n eager).period p, 0, .outside ?_, fun h => absurd rfl h⟩
    unfold Calls.next at hop
    split_ifs at hop with hzero
    · omega
    · have hlt := mod_lt (s.pos p) (show 0 < (R.calls n eager).period p from succ_pos _)
      rw [List.getElem?_eq_none_iff] at hop
      unfold Calls.period at hop hlt hzero
      omega
  | some op =>
    have hstep := hstuck.2 p (by rw [hop]; exact Option.some_ne_none _)
    unfold Calls.step at hstep
    dsimp only at hstep
    rw [if_pos (show p < (R.calls n eager).n from hp)] at hstep
    unfold Calls.exec at hstep
    rw [hop] at hstep
    dsimp only at hstep
    cases op with
    | isend dst sync => cases hstep
    | irecv src =>
      dsimp only at hstep
      split at hstep <;> cases hstep
    | wait =>
      dsimp only at hstep
      split_ifs at hstep with hdone
      unfold Calls.next at hop
      split_ifs at hop with hzero
      obtain ⟨g, hg, hwaits, hlen⟩ := getElem?_upTo (R := R) (g := R.G) hop
      refine ⟨s.pos p / (R.calls n eager).period p, g + 1, .waiting hg hwaits ?_, fun _ => hdone⟩
      rw [← hlen]
      omega

namespace Sound

variable (h : Sound R n wild due)

include h

theorem waiting_waits_for (hs : (R.calls n eager).system.Reachable s) (hstuck : (R.calls n eager).Stuck s) {k g p : ℕ}
    (hp : p < n) (hat : At (R.calls n eager) R s p k (g + 1))
    (hblocked : ¬(s.posted p = [] ∧ (R.calls n eager).SendsDone s p)) : ∃ q < n, ¬(R.calls n eager).Entered s q k := by
  induction g using Nat.strong_induction_on generalizing p with
  | _ g ih =>
    have hinv := h.inv hs
    have hwaits : g < R.G ∧ R.waits g p = true := by
      cases hat with
      | waiting hg hwaits _ => exact ⟨hg, hwaits⟩
    -- a process that has not done what this one waits for is in an earlier round, if it is in the call at all
    have hbehind (q : ℕ) (hq : q < n) (hless : ∀ k' g', At (R.calls n eager) R s q k' g' → k < k' ∨ (k' = k ∧ g < g') → False) :
        ∃ q < n, ¬(R.calls n eager).Entered s q k := by
      obtain ⟨k', g', hat', hblocked'⟩ := at_of_stuck hstuck hq
      rcases lt_trichotomy k' k with hk | rfl | hk
      · exact ⟨q, hq, hat'.not_entered (.inl hk)⟩
      · cases g' with
        | zero => exact ⟨q, hq, hat'.not_entered (.inr ⟨rfl, rfl⟩)⟩
        | succ g' =>
          refine ih g' ?_ hq hat' (hblocked' (succ_ne_zero g'))
          by_contra hge
          exact hless k' (g' + 1) hat' (.inr ⟨rfl, by omega⟩)
      · exact (hless k' g' hat' (.inl hk)).elim
    by_cases hposted : s.posted p = []
    · -- a send is not complete: its receiver has posted no receive for it
      have hsends : ¬(R.calls n eager).SendsDone s p := fun hdone => hblocked ⟨hposted, hdone⟩
      unfold Calls.SendsDone at hsends
      push Not at hsends
      obtain ⟨q, hq, i, hi, hle, -⟩ := hsends
      have hq' : q < n := hq
      have hflow := hinv.flow p q
      rw [flight_eq_zero hstuck, zero_add] at hflow
      have hmem : p ∈ s.unexpected q := count_pos_iff.mp (by omega)
      have hsent := hinv.sends p q
      rw [hat.count rfl] at hsent
      have htaken := h.taken_before q hq' p hp g hwaits.1 hwaits.2
      refine hbehind q hq' fun k' g' hat' hlater => ?_
      have hmatched := h.matched_eq hs hq' hp hat' (hinv.apart q p hmem)
      have htotal := h.total q hq' p hp
      rcases hlater with hk | ⟨rfl, hg⟩
      · have hmul := mul_le_mul_right (due q p R.G) (succ_le_of_lt hk)
        rw [succ_mul] at hmul
        have hmono : R.tally p (isSend q) (g + 1) ≤ R.tally p (isSend q) R.G := R.tally_mono hwaits.1
        rw [htotal] at hmatched hmul
        omega
      · have hmono := h.due_mono q hq' p hp (g + 1) g' hg hat'.le_G
        rw [htotal] at hmatched
        omega
    · -- a receive is not complete: the message has not been sent
      obtain ⟨r, hr⟩ := exists_mem_of_ne_nil _ hposted
      have hkind := hinv.kind p r hr
      have hrecvs := hinv.recvs p r hkind
      have hcount := count_pos_iff.mpr hr
      have hsource : ∀ q, r = some q → q < n := by
        rintro q rfl
        refine h.source_lt p hp q (mem_prog_of_count (n := n) (e := eager) (x := s.pos p) ?_)
        omega
      have hsum : ∑ q ∈ (Finset.range n).filter (fun q => accepts r q = true), s.matched q p <
          ∑ q ∈ (Finset.range n).filter (fun q => accepts r q = true), (k * due p q R.G + due p q (g + 1)) := by
        rw [Finset.sum_add_distrib, ← Finset.mul_sum, h.due_sum p hp r hkind hsource _ (le_rfl),
          h.due_sum p hp r hkind hsource _ hat.le_G]
        rw [hat.count rfl] at hrecvs
        have htaken : taken (R.calls n eager) s p r =
          ∑ q ∈ (Finset.range n).filter (fun q => accepts r q = true), s.matched q p := rfl
        omega
      obtain ⟨q, hq, hlt⟩ := Finset.exists_lt_of_sum_lt hsum
      obtain ⟨hq, hacc⟩ := Finset.mem_filter.mp hq
      rw [Finset.mem_range] at hq
      have hnone : q ∉ s.unexpected p := fun hmem => absurd (hinv.apart p q hmem r hr) (by rw [hacc]; simp)
      have hflow := hinv.flow q p
      rw [flight_eq_zero hstuck, count_eq_zero.mpr hnone, hinv.sends] at hflow
      have hsent := h.sent_before p hp q hq g hwaits.1 hwaits.2
      have htotal := h.total p hp q hq
      refine hbehind q hq fun k' g' hat' hlater => ?_
      rw [hat'.count rfl] at hflow
      rw [htotal] at hlt
      rcases hlater with hk | ⟨rfl, hg⟩
      · have hmul := mul_le_mul_right (R.tally q (isSend p) R.G) (succ_le_of_lt hk)
        rw [succ_mul] at hmul
        have hmono : R.tally q (isSend p) (g + 1) ≤ R.tally q (isSend p) R.G := R.tally_mono hwaits.1
        omega
      · have hmono : R.tally q (isSend p) (g + 1) ≤ R.tally q (isSend p) g' := R.tally_mono hg
        omega

theorem waits_for (hs : (R.calls n eager).system.Reachable s) (hstuck : (R.calls n eager).Stuck s) {p k : ℕ} (hp : p < n)
    (hentered : (R.calls n eager).Entered s p k) (hreturned : ¬(R.calls n eager).Returned s p k) :
    ∃ q < n, ¬(R.calls n eager).Entered s q k := by
  obtain ⟨k', g, hat, hblocked⟩ := at_of_stuck hstuck hp
  rcases lt_trichotomy k' k with hk | rfl | hk
  · exact absurd hentered (hat.not_entered (.inl hk))
  · cases g with
    | zero => exact absurd hentered (hat.not_entered (.inr ⟨rfl, rfl⟩))
    | succ g => exact h.waiting_waits_for hs hstuck hp hat (hblocked (succ_ne_zero g))
  · refine absurd (le_trans (mul_le_mul_right _ (succ_le_of_lt hk)) ?_) hreturned
    cases hat with
    | outside hpos => exact le_of_eq hpos.symm
    | waiting _ _ hpos => exact hpos ▸ Nat.le_add_right _ _

end Sound

/-- Calls of which each process does what it does in the rounds. -/
structure Tells (R : Rounds) (C : Calls) : Prop where
  prog : ∀ p < C.n, C.prog p = R.prog p

namespace Tells

variable {C : Calls} (hC : Tells R C)

include hC

theorem next_eq {p : ℕ} (hp : p < C.n) (x : ℕ) : C.next p x = (R.calls C.n C.eager).next p x := by
  have hprog : C.prog p = (R.calls C.n C.eager).prog p := hC.prog p hp
  unfold Calls.next Calls.period
  rw [hprog]

theorem step_eq : C.step = (R.calls C.n C.eager).step := by
  funext s e
  cases e with
  | deliver p q => rfl
  | exec p =>
    unfold Calls.step
    dsimp only
    by_cases hp : p < C.n
    · rw [if_pos hp, if_pos (show p < (R.calls C.n C.eager).n from hp)]
      unfold Calls.exec
      rw [hC.next_eq hp]
      rfl
    · rw [if_neg hp, if_neg (show ¬p < (R.calls C.n C.eager).n from hp)]

theorem reachable (hs : C.system.Reachable s) : (R.calls C.n C.eager).system.Reachable s := by
  have hsystem : C.system = (R.calls C.n C.eager).system := by
    unfold Calls.system
    rw [hC.step_eq]
  exact hsystem ▸ hs

theorem period_eq {p : ℕ} (hp : p < C.n) : C.period p = (R.calls C.n C.eager).period p := by
  have hprog : C.prog p = (R.calls C.n C.eager).prog p := hC.prog p hp
  rw [Calls.period, hprog]
  rfl

theorem stuck (hs : C.Stuck s) : (R.calls C.n C.eager).Stuck s := by
  refine ⟨fun p q => hs.1 p q, fun p hp => ?_⟩
  rw [← hC.step_eq]
  by_cases hlt : p < C.n
  · exact hs.2 p (by rwa [hC.next_eq hlt])
  · unfold Calls.step
    dsimp only
    rw [if_neg hlt]

theorem separates (h : Sound R C.n wild due) (hknows : ∀ q < C.n, ∀ r < C.n, Knows R C.n due q R.G r)
    (hs : C.system.Reachable s) {q r k : ℕ} (hq : q < C.n) (hr : r < C.n) (hreturned : C.Returned s q k) : C.Entered s r k := by
  unfold Calls.Returned at hreturned
  unfold Calls.Entered
  rw [hC.period_eq hq] at hreturned
  rw [hC.period_eq hr]
  exact h.separates (hC.reachable hs) (hknows q hq r hr) hreturned

theorem waits_for (h : Sound R C.n wild due) (hs : C.system.Reachable s) (hstuck : C.Stuck s) {p k : ℕ} (hp : p < C.n)
    (hentered : C.Entered s p k) (hreturned : ¬C.Returned s p k) : ∃ q < C.n, ¬C.Entered s q k := by
  unfold Calls.Entered at hentered
  unfold Calls.Returned at hreturned
  rw [hC.period_eq hp] at hentered hreturned
  obtain ⟨q, hq, hnot⟩ := h.waits_for (hC.reachable hs) (hC.stuck hstuck) hp hentered hreturned
  refine ⟨q, hq, ?_⟩
  unfold Calls.Entered
  rwa [hC.period_eq hq]

end Tells

section Specific

variable (hsource : ∀ q < n, ∀ r, Op.irecv r ∈ R.prog q → ∃ p < n, r = some p)

include hsource

theorem Sound.of_specific
    (htotal : ∀ q < n, ∀ p < n, R.tally q (isRecv (some p)) R.G = R.tally p (isSend q) R.G)
    (hsent : ∀ q < n, ∀ p < n, ∀ g < R.G, R.waits g q = true →
      R.tally q (isRecv (some p)) (g + 1) ≤ R.tally p (isSend q) (g + 1))
    (htaken : ∀ q < n, ∀ p < n, ∀ g < R.G, R.waits g p = true →
      R.tally p (isSend q) (g + 1) ≤ R.tally q (isRecv (some p)) (g + 1)) :
    Sound R n (fun _ => false) fun q p g => R.tally q (isRecv (some p)) g where
  pure q hq r hr := by
    obtain ⟨p, -, rfl⟩ := hsource q hq r hr
    simp
  source_lt q hq p hp := by
    obtain ⟨p', hp', heq⟩ := hsource q hq _ hp
    exact Option.some.inj heq ▸ hp'
  due_sum q hq r hr hlt g hg := by
    cases r with
    | none => simp at hr
    | some p => rw [filter_accepts_some (hlt p rfl), Finset.sum_singleton]
  due_mono q hq p hp g g' hg _ := R.tally_mono hg
  total := htotal
  sent_before := hsent
  taken_before := htaken
  sources q hq hwild := absurd hwild Bool.false_ne_true

omit hsource in
theorem tally_eq_of_balanced (hbalanced : ∀ g < R.G, ∀ q < n, ∀ p < n,
    (R.posts g q).countP (isRecv (some p)) = (R.posts g p).countP (isSend q)) {p q g : ℕ} (hq : q < n) (hp : p < n)
    (hg : g ≤ R.G) : R.tally q (isRecv (some p)) g = R.tally p (isSend q) g := by
  induction g with
  | zero => rfl
  | succ g ih => rw [R.tally_succ q rfl, R.tally_succ p rfl, ih (by omega), hbalanced g hg q hq p hp]

omit hsource in
theorem Knows.of_balanced (hbalanced : ∀ g < R.G, ∀ q < n, ∀ p < n,
    (R.posts g q).countP (isRecv (some p)) = (R.posts g p).countP (isSend q)) {p q g r : ℕ} (hq : q < n) (hp : p < n)
    (hg : g < R.G) (hwaits : R.waits g q = true) (hsend : 0 < (R.posts g p).countP (isSend q))
    (h : Knows R n (fun q p g => R.tally q (isRecv (some p)) g) p g r) :
    Knows R n (fun q p g => R.tally q (isRecv (some p)) g) q (g + 1) r := by
  refine .heard hq hp hg hwaits (le_of_lt hg) ?_ h
  rw [tally_eq_of_balanced hbalanced hq hp hg, R.tally_succ p rfl]
  omega

theorem Sound.of_balanced (hbalanced : ∀ g < R.G, ∀ q < n, ∀ p < n,
    (R.posts g q).countP (isRecv (some p)) = (R.posts g p).countP (isSend q)) :
    Sound R n (fun _ => false) fun q p g => R.tally q (isRecv (some p)) g := by
  refine Sound.of_specific hsource ?_ ?_ ?_
  · exact fun q hq p hp => tally_eq_of_balanced hbalanced hq hp (le_rfl)
  · exact fun q hq p hp g hg _ => le_of_eq (tally_eq_of_balanced hbalanced hq hp hg)
  · exact fun q hq p hp g hg _ => le_of_eq (tally_eq_of_balanced hbalanced hq hp hg).symm

end Specific

end Rounds

end OpenMPI.Lib.Posting
