import OpenMPI.Lib.Run
import Mathlib.Algebra.BigOperators.Group.Finset.Piecewise
import Mathlib.Data.Nat.Count

/-!
# Processes that post sends and receives

Every process makes the same call again and again: it posts sends and receives, and waits until all it posted is
complete.  A message is delivered in the order of its channel, and matched there with the first receive posted that
accepts it, or waits for one.  A receive may accept any source, and a send may be complete only when it is matched.
-/

namespace OpenMPI.Lib.Posting

open List Function Nat

inductive Op
  | isend (dst : ℕ) (sync : Bool)
  | irecv (src : Option ℕ)
  | wait
  deriving DecidableEq

/-- The processes below `n`, what each does in a call, and which of the messages from one to another are complete, unless
their send is synchronous, before they are matched. -/
structure Calls where
  n : ℕ
  prog : ℕ → List Op
  eager : ℕ → ℕ → ℕ → Bool

/-- How many operations each process did, the messages of each channel with whether their sends are synchronous, how many
of them are on their way, the sources of messages that found no receive, the receives that found no message, and how many
messages of each channel were matched. -/
structure State where
  pos : ℕ → ℕ
  sent : ℕ → ℕ → List Bool
  flight : ℕ → ℕ → ℕ
  unexpected : ℕ → List ℕ
  posted : ℕ → List (Option ℕ)
  matched : ℕ → ℕ → ℕ

/-- A step of a process, or the delivery of a message from the first to the second. -/
inductive Event
  | exec (p : ℕ)
  | deliver (p q : ℕ)

def accepts (src : Option ℕ) (p : ℕ) : Bool := src.all (· == p)

def bump (f : ℕ → ℕ → ℕ) (p q : ℕ) : ℕ → ℕ → ℕ := fun a b => if a = p ∧ b = q then f a b + 1 else f a b

def State.start : State := ⟨fun _ => 0, fun _ _ => [], fun _ _ => 0, fun _ => [], fun _ => [], fun _ _ => 0⟩

namespace Calls

variable (C : Calls)

def period (p : ℕ) : ℕ := (C.prog p).length + 1

/-- What a process does next; it enters a call if that is nothing. -/
def next (p x : ℕ) : Option Op := if x % C.period p = 0 then none else (C.prog p)[x % C.period p - 1]?

def SendsDone (s : State) (p : ℕ) : Prop :=
  ∀ q < C.n, ∀ i < (s.sent p q).length, s.matched p q ≤ i → (s.sent p q)[i]? = some false ∧ C.eager p q i = true

instance (s : State) (p : ℕ) : Decidable (C.SendsDone s p) := by
  unfold SendsDone
  infer_instance

def exec (s : State) (p : ℕ) : Option State :=
  let s' := { s with pos := Function.update s.pos p (s.pos p + 1) }
  match C.next p (s.pos p) with
  | none => some s'
  | some (.isend dst sync) => some { s' with
      sent := fun a b => if a = p ∧ b = dst then s.sent a b ++ [sync] else s.sent a b
      flight := bump s.flight p dst }
  | some (.irecv src) =>
    match (s.unexpected p).find? (accepts src) with
    | some q => some { s' with
        unexpected := Function.update s.unexpected p ((s.unexpected p).erase q)
        matched := bump s.matched q p }
    | none => some { s' with posted := Function.update s.posted p (s.posted p ++ [src]) }
  | some .wait => if s.posted p = [] ∧ C.SendsDone s p then some s' else none

def deliver (s : State) (p q : ℕ) : Option State :=
  if s.flight p q = 0 then none
  else
    let s' := { s with flight := fun a b => if a = p ∧ b = q then s.flight a b - 1 else s.flight a b }
    match (s.posted q).find? (accepts · p) with
    | some src => some { s' with
        posted := Function.update s.posted q ((s.posted q).erase src)
        matched := bump s.matched p q }
    | none => some { s' with unexpected := Function.update s.unexpected q (s.unexpected q ++ [p]) }

def step (s : State) : Event → Option State
  | .exec p => if p < C.n then C.exec s p else none
  | .deliver p q => deliver s p q

def system : System State Event where
  init s := s = .start
  step s e t := C.step s e = some t

def Entered (s : State) (p k : ℕ) : Prop := k * C.period p < s.pos p

def Returned (s : State) (p k : ℕ) : Prop := (k + 1) * C.period p ≤ s.pos p

def Stuck (s : State) : Prop :=
  (∀ p q, C.step s (.deliver p q) = none) ∧ ∀ p, C.next p (s.pos p) ≠ none → C.step s (.exec p) = none

/-- How many of the first `x` operations of a process satisfy `f`. -/
def count (p : ℕ) (f : Op → Bool) (x : ℕ) : ℕ := Nat.count (fun y => (C.next p y).any f = true) x

theorem count_zero (p : ℕ) (f : Op → Bool) : C.count p f 0 = 0 := Nat.count_zero _

theorem count_succ (p : ℕ) (f : Op → Bool) (x : ℕ) :
    C.count p f (x + 1) = C.count p f x + if (C.next p x).any f = true then 1 else 0 := Nat.count_succ _ _

theorem count_mono {p : ℕ} {f : Op → Bool} {x y : ℕ} (h : x ≤ y) : C.count p f x ≤ C.count p f y := count_monotone _ h

theorem next_add_mul (p k x : ℕ) : C.next p (k * C.period p + x) = C.next p x := by
  unfold next
  rw [mul_add_mod']

theorem count_one_add {p : ℕ} {f : Op → Bool} {i : ℕ} (h : i ≤ (C.prog p).length) :
    C.count p f (i + 1) = ((C.prog p).take i).countP f := by
  induction i with
  | zero =>
    rw [count_succ, count_zero, take_zero, countP_nil, next, if_pos (zero_mod _)]
    rfl
  | succ i ih =>
    have hmod : (i + 1) % C.period p = i + 1 := mod_eq_of_lt (by unfold period; omega)
    have hnext : C.next p (i + 1) = some (C.prog p)[i] := by
      rw [next, hmod, if_neg (succ_ne_zero i), Nat.add_sub_cancel, getElem?_eq_getElem]
    rw [count_succ, ih (by omega), hnext, ← take_concat_get' _ _ h, countP_append, countP_singleton]
    rfl

theorem count_period_add (p : ℕ) (f : Op → Bool) (k x : ℕ) :
    C.count p f (k * C.period p + x) = k * (C.prog p).countP f + C.count p f x := by
  have hshift (k x : ℕ) : C.count p f (k * C.period p + x) = C.count p f (k * C.period p) + C.count p f x := by
    unfold count
    rw [count_add]
    simp only [C.next_add_mul]
  have hcall : C.count p f (C.period p) = (C.prog p).countP f := by
    rw [period, C.count_one_add (le_rfl), take_length]
  rw [hshift]
  congr 1
  induction k with
  | zero => rw [Nat.zero_mul, Nat.zero_mul, count_zero]
  | succ k ih =>
    have h1 := hshift k (C.period p)
    rw [succ_mul, h1, ih, hcall, succ_mul]

end Calls

def isSend (q : ℕ) : Op → Bool
  | .isend dst _ => dst = q
  | _ => false

def isRecv (r : Option ℕ) : Op → Bool
  | .irecv src => src = r
  | _ => false

/-- How many messages were matched with receives like `r` of process `q`. -/
def taken (C : Calls) (s : State) (q : ℕ) (r : Option ℕ) : ℕ :=
  ∑ p ∈ (Finset.range C.n).filter fun p => accepts r p = true, s.matched p q

/-- The receives of a process are all from any source, or all from one given. -/
structure Pure (C : Calls) (wild : ℕ → Bool) : Prop where
  iff : ∀ q < C.n, ∀ r, Op.irecv r ∈ C.prog q → (r = none ↔ wild q = true)

/-- Messages are counted where they are sent, on their way, waiting and matched, and receives where they are posted,
waiting and matched; no message and no receive wait for each other. -/
structure Inv (C : Calls) (wild : ℕ → Bool) (s : State) : Prop where
  idle : ∀ p, C.n ≤ p → s.pos p = 0
  sends : ∀ p q, (s.sent p q).length = C.count p (isSend q) (s.pos p)
  flow : ∀ p q, (s.sent p q).length = s.flight p q + (s.unexpected q).count p + s.matched p q
  kind : ∀ q, ∀ r ∈ s.posted q, (r = none ↔ wild q = true)
  recvs : ∀ q r, (r = none ↔ wild q = true) → C.count q (isRecv r) (s.pos q) = (s.posted q).count r + taken C s q r
  apart : ∀ q, ∀ p ∈ s.unexpected q, ∀ r ∈ s.posted q, accepts r p = false

variable {C : Calls} {wild : ℕ → Bool} {s t : State}

theorem Calls.mem_of_next {p x : ℕ} {op : Op} (h : C.next p x = some op) : op ∈ C.prog p := by
  unfold Calls.next at h
  split_ifs at h
  exact mem_of_getElem? h

theorem sum_bump (f : ℕ → ℕ → ℕ) (p q b : ℕ) (t : Finset ℕ) :
    ∑ a ∈ t, bump f p q a b = (∑ a ∈ t, f a b) + if p ∈ t ∧ b = q then 1 else 0 := by
  unfold bump
  by_cases hb : b = q
  · simp only [hb, and_true]
    have hsplit (a : ℕ) : (if a = p then f a q + 1 else f a q) = f a q + if a = p then 1 else 0 := by
      split_ifs <;> rfl
    rw [Finset.sum_congr rfl fun a _ => hsplit a, Finset.sum_add_distrib, Finset.sum_ite_eq']
  · simp only [hb, and_false, if_false, add_zero]

theorem accepts_some {q p : ℕ} : accepts (some q) p = true ↔ q = p := by
  rw [accepts, Option.all_some, beq_iff_eq]

theorem filter_accepts_some {n p : ℕ} (hp : p < n) : (Finset.range n).filter (fun q => accepts (some p) q = true) = {p} := by
  ext q
  rw [Finset.mem_filter, Finset.mem_range, Finset.mem_singleton, accepts_some]
  constructor
  · exact fun hq => hq.2.symm
  · rintro rfl
    exact ⟨hp, rfl⟩

theorem filter_accepts_none (n : ℕ) : (Finset.range n).filter (fun q => accepts none q = true) = Finset.range n :=
  Finset.filter_true_of_mem fun _ _ => rfl

theorem Inv.lt_of_sent (h : Inv C wild s) {p q : ℕ} (hp : 0 < (s.sent p q).length) : p < C.n := by
  by_contra hge
  rw [h.sends, h.idle p (Nat.le_of_not_lt hge), Calls.count_zero] at hp
  exact absurd hp (lt_irrefl 0)

theorem eq_of_accepts {r r' : Option ℕ} {p : ℕ} (hr : accepts r p = true) (hr' : accepts r' p = true)
    (hkind : r = none ↔ r' = none) : r = r' := by
  cases r with
  | none => exact (hkind.mp rfl).symm
  | some a =>
    cases r' with
    | none => exact absurd (hkind.mpr rfl) (Option.some_ne_none a)
    | some b => rw [accepts_some.mp hr, accepts_some.mp hr']

theorem taken_bump {p q : ℕ} {r : Option ℕ} (hp : p < C.n) (hr : accepts r p = true) (hkind : r = none ↔ wild q = true)
    {s' : State} (hs' : s'.matched = bump s.matched p q) {b : ℕ} {r' : Option ℕ} (hkind' : r' = none ↔ wild b = true) :
    taken C s' b r' = taken C s b r' + if b = q ∧ r' = r then 1 else 0 := by
  unfold taken
  rw [hs', sum_bump]
  congr 1
  refine if_congr ?_ rfl rfl
  rw [Finset.mem_filter, Finset.mem_range]
  constructor
  · rintro ⟨⟨-, hr'⟩, rfl⟩
    exact ⟨rfl, eq_of_accepts hr' hr (hkind'.trans hkind.symm)⟩
  · rintro ⟨rfl, rfl⟩
    exact ⟨⟨hp, hr⟩, rfl⟩

theorem Inv.start : Inv C wild .start where
  idle _ _ := rfl
  sends _ _ := (C.count_zero ..).symm
  flow _ _ := rfl
  kind _ _ h := absurd h not_mem_nil
  recvs q r _ := by
    have htaken : taken C .start q r = 0 := Finset.sum_eq_zero fun _ _ => rfl
    rw [htaken]
    exact C.count_zero ..
  apart _ _ h := absurd h not_mem_nil

theorem count_update (s : State) (p : ℕ) {op : Option Op} (hop : C.next p (s.pos p) = op) (b : ℕ) (f : Op → Bool) :
    C.count b f (update s.pos p (s.pos p + 1) b) =
      C.count b f (s.pos b) + if b = p ∧ op.any f = true then 1 else 0 := by
  by_cases hb : b = p
  · subst hb
    rw [update_self, Calls.count_succ, hop]
    simp only [true_and]
  · rw [update_of_ne hb, if_neg fun h => hb h.1]
    rfl

section

variable (h : Inv C wild s)

include h

theorem idle_update {p : ℕ} (hp : p < C.n) (b : ℕ) (hb : C.n ≤ b) :
    update s.pos p (s.pos p + 1) b = 0 := by
  rw [update_of_ne (by omega)]
  exact h.idle b hb

theorem Inv.advance {p : ℕ} (hp : p < C.n) {op : Option Op} (hop : C.next p (s.pos p) = op)
    (hsend : ∀ q, op.any (isSend q) = false) (hrecv : ∀ r, op.any (isRecv r) = false) :
    Inv C wild { s with pos := update s.pos p (s.pos p + 1) } :=
  { h with
    idle := idle_update h hp
    sends := fun a b => by
      rw [count_update s p hop, hsend, if_neg fun h => absurd h.2 Bool.false_ne_true]
      exact h.sends a b
    recvs := fun q r hkind => by
      rw [count_update s p hop, hrecv, if_neg fun h => absurd h.2 Bool.false_ne_true]
      exact h.recvs q r hkind }

theorem Inv.isend {p dst : ℕ} {sync : Bool} (hp : p < C.n)
    (hop : C.next p (s.pos p) = some (.isend dst sync)) :
    Inv C wild { s with
      pos := update s.pos p (s.pos p + 1)
      sent := fun a b => if a = p ∧ b = dst then s.sent a b ++ [sync] else s.sent a b
      flight := bump s.flight p dst } :=
  { h with
    idle := idle_update h hp
    sends := fun a b => by
      rw [count_update s p hop]
      have hsends := h.sends a b
      by_cases hab : a = p ∧ b = dst
      · obtain ⟨rfl, rfl⟩ := hab
        simp [isSend, hsends]
      · have hnot : ¬(a = p ∧ dst = b) := fun hd => hab ⟨hd.1, hd.2.symm⟩
        simp [isSend, hab, hnot, hsends]
    flow := fun a b => by
      have hflow := h.flow a b
      unfold bump
      dsimp only
      split_ifs
      · rw [length_append, length_singleton]
        omega
      · exact hflow
    recvs := fun q r hkind => by
      rw [count_update s p hop, if_neg fun hr => absurd hr.2 Bool.false_ne_true]
      exact h.recvs q r hkind }

theorem Inv.irecv_find (hpure : Pure C wild) {p q : ℕ} {src : Option ℕ} (hp : p < C.n)
    (hop : C.next p (s.pos p) = some (.irecv src)) (hq : (s.unexpected p).find? (accepts src) = some q) :
    Inv C wild { s with
      pos := update s.pos p (s.pos p + 1)
      unexpected := update s.unexpected p ((s.unexpected p).erase q)
      matched := bump s.matched q p } where
  idle := idle_update h hp
  sends a b := by
    rw [count_update s p hop, if_neg fun hs => absurd hs.2 Bool.false_ne_true]
    exact h.sends a b
  flow a b := by
    have hflow := h.flow a b
    have hmem : q ∈ s.unexpected p := mem_of_find?_eq_some hq
    have hpos := count_pos_iff.mpr hmem
    unfold bump
    dsimp only
    by_cases hb : b = p
    · subst hb
      rw [update_self, count_erase]
      by_cases ha : a = q
      · subst ha
        simp only [beq_self_eq_true, if_true, and_self]
        omega
      · have hne : ¬(q == a) = true := fun hqa => ha (beq_iff_eq.mp hqa).symm
        simp only [ha, hne, Bool.false_eq_true, false_and, if_false]
        omega
    · rw [update_of_ne hb, if_neg fun hab => hb hab.2]
      exact hflow
  kind := h.kind
  recvs b r hkind := by
    have hacc : accepts src q = true := find?_some hq
    have hsrc := hpure.iff p hp src (Calls.mem_of_next hop)
    have hlt : q < C.n := by
      refine h.lt_of_sent (q := p) ?_
      have hpos := count_pos_iff.mpr (mem_of_find?_eq_some hq)
      have hflow := h.flow q p
      omega
    rw [count_update s p hop, taken_bump (s := s) hlt hacc hsrc rfl hkind, h.recvs b r hkind, add_assoc]
    congr 2
    simp only [Option.any_some, isRecv, decide_eq_true_eq]
    exact if_congr (and_congr_right fun _ => eq_comm) rfl rfl
  apart b a ha r hr := by
    refine h.apart b a ?_ r hr
    dsimp only at ha
    by_cases hb : b = p
    · subst hb
      rw [update_self] at ha
      exact mem_of_mem_erase ha
    · rwa [update_of_ne hb] at ha

theorem Inv.irecv_post (hpure : Pure C wild) {p : ℕ} {src : Option ℕ} (hp : p < C.n)
    (hop : C.next p (s.pos p) = some (.irecv src)) (hnone : (s.unexpected p).find? (accepts src) = none) :
    Inv C wild { s with
      pos := update s.pos p (s.pos p + 1)
      posted := update s.posted p (s.posted p ++ [src]) } where
  idle := idle_update h hp
  sends a b := by
    rw [count_update s p hop, if_neg fun hs => absurd hs.2 Bool.false_ne_true]
    exact h.sends a b
  flow := h.flow
  kind b r hr := by
    dsimp only at hr
    by_cases hb : b = p
    · subst hb
      rw [update_self] at hr
      rcases mem_append.mp hr with hr | hr
      · exact h.kind b r hr
      · obtain rfl := mem_singleton.mp hr
        exact hpure.iff b hp r (Calls.mem_of_next hop)
    · rw [update_of_ne hb] at hr
      exact h.kind b r hr
  recvs b r hkind := by
    rw [count_update s p hop, h.recvs b r hkind]
    dsimp only
    by_cases hb : b = p
    · subst hb
      rw [update_self, count_append, count_singleton]
      simp only [true_and, Option.any_some, isRecv, decide_eq_true_eq, beq_iff_eq]
      rw [add_right_comm]
      rfl
    · rw [update_of_ne hb, if_neg fun hr => hb hr.1]
      rfl
  apart b a ha r hr := by
    dsimp only at ha hr
    by_cases hb : b = p
    · subst hb
      rw [update_self] at hr
      rcases mem_append.mp hr with hr | hr
      · exact h.apart b a ha r hr
      · obtain rfl := mem_singleton.mp hr
        exact Bool.eq_false_iff.mpr (find?_eq_none.mp hnone a ha)
    · rw [update_of_ne hb] at hr
      exact h.apart b a ha r hr

theorem Inv.deliver_find {p q : ℕ} {src : Option ℕ} (hflight : s.flight p q ≠ 0)
    (hsrc : (s.posted q).find? (accepts · p) = some src) :
    Inv C wild { s with
      flight := fun a b => if a = p ∧ b = q then s.flight a b - 1 else s.flight a b
      posted := update s.posted q ((s.posted q).erase src)
      matched := bump s.matched p q } :=
  { h with
    flow := fun a b => by
      have hflow := h.flow a b
      unfold bump
      dsimp only
      split_ifs with hab
      · obtain ⟨rfl, rfl⟩ := hab
        omega
      · exact hflow
    kind := fun b r hr => by
      refine h.kind b r ?_
      dsimp only at hr
      by_cases hb : b = q
      · subst hb
        rw [update_self] at hr
        exact mem_of_mem_erase hr
      · rwa [update_of_ne hb] at hr
    recvs := fun b r hkind => by
      have hmem : src ∈ s.posted q := mem_of_find?_eq_some hsrc
      have hacc : accepts src p = true := find?_some (p := (accepts · p)) hsrc
      have hlt : p < C.n := by
        refine h.lt_of_sent (q := q) ?_
        have hflow := h.flow p q
        omega
      rw [taken_bump (s := s) hlt hacc (h.kind q src hmem) rfl hkind, h.recvs b r hkind]
      have hpos := count_pos_iff.mpr hmem
      dsimp only
      by_cases hb : b = q
      · subst hb
        rw [update_self, count_erase]
        by_cases hr : r = src
        · subst hr
          simp only [beq_self_eq_true, if_true, and_self]
          omega
        · have hne : ¬(src == r) = true := fun hsr => hr (beq_iff_eq.mp hsr).symm
          simp only [hr, hne, Bool.false_eq_true, and_false, if_false]
          omega
      · rw [update_of_ne hb, if_neg fun hr => hb hr.1]
        rfl
    apart := fun b a ha r hr => by
      refine h.apart b a ha r ?_
      dsimp only at hr
      by_cases hb : b = q
      · subst hb
        rw [update_self] at hr
        exact mem_of_mem_erase hr
      · rwa [update_of_ne hb] at hr }

theorem Inv.deliver_keep {p q : ℕ} (hflight : s.flight p q ≠ 0)
    (hnone : (s.posted q).find? (accepts · p) = none) :
    Inv C wild { s with
      flight := fun a b => if a = p ∧ b = q then s.flight a b - 1 else s.flight a b
      unexpected := update s.unexpected q (s.unexpected q ++ [p]) } :=
  { h with
    flow := fun a b => by
      have hflow := h.flow a b
      dsimp only
      by_cases hb : b = q
      · subst hb
        rw [update_self, count_append, count_singleton]
        by_cases ha : a = p
        · subst ha
          simp only [and_self, if_true, beq_self_eq_true]
          omega
        · have hne : ¬(p == a) = true := fun hpa => ha (beq_iff_eq.mp hpa).symm
          simp only [ha, hne, Bool.false_eq_true, false_and, if_false]
          omega
      · rw [update_of_ne hb, if_neg fun hab => hb hab.2]
        exact hflow
    apart := fun b a ha r hr => by
      dsimp only at ha hr
      by_cases hb : b = q
      · subst hb
        rw [update_self] at ha
        rcases mem_append.mp ha with ha | ha
        · exact h.apart b a ha r hr
        · obtain rfl := mem_singleton.mp ha
          exact Bool.eq_false_iff.mpr (find?_eq_none.mp hnone r hr)
      · rw [update_of_ne hb] at ha
        exact h.apart b a ha r hr }

theorem Inv.step (hpure : Pure C wild) {e : Event} (hst : C.step s e = some t) : Inv C wild t := by
  cases e with
  | exec p =>
    unfold Calls.step at hst
    dsimp only at hst
    split_ifs at hst with hp
    unfold Calls.exec at hst
    dsimp only at hst
    cases hop : C.next p (s.pos p) with
    | none =>
      rw [hop] at hst
      cases hst
      exact h.advance hp hop (fun _ => rfl) fun _ => rfl
    | some op =>
      cases op with
      | isend dst sync =>
        rw [hop] at hst
        cases hst
        exact h.isend hp hop
      | irecv src =>
        rw [hop] at hst
        dsimp only at hst
        cases hfind : (s.unexpected p).find? (accepts src) with
        | some q =>
          rw [hfind] at hst
          cases hst
          exact h.irecv_find hpure hp hop hfind
        | none =>
          rw [hfind] at hst
          cases hst
          exact h.irecv_post hpure hp hop hfind
      | wait =>
        rw [hop] at hst
        dsimp only at hst
        split_ifs at hst
        cases hst
        exact h.advance hp hop (fun _ => rfl) fun _ => rfl
  | deliver p q =>
    unfold Calls.step Calls.deliver at hst
    dsimp only at hst
    split_ifs at hst with hflight
    cases hfind : (s.posted q).find? (accepts · p) with
    | some src =>
      rw [hfind] at hst
      cases hst
      exact h.deliver_find hflight hfind
    | none =>
      rw [hfind] at hst
      cases hst
      exact h.deliver_keep hflight hfind

end

theorem Inv.of_reachable (hpure : Pure C wild) (hs : C.system.Reachable s) : Inv C wild s := by
  refine hs.invariant (fun s hs => ?_) fun s e t h hst => h.step hpure hst
  obtain rfl : s = .start := hs
  exact Inv.start

end OpenMPI.Lib.Posting
