import Mathlib.Data.List.Range
import OpenMPI.Lib.Run

/-!
# Processes that pass messages

Every process runs its own list of instructions over its own memory.  A message is on the channel
from its sender to its receiver from the moment it is sent, and a channel keeps the order.  Steps of
two processes commute, so that one run to the end, with nothing left on the channels, speaks for all
of them (`Finishes.of_goes`).

A run to the end is put together from the parts of the programs: `Exec` says what one process alone
does with the messages meant for it, `Goes` what all of them do together.
-/

namespace OpenMPI.Lib

open List Function

/-- One instruction of a process with memory `σ`.  A message is a list of elements; `count` is the
room for it at its receiver. -/
inductive Instr (σ α : Type*)
  | send (dst : ℕ) (msg : σ → List α)
  | recv (src count : ℕ) (take : List α → σ → σ)
  | work (f : σ → σ)

variable {σ α : Type*}

/-- The messages on their way, from the first rank to the second. -/
abbrev Channels (α : Type*) := ℕ → ℕ → List (List α)

namespace Channels

def quiet : Channels α := fun _ _ => []

def post (c : Channels α) (src dst : ℕ) (l : List α) : Channels α :=
  fun s d => if s = src ∧ d = dst then c s d ++ [l] else c s d

def fetch (c : Channels α) (src dst : ℕ) : Channels α :=
  fun s d => if s = src ∧ d = dst then (c s d).tail else c s d

theorem post_post (c : Channels α) {p q d d' : ℕ} {l l' : List α} (h : p ≠ q) :
    (c.post p d l).post q d' l' = (c.post q d' l').post p d l := by
  funext s x
  unfold post
  split_ifs with h1 h2
  · exact absurd (h2.1.symm.trans h1.1) h
  · rfl
  · rfl
  · rfl

theorem fetch_fetch (c : Channels α) {s s' p q : ℕ} (h : p ≠ q) :
    (c.fetch s p).fetch s' q = (c.fetch s' q).fetch s p := by
  funext x y
  unfold fetch
  split_ifs with h1 h2
  · exact absurd (h2.2.symm.trans h1.2) h
  · rfl
  · rfl
  · rfl

theorem post_fetch (c : Channels α) {p d s q : ℕ} {l : List α} (h : c s q ≠ []) :
    (c.post p d l).fetch s q = (c.fetch s q).post p d l := by
  funext x y
  simp only [fetch, post]
  split_ifs with h1 h2
  · obtain ⟨rfl, rfl⟩ := h1
    exact tail_append_of_ne_nil h
  · rfl
  · rfl
  · rfl

theorem post_head {c : Channels α} {p d s q : ℕ} {l a : List α} {ls : List (List α)}
    (h : c s q = a :: ls) : ∃ ls', c.post p d l s q = a :: ls' := by
  unfold post
  split_ifs with h1
  · exact ⟨ls ++ [l], by rw [h]; rfl⟩
  · exact ⟨ls, h⟩

theorem fetch_head (c : Channels α) {s p s' q : ℕ} (h : p ≠ q) : c.fetch s p s' q = c s' q :=
  if_neg fun h' => h h'.2.symm

end Channels

/-- What an instruction of process `p` does to its memory and to the channels.  A message longer
than the receive has room for is an error. -/
def Instr.act (p : ℕ) (m : σ) (c : Channels α) : Instr σ α → Option (σ × Channels α)
  | .send dst msg => some (m, c.post p dst (msg m))
  | .recv src count take =>
    match c src p with
    | [] => none
    | l :: _ => if l.length ≤ count then some (take l m, c.fetch src p) else none
  | .work f => some (f m, c)

theorem Instr.act_recv {p src count : ℕ} {m : σ} {c : Channels α} {take : List α → σ → σ}
    {l : List α} {ls : List (List α)} (h : c src p = l :: ls) (hl : l.length ≤ count) :
    (Instr.recv src count take).act p m c = some (take l m, c.fetch src p) := by
  simp only [act, h, hl, if_true]

theorem Instr.act_recv_eq_some {p src count : ℕ} {m m' : σ} {c c' : Channels α}
    {take : List α → σ → σ} (h : (Instr.recv src count take).act p m c = some (m', c')) :
    ∃ l ls, c src p = l :: ls ∧ l.length ≤ count ∧ take l m = m' ∧ c.fetch src p = c' := by
  simp only [act] at h
  split at h
  · cases h
  · rename_i l ls hl
    split_ifs at h with hc
    obtain ⟨hm, hc'⟩ := Prod.mk.inj (Option.some.inj h)
    exact ⟨l, ls, hl, hc, hm, hc'⟩

theorem Instr.act_act {p q : ℕ} (hpq : p ≠ q) {m m' n n' : σ} {c c' d : Channels α}
    {i j : Instr σ α} (hi : i.act p m c = some (m', c')) (hj : j.act q n c = some (n', d)) :
    ∃ e, j.act q n c' = some (n', e) ∧ i.act p m d = some (m', e) := by
  cases i with
  | work f =>
    cases hi
    exact ⟨d, hj, rfl⟩
  | send dst msg =>
    cases hi
    refine ⟨d.post p dst (msg m), ?_, rfl⟩
    cases j with
    | work f =>
      cases hj
      rfl
    | send dst' msg' =>
      cases hj
      rw [← Channels.post_post c hpq]
      rfl
    | recv src count take =>
      obtain ⟨l, ls, hl, hcount, rfl, rfl⟩ := act_recv_eq_some hj
      obtain ⟨ls', hls⟩ := Channels.post_head (p := p) (d := dst) (l := msg m) hl
      rw [act_recv hls hcount, c.post_fetch (hl ▸ cons_ne_nil _ _)]
  | recv src count take =>
    obtain ⟨l, ls, hl, hcount, rfl, rfl⟩ := act_recv_eq_some hi
    refine ⟨d.fetch src p, ?_, ?_⟩
    · cases j with
      | work f =>
        cases hj
        rfl
      | send dst' msg' =>
        cases hj
        rw [c.post_fetch (hl ▸ cons_ne_nil _ _)]
        rfl
      | recv src' count' take' =>
        obtain ⟨l', ls', hl', hcount', rfl, rfl⟩ := act_recv_eq_some hj
        rw [act_recv ((c.fetch_head hpq).trans hl') hcount', Channels.fetch_fetch c hpq]
    · cases j with
      | work f =>
        cases hj
        exact act_recv hl hcount
      | send dst' msg' =>
        cases hj
        obtain ⟨ls', hls⟩ := Channels.post_head (p := q) (d := dst') (l := msg' n) hl
        exact act_recv hls hcount
      | recv src' count' take' =>
        obtain ⟨l', ls', hl', hcount', rfl, rfl⟩ := act_recv_eq_some hj
        exact act_recv ((c.fetch_head hpq.symm).trans hl) hcount

@[ext]
structure World (σ α : Type*) where
  prog : ℕ → List (Instr σ α)
  mem : ℕ → σ
  chan : Channels α

namespace World

def next (w : World σ α) (p : ℕ) (is : List (Instr σ α)) (r : σ × Channels α) : World σ α where
  prog := Function.update w.prog p is
  mem := Function.update w.mem p r.1
  chan := r.2

def exec (w : World σ α) (p : ℕ) : Option (World σ α) :=
  match w.prog p with
  | [] => none
  | i :: is => (i.act p (w.mem p) w.chan).map (w.next p is)

theorem exec_cons {w : World σ α} {p : ℕ} {i : Instr σ α} {is : List (Instr σ α)}
    {r : σ × Channels α} (h : w.prog p = i :: is) (hi : i.act p (w.mem p) w.chan = some r) :
    w.exec p = some (w.next p is r) := by
  simp only [exec, h, hi, Option.map_some]

theorem exec_eq_some {w w' : World σ α} {p : ℕ} (h : w.exec p = some w') :
    ∃ i is r, w.prog p = i :: is ∧ i.act p (w.mem p) w.chan = some r ∧ w.next p is r = w' := by
  unfold exec at h
  split at h
  · cases h
  · rename_i i is hp
    obtain ⟨r, hr, rfl⟩ := Option.map_eq_some_iff.mp h
    exact ⟨i, is, r, hp, hr, rfl⟩

@[simp] theorem next_next (w : World σ α) (p : ℕ) (is js : List (Instr σ α))
    (r r' : σ × Channels α) : (w.next p is r).next p js r' = w.next p js r' := by
  simp only [next, Function.update_idem]

@[simp] theorem next_self (w : World σ α) (p : ℕ) : w.next p (w.prog p) (w.mem p, w.chan) = w := by
  simp only [next, Function.update_eq_self]

@[simp] theorem next_prog (w : World σ α) (p : ℕ) (is : List (Instr σ α)) (r : σ × Channels α) :
    (w.next p is r).prog p = is :=
  update_self ..

@[simp] theorem next_mem (w : World σ α) (p : ℕ) (is : List (Instr σ α)) (r : σ × Channels α) :
    (w.next p is r).mem p = r.1 :=
  update_self ..

theorem next_prog_of_ne {w : World σ α} {p q : ℕ} {is : List (Instr σ α)} {r : σ × Channels α}
    (h : q ≠ p) : (w.next p is r).prog q = w.prog q :=
  update_of_ne h _ _

theorem next_mem_of_ne {w : World σ α} {p q : ℕ} {is : List (Instr σ α)} {r : σ × Channels α}
    (h : q ≠ p) : (w.next p is r).mem q = w.mem q :=
  update_of_ne h _ _

end World

def processes (σ α : Type*) : System (World σ α) ℕ where
  init w := w.chan = .quiet
  step w p w' := w.exec p = some w'

theorem processes_commuting : (processes σ α).Commuting where
  det w p t t' ht ht' := Option.some.inj (ht.symm.trans ht')
  diamond w p q t u hpq ht hu := by
    obtain ⟨i, is, ⟨m, c⟩, hp, hi, rfl⟩ := World.exec_eq_some ht
    obtain ⟨j, js, ⟨n, d⟩, hq, hj, rfl⟩ := World.exec_eq_some hu
    obtain ⟨e, hj', hi'⟩ := Instr.act_act hpq hi hj
    refine ⟨_, World.exec_cons ((World.next_prog_of_ne hpq.symm).trans hq)
      (by rw [World.next_mem_of_ne hpq.symm]; exact hj'), ?_⟩
    refine (World.exec_cons ((World.next_prog_of_ne hpq).trans hp)
      (by rw [World.next_mem_of_ne hpq]; exact hi')).trans (congrArg some ?_)
    unfold World.next
    simp only [Function.update_comm hpq]

/-- The messages from, or to, each of the other processes. -/
abbrev Mail (α : Type*) := ℕ → List (List α)

namespace Mail

def nothing : Mail α := fun _ => []

def one (q : ℕ) (l : List α) : Mail α := fun x => if x = q then [l] else []

def append (a b : Mail α) : Mail α := fun x => a x ++ b x

/-- The messages of the turns of a loop over `l`. -/
def flat {ι : Type*} (l : List ι) (f : ι → Mail α) : Mail α := fun x => l.flatMap fun i => f i x

@[simp] theorem nothing_apply (x : ℕ) : (nothing : Mail α) x = [] := rfl

@[simp] theorem append_apply (a b : Mail α) (x : ℕ) : a.append b x = a x ++ b x := rfl

theorem one_self (q : ℕ) (l : List α) : one q l q = [l] := if_pos rfl

theorem one_of_ne {q x : ℕ} (l : List α) (h : x ≠ q) : one q l x = [] := if_neg h

theorem one_apply (f : ℕ → List α) (q x : ℕ) : one q (f q) x = if x = q then [f x] else [] := by
  unfold one
  split_ifs with h
  · rw [h]
  · rfl

@[simp] theorem nothing_append (a : Mail α) : nothing.append a = a := rfl

@[simp] theorem append_nothing (a : Mail α) : a.append nothing = a :=
  funext fun _ => List.append_nil _

theorem append_assoc (a b c : Mail α) : (a.append b).append c = a.append (b.append c) :=
  funext fun _ => List.append_assoc ..

theorem flat_cons {ι : Type*} (a : ι) (l : List ι) (f : ι → Mail α) :
    flat (a :: l) f = (f a).append (flat l f) :=
  funext fun _ => flatMap_cons

theorem flat_map {ι κ : Type*} (g : ι → κ) (l : List ι) (f : κ → Mail α) :
    flat (l.map g) f = flat l (f ∘ g) :=
  funext fun _ => flatMap_map ..

theorem flat_append {ι : Type*} (l l' : List ι) (f : ι → Mail α) :
    flat (l ++ l') f = (flat l f).append (flat l' f) :=
  funext fun _ => flatMap_append

theorem flat_singleton {ι : Type*} (i : ι) (f : ι → Mail α) : flat [i] f = f i :=
  funext fun _ => flatMap_singleton ..

theorem flat_one_eq_nil {ι : Type*} {l : List ι} {q : ι → ℕ} (f : ι → List α) {x : ℕ}
    (h : ∀ i ∈ l, q i ≠ x) : flat l (fun i => one (q i) (f i)) x = [] :=
  flatMap_eq_nil_iff.mpr fun i hi => one_of_ne _ (h i hi).symm

theorem flat_one {ι : Type*} {l : List ι} (hl : l.Nodup) {q : ι → ℕ} (f : ι → List α) {i : ι}
    (hi : i ∈ l) (hinj : ∀ j ∈ l, q j = q i → j = i) :
    flat l (fun i => one (q i) (f i)) (q i) = [f i] := by
  induction l with
  | nil => cases hi
  | cons a l ih =>
    obtain ⟨ha, hl⟩ := nodup_cons.mp hl
    rw [flat_cons, append_apply]
    rcases mem_cons.mp hi with rfl | hmem
    · rw [one_self, flat_one_eq_nil f fun j hj heq => ?_]
      · rfl
      · obtain rfl := hinj j (mem_cons_of_mem _ hj) heq
        exact ha hj
    · have hne : q i ≠ q a := fun heq => by
        obtain rfl := hinj a mem_cons_self heq.symm
        exact ha hmem
      rw [one_of_ne _ hne, ih hl hmem fun j hj => hinj j (mem_cons_of_mem _ hj)]
      rfl

theorem flat_if {l : List ℕ} (hl : l.Nodup) (p : ℕ → Prop) [DecidablePred p] (f : ℕ → List α)
    (x : ℕ) : flat l (fun i => if p i then one i (f i) else nothing) x =
      if x ∈ l ∧ p x then [f x] else [] := by
  induction l with
  | nil => rfl
  | cons a l ih =>
    obtain ⟨ha, hl⟩ := nodup_cons.mp hl
    rw [flat_cons, append_apply, ih hl]
    by_cases hx : x = a
    · subst hx
      have hno : ¬(x ∈ l ∧ p x) := fun h => ha h.1
      by_cases hp : p x
      · rw [if_neg hno, if_pos hp, one_self, if_pos ⟨mem_cons_self, hp⟩]
        rfl
      · rw [if_neg hno, if_neg hp, if_neg fun h => hp h.2]
        rfl
    · have hnil : (if p a then one a (f a) else nothing) x = [] := by
        split_ifs
        · exact one_of_ne _ hx
        · rfl
      rw [hnil, List.nil_append]
      exact if_congr (and_congr_left fun _ => by simp [hx]) rfl rfl

theorem flat_nothing {ι : Type*} (l : List ι) : flat l (fun _ => (nothing : Mail α)) = nothing :=
  funext fun _ => flatMap_eq_nil_iff.mpr fun _ _ => rfl

end Mail

namespace Channels

/-- What is on the channels when `left` is left of what was meant for `p`, and `p` has put out
`out`. -/
def serve (c : Channels α) (p : ℕ) (left out : Mail α) : Channels α :=
  fun s d => (if d = p then left s else c s d) ++ if s = p then out d else []

theorem serve_nothing (c : Channels α) {p : ℕ} {left : Mail α} (h : ∀ s, c s p = left s) :
    c.serve p left .nothing = c := by
  funext s d
  unfold serve
  rw [Mail.nothing_apply, ite_self, List.append_nil]
  split_ifs with hd
  · rw [hd, h s]
  · rfl

theorem post_apply (c : Channels α) (p d q : ℕ) (l : List α) (s : ℕ) :
    c.post p d l s q = c s q ++ if s = p ∧ q = d then [l] else [] := by
  unfold post
  split_ifs
  · rfl
  · exact (List.append_nil _).symm

theorem post_serve (c : Channels α) (p d : ℕ) (l : List α) (left out : Mail α) :
    (c.post p d l).serve p (fun s => left s ++ if s = p ∧ p = d then [l] else []) out =
      c.serve p left ((Mail.one d l).append out) := by
  funext s x
  unfold serve
  rw [post_apply]
  by_cases hs : s = p <;> by_cases hx : x = p <;> by_cases hd : x = d <;>
    simp_all [Mail.one]

theorem fetch_one {c : Channels α} {p src : ℕ} {l : List α} {inn left : Mail α}
    (h : ∀ s, c s p = (Mail.one src l).append inn s ++ left s) (s : ℕ) :
    c.fetch src p s p = inn s ++ left s := by
  unfold fetch
  split_ifs with hs
  · rw [h s, Mail.append_apply, hs.1, Mail.one_self]
    rfl
  · rw [h s, Mail.append_apply, Mail.one_of_ne l fun heq => hs ⟨heq, rfl⟩]
    rfl

theorem fetch_serve (c : Channels α) (p src : ℕ) (left out : Mail α) :
    (c.fetch src p).serve p left out = c.serve p left out := by
  funext s d
  unfold serve
  by_cases hd : d = p
  · rw [if_pos hd, if_pos hd]
  · rw [if_neg hd, if_neg hd, c.fetch_head (Ne.symm hd)]

end Channels

/-- The process that runs `is` with memory `m` takes the messages `inn` and no others, in their
order, and puts out `out`. -/
inductive Exec : List (Instr σ α) → σ → Mail α → σ → Mail α → Prop
  | nil (m : σ) : Exec [] m .nothing m .nothing
  | send {dst : ℕ} {msg : σ → List α} {is : List (Instr σ α)} {m m' : σ} {inn out : Mail α}
      (h : Exec is m inn m' out) :
      Exec (.send dst msg :: is) m inn m' ((Mail.one dst (msg m)).append out)
  | recv {src count : ℕ} {take : List α → σ → σ} {is : List (Instr σ α)} {m m' : σ}
      {inn out : Mail α} {l : List α} (hl : l.length ≤ count) (h : Exec is (take l m) inn m' out) :
      Exec (.recv src count take :: is) m ((Mail.one src l).append inn) m' out
  | work {f : σ → σ} {is : List (Instr σ α)} {m m' : σ} {inn out : Mail α}
      (h : Exec is (f m) inn m' out) : Exec (.work f :: is) m inn m' out

namespace Exec

variable {is js : List (Instr σ α)} {m m' m'' : σ} {inn inn' out out' : Mail α}

theorem append (h : Exec is m inn m' out) (h' : Exec js m' inn' m'' out') :
    Exec (is ++ js) m (inn.append inn') m'' (out.append out') := by
  induction h with
  | nil => exact h'
  | send _ ih =>
    rw [Mail.append_assoc]
    exact (ih h').send
  | recv hl _ ih =>
    rw [Mail.append_assoc]
    exact (ih h').recv hl
  | work _ ih => exact (ih h').work

theorem send_one (dst : ℕ) (msg : σ → List α) (m : σ) :
    Exec [.send dst msg] m .nothing m (.one dst (msg m)) := by
  rw [← Mail.append_nothing (Mail.one dst (msg m))]
  exact (Exec.nil m).send

theorem recv_one {src count : ℕ} {take : List α → σ → σ} {l : List α} (m : σ)
    (hl : l.length ≤ count) :
    Exec [.recv src count take] m (.one src l) (take l m) .nothing := by
  rw [← Mail.append_nothing (Mail.one src l)]
  exact (Exec.nil _).recv hl

theorem work_one (f : σ → σ) (m : σ) : Exec [.work f] m (.nothing : Mail α) (f m) .nothing :=
  (Exec.nil _).work

theorem congr (h : Exec is m inn m' out) (hi : ∀ x, inn x = inn' x) (ho : ∀ x, out x = out' x) :
    Exec is m inn' m' out' := by
  rw [← funext hi, ← funext ho]
  exact h

theorem run (h : Exec is m inn m' out) (w : World σ α) {p : ℕ} (rest : List (Instr σ α))
    (left : Mail α) (hp : w.prog p = is ++ rest) (hc : ∀ s, w.chan s p = inn s ++ left s)
    (hm : w.mem p = m) :
    ∃ es, (processes σ α).Run w es (w.next p rest (m', w.chan.serve p left out)) := by
  induction h generalizing w left with
  | nil m =>
    have hc' (s : ℕ) : w.chan s p = left s := hc s
    refine ⟨[], ?_⟩
    rw [w.chan.serve_nothing hc', ← hm, ← List.nil_append rest, ← hp, World.next_self]
    exact .nil w
  | @send dst msg is m m' inn out h ih =>
    have hstep : w.exec p = some (w.next p (is ++ rest) (m, w.chan.post p dst (msg m))) :=
      World.exec_cons hp (by rw [hm]; rfl)
    obtain ⟨es, hrun⟩ := ih (w.next p (is ++ rest) (m, w.chan.post p dst (msg m)))
      (fun s => left s ++ if s = p ∧ p = dst then [msg m] else []) (World.next_prog ..)
      (fun s => by rw [← List.append_assoc, ← hc s]; exact Channels.post_apply ..)
      (World.next_mem ..)
    refine ⟨p :: es, (System.Run.single hstep).append ?_⟩
    rw [World.next_next] at hrun
    rw [← w.chan.post_serve]
    exact hrun
  | @recv src count take is m m' inn out l hl h ih =>
    have hhead : w.chan src p = l :: (inn src ++ left src) := by
      rw [hc src, Mail.append_apply, Mail.one_self]
      rfl
    have hstep : w.exec p = some (w.next p (is ++ rest) (take l m, w.chan.fetch src p)) :=
      World.exec_cons hp (by rw [hm]; exact Instr.act_recv hhead hl)
    obtain ⟨es, hrun⟩ := ih (w.next p (is ++ rest) (take l m, w.chan.fetch src p)) left
      (World.next_prog ..) (Channels.fetch_one hc) (World.next_mem ..)
    refine ⟨p :: es, (System.Run.single hstep).append ?_⟩
    rw [World.next_next] at hrun
    rw [← w.chan.fetch_serve p src]
    exact hrun
  | @work f is m m' inn out h ih =>
    have hstep : w.exec p = some (w.next p (is ++ rest) (f m, w.chan)) :=
      World.exec_cons hp (by rw [hm]; rfl)
    obtain ⟨es, hrun⟩ := ih (w.next p (is ++ rest) (f m, w.chan)) left (World.next_prog ..)
      hc (World.next_mem ..)
    rw [World.next_next] at hrun
    exact ⟨p :: es, (System.Run.single hstep).append hrun⟩

end Exec

/-- The process that runs `is` can take exactly `inn`, put out `out` and end with a memory of which
`R` holds. -/
def Does (is : List (Instr σ α)) (inn out : Mail α) (m : σ) (R : σ → Prop) : Prop :=
  ∃ m', Exec is m inn m' out ∧ R m'

namespace Does

variable {is js : List (Instr σ α)} {m : σ} {inn inn' out out' : Mail α} {R R' : σ → Prop}

theorem nil (h : R m) : Does (α := α) [] .nothing .nothing m R :=
  ⟨m, .nil m, h⟩

theorem recv {src count : ℕ} {take : List α → σ → σ} {l : List α} (hl : l.length ≤ count)
    (h : Does is inn out (take l m) R) :
    Does (.recv src count take :: is) ((Mail.one src l).append inn) out m R := by
  obtain ⟨m', hexec, hR⟩ := h
  exact ⟨m', hexec.recv hl, hR⟩

theorem work {f : σ → σ} (h : Does is inn out (f m) R) : Does (.work f :: is) inn out m R := by
  obtain ⟨m', hexec, hR⟩ := h
  exact ⟨m', hexec.work, hR⟩

theorem send_one {dst : ℕ} {msg : σ → List α} {l : List α} (hl : msg m = l) (h : R m) :
    Does [.send dst msg] .nothing (.one dst l) m R :=
  ⟨m, hl ▸ .send_one dst msg m, h⟩

theorem recv_one {src count : ℕ} {take : List α → σ → σ} {l : List α} (hl : l.length ≤ count)
    (h : R (take l m)) : Does [.recv src count take] (.one src l) .nothing m R :=
  ⟨take l m, .recv_one m hl, h⟩

theorem work_one {f : σ → σ} (h : R (f m)) : Does (α := α) [.work f] .nothing .nothing m R :=
  ⟨f m, .work_one f m, h⟩

theorem append (h : Does is inn out m R) (h' : ∀ m, R m → Does js inn' out' m R') :
    Does (is ++ js) (inn.append inn') (out.append out') m R' := by
  obtain ⟨m', hexec, hR⟩ := h
  obtain ⟨m'', hexec', hR'⟩ := h' m' hR
  exact ⟨m'', hexec.append hexec', hR'⟩

theorem mono (h : Does is inn out m R) (hR : ∀ m, R m → R' m) : Does is inn out m R' := by
  obtain ⟨m', hexec, hm'⟩ := h
  exact ⟨m', hexec, hR m' hm'⟩

theorem congr (h : Does is inn out m R) (hi : ∀ x, inn x = inn' x) (ho : ∀ x, out x = out' x) :
    Does is inn' out' m R := by
  obtain ⟨m', hexec, hm'⟩ := h
  exact ⟨m', hexec.congr hi ho, hm'⟩

theorem overList {ι : Type*} {body : ι → List (Instr σ α)} {inn out : ι → Mail α}
    (Inv : List ι → σ → Prop) (l : List ι) (h0 : Inv [] m)
    (h : ∀ pre i, pre ++ [i] <+: l → ∀ m, Inv pre m →
      Does (body i) (inn i) (out i) m (Inv (pre ++ [i]))) :
    Does (l.flatMap body) (.flat l inn) (.flat l out) m (Inv l) := by
  induction l using List.reverseRecOn with
  | nil => exact .nil h0
  | append_singleton l i ih =>
    rw [flatMap_append, flatMap_singleton, Mail.flat_append, Mail.flat_append,
      Mail.flat_singleton, Mail.flat_singleton]
    exact (ih fun pre j hpre => h pre j (hpre.trans (prefix_append _ _))).append
      (h l i prefix_rfl)

theorem loop {body : ℕ → List (Instr σ α)} {inn out : ℕ → Mail α} (Inv : ℕ → σ → Prop) (k : ℕ)
    (h0 : Inv 0 m)
    (h : ∀ i < k, ∀ m, Inv i m → Does (body i) (inn i) (out i) m (Inv (i + 1))) :
    Does ((range k).flatMap body) (.flat (range k) inn) (.flat (range k) out) m
      (Inv k) := by
  induction k with
  | zero => exact .nil h0
  | succ k ih =>
    rw [range_succ, flatMap_append, flatMap_singleton, Mail.flat_append,
      Mail.flat_append, Mail.flat_singleton, Mail.flat_singleton]
    exact (ih fun i hi => h i (Nat.lt_succ_of_lt hi)).append (h k k.lt_succ_self)

end Does

theorem exists_bound (n : ℕ) (f : ℕ → ℕ) : ∃ k, ∀ p < n, f p < k := by
  induction n with
  | zero => exact ⟨0, by omega⟩
  | succ n ih =>
    obtain ⟨k, hk⟩ := ih
    refine ⟨max k (f n + 1), fun p hp => ?_⟩
    by_cases hp' : p = n
    · subst hp'
      exact lt_of_lt_of_le (Nat.lt_succ_self _) (le_max_right ..)
    · exact lt_of_lt_of_le (hk p (by omega)) (le_max_left ..)

/-- The processes below `n`, with `P` before what comes after, take the memories and channels from
`m`, `c` to `m'`, `c'`. -/
def Goes (n : ℕ) (P : ℕ → List (Instr σ α)) (m : ℕ → σ) (c : Channels α) (m' : ℕ → σ)
    (c' : Channels α) : Prop :=
  ∀ Q, ∃ es, (processes σ α).Run ⟨fun p => if p < n then P p ++ Q p else Q p, m, c⟩ es ⟨Q, m', c'⟩

namespace Goes

variable {n : ℕ} {A B : ℕ → List (Instr σ α)} {m m' m'' : ℕ → σ} {c c' c'' : Channels α}

theorem nil (n : ℕ) (m : ℕ → σ) (c : Channels α) : Goes n (fun _ => []) m c m c := by
  intro Q
  refine ⟨[], ?_⟩
  simp only [List.nil_append, ite_self]
  exact .nil _

theorem append (h : Goes n A m c m' c') (h' : Goes n B m' c' m'' c'') :
    Goes n (fun p => A p ++ B p) m c m'' c'' := by
  intro Q
  obtain ⟨es, hrun⟩ := h fun p => if p < n then B p ++ Q p else Q p
  obtain ⟨fs, hrun'⟩ := h' Q
  refine ⟨es ++ fs, System.Run.append ?_ hrun'⟩
  convert hrun using 3 with p
  split_ifs
  · exact List.append_assoc ..
  · rfl

theorem congr (h : Goes n A m c m' c') (heq : ∀ p < n, A p = B p) : Goes n B m c m' c' := by
  intro Q
  obtain ⟨es, hrun⟩ := h Q
  refine ⟨es, ?_⟩
  convert hrun using 3 with p
  split_ifs with hp
  · rw [heq p hp]
  · rfl

/-- The processes below `k` have done their part, and the others not. -/
def partWay (n : ℕ) (A Q : ℕ → List (Instr σ α)) (m m' : ℕ → σ) (I O : ℕ → Mail α)
    (left : Channels α) (k : ℕ) : World σ α where
  prog p := if p < n ∧ k ≤ p then A p ++ Q p else Q p
  mem p := if p < k then m' p else m p
  chan s d := (if d < n ∧ k ≤ d then I d s else []) ++ left s d ++ if s < k then O s d else []

theorem partWay_next {Q : ℕ → List (Instr σ α)} {I O : ℕ → Mail α} {left : Channels α} {k : ℕ} :
    (partWay n A Q m m' I O left k).next k (Q k) (m' k,
      (partWay n A Q m m' I O left k).chan.serve k
        (fun s => left s k ++ if s < k then O s k else []) (O k)) =
      partWay n A Q m m' I O left (k + 1) := by
  ext1
  · funext p
    simp only [World.next, partWay, Function.update_apply]
    by_cases hp : p = k
    · subst hp
      rw [if_pos rfl, if_neg fun h => absurd h.2 p.not_succ_le_self]
    · rw [if_neg hp]
      exact if_congr (by omega) rfl rfl
  · funext p
    simp only [World.next, partWay, Function.update_apply]
    by_cases hp : p = k
    · subst hp
      rw [if_pos rfl, if_pos p.lt_succ_self]
    · rw [if_neg hp]
      exact if_congr (by omega) rfl rfl
  · funext s d
    simp only [World.next, partWay, Channels.serve]
    have hd : (if d = k then left s k ++ (if s < k then O s k else []) else
        (if d < n ∧ k ≤ d then I d s else []) ++ left s d ++ if s < k then O s d else []) =
        (if d < n ∧ k + 1 ≤ d then I d s else []) ++ left s d ++ if s < k then O s d else [] := by
      by_cases hd : d = k
      · subst hd
        have hno : ¬(d < n ∧ d + 1 ≤ d) := by omega
        rw [if_pos rfl, if_neg hno]
        rfl
      · rw [if_neg hd]
        have hiff : d < n ∧ k ≤ d ↔ d < n ∧ k + 1 ≤ d := by omega
        simp only [hiff]
    have hs : (if s < k then O s d else []) ++ (if s = k then O k d else []) =
        if s < k + 1 then O s d else [] := by
      by_cases hs : s = k
      · subst hs
        rw [if_neg (lt_irrefl s), if_pos rfl, if_pos s.lt_succ_self]
        rfl
      · rw [if_neg hs, List.append_nil]
        exact if_congr (by omega) rfl rfl
    rw [hd, List.append_assoc, hs]

theorem each {I O : ℕ → Mail α} {left : Channels α}
    (h : ∀ p < n, Exec (A p) (m p) (I p) (m' p) (O p)) (hm : ∀ p, n ≤ p → m' p = m p) :
    Goes n A m (fun s d => (if d < n then I d s else []) ++ left s d) m'
      (fun s d => left s d ++ if s < n then O s d else []) := by
  intro Q
  have hpart : ∀ k ≤ n, ∃ es, (processes σ α).Run (partWay n A Q m m' I O left 0) es
      (partWay n A Q m m' I O left k) := by
    intro k hk
    induction k with
    | zero => exact ⟨[], .nil _⟩
    | succ k ih =>
      obtain ⟨es, hrun⟩ := ih (Nat.le_of_succ_le hk)
      obtain ⟨fs, hrun'⟩ := (h k hk).run (partWay n A Q m m' I O left k) (Q k)
        (fun s => left s k ++ if s < k then O s k else []) (if_pos ⟨hk, le_rfl⟩)
        (fun s => by
          show (if k < n ∧ k ≤ k then I k s else []) ++ _ ++ _ = _
          rw [if_pos ⟨hk, le_rfl⟩, List.append_assoc]) (if_neg (lt_irrefl k))
      exact ⟨es ++ fs, hrun.append (partWay_next ▸ hrun')⟩
  obtain ⟨es, hrun⟩ := hpart n (le_rfl)
  refine ⟨es, ?_⟩
  convert hrun using 1
  · ext1
    · funext p
      simp [partWay]
    · funext p
      simp [partWay]
    · funext s d
      simp [partWay]
  · ext1
    · funext p
      exact (if_neg fun h => absurd h.2 (Nat.not_le_of_lt h.1)).symm
    · funext p
      simp only [partWay]
      split_ifs with hp
      · rfl
      · exact hm p (Nat.le_of_not_lt hp)
    · funext s d
      have hno : ¬(d < n ∧ n ≤ d) := by omega
      simp only [partWay]
      rw [if_neg hno]
      rfl

theorem each_exists {I O : ℕ → Mail α} (post : ℕ → σ → Prop) (left : Channels α)
    (hc : ∀ s d, c s d = (if d < n then I d s else []) ++ left s d)
    (hc' : ∀ s d, c' s d = left s d ++ if s < n then O s d else [])
    (h : ∀ p < n, Does (A p) (I p) (O p) (m p) (post p)) :
    ∃ m', Goes n A m c m' c' ∧ ∀ p < n, post p (m' p) := by
  choose f hf hpost using h
  refine ⟨fun p => if hp : p < n then f p hp else m p, ?_, fun p hp => ?_⟩
  · rw [funext fun s => funext (hc s), funext fun s => funext (hc' s)]
    refine Goes.each (fun p hp => ?_) fun p hp => dif_neg (Nat.not_lt_of_le hp)
    rw [dif_pos hp]
    exact hf p hp
  · show post p (if hp : p < n then f p hp else m p)
    rw [dif_pos hp]
    exact hpost p hp

end Goes

/-- The processes below `n`, running `P`, can go from `m` to memories of which `R` holds, and leave
no message behind. -/
def Gives (n : ℕ) (P : ℕ → List (Instr σ α)) (m : ℕ → σ) (R : (ℕ → σ) → Prop) : Prop :=
  ∃ m', Goes n P m .quiet m' .quiet ∧ R m'

namespace Gives

variable {n : ℕ} {A B : ℕ → List (Instr σ α)} {m : ℕ → σ} {R R' : (ℕ → σ) → Prop}

theorem nil (h : R m) : Gives n (fun _ => ([] : List (Instr σ α))) m R :=
  ⟨m, .nil n m _, h⟩

theorem mono (h : Gives n A m R) (hR : ∀ m, R m → R' m) : Gives n A m R' := by
  obtain ⟨m', hgoes, hm'⟩ := h
  exact ⟨m', hgoes, hR m' hm'⟩

theorem congr (h : Gives n A m R) (heq : ∀ p < n, A p = B p) : Gives n B m R := by
  obtain ⟨m', hgoes, hm'⟩ := h
  exact ⟨m', hgoes.congr heq, hm'⟩

theorem append (h : Gives n A m R) (h' : ∀ m, R m → Gives n B m R') :
    Gives n (fun p => A p ++ B p) m R' := by
  obtain ⟨m', hgoes, hm'⟩ := h
  obtain ⟨m'', hgoes', hm''⟩ := h' m' hm'
  exact ⟨m'', hgoes.append hgoes', hm''⟩

theorem loop {body : ℕ → ℕ → List (Instr σ α)} (Inv : ℕ → (ℕ → σ) → Prop) (k : ℕ) (h0 : Inv 0 m)
    (h : ∀ i < k, ∀ m, Inv i m → Gives n (body i) m (Inv (i + 1))) :
    Gives n (fun p => (range k).flatMap fun i => body i p) m (Inv k) := by
  induction k with
  | zero => exact .nil h0
  | succ k ih =>
    refine ((ih fun i hi => h i (Nat.lt_succ_of_lt hi)).append (h k k.lt_succ_self)).congr ?_
    intro p _
    rw [range_succ, flatMap_append, flatMap_singleton]

theorem countdown {body : ℕ → ℕ → List (Instr σ α)} (Inv : ℕ → (ℕ → σ) → Prop) (k : ℕ) (hk : Inv k m)
    (h : ∀ i < k, ∀ m, Inv (i + 1) m → Gives n (body i) m (Inv i)) :
    Gives n (fun p => (range k).reverse.flatMap fun i => body i p) m (Inv 0) := by
  induction k generalizing m with
  | zero => exact .nil hk
  | succ k ih =>
    refine ((h k k.lt_succ_self m hk).append fun m₁ h₁ =>
      ih h₁ fun i hi => h i (Nat.lt_succ_of_lt hi)).congr fun p _ => ?_
    rw [range_succ, reverse_append, reverse_singleton, singleton_append,
      flatMap_cons]

theorem each (post : ℕ → σ → Prop)
    (h : ∀ p < n, Does (A p) .nothing .nothing (m p) (post p)) :
    Gives n A m fun m' => ∀ p < n, post p (m' p) :=
  Goes.each_exists (I := fun _ => .nothing) (O := fun _ => .nothing) post .quiet (fun _ _ => by simp [Channels.quiet])
    (fun _ _ => by simp [Channels.quiet]) h

theorem round (m₁ : ℕ → σ) (post : ℕ → σ → Prop) (M : Channels α)
    (hM : ∀ s d, M s d ≠ [] → s < n ∧ d < n)
    (hA : ∀ p < n, Exec (A p) (m p) .nothing (m₁ p) (M p))
    (hB : ∀ p < n, Does (B p) (fun s => M s p) .nothing (m₁ p) (post p)) :
    Gives n (fun p => A p ++ B p) m fun m' => ∀ p < n, post p (m' p) := by
  have hout (s d : ℕ) : M s d = (if s < n then M s d else []) := by
    by_cases hs : s < n
    · rw [if_pos hs]
    · rw [if_neg hs]
      by_contra h
      exact hs (hM s d h).1
  have hinn (s d : ℕ) : M s d = (if d < n then M s d else []) := by
    by_cases hd : d < n
    · rw [if_pos hd]
    · rw [if_neg hd]
      by_contra h
      exact hd (hM s d h).2
  obtain ⟨m', hgoes, hm'⟩ : ∃ m', Goes n A m .quiet m' M ∧ ∀ p < n, m' p = m₁ p :=
    Goes.each_exists (I := fun _ => .nothing) (fun p s => s = m₁ p) .quiet (fun _ _ => by simp [Channels.quiet])
      (fun s d => hout s d) fun p hp => ⟨_, hA p hp, rfl⟩
  obtain ⟨m'', hgoes', hm''⟩ : ∃ m'', Goes n B m' M m'' .quiet ∧ ∀ p < n, post p (m'' p) :=
    Goes.each_exists (O := fun _ => .nothing) post .quiet
      (fun s d => (hinn s d).trans (List.append_nil _).symm)
      (fun _ _ => by simp [Channels.quiet]) fun p hp => by
        rw [hm' p hp]
        exact hB p hp
  exact ⟨m'', hgoes.append hgoes', hm''⟩

theorem message {s d count : ℕ} {msg : σ → List α} {take : List α → σ → σ} (hs : s < n) (hd : d < n) (hne : s ≠ d)
    (hlen : (msg (m s)).length ≤ count) :
    Gives n (fun p => (if p = s then [.send d msg] else []) ++ if p = d then [.recv s count take] else []) m fun m' =>
      ∀ p < n, m' p = if p = d then take (msg (m s)) (m d) else m p := by
  refine round m (fun p m' => m' = if p = d then take (msg (m s)) (m d) else m p)
    (fun a b => if a = s ∧ b = d then [msg (m s)] else []) (fun a b hab => ?_) (fun p hp => ?_) fun p hp => ?_
  · split_ifs at hab with h
    · obtain ⟨rfl, rfl⟩ := h
      exact ⟨hs, hd⟩
    · exact absurd rfl hab
  · by_cases hps : p = s
    · subst hps
      rw [if_pos rfl]
      exact (Exec.send_one d msg (m p)).congr (fun _ => rfl) fun x => by simp [Mail.one]
    · rw [if_neg hps]
      exact (Exec.nil (m p)).congr (fun _ => rfl) fun x => by simp [hps]
  · by_cases hpd : p = d
    · subst hpd
      rw [if_pos rfl, if_pos rfl]
      exact ⟨_, (Exec.recv_one (m p) hlen).congr (fun x => by simp [Mail.one]) fun _ => rfl, rfl⟩
    · rw [if_neg hpd, if_neg hpd]
      exact ⟨_, (Exec.nil (m p)).congr (fun x => by simp [hpd]) fun _ => rfl, rfl⟩

theorem pairs (S : ℕ → Prop) [DecidablePred S] (partner : ℕ → ℕ)
    (hS : ∀ p < n, S p → partner p < n ∧ S (partner p) ∧ partner (partner p) = p) (msg : ℕ → List α)
    (m₁ : ℕ → σ) (post : ℕ → σ → Prop)
    (hA : ∀ p < n, Exec (A p) (m p) .nothing (m₁ p) (if S p then .one (partner p) (msg p) else .nothing))
    (hB : ∀ p < n, Does (B p) (if S p then .one (partner p) (msg (partner p)) else .nothing) .nothing
      (m₁ p) (post p)) :
    Gives n (fun p => A p ++ B p) m fun m' => ∀ p < n, post p (m' p) := by
  refine round m₁ post (fun s d => if s < n ∧ S s ∧ d = partner s then [msg s] else [])
    (fun s d hne => ?_) (fun p hp => (hA p hp).congr (fun _ => rfl) fun d => ?_) fun p hp =>
    (hB p hp).congr (fun s => ?_) fun _ => rfl
  · split_ifs at hne with hsd
    · obtain ⟨hs, hSs, rfl⟩ := hsd
      exact ⟨hs, (hS s hs hSs).1⟩
    · exact absurd rfl hne
  · by_cases hSp : S p
    · rw [if_pos hSp]
      exact if_congr ⟨fun h => ⟨hp, hSp, h⟩, fun h => h.2.2⟩ rfl rfl
    · rw [if_neg hSp]
      exact (if_neg fun h => hSp h.2.1).symm
  · by_cases hSp : S p
    · obtain ⟨hlt, hSq, hback⟩ := hS p hp hSp
      rw [if_pos hSp, Mail.one_apply msg]
      refine if_congr ⟨?_, ?_⟩ rfl rfl
      · rintro rfl
        exact ⟨hlt, hSq, hback.symm⟩
      · rintro ⟨hs, hSs, rfl⟩
        exact (hS s hs hSs).2.2.symm
    · rw [if_neg hSp]
      refine (if_neg ?_).symm
      rintro ⟨hs, hSs, rfl⟩
      exact hSp (hS s hs hSs).2.1

theorem flatMap_layer {ι : Type*} (l : List ι) {i k : ℕ} (h : i < k) :
    ((range k).flatMap fun t => if i = t then l else []) = l := by
  induction k with
  | zero => cases h
  | succ k ih =>
    rw [range_succ, flatMap_append, flatMap_singleton]
    by_cases hi : i = k
    · subst hi
      have hnil : ((range i).flatMap fun t => if i = t then l else []) = [] := by
        rw [flatMap_eq_nil_iff]
        intro t ht
        exact if_neg (ne_of_gt (mem_range.mp ht))
      rw [hnil, if_pos rfl]
      rfl
    · rw [ih (by omega), if_neg hi, List.append_nil]

theorem ordered (post : ℕ → σ → Prop) (M : Channels α) (ord : ℕ → ℕ)
    (hM : ∀ s d, M s d ≠ [] → s < n ∧ d < n ∧ ord s < ord d)
    (hA : ∀ p < n, Does (A p) (fun s => M s p) (M p) (m p) (post p)) :
    Gives n A m fun m' => ∀ p < n, post p (m' p) := by
  obtain ⟨k, hk⟩ := exists_bound n ord
  -- after `t` layers the messages between them and the others are on their way
  have hlayers : ∀ t, ∃ m', Goes n
      (fun p => (range t).flatMap fun i => if ord p = i then A p else []) m .quiet m'
      (fun s d => if ord s < t ∧ t ≤ ord d then M s d else []) ∧
      ∀ p < n, if ord p < t then post p (m' p) else m' p = m p := by
    intro t
    induction t with
    | zero =>
      refine ⟨m, ?_, fun p _ => rfl⟩
      have hq : (fun s d => if ord s < 0 ∧ 0 ≤ ord d then M s d else []) = Channels.quiet := by
        funext s d
        exact if_neg fun h => absurd h.1 (Nat.not_lt_zero _)
      rw [hq]
      exact .nil n m _
    | succ t ih =>
      obtain ⟨m₁, hgoes, hm₁⟩ := ih
      obtain ⟨m₂, hgoes', hm₂⟩ : ∃ m₂, Goes n (fun p => if ord p = t then A p else []) m₁
          (fun s d => if ord s < t ∧ t ≤ ord d then M s d else []) m₂
          (fun s d => if ord s < t + 1 ∧ t + 1 ≤ ord d then M s d else []) ∧
          ∀ p < n, if ord p < t + 1 then post p (m₂ p) else m₂ p = m p := by
        refine Goes.each_exists (I := fun d s => if ord d = t then M s d else [])
          (O := fun s d => if ord s = t then M s d else [])
          (fun p s => if ord p < t + 1 then post p s else s = m p)
          (fun s d => if ord s < t ∧ t + 1 ≤ ord d then M s d else []) (fun s d => ?_)
          (fun s d => ?_) fun p hp => ?_
        · by_cases hsd : M s d = []
          · simp [hsd]
          · obtain ⟨-, hd, hlt⟩ := hM s d hsd
            simp only [hd, if_true]
            split_ifs <;> first | omega | simp
        · by_cases hsd : M s d = []
          · simp [hsd]
          · obtain ⟨hs, -, hlt⟩ := hM s d hsd
            simp only [hs, if_true]
            split_ifs <;> first | omega | simp
        · have hp₁ := hm₁ p hp
          by_cases hpt : ord p = t
          · rw [if_neg (by omega)] at hp₁
            simp only [hpt, if_true, Nat.lt_succ_self, hp₁]
            exact hA p hp
          · simp only [hpt, if_false]
            refine ⟨_, .nil _, ?_⟩
            split_ifs at hp₁ ⊢ <;> first | exact hp₁ | omega
      refine ⟨m₂, (hgoes.append hgoes').congr fun p _ => ?_, hm₂⟩
      rw [range_succ, flatMap_append, flatMap_singleton]
  obtain ⟨m', hgoes, hm'⟩ := hlayers k
  refine ⟨m', ?_, fun p hp => ?_⟩
  · have hq : (fun s d => if ord s < k ∧ k ≤ ord d then M s d else []) = Channels.quiet := by
      funext s d
      by_contra hne
      split_ifs at hne with h
      · exact absurd (hk d (hM s d hne).2.1) (Nat.not_lt_of_le h.2)
      · exact hne rfl
    rw [hq] at hgoes
    exact hgoes.congr fun p hp => flatMap_layer _ (hk p hp)
  · have h := hm' p hp
    rw [if_pos (hk p hp)] at h
    exact h

end Gives

namespace World

def start (n : ℕ) (P : ℕ → List (Instr σ α)) (m : ℕ → σ) : World σ α where
  prog p := if p < n then P p else []
  mem := m
  chan := .quiet

def done (m : ℕ → σ) : World σ α where
  prog _ := []
  mem := m
  chan := .quiet

end World

/-- Every run of `P` on the processes below `n` goes on to one and the same end, after the same
number of steps; no message is left there, and `R` holds of the memories. -/
def Finishes (n : ℕ) (P : ℕ → List (Instr σ α)) (m : ℕ → σ) (R : (ℕ → σ) → Prop) : Prop :=
  ∃ m' N, R m' ∧ ∀ es w, (processes σ α).Run (World.start n P m) es w →
    ∃ es', (processes σ α).Run w es' (World.done m') ∧ es.length + es'.length = N

theorem World.done_stuck (m : ℕ → σ) (p : ℕ) (w : World σ α) :
    ¬(processes σ α).step (World.done m) p w := nofun

namespace Finishes

variable {n : ℕ} {P : ℕ → List (Instr σ α)} {m : ℕ → σ} {R R' : (ℕ → σ) → Prop}

theorem of_gives (h : Gives n P m R) : Finishes n P m R := by
  obtain ⟨m', hgoes, hm'⟩ := h
  obtain ⟨es, hrun⟩ := hgoes fun _ => []
  simp only [List.append_nil] at hrun
  exact ⟨m', es.length, hm', fun fs w h => hrun.rejoin processes_commuting
    (fun p w' => World.done_stuck m' p w') h⟩

theorem both (h : Finishes n P m R) (h' : Finishes n P m R') : ∃ m', R m' ∧ R' m' := by
  obtain ⟨m', N, hm', hrun⟩ := h
  obtain ⟨m'', N', hm'', hrun'⟩ := h'
  obtain ⟨es, hes, -⟩ := hrun [] _ (.nil _)
  obtain ⟨fs, hfs, -⟩ := hrun' es _ hes
  cases fs with
  | nil =>
    have hmem := congrArg World.mem hfs.nil_eq
    exact ⟨m', hm', (show m' = m'' from hmem) ▸ hm''⟩
  | cons f fs =>
    obtain ⟨w, hw, -⟩ := hfs.uncons
    exact absurd hw (World.done_stuck m' f w)

theorem congr {Q : ℕ → List (Instr σ α)} (h : Finishes n P m R) (heq : ∀ p < n, P p = Q p) : Finishes n Q m R := by
  have hstart : World.start n Q m = World.start n P m := by
    refine World.ext (funext fun p => ?_) rfl rfl
    unfold World.start
    dsimp only
    split_ifs with hp
    · rw [heq p hp]
    · rfl
  unfold Finishes
  rw [hstart]
  exact h

theorem mono (h : Finishes n P m R) (hR : ∀ m, R m → R' m) : Finishes n P m R' := by
  obtain ⟨m', N, hm', hrun⟩ := h
  exact ⟨m', N, hR m' hm', hrun⟩

end Finishes

end OpenMPI.Lib
