import OpenMPI.Iof.Stdin

/-!
# Stdin comes to every open sink in careful runs

A chunk is queued for the sinks that the loop of the HNP goes through (`stdinLoop_here`, `onWay_stdinLoop`), and a
message of a daemon for the sink of its target (`ortedProcessMsg_eq`).  The read event is off only while a sink of the
HNP is full (`Paused`).
-/

namespace OpenMPI.Iof.Stdin

open Lib List Function

variable {δ : Type*}

theorem names_target (p q : Name) : q.target.Names p ↔ p = q := by
  obtain ⟨j, v⟩ := p
  obtain ⟨k, u⟩ := q
  simp only [Target.Names, Name.target, Name.mk.injEq, Option.some.injEq, reduceCtorEq, false_or]
  constructor
  · rintro ⟨rfl, rfl⟩
    exact ⟨rfl, rfl⟩
  · rintro ⟨rfl, rfl⟩
    exact ⟨rfl, rfl⟩

namespace World

variable {z : Sinks δ} {w w₀ : World δ} {chunk : Output} {sinks : List (HnpSink δ)} {p q : Name} {d : δ}

@[simp] theorem queue_queued_self (w : World δ) (p : Name) (wev : WriteEvent) (chunk : Output) :
    (w.queue p wev chunk).queued p = w.queued p ++ [chunk] := by
  simp [queue]

theorem queue_queued_of_ne (w : World δ) (wev : WriteEvent) (chunk : Output) (hpq : q ≠ p) :
    (w.queue p wev chunk).queued q = w.queued q := by
  simp [queue, hpq]

@[simp] theorem queue_wev_self (w : World δ) (p : Name) (wev : WriteEvent) (chunk : Output) :
    (w.queue p wev chunk).wev p = some (writeOutput wev chunk).1 := by
  simp [queue]

theorem queue_wev_of_ne (w : World δ) (wev : WriteEvent) (chunk : Output) (hpq : q ≠ p) :
    (w.queue p wev chunk).wev q = w.wev q := by
  simp [queue, hpq]

theorem writeOutput_outputs (wev : WriteEvent) (chunk : Output) :
    (writeOutput wev chunk).1.outputs = wev.outputs ++ [chunk] ∧
      (writeOutput wev chunk).2 = (writeOutput wev chunk).1.outputs.length := by
  unfold writeOutput
  dsimp only
  split_ifs <;> exact ⟨rfl, rfl⟩

/-- Everything but queues and messages to daemons is the same. -/
structure SameRest (w w' : World δ) : Prop where
  stdinev : w'.stdinev = w.stdinev
  timers : w'.timers = w.timers
  xoff : w'.xoff = w.xoff
  toHnp : w'.toHnp = w.toHnp
  read : w'.read = w.read
  ended : w'.ended = w.ended
  held : w'.held = w.held
  overran : w'.overran = w.overran

theorem SameRest.trans {w₁ w₂ w₃ : World δ} (h : SameRest w₁ w₂) (h' : SameRest w₂ w₃) : SameRest w₁ w₃ :=
  ⟨h'.1.trans h.1, h'.2.trans h.2, h'.3.trans h.3, h'.4.trans h.4, h'.5.trans h.5, h'.6.trans h.6, h'.7.trans h.7,
    h'.8.trans h.8⟩

def Clear (z : Sinks δ) (w : World δ) (sinks : List (HnpSink δ)) : Prop :=
  sinks.Pairwise fun s s' => w.Full s → ¬w.Open z s'

def Untouched (w₀ w : World δ) (sinks : List (HnpSink δ)) : Prop := ∀ p, .here p ∈ sinks → w.wev p = w₀.wev p

theorem Untouched.queue (h : Untouched w₀ w (.here q :: sinks)) (hq : .here q ∉ sinks) (wev : WriteEvent)
    (chunk : Output) : Untouched w₀ (w.queue q wev chunk) sinks := by
  intro p hp
  have hpq : p ≠ q := by
    rintro rfl
    exact hq hp
  rw [queue_wev_of_ne w wev chunk hpq]
  exact h p (mem_cons_of_mem _ hp)

theorem Untouched.tail {s : HnpSink δ} (h : Untouched w₀ w (s :: sinks)) : Untouched w₀ w sinks :=
  fun p hp => h p (mem_cons_of_mem _ hp)

def Pushed (z : Sinks δ) (sinks : List (HnpSink δ)) : Prop := ∀ host t, .away host t ∈ sinks →
  (host = .invalid ∧ t.vpid = none) ∨ ∃ p d, host = .daemon d ∧ t = p.target ∧ z.home p = some d

theorem Pushed.tail {s : HnpSink δ} (h : Pushed z (s :: sinks)) : Pushed z sinks :=
  fun host t hs => h host t (mem_cons_of_mem _ hs)

theorem full_of_backedUp {wev : WriteEvent} (hsome : w.wev p = some wev)
    (hfull : maxInputBuffers < (writeOutput wev chunk).2) : w.Full (.here p : HnpSink δ) := by
  obtain ⟨houtputs, hcount⟩ := writeOutput_outputs wev chunk
  rw [hcount, houtputs, length_append, length_singleton] at hfull
  exact ⟨wev, hsome, by omega⟩

variable [DecidableEq δ]

theorem sendData_rest (w : World δ) (host : Endpoint δ) (t : Target) (chunk : Output) :
    SameRest w (w.sendData host t chunk) ∧ (w.sendData host t chunk).wev = w.wev ∧
      (w.sendData host t chunk).queued = w.queued := by
  unfold sendData
  cases host <;> exact ⟨⟨rfl, rfl, rfl, rfl, rfl, rfl, rfl, rfl⟩, rfl, rfl⟩

theorem stdinLoop_rest (chunk : Output) (sinks : List (HnpSink δ)) (w : World δ) :
    SameRest w (stdinLoop chunk sinks w).1 := by
  fun_induction stdinLoop chunk sinks w with
  | case1 w => exact ⟨rfl, rfl, rfl, rfl, rfl, rfl, rfl, rfl⟩
  | case2 p sinks w hnone ih => exact ih
  | case3 p sinks w wev hsome hfull => exact ⟨rfl, rfl, rfl, rfl, rfl, rfl, rfl, rfl⟩
  | case4 p sinks w wev hsome hfull ih =>
    have hqueue : SameRest w (w.queue p wev chunk) := ⟨rfl, rfl, rfl, rfl, rfl, rfl, rfl, rfl⟩
    exact hqueue.trans ih
  | case5 host t sinks w ih => exact (sendData_rest w host t chunk).1.trans ih

theorem stdinLoop_of_notMem (hp : .here p ∉ sinks) (w : World δ) :
    (stdinLoop chunk sinks w).1.queued p = w.queued p ∧ (stdinLoop chunk sinks w).1.wev p = w.wev p := by
  fun_induction stdinLoop chunk sinks w with
  | case1 w => exact ⟨rfl, rfl⟩
  | case2 q sinks w hnone ih => exact ih fun h => hp (mem_cons_of_mem _ h)
  | case3 q sinks w wev hsome hfull =>
    have hpq : p ≠ q := by
      rintro rfl
      exact hp mem_cons_self
    exact ⟨queue_queued_of_ne w wev chunk hpq, queue_wev_of_ne w wev chunk hpq⟩
  | case4 q sinks w wev hsome hfull ih =>
    have hpq : p ≠ q := by
      rintro rfl
      exact hp mem_cons_self
    obtain ⟨hqueued, hwev⟩ := ih fun h => hp (mem_cons_of_mem _ h)
    exact ⟨hqueued.trans (queue_queued_of_ne w wev chunk hpq), hwev.trans (queue_wev_of_ne w wev chunk hpq)⟩
  | case5 host t sinks w ih =>
    obtain ⟨-, hwev, hqueued⟩ := sendData_rest w host t chunk
    rw [← hwev, ← hqueued]
    exact ih fun h => hp (mem_cons_of_mem _ h)

theorem Untouched.sendData {s : HnpSink δ} (h : Untouched w₀ w (s :: sinks)) (host : Endpoint δ) (t : Target)
    (chunk : Output) : Untouched w₀ (w.sendData host t chunk) sinks := by
  intro p hp
  rw [(sendData_rest w host t chunk).2.1]
  exact h.tail p hp

theorem stdinLoop_here (hnodup : sinks.Nodup) (hclear : Clear z w₀ sinks) (hsame : Untouched w₀ w sinks)
    (hp : .here p ∈ sinks) (hopen : w₀.wev p ≠ none) :
    (stdinLoop chunk sinks w).1.queued p = w.queued p ++ [chunk] := by
  fun_induction stdinLoop chunk sinks w with
  | case1 w => cases hp
  | case2 q sinks w hnone ih =>
    obtain ⟨-, hclear⟩ := pairwise_cons.mp hclear
    rcases mem_cons.mp hp with heq | hp
    · obtain rfl := HnpSink.here.inj heq
      exact absurd ((hsame p mem_cons_self).symm.trans hnone) hopen
    · exact ih hnodup.of_cons hclear hsame.tail hp
  | case3 q sinks w wev hsome hfull =>
    obtain ⟨hclosed, -⟩ := pairwise_cons.mp hclear
    rcases mem_cons.mp hp with heq | hp
    · obtain rfl := HnpSink.here.inj heq
      exact queue_queued_self w p wev chunk
    · have hsome₀ := (hsame q mem_cons_self).symm.trans hsome
      exact absurd hopen (hclosed _ hp (full_of_backedUp hsome₀ hfull))
  | case4 q sinks w wev hsome hfull ih =>
    obtain ⟨-, hclear⟩ := pairwise_cons.mp hclear
    obtain ⟨hq, hnodup⟩ := nodup_cons.mp hnodup
    rcases mem_cons.mp hp with heq | hp
    · obtain rfl := HnpSink.here.inj heq
      rw [(stdinLoop_of_notMem hq _).1, queue_queued_self]
    · have hpq : p ≠ q := fun heq => hq (heq ▸ hp)
      rw [ih hnodup hclear (hsame.queue hq wev chunk) hp, queue_queued_of_ne w wev chunk hpq]
  | case5 host t sinks w ih =>
    obtain ⟨-, hclear⟩ := pairwise_cons.mp hclear
    have hp : .here p ∈ sinks := by simpa using hp
    rw [ih hnodup.of_cons hclear (hsame.sendData host t chunk) hp, (sendData_rest w host t chunk).2.2]

theorem stdinLoop_wev (sinks : List (HnpSink δ)) (w : World δ) (chunk : Output) (p : Name) :
    ((stdinLoop chunk sinks w).1.wev p = none ↔ w.wev p = none) := by
  have hqueue (w : World δ) (q : Name) (wev : WriteEvent) (hsome : w.wev q = some wev) :
      (w.queue q wev chunk).wev p = none ↔ w.wev p = none := by
    by_cases hpq : p = q
    · subst hpq
      rw [queue_wev_self, hsome]
      simp
    · rw [queue_wev_of_ne w wev chunk hpq]
  fun_induction stdinLoop chunk sinks w with
  | case1 w => rfl
  | case2 q sinks w hnone ih => exact ih
  | case3 q sinks w wev hsome hfull => exact hqueue w q wev hsome
  | case4 q sinks w wev hsome hfull ih => exact ih.trans (hqueue w q wev hsome)
  | case5 host t sinks w ih =>
    rw [(sendData_rest w host t chunk).2.1] at ih
    exact ih

theorem onWay_sendData (w : World δ) (d' : δ) (t : Target) (chunk : Output) (d : δ) (p : Name) :
    (w.sendData (.daemon d') t chunk).onWay d p = w.onWay d p ++ if d = d' ∧ t.Names p then [chunk] else [] := by
  unfold onWay sendData
  dsimp only
  by_cases hd : d = d'
  · subst hd
    rw [update_self, filterMap_append]
    by_cases ht : t.Names p <;> simp [ht]
  · rw [update_of_ne hd]
    simp [hd]

theorem onWay_stdinLoop_of_notMem (hpushed : Pushed z sinks)
    (hp : .away (.daemon d) p.target ∉ sinks) (w : World δ) :
    (stdinLoop chunk sinks w).1.onWay d p = w.onWay d p := by
  fun_induction stdinLoop chunk sinks w with
  | case1 w => rfl
  | case2 q sinks w hnone ih =>
    exact ih hpushed.tail fun h => hp (mem_cons_of_mem _ h)
  | case3 q sinks w wev hsome hfull => rfl
  | case4 q sinks w wev hsome hfull ih =>
    exact ih hpushed.tail fun h => hp (mem_cons_of_mem _ h)
  | case5 host t sinks w ih =>
    rw [ih hpushed.tail fun h => hp (mem_cons_of_mem _ h)]
    rcases hpushed host t mem_cons_self with ⟨rfl, -⟩ | ⟨q, d', rfl, rfl, -⟩
    · rfl
    · have hne : ¬(d = d' ∧ q.target.Names p) := by
        rintro ⟨rfl, hnames⟩
        obtain rfl := (names_target p q).mp hnames
        exact hp mem_cons_self
      rw [onWay_sendData, if_neg hne, append_nil]

theorem onWay_stdinLoop (hpushed : Pushed z sinks)
    (hnodup : sinks.Nodup) (hclear : Clear z w₀ sinks) (hsame : Untouched w₀ w sinks)
    (hp : .away (.daemon d) p.target ∈ sinks) (hopen : w₀.Open z (.away (.daemon d) p.target)) :
    (stdinLoop chunk sinks w).1.onWay d p = w.onWay d p ++ [chunk] := by
  fun_induction stdinLoop chunk sinks w with
  | case1 w => cases hp
  | case2 q sinks w hnone ih =>
    exact ih hpushed.tail hnodup.of_cons hclear.of_cons hsame.tail
      (by simpa using hp)
  | case3 q sinks w wev hsome hfull =>
    obtain ⟨hclosed, -⟩ := pairwise_cons.mp hclear
    have hsome₀ := (hsame q mem_cons_self).symm.trans hsome
    exact absurd hopen (hclosed _ (by simpa using hp) (full_of_backedUp hsome₀ hfull))
  | case4 q sinks w wev hsome hfull ih =>
    obtain ⟨hq, hnodup⟩ := nodup_cons.mp hnodup
    exact ih hpushed.tail hnodup hclear.of_cons
      (hsame.queue hq wev chunk) (by simpa using hp)
  | case5 host t sinks w ih =>
    obtain ⟨hfirst, hnodup⟩ := nodup_cons.mp hnodup
    rcases mem_cons.mp hp with heq | hrest
    · obtain ⟨rfl, rfl⟩ := HnpSink.away.inj heq
      have hnames : p.target.Names p := (names_target p p).mpr rfl
      rw [onWay_stdinLoop_of_notMem hpushed.tail hfirst, onWay_sendData, if_pos ⟨rfl, hnames⟩]
    · rw [ih hpushed.tail hnodup hclear.of_cons (hsame.sendData host t chunk) hrest]
      rcases hpushed host t mem_cons_self with ⟨rfl, -⟩ | ⟨q, d', rfl, rfl, -⟩
      · rfl
      · have hne : ¬(d = d' ∧ q.target.Names p) := by
          rintro ⟨rfl, hnames⟩
          obtain rfl := (names_target p q).mp hnames
          exact hfirst hrest
        rw [onWay_sendData, if_neg hne, append_nil]

def Routed (z : Sinks δ) (w : World δ) : Prop :=
  ∀ d, ∀ m ∈ w.toOrted d, ∃ p, m.1 = p.target ∧ z.home p = some d

theorem Routed.stdinLoop (hpushed : Pushed z sinks)
    (h : w.Routed z) : (stdinLoop chunk sinks w).1.Routed z := by
  fun_induction World.stdinLoop chunk sinks w with
  | case1 w => exact h
  | case2 q sinks w hnone ih => exact ih hpushed.tail h
  | case3 q sinks w wev hsome hfull => exact h
  | case4 q sinks w wev hsome hfull ih => exact ih hpushed.tail h
  | case5 host t sinks w ih =>
    refine ih hpushed.tail ?_
    rcases hpushed host t mem_cons_self with ⟨rfl, -⟩ | ⟨q, d, rfl, rfl, hhome⟩
    · exact h
    · intro d' m hm
      rw [sendData] at hm
      dsimp only at hm
      by_cases hd : d' = d
      · subst hd
        rw [update_self, mem_append, mem_singleton] at hm
        rcases hm with hm | rfl
        · exact h d' m hm
        · exact ⟨q, rfl, hhome⟩
      · rw [update_of_ne hd] at hm
        exact h d' m hm

theorem stdinLoop_backedUp (hhome : ∀ p, .here p ∈ sinks → z.home p = none)
    (hback : (stdinLoop chunk sinks w).2 = true) :
    ∃ p, z.home p = none ∧ (stdinLoop chunk sinks w).1.Full (.here p : HnpSink δ) := by
  fun_induction stdinLoop chunk sinks w with
  | case1 w => cases hback
  | case2 q sinks w hnone ih => exact ih (fun p h => hhome p (mem_cons_of_mem _ h)) hback
  | case3 q sinks w wev hsome hfull =>
    refine ⟨q, hhome q mem_cons_self, _, queue_wev_self w q wev chunk, ?_⟩
    rw [(writeOutput_outputs wev chunk).2] at hfull
    exact Nat.le_of_lt hfull
  | case4 q sinks w wev hsome hfull ih => exact ih (fun p h => hhome p (mem_cons_of_mem _ h)) hback
  | case5 host t sinks w ih => exact ih (fun p h => hhome p (mem_cons_of_mem _ h)) hback

omit [DecidableEq δ] in
theorem mem_queue {wev wev' : WriteEvent} (hsome : w.wev q = some wev) (h : (w.queue q wev chunk).wev p = some wev')
    {o : Output} (ho : o ∈ wev'.outputs) : o = chunk ∨ ∃ wev, w.wev p = some wev ∧ o ∈ wev.outputs := by
  by_cases hpq : p = q
  · subst hpq
    rw [queue_wev_self, Option.some.injEq] at h
    rw [← h, (writeOutput_outputs wev chunk).1, mem_append, mem_singleton] at ho
    rcases ho with ho | ho
    · exact .inr ⟨wev, hsome, ho⟩
    · exact .inl ho
  · rw [queue_wev_of_ne w wev chunk hpq] at h
    exact .inr ⟨wev', h, ho⟩

theorem mem_stdinLoop {wev : WriteEvent} (h : (stdinLoop chunk sinks w).1.wev p = some wev) {o : Output}
    (ho : o ∈ wev.outputs) : o = chunk ∨ ∃ wev, w.wev p = some wev ∧ o ∈ wev.outputs := by
  fun_induction stdinLoop chunk sinks w with
  | case1 w => exact .inr ⟨wev, h, ho⟩
  | case2 q sinks w hnone ih => exact ih h
  | case3 q sinks w wev' hsome hfull => exact mem_queue hsome h ho
  | case4 q sinks w wev' hsome hfull ih =>
    rcases ih h with heq | ⟨wev'', hsome'', ho⟩
    · exact .inl heq
    · exact mem_queue hsome hsome'' ho
  | case5 host t sinks w ih =>
    rw [(sendData_rest w host t chunk).2.1] at ih
    exact ih h

variable {ps : List Name}

theorem ortedProcessMsg_of_notMem (hq : q ∉ ps) (w : World δ) : ortedProcessMsg d q.target chunk ps w = w := by
  induction ps with
  | nil => rfl
  | cons p ps ih =>
    rw [mem_cons, not_or] at hq
    rw [ortedProcessMsg, if_neg ((names_target p q).not.mpr (Ne.symm hq.1)), ih hq.2]

theorem ortedProcessMsg_eq (hnodup : ps.Nodup) (hq : q ∈ ps) (w : World δ) :
    ortedProcessMsg d q.target chunk ps w =
      match w.wev q with
      | none => w
      | some wev =>
        if maxInputBuffers < (writeOutput wev chunk).2 then (w.queue q wev chunk).hold d else w.queue q wev chunk := by
  induction ps with
  | nil => cases hq
  | cons p ps ih =>
    obtain ⟨hp, hnodup⟩ := nodup_cons.mp hnodup
    rw [ortedProcessMsg]
    by_cases hpq : p = q
    · subst hpq
      rw [if_pos ((names_target p p).mpr rfl)]
      cases w.wev p with
      | none => rfl
      | some wev => exact ortedProcessMsg_of_notMem hp _
    · rw [if_neg ((names_target p q).not.mpr hpq)]
      exact ih hnodup (mem_of_ne_of_mem (Ne.symm hpq) hq)

/-- Every chunk that was read came, or is on its way, to the open sinks of targets; an empty one ends the input. -/
structure Fed (z : Sinks δ) (w : World δ) : Prop where
  here : ∀ p, .here p ∈ z.hnp → w.wev p ≠ none → w.queued p = w.read
  away : ∀ host t d p, .away host t ∈ z.hnp → p ∈ z.orted d → t.Names p → w.wev p ≠ none →
    w.queued p ++ w.onWay d p = w.read
  routed : w.Routed z
  empty : ∀ p wev, z.home p = none → w.wev p = some wev → ∀ o ∈ wev.outputs, o.numbytes = 0 → w.ended = true

variable {w' : World δ}

omit [DecidableEq δ] in
theorem Fed.congr (h : Fed z w) (hwev : w'.wev = w.wev) (hqueued : w'.queued = w.queued)
    (htoOrted : w'.toOrted = w.toOrted) (hread : w'.read = w.read) (hended : w'.ended = w.ended) : Fed z w' where
  here := by
    rw [hwev, hqueued, hread]
    exact h.here
  away := by
    unfold onWay
    rw [hwev, hqueued, htoOrted, hread]
    exact h.away
  routed := by
    unfold Routed
    rw [htoOrted]
    exact h.routed
  empty := by
    rw [hwev, hended]
    exact h.empty

omit [DecidableEq δ] in
theorem Fed.update (h : Fed z w) (hopen : w.wev p ≠ none) {wev' : Option WriteEvent}
    (hempty : z.home p = none → ∀ wev, wev' = some wev → ∀ o ∈ wev.outputs, o.numbytes = 0 → w.ended = true) :
    Fed z { w with wev := Function.update w.wev p wev' } := by
  have hstays {q : Name} (hq : Function.update w.wev p wev' q ≠ none) : w.wev q ≠ none := by
    by_cases hqp : q = p
    · rwa [hqp]
    · rwa [update_of_ne hqp] at hq
  refine ⟨fun q hq hq' => h.here q hq (hstays hq'),
    fun host t d q hs hq ht hq' => h.away host t d q hs hq ht (hstays hq'), h.routed, fun q wev hhome hq => ?_⟩
  dsimp only at hq
  by_cases hqp : q = p
  · subst hqp
    rw [update_self] at hq
    exact hempty hhome wev hq
  · rw [update_of_ne hqp] at hq
    exact h.empty q wev hhome hq

def reading (w : World δ) (rev : ReadEvent) (chunk : Output) : World δ :=
  { w.startRead rev with read := w.read ++ [chunk], ended := w.ended || chunk.numbytes = 0 }

theorem readLocalHandler_eq (w : World δ) (rev : ReadEvent) (chunk : Output) (foreground : Bool) :
    w.readLocalHandler z rev chunk foreground = (fun r : World δ × Bool =>
      if r.2 then { r.1 with stdinev := some ⟨false, false⟩ }
      else if chunk.numbytes = 0 then { r.1 with stdinev := none }
      else if foreground then r.1.restartStdin
      else { r.1 with timers := r.1.timers + 1 }) (stdinLoop chunk z.hnp (w.reading rev chunk)) := rfl

theorem Fed.read {rev : ReadEvent} (h : Fed z w) (hclear : Clear z w z.hnp)
    (hwildcard : ∀ t, .away .invalid t ∈ z.hnp → ¬w.Open z (.away .invalid t)) :
    Fed z (stdinLoop chunk z.hnp (w.reading rev chunk)).1 := by
  have hrest := stdinLoop_rest chunk z.hnp (w.reading rev chunk)
  have hopen (p : Name) : (stdinLoop chunk z.hnp (w.reading rev chunk)).1.wev p ≠ none → w.wev p ≠ none :=
    (stdinLoop_wev z.hnp (w.reading rev chunk) chunk p).not.mp
  have hsame : Untouched w (w.reading rev chunk) z.hnp := fun _ _ => rfl
  refine ⟨fun p hp hp' => ?_, fun host t d p hs hp ht hp' => ?_, h.routed.stdinLoop z.pushed, fun p wev hhome hp o ho
    hzero => ?_⟩
  · rw [stdinLoop_here z.nodup hclear hsame hp (hopen p hp'), hrest.read]
    exact congrArg (· ++ [chunk]) (h.here p hp (hopen p hp'))
  · have hsink : w.Open z (.away host t) := ⟨d, p, hp, ht, hopen p hp'⟩
    have hhome := z.orted_pulled d p hp
    rcases z.pushed host t hs with ⟨rfl, -⟩ | ⟨q, d', rfl, rfl, hhome'⟩
    · exact absurd hsink (hwildcard t hs)
    · obtain rfl := (names_target p q).mp ht
      obtain rfl : d' = d := Option.some.inj (hhome'.symm.trans hhome)
      have hlocal : .here p ∉ z.hnp := fun hmem => by simp [z.pulled p hmem] at hhome
      rw [onWay_stdinLoop z.pushed z.nodup hclear hsame hs hsink, (stdinLoop_of_notMem hlocal (w.reading rev chunk)).1, hrest.read,
        ← append_assoc]
      exact congrArg (· ++ [chunk]) (h.away _ _ _ _ hs hp ht (hopen p hp'))
  · rw [hrest.ended]
    rcases mem_stdinLoop hp ho with rfl | ⟨wev', hwev', ho⟩
    · simp [reading, hzero]
    · simp [reading, h.empty p wev' hhome hwev' o ho hzero]

theorem onWay_cons {t : Target} {rest : List (Target × Output)} (hmessage : w.toOrted d = (t, chunk) :: rest) (d' : δ)
    (p : Name) : w.onWay d' p = (if d' = d ∧ t.Names p then [chunk] else []) ++
      onWay { w with toOrted := Function.update w.toOrted d rest } d' p := by
  unfold onWay
  dsimp only
  by_cases hd : d' = d
  · subst hd
    rw [update_self, hmessage, filterMap_cons]
    by_cases ht : t.Names p <;> simp [ht]
  · rw [update_of_ne hd, if_neg fun h => hd h.1, nil_append]

theorem hold_same (w : World δ) (d : δ) : (w.hold d).wev = w.wev ∧ (w.hold d).queued = w.queued ∧
    (w.hold d).toOrted = w.toOrted ∧ (w.hold d).read = w.read ∧ (w.hold d).ended = w.ended := by
  unfold hold
  split_ifs <;> exact ⟨rfl, rfl, rfl, rfl, rfl⟩

theorem Fed.come (h : Fed z w) {t : Target} {rest : List (Target × Output)}
    (hmessage : w.toOrted d = (t, chunk) :: rest) :
    Fed z (ortedProcessMsg d t chunk (z.orted d) { w with toOrted := Function.update w.toOrted d rest }) := by
  obtain ⟨q, hq, hhome⟩ := h.routed d (t, chunk) (by rw [hmessage]; exact mem_cons_self)
  obtain rfl : t = q.target := hq
  have hway := onWay_cons hmessage
  have hrouted : Routed z { w with toOrted := Function.update w.toOrted d rest } := by
    intro d' m hm
    dsimp only at hm
    by_cases hd : d' = d
    · subst hd
      rw [update_self] at hm
      exact h.routed d' m (by rw [hmessage]; exact mem_cons_of_mem _ hm)
    · rw [update_of_ne hd] at hm
      exact h.routed d' m hm
  -- without an open sink the chunk is dropped
  have hdrop (hclosed : q ∈ z.orted d → w.wev q = none) :
      Fed z { w with toOrted := Function.update w.toOrted d rest } := by
    refine ⟨h.here, fun host t d' p hs hp ht hopen => ?_, hrouted, h.empty⟩
    have hne : ¬(d' = d ∧ q.target.Names p) := by
      rintro ⟨rfl, hnames⟩
      obtain rfl := (names_target p q).mp hnames
      exact hopen (hclosed hp)
    have haway := h.away host t d' p hs hp ht hopen
    rwa [hway, if_neg hne, nil_append] at haway
  by_cases hmem : q ∈ z.orted d
  · rw [ortedProcessMsg_eq (z.orted_nodup d) hmem]
    cases hwev : w.wev q with
    | none => exact hdrop fun _ => hwev
    | some wev =>
      have hqueue : Fed z (queue { w with toOrted := Function.update w.toOrted d rest } q wev chunk) := by
        have hhere {p : Name} (hp : z.home p = none) : p ≠ q := by
          rintro rfl
          simp [hp] at hhome
        refine ⟨fun p hp hopen => ?_, fun host t d' p hs hp ht hopen => ?_, hrouted, fun p wev' hp hsome => ?_⟩
        · have hpq := hhere (z.pulled p hp)
          rw [queue_wev_of_ne _ _ _ hpq] at hopen
          rw [queue_queued_of_ne _ _ _ hpq]
          exact h.here p hp hopen
        · by_cases hpq : p = q
          · subst hpq
            obtain rfl : d' = d := Option.some.inj ((z.orted_pulled d' p hp).symm.trans hhome)
            have haway := h.away host t d' p hs hp ht (by simp [hwev])
            rw [hway, if_pos ⟨rfl, (names_target p p).mpr rfl⟩, ← append_assoc] at haway
            rw [queue_queued_self]
            exact haway
          · rw [queue_wev_of_ne _ _ _ hpq] at hopen
            rw [queue_queued_of_ne _ _ _ hpq]
            have haway := h.away host t d' p hs hp ht hopen
            rwa [hway, if_neg fun hd => hpq ((names_target p q).mp hd.2), nil_append] at haway
        · rw [queue_wev_of_ne _ _ _ (hhere hp)] at hsome
          exact h.empty p wev' hp hsome
      dsimp only
      split_ifs
      · obtain ⟨hsame, hsame', hsame'', hsame''', hsame''''⟩ :=
          hold_same (queue { w with toOrted := Function.update w.toOrted d rest } q wev chunk) d
        exact hqueue.congr hsame hsame' hsame'' hsame''' hsame''''
      · exact hqueue
  · rw [ortedProcessMsg_of_notMem hmem]
    exact hdrop fun h => absurd h hmem

/-- The event is armed or a timer will arm it, or it is off; no read starts after an XOFF. -/
structure Control (w : World δ) : Prop where
  overran : w.overran = 0
  event : ∀ rev, w.stdinev = some rev →
    rev.active = true ∧ (rev.armed = true ∧ w.timers = 0 ∨ rev.armed = false ∧ w.timers = 1) ∨
    rev.active = false ∧ rev.armed = false ∧ w.timers = 0
  closed : w.stdinev = none → w.ended = true
  held : w.held = true → ∀ rev, w.stdinev = some rev → rev.active = false

def Paused (z : Sinks δ) (w : World δ) : Prop := ∀ rev, w.stdinev = some rev → rev.active = false →
  w.ended = true ∨ ∃ p, z.home p = none ∧ w.Full (.here p : HnpSink δ)

omit [DecidableEq δ] in
theorem Control.congr (h : Control w) (hstdinev : w'.stdinev = w.stdinev) (htimers : w'.timers = w.timers)
    (hended : w'.ended = w.ended) (hheld : w'.held = w.held) (hoverran : w'.overran = w.overran) : Control w' := by
  obtain ⟨overran, event, closed, held⟩ := h
  refine ⟨by rw [hoverran, overran], ?_, ?_, ?_⟩
  · rw [hstdinev, htimers]
    exact event
  · rw [hstdinev, hended]
    exact closed
  · rw [hstdinev, hheld]
    exact held

omit [DecidableEq δ] in
theorem Paused.congr (h : Paused z w) (hstdinev : w'.stdinev = w.stdinev) (hended : w'.ended = w.ended)
    (hwev : ∀ p, z.home p = none → w'.wev p = w.wev p) : Paused z w' := by
  intro rev hrev hoff
  rw [hstdinev] at hrev
  rw [hended]
  refine (h rev hrev hoff).imp_right ?_
  rintro ⟨p, hp, wev, hsome, hfull⟩
  exact ⟨p, hp, wev, (hwev p hp).trans hsome, hfull⟩

omit [DecidableEq δ] in
theorem Control.armed (h : Control w) {rev : ReadEvent} (hrev : w.stdinev = some rev) (harmed : rev.armed = true) :
    rev.active = true ∧ w.timers = 0 ∧ w.held = false := by
  rcases h.event rev hrev with ⟨hactive, ⟨-, htimers⟩ | ⟨hoff, -⟩⟩ | ⟨-, hoff, -⟩
  · refine ⟨hactive, htimers, Bool.eq_false_iff.mpr fun hheld => ?_⟩
    exact absurd (hactive.symm.trans (h.held hheld rev hrev)) (by simp)
  · exact absurd (harmed.symm.trans hoff) (by simp)
  · exact absurd (harmed.symm.trans hoff) (by simp)

omit [DecidableEq δ] in
theorem Control.resume (h : Control w) : Control w.resume ∧ ∀ z, Paused z w.resume := by
  unfold World.resume
  cases hstdinev : w.stdinev with
  | none => exact ⟨h, fun z rev hrev => by simp [hstdinev] at hrev⟩
  | some rev =>
    dsimp only
    split_ifs with hactive
    · refine ⟨h, fun z rev' hrev' hoff => ?_⟩
      obtain rfl := Option.some.inj (hstdinev.symm.trans hrev')
      exact absurd (hactive.symm.trans hoff) (by simp)
    · rcases h.event rev hstdinev with ⟨hon, -⟩ | ⟨-, -, htimers⟩
      · exact absurd hon hactive
      · refine ⟨⟨h.overran, ?_, nofun, nofun⟩, fun z rev' hrev' hoff => ?_⟩
        · intro rev' hrev'
          cases hrev'
          exact .inl ⟨rfl, .inl ⟨rfl, htimers⟩⟩
        · cases hrev'
          cases hoff

omit [DecidableEq δ] in
theorem resume_same (w : World δ) : w.resume.wev = w.wev ∧ w.resume.queued = w.queued ∧
    w.resume.toOrted = w.toOrted ∧ w.resume.read = w.read ∧ w.resume.ended = w.ended := by
  unfold resume
  split
  · exact ⟨rfl, rfl, rfl, rfl, rfl⟩
  · split_ifs <;> exact ⟨rfl, rfl, rfl, rfl, rfl⟩

theorem writeLoop_empty (closes dumps : Bool) (outputs : List Output) (results : ℕ → Written) :
    ((writeLoop closes dumps outputs results).exit = .closed → ∃ o ∈ outputs, o.numbytes = 0) ∧
    ∀ o ∈ (writeLoop closes dumps outputs results).outputs, o.numbytes = 0 → ∃ o ∈ outputs, o.numbytes = 0 := by
  induction outputs generalizing results with
  | nil => exact ⟨nofun, nofun⟩
  | cons output outputs ih =>
    have hlater {P : Prop} (h : P → ∃ o ∈ outputs, o.numbytes = 0) (hP : P) : ∃ o ∈ output :: outputs, o.numbytes = 0 := by
      obtain ⟨o, ho, hzero⟩ := h hP
      exact ⟨o, mem_cons_of_mem _ ho, hzero⟩
    rw [writeLoop]
    split_ifs with hdumps hempty hcloses
    · exact ⟨hlater (ih results).1, fun o ho hzero => hlater ((ih results).2 o ho) hzero⟩
    · exact ⟨fun _ => ⟨output, mem_cons_self, hempty⟩, fun _ _ _ => ⟨output, mem_cons_self, hempty⟩⟩
    · exact ⟨hlater (ih results).1, fun o ho hzero => hlater ((ih results).2 o ho) hzero⟩
    · cases results 0 with
      | again => exact ⟨nofun, fun o ho hzero => ⟨o, ho, hzero⟩⟩
      | count n =>
        dsimp only
        split_ifs with hcut
        · refine ⟨nofun, fun o ho hzero => ?_⟩
          rcases mem_cons.mp ho with rfl | ho
          · exact absurd hzero hempty
          · exact ⟨o, mem_cons_of_mem _ ho, hzero⟩
        · exact ⟨hlater (ih _).1, fun o ho hzero => hlater ((ih _).2 o ho) hzero⟩

theorem stdinWriteHandler_empty (wev : WriteEvent) (results : ℕ → Written) :
    ((stdinWriteHandler false wev results).1 = none → ∃ o ∈ wev.outputs, o.numbytes = 0) ∧
    ∀ wev', (stdinWriteHandler false wev results).1 = some wev' → ∀ o ∈ wev'.outputs, o.numbytes = 0 →
      ∃ o ∈ wev.outputs, o.numbytes = 0 := by
  obtain ⟨hclosed, hempty⟩ := writeLoop_empty true false wev.outputs results
  unfold stdinWriteHandler
  dsimp only
  cases hexit : (writeLoop true false wev.outputs results).exit with
  | drained =>
    refine ⟨nofun, fun wev' hsome => ?_⟩
    cases hsome
    exact hempty
  | pushed =>
    refine ⟨nofun, fun wev' hsome => ?_⟩
    cases hsome
    exact hempty
  | closed => exact ⟨fun _ => hclosed hexit, nofun⟩

structure Inv (z : Sinks δ) (w : World δ) : Prop where
  fed : Fed z w
  control : Control w
  paused : Paused z w

omit [DecidableEq δ] in
theorem Inv.init (h : Init w) : Inv z w where
  fed := by
    refine ⟨fun p _ _ => by rw [h.queued, h.read], fun _ _ d p _ _ _ _ => ?_, fun d m hm => ?_, fun p wev _ hsome => ?_⟩
    · rw [h.queued, h.read, onWay, h.toOrted]
      rfl
    · rw [h.toOrted] at hm
      cases hm
    · rw [h.wev p wev hsome]
      exact nofun
  control := by
    refine ⟨h.overran, fun rev hrev => ?_, fun hnone => ?_, fun hheld => ?_⟩
    · obtain rfl := Option.some.inj (h.stdinev.symm.trans hrev)
      exact .inl ⟨rfl, .inl ⟨rfl, h.timers⟩⟩
    · rw [h.stdinev] at hnone
      cases hnone
    · rw [h.held] at hheld
      cases hheld
  paused := by
    intro rev hrev hoff
    obtain rfl := Option.some.inj (h.stdinev.symm.trans hrev)
    cases hoff

theorem Inv.read (h : Inv z w) {rev : ReadEvent} (hrev : w.stdinev = some rev) (harmed : rev.armed = true)
    {foreground : Bool} (hcareful : w.Careful z (.read chunk foreground)) :
    Inv z (w.readLocalHandler z rev chunk foreground) := by
  obtain ⟨hactive, htimers, hheld⟩ := h.control.armed hrev harmed
  obtain ⟨hclear, hwildcard⟩ := hcareful
  have hfed : Fed z (stdinLoop chunk z.hnp (w.reading rev chunk)).1 := h.fed.read hclear hwildcard
  have hrest := stdinLoop_rest chunk z.hnp (w.reading rev chunk)
  have hback : (stdinLoop chunk z.hnp (w.reading rev chunk)).2 = true →
      ∃ p, z.home p = none ∧ (stdinLoop chunk z.hnp (w.reading rev chunk)).1.Full (.here p : HnpSink δ) :=
    stdinLoop_backedUp z.pulled
  have hzero (hempty : chunk.numbytes = 0) : (w.reading rev chunk).ended = true := by simp [reading, hempty]
  rw [readLocalHandler_eq]
  generalize stdinLoop chunk z.hnp (w.reading rev chunk) = r at hfed hrest hback ⊢
  dsimp only
  have hoverran : r.1.overran = 0 := by
    rw [hrest.overran]
    simp [reading, startRead, hheld, h.control.overran]
  have hheld' : ¬r.1.held = true := by
    rw [hrest.held]
    simp [reading, startRead, hheld]
  have htimers' : r.1.timers = 0 := hrest.timers.trans htimers
  split_ifs with hfull hempty
  · refine ⟨hfed.congr rfl rfl rfl rfl rfl, ⟨hoverran, fun rev' hrev' => ?_, nofun, fun hh => absurd hh hheld'⟩,
      fun _ _ _ => .inr (hback hfull)⟩
    cases hrev'
    exact .inr ⟨rfl, rfl, htimers'⟩
  · exact ⟨hfed.congr rfl rfl rfl rfl rfl, ⟨hoverran, nofun, fun _ => hrest.ended.trans (hzero hempty), nofun⟩, nofun⟩
  · refine ⟨hfed.congr rfl rfl rfl rfl rfl, ⟨hoverran, fun rev' hrev' => ?_, fun hnone => ?_,
      fun hh => absurd hh hheld'⟩, fun rev' hrev' hoff => ?_⟩
    · obtain ⟨_, -, rfl⟩ := Option.map_eq_some_iff.mp hrev'
      exact .inl ⟨rfl, .inl ⟨rfl, htimers'⟩⟩
    · rw [restartStdin, hrest.stdinev] at hnone
      cases hnone
    · obtain ⟨_, -, rfl⟩ := Option.map_eq_some_iff.mp hrev'
      cases hoff
  · refine ⟨hfed.congr rfl rfl rfl rfl rfl, ⟨hoverran, fun rev' hrev' => ?_, fun hnone => ?_,
      fun hh => absurd hh hheld'⟩, fun rev' hrev' hoff => ?_⟩
    · obtain rfl := Option.some.inj (hrest.stdinev.symm.trans hrev')
      exact .inl ⟨hactive, .inr ⟨rfl, congrArg (· + 1) htimers'⟩⟩
    · rw [hrest.stdinev] at hnone
      cases hnone
    · obtain rfl := Option.some.inj (hrest.stdinev.symm.trans hrev')
      exact absurd (hactive.symm.trans hoff) (by simp)

theorem Inv.letGo (h : Inv z w) (d : δ) : Inv z (w.letGo d) := by
  unfold World.letGo
  split_ifs
  · exact ⟨h.fed.congr rfl rfl rfl rfl rfl, h.control.congr rfl rfl rfl rfl rfl, h.paused.congr rfl rfl fun _ _ => rfl⟩
  · exact h

theorem Inv.hold (h : Inv z w) (d : δ) : Inv z (w.hold d) := by
  unfold World.hold
  split_ifs
  · exact h
  · exact ⟨h.fed.congr rfl rfl rfl rfl rfl, h.control.congr rfl rfl rfl rfl rfl, h.paused.congr rfl rfl fun _ _ => rfl⟩

theorem Inv.fire (h : Inv z w) {wev : WriteEvent} (hsome : w.wev p = some wev) (results : ℕ → Written) :
    Inv z (match z.home p with | none => w.hnpWrite p wev results | some d => w.ortedWrite d p wev results) := by
  obtain ⟨hclosed, hempty⟩ := stdinWriteHandler_empty { wev with armed := false } results
  have hfed : Fed z { w with
      wev := Function.update w.wev p (stdinWriteHandler false { wev with armed := false } results).1 } := by
    refine h.fed.update (by simp [hsome]) fun hhome wev' hwev' o ho hzero => ?_
    obtain ⟨o', ho', hzero'⟩ := hempty wev' hwev' o ho hzero
    exact h.fed.empty p wev hhome hsome o' ho' hzero'
  cases hhome : z.home p with
  | none =>
    dsimp only
    rw [hnpWrite, hnpStdinWriteHandler]
    have hcontrol : Control { w with
        wev := Function.update w.wev p (stdinWriteHandler false { wev with armed := false } results).1 } :=
      h.control.congr rfl rfl rfl rfl rfl
    have hother {q : Name} (hqp : q ≠ p) (hq : w.Full (.here q : HnpSink δ)) : Full { w with
        wev := Function.update w.wev p (stdinWriteHandler false { wev with armed := false } results).1 }
          (.here q : HnpSink δ) := by
      obtain ⟨wev', hwev', hfull⟩ := hq
      exact ⟨wev', (update_of_ne hqp _ _).trans hwev', hfull⟩
    generalize (stdinWriteHandler false { wev with armed := false } results).1 = wev' at *
    -- the event stays off only for another full sink, or this one
    have hpaused (hp : wev' = none ∨ ∃ wev, wev' = some wev ∧ maxInputBuffers ≤ wev.outputs.length) :
        Paused z { w with wev := Function.update w.wev p wev' } := by
      intro rev hrev hoff
      rcases h.paused rev hrev hoff with hended | ⟨q, hq, hfull⟩
      · exact .inl hended
      · by_cases hqp : q = p
        · subst hqp
          rcases hp with hnone | ⟨wev₁, hsome₁, hle⟩
          · obtain ⟨o, ho, hzero⟩ := hclosed hnone
            exact .inl (h.fed.empty q wev hq hsome o ho hzero)
          · exact .inr ⟨q, hq, wev₁, (update_self ..).trans hsome₁, hle⟩
        · exact .inr ⟨q, hq, hother hqp hfull⟩
    cases wev' with
    | none => exact ⟨hfed, hcontrol, hpaused (.inl rfl)⟩
    | some wev₁ =>
      dsimp only
      split_ifs with hlt
      · obtain ⟨hwev, hqueued, htoOrted, hread, hended⟩ :=
          resume_same { w with wev := Function.update w.wev p (some wev₁) }
        exact ⟨hfed.congr hwev hqueued htoOrted hread hended, hcontrol.resume.1, hcontrol.resume.2 z⟩
      · exact ⟨hfed, hcontrol, hpaused (.inr ⟨wev₁, rfl, Nat.not_lt.mp hlt⟩)⟩
  | some d =>
    dsimp only
    rw [ortedWrite, ortedStdinWriteHandler]
    generalize (stdinWriteHandler false { wev with armed := false } results).1 = wev' at *
    have hinv : Inv z { w with wev := Function.update w.wev p wev' } := by
      refine ⟨hfed, h.control.congr rfl rfl rfl rfl rfl, h.paused.congr rfl rfl fun q hq => update_of_ne ?_ _ _⟩
      rintro rfl
      simp [hq] at hhome
    split
    · exact hinv
    · split_ifs
      · exact hinv.letGo d
      · exact hinv

theorem Inv.fail (h : Inv z w) (hopen : w.wev p ≠ none) (hcareful : w.Careful z (.fail p)) :
    Inv z (w.writeFails z p) := by
  have hfed : Fed z { w with wev := Function.update w.wev p none } := h.fed.update hopen fun _ _ => nofun
  have hcontrol : Control { w with wev := Function.update w.wev p none } := h.control.congr rfl rfl rfl rfl rfl
  rw [writeFails]
  cases hhome : z.home p with
  | none =>
    refine ⟨hfed, hcontrol, fun rev hrev hoff => ?_⟩
    rcases hcareful hhome with hended | hactive | ⟨q, hqp, hq, wev, hsome, hfull⟩
    · exact .inl hended
    · exact absurd ((hactive rev hrev).symm.trans hoff) (by simp)
    · exact .inr ⟨q, hq, wev, (update_of_ne hqp _ _).trans hsome, hfull⟩
  | some d =>
    refine Inv.hold ⟨hfed, hcontrol, h.paused.congr rfl rfl fun q hq => update_of_ne ?_ _ _⟩ d
    rintro rfl
    simp [hq] at hhome

theorem ortedProcessMsg_rest (d : δ) (t : Target) (chunk : Output) (ps : List Name) (w : World δ) :
    (ortedProcessMsg d t chunk ps w).stdinev = w.stdinev ∧ (ortedProcessMsg d t chunk ps w).timers = w.timers ∧
    (ortedProcessMsg d t chunk ps w).ended = w.ended ∧ (ortedProcessMsg d t chunk ps w).held = w.held ∧
    (ortedProcessMsg d t chunk ps w).overran = w.overran ∧
    ∀ p ∉ ps, (ortedProcessMsg d t chunk ps w).wev p = w.wev p := by
  fun_induction ortedProcessMsg d t chunk ps w with
  | case1 w => exact ⟨rfl, rfl, rfl, rfl, rfl, fun _ _ => rfl⟩
  | case2 q ps w hnames hnone => exact ⟨rfl, rfl, rfl, rfl, rfl, fun _ _ => rfl⟩
  | case3 q ps w hnames wev hsome w' ih =>
    obtain ⟨hstdinev, htimers, hended, hheld, hoverran, hwev⟩ := ih
    have hqueue {p : Name} (hp : p ∉ q :: ps) : w'.wev p = w.wev p :=
      queue_wev_of_ne w wev chunk fun h => hp (mem_cons.mpr (.inl h))
    have hrest {p : Name} (hp : p ∉ q :: ps) := hwev p fun h => hp (mem_cons_of_mem q h)
    rw [hstdinev, htimers, hended, hheld, hoverran]
    unfold hold at hrest ⊢
    split_ifs at hrest ⊢ <;> exact ⟨rfl, rfl, rfl, rfl, rfl, fun p hp => (hrest hp).trans (hqueue hp)⟩
  | case4 q ps w hnames ih =>
    obtain ⟨hstdinev, htimers, hended, hheld, hoverran, hwev⟩ := ih
    exact ⟨hstdinev, htimers, hended, hheld, hoverran, fun p hp => hwev p fun h => hp (mem_cons_of_mem q h)⟩

theorem Inv.come (h : Inv z w) {t : Target} {rest : List (Target × Output)}
    (hmessage : w.toOrted d = (t, chunk) :: rest) :
    Inv z (ortedProcessMsg d t chunk (z.orted d) { w with toOrted := Function.update w.toOrted d rest }) := by
  obtain ⟨hstdinev, htimers, hended, hheld, hoverran, hwev⟩ := ortedProcessMsg_rest d t chunk (z.orted d)
    { w with toOrted := Function.update w.toOrted d rest }
  refine ⟨h.fed.come hmessage, h.control.congr hstdinev htimers hended hheld hoverran,
    h.paused.congr hstdinev hended fun p hp => hwev p fun hmem => ?_⟩
  simp [z.orted_pulled d p hmem] at hp

theorem Inv.flow (h : Inv z w) {flow : Flow} {rest : List Flow} (hmessage : w.toHnp d = flow :: rest)
    (hcareful : w.Careful z (.toHnp d)) :
    Inv z ({ w with toHnp := Function.update w.toHnp d rest }.hnpProcessMsg flow) := by
  have hfed : Fed z { w with toHnp := Function.update w.toHnp d rest } := h.fed.congr rfl rfl rfl rfl rfl
  have hcontrol : Control { w with toHnp := Function.update w.toHnp d rest } := h.control.congr rfl rfl rfl rfl rfl
  cases flow with
  | xon =>
    obtain ⟨hwev, hqueued, htoOrted, hread, hended⟩ := resume_same { w with toHnp := Function.update w.toHnp d rest }
    obtain ⟨hresume, hpaused⟩ := hcontrol.resume
    exact ⟨hfed.congr hwev hqueued htoOrted hread hended, ⟨hresume.overran, hresume.event, hresume.closed, nofun⟩,
      hpaused z⟩
  | xoff =>
    have hoff : ∀ rev, w.stdinev = some rev → rev.active = false := hcareful (by rw [hmessage]; rfl)
    -- the event is off already
    have hsame : (w.stdinev.map fun rev => if rev.active then rev else ⟨false, false⟩) = w.stdinev := by
      cases hstdinev : w.stdinev with
      | none => rfl
      | some rev =>
        obtain ⟨active, armed⟩ := rev
        obtain rfl : active = false := hoff _ hstdinev
        rcases h.control.event _ hstdinev with ⟨hon, -⟩ | ⟨-, rfl, -⟩
        · cases hon
        · rfl
    rw [hnpProcessMsg]
    dsimp only
    rw [hsame]
    exact ⟨h.fed.congr rfl rfl rfl rfl rfl, ⟨h.control.overran, h.control.event, h.control.closed, fun _ => hoff⟩,
      h.paused.congr rfl rfl fun _ _ => rfl⟩

theorem Inv.step {e : Step δ} (h : Inv z w) (hcareful : w.Careful z e) (hstep : World.step z w e w') : Inv z w' := by
  cases e with
  | read chunk foreground =>
    obtain ⟨rev, hrev, harmed, rfl⟩ := hstep
    exact h.read hrev harmed hcareful
  | readAgain =>
    obtain ⟨rev, hrev, harmed, rfl⟩ := hstep
    obtain ⟨-, -, hheld⟩ := h.control.armed hrev harmed
    obtain ⟨active, armed⟩ := rev
    obtain rfl : armed = true := harmed
    refine ⟨h.fed.congr rfl rfl rfl rfl rfl, h.control.congr hrev.symm rfl rfl rfl ?_,
      h.paused.congr hrev.symm rfl fun _ _ => rfl⟩
    simp [startRead, hheld]
  | timer =>
    obtain ⟨htimers, rfl⟩ := hstep
    refine ⟨h.fed.congr rfl rfl rfl rfl rfl, ⟨h.control.overran, fun rev hrev => ?_, fun hnone => ?_,
      fun hheld rev hrev => ?_⟩, fun rev hrev hoff => ?_⟩
    · obtain ⟨rev₀, hrev₀, rfl⟩ := Option.map_eq_some_iff.mp hrev
      rcases h.control.event rev₀ hrev₀ with ⟨-, ⟨-, hzero⟩ | ⟨-, hone⟩⟩ | ⟨-, -, hzero⟩
      · omega
      · exact .inl ⟨rfl, .inl ⟨rfl, by dsimp only; omega⟩⟩
      · omega
    · exact h.control.closed (Option.map_eq_none_iff.mp hnone)
    · obtain ⟨rev₀, hrev₀, rfl⟩ := Option.map_eq_some_iff.mp hrev
      rcases h.control.event rev₀ hrev₀ with ⟨hon, -⟩ | ⟨-, -, hzero⟩
      · exact absurd (hon.symm.trans (h.control.held hheld rev₀ hrev₀)) (by simp)
      · omega
    · obtain ⟨rev₀, -, rfl⟩ := Option.map_eq_some_iff.mp hrev
      cases hoff
  | fire p results =>
    obtain ⟨wev, hsome, -, rfl⟩ := hstep
    exact h.fire hsome results
  | fail p =>
    obtain ⟨wev, o, hsome, -, -, -, rfl⟩ := hstep
    exact h.fail (by simp [hsome]) hcareful
  | toOrted d =>
    obtain ⟨t, chunk, rest, hmessage, rfl⟩ := hstep
    exact h.come hmessage
  | toHnp d =>
    obtain ⟨flow, rest, hmessage, rfl⟩ := hstep
    exact h.flow hmessage hcareful

omit [DecidableEq δ] in
theorem Inv.feeds (h : Inv z w) : w.Feeds z where
  here := h.fed.here
  away := h.fed.away
  holds := h.control.overran
  restarts hended hoff hempty := by
    cases hstdinev : w.stdinev with
    | none => exact absurd ((h.control.closed hstdinev).symm.trans hended) (by simp)
    | some rev =>
      rcases h.control.event rev hstdinev with ⟨-, ⟨hon, -⟩ | ⟨-, htimers⟩⟩ | ⟨hpaused, -, -⟩
      · exact absurd (hon.symm.trans (hoff rev hstdinev)) (by simp)
      · exact .inr (by omega)
      · rcases h.paused rev hstdinev hpaused with hend | ⟨p, -, wev, hsome, hfull⟩
        · exact absurd (hend.symm.trans hended) (by simp)
        · rw [hempty p wev hsome] at hfull
          exact absurd hfull (by simp [maxInputBuffers])

theorem feeds_of_careful (z : Sinks δ) (h : ((system z).restrict (Careful z)).Reachable w) : w.Feeds z := by
  have hinv : Inv z w := by
    refine h.invariant (P := Inv z) (fun w hw => ?_) fun w e w' hw hstep => ?_
    · exact Inv.init hw
    · exact hw.step hstep.1 hstep.2
  exact hinv.feeds

/-- Nothing was read, and all sinks are open. -/
def started : World Unit where
  stdinev := some ⟨true, true⟩
  timers := 0
  wev := fun _ => some ⟨false, false, []⟩
  xoff := fun _ => false
  toOrted := fun _ => []
  toHnp := fun _ => []
  read := []
  ended := false
  queued := fun _ => []
  held := false
  overran := 0

theorem started_init : Init started where
  stdinev := rfl
  timers := rfl
  wev := fun _ _ h => (Option.some.inj h).symm
  xoff := fun _ => rfl
  toOrted := fun _ => rfl
  toHnp := fun _ => rfl
  read := rfl
  ended := rfl
  queued := fun _ => rfl
  held := rfl
  overran := rfl

/-- The first process lives at the HNP, the others at a daemon; two have a sink. -/
def hereAndAway : Sinks Unit where
  home p := if p.vpid = 0 then none else some ()
  hnp := [.here ⟨1, 0⟩, .away (.daemon ()) ⟨1, some 1⟩]
  orted := fun _ => [⟨1, 1⟩]
  nodup := by decide
  orted_nodup := fun _ => by decide
  pulled p hp := by
    rcases mem_cons.mp hp with heq | hp
    · obtain rfl := HnpSink.here.inj heq
      rfl
    · simp at hp
  pushed host t ht := by
    obtain ⟨rfl, rfl⟩ : host = .daemon () ∧ t = ⟨1, some 1⟩ := by simpa using ht
    exact .inr ⟨⟨1, 1⟩, (), rfl, rfl, rfl⟩
  orted_pulled d p hp := by
    obtain rfl := mem_singleton.mp hp
    rfl

def oneByte : Output := ⟨[1], 1, by decide⟩

theorem feeds_of_careful_read : (started.readLocalHandler hereAndAway ⟨true, true⟩ oneByte true).read = [oneByte] ∧
    (started.readLocalHandler hereAndAway ⟨true, true⟩ oneByte true).Feeds hereAndAway := by
  refine ⟨rfl, feeds_of_careful hereAndAway ⟨started, [.read oneByte true], started_init, .single ⟨⟨?_, ?_⟩, ?_⟩⟩⟩
  · simp [hereAndAway, Full, started, maxInputBuffers]
  · simp [hereAndAway]
  · exact ⟨⟨true, true⟩, rfl, rfl, rfl⟩

/-- All processes of a job live at a daemon, and stdin goes to all of them. -/
def wildcard : Sinks Unit where
  home := fun _ => some ()
  hnp := [.away .invalid ⟨1, none⟩]
  orted := fun _ => [⟨1, 0⟩]
  nodup := by decide
  orted_nodup := fun _ => by decide
  pulled p hp := by simp at hp
  pushed host t ht := by
    obtain ⟨rfl, rfl⟩ : host = .invalid ∧ t = ⟨1, none⟩ := by simpa using ht
    exact .inl ⟨rfl, rfl⟩
  orted_pulled d p hp := rfl

/-- A chunk for a wildcard goes nowhere. -/
theorem not_feeds_wildcard : ∃ w : World Unit, (system wildcard).Reachable w ∧ ¬w.Feeds wildcard := by
  refine ⟨_, ⟨started, [.read oneByte true], started_init, .single ⟨⟨true, true⟩, rfl, rfl, rfl⟩⟩, fun h => ?_⟩
  have haway := h.away .invalid ⟨1, none⟩ () ⟨1, 0⟩ mem_cons_self mem_cons_self ⟨rfl, .inl rfl⟩ nofun
  cases haway

end World

end OpenMPI.Iof.Stdin
