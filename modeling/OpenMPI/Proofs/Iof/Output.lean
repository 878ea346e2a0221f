import OpenMPI.Iof.Output

/-!
# Forwarded output is written exactly once if no chunk is cut

Without a cut chunk, the queue of a channel is always a last part of the chunks that were queued, and what is before
it was written (`Inv`).  A handler takes some chunks from its front (`writeLoop_spec`).
-/

namespace OpenMPI.Iof

open Lib List

variable {h : Handler} {outputs : List Output} {results : ℕ → Written}

theorem Output.cut_zero (o : Output) : o.cut 0 = o := by
  cases o
  simp [cut]

theorem Output.bytes_of_empty {o : Output} (ho : o.numbytes = 0) : o.bytes = [] := by rw [bytes, ho, take_zero]

namespace Handler

def Full (h : Handler) (done : List Output) : Prop := h ≠ .base → ∀ o ∈ done, o.numbytes ≠ 0

theorem full_nil : h.Full [] := fun _ _ ho => nomatch ho

theorem Full.cons {o : Output} {done : List Output} (ho : h = .base ∨ o.numbytes ≠ 0) (hdone : h.Full done) :
    h.Full (o :: done) := by
  intro hbase p hp
  rcases mem_cons.mp hp with rfl | hp
  · exact ho.resolve_left hbase
  · exact hdone hbase p hp

theorem Full.append {done done' : List Output} (hdone : h.Full done) (hdone' : h.Full done') :
    h.Full (done ++ done') := by
  intro hbase o ho
  rcases mem_append.mp ho with ho | ho
  · exact hdone hbase o ho
  · exact hdone' hbase o ho

theorem expected_of_ne (hbase : h ≠ .base) (queued : List Output) :
    h.expected queued = (queued.takeWhile (·.numbytes ≠ 0)).flatMap Output.bytes := by
  cases h with
  | base => exact absurd rfl hbase
  | hnp => rfl
  | orted => rfl

theorem expected_append {done : List Output} (hdone : h.Full done) (rest : List Output) :
    h.expected (done ++ rest) = done.flatMap Output.bytes ++ h.expected rest := by
  by_cases hbase : h = .base
  · subst hbase
    exact flatMap_append
  · rw [expected_of_ne hbase, expected_of_ne hbase, ← flatMap_append,
      takeWhile_append_of_pos fun o ho => decide_eq_true (hdone hbase o ho)]

theorem expected_nil : h.expected [] = [] := by cases h <;> rfl

theorem expected_empty {o : Output} (hbase : h ≠ .base) (ho : o.numbytes = 0) (rest : List Output) :
    h.expected (o :: rest) = [] := by
  rw [expected_of_ne hbase, takeWhile_cons_of_neg (by simpa using ho)]
  rfl

theorem takeWhile_prefix_concat (p : Output → Bool) (queued : List Output) (o : Output) :
    queued.takeWhile p <+: (queued ++ [o]).takeWhile p := by
  induction queued with
  | nil => exact List.nil_prefix
  | cons q queued ih =>
    rw [cons_append, takeWhile_cons, takeWhile_cons]
    split_ifs
    · exact (prefix_cons_inj q).mpr ih
    · exact prefix_rfl

theorem expected_prefix (queued : List Output) (o : Output) : h.expected queued <+: h.expected (queued ++ [o]) := by
  by_cases hbase : h = .base
  · subst hbase
    exact ⟨o.bytes, by simp [expected]⟩
  · obtain ⟨rest, hrest⟩ := takeWhile_prefix_concat (·.numbytes ≠ 0) queued o
    rw [expected_of_ne hbase, expected_of_ne hbase, ← hrest, flatMap_append]
    exact prefix_append _ _

end Handler

/-- Some chunks are taken from the front and written; the others stay, or the first of them closes the channel. -/
structure Takes (h : Handler) (outputs : List Output) (turn : Turn) (done rest : List Output) : Prop where
  split : outputs = done ++ rest
  full : h.Full done
  written : turn.written = done.flatMap Output.bytes
  drained : turn.exit = .drained → rest = [] ∧ turn.outputs = []
  pushed : turn.exit = .pushed → turn.outputs = rest ∧ h ≠ .base
  closed : turn.exit = .closed → ∃ o rest', rest = o :: rest' ∧ o.numbytes = 0 ∧ h ≠ .base

theorem Takes.cons {turn turn' : Turn} {done rest : List Output} {o : Output} (ht : Takes h outputs turn done rest)
    (ho : h = .base ∨ o.numbytes ≠ 0) (hexit : turn'.exit = turn.exit) (houtputs : turn'.outputs = turn.outputs)
    (hwritten : turn'.written = o.bytes ++ turn.written) : Takes h (o :: outputs) turn' (o :: done) rest where
  split := by rw [ht.split, cons_append]
  full := ht.full.cons ho
  written := by rw [hwritten, ht.written, flatMap_cons]
  drained h := houtputs ▸ ht.drained (hexit ▸ h)
  pushed h := houtputs ▸ ht.pushed (hexit ▸ h)
  closed h := ht.closed (hexit ▸ h)

theorem writeLoop_spec (huncut : Channel.Uncut h outputs results) :
    ∃ done rest, Takes h outputs (writeLoop (h ≠ .base) false outputs results) done rest := by
  induction outputs generalizing results with
  | nil => exact ⟨[], [], rfl, Handler.full_nil, rfl, fun _ => ⟨rfl, rfl⟩, nofun, nofun⟩
  | cons o outputs ih =>
    unfold Channel.Uncut at huncut
    rw [writeLoop, if_neg Bool.false_ne_true]
    by_cases hempty : o.numbytes = 0
    · rw [if_pos hempty] at huncut ⊢
      by_cases hbase : h = .base
      · rw [if_pos hbase] at huncut
        rw [if_neg (by simpa using hbase)]
        obtain ⟨done, rest, ht⟩ := ih huncut
        refine ⟨o :: done, rest, ht.cons (.inl hbase) rfl rfl ?_⟩
        rw [Output.bytes_of_empty hempty]
        rfl
      · rw [if_pos (by simpa using hbase)]
        exact ⟨[], o :: outputs, rfl, Handler.full_nil, rfl, nofun, nofun, fun _ => ⟨o, outputs, rfl, hempty, hbase⟩⟩
    · rw [if_neg hempty] at huncut ⊢
      cases hresult : results 0 with
      | again =>
        rw [hresult] at huncut
        exact ⟨[], o :: outputs, rfl, Handler.full_nil, rfl, nofun, fun _ => ⟨rfl, huncut⟩, nofun⟩
      | count numWritten =>
        rw [hresult] at huncut
        dsimp only at huncut ⊢
        split_ifs at huncut ⊢ with hcut
        · obtain ⟨hbase, rfl⟩ := huncut
          rw [Output.cut_zero]
          exact ⟨[], o :: outputs, rfl, Handler.full_nil, rfl, nofun, fun _ => ⟨rfl, hbase⟩, nofun⟩
        · obtain ⟨done, rest, ht⟩ := ih huncut
          exact ⟨o :: done, rest, ht.cons (.inr hempty) rfl rfl rfl⟩

theorem writeLoop_dumps (closes : Bool) : writeLoop closes true outputs results = ⟨[], [], .drained⟩ := by
  induction outputs with
  | nil => rfl
  | cons o outputs ih => rw [writeLoop, if_pos rfl, ih]

theorem accepts_tail {o : Output} (haccepts : ∀ i, ∃ n, results i = .count n ∧ ∀ p ∈ o :: outputs, p.numbytes ≤ n)
    (f : ℕ → ℕ) (i : ℕ) : ∃ n, results (f i) = .count n ∧ ∀ p ∈ outputs, p.numbytes ≤ n := by
  obtain ⟨n, hn, hle⟩ := haccepts (f i)
  exact ⟨n, hn, fun p hp => hle p (mem_cons_of_mem _ hp)⟩

section

variable (haccepts : ∀ i, ∃ n, results i = .count n ∧ ∀ o ∈ outputs, o.numbytes ≤ n)

include haccepts

theorem uncut_of_accepts :
    Channel.Uncut h outputs results := by
  induction outputs generalizing results with
  | nil => trivial
  | cons o outputs ih =>
    unfold Channel.Uncut
    split_ifs with hempty hbase
    · exact ih (accepts_tail haccepts id)
    · obtain ⟨n, hn, hle⟩ := haccepts 0
      rw [hn]
      dsimp only
      rw [if_neg (by have := hle o mem_cons_self; omega)]
      exact ih (accepts_tail haccepts (· + 1))

theorem writeLoop_accepts (closes : Bool) : (writeLoop closes false outputs results).exit ≠ .pushed := by
  induction outputs generalizing results with
  | nil => nofun
  | cons o outputs ih =>
    rw [writeLoop, if_neg Bool.false_ne_true]
    split_ifs with hempty hcloses
    · nofun
    · exact ih (accepts_tail haccepts id)
    · obtain ⟨n, hn, hle⟩ := haccepts 0
      rw [hn]
      dsimp only
      rw [if_neg (by have := hle o mem_cons_self; omega)]
      exact ih (accepts_tail haccepts (· + 1))

end

namespace Channel

variable {s : Channel} {wev : WriteEvent}

def Dumps (h : Handler) (s : Channel) : Prop := h = .hnp ∧ s.abnormalTermOrdered = true

/-- What is queued is a last part of what was queued, and what was before it is written. -/
structure Inv (h : Handler) (s : Channel) : Prop where
  ordered : s.written <+: h.expected s.queued
  pending : ∀ wev, s.wev = some wev → wev.armed = wev.pending ∧ (wev.outputs ≠ [] → wev.pending = true)
  rest : ∀ wev, s.wev = some wev → ¬Dumps h s →
    ∃ done, s.queued = done ++ wev.outputs ∧ h.Full done ∧ s.written = done.flatMap Output.bytes

theorem fire_eq (wev : WriteEvent) (results : ℕ → Written) :
    let dumps := decide (h = .hnp) && s.abnormalTermOrdered
    let turn := writeLoop (h ≠ .base) dumps wev.outputs results
    s.fire h wev results = { s with
      wev := match turn.exit with
        | .drained => some ⟨false && h = .base, false, turn.outputs⟩
        | .pushed => if h = .base then some { wev with armed := false, outputs := turn.outputs }
          else some ⟨true, true, turn.outputs⟩
        | .closed => if h = .base then some { wev with armed := false, outputs := turn.outputs } else none
      written := s.written ++ turn.written } := by
  cases h with
  | base =>
    simp only [fire, baseWriteHandler]
    rcases hexit : (writeLoop false false wev.outputs results).exit <;> simp [hexit]
  | hnp =>
    simp only [fire, hnpStdinWriteHandler, stdinWriteHandler]
    rcases hexit : (writeLoop true s.abnormalTermOrdered wev.outputs results).exit <;> simp [hexit]
  | orted =>
    simp only [fire, ortedStdinWriteHandler, stdinWriteHandler]
    rcases hexit : (writeLoop true false wev.outputs results).exit <;> simp [hexit]

theorem Inv.queue (hinv : Inv h s) (hwev : s.wev = some wev) (output : Output) : Inv h (s.queue wev output) where
  ordered := hinv.ordered.trans (Handler.expected_prefix _ _)
  pending w hw := by
    cases hw
    obtain ⟨harmed, hpending⟩ := hinv.pending wev hwev
    rw [writeOutput]
    dsimp only
    split_ifs with hoff
    · exact ⟨harmed, fun _ => hoff⟩
    · exact ⟨rfl, fun _ => rfl⟩
  rest w hw hdumps := by
    cases hw
    obtain ⟨done, hqueued, hfull, hwritten⟩ := hinv.rest wev hwev hdumps
    refine ⟨done, ?_, hfull, hwritten⟩
    have houtputs : (writeOutput wev output).1.outputs = wev.outputs ++ [output] := by
      rw [writeOutput]
      split_ifs <;> rfl
    rw [houtputs, ← append_assoc, ← hqueued]
    rfl

theorem Inv.takes (hinv : Inv h s) (hwev : s.wev = some wev) (hdumps : ¬Dumps h s)
    (huncut : Uncut h wev.outputs results) : ∃ done rest, s.queued = done ++ rest ∧ h.Full done ∧
      (s.fire h wev results).written = done.flatMap Output.bytes ∧
      ((s.fire h wev results).wev = some ⟨false, false, []⟩ ∧ rest = [] ∨
        (s.fire h wev results).wev = some ⟨true, true, rest⟩ ∧ h ≠ .base ∧
          (writeLoop (h ≠ .base) false wev.outputs results).exit = .pushed ∨
        (s.fire h wev results).wev = none ∧ h.expected rest = []) := by
  obtain ⟨done, hqueued, hfull, hwritten⟩ := hinv.rest wev hwev hdumps
  obtain ⟨done', rest, ht⟩ := writeLoop_spec huncut
  have hoff : (decide (h = .hnp) && s.abnormalTermOrdered) = false := by
    rw [Bool.eq_false_iff, ne_eq, Bool.and_eq_true, decide_eq_true_iff]
    exact hdumps
  refine ⟨done ++ done', rest, ?_, hfull.append ht.full, ?_, ?_⟩
  · rw [hqueued, ht.split, append_assoc]
  · rw [fire_eq, hoff, hwritten]
    dsimp only
    rw [ht.written, flatMap_append]
  · rw [fire_eq, hoff]
    dsimp only
    cases hexit : (writeLoop (h ≠ .base) false wev.outputs results).exit with
    | drained =>
      obtain ⟨hrest, houtputs⟩ := ht.drained hexit
      exact .inl ⟨by rw [houtputs]; rfl, hrest⟩
    | pushed =>
      obtain ⟨houtputs, hbase⟩ := ht.pushed hexit
      exact .inr (.inl ⟨by rw [houtputs]; exact if_neg hbase, hbase, rfl⟩)
    | closed =>
      obtain ⟨o, rest', rfl, hempty, hbase⟩ := ht.closed hexit
      exact .inr (.inr ⟨if_neg hbase, Handler.expected_empty hbase hempty rest'⟩)

theorem Inv.fire (hinv : Inv h s) (hwev : s.wev = some wev) (hcareful : Dumps h s ∨ Uncut h wev.outputs results) :
    Inv h (s.fire h wev results) := by
  by_cases hdumps : Dumps h s
  · obtain ⟨rfl, habnormal⟩ := hdumps
    have hfire : s.fire .hnp wev results = { s with wev := some ⟨false, false, []⟩, written := s.written ++ [] } := by
      rw [fire_eq, habnormal]
      simp [writeLoop_dumps]
    rw [hfire, append_nil]
    refine ⟨hinv.ordered, fun w hw => ?_, fun w hw hno => absurd ⟨rfl, habnormal⟩ hno⟩
    cases hw
    exact ⟨rfl, fun hne => absurd rfl hne⟩
  · obtain ⟨done, rest, hqueued, hfull, hwritten, hwev'⟩ := hinv.takes hwev hdumps (hcareful.resolve_left hdumps)
    have hordered : done.flatMap Output.bytes <+: h.expected s.queued := by
      rw [hqueued, Handler.expected_append hfull]
      exact prefix_append _ _
    have hqueued' : (s.fire h wev results).queued = s.queued := by rw [fire_eq]
    refine ⟨by rw [hwritten, hqueued']; exact hordered, fun w hw => ?_, fun w hw _ => ?_⟩
    · rcases hwev' with ⟨h', -⟩ | ⟨h', -⟩ | ⟨h', -⟩
      · obtain rfl := Option.some.inj (h'.symm.trans hw)
        exact ⟨rfl, fun hne => absurd rfl hne⟩
      · obtain rfl := Option.some.inj (h'.symm.trans hw)
        exact ⟨rfl, fun _ => rfl⟩
      · cases h'.symm.trans hw
    · refine ⟨done, ?_, hfull, hwritten⟩
      rw [hqueued', hqueued]
      rcases hwev' with ⟨h', hrest⟩ | ⟨h', -⟩ | ⟨h', -⟩
      · obtain rfl := Option.some.inj (h'.symm.trans hw)
        rw [hrest]
      · obtain rfl := Option.some.inj (h'.symm.trans hw)
        rfl
      · cases h'.symm.trans hw

theorem Inv.right (hinv : Inv h s) : s.Right h where
  ordered := hinv.ordered
  armed wev hwev hne := by
    obtain ⟨harmed, hpending⟩ := hinv.pending wev hwev
    rw [harmed, hpending hne]
  drains habnormal wev hwev results haccepts := by
    have hdumps : ¬Dumps h s := fun hd => by rw [hd.2] at habnormal; cases habnormal
    obtain ⟨done, rest, hqueued, hfull, hwritten, hwev'⟩ := hinv.takes hwev hdumps (uncut_of_accepts haccepts)
    have hrest : h.expected rest = [] := by
      rcases hwev' with ⟨-, rfl⟩ | ⟨-, -, hpushed⟩ | ⟨-, hrest⟩
      · exact Handler.expected_nil
      · exact absurd hpushed (writeLoop_accepts haccepts _)
      · exact hrest
    rw [hwritten, hqueued, Handler.expected_append hfull, hrest, append_nil]

theorem inv_of_careful (hs : ((system h).restrict (Careful h)).Reachable s) : Inv h s := by
  refine System.Reachable.invariant (P := Inv h) (fun s₀ h₀ => ?_) (fun s₁ e s₂ hinv hstep => ?_) hs
  · obtain rfl := h₀
    refine ⟨List.nil_prefix, fun w hw => ?_, fun w hw _ => ?_⟩
    · cases hw
      exact ⟨rfl, fun hne => absurd rfl hne⟩
    · cases hw
      exact ⟨[], rfl, Handler.full_nil, rfl⟩
  · obtain ⟨hcareful, hstep⟩ := hstep
    cases e with
    | queue output =>
      obtain ⟨wev, hwev, rfl⟩ := hstep
      exact hinv.queue hwev output
    | fire results =>
      obtain ⟨wev, hwev, -, rfl⟩ := hstep
      exact hinv.fire hwev (hcareful wev hwev)
    | terminate =>
      obtain rfl := hstep
      exact ⟨hinv.ordered, hinv.pending, fun w hw hdumps => hinv.rest w hw fun hd => hdumps ⟨hd.1, rfl⟩⟩

/-- In a run where no chunk is cut, and output is always written whole, the descriptor gets what was queued, once
and in order, and as long as something is queued it will be asked again. -/
theorem right_of_careful (hs : ((system h).restrict (Careful h)).Reachable s) : s.Right h :=
  (inv_of_careful hs).right

def chunk (data : List UInt8) : Output := ⟨data, data.length, Nat.le_refl _⟩

def queuedOne (data : List UInt8) : Channel := ⟨some ⟨true, true, [chunk data]⟩, false, [chunk data], []⟩

theorem queuedOne_reachable (h : Handler) (data : List UInt8) :
    ((system h).restrict (Careful h)).Reachable (queuedOne data) := by
  have hstep : ((system h).restrict (Careful h)).step ⟨some ⟨false, false, []⟩, false, [], []⟩
      (.queue (chunk data)) (queuedOne data) := ⟨trivial, _, rfl, rfl⟩
  exact ⟨_, _, rfl, (System.Run.nil _).snoc hstep⟩

theorem right_of_careful_retry : ∃ s : Channel, s.written = [1, 2] ∧ s.Right .hnp := by
  have hagain : ((system .hnp).restrict (Careful .hnp)).step (queuedOne [1, 2]) (.fire fun _ => .again)
      (queuedOne [1, 2]) := by
    refine ⟨fun w hw => ?_, _, rfl, rfl, rfl⟩
    cases hw
    exact .inr nofun
  have hall : ((system .hnp).restrict (Careful .hnp)).step (queuedOne [1, 2]) (.fire fun _ => .count 2)
      ⟨some ⟨false, false, []⟩, false, [chunk [1, 2]], [1, 2]⟩ := by
    refine ⟨fun w hw => ?_, _, rfl, rfl, rfl⟩
    cases hw
    exact .inr trivial
  exact ⟨_, rfl, right_of_careful (((queuedOne_reachable .hnp [1, 2]).step hagain).step hall)⟩

/-- The second byte of two is written twice by a handler for stdin, and never by the handler for output. -/
theorem not_right_of_cut : (∃ s, (system .hnp).Reachable s ∧ s.written = [1, 2, 2] ∧ ¬s.Right .hnp) ∧
    (∃ s, (system .orted).Reachable s ∧ s.written = [1, 2, 2] ∧ ¬s.Right .orted) ∧
    ∃ s, (system .base).Reachable s ∧ s.written = [1] ∧ ¬s.Right .base := by
  have hcut (h : Handler) : (system h).step (queuedOne [1, 2]) (.fire fun _ => .count 1)
      ((queuedOne [1, 2]).fire h ⟨true, true, [chunk [1, 2]]⟩ fun _ => .count 1) := ⟨_, rfl, rfl, rfl⟩
  have hstart (h : Handler) := (queuedOne_reachable h [1, 2]).of_restrict.step (hcut h)
  have hordered {l : List UInt8} (hl : [1, 2, 2] <+: l) (hle : l.length ≤ 2) : False := by
    have := hl.length_le
    simp only [length_cons, length_nil] at this
    omega
  refine ⟨?_, ?_, ?_⟩
  · have hall : (system .hnp).step ((queuedOne [1, 2]).fire .hnp ⟨true, true, [chunk [1, 2]]⟩ fun _ => .count 1)
        (.fire fun _ => .count 2) ⟨some ⟨false, false, []⟩, false, [chunk [1, 2]], [1, 2, 2]⟩ := ⟨_, rfl, rfl, rfl⟩
    exact ⟨_, (hstart .hnp).step hall, rfl, fun hright => hordered hright.ordered (by decide)⟩
  · have hall : (system .orted).step ((queuedOne [1, 2]).fire .orted ⟨true, true, [chunk [1, 2]]⟩ fun _ => .count 1)
        (.fire fun _ => .count 2) ⟨some ⟨false, false, []⟩, false, [chunk [1, 2]], [1, 2, 2]⟩ := ⟨_, rfl, rfl, rfl⟩
    exact ⟨_, (hstart .orted).step hall, rfl, fun hright => hordered hright.ordered (by decide)⟩
  · exact ⟨_, hstart .base, rfl, fun hright => Bool.false_ne_true (hright.armed _ rfl nofun)⟩

end Channel

end OpenMPI.Iof
