import Mathlib.Data.List.Perm.Basic
import Mathlib.Data.List.Range
import OpenMPI.Ob1.Pending

/-!
# Deferred control messages are faithful

What was sent and what waits are together what the callers wanted sent, each once (`Faithful`): an object that is filled
waits nowhere else, and a message is sent as it was saved, but for the flags of an ACK.
-/

namespace OpenMPI.Ob1.Pckt

open Lib List

variable {z : Config} {s t : State}

def Pending.resend (p : Pending) : Msg :=
  ⟨p.call, p.proc, match p.hdr with
    | .ack flags srcReq dstReq sendOffset => .ack (if flags &&& nordmaFlag ≠ 0 then nordmaFlag else 0) srcReq dstReq sendOffset
    | .fin _ des fail => .fin 0 des fail⟩

def State.waiting (s : State) : List Msg := s.pending.map fun pckt => (s.mem pckt).resend

def State.hands (s : State) : List ℕ := s.frames.filterMap Frame.pckt

structure Faithful (s : State) : Prop where
  conserved : (s.sent ++ s.waiting).Perm s.posted
  calls : s.posted.map Msg.call = List.range s.posted.length
  places : (s.pending ++ s.free ++ s.hands).Perm (List.range s.made)

/-- An ACK that is deferred gets an object with its flag, and a FIN that is sent again goes. -/
def State.Careful (z : Config) (s : State) : Step → Prop
  | .ack proc _ _ _ nordma attempts => (∀ i < (z.btlEager proc).length, (attempts i).ok = false) →
      nordma = decide ((s.mem (s.alloc z).1).hdr.flags &&& nordmaFlag ≠ 0)
  | .turn a => ∀ btl left frames pckt pending, s.frames = ⟨btl, left + 1, none⟩ :: frames → s.pending = pckt :: pending →
      (∃ flags des fail, (s.mem pckt).hdr = .fin flags des fail) → (sendDst z (s.mem pckt) btl).isSome → a.ok = true
  | _ => True

/-- The messages `out` are neither sent nor waiting yet, and the objects `taken` are on no list. -/
structure Inv (s : State) (out : List Msg) (taken : List ℕ) : Prop where
  conserved : (s.sent ++ s.waiting ++ out).Perm s.posted
  calls : s.posted.map Msg.call = List.range s.posted.length
  places : (s.pending ++ s.free ++ (s.hands ++ taken)).Perm (List.range s.made)
  dst : ∀ pckt ∈ s.pending, ∀ b, (s.mem pckt).bmlBtl = some b → b.proc = (s.mem pckt).proc

variable {out : List Msg} {taken : List ℕ} {pckt : ℕ}

theorem alloc_spec {rest : List ℕ} (hplaces : (s.pending ++ s.free ++ rest).Perm (range s.made)) :
    (s.pending ++ (s.alloc z).1 :: (s.alloc z).2.free ++ rest).Perm (range (s.alloc z).2.made) ∧
      s.alloc z = ((s.alloc z).1, { s with free := (s.alloc z).2.free, made := (s.alloc z).2.made }) := by
  rw [State.alloc]
  rcases hfree : s.free with - | ⟨item, free⟩
  · refine ⟨?_, by simp⟩
    have hrange : range (s.made + 1 + z.more) = range s.made ++ s.made :: range' (s.made + 1) z.more := by
      rw [range_eq_range', range_eq_range', Nat.add_assoc, ← range'_append_1, Nat.zero_add,
        Nat.add_comm 1, range'_succ]
    rw [hfree, append_nil] at hplaces
    simp only [hrange]
    refine List.Perm.trans ?_ (hplaces.append_right _)
    rw [append_assoc, append_assoc]
    exact List.perm_append_comm.append_left _
  · refine ⟨?_, by simp⟩
    rw [hfree] at hplaces
    exact hplaces

namespace Inv

theorem post (h : Inv s [] taken) {m : Msg} (hm : m.call = s.posted.length) :
    Inv { s with posted := s.posted ++ [m] } [m] taken :=
  { h with
    conserved := by
      have hconserved := h.conserved
      rw [append_nil] at hconserved
      exact hconserved.append_right [m]
    calls := by
      rw [map_append, h.calls, length_append, length_singleton, range_succ, map_singleton, hm] }

theorem send {m : Msg} (h : Inv s [m] taken) : Inv (s.send m) [] taken :=
  { h with
    conserved := by
      refine List.Perm.trans ?_ h.conserved
      show (s.sent ++ [m] ++ s.waiting ++ []).Perm _
      rw [append_nil, append_assoc, append_assoc]
      exact List.perm_append_comm.append_left _ }

theorem save {m : Msg} (h : Inv s [m] taken) {p : Pending} (hp : p.resend = m)
    (hdst : ∀ b, p.bmlBtl = some b → b.proc = p.proc) : Inv ((s.alloc z).2.save (s.alloc z).1 p) [] taken := by
  obtain ⟨hperm, heq⟩ := alloc_spec (z := z) h.places
  generalize s.alloc z = new at hperm heq ⊢
  obtain ⟨item, u⟩ := new
  dsimp only at hperm heq ⊢
  obtain ⟨-, hu⟩ := Prod.mk.inj heq
  have hnot : item ∉ s.pending := fun hin => by
    have hnodup := hperm.nodup_iff.mpr nodup_range
    rw [append_assoc, nodup_append] at hnodup
    exact hnodup.2.2 item hin item mem_cons_self rfl
  have hmem (pckt : ℕ) (hin : pckt ∈ s.pending) : (u.save item p).mem pckt = s.mem pckt := by
    have hne : pckt ≠ item := fun heq => hnot (heq ▸ hin)
    show Function.update u.mem item p pckt = s.mem pckt
    rw [Function.update_of_ne hne, hu]
  have hitem : (u.save item p).mem item = p := Function.update_self ..
  have hpending : (u.save item p).pending = s.pending ++ [item] := by
    show u.pending ++ [item] = _
    rw [hu]
  have hwaiting : (u.save item p).waiting = s.waiting ++ [m] := by
    rw [State.waiting, hpending, map_append, map_singleton, hitem, hp]
    congr 1
    exact map_congr_left fun pckt hin => by rw [hmem pckt hin]
  have hrest : (u.save item p).sent = s.sent ∧ (u.save item p).posted = s.posted ∧ (u.save item p).hands = s.hands := by
    show u.sent = _ ∧ u.posted = _ ∧ u.hands = _
    rw [hu]
    exact ⟨rfl, rfl, rfl⟩
  exact {
    conserved := by
      rw [hwaiting, hrest.1, hrest.2.1, append_nil, ← append_assoc]
      exact h.conserved
    calls := by
      rw [hrest.2.1]
      exact h.calls
    places := by
      rw [hpending, hrest.2.2, append_assoc s.pending]
      exact hperm
    dst := fun pckt hin b hb => by
      rw [hpending] at hin
      rcases mem_append.mp hin with hin | hin
      · rw [hmem pckt hin] at hb ⊢
        exact h.dst pckt hin b hb
      · rw [mem_singleton.mp hin, hitem] at hb ⊢
        exact hdst b hb }

theorem reframe (h : Inv s out taken) {frames : List Frame} {taken' : List ℕ}
    (hframes : (frames.filterMap Frame.pckt ++ taken').Perm (s.hands ++ taken)) : Inv { s with frames := frames } out taken' :=
  { h with
    places := List.Perm.trans (hframes.append_left _) h.places }

theorem progressPending (h : Inv s out taken) (btl : ℕ) : Inv (s.progressPending btl) out taken := by
  rw [State.progressPending]
  split_ifs
  · exact h
  · exact h.reframe .rfl

theorem take (h : Inv s [] []) {pending : List ℕ} (hpending : s.pending = pckt :: pending) :
    Inv { s with pending := pending } [(s.mem pckt).resend] [pckt] where
  conserved := by
    refine List.Perm.trans ?_ h.conserved
    rw [append_nil, append_assoc]
    refine List.Perm.append_left _ ?_
    simp only [State.waiting, hpending, map_cons]
    exact perm_append_singleton _ _
  calls := h.calls
  places := by
    refine List.Perm.trans ?_ h.places
    rw [hpending, append_nil, ← append_assoc]
    exact perm_append_singleton _ _
  dst p hp := h.dst p (hpending ▸ mem_cons_of_mem _ hp)

theorem requeue (h : Inv s [(s.mem pckt).resend] [pckt])
    (hdst : ∀ b, (s.mem pckt).bmlBtl = some b → b.proc = (s.mem pckt).proc) :
    Inv { s with pending := s.pending ++ [pckt] } [] [] where
  conserved := by
    have hconserved := h.conserved
    rw [append_assoc] at hconserved
    rw [append_nil]
    simpa [State.waiting] using hconserved
  calls := h.calls
  places := by
    refine List.Perm.trans ?_ h.places
    rw [append_nil, append_assoc, append_assoc, append_assoc]
    refine List.Perm.append_left _ ?_
    rw [← append_assoc s.free]
    exact perm_append_comm
  dst p hp b hb := by
    rcases mem_append.mp hp with hp | hp
    · exact h.dst p hp b hb
    · obtain rfl := mem_singleton.mp hp
      exact hdst b hb

theorem giveBack (h : Inv s out [pckt]) : Inv (s.giveBack pckt) out [] :=
  { h with
    places := by
      refine List.Perm.trans ?_ h.places
      show (s.pending ++ pckt :: s.free ++ (s.hands ++ [])).Perm _
      rw [append_nil, append_assoc, append_assoc, ← append_assoc s.free]
      exact (perm_append_singleton pckt _).symm.append_left _ }

theorem ackSendBtl {call srcReq dstReq sendOffset : ℕ} {nordma : Bool} (bmlBtl : BmlBtl) (a : Attempt)
    (h : Inv s [⟨call, bmlBtl.proc, .ack (if nordma then nordmaFlag else 0) srcReq dstReq sendOffset⟩] taken) :
    let u := s.ackSendBtl call bmlBtl srcReq dstReq sendOffset nordma a
    (u.1 = .success → Inv u.2 [] taken ∧ u.2.pending = s.pending ∧ u.2.frames = s.frames) ∧
      (u.1 = .outOfResource → u.2 = s ∧ a.ok = false) := by
  rw [State.ackSendBtl]
  by_cases hok : a.ok = true
  · rw [if_pos hok]
    exact ⟨fun _ => ⟨h.send, rfl, rfl⟩, fun hrc => (nomatch hrc)⟩
  · rw [if_neg hok]
    exact ⟨nofun, fun _ => ⟨rfl, Bool.eq_false_iff.mpr hok⟩⟩

theorem ackSendLoop {call proc srcReq dstReq sendOffset : ℕ} {nordma : Bool} (attempts : ℕ → Attempt)
    (h : Inv s [⟨call, proc, .ack (if nordma then nordmaFlag else 0) srcReq dstReq sendOffset⟩] taken)
    (btls : List (ℕ × ℕ)) :
    let u := s.ackSendLoop call proc srcReq dstReq sendOffset nordma attempts btls
    (u.1 = .success → Inv u.2 [] taken) ∧ (u.1 ≠ .success → ∀ b ∈ btls, (attempts b.2).ok = false) := by
  induction btls with
  | nil => exact ⟨nofun, fun _ b hb => (nomatch hb)⟩
  | cons b btls ih =>
    obtain ⟨btl, i⟩ := b
    rw [State.ackSendLoop]
    obtain ⟨hsuccess, hfail⟩ := h.ackSendBtl ⟨proc, btl⟩ (attempts i)
    dsimp only
    split_ifs with hok
    · exact ⟨fun _ => (hsuccess hok).1, fun hne => absurd hok hne⟩
    · refine ⟨ih.1, fun hne => forall_mem_cons.mpr ⟨?_, ih.2 hne⟩⟩
      refine (hfail ?_).2
      cases hrc : (s.ackSendBtl call ⟨proc, btl⟩ srcReq dstReq sendOffset nordma (attempts i)).1 with
      | success => exact absurd hrc hok
      | outOfResource => rfl

theorem ackSend {call proc srcReq dstReq sendOffset : ℕ} {nordma : Bool} {attempts : ℕ → Attempt}
    (h : Inv s [⟨call, proc, .ack (if nordma then nordmaFlag else 0) srcReq dstReq sendOffset⟩] taken)
    (hcareful : (∀ i < (z.btlEager proc).length, (attempts i).ok = false) →
      nordma = decide ((s.mem (s.alloc z).1).hdr.flags &&& nordmaFlag ≠ 0)) :
    Inv (s.ackSend z call proc srcReq dstReq sendOffset nordma attempts).2 [] taken := by
  obtain ⟨hsuccess, hfail⟩ := h.ackSendLoop attempts (z.btlEager proc).zipIdx
  rw [State.ackSend]
  split_ifs with hok
  · exact hsuccess hok
  · have hflag := hcareful fun i hi => by
      refine hfail hok ((z.btlEager proc)[i], i) ?_
      exact mem_zipIdx_iff_getElem?.mpr (getElem?_eq_getElem hi)
    refine h.save ?_ nofun
    have hbit (f : BitVec 8) : (if decide (f &&& nordmaFlag ≠ 0) = true then nordmaFlag else 0) =
        if f &&& nordmaFlag ≠ 0 then nordmaFlag else 0 := by
      simp only [decide_eq_true_eq]
    rw [hflag, hbit]
    rfl

theorem sendFin {call proc des status : ℕ} {bmlBtl : BmlBtl} (order : ℕ) (a : Attempt)
    (h : Inv s [⟨call, bmlBtl.proc, .fin 0 des status⟩] taken) (hproc : bmlBtl.proc = proc) :
    let u := s.sendFin z call proc bmlBtl des order status a
    Inv u.2 [] taken ∧ (u.1 = .outOfResource → a.ok = false) := by
  rw [State.sendFin]
  by_cases hok : a.ok = true
  · rw [if_pos hok]
    refine ⟨?_, fun hrc => (nomatch hrc)⟩
    by_cases hone : a = some 1
    · dsimp only
      rw [if_pos hone]
      exact h.send.progressPending _
    · dsimp only
      rw [if_neg hone]
      exact h.send
  · rw [if_neg hok]
    refine ⟨h.save ?_ fun b hb => ?_, fun _ => Bool.eq_false_iff.mpr hok⟩
    · rw [hproc]
      rfl
    · cases hb
      exact hproc

theorem sendDst_proc {p : Pending} (hp : ∀ b, p.bmlBtl = some b → b.proc = p.proc) {btl : ℕ} {dst : BmlBtl}
    (hdst : State.sendDst z p btl = some dst) : dst.proc = p.proc := by
  rw [State.sendDst.eq_def] at hdst
  split at hdst
  · rename_i b hb
    split_ifs at hdst
    · obtain rfl := Option.some.inj hdst
      exact hp b hb
    · cases hdst
      rfl
  · split_ifs at hdst
    cases hdst
    rfl

theorem turn {a : Attempt} (h : Inv s [] []) (hcareful : s.Careful z (.turn a)) : Inv (s.turn z a) [] [] := by
  rw [State.turn]
  split
  · exact h
  · rename_i btl left pckt frames hframes
    refine Inv.giveBack (h.reframe ?_)
    rw [State.hands, hframes, append_nil]
    exact perm_append_singleton _ _
  · rename_i btl frames hframes
    refine h.reframe ?_
    rw [State.hands, hframes]
    exact .rfl
  · rename_i btl left frames hframes
    have hhands : frames.filterMap Frame.pckt = s.hands := by
      rw [State.hands, hframes]
      rfl
    split
    · exact h.reframe (by rw [hhands])
    · rename_i pckt pending hpending
      have htake := h.take hpending
      have hdstpckt := h.dst pckt (hpending ▸ mem_cons_self)
      have hlast := hcareful btl left frames pckt pending hframes hpending
      have hback (frames' : List Frame) (hframes' : frames'.filterMap Frame.pckt = s.hands) :
          Inv { s with pending := pending ++ [pckt], frames := frames' } [] [] :=
        (htake.requeue hdstpckt).reframe (by rw [hframes']; exact .rfl)
      dsimp only
      split
      · exact hback _ (by rw [← hhands]; rfl)
      · rename_i dst hdst
        have hproc := sendDst_proc hdstpckt hdst
        split
        · rename_i flags srcReq dstReq sendOffset hhdr
          have hmsg : (s.mem pckt).resend = ⟨(s.mem pckt).call, dst.proc,
              .ack (if decide (flags &&& nordmaFlag ≠ 0) = true then nordmaFlag else 0) srcReq dstReq sendOffset⟩ := by
            simp [Pending.resend, hhdr, hproc]
          have hack := Inv.ackSendBtl dst a (hmsg ▸ htake)
          generalize ({ s with pending := pending } : State).ackSendBtl (s.mem pckt).call dst srcReq dstReq sendOffset
            (flags &&& nordmaFlag ≠ 0) a = out at hack ⊢
          obtain ⟨rc, u⟩ := out
          cases rc with
          | success =>
            obtain ⟨hsent, -, hsame⟩ := hack.1 rfl
            refine hsent.reframe ?_
            rw [State.hands, hsame, append_nil]
            show (pckt :: frames.filterMap Frame.pckt).Perm (s.hands ++ [pckt])
            rw [hhands]
            exact (perm_append_singleton _ _).symm
          | outOfResource =>
            rw [if_pos rfl, (hack.2 rfl).1]
            exact hback _ hhands
        · rename_i flags des fail hhdr
          have hmsg : (s.mem pckt).resend = ⟨(s.mem pckt).call, dst.proc, .fin 0 des fail⟩ := by
            simp [Pending.resend, hhdr, hproc]
          have hheld : Inv { s with pending := pending, frames := ⟨btl, left + 1, some pckt⟩ :: frames }
              [(s.mem pckt).resend] [] := by
            refine htake.reframe ?_
            rw [append_nil]
            show (pckt :: frames.filterMap Frame.pckt).Perm (s.hands ++ [pckt])
            rw [hhands]
            exact (perm_append_singleton _ _).symm
          have hfin := Inv.sendFin (z := z) (s.mem pckt).order a (hmsg ▸ hheld) hproc
          have hok : a.ok = true := hlast ⟨_, _, _, hhdr⟩ (by rw [hdst]; rfl)
          generalize ({ s with pending := pending, frames := ⟨btl, left + 1, some pckt⟩ :: frames } : State).sendFin z
            (s.mem pckt).call (s.mem pckt).proc dst des (s.mem pckt).order fail a = out at hfin ⊢
          obtain ⟨rc, u⟩ := out
          cases rc with
          | success => exact hfin.1
          | outOfResource =>
            have := hfin.2 rfl
            rw [hok] at this
            cases this

theorem step {e : Step} (h : Inv s [] []) (hcareful : s.Careful z e) : Inv (s.next z e) [] [] := by
  cases e with
  | ack proc srcReq dstReq sendOffset nordma attempts =>
    refine (h.post rfl).ackSend fun hfail => ?_
    have hitem (l : List Msg) : (({ s with posted := l } : State).alloc z).1 = (s.alloc z).1 := by
      rw [State.alloc, State.alloc]
      rcases s.free with - | ⟨item, free⟩ <;> rfl
    rw [hitem]
    exact hcareful hfail
  | fin bmlBtl des order status attempt => exact ((h.post rfl).sendFin order attempt rfl).1
  | progress btl => exact h.progressPending btl
  | turn attempt => exact h.turn hcareful

theorem init (h : Init s) : Inv s [] [] where
  conserved := by
    rw [State.waiting, h.sent, h.pending, h.posted]
    exact .rfl
  calls := by
    rw [h.posted]
    rfl
  places := by
    rw [State.hands, h.pending, h.free, h.frames]
    simp
  dst pckt hin := by
    rw [h.pending] at hin
    cases hin

theorem faithful (h : Inv s [] []) : Faithful s where
  conserved := by
    have hconserved := h.conserved
    rwa [append_nil] at hconserved
  calls := h.calls
  places := by
    have hplaces := h.places
    rwa [append_nil] at hplaces

end Inv

theorem faithful_of_careful (hs : ((system z).restrict (State.Careful z)).Reachable s) : Faithful s := by
  refine Inv.faithful (hs.invariant (P := fun s => Inv s [] []) (fun s h => Inv.init h) fun s e t h hstep => ?_)
  obtain ⟨hcareful, rfl⟩ := hstep
  exact h.step hcareful

def oneBtl : Config := ⟨fun _ => [0], 3⟩

def start : State := ⟨fun _ => ⟨0, .ack 0 0 0 0, none, 0, 0⟩, [], [], 0, [], [], []⟩

theorem init_start : Init start := ⟨rfl, rfl, rfl, rfl, rfl⟩

def deferred : State := start.next oneBtl (.fin ⟨1, 0⟩ 7 0 1 none)

theorem faithful_of_careful_fin : Faithful ((deferred.next oneBtl (.progress 0)).next oneBtl (.turn (some 0))) := by
  have hfin : ((system oneBtl).restrict (State.Careful oneBtl)).step start (.fin ⟨1, 0⟩ 7 0 1 none) deferred :=
    ⟨trivial, rfl⟩
  have hprogress : ((system oneBtl).restrict (State.Careful oneBtl)).step deferred (.progress 0)
      (deferred.next oneBtl (.progress 0)) := ⟨trivial, rfl⟩
  have hturn : ((system oneBtl).restrict (State.Careful oneBtl)).step (deferred.next oneBtl (.progress 0))
      (.turn (some 0)) ((deferred.next oneBtl (.progress 0)).next oneBtl (.turn (some 0))) :=
    ⟨fun _ _ _ _ _ _ _ _ _ => rfl, rfl⟩
  exact faithful_of_careful ⟨start, _, init_start, ((System.Run.single hfin).snoc hprogress).snoc hturn⟩

/-- An ACK that forbids RDMA is deferred, and will allow it. -/
theorem not_faithful_ack : ∃ z s, (system z).Reachable s ∧ ¬Faithful s := by
  refine ⟨oneBtl, _, ⟨start, [.ack 1 7 8 9 true fun _ => none], init_start, System.Run.single rfl⟩, fun h => ?_⟩
  exact absurd h.conserved (by decide)

end OpenMPI.Ob1.Pckt
