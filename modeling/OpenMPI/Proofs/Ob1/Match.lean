import OpenMPI.Ob1.Net

/-!
# What one handler does

A handler run for peer `p` leaves every other peer alone, and neither loses nor copies a fragment:
those it matched and those left unexpected are, as a multiset, those unexpected before and those it
offered (`Handles`).  Which ones it offers, and what it holds back, is `Resequence.accept` on the
out-of-order list, whatever the posted receives are (`recvFragCallback_queues`).
-/

namespace OpenMPI.Ob1

open Lib List

variable {ρ δ : Type*}

@[simp] theorem searched_nil : searched ([] : List (Event ρ δ)) = [] := rfl

@[simp] theorem searched_append (l l' : List (Event ρ δ)) :
    searched (l ++ l') = searched l ++ searched l' := filterMap_append

@[simp] theorem searched_cons_searchPosted (frag : RecvFrag δ) (l : List (Event ρ δ)) :
    searched (.searchPosted frag :: l) = frag :: searched l := rfl

@[simp] theorem searched_cons_matched (req : RecvRequest ρ) (frag : RecvFrag δ)
    (l : List (Event ρ δ)) : searched (.matched req frag :: l) = searched l := rfl

@[simp] theorem searched_cons_probed (req : RecvRequest ρ) (frag : RecvFrag δ)
    (l : List (Event ρ δ)) : searched (.probed req frag :: l) = searched l := rfl

@[simp] theorem matchedFrags_nil : matchedFrags ([] : List (Event ρ δ)) = [] := rfl

@[simp] theorem matchedFrags_append (l l' : List (Event ρ δ)) :
    matchedFrags (l ++ l') = matchedFrags l ++ matchedFrags l' := by
  simp [matchedFrags, pairs]

@[simp] theorem matchedFrags_cons_searchPosted (frag : RecvFrag δ) (l : List (Event ρ δ)) :
    matchedFrags (.searchPosted frag :: l) = matchedFrags l := rfl

@[simp] theorem matchedFrags_cons_matched (req : RecvRequest ρ) (frag : RecvFrag δ)
    (l : List (Event ρ δ)) : matchedFrags (.matched req frag :: l) = frag :: matchedFrags l := rfl

@[simp] theorem matchedFrags_cons_probed (req : RecvRequest ρ) (frag : RecvFrag δ)
    (l : List (Event ρ δ)) : matchedFrags (.probed req frag :: l) = matchedFrags l := rfl

theorem matchOne_of_none {comm : Comm ρ δ} {p : ℕ} {frag : RecvFrag δ}
    (h : matchIncomming frag.hdr.hdrTag (comm.procs p).specificReceives comm.wildReceives = none) :
    matchOne comm p frag = (comm.appendUnexpected p frag, []) := by
  rw [matchOne]
  split
  · rfl
  · simp_all

theorem matchOne_of_probe {comm : Comm ρ δ} {p : ℕ} {frag : RecvFrag δ} {req : RecvRequest ρ}
    {specific wild : List (RecvRequest ρ)}
    (h : matchIncomming frag.hdr.hdrTag (comm.procs p).specificReceives comm.wildReceives
      = some (req, specific, wild)) (hp : req.reqType = .probe) :
    matchOne comm p frag = ((matchOne (comm.setReceives p specific wild) p frag).1,
      .probed req frag :: (matchOne (comm.setReceives p specific wild) p frag).2) := by
  rw [matchOne]
  split
  · simp_all
  · rename_i req' specific' wild' h'
    rw [h, Option.some.injEq, Prod.mk.injEq, Prod.mk.injEq] at h'
    obtain ⟨rfl, rfl, rfl⟩ := h'
    rw [if_pos hp]

theorem matchOne_of_recv {comm : Comm ρ δ} {p : ℕ} {frag : RecvFrag δ} {req : RecvRequest ρ}
    {specific wild : List (RecvRequest ρ)}
    (h : matchIncomming frag.hdr.hdrTag (comm.procs p).specificReceives comm.wildReceives
      = some (req, specific, wild)) (hp : req.reqType ≠ .probe) :
    matchOne comm p frag = (comm.setReceives p specific wild, [.matched req frag]) := by
  rw [matchOne]
  split
  · simp_all
  · rename_i req' specific' wild' h'
    rw [h, Option.some.injEq, Prod.mk.injEq, Prod.mk.injEq] at h'
    obtain ⟨rfl, rfl, rfl⟩ := h'
    rw [if_neg hp]

/-- What a handler run for `p` keeps: the other peers, the size of the communicator, and every
fragment of `p`. -/
structure Handles (p : ℕ) (comm comm' : Comm ρ δ) (log : List (Event ρ δ)) : Prop where
  numProcs : comm'.numProcs = comm.numProcs
  others : ∀ q, q ≠ p → comm'.procs q = comm.procs q
  conserves : matchedFrags log ++ (comm'.procs p).unexpectedFrags
    ~ (comm.procs p).unexpectedFrags ++ searched log

namespace Handles

variable {p : ℕ} {comm comm' comm'' : Comm ρ δ} {log log' : List (Event ρ δ)}

theorem trans (h : Handles p comm comm' log) (h' : Handles p comm' comm'' log') :
    Handles p comm comm'' (log ++ log') where
  numProcs := h'.numProcs.trans h.numProcs
  others q hq := (h'.others q hq).trans (h.others q hq)
  conserves := by
    simp only [matchedFrags_append, searched_append, append_assoc]
    refine (h'.conserves.append_left _).trans ?_
    rw [← append_assoc, ← append_assoc]
    exact h.conserves.append_right _

theorem setProc (comm : Comm ρ δ) (p : ℕ) (proc : CommProc ρ δ)
    (h : proc.unexpectedFrags = (comm.procs p).unexpectedFrags) :
    Handles p comm (comm.setProc p proc) [] :=
  ⟨rfl, fun q hq => by simp [hq], by simp [h]⟩

end Handles

theorem matchOne_handles (comm : Comm ρ δ) (p : ℕ) (frag : RecvFrag δ) :
    Handles p comm (matchOne comm p frag).1 (.searchPosted frag :: (matchOne comm p frag).2) := by
  fun_induction matchOne comm p frag with
  | case1 comm h => exact ⟨rfl, fun q hq => by simp [hq], by simp⟩
  | case2 comm req specific wild h hp r ih =>
    refine ⟨ih.numProcs, fun q hq => ?_, ?_⟩
    · rw [ih.others q hq]
      simp [hq]
    · simpa using ih.conserves
  | case3 comm req specific wild h hp =>
    refine ⟨rfl, fun q hq => by simp [hq], ?_⟩
    simpa using (perm_append_singleton frag _).symm

theorem searched_matchOne (comm : Comm ρ δ) (p : ℕ) (frag : RecvFrag δ) :
    searched (matchOne comm p frag).2 = [] := by
  fun_induction matchOne comm p frag with
  | case1 comm h => rfl
  | case2 comm req specific wild h hp r ih => simpa using ih
  | case3 comm req specific wild h hp => rfl

theorem matchOne_expectedSequence (comm : Comm ρ δ) (p : ℕ) (frag : RecvFrag δ) :
    ((matchOne comm p frag).1.procs p).expectedSequence = (comm.procs p).expectedSequence := by
  fun_induction matchOne comm p frag with
  | case1 comm h => simp
  | case2 comm req specific wild h hp r ih => simpa using ih
  | case3 comm req specific wild h hp => simp

def seqOf (frag : RecvFrag δ) : UInt16 := frag.hdr.hdrSeq

def CommProc.turns (proc : CommProc ρ δ) : UInt16 × List (RecvFrag δ) :=
  (proc.expectedSequence, proc.fragsCantMatch)

theorem matchOne_turns (comm : Comm ρ δ) (p : ℕ) (frag : RecvFrag δ) :
    ((matchOne comm p frag).1.procs p).turns = (comm.procs p).turns := by
  rw [CommProc.turns, matchOne_expectedSequence, matchOne_fragsCantMatch, CommProc.turns]

theorem outOfOrderMatch_of_none {comm : Comm ρ δ} {p : ℕ} {frag : RecvFrag δ}
    (h : checkCantmatchForMatch
      ((matchOne (comm.setProc p (comm.procs p).expectNext) p frag).1.procs p) = none) :
    outOfOrderMatch comm p frag =
      ((matchOne (comm.setProc p (comm.procs p).expectNext) p frag).1,
        .searchPosted frag :: (matchOne (comm.setProc p (comm.procs p).expectNext) p frag).2) := by
  rw [outOfOrderMatch]
  split
  · rfl
  · simp_all

theorem outOfOrderMatch_of_some {comm : Comm ρ δ} {p : ℕ} {frag frag' : RecvFrag δ}
    {proc' : CommProc ρ δ}
    (h : checkCantmatchForMatch
      ((matchOne (comm.setProc p (comm.procs p).expectNext) p frag).1.procs p)
        = some (frag', proc')) :
    outOfOrderMatch comm p frag =
      let r := matchOne (comm.setProc p (comm.procs p).expectNext) p frag
      let r' := outOfOrderMatch (r.1.setProc p proc') p frag'
      (r'.1, .searchPosted frag :: r.2 ++ r'.2) := by
  rw [outOfOrderMatch]
  split
  · simp_all
  · rename_i f proc'' h'
    rw [h, Option.some.injEq, Prod.mk.injEq] at h'
    obtain ⟨rfl, rfl⟩ := h'
    rfl

theorem checkCantmatchForMatch_eq_none {proc : CommProc ρ δ}
    (h : checkCantmatchForMatch proc = none) :
    proc.fragsCantMatch.find? (fun frag => decide (seqOf frag = proc.expectedSequence)) = none := by
  exact Option.map_eq_none_iff.mp h

theorem checkCantmatchForMatch_eq_some {proc proc' : CommProc ρ δ} {frag : RecvFrag δ}
    (h : checkCantmatchForMatch proc = some (frag, proc')) :
    proc.fragsCantMatch.find? (fun frag => decide (seqOf frag = proc.expectedSequence)) = some frag
      ∧ proc' = { proc with
        fragsCantMatch := proc.fragsCantMatch.eraseP fun frag =>
          decide (seqOf frag = proc.expectedSequence) } := by
  simp only [checkCantmatchForMatch, Option.map_eq_some_iff, Prod.mk.injEq] at h
  obtain ⟨f, hf, rfl, rfl⟩ := h
  exact ⟨hf, rfl⟩

abbrev release : UInt16 → List (RecvFrag δ) → List (RecvFrag δ) × UInt16 × List (RecvFrag δ) :=
  Resequence.release seqOf (· + 1)

abbrev accept : UInt16 → List (RecvFrag δ) → RecvFrag δ →
    List (RecvFrag δ) × UInt16 × List (RecvFrag δ) :=
  Resequence.accept seqOf (· + 1)

theorem accept_in_turn {e : UInt16} {frag : RecvFrag δ} (h : frag.hdr.hdrSeq = e)
    (held : List (RecvFrag δ)) :
    accept e held frag = (frag :: (release (e + 1) held).1, (release (e + 1) held).2) :=
  Resequence.accept_of_eq seqOf _ h held

theorem accept_ahead {e : UInt16} {frag : RecvFrag δ} (h : frag.hdr.hdrSeq ≠ e)
    (held : List (RecvFrag δ)) : accept e held frag = ([], e, held ++ [frag]) :=
  Resequence.accept_of_ne seqOf _ h held

theorem turns_matchOne_expectNext (comm : Comm ρ δ) (p : ℕ) (frag : RecvFrag δ) :
    ((matchOne (comm.setProc p (comm.procs p).expectNext) p frag).1.procs p).turns
      = ((comm.procs p).expectedSequence + 1, (comm.procs p).fragsCantMatch) := by
  rw [matchOne_turns]
  simp [CommProc.turns, CommProc.expectNext]

theorem handles_matchOne_expectNext (comm : Comm ρ δ) (p : ℕ) (frag : RecvFrag δ) :
    Handles p comm (matchOne (comm.setProc p (comm.procs p).expectNext) p frag).1
      (.searchPosted frag :: (matchOne (comm.setProc p (comm.procs p).expectNext) p frag).2) :=
  (Handles.setProc comm p (comm.procs p).expectNext rfl).trans (matchOne_handles _ p frag)

theorem outOfOrderMatch_spec (comm : Comm ρ δ) (p : ℕ) (frag : RecvFrag δ) :
    Handles p comm (outOfOrderMatch comm p frag).1 (outOfOrderMatch comm p frag).2
      ∧ (searched (outOfOrderMatch comm p frag).2,
          ((outOfOrderMatch comm p frag).1.procs p).turns)
        = (frag :: (release ((comm.procs p).expectedSequence + 1)
              (comm.procs p).fragsCantMatch).1,
            (release ((comm.procs p).expectedSequence + 1) (comm.procs p).fragsCantMatch).2) := by
  fun_induction outOfOrderMatch comm p frag with
  | case1 comm frag r h =>
    have hturns := turns_matchOne_expectNext comm p frag
    have hnone := checkCantmatchForMatch_eq_none h
    simp only [CommProc.turns, Prod.mk.injEq] at hturns
    rw [hturns.1, hturns.2] at hnone
    refine ⟨handles_matchOne_expectNext comm p frag, ?_⟩
    rw [release, Resequence.release_of_find?_eq_none _ _ hnone]
    simp [r, CommProc.turns, hturns, searched_matchOne]
  | case2 comm frag r frag' proc' h r' ih =>
    have hturns := turns_matchOne_expectNext comm p frag
    obtain ⟨hsome, rfl⟩ := checkCantmatchForMatch_eq_some h
    simp only [CommProc.turns, Prod.mk.injEq] at hturns
    rw [hturns.1, hturns.2] at hsome
    have hnext := (Handles.setProc r.1 p _ (by rfl)).trans ih.1
    refine ⟨(handles_matchOne_expectNext comm p frag).trans hnext, ?_⟩
    have hrest := ih.2
    simp only [Comm.setProc_procs, Function.update_self, r, hturns] at hrest
    rw [release, Resequence.release_of_find?_eq_some _ _ hsome]
    simp only [Prod.mk.injEq] at hrest
    simp [searched_matchOne, hrest, r', r, hturns]

/-- A handler that offers fragments of `p` and holds others back, as the in-order machinery says on
the arrival of `frag`. -/
structure Delivers (p : ℕ) (frag : RecvFrag δ) (comm comm' : Comm ρ δ) (log : List (Event ρ δ)) :
    Prop extends Handles p comm comm' log where
  searched : searched log =
    (accept (comm.procs p).expectedSequence (comm.procs p).fragsCantMatch frag).1
  turns : (comm'.procs p).turns =
    (accept (comm.procs p).expectedSequence (comm.procs p).fragsCantMatch frag).2

theorem recvFragMatch_delivers (comm : Comm ρ δ) (frag : RecvFrag δ) :
    Delivers frag.hdr.hdrSrc frag comm (recvFragMatch comm frag).1 (recvFragMatch comm frag).2 := by
  simp only [recvFragMatch]
  split_ifs with h
  · obtain ⟨hh, hq⟩ := outOfOrderMatch_spec comm frag.hdr.hdrSrc frag
    rw [Prod.mk.injEq] at hq
    refine ⟨hh, ?_, ?_⟩
    · rw [accept_in_turn h, hq.1]
    · rw [accept_in_turn h, hq.2]
  · refine ⟨Handles.setProc comm _ _ (by rfl), ?_, ?_⟩
    · rw [accept_ahead h, searched_nil]
    · rw [accept_ahead h]
      simp [CommProc.turns]

theorem recvFragCallbackMatch_delivers (comm : Comm ρ δ) (frag : RecvFrag δ) :
    Delivers frag.hdr.hdrSrc frag comm (recvFragCallbackMatch comm frag).1
      (recvFragCallbackMatch comm frag).2 := by
  simp only [recvFragCallbackMatch]
  split_ifs with h
  · exact recvFragMatch_delivers comm frag
  · simp only [not_or, not_not, not_lt, Nat.le_zero_eq, length_eq_zero_iff] at h
    have hnil : release ((comm.procs frag.hdr.hdrSrc).expectedSequence + 1)
        (comm.procs frag.hdr.hdrSrc).fragsCantMatch
          = ([], (comm.procs frag.hdr.hdrSrc).expectedSequence + 1, []) := by
      rw [h.2, release, Resequence.release_of_find?_eq_none]
      rfl
    refine ⟨handles_matchOne_expectNext comm _ frag, ?_, ?_⟩
    · rw [accept_in_turn h.1, hnil]
      simp [searched_matchOne]
    · rw [accept_in_turn h.1, hnil, turns_matchOne_expectNext, h.2]

theorem recvFragCallback_delivers (comm : Comm ρ δ) (frag : RecvFrag δ) :
    Delivers frag.hdr.hdrSrc frag comm (recvFragCallback comm frag).1
      (recvFragCallback comm frag).2 := by
  rw [recvFragCallback]
  split
  · exact recvFragCallbackMatch_delivers comm frag
  · exact recvFragMatch_delivers comm frag
  · exact recvFragMatch_delivers comm frag

theorem perm_eraseP_of_find? {α : Type*} {P : α → Bool} {l : List α} {a : α}
    (h : l.find? P = some a) : l ~ a :: l.eraseP P := by
  obtain ⟨b, l₁, l₂, hl₁, hb, hl, herase⟩ :=
    exists_of_eraseP (mem_of_find?_eq_some h) (find?_some h)
  rw [herase, hl]
  rw [hl, find?_append, find?_eq_none.mpr hl₁] at h
  simp only [Option.none_or, find?_cons, hb, Option.some.injEq] at h
  subst h
  exact perm_middle

theorem recvReqMatchSpecificProc_eq_some {reqTag : ℤ} {proc : CommProc ρ δ} {frag : RecvFrag δ}
    (h : recvReqMatchSpecificProc reqTag proc = some frag) :
    proc.unexpectedFrags ~ frag :: proc.unexpectedFrags.eraseP
      fun frag => unexpectedTagMatches reqTag frag.hdr.hdrTag :=
  perm_eraseP_of_find? h

theorem recvReqMatchWild_eq_some {reqTag : ℤ} {comm : Comm ρ δ} {i : ℕ} {frag : RecvFrag δ}
    (h : recvReqMatchWild reqTag comm = some (i, frag)) :
    recvReqMatchSpecificProc reqTag (comm.procs i) = some frag := by
  obtain ⟨j, -, hj⟩ := exists_of_findSome?_eq_some h
  simp only [Option.map_eq_some_iff, Prod.mk.injEq] at hj
  obtain ⟨f, hf, rfl, rfl⟩ := hj
  exact hf

theorem recvReqMatch_eq_some {req : RecvRequest ρ} {comm : Comm ρ δ} {i : ℕ} {frag : RecvFrag δ}
    (h : recvReqMatch req comm = some (i, frag)) :
    recvReqMatchSpecificProc req.reqTag (comm.procs i) = some frag := by
  rw [recvReqMatch] at h
  split_ifs at h
  · exact recvReqMatchWild_eq_some h
  · simp only [Option.map_eq_some_iff, Prod.mk.injEq] at h
    obtain ⟨f, hf, rfl, rfl⟩ := h
    exact hf

theorem recvReqStart_handles (comm : Comm ρ δ) (req : RecvRequest ρ) :
    ∃ p, Handles p comm (recvReqStart comm req).1 (recvReqStart comm req).2
      ∧ searched (recvReqStart comm req).2 = []
      ∧ ∀ q, ((recvReqStart comm req).1.procs q).turns = (comm.procs q).turns := by
  rw [recvReqStart]
  split
  · refine ⟨(recvReqSequenced req comm).reqPeer.toNat, ?_, rfl, fun q => ?_⟩
    · rw [appendRecvReqToQueue]
      split_ifs
      · exact ⟨rfl, fun q _ => rfl, by simp⟩
      · exact ⟨rfl, fun q _ => rfl, by simp⟩
      · exact ⟨rfl, fun q hq => by simp [hq], by simp⟩
    · rw [appendRecvReqToQueue]
      split_ifs
      · rfl
      · rfl
      · by_cases hq : q = (recvReqSequenced req comm).reqPeer.toNat
        · subst hq
          simp [CommProc.turns]
        · simp [hq]
  · rename_i p frag h
    have hperm := recvReqMatchSpecificProc_eq_some (recvReqMatch_eq_some h)
    split_ifs
    · exact ⟨p, ⟨rfl, fun q _ => rfl, by simp⟩, rfl, fun q => rfl⟩
    · refine ⟨p, ⟨rfl, fun q hq => by simp [removeUnexpected, hq], ?_⟩, rfl, fun q => ?_⟩
      · simpa [removeUnexpected] using hperm.symm
      · by_cases hq : q = p
        · subst hq
          simp [removeUnexpected, CommProc.turns]
        · simp [removeUnexpected, hq]

end OpenMPI.Ob1
