import OpenMPI.Proofs.Ob1.Match

/-!
# Early messages

With no receive posted, offering a fragment only makes it unexpected, so the callbacks and
`add_comm`'s own loop do the same (`recvFragCallback_eq_addFragment`).  Creating a communicator
therefore commutes with arrivals (`addComm_recvFrag`).
-/

namespace OpenMPI.Ob1

variable {ρ δ : Type*}

namespace Comm

def NoReceives (comm : Comm ρ δ) : Prop :=
  comm.wildReceives = [] ∧ ∀ p, (comm.procs p).specificReceives = []

theorem NoReceives.initSize (n : ℕ) : (Comm.initSize n : Comm ρ δ).NoReceives :=
  ⟨rfl, fun _ => rfl⟩

theorem NoReceives.setProc {comm : Comm ρ δ} (h : comm.NoReceives) (p : ℕ) (proc : CommProc ρ δ)
    (hproc : proc.specificReceives = []) : (comm.setProc p proc).NoReceives := by
  refine ⟨h.1, fun q => ?_⟩
  by_cases hq : q = p
  · subst hq
    simpa using hproc
  · simpa [hq] using h.2 q

theorem NoReceives.expectNext {comm : Comm ρ δ} (h : comm.NoReceives) (p : ℕ) :
    (comm.setProc p (comm.procs p).expectNext).NoReceives :=
  h.setProc p _ (h.2 p)

theorem NoReceives.appendUnexpected {comm : Comm ρ δ} (h : comm.NoReceives) (p : ℕ)
    (frag : RecvFrag δ) : (comm.appendUnexpected p frag).NoReceives :=
  h.setProc p _ (h.2 p)

theorem NoReceives.appendCantMatch {comm : Comm ρ δ} (h : comm.NoReceives) (p : ℕ)
    (frag : RecvFrag δ) : (comm.appendCantMatch p frag).NoReceives :=
  h.setProc p _ (h.2 p)

theorem NoReceives.matchOne_eq {comm : Comm ρ δ} (h : comm.NoReceives) (p : ℕ)
    (frag : RecvFrag δ) : matchOne comm p frag = (comm.appendUnexpected p frag, []) := by
  apply matchOne_of_none
  rw [h.1, h.2 p, matchIncomming]
  simp

end Comm

namespace Pml

theorem checkCantmatchForMatch_noReceives {comm : Comm ρ δ} (h : comm.NoReceives) {p : ℕ}
    {proc' : CommProc ρ δ} {frag : RecvFrag δ}
    (hc : checkCantmatchForMatch (comm.procs p) = some (frag, proc')) :
    (comm.setProc p proc').NoReceives := by
  rw [(checkCantmatchForMatch_eq_some hc).2]
  exact h.setProc p _ (h.2 p)

theorem addFragmentToUnexpected_noReceives {comm : Comm ρ δ} {p : ℕ} {frag : RecvFrag δ}
    (h : comm.NoReceives) : (addFragmentToUnexpected comm p frag).NoReceives := by
  fun_induction addFragmentToUnexpected comm p frag with
  | case1 comm frag comm' hc => exact (h.expectNext p).appendUnexpected p frag
  | case2 comm frag comm' frag' proc' hc ih =>
    exact ih (checkCantmatchForMatch_noReceives ((h.expectNext p).appendUnexpected p frag) hc)

theorem addFragment_noReceives {comm : Comm ρ δ} (h : comm.NoReceives) (frag : RecvFrag δ) :
    (addFragment comm frag).NoReceives := by
  simp only [addFragment]
  split_ifs
  · exact addFragmentToUnexpected_noReceives h
  · exact h.appendCantMatch _ frag

theorem outOfOrderMatch_eq_addFragmentToUnexpected {comm : Comm ρ δ} {p : ℕ} {frag : RecvFrag δ}
    (h : comm.NoReceives) :
    (outOfOrderMatch comm p frag).1 = addFragmentToUnexpected comm p frag := by
  fun_induction addFragmentToUnexpected comm p frag with
  | case1 comm frag comm' hc =>
    have hm := (h.expectNext p).matchOne_eq p frag
    rw [outOfOrderMatch_of_none (by rw [hm]; exact hc), hm]
  | case2 comm frag comm' frag' proc' hc ih =>
    have hm := (h.expectNext p).matchOne_eq p frag
    rw [outOfOrderMatch_of_some (by rw [hm]; exact hc), hm]
    exact ih (checkCantmatchForMatch_noReceives ((h.expectNext p).appendUnexpected p frag) hc)

theorem recvFragMatch_eq_addFragment {comm : Comm ρ δ} (h : comm.NoReceives)
    (frag : RecvFrag δ) : (recvFragMatch comm frag).1 = addFragment comm frag := by
  simp only [recvFragMatch, addFragment]
  split_ifs
  · exact outOfOrderMatch_eq_addFragmentToUnexpected h
  · rfl

theorem recvFragCallbackMatch_eq_addFragment {comm : Comm ρ δ} (h : comm.NoReceives)
    (frag : RecvFrag δ) : (recvFragCallbackMatch comm frag).1 = addFragment comm frag := by
  simp only [recvFragCallbackMatch]
  split_ifs with hs
  · exact recvFragMatch_eq_addFragment h frag
  · simp only [not_or, not_not, not_lt, Nat.le_zero_eq, List.length_eq_zero_iff] at hs
    rw [(h.expectNext _).matchOne_eq, addFragment, if_pos hs.1, addFragmentToUnexpected]
    split
    · rfl
    · rename_i hc
      have := checkCantmatchForMatch_length hc
      simp [CommProc.expectNext, hs.2] at this

theorem recvFragCallback_eq_addFragment {comm : Comm ρ δ} (h : comm.NoReceives)
    (frag : RecvFrag δ) : (recvFragCallback comm frag).1 = addFragment comm frag := by
  rw [recvFragCallback]
  split
  · exact recvFragCallbackMatch_eq_addFragment h frag
  · exact recvFragMatch_eq_addFragment h frag
  · exact recvFragMatch_eq_addFragment h frag

theorem grabPending_eq (ctx : ℕ) :
    ∀ (frags : List (RecvFrag δ)) {comm : Comm ρ δ}, comm.NoReceives →
      grabPending ctx comm frags = (arrivals comm (forContext ctx frags), forOthers ctx frags)
        ∧ (grabPending ctx comm frags).1.NoReceives
  | [], comm, h => ⟨rfl, h⟩
  | frag :: rest, comm, h => by
    by_cases hctx : frag.hdr.hdrCtx.toNat = ctx
    · have ih := grabPending_eq ctx rest (addFragment_noReceives h frag)
      rw [grabPending, if_neg (by simpa using hctx)]
      refine ⟨?_, ih.2⟩
      rw [ih.1, ← recvFragCallback_eq_addFragment h]
      simp [arrivals, forContext, forOthers, hctx]
    · have ih := grabPending_eq ctx rest h
      rw [grabPending, if_pos hctx]
      refine ⟨?_, ih.2⟩
      rw [ih.1]
      simp [arrivals, forContext, forOthers, hctx]

theorem addComm_eq (pml : Pml ρ δ) {ctx : ℕ} (h : ctx ≤ pml.pmlMaxContextid) (n : ℕ) :
    pml.addComm ctx n = some { pml with
      communicators := Function.update pml.communicators ctx
        (some (arrivals (.initSize n) (forContext ctx pml.nonExistingCommunicatorPending)))
      nonExistingCommunicatorPending := forOthers ctx pml.nonExistingCommunicatorPending } := by
  rw [addComm, if_neg (by omega)]
  simp only [(grabPending_eq ctx pml.nonExistingCommunicatorPending (.initSize n)).1]

theorem recvFrag_pmlMaxContextid (pml : Pml ρ δ) (frag : RecvFrag δ) :
    (pml.recvFrag frag).pmlMaxContextid = pml.pmlMaxContextid := by
  rw [recvFrag]
  split <;> rfl

theorem recvFrag_communicators_of_none {pml : Pml ρ δ} {ctx : ℕ}
    (h : pml.communicators ctx = none) (frag : RecvFrag δ) :
    (pml.recvFrag frag).communicators ctx = none := by
  rw [recvFrag]
  split
  · exact h
  · rename_i comm hcomm
    have hne : ctx ≠ frag.hdr.hdrCtx.toNat := by
      rintro rfl
      simp [h] at hcomm
    exact (Function.update_of_ne hne _ _).trans h

theorem addComm_recvFrag {pml : Pml ρ δ} {ctx : ℕ} (hmax : ctx ≤ pml.pmlMaxContextid)
    (hnew : pml.communicators ctx = none) (n : ℕ) (frag : RecvFrag δ) :
    (pml.recvFrag frag).addComm ctx n = (pml.addComm ctx n).map (·.recvFrag frag) := by
  rw [addComm_eq pml hmax, addComm_eq _ (by rwa [recvFrag_pmlMaxContextid]), Option.map_some,
    Option.some.injEq]
  by_cases hctx : frag.hdr.hdrCtx.toNat = ctx
  · have hnone : pml.communicators frag.hdr.hdrCtx.toNat = none := by rw [hctx, hnew]
    simp [recvFrag, hctx, hnew, forContext, forOthers, arrivals]
  · rcases hcomm : pml.communicators frag.hdr.hdrCtx.toNat with _ | comm
    · simp [recvFrag, hcomm, hctx, forContext, forOthers]
    · simp [recvFrag, hcomm, hctx, Function.update_comm (Ne.symm hctx)]

theorem addComm_recvFrags {ctx : ℕ} (n : ℕ) :
    ∀ (frags : List (RecvFrag δ)) (pml : Pml ρ δ), ctx ≤ pml.pmlMaxContextid →
      pml.communicators ctx = none →
      (pml.recvFrags frags).addComm ctx n = (pml.addComm ctx n).map (·.recvFrags frags)
  | [], pml, _, _ => by simp [recvFrags]
  | frag :: frags, pml, hmax, hnew => by
    have ih := addComm_recvFrags n frags (pml.recvFrag frag)
      (by rwa [recvFrag_pmlMaxContextid]) (recvFrag_communicators_of_none hnew frag)
    rw [addComm_recvFrag hmax hnew, Option.map_map] at ih
    exact ih

theorem recvFrags_early :
    ∀ (frags : List (RecvFrag δ)) (pml : Pml ρ δ),
      (∀ frag ∈ frags, pml.communicators frag.hdr.hdrCtx.toNat = none) →
      pml.recvFrags frags = { pml with
        nonExistingCommunicatorPending := pml.nonExistingCommunicatorPending ++ frags }
  | [], pml, _ => by simp [recvFrags]
  | frag :: frags, pml, h => by
    have hfrag : pml.recvFrag frag = { pml with
        nonExistingCommunicatorPending := pml.nonExistingCommunicatorPending ++ [frag] } := by
      simp [recvFrag, h frag List.mem_cons_self]
    have ih := recvFrags_early frags (pml.recvFrag frag) fun f hf => by
      rw [hfrag]
      exact h f (List.mem_cons_of_mem _ hf)
    rw [recvFrags, List.foldl_cons, ← recvFrags, ih, hfrag]
    simp

/-- Messages that came before their communicator was created leave it as if they had come after,
in the same order; the others stay pending in theirs. -/
theorem early_messages {pml : Pml ρ δ} {ctx : ℕ} (n : ℕ) {frags : List (RecvFrag δ)}
    (hmax : ctx ≤ pml.pmlMaxContextid) (hnew : pml.communicators ctx = none)
    (hearly : ∀ frag ∈ frags, pml.communicators frag.hdr.hdrCtx.toNat = none) :
    ∃ created, (pml.recvFrags frags).addComm ctx n = some created
      ∧ (pml.addComm ctx n).map (·.recvFrags frags) = some created
      ∧ created.communicators ctx = some (arrivals (.initSize n)
          (forContext ctx (pml.nonExistingCommunicatorPending ++ frags)))
      ∧ created.nonExistingCommunicatorPending
          = forOthers ctx (pml.nonExistingCommunicatorPending ++ frags)
      ∧ ∀ c, c ≠ ctx → created.communicators c = pml.communicators c := by
  have hcomm := addComm_recvFrags n frags pml hmax hnew
  have hpending := recvFrags_early frags pml hearly
  have hmax' : ctx ≤ (pml.recvFrags frags).pmlMaxContextid := by
    rw [hpending]
    exact hmax
  have hcreated := addComm_eq _ hmax' n
  refine ⟨_, hcreated, hcomm ▸ hcreated, ?_, ?_, fun c hc => ?_⟩
  · simp [hpending]
  · simp [hpending]
  · simp [hpending, hc]

def overtakenEarly : List (RecvFrag ℕ) :=
  [⟨⟨.hdrMatch, 4, 0, 7, 2⟩, 20⟩, ⟨⟨.hdrMatch, 9, 0, 7, 1⟩, 30⟩, ⟨⟨.hdrRndv, 4, 0, 7, 1⟩, 10⟩]

theorem early_messages_overtaken :
    ∃ created, (({} : Pml ℕ ℕ).recvFrags overtakenEarly).addComm 4 2 = some created
      ∧ created.nonExistingCommunicatorPending = [⟨⟨.hdrMatch, 9, 0, 7, 1⟩, 30⟩] := by
  have hmax : 4 ≤ ({} : Pml ℕ ℕ).pmlMaxContextid := by decide
  obtain ⟨created, h, -, -, hp, -⟩ :=
    early_messages 2 hmax rfl fun _ (_ : _ ∈ overtakenEarly) => rfl
  exact ⟨created, h, hp.trans (by decide)⟩

end Pml

end OpenMPI.Ob1
