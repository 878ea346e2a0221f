import OpenMPI.Lib.Resequence

/-!
# Matching in the ob1 PML

The receive side of one communicator: the posted receives of each peer and the wildcard ones, the
fragments that found no receive, and those that came ahead of their turn.  A handler runs under the
communicator's matching lock, so each is one function from the state to the state and what it
reports: a fragment offered to the posted receives, a pair made, a probe answered.

The payload of a fragment and the rest of a request are parameters: matching reads neither.
-/

namespace OpenMPI.Ob1

inductive HdrType
  | hdrMatch
  | hdrRndv
  | hdrRget
  deriving DecidableEq, Repr

/-- `mca_pml_ob1_match_hdr_t`, which every matched fragment starts with. -/
structure MatchHdr where
  hdrType : HdrType
  hdrCtx : UInt16
  hdrSrc : ℕ
  hdrTag : ℤ
  hdrSeq : UInt16
  deriving DecidableEq, Repr

structure RecvFrag (δ : Type*) where
  hdr : MatchHdr
  segments : δ
  deriving DecidableEq, Repr

inductive RequestType
  | recv
  | iprobe
  | probe
  deriving DecidableEq, Repr

def anySource : ℤ := -1

def anyTag : ℤ := -1

/-- `req_sequence` is the 64-bit `mca_pml_sequence_t`. -/
structure RecvRequest (ρ : Type*) where
  reqType : RequestType
  reqPeer : ℤ
  reqTag : ℤ
  reqSequence : UInt64
  user : ρ
  deriving DecidableEq, Repr

def RecvRequest.isProbReq {ρ : Type*} (req : RecvRequest ρ) : Bool :=
  req.reqType = .iprobe || req.reqType = .probe

/-- `mca_pml_ob1_comm_proc_t`, the state kept for one peer.  The `int32_t` send counter is kept as
its 32 bits. -/
structure CommProc (ρ δ : Type*) where
  expectedSequence : UInt16 := 1
  sendSequence : UInt32 := 0
  fragsCantMatch : List (RecvFrag δ) := []
  specificReceives : List (RecvRequest ρ) := []
  unexpectedFrags : List (RecvFrag δ) := []

/-- `mca_pml_ob1_comm_t`; `procs` is read below `numProcs` only. -/
structure Comm (ρ δ : Type*) where
  recvSequence : UInt32 := 0
  wildReceives : List (RecvRequest ρ) := []
  procs : ℕ → CommProc ρ δ := fun _ => {}
  numProcs : ℕ := 0

inductive Event (ρ δ : Type*)
  | searchPosted (frag : RecvFrag δ)
  | matched (req : RecvRequest ρ) (frag : RecvFrag δ)
  | probed (req : RecvRequest ρ) (frag : RecvFrag δ)
  deriving DecidableEq, Repr

variable {ρ δ : Type*}

def CommProc.expectNext (proc : CommProc ρ δ) : CommProc ρ δ :=
  { proc with expectedSequence := proc.expectedSequence + 1 }

namespace Comm

def initSize (n : ℕ) : Comm ρ δ := { numProcs := n }

def setProc (comm : Comm ρ δ) (p : ℕ) (proc : CommProc ρ δ) : Comm ρ δ :=
  { comm with procs := Function.update comm.procs p proc }

/-- What is left of the two queues a search of `p`'s posted receives walked. -/
def setReceives (comm : Comm ρ δ) (p : ℕ) (specific wild : List (RecvRequest ρ)) : Comm ρ δ :=
  { comm with
    wildReceives := wild
    procs := Function.update comm.procs p
      { comm.procs p with specificReceives := specific } }

def appendUnexpected (comm : Comm ρ δ) (p : ℕ) (frag : RecvFrag δ) : Comm ρ δ :=
  comm.setProc p { comm.procs p with
    unexpectedFrags := (comm.procs p).unexpectedFrags ++ [frag] }

def appendCantMatch (comm : Comm ρ δ) (p : ℕ) (frag : RecvFrag δ) : Comm ρ δ :=
  comm.setProc p { comm.procs p with
    fragsCantMatch := (comm.procs p).fragsCantMatch ++ [frag] }

@[simp] theorem setProc_procs (comm : Comm ρ δ) (p : ℕ) (proc : CommProc ρ δ) :
    (comm.setProc p proc).procs = Function.update comm.procs p proc := rfl

@[simp] theorem setProc_wildReceives (comm : Comm ρ δ) (p : ℕ) (proc : CommProc ρ δ) :
    (comm.setProc p proc).wildReceives = comm.wildReceives := rfl

@[simp] theorem setReceives_procs (comm : Comm ρ δ) (p : ℕ) (specific wild : List (RecvRequest ρ)) :
    (comm.setReceives p specific wild).procs = Function.update comm.procs p
      { comm.procs p with specificReceives := specific } := rfl

@[simp] theorem setReceives_wildReceives (comm : Comm ρ δ) (p : ℕ)
    (specific wild : List (RecvRequest ρ)) :
    (comm.setReceives p specific wild).wildReceives = wild := rfl

@[simp] theorem appendUnexpected_procs (comm : Comm ρ δ) (p : ℕ) (frag : RecvFrag δ) :
    (comm.appendUnexpected p frag).procs = Function.update comm.procs p { comm.procs p with
      unexpectedFrags := (comm.procs p).unexpectedFrags ++ [frag] } := rfl

@[simp] theorem appendCantMatch_procs (comm : Comm ρ δ) (p : ℕ) (frag : RecvFrag δ) :
    (comm.appendCantMatch p frag).procs = Function.update comm.procs p { comm.procs p with
      fragsCantMatch := (comm.procs p).fragsCantMatch ++ [frag] } := rfl

end Comm

def pmlMaxSeq : UInt64 := 0xFFFFFFFFFFFFFFFF

def headSequence : List (RecvRequest ρ) → UInt64
  | [] => pmlMaxSeq
  | req :: _ => req.reqSequence

/-- The test of `match_incomming`, for a receive against an arrived tag. -/
def postedTagMatches (reqTag tag : ℤ) : Bool :=
  reqTag = tag || (reqTag = anyTag && 0 ≤ tag)

/-- The two queues are walked together, the lower sequence number first.  The request found comes
back with what is left of each queue. -/
def matchIncomming (tag : ℤ) (specific wild : List (RecvRequest ρ)) :
    Option (RecvRequest ρ × List (RecvRequest ρ) × List (RecvRequest ρ)) :=
  if headSequence wild = headSequence specific then
    none
  else if headSequence wild < headSequence specific then
    match wild with
    | [] => none
    | req :: wild' =>
      if postedTagMatches req.reqTag tag then
        some (req, specific, wild')
      else
        (matchIncomming tag specific wild').map fun (m, s, w) => (m, s, req :: w)
  else
    match specific with
    | [] => none
    | req :: specific' =>
      if postedTagMatches req.reqTag tag then
        some (req, specific', wild)
      else
        (matchIncomming tag specific' wild).map fun (m, s, w) => (m, req :: s, w)
termination_by specific.length + wild.length

theorem matchIncomming_length {tag : ℤ} {specific wild s w : List (RecvRequest ρ)}
    {m : RecvRequest ρ} (h : matchIncomming tag specific wild = some (m, s, w)) :
    s.length + w.length < specific.length + wild.length := by
  fun_induction matchIncomming tag specific wild generalizing m s w <;>
    simp_all only [reduceCtorEq, Option.some.injEq, Prod.mk.injEq, Option.map_eq_some_iff,
      Prod.exists, List.length_cons]
  · obtain ⟨-, rfl, rfl⟩ := h
    omega
  · rename_i ih
    obtain ⟨m', s', w', h', -, rfl, rfl⟩ := h
    have := ih h'
    simp only [List.length_cons]
    omega
  · obtain ⟨-, rfl, rfl⟩ := h
    omega
  · rename_i ih
    obtain ⟨m', s', w', h', -, rfl, rfl⟩ := h
    have := ih h'
    simp only [List.length_cons]
    omega

/-- A probe found by the search is completed and the search goes on for a receive; without one the
fragment becomes unexpected. -/
def matchOne (comm : Comm ρ δ) (p : ℕ) (frag : RecvFrag δ) : Comm ρ δ × List (Event ρ δ) :=
  match _h : matchIncomming frag.hdr.hdrTag (comm.procs p).specificReceives comm.wildReceives with
  | none => (comm.appendUnexpected p frag, [])
  | some (req, specific, wild) =>
    if req.reqType = .probe then
      let r := matchOne (comm.setReceives p specific wild) p frag
      (r.1, .probed req frag :: r.2)
    else
      (comm.setReceives p specific wild, [.matched req frag])
termination_by (comm.procs p).specificReceives.length + comm.wildReceives.length
decreasing_by
  simpa using matchIncomming_length _h

/-- The first fragment whose turn has come, taken off the out-of-order list. -/
def checkCantmatchForMatch (proc : CommProc ρ δ) : Option (RecvFrag δ × CommProc ρ δ) :=
  let isNext := fun frag : RecvFrag δ => decide (frag.hdr.hdrSeq = proc.expectedSequence)
  (proc.fragsCantMatch.find? isNext).map fun frag =>
    (frag, { proc with fragsCantMatch := proc.fragsCantMatch.eraseP isNext })

theorem checkCantmatchForMatch_length {proc proc' : CommProc ρ δ} {frag : RecvFrag δ}
    (h : checkCantmatchForMatch proc = some (frag, proc')) :
    proc'.fragsCantMatch.length < proc.fragsCantMatch.length := by
  simp only [checkCantmatchForMatch, Option.map_eq_some_iff, Prod.mk.injEq] at h
  obtain ⟨f, hf, -, rfl⟩ := h
  exact Lib.Resequence.length_eraseP_lt_of_find? hf

theorem matchOne_fragsCantMatch (comm : Comm ρ δ) (p : ℕ) (frag : RecvFrag δ) :
    ((matchOne comm p frag).1.procs p).fragsCantMatch = (comm.procs p).fragsCantMatch := by
  fun_induction matchOne comm p frag with
  | case1 comm h => simp
  | case2 comm req specific wild h hp r ih => simpa using ih
  | case3 comm req specific wild h hp => simp

/-- The loop at `out_of_order_match`: the fragment is offered to the posted receives, then the
out-of-order list is searched for the next one. -/
def outOfOrderMatch (comm : Comm ρ δ) (p : ℕ) (frag : RecvFrag δ) :
    Comm ρ δ × List (Event ρ δ) :=
  let r := matchOne (comm.setProc p (comm.procs p).expectNext) p frag
  match _h : checkCantmatchForMatch (r.1.procs p) with
  | none => (r.1, .searchPosted frag :: r.2)
  | some (frag', proc') =>
    let r' := outOfOrderMatch (r.1.setProc p proc') p frag'
    (r'.1, .searchPosted frag :: r.2 ++ r'.2)
termination_by (comm.procs p).fragsCantMatch.length
decreasing_by
  have := checkCantmatchForMatch_length _h
  simp only [r, matchOne_fragsCantMatch] at this
  simpa [CommProc.expectNext] using this

def recvFragMatch (comm : Comm ρ δ) (frag : RecvFrag δ) : Comm ρ δ × List (Event ρ δ) :=
  let p := frag.hdr.hdrSrc
  if frag.hdr.hdrSeq = (comm.procs p).expectedSequence then
    outOfOrderMatch comm p frag
  else
    (comm.appendCantMatch p frag, [])

/-- The fast path takes a fragment in sequence while nothing waits out of order; it leaves the
out-of-order list alone. -/
def recvFragCallbackMatch (comm : Comm ρ δ) (frag : RecvFrag δ) : Comm ρ δ × List (Event ρ δ) :=
  let p := frag.hdr.hdrSrc
  if frag.hdr.hdrSeq ≠ (comm.procs p).expectedSequence ∨ 0 < (comm.procs p).fragsCantMatch.length
  then
    recvFragMatch comm frag
  else
    let r := matchOne (comm.setProc p (comm.procs p).expectNext) p frag
    (r.1, .searchPosted frag :: r.2)

/-- The callback registered for the fragment's header type. -/
def recvFragCallback (comm : Comm ρ δ) (frag : RecvFrag δ) : Comm ρ δ × List (Event ρ δ) :=
  match frag.hdr.hdrType with
  | .hdrMatch => recvFragCallbackMatch comm frag
  | .hdrRndv => recvFragMatch comm frag
  | .hdrRget => recvFragMatch comm frag

/-- The test of `recv_req_match_specific_proc`, for an unexpected tag against a receive. -/
def unexpectedTagMatches (reqTag tag : ℤ) : Bool :=
  if reqTag = anyTag then 0 ≤ tag else tag = reqTag

def recvReqMatchSpecificProc (reqTag : ℤ) (proc : CommProc ρ δ) : Option (RecvFrag δ) :=
  proc.unexpectedFrags.find? fun frag => unexpectedTagMatches reqTag frag.hdr.hdrTag

def recvReqMatchWild (reqTag : ℤ) (comm : Comm ρ δ) : Option (ℕ × RecvFrag δ) :=
  (List.range comm.numProcs).findSome? fun i =>
    (recvReqMatchSpecificProc reqTag (comm.procs i)).map fun frag => (i, frag)

/-- The proc and fragment an unexpected search finds. -/
def recvReqMatch (req : RecvRequest ρ) (comm : Comm ρ δ) : Option (ℕ × RecvFrag δ) :=
  if req.reqPeer = anySource then
    recvReqMatchWild req.reqTag comm
  else
    (recvReqMatchSpecificProc req.reqTag (comm.procs req.reqPeer.toNat)).map fun frag =>
      (req.reqPeer.toNat, frag)

/-- An `MPI_Iprobe` is never queued. -/
def appendRecvReqToQueue (req : RecvRequest ρ) (comm : Comm ρ δ) : Comm ρ δ :=
  if req.reqType = .iprobe then
    comm
  else if req.reqPeer = anySource then
    { comm with wildReceives := comm.wildReceives ++ [req] }
  else
    let p := req.reqPeer.toNat
    comm.setProc p { comm.procs p with
      specificReceives := (comm.procs p).specificReceives ++ [req] }

def removeUnexpected (reqTag : ℤ) (p : ℕ) (comm : Comm ρ δ) : Comm ρ δ :=
  comm.setProc p { comm.procs p with
    unexpectedFrags := (comm.procs p).unexpectedFrags.eraseP fun frag =>
      unexpectedTagMatches reqTag frag.hdr.hdrTag }

/-- `MCA_PML_BASE_RECV_START` and `recv_sequence++` -/
def recvReqSequenced (req : RecvRequest ρ) (comm : Comm ρ δ) : RecvRequest ρ :=
  { req with reqSequence := comm.recvSequence.toUInt64 }

def recvReqStart (comm : Comm ρ δ) (req₀ : RecvRequest ρ) : Comm ρ δ × List (Event ρ δ) :=
  let req := recvReqSequenced req₀ comm
  let comm' := { comm with recvSequence := comm.recvSequence + 1 }
  match recvReqMatch req comm' with
  | none => (appendRecvReqToQueue req comm', [])
  | some (p, frag) =>
    if req.isProbReq then
      (comm', [.probed req frag])
    else
      (removeUnexpected req.reqTag p comm', [.matched req frag])

end OpenMPI.Ob1
