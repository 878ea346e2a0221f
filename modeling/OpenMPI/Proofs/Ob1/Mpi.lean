import Mathlib.Data.List.Find
import Mathlib.Data.List.TakeWhile
import OpenMPI.Ob1.Mpi
import OpenMPI.Proofs.Ob1.Match

/-!
# The ob1 queues refine MPI matching

The receives posted and still pending form one list in the order of their sequence numbers; each
peer's queue is the part of it for that peer and the wildcard queue the part for any source.
Walking the two queues by sequence number is walking that list (`matchIncomming_filter`).
-/

namespace OpenMPI.Mpi

open Ob1 List

variable {ρ μ : Type*}

namespace State

variable {s : State ρ μ} {m : Message μ}

theorem arrive_of_forall (h : ∀ r ∈ s.pending, r.accepts m = false) :
    s.arrive m = ({ s with
      unexpected := Function.update s.unexpected m.source (s.unexpected m.source ++ [m]) }, []) := by
  have ht : ∀ r ∈ s.pending, (!r.takes m) = true := fun r hr => by simp [Receive.takes, h r hr]
  have htake : s.pending.takeWhile (fun r => !r.takes m) = s.pending :=
    takeWhile_eq_self_iff.mpr ht
  have hdrop : s.pending.dropWhile (fun r => !r.takes m) = [] :=
    dropWhile_eq_nil_iff.mpr ht
  have hf : s.pending.filter (fun r => r.accepts m) = [] :=
    filter_eq_nil_iff.mpr fun r hr => by simp [h r hr]
  have hf' : s.pending.filter (fun r => !r.accepts m) = s.pending :=
    filter_eq_self.mpr fun r hr => by simp [h r hr]
  simp [arrive, htake, hdrop, hf, hf']

theorem arrive_of_recv {before after : List (Receive ρ)} {r : Receive ρ}
    (hp : s.pending = before ++ r :: after) (hb : ∀ q ∈ before, q.accepts m = false)
    (hr : r.accepts m = true) (hk : r.kind ≠ .probe) :
    s.arrive m = ({ s with pending := before ++ after }, [.paired r m]) := by
  have ht : ∀ q ∈ before, (!q.takes m) = true := fun q hq => by simp [Receive.takes, hb q hq]
  have htk : (!r.takes m) = false := by simp [Receive.takes, hr, hk]
  have htake : s.pending.takeWhile (fun r => !r.takes m) = before := by
    rw [hp, takeWhile_append_of_pos ht, takeWhile_cons_of_neg (by simp [htk]),
      append_nil]
  have hdrop : s.pending.dropWhile (fun r => !r.takes m) = r :: after := by
    rw [hp, dropWhile_append_of_pos ht, dropWhile_cons_of_neg (by simp [htk])]
  have hf : before.filter (fun r => r.accepts m) = [] :=
    filter_eq_nil_iff.mpr fun r hr => by simp [hb r hr]
  have hf' : before.filter (fun r => !r.accepts m) = before :=
    filter_eq_self.mpr fun r hr => by simp [hb r hr]
  simp [arrive, htake, hdrop, hf, hf']

theorem arrive_of_probe {before after : List (Receive ρ)} {r : Receive ρ}
    (hp : s.pending = before ++ r :: after) (hb : ∀ q ∈ before, q.accepts m = false)
    (hr : r.accepts m = true) (hk : r.kind = .probe) :
    s.arrive m = ((({ s with pending := before ++ after } : State ρ μ).arrive m).1,
      .probed r m :: (({ s with pending := before ++ after } : State ρ μ).arrive m).2) := by
  have ht : ∀ q ∈ before, (!q.takes m) = true := fun q hq => by simp [Receive.takes, hb q hq]
  have htk : r.takes m = false := by simp [Receive.takes, hk]
  have hf : before.filter (fun r => r.accepts m) = [] :=
    filter_eq_nil_iff.mpr fun r hr => by simp [hb r hr]
  have hf' : before.filter (fun r => !r.accepts m) = before :=
    filter_eq_self.mpr fun r hr => by simp [hb r hr]
  simp only [arrive, hp, takeWhile_append_of_pos ht, dropWhile_append_of_pos ht,
    takeWhile_cons, dropWhile_cons, htk, Bool.not_false, if_true, filter_append,
    hf, hf', filter_cons, hr, Bool.not_true, Bool.false_eq_true, if_false, nil_append]
  split <;> simp

end State

end OpenMPI.Mpi

namespace OpenMPI.Ob1

open Lib List

variable {ρ δ : Type*}

def specificOf (p : ℕ) (queue : List (RecvRequest ρ)) : List (RecvRequest ρ) :=
  queue.filter fun req => req.reqPeer = p

def wildOf (queue : List (RecvRequest ρ)) : List (RecvRequest ρ) :=
  queue.filter fun req => req.reqPeer = anySource

/-- In the order of the sequence numbers, none of which is the one for an empty queue. -/
structure Ordered (queue : List (RecvRequest ρ)) : Prop where
  sorted : queue.Pairwise fun a b => a.reqSequence < b.reqSequence
  lt_max : ∀ req ∈ queue, req.reqSequence < pmlMaxSeq

def eligible (p : ℕ) (tag : ℤ) (req : RecvRequest ρ) : Prop :=
  (req.reqPeer = p ∨ req.reqPeer = anySource) ∧ postedTagMatches req.reqTag tag = true

theorem Ordered.tail {req : RecvRequest ρ} {queue : List (RecvRequest ρ)}
    (h : Ordered (req :: queue)) : Ordered queue :=
  ⟨(pairwise_cons.mp h.sorted).2, fun r hr => h.lt_max r (mem_cons_of_mem _ hr)⟩

theorem Ordered.lt_headSequence {req : RecvRequest ρ} {queue : List (RecvRequest ρ)}
    (h : Ordered (req :: queue)) (P : RecvRequest ρ → Bool) :
    req.reqSequence < headSequence (queue.filter P) := by
  rcases hq : queue.filter P with _ | ⟨r, rest⟩
  · exact h.lt_max req mem_cons_self
  · have hr : r ∈ queue.filter P := hq ▸ mem_cons_self
    exact (pairwise_cons.mp h.sorted).1 r (mem_filter.mp hr).1

theorem Ordered.lt_specific {req : RecvRequest ρ} {queue : List (RecvRequest ρ)}
    (h : Ordered (req :: queue)) (p : ℕ) : req.reqSequence < headSequence (specificOf p queue) :=
  h.lt_headSequence _

theorem Ordered.lt_wild {req : RecvRequest ρ} {queue : List (RecvRequest ρ)}
    (h : Ordered (req :: queue)) : req.reqSequence < headSequence (wildOf queue) :=
  h.lt_headSequence _

theorem matchIncomming_cons_wild {tag : ℤ} {req : RecvRequest ρ}
    {specific wild : List (RecvRequest ρ)} (h : req.reqSequence < headSequence specific) :
    matchIncomming tag specific (req :: wild) =
      if postedTagMatches req.reqTag tag then some (req, specific, wild)
      else (matchIncomming tag specific wild).map fun (m, s, w) => (m, s, req :: w) := by
  rw [matchIncomming.eq_def, if_neg, if_pos (by exact h)]
  exact UInt64.ne_of_lt h

theorem matchIncomming_cons_specific {tag : ℤ} {req : RecvRequest ρ}
    {specific wild : List (RecvRequest ρ)} (h : req.reqSequence < headSequence wild) :
    matchIncomming tag (req :: specific) wild =
      if postedTagMatches req.reqTag tag then some (req, specific, wild)
      else (matchIncomming tag specific wild).map fun (m, s, w) => (m, req :: s, w) := by
  rw [matchIncomming.eq_def, if_neg, if_neg]
  · exact UInt64.lt_asymm h
  · exact (UInt64.ne_of_lt h).symm

theorem specificOf_cons (p : ℕ) (req : RecvRequest ρ) (queue : List (RecvRequest ρ)) :
    specificOf p (req :: queue) = specificOf p [req] ++ specificOf p queue :=
  filter_append [req] queue

theorem wildOf_cons (req : RecvRequest ρ) (queue : List (RecvRequest ρ)) :
    wildOf (req :: queue) = wildOf [req] ++ wildOf queue :=
  filter_append [req] queue

theorem natCast_ne_anySource (p : ℕ) : (p : ℤ) ≠ anySource := by
  simp only [anySource]
  omega

section Search

variable {p : ℕ} {tag : ℤ} {req : RecvRequest ρ} {queue : List (RecvRequest ρ)}

theorem search_cons_of_eligible (h : Ordered (req :: queue)) (he : eligible p tag req) :
    matchIncomming tag (specificOf p (req :: queue)) (wildOf (req :: queue))
      = some (req, specificOf p queue, wildOf queue) := by
  have hne := natCast_ne_anySource p
  obtain ⟨hp | hp, ht⟩ := he
  · have hs : specificOf p (req :: queue) = req :: specificOf p queue := by simp [specificOf, hp]
    have hw : wildOf (req :: queue) = wildOf queue := by simp [wildOf, hp, hne]
    rw [hs, hw, matchIncomming_cons_specific h.lt_wild, if_pos ht]
  · have hs : specificOf p (req :: queue) = specificOf p queue := by
      simp [specificOf, hp, hne.symm]
    have hw : wildOf (req :: queue) = req :: wildOf queue := by simp [wildOf, hp]
    rw [hs, hw, matchIncomming_cons_wild (h.lt_specific p), if_pos ht]

theorem search_cons_of_not_eligible (h : Ordered (req :: queue)) (he : ¬ eligible p tag req) :
    matchIncomming tag (specificOf p (req :: queue)) (wildOf (req :: queue))
      = (matchIncomming tag (specificOf p queue) (wildOf queue)).map
          fun (m, s, w) => (m, specificOf p [req] ++ s, wildOf [req] ++ w) := by
  have hne := natCast_ne_anySource p
  by_cases hp : req.reqPeer = p
  · have ht : postedTagMatches req.reqTag tag = false := by simpa [eligible, hp] using he
    have hs : specificOf p [req] = [req] := by simp [specificOf, hp]
    have hw : wildOf [req] = [] := by simp [wildOf, hp, hne]
    rw [specificOf_cons, wildOf_cons, hs, hw, nil_append, singleton_append,
      matchIncomming_cons_specific h.lt_wild, ht]
    rfl
  · have hs : specificOf p [req] = [] := by simp [specificOf, hp]
    by_cases hw : req.reqPeer = anySource
    · have ht : postedTagMatches req.reqTag tag = false := by simpa [eligible, hw] using he
      have hw : wildOf [req] = [req] := by simp [wildOf, hw]
      rw [specificOf_cons, wildOf_cons, hs, hw, nil_append, singleton_append,
        matchIncomming_cons_wild (h.lt_specific p), ht]
      rfl
    · have hw : wildOf [req] = [] := by simp [wildOf, hw]
      rw [specificOf_cons, wildOf_cons, hs, hw]
      simp

end Search

theorem matchIncomming_filter (p : ℕ) (tag : ℤ) :
    ∀ {queue : List (RecvRequest ρ)}, Ordered queue →
      ((∀ req ∈ queue, ¬ eligible p tag req)
          ∧ matchIncomming tag (specificOf p queue) (wildOf queue) = none)
        ∨ ∃ before req after, queue = before ++ req :: after
          ∧ (∀ r ∈ before, ¬ eligible p tag r) ∧ eligible p tag req
          ∧ matchIncomming tag (specificOf p queue) (wildOf queue)
            = some (req, specificOf p (before ++ after), wildOf (before ++ after))
  | [], _ => by
    left
    refine ⟨by simp, ?_⟩
    rw [matchIncomming.eq_def]
    simp [specificOf, wildOf]
  | req :: queue, h => by
    by_cases he : eligible p tag req
    · exact .inr ⟨[], req, queue, rfl, by simp, he, search_cons_of_eligible h he⟩
    · have hcons := search_cons_of_not_eligible h he
      rcases matchIncomming_filter p tag h.tail with ⟨hall, hnone⟩ | ⟨b, r, a, rfl, hb, hr, hsome⟩
      · left
        rw [hcons, hnone]
        exact ⟨forall_mem_cons.mpr ⟨he, hall⟩, rfl⟩
      · right
        refine ⟨req :: b, r, a, rfl, forall_mem_cons.mpr ⟨he, hb⟩, hr, ?_⟩
        rw [hcons, hsome, cons_append, specificOf_cons p req (b ++ a), wildOf_cons req (b ++ a)]
        rfl

/-- The communicator stands for the MPI state: `queue` is what is pending, in the order posted. -/
structure Refines (queue : List (RecvRequest ρ)) (comm : Comm ρ δ)
    (s : Mpi.State ρ (RecvFrag δ)) : Prop where
  pending : s.pending = queue.map RecvRequest.toReceive
  specific : ∀ p, (comm.procs p).specificReceives = specificOf p queue
  wild : comm.wildReceives = wildOf queue
  ordered : Ordered queue
  peers : ∀ req ∈ queue, req.reqPeer = anySource ∨ 0 ≤ req.reqPeer
  unexpected : ∀ p, s.unexpected p = (comm.procs p).unexpectedFrags.map RecvFrag.toMessage
  sources : ∀ p, ∀ frag ∈ (comm.procs p).unexpectedFrags, frag.hdr.hdrSrc = p
  size : s.size = comm.numProcs

theorem accepts_iff_eligible {req : RecvRequest ρ} (hreq : req.reqPeer = anySource ∨ 0 ≤ req.reqPeer)
    {frag : RecvFrag δ} (htag : frag.hdr.hdrTag ≠ anyTag) :
    req.toReceive.accepts frag.toMessage = true
      ↔ eligible frag.hdr.hdrSrc frag.hdr.hdrTag req := by
  have hsource : (req.toReceive.source.elim true fun p => p = frag.toMessage.source) = true
      ↔ req.reqPeer = frag.hdr.hdrSrc ∨ req.reqPeer = anySource := by
    by_cases h : req.reqPeer = anySource
    · simp [RecvRequest.toReceive, h]
    · have hpos : 0 ≤ req.reqPeer := hreq.resolve_left h
      simp only [RecvRequest.toReceive, if_neg h, Option.elim_some, decide_eq_true_eq]
      change req.reqPeer.toNat = frag.hdr.hdrSrc ↔ _
      rw [or_iff_left h]
      omega
  have htags : (req.toReceive.tag.elim (decide (0 ≤ frag.toMessage.tag))
        fun t => t = frag.toMessage.tag) = true
      ↔ postedTagMatches req.reqTag frag.hdr.hdrTag = true := by
    by_cases h : req.reqTag = anyTag
    · simp [RecvRequest.toReceive, postedTagMatches, h, htag.symm]
      rfl
    · simp [RecvRequest.toReceive, postedTagMatches, h]
      rfl
  rw [Mpi.Receive.accepts, Bool.and_eq_true, hsource, htags, eligible]

@[simp] theorem outcomes_cons_probed (req : RecvRequest ρ) (frag : RecvFrag δ)
    (l : List (Event ρ δ)) :
    outcomes (.probed req frag :: l)
      = .probed req.toReceive frag.toMessage :: outcomes l := rfl

namespace Refines

variable {queue before after : List (RecvRequest ρ)} {req : RecvRequest ρ} {comm : Comm ρ δ}
  {s : Mpi.State ρ (RecvFrag δ)}

theorem setReceives (h : Refines (before ++ req :: after) comm s) (p : ℕ)
    (hp : req.reqPeer = p ∨ req.reqPeer = anySource) :
    Refines (before ++ after)
      (comm.setReceives p (specificOf p (before ++ after)) (wildOf (before ++ after)))
      { s with pending := (before ++ after).map RecvRequest.toReceive } := by
  have hsub : (before ++ after).Sublist (before ++ req :: after) :=
    List.Sublist.append_left (sublist_cons_self _ _) _
  have hframe : ∀ q, ((comm.setReceives p (specificOf p (before ++ after))
      (wildOf (before ++ after))).procs q).unexpectedFrags = (comm.procs q).unexpectedFrags := by
    intro q
    by_cases hq : q = p
    · subst hq
      simp
    · simp [hq]
  refine ⟨rfl, fun q => ?_, rfl, ⟨h.ordered.sorted.sublist hsub,
    fun r hr => h.ordered.lt_max r (hsub.subset hr)⟩, fun r hr => h.peers r (hsub.subset hr),
    fun q => by rw [hframe, h.unexpected], fun q => by rw [hframe]; exact h.sources q, h.size⟩
  by_cases hq : q = p
  · subst hq
    simp
  · have hreq : req.reqPeer ≠ q := by
      rcases hp with hp | hp
      · rw [hp]
        exact_mod_cast Ne.symm hq
      · rw [hp]
        exact (natCast_ne_anySource q).symm
    simp [hq, h.specific q, specificOf, hreq]

theorem appendUnexpected (h : Refines queue comm s) (frag : RecvFrag δ) :
    Refines queue (comm.appendUnexpected frag.hdr.hdrSrc frag) { s with
      unexpected := Function.update s.unexpected frag.toMessage.source
        (s.unexpected frag.toMessage.source ++ [frag.toMessage]) } := by
  refine ⟨h.pending, fun q => ?_, h.wild, h.ordered, h.peers, fun q => ?_, fun q => ?_, h.size⟩ <;>
    by_cases hq : q = frag.hdr.hdrSrc
  · subst hq
    simp [h.specific]
  · simp [hq, h.specific q]
  · subst hq
    simp [h.unexpected, RecvFrag.toMessage]
  · simp [hq, h.unexpected q, RecvFrag.toMessage]
  · subst hq
    simpa [or_imp, forall_and] using h.sources frag.hdr.hdrSrc
  · simpa [hq] using h.sources q

theorem expectNext (h : Refines queue comm s) (p : ℕ) :
    Refines queue (comm.setProc p (comm.procs p).expectNext) s := by
  refine ⟨h.pending, fun q => ?_, h.wild, h.ordered, h.peers, fun q => ?_, fun q => ?_, h.size⟩ <;>
    by_cases hq : q = p
  · subst hq
    simp [h.specific, CommProc.expectNext]
  · simp [hq, h.specific q]
  · subst hq
    simp [h.unexpected, CommProc.expectNext]
  · simp [hq, h.unexpected q]
  · subst hq
    simpa [CommProc.expectNext] using h.sources q
  · simpa [hq] using h.sources q

end Refines

theorem accepts_eq_false {reqs : List (RecvRequest ρ)} {frag : RecvFrag δ}
    (htag : frag.hdr.hdrTag ≠ anyTag)
    (hpeers : ∀ req ∈ reqs, req.reqPeer = anySource ∨ 0 ≤ req.reqPeer)
    (h : ∀ req ∈ reqs, ¬ eligible frag.hdr.hdrSrc frag.hdr.hdrTag req) :
    ∀ r ∈ reqs.map RecvRequest.toReceive, r.accepts frag.toMessage = false := by
  intro r hr
  obtain ⟨req, hreq, rfl⟩ := mem_map.mp hr
  rw [Bool.eq_false_iff, Ne, accepts_iff_eligible (hpeers req hreq) htag]
  exact h req hreq

theorem matchOne_refines_of_none {queue : List (RecvRequest ρ)} {comm : Comm ρ δ}
    {s : Mpi.State ρ (RecvFrag δ)} (h : Refines queue comm s) {frag : RecvFrag δ}
    (htag : frag.hdr.hdrTag ≠ anyTag)
    (hall : ∀ req ∈ queue, ¬ eligible frag.hdr.hdrSrc frag.hdr.hdrTag req) :
    ∃ queue', queue'.Sublist queue
      ∧ Refines queue' (matchOne comm frag.hdr.hdrSrc frag).1 (s.arrive frag.toMessage).1
      ∧ outcomes (matchOne comm frag.hdr.hdrSrc frag).2 = (s.arrive frag.toMessage).2 := by
  have hnone : matchIncomming frag.hdr.hdrTag (comm.procs frag.hdr.hdrSrc).specificReceives
      comm.wildReceives = none := by
    rw [h.specific, h.wild]
    rcases matchIncomming_filter frag.hdr.hdrSrc frag.hdr.hdrTag h.ordered with
      ⟨-, hnone⟩ | ⟨before, req, after, rfl, -, hreq, -⟩
    · exact hnone
    · exact absurd hreq (hall req (by simp))
  rw [matchOne_of_none hnone, Mpi.State.arrive_of_forall
    (h.pending ▸ accepts_eq_false htag h.peers hall)]
  exact ⟨queue, .refl _, h.appendUnexpected frag, rfl⟩

theorem matchOne_refines {queue : List (RecvRequest ρ)} {comm : Comm ρ δ}
    {s : Mpi.State ρ (RecvFrag δ)} (h : Refines queue comm s) {frag : RecvFrag δ}
    (htag : frag.hdr.hdrTag ≠ anyTag) :
    ∃ queue', queue'.Sublist queue
      ∧ Refines queue' (matchOne comm frag.hdr.hdrSrc frag).1 (s.arrive frag.toMessage).1
      ∧ outcomes (matchOne comm frag.hdr.hdrSrc frag).2 = (s.arrive frag.toMessage).2 := by
  induction hlen : queue.length generalizing queue comm s with
  | zero =>
    obtain rfl := length_eq_zero_iff.mp hlen
    exact matchOne_refines_of_none h htag (by simp)
  | succ len ih =>
    rcases matchIncomming_filter frag.hdr.hdrSrc frag.hdr.hdrTag h.ordered with
      ⟨hall, -⟩ | ⟨before, req, after, rfl, hb, hreq, hsome⟩
    · exact matchOne_refines_of_none h htag hall
    · rw [← h.specific, ← h.wild] at hsome
      have hsub : (before ++ after).Sublist (before ++ req :: after) :=
        List.Sublist.append_left (sublist_cons_self _ _) _
      have hnext := h.setReceives _ hreq.1
      have hpending : s.pending = before.map RecvRequest.toReceive ++
          req.toReceive :: after.map RecvRequest.toReceive := by
        rw [h.pending, map_append, map_cons]
      have hbefore : ∀ r ∈ before.map RecvRequest.toReceive, r.accepts frag.toMessage = false :=
        accepts_eq_false htag (fun r hr => h.peers r (mem_append_left _ hr)) hb
      have hacc : req.toReceive.accepts frag.toMessage = true :=
        (accepts_iff_eligible (h.peers req (by simp)) htag).mpr hreq
      by_cases hk : req.reqType = .probe
      · obtain ⟨queue', hsub', hrefines, hout⟩ := ih hnext (by
          have := hlen
          simp only [length_append, length_cons] at this ⊢
          omega)
        rw [matchOne_of_probe hsome hk, Mpi.State.arrive_of_probe hpending hbefore hacc hk]
        rw [← map_append]
        exact ⟨queue', hsub'.trans hsub, hrefines, by rw [outcomes_cons_probed, hout]⟩
      · rw [matchOne_of_recv hsome hk, Mpi.State.arrive_of_recv hpending hbefore hacc hk]
        rw [← map_append]
        exact ⟨before ++ after, hsub, hnext, rfl⟩

section InTurn

variable {comm : Comm ρ δ} {frag : RecvFrag δ}

section

variable (hseq : frag.hdr.hdrSeq = (comm.procs frag.hdr.hdrSrc).expectedSequence)

include hseq

theorem recvFragMatch_in_turn (hcant : (comm.procs frag.hdr.hdrSrc).fragsCantMatch = []) :
    recvFragMatch comm frag =
      let r := matchOne (comm.setProc frag.hdr.hdrSrc (comm.procs frag.hdr.hdrSrc).expectNext)
        frag.hdr.hdrSrc frag
      (r.1, .searchPosted frag :: r.2) := by
  rw [recvFragMatch, if_pos hseq]
  apply outOfOrderMatch_of_none
  rw [checkCantmatchForMatch, matchOne_fragsCantMatch]
  simp [CommProc.expectNext, hcant]

theorem recvFragCallback_in_turn (hcant : (comm.procs frag.hdr.hdrSrc).fragsCantMatch = []) :
    recvFragCallback comm frag =
      let r := matchOne (comm.setProc frag.hdr.hdrSrc (comm.procs frag.hdr.hdrSrc).expectNext)
        frag.hdr.hdrSrc frag
      (r.1, .searchPosted frag :: r.2) := by
  rw [recvFragCallback]
  split
  · rw [recvFragCallbackMatch, if_neg (by simp [hseq, hcant])]
  · exact recvFragMatch_in_turn hseq hcant
  · exact recvFragMatch_in_turn hseq hcant

end

end InTurn

def SessionRefines (s : Session ρ δ) (t : Mpi.State ρ (RecvFrag δ)) : Prop :=
  ∃ queue, Refines queue s.comm t
    ∧ (∀ req ∈ queue, req.reqSequence.toNat < s.started)
    ∧ s.comm.recvSequence.toNat = s.started
    ∧ ∀ p, (s.comm.procs p).fragsCantMatch = []

theorem matchOne_recvSequence (comm : Comm ρ δ) (p : ℕ) (frag : RecvFrag δ) :
    (matchOne comm p frag).1.recvSequence = comm.recvSequence := by
  fun_induction matchOne comm p frag with
  | case1 comm h => rfl
  | case2 comm req specific wild h hp r ih => exact ih
  | case3 comm req specific wild h hp => rfl

theorem sessionRefines_arrive {s : Session ρ δ} {t : Mpi.State ρ (RecvFrag δ)}
    (h : SessionRefines s t) {frag : RecvFrag δ} (htag : frag.hdr.hdrTag ≠ anyTag)
    (hseq : frag.hdr.hdrSeq = (s.comm.procs frag.hdr.hdrSrc).expectedSequence) :
    SessionRefines { s with comm := (recvFragCallback s.comm frag).1 }
        (t.arrive frag.toMessage).1
      ∧ outcomes (recvFragCallback s.comm frag).2 = (t.arrive frag.toMessage).2 := by
  obtain ⟨queue, hr, hlt, hstarted, hcant⟩ := h
  obtain ⟨queue', hsub, hr', hout⟩ := matchOne_refines (hr.expectNext frag.hdr.hdrSrc) htag
  rw [recvFragCallback_in_turn hseq (hcant _)]
  refine ⟨⟨queue', hr', fun req hreq => hlt req (hsub.subset hreq), ?_, fun q => ?_⟩, hout⟩
  · exact (congrArg UInt32.toNat (matchOne_recvSequence _ _ _)).trans hstarted
  · by_cases hq : q = frag.hdr.hdrSrc
    · subst hq
      exact (matchOne_fragsCantMatch _ _ _).trans (by simpa [CommProc.expectNext] using hcant _)
    · change ((matchOne _ _ _).1.procs q).fragsCantMatch = []
      rw [(matchOne_handles _ _ frag).others q hq]
      simpa [hq] using hcant q

theorem accepts_eq_unexpected {req : RecvRequest ρ} {frag : RecvFrag δ}
    (h : req.reqPeer = anySource ∨ frag.hdr.hdrSrc = req.reqPeer.toNat) :
    req.toReceive.accepts frag.toMessage
      = unexpectedTagMatches req.reqTag frag.hdr.hdrTag := by
  have hsource : (req.toReceive.source.elim true fun p => p = frag.toMessage.source) = true := by
    by_cases hp : req.reqPeer = anySource
    · simp [RecvRequest.toReceive, hp]
    · simp only [RecvRequest.toReceive, if_neg hp, Option.elim_some, decide_eq_true_eq]
      exact (h.resolve_left hp).symm
  rw [Mpi.Receive.accepts, hsource, Bool.true_and, unexpectedTagMatches]
  by_cases ht : req.reqTag = anyTag
  · simp [RecvRequest.toReceive, ht]
    rfl
  · simp [RecvRequest.toReceive, ht, eq_comm]
    rfl

theorem eraseP_congr {α : Type*} {P Q : α → Bool} :
    ∀ {l : List α}, (∀ a ∈ l, P a = Q a) → l.eraseP P = l.eraseP Q
  | [], _ => rfl
  | a :: l, h => by
    rw [eraseP_cons, eraseP_cons, h a mem_cons_self,
      eraseP_congr fun b hb => h b (mem_cons_of_mem _ hb)]

namespace Refines

variable {queue : List (RecvRequest ρ)} {req : RecvRequest ρ} {comm : Comm ρ δ}
  {s : Mpi.State ρ (RecvFrag δ)}

section

variable (h : Refines queue comm s)

include h

theorem accepts_of_mem {q : ℕ}
    (hq : req.reqPeer = anySource ∨ q = req.reqPeer.toNat) :
    ∀ frag ∈ (comm.procs q).unexpectedFrags,
      req.toReceive.accepts frag.toMessage = unexpectedTagMatches req.reqTag frag.hdr.hdrTag :=
  fun frag hf => accepts_eq_unexpected (by rw [h.sources q frag hf]; exact hq)

theorem find?_unexpected {q : ℕ}
    (hq : req.reqPeer = anySource ∨ q = req.reqPeer.toNat) :
    (s.unexpected q).find? (fun m => req.toReceive.accepts m)
      = (recvReqMatchSpecificProc req.reqTag (comm.procs q)).map RecvFrag.toMessage := by
  rw [h.unexpected, find?_map, recvReqMatchSpecificProc]
  congr 1
  exact find?_congr (h.accepts_of_mem hq)

theorem find_eq (req : RecvRequest ρ) :
    s.find req.toReceive
      = (recvReqMatch req comm).map fun found => (found.1, found.2.toMessage) := by
  by_cases hp : req.reqPeer = anySource
  · have hs : s.sources req.toReceive = range comm.numProcs := by
      simp [Mpi.State.sources, RecvRequest.toReceive, hp, h.size]
    rw [Mpi.State.find, hs, recvReqMatch, if_pos hp, recvReqMatchWild, map_findSome?]
    congr 1
    funext i
    rw [h.find?_unexpected (.inl hp), Option.map_map, Function.comp_apply, Option.map_map]
    rfl
  · have hs : s.sources req.toReceive = [req.reqPeer.toNat] := by
      simp [Mpi.State.sources, RecvRequest.toReceive, hp]
    rw [Mpi.State.find, hs, recvReqMatch, if_neg hp]
    simp only [findSome?_cons, h.find?_unexpected (.inr rfl)]
    cases recvReqMatchSpecificProc req.reqTag (comm.procs req.reqPeer.toNat) <;> rfl

theorem append (hpeer : req.reqPeer = anySource ∨ 0 ≤ req.reqPeer)
    (hseq : ∀ r ∈ queue, r.reqSequence < req.reqSequence) (hmax : req.reqSequence < pmlMaxSeq)
    (hk : req.reqType ≠ .iprobe) :
    Refines (queue ++ [req]) (appendRecvReqToQueue req comm)
      { s with pending := s.pending ++ [req.toReceive] } := by
  have hordered : Ordered (queue ++ [req]) := by
    refine ⟨pairwise_append.mpr ⟨h.ordered.sorted, pairwise_singleton _ _, ?_⟩, ?_⟩
    · simpa using hseq
    · simpa [or_imp, forall_and] using ⟨h.ordered.lt_max, hmax⟩
  have hpeers : ∀ r ∈ queue ++ [req], r.reqPeer = anySource ∨ 0 ≤ r.reqPeer := by
    simpa [or_imp, forall_and] using ⟨h.peers, hpeer⟩
  have hpending : s.pending ++ [req.toReceive] = (queue ++ [req]).map RecvRequest.toReceive := by
    simp [h.pending]
  by_cases hw : req.reqPeer = anySource
  · have hspecific : ∀ p, specificOf p (queue ++ [req]) = specificOf p queue := by
      intro p
      simp [specificOf, hw, (natCast_ne_anySource p).symm]
    rw [appendRecvReqToQueue, if_neg hk, if_pos hw]
    refine ⟨hpending, fun p => ?_, ?_, hordered, hpeers, h.unexpected, h.sources, h.size⟩
    · rw [hspecific, h.specific]
    · simp [wildOf, h.wild, hw]
  · have hcast : ((req.reqPeer.toNat : ℕ) : ℤ) = req.reqPeer :=
      Int.toNat_of_nonneg (hpeer.resolve_left hw)
    rw [appendRecvReqToQueue, if_neg hk, if_neg hw]
    refine ⟨hpending, fun p => ?_, ?_, hordered, hpeers, fun p => ?_, fun p => ?_, h.size⟩
    · by_cases hp : p = req.reqPeer.toNat
      · subst hp
        simp [specificOf, h.specific, hcast]
      · have hne : req.reqPeer ≠ p := by omega
        simp [specificOf, h.specific p, hp, hne]
    · simp [wildOf, h.wild, hw]
    · by_cases hp : p = req.reqPeer.toNat
      · subst hp
        simp [h.unexpected]
      · simp [hp, h.unexpected p]
    · by_cases hp : p = req.reqPeer.toNat
      · subst hp
        simpa using h.sources req.reqPeer.toNat
      · simpa [hp] using h.sources p

theorem removeUnexpected {q : ℕ}
    (hq : req.reqPeer = anySource ∨ q = req.reqPeer.toNat) :
    Refines queue (removeUnexpected req.reqTag q comm) { s with
      unexpected := Function.update s.unexpected q
        ((s.unexpected q).eraseP fun m => req.toReceive.accepts m) } := by
  have herase : (s.unexpected q).eraseP (fun m => req.toReceive.accepts m)
      = ((comm.procs q).unexpectedFrags.eraseP fun frag =>
          unexpectedTagMatches req.reqTag frag.hdr.hdrTag).map RecvFrag.toMessage := by
    rw [h.unexpected, eraseP_map]
    congr 1
    exact eraseP_congr (h.accepts_of_mem hq)
  rw [herase]
  refine ⟨h.pending, fun p => ?_, h.wild, h.ordered, h.peers, fun p => ?_, fun p => ?_, h.size⟩ <;>
    by_cases hp : p = q
  · subst hp
    simp [Ob1.removeUnexpected, h.specific]
  · simp [Ob1.removeUnexpected, hp, h.specific p]
  · subst hp
    simp [Ob1.removeUnexpected]
  · simp [Ob1.removeUnexpected, hp, h.unexpected p]
  · subst hp
    intro frag hf
    simp only [Ob1.removeUnexpected, Comm.setProc_procs, Function.update_self] at hf
    exact h.sources p frag (mem_of_mem_eraseP hf)
  · simpa [Ob1.removeUnexpected, hp] using h.sources p

end

end Refines

theorem recvReqMatch_names {req : RecvRequest ρ} {comm : Comm ρ δ} {q : ℕ} {frag : RecvFrag δ}
    (h : recvReqMatch req comm = some (q, frag)) :
    req.reqPeer = anySource ∨ q = req.reqPeer.toNat := by
  rw [recvReqMatch] at h
  split_ifs at h with hp
  · exact .inl hp
  · simp only [Option.map_eq_some_iff, Prod.mk.injEq] at h
    obtain ⟨-, -, rfl, -⟩ := h
    exact .inr rfl

theorem appendRecvReqToQueue_recvSequence (req : RecvRequest ρ) (comm : Comm ρ δ) :
    (appendRecvReqToQueue req comm).recvSequence = comm.recvSequence := by
  rw [appendRecvReqToQueue]
  split_ifs <;> rfl

theorem recvReqStart_refines {queue : List (RecvRequest ρ)} {comm : Comm ρ δ}
    {s : Mpi.State ρ (RecvFrag δ)} (h : Refines queue comm s)
    (hlt : ∀ r ∈ queue, r.reqSequence.toNat < comm.recvSequence.toNat) {req : RecvRequest ρ}
    (hpeer : req.reqPeer = anySource ∨ 0 ≤ req.reqPeer) :
    ∃ queue', (∀ r ∈ queue', r ∈ queue ∨ r.reqSequence = comm.recvSequence.toUInt64)
      ∧ Refines queue' (recvReqStart comm req).1 (s.post req.toReceive).1
      ∧ outcomes (recvReqStart comm req).2 = (s.post req.toReceive).2 := by
  have hreq : (recvReqSequenced req comm).toReceive = req.toReceive := rfl
  have h' : Refines queue { comm with recvSequence := comm.recvSequence + 1 } s :=
    ⟨h.pending, h.specific, h.wild, h.ordered, h.peers, h.unexpected, h.sources, h.size⟩
  have hfind := h'.find_eq (recvReqSequenced req comm)
  rw [hreq] at hfind
  rw [recvReqStart, Mpi.State.post, hfind]
  rcases hmatch : recvReqMatch (recvReqSequenced req comm)
    { comm with recvSequence := comm.recvSequence + 1 } with _ | ⟨q, frag⟩
  · simp only [Option.map_none]
    by_cases hk : req.reqType = .iprobe
    · have hk' : req.toReceive.kind = .iprobe := hk
      have hk'' : (recvReqSequenced req comm).reqType = .iprobe := hk
      refine ⟨queue, fun r hr => .inl hr, ?_, rfl⟩
      rw [if_pos hk', appendRecvReqToQueue, if_pos hk'']
      exact h'
    · have hk' : req.toReceive.kind ≠ .iprobe := hk
      rw [if_neg hk']
      refine ⟨queue ++ [recvReqSequenced req comm], ?_, ?_, rfl⟩
      · simpa [or_imp, forall_and, recvReqSequenced] using fun r hr => Or.inl hr
      · refine h'.append hpeer (fun r hr => ?_) ?_ hk
        · have := hlt r hr
          simpa [recvReqSequenced, UInt64.lt_iff_toNat_lt] using this
        · have := comm.recvSequence.toNat_lt
          simp only [recvReqSequenced, UInt64.lt_iff_toNat_lt, UInt32.toNat_toUInt64, pmlMaxSeq]
          exact this.trans (by decide)
  · simp only [Option.map_some]
    have hnames := recvReqMatch_names hmatch
    by_cases hk : req.reqType = .recv
    · have hk' : req.toReceive.kind = .recv := hk
      have hprob : ((recvReqSequenced req comm).isProbReq) = false := by
        simp [RecvRequest.isProbReq, recvReqSequenced, hk]
      rw [if_pos hk', hprob]
      exact ⟨queue, fun r hr => .inl hr, h'.removeUnexpected hnames, rfl⟩
    · have hk' : req.toReceive.kind ≠ .recv := hk
      have hprob : ((recvReqSequenced req comm).isProbReq) = true := by
        cases ht : req.reqType <;> simp_all [RecvRequest.isProbReq, recvReqSequenced]
      rw [if_neg hk', hprob]
      exact ⟨queue, fun r hr => .inl hr, h', rfl⟩

theorem recvReqStart_recvSequence (comm : Comm ρ δ) (req : RecvRequest ρ) :
    (recvReqStart comm req).1.recvSequence = comm.recvSequence + 1 := by
  rw [recvReqStart]
  split
  · exact appendRecvReqToQueue_recvSequence _ _
  · split_ifs <;> rfl

theorem sessionRefines_post {s : Session ρ δ} {t : Mpi.State ρ (RecvFrag δ)}
    (h : SessionRefines s t) {req : RecvRequest ρ}
    (hpeer : req.reqPeer = anySource ∨ 0 ≤ req.reqPeer) (hlast : s.started + 1 < 2 ^ 32) :
    SessionRefines ⟨(recvReqStart s.comm req).1, s.started + 1⟩ (t.post req.toReceive).1
      ∧ outcomes (recvReqStart s.comm req).2 = (t.post req.toReceive).2 := by
  obtain ⟨queue, hr, hlt, hstarted, hcant⟩ := h
  obtain ⟨queue', hqueue, hr', hout⟩ :=
    recvReqStart_refines hr (fun r hr => (hlt r hr).trans_eq hstarted.symm) hpeer
  refine ⟨⟨queue', hr', fun r hr => ?_, ?_, fun p => ?_⟩, hout⟩
  · change r.reqSequence.toNat < s.started + 1
    rcases hqueue r hr with hold | hnew
    · have := hlt r hold
      omega
    · rw [hnew, UInt32.toNat_toUInt64, hstarted]
      omega
  · change (recvReqStart s.comm req).1.recvSequence.toNat = s.started + 1
    rw [recvReqStart_recvSequence, UInt32.toNat_add, hstarted]
    exact Nat.mod_eq_of_lt hlast
  · obtain ⟨-, -, -, ht⟩ := recvReqStart_handles s.comm req
    exact (congrArg Prod.snd (ht p)).trans (hcant p)

theorem sessionRefines_init (n : ℕ) :
    SessionRefines (⟨.initSize n, 0⟩ : Session ρ δ) { size := n } :=
  ⟨[], ⟨rfl, fun _ => rfl, rfl, ⟨.nil, by simp⟩, by simp, fun _ => rfl, by simp [Comm.initSize],
    rfl⟩, by simp, rfl, fun _ => rfl⟩

theorem sessionRefines_step {s s' : Session ρ δ} {t : Mpi.State ρ (RecvFrag δ)}
    {e : Input ρ δ × List (Mpi.Outcome ρ (RecvFrag δ))} (h : SessionRefines s t)
    (hs : s.step e s') : ∃ t', mpiStep t e t' ∧ SessionRefines s' t' := by
  obtain ⟨frag | req, out⟩ := e
  · obtain ⟨htag, hseq, rfl, rfl⟩ := hs
    obtain ⟨hr, hout⟩ := sessionRefines_arrive h htag hseq
    exact ⟨_, by rw [mpiStep, hout], hr⟩
  · obtain ⟨hpeer, hlast, rfl, rfl⟩ := hs
    obtain ⟨hr, hout⟩ := sessionRefines_post h hpeer hlast
    exact ⟨_, by rw [mpiStep, hout], hr⟩

def receives (l : List (Mpi.Receive ρ)) : List (Mpi.Receive ρ) := l.filter fun r => r.kind = .recv

def fromSource (p : ℕ) (l : List (Mpi.Message (RecvFrag δ))) : List (Mpi.Message (RecvFrag δ)) :=
  l.filter fun m => m.source = p

/-- A step from `s` that is given `new` receives and `came` messages and makes the pairs `made`
keeps the account of both. -/
structure Balanced (s s' : Mpi.State ρ (RecvFrag δ)) (new : List (Mpi.Receive ρ))
    (came : List (Mpi.Message (RecvFrag δ)))
    (made : List (Mpi.Receive ρ × Mpi.Message (RecvFrag δ))) : Prop where
  receives : receives s.pending ++ new ~ made.map Prod.fst ++ receives s'.pending
  messages : ∀ p, s.unexpected p ++ fromSource p came
    ~ fromSource p (made.map Prod.snd) ++ s'.unexpected p

/-- Pending requests are receives or probes, and unexpected messages are kept by source. -/
structure Tidy (s : Mpi.State ρ (RecvFrag δ)) : Prop where
  kinds : ∀ r ∈ s.pending, r.kind ≠ .iprobe
  sources : ∀ p, ∀ m ∈ s.unexpected p, m.source = p

theorem receives_waiting (l : List (Mpi.Receive ρ)) (m : Mpi.Message (RecvFrag δ)) :
    receives ((l.takeWhile fun r => !r.takes m).filter fun r => !r.accepts m)
      = receives (l.takeWhile fun r => !r.takes m) := by
  rw [receives, receives, filter_filter]
  apply filter_congr
  intro r hr
  have htakes : r.takes m = false := by simpa using mem_takeWhile_imp hr
  by_cases hk : r.kind = .recv <;> simp_all [Mpi.Receive.takes]

theorem arrive_cases (s : Mpi.State ρ (RecvFrag δ)) (m : Mpi.Message (RecvFrag δ)) :
    (∃ probes waiting : List (Mpi.Receive ρ), s.arrive m = ({ s with
          pending := waiting
          unexpected := Function.update s.unexpected m.source (s.unexpected m.source ++ [m]) },
        probes.map (.probed · m))
      ∧ waiting ⊆ s.pending ∧ receives s.pending = receives waiting)
    ∨ ∃ (probes waiting : List (Mpi.Receive ρ)) (r : Mpi.Receive ρ) (later : List (Mpi.Receive ρ)),
        s.arrive m
        = ({ s with pending := waiting ++ later }, probes.map (.probed · m) ++ [.paired r m])
      ∧ r.takes m = true ∧ r :: (waiting ++ later) ⊆ s.pending
      ∧ receives s.pending = receives waiting ++ receives (r :: later) := by
  have hsplit := @takeWhile_append_dropWhile _ (fun r => !r.takes m) s.pending
  have hwaiting := receives_waiting s.pending m
  have hsub : (s.pending.takeWhile fun r => !r.takes m).filter (fun r => !r.accepts m)
      ⊆ s.pending :=
    fun r hr => takeWhile_subset _ (mem_of_mem_filter hr)
  rw [Mpi.State.arrive]
  rcases hdrop : s.pending.dropWhile (fun r => !r.takes m) with _ | ⟨r, later⟩
  · left
    refine ⟨_, _, by simp only [hdrop]; rfl, hsub, ?_⟩
    rw [hwaiting]
    rw [hdrop, append_nil] at hsplit
    rw [hsplit]
  · right
    have hr : r.takes m = true := by
      have := head?_dropWhile_not (fun r => !r.takes m) s.pending
      simpa [hdrop] using this
    have hmem : ∀ q ∈ r :: later, q ∈ s.pending := by
      intro q hq
      rw [← hsplit, hdrop]
      exact mem_append_right _ hq
    refine ⟨_, _, r, later, by simp only [hdrop]; rfl, hr, ?_, ?_⟩
    · intro q hq
      simp only [mem_cons, mem_append] at hq
      rcases hq with rfl | hq | hq
      · exact hmem q mem_cons_self
      · exact hsub hq
      · exact hmem q (mem_cons_of_mem _ hq)
    · rw [hwaiting, receives, receives, receives, ← filter_append, ← hdrop, hsplit]

theorem post_cases (s : Mpi.State ρ (RecvFrag δ)) (r : Mpi.Receive ρ) :
    (s.post r = ({ s with pending := s.pending ++ [r] }, []) ∧ r.kind ≠ .iprobe)
    ∨ (s.post r = (s, []) ∧ r.kind = .iprobe)
    ∨ (∃ m, s.post r = (s, [.probed r m]) ∧ r.kind ≠ .recv)
    ∨ ∃ (p : ℕ) (m : Mpi.Message (RecvFrag δ)) (rest : List (Mpi.Message (RecvFrag δ))), s.post r
        = ({ s with unexpected := Function.update s.unexpected p rest }, [.paired r m])
      ∧ r.kind = .recv ∧ s.unexpected p ~ m :: rest := by
  rw [Mpi.State.post]
  rcases hfind : s.find r with _ | ⟨p, m⟩
  · by_cases hk : r.kind = .iprobe
    · simp [hk]
    · simp [hk]
  · by_cases hk : r.kind = .recv
    · right; right; right
      obtain ⟨q, -, hq⟩ := exists_of_findSome?_eq_some hfind
      simp only [Option.map_eq_some_iff, Prod.mk.injEq] at hq
      obtain ⟨m', hm, rfl, rfl⟩ := hq
      refine ⟨q, m', _, by simp only [hk, if_true]; rfl, hk, ?_⟩
      exact perm_eraseP_of_find? hm
    · right; right; left
      exact ⟨m, by simp only [hk, if_false], hk⟩

@[simp] theorem filterMap_pairOf_paired (r : Mpi.Receive ρ) (m : Mpi.Message (RecvFrag δ)) :
    [Mpi.Outcome.paired r m].filterMap pairOf = [(r, m)] := rfl

@[simp] theorem filterMap_pairOf_probed (r : Mpi.Receive ρ) (m : Mpi.Message (RecvFrag δ)) :
    [Mpi.Outcome.probed r m].filterMap pairOf = [] := rfl

theorem filterMap_probed (l : List (Mpi.Receive ρ)) (m : Mpi.Message (RecvFrag δ)) :
    (l.map (Mpi.Outcome.probed · m)).filterMap pairOf = [] := by
  simp [filterMap_eq_nil_iff, pairOf]

theorem tidy_arrive {s : Mpi.State ρ (RecvFrag δ)} (h : Tidy s) (m : Mpi.Message (RecvFrag δ)) :
    Tidy (s.arrive m).1 := by
  rcases arrive_cases s m with ⟨probes, waiting, heq, hsub, -⟩ | ⟨probes, waiting, r, later, heq, -, hsub, -⟩
  · rw [heq]
    refine ⟨fun r hr => h.kinds r (hsub hr), fun p => ?_⟩
    by_cases hp : p = m.source
    · subst hp
      simpa [or_imp, forall_and] using h.sources m.source
    · simpa [hp] using h.sources p
  · rw [heq]
    exact ⟨fun q hq => h.kinds q (hsub (mem_cons_of_mem _ hq)), h.sources⟩

theorem balanced_arrive {s : Mpi.State ρ (RecvFrag δ)} (h : Tidy s)
    (m : Mpi.Message (RecvFrag δ)) :
    Balanced s (s.arrive m).1 [] [m] ((s.arrive m).2.filterMap pairOf) := by
  rcases arrive_cases s m with
    ⟨probes, waiting, heq, -, hrec⟩ | ⟨probes, waiting, r, later, heq, htakes, hsub, hrec⟩
  · rw [heq, filterMap_probed]
    refine ⟨by simp [hrec], fun p => ?_⟩
    by_cases hp : p = m.source
    · subst hp
      simp [fromSource]
    · simp [fromSource, hp, Ne.symm hp]
  · have hk : r.kind = .recv := by
      have := h.kinds r (hsub mem_cons_self)
      cases hk : r.kind <;> simp_all [Mpi.Receive.takes]
    rw [heq, filterMap_append, filterMap_probed]
    refine ⟨?_, fun p => ?_⟩
    · have hcons : receives (r :: later) = r :: receives later := by simp [receives, hk]
      have happ : receives (waiting ++ later) = receives waiting ++ receives later :=
        filter_append _ _
      rw [append_nil, hrec, hcons]
      simp [happ]
    · simpa using perm_append_comm

theorem tidy_post {s : Mpi.State ρ (RecvFrag δ)} (h : Tidy s) (r : Mpi.Receive ρ) :
    Tidy (s.post r).1 := by
  rcases post_cases s r with ⟨heq, hk⟩ | ⟨heq, -⟩ | ⟨m, heq, -⟩ | ⟨p, m, rest, heq, -, hperm⟩
  · rw [heq]
    exact ⟨by simpa [or_imp, forall_and] using ⟨h.kinds, hk⟩, h.sources⟩
  · rwa [heq]
  · rwa [heq]
  · rw [heq]
    refine ⟨h.kinds, fun q => ?_⟩
    by_cases hq : q = p
    · subst hq
      simp only [Function.update_self]
      exact fun m' hm' => h.sources q m' (hperm.mem_iff.mpr (mem_cons_of_mem _ hm'))
    · simpa [hq] using h.sources q

theorem balanced_post {s : Mpi.State ρ (RecvFrag δ)} (h : Tidy s) (r : Mpi.Receive ρ) :
    Balanced s (s.post r).1 (receives [r]) [] ((s.post r).2.filterMap pairOf) := by
  rcases post_cases s r with ⟨heq, -⟩ | ⟨heq, hk⟩ | ⟨m, heq, hk⟩ | ⟨p, m, rest, heq, hk, hperm⟩
  · rw [heq]
    exact ⟨by simp [receives], fun p => by simp [fromSource]⟩
  · rw [heq]
    exact ⟨by simp [receives, hk], fun p => by simp [fromSource]⟩
  · rw [heq]
    exact ⟨by simp [receives, hk], fun p => by simp [fromSource]⟩
  · rw [heq]
    have hm : m.source = p := h.sources p m (hperm.mem_iff.mpr mem_cons_self)
    refine ⟨?_, fun q => ?_⟩
    · simp [receives, hk]
    · by_cases hq : q = p
      · subst hq
        simpa [fromSource, hm] using hperm
      · simp [fromSource, hm, Ne.symm hq, hq]

section Run

variable {n : ℕ} {s : Mpi.State ρ (RecvFrag δ)}
  {es : List (Input ρ δ × List (Mpi.Outcome ρ (RecvFrag δ)))}

theorem paired_singleton (e : Input ρ δ × List (Mpi.Outcome ρ (RecvFrag δ))) :
    paired [e] = e.2.filterMap pairOf := by
  simp [paired]

theorem received_post (req : RecvRequest ρ) (out : List (Mpi.Outcome ρ (RecvFrag δ))) :
    received [(.post req, out)] = receives [req.toReceive] := by
  by_cases hk : req.reqType = .recv <;>
    simp [received, Input.receive, receives, RecvRequest.toReceive, hk]

theorem balanced_step {s s' : Mpi.State ρ (RecvFrag δ)}
    {e : Input ρ δ × List (Mpi.Outcome ρ (RecvFrag δ))} (h : Tidy s) (hs : mpiStep s e s') :
    Tidy s' ∧ Balanced s s' (received [e]) (arrived [e]) (paired [e]) := by
  rw [paired_singleton]
  obtain ⟨frag | req, out⟩ := e
  · obtain ⟨rfl, rfl⟩ := Prod.mk.inj hs
    exact ⟨tidy_arrive h _, balanced_arrive h frag.toMessage⟩
  · obtain ⟨rfl, rfl⟩ := Prod.mk.inj hs
    rw [received_post]
    exact ⟨tidy_post h _, balanced_post h req.toReceive⟩

theorem fromSource_append (p : ℕ) (l l' : List (Mpi.Message (RecvFrag δ))) :
    fromSource p (l ++ l') = fromSource p l ++ fromSource p l' := filter_append _ _

theorem Balanced.trans {s t u : Mpi.State ρ (RecvFrag δ)} {new new' : List (Mpi.Receive ρ)}
    {came came' : List (Mpi.Message (RecvFrag δ))}
    {made made' : List (Mpi.Receive ρ × Mpi.Message (RecvFrag δ))}
    (h : Balanced s t new came made) (h' : Balanced t u new' came' made') :
    Balanced s u (new ++ new') (came ++ came') (made ++ made') where
  receives :=
    calc Ob1.receives s.pending ++ (new ++ new')
        = Ob1.receives s.pending ++ new ++ new' := (append_assoc _ _ _).symm
      _ ~ made.map Prod.fst ++ Ob1.receives t.pending ++ new' := h.receives.append_right _
      _ = made.map Prod.fst ++ (Ob1.receives t.pending ++ new') := append_assoc _ _ _
      _ ~ made.map Prod.fst ++ (made'.map Prod.fst ++ Ob1.receives u.pending) :=
          h'.receives.append_left _
      _ = (made ++ made').map Prod.fst ++ Ob1.receives u.pending := by simp
  messages p :=
    calc s.unexpected p ++ fromSource p (came ++ came')
        = s.unexpected p ++ fromSource p came ++ fromSource p came' := by
          rw [fromSource_append, append_assoc]
      _ ~ fromSource p (made.map Prod.snd) ++ t.unexpected p ++ fromSource p came' :=
          (h.messages p).append_right _
      _ = fromSource p (made.map Prod.snd) ++ (t.unexpected p ++ fromSource p came') :=
          append_assoc _ _ _
      _ ~ fromSource p (made.map Prod.snd)
            ++ (fromSource p (made'.map Prod.snd) ++ u.unexpected p) :=
          (h'.messages p).append_left _
      _ = fromSource p ((made ++ made').map Prod.snd) ++ u.unexpected p := by
          rw [map_append, fromSource_append, append_assoc]

theorem balanced_run (h : (mpiSystem n).Run { size := n } es s) :
    Tidy s ∧ Balanced { size := n } s (received es) (arrived es) (paired es) := by
  generalize hs₀ : ({ size := n } : Mpi.State ρ (RecvFrag δ)) = s₀ at h
  induction h with
  | nil =>
    subst hs₀
    exact ⟨⟨by simp, by simp⟩, ⟨by simp [receives, received, paired], by
      simp [fromSource, arrived, paired]⟩⟩
  | snoc _ hs ih =>
    obtain ⟨ht, hb⟩ := ih
    obtain ⟨ht', hb'⟩ := balanced_step ht hs
    refine ⟨ht', ?_⟩
    have := hb.trans hb'
    simpa [received, arrived, paired] using this

end Run

/-- The ob1 queues do what the one list of MPI does, on the same inputs: every pair made and every
probe answered is the same.  Each receive posted was paired or is pending, each message was paired
or is unexpected, and a pair uses both up. -/
theorem matching_refines_mpi {n : ℕ} {s : Session ρ δ}
    {es : List (Input ρ δ × List (Mpi.Outcome ρ (RecvFrag δ)))}
    (h : (Session.system n).Run ⟨.initSize n, 0⟩ es s) :
    ∃ t, (mpiSystem n).Run { size := n } es t ∧ SessionRefines s t
      ∧ received es ~ (paired es).map Prod.fst ++ receives t.pending
      ∧ ∀ p, fromSource p (arrived es)
        ~ fromSource p ((paired es).map Prod.snd) ++ t.unexpected p := by
  have hsim : ∀ (s : Session ρ δ) e s' (t : Mpi.State ρ (RecvFrag δ)), SessionRefines s t →
      (Session.system n).step s e s' → ∃ t', (mpiSystem n).step t e t' ∧ SessionRefines s' t' :=
    fun _ _ _ _ hr hs => sessionRefines_step hr hs
  obtain ⟨t, ht, hr⟩ := h.simulate hsim (sessionRefines_init n)
  have hb := (balanced_run ht).2
  exact ⟨t, ht, hr, by simpa [receives] using hb.receives, fun p => by simpa using hb.messages p⟩

def wildcardReceive : RecvRequest ℕ := ⟨.recv, -1, -1, 0, 1⟩

def firstMessage : RecvFrag ℕ := ⟨⟨.hdrMatch, 5, 1, 7, 1⟩, 20⟩

theorem matching_refines_mpi_wildcard :
    ∃ es, es.map Prod.fst = [Input.post wildcardReceive, .arrive firstMessage]
      ∧ ∃ t, (mpiSystem 2).Run { size := 2 } es t := by
  have hpost : (Session.system 2).step ⟨.initSize 2, 0⟩ (.post wildcardReceive, _)
      (⟨(recvReqStart (.initSize 2) wildcardReceive).1, 1⟩ : Session ℕ ℕ) :=
    ⟨.inl rfl, by decide, rfl, rfl⟩
  have harrive : (Session.system 2).step ⟨(recvReqStart (.initSize 2) wildcardReceive).1, 1⟩
      (.arrive firstMessage, _) _ := ⟨by decide, rfl, rfl, rfl⟩
  obtain ⟨t, ht, -⟩ := matching_refines_mpi (((System.Run.nil _).snoc hpost).snoc harrive)
  exact ⟨_, rfl, t, ht⟩

end OpenMPI.Ob1
