import OpenMPI.Proofs.Ob1.Match

/-!
# Messages are matched in the order they were sent

Position `k` of a peer's messages carries the number `k + 1` in its 16 bits, and the peer's
expected number is that of the first position not offered.  While fewer than `2 ^ 16` positions are
outstanding beyond it, the bits tell the positions apart, so the out-of-order list is a
resequencing buffer over the positions (`PeerInv`).
-/

namespace OpenMPI.Ob1

open Lib Lib.Resequence List

variable {ρ δ : Type*}

def seqAt (k : ℕ) : UInt16 := UInt16.ofNat (k + 1)

theorem seqAt_numbering : Numbering (· + 1) (2 ^ 16) seqAt where
  num_succ k := by simp [seqAt, UInt16.ofNat_add]
  window i j hij hj h := by
    have := congrArg UInt16.toNat h
    simp only [seqAt, UInt16.toNat_ofNat'] at this
    omega

theorem sendRequestStart_seq {proc : CommProc ρ δ} {k : ℕ}
    (h : proc.sendSequence = UInt32.ofNat k) : (sendRequestStart proc).2 = seqAt k := by
  apply UInt16.toNat_inj.mp
  simp [sendRequestStart, h, seqAt]

theorem map_getD_of_forall₂ {α : Type*} {l held : List α} (d : α) :
    ∀ {ks : List ℕ}, List.Forall₂ (fun k a => l[k]? = some a) ks held →
      held = ks.map (l.getD · d)
  | _, .nil => rfl
  | _, .cons h hs => by simp [map_getD_of_forall₂ d hs, h]

theorem forall₂_map_getD {α : Type*} {l : List α} (d : α) :
    ∀ {ks : List ℕ}, (∀ k ∈ ks, k < l.length) →
      List.Forall₂ (fun k a => l[k]? = some a) ks (ks.map (l.getD · d))
  | [], _ => .nil
  | k :: ks, h => by
    refine .cons ?_ (forall₂_map_getD d fun j hj => h j (mem_cons_of_mem _ hj))
    simp [h k mem_cons_self]

theorem exists_of_forall₂ {α β : Type*} {R : α → β → Prop} {b : β} :
    ∀ {l : List α} {l' : List β}, List.Forall₂ R l l' → b ∈ l' → ∃ a ∈ l, R a b
  | [], [], _, hb => by simp at hb
  | a :: l, _ :: _, .cons h hs, hb => by
    rcases mem_cons.mp hb with rfl | hb
    · exact ⟨a, mem_cons_self, h⟩
    · obtain ⟨a', ha', hr⟩ := exists_of_forall₂ hs hb
      exact ⟨a', mem_cons_of_mem _ ha', hr⟩

theorem take_append_range' {α : Type*} {l : List α} (d : α) {n m : ℕ} (hnm : n ≤ m)
    (hm : m ≤ l.length) : l.take n ++ (range' n (m - n)).map (l.getD · d) = l.take m := by
  apply ext_getElem?
  intro i
  rcases lt_or_ge i n with hi | hi
  · rw [getElem?_append_left (by simp; omega)]
    simp only [getElem?_take, hi, if_true]
    rw [if_pos (by omega)]
  · rw [getElem?_append_right (by simp; omega)]
    simp only [length_take, min_eq_left (hnm.trans hm), getElem?_map,
      getElem?_take]
    split_ifs with him
    · rw [getElem?_range' (by omega)]
      simp [show n + (i - n) = i by omega, show i < l.length by omega]
    · rw [getElem?_eq_none (by simp; omega)]
      rfl

/-- What holds of one peer: `n` of its messages were offered, and the positions `ks` are held. -/
structure PeerInv (p : ℕ) (proc sender : CommProc ρ δ) (sent : List (RecvFrag δ))
    (inFlight : List (ℕ × RecvFrag δ)) (arrived offered matched : List (RecvFrag δ)) : Prop where
  sendSequence : sender.sendSequence = UInt32.ofNat sent.length
  numbered : ∀ k frag, sent[k]? = some frag → seqOf frag = seqAt k ∧ frag.hdr.hdrSrc = p
  inFlight_sent : ∀ k frag, (k, frag) ∈ inFlight → sent[k]? = some frag
  turns : ∃ n ks, n ≤ sent.length ∧ proc.expectedSequence = seqAt n ∧ Held (2 ^ 16) n ks
    ∧ List.Forall₂ (fun k frag => sent[k]? = some frag) ks proc.fragsCantMatch
    ∧ offered = sent.take n
    ∧ List.range n ++ ks ++ inFlight.map Prod.fst ~ List.range sent.length
  arrived : arrived ~ offered ++ proc.fragsCantMatch
  conserves : matched ++ proc.unexpectedFrags ~ offered

namespace PeerInv

variable {p : ℕ} {proc sender : CommProc ρ δ} {sent : List (RecvFrag δ)}
  {inFlight : List (ℕ × RecvFrag δ)} {arrived offered matched : List (RecvFrag δ)}

theorem init (p : ℕ) : PeerInv p ({} : CommProc ρ δ) {} [] [] [] [] [] where
  sendSequence := rfl
  numbered := by simp
  inFlight_sent := by simp
  turns := ⟨0, [], le_rfl, rfl, .nil, .nil, rfl, by simp⟩
  arrived := .nil
  conserves := .nil

theorem send (h : PeerInv p proc sender sent inFlight arrived offered matched)
    {frag : RecvFrag δ} (hseq : frag.hdr.hdrSeq = (sendRequestStart sender).2)
    (hsrc : frag.hdr.hdrSrc = p) :
    PeerInv p proc (sendRequestStart sender).1 (sent ++ [frag])
      (inFlight ++ [(sent.length, frag)]) arrived offered matched := by
  have hold : ∀ {k : ℕ} {f : RecvFrag δ}, sent[k]? = some f → (sent ++ [frag])[k]? = some f := by
    intro k f hk
    rw [getElem?_append_left (List.getElem?_eq_some_iff.mp hk).1, hk]
  obtain ⟨n, ks, hn, hexp, hheld, hcant, hoff, hperm⟩ := h.turns
  refine ⟨?_, fun k f hk => ?_, fun k f hk => ?_, ⟨n, ks, ?_, hexp, hheld, ?_, ?_, ?_⟩, h.arrived,
    h.conserves⟩
  · simp [sendRequestStart, h.sendSequence, UInt32.ofNat_add]
  · rw [getElem?_append] at hk
    split_ifs at hk with hlt
    · exact h.numbered k f hk
    · obtain ⟨hk0, hf⟩ := List.getElem?_eq_some_iff.mp hk
      simp only [length_singleton, Nat.lt_one_iff] at hk0
      simp only [getElem_singleton] at hf
      subst hf
      refine ⟨?_, hsrc⟩
      rw [show k = sent.length by omega]
      exact hseq.trans (sendRequestStart_seq h.sendSequence)
  · rcases mem_append.mp hk with hk | hk
    · exact hold (h.inFlight_sent k f hk)
    · simp only [mem_singleton, Prod.mk.injEq] at hk
      obtain ⟨rfl, rfl⟩ := hk
      simp
  · simp only [length_append]
    omega
  · exact hcant.imp fun _ _ hk => hold hk
  · rw [take_append_of_le_length hn]
    exact hoff
  · simp only [map_append, length_append, length_singleton, range_succ]
    rw [← append_assoc]
    exact hperm.append_right _

/-- What is offered when a message in flight arrives within the window. -/
theorem arrive [DecidableEq δ] {comm comm' : Comm ρ δ} {log : List (Event ρ δ)} {k : ℕ}
    {frag : RecvFrag δ} (h : PeerInv p (comm.procs p) sender sent inFlight arrived offered matched)
    (hin : (k, frag) ∈ inFlight) (hk : k < offered.length + 2 ^ 16)
    (hd : Delivers p frag comm comm' log) :
    PeerInv p (comm'.procs p) sender sent (inFlight.erase (k, frag)) (arrived ++ [frag])
      (offered ++ searched log) (matched ++ matchedFrags log) := by
  obtain ⟨n, ks, hn, hexp, hheld, hcant, hoff, hperm⟩ := h.turns
  have hfrag := h.inFlight_sent k frag hin
  have hnd := hperm.nodup_iff.mpr nodup_range
  rw [append_assoc, nodup_append, nodup_append] at hnd
  have hkmem : k ∈ inFlight.map Prod.fst := mem_map.mpr ⟨_, hin, rfl⟩
  have hnk : n ≤ k := by
    by_contra hlt
    exact hnd.2.2 k (by simp; omega) k (mem_append_right _ hkmem) rfl
  have hkks : k ∉ ks := fun hks => hnd.2.1.2.2 k hks k hkmem rfl
  have hlen : ∀ j ∈ k :: ks, j < sent.length := by
    intro j hj
    have : j ∈ range n ++ ks ++ inFlight.map Prod.fst := by
      rcases mem_cons.mp hj with rfl | hj
      · exact mem_append_right _ hkmem
      · exact mem_append_left _ (mem_append_right _ hj)
    exact mem_range.mp (hperm.mem_iff.mp this)
  have hitem : ∀ j ∈ k :: ks, seqOf (sent.getD j frag) = seqAt j := by
    intro j hj
    exact (h.numbered j _ (by simp [hlen j hj])).1
  have hitemk : sent.getD k frag = frag := by simp [hfrag]
  have hkW : k < n + 2 ^ 16 := by
    rw [hoff, length_take, min_eq_left hn] at hk
    exact hk
  obtain ⟨m, ks', haccept, hnm, hpk, hheld'⟩ :=
    accept_spec seqAt_numbering hheld hkks hnk hkW hitem
  have hs := hd.searched
  have ht := hd.turns
  rw [hitemk] at haccept
  have hcant' := map_getD_of_forall₂ frag hcant
  rw [hexp, hcant', accept, haccept] at hs ht
  simp only [CommProc.turns, Prod.mk.injEq] at hs ht
  have hlen' : ∀ j ∈ range' n (m - n) ++ ks', j < sent.length :=
    fun j hj => hlen j (hpk.mem_iff.mpr hj)
  have hm : m ≤ sent.length := by
    by_contra hlt
    have := hlen' sent.length (by simp; omega)
    omega
  refine ⟨h.sendSequence, h.numbered, fun j f hj => h.inFlight_sent j f (mem_of_mem_erase hj),
    ⟨m, ks', hm, ht.1, hheld', ?_, ?_, ?_⟩, ?_, ?_⟩
  · rw [ht.2]
    exact forall₂_map_getD frag fun j hj => hlen' j (mem_append_right _ hj)
  · rw [hs, hoff, take_append_range' frag hnm hm]
  · have hflight : inFlight.map Prod.fst ~ k :: (inFlight.erase (k, frag)).map Prod.fst :=
      (perm_cons_erase hin).map Prod.fst
    refine List.Perm.trans ?_ hperm
    calc range m ++ ks' ++ (inFlight.erase (k, frag)).map Prod.fst
        = range n ++ (range' n (m - n) ++ ks')
            ++ (inFlight.erase (k, frag)).map Prod.fst := by
          rw [range_eq_append hnm, append_assoc (range n)]
      _ ~ range n ++ (k :: ks) ++ (inFlight.erase (k, frag)).map Prod.fst :=
          (hpk.symm.append_left _).append_right _
      _ ~ range n ++ ks ++ (k :: (inFlight.erase (k, frag)).map Prod.fst) := by
          rw [append_assoc, append_assoc]
          exact (perm_middle.symm).append_left _
      _ ~ range n ++ ks ++ inFlight.map Prod.fst := hflight.symm.append_left _
  · have hmap := hpk.map (sent.getD · frag)
    rw [map_cons, hitemk, ← hcant', map_append, ← hs, ← ht.2] at hmap
    calc arrived ++ [frag]
        ~ offered ++ (comm.procs p).fragsCantMatch ++ [frag] := h.arrived.append_right _
      _ ~ offered ++ (frag :: (comm.procs p).fragsCantMatch) := by
          rw [append_assoc]
          exact (perm_append_singleton _ _).append_left _
      _ ~ offered ++ (searched log ++ (comm'.procs p).fragsCantMatch) := hmap.append_left _
      _ = offered ++ searched log ++ (comm'.procs p).fragsCantMatch :=
          (append_assoc _ _ _).symm
  · calc matched ++ matchedFrags log ++ (comm'.procs p).unexpectedFrags
        = matched ++ (matchedFrags log ++ (comm'.procs p).unexpectedFrags) :=
          append_assoc _ _ _
      _ ~ matched ++ ((comm.procs p).unexpectedFrags ++ searched log) :=
          hd.conserves.append_left _
      _ = matched ++ (comm.procs p).unexpectedFrags ++ searched log :=
          (append_assoc _ _ _).symm
      _ ~ offered ++ searched log := h.conserves.append_right _

theorem post {comm comm' : Comm ρ δ} {log : List (Event ρ δ)}
    (h : PeerInv p (comm.procs p) sender sent inFlight arrived offered matched)
    (hh : Handles p comm comm' log) (hs : searched log = [])
    (ht : (comm'.procs p).turns = (comm.procs p).turns) :
    PeerInv p (comm'.procs p) sender sent inFlight arrived offered
      (matched ++ matchedFrags log) := by
  simp only [CommProc.turns, Prod.mk.injEq] at ht
  refine ⟨h.sendSequence, h.numbered, h.inFlight_sent, ?_, ?_, ?_⟩
  · rw [ht.1, ht.2]
    exact h.turns
  · rw [ht.2]
    exact h.arrived
  · have := hh.conserves
    rw [hs, append_nil] at this
    rw [append_assoc]
    exact (this.append_left _).trans h.conserves

theorem src_of_mem_offered (h : PeerInv p proc sender sent inFlight arrived offered matched)
    {frag : RecvFrag δ} (hf : frag ∈ offered) : frag.hdr.hdrSrc = p := by
  obtain ⟨n, ks, -, -, -, -, rfl, -⟩ := h.turns
  obtain ⟨k, hk⟩ := mem_iff_getElem?.mp (mem_of_mem_take hf)
  exact (h.numbered k frag hk).2

theorem src_of_mem_matched (h : PeerInv p proc sender sent inFlight arrived offered matched)
    {frag : RecvFrag δ} (hf : frag ∈ matched) : frag.hdr.hdrSrc = p :=
  h.src_of_mem_offered (h.conserves.mem_iff.mp (mem_append_left _ hf))

end PeerInv

theorem fromPeer_eq_self {p : ℕ} {frags : List (RecvFrag δ)}
    (h : ∀ frag ∈ frags, frag.hdr.hdrSrc = p) : fromPeer p frags = frags :=
  filter_eq_self.mpr fun frag hf => by simpa using h frag hf

theorem fromPeer_eq_nil {p q : ℕ} {frags : List (RecvFrag δ)}
    (h : ∀ frag ∈ frags, frag.hdr.hdrSrc = p) (hq : q ≠ p) : fromPeer q frags = [] :=
  filter_eq_nil_iff.mpr fun frag hf => by simpa [h frag hf] using hq.symm

@[simp] theorem fromPeer_append (p : ℕ) (l l' : List (RecvFrag δ)) :
    fromPeer p (l ++ l') = fromPeer p l ++ fromPeer p l' := filter_append _ _

namespace Net

def Peer (net : Net ρ δ) (p : ℕ) : Prop :=
  PeerInv p (net.comm.procs p) (net.senders p) (net.sent p) (net.inFlight p) (net.arrived p)
    (net.offered p) (net.matched p)

theorem peer_send {ctx : UInt16} {net : Net ρ δ} (h : ∀ q, net.Peer q) (p : ℕ)
    (hdrType : HdrType) (tag : ℤ) (segments : δ) (q : ℕ) :
    (net.send ctx p hdrType tag segments).Peer q := by
  by_cases hq : q = p
  · subst hq
    simpa [Peer, Net.send, offered, matched] using (h q).send rfl rfl
  · simpa [Peer, Net.send, offered, matched, hq] using h q

theorem peer_arrive [DecidableEq δ] {net : Net ρ δ} (h : ∀ q, net.Peer q) {p k : ℕ} {frag : RecvFrag δ}
    (hin : (k, frag) ∈ net.inFlight p) (hk : k < (net.offered p).length + 2 ^ 16) (q : ℕ) :
    (net.arrive p k frag).Peer q := by
  have hsrc : frag.hdr.hdrSrc = p :=
    ((h p).numbered k frag ((h p).inFlight_sent k frag hin)).2
  have hd := recvFragCallback_delivers net.comm frag
  rw [hsrc] at hd
  have hp := (h p).arrive hin hk hd
  have hs : ∀ f ∈ searched (recvFragCallback net.comm frag).2, f.hdr.hdrSrc = p :=
    fun f hf => hp.src_of_mem_offered (mem_append_right _ hf)
  have hm : ∀ f ∈ matchedFrags (recvFragCallback net.comm frag).2, f.hdr.hdrSrc = p :=
    fun f hf => hp.src_of_mem_matched (mem_append_right _ hf)
  by_cases hq : q = p
  · subst hq
    simpa [Peer, Net.arrive, offered, matched, fromPeer_eq_self hs, fromPeer_eq_self hm] using hp
  · simpa [Peer, Net.arrive, offered, matched, fromPeer_eq_nil hs hq, fromPeer_eq_nil hm hq, hq,
      hd.others q hq] using h q

theorem peer_post {net : Net ρ δ} (h : ∀ q, net.Peer q) (req : RecvRequest ρ) (q : ℕ) :
    (net.post req).Peer q := by
  obtain ⟨p, hh, hs, ht⟩ := recvReqStart_handles net.comm req
  have hp := (h p).post hh hs (ht p)
  have hm : ∀ f ∈ matchedFrags (recvReqStart net.comm req).2, f.hdr.hdrSrc = p :=
    fun f hf => hp.src_of_mem_matched (mem_append_right _ hf)
  by_cases hq : q = p
  · subst hq
    simpa [Peer, Net.post, offered, matched, hs, fromPeer_eq_self hm] using hp
  · simpa [Peer, Net.post, offered, matched, hs, fromPeer_eq_nil hm hq, hh.others q hq] using h q

section Reachable

variable [DecidableEq δ]

theorem reachable_send {n : ℕ} {ctx : UInt16} {net : Net ρ δ} (h : (system n ctx).Reachable net)
    {p : ℕ} (hdrType : HdrType) (tag : ℤ) (segments : δ) (hp : p < net.comm.numProcs) :
    (system n ctx).Reachable (net.send ctx p hdrType tag segments) :=
  have hstep : (system n ctx).step net (.send p hdrType tag segments) _ := ⟨hp, rfl⟩
  h.step hstep

theorem reachable_arrive {n : ℕ} {ctx : UInt16} {net : Net ρ δ} (h : (system n ctx).Reachable net)
    {p k : ℕ} {frag : RecvFrag δ} (hin : (k, frag) ∈ net.inFlight p)
    (hk : k < (net.offered p).length + 2 ^ 16) :
    (system n ctx).Reachable (net.arrive p k frag) :=
  have hstep : (system n ctx).step net (.arrive p k frag) _ := ⟨hin, hk, rfl⟩
  h.step hstep

theorem reachable_peer {n : ℕ} {ctx : UInt16} {net : Net ρ δ}
    (h : (system n ctx).Reachable net) (p : ℕ) : net.Peer p := by
  refine h.invariant (P := fun net => ∀ p, net.Peer p) ?_ ?_ p
  · rintro net rfl q
    exact PeerInv.init q
  · rintro net (⟨p, ty, tag, seg⟩ | ⟨p, k, frag⟩ | req) net' hnet hstep
    · obtain ⟨-, rfl⟩ := hstep
      exact peer_send hnet p ty tag seg
    · obtain ⟨hin, hk, rfl⟩ := hstep
      exact peer_arrive hnet hin hk
    · obtain ⟨-, rfl⟩ := hstep
      exact peer_post hnet req

/-- Every peer's messages are offered in the order they were sent, each once; none held back is
the expected one; those that arrived are the matched, the unexpected and the held back; and once
nothing is in flight, everything sent has been offered. -/
theorem in_order_delivery {n : ℕ} {ctx : UInt16} {net : Net ρ δ}
    (h : (system n ctx).Reachable net) (p : ℕ) :
    net.offered p = (net.sent p).take (net.offered p).length
      ∧ (∀ k frag, (net.sent p)[k]? = some frag →
          frag.hdr.hdrSrc = p ∧ frag.hdr.hdrSeq = UInt16.ofNat (k + 1))
      ∧ (∀ frag ∈ (net.comm.procs p).fragsCantMatch,
          frag.hdr.hdrSeq ≠ (net.comm.procs p).expectedSequence)
      ∧ net.arrived p ~ net.matched p ++ (net.comm.procs p).unexpectedFrags
          ++ (net.comm.procs p).fragsCantMatch
      ∧ net.offered p ~ net.matched p ++ (net.comm.procs p).unexpectedFrags
      ∧ (net.inFlight p = [] →
          net.offered p = net.sent p ∧ (net.comm.procs p).fragsCantMatch = []) := by
  have hp := reachable_peer h p
  obtain ⟨n, ks, hn, hexp, hheld, hcant, hoff, hperm⟩ := hp.turns
  have hlen : (net.offered p).length = n := by rw [hoff, length_take, Nat.min_eq_left hn]
  refine ⟨by rw [hlen, hoff], fun k frag hk => (hp.numbered k frag hk).symm, fun frag hf => ?_,
    ?_, hp.conserves.symm, fun hnil => ?_⟩
  · intro heq
    obtain ⟨k, hk, hsent⟩ := exists_of_forall₂ hcant hf
    have hw := hheld.ahead k hk
    have : n = k := seqAt_numbering.window n k hw.1.le hw.2 (by
      rw [← (hp.numbered k frag hsent).1, ← hexp]
      exact heq.symm)
    omega
  · exact hp.arrived.trans (hp.conserves.symm.append_right _)
  · rw [hnil, map_nil, append_nil] at hperm
    obtain ⟨rfl, rfl⟩ := hheld.eq_nil_of_perm hperm
    refine ⟨by rw [hoff, take_length], forall₂_nil_left_iff.mp hcant⟩

end Reachable

def overtaken : Net ℕ ℕ :=
  (((({ comm := .initSize 2 } : Net ℕ ℕ).send 5 0 .hdrMatch 7 10).send 5 0 .hdrRndv 7 11).arrive
    0 1 ⟨⟨.hdrRndv, 5, 0, 7, 2⟩, 11⟩).arrive 0 0 ⟨⟨.hdrMatch, 5, 0, 7, 1⟩, 10⟩

theorem overtaken_reachable : (system 2 5).Reachable overtaken :=
  have h0 : (system 2 5).Reachable ({ comm := .initSize 2 } : Net ℕ ℕ) := ⟨_, _, rfl, .nil _⟩
  reachable_arrive (reachable_arrive (reachable_send (reachable_send h0 _ _ _ (by decide)) _ _ _
    (by decide)) (by decide) (by omega)) (by decide) (by omega)

theorem in_order_delivery_overtaken :
    overtaken.offered 0 = overtaken.sent 0
      ∧ (overtaken.comm.procs 0).fragsCantMatch = [] :=
  (in_order_delivery overtaken_reachable 0).2.2.2.2.2 rfl

end Net

end OpenMPI.Ob1
