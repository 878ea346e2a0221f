import OpenMPI.Ob1.Rndv

/-!
# When the split is a partition

The receiver's decision splits the message properly exactly when the receive is long enough for
the branch it takes (`splits_iff`).  A receive shorter than the eager bytes moves the offset of the
pipeline back over them, and one shorter than the message lets a PUT of put-at-once start again at
the end of the receive.
-/

namespace OpenMPI.Ob1.Rendezvous

open Lib List

variable {r : Rendezvous}

theorem setPosition_toNat (localSize position : UInt64) :
    (setPosition localSize position).toNat = min localSize.toNat position.toNat := by
  rw [setPosition]
  split_ifs with h <;> rw [UInt64.le_iff_toNat_le] at h <;> omega

theorem toNat_sub {a b : UInt64} (h : b ≤ a) : (a - b).toNat = a.toNat - b.toNat :=
  UInt64.toNat_sub_of_le _ _ h

theorem setPosition_of_le {localSize position : UInt64} (h : position.toNat ≤ localSize.toNat) :
    setPosition localSize position = position := by
  apply UInt64.toNat_inj.mp
  rw [setPosition_toNat, min_eq_right h]

theorem Puts.tiles {localSize offset remaining : UInt64} {puts : List (UInt64 × UInt64)}
    (h : Puts localSize offset remaining puts)
    (hend : offset.toNat + remaining.toNat ≤ localSize.toNat + 1)
    (hsum : offset.toNat + remaining.toNat < 2 ^ 64) :
    Tiles offset.toNat (offset.toNat + remaining.toNat)
      (puts.map fun s => (s.1.toNat, s.2.toNat)) := by
  induction h with
  | done offset => exact .nil _
  | @put offset remaining size l hpos hle h ih =>
    have hposn : 0 < size.toNat := UInt64.lt_iff_toNat_lt.mp hpos
    have hlen : size.toNat ≤ remaining.toNat := UInt64.le_iff_toNat_le.mp hle
    have hset : setPosition localSize offset = offset := setPosition_of_le (by omega)
    have hadd : (offset + size).toNat = offset.toNat + size.toNat := by
      rw [UInt64.toNat_add, Nat.mod_eq_of_lt (by omega)]
    rw [hset] at ih ⊢
    rw [hadd, toNat_sub hle] at ih
    have htail := ih (by omega) (by omega)
    rw [show offset.toNat + size.toNat + (remaining.toNat - size.toNat)
      = offset.toNat + remaining.toNat by omega] at htail
    exact .cons _ htail

theorem Puts.eq_nil {localSize offset : UInt64} {puts : List (UInt64 × UInt64)}
    (h : Puts localSize offset 0 puts) : puts = [] := by
  generalize hr : (0 : UInt64) = remaining at h
  cases h with
  | done => rfl
  | put hpos hle _ =>
    subst hr
    rw [UInt64.lt_iff_toNat_lt] at hpos
    rw [UInt64.le_iff_toNat_le] at hle
    exact absurd hpos (by omega)

theorem bytesReceived_lt_of_protocol (h : r.protocol ≠ .copyInOut) :
    r.bytesReceived < r.hdrMsgLength := by
  rw [protocol] at h
  split_ifs at h with h1 <;> first | exact h1.1 | exact absurd rfl h

theorem reqSendOffset_of_copyInOut (h : r.protocol = .copyInOut) :
    r.reqSendOffset = r.bytesReceived := by simp [reqSendOffset, h]

theorem reqSendOffset_of_putAtOnce (h : r.protocol = .putAtOnce) :
    r.reqSendOffset = r.hdrMsgLength := by simp [reqSendOffset, h]

theorem reqSendOffset_of_pipeline (h : r.protocol = .pipeline)
    (hp : r.btlPipelineSendLength ≤ r.hdrMsgLength) :
    r.reqSendOffset.toNat = min r.localSize.toNat
      (max (r.hdrMsgLength.toNat - r.btlPipelineSendLength.toNat) r.bytesReceived.toNat) := by
  have hsub := toNat_sub hp
  simp only [reqSendOffset, h, setPosition_toNat, pipelineOffset]
  congr 1
  split_ifs with hlt <;> rw [UInt64.lt_iff_toNat_lt, hsub] at hlt
  · omega
  · rw [hsub]
    omega

structure Between (r : Rendezvous) : Prop where
  received_le : r.bytesReceived.toNat ≤ r.reqSendOffset.toNat
  offset_le : r.reqSendOffset.toNat ≤ r.hdrMsgLength.toNat

theorem between_of_longEnough (hs : Sent r) (h : LongEnough r) : Between r := by
  have heager := UInt64.le_iff_toNat_le.mp hs.eager
  rcases hp : r.protocol with _ | _ | _
  · rw [← reqSendOffset_of_copyInOut hp] at heager
    exact ⟨by rw [reqSendOffset_of_copyInOut hp], heager⟩
  · rw [← reqSendOffset_of_putAtOnce hp] at heager
    exact ⟨heager, by rw [reqSendOffset_of_putAtOnce hp]⟩
  · simp only [LongEnough, hp, UInt64.le_iff_toNat_le] at h
    have hoff := reqSendOffset_of_pipeline hp (UInt64.le_iff_toNat_le.mpr h.1)
    exact ⟨by omega, by omega⟩

theorem scheduled_tiles (hs : Sent r) (h : LongEnough r) {puts : List (UInt64 × UInt64)}
    (hputs : r.Scheduled puts) :
    Tiles r.bytesReceived.toNat r.reqSendOffset.toNat
      (puts.map fun s => (s.1.toNat, s.2.toNat)) := by
  have hb := between_of_longEnough hs h
  rw [Scheduled, bytesRemaining] at hputs
  split_ifs at hputs with hlt
  · rw [UInt64.lt_iff_toNat_lt] at hlt
    have hsub := toNat_sub (UInt64.le_iff_toNat_le.mpr hb.received_le)
    have hmax := r.reqSendOffset.toNat_lt
    have hend : r.reqSendOffset.toNat ≤ r.localSize.toNat + 1 := by
      rcases hp : r.protocol with _ | _ | _
      · rw [reqSendOffset_of_copyInOut hp] at hlt
        omega
      · rw [reqSendOffset_of_putAtOnce hp]
        simpa only [LongEnough, hp] using h
      · simp only [LongEnough, hp] at h
        have := reqSendOffset_of_pipeline hp h.1
        omega
    have := hputs.tiles (by omega) (by omega)
    rwa [hsub, Nat.add_sub_cancel' hb.received_le] at this
  · rw [hputs.eq_nil]
    rw [UInt64.lt_iff_toNat_lt] at hlt
    rw [show r.reqSendOffset.toNat = r.bytesReceived.toNat by have := hb.received_le; omega]
    exact .nil _

theorem fragRange_tiles (h : Between r) :
    Tiles r.reqSendOffset.toNat r.hdrMsgLength.toNat
      (r.fragRange.map fun s => (s.1.toNat, s.2.toNat)) := by
  have hsub := toNat_sub (UInt64.le_iff_toNat_le.mpr h.offset_le)
  rw [fragRange]
  by_cases hlen : r.hdrMsgLength - r.reqSendOffset = 0
  · have heq : r.reqSendOffset.toNat = r.hdrMsgLength.toNat := by
      have := h.offset_le
      rw [hlen] at hsub
      simp only [UInt64.toNat_zero] at hsub
      omega
    rw [heq]
    simpa [hlen] using Tiles.nil _
  · have hack : r.ackSent = true := by
      simp only [ackSent, Bool.not_eq_true', Bool.and_eq_false_iff, decide_eq_false_iff_not]
      right
      rintro heq
      exact hlen (by simp [heq])
    rw [if_pos hack]
    simp only [hlen, if_false, map_cons, map_nil, hsub]
    have := @Tiles.single r.reqSendOffset.toNat (r.hdrMsgLength.toNat - r.reqSendOffset.toNat)
    rwa [Nat.add_sub_cancel' h.offset_le] at this

theorem splits_of_longEnough (hs : Sent r) (h : LongEnough r) : Splits r := by
  have hb := between_of_longEnough hs h
  refine ⟨fun puts hputs => ?_, UInt64.le_iff_toNat_le.mpr hb.offset_le, ?_⟩
  · have hfirst : Tiles 0 r.bytesReceived.toNat [(0, r.bytesReceived.toNat)] := by
      simpa using @Tiles.single 0 r.bytesReceived.toNat
    have htiles := (hfirst.append (scheduled_tiles hs h hputs)).append (fragRange_tiles hb)
    simpa [ranges] using htiles.partitions
  · intro s hmem
    simp only [subtractions, mem_append] at hmem
    have h1 := UInt64.le_iff_toNat_le.mpr hb.received_le
    have h2 := UInt64.le_iff_toNat_le.mpr hb.offset_le
    rcases hmem with (hmem | hmem) | hmem
    · split_ifs at hmem with hp
      · simp only [mem_cons, not_mem_nil, or_false] at hmem
        rcases hmem with rfl | rfl
        · simp only [LongEnough, hp] at h
          exact h.1
        · exact h1
      · simp at hmem
    · split_ifs at hmem
      · simp only [mem_singleton] at hmem
        subst hmem
        exact h1
      · simp at hmem
    · split_ifs at hmem
      · simp only [mem_singleton] at hmem
        subst hmem
        exact h2
      · simp at hmem

theorem flagPin_of_putAtOnce (h : r.protocol = .putAtOnce) : r.flagPin = true := by
  rw [protocol] at h
  split_ifs at h with h1 h2
  exact h2.1

theorem puts_overlap {localSize length : UInt64} (h : localSize.toNat + 1 < length.toNat) :
    Puts localSize 0 length
      [(0, localSize + 1), (localSize, length - (localSize + 1))] := by
  have hmax := length.toNat_lt
  have hone : (localSize + 1).toNat = localSize.toNat + 1 := by
    rw [UInt64.toNat_add, UInt64.toNat_one, Nat.mod_eq_of_lt (by omega)]
  have hle : localSize + 1 ≤ length := by
    rw [UInt64.le_iff_toNat_le]
    omega
  have hrest := toNat_sub hle
  have h0 : setPosition localSize 0 = 0 := setPosition_of_le (by simp)
  have h1 : setPosition localSize (localSize + 1) = localSize := by
    apply UInt64.toNat_inj.mp
    rw [setPosition_toNat, hone]
    omega
  have hfirst : 0 < localSize + 1 := by
    rw [UInt64.lt_iff_toNat_lt, hone]
    simp
  have hsecond : 0 < length - (localSize + 1) := by
    rw [UInt64.lt_iff_toNat_lt, hrest]
    simp only [UInt64.toNat_zero]
    omega
  have hdone : Puts localSize (setPosition localSize (localSize + 1) + (length - (localSize + 1)))
      (length - (localSize + 1) - (length - (localSize + 1))) [] := by
    rw [UInt64.sub_self]
    exact .done _
  have htail := Puts.put hsecond (UInt64.le_refl _) hdone
  rw [h1] at htail
  have htail' : Puts localSize (setPosition localSize 0 + (localSize + 1))
      (length - (localSize + 1)) [(localSize, length - (localSize + 1))] := by
    rwa [h0, UInt64.zero_add]
  have := Puts.put hfirst hle htail'
  rwa [h0] at this

theorem not_partitions_of_mem {length x : ℕ} {a b c : ℕ × ℕ} {l : List (ℕ × ℕ)}
    (hb : x ∈ Lib.segment b) (hc : x ∈ Lib.segment c) : ¬ Partitions length (a :: b :: c :: l) := by
  intro h
  have htail := (pairwise_cons.mp h.disjoint).2
  have hdisj := (pairwise_cons.mp htail).1 c mem_cons_self
  exact Set.disjoint_left.mp hdisj hb hc

theorem longEnough_of_splits (hs : Sent r) (h : Splits r) : LongEnough r := by
  rcases hp : r.protocol with _ | _ | _
  · simp [LongEnough, hp]
  · simp only [LongEnough, hp]
    by_contra hshort
    have hzero : r.bytesReceived = 0 := hs.pin (flagPin_of_putAtOnce hp)
    have hlt : r.bytesReceived < r.hdrMsgLength := bytesReceived_lt_of_protocol (by simp [hp])
    have hremaining : r.bytesRemaining = r.hdrMsgLength := by
      rw [bytesRemaining, reqSendOffset_of_putAtOnce hp, if_pos hlt, hzero, UInt64.sub_zero]
    rw [not_le] at hshort
    have hputs := puts_overlap hshort
    have hscheduled : r.Scheduled
        [(0, r.localSize + 1), (r.localSize, r.hdrMsgLength - (r.localSize + 1))] := by
      rwa [Scheduled, hremaining, hzero]
    have hmax := r.hdrMsgLength.toNat_lt
    have hone : (r.localSize + 1).toNat = r.localSize.toNat + 1 := by
      rw [UInt64.toNat_add, UInt64.toNat_one, Nat.mod_eq_of_lt (by omega)]
    have hle : r.localSize + 1 ≤ r.hdrMsgLength := by
      rw [UInt64.le_iff_toNat_le]
      omega
    have hrest := toNat_sub hle
    refine @not_partitions_of_mem _ r.localSize.toNat _ _ _ _ ?_ ?_ (h.partitions _ hscheduled)
    · simp only [Lib.segment, Set.mem_Ico, UInt64.toNat_zero, hone]
      omega
    · simp only [Lib.segment, Set.mem_Ico, hrest, hone]
      omega
  · have hmem : ∀ s ∈ [(r.hdrMsgLength, r.btlPipelineSendLength),
        (r.reqSendOffset, r.bytesReceived)], s.2 ≤ s.1 := by
      intro s hmem
      refine h.no_underflow s ?_
      simp only [subtractions, hp, if_true]
      exact mem_append_left _ (mem_append_left _ hmem)
    have h1 : r.btlPipelineSendLength ≤ r.hdrMsgLength := hmem _ mem_cons_self
    have h2 : r.bytesReceived ≤ r.reqSendOffset :=
      hmem _ (mem_cons_of_mem _ mem_cons_self)
    simp only [LongEnough, hp]
    refine ⟨h1, ?_⟩
    have hoff := reqSendOffset_of_pipeline hp h1
    rw [UInt64.le_iff_toNat_le] at h2 ⊢
    omega

/-- A message of 4 MiB whose receive has room for 1000 of the 12288 bytes sent eagerly. -/
def shortReceive : Rendezvous where
  hdrMsgLength := 4194304
  flagContig := true
  flagPin := false
  bytesReceived := 12288
  needBuffers := false
  localSize := 1000
  rdmaNum := 1
  rdmaBtls := 0
  rdmaPipelineBtls := 1
  btlSendLimit := 1310720
  btlPipelineSendLength := 1048576

def fullReceive : Rendezvous := { shortReceive with localSize := 4194304 }

end OpenMPI.Ob1.Rendezvous
