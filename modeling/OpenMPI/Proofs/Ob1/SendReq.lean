import OpenMPI.Ob1.SendReq

/-!
# One action of a send's callbacks

Every action keeps an account of what the events still owe to the request's counters and of who
holds its lock.
-/

namespace OpenMPI.Ob1

open Lib Lib.Pool SendTask List

variable {t : Transfer} {btl : Btl} {task : SendTask} {r r' : SendRequest}
  {tasks new rest : List SendTask}

namespace SendTask

def states : SendTask → ℕ
  | rndvCompletion _ | rndvState | ack .. | ackThrottle .. | ackCopyInOut _ | ackState
  | ackDecrement => 1
  | put flagAck _ _ => if flagAck then 1 else 0
  | _ => 0

def bytes (t : Transfer) : SendTask → ℕ
  | rndvCompletion size | fragCompletion size | fragDelivered size | putCompletion size => size
  | ack sendOffset _ | ackThrottle sendOffset _ | ackCopyInOut sendOffset =>
    t.reqBytesPacked - sendOffset
  | put _ _ length | putFrag _ length _ | rdmaPending _ length _ | putCopyInOut _ length => length
  | _ => 0

def sentBytes : SendTask → ℕ
  | sent size .. => size
  | _ => 0

def frags : SendTask → ℕ
  | fragCompletion _ => 1
  | _ => 0

def uncounted : SendTask → ℕ
  | sent .. => 1
  | _ => 0

def active : SendTask → ℕ
  | scheduleOnce | getSendRange | send .. | sent .. | nextSendRange _ | sendPending => 1
  | scheduleLoop range _ _ => if range then 1 else 0
  | _ => 0

def scheduler : SendTask → ℕ
  | scheduleOnce | getSendRange | scheduleLoop .. | send .. | sent .. | nextSendRange _
  | sendPending | unlock => 1
  | _ => 0

def completing : SendTask → ℕ
  | pmlComplete => 1
  | _ => 0

def waker : SendTask → ℕ
  | ack .. | ackThrottle .. | ackCopyInOut _ | ackState | ackDecrement | fragCompletion _
  | fragDelivered _ | scheduleIfRecv | schedule => 1
  | checkState orSchedule | checkDelivered orSchedule | checkLock orSchedule =>
    if orSchedule then 1 else 0
  | _ => 0

def acks : SendTask → ℕ
  | ack .. => 1
  | _ => 0

def Knows (t : Transfer) (r : SendRequest) : SendTask → Prop
  | checkDelivered _ => r.reqState = 0
  | checkLock _ | pmlComplete => r.reqState = 0 ∧ t.reqBytesPacked ≤ r.reqBytesDelivered
  | send .. => r.reqSendRanges ≠ []
  | sent size .. => r.reqSendRanges ≠ [] ∧ size ≤ r.rangeSendLength
  | scheduleLoop range .. => range → r.reqSendRanges ≠ []
  | nextSendRange _ => r.reqSendRanges ≠ [] ∧ r.rangeSendLength = 0
  | scheduleIfRecv => r.reqRecv ∨ t.reply.ackSent
  | _ => True

end SendTask

namespace SendRequest

def rangeBytes (r : SendRequest) : ℕ := (r.reqSendRanges.map Prod.snd).sum

theorem copyInOut_rangeBytes (offset length : ℕ) :
    (r.copyInOut offset length).rangeBytes = r.rangeBytes + length := by
  unfold copyInOut rangeBytes
  split_ifs with h <;> simp [h]

theorem advanceRange_rangeBytes {size : ℕ} (h : size ≤ r.rangeSendLength) :
    (r.advanceRange size).rangeBytes + size = r.rangeBytes := by
  unfold rangeSendLength at h
  unfold advanceRange rangeBytes
  split at h
  · rename_i hr
    simp [hr]
    omega
  · rename_i hr
    simp only [hr, map_cons, sum_cons]
    omega

theorem dropRange_rangeBytes (h : r.rangeSendLength = 0) :
    r.dropRange.rangeBytes = r.rangeBytes := by
  unfold rangeSendLength at h
  unfold dropRange rangeBytes
  split at h
  · rename_i hr
    simp [hr]
  · rename_i hr
    simp [hr, h]

end SendRequest

open SendRequest

section

variable (h : exec t btl task r = some (r', new))

include h

theorem exec_states {n : ℕ}
    (hr : r.reqState = (states task + n : ℕ)) : r'.reqState = (total states new + n : ℕ) := by
  unfold exec at h
  split at h <;> grind [states, total_cons, total_nil, unlessComplete, copyInOut, advanceRange,
    dropRange]

theorem exec_bytes (hk : Knows t r task) {c n m : ℕ}
    (hr : r.reqBytesDelivered + r.rangeBytes + (SendTask.bytes t task + n) = c + (sentBytes task + m)) :
    r'.reqBytesDelivered + r'.rangeBytes + (total (SendTask.bytes t) new + n)
      = c + (total sentBytes new + m) := by
  unfold exec at h
  split at h
  all_goals grind [SendTask.bytes, sentBytes, Knows, total_cons, total_nil, unlessComplete, advanceRange_rangeBytes, copyInOut_rangeBytes, dropRange_rangeBytes, copyInOut, advanceRange, dropRange, rangeBytes]

theorem exec_depth {n m : ℕ}
    (hr : (r.reqPipelineDepth.toNat + (uncounted task + m)) % 2 ^ 64 = (frags task + n) % 2 ^ 64) :
    (r'.reqPipelineDepth.toNat + (total uncounted new + m)) % 2 ^ 64
      = (total frags new + n) % 2 ^ 64 := by
  have hsub : (r.reqPipelineDepth - 1).toNat = (2 ^ 64 - 1 + r.reqPipelineDepth.toNat) % 2 ^ 64 :=
    UInt64.toNat_sub _ _
  have hadd : (r.reqPipelineDepth + 1).toNat = (r.reqPipelineDepth.toNat + 1) % 2 ^ 64 :=
    UInt64.toNat_add _ _
  unfold exec at h
  split at h
  all_goals grind [uncounted, frags, total_cons, total_nil, unlessComplete, copyInOut, advanceRange, dropRange]

theorem exec_lock {n : ℕ} (h0 : 0 ≤ r.reqLock)
    (hr : scheduler task + completing task + n + r.pmlCompletions
      = if r.reqLock = 0 then 0 else 1) :
    0 ≤ r'.reqLock ∧ total scheduler new + total completing new + n + r'.pmlCompletions
      = if r'.reqLock = 0 then 0 else 1 := by
  unfold exec at h
  split at h
  all_goals grind [scheduler, completing, total_cons, total_nil, unlessComplete, copyInOut, advanceRange, dropRange]

theorem exec_recv {n : ℕ}
    (hr : r.reqRecv ∨ 0 < acks task + n) : r'.reqRecv ∨ 0 < total acks new + n := by
  unfold exec at h
  split at h
  all_goals grind [acks, total_cons, total_nil, unlessComplete, copyInOut, advanceRange, dropRange]

theorem exec_knows_new (hk : Knows t r task)
    (hm : ∀ offset length, task = putCopyInOut offset length → r.reqRecv ∨ t.reply.ackSent) :
    ∀ u ∈ new, Knows t r' u := by
  unfold exec at h
  split at h
  all_goals grind [Knows, unlessComplete, copyInOut, advanceRange, dropRange, rangeSendLength]

theorem exec_ranges (hs : scheduler task = 0) :
    ∃ ranges, r'.reqSendRanges = r.reqSendRanges ++ ranges := by
  by_cases hr : r'.reqSendRanges = r.reqSendRanges
  · exact ⟨[], by simpa using hr⟩
  · unfold exec at h
    split at h
    all_goals grind [scheduler, copyInOut, advanceRange, dropRange]

theorem exec_reqState_le : r'.reqState ≤ r.reqState := by
  unfold exec at h
  split at h
  all_goals grind [copyInOut, advanceRange, dropRange]

theorem exec_delivered :
    r.reqBytesDelivered ≤ r'.reqBytesDelivered := by
  unfold exec at h
  split at h
  all_goals grind [copyInOut, advanceRange, dropRange]

theorem exec_reqRecv (hr : r.reqRecv) : r'.reqRecv := by
  unfold exec at h
  split at h
  all_goals grind [copyInOut, advanceRange, dropRange]

theorem exec_knows_rest {u : SendTask}
    (hk : Knows t r u) (hstate : r.reqState = 0 → r'.reqState = 0)
    (hs : scheduler task + scheduler u ≤ 1) : Knows t r' u := by
  have hd := exec_delivered h
  have hrecv := exec_reqRecv h
  by_cases hu : scheduler u = 0
  · cases u <;> grind [Knows, scheduler]
  · obtain ⟨ranges, hr⟩ := exec_ranges h (by omega)
    have hlen : r.reqSendRanges ≠ [] → r'.rangeSendLength = r.rangeSendLength := by
      intro hne
      unfold rangeSendLength
      obtain ⟨range, rest, hcons⟩ := exists_cons_of_ne_nil hne
      simp [hr, hcons]
    have hne : r.reqSendRanges ≠ [] → r'.reqSendRanges ≠ [] := by
      intro hne
      simp [hr, hne]
    cases u <;> grind [Knows, scheduler]

/-- While a range is queued, something is left that brings the scheduler to it. -/
theorem exec_wake (hk : Knows t r task)
    (h0 : 0 ≤ r.reqLock) {w a s c f u k : ℕ} (hfw : f ≤ w) (has : a ≤ s) (hus : u ≤ s) (hkw : k ≤ w)
    (hlock : scheduler task + completing task + (s + c) + r.pmlCompletions
      = if r.reqLock = 0 then 0 else 1)
    (hdepth : (r.reqPipelineDepth.toNat + (uncounted task + u)) % 2 ^ 64 = (frags task + f) % 2 ^ 64)
    (hrecv : t.reply.ackSent → r.reqRecv ∨ 0 < acks task + k)
    (hm : r.reqThrottleSends → t.sendPipelineDepth ≠ 0)
    (hr : r.reqSendRanges ≠ [] → 0 < waker task + w ∨ 0 < active task + a ∨
      (2 ≤ r.reqLock ∧ 0 < scheduler task + s) ∨ 0 < completing task + c + r.pmlCompletions) :
    r'.reqSendRanges ≠ [] → 0 < total waker new + w ∨ 0 < total active new + a ∨
      (2 ≤ r'.reqLock ∧ 0 < total scheduler new + s) ∨
      0 < total completing new + c + r'.pmlCompletions := by
  have hmay : r.maySend t = false → u = 0 → uncounted task = 0 → 0 < frags task + f := by
    intro hno hu0 ht0
    simp only [maySend, Bool.or_eq_false_iff, Bool.not_eq_false', decide_eq_false_iff_not,
      UInt64.lt_iff_toNat_lt] at hno
    have hpos : t.sendPipelineDepth.toNat ≠ 0 := by
      intro hz
      exact hm hno.1 (UInt64.toNat_inj.mp hz)
    have hlt := r.reqPipelineDepth.toNat_lt
    by_contra hzero
    rw [hu0, ht0, show frags task + f = 0 by omega] at hdepth
    omega
  have hone : (if r.reqLock = 0 then 0 else 1) ≤ 1 := by split_ifs <;> omega
  clear hdepth hm
  intro hne
  cases task
  case' checkState orSchedule | checkDelivered orSchedule | checkLock orSchedule => cases orSchedule
  all_goals
    simp only [exec, waker, active, scheduler, completing, acks, uncounted, frags, Knows, unlessComplete,
      Bool.false_eq_true, if_false, if_true] at h hk hlock hrecv hr hmay
    repeat' split at h
  all_goals try contradiction
  all_goals
    cases h
    simp only [total_cons, total_nil, waker, active, scheduler, completing, if_true]
  case scheduleIfRecv.isFalse hno =>
    -- the ACK calls the scheduler itself
    have hack := hrecv (hk.resolve_left hno)
    have hpending := hack.resolve_left hno
    omega
  case schedule.isFalse hno =>
    -- whoever has the lock finds that it was taken again
    rw [if_neg (by omega)] at hlock
    have hbefore := hr hne
    omega
  case scheduleOnce.isFalse hno =>
    have hfrags := hmay (by simpa using hno) (by omega) trivial
    omega
  case getSendRange =>
    have hrange : (!r.reqSendRanges.isEmpty) = true := by simpa using hne
    rw [if_pos hrange]
    omega
  case scheduleLoop.isFalse range _ _ hno =>
    cases range with
    | false =>
      have hbefore := hr hne
      simp only [Bool.false_eq_true, if_false] at hbefore
      omega
    | true =>
      have hfrags := hmay (by simpa using hno) (by omega) trivial
      omega
  case nextSendRange =>
    have hrange : (!r.dropRange.reqSendRanges.isEmpty) = true := by simpa using hne
    rw [if_pos hrange]
    omega
  all_goals
    first
    | omega
    | have hbefore := hr hne
      omega

end

theorem exec_left (h : exec t btl task r = some (r', [])) (hk : Knows t r task)
    {s c k : ℕ} (hlock : scheduler task + completing task + (s + c) + r.pmlCompletions
      = if r.reqLock = 0 then 0 else 1)
    (hrecv : t.reply.ackSent → r.reqRecv ∨ 0 < acks task + k)
    (hs : s = 0) (hc : c = 0) (hk0 : k = 0) :
    0 < r'.pmlCompletions ∨ r'.reqState ≠ 0 ∨ r'.reqBytesDelivered < t.reqBytesPacked := by
  unfold exec at h
  split at h
  all_goals grind [scheduler, completing, acks, Knows, unlessComplete]

theorem exec_pmlCompletions (h : exec t btl task r = some (r', new))
    (hr : r'.pmlCompletions ≠ r.pmlCompletions) : task = pmlComplete ∧ r' =
      { r with pmlCompletions := r.pmlCompletions + 1 } := by
  unfold exec at h
  split at h
  all_goals grind [copyInOut, advanceRange, dropRange]

theorem exec_enabled (t : Transfer) (task : SendTask) (r : SendRequest) :
    (exec t .outOfResource task r).isSome := by
  unfold exec
  split
  all_goals grind

end OpenMPI.Ob1

/-!
## A rendezvous send completes once

The last event finds the counters of the request where they belong, and whoever fails to take the
lock for it leaves a count behind that makes the holder look again.  So a transfer whose steps all
meet the condition completes its request once (`Transfer.completes_once`).  A PUT that gives up in a
transfer without an ACK queues a range nobody sends (`Transfer.not_completes_once`).
-/

namespace OpenMPI.Ob1

open Lib Lib.Pool SendTask SendRequest List

variable {t : Transfer} {btl : Btl} {task : SendTask} {r r' : SendRequest}
  {tasks new rest : List SendTask}

namespace Transfer

def allBytes (t : Transfer) : ℕ := t.eager + t.reply.bytes t.reqBytesPacked

structure Inv (t : Transfer) (r : SendRequest) (tasks : List SendTask) : Prop where
  state : r.reqState = (total states tasks : ℕ)
  bytes : r.reqBytesDelivered + r.rangeBytes + total (SendTask.bytes t) tasks
    = t.allBytes + total sentBytes tasks
  depth : (r.reqPipelineDepth.toNat + total uncounted tasks) % 2 ^ 64 = total frags tasks % 2 ^ 64
  lock_nonneg : 0 ≤ r.reqLock
  lock : total scheduler tasks + total completing tasks + r.pmlCompletions
    = if r.reqLock = 0 then 0 else 1
  recv : t.reply.ackSent → r.reqRecv ∨ 0 < total acks tasks
  knows : ∀ task ∈ tasks, Knows t r task
  wake : r.reqSendRanges ≠ [] → 0 < total waker tasks ∨ 0 < total active tasks ∨
    (2 ≤ r.reqLock ∧ 0 < total scheduler tasks) ∨ 0 < total completing tasks + r.pmlCompletions
  after : r.pmlCompletions ≠ 0 → r.reqState = 0 ∧ t.reqBytesPacked ≤ r.reqBytesDelivered
  left : tasks ≠ [] ∨ 0 < r.pmlCompletions ∨ r.reqState ≠ 0 ∨
    r.reqBytesDelivered < t.reqBytesPacked

theorem Inv.perm (h : Inv t r tasks) {tasks' : List SendTask} (hp : tasks ~ tasks') :
    Inv t r tasks' where
  state := by rw [← total_perm hp]; exact h.state
  bytes := by rw [← total_perm hp, ← total_perm hp]; exact h.bytes
  depth := by rw [← total_perm hp, ← total_perm hp]; exact h.depth
  lock_nonneg := h.lock_nonneg
  lock := by rw [← total_perm hp, ← total_perm hp]; exact h.lock
  recv := by rw [← total_perm hp]; exact h.recv
  knows := fun task hmem => h.knows task (hp.mem_iff.mpr hmem)
  wake := by
    rw [← total_perm hp, ← total_perm hp, ← total_perm hp, ← total_perm hp]
    exact h.wake
  after := h.after
  left := by
    refine h.left.imp_left fun hne => ?_
    rintro rfl
    exact hne hp.eq_nil

theorem scheduler_le (h : Inv t r tasks) : total scheduler tasks ≤ 1 := by
  have := h.lock
  split_ifs at this <;> omega

theorem frags_le_waker (task : SendTask) : frags task ≤ waker task := by
  cases task <;> simp [frags, waker]

theorem acks_le_waker (task : SendTask) : acks task ≤ waker task := by
  cases task <;> simp [acks, waker]

theorem active_le_scheduler (task : SendTask) : active task ≤ scheduler task := by
  cases task with
  | scheduleLoop range prevBytesRemaining numFail =>
    unfold active scheduler
    cases range <;> simp
  | _ => simp [active, scheduler]

theorem uncounted_le_scheduler (task : SendTask) : uncounted task ≤ scheduler task := by
  cases task <;> simp [uncounted, scheduler]

theorem Inv.exec (h : Inv t r (task :: rest)) (hexec : exec t btl task r = some (r', new))
    (hm : ∀ offset length, task = putCopyInOut offset length → r.reqRecv ∨ t.reply.ackSent)
    (hmt : r.reqThrottleSends → t.sendPipelineDepth ≠ 0) : Inv t r' (new ++ rest) := by
  have hk := h.knows task mem_cons_self
  have hsched := scheduler_le h
  have hlock := h.lock
  have hrecv := h.recv
  have hwake := h.wake
  have hdepth := h.depth
  have hstate := h.state
  have hbytes := h.bytes
  simp only [total_cons] at hsched hlock hrecv hwake hdepth hstate hbytes
  rw [show ∀ a b c d : ℕ, a + b + (c + d) = a + c + (b + d) by omega] at hlock
  have hstate' := exec_states hexec hstate
  have hle := exec_reqState_le hexec
  have hzero : r.reqState = 0 → r'.reqState = 0 := by omega
  have hdel := exec_delivered hexec
  have hlock' := exec_lock hexec h.lock_nonneg hlock
  refine ⟨?_, ?_, ?_, hlock'.1, ?_, ?_, ?_, ?_, ?_, ?_⟩
  · simpa using hstate'
  · simpa using exec_bytes hexec hk hbytes
  · simpa using exec_depth hexec hdepth
  · have := hlock'.2
    simp only [total_append]
    omega
  · intro hack
    simpa using exec_recv hexec (hrecv hack)
  · intro u hu
    rcases mem_append.mp hu with hu | hu
    · exact exec_knows_new hexec hk hm u hu
    · have hone : scheduler u ≤ total scheduler rest := le_total hu
      exact exec_knows_rest hexec (h.knows u (mem_cons_of_mem _ hu)) hzero (by omega)
  · simp only [total_append]
    have := exec_wake hexec hk h.lock_nonneg (total_mono frags_le_waker)
      (total_mono active_le_scheduler) (total_mono uncounted_le_scheduler)
      (total_mono acks_le_waker) hlock hdepth hrecv hmt hwake
    simpa using this
  · intro hdone
    by_cases hsame : r'.pmlCompletions = r.pmlCompletions
    · have := h.after (hsame ▸ hdone)
      exact ⟨hzero this.1, le_trans this.2 hdel⟩
    · obtain ⟨rfl, rfl⟩ := exec_pmlCompletions hexec hsame
      exact hk
  · rcases new with _ | ⟨u, new⟩
    · rcases rest with _ | ⟨u, rest⟩
      · exact .inr (exec_left hexec hk hlock hrecv rfl rfl rfl)
      · exact .inl (by simp)
    · exact .inl (by simp)

theorem total_reply {w : SendTask → ℕ} (hw : ∀ offset length, w (put false offset length) = 0)
    (u : SendTask) (puts : List (ℕ × ℕ)) :
    total w (u :: puts.map fun p => put false p.1 p.2) = w u := by
  rw [total_cons, total_eq_zero, add_zero]
  intro v hv
  obtain ⟨p, -, rfl⟩ := mem_map.mp hv
  exact hw _ _

theorem knows_reply {u : SendTask} (hu : ∀ r, Knows t r u) (puts : List (ℕ × ℕ)) :
    ∀ v ∈ u :: puts.map fun p => put false p.1 p.2, ∀ r, Knows t r v := by
  intro v hv r
  rcases mem_cons.mp hv with rfl | hv
  · exact hu r
  · obtain ⟨p, -, rfl⟩ := mem_map.mp hv
    trivial

theorem total_bytes_puts (puts : List (ℕ × ℕ)) :
    total (SendTask.bytes t) (puts.map fun p => put false p.1 p.2) = (puts.map Prod.snd).sum := by
  induction puts with
  | nil => rfl
  | cons p puts ih => simp [ih, SendTask.bytes]

/-- What an unhandled reply stands for. -/
structure Owes (t : Transfer) (tasks : List SendTask) : Prop where
  states : total states tasks = 1
  bytes : total (SendTask.bytes t) tasks = t.reply.bytes t.reqBytesPacked
  nothing : total sentBytes tasks = 0 ∧ total uncounted tasks = 0 ∧ total frags tasks = 0 ∧
    total scheduler tasks = 0 ∧ total completing tasks = 0
  acks : t.reply.ackSent → total acks tasks = 1
  knows : ∀ task ∈ tasks, ∀ r, Knows t r task

theorem reply_owes (t : Transfer) : Owes t t.reply.tasks := by
  rcases hr : t.reply with ⟨sendOffset, nordma, puts⟩ | ⟨first, puts⟩
  · refine ⟨total_reply (fun _ _ => rfl) _ _, ?_, ⟨total_reply (fun _ _ => rfl) _ _,
      total_reply (fun _ _ => rfl) _ _, total_reply (fun _ _ => rfl) _ _,
      total_reply (fun _ _ => rfl) _ _, total_reply (fun _ _ => rfl) _ _⟩,
      fun _ => total_reply (fun _ _ => rfl) _ _,
      @knows_reply t (.ack sendOffset nordma) (fun _ => trivial) puts⟩
    simp [hr, Reply.tasks, total_bytes_puts, SendTask.bytes, Reply.bytes]
  · refine ⟨total_reply (fun _ _ => rfl) _ _, ?_, ⟨total_reply (fun _ _ => rfl) _ _,
      total_reply (fun _ _ => rfl) _ _, total_reply (fun _ _ => rfl) _ _,
      total_reply (fun _ _ => rfl) _ _, total_reply (fun _ _ => rfl) _ _⟩,
      fun hack => ?_, @knows_reply t (.put true first.1 first.2) (fun _ => trivial) puts⟩
    · simp [hr, Reply.tasks, total_bytes_puts, SendTask.bytes, Reply.bytes]
    · rw [hr] at hack
      cases hack

theorem Inv.start (t : Transfer) : Inv t t.start.shared t.start.tasks := by
  have h := reply_owes t
  obtain ⟨h1, h2, h3, h4, h5⟩ := h.nothing
  unfold Transfer.start
  refine ⟨?_, ?_, ?_, Int.le_refl 0, ?_, ?_, ?_, ?_, ?_, ?_⟩
  · simp [h.states, SendTask.states]
  · simp [h.bytes, h1, SendTask.bytes, sentBytes, rangeBytes, allBytes]
  · simp [h2, h3, uncounted, frags]
  · simp [h4, h5, scheduler, completing]
  · intro hack
    simp [h.acks hack, acks]
  · intro u hu
    rcases mem_cons.mp hu with rfl | hu
    · trivial
    · exact h.knows u hu _
  · simp
  · simp
  · exact .inl (by simp)

theorem inv_of_reachable {p : Pool SendRequest SendTask}
    (h : (t.system.restrict t.Meets).Reachable p) : Inv t p.shared p.tasks := by
  refine @System.Reachable.invariant _ _ _ (fun p => Inv t p.shared p.tasks) (fun p hp => ?_)
    (fun p e p' hinv hstep => ?_) p h
  · obtain rfl : p = t.start := hp
    exact Inv.start t
  · obtain ⟨hmeets, hstep⟩ := hstep
    obtain ⟨task, rest, new, hget, hperm, hexec, htasks⟩ := step_cases hstep
    rw [htasks]
    refine (hinv.perm hperm).exec hexec ?_ hmeets.2
    rintro offset length rfl
    exact hmeets.1 offset length hget

theorem Inv.delivered_of_nil (h : Inv t r []) : r.pmlCompletions = 1 := by
  have hbytes := h.bytes
  have hstate := h.state
  have hlock := h.lock
  have hcovers := t.covers
  simp only [total_nil] at hbytes hstate hlock
  have hle : r.pmlCompletions ≤ 1 := by split_ifs at hlock <;> omega
  by_contra hne
  have hzero : r.pmlCompletions = 0 := by omega
  have hranges : r.reqSendRanges = [] := by
    by_contra hr
    have := h.wake hr
    simp only [total_nil] at this
    omega
  have hrange : r.rangeBytes = 0 := by simp [rangeBytes, hranges]
  unfold allBytes at hbytes
  rcases h.left with hleft | hleft | hleft | hleft
  · exact hleft rfl
  · omega
  · omega
  · omega

/-- Hundred bytes of which forty go with the header and sixty are sent after the ACK. -/
def copyTransfer : Transfer where
  reqBytesPacked := 100
  eager := 40
  reply := .ack 40 true []
  sendPipelineDepth := 3
  rdmaPutRetriesLimit := 5
  rangeBtlCnt := 1
  reqRecv := false
  reqThrottleSends := false
  offset_le := by decide
  covers := by decide

theorem meets_of_ackSent (h : t.reply.ackSent) (hd : t.sendPipelineDepth ≠ 0)
    (p : Pool SendRequest SendTask) (e : ℕ × Btl) : t.Meets p e :=
  ⟨fun _ _ _ => .inr h, fun _ => hd⟩

/-- Hundred bytes that the receiver fetches with one PUT and no ACK. -/
def putTransfer : Transfer where
  reqBytesPacked := 100
  eager := 0
  reply := .put (0, 100) []
  sendPipelineDepth := 3
  rdmaPutRetriesLimit := 5
  rangeBtlCnt := 1
  reqRecv := false
  reqThrottleSends := false
  offset_le := by decide
  covers := by decide

end Transfer

end OpenMPI.Ob1
