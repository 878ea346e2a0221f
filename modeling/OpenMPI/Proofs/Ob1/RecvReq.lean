import OpenMPI.Ob1.RecvReq

/-!
# One action of a receive's callbacks

Only the arrival of the message, the cancellation and the user's free act on a request that no message
has been matched to.  Every other action leaves the request matched, and keeps an account of who holds
its lock and who will look whether its bytes are there.
-/

namespace OpenMPI.Ob1

open Lib Lib.Pool RecvTask List Option

variable {c : Receive} {limit : UInt64} {peer : Peer} {task : RecvTask} {r r' : RecvReq}
  {tasks new rest : List RecvTask}

namespace RecvTask

def working : RecvTask → ℕ
  | arrive _ | cancel | cancelMatch | cancelComplete | free => 0
  | _ => 1

def early : RecvTask → ℕ
  | progress _ | matchedTag _ | matchReceived _ | requestAck .. => 1
  | _ => 0

def eagerly : RecvTask → ℕ
  | progress m | matchedTag m | matchReceived m => if m.isEager then 1 else 0
  | eagerUnpack _ | eagerReceived _ | eagerComplete => 1
  | _ => 0

def scheduling : RecvTask → ℕ
  | scheduleOnce | scheduleLoop .. | sendPut .. | putSent .. | unlock | recvPending => 1
  | _ => 0

def finishing : RecvTask → ℕ
  | pmlComplete => 1
  | _ => 0

def checker : RecvTask → ℕ
  | progress _ | matchedTag _ | matchReceived _ | requestAck .. | eagerUnpack _ | eagerReceived _
  | eagerComplete | unpack _ | addReceived .. | getFrag _ | rgetCompletion _ | putCompletion _ | checkReceived _ | checkLock _ | pmlComplete | scheduleOnce
  | scheduleLoop .. | sendPut .. | putSent .. | unlock | recvPending => 1
  | _ => 0

def cancelling : RecvTask → ℕ
  | cancelComplete => 1
  | _ => 0

end RecvTask

namespace Receive

def isEager (c : Receive) : Bool := c.message.any Message.isEager

def Knows (c : Receive) (r : RecvReq) : RecvTask → Prop
  | arrive m => c.message = some m
  | progress m => r.matched = true ∧ c.message = some m
  | matchedTag m | matchReceived m =>
    r.matched = true ∧ c.message = some m ∧ r.reqBytesPacked = m.packed
  | eagerUnpack _ | eagerReceived _ | eagerComplete => r.matched = true ∧ c.isEager = true
  | requestAck _ bytes => r.matched = true ∧ c.isEager = false ∧ r.reqMatchReceived = true ∧
    (bytes = none → 0 < r.reqBytesPacked)
  | cancelComplete => r.posted = false ∧ r.matched = false
  | cancel | cancelMatch | free => True
  | _ => r.matched = true ∧ c.isEager = false ∧ r.reqMatchReceived = true

theorem Knows.matched (hk : c.Knows r task) (h : working task = 1) : r.matched = true := by
  cases task
  case arrive | cancel | cancelMatch | cancelComplete | free => cases h
  all_goals exact hk.1

end Receive

namespace RecvReq

variable (r : RecvReq)

structure Finished (r r' : RecvReq) : Prop where
  posted : r'.posted = r.posted
  matched : r'.matched = r.matched
  cancelled : r'.cancelled = r.cancelled
  reqFreeCalled : r'.reqFreeCalled = r.reqFreeCalled
  reqMatchReceived : r'.reqMatchReceived = r.reqMatchReceived
  reqLock : r'.reqLock = r.reqLock
  reqBytesPacked : r'.reqBytesPacked = r.reqBytesPacked
  reqBytesReceived : r'.reqBytesReceived = r.reqBytesReceived
  pmlCompletions : r'.pmlCompletions = r.pmlCompletions + 1

theorem finished_recvPmlComplete : Finished r r.recvPmlComplete := by
  unfold recvPmlComplete
  dsimp only
  split_ifs <;> exact ⟨rfl, rfl, rfl, rfl, rfl, rfl, rfl, rfl, rfl⟩

theorem recvPmlComplete_mpi (h : r.reqFreeCalled = false) :
    r.recvPmlComplete.mpiCompletions = r.mpiCompletions + 1 ∧ r.recvPmlComplete.reqComplete = true := by
  unfold recvPmlComplete
  dsimp only
  rw [h]
  exact ⟨rfl, rfl⟩

end RecvReq

def Answers (answers : List RecvTask) : Prop :=
  ∀ t ∈ answers, (∃ size, t = putCompletion size) ∨ ∃ size, t = unpack size

theorem Answers.total {answers : List RecvTask} (h : Answers answers) {w : RecvTask → ℕ}
    (hput : ∀ size, w (putCompletion size) = 0) (hunpack : ∀ size, w (unpack size) = 0) :
    total w answers = 0 := by
  refine total_eq_zero fun t ht => ?_
  obtain ⟨size, rfl⟩ | ⟨size, rfl⟩ := h t ht
  · exact hput size
  · exact hunpack size

theorem answers_unpack (fragments : List ℕ) : Answers (fragments.map unpack) := by
  intro t ht
  obtain ⟨size, -, rfl⟩ := mem_map.mp ht
  exact .inr ⟨size, rfl⟩

theorem sendPut_cases {bytesRemaining prevBytesRemaining numFail : ℕ}
    (h : recvExec limit peer (sendPut bytesRemaining prevBytesRemaining numFail) r = some (r', new)) :
    ∃ ackSent task answers, r' = { r with reqAckSent := ackSent } ∧ new = task :: answers ∧
      Answers answers ∧ scheduling task = 1 ∧ finishing task = 0 ∧ eagerly task = 0 ∧ early task = 0 ∧
        cancelling task = 0 := by
  simp only [recvExec] at h
  cases peer with
  | noDescriptor =>
    cases h
    exact ⟨_, _, [], rfl, rfl, by simp [Answers], rfl, rfl, rfl, rfl, rfl⟩
  | outOfResource =>
    cases h
    exact ⟨_, _, [], rfl, rfl, by simp [Answers], rfl, rfl, rfl, rfl, rfl⟩
  | fin size =>
    simp only at h
    split_ifs at h
    cases h
    refine ⟨_, _, [putCompletion size], rfl, rfl, fun t ht => .inl ⟨size, ?_⟩, rfl, rfl, rfl, rfl,
      rfl⟩
    simpa using ht
  | frags size fragments =>
    simp only at h
    split_ifs at h
    cases h
    exact ⟨_, _, fragments.map unpack, rfl, rfl, answers_unpack fragments, rfl, rfl, rfl, rfl,
      rfl⟩

theorem recvExec_frame (h : recvExec limit peer task r = some (r', new)) (hw : working task = 1) :
    r'.posted = r.posted ∧ r'.matched = r.matched ∧ r'.cancelled = r.cancelled ∧
      r'.reqFreeCalled = r.reqFreeCalled := by
  cases task
  case arrive | cancel | cancelMatch | cancelComplete | free => cases hw
  case sendPut =>
    obtain ⟨ackSent, task, answers, rfl, -⟩ := sendPut_cases h
    exact ⟨rfl, rfl, rfl, rfl⟩
  case eagerComplete | pmlComplete =>
    obtain ⟨rfl, -⟩ := Prod.mk.inj (Option.some.inj h)
    have hsame := r.finished_recvPmlComplete
    exact ⟨hsame.posted, hsame.matched, hsame.cancelled, hsame.reqFreeCalled⟩
  all_goals
    obtain ⟨rfl, -⟩ := Prod.mk.inj (Option.some.inj h)
    exact ⟨rfl, rfl, rfl, rfl⟩

theorem afterMatch_cases (m : Message) :
    (∃ bytes, afterMatch m = eagerUnpack bytes ∧ m.isEager = true) ∨
      (∃ hdr bytes, afterMatch m = requestAck hdr bytes ∧ m.isEager = false ∧
        (bytes = none → ∃ tag hdr, m = .rget tag hdr)) ∨
      ∃ bytes, afterMatch m = getFrag bytes ∧ m.isEager = false := by
  cases m with
  | eager tag bytes => exact .inl ⟨bytes, rfl, rfl⟩
  | rndv tag hdr => exact .inr (.inl ⟨hdr, _, rfl, rfl, fun h => by cases h⟩)
  | rget tag hdr =>
    unfold afterMatch
    dsimp only
    split_ifs
    · exact .inr (.inl ⟨_, none, rfl, rfl, fun _ => ⟨tag, hdr, rfl⟩⟩)
    · exact .inr (.inr ⟨_, rfl, rfl⟩)

theorem total_fragments {w : RecvTask → ℕ} (hunpack : ∀ size, w (unpack size) = 0) (ackSent : Bool)
    (fragments : List ℕ) : total w (if ackSent then fragments.map unpack else []) = 0 := by
  split_ifs
  · refine total_eq_zero fun t ht => ?_
    obtain ⟨size, -, rfl⟩ := mem_map.mp ht
    exact hunpack size
  · rfl

section

variable (h : recvExec limit peer task r = some (r', new)) (hw : working task = 1)

include h hw

theorem recvExec_early :
    total cancelling new = 0 ∧ total early new ≤ early task ∧
      (0 < total early new → r'.reqBytesReceived = r.reqBytesReceived ∧ total working new = 1) := by
  cases task
  case arrive | cancel | cancelMatch | cancelComplete | free => cases hw
  case sendPut =>
    obtain ⟨ackSent, task, answers, -, rfl, hanswers, -, -, -, hearly, hcancelling⟩ := sendPut_cases h
    have h1 : total cancelling answers = 0 := hanswers.total (fun _ => rfl) fun _ => rfl
    have h2 : total early answers = 0 := hanswers.total (fun _ => rfl) fun _ => rfl
    simp [hearly, hcancelling, h1, h2]
  case matchReceived m =>
    cases h
    rcases afterMatch_cases m with ⟨bytes, h, -⟩ | ⟨hdr, bytes, h, -⟩ | ⟨bytes, h, -⟩ <;>
      simp [h, cancelling, early, working]
  case requestAck hdr bytes =>
    obtain ⟨-, rfl⟩ := Prod.mk.inj (Option.some.inj h)
    have h1 := @total_fragments cancelling (fun _ => rfl) hdr.ackSent peer.fragments
    have h2 := @total_fragments early (fun _ => rfl) hdr.ackSent peer.fragments
    cases bytes with
    | none => simp [h1, h2]
    | some bytes =>
      simp only [map_some, toList_some, total_append, h1, h2]
      split_ifs <;> simp [cancelling, early]
  all_goals
    cases h
    try unfold unlessComplete
    repeat' split
    all_goals simp [cancelling, early, working]

/-- The lock is taken by the scheduler or by the completion, which keeps it; a message that is one
fragment needs none. -/
theorem recvExec_lock (hk : c.Knows r task) {n : ℕ} (h0 : 0 ≤ r.reqLock)
    (hr : scheduling task + finishing task + eagerly task + n + r.pmlCompletions
      = if r.reqLock = 0 ∧ c.isEager = false then 0 else 1) :
    0 ≤ r'.reqLock ∧
      total scheduling new + total finishing new + total eagerly new + n + r'.pmlCompletions
        = if r'.reqLock = 0 ∧ c.isEager = false then 0 else 1 := by
  cases task
  case arrive | cancel | cancelMatch | cancelComplete | free => cases hw
  case sendPut =>
    obtain ⟨ackSent, task, answers, rfl, rfl, hanswers, hsched, hfinish, heager, -⟩ := sendPut_cases h
    have h1 : total scheduling answers = 0 := hanswers.total (fun _ => rfl) fun _ => rfl
    have h2 : total finishing answers = 0 := hanswers.total (fun _ => rfl) fun _ => rfl
    have h3 : total eagerly answers = 0 := hanswers.total (fun _ => rfl) fun _ => rfl
    simp only [total_cons, hsched, hfinish, heager, h1, h2, h3]
    exact ⟨h0, hr⟩
  case eagerComplete | pmlComplete =>
    cases h
    have hsame := r.finished_recvPmlComplete
    rw [hsame.reqLock, hsame.pmlCompletions]
    simp only [scheduling, finishing, eagerly, total_nil] at hr ⊢
    exact ⟨h0, by omega⟩
  case matchReceived m =>
    cases h
    refine ⟨h0, ?_⟩
    show _ = if r.reqLock = 0 ∧ c.isEager = false then 0 else 1
    rw [← hr]
    rcases afterMatch_cases m with ⟨bytes, h, hm⟩ | ⟨hdr, bytes, h, hm, -⟩ | ⟨bytes, h, hm⟩ <;>
      simp [h, hm, scheduling, finishing, eagerly]
  case requestAck hdr bytes =>
    cases h
    have h1 := @total_fragments scheduling (fun _ => rfl) hdr.ackSent peer.fragments
    have h2 := @total_fragments finishing (fun _ => rfl) hdr.ackSent peer.fragments
    have h3 := @total_fragments eagerly (fun _ => rfl) hdr.ackSent peer.fragments
    refine ⟨h0, ?_⟩
    show _ = if r.reqLock = 0 ∧ c.isEager = false then 0 else 1
    rw [← hr]
    simp only [total_append, h1, h2, h3]
    cases bytes with
    | none => rfl
    | some bytes =>
      simp only [map_some, toList_some]
      split_ifs <;> simp [scheduling, finishing, eagerly]
  case checkLock orSchedule | schedule =>
    cases h
    obtain ⟨-, heager, -⟩ := hk
    have hpos : r.reqLock + 1 ≠ 0 := by omega
    simp only [heager, and_true, scheduling, finishing, eagerly] at hr ⊢
    refine ⟨by omega, ?_⟩
    rw [if_neg hpos]
    try unfold unlessComplete
    rcases eq_or_ne r.reqLock 0 with hzero | hne
    · rw [if_pos hzero] at hr
      simp [hzero, scheduling, finishing, eagerly]
      omega
    · rw [if_neg hne] at hr
      rw [if_neg (by omega)]
      repeat' split
      all_goals
        simp only [total_cons, total_nil, scheduling, finishing, eagerly]
        omega
  case unlock =>
    cases h
    obtain ⟨-, heager, -⟩ := hk
    simp only [heager, and_true, scheduling, finishing, eagerly] at hr ⊢
    have hlock : r.reqLock ≠ 0 := by
      intro hzero
      rw [if_pos hzero] at hr
      omega
    rw [if_neg hlock] at hr
    refine ⟨by omega, ?_⟩
    split_ifs
    all_goals
      simp only [total_cons, total_nil, scheduling, finishing, eagerly]
      omega
  all_goals
    cases h
    refine ⟨h0, ?_⟩
    show _ = if r.reqLock = 0 ∧ c.isEager = false then 0 else 1
    rw [← hr]
    try unfold unlessComplete
    repeat' split
    all_goals simp [scheduling, finishing, eagerly]

theorem recvExec_completions (hfree : task = pmlComplete ∨ task = eagerComplete → r.reqFreeCalled = false) :
    (r'.pmlCompletions = r.pmlCompletions ∧ r'.mpiCompletions = r.mpiCompletions ∧
      r'.reqComplete = r.reqComplete) ∨
    (r'.pmlCompletions = r.pmlCompletions + 1 ∧ r'.mpiCompletions = r.mpiCompletions + 1 ∧
      r'.reqComplete = true) := by
  cases task
  case arrive | cancel | cancelMatch | cancelComplete | free => cases hw
  case sendPut =>
    obtain ⟨ackSent, task, answers, rfl, -⟩ := sendPut_cases h
    exact .inl ⟨rfl, rfl, rfl⟩
  case eagerComplete | pmlComplete =>
    obtain ⟨rfl, -⟩ := Prod.mk.inj (Option.some.inj h)
    obtain ⟨hmpi, hcomplete⟩ := r.recvPmlComplete_mpi (hfree (by simp))
    exact .inr ⟨r.finished_recvPmlComplete.pmlCompletions, hmpi, hcomplete⟩
  all_goals
    obtain ⟨rfl, -⟩ := Prod.mk.inj (Option.some.inj h)
    exact .inl ⟨rfl, rfl, rfl⟩

theorem recvExec_packed :
    (early task = 1 ∨ r'.reqBytesPacked = r.reqBytesPacked) ∧
      (r.reqMatchReceived = true → r'.reqMatchReceived = true) := by
  cases task
  case arrive | cancel | cancelMatch | cancelComplete | free => cases hw
  case sendPut =>
    obtain ⟨ackSent, task, answers, rfl, -⟩ := sendPut_cases h
    exact ⟨.inr rfl, id⟩
  case eagerComplete | pmlComplete =>
    obtain ⟨rfl, -⟩ := Prod.mk.inj (Option.some.inj h)
    have hsame := r.finished_recvPmlComplete
    exact ⟨.inr hsame.reqBytesPacked, fun h => hsame.reqMatchReceived.trans h⟩
  case progress | matchedTag | requestAck =>
    obtain ⟨rfl, -⟩ := Prod.mk.inj (Option.some.inj h)
    exact ⟨.inl rfl, id⟩
  case matchReceived =>
    obtain ⟨rfl, -⟩ := Prod.mk.inj (Option.some.inj h)
    exact ⟨.inl rfl, fun _ => rfl⟩
  all_goals
    obtain ⟨rfl, -⟩ := Prod.mk.inj (Option.some.inj h)
    exact ⟨.inr rfl, id⟩

theorem recvExec_knows_rest {u : RecvTask} (hk : c.Knows r u) (halone : early task = 1 → working u = 0) :
    c.Knows r' u := by
  obtain ⟨hposted, hmatched, -⟩ := recvExec_frame h hw
  obtain ⟨hpacked, hreceived⟩ := recvExec_packed h hw
  have hsame (hu : working u = 1) : r'.reqBytesPacked = r.reqBytesPacked := by
    refine hpacked.resolve_left fun hearly => ?_
    rw [halone hearly] at hu
    cases hu
  cases u
  case arrive | cancel | cancelMatch | free => exact hk
  case cancelComplete => exact ⟨hposted.trans hk.1, hmatched.trans hk.2⟩
  case progress | eagerUnpack | eagerReceived | eagerComplete => exact ⟨hmatched.trans hk.1, hk.2⟩
  case matchedTag | matchReceived =>
    exact ⟨hmatched.trans hk.1, hk.2.1, (hsame rfl).trans hk.2.2⟩
  case requestAck =>
    exact ⟨hmatched.trans hk.1, hk.2.1, hreceived hk.2.2.1, fun hnone => (hsame rfl) ▸ hk.2.2.2 hnone⟩
  all_goals exact ⟨hmatched.trans hk.1, hk.2.1, hreceived hk.2.2⟩

end

theorem Receive.isEager_eq {m : Message} (h : c.message = some m) : c.isEager = m.isEager := by
  rw [Receive.isEager, h]
  rfl

theorem Receive.packed_pos {tag : ℤ} {hdr : Rendezvous} (h : c.message = some (.rget tag hdr)) :
    0 < (Message.rget tag hdr).packed := by
  have := c.rget_pos tag hdr h
  rw [UInt64.lt_iff_toNat_lt] at this
  exact this

theorem recvExec_knows_new (h : recvExec limit peer task r = some (r', new)) (hw : working task = 1)
    (hk : c.Knows r task) : ∀ u ∈ new, c.Knows r' u := by
  cases task
  case arrive | cancel | cancelMatch | cancelComplete | free => cases hw
  case progress m =>
    cases h
    obtain ⟨hmatched, hmessage⟩ := hk
    exact forall_mem_singleton.mpr ⟨hmatched, hmessage, rfl⟩
  case matchedTag m =>
    cases h
    exact forall_mem_singleton.mpr hk
  case matchReceived m =>
    cases h
    obtain ⟨hmatched, hmessage, hpacked⟩ := hk
    have heager := Receive.isEager_eq hmessage
    rw [forall_mem_singleton]
    rcases afterMatch_cases m with ⟨bytes, h, hm⟩ | ⟨hdr, bytes, h, hm, hnone⟩ | ⟨bytes, h, hm⟩ <;> rw [h]
    · exact ⟨hmatched, heager.trans hm⟩
    · refine ⟨hmatched, heager.trans hm, rfl, fun hb => ?_⟩
      obtain ⟨tag, hdr, rfl⟩ := hnone hb
      exact hpacked ▸ Receive.packed_pos hmessage
    · exact ⟨hmatched, heager.trans hm, rfl⟩
  case eagerUnpack | eagerReceived =>
    cases h
    exact forall_mem_singleton.mpr hk
  case eagerComplete | pmlComplete =>
    cases h
    exact fun u hu => nomatch hu
  case requestAck hdr bytes =>
    cases h
    obtain ⟨hmatched, heager, hreceived, -⟩ := hk
    intro u hu
    rcases mem_append.mp hu with hu | hu
    · rw [mem_toList, map_eq_some_iff] at hu
      obtain ⟨bytes, -, rfl⟩ := hu
      split_ifs <;> exact ⟨hmatched, heager, hreceived⟩
    · split_ifs at hu
      · obtain ⟨size, -, rfl⟩ := mem_map.mp hu
        exact ⟨hmatched, heager, hreceived⟩
      · cases hu
  case sendPut =>
    obtain ⟨ackSent, task, answers, rfl, rfl, hanswers, hsched, -⟩ := sendPut_cases h
    obtain ⟨hmatched, heager, hreceived⟩ := hk
    intro u hu
    rcases mem_cons.mp hu with rfl | hu
    · cases u <;> first | exact ⟨hmatched, heager, hreceived⟩ | cases hsched
    · obtain ⟨size, rfl⟩ | ⟨size, rfl⟩ := hanswers u hu <;> exact ⟨hmatched, heager, hreceived⟩
  all_goals
    cases h
    obtain ⟨hmatched, heager, hreceived⟩ := hk
    try unfold unlessComplete
    repeat' split
    all_goals
      first
      | exact forall_mem_singleton.mpr ⟨hmatched, heager, hreceived⟩
      | exact fun u hu => nomatch hu

theorem scheduling_le_checker (task : RecvTask) : scheduling task ≤ checker task := by
  cases task <;> simp [scheduling, checker]

theorem finishing_le_checker (task : RecvTask) : finishing task ≤ checker task := by
  cases task <;> simp [finishing, checker]

theorem eagerly_le_checker (task : RecvTask) : eagerly task ≤ checker task := by
  cases task
  case progress | matchedTag | matchReceived =>
    simp only [eagerly, checker]
    split_ifs <;> omega
  all_goals simp [eagerly, checker]

theorem scheduling_le_working (task : RecvTask) : scheduling task ≤ working task := by
  cases task <;> simp [scheduling, working]

theorem finishing_le_working (task : RecvTask) : finishing task ≤ working task := by
  cases task <;> simp [finishing, working]

theorem eagerly_le_working (task : RecvTask) : eagerly task ≤ working task := by
  cases task
  case progress | matchedTag | matchReceived =>
    simp only [eagerly, working]
    split_ifs <;> omega
  all_goals simp [eagerly, working]

theorem early_le_working (task : RecvTask) : early task ≤ working task := by
  cases task <;> simp [early, working]

theorem checker_le_working (task : RecvTask) : checker task ≤ working task := by
  cases task <;> simp [checker, working]

/-- Somebody will look whether the bytes are there until the request is completed or some are
missing; whoever fails to take the lock leaves it to the one that has it. -/
theorem recvExec_left (h : recvExec limit peer task r = some (r', new)) (hw : working task = 1)
    (hk : c.Knows r task) {n k : ℕ} (hn : n ≤ k + k + k)
    (hr : scheduling task + finishing task + eagerly task + n + r.pmlCompletions
      = if r.reqLock = 0 ∧ c.isEager = false then 0 else 1)
    (hnone : early task = 1 → r.reqBytesReceived = 0)
    (hleft : 0 < checker task + k ∨ 0 < r.pmlCompletions ∨ r.reqBytesReceived < r.reqBytesPacked) :
    0 < total checker new + k ∨ 0 < r'.pmlCompletions ∨
      r'.reqBytesReceived < r'.reqBytesPacked := by
  cases task
  case arrive | cancel | cancelMatch | cancelComplete | free => cases hw
  case sendPut =>
    obtain ⟨ackSent, task, answers, rfl, rfl, -, hsched, -⟩ := sendPut_cases h
    have := scheduling_le_checker task
    simp only [total_cons]
    omega
  case eagerComplete | pmlComplete =>
    obtain ⟨rfl, -⟩ := Prod.mk.inj (Option.some.inj h)
    have := r.finished_recvPmlComplete.pmlCompletions
    omega
  case matchReceived m =>
    cases h
    left
    rcases afterMatch_cases m with ⟨bytes, h, -⟩ | ⟨hdr, bytes, h, -⟩ | ⟨bytes, h, -⟩ <;>
      (rw [h, total_cons]; simp only [checker]; omega)
  case requestAck hdr bytes =>
    cases h
    cases bytes with
    | none =>
      -- nothing came with the match, and the message is not empty
      have hpos := hk.2.2.2 rfl
      have := hnone rfl
      exact .inr (.inr (by simpa [this] using hpos))
    | some bytes =>
      left
      simp only [map_some, toList_some, total_append]
      split_ifs <;> (simp only [total_cons, checker]; omega)
  case checkReceived orSchedule =>
    cases h
    obtain ⟨-, -, hreceived⟩ := hk
    rcases lt_or_ge r.reqBytesReceived r.reqBytesPacked with hlt | hge
    · exact .inr (.inr hlt)
    · rw [if_pos ⟨hreceived, hge⟩, total_cons]
      simp only [checker]
      omega
  case checkLock orSchedule =>
    cases h
    rcases eq_or_ne r.reqLock 0 with hzero | hne
    · rw [if_pos (by omega), total_cons]
      simp only [checker]
      omega
    · rw [if_neg fun h => hne h.1] at hr
      simp only [scheduling, finishing, eagerly] at hr
      have hheld : 0 < k ∨ 0 < r.pmlCompletions := by omega
      exact hheld.imp (Nat.lt_add_left _) .inl
  case unlock =>
    cases h
    left
    split_ifs <;> (simp only [total_cons, checker]; omega)
  case testOffset | schedule =>
    cases h
    simp only [checker, zero_add] at hleft
    refine hleft.imp_left fun hk => ?_
    omega
  all_goals
    cases h
    left
    repeat' split
    all_goals
      simp only [total_cons, checker]
      omega

end OpenMPI.Ob1

/-!
## Cancelling a receive

A cancellation that finds the request among the posted ones completes it, and no message will be
matched to it; otherwise it is left to the callbacks, one of which completes it.  So a receive that is
cancelled only while it is posted is safe (`Receive.safe`).  After the match the cancellation completes
a request that the callbacks complete once more (`Receive.not_safe`).
-/

namespace OpenMPI.Ob1

open Lib Lib.Pool RecvTask RecvReq List

variable {c : Receive} {limit : UInt64} {peer : Peer} {task : RecvTask} {r r' : RecvReq}
  {tasks new rest : List RecvTask}

namespace Receive

structure Inv (c : Receive) (r : RecvReq) (tasks : List RecvTask) : Prop where
  posted : r.posted = true → r.mpiTag = anyTag ∧ r.matched = false
  unmatched : r.matched = false → total working tasks = 0 ∧ r.userBytes = 0 ∧ r.pmlCompletions = 0 ∧
    r.reqLock = 0 ∧ r.reqBytesReceived = 0
  early : 0 < total early tasks → total working tasks = 1 ∧ r.reqBytesReceived = 0
  completions : r.mpiCompletions + total cancelling tasks
    = r.pmlCompletions + if r.posted = false ∧ r.matched = false then 1 else 0
  cancelled : r.cancelled = true → r.posted = false ∧ r.matched = false
  reqComplete : r.reqComplete = true → 0 < r.mpiCompletions
  reqFreeCalled : r.reqFreeCalled = true → r.reqComplete = true
  lock_nonneg : 0 ≤ r.reqLock
  lock : r.matched = true → total scheduling tasks + total finishing tasks + total eagerly tasks
    + r.pmlCompletions = if r.reqLock = 0 ∧ c.isEager = false then 0 else 1
  knows : ∀ task ∈ tasks, Knows c r task
  left : r.matched = true → 0 < total checker tasks ∨ 0 < r.pmlCompletions ∨
    r.reqBytesReceived < r.reqBytesPacked

theorem Inv.perm (h : Inv c r tasks) {tasks' : List RecvTask} (hp : tasks ~ tasks') :
    Inv c r tasks' :=
  { h with
    unmatched := by rw [← total_perm hp]; exact h.unmatched
    early := by rw [← total_perm hp, ← total_perm hp]; exact h.early
    completions := by rw [← total_perm hp]; exact h.completions
    lock := by rw [← total_perm hp, ← total_perm hp, ← total_perm hp]; exact h.lock
    knows := fun task hmem => h.knows task (hp.mem_iff.mpr hmem)
    left := by rw [← total_perm hp]; exact h.left }

theorem Inv.no_work (h : Inv c r tasks) (hmatched : r.matched = false) :
    total scheduling tasks = 0 ∧ total finishing tasks = 0 ∧ total eagerly tasks = 0 ∧
      total RecvTask.early tasks = 0 := by
  obtain ⟨hwork, -⟩ := h.unmatched hmatched
  have h1 := @total_mono _ working tasks _ scheduling_le_working
  have h2 := @total_mono _ working tasks _ finishing_le_working
  have h3 := @total_mono _ working tasks _ eagerly_le_working
  have h4 := @total_mono _ working tasks _ early_le_working
  omega

theorem Inv.pml_le (h : Inv c r tasks) : r.pmlCompletions ≤ 1 := by
  rcases hm : r.matched with _ | _
  · have := (h.unmatched hm).2.2.1
    omega
  · have := h.lock hm
    split_ifs at this <;> omega

theorem Inv.not_freed (h : Inv c r (task :: rest)) (ht : task = pmlComplete ∨ task = eagerComplete) :
    r.reqFreeCalled = false := by
  have hmatched : r.matched = true := by
    have hk := h.knows task mem_cons_self
    rcases ht with rfl | rfl <;> exact hk.1
  have hlock := h.lock hmatched
  have hcompletions := h.completions
  have hone : 1 ≤ finishing task + eagerly task := by rcases ht with rfl | rfl <;> decide
  rw [if_neg (by simp [hmatched])] at hcompletions
  by_contra hfreed
  have hmpi := h.reqComplete (h.reqFreeCalled (by simpa using hfreed))
  simp only [total_cons] at hlock
  split_ifs at hlock <;> omega

theorem Inv.callback (h : Inv c r (task :: rest)) (hexec : recvExec limit peer task r = some (r', new))
    (hw : working task = 1) : Inv c r' (new ++ rest) := by
  have hk := h.knows task mem_cons_self
  have hmatched := hk.matched hw
  obtain ⟨hposted', hmatched', hcancelled', hfreed'⟩ := recvExec_frame hexec hw
  obtain ⟨hcancelling, hearly, hnew⟩ := recvExec_early hexec hw
  have halone : RecvTask.early task = 1 → total working rest = 0 ∧ r.reqBytesReceived = 0 := by
    intro he
    have := h.early (by rw [total_cons]; omega)
    rw [total_cons] at this
    omega
  have hrest : 0 < total RecvTask.early rest → False := by
    intro he
    have := h.early (by rw [total_cons]; omega)
    have hle := @total_mono _ working rest _ early_le_working
    rw [total_cons] at this
    omega
  have hlock := h.lock hmatched
  have hleft := h.left hmatched
  have hcompletions := h.completions
  have hcancel : cancelling task = 0 := by
    cases task <;> first | rfl | cases hw
  simp only [total_cons] at hlock hleft hcompletions
  have hfree : task = pmlComplete ∨ task = eagerComplete → r.reqFreeCalled = false := fun ht =>
    h.not_freed ht
  have hsame := recvExec_completions hexec hw hfree
  have hn : total scheduling rest + total finishing rest + total eagerly rest
      ≤ total checker rest + total checker rest + total checker rest := by
    have h1 := @total_mono _ checker rest _ scheduling_le_checker
    have h2 := @total_mono _ checker rest _ finishing_le_checker
    have h3 := @total_mono _ checker rest _ eagerly_le_checker
    omega
  rw [show ∀ a b c d e f : ℕ, a + b + (c + d) + (e + f) = a + c + e + (b + d + f) by omega] at hlock
  have hlock' := recvExec_lock hexec hw hk h.lock_nonneg hlock
  have hleft' := recvExec_left hexec hw hk hn hlock (fun he => (halone he).2) hleft
  refine ⟨fun hp => ?_, fun hm => ?_, fun he => ?_, ?_, fun hc => ?_, fun hc => ?_, fun hf => ?_,
    hlock'.1, fun _ => ?_, ?_, fun _ => ?_⟩
  · have := (h.posted (hposted' ▸ hp)).2
    rw [hmatched] at this
    cases this
  · rw [hmatched', hmatched] at hm
    cases hm
  · rw [total_append] at he ⊢
    have : 0 < total RecvTask.early new := by
      by_contra hzero
      exact hrest (by omega)
    obtain ⟨hreceived, hone⟩ := hnew this
    have hle : RecvTask.early task ≤ working task := early_le_working task
    have := halone (by omega)
    omega
  · rw [if_neg (by simp [hmatched])] at hcompletions
    rw [total_append, hcancelling, if_neg (by simp [hmatched', hmatched])]
    omega
  · have := (h.cancelled (hcancelled' ▸ hc)).2
    rw [hmatched] at this
    cases this
  · rcases hsame with ⟨-, hmpi, hcomplete⟩ | ⟨-, hmpi, -⟩
    · have := h.reqComplete (hcomplete ▸ hc)
      omega
    · omega
  · have hc := h.reqFreeCalled (hfreed' ▸ hf)
    rcases hsame with ⟨-, -, hcomplete⟩ | ⟨-, -, hcomplete⟩
    · exact hcomplete.trans hc
    · exact hcomplete
  · have := hlock'.2
    simp only [total_append]
    omega
  · intro u hu
    rcases mem_append.mp hu with hu | hu
    · exact recvExec_knows_new hexec hw hk u hu
    · refine recvExec_knows_rest hexec hw (h.knows u (mem_cons_of_mem _ hu)) fun he => ?_
      have hle : working u ≤ total working rest := le_total hu
      have := halone he
      omega
  · rw [total_append]
    exact hleft'

theorem Inv.idle_iff (hw : working task = 0) (hc : cancelling task = 0) :
    Inv c r (task :: rest) ↔ Inv c r rest ∧ Knows c r task := by
  have h1 : total working (task :: rest) = total working rest := by rw [total_cons, hw, zero_add]
  have h2 : total cancelling (task :: rest) = total cancelling rest := by
    rw [total_cons, hc, zero_add]
  have hsame {w : RecvTask → ℕ} (hle : w task ≤ working task) : total w (task :: rest) = total w rest := by
    rw [total_cons]
    omega
  have h3 := hsame (early_le_working task)
  have h4 := hsame (scheduling_le_working task)
  have h5 := hsame (finishing_le_working task)
  have h6 := hsame (eagerly_le_working task)
  have h7 := hsame (checker_le_working task)
  constructor
  · rintro ⟨hposted, hunmatched, hearly, hcompletions, hcancelled, hcomplete, hfreed, hlock, hholds,
      hknows, hleft⟩
    rw [h1] at hunmatched
    rw [h1, h3] at hearly
    rw [h2] at hcompletions
    rw [h4, h5, h6] at hholds
    rw [h7] at hleft
    exact ⟨⟨hposted, hunmatched, hearly, hcompletions, hcancelled, hcomplete, hfreed, hlock, hholds,
      fun u hu => hknows u (mem_cons_of_mem _ hu), hleft⟩, hknows task mem_cons_self⟩
  · rintro ⟨⟨hposted, hunmatched, hearly, hcompletions, hcancelled, hcomplete, hfreed, hlock, hholds,
      hknows, hleft⟩, hk⟩
    rw [← h1] at hunmatched
    rw [← h1, ← h3] at hearly
    rw [← h2] at hcompletions
    rw [← h4, ← h5, ← h6] at hholds
    rw [← h7] at hleft
    exact ⟨hposted, hunmatched, hearly, hcompletions, hcancelled, hcomplete, hfreed, hlock, hholds,
      forall_mem_cons.mpr ⟨hk, hknows⟩, hleft⟩

theorem Inv.arrive {m : Message} (h : Inv c r (RecvTask.arrive m :: rest)) (hposted : r.posted = true) :
    Inv c { r with posted := false, matched := true } (progress m :: rest) := by
  have hmessage : c.message = some m := h.knows (RecvTask.arrive m) mem_cons_self
  have hrest := ((Inv.idle_iff rfl rfl).mp h).1
  obtain ⟨-, hmatched⟩ := h.posted hposted
  obtain ⟨hwork, -, hpml, hlock, hreceived⟩ := hrest.unmatched hmatched
  obtain ⟨h1, h2, h3, h4⟩ := hrest.no_work hmatched
  have hcompletions := hrest.completions
  rw [if_neg (by simp [hposted])] at hcompletions
  refine ⟨fun hp => ?_, fun hm => ?_, fun _ => ⟨?_, hreceived⟩, ?_, fun hc => ?_, h.reqComplete,
    h.reqFreeCalled, h.lock_nonneg, fun _ => ?_, fun u hu => ?_, fun _ => .inl ?_⟩
  · cases hp
  · cases hm
  · rw [total_cons, hwork]
    rfl
  · rw [if_neg (by simp), total_cons]
    simpa [cancelling] using hcompletions
  · have := (h.cancelled hc).1
    rw [hposted] at this
    cases this
  · have heager := Receive.isEager_eq hmessage
    simp only [total_cons, h1, h2, h3, hpml, hlock, heager, scheduling, finishing, eagerly]
    cases m.isEager <;> rfl
  · rcases mem_cons.mp hu with rfl | hu
    · exact ⟨rfl, hmessage⟩
    · have hk := hrest.knows u hu
      have hidle : working u ≤ total working rest := le_total hu
      cases u
      case arrive | cancel | cancelMatch | free => exact hk
      case cancelComplete =>
        have := hk.1
        rw [hposted] at this
        cases this
      all_goals
        simp only [working] at hidle
        omega
  · rw [total_cons]
    simp only [checker]
    omega

theorem Inv.cancelMatch (h : Inv c r (RecvTask.cancelMatch :: rest)) (hposted : r.posted = true) :
    Inv c { r with posted := false, reqPmlComplete := true } (cancelComplete :: rest) := by
  have hrest := ((Inv.idle_iff rfl rfl).mp h).1
  obtain ⟨-, hmatched⟩ := h.posted hposted
  have hcompletions := hrest.completions
  rw [if_neg (by simp [hposted])] at hcompletions
  have habsurd {p : Prop} (hm : r.matched = true) : p := by
    rw [hmatched] at hm
    cases hm
  refine ⟨fun hp => ?_, fun hm => ?_, fun he => ?_, ?_, fun hc => ?_, h.reqComplete,
    h.reqFreeCalled, h.lock_nonneg, fun hm => habsurd hm, fun u hu => ?_, fun hm => habsurd hm⟩
  · cases hp
  · rw [total_cons]
    simpa [working] using hrest.unmatched hm
  · rw [total_cons] at he ⊢
    simpa [working] using hrest.early (by simpa [RecvTask.early] using he)
  · rw [if_pos ⟨rfl, hmatched⟩, total_cons]
    simp only [cancelling]
    omega
  · exact ⟨rfl, hmatched⟩
  · rcases mem_cons.mp hu with rfl | hu
    · exact ⟨rfl, hmatched⟩
    · have hk := hrest.knows u hu
      cases u
      case cancelComplete => exact ⟨rfl, hmatched⟩
      all_goals exact hk

theorem Inv.cancelComplete (h : Inv c r (RecvTask.cancelComplete :: rest)) :
    Inv c ({ r with cancelled := true }).mpiComplete rest := by
  have hk : r.posted = false ∧ r.matched = false := h.knows RecvTask.cancelComplete mem_cons_self
  have hcompletions := h.completions
  have habsurd {p : Prop} (hm : r.matched = true) : p := by
    rw [hk.2] at hm
    cases hm
  rw [total_cons] at hcompletions
  refine ⟨h.posted, fun hm => ?_, fun he => ?_, ?_, fun _ => hk, fun _ => Nat.succ_pos _, fun _ => rfl,
    h.lock_nonneg, fun hm => habsurd hm, fun u hu => ?_, fun hm => habsurd hm⟩
  · have := h.unmatched hm
    simpa [working, mpiComplete] using this
  · have := h.early (by simpa [RecvTask.early] using he)
    simpa [working, mpiComplete] using this
  · rw [if_pos hk] at hcompletions
    simp only [cancelling] at hcompletions
    show r.mpiCompletions + 1 + total cancelling rest
      = r.pmlCompletions + if r.posted = false ∧ r.matched = false then 1 else 0
    rw [if_pos hk]
    omega
  · have hk := h.knows u (mem_cons_of_mem _ hu)
    cases u <;> exact hk

theorem Inv.exec (h : Inv c r (task :: rest)) (hexec : recvExec limit peer task r = some (r', new))
    (hmatch : task = RecvTask.cancelMatch → r.posted = true) (hfree : task = free → r.reqComplete = true) :
    Inv c r' (new ++ rest) := by
  have hcallback := h.callback hexec
  cases task
  case arrive m =>
    simp only [recvExec] at hexec
    split_ifs at hexec with hposted
    · cases hexec
      exact h.arrive hposted
    · cases hexec
      exact ((Inv.idle_iff rfl rfl).mp h).1
  case cancel =>
    cases hexec
    have hrest := ((Inv.idle_iff rfl rfl).mp h).1
    split_ifs
    · exact hrest
    · exact (Inv.idle_iff rfl rfl).mpr ⟨hrest, trivial⟩
  case cancelMatch =>
    have hposted := hmatch rfl
    simp only [recvExec] at hexec
    rw [if_pos (h.posted hposted).1, if_pos hposted] at hexec
    cases hexec
    exact h.cancelMatch hposted
  case cancelComplete =>
    cases hexec
    exact h.cancelComplete
  case free =>
    cases hexec
    have hrest := ((Inv.idle_iff rfl rfl).mp h).1
    refine ⟨hrest.posted, hrest.unmatched, hrest.early, hrest.completions, hrest.cancelled,
      hrest.reqComplete, fun _ => hfree rfl, hrest.lock_nonneg, hrest.lock, fun u hu => ?_, hrest.left⟩
    have hk := hrest.knows u hu
    cases u <;> exact hk
  all_goals exact hcallback rfl

theorem inv_start (c : Receive) : Inv c c.start.shared c.start.tasks := by
  have hidle (tasks : List RecvTask) (h : ∀ task ∈ tasks, working task = 0 ∧ cancelling task = 0 ∧
      Knows c c.start.shared task) : Inv c c.start.shared tasks := by
    induction tasks with
    | nil => exact ⟨by simp [start], by simp [start], by simp, by simp [start], by simp [start],
        by simp [start], by simp [start], Int.le_refl 0, by simp [start], by simp, by simp [start]⟩
    | cons task tasks ih =>
      obtain ⟨⟨hw, hc, hk⟩, hrest⟩ := forall_mem_cons.mp h
      exact (Inv.idle_iff hw hc).mpr ⟨ih hrest, hk⟩
  refine hidle _ fun task ht => ?_
  simp only [start, mem_append, Option.mem_toList, Option.map_eq_some_iff] at ht
  rcases ht with (⟨m, hm, rfl⟩ | ht) | ht
  · exact ⟨rfl, rfl, hm⟩
  · obtain rfl := eq_of_mem_replicate ht
    exact ⟨rfl, rfl, trivial⟩
  · split_ifs at ht
    · obtain rfl := mem_singleton.mp ht
      exact ⟨rfl, rfl, trivial⟩
    · cases ht

theorem inv_of_reachable {p : Pool RecvReq RecvTask}
    (h : (c.system.restrict Meets).Reachable p) : Inv c p.shared p.tasks := by
  refine @System.Reachable.invariant _ _ _ (fun p => Inv c p.shared p.tasks) (fun p hp => ?_)
    (fun p e p' hinv hstep => ?_) p h
  · obtain rfl : p = c.start := hp
    exact inv_start c
  · obtain ⟨hmeets, hstep⟩ := hstep
    obtain ⟨task, rest, new, hget, hperm, hexec, htasks⟩ := step_cases hstep
    rw [htasks]
    refine (hinv.perm hperm).exec hexec ?_ ?_
    · rintro rfl
      exact hmeets.1 hget
    · rintro rfl
      exact hmeets.2 hget

theorem safe (c : Receive) {p : Pool RecvReq RecvTask}
    (h : (c.system.restrict Meets).Reachable p) : Safe p := by
  have hinv := inv_of_reachable h
  have hcompletions := hinv.completions
  have hpml := hinv.pml_le
  refine ⟨fun hc => (hinv.cancelled hc).2, fun hc => ?_, ?_, fun hnil hposted hall => ?_⟩
  · exact (hinv.unmatched (hinv.cancelled hc).2).2.1
  · split_ifs at hcompletions with hfree
    · have := (hinv.unmatched hfree.2).2.2.1
      omega
    · omega
  · rw [hnil, total_nil] at hcompletions
    rcases hm : p.shared.matched with _ | _
    · rw [if_pos ⟨hposted, hm⟩, (hinv.unmatched hm).2.2.1] at hcompletions
      omega
    · have hleft := hinv.left hm
      have hbytes := hall hm
      rw [if_neg (by simp [hm])] at hcompletions
      rw [hnil, total_nil] at hleft
      omega

/-- Hundred bytes of which forty come with the match, and a cancellation. -/
def rndvReceive : Receive where
  message := some (.rndv 0
    { hdrMsgLength := 100, flagContig := false, flagPin := false, bytesReceived := 40
      needBuffers := true, localSize := 100, rdmaNum := 0, rdmaBtls := 0, rdmaPipelineBtls := 0
      btlSendLimit := 100, btlPipelineSendLength := 0 })
  cancels := 1
  frees := false
  recvPipelineDepth := 4
  localSize := 100
  reqMatchReceived := false
  reqRdmaOffset := 0
  reqSendOffset := 0
  reqRdmaCnt := 0
  rget_pos := by simp

/-- The cancellation comes first, and another request gets the message. -/
theorem safe_rndv : ∃ p, (rndvReceive.system.restrict Meets).Reachable p ∧ Safe p ∧ p.tasks = [] ∧
    p.shared.cancelled = true ∧ p.shared.mpiCompletions = 1 := by
  have hcancel : (rndvReceive.system.restrict Meets).Run rndvReceive.start [(1, .noDescriptor)] _ :=
    .single ⟨⟨by decide, by decide⟩, rfl⟩
  have hmatch := hcancel.snoc (show (rndvReceive.system.restrict Meets).step _ (0, .noDescriptor) _ from
    ⟨⟨by decide, by decide⟩, rfl⟩)
  have hcomplete := hmatch.snoc (show (rndvReceive.system.restrict Meets).step _ (0, .noDescriptor) _
    from ⟨⟨by decide, by decide⟩, rfl⟩)
  have harrive := hcomplete.snoc (show (rndvReceive.system.restrict Meets).step _ (0, .noDescriptor) _
    from ⟨⟨by decide, by decide⟩, rfl⟩)
  have hreach : (rndvReceive.system.restrict Meets).Reachable _ := ⟨_, _, rfl, harrive⟩
  exact ⟨_, hreach, safe rndvReceive hreach, rfl, rfl, rfl⟩

/-- The cancellation comes when the first forty bytes were matched, and completes the request before
the other sixty come in, which complete it again. -/
theorem not_safe :
    ¬ ∀ (c : Receive) (p : Pool RecvReq RecvTask), c.system.Reachable p → Safe p := by
  intro h
  have hrun : Pool.runs (recvExec rndvReceive.recvPipelineDepth) rndvReceive.start
      (List.replicate 5 (0, .frags 60 [60]) ++ (2, .noDescriptor) ::
        List.replicate 11 (0, .noDescriptor)) = some
      ⟨{ posted := false, mpiTag := 0, cancelled := true, statusCount := 100, reqComplete := true,
         reqPmlComplete := true, reqMatchReceived := true, reqLock := 1, reqBytesPacked := 100,
         reqBytesReceived := 100, reqBytesDelivered := 100, reqRdmaOffset := 40, reqSendOffset := 40,
         reqRdmaCnt := 0, reqAckSent := true, matched := true, userBytes := 100, pmlCompletions := 1
         mpiCompletions := 2 }, []⟩ := by decide
  have hreach : rndvReceive.system.Reachable _ := ⟨_, _, rfl, run_of_runs hrun⟩
  have := (h _ _ hreach).at_most_once
  exact absurd this (by decide)

end Receive

end OpenMPI.Ob1
