import Mathlib.Data.List.Nodup
import OpenMPI.Iof.Receive

/-!
# A close request can hang the HNP

The loop of a close stays at a sink without a destination, such as that of an output file (`closeLoop_stuck`); the loop
of output goes on.  A destination that asked twice gets output twice.
-/

namespace OpenMPI.Iof

open List

open Routed (ProcessName invalid wildcard)

variable {msg : Message} {sink : Sink} {before rest sinks : List Sink} {sent : List Packet} {hnp : Hnp}

theorem closeLoop_stuck (hsink : sink.daemon.jobid = invalid) (fuel : ℕ) :
    closeLoop msg fuel before (sink :: rest) sent = none := by
  induction fuel with
  | zero => rfl
  | succ fuel ih => rw [closeLoop, if_pos hsink, ih]

theorem closeLoop_hangs (h : ∃ sink ∈ sinks, sink.daemon.jobid = invalid) (fuel : ℕ) :
    closeLoop msg fuel before sinks sent = none := by
  induction sinks generalizing fuel before sent with
  | nil =>
    obtain ⟨sink, hsink, -⟩ := h
    cases hsink
  | cons sink rest ih =>
    by_cases hinvalid : sink.daemon.jobid = invalid
    · exact closeLoop_stuck hinvalid fuel
    · have hrest : ∃ sink ∈ rest, sink.daemon.jobid = invalid := by
        obtain ⟨other, hother, heq⟩ := h
        rcases mem_cons.mp hother with rfl | hother
        · exact absurd heq hinvalid
        · exact ⟨other, hother, heq⟩
      cases fuel with
      | zero => rfl
      | succ fuel =>
        rw [closeLoop, if_neg hinvalid]
        split_ifs
        · exact ih hrest fuel
        · exact ih hrest fuel

theorem closeLoop_spec (h : ∀ sink ∈ sinks, sink.daemon.jobid ≠ invalid) :
    closeLoop msg (sinks.length + 1) before sinks sent =
      some (before ++ sinks.filter (¬msg.For ·), sent ++ (sinks.filter (msg.For ·)).map (Sink.ack msg)) := by
  induction sinks generalizing before sent with
  | nil => simp [closeLoop]
  | cons sink rest ih =>
    have hvalid := h sink mem_cons_self
    rw [length_cons, closeLoop, if_neg hvalid]
    split_ifs with hdesignated
    · have hfor : msg.For sink := ⟨hvalid, hdesignated⟩
      rw [ih fun other hother => h other (mem_cons_of_mem _ hother)]
      simp [hfor]
    · have hfor : ¬msg.For sink := fun hfor => hdesignated hfor.2
      rw [ih fun other hother => h other (mem_cons_of_mem _ hother)]
      simp [hfor]

theorem outputLoop_eq : outputLoop msg sinks = (sinks.filter (msg.For ·)).map (Sink.copy msg) := by
  induction sinks with
  | nil => rfl
  | cons sink rest ih =>
    rw [outputLoop, ih]
    split_ifs with hinvalid hdesignated
    · have hfor : ¬msg.For sink := fun hfor => hfor.1 hinvalid
      simp [hfor]
    · have hfor : msg.For sink := ⟨hinvalid, hdesignated⟩
      simp [hfor]
    · have hfor : ¬msg.For sink := fun hfor => hdesignated hfor.2
      simp [hfor]

theorem served_of_quiet {xmlOutput : Bool} (h : msg.kind = .flow ∨ msg.kind = .pull) :
    msg.Served xmlOutput hnp := by
  unfold Message.Served Message.Done
  rcases h with h | h <;> rw [h] <;> unfold Message.kind at h <;> split_ifs at h with hflow hpull
  · exact ⟨0, _, if_pos hflow, rfl⟩
  · refine ⟨0, ?_⟩
    rw [processMsg, if_neg hflow, if_pos hpull]
    exact ⟨_, rfl, rfl⟩

theorem served_close_iff {xmlOutput : Bool} (h : msg.kind = .close) :
    msg.Served xmlOutput hnp ↔ ∀ sink ∈ hnp.sinks, sink.daemon.jobid ≠ invalid := by
  have hrun (fuel : ℕ) : processMsg xmlOutput fuel hnp msg =
      (closeLoop msg fuel [] hnp.sinks hnp.sent).map fun r => { hnp with sinks := r.1, sent := r.2 } := by
    unfold Message.kind at h
    split_ifs at h with hflow hpull hclose
    rw [processMsg, if_neg hflow, if_neg hpull, if_pos hclose]
  unfold Message.Served Message.Done
  rw [h]
  constructor
  · rintro ⟨fuel, hnp', hreturn, -⟩ sink hsink hinvalid
    rw [hrun, closeLoop_hangs ⟨sink, hsink, hinvalid⟩] at hreturn
    cases hreturn
  · intro hvalid
    refine ⟨hnp.sinks.length + 1, _, by rw [hrun, closeLoop_spec hvalid]; rfl, rfl, rfl⟩

theorem nodup_copies :
    ((sinks.filter (msg.For ·)).map (Sink.copy msg)).Nodup ↔ ((sinks.filter (msg.For ·)).map Sink.daemon).Nodup := by
  have hinj : Function.Injective fun daemon : ProcessName =>
      (⟨daemon, msg.origin, msg.stream, some msg.data⟩ : Packet) := fun a b heq => congrArg Packet.host heq
  rw [← nodup_map_iff hinj, map_map]
  rfl

theorem served_output_iff {xmlOutput : Bool} (h : msg.kind = .output) :
    msg.Served xmlOutput hnp ↔ ((hnp.sinks.filter (msg.For ·)).map Sink.daemon).Nodup := by
  have hrun (fuel : ℕ) : processMsg xmlOutput fuel hnp msg = some { hnp with
      sent := hnp.sent ++ (hnp.sinks.filter (msg.For ·)).map (Sink.copy msg)
      written := hnp.written ++ [⟨msg.has Tag.stdout || xmlOutput, msg.origin, msg.stream, msg.data⟩] } := by
    unfold Message.kind at h
    split_ifs at h with hflow hpull hclose
    rw [processMsg, if_neg hflow, if_neg hpull, if_neg hclose, outputLoop_eq]
  unfold Message.Served Message.Done
  rw [h, ← nodup_copies, nodup_iff_count_eq_one]
  constructor
  · rintro ⟨fuel, hnp', hreturn, -, copies, hsent, -, honce⟩ copy hcopy
    obtain rfl := Option.some.inj ((hrun fuel).symm.trans hreturn)
    obtain rfl := append_cancel_left hsent
    obtain ⟨sink, hsink, rfl⟩ := mem_map.mp hcopy
    obtain ⟨hsink, hfor⟩ := mem_filter.mp hsink
    exact honce sink hsink (of_decide_eq_true hfor)
  · intro honce
    refine ⟨0, _, hrun 0, rfl, _, rfl, fun copy hcopy => ?_, fun sink hsink hfor => ?_⟩
    · obtain ⟨sink, hsink, rfl⟩ := mem_map.mp hcopy
      obtain ⟨hsink, hfor⟩ := mem_filter.mp hsink
      exact ⟨sink, hsink, of_decide_eq_true hfor, rfl⟩
    · exact honce _ (mem_map_of_mem (mem_filter.mpr ⟨hsink, decide_eq_true hfor⟩))

/-- A message is served iff it closes nothing while there is a sink without a destination, and sends nothing twice to
one destination. -/
theorem served_iff (xmlOutput : Bool) (msg : Message) (hnp : Hnp) :
    msg.Served xmlOutput hnp ↔ msg.Servable hnp.sinks := by
  unfold Message.Servable
  cases h : msg.kind with
  | flow => exact iff_of_true (served_of_quiet (.inl h)) trivial
  | pull => exact iff_of_true (served_of_quiet (.inr h)) trivial
  | close => exact served_close_iff h
  | output => exact served_output_iff h

/-- A tool asks for stdout of a process no more, while its output goes to a file, too. -/
theorem not_served_close :
    ¬(⟨⟨0x20000, 0⟩, Tag.close ||| Tag.stdout, ⟨0x10001, 0⟩, []⟩ : Message).Served false
      ⟨[⟨⟨0x10001, 0⟩, Tag.stdoutAll, ⟨invalid, invalid⟩⟩, ⟨⟨0x10001, 0⟩, Tag.stdout, ⟨0x20000, 0⟩⟩], [], []⟩ := by
  rintro ⟨fuel, hnp', hreturn, -⟩
  have hhangs : closeLoop ⟨⟨0x20000, 0⟩, Tag.close ||| Tag.stdout, ⟨0x10001, 0⟩, []⟩ fuel []
      [⟨⟨0x10001, 0⟩, Tag.stdoutAll, ⟨invalid, invalid⟩⟩, ⟨⟨0x10001, 0⟩, Tag.stdout, ⟨0x20000, 0⟩⟩] [] = none :=
    closeLoop_stuck rfl fuel
  rw [processMsg, if_neg (by decide), if_neg (by decide), if_pos (by decide), hhangs] at hreturn
  cases hreturn

end OpenMPI.Iof
