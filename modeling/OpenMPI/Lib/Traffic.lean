import OpenMPI.Lib.Buffer

/-!
# Traffic

Instructions on buffers told by their numbers.  In a run to the end the messages from one process to another are, in their order,
no longer than the room of the receives they meet, and a place that none of them covers keeps what it holds
(`Finishes.exists_run`).
-/

namespace OpenMPI.Lib

open List Function

variable {α β : Type*}

inductive BufMove (β : Type*)
  | send (dst : ℕ) (b : β) (off n : ℕ)
  | recv (src : ℕ) (b : β) (off n : ℕ)
  | copy (b : β) (off n : ℕ) (b' : β) (off' n' : ℕ)
  deriving DecidableEq, Repr

namespace BufMove

/-- What is copied is cut off where the place for it ends. -/
def instr [DecidableEq β] : BufMove β → Instr (Bufs β α) α
  | send dst b off n => .sendBuf dst b off n
  | recv src b off n => .recvBuf src b off n
  | copy b off n b' off' n' => .work fun m => m.write b' off' ((m.read b off n).take n')

/-- The same in units of which there are `k` in one of before. -/
def scale (k : ℕ) : BufMove β → BufMove β
  | send dst b off n => send dst b (off * k) (n * k)
  | recv src b off n => recv src b (off * k) (n * k)
  | copy b off n b' off' n' => copy b (off * k) (n * k) b' (off' * k) (n' * k)

/-- The length of a message to `d`. -/
def lenTo (d : ℕ) : BufMove β → Option ℕ
  | send dst _ _ n => if dst = d then some n else none
  | _ => none

/-- A receive from `s`: its buffer, the place and the room. -/
def roomFrom (s : ℕ) : BufMove β → Option (β × ℕ × ℕ)
  | recv src b off n => if src = s then some (b, off, n) else none
  | _ => none

def sent (d : ℕ) (l : List (BufMove β)) : List ℕ := l.filterMap (lenTo d)

def rooms (s : ℕ) (l : List (BufMove β)) : List (β × ℕ × ℕ) := l.filterMap (roomFrom s)

/-- A copy does not write at place `x` of a buffer. -/
def Spares (b : β) (x : ℕ) : BufMove β → Prop
  | copy _ _ n b' off' n' => ¬(b' = b ∧ off' ≤ x ∧ x < off' + min n n')
  | _ => True

end BufMove

open BufMove

section

variable {s d src dst off n off' n' : ℕ} {b b' : β} {l : List (BufMove β)}

theorem sent_send : sent d (.send dst b off n :: l) = if dst = d then n :: sent d l else sent d l := by
  simp only [sent, filterMap_cons, lenTo]
  by_cases h : dst = d <;> simp [h]

theorem sent_recv : sent d (.recv src b off n :: l) = sent d l := rfl

theorem sent_copy : sent d (.copy b off n b' off' n' :: l) = sent d l := rfl

theorem rooms_send : rooms s (.send dst b off n :: l) = rooms s l := rfl

theorem rooms_recv : rooms s (.recv src b off n :: l) = if src = s then (b, off, n) :: rooms s l else rooms s l := by
  simp only [rooms, filterMap_cons, roomFrom]
  by_cases h : src = s <;> simp [h]

theorem rooms_copy : rooms s (.copy b off n b' off' n' :: l) = rooms s l := rfl

end

def traffic (c : Channels α) (N : ℕ → List (BufMove β)) (s d : ℕ) : List ℕ := (c s d).map List.length ++ sent d (N s)

/-- A message of that length at its receive does not reach place `x`. -/
def Misses (b : β) (x : ℕ) (len : ℕ) (room : β × ℕ × ℕ) : Prop := ¬(room.1 = b ∧ room.2.1 ≤ x ∧ x < room.2.1 + len)

/-- Nothing that comes to `d` or is copied there reaches place `x` of a buffer. -/
structure Untouched (c : Channels α) (N : ℕ → List (BufMove β)) (d : ℕ) (b : β) (x : ℕ) : Prop where
  comes : ∀ s, ∀ pair ∈ (traffic c N s d).zip (rooms s (N d)), Misses b x pair.1 pair.2
  copied : ∀ move ∈ N d, move.Spares b x

variable [DecidableEq β] {c : Channels α} {N : ℕ → List (BufMove β)} {m : Bufs β α} {p d : ℕ} {l : List (BufMove β)}

theorem write_of_misses {b b' : β} {off x : ℕ} {msg : List α} (h : ¬(b' = b ∧ off ≤ x ∧ x < off + msg.length)) :
    m.write b' off msg b x = m b x := by
  unfold Bufs.write
  split_ifs with hx
  · obtain ⟨rfl, hle⟩ := hx
    have hlen : msg.length ≤ x - off := by
      by_contra hlt
      exact h ⟨rfl, hle, by omega⟩
    rw [getElem?_eq_none hlen]
    rfl
  · rfl

section

variable {b b' : β} {off off' n n' src dst : ℕ}

omit [DecidableEq β] in
theorem traffic_send (hN : N p = .send dst b off n :: l) (s d : ℕ) :
    traffic (c.post p dst (m.read b off n)) (update N p l) s d = traffic c N s d ∧
      rooms s (update N p l d) = rooms s (N d) := by
  constructor
  · unfold traffic
    rw [Channels.post_apply]
    by_cases hs : s = p
    · subst hs
      rw [update_self, hN, sent_send]
      by_cases hd : d = dst
      · simp [hd, Bufs.read]
      · have hd' : ¬dst = d := fun h => hd h.symm
        simp [hd, hd']
    · simp [hs]
  · by_cases hd : d = p
    · subst hd
      rw [update_self, hN, rooms_send]
    · rw [update_of_ne hd]

omit [DecidableEq β] in
theorem traffic_copy (hN : N p = .copy b off n b' off' n' :: l) (s d : ℕ) :
    traffic c (update N p l) s d = traffic c N s d ∧ rooms s (update N p l d) = rooms s (N d) := by
  constructor
  · unfold traffic
    by_cases hs : s = p
    · subst hs
      rw [update_self, hN, sent_copy]
    · rw [update_of_ne hs]
  · by_cases hd : d = p
    · subst hd
      rw [update_self, hN, rooms_copy]
    · rw [update_of_ne hd]

omit [DecidableEq β] in
theorem traffic_recv {msg : List α} {ls : List (List α)} (hN : N p = .recv src b off n :: l) (hc : c src p = msg :: ls) (s d : ℕ) :
    (traffic c N s d = traffic (c.fetch src p) (update N p l) s d ∧ rooms s (N d) = rooms s (update N p l d) ∧
        ¬(s = src ∧ d = p)) ∨
      s = src ∧ d = p ∧ traffic c N s d = msg.length :: traffic (c.fetch src p) (update N p l) s d ∧
        rooms s (N d) = (b, off, n) :: rooms s (update N p l d) := by
  have hsent : sent d (update N p l s) = sent d (N s) := by
    by_cases hs : s = p
    · subst hs
      rw [update_self, hN, sent_recv]
    · rw [update_of_ne hs]
  unfold traffic
  rw [hsent]
  unfold Channels.fetch
  by_cases hsd : s = src ∧ d = p
  · obtain ⟨rfl, rfl⟩ := hsd
    refine .inr ⟨rfl, rfl, ?_, ?_⟩
    · simp [hc]
    · rw [update_self, hN, rooms_recv, if_pos rfl]
  · refine .inl ⟨?_, ?_, hsd⟩
    · rw [if_neg hsd]
    · by_cases hd : d = p
      · subst hd
        rw [update_self, hN, rooms_recv, if_neg fun h => hsd ⟨h.symm, rfl⟩]
      · rw [update_of_ne hd]

end

/-- What one instruction does to the traffic, and to a place that it does not reach. -/
theorem BufMove.act {move : BufMove β} {m' : Bufs β α} {c' : Channels α} (hN : N p = move :: l)
    (h : move.instr.act p m c = some (m', c')) :
    (∀ s d, List.Forall₂ (fun len room => len ≤ room.2.2) (traffic c' (update N p l) s d) (rooms s (update N p l d)) →
      List.Forall₂ (fun len room => len ≤ room.2.2) (traffic c N s d) (rooms s (N d))) ∧
    ∀ d b x, Untouched c N d b x → Untouched c' (update N p l) d b x ∧ (d = p → m' b x = m b x) := by
  have hcopied {d : ℕ} {b : β} {x : ℕ} (hd : ∀ move ∈ N d, move.Spares b x) : ∀ move ∈ update N p l d, move.Spares b x := by
    by_cases hdp : d = p
    · subst hdp
      rw [update_self]
      exact fun move hmove => hd move (hN ▸ mem_cons_of_mem _ hmove)
    · rwa [update_of_ne hdp]
  cases move with
  | send dst b off n =>
    cases h
    have hsame := traffic_send (c := c) (m := m) hN
    refine ⟨fun s d hfits => ?_, fun d b' x hun => ⟨⟨fun s => ?_, hcopied hun.copied⟩, fun _ => rfl⟩⟩
    · rwa [(hsame s d).1, (hsame s d).2] at hfits
    · rw [(hsame s d).1, (hsame s d).2]
      exact hun.comes s
  | copy b off n b' off' n' =>
    cases h
    have hsame := traffic_copy (c := c) hN
    refine ⟨fun s d hfits => ?_, fun d b₁ x hun => ⟨⟨fun s => ?_, hcopied hun.copied⟩, ?_⟩⟩
    · rwa [(hsame s d).1, (hsame s d).2] at hfits
    · rw [(hsame s d).1, (hsame s d).2]
      exact hun.comes s
    · rintro rfl
      have hspares := hun.copied _ (hN ▸ mem_cons_self)
      refine write_of_misses ?_
      rw [length_take, Bufs.read, length_slice, min_comm]
      exact hspares
  | recv src b off n =>
    obtain ⟨msg, ls, hc, hlen, rfl, rfl⟩ := Instr.act_recv_eq_some h
    have hcases := traffic_recv hN hc
    refine ⟨fun s d hfits => ?_, fun d b' x hun => ⟨⟨fun s => ?_, hcopied hun.copied⟩, ?_⟩⟩
    · rcases hcases s d with ⟨htraffic, hrooms, -⟩ | ⟨-, -, htraffic, hrooms⟩
      · rwa [htraffic, hrooms]
      · rw [htraffic, hrooms]
        exact .cons hlen hfits
    · rcases hcases s d with ⟨htraffic, hrooms, -⟩ | ⟨-, -, htraffic, hrooms⟩
      · rw [← htraffic, ← hrooms]
        exact hun.comes s
      · intro pair hpair
        refine hun.comes s pair ?_
        rw [htraffic, hrooms]
        exact mem_cons_of_mem _ hpair
    · rintro rfl
      rcases hcases src d with ⟨-, -, hnot⟩ | ⟨-, -, htraffic, hrooms⟩
      · exact absurd ⟨rfl, rfl⟩ hnot
      · refine write_of_misses (hun.comes src (msg.length, b, off, n) ?_)
        rw [htraffic, hrooms]
        exact mem_cons_self

theorem fits_of_run {es : List ℕ} {w : World (Bufs β α) α} {mem' : ℕ → Bufs β α} (hrun : (processes (Bufs β α) α).Run w es (World.done mem'))
    {N : ℕ → List (BufMove β)} (hprog : ∀ p, w.prog p = (N p).map BufMove.instr) :
    (∀ s d, List.Forall₂ (fun len room => len ≤ room.2.2) (traffic w.chan N s d) (rooms s (N d))) ∧
      ∀ d b x, Untouched w.chan N d b x → mem' d b x = w.mem d b x := by
  induction es generalizing w N with
  | nil =>
    obtain rfl := hrun.nil_eq
    have hnil (p : ℕ) : N p = [] := map_eq_nil_iff.mp (hprog p).symm
    refine ⟨fun s d => ?_, fun _ _ _ _ => rfl⟩
    rw [traffic, hnil, hnil]
    exact .nil
  | cons p es ih =>
    obtain ⟨u, hu, hrest⟩ := hrun.uncons
    obtain ⟨i, is, ⟨m', c'⟩, hp, hact, rfl⟩ := World.exec_eq_some hu
    rw [hprog p] at hp
    obtain ⟨move, l, hN, rfl, rfl⟩ := map_eq_cons_iff.mp hp
    have hnext (q : ℕ) : (w.next p (l.map BufMove.instr) (m', c')).prog q = (update N p l q).map BufMove.instr := by
      by_cases hq : q = p
      · subst hq
        rw [World.next_prog, update_self]
      · rw [World.next_prog_of_ne hq, update_of_ne hq, hprog q]
    obtain ⟨hfits, huntouched⟩ := ih hrest hnext
    obtain ⟨hback, hforth⟩ := BufMove.act hN hact
    refine ⟨fun s d => hback s d (hfits s d), fun d b x hun => ?_⟩
    obtain ⟨hun', hkeeps⟩ := hforth d b x hun
    rw [huntouched d b x hun']
    by_cases hd : d = p
    · subst hd
      rw [World.next_mem]
      exact hkeeps rfl
    · rw [World.next_mem_of_ne hd]

def below (n : ℕ) (N : ℕ → List (BufMove β)) (p : ℕ) : List (BufMove β) := if p < n then N p else []

namespace Finishes

variable {k : ℕ} {mem : ℕ → Bufs β α} {R : (ℕ → Bufs β α) → Prop}

theorem exists_run (h : Finishes k (fun p => (N p).map BufMove.instr) mem R) :
    ∃ mem', R mem' ∧ (∀ s < k, ∀ d < k, List.Forall₂ (fun len room => len ≤ room.2.2) (sent d (N s)) (rooms s (N d))) ∧
      ∀ d < k, ∀ b x, (∀ s < k, ∀ pair ∈ (sent d (N s)).zip (rooms s (N d)), Misses b x pair.1 pair.2) →
        (∀ move ∈ N d, move.Spares b x) → mem' d b x = mem d b x := by
  obtain ⟨mem', steps, hR, hruns⟩ := h
  obtain ⟨es, hrun, -⟩ := hruns [] _ (.nil _)
  have hprog (p : ℕ) : (World.start k (fun p => (N p).map BufMove.instr) mem).prog p = (below k N p).map (BufMove.instr (α := α)) := by
    unfold World.start below
    dsimp only
    split_ifs
    · rfl
    · rfl
  obtain ⟨hfits, huntouched⟩ := fits_of_run hrun hprog
  have htraffic (s d : ℕ) : traffic (World.start k (fun p => (N p).map (BufMove.instr (α := α))) mem).chan (below k N) s d = sent d (below k N s) :=
    nil_append _
  refine ⟨mem', hR, fun s hs d hd => ?_, fun d hd b x hmisses hcopied => huntouched d b x ⟨fun s => ?_, ?_⟩⟩
  · have h := hfits s d
    rwa [htraffic, below, below, if_pos hs, if_pos hd] at h
  · rw [htraffic, below, below, if_pos hd]
    split_ifs with hs
    · exact hmisses s hs
    · exact fun pair hpair => absurd hpair not_mem_nil
  · rwa [below, if_pos hd]

end Finishes

end OpenMPI.Lib
