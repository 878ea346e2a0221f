import OpenMPI.Coll.Barrier
import OpenMPI.Lib.Rounds
import OpenMPI.Proofs.Coll.Folding

/-!
# Barriers separate

Each barrier is told in rounds, in which the messages fit, and everyone knows of everyone in the end.
-/

namespace OpenMPI.Coll.Barrier

open OpenMPI.Lib List Nat
open OpenMPI.Lib.Posting

theorem source_natCast (p : ℕ) : source p = some p := by
  rw [source, if_neg (by omega), Int.toNat_natCast]

theorem upLoop_eq {limit K : ℕ} (hlt : ∀ g < K, 2 ^ g < limit) (hle : limit ≤ 2 ^ K) (body : ℕ → List Posting.Op)
    {fuel : ℕ} (j d : ℕ) (hd : j + d = K) (hfuel : d ≤ fuel) :
    upLoop limit body fuel (2 ^ j) = (range' j d).flatMap fun g => body (2 ^ g) := by
  induction d generalizing j fuel with
  | zero =>
    obtain rfl : j = K := hd
    cases fuel with
    | zero => rfl
    | succ fuel => rw [upLoop, if_neg (Nat.not_lt_of_le hle), range'_zero, List.flatMap_nil]
  | succ d ih =>
    obtain ⟨fuel, rfl⟩ := exists_eq_succ_of_ne_zero (ne_of_gt (lt_of_lt_of_le (succ_pos d) hfuel))
    rw [upLoop, if_pos (hlt j (by omega)), Nat.shiftLeft_eq, pow_one, ← pow_succ,
      ih (j + 1) (by omega) (le_of_succ_le_succ hfuel), range'_succ, flatMap_cons]

theorem upLoop_clog {limit : ℕ} (body : ℕ → List Posting.Op) :
    upLoop limit body limit 1 = (range (Nat.clog 2 limit)).flatMap fun g => body (2 ^ g) := by
  have hle : limit ≤ 2 ^ Nat.clog 2 limit := le_pow_clog one_lt_two limit
  have hfuel : Nat.clog 2 limit ≤ limit :=
    (clog_le_iff_le_pow one_lt_two).mpr (le_of_lt Nat.lt_two_pow_self)
  have h := upLoop_eq (fun g hg => (lt_clog_iff_pow_lt one_lt_two).mp hg) hle body 0 _ (zero_add _) hfuel
  rwa [pow_zero, ← range_eq_range'] at h

theorem mod_sub_iff {n p q d : ℕ} (hp : p < n) (hq : q < n) (hd : d < n) : (q + n - d) % n = p ↔ (p + d) % n = q := by
  have hback : (q + n - d) % n = if d ≤ q then q - d else q + n - d := by
    split_ifs with h
    · rw [show q + n - d = q - d + n by omega, add_mod_right, mod_eq_of_lt (by omega)]
    · exact mod_eq_of_lt (by omega)
  have hforth : (p + d) % n = if p + d < n then p + d else p + d - n := by
    split_ifs with h
    · exact mod_eq_of_lt h
    · rw [mod_eq_sub_mod (by omega), mod_eq_of_lt (by omega)]
  rw [hback, hforth]
  split_ifs <;> omega

def bruckRounds (n : ℕ) : Rounds where
  G := Nat.clog 2 n
  posts g p := [.irecv (some ((p + n - 2 ^ g) % n)), .isend ((p + 2 ^ g) % n) false]
  waits _ _ := true
  no_wait _ _ := by simp

theorem bruck_eq (n p : ℕ) : bruck n p = (bruckRounds n).prog p := by
  unfold bruck
  rw [upLoop_clog]
  refine congrArg (fun f => (range (Nat.clog 2 n)).flatMap f) (funext fun g => ?_)
  dsimp only
  rw [sendrecvActual, source_natCast]
  rfl

section Bruck

variable {n : ℕ}

theorem bruck_source (hn : 2 ≤ n) : ∀ q < n, ∀ r, Op.irecv r ∈ (bruckRounds n).prog q → ∃ p < n, r = some p := by
  intro q _ r hr
  obtain ⟨g, -, hmem⟩ := Rounds.mem_upTo hr (by simp)
  simp only [bruckRounds, mem_cons, Op.irecv.injEq, reduceCtorEq, not_mem_nil, or_false] at hmem
  exact ⟨_, mod_lt _ (by omega), hmem⟩

theorem bruck_balanced : ∀ g < (bruckRounds n).G, ∀ q < n, ∀ p < n,
    ((bruckRounds n).posts g q).countP (isRecv (some p)) = ((bruckRounds n).posts g p).countP (isSend q) := by
  intro g hg q hq p hp
  have hd : 2 ^ g < n := (lt_clog_iff_pow_lt one_lt_two).mp hg
  simp [bruckRounds, countP_cons, isRecv, isSend, mod_sub_iff hp hq hd]

theorem bruck_knows {g q r d : ℕ} (hg : g ≤ (bruckRounds n).G) (hq : q < n) (hr : r < n) (hd : d < 2 ^ g)
    (hqr : (r + d) % n = q) : Rounds.Knows (bruckRounds n) n (fun q p g => (bruckRounds n).tally q (isRecv (some p)) g) q g r := by
  induction g generalizing q d with
  | zero =>
    obtain rfl : d = 0 := by rwa [pow_zero, lt_one_iff] at hd
    rw [add_zero, mod_eq_of_lt hr] at hqr
    exact hqr ▸ .own r 0
  | succ g ih =>
    rcases lt_or_ge d (2 ^ g) with hlt | hge
    · exact (ih (by omega) hq hlt hqr).later
    · have hp : (r + (d - 2 ^ g)) % n < n := mod_lt _ (by omega)
      have hsend : ((r + (d - 2 ^ g)) % n + 2 ^ g) % n = q := by
        rw [mod_add_mod, add_assoc, Nat.sub_add_cancel hge, hqr]
      refine Rounds.Knows.of_balanced bruck_balanced hq hp hg rfl ?_ (ih (by omega) hp ?_ rfl)
      · simp [bruckRounds, isSend, hsend]
      · rw [pow_succ] at hd
        omega

theorem bruck_knows_all {q r : ℕ} (hq : q < n) (hr : r < n) :
    Rounds.Knows (bruckRounds n) n (fun q p g => (bruckRounds n).tally q (isRecv (some p)) g) q (bruckRounds n).G r := by
  refine bruck_knows (d := (q + n - r) % n) (le_rfl) hq hr ?_ ?_
  · exact lt_of_lt_of_le (mod_lt _ (by omega)) (le_pow_clog one_lt_two n)
  · rw [add_mod_mod, show r + (q + n - r) = q + n by omega, add_mod_right, mod_eq_of_lt hq]

end Bruck

theorem twoProcs_eq {p : ℕ} (hp : p < 2) : twoProcs p = (bruckRounds 2).prog p := by
  rw [← bruck_eq]
  rcases (by omega : p = 0 ∨ p = 1) with rfl | rfl <;> rfl

def linearRounds (n : ℕ) : Rounds where
  G := 2
  posts g p :=
    if g = 0 then if 0 < p then [.isend 0 false] else (List.range' 1 (n - 1)).map fun _ => .irecv none
    else if 0 < p then [.irecv (some 0)] else (List.range' 1 (n - 1)).map fun i => .isend i false
  waits _ _ := true
  no_wait g p := by split_ifs <;> simp

theorem basicLinear_eq (n p : ℕ) : basicLinear n p = (linearRounds n).prog p := by
  have htwo : (linearRounds n).prog p = (linearRounds n).part p 0 ++ (linearRounds n).part p 1 := by
    rw [Rounds.prog, show (linearRounds n).G = 1 + 1 from rfl, Rounds.upTo_succ, ← zero_add 1, Rounds.upTo_succ]
    rfl
  rw [htwo]
  unfold basicLinear Rounds.part
  by_cases hp : 0 < p
  · simp [linearRounds, hp, send, recv, source]
  · simp [linearRounds, hp, source]

section Linear

variable {n : ℕ}

theorem countP_isends (q : ℕ) : ((range' 1 (n - 1)).map fun i => Op.isend i false).countP (isSend q) =
    if 0 < q ∧ q < n then 1 else 0 := by
  have hcount : ((range' 1 (n - 1)).map fun i => Op.isend i false).countP (isSend q) = (range' 1 (n - 1)).count q := by
    rw [countP_map, count_eq_countP]
    rfl
  rw [hcount]
  split_ifs with h
  · exact count_eq_one_of_mem nodup_range' (mem_range'_1.mpr (by omega))
  · exact count_eq_zero_of_not_mem fun hmem => h (by
      have := mem_range'_1.mp hmem
      omega)

theorem linear_sends {p : ℕ} (q g : ℕ) : ((linearRounds n).posts g p).countP (isSend q) =
    if 0 < p then if g = 0 ∧ q = 0 then 1 else 0 else if g ≠ 0 ∧ 0 < q ∧ q < n then 1 else 0 := by
  by_cases hg : g = 0
  · by_cases hp : 0 < p
    · simp [linearRounds, hg, hp, isSend, countP_cons, eq_comm]
    · simp [linearRounds, hg, hp, isSend]
  · by_cases hp : 0 < p
    · simp [linearRounds, hg, hp, isSend]
    · simp only [linearRounds, hg, hp, if_false]
      rw [countP_isends]
      simp [hg]

theorem linear_recvs {q : ℕ} (r : Option ℕ) (g : ℕ) : ((linearRounds n).posts g q).countP (isRecv r) =
    if 0 < q then if g ≠ 0 ∧ r = some 0 then 1 else 0 else if g = 0 ∧ r = none then n - 1 else 0 := by
  by_cases hg : g = 0
  · by_cases hq : 0 < q
    · simp [linearRounds, hg, hq, isRecv]
    · cases r with
      | none => simp [linearRounds, hg, hq, isRecv, countP_replicate]
      | some p => simp [linearRounds, hg, hq, isRecv]
  · by_cases hq : 0 < q
    · simp [linearRounds, hg, hq, isRecv, countP_cons, eq_comm]
    · simp [linearRounds, hg, hq, countP_map, isRecv, Function.comp_def]

def linearDue (n q p g : ℕ) : ℕ :=
  if q = 0 then if p = 0 ∨ g = 0 then 0 else 1 else (linearRounds n).tally q (isRecv (some p)) g

theorem linear_sent {p q : ℕ} (hq : q < n) (g : ℕ) : (linearRounds n).tally p (isSend q) g =
    if 0 < p then if 0 < g ∧ q = 0 then 1 else 0 else if 0 < q then g - 1 else 0 := by
  induction g with
  | zero => simp [Rounds.tally_zero]
  | succ g ih =>
    rw [Rounds.tally_succ _ _ rfl, ih, linear_sends]
    split_ifs <;> omega

theorem linear_received {q : ℕ} (r : Option ℕ) (g : ℕ) : (linearRounds n).tally q (isRecv r) g =
    if 0 < q then if r = some 0 then g - 1 else 0 else if 0 < g ∧ r = none then n - 1 else 0 := by
  induction g with
  | zero => simp [Rounds.tally_zero]
  | succ g ih =>
    rw [Rounds.tally_succ _ _ rfl, ih, linear_recvs]
    by_cases hq : 0 < q
    · by_cases hr : r = some 0 <;> simp [hq, hr]
      split_ifs <;> omega
    · by_cases hr : r = none <;> simp [hq, hr]
      split_ifs <;> omega

theorem linear_due {p q : ℕ} (hp : p < n) (hq : q < n) {g : ℕ} (hg : g ≤ 2) : linearDue n q p g = (linearRounds n).tally p (isSend q) g := by
  unfold linearDue
  rw [linear_sent hq, linear_received]
  simp only [Option.some.injEq]
  split_ifs <;> omega

theorem linear_sound (hn : 2 ≤ n) : Rounds.Sound (linearRounds n) n (fun q => decide (q = 0)) (linearDue n) where
  pure q hq r hr := by
    obtain ⟨g, hg, hmem⟩ := Rounds.mem_upTo hr (by simp)
    rw [decide_eq_true_iff]
    by_cases hzero : g = 0 <;> by_cases hq0 : 0 < q <;> simp [linearRounds, hzero, hq0] at hmem <;> simp [hmem] <;> omega
  source_lt q hq p hp := by
    obtain ⟨g, hg, hmem⟩ := Rounds.mem_upTo hp (by simp)
    by_cases hzero : g = 0 <;> by_cases hq0 : 0 < q <;> simp [linearRounds, hzero, hq0] at hmem
    omega
  due_sum q hq r hr hlt g hg := by
    rw [linear_received]
    by_cases hq0 : 0 < q
    · obtain ⟨p, rfl⟩ : ∃ p, r = some p := by
        refine Option.ne_none_iff_exists'.mp fun hnone => ?_
        have := of_decide_eq_true (hr.mp hnone)
        omega
      have hp := hlt p rfl
      rw [filter_accepts_some hp, Finset.sum_singleton, linear_due hp hq hg, linear_sent hq]
      simp only [hq0, if_true, Option.some.injEq]
      split_ifs <;> omega
    · obtain rfl : q = 0 := by omega
      obtain rfl : r = none := hr.mpr rfl
      obtain ⟨m, rfl⟩ : ∃ m, n = m + 1 := ⟨n - 1, by omega⟩
      rw [filter_accepts_none, Finset.sum_range_succ']
      cases g with
      | zero => simp [linearDue]
      | succ g => simp [linearDue]
  due_mono q hq p hp g g' hgg' hg' := by
    rw [linear_due hp hq (le_trans hgg' hg'), linear_due hp hq hg']
    exact Rounds.tally_mono _ hgg'
  total q hq p hp := linear_due hp hq (Nat.le_refl 2)
  sent_before q hq p hp g hg _ := le_of_eq (linear_due hp hq hg)
  taken_before q hq p hp g hg _ := le_of_eq (linear_due hp hq hg).symm
  sources q hq hwild := by
    obtain rfl : q = 0 := of_decide_eq_true hwild
    refine .inr ⟨two_pos, rfl, fun p hp => ?_, fun p hp hpos => ⟨1, one_lt_two, rfl, ?_, ?_⟩⟩
    · simp [linearDue, linearRounds]
    · have hp0 : p ≠ 0 := by
        rintro rfl
        simp [linearDue] at hpos
      simp [hp0]
    · have hp0 : p ≠ 0 := by
        rintro rfl
        simp [linearDue] at hpos
      rw [linear_sent hp, linear_due hq hp (Nat.le_refl 2), linear_sent hp]
      split_ifs <;> omega

theorem linear_knows_root {r : ℕ} (hn : 2 ≤ n) (hr : r < n) : Rounds.Knows (linearRounds n) n (linearDue n) 0 1 r := by
  by_cases hr0 : r = 0
  · rw [hr0]
    exact .own 0 1
  · refine .heard (by omega) hr two_pos rfl (show 0 ≤ 2 from zero_le 2) ?_ (.own r 0)
    rw [linear_due (g := 0 + 1) hr (by omega) (by omega), linear_sent (by omega), linear_sent (by omega)]
    split_ifs <;> omega

theorem linear_knows {q r : ℕ} (hn : 2 ≤ n) (hq : q < n) (hr : r < n) :
    Rounds.Knows (linearRounds n) n (linearDue n) q (linearRounds n).G r := by
  by_cases hq0 : q = 0
  · rw [hq0]
    exact (linear_knows_root hn hr).later
  · refine .heard hq (by omega) (show 1 < 2 from one_lt_two) rfl (show 1 ≤ 2 from le_succ 1) ?_ (linear_knows_root hn hr)
    rw [linear_due (by omega) hq (Nat.le_refl 2), linear_sent hq, linear_sent hq]
    split_ifs <;> omega

end Linear

theorem flatMap_range_two {α : Type} {f : ℕ → List α} {a b m : ℕ} (hab : a < b) (hf : ∀ g < m, g ≠ a → g ≠ b → f g = []) :
    (range m).flatMap f = (if a < m then f a else []) ++ if b < m then f b else [] := by
  induction m with
  | zero => rfl
  | succ m ih =>
    rw [range_succ, flatMap_append, flatMap_singleton, ih fun g hg => hf g (lt_succ_of_lt hg)]
    by_cases hma : m = a
    · subst hma
      rw [if_neg (lt_irrefl m), if_neg (by omega), if_pos (Nat.lt_succ_self m), if_neg (by omega)]
      simp
    · by_cases hmb : m = b
      · subst hmb
        rw [if_pos hab, if_neg (lt_irrefl m), if_pos (by omega), if_pos (Nat.lt_succ_self m)]
        simp
      · rw [hf m (Nat.lt_succ_self m) hma hmb, append_nil]
        congr 1
        · exact if_congr (by omega) rfl rfl
        · exact if_congr (by omega) rfl rfl

/-- In round `g` the message goes from process `g % n` to the next one; in the second half the send is synchronous. -/
def ringRounds (n : ℕ) : Rounds where
  G := n + n
  posts g p :=
    if p = g % n then [.isend ((p + 1) % n) (decide (n ≤ g))]
    else if p = (g + 1) % n then [.irecv (if p = 0 then none else some (p - 1))] else []
  waits g p := decide (p = g % n) || decide (p = (g + 1) % n)
  no_wait g p := by
    split_ifs <;> simp

section Ring

variable {n : ℕ}

theorem ring_part (g p : ℕ) : (ringRounds n).part p g =
    if p = g % n then send ((p + 1) % n) (decide (n ≤ g))
    else if p = (g + 1) % n then [.irecv (if p = 0 then none else some (p - 1)), .wait] else [] := by
  unfold Rounds.part
  by_cases h1 : p = g % n
  · simp [ringRounds, ← h1, send]
  · by_cases h2 : p = (g + 1) % n
    · simp [ringRounds, h1, ← h2]
    · simp [ringRounds, h1, h2]

theorem doublering_eq (hn : 2 ≤ n) {p : ℕ} (hp : p < n) : doublering n p = (ringRounds n).prog p := by
  have hsplit : (ringRounds n).prog p = (range n).flatMap ((ringRounds n).part p) ++
      (range n).flatMap (fun g => (ringRounds n).part p (n + g)) := by
    rw [Rounds.prog, Rounds.upTo, show (ringRounds n).G = n + n from rfl, range_add, flatMap_append, flatMap_map]
  have hnext (g : ℕ) (hg : g < n) : (g + 1) % n = if g + 1 = n then 0 else g + 1 := by
    split_ifs with h
    · rw [h, mod_self]
    · exact mod_eq_of_lt (by omega)
  have hfirst (g : ℕ) (hg : g < n) : (ringRounds n).part p g =
      if p = g then send ((p + 1) % n) false else if p = (if g + 1 = n then 0 else g + 1) then
        [.irecv (if p = 0 then none else some (p - 1)), .wait] else [] := by
    rw [ring_part, mod_eq_of_lt hg, hnext g hg, decide_eq_false (by omega)]
  have hsecond (g : ℕ) (hg : g < n) : (ringRounds n).part p (n + g) =
      if p = g then send ((p + 1) % n) true else if p = (if g + 1 = n then 0 else g + 1) then
        [.irecv (if p = 0 then none else some (p - 1)), .wait] else [] := by
    rw [ring_part, add_assoc, add_mod_left, add_mod_left, mod_eq_of_lt hg, hnext g hg, decide_eq_true (by omega)]
  rw [hsplit]
  unfold doublering
  by_cases hp0 : p = 0
  · subst hp0
    have hleft : Int.tmod (((0 : ℕ) : ℤ) - 1) (n : ℤ) = -1 := by
      rw [Nat.cast_zero, Int.zero_sub, Int.neg_tmod, Int.tmod_eq_of_lt (by omega) (by omega)]
    have hempty (g : ℕ) (hg : g < n) (h0 : g ≠ 0) (h1 : g ≠ n - 1) : ¬(0 = g) ∧ ¬(0 = if g + 1 = n then 0 else g + 1) := by
      rw [if_neg (by omega)]
      omega
    rw [flatMap_range_two (a := 0) (b := n - 1) (by omega) fun g hg h0 h1 => by
        rw [hfirst g hg, if_neg (hempty g hg h0 h1).1, if_neg (hempty g hg h0 h1).2],
      flatMap_range_two (a := 0) (b := n - 1) (by omega) fun g hg h0 h1 => by
        rw [hsecond g hg, if_neg (hempty g hg h0 h1).1, if_neg (hempty g hg h0 h1).2]]
    rw [if_pos (by omega), if_pos (by omega), if_pos (by omega), if_pos (by omega), hfirst 0 (by omega), hfirst (n - 1) (by omega),
      hsecond 0 (by omega), hsecond (n - 1) (by omega), hleft, show n - 1 + 1 = n by omega]
    have hne : (0 : ℕ) ≠ n - 1 := by omega
    simp [recv, source, hne]
  · have hleft : Int.tmod ((p : ℤ) - 1) (n : ℤ) = ((p - 1 : ℕ) : ℤ) := by
      rw [Int.tmod_eq_of_lt (by omega) (by omega)]
      omega
    have hsource : source (Int.tmod ((p : ℤ) - 1) (n : ℤ)) = some (p - 1) := by
      rw [hleft]
      exact source_natCast _
    have hempty (g : ℕ) (h0 : g ≠ p - 1) (h1 : g ≠ p) : ¬(p = g) ∧ ¬(p = if g + 1 = n then 0 else g + 1) := by
      split_ifs <;> omega
    rw [flatMap_range_two (a := p - 1) (b := p) (by omega) fun g hg h0 h1 => by
        rw [hfirst g hg, if_neg (hempty g h0 h1).1, if_neg (hempty g h0 h1).2],
      flatMap_range_two (a := p - 1) (b := p) (by omega) fun g hg h0 h1 => by
        rw [hsecond g hg, if_neg (hempty g h0 h1).1, if_neg (hempty g h0 h1).2]]
    rw [if_pos (by omega), if_pos hp, if_pos (by omega), if_pos hp, hfirst (p - 1) (by omega), hfirst p hp,
      hsecond (p - 1) (by omega), hsecond p hp, show p - 1 + 1 = p by omega, if_neg (Nat.ne_of_lt hp)]
    have hne : p ≠ p - 1 := by omega
    have hpos : 0 < p := by omega
    simp only [recv, hsource]
    simp [hne, hp0, hpos]

theorem ring_sends {p q : ℕ} (g : ℕ) : ((ringRounds n).posts g p).countP (isSend q) =
    if p = g % n ∧ (p + 1) % n = q then 1 else 0 := by
  by_cases h1 : p = g % n
  · by_cases h2 : (p + 1) % n = q <;> simp [ringRounds, ← h1, isSend, h2]
  · by_cases h2 : p = (g + 1) % n
    · simp [ringRounds, h1, ← h2, isSend]
    · simp [ringRounds, h1, h2]

theorem ring_recvs (hn : 2 ≤ n) {q : ℕ} (r : Option ℕ) (g : ℕ) : ((ringRounds n).posts g q).countP (isRecv r) =
    if q = (g + 1) % n ∧ (if q = 0 then none else some (q - 1)) = r then 1 else 0 := by
  by_cases h1 : q = g % n
  · have h2 : q ≠ (g + 1) % n := by
      intro h2
      rw [add_mod, ← h1, mod_eq_of_lt (show 1 < n by omega)] at h2
      have hq : q < n := h1 ▸ mod_lt _ (by omega)
      rcases lt_or_ge (q + 1) n with hlt | hge
      · rw [mod_eq_of_lt hlt] at h2
        omega
      · rw [show q + 1 = n by omega, mod_self] at h2
        omega
    simp [ringRounds, ← h1, h2, isRecv]
  · by_cases h2 : q = (g + 1) % n
    · by_cases h3 : (if q = 0 then none else some (q - 1)) = r <;> simp [ringRounds, h1, ← h2, isRecv, h3]
    · simp [ringRounds, h1, h2]

def ringDue (n q p g : ℕ) : ℕ :=
  if q = 0 then if p = n - 1 then (ringRounds n).tally 0 (isRecv none) g else 0
  else (ringRounds n).tally q (isRecv (some p)) g

theorem ring_turn {p g : ℕ} (hp : p < n) : p = g % n ↔ (p + 1) % n = (g + 1) % n := by
  have hg : g % n < n := mod_lt _ (by omega)
  have hnext (x : ℕ) (hx : x < n) : x + 1 = n ∧ (x + 1) % n = 0 ∨ x + 1 < n ∧ (x + 1) % n = x + 1 := by
    rcases lt_or_ge (x + 1) n with hlt | hge
    · exact .inr ⟨hlt, mod_eq_of_lt hlt⟩
    · obtain rfl : x + 1 = n := by omega
      exact .inl ⟨rfl, mod_self _⟩
  rw [← mod_add_mod g]
  generalize g % n = x at hg ⊢
  rcases hnext p hp with ⟨h1, h2⟩ | ⟨h1, h2⟩ <;> rcases hnext x hg with ⟨h3, h4⟩ | ⟨h3, h4⟩ <;> rw [h2, h4] <;> omega

theorem ring_due (hn : 2 ≤ n) {p q : ℕ} (hp : p < n) (hq : q < n) (g : ℕ) :
    ringDue n q p g = (ringRounds n).tally p (isSend q) g := by
  have hturn := fun g => ring_turn (g := g) hp
  have hsource : (p + 1) % n = q ↔ if q = 0 then p = n - 1 else p = q - 1 := by
    rcases lt_or_ge (p + 1) n with hlt | hge
    · rw [mod_eq_of_lt hlt]
      split_ifs <;> omega
    · rw [show p + 1 = n by omega, mod_self]
      split_ifs <;> omega
  have hround (g : ℕ) : (if q = 0 then if p = n - 1 then ((ringRounds n).posts g 0).countP (isRecv none) else 0
      else ((ringRounds n).posts g q).countP (isRecv (some p))) = ((ringRounds n).posts g p).countP (isSend q) := by
    simp only [ring_sends, ring_recvs hn, hturn g]
    by_cases hq0 : q = 0
    · subst hq0
      by_cases hp1 : p = n - 1
      · have h := hsource.mpr (by rw [if_pos rfl]; exact hp1)
        rw [if_pos rfl, if_pos hp1, h]
        simp
      · have h : (p + 1) % n ≠ 0 := fun h => hp1 (by simpa using hsource.mp h)
        rw [if_pos rfl, if_neg hp1, if_neg fun hand => h hand.2]
    · by_cases hp1 : p = q - 1
      · have h := hsource.mpr (by rw [if_neg hq0]; exact hp1)
        rw [if_neg hq0, if_neg hq0, h, ← hp1]
        simp
      · have h : (p + 1) % n ≠ q := fun h => hp1 (by simpa [hq0] using hsource.mp h)
        have hne : q - 1 ≠ p := fun h => hp1 h.symm
        rw [if_neg hq0, if_neg hq0, if_neg fun hand => hne (Option.some.inj hand.2), if_neg fun hand => h hand.2]
  unfold ringDue
  induction g with
  | zero => simp [Rounds.tally_zero]
  | succ g ih =>
    rw [Rounds.tally_succ _ _ rfl, Rounds.tally_succ _ _ rfl, Rounds.tally_succ _ _ rfl, ← ih, ← hround g]
    split_ifs <;> rfl

theorem ring_source {q : ℕ} {r : Option ℕ} (hr : Op.irecv r ∈ (ringRounds n).prog q) :
    r = if q = 0 then none else some (q - 1) := by
  obtain ⟨g, hg, hmem⟩ := Rounds.mem_upTo hr (by simp)
  by_cases h1 : q = g % n
  · rw [show (ringRounds n).posts g q = _ from if_pos h1] at hmem
    cases mem_singleton.mp hmem
  · by_cases h2 : q = (g + 1) % n
    · rw [show (ringRounds n).posts g q = _ from (if_neg h1).trans (if_pos h2)] at hmem
      exact Op.irecv.inj (mem_singleton.mp hmem)
    · rw [show (ringRounds n).posts g q = _ from (if_neg h1).trans (if_neg h2)] at hmem
      cases hmem

theorem ring_sound (hn : 2 ≤ n) : Rounds.Sound (ringRounds n) n (fun q => decide (q = 0)) (ringDue n) where
  pure q hq r hr := by
    rw [decide_eq_true_iff, ring_source hr]
    split_ifs with hq0 <;> simp [hq0]
  source_lt q hq p hp := by
    have hsource := ring_source hp
    split_ifs at hsource
    have := Option.some.inj hsource
    omega
  due_sum q hq r hr hlt g hg := by
    by_cases hq0 : q = 0
    · subst hq0
      obtain rfl : r = none := hr.mpr rfl
      rw [filter_accepts_none]
      simp only [ringDue, if_true]
      rw [Finset.sum_ite_eq', if_pos (Finset.mem_range.mpr (by omega))]
    · cases r with
      | none => exact absurd (of_decide_eq_true (hr.mp rfl)) hq0
      | some p => rw [filter_accepts_some (hlt p rfl), Finset.sum_singleton, ringDue, if_neg hq0]
  due_mono q hq p hp g g' hgg' _ := by
    rw [ring_due hn hp hq, ring_due hn hp hq]
    exact Rounds.tally_mono _ hgg'
  total q hq p hp := ring_due hn hp hq _
  sent_before q hq p hp g hg _ := le_of_eq (ring_due hn hp hq _)
  taken_before q hq p hp g hg _ := le_of_eq (ring_due hn hp hq _).symm
  sources q hq hwild := by
    obtain rfl : q = 0 := of_decide_eq_true hwild
    refine .inl ⟨n - 1, by omega, fun p hp hne => ?_⟩
    rw [← ring_due hn hp hq, ringDue, if_pos rfl, if_neg hne]

theorem ring_heard (hn : 2 ≤ n) {g r : ℕ} (hg : g < n + n) (h : Rounds.Knows (ringRounds n) n (ringDue n) (g % n) g r) :
    Rounds.Knows (ringRounds n) n (ringDue n) ((g + 1) % n) (g + 1) r := by
  have hlt (x : ℕ) : x % n < n := mod_lt _ (by omega)
  refine .heard (hlt _) (hlt g) hg ?_ (le_of_lt hg) ?_ h
  · simp [ringRounds]
  · rw [ring_due hn (hlt g) (hlt _), Rounds.tally_succ _ _ rfl, ring_sends, if_pos ⟨rfl, (ring_turn (hlt g)).mp rfl⟩]
    exact Nat.lt_succ_self _

theorem ring_knows_first (hn : 2 ≤ n) {g r : ℕ} (hg : g ≤ n) (hr : r < g) :
    Rounds.Knows (ringRounds n) n (ringDue n) (g % n) g r := by
  induction g with
  | zero => exact absurd hr (Nat.not_lt_zero r)
  | succ g ih =>
    refine ring_heard hn (by omega) ?_
    rcases Nat.lt_succ_iff_lt_or_eq.mp hr with hlt | rfl
    · exact ih (by omega) hlt
    · rw [mod_eq_of_lt (by omega)]
      exact .own r r

theorem ring_knows (hn : 2 ≤ n) {q r : ℕ} (hq : q < n) (hr : r < n) :
    Rounds.Knows (ringRounds n) n (ringDue n) q (ringRounds n).G r := by
  have hsecond (i : ℕ) (hi : i < n) : Rounds.Knows (ringRounds n) n (ringDue n) ((n + i) % n) (n + i) r := by
    induction i with
    | zero => exact ring_knows_first hn (le_rfl) hr
    | succ i ih =>
      have hnext := ring_heard hn (show n + i < n + n by omega) (ih (by omega))
      exact hnext
  have h := hsecond q hq
  rw [add_mod_left, mod_eq_of_lt hq] at h
  exact h.mono (Nat.add_le_add_left (Nat.le_of_lt hq) n)

end Ring

def level (K g : ℕ) : ℕ := if g < K then g else K + K - 1 - g

def Meets (n p k : ℕ) : Prop := (p ^^^ 2 ^ k) &&& (2 ^ k - 1) = 0 ∧ p ^^^ 2 ^ k < n

instance (n p k : ℕ) : Decidable (Meets n p k) := inferInstanceAs (Decidable (_ ∧ _))

/-- Upwards the lower one of two processes receives, downwards the higher one. -/
def treeRounds (n : ℕ) : Rounds where
  G := Nat.clog 2 n + Nat.clog 2 n
  posts g p :=
    let partner := p ^^^ 2 ^ level (Nat.clog 2 n) g
    if Meets n p (level (Nat.clog 2 n) g) then
      if p < partner ↔ g < Nat.clog 2 n then [.irecv (some partner)] else [.isend partner false]
    else []
  waits g p := decide (Meets n p (level (Nat.clog 2 n) g))
  no_wait g p := by
    dsimp only
    split_ifs <;> simp

theorem xor_two_pow_ne (p k : ℕ) : p ^^^ 2 ^ k ≠ p := by
  have hpos := Nat.two_pow_pos k
  rcases mod_two_eq_zero_or_one (p / 2 ^ k) with h | h
  · rw [xor_two_pow, if_pos h]
    omega
  · have hle : 2 ^ k ≤ p := by
      by_contra hlt
      rw [div_eq_of_lt (by omega)] at h
      cases h
    rw [xor_two_pow, if_neg (by omega)]
    omega

theorem xor_two_pow_eq_iff {p q k : ℕ} : p ^^^ 2 ^ k = q ↔ q ^^^ 2 ^ k = p := by
  constructor
  · rintro rfl
    exact xor_xor_cancel_right p _
  · rintro rfl
    exact xor_xor_cancel_right q _

theorem meets_iff {n p k : ℕ} : Meets n p k ↔ 2 ^ k ∣ p ∧ p ^^^ 2 ^ k < n := by
  rw [Meets, and_two_pow_sub_one_eq_mod, xor_mod, dvd_iff_mod_eq_zero]

theorem level_up {K g : ℕ} (h : g < K) : level K g = g := if_pos h

theorem level_down {K i : ℕ} (h : i < K) : level K (K + i) = K - 1 - i := by
  rw [level, if_neg (by omega)]
  omega

theorem depthLoop_eq {n K : ℕ} (hlt : ∀ g < K, 2 ^ g < n) (hle : n ≤ 2 ^ K) {fuel : ℕ} (j d : ℕ) (hd : j + d = K) (hfuel : d ≤ fuel) :
    depthLoop n fuel (2 ^ j) = 2 ^ K := by
  induction d generalizing j fuel with
  | zero =>
    obtain rfl : j = K := hd
    cases fuel with
    | zero => rfl
    | succ fuel => rw [depthLoop, if_neg (Nat.not_lt_of_le hle)]
  | succ d ih =>
    obtain ⟨fuel, rfl⟩ := exists_eq_succ_of_ne_zero (ne_of_gt (lt_of_lt_of_le (succ_pos d) hfuel))
    rw [depthLoop, if_pos (hlt j (by omega)), Nat.shiftLeft_eq, pow_one, ← pow_succ]
    exact ih (j + 1) (by omega) (le_of_succ_le_succ hfuel)

theorem downLoop_eq (body : ℕ → List Posting.Op) {fuel : ℕ} (d : ℕ) (hfuel : d ≤ fuel) :
    downLoop body fuel (2 ^ d >>> 1) = (range d).flatMap fun i => body (2 ^ (d - 1 - i)) := by
  induction d generalizing fuel with
  | zero =>
    cases fuel with
    | zero => rfl
    | succ fuel => rfl
  | succ d ih =>
    obtain ⟨fuel, rfl⟩ := exists_eq_succ_of_ne_zero (ne_of_gt (lt_of_lt_of_le (succ_pos d) hfuel))
    have hhalf : 2 ^ (d + 1) >>> 1 = 2 ^ d := by
      rw [Nat.shiftRight_eq_div_pow, pow_one, pow_succ, Nat.mul_div_cancel _ two_pos]
    rw [hhalf, downLoop, if_pos (Nat.two_pow_pos d), ih (le_of_succ_le_succ hfuel), range_succ_eq_map,
      flatMap_cons, flatMap_map]
    refine congrArg (fun f => body (2 ^ d) ++ (range d).flatMap f) (funext fun i => ?_)
    rw [show d + 1 - 1 - i.succ = d - 1 - i by omega]

section Tree

variable {n : ℕ}

theorem tree_part (g p : ℕ) : (treeRounds n).part p g =
    if Meets n p (level (Nat.clog 2 n) g) then
      if p < p ^^^ 2 ^ level (Nat.clog 2 n) g ↔ g < Nat.clog 2 n then recv (p ^^^ 2 ^ level (Nat.clog 2 n) g : ℕ)
      else send (p ^^^ 2 ^ level (Nat.clog 2 n) g) false
    else [] := by
  unfold Rounds.part
  by_cases h1 : Meets n p (level (Nat.clog 2 n) g)
  · by_cases h2 : p < p ^^^ 2 ^ level (Nat.clog 2 n) g ↔ g < Nat.clog 2 n
    · simp only [treeRounds, h1, h2, if_true, decide_true, recv, source_natCast, singleton_append]
    · simp only [treeRounds, h1, h2, if_true, if_false, decide_true, send, singleton_append]
  · simp [treeRounds, h1]

theorem tree_eq (n p : ℕ) : tree n p = (treeRounds n).prog p := by
  have hlt : ∀ g < Nat.clog 2 n, 2 ^ g < n := fun g hg => (lt_clog_iff_pow_lt one_lt_two).mp hg
  have hle : n ≤ 2 ^ Nat.clog 2 n := le_pow_clog one_lt_two n
  have hfuel : Nat.clog 2 n ≤ n := (clog_le_iff_le_pow one_lt_two).mpr (le_of_lt Nat.lt_two_pow_self)
  have hdepth : depthLoop n n 1 = 2 ^ Nat.clog 2 n := depthLoop_eq hlt hle 0 _ (zero_add _) hfuel
  have hne (k : ℕ) := xor_two_pow_ne p k
  unfold tree Rounds.prog Rounds.upTo
  dsimp only
  rw [hdepth, upLoop_clog, clog_pow 2 _ one_lt_two, downLoop_eq _ _ (le_of_lt Nat.lt_two_pow_self),
    show (treeRounds n).G = Nat.clog 2 n + Nat.clog 2 n from rfl, range_add, flatMap_append, flatMap_map]
  congr 1
  · refine flatMap_congr fun g hg => ?_
    have hg := mem_range.mp hg
    rw [tree_part, level_up hg]
    refine if_congr Iff.rfl ?_ rfl
    rcases Nat.lt_or_gt_of_ne (hne g) with hgt | hlt'
    · rw [if_neg (Nat.not_lt_of_gt hgt), if_pos hgt, if_neg (by omega)]
    · rw [if_pos hlt', if_pos (by omega)]
  · refine flatMap_congr fun i hi => ?_
    have hi := mem_range.mp hi
    rw [tree_part, level_down hi]
    refine if_congr Iff.rfl ?_ rfl
    rcases Nat.lt_or_gt_of_ne (hne (Nat.clog 2 n - 1 - i)) with hgt | hlt'
    · rw [if_neg (Nat.not_lt_of_gt hgt), if_pos hgt, if_pos (by omega)]
    · rw [if_pos hlt', if_neg (by omega)]

theorem tree_source : ∀ q < n, ∀ r, Op.irecv r ∈ (treeRounds n).prog q → ∃ p < n, r = some p := by
  intro q _ r hr
  obtain ⟨g, -, hmem⟩ := Rounds.mem_upTo hr (by simp)
  unfold treeRounds at hmem
  dsimp only at hmem
  split_ifs at hmem with h1 h2
  · exact ⟨_, h1.2, Op.irecv.inj (mem_singleton.mp hmem)⟩
  · cases mem_singleton.mp hmem
  · cases hmem

theorem tree_recvs (g p q : ℕ) : ((treeRounds n).posts g q).countP (isRecv (some p)) =
    if Meets n q (level (Nat.clog 2 n) g) ∧ (q < p ↔ g < Nat.clog 2 n) ∧ q ^^^ 2 ^ level (Nat.clog 2 n) g = p then 1 else 0 := by
  unfold treeRounds
  dsimp only
  by_cases h1 : Meets n q (level (Nat.clog 2 n) g)
  · by_cases h3 : q ^^^ 2 ^ level (Nat.clog 2 n) g = p
    · by_cases h2 : q < p ↔ g < Nat.clog 2 n <;> simp [h1, h2, h3, isRecv]
    · by_cases h2 : q < q ^^^ 2 ^ level (Nat.clog 2 n) g ↔ g < Nat.clog 2 n <;> simp [h1, h2, h3, isRecv]
  · simp [h1]

theorem tree_sends (g p q : ℕ) : ((treeRounds n).posts g p).countP (isSend q) =
    if Meets n p (level (Nat.clog 2 n) g) ∧ ¬(p < q ↔ g < Nat.clog 2 n) ∧ p ^^^ 2 ^ level (Nat.clog 2 n) g = q then 1 else 0 := by
  unfold treeRounds
  dsimp only
  by_cases h1 : Meets n p (level (Nat.clog 2 n) g)
  · by_cases h3 : p ^^^ 2 ^ level (Nat.clog 2 n) g = q
    · by_cases h2 : p < q ↔ g < Nat.clog 2 n <;> simp [h1, h2, h3, isSend]
    · by_cases h2 : p < p ^^^ 2 ^ level (Nat.clog 2 n) g ↔ g < Nat.clog 2 n <;> simp [h1, h2, h3, isSend]
  · simp [h1]

theorem tree_balanced : ∀ g < (treeRounds n).G, ∀ q < n, ∀ p < n,
    ((treeRounds n).posts g q).countP (isRecv (some p)) = ((treeRounds n).posts g p).countP (isSend q) := by
  intro g _ q hq p hp
  rw [tree_recvs, tree_sends]
  refine if_congr ?_ rfl rfl
  rw [xor_two_pow_eq_iff (p := q), meets_iff, meets_iff]
  constructor
  · rintro ⟨⟨hdvd, -⟩, hdir, hflip⟩
    have hne := xor_two_pow_ne p (level (Nat.clog 2 n) g)
    have hdvd' : 2 ^ level (Nat.clog 2 n) g ∣ p := by
      rw [dvd_iff_mod_eq_zero, ← xor_mod, hflip, ← dvd_iff_mod_eq_zero]
      exact hdvd
    rw [hflip] at hne
    exact ⟨⟨hdvd', hflip ▸ hq⟩, by omega, hflip⟩
  · rintro ⟨⟨hdvd, -⟩, hdir, hflip⟩
    have hne := xor_two_pow_ne p (level (Nat.clog 2 n) g)
    have hdvd' : 2 ^ level (Nat.clog 2 n) g ∣ q := by
      rw [dvd_iff_mod_eq_zero, ← hflip, xor_mod, ← dvd_iff_mod_eq_zero]
      exact hdvd
    rw [hflip] at hne
    exact ⟨⟨hdvd', xor_two_pow_eq_iff.mp hflip ▸ hp⟩, by omega, hflip⟩

theorem tree_heard {g p q r : ℕ} (hg : g < (treeRounds n).G) (hq : q < n) (hp : p < n)
    (hdvd : 2 ^ level (Nat.clog 2 n) g ∣ q) (hflip : q ^^^ 2 ^ level (Nat.clog 2 n) g = p) (hdir : q < p ↔ g < Nat.clog 2 n)
    (h : Rounds.Knows (treeRounds n) n (fun q p g => (treeRounds n).tally q (isRecv (some p)) g) p g r) :
    Rounds.Knows (treeRounds n) n (fun q p g => (treeRounds n).tally q (isRecv (some p)) g) q (g + 1) r := by
  have hmeets : Meets n q (level (Nat.clog 2 n) g) := meets_iff.mpr ⟨hdvd, hflip ▸ hp⟩
  refine .of_balanced tree_balanced hq hp hg (decide_eq_true hmeets) ?_ h
  rw [← tree_balanced g hg q hq p hp, tree_recvs, if_pos ⟨hmeets, hdir, hflip⟩]
  exact one_pos

theorem tree_knows_up {g q r : ℕ} (hg : g ≤ Nat.clog 2 n) (hr : r < n) (hdvd : 2 ^ g ∣ q) (hle : q ≤ r) (hlt : r < q + 2 ^ g) :
    Rounds.Knows (treeRounds n) n (fun q p g => (treeRounds n).tally q (isRecv (some p)) g) q g r := by
  induction g generalizing q with
  | zero =>
    obtain rfl : q = r := by
      rw [pow_zero] at hlt
      omega
    exact .own q 0
  | succ g ih =>
    have hdvd' : 2 ^ g ∣ q := (Nat.pow_dvd_pow 2 (le_succ g)).trans hdvd
    rcases lt_or_ge r (q + 2 ^ g) with hnear | hfar
    · exact (ih (by omega) hdvd' hle hnear).later
    · have hpos := Nat.two_pow_pos g
      have hlevel : level (Nat.clog 2 n) g = g := level_up hg
      refine tree_heard (p := q + 2 ^ g) (show g < Nat.clog 2 n + Nat.clog 2 n by omega) (by omega) (by omega) ?_ ?_ ?_
        (ih (by omega) (Nat.dvd_add hdvd' (dvd_refl _)) hfar ?_)
      · rwa [hlevel]
      · rw [hlevel, xor_of_dvd hdvd]
      · omega
      · rw [pow_succ] at hlt
        omega

theorem tree_knows_down {i q r : ℕ} (hi : i ≤ Nat.clog 2 n) (hq : q < n) (hr : r < n) (hdvd : 2 ^ (Nat.clog 2 n - i) ∣ q) :
    Rounds.Knows (treeRounds n) n (fun q p g => (treeRounds n).tally q (isRecv (some p)) g) q (Nat.clog 2 n + i) r := by
  have hle : n ≤ 2 ^ Nat.clog 2 n := le_pow_clog one_lt_two n
  induction i generalizing q with
  | zero =>
    obtain rfl : q = 0 := eq_zero_of_dvd_of_lt hdvd (lt_of_lt_of_le hq hle)
    exact tree_knows_up (le_rfl) hr (Nat.dvd_zero _) (zero_le r) (by rw [add_zero, zero_add]; omega)
  | succ i ih =>
    have hlevel : level (Nat.clog 2 n) (Nat.clog 2 n + i) = Nat.clog 2 n - (i + 1) := by
      rw [level_down hi]
      omega
    have hsucc : Nat.clog 2 n - i = Nat.clog 2 n - (i + 1) + 1 := by omega
    rw [hsucc] at ih
    by_cases hbit : 2 ^ (Nat.clog 2 n - (i + 1) + 1) ∣ q
    · exact (ih (by omega) hq hbit).later
    · obtain ⟨hflip, hge, hdvd'⟩ := xor_of_not_dvd hdvd hbit
      have hpos := Nat.two_pow_pos (Nat.clog 2 n - (i + 1))
      have hheard := @tree_heard n (Nat.clog 2 n + i) (q - 2 ^ (Nat.clog 2 n - (i + 1))) q r
      rw [hlevel] at hheard
      exact hheard (Nat.add_lt_add_left hi _) hq (by omega) hdvd hflip (by omega) (ih (by omega) (by omega) hdvd')

theorem tree_knows {q r : ℕ} (hq : q < n) (hr : r < n) :
    Rounds.Knows (treeRounds n) n (fun q p g => (treeRounds n).tally q (isRecv (some p)) g) q (treeRounds n).G r :=
  tree_knows_down (Nat.le_refl _) hq hr (by rw [Nat.sub_self, pow_zero]; exact Nat.one_dvd q)

end Tree

/-- The processes from `2 ^ K` on tell the first ones in round 0 and hear from them in the last round. -/
def doublingRounds (n K : ℕ) : Rounds where
  G := K + 2
  posts g p :=
    if g = 0 then
      if 2 ^ K ≤ p then [.irecv (some (p - 2 ^ K)), .isend (p - 2 ^ K) false]
      else if p < n - 2 ^ K then [.irecv (some (p + 2 ^ K))] else []
    else if g ≤ K then
      if p < 2 ^ K then [.irecv (some (p ^^^ 2 ^ (g - 1))), .isend (p ^^^ 2 ^ (g - 1)) false] else []
    else if p < n - 2 ^ K then [.isend (p + 2 ^ K) true] else []
  waits g p :=
    if g = 0 then decide (p < n - 2 ^ K)
    else if g ≤ K then decide (p < 2 ^ K)
    else decide (p < n - 2 ^ K) || decide (2 ^ K ≤ p)
  no_wait g p := by split_ifs <;> simp

section Doubling

variable {n K : ℕ}

theorem doubling_part_zero (hlt : n < 2 ^ (K + 1)) (p : ℕ) : (doublingRounds n K).part p 0 =
    if 2 ^ K ≤ p then [.irecv (some (p - 2 ^ K)), .isend (p - 2 ^ K) false]
    else if p < n - 2 ^ K then recv (p + 2 ^ K : ℕ) else [] := by
  rw [pow_succ] at hlt
  unfold Rounds.part
  by_cases h1 : 2 ^ K ≤ p
  · have h2 : ¬p < n - 2 ^ K := by omega
    simp [doublingRounds, h1, h2]
  · by_cases h2 : p < n - 2 ^ K
    · simp only [doublingRounds, h1, h2, recv, source_natCast, if_true, if_false, decide_true, singleton_append]
    · simp [doublingRounds, h1, h2]

theorem doubling_part_mid {g : ℕ} (hg : g < K) (p : ℕ) : (doublingRounds n K).part p (1 + g) =
    if p < 2 ^ K then sendrecvActual (p ^^^ 2 ^ g) (p ^^^ 2 ^ g) else [] := by
  have h0 : 1 + g ≠ 0 := by omega
  have hle : 1 + g ≤ K := by omega
  have hsub : 1 + g - 1 = g := by omega
  unfold Rounds.part
  by_cases h1 : p < 2 ^ K
  · simp only [doublingRounds, h0, hle, hsub, h1, sendrecvActual, source_natCast, if_true, if_false, decide_true]
    rfl
  · simp [doublingRounds, hle, h1]

theorem doubling_part_last (p : ℕ) : (doublingRounds n K).part p (1 + K) =
    if p < n - 2 ^ K then send (p + 2 ^ K) true else if 2 ^ K ≤ p then [.wait] else [] := by
  have hle : ¬1 + K ≤ K := by omega
  unfold Rounds.part
  by_cases h1 : p < n - 2 ^ K
  · simp [doublingRounds, hle, h1, send]
  · by_cases h2 : 2 ^ K ≤ p
    · simp [doublingRounds, hle, h1, h2]
    · simp [doublingRounds, hle, h1, h2]

theorem recursivedoubling_eq (hsize : nearestPower n = 2 ^ K) (hle : 2 ^ K ≤ n) (hlt : n < 2 ^ (K + 1)) {p : ℕ} (hp : p < n) :
    recursivedoubling n p = (doublingRounds n K).prog p := by
  have hrounds : (doublingRounds n K).prog p = (doublingRounds n K).part p 0 ++
      ((range K).flatMap fun g => (doublingRounds n K).part p (1 + g)) ++ (doublingRounds n K).part p (1 + K) := by
    rw [Rounds.prog, show (doublingRounds n K).G = 1 + K + 1 by rw [add_comm 1 K]; rfl, Rounds.upTo_succ, Rounds.upTo, range_add,
      flatMap_append, flatMap_map]
    congr 2
    rw [range_one, flatMap_singleton]
  have hmid : (range K).flatMap (fun g => (doublingRounds n K).part p (1 + g)) =
      if p < 2 ^ K then (range K).flatMap fun g => sendrecvActual (p ^^^ 2 ^ g) (p ^^^ 2 ^ g) else [] := by
    split_ifs with hlow
    · refine flatMap_congr fun g hg => ?_
      rw [doubling_part_mid (mem_range.mp hg), if_pos hlow]
    · refine flatMap_eq_nil_iff.mpr fun g hg => ?_
      rw [doubling_part_mid (mem_range.mp hg), if_neg hlow]
  have hloop (hlow : p < 2 ^ K) : upLoop (2 ^ K) (fun mask => if 2 ^ K ≤ p ^^^ mask then [] else sendrecvActual (p ^^^ mask : ℕ) (p ^^^ mask : ℕ))
      (2 ^ K) 1 = (range K).flatMap fun g => sendrecvActual (p ^^^ 2 ^ g) (p ^^^ 2 ^ g) := by
    rw [upLoop_clog, clog_pow 2 _ one_lt_two]
    refine flatMap_congr fun g hg => ?_
    have hpow : 2 ^ g < 2 ^ K := Nat.pow_lt_pow_right one_lt_two (mem_range.mp hg)
    exact if_neg (Nat.not_le_of_lt (xor_lt_two_pow hlow hpow))
  rw [hrounds, hmid, doubling_part_zero hlt, doubling_part_last]
  unfold recursivedoubling
  dsimp only
  rw [hsize]
  rw [pow_succ] at hlt
  by_cases hlow : p < 2 ^ K
  · rw [if_pos hlow, if_pos hlow, hloop hlow, if_neg (Nat.not_le_of_lt hlow)]
    congr 1
    · congr 1
      by_cases hne : 2 ^ K = n
      · rw [if_neg (not_not.mpr hne), if_neg (by omega), if_neg (by omega)]
      · rw [if_pos hne, if_neg (Nat.not_le_of_lt hlow)]
    · by_cases hfold : p < n - 2 ^ K
      · rw [if_pos (by omega), if_pos hfold, if_pos hfold]
      · rw [if_neg hfold, if_neg hfold, if_neg (Nat.not_le_of_lt hlow)]
        split_ifs <;> rfl
  · have hge : 2 ^ K ≤ p := by omega
    have hfold : ¬p < n - 2 ^ K := by omega
    have hne : 2 ^ K ≠ n := by omega
    rw [if_neg hlow, if_neg hlow, if_pos hge, if_pos hge, if_pos hne, if_pos hne, if_neg hfold, if_neg hfold, if_pos hge,
      append_nil, append_nil, append_nil, sendrecvActual, source_natCast]
    rfl

theorem doubling_source (hle : 2 ^ K ≤ n) : ∀ q < n, ∀ r, Op.irecv r ∈ (doublingRounds n K).prog q → ∃ p < n, r = some p := by
  intro q hq r hr
  obtain ⟨g, hg, hmem⟩ := Rounds.mem_upTo hr (by simp)
  unfold doublingRounds at hmem
  dsimp only at hmem
  split_ifs at hmem with h0 h1 h2 h3 h4 h5
  · simp at hmem
    exact ⟨q - 2 ^ K, lt_of_le_of_lt (sub_le _ _) hq, hmem⟩
  · simp at hmem
    exact ⟨q + 2 ^ K, by omega, hmem⟩
  · cases hmem
  · simp at hmem
    have hpow : 2 ^ (g - 1) < 2 ^ K := Nat.pow_lt_pow_right one_lt_two (by omega)
    exact ⟨_, lt_of_lt_of_le (xor_lt_two_pow h4 hpow) hle, hmem⟩
  · cases hmem
  · simp at hmem
  · cases hmem

theorem doubling_first (hlt : n < 2 ^ (K + 1)) {p q : ℕ} (hp : p < n) :
    ((doublingRounds n K).posts 0 q).countP (isRecv (some p)) = (if q = p + 2 ^ K ∨ p = q + 2 ^ K then 1 else 0) ∧
      ((doublingRounds n K).posts 0 p).countP (isSend q) = if p = q + 2 ^ K then 1 else 0 := by
  rw [pow_succ] at hlt
  have hpos := Nat.two_pow_pos K
  constructor
  · rcases lt_or_ge q (2 ^ K) with hlow | hhigh
    · have hge : ¬2 ^ K ≤ q := by omega
      by_cases hfold : q < n - 2 ^ K
      · simp only [doublingRounds, if_true, if_neg hge, if_pos hfold, countP_singleton, isRecv, Option.some.injEq, decide_eq_true_eq]
        exact if_congr (by omega) rfl rfl
      · simp only [doublingRounds, if_true, if_neg hge, if_neg hfold, countP_nil]
        rw [if_neg (by omega)]
    · simp only [doublingRounds, if_true, if_pos hhigh, countP_cons, countP_nil, isRecv, Option.some.injEq, decide_eq_true_eq,
        Bool.false_eq_true, if_false, zero_add]
      exact if_congr (by omega) rfl rfl
  · rcases lt_or_ge p (2 ^ K) with hlow | hhigh
    · have hge : ¬2 ^ K ≤ p := by omega
      rw [if_neg (by omega)]
      by_cases hfold : p < n - 2 ^ K <;> simp [doublingRounds, hge, hfold, isSend]
    · simp only [doublingRounds, if_true, if_pos hhigh, countP_cons, countP_nil, isSend, decide_eq_true_eq,
        Bool.false_eq_true, if_false, zero_add]
      exact if_congr (by omega) rfl rfl

theorem doubling_mid {g : ℕ} (hg : g < K) (p q : ℕ) :
    ((doublingRounds n K).posts (g + 1) q).countP (isRecv (some p)) = (if q < 2 ^ K ∧ q ^^^ 2 ^ g = p then 1 else 0) ∧
      ((doublingRounds n K).posts (g + 1) p).countP (isSend q) = if p < 2 ^ K ∧ p ^^^ 2 ^ g = q then 1 else 0 := by
  have hle : g + 1 ≤ K := hg
  constructor
  · by_cases hlow : q < 2 ^ K
    · simp [doublingRounds, hle, hlow, isRecv, countP_cons]
    · simp [doublingRounds, hle, hlow]
  · by_cases hlow : p < 2 ^ K
    · simp [doublingRounds, hle, hlow, isSend, countP_cons]
    · simp [doublingRounds, hle, hlow]

theorem doubling_last {p q : ℕ} (hq : q < n) :
    ((doublingRounds n K).posts (K + 1) q).countP (isRecv (some p)) = 0 ∧
      ((doublingRounds n K).posts (K + 1) p).countP (isSend q) = if q = p + 2 ^ K then 1 else 0 := by
  have hle : ¬K + 1 ≤ K := by omega
  constructor
  · by_cases hfold : q < n - 2 ^ K <;> simp [doublingRounds, hfold, isRecv]
  · by_cases hfold : p < n - 2 ^ K
    · simp [doublingRounds, hfold, isSend, countP_cons, eq_comm]
    · rw [if_neg (by omega)]
      simp [doublingRounds, hfold]

theorem doubling_pair {g p q : ℕ} (hg : g < K) : q < 2 ^ K ∧ q ^^^ 2 ^ g = p ↔ p < 2 ^ K ∧ p ^^^ 2 ^ g = q := by
  have hpow : 2 ^ g < 2 ^ K := Nat.pow_lt_pow_right one_lt_two hg
  constructor
  · rintro ⟨hlow, rfl⟩
    exact ⟨xor_lt_two_pow hlow hpow, xor_xor_cancel_right q _⟩
  · rintro ⟨hlow, rfl⟩
    exact ⟨xor_lt_two_pow hlow hpow, xor_xor_cancel_right p _⟩

theorem doubling_tally (hle : 2 ^ K ≤ n) (hlt : n < 2 ^ (K + 1)) {p q : ℕ} (hq : q < n) (hp : p < n) {g : ℕ} (hg : g ≤ K + 2) :
    (doublingRounds n K).tally q (isRecv (some p)) g =
      (doublingRounds n K).tally p (isSend q) g + if q = p + 2 ^ K ∧ 0 < g ∧ g < K + 2 then 1 else 0 := by
  have hpos := Nat.two_pow_pos K
  induction g with
  | zero => simp [Rounds.tally_zero]
  | succ g ih =>
    rw [Rounds.tally_succ _ _ rfl, Rounds.tally_succ _ _ rfl, ih (by omega)]
    rcases Nat.eq_zero_or_pos g with rfl | hg0
    · obtain ⟨hrecv, hsend⟩ := doubling_first hlt hp
      rw [hrecv, hsend]
      split_ifs <;> omega
    · obtain ⟨g, rfl⟩ := exists_eq_succ_of_ne_zero (ne_of_gt hg0)
      rcases lt_or_ge g K with hmid | hlast
      · obtain ⟨hrecv, hsend⟩ := @doubling_mid n K g hmid p q
        rw [hrecv, hsend, if_congr (doubling_pair hmid) rfl rfl]
        split_ifs <;> omega
      · obtain rfl : g = K := by omega
        obtain ⟨hrecv, hsend⟩ := @doubling_last n g p q hq
        rw [hrecv, hsend]
        split_ifs <;> omega

theorem doubling_sound (hle : 2 ^ K ≤ n) (hlt : n < 2 ^ (K + 1)) : Rounds.Sound (doublingRounds n K) n (fun _ => false)
    fun q p g => (doublingRounds n K).tally q (isRecv (some p)) g := by
  refine .of_specific (doubling_source hle) (fun q hq p hp => ?_) (fun q hq p hp g hg hwaits => ?_) fun q hq p hp g hg hwaits => ?_
  · have htotal := doubling_tally hle hlt hq hp (Nat.le_refl (K + 2))
    rwa [if_neg (fun h => lt_irrefl _ h.2.2), add_zero] at htotal
  · rw [doubling_tally hle hlt hq hp hg]
    refine le_of_eq (Nat.add_eq_left.mpr (if_neg ?_))
    rintro ⟨rfl, -, hbefore⟩
    -- a process from `2 ^ K` on waits in the last round only
    unfold doublingRounds at hwaits
    dsimp only at hwaits
    rw [pow_succ] at hlt
    split_ifs at hwaits with h0 h1
    · have := of_decide_eq_true hwaits
      omega
    · have := of_decide_eq_true hwaits
      omega
    · omega
  · rw [doubling_tally hle hlt hq hp hg]
    exact Nat.le_add_right _ _

theorem doubling_knows_low (hle : 2 ^ K ≤ n) (hlt : n < 2 ^ (K + 1)) {g q w r : ℕ} (hg : g ≤ K) (hq : q < 2 ^ K) (hw : w < 2 ^ K)
    (hsame : w / 2 ^ g = q / 2 ^ g) (hr : r < n) (hrw : r = w ∨ r = w + 2 ^ K) :
    Rounds.Knows (doublingRounds n K) n (fun q p g => (doublingRounds n K).tally q (isRecv (some p)) g) q (g + 1) r := by
  induction g generalizing q with
  | zero =>
    obtain rfl : w = q := by rwa [pow_zero, Nat.div_one, Nat.div_one] at hsame
    rcases hrw with rfl | rfl
    · exact .own r 1
    · refine .heard (by omega) hr (succ_pos _) ?_ (show 0 ≤ K + 2 from zero_le _) ?_ (.own _ 0)
      · simp [doublingRounds]
        omega
      · rw [Rounds.tally_zero, Rounds.tally_succ _ _ rfl, Rounds.tally_zero, (doubling_first hlt hr).1, if_pos (.inr rfl)]
        exact one_pos
  | succ g ih =>
    by_cases hnear : w / 2 ^ g = q / 2 ^ g
    · exact (ih (by omega) hq hnear).later
    · have hpow : 2 ^ g < 2 ^ K := Nat.pow_lt_pow_right one_lt_two hg
      have hp : q ^^^ 2 ^ g < 2 ^ K := xor_lt_two_pow hq hpow
      have hfar : w / 2 ^ g = (q ^^^ 2 ^ g) / 2 ^ g := by
        rw [xor_div_self, xor_one]
        rw [pow_succ, ← Nat.div_div_eq_div_mul, ← Nat.div_div_eq_div_mul] at hsame
        generalize w / 2 ^ g = a at hsame hnear ⊢
        generalize q / 2 ^ g = b at hsame hnear ⊢
        split_ifs <;> omega
      have hknown := ih (by omega) hp hfar
      refine .heard (by omega) (lt_of_lt_of_le hp hle) (show g + 1 < K + 2 by omega) ?_ (show g + 1 ≤ K + 2 by omega) ?_ hknown
      · simp [doublingRounds, hg, hq]
      · rw [Rounds.tally_succ _ _ rfl (g + 1), (doubling_mid hg _ _).1, if_pos ⟨hq, rfl⟩,
          doubling_tally hle hlt (by omega) (lt_of_lt_of_le hp hle) (by omega)]
        omega

theorem doubling_knows (hle : 2 ^ K ≤ n) (hlt : n < 2 ^ (K + 1)) {q r : ℕ} (hq : q < n) (hr : r < n) :
    Rounds.Knows (doublingRounds n K) n (fun q p g => (doublingRounds n K).tally q (isRecv (some p)) g) q (doublingRounds n K).G r := by
  have hpow := pow_succ 2 K
  have hlow (q : ℕ) (hq : q < 2 ^ K) :
      Rounds.Knows (doublingRounds n K) n (fun q p g => (doublingRounds n K).tally q (isRecv (some p)) g) q (K + 1) r := by
    refine doubling_knows_low (w := r % 2 ^ K) hle hlt (le_rfl) hq (mod_lt _ (Nat.two_pow_pos K)) ?_ hr ?_
    · rw [div_eq_of_lt (mod_lt _ (Nat.two_pow_pos K)), div_eq_of_lt hq]
    · rcases lt_or_ge r (2 ^ K) with h | h
      · exact .inl (mod_eq_of_lt h).symm
      · rw [mod_eq_sub_mod h, mod_eq_of_lt (by omega)]
        omega
  rcases lt_or_ge q (2 ^ K) with h | h
  · exact (hlow q h).later
  · refine .heard hq (show q - 2 ^ K < n by omega) (Nat.lt_succ_self (K + 1)) ?_ (show K + 1 ≤ K + 2 from le_succ _) ?_ (hlow _ (by omega))
    · simp [doublingRounds, h]
    · have hq' : q = q - 2 ^ K + 2 ^ K := by omega
      rw [Rounds.tally_succ _ _ rfl (K + 1), (doubling_last hq).1, doubling_tally hle hlt hq (by omega) (by omega), if_pos ⟨hq', by omega, by omega⟩]
      omega

end Doubling

theorem Algorithm.exists_rounds (a : Algorithm) {n : ℕ} (hn : 2 ≤ n) (htwo : a = .twoProcs → n = 2) :
    ∃ R wild due, Rounds.Sound R n wild due ∧ (∀ q < n, ∀ r < n, Rounds.Knows R n due q R.G r) ∧ ∀ p < n, a.prog n p = R.prog p := by
  cases a with
  | doublering =>
    exact ⟨_, _, _, ring_sound hn, fun _ hq _ hr => ring_knows hn hq hr, fun _ hp => doublering_eq hn hp⟩
  | recursivedoubling =>
    obtain ⟨K, hsize, hle, hlt⟩ := nearestPower_eq (show 1 ≤ n by omega)
    exact ⟨_, _, _, doubling_sound hle hlt, fun _ hq _ hr => doubling_knows hle hlt hq hr, fun _ hp => recursivedoubling_eq hsize hle hlt hp⟩
  | bruck =>
    exact ⟨_, _, _, .of_balanced (bruck_source hn) bruck_balanced, fun _ hq _ hr => bruck_knows_all hq hr, fun p _ => bruck_eq n p⟩
  | twoProcs =>
    obtain rfl := htwo rfl
    exact ⟨_, _, _, .of_balanced (bruck_source hn) bruck_balanced, fun _ hq _ hr => bruck_knows_all hq hr, fun _ hp => twoProcs_eq hp⟩
  | basicLinear =>
    exact ⟨_, _, _, linear_sound hn, fun _ hq _ hr => linear_knows hn hq hr, fun p _ => basicLinear_eq n p⟩
  | tree =>
    exact ⟨_, _, _, .of_balanced tree_source tree_balanced, fun _ hq _ hr => tree_knows hq hr, fun p _ => tree_eq n p⟩

variable {eager : ℕ → ℕ → ℕ → Bool} {s : Posting.State}

/-- No process returns from a barrier before all have entered it.  Where nothing is left to do but to enter barriers, a process in a
barrier waits for one that has not entered it. -/
theorem barriers_separate (a : Algorithm) {n : ℕ} (hn : 2 ≤ n) (htwo : a = .twoProcs → n = 2)
    (hs : (calls a n eager).system.Reachable s) :
    (∀ p < n, ∀ q < n, ∀ k, (calls a n eager).Returned s p k → (calls a n eager).Entered s q k) ∧
      ((calls a n eager).Stuck s → ∀ p < n, ∀ k, (calls a n eager).Entered s p k → ¬(calls a n eager).Returned s p k →
        ∃ q < n, ¬(calls a n eager).Entered s q k) := by
  obtain ⟨R, wild, due, hsound, hknows, hprog⟩ := a.exists_rounds hn htwo
  have htells : Rounds.Tells R (calls a n eager) := ⟨hprog⟩
  exact ⟨fun p hp q hq k hreturned => htells.separates hsound hknows hs hp hq hreturned,
    fun hstuck p hp k hentered hreturned => htells.waits_for hsound hs hstuck hp hentered hreturned⟩

/-- The first of two processes returns when the messages of both have come. -/
theorem barriers_separate_bruck : ∃ s, (calls .bruck 2 fun _ _ _ => true).system.Reachable s ∧
    (calls .bruck 2 fun _ _ _ => true).Returned s 0 0 ∧ (calls .bruck 2 fun _ _ _ => true).Entered s 1 0 := by
  have hrun : (([.exec 0, .exec 0, .exec 0, .exec 1, .exec 1, .exec 1, .deliver 1 0, .exec 0] : List Event).foldlM
      (calls .bruck 2 fun _ _ _ => true).step .start).map (·.pos 0) = some 4 := rfl
  obtain ⟨s, hs, hpos⟩ := Option.map_eq_some_iff.mp hrun
  have hreach : (calls .bruck 2 fun _ _ _ => true).system.Reachable s :=
    System.Reachable.of_foldlM (fun _ _ _ h => h) ⟨.start, [], rfl, .nil _⟩ hs
  have hreturned : (calls .bruck 2 fun _ _ _ => true).Returned s 0 0 := by
    unfold Posting.Calls.Returned
    rw [hpos]
    decide
  exact ⟨s, hreach, hreturned, (barriers_separate .bruck (by decide) (by simp) hreach).1 0 (by decide) 1 (by decide) 0 hreturned⟩

end OpenMPI.Coll.Barrier
