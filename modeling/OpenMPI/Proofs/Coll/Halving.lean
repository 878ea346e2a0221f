import OpenMPI.Coll.ReduceScatter
import OpenMPI.Proofs.Coll.Folding

/-!
# Recursive halving

One round of the halving, with mask `2 ^ j`, is a function of what the processes hold before it
(`Halved`).  From this both invariants follow: that of the runs in which no half of a block is empty
without the other, and that of the runs in which one is.
-/

namespace OpenMPI.Coll

open Lib List Nat

variable {α : Type*} {junk : (ℕ → α) → ℕ → α} {op : Op α} {counts : ℕ → ℕ} {n remain K w j r : ℕ}

@[simp] theorem disps_zero (counts : ℕ → ℕ) : disps counts 0 = 0 := rfl

theorem disps_succ (counts : ℕ → ℕ) (i : ℕ) : disps counts (i + 1) = disps counts i + counts i := by
  simp [disps, range_succ]

theorem disps_mono (counts : ℕ → ℕ) : Monotone (disps counts) :=
  monotone_nat_of_le_succ fun i => by rw [disps_succ]; exact Nat.le_add_right ..

theorem disps_add_countsBetween (counts : ℕ → ℕ) {a b : ℕ} (h : a ≤ b) :
    disps counts a + countsBetween counts a b = disps counts b := by
  obtain ⟨k, rfl⟩ := Nat.exists_eq_add_of_le h
  have happend : range' 0 a ++ range' a k = range' 0 (a + k) := by
    have := range'_append_1 (s := 0) (m := a) (n := k)
    rwa [zero_add] at this
  rw [countsBetween, Nat.add_sub_cancel_left, disps, disps, range_eq_range', range_eq_range',
    ← List.sum_append, ← map_append, happend]

def base (w j : ℕ) : ℕ := w / 2 ^ j * 2 ^ j

def blockOff (counts : ℕ → ℕ) (w j : ℕ) : ℕ := disps counts (base w j)

def blockCnt (counts : ℕ → ℕ) (w j : ℕ) : ℕ := countsBetween counts (base w j) (base w j + 2 ^ j)

theorem blockOff_add (counts : ℕ → ℕ) (w j : ℕ) :
    blockOff counts w j + blockCnt counts w j = disps counts (base w j + 2 ^ j) :=
  disps_add_countsBetween counts (Nat.le_add_right ..)

theorem base_succ_of_even (h : w / 2 ^ j % 2 = 0) : base w (j + 1) = base w j := by
  unfold base
  rw [pow_succ, ← Nat.div_div_eq_div_mul, mul_comm (2 ^ j), ← mul_assoc]
  congr 1
  omega

theorem base_succ_of_odd (h : w / 2 ^ j % 2 = 1) : base w (j + 1) + 2 ^ j = base w j := by
  unfold base
  rw [pow_succ, ← Nat.div_div_eq_div_mul, mul_comm (2 ^ j), ← mul_assoc]
  calc w / 2 ^ j / 2 * 2 * 2 ^ j + 2 ^ j = (w / 2 ^ j / 2 * 2 + 1) * 2 ^ j := by rw [succ_mul]
    _ = w / 2 ^ j * 2 ^ j := by
      congr 1
      omega

theorem base_xor (w j : ℕ) : base (w ^^^ 2 ^ j) (j + 1) = base w (j + 1) := by
  rw [base, xor_div_succ, base]

/-- What number `w` does in the round with mask `2 ^ j`. -/
def halvingTurn (junk : (ℕ → α) → ℕ → α) (op : Op α) (remain : ℕ) (counts : ℕ → ℕ) (w j : ℕ) :
    List (Instr (Bufs BasicBuf α) α) :=
  let peer := realOf remain (w ^^^ 2 ^ j)
  let sendCount := blockCnt counts (w ^^^ 2 ^ j) j
  let recvCount := blockCnt counts w j
  (if 0 < sendCount ∧ recvCount ≠ 0 then [.postBuf junk .recvBuf (blockOff counts w j) recvCount] else []) ++
    (if 0 < recvCount ∧ sendCount ≠ 0 then
      [.sendBuf peer .resultBuf (blockOff counts (w ^^^ 2 ^ j) j) sendCount] else []) ++
    (if 0 < sendCount ∧ recvCount ≠ 0 then [.recvBuf peer .recvBuf (blockOff counts w j) recvCount]
      else []) ++
    if 0 < recvCount then
      [opReduce op .recvBuf (blockOff counts w j) .resultBuf (blockOff counts w j) recvCount]
    else []

theorem halvingLoop_succ (remain : ℕ) (counts : ℕ → ℕ) (w j fuel : ℕ) :
    halvingLoop junk op remain counts w (fuel + 1) (2 ^ j) (base w (j + 1)) (base w (j + 1))
        (base w (j + 1) + 2 ^ (j + 1)) =
      halvingTurn junk op remain counts w j ++ halvingLoop junk op remain counts w fuel (2 ^ j >>> 1)
        (base w j) (base w j) (base w j + 2 ^ j) := by
  have hpos := Nat.two_pow_pos j
  have hxor := xor_div_mod w j
  rw [halvingLoop, if_pos hpos]
  rcases mod_two_eq_zero_or_one (w / 2 ^ j) with h | h
  · have hlow : w < w ^^^ 2 ^ j := by
      rw [xor_two_pow, if_pos h]
      omega
    have hb := base_succ_of_even h
    have hb' := base_succ_of_odd (w := w ^^^ 2 ^ j) (j := j) (by omega)
    rw [base_xor, hb] at hb'
    have hlast : base w j + 2 ^ (j + 1) = base (w ^^^ 2 ^ j) j + 2 ^ j := by
      rw [← hb', pow_succ]
      omega
    simp only [hlow, if_true, hb, hb', hlast, halvingTurn, blockOff, blockCnt, realOf]
  · have hhigh : ¬w < w ^^^ 2 ^ j := by
      rw [xor_two_pow, if_neg (by omega)]
      omega
    have hb := base_succ_of_odd h
    have hb' := base_succ_of_even (w := w ^^^ 2 ^ j) (j := j) (by omega)
    rw [base_xor] at hb'
    rw [hb'] at hb
    have hlast : base (w ^^^ 2 ^ j) j + 2 ^ (j + 1) = base w j + 2 ^ j := by
      rw [← hb, pow_succ]
      omega
    simp only [hhigh, if_false, hb', hb, hlast, halvingTurn, blockOff, blockCnt, realOf]
    rfl

theorem halvingLoop_eq (junk : (ℕ → α) → ℕ → α) (op : Op α) (remain : ℕ) (counts : ℕ → ℕ) (w j fuel : ℕ) (hfuel : j ≤ fuel) :
    halvingLoop junk op remain counts w fuel (2 ^ j >>> 1) (base w j) (base w j) (base w j + 2 ^ j) =
      (range j).reverse.flatMap (halvingTurn junk op remain counts w) := by
  induction j generalizing fuel with
  | zero => cases fuel <;> rfl
  | succ j ih =>
    obtain ⟨fuel, rfl⟩ := exists_eq_succ_of_ne_zero (by omega : fuel ≠ 0)
    have hshift : 2 ^ (j + 1) >>> 1 = 2 ^ j := by
      rw [pow_succ, Nat.shiftRight_eq_div_pow, pow_one, Nat.mul_div_cancel _ two_pos]
    rw [hshift, halvingLoop_succ, ih fuel (by omega), range_succ, reverse_append,
      reverse_singleton, singleton_append, flatMap_cons]

def Exchanges (remain : ℕ) (counts : ℕ → ℕ) (j r : ℕ) : Prop :=
  ¬folded remain r ∧ 0 < blockCnt counts (tmpRank remain r) j ∧
    0 < blockCnt counts (tmpRank remain r ^^^ 2 ^ j) j

instance (remain : ℕ) (counts : ℕ → ℕ) (j r : ℕ) : Decidable (Exchanges remain counts j r) :=
  inferInstanceAs (Decidable (_ ∧ _))

def partnerOf (remain j r : ℕ) : ℕ := realOf remain (tmpRank remain r ^^^ 2 ^ j)

def Kept (remain : ℕ) (counts : ℕ → ℕ) (j r i : ℕ) : Prop :=
  ¬folded remain r ∧ blockOff counts (tmpRank remain r) j ≤ i ∧
    i < blockOff counts (tmpRank remain r) j + blockCnt counts (tmpRank remain r) j

instance (remain : ℕ) (counts : ℕ → ℕ) (j r i : ℕ) : Decidable (Kept remain counts j r i) :=
  inferInstanceAs (Decidable (_ ∧ _))

/-- What rank `r` makes in the round of what the ranks hold before it. -/
structure Halved (op : Op α) (remain : ℕ) (counts : ℕ → ℕ) (j : ℕ) (m : ℕ → Bufs BasicBuf α) (r : ℕ)
    (m' : Bufs BasicBuf α) : Prop where
  result : ∀ i, m' .resultBuf i = if Kept remain counts j r i then
    op.fn (if Exchanges remain counts j r then m (partnerOf remain j r) .resultBuf i else m r .recvBuf i)
      (m r .resultBuf i) else m r .resultBuf i
  recv : ∀ i, m' .recvBuf i = if Exchanges remain counts j r ∧ Kept remain counts j r i then
    m (partnerOf remain j r) .resultBuf i else m r .recvBuf i
  frame : ∀ c, c ≠ .resultBuf → c ≠ .recvBuf → m' c = m r c

def halvingRound (junk : (ℕ → α) → ℕ → α) (op : Op α) (remain : ℕ) (counts : ℕ → ℕ) (j r : ℕ) :
    List (Instr (Bufs BasicBuf α) α) :=
  if folded remain r then [] else halvingTurn junk op remain counts (tmpRank remain r) j

theorem exchanges_partner (hn : n = 2 ^ K + remain) (hlt : remain < 2 ^ K) (hj : j < K) (hr : r < n)
    (h : Exchanges remain counts j r) :
    partnerOf remain j r < n ∧ Exchanges remain counts j (partnerOf remain j r) ∧
      partnerOf remain j (partnerOf remain j r) = r := by
  obtain ⟨hfold, hkeep, hgive⟩ := h
  have hback : tmpRank remain r ^^^ 2 ^ j ^^^ 2 ^ j = tmpRank remain r := by
    rw [Nat.xor_assoc, Nat.xor_self, xor_zero]
  refine ⟨realOf_lt hn (xor_lt_two_pow (tmpRank_lt hn hlt hr)
    (Nat.pow_lt_pow_right (by decide) hj)), ⟨not_folded_realOf _ _, ?_, ?_⟩, ?_⟩
  · rwa [partnerOf, tmpRank_realOf]
  · rwa [partnerOf, tmpRank_realOf, hback]
  · rw [partnerOf, partnerOf, tmpRank_realOf, hback, realOf_tmpRank hfold]

theorem halvingRound_gives (hn : n = 2 ^ K + remain) (hlt : remain < 2 ^ K) (hj : j < K)
    (m : ℕ → Bufs BasicBuf α) :
    Gives n (halvingRound junk op remain counts j) m fun m' => ∀ r < n,
      Halved op remain counts j m r (m' r) := by
  have hpairs : Gives n (fun r =>
      (if Exchanges remain counts j r then
        [.postBuf junk .recvBuf (blockOff counts (tmpRank remain r) j) (blockCnt counts (tmpRank remain r) j),
          .sendBuf (partnerOf remain j r) .resultBuf (blockOff counts (tmpRank remain r ^^^ 2 ^ j) j)
            (blockCnt counts (tmpRank remain r ^^^ 2 ^ j) j)] else []) ++
      ((if Exchanges remain counts j r then
        [.recvBuf (partnerOf remain j r) .recvBuf (blockOff counts (tmpRank remain r) j)
          (blockCnt counts (tmpRank remain r) j)] else []) ++
      if ¬folded remain r ∧ 0 < blockCnt counts (tmpRank remain r) j then
        [opReduce op .recvBuf (blockOff counts (tmpRank remain r) j) .resultBuf
          (blockOff counts (tmpRank remain r) j) (blockCnt counts (tmpRank remain r) j)] else [])) m
      fun m' => ∀ r < n, Halved op remain counts j m r (m' r) := by
    refine Gives.pairs (Exchanges remain counts j) (partnerOf remain j)
      (fun r hr h => exchanges_partner hn hlt hj hr h)
      (fun r => slice (m r .resultBuf) (blockOff counts (tmpRank remain r ^^^ 2 ^ j) j)
        (blockCnt counts (tmpRank remain r ^^^ 2 ^ j) j))
      (fun r => if Exchanges remain counts j r then (m r).blur junk .recvBuf
        (blockOff counts (tmpRank remain r) j) (blockCnt counts (tmpRank remain r) j) else m r)
      (fun r (m' : Bufs BasicBuf α) => Halved op remain counts j m r m') (fun r _ => ?_) fun r hr => ?_
    · by_cases h : Exchanges remain counts j r
      · rw [if_pos h, if_pos h, if_pos h]
        refine Exec.work ((Exec.send_one _ _ _).congr (fun _ => rfl) fun d => ?_)
        rw [Bufs.read, Bufs.blur_of_ne _ _ _ (by decide)]
      · rw [if_neg h, if_neg h, if_neg h]
        exact .nil _
    · by_cases h : Exchanges remain counts j r
      · have hback : tmpRank remain (partnerOf remain j r) ^^^ 2 ^ j = tmpRank remain r := by
          rw [partnerOf, tmpRank_realOf, Nat.xor_assoc, Nat.xor_self, xor_zero]
        rw [if_pos h, if_pos h, if_pos h, if_pos ⟨h.1, h.2.1⟩, hback, ← Mail.append_nothing (Mail.one _ _)]
        refine Does.recvBuf_cons (le_rfl) (Does.reduceBuf ⟨fun i => ?_, fun i => ?_, fun c h1 h2 => ?_⟩)
        · rw [Bufs.reduce_same, Bufs.write_slice_same, if_pos h]
          have hres : ∀ l, ((m r).blur junk .recvBuf (blockOff counts (tmpRank remain r) j)
              (blockCnt counts (tmpRank remain r) j)).write .recvBuf (blockOff counts (tmpRank remain r) j) l
                .resultBuf = m r .resultBuf := fun l => by
            rw [Bufs.write_of_ne l (by decide), Bufs.blur_of_ne _ _ _ (by decide)]
          rw [hres]
          by_cases hk : Kept remain counts j r i
          · rw [if_pos hk, if_pos hk.2, if_pos hk.2]
          · rw [if_neg hk, if_neg fun h' => hk ⟨h.1, h'⟩]
        · rw [Bufs.reduce_of_ne _ _ _ _ (by decide), Bufs.write_slice_same, Bufs.blur_apply]
          by_cases hk : Kept remain counts j r i
          · rw [if_pos hk.2, if_pos ⟨h, hk⟩]
          · have hno : ¬(blockOff counts (tmpRank remain r) j ≤ i ∧
                i < blockOff counts (tmpRank remain r) j + blockCnt counts (tmpRank remain r) j) :=
              fun h' => hk ⟨h.1, h'⟩
            rw [if_neg hno, if_neg fun h' => hno h'.2, if_neg fun h' => hk h'.2]
        · rw [Bufs.reduce_of_ne _ _ _ _ h1, Bufs.write_of_ne _ h2, Bufs.blur_of_ne _ _ _ h2]
      · rw [if_neg h, if_neg h, if_neg h, nil_append]
        by_cases hkeep : ¬folded remain r ∧ 0 < blockCnt counts (tmpRank remain r) j
        · rw [if_pos hkeep]
          refine Does.reduceBuf ⟨fun i => ?_, fun i => ?_, fun c h1 _ => Bufs.reduce_of_ne _ _ _ _ h1⟩
          · rw [Bufs.reduce_same, if_neg h]
            exact if_congr (and_iff_right hkeep.1).symm rfl rfl
          · rw [Bufs.reduce_of_ne _ _ _ _ (by decide), if_neg fun h' => h h'.1]
        · rw [if_neg hkeep]
          refine .nil ⟨fun i => (if_neg fun h' => hkeep ⟨h'.1, ?_⟩).symm,
            fun i => (if_neg fun h' => h h'.1).symm, fun _ _ _ => rfl⟩
          obtain ⟨-, h1, h2⟩ := h'
          omega
  refine hpairs.congr fun r _ => ?_
  unfold halvingRound
  by_cases hfold : folded remain r
  · have hno : ¬Exchanges remain counts j r := fun h => h.1 hfold
    simp [hfold, hno]
  · have hiff : Exchanges remain counts j r ↔ 0 < blockCnt counts (tmpRank remain r ^^^ 2 ^ j) j ∧
        blockCnt counts (tmpRank remain r) j ≠ 0 := by
      unfold Exchanges
      rw [← Nat.pos_iff_ne_zero]
      exact ⟨fun h => ⟨h.2.2, h.2.1⟩, fun h => ⟨hfold, h.2, h.1⟩⟩
    have hswap : 0 < blockCnt counts (tmpRank remain r) j ∧
        blockCnt counts (tmpRank remain r ^^^ 2 ^ j) j ≠ 0 ↔ Exchanges remain counts j r := by
      rw [hiff, Nat.pos_iff_ne_zero, Nat.pos_iff_ne_zero]
      exact and_comm
    unfold halvingTurn
    simp only [hfold, ← hiff, hswap, if_false, not_false_eq_true, true_and]
    by_cases h : Exchanges remain counts j r
    · simp [h, partnerOf]
    · simp [h]

/-- The copy of the operand, and the fold. -/
def halvingStart (remain count : ℕ) (op : Op α) (sb : BasicBuf) (r : ℕ) :
    List (Instr (Bufs BasicBuf α) α) :=
  [sndrcv sb 0 count .resultBuf 0 count] ++
    if r < 2 * remain then
      if r % 2 = 0 then [.sendBuf (r + 1) .resultBuf 0 count]
      else [.recvBuf (r - 1) .recvBuf 0 count, opReduce op .recvBuf 0 .resultBuf 0 count]
    else []

/-- What a rank that is not folded has then; `x r` is the operand of rank `r`. -/
structure Folded (op : Op α) (remain count : ℕ) (x : ℕ → ℕ → α) (m : Bufs BasicBuf α) (r : ℕ)
    (m' : Bufs BasicBuf α) : Prop where
  result : ¬folded remain r →
    Holds op.fn x (ranksOf remain (tmpRank remain r)) (m' .resultBuf) 0 count
  recv : ∀ i, m' .recvBuf i = m .recvBuf i ∨ r < 2 * remain ∧ r % 2 = 1 ∧ m' .recvBuf i = x (r - 1) i
  outside : ∀ i, count ≤ i → m' .resultBuf i = m .resultBuf i
  frame : ∀ c, c ≠ .resultBuf → c ≠ .recvBuf → m' c = m c

/-- The copy to the receive buffer, and the unfold. -/
def halvingEnd (remain : ℕ) (rcounts : ℕ → ℕ) (rb : BasicBuf) (r : ℕ) :
    List (Instr (Bufs BasicBuf α) α) :=
  (if folded remain r then [] else if rcounts r ≠ 0 then
      [sndrcv .resultBuf (disps rcounts r) (rcounts r) rb 0 (rcounts r)] else []) ++
    if r < 2 * remain then
      if r % 2 = 0 then if rcounts r ≠ 0 then [.recvBuf (r + 1) rb 0 (rcounts r)] else []
      else if rcounts (r - 1) ≠ 0 then
        [.sendBuf (r - 1) .resultBuf (disps rcounts (r - 1)) (rcounts (r - 1))]
      else []
    else []

theorem halving_eq {rcounts : ℕ → ℕ} {sb rb : BasicBuf} (hsize : nearestPower n = 2 ^ K)
    (hn : n = 2 ^ K + remain) (hlt : remain < 2 ^ K) (hr : r < n) :
    halving junk n r rcounts op sb rb =
      halvingStart remain (disps rcounts n) op sb r ++
        (range K).reverse.flatMap (fun j => halvingRound junk op remain (tmpRcounts rcounts remain) j r) ++
        halvingEnd remain rcounts rb r := by
  have hloop (w : ℕ) (hw : w < 2 ^ K) :
      halvingLoop junk op remain (tmpRcounts rcounts remain) w (2 ^ K) (2 ^ K >>> 1) 0 0 (2 ^ K) =
        (range K).reverse.flatMap (halvingTurn junk op remain (tmpRcounts rcounts remain) w) := by
    have hbase : base w K = 0 := by rw [base, div_eq_of_lt hw, zero_mul]
    have := halvingLoop_eq junk op remain (tmpRcounts rcounts remain) w K (2 ^ K)
      (le_of_lt Nat.lt_two_pow_self)
    rwa [hbase, zero_add] at this
  have hremain : n - 2 ^ K = remain := by omega
  unfold halving halvingStart halvingEnd halvingRound
  simp only [hsize, hremain]
  by_cases hfold : folded remain r
  · simp [hfold, hfold.1, hfold.2]
  · by_cases hlow : r < 2 * remain
    · have hodd : r % 2 ≠ 0 := fun h => hfold ⟨hlow, h⟩
      have hrank : tmpRank remain r = r / 2 := if_pos hlow
      simp only [if_pos hlow, if_neg hodd, if_neg hfold, hrank, hloop (r / 2) (by omega), append_assoc]
    · have hrank : tmpRank remain r = r - remain := if_neg hlow
      simp only [if_neg hlow, if_neg hfold, hrank, hloop (r - remain) (by omega), append_assoc]

theorem halvingStart_gives (hn : n = 2 ^ K + remain) (hlt : remain < 2 ^ K) (count : ℕ) (sb : BasicBuf)
    (m : ℕ → Bufs BasicBuf α) :
    Gives n (halvingStart remain count op sb) m fun m' => ∀ r < n,
      Folded op remain count (fun r => m r sb) (m r) r (m' r) := by
  have hround : Gives n (fun r =>
      ([sndrcv sb 0 count .resultBuf 0 count] ++
        if folded remain r then [.sendBuf (r + 1) .resultBuf 0 count] else []) ++
      if r < 2 * remain ∧ r % 2 = 1 then
        [.recvBuf (r - 1) .recvBuf 0 count, opReduce op .recvBuf 0 .resultBuf 0 count] else []) m
      fun m' => ∀ r < n, Folded op remain count (fun r => m r sb) (m r) r (m' r) := by
    refine Gives.round (fun r => (m r).copy sb 0 .resultBuf 0 count)
      (fun r (m' : Bufs BasicBuf α) => Folded op remain count (fun r => m r sb) (m r) r m')
      (fun s d => if folded remain s ∧ d = s + 1 then [slice (m s sb) 0 count] else [])
      (fun s d hne => ?_) (fun r _ => ?_) fun r hr => ?_
    · split_ifs at hne with h
      · obtain ⟨⟨hs, heven⟩, rfl⟩ := h
        omega
      · exact absurd rfl hne
    · obtain ⟨m', hexec, rfl⟩ : Does [sndrcv sb 0 count .resultBuf 0 count] .nothing .nothing (m r)
          (· = (m r).copy sb 0 .resultBuf 0 count) := sndrcv_does rfl
      have hsend : Exec (if folded remain r then [.sendBuf (r + 1) .resultBuf 0 count] else [])
          ((m r).copy sb 0 .resultBuf 0 count) .nothing ((m r).copy sb 0 .resultBuf 0 count)
          (if folded remain r then .one (r + 1) (slice (m r sb) 0 count) else .nothing) := by
        by_cases h : folded remain r
        · rw [if_pos h, if_pos h]
          refine (Exec.send_one _ _ _).congr (fun _ => rfl) fun d => ?_
          have hread : Bufs.read .resultBuf 0 count ((m r).copy sb 0 .resultBuf 0 count) =
              slice (m r sb) 0 count :=
            slice_congr fun i hi => by rw [zero_add, Bufs.copy_zero hi]
          rw [hread]
        · rw [if_neg h, if_neg h]
          exact .nil _
      refine (hexec.append hsend).congr (fun _ => rfl) fun d => ?_
      by_cases h : folded remain r
      · rw [if_pos h]
        exact if_congr (by simp [h]) rfl rfl
      · rw [if_neg h, if_neg fun h' => h h'.1]
        rfl
    · have hown (i : ℕ) (hi : i < count) : (m r).copy sb 0 .resultBuf 0 count .resultBuf i = m r sb i :=
        Bufs.copy_zero hi
      have hout (i : ℕ) (hi : count ≤ i) :
          (m r).copy sb 0 .resultBuf 0 count .resultBuf i = m r .resultBuf i := by
        rw [Bufs.copy_apply, if_neg (by omega)]
      by_cases h : r < 2 * remain ∧ r % 2 = 1
      · have hprev : folded remain (r - 1) := ⟨by omega, by omega⟩
        have hranks : ranksOf remain (tmpRank remain r) = [r - 1] ++ [r] := by
          rw [tmpRank, if_pos h.1, ranksOf, if_pos (by omega)]
          congr 1
          · omega
          · congr 1
            omega
        rw [if_pos h]
        refine (Does.recvBuf_cons (le_rfl) (f := m (r - 1) sb) (o := 0) (Does.reduceBuf
          ⟨fun _ => ?_, fun i => ?_, fun i hi => ?_, fun c h1 h2 => ?_⟩)).congr (fun s => ?_) fun _ => rfl
        · rw [Mail.append_nothing]
          by_cases hs : s = r - 1
          · subst hs
            rw [Mail.one_self, if_pos ⟨hprev, by omega⟩]
          · rw [Mail.one_of_ne _ hs, if_neg fun h' => hs (by omega)]
        · rw [hranks]
          refine Holds.reduce_zero (.single_zero fun i hi => Bufs.write_slice_zero hi) ?_
          rw [Bufs.write_of_ne _ (by decide)]
          exact .single_zero hown
        · rw [Bufs.reduce_of_ne _ _ _ _ (by decide), Bufs.write_slice_same]
          by_cases hi : 0 ≤ i ∧ i < 0 + count
          · rw [if_pos hi]
            exact .inr ⟨h.1, h.2, rfl⟩
          · rw [if_neg hi, Bufs.copy_of_ne _ _ _ (by decide)]
            exact .inl rfl
        · rw [Bufs.reduce_same, if_neg (by omega), Bufs.write_of_ne _ (by decide)]
          exact hout i hi
        · rw [Bufs.reduce_of_ne _ _ _ _ h1, Bufs.write_of_ne _ h2, Bufs.copy_of_ne _ _ _ h1]
      · rw [if_neg h]
        refine (Does.nil ⟨fun hf => ?_, fun i => .inl ?_, hout, fun c h1 _ =>
          Bufs.copy_of_ne _ _ _ h1⟩).congr (fun s => ?_) fun _ => rfl
        · refine (if_neg fun h' => h ?_).symm
          obtain ⟨⟨hs, heven⟩, hnext⟩ := h'
          exact ⟨by omega, by omega⟩
        · have hlow : ¬r < 2 * remain := fun hlow => h ⟨hlow, by
            have hodd : r % 2 ≠ 0 := fun h0 => hf ⟨hlow, h0⟩
            omega⟩
          have hranks : ranksOf remain (tmpRank remain r) = [r] := by
            rw [tmpRank, if_neg hlow, ranksOf, if_neg (by omega)]
            congr 1
            omega
          rw [hranks]
          exact .single_zero hown
        · rw [Bufs.copy_of_ne _ _ _ (by decide)]
  refine hround.congr fun r _ => ?_
  unfold halvingStart
  by_cases hlow : r < 2 * remain
  · rcases mod_two_eq_zero_or_one r with h | h <;> simp [folded, h, hlow]
  · simp [folded, hlow]

def holder (remain r : ℕ) : ℕ := if folded remain r then r + 1 else r

theorem not_folded_holder (remain r : ℕ) : ¬folded remain (holder remain r) := by
  unfold holder
  split_ifs with h
  · intro h'
    have h1 := h.2
    have h2 := h'.2
    omega
  · exact h

theorem tmpRank_holder (remain r : ℕ) : tmpRank remain (holder remain r) = tmpRank remain r := by
  unfold holder
  split_ifs with h
  · obtain ⟨h1, h2⟩ := h
    unfold tmpRank
    rw [if_pos (by omega), if_pos h1]
    omega
  · rfl

theorem halvingEnd_gives (hn : n = 2 ^ K + remain) (hlt : remain < 2 ^ K) {rcounts : ℕ → ℕ} {rb : BasicBuf}
    (hrb : rb ≠ .resultBuf) (m : ℕ → Bufs BasicBuf α) :
    Gives n (halvingEnd remain rcounts rb) m fun m' => ∀ r < n,
      (∀ i < rcounts r, m' r rb i = m (holder remain r) .resultBuf (disps rcounts r + i)) ∧
        ∀ c, c ≠ rb → m' r c = m r c := by
  have hround : Gives n (fun r =>
      ((if ¬folded remain r ∧ rcounts r ≠ 0 then
          [sndrcv .resultBuf (disps rcounts r) (rcounts r) rb 0 (rcounts r)] else []) ++
        if (r < 2 * remain ∧ r % 2 = 1) ∧ rcounts (r - 1) ≠ 0 then
          [.sendBuf (r - 1) .resultBuf (disps rcounts (r - 1)) (rcounts (r - 1))] else []) ++
      if folded remain r ∧ rcounts r ≠ 0 then [.recvBuf (r + 1) rb 0 (rcounts r)] else []) m
      fun m' => ∀ r < n,
        (∀ i < rcounts r, m' r rb i = m (holder remain r) .resultBuf (disps rcounts r + i)) ∧
          ∀ c, c ≠ rb → m' r c = m r c := by
    refine Gives.round
      (fun r => if ¬folded remain r ∧ rcounts r ≠ 0 then
        (m r).copy .resultBuf (disps rcounts r) rb 0 (rcounts r) else m r)
      (fun r (m' : Bufs BasicBuf α) =>
        (∀ i < rcounts r, m' rb i = m (holder remain r) .resultBuf (disps rcounts r + i)) ∧
          ∀ c, c ≠ rb → m' c = m r c)
      (fun s d => if ((s < 2 * remain ∧ s % 2 = 1) ∧ rcounts (s - 1) ≠ 0) ∧ d = s - 1 then
        [slice (m s .resultBuf) (disps rcounts d) (rcounts d)] else [])
      (fun s d hne => ?_) (fun r _ => ?_) fun r hr => ?_
    · split_ifs at hne with h
      · obtain ⟨⟨⟨hs, hodd⟩, -⟩, rfl⟩ := h
        omega
      · exact absurd rfl hne
    · have hcopy : Does (if ¬folded remain r ∧ rcounts r ≠ 0 then
          [sndrcv .resultBuf (disps rcounts r) (rcounts r) rb 0 (rcounts r)] else []) .nothing .nothing
          (m r) (· = if ¬folded remain r ∧ rcounts r ≠ 0 then
            (m r).copy .resultBuf (disps rcounts r) rb 0 (rcounts r) else m r) := by
        by_cases h : ¬folded remain r ∧ rcounts r ≠ 0
        · rw [if_pos h, if_pos h]
          exact sndrcv_does rfl
        · rw [if_neg h, if_neg h]
          exact .nil rfl
      obtain ⟨m', hexec, rfl⟩ := hcopy
      have hsame : (if ¬folded remain r ∧ rcounts r ≠ 0 then
          (m r).copy .resultBuf (disps rcounts r) rb 0 (rcounts r) else m r) .resultBuf =
            m r .resultBuf := by
        by_cases h : ¬folded remain r ∧ rcounts r ≠ 0
        · rw [if_pos h, Bufs.copy_of_ne _ _ _ hrb.symm]
        · rw [if_neg h]
      have hsend : Exec (if (r < 2 * remain ∧ r % 2 = 1) ∧ rcounts (r - 1) ≠ 0 then
          [.sendBuf (r - 1) .resultBuf (disps rcounts (r - 1)) (rcounts (r - 1))] else [])
          (if ¬folded remain r ∧ rcounts r ≠ 0 then
            (m r).copy .resultBuf (disps rcounts r) rb 0 (rcounts r) else m r) .nothing
          (if ¬folded remain r ∧ rcounts r ≠ 0 then
            (m r).copy .resultBuf (disps rcounts r) rb 0 (rcounts r) else m r)
          (if (r < 2 * remain ∧ r % 2 = 1) ∧ rcounts (r - 1) ≠ 0 then
            .one (r - 1) (slice (m r .resultBuf) (disps rcounts (r - 1)) (rcounts (r - 1)))
          else .nothing) := by
        by_cases h : (r < 2 * remain ∧ r % 2 = 1) ∧ rcounts (r - 1) ≠ 0
        · rw [if_pos h, if_pos h]
          refine (Exec.send_one _ _ _).congr (fun _ => rfl) fun d => ?_
          rw [Bufs.read, hsame]
        · rw [if_neg h, if_neg h]
          exact .nil _
      refine (hexec.append hsend).congr (fun _ => rfl) fun d => ?_
      rw [Mail.nothing_append]
      by_cases h : (r < 2 * remain ∧ r % 2 = 1) ∧ rcounts (r - 1) ≠ 0
      · rw [if_pos h]
        by_cases hd : d = r - 1
        · subst hd
          rw [Mail.one_self, if_pos ⟨h, rfl⟩]
        · rw [Mail.one_of_ne _ hd, if_neg fun h' => hd h'.2]
      · rw [if_neg h, if_neg fun h' => h h'.1]
        rfl
    · by_cases h : folded remain r ∧ rcounts r ≠ 0
      · have hholder : holder remain r = r + 1 := if_pos h.1
        rw [if_pos h, if_neg fun h' => h'.1 h.1, hholder]
        refine (Does.recvBuf (f := m (r + 1) .resultBuf) (o := disps rcounts r) (le_rfl)
          ⟨fun i hi => ?_, fun c hc => Bufs.write_of_ne _ hc⟩).congr (fun s => ?_) fun _ => rfl
        · have := h.1.1
          have := h.1.2
          by_cases hs : s = r + 1
          · subst hs
            rw [Mail.one_self, if_pos ⟨⟨⟨by omega, by omega⟩, h.2⟩, rfl⟩]
          · rw [Mail.one_of_ne _ hs, if_neg fun h' => hs (by omega)]
        · rw [Bufs.write_slice_apply, if_pos ⟨rfl, zero_le i, by omega⟩, Nat.sub_zero]
      · rw [if_neg h]
        refine (Does.nil ⟨fun i hi => ?_, fun c hc => ?_⟩).congr (fun s => ?_) fun _ => rfl
        · refine (if_neg fun h' => h ⟨⟨?_, ?_⟩, ?_⟩).symm
          · omega
          · omega
          · obtain ⟨⟨_, hne⟩, rfl⟩ := h'
            exact hne
        · have hpos : rcounts r ≠ 0 := by omega
          have hfold : ¬folded remain r := fun h' => h ⟨h', hpos⟩
          have hholder : holder remain r = r := if_neg hfold
          rw [if_pos ⟨hfold, hpos⟩, hholder, Bufs.copy_apply, if_pos ⟨rfl, zero_le i, by omega⟩,
            Nat.sub_zero]
        · by_cases h' : ¬folded remain r ∧ rcounts r ≠ 0
          · rw [if_pos h', Bufs.copy_of_ne _ _ _ hc]
          · rw [if_neg h']
  refine hround.congr fun r _ => ?_
  unfold halvingEnd
  by_cases hlow : r < 2 * remain
  · rcases mod_two_eq_zero_or_one r with h | h <;> simp [folded, h, hlow]
  · simp [folded, hlow]

end OpenMPI.Coll
