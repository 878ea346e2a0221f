import OpenMPI.Proofs.Coll.Halving
import OpenMPI.Proofs.Coll.Ring

/-!
# Reduce and scatter

Recursive halving is right exactly if no half of a block is empty without the other (`Balanced`): where
one is, the rank that has the other reduces what happens to be in its buffer for what comes in.
-/

namespace OpenMPI.Coll

open Lib List Nat

variable {α : Type*} {junk : (ℕ → α) → ℕ → α} {op : Op α} {rcounts : ℕ → ℕ} {n remain K w j r : ℕ}

theorem disps_tmpRcounts (rcounts : ℕ → ℕ) (remain w : ℕ) :
    disps (tmpRcounts rcounts remain) w = disps rcounts (w + min w remain) := by
  induction w with
  | zero => rw [Nat.zero_min]; rfl
  | succ w ih =>
    rw [disps_succ, ih, tmpRcounts]
    by_cases h : w < remain
    · rw [if_pos h, min_eq_left (le_of_lt h), min_eq_left h,
        show w + 1 + (w + 1) = w * 2 + 1 + 1 by omega, disps_succ, disps_succ,
        show w + w = w * 2 by omega]
      omega
    · rw [if_neg h, Nat.min_eq_right (Nat.le_of_not_lt h), Nat.min_eq_right (by omega),
        show w + 1 + remain = w + remain + 1 by omega, disps_succ]

theorem blockOff_zero (counts : ℕ → ℕ) (w : ℕ) : blockOff counts w 0 = disps counts w := by
  simp [blockOff, base]

theorem blockCnt_zero (counts : ℕ → ℕ) (w : ℕ) : blockCnt counts w 0 = counts w := by
  simp [blockCnt, base, countsBetween]

theorem own_le (rcounts : ℕ → ℕ) (remain r : ℕ) :
    blockOff (tmpRcounts rcounts remain) (tmpRank remain r) 0 ≤ disps rcounts r ∧
      disps rcounts r + rcounts r ≤ blockOff (tmpRcounts rcounts remain) (tmpRank remain r) 0 +
        blockCnt (tmpRcounts rcounts remain) (tmpRank remain r) 0 := by
  rw [blockOff_zero, blockCnt_zero, disps_tmpRcounts, tmpRcounts]
  unfold tmpRank
  by_cases hlow : r < 2 * remain
  · have hw : r / 2 < remain := by omega
    rw [if_pos hlow, if_pos hw, min_eq_left (le_of_lt hw)]
    rcases mod_two_eq_zero_or_one r with h | h
    · rw [show r / 2 + r / 2 = r by omega, show r / 2 * 2 = r by omega]
      omega
    · have hr : r = r / 2 + r / 2 + 1 := by omega
      have hsucc := disps_succ rcounts (r / 2 + r / 2)
      rw [← hr] at hsucc
      rw [show r / 2 * 2 = r / 2 + r / 2 by omega, ← hr]
      omega
  · have hw : ¬r - remain < remain := by omega
    rw [if_neg hlow, if_neg hw, Nat.min_eq_right (Nat.le_of_not_lt hw), Nat.sub_add_cancel (by omega)]
    exact ⟨le_rfl, le_rfl⟩

/-- In every round of the halving, of the two halves of a block none is empty without the other. -/
def Balanced (size : ℕ) (rcounts : ℕ → ℕ) : Prop :=
  ∀ j w, w < nearestPower size → 2 ^ j < nearestPower size →
    blockCnt (tmpRcounts rcounts (size - nearestPower size)) w j = 0 →
      blockCnt (tmpRcounts rcounts (size - nearestPower size)) (w ^^^ 2 ^ j) j = 0

theorem mod_succ_eq_iff {a b : ℕ} : a % 2 ^ (j + 1) = b % 2 ^ (j + 1) ↔
    a % 2 ^ j = b % 2 ^ j ∧ a / 2 ^ j % 2 = b / 2 ^ j % 2 := by
  have ha := mod_lt a (Nat.two_pow_pos j)
  have hb := mod_lt b (Nat.two_pow_pos j)
  rw [mod_pow_succ, mod_pow_succ]
  rcases mod_two_eq_zero_or_one (a / 2 ^ j) with h | h <;>
    rcases mod_two_eq_zero_or_one (b / 2 ^ j) with h' | h' <;>
    rw [h, h'] <;> omega

def gatheredIn (K j w : ℕ) : List ℕ := (List.range (2 ^ K)).filter fun v => v % 2 ^ j = w % 2 ^ j

theorem gatheredIn_all (hw : w < 2 ^ K) : gatheredIn K K w = [w] := by
  have heq : gatheredIn K K w = (range (2 ^ K)).filter (· == w) := by
    refine filter_congr fun v hv => ?_
    rw [mod_eq_of_lt (mem_range.mp hv), mod_eq_of_lt hw]
    rfl
  rw [heq, filter_beq, count_range]
  simp [hw]

theorem gatheredIn_zero (K w : ℕ) : gatheredIn K 0 w = range (2 ^ K) :=
  filter_eq_self.mpr fun v _ => by rw [pow_zero, mod_one, mod_one, decide_eq_true rfl]

theorem gatheredIn_perm (K j w : ℕ) :
    (gatheredIn K (j + 1) (w ^^^ 2 ^ j) ++ gatheredIn K (j + 1) w).Perm (gatheredIn K j w) := by
  have hleft : gatheredIn K (j + 1) (w ^^^ 2 ^ j) =
      (gatheredIn K j w).filter fun v => v / 2 ^ j % 2 ≠ w / 2 ^ j % 2 := by
    unfold gatheredIn
    rw [filter_filter]
    refine filter_congr fun v _ => ?_
    have hiff : v % 2 ^ (j + 1) = (w ^^^ 2 ^ j) % 2 ^ (j + 1) ↔
        v / 2 ^ j % 2 ≠ w / 2 ^ j % 2 ∧ v % 2 ^ j = w % 2 ^ j := by
      rw [mod_succ_eq_iff, xor_mod, xor_div_mod]
      omega
    simp [hiff]
  have hright : gatheredIn K (j + 1) w =
      (gatheredIn K j w).filter fun v => !decide (v / 2 ^ j % 2 ≠ w / 2 ^ j % 2) := by
    unfold gatheredIn
    rw [filter_filter]
    refine filter_congr fun v _ => ?_
    simp [mod_succ_eq_iff (a := v) (b := w) (j := j), Bool.and_comm]
  rw [hleft, hright]
  exact filter_append_perm _ _

/-- Before the rounds below `j`, each number has the values of so many ranks, at its block. -/
def HalvingInv (op : Op α) (x : ℕ → ℕ → α) (remain : ℕ) (counts : ℕ → ℕ) (K j : ℕ)
    (m : ℕ → Bufs BasicBuf α) : Prop :=
  ∀ w < 2 ^ K, Holds op.fn x ((gatheredIn K j w).flatMap (ranksOf remain))
    (m (realOf remain w) .resultBuf) (blockOff counts w j) (blockCnt counts w j)

theorem HalvingInv.step (hcomm : Std.Commutative op.fn) {x : ℕ → ℕ → α} {counts : ℕ → ℕ}
    {m m' : ℕ → Bufs BasicBuf α} (hn : n = 2 ^ K + remain) (hj : j < K)
    (hbal : ∀ w < 2 ^ K, blockCnt counts (w ^^^ 2 ^ j) j = 0 → blockCnt counts w j = 0)
    (hm : HalvingInv op x remain counts K (j + 1) m) (h : ∀ r < n, Halved op remain counts j m r (m' r)) :
    HalvingInv op x remain counts K j m' := by
  intro w hw
  have hx : w ^^^ 2 ^ j < 2 ^ K := xor_lt_two_pow hw (Nat.pow_lt_pow_right (by decide) hj)
  have hreal := h _ (realOf_lt hn hw)
  have hsub {v : ℕ} (hv : base v (j + 1) = base w (j + 1)) {i : ℕ} (h1 : blockOff counts w j ≤ i)
      (h2 : i < blockOff counts w j + blockCnt counts w j) : blockOff counts v (j + 1) ≤ i ∧
        i < blockOff counts v (j + 1) + blockCnt counts v (j + 1) := by
    rw [blockOff_add] at h2 ⊢
    have hpow := Nat.two_pow_pos j
    have hlow : base w (j + 1) ≤ base w j ∧ base w j + 2 ^ j ≤ base w (j + 1) + 2 ^ (j + 1) := by
      rcases mod_two_eq_zero_or_one (w / 2 ^ j) with hb | hb
      · rw [base_succ_of_even hb, pow_succ]
        omega
      · rw [← base_succ_of_odd hb, pow_succ]
        omega
    rw [hv]
    refine ⟨le_trans ?_ h1, lt_of_lt_of_le h2 (disps_mono counts hlow.2)⟩
    rw [blockOff, hv]
    exact disps_mono counts hlow.1
  intro i h1 h2
  have hpos : 0 < blockCnt counts w j := by omega
  have hnum : tmpRank remain (realOf remain w) = w := tmpRank_realOf remain w
  have hfold := not_folded_realOf remain w
  have hex : Exchanges remain counts j (realOf remain w) := by
    refine ⟨hfold, ?_, ?_⟩
    · rwa [hnum]
    · rw [hnum]
      exact Nat.pos_of_ne_zero fun h0 => ne_of_gt hpos (hbal w hw h0)
  have hkept : Kept remain counts j (realOf remain w) i := ⟨hfold, by rwa [hnum], by rwa [hnum]⟩
  have hpart : partnerOf remain j (realOf remain w) = realOf remain (w ^^^ 2 ^ j) := by
    rw [partnerOf, hnum]
  rw [hreal.result, if_pos hkept, if_pos hex, hpart]
  have hown := hsub rfl h1 h2
  have hpeer := hsub (base_xor w j) h1 h2
  refine ((hm _ hx i hpeer.1 hpeer.2).append (hm w hw i hown.1 hown.2)).perm ?_
  rw [← flatMap_append]
  exact (gatheredIn_perm K j w).flatMap_right _

theorem halving_gives (hcomm : Std.Commutative op.fn) (hn : 0 < n) (hbal : Balanced n rcounts)
    (sb : BasicBuf) {rb : BasicBuf} (hrb : rb ≠ .resultBuf) (m : ℕ → Bufs BasicBuf α) :
    Gives n (fun r => halving junk n r rcounts op sb rb) m fun m' => ∀ r < n,
      (∀ i < rcounts r, m' r rb i = upTo op.fn (fun s => m s sb (disps rcounts r + i)) (n - 1)) ∧
        ∀ c, c ≠ rb → c ≠ .resultBuf → c ≠ .recvBuf → m' r c = m r c := by
  obtain ⟨K, remain, hsize, hremain, hlt⟩ := nearestPower_add hn
  unfold Balanced at hbal
  rw [hsize, show n - 2 ^ K = remain by omega] at hbal
  let counts := tmpRcounts rcounts remain
  have hall : disps counts (2 ^ K) = disps rcounts n := by
    rw [disps_tmpRcounts, min_eq_right (le_of_lt hlt), ← hremain]
  have hrounds {m₁ : ℕ → Bufs BasicBuf α}
      (h₁ : ∀ r < n, Folded op remain (disps rcounts n) (fun r => m r sb) (m r) r (m₁ r)) :
      Gives n (fun r => (range K).reverse.flatMap fun j => halvingRound junk op remain counts j r)
        m₁ fun m₂ => HalvingInv op (fun r => m r sb) remain counts K 0 m₂ ∧
          ∀ r < n, ∀ c, c ≠ .resultBuf → c ≠ .recvBuf → m₂ r c = m r c := by
    refine Gives.countdown (fun j (m₂ : ℕ → Bufs BasicBuf α) =>
      HalvingInv op (fun r => m r sb) remain counts K j m₂ ∧
        ∀ r < n, ∀ c, c ≠ .resultBuf → c ≠ .recvBuf → m₂ r c = m r c) K
      ⟨fun w hw => ?_, fun r hr => (h₁ r hr).frame⟩ fun j hj m₂ h₂ =>
      (halvingRound_gives hremain hlt hj m₂).mono fun m₃ h₃ => ⟨?_, fun r hr c hc hc' => ?_⟩
    · have hbase : base w K = 0 := by rw [base, div_eq_of_lt hw, zero_mul]
      have hreal := (h₁ _ (realOf_lt hremain hw)).result (not_folded_realOf remain w)
      rw [tmpRank_realOf] at hreal
      have hoff : blockOff counts w K = 0 := by rw [blockOff, hbase, disps_zero]
      have hcnt := blockOff_add counts w K
      rw [hbase, zero_add, hall, hoff, zero_add] at hcnt
      rw [gatheredIn_all hw, flatMap_singleton, hoff, hcnt]
      exact hreal
    · refine h₂.1.step hcomm hremain hj (fun w hw h0 => ?_) h₃
      have hpow : 2 ^ j < 2 ^ K := Nat.pow_lt_pow_right (by decide) hj
      have := hbal j _ (xor_lt_two_pow hw hpow) hpow h0
      rwa [Nat.xor_assoc, Nat.xor_self, xor_zero] at this
    · rw [(h₃ r hr).frame c hc hc', h₂.2 r hr c hc hc']
  refine ((((halvingStart_gives hremain hlt _ sb m).append fun m₁ h₁ => hrounds h₁).append
    fun m₂ h₂ => (halvingEnd_gives hremain hlt hrb m₂).mono fun m' h' r hr => ⟨fun i hi => ?_,
      fun c hc hc' hc'' => ?_⟩).congr fun r hr => (halving_eq hsize hremain hlt hr).symm)
  · have hholder : realOf remain (tmpRank remain r) = holder remain r := by
      rw [← tmpRank_holder, realOf_tmpRank (not_folded_holder remain r)]
    have hown : blockOff counts (tmpRank remain r) 0 ≤ disps rcounts r ∧
        disps rcounts r + rcounts r ≤ blockOff counts (tmpRank remain r) 0 +
          blockCnt counts (tmpRank remain r) 0 := own_le rcounts remain r
    have h0 := h₂.1 (tmpRank remain r) (tmpRank_lt hremain hlt hr) (disps rcounts r + i) (by omega)
      (by omega)
    rw [hholder, gatheredIn_zero, flatMap_ranksOf, min_eq_right (le_of_lt hlt), ← hremain] at h0
    rw [(h' r hr).1 i hi]
    exact h0.eq_upTo hn
  · rw [(h' r hr).2 c hc, h₂.2 r hr c hc' hc'']

def orOp : Op Bool where
  fn := or
  commute := true
  assoc := ⟨Bool.or_assoc⟩
  comm _ := ⟨Bool.or_comm⟩

/-- Before the rounds below `k`, number `w` has nothing of the numbers that it first hears of in
round `j`, nor have those that it hears of later. -/
def Deaf (remain K j w k : ℕ) (m : ℕ → Bufs BasicBuf Bool) : Prop :=
  ∀ v < 2 ^ K, v.testBit j = w.testBit j → (k ≤ j → v / 2 ^ j = w / 2 ^ j) →
    ∀ i, m (realOf remain v) .resultBuf i = false ∧ m (realOf remain v) .recvBuf i = false

theorem blockCnt_congr {counts : ℕ → ℕ} {v : ℕ} (h : v / 2 ^ j = w / 2 ^ j) :
    blockCnt counts v j = blockCnt counts w j := by
  rw [blockCnt, blockCnt, base, base, h]

theorem Deaf.step {counts : ℕ → ℕ} {k : ℕ} {m m' : ℕ → Bufs BasicBuf Bool} (hn : n = 2 ^ K + remain)
    (hk : k < K) (hempty : blockCnt counts (w ^^^ 2 ^ j) j = 0) (hm : Deaf remain K j w (k + 1) m)
    (h : ∀ r < n, Halved orOp remain counts k m r (m' r)) : Deaf remain K j w k m' := by
  intro v hv hbit hsame i
  have hreal := h _ (realOf_lt hn hv)
  have hnum : tmpRank remain (realOf remain v) = v := tmpRank_realOf remain v
  have hown := hm v hv hbit (fun hkj => hsame (by omega)) i
  have hpeer (hex : Exchanges remain counts k (realOf remain v)) :
      m (partnerOf remain k (realOf remain v)) .resultBuf i = false := by
    have hx : v ^^^ 2 ^ k < 2 ^ K := xor_lt_two_pow hv (Nat.pow_lt_pow_right (by decide) hk)
    rw [partnerOf, hnum]
    have hkj : k ≠ j := by
      rintro rfl
      have hdiv : (v ^^^ 2 ^ k) / 2 ^ k = (w ^^^ 2 ^ k) / 2 ^ k := by
        rw [xor_div_self, xor_div_self, hsame (le_rfl)]
      have := hex.2.2
      rw [hnum, blockCnt_congr hdiv, hempty] at this
      omega
    refine (hm _ hx ?_ (fun hlt => ?_) i).1
    · rw [testBit_xor, testBit_two_pow_of_ne hkj, Bool.xor_false]
      exact hbit
    · rw [xor_div_two_pow, div_eq_of_lt (Nat.pow_lt_pow_right (by decide) hlt), xor_zero]
      exact hsame (by omega)
  constructor
  · rw [hreal.result]
    by_cases hkept : Kept remain counts k (realOf remain v) i
    · rw [if_pos hkept, hown.1]
      by_cases hex : Exchanges remain counts k (realOf remain v)
      · rw [if_pos hex, hpeer hex]
        rfl
      · rw [if_neg hex, hown.2]
        rfl
    · rw [if_neg hkept, hown.1]
  · rw [hreal.recv]
    by_cases hex : Exchanges remain counts k (realOf remain v) ∧ Kept remain counts k (realOf remain v) i
    · rw [if_pos hex, hpeer hex.1]
    · rw [if_neg hex, hown.2]

theorem upTo_or {x : ℕ → Bool} {s k : ℕ} (hs : s ≤ k) (hx : x s = true) : upTo or x k = true := by
  induction k with
  | zero =>
    obtain rfl : s = 0 := le_zero.mp hs
    exact hx
  | succ k ih =>
    unfold upTo
    rcases eq_or_lt_of_le hs with rfl | hlt
    · rw [hx, Bool.or_true]
    · rw [ih (le_of_lt_succ hlt), Bool.true_or]

theorem reduces_false {ι : Type*} {x : ι → Bool} {l : List ι} {a : Bool} (h : Reduces or x l a)
    (hx : ∀ s ∈ l, x s = false) : a = false := by
  have hmerge : ∀ l : List ι, (∀ s ∈ l, x s = false) →
      ∀ b ∈ l.foldr (fun i o => Option.merge or (some (x i)) o) none, b = false := by
    intro l hl
    induction l with
    | nil => exact nofun
    | cons t l ih =>
      have hl' := ih fun s hs => hl s (mem_cons_of_mem t hs)
      intro b hb
      rw [foldr_cons, hl t mem_cons_self] at hb
      cases hf : l.foldr (fun i o => Option.merge or (some (x i)) o) none with
      | none =>
        rw [hf] at hb
        exact (Option.some.inj hb).symm
      | some c =>
        rw [hf] at hb hl'
        rw [← Option.some.inj hb, hl' c rfl]
        rfl
  exact hmerge l hx a h

theorem exists_deaf (hn : n = 2 ^ K + remain)
    (hbal : ∃ j w, w < 2 ^ K ∧ 2 ^ j < 2 ^ K ∧ blockCnt (tmpRcounts rcounts remain) w j = 0 ∧
      blockCnt (tmpRcounts rcounts remain) (w ^^^ 2 ^ j) j ≠ 0) :
    ∃ r < n, 0 < rcounts r ∧ ∃ j, 2 ^ j < 2 ^ K ∧ tmpRank remain r < 2 ^ K ∧
      blockCnt (tmpRcounts rcounts remain) (tmpRank remain r ^^^ 2 ^ j) j = 0 := by
  obtain ⟨j, w, hw, hj, hempty, hfull⟩ := hbal
  have hjK : j < K := (Nat.pow_lt_pow_iff_right (by decide)).mp hj
  have hx : w ^^^ 2 ^ j < 2 ^ K := xor_lt_two_pow hw hj
  obtain ⟨v, hv, hcount⟩ : ∃ v, v / 2 ^ j = (w ^^^ 2 ^ j) / 2 ^ j ∧ tmpRcounts rcounts remain v ≠ 0 := by
    by_contra hno
    refine hfull (sum_eq_zero fun c hc => ?_)
    obtain ⟨v, hv, rfl⟩ := mem_map.mp hc
    rw [Nat.add_sub_cancel_left, mem_range'_1] at hv
    refine by_contra fun hne => hno ⟨v, ?_, hne⟩
    refine Nat.div_eq_of_lt_le hv.1 ?_
    rw [succ_mul]
    exact hv.2
  have hvK : v < 2 ^ K := by
    have hpow : 2 ^ j * 2 ^ (K - j) = 2 ^ K := by rw [← pow_add, Nat.add_sub_cancel' (le_of_lt hjK)]
    have hzero : v / 2 ^ K = 0 := by
      rw [← hpow, ← Nat.div_div_eq_div_mul, hv, Nat.div_div_eq_div_mul, hpow, div_eq_of_lt hx]
    exact (Nat.div_eq_zero_iff.mp hzero).resolve_left (ne_of_gt (Nat.two_pow_pos K))
  obtain ⟨r, hr, rfl, hpos⟩ : ∃ r < n, tmpRank remain r = v ∧ 0 < rcounts r := by
    unfold tmpRcounts at hcount
    split_ifs at hcount with hlow
    · rcases Nat.eq_zero_or_pos (rcounts (v * 2)) with h0 | h0
      · refine ⟨v * 2 + 1, by omega, ?_, by omega⟩
        rw [tmpRank, if_pos (by omega)]
        omega
      · refine ⟨v * 2, by omega, ?_, h0⟩
        rw [tmpRank, if_pos (by omega)]
        omega
    · refine ⟨v + remain, by omega, ?_, Nat.pos_of_ne_zero hcount⟩
      rw [tmpRank, if_neg (by omega), Nat.add_sub_cancel]
  refine ⟨r, hr, hpos, j, hj, hvK, ?_⟩
  have hback : (w ^^^ 2 ^ j) / 2 ^ j ^^^ 1 = w / 2 ^ j := by
    rw [xor_div_self, Nat.xor_assoc, Nat.xor_self, xor_zero]
  rw [blockCnt_congr (w := w) (by rw [xor_div_self, hv, hback]), hempty]

def differing (sb : BasicBuf) (remain w j s : ℕ) : Bufs BasicBuf Bool :=
  fun c _ => decide (c = sb) && ((tmpRank remain s).testBit j != w.testBit j)

theorem halving_deaf (junk : (ℕ → Bool) → ℕ → Bool) (hn : 0 < n) (hbal : ¬Balanced n rcounts) :
    ∃ r < n, ∃ i < rcounts r, ∀ sb rb : BasicBuf, sb ≠ .resultBuf → sb ≠ .recvBuf → rb ≠ .resultBuf →
      ∃ m, Gives n (fun r => halving junk n r rcounts orOp sb rb) m (fun m' => m' r rb i = false) ∧
        upTo or (fun s => m s sb (disps rcounts r + i)) (n - 1) = true := by
  obtain ⟨K, remain, hsize, hremain, hlt⟩ := nearestPower_add hn
  unfold Balanced at hbal
  rw [hsize, show n - 2 ^ K = remain by omega] at hbal
  push Not at hbal
  obtain ⟨r, hr, hpos, j, hj, hwK, hempty⟩ := exists_deaf hremain hbal
  have hjK : j < K := (Nat.pow_lt_pow_iff_right (by decide)).mp hj
  refine ⟨r, hr, 0, hpos, fun sb rb hsb hsb' hrb => ?_⟩
  refine ⟨differing sb remain (tmpRank remain r) j, ?_, ?_⟩
  · refine (((halvingStart_gives hremain hlt _ sb _).append fun m₁ h₁ =>
      Gives.countdown (fun k m => Deaf remain K j (tmpRank remain r) k m) K (m := m₁) ?_
        fun k hk m₂ h₂ => (halvingRound_gives hremain hlt hk m₂).mono fun m₃ h₃ =>
          h₂.step hremain hk hempty h₃).append fun m₂ h₂ =>
      (halvingEnd_gives hremain hlt hrb m₂).mono fun m' h' => ?_).congr fun r hr =>
        (halving_eq hsize hremain hlt hr).symm
    · intro v hv hbit _ i
      have hreal := h₁ _ (realOf_lt hremain hv)
      have hfalse {s : ℕ} (hs : tmpRank remain s = v) :
          differing sb remain (tmpRank remain r) j s sb i = false := by
        simp [differing, hs, hbit]
      have hinit {c : BasicBuf} (hc : sb ≠ c) (s : ℕ) :
          differing sb remain (tmpRank remain r) j s c i = false := by
        simp [differing, hc.symm]
      constructor
      · by_cases hi : i < disps rcounts n
        · have hred := hreal.result (not_folded_realOf remain v) i (zero_le i) (by omega)
          rw [tmpRank_realOf] at hred
          exact reduces_false hred fun s hs => hfalse (tmpRank_of_mem hs)
        · rw [hreal.outside i (Nat.le_of_not_lt hi), hinit hsb]
      · rcases hreal.recv i with h0 | ⟨hlow, hodd, h0⟩
        · rw [h0, hinit hsb']
        · rw [h0]
          refine hfalse ?_
          have := tmpRank_realOf remain v
          unfold tmpRank at this ⊢
          rw [if_pos hlow] at this
          rw [if_pos (by omega)]
          omega
    · have hholder : realOf remain (tmpRank remain r) = holder remain r := by
        rw [← tmpRank_holder, realOf_tmpRank (not_folded_holder remain r)]
      rw [(h' r hr).1 0 hpos, ← hholder]
      exact (h₂ _ hwK rfl (fun _ => rfl) _).1
  · have hx : tmpRank remain r ^^^ 2 ^ j < 2 ^ K := xor_lt_two_pow hwK hj
    have hs := realOf_lt hremain hx
    refine upTo_or (Nat.le_sub_one_of_lt hs) ?_
    simp [differing]

theorem disps_apart (rcounts : ℕ → ℕ) (n : ℕ) : Apart n (disps rcounts) rcounts := by
  have hlt {b b' i : ℕ} (hb : InBlock (disps rcounts) rcounts b i)
      (hb' : InBlock (disps rcounts) rcounts b' i) : ¬b < b' := fun h => by
    have hmono : disps rcounts (b + 1) ≤ disps rcounts b' := disps_mono rcounts h
    rw [disps_succ] at hmono
    have := hb.2
    have := hb'.1
    omega
  intro b _ b' _ i hi hi'
  exact Nat.le_antisymm (Nat.le_of_not_lt (hlt hi' hi)) (Nat.le_of_not_lt (hlt hi hi'))

theorem inBlock_lt {b i : ℕ} (hb : b < n) (h : InBlock (disps rcounts) rcounts b i) :
    i < disps rcounts n := by
  have hmono : disps rcounts (b + 1) ≤ disps rcounts n := disps_mono rcounts hb
  rw [disps_succ] at hmono
  exact lt_of_lt_of_le h.2 hmono

theorem le_foldl_max (l : List ℕ) (a : ℕ) : a ≤ l.foldl max a ∧ ∀ c ∈ l, c ≤ l.foldl max a := by
  induction l generalizing a with
  | nil => exact ⟨le_rfl, nofun⟩
  | cons d l ih =>
    obtain ⟨h1, h2⟩ := ih (max a d)
    refine ⟨le_trans (le_max_left a d) h1, fun c hc => ?_⟩
    rcases mem_cons.mp hc with rfl | hc
    · exact le_trans (le_max_right a c) h1
    · exact h2 c hc

theorem le_maxBlockCount {b : ℕ} (hb : b < n) : rcounts b ≤ maxBlockCount rcounts n :=
  (le_foldl_max _ 0).2 _ (mem_map.mpr ⟨b, mem_range.mpr hb, rfl⟩)

def Scattered {β : Type*} (n : ℕ) (rcounts : ℕ → ℕ) (op : Op α) (sb rb : β) (m m' : ℕ → Bufs β α) :
    Prop :=
  ∀ r < n, ∀ i < rcounts r, m' r rb i = upTo op.fn (fun s => m s sb (disps rcounts r + i)) (n - 1)

theorem reduceScatterIntraRing_gives (hcomm : Std.Commutative op.fn) (hn : 0 < n) (inPlace : Bool)
    (m : ℕ → Bufs RingBuf α) :
    Gives n (fun r => reduceScatterIntraRing junk n r rcounts op inPlace) m
      (Scattered n rcounts op (if inPlace then .rbuf else .sbuf) .rbuf m) := by
  let sb : RingBuf := if inPlace then .rbuf else .sbuf
  have hsb : sb ≠ .accumbuf := by
    simp only [sb]
    split_ifs <;> exact RingBuf.noConfusion
  rcases Nat.eq_or_lt_of_le hn with rfl | hn2
  · have hone (i : ℕ) (hi : i < rcounts 0) : i < disps rcounts (0 + 1) := by rwa [disps_succ, disps_zero, zero_add]
    refine (Gives.each (fun r (m' : Bufs RingBuf α) => ∀ i < rcounts r, m' .rbuf i =
      upTo op.fn (fun s => m s sb (disps rcounts r + i)) 0) fun r hr => ?_).mono fun m' h => h
    obtain rfl : r = 0 := by omega
    rw [reduceScatterIntraRing, if_pos rfl]
    cases inPlace with
    | false =>
      refine Does.copyBuf fun i hi => ?_
      rw [Bufs.copy_zero (hone i hi), disps_zero, zero_add]
      rfl
    | true =>
      refine .nil fun i hi => ?_
      rw [disps_zero, zero_add]
      rfl
  · have hcopy : Gives n (fun _ => [.copyBuf sb 0 .accumbuf 0 (disps rcounts n)]) m fun m' => ∀ r < n,
        ∀ i < disps rcounts n, m' r .accumbuf i = m r sb i :=
      Gives.each (fun r (m' : Bufs RingBuf α) => ∀ i < disps rcounts n, m' .accumbuf i = m r sb i)
        fun r _ => Does.copyBuf fun i hi => Bufs.copy_zero hi
    have hloop {m₁ : ℕ → Bufs RingBuf α}
        (h₁ : ∀ r < n, ∀ i < disps rcounts n, m₁ r .accumbuf i = m r sb i) :
        Gives n (fun r => computationLoop junk n r (maxBlockCount rcounts n) op .accumbuf (disps rcounts)
          rcounts (unrotate n 1 r) (fun k => unrotate n k r) (unrotate n n r)) m₁ fun m' => ∀ r < n,
          Holds op.fn (fun r => m r sb) (trail n r (n - 1 + 1)) (m' r .accumbuf)
            (disps rcounts (unrotate n (n - 1 + 1) r)) (rcounts (unrotate n (n - 1 + 1) r)) :=
      (computationLoop_gives hn2 rounds_before (disps_apart rcounts n) (fun b hb => le_maxBlockCount hb)
        (fun _ => RingBuf.noConfusion) fun p hp b hb i hi => h₁ p hp i (inBlock_lt hb hi)).mono
        fun m' h r hr => (h r hr).sum
    refine ((hcopy.append fun m₁ h₁ => hloop h₁).append fun m₂ h₂ =>
      Gives.each (A := fun r => [.copyBuf .accumbuf (disps rcounts r) .rbuf 0 (rcounts r)])
        (fun r (m' : Bufs RingBuf α) => ∀ i < rcounts r, m' .rbuf i =
          upTo op.fn (fun s => m s sb (disps rcounts r + i)) (n - 1)) fun r hr =>
        Does.copyBuf fun i hi => ?_).congr fun r hr => ?_
    · have hlast : unrotate n (n - 1 + 1) r = r := by
        rw [Nat.sub_add_cancel hn, unrotate, Nat.add_sub_cancel, mod_eq_of_lt hr]
      have hsum := h₂ r hr
      rw [hlast, Nat.sub_add_cancel hn] at hsum
      rw [Bufs.copy_apply, if_pos ⟨rfl, zero_le i, by omega⟩, Nat.sub_zero]
      exact (hsum _ (Nat.le_add_right _ i) (by omega)).eq_upTo_of_perm hn (trail_perm hr)
    · have hlast : unrotate n n r = r := by
        rw [unrotate, Nat.add_sub_cancel, mod_eq_of_lt hr]
      rw [reduceScatterIntraRing, if_neg (ne_of_gt hn2), hlast]
      rfl

/-- Every run of either algorithm, in place or not, leaves each rank its block of the reduction. -/
def ReduceScatters (n : ℕ) (rcounts : ℕ → ℕ) : Prop :=
  ∀ (α : Type) (op : Op α) (junk : (ℕ → α) → ℕ → α) (inPlace : Bool), Std.Commutative op.fn →
    (∀ m : ℕ → Bufs BasicBuf α, Finishes n
        (fun r => reduceScatterIntraBasicRecursivehalving junk n r rcounts op inPlace) m
      (Scattered n rcounts op (if inPlace then .rbuf else .sbuf) .rbuf m)) ∧
    ∀ m : ℕ → Bufs RingBuf α, Finishes n (fun r => reduceScatterIntraRing junk n r rcounts op inPlace) m
      (Scattered n rcounts op (if inPlace then .rbuf else .sbuf) .rbuf m)

theorem rcounts_eq_zero (h : disps rcounts n = 0) (hr : r < n) : rcounts r = 0 := by
  have hmono : disps rcounts (r + 1) ≤ disps rcounts n := disps_mono rcounts hr
  rw [disps_succ] at hmono
  omega

theorem reduceScatters_of_balanced (hn : 0 < n) (hbal : Balanced n rcounts) : ReduceScatters n rcounts := by
  intro α op junk inPlace hcomm
  refine ⟨fun m => .of_gives ?_, fun m => .of_gives (reduceScatterIntraRing_gives hcomm hn inPlace m)⟩
  by_cases h0 : disps rcounts n = 0
  · refine (Gives.nil (R := Scattered n rcounts op (if inPlace then .rbuf else .sbuf) .rbuf m)
      fun r hr i hi => ?_).congr fun r _ => (if_pos h0).symm
    rw [rcounts_eq_zero h0 hr] at hi
    exact absurd hi (Nat.not_lt_zero i)
  · exact ((halving_gives hcomm hn hbal _ BasicBuf.noConfusion m).mono fun m' h r hr => (h r hr).1).congr
      fun r _ => (if_neg h0).symm

theorem balanced_of_reduceScatters (hn : 0 < n) (h : ReduceScatters n rcounts) : Balanced n rcounts := by
  by_contra hbal
  obtain ⟨r, hr, i, hi, hdeaf⟩ := halving_deaf id hn hbal
  obtain ⟨m, hgives, htrue⟩ := hdeaf .sbuf .rbuf BasicBuf.noConfusion BasicBuf.noConfusion
    BasicBuf.noConfusion
  have hne : disps rcounts n ≠ 0 := fun h0 => by
    rw [rcounts_eq_zero h0 hr] at hi
    exact absurd hi (Nat.not_lt_zero i)
  obtain ⟨hright, -⟩ := h Bool orOp id false ⟨Bool.or_comm⟩
  obtain ⟨m', hm', hwrong⟩ := (hright m).both
    (.of_gives (hgives.congr fun r _ => (if_neg hne).symm))
  have := (hm' r hr i hi).symm.trans hwrong
  exact Bool.noConfusion (htrue.symm.trans this)

end OpenMPI.Coll
