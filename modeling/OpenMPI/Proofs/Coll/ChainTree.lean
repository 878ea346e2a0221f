import OpenMPI.Proofs.Coll.Topo

/-!
# The chains

The ranks other than the root are cut into `fanout` chains, the first `mark` of them one rank longer
than the others.  Chain `j` begins at shifted rank `chainStart j`.
-/

namespace OpenMPI.Coll

open Lib Nat

variable {size root mark maxchainlen fanout : ℕ}

def chainStart (mark maxchainlen j : ℕ) : ℕ := 1 + j * maxchainlen - (j - mark)

theorem chainStart_succ (mark : ℕ) (hlen : 1 ≤ maxchainlen) (j : ℕ) :
    chainStart mark maxchainlen (j + 1) =
      chainStart mark maxchainlen j + maxchainlen - if mark ≤ j then 1 else 0 := by
  have hle : j * 1 ≤ j * maxchainlen := mul_le_mul_left j hlen
  have hmul : (j + 1) * maxchainlen = j * maxchainlen + maxchainlen := succ_mul _ _
  unfold chainStart
  split_ifs <;> omega

/-- How the chains share the ranks. -/
structure Chains (size mark maxchainlen fanout : ℕ) : Prop where
  two_le : 2 ≤ fanout
  fanout_lt : fanout < size
  maxchainlen_pos : 1 ≤ maxchainlen
  /-- Where there is a shorter chain, it still has a rank. -/
  shorter : mark < fanout → 2 ≤ maxchainlen
  last : chainStart mark maxchainlen fanout = size

theorem chains_of_fanout (htwo : 2 ≤ fanout) (hlt : fanout < size) :
    Chains size (if (size - 1) % fanout ≠ 0 then (size - 1) % fanout else fanout + 1)
      ((size - 1) / fanout + if (size - 1) % fanout ≠ 0 then 1 else 0) fanout := by
  have hdiv := div_add_mod (size - 1) fanout
  have hmod := mod_lt (size - 1) (show fanout > 0 by omega)
  have hpos : 1 ≤ (size - 1) / fanout := (Nat.one_le_div_iff (by omega)).mpr (by omega)
  split_ifs with hzero
  · refine ⟨htwo, hlt, by omega, by omega, ?_⟩
    unfold chainStart
    rw [mul_add, mul_one]
    omega
  · refine ⟨htwo, hlt, by omega, by omega, ?_⟩
    unfold chainStart
    rw [add_zero]
    omega

namespace Chains

section

variable (h : Chains size mark maxchainlen fanout)

include h

theorem start_lt_succ {j : ℕ} (hj : j < fanout) :
    chainStart mark maxchainlen j < chainStart mark maxchainlen (j + 1) := by
  have hpos := h.maxchainlen_pos
  rw [chainStart_succ mark hpos]
  split_ifs with hmark
  · have := h.shorter (by omega)
    omega
  · omega

theorem start_lt {i j : ℕ} (hij : i < j)
    (hj : j ≤ fanout) :
    chainStart mark maxchainlen i < chainStart mark maxchainlen j := by
  induction j with
  | zero => omega
  | succ j ih =>
    have hstep := h.start_lt_succ (show j < fanout by omega)
    rcases Nat.lt_succ_iff_lt_or_eq.mp hij with hlt | rfl
    · exact lt_trans (ih hlt (by omega)) hstep
    · exact hstep

theorem start_le {i j : ℕ} (hij : i ≤ j)
    (hj : j ≤ fanout) :
    chainStart mark maxchainlen i ≤ chainStart mark maxchainlen j := by
  rcases eq_or_lt_of_le hij with rfl | hlt
  · exact le_rfl
  · exact (h.start_lt hlt hj).le

theorem start_unique {i j s : ℕ} (hi : i < fanout)
    (hj : j < fanout)
    (hs : chainStart mark maxchainlen i ≤ s) (hs' : s < chainStart mark maxchainlen (i + 1))
    (ht : chainStart mark maxchainlen j ≤ s) (ht' : s < chainStart mark maxchainlen (j + 1)) :
    i = j := by
  rcases lt_trichotomy i j with hlt | heq | hlt
  · have := h.start_le (show i + 1 ≤ j by omega) (by omega)
    omega
  · exact heq
  · have := h.start_le (show j + 1 ≤ i by omega) (by omega)
    omega

theorem size_of_le (hle : fanout ≤ mark) :
    size = 1 + fanout * maxchainlen := by
  have hlast := h.last
  unfold chainStart at hlast
  omega

theorem size_of_lt (hlt : mark < fanout) :
    size = 1 + mark * maxchainlen + (fanout - mark) * (maxchainlen - 1) := by
  have hlast := h.last
  have hsplit : fanout * maxchainlen = mark * maxchainlen + (fanout - mark) * maxchainlen := by
    rw [← add_mul, Nat.add_sub_cancel' hlt.le]
  have hmul : (fanout - mark) * maxchainlen = (fanout - mark) * (maxchainlen - 1) + (fanout - mark) := by
    rw [← mul_succ, succ_eq_add_one, Nat.sub_add_cancel h.maxchainlen_pos]
  unfold chainStart at hlast
  omega

theorem chainOf_eq {s : ℕ} (hpos : 1 ≤ s) (hs : s < size) :
    ∃ j < fanout, chainStart mark maxchainlen j ≤ s ∧ s < chainStart mark maxchainlen (j + 1) ∧
      chainOf mark maxchainlen s = some (chainStart mark maxchainlen j,
        chainStart mark maxchainlen (j + 1) - chainStart mark maxchainlen j) := by
  have hlen := h.maxchainlen_pos
  unfold chainOf
  by_cases hfirst : s - 1 < mark * maxchainlen
  · rw [if_pos hfirst]
    have hdiv := div_add_mod (s - 1) maxchainlen
    have hmod := mod_lt (s - 1) hlen
    have hj : (s - 1) / maxchainlen < mark := (Nat.div_lt_iff_lt_mul hlen).mpr hfirst
    have hstart : chainStart mark maxchainlen ((s - 1) / maxchainlen) =
        1 + (s - 1) / maxchainlen * maxchainlen := by
      unfold chainStart
      rw [Nat.sub_eq_zero_of_le hj.le, Nat.sub_zero]
    have hnext := chainStart_succ mark hlen ((s - 1) / maxchainlen)
    rw [if_neg (by omega)] at hnext
    rw [mul_comm] at hdiv
    refine ⟨(s - 1) / maxchainlen, ?_, by omega, by omega, ?_⟩
    · by_contra hge
      have hsize := h.size_of_le (by omega)
      have : fanout * maxchainlen ≤ (s - 1) / maxchainlen * maxchainlen :=
        mul_le_mul_right _ (by omega)
      omega
    · exact congrArg some (Prod.ext hstart.symm (by dsimp only; omega))
  · rw [if_neg hfirst]
    have hmark : mark < fanout := by
      by_contra hge
      have hsize := h.size_of_le (by omega)
      have : fanout * maxchainlen ≤ mark * maxchainlen := mul_le_mul_right _ (by omega)
      omega
    have htwo := h.shorter hmark
    have hsize := h.size_of_lt hmark
    obtain ⟨m, rfl⟩ : ∃ m, maxchainlen = m + 1 := ⟨maxchainlen - 1, by omega⟩
    simp only [Nat.add_sub_cancel] at hsize ⊢
    have hdiv := div_add_mod (s - 1 - mark * (m + 1)) m
    have hmod := mod_lt (s - 1 - mark * (m + 1)) (show m > 0 by omega)
    have hqlt : (s - 1 - mark * (m + 1)) / m < fanout - mark :=
      (Nat.div_lt_iff_lt_mul (by omega)).mpr (by omega)
    generalize (s - 1 - mark * (m + 1)) / m = q at hdiv hqlt ⊢
    rw [mul_comm] at hdiv
    have hstart : chainStart mark (m + 1) (mark + q) = mark * (m + 1) + 1 + q * m := by
      unfold chainStart
      rw [add_mul, Nat.add_sub_cancel_left, mul_succ q m]
      omega
    have hnext := chainStart_succ mark hlen (mark + q)
    rw [if_pos (Nat.le_add_right mark q)] at hnext
    refine ⟨mark + q, by omega, by omega, by omega, ?_⟩
    rw [if_neg (by omega), Nat.add_sub_cancel_left]
    exact congrArg some (Prod.ext hstart.symm (by dsimp only; omega))

end

end Chains

def IsLink (mark maxchainlen fanout p c : ℕ) : Prop :=
  (p = 0 ∧ ∃ j < fanout, c = chainStart mark maxchainlen j) ∨
    (p ≠ 0 ∧ c = p + 1 ∧ ∀ j < fanout, c ≠ chainStart mark maxchainlen j)

theorem IsLink.lt (h : Chains size mark maxchainlen fanout) {p c : ℕ}
    (hl : IsLink mark maxchainlen fanout p c) : p < c := by
  rcases hl with ⟨rfl, j, hj, rfl⟩ | ⟨-, rfl, -⟩
  · have := h.start_le (zero_le j) hj.le
    have hzero : chainStart mark maxchainlen 0 = 1 := by simp [chainStart]
    omega
  · exact Nat.lt_succ_self p

theorem IsLink.unique {p q c : ℕ} (hp : IsLink mark maxchainlen fanout p c)
    (hq : IsLink mark maxchainlen fanout q c) : p = q := by
  rcases hp with ⟨rfl, j, hj, hc⟩ | ⟨-, hc, hno⟩
  · rcases hq with ⟨rfl, -⟩ | ⟨-, -, hno⟩
    · rfl
    · exact absurd hc (hno j hj)
  · rcases hq with ⟨-, j, hj, hc'⟩ | ⟨-, hc', -⟩
    · exact absurd hc' (hno j hj)
    · omega

theorem headsLoop_eq (hlen : 1 ≤ maxchainlen) (left i : ℕ) :
    headsLoop size mark maxchainlen left (i + 1) (rotate size root (chainStart mark maxchainlen i)) =
      ((List.range' (i + 1) left).map (chainStart mark maxchainlen)).map (rotate size root) := by
  induction left generalizing i with
  | zero => rfl
  | succ left ih =>
    have hstep : (if mark < i + 1 then
          rotate size root (chainStart mark maxchainlen i) + maxchainlen - 1
        else rotate size root (chainStart mark maxchainlen i) + maxchainlen) % size =
        rotate size root (chainStart mark maxchainlen (i + 1)) := by
      have hnext := chainStart_succ mark hlen i
      unfold rotate
      split_ifs with hmark
      · rw [if_pos (by omega)] at hnext
        rw [Nat.add_sub_assoc hlen, mod_add_mod]
        congr 1
        omega
      · rw [if_neg (by omega)] at hnext
        rw [mod_add_mod]
        congr 1
        omega
    unfold headsLoop
    dsimp only
    rw [hstep, ih (i + 1)]
    rfl

section

variable (h : Chains size mark maxchainlen fanout)

include h

theorem exists_link {s : ℕ} (hpos : s ≠ 0) (hs : s < size) :
    ∃ (head len p : ℕ) (cs : List ℕ), chainOf mark maxchainlen s = some (head, len) ∧
      (if s = head then 0 else s - 1) = p ∧ IsLink mark maxchainlen fanout p s ∧
      (if s = head + len - 1 then [] else if s + 1 < size then [s + 1] else []) = cs ∧
      cs.Pairwise (· < ·) ∧
      ∀ c, c ∈ cs ↔ IsLink mark maxchainlen fanout s c ∧ c < size := by
  obtain ⟨j, hj, hle, hlt, hchain⟩ := h.chainOf_eq (Nat.pos_of_ne_zero hpos) hs
  have hstep := h.start_lt_succ hj
  -- between the starts of two chains there is none
  have hno {c : ℕ} (hc : chainStart mark maxchainlen j < c)
      (hc' : c < chainStart mark maxchainlen (j + 1)) :
      ∀ i < fanout, c ≠ chainStart mark maxchainlen i := by
    rintro i hi rfl
    obtain rfl := h.start_unique hi hj (le_rfl) (h.start_lt_succ hi) hc.le hc'
    exact absurd hc (lt_irrefl _)
  have hone : 1 ≤ chainStart mark maxchainlen j := by
    have := h.start_le (zero_le j) hj.le
    simpa [chainStart] using this
  refine ⟨_, _, _, _, hchain, rfl, ?_, rfl, ?_, fun c => ?_⟩
  · split_ifs with heq
    · exact .inl ⟨rfl, j, hj, heq⟩
    · exact .inr ⟨by omega, by omega, hno (by omega) hlt⟩
  · split_ifs <;> simp
  · by_cases hend : s + 1 = chainStart mark maxchainlen (j + 1)
    · rw [if_pos (by omega)]
      refine iff_of_false nofun ?_
      rintro ⟨⟨hzero, -⟩ | ⟨-, rfl, hstart⟩, hcn⟩
      · exact hpos hzero
      · rcases eq_or_lt_of_le (show j + 1 ≤ fanout from hj) with heq | hlt'
        · rw [hend, heq, h.last] at hcn
          exact lt_irrefl _ hcn
        · exact hstart (j + 1) hlt' hend
    · have hlink {c : ℕ} : IsLink mark maxchainlen fanout s c ↔ c = s + 1 := by
        constructor
        · rintro (⟨hzero, -⟩ | ⟨-, hc, -⟩)
          · exact absurd hzero hpos
          · exact hc
        · rintro rfl
          exact .inr ⟨hpos, rfl, hno (by omega) (by omega)⟩
      rw [if_neg (by omega), hlink]
      split_ifs with hlast
      · rw [List.mem_singleton]
        exact ⟨fun hc => ⟨hc, hc ▸ hlast⟩, fun hc => hc.1⟩
      · refine iff_of_false nofun ?_
        rintro ⟨rfl, hcn⟩
        exact hlast hcn

theorem mem_heads {c : ℕ} :
    c ∈ (List.range fanout).map (chainStart mark maxchainlen) ↔
      IsLink mark maxchainlen fanout 0 c ∧ c < size := by
  rw [List.mem_map]
  constructor
  · rintro ⟨j, hj, rfl⟩
    have hj := List.mem_range.mp hj
    refine ⟨.inl ⟨rfl, j, hj, rfl⟩, ?_⟩
    have := h.start_lt hj (le_rfl)
    rwa [h.last] at this
  · rintro ⟨⟨-, j, hj, rfl⟩ | ⟨hne, -⟩, -⟩
    · exact ⟨j, List.mem_range.mpr hj, rfl⟩
    · exact absurd rfl hne

theorem pairwise_heads :
    ((List.range fanout).map (chainStart mark maxchainlen)).Pairwise (· < ·) := by
  rw [List.pairwise_map]
  refine List.Pairwise.imp_of_mem (fun _ hj hij => ?_) List.pairwise_lt_range
  exact h.start_lt hij (List.mem_range.mp hj).le

end

theorem heads_eq (hlen : 1 ≤ maxchainlen) (hpos : fanout ≠ 0) :
    (root + 1) % size :: headsLoop size mark maxchainlen (fanout - 1) 1 ((root + 1) % size) =
      ((List.range fanout).map (chainStart mark maxchainlen)).map (rotate size root) := by
  obtain ⟨f, rfl⟩ := exists_eq_succ_of_ne_zero hpos
  have hfirst : (root + 1) % size = rotate size root (chainStart mark maxchainlen 0) := by
    simp [chainStart, rotate, add_comm]
  rw [succ_eq_add_one, Nat.add_sub_cancel, hfirst, headsLoop_eq hlen f 0, List.range_eq_range',
    List.range'_succ]
  rfl

theorem consistent_chains (fanout : ℕ) (hroot : root < size) (htwo : 2 ≤ fanout) (hlt : fanout < size)
    (hmax : fanout ≤ maxTreeFanout) {build : ℕ → Option CollTree}
    (hbuild : ∀ r < size, ∀ mark maxchainlen,
      mark = (if (size - 1) % fanout ≠ 0 then (size - 1) % fanout else fanout + 1) →
      maxchainlen = ((size - 1) / fanout + if (size - 1) % fanout ≠ 0 then 1 else 0) →
      build r =
        if r = root then
          some
            { root
              prev := -1
              next := (root + 1) % size ::
                headsLoop size mark maxchainlen (fanout - 1) 1 ((root + 1) % size) }
        else (chainOf mark maxchainlen (shift size root r)).bind fun (head, len) =>
          some
            { root
              prev := (((if shift size root r = head then 0 else shift size root r - 1) + root) % size : ℕ)
              next := (if shift size root r = head + len - 1 then []
                else if shift size root r + 1 < size then [shift size root r + 1] else []).map
                  fun s => (s + root) % size }) :
    Consistent size root build := by
  have h := chains_of_fanout htwo hlt
  have hbuild' (r : ℕ) (hr : r < size) := hbuild r hr _ _ rfl rfl
  generalize (if (size - 1) % fanout ≠ 0 then (size - 1) % fanout else fanout + 1) = mark at h hbuild'
  generalize ((size - 1) / fanout + if (size - 1) % fanout ≠ 0 then 1 else 0) = maxchainlen at h hbuild'
  choose! head len parent childs hchain hparent hlink hchilds hsorted hmem using
    fun (s : ℕ) (hpos : s ≠ 0) (hs : s < size) => exists_link h hpos hs
  have hspan : Spanning size 0 (fun v => if v = 0 then none else some (parent v))
      (fun v => if v = 0 then (List.range fanout).map (chainStart mark maxchainlen) else childs v) := by
    refine .of_rel (fun p c hl => hl.lt h) (fun p q c hp hq => hp.unique hq)
      (fun c hc hpos => hlink c hpos hc) (fun p hp c => ?_) fun p hp => ?_
    · split_ifs with hzero
      · rw [hzero]
        exact mem_heads h
      · exact hmem p hzero hp c
    · split_ifs with hzero
      · exact pairwise_heads h
      · exact hsorted p hzero hp
  refine consistent_of_shifted hspan hroot (fun s hs => ?_) fun r hr => ?_
  · split_ifs with hzero
    · rw [List.length_map, List.length_range]
      exact hmax
    · rw [← hchilds s hzero hs]
      split_ifs <;> simp [maxTreeFanout]
  · have hlt' := shift_lt hroot hr
    rw [hbuild' r hr]
    by_cases hzero : shift size root r = 0
    · rw [if_pos ((shift_eq_zero hroot hr).mp hzero), if_pos hzero, if_pos hzero]
      exact ⟨_, rfl, .of_root (.inl rfl) (heads_eq h.maxchainlen_pos (by omega))⟩
    · rw [if_neg fun heq => hzero ((shift_eq_zero hroot hr).mpr heq), if_neg hzero, if_neg hzero,
        hchain _ hzero hlt', Option.bind_some]
      refine ⟨_, rfl, .of_prev hroot hr ((hlink _ hzero hlt').lt h) ?_ ?_⟩
      · rw [← hparent _ hzero hlt']
        rfl
      · rw [← hchilds _ hzero hlt']
        rfl

theorem consistent_pipeline (hroot : root < size) {build : ℕ → Option CollTree}
    (hbuild : ∀ r < size, build r = some
      { root
        prev := if shift size root r = 0 then -1 else ((shift size root r - 1 + root) % size : ℕ)
        next := if size ≤ shift size root r + 1 then [] else [(shift size root r + 1 + root) % size] }) :
    Consistent size root build := by
  have hspan : Spanning size 0 (fun v => if v = 0 then none else some (v - 1))
      (fun v => if size ≤ v + 1 then [] else [v + 1]) := by
    refine .of_rel (R := fun p c => c = p + 1) (fun p c h => by omega) (fun p q c hp hq => by omega)
      (fun c _ hc => by omega) (fun p hp c => ?_) fun p _ => ?_
    · split_ifs with hend
      · exact iff_of_false nofun (by omega)
      · rw [List.mem_singleton]
        omega
    · split_ifs <;> simp
  refine consistent_of_shifted hspan hroot (fun s hs => ?_) fun r hr => ?_
  · split_ifs <;> simp [maxTreeFanout]
  · have hnext : (if size ≤ shift size root r + 1 then []
        else [(shift size root r + 1 + root) % size]) =
        (if size ≤ shift size root r + 1 then [] else [shift size root r + 1]).map (rotate size root) := by
      split_ifs <;> rfl
    refine ⟨_, hbuild r hr, ?_⟩
    by_cases hzero : shift size root r = 0
    · rw [if_pos hzero, if_pos hzero]
      exact .of_root (.inl rfl) hnext
    · rw [if_neg hzero, if_neg hzero]
      exact .of_prev hroot hr (by omega) rfl hnext

theorem consistent_buildChain (hroot : root < size) (hf : 1 ≤ fanout) (hmax : fanout ≤ maxTreeFanout) :
    Consistent size root (fun r => buildChain fanout size r root) := by
  have hone : ¬fanout < 1 := by omega
  have hmax' : ¬maxTreeFanout < fanout := by omega
  by_cases hchain : (if size - 1 < fanout then size - 1 else fanout) = 1
  · refine consistent_pipeline hroot fun r _ => ?_
    unfold buildChain
    simp only [hone, hmax', hchain, if_true, if_false]
  · by_cases hsize : size = 1
    · obtain rfl : root = 0 := by omega
      subst hsize
      refine consistent_one ?_
      unfold buildChain
      simp only [hone, hmax', hchain, if_true, if_false]
    · refine consistent_chains (if size - 1 < fanout then size - 1 else fanout) hroot ?_ ?_ ?_
        fun r hr mark maxchainlen hmark hlen => ?_
      · split_ifs at hchain ⊢ <;> omega
      · split_ifs <;> omega
      · split_ifs <;> omega
      · unfold buildChain
        simp only [hone, hmax', hchain, hsize, if_false, ← hmark, ← hlen]
        rfl

end OpenMPI.Coll
