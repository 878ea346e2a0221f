import OpenMPI.Proofs.Coll.BinomialTree
import OpenMPI.Proofs.Coll.ChainTree

/-!
# The trees

The ranks from `delta` on, `size` of them, are the last rank with the tree of the first half and that
of the others below it.  Rank by rank the loop goes down to the part that has the rank on top.
-/

namespace OpenMPI.Coll

open Lib
open List hiding rotate

/-- The tree over the ranks from `delta` on, `size` of them, as each rank finds it: `prev` is the parent
of the last one. -/
structure InOrder (fuel delta size : ℕ) (parent : ℕ → ℕ) (childs : ℕ → List ℕ) : Prop where
  loop : ∀ r, delta ≤ r → r < delta + size → ∀ prev : ℤ, ∃ c0 c1 : ℤ,
    inOrderLoop fuel (r - delta) (size - 1) delta size prev =
      some (if r + 1 = delta + size then prev else parent r, c0, c1) ∧ inOrderNext c0 c1 = childs r
  parent_gt : ∀ r, delta ≤ r → r + 1 < delta + size → r < parent r ∧ parent r < delta + size
  childs_lt : ∀ r, delta ≤ r → r < delta + size → ∀ c ∈ childs r, delta ≤ c ∧ c + 1 < delta + size
  mem_childs : ∀ r c, delta ≤ r → r < delta + size → delta ≤ c → c + 1 < delta + size →
    (c ∈ childs r ↔ parent c = r)
  nodup : ∀ r, delta ≤ r → r < delta + size → (childs r).Nodup
  length : ∀ r, delta ≤ r → r < delta + size → (childs r).length ≤ 2

theorem inOrder_one (fuel delta : ℕ) : InOrder (fuel + 1) delta 1 (fun _ => 0) (fun _ => []) where
  loop r h1 h2 prev := by
    obtain rfl : r = delta := by omega
    exact ⟨-1, -1, by simp [inOrderLoop], rfl⟩
  parent_gt r h1 h2 := by omega
  childs_lt r h1 h2 c hc := nomatch hc
  mem_childs r c h1 h2 h3 h4 := by omega
  nodup r h1 h2 := nodup_nil
  length r h1 h2 := Nat.zero_le 2

theorem inOrder_two (fuel delta : ℕ) : InOrder (fuel + 2) delta 2 (fun _ => delta + 1)
    (fun r => if r = delta + 1 then [delta] else []) where
  loop r h1 h2 prev := by
    rcases eq_or_lt_of_le h1 with rfl | h1
    · exact ⟨-1, -1, by simp [inOrderLoop, Int.shiftRight_eq_div_pow, add_comm],
        by simp [inOrderNext]⟩
    · obtain rfl : r = delta + 1 := by omega
      exact ⟨delta, -1, by simp [inOrderLoop], by simp [inOrderNext]⟩
  parent_gt r h1 h2 := by omega
  childs_lt r h1 h2 c hc := by
    split_ifs at hc
    · obtain rfl := mem_singleton.mp hc
      omega
    · cases hc
  mem_childs r c h1 h2 h3 h4 := by
    obtain rfl : c = delta := by omega
    split_ifs with h
    · simp [h]
    · exact iff_of_false nofun fun heq => h heq.symm
  nodup r h1 h2 := by split_ifs <;> simp
  length r h1 h2 := by split_ifs <;> simp

theorem inOrderLoop_succ {n : ℤ} (hn : 3 ≤ n) (fuel : ℕ) (m delta prev : ℤ) :
    inOrderLoop (fuel + 1) m (n - 1) delta n prev =
      if m = n - 1 then some (prev, n - 1 - 1 + delta, n / 2 - 1 + delta)
      else if m > n / 2 - 1 then
        inOrderLoop fuel (m - n / 2) (n - n / 2 - 1 - 1) (delta + n / 2) (n - n / 2 - 1)
          (if m = n - 1 - 1 then n - 1 + delta else prev)
      else inOrderLoop fuel m (n / 2 - 1) delta (n / 2) (if m = n / 2 - 1 then n - 1 + delta else prev) := by
  have hhalf : n >>> (1 : ℕ) = n / 2 := by rw [Int.shiftRight_eq_div_pow]; rfl
  have h1 : n - 1 > 0 := by omega
  have h2 : n - 1 - 1 > 0 := by omega
  have h3 : 0 ≤ n - 1 - 1 := by omega
  have h4 : 0 ≤ n / 2 - 1 := by omega
  conv_lhs => unfold inOrderLoop
  simp only [hhalf, h1, h2, h3, h4, if_true, and_self]

theorem inOrderNext_two {c0 c1 : ℕ} : inOrderNext c0 c1 = [c0, c1] := by
  simp [inOrderNext]

/-- The tree over two halves and the last rank. -/
theorem inOrder_halves {fuel delta size : ℕ} (hsize : 3 ≤ size) {pr pl : ℕ → ℕ} {cr cl : ℕ → List ℕ}
    (hr : InOrder fuel delta (size / 2) pr cr)
    (hl : InOrder fuel (delta + size / 2) (size - size / 2 - 1) pl cl) :
    InOrder (fuel + 1) delta size
      (fun r =>
        if r < delta + size / 2 then
          if r + 1 = delta + size / 2 then delta + size - 1 else pr r
        else if r + 2 = delta + size then delta + size - 1 else pl r)
      (fun r =>
        if r + 1 = delta + size then [delta + size - 2, delta + size / 2 - 1]
        else if r < delta + size / 2 then cr r else cl r) where
  loop r h1 h2 prev := by
    have hhalf : ((size / 2 : ℕ) : ℤ) = (size : ℤ) / 2 := rfl
    rw [inOrderLoop_succ (by omega)]
    by_cases h3 : r + 1 = delta + size
    · rw [if_pos (by omega), if_pos h3, if_pos h3]
      refine ⟨(delta + size - 2 : ℕ), (delta + size / 2 - 1 : ℕ), ?_, inOrderNext_two⟩
      refine congrArg some (Prod.ext rfl (Prod.ext ?_ ?_)) <;> dsimp only <;> omega
    rw [if_neg (by omega), if_neg h3, if_neg h3]
    by_cases h4 : r < delta + size / 2
    · rw [if_neg (by omega), if_pos h4, if_pos h4]
      obtain ⟨c0, c1, hloop, hnext⟩ :=
        hr.loop r h1 h4 (if (r - delta : ℤ) = size / 2 - 1 then size - 1 + delta else prev)
      rw [hhalf] at hloop
      refine ⟨c0, c1, hloop.trans (congrArg some (Prod.ext ?_ rfl)), hnext⟩
      dsimp only
      split_ifs <;> omega
    · rw [if_pos (by omega), if_neg h4, if_neg h4]
      obtain ⟨c0, c1, hloop, hnext⟩ := hl.loop r (by omega) (by omega)
        (if (r - delta : ℤ) = size - 1 - 1 then size - 1 + delta else prev)
      have hsub : ((size - size / 2 - 1 : ℕ) : ℤ) = size - size / 2 - 1 := by omega
      rw [hsub, Nat.cast_add, hhalf, ← sub_sub] at hloop
      refine ⟨c0, c1, hloop.trans (congrArg some (Prod.ext ?_ rfl)), hnext⟩
      dsimp only
      split_ifs <;> omega
  parent_gt r h1 h2 := by
    split_ifs with h3 h4 h4
    · omega
    · have := hr.parent_gt r h1 (by omega)
      omega
    · omega
    · have := hl.parent_gt r (by omega) (by omega)
      omega
  childs_lt r h1 h2 c hc := by
    split_ifs at hc with h3 h4
    · simp only [mem_cons, not_mem_nil, or_false] at hc
      omega
    · have := hr.childs_lt r h1 h4 c hc
      omega
    · have := hl.childs_lt r (by omega) (by omega) c hc
      omega
  mem_childs r c h1 h2 h3 h4 := by
    -- a child other than the two on top is in the same half as its parent
    split_ifs with h5 h6 h7 h7 h6 h7 h8 h8 h7 h8 h8
    · simp only [mem_cons, not_mem_nil, or_false]
      omega
    · have := hr.parent_gt c h3 (by omega)
      simp only [mem_cons, not_mem_nil, or_false]
      omega
    · simp only [mem_cons, not_mem_nil, or_false]
      omega
    · have := hl.parent_gt c (by omega) (by omega)
      simp only [mem_cons, not_mem_nil, or_false]
      omega
    · refine iff_of_false (fun hc => ?_) (by omega)
      have := hr.childs_lt r h1 h6 c hc
      omega
    · exact hr.mem_childs r c h1 h6 h3 (by omega)
    · refine iff_of_false (fun hc => ?_) (by omega)
      have := hr.childs_lt r h1 h6 c hc
      omega
    · have := hl.parent_gt c (by omega) (by omega)
      refine iff_of_false (fun hc => ?_) (by omega)
      have := hr.childs_lt r h1 h6 c hc
      omega
    · refine iff_of_false (fun hc => ?_) (by omega)
      have := hl.childs_lt r (by omega) (by omega) c hc
      omega
    · have := hr.parent_gt c h3 (by omega)
      refine iff_of_false (fun hc => ?_) (by omega)
      have := hl.childs_lt r (by omega) (by omega) c hc
      omega
    · refine iff_of_false (fun hc => ?_) (by omega)
      have := hl.childs_lt r (by omega) (by omega) c hc
      omega
    · exact hl.mem_childs r c (by omega) (by omega) (by omega) (by omega)
  nodup r h1 h2 := by
    split_ifs with h3 h4
    · simp
      omega
    · exact hr.nodup r h1 h4
    · exact hl.nodup r (by omega) (by omega)
  length r h1 h2 := by
    split_ifs with h3 h4
    · simp
    · exact hr.length r h1 h4
    · exact hl.length r (by omega) (by omega)

theorem exists_inOrder (size : ℕ) (hsize : 1 ≤ size) (fuel delta : ℕ) (hfuel : size < fuel) :
    ∃ parent childs, InOrder fuel delta size parent childs := by
  induction size using Nat.strongRecOn generalizing fuel delta with
  | ind size ih =>
    obtain ⟨fuel, rfl⟩ : ∃ k, fuel = k + 1 := ⟨fuel - 1, by omega⟩
    rcases lt_or_ge size 3 with hlt | hge
    · obtain rfl | rfl : size = 1 ∨ size = 2 := by omega
      · exact ⟨_, _, inOrder_one fuel delta⟩
      · obtain ⟨fuel, rfl⟩ : ∃ k, fuel = k + 1 := ⟨fuel - 1, by omega⟩
        exact ⟨_, _, inOrder_two fuel delta⟩
    · obtain ⟨pr, cr, hr⟩ := ih (size / 2) (by omega) (by omega) fuel delta (by omega)
      obtain ⟨pl, cl, hl⟩ := ih (size - size / 2 - 1) (by omega) (by omega) fuel
        (delta + size / 2) (by omega)
      exact ⟨_, _, inOrder_halves hge hr hl⟩

theorem consistent_buildInOrderBintree {size : ℕ} (hsize : 1 ≤ size) :
    Consistent size (size - 1) (fun r => buildInOrderBintree size r) := by
  obtain ⟨parent, childs, h⟩ := exists_inOrder size hsize (size + 1) 0 (Nat.lt_succ_self size)
  have hlt {r : ℕ} (hr : r < size) : r < 0 + size := by omega
  have hbuild (r : ℕ) (hr : r < size) : buildInOrderBintree size r = some
      { root := size - 1
        prev := if r + 1 = 0 + size then -1 else parent r
        next := childs r } := by
    obtain ⟨c0, c1, hloop, hnext⟩ := h.loop r (Nat.zero_le r) (hlt hr) (-1)
    rw [Nat.cast_zero, sub_zero] at hloop
    unfold buildInOrderBintree
    simp only [hloop, hnext, Option.bind_eq_bind, Option.bind_some]
  refine ⟨_, hbuild, ?_, fun r hr => ?_⟩
  · have hparent (r : ℕ) (hr : r < size) : CollTree.parent? r
        { root := size - 1, prev := if r + 1 = 0 + size then -1 else parent r, next := childs r } =
          if r + 1 = size then none else some (parent r) := by
      unfold CollTree.parent?
      dsimp only
      rw [zero_add]
      split_ifs with h1 h2 h2
      · rfl
      · omega
      · have := h.parent_gt r (Nat.zero_le r) (by omega)
        omega
      · rfl
    refine .of_measure (fun r => size - r) (fun p hp c hc => ?_) (fun p hp c hc => ?_)
      (fun p hp => h.nodup p (Nat.zero_le p) (hlt hp)) (fun c hc p hp => ?_) fun c hc => ?_
    · have := h.childs_lt p (Nat.zero_le p) (hlt hp) c hc
      omega
    · rw [hparent c hc]
      by_cases h1 : c + 1 = size
      · rw [if_pos h1]
        refine iff_of_false (fun hmem => ?_) nofun
        have := h.childs_lt p (Nat.zero_le p) (hlt hp) c hmem
        omega
      · rw [if_neg h1, Option.some.injEq]
        exact h.mem_childs p c (Nat.zero_le p) (hlt hp) (Nat.zero_le c) (by omega)
    · rw [hparent c hc] at hp
      split_ifs at hp with h1
      cases hp
      have := h.parent_gt c (Nat.zero_le c) (by omega)
      omega
    · rw [hparent c hc]
      split_ifs with h1
      · exact iff_of_true rfl (by omega)
      · exact iff_of_false nofun (by omega)
  · exact Nat.le_trans (h.length r (Nat.zero_le r) (hlt hr)) (by decide)

end OpenMPI.Coll

/-!
## `build_tree` by levels

Level `l` of the tree begins at `levelStart fanout l`.  A node is a child of the node on the level
above that is a multiple of this level's width before it (`IsParent`).
-/

namespace OpenMPI.Coll

open Lib List Nat

variable {fanout size root rank : ℕ}

theorem foldl_pown (fanout num p : ℕ) :
    (range num).foldl (fun p _ => p * fanout) p = p * fanout ^ num := by
  induction num with
  | zero => simp
  | succ num ih => rw [range_succ, foldl_append, ih, foldl_cons, foldl_nil, pow_succ,
      mul_assoc]

theorem pown_eq (fanout num : ℕ) : pown fanout num = fanout ^ num := by
  unfold pown
  split_ifs with hone htwo
  · rw [hone, pow_one]
  · rw [htwo, Nat.shiftLeft_eq, one_mul]
  · rw [foldl_pown, one_mul]

def levelStart (fanout level : ℕ) : ℕ := ∑ i ∈ Finset.range level, fanout ^ i

theorem levelStart_succ (fanout level : ℕ) :
    levelStart fanout (level + 1) = levelStart fanout level + fanout ^ level :=
  Finset.sum_range_succ _ _

theorem levelStart_lt (hf : 1 ≤ fanout) {k l : ℕ} (h : k < l) :
    levelStart fanout k < levelStart fanout l := by
  have hmono : StrictMono (levelStart fanout) := strictMono_nat_of_lt_succ fun l => by
    rw [levelStart_succ]
    exact Nat.lt_add_of_pos_right (Nat.pow_pos hf)
  exact hmono h

theorem le_of_levelStart (hf : 1 ≤ fanout) {k l v : ℕ} (hk : levelStart fanout k ≤ v)
    (hl : v < levelStart fanout (l + 1)) : k ≤ l := by
  by_contra hlt
  have hle : levelStart fanout (l + 1) ≤ levelStart fanout k := by
    rcases eq_or_lt_of_le (show l + 1 ≤ k by omega) with heq | hlt'
    · rw [heq]
    · exact (levelStart_lt hf hlt').le
  omega

theorem calculateNumNodesUpToLevel_eq (hf : 2 ≤ fanout) (level : ℕ) :
    calculateNumNodesUpToLevel fanout level = some (levelStart fanout level) := by
  unfold calculateNumNodesUpToLevel
  rw [if_neg (by omega), pown_eq, levelStart, geomSum_eq hf]

theorem levelLoop_eq (hf : 1 ≤ fanout) {v : ℕ} (fuel level : ℕ)
    (hfuel : v + 2 ≤ levelStart fanout level + fuel) (hpos : fuel ≠ 0)
    (hlevel : levelStart fanout (level - 1) ≤ v) :
    ∃ l, levelLoop fanout v fuel level (levelStart fanout level) = some l ∧
      levelStart fanout l ≤ v ∧ v < levelStart fanout (l + 1) := by
  induction fuel generalizing level with
  | zero => exact absurd rfl hpos
  | succ fuel ih =>
    unfold levelLoop
    split_ifs with hle
    · rw [pown_eq, ← levelStart_succ]
      have := levelStart_lt hf (Nat.lt_add_one level)
      exact ih (level + 1) (by omega) (by omega) hle
    · rcases Nat.eq_zero_or_pos level with rfl | hpos
      · simp [levelStart] at hle
      · refine ⟨level - 1, rfl, hlevel, ?_⟩
        rw [Nat.sub_add_cancel hpos]
        omega

theorem calculateLevel_eq (hf : 1 ≤ fanout) (v : ℕ) :
    ∃ l, calculateLevel fanout v = some l ∧ levelStart fanout l ≤ v ∧ v < levelStart fanout (l + 1) :=
  levelLoop_eq hf (v + 2) 0 (by simp [levelStart]) (by omega) (by simp [levelStart])

def IsParentAt (fanout l p c : ℕ) : Prop :=
  levelStart fanout l ≤ p ∧ p < levelStart fanout (l + 1) ∧
    ∃ i < fanout, c = p + fanout ^ l * (i + 1)

def IsParent (fanout p c : ℕ) : Prop := ∃ l, IsParentAt fanout l p c

theorem IsParentAt.level {l p c : ℕ} (h : IsParentAt fanout l p c) :
    levelStart fanout (l + 1) ≤ c ∧ c < levelStart fanout (l + 2) := by
  obtain ⟨hle, hlt, i, hi, rfl⟩ := h
  have hstep : fanout ^ l * (i + 1) ≤ fanout ^ (l + 1) := by
    rw [pow_succ]
    exact mul_le_mul_left _ hi
  have hone : fanout ^ l * 1 ≤ fanout ^ l * (i + 1) := mul_le_mul_left _ (by omega)
  have := levelStart_succ fanout l
  have : levelStart fanout (l + 2) = _ := levelStart_succ fanout (l + 1)
  omega

theorem IsParent.lt (hf : 1 ≤ fanout) {p c : ℕ} (h : IsParent fanout p c) : p < c := by
  obtain ⟨l, -, -, i, -, rfl⟩ := h
  have : 0 < fanout ^ l * (i + 1) := mul_pos (Nat.pow_pos hf) (succ_pos i)
  omega

theorem IsParent.unique (hf : 1 ≤ fanout) {p q c : ℕ} (hp : IsParent fanout p c)
    (hq : IsParent fanout q c) : p = q := by
  obtain ⟨k, hk⟩ := hp
  obtain ⟨l, hl⟩ := hq
  obtain rfl : k = l := by
    have h1 := le_of_levelStart hf hk.level.1 hl.level.2
    have h2 := le_of_levelStart hf hl.level.1 hk.level.2
    omega
  obtain ⟨hp1, hp2, i, -, hi⟩ := hk
  obtain ⟨hq1, hq2, j, -, hj⟩ := hl
  -- both are within the width of the level, and the same number of widths before `c`
  have hwidth := levelStart_succ fanout k
  have hij : i = j := by
    rcases lt_trichotomy i j with hlt | heq | hlt
    · have : fanout ^ k * (i + 1 + 1) ≤ fanout ^ k * (j + 1) := mul_le_mul_left _ (by omega)
      rw [mul_succ] at this
      omega
    · exact heq
    · have : fanout ^ k * (j + 1 + 1) ≤ fanout ^ k * (i + 1) := mul_le_mul_left _ (by omega)
      rw [mul_succ] at this
      omega
  subst hij
  omega

theorem parentLoop_eq (slimit step : ℕ) (hstep : 1 ≤ step) (hslimit : step ≤ slimit) (fuel v : ℕ)
    (hfuel : v < fuel) :
    ∃ p k, parentLoop slimit step fuel v = some p ∧ v = p + step * k ∧ p < slimit ∧
      (k = 0 ∨ slimit ≤ p + step) := by
  induction fuel generalizing v with
  | zero => omega
  | succ fuel ih =>
    unfold parentLoop
    split_ifs with hle
    · obtain ⟨p, k, hloop, hv, hp, hnext⟩ := ih (v - step) (by omega)
      refine ⟨p, k + 1, hloop, by rw [mul_succ]; omega, hp, .inr ?_⟩
      rcases hnext with rfl | hnext
      · omega
      · exact hnext
    · exact ⟨v, 0, rfl, by omega, by omega, .inl rfl⟩

theorem exists_parent (hf : 2 ≤ fanout) {v l : ℕ} (hv : v ≠ 0) (hle : levelStart fanout l ≤ v)
    (hlt : v < levelStart fanout (l + 1)) :
    ∃ p, findParent fanout (levelStart fanout l) (fanout ^ l) v = some p ∧ IsParent fanout p v := by
  have hzero : levelStart fanout 0 = 0 := rfl
  have hone : levelStart fanout 1 = 1 := by simp [levelStart]
  unfold findParent
  split_ifs with hsmall
  · refine ⟨0, rfl, 0, hzero.le, ?_, v - 1, by omega, by rw [pow_zero]; omega⟩
    rw [zero_add, hone]
    exact Nat.zero_lt_one
  · obtain ⟨l, rfl⟩ : ∃ k, l = k + 1 := by
      refine exists_eq_add_one.mpr (Nat.pos_of_ne_zero ?_)
      rintro rfl
      rw [zero_add] at hlt
      omega
    have hwidth : fanout ^ (l + 1) / fanout = fanout ^ l := by
      rw [pow_succ, Nat.mul_div_cancel _ (by omega)]
    have hstart := levelStart_succ fanout l
    obtain ⟨p, k, hloop, hvp, hp, hk⟩ := parentLoop_eq (levelStart fanout (l + 1)) (fanout ^ l)
      (Nat.pow_pos (by omega)) (by omega) (v + 1) v (Nat.lt_succ_self v)
    have hpos : k ≠ 0 := by
      rintro rfl
      omega
    have hlow : levelStart fanout l ≤ p := by omega
    rw [hwidth]
    refine ⟨p, hloop, l, hlow, hp, k - 1, ?_, by rw [Nat.sub_add_cancel (Nat.pos_of_ne_zero hpos)]; exact hvp⟩
    have hend : fanout ^ l * k < fanout ^ l * (fanout + 1) := by
      have hstart' := levelStart_succ fanout (l + 1)
      rw [mul_succ, ← pow_succ]
      omega
    have := Nat.lt_of_mul_lt_mul_left hend
    omega

theorem mem_takeWhile_lt {l : List ℕ} (h : l.Pairwise (· < ·)) {x : ℕ} :
    x ∈ l.takeWhile (· < size) ↔ x ∈ l ∧ x < size := by
  induction l with
  | nil => simp
  | cons y l ih =>
    obtain ⟨hy, hl⟩ := pairwise_cons.mp h
    by_cases hlt : y < size
    · rw [takeWhile_cons_of_pos (by simpa using hlt), mem_cons, mem_cons, ih hl]
      constructor
      · rintro (rfl | ⟨hx, hxn⟩)
        · exact ⟨.inl rfl, hlt⟩
        · exact ⟨.inr hx, hxn⟩
      · rintro ⟨rfl | hx, hxn⟩
        · exact .inl rfl
        · exact .inr ⟨hx, hxn⟩
    · rw [takeWhile_cons_of_neg (by simpa using hlt)]
      refine iff_of_false (by simp) ?_
      rintro ⟨hx, hxn⟩
      rcases mem_cons.mp hx with rfl | hx
      · exact hlt hxn
      · exact hlt (lt_trans (hy x hx) hxn)

/-- The children of a shifted rank on level `level`, as the rank itself computes them. -/
def treeChilds (fanout size level v : ℕ) : List ℕ :=
  ((List.range fanout).map fun i => v + fanout ^ level * (i + 1)).takeWhile (· < size)

theorem pairwise_treeChilds (hf : 1 ≤ fanout) (level v : ℕ) :
    ((range fanout).map fun i => v + fanout ^ level * (i + 1)).Pairwise (· < ·) := by
  refine List.Pairwise.map _ (fun i j hij => ?_) pairwise_lt_range
  have : fanout ^ level * (i + 1) < fanout ^ level * (j + 1) :=
    Nat.mul_lt_mul_of_pos_left (by omega) (Nat.pow_pos hf)
  omega

theorem mem_treeChilds (hf : 1 ≤ fanout) {l v c : ℕ} (hle : levelStart fanout l ≤ v)
    (hlt : v < levelStart fanout (l + 1)) :
    c ∈ treeChilds fanout size l v ↔ IsParent fanout v c ∧ c < size := by
  unfold treeChilds
  rw [mem_takeWhile_lt (pairwise_treeChilds hf l v), mem_map]
  refine and_congr_left fun _ => ?_
  constructor
  · rintro ⟨i, hi, rfl⟩
    exact ⟨l, hle, hlt, i, mem_range.mp hi, rfl⟩
  · rintro ⟨k, hk, hk', i, hi, rfl⟩
    obtain rfl : k = l := le_antisymm (le_of_levelStart hf hk hlt) (le_of_levelStart hf hle hk')
    exact ⟨i, mem_range.mpr hi, rfl⟩

theorem spanning_tree (hf : 1 ≤ fanout) {level parent : ℕ → ℕ}
    (hlevel : ∀ v, levelStart fanout (level v) ≤ v ∧ v < levelStart fanout (level v + 1))
    (hparent : ∀ v, v ≠ 0 → IsParent fanout (parent v) v) :
    Spanning size 0 (fun v => if v = 0 then none else some (parent v))
      (fun v => treeChilds fanout size (level v) v) := by
  refine .of_rel (fun p c h => h.lt hf) (fun p q c hp hq => hp.unique hf hq)
    (fun c _ hc => hparent c hc) (fun p _ c => mem_treeChilds hf (hlevel p).1 (hlevel p).2)
    fun p _ => ?_
  exact (pairwise_treeChilds hf (level p) p).sublist (takeWhile_sublist _)

theorem consistent_buildTree (hf : 2 ≤ fanout) (hmax : fanout ≤ maxTreeFanout) (hsize : 2 ≤ size)
    (hroot : root < size) : Consistent size root (fun r => buildTree fanout size r root) := by
  choose level hcalc hlevel using calculateLevel_eq (show 1 ≤ fanout by omega)
  choose! parent hsparent hparent using fun (v : ℕ) (hv : v ≠ 0) =>
    exists_parent hf hv (hlevel v).1 (hlevel v).2
  refine consistent_of_shifted (spanning_tree (by omega) hlevel hparent) hroot (fun s _ => ?_)
    fun r hr => ?_
  · refine (takeWhile_sublist _).length_le.trans ?_
    rw [length_map, length_range]
    exact hmax
  · have hbuild : buildTree fanout size r root =
        (findParent fanout (levelStart fanout (level (shift size root r)))
          (fanout ^ level (shift size root r)) (shift size root r)).bind fun sparent =>
            some
              { root
                prev := ((sparent + root) % size : ℕ)
                next := (treeChilds fanout size (level (shift size root r)) (shift size root r)).map
                  (rotate size root) } := by
      unfold buildTree
      rw [if_neg (by omega), if_neg (by omega), if_neg (by omega)]
      simp only [hcalc, Option.bind_eq_bind, Option.bind_some, calculateNumNodesUpToLevel_eq hf,
        pown_eq]
      rfl
    rw [hbuild]
    split_ifs with hzero
    · have hr' := (shift_eq_zero hroot hr).mp hzero
      subst hr'
      rw [hzero, findParent, if_pos (by omega)]
      refine ⟨_, rfl, .of_root (.inr ?_) rfl⟩
      simp only [zero_add, mod_eq_of_lt hroot]
    · rw [hsparent _ hzero]
      exact ⟨_, rfl, .of_prev hroot hr ((hparent _ hzero).lt (by omega)) rfl rfl⟩

theorem next_buildTree (hf : 2 ≤ fanout) (hmax : fanout ≤ maxTreeFanout) (hsize : 2 ≤ size)
    {t : CollTree} (ht : buildTree fanout size rank root = some t) :
    ∃ l, levelStart fanout l ≤ shift size root rank ∧
      shift size root rank < levelStart fanout (l + 1) ∧
      t.next = (treeChilds fanout size l (shift size root rank)).map (rotate size root) := by
  obtain ⟨l, hcalc, hle, hlt⟩ := calculateLevel_eq (show 1 ≤ fanout by omega) (shift size root rank)
  refine ⟨l, hle, hlt, ?_⟩
  unfold buildTree at ht
  rw [if_neg (by omega), if_neg (by omega), if_neg (by omega)] at ht
  simp only [hcalc, Option.bind_eq_bind, Option.bind_some, calculateNumNodesUpToLevel_eq hf,
    pown_eq] at ht
  obtain ⟨sparent, -, ht⟩ := Option.bind_eq_some_iff.mp ht
  cases ht
  rfl

end OpenMPI.Coll

/-!
## Every tree is one spanning tree

The ranks build one spanning tree, whichever it is, but for `build_tree` with a fanout of 1: there the
number of nodes above a level is a quotient by `fanout - 1`.
-/

namespace OpenMPI.Coll

open Lib

inductive Topology
  | tree (fanout : ℕ)
  | inOrderBintree
  | bmtree
  | inOrderBmtree
  | chain (fanout : ℕ)
  deriving DecidableEq, Repr

namespace Topology

def build (size root : ℕ) (k : Topology) (rank : ℕ) : Option CollTree :=
  match k with
  | tree fanout => buildTree fanout size rank root
  | inOrderBintree => buildInOrderBintree size rank
  | bmtree => buildBmtree size rank root
  | inOrderBmtree => buildInOrderBmtree size rank root
  | chain fanout => buildChain fanout size rank root

def rootOf (size root : ℕ) : Topology → ℕ
  | inOrderBintree => size - 1
  | _ => root

def FanoutOk : Topology → Prop
  | tree fanout | chain fanout => 1 ≤ fanout ∧ fanout ≤ maxTreeFanout
  | _ => True

end Topology

variable {size root : ℕ}

theorem buildTree_one (hsize : 2 ≤ size) (rank : ℕ) : buildTree 1 size rank root = none := by
  unfold buildTree
  rw [if_neg (by decide), if_neg (by decide), if_neg (by omega)]
  have hnone (level : ℕ) : calculateNumNodesUpToLevel 1 level = none := rfl
  simp [hnone]

/-- The ranks build one spanning tree exactly if it is not the tree of fanout 1 over several ranks. -/
theorem consistent_iff (k : Topology) (hsize : size < 2 ^ 31) (hroot : root < size) (hk : k.FanoutOk) :
    Consistent size (k.rootOf size root) (k.build size root) ↔ ¬(k = .tree 1 ∧ 2 ≤ size) := by
  constructor
  · rintro ⟨t, ht, -⟩ ⟨rfl, htwo⟩
    exact nomatch (buildTree_one htwo 0).symm.trans (ht 0 (by omega))
  · intro hnot
    cases k with
    | tree fanout =>
      rcases Nat.lt_or_ge size 2 with hlt | htwo
      · obtain rfl : size = 1 := by omega
        obtain rfl : root = 0 := by omega
        refine consistent_one ?_
        show buildTree fanout 1 0 0 = _
        unfold buildTree
        rw [if_neg (Nat.not_lt.mpr hk.1), if_neg (Nat.not_lt.mpr hk.2), if_pos (by decide)]
      · have hne : fanout ≠ 1 := fun heq => hnot ⟨heq ▸ rfl, htwo⟩
        exact consistent_buildTree (by have := hk.1; omega) hk.2 htwo hroot
    | inOrderBintree => exact consistent_buildInOrderBintree (by omega)
    | bmtree => exact consistent_buildBmtree hsize hroot
    | inOrderBmtree => exact consistent_buildInOrderBmtree hsize hroot
    | chain fanout => exact consistent_buildChain hroot hk.1 hk.2

theorem consistent_iff_seven :
    Consistent 7 1 ((Topology.tree 2).build 7 1) ↔ ¬(Topology.tree 2 = .tree 1 ∧ 2 ≤ 7) :=
  consistent_iff (.tree 2) (by decide) (by decide) ⟨by decide, by decide⟩

theorem not_consistent : ¬∀ (k : Topology) (size root : ℕ), size < 2 ^ 31 → root < size → k.FanoutOk →
    Consistent size (k.rootOf size root) (k.build size root) := by
  intro h
  obtain ⟨t, ht, -⟩ := h (.tree 1) 2 0 (by decide) (by decide) ⟨by decide, by decide⟩
  exact nomatch (buildTree_one (Nat.le_refl 2) 0).symm.trans (ht 0 (by decide))

end OpenMPI.Coll
