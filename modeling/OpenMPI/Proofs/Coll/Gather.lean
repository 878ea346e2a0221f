import OpenMPI.Coll.Gather
import OpenMPI.Proofs.Coll.BinomialTree

/-!
# Gather and scatter

A virtual rank `v` of the in-order binomial tree stands over the `min (2 ^ k) (size - v)` ranks from
`v` on, where `k` is the number of its children.  Sender and receiver of each message agree on that
number, and the messages are the pieces of one vector, the blocks in the order of the virtual ranks.
-/

namespace OpenMPI.Coll

open Lib Nat
open List hiding rotate

variable {size root rank v c : ℕ}

def HasChilds (size v k : ℕ) : Prop := ∀ j, j < k ↔ 2 ^ (j + 1) ∣ v ∧ v + 2 ^ j < size

theorem exists_hasChilds (size v : ℕ) : ∃ k, HasChilds size v k := by
  have hex : ∃ k, ¬(2 ^ (k + 1) ∣ v ∧ v + 2 ^ k < size) := by
    refine ⟨size, fun h => ?_⟩
    have := Nat.lt_two_pow_self (n := size)
    omega
  classical
  refine ⟨Nat.find hex, fun j => ⟨fun h => by_contra (Nat.find_min hex h), fun h => ?_⟩⟩
  by_contra hlt
  refine Nat.find_spec hex ⟨?_, ?_⟩
  · exact (pow_dvd_pow 2 (by omega)).trans h.1
  · have : 2 ^ Nat.find hex ≤ 2 ^ j := Nat.pow_le_pow_right (by decide) (by omega)
    omega

theorem buildInOrderBmtree_eq (hsize : size < 2 ^ 31) (hroot : root < size) (hr : rank < size) {k : ℕ}
    (hk : HasChilds size (shift size root rank) k) :
    ∃ prev : ℤ, buildInOrderBmtree size rank root = some
        { root, prev, next := (range k).map fun j => rotate size root (shift size root rank + 2 ^ j) } ∧
      (rank ≠ root → ∃ p, AddsLow p (shift size root rank) ∧ prev = rotate size root p) := by
  have hlt := shift_lt hroot hr
  obtain ⟨prev, cs, hloop, hprev, hsorted, hmem⟩ := inOrderBmLoop_eq root hsize hlt (size + 1) 0
    (if root = rank then root else -1) [] (by simp) (by omega) (one_dvd _) (Nat.le_refl 0)
  have hcs : cs = (range k).map fun j => shift size root rank + 2 ^ j := by
    refine hsorted.eq_of_mem_iff (pairwise_map.mpr ?_) fun c => ?_
    · refine List.pairwise_lt_range.imp fun h => ?_
      exact Nat.add_lt_add_left (Nat.pow_lt_pow_right (by decide) h) _
    · rw [hmem, mem_map]
      constructor
      · rintro ⟨hc, j, -, hdvd, rfl⟩
        exact ⟨j, mem_range.mpr ((hk j).mpr ⟨hdvd, hc⟩), rfl⟩
      · rintro ⟨j, hj, rfl⟩
        obtain ⟨hdvd, hc⟩ := (hk j).mp (mem_range.mp hj)
        exact ⟨hc, j, zero_le j, hdvd, rfl⟩
  refine ⟨prev, ?_, fun hne => ?_⟩
  · unfold buildInOrderBmtree
    rw [show (rank + size - root) % size = shift size root rank from (shift_eq_unrotate hroot hr).symm]
    simp only [pow_zero, nil_append] at hloop
    simp only [hloop, Option.bind_eq_bind, Option.bind_some, hcs, map_map]
    rfl
  · rw [if_neg (mt (shift_eq_zero hroot hr).mp hne)] at hprev
    exact hprev

def bmtree (size root rank : ℕ) (k : ℕ → ℕ) (prev : ℤ) : CollTree :=
  { root
    prev
    next := (List.range (k (shift size root rank))).map fun j =>
      rotate size root (shift size root rank + 2 ^ j) }

theorem exists_inOrderBmtree (hsize : size < 2 ^ 31) (hroot : root < size) :
    ∃ (k : ℕ → ℕ) (prev : ℕ → ℤ), (∀ v, HasChilds size v (k v)) ∧
      (∀ r < size, buildInOrderBmtree size r root = some (bmtree size root r k (prev r))) ∧
      ∀ r < size, r ≠ root → ∃ p, AddsLow p (shift size root r) ∧ prev r = rotate size root p := by
  choose k hk using exists_hasChilds size
  have htree (r : ℕ) (hr : r < size) := buildInOrderBmtree_eq hsize hroot hr (hk _)
  choose! prev htree hprev using htree
  exact ⟨k, prev, hk, htree, hprev⟩

/-- The ranks below `v`, itself included, once it has heard of its first `j` children. -/
def held (size v j : ℕ) : ℕ := min (2 ^ j) (size - v)

theorem HasChilds.held_eq {k j : ℕ} (hk : HasChilds size v k) (hj : j < k) :
    held size v j = 2 ^ j ∧ held size v (j + 1) = 2 ^ j + min (2 ^ j) (size - (v + 2 ^ j)) := by
  obtain ⟨-, hlt⟩ := (hk j).mp hj
  unfold held
  rw [pow_succ]
  omega

theorem HasChilds.held_child {k j l : ℕ} (hk : HasChilds size v k) (hj : j < k)
    (hl : HasChilds size (v + 2 ^ j) l) :
    held size (v + 2 ^ j) l = min (2 ^ j) (size - (v + 2 ^ j)) := by
  obtain ⟨hdvd, hlt⟩ := (hk j).mp hj
  have hlj : l ≤ j := by
    by_contra h
    have hbit := ((hl j).mp (by omega)).1
    rw [Nat.dvd_add_right hdvd] at hbit
    have hle := Nat.le_of_dvd (Nat.two_pow_pos j) hbit
    have := Nat.two_pow_pos j
    rw [pow_succ] at hle
    omega
  rcases eq_or_lt_of_le hlj with rfl | hlj
  · rfl
  · have hdvd' : 2 ^ (l + 1) ∣ v + 2 ^ j :=
      Nat.dvd_add ((pow_dvd_pow 2 (by omega)).trans hdvd) (pow_dvd_pow 2 hlj)
    have hge : size ≤ v + 2 ^ j + 2 ^ l := by
      by_contra h
      exact absurd ((hl l).mpr ⟨hdvd', by omega⟩) (lt_irrefl l)
    have : 2 ^ l ≤ 2 ^ j := Nat.pow_le_pow_right (by decide) (by omega)
    unfold held
    omega

theorem HasChilds.held_root {k : ℕ} (hk : HasChilds size 0 k) : held size 0 k = size := by
  have hge : size ≤ 0 + 2 ^ k := by
    by_contra h
    exact absurd ((hk k).mpr ⟨Nat.dvd_zero _, by omega⟩) (lt_irrefl k)
  unfold held
  omega

theorem HasChilds.eq_zero_of_odd {k : ℕ} (hk : HasChilds size v k) (hv : ¬v % 2 = 0) : k = 0 := by
  by_contra h
  have hdvd := ((hk 0).mp (Nat.pos_of_ne_zero h)).1
  rw [zero_add, pow_one] at hdvd
  exact hv (mod_eq_zero_of_dvd hdvd)

theorem held_zero (hv : v < size) : held size v 0 = 1 := by
  unfold held
  omega

theorem subtreeCount_eq (hroot : root < size) {k j : ℕ} (hk : HasChilds size v k) (hj : j < k) :
    subtreeCount size root v c (rotate size root (v + 2 ^ j)) =
      min (2 ^ j) (size - (v + 2 ^ j)) * c := by
  have hvkid : (rotate size root (v + 2 ^ j) + size - root) % size = v + 2 ^ j :=
    unrotate_rotate hroot ((hk j).mp hj).2
  unfold subtreeCount
  simp only [hvkid, Nat.add_sub_cancel_left]
  congr 1
  split_ifs with h
  · exact (min_eq_right (le_of_lt h)).symm
  · exact (Nat.min_eq_left (Nat.le_of_not_lt h)).symm

theorem held_succ_mul {k j : ℕ} (hroot : root < size) (hk : HasChilds size v k) (hj : j < k) :
    held size v j * c + subtreeCount size root v c (rotate size root (v + 2 ^ j)) =
      held size v (j + 1) * c := by
  obtain ⟨h1, h2⟩ := hk.held_eq hj
  rw [subtreeCount_eq hroot hk hj, h1, h2, add_mul]

theorem subtreeTotal_eq {k : ℕ} (hroot : root < size) (hv : v < size) (hk : HasChilds size v k) :
    subtreeTotal size root v c ((range k).map fun j => rotate size root (v + 2 ^ j)) =
      held size v k * c := by
  have hupto : ∀ j ≤ k, subtreeTotal size root v c
      ((range j).map fun i => rotate size root (v + 2 ^ i)) = held size v j * c := by
    intro j hj
    induction j with
    | zero => exact (held_zero hv ▸ (one_mul c).symm)
    | succ j ih =>
      unfold subtreeTotal at ih ⊢
      rw [range_succ, map_append, foldl_append, ih (by omega)]
      exact held_succ_mul hroot hk (by omega)
  exact hupto k (le_rfl)

theorem subtreeCount_eq_subtreeTotal {j k l : ℕ} (hroot : root < size) (hk : HasChilds size v k)
    (hj : j < k) (hl : HasChilds size (v + 2 ^ j) l) :
    subtreeCount size root v c (rotate size root (v + 2 ^ j)) =
      subtreeTotal size root (v + 2 ^ j) c
        ((range l).map fun i => rotate size root (v + 2 ^ j + 2 ^ i)) := by
  rw [subtreeTotal_eq hroot ((hk j).mp hj).2 hl, hk.held_child hj hl, subtreeCount_eq hroot hk hj]

theorem gatherChildren_snd {α : Type*} (ptmp : RootedBuf) (next : List ℕ) :
    (gatherChildren (α := α) size root v c ptmp next c).2 = subtreeTotal size root v c next := by
  have hfrom : ∀ next total, (gatherChildren (α := α) size root v c ptmp next total).2 =
      next.foldl (fun total child => total + subtreeCount size root v c child) total := by
    intro next
    induction next with
    | nil => exact fun _ => rfl
    | cons child next ih => exact fun total => ih (total + subtreeCount size root v c child)
  exact hfrom next c

variable {α : Type*}

def inOrder (size root c : ℕ) (x : ℕ → ℕ → α) (t : ℕ) : α := x (rotate size root (t / c)) (t % c)

theorem inOrder_block (x : ℕ → ℕ → α) {i : ℕ} (hi : i < c) (v : ℕ) :
    inOrder size root c x (v * c + i) = x (rotate size root v) i := by
  have hc : 0 < c := by omega
  unfold inOrder
  rw [add_comm, add_mul_div_right _ _ hc, div_eq_of_lt hi, zero_add,
    add_mul_mod_self_right, mod_eq_of_lt hi]

theorem gatherChildren_eq (hroot : root < size) (hv : v < size) {k : ℕ} (hk : HasChilds size v k)
    (ptmp : RootedBuf) :
    gatherChildren (α := α) size root v c ptmp
        ((range k).map fun j => rotate size root (v + 2 ^ j)) c =
      ((range k).flatMap fun j => [.recvBuf (rotate size root (v + 2 ^ j)) ptmp
          (held size v j * c) (c * size - held size v j * c)],
        held size v k * c) := by
  have hfrom : ∀ n a, a + n = k → gatherChildren (α := α) size root v c ptmp
      ((range' a n).map fun j => rotate size root (v + 2 ^ j)) (held size v a * c) =
      ((range' a n).flatMap fun j => [.recvBuf (rotate size root (v + 2 ^ j)) ptmp
          (held size v j * c) (c * size - held size v j * c)], held size v k * c) := by
    intro n
    induction n with
    | zero =>
      rintro a rfl
      rfl
    | succ n ih =>
      intro a ha
      rw [range'_succ, map_cons, flatMap_cons]
      simp only [gatherChildren, held_succ_mul hroot hk (show a < k by omega), ih (a + 1) (by omega)]
      rfl
  have h := hfrom k 0 (zero_add k)
  rw [held_zero hv, one_mul] at h
  rw [range_eq_range']
  exact h

/-- `ptmp` begins with `n` elements of `g` from `off` on, and the send buffer is still `s`. -/
def Collected (ptmp : RootedBuf) (g : ℕ → α) (off n : ℕ) (s : ℕ → α) (m : Bufs RootedBuf α) : Prop :=
  (∀ i < n, m ptmp i = g (off + i)) ∧ m .sbuf = s

theorem sndrcv_collected {ptmp : RootedBuf} (hptmp : ptmp ≠ .sbuf) {g : ℕ → α} {off : ℕ}
    {m : Bufs RootedBuf α} (h : ∀ i < c, m .sbuf (0 + i) = g (off + i)) :
    Does [sndrcv .sbuf 0 c ptmp 0 c] .nothing .nothing m (Collected ptmp g off c (m .sbuf)) := by
  refine sndrcv_does ⟨fun i hi => ?_, funext fun i => ?_⟩
  · rw [Bufs.copy_apply, if_pos ⟨rfl, zero_le i, by omega⟩]
    exact h i hi
  · rw [Bufs.copy_apply, if_neg fun h => hptmp h.1.symm]

theorem gatherChildren_does {k : ℕ} (hk : HasChilds size v k) (hv : v < size) {ptmp : RootedBuf}
    (hptmp : ptmp ≠ .sbuf) (x : ℕ → ℕ → α) {s : ℕ → α} {m : Bufs RootedBuf α}
    (h0 : Collected ptmp (inOrder size root c x) (v * c) c s m) :
    Does ((range k).flatMap fun j => [.recvBuf (rotate size root (v + 2 ^ j)) ptmp
        (held size v j * c) (c * size - held size v j * c)])
      (.flat (range k) fun j => .one (rotate size root (v + 2 ^ j))
        (slice (inOrder size root c x) ((v + 2 ^ j) * c) (min (2 ^ j) (size - (v + 2 ^ j)) * c)))
      (.flat (range k) fun _ => .nothing) m
      (Collected ptmp (inOrder size root c x) (v * c) (held size v k * c) s) := by
  refine Does.loop (fun j => Collected ptmp (inOrder size root c x) (v * c) (held size v j * c) s) k
    ?_ fun j hj m₁ hinv => ?_
  · rw [held_zero hv, one_mul]
    exact h0
  · obtain ⟨hheld, hframe⟩ := hinv
    obtain ⟨h1, h2⟩ := hk.held_eq hj
    obtain ⟨-, hlt⟩ := (hk j).mp hj
    refine Does.recvBuf ?_ ⟨fun i hi => ?_, ?_⟩
    · rw [h1, mul_comm c, ← Nat.sub_mul]
      exact mul_le_mul_right _ (by omega)
    · rw [Bufs.write_slice_apply]
      split_ifs with h
      · obtain ⟨-, hle, -⟩ := h
        rw [h1] at hle ⊢
        rw [add_mul]
        congr 1
        omega
      · refine hheld i ?_
        rw [h2, add_mul] at hi
        rw [h1] at h ⊢
        by_contra hge
        exact h ⟨rfl, Nat.le_of_not_lt hge, hi⟩
    · funext i
      rw [Bufs.write_slice_apply, if_neg fun h => hptmp h.1.symm, hframe]

open Classical in
noncomputable def gatherMail (size root c : ℕ) (k : ℕ → ℕ) (x : ℕ → ℕ → α) : Channels α := fun s d =>
  if s < size ∧ d < size ∧ AddsLow (shift size root d) (shift size root s) then
    [slice (inOrder size root c x) (shift size root s * c)
      (held size (shift size root s) (k (shift size root s)) * c)]
  else []

theorem gatherMail_children (hroot : root < size) {p : ℕ} (hp : p < size) {k : ℕ → ℕ}
    (hk : ∀ v, HasChilds size v (k v)) (x : ℕ → ℕ → α) (s : ℕ) :
    Mail.flat (range (k (shift size root p)))
      (fun j => .one (rotate size root (shift size root p + 2 ^ j))
        (slice (inOrder size root c x) ((shift size root p + 2 ^ j) * c)
          (min (2 ^ j) (size - (shift size root p + 2 ^ j)) * c))) s =
      gatherMail size root c k x s p := by
  generalize hv : shift size root p = v
  have hbelow {j : ℕ} (hj : j < k v) : v + 2 ^ j < size := ((hk v j).mp hj).2
  by_cases hs : ∃ j < k v, s = rotate size root (v + 2 ^ j)
  · obtain ⟨j, hj, rfl⟩ := hs
    have hlt := hbelow hj
    rw [Mail.flat_one nodup_range _ (mem_range.mpr hj) fun i hi heq => ?_]
    · have hshift : shift size root (rotate size root (v + 2 ^ j)) = v + 2 ^ j := by
        rw [shift_eq_unrotate hroot (rotate_lt hroot), unrotate_rotate hroot hlt]
      unfold gatherMail
      rw [hshift, hv, if_pos ⟨rotate_lt hroot, hp, j, ((hk v j).mp hj).1, rfl⟩,
        (hk v).held_child hj (hk _)]
    · have := rotate_injOn hroot (hbelow (mem_range.mp hi)) hlt heq
      exact (Nat.pow_right_injective (Nat.le_refl 2)) (add_left_cancel this)
  · rw [Mail.flat_one_eq_nil _ fun j hj heq => hs ⟨j, mem_range.mp hj, heq.symm⟩]
    refine (if_neg ?_).symm
    rintro ⟨hsn, -, j, hdvd, hj⟩
    rw [hv] at hdvd hj
    have hlt := shift_lt hroot hsn
    exact hs ⟨j, (hk v j).mpr ⟨hdvd, hj ▸ hlt⟩, by rw [← hj, rotate_shift hroot hsn]⟩

theorem gatherMail_parent (hroot : root < size) {p q : ℕ} (hp : p < size)
    (hq : AddsLow q (shift size root p)) (k : ℕ → ℕ) (x : ℕ → ℕ → α) (d : ℕ) :
    Mail.one (rotate size root q) (slice (inOrder size root c x) (shift size root p * c)
      (held size (shift size root p) (k (shift size root p)) * c)) d =
      gatherMail size root c k x p d := by
  have hqlt : q < size := lt_trans hq.lt (shift_lt hroot hp)
  unfold gatherMail
  by_cases hd : d = rotate size root q
  · subst hd
    have hadds : AddsLow (shift size root (rotate size root q)) (shift size root p) := by
      rw [shift_eq_unrotate hroot (rotate_lt hroot), unrotate_rotate hroot hqlt]
      exact hq
    rw [Mail.one_self, if_pos ⟨hp, rotate_lt hroot, hadds⟩]
  · rw [Mail.one_of_ne _ hd, if_neg]
    rintro ⟨-, hdn, hadds⟩
    rw [hq.unique hadds, rotate_shift hroot hdn] at hd
    exact hd rfl

theorem gatherMail_root (hroot : root < size) (k : ℕ → ℕ) (x : ℕ → ℕ → α) (d : ℕ) :
    gatherMail size root c k x root d = [] := by
  refine if_neg ?_
  rintro ⟨-, -, hadds⟩
  rw [(shift_eq_zero hroot hroot).mpr rfl] at hadds
  exact absurd hadds.lt (Nat.not_lt_zero _)

def gatherBlock (inPlace : Bool) (root c : ℕ) (m : ℕ → Bufs RootedBuf α) (r i : ℕ) : α :=
  if inPlace ∧ r = root then m root .rbuf (root * c + i) else m r .sbuf i

theorem gatherOver_does (hroot : root < size) {p q : ℕ} (hp : p < size) (hne : p ≠ root) {k : ℕ → ℕ}
    (hk : ∀ v, HasChilds size v (k v)) (hq : AddsLow q (shift size root p)) (rcount : ℕ)
    (inPlace : Bool) (m : ℕ → Bufs RootedBuf α) :
    Does (gatherOver (bmtree size root p k (rotate size root q : ℕ)) size p root c rcount inPlace)
      (fun s => gatherMail size root c k (gatherBlock inPlace root c m) s p)
      (gatherMail size root c k (gatherBlock inPlace root c m) p) (m p)
      fun m' => m' .sbuf = m p .sbuf := by
  have hv := shift_lt hroot hp
  have hvrank : (p + size - root) % size = shift size root p := (shift_eq_unrotate hroot hp).symm
  have hout := gatherMail_parent (c := c) hroot hp hq k (gatherBlock inPlace root c m)
  have hinn := gatherMail_children (c := c) hroot hp hk (gatherBlock inPlace root c m)
  have hown : ∀ i < c, m p .sbuf (0 + i) =
      inOrder size root c (gatherBlock inPlace root c m) (shift size root p * c + i) := by
    intro i hi
    rw [inOrder_block _ hi, rotate_shift hroot hp, zero_add]
    exact (if_neg fun h => hne h.2).symm
  unfold gatherOver bmtree
  simp only [hvrank, if_neg hne, gatherChildren_eq hroot hv (hk _), Int.toNat_natCast]
  generalize gatherBlock inPlace root c m = x at *
  generalize shift size root p = v at *
  split_ifs with heven
  · have h1 := sndrcv_collected (show RootedBuf.tempbuf ≠ .sbuf from nofun) hown
    refine ((h1.append fun m₁ h₁ => gatherChildren_does (hk v) hv
      (show RootedBuf.tempbuf ≠ .sbuf from nofun) x h₁).append fun m₂ h₂ =>
      Does.sendBuf (f := inOrder size root c x) (o := v * c) ?_ h₂.2).congr ?_ ?_
    · intro i hi
      rw [zero_add]
      exact h₂.1 i hi
    · intro s
      rw [← hinn s]
      simp
    · intro d
      rw [← hout d, Mail.flat_nothing]
      simp
  · -- an odd rank has no children
    have hzero := (hk v).eq_zero_of_odd heven
    rw [hzero] at hinn hout
    refine (Does.sendBuf (f := inOrder size root c x) (o := v * c)
      (R := fun m' => m' .sbuf = m p .sbuf) hown rfl).congr ?_ ?_
    · exact fun s => hinn s
    · intro d
      rw [← hout d, held_zero hv, one_mul]

theorem rotated_does (hroot : root < size) {x : ℕ → ℕ → α} {s : ℕ → α} {m : Bufs RootedBuf α}
    (h : Collected .tempbuf (inOrder size root c x) 0 (size * c) s m) :
    Does [.copyBuf .tempbuf 0 .rbuf (root * c) (c * (size - root)),
        .copyBuf .tempbuf (c * (size - root)) .rbuf 0 (c * root)] .nothing .nothing m fun m' =>
      (∀ r < size, ∀ i < c, m' .rbuf (r * c + i) = x r i) ∧ m' .sbuf = s := by
  obtain ⟨htemp, hs⟩ := h
  refine Does.work (Does.copyBuf ⟨fun r hr i hi => ?_, ?_⟩)
  · have hblock {d : ℕ} (hd : d < size) : m .tempbuf (d * c + i) = x (rotate size root d) i := by
      rw [htemp _ (block_lt hd hi), zero_add, inOrder_block x hi]
    rw [Bufs.copy_apply, mul_comm c root]
    rcases lt_or_ge r root with hlt | hge
    · have hplace : c * (size - root) + (r * c + i - 0) = (size - root + r) * c + i := by
        rw [add_mul, mul_comm c]
        omega
      rw [if_pos ⟨rfl, zero_le _, by have := block_lt hlt hi; omega⟩, Bufs.copy_apply,
        if_neg nofun, hplace, hblock (by omega), rotate_eq hroot (by omega), if_neg (by omega)]
      congr 1
      omega
    · have hle : root * c ≤ r * c := mul_le_mul_right c hge
      have hplace : 0 + (r * c + i - root * c) = (r - root) * c + i := by
        rw [Nat.sub_mul]
        omega
      have hin : r * c + i < root * c + c * (size - root) := by
        rw [mul_comm c, ← add_mul, Nat.add_sub_cancel' (le_of_lt hroot)]
        exact block_lt hr hi
      rw [if_neg (by omega), Bufs.copy_apply, if_pos ⟨rfl, by omega, hin⟩, hplace, hblock (by omega),
        rotate_eq hroot (by omega), if_pos (by omega)]
      congr 1
      omega
  · funext i
    rw [Bufs.copy_apply, if_neg nofun, Bufs.copy_apply, if_neg nofun, hs]

theorem gatherOver_root (hroot : root < size) {k : ℕ → ℕ} (hk : ∀ v, HasChilds size v (k v))
    (prev : ℤ) {scount : ℕ} (inPlace : Bool) (hcount : inPlace = false → scount = c)
    (m : ℕ → Bufs RootedBuf α) :
    Does (gatherOver (bmtree size root root k prev) size root root scount c inPlace)
      (fun s => gatherMail size root c k (gatherBlock inPlace root c m) s root)
      (gatherMail size root c k (gatherBlock inPlace root c m) root) (m root) fun m' =>
        (∀ r < size, ∀ i < c, m' .rbuf (r * c + i) = gatherBlock inPlace root c m r i) ∧
          m' .sbuf = m root .sbuf := by
  have hpos : 0 < size := by omega
  have hshift : shift size root root = 0 := (shift_eq_zero hroot hroot).mpr rfl
  have hvrank : (root + size - root) % size = 0 := by rw [Nat.add_sub_cancel_left, mod_self]
  have hinn := gatherMail_children (c := c) hroot hroot hk (gatherBlock inPlace root c m)
  have hout := gatherMail_root (c := c) hroot k (gatherBlock inPlace root c m)
  rw [hshift] at hinn
  unfold gatherOver bmtree
  simp only [hvrank, hshift, if_true, gatherChildren_eq hroot hpos (hk 0)]
  have hblock : ∀ i < c, inOrder size root c (gatherBlock inPlace root c m) (0 * c + i) =
      gatherBlock inPlace root c m root i := fun i hi => by
    rw [inOrder_block _ hi, rotate_zero_left hroot]
  generalize hx : gatherBlock inPlace root c m = x at *
  -- its own block first, then those of its children
  have hall {ptmp : RootedBuf} (hptmp : ptmp ≠ .sbuf) (own : List (Instr (Bufs RootedBuf α) α))
      (hown : Does own .nothing .nothing (m root)
        (Collected ptmp (inOrder size root c x) (0 * c) c (m root .sbuf))) :
      Does (own ++ (range (k 0)).flatMap fun j => [.recvBuf (rotate size root (0 + 2 ^ j)) ptmp
          (held size 0 j * c) (c * size - held size 0 j * c)])
        (fun s => gatherMail size root c k x s root) (gatherMail size root c k x root) (m root)
        (Collected ptmp (inOrder size root c x) 0 (size * c) (m root .sbuf)) := by
    refine ((hown.append fun m₁ h₁ => gatherChildren_does (hk 0) hpos hptmp x h₁).congr ?_ ?_).mono ?_
    · exact fun s => hinn s
    · intro d
      rw [hout d, Mail.flat_nothing]
      rfl
    · intro m' h
      rw [(hk 0).held_root, zero_mul] at h
      exact h
  by_cases hzero : root = 0
  · simp only [if_pos hzero, append_nil]
    subst hzero
    refine (hall (show RootedBuf.rbuf ≠ .sbuf from nofun) _ ?_).mono fun m' h =>
      ⟨fun r hr i hi => ?_, h.2⟩
    · cases inPlace with
      | true =>
        refine Does.nil ⟨fun i hi => ?_, rfl⟩
        rw [hblock i hi, ← hx, gatherBlock, if_pos ⟨rfl, rfl⟩, zero_mul, zero_add]
      | false =>
        obtain rfl := hcount rfl
        refine sndrcv_collected (show RootedBuf.rbuf ≠ .sbuf from nofun) fun i hi => ?_
        rw [hblock i hi, ← hx, gatherBlock, if_neg nofun, zero_add]
    · rw [h.1 _ (block_lt hr hi), zero_add, inOrder_block x hi, rotate_eq hroot hr,
        if_pos (by omega), add_zero]
  · simp only [if_neg hzero]
    have htemp := hall (show RootedBuf.tempbuf ≠ .sbuf from nofun) (if inPlace
      then [.copyBuf .rbuf (root * c) .tempbuf 0 c] else [sndrcv .sbuf 0 scount .tempbuf 0 c]) ?_
    · refine (htemp.append fun m₁ h₁ => rotated_does hroot h₁).congr (fun s => ?_) fun d => ?_
      · exact append_nil _
      · exact append_nil _
    · cases inPlace with
      | true =>
        refine Does.copyBuf ⟨fun i hi => ?_, funext fun i => ?_⟩
        · rw [Bufs.copy_apply, if_pos ⟨rfl, zero_le i, by omega⟩, hblock i hi, ← hx, gatherBlock,
            if_pos ⟨rfl, rfl⟩, Nat.sub_zero]
        · rw [Bufs.copy_apply, if_neg nofun]
      | false =>
        obtain rfl := hcount rfl
        refine sndrcv_collected (show RootedBuf.tempbuf ≠ .sbuf from nofun) fun i hi => ?_
        rw [hblock i hi, ← hx, gatherBlock, if_neg nofun, zero_add]

theorem gather_finishes (hsize : size < 2 ^ 31) (hroot : root < size) {scount rcount : ℕ → ℕ}
    {inPlace : Bool} (hs : ∀ r < size, (r = root → inPlace = false) → scount r = c)
    (hr : rcount root = c) (m : ℕ → Bufs RootedBuf α) :
    ∃ P : ℕ → List (Instr (Bufs RootedBuf α) α),
      (∀ r < size, gatherIntraBinomial size r root (scount r) (rcount r) inPlace = some (P r)) ∧
      Finishes size P m fun m' =>
        (∀ r < size, ∀ i < c, m' root .rbuf (r * c + i) = gatherBlock inPlace root c m r i) ∧
          ∀ r < size, m' r .sbuf = m r .sbuf := by
  obtain ⟨k, prev, hk, htree, hprev⟩ := exists_inOrderBmtree hsize hroot
  refine ⟨fun r => gatherOver (bmtree size root r k (prev r)) size r root (scount r) (rcount r) inPlace,
    fun r hr => by rw [gatherIntraBinomial, htree r hr]; rfl, ?_⟩
  have hgives := Gives.ordered (n := size) (m := m) (A := fun r =>
      gatherOver (bmtree size root r k (prev r)) size r root (scount r) (rcount r) inPlace)
    (fun p m' => (p = root → ∀ r < size, ∀ i < c, m' .rbuf (r * c + i) =
      gatherBlock inPlace root c m r i) ∧ m' .sbuf = m p .sbuf)
    (gatherMail size root c k (gatherBlock inPlace root c m)) (fun p => size - shift size root p)
    (fun s d hne => ?_) fun p hp => ?_
  · refine .of_gives (hgives.mono fun m' h => ⟨(h root hroot).1 rfl, fun r hr => (h r hr).2⟩)
  · unfold gatherMail at hne
    split_ifs at hne with h
    · obtain ⟨hs, hd, hadds⟩ := h
      have := hadds.lt
      have := shift_lt hroot hs
      exact ⟨hs, hd, by omega⟩
    · exact absurd rfl hne
  · by_cases hpr : p = root
    · subst hpr
      rw [hr]
      exact (gatherOver_root hroot hk _ inPlace (fun h => hs p hp fun _ => h) m).mono
        fun m' h => ⟨fun _ => h.1, h.2⟩
    · obtain ⟨q, hq, hqprev⟩ := hprev p hp hpr
      rw [hqprev, hs p hp fun h => absurd h hpr]
      exact (gatherOver_does hroot hp hpr hk hq (rcount p) inPlace m).mono
        fun m' h => ⟨fun heq => absurd heq hpr, h⟩

theorem scatterChildren_eq (hroot : root < size) (hv : v < size) {k : ℕ} (hk : HasChilds size v k)
    (ptmp : RootedBuf) :
    scatterChildren (α := α) size root v c ptmp
        ((range k).map fun j => rotate size root (v + 2 ^ j)) c =
      (range k).flatMap fun j => [.sendBuf (rotate size root (v + 2 ^ j)) ptmp
        (held size v j * c) (min (2 ^ j) (size - (v + 2 ^ j)) * c)] := by
  have hfrom : ∀ n a, a + n = k → scatterChildren (α := α) size root v c ptmp
      ((range' a n).map fun j => rotate size root (v + 2 ^ j)) (held size v a * c) =
      (range' a n).flatMap fun j => [.sendBuf (rotate size root (v + 2 ^ j)) ptmp
        (held size v j * c) (min (2 ^ j) (size - (v + 2 ^ j)) * c)] := by
    intro n
    induction n with
    | zero =>
      rintro a -
      rfl
    | succ n ih =>
      intro a ha
      have hak : a < k := by omega
      rw [range'_succ, map_cons, flatMap_cons]
      simp only [scatterChildren, held_succ_mul hroot hk hak, ih (a + 1) (by omega)]
      rw [subtreeCount_eq hroot hk hak]
      rfl
  have h := hfrom k 0 (zero_add k)
  rw [held_zero hv, one_mul] at h
  rw [range_eq_range']
  exact h

theorem scatterChildren_does {k : ℕ} (hk : HasChilds size v k) (ptmp : RootedBuf) (x : ℕ → ℕ → α)
    {m : Bufs RootedBuf α} {R : Bufs RootedBuf α → Prop} (hR : R m)
    (h : ∀ i < held size v k * c, m ptmp i = inOrder size root c x (v * c + i)) :
    Does ((range k).flatMap fun j => [.sendBuf (rotate size root (v + 2 ^ j)) ptmp
        (held size v j * c) (min (2 ^ j) (size - (v + 2 ^ j)) * c)])
      (.flat (range k) fun _ => .nothing)
      (.flat (range k) fun j => .one (rotate size root (v + 2 ^ j))
        (slice (inOrder size root c x) ((v + 2 ^ j) * c) (min (2 ^ j) (size - (v + 2 ^ j)) * c)))
      m R := by
  refine (Does.loop (fun _ m' => m' = m) k rfl fun j hj m₁ hm₁ => ?_).mono fun m' hm' => hm' ▸ hR
  subst hm₁
  obtain ⟨h1, h2⟩ := hk.held_eq hj
  have hle : held size v (j + 1) ≤ held size v k := by
    have : 2 ^ (j + 1) ≤ 2 ^ k := Nat.pow_le_pow_right (by decide) hj
    unfold held
    omega
  refine Does.sendBuf (fun i hi => ?_) rfl
  have hlt := mul_le_mul_right c hle
  rw [h2, add_mul] at hlt
  rw [h1, h _ (by omega), add_mul]
  congr 1
  omega

def scatterBlock (root c : ℕ) (m : ℕ → Bufs RootedBuf α) (r i : ℕ) : α := m root .sbuf (r * c + i)

theorem scatterOver_does (hroot : root < size) {p q : ℕ} (hp : p < size) (hne : p ≠ root) {k : ℕ → ℕ}
    (hk : ∀ v, HasChilds size v (k v)) (hq : AddsLow q (shift size root p)) (scount : ℕ)
    (inPlace : Bool) (x : ℕ → ℕ → α) (m : Bufs RootedBuf α) :
    Does (scatterOver (bmtree size root p k (rotate size root q : ℕ)) size p root scount c inPlace)
      (gatherMail size root c k x p) (fun d => gatherMail size root c k x d p) m
      fun m' => (∀ i < c, m' .rbuf i = x p i) ∧ m' .sbuf = m .sbuf := by
  have hv := shift_lt hroot hp
  have hvrank : (p + size - root) % size = shift size root p := (shift_eq_unrotate hroot hp).symm
  have hinn := gatherMail_parent (c := c) hroot hp hq k x
  have hout := gatherMail_children (c := c) hroot hp hk x
  have hblock : ∀ i < c, inOrder size root c x (shift size root p * c + i) = x p i := fun i hi => by
    rw [inOrder_block x hi, rotate_shift hroot hp]
  unfold scatterOver bmtree
  simp only [hvrank, if_neg hne, scatterChildren_eq hroot hv (hk _), Int.toNat_natCast]
  generalize shift size root p = v at *
  have hpos : 1 ≤ held size v (k v) := by
    have := Nat.two_pow_pos (k v)
    unfold held
    omega
  have hc : c ≤ held size v (k v) * c := Nat.le_mul_of_pos_left c hpos
  split_ifs with heven
  · have h1 : Does [.recvBuf (rotate size root q) .tempbuf 0 (c * size), sndrcv .tempbuf 0 c .rbuf 0 c]
        (.one (rotate size root q) (slice (inOrder size root c x) (v * c) (held size v (k v) * c)))
        .nothing m fun m' => (∀ i < held size v (k v) * c, m' .tempbuf i =
          inOrder size root c x (v * c + i)) ∧ (∀ i < c, m' .rbuf i = x p i) ∧ m' .sbuf = m .sbuf := by
      have hle : held size v (k v) * c ≤ c * size := by
        rw [mul_comm c]
        exact mul_le_mul_right c (by unfold held; omega)
      have hrecv : Does [.recvBuf (rotate size root q) .tempbuf 0 (c * size)]
          (.one (rotate size root q) (slice (inOrder size root c x) (v * c) (held size v (k v) * c)))
          .nothing m fun m' => (∀ i < held size v (k v) * c, m' .tempbuf i =
            inOrder size root c x (v * c + i)) ∧ m' .sbuf = m .sbuf := by
        refine Does.recvBuf hle ⟨fun i hi => ?_, funext fun i => ?_⟩
        · rw [Bufs.write_slice_apply, if_pos ⟨rfl, zero_le i, by omega⟩, Nat.sub_zero]
        · rw [Bufs.write_slice_apply, if_neg nofun]
      refine (hrecv.append fun m₁ h₁ => sndrcv_does ⟨fun i hi => ?_, fun i hi => ?_, ?_⟩).congr
        (fun s => append_nil _) fun d => rfl
      · rw [Bufs.copy_apply, if_neg nofun]
        exact h₁.1 i hi
      · rw [Bufs.copy_apply, if_pos ⟨rfl, zero_le i, by omega⟩, zero_add, Nat.sub_zero,
          h₁.1 i (by omega), hblock i hi]
      · funext i
        rw [Bufs.copy_apply, if_neg nofun, h₁.2]
    refine (h1.append fun m₁ h₁ => scatterChildren_does (hk v) .tempbuf x h₁.2 h₁.1).congr ?_ ?_
    · intro s
      rw [← hinn s, Mail.flat_nothing, Mail.append_nothing]
    · exact fun d => hout d
  · have hzero := (hk v).eq_zero_of_odd heven
    rw [hzero] at hinn hout
    rw [held_zero hv, one_mul] at hinn
    have hrecv : Does [.recvBuf (rotate size root q) .rbuf 0 c]
        (.one (rotate size root q) (slice (inOrder size root c x) (v * c) c)) .nothing m
        fun m' => (∀ i < c, m' .rbuf i = x p i) ∧ m' .sbuf = m .sbuf := by
      refine Does.recvBuf (le_rfl) ⟨fun i hi => ?_, funext fun i => ?_⟩
      · rw [Bufs.write_slice_apply, if_pos ⟨rfl, zero_le i, by omega⟩, Nat.sub_zero, hblock i hi]
      · rw [Bufs.write_slice_apply, if_neg nofun]
    exact hrecv.congr hinn hout

theorem scatterOver_root (hroot : root < size) {k : ℕ → ℕ} (hk : ∀ v, HasChilds size v (k v))
    (prev : ℤ) {rcount : ℕ} {inPlace : Bool} (hcount : inPlace = false → rcount = c)
    (m : Bufs RootedBuf α) :
    Does (scatterOver (bmtree size root root k prev) size root root c rcount inPlace)
      (gatherMail size root c k (fun r i => m .sbuf (r * c + i)) root)
      (fun d => gatherMail size root c k (fun r i => m .sbuf (r * c + i)) d root) m fun m' =>
        (inPlace = false → ∀ i < c, m' .rbuf i = m .sbuf (root * c + i)) ∧ m' .sbuf = m .sbuf := by
  have hpos : 0 < size := by omega
  have hshift : shift size root root = 0 := (shift_eq_zero hroot hroot).mpr rfl
  have hvrank : (root + size - root) % size = 0 := by rw [Nat.add_sub_cancel_left, mod_self]
  have hinn := gatherMail_root (c := c) hroot k fun r i => m .sbuf (r * c + i)
  have hout := gatherMail_children (c := c) hroot hroot hk fun r i => m .sbuf (r * c + i)
  rw [hshift] at hout
  have hsize : held size 0 (k 0) * c = size * c := by rw [(hk 0).held_root]
  unfold scatterOver bmtree
  simp only [hvrank, hshift, if_true, scatterChildren_eq hroot hpos (hk 0)]
  have hmail : ∀ d, Mail.nothing d = gatherMail size root c k (fun r i => m .sbuf (r * c + i)) root d :=
    fun d => (hinn d).symm
  -- the blocks in the order of the virtual ranks, and then the root's own
  have hturn (ptmp : RootedBuf) {turn : List (Instr (Bufs RootedBuf α) α)}
      (h : Does turn .nothing .nothing m fun m' =>
        (∀ r < size, ∀ i < c, m' ptmp (unrotate size root r * c + i) = m .sbuf (r * c + i)) ∧
          m' .sbuf = m .sbuf) (hptmp : ptmp ≠ .rbuf) :
      Does (turn ++ (if inPlace then [] else [sndrcv ptmp 0 c .rbuf 0 rcount]) ++
          (range (k 0)).flatMap fun j => [.sendBuf (rotate size root (0 + 2 ^ j)) ptmp
            (held size 0 j * c) (min (2 ^ j) (size - (0 + 2 ^ j)) * c)])
        (gatherMail size root c k (fun r i => m .sbuf (r * c + i)) root)
        (fun d => gatherMail size root c k (fun r i => m .sbuf (r * c + i)) d root) m fun m' =>
          (inPlace = false → ∀ i < c, m' .rbuf i = m .sbuf (root * c + i)) ∧ m' .sbuf = m .sbuf := by
    have hall : ∀ m' : Bufs RootedBuf α, (∀ r < size, ∀ i < c, m' ptmp (unrotate size root r * c + i) =
        m .sbuf (r * c + i)) → ∀ i < held size 0 (k 0) * c, m' ptmp i =
          inOrder size root c (fun r i => m .sbuf (r * c + i)) (0 * c + i) := by
      intro m' h i hi
      rw [hsize] at hi
      have hc : 0 < c := Nat.pos_of_mul_pos_left (lt_of_le_of_lt (zero_le i) hi)
      have hdiv : i / c < size := Nat.div_lt_of_lt_mul (by rwa [mul_comm])
      have hplace := h (rotate size root (i / c)) (rotate_lt hroot) (i % c) (mod_lt _ hc)
      rw [unrotate_rotate hroot hdiv, div_add_mod'] at hplace
      rw [zero_mul, zero_add]
      exact hplace
    have hown (m₁ : Bufs RootedBuf α) (h₁ : (∀ r < size, ∀ i < c,
        m₁ ptmp (unrotate size root r * c + i) = m .sbuf (r * c + i)) ∧ m₁ .sbuf = m .sbuf) :
        Does (if inPlace then [] else [sndrcv ptmp 0 c .rbuf 0 rcount]) .nothing .nothing m₁ fun m' =>
          (∀ i < held size 0 (k 0) * c, m' ptmp i =
            inOrder size root c (fun r i => m .sbuf (r * c + i)) (0 * c + i)) ∧
          (inPlace = false → ∀ i < c, m' .rbuf i = m .sbuf (root * c + i)) ∧ m' .sbuf = m .sbuf := by
      cases inPlace with
      | true => exact Does.nil ⟨hall m₁ h₁.1, nofun, h₁.2⟩
      | false =>
        obtain rfl := hcount rfl
        refine sndrcv_does ⟨fun i hi => ?_, fun _ i hi => ?_, funext fun i => ?_⟩
        · rw [Bufs.copy_apply, if_neg fun h => hptmp h.1]
          exact hall m₁ h₁.1 i hi
        · have hroot' := h₁.1 root hroot i hi
          rw [(unrotate_eq_zero hroot hroot).mpr rfl, zero_mul] at hroot'
          rw [Bufs.copy_apply, if_pos ⟨rfl, zero_le i, by omega⟩, Nat.sub_zero, hroot']
        · rw [Bufs.copy_apply, if_neg nofun, h₁.2]
    refine (((h.append hown).append fun m₂ h₂ => scatterChildren_does (hk 0) ptmp _ h₂.2 h₂.1).congr
      ?_ ?_)
    · intro s
      rw [← hmail s, Mail.flat_nothing]
      rfl
    · exact fun d => hout d
  by_cases hzero : root = 0
  · simp only [if_pos hzero]
    refine hturn .sbuf (Does.nil ⟨fun r hr i hi => ?_, rfl⟩) nofun
    rw [unrotate_eq hroot hr, if_neg (by omega), hzero, Nat.sub_zero]
  · simp only [if_neg hzero]
    refine hturn .tempbuf (Does.work (Does.copyBuf ⟨fun r hr i hi => ?_, funext fun i => ?_⟩)) nofun
    · rw [unrotate_eq hroot hr, mul_comm c root, mul_comm c (size - root), Bufs.copy_apply]
      rcases lt_or_ge r root with hlt | hge
      · have hplace : (r + size - root) * c + i = (size - root) * c + (r * c + i) := by
          rw [← add_assoc, ← add_mul]
          congr 2
          omega
        have hin := block_lt hlt hi
        rw [if_pos hlt, hplace, if_pos ⟨rfl, by omega, by omega⟩, Bufs.copy_apply,
          if_neg nofun, Nat.add_sub_cancel_left, zero_add]
      · have hin := block_lt (show r - root < size - root by omega) hi
        have hplace : root * c + ((r - root) * c + i - 0) = r * c + i := by
          rw [Nat.sub_zero, ← add_assoc, ← add_mul, Nat.add_sub_cancel' hge]
        rw [if_neg (Nat.not_lt_of_le hge), if_neg (by omega), Bufs.copy_apply,
          if_pos ⟨rfl, zero_le _, by omega⟩, hplace]
    · rw [Bufs.copy_apply, if_neg nofun, Bufs.copy_apply, if_neg nofun]

theorem scatter_finishes (hsize : size < 2 ^ 31) (hroot : root < size) {scount rcount : ℕ → ℕ}
    {inPlace : Bool} (hs : scount root = c)
    (hr : ∀ r < size, (r = root → inPlace = false) → rcount r = c) (m : ℕ → Bufs RootedBuf α) :
    ∃ P : ℕ → List (Instr (Bufs RootedBuf α) α),
      (∀ r < size, scatterIntraBinomial size r root (scount r) (rcount r) inPlace = some (P r)) ∧
      Finishes size P m fun m' =>
        (∀ r < size, (r = root → inPlace = false) → ∀ i < c,
          m' r .rbuf i = m root .sbuf (r * c + i)) ∧ ∀ r < size, m' r .sbuf = m r .sbuf := by
  obtain ⟨k, prev, hk, htree, hprev⟩ := exists_inOrderBmtree hsize hroot
  refine ⟨fun r => scatterOver (bmtree size root r k (prev r)) size r root (scount r) (rcount r) inPlace,
    fun r hr => by rw [scatterIntraBinomial, htree r hr]; rfl, ?_⟩
  have hgives := Gives.ordered (n := size) (m := m) (A := fun r =>
      scatterOver (bmtree size root r k (prev r)) size r root (scount r) (rcount r) inPlace)
    (fun p m' => ((p = root → inPlace = false) → ∀ i < c, m' .rbuf i = m root .sbuf (p * c + i)) ∧
      m' .sbuf = m p .sbuf)
    (fun s d => gatherMail size root c k (fun r i => m root .sbuf (r * c + i)) d s) (shift size root)
    (fun s d hne => ?_) fun p hp => ?_
  · exact .of_gives (hgives.mono fun m' h => ⟨fun r hr => (h r hr).1, fun r hr => (h r hr).2⟩)
  · unfold gatherMail at hne
    split_ifs at hne with h
    · obtain ⟨hs, hd, hadds⟩ := h
      exact ⟨hd, hs, hadds.lt⟩
    · exact absurd rfl hne
  · by_cases hpr : p = root
    · subst hpr
      rw [hs]
      exact (scatterOver_root hroot hk _ (fun h => hr p hp fun _ => h) (m p)).mono
        fun m' h => ⟨fun heq => h.1 (heq rfl), h.2⟩
    · obtain ⟨q, hq, hqprev⟩ := hprev p hp hpr
      rw [hqprev, hr p hp fun h => absurd h hpr]
      exact (scatterOver_does hroot hp hpr hk hq (scount p) inPlace _ (m p)).mono
        fun m' h => ⟨fun _ => h.1, h.2⟩

end OpenMPI.Coll
