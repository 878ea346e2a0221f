import OpenMPI.Lib.Bits
import OpenMPI.Proofs.Class.Bitmap
import OpenMPI.Routed.Binomial

/-!
# The routing tables of all daemons are those of one tree

The children of a daemon have one more bit, above all of its own (`mem_peers`).  So the daemons are one tree
(`spanning_peers`), a search from daemon 0 finds each of them under its parent (`binomialTree_of_path`), and the
search that is started again for each daemon below a child visits what is below it (`relativesOf_spec`).
-/

namespace OpenMPI.Routed

open Class Lib List

variable {n dim me : ℕ}

theorem cubeDimLoop_of_le {value : ℕ} (hvalue : value ≤ 2 ^ 30) :
    ∀ fuel dim : ℕ, dim ≤ 30 → 31 ≤ fuel + dim →
      ∃ d, cubeDimLoop value fuel dim (2 ^ dim) = some d ∧ value ≤ 2 ^ d
  | 0, dim, hdim, hfuel => by omega
  | fuel + 1, dim, hdim, hfuel => by
    rw [cubeDimLoop]
    split_ifs with hlt hfits
    · have hne : dim ≠ 30 := by
        rintro rfl
        omega
      rw [Nat.shiftLeft_eq, pow_one, ← pow_succ]
      exact cubeDimLoop_of_le hvalue fuel (dim + 1) (by omega) (by omega)
    · refine absurd ?_ hfits
      have hne : dim ≠ 30 := by
        rintro rfl
        omega
      rw [Nat.shiftLeft_eq, pow_one, ← pow_succ]
      exact Nat.pow_lt_pow_right (by decide) (by omega)
    · exact ⟨dim, rfl, by omega⟩

theorem cubeDimLoop_of_lt {value : ℕ} (hvalue : 2 ^ 30 < value) :
    ∀ fuel dim : ℕ, dim ≤ 30 → cubeDimLoop value fuel dim (2 ^ dim) = none
  | 0, _, _ => rfl
  | fuel + 1, dim, hdim => by
    have hpow : 2 ^ dim ≤ 2 ^ 30 := Nat.pow_le_pow_right (by decide) hdim
    rw [cubeDimLoop, if_pos (by omega), Nat.shiftLeft_eq, pow_one, ← pow_succ]
    split_ifs with hfits
    · have hdim' : dim + 1 < 31 := (Nat.pow_lt_pow_iff_right (by decide)).mp hfits
      exact cubeDimLoop_of_lt hvalue fuel (dim + 1) (by omega)
    · rfl

theorem hibit_lt {value bits : ℕ} (h : value < 2 ^ bits) (i : ℕ) : hibit value bits + 1 ≤ i ↔ value < 2 ^ i := by
  induction bits with
  | zero =>
    rw [pow_zero] at h
    obtain rfl : value = 0 := by omega
    exact iff_of_true (by simp [hibit]) (Nat.two_pow_pos i)
  | succ bits ih =>
    have hbit := and_two_pow_eq_zero value bits
    rw [hibit, Nat.one_shiftLeft]
    by_cases hlow : value < 2 ^ bits
    · rw [Nat.div_eq_of_lt hlow] at hbit
      rw [if_neg (not_not.mpr (hbit.mpr (Nat.zero_mod 2)))]
      exact ih hlow
    · rw [pow_succ] at h
      have hdiv : value / 2 ^ bits = 1 := Nat.div_eq_of_lt_le (by omega) (by omega)
      rw [hdiv] at hbit
      rw [if_pos (mt hbit.mp (by decide))]
      constructor
      · intro hi
        have : 2 ^ (bits + 1) ≤ 2 ^ i := Nat.pow_le_pow_right (by decide) (by omega)
        rw [pow_succ] at this
        omega
      · intro hi
        have : bits < i := (Nat.pow_lt_pow_iff_right (by decide)).mp (by omega : 2 ^ bits < 2 ^ i)
        omega

theorem or_of_lt {v k : ℕ} (h : v < 2 ^ k) : v ||| 1 <<< k = v + 2 ^ k := by
  rw [Nat.one_shiftLeft, or_two_pow]
  rw [Nat.div_eq_of_lt h]

theorem mem_peers (hdim : n ≤ 2 ^ dim) {rank c : ℕ} (hrank : rank < n) :
    c ∈ peers n dim rank ↔ AddsHigh rank c ∧ c < n := by
  have hiff := hibit_lt (lt_of_lt_of_le hrank hdim)
  simp only [peers, mem_filter, mem_map, mem_range, decide_eq_true_eq]
  refine and_congr_left fun hc => ?_
  constructor
  · rintro ⟨i, ⟨-, hi⟩, rfl⟩
    have hlt := (hiff i).mp hi
    exact ⟨i, hlt, or_of_lt hlt⟩
  · rintro ⟨k, hk, rfl⟩
    have hkdim : 2 ^ k < 2 ^ dim := by omega
    exact ⟨k, ⟨(Nat.pow_lt_pow_iff_right (by decide)).mp hkdim, (hiff k).mpr hk⟩, or_of_lt hk⟩

theorem peers_of_ge {rank : ℕ} (hrank : n ≤ rank) : peers n dim rank = [] := by
  rw [peers, filter_eq_nil_iff]
  intro c hc
  obtain ⟨i, -, rfl⟩ := mem_map.mp hc
  have : rank ≤ rank ||| 1 <<< i := Nat.left_le_or
  simp
  omega

theorem peers_sorted (hdim : n ≤ 2 ^ dim) {rank : ℕ} (hrank : rank < n) : (peers n dim rank).Pairwise (· < ·) := by
  have hiff := hibit_lt (lt_of_lt_of_le hrank hdim)
  refine List.Pairwise.filter _ (pairwise_map.mpr ?_)
  refine (List.pairwise_lt_range.filter _).imp_of_mem fun {i j} hi hj hij => ?_
  have hi' := (hiff i).mp (of_decide_eq_true (mem_filter.mp hi).2)
  have hj' := (hiff j).mp (of_decide_eq_true (mem_filter.mp hj).2)
  rw [or_of_lt hi', or_of_lt hj']
  exact Nat.add_lt_add_left (Nat.pow_lt_pow_right (by decide) hij) _

def parentOf (me : ℕ) : Option ℕ := if me = 0 then none else some (me - 2 ^ Nat.log 2 me)

theorem spanning_peers (hdim : n ≤ 2 ^ dim) : Spanning n 0 parentOf (peers n dim) :=
  .of_rel (fun _ _ h => h.lt) (fun _ _ _ hp hq => hp.unique hq) (fun _ _ hc => AddsHigh.of_pos hc)
    (fun _ hp _ => mem_peers hdim hp) fun _ hp => peers_sorted hdim hp

section Search

variable {σ : Type*} {search : ℕ → σ → Option (ℤ × σ)} {found : ℕ → σ → Option σ} {acc acc' : σ}

theorem searchPeers_of_not {l : List ℕ} (h : ∀ peer ∈ l, search peer acc = some (-1, acc)) :
    searchPeers search l acc = some (-1, acc) := by
  induction l with
  | nil => rfl
  | cons peer l ih =>
    rw [searchPeers, h peer mem_cons_self]
    exact ih fun p hp => h p (mem_cons_of_mem _ hp)

theorem searchPeers_of_found {l : List ℕ} {p : ℕ} {peer : ℕ} (hpeer : peer ∈ l)
    (hfound : search peer acc = some ((p : ℤ), acc'))
    (h : ∀ peer ∈ l, search peer acc = some (-1, acc) ∨ search peer acc = some ((p : ℤ), acc')) :
    searchPeers search l acc = some ((p : ℤ), acc') := by
  induction l with
  | nil => cases hpeer
  | cons q l ih =>
    rw [searchPeers]
    rcases h q mem_cons_self with hnot | hq
    · rw [hnot]
      rcases mem_cons.mp hpeer with rfl | hpeer
      · rw [hnot, Option.some.injEq, Prod.mk.injEq] at hfound
        omega
      · exact ih hpeer fun r hr => h r (mem_cons_of_mem _ hr)
    · rw [hq, Option.bind_eq_bind, Option.bind_some]
      exact if_pos (Int.natCast_nonneg p)

variable (hdim : n ≤ 2 ^ dim)
include hdim

theorem le_of_mem_peers {rank peer fuel : ℕ} (hrank : rank < n) (hpeer : peer ∈ peers n dim rank)
    (hfuel : n ≤ rank + (fuel + 1)) : peer < n ∧ n ≤ peer + fuel := by
  obtain ⟨hadds, hlt⟩ := (mem_peers hdim hrank).mp hpeer
  have := hadds.lt
  omega

theorem binomialTree_of_not {fuel rank parent : ℕ} (hrank : rank < n) (hfuel : n ≤ rank + fuel)
    (h : ¬∃ l, Path (peers n dim) rank l me) :
    binomialTree (peers n dim) found me fuel rank parent acc = some (-1, acc) := by
  induction fuel generalizing rank parent with
  | zero => omega
  | succ fuel ih =>
    have hne : me ≠ rank := by
      rintro rfl
      exact h ⟨[], .nil me⟩
    rw [binomialTree, if_neg hne]
    refine searchPeers_of_not fun peer hpeer => ?_
    obtain ⟨hlt, hfuel'⟩ := le_of_mem_peers hdim hrank hpeer hfuel
    exact ih hlt hfuel' fun ⟨l, hl⟩ => h ⟨peer :: l, .cons hpeer hl⟩

theorem binomialTree_of_path {fuel rank parent p : ℕ} {l : List ℕ} (hrank : rank < n) (hfuel : n ≤ rank + fuel)
    (hacc : (peers n dim me).foldlM (fun acc peer => found peer acc) acc = some acc')
    (hp : me ≠ rank → me ∈ peers n dim p ∧ p < n) (hpath : Path (peers n dim) rank l me) :
    binomialTree (peers n dim) found me fuel rank parent acc =
      some (((if me = rank then parent else p : ℕ) : ℤ), acc') := by
  induction fuel generalizing rank parent l with
  | zero => omega
  | succ fuel ih =>
    rw [binomialTree]
    split_ifs with heq
    · subst heq
      rw [hacc]
      rfl
    · obtain ⟨hmem, hpn⟩ := hp heq
      have hfound {peer : ℕ} {l : List ℕ} (hpeer : peer ∈ peers n dim rank) (hl : Path (peers n dim) peer l me) :
          binomialTree (peers n dim) found me fuel peer rank acc = some ((p : ℤ), acc') := by
        obtain ⟨hlt, hfuel'⟩ := le_of_mem_peers hdim hrank hpeer hfuel
        rw [ih hlt hfuel' (fun _ => hp heq) hl]
        split_ifs with hpeq
        · subst hpeq
          rw [((mem_peers hdim hrank).mp hpeer).1.unique ((mem_peers hdim hpn).mp hmem).1]
        · rfl
      cases hpath with
      | nil => exact absurd rfl heq
      | @cons _ peer _ l hpeer hl =>
        refine searchPeers_of_found hpeer (hfound hpeer hl) fun q hq => ?_
        by_cases hq' : ∃ l, Path (peers n dim) q l me
        · obtain ⟨l, hl⟩ := hq'
          exact .inr (hfound hq hl)
        · obtain ⟨hlt, hfuel'⟩ := le_of_mem_peers hdim hrank hq hfuel
          exact .inl (binomialTree_of_not hdim hlt hfuel' hq')

theorem binomialTree_root {fuel : ℕ} (hme : me < n) (hfuel : n ≤ fuel)
    (hacc : (peers n dim me).foldlM (fun acc peer => found peer acc) acc = some acc') :
    binomialTree (peers n dim) found me fuel 0 0 acc = some ((((parentOf me).getD 0 : ℕ) : ℤ), acc') := by
  have hspan := spanning_peers hdim
  have hroot : 0 < n := by omega
  obtain ⟨l, hl, -⟩ := hspan.existsUnique_path hroot hme
  have hp (hne : me ≠ 0) : me ∈ peers n dim (me - 2 ^ Nat.log 2 me) ∧ me - 2 ^ Nat.log 2 me < n :=
    have hlt : me - 2 ^ Nat.log 2 me < n := lt_of_le_of_lt (Nat.sub_le _ _) hme
    ⟨(mem_peers hdim hlt).mpr ⟨AddsHigh.of_pos hne, hme⟩, hlt⟩
  rw [binomialTree_of_path hdim hroot (by omega) hacc hp hl, parentOf]
  split_ifs <;> rfl

end Search

section Relatives

theorem foldlM_relatives {depth fuel : ℕ} {l : List ℕ}
    (h : ∀ peer ∈ l, ∀ bm : Bitmap, 0 < bm.length → ∃ bm', relativesOf (peers n dim) depth fuel peer bm = some bm' ∧
      0 < bm'.length ∧ ∀ v, bm'.isSetBit v = true ↔
        bm.isSetBit v = true ∨ ∃ m ≠ [], Path (peers n dim) peer m v) (bm : Bitmap) (hpos : 0 < bm.length) :
    ∃ bm', l.foldlM (fun bm peer => relativesOf (peers n dim) depth fuel peer (bm.setBit peer)) bm = some bm' ∧
      0 < bm'.length ∧ ∀ v, bm'.isSetBit v = true ↔
        bm.isSetBit v = true ∨ ∃ peer ∈ l, ∃ m, Path (peers n dim) peer m v := by
  induction l generalizing bm with
  | nil => exact ⟨bm, rfl, hpos, by simp⟩
  | cons peer l ih =>
    have hset : 0 < (bm.setBit peer).length := lt_of_lt_of_le hpos Bitmap.length_le_setBit
    obtain ⟨bm', hbm', hpos', hiff'⟩ := h peer mem_cons_self _ hset
    obtain ⟨bm'', hbm'', hpos'', hiff''⟩ := ih (fun q hq => h q (mem_cons_of_mem _ hq)) bm' hpos'
    refine ⟨bm'', ?_, hpos'', fun v => ?_⟩
    · rw [foldlM_cons, hbm']
      exact hbm''
    · have hself : (∃ m, Path (peers n dim) peer m v) ↔ v = peer ∨ ∃ m ≠ [], Path (peers n dim) peer m v := by
        constructor
        · rintro ⟨m, hm⟩
          rcases eq_or_ne m [] with rfl | hne
          · cases hm
            exact .inl rfl
          · exact .inr ⟨m, hne, hm⟩
        · rintro (rfl | ⟨m, -, hm⟩)
          · exact ⟨[], .nil v⟩
          · exact ⟨m, hm⟩
      rw [hiff'', hiff', Bitmap.isSetBit_setBit hpos, exists_mem_cons_iff, hself, or_comm (a := v = peer)]
      simp only [or_assoc]

theorem relativesOf_spec (hdim : n ≤ 2 ^ dim) {depth fuel : ℕ} (hdepth : n ≤ depth) (hme : me < n) (hfuel : n ≤ me + fuel) (bm : Bitmap)
    (hpos : 0 < bm.length) : ∃ bm', relativesOf (peers n dim) depth fuel me bm = some bm' ∧ 0 < bm'.length ∧
      ∀ v, bm'.isSetBit v = true ↔ bm.isSetBit v = true ∨ ∃ m ≠ [], Path (peers n dim) me m v := by
  induction fuel generalizing me bm with
  | zero => omega
  | succ fuel ih =>
    obtain ⟨bm', hfold, hpos', hiff⟩ := foldlM_relatives (l := peers n dim me) (fun peer hpeer bm hbm =>
      have hlt := le_of_mem_peers hdim hme hpeer hfuel
      ih hlt.1 hlt.2 bm hbm) bm hpos
    refine ⟨bm', ?_, hpos', fun v => ?_⟩
    · rw [relativesOf, binomialTree_root hdim hme hdepth hfold]
      rfl
    · rw [hiff]
      refine or_congr_right ⟨?_, ?_⟩
      · rintro ⟨peer, hpeer, m, hm⟩
        exact ⟨peer :: m, cons_ne_nil _ _, .cons hpeer hm⟩
      · rintro ⟨m, hne, hm⟩
        obtain ⟨peer, hpeer, m', -, hm'⟩ := hm.ne_nil_iff.mp hne
        exact ⟨peer, hpeer, m', hm'⟩

end Relatives

theorem foldlM_recordChild (hdim : n ≤ 2 ^ dim) {l : List ℕ} (hl : ∀ peer ∈ l, peer < n) (count : ℕ)
    (childrn : List RoutedTree) : ∃ added : List RoutedTree,
      l.foldlM (fun acc peer => recordChild n (peers n dim) peer acc) (count, childrn) =
        some (count + added.length, childrn ++ added) ∧
      added.map RoutedTree.vpid = l ∧ ∀ child ∈ added, ∀ v, child.relatives.isSetBit v = true ↔
        ∃ m ≠ [], Path (peers n dim) child.vpid m v := by
  induction l generalizing count childrn with
  | nil => exact ⟨[], by simp, rfl, by simp⟩
  | cons peer l ih =>
    have hpeer := hl peer mem_cons_self
    obtain ⟨bm, hbm, -, hiff⟩ := relativesOf_spec hdim (Nat.le_succ n) hpeer (show n ≤ peer + (n + 1) by omega)
      (Bitmap.init n) (Bitmap.length_init_pos (Nat.zero_lt_of_lt hpeer))
    obtain ⟨added, hfold, hvpid, hchild⟩ := ih (fun q hq => hl q (mem_cons_of_mem _ hq)) (count + 1)
      (childrn ++ [⟨peer, bm⟩])
    refine ⟨⟨peer, bm⟩ :: added, ?_, by rw [map_cons, hvpid], fun child hc v => ?_⟩
    · rw [foldlM_cons, recordChild, hbm, length_cons, add_comm added.length, ← add_assoc,
        append_cons]
      exact hfold
    · rcases mem_cons.mp hc with rfl | hc
      · rw [hiff, Bitmap.isSetBit_init]
        simp
      · exact hchild child hc v

theorem updateRoutingTree_spec (hdim : n ≤ 2 ^ dim) (hcube : cubeDim n = some dim) (hme : me < n) :
    ∃ t, updateRoutingTree n me = some t ∧ t.numChildren = t.myChildren.length ∧ t.parent? me = parentOf me ∧
      t.children = peers n dim me ∧ ∀ child ∈ t.myChildren, ∀ v, child.relatives.isSetBit v = true ↔
        ∃ m ≠ [], Path (peers n dim) child.vpid m v := by
  obtain ⟨added, hfold, hvpid, hchild⟩ :=
    foldlM_recordChild hdim (fun peer hpeer => ((mem_peers hdim hme).mp hpeer).2) 0 []
  have htree := binomialTree_root hdim hme (Nat.le_succ n) hfold
  rw [zero_add, nil_append] at htree
  refine ⟨⟨((parentOf me).getD 0 : ℕ), added.length, added⟩, ?_, rfl, ?_, hvpid, hchild⟩
  · rw [updateRoutingTree, hcube, Option.bind_eq_bind, Option.bind_some, htree]
    rfl
  · rw [Table.parent?, parentOf]
    split_ifs with hzero hself hself
    · rfl
    · subst hzero
      exact absurd rfl hself
    · have hlt := (AddsHigh.of_pos hzero).lt
      rw [Option.getD_some, Int.natCast_inj] at hself
      omega
    · rfl

theorem procIsBelow_iff {t : Table} {child : RoutedTree} (hchild : child ∈ t.myChildren)
    (h : ∀ child ∈ t.myChildren, ∀ v, child.relatives.isSetBit v = true ↔
      ∃ m ≠ [], Path (peers n dim) child.vpid m v) (v : ℕ) :
    t.procIsBelow child.vpid v = true ↔ ∃ m, Path (peers n dim) child.vpid m v := by
  rw [Table.procIsBelow]
  split_ifs with hself
  · exact iff_of_true rfl ⟨[], hself ▸ .nil _⟩
  · cases hfind : t.myChildren.find? fun c => decide (c.vpid = child.vpid) with
    | none => exact absurd (find?_eq_none.mp hfind child hchild) (by simp)
    | some c =>
      have heq : c.vpid = child.vpid := by simpa using find?_some hfind
      dsimp only
      rw [h c (mem_of_find?_eq_some hfind), heq]
      constructor
      · rintro ⟨m, -, hm⟩
        exact ⟨m, hm⟩
      · rintro ⟨m, hm⟩
        refine ⟨m, ?_, hm⟩
        rintro rfl
        cases hm
        exact hself rfl

theorem routes_of_le (hn : n ≤ 2 ^ 30) : ∃ tables, Routes n tables := by
  obtain ⟨dim, hcube, hdim⟩ := cubeDimLoop_of_le hn 32 0 (by omega) (by omega)
  have hspec (me : ℕ) : ∃ t : Table, t.children = peers n dim me ∧ (me < n → updateRoutingTree n me = some t ∧
      t.numChildren = t.myChildren.length ∧ t.parent? me = parentOf me ∧
      ∀ child ∈ t.myChildren, ∀ v, child.relatives.isSetBit v = true ↔
        ∃ m ≠ [], Path (peers n dim) child.vpid m v) := by
    by_cases hme : me < n
    · obtain ⟨t, hupdate, hcount, hparent, hchildren, hrel⟩ := updateRoutingTree_spec hdim hcube hme
      exact ⟨t, hchildren, fun _ => ⟨hupdate, hcount, hparent, hrel⟩⟩
    · refine ⟨⟨0, 0, []⟩, ?_, fun hlt => absurd hlt hme⟩
      rw [peers_of_ge (by omega)]
      rfl
  choose tables hchildren hrest using hspec
  have hkids : (fun me => (tables me).children) = peers n dim := funext hchildren
  have hspan := spanning_peers hdim
  refine ⟨tables, fun me hme => (hrest me hme).1, fun me hme => (hrest me hme).2.1, ?_, ?_, ?_, ?_, ?_⟩ <;>
    rw [hkids]
  · exact hspan.congr (fun me hme => (hrest me hme).2.2.1) fun _ _ => rfl
  · exact fun v hv => hspan.existsUnique_path (by omega) hv
  · exact fun me hme => (hrest me hme).2.2.2
  · exact fun me hme child hchild => procIsBelow_iff hchild (hrest me hme).2.2.2
  · exact fun hpos fuel hfuel => hspan.relay_perm hpos hfuel

theorem not_routes_of_lt (hn : 2 ^ 30 < n) : ¬∃ tables, Routes n tables := by
  rintro ⟨tables, h⟩
  have hupdate := h.update 0 (by omega)
  rw [updateRoutingTree, cubeDim, ← pow_zero 2, cubeDimLoop_of_lt hn 32 0 (by omega)] at hupdate
  cases hupdate

/-- The tables of all daemons are those of one tree, which reaches each of them once, if and only if the dimension
of the cube can be computed. -/
theorem routes_iff (n : ℕ) : (∃ tables, Routes n tables) ↔ n ≤ 2 ^ 30 :=
  ⟨fun h => Nat.le_of_not_lt fun hn => not_routes_of_lt hn h, routes_of_le⟩

theorem not_routes_large : ¬∃ tables, Routes (2 ^ 30 + 1) tables := not_routes_of_lt (by decide)

end OpenMPI.Routed
