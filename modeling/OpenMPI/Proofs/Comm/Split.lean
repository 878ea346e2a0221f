import OpenMPI.Proofs.Group.Sparse
import OpenMPI.Proofs.Topo.Cart

/-!
# The split of a communicator

Every process sorts the ranks of its colour by `rankkeycompare`, which is a linear order on ranks and keys, so all members of
a colour come to the same list (`splitRanks_before`), and `ompi_comm_set` makes the same group of it
(`commSplit_partitions`).
-/

namespace OpenMPI.Topo

open List

open Groups (undefined Group Includes Wf inclPlist inclPlist_spec)

/-- The local group of the communicator that `ompi_comm_split` makes of an intra-communicator, for the process with the
colour `color`; `addr` is where it is. -/
def splitGroup (addr : ℕ) (group : Group) (results : List (ℤ × ℤ)) (color : ℤ) : Option Group :=
  if color = undefined then none else inclPlist addr group (splitRanks results color)

def Before (f : ℕ → ℤ × ℤ) (p q : ℕ) : Prop := (f p).2 < (f q).2 ∨ (f p).2 = (f q).2 ∧ p < q

theorem splitRanks_before (n : ℕ) (f : ℕ → ℤ × ℤ) (color : ℤ) :
    (splitRanks ((range n).map f) color).Pairwise (Before f) := by
  rw [splitRanks, members_eq, pairwise_map]
  set members := ((range n).filter fun r => (f r).1 = color).map fun r => (r, (f r).2) with hmembers
  have hmem : ∀ x ∈ members.insertionSort fun a b => rankkeycompare a b ≤ 0, x.2 = (f x.1).2 := by
    intro x hx
    rw [mem_insertionSort, hmembers, mem_map] at hx
    obtain ⟨r, -, rfl⟩ := hx
    rfl
  have hnodup : (members.insertionSort fun a b => rankkeycompare a b ≤ 0).Nodup := by
    rw [(perm_insertionSort _ _).nodup_iff, hmembers]
    exact (List.nodup_range.filter _).map fun q r heq => (Prod.mk.inj heq).1
  have hle := pairwise_insertionSort (fun a b => rankkeycompare a b ≤ 0) members
  refine (hle.and hnodup).imp_of_mem ?_
  rintro ⟨a, x⟩ ⟨b, y⟩ ha hb ⟨hcmp, hne⟩
  obtain rfl : x = (f a).2 := hmem _ ha
  obtain rfl : y = (f b).2 := hmem _ hb
  rcases rankkeycompare_le.1 hcmp with hlt | ⟨heq, hab⟩
  · exact .inl hlt
  · refine .inr ⟨heq, lt_of_le_of_ne hab ?_⟩
    rintro rfl
    exact hne rfl

theorem splitRanks_nodup (n : ℕ) (f : ℕ → ℤ × ℤ) (color : ℤ) : (splitRanks ((range n).map f) color).Nodup := by
  refine (splitRanks_before n f color).imp ?_
  rintro a b hab rfl
  rcases hab with h | ⟨-, h⟩
  · exact lt_irrefl _ h
  · exact lt_irrefl _ h

structure Views (n : ℕ) (group : ℕ → Group) : Prop where
  wf : ∀ r < n, Wf (group r)
  procCount : ∀ r < n, (group r).procCount = n
  myRank : ∀ r < n, (group r).myRank = r
  same : ∀ q < n, ∀ r < n, ∀ i < n, (group q).peerLookup i = (group r).peerLookup i

/-- What each process gets: those without a colour nothing, and the members of a colour a group of exactly their ranks in
order, which is the same for all of them. -/
structure Partitioned (n : ℕ) (group : ℕ → Group) (f : ℕ → ℤ × ℤ) (new : ℕ → Option Group) : Prop where
  without : ∀ r < n, (f r).1 = undefined → new r = none
  member : ∀ r < n, (f r).1 ≠ undefined → ∃ g ranks, new r = some g ∧ Includes (group r) g ranks ∧
    (∀ q, q ∈ ranks ↔ q < n ∧ (f q).1 = (f r).1) ∧ ranks.Pairwise (Before f)
  same : ∀ q < n, ∀ r < n, (f q).1 = (f r).1 → ∀ g h, new q = some g → new r = some h →
    g.procCount = h.procCount ∧ ∀ i < g.procCount, g.peerLookup i = h.peerLookup i

/-- A split gives the processes of each colour, and only them, the group of their ranks in the order of keys and ranks. -/
theorem splitGroup_partitions {n : ℕ} {group : ℕ → Group} (hviews : Views n group) {addr : ℕ → ℕ}
    (hfresh : ∀ r < n, addr r ≠ 0 ∧ addr r ∉ (group r).addrs) (f : ℕ → ℤ × ℤ) :
    Partitioned n group f fun r => splitGroup (addr r) (group r) ((List.range n).map f) (f r).1 := by
  have hnew : ∀ r < n, (f r).1 ≠ undefined → ∃ g,
      splitGroup (addr r) (group r) ((List.range n).map f) (f r).1 = some g ∧
        Includes (group r) g (splitRanks ((List.range n).map f) (f r).1) := by
    intro r hr hcolor
    have hself : r ∈ splitRanks ((List.range n).map f) (f r).1 := mem_splitRanks.2 ⟨hr, rfl⟩
    rw [splitGroup, if_neg hcolor]
    have hlt : ∀ q ∈ splitRanks ((List.range n).map f) (f r).1, q < (group r).procCount := by
      intro q hq
      rw [hviews.procCount r hr]
      exact (mem_splitRanks.1 hq).1
    exact inclPlist_spec (hviews.wf r hr) (ne_nil_of_mem hself) (splitRanks_nodup n f _) hlt (hfresh r hr).1
      (hfresh r hr).2
  refine ⟨fun r _ hcolor => if_pos hcolor, fun r hr hcolor => ?_, fun q hq r hr hcolor g h hg hh => ?_⟩
  · obtain ⟨g, hg, hincludes⟩ := hnew r hr hcolor
    exact ⟨g, _, hg, hincludes, fun q => mem_splitRanks, splitRanks_before n f _⟩
  · have hdefined : (f q).1 ≠ undefined := by
      intro heq
      rw [splitGroup, if_pos heq] at hg
      cases hg
    obtain ⟨g', hg', hincludes⟩ := hnew q hq hdefined
    obtain ⟨h', hh', hincludes'⟩ := hnew r hr (hcolor ▸ hdefined)
    obtain rfl := Option.some.inj (hg'.symm.trans hg)
    obtain rfl := Option.some.inj (hh'.symm.trans hh)
    rw [← hcolor] at hincludes'
    refine ⟨hincludes.count.trans hincludes'.count.symm, fun i hi => ?_⟩
    rw [hincludes.count] at hi
    rw [hincludes.procs i hi, hincludes'.procs i hi]
    exact hviews.same q hq r hr _ (mem_splitRanks.1 (getElem_mem hi)).1

def four (r : ℕ) : Group := .dense 1 [10, 11, 12, 13] r

theorem views_four : Views 4 four := by
  have hwf : ∀ r < 4, Wf (four r) := by
    intro r hr
    have hbuilt : Groups.Built (four r) := .dense (by decide) (by decide) (.inr ⟨r, hr, rfl⟩)
    exact hbuilt.wf
  exact ⟨hwf, fun r _ => rfl, fun r _ => rfl, fun q _ r _ i _ => rfl⟩

/-- Two colours with equal keys in one of them, and a process without a colour. -/
theorem splitGroup_partitions_four : Partitioned 4 four (fun r => (if r = 2 then undefined else r % 2, -r / 3))
    fun r => splitGroup 2 (four r) ((List.range 4).map fun r => (if r = 2 then undefined else r % 2, -r / 3))
      (if r = 2 then undefined else r % 2) :=
  splitGroup_partitions views_four (fun r _ => ⟨by decide, by simp [four, Group.addrs]⟩) _

end OpenMPI.Topo
