import OpenMPI.Coll.Topo
import OpenMPI.Lib.Spanning

/-!
# The answers of the ranks as one tree

`Consistent` says that the trees which the ranks build are one spanning tree.  It is enough that they
are so with the root moved to rank 0 (`consistent_of_shifted`).
-/

namespace OpenMPI.Coll

open Lib

/-- Every rank builds its tree, together they are one spanning tree, and no rank has more children than
there are places for. -/
def Consistent (size root : ℕ) (build : ℕ → Option CollTree) : Prop :=
  ∃ t : ℕ → CollTree, (∀ r < size, build r = some (t r)) ∧
    Spanning size root (fun r => (t r).parent? r) (fun r => (t r).next) ∧
    ∀ r < size, (t r).next.length ≤ maxTreeFanout

variable {size root rank : ℕ}

theorem shift_eq_unrotate (hroot : root < size) (hrank : rank < size) :
    shift size root rank = unrotate size root rank := by
  rw [unrotate_eq hroot hrank, shift]

theorem shift_lt (hroot : root < size) (hrank : rank < size) : shift size root rank < size := by
  rw [shift_eq_unrotate hroot hrank]
  exact unrotate_lt hroot

theorem shift_eq_zero (hroot : root < size) (hrank : rank < size) :
    shift size root rank = 0 ↔ rank = root := by
  rw [shift_eq_unrotate hroot hrank, unrotate_eq_zero hroot hrank]

theorem rotate_shift (hroot : root < size) (hrank : rank < size) :
    rotate size root (shift size root rank) = rank := by
  rw [shift_eq_unrotate hroot hrank, rotate_unrotate hroot hrank]

/-- The tree that `rank` holds, where with the root at 0 its parent is `parent` and its children are
`children`. -/
def IsShifted (size root rank : ℕ) (parent : Option ℕ) (children : List ℕ) (t : CollTree) : Prop :=
  t.parent? rank = parent.map (rotate size root) ∧ t.next = children.map (rotate size root)

theorem IsShifted.of_prev {children : List ℕ} {t : CollTree} {p : ℕ} (hroot : root < size)
    (hrank : rank < size) (hp : p < shift size root rank) (hprev : t.prev = rotate size root p)
    (hnext : t.next = children.map (rotate size root)) :
    IsShifted size root rank (some p) children t := by
  refine ⟨?_, hnext⟩
  have hlt := shift_lt hroot hrank
  have hne : rotate size root p ≠ rank := fun heq => by
    rw [← rotate_shift hroot hrank] at heq
    exact absurd (rotate_injOn hroot (by omega) hlt heq) (by omega)
  unfold CollTree.parent?
  rw [hprev, if_neg (by omega)]
  rfl

theorem IsShifted.of_root {children : List ℕ} {t : CollTree} (hprev : t.prev = -1 ∨ t.prev = rank)
    (hnext : t.next = children.map (rotate size root)) :
    IsShifted size root rank none children t := by
  refine ⟨?_, hnext⟩
  unfold CollTree.parent?
  rw [if_pos (by omega)]
  rfl

theorem consistent_one {build : ℕ → Option CollTree}
    (h : build 0 = some { root := 0, prev := -1, next := [] }) :
    Consistent 1 0 build := by
  refine ⟨fun _ => { root := 0, prev := -1, next := [] }, fun r hr => ?_, ?_, fun r _ => Nat.zero_le _⟩
  · obtain rfl : r = 0 := by omega
    exact h
  · refine .of_lt (fun p _ c hc => nomatch hc) (fun p _ c _ => iff_of_false nofun nofun)
      (fun p _ => List.nodup_nil) (fun c _ p hp => nomatch hp) fun c hc => ?_
    exact iff_of_true rfl (by omega)

theorem consistent_of_shifted {build : ℕ → Option CollTree} {parent : ℕ → Option ℕ}
    {children : ℕ → List ℕ} (h : Spanning size 0 parent children) (hroot : root < size)
    (hlength : ∀ s < size, (children s).length ≤ maxTreeFanout)
    (hbuild : ∀ r < size, ∃ t, build r = some t ∧ IsShifted size root r
      (parent (shift size root r)) (children (shift size root r)) t) :
    Consistent size root build := by
  choose! t ht using hbuild
  refine ⟨t, fun r hr => (ht r hr).1, ?_, fun r hr => ?_⟩
  · refine (h.rotate hroot).congr (fun r hr => ?_) fun r hr => ?_
    · rw [(ht r hr).2.1, shift_eq_unrotate hroot hr]
    · rw [(ht r hr).2.2, shift_eq_unrotate hroot hr]
  · rw [(ht r hr).2.2, List.length_map]
    exact hlength _ (shift_lt hroot hr)

end OpenMPI.Coll
