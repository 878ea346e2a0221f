import OpenMPI.Lib.Process
import OpenMPI.Lib.Spanning

/-!
# Messages along a spanning tree and around a ring

Processes that first hear of their parent and then speak to their children do not wait for each other
in a circle, and no more do processes that first hear of their children.  Processes in a ring that all
first speak and then listen do not wait for each other either.
-/

namespace OpenMPI.Lib

open List Nat

variable {σ α : Type*} {n root : ℕ} {parent : ℕ → Option ℕ} {children : ℕ → List ℕ}
  {A : ℕ → List (Instr σ α)} {m : ℕ → σ}

theorem Gives.down (h : Spanning n root parent children) (msgs : ℕ → List (List α))
    (post : ℕ → σ → Prop)
    (hA : ∀ p < n, Does (A p) (fun s => if parent p = some s then msgs p else [])
      (fun d => if d ∈ children p then msgs d else []) (m p) (post p)) :
    Gives n A m fun m' => ∀ p < n, post p (m' p) := by
  obtain ⟨depth, hdepth⟩ := h.exists_depth
  refine Gives.ordered post (fun s d => if s < n ∧ d ∈ children s then msgs d else []) depth
    (fun s d hne => ?_) fun p hp => (hA p hp).congr (fun s => ?_) fun d => ?_
  · split_ifs at hne with hsd
    · exact ⟨hsd.1, h.children_lt s hsd.1 d hsd.2, hdepth s hsd.1 d hsd.2⟩
    · exact absurd rfl hne
  · refine if_congr ⟨fun hps => ?_, fun hsp => (h.mem_children s hsp.1 p hp).mp hsp.2⟩ rfl rfl
    have hs := h.parent_lt p hp s hps
    exact ⟨hs, (h.mem_children s hs p hp).mpr hps⟩
  · exact if_congr (and_iff_right hp).symm rfl rfl

theorem eq_rotate_iff {k p s : ℕ} (hk : k < n) (hp : p < n) :
    (s < n ∧ p = rotate n k s) ↔ s = unrotate n k p := by
  constructor
  · rintro ⟨hs, rfl⟩
    exact (unrotate_rotate hk hs).symm
  · rintro rfl
    exact ⟨unrotate_lt hk, (rotate_unrotate hk hp).symm⟩

theorem Gives.around {B : ℕ → List (Instr σ α)} {k : ℕ} (hk : k < n) (msg : ℕ → List α)
    (post : ℕ → σ → Prop)
    (hA : ∀ p < n, Exec (A p) (m p) .nothing (m p) (.one (Lib.rotate n k p) (msg p)))
    (hB : ∀ p < n, Does (B p) (.one (unrotate n k p) (msg (unrotate n k p))) .nothing (m p) (post p)) :
    Gives n (fun p => A p ++ B p) m fun m' => ∀ p < n, post p (m' p) := by
  refine Gives.round m post (fun s d => if s < n ∧ d = Lib.rotate n k s then [msg s] else [])
    (fun s d hne => ?_) (fun p hp => (hA p hp).congr (fun _ => rfl) fun d => ?_) fun p hp =>
    (hB p hp).congr (fun s => ?_) fun _ => rfl
  · split_ifs at hne with hsd
    · obtain ⟨hs, rfl⟩ := hsd
      exact ⟨hs, rotate_lt hk⟩
    · exact absurd rfl hne
  · exact if_congr (and_iff_right hp).symm rfl rfl
  · rw [Mail.one_apply msg]
    exact if_congr (eq_rotate_iff hk hp).symm rfl rfl

/-- The `k` nodes up to `p` on the circle, in their order. -/
def trail (n : ℕ) : (p k : ℕ) → List ℕ
  | _, 0 => []
  | p, k + 1 => trail n (unrotate n 1 p) k ++ [p]

theorem unrotate_unrotate {j p : ℕ} (hj : j < n) (hp : p < n) :
    unrotate n j (unrotate n 1 p) = unrotate n (j + 1) p := by
  have hn : 1 < n ∨ n = 1 := by omega
  rcases hn with hn | rfl
  · unfold unrotate
    rw [Nat.add_sub_assoc (le_of_lt hj), mod_add_mod,
      show p + n - 1 + (n - j) = p + n - (j + 1) + n by omega, add_mod_right]
  · simp [unrotate, mod_one]

theorem mem_trail {p k : ℕ} (hp : p < n) (hk : k ≤ n) (r : ℕ) :
    r ∈ trail n p k ↔ ∃ j < k, r = unrotate n j p := by
  induction k generalizing p with
  | zero => simp [trail]
  | succ k ih =>
    have hlt : unrotate n 1 p < n := mod_lt _ (by omega)
    have hself : unrotate n 0 p = p := by
      rw [unrotate, Nat.sub_zero, add_mod_right, mod_eq_of_lt hp]
    rw [trail, mem_append, mem_singleton, ih hlt (le_of_succ_le hk)]
    constructor
    · rintro (⟨j, hj, rfl⟩ | rfl)
      · exact ⟨j + 1, by omega, unrotate_unrotate (by omega) hp⟩
      · exact ⟨0, k.succ_pos, hself.symm⟩
    · rintro ⟨j, hj, rfl⟩
      cases j with
      | zero => exact .inr hself
      | succ j => exact .inl ⟨j, by omega, (unrotate_unrotate (by omega) hp).symm⟩

theorem length_trail (n p k : ℕ) : (trail n p k).length = k := by
  induction k generalizing p with
  | zero => rfl
  | succ k ih => rw [trail, length_append, ih, length_singleton]

theorem nodup_trail {p k : ℕ} (hp : p < n) (hk : k ≤ n) : (trail n p k).Nodup := by
  induction k generalizing p with
  | zero => exact nodup_nil
  | succ k ih =>
    have hlt : unrotate n 1 p < n := mod_lt _ (by omega)
    rw [trail, nodup_append]
    refine ⟨ih hlt (le_of_succ_le hk), nodup_singleton p, fun r hr s hs => ?_⟩
    obtain rfl := mem_singleton.mp hs
    rintro rfl
    obtain ⟨j, hj, heq⟩ := (mem_trail hlt (le_of_succ_le hk) _).mp hr
    rw [unrotate_unrotate (by omega) hp, unrotate_eq (by omega) hp] at heq
    split_ifs at heq <;> omega

theorem trail_perm {p : ℕ} (hp : p < n) : (trail n p n).Perm (range n) := by
  refine (subperm_of_subset (nodup_trail hp (le_rfl)) fun r hr => ?_).perm_of_length_le ?_
  · obtain ⟨j, hj, rfl⟩ := (mem_trail hp (le_rfl) r).mp hr
    exact mem_range.mpr (unrotate_lt hj)
  · rw [length_trail, length_range]

end OpenMPI.Lib
