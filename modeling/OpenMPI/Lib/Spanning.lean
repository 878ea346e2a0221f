import Mathlib.Data.List.Nodup
import Mathlib.Data.List.Perm.Subperm
import Mathlib.Data.Nat.Find

/-!
# Spanning trees told by their nodes

Each node of `0, …, n - 1` tells its parent and its children.  The answers are one spanning tree
(`Spanning`) if they fit together and a measure goes down from each node to its parent
(`Spanning.of_measure`).  Turning the nodes around keeps a spanning tree (`Spanning.rotate`).
-/

namespace OpenMPI.Lib

open List Nat

/-- The parents and the children are those of one tree over the nodes below `n`. -/
structure Spanning (n root : ℕ) (parent : ℕ → Option ℕ) (children : ℕ → List ℕ) : Prop where
  children_lt : ∀ p < n, ∀ c ∈ children p, c < n
  mem_children : ∀ p < n, ∀ c < n, c ∈ children p ↔ parent c = some p
  nodup : ∀ p < n, (children p).Nodup
  parent_lt : ∀ c < n, ∀ p, parent c = some p → p < n
  parent_eq_none : ∀ c < n, parent c = none ↔ c = root
  reachable : ∀ c < n, Relation.ReflTransGen (fun p c => p < n ∧ c ∈ children p) root c

/-- A way down from a node, with the nodes after it. -/
inductive Path (children : ℕ → List ℕ) : ℕ → List ℕ → ℕ → Prop
  | nil (v : ℕ) : Path children v [] v
  | cons {p c v : ℕ} {l : List ℕ} (hc : c ∈ children p) (h : Path children c l v) : Path children p (c :: l) v

/-- The nodes that get a message that each node sends on to its children, each time they get it. -/
def relay (children : ℕ → List ℕ) : (fuel v : ℕ) → List ℕ
  | 0, _ => []
  | fuel + 1, v => v :: (children v).flatMap (relay children fuel)

namespace Path

variable {children : ℕ → List ℕ} {p q v : ℕ} {l l' : List ℕ}

theorem snoc (h : Path children p l q) (hv : v ∈ children q) : Path children p (l ++ [v]) v := by
  induction h with
  | nil q => exact .cons hv (.nil v)
  | cons hc _ ih => exact .cons hc (ih hv)

theorem eq_nil_or_concat (h : Path children p l v) :
    l = [] ∧ v = p ∨ ∃ l' q, l = l' ++ [v] ∧ Path children p l' q ∧ v ∈ children q := by
  induction h with
  | nil v => exact .inl ⟨rfl, rfl⟩
  | @cons p c v l hc _ ih =>
    rcases ih with ⟨rfl, rfl⟩ | ⟨l', q, rfl, hq, hv⟩
    · exact .inr ⟨[], p, rfl, .nil p, hc⟩
    · exact .inr ⟨c :: l', q, rfl, .cons hc hq, hv⟩

theorem ne_nil_iff (h : Path children p l v) : l ≠ [] ↔ ∃ c ∈ children p, ∃ l', l = c :: l' ∧ Path children c l' v := by
  cases h with
  | nil => exact iff_of_false (fun hne => hne rfl) fun ⟨c, _, l', heq, _⟩ => nomatch heq
  | cons hc h => exact iff_of_true (cons_ne_nil _ _) ⟨_, hc, _, rfl, h⟩

theorem mem_relay {fuel : ℕ} : v ∈ relay children fuel p ↔ ∃ l, l.length < fuel ∧ Path children p l v := by
  induction fuel generalizing p with
  | zero => simp [relay]
  | succ fuel ih =>
    rw [relay, mem_cons, mem_flatMap]
    constructor
    · rintro (rfl | ⟨c, hc, hv⟩)
      · exact ⟨[], succ_pos fuel, .nil v⟩
      · obtain ⟨l, hl, hpath⟩ := ih.mp hv
        exact ⟨c :: l, succ_lt_succ hl, .cons hc hpath⟩
    · rintro ⟨l, hl, hpath⟩
      cases hpath with
      | nil => exact .inl rfl
      | cons hc h => exact .inr ⟨_, hc, ih.mpr ⟨_, lt_of_succ_lt_succ hl, h⟩⟩

end Path

namespace Spanning

variable {n root : ℕ} {parent : ℕ → Option ℕ} {children : ℕ → List ℕ}

theorem of_measure (f : ℕ → ℕ) (children_lt : ∀ p < n, ∀ c ∈ children p, c < n)
    (mem_children : ∀ p < n, ∀ c < n, c ∈ children p ↔ parent c = some p)
    (nodup : ∀ p < n, (children p).Nodup)
    (parent_lt : ∀ c < n, ∀ p, parent c = some p → p < n ∧ f p < f c)
    (parent_eq_none : ∀ c < n, parent c = none ↔ c = root) : Spanning n root parent children where
  children_lt
  mem_children
  nodup
  parent_lt c hc p hp := (parent_lt c hc p hp).1
  parent_eq_none
  reachable c hc := by
    induction hm : f c using Nat.strongRecOn generalizing c with
    | ind m ih =>
      rcases hp : parent c with _ | p
      · rw [(parent_eq_none c hc).mp hp]
      · obtain ⟨hlt, hf⟩ := parent_lt c hc p hp
        exact (ih (f p) (hm ▸ hf) p hlt rfl).tail ⟨hlt, (mem_children p hlt c hc).mpr hp⟩

theorem of_lt (children_lt : ∀ p < n, ∀ c ∈ children p, c < n)
    (mem_children : ∀ p < n, ∀ c < n, c ∈ children p ↔ parent c = some p)
    (nodup : ∀ p < n, (children p).Nodup) (parent_lt : ∀ c < n, ∀ p, parent c = some p → p < c)
    (parent_eq_none : ∀ c < n, parent c = none ↔ c = root) : Spanning n root parent children :=
  of_measure id children_lt mem_children nodup
    (fun c hc p hp => ⟨lt_trans (parent_lt c hc p hp) hc, parent_lt c hc p hp⟩) parent_eq_none

theorem of_rel {R : ℕ → ℕ → Prop} {parent : ℕ → ℕ} (hlt : ∀ p c, R p c → p < c)
    (hunique : ∀ p q c, R p c → R q c → p = q) (hparent : ∀ c < n, c ≠ 0 → R (parent c) c)
    (hchildren : ∀ p < n, ∀ c, c ∈ children p ↔ R p c ∧ c < n)
    (hsorted : ∀ p < n, (children p).Pairwise (· < ·)) :
    Spanning n 0 (fun c => if c = 0 then none else some (parent c)) children := by
  refine of_lt (fun p hp c hc => ((hchildren p hp c).mp hc).2) (fun p hp c hc => ?_)
    (fun p hp => (hsorted p hp).imp fun h => ne_of_lt h) (fun c hc p hp => ?_) fun c _ => ?_
  · rw [hchildren p hp, and_iff_left hc]
    split_ifs with hzero
    · subst hzero
      exact iff_of_false (fun h => absurd (hlt _ _ h) (Nat.not_lt_zero p)) nofun
    · rw [Option.some.injEq]
      constructor
      · exact fun h => hunique _ _ _ (hparent c hc hzero) h
      · rintro rfl
        exact hparent c hc hzero
  · split_ifs at hp with hzero
    cases hp
    exact hlt _ _ (hparent c hc hzero)
  · split_ifs with hzero <;> simp [hzero]

/-- A way of `k` steps down from the root. -/
inductive Way (n root : ℕ) (children : ℕ → List ℕ) : ℕ → ℕ → Prop
  | root : Way n root children 0 root
  | child {k p c : ℕ} (h : Way n root children k p) (hp : p < n) (hc : c ∈ children p) :
      Way n root children (k + 1) c

theorem exists_depth (h : Spanning n root parent children) :
    ∃ depth : ℕ → ℕ, ∀ p < n, ∀ c ∈ children p, depth p < depth c := by
  have hway : ∀ c < n, ∃ k, Way n root children k c := by
    intro c hc
    induction h.reachable c hc with
    | refl => exact ⟨0, .root⟩
    | tail _ hpc ih =>
      obtain ⟨k, hk⟩ := ih hpc.1
      exact ⟨k + 1, hk.child hpc.1 hpc.2⟩
  -- the parent of a node is on every way to it, one step before its end
  have hback : ∀ k c, c < n → Way n root children k c → ∀ p < n, c ∈ children p →
      ∃ l < k, Way n root children l p := by
    intro k c hc hk p hp hpc
    have hparent := (h.mem_children p hp c hc).mp hpc
    cases hk with
    | root =>
      rw [(h.parent_eq_none root hc).mpr rfl] at hparent
      cases hparent
    | @child k q _ hq hqn hqc =>
      have heq := ((h.mem_children q hqn c hc).mp hqc).symm.trans hparent
      cases heq
      exact ⟨k, k.lt_succ_self, hq⟩
  classical
  refine ⟨fun c => if hc : ∃ k, Way n root children k c then Nat.find hc else 0, fun p hp c hc => ?_⟩
  have hcn := h.children_lt p hp c hc
  simp only [dif_pos (hway c hcn), dif_pos (hway p hp)]
  obtain ⟨l, hl, hway'⟩ := hback _ c hcn (Nat.find_spec (hway c hcn)) p hp hc
  exact lt_of_le_of_lt (Nat.find_min' _ hway') hl

theorem congr {parent' : ℕ → Option ℕ} {children' : ℕ → List ℕ}
    (h : Spanning n root parent children) (hparent : ∀ r < n, parent' r = parent r)
    (hchildren : ∀ r < n, children' r = children r) : Spanning n root parent' children' where
  children_lt p hp := hchildren p hp ▸ h.children_lt p hp
  mem_children p hp c hc := by
    rw [hchildren p hp, hparent c hc]
    exact h.mem_children p hp c hc
  nodup p hp := hchildren p hp ▸ h.nodup p hp
  parent_lt c hc := hparent c hc ▸ h.parent_lt c hc
  parent_eq_none c hc := hparent c hc ▸ h.parent_eq_none c hc
  reachable c hc := by
    refine Relation.ReflTransGen.mono (fun p c hpc => ?_) _ _ (h.reachable c hc)
    exact ⟨hpc.1, hchildren p hpc.1 ▸ hpc.2⟩

section Ways

variable {p v : ℕ} {l l' : List ℕ}

section

variable (h : Spanning n root parent children)

include h

theorem path_lt (hp : p < n) (hpath : Path children p l v) :
    v < n ∧ ∀ q ∈ l, q < n := by
  induction hpath with
  | nil v => exact ⟨hp, by simp⟩
  | cons hc _ ih =>
    have hcn := h.children_lt _ hp _ hc
    obtain ⟨hv, hl⟩ := ih hcn
    refine ⟨hv, fun q hq => ?_⟩
    rcases mem_cons.mp hq with rfl | hq
    · exact hcn
    · exact hl q hq

theorem path_nodup (hp : p < n) (hpath : Path children p l v) :
    (p :: l).Nodup := by
  obtain ⟨depth, hdepth⟩ := h.exists_depth
  have hdeeper : (p :: l).Pairwise fun a b => depth a < depth b := by
    induction hpath with
    | nil v => exact pairwise_singleton _ v
    | @cons p c v l hc _ ih =>
      have hlater := ih (h.children_lt p hp c hc)
      refine pairwise_cons.mpr ⟨fun q hq => ?_, hlater⟩
      have hpc := hdepth p hp c hc
      rcases mem_cons.mp hq with rfl | hq
      · exact hpc
      · exact lt_trans hpc ((pairwise_cons.mp hlater).1 q hq)
  refine hdeeper.imp fun {a b} hab => ?_
  rintro rfl
  exact lt_irrefl _ hab

theorem path_length_lt (hp : p < n) (hpath : Path children p l v) :
    l.length < n := by
  have hsub : (p :: l) ⊆ range n := fun q hq => by
    rw [mem_range]
    rcases mem_cons.mp hq with rfl | hq
    · exact hp
    · exact (h.path_lt hp hpath).2 q hq
  have hle := ((h.path_nodup hp hpath).subperm hsub).length_le
  rw [length_range, length_cons] at hle
  exact hle

end

theorem mem_of_path (hpath : Path children p l v) (hne : l ≠ []) : v ∈ l := by
  rcases hpath.eq_nil_or_concat with ⟨rfl, -⟩ | ⟨l', q, rfl, -, -⟩
  · exact absurd rfl hne
  · simp

section

variable (h : Spanning n root parent children)

include h

theorem path_unique (hp : p < n) (hpath : Path children p l v)
    (hpath' : Path children p l' v) : l = l' := by
  induction hlength : l.length generalizing l l' v with
  | zero =>
    obtain rfl := length_eq_zero_iff.mp hlength
    cases hpath
    by_contra hne
    exact (nodup_cons.mp (h.path_nodup hp hpath')).1 (mem_of_path hpath' (Ne.symm hne))
  | succ k ih =>
    rcases hpath.eq_nil_or_concat with ⟨rfl, -⟩ | ⟨m, q, rfl, hm, hq⟩
    · cases hlength
    rcases hpath'.eq_nil_or_concat with ⟨rfl, rfl⟩ | ⟨m', q', rfl, hm', hq'⟩
    · exact absurd (mem_of_path hpath (by simp)) (nodup_cons.mp (h.path_nodup hp hpath)).1
    have hv := (h.path_lt hp hpath).1
    have hqn := (h.path_lt hp hm).1
    have hqn' := (h.path_lt hp hm').1
    have heq := ((h.mem_children q hqn v hv).mp hq).symm.trans ((h.mem_children q' hqn' v hv).mp hq')
    cases heq
    rw [length_append, length_singleton] at hlength
    rw [ih hm hm' (Nat.succ.inj hlength)]

theorem existsUnique_path (hroot : root < n) (hv : v < n) :
    ∃! l, Path children root l v := by
  have hex : ∃ l, Path children root l v := by
    induction h.reachable v hv with
    | refl => exact ⟨[], .nil root⟩
    | tail _ hpc ih =>
      obtain ⟨l, hl⟩ := ih hpc.1
      exact ⟨_, hl.snoc hpc.2⟩
  obtain ⟨l, hl⟩ := hex
  exact ⟨l, hl, fun l' hl' => h.path_unique hroot hl' hl⟩

theorem relay_nodup (fuel : ℕ) (hp : p < n) : (relay children fuel p).Nodup := by
  induction fuel generalizing p with
  | zero => exact nodup_nil
  | succ fuel ih =>
    rw [relay, nodup_cons, mem_flatMap]
    constructor
    · rintro ⟨c, hc, hpc⟩
      obtain ⟨l, -, hl⟩ := Path.mem_relay.mp hpc
      have hcycle : Path children p (c :: l) p := .cons hc hl
      cases h.path_unique hp hcycle (.nil p)
    · refine nodup_flatMap.mpr ⟨fun c hc => ih (h.children_lt p hp c hc), ?_⟩
      refine (h.nodup p hp).imp_of_mem fun {c d} hc hd hne => ?_
      intro v hvc hvd
      obtain ⟨l, -, hl⟩ := Path.mem_relay.mp hvc
      obtain ⟨m, -, hm⟩ := Path.mem_relay.mp hvd
      exact hne (List.cons.inj (h.path_unique hp (.cons hc hl) (.cons hd hm))).1

theorem relay_perm (hroot : root < n) {fuel : ℕ} (hfuel : n ≤ fuel) :
    (relay children fuel root).Perm (range n) := by
  refine (perm_ext_iff_of_nodup (h.relay_nodup fuel hroot) nodup_range).mpr fun v => ?_
  rw [Path.mem_relay, mem_range]
  constructor
  · rintro ⟨l, -, hl⟩
    exact (h.path_lt hroot hl).1
  · intro hv
    obtain ⟨l, hl, -⟩ := h.existsUnique_path hroot hv
    exact ⟨l, lt_of_lt_of_le (h.path_length_lt hroot hl) hfuel, hl⟩

end

end Ways

end Spanning

/-- The node that is `k` further on the circle of `n` nodes. -/
def rotate (n k s : ℕ) : ℕ := (s + k) % n

/-- The node that is `k` back on the circle of `n` nodes. -/
def unrotate (n k r : ℕ) : ℕ := (r + n - k) % n

section Rotate

variable {n k r s : ℕ}

theorem rotate_lt (hn : k < n) : rotate n k s < n := mod_lt _ (by omega)

theorem unrotate_lt (hn : k < n) : unrotate n k r < n := mod_lt _ (by omega)

theorem unrotate_eq (hk : k < n) (hr : r < n) :
    unrotate n k r = if r < k then r + n - k else r - k := by
  unfold unrotate
  split_ifs with h
  · exact mod_eq_of_lt (by omega)
  · rw [show r + n - k = r - k + n by omega, add_mod_right, mod_eq_of_lt (by omega)]

theorem rotate_eq (hk : k < n) (hs : s < n) :
    rotate n k s = if s + k < n then s + k else s + k - n := by
  unfold rotate
  split_ifs with h
  · exact mod_eq_of_lt h
  · rw [mod_eq_sub_mod (by omega), mod_eq_of_lt (by omega)]

theorem unrotate_rotate (hk : k < n) (hs : s < n) : unrotate n k (rotate n k s) = s := by
  rw [unrotate_eq hk (rotate_lt hk), rotate_eq hk hs]
  split_ifs <;> omega

theorem rotate_unrotate (hk : k < n) (hr : r < n) : rotate n k (unrotate n k r) = r := by
  rw [rotate_eq hk (unrotate_lt hk), unrotate_eq hk hr]
  split_ifs <;> omega

theorem rotate_injOn (hk : k < n) {s t : ℕ} (hs : s < n) (ht : t < n)
    (h : rotate n k s = rotate n k t) : s = t := by
  rw [← unrotate_rotate hk hs, h, unrotate_rotate hk ht]

theorem unrotate_eq_zero (hk : k < n) (hr : r < n) : unrotate n k r = 0 ↔ r = k := by
  rw [unrotate_eq hk hr]
  split_ifs <;> omega

@[simp] theorem rotate_zero_left (hk : k < n) : rotate n k 0 = k := by
  rw [rotate, Nat.zero_add, mod_eq_of_lt hk]

theorem rotate_perm (hk : k < n) : ((range n).map (rotate n k)).Perm (range n) := by
  have hnodup : ((range n).map (rotate n k)).Nodup :=
    List.nodup_range.map_on fun s hs t ht h =>
      rotate_injOn hk (mem_range.mp hs) (mem_range.mp ht) h
  refine (perm_ext_iff_of_nodup hnodup nodup_range).mpr fun r => ?_
  rw [mem_map, mem_range]
  constructor
  · rintro ⟨s, -, rfl⟩
    exact rotate_lt hk
  · exact fun hr => ⟨unrotate n k r, mem_range.mpr (unrotate_lt hk), rotate_unrotate hk hr⟩

end Rotate

theorem Spanning.rotate {n root : ℕ} {parent : ℕ → Option ℕ} {children : ℕ → List ℕ}
    (h : Spanning n 0 parent children) (hroot : root < n) :
    Spanning n root (fun r => (parent (unrotate n root r)).map (Lib.rotate n root))
      (fun r => (children (unrotate n root r)).map (Lib.rotate n root)) where
  children_lt p _ c hc := by
    obtain ⟨s, -, rfl⟩ := mem_map.mp hc
    exact rotate_lt hroot
  mem_children p hp c hc := by
    have hup := unrotate_lt (r := p) hroot
    have huc := unrotate_lt (r := c) hroot
    rw [mem_map, Option.map_eq_some_iff]
    constructor
    · rintro ⟨s, hs, rfl⟩
      have hsn := h.children_lt _ hup s hs
      rw [unrotate_rotate hroot hsn]
      exact ⟨_, (h.mem_children _ hup s hsn).mp hs, rotate_unrotate hroot hp⟩
    · rintro ⟨q, hq, rfl⟩
      have hqn := h.parent_lt _ huc q hq
      rw [unrotate_rotate hroot hqn]
      exact ⟨_, (h.mem_children q hqn _ huc).mpr hq, rotate_unrotate hroot hc⟩
  nodup p hp := by
    have hup := unrotate_lt (r := p) hroot
    refine (h.nodup _ hup).map_on fun s hs t ht heq => ?_
    exact rotate_injOn hroot (h.children_lt _ hup s hs) (h.children_lt _ hup t ht) heq
  parent_lt c _ p hp := by
    obtain ⟨q, -, rfl⟩ := Option.map_eq_some_iff.mp hp
    exact rotate_lt hroot
  parent_eq_none c hc := by
    rw [Option.map_eq_none_iff, h.parent_eq_none _ (unrotate_lt hroot), unrotate_eq_zero hroot hc]
  reachable c hc := by
    have hlift := (h.reachable _ (unrotate_lt (r := c) hroot)).lift (Lib.rotate n root)
      (p := fun p c => p < n ∧
        c ∈ (children (unrotate n root p)).map (Lib.rotate n root)) fun p s hps => by
      refine ⟨rotate_lt hroot, ?_⟩
      rw [unrotate_rotate hroot hps.1]
      exact mem_map_of_mem hps.2
    change Relation.ReflTransGen _ (Lib.rotate n root 0) (Lib.rotate n root (unrotate n root c)) at hlift
    rw [rotate_zero_left hroot, rotate_unrotate hroot hc] at hlift
    exact hlift

end OpenMPI.Lib
