import Mathlib.Data.List.Nodup
import Mathlib.Data.List.Flatten
import OpenMPI.Class.RbTree

/-!
# The tree in the memory

`Represents` says that the nodes reached from `root_ptr` are those of a tree.  What a rotation, a
change of a colour and a change of the data do to the memory is what they do to the tree.
-/

namespace OpenMPI.Class.RbTree

open Lib.RedBlack List Function

variable {K V : Type}

structure Entry (K V : Type) where
  address : ℕ
  key : K
  value : V

def ptr (nill : ℕ) : ColorTree (Entry K V) → ℕ
  | .nil => nill
  | .node _ _ e _ => e.address

def addrs (t : ColorTree (Entry K V)) : List ℕ := t.toList.map Entry.address

def nodeOf (s : Side) (c : Color) (p a b : ℕ) (e : Entry K V) : RbNode K V :=
  match s with
  | .left => ⟨c, p, a, b, e.key, e.value⟩
  | .right => ⟨c, p, b, a, e.key, e.value⟩

def Stored (nill : ℕ) (h : Heap K V) : ℕ → ColorTree (Entry K V) → Prop
  | _, .nil => True
  | p, .node c l e r =>
    h e.address = nodeOf .left c p (ptr nill l) (ptr nill r) e ∧
      Stored nill h e.address l ∧ Stored nill h e.address r

section Nodes

variable {s : Side} {c d : Color} {p a b q : ℕ} {e : Entry K V}

@[simp] theorem nodeOf_color : (nodeOf s c p a b e).color = c := by cases s <;> rfl

@[simp] theorem nodeOf_parent : (nodeOf s c p a b e).parent = p := by cases s <;> rfl

@[simp] theorem nodeOf_key : (nodeOf s c p a b e).key = e.key := by cases s <;> rfl

@[simp] theorem nodeOf_value : (nodeOf s c p a b e).value = e.value := by cases s <;> rfl

@[simp] theorem nodeOf_child : (nodeOf s c p a b e).child s = a := by cases s <;> rfl

@[simp] theorem nodeOf_child_other : (nodeOf s c p a b e).child s.other = b := by cases s <;> rfl

theorem nodeOf_setColor : { nodeOf s c p a b e with color := d } = nodeOf s d p a b e := by
  cases s <;> rfl

theorem nodeOf_setParent : { nodeOf s c p a b e with parent := q } = nodeOf s c q a b e := by
  cases s <;> rfl

end Nodes

section Setters

variable {h : Heap K V} {a b : ℕ}

theorem setColor_self (c : Color) : h.setColor a c a = { h a with color := c } :=
  update_self ..

theorem setColor_of_ne (c : Color) (hne : b ≠ a) : h.setColor a c b = h b :=
  update_of_ne hne ..

theorem setParent_self (p : ℕ) : h.setParent a p a = { h a with parent := p } :=
  update_self ..

theorem setParent_of_ne (p : ℕ) (hne : b ≠ a) : h.setParent a p b = h b :=
  update_of_ne hne ..

theorem setChild_of_ne (s : Side) (c : ℕ) (hne : b ≠ a) : h.setChild s a c b = h b :=
  update_of_ne hne ..

theorem setChild_nodeOf {s : Side} {c : Color} {p l r : ℕ} {e : Entry K V}
    (ha : h a = nodeOf s c p l r e) (q : ℕ) : h.setChild s a q a = nodeOf s c p q r e := by
  unfold Heap.setChild
  rw [update_self, ha]
  cases s <;> rfl

theorem setChild_other_nodeOf {s : Side} {c : Color} {p l r : ℕ} {e : Entry K V}
    (ha : h a = nodeOf s c p l r e) (q : ℕ) : h.setChild s.other a q a = nodeOf s c p l q e := by
  unfold Heap.setChild
  rw [update_self, ha]
  cases s <;> rfl

theorem setChild_color (s : Side) (b c : ℕ) : (h.setChild s a b c).color = (h c).color := by
  rcases Classical.em (c = a) with rfl | hne
  · unfold Heap.setChild
    rw [update_self]
    cases s <;> rfl
  · rw [setChild_of_ne _ _ hne]

theorem setData_self (key : K) (value : V) :
    h.setData a key value a = { h a with key := key, value := value } :=
  update_self ..

theorem setData_of_ne (key : K) (value : V) (hne : b ≠ a) : h.setData a key value b = h b :=
  update_of_ne hne ..

end Setters

section Trees

variable {nill rootPtr : ℕ} {h h' : Heap K V} {s : Side} {c : Color} {p q : ℕ} {e : Entry K V}
  {t a b : ColorTree (Entry K V)}

@[simp] theorem ptr_build : ptr nill (.build s c a e b) = e.address := by cases s <;> rfl

theorem addrs_build_perm :
    (addrs (.build s c a e b)).Perm (e.address :: (addrs a ++ addrs b)) := by
  unfold addrs
  cases s
  · simp only [ColorTree.build, ColorTree.toList, map_append, map_cons]
    exact perm_middle
  · simp only [ColorTree.build, ColorTree.toList, map_append, map_cons]
    exact perm_middle.trans (List.perm_append_comm.cons _)

theorem mem_addrs_build {x : ℕ} :
    x ∈ addrs (.build s c a e b) ↔ x = e.address ∨ x ∈ addrs a ∨ x ∈ addrs b := by
  rw [addrs_build_perm.mem_iff, mem_cons, mem_append]

theorem nodup_addrs_build : (addrs (.build s c a e b)).Nodup ↔
    e.address ∉ addrs a ∧ e.address ∉ addrs b ∧ (addrs a).Nodup ∧ (addrs b).Nodup ∧
      ∀ x ∈ addrs a, x ∉ addrs b := by
  rw [addrs_build_perm.nodup_iff, nodup_cons, mem_append, nodup_append]
  constructor
  · rintro ⟨he, ha, hb, hab⟩
    exact ⟨fun h => he (.inl h), fun h => he (.inr h), ha, hb, fun x hx hx' => hab x hx x hx' rfl⟩
  · rintro ⟨hea, heb, ha, hb, hab⟩
    exact ⟨fun h => h.elim hea heb, ha, hb, fun x hx y hy heq => hab x hx (heq ▸ hy)⟩

theorem ptr_mem_addrs (ht : t ≠ .nil) : ptr nill t ∈ addrs t := by
  obtain ⟨c, a, e, b, rfl⟩ := ColorTree.exists_build .left ht
  rw [ptr_build]
  exact mem_addrs_build.mpr (.inl rfl)

theorem stored_build : Stored nill h p (.build s c a e b) ↔
    h e.address = nodeOf s c p (ptr nill a) (ptr nill b) e ∧
      Stored nill h e.address a ∧ Stored nill h e.address b := by
  cases s
  · exact Iff.rfl
  · show h e.address = nodeOf .left c p (ptr nill b) (ptr nill a) e ∧
      Stored nill h e.address b ∧ Stored nill h e.address a ↔ _
    rw [and_comm (a := Stored nill h e.address b)]
    exact Iff.rfl

theorem Stored.congr (hst : Stored nill h p t) (hsame : ∀ x ∈ addrs t, h' x = h x) :
    Stored nill h' p t := by
  induction t generalizing p with
  | nil => exact trivial
  | node c l e r ihl ihr =>
    have hmem (x : ℕ) : x ∈ addrs (.build .left c l e r) ↔ _ := mem_addrs_build
    obtain ⟨he, hl, hr⟩ := hst
    refine ⟨?_, ihl hl fun x hx => ?_, ihr hr fun x hx => ?_⟩
    · rw [hsame _ ((hmem _).mpr (.inl rfl)), he]
    · exact hsame x ((hmem x).mpr (.inr (.inl hx)))
    · exact hsame x ((hmem x).mpr (.inr (.inr hx)))

theorem Stored.reparent (hst : Stored nill h p t) (hnodup : (addrs t).Nodup)
    (hptr : t ≠ .nil → h' (ptr nill t) = { h (ptr nill t) with parent := q })
    (hsame : ∀ x ∈ addrs t, x ≠ ptr nill t → h' x = h x) : Stored nill h' q t := by
  rcases Classical.em (t = .nil) with rfl | ht
  · exact trivial
  · obtain ⟨c, l, e, r, rfl⟩ := ColorTree.exists_build .left ht
    obtain ⟨he, hl, hr⟩ := stored_build.mp hst
    obtain ⟨hel, her, -, -, -⟩ := nodup_addrs_build.mp hnodup
    rw [ptr_build] at hptr hsame
    refine stored_build.mpr ⟨?_, hl.congr fun x hx => ?_, hr.congr fun x hx => ?_⟩
    · rw [hptr ht, he, nodeOf_setParent]
    · refine hsame x (mem_addrs_build.mpr (.inr (.inl hx))) ?_
      rintro rfl
      exact hel hx
    · refine hsame x (mem_addrs_build.mpr (.inr (.inr hx))) ?_
      rintro rfl
      exact her hx

end Trees

def ctxAddrs (ctx : Context (Entry K V)) : List ℕ :=
  ctx.flatMap fun f => f.item.address :: addrs f.sibling

def parentOf (rootPtr : ℕ) : Context (Entry K V) → ℕ
  | [] => rootPtr
  | f :: _ => f.item.address

/-- The nodes over a subtree are in the memory, `hole` being the pointer to the subtree. -/
def CtxStored (nill rootPtr : ℕ) (h : Heap K V) : ℕ → Context (Entry K V) → Prop
  | hole, [] => (h rootPtr).left = hole
  | hole, f :: ctx =>
    h f.item.address =
        nodeOf f.side f.color (parentOf rootPtr ctx) hole (ptr nill f.sibling) f.item ∧
      Stored nill h f.item.address f.sibling ∧ CtxStored nill rootPtr h f.item.address ctx

/-- The memory holds the tree that is `t` below `ctx`. -/
structure At (nill rootPtr : ℕ) (h : Heap K V) (ctx : Context (Entry K V)) (t : ColorTree (Entry K V)) :
    Prop where
  tree : Stored nill h (parentOf rootPtr ctx) t
  context : CtxStored nill rootPtr h (ptr nill t) ctx
  rootColor : (h rootPtr).color = .black
  nillColor : (h nill).color = .black
  nodup : (addrs t).Nodup
  outer : (rootPtr :: nill :: ctxAddrs ctx).Nodup
  apart : ∀ x ∈ addrs t, x ∉ rootPtr :: nill :: ctxAddrs ctx

section Contexts

variable {nill rootPtr hole : ℕ} {h h' : Heap K V} {f : Frame (Entry K V)}
  {ctx : Context (Entry K V)} {t u : ColorTree (Entry K V)} {x y : ℕ}

theorem ctxAddrs_cons : ctxAddrs (f :: ctx) = f.item.address :: (addrs f.sibling ++ ctxAddrs ctx) := rfl

theorem outer_perm : (rootPtr :: nill :: ctxAddrs (f :: ctx)).Perm
    (f.item.address :: (addrs f.sibling ++ rootPtr :: nill :: ctxAddrs ctx)) := by
  rw [ctxAddrs_cons]
  refine (((List.Perm.swap _ _ _).cons _).trans (List.Perm.swap _ _ _)).trans (List.Perm.cons _ ?_)
  exact (perm_middle.symm.cons _).trans perm_middle.symm

theorem mem_ctxAddrs_cons : x ∈ rootPtr :: ctxAddrs (f :: ctx) ↔
    x = f.item.address ∨ x ∈ addrs f.sibling ∨ x ∈ rootPtr :: ctxAddrs ctx := by
  simp only [ctxAddrs_cons, mem_cons, mem_append]
  tauto

theorem At.fill (hat : At nill rootPtr h (f :: ctx) t) : At nill rootPtr h ctx (f.fill t) := by
  obtain ⟨hf, hsib, hctx⟩ := hat.context
  have houter := hat.outer
  have hmem {x : ℕ} : x ∈ rootPtr :: nill :: ctxAddrs (f :: ctx) ↔
      x = f.item.address ∨ x ∈ addrs f.sibling ∨ x ∈ rootPtr :: nill :: ctxAddrs ctx := by
    rw [outer_perm.mem_iff, mem_cons, mem_append]
  rw [outer_perm.nodup_iff, nodup_cons, mem_append, nodup_append] at houter
  obtain ⟨hitem, hsibling, hrest, hdisj⟩ := houter
  refine ⟨stored_build.mpr ⟨hf, hat.tree, hsib⟩, ?_, hat.rootColor, hat.nillColor, ?_, hrest, ?_⟩
  · rw [Frame.fill, ptr_build]
    exact hctx
  · refine nodup_addrs_build.mpr ⟨fun hx => ?_, fun hx => hitem (.inl hx), hat.nodup, hsibling,
      fun x hx hx' => ?_⟩
    · exact hat.apart _ hx (hmem.mpr (.inl rfl))
    · exact hat.apart _ hx (hmem.mpr (.inr (.inl hx')))
  · intro x hx hx'
    rcases mem_addrs_build.mp hx with rfl | hx | hx
    · exact hitem (.inr hx')
    · exact hat.apart _ hx (hmem.mpr (.inr (.inr hx')))
    · exact hdisj x hx x hx' rfl

theorem At.unfill (hat : At nill rootPtr h ctx (f.fill t)) : At nill rootPtr h (f :: ctx) t := by
  obtain ⟨hf, htree, hsib⟩ := stored_build.mp hat.tree
  obtain ⟨hft, hfs, ht, hs, hts⟩ := nodup_addrs_build.mp hat.nodup
  have hmem {x : ℕ} : x ∈ addrs (f.fill t) ↔ _ := mem_addrs_build
  refine ⟨htree, ⟨hf, hsib, ?_⟩, hat.rootColor, hat.nillColor, ht, ?_, ?_⟩
  · have := hat.context
    rwa [Frame.fill, ptr_build] at this
  · rw [outer_perm.nodup_iff, nodup_cons, mem_append, nodup_append]
    refine ⟨?_, hs, hat.outer, fun x hx y hy heq => ?_⟩
    · rintro (hx | hx)
      · exact hfs hx
      · exact hat.apart _ (hmem.mpr (.inl rfl)) hx
    · exact hat.apart x (hmem.mpr (.inr (.inr hx))) (heq ▸ hy)
  · intro x hx hx'
    rw [outer_perm.mem_iff, mem_cons, mem_append] at hx'
    rcases hx' with rfl | hx' | hx'
    · exact hft hx
    · exact hts x hx hx'
    · exact hat.apart x (hmem.mpr (.inr (.inl hx))) hx'

theorem at_plug : At nill rootPtr h [] (ctx.plug t) ↔ At nill rootPtr h ctx t := by
  induction ctx generalizing t with
  | nil => exact Iff.rfl
  | cons f ctx ih =>
    rw [Context.plug_cons, ih]
    exact ⟨At.unfill, At.fill⟩

theorem CtxStored.congr (hst : CtxStored nill rootPtr h hole ctx)
    (hsame : ∀ x ∈ rootPtr :: ctxAddrs ctx, h' x = h x) : CtxStored nill rootPtr h' hole ctx := by
  induction ctx generalizing hole with
  | nil =>
    show (h' rootPtr).left = hole
    rw [hsame rootPtr mem_cons_self]
    exact hst
  | cons f ctx ih =>
    obtain ⟨hf, hsib, hctx⟩ := hst
    have hin (x : ℕ) : x ∈ rootPtr :: ctxAddrs (f :: ctx) ↔
        x = f.item.address ∨ x ∈ addrs f.sibling ∨ x ∈ rootPtr :: ctxAddrs ctx := mem_ctxAddrs_cons
    refine ⟨?_, hsib.congr fun x hx => ?_, ih hctx fun x hx => ?_⟩
    · rw [hsame _ ((hin _).mpr (.inl rfl)), hf]
    · exact hsame x ((hin x).mpr (.inr (.inl hx)))
    · exact hsame x ((hin x).mpr (.inr (.inr hx)))

theorem parentOf_mem : parentOf rootPtr ctx ∈ rootPtr :: ctxAddrs ctx := by
  cases ctx with
  | nil => exact mem_cons_self
  | cons f ctx => exact mem_cons_of_mem _ (by simp [ctxAddrs_cons, parentOf])

theorem mem_outer (hx : x ∈ rootPtr :: ctxAddrs ctx) : x ∈ rootPtr :: nill :: ctxAddrs ctx := by
  rcases mem_cons.mp hx with rfl | hx
  · exact mem_cons_self
  · exact mem_cons_of_mem _ (mem_cons_of_mem _ hx)

def sideOf : Context (Entry K V) → Side
  | [] => .left
  | f :: _ => f.side

theorem CtxStored.hang (hst : CtxStored nill rootPtr h x ctx)
    (houter : (rootPtr :: nill :: ctxAddrs ctx).Nodup)
    (hnew : h' (parentOf rootPtr ctx)
      = h.setChild (sideOf ctx) (parentOf rootPtr ctx) y (parentOf rootPtr ctx))
    (hsame : ∀ z ∈ rootPtr :: ctxAddrs ctx, z ≠ parentOf rootPtr ctx → h' z = h z) :
    CtxStored nill rootPtr h' y ctx := by
  cases ctx with
  | nil =>
    show (h' rootPtr).left = y
    rw [show h' rootPtr = h.setChild .left rootPtr y rootPtr from hnew]
    unfold Heap.setChild
    rw [update_self]
  | cons f ctx =>
    obtain ⟨hf, hsib, hctx⟩ := hst
    rw [outer_perm.nodup_iff, nodup_cons, mem_append] at houter
    have hitem : ∀ z ∈ addrs f.sibling, z ≠ f.item.address := fun z hz heq => houter.1 (.inl (heq ▸ hz))
    have hrest : ∀ z ∈ rootPtr :: ctxAddrs ctx, z ≠ f.item.address := by
      rintro z hz rfl
      exact houter.1 (.inr (mem_outer hz))
    have hin (z : ℕ) : z ∈ rootPtr :: ctxAddrs (f :: ctx) ↔
        z = f.item.address ∨ z ∈ addrs f.sibling ∨ z ∈ rootPtr :: ctxAddrs ctx := mem_ctxAddrs_cons
    refine ⟨?_, hsib.congr fun z hz => ?_, hctx.congr fun z hz => ?_⟩
    · exact hnew.trans (setChild_nodeOf hf y)
    · exact hsame z ((hin z).mpr (.inr (.inl hz))) (hitem z hz)
    · exact hsame z ((hin z).mpr (.inr (.inr hz))) (hrest z hz)

theorem CtxStored.side_eq (hst : CtxStored nill rootPtr h x ctx)
    (hx : x ∉ rootPtr :: nill :: ctxAddrs ctx) :
    (if x = (h (parentOf rootPtr ctx)).left then Side.left else .right) = sideOf ctx := by
  cases ctx with
  | nil => exact if_pos hst.symm
  | cons f ctx =>
    rw [outer_perm.mem_iff, mem_cons, mem_append] at hx
    rw [parentOf, hst.1]
    obtain ⟨s, c, e, b⟩ := f
    cases s with
    | left => exact if_pos rfl
    | right =>
      -- the sibling is another node or the sentinel
      refine if_neg fun heq => ?_
      rcases Classical.em (b = .nil) with rfl | hb
      · exact hx (.inr (.inr (heq ▸ mem_cons_of_mem _ mem_cons_self)))
      · exact hx (.inr (.inl (heq ▸ ptr_mem_addrs hb)))

end Contexts

section Rotate

variable {nill rootPtr : ℕ} {h : Heap K V} {s : Side} {c d : Color} {x y : Entry K V}
  {P A B Q : ℕ} {ctx : Context (Entry K V)} {a p q : ColorTree (Entry K V)}

theorem rotate_apply (hX : h x.address = nodeOf s c P A y.address x)
    (hY : h y.address = nodeOf s d x.address B Q y) (hXY : x.address ≠ y.address)
    (hPX : P ≠ x.address) (hPY : P ≠ y.address)
    (hB : B ≠ nill → B ≠ x.address ∧ B ≠ y.address ∧ B ≠ P) :
    h.rotate nill s x.address x.address = nodeOf s c y.address A B x ∧
      h.rotate nill s x.address y.address = nodeOf s d P x.address Q y ∧
      (B ≠ nill → h.rotate nill s x.address B = { h B with parent := x.address }) ∧
      h.rotate nill s x.address P
        = h.setChild (if x.address = (h P).left then .left else .right) P y.address P ∧
      ∀ z, z ≠ x.address → z ≠ y.address → z ≠ P → (B ≠ nill → z ≠ B) →
        h.rotate nill s x.address z = h z := by
  have hy : (h x.address).child s.other = y.address := by rw [hX, nodeOf_child_other]
  have hb : (h y.address).child s = B := by rw [hY, nodeOf_child]
  unfold Heap.rotate
  dsimp only
  rw [hy, hb]
  generalize hh1 : (if B ≠ nill then h.setParent B x.address else h) = h1
  have h1B (hne : B ≠ nill) : h1 B = { h B with parent := x.address } := by
    rw [← hh1, if_pos hne, setParent_self]
  have h1z (z : ℕ) (hz : B ≠ nill → z ≠ B) : h1 z = h z := by
    rw [← hh1]
    split_ifs with hne
    · exact setParent_of_ne _ (hz hne)
    · rfl
  have h1X : h1 x.address = nodeOf s c P A y.address x := by
    rw [h1z _ fun hne => (hB hne).1.symm, hX]
  have h1P : h1 P = h P := h1z _ fun hne => (hB hne).2.2.symm
  rw [h1X, nodeOf_parent, h1P]
  generalize hh2 : (if x.address = (h P).left then h1.setChild .left P y.address
    else h1.setChild .right P y.address) = h2
  have h2P : h2 P = h.setChild (if x.address = (h P).left then .left else .right) P y.address P := by
    have hset (s : Side) : h1.setChild s P y.address P = h.setChild s P y.address P := by
      unfold Heap.setChild
      rw [update_self, update_self, h1P]
    rw [← hh2]
    split_ifs
    · exact hset .left
    · exact hset .right
  have h2z (z : ℕ) (hz : z ≠ P) : h2 z = h1 z := by
    rw [← hh2]
    split_ifs
    · exact setChild_of_ne _ _ hz
    · exact setChild_of_ne _ _ hz
  have h2X : h2 x.address = nodeOf s c P A y.address x := by rw [h2z _ hPX.symm, h1X]
  have h2Y : h2 y.address = nodeOf s d x.address B Q y := by
    rw [h2z _ hPY.symm, h1z _ fun hne => (hB hne).2.1.symm, hY]
  rw [h2X, nodeOf_parent]
  generalize hh3 : (h2.setParent y.address P).setParent x.address y.address = h3
  have h3X : h3 x.address = nodeOf s c y.address A y.address x := by
    rw [← hh3, setParent_self, setParent_of_ne _ hXY, h2X, nodeOf_setParent]
  have h3Y : h3 y.address = nodeOf s d P B Q y := by
    rw [← hh3, setParent_of_ne _ hXY.symm, setParent_self, h2Y, nodeOf_setParent]
  have h3z (z : ℕ) (hzX : z ≠ x.address) (hzY : z ≠ y.address) : h3 z = h2 z := by
    rw [← hh3, setParent_of_ne _ hzX, setParent_of_ne _ hzY]
  rw [h3Y, nodeOf_child]
  have hz (z : ℕ) (hzX : z ≠ x.address) (hzY : z ≠ y.address) :
      (h3.setChild s.other x.address B).setChild s y.address x.address z = h2 z := by
    rw [setChild_of_ne _ _ hzY, setChild_of_ne _ _ hzX, h3z z hzX hzY]
  refine ⟨?_, ?_, fun hne => ?_, ?_, fun z hzX hzY hzP hzB => ?_⟩
  · rw [setChild_of_ne _ _ hXY, setChild_other_nodeOf h3X]
  · exact setChild_nodeOf ((setChild_of_ne _ _ hXY.symm).trans h3Y) _
  · obtain ⟨hBX, hBY, hBP⟩ := hB hne
    rw [hz B hBX hBY, h2z B hBP, h1B hne]
  · rw [hz P hPX hPY, h2P]
  · rw [hz z hzX hzY, h2z z hzP, h1z z hzB]

/-- A rotation of the memory is one of the tree, and leaves the sentinel as it is. -/
theorem At.rotate (hat : At nill rootPtr h ctx (.build s c a x (.build s d p y q))) :
    At nill rootPtr (h.rotate nill s x.address) ctx (.build s d (.build s c a x p) y q) ∧
      h.rotate nill s x.address nill = h nill := by
  obtain ⟨hX, ha, hy⟩ := stored_build.mp hat.tree
  obtain ⟨hY, hp, hq⟩ := stored_build.mp hy
  rw [ptr_build] at hX
  obtain ⟨hXa, hXy, hanodup, hynodup, hay⟩ := nodup_addrs_build.mp hat.nodup
  obtain ⟨hYp, hYq, hpnodup, hqnodup, hpq⟩ := nodup_addrs_build.mp hynodup
  simp only [mem_addrs_build, not_or] at hXy hay
  obtain ⟨hXY, hXp, hXq⟩ := hXy
  have hout (z : ℕ) (hz : z = x.address ∨ z = y.address ∨ z ∈ addrs a ∨ z ∈ addrs p ∨ z ∈ addrs q) :
      z ∉ rootPtr :: nill :: ctxAddrs ctx := by
    refine hat.apart z ?_
    rw [mem_addrs_build, mem_addrs_build]
    tauto
  have hP : parentOf rootPtr ctx ∈ rootPtr :: nill :: ctxAddrs ctx := mem_outer parentOf_mem
  have hnill : nill ∈ rootPtr :: nill :: ctxAddrs ctx := mem_cons_of_mem _ mem_cons_self
  have hne (z w : ℕ) (hz : z = x.address ∨ z = y.address ∨ z ∈ addrs a ∨ z ∈ addrs p ∨ z ∈ addrs q)
      (hw : w ∈ rootPtr :: nill :: ctxAddrs ctx) : w ≠ z := fun heq => hout z hz (heq ▸ hw)
  have hBmem (hB : ptr nill p ≠ nill) : ptr nill p ∈ addrs p := by
    refine ptr_mem_addrs ?_
    rintro rfl
    exact hB rfl
  obtain ⟨hX', hY', hB', hP', hz'⟩ := rotate_apply hX hY hXY (hne _ _ (.inl rfl) hP)
    (hne _ _ (.inr (.inl rfl)) hP) fun hB => by
      have := hBmem hB
      exact ⟨fun heq => hXp (heq ▸ this), fun heq => hYp (heq ▸ this),
        (hne _ _ (.inr (.inr (.inr (.inl this)))) hP).symm⟩
  -- a node of another tree
  have hsame (z : ℕ) (hzX : z ≠ x.address) (hzY : z ≠ y.address) (hzP : z ≠ parentOf rootPtr ctx)
      (hzp : z ∉ addrs p) : h.rotate nill s x.address z = h z :=
    hz' z hzX hzY hzP fun hB heq => hzp (heq ▸ hBmem hB)
  have hctxsame (z : ℕ) (hz : z ∈ rootPtr :: nill :: ctxAddrs ctx) (hzP : z ≠ parentOf rootPtr ctx) :
      h.rotate nill s x.address z = h z := by
    refine hsame z (hne _ _ (.inl rfl) hz) (hne _ _ (.inr (.inl rfl)) hz) hzP fun hin => ?_
    exact hout z (.inr (.inr (.inr (.inl hin)))) hz
  have hcolor (z : ℕ) (hz : z ∈ rootPtr :: nill :: ctxAddrs ctx) :
      (h.rotate nill s x.address z).color = (h z).color := by
    rcases Classical.em (z = parentOf rootPtr ctx) with rfl | hzP
    · rw [hP']
      exact setChild_color _ _ _
    · rw [hctxsame z hz hzP]
  have hnillP : nill ≠ parentOf rootPtr ctx := by
    intro heq
    have := hat.outer
    rw [nodup_cons, nodup_cons] at this
    have hmem : parentOf rootPtr ctx ∈ rootPtr :: ctxAddrs ctx := parentOf_mem
    rcases mem_cons.mp hmem with heq' | hin
    · exact this.1 ((heq.trans heq') ▸ mem_cons_self)
    · exact this.2.1 (heq ▸ hin)
  refine ⟨⟨?_, ?_, ?_, ?_, ?_, hat.outer, ?_⟩, hctxsame nill hnill hnillP⟩
  · refine stored_build.mpr ⟨by rw [hY', ptr_build], stored_build.mpr ⟨hX', ?_, ?_⟩, ?_⟩
    · refine ha.congr fun z hz => hsame z ?_ ?_ ?_ ?_
      · exact fun heq => hXa (heq ▸ hz)
      · exact (hay z hz).1
      · exact (hne z _ (.inr (.inr (.inl hz))) hP).symm
      · exact (hay z hz).2.1
    · refine hp.reparent hpnodup (fun hpne => hB' ?_) fun z hz hzB => hz' z ?_ ?_ ?_ fun _ => hzB
      · exact (hne _ _ (.inr (.inr (.inr (.inl (ptr_mem_addrs hpne))))) hnill).symm
      · exact fun heq => hXp (heq ▸ hz)
      · exact fun heq => hYp (heq ▸ hz)
      · exact (hne z _ (.inr (.inr (.inr (.inl hz)))) hP).symm
    · refine hq.congr fun z hz => hsame z ?_ ?_ ?_ fun hzp => hpq z hzp hz
      · exact fun heq => hXq (heq ▸ hz)
      · exact fun heq => hYq (heq ▸ hz)
      · exact (hne z _ (.inr (.inr (.inr (.inr hz)))) hP).symm
  · rw [ptr_build]
    have hctx := hat.context
    rw [ptr_build] at hctx
    rw [hctx.side_eq (hout _ (.inl rfl))] at hP'
    exact hctx.hang hat.outer hP' fun z hz hzP => hctxsame z (mem_outer hz) hzP
  · rw [hcolor _ mem_cons_self, hat.rootColor]
  · rw [hcolor _ hnill, hat.nillColor]
  · refine nodup_addrs_build.mpr ⟨?_, hYq, nodup_addrs_build.mpr ⟨hXa, hXp, hanodup, hpnodup, ?_⟩,
      hqnodup, ?_⟩
    · rw [mem_addrs_build, not_or, not_or]
      exact ⟨Ne.symm hXY, fun hin => (hay _ hin).1 rfl, hYp⟩
    · exact fun z hz => (hay z hz).2.1
    · intro z hz
      rcases mem_addrs_build.mp hz with rfl | hz | hz
      · exact hXq
      · exact (hay z hz).2.2
      · exact hpq z hz
  · intro z hz
    refine hout z ?_
    rw [mem_addrs_build, mem_addrs_build] at hz
    tauto

end Rotate

section Focus

variable {nill rootPtr : ℕ} {h h' : Heap K V} {s : Side} {c : Color} {x : Entry K V}
  {ctx : Context (Entry K V)} {t a b : ColorTree (Entry K V)} {f : Frame (Entry K V)}

theorem At.down (hat : At nill rootPtr h ctx (.build s c a x b)) :
    At nill rootPtr h (⟨s, c, x, b⟩ :: ctx) a := At.unfill (f := ⟨s, c, x, b⟩) hat

theorem At.downOther (hat : At nill rootPtr h ctx (.build s c a x b)) :
    At nill rootPtr h (⟨s.other, c, x, a⟩ :: ctx) b := by
  refine At.unfill (f := ⟨s.other, c, x, a⟩) ?_
  rw [Frame.fill, ColorTree.build_other]
  exact hat

theorem At.up (hat : At nill rootPtr h (⟨s, c, x, b⟩ :: ctx) a) :
    At nill rootPtr h ctx (.build s c a x b) := hat.fill

theorem At.upOther (hat : At nill rootPtr h (⟨s.other, c, x, a⟩ :: ctx) b) :
    At nill rootPtr h ctx (.build s c a x b) := by
  have := hat.fill
  rwa [Frame.fill, ColorTree.build_other] at this

theorem At.node (hat : At nill rootPtr h ctx (.build s c a x b)) :
    h x.address = nodeOf s c (parentOf rootPtr ctx) (ptr nill a) (ptr nill b) x :=
  (stored_build.mp hat.tree).1

theorem At.parent (hat : At nill rootPtr h (⟨s, c, x, b⟩ :: ctx) t) :
    h x.address = nodeOf s c (parentOf rootPtr ctx) (ptr nill t) (ptr nill b) x :=
  hat.context.1

section

variable (hat : At nill rootPtr h ctx t)

include hat

theorem At.parent_eq (ht : t ≠ .nil) :
    (h (ptr nill t)).parent = parentOf rootPtr ctx := by
  obtain ⟨c, a, x, b, rfl⟩ := ColorTree.exists_build .left ht
  rw [ptr_build, hat.node, nodeOf_parent]

theorem At.color_eq : (h (ptr nill t)).color = t.color := by
  rcases Classical.em (t = .nil) with rfl | ht
  · exact hat.nillColor
  · obtain ⟨c, a, x, b, rfl⟩ := ColorTree.exists_build .left ht
    rw [ptr_build, hat.node, nodeOf_color, ColorTree.color_build]

theorem At.parent_color :
    (h (parentOf rootPtr ctx)).color = ctx.color := by
  cases ctx with
  | nil => exact hat.rootColor
  | cons f ctx => rw [parentOf, hat.parent, nodeOf_color, Context.color]

theorem At.ptr_ne_nill (ht : t ≠ .nil) : ptr nill t ≠ nill := by
  intro heq
  have hout := hat.apart (ptr nill t) (ptr_mem_addrs ht)
  rw [heq] at hout
  exact hout (mem_cons_of_mem _ mem_cons_self)

theorem At.ptr_eq_nill : ptr nill t = nill ↔ t = .nil := by
  constructor
  · intro heq
    rcases Classical.em (t = .nil) with ht | ht
    · exact ht
    · exact absurd heq (hat.ptr_ne_nill ht)
  · rintro rfl
    rfl

theorem At.ptr_ne_rootPtr : ptr nill t ≠ rootPtr := by
  intro heq
  rcases Classical.em (t = .nil) with rfl | ht
  · have := (nodup_cons.mp hat.outer).1
    exact this (heq ▸ mem_cons_self)
  · have hout := hat.apart (ptr nill t) (ptr_mem_addrs ht)
    rw [heq] at hout
    exact hout mem_cons_self

end

theorem At.ptr_ne_sibling (hat : At nill rootPtr h (f :: ctx) t) (hne : t ≠ .nil ∨ f.sibling ≠ .nil) :
    ptr nill t ≠ ptr nill f.sibling := by
  intro heq
  have hout : ∀ z ∈ addrs f.sibling, z ∈ rootPtr :: nill :: ctxAddrs (f :: ctx) := fun z hz =>
    outer_perm.mem_iff.mpr (mem_cons_of_mem _ (mem_append_left _ hz))
  rcases Classical.em (t = .nil) with rfl | ht
  · have hs := hne.resolve_left fun h => h rfl
    have houter := hat.outer
    rw [outer_perm.nodup_iff, nodup_cons, nodup_append] at houter
    have hmem : ptr nill f.sibling ∈ addrs f.sibling := ptr_mem_addrs hs
    exact houter.2.2.2 _ hmem nill
      (mem_cons_of_mem _ mem_cons_self) heq.symm
  · rcases Classical.em (f.sibling = .nil) with hs | hs
    · rw [hs] at heq
      exact hat.ptr_ne_nill ht heq
    · exact hat.apart _ (ptr_mem_addrs ht) (heq ▸ hout _ (ptr_mem_addrs hs))

theorem At.side_eq (hat : At nill rootPtr h (f :: ctx) t) (hne : t ≠ .nil ∨ f.sibling ≠ .nil) :
    (if ptr nill t = (h f.item.address).left then Side.left else .right) = f.side := by
  have hsib := hat.ptr_ne_sibling hne
  obtain ⟨s, c, x, b⟩ := f
  rw [hat.parent]
  cases s with
  | left => exact if_pos rfl
  | right => exact if_neg hsib

theorem At.change {u : ColorTree (Entry K V)} (hat : At nill rootPtr h ctx t)
    (htree : Stored nill h' (parentOf rootPtr ctx) u) (hptr : ptr nill u = ptr nill t)
    (haddrs : (addrs u).Perm (addrs t)) (hsame : ∀ z, z ∉ addrs t → h' z = h z) :
    At nill rootPtr h' ctx u ∧ h' nill = h nill := by
  have hout (z : ℕ) (hz : z ∈ rootPtr :: nill :: ctxAddrs ctx) : h' z = h z :=
    hsame z fun hin => hat.apart z hin hz
  have hnill := hout nill (mem_cons_of_mem _ mem_cons_self)
  refine ⟨⟨htree, ?_, ?_, ?_, haddrs.nodup_iff.mpr hat.nodup, hat.outer, ?_⟩, hnill⟩
  · rw [hptr]
    exact hat.context.congr fun z hz => hout z (mem_outer hz)
  · rw [hout _ mem_cons_self, hat.rootColor]
  · rw [hnill, hat.nillColor]
  · exact fun z hz => hat.apart z (haddrs.mem_iff.mp hz)

theorem At.write {d : Color} {y : Entry K V} (hat : At nill rootPtr h ctx (.build s c a x b))
    (hy : y.address = x.address)
    (hnew : h' x.address = nodeOf s d (parentOf rootPtr ctx) (ptr nill a) (ptr nill b) y)
    (hsame : ∀ z, z ≠ x.address → h' z = h z) :
    At nill rootPtr h' ctx (.build s d a y b) ∧ h' nill = h nill := by
  obtain ⟨-, ha, hb⟩ := stored_build.mp hat.tree
  obtain ⟨hxa, hxb, -⟩ := nodup_addrs_build.mp hat.nodup
  refine hat.change (stored_build.mpr ⟨hy ▸ hnew, ?_, ?_⟩) (by simp [hy]) ?_ fun z hz => hsame z ?_
  · rw [hy]
    exact ha.congr fun z hz => hsame z fun heq => hxa (heq ▸ hz)
  · rw [hy]
    exact hb.congr fun z hz => hsame z fun heq => hxb (heq ▸ hz)
  · refine addrs_build_perm.trans ?_
    rw [hy]
    exact addrs_build_perm.symm
  · rintro rfl
    exact hz (mem_addrs_build.mpr (.inl rfl))

theorem At.setColor (hat : At nill rootPtr h ctx (.build s c a x b)) (d : Color) :
    At nill rootPtr (h.setColor x.address d) ctx (.build s d a x b) ∧
      h.setColor x.address d nill = h nill := by
  refine hat.write rfl ?_ fun z hz => setColor_of_ne _ hz
  rw [setColor_self, hat.node, nodeOf_setColor]

theorem At.setData (hat : At nill rootPtr h ctx (.build s c a x b)) (key : K) (value : V) :
    At nill rootPtr (h.setData x.address key value) ctx (.build s c a ⟨x.address, key, value⟩ b) ∧
      h.setData x.address key value nill = h nill := by
  refine hat.write rfl ?_ fun z hz => setData_of_ne _ _ hz
  rw [setData_self, hat.node]
  cases s <;> rfl

theorem setColor_same {root : ℕ} (hcolor : (h root).color = .black) : h.setColor root .black = h := by
  refine Function.update_eq_self_iff.mpr ?_
  rw [← hcolor]

theorem At.setBlack (hat : At nill rootPtr h ctx t) :
    At nill rootPtr (h.setColor (ptr nill t) .black) ctx (t.setColor .black) := by
  rcases Classical.em (t = .nil) with rfl | ht
  · show At nill rootPtr (h.setColor nill .black) ctx .nil
    rw [setColor_same hat.nillColor]
    exact hat
  · obtain ⟨c, a, x, b, rfl⟩ := ColorTree.exists_build .left ht
    rw [ptr_build, ColorTree.setColor_build]
    exact (hat.setColor .black).1

end Focus

section Whole

variable {nill rootPtr n : ℕ} {h h' : Heap K V} {s : Side} {c : Color} {x : Entry K V}
  {ctx inner outer : Context (Entry K V)} {t a b T : ColorTree (Entry K V)}

theorem addrs_plug (ctx : Context (Entry K V)) (t : ColorTree (Entry K V)) :
    (addrs (ctx.plug t)).Perm (addrs t ++ ctxAddrs ctx) := by
  induction ctx generalizing t with
  | nil => rw [Context.plug_nil, ctxAddrs, List.flatMap_nil, append_nil]
  | cons f ctx ih =>
    refine (ih (f.fill t)).trans ((addrs_build_perm.append_right _).trans ?_)
    rw [ctxAddrs_cons, cons_append, append_assoc]
    exact perm_middle.symm

theorem at_append : At nill rootPtr h (inner ++ outer) t ↔ At nill rootPtr h outer (inner.plug t) := by
  rw [← at_plug, Context.plug_append, at_plug]

theorem At.fresh (hat : At nill rootPtr h [] T) (hn : n ∉ rootPtr :: nill :: addrs T)
    (hsame : ∀ z, z ≠ n → h' z = h z) : At nill rootPtr h' [] T := by
  have hroot : h' rootPtr = h rootPtr := hsame _ fun heq => hn (heq ▸ mem_cons_self)
  refine ⟨hat.tree.congr fun z hz => hsame z ?_, ?_, ?_, ?_, hat.nodup, hat.outer, hat.apart⟩
  · rintro rfl
    exact hn (mem_cons_of_mem _ (mem_cons_of_mem _ hz))
  · exact (congrArg RbNode.left hroot).trans hat.context
  · rw [hroot, hat.rootColor]
  · rw [hsame _ fun heq => hn (heq ▸ mem_cons_of_mem _ mem_cons_self), hat.nillColor]

theorem At.hang (hat : At nill rootPtr h ctx .nil) (hx : x.address ∉ rootPtr :: nill :: ctxAddrs ctx)
    (hnode : h' x.address = nodeOf .left .red (parentOf rootPtr ctx) nill nill x)
    (hnew : h' (parentOf rootPtr ctx)
      = h.setChild (sideOf ctx) (parentOf rootPtr ctx) x.address (parentOf rootPtr ctx))
    (hsame : ∀ z, z ≠ x.address → z ≠ parentOf rootPtr ctx → h' z = h z) :
    At nill rootPtr h' ctx (.node .red .nil x .nil) := by
  have hcolor (z : ℕ) (hz : z ∈ rootPtr :: nill :: ctxAddrs ctx) : (h' z).color = (h z).color := by
    rcases Classical.em (z = parentOf rootPtr ctx) with rfl | hzP
    · rw [hnew, setChild_color]
    · exact congrArg RbNode.color (hsame z (fun heq => hx (heq ▸ hz)) hzP)
  refine ⟨⟨hnode, trivial, trivial⟩, ?_, ?_, ?_, nodup_singleton _, hat.outer, ?_⟩
  · refine hat.context.hang hat.outer hnew fun z hz hzP => hsame z ?_ hzP
    rintro rfl
    exact hx (mem_outer hz)
  · rw [hcolor _ mem_cons_self, hat.rootColor]
  · rw [hcolor _ (mem_cons_of_mem _ mem_cons_self), hat.nillColor]
  · intro z hz
    rw [mem_singleton.mp (show z ∈ [x.address] from hz)]
    exact hx

theorem At.setDataOver (hat : At nill rootPtr h (inner ++ ⟨s, c, x, b⟩ :: ctx) t) (key : K) (value : V) :
    At nill rootPtr (h.setData x.address key value)
        (inner ++ ⟨s, c, ⟨x.address, key, value⟩, b⟩ :: ctx) t ∧
      h.setData x.address key value nill = h nill := by
  obtain ⟨hat', hnil⟩ := (at_append.mp hat).up.setData key value
  exact ⟨at_append.mpr hat'.down, hnil⟩

end Whole

end OpenMPI.Class.RbTree
