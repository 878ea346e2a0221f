import OpenMPI.Proofs.Class.RbHeap

/-!
# The colours after an insert and a delete

The loop of `ompi_rb_tree_insert` has one red node whose parent may be red, which it moves up or
takes away by rotations.
-/

namespace OpenMPI.Class.RbTree

open Lib.RedBlack List

variable {K V : Type} {nill rootPtr : ℕ} {h : Heap K V} {s s' : Side} {x y z : Entry K V}
  {ctx : Context (Entry K V)} {t b u p q : ColorTree (Entry K V)}

def outerStep (nill : ℕ) (s : Side) (h : Heap K V) (node : ℕ) : Heap K V :=
  let h := h.setColor (h node).parent .black
  let h := h.setColor (h (h node).parent).parent .red
  h.rotate nill s.other (h (h node).parent).parent

theorem insertStep_recolor
    (hat : At nill rootPtr h (⟨s', .red, x, b⟩ :: ⟨s, .black, y, u⟩ :: ctx) t) (ht : t ≠ .nil)
    (hu : u.color = .red) :
    ∃ h', h.insertStep nill s (ptr nill t) = (h', y.address) ∧
      At nill rootPtr h' ctx (.build s .red (.build s' .black t x b) y (u.setColor .black)) := by
  have hparent : (h (ptr nill t)).parent = x.address := hat.parent_eq ht
  have hgrand : (h x.address).parent = y.address := by
    rw [hat.parent, nodeOf_parent]
    rfl
  have hy : (h y.address).child s.other = ptr nill u := by
    rw [hat.fill.parent, nodeOf_child_other]
  have hucolor : (h (ptr nill u)).color = .red := by
    rw [hat.fill.up.downOther.color_eq, hu]
  obtain ⟨c, l, v, r, rfl⟩ : ∃ c l v r, u = .build s c l v r := by
    refine ColorTree.exists_build s ?_
    rintro rfl
    cases hu
  rw [ptr_build] at hy hucolor
  have h1 := (hat.up.setColor .black).1.up
  have h2 := (h1.downOther.setColor .black).1.upOther
  have hgrand' : (((h.setColor x.address .black).setColor v.address .black) x.address).parent
      = y.address := by
    rw [h2.down.node, nodeOf_parent]
    rfl
  refine ⟨((h.setColor x.address .black).setColor v.address .black).setColor y.address .red, ?_, ?_⟩
  · unfold Heap.insertStep
    dsimp only
    rw [hparent, hgrand, hy, if_pos hucolor, hgrand']
  · rw [ColorTree.setColor_build]
    exact (h2.setColor .red).1

section

variable (hat : At nill rootPtr h (⟨s, .red, x, b⟩ :: ⟨s, .black, y, u⟩ :: ctx) t)

include hat

theorem outerStep_at (ht : t ≠ .nil) :
    At nill rootPtr (outerStep nill s h (ptr nill t)) (⟨s, .black, x, .build s .red b y u⟩ :: ctx) t := by
  have hparent : (h (ptr nill t)).parent = x.address := hat.parent_eq ht
  have h1 := (hat.up.setColor .black).1
  have hparent' : ((h.setColor x.address .black) (ptr nill t)).parent = x.address :=
    h1.down.parent_eq ht
  have hgrand : ((h.setColor x.address .black) x.address).parent = y.address := by
    rw [h1.node, nodeOf_parent]
    rfl
  have h2 := (h1.up.setColor .red).1
  have hparent'' : (((h.setColor x.address .black).setColor y.address .red) (ptr nill t)).parent
      = x.address := h2.down.down.parent_eq ht
  have hgrand' : (((h.setColor x.address .black).setColor y.address .red) x.address).parent
      = y.address := by
    rw [h2.down.node, nodeOf_parent]
    rfl
  unfold outerStep
  dsimp only
  rw [hparent, hparent', hgrand, hparent'', hgrand']
  -- seen from the other side the parent is the child to rotate up
  rw [← ColorTree.build_other (s := s) (a := u), ← ColorTree.build_other (s := s) (a := b)] at h2
  have h3 := (h2.rotate).1
  rw [ColorTree.build_other, ColorTree.build_other] at h3
  exact h3.down

theorem insertStep_outer (ht : t ≠ .nil) (hu : u.color = .black) :
    h.insertStep nill s (ptr nill t) = (outerStep nill s h (ptr nill t), ptr nill t) := by
  have hparent : (h (ptr nill t)).parent = x.address := hat.parent_eq ht
  have hgrand : (h x.address).parent = y.address := by
    rw [hat.parent, nodeOf_parent]
    rfl
  have hy : (h y.address).child s.other = ptr nill u := by
    rw [hat.fill.parent, nodeOf_child_other]
  have hucolor : (h (ptr nill u)).color ≠ .red := by
    rw [hat.fill.up.downOther.color_eq, hu]
    decide
  have hinner : ptr nill t ≠ (h x.address).child s.other := by
    rw [hat.parent, nodeOf_child_other]
    exact hat.ptr_ne_sibling (.inl ht)
  unfold Heap.insertStep outerStep
  dsimp only
  rw [hparent, hgrand, hy, if_neg hucolor, if_neg hinner, if_neg hinner, hparent]

end

theorem insertStep_inner
    (hat : At nill rootPtr h (⟨s.other, .red, x, b⟩ :: ⟨s, .black, y, u⟩ :: ctx) (.build s .red p z q))
    (hu : u.color = .black) :
    At nill rootPtr (h.rotate nill s x.address)
        (⟨s, .red, z, q⟩ :: ⟨s, .black, y, u⟩ :: ctx) (.build s .red b x p) ∧
      h.insertStep nill s z.address = (outerStep nill s (h.rotate nill s x.address) x.address, x.address) := by
  have hnode := hat.node
  have hparent : (h z.address).parent = x.address := by
    rw [hnode, nodeOf_parent]
    rfl
  have hgrand : (h x.address).parent = y.address := by
    rw [hat.parent, nodeOf_parent]
    rfl
  have hy : (h y.address).child s.other = ptr nill u := by
    rw [hat.fill.parent, nodeOf_child_other]
  have hucolor : (h (ptr nill u)).color ≠ .red := by
    rw [hat.fill.up.downOther.color_eq, hu]
    decide
  have hinner : z.address = (h x.address).child s.other := by
    rw [hat.parent, nodeOf_child, ptr_build]
  have hup := hat.up
  rw [ColorTree.build_other] at hup
  refine ⟨hup.rotate.1.down, ?_⟩
  unfold Heap.insertStep outerStep
  dsimp only
  rw [hparent, hgrand, hy, if_neg hucolor, if_pos hinner, if_pos hinner]

theorem insertFixup_exit (hat : At nill rootPtr h ctx t) (ht : t ≠ .nil) (hcolor : ctx.color = .black)
    (fuel : ℕ) : Heap.insertFixup nill (fuel + 1) h (ptr nill t) = some h := by
  unfold Heap.insertFixup
  dsimp only
  rw [hat.parent_eq ht, hat.parent_color, hcolor]
  exact if_neg (by decide)

/-- The loop leaves a tree with the same items that keeps the rules, but for the colour of its
root. -/
theorem insertFixup_spec (fuel : ℕ) (hat : At nill rootPtr h ctx t) (hred : RedHole ctx t)
    (hfuel : ctx.length < fuel) :
    ∃ h' T, Heap.insertFixup nill fuel h (ptr nill t) = some h' ∧ At nill rootPtr h' [] T ∧
      (T.setColor .black).IsRedBlack ∧ T.toList = (ctx.plug t).toList := by
  induction fuel generalizing h ctx t with
  | zero => omega
  | succ fuel ih =>
    have ht : t ≠ .nil := by
      rintro rfl
      cases hred.1
    rcases hcolor : ctx.color
    case black =>
      exact ⟨h, _, insertFixup_exit hat ht hcolor fuel, at_plug.mpr hat, hred.blacken hcolor, rfl⟩
    case red =>
      rcases ctx with _ | ⟨⟨s', c, x, b⟩, ctx⟩
      · cases hcolor
      obtain rfl : c = .red := hcolor
      obtain ⟨⟨s, c, y, u⟩, ctx, rfl, rfl⟩ := hred.grandparent
      rw [length_cons, length_cons] at hfuel
      have hgrand : (h x.address).parent = y.address := by
        rw [hat.parent, nodeOf_parent]
        rfl
      have hside : (if x.address = (h y.address).left then Side.left else .right) = s := by
        have := hat.fill.side_eq (.inl ColorTree.build_ne_nil)
        rwa [Frame.fill, ptr_build] at this
      have hround : Heap.insertFixup nill (fuel + 1) h (ptr nill t)
          = Heap.insertFixup nill fuel (h.insertStep nill s (ptr nill t)).1
              (h.insertStep nill s (ptr nill t)).2 := by
        rw [Heap.insertFixup]
        dsimp only
        rw [hat.parent_eq ht, hat.parent_color, if_pos (show Context.color _ = .red from rfl)]
        rw [show parentOf rootPtr _ = x.address from rfl, hgrand, hside]
      rw [hround]
      rcases hu : u.color
      case red =>
        -- the grandparent is the next red node
        obtain ⟨h', hstep, hat'⟩ := insertStep_recolor hat ht hu
        obtain ⟨h'', T, hloop, hT, hrb, hlist⟩ := ih hat' (hred.recolor hu) (by omega)
        rw [ptr_build] at hloop
        refine ⟨h'', T, by rw [hstep]; exact hloop, hT, hrb, hlist.trans ?_⟩
        refine Context.toList_plug_congr ctx ?_
        cases s <;> cases s' <;> simp [Frame.fill, ColorTree.build, ColorTree.toList]
      case black =>
        obtain ⟨fuel, rfl⟩ : ∃ k, fuel = k + 1 := ⟨fuel - 1, by omega⟩
        -- what is left to do for an outer node
        have hlast {h : Heap K V} {x : Entry K V} {t b : ColorTree (Entry K V)} (ht : t ≠ .nil)
            (hat : At nill rootPtr h (⟨s, .red, x, b⟩ :: ⟨s, .black, y, u⟩ :: ctx) t)
            (hred : RedHole (⟨s, .red, x, b⟩ :: ⟨s, .black, y, u⟩ :: ctx) t) :
            ∃ h' T, Heap.insertFixup nill (fuel + 1) (outerStep nill s h (ptr nill t)) (ptr nill t)
                = some h' ∧ At nill rootPtr h' [] T ∧ (T.setColor .black).IsRedBlack ∧
              T.toList = (Context.plug (⟨s, .red, x, b⟩ :: ⟨s, .black, y, u⟩ :: ctx) t).toList := by
          have hat' := outerStep_at hat ht
          have hrb := hred.rotate hu
          obtain ⟨n, hn⟩ := hrb.2
          refine ⟨_, _, insertFixup_exit hat' ht rfl fuel, at_plug.mpr hat', hn.setBlack, ?_⟩
          refine Context.toList_plug_congr ctx ?_
          cases s <;> simp [Frame.fill, ColorTree.build, ColorTree.toList]
        rcases Side.eq_or_other s s' with rfl | rfl
        · rw [insertStep_outer hat ht hu]
          exact hlast ht hat hred
        · obtain ⟨c, p, z, q, rfl⟩ := ColorTree.exists_build s ht
          obtain rfl : c = .red := ColorTree.color_build.symm.trans hred.1
          obtain ⟨hat', hstep⟩ := insertStep_inner hat hu
          obtain ⟨h', T, hloop, hT, hrb, hlist⟩ := hlast ColorTree.build_ne_nil hat' hred.turn
          rw [ptr_build] at hloop
          rw [ptr_build, hstep]
          refine ⟨h', T, hloop, hT, hrb, hlist.trans ?_⟩
          refine Context.toList_plug_congr ctx ?_
          cases s <;> simp [Frame.fill, ColorTree.build, ColorTree.toList, Side.other]

end OpenMPI.Class.RbTree

/-!
## The colours after a delete

The loop of `btree_delete_fixup` has one subtree whose paths lack a black node.
-/

namespace OpenMPI.Class.RbTree

open Lib.RedBlack List

variable {K V : Type} {nill rootPtr root : ℕ} {h : Heap K V} {s : Side} {c : Color} {x y z : Entry K V}
  {ctx : Context (Entry K V)} {t w a b p q : ColorTree (Entry K V)}

/-- The memory holds the tree, and the parent of the subtree is known at the sentinel as well. -/
structure Hooked (nill rootPtr : ℕ) (h : Heap K V) (ctx : Context (Entry K V)) (t : ColorTree (Entry K V)) :
    Prop extends At nill rootPtr h ctx t where
  hook : t = .nil → (h nill).parent = parentOf rootPtr ctx

theorem Hooked.parent (hat : Hooked nill rootPtr h ctx t) :
    (h (ptr nill t)).parent = parentOf rootPtr ctx := by
  rcases Classical.em (t = .nil) with rfl | ht
  · exact hat.hook rfl
  · exact hat.parent_eq ht

def turnStep (nill : ℕ) (s : Side) (h : Heap K V) (x : ℕ) : Heap K V :=
  let w := (h (h x).parent).child s.other
  if (h w).color = .red then
    let h := (h.setColor w .black).setColor (h x).parent .red
    h.rotate nill s (h x).parent
  else h

def nearStep (nill : ℕ) (s : Side) (h : Heap K V) (x : ℕ) : Heap K V :=
  let w := (h (h x).parent).child s.other
  if (h ((h w).child s.other)).color = .black then
    let h := (h.setColor ((h w).child s) .black).setColor w .red
    h.rotate nill s.other w
  else h

def farStep (nill : ℕ) (s : Side) (h : Heap K V) (x : ℕ) : Heap K V :=
  let w := (h (h x).parent).child s.other
  let h := h.setColor w (h (h x).parent).color
  let h := h.setColor (h x).parent .black
  let h := h.setColor ((h w).child s.other) .black
  h.rotate nill s (h x).parent

def blackStep (nill root : ℕ) (s : Side) (h : Heap K V) (x : ℕ) : Heap K V × ℕ :=
  let w := (h (h x).parent).child s.other
  if (h ((h w).child s)).color = .black ∧ (h ((h w).child s.other)).color = .black then
    (h.setColor w .red, (h x).parent)
  else (farStep nill s (nearStep nill s h x) x, root)

theorem deleteStep_eq (h : Heap K V) (x : ℕ) :
    h.deleteStep nill root s x = blackStep nill root s (turnStep nill s h x) x := by
  have hturn : (if (h ((h (h x).parent).child s.other)).color = .red then
      ((turnStep nill s h x) ((turnStep nill s h x) x).parent).child s.other
      else (h (h x).parent).child s.other)
        = ((turnStep nill s h x) ((turnStep nill s h x) x).parent).child s.other := by
    split_ifs with hred
    · rfl
    · unfold turnStep
      dsimp only
      rw [if_neg hred]
  unfold Heap.deleteStep
  dsimp only
  rw [show (if (h ((h (h x).parent).child s.other)).color = .red then
    (((h.setColor ((h (h x).parent).child s.other) .black).setColor (h x).parent .red).rotate nill s
      (((h.setColor ((h (h x).parent).child s.other) .black).setColor (h x).parent .red) x).parent)
    else h) = turnStep nill s h x from rfl, hturn]
  generalize turnStep nill s h x = h
  have hnear : (if (h ((h ((h (h x).parent).child s.other)).child s.other)).color = .black then
      ((nearStep nill s h x) ((nearStep nill s h x) x).parent).child s.other
      else (h (h x).parent).child s.other)
        = ((nearStep nill s h x) ((nearStep nill s h x) x).parent).child s.other := by
    split_ifs with hblack
    · rfl
    · unfold nearStep
      dsimp only
      rw [if_neg hblack]
  rw [show (if (h ((h ((h (h x).parent).child s.other)).child s.other)).color = .black then
    ((h.setColor ((h ((h (h x).parent).child s.other)).child s) .black).setColor
      ((h (h x).parent).child s.other) .red).rotate nill s.other ((h (h x).parent).child s.other)
    else h) = nearStep nill s h x from rfl, hnear]
  rfl

theorem Hooked.sibling (hat : Hooked nill rootPtr h (⟨s, c, x, w⟩ :: ctx) t) :
    (h (h (ptr nill t)).parent).child s.other = ptr nill w := by
  rw [hat.parent, parentOf, hat.toAt.parent, nodeOf_child_other]

theorem turnStep_red (hat : Hooked nill rootPtr h (⟨s, .black, x, .build s .red p y q⟩ :: ctx) t) :
    Hooked nill rootPtr (turnStep nill s h (ptr nill t)) (⟨s, .red, x, p⟩ :: ⟨s, .black, y, q⟩ :: ctx) t := by
  have hparent : (h (ptr nill t)).parent = x.address := hat.parent
  have hw : (h x.address).child s.other = y.address := by
    rw [hat.toAt.parent, nodeOf_child_other, ptr_build]
  have hred : (h y.address).color = .red := by
    rw [hat.up.downOther.node, nodeOf_color]
  obtain ⟨h1, hnil1⟩ := hat.up.downOther.setColor .black
  obtain ⟨h2, hnil2⟩ := h1.upOther.setColor .red
  have hat2 : Hooked nill rootPtr ((h.setColor y.address .black).setColor x.address .red)
      (⟨s, .red, x, .build s .black p y q⟩ :: ctx) t := by
    refine ⟨h2.down, fun ht => ?_⟩
    rw [hnil2, hnil1]
    exact hat.hook ht
  have hparent2 : (((h.setColor y.address .black).setColor x.address .red) (ptr nill t)).parent
      = x.address := hat2.parent
  obtain ⟨h3, hnil3⟩ := h2.rotate
  unfold turnStep
  dsimp only
  rw [hparent, hw, if_pos hred, hparent2]
  refine ⟨h3.down.down, fun ht => ?_⟩
  rw [hnil3]
  exact hat2.hook ht

theorem turnStep_black (hat : Hooked nill rootPtr h (⟨s, c, x, .build s .black p y q⟩ :: ctx) t) :
    turnStep nill s h (ptr nill t) = h := by
  unfold turnStep
  dsimp only
  rw [hat.sibling, ptr_build, hat.up.downOther.node, nodeOf_color]
  exact if_neg (by decide)

theorem nearStep_red
    (hat : Hooked nill rootPtr h (⟨s, c, x, .build s .black (.build s .red a z b) y q⟩ :: ctx) t)
    (hq : q.color = .black) :
    Hooked nill rootPtr (nearStep nill s h (ptr nill t))
      (⟨s, c, x, .build s .black a z (.build s .red b y q)⟩ :: ctx) t := by
  have hnode := hat.up.downOther.node
  have hfar : (h ((h y.address).child s.other)).color = .black := by
    rw [hnode, nodeOf_child_other, hat.up.downOther.downOther.color_eq, hq]
  have hnear : (h y.address).child s = z.address := by rw [hnode, nodeOf_child, ptr_build]
  obtain ⟨h1, hnil1⟩ := hat.up.downOther.down.setColor .black
  obtain ⟨h2, hnil2⟩ := h1.up.setColor .red
  have h2' := h2
  rw [← ColorTree.build_other (s := s) (a := q), ← ColorTree.build_other (s := s) (a := b)] at h2'
  obtain ⟨h3, hnil3⟩ := h2'.rotate
  rw [ColorTree.build_other, ColorTree.build_other] at h3
  unfold nearStep
  dsimp only
  rw [hat.sibling, ptr_build, if_pos hfar, hnear]
  refine ⟨h3.upOther.down, fun ht => ?_⟩
  rw [hnil3, hnil2, hnil1]
  exact hat.hook ht

section

variable (hat : Hooked nill rootPtr h (⟨s, c, x, .build s .black p y q⟩ :: ctx) t)

include hat

theorem nearStep_far (hq : q.color = .red) : nearStep nill s h (ptr nill t) = h := by
  unfold nearStep
  dsimp only
  rw [hat.sibling, ptr_build, hat.up.downOther.node, nodeOf_child_other,
    hat.up.downOther.downOther.color_eq, hq]
  exact if_neg (by decide)

theorem farStep_at (hq : q.color = .red) :
    At nill rootPtr (farStep nill s h (ptr nill t)) ctx
      (.build s c (.build s .black t x p) y (q.setColor .black)) := by
  obtain ⟨d, l, v, r, rfl⟩ : ∃ d l v r, q = .build s d l v r := by
    refine ColorTree.exists_build s ?_
    rintro rfl
    cases hq
  have hparent : (h (ptr nill t)).parent = x.address := hat.parent
  have hcolor : (h x.address).color = c := by rw [hat.toAt.parent, nodeOf_color]
  obtain ⟨h1, hnil1⟩ := hat.up.downOther.setColor c
  have hparent1 : (h.setColor y.address c (ptr nill t)).parent = x.address := by
    have hat1 : Hooked nill rootPtr (h.setColor y.address c)
        (⟨s, c, x, .build s c p y (.build s d l v r)⟩ :: ctx) t := by
      refine ⟨h1.upOther.down, fun ht => ?_⟩
      rw [hnil1]
      exact hat.hook ht
    exact hat1.parent
  obtain ⟨h2, hnil2⟩ := h1.upOther.setColor .black
  have hfar : (((h.setColor y.address c).setColor x.address .black) y.address).child s.other
      = v.address := by
    rw [h2.downOther.node, nodeOf_child_other, ptr_build]
  obtain ⟨h3, hnil3⟩ := h2.downOther.downOther.setColor .black
  have hparent3 : ((((h.setColor y.address c).setColor x.address .black).setColor v.address .black)
      (ptr nill t)).parent = x.address := by
    have hat3 : Hooked nill rootPtr
        (((h.setColor y.address c).setColor x.address .black).setColor v.address .black)
        (⟨s, .black, x, .build s c p y (.build s .black l v r)⟩ :: ctx) t := by
      refine ⟨h3.upOther.upOther.down, fun ht => ?_⟩
      rw [hnil3, hnil2, hnil1]
      exact hat.hook ht
    exact hat3.parent
  unfold farStep
  dsimp only
  rw [hat.sibling, ptr_build, hparent, hcolor, hparent1, hfar, hparent3, ColorTree.setColor_build]
  exact h3.upOther.upOther.rotate.1

end

theorem ptr_plug_congr (hctx : ctx ≠ []) (t u : ColorTree (Entry K V)) :
    ptr nill (ctx.plug t) = ptr nill (ctx.plug u) := by
  induction ctx generalizing t u with
  | nil => exact absurd rfl hctx
  | cons f ctx ih =>
    rcases ctx with _ | ⟨g, ctx⟩
    · exact ptr_build.trans ptr_build.symm
    · exact ih (cons_ne_nil _ _) _ _

theorem ptr_plug_mem (hctx : ctx ≠ []) (t : ColorTree (Entry K V)) : ptr nill (ctx.plug t) ∈ ctxAddrs ctx := by
  induction ctx generalizing t with
  | nil => exact absurd rfl hctx
  | cons f ctx ih =>
    rw [ctxAddrs_cons]
    rcases ctx with _ | ⟨g, ctx⟩
    · rw [Context.plug_cons, Context.plug_nil, Frame.fill, ptr_build]
      exact mem_cons_self
    · exact mem_cons_of_mem _ (mem_append_right _ (ih (cons_ne_nil _ _) _))

theorem deleteLoop_exit (fuel : ℕ) {x : ℕ} (hx : x = root ∨ (h x).color = .red) :
    Heap.deleteLoop nill root (fuel + 1) h x = some (h.setColor x .black) := by
  unfold Heap.deleteLoop
  refine if_neg ?_
  rintro ⟨hne, hcolor⟩
  rcases hx with hx | hx
  · exact hne hx
  · rw [hx] at hcolor
    cases hcolor

theorem toList_far (s : Side) (c d e : Color) (t p q : ColorTree (Entry K V)) (x y : Entry K V) :
    (ColorTree.build s c (.build s d t x p) y q).toList = (ColorTree.build s c t x (.build s e p y q)).toList := by
  cases s <;> simp [ColorTree.build, ColorTree.toList]

theorem blackStep_spec (hat : Hooked nill rootPtr h (⟨s, c, x, .build s .black p y q⟩ :: ctx) t)
    (hhole : BlackHole (⟨s, c, x, .build s .black p y q⟩ :: ctx) t)
    (hroot : x.address = root ∨ ∀ u, ptr nill (ctx.plug u) = root) :
    (p.color = .black ∧ q.color = .black ∧ ∃ h', blackStep nill root s h (ptr nill t) = (h', x.address) ∧
      At nill rootPtr h' ctx (.build s c t x (.build s .red p y q))) ∨
    ∃ h' T, blackStep nill root s h (ptr nill t) = (h', root) ∧ (h' root).color = .black ∧
      At nill rootPtr h' [] T ∧ T.IsRedBlack ∧
      T.toList = (ctx.plug (.build s c t x (.build s .black p y q))).toList := by
  have hpcolor : (h ((h y.address).child s)).color = p.color := by
    rw [hat.up.downOther.node, nodeOf_child, hat.up.downOther.down.color_eq]
  have hqcolor : (h ((h y.address).child s.other)).color = q.color := by
    rw [hat.up.downOther.node, nodeOf_child_other, hat.up.downOther.downOther.color_eq]
  -- the last step, once the far child of the sibling is red
  have hlast {h : Heap K V} {y : Entry K V} {p q : ColorTree (Entry K V)}
      (hat : Hooked nill rootPtr h (⟨s, c, x, .build s .black p y q⟩ :: ctx) t)
      (hhole : BlackHole (⟨s, c, x, .build s .black p y q⟩ :: ctx) t) (hq : q.color = .red) :
      ∃ T, (farStep nill s h (ptr nill t) root).color = .black ∧
        At nill rootPtr (farStep nill s h (ptr nill t)) [] T ∧ T.IsRedBlack ∧
        T.toList = (ctx.plug (.build s c t x (.build s .black p y q))).toList := by
    have hfar := farStep_at hat hq
    have hrb := hhole.rotate hq
    refine ⟨_, ?_, at_plug.mpr hfar, hrb, ?_⟩
    · rcases hroot with rfl | hroot
      · rw [hfar.down.node, nodeOf_color]
      · rw [← hroot (.build s c (.build s .black t x p) y (q.setColor .black)),
          (at_plug.mpr hfar).color_eq, hrb.1]
    · refine Context.toList_plug_congr ctx ((toList_far s c .black .black ..).trans ?_)
      cases s <;> simp [ColorTree.build, ColorTree.toList]
  unfold blackStep
  dsimp only
  rw [hat.sibling, ptr_build, hpcolor, hqcolor]
  rcases hq : q.color
  case red =>
    rw [if_neg fun h => by cases h.2]
    rw [nearStep_far hat hq]
    obtain ⟨T, hT⟩ := hlast hat hhole hq
    exact .inr ⟨_, T, rfl, hT⟩
  case black =>
    rcases hp : p.color
    case black =>
      rw [if_pos ⟨rfl, rfl⟩]
      refine .inl ⟨rfl, rfl, _, Prod.ext rfl hat.parent, ?_⟩
      exact (hat.up.downOther.setColor .red).1.upOther
    case red =>
      obtain ⟨d, a, z, b, rfl⟩ : ∃ d a z b, p = .build s d a z b := by
        refine ColorTree.exists_build s ?_
        rintro rfl
        cases hp
      obtain rfl : d = .red := ColorTree.color_build.symm.trans hp
      rw [if_neg fun h => by cases h.1]
      obtain ⟨T, hblack, hT, hrb, hlist⟩ := hlast (nearStep_red hat hq) (hhole.far hq) ColorTree.color_build
      refine .inr ⟨_, T, rfl, hblack, hT, hrb, hlist.trans (Context.toList_plug_congr ctx ?_)⟩
      cases s <;> simp [ColorTree.build, ColorTree.toList]

theorem deleteLoop_spec (fuel : ℕ) (hat : Hooked nill rootPtr h ctx t) (hhole : BlackHole ctx t)
    (hroot : ptr nill (ctx.plug t) = root) (hfuel : ctx.length < fuel) :
    ∃ h' T, Heap.deleteLoop nill root fuel h (ptr nill t) = some h' ∧ At nill rootPtr h' [] T ∧
      T.IsRedBlack ∧ T.toList = (ctx.plug t).toList := by
  induction fuel generalizing h ctx t with
  | zero => omega
  | succ fuel ih =>
    rcases Classical.em (ctx = [] ∨ t.color = .red) with hexit | hgo
    · have hx : ptr nill t = root ∨ (h (ptr nill t)).color = .red := by
        rw [hat.toAt.color_eq]
        refine hexit.imp_left ?_
        rintro rfl
        exact hroot
      refine ⟨_, _, deleteLoop_exit fuel hx, at_plug.mpr hat.setBlack, hhole.blacken hexit.symm, ?_⟩
      exact Context.toList_plug_congr ctx ColorTree.toList_setColor
    · rw [not_or] at hgo
      obtain ⟨hctx, hcolor⟩ := hgo
      have hblack : t.color = .black := by
        rcases h : t.color
        · exact absurd h hcolor
        · rfl
      have hne : ptr nill t ≠ root := by
        intro heq
        have hmem : root ∈ ctxAddrs ctx := hroot ▸ ptr_plug_mem hctx t
        rcases Classical.em (t = .nil) with rfl | ht
        · have := (nodup_cons.mp (nodup_cons.mp hat.outer).2).1
          exact this (by rwa [show nill = root from heq])
        · exact hat.apart root (heq ▸ ptr_mem_addrs ht)
            (mem_cons_of_mem _ (mem_cons_of_mem _ hmem))
      rcases ctx with _ | ⟨⟨s, c, x, w⟩, ctx⟩
      · exact absurd rfl hctx
      obtain ⟨d, p, y, q, rfl⟩ := hhole.sibling s
      rw [length_cons] at hfuel
      obtain ⟨fuel, rfl⟩ : ∃ k, fuel = k + 1 := ⟨fuel - 1, by omega⟩
      have hside : (if ptr nill t = (h (h (ptr nill t)).parent).left then Side.left else .right) = s := by
        rw [hat.parent]
        exact hat.toAt.side_eq (.inr ColorTree.build_ne_nil)
      have hround : Heap.deleteLoop nill root (fuel + 1 + 1) h (ptr nill t)
          = Heap.deleteLoop nill root (fuel + 1)
              (blackStep nill root s (turnStep nill s h (ptr nill t)) (ptr nill t)).1
              (blackStep nill root s (turnStep nill s h (ptr nill t)) (ptr nill t)).2 := by
        rw [Heap.deleteLoop, if_pos ⟨hne, by rw [hat.toAt.color_eq, hblack]⟩]
        dsimp only
        rw [hside, deleteStep_eq]
      have hrootx : x.address = root ∨ ∀ u, ptr nill (Context.plug ctx u) = root := by
        rcases Classical.em (ctx = []) with rfl | hctx
        · refine .inl (Eq.trans ?_ hroot)
          exact ptr_build.symm
        · exact .inr fun u => (ptr_plug_congr hctx u _).trans hroot
      rw [hround]
      cases d with
      | black =>
        rw [turnStep_black hat]
        rcases blackStep_spec hat hhole hrootx with
          ⟨hp, hq, h', hstep, hat'⟩ | ⟨h', T, hstep, hcolor, hT, hrb, hlist⟩
        · rw [hstep]
          cases c with
          | red =>
            have hx : x.address = root ∨ (h' x.address).color = .red :=
              .inr (by rw [hat'.node, nodeOf_color])
            refine ⟨_, _, deleteLoop_exit fuel hx, ?_, hhole.upRed hp hq, ?_⟩
            · exact at_plug.mpr (hat'.setColor .black).1
            · refine Context.toList_plug_congr ctx ?_
              cases s <;> simp [Frame.fill, ColorTree.build, ColorTree.toList]
          | black =>
            have hat'' : Hooked nill rootPtr h' ctx (.build s .black t x (.build s .red p y q)) :=
              ⟨hat', fun h => absurd h ColorTree.build_ne_nil⟩
            have hroot' : ptr nill (Context.plug ctx (.build s .black t x (.build s .red p y q))) = root := by
              rcases Classical.em (ctx = []) with rfl | hctx
              · exact ptr_build.trans (ptr_build.symm.trans hroot)
              · exact (ptr_plug_congr hctx _ _).trans hroot
            obtain ⟨h'', T, hloop, hT, hrb, hlist⟩ := ih hat'' (hhole.up hp hq) hroot' (by omega)
            rw [ptr_build] at hloop
            refine ⟨h'', T, hloop, hT, hrb, hlist.trans (Context.toList_plug_congr ctx ?_)⟩
            cases s <;> simp [Frame.fill, ColorTree.build, ColorTree.toList]
        · rw [hstep]
          refine ⟨_, T, deleteLoop_exit fuel (.inl rfl), ?_, hrb, hlist⟩
          rw [setColor_same hcolor]
          exact hT
      | red =>
        obtain ⟨rfl, hhole'⟩ := hhole.turn
        have hturn := turnStep_red hat
        obtain ⟨e, p₁, z, p₂, rfl⟩ := hhole'.sibling s
        obtain rfl : e = .black := by
          obtain ⟨n, ⟨-, hcolor, -⟩, -⟩ := hhole'
          exact ColorTree.color_build.symm.trans hcolor
        have hrootx' : x.address = root ∨
            ∀ u, ptr nill (Context.plug (⟨s, .black, y, q⟩ :: ctx) u) = root := by
          rcases Classical.em (ctx = []) with rfl | hctx
          · exact .inl (ptr_build.symm.trans hroot)
          · exact .inr fun u => (ptr_plug_congr hctx _ _).trans hroot
        have hlist' : (Context.plug (⟨s, .black, x, .build s .red (.build s .black p₁ z p₂) y q⟩ :: ctx)
            t).toList = (Context.plug (⟨s, .red, x, .build s .black p₁ z p₂⟩ :: ⟨s, .black, y, q⟩ :: ctx)
            t).toList := by
          refine Context.toList_plug_congr ctx ?_
          exact (toList_far s .black .red .red ..).symm
        rcases blackStep_spec hturn hhole' hrootx' with
          ⟨hp, hq, h', hstep, hat'⟩ | ⟨h', T, hstep, hcolor, hT, hrb, hlist⟩
        · rw [hstep]
          have hx : x.address = root ∨ (h' x.address).color = .red :=
            .inr (by rw [hat'.node, nodeOf_color])
          refine ⟨_, _, deleteLoop_exit fuel hx, ?_, hhole'.upRed hp hq, ?_⟩
          · exact at_plug.mpr (hat'.setColor .black).1
          · rw [hlist']
            refine Context.toList_plug_congr (⟨s, .black, y, q⟩ :: ctx) ?_
            cases s <;> simp [Frame.fill, ColorTree.build, ColorTree.toList]
        · rw [hstep]
          refine ⟨_, T, deleteLoop_exit fuel (.inl rfl), ?_, hrb, hlist.trans hlist'.symm⟩
          rw [setColor_same hcolor]
          exact hT

end OpenMPI.Class.RbTree
