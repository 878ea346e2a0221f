import Mathlib.Data.List.Basic

/-!
# Red-black trees

A tree is read at one of its subtrees, as the subtree and the frames over it, from the one next to it
up to the root.  Mirror images are one statement about a side.
-/

namespace OpenMPI.Lib.RedBlack

open List

variable {α : Type*}

inductive Color
  | red
  | black
  deriving DecidableEq, Repr

inductive Side
  | left
  | right
  deriving DecidableEq, Repr

def Side.other : Side → Side
  | left => right
  | right => left

theorem Side.eq_or_other (s t : Side) : t = s ∨ t = s.other := by
  cases s <;> cases t <;> decide

inductive ColorTree (α : Type*)
  | nil
  | node (color : Color) (left : ColorTree α) (item : α) (right : ColorTree α)
  deriving DecidableEq, Repr

namespace ColorTree

def color : ColorTree α → Color
  | nil => .black
  | node c _ _ _ => c

def toList : ColorTree α → List α
  | nil => []
  | node _ l x r => l.toList ++ x :: r.toList

/-- The node with `a` as the child on side `s` and `b` as the other child. -/
def build (s : Side) (c : Color) (a : ColorTree α) (x : α) (b : ColorTree α) : ColorTree α :=
  match s with
  | .left => node c a x b
  | .right => node c b x a

def setColor (c : Color) : ColorTree α → ColorTree α
  | nil => nil
  | node _ l x r => node c l x r

/-- There are `n` black nodes on every path to a leaf, and no red node has a red child. -/
def Balanced : ℕ → ColorTree α → Prop
  | n, nil => n = 0
  | n, node .red l _ r => l.color = .black ∧ r.color = .black ∧ l.Balanced n ∧ r.Balanced n
  | n, node .black l _ r => ∃ m, n = m + 1 ∧ l.Balanced m ∧ r.Balanced m

/-- The colouring rules: a black root, no red node with a red child, and the same number of black
nodes on every path to a leaf. -/
def IsRedBlack (t : ColorTree α) : Prop := t.color = .black ∧ ∃ n, t.Balanced n

variable {s : Side} {c : Color} {n : ℕ} {x : α} {t a b : ColorTree α}

@[simp] theorem color_build : (build s c a x b).color = c := by cases s <;> rfl

theorem build_ne_nil : build s c a x b ≠ nil := by cases s <;> exact fun h => nomatch h

@[simp] theorem setColor_build (d : Color) : (build s c a x b).setColor d = build s d a x b := by
  cases s <;> rfl

theorem build_other : build s.other c a x b = build s c b x a := by cases s <;> rfl

@[simp] theorem toList_setColor : (t.setColor c).toList = t.toList := by cases t <;> rfl

theorem toList_build_nil (s : Side) (c : Color) (a : ColorTree α) (x : α) :
    ∃ before after, (build s c a x nil).toList = before ++ x :: after ∧ a.toList = before ++ after := by
  cases s with
  | left => exact ⟨a.toList, [], rfl, (append_nil _).symm⟩
  | right => exact ⟨[], a.toList, rfl, rfl⟩

theorem exists_build (s : Side) (h : t ≠ nil) : ∃ c a x b, t = build s c a x b := by
  cases t with
  | nil => exact absurd rfl h
  | node c l x r =>
    cases s
    · exact ⟨c, l, x, r, rfl⟩
    · exact ⟨c, r, x, l, rfl⟩

@[simp] theorem balanced_red : (build s .red a x b).Balanced n ↔
    a.color = .black ∧ b.color = .black ∧ a.Balanced n ∧ b.Balanced n := by
  cases s
  · exact Iff.rfl
  · show b.color = _ ∧ a.color = _ ∧ b.Balanced n ∧ a.Balanced n ↔ _
    tauto

theorem balanced_black : (build s .black a x b).Balanced n ↔
    ∃ m, n = m + 1 ∧ a.Balanced m ∧ b.Balanced m := by
  cases s
  · exact Iff.rfl
  · show (∃ m, n = m + 1 ∧ b.Balanced m ∧ a.Balanced m) ↔ _
    simp only [and_comm (a := b.Balanced _)]

@[simp] theorem balanced_black_succ : (build s .black a x b).Balanced (n + 1) ↔
    a.Balanced n ∧ b.Balanced n := by
  rw [balanced_black]
  constructor
  · rintro ⟨m, hm, ha, hb⟩
    obtain rfl : n = m := by omega
    exact ⟨ha, hb⟩
  · rintro ⟨ha, hb⟩
    exact ⟨n, rfl, ha, hb⟩

theorem Balanced.setBlack (h : t.Balanced n) : (t.setColor .black).IsRedBlack := by
  refine ⟨by cases t <;> rfl, ?_⟩
  cases t with
  | nil => exact ⟨n, h⟩
  | node c l x r =>
    cases c with
    | red => exact ⟨n + 1, n, rfl, h.2.2⟩
    | black => exact ⟨n, h⟩

theorem Balanced.ne_nil (h : t.Balanced (n + 1)) : t ≠ nil := by
  rintro rfl
  cases h

end ColorTree

open ColorTree

/-- A node over a subtree, which is its child on side `side`. -/
structure Frame (α : Type*) where
  side : Side
  color : Color
  item : α
  sibling : ColorTree α

namespace Frame

def fill (f : Frame α) (t : ColorTree α) : ColorTree α := build f.side f.color t f.item f.sibling

/-- What stands before the subtree. -/
def before (f : Frame α) : List α :=
  match f.side with
  | .left => []
  | .right => f.sibling.toList ++ [f.item]

/-- What stands behind the subtree. -/
def after (f : Frame α) : List α :=
  match f.side with
  | .left => f.item :: f.sibling.toList
  | .right => []

theorem toList_fill (f : Frame α) (t : ColorTree α) :
    (f.fill t).toList = f.before ++ t.toList ++ f.after := by
  obtain ⟨s, c, x, b⟩ := f
  cases s <;> simp [fill, before, after, build, toList]

end Frame

abbrev Context (α : Type*) := List (Frame α)

namespace Context

def plug : Context α → ColorTree α → ColorTree α
  | [], t => t
  | f :: ctx, t => plug ctx (f.fill t)

/-- The colour of the parent, the one of the root counting as black. -/
def color : Context α → Color
  | [] => .black
  | f :: _ => f.color

def before : Context α → List α
  | [] => []
  | f :: ctx => before ctx ++ f.before

def after : Context α → List α
  | [] => []
  | f :: ctx => f.after ++ after ctx

/-- The rest of the tree keeps the rules over a subtree with `n` black nodes on every path. -/
def Balanced : ℕ → Context α → Prop
  | _, [] => True
  | n, f :: ctx => f.sibling.Balanced n ∧
    match f.color with
    | .red => f.sibling.color = .black ∧ ctx ≠ [] ∧ color ctx = .black ∧ Balanced n ctx
    | .black => Balanced (n + 1) ctx

variable {n : ℕ} {s : Side} {c : Color} {x : α} {t a b : ColorTree α} {f : Frame α} {ctx : Context α}

@[simp] theorem plug_nil : plug [] t = t := rfl

theorem plug_cons : plug (f :: ctx) t = plug ctx (f.fill t) := rfl

theorem plug_append (inner outer : Context α) :
    plug (inner ++ outer) t = plug outer (plug inner t) := by
  induction inner generalizing t with
  | nil => rfl
  | cons f inner ih => exact ih

theorem before_append (inner outer : Context α) :
    before (inner ++ outer) = before outer ++ before inner := by
  induction inner with
  | nil => simp [before]
  | cons f inner ih => simp [before, ih]

theorem after_append (inner outer : Context α) :
    after (inner ++ outer) = after inner ++ after outer := by
  induction inner with
  | nil => rfl
  | cons f inner ih => simp [after, ih]

theorem toList_plug (ctx : Context α) (t : ColorTree α) :
    (plug ctx t).toList = before ctx ++ t.toList ++ after ctx := by
  induction ctx generalizing t with
  | nil => simp [before, after]
  | cons f ctx ih => simp [plug_cons, ih, f.toList_fill, before, after]

theorem toList_plug_congr (ctx : Context α) {t u : ColorTree α} (h : t.toList = u.toList) :
    (plug ctx t).toList = (plug ctx u).toList := by
  rw [toList_plug, toList_plug, h]

@[simp] theorem balanced_red : Balanced n (⟨s, .red, x, b⟩ :: ctx) ↔
    b.Balanced n ∧ b.color = .black ∧ ctx ≠ [] ∧ color ctx = .black ∧ Balanced n ctx := Iff.rfl

@[simp] theorem balanced_black : Balanced n (⟨s, .black, x, b⟩ :: ctx) ↔
    b.Balanced n ∧ Balanced (n + 1) ctx := Iff.rfl

theorem Balanced.plug (hctx : Balanced n ctx) (ht : t.Balanced n)
    (hred : t.color = .red → color ctx = .black) :
    (∃ m, (plug ctx t).Balanced m) ∧ (ctx ≠ [] → (Context.plug ctx t).color = .black) := by
  induction ctx generalizing n t with
  | nil => exact ⟨⟨n, ht⟩, fun h => absurd rfl h⟩
  | cons f ctx ih =>
    obtain ⟨s, c, x, b⟩ := f
    rw [plug_cons, Frame.fill]
    cases c with
    | red =>
      obtain ⟨hb, hbcolor, hne, hcolor, hctx⟩ := hctx
      have htcolor : t.color = .black := by
        rcases h : t.color
        · exact nomatch hred h
        · rfl
      have hf : (build s .red t x b).Balanced n :=
        ColorTree.balanced_red.mpr ⟨htcolor, hbcolor, ht, hb⟩
      have := ih hctx hf fun _ => hcolor
      exact ⟨this.1, fun _ => this.2 hne⟩
    | black =>
      have hf : (build s .black t x b).Balanced (n + 1) := balanced_black_succ.mpr ⟨ht, hctx.1⟩
      have := ih hctx.2 hf fun h => by simp at h
      refine ⟨this.1, fun _ => ?_⟩
      rcases ctx with _ | ⟨g, ctx⟩
      · exact color_build
      · exact this.2 (cons_ne_nil _ _)

theorem of_plug {m : ℕ} (h : (plug ctx t).Balanced m) (hroot : ctx ≠ [] → (plug ctx t).color = .black) :
    ∃ n, Balanced n ctx ∧ t.Balanced n ∧ (ctx ≠ [] → t.color = .red → color ctx = .black) := by
  induction ctx generalizing t with
  | nil => exact ⟨m, trivial, h, fun h => absurd rfl h⟩
  | cons f ctx ih =>
    obtain ⟨s, c, x, b⟩ := f
    rw [plug_cons, Frame.fill] at h hroot
    obtain ⟨n, hctx, hf, hred⟩ := ih h fun _ => hroot (cons_ne_nil _ _)
    cases c with
    | red =>
      obtain ⟨htcolor, hbcolor, ht, hb⟩ := ColorTree.balanced_red.mp hf
      have hne : ctx ≠ [] := by
        rintro rfl
        have := hroot (cons_ne_nil _ _)
        rw [plug_nil, color_build] at this
        cases this
      refine ⟨n, ⟨hb, hbcolor, hne, hred hne color_build, hctx⟩, ht, fun _ hcolor => ?_⟩
      rw [hcolor] at htcolor
      cases htcolor
    | black =>
      obtain ⟨k, rfl, ht, hb⟩ := ColorTree.balanced_black.mp hf
      exact ⟨k, ⟨hb, hctx⟩, ht, fun _ _ => rfl⟩

theorem isRedBlack_of_plug (h : (plug ctx t).IsRedBlack) :
    ∃ n, Balanced n ctx ∧ t.Balanced n ∧ (t.color = .red → ctx ≠ [] ∧ color ctx = .black) := by
  obtain ⟨hcolor, m, hm⟩ := h
  obtain ⟨n, hctx, ht, hred⟩ := Context.of_plug hm fun _ => hcolor
  refine ⟨n, hctx, ht, fun hr => ?_⟩
  have hne : ctx ≠ [] := by
    rintro rfl
    rw [plug_nil, hr] at hcolor
    cases hcolor
  exact ⟨hne, hred hne hr⟩

theorem Balanced.item {inner ctx : Context α} {y : α}
    (h : Balanced n (inner ++ ⟨s, c, x, b⟩ :: ctx)) : Balanced n (inner ++ ⟨s, c, y, b⟩ :: ctx) := by
  induction inner generalizing n with
  | nil => exact h
  | cons f inner ih =>
    obtain ⟨s', c', x', b'⟩ := f
    have hcolor : color (inner ++ ⟨s, c, x, b⟩ :: ctx) = color (inner ++ ⟨s, c, y, b⟩ :: ctx) := by
      cases inner <;> rfl
    cases c' with
    | red =>
      obtain ⟨hb, hbcolor, -, hblack, hrest⟩ := h
      exact ⟨hb, hbcolor, by simp, hcolor ▸ hblack, ih hrest⟩
    | black => exact ⟨h.1, ih h.2⟩

theorem length_le_plug (ctx : Context α) (t : ColorTree α) :
    ctx.length + t.toList.length ≤ (plug ctx t).toList.length := by
  induction ctx generalizing t with
  | nil => simp
  | cons f ctx ih =>
    have := ih (f.fill t)
    have hfill : t.toList.length < (f.fill t).toList.length := by
      obtain ⟨s, c, x, b⟩ := f
      cases s
      · simp [Frame.fill, build, toList]
      · simp [Frame.fill, build, toList]
        omega
    rw [length_cons, plug_cons]
    omega

end Context

section RedHole

variable {n : ℕ} {s s' : Side} {c : Color} {x y z : α} {t a b u p q : ColorTree α} {ctx : Context α}

/-- The tree keeps the rules, except that the parent of the red `t` may be red. -/
def RedHole (ctx : Context α) (t : ColorTree α) : Prop :=
  t.color = .red ∧ ∃ n, Context.Balanced n ctx ∧ t.Balanced n

theorem RedHole.blacken (h : RedHole ctx t) (hcolor : ctx.color = .black) :
    ((ctx.plug t).setColor .black).IsRedBlack := by
  obtain ⟨-, n, hctx, ht⟩ := h
  obtain ⟨⟨m, hm⟩, -⟩ := hctx.plug ht fun _ => hcolor
  exact hm.setBlack

theorem RedHole.grandparent (h : RedHole (⟨s, .red, x, b⟩ :: ctx) t) :
    ∃ f ctx', ctx = f :: ctx' ∧ f.color = .black := by
  obtain ⟨-, n, ⟨-, -, hne, hcolor, -⟩, -⟩ := h
  rcases ctx with _ | ⟨f, ctx⟩
  · exact absurd rfl hne
  · exact ⟨f, ctx, rfl, hcolor⟩

theorem RedHole.recolor (h : RedHole (⟨s, .red, x, b⟩ :: ⟨s', .black, y, u⟩ :: ctx) t)
    (hu : u.color = .red) :
    RedHole ctx (build s' .red (build s .black t x b) y (u.setColor .black)) := by
  obtain ⟨-, n, ⟨hb, -, -, -, hu', hctx⟩, ht⟩ := h
  have hn : (u.setColor .black).Balanced (n + 1) := by
    rcases u with _ | ⟨_ | _, l, v, r⟩
    · cases hu
    · exact ⟨n, rfl, hu'.2.2⟩
    · cases hu
  refine ⟨color_build, n + 1, hctx, ColorTree.balanced_red.mpr ⟨color_build, ?_, ?_, hn⟩⟩
  · cases u <;> rfl
  · exact balanced_black_succ.mpr ⟨ht, hb⟩

theorem RedHole.turn (h : RedHole (⟨s.other, .red, x, b⟩ :: ⟨s, c, y, u⟩ :: ctx) (build s .red p z q)) :
    RedHole (⟨s, .red, z, q⟩ :: ⟨s, c, y, u⟩ :: ctx) (build s .red b x p) := by
  obtain ⟨-, n, ⟨hb, hbcolor, hne, hcolor, hctx⟩, ht⟩ := h
  obtain ⟨hpcolor, hqcolor, hp, hq⟩ := ColorTree.balanced_red.mp ht
  exact ⟨color_build, n, ⟨hq, hqcolor, hne, hcolor, hctx⟩,
    ColorTree.balanced_red.mpr ⟨hbcolor, hpcolor, hb, hp⟩⟩

theorem RedHole.rotate (h : RedHole (⟨s, .red, x, b⟩ :: ⟨s, .black, y, u⟩ :: ctx) t)
    (hu : u.color = .black) :
    (ctx.plug (build s .black t x (build s .red b y u))).IsRedBlack := by
  obtain ⟨-, n, ⟨hb, hbcolor, -, -, hu', hctx⟩, ht⟩ := h
  have hnew : (build s .black t x (build s .red b y u)).Balanced (n + 1) :=
    balanced_black_succ.mpr ⟨ht, ColorTree.balanced_red.mpr ⟨hbcolor, hu, hb, hu'⟩⟩
  obtain ⟨hm, hcolor⟩ := hctx.plug hnew fun h => by simp at h
  refine ⟨?_, hm⟩
  rcases ctx with _ | ⟨f, ctx⟩
  · exact color_build
  · exact hcolor (cons_ne_nil _ _)

end RedHole

section BlackHole

variable {n : ℕ} {s : Side} {c : Color} {x y z : α} {t a b w p q : ColorTree α} {ctx : Context α}

/-- The tree keeps the rules, except that the paths into `t` have a black node too few. -/
def BlackHole (ctx : Context α) (t : ColorTree α) : Prop :=
  ∃ n, Context.Balanced (n + 1) ctx ∧ t.Balanced n

theorem isRedBlack_plug (hctx : Context.Balanced n ctx) (ht : t.Balanced n) (hcolor : t.color = .black) :
    (ctx.plug t).IsRedBlack := by
  obtain ⟨hm, hroot⟩ := hctx.plug ht fun h => by rw [hcolor] at h; cases h
  refine ⟨?_, hm⟩
  rcases ctx with _ | ⟨f, ctx⟩
  · exact hcolor
  · exact hroot (cons_ne_nil _ _)

theorem balanced_setBlack (ht : t.Balanced n) (hcolor : t.color = .red) :
    (t.setColor .black).Balanced (n + 1) := by
  rcases t with _ | ⟨_ | _, l, v, r⟩
  · cases hcolor
  · exact ⟨n, rfl, ht.2.2⟩
  · cases hcolor

theorem color_setColor_black : (t.setColor .black).color = .black := by cases t <;> rfl

theorem BlackHole.blacken (h : BlackHole ctx t) (hcolor : t.color = .red ∨ ctx = []) :
    (ctx.plug (t.setColor .black)).IsRedBlack := by
  obtain ⟨n, hctx, ht⟩ := h
  rcases hcolor with hcolor | rfl
  · exact isRedBlack_plug hctx (balanced_setBlack ht hcolor) color_setColor_black
  · exact ht.setBlack

theorem BlackHole.sibling (h : BlackHole (⟨s, c, x, w⟩ :: ctx) t) (s' : Side) :
    ∃ d p y q, w = build s' d p y q := by
  obtain ⟨n, ⟨hw, -⟩, -⟩ := h
  exact exists_build s' hw.ne_nil

theorem BlackHole.turn (h : BlackHole (⟨s, c, x, build s .red p y q⟩ :: ctx) t) :
    c = .black ∧ BlackHole (⟨s, .red, x, p⟩ :: ⟨s, .black, y, q⟩ :: ctx) t := by
  obtain ⟨n, hctx, ht⟩ := h
  cases c with
  | red =>
    have := hctx.2.1
    rw [color_build] at this
    cases this
  | black =>
    obtain ⟨hpcolor, hqcolor, hp, hq⟩ := ColorTree.balanced_red.mp hctx.1
    exact ⟨rfl, n, ⟨hp, hpcolor, cons_ne_nil _ _, rfl, hq, hctx.2⟩, ht⟩

theorem BlackHole.up (h : BlackHole (⟨s, .black, x, build s .black p y q⟩ :: ctx) t)
    (hp : p.color = .black) (hq : q.color = .black) :
    BlackHole ctx (build s .black t x (build s .red p y q)) := by
  obtain ⟨n, ⟨hw, hctx⟩, ht⟩ := h
  have hpq := balanced_black_succ.mp hw
  exact ⟨n + 1, hctx, balanced_black_succ.mpr ⟨ht, ColorTree.balanced_red.mpr ⟨hp, hq, hpq⟩⟩⟩

theorem BlackHole.upRed (h : BlackHole (⟨s, .red, x, build s .black p y q⟩ :: ctx) t)
    (hp : p.color = .black) (hq : q.color = .black) :
    (ctx.plug (build s .black t x (build s .red p y q))).IsRedBlack := by
  obtain ⟨n, ⟨hw, -, -, -, hctx⟩, ht⟩ := h
  have hpq := balanced_black_succ.mp hw
  exact isRedBlack_plug hctx
    (balanced_black_succ.mpr ⟨ht, ColorTree.balanced_red.mpr ⟨hp, hq, hpq⟩⟩) color_build

theorem BlackHole.far (h : BlackHole (⟨s, c, x, build s .black (build s .red a z b) y q⟩ :: ctx) t)
    (hq : q.color = .black) :
    BlackHole (⟨s, c, x, build s .black a z (build s .red b y q)⟩ :: ctx) t := by
  obtain ⟨n, hctx, ht⟩ := h
  have hw (k : ℕ) (hk : (build s .black (build s .red a z b) y q).Balanced (k + 1)) :
      (build s .black a z (build s .red b y q)).Balanced (k + 1) := by
    obtain ⟨hnear, hfar⟩ := balanced_black_succ.mp hk
    obtain ⟨-, hbcolor, ha, hb⟩ := ColorTree.balanced_red.mp hnear
    exact balanced_black_succ.mpr ⟨ha, ColorTree.balanced_red.mpr ⟨hbcolor, hq, hb, hfar⟩⟩
  cases c with
  | red => exact ⟨n, ⟨hw n hctx.1, color_build, hctx.2.2⟩, ht⟩
  | black => exact ⟨n, ⟨hw n hctx.1, hctx.2⟩, ht⟩

theorem BlackHole.rotate (h : BlackHole (⟨s, c, x, build s .black p y q⟩ :: ctx) t)
    (hq : q.color = .red) :
    (ctx.plug (build s c (build s .black t x p) y (q.setColor .black))).IsRedBlack := by
  obtain ⟨n, hctx, ht⟩ := h
  have hpq := balanced_black_succ.mp hctx.1
  have hleft : (build s .black t x p).Balanced (n + 1) := balanced_black_succ.mpr ⟨ht, hpq.1⟩
  have hright := balanced_setBlack hpq.2 hq
  cases c with
  | red =>
    obtain ⟨-, -, hne, hcolor, hctx⟩ := hctx
    obtain ⟨hm, hroot⟩ := hctx.plug
      (ColorTree.balanced_red.mpr ⟨color_build, color_setColor_black, hleft, hright⟩) fun _ => hcolor
    exact ⟨hroot hne, hm⟩
  | black =>
    exact isRedBlack_plug hctx.2 (balanced_black_succ.mpr ⟨hleft, hright⟩) color_build

end BlackHole

end OpenMPI.Lib.RedBlack
