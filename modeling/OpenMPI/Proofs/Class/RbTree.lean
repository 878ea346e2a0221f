import OpenMPI.Lib.Run
import OpenMPI.Proofs.Class.RbColours

/-!
# The red-black tree is a multimap

After any calls on an initialised tree the nodes make a tree that keeps the search order and the
colouring rules.  An insert adds an entry, a delete takes one with the key out, a find answers one with
the key.
-/

namespace OpenMPI.Class.RbTree

open Lib.RedBlack List Function Option

variable {K V : Type}

/-- The comparison orders the keys, and answers 0 for keys that are the same to it. -/
structure Comparison (comp : K → K → ℤ) : Prop where
  swap : ∀ a b, comp a b ≤ 0 ↔ 0 ≤ comp b a
  trans : ∀ a b c, comp a b ≤ 0 → comp b c ≤ 0 → comp a c ≤ 0

def Sorted (comp : K → K → ℤ) (l : List (Entry K V)) : Prop :=
  l.Pairwise fun a b => comp a.key b.key ≤ 0

/-- The nodes of the tree are those of `T`, and the others are in the free list. -/
structure Represents (t : RbTree K V) (T : ColorTree (Entry K V)) : Prop where
  stored : At t.nill t.rootPtr t.heap [] T
  colours : T.IsRedBlack
  sorted : Sorted t.comp T.toList
  size : t.treeSize = T.toList.length
  free : (t.freeList.items ++ t.rootPtr :: t.nill :: addrs T).Nodup
  allocated : ∀ a ∈ t.freeList.items ++ t.rootPtr :: t.nill :: addrs T, a ≤ t.freeList.numAllocated

def items (T : ColorTree (Entry K V)) : List (K × V) := T.toList.map fun e => (e.key, e.value)

/-- What a call answers over the entries `l`, and the entries `l'` after it. -/
def Answers (comp : K → K → ℤ) : Call K V → Answer V → List (K × V) → List (K × V) → Prop
  | .insert key value memory, r, l, l' =>
    r = .status .success ∧ l'.Perm ((key, value) :: l) ∨
      memory = false ∧ r = .status .tempOutOfResource ∧ l' = l
  | .delete key, r, l, l' =>
    (∃ e ∈ l, comp key e.1 = 0 ∧ r = .status .success ∧ l.Perm (e :: l')) ∨
      (∀ e ∈ l, comp key e.1 ≠ 0) ∧ r = .status .notFound ∧ l' = l
  | .find key, r, l, l' =>
    l' = l ∧ ((∃ e ∈ l, comp key e.1 = 0 ∧ r = .value (some e.2)) ∨
      (∀ e ∈ l, comp key e.1 ≠ 0) ∧ r = .value none)

namespace Comparison

variable {comp : K → K → ℤ} (hcomp : Comparison comp) {key : K} {x y : Entry K V}
include hcomp

theorem right_of_neg (hx : comp key x.key < 0) (hxy : comp x.key y.key ≤ 0) : comp key y.key < 0 := by
  by_contra hy
  have hyk := (hcomp.swap y.key key).mpr (Int.not_lt.mp hy)
  have := (hcomp.swap x.key key).mp (hcomp.trans _ _ _ hxy hyk)
  omega

theorem left_of_pos (hx : 0 < comp key x.key) (hyx : comp y.key x.key ≤ 0) : 0 < comp key y.key := by
  by_contra hy
  have := hcomp.trans _ _ _ (Int.not_lt.mp hy) hyx
  omega

end Comparison

section Search

variable {nill rootPtr : ℕ} {h : Heap K V} {comp : K → K → ℤ} {key : K} {c : Color} {e : Entry K V}
  {ctx : Context (Entry K V)} {l r t : ColorTree (Entry K V)}

theorem length_toList_node : (ColorTree.node c l e r).toList.length
    = l.toList.length + r.toList.length + 1 := by
  simp [ColorTree.toList]
  omega

theorem sorted_node : Sorted comp (ColorTree.node c l e r).toList ↔
    Sorted comp l.toList ∧ Sorted comp r.toList ∧ (∀ a ∈ l.toList, comp a.key e.key ≤ 0) ∧
      (∀ b ∈ r.toList, comp e.key b.key ≤ 0) ∧
      ∀ a ∈ l.toList, ∀ b ∈ r.toList, comp a.key b.key ≤ 0 := by
  unfold Sorted
  rw [ColorTree.toList, pairwise_append, pairwise_cons]
  constructor
  · rintro ⟨hl, ⟨her, hr⟩, hlr⟩
    exact ⟨hl, hr, fun a ha => hlr a ha e mem_cons_self, her,
      fun a ha b hb => hlr a ha b (mem_cons_of_mem _ hb)⟩
  · rintro ⟨hl, hr, hle, her, hlr⟩
    refine ⟨hl, ⟨her, hr⟩, fun a ha b hb => ?_⟩
    rcases mem_cons.mp hb with rfl | hb
    · exact hle a ha
    · exact hlr a ha b hb

section

variable (hat : At nill rootPtr h ctx (.node c l e r))

include hat

theorem At.left :
    At nill rootPtr h (⟨.left, c, e, r⟩ :: ctx) l := At.down (s := .left) hat

theorem At.right :
    At nill rootPtr h (⟨.right, c, e, l⟩ :: ctx) r := At.down (s := .right) hat

theorem At.cell :
    h e.address = nodeOf .left c (parentOf rootPtr ctx) (ptr nill l) (ptr nill r) e :=
  At.node (s := .left) hat

end

theorem findLoop_spec (t : RbTree K V) (hcomp : Comparison comp) (key : K) (T : ColorTree (Entry K V))
    (fuel : ℕ) (hat : At t.nill rootPtr t.heap ctx T) (hsorted : Sorted comp T.toList)
    (hfuel : T.toList.length < fuel) :
    (∃ (ctx' : Context (Entry K V)) (c : Color) (l : ColorTree (Entry K V)) (e : Entry K V)
      (r : ColorTree (Entry K V)), t.findLoop comp key fuel (ptr t.nill T) = some (some e.address) ∧
      ctx'.plug (.node c l e r) = ctx.plug T ∧ e ∈ T.toList ∧ comp key e.key = 0) ∨
    t.findLoop comp key fuel (ptr t.nill T) = some none ∧ ∀ e ∈ T.toList, comp key e.key ≠ 0 := by
  obtain ⟨fuel, rfl⟩ : ∃ k, fuel = k + 1 := ⟨fuel - 1, by omega⟩
  induction T generalizing ctx fuel with
  | nil =>
    refine .inr ⟨?_, fun e he => nomatch he⟩
    unfold findLoop
    exact if_neg fun h => h rfl
  | node c l e r ihl ihr =>
    rw [length_toList_node] at hfuel
    obtain ⟨hl, hr, hle, her, -⟩ := sorted_node.mp hsorted
    have hne : ptr t.nill (.node c l e r) ≠ t.nill := hat.ptr_ne_nill fun h => nomatch h
    have hmem (x : Entry K V) : x ∈ (ColorTree.node c l e r).toList ↔ x ∈ l.toList ∨ x = e ∨ x ∈ r.toList := by
      rw [ColorTree.toList, mem_append, mem_cons]
    have hcell : t.heap (ptr t.nill (.node c l e r)) = _ := hat.cell
    obtain ⟨fuel, rfl⟩ : ∃ k, fuel = k + 1 := ⟨fuel - 1, by omega⟩
    unfold findLoop
    rw [if_pos hne, hcell, nodeOf_key]
    dsimp only
    rcases Int.lt_trichotomy (comp key e.key) 0 with hlt | heq | hgt
    · rw [if_neg (by omega), if_pos hlt]
      have hnot (x : Entry K V) (hx : x = e ∨ x ∈ r.toList) : comp key x.key ≠ 0 := by
        rcases hx with rfl | hx
        · omega
        · have := hcomp.right_of_neg hlt (her x hx)
          omega
      rcases ihl hat.left hl fuel (by omega) with
        ⟨ctx', c', l', e', r', hfind, hplug, he', hcomp'⟩ | ⟨hfind, hno⟩
      · exact .inl ⟨ctx', c', l', e', r', hfind, hplug, (hmem e').mpr (.inl he'), hcomp'⟩
      · refine .inr ⟨hfind, fun x hx => ?_⟩
        rcases (hmem x).mp hx with hx | hx
        · exact hno x hx
        · exact hnot x hx
    · rw [if_pos heq]
      exact .inl ⟨ctx, c, l, e, r, rfl, rfl, (hmem e).mpr (.inr (.inl rfl)), heq⟩
    · rw [if_neg (by omega), if_neg (by omega)]
      have hnot (x : Entry K V) (hx : x ∈ l.toList ∨ x = e) : comp key x.key ≠ 0 := by
        rcases hx with hx | rfl
        · have := hcomp.left_of_pos hgt (hle x hx)
          omega
        · omega
      rcases ihr hat.right hr fuel (by omega) with
        ⟨ctx', c', l', e', r', hfind, hplug, he', hcomp'⟩ | ⟨hfind, hno⟩
      · exact .inl ⟨ctx', c', l', e', r', hfind, hplug, (hmem e').mpr (.inr (.inr he')), hcomp'⟩
      · refine .inr ⟨hfind, fun x hx => ?_⟩
        rcases (hmem x).mp hx with hx | hx | hx
        · exact hnot x (.inl hx)
        · exact hnot x (.inr hx)
        · exact hno x hx

theorem findLeaf_spec (t : RbTree K V) (hcomp : Comparison t.comp) (key : K) (T : ColorTree (Entry K V))
    (fuel : ℕ) (hat : At t.nill t.rootPtr h ctx T) (hsorted : Sorted t.comp T.toList)
    (hbefore : ∀ e ∈ ctx.before, 0 < t.comp key e.key) (hafter : ∀ e ∈ ctx.after, t.comp key e.key ≤ 0)
    (hfuel : T.toList.length < fuel) :
    ∃ ctx' : Context (Entry K V), findLeaf h t key fuel (parentOf t.rootPtr ctx) (ptr t.nill T)
        = some (parentOf t.rootPtr ctx') ∧ ctx'.plug .nil = ctx.plug T ∧
      (∀ e ∈ ctx'.before, 0 < t.comp key e.key) ∧ ∀ e ∈ ctx'.after, t.comp key e.key ≤ 0 := by
  obtain ⟨fuel, rfl⟩ : ∃ k, fuel = k + 1 := ⟨fuel - 1, by omega⟩
  induction T generalizing ctx fuel with
  | nil =>
    refine ⟨ctx, ?_, rfl, hbefore, hafter⟩
    unfold findLeaf
    exact if_neg fun h => h rfl
  | node c l e r ihl ihr =>
    rw [length_toList_node] at hfuel
    obtain ⟨hl, hr, hle, her, -⟩ := sorted_node.mp hsorted
    have hne : ptr t.nill (.node c l e r) ≠ t.nill := hat.ptr_ne_nill fun h => nomatch h
    have hcell : h (ptr t.nill (.node c l e r)) = _ := hat.cell
    obtain ⟨fuel, rfl⟩ : ∃ k, fuel = k + 1 := ⟨fuel - 1, by omega⟩
    unfold findLeaf
    rw [if_pos hne, hcell, nodeOf_key]
    split_ifs with hcmp
    · refine ihl hat.left hl (fun x hx => ?_) (fun x hx => ?_) fuel (by omega)
      · rw [Context.before, Frame.before, append_nil] at hx
        exact hbefore x hx
      · rw [Context.after, Frame.after, cons_append, mem_cons, mem_append] at hx
        rcases hx with rfl | hx | hx
        · exact hcmp
        · exact hcomp.trans _ _ _ hcmp (her x hx)
        · exact hafter x hx
    · rw [Int.not_le] at hcmp
      refine ihr hat.right hr (fun x hx => ?_) (fun x hx => ?_) fuel (by omega)
      · rw [Context.before, Frame.before, mem_append, mem_append, mem_singleton] at hx
        rcases hx with hx | hx | rfl
        · exact hbefore x hx
        · exact hcomp.left_of_pos hcmp (hle x hx)
        · exact hcmp
      · rw [Context.after, Frame.after, nil_append] at hx
        exact hafter x hx

theorem successorDown_spec (t : RbTree K V) (T : ColorTree (Entry K V)) (fuel : ℕ)
    (hat : At t.nill rootPtr t.heap ctx T) (hT : T ≠ .nil) (hfuel : T.toList.length ≤ fuel) :
    ∃ (inner : Context (Entry K V)) (c : Color) (e : Entry K V) (r : ColorTree (Entry K V)),
      t.successorDown fuel (ptr t.nill T) = some e.address ∧ inner.plug (.node c .nil e r) = T ∧
        inner.before = [] := by
  induction T generalizing ctx fuel with
  | nil => exact absurd rfl hT
  | node c l e r ihl ihr =>
    rw [length_toList_node] at hfuel
    obtain ⟨fuel, rfl⟩ : ∃ k, fuel = k + 1 := ⟨fuel - 1, by omega⟩
    have hcell : t.heap (ptr t.nill (.node c l e r)) = _ := hat.cell
    unfold successorDown
    rw [hcell]
    show ∃ _ _ _ _, (if ptr t.nill l ≠ t.nill then _ else _) = _ ∧ _
    split_ifs with hl
    · have hlne : l ≠ .nil := fun h => hl (h ▸ rfl)
      obtain ⟨inner, c', e', r', hfind, hplug, hbefore⟩ := ihl fuel hat.left hlne (by omega)
      refine ⟨inner ++ [⟨.left, c, e, r⟩], c', e', r', hfind, ?_, ?_⟩
      · rw [Context.plug_append, hplug]
        rfl
      · rw [Context.before_append, hbefore]
        rfl
    · obtain rfl : l = .nil := hat.left.ptr_eq_nill.mp (Classical.not_not.mp hl)
      exact ⟨[], c, e, r, rfl, rfl, rfl⟩

end Search

theorem get_spec (fl : FreeList) (used : List ℕ) (memory : Bool)
    (hnodup : (fl.items ++ used).Nodup) (halloc : ∀ a ∈ fl.items ++ used, a ≤ fl.numAllocated) :
    (∃ a fl', fl.get memory = (some a, fl') ∧ (fl'.items ++ a :: used).Nodup ∧
      ∀ b ∈ fl'.items ++ a :: used, b ≤ fl'.numAllocated) ∨
    memory = false ∧ fl.get memory = (none, fl) := by
  have hpop (fl : FreeList) (hne : fl.items ≠ []) (hnodup : (fl.items ++ used).Nodup)
      (halloc : ∀ a ∈ fl.items ++ used, a ≤ fl.numAllocated) :
      ∃ a fl', fl.pop = (some a, fl') ∧ (fl'.items ++ a :: used).Nodup ∧
        ∀ b ∈ fl'.items ++ a :: used, b ≤ fl'.numAllocated := by
    obtain ⟨items, n⟩ := fl
    rcases items with _ | ⟨a, items⟩
    · exact absurd rfl hne
    · have hperm : (items ++ a :: used).Perm (a :: items ++ used) := perm_middle
      exact ⟨a, ⟨items, n⟩, rfl, hperm.nodup_iff.mpr hnodup, fun b hb => halloc b (hperm.mem_iff.mp hb)⟩
  unfold FreeList.get
  split_ifs with hempty
  · cases memory with
    | false =>
      refine .inr ⟨rfl, ?_⟩
      show fl.pop = _
      unfold FreeList.pop
      rw [hempty]
    | true =>
      rw [hempty, nil_append] at hnodup halloc
      refine .inl (hpop _ ?_ ?_ ?_)
      · intro h
        have := congrArg List.length h
        simp [FreeList.grow, FreeList.numPerAlloc] at this
      · simp only [FreeList.grow, hempty, append_nil, if_true]
        refine nodup_append.mpr ⟨?_, hnodup, fun a ha b hb heq => ?_⟩
        · exact nodup_reverse.mpr nodup_range'
        · have := halloc b hb
          rw [mem_reverse, mem_range'_1] at ha
          omega
      · intro a ha
        simp only [FreeList.grow, hempty, append_nil, if_true] at ha ⊢
        rcases mem_append.mp ha with ha | ha
        · rw [mem_reverse, mem_range'_1] at ha
          omega
        · exact Nat.le_trans (halloc a ha) (Nat.le_add_right _ _)
  · exact .inl (hpop fl hempty hnodup halloc)

section Insert

variable {t : RbTree K V} {T : ColorTree (Entry K V)} {n : ℕ} {key : K} {value : V}

theorem btreeInsert_spec (hcomp : Comparison t.comp) (fuel : ℕ)
    (hat : At t.nill t.rootPtr t.heap [] T) (hsorted : Sorted t.comp T.toList)
    (hn : n ∉ t.rootPtr :: t.nill :: addrs T) (hkey : (t.heap n).key = key)
    (hvalue : (t.heap n).value = value) (hfuel : T.toList.length < fuel) :
    ∃ (h : Heap K V) (ctx : Context (Entry K V)),
      t.btreeInsert fuel n = some { t with heap := h, treeSize := t.treeSize + 1 } ∧
      At t.nill t.rootPtr h ctx (.node .red .nil ⟨n, key, value⟩ .nil) ∧ ctx.plug .nil = T ∧
      (∀ e ∈ ctx.before, 0 < t.comp key e.key) ∧ ∀ e ∈ ctx.after, t.comp key e.key ≤ 0 := by
  unfold btreeInsert
  dsimp only
  generalize hh : (((t.heap.setColor n .red).setParent n 0).setChild .left n t.nill).setChild .right n t.nill
    = h
  have hhn : h n = nodeOf .left .red 0 t.nill t.nill ⟨n, key, value⟩ := by
    simp [← hh, Heap.setColor, Heap.setParent, Heap.setChild, nodeOf, hkey, hvalue]
  have hhz (z : ℕ) (hz : z ≠ n) : h z = t.heap z := by
    rw [← hh, setChild_of_ne _ _ hz, setChild_of_ne _ _ hz, setParent_of_ne _ hz, setColor_of_ne _ hz]
  have hat' := hat.fresh hn hhz
  obtain ⟨ctx, hleaf, hplug, hbefore, hafter⟩ := findLeaf_spec t hcomp key T fuel hat' hsorted
    (fun e he => by cases he) (fun e he => by cases he) hfuel
  rw [Context.plug_nil] at hplug
  rw [show (h t.rootPtr).left = ptr t.nill T from hat'.context, hhn, nodeOf_key]
  dsimp only
  rw [show findLeaf h t key fuel t.rootPtr (ptr t.nill T) = _ from hleaf, map_some]
  have hctx : At t.nill t.rootPtr h ctx .nil := at_plug.mp (hplug ▸ hat')
  have hout : n ∉ t.rootPtr :: t.nill :: ctxAddrs ctx := by
    intro hin
    refine hn ?_
    rw [mem_cons, mem_cons] at hin ⊢
    refine hin.imp_right fun hin => hin.imp_right fun hin => ?_
    rw [← hplug, (addrs_plug ctx .nil).mem_iff]
    exact mem_append_right _ hin
  have hne : parentOf t.rootPtr ctx ≠ n := fun heq => hout (heq ▸ mem_outer parentOf_mem)
  have hside : (if parentOf t.rootPtr ctx = t.rootPtr ∨
      t.comp key (h (parentOf t.rootPtr ctx)).key ≤ 0 then Side.left else .right) = sideOf ctx := by
    rcases ctx with _ | ⟨⟨s, c, x, b⟩, ctx⟩
    · exact if_pos (.inl rfl)
    · have hroot : x.address ≠ t.rootPtr := by
        have := hctx.fill.ptr_ne_rootPtr
        rwa [Frame.fill, ptr_build] at this
      rw [parentOf, hctx.parent, nodeOf_key]
      cases s with
      | left =>
        refine if_pos (.inr (hafter x ?_))
        rw [Context.after, Frame.after]
        exact mem_cons_self
      | right =>
        refine if_neg fun h => h.elim hroot fun hle => ?_
        have := hbefore x (by rw [Context.before, Frame.before]; simp)
        omega
  rw [hside]
  refine ⟨_, ctx, rfl, ?_, hplug, hbefore, hafter⟩
  generalize hP : parentOf t.rootPtr ctx = P at *
  refine hctx.hang hout ?_ ?_ fun z hzn hzP => ?_
  · simp [Heap.setParent, Heap.setChild, nodeOf, update_of_ne hne.symm, hhn, hP]
  · rw [hP, setChild_of_ne _ _ hne, setChild_of_ne _ _ hne, setParent_of_ne _ hne]
  · rw [hP] at hzP
    rw [setChild_of_ne _ _ hzn, setChild_of_ne _ _ hzn, setParent_of_ne _ hzn, setChild_of_ne _ _ hzP]

theorem sorted_insert (hcomp : Comparison t.comp) {before after : List (Entry K V)} {e : Entry K V}
    (hsorted : Sorted t.comp (before ++ after)) (hbefore : ∀ a ∈ before, 0 < t.comp e.key a.key)
    (hafter : ∀ b ∈ after, t.comp e.key b.key ≤ 0) : Sorted t.comp (before ++ e :: after) := by
  obtain ⟨hb, ha, hba⟩ := pairwise_append.mp hsorted
  refine pairwise_append.mpr ⟨hb, pairwise_cons.mpr ⟨hafter, ha⟩, fun a haa b hbb => ?_⟩
  rcases mem_cons.mp hbb with rfl | hbb
  · exact (hcomp.swap _ _).mpr (Int.le_of_lt (hbefore a haa))
  · exact hba a haa b hbb

theorem Represents.insert (hrep : Represents t T) (hcomp : Comparison t.comp) (key : K) (value : V)
    (memory : Bool) (fuel : ℕ) (hfuel : T.toList.length < fuel) :
    ∃ r t' T', t.insert fuel key value memory = some (r, t') ∧ t'.Represents T' ∧ t'.comp = t.comp ∧
      T'.toList.length ≤ T.toList.length + 1 ∧
      Answers t.comp (.insert key value memory) (.status r) (items T) (items T') := by
  rcases get_spec t.freeList (t.rootPtr :: t.nill :: addrs T) memory hrep.free hrep.allocated with
    ⟨n, fl, hget, hfree, halloc⟩ | ⟨hmemory, hget⟩
  · have hn : n ∉ t.rootPtr :: t.nill :: addrs T :=
      (nodup_cons.mp (nodup_append.mp hfree).2.1).1
    have hat : At t.nill t.rootPtr (t.heap.setData n key value) [] T :=
      hrep.stored.fresh hn fun z hz => setData_of_ne _ _ hz
    obtain ⟨h, ctx, hbtree, hhang, hplug, hbefore, hafter⟩ :=
      btreeInsert_spec (t := { t with freeList := fl, heap := t.heap.setData n key value })
        hcomp fuel hat hrep.sorted hn (congrArg RbNode.key (setData_self key value))
        (congrArg RbNode.value (setData_self key value)) hfuel
    obtain ⟨m, hctx, hm, -⟩ := Context.isRedBlack_of_plug (hplug ▸ hrep.colours)
    obtain rfl : m = 0 := hm
    have hred : RedHole ctx (.node .red .nil (⟨n, key, value⟩ : Entry K V) .nil) :=
      ⟨rfl, 0, hctx, rfl, rfl, rfl, rfl⟩
    have hlength := Context.length_le_plug ctx (.nil : ColorTree (Entry K V))
    rw [hplug] at hlength
    obtain ⟨h', T', hloop, hat', hrb, hlist⟩ := insertFixup_spec fuel hhang hred (by omega)
    have hT : T.toList = ctx.before ++ ctx.after := by
      rw [← hplug, Context.toList_plug]
      simp [ColorTree.toList]
    have hT' : (T'.setColor .black).toList = ctx.before ++ ⟨n, key, value⟩ :: ctx.after := by
      rw [ColorTree.toList_setColor, hlist, Context.toList_plug]
      simp [ColorTree.toList]
    have hperm : (T'.setColor .black).toList.Perm (⟨n, key, value⟩ :: T.toList) := by
      rw [hT', hT]
      exact perm_middle
    have haddrs : (addrs (T'.setColor .black)).Perm (n :: addrs T) := hperm.map Entry.address
    have hused : (fl.items ++ t.rootPtr :: t.nill :: addrs (T'.setColor .black)).Perm
        (fl.items ++ n :: t.rootPtr :: t.nill :: addrs T) := by
      refine List.Perm.append_left _ (((haddrs.cons _).cons _).trans ?_)
      exact ((List.Perm.swap _ _ _).cons _).trans (List.Perm.swap _ _ _)
    have hcall : t.insert fuel key value memory = some (.success, { t with
        heap := h'.setColor (h' t.rootPtr).left .black
        freeList := fl
        treeSize := t.treeSize + 1 }) := by
      unfold RbTree.insert
      rw [hget]
      dsimp only
      rw [hbtree, bind_some]
      dsimp only
      rw [show Heap.insertFixup t.nill fuel h n = some h' from hloop, map_some]
    refine ⟨_, _, T'.setColor .black, hcall, ⟨?_, hrb, ?_, ?_, ?_, ?_⟩, rfl, ?_, .inl ⟨rfl, ?_⟩⟩
    · show At t.nill t.rootPtr (h'.setColor (h' t.rootPtr).left .black) [] _
      rw [show (h' t.rootPtr).left = ptr t.nill T' from hat'.context]
      exact hat'.setBlack
    · rw [hT']
      exact sorted_insert hcomp (hT ▸ hrep.sorted) hbefore hafter
    · rw [hperm.length_eq, length_cons]
      exact congrArg (· + 1) hrep.size
    · exact hused.nodup_iff.mpr hfree
    · exact fun a ha => halloc a (hused.mem_iff.mp ha)
    · exact Nat.le_of_eq hperm.length_eq
    · exact hperm.map fun e => (e.key, e.value)
  · refine ⟨.tempOutOfResource, t, T, ?_, hrep, rfl, Nat.le_succ _, .inr ⟨hmemory, rfl, rfl⟩⟩
    unfold RbTree.insert
    rw [hget]

end Insert

section Delete

variable {t : RbTree K V} {T : ColorTree (Entry K V)} {s : Side} {c : Color} {x e : Entry K V} {p : ℕ}
  {h : Heap K V} {ctx : Context (Entry K V)} {b : ColorTree (Entry K V)}

/-- A node with one child at most is taken out, and the child hangs in its place. -/
theorem unlink_spec (hat : At t.nill t.rootPtr t.heap ctx (.build s c b x .nil)) (p : ℕ) :
    ∃ h, t.unlink p x.address = (if x.address ≠ p then h.setData p x.key x.value else h, ptr t.nill b) ∧
      Hooked t.nill t.rootPtr h ctx b ∧ (h x.address).color = c := by
  obtain ⟨hX, hb, -⟩ := stored_build.mp hat.tree
  obtain ⟨hxb, -, hbnodup, -, -⟩ := nodup_addrs_build.mp hat.nodup
  have hy : (if (t.heap x.address).left = t.nill then (t.heap x.address).right
      else (t.heap x.address).left) = ptr t.nill b := by
    rw [hX]
    cases s with
    | left =>
      show (if ptr t.nill b = t.nill then t.nill else ptr t.nill b) = _
      split_ifs with hnil
      · exact hnil.symm
      · rfl
    | right => exact if_pos rfl
  have hbout : ∀ z ∈ addrs b, z ∉ t.rootPtr :: t.nill :: ctxAddrs ctx := fun z hz =>
    hat.apart z (mem_addrs_build.mpr (.inr (.inl hz)))
  have hxout := hat.apart x.address (mem_addrs_build.mpr (.inl rfl))
  have hPmem : parentOf t.rootPtr ctx ∈ t.rootPtr :: ctxAddrs ctx := parentOf_mem
  -- the child is another node or the sentinel
  have hptr (z : ℕ) (hz : z ∈ t.rootPtr :: ctxAddrs ctx ∨ z = x.address) : z ≠ ptr t.nill b := by
    rintro rfl
    have hroot := nodup_cons.mp hat.outer
    have hnill := (nodup_cons.mp hroot.2).1
    rcases Classical.em (b = .nil) with rfl | hbne
    · rcases hz with hz | hz
      · rcases mem_cons.mp hz with heq | hz
        · exact hroot.1 (heq ▸ mem_cons_self)
        · exact hnill hz
      · exact hxout (hz ▸ mem_cons_of_mem _ mem_cons_self)
    · have hmem : ptr t.nill b ∈ addrs b := ptr_mem_addrs hbne
      rcases hz with hz | hz
      · exact hbout _ hmem (mem_outer hz)
      · exact hxb (hz ▸ hmem)
  have hPb := hptr _ (.inl hPmem)
  have hxP : x.address ≠ parentOf t.rootPtr ctx := fun heq => hxout (heq ▸ mem_outer hPmem)
  have hparent : (t.heap x.address).parent = parentOf t.rootPtr ctx := by rw [hX, nodeOf_parent]
  unfold unlink
  dsimp only
  rw [hy, hparent]
  generalize hh1 : t.heap.setParent (ptr t.nill b) (parentOf t.rootPtr ctx) = h1
  have h1z (z : ℕ) (hz : z ≠ ptr t.nill b) : h1 z = t.heap z := by rw [← hh1, setParent_of_ne _ hz]
  have h1b : h1 (ptr t.nill b) = { t.heap (ptr t.nill b) with parent := parentOf t.rootPtr ctx } := by
    rw [← hh1, setParent_self]
  have h1x : h1 x.address = t.heap x.address := h1z _ (hptr _ (.inr rfl))
  have hctx := hat.context
  rw [ptr_build] at hctx
  have h2 : (if (h1 (ptr t.nill b)).parent = t.rootPtr then h1.setChild .left t.rootPtr (ptr t.nill b)
      else if x.address = (h1 (h1 x.address).parent).left
        then h1.setChild .left (h1 x.address).parent (ptr t.nill b)
        else h1.setChild .right (h1 x.address).parent (ptr t.nill b))
      = h1.setChild (sideOf ctx) (parentOf t.rootPtr ctx) (ptr t.nill b) := by
    rw [h1b, h1x, hparent]
    dsimp only
    rcases ctx with _ | ⟨f, ctx⟩
    · exact if_pos rfl
    · have hroot : parentOf t.rootPtr (f :: ctx) ≠ t.rootPtr := by
        have := hat.fill.ptr_ne_rootPtr
        rwa [Frame.fill, ptr_build] at this
      have hside := hctx.side_eq hxout
      rw [if_neg hroot, h1z _ hPb, ← hside]
      split_ifs <;> rfl
  rw [h2]
  have h2z (z : ℕ) (hzb : z ≠ ptr t.nill b) (hzP : z ≠ parentOf t.rootPtr ctx) :
      h1.setChild (sideOf ctx) (parentOf t.rootPtr ctx) (ptr t.nill b) z = t.heap z := by
    rw [setChild_of_ne _ _ hzP, h1z z hzb]
  have h2b : h1.setChild (sideOf ctx) (parentOf t.rootPtr ctx) (ptr t.nill b) (ptr t.nill b)
      = { t.heap (ptr t.nill b) with parent := parentOf t.rootPtr ctx } := by
    rw [setChild_of_ne _ _ hPb.symm, h1b]
  have h2x : h1.setChild (sideOf ctx) (parentOf t.rootPtr ctx) (ptr t.nill b) x.address
      = t.heap x.address := h2z _ (hptr _ (.inr rfl)) hxP
  have hcolor (z : ℕ) :
      (h1.setChild (sideOf ctx) (parentOf t.rootPtr ctx) (ptr t.nill b) z).color = (t.heap z).color := by
    rw [setChild_color]
    rcases Classical.em (z = ptr t.nill b) with rfl | hz
    · rw [h1b]
    · rw [h1z z hz]
  refine ⟨_, by rw [h2x, hX, nodeOf_key, nodeOf_value], ⟨⟨?_, ?_, ?_, ?_, hbnodup, hat.outer, hbout⟩, ?_⟩, ?_⟩
  · refine hb.reparent hbnodup (fun _ => h2b) fun z hz hzb => h2z z hzb ?_
    rintro rfl
    exact hbout _ hz (mem_outer hPmem)
  · refine hctx.hang hat.outer ?_ fun z hz hzP => h2z z (hptr z (.inl hz)) hzP
    unfold Heap.setChild
    rw [update_self, update_self, h1z _ hPb]
  · rw [hcolor, hat.rootColor]
  · rw [hcolor, hat.nillColor]
  · rintro rfl
    exact congrArg RbNode.parent h2b
  · rw [hcolor, hX, nodeOf_color]

theorem deleteRest_spec (fuel : ℕ) {todelete n : ℕ} (hat : Hooked t.nill t.rootPtr h ctx b)
    (hcolor : (h todelete).color = c) (hctx : Context.Balanced n ctx)
    (hnode : (ColorTree.build s c b x .nil).Balanced n) (hfuel : ctx.length < fuel) :
    ∃ h' T', (if (h todelete).color = .black then h.deleteFixup t.nill t.rootPtr fuel (ptr t.nill b)
        else some h) = some h' ∧
      At t.nill t.rootPtr h' [] T' ∧ T'.IsRedBlack ∧ T'.toList = (ctx.plug b).toList := by
  rw [hcolor]
  cases c with
  | red =>
    obtain ⟨hbcolor, -, hb, -⟩ := ColorTree.balanced_red.mp hnode
    exact ⟨h, _, rfl, at_plug.mpr hat.toAt, isRedBlack_plug hctx hb hbcolor, rfl⟩
  | black =>
    obtain ⟨m, rfl, hb, -⟩ := ColorTree.balanced_black.mp hnode
    exact deleteLoop_spec fuel hat ⟨m, hctx, hb⟩ (at_plug.mpr hat.toAt).context.symm hfuel

structure Removed (T T' : ColorTree (Entry K V)) (e : Entry K V) (todelete : ℕ) : Prop where
  entries : ∃ before after, items T = before ++ (e.key, e.value) :: after ∧ items T' = before ++ after
  addresses : (addrs T).Perm (todelete :: addrs T')

theorem removeNode_spec {l r : ColorTree (Entry K V)} (hcolours : T.IsRedBlack) (fuel : ℕ)
    (hat : At t.nill t.rootPtr t.heap ctx (.node c l e r)) (hplug : ctx.plug (.node c l e r) = T)
    (hfuel : T.toList.length < fuel) :
    ∃ todelete h T', (if (t.heap e.address).left = t.nill ∨ (t.heap e.address).right = t.nill
        then some e.address else t.btreeSuccessor fuel e.address) = some todelete ∧
      (if ((t.unlink e.address todelete).1 todelete).color = .black
        then (t.unlink e.address todelete).1.deleteFixup t.nill t.rootPtr fuel
          (t.unlink e.address todelete).2
        else some (t.unlink e.address todelete).1) = some h ∧
      At t.nill t.rootPtr h [] T' ∧ T'.IsRedBlack ∧ Removed T T' e todelete := by
  have hleft : (t.heap e.address).left = ptr t.nill l := by rw [hat.cell]; rfl
  have hright : (t.heap e.address).right = ptr t.nill r := by rw [hat.cell]; rfl
  have hlength := Context.length_le_plug ctx (.node c l e r)
  rw [hplug, length_toList_node] at hlength
  rw [hleft, hright]
  rcases Classical.em (ptr t.nill l = t.nill ∨ ptr t.nill r = t.nill) with hone | htwo
  · -- the node itself has one child at most
    obtain ⟨s, b, hnode⟩ : ∃ s b, ColorTree.node c l e r = .build s c b e .nil := by
      rcases hone with hl | hr
      · exact ⟨.right, r, by rw [hat.left.ptr_eq_nill.mp hl]; rfl⟩
      · exact ⟨.left, l, by rw [hat.right.ptr_eq_nill.mp hr]; rfl⟩
    rw [hnode] at hat hplug
    obtain ⟨h, hunlink, hhook, hcolor⟩ := unlink_spec hat e.address
    rw [if_neg (fun h => h rfl)] at hunlink
    obtain ⟨n, hctx, hbal, -⟩ := Context.isRedBlack_of_plug (hplug ▸ hcolours)
    obtain ⟨h', T', hrest, hT', hrb, hlist⟩ := deleteRest_spec fuel hhook hcolor hctx hbal (by omega)
    obtain ⟨before, after, hlists, hb⟩ := ColorTree.toList_build_nil s c b e
    have hT : T.toList = ctx.before ++ before ++ e :: (after ++ ctx.after) := by
      rw [← hplug, Context.toList_plug, hlists]
      simp
    have hT'list : T'.toList = ctx.before ++ before ++ (after ++ ctx.after) := by
      rw [hlist, Context.toList_plug, hb]
      simp
    refine ⟨e.address, h', T', if_pos hone, by rw [hunlink]; exact hrest, hT', hrb, ?_, ?_⟩
    · refine ⟨(ctx.before ++ before).map fun e => (e.key, e.value),
        (after ++ ctx.after).map fun e => (e.key, e.value), ?_, ?_⟩
      · rw [items, hT, map_append, map_cons]
      · rw [items, hT'list, map_append]
    · rw [addrs, addrs, hT, hT'list, ← map_cons]
      exact List.perm_middle.map Entry.address
  · -- the successor has no left child
    have hr : r ≠ .nil := fun h => htwo (.inr (hat.right.ptr_eq_nill.mpr h))
    obtain ⟨inner, c', e', r', hdown, hinner, hbefore⟩ := successorDown_spec t r fuel hat.right hr
      (by omega)
    have hat' : At t.nill t.rootPtr t.heap (inner ++ ⟨.right, c, e, l⟩ :: ctx)
        (.build .right c' r' e' .nil) := at_append.mpr (hinner ▸ hat.right)
    have hplug' : Context.plug (inner ++ ⟨.right, c, e, l⟩ :: ctx) (.build .right c' r' e' .nil) = T := by
      rw [Context.plug_append, show ColorTree.build .right c' r' e' .nil = .node c' .nil e' r' from rfl, hinner]
      exact hplug
    have hlength' := Context.length_le_plug (inner ++ ⟨.right, c, e, l⟩ :: ctx)
      (.build .right c' r' e' .nil)
    rw [hplug'] at hlength'
    have hne : e'.address ≠ e.address := by
      intro heq
      refine hat'.apart e'.address (mem_addrs_build.mpr (.inl rfl)) ?_
      refine mem_cons_of_mem _ (mem_cons_of_mem _ (mem_flatMap.mpr ?_))
      refine ⟨⟨.right, c, e, l⟩, mem_append_right _ mem_cons_self, ?_⟩
      rw [heq]
      exact mem_cons_self
    obtain ⟨h, hunlink, hhook, hcolor⟩ := unlink_spec hat' e.address
    rw [if_pos hne] at hunlink
    obtain ⟨hdata, hnil⟩ := hhook.toAt.setDataOver e'.key e'.value
    have hhook' : Hooked t.nill t.rootPtr (h.setData e.address e'.key e'.value)
        (inner ++ ⟨.right, c, ⟨e.address, e'.key, e'.value⟩, l⟩ :: ctx) r' := by
      refine ⟨hdata, fun hr' => ?_⟩
      rw [hnil, hhook.hook hr']
      cases inner <;> rfl
    have hcolor' : (h.setData e.address e'.key e'.value e'.address).color = c' := by
      rw [setData_of_ne _ _ hne, hcolor]
    obtain ⟨n, hctx, hbal, -⟩ := Context.isRedBlack_of_plug (hplug' ▸ hcolours)
    obtain ⟨h', T', hrest, hT', hrb, hlist⟩ := deleteRest_spec fuel hhook' hcolor' hctx.item hbal (by
      rw [length_append, length_cons] at hlength' ⊢
      omega)
    have hT : T.toList = ctx.before ++ l.toList ++ e :: e' :: (r'.toList ++ inner.after ++ ctx.after) := by
      rw [← hplug, Context.toList_plug, ColorTree.toList, ← hinner, Context.toList_plug, hbefore]
      simp [ColorTree.toList]
    have hT'list : T'.toList = ctx.before ++ l.toList ++
        ⟨e.address, e'.key, e'.value⟩ :: (r'.toList ++ inner.after ++ ctx.after) := by
      rw [hlist, Context.toList_plug, Context.before_append, Context.after_append, hbefore]
      simp [Context.before, Context.after, Frame.before, Frame.after]
    refine ⟨e'.address, h', T', ?_, by rw [hunlink]; exact hrest, hT', hrb, ?_, ?_⟩
    · rw [if_neg htwo]
      unfold btreeSuccessor
      rw [hright, if_neg fun h => htwo (.inr h), hdown]
    · refine ⟨(ctx.before ++ l.toList).map fun e => (e.key, e.value),
        (e' :: (r'.toList ++ inner.after ++ ctx.after)).map fun e => (e.key, e.value), ?_, ?_⟩
      · rw [items, hT, map_append, map_cons]
      · rw [items, hT'list, map_append, map_cons, map_cons]
    · rw [addrs, addrs, hT, hT'list]
      simp only [map_append, map_cons]
      exact (List.Perm.append_left _ (List.Perm.swap _ _ _)).trans perm_middle

theorem Represents.delete (hrep : Represents t T) (hcomp : Comparison t.comp) (key : K) (fuel : ℕ)
    (hfuel : T.toList.length < fuel) :
    ∃ r t' T', t.delete fuel key = some (r, t') ∧ t'.Represents T' ∧ t'.comp = t.comp ∧
      T'.toList.length ≤ T.toList.length ∧
      Answers t.comp (.delete key) (.status r) (items T) (items T') := by
  have hfind : t.findNode fuel key = t.findLoop t.comp key fuel (ptr t.nill T) := by
    rw [findNode, show (t.heap t.rootPtr).left = ptr t.nill T from hrep.stored.context]
  unfold RbTree.delete
  rw [hfind]
  rcases findLoop_spec t hcomp key T fuel hrep.stored hrep.sorted hfuel with
    ⟨ctx, c, l, e, r, hloop, hplug, he, hkey⟩ | ⟨hloop, hno⟩
  · rw [Context.plug_nil] at hplug
    have hat : At t.nill t.rootPtr t.heap ctx (.node c l e r) := at_plug.mp (hplug ▸ hrep.stored)
    obtain ⟨todelete, h, T', htodelete, hrest, hT', hrb, ⟨before, after, hT, hT'items⟩, haddrs⟩ :=
      removeNode_spec hrep.colours fuel hat hplug hfuel
    have hused : (todelete :: (t.freeList.items ++ t.rootPtr :: t.nill :: addrs T')).Perm
        (t.freeList.items ++ t.rootPtr :: t.nill :: addrs T) := by
      refine perm_middle.symm.trans (List.Perm.append_left _ ?_)
      refine List.Perm.trans ?_ ((haddrs.symm.cons _).cons _)
      exact (List.Perm.swap _ _ _).trans ((List.Perm.swap _ _ _).cons _)
    have hlength := haddrs.length_eq
    rw [addrs, length_cons, addrs, length_map, length_map] at hlength
    have hsorted : (items T).Pairwise fun a b => t.comp a.1 b.1 ≤ 0 :=
      pairwise_map.mpr hrep.sorted
    refine ⟨.success, { t with
      heap := h, freeList := t.freeList.put todelete, treeSize := t.treeSize - 1 }, T', ?_,
      ⟨hT', hrb, ?_, ?_, ?_, ?_⟩, rfl, by omega, .inl ⟨(e.key, e.value), ?_, hkey, rfl, ?_⟩⟩
    · rw [hloop, bind_some]
      dsimp only
      rw [htodelete, bind_some, hrest, map_some]
    · refine pairwise_map.mp (show (items T').Pairwise fun a b => t.comp a.1 b.1 ≤ 0 from ?_)
      rw [hT] at hsorted
      rw [hT'items]
      exact hsorted.sublist ((sublist_cons_self _ _).append_left before)
    · show t.treeSize - 1 = _
      rw [hrep.size]
      omega
    · exact hused.nodup_iff.mpr hrep.free
    · exact fun a ha => hrep.allocated a (hused.mem_iff.mp ha)
    · exact mem_map_of_mem he
    · rw [hT, hT'items]
      exact perm_middle
  · refine ⟨.notFound, t, T, ?_, hrep, rfl, Nat.le_refl _, .inr ⟨fun e he => ?_, rfl, rfl⟩⟩
    · rw [hloop, bind_some]
    · obtain ⟨e, hmem, rfl⟩ := mem_map.mp he
      exact hno e hmem

end Delete

section Runs

variable {t : RbTree K V} {T : ColorTree (Entry K V)}

theorem Represents.find (hrep : Represents t T) (hcomp : Comparison t.comp) (key : K) (fuel : ℕ)
    (hfuel : T.toList.length < fuel) :
    ∃ v, t.find fuel key = some v ∧ Answers t.comp (.find key) (.value v) (items T) (items T) := by
  unfold RbTree.find findWith
  rw [show (t.heap t.rootPtr).left = ptr t.nill T from hrep.stored.context]
  rcases findLoop_spec t hcomp key T fuel hrep.stored hrep.sorted hfuel with
    ⟨ctx, c, l, e, r, hloop, hplug, he, hkey⟩ | ⟨hloop, hno⟩
  · rw [Context.plug_nil] at hplug
    have hat : At t.nill t.rootPtr t.heap ctx (.node c l e r) := at_plug.mp (hplug ▸ hrep.stored)
    refine ⟨some e.value, ?_, rfl, .inl ⟨(e.key, e.value), mem_map_of_mem he, hkey, rfl⟩⟩
    rw [hloop, map_some, map_some, hat.cell, nodeOf_value]
  · refine ⟨none, by rw [hloop]; rfl, rfl, .inr ⟨fun e he => ?_, rfl⟩⟩
    obtain ⟨e, hmem, rfl⟩ := mem_map.mp he
    exact hno e hmem

theorem Represents.call (hrep : Represents t T) (hcomp : Comparison t.comp) (fuel : ℕ)
    (hfuel : T.toList.length < fuel) (c : Call K V) :
    ∃ r t' T', t.call fuel c = some (r, t') ∧ t'.Represents T' ∧ t'.comp = t.comp ∧
      T'.toList.length ≤ T.toList.length + 1 ∧ Answers t.comp c r (items T) (items T') := by
  cases c with
  | insert key value memory =>
    obtain ⟨r, t', T', hcall, hrep', hcomp', hlength, hanswers⟩ :=
      hrep.insert hcomp key value memory fuel hfuel
    exact ⟨_, t', T', by rw [RbTree.call, hcall]; rfl, hrep', hcomp', hlength, hanswers⟩
  | delete key =>
    obtain ⟨r, t', T', hcall, hrep', hcomp', hlength, hanswers⟩ := hrep.delete hcomp key fuel hfuel
    exact ⟨_, t', T', by rw [RbTree.call, hcall]; rfl, hrep', hcomp', Nat.le_succ_of_le hlength, hanswers⟩
  | find key =>
    obtain ⟨v, hcall, hanswers⟩ := hrep.find hcomp key fuel hfuel
    exact ⟨_, t, T, by rw [RbTree.call, hcall]; rfl, hrep, rfl, Nat.le_succ _, hanswers⟩

theorem represents_init {heap : Heap K V} {comp : K → K → ℤ} {memory : Bool}
    (h : init heap comp memory = some t) : t.Represents .nil ∧ t.comp = comp := by
  unfold init at h
  rcases get_spec {} [] memory nodup_nil (fun a ha => nomatch ha) with
    ⟨rootPtr, fl, hget, hfree, halloc⟩ | ⟨-, hget⟩
  · rw [hget] at h
    dsimp only at h
    rw [bind_some] at h
    rcases get_spec fl [rootPtr] memory hfree halloc with
      ⟨nill, fl', hget', hfree', halloc'⟩ | ⟨-, hget'⟩
    · rw [hget'] at h
      cases h
      have hperm : (fl'.items ++ [rootPtr, nill]).Perm (fl'.items ++ [nill, rootPtr]) :=
        List.Perm.append_left _ (List.Perm.swap _ _ _)
      have hne : rootPtr ≠ nill := by
        have := (nodup_append.mp hfree').2.1
        rw [nodup_cons, mem_singleton] at this
        exact Ne.symm this.1
      refine ⟨⟨⟨trivial, ?_, ?_, ?_, nodup_nil, ?_, fun x hx => nomatch hx⟩, ⟨rfl, 0, rfl⟩,
        List.Pairwise.nil, rfl, hperm.nodup_iff.mpr hfree', fun a ha => halloc' a (hperm.mem_iff.mp ha)⟩,
        rfl⟩
      · show RbNode.left _ = nill
        simp [Heap.setColor, Heap.setParent, Heap.setChild]
      · simp [Heap.setColor]
      · simp [Heap.setColor, Heap.setParent, Heap.setChild, update_of_ne hne.symm]
      · simpa [ctxAddrs] using hne
    · rw [hget'] at h
      cases h
  · rw [hget] at h
    cases h

theorem run_concat (fuel : ℕ) (t : RbTree K V) (calls : List (Call K V)) (c : Call K V) :
    t.run fuel (calls ++ [c]) = (t.run fuel calls).bind fun t => (t.call fuel c).map Prod.snd := by
  rw [run, foldlM_append]
  cases h : t.run fuel calls <;> simp [run] at h <;> simp [h]

/-- After any calls on an initialised tree it is a red-black tree in the search order, the size is the
number of entries, and the next call does to the entries what it should. -/
theorem run_multimap {heap : Heap K V} {comp : K → K → ℤ} (hcomp : Comparison comp) {memory : Bool}
    (hinit : init heap comp memory = some t) (calls : List (Call K V)) (fuel : ℕ)
    (hfuel : calls.length < fuel) :
    ∃ t' T, t.run fuel calls = some t' ∧ t'.Represents T ∧ t'.comp = comp ∧
      ∀ c, ∃ r t'' T', t'.call fuel c = some (r, t'') ∧ t''.Represents T' ∧
        Answers comp c r (items T) (items T') := by
  have hkeep : ∃ t' T, t.run fuel calls = some t' ∧ t'.Represents T ∧ t'.comp = comp ∧
      T.toList.length ≤ calls.length := by
    induction calls using List.reverseRecOn with
    | nil =>
      obtain ⟨hrep, hcomp'⟩ := represents_init hinit
      exact ⟨t, .nil, rfl, hrep, hcomp', Nat.le_refl _⟩
    | append_singleton calls c ih =>
      rw [length_append, length_singleton] at hfuel
      obtain ⟨t', T, hrun, hrep, rfl, hlength⟩ := ih (by omega)
      obtain ⟨r, t'', T', hcall, hrep', hcomp', hlength', -⟩ := hrep.call hcomp fuel (by omega) c
      refine ⟨t'', T', ?_, hrep', hcomp', ?_⟩
      · rw [run_concat, hrun, bind_some, hcall, map_some]
      · rw [length_append, length_singleton]
        omega
  obtain ⟨t', T, hrun, hrep, rfl, hlength⟩ := hkeep
  refine ⟨t', T, hrun, hrep, rfl, fun c => ?_⟩
  obtain ⟨r, t'', T', hcall, hrep', -, -, hanswers⟩ := hrep.call hcomp fuel (by omega) c
  exact ⟨r, t'', T', hcall, hrep', hanswers⟩

/-- Integers by their difference, one of them stored twice. -/
theorem run_multimap_twice : ∃ t t' : RbTree ℤ ℕ, ∃ T,
    init (fun _ => ⟨.red, 0, 0, 0, 0, 0⟩) (fun a b => a - b) true = some t ∧
      t.run 4 [.insert 1 5 true, .insert 1 6 true, .delete 1] = some t' ∧ t'.Represents T := by
  have hcomp : Comparison fun a b : ℤ => a - b :=
    ⟨fun a b => by omega, fun a b c hab hbc => by omega⟩
  have hinit : init (fun _ => (⟨.red, 0, 0, 0, 0, 0⟩ : RbNode ℤ ℕ)) (fun a b => a - b) true = some _ :=
    rfl
  obtain ⟨t', T, hrun, hrep, -⟩ := run_multimap hcomp hinit
    [.insert 1 5 true, .insert 1 6 true, .delete 1] 4 (by decide)
  exact ⟨_, t', T, rfl, hrun, hrep⟩

end Runs

end OpenMPI.Class.RbTree
