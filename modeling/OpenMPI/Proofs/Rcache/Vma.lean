import Mathlib.Algebra.BigOperators.Group.List.Basic
import Mathlib.Data.Finset.Union
import Mathlib.Data.List.Nodup
import Mathlib.Order.Interval.Finset.Nat
import Mathlib.Tactic.Ring
import OpenMPI.Rcache.Vma

/-!
# The registration cache is an interval map

A list of ranges is told by who covers which address (`Covers`).  Insertion fills gaps, splits ranges and adds a
registration to a range; deletion takes it from the ranges and joins neighbours: one lemma each, for the place in the
list where it happens.  The loops put them together.
-/

namespace OpenMPI.Rcache

open List

def Covers (l : List Vma) (a x : ℕ) : Prop := ∃ v ∈ l, v.start ≤ a ∧ a ≤ v.stop ∧ x ∈ v.regs

structure Tidy (l : List Vma) : Prop where
  apart : l.Pairwise fun v w => v.stop < w.start
  proper : ∀ v ∈ l, v.start ≤ v.stop
  used : ∀ v ∈ l, v.regs ≠ []
  nodup : ∀ v ∈ l, v.regs.Nodup

def bytes (l : List Vma) : ℤ := (l.map fun v => (v.stop : ℤ) - v.start + 1).sum

variable {l l' A B : List Vma} {v w : Vma} {a b x reg start stop : ℕ} {mem : Memory}

@[simp]
theorem covers_nil : ¬Covers [] a x := nofun

@[simp]
theorem covers_append : Covers (l ++ l') a x ↔ Covers l a x ∨ Covers l' a x := by
  simp [Covers, or_and_right, exists_or]

@[simp]
theorem covers_cons : Covers (v :: l) a x ↔ (v.start ≤ a ∧ a ≤ v.stop ∧ x ∈ v.regs) ∨ Covers l a x := by
  simp [Covers]

@[simp]
theorem bytes_nil : bytes [] = 0 := rfl

@[simp]
theorem bytes_append : bytes (l ++ l') = bytes l + bytes l' := by simp [bytes]

@[simp]
theorem bytes_cons : bytes (v :: l) = v.stop - v.start + 1 + bytes l := by simp [bytes]

theorem mem_addReg (mem : Memory) (reg x : ℕ) (items : List ℕ) : x ∈ addReg mem reg items ↔ x = reg ∨ x ∈ items := by
  fun_induction addReg mem reg items with
  | case1 => simp
  | case2 item items h ih =>
    rw [mem_cons, ih, mem_cons]
    exact or_left_comm
  | case3 => simp

theorem perm_addReg (mem : Memory) (reg : ℕ) (items : List ℕ) : (addReg mem reg items).Perm (reg :: items) := by
  fun_induction addReg mem reg items with
  | case1 => rfl
  | case2 item items h ih => exact (ih.cons item).trans (List.Perm.swap reg item items)
  | case3 => rfl

theorem Tidy.left (h : Tidy (A ++ B)) : Tidy A :=
  ⟨(pairwise_append.mp h.apart).1, fun v hv => h.proper v (mem_append_left _ hv),
    fun v hv => h.used v (mem_append_left _ hv), fun v hv => h.nodup v (mem_append_left _ hv)⟩

theorem Tidy.right (h : Tidy (A ++ B)) : Tidy B :=
  ⟨(pairwise_append.mp h.apart).2.1, fun v hv => h.proper v (mem_append_right _ hv),
    fun v hv => h.used v (mem_append_right _ hv), fun v hv => h.nodup v (mem_append_right _ hv)⟩

theorem Tidy.append (hA : Tidy A) (hB : Tidy B) (h : ∀ v ∈ A, ∀ w ∈ B, v.stop < w.start) : Tidy (A ++ B) where
  apart := pairwise_append.mpr ⟨hA.apart, hB.apart, h⟩
  proper v hv := (mem_append.mp hv).elim (hA.proper v) (hB.proper v)
  used v hv := (mem_append.mp hv).elim (hA.used v) (hB.used v)
  nodup v hv := (mem_append.mp hv).elim (hA.nodup v) (hB.nodup v)

theorem Tidy.cons (hv : v.start ≤ v.stop) (hused : v.regs ≠ []) (hnodup : v.regs.Nodup) (hB : Tidy B)
    (h : ∀ w ∈ B, v.stop < w.start) : Tidy (v :: B) where
  apart := pairwise_cons.mpr ⟨h, hB.apart⟩
  proper w hw := (mem_cons.mp hw).elim (fun e => e ▸ hv) (hB.proper w)
  used w hw := (mem_cons.mp hw).elim (fun e => e ▸ hused) (hB.used w)
  nodup w hw := (mem_cons.mp hw).elim (fun e => e ▸ hnodup) (hB.nodup w)

section

variable (h : Tidy (A ++ v :: B))

include h

theorem Tidy.before : ∀ w ∈ A, w.stop < v.start := fun w hw =>
  (pairwise_append.mp h.apart).2.2 w hw v mem_cons_self

theorem Tidy.behind : ∀ w ∈ B, v.stop < w.start := fun _ hw =>
  rel_of_pairwise_cons (pairwise_append.mp h.apart).2.1 hw

theorem Tidy.across : ∀ u ∈ A, ∀ w ∈ B, u.stop < w.start := fun u hu w hw =>
  (pairwise_append.mp h.apart).2.2 u hu w (mem_cons_of_mem _ hw)

theorem Tidy.self : v.start ≤ v.stop ∧ v.regs ≠ [] ∧ v.regs.Nodup :=
  have hv : v ∈ A ++ v :: B := mem_append_right _ mem_cons_self
  ⟨h.proper v hv, h.used v hv, h.nodup v hv⟩

end

theorem Tidy.tail (h : Tidy (v :: B)) : Tidy B := Tidy.right (A := [v]) h

theorem Tidy.replace (h : Tidy (A ++ v :: B)) (hstart : v.start ≤ w.start) (hw : w.start ≤ w.stop) (hstop : w.stop ≤ v.stop)
    (hused : w.regs ≠ []) (hnodup : w.regs.Nodup) : Tidy (A ++ w :: B) := by
  have hB : Tidy B := h.right.tail
  refine h.left.append (Tidy.cons hw hused hnodup hB fun u hu => lt_of_le_of_lt hstop (h.behind u hu)) ?_
  intro u hu z hz
  rcases mem_cons.mp hz with rfl | hz
  · exact lt_of_lt_of_le (h.before u hu) hstart
  · exact h.across u hu z hz

theorem Tidy.remove (h : Tidy (A ++ v :: B)) : Tidy (A ++ B) := h.left.append h.right.tail h.across

structure Adds (l l' : List Vma) (reg start stop : ℕ) : Prop where
  tidy : Tidy l'
  covers : ∀ a x, Covers l' a x ↔ Covers l a x ∨ (x = reg ∧ start ≤ a ∧ a < stop)

theorem Adds.refl (h : Tidy l) (reg start : ℕ) : Adds l l reg start start :=
  ⟨h, fun _ _ => ⟨.inl, fun h => h.resolve_right fun h => absurd h.2.1 (Nat.not_le_of_lt h.2.2)⟩⟩

theorem Adds.trans {l'' : List Vma} {m : ℕ} (h : Adds l l' reg start m) (h' : Adds l' l'' reg m stop) (hs : start ≤ m)
    (hm : m ≤ stop) : Adds l l'' reg start stop := by
  refine ⟨h'.tidy, fun a x => ?_⟩
  rw [h'.covers, h.covers, or_assoc]
  refine or_congr_right ⟨?_, ?_⟩
  · rintro (⟨rfl, h1, h2⟩ | ⟨rfl, h1, h2⟩)
    · exact ⟨rfl, h1, lt_of_lt_of_le h2 hm⟩
    · exact ⟨rfl, le_trans hs h1, h2⟩
  · rintro ⟨rfl, h1, h2⟩
    rcases lt_or_ge a m with h3 | h3
    · exact .inl ⟨rfl, h1, h3⟩
    · exact .inr ⟨rfl, h3, h2⟩

theorem Adds.gap (h : Tidy (A ++ B)) (hA : ∀ v ∈ A, v.stop < start) (hB : ∀ v ∈ B, stop < v.start)
    (hle : start ≤ stop) (mem : Memory) (reg : ℕ) :
    Adds (A ++ B) (A ++ ⟨start, stop, addReg mem reg []⟩ :: B) reg start (stop + 1) := by
  refine ⟨?_, fun a x => ?_⟩
  · refine h.left.append (Tidy.cons hle (cons_ne_nil _ _) (nodup_singleton _) h.right hB) ?_
    intro u hu z hz
    rcases mem_cons.mp hz with rfl | hz
    · exact hA u hu
    · exact (pairwise_append.mp h.apart).2.2 u hu z hz
  · simp only [covers_append, covers_cons, mem_addReg, not_mem_nil, Nat.lt_succ_iff]
    grind

theorem Adds.whole (h : Tidy (A ++ v :: B)) (hreg : reg ∉ v.regs) (mem : Memory) :
    Adds (A ++ v :: B) (A ++ { v with regs := addReg mem reg v.regs } :: B) reg v.start (v.stop + 1) := by
  obtain ⟨hle, hused, hnodup⟩ := h.self
  have hperm := perm_addReg mem reg v.regs
  refine ⟨h.replace (le_rfl) hle (le_rfl) ?_ ?_, fun a x => ?_⟩
  · intro hnil
    rw [show addReg mem reg v.regs = [] from hnil] at hperm
    exact cons_ne_nil _ _ (nil_perm.mp hperm)
  · exact hperm.nodup_iff.mpr (nodup_cons.mpr ⟨hreg, hnodup⟩)
  · simp only [covers_append, covers_cons, mem_addReg, Nat.lt_succ_iff]
    grind

theorem Adds.split (h : Tidy (A ++ v :: B)) (hstart : v.start < b) (hstop : b ≤ v.stop) (reg m : ℕ) :
    Adds (A ++ v :: B) (A ++ { v with stop := b - 1 } :: ⟨b, v.stop, v.regs⟩ :: B) reg m m := by
  obtain ⟨hle, hused, hnodup⟩ := h.self
  refine ⟨?_, fun a x => ?_⟩
  · refine h.left.append (Tidy.cons ?_ hused hnodup (Tidy.cons hstop hused hnodup h.right.tail h.behind) ?_) ?_
    · show v.start ≤ b - 1
      omega
    · intro w hw
      show b - 1 < w.start
      rcases mem_cons.mp hw with rfl | hw
      · show b - 1 < b
        omega
      · have := h.behind w hw
        omega
    · intro u hu z hz
      rcases mem_cons.mp hz with rfl | hz
      · exact h.before u hu
      · rcases mem_cons.mp hz with rfl | hz
        · exact lt_trans (h.before u hu) hstart
        · exact h.across u hu z hz
  · have hsplit : (v.start ≤ a ∧ a ≤ v.stop) ↔ (v.start ≤ a ∧ a ≤ b - 1) ∨ (b ≤ a ∧ a ≤ v.stop) := by omega
    have hempty : ¬(m ≤ a ∧ a < m) := by omega
    simp only [covers_append, covers_cons, ← and_assoc, hsplit, or_and_right]
    grind

/-- What the loop leaves: the registration is added up to some address, the last one where it came to its end. -/
structure Inserted (l l' : List Vma) (size' : ℤ) (ok : Bool) (reg start stop : ℕ) : Prop where
  adds : ∃ m, start ≤ m ∧ m ≤ stop + 1 ∧ (ok = true → m = stop + 1) ∧ Adds l l' reg start m
  size : size' = bytes l'

theorem Inserted.step {ok : Bool} {size' : ℤ} {l'' : List Vma} {m : ℕ} (h : Adds l l' reg start m) (hs : start ≤ m)
    (h' : Inserted l' l'' size' ok reg m stop) : Inserted l l'' size' ok reg start stop := by
  obtain ⟨m', hm, hm', hok, hadds⟩ := h'.adds
  exact ⟨⟨m', le_trans hs hm, hm', hok, h.trans hadds hs hm⟩, h'.size⟩

theorem before_cons {pre : List Vma} (hpre : ∀ v ∈ pre, v.stop < a) (hv : v.stop < b) (hle : a ≤ b) :
    ∀ w ∈ v :: pre, w.stop < b := by
  intro w hw
  rcases mem_cons.mp hw with rfl | hw
  · exact hv
  · exact lt_of_lt_of_le (hpre w hw) hle

theorem before_reverse {pre : List Vma} (hpre : ∀ v ∈ pre, v.stop < a) : ∀ v ∈ pre.reverse, v.stop < a :=
  fun v hv => hpre v (mem_reverse.mp hv)

theorem insertLoop_spec (mem : Memory) (limit : ℕ) {pre rest : List Vma} {size : ℤ} (h : Tidy (pre.reverse ++ rest))
    (hpre : ∀ v ∈ pre, v.stop < start) (hrest : ∀ v ∈ rest, start ≤ v.stop) (hnew : ∀ v ∈ rest, reg ∉ v.regs)
    (hsize : size = bytes (pre.reverse ++ rest)) (hstart : start ≤ stop + 1) :
    Inserted (pre.reverse ++ rest) (Module.insertLoop mem limit reg stop start pre rest size).1.1
      (Module.insertLoop mem limit reg stop start pre rest size).1.2
      (Module.insertLoop mem limit reg stop start pre rest size).2 reg start stop := by
  fun_induction Module.insertLoop mem limit reg stop start pre rest size with
  | case1 start pre rest size hend =>
    exact ⟨⟨start, le_rfl, hstart, fun _ => by omega, Adds.refl h _ _⟩, hsize⟩
  | case2 start pre size hend hcan ih =>
    have hle : start ≤ stop := Nat.le_of_not_lt hend
    have hadds := Adds.gap h (before_reverse hpre) (by simp) hle mem reg
    rw [reverse_cons, append_assoc, singleton_append] at ih
    refine Inserted.step hadds hstart (ih hadds.tidy ?_ (by simp) (by simp) ?_ (le_rfl))
    · exact before_cons hpre (Nat.lt_succ_self _) hstart
    · simp [hsize]
  | case3 start pre size hend hcan =>
    rw [append_nil] at h hsize ⊢
    exact ⟨⟨start, le_rfl, hstart, nofun, Adds.refl h _ _⟩, hsize⟩
  | case4 start pre size hend v rest hgap tend hcan ih =>
    have hle : start ≤ stop := Nat.le_of_not_lt hend
    have htend : start ≤ tend ∧ tend ≤ stop ∧ tend < v.start := by
      simp only [tend]
      split_ifs <;> omega
    have hbehind : ∀ w ∈ v :: rest, tend < w.start := by
      intro w hw
      rcases mem_cons.mp hw with rfl | hw
      · exact htend.2.2
      · have := h.behind w hw
        have := h.self.1
        omega
    have hadds := Adds.gap h (before_reverse hpre) hbehind htend.1 mem reg
    rw [reverse_cons, append_assoc, singleton_append] at ih
    refine Inserted.step hadds (by omega) (ih hadds.tidy ?_ ?_ hnew ?_ (by omega))
    · exact before_cons hpre (Nat.lt_succ_self _) (by omega)
    · intro w hw
      have := hbehind w hw
      have := h.right.proper w hw
      omega
    · simp [hsize]
      ring
  | case5 start pre size hend v rest hgap tend hcan =>
    exact ⟨⟨start, le_rfl, hstart, nofun, Adds.refl h _ _⟩, hsize⟩
  | case6 pre size v rest hlong hend hgap ih =>
    have hle : v.start ≤ stop := Nat.le_of_not_lt hend
    have hsplit := Adds.split h (Nat.lt_succ_of_le hle) hlong reg v.start
    have hadds := Adds.whole hsplit.tidy (hnew v mem_cons_self) mem
    rw [reverse_cons, append_assoc, singleton_append] at ih
    refine Inserted.step (hsplit.trans hadds (le_rfl) hstart) hstart (ih hadds.tidy ?_ ?_ ?_ ?_ (le_rfl))
    · exact before_cons hpre (Nat.lt_succ_self _) hstart
    · intro w hw
      rcases mem_cons.mp hw with rfl | hw
      · exact hlong
      · have := h.behind w hw
        have := h.right.proper w (mem_cons_of_mem _ hw)
        omega
    · intro w hw
      rcases mem_cons.mp hw with rfl | hw
      · exact hnew v mem_cons_self
      · exact hnew w (mem_cons_of_mem _ hw)
    · simp [hsize]
      ring
  | case7 pre size v rest hend hgap hshort ih =>
    have hadds := Adds.whole h (hnew v mem_cons_self) mem
    have hself := h.self.1
    rw [reverse_cons, append_assoc, singleton_append] at ih
    refine Inserted.step hadds (by omega) (ih hadds.tidy ?_ ?_ ?_ ?_ (by omega))
    · exact before_cons hpre (Nat.lt_succ_self _) (by omega)
    · intro w hw
      have := h.behind w hw
      have := h.right.proper w (mem_cons_of_mem _ hw)
      omega
    · exact fun w hw => hnew w (mem_cons_of_mem _ hw)
    · simp [hsize]
  | case8 start pre size hend v rest hgap hne ih =>
    have hlt : v.start < start := by omega
    have hadds := Adds.split h hlt (hrest v mem_cons_self) reg start
    rw [reverse_cons, append_assoc, singleton_append] at ih
    refine Inserted.step hadds (le_rfl) (ih hadds.tidy ?_ ?_ ?_ ?_ hstart)
    · exact before_cons hpre (by show start - 1 < start; omega) (le_rfl)
    · intro w hw
      rcases mem_cons.mp hw with rfl | hw
      · exact hrest v mem_cons_self
      · exact hrest w (mem_cons_of_mem _ hw)
    · intro w hw
      rcases mem_cons.mp hw with rfl | hw
      · exact hnew v mem_cons_self
      · exact hnew w (mem_cons_of_mem _ hw)
    · have hcast : ((start - 1 : ℕ) : ℤ) = start - 1 := by omega
      simp [hsize, hcast]
      ring

structure Same (l l' : List Vma) : Prop where
  tidy : Tidy l'
  covers : ∀ a x, Covers l' a x ↔ Covers l a x
  size : bytes l' = bytes l

theorem Same.trans {l'' : List Vma} (h : Same l l') (h' : Same l' l'') : Same l l'' :=
  ⟨h'.tidy, fun a x => (h'.covers a x).trans (h.covers a x), h'.size.trans h.size⟩

theorem Same.join (h : Tidy (A ++ v :: w :: B)) (hnext : w.start = v.stop + 1) (hregs : w.regs = v.regs) :
    Same (A ++ v :: w :: B) (A ++ { v with stop := w.stop } :: B) := by
  obtain ⟨hle, hused, hnodup⟩ := h.self
  have hw : Tidy (w :: B) := h.right.tail
  have hlew : w.start ≤ w.stop := hw.proper w mem_cons_self
  refine ⟨?_, fun a x => ?_, ?_⟩
  · refine h.left.append (Tidy.cons ?_ hused hnodup hw.tail fun u hu => rel_of_pairwise_cons hw.apart hu) ?_
    · show v.start ≤ w.stop
      omega
    · intro u hu z hz
      rcases mem_cons.mp hz with rfl | hz
      · exact h.before u hu
      · exact h.across u hu z (mem_cons_of_mem _ hz)
  · have hjoin : (v.start ≤ a ∧ a ≤ w.stop) ↔ (v.start ≤ a ∧ a ≤ v.stop) ∨ (w.start ≤ a ∧ a ≤ w.stop) := by omega
    simp only [covers_append, covers_cons, ← and_assoc, hjoin, hregs, or_and_right]
    grind
  · have hcast : (w.start : ℤ) = v.stop + 1 := by omega
    simp [hcast]
    ring

structure Merged (pre : List Vma) (v : Vma) (rest : List Vma) (out : List Vma × Vma × List Vma) : Prop where
  same : Same (pre.reverse ++ v :: rest) (out.1.reverse ++ out.2.1 :: out.2.2)
  regs : out.2.1.regs = v.regs
  pre : ∀ w ∈ out.1, w ∈ pre
  rest : ∀ w ∈ out.2.2, w ∈ rest

theorem mergePrev_spec {pre rest : List Vma} (h : Tidy (pre.reverse ++ v :: rest)) :
    Merged pre v rest ((Module.mergePrev pre v).1, (Module.mergePrev pre v).2.1, rest) := by
  have hrefl : Same (pre.reverse ++ v :: rest) (pre.reverse ++ v :: rest) := ⟨h, fun _ _ => Iff.rfl, rfl⟩
  rcases pre with - | ⟨p, pre⟩
  · exact ⟨hrefl, rfl, fun _ h => h, fun _ h => h⟩
  · rw [Module.mergePrev]
    split_ifs with hmerge
    · rw [reverse_cons, append_assoc, singleton_append] at h
      refine ⟨?_, hmerge.2.symm, fun w hw => mem_cons_of_mem _ hw, fun _ h => h⟩
      rw [reverse_cons, append_assoc, singleton_append]
      exact Same.join h hmerge.1 hmerge.2
    · exact ⟨hrefl, rfl, fun _ h => h, fun _ h => h⟩

theorem mergeNext_spec {pre rest : List Vma} (h : Tidy (pre.reverse ++ v :: rest)) :
    Merged pre v rest (pre, (Module.mergeNext v rest).1, (Module.mergeNext v rest).2.1) := by
  have hrefl : Same (pre.reverse ++ v :: rest) (pre.reverse ++ v :: rest) := ⟨h, fun _ _ => Iff.rfl, rfl⟩
  rcases rest with - | ⟨n, rest⟩
  · exact ⟨hrefl, rfl, fun _ h => h, fun _ h => h⟩
  · rw [Module.mergeNext]
    split_ifs with hmerge
    · exact ⟨Same.join h hmerge.1.symm hmerge.2.symm, rfl, fun _ h => h, fun w hw => mem_cons_of_mem _ hw⟩
    · exact ⟨hrefl, rfl, fun _ h => h, fun _ h => h⟩

theorem Merged.trans {pre rest : List Vma} {out out' : List Vma × Vma × List Vma} (h : Merged pre v rest out)
    (h' : Merged out.1 out.2.1 out.2.2 out') : Merged pre v rest out' :=
  ⟨h.same.trans h'.same, h'.regs.trans h.regs, fun w hw => h.pre w (h'.pre w hw), fun w hw => h.rest w (h'.rest w hw)⟩

theorem merge_spec {pre rest : List Vma} (h : Tidy (pre.reverse ++ v :: rest)) :
    Merged pre v rest (Module.merge pre v rest) := by
  fun_induction Module.merge pre v rest with
  | case1 pre v rest prev next hmerged ih =>
    have hprev := mergePrev_spec h
    have hboth := hprev.trans (mergeNext_spec hprev.same.tidy)
    exact hboth.trans (ih hboth.same.tidy)
  | case2 pre v rest prev next hmerged =>
    have hprev := mergePrev_spec h
    exact hprev.trans (mergeNext_spec hprev.same.tidy)

structure Removes (l l' : List Vma) (reg : ℕ) : Prop where
  tidy : Tidy l'
  covers : ∀ a x, Covers l' a x ↔ Covers l a x ∧ x ≠ reg

theorem Removes.refl (h : Tidy l) (hnone : ∀ v ∈ l, reg ∉ v.regs) : Removes l l reg := by
  refine ⟨h, fun a x => ⟨fun hc => ⟨hc, ?_⟩, And.left⟩⟩
  rintro rfl
  obtain ⟨v, hv, -, -, hx⟩ := hc
  exact hnone v hv hx

theorem Removes.congr {l₁ : List Vma} (h : Removes l₁ l' reg)
    (hother : ∀ a x, x ≠ reg → (Covers l₁ a x ↔ Covers l a x)) : Removes l l' reg :=
  ⟨h.tidy, fun a x => (h.covers a x).trans (and_congr_left fun hx => hother a x hx)⟩

theorem Tidy.removed (h : Tidy (A ++ v :: B)) (hused : (removeReg v reg).regs ≠ []) :
    Tidy (A ++ removeReg v reg :: B) :=
  h.replace (le_rfl) h.self.1 (le_rfl) hused (h.self.2.2.erase reg)

theorem deleteLoop_spec {pre rest : List Vma} {size : ℤ} (h : Tidy (pre.reverse ++ rest))
    (hpre : ∀ v ∈ pre, reg ∉ v.regs) (hrest : ∀ v ∈ rest, b < v.start → reg ∉ v.regs)
    (hsize : size = bytes (pre.reverse ++ rest)) :
    Removes (pre.reverse ++ rest) (Module.deleteLoop reg b pre rest size).1 reg ∧
      (Module.deleteLoop reg b pre rest size).2 = bytes (Module.deleteLoop reg b pre rest size).1 := by
  fun_induction Module.deleteLoop reg b pre rest size with
  | case1 pre size =>
    rw [append_nil] at h hsize ⊢
    exact ⟨Removes.refl h fun v hv => hpre v (mem_reverse.mp hv), hsize⟩
  | case2 pre size v rest hend =>
    refine ⟨Removes.refl h fun w hw => ?_, hsize⟩
    rcases mem_append.mp hw with hw | hw
    · exact hpre w (mem_reverse.mp hw)
    · refine hrest w hw ?_
      rcases mem_cons.mp hw with rfl | hw
      · exact hend
      · have := h.behind w hw
        have := h.self.1
        omega
  | case3 pre size v rest hend hempty ih =>
    obtain ⟨hle, hused, hnodup⟩ := h.self
    have hregs : ∀ x ∈ v.regs, x = reg := by
      intro x hx
      by_contra hne
      have hmem : x ∈ v.regs.erase reg := (hnodup.mem_erase_iff).mpr ⟨hne, hx⟩
      rw [show v.regs.erase reg = [] from hempty] at hmem
      cases hmem
    have hsize' : size + (v.start - v.stop - 1) = bytes (pre.reverse ++ rest) := by
      simp [hsize]
      ring
    obtain ⟨hremoves, hout⟩ := ih h.remove hpre (fun w hw => hrest w (mem_cons_of_mem _ hw)) hsize'
    refine ⟨hremoves.congr fun a x hx => ?_, hout⟩
    simp only [covers_append, covers_cons]
    refine or_congr_right ⟨.inr, fun hc => hc.resolve_left fun hv => hx (hregs x hv.2.2)⟩
  | case4 pre size v rest hend hused merged ih =>
    obtain ⟨hle, -, hnodup⟩ := h.self
    have hmerged := merge_spec (h.removed hused)
    have hgone : reg ∉ (removeReg v reg).regs := hnodup.not_mem_erase
    rw [reverse_cons, append_assoc, singleton_append] at ih
    have hpre' : ∀ w ∈ merged.2.1 :: merged.1, reg ∉ w.regs := by
      intro w hw
      rcases mem_cons.mp hw with rfl | hw
      · rw [hmerged.regs]
        exact hgone
      · exact hpre w (hmerged.pre w hw)
    have hrest' : ∀ w ∈ merged.2.2, b < w.start → reg ∉ w.regs := fun w hw =>
      hrest w (mem_cons_of_mem _ (hmerged.rest w hw))
    have hsize' : size = bytes (merged.1.reverse ++ merged.2.1 :: merged.2.2) := by
      rw [hmerged.same.size, hsize]
      simp [removeReg]
    obtain ⟨hremoves, hout⟩ := ih hmerged.same.tidy hpre' hrest' hsize'
    refine ⟨hremoves.congr fun a x hx => ?_, hout⟩
    rw [hmerged.same.covers]
    have hmem : x ∈ (removeReg v reg).regs ↔ x ∈ v.regs := hnodup.mem_erase_iff.trans (and_iff_right hx)
    simp only [covers_append, covers_cons, hmem]
    rfl

theorem seek_append (compare : Option Vma → Vma → ℤ) (pre l : List Vma) :
    (seek compare pre l).1.reverse ++ (seek compare pre l).2 = pre.reverse ++ l := by
  fun_induction seek compare pre l with
  | case1 pre => rfl
  | case2 pre v rest h => rfl
  | case3 pre v rest h ih =>
    rw [ih, reverse_cons, append_assoc]
    rfl

theorem seek_search {pre : List Vma} (h : Tidy (pre.reverse ++ l)) :
    ((seek (fun _ => compareSearch a) pre l).2 = [] → ∀ v ∈ l, ¬(v.start ≤ a ∧ a ≤ v.stop)) ∧
      ∀ v rest, (seek (fun _ => compareSearch a) pre l).2 = v :: rest → v.start ≤ a ∧ a ≤ v.stop := by
  fun_induction seek (fun _ => compareSearch a) pre l with
  | case1 pre => exact ⟨fun _ => nofun, nofun⟩
  | case2 pre v rest hzero =>
    refine ⟨nofun, fun w rest' heq => ?_⟩
    obtain ⟨rfl, rfl⟩ := List.cons.inj heq
    by_cases hstop : v.stop < a
    · rw [compareSearch, if_pos hstop] at hzero
      cases hzero
    · rw [compareSearch, if_neg hstop] at hzero
      by_cases hstart : v.start ≤ a
      · exact ⟨hstart, Nat.le_of_not_lt hstop⟩
      · rw [if_neg hstart] at hzero
        cases hzero
  | case3 pre v rest hne ih =>
    have h' : Tidy ((v :: pre).reverse ++ rest) := by
      rw [reverse_cons, append_assoc]
      exact h
    obtain ⟨hnone, hsome⟩ := ih h'
    refine ⟨fun hnil w hw => ?_, hsome⟩
    rcases mem_cons.mp hw with rfl | hw
    · rintro ⟨hstart, hstop⟩
      exact hne (by rw [compareSearch, if_neg (Nat.not_lt_of_le hstop), if_pos hstart])
    · exact hnone hnil w hw

theorem seek_closest {pre : List Vma} (h : Tidy (pre.reverse ++ l)) (hpre : ∀ v ∈ pre, v.stop < a) :
    (∀ v ∈ (seek (compareClosest a) pre l).1, v.stop < a) ∧ ∀ v ∈ (seek (compareClosest a) pre l).2, a ≤ v.stop := by
  fun_induction seek (compareClosest a) pre l with
  | case1 pre => exact ⟨hpre, nofun⟩
  | case2 pre v rest hzero =>
    have hv : a ≤ v.stop := by
      by_contra hlt
      rw [compareClosest.eq_def, if_pos (Nat.lt_of_not_le hlt)] at hzero
      cases hzero
    refine ⟨hpre, fun w hw => ?_⟩
    rcases mem_cons.mp hw with rfl | hw
    · exact hv
    · have := h.behind w hw
      have := h.right.proper w (mem_cons_of_mem _ hw)
      omega
  | case3 pre v rest hne ih =>
    have h' : Tidy ((v :: pre).reverse ++ rest) := by
      rw [reverse_cons, append_assoc]
      exact h
    refine ih h' fun w hw => ?_
    rcases mem_cons.mp hw with rfl | hw
    · by_contra hle
      refine hne ?_
      rw [compareClosest.eq_def, if_neg hle]
      split_ifs with hstart
      · rfl
      · rcases pre with - | ⟨p, pre⟩
        · rfl
        · show (if p.stop < a then (0 : ℤ) else -1) = 0
          rw [if_pos (hpre p mem_cons_self)]
    · exact hpre w hw

def Cached (c : Module) (x : ℕ) : Prop := ∃ v ∈ c.vmaList, x ∈ v.regs

structure Exact (c : Module) (mem : Memory) : Prop where
  tidy : Tidy c.vmaList
  size : c.curCacheSize = bytes c.vmaList
  covers : ∀ x, Cached c x → ∀ a, Covers c.vmaList a x ↔ (mem x).base ≤ a ∧ a ≤ (mem x).bound

variable {c : Module}

theorem cached_iff (h : Tidy c.vmaList) : Cached c x ↔ ∃ a, Covers c.vmaList a x := by
  constructor
  · rintro ⟨v, hv, hx⟩
    exact ⟨v.start, v, hv, le_rfl, h.proper v hv, hx⟩
  · rintro ⟨a, v, hv, -, -, hx⟩
    exact ⟨v, hv, hx⟩

theorem Exact.base_le (h : Exact c mem) (hx : Cached c x) : (mem x).base ≤ (mem x).bound := by
  obtain ⟨a, ha⟩ := (cached_iff h.tidy).mp hx
  have hle := (h.covers x hx a).mp ha
  exact le_trans hle.1 hle.2

theorem Exact.congr {mem' : Memory} (h : Exact c mem)
    (hsame : ∀ x, Cached c x → (mem' x).base = (mem x).base ∧ (mem' x).bound = (mem x).bound) : Exact c mem' := by
  refine ⟨h.tidy, h.size, fun x hx a => ?_⟩
  rw [h.covers x hx, (hsame x hx).1, (hsame x hx).2]

theorem Exact.of_covers {c' : Module} (h : Exact c mem) (ht : Tidy c'.vmaList) (hs : c'.curCacheSize = bytes c'.vmaList)
    (hother : ∀ a x, x ≠ reg → (Covers c'.vmaList a x ↔ Covers c.vmaList a x))
    (hreg : Cached c' reg → ∀ a, Covers c'.vmaList a reg ↔ (mem reg).base ≤ a ∧ a ≤ (mem reg).bound) :
    Exact c' mem ∧ ∀ x, x ≠ reg → (Cached c' x ↔ Cached c x) := by
  have hcached (x : ℕ) (hx : x ≠ reg) : Cached c' x ↔ Cached c x := by
    rw [cached_iff ht, cached_iff h.tidy]
    exact exists_congr fun a => hother a x hx
  refine ⟨⟨ht, hs, fun x hx a => ?_⟩, hcached⟩
  by_cases hreg' : x = reg
  · subst hreg'
    exact hreg hx a
  · rw [hother a x hreg', h.covers x ((hcached x hreg').mp hx)]

theorem treeDelete_spec (mem : Memory) (reg : ℕ) (h : Tidy c.vmaList) (hsize : c.curCacheSize = bytes c.vmaList)
    (hreg : ∀ a, Covers c.vmaList a reg →
      (mem reg).base ≤ a ∧ a ≤ (mem reg).bound ∧ Covers c.vmaList (mem reg).base reg) :
    Removes c.vmaList (c.treeDelete mem reg).2.vmaList reg ∧
      (c.treeDelete mem reg).2.curCacheSize = bytes (c.treeDelete mem reg).2.vmaList := by
  have hmem (w : Vma) (hw : w ∈ c.vmaList) (hx : reg ∈ w.regs) :
      (mem reg).base ≤ w.start ∧ w.start ≤ (mem reg).bound ∧ Covers c.vmaList (mem reg).base reg :=
    hreg w.start ⟨w, hw, le_rfl, h.proper w hw, hx⟩
  have hpre : Tidy (([] : List Vma).reverse ++ c.vmaList) := h
  have happend := seek_append (fun _ => compareSearch (mem reg).base) [] c.vmaList
  obtain ⟨hnone, hsome⟩ := seek_search (a := (mem reg).base) hpre
  rw [Module.treeDelete]
  generalize seek (fun _ => compareSearch (mem reg).base) [] c.vmaList = found at happend hnone hsome ⊢
  obtain ⟨pre, rest⟩ := found
  rw [reverse_nil, nil_append] at happend
  rcases rest with - | ⟨v, rest⟩
  · refine ⟨Removes.refl h fun w hw hx => ?_, hsize⟩
    obtain ⟨-, -, u, hu, hstart, hstop, -⟩ := hmem w hw hx
    exact hnone rfl u hu ⟨hstart, hstop⟩
  · obtain ⟨hstart, -⟩ := hsome v rest rfl
    have htidy : Tidy (pre.reverse ++ v :: rest) := happend.symm ▸ h
    have hbefore : ∀ w ∈ pre, reg ∉ w.regs := by
      intro w hw hx
      have hw' : w ∈ pre.reverse := mem_reverse.mpr hw
      have hin : w ∈ c.vmaList := happend ▸ mem_append_left _ hw'
      have := (hmem w hin hx).1
      have := htidy.before w hw'
      have := h.proper w hin
      omega
    have hbehind : ∀ w ∈ v :: rest, (mem reg).bound < w.start → reg ∉ w.regs := by
      intro w hw hlt hx
      have hin : w ∈ c.vmaList := happend ▸ mem_append_right _ hw
      exact absurd (hmem w hin hx).2.1 (Nat.not_le_of_lt hlt)
    have hloop := deleteLoop_spec htidy hbefore hbehind (hsize.trans (by rw [← happend]))
    rw [happend] at hloop
    exact hloop

theorem Exact.treeDelete (h : Exact c mem) (reg : ℕ) :
    Exact (c.treeDelete mem reg).2 mem ∧ ∀ x, Cached (c.treeDelete mem reg).2 x ↔ Cached c x ∧ x ≠ reg := by
  have hreg : ∀ a, Covers c.vmaList a reg →
      (mem reg).base ≤ a ∧ a ≤ (mem reg).bound ∧ Covers c.vmaList (mem reg).base reg := by
    intro a ha
    have hx : Cached c reg := (cached_iff h.tidy).mpr ⟨a, ha⟩
    obtain ⟨hbase, hbound⟩ := (h.covers reg hx a).mp ha
    exact ⟨hbase, hbound, (h.covers reg hx _).mpr ⟨le_rfl, h.base_le hx⟩⟩
  obtain ⟨hremoves, hsize⟩ := treeDelete_spec mem reg h.tidy h.size hreg
  have hgone : ¬Cached (c.treeDelete mem reg).2 reg := by
    rw [cached_iff hremoves.tidy]
    rintro ⟨a, ha⟩
    exact ((hremoves.covers a reg).mp ha).2 rfl
  obtain ⟨hexact, hother⟩ := h.of_covers hremoves.tidy hsize
    (fun a x hx => (hremoves.covers a x).trans (and_iff_left hx)) fun hx => absurd hx hgone
  refine ⟨hexact, fun x => ?_⟩
  by_cases hx : x = reg
  · subst hx
    exact iff_of_false hgone fun h => h.2 rfl
  · rw [hother x hx, and_iff_left hx]

theorem Exact.treeInsert (h : Exact c mem) (hx : ¬Cached c reg) (hle : (mem reg).base ≤ (mem reg).bound) (limit : ℕ) :
    Exact (c.treeInsert mem reg limit).2 mem ∧
      ((c.treeInsert mem reg limit).1 = .success ∧
          (∀ x, Cached (c.treeInsert mem reg limit).2 x ↔ Cached c x ∨ x = reg) ∨
        (c.treeInsert mem reg limit).1 = .tempOutOfResource ∧
          ∀ x, Cached (c.treeInsert mem reg limit).2 x ↔ Cached c x) := by
  have hpre : Tidy (([] : List Vma).reverse ++ c.vmaList) := h.tidy
  have happend := seek_append (compareClosest (mem reg).base) [] c.vmaList
  have hseek := seek_closest (a := (mem reg).base) hpre nofun
  have hnone (a : ℕ) : ¬Covers c.vmaList a reg := fun ha => hx ((cached_iff h.tidy).mpr ⟨a, ha⟩)
  rw [Module.treeInsert]
  generalize seek (compareClosest (mem reg).base) [] c.vmaList = found at happend hseek ⊢
  obtain ⟨pre, rest⟩ := found
  rw [reverse_nil, nil_append] at happend
  have htidy : Tidy (pre.reverse ++ rest) := happend.symm ▸ h.tidy
  have hnew : ∀ v ∈ rest, reg ∉ v.regs := fun v hv hr => hx ⟨v, happend ▸ mem_append_right _ hv, hr⟩
  have hloop := insertLoop_spec mem limit htidy hseek.1 hseek.2 hnew
    (h.size.trans (by rw [← happend])) (Nat.le_succ_of_le hle)
  rw [happend] at hloop
  dsimp only at hloop ⊢
  generalize Module.insertLoop mem limit reg (mem reg).bound (mem reg).base pre rest c.curCacheSize = out at hloop ⊢
  obtain ⟨⟨l, size⟩, ok⟩ := out
  obtain ⟨⟨m, hm, hm', hok, hadds⟩, hsize⟩ := hloop
  have hother (a x : ℕ) (hne : x ≠ reg) : Covers l a x ↔ Covers c.vmaList a x := by
    rw [hadds.covers]
    exact or_iff_left fun h => hne h.1
  have hself (a : ℕ) : Covers l a reg ↔ (mem reg).base ≤ a ∧ a < m := by
    rw [hadds.covers, or_iff_right (hnone a)]
    exact and_iff_right rfl
  rcases ok with - | -
  · obtain ⟨hremoves, hsize'⟩ := treeDelete_spec (c := ⟨l, size⟩) mem reg hadds.tidy hsize fun a ha => by
      obtain ⟨hbase, hlt⟩ := (hself a).mp ha
      exact ⟨hbase, by omega, (hself _).mpr ⟨le_rfl, lt_of_le_of_lt hbase hlt⟩⟩
    have hcovers (a x : ℕ) : Covers (Module.treeDelete ⟨l, size⟩ mem reg).2.vmaList a x ↔ Covers c.vmaList a x := by
      rw [hremoves.covers]
      by_cases hne : x = reg
      · subst hne
        exact iff_of_false (fun h => h.2 rfl) (hnone a)
      · rw [hother a x hne, and_iff_left hne]
    have hcached (x : ℕ) : Cached (Module.treeDelete ⟨l, size⟩ mem reg).2 x ↔ Cached c x := by
      rw [cached_iff hremoves.tidy, cached_iff h.tidy]
      exact exists_congr fun a => hcovers a x
    obtain ⟨hexact, -⟩ := h.of_covers hremoves.tidy hsize' (fun a x _ => hcovers a x)
      fun hr => absurd ((hcached reg).mp hr) hx
    exact ⟨hexact, .inr ⟨rfl, hcached⟩⟩
  · obtain rfl := hok rfl
    have hcov : ∀ a, Covers l a reg ↔ (mem reg).base ≤ a ∧ a ≤ (mem reg).bound := fun a => by
      rw [hself, Nat.lt_succ_iff]
    have hout : Exact ⟨l, size⟩ mem ∧ ∀ x, x ≠ reg → (Cached ⟨l, size⟩ x ↔ Cached c x) :=
      h.of_covers hadds.tidy hsize hother fun _ => hcov
    obtain ⟨hexact, hcached⟩ := hout
    refine ⟨hexact, .inl ⟨rfl, fun x => ?_⟩⟩
    by_cases hne : x = reg
    · subst hne
      refine iff_of_true ?_ (.inr rfl)
      exact (cached_iff hadds.tidy).mpr ⟨_, (hcov _).mpr ⟨le_rfl, hle⟩⟩
    · exact (hcached x hne).trans (or_iff_left hne).symm

theorem Exact.insert (h : Exact c mem) (hx : ¬Cached c reg) (hle : (mem reg).base ≤ (mem reg).bound) (limit : ℕ) :
    Exact (c.insert mem reg limit).2 mem ∧
      ((c.insert mem reg limit).1 = .success ∧ (∀ x, Cached (c.insert mem reg limit).2 x ↔ Cached c x ∨ x = reg) ∨
        (c.insert mem reg limit).1 ≠ .success ∧ ∀ x, Cached (c.insert mem reg limit).2 x ↔ Cached c x) := by
  rw [Module.insert]
  split_ifs with hlimit
  · exact ⟨h, .inr ⟨nofun, fun _ => Iff.rfl⟩⟩
  · obtain ⟨hexact, hin | ⟨htemp, hout⟩⟩ := h.treeInsert hx hle limit
    · exact ⟨hexact, .inl hin⟩
    · refine ⟨hexact, .inr ⟨?_, hout⟩⟩
      rw [htemp]
      exact nofun

theorem findLoop_some {items : List ℕ} (h : findLoop mem b items = some x) :
    x ∈ items ∧ (mem x).invalid = false ∧ b ≤ (mem x).bound := by
  fun_induction findLoop mem b items with
  | case1 => cases h
  | case2 item items hinvalid ih =>
    obtain ⟨hmem, hx⟩ := ih h
    exact ⟨mem_cons_of_mem _ hmem, hx⟩
  | case3 item items hinvalid hbound =>
    cases h
    exact ⟨mem_cons_self, Bool.eq_false_iff.mpr hinvalid, hbound⟩
  | case4 => cases h
  | case5 item items hinvalid hbound hpersist ih =>
    obtain ⟨hmem, hx⟩ := ih h
    exact ⟨mem_cons_of_mem _ hmem, hx⟩

theorem Exact.find_some (h : Exact c mem) {base bound : ℕ} (hfind : c.treeFind mem base bound = some x) :
    Cached c x ∧ (mem x).invalid = false ∧ (mem x).base ≤ base ∧ bound ≤ (mem x).bound := by
  have hpre : Tidy (([] : List Vma).reverse ++ c.vmaList) := h.tidy
  have happend := seek_append (fun _ => compareSearch base) [] c.vmaList
  have hsome := (seek_search (a := base) hpre).2
  rw [Module.treeFind] at hfind
  generalize seek (fun _ => compareSearch base) [] c.vmaList = found at happend hsome hfind
  obtain ⟨pre, rest⟩ := found
  rcases rest with - | ⟨v, rest⟩
  · cases hfind
  · obtain ⟨hmem, hvalid, hbound⟩ := findLoop_some hfind
    obtain ⟨hstart, hstop⟩ := hsome v rest rfl
    have hv : v ∈ c.vmaList := by
      rw [reverse_nil, nil_append] at happend
      rw [← happend]
      exact mem_append_right _ mem_cons_self
    have hx : Cached c x := ⟨v, hv, hmem⟩
    exact ⟨hx, hvalid, ((h.covers x hx base).mp ⟨v, hv, hstart, hstop, hmem⟩).1, hbound⟩

variable {n : ℕ} {regs items : List ℕ}

structure Gathered (n : ℕ) (regs out : List ℕ) (P : ℕ → Prop) : Prop where
  nodup : out.Nodup
  length : out.length ≤ n
  subset : regs ⊆ out
  only : ∀ x ∈ out, x ∈ regs ∨ P x
  all : out.length = n ∨ ∀ x, P x → x ∈ out

theorem gather_spec (hnodup : regs.Nodup) (hlength : regs.length < n) :
    Gathered n regs (Module.gather mem n regs items) fun x => x ∈ items ∧ (mem x).invalid = false := by
  fun_induction Module.gather mem n regs items with
  | case1 regs => exact ⟨hnodup, le_of_lt hlength, fun _ h => h, fun _ h => .inl h, .inr (by simp)⟩
  | case2 regs item items hskip ih =>
    obtain ⟨h1, h2, h3, h4, h5⟩ := ih hnodup hlength
    refine ⟨h1, h2, h3, fun x hx => ?_, h5.imp_right fun hall x hx => ?_⟩
    · exact (h4 x hx).imp_right fun hP => ⟨mem_cons_of_mem _ hP.1, hP.2⟩
    · rcases mem_cons.mp hx.1 with rfl | hmem
      · rcases Bool.or_eq_true_iff.mp hskip with hinvalid | hin
        · rw [hx.2] at hinvalid
          cases hinvalid
        · exact h3 (contains_iff_mem.mp hin)
      · exact hall x ⟨hmem, hx.2⟩
  | case3 regs item items hskip hfull =>
    have hnew : (mem item).invalid = false ∧ item ∉ regs := by simpa using hskip
    refine ⟨?_, ?_, subset_append_left _ _, fun x hx => ?_, .inl ?_⟩
    · exact hnodup.append (nodup_singleton _) (by simpa using hnew.2)
    · simp [hfull]
    · refine (mem_append.mp hx).imp_right fun hx => ?_
      obtain rfl := mem_singleton.mp hx
      exact ⟨mem_cons_self, hnew.1⟩
    · simp [hfull]
  | case4 regs item items hskip hfull ih =>
    have hnew : (mem item).invalid = false ∧ item ∉ regs := by simpa using hskip
    have hnodup' : (regs ++ [item]).Nodup := hnodup.append (nodup_singleton _) (by simpa using hnew.2)
    obtain ⟨h1, h2, h3, h4, h5⟩ := ih hnodup' (by rw [length_append, length_singleton]; omega)
    refine ⟨h1, h2, fun x hx => h3 (mem_append_left _ hx), fun x hx => ?_, h5.imp_right fun hall x hx => ?_⟩
    · rcases h4 x hx with hx | hP
      · refine (mem_append.mp hx).imp_right fun hx => ?_
        obtain rfl := mem_singleton.mp hx
        exact ⟨mem_cons_self, hnew.1⟩
      · exact .inr ⟨mem_cons_of_mem _ hP.1, hP.2⟩
    · rcases mem_cons.mp hx.1 with rfl | hmem
      · exact h3 (mem_append_right _ (mem_singleton_self _))
      · exact hall x ⟨hmem, hx.2⟩

theorem Gathered.trans {out out' : List ℕ} {P Q R : ℕ → Prop} (h : Gathered n regs out P) (h' : Gathered n out out' Q)
    (hR : ∀ x, R x ↔ P x ∨ Q x) (hfull : out.length ≠ n) : Gathered n regs out' R := by
  refine ⟨h'.nodup, h'.length, fun x hx => h'.subset (h.subset hx), fun x hx => ?_, h'.all.imp_right fun hall x hx => ?_⟩
  · rcases h'.only x hx with hx | hQ
    · exact (h.only x hx).imp_right fun hP => (hR x).mpr (.inl hP)
    · exact .inr ((hR x).mpr (.inr hQ))
  · rcases (hR x).mp hx with hP | hQ
    · exact h'.subset ((h.all.resolve_left hfull) x hP)
    · exact hall x hQ

theorem seek_closest_split (h : Tidy l) (a : ℕ) : ∃ P, l = P ++ (seek (compareClosest a) [] l).2 ∧
    (∀ v ∈ P, v.stop < a) ∧ ∀ v ∈ (seek (compareClosest a) [] l).2, a ≤ v.stop := by
  have hpre : Tidy (([] : List Vma).reverse ++ l) := h
  have happend := seek_append (compareClosest a) [] l
  obtain ⟨hbefore, hbehind⟩ := seek_closest (a := a) hpre nofun
  exact ⟨_, happend.symm, before_reverse hbefore, hbehind⟩

theorem seek_closest_eq (h : Tidy (A ++ B)) (hA : ∀ v ∈ A, v.stop < a) (hB : ∀ v ∈ B, a ≤ v.stop) :
    (seek (compareClosest a) [] (A ++ B)).2 = B := by
  obtain ⟨P, hP, hbefore, hbehind⟩ := seek_closest_split h a
  have hfilter : (A ++ B).filter (fun v => decide (a ≤ v.stop)) = B := by
    rw [filter_append, filter_eq_nil_iff.mpr, filter_eq_self.mpr, nil_append]
    · simpa using hB
    · simpa using hA
  have hfilter' : (A ++ B).filter (fun v => decide (a ≤ v.stop)) = (seek (compareClosest a) [] (A ++ B)).2 := by
    rw [hP]
    rw [filter_append, filter_eq_nil_iff.mpr, filter_eq_self.mpr, nil_append, ← hP]
    · simpa using hbehind
    · simpa using hbefore
  rw [← hfilter', hfilter]

/-- The valid registrations of the ranges that do not end before `base` and start by `bound`. -/
def Wanted (mem : Memory) (l : List Vma) (base bound x : ℕ) : Prop :=
  ∃ v ∈ l, base ≤ v.stop ∧ v.start ≤ bound ∧ x ∈ v.regs ∧ (mem x).invalid = false

theorem wanted_iff {base bound : ℕ} (hA : ∀ v ∈ A, v.stop < base) (hB : ∀ v ∈ B, base ≤ v.stop) :
    Wanted mem (A ++ B) base bound x ↔ ∃ v ∈ B, v.start ≤ bound ∧ x ∈ v.regs ∧ (mem x).invalid = false := by
  constructor
  · rintro ⟨v, hv, hbase, hx⟩
    rcases mem_append.mp hv with hv | hv
    · exact absurd hbase (Nat.not_le_of_lt (hA v hv))
    · exact ⟨v, hv, hx⟩
  · rintro ⟨v, hv, hx⟩
    exact ⟨v, mem_append_right _ hv, hB v hv, hx⟩

/-- Enough turns: two for each range, one less at the start of a range, and one to see the end. -/
theorem findAllLoop_spec (h : Tidy c.vmaList) {fuel base bound : ℕ} {A B : List Vma} (hlist : c.vmaList = A ++ B)
    (hA : ∀ v ∈ A, v.stop < base) (hB : ∀ v ∈ B, base ≤ v.stop) (hle : base ≤ bound)
    (hfuel : 2 * B.length + 1 ≤ fuel ∨ 2 * B.length ≤ fuel ∧ ∃ v B', B = v :: B' ∧ v.start ≤ base)
    (hnodup : regs.Nodup) (hlength : regs.length < n) :
    Gathered n regs (c.findAllLoop mem n bound fuel base regs) (Wanted mem c.vmaList base bound) := by
  have htidy : Tidy (A ++ B) := hlist ▸ h
  induction fuel generalizing base regs A B with
  | zero =>
    rcases hfuel with hfuel | ⟨hfuel, v, B', rfl, -⟩
    · omega
    · rw [length_cons] at hfuel
      omega
  | succ fuel ih =>
    have hseek : (seek (compareClosest base) [] c.vmaList).2 = B := by
      rw [hlist]
      exact seek_closest_eq htidy hA hB
    have hwanted (x : ℕ) : Wanted mem c.vmaList base bound x ↔
        ∃ v ∈ B, v.start ≤ bound ∧ x ∈ v.regs ∧ (mem x).invalid = false := by
      rw [hlist]
      exact wanted_iff hA hB
    have hnone (hB : ∀ v ∈ B, bound < v.start) : Gathered n regs regs (Wanted mem c.vmaList base bound) := by
      refine ⟨hnodup, le_of_lt hlength, fun _ h => h, fun _ h => .inl h, .inr fun x hx => ?_⟩
      obtain ⟨v, hv, hstart, -⟩ := (hwanted x).mp hx
      exact absurd hstart (Nat.not_le_of_lt (hB v hv))
    rw [Module.findAllLoop, hseek]
    rcases B with - | ⟨v, B⟩
    · exact hnone nofun
    · have hv : base ≤ v.stop := hB v mem_cons_self
      have hself := htidy.self.1
      have hlist' : c.vmaList = (A ++ [v]) ++ B := by rw [hlist, append_assoc]; rfl
      dsimp only
      split_ifs with hgap hbound hfull hmore
      · -- the gap before the range is skipped
        have hB' : ∀ w ∈ v :: B, v.start ≤ w.stop := by
          intro w hw
          rcases mem_cons.mp hw with rfl | hw
          · exact hself
          · have := htidy.behind w hw
            have := htidy.right.proper w (mem_cons_of_mem _ hw)
            omega
        have hA' : ∀ w ∈ A, w.stop < v.start := htidy.before
        have hrest := ih hlist hA' hB' hbound (by
          rcases hfuel with hfuel | ⟨-, w, B', heq, hstart⟩
          · exact .inr ⟨by omega, v, B, rfl, le_rfl⟩
          · obtain ⟨rfl, rfl⟩ := List.cons.inj heq
            omega) hnodup hlength htidy
        have hsame (x : ℕ) : Wanted mem c.vmaList v.start bound x ↔ Wanted mem c.vmaList base bound x := by
          rw [hwanted, hlist]
          exact wanted_iff hA' hB'
        exact ⟨hrest.nodup, hrest.length, hrest.subset, fun x hx => (hrest.only x hx).imp_right (hsame x).mp,
          hrest.all.imp_right fun hall x hx => hall x ((hsame x).mpr hx)⟩
      · refine hnone fun w hw => ?_
        rcases mem_cons.mp hw with rfl | hw
        · exact Nat.lt_of_not_le hbound
        · have := htidy.behind w hw
          omega
      all_goals
        have hgather : Gathered n regs (Module.gather mem n regs v.regs) fun x => x ∈ v.regs ∧ (mem x).invalid = false :=
          gather_spec hnodup hlength
        have hin (x : ℕ) (hx : x ∈ v.regs ∧ (mem x).invalid = false) : Wanted mem c.vmaList base bound x :=
          (hwanted x).mpr ⟨v, mem_cons_self, Nat.le_trans (Nat.le_of_not_lt hgap) hle, hx⟩
      · exact ⟨hgather.nodup, hgather.length, hgather.subset, fun x hx => (hgather.only x hx).imp_right (hin x), .inl hfull⟩
      · have hA' : ∀ w ∈ A ++ [v], w.stop < v.stop + 1 := by
          intro w hw
          rcases mem_append.mp hw with hw | hw
          · have := hA w hw
            omega
          · obtain rfl := mem_singleton.mp hw
            exact Nat.lt_succ_self _
        have hB' : ∀ w ∈ B, v.stop + 1 ≤ w.stop := by
          intro w hw
          have := htidy.behind w hw
          have := htidy.right.proper w (mem_cons_of_mem _ hw)
          omega
        have hfuel' : 2 * B.length + 1 ≤ fuel := by
          rcases hfuel with hfuel | ⟨hfuel, -⟩ <;> rw [length_cons] at hfuel <;> omega
        have hrest := ih hlist' hA' hB' hmore (.inl hfuel') hgather.nodup
          (lt_of_le_of_ne hgather.length hfull) (hlist' ▸ h)
        refine hgather.trans hrest (fun x => ?_) hfull
        rw [hwanted, hlist', wanted_iff hA' hB']
        constructor
        · rintro ⟨w, hw, hstart, hx⟩
          rcases mem_cons.mp hw with rfl | hw
          · exact .inl hx
          · exact .inr ⟨w, hw, hstart, hx⟩
        · rintro (hx | ⟨w, hw, hx⟩)
          · exact ⟨v, mem_cons_self, Nat.le_trans (Nat.le_of_not_lt hgap) hle, hx⟩
          · exact ⟨w, mem_cons_of_mem _ hw, hx⟩
      · refine ⟨hgather.nodup, hgather.length, hgather.subset, fun x hx => (hgather.only x hx).imp_right (hin x),
          hgather.all.imp_right fun hall x hx => hall x ?_⟩
        obtain ⟨w, hw, hstart, hx⟩ := (hwanted x).mp hx
        rcases mem_cons.mp hw with rfl | hw
        · exact hx
        · have := htidy.behind w hw
          omega

theorem Exact.findAll_spec (h : Exact c mem) {base bound : ℕ} (hle : base ≤ bound) (hn : 0 < n) :
    Gathered n [] (c.treeFindAll mem base bound n)
      fun x => Cached c x ∧ (mem x).invalid = false ∧ base ≤ (mem x).bound ∧ (mem x).base ≤ bound := by
  obtain ⟨A, hlist, hA, hB⟩ := seek_closest_split h.tidy base
  generalize (seek (compareClosest base) [] c.vmaList).2 = B at hlist hB
  have hlength : B.length ≤ c.vmaList.length := by
    rw [hlist, length_append]
    omega
  have hloop : Gathered n [] (c.treeFindAll mem base bound n) (Wanted mem c.vmaList base bound) :=
    findAllLoop_spec h.tidy hlist hA hB hle (.inl (by omega)) nodup_nil hn
  have hiff (x : ℕ) : Wanted mem c.vmaList base bound x ↔
      Cached c x ∧ (mem x).invalid = false ∧ base ≤ (mem x).bound ∧ (mem x).base ≤ bound := by
    constructor
    · rintro ⟨v, hv, hbase, hbound, hx, hvalid⟩
      have hc : Cached c x := ⟨v, hv, hx⟩
      have hproper := h.tidy.proper v hv
      have hstart := (h.covers x hc v.start).mp ⟨v, hv, le_rfl, hproper, hx⟩
      have hstop := (h.covers x hc v.stop).mp ⟨v, hv, hproper, le_rfl, hx⟩
      exact ⟨hc, hvalid, le_trans hbase hstop.2, le_trans hstart.1 hbound⟩
    · rintro ⟨hc, hvalid, hbound, hbase⟩
      have hmax : Covers c.vmaList (max base (mem x).base) x :=
        (h.covers x hc _).mpr ⟨le_max_right _ _, Nat.max_le.mpr ⟨hbound, h.base_le hc⟩⟩
      obtain ⟨v, hv, hstart, hstop, hx⟩ := hmax
      exact ⟨v, hv, le_trans (le_max_left _ _) hstop, le_trans hstart (Nat.max_le.mpr ⟨hle, hbase⟩), hx, hvalid⟩
  exact ⟨hloop.nodup, hloop.length, hloop.subset, fun x hx => (hloop.only x hx).imp_right (hiff x).mp,
    hloop.all.imp_right fun hall x hx => hall x ((hiff x).mpr hx)⟩

variable {w : World}

theorem Tidy.bytes_eq_card (h : Tidy l) {s : Finset ℕ} (hs : ∀ a, a ∈ s ↔ ∃ v ∈ l, v.start ≤ a ∧ a ≤ v.stop) :
    bytes l = s.card := by
  induction l generalizing s with
  | nil =>
    obtain rfl : s = ∅ := Finset.eq_empty_of_forall_notMem fun a ha => by simpa using (hs a).mp ha
    rfl
  | cons v l ih =>
    have hle : v.start ≤ v.stop := h.proper v mem_cons_self
    have hbehind : ∀ w ∈ l, v.stop < w.start := fun w hw => rel_of_pairwise_cons h.apart hw
    have hsub : Finset.Icc v.start v.stop ⊆ s := fun a ha => (hs a).mpr ⟨v, mem_cons_self, Finset.mem_Icc.mp ha⟩
    have hrest := ih h.tail (s := s \ Finset.Icc v.start v.stop) fun a => by
      rw [Finset.mem_sdiff, hs, Finset.mem_Icc]
      grind
    rw [bytes_cons, hrest, Finset.card_sdiff_of_subset hsub, Nat.card_Icc]
    have := Finset.card_le_card hsub
    rw [Nat.card_Icc] at this
    omega

/-- The cache is the map from the addresses to the registrations that are held. -/
structure World.IsMap (w : World) : Prop where
  tidy : Tidy w.cache.vmaList
  covers : ∀ a x, Covers w.cache.vmaList a x ↔ x ∈ w.held ∧ (w.mem x).base ≤ a ∧ a ≤ (w.mem x).bound
  size : w.cache.curCacheSize = (w.held.biUnion fun x => Finset.Icc (w.mem x).base (w.mem x).bound).card
  found : ∀ base bound x, w.cache.treeFind w.mem base bound = some x →
    x ∈ w.held ∧ (w.mem x).invalid = false ∧ (w.mem x).base ≤ base ∧ bound ≤ (w.mem x).bound
  all : ∀ base bound n, base ≤ bound → 0 < n → Gathered n [] (w.cache.treeFindAll w.mem base bound n)
    fun x => x ∈ w.held ∧ (w.mem x).invalid = false ∧ base ≤ (w.mem x).bound ∧ (w.mem x).base ≤ bound

structure World.Inv (w : World) : Prop where
  exact : Exact w.cache w.mem
  held : ∀ x, Cached w.cache x ↔ x ∈ w.held

theorem World.Inv.isMap (h : w.Inv) : w.IsMap where
  tidy := h.exact.tidy
  covers a x := by
    rw [← h.held]
    refine ⟨fun hx => ?_, fun hx => (h.exact.covers x hx.1 a).mpr hx.2⟩
    have hc : Cached w.cache x := (cached_iff h.exact.tidy).mpr ⟨a, hx⟩
    exact ⟨hc, (h.exact.covers x hc a).mp hx⟩
  size := by
    refine h.exact.size.trans (h.exact.tidy.bytes_eq_card fun a => ?_)
    simp only [Finset.mem_biUnion, Finset.mem_Icc, ← h.held]
    constructor
    · rintro ⟨x, hx, ha⟩
      obtain ⟨v, hv, hstart, hstop, -⟩ := (h.exact.covers x hx a).mpr ha
      exact ⟨v, hv, hstart, hstop⟩
    · rintro ⟨v, hv, ha⟩
      obtain ⟨x, hx⟩ := exists_mem_of_ne_nil _ (h.exact.tidy.used v hv)
      exact ⟨x, ⟨v, hv, hx⟩, (h.exact.covers x ⟨v, hv, hx⟩ a).mp ⟨v, hv, ha.1, ha.2, hx⟩⟩
  found base bound x hfind := by
    rw [← h.held]
    exact h.exact.find_some hfind
  all base bound n hle hn := by
    simp only [← h.held]
    exact h.exact.findAll_spec hle hn

theorem World.Inv.next (h : w.Inv) {e : Event} (hallowed : w.Allowed e) : (w.next e).Inv := by
  cases e with
  | insert reg limit =>
    obtain ⟨hnew, hle⟩ := hallowed
    obtain ⟨hexact, ⟨hrc, hin⟩ | ⟨hrc, hin⟩⟩ := h.exact.insert (mt (h.held reg).mp hnew) hle limit
    · exact ⟨hexact, fun x => by simp [World.next, hrc, hin, h.held, or_comm]⟩
    · exact ⟨hexact, fun x => by simp [World.next, hrc, hin, h.held]⟩
  | delete reg =>
    obtain ⟨hexact, hin⟩ := h.exact.treeDelete reg
    exact ⟨hexact, fun x => by simp [World.next, hin, h.held, and_comm]⟩
  | change mem => exact ⟨h.exact.congr fun x hx => hallowed x ((h.held x).mp hx), h.held⟩

theorem inv_of_init (h : calls.init w) : w.Inv := by
  obtain ⟨c, mem, held⟩ := w
  obtain ⟨rfl, rfl⟩ := h
  exact ⟨⟨⟨.nil, nofun, nofun, nofun⟩, rfl, fun x hx => by simp [Cached] at hx⟩, by simp [Cached]⟩

/-- In every run the cache is an exact interval map of what it holds. -/
theorem isMap_of_reachable (h : calls.Reachable w) : w.IsMap := by
  refine (h.invariant (fun w => inv_of_init) ?_).isMap
  rintro w e _ hinv ⟨hallowed, rfl⟩
  exact hinv.next hallowed

/-- Two registrations of ten bytes, which overlap in five. -/
def overlap : World := ⟨⟨[], 0⟩, fun x => ⟨5 * x, 5 * x + 9, false, false, false, 0⟩, ∅⟩

theorem isMap_of_reachable_overlap : ((overlap.next (.insert 1 0)).next (.insert 2 0)).IsMap := by
  have hinit : calls.Reachable overlap := ⟨overlap, [], ⟨rfl, rfl⟩, .nil _⟩
  have hfirst : calls.Reachable (overlap.next (.insert 1 0)) :=
    hinit.step (e := Event.insert 1 0) ⟨⟨Finset.notMem_empty _, by decide⟩, rfl⟩
  refine isMap_of_reachable (hfirst.step (e := Event.insert 2 0) ⟨⟨?_, by decide⟩, rfl⟩)
  show 2 ∉ if (overlap.cache.insert overlap.mem 1 0).1 = .success then insert 1 overlap.held else overlap.held
  split_ifs <;> decide

end OpenMPI.Rcache
