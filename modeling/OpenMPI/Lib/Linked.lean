import Mathlib.Data.List.Chain
import Mathlib.Data.List.Nodup

/-!
# Lists linked by words

A list in memory is an address and a word for each cell, the address of the next one; 0 is the end
(`Chain`).  To take a cell out, its predecessor is sought from the start of the list (`Chain.seek`).
-/

namespace OpenMPI.Lib

open List Function

/-- From `p` on, the words lead through the cells of the list to the end. -/
def Chain (next : ℕ → ℕ) : (p : ℕ) → List ℕ → Prop
  | p, [] => p = 0
  | p, c :: l => p = c ∧ c ≠ 0 ∧ Chain next (next c) l

/-- The cell before `target`, sought from `p` on. -/
def seek (next : ℕ → ℕ) (target : ℕ) : (fuel p : ℕ) → Option ℕ
  | 0, _ => none
  | fuel + 1, p => if p = 0 then none else if next p = target then some p else seek next target fuel (next p)

namespace Chain

variable {next next' : ℕ → ℕ} {p c v : ℕ} {l : List ℕ}

theorem congr (h : Chain next p l) (heq : ∀ c ∈ l, next' c = next c) : Chain next' p l := by
  induction l generalizing p with
  | nil => exact h
  | cons c l ih =>
    obtain ⟨rfl, hne, h⟩ := h
    refine ⟨rfl, hne, ?_⟩
    rw [heq p mem_cons_self]
    exact ih h fun d hd => heq d (mem_cons_of_mem _ hd)

theorem update (h : Chain next p l) (hc : c ∉ l) : Chain (Function.update next c v) p l :=
  h.congr fun _ hd => update_of_ne (ne_of_mem_of_not_mem hd hc) _ _

theorem eq_nil (h : Chain next 0 l) : l = [] := by
  cases l with
  | nil => rfl
  | cons c l => exact absurd h.1.symm h.2.1

theorem unique {l' : List ℕ} (h : Chain next p l) (h' : Chain next p l') : l = l' := by
  induction l generalizing p l' with
  | nil =>
    obtain rfl : p = 0 := h
    exact h'.eq_nil.symm
  | cons c l ih =>
    obtain ⟨rfl, hne, h⟩ := h
    cases l' with
    | nil => exact absurd h' hne
    | cons d l' =>
      obtain ⟨rfl, -, h'⟩ := h'
      rw [ih h h']

theorem eq_cons (h : Chain next p l) (hp : p ≠ 0) : ∃ l', l = p :: l' ∧ Chain next (next p) l' := by
  cases l with
  | nil => exact absurd h hp
  | cons c l =>
    obtain ⟨rfl, -, h⟩ := h
    exact ⟨l, rfl, h⟩

theorem ne_zero (h : Chain next p l) (hc : c ∈ l) : c ≠ 0 := by
  induction l generalizing p with
  | nil => cases hc
  | cons d l ih =>
    obtain ⟨rfl, hne, h⟩ := h
    rcases mem_cons.mp hc with rfl | hc
    · exact hne
    · exact ih h hc

theorem push (h : Chain next p l) (hc : c ∉ l) (hne : c ≠ 0) :
    Chain (Function.update next c p) c (c :: l) := by
  refine ⟨rfl, hne, ?_⟩
  rw [update_self]
  exact h.update hc

theorem seek (h : Chain next p l) (hnodup : l.Nodup) (hc : c ∈ l) (hp : p ≠ c) {fuel : ℕ}
    (hfuel : l.length ≤ fuel) : ∃ q ∈ l, q ≠ c ∧ Lib.seek next c fuel p = some q ∧
      Chain (Function.update next q (next c)) p (l.erase c) := by
  induction l generalizing p fuel with
  | nil => cases hc
  | cons d l ih =>
    obtain ⟨rfl, hne, h⟩ := h
    obtain ⟨hpl, hnodup⟩ := nodup_cons.mp hnodup
    have hcl : c ∈ l := (mem_cons.mp hc).resolve_left hp.symm
    rw [erase_cons_tail (by simpa using hp)]
    rcases fuel with _ | fuel
    · simp at hfuel
    · rw [Lib.seek, if_neg hne]
      by_cases hnext : next p = c
      · refine ⟨p, mem_cons_self, hp, if_pos hnext, rfl, hne, ?_⟩
        rw [hnext] at h
        obtain ⟨l', rfl, hrest⟩ := h.eq_cons (h.ne_zero hcl)
        rw [update_self, erase_cons_head]
        exact hrest.update fun hmem => hpl (mem_cons_of_mem _ hmem)
      · rw [if_neg hnext]
        obtain ⟨q, hq, hqc, hseek, hchain⟩ := ih h hnodup hcl hnext (by simpa using hfuel)
        refine ⟨q, mem_cons_of_mem _ hq, hqc, hseek, rfl, hne, ?_⟩
        rwa [update_of_ne (ne_of_mem_of_not_mem hq hpl).symm]

end Chain

end OpenMPI.Lib

/-!
## Rings of links in both directions

A ring goes from a node through others back to it; two successive nodes point at each other (`Ring`).
The lists on a ring change by links at the ends of its pieces only: a node is put in or taken out
(`Ring.insert`, `Ring.unlink`), two neighbouring pieces change places (`Ring.swap`), or a piece of one
ring goes to another (`Ring.move`).
-/

namespace OpenMPI.Lib

open List

variable {α : Type*} {next prev next' prev' : α → α} {l m p q x b c e f u v : α}
  {xs ys B C as cs : List α}

def Link (next prev : α → α) (a b : α) : Prop := next a = b ∧ prev b = a

def Ring (next prev : α → α) (l : α) (xs : List α) : Prop := (l :: xs ++ [l]).IsChain (Link next prev)

theorem chain_congr (h : B.IsChain (Link next prev)) (hnext : ∀ a ∈ B.dropLast, next' a = next a)
    (hprev : ∀ b ∈ B.tail, prev' b = prev b) : B.IsChain (Link next' prev') := by
  induction h with
  | nil => exact .nil
  | singleton a => exact .singleton a
  | cons_cons hab _ ih =>
    refine .cons_cons ⟨?_, ?_⟩ (ih (fun c hc => hnext c ?_) fun c hc => hprev c ?_)
    · rw [hnext _ (by simp), hab.1]
    · rw [hprev _ (by simp), hab.2]
    · exact mem_cons_of_mem _ hc
    · exact mem_cons_of_mem _ hc

theorem ring_append (hp : (l :: xs).getLast? = some p) (hq : (ys ++ [l]).head? = some q) :
    Ring next prev l (xs ++ ys) ↔ (l :: xs).IsChain (Link next prev) ∧ (ys ++ [l]).IsChain (Link next prev) ∧
      Link next prev p q := by
  rw [Ring, show l :: (xs ++ ys) ++ [l] = (l :: xs) ++ (ys ++ [l]) by simp, isChain_append, hp, hq]
  simp

theorem Ring.congr (h : Ring next prev l xs) (hnext : ∀ a ∈ l :: xs, next' a = next a)
    (hprev : ∀ b ∈ l :: xs, prev' b = prev b) : Ring next' prev' l xs := by
  refine chain_congr h (fun a ha => hnext a ?_) fun b hb => hprev b ?_
  · rw [dropLast_concat] at ha
    exact ha
  · rw [cons_append, tail_cons] at hb
    rcases mem_append.mp hb with hb | hb
    · exact mem_cons_of_mem l hb
    · simp_all

theorem ring_nil : Ring next prev l [] ↔ next l = l ∧ prev l = l := by
  simp [Ring, Link]

theorem Ring.iterate (h : Ring next prev l (xs ++ ys)) : (l :: xs).getLast? = some (next^[xs.length] l) := by
  induction xs using List.reverseRecOn generalizing ys with
  | nil => rfl
  | append_singleton xs x ih =>
    rw [append_assoc] at h
    have hlink := ((ring_append (ih h) rfl).mp h).2.2.1
    rw [← cons_append, getLast?_concat, length_append, length_singleton,
      Function.iterate_succ_apply', hlink]

theorem piece_congr (h : B.IsChain (Link next prev)) (hnodup : B.Nodup) {N P : List α}
    (hnext : ∀ a ∉ N, next' a = next a) (hprev : ∀ b ∉ P, prev' b = prev b)
    (hlast : ∀ a ∈ N, a ∈ B → B.getLast? = some a) (hfirst : ∀ b ∈ P, b ∈ B → B.head? = some b) :
    B.IsChain (Link next' prev') := by
  refine chain_congr h (fun a ha => hnext a fun hN => ?_) fun b hb => hprev b fun hP => ?_
  · obtain ⟨init, rfl⟩ := getLast?_eq_some_iff.mp (hlast a hN ((dropLast_sublist B).mem ha))
    rw [dropLast_concat] at ha
    exact (nodup_append.mp hnodup).2.2 a ha a (by simp) rfl
  · obtain ⟨tail, rfl⟩ := head?_eq_some_iff.mp (hfirst b hP (mem_of_mem_tail hb))
    exact (nodup_cons.mp hnodup).1 hb

theorem ring_middle (hp : (l :: xs).getLast? = some p) (hq : (ys ++ [l]).head? = some q) (hb : B.head? = some b)
    (he : B.getLast? = some e) :
    Ring next prev l (xs ++ (B ++ ys)) ↔ (l :: xs).IsChain (Link next prev) ∧ B.IsChain (Link next prev) ∧
      (ys ++ [l]).IsChain (Link next prev) ∧ Link next prev p b ∧ Link next prev e q := by
  have hhead : (B ++ ys ++ [l]).head? = some b := by simp [hb]
  have hmiddle : (B ++ ys ++ [l]).IsChain (Link next prev) ↔
      B.IsChain (Link next prev) ∧ (ys ++ [l]).IsChain (Link next prev) ∧ Link next prev e q := by
    rw [append_assoc, isChain_append, he, hq]
    simp
  rw [ring_append hp hhead, hmiddle]
  tauto

/-- The two ends of a ring have no repetitions and share the node it starts at only. -/
structure Ends (l : α) (xs ys : List α) : Prop where
  left : (l :: xs).Nodup
  right : (ys ++ [l]).Nodup
  apart : ∀ a ∈ l :: xs, a ∈ ys ++ [l] → a = l

theorem ends_of_nodup (h : (l :: (xs ++ ys)).Nodup) : Ends l xs ys := by
  rw [nodup_cons, mem_append, nodup_append', not_or] at h
  obtain ⟨⟨hxs, hys⟩, hnxs, hnys, hdisj⟩ := h
  refine ⟨nodup_cons.mpr ⟨hxs, hnxs⟩, ?_, fun a ha ha' => ?_⟩
  · rw [nodup_append_comm]
    exact nodup_cons.mpr ⟨hys, hnys⟩
  · rcases mem_cons.mp ha with rfl | ha
    · rfl
    · rcases mem_append.mp ha' with ha' | ha'
      · exact absurd ha' (hdisj ha)
      · exact mem_singleton.mp ha'

namespace Ends

theorem getLast (h : Ends l xs ys) (hp : (l :: xs).getLast? = some p) (hmem : p ∈ ys ++ [l]) :
    (ys ++ [l]).getLast? = some p := by
  rw [h.apart p (mem_of_getLast? hp) hmem]
  simp

theorem head (h : Ends l xs ys) (hq : (ys ++ [l]).head? = some q) (hmem : q ∈ l :: xs) : (l :: xs).head? = some q := by
  rw [h.apart q hmem (mem_of_head? hq)]
  simp

end Ends

theorem Ring.insert (h : Ring next prev l (xs ++ ys)) (hnodup : (l :: (xs ++ ys)).Nodup) (hx : x ∉ l :: (xs ++ ys))
    (hp : (l :: xs).getLast? = some p) (hq : (ys ++ [l]).head? = some q)
    (hnextp : next' p = x) (hnextx : next' x = q) (hnext : ∀ a ∉ [p, x], next' a = next a)
    (hprevq : prev' q = x) (hprevx : prev' x = p) (hprev : ∀ b ∉ [q, x], prev' b = prev b) :
    Ring next' prev' l (xs ++ x :: ys) := by
  obtain ⟨hleft, hright, -⟩ := (ring_append hp hq).mp h
  have hends := ends_of_nodup hnodup
  have hxleft : x ∉ l :: xs := fun hmem => hx (by simp_all)
  have hxright : x ∉ ys ++ [l] := fun hmem => hx (by simp_all [or_comm])
  refine (ring_middle (B := [x]) hp hq rfl rfl).mpr ⟨?_, .singleton x, ?_, ⟨hnextp, hprevx⟩, hnextx, hprevq⟩
  · refine piece_congr hleft hends.left hnext hprev ?_ ?_ <;> simp only [forall_mem_cons, not_mem_nil,
      false_implies, implies_true, and_true]
    · exact ⟨fun _ => hp, fun hmem => absurd hmem hxleft⟩
    · exact ⟨hends.head hq, fun hmem => absurd hmem hxleft⟩
  · refine piece_congr hright hends.right hnext hprev ?_ ?_ <;> simp only [forall_mem_cons, not_mem_nil,
      false_implies, implies_true, and_true]
    · exact ⟨hends.getLast hp, fun hmem => absurd hmem hxright⟩
    · exact ⟨fun _ => hq, fun hmem => absurd hmem hxright⟩

theorem Ring.unlink (h : Ring next prev l (xs ++ x :: ys)) (hnodup : (l :: (xs ++ x :: ys)).Nodup)
    (hp : (l :: xs).getLast? = some p) (hq : (ys ++ [l]).head? = some q)
    (hnextp : next' p = q) (hnext : ∀ a ∉ [p], next' a = next a)
    (hprevq : prev' q = p) (hprev : ∀ b ∉ [q], prev' b = prev b) : Ring next' prev' l (xs ++ ys) := by
  have hends : Ends l xs ys := by
    refine ends_of_nodup (hnodup.sublist (List.Sublist.cons_cons l ?_))
    exact (List.Sublist.refl xs).append (sublist_cons_self x ys)
  obtain ⟨hleft, -, hright, -, -⟩ := (ring_middle (B := [x]) hp hq rfl rfl).mp h
  refine (ring_append hp hq).mpr ⟨?_, ?_, hnextp, hprevq⟩
  · refine piece_congr hleft hends.left hnext hprev ?_ ?_ <;> rw [forall_mem_singleton]
    · exact fun _ => hp
    · exact hends.head hq
  · refine piece_congr hright hends.right hnext hprev ?_ ?_ <;> rw [forall_mem_singleton]
    · exact hends.getLast hp
    · exact fun _ => hq

/-- Two neighbouring pieces change places. -/
theorem Ring.swap (h : Ring next prev l (xs ++ (B ++ (C ++ ys)))) (hnodup : (l :: (xs ++ (B ++ (C ++ ys)))).Nodup)
    (hp : (l :: xs).getLast? = some p) (hq : (ys ++ [l]).head? = some q) (hb : B.head? = some b)
    (he : B.getLast? = some e) (hc : C.head? = some c) (hf : C.getLast? = some f)
    (hnextp : next' p = c) (hnextf : next' f = b) (hnexte : next' e = q) (hnext : ∀ a ∉ [p, f, e], next' a = next a)
    (hprevc : prev' c = p) (hprevb : prev' b = f) (hprevq : prev' q = e) (hprev : ∀ a ∉ [c, b, q], prev' a = prev a) :
    Ring next' prev' l (xs ++ (C ++ (B ++ ys))) := by
  have hqC : (C ++ ys ++ [l]).head? = some c := by simp [hc]
  have hqB : (B ++ ys ++ [l]).head? = some b := by simp [hb]
  obtain ⟨hleft, hB, hrest, -, -⟩ := (ring_middle hp hqC hb he).mp h
  rw [append_assoc, isChain_append] at hrest
  obtain ⟨hC, hright, -⟩ := hrest
  have hends : Ends l xs ys := by
    refine ends_of_nodup (hnodup.sublist (List.Sublist.cons_cons l ?_))
    refine (List.Sublist.refl xs).append ?_
    exact (sublist_append_right C ys).trans (sublist_append_right B _)
  -- what the pieces have in common
  have hshape : (l :: xs ++ (B ++ (C ++ ys))).Nodup := hnodup
  rw [nodup_append', nodup_append', nodup_append'] at hshape
  obtain ⟨-, ⟨hnB, ⟨hnC, -, hCy⟩, hBCy⟩, hA⟩ := hshape
  have hAB {a : α} (ha : a ∈ B) : a ∉ l :: xs := fun hmem => hA hmem (by simp [ha])
  have hAC {a : α} (ha : a ∈ C) : a ∉ l :: xs := fun hmem => hA hmem (by simp [ha])
  have hBC {a : α} (ha : a ∈ B) : a ∉ C := fun hmem => hBCy ha (by simp [hmem])
  have hBD {a : α} (ha : a ∈ B) : a ∉ ys ++ [l] := by
    rw [mem_append, mem_singleton, not_or]
    exact ⟨fun hmem => hBCy ha (by simp [hmem]), fun heq => hAB ha (by simp [heq])⟩
  have hCD {a : α} (ha : a ∈ C) : a ∉ ys ++ [l] := by
    rw [mem_append, mem_singleton, not_or]
    exact ⟨fun hmem => hCy ha hmem, fun heq => hAC ha (by simp [heq])⟩
  have hbmem := mem_of_head? hb
  have hemem := mem_of_getLast? he
  have hcmem := mem_of_head? hc
  have hfmem := mem_of_getLast? hf
  have hpmem : p ∈ l :: xs := mem_of_getLast? hp
  have hqmem : q ∈ ys ++ [l] := mem_of_head? hq
  have hleft' : (l :: xs).IsChain (Link next' prev') := by
    refine piece_congr hleft hends.left hnext hprev ?_ ?_ <;> simp only [forall_mem_cons, not_mem_nil,
      false_implies, implies_true, and_true]
    · exact ⟨fun _ => hp, fun hmem => absurd hmem (hAC hfmem), fun hmem => absurd hmem (hAB hemem)⟩
    · exact ⟨fun hmem => absurd hmem (hAC hcmem), fun hmem => absurd hmem (hAB hbmem), hends.head hq⟩
  have hB' : B.IsChain (Link next' prev') := by
    refine piece_congr hB hnB hnext hprev ?_ ?_ <;> simp only [forall_mem_cons, not_mem_nil,
      false_implies, implies_true, and_true]
    · exact ⟨fun hmem => absurd hpmem (hAB hmem), fun hmem => absurd hfmem (hBC hmem), fun _ => he⟩
    · exact ⟨fun hmem => absurd hcmem (hBC hmem), fun _ => hb, fun hmem => absurd hqmem (hBD hmem)⟩
  have hC' : C.IsChain (Link next' prev') := by
    refine piece_congr hC hnC hnext hprev ?_ ?_ <;> simp only [forall_mem_cons, not_mem_nil,
      false_implies, implies_true, and_true]
    · exact ⟨fun hmem => absurd hpmem (hAC hmem), fun _ => hf, fun hmem => absurd hmem (hBC hemem)⟩
    · exact ⟨fun _ => hc, fun hmem => absurd hmem (hBC hbmem), fun hmem => absurd hqmem (hCD hmem)⟩
  have hright' : (ys ++ [l]).IsChain (Link next' prev') := by
    refine piece_congr hright hends.right hnext hprev ?_ ?_ <;> simp only [forall_mem_cons, not_mem_nil,
      false_implies, implies_true, and_true]
    · exact ⟨hends.getLast hp, fun hmem => absurd hmem (hCD hfmem), fun hmem => absurd hmem (hBD hemem)⟩
    · exact ⟨fun hmem => absurd hmem (hCD hcmem), fun hmem => absurd hmem (hBD hbmem), fun _ => hq⟩
  refine (ring_middle hp hqB hc hf).mpr ⟨hleft', hC', ?_, ⟨hnextp, hprevc⟩, hnextf, hprevb⟩
  rw [append_assoc, isChain_append, he, hq]
  refine ⟨hB', hright', ?_⟩
  rintro a ⟨⟩ a' ⟨⟩
  exact ⟨hnexte, hprevq⟩

/-- A piece of the ring through `m` goes between `p` and `q` of the ring through `l`. -/
theorem Ring.move (h : Ring next prev l (xs ++ ys)) (h' : Ring next prev m (as ++ (B ++ cs)))
    (hnodup : (l :: (xs ++ ys) ++ m :: (as ++ (B ++ cs))).Nodup)
    (hp : (l :: xs).getLast? = some p) (hq : (ys ++ [l]).head? = some q) (hb : B.head? = some b)
    (he : B.getLast? = some e) (hu : (m :: as).getLast? = some u) (hv : (cs ++ [m]).head? = some v)
    (hnextp : next' p = b) (hnexte : next' e = q) (hnextu : next' u = v) (hnext : ∀ a ∉ [p, e, u], next' a = next a)
    (hprevb : prev' b = p) (hprevq : prev' q = e) (hprevv : prev' v = u) (hprev : ∀ a ∉ [b, q, v], prev' a = prev a) :
    Ring next' prev' l (xs ++ (B ++ ys)) ∧ Ring next' prev' m (as ++ cs) := by
  obtain ⟨hleft, hright, -⟩ := (ring_append hp hq).mp h
  obtain ⟨hleft₂, hB, hright₂, -, -⟩ := (ring_middle hu hv hb he).mp h'
  rw [nodup_append'] at hnodup
  obtain ⟨hn₁, hn₂, hdisj⟩ := hnodup
  have hends := ends_of_nodup hn₁
  have hends₂ : Ends m as cs := by
    refine ends_of_nodup (hn₂.sublist (List.Sublist.cons_cons m ?_))
    exact (List.Sublist.refl as).append (sublist_append_right B cs)
  have hshape : (m :: as ++ (B ++ cs)).Nodup := hn₂
  rw [nodup_append', nodup_append'] at hshape
  obtain ⟨-, ⟨hnB, -, hBc⟩, hA₂⟩ := hshape
  have hAB {a : α} (ha : a ∈ B) : a ∉ m :: as := fun hmem => hA₂ hmem (by simp [ha])
  have hBD {a : α} (ha : a ∈ B) : a ∉ cs ++ [m] := by
    rw [mem_append, mem_singleton, not_or]
    exact ⟨fun hmem => hBc ha hmem, fun heq => hAB ha (by simp [heq])⟩
  -- a node of one ring is in no piece of the other
  have hone {a : α} (ha : a ∈ l :: (xs ++ ys)) : a ∉ m :: as ∧ a ∉ B ∧ a ∉ cs ++ [m] := by
    have hout : a ∉ m :: (as ++ (B ++ cs)) := hdisj ha
    simp only [mem_cons, mem_append, not_or] at hout ⊢
    simp [hout]
  have htwo {a : α} (ha : a ∈ m :: (as ++ (B ++ cs))) : a ∉ l :: xs ∧ a ∉ ys ++ [l] := by
    have hout : a ∉ l :: (xs ++ ys) := fun hmem => hdisj hmem ha
    simp only [mem_cons, mem_append, not_or] at hout ⊢
    simp [hout]
  have hbmem := mem_of_head? hb
  have hemem := mem_of_getLast? he
  have humem : u ∈ m :: as := mem_of_getLast? hu
  have hvmem : v ∈ cs ++ [m] := mem_of_head? hv
  have hp₁ : p ∈ l :: (xs ++ ys) := by
    have := mem_of_getLast? hp
    simp only [mem_cons, mem_append] at this ⊢
    tauto
  have hq₁ : q ∈ l :: (xs ++ ys) := by
    have := mem_of_head? hq
    simp only [mem_cons, mem_append, not_mem_nil, or_false] at this ⊢
    tauto
  have hb₂ : b ∈ m :: (as ++ (B ++ cs)) := by simp [hbmem]
  have he₂ : e ∈ m :: (as ++ (B ++ cs)) := by simp [hemem]
  have hu₂ : u ∈ m :: (as ++ (B ++ cs)) := by
    simp only [mem_cons, mem_append] at humem ⊢
    tauto
  have hv₂ : v ∈ m :: (as ++ (B ++ cs)) := by
    simp only [mem_cons, mem_append, not_mem_nil, or_false] at hvmem ⊢
    tauto
  have hleft' : (l :: xs).IsChain (Link next' prev') := by
    refine piece_congr hleft hends.left hnext hprev ?_ ?_ <;> simp only [forall_mem_cons, not_mem_nil,
      false_implies, implies_true, and_true]
    · exact ⟨fun _ => hp, fun hmem => absurd hmem (htwo he₂).1, fun hmem => absurd hmem (htwo hu₂).1⟩
    · exact ⟨fun hmem => absurd hmem (htwo hb₂).1, hends.head hq, fun hmem => absurd hmem (htwo hv₂).1⟩
  have hright' : (ys ++ [l]).IsChain (Link next' prev') := by
    refine piece_congr hright hends.right hnext hprev ?_ ?_ <;> simp only [forall_mem_cons, not_mem_nil,
      false_implies, implies_true, and_true]
    · exact ⟨hends.getLast hp, fun hmem => absurd hmem (htwo he₂).2, fun hmem => absurd hmem (htwo hu₂).2⟩
    · exact ⟨fun hmem => absurd hmem (htwo hb₂).2, fun _ => hq, fun hmem => absurd hmem (htwo hv₂).2⟩
  have hB' : B.IsChain (Link next' prev') := by
    refine piece_congr hB hnB hnext hprev ?_ ?_ <;> simp only [forall_mem_cons, not_mem_nil,
      false_implies, implies_true, and_true]
    · exact ⟨fun hmem => absurd hmem (hone hp₁).2.1, fun _ => he, fun hmem => absurd humem (hAB hmem)⟩
    · exact ⟨fun _ => hb, fun hmem => absurd hmem (hone hq₁).2.1, fun hmem => absurd hvmem (hBD hmem)⟩
  have hleft₂' : (m :: as).IsChain (Link next' prev') := by
    refine piece_congr hleft₂ hends₂.left hnext hprev ?_ ?_ <;> simp only [forall_mem_cons, not_mem_nil,
      false_implies, implies_true, and_true]
    · exact ⟨fun hmem => absurd hmem (hone hp₁).1, fun hmem => absurd hmem (hAB hemem), fun _ => hu⟩
    · exact ⟨fun hmem => absurd hmem (hAB hbmem), fun hmem => absurd hmem (hone hq₁).1, hends₂.head hv⟩
  have hright₂' : (cs ++ [m]).IsChain (Link next' prev') := by
    refine piece_congr hright₂ hends₂.right hnext hprev ?_ ?_ <;> simp only [forall_mem_cons, not_mem_nil,
      false_implies, implies_true, and_true]
    · exact ⟨fun hmem => absurd hmem (hone hp₁).2.2, fun hmem => absurd hmem (hBD hemem), hends₂.getLast hu⟩
    · exact ⟨fun hmem => absurd hmem (hBD hbmem), fun hmem => absurd hmem (hone hq₁).2.2, fun _ => hv⟩
  exact ⟨(ring_middle hp hq hb he).mpr ⟨hleft', hB', hright', ⟨hnextp, hprevb⟩, hnexte, hprevq⟩,
    (ring_append hu hv).mpr ⟨hleft₂', hright₂', hnextu, hprevv⟩⟩

end OpenMPI.Lib
