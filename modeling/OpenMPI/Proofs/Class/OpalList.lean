import OpenMPI.Class.OpalList

/-!
# Doubly linked lists

Each call changes the rings of the lists as it does their sequences (`Inv.insert`, `Inv.unlink`,
`Inv.transfer`), so the lists refine the sequences in every run (`refines_of_run`), as long as nothing is
put in at index 0 by `opal_list_insert`: it counts that item twice.
-/

namespace OpenMPI.Class.OpalList

open List Function

open Lib (Link Ring)

structure Inv (lists : Set ℕ) (h : Heap) (seqs : ℕ → List ℕ) : Prop where
  ring : ∀ l ∈ lists, Ring h.next h.prev l (seqs l)
  length : ∀ l ∈ lists, h.length l = (seqs l).length
  nodup : ∀ l ∈ lists, (l :: seqs l).Nodup
  apart : ∀ l ∈ lists, ∀ m ∈ lists, l ≠ m → ∀ a ∈ l :: seqs l, a ∉ m :: seqs m
  pos : ∀ l ∈ lists, ∀ a ∈ l :: seqs l, a ≠ 0

variable {lists : Set ℕ} {h h' : Heap} {seqs : ℕ → List ℕ} {l m x p q b c e f u v : ℕ} {xs ys zs B C as cs : List ℕ}

theorem Loose.ne (hx : Loose lists seqs x) (hl : l ∈ lists) {a : ℕ} (ha : a ∈ l :: seqs l) : a ≠ x := by
  rintro rfl
  rcases mem_cons.mp ha with rfl | ha
  · exact hx.2.1 hl
  · exact hx.2.2 l hl ha

theorem Inv.relist (hinv : Inv lists h seqs) (hl : l ∈ lists) (hring : Ring h'.next h'.prev l zs)
    (hlength : h'.length = update h.length l zs.length) (hnodup : (l :: zs).Nodup)
    (hmem : ∀ a ∈ zs, a ∈ seqs l ∨ Loose lists seqs a)
    (hframe : ∀ m ∈ lists, m ≠ l → ∀ a ∈ m :: seqs m, h'.next a = h.next a ∧ h'.prev a = h.prev a) :
    Inv lists h' (update seqs l zs) := by
  have hother {m a : ℕ} (hm : m ∈ lists) (hne : m ≠ l) (ha : a ∈ l :: zs) : a ∉ m :: seqs m := by
    intro hin
    rcases mem_cons.mp ha with rfl | ha
    · exact hinv.apart a hl m hm hne.symm a mem_cons_self hin
    · rcases hmem a ha with hold | hloose
      · exact hinv.apart l hl m hm hne.symm a (mem_cons_of_mem l hold) hin
      · exact hloose.ne hm hin rfl
  refine ⟨fun m hm => ?_, fun m hm => ?_, fun m hm => ?_, fun m hm k hk hne a ha => ?_, fun m hm a ha => ?_⟩
  · rcases eq_or_ne m l with rfl | hne
    · rwa [update_self]
    · rw [update_of_ne hne]
      exact (hinv.ring m hm).congr (fun a ha => (hframe m hm hne a ha).1) fun a ha => (hframe m hm hne a ha).2
  · rw [hlength]
    rcases eq_or_ne m l with rfl | hne
    · rw [update_self, update_self]
    · rw [update_of_ne hne, update_of_ne hne]
      exact hinv.length m hm
  · rcases eq_or_ne m l with rfl | hne
    · rwa [update_self]
    · rw [update_of_ne hne]
      exact hinv.nodup m hm
  · rcases eq_or_ne m l with rfl | hml
    · rw [update_self] at ha
      rw [update_of_ne hne.symm]
      exact hother hk hne.symm ha
    · rw [update_of_ne hml] at ha
      rcases eq_or_ne k l with rfl | hkl
      · rw [update_self]
        exact fun hin => hother hm hml hin ha
      · rw [update_of_ne hkl]
        exact hinv.apart m hm k hk hne a ha
  · rcases eq_or_ne m l with rfl | hml
    · rw [update_self] at ha
      rcases mem_cons.mp ha with rfl | ha
      · exact hinv.pos a hl a mem_cons_self
      · rcases hmem a ha with hold | hloose
        · exact hinv.pos m hl a (mem_cons_of_mem m hold)
        · exact hloose.1
    · rw [update_of_ne hml] at ha
      exact hinv.pos m hm a ha

theorem exists_around (l : ℕ) (xs ys : List ℕ) :
    ∃ p q, (l :: xs).getLast? = some p ∧ (ys ++ [l]).head? = some q :=
  ⟨_, _, getLast?_eq_some_getLast (cons_ne_nil l xs), head?_eq_some_head (by simp)⟩

theorem mem_left (hp : (l :: xs).getLast? = some p) : p ∈ l :: (xs ++ ys) := by
  have := mem_of_getLast? hp
  simp only [mem_cons, mem_append] at this ⊢
  tauto

theorem mem_right (hq : (ys ++ [l]).head? = some q) : q ∈ l :: (xs ++ ys) := by
  have := mem_of_head? hq
  simp only [mem_cons, mem_append, not_mem_nil, or_false] at this ⊢
  tauto

theorem Inv.link (hinv : Inv lists h seqs) (hl : l ∈ lists) (hsplit : seqs l = xs ++ ys)
    (hp : (l :: xs).getLast? = some p) (hq : (ys ++ [l]).head? = some q) : h.next p = q ∧ h.prev q = p := by
  have hring := hinv.ring l hl
  rw [hsplit] at hring
  exact ((Lib.ring_append hp hq).mp hring).2.2

theorem Inv.insert (hinv : Inv lists h seqs) (hl : l ∈ lists) (hx : Loose lists seqs x) (hsplit : seqs l = xs ++ ys)
    (hp : (l :: xs).getLast? = some p) (hq : (ys ++ [l]).head? = some q)
    (hnext : h'.next = update (update h.next p x) x q)
    (hprev : h'.prev = update (update h.prev x p) q x)
    (hlength : h'.length = update h.length l (h.length l + 1)) :
    Inv lists h' (update seqs l (xs ++ x :: ys)) := by
  have hring := hinv.ring l hl
  have hnodup := hinv.nodup l hl
  have hpmem : p ∈ l :: seqs l := hsplit ▸ mem_left hp
  have hqmem : q ∈ l :: seqs l := hsplit ▸ mem_right hq
  have hpx : p ≠ x := hx.ne hl hpmem
  have hqx : q ≠ x := hx.ne hl hqmem
  have hxout : x ∉ l :: (xs ++ ys) := fun hmem => hx.ne hl (hsplit ▸ hmem) rfl
  rw [hsplit] at hring hnodup
  refine hinv.relist hl ?_ ?_ ?_ (fun a ha => ?_) fun m hm hne a ha => ?_
  · refine hring.insert hnodup hxout hp hq ?_ ?_ (fun a ha => ?_) ?_ ?_ fun a ha => ?_
    · rw [hnext, update_of_ne hpx, update_self]
    · rw [hnext, update_self]
    · simp only [mem_cons, not_mem_nil, or_false, not_or] at ha
      rw [hnext, update_of_ne ha.2, update_of_ne ha.1]
    · rw [hprev, update_self]
    · rw [hprev, update_of_ne hqx.symm, update_self]
    · simp only [mem_cons, not_mem_nil, or_false, not_or] at ha
      rw [hprev, update_of_ne ha.1, update_of_ne ha.2]
  · rw [hlength, hinv.length l hl, hsplit]
    simp [add_assoc]
  · have hperm : (x :: (l :: (xs ++ ys))).Perm (l :: (xs ++ x :: ys)) :=
      (List.Perm.swap l x _).trans (perm_middle.symm.cons l)
    exact hperm.nodup_iff.mp (nodup_cons.mpr ⟨hxout, hnodup⟩)
  · rw [hsplit]
    simp only [mem_append, mem_cons] at ha ⊢
    rcases ha with ha | rfl | ha
    · exact .inl (.inl ha)
    · exact .inr hx
    · exact .inl (.inr ha)
  · have hax : a ≠ x := hx.ne hm ha
    have hap : a ≠ p := fun heq => hinv.apart l hl m hm hne.symm p hpmem (heq ▸ ha)
    have haq : a ≠ q := fun heq => hinv.apart l hl m hm hne.symm q hqmem (heq ▸ ha)
    rw [hnext, hprev, update_of_ne hax, update_of_ne hap, update_of_ne haq,
      update_of_ne hax]
    exact ⟨rfl, rfl⟩

theorem Inv.unlink (hinv : Inv lists h seqs) (hl : l ∈ lists) (hsplit : seqs l = xs ++ x :: ys)
    (hp : (l :: xs).getLast? = some p) (hq : (ys ++ [l]).head? = some q)
    (hnext : h'.next = update h.next p q) (hprev : h'.prev = update h.prev q p)
    (hlength : h'.length = update h.length l (h.length l - 1)) :
    Inv lists h' (update seqs l (xs ++ ys)) := by
  have hring := hinv.ring l hl
  have hnodup := hinv.nodup l hl
  rw [hsplit] at hring hnodup
  have hsub : (l :: (xs ++ ys)).Sublist (l :: (xs ++ x :: ys)) :=
    List.Sublist.cons_cons l ((List.Sublist.refl xs).append (sublist_cons_self x ys))
  have hpmem : p ∈ l :: seqs l := hsplit ▸ mem_left hp
  have hqmem : q ∈ l :: seqs l := hsplit ▸ hsub.mem (mem_right hq)
  refine hinv.relist hl ?_ ?_ (hnodup.sublist hsub) (fun a ha => .inl ?_) fun m hm hne a ha => ?_
  · refine hring.unlink hnodup hp hq ?_ (fun a ha => ?_) ?_ fun a ha => ?_
    · rw [hnext, update_self]
    · rw [hnext, update_of_ne (by simpa using ha)]
    · rw [hprev, update_self]
    · rw [hprev, update_of_ne (by simpa using ha)]
  · rw [hlength, hinv.length l hl, hsplit]
    simp
  · rw [hsplit]
    exact ((List.Sublist.refl xs).append (sublist_cons_self x ys)).mem ha
  · have hap : a ≠ p := fun heq => hinv.apart l hl m hm hne.symm p hpmem (heq ▸ ha)
    have haq : a ≠ q := fun heq => hinv.apart l hl m hm hne.symm q hqmem (heq ▸ ha)
    rw [hnext, hprev, update_of_ne hap, update_of_ne haq]
    exact ⟨rfl, rfl⟩

section

variable (hinv : Inv lists h seqs) (hl : l ∈ lists)

include hinv hl

theorem Inv.append (hx : Loose lists seqs x) :
    Inv lists (append h l x) (update seqs l (seqs l ++ [x])) := by
  obtain ⟨p, q, hp, -⟩ := exists_around l (seqs l) []
  obtain ⟨-, hprev⟩ := hinv.link hl (append_nil _).symm hp rfl
  have hne : l ≠ x := hx.ne hl mem_cons_self
  refine hinv.insert hl hx (append_nil _).symm hp rfl ?_ ?_ rfl
  · simp [OpalList.append, Heap.setNext, Heap.setPrev, Heap.setLength, hne, hprev]
  · simp [OpalList.append, Heap.setNext, Heap.setPrev, Heap.setLength, hprev]

theorem Inv.prepend (hx : Loose lists seqs x) :
    Inv lists (prepend h l x) (update seqs l (x :: seqs l)) := by
  obtain ⟨p, q, -, hq⟩ := exists_around l [] (seqs l)
  have hnext : h.next l = q := (hinv.link hl (nil_append _).symm rfl hq).1
  have hne : l ≠ x := hx.ne hl mem_cons_self
  refine hinv.insert hl hx (nil_append _).symm rfl hq ?_ ?_ rfl
  · simp only [OpalList.prepend, Heap.setNext, Heap.setPrev, Heap.setLength, hnext]
    exact Function.update_comm hne.symm _ _ _
  · simp [OpalList.prepend, Heap.setNext, Heap.setPrev, Heap.setLength, hne, hnext]

theorem Inv.insertPos (hx : Loose lists seqs x) (hsplit : seqs l = xs ++ ys)
    (hq : (ys ++ [l]).head? = some q) : Inv lists (insertPos h l q x) (update seqs l (xs ++ x :: ys)) := by
  obtain ⟨p, -, hp, -⟩ := exists_around l xs ys
  obtain ⟨-, hprev⟩ := hinv.link hl hsplit hp hq
  have hpx : p ≠ x := hx.ne hl (hsplit ▸ mem_left hp)
  have hqx : q ≠ x := hx.ne hl (hsplit ▸ mem_right hq)
  refine hinv.insert hl hx hsplit hp hq ?_ ?_ rfl
  · simp [OpalList.insertPos, Heap.setNext, Heap.setPrev, Heap.setLength, hprev, hqx, Function.update_comm hpx]
  · simp [OpalList.insertPos, Heap.setNext, Heap.setPrev, Heap.setLength, hprev]

theorem Inv.removeItem (hsplit : seqs l = xs ++ x :: ys)
    (hp : (l :: xs).getLast? = some p) :
    (removeItem h l x).1 = p ∧ Inv lists (removeItem h l x).2 (update seqs l (xs ++ ys)) := by
  obtain ⟨-, q, -, hq⟩ := exists_around l xs ys
  have hlast : (l :: (xs ++ [x])).getLast? = some x := by
    rw [← cons_append, getLast?_concat]
  have hnextx := (hinv.link hl (by simp [hsplit]) hlast hq).1
  have hprevx := (hinv.link hl hsplit hp rfl).2
  have hnodup := hinv.nodup l hl
  rw [hsplit] at hnodup
  have hpx : p ≠ x := by
    rintro rfl
    exact (nodup_append.mp (show (l :: xs ++ p :: ys).Nodup from hnodup)).2.2 p (mem_of_getLast? hp) p
      mem_cons_self rfl
  have hqx : q ≠ x := by
    rintro rfl
    have hnodup' : (q :: (ys ++ [l])).Nodup := by
      have hrot : (l :: (xs ++ q :: ys)).Perm (xs ++ q :: (ys ++ [l])) := by
        simpa using (perm_append_singleton l (xs ++ q :: ys)).symm
      exact (nodup_append.mp (hrot.nodup_iff.mp hnodup)).2.1
    exact (nodup_cons.mp hnodup').1 (mem_of_head? hq)
  constructor
  · simp [OpalList.removeItem, Heap.setNext, Heap.setPrev, Heap.setLength, hprevx, hnextx, hqx.symm, hpx.symm]
  · refine hinv.unlink hl hsplit hp hq ?_ ?_ ?_
    · simp [OpalList.removeItem, Heap.setNext, Heap.setPrev, Heap.setLength, hprevx, hnextx]
    · simp [OpalList.removeItem, Heap.setNext, Heap.setPrev, Heap.setLength, hprevx, hnextx, hpx.symm]
    · simp [OpalList.removeItem, Heap.setNext, Heap.setPrev, Heap.setLength]

theorem Inv.removeFirst :
    (removeFirst h l).1 = (seqs l).headD 0 ∧ Inv lists (removeFirst h l).2 (update seqs l (seqs l).tail) := by
  have hlength := hinv.length l hl
  rcases hitems : seqs l with _ | ⟨x, xs⟩
  · have hempty : h.length l = 0 := by simp [hlength, hitems]
    rw [OpalList.removeFirst, if_pos hempty, tail_nil, ← hitems, Function.update_eq_self]
    exact ⟨by simp [hitems], hinv⟩
  · have hfull : h.length l ≠ 0 := by simp [hlength, hitems]
    obtain ⟨-, q, -, hq⟩ := exists_around l [] xs
    have hsplit : seqs l = [] ++ x :: xs := hitems
    have hsplit' : seqs l = [x] ++ xs := hitems
    have hnextl : h.next l = x := (hinv.link hl hsplit rfl rfl).1
    have hnextx : h.next x = q := (hinv.link hl hsplit' rfl hq).1
    have hprevx : h.prev x = l := (hinv.link hl hsplit rfl rfl).2
    rw [OpalList.removeFirst, if_neg hfull]
    refine ⟨hnextl, hinv.unlink hl hsplit rfl hq ?_ ?_ rfl⟩
    · simp [Heap.setNext, Heap.setPrev, Heap.setLength, hnextl, hnextx]
    · simp [Heap.setNext, Heap.setPrev, Heap.setLength, hnextl, hnextx, hprevx]

theorem Inv.removeLast :
    (removeLast h l).1 = (seqs l).getLastD 0 ∧
      Inv lists (removeLast h l).2 (update seqs l (seqs l).dropLast) := by
  have hlength := hinv.length l hl
  rcases eq_nil_or_concat' (seqs l) with hitems | ⟨xs, x, hitems⟩
  · have hempty : h.length l = 0 := by simp [hlength, hitems]
    rw [OpalList.removeLast, if_pos hempty, hitems, dropLast_nil, ← hitems, Function.update_eq_self]
    exact ⟨by simp [hitems], hinv⟩
  · have hfull : h.length l ≠ 0 := by simp [hlength, hitems]
    obtain ⟨p, -, hp, -⟩ := exists_around l xs []
    have hlast : (l :: (xs ++ [x])).getLast? = some x := by rw [← cons_append, getLast?_concat]
    have hsplit : seqs l = xs ++ [x] ++ [] := by simp [hitems]
    have hprevl : h.prev l = x := (hinv.link hl hsplit hlast rfl).2
    have hnextx : h.next x = l := (hinv.link hl hsplit hlast rfl).1
    have hprevx : h.prev x = p := (hinv.link hl hitems hp rfl).2
    rw [OpalList.removeLast, if_neg hfull, hitems, dropLast_concat]
    constructor
    · rw [getLastD_concat]
      exact hprevl
    · rw [← append_nil xs]
      refine hinv.unlink hl hitems hp rfl ?_ ?_ rfl
      · simp [Heap.setNext, Heap.setPrev, Heap.setLength, hprevl, hnextx, hprevx]
      · simp [Heap.setNext, Heap.setPrev, Heap.setLength, hprevl, hnextx, hprevx]

theorem Inv.insertIdx (hx : Loose lists seqs x) {idx : ℤ} (hpos : 0 < idx)
    (hidx : idx < (seqs l).length) (hint : idx ≤ 2 ^ 31) :
    ∃ h', OpalList.insert h l x idx = some (true, h') ∧
      Inv lists h' (update seqs l ((seqs l).take idx.toNat ++ x :: (seqs l).drop idx.toNat)) := by
  obtain ⟨p, q, hp, hq⟩ := exists_around l ((seqs l).take idx.toNat) ((seqs l).drop idx.toNat)
  have hsplit := (take_append_drop idx.toNat (seqs l)).symm
  have hring := hinv.ring l hl
  rw [hsplit] at hring
  have hwalk : h.next^[(idx - 1).toNat] (h.next l) = p := by
    have hp' := hring.iterate
    rw [hp, length_take, min_eq_left (by omega), show idx.toNat = (idx - 1).toNat + 1 by omega,
      Function.iterate_succ_apply] at hp'
    exact (Option.some.inj hp').symm
  have hnextp := (hinv.link hl hsplit hp hq).1
  have hpx : p ≠ x := hx.ne hl (hsplit ▸ mem_left hp)
  rw [OpalList.insert, if_neg (by rw [hinv.length l hl]; omega), if_neg (by omega), if_neg (by omega), hwalk]
  refine ⟨_, rfl, hinv.insert hl hx hsplit hp hq ?_ ?_ rfl⟩
  · simp only [Heap.setNext, Heap.setPrev, Heap.setLength, hnextp]
    exact Function.update_comm hpx.symm _ _ _
  · simp only [Heap.setNext, Heap.setPrev, Heap.setLength, hnextp]

end

theorem transfer_links {pos first last : ℕ} (hpos : pos ≠ last) (hfirst : pos ≠ first) (hlast : first ≠ last)
    (hp : h.prev pos = p) (hu : h.prev first = u) (he : h.prev last = e) (hpe : p ≠ e) (hpu : p ≠ u) (heu : e ≠ u) :
    let h' := transfer h pos first last
    (h'.next p = first ∧ h'.next e = pos ∧ h'.next u = last ∧ ∀ a ∉ [p, e, u], h'.next a = h.next a) ∧
      (h'.prev first = p ∧ h'.prev pos = e ∧ h'.prev last = u ∧ ∀ a ∉ [first, pos, last], h'.prev a = h.prev a) ∧
      h'.length = h.length := by
  have hnext : (transfer h pos first last).next =
      update (update (update h.next e pos) u last) p first := by
    simp [transfer, hpos, Heap.setNext, Heap.setPrev, hp, hu, he]
  have hprev : (transfer h pos first last).prev =
      update (update (update h.prev pos e) last u) first p := by
    simp [transfer, hpos, Heap.setNext, Heap.setPrev, hp, hu, he, hfirst.symm]
  refine ⟨⟨?_, ?_, ?_, fun a ha => ?_⟩, ⟨?_, ?_, ?_, fun a ha => ?_⟩, ?_⟩
  · rw [hnext, update_self]
  · rw [hnext, update_of_ne hpe.symm, update_of_ne heu, update_self]
  · rw [hnext, update_of_ne hpu.symm, update_self]
  · simp only [mem_cons, not_mem_nil, or_false, not_or] at ha
    rw [hnext, update_of_ne ha.1, update_of_ne ha.2.2, update_of_ne ha.2.1]
  · rw [hprev, update_self]
  · rw [hprev, update_of_ne hfirst, update_of_ne hpos, update_self]
  · rw [hprev, update_of_ne hlast.symm, update_self]
  · simp only [mem_cons, not_mem_nil, or_false, not_or] at ha
    rw [hprev, update_of_ne ha.1, update_of_ne ha.2.2, update_of_ne ha.2.1]
  · simp [transfer, hpos, Heap.setNext, Heap.setPrev]

theorem Inv.swap (hinv : Inv lists h seqs) (hl : l ∈ lists) (hsplit : seqs l = xs ++ (B ++ (C ++ ys)))
    (hp : (l :: xs).getLast? = some p) (hq : (ys ++ [l]).head? = some q) (hb : B.head? = some b)
    (he : B.getLast? = some e) (hc : C.head? = some c) (hf : C.getLast? = some f)
    (hnext : h'.next p = c ∧ h'.next f = b ∧ h'.next e = q ∧ ∀ a ∉ [p, f, e], h'.next a = h.next a)
    (hprev : h'.prev c = p ∧ h'.prev b = f ∧ h'.prev q = e ∧ ∀ a ∉ [c, b, q], h'.prev a = h.prev a)
    (hlength : h'.length = h.length) : Inv lists h' (update seqs l (xs ++ (C ++ (B ++ ys)))) := by
  have hring := hinv.ring l hl
  have hnodup := hinv.nodup l hl
  have hmem {a : ℕ} (ha : a ∈ l :: xs ∨ a ∈ B ∨ a ∈ C ∨ a ∈ ys ++ [l]) : a ∈ l :: seqs l := by
    rw [hsplit]
    simp only [mem_cons, mem_append, not_mem_nil, or_false] at ha ⊢
    tauto
  have hperm : (xs ++ (C ++ (B ++ ys))).Perm (xs ++ (B ++ (C ++ ys))) := by
    refine List.Perm.append_left xs ?_
    rw [← append_assoc, ← append_assoc]
    exact List.Perm.append_right ys perm_append_comm
  rw [hsplit] at hring hnodup
  refine hinv.relist hl ?_ ?_ ((hperm.cons l).nodup_iff.mpr hnodup) (fun a ha => .inl ?_) fun m hm hne a ha => ?_
  · exact hring.swap hnodup hp hq hb he hc hf hnext.1 hnext.2.1 hnext.2.2.1 hnext.2.2.2 hprev.1 hprev.2.1 hprev.2.2.1
      hprev.2.2.2
  · rw [hlength, hperm.length_eq, ← hsplit, ← hinv.length l hl, Function.update_eq_self]
  · rw [hsplit]
    exact hperm.mem_iff.mp ha
  · have hother {a' : ℕ} (ha' : a' ∈ l :: seqs l) : a ≠ a' := fun heq =>
      hinv.apart l hl m hm hne.symm a' ha' (heq ▸ ha)
    constructor
    · refine hnext.2.2.2 a ?_
      simp only [mem_cons, not_mem_nil, or_false, not_or]
      exact ⟨hother (hmem (.inl (mem_of_getLast? hp))), hother (hmem (.inr (.inr (.inl (mem_of_getLast? hf))))),
        hother (hmem (.inr (.inl (mem_of_getLast? he))))⟩
    · refine hprev.2.2.2 a ?_
      simp only [mem_cons, not_mem_nil, or_false, not_or]
      exact ⟨hother (hmem (.inr (.inr (.inl (mem_of_head? hc))))), hother (hmem (.inr (.inl (mem_of_head? hb)))),
        hother (hmem (.inr (.inr (.inr (mem_of_head? hq)))))⟩

theorem Inv.move (hinv : Inv lists h seqs) (hl : l ∈ lists) (hm : m ∈ lists) (hne : l ≠ m)
    (hsplit : seqs l = xs ++ ys) (hsplit' : seqs m = as ++ (B ++ cs))
    (hp : (l :: xs).getLast? = some p) (hq : (ys ++ [l]).head? = some q) (hb : B.head? = some b)
    (he : B.getLast? = some e) (hu : (m :: as).getLast? = some u) (hv : (cs ++ [m]).head? = some v)
    (hnext : h'.next p = b ∧ h'.next e = q ∧ h'.next u = v ∧ ∀ a ∉ [p, e, u], h'.next a = h.next a)
    (hprev : h'.prev b = p ∧ h'.prev q = e ∧ h'.prev v = u ∧ ∀ a ∉ [b, q, v], h'.prev a = h.prev a)
    (hlength : h'.length = update (update h.length l (h.length l + B.length)) m
      (h.length m - B.length)) :
    Inv lists h' (update (update seqs m (as ++ cs)) l (xs ++ (B ++ ys))) := by
  have hnodup : (l :: seqs l ++ m :: seqs m).Nodup := by
    rw [nodup_append']
    exact ⟨hinv.nodup l hl, hinv.nodup m hm, fun a ha => hinv.apart l hl m hm hne a ha⟩
  have hperm : (l :: (xs ++ (B ++ ys)) ++ m :: (as ++ cs)).Perm (l :: seqs l ++ m :: seqs m) := by
    rw [hsplit, hsplit', perm_iff_count]
    intro a
    simp only [count_append, count_cons]
    omega
  have hnodup' := hperm.nodup_iff.mpr hnodup
  rw [nodup_append'] at hnodup'
  obtain ⟨hnodupl, hnodupm, hdisj⟩ := hnodup'
  have hsl : update (update seqs m (as ++ cs)) l (xs ++ (B ++ ys)) l = xs ++ (B ++ ys) :=
    update_self l _ _
  have hsm : update (update seqs m (as ++ cs)) l (xs ++ (B ++ ys)) m = as ++ cs := by
    rw [update_of_ne hne.symm, update_self]
  have hsk {k : ℕ} (hkl : k ≠ l) (hkm : k ≠ m) :
      update (update seqs m (as ++ cs)) l (xs ++ (B ++ ys)) k = seqs k := by
    rw [update_of_ne hkl, update_of_ne hkm]
  -- the nodes of both lists together are the old ones, which are on no other list
  have hold {a : ℕ} (ha : a ∈ l :: (xs ++ (B ++ ys)) ∨ a ∈ m :: (as ++ cs)) : a ∈ l :: seqs l ∨ a ∈ m :: seqs m := by
    rw [← mem_append] at ha ⊢
    exact hperm.mem_iff.mp ha
  have hout {a k : ℕ} (hk : k ∈ lists) (hkl : k ≠ l) (hkm : k ≠ m) (ha : a ∈ l :: seqs l ∨ a ∈ m :: seqs m) :
      a ∉ k :: seqs k := by
    rcases ha with ha | ha
    · exact hinv.apart l hl k hk hkl.symm a ha
    · exact hinv.apart m hm k hk hkm.symm a ha
  generalize hseqs' : update (update seqs m (as ++ cs)) l (xs ++ (B ++ ys)) = seqs' at *
  obtain ⟨hringl, hringm⟩ : Ring h'.next h'.prev l (xs ++ (B ++ ys)) ∧ Ring h'.next h'.prev m (as ++ cs) := by
    have hring := hinv.ring l hl
    have hring' := hinv.ring m hm
    rw [hsplit] at hring
    rw [hsplit'] at hring'
    rw [hsplit, hsplit'] at hnodup
    exact hring.move hring' hnodup hp hq hb he hu hv hnext.1 hnext.2.1 hnext.2.2.1 hnext.2.2.2 hprev.1 hprev.2.1
      hprev.2.2.1 hprev.2.2.2
  have hpmem : p ∈ l :: seqs l := hsplit ▸ mem_left hp
  have hqmem : q ∈ l :: seqs l := hsplit ▸ mem_right hq
  have hmem {a : ℕ} (ha : a ∈ m :: as ∨ a ∈ B ∨ a ∈ cs ++ [m]) : a ∈ m :: seqs m := by
    rw [hsplit']
    simp only [mem_cons, mem_append, not_mem_nil, or_false] at ha ⊢
    tauto
  refine ⟨fun k hk => ?_, fun k hk => ?_, fun k hk => ?_, fun k hk k' hk' hkk' a ha => ?_, fun k hk a ha => ?_⟩
  · rcases eq_or_ne k l with rfl | hkl
    · rwa [hsl]
    rcases eq_or_ne k m with rfl | hkm
    · rwa [hsm]
    rw [hsk hkl hkm]
    have hframe {a a' : ℕ} (ha : a ∈ k :: seqs k) (ha' : a' ∈ l :: seqs l ∨ a' ∈ m :: seqs m) : a ≠ a' :=
      fun heq => hout hk hkl hkm ha' (heq ▸ ha)
    refine (hinv.ring k hk).congr (fun a ha => hnext.2.2.2 a ?_) fun a ha => hprev.2.2.2 a ?_
    · simp only [mem_cons, not_mem_nil, or_false, not_or]
      exact ⟨hframe ha (.inl hpmem), hframe ha (.inr (hmem (.inr (.inl (mem_of_getLast? he))))),
        hframe ha (.inr (hmem (.inl (mem_of_getLast? hu))))⟩
    · simp only [mem_cons, not_mem_nil, or_false, not_or]
      exact ⟨hframe ha (.inr (hmem (.inr (.inl (mem_of_head? hb))))), hframe ha (.inl hqmem),
        hframe ha (.inr (hmem (.inr (.inr (mem_of_head? hv)))))⟩
  · rw [hlength]
    rcases eq_or_ne k m with rfl | hkm
    · rw [update_self, hsm, hinv.length k hk, hsplit']
      simp only [length_append]
      omega
    rw [update_of_ne hkm]
    rcases eq_or_ne k l with rfl | hkl
    · rw [update_self, hsl, hinv.length k hk, hsplit]
      simp only [length_append]
      omega
    · rw [update_of_ne hkl, hsk hkl hkm, hinv.length k hk]
  · rcases eq_or_ne k l with rfl | hkl
    · rwa [hsl]
    rcases eq_or_ne k m with rfl | hkm
    · rwa [hsm]
    rw [hsk hkl hkm]
    exact hinv.nodup k hk
  · have hmoved {k a : ℕ} (hk : k = l ∨ k = m) (ha : a ∈ k :: seqs' k) : a ∈ l :: seqs l ∨ a ∈ m :: seqs m := by
      rcases hk with rfl | rfl
      · exact hold (.inl (hsl ▸ ha))
      · exact hold (.inr (hsm ▸ ha))
    by_cases h₁ : k = l ∨ k = m
    · by_cases h₂ : k' = l ∨ k' = m
      · rcases h₁ with rfl | rfl <;> rcases h₂ with rfl | rfl
        · exact absurd rfl hkk'
        · rw [hsl] at ha
          rw [hsm]
          exact fun ha' => hdisj ha ha'
        · rw [hsm] at ha
          rw [hsl]
          exact fun ha' => hdisj ha' ha
        · exact absurd rfl hkk'
      · rw [not_or] at h₂
        rw [hsk h₂.1 h₂.2]
        exact hout hk' h₂.1 h₂.2 (hmoved h₁ ha)
    · rw [not_or] at h₁
      rw [hsk h₁.1 h₁.2] at ha
      by_cases h₂ : k' = l ∨ k' = m
      · exact fun ha' => hout hk h₁.1 h₁.2 (hmoved h₂ ha') ha
      · rw [not_or] at h₂
        rw [hsk h₂.1 h₂.2]
        exact hinv.apart k hk k' hk' hkk' a ha
  · by_cases h₁ : k = l ∨ k = m
    · have ha' : a ∈ l :: seqs l ∨ a ∈ m :: seqs m := by
        rcases h₁ with rfl | rfl
        · exact hold (.inl (hsl ▸ ha))
        · exact hold (.inr (hsm ▸ ha))
      rcases ha' with ha' | ha'
      · exact hinv.pos l hl a ha'
      · exact hinv.pos m hm a ha'
    · rw [not_or] at h₁
      rw [hsk h₁.1 h₁.2] at ha
      exact hinv.pos k hk a ha

theorem exists_split (hp : p ∈ l :: zs) : ∃ xs ys, zs = xs ++ ys ∧ (ys ++ [l]).head? = some p := by
  rcases mem_cons.mp hp with rfl | hp
  · exact ⟨zs, [], by simp, rfl⟩
  · obtain ⟨xs, ys, rfl⟩ := append_of_mem hp
    exact ⟨xs, p :: ys, rfl, rfl⟩

theorem while_of_split (hnodup : (l :: (xs ++ ys)).Nodup) (hq : (ys ++ [l]).head? = some q) :
    (xs ++ ys).takeWhile (· ≠ q) = xs ∧ (xs ++ ys).dropWhile (· ≠ q) = ys := by
  have hne : ∀ a ∈ xs, decide (a ≠ q) = true := by
    rintro a ha
    rw [decide_eq_true_eq]
    rintro rfl
    have hends := Lib.ends_of_nodup hnodup
    obtain rfl := hends.apart a (mem_cons_of_mem l ha) (mem_of_head? hq)
    exact (nodup_cons.mp hends.left).1 ha
  rw [takeWhile_append_of_pos hne, dropWhile_append_of_pos hne]
  cases ys with
  | nil => simp
  | cons y ys =>
    cases hq
    simp

theorem insertBefore_eq (hnodup : (l :: (xs ++ ys)).Nodup) (hq : (ys ++ [l]).head? = some q) :
    insertBefore q B (xs ++ ys) = xs ++ (B ++ ys) := by
  obtain ⟨htake, hdrop⟩ := while_of_split hnodup hq
  rw [insertBefore, htake, hdrop]

theorem range_eq (hnodup : (l :: (as ++ (B ++ cs))).Nodup) (hb : (B ++ cs ++ [l]).head? = some b)
    (hv : (cs ++ [l]).head? = some v) :
    range b v (as ++ (B ++ cs)) = B ∧ others b v (as ++ (B ++ cs)) = as ++ cs := by
  obtain ⟨htake, hdrop⟩ := while_of_split hnodup hb
  have hsub : (l :: (B ++ cs)).Sublist (l :: (as ++ (B ++ cs))) :=
    List.Sublist.cons_cons l (sublist_append_right as _)
  obtain ⟨htake', hdrop'⟩ := while_of_split (hnodup.sublist hsub) hv
  rw [range, others, htake, hdrop, htake', hdrop']
  exact ⟨rfl, rfl⟩

theorem countUntil_eq (hring : Ring h.next h.prev l (as ++ (B ++ cs))) (hnodup : (l :: (as ++ (B ++ cs))).Nodup)
    (hb : (B ++ cs ++ [l]).head? = some b) (hv : (cs ++ [l]).head? = some v) {fuel : ℕ} (hfuel : B.length < fuel)
    (change : ℕ) : countUntil h v fuel b change = some (change + B.length) := by
  induction B generalizing as b fuel change with
  | nil =>
    obtain ⟨fuel, rfl⟩ : ∃ n, fuel = n + 1 := ⟨fuel - 1, by grind⟩
    rw [nil_append, hv] at hb
    rw [countUntil, if_pos (Option.some.inj hb).symm]
    rfl
  | cons a B ih =>
    obtain ⟨fuel, rfl⟩ : ∃ n, fuel = n + 1 := ⟨fuel - 1, by grind⟩
    obtain rfl : a = b := Option.some.inj hb
    obtain ⟨-, q, -, hq⟩ := exists_around l [] (B ++ cs)
    have hshape : as ++ (a :: B ++ cs) = as ++ [a] ++ (B ++ cs) := by simp
    have hlast : (l :: (as ++ [a])).getLast? = some a := by rw [← cons_append, getLast?_concat]
    rw [hshape] at hring hnodup
    have hnext : h.next a = q := ((Lib.ring_append hlast hq).mp hring).2.2.1
    have hav : a ≠ v := by
      rintro rfl
      have hends := Lib.ends_of_nodup hnodup
      have hright : a ∈ B ++ cs ++ [l] := by
        rw [append_assoc]
        exact mem_append_right B (mem_of_head? hv)
      obtain rfl := hends.apart a (by simp) hright
      exact (nodup_cons.mp hends.left).1 (by simp)
    rw [countUntil, if_neg hav, hnext, ih hring hnodup hq (by grind)]
    simp only [length_cons, Option.some.injEq]
    omega

theorem transfer_length (pos first last : ℕ) : (transfer h pos first last).length = h.length := by
  rw [transfer]
  split <;> rfl

theorem exists_getLast (hb : B.head? = some b) : ∃ e, B.getLast? = some e :=
  ⟨_, getLast?_eq_some_getLast (ne_nil_of_mem (mem_of_head? hb))⟩

section

variable (hinv : Inv lists h seqs) (hl : l ∈ lists)

include hinv hl

theorem Inv.transfer_one (hsplit : seqs l = xs ++ (B ++ (C ++ ys)))
    (hq : (ys ++ [l]).head? = some q) (hb : B.head? = some b) (hc : C.head? = some c) :
    Inv lists (transfer h b c q) (update seqs l (xs ++ (C ++ (B ++ ys)))) ∧
      Inv lists (transfer h q b c) (update seqs l (xs ++ (C ++ (B ++ ys)))) := by
  obtain ⟨p, -, hp, -⟩ := exists_around l xs []
  obtain ⟨e, he⟩ := exists_getLast hb
  obtain ⟨f, hf⟩ := exists_getLast hc
  have hprevb : h.prev b = p := (hinv.link hl hsplit hp (by simp [hb])).2
  have hprevc : h.prev c = e := by
    refine (hinv.link hl (show seqs l = xs ++ B ++ (C ++ ys) by simp [hsplit]) ?_ (by simp [hc])).2
    rw [← cons_append, getLast?_append, he]
    rfl
  have hprevq : h.prev q = f := by
    refine (hinv.link hl (show seqs l = xs ++ B ++ C ++ ys by simp [hsplit]) ?_ hq).2
    rw [← cons_append, getLast?_append, hf]
    rfl
  have hnodup := hinv.nodup l hl
  rw [hsplit] at hnodup
  have hends : Lib.Ends l xs ys := by
    refine Lib.ends_of_nodup (hnodup.sublist (List.Sublist.cons_cons l ?_))
    refine (List.Sublist.refl xs).append ?_
    exact (sublist_append_right C ys).trans (sublist_append_right B _)
  have hshape : (l :: xs ++ (B ++ (C ++ ys))).Nodup := hnodup
  rw [nodup_append', nodup_append', nodup_append'] at hshape
  obtain ⟨-, ⟨-, ⟨-, -, hCy⟩, hBCy⟩, hA⟩ := hshape
  have hpmem := mem_of_getLast? hp
  have hemem := mem_of_getLast? he
  have hfmem := mem_of_getLast? hf
  have hbmem := mem_of_head? hb
  have hcmem := mem_of_head? hc
  have hqmem := mem_of_head? hq
  have hpe : p ≠ e := fun heq => hA hpmem (heq ▸ mem_append_left _ hemem)
  have hpf : p ≠ f := fun heq => hA hpmem (heq ▸ mem_append_right B (mem_append_left ys hfmem))
  have hef : e ≠ f := fun heq => hBCy hemem (heq ▸ mem_append_left ys hfmem)
  have hbc : b ≠ c := fun heq => hBCy hbmem (heq ▸ mem_append_left ys hcmem)
  have hend {a : ℕ} (ha : a ∈ B ∨ a ∈ C) : a ≠ q := by
    rintro rfl
    rcases mem_append.mp hqmem with hy | hy
    · rcases ha with ha | ha
      · exact hBCy ha (mem_append_right C hy)
      · exact hCy ha hy
    · obtain rfl := mem_singleton.mp hy
      exact hA mem_cons_self (by rcases ha with ha | ha <;> simp [ha])
  have hbq := hend (.inl hbmem)
  have hcq := hend (.inr hcmem)
  constructor
  · obtain ⟨hnext, hprev, hlength⟩ := transfer_links hbq hbc hcq hprevb hprevc hprevq hpf hpe hef.symm
    exact hinv.swap hl hsplit hp hq hb he hc hf hnext hprev hlength
  · obtain ⟨hnext, hprev, hlength⟩ := transfer_links hcq.symm hbq.symm hbc hprevq hprevb hprevc hef.symm hpf.symm
      hpe.symm
    refine hinv.swap hl hsplit hp hq hb he hc hf ⟨hnext.2.2.1, hnext.1, hnext.2.1, fun a ha => hnext.2.2.2 a ?_⟩
      ⟨hprev.2.2.1, hprev.1, hprev.2.1, fun a ha => hprev.2.2.2 a ?_⟩ hlength
    · simp only [mem_cons, not_mem_nil, or_false, not_or] at ha ⊢
      tauto
    · simp only [mem_cons, not_mem_nil, or_false, not_or] at ha ⊢
      tauto

theorem Inv.transfer_two (hm : m ∈ lists) (hne : l ≠ m)
    (hsplit : seqs l = xs ++ ys) (hsplit' : seqs m = as ++ (B ++ cs)) (hq : (ys ++ [l]).head? = some q)
    (hb : B.head? = some b) (hv : (cs ++ [m]).head? = some v) (hnext : h'.next = (transfer h q b v).next)
    (hprev : h'.prev = (transfer h q b v).prev)
    (hlength : h'.length = update (update h.length l (h.length l + B.length)) m
      (h.length m - B.length)) :
    Inv lists h' (update (update seqs m (as ++ cs)) l (xs ++ (B ++ ys))) := by
  obtain ⟨p, -, hp, -⟩ := exists_around l xs []
  obtain ⟨u, -, hu, -⟩ := exists_around m as []
  obtain ⟨e, he⟩ := exists_getLast hb
  have hprevq : h.prev q = p := (hinv.link hl hsplit hp hq).2
  have hprevb : h.prev b = u := (hinv.link hm hsplit' hu (by simp [hb])).2
  have hprevv : h.prev v = e := by
    refine (hinv.link hm (show seqs m = as ++ B ++ cs by simp [hsplit']) ?_ hv).2
    rw [← cons_append, getLast?_append, he]
    rfl
  have hone {a a' : ℕ} (ha : a ∈ l :: seqs l) (ha' : a' ∈ m :: seqs m) : a ≠ a' := fun heq =>
    hinv.apart l hl m hm hne a ha (heq ▸ ha')
  have hpmem : p ∈ l :: seqs l := hsplit ▸ mem_left hp
  have hqmem : q ∈ l :: seqs l := hsplit ▸ mem_right hq
  have hmem {a : ℕ} (ha : a ∈ m :: as ∨ a ∈ B ∨ a ∈ cs ++ [m]) : a ∈ m :: seqs m := by
    rw [hsplit']
    simp only [mem_cons, mem_append, not_mem_nil, or_false] at ha ⊢
    tauto
  have hemem := mem_of_getLast? he
  have hbmem := mem_of_head? hb
  have humem := mem_of_getLast? hu
  have hvmem := mem_of_head? hv
  have hnodup := hinv.nodup m hm
  rw [hsplit'] at hnodup
  have hshape : (m :: as ++ (B ++ cs)).Nodup := hnodup
  rw [nodup_append', nodup_append'] at hshape
  obtain ⟨-, ⟨-, -, hBc⟩, hA⟩ := hshape
  have heu : e ≠ u := fun heq => hA (heq ▸ humem) (mem_append_left cs hemem)
  have hbv : b ≠ v := by
    rintro rfl
    rcases mem_append.mp hvmem with hc | hc
    · exact hBc hbmem hc
    · exact hA mem_cons_self (mem_append_left cs (mem_singleton.mp hc ▸ hbmem))
  obtain ⟨hlinks, hlinks', -⟩ := transfer_links (hone hqmem (hmem (.inr (.inr hvmem)))) (hone hqmem (hmem (.inr (.inl hbmem))))
    hbv hprevq hprevb hprevv (hone hpmem (hmem (.inr (.inl hemem)))) (hone hpmem (hmem (.inl humem))) heu
  rw [← hnext] at hlinks
  rw [← hprev] at hlinks'
  exact hinv.move hl hm hne hsplit hsplit' hp hq hb he hu hv hlinks hlinks' hlength

theorem Inv.splice_one (hsplit : seqs l = as ++ (B ++ cs))
    (hb : (B ++ cs ++ [l]).head? = some b) (hv : (cs ++ [l]).head? = some v) (hpos : q ∈ l :: seqs l) (hout : q ∉ B) :
    ∃ h', splice h l q l b v = some h' ∧ Inv lists h' (update seqs l (insertBefore q B (as ++ cs))) := by
  have hnodup := hinv.nodup l hl
  have hring := hinv.ring l hl
  have hfuel : B.length < h.length l + 1 := by
    rw [hinv.length l hl, hsplit]
    simp only [length_append]
    omega
  rw [hsplit] at hnodup hring
  have hsub : (l :: (as ++ cs)).Sublist (l :: (as ++ (B ++ cs))) :=
    List.Sublist.cons_cons l ((List.Sublist.refl as).append (sublist_append_right B cs))
  have hnodup' := hnodup.sublist hsub
  rcases B with _ | ⟨a, B⟩
  · obtain rfl : b = v := by
      rw [nil_append, hv] at hb
      exact (Option.some.inj hb).symm
    refine ⟨h, if_pos rfl, ?_⟩
    rw [insertBefore, nil_append, takeWhile_append_dropWhile, ← nil_append cs, ← hsplit,
      Function.update_eq_self]
    exact hinv
  obtain rfl : a = b := Option.some.inj hb
  have hbv : a ≠ v := by
    rintro rfl
    have hends := Lib.ends_of_nodup (show (l :: (as ++ [a] ++ (B ++ cs))).Nodup by simpa using hnodup)
    have hright : a ∈ B ++ cs ++ [l] := by
      rw [append_assoc]
      exact mem_append_right B (mem_of_head? hv)
    obtain rfl := hends.apart a (by simp) hright
    exact (nodup_cons.mp hends.left).1 (by simp)
  have hsplice : splice h l q l a v = some (transfer h q a v) := by
    rw [splice, if_neg hbv, countUntil_eq hring hnodup hb hv hfuel 0, Option.map_some]
    simp [Heap.setLength]
  refine ⟨_, hsplice, ?_⟩
  have hplace : q ∈ as ∨ q ∈ l :: cs := by
    rw [hsplit] at hpos
    simp only [mem_cons, mem_append] at hpos hout ⊢
    tauto
  rcases hplace with hq | hq
  · obtain ⟨as₁, as₂, rfl⟩ := append_of_mem hq
    have hshape : as₁ ++ q :: as₂ ++ cs = as₁ ++ (q :: as₂ ++ cs) := by simp
    have hsplit' : seqs l = as₁ ++ (q :: as₂ ++ (a :: B ++ cs)) := by simp [hsplit]
    rw [hshape] at hnodup' ⊢
    rw [insertBefore_eq hnodup' rfl]
    exact (hinv.transfer_one hl hsplit' hv rfl rfl).1
  · obtain ⟨cs₁, cs₂, rfl, hhead⟩ := exists_split hq
    rw [← append_assoc] at hnodup' ⊢
    rw [insertBefore_eq hnodup' hhead, append_assoc]
    rcases cs₁ with _ | ⟨c, cs₁⟩
    · obtain rfl : q = v := by
        rw [nil_append, hhead] at hv
        exact Option.some.inj hv
      rw [transfer, if_pos rfl, nil_append, ← nil_append cs₂, ← hsplit, Function.update_eq_self]
      exact hinv
    · obtain rfl : c = v := Option.some.inj hv
      exact (hinv.transfer_one hl hsplit hhead rfl rfl).2

theorem Inv.splice_two (hm : m ∈ lists) (hne : l ≠ m)
    (hsplit : seqs m = as ++ (B ++ cs)) (hb : (B ++ cs ++ [m]).head? = some b) (hv : (cs ++ [m]).head? = some v)
    (hpos : q ∈ l :: seqs l) :
    ∃ h', splice h l q m b v = some h' ∧
      Inv lists h' (update (update seqs m (as ++ cs)) l (insertBefore q B (seqs l))) := by
  have hnodup := hinv.nodup m hm
  have hring := hinv.ring m hm
  have hfuel : B.length < h.length m + 1 := by
    rw [hinv.length m hm, hsplit]
    simp only [length_append]
    omega
  rw [hsplit] at hnodup hring
  rcases B with _ | ⟨a, B⟩
  · obtain rfl : b = v := by
      rw [nil_append, hv] at hb
      exact (Option.some.inj hb).symm
    refine ⟨h, if_pos rfl, ?_⟩
    rw [insertBefore, nil_append, takeWhile_append_dropWhile, ← nil_append cs, ← hsplit,
      Function.update_eq_self, Function.update_eq_self]
    exact hinv
  obtain rfl : a = b := Option.some.inj hb
  have hav : a ≠ v := by
    rintro rfl
    have hcount := countUntil_eq hring hnodup hb hv hfuel 0
    rw [countUntil, if_pos rfl] at hcount
    simp at hcount
  obtain ⟨xs, ys, hsplit', hq⟩ := exists_split hpos
  have hnodup' := hinv.nodup l hl
  rw [hsplit'] at hnodup'
  rw [splice, if_neg hav, countUntil_eq hring hnodup hb hv hfuel 0, Option.map_some, hsplit', insertBefore_eq hnodup' hq]
  refine ⟨_, rfl, hinv.transfer_two hl hm hne hsplit' hsplit hq rfl hv rfl rfl ?_⟩
  simp [Heap.setLength, transfer_length, hne.symm]

theorem Inv.join (hm : m ∈ lists) (hne : l ≠ m) (hpos : q ∈ l :: seqs l) :
    Inv lists (join h l q m)
      (update (update seqs m []) l (insertBefore q (seqs m) (seqs l))) := by
  have hlength := hinv.length m hm
  rcases hitems : seqs m with _ | ⟨b, B⟩
  · rw [OpalList.join, if_pos (by simp [hlength, hitems]), insertBefore, nil_append,
      takeWhile_append_dropWhile, ← hitems, Function.update_eq_self, Function.update_eq_self]
    exact hinv
  · have hsplit : seqs m = [] ++ (b :: B ++ []) := by simp [hitems]
    have hfirst : h.next m = b := (hinv.link hm (show seqs m = [] ++ (b :: B) from hitems) rfl rfl).1
    obtain ⟨xs, ys, hsplit', hq⟩ := exists_split hpos
    have hnodup := hinv.nodup l hl
    rw [hsplit'] at hnodup
    rw [OpalList.join, if_neg (by simp [hlength, hitems]), hfirst, hsplit', insertBefore_eq hnodup hq]
    refine hinv.transfer_two hl hm hne hsplit' hsplit hq rfl rfl rfl rfl ?_
    simp [Heap.setLength, transfer_length, hlength, hitems]

theorem Inv.drain {fuel : ℕ} (hfuel : (seqs l).length < fuel) :
    ∃ h', drain l fuel h = some (seqs l, h') ∧ Inv lists h' (update seqs l []) := by
  induction fuel generalizing h seqs with
  | zero => simp at hfuel
  | succ fuel ih =>
    obtain ⟨hitem, hrest⟩ := hinv.removeFirst hl
    rcases hremove : OpalList.removeFirst h l with ⟨item, h₁⟩
    rw [hremove] at hitem hrest
    rcases hitems : seqs l with _ | ⟨x, xs⟩
    · rw [hitems, headD_nil] at hitem
      rw [hitems, tail_nil] at hrest
      obtain rfl : item = 0 := hitem
      refine ⟨h₁, ?_, hrest⟩
      simp only [OpalList.drain, hremove]
    · rw [hitems, headD_cons] at hitem
      rw [hitems, tail_cons] at hrest
      obtain rfl : item = x := hitem
      have hitem : item ≠ 0 := hinv.pos l hl item (by simp [hitems])
      obtain ⟨h', hdrain, hinv'⟩ := ih hrest (by simp_all)
      rw [update_self] at hdrain
      rw [Function.update_idem] at hinv'
      refine ⟨h', ?_, hinv'⟩
      obtain ⟨n, rfl⟩ : ∃ n, item = n + 1 := ⟨item - 1, by omega⟩
      simp [OpalList.drain, hremove, hdrain]

theorem Inv.appendAll {items : List ℕ} (hnodup : items.Nodup)
    (hloose : ∀ x ∈ items, Loose lists seqs x) :
    Inv lists (items.foldl (fun h item => OpalList.append h l item) h) (update seqs l (seqs l ++ items)) := by
  induction items generalizing h seqs with
  | nil =>
    rw [append_nil, Function.update_eq_self]
    exact hinv
  | cons x items ih =>
    obtain ⟨hx, hnodup⟩ := nodup_cons.mp hnodup
    have hnext := ih (hinv.append hl (hloose x mem_cons_self)) hnodup fun y hy => ?_
    · rw [update_self, Function.update_idem, append_assoc] at hnext
      exact hnext
    · obtain ⟨hpos, hlists, hout⟩ := hloose y (mem_cons_of_mem x hy)
      refine ⟨hpos, hlists, fun k hk => ?_⟩
      rcases eq_or_ne k l with rfl | hkl
      · rw [update_self, mem_append, mem_singleton, not_or]
        exact ⟨hout k hk, fun heq => hx (heq ▸ hy)⟩
      · rw [update_of_ne hkl]
        exact hout k hk

theorem Inv.loose (hx : x ∈ seqs l) :
    Loose lists (update seqs l []) x := by
  have hmem : x ∈ l :: seqs l := mem_cons_of_mem l hx
  refine ⟨hinv.pos l hl x hmem, fun hlist => ?_, fun k hk => ?_⟩
  · rcases eq_or_ne l x with rfl | hne
    · exact (nodup_cons.mp (hinv.nodup l hl)).1 hx
    · exact hinv.apart l hl x hlist hne x hmem mem_cons_self
  · rcases eq_or_ne k l with rfl | hkl
    · rw [update_self]
      exact not_mem_nil
    · rw [update_of_ne hkl]
      exact fun hin => hinv.apart l hl k hk hkl.symm x hmem (mem_cons_of_mem k hin)

theorem Inv.sort (q : Qsort) (memory : Bool) :
    ∃ h', sort h l q.sorted memory = some h' ∧
      Inv lists h' (if memory then update seqs l (q.sorted (seqs l)) else seqs) := by
  cases memory with
  | false => exact ⟨h, if_pos (.inr rfl), hinv⟩
  | true =>
    rw [if_pos rfl]
    have hlength := hinv.length l hl
    by_cases hempty : h.length l = 0
    · rw [hlength, length_eq_zero_iff] at hempty
      have hsorted : q.sorted (seqs l) = seqs l := by
        rw [hempty]
        exact (q.perm []).eq_nil
      refine ⟨h, if_pos (.inl (by rw [hlength, hempty, length_nil])), ?_⟩
      rw [hsorted, Function.update_eq_self]
      exact hinv
    · obtain ⟨h', hdrain, hinv'⟩ := hinv.drain hl (show (seqs l).length < h.length l + 1 by omega)
      have hperm := q.perm (seqs l)
      have hnodup := hperm.nodup_iff.mpr (nodup_cons.mp (hinv.nodup l hl)).2
      have hsorted := hinv'.appendAll hl hnodup fun x hx => hinv.loose hl (hperm.mem_iff.mp hx)
      rw [update_self, Function.update_idem, nil_append] at hsorted
      refine ⟨_, ?_, hsorted⟩
      rw [OpalList.sort, if_neg (by simp [hempty]), hdrain]
      rfl

end

theorem run_refines {op : Op} (hinv : Inv lists h seqs) (hallowed : Allowed lists seqs op)
    (hcare : ∀ returned, Careful (some ⟨h, seqs, returned⟩) op) :
    ∃ h', run h op = some ((apply seqs op).1, h') ∧ Inv lists h' (apply seqs op).2 := by
  cases op with
  | append list item => exact ⟨_, rfl, hinv.append hallowed.1 hallowed.2⟩
  | prepend list item => exact ⟨_, rfl, hinv.prepend hallowed.1 hallowed.2⟩
  | insert list item idx =>
    obtain ⟨hl, hx⟩ := hallowed
    have hlength := hinv.length list hl
    by_cases hidx : idx < (seqs list).length
    · obtain ⟨hpos, hint⟩ : 0 < idx ∧ idx ≤ 2 ^ 31 := (hcare []).resolve_right (Int.not_le.mpr hidx)
      obtain ⟨h', hrun, hinv'⟩ := hinv.insertIdx hl hx hpos hidx hint
      rw [apply, if_pos ⟨by omega, hidx⟩]
      refine ⟨h', ?_, hinv'⟩
      rw [run, hrun]
      rfl
    · rw [apply, if_neg fun hin => hidx hin.2]
      refine ⟨h, ?_, hinv⟩
      rw [run, OpalList.insert, if_pos (by omega)]
      rfl
  | insertPos list pos item =>
    obtain ⟨hl, hx, hpos⟩ := hallowed
    obtain ⟨xs, ys, hsplit, hq⟩ := exists_split hpos
    have hnodup := hinv.nodup list hl
    rw [hsplit] at hnodup
    refine ⟨_, rfl, ?_⟩
    rw [apply, hsplit, insertBefore_eq hnodup hq]
    exact hinv.insertPos hl hx hsplit hq
  | removeItem list item =>
    obtain ⟨hl, hmem⟩ := hallowed
    obtain ⟨xs, ys, hsplit⟩ := append_of_mem hmem
    have hnodup := hinv.nodup list hl
    rw [hsplit] at hnodup
    obtain ⟨htake, -⟩ := while_of_split (q := item) hnodup rfl
    obtain ⟨p, -, hp, -⟩ := exists_around list xs []
    obtain ⟨hret, hinv'⟩ := hinv.removeItem hl hsplit hp
    have hout : item ∉ xs := fun hin =>
      (nodup_append.mp (nodup_cons.mp hnodup).2).2.2 item hin item mem_cons_self rfl
    have herase : (xs ++ item :: ys).erase item = xs ++ ys := by
      rw [erase_append_right _ hout, erase_cons_head]
    refine ⟨(OpalList.removeItem h list item).2, ?_, ?_⟩
    · simp only [run, apply, hret, hsplit, htake, getLastD_eq_getLast?, hp, Option.getD_some]
    · rw [apply, hsplit, herase]
      exact hinv'
  | removeFirst list =>
    obtain ⟨hret, hinv'⟩ := hinv.removeFirst hallowed
    exact ⟨_, by rw [run, apply, ← hret], hinv'⟩
  | removeLast list =>
    obtain ⟨hret, hinv'⟩ := hinv.removeLast hallowed
    exact ⟨_, by rw [run, apply, ← hret], hinv'⟩
  | join list pos xlist =>
    obtain ⟨hl, hm, hne, hpos⟩ := hallowed
    exact ⟨_, rfl, hinv.join hl hm hne hpos⟩
  | splice list pos xlist first last =>
    obtain ⟨hl, hm, hpos, as, bs, cs, hsplit, hfirst, hlast, hout⟩ := hallowed
    have hnodup := hinv.nodup xlist hm
    rw [hsplit] at hnodup
    obtain ⟨hrange, hothers⟩ := range_eq hnodup hfirst hlast
    rcases eq_or_ne list xlist with rfl | hne
    · obtain ⟨h', hrun, hinv'⟩ := hinv.splice_one hl hsplit hfirst hlast hpos hout
      refine ⟨h', ?_, ?_⟩
      · rw [run, hrun]
        rfl
      · simp only [apply, hsplit, hrange, hothers, update_self, Function.update_idem]
        exact hinv'
    · obtain ⟨h', hrun, hinv'⟩ := hinv.splice_two hl hm hne hsplit hfirst hlast hpos
      refine ⟨h', ?_, ?_⟩
      · rw [run, hrun]
        rfl
      · simp only [apply, hsplit, hrange, hothers, update_of_ne hne]
        exact hinv'
  | sort list q memory =>
    obtain ⟨h', hrun, hinv'⟩ := hinv.sort hallowed q memory
    refine ⟨h', ?_, hinv'⟩
    rw [run, hrun]
    rfl

/-- The lists do what the sequences do, in every run without an `opal_list_insert` at index 0 or before. -/
theorem refines_of_run {s₀ s : Option World} {es : List Op} (hinit : (calls lists).init s₀)
    (hrun : ((calls lists).restrict Careful).Run s₀ es s) : Refines lists s := by
  obtain ⟨w, rfl, hinv, hreturned⟩ : ∃ w, s = some w ∧ Inv lists w.heap w.seqs ∧ ∀ r ∈ w.returned, r.1 = r.2 := by
    refine hrun.invariant (P := fun s => ∃ w, s = some w ∧ Inv lists w.heap w.seqs ∧ ∀ r ∈ w.returned, r.1 = r.2) ?_ ?_
    · rintro s op t ⟨w, rfl, hinv, hreturned⟩ hstep
      obtain ⟨hcare, hallowed, rfl⟩ := hstep
      obtain ⟨h', hcall, hinv'⟩ := run_refines hinv hallowed fun _ => by cases op <;> exact hcare
      rw [World.call, hcall, Option.map_some]
      refine ⟨_, rfl, hinv', fun r hr => ?_⟩
      rcases mem_append.mp hr with hr | hr
      · exact hreturned r hr
      · obtain rfl := mem_singleton.mp hr
        rfl
    · obtain ⟨w, rfl, hnone, hzero, hempty⟩ := hinit
      refine ⟨w, rfl, ⟨fun l hl => ?_, fun l hl => ?_, fun l hl => ?_, fun l hl m hm hne a ha => ?_, fun l hl a ha => ?_⟩,
        by simp [hnone]⟩ <;> obtain ⟨hseq, hnext, hprev, hlength⟩ := hempty l hl
      · rw [hseq, Lib.ring_nil]
        exact ⟨hnext, hprev⟩
      · rw [hseq, hlength, length_nil]
      · rw [hseq]
        exact nodup_singleton l
      · rw [hseq, mem_singleton] at ha
        rw [(hempty m hm).1, mem_singleton, ha]
        exact hne
      · rw [hseq, mem_singleton] at ha
        rintro rfl
        exact hzero (ha ▸ hl)
  exact ⟨w, rfl, fun l hl => ⟨hinv.ring l hl, hinv.length l hl⟩, hreturned⟩

def fresh : World := ⟨⟨id, id, fun _ => 0⟩, fun _ => [], []⟩

theorem init_fresh : (calls {1}).init (some fresh) :=
  ⟨fresh, rfl, rfl, by simp, fun _ _ => ⟨rfl, rfl, rfl, rfl⟩⟩

/-- An item goes between two others. -/
theorem refines_of_run_between : ∃ s, ((calls {1}).restrict Careful).Run (some fresh)
    [.append 1 2, .append 1 3, .insert 1 4 1] s ∧ Refines {1} s := by
  have h₁ : ((calls {1}).restrict Careful).step (some fresh) (.append 1 2) (fresh.call (.append 1 2)) :=
    ⟨trivial, by simp [Allowed, Loose, fresh], rfl⟩
  obtain ⟨w₁, hw₁, hseqs₁⟩ : ∃ w, fresh.call (.append 1 2) = some w ∧ w.seqs = Function.update (fun _ => []) 1 [2] :=
    ⟨_, rfl, rfl⟩
  rw [hw₁] at h₁
  have h₂ : ((calls {1}).restrict Careful).step (some w₁) (.append 1 3) (w₁.call (.append 1 3)) :=
    ⟨trivial, by simp [Allowed, Loose, hseqs₁], rfl⟩
  obtain ⟨w₂, hw₂, hseqs₂⟩ : ∃ w, w₁.call (.append 1 3) = some w ∧ w.seqs = Function.update (fun _ => []) 1 [2, 3] :=
    ⟨_, rfl, by simp [apply, hseqs₁]⟩
  rw [hw₂] at h₂
  have h₃ : ((calls {1}).restrict Careful).step (some w₂) (.insert 1 4 1) (w₂.call (.insert 1 4 1)) :=
    ⟨.inl (by decide), by simp [Allowed, Loose, hseqs₂], rfl⟩
  have hrun := ((Lib.System.Run.single h₁).snoc h₂).snoc h₃
  exact ⟨_, hrun, refines_of_run init_fresh hrun⟩

/-- An item put in at index 0 counts twice. -/
theorem not_refines_insert_zero : ¬∀ (lists : Set ℕ) (s₀ s : Option World) (es : List Op), (calls lists).init s₀ →
    (calls lists).Run s₀ es s → Refines lists s := by
  intro hall
  have h₁ : (calls {1}).step (some fresh) (.append 1 2) (fresh.call (.append 1 2)) :=
    ⟨by simp [Allowed, Loose, fresh], rfl⟩
  obtain ⟨w, hw, hseqs, hlength⟩ : ∃ w, fresh.call (.append 1 2) = some w ∧
      w.seqs = Function.update (fun _ => []) 1 [2] ∧ w.heap.length 1 = 1 := ⟨_, rfl, rfl, rfl⟩
  rw [hw] at h₁
  have h₂ : (calls {1}).step (some w) (.insert 1 3 0) (w.call (.insert 1 3 0)) :=
    ⟨by simp [Allowed, Loose, hseqs], rfl⟩
  obtain ⟨w', hw', hlists, -⟩ := hall {1} _ _ _ init_fresh ((Lib.System.Run.single h₁).snoc h₂)
  have hlength' := (hlists 1 rfl).2
  simp [World.call, run, OpalList.insert, hlength, prepend, Heap.setNext, Heap.setPrev, Heap.setLength] at hw'
  subst hw'
  simp [apply, hseqs] at hlength'

end OpenMPI.Class.OpalList
