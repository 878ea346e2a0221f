import OpenMPI.Coll.Bcast
import OpenMPI.Lib.Overlay
import OpenMPI.Proofs.Coll.Trees

/-!
# Broadcast

All processes cut the data, or a half of it, in the same segments (`Cuts`), so that a process that passes
on what it hears keeps and passes on every segment (`relay_does`).
-/

namespace OpenMPI.Coll

open Lib Nat
open List hiding rotate

variable {α : Type*}

/-- `num` segments of `sc` elements, the last of them maybe shorter, make `cnt` elements. -/
structure Cuts (cnt sc num : ℕ) : Prop where
  lt : (num - 1) * sc < cnt
  le : cnt ≤ num * sc

def segLen (cnt sc num k : ℕ) : ℕ := if k = num - 1 then cnt - k * sc else sc

def segs (X : ℕ → α) (off cnt sc num : ℕ) : List (List α) :=
  (List.range num).map fun k => slice X (off + k * sc) (segLen cnt sc num k)

variable {cnt sc num k : ℕ}

theorem Cuts.pos (h : Cuts cnt sc num) : 0 < num := by
  refine Nat.pos_of_ne_zero ?_
  rintro rfl
  have := h.lt
  have := h.le
  omega

theorem Cuts.add_segLen (h : Cuts cnt sc num) (hk : k < num) :
    k * sc + segLen cnt sc num k = min ((k + 1) * sc) cnt := by
  obtain ⟨hlt, hle⟩ := h
  unfold segLen
  split_ifs with hlast
  · obtain rfl : num = k + 1 := by omega
    rw [Nat.add_sub_cancel] at hlt
    omega
  · have hnext : (k + 1) * sc ≤ (num - 1) * sc := mul_le_mul_right _ (by omega)
    rw [succ_mul] at hnext ⊢
    omega

theorem Cuts.segLen_le (h : Cuts cnt sc num) (hk : k < num) : segLen cnt sc num k ≤ sc := by
  have := h.add_segLen hk
  rw [succ_mul] at this
  omega

theorem cuts_ceil (hc : 0 < cnt) (hs : 0 < sc) : Cuts cnt sc ((cnt + sc - 1) / sc) := by
  have hdiv := div_add_mod' (cnt + sc - 1) sc
  have hmod := mod_lt (cnt + sc - 1) hs
  refine ⟨?_, by omega⟩
  rw [Nat.sub_mul]
  omega

theorem cuts_div (hc : 0 < cnt) (hs : 0 < sc) :
    Cuts cnt sc (cnt / sc + if cnt % sc ≠ 0 then 1 else 0) := by
  have hdiv := div_add_mod' cnt sc
  have hmod := mod_lt cnt hs
  split_ifs with h
  · refine ⟨?_, ?_⟩
    · rw [Nat.add_sub_cancel]
      omega
    · rw [succ_mul]
      omega
  · have hzero : cnt % sc = 0 := not_not.mp h
    refine ⟨?_, ?_⟩
    · rw [add_zero, Nat.sub_mul]
      omega
    · rw [add_zero]
      omega

theorem Cuts.mono {cnt' num' : ℕ} (h : Cuts cnt sc num) (h' : Cuts cnt' sc num') (hle : cnt ≤ cnt') :
    num ≤ num' := by
  have hlt : (num - 1) * sc < num' * sc := lt_of_lt_of_le h.lt (le_trans hle h'.le)
  have := Nat.lt_of_mul_lt_mul_right hlt
  omega

variable {X : ℕ → α} {off q : ℕ} {next : List ℕ} {m : Bufs Unit α}

theorem flat_same (l : List ℕ) (q : ℕ) (f : ℕ → List α) (x : ℕ) :
    Mail.flat l (fun i => .one q (f i)) x = if x = q then l.map f else [] := by
  split_ifs with h
  · subst h
    unfold Mail.flat
    simp only [Mail.one_self]
    exact map_eq_flatMap.symm
  · exact Mail.flat_one_eq_nil (q := fun _ => q) f fun _ _ heq => h heq.symm

theorem flat_all (l : List ℕ) (hnext : next.Nodup) (f : ℕ → List α) (x : ℕ) :
    Mail.flat l (fun i => .flat next fun child => .one child (f i)) x =
      if x ∈ next then l.map f else [] := by
  have hone (i : ℕ) : Mail.flat next (fun child => .one child (f i)) x =
      if x ∈ next then [f i] else [] := by
    split_ifs with hx
    · exact Mail.flat_one hnext (q := id) (fun _ => f i) hx fun _ _ heq => heq
    · exact Mail.flat_one_eq_nil (q := id) (fun _ => f i) fun i hi heq => hx (heq ▸ hi)
  have hflat : Mail.flat l (fun i => .flat next fun child => .one child (f i)) x =
      l.flatMap fun i => if x ∈ next then [f i] else [] :=
    congrArg (fun g => l.flatMap g) (funext hone)
  rw [hflat]
  split_ifs
  · exact map_eq_flatMap.symm
  · exact flatMap_eq_nil_iff.mpr fun _ _ => rfl

theorem sends_does {o n : ℕ} (h : ∀ i < n, m () (o + i) = X (o + i)) {R : Bufs Unit α → Prop}
    (hR : R m) :
    Does (next.map fun child => .sendBuf child () o n) .nothing
      (.flat next fun child => .one child (slice X o n)) m R := by
  rw [map_eq_flatMap, ← Mail.flat_nothing next]
  refine (Does.overList (fun _ m' => m' = m) next rfl fun _ child _ m₁ hm₁ => ?_).mono
    fun m' hm' => hm' ▸ hR
  subst hm₁
  exact Does.sendBuf h rfl

def Heard (X : ℕ → α) (off cnt sc : ℕ) (m : Bufs Unit α) (k : ℕ) (m' : Bufs Unit α) : Prop :=
  (∀ i, off ≤ i → i < off + k * sc → i < off + cnt → m' () i = X i) ∧
    ∀ i, ¬(off ≤ i ∧ i < off + cnt) → m' () i = m () i

theorem relay_turn (hcut : Cuts cnt sc num) (hk : k < num) {cap : ℕ} (hcap : segLen cnt sc num k ≤ cap)
    {m₁ : Bufs Unit α} (h : Heard X off cnt sc m k m₁) :
    Does (.recvBuf q () (off + k * sc) cap ::
        next.map fun child => .sendBuf child () (off + k * sc) (segLen cnt sc num k))
      (.one q (slice X (off + k * sc) (segLen cnt sc num k)))
      (.flat next fun child => .one child (slice X (off + k * sc) (segLen cnt sc num k))) m₁
      (Heard X off cnt sc m (k + 1)) := by
  have hlen := hcut.add_segLen hk
  have hwrite (i : ℕ) : m₁.write () (off + k * sc) (slice X (off + k * sc) (segLen cnt sc num k)) () i =
      if off + k * sc ≤ i ∧ i < off + k * sc + segLen cnt sc num k then X i else m₁ () i := by
    rw [Bufs.write_slice_apply]
    refine if_ctx_congr (and_iff_right rfl) (fun h => ?_) fun _ => rfl
    rw [Nat.add_sub_cancel' h.1]
  have hheard : Heard X off cnt sc m (k + 1)
      (m₁.write () (off + k * sc) (slice X (off + k * sc) (segLen cnt sc num k))) := by
    refine ⟨fun i h1 h2 h3 => ?_, fun i hi => ?_⟩
    · rw [hwrite]
      split_ifs with hin
      · rfl
      · exact h.1 i h1 (by omega) h3
    · rw [hwrite, if_neg (by omega)]
      exact h.2 i hi
  have hrecv : Does [.recvBuf q () (off + k * sc) cap]
      (.one q (slice X (off + k * sc) (segLen cnt sc num k))) .nothing m₁ fun m' =>
        Heard X off cnt sc m (k + 1) m' ∧
          ∀ i < segLen cnt sc num k, m' () (off + k * sc + i) = X (off + k * sc + i) := by
    refine Does.recvBuf hcap ⟨hheard, fun i hi => ?_⟩
    rw [hwrite, if_pos (by omega)]
  refine (hrecv.append fun m₂ h₂ => sends_does h₂.2 h₂.1).congr (fun x => ?_) fun _ => rfl
  exact append_nil _

theorem relay_does (X : ℕ → α) (q off : ℕ) (cap : ℕ → ℕ) (hcut : Cuts cnt sc num)
    (hcap : ∀ k < num, segLen cnt sc num k ≤ cap k) (hnext : next.Nodup) :
    Does ((range num).flatMap fun k => .recvBuf q () (off + k * sc) (cap k) ::
        next.map fun child => .sendBuf child () (off + k * sc) (segLen cnt sc num k))
      (fun s => if s = q then segs X off cnt sc num else [])
      (fun d => if d ∈ next then segs X off cnt sc num else []) m
      (Heard X off cnt sc m num) :=
  (Does.loop (Heard X off cnt sc m) num ⟨by omega, fun _ _ => rfl⟩ fun k hk _ h =>
    relay_turn hcut hk (hcap k hk) h).congr (flat_same _ q _) (flat_all _ hnext _)

theorem Heard.all (hcut : Cuts cnt sc num) {m' : Bufs Unit α} (h : Heard X off cnt sc m num m') {i : ℕ}
    (h1 : off ≤ i) (h2 : i < off + cnt) : m' () i = X i :=
  h.1 i h1 (by have := hcut.le; omega) h2

theorem root_does (off : ℕ) (hcut : Cuts cnt sc num) (hnext : next.Nodup)
    (h : ∀ i, off ≤ i → i < off + cnt → m () i = X i) :
    Does ((range num).flatMap fun k =>
        next.map fun child => .sendBuf child () (off + k * sc) (segLen cnt sc num k))
      .nothing (fun d => if d ∈ next then segs X off cnt sc num else []) m (· = m) := by
  refine (Does.loop (fun _ m' => m' = m) num rfl fun k hk m₁ hm₁ =>
    sends_does (X := X) (fun i hi => ?_) hm₁).congr (fun _ => ?_) (flat_all _ hnext _)
  · have hlen := hcut.add_segLen hk
    subst hm₁
    exact h _ (by omega) (by omega)
  · rw [Mail.flat_nothing]

theorem computedSegcount_pos {count segsize typelng : ℕ} (hcount : 0 < count) :
    0 < computedSegcount segsize typelng count := by
  unfold computedSegcount
  split_ifs with h
  · have htype : 0 < typelng := by
      refine Nat.pos_of_ne_zero ?_
      rintro rfl
      omega
    have := Nat.div_pos h.1 htype
    simp only
    split_ifs <;> omega
  · exact hcount

theorem relay_eq (cnt sc off last q : ℕ) (next : List ℕ) (cap : ℕ → ℕ) :
    ((range last).flatMap fun k => .recvBuf q () (off + k * sc) (cap k) ::
        next.map fun child => .sendBuf child () (off + k * sc) sc) ++
      (.recvBuf q () (off + last * sc) (cap last) ::
        next.map fun child => .sendBuf child () (off + last * sc) (cnt - last * sc)) =
      (range (last + 1)).flatMap fun k => (.recvBuf q () (off + k * sc) (cap k) ::
        next.map fun child => .sendBuf child () (off + k * sc) (segLen cnt sc (last + 1) k) :
          List (Instr (Bufs Unit α) α)) := by
  rw [range_succ, flatMap_append, flatMap_singleton]
  congr 1
  · refine flatMap_congr fun k hk => ?_
    have hne : k ≠ last + 1 - 1 := by
      have := mem_range.mp hk
      omega
    rw [segLen, if_neg hne]
  · rw [segLen, if_pos (by omega)]

theorem bcastIntraGeneric_does {rank root : ℕ} {tree : CollTree} (hc : 0 < cnt) (hs : 0 < sc)
    (hnext : tree.next.Nodup) (X : ℕ → α)
    (hroot : rank = root → tree.parent? rank = none ∧ ∀ i < cnt, m () i = X i)
    (hother : rank ≠ root → tree.parent? rank ≠ none) :
    Does (bcastIntraGeneric rank root cnt sc tree)
      (fun s => if tree.parent? rank = some s then segs X 0 cnt sc ((cnt + sc - 1) / sc) else [])
      (fun d => if d ∈ tree.next then segs X 0 cnt sc ((cnt + sc - 1) / sc) else []) m fun m' =>
        (∀ i < cnt, m' () i = X i) ∧ ∀ i, cnt ≤ i → m' () i = m () i := by
  have hcut := cuts_ceil hc hs
  unfold bcastIntraGeneric
  by_cases hr : rank = root
  · obtain ⟨hnone, hX⟩ := hroot hr
    simp only [if_pos hr, hnone]
    have hdoes := root_does (m := m) 0 hcut hnext fun i _ hi => hX i (by omega)
    simp only [zero_add] at hdoes
    refine (hdoes.congr (fun s => (if_neg nofun).symm) fun d => rfl).mono fun m' hm' => ?_
    subst hm'
    exact ⟨hX, fun _ _ => rfl⟩
  · obtain ⟨q, hq⟩ := Option.ne_none_iff_exists'.mp (hother hr)
    have hprev : tree.prev.toNat = q := by
      unfold CollTree.parent? at hq
      split_ifs at hq
      exact Option.some.inj hq
    obtain ⟨last, hlast⟩ : ∃ last, (cnt + sc - 1) / sc = last + 1 :=
      ⟨_, (succ_pred_eq_of_pos hcut.pos).symm⟩
    rw [hlast] at hcut
    simp only [if_neg hr, hq, hprev, hlast, Option.some.injEq, Nat.add_sub_cancel]
    have hdoes := relay_does (m := m) X q 0 (fun _ => sc) hcut (fun k hk => hcut.segLen_le hk) hnext
    rw [← relay_eq] at hdoes
    simp only [zero_add] at hdoes
    have hend {m' : Bufs Unit α} (h : Heard X 0 cnt sc m (last + 1) m') :
        (∀ i < cnt, m' () i = X i) ∧ ∀ i, cnt ≤ i → m' () i = m () i :=
      ⟨fun i hi => h.all hcut (zero_le i) (by omega), fun i hi => h.2 i (by omega)⟩
    split_ifs with hleaf
    · exact (hdoes.congr (fun s => if_congr eq_comm rfl rfl) fun d => rfl).mono fun m' h => hend h
    · rw [not_not.mp hleaf] at hdoes ⊢
      rw [map_eq_flatMap]
      exact (hdoes.congr (fun s => if_congr eq_comm rfl rfl) fun d => rfl).mono fun m' h => hend h

/-- Every rank has a program, and however they run, they end with the root's `count` elements in every
buffer and nothing else changed. -/
def Delivers (α : Type*) (size root count : ℕ) (prog : ℕ → Option (List (Instr (Bufs Unit α) α))) :
    Prop :=
  ∃ P : ℕ → List (Instr (Bufs Unit α) α), (∀ r < size, prog r = some (P r)) ∧
    ∀ m, Finishes size P m fun m' => ∀ r < size, (∀ i < count, m' r () i = m root () i) ∧
      ∀ i, count ≤ i → m' r () i = m r () i

theorem finishes_generic {size root : ℕ} {t : ℕ → CollTree}
    (hspan : Spanning size root (fun r => (t r).parent? r) (fun r => (t r).next)) (hc : 0 < cnt) (hs : 0 < sc)
    (m : ℕ → Bufs Unit α) :
    Finishes size (fun r => bcastIntraGeneric r root cnt sc (t r)) m fun m' => ∀ r < size,
      (∀ i < cnt, m' r () i = m root () i) ∧ ∀ i, cnt ≤ i → m' r () i = m r () i := by
  refine .of_gives (Gives.down hspan (fun _ => segs (m root ()) 0 cnt sc ((cnt + sc - 1) / sc))
    (fun r (m' : Bufs Unit α) => (∀ i < cnt, m' () i = m root () i) ∧ ∀ i, cnt ≤ i → m' () i = m r () i)
    fun p hp => ?_)
  refine bcastIntraGeneric_does hc hs (hspan.nodup p hp) (m root ()) (fun heq => ?_) fun hne hnone => ?_
  · subst heq
    exact ⟨(hspan.parent_eq_none p hp).mpr rfl, fun _ _ => rfl⟩
  · exact hne ((hspan.parent_eq_none p hp).mp hnone)

theorem delivers_bcastIntra {size root count : ℕ} {build : ℕ → Option CollTree}
    (h : Consistent size root build) (hcount : 0 < count) (segsize typelng : ℕ) :
    Delivers α size root count fun r => bcastIntra (build r) r root count segsize typelng := by
  obtain ⟨t, ht, hspan, -⟩ := h
  refine ⟨fun r => bcastIntraGeneric r root count (computedSegcount segsize typelng count) (t r),
    fun r hr => ?_, fun m => finishes_generic hspan hcount (computedSegcount_pos hcount) m⟩
  show bcastIntra (build r) r root count segsize typelng = _
  rw [ht r hr]
  rfl

structure Half.Fits (h : Half) : Prop where
  cuts : Cuts h.count h.segcount h.numSegments
  le : h.segcount ≤ h.count

theorem splitHalves_fits {count segsize typeSize : ℕ} {half0 half1 : Half}
    (h : splitHalves count segsize typeSize = some (half0, half1))
    (h0 : half0.count ≠ 0) (h1 : half1.count ≠ 0) (hs0 : ¬half0.count * typeSize < segsize)
    (hs1 : ¬half1.count * typeSize < segsize) :
    half0.Fits ∧ half1.Fits ∧ half0.off = 0 ∧ half1.off = half0.count ∧
      half0.count + half1.count = count ∧ half1.numSegments ≤ half0.numSegments := by
  have hle : count - (if count % 2 ≠ 0 then count / 2 + 1 else count / 2) ≤
      (if count % 2 ≠ 0 then count / 2 + 1 else count / 2) ∧
      (if count % 2 ≠ 0 then count / 2 + 1 else count / 2) ≤ count := by
    split_ifs <;> omega
  unfold splitHalves at h
  simp only at h
  generalize (if count % 2 ≠ 0 then count / 2 + 1 else count / 2) = count0 at *
  by_cases hseg : 0 < segsize
  · rw [if_pos hseg] at h
    by_cases htype : typeSize = 0
    · rw [if_pos htype] at h
      cases h
    · rw [if_neg htype] at h
      by_cases hzero : segsize / typeSize = 0
      · rw [if_pos hzero] at h
        cases h
      · rw [if_neg hzero] at h
        cases h
        have hpos : 0 < segsize / typeSize := Nat.pos_of_ne_zero hzero
        have hsc {n : ℕ} (hn : ¬n * typeSize < segsize) : segsize / typeSize ≤ n :=
          Nat.div_le_of_le_mul (by rw [mul_comm]; omega)
        have hcut0 := cuts_div (Nat.pos_of_ne_zero h0) hpos
        have hcut1 := cuts_div (Nat.pos_of_ne_zero h1) hpos
        exact ⟨⟨hcut0, hsc hs0⟩, ⟨hcut1, hsc hs1⟩, rfl, rfl, Nat.add_sub_cancel' hle.2,
          hcut1.mono hcut0 hle.1⟩
  · rw [if_neg hseg] at h
    cases h
    have hone {n : ℕ} (hn : n ≠ 0) : Cuts n n 1 := ⟨by omega, by omega⟩
    exact ⟨⟨hone h0, le_rfl⟩, ⟨hone h1, le_rfl⟩, rfl, rfl,
      Nat.add_sub_cancel' hle.2, le_rfl⟩

def Half.segs (X : ℕ → α) (h : Half) : List (List α) :=
  Coll.segs X h.off h.count h.segcount h.numSegments

theorem flatMap_range_of_le {β : Type*} {k n : ℕ} (h : k ≤ n) (f : ℕ → List β) :
    ((range n).flatMap fun i => if k ≤ i then [] else f i) = (range k).flatMap f := by
  obtain ⟨d, rfl⟩ := Nat.exists_eq_add_of_le h
  rw [range_add, flatMap_append]
  have hlow : ((range k).flatMap fun i => if k ≤ i then [] else f i) = (range k).flatMap f :=
    flatMap_congr fun i hi => if_neg (Nat.not_le_of_lt (mem_range.mp hi))
  have hhigh : (((range d).map (k + ·)).flatMap fun i => if k ≤ i then [] else f i) = [] := by
    rw [flatMap_eq_nil_iff]
    intro i hi
    obtain ⟨j, -, rfl⟩ := mem_map.mp hi
    exact if_pos (Nat.le_add_right k j)
  rw [hlow, hhigh, append_nil]

theorem flat_kids {kids : List (ℕ × Half)} (hnodup : (kids.map Prod.fst).Nodup) {n : ℕ}
    (hn : ∀ kid ∈ kids, kid.2.numSegments ≤ n) (d : ℕ) :
    ((range n).flatMap fun k => kids.flatMap fun kid => if kid.2.numSegments ≤ k then []
      else Mail.one kid.1 (slice X (kid.2.off + k * kid.2.segcount) (kid.2.sendcount k)) d) =
      kids.flatMap fun kid => if d = kid.1 then kid.2.segs X else [] := by
  induction kids with
  | nil => exact flatMap_eq_nil_iff.mpr fun _ _ => rfl
  | cons kid kids ih =>
    obtain ⟨hkid, hnodup⟩ := nodup_cons.mp hnodup
    have hrest := ih hnodup fun kid h => hn kid (mem_cons_of_mem _ h)
    by_cases hd : d = kid.1
    · have hnil (f : ℕ × Half → List (List α)) :
          (kids.flatMap fun kid => if d = kid.1 then f kid else []) = [] := by
        refine flatMap_eq_nil_iff.mpr fun kid' hkid' => if_neg fun heq => hkid ?_
        rw [← hd, heq]
        exact mem_map_of_mem hkid'
      have hones (k : ℕ) : (kids.flatMap fun kid => if kid.2.numSegments ≤ k then []
          else Mail.one kid.1 (slice X (kid.2.off + k * kid.2.segcount) (kid.2.sendcount k)) d) = [] := by
        refine flatMap_eq_nil_iff.mpr fun kid' hkid' => ?_
        split_ifs
        · rfl
        · refine Mail.one_of_ne _ fun heq => hkid ?_
          rw [← hd, heq]
          exact mem_map_of_mem hkid'
      simp only [flatMap_cons, hones, append_nil, hnil, if_pos hd]
      rw [flatMap_range_of_le (hn kid mem_cons_self), Half.segs, segs, map_eq_flatMap]
      refine flatMap_congr fun k _ => ?_
      rw [hd, Mail.one_self]
      rfl
    · have hone (k : ℕ) : (if kid.2.numSegments ≤ k then []
          else Mail.one kid.1 (slice X (kid.2.off + k * kid.2.segcount) (kid.2.sendcount k)) d) = [] := by
        rw [Mail.one_of_ne _ hd, ite_self]
      simp only [flatMap_cons, hone, nil_append, if_neg hd]
      exact hrest

theorem splitRoot_does (kids : List (ℕ × Half)) (hnodup : (kids.map Prod.fst).Nodup) {n : ℕ}
    (hn : ∀ kid ∈ kids, kid.2.numSegments ≤ n) (hfits : ∀ kid ∈ kids, kid.2.Fits)
    (hm : ∀ kid ∈ kids, ∀ i, kid.2.off ≤ i → i < kid.2.off + kid.2.count → m () i = X i) :
    Does ((range n).flatMap fun segindex => kids.flatMap fun kid =>
        if kid.2.numSegments ≤ segindex then []
        else [.sendBuf kid.1 () (kid.2.off + segindex * kid.2.segcount) (kid.2.sendcount segindex)])
      .nothing (fun d => kids.flatMap fun kid => if d = kid.1 then kid.2.segs X else []) m
      (· = m) := by
  have hturn (k : ℕ) (m₁ : Bufs Unit α) (hm₁ : m₁ = m) :
      Does (kids.flatMap fun kid => if kid.2.numSegments ≤ k then []
        else [.sendBuf kid.1 () (kid.2.off + k * kid.2.segcount) (kid.2.sendcount k)])
      .nothing (.flat kids fun kid d => if kid.2.numSegments ≤ k then []
        else Mail.one kid.1 (slice X (kid.2.off + k * kid.2.segcount) (kid.2.sendcount k)) d) m₁
      (· = m) := by
    subst hm₁
    rw [← Mail.flat_nothing kids]
    refine Does.overList (fun _ m' => m' = m₁) kids rfl fun pre kid hpre m₂ hm₂ => ?_
    subst hm₂
    have hkid : kid ∈ kids := hpre.subset (mem_append_right _ mem_cons_self)
    by_cases hk : kid.2.numSegments ≤ k
    · simp only [if_pos hk]
      exact .nil rfl
    · simp only [if_neg hk]
      refine Does.sendBuf (fun i hi => hm kid hkid _ ?_ ?_) rfl
      · omega
      · have hlen := (hfits kid hkid).cuts.add_segLen (Nat.lt_of_not_le hk)
        have : segLen kid.2.count kid.2.segcount kid.2.numSegments k = kid.2.sendcount k := rfl
        omega
  refine (Does.loop (fun _ m' => m' = m) n rfl fun k _ m₁ hm₁ => hturn k m₁ hm₁).congr (fun _ => ?_)
    (flat_kids hnodup hn)
  rw [Mail.flat_nothing]

theorem splitRelay_does (X : ℕ → α) {h : Half} (hfits : h.Fits) (hnext : next.Nodup) {last : ℕ}
    (hlast : h.numSegments = last + 1) :
    Does (((range last).flatMap fun segindex =>
        .recvBuf q () (h.off + segindex * h.segcount)
            (if segindex = 0 then h.segcount else h.sendcount segindex) ::
          next.map fun child => .sendBuf child () (h.off + segindex * h.segcount) h.segcount) ++
        (.recvBuf q () (h.off + last * h.segcount) (if last = 0 then h.segcount else h.sendcount last) ::
          next.map fun child => .sendBuf child () (h.off + last * h.segcount)
            (if last = 0 then h.segcount else h.sendcount last)))
      (fun s => if s = q then h.segs X else []) (fun d => if d ∈ next then h.segs X else []) m
      (Heard X h.off h.count h.segcount m h.numSegments) := by
  have hcut := hfits.cuts
  have hle := hfits.le
  rw [hlast] at hcut
  have hsend : (if last = 0 then h.segcount else h.sendcount last) = h.count - last * h.segcount := by
    split_ifs with hzero
    · subst hzero
      have := hcut.le
      omega
    · rw [Half.sendcount, hlast, if_pos (Nat.add_sub_cancel _ 1).symm]
  have hdoes := relay_does (m := m) X q h.off
    (fun k => if k = 0 then h.segcount else h.sendcount k) hcut (fun k hk => ?_) hnext
  · rw [← relay_eq] at hdoes
    rw [Half.segs, hlast, hsend]
    rw [hsend] at hdoes
    exact hdoes
  · split_ifs with hzero
    · exact hcut.segLen_le hk
    · rw [segLen, Half.sendcount, hlast]

variable {size root : ℕ}

/-- The half that comes to a rank down the tree: odd virtual ranks are on the left. -/
def halfOf (size root : ℕ) (half0 half1 : Half) (r : ℕ) : Half :=
  if (unrotate size root r + 1) % 2 = 0 then half0 else half1

theorem next_root (hsize : 2 ≤ size) (hroot : root < size) {t : CollTree}
    (ht : buildTree 2 size root root = some t) :
    t.next = if size = 2 then [rotate size root 1] else [rotate size root 1, rotate size root 2] := by
  obtain ⟨l, hle, -, hnext⟩ := next_buildTree (Nat.le_refl 2) (by decide) hsize ht
  rw [(shift_eq_zero hroot hroot).mpr rfl] at hle hnext
  have hl : l = 0 := by
    by_contra hne
    have hlt := levelStart_lt (show 1 ≤ 2 by decide) (Nat.pos_of_ne_zero hne)
    omega
  subst hl
  rw [hnext, treeChilds]
  have hone : 1 < size := by omega
  split_ifs with h2
  · subst h2
    rfl
  · have htwo : 2 < size := by omega
    simp [range_succ, hone, htwo]

theorem halfOf_child (hsize : 2 ≤ size) (hroot : root < size) {p c : ℕ} (hp : p < size)
    (hne : p ≠ root) {t : CollTree} (ht : buildTree 2 size p root = some t) (hc : c ∈ t.next)
    (half0 half1 : Half) : halfOf size root half0 half1 c = halfOf size root half0 half1 p := by
  obtain ⟨l, hle, hlt, hnext⟩ := next_buildTree (Nat.le_refl 2) (by decide) hsize ht
  have hv : shift size root p ≠ 0 := mt (shift_eq_zero hroot hp).mp hne
  rw [hnext] at hc
  obtain ⟨s, hs, rfl⟩ := mem_map.mp hc
  obtain ⟨hparent, hsn⟩ := (mem_treeChilds (by decide) hle hlt).mp hs
  obtain ⟨k, hk, hk', i, -, rfl⟩ := hparent
  have hkpos : k ≠ 0 := by
    rintro rfl
    simp [levelStart] at hk'
    exact hv hk'
  obtain ⟨k, rfl⟩ := exists_eq_succ_of_ne_zero hkpos
  unfold halfOf
  rw [unrotate_rotate hroot hsn, shift_eq_unrotate hroot hp]
  refine if_congr ?_ rfl rfl
  rw [Nat.pow_succ', mul_assoc, add_right_comm, add_mul_mod_self_left]

theorem flatMap_pairs {β γ : Type*} {kids : List (ℕ × β)} (hnodup : (kids.map Prod.fst).Nodup)
    (f : β → List γ) (g : ℕ → β) (hg : ∀ kid ∈ kids, kid.2 = g kid.1) (d : ℕ) :
    (kids.flatMap fun kid => if d = kid.1 then f kid.2 else []) =
      if d ∈ kids.map Prod.fst then f (g d) else [] := by
  induction kids with
  | nil => rfl
  | cons kid kids ih =>
    obtain ⟨hkid, hnodup⟩ := nodup_cons.mp hnodup
    rw [flatMap_cons, ih hnodup fun kid h => hg kid (mem_cons_of_mem _ h), map_cons]
    by_cases hd : d = kid.1
    · subst hd
      rw [if_pos rfl, if_neg hkid, if_pos mem_cons_self, append_nil,
        hg kid mem_cons_self]
    · rw [if_neg hd, nil_append]
      exact if_congr (by rw [mem_cons, or_iff_right hd]) rfl rfl

/-- What a rank has after the data has come down: the root what it had, another rank its half. -/
def Down (X : ℕ → α) (root : ℕ) (h : Half) (m : Bufs Unit α) (p : ℕ) (m' : Bufs Unit α) : Prop :=
  if p = root then m' = m
  else (∀ i, h.off ≤ i → i < h.off + h.count → m' () i = X i) ∧
    ∀ i, ¬(h.off ≤ i ∧ i < h.off + h.count) → m' () i = m () i

theorem Heard.down {h : Half} (hfits : h.Fits) {root p : ℕ} (hne : p ≠ root) {m' : Bufs Unit α}
    (hm' : Heard X h.off h.count h.segcount m h.numSegments m') : Down X root h m p m' := by
  rw [Down, if_neg hne]
  exact ⟨fun i h1 h2 => hm'.all hfits.cuts h1 h2, hm'.2⟩

theorem splitDown_does (hsize : 2 ≤ size) (hroot : root < size) {half0 half1 : Half}
    (hfit0 : half0.Fits) (hfit1 : half1.Fits) (hnum : half1.numSegments ≤ half0.numSegments)
    {p : ℕ} (hp : p < size) {t : CollTree} (ht : buildTree 2 size p root = some t)
    (hnodup : t.next.Nodup) (hparent : t.parent? p = none ↔ p = root)
    (hX : p = root → ∀ h ∈ [half0, half1], ∀ i, h.off ≤ i → i < h.off + h.count → m () i = X i) :
    Does (splitDown p root t half0 half1 (halfOf size root half0 half1 p))
      (fun s => if t.parent? p = some s then (halfOf size root half0 half1 p).segs X else [])
      (fun d => if d ∈ t.next then (halfOf size root half0 half1 d).segs X else []) m
      (Down X root (halfOf size root half0 half1 p) m p) := by
  unfold splitDown
  by_cases hpr : p = root
  · subst hpr
    have hkids : t.next.zip [half0, half1] = if size = 2 then [(rotate size p 1, half0)]
        else [(rotate size p 1, half0), (rotate size p 2, half1)] := by
      rw [next_root hsize hroot ht]
      split_ifs <;> rfl
    have hfst : (t.next.zip [half0, half1]).map Prod.fst = t.next := by
      rw [hkids, next_root hsize hroot ht]
      split_ifs <;> rfl
    have hsub : ∀ kid ∈ t.next.zip [half0, half1],
        kid.2 ∈ [half0, half1] ∧ kid.2 = halfOf size p half0 half1 kid.1 := by
      have h1 : halfOf size p half0 half1 (rotate size p 1) = half0 := by
        rw [halfOf, unrotate_rotate hroot (by omega), if_pos rfl]
      intro kid hkid
      rw [hkids] at hkid
      split_ifs at hkid with h2
      · obtain rfl := mem_singleton.mp hkid
        exact ⟨mem_cons_self, h1.symm⟩
      · rcases mem_cons.mp hkid with rfl | hkid
        · exact ⟨mem_cons_self, h1.symm⟩
        · obtain rfl := mem_singleton.mp hkid
          refine ⟨mem_cons_of_mem _ mem_cons_self, ?_⟩
          rw [halfOf, unrotate_rotate hroot (by omega), if_neg (by decide)]
    have hboth (P : Half → Prop) (h0 : P half0) (h1 : P half1) : ∀ h ∈ [half0, half1], P h :=
      forall_mem_cons.mpr ⟨h0, forall_mem_cons.mpr ⟨h1, nofun⟩⟩
    have hdoes := splitRoot_does (m := m) (X := X) (t.next.zip [half0, half1])
      (n := half0.numSegments) (by rwa [hfst])
      (fun kid hkid => hboth (·.numSegments ≤ half0.numSegments) (le_rfl) hnum kid.2 (hsub kid hkid).1)
      (fun kid hkid => hboth (·.Fits) hfit0 hfit1 kid.2 (hsub kid hkid).1)
      fun kid hkid => hX rfl kid.2 (hsub kid hkid).1
    rw [if_pos rfl]
    refine (hdoes.congr (fun s => ?_) fun d => ?_).mono fun m' h => (if_pos rfl).mpr h
    · rw [hparent.mpr rfl, if_neg nofun]
      rfl
    · rw [flatMap_pairs (by rwa [hfst]) _ _ (fun kid hkid => (hsub kid hkid).2), hfst]
  · obtain ⟨q, hq⟩ := Option.ne_none_iff_exists'.mp (mt hparent.mp hpr)
    have hprev : t.prev.toNat = q := by
      unfold CollTree.parent? at hq
      split_ifs at hq
      exact Option.some.inj hq
    have hfits : (halfOf size root half0 half1 p).Fits := by
      unfold halfOf
      split_ifs
      · exact hfit0
      · exact hfit1
    have hsame (d : ℕ) : (if d ∈ t.next then (halfOf size root half0 half1 p).segs X else []) =
        if d ∈ t.next then (halfOf size root half0 half1 d).segs X else [] := by
      split_ifs with hd
      · rw [halfOf_child hsize hroot hp hpr ht hd]
      · rfl
    generalize halfOf size root half0 half1 p = h at *
    obtain ⟨last, hlast⟩ : ∃ last, h.numSegments = last + 1 :=
      ⟨_, (succ_pred_eq_of_pos hfits.cuts.pos).symm⟩
    simp only [if_neg hpr, hq, hprev, Option.some.injEq]
    by_cases hleaf : t.next ≠ []
    · have hdoes := splitRelay_does (q := q) (m := m) X hfits hnodup hlast
      simp only [if_pos hleaf, hlast, Nat.add_sub_cancel]
      exact (hdoes.congr (fun s => if_congr eq_comm rfl rfl) hsame).mono fun m' h => h.down hfits hpr
    · simp only [if_neg hleaf]
      rw [not_not.mp hleaf] at hsame ⊢
      have hdoes := relay_does (m := m) X q h.off h.sendcount hfits.cuts (fun k _ => le_rfl)
        nodup_nil
      rw [map_eq_flatMap]
      exact (hdoes.congr (fun s => if_congr eq_comm rfl rfl) hsame).mono fun m' h => h.down hfits hpr

theorem rotate_add_one (size root v : ℕ) : (rotate size root v + 1) % size = rotate size root (v + 1) := by
  unfold rotate
  rw [mod_add_mod, add_right_comm]

theorem rotate_sub_one (hroot : root < size) {v : ℕ} (hv : v ≠ 0) :
    (rotate size root v + size - 1) % size = rotate size root (v - 1) := by
  unfold rotate
  rw [Nat.add_sub_assoc (by omega), mod_add_mod,
    show v + root + (size - 1) = v - 1 + root + size by omega, add_mod_right]

theorem rotate_last (hroot : root < size) : (root + size - 1) % size = rotate size root (size - 1) := by
  unfold rotate
  congr 1
  omega

def partner (size v : ℕ) : ℕ := if v % 2 = 0 then v - 1 else if v + 1 < size then v + 1 else 0

theorem partner_lt {v : ℕ} (hv : v < size) : partner size v < size := by
  unfold partner
  split_ifs <;> omega

theorem partner_eq {v w : ℕ} (hv : v < size) (hw : w < size) (hw0 : w ≠ 0) :
    partner size w = v ↔
      if v = 0 then size % 2 = 0 ∧ w = size - 1
      else if v % 2 = 0 then w = v - 1 else v + 1 < size ∧ w = v + 1 := by
  unfold partner
  split_ifs <;> omega

def otherHalf (size root : ℕ) (half0 half1 : Half) (r : ℕ) : Half :=
  if (unrotate size root r + 1) % 2 = 0 then half1 else half0

theorem otherHalf_partner {v w : ℕ} (hroot : root < size) (hv : v < size) (hw : w < size) (hw0 : w ≠ 0)
    (hv0 : v ≠ 0) (h : partner size w = v) (half0 half1 : Half) :
    otherHalf size root half0 half1 (rotate size root w) =
      halfOf size root half0 half1 (rotate size root v) := by
  rw [partner_eq hv hw hw0, if_neg hv0] at h
  rw [otherHalf, halfOf, unrotate_rotate hroot hw, unrotate_rotate hroot hv]
  split_ifs at h ⊢ <;> first | rfl | omega

/-- The send of a virtual rank in the exchange. -/
def exchangeSend (size root : ℕ) (half0 half1 : Half) (v : ℕ) : List (Instr (Bufs Unit α) α) :=
  let mine := halfOf size root half0 half1 (rotate size root v)
  if v = 0 then
    if size % 2 = 0 then [.sendBuf (rotate size root (size - 1)) () half1.off half1.count] else []
  else if v % 2 = 0 then [.sendBuf (rotate size root (v - 1)) () mine.off mine.count]
  else if v + 1 < size then [.sendBuf (rotate size root (v + 1)) () mine.off mine.count]
  else []

def exchangeRecv (size root : ℕ) (half0 half1 : Half) (v : ℕ) : List (Instr (Bufs Unit α) α) :=
  let other := otherHalf size root half0 half1 (rotate size root v)
  if v = 0 then [] else [.recvBuf (rotate size root (partner size v)) () other.off other.count]

theorem splitExchange_eq (hsize : 2 ≤ size) (hroot : root < size) {v : ℕ} (hv : v < size)
    (half0 half1 : Half) :
    splitExchange (α := α) size (rotate size root v) root ((v + 1) % 2) half1
        (halfOf size root half0 half1 (rotate size root v))
        (otherHalf size root half0 half1 (rotate size root v)) =
      exchangeSend size root half0 half1 v ++ exchangeRecv size root half0 half1 v := by
  have hzero : rotate size root v = root ↔ v = 0 := by
    rw [← unrotate_eq_zero hroot (rotate_lt hroot), unrotate_rotate hroot hv]
  have hlast : rotate size root v = rotate size root (size - 1) ↔ v = size - 1 :=
    ⟨fun h => rotate_injOn hroot hv (by omega) h, fun h => h ▸ rfl⟩
  have hother (w : ℕ) (hw : w < size) : rotate size root w = rotate size root v ↔ w = v :=
    ⟨fun h => rotate_injOn hroot hw hv h, fun h => h ▸ rfl⟩
  unfold splitExchange exchangeSend exchangeRecv
  rw [rotate_add_one, rotate_last hroot]
  simp only [hlast, ne_eq]
  by_cases hv0 : v = 0
  · subst hv0
    simp only [rotate_zero_left hroot, not_true_eq_false, and_false, if_false, if_true,
      append_nil]
  · have hne : rotate size root v ≠ root := mt hzero.mp hv0
    have hpair (w : ℕ) (hw : w < size) (hwv : w ≠ v) (b b' : Half) :
        sendrecv (α := α) (rotate size root v) () b.off b.count (rotate size root w) () b'.off b'.count
          (rotate size root w) = [.sendBuf (rotate size root w) () b.off b.count,
            .recvBuf (rotate size root w) () b'.off b'.count] :=
      if_neg fun h => hwv ((hother w hw).mp h.2)
    simp only [hne, hv0, not_false_eq_true, and_true, if_false]
    by_cases heven : v % 2 = 0
    · have hlr : ¬(v + 1) % 2 = 0 := by omega
      have hpartner : partner size v = v - 1 := if_pos heven
      simp only [if_neg hlr, if_pos heven, hpartner, rotate_sub_one hroot hv0]
      rw [hpair (v - 1) (by omega) (by omega)]
      split_ifs <;> first | rfl | omega
    · have hlr : (v + 1) % 2 = 0 := by omega
      simp only [if_pos hlr, if_neg heven]
      by_cases hin : v + 1 < size
      · have hpartner : partner size v = v + 1 := by rw [partner, if_neg heven, if_pos hin]
        rw [if_pos hin, hpartner, hpair (v + 1) hin (by omega)]
        split_ifs <;> first | rfl | omega
      · have hpartner : partner size v = 0 := by rw [partner, if_neg heven, if_neg hin]
        have hhalf : otherHalf size root half0 half1 (rotate size root v) = half1 := by
          rw [otherHalf, unrotate_rotate hroot hv, if_pos hlr]
        rw [if_neg hin, hpartner, rotate_zero_left hroot, hhalf, if_neg (by omega), if_pos (by omega),
          if_pos (by omega)]
        rfl

def exchangeMail (size root : ℕ) (half0 half1 : Half) (X : ℕ → α) : Channels α := fun s d =>
  if s < size ∧ d < size ∧ d ≠ root ∧ s = rotate size root (partner size (unrotate size root d)) then
    [slice X (otherHalf size root half0 half1 d).off (otherHalf size root half0 half1 d).count]
  else []

theorem exchangeMail_to (hroot : root < size) {v w : ℕ} (hv : v < size) (hw : w < size) (hw0 : w ≠ 0)
    (hpw : partner size w = v) (half0 half1 : Half) (d : ℕ) :
    Mail.one (rotate size root w) (slice X (otherHalf size root half0 half1 (rotate size root w)).off
      (otherHalf size root half0 half1 (rotate size root w)).count) d =
      exchangeMail size root half0 half1 X (rotate size root v) d := by
  have hne : rotate size root w ≠ root := fun heq => hw0 (by
    rw [← unrotate_rotate hroot hw, heq]
    exact (unrotate_eq_zero hroot hroot).mpr rfl)
  unfold exchangeMail
  by_cases hd : d = rotate size root w
  · subst hd
    rw [Mail.one_self, unrotate_rotate hroot hw, hpw,
      if_pos ⟨rotate_lt hroot, rotate_lt hroot, hne, rfl⟩]
  · rw [Mail.one_of_ne _ hd, if_neg]
    rintro ⟨-, hdn, hdr, heq⟩
    have hu := unrotate_lt (r := d) hroot
    have hu0 : unrotate size root d ≠ 0 := mt (unrotate_eq_zero hroot hdn).mp hdr
    have hpu := (rotate_injOn hroot hv (partner_lt hu) heq).symm
    rw [partner_eq hv hw hw0] at hpw
    rw [partner_eq hv hu hu0] at hpu
    have hwu : unrotate size root d = w := by split_ifs at hpw hpu <;> omega
    exact hd (by rw [← hwu, rotate_unrotate hroot hdn])

theorem exchangeMail_none (hroot : root < size) {v : ℕ} (hv : v < size)
    (h : ∀ w < size, w ≠ 0 → partner size w ≠ v) (half0 half1 : Half) (d : ℕ) :
    exchangeMail size root half0 half1 X (rotate size root v) d = [] := by
  refine if_neg ?_
  rintro ⟨-, hdn, hdr, heq⟩
  have hu := unrotate_lt (r := d) hroot
  have hu0 : unrotate size root d ≠ 0 := mt (unrotate_eq_zero hroot hdn).mp hdr
  exact h _ hu hu0 (rotate_injOn hroot hv (partner_lt hu) heq).symm

theorem exchangeSend_exec (half0 half1 : Half) (hsize : 2 ≤ size) (hroot : root < size) {v : ℕ}
    (hv : v < size) (h1 : v = 0 → ∀ i, half1.off ≤ i → i < half1.off + half1.count → m () i = X i)
    (hmine : v ≠ 0 → ∀ i, (halfOf size root half0 half1 (rotate size root v)).off ≤ i →
      i < (halfOf size root half0 half1 (rotate size root v)).off +
        (halfOf size root half0 half1 (rotate size root v)).count → m () i = X i) :
    Exec (exchangeSend size root half0 half1 v) m .nothing m
      (exchangeMail size root half0 half1 X (rotate size root v)) := by
  have hsend {w : ℕ} (hw : w < size) (hw0 : w ≠ 0) (hpw : partner size w = v) {b : Half}
      (hb : b = otherHalf size root half0 half1 (rotate size root w))
      (hX : ∀ i, b.off ≤ i → i < b.off + b.count → m () i = X i) :
      Exec [.sendBuf (rotate size root w) () b.off b.count] m .nothing m
        (exchangeMail size root half0 half1 X (rotate size root v)) := by
    refine (Exec.send_one _ _ m).congr (fun _ => rfl) fun d => ?_
    rw [← exchangeMail_to hroot hv hw hw0 hpw, ← hb]
    have hslice : Bufs.read () b.off b.count m = slice X b.off b.count :=
      slice_congr fun i hi => hX _ (by omega) (by omega)
    rw [hslice]
  unfold exchangeSend
  by_cases hv0 : v = 0
  · subst hv0
    simp only [if_true]
    split_ifs with heven
    · refine hsend (by omega) (by omega) ?_ ?_ (h1 rfl)
      · rw [partner_eq hv (by omega) (by omega), if_pos rfl]
        exact ⟨heven, rfl⟩
      · rw [otherHalf, unrotate_rotate hroot (by omega), if_pos (by omega)]
    · refine (Exec.nil m).congr (fun _ => rfl) fun d => (exchangeMail_none hroot hv ?_ half0 half1 d).symm
      intro w hw hw0 hpw
      rw [partner_eq hv hw hw0, if_pos rfl] at hpw
      exact heven hpw.1
  · have hother {w : ℕ} (hw : w < size) (hw0 : w ≠ 0) (hpw : partner size w = v) :=
      (otherHalf_partner hroot hv hw hw0 hv0 hpw half0 half1).symm
    simp only [if_neg hv0]
    split_ifs with heven hin
    · have hpw : partner size (v - 1) = v := by
        rw [partner_eq hv (by omega) (by omega), if_neg hv0, if_pos heven]
      exact hsend (by omega) (by omega) hpw (hother (by omega) (by omega) hpw) (hmine hv0)
    · have hpw : partner size (v + 1) = v := by
        rw [partner_eq hv hin (by omega), if_neg hv0, if_neg heven]
        exact ⟨hin, rfl⟩
      exact hsend hin (by omega) hpw (hother hin (by omega) hpw) (hmine hv0)
    · refine (Exec.nil m).congr (fun _ => rfl) fun d => (exchangeMail_none hroot hv ?_ half0 half1 d).symm
      intro w hw hw0 hpw
      rw [partner_eq hv hw hw0, if_neg hv0, if_neg heven] at hpw
      exact hin hpw.1

theorem exchangeRecv_does (hroot : root < size) {v : ℕ} (hv : v < size) (half0 half1 : Half)
    {R : Bufs Unit α → Prop} (h0 : v = 0 → R m)
    (h : v ≠ 0 → R (m.write () (otherHalf size root half0 half1 (rotate size root v)).off
      (slice X (otherHalf size root half0 half1 (rotate size root v)).off
        (otherHalf size root half0 half1 (rotate size root v)).count))) :
    Does (exchangeRecv size root half0 half1 v)
      (fun s => exchangeMail size root half0 half1 X s (rotate size root v)) .nothing m R := by
  unfold exchangeRecv exchangeMail
  by_cases hv0 : v = 0
  · subst hv0
    rw [if_pos rfl]
    refine (Does.nil (h0 rfl)).congr (fun s => (if_neg ?_).symm) fun _ => rfl
    exact fun h => h.2.2.1 (rotate_zero_left hroot)
  · have hne : rotate size root v ≠ root := fun heq => hv0 (by
      rw [← unrotate_rotate hroot hv, heq]
      exact (unrotate_eq_zero hroot hroot).mpr rfl)
    rw [if_neg hv0, unrotate_rotate hroot hv]
    refine (Does.recvBuf (le_rfl) (h hv0)).congr (fun s => ?_) fun _ => rfl
    refine if_congr ⟨fun hs => ?_, fun hs => hs.2.2.2⟩ rfl rfl
    exact ⟨hs ▸ rotate_lt hroot, rotate_lt hroot, hne, hs⟩

theorem splitExchange_gives (hsize : 2 ≤ size) (hroot : root < size) {half0 half1 : Half} {count : ℕ}
    (hoff0 : half0.off = 0) (hoff1 : half1.off = half0.count) (hcount : half0.count + half1.count = count)
    {m m₀ : ℕ → Bufs Unit α}
    (hdown : ∀ p < size, (∀ i, (p = root → i < count) →
      (p ≠ root → (halfOf size root half0 half1 p).off ≤ i ∧
        i < (halfOf size root half0 half1 p).off + (halfOf size root half0 half1 p).count) →
      m p () i = X i) ∧ ∀ i, count ≤ i → m p () i = m₀ p () i) :
    Gives size (fun p => splitExchange size p root ((unrotate size root p + 1) % 2) half1
        (halfOf size root half0 half1 p) (otherHalf size root half0 half1 p)) m fun m' =>
      ∀ p < size, (∀ i < count, m' p () i = X i) ∧ ∀ i, count ≤ i → m' p () i = m₀ p () i := by
  have hround : Gives size (fun p => exchangeSend size root half0 half1 (unrotate size root p) ++
      exchangeRecv size root half0 half1 (unrotate size root p)) m fun m' =>
      ∀ p < size, (∀ i < count, m' p () i = X i) ∧ ∀ i, count ≤ i → m' p () i = m₀ p () i := by
    refine Gives.round m (fun p (m' : Bufs Unit α) => (∀ i < count, m' () i = X i) ∧
      ∀ i, count ≤ i → m' () i = m₀ p () i) (exchangeMail size root half0 half1 X)
      (fun s d hne => ?_) (fun p hp => ?_) fun p hp => ?_
    · unfold exchangeMail at hne
      split_ifs at hne with hsd
      · exact ⟨hsd.1, hsd.2.1⟩
      · exact absurd rfl hne
    all_goals
      have hv := unrotate_lt (r := p) hroot
      have hp' := rotate_unrotate hroot hp
      have hzero := unrotate_eq_zero hroot hp
    · have hexec := exchangeSend_exec (m := m p) (X := X) half0 half1 hsize hroot hv
        (fun hv0 i _ hi => (hdown p hp).1 i (fun _ => by omega) fun hne => absurd (hzero.mp hv0) hne)
        fun hv0 i h1 h2 => (hdown p hp).1 i (fun heq => absurd (hzero.mpr heq) hv0) fun _ => ?_
      · rwa [hp'] at hexec
      · rw [hp'] at h1 h2
        exact ⟨h1, h2⟩
    · have hdoes := exchangeRecv_does (m := m p) (X := X) hroot hv half0 half1
        (R := fun m' => (∀ i < count, m' () i = X i) ∧ ∀ i, count ≤ i → m' () i = m₀ p () i)
        (fun hv0 => ?_) fun hv0 => ?_
      · rwa [hp'] at hdoes
      · exact ⟨fun i hi => (hdown p hp).1 i (fun _ => hi) fun hne => absurd (hzero.mp hv0) hne,
          (hdown p hp).2⟩
      · rw [hp']
        have hmine (i : ℕ) := (hdown p hp).1 i fun heq => absurd (hzero.mpr heq) hv0
        refine ⟨fun i hi => ?_, fun i hi => ?_⟩
        · rw [Bufs.write_slice_apply]
          split_ifs with hin
          · rw [Nat.add_sub_cancel' hin.2.1]
          · refine hmine i fun _ => ?_
            have hout : ¬((otherHalf size root half0 half1 p).off ≤ i ∧
                i < (otherHalf size root half0 half1 p).off +
                  (otherHalf size root half0 half1 p).count) := fun h => hin ⟨rfl, h⟩
            unfold otherHalf at hout
            unfold halfOf
            split_ifs at hout ⊢ <;> omega
        · rw [Bufs.write_slice_apply, if_neg, (hdown p hp).2 i hi]
          rintro ⟨-, -, hlt⟩
          unfold otherHalf at hlt
          split_ifs at hlt <;> omega
  refine hround.congr fun p hp => ?_
  have heq := splitExchange_eq (α := α) hsize hroot (unrotate_lt (r := p) hroot) half0 half1
  rw [rotate_unrotate hroot hp] at heq
  exact heq.symm

theorem consistent_chain (hroot : root < size) (chains : ℕ) :
    Consistent size root (fun r => buildChain chains size r root) := by
  have hclamp (r : ℕ) : buildChain chains size r root =
      buildChain (if chains < 1 then 1 else if maxTreeFanout < chains then maxTreeFanout else chains)
        size r root := by
    have hmax : ¬maxTreeFanout < 1 := by decide
    unfold buildChain
    by_cases h1 : chains < 1
    · simp only [h1, if_true, lt_irrefl, if_false]
    · by_cases h2 : maxTreeFanout < chains
      · simp only [h1, h2, hmax, if_true, if_false, lt_irrefl]
      · simp only [h1, h2, if_false]
  simp only [hclamp]
  have hmax : maxTreeFanout = 32 := rfl
  refine consistent_buildChain hroot ?_ ?_
  · split_ifs <;> omega
  · split_ifs <;> omega

def SegsOk (size segsize typeSize : ℕ) : Prop :=
  size = 1 ∨ segsize = 0 ∨ 0 < typeSize ∧ typeSize < 2 ^ 32

theorem splitHalves_eq_none {count segsize typeSize : ℕ} :
    splitHalves count segsize typeSize = none ↔
      0 < segsize ∧ (typeSize = 0 ∨ segsize / typeSize = 0) := by
  unfold splitHalves
  by_cases hseg : 0 < segsize
  · by_cases htype : typeSize = 0
    · simp [hseg, htype]
    · by_cases hzero : segsize / typeSize = 0
      · simp [hseg, htype, hzero]
      · simp only [if_pos hseg, if_neg htype, if_neg hzero]
        exact iff_of_false nofun fun h => h.2.elim htype hzero
  · simp only [if_neg hseg]
    exact iff_of_false nofun fun h => hseg h.1

theorem splitHalves_pushedUp (count : ℕ) {segsize typeSize : ℕ} (hseg : segsize < 2 ^ 32) :
    splitHalves count (pushedUp segsize typeSize) typeSize = none ↔
      ¬(segsize = 0 ∨ 0 < typeSize ∧ typeSize < 2 ^ 32) := by
  rw [splitHalves_eq_none, Nat.div_eq_zero_iff, pushedUp]
  have hmod := mod_lt typeSize (show 0 < 2 ^ 32 by decide)
  by_cases hlt : typeSize < 2 ^ 32
  · rw [mod_eq_of_lt hlt]
    split_ifs <;> omega
  · split_ifs <;> omega

theorem split_gives (hsize : 2 ≤ size) (hroot : root < size) {t : ℕ → CollTree}
    (ht : ∀ r < size, buildTree 2 size r root = some (t r))
    (hspan : Spanning size root (fun r => (t r).parent? r) fun r => (t r).next) {half0 half1 : Half}
    (hfit0 : half0.Fits) (hfit1 : half1.Fits) (hoff0 : half0.off = 0) (hoff1 : half1.off = half0.count)
    {count : ℕ} (hcount : half0.count + half1.count = count)
    (hnum : half1.numSegments ≤ half0.numSegments) (m : ℕ → Bufs Unit α) :
    Gives size (fun r => splitDown r root (t r) half0 half1 (halfOf size root half0 half1 r) ++
        splitExchange size r root ((unrotate size root r + 1) % 2) half1
          (halfOf size root half0 half1 r) (otherHalf size root half0 half1 r)) m fun m' =>
      ∀ r < size, (∀ i < count, m' r () i = m root () i) ∧ ∀ i, count ≤ i → m' r () i = m r () i := by
  have hin (h : Half) (hh : h ∈ [half0, half1]) {i : ℕ} (hi : i < h.off + h.count) : i < count := by
    rcases mem_cons.mp hh with rfl | hh
    · omega
    · obtain rfl := mem_singleton.mp hh
      omega
  have hhalf (p : ℕ) : halfOf size root half0 half1 p ∈ [half0, half1] := by
    unfold halfOf
    split_ifs <;> simp
  refine (Gives.down hspan (fun p => (halfOf size root half0 half1 p).segs (m root ()))
    (fun p => Down (m root ()) root (halfOf size root half0 half1 p) (m p) p) fun p hp => ?_).append
    fun m₁ h₁ => splitExchange_gives hsize hroot hoff0 hoff1 hcount fun p hp => ?_
  · exact splitDown_does hsize hroot hfit0 hfit1 hnum hp (ht p hp) (hspan.nodup p hp)
      (hspan.parent_eq_none p hp) fun heq _ _ _ _ _ => by rw [heq]
  · have h := h₁ p hp
    unfold Down at h
    by_cases hpr : p = root
    · rw [if_pos hpr] at h
      rw [h, hpr]
      exact ⟨fun _ _ _ => rfl, fun _ _ => rfl⟩
    · rw [if_neg hpr] at h
      refine ⟨fun i _ hi => h.1 i (hi hpr).1 (hi hpr).2, fun i hi => h.2 i fun hlt => ?_⟩
      exact absurd (hin _ (hhalf p) hlt.2) (Nat.not_lt_of_le hi)

theorem delivers_bcastIntraSplitBintree (hroot : root < size) {count : ℕ} (hcount : 0 < count)
    {segsize typeSize : ℕ} (hseg : segsize < 2 ^ 32) (hok : SegsOk size segsize typeSize) :
    Delivers α size root count fun r => bcastIntraSplitBintree size r root count segsize typeSize := by
  by_cases hone : size = 1
  · subst hone
    obtain rfl : root = 0 := by omega
    refine ⟨fun _ => [], fun r _ => rfl, fun m => .of_gives (Gives.nil fun r hr => ?_)⟩
    obtain rfl : r = 0 := by omega
    exact ⟨fun _ _ => rfl, fun _ _ => rfl⟩
  have hsize : 2 ≤ size := by omega
  obtain ⟨t, ht, hspan, -⟩ := consistent_buildTree (Nat.le_refl 2) (by decide) hsize hroot
  obtain ⟨⟨half0, half1⟩, hhalves⟩ := Option.ne_none_iff_exists'.mp
    (mt (splitHalves_pushedUp count hseg).mp (not_not.mpr (hok.resolve_left hone)))
  have hsplit (r : ℕ) (hr : r < size) :
      bcastIntraSplitBintree (α := α) size r root count segsize typeSize =
        if (half0.count = 0 ∨ half1.count = 0) ∨ half0.count * typeSize < pushedUp segsize typeSize ∨
            half1.count * typeSize < pushedUp segsize typeSize then
          bcastIntraChain size r root count (pushedUp segsize typeSize) typeSize 1
        else some (splitDown r root (t r) half0 half1 (halfOf size root half0 half1 r) ++
          splitExchange size r root ((unrotate size root r + 1) % 2) half1
            (halfOf size root half0 half1 r) (otherHalf size root half0 half1 r)) := by
    have htr : buildTree 2 size r root = some (t r) := ht r hr
    unfold bcastIntraSplitBintree
    simp only [if_neg hone, htr, Option.bind_some, hhalves]
    rfl
  by_cases hsmall : (half0.count = 0 ∨ half1.count = 0) ∨
      half0.count * typeSize < pushedUp segsize typeSize ∨
      half1.count * typeSize < pushedUp segsize typeSize
  · obtain ⟨P, hP, hfin⟩ := delivers_bcastIntra (α := α) (consistent_chain hroot 1) hcount
      (pushedUp segsize typeSize) typeSize
    refine ⟨P, fun r hr => ?_, hfin⟩
    exact (hsplit r hr).trans ((if_pos hsmall).trans (hP r hr))
  · refine ⟨_, fun r hr => (hsplit r hr).trans (if_neg hsmall), fun m => .of_gives ?_⟩
    rw [not_or, not_or, not_or] at hsmall
    obtain ⟨⟨h0, h1⟩, hs0, hs1⟩ := hsmall
    obtain ⟨hfit0, hfit1, hoff0, hoff1, hsum, hnum⟩ := splitHalves_fits hhalves h0 h1 hs0 hs1
    exact split_gives hsize hroot ht hspan hfit0 hfit1 hoff0 hoff1 hsum hnum m

theorem bcastIntraSplitBintree_eq_none (count : ℕ) {segsize typeSize : ℕ} (hseg : segsize < 2 ^ 32)
    (h : ¬SegsOk size segsize typeSize) (rank root : ℕ) :
    bcastIntraSplitBintree (α := α) size rank root count segsize typeSize = none := by
  rw [SegsOk, not_or] at h
  unfold bcastIntraSplitBintree
  simp only [if_neg h.1, (splitHalves_pushedUp count hseg).mpr h.2, Option.bind_none]
  exact Option.bind_fun_none _

theorem delivers_iff {α : Type*} (hsize : size < 2 ^ 31) (hroot : root < size) {count : ℕ}
    (hcount : 0 < count) {segsize typeSize : ℕ} (hseg : segsize < 2 ^ 32) :
    ((∀ chains, Delivers α size root count fun r =>
        bcastIntraChain size r root count segsize typeSize chains) ∧
      (Delivers α size root count fun r => bcastIntraPipeline size r root count segsize typeSize) ∧
      (Delivers α size root count fun r => bcastIntraBintree size r root count segsize typeSize) ∧
      (Delivers α size root count fun r => bcastIntraBinomial size r root count segsize typeSize) ∧
      Delivers α size root count fun r =>
        bcastIntraSplitBintree size r root count segsize typeSize) ↔
      size = 1 ∨ segsize = 0 ∨ 0 < typeSize ∧ typeSize < 2 ^ 32 := by
  constructor
  · rintro ⟨-, -, -, -, P, hP, -⟩
    by_contra h
    exact nomatch (bcastIntraSplitBintree_eq_none count hseg h root root).symm.trans (hP root hroot)
  · intro h
    have htree := (consistent_iff (.tree 2) hsize hroot ⟨by decide, by decide⟩).mpr
      fun heq => nomatch heq.1
    exact ⟨fun chains => delivers_bcastIntra (consistent_chain hroot chains) hcount _ _,
      delivers_bcastIntra (consistent_chain hroot 1) hcount _ _,
      delivers_bcastIntra htree hcount _ _,
      delivers_bcastIntra (consistent_buildBmtree hsize hroot) hcount _ _,
      delivers_bcastIntraSplitBintree hroot hcount hseg h⟩

/-- Five ranks, eleven elements of eight bytes, segments of twenty bytes. -/
theorem delivers_iff_five :
    ((∀ chains, Delivers ℕ 5 2 11 fun r => bcastIntraChain 5 r 2 11 20 8 chains) ∧
      (Delivers ℕ 5 2 11 fun r => bcastIntraPipeline 5 r 2 11 20 8) ∧
      (Delivers ℕ 5 2 11 fun r => bcastIntraBintree 5 r 2 11 20 8) ∧
      (Delivers ℕ 5 2 11 fun r => bcastIntraBinomial 5 r 2 11 20 8) ∧
      Delivers ℕ 5 2 11 fun r => bcastIntraSplitBintree 5 r 2 11 20 8) ↔
      5 = 1 ∨ 20 = 0 ∨ 0 < 8 ∧ 8 < 2 ^ 32 :=
  delivers_iff (by decide) (by decide) (by decide) (by decide)

/-- An element of no bytes, and segments of one byte. -/
theorem not_delivers : ¬∀ size root count segsize typeSize : ℕ, size < 2 ^ 31 → root < size → 0 < count →
    segsize < 2 ^ 32 → Delivers ℕ size root count fun r =>
      bcastIntraSplitBintree size r root count segsize typeSize := by
  intro h
  obtain ⟨P, hP, -⟩ := h 2 0 1 1 0 (by decide) (by decide) (by decide) (by decide)
  have hbad : ¬SegsOk 2 1 0 := by
    unfold SegsOk
    decide
  have hnone := bcastIntraSplitBintree_eq_none (α := ℕ) 1 (by decide) hbad 0 0
  exact nomatch hnone.symm.trans (hP 0 (by decide))

end OpenMPI.Coll
