import OpenMPI.Coll.Signature
import OpenMPI.Proofs.Coll.Bcast

/-!
# Broadcast over a type signature

In bytes, a rank cuts the data in segments of the multiple of its datatype's size that is nearest to the segment size
(`computedSegcount_mul`), and then does what the generic broadcast does with bytes (`genericMoves_scale`).  Over a spanning tree all
get the data of the root exactly if all cut alike (`delivers_described_iff`): the messages on an edge fit their receives only if the
segments of the parent are not longer, and if they are shorter the receiver keeps a byte of its own behind the first of them.
-/

namespace OpenMPI.Coll

open Lib List

variable {α : Type*}

def nearestMultiple (T x : ℕ) : ℕ := if T / 2 < x % T then (x / T + 1) * T else x / T * T

/-- The bytes of a segment, where the size of the datatype is `T` and the message has `N` bytes. -/
def segmentBytes (segsize T N : ℕ) : ℕ := if T ≤ segsize ∧ segsize < N then nearestMultiple T segsize else N

theorem computedSegcount_mul (segsize T count : ℕ) :
    computedSegcount segsize T count * T = segmentBytes segsize T (count * T) := by
  unfold computedSegcount segmentBytes nearestMultiple
  rw [mul_comm T count]
  by_cases h : T ≤ segsize ∧ segsize < count * T
  · have hresidual : segsize - segsize / T * T = segsize % T := by
      have := Nat.div_add_mod' segsize T
      omega
    rw [if_pos h, if_pos h]
    dsimp only
    rw [hresidual, Nat.shiftRight_eq_div_pow, pow_one]
    split_ifs
    · rfl
    · rfl
  · rw [if_neg h, if_neg h]

theorem computedSegcount_le (segsize T count : ℕ) : computedSegcount segsize T count ≤ count := by
  unfold computedSegcount
  split_ifs with h
  · have hlt : segsize / T < count := Nat.div_lt_of_lt_mul h.2
    dsimp only
    split_ifs <;> omega
  · exact le_rfl

theorem segmentBytes_le (segsize T count : ℕ) : segmentBytes segsize T (count * T) ≤ count * T := by
  rw [← computedSegcount_mul]
  exact Nat.mul_le_mul_right T (computedSegcount_le segsize T count)

section Moves

variable {cnt sc num T rank root c s : ℕ} {tree : CollTree}

theorem Cuts.unique {num' : ℕ} (h : Cuts cnt sc num) (h' : Cuts cnt sc num') : num = num' :=
  le_antisymm (h.mono h' (le_rfl)) (h'.mono h (le_rfl))

theorem segments_scale (hc : 0 < cnt) (hs : 0 < sc) (hT : 0 < T) :
    (cnt * T + sc * T - 1) / (sc * T) = (cnt + sc - 1) / sc := by
  have hcut := cuts_ceil hc hs
  refine (cuts_ceil (mul_pos hc hT) (mul_pos hs hT)).unique ⟨?_, ?_⟩
  · rw [← mul_assoc]
    exact Nat.mul_lt_mul_of_pos_right hcut.lt hT
  · rw [← mul_assoc]
    exact Nat.mul_le_mul_right T hcut.le

theorem genericMoves_scale (rank root : ℕ) (tree : CollTree) (hc : 0 < cnt) (hs : 0 < sc) (hT : 0 < T) :
    (genericMoves rank root cnt sc tree).map (BufMove.scale T) = genericMoves rank root (cnt * T) (sc * T) tree := by
  have hoff (k : ℕ) : k * sc * T = k * (sc * T) := mul_assoc ..
  have hlast (k : ℕ) : (cnt - k * sc) * T = cnt * T - k * (sc * T) := by rw [Nat.sub_mul, mul_assoc]
  unfold genericMoves
  dsimp only
  rw [segments_scale hc hs hT]
  by_cases hr : rank = root
  · rw [if_pos hr, if_pos hr, map_flatMap]
    refine congrArg (fun f => (range _).flatMap f) (funext fun k => ?_)
    rw [map_map]
    refine congrArg (fun f => tree.next.map f) (funext fun child => ?_)
    simp only [Function.comp_apply, BufMove.scale, hoff]
    congr 1
    split_ifs
    · exact hlast k
    · rfl
  · rw [if_neg hr, if_neg hr]
    by_cases hleaf : tree.next ≠ []
    · rw [if_pos hleaf, if_pos hleaf]
      simp only [map_append, map_flatMap, map_cons, map_map, BufMove.scale, Function.comp_def, hoff, hlast]
    · rw [if_neg hleaf, if_neg hleaf]
      simp only [map_append, map_cons, map_nil, map_map, BufMove.scale, Function.comp_def, hoff]

theorem genericMoves_instr (rank root cnt sc : ℕ) (tree : CollTree) :
    (genericMoves rank root cnt sc tree).map BufMove.instr = bcastIntraGeneric (α := α) rank root cnt sc tree := by
  unfold genericMoves bcastIntraGeneric
  dsimp only
  split_ifs
  · simp only [map_flatMap, map_map, Function.comp_def, BufMove.instr]
  · simp only [map_append, map_flatMap, map_cons, map_map, Function.comp_def, BufMove.instr]
  · simp only [map_append, map_cons, map_nil, map_map, Function.comp_def, BufMove.instr]

theorem bcastDescribed_eq {segsize N : ℕ} {d : Description} (hN : d.count * d.typelng = N) (hpos : 0 < N) (rank root : ℕ) (tree : CollTree) :
    bcastDescribed (α := α) (some tree) rank root segsize d =
      some ((genericMoves rank root N (segmentBytes segsize d.typelng N) tree).map BufMove.instr) := by
  obtain ⟨hcount, hT⟩ : 0 < d.count ∧ 0 < d.typelng := CanonicallyOrderedAdd.mul_pos.mp (hN ▸ hpos)
  unfold bcastDescribed
  rw [Option.map_some]
  dsimp only
  rw [genericMoves_scale rank root tree hcount (computedSegcount_pos hcount) hT, computedSegcount_mul, hN]

theorem sent_children (o n : ℕ) {next : List ℕ} (hnext : next.Nodup) :
    BufMove.sent c (next.map fun child => (BufMove.send child () o n)) = if c ∈ next then [n] else [] := by
  induction next with
  | nil => rfl
  | cons a next ih =>
    obtain ⟨ha, hnext⟩ := nodup_cons.mp hnext
    rw [map_cons, sent_send, ih hnext]
    by_cases hac : a = c
    · subst hac
      simp [ha]
    · have hca : ¬c = a := fun h => hac h.symm
      simp [hac, hca]

theorem rooms_children (o n : ℕ) (next : List ℕ) :
    BufMove.rooms s (next.map fun child => (BufMove.send child () o n)) = [] := by
  induction next with
  | nil => rfl
  | cons a next ih => rw [map_cons, rooms_send, ih]

theorem genericMoves_relay (hcut : Cuts cnt sc num) (hnum : (cnt + sc - 1) / sc = num) (hr : rank ≠ root) :
    genericMoves rank root cnt sc tree = (range num).flatMap fun k => .recv tree.prev.toNat () (k * sc) sc ::
      tree.next.map fun child => .send child () (k * sc) (segLen cnt sc num k) := by
  obtain ⟨last, rfl⟩ : ∃ last, num = last + 1 := ⟨_, (Nat.succ_pred_eq_of_pos hcut.pos).symm⟩
  have hinit : (range last).flatMap (fun k => BufMove.recv tree.prev.toNat () (k * sc) sc ::
      tree.next.map fun child => .send child () (k * sc) (segLen cnt sc (last + 1) k)) =
        (range last).flatMap fun k => .recv tree.prev.toNat () (k * sc) sc ::
          tree.next.map fun child => .send child () (k * sc) sc := by
    refine flatMap_congr fun k hk => ?_
    have hne : k ≠ last + 1 - 1 := by
      have := mem_range.mp hk
      omega
    rw [segLen, if_neg hne]
  unfold genericMoves
  dsimp only
  rw [hnum, if_neg hr, range_succ, flatMap_append, flatMap_singleton, hinit, Nat.add_sub_cancel, segLen,
    if_pos (Nat.add_sub_cancel ..).symm]
  by_cases hleaf : tree.next ≠ []
  · rw [if_pos hleaf]
  · rw [if_neg hleaf, not_not.mp hleaf, map_eq_flatMap]
    rfl

theorem sent_genericMoves (hcut : Cuts cnt sc num) (hnum : (cnt + sc - 1) / sc = num) (hnext : tree.next.Nodup) (hc : c ∈ tree.next) :
    BufMove.sent c (genericMoves rank root cnt sc tree) = (range num).map (segLen cnt sc num) := by
  have hturn (k n : ℕ) : BufMove.sent c (tree.next.map fun child => (BufMove.send child () (k * sc) n)) = [n] := by
    rw [sent_children _ _ hnext, if_pos hc]
  by_cases hr : rank = root
  · unfold genericMoves
    dsimp only
    rw [if_pos hr, hnum, BufMove.sent, filterMap_flatMap, map_eq_flatMap]
    exact congrArg (fun f => (range num).flatMap f) (funext fun k => hturn k _)
  · rw [genericMoves_relay hcut hnum hr, BufMove.sent, filterMap_flatMap, map_eq_flatMap]
    refine congrArg (fun f => (range num).flatMap f) (funext fun k => ?_)
    exact hturn k _

theorem rooms_genericMoves (hcut : Cuts cnt sc num) (hnum : (cnt + sc - 1) / sc = num) (hr : rank ≠ root) :
    BufMove.rooms s (genericMoves rank root cnt sc tree) =
      if tree.prev.toNat = s then (range num).map fun k => ((), k * sc, sc) else [] := by
  have hturn (k : ℕ) : BufMove.rooms s (.recv tree.prev.toNat () (k * sc) sc ::
      tree.next.map fun child => .send child () (k * sc) (segLen cnt sc num k)) =
        if tree.prev.toNat = s then [((), k * sc, sc)] else [] := by
    rw [rooms_recv, rooms_children]
  rw [genericMoves_relay hcut hnum hr, BufMove.rooms, filterMap_flatMap]
  have hall := congrArg (fun f => (range num).flatMap f) (funext hturn)
  refine hall.trans ?_
  split_ifs
  · exact map_eq_flatMap.symm
  · exact flatMap_eq_nil_iff.mpr fun _ _ => rfl

end Moves

structure Describes (size N : ℕ) (d : ℕ → Description) : Prop where
  pos : ∀ r < size, 0 < (d r).count
  bytes : ∀ r < size, (d r).count * (d r).typelng = N

variable {size root segsize N : ℕ} {d : ℕ → Description} {t : ℕ → CollTree}

theorem segmentBytes_pos {d : Description} (hN : d.count * d.typelng = N) (hpos : 0 < N) (segsize : ℕ) :
    0 < segmentBytes segsize d.typelng N := by
  obtain ⟨hcount, hT⟩ : 0 < d.count ∧ 0 < d.typelng := CanonicallyOrderedAdd.mul_pos.mp (hN ▸ hpos)
  rw [← hN, ← computedSegcount_mul]
  exact mul_pos (computedSegcount_pos hcount) hT

def emptyMoves (rank root : ℕ) (tree : CollTree) : List (BufMove Unit) :=
  (if rank = root then [] else [.recv tree.prev.toNat () 0 0]) ++ tree.next.map fun child => .send child () 0 0

theorem genericMoves_empty {d : Description} (hN : d.count * d.typelng = 0) (hc : 0 < d.count) (rank root : ℕ) (tree : CollTree) :
    (genericMoves rank root d.count (computedSegcount segsize d.typelng d.count) tree).map (BufMove.scale d.typelng) =
      emptyMoves rank root tree := by
  have hT : d.typelng = 0 := (Nat.mul_eq_zero.mp hN).resolve_left (ne_of_gt hc)
  have hseg : computedSegcount segsize d.typelng d.count = d.count := by
    rw [hT, computedSegcount, if_neg (by omega)]
  have hone : (d.count + d.count - 1) / d.count = 1 := by
    refine (cuts_ceil hc hc).unique ⟨?_, ?_⟩
    · omega
    · omega
  rw [hseg, hT]
  unfold genericMoves emptyMoves
  dsimp only
  rw [hone]
  by_cases hr : rank = root
  · rw [if_pos hr, if_pos hr]
    simp [BufMove.scale, Function.comp_def]
  · rw [if_neg hr, if_neg hr]
    by_cases hleaf : tree.next = []
    · simp [hleaf, BufMove.scale]
    · simp [hleaf, BufMove.scale, Function.comp_def]

theorem finishes_empty (hspan : Spanning size root (fun r => (t r).parent? r) (fun r => (t r).next)) (m : ℕ → Bufs Unit α) :
    Finishes size (fun r => (emptyMoves r root (t r)).map BufMove.instr) m fun m' => ∀ r < size, m' r = m r := by
  refine .of_gives (Gives.down hspan (fun _ => [[]]) (fun r m' => m' = m r) fun p hp => ?_)
  have hsends : Does ((t p).next.map fun child => .sendBuf child () 0 0) .nothing
      (fun x => if x ∈ (t p).next then [([] : List α)] else []) (m p) (· = m p) := by
    have hdoes : Does ((t p).next.map fun child => .sendBuf child () 0 0) .nothing
        (.flat (t p).next fun child => .one child (slice (m p ()) 0 0)) (m p) (· = m p) :=
      sends_does (fun i hi => absurd hi (Nat.not_lt_zero i)) rfl
    refine hdoes.congr (fun _ => rfl) fun x => ?_
    have hall := flat_all [0] (hspan.nodup p hp) (fun _ => ([] : List α)) x
    rw [Mail.flat_singleton] at hall
    exact hall
  have hinstr : ((t p).next.map fun child => (.send child () 0 0 : BufMove Unit)).map (BufMove.instr (α := α)) =
      (t p).next.map fun child => .sendBuf child () 0 0 := by
    rw [map_map]
    rfl
  rw [emptyMoves, map_append, hinstr]
  by_cases hr : p = root
  · have hnone := (hspan.parent_eq_none p hp).mpr hr
    rw [if_pos hr]
    refine hsends.congr (fun x => ?_) fun _ => rfl
    rw [hnone, if_neg nofun]
    rfl
  · obtain ⟨q, hq⟩ := Option.ne_none_iff_exists'.mp (mt (hspan.parent_eq_none p hp).mp hr)
    have hprev : (t p).prev.toNat = q := by
      unfold CollTree.parent? at hq
      split_ifs at hq
      exact Option.some.inj hq
    have hwrite : (m p).write () 0 [] = m p := by
      funext b i
      exact write_of_misses fun h => absurd h.2.2 (Nat.not_lt_zero i)
    have hrecv : Does [.recvBuf q () 0 0] (.one q ([] : List α)) .nothing (m p) (· = m p) := Does.recv_one (Nat.le_refl 0) hwrite
    have hthen (m' : Bufs Unit α) (hm' : m' = m p) : Does ((t p).next.map fun child => .sendBuf child () 0 0) .nothing
        (fun x => if x ∈ (t p).next then [([] : List α)] else []) m' (· = m p) := by
      rw [hm']
      exact hsends
    rw [if_neg hr, hprev]
    refine (hrecv.append hthen).congr (fun x => ?_) fun _ => rfl
    rw [hq]
    simp [Mail.one, eq_comm]

theorem delivers_described (h : Spanning size root (fun r => (t r).parent? r) (fun r => (t r).next)) (hroot : root < size) (hd : Describes size N d)
    (hsame : ∀ r < size, segmentBytes segsize (d r).typelng N = segmentBytes segsize (d root).typelng N) :
    Delivers α size root N fun r => bcastDescribed (some (t r)) r root segsize (d r) := by
  rcases Nat.eq_zero_or_pos N with rfl | hpos
  · refine ⟨fun r => (emptyMoves r root (t r)).map BufMove.instr, fun r hr => ?_, fun m => ?_⟩
    · show bcastDescribed (some (t r)) r root segsize (d r) = _
      unfold bcastDescribed
      rw [Option.map_some]
      dsimp only
      rw [genericMoves_empty (hd.bytes r hr) (hd.pos r hr)]
    · refine (finishes_empty h m).mono fun m' hm' r hr => ⟨fun i hi => absurd hi (Nat.not_lt_zero i), fun i _ => ?_⟩
      rw [hm' r hr]
  · refine ⟨fun r => bcastIntraGeneric r root N (segmentBytes segsize (d root).typelng N) (t r), fun r hr => ?_, fun m =>
      finishes_generic h hpos (segmentBytes_pos (hd.bytes root hroot) hpos segsize) m⟩
    show bcastDescribed (some (t r)) r root segsize (d r) = _
    rw [bcastDescribed_eq (hd.bytes r hr) hpos, hsame r hr, genericMoves_instr]

theorem Cuts.eq_or_lt {sc sc' num : ℕ} (h : Cuts N sc num) (h' : Cuts N sc' num) (hle : sc ≤ N) (hle' : sc' ≤ N)
    (hfits : ∀ k < num, segLen N sc num k ≤ sc') : sc = sc' ∨ 2 ≤ num ∧ sc < sc' := by
  have hpos := h.pos
  rcases (by omega : num = 1 ∨ 2 ≤ num) with rfl | hnum
  · have := h.le
    have := h'.le
    omega
  · have hfirst := hfits 0 hpos
    rw [segLen, if_neg (by omega)] at hfirst
    omega

theorem same_of_delivers [Nontrivial α] (h : Spanning size root (fun r => (t r).parent? r) (fun r => (t r).next)) (hroot : root < size)
    (hd : Describes size N d) (hpos : 0 < N)
    (hdelivers : Delivers α size root N fun r => bcastDescribed (some (t r)) r root segsize (d r)) {p c : ℕ} (hp : p < size) (hc : c ∈ (t p).next) :
    segmentBytes segsize (d p).typelng N = segmentBytes segsize (d c).typelng N := by
  obtain ⟨P, hP, hfin⟩ := hdelivers
  obtain ⟨a, b, hab⟩ := exists_pair_ne α
  have hcs : c < size := h.children_lt p hp c hc
  have hparent : (t c).parent? c = some p := (h.mem_children p hp c hcs).mp hc
  have hcroot : c ≠ root := by
    rintro rfl
    rw [(h.parent_eq_none c hcs).mpr rfl] at hparent
    cases hparent
  have hprev : (t c).prev.toNat = p := by
    unfold CollTree.parent? at hparent
    split_ifs at hparent
    exact Option.some.inj hparent
  have hmoves (r : ℕ) (hr : r < size) :
      P r = (genericMoves r root N (segmentBytes segsize (d r).typelng N) (t r)).map BufMove.instr := by
    have heq := (hP r hr).symm.trans (bcastDescribed_eq (hd.bytes r hr) hpos r root (t r))
    exact Option.some.inj heq
  obtain ⟨m', hm', hfits, huntouched⟩ := ((hfin fun r _ _ => if r = root then a else b).congr hmoves).exists_run
  have hcut (r : ℕ) (hr : r < size) := cuts_ceil hpos (segmentBytes_pos (hd.bytes r hr) hpos segsize)
  have hle (r : ℕ) (hr : r < size) : segmentBytes segsize (d r).typelng N ≤ N := by
    have := segmentBytes_le segsize (d r).typelng (d r).count
    rwa [hd.bytes r hr] at this
  have hsent := @sent_genericMoves _ _ _ p root c (t p) (hcut p hp) rfl (h.nodup p hp) hc
  have hrooms (s : ℕ) := @rooms_genericMoves _ _ _ c root s (t c) (hcut c hcs) rfl hcroot
  have hedge := hfits p hp c hcs
  rw [hsent, hrooms p, if_pos hprev] at hedge
  have hnum := hedge.length_eq
  rw [length_map, length_map, length_range, length_range] at hnum
  have hcutc := hcut c hcs
  rw [← hnum] at hcutc hedge
  have hfit := forall₂_same.mp (forall₂_map_left_iff.mp (forall₂_map_right_iff.mp hedge))
  rcases Cuts.eq_or_lt (hcut p hp) hcutc (hle p hp) (hle c hcs) fun k hk => hfit k (mem_range.mpr hk) with heq | ⟨htwo, hlt⟩
  · exact heq
  -- the byte behind the first segment stays what it was
  have hplace : segmentBytes segsize (d p).typelng N < N := by
    have hend := (hcut p hp).lt
    have hmul := Nat.mul_le_mul_right (segmentBytes segsize (d p).typelng N) (Nat.le_sub_one_of_lt htwo)
    rw [one_mul] at hmul
    omega
  have hkept := huntouched c hcs () (segmentBytes segsize (d p).typelng N) (fun s hs pair hpair => ?_) fun move hmove => ?_
  · have hgot := (hm' c hcs).1 _ hplace
    rw [hkept, if_neg hcroot, if_pos rfl] at hgot
    exact absurd hgot.symm hab
  · rw [hrooms s] at hpair
    by_cases hsp : (t c).prev.toNat = s
    · rw [if_pos hsp, ← hsp, hprev, hsent, ← hnum, zip_map'] at hpair
      obtain ⟨k, hk, rfl⟩ := mem_map.mp hpair
      rintro ⟨-, hbelow, habove⟩
      dsimp only at hbelow habove
      rcases Nat.eq_zero_or_pos k with rfl | hk0
      · rw [segLen, if_neg (by omega)] at habove
        omega
      · have hmul := Nat.mul_le_mul_right (segmentBytes segsize (d c).typelng N) hk0
        omega
    · rw [if_neg hsp, zip_nil_right] at hpair
      cases hpair
  · rw [genericMoves_relay (hcut c hcs) rfl hcroot] at hmove
    obtain ⟨k, -, hk⟩ := mem_flatMap.mp hmove
    rcases mem_cons.mp hk with rfl | hsend
    · trivial
    · obtain ⟨child, -, rfl⟩ := mem_map.mp hsend
      trivial

theorem segmentBytes_zero (segsize T : ℕ) : segmentBytes segsize T 0 = 0 := if_neg fun h => absurd h.2 (Nat.not_lt_zero _)

theorem delivers_described_iff [Nontrivial α] {build : ℕ → Option CollTree} (h : Consistent size root build) (hroot : root < size)
    (hd : Describes size N d) :
    (Delivers α size root N fun r => bcastDescribed (build r) r root segsize (d r)) ↔
      ∀ r < size, segmentBytes segsize (d r).typelng N = segmentBytes segsize (d root).typelng N := by
  obtain ⟨t, ht, hspan, -⟩ := h
  have hbuild : (Delivers α size root N fun r => bcastDescribed (build r) r root segsize (d r)) ↔
      Delivers α size root N fun r => bcastDescribed (some (t r)) r root segsize (d r) := by
    refine exists_congr fun P => and_congr_left fun _ => forall₂_congr fun r hr => ?_
    dsimp only
    rw [ht r hr]
  rw [hbuild]
  constructor
  · intro hdelivers r hr
    rcases Nat.eq_zero_or_pos N with rfl | hpos
    · rw [segmentBytes_zero, segmentBytes_zero]
    · induction hspan.reachable r hr with
      | refl => rfl
      | tail _ hedge ih =>
        obtain ⟨hp, hc⟩ := hedge
        exact (same_of_delivers hspan hroot hd hpos hdelivers hp hc).symm.trans (ih hp)
  · exact delivers_described hspan hroot hd

theorem choice_iff (model : SizeModel) (hroot : root < size) (hd : Describes size N d) :
    (∀ r < size, bcastIntraDecFixed model size (d r) = bcastIntraDecFixed model size (d root)) ↔
      N < 2048 ∨ (∀ r < size, (d r).count ≤ 1) ∨ ∀ r < size, 1 < (d r).count := by
  have hbytes (r : ℕ) (hr : r < size) : (d r).typelng * (d r).count = N := (mul_comm ..).trans (hd.bytes r hr)
  have hbinomial (r : ℕ) (hr : r < size) (hfew : N < 2048 ∨ (d r).count ≤ 1) : bcastIntraDecFixed model size (d r) = .binomial 0 := by
    unfold bcastIntraDecFixed
    dsimp only
    rw [hbytes r hr, if_pos hfew]
  have hsame (r r' : ℕ) (hr : r < size) (hr' : r' < size) (hmany : 1 < (d r).count) (hmany' : 1 < (d r').count) :
      bcastIntraDecFixed model size (d r) = bcastIntraDecFixed model size (d r') := by
    unfold bcastIntraDecFixed
    dsimp only
    rw [hbytes r hr, hbytes r' hr']
    simp only [Nat.not_le_of_lt hmany, Nat.not_le_of_lt hmany']
  have hnot (r : ℕ) (hr : r < size) (hlong : ¬N < 2048) (hmany : 1 < (d r).count) : bcastIntraDecFixed model size (d r) ≠ .binomial 0 := by
    unfold bcastIntraDecFixed
    dsimp only
    rw [hbytes r hr, if_neg (by omega)]
    split_ifs <;> simp
  constructor
  · intro hall
    by_contra hneither
    push Not at hneither
    obtain ⟨hlong, ⟨r, hr, hmany⟩, r', hr', hfew⟩ := hneither
    refine hnot r hr (Nat.not_lt_of_le hlong) hmany ?_
    rw [hall r hr, ← hall r' hr']
    exact hbinomial r' hr' (.inr hfew)
  · rintro (hshort | hfew | hmany) r hr
    · rw [hbinomial r hr (.inl hshort), hbinomial root hroot (.inl hshort)]
    · rw [hbinomial r hr (.inr (hfew r hr)), hbinomial root hroot (.inr (hfew root hroot))]
    · exact hsame r root hr hroot (hmany r hr) (hmany root hroot)

end OpenMPI.Coll
