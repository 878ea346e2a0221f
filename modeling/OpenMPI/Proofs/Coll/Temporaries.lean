import OpenMPI.Coll.Temporaries
import OpenMPI.Proofs.Coll.ReduceScatter
import OpenMPI.Proofs.Coll.Signature

/-!
# The temporary buffers of the tuned reductions

Each algorithm stays within the elements that it has asked for, and touches the first and the last of them.
So it is safe if and only if the elements of its buffers have room, which depends on the address only
(`Fits`).
-/

namespace OpenMPI.Coll.Tuned

open Lib Function List Nat

variable {d : Layout} {comm : Communicator} {blocks : TempBuf → Option ℤ}

def Roomy (d : Layout) (blocks : TempBuf → Option ℤ) (p : Ptr) (n : ℕ) : Prop :=
  ∀ first count, first + count ≤ n → d.Within blocks (access p first count)

variable {p q : Ptr} {b : TempBuf} {off : ℤ} {n first count : ℕ} {ts : List (Touch TempBuf)}

@[simp] theorem access_some : access (some (b, off)) first count = [⟨b, off, first, count⟩] := rfl

theorem roomy_none : Roomy d blocks none n := fun _ _ _ => Layout.within_nil

theorem roomy_of_fits (hb : blocks b = some (d.span n)) (h : d.Fits off n) :
    Roomy d blocks (some (b, off)) n := by
  intro first count hle t ht
  rw [access_some, mem_singleton] at ht
  subst ht
  exact h.inside hb hle

theorem Roomy.all (h : Roomy d blocks p n) : d.Within blocks (access p 0 n) := h 0 n (by omega)

theorem within_one_iff (hb : blocks b = some (d.span n)) (hmem : ⟨b, off, 0, n⟩ ∈ ts)
    (hts : d.Fits off n → d.Within blocks ts) : d.Within blocks ts ↔ d.Fits off n :=
  ⟨fun h => (Layout.inside_all_iff hb).mp (h _ hmem), hts⟩

theorem doublingLoop_within (rank adjsize extraRanks newrank fuel distance : ℕ)
    (hp : Roomy d blocks p count) (hq : Roomy d blocks q count) :
    d.Within blocks (doublingLoop rank adjsize extraRanks count newrank fuel distance p q).1 ∧
      Roomy d blocks (doublingLoop rank adjsize extraRanks count newrank fuel distance p q).2 count := by
  induction fuel generalizing distance p q with
  | zero => exact ⟨Layout.within_nil, hp⟩
  | succ fuel ih =>
    rw [doublingLoop]
    by_cases hdist : distance < adjsize
    · rw [if_pos hdist]
      have hall := (hq.all.append hp.all).append (hp.all.append hq.all)
      by_cases hrank : rank < if newrank ^^^ distance < extraRanks then (newrank ^^^ distance) * 2 + 1
          else (newrank ^^^ distance) + extraRanks
      · simp only [hrank, if_true]
        exact ⟨hall.append (ih _ hq hp).1, (ih _ hq hp).2⟩
      · simp only [hrank, if_false]
        exact ⟨hall.append (ih _ hp hq).1, (ih _ hp hq).2⟩
    · rw [if_neg hdist]
      exact ⟨Layout.within_nil, hp⟩

theorem safe_recursivedoubling_iff :
    Safe d blocks (allreduceIntraRecursivedoubling d comm count) ↔
      (comm.size ≠ 1 → 0 ≤ d.span count → d.Fits 0 count) := by
  unfold allreduceIntraRecursivedoubling
  by_cases hsize : comm.size = 1
  · simp [hsize, safe_nil]
  simp only [hsize, if_false, ne_eq, not_false_eq_true, forall_const]
  have hb : update blocks .inplacebuf (some (d.span count)) .inplacebuf = some (d.span count) :=
    update_self ..
  by_cases hfolded : comm.rank < 2 * (comm.size - nearestPower comm.size) ∧ comm.rank % 2 = 0
  · rw [if_pos hfolded]
    simp only [safe_malloc, safe_touch, safe_nil, and_true]
    refine forall_congr' fun _ => within_one_iff hb (by simp) fun hfits => ?_
    have h := roomy_of_fits hb hfits
    exact h.all.append h.all
  · rw [if_neg hfolded]
    simp only [safe_malloc, safe_touch, safe_nil, and_true]
    refine forall_congr' fun _ => within_one_iff hb (by simp) fun hfits => ?_
    have h := roomy_of_fits hb hfits
    have hloop := doublingLoop_within comm.rank (nearestPower comm.size)
      (comm.size - nearestPower comm.size)
      (if comm.rank < 2 * (comm.size - nearestPower comm.size) then comm.rank >>> 1
        else comm.rank - (comm.size - nearestPower comm.size))
      (nearestPower comm.size) 1 h roomy_none
    have hfold : d.Within (update blocks .inplacebuf (some (d.span count)))
        (access none 0 count ++ access none 0 count ++ access (some (.inplacebuf, 0)) 0 count) := h.all
    refine (((h.all.append (.ite (fun _ => hfold) fun _ => Layout.within_nil)).append hloop.1).append
      (.ite (fun _ => hloop.2.all) fun _ => Layout.within_nil)).append hloop.2.all

theorem BlockCount.count_le (count numBlocks block : ℕ) :
    (computeBlockcount count numBlocks).count block ≤ (computeBlockcount count numBlocks).early := by
  unfold BlockCount.count computeBlockcount
  split_ifs <;> simp

theorem early_mono {m n : ℕ} (h : m ≤ n) (numBlocks : ℕ) :
    (computeBlockcount m numBlocks).early ≤ (computeBlockcount n numBlocks).early := by
  simp only [computeBlockcount]
  have hdiv : m / numBlocks ≤ n / numBlocks := Nat.div_le_div_right h
  split_ifs with hm hn
  · omega
  · refine lt_of_le_of_ne hdiv fun heq => hm ?_
    have h1 := div_add_mod m numBlocks
    have h2 := div_add_mod n numBlocks
    rw [heq] at h1
    omega
  · omega
  · exact hdiv

theorem ringTouches_within {size maxcount total first last : ℕ} {inbuf : ℕ → Ptr} {acc : Ptr}
    {off cnt prevblock : ℕ → ℕ} (hsize : 2 ≤ size) (h0 : Roomy d blocks (inbuf 0) maxcount)
    (h1 : 2 < size → Roomy d blocks (inbuf 1) maxcount) (hacc : Roomy d blocks acc total)
    (hcnt : ∀ block < size, cnt block ≤ maxcount) (hoff : ∀ block < size, off block + cnt block ≤ total)
    (hfirst : first < size) (hprev : ∀ k, prevblock k < size) (hlast : last < size) :
    d.Within blocks (ringTouches size maxcount inbuf acc off cnt first prevblock last) := by
  have hin (hthree : 2 < size) (i : ℕ) (hi : i < 2) : Roomy d blocks (inbuf i) maxcount := by
    rcases i with _ | _ | i
    · exact h0
    · exact h1 hthree
    · omega
  have hblock {block : ℕ} (h : block < size) : d.Within blocks (access acc (off block) (cnt block)) :=
    hacc _ _ (hoff block h)
  have hpart {i block : ℕ} (hi : Roomy d blocks (inbuf i) maxcount) (h : block < size) :
      d.Within blocks (access (inbuf i) 0 (cnt block)) :=
    hi _ _ (by simpa using hcnt block h)
  refine (((h0.all.append (hblock hfirst)).append (.flatMap fun k hk => ?_)).append ?_).append (hblock hlast)
  · obtain ⟨hk2, hk⟩ := mem_range'_1.mp hk
    have hthree : 2 < size := by omega
    have hinbi := hin hthree _ (mod_lt (k - 1) two_pos)
    have hother := hin hthree ((k - 1) % 2 ^^^ 1) (by
      rcases mod_two_eq_zero_or_one (k - 1) with h | h <;> simp [h])
    exact ((hinbi.all.append (hpart hother (hprev k))).append (hblock (hprev k))).append (hblock (hprev k))
  · rcases lt_or_ge 2 size with hthree | hle
    · exact hpart (hin hthree _ (mod_lt _ two_pos)) hlast
    · obtain rfl : size = 2 := by omega
      exact hpart h0 hlast

def withInbufs (d : Layout) (two : Bool) (elems : ℕ) (blocks : TempBuf → Option ℤ) : TempBuf → Option ℤ :=
  let blocks := update blocks (.inbuf 0) (some (d.span elems))
  if two then update blocks (.inbuf 1) (some (d.span elems)) else blocks

@[simp] theorem safe_mallocInbufs {two : Bool} {elems : ℕ} {ops : List (MemOp TempBuf)} :
    Safe d blocks (mallocInbufs d two elems ++ ops) ↔
      (0 ≤ d.span elems → Safe d (withInbufs d two elems blocks) ops) := by
  cases two <;> simp [mallocInbufs, withInbufs]

@[simp] theorem withInbufs_zero {two : Bool} {elems : ℕ} :
    withInbufs d two elems blocks (.inbuf 0) = some (d.span elems) := by
  cases two <;> simp [withInbufs]

@[simp] theorem withInbufs_one {elems : ℕ} :
    withInbufs d true elems blocks (.inbuf 1) = some (d.span elems) := by
  simp [withInbufs]

theorem withInbufs_of_ne {two : Bool} {elems : ℕ} (h : ∀ i, b ≠ .inbuf i) :
    withInbufs d two elems blocks b = blocks b := by
  cases two <;> simp [withInbufs, update_of_ne, h]

def RingHolds (d : Layout) (comm : Communicator) (count : ℕ) : Prop :=
  let elems := if count < comm.size then count else (computeBlockcount count comm.size).early
  comm.size ≠ 1 → 0 ≤ d.span elems → d.Fits 0 elems

theorem Communicator.size_pos (comm : Communicator) : 0 < comm.size := zero_lt_of_lt comm.rank_lt

theorem ringTouches_user_within {maxcount : ℕ} {off cnt : ℕ → ℕ} {two : Bool}
    (hsize : comm.size ≠ 1) (htwo : two = decide (2 < comm.size))
    (hcnt : ∀ block < comm.size, cnt block ≤ maxcount) (hfits : d.Fits 0 maxcount) :
    d.Within (withInbufs d two maxcount blocks)
      (ringTouches comm.size maxcount (fun inbi => some (.inbuf inbi, 0)) none off cnt comm.rank
        (fun k => (comm.rank + comm.size - k + 1) % comm.size) ((comm.rank + 1) % comm.size)) := by
  have hpos := comm.size_pos
  obtain ⟨total, htotal⟩ : ∃ total, ∀ block < comm.size, off block + cnt block ≤ total := by
    refine ⟨((range comm.size).map fun block => off block + cnt block).sum, fun block hblock => ?_⟩
    exact single_le_sum (fun _ _ => zero_le _) _
      (mem_map.mpr ⟨block, mem_range.mpr hblock, rfl⟩)
  refine ringTouches_within (by omega) (roomy_of_fits (by simp) hfits) (fun hthree => ?_) roomy_none hcnt
    htotal comm.rank_lt (fun k => mod_lt _ hpos) (mod_lt _ hpos)
  obtain rfl : two = true := by simpa [hthree] using htwo
  exact roomy_of_fits (by simp) hfits

theorem safe_ring_iff : Safe d blocks (allreduceIntraRing d comm count) ↔ RingHolds d comm count := by
  unfold allreduceIntraRing RingHolds
  by_cases hsize : comm.size = 1
  · simp [hsize, safe_nil]
  by_cases hcount : count < comm.size
  · simp [hsize, hcount, safe_recursivedoubling_iff]
  simp only [hsize, hcount, if_false, safe_mallocInbufs, safe_touch, safe_nil, and_true, ne_eq,
    not_false_eq_true, forall_const]
  refine forall_congr' fun _ => within_one_iff (b := .inbuf 0) (by simp) (by simp [ringTouches]) fun hfits => ?_
  exact ringTouches_user_within hsize rfl (fun block _ => BlockCount.count_le ..) hfits

def maxSegcount (size count segcount : ℕ) : ℕ :=
  (computeBlockcount (computeBlockcount count size).early (numPhases size count segcount)).early

def RingSegmentedHolds (d : Layout) (comm : Communicator) (count segsize : ℕ) : Prop :=
  let segcount := computedSegcount segsize (typelng d) count
  if count < comm.size * segcount then RingHolds d comm count
  else comm.size ≠ 1 → 0 ≤ d.span (maxSegcount comm.size count segcount) →
    d.Fits 0 (maxSegcount comm.size count segcount)

theorem numPhases_pos {size segcount : ℕ} (hpos : 0 < size * segcount) (h : size * segcount ≤ count) :
    0 < numPhases size count segcount := by
  have := Nat.div_pos h hpos
  unfold numPhases
  simp only
  split_ifs <;> omega

theorem safe_ringSegmented_iff {segsize : ℕ} :
    Safe d blocks (allreduceIntraRingSegmented d comm count segsize) ↔
      RingSegmentedHolds d comm count segsize := by
  unfold allreduceIntraRingSegmented RingSegmentedHolds
  by_cases hsize : comm.size = 1
  · simp [hsize, safe_nil, RingHolds]
  by_cases hcount : count < comm.size * computedSegcount segsize (typelng d) count
  · simp [hsize, hcount, safe_ring_iff]
  simp only [hsize, hcount, if_false, safe_mallocInbufs, safe_touch, safe_nil, and_true, ne_eq,
    not_false_eq_true, forall_const]
  refine forall_congr' fun _ => ?_
  rcases Nat.eq_zero_or_pos count with rfl | hpos
  · have hsegcount : computedSegcount segsize (typelng d) 0 = 0 := le_zero.mp (computedSegcount_le ..)
    have hphases : numPhases comm.size 0 0 = 0 := by
      simp [numPhases, Nat.ne_of_gt comm.size_pos]
    have helems : maxSegcount comm.size 0 0 = 0 := by simp [maxSegcount, computeBlockcount, hphases]
    simp [hsegcount, hphases, helems, Layout.within_nil, Layout.Fits]
  have hseg : 0 < comm.size * computedSegcount segsize (typelng d) count :=
    Nat.mul_pos comm.size_pos (computedSegcount_pos hpos)
  have hphases := numPhases_pos hseg (Nat.le_of_not_lt hcount)
  refine within_one_iff (b := .inbuf 0) (by simp [maxSegcount]) ?_ fun hfits => .flatMap fun phase _ => ?_
  · refine mem_flatMap.mpr ⟨0, mem_range.mpr hphases, ?_⟩
    simp [ringTouches, maxSegcount]
  · refine ringTouches_user_within hsize rfl (fun block _ => ?_) hfits
    exact (BlockCount.count_le ..).trans (early_mono (BlockCount.count_le ..) _)

section Generic

variable {cnt sc num nextsize seg i : ℕ} {direct root : Bool} {sendtmpbuf accumbuf : Ptr} {inbuf : ℕ → Ptr}

theorem recvcount_eq_segLen (hseg : seg < num) : recvcount cnt sc num seg = segLen cnt sc num seg := by
  unfold recvcount segLen
  rw [mul_comm]
  exact if_congr (by omega) rfl rfl

/-- Segments of `sc` elements, as many as it takes; without elements, nothing is cut. -/
def Cut (cnt sc num : ℕ) : Prop := cnt = 0 ∧ sc = 0 ∧ num = 0 ∨ sc ≤ cnt ∧ Cuts cnt sc num

theorem cut_ceil (hle : sc ≤ cnt) (hpos : 0 < cnt → 0 < sc) : Cut cnt sc ((cnt + sc - 1) / sc) := by
  rcases Nat.eq_zero_or_pos cnt with rfl | hcnt
  · obtain rfl : sc = 0 := by omega
    exact .inl ⟨rfl, rfl, by simp⟩
  · exact .inr ⟨hle, cuts_ceil hcnt (hpos hcnt)⟩

theorem Cut.recvcount_le (h : Cut cnt sc num) (hseg : seg < num ∨ num = 0) :
    recvcount cnt sc num seg ≤ sc := by
  rcases h with ⟨rfl, rfl, rfl⟩ | ⟨-, h⟩
  · simp [recvcount]
  · have hlt : seg < num := hseg.resolve_right (ne_of_gt h.pos)
    rw [recvcount_eq_segLen hlt]
    exact h.segLen_le hlt

theorem Cut.add_recvcount_le (h : Cut cnt sc num) (hseg : seg < num ∨ num = 0) :
    seg * sc + recvcount cnt sc num seg ≤ cnt := by
  rcases h with ⟨rfl, rfl, rfl⟩ | ⟨-, h⟩
  · simp [recvcount]
  · have hlt : seg < num := hseg.resolve_right (ne_of_gt h.pos)
    have := h.add_segLen hlt
    rw [recvcount_eq_segLen hlt]
    omega

def usesInbuf (direct : Bool) (nextsize : ℕ) : Prop := direct = false ∨ 1 < nextsize

theorem childTouches_within (hcut : Cut cnt sc num) (hacc : Roomy d blocks accumbuf cnt)
    (hsend : Roomy d blocks sendtmpbuf cnt)
    (h0 : usesInbuf direct nextsize → Roomy d blocks (inbuf 0) sc)
    (h1 : usesInbuf direct nextsize → 1 < num ∨ 1 < nextsize → Roomy d blocks (inbuf 1) sc)
    (hseg : seg ≤ num) (hi : i < if 0 < seg ∧ seg = num then 1 else nextsize) (hnext : 0 < nextsize) :
    d.Within blocks
      (childTouches cnt sc num nextsize direct root sendtmpbuf accumbuf inbuf seg i) := by
  have hlt : i < nextsize := by
    split_ifs at hi <;> omega
  have hin (x : ℕ) (hx : x = 0 ∨ x = 1 ∧ (1 < num ∨ 1 < nextsize)) (huse : usesInbuf direct nextsize)
      {len : ℕ} (hlen : len ≤ sc) : d.Within blocks (access (inbuf x) 0 len) := by
    rcases hx with rfl | ⟨rfl, htwo⟩
    · exact h0 huse _ _ (by simpa using hlen)
    · exact h1 huse htwo _ _ (by simpa using hlen)
  have hparity := mod_two_eq_zero_or_one (seg * nextsize + i)
  have hother : (seg * nextsize + i) % 2 ^^^ 1 = 0 ∨ (seg * nextsize + i) % 2 ^^^ 1 = 1 := by
    rcases hparity with h | h <;> simp [h]
  refine .append (.ite (fun hirecv => .ite (fun _ => ?_) fun hnot => ?_) fun _ => Layout.within_nil)
    (.ite (fun hpos => .append (.ite (fun _ => ?_) fun _ => ?_) ?_)
      fun hzero => .ite (fun hpos => .append (.append (.ite (fun _ => ?_) fun hnot => ?_) ?_) ?_)
        fun _ => Layout.within_nil)
  · exact hacc _ _ (hcut.add_recvcount_le (.inl hirecv))
  · refine hin _ ?_ ?_ (hcut.recvcount_le (.inl hirecv))
    · rcases hparity with h | h
      · exact .inl h
      · refine .inr ⟨h, ?_⟩
        by_contra hone
        obtain rfl : seg = 0 := by omega
        obtain rfl : i = 0 := by omega
        simp at h
    · unfold usesInbuf
      cases direct
      · exact .inl rfl
      · exact .inr (by simp at hnot; omega)
  · exact hsend _ _ (hcut.add_recvcount_le (by split_ifs at hi <;> omega))
  · refine hin _ ?_ (.inr (by omega)) (hcut.recvcount_le (by split_ifs at hi <;> omega))
    exact hother.imp_right fun h => ⟨h, .inr (by omega)⟩
  · exact hacc _ _ (hcut.add_recvcount_le (by split_ifs at hi <;> omega))
  · exact hsend _ _ (hcut.add_recvcount_le (.inl (by omega)))
  · refine hin _ ?_ ?_ (hcut.recvcount_le (.inl (by omega)))
    · by_cases htwo : 1 < num ∨ 1 < nextsize
      · exact hother.imp_right fun h => ⟨h, htwo⟩
      · obtain rfl : seg = 1 := by omega
        obtain rfl : nextsize = 1 := by omega
        obtain rfl : i = 0 := by omega
        exact .inl rfl
    · unfold usesInbuf
      cases direct
      · exact .inl rfl
      · exact .inr (by simp at hnot; omega)
  · exact hacc _ _ (hcut.add_recvcount_le (.inl (by omega)))
  · exact .ite (fun _ => Layout.within_nil) fun _ => hacc _ _ (hcut.add_recvcount_le (.inl (by omega)))

theorem segmentTouches_within (hcut : Cut cnt sc num) (hacc : Roomy d blocks accumbuf cnt)
    (hsend : Roomy d blocks sendtmpbuf cnt)
    (h0 : usesInbuf direct nextsize → Roomy d blocks (inbuf 0) sc)
    (h1 : usesInbuf direct nextsize → 1 < num ∨ 1 < nextsize → Roomy d blocks (inbuf 1) sc)
    (hnext : 0 < nextsize) :
    d.Within blocks (segmentTouches cnt sc num nextsize direct root sendtmpbuf accumbuf inbuf) := by
  refine .flatMap fun seg hseg => .flatMap fun i hi => ?_
  exact childTouches_within hcut hacc hsend h0 h1 (le_of_lt_succ (mem_range.mp hseg))
    (mem_range.mp hi) hnext

theorem mem_segmentTouches {t : Touch TempBuf} (seg i : ℕ) (hseg : seg ≤ num)
    (hi : i < if 0 < seg ∧ seg = num then 1 else nextsize)
    (ht : t ∈ childTouches cnt sc num nextsize direct root sendtmpbuf accumbuf inbuf seg i) :
    t ∈ segmentTouches cnt sc num nextsize direct root sendtmpbuf accumbuf inbuf :=
  mem_flatMap.mpr ⟨seg, mem_range.mpr (lt_succ_of_le hseg),
    mem_flatMap.mpr ⟨i, mem_range.mpr hi, ht⟩⟩

theorem accumbuf_mem_segmentTouches {t : Touch TempBuf} (hnext : 0 < nextsize) (hseg : seg < num)
    (ht : t ∈ access accumbuf (seg * sc) (recvcount cnt sc num seg)) :
    t ∈ segmentTouches cnt sc num nextsize direct root sendtmpbuf accumbuf inbuf := by
  refine mem_segmentTouches (seg + 1) 0 hseg (by split_ifs <;> omega) ?_
  simp [childTouches, ht]

theorem inbuf_mem_segmentTouches (hcut : Cut cnt sc num) (hcnt : 0 < cnt) (hnext : 0 < nextsize)
    (huse : usesInbuf direct nextsize) :
    ∃ x, (x = 0 ∨ x = 1 ∧ (1 < num ∨ 1 < nextsize)) ∧ ∀ t ∈ access (inbuf x) 0 sc,
      t ∈ segmentTouches cnt sc num nextsize direct root sendtmpbuf accumbuf inbuf := by
  obtain ⟨hle, hcuts⟩ : sc ≤ cnt ∧ Cuts cnt sc num := by
    rcases hcut with ⟨rfl, -⟩ | h
    · omega
    · exact h
  have hnum := hcuts.pos
  have hfirst : recvcount cnt sc num 0 = sc := by
    unfold recvcount
    split_ifs with hone
    · have := hcuts.le
      rw [← hone] at this
      omega
    · rfl
  cases direct
  · refine ⟨0, .inl rfl, fun t ht => mem_segmentTouches 0 0 (zero_le _) (by simpa) ?_⟩
    simp [childTouches, hnum, hfirst, ht]
  · have htwo : 1 < nextsize := huse.resolve_left (by simp)
    refine ⟨1, .inr ⟨rfl, .inr htwo⟩, fun t ht =>
      mem_segmentTouches 0 1 (zero_le _) (by simpa) ?_⟩
    simp [childTouches, hnum, hfirst, ht]

theorem fits_of_segmentTouches_within (hcut : Cut cnt sc num) (hnext : 0 < nextsize)
    (hb : blocks b = some (d.span cnt))
    (h : d.Within blocks
      (segmentTouches cnt sc num nextsize direct root sendtmpbuf (some (b, off)) inbuf)) :
    d.Fits off cnt := by
  rcases hcut with ⟨rfl, -⟩ | ⟨hle, hcuts⟩
  · exact .inr (.inl rfl)
  have hnum := hcuts.pos
  have hroom {seg : ℕ} (hseg : seg < num) (j : ℕ) (hj : seg * sc ≤ j)
      (hj' : j < seg * sc + recvcount cnt sc num seg) : d.Room off (d.span cnt) j := by
    have hin := h _ (accumbuf_mem_segmentTouches hnext hseg (mem_singleton.mpr rfl))
    exact (Layout.inside_iff_room hb).mp hin j hj hj'
  have hlt := hcuts.lt
  have hge := hcuts.le
  refine Layout.fits_of_room (hroom hnum 0 (by simp) ?_) (hroom (sub_lt hnum one_pos) (cnt - 1) ?_ ?_)
  · have := hcuts.add_segLen hnum
    rw [zero_add, one_mul] at this
    rw [recvcount_eq_segLen hnum, this]
    refine Nat.lt_min.mpr ⟨Nat.pos_of_ne_zero ?_, by omega⟩
    rintro rfl
    simp at hge
    omega
  · omega
  · have := hcuts.add_segLen (sub_lt hnum Nat.one_pos)
    rw [recvcount_eq_segLen (sub_lt hnum Nat.one_pos), this, Nat.sub_add_cancel hnum]
    omega

/-- What the generic reduction needs of the datatype, where `own` is whether the accumulator is its own. -/
def GenericHolds (d : Layout) (comm : Communicator) (inPlace own : Bool) (count : ℕ) (commute : Bool)
    (tree : CollTree) (countBySegment : ℕ) : Prop :=
  tree.next ≠ [] →
    if own then 0 ≤ d.span count → d.Fits (-d.lb) count
    else usesInbuf (commute && !(inPlace && decide (comm.rank = tree.root))) tree.next.length →
      0 ≤ d.span countBySegment → d.Fits (-d.lb) countBySegment

/-- The elements behind the pointer stay in their block while other blocks are allocated. -/
def Steady (d : Layout) (blocks : TempBuf → Option ℤ) (p : Ptr) (n : ℕ) : Prop :=
  ∀ blocks', blocks' .tmpbuf = blocks .tmpbuf → Roomy d blocks' p n

theorem steady_none : Steady d blocks none n := fun _ _ => roomy_none

theorem safe_reduceGeneric_iff {sendbuf recvbuf : Option Ptr} {commute : Bool} {root : ℕ} {tree : CollTree}
    (hle : sc ≤ cnt) (hpos : 0 < cnt → 0 < sc) (hsend : ∀ p ∈ sendbuf, Steady d blocks p cnt)
    (hrecv : ∀ p ∈ recvbuf, Steady d blocks p cnt) :
    Safe d blocks (reduceGeneric d comm sendbuf recvbuf cnt commute root tree sc) ↔
      GenericHolds d comm sendbuf.isNone (ownAccumbuf comm root recvbuf) cnt commute tree sc := by
  have hcut := cut_ceil hle hpos
  have hsteady {p : Option Ptr} (h : ∀ q ∈ p, Steady d blocks q cnt) {q : Ptr} (hq : Steady d blocks q cnt) :
      Steady d blocks (p.getD q) cnt := by
    rcases p with _ | p
    · exact hq
    · exact h p rfl
  have hrecv' := hsteady hrecv steady_none
  have hsend' := hsteady hsend hrecv'
  unfold reduceGeneric GenericHolds
  by_cases hnext : tree.next = []
  · simp only [hnext, length_nil, lt_irrefl, if_false, safe_touch, safe_nil, and_true, ne_eq,
      not_true_eq_false, false_implies, iff_true]
    exact .flatMap fun seg hseg => hsteady hsend steady_none _ rfl _ _
      (hcut.add_recvcount_le (.inl (mem_range.mp hseg)))
  have hchild : 0 < tree.next.length := length_pos_iff.mpr hnext
  simp only [hchild, if_true, ne_eq, hnext, not_false_eq_true, forall_const]
  generalize hdirect : (commute && !(sendbuf.isNone && decide (comm.rank = tree.root))) = direct
  have hfitsInbuf (hfits : d.Fits (-d.lb) sc) {two : Bool} (blocks : TempBuf → Option ℤ) :
      Roomy d (withInbufs d two sc blocks) (some (.inbuf 0, -d.lb)) sc ∧
        (two = true → Roomy d (withInbufs d two sc blocks) (some (.inbuf 1, -d.lb)) sc) := by
    refine ⟨roomy_of_fits (by simp) hfits, ?_⟩
    rintro rfl
    exact roomy_of_fits (by simp) hfits
  cases hown : ownAccumbuf comm root recvbuf
  · simp only [Bool.false_eq_true, if_false, nil_append, cons_append, safe_touch,
      safe_mallocInbufs, safe_nil, and_true]
    constructor
    · rintro ⟨-, h⟩ huse hspan
      rcases Nat.eq_zero_or_pos cnt with rfl | hcnt
      · exact .inr (.inl (by omega))
      obtain ⟨x, hx, hmem⟩ := inbuf_mem_segmentTouches hcut hcnt hchild huse
      have hin := h hspan _ (hmem _ (mem_singleton.mpr rfl))
      refine (Layout.inside_all_iff ?_).mp hin
      rcases hx with rfl | ⟨rfl, htwo⟩
      · simp
      · simp [htwo]
    · intro h
      refine ⟨.ite (fun _ => Layout.within_nil) fun _ =>
        (hrecv' _ rfl).all.append (hsend' _ rfl).all, fun hspan => ?_⟩
      have hkeep (two : Bool) : withInbufs d two sc blocks .tmpbuf = blocks .tmpbuf :=
        withInbufs_of_ne (by simp)
      exact segmentTouches_within hcut (hrecv' _ (hkeep _)) (hsend' _ (hkeep _))
        (fun huse => (hfitsInbuf (h huse hspan) blocks).1)
        (fun huse htwo => (hfitsInbuf (h huse hspan) blocks).2 (by simpa using htwo)) hchild
  · simp only [if_true, cons_append, nil_append, safe_malloc, safe_touch, safe_mallocInbufs,
      safe_nil, and_true]
    refine forall_congr' fun hspan => ?_
    constructor
    · rintro ⟨-, h⟩
      by_cases hne : d.bytes = []
      · exact .inl hne
      rcases Nat.eq_zero_or_pos cnt with rfl | hcnt
      · exact .inr (.inl rfl)
      have hspan' := Layout.span_nonneg_of_le hne (hpos hcnt) hle hspan
      refine fits_of_segmentTouches_within hcut hchild ?_ (h hspan')
      rw [withInbufs_of_ne (by simp), update_self]
    · intro hfits
      have hkeep : update blocks .accumbuf (some (d.span cnt)) .tmpbuf = blocks .tmpbuf :=
        update_of_ne (by simp) ..
      refine ⟨.ite (fun _ => Layout.within_nil) fun _ =>
        (roomy_of_fits (update_self ..) hfits).all.append (hsend' _ hkeep).all, fun _ => ?_⟩
      have hacc (two : Bool) : withInbufs d two sc (update blocks .accumbuf (some (d.span cnt))) .accumbuf =
          some (d.span cnt) := by
        rw [withInbufs_of_ne (by simp), update_self]
      exact segmentTouches_within hcut (roomy_of_fits (hacc _) hfits)
        (hsend' _ ((withInbufs_of_ne (by simp)).trans hkeep))
        (fun _ => (hfitsInbuf (hfits.mono hle) _).1)
        (fun _ htwo => (hfitsInbuf (hfits.mono hle) _).2 (by simpa using htwo)) hchild

end Generic

def TreeHolds (d : Layout) (comm : Communicator) (inPlace recvNull : Bool) (count : ℕ) (commute : Bool)
    (root segsize : ℕ) (tree : Option CollTree) : Prop :=
  ∀ t ∈ tree, GenericHolds d comm inPlace (recvNull || decide (root ≠ comm.rank)) count commute t
    (computedSegcount segsize (typelng d) count)

theorem safe_reduceIntraTree_iff {inPlace recvNull commute : Bool} {root segsize : ℕ}
    {tree : Option CollTree} :
    Safe d blocks (reduceIntraTree d comm inPlace recvNull count commute root segsize tree) ↔
      TreeHolds d comm inPlace recvNull count commute root segsize tree := by
  unfold TreeHolds
  rcases tree with _ | tree
  · simp [reduceIntraTree, safe_nil]
  · simp only [reduceIntraTree, Option.elim_some, Option.mem_def, Option.some.injEq, forall_eq']
    rw [safe_reduceGeneric_iff (computedSegcount_le ..) computedSegcount_pos]
    · cases inPlace <;> cases recvNull <;> rfl
    · cases inPlace <;> simp [steady_none]
    · cases recvNull <;> simp [steady_none]

theorem mem_mallocInbufs {two : Bool} {elems : ℕ} {op : MemOp TempBuf} (h : op ∈ mallocInbufs d two elems) :
    ∃ i, op = .malloc (.inbuf i) (d.span elems) := by
  unfold mallocInbufs at h
  split_ifs at h <;> simp only [mem_cons, not_mem_nil, or_false] at h
  · rcases h with rfl | rfl
    · exact ⟨0, rfl⟩
    · exact ⟨1, rfl⟩
  · exact ⟨0, h⟩

theorem mem_reduceGeneric {sendbuf recvbuf : Option Ptr} {commute : Bool} {root sc : ℕ} {tree : CollTree}
    {op : MemOp TempBuf} (h : op ∈ reduceGeneric d comm sendbuf recvbuf count commute root tree sc) :
    (∃ ts, op = .touch ts) ∨
      ownAccumbuf comm root recvbuf = true ∧ op = .malloc .accumbuf (d.span count) ∨
        ∃ i, op = .malloc (.inbuf i) (d.span sc) := by
  unfold reduceGeneric at h
  by_cases hnext : 0 < tree.next.length
  · simp only [if_pos hnext, mem_append, mem_singleton] at h
    rcases h with ((h | rfl) | h) | rfl
    · split_ifs at h with hown
      · exact .inr (.inl ⟨hown, by simpa using h⟩)
      · exact absurd h not_mem_nil
    · exact .inl ⟨_, rfl⟩
    · exact .inr (.inr (mem_mallocInbufs h))
    · exact .inl ⟨_, rfl⟩
  · simp only [if_neg hnext, mem_singleton] at h
    exact .inl ⟨_, h⟩

theorem not_allocates_tmpbuf {sendbuf recvbuf : Option Ptr} {commute : Bool} {root sc : ℕ}
    {tree : CollTree} :
    ∀ op ∈ reduceGeneric d comm sendbuf recvbuf count commute root tree sc, ¬ op.Allocates .tmpbuf := by
  intro op hop
  rcases mem_reduceGeneric hop with ⟨ts, rfl⟩ | ⟨-, rfl⟩ | ⟨i, rfl⟩ <;> simp [MemOp.Allocates]

theorem granted_reduceGeneric {sendbuf recvbuf : Option Ptr} {commute : Bool} {root sc : ℕ}
    {tree : CollTree} (hown : ownAccumbuf comm root recvbuf = false) (hspan : 0 ≤ d.span sc) :
    ∀ op ∈ reduceGeneric d comm sendbuf recvbuf count commute root tree sc, op.Granted := by
  intro op hop
  rcases mem_reduceGeneric hop with ⟨ts, rfl⟩ | ⟨htrue, -⟩ | ⟨i, rfl⟩
  · trivial
  · rw [hown] at htrue
    cases htrue
  · exact hspan

/-- What the in-order reduction needs of the datatype. -/
def InOrderHolds (d : Layout) (comm : Communicator) (inPlace recvNull : Bool) (count : ℕ) (commute : Bool)
    (root segsize : ℕ) (tree : CollTree) : Prop :=
  let ioRoot := comm.size - 1
  let copied := ioRoot ≠ root ∧ root = comm.rank ∧ inPlace
  let received := ioRoot ≠ root ∧ ¬ (root = comm.rank ∧ inPlace) ∧ ioRoot = comm.rank
  let generic := GenericHolds d comm (inPlace && !decide copied)
    ((recvNull && !decide received) || decide (ioRoot ≠ comm.rank)) count commute tree
    (computedSegcount segsize (typelng d) count)
  if copied ∨ received then 0 ≤ d.span count → d.Fits 0 count ∧ generic else generic

theorem safe_inOrderBinary_iff {inPlace recvNull commute : Bool} {root segsize : ℕ} :
    Safe d blocks (reduceIntraInOrderBinary d comm inPlace recvNull count commute root segsize) ↔
      ∀ tree ∈ buildInOrderBintree comm.size comm.rank,
        InOrderHolds d comm inPlace recvNull count commute root segsize tree := by
  unfold reduceIntraInOrderBinary
  rcases buildInOrderBintree comm.size comm.rank with _ | tree
  · simp [safe_nil]
  simp only [Option.elim_some, Option.mem_def, Option.some.injEq, forall_eq', InOrderHolds]
  set sc := computedSegcount segsize (typelng d) count
  have hle : sc ≤ count := computedSegcount_le ..
  have hpos : 0 < count → 0 < sc := computedSegcount_pos
  -- a buffer of the caller, where there is one
  have huser (absent : Bool) (blocks : TempBuf → Option ℤ) :
      ∀ p ∈ (if absent then none else some none : Option Ptr), Steady d blocks p count := by
    cases absent <;> simp [steady_none]
  have hnone (absent : Bool) : (if absent then none else some none : Option Ptr).isNone = absent := by
    cases absent <;> rfl
  set withTmpbuf := update blocks .tmpbuf (some (d.span count))
  have htmp (hfits : d.Fits 0 count) : Steady d withTmpbuf (some (.tmpbuf, 0)) count :=
    fun blocks' h => roomy_of_fits (h.trans (update_self ..)) hfits
  by_cases hcopied : comm.size - 1 ≠ root ∧ root = comm.rank ∧ inPlace
  · have hnot : ¬ (comm.size - 1 ≠ root ∧ ¬ (root = comm.rank ∧ inPlace) ∧ comm.size - 1 = comm.rank) :=
      fun h => h.2.1 hcopied.2
    simp only [if_pos hcopied, if_neg hnot, if_pos (.inl hcopied : _ ∨ _), decide_eq_true hcopied,
      decide_eq_false hnot, cons_append, nil_append, append_nil, safe_malloc, safe_touch,
      Bool.not_true, Bool.and_false, Bool.not_false, Bool.and_true]
    refine forall_congr' fun _ => ?_
    have hcopy : d.Within withTmpbuf (access (some (.tmpbuf, 0)) 0 count) ↔ d.Fits 0 count :=
      within_one_iff (update_self ..) (by simp) fun hfits => (htmp hfits _ rfl).all
    rw [hcopy]
    refine and_congr_right fun hfits => ?_
    rw [safe_reduceGeneric_iff hle hpos, ownAccumbuf, hnone]
    · rfl
    · simpa using htmp hfits
    · exact huser _ _
  by_cases hreceived : comm.size - 1 ≠ root ∧ ¬ (root = comm.rank ∧ inPlace) ∧ comm.size - 1 = comm.rank
  · simp only [if_neg hcopied, if_pos hreceived, if_pos (.inr hreceived : _ ∨ _), decide_eq_false hcopied,
      decide_eq_true hreceived, cons_append, nil_append, safe_malloc, safe_append, safe_touch,
      safe_nil, and_true, Bool.not_true, Bool.and_false, Bool.not_false, Bool.and_true, Bool.false_or]
    refine forall_congr' fun hspan => ?_
    have hown : ownAccumbuf comm (comm.size - 1) (some (some (.tmpbuf, 0))) = false := by
      simp [ownAccumbuf, hreceived.2.2]
    have hgeneric (hfits : d.Fits 0 count) :
        Safe d withTmpbuf (reduceGeneric d comm (if inPlace then none else some none)
          (some (some (.tmpbuf, 0))) count commute (comm.size - 1) tree sc) ↔
          GenericHolds d comm inPlace (decide (comm.size - 1 ≠ comm.rank)) count commute tree sc := by
      rw [safe_reduceGeneric_iff hle hpos (huser _ _) (by simpa using htmp hfits), ownAccumbuf, hnone]
      rfl
    constructor
    · rintro ⟨hsafe, hsent⟩
      have hfits : d.Fits 0 count := by
        by_cases hne : d.bytes = []
        · exact .inl hne
        rcases Nat.eq_zero_or_pos count with hzero | hcount
        · exact .inr (.inl hzero)
        have hsc := Layout.span_nonneg_of_le hne (hpos hcount) hle hspan
        obtain ⟨blocks', hafter⟩ := exists_after (granted_reduceGeneric hown hsc)
        have hb := after_of_not_allocates not_allocates_tmpbuf hafter
        exact (Layout.inside_all_iff (hb.trans (update_self ..))).mp (hsent _ hafter _ (by simp))
      exact ⟨hfits, (hgeneric hfits).mp hsafe⟩
    · rintro ⟨hfits, hholds⟩
      refine ⟨(hgeneric hfits).mpr hholds, fun blocks' hafter => ?_⟩
      exact (htmp hfits _ (after_of_not_allocates not_allocates_tmpbuf hafter)).all
  · simp only [if_neg hcopied, if_neg hreceived, if_neg (not_or.mpr ⟨hcopied, hreceived⟩),
      decide_eq_false hcopied, decide_eq_false hreceived, nil_append, append_nil,
      Bool.not_false, Bool.and_true]
    rw [safe_reduceGeneric_iff hle hpos (huser _ _) (huser _ _), ownAccumbuf, hnone, hnone]

/-- What the linear reduction needs: the data in place is reduced where the buffer points to, and copied
back from the beginning of the memory. -/
def LinearHolds (d : Layout) (comm : Communicator) (inPlace : Bool) (count root : ℕ) : Prop :=
  comm.rank = root → 0 ≤ d.span count →
    (inPlace → d.Fits (-d.lb) count ∧ d.Fits 0 count) ∧
      ((∃ i < comm.size - 1, i ≠ root) → d.Fits (-d.lb) count)

theorem linear_within_iff {inPlace : Bool} {size : ℕ}
    (hplace : inPlace = true → blocks .inplaceTemp = some (d.span count))
    (hfree : 1 < size → blocks .freeBuffer = some (d.span count)) (root : ℕ) :
    d.Within blocks
      (access (if inPlace then some (.inplaceTemp, -d.lb) else none) 0 count ++
        ((range (size - 1)).reverse.flatMap fun i =>
          if root = i then access (if inPlace then some (.inplaceTemp, -d.lb) else none) 0 count
          else access (some (.freeBuffer, -d.lb)) 0 count ++ access (some (.freeBuffer, -d.lb)) 0 count ++
            access (if inPlace then some (.inplaceTemp, -d.lb) else none) 0 count) ++
        if inPlace then access (some (.inplaceTemp, 0)) 0 count else []) ↔
      (inPlace → d.Fits (-d.lb) count ∧ d.Fits 0 count) ∧
        ((∃ i < size - 1, i ≠ root) → d.Fits (-d.lb) count) := by
  simp only [Layout.within_append]
  constructor
  · rintro ⟨⟨hrbuf, hloop⟩, hback⟩
    constructor
    · rintro rfl
      have hb := hplace rfl
      exact ⟨(Layout.inside_all_iff hb).mp (hrbuf _ (by simp)),
        (Layout.inside_all_iff hb).mp (hback _ (by simp))⟩
    · rintro ⟨i, hi, hne⟩
      refine (Layout.inside_all_iff (hfree (by omega))).mp (hloop _ (mem_flatMap.mpr ⟨i, ?_, ?_⟩))
      · simpa using hi
      · rw [if_neg (Ne.symm hne)]
        simp
  · rintro ⟨hin, hothers⟩
    have hrbuf : d.Within blocks (access (if inPlace then some (.inplaceTemp, -d.lb) else none) 0 count) := by
      cases inPlace
      · exact roomy_none.all
      · exact (roomy_of_fits (hplace rfl) (hin rfl).1).all
    refine ⟨⟨hrbuf, .flatMap fun i hi => .ite (fun _ => hrbuf) fun hne => ?_⟩,
      .ite (fun hc => (roomy_of_fits (hplace hc) (hin hc).2).all) fun _ => Layout.within_nil⟩
    have hi : i < size - 1 := by simpa using hi
    have hpml := (roomy_of_fits (hfree (by omega)) (hothers ⟨i, hi, Ne.symm hne⟩)).all
    exact (hpml.append hpml).append hrbuf

theorem safe_basicLinear_iff {inPlace : Bool} {root : ℕ} :
    Safe d blocks (reduceIntraBasicLinear d comm inPlace count root) ↔
      LinearHolds d comm inPlace count root := by
  unfold reduceIntraBasicLinear LinearHolds
  by_cases hroot : comm.rank = root
  · subst hroot
    rw [if_neg (not_not_intro rfl), forall_prop_of_true rfl, append_assoc, safe_ite_malloc, safe_ite_malloc,
      safe_touch, and_iff_left safe_nil,
      linear_within_iff (fun h => by split_ifs <;> simp) fun h => by simp [h]]
    constructor
    · exact fun h hspan => h (fun _ => hspan) fun _ => hspan
    · intro h hplace hfree
      exact ⟨fun hin => (h (hplace hin)).1 hin,
        fun ⟨i, hi, hne⟩ => (h (hfree (by omega))).2 ⟨i, hi, hne⟩⟩
  · simp [hroot, safe_nil]

theorem safe_allreduceBasicLinear_iff {inPlace : Bool} :
    Safe d blocks (allreduceIntraBasicLinear d comm inPlace count) ↔ LinearHolds d comm inPlace count 0 := by
  unfold allreduceIntraBasicLinear
  split_ifs with h
  · simp [safe_basicLinear_iff, LinearHolds, h.2]
  · exact safe_basicLinear_iff

section ReduceScatter

variable {rcounts : ℕ → ℕ}

theorem disps_add_le {i n : ℕ} (hi : i < n) : disps rcounts i + rcounts i ≤ disps rcounts n := by
  rw [← disps_succ]
  exact disps_mono rcounts hi

theorem safe_nonoverlapping_iff {inPlace : Bool} :
    Safe d blocks (reduceScatterIntraNonoverlapping d comm inPlace rcounts) ↔
      (inPlace = false ∧ comm.rank = 0 → d.Fits (-d.lb) (disps rcounts comm.size)) := by
  unfold reduceScatterIntraNonoverlapping
  by_cases hroot : inPlace = false ∧ comm.rank = 0
  · simp only [if_pos hroot, safe_mallocUnchecked, safe_touch, safe_nil, and_true, Layout.within_append]
    have hb : update blocks .tmprbuf (granted (d.span (disps rcounts comm.size))) .tmprbuf =
        granted (d.span (disps rcounts comm.size)) := update_self ..
    refine ⟨fun h _ => (Layout.inside_all_granted_iff hb).mp (h.1 _ (by simp)), fun h => ?_⟩
    have hroom : Roomy d (update blocks .tmprbuf (granted (d.span (disps rcounts comm.size))))
        (some (.tmprbuf, -d.lb)) (disps rcounts comm.size) := by
      intro first count hle t ht
      rw [access_some, mem_singleton] at ht
      subst ht
      exact (h hroot).inside_granted hb hle
    exact ⟨hroom.all, .flatMap fun i hi => hroom _ _ (disps_add_le (mem_range.mp hi))⟩
  · simp [hroot, safe_nil]

theorem halvingTouches_within {counts : ℕ → ℕ} {tmpRank total : ℕ} {recvBuf resultBuf : Ptr}
    (hrecv : Roomy d blocks recvBuf total) (hresult : Roomy d blocks resultBuf total)
    (fuel mask index last : ℕ) (hindex : index + 2 * mask ≤ last) (hlast : disps counts last ≤ total) :
    d.Within blocks (halvingTouches recvBuf resultBuf counts tmpRank fuel mask index index last) := by
  induction fuel generalizing mask index last with
  | zero => exact Layout.within_nil
  | succ fuel ih =>
    have hbetween {i j : ℕ} (hij : i ≤ j) (hj : j ≤ last) :
        disps counts i + countsBetween counts i j ≤ total := by
      rw [disps_add_countsBetween counts hij]
      exact (disps_mono counts hj).trans hlast
    have hhalf : 2 * (mask >>> 1) ≤ mask := by
      rw [shiftRight_one]
      omega
    rw [halvingTouches]
    by_cases hmask : 0 < mask
    · rw [if_pos hmask]
      by_cases hlow : tmpRank < tmpRank ^^^ mask
      · simp only [hlow, if_true]
        have hr := hbetween (i := index) (j := index + mask) (by omega) (by omega)
        have hs := hbetween (i := index + mask) (j := last) (by omega) le_rfl
        refine ((Layout.Within.append (.ite (fun _ => hrecv _ _ hr) fun _ => Layout.within_nil)
          (.ite (fun _ => hresult _ _ hs) fun _ => Layout.within_nil)).append
          (.ite (fun _ => (hrecv _ _ hr).append (hresult _ _ hr)) fun _ => Layout.within_nil)).append ?_
        exact ih _ _ _ (by omega) ((disps_mono counts (by omega)).trans hlast)
      · simp only [hlow, if_false]
        have hr := hbetween (i := index + mask) (j := last) (by omega) le_rfl
        have hs := hbetween (i := index) (j := index + mask) (by omega) (by omega)
        refine ((Layout.Within.append (.ite (fun _ => hrecv _ _ hr) fun _ => Layout.within_nil)
          (.ite (fun _ => hresult _ _ hs) fun _ => Layout.within_nil)).append
          (.ite (fun _ => (hrecv _ _ hr).append (hresult _ _ hr)) fun _ => Layout.within_nil)).append ?_
        exact ih _ _ _ (by omega) ((disps_mono counts (by omega)).trans hlast)
    · rw [if_neg hmask]
      exact Layout.within_nil

theorem safe_recursivehalving_iff :
    Safe d blocks (reduceScatterIntraBasicRecursivehalving d comm rcounts) ↔
      (0 ≤ d.span (disps rcounts comm.size) → d.Fits (-d.lb) (disps rcounts comm.size)) := by
  unfold reduceScatterIntraBasicRecursivehalving
  set count := disps rcounts comm.size
  by_cases hcount : count = 0
  · simp [hcount, safe_nil, Layout.Fits]
  rw [if_neg hcount]
  simp only [safe_malloc, safe_mallocUnchecked, safe_touch, safe_nil, and_true]
  refine forall_congr' fun hspan => ?_
  rw [granted, if_pos hspan]
  set blocks' := update (update blocks .recvBuf (some (d.span count))) .resultBuf (some (d.span count))
  have hb : blocks' .resultBuf = some (d.span count) := update_self ..
  refine within_one_iff hb (by simp) fun hfits => ?_
  have hresult := roomy_of_fits hb hfits
  have hrecv : Roomy d blocks' (some (.recvBuf, -d.lb)) count := roomy_of_fits (by simp [blocks']) hfits
  obtain ⟨K, hK, hle, hlt⟩ := nearestPower_eq comm.size_pos
  set tmpSize := nearestPower comm.size
  set remain := comm.size - tmpSize
  have hown {i : ℕ} (hi : i < comm.size) :
      d.Within blocks' (access (some (.resultBuf, -d.lb)) (disps rcounts i) (rcounts i)) :=
    hresult _ _ (disps_add_le hi)
  have htmp : disps (tmpRcounts rcounts remain) tmpSize = count := by
    rw [disps_tmpRcounts, min_eq_right (by rw [pow_succ] at hlt; omega), Nat.add_sub_cancel' (by omega)]
  have hloop (tmpRank : ℕ) : d.Within blocks'
      (halvingTouches (some (.recvBuf, -d.lb)) (some (.resultBuf, -d.lb)) (tmpRcounts rcounts remain) tmpRank
          tmpSize (tmpSize >>> 1) 0 0 tmpSize ++
        if rcounts comm.rank ≠ 0 then
          access (some (.resultBuf, -d.lb)) (disps rcounts comm.rank) (rcounts comm.rank)
        else []) := by
    refine .append (halvingTouches_within hrecv hresult _ _ _ _ ?_ htmp.le)
      (.ite (fun _ => hown comm.rank_lt) fun _ => Layout.within_nil)
    rw [shiftRight_one]
    omega
  refine ((hresult.all.append ?_).append ?_).append ?_
  · exact .ite (fun _ => .ite (fun _ => hresult.all) fun _ => (hrecv.all.append hrecv.all).append hresult.all)
      fun _ => Layout.within_nil
  · exact .ite (fun _ => .ite (fun _ => Layout.within_nil) fun _ => hloop _) fun _ => hloop _
  · exact .ite (fun _ => hown (lt_of_le_of_lt (sub_le ..) comm.rank_lt)) fun _ => Layout.within_nil

theorem maxBlockCount_le {n m : ℕ} (h : ∀ b < n, rcounts b ≤ m) : maxBlockCount rcounts n ≤ m := by
  have hfold (l : List ℕ) (a : ℕ) (ha : a ≤ m) (hl : ∀ c ∈ l, c ≤ m) : l.foldl max a ≤ m := by
    induction l generalizing a with
    | nil => exact ha
    | cons c l ih =>
      obtain ⟨hc, hl⟩ := forall_mem_cons.mp hl
      exact ih _ (Nat.max_le.mpr ⟨ha, hc⟩) hl
  refine hfold _ _ (zero_le _) fun c hc => ?_
  obtain ⟨b, hb, rfl⟩ := mem_map.mp hc
  exact h b (mem_range.mp hb)

theorem maxBlockCount_pos {n : ℕ} (h : 0 < disps rcounts n) : 0 < maxBlockCount rcounts n := by
  refine Nat.pos_of_ne_zero fun hzero => ne_of_gt h (sum_eq_zero fun c hc => ?_)
  obtain ⟨b, hb, rfl⟩ := mem_map.mp hc
  exact le_zero.mp (hzero ▸ le_maxBlockCount (mem_range.mp hb))

theorem safe_reduceScatterRing_iff :
    Safe d blocks (reduceScatterIntraRing d comm rcounts) ↔
      (comm.size ≠ 1 → 0 ≤ d.span (disps rcounts comm.size) →
        d.Fits (-d.lb) (disps rcounts comm.size)) := by
  unfold reduceScatterIntraRing
  by_cases hsize : comm.size = 1
  · simp [hsize, safe_nil]
  have hpos := comm.size_pos
  simp only [hsize, if_false, cons_append, safe_malloc, safe_mallocInbufs, safe_touch, safe_nil, and_true,
    ne_eq, not_false_eq_true, forall_const]
  set count := disps rcounts comm.size
  have hmax : maxBlockCount rcounts comm.size ≤ count :=
    maxBlockCount_le fun b hb => (Nat.le_add_left ..).trans (disps_add_le hb)
  refine forall_congr' fun hspan => ?_
  set blocks' := withInbufs d (2 < comm.size) (maxBlockCount rcounts comm.size)
    (update blocks .accumbuf (some (d.span count)))
  have hb : blocks' .accumbuf = some (d.span count) :=
    (withInbufs_of_ne (by simp)).trans (update_self ..)
  constructor
  · intro h
    by_cases hne : d.bytes = []
    · exact .inl hne
    rcases Nat.eq_zero_or_pos count with hzero | hcount
    · exact .inr (.inl hzero)
    have hspan' := Layout.span_nonneg_of_le hne (maxBlockCount_pos hcount) hmax hspan
    exact (Layout.inside_all_iff hb).mp (h hspan' _ (by simp))
  · intro hfits _
    have hacc := roomy_of_fits hb hfits
    have hfits' := hfits.mono hmax
    refine (hacc.all.append ?_).append (hacc _ _ (disps_add_le comm.rank_lt))
    refine ringTouches_within (by omega) (roomy_of_fits (by simp [blocks']) hfits')
      (fun hthree => roomy_of_fits (by simp [blocks', hthree]) hfits') hacc
      (fun b hb => le_maxBlockCount hb) (fun b hb => disps_add_le hb) (mod_lt _ hpos)
      (fun k => mod_lt _ hpos) comm.rank_lt

end ReduceScatter

/-- What a call needs of the datatype: the elements of the buffers that it uses have room where it takes
them to be. -/
def Call.HoldsWhen (d : Layout) (comm : Communicator) : Call → Prop
  | allreduceBasicLinear inPlace count => LinearHolds d comm inPlace count 0
  | allreduceRecursivedoubling count => comm.size ≠ 1 → 0 ≤ d.span count → d.Fits 0 count
  | allreduceRing count => RingHolds d comm count
  | allreduceRingSegmented count segsize => RingSegmentedHolds d comm count segsize
  | reduceBasicLinear inPlace count root => LinearHolds d comm inPlace count root
  | reduceChain inPlace recvNull count commute root segsize fanout =>
    TreeHolds d comm inPlace recvNull count commute root segsize (buildChain fanout comm.size comm.rank root)
  | reducePipeline inPlace recvNull count commute root segsize =>
    TreeHolds d comm inPlace recvNull count commute root segsize (buildChain 1 comm.size comm.rank root)
  | reduceBinary inPlace recvNull count commute root segsize =>
    TreeHolds d comm inPlace recvNull count commute root segsize (buildTree 2 comm.size comm.rank root)
  | reduceBinomial inPlace recvNull count commute root segsize =>
    TreeHolds d comm inPlace recvNull count commute root segsize (buildInOrderBmtree comm.size comm.rank root)
  | reduceInOrderBinary inPlace recvNull count commute root segsize =>
    ∀ t ∈ buildInOrderBintree comm.size comm.rank,
      InOrderHolds d comm inPlace recvNull count commute root segsize t
  | reduceScatterNonoverlapping inPlace rcounts =>
    inPlace = false ∧ comm.rank = 0 → d.Fits (-d.lb) (disps rcounts comm.size)
  | reduceScatterRecursivehalving rcounts =>
    0 ≤ d.span (disps rcounts comm.size) → d.Fits (-d.lb) (disps rcounts comm.size)
  | reduceScatterRing rcounts =>
    comm.size ≠ 1 → 0 ≤ d.span (disps rcounts comm.size) → d.Fits (-d.lb) (disps rcounts comm.size)

/-- One byte, four bytes off, as an indexed datatype has it. -/
def indexedByte : Layout where
  bytes := [4]
  lb := 4
  extent := 1
  trueLb := 4
  trueExtent := 1
  least _ := ⟨by simp, by simp⟩
  greatest _ := ⟨by simp, by simp⟩

end OpenMPI.Coll.Tuned
