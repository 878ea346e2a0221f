import Mathlib.Data.Nat.Bitwise
import Mathlib.Tactic.Linarith
import OpenMPI.Group.Sparse
import OpenMPI.Lib.Scan

/-!
# Sparse groups are as the dense one

Each format is told by how it translates ranks to and from the parent (`Encodes`).  A group that is built then has the
processes of the parent that its ranks name, whatever the parent's own format.
-/

namespace OpenMPI.Groups

open Lib List

variable {ranks : List ℕ} {parent new : Group}

def position (ranks : List ℕ) (r : ℤ) : ℤ := if 0 ≤ r ∧ r.toNat ∈ ranks then ranks.idxOf r.toNat else undefined

structure Includes (parent new : Group) (ranks : List ℕ) : Prop where
  count : new.procCount = ranks.length
  procs : ∀ i (h : i < ranks.length), new.peerLookup i = parent.peerLookup ranks[i]
  myRank : new.myRank = position ranks parent.myRank
  toParent : ∀ i (h : i < ranks.length), new.translateRanks i parent = some (ranks[i] : ℤ)
  ofParent : ∀ r < parent.procCount, parent.translateRanks r new = some (position ranks r)
  procNull : ranks ≠ [] → new.translateRanks procNull parent = some procNull ∧
    parent.translateRanks procNull new = some procNull

def Group.addrs : Group → List ℕ
  | .dense addr .. => [addr]
  | .strided addr parent .. | .sporadic addr parent .. | .bitmap addr parent .. => addr :: parent.addrs

/-- The ranks that are asked for: distinct, in range and accepted by the format's check. -/
structure Accepted (f : Format) (before : ℤ) (parent : Group) (ranks : List ℕ) : Prop where
  nodup : ranks.Nodup
  lt : ∀ r ∈ ranks, r < parent.procCount
  check : f.calc before parent ranks ≠ -1

/-- A group that is dense, or comes from one by inclusions, each at a new address. -/
inductive Built : Group → Prop
  | dense {addr : ℕ} {procs : List ℕ} {myRank : ℤ} (haddr : addr = 0 → procs = []) (hnodup : procs.Nodup)
      (hrank : myRank = undefined ∨ ∃ r < procs.length, myRank = (r : ℕ)) : Built (.dense addr procs myRank)
  | incl {f : Format} {addr : ℕ} {before : ℤ} {parent new : Group} {ranks : List ℕ} (hparent : Built parent)
      (hranks : Accepted f before parent ranks) (haddr : addr ≠ 0) (hfresh : addr ∉ parent.addrs)
      (hnew : f.incl addr before parent ranks = some new) : Built new

theorem position_natCast (ranks : List ℕ) (r : ℕ) :
    position ranks r = if r ∈ ranks then (ranks.idxOf r : ℤ) else undefined := by
  simp [position]

theorem position_of_neg {r : ℤ} (h : r < 0) : position ranks r = undefined := if_neg fun hr => by omega

theorem position_of_getElem (hnodup : ranks.Nodup) {i : ℕ} (h : i < ranks.length) {r : ℕ} (hr : ranks[i] = r) :
    position ranks r = i := by
  subst hr
  rw [position_natCast, if_pos (getElem_mem h), hnodup.idxOf_getElem]

theorem natCast_ne_procNull (r : ℕ) : (r : ℤ) ≠ procNull := fun heq => by
  have : (0 : ℤ) ≤ r := Int.natCast_nonneg r
  rw [heq] at this
  exact absurd this (by decide)

structure Encodes (new : Group) (count : ℕ) (ranks : List ℕ) : Prop where
  toParent : ∀ i (h : i < ranks.length), new.toParent i = some (ranks[i] : ℤ)
  ofParent : ∀ r < count, new.ofParent (r : ℕ) = some (position ranks r)
  procNull : new.toParent procNull = some procNull ∧ new.ofParent procNull = some procNull

theorem steps_getElem {s : ℤ} {a : ℕ} {l : List ℕ} (h : steps s (a :: l) = true) {i : ℕ} (hi : i < (a :: l).length) :
    ((a :: l)[i] : ℤ) = a + s * i := by
  induction l generalizing a i with
  | nil =>
    obtain rfl : i = 0 := by simpa using hi
    simp
  | cons b l ih =>
    rw [steps, Bool.and_eq_true, decide_eq_true_eq] at h
    rcases i with - | i
    · simp
    · have hrest := ih h.2 (by simpa using hi)
      rw [getElem_cons_succ, hrest]
      push_cast
      linarith [h.1]

theorem checkStride_spec {a : ℕ} {l : List ℕ} (hnodup : (a :: l).Nodup) (h : checkStride (a :: l) ≠ -1) :
    0 < checkStride (a :: l) ∧ steps (checkStride (a :: l)) (a :: l) = true := by
  rcases l with - | ⟨b, l⟩
  · exact ⟨one_pos, rfl⟩
  · have hval : checkStride (a :: b :: l) = if (b : ℤ) - a < 0 then -1
        else if steps ((b : ℤ) - a) (a :: b :: l) then (b : ℤ) - a else -1 := rfl
    rw [hval] at h ⊢
    split_ifs at h ⊢ with hneg hsteps
    · exact absurd rfl h
    · refine ⟨?_, hsteps⟩
      have hne : a ≠ b := fun heq => by simp [heq] at hnodup
      omega
    · exact absurd rfl h

theorem encodes_strided {a : ℕ} {l : List ℕ} (hnodup : (a :: l).Nodup) (h : checkStride (a :: l) ≠ -1) (addr count : ℕ)
    (parent : Group) (myRank : ℤ) :
    Encodes (.strided addr parent (a :: l).length myRank (checkStride (a :: l)) a ((a :: l).getLastD 0)) count (a :: l) := by
  obtain ⟨hpos, hsteps⟩ := checkStride_spec hnodup h
  generalize checkStride (a :: l) = s at hpos hsteps
  have hlast : (((a :: l).getLastD 0 : ℕ) : ℤ) = a + s * l.length := by
    have hget := steps_getElem hsteps (i := l.length) (by simp)
    rw [← hget, getLastD_eq_getLast?, getLast?_eq_getElem?, getElem?_eq_getElem (by simp)]
    simp
  refine ⟨fun i hi => ?_, fun r _ => ?_, rfl, rfl⟩
  · show translateRanksStridedReverse s a i = _
    rw [translateRanksStridedReverse, if_neg (natCast_ne_procNull i), steps_getElem hsteps hi, add_comm]
  · show translateRanksStrided s a _ r = _
    rw [translateRanksStrided, if_neg (natCast_ne_procNull r), hlast, if_neg hpos.ne']
    by_cases hin : r ∈ a :: l
    · obtain ⟨i, hi, hr⟩ := mem_iff_getElem.mp hin
      have heq := steps_getElem hsteps hi
      have hnonneg : 0 ≤ s * i := mul_nonneg hpos.le (Int.natCast_nonneg i)
      have hle : s * (i : ℤ) ≤ s * l.length := by
        refine mul_le_mul_of_nonneg_left ?_ hpos.le
        exact_mod_cast Nat.lt_succ_iff.mp hi
      have hsub : (r : ℤ) - a = s * i := by rw [← hr, heq, add_sub_cancel_left]
      rw [hsub, if_neg (not_lt.mpr hnonneg), Int.mul_tmod_right, if_pos ⟨rfl, by omega⟩,
        Int.mul_tdiv_cancel_left _ hpos.ne', position_of_getElem hnodup hi hr]
    · rw [position_natCast, if_neg hin]
      split_ifs with hbelow hstep
      · rfl
      · -- the rank would be a number of steps from the first
        exfalso
        obtain ⟨hmod, hle⟩ := hstep
        have hdiv := Int.mul_tdiv_add_tmod ((r : ℤ) - a) s
        rw [hmod, add_zero] at hdiv
        have hk : 0 ≤ ((r : ℤ) - a).tdiv s := Int.tdiv_nonneg (not_lt.mp hbelow) hpos.le
        generalize ((r : ℤ) - a).tdiv s = k at hdiv hk
        lift k to ℕ using hk
        have hlt : (k : ℤ) ≤ l.length := by
          refine le_of_mul_le_mul_left ?_ hpos
          omega
        have hk' : k < (a :: l).length := by
          rw [length_cons]
          omega
        have hget := steps_getElem hsteps hk'
        refine hin (mem_iff_getElem.mpr ⟨k, hk', ?_⟩)
        omega
      · rfl

def range (p : ℕ × ℕ) : Sporadic := ⟨p.1, p.2⟩

def expand (ps : List (ℕ × ℕ)) : List ℕ := ps.flatMap fun p => List.range' p.1 p.2

theorem expand_cons (p : ℕ × ℕ) (ps : List (ℕ × ℕ)) : expand (p :: ps) = range' p.1 p.2 ++ expand ps :=
  flatMap_cons

theorem fillRanges_spec (a n : ℕ) (ranks : List ℕ) :
    ∃ ps, fillRanges (a + n) (range (a, n + 1)) ranks = ps.map range ∧ expand ps = range' a (n + 1) ++ ranks := by
  induction ranks generalizing a n with
  | nil => exact ⟨[(a, n + 1)], rfl, by simp [expand]⟩
  | cons r ranks ih =>
    rw [fillRanges]
    split_ifs with hnext
    · obtain ⟨ps, hps, hexpand⟩ := ih a (n + 1)
      refine ⟨ps, ?_, ?_⟩
      · rw [← hps, hnext]
        congr 1
      · rw [hexpand, range'_concat, hnext]
        simp [add_assoc]
    · obtain ⟨ps, hps, hexpand⟩ := ih r 0
      refine ⟨(a, n + 1) :: ps, ?_, ?_⟩
      · rw [map_cons, ← hps]
        rfl
      · rw [expand_cons, hexpand]
        rfl

theorem countRanges_spec (prev : ℕ) (item : Sporadic) (ranks : List ℕ) {l : ℕ} (hl : 0 < l) :
    countRanges prev ranks l + 1 = l + (fillRanges prev item ranks).length := by
  induction ranks generalizing prev item l with
  | nil => rfl
  | cons r ranks ih =>
    rw [countRanges, fillRanges]
    by_cases hnext : r = prev + 1
    · rw [if_pos (by exact_mod_cast hnext), if_neg (ne_of_gt hl), if_pos hnext]
      exact ih r _ hl
    · rw [if_neg (by exact_mod_cast hnext), if_neg hnext, length_cons, ih r ⟨r, 1⟩ (Nat.succ_pos l)]
      omega

theorem idxOf_range' {a n r : ℕ} (ha : a ≤ r) (hn : r < a + n) : (range' a n).idxOf r = r - a := by
  have hlt : r - a < (range' a n).length := by
    rw [length_range']
    omega
  have hget : (range' a n)[r - a] = r := by
    rw [getElem_range']
    omega
  conv_lhs => rw [← hget]
  exact (nodup_range' (s := a) (n := n)).idxOf_getElem _ hlt

theorem sporadicLoop_spec (r : ℕ) (ps : List (ℕ × ℕ)) (count : ℕ) :
    sporadicLoop r (ps.map range) count =
      if r ∈ expand ps then ((count + (expand ps).idxOf r : ℕ) : ℤ) else undefined := by
  induction ps generalizing count with
  | nil => rfl
  | cons p ps ih =>
    have hrange : (r : ℤ) ≤ (p.1 : ℤ) + p.2 - 1 ↔ r < p.1 + p.2 := by omega
    rw [map_cons, sporadicLoop, expand_cons]
    show (if (p.1 : ℤ) ≤ r ∧ (r : ℤ) ≤ p.1 + p.2 - 1 then (r : ℤ) - p.1 + count
      else sporadicLoop r (ps.map range) (count + p.2)) = _
    simp only [hrange]
    by_cases hin : r ∈ range' p.1 p.2
    · obtain ⟨hle, hlt⟩ := mem_range'_1.mp hin
      rw [if_pos ⟨by exact_mod_cast hle, hlt⟩, if_pos (mem_append_left _ hin), idxOf_append_of_mem hin,
        idxOf_range' hle hlt]
      omega
    · have hnot : ¬((p.1 : ℤ) ≤ r ∧ r < p.1 + p.2) := fun h =>
        hin (mem_range'_1.mpr ⟨by exact_mod_cast h.1, h.2⟩)
      have hrest := ih (count + p.2)
      push_cast at hrest
      rw [if_neg hnot, hrest]
      simp only [mem_append, hin, false_or, idxOf_append_of_notMem hin, length_range']
      split_ifs
      · push_cast
        exact add_assoc _ _ _
      · rfl

theorem sporadicReverseLoop_spec (ps : List (ℕ × ℕ)) (count k : ℕ) (h : k < (expand ps).length) :
    sporadicReverseLoop (count + k : ℕ) (ps.map range) count = some ((expand ps)[k] : ℤ) := by
  induction ps generalizing count k with
  | nil => cases h
  | cons p ps ih =>
    rw [map_cons, sporadicReverseLoop]
    show (if (count : ℤ) + p.2 - 1 < (count + k : ℕ) then sporadicReverseLoop (count + k : ℕ) (ps.map range) (count + p.2)
      else some ((p.1 : ℤ) + ((count + k : ℕ) - count))) = _
    by_cases hk : k < p.2
    · rw [if_neg (by push_cast; omega)]
      have hget : (expand (p :: ps))[k] = p.1 + k := by
        simp only [expand_cons]
        rw [getElem_append_left (by simpa using hk), getElem_range', one_mul]
      rw [hget]
      push_cast
      rw [add_sub_cancel_left]
    · obtain ⟨j, rfl⟩ := Nat.exists_eq_add_of_le (Nat.not_lt.mp hk)
      rw [expand_cons, length_append, length_range'] at h
      have hrest := ih (count + p.2) j (by omega)
      have hj : p.2 + j < (expand (p :: ps)).length := by
        rw [expand_cons, length_append, length_range']
        omega
      have hget : (expand (p :: ps))[p.2 + j] = (expand ps)[j] := by
        simp only [expand_cons]
        rw [getElem_append_right (by simp)]
        simp
      rw [if_pos (by push_cast; omega), hget, ← hrest, ← add_assoc]
      push_cast
      rfl

theorem encodes_sporadic {ps : List (ℕ × ℕ)} (hps : expand ps = ranks) (addr procCount count : ℕ) (parent : Group)
    (myRank : ℤ) : Encodes (.sporadic addr parent procCount myRank (ps.map range)) count ranks := by
  subst hps
  refine ⟨fun i hi => ?_, fun r _ => ?_, rfl, rfl⟩
  · show translateRanksSporadicReverse _ i = _
    have hloop := sporadicReverseLoop_spec ps 0 i hi
    rw [zero_add] at hloop
    rw [translateRanksSporadicReverse, if_neg (natCast_ne_procNull i)]
    exact hloop
  · show translateRanksSporadic _ r = _
    have hloop := sporadicLoop_spec r ps 0
    rw [zero_add] at hloop
    rw [translateRanksSporadic, if_neg (natCast_ne_procNull r), position_natCast]
    exact congrArg some hloop

def bitOf (array : List ℕ) (p : ℕ) : Bool := (array.getD (p / bsize) 0).testBit (p % bsize)

theorem bitSet_eq (byte k : ℕ) : bitSet byte k = byte.testBit k := by
  rw [bitSet, Nat.shiftLeft_eq, one_mul, Nat.and_comm, Nat.two_pow_and]
  rcases byte.testBit k with - | -
  · simp
  · simp

theorem range_succ_bytes (i : ℕ) :
    List.range (bsize * (i + 1)) = List.range (bsize * i) ++ (List.range bsize).map (bsize * i + ·) := by
  rw [Nat.mul_succ, range_add]

theorem bitOf_byte {array : List ℕ} {i byte : ℕ} (hbyte : array[i]? = some byte) {k : ℕ} (hk : k < bsize) :
    bitOf array (bsize * i + k) = bitSet byte k := by
  rw [bitOf, bitSet_eq, Nat.mul_add_div (by decide), Nat.div_eq_of_lt hk, add_zero, Nat.mul_add_mod,
    Nat.mod_eq_of_lt hk, getD_eq_getElem?_getD, hbyte, Option.getD_some]

theorem bmapBits_eq {array : List ℕ} {i byte m : ℕ} (hbyte : array[i]? = some byte) {ks : List ℕ}
    (hks : ∀ k ∈ ks, k < bsize) (count : ℕ) :
    bmapBits byte (if i = m / bsize then some (m % bsize) else none) ks count =
      match scan (bitOf array) (fun p _ => decide (p = m)) (ks.map (bsize * i + ·)) count with
      | .inl r => .inl ((r.2 : ℤ) - 1)
      | .inr count => .inr count := by
  induction ks generalizing count with
  | nil => rfl
  | cons k ks ih =>
    obtain ⟨hk, hks⟩ := forall_mem_cons.mp hks
    have hpos : (if i = m / bsize then some (m % bsize) else none) = some k ↔ bsize * i + k = m := by
      have hdiv : (bsize * i + k) / bsize = i := by
        rw [Nat.mul_add_div (by decide), Nat.div_eq_of_lt hk, add_zero]
      have hmod : (bsize * i + k) % bsize = k := by rw [Nat.mul_add_mod, Nat.mod_eq_of_lt hk]
      constructor
      · intro h
        split_ifs at h with hi
        rw [hi, ← Option.some.inj h]
        exact Nat.div_add_mod m bsize
      · rintro rfl
        rw [hdiv, hmod, if_pos rfl]
    generalize (if i = m / bsize then some (m % bsize) else none) = last at ih hpos ⊢
    rw [map_cons, bmapBits, scan, bitOf_byte hbyte hk]
    by_cases hm : bsize * i + k = m
    · simp [hpos.mpr hm, hm]
    · have hlast : last ≠ some k := fun h => hm (hpos.mp h)
      simp only [hlast, hm, decide_false, if_false, Bool.false_eq_true]
      exact ih hks _

theorem bmapBytes_eq {array : List ℕ} {m n : ℕ} (hn : n ≤ array.length) (start k count : ℕ) (hk : start + k = n) :
    bmapBytes array m (range' start k) count =
      match scan (bitOf array) (fun p _ => decide (p = m)) ((range' start k).flatMap fun i =>
        (List.range bsize).map (bsize * i + ·)) count with
      | .inl r => some ((r.2 : ℤ) - 1)
      | .inr _ => some undefined := by
  induction k generalizing start count with
  | zero => rfl
  | succ k ih =>
    have hlt : start < array.length := by omega
    have hbyte : array[start]? = some array[start] := getElem?_eq_getElem hlt
    rw [range'_succ, flatMap_cons, scan_append, bmapBytes, hbyte]
    dsimp only
    rw [bmapBits_eq hbyte (fun k hk => mem_range.mp hk)]
    rcases scan (bitOf array) (fun p _ => decide (p = m)) ((List.range bsize).map (bsize * start + ·)) count with r | c
    · rfl
    · exact ih (start + 1) c (by omega)

theorem flatMap_bytes (n : ℕ) :
    ((List.range n).flatMap fun i => (List.range bsize).map (bsize * i + ·)) = List.range (bsize * n) := by
  induction n with
  | zero => rfl
  | succ n ih => rw [range_succ, flatMap_append, ih, flatMap_singleton, range_succ_bytes]

theorem bmapBytes_spec {array : List ℕ} (hsorted : ranks.Pairwise (· < ·))
    (hbits : ∀ p < bsize * array.length, bitOf array p = true ↔ p ∈ ranks) {m : ℕ} (hm : m ∈ ranks)
    (hlt : m < bsize * array.length) :
    bmapBytes array m (List.range (m / bsize + 1)) 0 = some (ranks.idxOf m : ℤ) := by
  have hn : m / bsize + 1 ≤ array.length := Nat.div_lt_of_lt_mul hlt
  have hpos : m < bsize * (m / bsize + 1) := Nat.lt_mul_div_succ m (by decide)
  have hcount : Nat.count (bitOf array · = true) (m + 1) = ranks.idxOf m + 1 := by
    rw [Nat.count_succ, if_pos ((hbits m hlt).mpr hm),
      count_eq_idxOf hsorted hm fun p hp => hbits p (lt_trans hp hlt)]
  have hscan := scan_range_inl (bitOf array) (fun p _ => decide (p = m)) hpos (by simp) fun q hq => by
    simpa using ne_of_lt hq
  rw [range_eq_range', bmapBytes_eq hn 0 _ 0 (zero_add _), ← range_eq_range', flatMap_bytes, hscan, hcount]
  push_cast
  exact congrArg some (add_sub_cancel_right _ _)

theorem translateRanksBmap_spec {array : List ℕ} (hsorted : ranks.Pairwise (· < ·))
    (hbits : ∀ p < bsize * array.length, bitOf array p = true ↔ p ∈ ranks) {m : ℕ} (hlt : m < bsize * array.length) :
    translateRanksBmap array m = some (position ranks m) := by
  have hdiv : m / bsize < array.length := Nat.div_lt_of_lt_mul hlt
  have hbyte : byteAt array ((m : ℤ).tdiv bsize) = some array[m / bsize] := by
    have hcast : (m : ℤ).tdiv bsize = (m / bsize : ℕ) := rfl
    rw [byteAt, hcast, if_pos (Int.natCast_nonneg _)]
    exact getElem?_eq_getElem hdiv
  have hmod : (m : ℤ).tmod bsize = (m % bsize : ℕ) := rfl
  have hbit : bitOf array m = bitSet array[m / bsize] (m % bsize) := by
    have := bitOf_byte (getElem?_eq_getElem hdiv) (Nat.mod_lt m (by decide : 0 < bsize))
    rwa [Nat.div_add_mod] at this
  rw [translateRanksBmap, if_neg (natCast_ne_procNull m), hmod, if_neg (not_lt.mpr (Int.natCast_nonneg _)), hbyte,
    position_natCast]
  show (if bitSet array[m / bsize] (m % bsize) then bmapBytes array m (List.range (m / bsize + 1)) 0
    else some undefined) = _
  by_cases hm : m ∈ ranks
  · rw [if_pos (hbit.symm.trans ((hbits m hlt).mpr hm)), if_pos hm]
    exact bmapBytes_spec hsorted hbits hm hlt
  · rw [if_neg fun hset => hm ((hbits m hlt).mp (hbit.trans hset)), if_neg hm]

theorem bmapReverseBits_eq {array : List ℕ} {i byte : ℕ} (m : ℕ) (hbyte : array[i]? = some byte) {ks : List ℕ}
    (hks : ∀ k ∈ ks, k < bsize) (count : ℕ) :
    bmapReverseBits byte i m ks count =
      match scan (bitOf array) (fun _ c => decide (c = m + 1)) (ks.map (bsize * i + ·)) count with
      | .inl r => .inl (r.1 : ℤ)
      | .inr count => .inr count := by
  induction ks generalizing count with
  | nil => rfl
  | cons k ks ih =>
    obtain ⟨hk, hks⟩ := forall_mem_cons.mp hks
    rw [map_cons, bmapReverseBits, scan, bitOf_byte hbyte hk]
    have hstop (c : ℕ) : (m : ℤ) = (c : ℤ) - 1 ↔ c = m + 1 := by omega
    simp only [hstop, decide_eq_true_eq]
    by_cases hm : (if bitSet byte k = true then count + 1 else count) = m + 1
    · rw [if_pos hm, if_pos hm]
      have hcomm : (i : ℤ) * bsize + k = ((bsize * i + k : ℕ) : ℤ) := by
        push_cast
        rw [mul_comm]
      rw [hcomm]
    · rw [if_neg hm, if_neg hm]
      exact ih hks _

theorem bmapReverseBytes_eq {array : List ℕ} (m : ℕ) {l : List ℕ} (start count : ℕ) (hl : array.drop start = l) :
    bmapReverseBytes m (l.zipIdx start) count =
      match scan (bitOf array) (fun _ c => decide (c = m + 1)) ((range' start l.length).flatMap fun i =>
        (List.range bsize).map (bsize * i + ·)) count with
      | .inl r => some (r.1 : ℤ)
      | .inr _ => none := by
  induction l generalizing start count with
  | nil => rfl
  | cons byte l ih =>
    have hbyte : array[start]? = some byte := by
      rw [← head?_drop, hl]
      rfl
    have hrest : array.drop (start + 1) = l := by
      rw [← drop_drop, hl]
      rfl
    rw [zipIdx_cons, length_cons, range'_succ, flatMap_cons, scan_append, bmapReverseBytes,
      bmapReverseBits_eq m hbyte fun k hk => mem_range.mp hk]
    rcases scan (bitOf array) (fun _ c => decide (c = m + 1)) ((List.range bsize).map (bsize * start + ·)) count with r | c
    · rfl
    · exact ih (start + 1) c hrest

theorem translateRanksBmapReverse_spec {array : List ℕ} (hsorted : ranks.Pairwise (· < ·))
    (hbits : ∀ p < bsize * array.length, bitOf array p = true ↔ p ∈ ranks)
    (hlt : ∀ r ∈ ranks, r < bsize * array.length) {i : ℕ} (hi : i < ranks.length) :
    translateRanksBmapReverse array i = some (ranks[i] : ℤ) := by
  have hmem : ranks[i] ∈ ranks := getElem_mem hi
  have hp := hlt _ hmem
  have hbelow : Nat.count (bitOf array · = true) ranks[i] = i := by
    rw [count_eq_idxOf hsorted hmem fun p hq => hbits p (lt_trans hq hp)]
    exact List.Nodup.idxOf_getElem (hsorted.imp ne_of_lt) _ hi
  have hscan := scan_range_inl (bitOf array) (fun _ c => decide (c = i + 1)) hp
    (by rw [Nat.count_succ, hbelow, if_pos ((hbits _ hp).mpr hmem), decide_eq_true rfl]) fun q hq => by
      have hle := Nat.count_monotone (bitOf array · = true) (Nat.succ_le_of_lt hq)
      rw [hbelow] at hle
      simpa using ne_of_lt (Nat.lt_succ_of_le hle)
  rw [translateRanksBmapReverse, if_neg (natCast_ne_procNull i), bmapReverseBytes_eq i 0 0 (drop_zero),
    ← range_eq_range', flatMap_bytes, hscan]

theorem setBits_spec {array array' : List ℕ} (h : setBits array ranks = some array') :
    array'.length = array.length ∧ ∀ p, bitOf array' p = true ↔ bitOf array p = true ∨ p ∈ ranks := by
  induction ranks generalizing array with
  | nil =>
    cases h
    exact ⟨rfl, fun p => by simp⟩
  | cons r ranks ih =>
    rw [setBits] at h
    rcases hbyte : array[r / bsize]? with - | byte
    · rw [hbyte] at h
      cases h
    · rw [hbyte] at h
      obtain ⟨hlength, hbits⟩ := ih h
      obtain ⟨hlt, hget⟩ := List.getElem?_eq_some_iff.mp hbyte
      refine ⟨hlength.trans length_set, fun p => (hbits p).trans ?_⟩
      rw [mem_cons, ← or_assoc]
      refine or_congr_left ?_
      rw [bitOf, bitOf, getD_eq_getElem?_getD, getD_eq_getElem?_getD, getElem?_set]
      by_cases hdiv : r / bsize = p / bsize
      · rw [if_pos hdiv, if_pos hlt, ← hdiv, hbyte, Option.getD_some, Option.getD_some, Nat.testBit_or, Nat.shiftLeft_eq,
          one_mul, Nat.testBit_two_pow, Bool.or_eq_true, decide_eq_true_eq]
        refine or_congr_right ⟨fun hmod => ?_, fun heq => by rw [heq]⟩
        rw [← Nat.div_add_mod p bsize, ← hdiv, ← hmod]
        exact Nat.div_add_mod r bsize
      · rw [if_neg hdiv]
        refine (or_iff_left fun heq => hdiv ?_).symm
        rw [heq]

theorem setBits_isSome {array : List ℕ} (h : ∀ r ∈ ranks, r < bsize * array.length) : (setBits array ranks).isSome := by
  induction ranks generalizing array with
  | nil => rfl
  | cons r ranks ih =>
    obtain ⟨hr, hranks⟩ := forall_mem_cons.mp h
    have hlt : r / bsize < array.length := Nat.div_lt_of_lt_mul hr
    rw [setBits, getElem?_eq_getElem hlt]
    exact ih (by rwa [length_set])

theorem checkRanks_sorted (h : checkRanks ranks = true) (hnodup : ranks.Nodup) : ranks.Pairwise (· < ·) := by
  have hle : ranks.IsChain (· ≤ ·) := by
    clear hnodup
    induction ranks with
    | nil => exact .nil
    | cons a ranks ih =>
      rcases ranks with - | ⟨b, ranks⟩
      · exact .singleton a
      · rw [checkRanks, Bool.and_eq_true, decide_eq_true_eq] at h
        exact .cons_cons h.1 (ih h.2)
  have hsorted : ranks.Pairwise (· ≤ ·) := hle.pairwise
  exact (hsorted.and hnodup).imp fun h => lt_of_le_of_ne h.1 h.2

theorem le_divCeil (n : ℕ) : n ≤ bsize * divCeil n bsize := by
  have := Nat.div_add_mod n bsize
  have := Nat.mod_lt n (by decide : 0 < bsize)
  rw [divCeil]
  split_ifs
  · omega
  · rw [Nat.mul_succ]
    omega

theorem encodes_bitmap {array : List ℕ} {origSize : ℕ} (hcheck : checkRanks ranks = true) (hnodup : ranks.Nodup)
    (hlt : ∀ r ∈ ranks, r < origSize) (harray : setBits (replicate (divCeil origSize bsize) 0) ranks = some array)
    (addr procCount : ℕ) (parent : Group) (myRank : ℤ) :
    Encodes (.bitmap addr parent procCount myRank array) origSize ranks := by
  have hsorted := checkRanks_sorted hcheck hnodup
  obtain ⟨hlength, hbits⟩ := setBits_spec harray
  have hle : origSize ≤ bsize * array.length := by
    rw [hlength, length_replicate]
    exact le_divCeil origSize
  have hbits' (p : ℕ) : bitOf array p = true ↔ p ∈ ranks := by
    rw [hbits, bitOf, getD_eq_getElem?_getD, getElem?_replicate]
    split_ifs <;> simp
  refine ⟨fun i hi => ?_, fun r hr => ?_, rfl, rfl⟩
  · exact translateRanksBmapReverse_spec hsorted (fun p _ => hbits' p) (fun r hr => (hlt r hr).trans_le hle) hi
  · exact translateRanksBmap_spec hsorted (fun p _ => hbits' p) (hr.trans_le hle)

structure Wf (g : Group) : Prop where
  lookup : ∀ i < g.procCount, (g.peerLookup i).isSome
  inj : ∀ i j : ℕ, i < g.procCount → j < g.procCount → g.peerLookup i = g.peerLookup j → i = j
  myRank : g.myRank = undefined ∨ ∃ r < g.procCount, g.myRank = (r : ℕ)
  addr : g.addr = 0 → g.procCount = 0

theorem setMyRank_same (g : Group) (myRank : ℤ) :
    (g.setMyRank myRank).addr = g.addr ∧ (g.setMyRank myRank).parent = g.parent ∧
      (g.setMyRank myRank).procCount = g.procCount ∧ (g.setMyRank myRank).toParent = g.toParent ∧
      (g.setMyRank myRank).ofParent = g.ofParent ∧ (g.setMyRank myRank).peerLookup = g.peerLookup ∧
      (g.setMyRank myRank).myRank = myRank := by
  cases g <;> exact ⟨rfl, rfl, rfl, rfl, rfl, rfl, rfl⟩

theorem addr_mem_addrs (g : Group) : g.addr ∈ g.addrs := by
  cases g <;> simp [Group.addr, Group.addrs]

theorem parent_addr_mem {g p : Group} (h : g.parent = some p) : p.addr ∈ g.addrs := by
  cases g with
  | dense => cases h
  | _ =>
    cases h
    exact mem_cons_of_mem _ (addr_mem_addrs _)

structure Sparse (parent new : Group) (ranks : List ℕ) : Prop where
  ne : ranks ≠ []
  addr : new.addr ≠ 0 ∧ parent.addr ≠ 0
  fresh : new.addr ∉ parent.addrs
  child : new.parent = some parent
  count : new.procCount = ranks.length
  lookup : ∀ r, new.peerLookup r = (new.toParent r).bind parent.peerLookup
  encodes : Encodes new parent.procCount ranks

namespace Sparse

section

variable (h : Sparse parent new ranks)

include h

theorem setMyRank (myRank : ℤ) : Sparse parent (new.setMyRank myRank) ranks := by
  obtain ⟨haddr, hparent, hcount, hto, hof, hlookup, -⟩ := setMyRank_same new myRank
  exact {
    ne := h.ne
    addr := haddr ▸ h.addr
    fresh := haddr ▸ h.fresh
    child := hparent ▸ h.child
    count := hcount ▸ h.count
    lookup := by
      rw [hlookup, hto]
      exact h.lookup
    encodes := by
      refine ⟨?_, ?_, ?_⟩
      · rw [hto]
        exact h.encodes.toParent
      · rw [hof]
        exact h.encodes.ofParent
      · rw [hto, hof]
        exact h.encodes.procNull }

theorem translateRanks_parent (r : ℤ) : new.translateRanks r parent = new.toParent r := by
  rw [Group.translateRanks, if_neg (not_or.mpr h.addr), h.child]
  exact if_pos rfl

theorem translateRanks_new (r : ℤ) : parent.translateRanks r new = new.ofParent r := by
  have hnot : parent.parent.map Group.addr ≠ some new.addr := fun heq => by
    obtain ⟨p, hp, haddr⟩ := Option.map_eq_some_iff.mp heq
    exact h.fresh (haddr ▸ parent_addr_mem hp)
  rw [Group.translateRanks, if_neg (not_or.mpr ⟨h.addr.2, h.addr.1⟩), if_neg hnot, h.child]
  exact if_pos rfl

theorem includes (hrank : new.myRank = position ranks parent.myRank) :
    Includes parent new ranks where
  count := h.count
  procs i hi := by
    rw [h.lookup, h.encodes.toParent i hi]
    rfl
  myRank := hrank
  toParent i hi := by
    rw [h.translateRanks_parent]
    exact h.encodes.toParent i hi
  ofParent r hr := by
    rw [h.translateRanks_new]
    exact h.encodes.ofParent r hr
  procNull _ := by
    rw [h.translateRanks_parent, h.translateRanks_new]
    exact h.encodes.procNull

theorem withMyRank (hparent : Wf parent)
    (hundefined : parent.myRank = undefined → new.ofParent undefined = some undefined) :
    ∃ new', new.withMyRank parent = some new' ∧ Includes parent new' ranks := by
  have hrank : new.ofParent parent.myRank = some (position ranks parent.myRank) := by
    rcases hparent.myRank with hrank | ⟨r, hr, hrank⟩
    · rw [hrank, hundefined hrank, position_of_neg (by decide)]
    · rw [hrank]
      exact h.encodes.ofParent r hr
  refine ⟨new.setMyRank (position ranks parent.myRank), ?_, (h.setMyRank _).includes (setMyRank_same new _).2.2.2.2.2.2⟩
  rw [Group.withMyRank, h.translateRanks_new, hrank]
  rfl

end

end Sparse

theorem includes_empty (parent : Group) : Includes parent groupEmpty [] where
  count := rfl
  procs i hi := absurd hi (Nat.not_lt_zero i)
  myRank := by
    rw [position, if_neg fun h => (nomatch h.2)]
    rfl
  toParent i hi := absurd hi (Nat.not_lt_zero i)
  ofParent r _ := by
    rw [Group.translateRanks, if_pos (.inr rfl), position, if_neg fun h => (nomatch h.2)]
  procNull h := absurd rfl h

theorem mapM_spec {f : ℕ → Option ℕ} (h : ∀ r ∈ ranks, (f r).isSome) :
    ∃ procs, ranks.mapM f = some procs ∧ procs.length = ranks.length ∧
      ∀ i (hi : i < ranks.length), procs[i]? = f ranks[i] := by
  induction ranks with
  | nil => exact ⟨[], rfl, rfl, fun i hi => absurd hi (Nat.not_lt_zero i)⟩
  | cons r ranks ih =>
    obtain ⟨hr, hranks⟩ := forall_mem_cons.mp h
    obtain ⟨p, hp⟩ := Option.isSome_iff_exists.mp hr
    obtain ⟨procs, hprocs, hlength, hget⟩ := ih hranks
    refine ⟨p :: procs, ?_, by simp [hlength], fun i hi => ?_⟩
    · rw [mapM_cons, hp, hprocs]
      rfl
    · rcases i with - | i
      · exact hp.symm
      · exact hget i (by simpa using hi)

theorem setGroupRank_spec {procs : List ℕ} (hnodup : procs.Nodup) (proc k : ℕ) (myRank : ℤ) :
    setGroupRank proc (procs.zipIdx k) myRank = if proc ∈ procs then ((k + procs.idxOf proc : ℕ) : ℤ) else myRank := by
  induction procs generalizing k myRank with
  | nil => rfl
  | cons p procs ih =>
    obtain ⟨hp, hnodup⟩ := nodup_cons.mp hnodup
    rw [zipIdx_cons, setGroupRank, ih hnodup]
    by_cases heq : p = proc
    · subst heq
      rw [if_neg hp, if_pos rfl, if_pos mem_cons_self, idxOf_cons_self, add_zero]
    · have hmem : proc ∈ p :: procs ↔ proc ∈ procs := by simp [Ne.symm heq]
      simp only [hmem, if_neg heq, idxOf_cons_ne _ heq]
      split_ifs
      · push_cast
        omega
      · rfl

theorem find?_range {n j : ℕ} {P : ℕ → Bool} (hj : j < n) (hP : P j = true) (honly : ∀ i < n, P i = true → i = j) :
    (List.range n).find? P = some j := by
  rw [find?_range_eq_some]
  refine ⟨hP, mem_range.mpr hj, fun i hi => ?_⟩
  by_contra hnot
  have hPi : P i = true := by simpa using hnot
  exact ne_of_lt hi (honly i (hi.trans hj) hPi)

theorem translateRanks_search {g1 g2 : Group} (h1 : g1.addr ≠ 0) (h2 : g2.addr ≠ 0)
    (hparent1 : g1.parent.map Group.addr ≠ some g2.addr) (hparent2 : g2.parent.map Group.addr ≠ some g1.addr) (r : ℕ)
    {proc : ℕ} (hproc : g1.peerLookup r = some proc) :
    g1.translateRanks r g2 = some (match (List.range g2.procCount).find? fun j : ℕ => g2.peerLookup j = some proc with
      | some j => (j : ℤ)
      | none => undefined) := by
  rw [Group.translateRanks, if_neg (not_or.mpr ⟨h1, h2⟩), if_neg hparent1, if_neg hparent2,
    if_neg (natCast_ne_procNull r)]
  generalize g1.peerLookup r = found at hproc
  subst hproc
  rfl

theorem translateRanks_procNull {g1 g2 : Group} (h1 : g1.addr ≠ 0) (h2 : g2.addr ≠ 0)
    (hparent1 : g1.parent.map Group.addr ≠ some g2.addr) (hparent2 : g2.parent.map Group.addr ≠ some g1.addr) :
    g1.translateRanks procNull g2 = some procNull := by
  rw [Group.translateRanks, if_neg (not_or.mpr ⟨h1, h2⟩), if_neg hparent1, if_neg hparent2, if_pos rfl]

theorem includes_dense (hparent : Wf parent) (hne : ranks ≠ []) (hnodup : ranks.Nodup)
    (hlt : ∀ r ∈ ranks, r < parent.procCount) {addr : ℕ} (haddr : addr ≠ 0) (hfresh : addr ∉ parent.addrs)
    {procs : List ℕ} (hlength : procs.length = ranks.length)
    (hget : ∀ i (hi : i < ranks.length), procs[i]? = parent.peerLookup ranks[i]) {myRank : ℤ}
    (hrank : myRank = position ranks parent.myRank) : Includes parent (.dense addr procs myRank) ranks := by
  have hparentaddr : parent.addr ≠ 0 := fun h0 => by
    obtain ⟨r, l, rfl⟩ := exists_cons_of_ne_nil hne
    have := hlt r mem_cons_self
    rw [hparent.addr h0] at this
    exact Nat.not_lt_zero r this
  have hnot : parent.parent.map Group.addr ≠ some addr := fun heq => by
    obtain ⟨p, hp, heq⟩ := Option.map_eq_some_iff.mp heq
    exact hfresh (heq ▸ parent_addr_mem hp)
  have hlookup (i : ℕ) (hi : i < ranks.length) :
      (Group.dense addr procs myRank).peerLookup i = parent.peerLookup ranks[i] := by
    rw [Group.peerLookup, if_pos (Int.natCast_nonneg i)]
    exact hget i hi
  have hnewaddr : (Group.dense addr procs myRank).addr ≠ 0 := haddr
  have hnot' : parent.parent.map Group.addr ≠ some (Group.dense addr procs myRank).addr := hnot
  have hnone : (Group.dense addr procs myRank).parent.map Group.addr ≠ some parent.addr := by simp [Group.parent]
  exact {
    count := hlength
    procs := hlookup
    myRank := hrank
    toParent := fun i hi => by
      have hmem := hlt _ (getElem_mem hi)
      obtain ⟨proc, hproc⟩ := Option.isSome_iff_exists.mp (hparent.lookup _ hmem)
      rw [translateRanks_search hnewaddr hparentaddr hnone hnot' i ((hlookup i hi).trans hproc),
        find?_range hmem (by simpa using hproc) fun j hj heq => ?_]
      refine hparent.inj j _ hj hmem ?_
      rw [hproc]
      simpa using heq
    ofParent := fun r hr => by
      obtain ⟨proc, hproc⟩ := Option.isSome_iff_exists.mp (hparent.lookup r hr)
      rw [translateRanks_search hparentaddr hnewaddr hnot' hnone r hproc, position_natCast]
      -- a process of the new group is that of the rank if and only if it is there for this rank
      have hiff (j : ℕ) (hj : j < ranks.length) :
          (Group.dense addr procs myRank).peerLookup j = some proc ↔ ranks[j] = r := by
        rw [hlookup j hj]
        constructor
        · intro heq
          exact hparent.inj _ r (hlt _ (getElem_mem hj)) hr (heq.trans hproc.symm)
        · rintro rfl
          exact hproc
      have hcount : (Group.dense addr procs myRank).procCount = ranks.length := hlength
      rw [hcount]
      by_cases hin : r ∈ ranks
      · have hidx := idxOf_lt_length_of_mem hin
        rw [if_pos hin, find?_range hidx (by simpa using (hiff _ hidx).mpr (getElem_idxOf hidx)) fun j hj heq => ?_]
        have hj' := (hiff j hj).mp (by simpa using heq)
        rw [← hj', hnodup.idxOf_getElem]
      · rw [if_neg hin, find?_eq_none.mpr fun j hj heq => ?_]
        have hj' := mem_range.mp hj
        exact hin ((hiff j hj').mp (by simpa using heq) ▸ getElem_mem hj')
    procNull := fun _ =>
      ⟨translateRanks_procNull hnewaddr hparentaddr hnone hnot', translateRanks_procNull hparentaddr hnewaddr hnot' hnone⟩ }

theorem inclPlist_spec (hparent : Wf parent) (hne : ranks ≠ []) (hnodup : ranks.Nodup)
    (hlt : ∀ r ∈ ranks, r < parent.procCount) {addr : ℕ} (haddr : addr ≠ 0) (hfresh : addr ∉ parent.addrs) :
    ∃ new, inclPlist addr parent ranks = some new ∧ Includes parent new ranks := by
  obtain ⟨procs, hprocs, hlength, hget⟩ := mapM_spec (f := fun r => parent.peerLookup r) fun r hr =>
    hparent.lookup r (hlt r hr)
  have hinclude {myRank : ℤ} (hrank : myRank = position ranks parent.myRank) :
      Includes parent (.dense addr procs myRank) ranks :=
    includes_dense hparent hne hnodup hlt haddr hfresh hlength hget hrank
  have hprocsnodup : procs.Nodup := by
    refine nodup_iff_injective_getElem.mpr fun ⟨i, hi⟩ ⟨j, hj⟩ hij => ?_
    have hi' : i < ranks.length := hlength ▸ hi
    have hj' : j < ranks.length := hlength ▸ hj
    have hlookup : parent.peerLookup ranks[i] = parent.peerLookup ranks[j] := by
      rw [← hget i hi', ← hget j hj', getElem?_eq_getElem hi, getElem?_eq_getElem hj]
      exact congrArg some hij
    have heq := hparent.inj _ _ (hlt _ (getElem_mem hi')) (hlt _ (getElem_mem hj')) hlookup
    exact Fin.ext ((hnodup.getElem_inj_iff).mp heq)
  rw [inclPlist, if_neg (fun h => hne (length_eq_zero_iff.mp h)), hprocs]
  dsimp only
  rcases hparent.myRank with hrank | ⟨r, hr, hrank⟩
  · rw [if_neg (not_not.mpr hrank)]
    refine ⟨_, rfl, hinclude ?_⟩
    rw [hrank, position_of_neg (by decide)]
  · obtain ⟨proc, hproc⟩ := Option.isSome_iff_exists.mp (hparent.lookup r hr)
    have hdefined : (r : ℤ) ≠ undefined := fun heq => by
      have : (0 : ℤ) ≤ r := Int.natCast_nonneg r
      rw [heq] at this
      exact absurd this (by decide)
    rw [hrank, if_pos hdefined, hproc]
    refine ⟨_, rfl, hinclude ?_⟩
    rw [hrank, setGroupRank_spec hprocsnodup, position_natCast, zero_add]
    by_cases hin : r ∈ ranks
    · have hidx := idxOf_lt_length_of_mem hin
      have hproc' := hget _ hidx
      rw [getElem_idxOf hidx, hproc] at hproc'
      obtain ⟨hlt', heq⟩ := List.getElem?_eq_some_iff.mp hproc'
      rw [if_pos hin, if_pos (heq ▸ getElem_mem hlt'), ← heq, hprocsnodup.idxOf_getElem]
    · rw [if_neg hin, if_neg fun hmem => ?_]
      obtain ⟨i, hi, heq⟩ := mem_iff_getElem.mp hmem
      have hi' : i < ranks.length := hlength ▸ hi
      have hget' := hget i hi'
      rw [getElem?_eq_getElem hi, heq, ← hproc] at hget'
      have := hparent.inj _ _ hr (hlt _ (getElem_mem hi')) hget'
      exact hin (this ▸ getElem_mem hi')

theorem Wf.of_includes (hparent : Wf parent) (hnodup : ranks.Nodup) (hlt : ∀ r ∈ ranks, r < parent.procCount)
    (h : Includes parent new ranks) (haddr : new.addr = 0 → new.procCount = 0) : Wf new where
  lookup i hi := by
    rw [h.count] at hi
    rw [h.procs i hi]
    exact hparent.lookup _ (hlt _ (getElem_mem hi))
  inj i j hi hj heq := by
    rw [h.count] at hi hj
    rw [h.procs i hi, h.procs j hj] at heq
    have hranks := hparent.inj _ _ (hlt _ (getElem_mem hi)) (hlt _ (getElem_mem hj)) heq
    exact (hnodup.getElem_inj_iff).mp hranks
  myRank := by
    rw [h.myRank, position]
    split_ifs with hin
    · refine .inr ⟨_, ?_, rfl⟩
      rw [h.count]
      exact idxOf_lt_length_of_mem hin.2
    · exact .inl rfl
  addr := haddr

section Formats

variable {before : ℤ} {a addr : ℕ} {l : List ℕ}

theorem parent_addr_ne (hparent : Wf parent) (hlt : ∀ r ∈ a :: l, r < parent.procCount) : parent.addr ≠ 0 := fun h0 => by
  have := hlt a mem_cons_self
  rw [hparent.addr h0] at this
  exact Nat.not_lt_zero a this

theorem inclStrided_spec (hparent : Wf parent) (h : Accepted .strided before parent (a :: l)) (haddr : addr ≠ 0)
    (hfresh : addr ∉ parent.addrs) :
    ∃ new, inclStrided addr parent (a :: l) = some new ∧ Includes parent new (a :: l) := by
  have hstride : checkStride (a :: l) ≠ -1 := fun heq => h.check (if_pos heq)
  refine Sparse.withMyRank ⟨cons_ne_nil a l, ⟨haddr, parent_addr_ne hparent h.lt⟩, hfresh, rfl, rfl, fun r => rfl, ?_⟩
    hparent fun _ => ?_
  · exact encodes_strided h.nodup hstride addr _ parent undefined
  · show translateRanksStrided _ _ _ undefined = _
    have ha : (0 : ℤ) ≤ a := Int.natCast_nonneg a
    rw [translateRanksStrided, if_neg (by decide), if_pos]
    rw [undefined]
    omega

theorem sporadicLoop_undefined (ps : List (ℕ × ℕ)) (count : ℤ) : sporadicLoop undefined (ps.map range) count = undefined := by
  induction ps generalizing count with
  | nil => rfl
  | cons p ps ih =>
    have hnot : ¬((p.1 : ℤ) ≤ undefined ∧ undefined ≤ (p.1 : ℤ) + p.2 - 1) := fun h => by
      have hle := h.1
      rw [undefined] at hle
      omega
    rw [map_cons, sporadicLoop]
    exact (if_neg hnot).trans (ih _)

theorem sum_length (ps : List (ℕ × ℕ)) : ((ps.map range).map Sporadic.length).sum = ((expand ps).length : ℤ) := by
  induction ps with
  | nil => rfl
  | cons p ps ih =>
    rw [map_cons, map_cons, sum_cons, ih, expand_cons, length_append, length_range']
    push_cast
    rfl

theorem inclSpor_spec (hparent : Wf parent) (h : Accepted .sporadic before parent (a :: l)) (haddr : addr ≠ 0)
    (hfresh : addr ∉ parent.addrs) :
    ∃ new, inclSpor addr before parent (a :: l) = some new ∧ Includes parent new (a :: l) := by
  obtain ⟨ps, hps, hexpand⟩ := fillRanges_spec a 0 l
  have hlist : fillRanges a ⟨a, 1⟩ l = ps.map range := hps
  -- whatever stands before the array, one range is counted for the first rank
  have hone : (if (a : ℤ) = before + 1 then if 0 = 0 then 0 + 1 else 0 else 0 + 1) = 1 := by simp
  have hroom : ¬countRanges before (a :: l) 0 < (fillRanges a ⟨a, 1⟩ l).length := by
    have hcount := countRanges_spec a ⟨a, 1⟩ l one_pos
    rw [countRanges, hone]
    omega
  rw [inclSpor, if_neg hroom, hlist]
  refine Sparse.withMyRank ⟨cons_ne_nil a l, ⟨haddr, parent_addr_ne hparent h.lt⟩, hfresh, rfl, ?_, fun r => rfl, ?_⟩
    hparent fun _ => ?_
  · show ((ps.map range).map Sporadic.length).sum.toNat = _
    rw [sum_length, hexpand]
    exact Int.toNat_natCast _
  · exact encodes_sporadic hexpand addr _ _ parent undefined
  · show translateRanksSporadic _ undefined = _
    rw [translateRanksSporadic, if_neg (by decide), sporadicLoop_undefined]

theorem inclBmap_array (addr : ℕ) (h : Accepted .bitmap before parent (a :: l)) :
    ∃ array, setBits (replicate (divCeil parent.procCount bsize) 0) (a :: l) = some array ∧
      Encodes (.bitmap addr parent (a :: l).length undefined array) parent.procCount (a :: l) := by
  have hcheck : checkRanks (a :: l) = true := by
    by_contra hnot
    exact h.check (if_neg hnot)
  have hsome : (setBits (replicate (divCeil parent.procCount bsize) 0) (a :: l)).isSome := by
    refine setBits_isSome fun r hr => (h.lt r hr).trans_le ?_
    rw [length_replicate]
    exact le_divCeil _
  obtain ⟨array, harray⟩ := Option.isSome_iff_exists.mp hsome
  exact ⟨array, harray, encodes_bitmap hcheck h.nodup h.lt harray addr _ parent undefined⟩

theorem inclBmap_eq {array : List ℕ} (harray : setBits (replicate (divCeil parent.procCount bsize) 0) (a :: l) = some array) :
    inclBmap addr parent (a :: l) = (Group.bitmap addr parent (a :: l).length undefined array).withMyRank parent := by
  rw [inclBmap, if_neg (by simp), harray]

theorem inclBmap_spec (hparent : Wf parent) (h : Accepted .bitmap before parent (a :: l)) (haddr : addr ≠ 0)
    (hfresh : addr ∉ parent.addrs) (hrank : parent.myRank ≠ undefined) :
    ∃ new, inclBmap addr parent (a :: l) = some new ∧ Includes parent new (a :: l) := by
  obtain ⟨array, harray, hencodes⟩ := inclBmap_array addr h
  have hsparse : Sparse parent (.bitmap addr parent (a :: l).length undefined array) (a :: l) :=
    ⟨cons_ne_nil a l, ⟨haddr, parent_addr_ne hparent h.lt⟩, hfresh, rfl, rfl, fun r => rfl, hencodes⟩
  rw [inclBmap_eq harray]
  exact hsparse.withMyRank hparent fun heq => absurd heq hrank

theorem inclBmap_none (hparent : Wf parent) (h : Accepted .bitmap before parent (a :: l)) (haddr : addr ≠ 0)
    (hfresh : addr ∉ parent.addrs) (hrank : parent.myRank = undefined) : inclBmap addr parent (a :: l) = none := by
  obtain ⟨array, harray, hencodes⟩ := inclBmap_array addr h
  have hsparse : Sparse parent (.bitmap addr parent (a :: l).length undefined array) (a :: l) :=
    ⟨cons_ne_nil a l, ⟨haddr, parent_addr_ne hparent h.lt⟩, hfresh, rfl, rfl, fun r => rfl, hencodes⟩
  rw [inclBmap_eq harray, Group.withMyRank, hsparse.translateRanks_new, hrank]
  rfl

end Formats

theorem incl_iff (hparent : Wf parent) {f : Format} {before : ℤ} (h : Accepted f before parent ranks) {addr : ℕ}
    (haddr : addr ≠ 0) (hfresh : addr ∉ parent.addrs) :
    (∃ new, f.incl addr before parent ranks = some new ∧ Includes parent new ranks) ↔
      (f = .bitmap → ranks ≠ [] → parent.myRank ≠ undefined) := by
  rcases ranks with - | ⟨a, l⟩
  · refine iff_of_true ⟨groupEmpty, ?_, includes_empty parent⟩ fun _ hne => absurd rfl hne
    cases f <;> rfl
  · cases f with
    | plist =>
      exact iff_of_true (inclPlist_spec hparent (cons_ne_nil a l) h.nodup h.lt haddr hfresh) nofun
    | strided => exact iff_of_true (inclStrided_spec hparent h haddr hfresh) nofun
    | sporadic => exact iff_of_true (inclSpor_spec hparent h haddr hfresh) nofun
    | bitmap =>
      by_cases hrank : parent.myRank = undefined
      · refine iff_of_false ?_ fun hne => hne rfl (cons_ne_nil a l) hrank
        rintro ⟨new, hnew, -⟩
        have hnone := inclBmap_none hparent h haddr hfresh hrank
        cases hnone.symm.trans hnew
      · exact iff_of_true (inclBmap_spec hparent h haddr hfresh hrank) fun _ _ => hrank

theorem includes_of_incl (hparent : Wf parent) {f : Format} {before : ℤ} (h : Accepted f before parent ranks) {addr : ℕ}
    (haddr : addr ≠ 0) (hfresh : addr ∉ parent.addrs) (hnew : f.incl addr before parent ranks = some new) :
    Includes parent new ranks := by
  have hrank : f = .bitmap → ranks ≠ [] → parent.myRank ≠ undefined := by
    rintro rfl hne heq
    obtain ⟨a, l, rfl⟩ := exists_cons_of_ne_nil hne
    have hnone := inclBmap_none hparent h haddr hfresh heq
    cases hnone.symm.trans hnew
  obtain ⟨new', hnew', hincludes⟩ := (incl_iff hparent h haddr hfresh).mpr hrank
  obtain rfl := Option.some.inj (hnew.symm.trans hnew')
  exact hincludes

theorem withMyRank_addr {g : Group} (h : g.withMyRank parent = some new) : new.addr = g.addr := by
  obtain ⟨r, -, rfl⟩ := Option.map_eq_some_iff.mp h
  exact (setMyRank_same g r).1

theorem incl_addr {f : Format} {before : ℤ} {addr : ℕ} (hne : ranks ≠ [])
    (hnew : f.incl addr before parent ranks = some new) : new.addr = addr := by
  obtain ⟨a, l, rfl⟩ := exists_cons_of_ne_nil hne
  cases f with
  | plist =>
    have hnew' : inclPlist addr parent (a :: l) = some new := hnew
    rw [inclPlist, if_neg (by simp)] at hnew'
    split at hnew'
    · cases hnew'
    · split_ifs at hnew'
      · obtain ⟨proc, -, rfl⟩ := Option.map_eq_some_iff.mp hnew'
        rfl
      · cases hnew'
        rfl
  | strided => exact withMyRank_addr hnew
  | sporadic =>
    have hnew' : inclSpor addr before parent (a :: l) = some new := hnew
    rw [inclSpor] at hnew'
    split_ifs at hnew'
    exact withMyRank_addr hnew'
  | bitmap =>
    have hnew' : inclBmap addr parent (a :: l) = some new := hnew
    rw [inclBmap, if_neg (by simp)] at hnew'
    split at hnew'
    · cases hnew'
    · exact withMyRank_addr hnew'

theorem Built.wf {g : Group} (h : Built g) : Wf g := by
  induction h with
  | @dense addr procs myRank haddr hnodup hrank =>
    have hlookup (i : ℕ) : (Group.dense addr procs myRank).peerLookup i = procs[i]? := by
      rw [Group.peerLookup, if_pos (Int.natCast_nonneg i)]
      rfl
    refine ⟨fun i hi => ?_, fun i j hi hj heq => ?_, hrank, fun h0 => ?_⟩
    · rw [hlookup, getElem?_eq_getElem hi]
      rfl
    · rw [hlookup, hlookup] at heq
      exact (getElem?_inj hi hnodup).mp heq
    · show procs.length = 0
      rw [haddr h0]
      rfl
  | @incl f addr before parent new ranks _ hranks haddr hfresh hnew ih =>
    have hincludes := includes_of_incl ih hranks haddr hfresh hnew
    refine Wf.of_includes ih hranks.nodup hranks.lt hincludes fun h0 => ?_
    rcases ranks with - | ⟨a, l⟩
    · exact hincludes.count
    · exact absurd ((incl_addr (cons_ne_nil a l) hnew).symm.trans h0) haddr

/-- Whatever the parent comes from, the group of its ranks in a format is as it should be if and only if it is not a bitmap
or the caller is in the parent. -/
theorem includes_iff {f : Format} {addr : ℕ} {before : ℤ} (hparent : Built parent)
    (hranks : Accepted f before parent ranks) (haddr : addr ≠ 0) (hfresh : addr ∉ parent.addrs) :
    (∃ new, f.incl addr before parent ranks = some new ∧ Includes parent new ranks) ↔
      (f = .bitmap → ranks ≠ [] → parent.myRank ≠ undefined) :=
  incl_iff hparent.wf hranks haddr hfresh

def outsiders : Group := .dense 1 [10, 11, 12, 13] undefined

theorem built_outsiders : Built outsiders := .dense (by decide) (by decide) (.inl rfl)

theorem includes_iff_sporadic :
    (∃ new, Format.sporadic.incl 2 0 outsiders [0, 1, 3] = some new ∧ Includes outsiders new [0, 1, 3]) ↔
      (Format.sporadic = .bitmap → [0, 1, 3] ≠ [] → outsiders.myRank ≠ undefined) :=
  includes_iff built_outsiders ⟨by decide, by decide, by decide⟩ (by decide) (by decide)

/-- A bitmap of three of them has no rank for the caller. -/
theorem not_includes_bitmap : ∃ f addr before parent ranks, Built parent ∧ Accepted f before parent ranks ∧ addr ≠ 0 ∧
    addr ∉ parent.addrs ∧ ¬∃ new, f.incl addr before parent ranks = some new ∧ Includes parent new ranks := by
  refine ⟨.bitmap, 2, 0, outsiders, [0, 1, 3], built_outsiders, ⟨by decide, by decide, by decide⟩, by decide, by decide, ?_⟩
  rintro ⟨new, hnew, -⟩
  have hnone : Format.bitmap.incl 2 0 outsiders [0, 1, 3] = none := by decide
  cases hnone.symm.trans hnew

end OpenMPI.Groups
