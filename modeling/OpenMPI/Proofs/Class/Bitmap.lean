import Mathlib.Data.List.GetD
import Mathlib.Data.List.TakeWhile
import OpenMPI.Class.Bitmap

/-!
# Bitmaps

After a bit was set, it is set, and so are the bits that were (`isSetBit_setBit`).  The bitmaps of MPI are the sets of
the numbers that stand as long as their bits can be counted in an `int` (`members_of_run`).
-/

namespace OpenMPI.Class.Bitmap

open List Nat Option

variable {bm : Bitmap} {bit v : ℕ}

theorem and_twoPow_ne_zero (b : BitVec 8) {i : ℕ} (hi : i < 8) : b &&& BitVec.twoPow 8 i ≠ 0 ↔ b.getLsbD i = true := by
  have hpow : BitVec.twoPow 8 i ≠ 0#8 := by
    intro h
    have := congrArg (BitVec.getLsbD · i) h
    simp [hi] at this
  rw [BitVec.and_twoPow]
  cases b.getLsbD i
  · simp
  · simpa using hpow

theorem isSetBit_iff : bm.isSetBit bit = true ↔ (bm.getD (bit / 8) 0).getLsbD (bit % 8) = true := by
  rw [isSetBit]
  split_ifs with hge
  · rw [getD_eq_default _ _ (by omega)]
    simp
  · rw [decide_eq_true_iff]
    exact and_twoPow_ne_zero _ (mod_lt bit (by omega))

theorem getD_append_zeros (k i : ℕ) : (bm ++ replicate k 0).getD i 0 = bm.getD i 0 := by
  rw [getD_eq_getElem?_getD, getD_eq_getElem?_getD]
  by_cases hi : i < bm.length
  · rw [getElem?_append_left hi]
  · rw [getElem?_append_right (by omega), getElem?_eq_none (l := bm) (by omega), getElem?_replicate]
    split_ifs <;> rfl

theorem length_le_setBit : bm.length ≤ (bm.setBit bit).length := by
  rw [setBit, length_modify, length_append]
  exact Nat.le_add_right _ _

theorem isSetBit_setBit (hpos : 0 < bm.length) :
    (bm.setBit bit).isSetBit v = true ↔ v = bit ∨ bm.isSetBit v = true := by
  have hroom : bit / 8 < (bm ++ replicate ((if bm.length ≤ bit / 8 then (bit / 8 / bm.length + 1) * bm.length
      else bm.length) - bm.length) (0 : BitVec 8)).length := by
    rw [length_append, length_replicate]
    split_ifs with hle
    · have := lt_div_mul_add hpos (a := bit / 8)
      rw [succ_mul]
      omega
    · omega
  rw [isSetBit_iff, isSetBit_iff, setBit]
  by_cases hindex : v / 8 = bit / 8
  · rw [hindex, getD_eq_getElem?_getD, getElem?_modify_eq, getElem?_eq_getElem hroom]
    rw [Option.map_eq_map, map_some, getD_some, ← getD_eq_getElem _ 0 hroom, getD_append_zeros]
    rw [BitVec.getLsbD_or, BitVec.getLsbD_twoPow, Bool.or_eq_true, or_comm]
    refine or_congr ?_ Iff.rfl
    rw [Bool.and_eq_true, decide_eq_true_iff, decide_eq_true_iff]
    omega
  · rw [getD_eq_getElem?_getD, getElem?_modify_ne _ _ (Ne.symm hindex), ← getD_eq_getElem?_getD,
      getD_append_zeros, or_iff_right]
    rintro rfl
    exact hindex rfl

theorem isSetBit_init (size v : ℕ) : (init size).isSetBit v = false := by
  rw [Bool.eq_false_iff, ne_eq, isSetBit_iff, init, getD_eq_getElem?_getD, getElem?_replicate]
  split_ifs <;> simp

theorem length_init_pos {size : ℕ} (h : 0 < size) : 0 < (init size).length := by
  rw [init, length_replicate]
  split_ifs <;> omega

theorem isSetBit_modify_or {i : ℕ} (hi : i < bm.length) (hbit : bit / 8 = i) :
    Bitmap.isSetBit (bm.modify i (· ||| BitVec.twoPow 8 (bit % 8))) v = true ↔ v = bit ∨ bm.isSetBit v = true := by
  rw [isSetBit_iff, isSetBit_iff, getD_eq_getElem?_getD]
  by_cases hindex : v / 8 = i
  · rw [hindex, getElem?_modify_eq, getElem?_eq_getElem hi, Option.map_eq_map, map_some, getD_some,
      ← getD_eq_getElem _ 0 hi, BitVec.getLsbD_or, BitVec.getLsbD_twoPow, Bool.or_eq_true, or_comm]
    refine or_congr ?_ Iff.rfl
    rw [Bool.and_eq_true, decide_eq_true_iff, decide_eq_true_iff]
    omega
  · rw [getElem?_modify_ne _ _ (Ne.symm hindex), ← getD_eq_getElem?_getD, or_iff_right]
    rintro rfl
    exact hindex hbit

theorem isSetBit_append_zeros (k : ℕ) : Bitmap.isSetBit (bm ++ replicate k 0) v = true ↔ bm.isSetBit v = true := by
  rw [isSetBit_iff, isSetBit_iff, getD_append_zeros]

theorem ompiSetBit_spec {bm' : Bitmap} (hpos : 0 < bm.length) (h : bm.ompiSetBit bit = some bm') :
    0 < bm'.length ∧ (bm'.isSetBit v = true ↔ v = bit ∨ bm.isSetBit v = true) := by
  rw [ompiSetBit] at h
  simp only at h
  by_cases hbig : bit > handleMax
  · rw [if_pos hbig] at h
    contradiction
  rw [if_neg hbig] at h
  by_cases hfull : bit / 8 ≥ bm.length ∧ bm.length ≥ handleMax
  · rw [if_pos hfull] at h
    contradiction
  rw [if_neg hfull, Option.some.injEq] at h
  subst h
  have hroom : bit / 8 < (bm ++ replicate ((if bit / 8 ≥ bm.length then
      min ((bit / 8 / bm.length + 1) * bm.length) handleMax else bm.length) - bm.length) (0 : BitVec 8)).length := by
    rw [length_append, length_replicate]
    split_ifs with hge
    · have hlt := lt_div_mul_add hpos (a := bit / 8)
      rw [succ_mul, handleMax] at *
      omega
    · omega
  refine ⟨?_, ?_⟩
  · rw [length_modify]
    omega
  · rw [isSetBit_modify_or hroom rfl, isSetBit_append_zeros]

theorem isSetBit_ompiClearBit : (bm.ompiClearBit bit).isSetBit v = true ↔ v ≠ bit ∧ bm.isSetBit v = true := by
  rw [ompiClearBit]
  by_cases hge : bit ≥ bm.length * 8
  · rw [if_pos hge, iff_and_self]
    rintro hv rfl
    rw [isSetBit, if_pos hge] at hv
    contradiction
  rw [if_neg hge, isSetBit_iff, isSetBit_iff, getD_eq_getElem?_getD]
  have hi : bit / 8 < bm.length := by omega
  by_cases hindex : v / 8 = bit / 8
  · rw [hindex, getElem?_modify_eq, getElem?_eq_getElem hi, Option.map_eq_map, map_some, getD_some,
      ← getD_eq_getElem _ 0 hi, BitVec.getLsbD_and, BitVec.getLsbD_not, BitVec.getLsbD_twoPow, Bool.and_eq_true, and_comm]
    refine and_congr ?_ Iff.rfl
    have hlt : v % 8 < 8 := mod_lt _ (by omega)
    simp only [hlt, decide_true, Bool.true_and, Bool.not_eq_true', Bool.and_eq_false_imp, decide_eq_false_iff_not, ne_eq,
      decide_eq_true_eq]
    omega
  · rw [getElem?_modify_ne _ _ (Ne.symm hindex), ← getD_eq_getElem?_getD, iff_and_self]
    rintro - rfl
    exact hindex rfl

theorem length_ompiClearBit : (bm.ompiClearBit bit).length = bm.length := by
  rw [ompiClearBit]
  split_ifs
  · rfl
  · rw [length_modify]

theorem lowOnes_spec : ∀ b : BitVec 8, b ≠ 0xff →
    lowOnes 8 b < 8 ∧ b.getLsbD (lowOnes 8 b) = false ∧ b ||| (b + 1) = b ||| BitVec.twoPow 8 (lowOnes 8 b) := by
  decide +kernel

theorem getD_length_takeWhile {α : Type*} {P : α → Bool} (d : α) (l : List α) (h : (l.takeWhile P).length ≠ l.length) :
    P (l.getD (l.takeWhile P).length d) = false := by
  induction l with
  | nil => simp at h
  | cons x l ih =>
    by_cases hx : P x = true
    · rw [takeWhile_cons_of_pos hx] at h ⊢
      rw [length_cons, getD_cons_succ]
      exact ih fun heq => h (by rw [length_cons, length_cons, heq])
    · rw [takeWhile_cons_of_neg hx]
      simpa using hx

theorem findAndSetFirstUnsetBit_spec {bm' : Bitmap} {position : ℕ} (hpos : 0 < bm.length)
    (h : bm.findAndSetFirstUnsetBit = some (position, bm')) :
    0 < bm'.length ∧ bm.isSetBit position = false ∧
      ∀ v, bm'.isSetBit v = true ↔ v = position ∨ bm.isSetBit v = true := by
  rw [findAndSetFirstUnsetBit] at h
  by_cases hfull : (bm.takeWhile (· == 0xff)).length = bm.length
  · rw [if_pos hfull, map_eq_some_iff] at h
    obtain ⟨bm'', hset, heq⟩ := h
    obtain ⟨rfl, rfl⟩ := Prod.mk.inj heq
    refine ⟨(@ompiSetBit_spec _ _ 0 _ hpos hset).1, ?_, fun v => (ompiSetBit_spec hpos hset).2⟩
    rw [isSetBit, if_pos (le_rfl)]
  · have hstop := getD_length_takeWhile (0 : BitVec 8) bm hfull
    have hle : (bm.takeWhile (· == 0xff)).length ≤ bm.length := (List.takeWhile_prefix _).length_le
    rw [if_neg hfull, Option.some.injEq] at h
    generalize (bm.takeWhile (· == 0xff)).length = i at h hfull hstop hle
    obtain ⟨rfl, rfl⟩ := Prod.mk.inj h
    have hlt : i < bm.length := lt_of_le_of_ne hle hfull
    obtain ⟨hlow, hunset, hor⟩ := lowOnes_spec (bm.getD i 0) (by simpa using hstop)
    have hdiv : (lowOnes 8 (bm.getD i 0) + i * 8) / 8 = i := by omega
    have hmod : (lowOnes 8 (bm.getD i 0) + i * 8) % 8 = lowOnes 8 (bm.getD i 0) := by omega
    refine ⟨by rw [length_set]; exact hpos, ?_, fun v => ?_⟩
    · rw [Bool.eq_false_iff, ne_eq, isSetBit_iff, hdiv, hmod, hunset]
      exact Bool.false_ne_true
    · have hmodify : bm.set i (bm.getD i 0 ||| (bm.getD i 0 + 1)) =
          bm.modify i (· ||| BitVec.twoPow 8 ((lowOnes 8 (bm.getD i 0) + i * 8) % 8)) := by
        rw [hor, hmod, modify_eq_set]
        simp only [getD_eq_getElem?_getD]
        rw [getElem?_eq_getElem hlt]
        rfl
      rw [hmodify]
      exact isSetBit_modify_or hlt hdiv

variable {w : World} {call : Call} {log : List (Call × Option ℕ)}

def Small (bm : Bitmap) : Prop := 0 < bm.length ∧ bm.length < 2 ^ 28

theorem numBits_of_small (hsmall : Small bm) : bm.numBits = (bm.length * 8 : ℕ) := by
  have := hsmall.2
  exact Int.bmod_eq_of_le (by omega) (by omega)

theorem ompiIsSetBit_iff (hsmall : Small bm) {i : ℤ} :
    bm.ompiIsSetBit i = 1 ↔ 0 ≤ i ∧ bm.isSetBit i.toNat = true := by
  rw [ompiIsSetBit, isSetBit, numBits_of_small hsmall]
  by_cases hneg : i < 0
  · rw [if_pos (.inl hneg)]
    exact iff_of_false (by decide) fun h => by omega
  · by_cases hge : i ≥ (bm.length * 8 : ℕ)
    · have hout : i.toNat ≥ bm.length * 8 := by omega
      rw [if_pos (.inr hge), if_pos hout]
      exact iff_of_false (by decide) fun h => Bool.false_ne_true h.2
    · have hin : ¬i.toNat / 8 ≥ bm.length := by omega
      have hin' : ¬i.toNat ≥ bm.length * 8 := by omega
      rw [if_neg (not_or.mpr ⟨hneg, hge⟩), if_neg hin, if_neg hin', decide_eq_true_iff]
      split_ifs with hset
      · exact iff_of_true rfl ⟨Int.not_lt.mp hneg, hset⟩
      · exact iff_of_false (by decide) fun h => hset h.2

theorem ompiIsSetBit_of_large (hlength : bm.length = 2 ^ 28) (i : ℤ) : bm.ompiIsSetBit i = errBadParam := by
  have hbits : bm.numBits < 0 := by
    unfold numBits
    rw [hlength]
    decide +kernel
  rw [ompiIsSetBit, if_pos]
  omega

/-- What the call makes of the map keeps its bits countable. -/
def Careful (w : World) : Call → Prop
  | .setBit bit => bit.toNat / 8 < w.bm.length ∨ (bit.toNat / 8 / w.bm.length + 1) * w.bm.length < 2 ^ 28
  | .clearBit _ => True
  | .findAndSetFirstUnsetBit => (∃ byte ∈ w.bm, byte ≠ 0xff) ∨ 2 * w.bm.length < 2 ^ 28

theorem ompiSetBit_isSome (hsmall : Small bm) (hbit : bit ≤ handleMax) : ∃ bm', bm.ompiSetBit bit = some bm' := by
  have hfull : ¬(bit / 8 ≥ bm.length ∧ bm.length ≥ handleMax) := fun h => by
    have := hsmall.2
    rw [handleMax] at h
    omega
  rw [ompiSetBit, if_neg (Nat.not_lt.mpr hbit)]
  exact ⟨_, if_neg hfull⟩

theorem length_ompiSetBit {bm' : Bitmap} (h : bm.ompiSetBit bit = some bm') : bm'.length = bm.length ∨
    bm.length ≤ bit / 8 ∧ bm'.length ≤ (bit / 8 / bm.length + 1) * bm.length := by
  rw [ompiSetBit] at h
  dsimp only at h
  by_cases hbig : bit > handleMax
  · rw [if_pos hbig] at h
    contradiction
  by_cases hfull : bit / 8 ≥ bm.length ∧ bm.length ≥ handleMax
  · rw [if_neg hbig, if_pos hfull] at h
    contradiction
  rw [if_neg hbig, if_neg hfull] at h
  cases h
  rw [length_modify, length_append, length_replicate]
  split_ifs with hge
  · have hle : bm.length ≤ (bit / 8 / bm.length + 1) * bm.length := Nat.le_mul_of_pos_left _ (succ_pos _)
    rcases le_total bm.length handleMax with hmax | hmax
    · exact .inr ⟨hge, by omega⟩
    · exact absurd ⟨hge, hmax⟩ hfull
  · exact .inl (by omega)

theorem below_lowOnes : ∀ b : BitVec 8, ∀ j < lowOnes 8 b, b.getLsbD j = true := by
  decide +kernel

theorem isSetBit_of_full {i : ℕ} (hv : v < i * 8) (hi : i ≤ (bm.takeWhile (· == 0xff)).length) :
    bm.isSetBit v = true := by
  have hlt : v / 8 < (bm.takeWhile (· == 0xff)).length := by omega
  have hprefix := List.takeWhile_prefix (l := bm) (· == (0xff : BitVec 8))
  have hbyte : bm.getD (v / 8) 0 = 0xff := by
    rw [getD_eq_getElem _ _ (lt_of_lt_of_le hlt hprefix.length_le), ← hprefix.getElem hlt]
    simpa using mem_takeWhile_imp (getElem_mem hlt)
  rw [isSetBit_iff, hbyte]
  have hmod : v % 8 < 8 := mod_lt _ (by decide)
  generalize v % 8 = k at hmod
  revert k
  decide

theorem isSetBit_of_lt_find {bm' : Bitmap} {position : ℕ} (h : bm.findAndSetFirstUnsetBit = some (position, bm'))
    (hv : v < position) : bm.isSetBit v = true := by
  rw [findAndSetFirstUnsetBit] at h
  by_cases hfull : (bm.takeWhile (· == 0xff)).length = bm.length
  · rw [if_pos hfull, map_eq_some_iff] at h
    obtain ⟨bm'', -, heq⟩ := h
    obtain ⟨rfl, -⟩ := Prod.mk.inj heq
    exact isSetBit_of_full hv hfull.ge
  · rw [if_neg hfull, Option.some.injEq] at h
    obtain ⟨rfl, -⟩ := Prod.mk.inj h
    by_cases hlt : v < (bm.takeWhile (· == 0xff)).length * 8
    · exact isSetBit_of_full hlt (le_rfl)
    · generalize hi : (bm.takeWhile (· == 0xff)).length = i at hv hlt
      have hstop := getD_length_takeWhile (P := (· == 0xff)) (0 : BitVec 8) bm hfull
      rw [hi] at hstop
      have hlow := (lowOnes_spec (bm.getD i 0) (by simpa using hstop)).1
      have hdiv : v / 8 = i := by omega
      rw [isSetBit_iff, hdiv]
      exact below_lowOnes _ _ (by omega)

theorem find_isSome (hsmall : Small bm) : ∃ position bm', bm.findAndSetFirstUnsetBit = some (position, bm') ∧
    (bm'.length = bm.length ∨ (∀ byte ∈ bm, byte = 0xff) ∧ bm'.length ≤ 2 * bm.length) := by
  have hpos := hsmall.1
  rw [findAndSetFirstUnsetBit]
  by_cases hfull : (bm.takeWhile (· == 0xff)).length = bm.length
  · have hbit : bm.length * 8 ≤ handleMax := by
      have := hsmall.2
      rw [handleMax]
      omega
    obtain ⟨bm', hset⟩ := ompiSetBit_isSome hsmall hbit
    rw [if_pos hfull]
    dsimp only
    rw [hset]
    refine ⟨_, _, rfl, (length_ompiSetBit hset).imp_right fun h => ⟨fun byte hbyte => ?_, ?_⟩⟩
    · rw [← (List.takeWhile_prefix _).eq_of_length hfull] at hbyte
      simpa using mem_takeWhile_imp hbyte
    · rw [Nat.mul_div_cancel _ (by decide), Nat.div_self hpos] at h
      exact h.2
  · rw [if_neg hfull]
    exact ⟨_, _, rfl, .inl (length_set ..)⟩

/-- What every careful call keeps: the numbers that stand are the bits that are set. -/
structure Inv (w : World) : Prop where
  small : Small w.bm
  stands : ∀ i, w.bm.isSetBit i = true ↔ Stands i w.log
  answered : Answered w.log

theorem Inv.setBit (h : Inv w) {i : ℤ} (hcare : Careful w (.setBit i)) : Inv (w.call (.setBit i)) := by
  by_cases hrange : 0 ≤ i ∧ i ≤ handleMax
  · have hbit : i.toNat ≤ handleMax := by omega
    obtain ⟨bm', hset⟩ := ompiSetBit_isSome h.small hbit
    have hcall : w.call (.setBit i) = ⟨bm', (.setBit i, some i.toNat) :: w.log⟩ := by
      simp only [World.call, Call.run, if_neg (Int.not_lt.mpr hrange.1), hset]
    rw [hcall]
    refine ⟨⟨(ompiSetBit_spec (v := 0) h.small.1 hset).1, ?_⟩, fun v => ?_, (if_pos hrange).symm, h.answered⟩
    · have := h.small.2
      rcases length_ompiSetBit hset with hlen | ⟨hge, hle⟩
      · exact hlen ▸ this
      · exact lt_of_le_of_lt hle (hcare.resolve_left (Nat.not_lt.mpr hge))
    · rw [(ompiSetBit_spec h.small.1 hset).2, h.stands, Stands, Option.some.injEq, eq_comm (a := v)]
  · have hcall : w.call (.setBit i) = ⟨w.bm, (.setBit i, none) :: w.log⟩ := by
      by_cases hneg : i < 0
      · simp only [World.call, Call.run, if_pos hneg]
      · have hbig : i.toNat > handleMax := by omega
        simp only [World.call, Call.run, if_neg hneg, ompiSetBit, if_pos hbig]
    rw [hcall]
    exact ⟨h.small, fun v => (h.stands v).trans (by simp [Stands]), (if_neg hrange).symm, h.answered⟩

theorem Inv.clearBit (h : Inv w) (i : ℤ) : Inv (w.call (.clearBit i)) := by
  rw [World.call, Call.run, numBits_of_small h.small]
  split_ifs with hout
  · refine ⟨h.small, fun v => (h.stands v).trans (iff_and_self.mpr ?_), trivial, h.answered⟩
    rintro hv rfl
    have hset := (h.stands v).mpr hv
    rw [isSetBit, if_pos (by omega)] at hset
    exact Bool.false_ne_true hset
  · refine ⟨?_, fun v => ?_, trivial, h.answered⟩
    · rw [Small, length_ompiClearBit]
      exact h.small
    · rw [isSetBit_ompiClearBit, h.stands, Stands]
      exact and_congr_left fun _ => by omega

theorem Inv.findAndSetFirstUnsetBit (h : Inv w) (hcare : Careful w .findAndSetFirstUnsetBit) :
    Inv (w.call .findAndSetFirstUnsetBit) := by
  obtain ⟨position, bm', hfind, hlength⟩ := find_isSome h.small
  obtain ⟨hpos, hunset, hset⟩ := findAndSetFirstUnsetBit_spec h.small.1 hfind
  have hcall : w.call .findAndSetFirstUnsetBit =
      ⟨bm', (.findAndSetFirstUnsetBit, some position) :: w.log⟩ := by
    simp only [World.call, Call.run, hfind]
  rw [hcall]
  refine ⟨⟨hpos, ?_⟩, fun v => ?_, ⟨position, ⟨fun hstands => ?_, fun v hv => ?_⟩, rfl⟩, h.answered⟩
  · have := h.small.2
    rcases hlength with hlen | ⟨hfull, hle⟩
    · exact hlen ▸ this
    · rcases hcare with ⟨byte, hbyte, hne⟩ | hroom
      · exact absurd (hfull byte hbyte) hne
      · exact lt_of_le_of_lt hle hroom
  · rw [hset, h.stands, Stands, Option.some.injEq, eq_comm (a := v)]
  · rw [← h.stands, hunset] at hstands
    exact Bool.false_ne_true hstands
  · by_contra hlt
    exact hv ((h.stands v).mp (isSetBit_of_lt_find hfind (Nat.not_le.mp hlt)))

theorem members_of_run {w₀ w : World} {es : List Call} (hinit : calls.init w₀) (hsmall : w₀.bm.length < 2 ^ 28)
    (hrun : (calls.restrict Careful).Run w₀ es w) : Refines w := by
  have hinv : Inv w := by
    refine hrun.invariant (P := Inv) ?_ ?_
    · rintro w call t h ⟨hcare, rfl⟩
      cases call with
      | setBit i => exact h.setBit hcare
      | clearBit i => exact h.clearBit i
      | findAndSetFirstUnsetBit => exact h.findAndSetFirstUnsetBit hcare
    · obtain ⟨size, hpos, -, rfl⟩ := hinit
      exact ⟨⟨length_init_pos hpos, hsmall⟩, fun i => by simp [isSetBit_init, Stands], trivial⟩
  exact ⟨fun i => (ompiIsSetBit_iff hinv.small).trans (and_congr_right fun _ => hinv.stands _), hinv.answered⟩

theorem members_of_run_grown : Refines (World.call ⟨init 8, []⟩ (.setBit 100)) := by
  have hcare : Careful ⟨init 8, []⟩ (.setBit 100) := Or.inr (by decide)
  exact members_of_run ⟨8, by decide, by decide, rfl⟩ (by decide) (.single ⟨hcare, rfl⟩)

theorem not_members_last : ¬∀ (w₀ w : World) (es : List Call), calls.init w₀ → calls.Run w₀ es w → Refines w := by
  intro hall
  have hrefines := hall _ _ [.setBit 2147483647] ⟨8, by decide, by decide, rfl⟩ (.single rfl)
  have hset : (init 8).ompiSetBit 2147483647 = some ((init 8 ++ List.replicate 268435455 0).modify 268435455
      (· ||| BitVec.twoPow 8 7)) := rfl
  have hcall : World.call ⟨init 8, []⟩ (.setBit 2147483647) =
      ⟨(init 8 ++ List.replicate 268435455 0).modify 268435455 (· ||| BitVec.twoPow 8 7),
        [(.setBit 2147483647, some 2147483647)]⟩ := by
    have hneg : ¬(2147483647 : ℤ) < 0 := by decide
    have hnat : (2147483647 : ℤ).toNat = 2147483647 := rfl
    simp only [World.call, Call.run, if_neg hneg, hnat, hset]
  rw [hcall] at hrefines
  have hone := (hrefines.1 2147483647).mpr ⟨by decide, .inl rfl⟩
  rw [ompiIsSetBit_of_large ?_] at hone
  · exact absurd hone (by decide)
  · rw [length_modify, length_append, length_replicate]
    rfl

end OpenMPI.Class.Bitmap
