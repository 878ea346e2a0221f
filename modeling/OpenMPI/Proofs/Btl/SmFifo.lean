import Mathlib.Data.Nat.Bitwise
import Mathlib.Tactic.Linarith
import Mathlib.Tactic.Ring
import OpenMPI.Btl.SmFifo
import OpenMPI.Lib.RingQueue

/-!
# A queue in shared memory loses and repeats nothing

The queue is a ring (`FifoInv`): of what was written, `c` values are cleared, `r` are read or being read, and
`numToClear` is the difference.  It stays below the size of the ring between two reads if `lazy_free` is not
above it, as it is except for a negative `fifo_size` (`sound_iff`).
-/

namespace OpenMPI.Btl

open Lib List

variable {ι α : Type*}

theorem masked_of_dvd {i : ℤ} {n k : ℕ} (hk : k ≤ 32) (h : (2 ^ k : ℤ) ∣ i - n) :
    masked i (2 ^ k - 1) = n % 2 ^ k := by
  have hword : ((2 : ℤ) ^ k) ∣ 2 ^ 32 := pow_dvd_pow 2 hk
  have hmod : i % 2 ^ k = n % 2 ^ k := by
    rw [Int.emod_eq_emod_iff_emod_sub_eq_zero]
    exact Int.emod_eq_zero_of_dvd h
  have hnonneg : 0 ≤ i % 2 ^ 32 := Int.emod_nonneg _ (by decide)
  rw [masked, Nat.and_two_pow_sub_one_eq_mod, ← Int.natCast_inj, Int.natCast_mod, Int.toNat_of_nonneg hnonneg]
  rw [Nat.cast_pow, Nat.cast_ofNat, Int.emod_emod_of_dvd _ hword, hmod, Int.natCast_mod, Nat.cast_pow, Nat.cast_ofNat]

theorem masked_succ {n k : ℕ} (hk : k ≤ 32) :
    masked ((n % 2 ^ k : ℕ) + 1) (2 ^ k - 1) = (n + 1) % 2 ^ k := by
  refine masked_of_dvd hk ⟨-(n / 2 ^ k : ℕ), ?_⟩
  have hdiv := Nat.div_add_mod n (2 ^ k)
  zify at hdiv
  push_cast
  linarith

theorem masked_sub {n c k : ℕ} (hk : k ≤ 32) :
    masked ((n % 2 ^ k : ℕ) - (n - c : ℤ)) (2 ^ k - 1) = c % 2 ^ k := by
  refine masked_of_dvd hk ⟨-(n / 2 ^ k : ℕ), ?_⟩
  have hdiv := Nat.div_add_mod n (2 ^ k)
  zify at hdiv
  push_cast
  linarith

theorem qsizeLoop_of_le {fifoSize : ℤ} (hsize : fifoSize ≤ 2 ^ 30) :
    ∀ fuel k : ℕ, k ≤ 30 → 31 ≤ fuel + k →
      ∃ m ≤ 30, qsizeLoop fifoSize fuel (2 ^ k) = some (2 ^ m) ∧ fifoSize ≤ 2 ^ m
  | 0, k, hk, hfuel => by omega
  | fuel + 1, k, hk, hfuel => by
    rw [qsizeLoop]
    split_ifs with hlt hfits
    · have hne : k ≠ 30 := by
        rintro rfl
        push_cast at hlt
        omega
      rw [← Nat.pow_succ']
      exact qsizeLoop_of_le hsize fuel (k + 1) (by omega) (by omega)
    · refine absurd ?_ hfits
      rw [← Nat.pow_succ']
      have hne : k ≠ 30 := by
        rintro rfl
        push_cast at hlt
        omega
      exact Nat.pow_lt_pow_right (by decide) (by omega)
    · refine ⟨k, hk, rfl, ?_⟩
      push_cast at hlt
      omega

theorem qsizeLoop_of_lt {fifoSize : ℤ} (hsize : 2 ^ 30 < fifoSize) :
    ∀ fuel k : ℕ, k ≤ 30 → qsizeLoop fifoSize fuel (2 ^ k) = none
  | 0, _, _ => rfl
  | fuel + 1, k, hk => by
    have hpow : 2 ^ k ≤ 2 ^ 30 := Nat.pow_le_pow_right (by decide) hk
    rw [qsizeLoop, if_pos (by omega)]
    split_ifs with hfits
    · rw [← Nat.pow_succ'] at hfits ⊢
      have hk' : k + 1 < 31 := (Nat.pow_lt_pow_iff_right (by decide)).mp hfits
      exact qsizeLoop_of_lt hsize fuel (k + 1) (by omega)
    · rfl

theorem int32_size64 {n : ℤ} (h : -2 ^ 31 ≤ n ∧ n < 2 ^ 31) : int32 (size64 n) = n := by
  rw [int32, size64, Int.bmod_def]
  omega

namespace FifoParams

variable {p : FifoParams}

theorem lazyFree_le (h : p.Fits) : int32 p.lazyFree ≤ 1 ∨ 2 * int32 p.lazyFree ≤ p.fifoSize := by
  have hsize := p.size_int
  have hlazy := p.lazy_int
  rw [int32, Int.bmod_def, lazyFree]
  rw [size64, size64, Nat.shiftRight_eq_div_pow]
  unfold Fits at h
  split_ifs <;> omega

theorem lazyFree_of_neg (hsize : p.fifoSize < 0) (hlazy : 1 < p.fifoLazyFree) :
    int32 p.lazyFree = p.fifoLazyFree := by
  have hint := p.size_int
  have hint' := p.lazy_int
  rw [int32, Int.bmod_def, lazyFree]
  rw [size64, size64, Nat.shiftRight_eq_div_pow]
  split_ifs <;> omega

end FifoParams

/-- The queue is a ring of size `2 ^ k` where `c` values are cleared and `r` are read or being read. -/
structure FifoInv (k : ℕ) (lazyFree : ℤ) (s : FifoState α) (c r : ℕ) : Prop where
  mask : s.fifo.mask = 2 ^ k - 1
  lazy : s.fifo.lazyFree = lazyFree
  holds : Queued (2 ^ k) s.fifo.queue s.written c
  cleared : c ≤ r
  taken : r ≤ s.written.length
  fits : s.written.length ≤ c + 2 ^ k
  head : s.fifo.head = s.written.length % 2 ^ k
  tail : s.fifo.tail = r % 2 ^ k
  count : s.fifo.numToClear = r - c
  out : s.reader = .out → s.read = s.written.take r ∧ ((r : ℤ) - c < lazyFree ∨ r = c)
  clearing : ∀ value i, s.reader = .clearing value i →
    s.read ++ [value] = s.written.take r ∧ i = c % 2 ^ k

namespace FifoInv

variable {k c r : ℕ} {lazyFree : ℤ} {s : FifoState α}

theorem write (hk : k ≤ 30) (h : FifoInv k lazyFree s c r) (value : α) :
    FifoInv k lazyFree (s.write value) c r := by
  have hpos : 0 < 2 ^ k := Nat.two_pow_pos k
  have hc : c ≤ s.written.length := h.cleared.trans h.taken
  rw [FifoState.write, fifoWrite, h.head]
  cases hslot : s.fifo.queue (s.written.length % 2 ^ k) with
  | some v => exact h
  | none =>
    have hlt : s.written.length < c + 2 ^ k := (h.holds.free_iff hpos hc h.fits).mp hslot
    have htake : (s.written ++ [value]).take r = s.written.take r := take_append_of_le_length h.taken
    exact { h with
      holds := h.holds.push hc hlt value
      taken := by simpa using h.taken.trans (Nat.le_succ _)
      fits := by rwa [length_append]
      head := by
        dsimp only
        rw [h.mask, masked_succ (by omega), length_append, length_singleton]
      out := fun hout => by
        dsimp only
        rw [htake]
        exact h.out hout
      clearing := fun v i hclearing => by
        dsimp only
        rw [htake]
        exact h.clearing v i hclearing }

theorem enterRead (hk : k ≤ 30) (hlazy : lazyFree ≤ (2 ^ k : ℕ)) (h : FifoInv k lazyFree s c r)
    (hout : s.reader = .out) : ∃ r', FifoInv k lazyFree s.enterRead c r' := by
  obtain ⟨hread, hcount⟩ := h.out hout
  have hpos : 0 < 2 ^ k := Nat.two_pow_pos k
  have hslot := h.holds r h.cleared (by omega)
  rw [FifoState.enterRead, h.tail, hslot]
  cases hitem : s.written[r]? with
  | none => exact ⟨r, h⟩
  | some value =>
    obtain ⟨hr, hvalue⟩ := List.getElem?_eq_some_iff.mp hitem
    have htake : s.read ++ [value] = s.written.take (r + 1) := by
      rw [hread, take_add_one, hitem]
      rfl
    have htail : masked ((r % 2 ^ k : ℕ) + 1) s.fifo.mask = (r + 1) % 2 ^ k := by
      rw [h.mask, masked_succ (by omega)]
    have hcount' : s.fifo.numToClear + 1 = ((r + 1 : ℕ) : ℤ) - c := by
      rw [h.count]
      push_cast
      ring
    refine ⟨r + 1, ?_⟩
    dsimp only
    split_ifs with hge
    · exact { h with
        cleared := by have := h.cleared; omega
        taken := hr
        tail := htail
        count := hcount'
        out := nofun
        clearing := fun v i hclearing => by
          cases hclearing
          refine ⟨htake, ?_⟩
          rw [htail, hcount', h.mask, masked_sub (by omega)] }
    · exact { h with
        cleared := by have := h.cleared; omega
        taken := hr
        tail := htail
        count := hcount'
        out := fun _ => ⟨htake, by rw [h.lazy] at hge; omega⟩
        clearing := fun v i hclearing => by rw [hout] at hclearing; cases hclearing }

theorem clear (hk : k ≤ 30) (h : FifoInv k lazyFree s c r) {value : α} {i : ℕ}
    (hclearing : s.reader = .clearing value i) : ∃ c', FifoInv k lazyFree (s.clear value i) c' r := by
  obtain ⟨hread, rfl⟩ := h.clearing value i hclearing
  have hcount := h.count
  have hcleared := h.cleared
  rw [FifoState.clear]
  split_ifs with hpos
  · refine ⟨c + 1, ?_⟩
    exact { h with
      holds := h.holds.clear h.fits
      cleared := by omega
      fits := by have := h.fits; dsimp only; omega
      count := by dsimp only; push_cast; omega
      out := nofun
      clearing := fun v i hclearing => by
        cases hclearing
        refine ⟨hread, ?_⟩
        rw [h.mask, masked_succ (by omega)] }
  · refine ⟨c, ?_⟩
    exact { h with
      out := fun _ => ⟨hread, by omega⟩
      clearing := nofun }

theorem step (hk : k ≤ 30) (hlazy : lazyFree ≤ (2 ^ k : ℕ)) (h : FifoInv k lazyFree s c r) {e : FifoStep ι α}
    {s' : FifoState α} (hs : s.step e s') : ∃ c' r', FifoInv k lazyFree s' c' r' := by
  cases e with
  | write writer value =>
    obtain rfl := hs
    exact ⟨c, r, h.write hk value⟩
  | read =>
    obtain ⟨hout, rfl⟩ := hs
    exact ⟨c, h.enterRead hk hlazy hout⟩
  | clear =>
    obtain ⟨value, i, hclearing, rfl⟩ := hs
    obtain ⟨c', h'⟩ := h.clear hk hclearing
    exact ⟨c', r, h'⟩

theorem fifoWrite_eq_none (h : FifoInv k lazyFree s c r) {value : α} (hw : fifoWrite value s.fifo = none) :
    s.written.length = c + 2 ^ k := by
  have hne : s.fifo.queue s.fifo.head ≠ none := by
    intro hfree
    rw [fifoWrite, hfree] at hw
    cases hw
  rw [h.head] at hne
  have hiff := h.holds.free_iff (Nat.two_pow_pos k) (h.cleared.trans h.taken) h.fits
  have := h.fits
  have : ¬s.written.length < c + 2 ^ k := fun hlt => hne (hiff.mpr hlt)
  omega

theorem right (hlazy : lazyFree ≤ (2 ^ k : ℕ)) (h : FifoInv k lazyFree s c r) : s.Right where
  ordered := by
    cases hreader : s.reader with
    | out =>
      rw [(h.out hreader).1]
      exact take_prefix _ _
    | clearing value i =>
      have hpre : s.read ++ [value] <+: s.written := by
        rw [(h.clearing value i hreader).1]
        exact take_prefix _ _
      exact (prefix_append _ _).trans hpre
  refused value hw i hi := by
    rw [h.mask] at hi
    have := Nat.two_pow_pos k
    exact h.holds.full (h.fifoWrite_eq_none hw) (by omega)
  accepted hall value hw := by
    have hfull := h.fifoWrite_eq_none hw
    have hpos := Nat.two_pow_pos k
    cases hreader : s.reader with
    | out =>
      obtain ⟨hread, hcount⟩ := h.out hreader
      rw [hall] at hread
      have hlength := congrArg List.length hread
      rw [length_take] at hlength
      omega
    | clearing v i =>
      have hread := (h.clearing v i hreader).1
      have hlength := congrArg List.length hread
      rw [hall, length_append, length_singleton, length_take] at hlength
      omega

end FifoInv

namespace FifoParams

variable {p : FifoParams}

theorem fifoInit_of_fits (h : p.Fits) : ∃ k ≤ 30,
    (fifoInit (int32 (size64 p.fifoSize)) (int32 p.lazyFree) : Option (Fifo α)) =
      some ⟨fun _ => none, 0, 2 ^ k - 1, 0, 0, int32 p.lazyFree⟩ ∧ int32 p.lazyFree ≤ (2 ^ k : ℕ) := by
  have hsize : p.fifoSize ≤ 2 ^ 30 := by
    rcases h with ⟨_, hle⟩ | ⟨hneg, _⟩ <;> omega
  obtain ⟨k, hk, hloop, hle⟩ := qsizeLoop_of_le hsize 32 0 (by omega) (by omega)
  refine ⟨k, hk, ?_, ?_⟩
  · rw [fifoInit, int32_size64 p.size_int, ← pow_zero 2, hloop]
    rfl
  · have hpos := Nat.two_pow_pos k
    push_cast at hpos ⊢
    rcases lazyFree_le h with hone | hhalf
    · exact hone.trans (by exact_mod_cast hpos)
    · have : (0 : ℤ) < 2 ^ k := by exact_mod_cast hpos
      omega

theorem sound_of_fits (h : p.Fits) : p.Sound ι α := by
  obtain ⟨k, hk, hinit, hlazy⟩ := p.fifoInit_of_fits (α := α) h
  refine ⟨⟨⟨_, .out, [], []⟩, hinit, rfl, rfl, rfl⟩, fun s hs => ?_⟩
  suffices hinv : ∃ c r, FifoInv k (int32 p.lazyFree) s c r by
    obtain ⟨c, r, hinv⟩ := hinv
    exact hinv.right hlazy
  refine System.Reachable.invariant (P := fun s => ∃ c r, FifoInv k (int32 p.lazyFree) s c r)
    (fun s₀ h₀ => ?_) (fun s₁ e s₂ hinv hstep => ?_) hs
  · obtain ⟨hfifo, hout, hwritten, hread⟩ := h₀
    rw [hinit] at hfifo
    cases s₀
    cases hfifo
    cases hout
    cases hwritten
    cases hread
    refine ⟨0, 0, ⟨rfl, ?_, .nil, Nat.le_refl 0, Nat.le_refl 0, Nat.zero_le _, ?_, ?_, rfl, fun _ => ?_, nofun⟩⟩
    · dsimp only
    · exact (Nat.zero_mod _).symm
    · exact (Nat.zero_mod _).symm
    · exact ⟨rfl, .inr rfl⟩
  · obtain ⟨c, r, hinv⟩ := hinv
    exact hinv.step hk hlazy hstep

theorem not_sound_of_neg [Inhabited ι] [Inhabited α] (hsize : p.fifoSize < 0) (hlazy : 1 < p.fifoLazyFree) :
    ¬p.Sound ι α := by
  intro hsound
  have hlazy' : ¬(1 : ℤ) ≥ int32 p.lazyFree := by
    rw [lazyFree_of_neg hsize hlazy]
    omega
  have hinit : (fifoInit (int32 (size64 p.fifoSize)) (int32 p.lazyFree) : Option (Fifo α)) =
      some ⟨fun _ => none, 0, 0, 0, 0, int32 p.lazyFree⟩ := by
    rw [fifoInit, int32_size64 p.size_int, qsizeLoop, if_neg (by push_cast; omega)]
    rfl
  let s (num : ℤ) (read : List α) : FifoState α :=
    ⟨⟨Function.update (fun _ => none) 0 (some default), 0, 0, 0, num, int32 p.lazyFree⟩, .out, [default], read⟩
  have hwrite : (p.system ι α).step ⟨⟨fun _ => none, 0, 0, 0, 0, int32 p.lazyFree⟩, .out, [], []⟩
      (.write default default) (s 0 []) := by
    simp [s, system, FifoState.step, FifoState.write, fifoWrite, masked]
  have hread : (p.system ι α).step (s 0 []) .read (s 1 [default]) := by
    refine ⟨rfl, ?_⟩
    simp [s, FifoState.enterRead, masked, hlazy']
  have hrun := ((System.Run.nil _).snoc hwrite).snoc hread
  have hright := hsound.2 _ ⟨_, _, ⟨hinit, rfl, rfl, rfl⟩, hrun⟩
  refine hright.accepted rfl default ?_
  simp [s, fifoWrite]

/-- Nothing is lost or repeated, a write is refused only when all slots are in use, and none when all was read,
if and only if the size is one that a doubling reaches, and a negative one comes with clearing at once. -/
theorem sound_iff [Inhabited ι] [Inhabited α] (p : FifoParams) : p.Sound ι α ↔ p.Fits := by
  refine ⟨fun hsound => ?_, sound_of_fits⟩
  by_contra hfits
  rw [Fits] at hfits
  by_cases hneg : p.fifoSize < 0
  · exact not_sound_of_neg hneg (by omega) hsound
  · obtain ⟨s, hinit, _⟩ := hsound.1
    have hloop : qsizeLoop p.fifoSize 32 (2 ^ 0) = none := qsizeLoop_of_lt (by omega) 32 0 (by omega)
    rw [fifoInit, int32_size64 p.size_int, ← pow_zero 2, hloop] at hinit
    cases hinit

theorem not_sound_minus_one : ∃ p : FifoParams, p.fifoSize = -1 ∧ p.fifoLazyFree = 120 ∧
    ¬p.Sound (Fin 2) UInt64 :=
  ⟨⟨-1, 120, by decide, by decide⟩, rfl, rfl, not_sound_of_neg (by decide) (by decide)⟩

end FifoParams

end OpenMPI.Btl
