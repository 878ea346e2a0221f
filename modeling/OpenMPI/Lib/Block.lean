import Mathlib.Tactic.Ring
import Mathlib.Tactic.Linarith

/-!
# Arrays in blocks of memory

An array of elements begins some bytes off the block of memory that was asked for it.  A run asks for
blocks and touches elements; it is safe if every byte it touches lies in the block.
-/

namespace OpenMPI.Lib

open List

variable {β : Type*}

/-- What there is when a block is asked for: there is memory for every size that is not negative; a negative
one is too large when it is taken as a `size_t`. -/
def granted (size : ℤ) : Option ℤ := if 0 ≤ size then some size else none

/-- The bytes of an element, their bounds, and the distance from one element to the next. -/
structure Layout where
  bytes : List ℤ
  lb : ℤ
  extent : ℤ
  trueLb : ℤ
  trueExtent : ℤ
  least : bytes ≠ [] → IsLeast {b | b ∈ bytes} trueLb
  greatest : bytes ≠ [] → IsGreatest {b | b ∈ bytes} (trueLb + trueExtent - 1)

/-- `count` elements from element `first` on, of an array that begins `off` bytes off its block. -/
structure Touch (β : Type*) where
  buf : β
  off : ℤ
  first : ℕ
  count : ℕ

namespace Layout

variable (d : Layout)

def touched (t : Touch β) : List ℤ :=
  (List.range t.count).flatMap fun j => d.bytes.map fun b => t.off + (t.first + j : ℕ) * d.extent + b

/-- Every byte touched is in the block, of which the size is known. -/
def Inside (blocks : β → Option ℤ) (t : Touch β) : Prop :=
  ∀ x ∈ d.touched t, ∃ size ∈ blocks t.buf, 0 ≤ x ∧ x < size

def Within (blocks : β → Option ℤ) (ts : List (Touch β)) : Prop := ∀ t ∈ ts, d.Inside blocks t

def span (n : ℕ) : ℤ := d.trueExtent + (n - 1) * d.extent

/-- Element `j` of an array `off` bytes off lies in a block of `size` bytes. -/
def Room (off size : ℤ) (j : ℕ) : Prop :=
  d.bytes ≠ [] → 0 ≤ off + j * d.extent + d.trueLb ∧
    off + j * d.extent + d.trueLb + d.trueExtent ≤ size

/-- The true lower bound of the first element is the beginning of the block, and the others come
after it. -/
def Fits (off : ℤ) (n : ℕ) : Prop :=
  d.bytes = [] ∨ n = 0 ∨ off + d.trueLb = 0 ∧ (0 ≤ d.extent ∨ n = 1)

instance (off : ℤ) (n : ℕ) : Decidable (d.Fits off n) := inferInstanceAs (Decidable (_ ∨ _))

variable {d} {blocks : β → Option ℤ} {t : Touch β} {b : β} {off size : ℤ} {first count n : ℕ}

theorem mem_touched {x : ℤ} :
    x ∈ d.touched t ↔
      ∃ j, t.first ≤ j ∧ j < t.first + t.count ∧ ∃ b ∈ d.bytes, t.off + j * d.extent + b = x := by
  simp only [touched, mem_flatMap, mem_range, mem_map]
  constructor
  · rintro ⟨j, hj, b, hb, rfl⟩
    exact ⟨t.first + j, Nat.le_add_right .., Nat.add_lt_add_left hj _, b, hb, rfl⟩
  · rintro ⟨j, hle, hlt, b, hb, rfl⟩
    refine ⟨j - t.first, by omega, b, hb, ?_⟩
    rw [Nat.add_sub_cancel' hle]

theorem trueExtent_pos (hne : d.bytes ≠ []) : 0 < d.trueExtent := by
  have := (d.greatest hne).2 (d.least hne).1
  omega

theorem inside_iff_room (hb : blocks t.buf = some size) :
    d.Inside blocks t ↔ ∀ j, t.first ≤ j → j < t.first + t.count → d.Room t.off size j := by
  constructor
  · intro h j hle hlt hne
    obtain ⟨hmin, -⟩ := d.least hne
    obtain ⟨hmax, -⟩ := d.greatest hne
    obtain ⟨s, hs, hlow, -⟩ := h _ (mem_touched.mpr ⟨j, hle, hlt, _, hmin, rfl⟩)
    obtain ⟨s', hs', -, hhigh⟩ := h _ (mem_touched.mpr ⟨j, hle, hlt, _, hmax, rfl⟩)
    simp only [hb, Option.mem_def, Option.some.injEq] at hs'
    omega
  · intro h x hx
    obtain ⟨j, hle, hlt, b, hmem, rfl⟩ := mem_touched.mp hx
    have hne : d.bytes ≠ [] := ne_nil_of_mem hmem
    have hlow : d.trueLb ≤ b := (d.least hne).2 hmem
    have hhigh : b ≤ d.trueLb + d.trueExtent - 1 := (d.greatest hne).2 hmem
    obtain ⟨h0, h1⟩ := h j hle hlt hne
    exact ⟨size, hb, by omega, by omega⟩

theorem inside_of_empty (h : d.bytes = [] ∨ t.count = 0) : d.Inside blocks t := by
  intro x hx
  obtain ⟨j, hle, hlt, b, hmem, -⟩ := mem_touched.mp hx
  rcases h with h | h
  · simp [h] at hmem
  · omega

theorem within_nil : d.Within blocks [] := fun _ ht => absurd ht not_mem_nil

theorem within_append {ts ts' : List (Touch β)} :
    d.Within blocks (ts ++ ts') ↔ d.Within blocks ts ∧ d.Within blocks ts' := forall_mem_append

theorem Within.append {ts ts' : List (Touch β)} (h : d.Within blocks ts) (h' : d.Within blocks ts') :
    d.Within blocks (ts ++ ts') := within_append.mpr ⟨h, h'⟩

theorem Within.ite {c : Prop} [Decidable c] {ts ts' : List (Touch β)} (h : c → d.Within blocks ts)
    (h' : ¬c → d.Within blocks ts') : d.Within blocks (if c then ts else ts') := by
  split_ifs with hc
  · exact h hc
  · exact h' hc

theorem Within.flatMap {ι : Type*} {l : List ι} {f : ι → List (Touch β)}
    (h : ∀ i ∈ l, d.Within blocks (f i)) : d.Within blocks (l.flatMap f) := by
  intro t ht
  obtain ⟨i, hi, hmem⟩ := mem_flatMap.mp ht
  exact h i hi t hmem

theorem Fits.room (h : d.Fits off n) {j : ℕ} (hj : j < n) : d.Room off (d.span n) j := by
  intro hne
  rcases h with h | h | ⟨hoff, hext⟩
  · exact absurd h hne
  · omega
  · have hlow : 0 ≤ (j : ℤ) * d.extent := by
      rcases hext with hext | rfl
      · exact Int.mul_nonneg (Int.natCast_nonneg j) hext
      · simp [show j = 0 by omega]
    have hhigh : (j : ℤ) * d.extent ≤ (n - 1) * d.extent := by
      rcases hext with hext | rfl
      · exact Int.mul_le_mul_of_nonneg_right (by omega) hext
      · simp [show j = 0 by omega]
    constructor
    · linarith
    · rw [span]
      linarith

theorem fits_of_room (h0 : d.Room off (d.span n) 0) (h1 : d.Room off (d.span n) (n - 1)) :
    d.Fits off n := by
  by_cases hne : d.bytes = []
  · exact .inl hne
  rcases Nat.eq_zero_or_pos n with rfl | hpos
  · exact .inr (.inl rfl)
  obtain ⟨hlow, hhigh⟩ := h0 hne
  obtain ⟨hlow', hhigh'⟩ := h1 hne
  rw [Nat.cast_sub hpos, Nat.cast_one] at hlow' hhigh'
  rw [span] at hhigh hhigh'
  rw [Nat.cast_zero, zero_mul, add_zero] at hlow hhigh
  have hoff : off + d.trueLb = 0 := by linarith
  refine .inr (.inr ⟨hoff, ?_⟩)
  by_contra hneg
  have hext : d.extent < 0 := by omega
  have hn : (0 : ℤ) < n - 1 := by omega
  have hprod : ((n : ℤ) - 1) * d.extent < 0 := mul_neg_of_pos_of_neg hn hext
  linarith

theorem Fits.mono {m : ℕ} (h : d.Fits off n) (hmn : m ≤ n) : d.Fits off m := by
  rcases h with h | rfl | ⟨hoff, hext⟩
  · exact .inl h
  · exact .inr (.inl (by omega))
  · rcases Nat.eq_zero_or_pos m with rfl | hpos
    · exact .inr (.inl rfl)
    · exact .inr (.inr ⟨hoff, hext.imp_right fun hn => by omega⟩)

theorem Fits.inside (h : d.Fits off n) (hb : blocks b = some (d.span n)) (hle : first + count ≤ n) :
    d.Inside blocks ⟨b, off, first, count⟩ :=
  (inside_iff_room hb).mpr fun _ _ hj => h.room (lt_of_lt_of_le hj hle)

theorem inside_all_iff (hb : blocks b = some (d.span n)) :
    d.Inside blocks ⟨b, off, 0, n⟩ ↔ d.Fits off n := by
  refine ⟨fun h => ?_, fun h => h.inside hb (by omega)⟩
  rcases Nat.eq_zero_or_pos n with rfl | hpos
  · exact .inr (.inl rfl)
  rw [inside_iff_room hb] at h
  exact fits_of_room (h 0 (by simp) (by simpa using hpos)) (h (n - 1) (by simp) (by simp; omega))

theorem span_nonneg_of_le {m : ℕ} (hne : d.bytes ≠ []) (hpos : 0 < m) (hmn : m ≤ n) (h : 0 ≤ d.span n) :
    0 ≤ d.span m := by
  have htrue := trueExtent_pos hne
  unfold span at *
  rcases le_total 0 d.extent with hext | hext
  · have : 0 ≤ ((m : ℤ) - 1) * d.extent := Int.mul_nonneg (by omega) hext
    omega
  · have : ((n : ℤ) - 1) * d.extent ≤ (m - 1) * d.extent := Int.mul_le_mul_of_nonpos_right (by omega) hext
    omega

theorem Fits.span_nonneg (h : d.Fits off n) (hne : d.bytes ≠ []) (hpos : 0 < n) : 0 ≤ d.span n := by
  obtain ⟨h0, h1⟩ := h.room hpos hne
  have := trueExtent_pos hne
  linarith

theorem Fits.inside_granted (h : d.Fits off n) (hb : blocks b = granted (d.span n))
    (hle : first + count ≤ n) : d.Inside blocks ⟨b, off, first, count⟩ := by
  by_cases hne : d.bytes = []
  · exact inside_of_empty (.inl hne)
  rcases Nat.eq_zero_or_pos n with rfl | hpos
  · exact inside_of_empty (.inr (Nat.le_zero.mp (le_trans (Nat.le_add_left ..) hle)))
  · exact h.inside (by rw [hb, granted, if_pos (h.span_nonneg hne hpos)]) hle

theorem inside_all_granted_iff (hb : blocks b = granted (d.span n)) :
    d.Inside blocks ⟨b, off, 0, n⟩ ↔ d.Fits off n := by
  by_cases hspan : 0 ≤ d.span n
  · exact inside_all_iff (by rw [hb, granted, if_pos hspan])
  refine ⟨fun h => ?_, fun h => h.inside_granted hb (by omega)⟩
  by_cases hne : d.bytes = []
  · exact .inl hne
  rcases Nat.eq_zero_or_pos n with rfl | hpos
  · exact .inr (.inl rfl)
  have hfirst := mem_touched (d := d) (t := ⟨b, off, 0, n⟩) |>.mpr
    ⟨0, by simp, by simpa using hpos, _, (d.least hne).1, rfl⟩
  obtain ⟨size, hsize, -⟩ := h _ hfirst
  simp [hb, granted, hspan] at hsize

end Layout

/-- What a run does: it asks for a block, and gives up if it gets none, or does not look whether it
got one; or it touches elements. -/
inductive MemOp (β : Type*)
  | malloc (b : β) (size : ℤ)
  | mallocUnchecked (b : β) (size : ℤ)
  | touch (ts : List (Touch β))

namespace MemOp

def Allocates (b : β) : MemOp β → Prop
  | malloc b' _ => b' = b
  | mallocUnchecked b' _ => b' = b
  | touch _ => False

/-- The run does not give up here. -/
def Granted : MemOp β → Prop
  | malloc _ size => 0 ≤ size
  | mallocUnchecked _ _ => True
  | touch _ => True

end MemOp

open Function (update)

/-- The blocks when a run ends that did not give up. -/
def after [DecidableEq β] : (β → Option ℤ) → List (MemOp β) → Option (β → Option ℤ)
  | blocks, [] => some blocks
  | blocks, .malloc b size :: rest => if 0 ≤ size then after (update blocks b (some size)) rest else none
  | blocks, .mallocUnchecked b size :: rest => after (update blocks b (granted size)) rest
  | blocks, .touch _ :: rest => after blocks rest

variable [DecidableEq β] (d : Layout)

/-- Every byte that is touched lies in its block. -/
def Safe : (β → Option ℤ) → List (MemOp β) → Prop
  | _, [] => True
  | blocks, .malloc b size :: rest => 0 ≤ size → Safe (update blocks b (some size)) rest
  | blocks, .mallocUnchecked b size :: rest => Safe (update blocks b (granted size)) rest
  | blocks, .touch ts :: rest => d.Within blocks ts ∧ Safe blocks rest

variable {d} {blocks : β → Option ℤ} {b : β} {size : ℤ} {ops ops' : List (MemOp β)}

theorem safe_nil : Safe d blocks [] := trivial

@[simp] theorem safe_malloc :
    Safe d blocks (.malloc b size :: ops) ↔ (0 ≤ size → Safe d (update blocks b (some size)) ops) :=
  Iff.rfl

@[simp] theorem safe_mallocUnchecked :
    Safe d blocks (.mallocUnchecked b size :: ops) ↔ Safe d (update blocks b (granted size)) ops :=
  Iff.rfl

@[simp] theorem safe_touch {ts : List (Touch β)} :
    Safe d blocks (.touch ts :: ops) ↔ d.Within blocks ts ∧ Safe d blocks ops :=
  Iff.rfl

theorem safe_ite_malloc {c : Prop} [Decidable c] :
    Safe d blocks ((if c then [.malloc b size] else []) ++ ops) ↔
      ((c → 0 ≤ size) → Safe d (if c then update blocks b (some size) else blocks) ops) := by
  by_cases hc : c <;> simp [hc]

theorem safe_append :
    Safe d blocks (ops ++ ops') ↔
      Safe d blocks ops ∧ ∀ blocks' ∈ after blocks ops, Safe d blocks' ops' := by
  induction ops generalizing blocks with
  | nil => simp [Safe, after]
  | cons op ops ih =>
    cases op with
    | malloc b size =>
      by_cases h : 0 ≤ size
      · simp [after, h, ih]
      · simp [after, h]
    | mallocUnchecked b size => simp [after, ih]
    | touch ts => simp [after, ih, and_assoc]

theorem after_of_not_allocates {blocks' : β → Option ℤ} (h : ∀ op ∈ ops, ¬ op.Allocates b)
    (hafter : after blocks ops = some blocks') : blocks' b = blocks b := by
  induction ops generalizing blocks with
  | nil =>
    cases hafter
    rfl
  | cons op ops ih =>
    obtain ⟨hop, hops⟩ := forall_mem_cons.mp h
    cases op with
    | malloc b' size =>
      rw [after] at hafter
      split_ifs at hafter
      rw [ih hops hafter, Function.update_of_ne (Ne.symm hop)]
    | mallocUnchecked b' size =>
      rw [ih hops hafter, Function.update_of_ne (Ne.symm hop)]
    | touch ts => exact ih hops hafter

theorem exists_after (h : ∀ op ∈ ops, op.Granted) : ∃ blocks', after blocks ops = some blocks' := by
  induction ops generalizing blocks with
  | nil => exact ⟨blocks, rfl⟩
  | cons op ops ih =>
    obtain ⟨hop, hops⟩ := forall_mem_cons.mp h
    cases op with
    | malloc b' size =>
      have hsize : 0 ≤ size := hop
      rw [after, if_pos hsize]
      exact ih hops
    | mallocUnchecked b' size => exact ih hops
    | touch ts => exact ih hops

end OpenMPI.Lib
