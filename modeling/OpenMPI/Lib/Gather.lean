import Mathlib.Data.List.Nodup
import OpenMPI.Lib.Strided

/-!
# Reading and writing byte by byte

A memory from addresses to bytes; what is read from or written to a sequence of addresses, in which
an address may come again (`scatter_gather`).
-/

namespace OpenMPI.Lib

open List Function

variable {β : Type*} {mem mem' : ℤ → β} {as as' : List ℤ} {bs bs' : List β} {a : ℤ}

def gather (mem : ℤ → β) (as : List ℤ) : List β := as.map mem

/-- Bytes are written to some addresses, as far as there are both. -/
def scatter (mem : ℤ → β) : List ℤ → List β → ℤ → β
  | a :: as, b :: bs => scatter (Function.update mem a b) as bs
  | _, _ => mem

@[simp] theorem scatter_nil_left : scatter mem [] bs = mem := by
  cases bs <;> rfl

@[simp] theorem scatter_nil_right : scatter mem as [] = mem := by
  cases as <;> rfl

@[simp] theorem scatter_cons {b : β} :
    scatter mem (a :: as) (b :: bs) = scatter (Function.update mem a b) as bs := rfl

@[simp] theorem length_gather : (gather mem as).length = as.length := length_map _

theorem scatter_take_comm {k : ℕ} : scatter mem (as.take k) bs = scatter mem as (bs.take k) := by
  induction k generalizing mem as bs with
  | zero => simp
  | succ k ih => cases as <;> cases bs <;> simp [ih]

theorem scatter_take_drop (k : ℕ) :
    scatter (scatter mem as (bs.take k)) (as.drop k) (bs.drop k) = scatter mem as bs := by
  induction k generalizing mem as bs with
  | zero => simp
  | succ k ih => cases as <;> cases bs <;> simp [ih]

theorem scatter_append_left :
    scatter mem (as ++ as') bs = scatter (scatter mem as bs) as' (bs.drop as.length) := by
  induction as generalizing mem bs with
  | nil => rfl
  | cons a as ih => cases bs <;> simp [ih]

theorem scatter_take : scatter mem (as.take bs.length) bs = scatter mem as bs := by
  induction as generalizing mem bs with
  | nil => simp
  | cons a as ih =>
    cases bs with
    | nil => simp
    | cons b bs => exact ih

theorem scatter_run_append {n : ℕ} (h : bs.length ≤ n) :
    scatter mem (run a n ++ as) bs = scatter mem (run a bs.length) bs := by
  obtain ⟨m, rfl⟩ := Nat.exists_eq_add_of_le h
  rw [← scatter_take, run_add, append_assoc, take_append_of_le_length (by simp),
    take_of_length_le (by simp)]

theorem scatter_of_notMem (h : a ∉ as) : scatter mem as bs a = mem a := by
  induction as generalizing mem bs with
  | nil => simp
  | cons a' as ih =>
    rw [mem_cons, not_or] at h
    cases bs with
    | nil => simp
    | cons b bs => rw [scatter_cons, ih h.2, update_of_ne h.1]

theorem gather_scatter (hnodup : as.Nodup) (h : bs.length = as.length) :
    gather (scatter mem as bs) as = bs := by
  induction as generalizing mem bs with
  | nil => exact (length_eq_zero_iff.mp h).symm
  | cons a as ih =>
    obtain ⟨ha, hnodup⟩ := nodup_cons.mp hnodup
    cases bs with
    | nil => cases h
    | cons b bs =>
      have hhead : scatter (update mem a b) as bs a = b := by
        rw [scatter_of_notMem ha, update_self]
      have htail := @ih (update mem a b) bs hnodup (Nat.succ.inj h)
      exact congrArg₂ List.cons hhead htail

theorem scatter_gather :
    scatter mem as (gather mem' as) = fun a => if a ∈ as then mem' a else mem a := by
  induction as generalizing mem with
  | nil => simp
  | cons b as ih =>
    rw [gather, map_cons, scatter_cons, ← gather, ih]
    funext a
    by_cases has : a ∈ as <;> rcases eq_or_ne a b with rfl | hne <;> simp [*]

theorem nodup_run {n : ℕ} : (run a n).Nodup := by
  refine List.nodup_range.map fun i j h => ?_
  have : a + (i : ℤ) = a + j := h
  omega

theorem scatter_run_apply {x : ℤ} : scatter mem (run a bs.length) bs x =
    if a ≤ x then bs[(x - a).toNat]?.getD (mem x) else mem x := by
  induction bs generalizing mem a with
  | nil => simp
  | cons b bs ih =>
    have hrun : run a (b :: bs).length = a :: run (a + 1) bs.length := by
      rw [length_cons, add_comm, run_add]
      simp [run]
    rw [hrun, scatter_cons, ih]
    rcases lt_trichotomy x a with hlt | rfl | hgt
    · rw [if_neg (by omega), if_neg (by omega), update_of_ne (by omega)]
    · rw [if_neg (by omega), if_pos le_rfl, update_self]
      simp
    · rw [if_pos (by omega), if_pos (by omega), update_of_ne (by omega)]
      obtain ⟨k, hk⟩ : ∃ k, (x - a).toNat = k + 1 := ⟨(x - a).toNat - 1, by omega⟩
      rw [hk, getElem?_cons_succ, show (x - (a + 1)).toNat = k by omega]

theorem getElem?_gather_run {n i : ℕ} (h : i < n) :
    (gather mem (run a n))[i]? = some (mem (a + i)) := by
  simp [gather, run, h]

theorem run_take {n k : ℕ} (h : k ≤ n) : (run a n).take k = run a k := by
  obtain ⟨m, rfl⟩ := Nat.exists_eq_add_of_le h
  rw [run_add, take_append_of_le_length (by simp), take_of_length_le (by simp)]

theorem run_drop {n k : ℕ} (h : k ≤ n) : (run a n).drop k = run (a + k) (n - k) := by
  obtain ⟨m, rfl⟩ := Nat.exists_eq_add_of_le h
  rw [run_add, drop_append_of_le_length (by simp), drop_of_length_le (by simp),
    nil_append, Nat.add_sub_cancel_left]

end OpenMPI.Lib

/-!
## Positions among blocks

A stream of blocks is cut into fragments anywhere.  A position is told by the blocks from the one
that it is in on, and how far it is in that one (`locate`).
-/

namespace OpenMPI.Lib

open List

variable {l : List (ℤ × ℕ)} {m n : ℕ}

def locate : List (ℤ × ℕ) → ℕ → List (ℤ × ℕ) × ℕ
  | [], n => ([], n)
  | b :: l, n => if n < b.2 then (b :: l, n) else locate l (n - b.2)

def headWidth : List (ℤ × ℕ) → ℕ
  | [] => 0
  | b :: _ => b.2

theorem locate_zero (h : ∀ b ∈ l, 0 < b.2) : locate l 0 = (l, 0) := by
  cases l with
  | nil => rfl
  | cons b l => rw [locate, if_pos (h b mem_cons_self)]

theorem locate_add : locate l (m + n) = locate (locate l m).1 ((locate l m).2 + n) := by
  induction l generalizing m with
  | nil => rfl
  | cons b l ih =>
    rw [locate, locate]
    by_cases hm : m < b.2
    · rw [if_pos hm]
      rfl
    · rw [if_neg hm, if_neg (by omega), ← ih]
      congr 1
      omega

theorem fitting_append_locate : fitting n l ++ (locate l n).1 = l := by
  induction l generalizing n with
  | nil => rfl
  | cons b l ih =>
    rw [fitting, locate]
    by_cases hn : n < b.2
    · rw [if_pos hn, if_neg (by omega)]
      rfl
    · rw [if_neg hn, if_pos (by omega), cons_append, ih]

theorem width_fitting_add : width (fitting n l) + (locate l n).2 = n := by
  induction l generalizing n with
  | nil => simp [fitting, locate]
  | cons b l ih =>
    rw [fitting, locate]
    by_cases hn : n < b.2
    · rw [if_pos hn, if_neg (by omega)]
      simp
    · rw [if_neg hn, if_pos (by omega), width_cons]
      have := @ih (n - b.2)
      omega

theorem locate_le : (locate l n).2 ≤ n := by
  have := @width_fitting_add l n
  omega

theorem locate_suffix : (locate l n).1 <:+ l := ⟨fitting n l, fitting_append_locate⟩

theorem locate_lt (h : n < width l) : (locate l n).2 < headWidth (locate l n).1 := by
  induction l generalizing n with
  | nil => simp at h
  | cons b l ih =>
    rw [width_cons] at h
    rw [locate]
    by_cases hn : n < b.2
    · rw [if_pos hn]
      exact hn
    · rw [if_neg hn]
      exact ih (by omega)

theorem locate_width : locate l (width l) = ([], 0) := by
  induction l with
  | nil => rfl
  | cons b l ih =>
    rw [width_cons, locate, if_neg (by omega), Nat.add_sub_cancel_left, ih]

theorem locate_width_append : locate (l ++ l') (width l) = locate l' 0 := by
  induction l with
  | nil => rfl
  | cons b l ih =>
    rw [cons_append, width_cons, locate, if_neg (by omega), Nat.add_sub_cancel_left, ih]

theorem drop_bytes : (bytes l).drop n = (bytes (locate l n).1).drop (locate l n).2 := by
  have hsplit : bytes l = bytes (fitting n l) ++ bytes (locate l n).1 := by
    rw [← bytes_append, fitting_append_locate]
  have hn : n = (bytes (fitting n l)).length + (locate l n).2 := by
    rw [length_bytes, width_fitting_add]
  calc (bytes l).drop n
      = (bytes (fitting n l) ++ bytes (locate l n).1).drop ((bytes (fitting n l)).length + (locate l n).2) := by
        rw [← hsplit, ← hn]
    _ = (bytes (locate l n).1).drop (locate l n).2 := by rw [← drop_drop, drop_left]

section Elements

variable {a stride : ℤ} {count size i k q r : ℕ}

theorem bytes_strided_split (h : i ≤ count) :
    bytes (strided count stride [(a, size)]) = bytes (strided i stride [(a, size)]) ++
      bytes (strided (count - i) stride [(a + i * stride, size)]) := by
  obtain ⟨j, rfl⟩ := Nat.exists_eq_add_of_le h
  rw [strided_add, bytes_append, shift_strided, shift_cons, shift_nil, Nat.add_sub_cancel_left]

theorem drop_bytes_strided (h : i ≤ count) :
    (bytes (strided count stride [(a, size)])).drop (i * size)
      = bytes (strided (count - i) stride [(a + i * stride, size)]) := by
  rw [bytes_strided_split h]
  exact drop_left' (by simp)

theorem drop_bytes_strided_add (h : i < count) (hq : q ≤ size) :
    (bytes (strided count stride [(a, size)])).drop (i * size + q)
      = run (a + i * stride + q) (size - q) ++
        bytes (strided (count - (i + 1)) stride [(a + (i + 1 : ℕ) * stride, size)]) := by
  obtain ⟨j, hj⟩ : ∃ j, count - i = j + 1 := ⟨count - i - 1, by omega⟩
  rw [← drop_drop, drop_bytes_strided h.le, hj, strided_succ, bytes_append, bytes_cons,
    bytes_nil, append_nil, drop_append_of_le_length (by simpa using hq), run_drop hq,
    shift_strided, shift_cons, shift_nil, show count - (i + 1) = j by omega]
  congr 5
  push_cast
  ring

theorem take_bytes_strided (h : k * size + r ≤ count * size) (hr : r < size) :
    (bytes (strided count stride [(a, size)])).take (k * size + r)
      = bytes (strided k stride [(a, size)]) ++ run (a + k * stride) r := by
  have hk : k ≤ count := by
    by_contra hlt
    have := Nat.mul_le_mul_right size (show count + 1 ≤ k by omega)
    rw [Nat.succ_mul] at this
    omega
  have hlength : (bytes (strided k stride [(a, size)])).length = k * size := by simp
  rw [bytes_strided_split hk, ← hlength, take_length_add_append]
  congr 1
  rcases hj : count - k with _ | j
  · obtain rfl : k = count := by omega
    obtain rfl : r = 0 := by omega
    simp
  · rw [strided_succ, bytes_append, bytes_cons, bytes_nil, append_nil,
      take_append_of_le_length (by simpa using hr.le), run_take hr.le]

/-! A position is `q` bytes behind the start of element `i`.  From there on go the rest of that
element, whole elements and a part of the last one. -/

theorem take_drop_inside (h : i < count) (hr : q + r ≤ size) :
    ((bytes (strided count stride [(a, size)])).drop (i * size + q)).take r
      = run (a + i * stride + q) r := by
  rw [drop_bytes_strided_add h (by omega), take_append_of_le_length (by simp; omega),
    run_take (by omega)]

theorem take_drop_start (h : i * size + (k * size + r) ≤ count * size) (hr : r < size) :
    ((bytes (strided count stride [(a, size)])).drop (i * size)).take (k * size + r)
      = bytes (strided k stride [(a + i * stride, size)]) ++ run (a + i * stride + k * stride) r := by
  have hi : i ≤ count := Nat.le_of_mul_le_mul_right (Nat.le_of_add_right_le h) (by omega)
  have hle : k * size + r ≤ (count - i) * size := by
    rw [Nat.sub_mul]
    omega
  rw [drop_bytes_strided hi, take_bytes_strided hle hr]

theorem take_drop_middle (h : (i + 1) * size + (k * size + r) ≤ count * size) (hr : r < size)
    (hq : q ≤ size) :
    ((bytes (strided count stride [(a, size)])).drop (i * size + q)).take
        (size - q + (k * size + r))
      = run (a + i * stride + q) (size - q) ++
        (bytes (strided k stride [(a + (i + 1 : ℕ) * stride, size)]) ++
          run (a + (i + 1 : ℕ) * stride + k * stride) r) := by
  have hi : i + 1 ≤ count := Nat.le_of_mul_le_mul_right (Nat.le_of_add_right_le h) (by omega)
  have hle : k * size + r ≤ (count - (i + 1)) * size := by
    rw [Nat.sub_mul]
    omega
  have hrest := @take_length_add_append _ (run (a + i * stride + q) (size - q))
    (bytes (strided (count - (i + 1)) stride [(a + (i + 1 : ℕ) * stride, size)])) (k * size + r)
  rw [length_run] at hrest
  rw [drop_bytes_strided_add (by omega) hq, hrest, take_bytes_strided hle hr]

end Elements

end OpenMPI.Lib
