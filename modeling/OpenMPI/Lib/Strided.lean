import Mathlib.Data.List.Basic
import Mathlib.Data.List.TakeDrop
import Mathlib.Tactic.Linarith
import Mathlib.Tactic.Ring

/-!
# Blocks of memory in an order

A block is its start and its length, and a list of blocks is visited in its order, byte by byte
(`bytes`).  Blocks, or whatever else has a place in memory, are moved together (`shift`) and repeated
at a stride (`strided`).
-/

namespace OpenMPI.Lib

open List

variable {β γ : Type*}

def run (a : ℤ) (n : ℕ) : List ℤ := (List.range n).map fun i : ℕ => a + i

def bytes (l : List (ℤ × ℕ)) : List ℤ := l.flatMap fun b => run b.1 b.2

def width (l : List (ℤ × ℕ)) : ℕ := (l.map Prod.snd).sum

def shift (d : ℤ) (l : List (ℤ × β)) : List (ℤ × β) := l.map fun b => (b.1 + d, b.2)

/-- `n` copies of the blocks, each `stride` after the one before. -/
def strided : ℕ → ℤ → List (ℤ × β) → List (ℤ × β)
  | 0, _, _ => []
  | n + 1, stride, l => l ++ shift stride (strided n stride l)

variable {a d e stride : ℤ} {m n : ℕ} {l l' : List (ℤ × ℕ)} {k k' : List (ℤ × β)}

@[simp] theorem length_run : (run a n).length = n := by simp [run]

@[simp] theorem run_zero : run a 0 = [] := rfl

theorem run_add : run a (m + n) = run a m ++ run (a + m) n := by
  simp only [run, range_add, map_append, map_map]
  congr 1
  apply map_congr_left
  intro i _
  simp only [Function.comp_apply, Nat.cast_add]
  ring

theorem map_add_run : (run a n).map (· + d) = run (a + d) n := by
  simp only [run, map_map]
  apply map_congr_left
  intro i _
  simp only [Function.comp_apply]
  ring

theorem run_inj (hn : 0 < n) {b : ℤ} (h : run a n = run b n) : a = b := by
  have := congrArg (fun l => l[0]?) h
  simpa [run, hn] using this

@[simp] theorem bytes_nil : bytes [] = [] := rfl

@[simp] theorem bytes_cons {b : ℤ × ℕ} : bytes (b :: l) = run b.1 b.2 ++ bytes l := rfl

@[simp] theorem bytes_append : bytes (l ++ l') = bytes l ++ bytes l' := flatMap_append

@[simp] theorem width_nil : width [] = 0 := rfl

@[simp] theorem width_cons {b : ℤ × ℕ} : width (b :: l) = b.2 + width l := by simp [width]

@[simp] theorem width_append : width (l ++ l') = width l + width l' := by simp [width]

@[simp] theorem length_bytes : (bytes l).length = width l := by
  induction l with
  | nil => rfl
  | cons b l ih => simp [ih]

theorem width_eq_of_bytes_eq (h : bytes l = bytes l') : width l = width l' := by
  rw [← length_bytes, h, length_bytes]

@[simp] theorem shift_nil : shift d ([] : List (ℤ × β)) = [] := rfl

@[simp] theorem shift_cons {b : ℤ × β} : shift d (b :: k) = (b.1 + d, b.2) :: shift d k := rfl

@[simp] theorem shift_append : shift d (k ++ k') = shift d k ++ shift d k' := map_append

theorem shift_shift : shift d (shift e k) = shift (e + d) k := by
  simp only [shift, map_map]
  apply map_congr_left
  intro b _
  simp only [Function.comp_apply, Prod.mk.injEq, and_true]
  ring

@[simp] theorem shift_zero : shift 0 k = k := by simp [shift]

@[simp] theorem width_shift : width (shift d l) = width l := by simp [width, shift, Function.comp_def]

theorem bytes_shift : bytes (shift d l) = (bytes l).map (· + d) := by
  induction l with
  | nil => rfl
  | cons b l ih => simp [ih, map_add_run]

theorem bytes_shift_inj : bytes (shift d l) = bytes (shift d l') ↔ bytes l = bytes l' := by
  rw [bytes_shift, bytes_shift]
  exact (map_injective_iff.mpr (add_left_injective d)).eq_iff

@[simp] theorem strided_zero : strided 0 stride k = [] := rfl

theorem strided_succ : strided (n + 1) stride k = k ++ shift stride (strided n stride k) := rfl

@[simp] theorem strided_one : strided 1 stride k = k := by simp [strided]

theorem shift_strided : shift d (strided n stride k) = strided n stride (shift d k) := by
  induction n with
  | zero => rfl
  | succ n ih =>
    rw [strided_succ, strided_succ, shift_append, shift_shift, ← ih, shift_shift, add_comm]

theorem strided_add : strided (m + n) stride k
    = strided m stride k ++ shift (m * stride) (strided n stride k) := by
  induction m with
  | zero => simp
  | succ m ih =>
    rw [Nat.succ_add, strided_succ, ih, strided_succ, shift_append, shift_shift, append_assoc]
    congr 3
    push_cast
    ring

@[simp] theorem length_shift : (shift d k).length = k.length := by simp [shift]

@[simp] theorem length_strided : (strided n stride k).length = n * k.length := by
  induction n with
  | zero => simp
  | succ n ih =>
    rw [strided_succ, length_append, length_shift, ih]
    ring

@[simp] theorem strided_nil : strided n stride ([] : List (ℤ × β)) = [] := by
  rw [← length_eq_zero_iff, length_strided, length_nil, mul_zero]

theorem stride_inj (hk : k ≠ []) (hn : 2 ≤ n) {stride' : ℤ}
    (h : strided n stride k = strided n stride' k) : stride = stride' := by
  obtain ⟨n, rfl⟩ := Nat.exists_eq_add_of_le hn
  obtain ⟨b, k, rfl⟩ := exists_cons_of_ne_nil hk
  have hsplit (s : ℤ) : strided (2 + n) s (b :: k)
      = (b :: k) ++ (shift s (b :: k) ++ shift s (shift s (strided n s (b :: k)))) := by
    rw [add_comm, strided_succ, strided_succ, shift_append]
  rw [hsplit, hsplit] at h
  have := congrArg Prod.fst (List.cons.inj (append_cancel_left h)).1
  exact add_left_cancel this

theorem strided_inj (hn : 0 < n) {stride' : ℤ} (hlength : k.length = k'.length)
    (h : strided n stride k = strided n stride' k') : k = k' := by
  obtain ⟨n, rfl⟩ := Nat.exists_eq_succ_of_ne_zero hn.ne'
  exact (append_inj h hlength).1

theorem map_strided (f : β → γ) :
    (strided n stride k).map (Prod.map id f) = strided n stride (k.map (Prod.map id f)) := by
  induction n with
  | zero => rfl
  | succ n ih =>
    rw [strided_succ, strided_succ, map_append, ← ih]
    simp [shift, Function.comp_def]

theorem strided_mul : strided (m * n) stride k = strided m (n * stride) (strided n stride k) := by
  induction m with
  | zero => simp
  | succ m ih =>
    rw [Nat.succ_mul, add_comm, strided_add, ih, strided_succ]

theorem strided_eq_flatMap :
    strided n stride k = (range n).flatMap fun i : ℕ => shift (i * stride) k := by
  induction n with
  | zero => simp
  | succ n ih => rw [strided_add, ih, strided_one, range_succ, flatMap_append,
      flatMap_singleton]

theorem strided_mul_of_zero : strided (m * n) 0 k = strided n 0 (strided m 0 k) := by
  induction n with
  | zero => simp
  | succ n ih =>
    rw [Nat.mul_succ, add_comm, strided_add, ih, mul_zero, shift_zero, strided_succ, shift_zero]

@[simp] theorem width_strided : width (strided n stride l) = n * width l := by
  induction n with
  | zero => simp
  | succ n ih =>
    rw [strided_succ, width_append, width_shift, ih]
    ring

theorem bytes_strided_run : bytes (strided n m [(a, m)]) = run a (n * m) := by
  induction n generalizing a with
  | zero => simp
  | succ n ih =>
    rw [strided_succ, bytes_append, shift_strided, shift_cons, shift_nil, ih, Nat.succ_mul,
      add_comm (n * m), run_add]
    simp

theorem bytes_strided_congr (h : bytes l = bytes l') :
    bytes (strided n stride l) = bytes (strided n stride l') := by
  induction n with
  | zero => rfl
  | succ n ih =>
    rw [strided_succ, strided_succ, bytes_append, bytes_append, h, bytes_shift_inj.mpr ih]

theorem bytes_strided_inj (hn : 0 < n) (hw : width l = width l') :
    bytes (strided n stride l) = bytes (strided n stride l') ↔ bytes l = bytes l' := by
  refine ⟨fun h => ?_, bytes_strided_congr⟩
  obtain ⟨n, rfl⟩ := Nat.exists_eq_succ_of_ne_zero hn.ne'
  rw [Nat.succ_eq_add_one, strided_succ, strided_succ, bytes_append, bytes_append] at h
  exact (append_inj h (by simp [hw])).1

theorem mem_strided {b : ℤ × ℕ} (h : b ∈ strided n stride l) : ∃ c ∈ l, c.2 = b.2 := by
  induction n generalizing b with
  | zero => simp at h
  | succ n ih =>
    rw [strided_succ, mem_append] at h
    rcases h with h | h
    · exact ⟨b, h, rfl⟩
    · obtain ⟨c, hc, rfl⟩ := mem_map.mp h
      obtain ⟨c', hc', hlen⟩ := ih hc
      exact ⟨c', hc', hlen⟩

/-- The blocks one can take whole, in order, from so many bytes. -/
def fitting : ℕ → List (ℤ × ℕ) → List (ℤ × ℕ)
  | _, [] => []
  | space, b :: l => if b.2 ≤ space then b :: fitting (space - b.2) l else []

theorem fitting_append {space : ℕ} (h : width l ≤ space) :
    fitting space (l ++ l') = l ++ fitting (space - width l) l' := by
  induction l generalizing space with
  | nil => simp
  | cons b l ih =>
    rw [width_cons] at h
    rw [cons_append, fitting, if_pos (by omega), ih (by omega), width_cons, Nat.sub_sub,
      cons_append]

theorem fitting_eq_nil {space : ℕ} {b : ℤ × ℕ} (h : space < b.2) : fitting space (b :: l) = [] := by
  rw [fitting, if_neg (by omega)]

theorem eq_fitting {space : ℕ} (hw : width l ≤ space)
    (h : l' = [] ∨ ∃ b r, l' = b :: r ∧ space - width l < b.2) : l = fitting space (l ++ l') := by
  rw [fitting_append hw]
  rcases h with rfl | ⟨b, r, rfl, hlt⟩
  · simp [fitting]
  · rw [fitting_eq_nil hlt, append_nil]

end OpenMPI.Lib
