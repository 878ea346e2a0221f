import Mathlib.Data.List.Perm.Basic
import OpenMPI.Lib.Process

/-!
# Buffers

The memory of a process as some named buffers, each a sequence of elements.  What a copy, a
reduction or a receive leaves at a place is said place by place (`write_slice_apply`,
`reduce_apply`).
-/

namespace OpenMPI.Lib

open List

variable {α β : Type*}

def slice (f : ℕ → α) (off n : ℕ) : List α := (List.range n).map fun i => f (off + i)

@[simp] theorem length_slice (f : ℕ → α) (off n : ℕ) : (slice f off n).length = n := by
  rw [slice, length_map, length_range]

theorem slice_congr {f g : ℕ → α} {off off' n : ℕ} (h : ∀ i < n, f (off + i) = g (off' + i)) :
    slice f off n = slice g off' n :=
  map_congr_left fun i hi => h i (mem_range.mp hi)

theorem getElem?_slice (f : ℕ → α) (off n i : ℕ) :
    (slice f off n)[i]? = if i < n then some (f (off + i)) else none := by
  unfold slice
  rw [getElem?_map]
  split_ifs with h
  · rw [getElem?_range h]
    rfl
  · rw [getElem?_eq_none (by rw [length_range]; omega)]
    rfl

theorem take_slice (f : ℕ → α) (off : ℕ) {n k : ℕ} (h : k ≤ n) :
    (slice f off n).take k = slice f off k := by
  unfold slice
  rw [← map_take, take_range, min_eq_left h]

abbrev Bufs (β α : Type*) := β → ℕ → α

namespace Bufs

variable [DecidableEq β]

def read (b : β) (off n : ℕ) (m : Bufs β α) : List α := slice (m b) off n

def write (b : β) (off : ℕ) (l : List α) (m : Bufs β α) : Bufs β α :=
  fun c i => if c = b ∧ off ≤ i then l[i - off]?.getD (m c i) else m c i

def copy (b : β) (off : ℕ) (b' : β) (off' n : ℕ) (m : Bufs β α) : Bufs β α :=
  m.write b' off' (m.read b off n)

/-- Element by element, the target becomes source `op` target. -/
def reduce (op : α → α → α) (src : β) (soff : ℕ) (tgt : β) (toff n : ℕ) (m : Bufs β α) :
    Bufs β α :=
  fun c i => if c = tgt ∧ toff ≤ i ∧ i < toff + n then op (m src (soff + (i - toff))) (m c i)
    else m c i

/-- While a receive is pending, the places it is posted for may hold anything. -/
def blur (junk : (ℕ → α) → ℕ → α) (b : β) (off n : ℕ) (m : Bufs β α) : Bufs β α :=
  fun c i => if c = b ∧ off ≤ i ∧ i < off + n then junk (m c) i else m c i

variable (m : Bufs β α) (b : β) (off : ℕ)

theorem blur_apply (junk : (ℕ → α) → ℕ → α) (n : ℕ) (c : β) (i : ℕ) :
    m.blur junk b off n c i = if c = b ∧ off ≤ i ∧ i < off + n then junk (m c) i else m c i :=
  rfl

theorem write_slice_apply (f : ℕ → α) (off' n : ℕ) (c : β) (i : ℕ) :
    m.write b off (slice f off' n) c i =
      if c = b ∧ off ≤ i ∧ i < off + n then f (off' + (i - off)) else m c i := by
  unfold write
  rw [getElem?_slice]
  by_cases h : c = b ∧ off ≤ i
  · rw [if_pos h]
    by_cases hi : i < off + n
    · rw [if_pos (by omega), if_pos ⟨h.1, h.2, hi⟩]
      rfl
    · rw [if_neg (by omega), if_neg fun h' => hi h'.2.2]
      rfl
  · rw [if_neg h, if_neg fun h' => h ⟨h'.1, h'.2.1⟩]

theorem copy_apply (b' : β) (off' n : ℕ) (c : β) (i : ℕ) :
    m.copy b off b' off' n c i =
      if c = b' ∧ off' ≤ i ∧ i < off' + n then m b (off + (i - off')) else m c i :=
  write_slice_apply ..

theorem reduce_apply (op : α → α → α) (b' : β) (off' n : ℕ) (c : β) (i : ℕ) :
    m.reduce op b off b' off' n c i =
      if c = b' ∧ off' ≤ i ∧ i < off' + n then op (m b (off + (i - off'))) (m c i) else m c i :=
  rfl

theorem write_slice_same (f : ℕ → α) (n i : ℕ) :
    m.write b off (slice f off n) b i = if off ≤ i ∧ i < off + n then f i else m b i := by
  rw [write_slice_apply]
  by_cases h : off ≤ i ∧ i < off + n
  · rw [if_pos ⟨rfl, h⟩, if_pos h, Nat.add_sub_cancel' h.1]
  · rw [if_neg fun h' => h h'.2, if_neg h]

theorem reduce_same (op : α → α → α) (b' : β) (n i : ℕ) :
    m.reduce op b off b' off n b' i =
      if off ≤ i ∧ i < off + n then op (m b i) (m b' i) else m b' i := by
  rw [reduce_apply]
  by_cases h : off ≤ i ∧ i < off + n
  · rw [if_pos ⟨rfl, h⟩, if_pos h, Nat.add_sub_cancel' h.1]
  · rw [if_neg fun h' => h h'.2, if_neg h]

section

variable {m : Bufs β α} {b c : β} {off n : ℕ}

@[simp] theorem write_of_ne (l : List α) (h : c ≠ b) : m.write b off l c = m c :=
  funext fun _ => if_neg fun h' => h h'.1

@[simp] theorem copy_of_ne {b' : β} (off off' n : ℕ) (h : c ≠ b') : m.copy b off b' off' n c = m c :=
  write_of_ne _ h

@[simp] theorem reduce_of_ne {b' : β} (op : α → α → α) (off off' n : ℕ) (h : c ≠ b') :
    m.reduce op b off b' off' n c = m c :=
  funext fun _ => if_neg fun h' => h h'.1

@[simp] theorem blur_of_ne (junk : (ℕ → α) → ℕ → α) (off n : ℕ) (h : c ≠ b) :
    m.blur junk b off n c = m c :=
  funext fun _ => if_neg fun h' => h h'.1

@[simp] theorem write_slice_zero {f : ℕ → α} {i : ℕ} (hi : i < n) :
    m.write b 0 (slice f 0 n) b i = f i := by
  rw [write_slice_apply, if_pos ⟨rfl, Nat.zero_le i, by omega⟩, Nat.sub_zero, Nat.zero_add]

@[simp] theorem copy_zero {b' : β} {i : ℕ} (hi : i < n) : m.copy b 0 b' 0 n b' i = m b i :=
  write_slice_zero hi

@[simp] theorem reduce_zero {b' : β} {op : α → α → α} {i : ℕ} (hi : i < n) :
    m.reduce op b 0 b' 0 n b' i = op (m b i) (m b' i) := by
  rw [reduce_apply, if_pos ⟨rfl, Nat.zero_le i, by omega⟩, Nat.sub_zero, Nat.zero_add]

end

end Bufs

namespace Instr

variable [DecidableEq β]

def sendBuf (dst : ℕ) (b : β) (off n : ℕ) : Instr (Bufs β α) α := .send dst (Bufs.read b off n)

def recvBuf (src : ℕ) (b : β) (off n : ℕ) : Instr (Bufs β α) α := .recv src n (Bufs.write b off)

/-- A receive is posted; it ends with `recvBuf`. -/
def postBuf (junk : (ℕ → α) → ℕ → α) (b : β) (off n : ℕ) : Instr (Bufs β α) α :=
  .work (Bufs.blur junk b off n)

def copyBuf (b : β) (off : ℕ) (b' : β) (off' n : ℕ) : Instr (Bufs β α) α :=
  .work (Bufs.copy b off b' off' n)

def reduceBuf (op : α → α → α) (src : β) (soff : ℕ) (tgt : β) (toff n : ℕ) : Instr (Bufs β α) α :=
  .work (Bufs.reduce op src soff tgt toff n)

end Instr

namespace Does

variable [DecidableEq β] {m : Bufs β α} {R : Bufs β α → Prop} {q off n : ℕ} {b : β}

omit [DecidableEq β] in
theorem sendBuf {f : ℕ → α} {o : ℕ} (h : ∀ i < n, m b (off + i) = f (o + i)) (hR : R m) :
    Does [.sendBuf q b off n] .nothing (.one q (slice f o n)) m R :=
  send_one (slice_congr h) hR

theorem recvBuf {f : ℕ → α} {o k : ℕ} (hk : k ≤ n) (hR : R (m.write b off (slice f o k))) :
    Does [.recvBuf q b off n] (.one q (slice f o k)) .nothing m R :=
  recv_one (le_trans (le_of_eq (length_slice f o k)) hk) hR

theorem postBuf {junk : (ℕ → α) → ℕ → α} (hR : R (m.blur junk b off n)) :
    Does [.postBuf junk b off n] .nothing .nothing m R :=
  work_one hR

theorem copyBuf {b' : β} {off' : ℕ} (hR : R (m.copy b off b' off' n)) :
    Does [.copyBuf b off b' off' n] .nothing .nothing m R :=
  work_one hR

theorem reduceBuf {op : α → α → α} {b' : β} {off' : ℕ} (hR : R (m.reduce op b off b' off' n)) :
    Does [.reduceBuf op b off b' off' n] .nothing .nothing m R :=
  work_one hR

variable {is : List (Instr (Bufs β α) α)} {inn out : Mail α}

theorem recvBuf_cons {f : ℕ → α} {o k : ℕ} (hk : k ≤ n)
    (h : Does is inn out (m.write b off (slice f o k)) R) :
    Does (.recvBuf q b off n :: is) ((Mail.one q (slice f o k)).append inn) out m R :=
  recv (le_trans (le_of_eq (length_slice f o k)) hk) h

theorem postBuf_cons {junk : (ℕ → α) → ℕ → α} (h : Does is inn out (m.blur junk b off n) R) :
    Does (.postBuf junk b off n :: is) inn out m R :=
  work h

theorem copyBuf_cons {b' : β} {off' : ℕ} (h : Does is inn out (m.copy b off b' off' n) R) :
    Does (.copyBuf b off b' off' n :: is) inn out m R :=
  work h

theorem reduceBuf_cons {op : α → α → α} {b' : β} {off' : ℕ}
    (h : Does is inn out (m.reduce op b off b' off' n) R) :
    Does (.reduceBuf op b off b' off' n :: is) inn out m R :=
  work h

end Does

end OpenMPI.Lib

/-!
## Reductions

`Reduces op x l a`: the value `a` is made of the values `x i`, one for each `i` of `l`, in this order.
An associative operation makes only one value of them, and a commutative one the same value in any
order.  `Holds` says so of each element of a piece of a buffer.
-/

namespace OpenMPI.Lib

open List

variable {α ι : Type*} {op : α → α → α} {x : ι → α} {l l' : List ι} {a b : α}

/-- `a` is `x i op x j op …` over the list, which is not empty. -/
def Reduces (op : α → α → α) (x : ι → α) (l : List ι) (a : α) : Prop :=
  l.foldr (fun i o => Option.merge op (some (x i)) o) none = some a

theorem Reduces.single (i : ι) : Reduces op x [i] (x i) := rfl

theorem Reduces.unique (h : Reduces op x l a) (h' : Reduces op x l b) : a = b :=
  Option.some.inj (h.symm.trans h')

section Associative

variable [Std.Associative op]

theorem foldr_merge (l : List ι) (o : Option α) :
    l.foldr (fun i o => Option.merge op (some (x i)) o) o =
      Option.merge op (l.foldr (fun i o => Option.merge op (some (x i)) o) none) o := by
  induction l with
  | nil => exact Option.merge_none_left.symm
  | cons i l ih =>
    rw [foldr_cons, ih, foldr_cons]
    have hassoc : Std.Associative (Option.merge op) := inferInstance
    exact (hassoc.assoc ..).symm

theorem Reduces.append (h : Reduces op x l a) (h' : Reduces op x l' b) :
    Reduces op x (l ++ l') (op a b) := by
  unfold Reduces at h h' ⊢
  rw [foldr_append, foldr_merge, h, h']
  rfl

theorem Reduces.snoc (h : Reduces op x l a) (i : ι) : Reduces op x (l ++ [i]) (op a (x i)) :=
  h.append (.single i)

theorem Reduces.perm [Std.Commutative op] (h : Reduces op x l a) (hl : l.Perm l') :
    Reduces op x l' a := by
  unfold Reduces at h ⊢
  rw [← h]
  refine (hl.foldr_eq' (fun i _ j _ o => ?_) none).symm
  have hassoc : Std.Associative (Option.merge op) := inferInstance
  have hcomm : Std.Commutative (Option.merge op) := inferInstance
  rw [← hassoc.assoc, ← hassoc.assoc, hcomm.comm (some (x i))]

end Associative

def upTo (op : α → α → α) (x : ℕ → α) : ℕ → α
  | 0 => x 0
  | k + 1 => op (upTo op x k) (x (k + 1))

theorem Reduces.upTo [Std.Associative op] (x : ℕ → α) (k : ℕ) :
    Reduces op x (range (k + 1)) (upTo op x k) := by
  induction k with
  | zero => exact .single 0
  | succ k ih =>
    rw [range_succ]
    exact ih.snoc (k + 1)

theorem Reduces.eq_upTo [Std.Associative op] {x : ℕ → α} {n : ℕ} (hn : 0 < n)
    (h : Reduces op x (range n) a) : a = Lib.upTo op x (n - 1) := by
  obtain ⟨k, rfl⟩ := Nat.exists_eq_succ_of_ne_zero (ne_of_gt hn)
  exact h.unique (Reduces.upTo x k)

theorem Reduces.eq_upTo_of_perm [Std.Associative op] [Std.Commutative op] {x : ℕ → α} {l : List ℕ}
    {n : ℕ} (hn : 0 < n) (h : Reduces op x l a) (hl : l.Perm (range n)) :
    a = Lib.upTo op x (n - 1) :=
  (h.perm hl).eq_upTo hn

/-- Element `i` of the piece is made of the elements `x r i`, for `r` of the list. -/
def Holds (op : α → α → α) (x : ι → ℕ → α) (l : List ι) (f : ℕ → α) (off n : ℕ) : Prop :=
  ∀ i, off ≤ i → i < off + n → Reduces op (fun r => x r i) l (f i)

namespace Holds

variable {x : ι → ℕ → α} {f g : ℕ → α} {off n off' n' : ℕ}

theorem single {i : ι} (h : ∀ j, off ≤ j → j < off + n → f j = x i j) : Holds op x [i] f off n :=
  fun j h1 h2 => h j h1 h2 ▸ Reduces.single (x := fun r => x r j) i

theorem congr (h : Holds op x l f off n) (heq : ∀ i, off ≤ i → i < off + n → g i = f i) :
    Holds op x l g off n :=
  fun i h1 h2 => heq i h1 h2 ▸ h i h1 h2

theorem perm [Std.Associative op] [Std.Commutative op] (h : Holds op x l f off n) (hl : l.Perm l') :
    Holds op x l' f off n :=
  fun i h1 h2 => (h i h1 h2).perm hl

theorem append [Std.Associative op] {e : ℕ → α} (h : Holds op x l f off n)
    (h' : Holds op x l' g off n)
    (heq : ∀ i, off ≤ i → i < off + n → e i = op (f i) (g i)) :
    Holds op x (l ++ l') e off n :=
  fun i h1 h2 => heq i h1 h2 ▸ (h i h1 h2).append (h' i h1 h2)

theorem single_zero {i : ι} (h : ∀ j < n, f j = x i j) : Holds op x [i] f 0 n :=
  single fun j _ hj => h j (Nat.zero_add n ▸ hj)

variable {β : Type*} [DecidableEq β] [Std.Associative op] {m : Bufs β α} {b b' : β}

theorem reduce_zero (h : Holds op x l (m b) 0 n) (h' : Holds op x l' (m b') 0 n) :
    Holds op x (l ++ l') (m.reduce op b 0 b' 0 n b') 0 n :=
  h.append h' fun _ _ hi => Bufs.reduce_zero (Nat.zero_add n ▸ hi)

end Holds

end OpenMPI.Lib
