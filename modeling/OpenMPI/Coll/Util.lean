import OpenMPI.Lib.Buffer

/-!
# What the collective operations have in common

A buffer is the sequence of the elements that its datatype lays out, and counts are counts of these.
A send is over when its message is on the way, and a receive takes place where it is waited for.
-/

namespace OpenMPI.Coll

open Lib

variable {α β : Type*} [DecidableEq β]

/-- `ompi_ddt_sndrcv`: what does not fit into the receive buffer is dropped. -/
def sndrcv (b : β) (off scount : ℕ) (b' : β) (off' rcount : ℕ) : Instr (Bufs β α) α :=
  .work fun m => m.write b' off' ((m.read b off scount).take rcount)

/-- `ompi_coll_tuned_sendrecv`, which makes a copy where both partners are the process itself. -/
def sendrecv (rank : ℕ) (b : β) (off scount dest : ℕ) (b' : β) (off' rcount source : ℕ) :
    List (Instr (Bufs β α) α) :=
  if dest = source ∧ dest = rank then [sndrcv b off scount b' off' rcount]
  else [.sendBuf dest b off scount, .recvBuf source b' off' rcount]

/-- `COLL_TUNED_COMPUTED_SEGCOUNT`: the number of elements in a segment of `segsize` bytes. -/
def computedSegcount (segsize typelng segcount : ℕ) : ℕ :=
  if typelng ≤ segsize ∧ segsize < typelng * segcount then
    let segcount := segsize / typelng
    let residual := segsize - segcount * typelng
    if typelng >>> 1 < residual then segcount + 1 else segcount
  else segcount

def growLoop (size : ℕ) : (fuel tmpSize : ℕ) → ℕ
  | 0, tmpSize => tmpSize
  | fuel + 1, tmpSize => if tmpSize ≤ size then growLoop size fuel (tmpSize <<< 1) else tmpSize

/-- The largest power of two that is not larger than the size. -/
def nearestPower (size : ℕ) : ℕ := growLoop size (size + 1) 1 >>> 1

/-- `ompi_op_t`: whoever makes one promises that the function is associative, and that it is commutative
where the flag says so. -/
structure Op (α : Type*) where
  fn : α → α → α
  commute : Bool
  assoc : Std.Associative fn
  comm : commute = true → Std.Commutative fn

instance (op : Op α) : Std.Associative op.fn := op.assoc

/-- `ompi_op_reduce`: the target becomes source `op` target. -/
def opReduce (op : Op α) (src : β) (soff : ℕ) (tgt : β) (toff count : ℕ) : Instr (Bufs β α) α :=
  .reduceBuf op.fn src soff tgt toff count

/-- What is read through a pointer `lb` bytes off a buffer: its elements, if `lb` is zero, and whatever is
there otherwise. -/
structure Skew (α : Type*) where
  lb : ℤ
  seen : (ℕ → α) → ℕ → α
  seen_zero : lb = 0 → ∀ f, seen f = f

def copySkewed (k : Skew α) (b b' : β) (count : ℕ) : Instr (Bufs β α) α :=
  .work fun m => m.write b' 0 (slice (k.seen (m b)) 0 count)

end OpenMPI.Coll

/-!
## The loops around the ring

Every process sends to the next one and receives from the one before it.  `off` and `cnt` are the places
and the lengths of the blocks.
-/

namespace OpenMPI.Coll

open Lib

variable {α : Type*}

/-- `inbuf inbi` are the two buffers for what comes in. -/
inductive RingBuf
  | sbuf
  | rbuf
  | accumbuf
  | inbuf (inbi : ℕ)
  deriving DecidableEq, Repr

/-- The computation loop: in step `k` a process sends on block `prevblock k`, to which it has added what
came in; the next receive is posted before the last one is waited for.  `junk` is what is in a buffer
while its receive is pending. -/
def computationLoop (junk : (ℕ → α) → ℕ → α) (size rank maxcount : ℕ) (op : Op α) (acc : RingBuf)
    (off cnt : ℕ → ℕ) (first : ℕ) (prevblock : ℕ → ℕ) (last : ℕ) :
    List (Instr (Bufs RingBuf α) α) :=
  let sendTo := (rank + 1) % size
  let recvFrom := (rank + size - 1) % size
  [.postBuf junk (.inbuf 0) 0 maxcount, .sendBuf sendTo acc (off first) (cnt first)] ++
    ((List.range' 2 (size - 2)).flatMap fun k =>
      let inbi := (k - 1) % 2
      [.postBuf junk (.inbuf inbi) 0 maxcount, .recvBuf recvFrom (.inbuf (inbi ^^^ 1)) 0 maxcount,
        opReduce op (.inbuf (inbi ^^^ 1)) 0 acc (off (prevblock k)) (cnt (prevblock k)),
        .sendBuf sendTo acc (off (prevblock k)) (cnt (prevblock k))]) ++
    let inbi := (size - 2) % 2
    [.recvBuf recvFrom (.inbuf inbi) 0 maxcount,
      opReduce op (.inbuf inbi) 0 acc (off last) (cnt last)]

end OpenMPI.Coll

/-!
## The parts of the collective operations, one by one
-/

namespace OpenMPI.Coll

open Lib

variable {α β : Type*} [DecidableEq β] {m : Bufs β α} {R : Bufs β α → Prop} {b b' : β}
  {off off' n : ℕ}

theorem sndrcv_does (hR : R (m.copy b off b' off' n)) :
    Does [sndrcv b off n b' off' n] .nothing .nothing m R := by
  refine Does.work_one ?_
  rw [Bufs.read, take_slice _ _ (Nat.le_refl n)]
  exact hR

theorem block_lt {d i c : ℕ} (hd : d < n) (hi : i < c) : d * c + i < n * c :=
  calc d * c + i < d * c + c := Nat.add_lt_add_left hi _
    _ = (d + 1) * c := (Nat.succ_mul d c).symm
    _ ≤ n * c := Nat.mul_le_mul_right c hd

end OpenMPI.Coll
