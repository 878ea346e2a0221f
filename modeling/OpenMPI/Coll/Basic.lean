import Mathlib.Algebra.Ring.Nat
import Mathlib.Data.Nat.Bits
import OpenMPI.Coll.Util

/-!
# The basic reductions

The reductions of the basic component.  A routine gets its send and its receive buffer as arguments; its
temporary buffers have names of their own.  In place, the data is in the receive buffer.
-/

namespace OpenMPI.Coll

open Lib

variable {α : Type*}

inductive BasicBuf
  | sbuf
  | rbuf
  | freeBuffer
  | inplaceTemp
  | freeRbuf
  | reduceBuffer
  | recvBuf
  | resultBuf
  | tmpbuf
  | tmpbuf2
  deriving DecidableEq, Repr

def scanIntra (size rank count : ℕ) (op : Op α) (inPlace : Bool) :
    List (Instr (Bufs BasicBuf α) α) :=
  let own := if inPlace then [] else [.copyBuf .sbuf 0 .rbuf 0 count]
  let prior :=
    if rank = 0 then []
    else [.recvBuf (rank - 1) .freeBuffer 0 count, opReduce op .freeBuffer 0 .rbuf 0 count]
  let next := if rank < size - 1 then [.sendBuf (rank + 1) .rbuf 0 count] else []
  own ++ prior ++ next

/-- `junk` is what is in the receive buffer while its receive is pending. -/
def exscanIntra (junk : (ℕ → α) → ℕ → α) (size rank count : ℕ) (op : Op α) :
    List (Instr (Bufs BasicBuf α) α) :=
  if rank = 0 then [.sendBuf (rank + 1) .sbuf 0 count]
  else if size - 1 = rank then [.recvBuf (rank - 1) .rbuf 0 count]
  else
    let combine :=
      if op.commute then
        [.copyBuf .sbuf 0 .reduceBuffer 0 count, .recvBuf (rank - 1) .rbuf 0 count,
          opReduce op .rbuf 0 .reduceBuffer 0 count]
      else
        [.recvBuf (rank - 1) .rbuf 0 count, .copyBuf .rbuf 0 .reduceBuffer 0 count,
          opReduce op .sbuf 0 .reduceBuffer 0 count]
    [.postBuf junk .rbuf 0 count] ++ combine ++ [.sendBuf (rank + 1) .reduceBuffer 0 count]

/-- Only the root may have its data in place; it then reduces into a temporary buffer, whose result it
copies from the beginning of the memory, not from where the buffer points. -/
def reduceLinIntra (size rank root count : ℕ) (op : Op α) (k : Skew α) (sb rb : BasicBuf)
    (inPlace : Bool) : List (Instr (Bufs BasicBuf α) α) :=
  if rank ≠ root then [.sendBuf root sb 0 count]
  else
    let source := if inPlace then rb else sb
    let target := if inPlace then .inplaceTemp else rb
    let first :=
      if rank = size - 1 then [.copyBuf source 0 target 0 count]
      else [.recvBuf (size - 1) target 0 count]
    let others := (List.range (size - 1)).reverse.flatMap fun i =>
      if rank = i then [opReduce op source 0 target 0 count]
      else [.recvBuf i .freeBuffer 0 count, opReduce op .freeBuffer 0 target 0 count]
    let back := if inPlace then [copySkewed k .inplaceTemp rb count] else []
    first ++ others ++ back

def cubeDimLoop (value : ℕ) : (fuel dim size : ℕ) → ℕ
  | 0, dim, _ => dim
  | fuel + 1, dim, size => if size < value then cubeDimLoop value fuel (dim + 1) (size <<< 1) else dim

def cubeDim (value : ℕ) : ℕ := cubeDimLoop value value 0 1

/-- The loop over the dimensions of the cube, from dimension `i` on, with the send and the receive buffer
of the moment; it ends with these. -/
def logLoop (size root vrank count : ℕ) (op : Op α) (sb rb : BasicBuf) :
    (left i : ℕ) → (snd rcv : BasicBuf) → List (Instr (Bufs BasicBuf α) α) × BasicBuf × BasicBuf
  | 0, _, snd, rcv => ([], snd, rcv)
  | left + 1, i, snd, rcv =>
    let mask := 1 <<< i
    if vrank &&& mask ≠ 0 then
      let peer := Nat.ldiff vrank mask
      ([.sendBuf ((peer + root) % size) snd 0 count], rb, rcv)
    else
      let peer := vrank ||| mask
      if size ≤ peer then logLoop size root vrank count op sb rb left (i + 1) snd rcv
      else
        let recv := .recvBuf ((peer + root) % size) rcv 0 count
        if snd ≠ sb then
          let (is, snd', rcv') := logLoop size root vrank count op sb rb left (i + 1) snd rcv
          (recv :: opReduce op rcv 0 .freeBuffer 0 count :: is, snd', rcv')
        else
          let (is, snd', rcv') :=
            logLoop size root vrank count op sb rb left (i + 1) .freeBuffer rb
          (recv :: opReduce op sb 0 .freeBuffer 0 count :: is, snd', rcv')

def reduceLogIntra (size rank root count : ℕ) (op : Op α) (k : Skew α) (sb rb : BasicBuf)
    (inPlace : Bool) : List (Instr (Bufs BasicBuf α) α) :=
  if !op.commute then reduceLinIntra size rank root count op k sb rb inPlace
  else
    let vrank := (rank + size - root) % size
    let own := if inPlace then [.copyBuf rb 0 .inplaceTemp 0 count] else []
    let source := if inPlace then .inplaceTemp else sb
    let target := if rank ≠ root ∧ vrank % 2 = 0 then .freeRbuf else rb
    let (loop, snd, rcv) :=
      logLoop size root vrank count op source target (cubeDim size) 0 source .freeBuffer
    let result :=
      if vrank = 0 then
        if root = rank then [.copyBuf snd 0 target 0 count] else [.sendBuf root snd 0 count]
      else if rank = root then
        .recvBuf 0 rcv 0 count :: if rcv ≠ target then [opReduce op rcv 0 target 0 count] else []
      else []
    own ++ loop ++ result

/-- `coll_reduce` of the basic component, which is chosen by the size of the communicator. -/
def reduceIntra (crossover size rank root count : ℕ) (op : Op α) (k : Skew α) (sb rb : BasicBuf)
    (inPlace : Bool) : List (Instr (Bufs BasicBuf α) α) :=
  if size ≤ crossover then reduceLinIntra size rank root count op k sb rb inPlace
  else reduceLogIntra size rank root count op k sb rb inPlace

inductive InterRoot
  | procNull
  | mpiRoot
  | rank (r : ℕ)
  deriving DecidableEq, Repr

/-- The process of rank `r` in the other group is `remote r`. -/
def reduceLinInter (remote : ℕ → ℕ) (remoteSize count : ℕ) (op : Op α) (root : InterRoot) :
    List (Instr (Bufs BasicBuf α) α) :=
  match root with
  | .procNull => []
  | .rank r => [.sendBuf (remote r) .sbuf 0 count]
  | .mpiRoot =>
    .recvBuf (remote 0) .rbuf 0 count ::
      (List.range (remoteSize - 1)).flatMap fun j =>
        [.recvBuf (remote (j + 1)) .freeBuffer 0 count, opReduce op .freeBuffer 0 .rbuf 0 count]

/-- The process of rank `r` is `proc r`. -/
def scattervIntra (proc : ℕ → ℕ) (size rank root : ℕ) (sb : BasicBuf) (scounts disps : ℕ → ℕ)
    (rb : BasicBuf) (rcount : ℕ) : List (Instr (Bufs BasicBuf α) α) :=
  if rank ≠ root then if 0 < rcount then [.recvBuf (proc root) rb 0 rcount] else []
  else
    (List.range size).flatMap fun i =>
      if i = rank then
        if 0 < scounts i then [sndrcv sb (disps i) (scounts i) rb 0 rcount] else []
      else if 0 < scounts i then [.sendBuf (proc i) sb (disps i) (scounts i)]
      else []

end OpenMPI.Coll
