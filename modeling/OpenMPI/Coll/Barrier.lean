import OpenMPI.Coll.Util
import OpenMPI.Lib.Posting

/-!
# The barriers of `coll_tuned_barrier.c`

Each as the operations that a process posts and waits for.  All messages are empty and have the tag of barriers, and so
only barriers of the communicator meet on it.  Calls that send or receive do not fail.
-/

namespace OpenMPI.Coll.Barrier

open OpenMPI.Lib

/-- What a receive accepts; -1 is `MPI_ANY_SOURCE`. -/
def source (src : ℤ) : Option ℕ := if src = -1 then none else some src.toNat

def recv (src : ℤ) : List Posting.Op := [.irecv (source src), .wait]

/-- `MCA_PML_CALL(send(..))`, with `MCA_PML_BASE_SEND_SYNCHRONOUS` or `MCA_PML_BASE_SEND_STANDARD`. -/
def send (dst : ℕ) (sync : Bool) : List Posting.Op := [.isend dst sync, .wait]

def sendrecvActual (dest src : ℕ) : List Posting.Op := [.irecv (source src), .isend dest false, .wait]

/-- `for (mask = 1; mask < limit; mask <<= 1)`, as many rounds as it can take. -/
def upLoop (limit : ℕ) (body : ℕ → List Posting.Op) : (fuel mask : ℕ) → List Posting.Op
  | 0, _ => []
  | fuel + 1, mask => if mask < limit then body mask ++ upLoop limit body fuel (mask <<< 1) else []

/-- `for (jump = depth; jump > 0; jump >>= 1)`, as many rounds as it can take. -/
def downLoop (body : ℕ → List Posting.Op) : (fuel jump : ℕ) → List Posting.Op
  | 0, _ => []
  | fuel + 1, jump => if 0 < jump then body jump ++ downLoop body fuel (jump >>> 1) else []

/-- `ompi_coll_tuned_barrier_intra_doublering`; the remainder of -1 is -1 in C. -/
def doublering (size rank : ℕ) : List Posting.Op :=
  let left := Int.tmod ((rank : ℤ) - 1) size
  let right := (rank + 1) % size
  (if 0 < rank then recv left else []) ++ send right false ++ (if rank = 0 then recv left else []) ++
    (if 0 < rank then recv left else []) ++ send right true ++ (if rank = 0 then recv left else [])

def recursivedoubling (size rank : ℕ) : List Posting.Op :=
  let adjsize := nearestPower size
  (if adjsize ≠ size then
    if adjsize ≤ rank then sendrecvActual (rank - adjsize) (rank - adjsize)
    else if rank < size - adjsize then recv (rank + adjsize : ℕ) else []
  else []) ++
  (if rank < adjsize then
    upLoop adjsize (fun mask =>
      let remote := rank ^^^ mask
      if adjsize ≤ remote then [] else sendrecvActual remote remote) adjsize 1
  else []) ++
  (if adjsize ≠ size then
    if rank < size - adjsize then send (rank + adjsize) true else []
  else [])

def bruck (size rank : ℕ) : List Posting.Op :=
  upLoop size (fun distance =>
    let src := (rank + size - distance) % size
    let dest := (rank + distance) % size
    sendrecvActual dest src) size 1

def twoProcs (rank : ℕ) : List Posting.Op :=
  let remote := (rank + 1) &&& 0x1
  sendrecvActual remote remote

def basicLinear (size rank : ℕ) : List Posting.Op :=
  if 0 < rank then send 0 false ++ recv 0
  else
    ((List.range' 1 (size - 1)).map fun _ => .irecv (source (-1))) ++ [.wait] ++
      ((List.range' 1 (size - 1)).map fun i => .isend i false) ++ [.wait]

def depthLoop (size : ℕ) : (fuel depth : ℕ) → ℕ
  | 0, depth => depth
  | fuel + 1, depth => if depth < size then depthLoop size fuel (depth <<< 1) else depth

def tree (size rank : ℕ) : List Posting.Op :=
  let depth := depthLoop size size 1
  upLoop depth (fun jump =>
    let partner := rank ^^^ jump
    if partner &&& (jump - 1) = 0 ∧ partner < size then
      if rank < partner then recv partner else if partner < rank then send partner false else []
    else []) depth 1 ++
  downLoop (fun jump =>
    let partner := rank ^^^ jump
    if partner &&& (jump - 1) = 0 ∧ partner < size then
      if rank < partner then send partner false else if partner < rank then recv partner else []
    else []) depth (depth >>> 1)

/-- The barriers that can be chosen; the one for two processes is there for two only. -/
inductive Algorithm
  | doublering
  | recursivedoubling
  | bruck
  | twoProcs
  | basicLinear
  | tree
  deriving DecidableEq

def Algorithm.prog : Algorithm → (size rank : ℕ) → List Posting.Op
  | .doublering, size, rank => Barrier.doublering size rank
  | .recursivedoubling, size, rank => Barrier.recursivedoubling size rank
  | .bruck, size, rank => Barrier.bruck size rank
  | .twoProcs, _, rank => Barrier.twoProcs rank
  | .basicLinear, size, rank => Barrier.basicLinear size rank
  | .tree, size, rank => Barrier.tree size rank

/-- One barrier after the other on a communicator, where `eager` says which standard sends complete at once. -/
def calls (a : Algorithm) (size : ℕ) (eager : ℕ → ℕ → ℕ → Bool) : Posting.Calls := ⟨size, a.prog size, eager⟩

end OpenMPI.Coll.Barrier
