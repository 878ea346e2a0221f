import Mathlib.Data.List.Sort
import OpenMPI.Ddt.Optimize
import OpenMPI.Group.Sparse
import OpenMPI.Lib.Grid

/-!
# Cartesian communicators

A process sees a communicator by its list of processes, its own rank in it and its topology.  The arrays of a topology
may be longer than the number of dimensions, which alone says how much of them counts.  Sizes of dimensions, coordinates
and ranks are never negative; periods are flags in an `int`, and the sums of `mca_topo_base_cart_shift` wrap around.
-/

namespace OpenMPI.Topo

open Groups (procNull undefined)
open Ddt (int32)

/-- `mca_topo_base_comm_t`, with `mtc_` left out. -/
structure Cart where
  ndims : ℕ
  dims : List ℕ
  periods : List ℤ
  coords : List ℕ
  deriving DecidableEq

structure Comm where
  procs : List ℕ
  rank : ℕ
  topo : Cart
  deriving DecidableEq

def Comm.size (comm : Comm) : ℕ := comm.procs.length

def fill {α : Type*} (array values : List α) : List α := values ++ array.drop values.length

/-- The loop of `mca_topo_base_cart_coords` and of `mca_topo_base_cart_create`. -/
def coordsLoop : List ℕ → ℕ → ℕ → List ℕ
  | [], _, _ => []
  | dim :: dims, remprocs, rank => rank / (remprocs / dim) :: coordsLoop dims (remprocs / dim) (rank % (remprocs / dim))

def cartCoords (comm : Comm) (rank maxdims : ℕ) (coords : List ℕ) : List ℕ :=
  fill coords (coordsLoop ((comm.topo.dims.take comm.topo.ndims).take maxdims) comm.size rank)

/-- One dimension of the loop of `mca_topo_base_cart_rank`, which goes from the last one to the first: the rank and the
factor. -/
def rankStep (entry : ℕ × ℤ) (s : ℤ × ℕ) : ℤ × ℕ :=
  let (dim, ord) := entry
  let ord :=
    if ord < 0 ∨ ord ≥ dim then
      let ord := ord.tmod dim
      if ord < 0 then ord + dim else ord
    else ord
  (s.1 + s.2 * ord, s.2 * dim)

def cartRank (comm : Comm) (coords : List ℤ) : ℤ :=
  (((comm.topo.dims.zip coords).take comm.topo.ndims).foldr rankStep (0, 1)).1

/-- What `mca_topo_base_cart_create` leaves: the number of processes, the rank and the topology. -/
structure Created where
  procCount : ℕ
  newRank : ℤ
  topo : Cart
  deriving DecidableEq

/-- `mca_topo_base_cart_create`, with no value where it returns an error. -/
def cartCreate (topo : Cart) (procCount newRank ndims : ℕ) : Option Created :=
  let dims := topo.dims.take topo.ndims
  let nprocs := dims.prod
  if dims.any (· == 0) then none
  else if procCount < nprocs then none
  else if nprocs - 1 < newRank then some ⟨nprocs, undefined, topo⟩
  else
    some ⟨nprocs, newRank, { topo with coords := fill topo.coords (coordsLoop (dims.take ndims) nprocs newRank) }⟩

def rankkeycompare (a b : ℕ × ℤ) : ℤ :=
  if a.2 < b.2 then -1
  else if a.2 > b.2 then 1
  else if a.1 < b.1 then -1
  else if a.1 = b.1 then 0
  else 1

/-- The ranks of the colour `color`, in the order of the new communicator: `results` holds the colour and the key of
each rank. -/
def splitRanks (results : List (ℤ × ℤ)) (color : ℤ) : List ℕ :=
  let sorted := ((results.zipIdx.filter fun r => r.1.1 = color).map fun r => (r.2, r.1.2)).insertionSort
    fun a b => rankkeycompare a b ≤ 0
  sorted.map Prod.fst

def copyTopo (oldt : Cart) : Cart :=
  if oldt.ndims = 0 then ⟨0, [], [], []⟩
  else ⟨oldt.ndims, oldt.dims.take oldt.ndims, oldt.periods.take oldt.ndims, oldt.coords.take oldt.ndims⟩

/-- `ompi_comm_split` of an intracommunicator, with `pass_on_topo` set.  The rank in the new communicator is the place of
the process in it. -/
def commSplit (comm : Comm) (color : ℤ) (results : List (ℤ × ℤ)) : Option Comm :=
  let procs := (splitRanks results color).map fun rank => comm.procs.getD rank 0
  if color = undefined then none
  else some ⟨procs, procs.idxOf (comm.procs.getD comm.rank 0), copyTopo comm.topo⟩

/-- The variables of the first loop of `mca_topo_base_cart_sub`. -/
structure Split where
  colour : ℕ
  key : ℕ
  colfactor : ℕ
  keyfactor : ℕ
  ndim : ℕ
  deriving DecidableEq

/-- One dimension of the loop, which goes from the last one to the first. -/
def Split.step (entry : ℕ × ℕ × ℤ) (s : Split) : Split :=
  let (dim, coord, remain) := entry
  if remain = 0 then { s with colour := s.colour + s.colfactor * coord, colfactor := s.colfactor * dim }
  else { s with ndim := s.ndim + 1, key := s.key + s.keyfactor * coord, keyfactor := s.keyfactor * dim }

def splitLoop (topo : Cart) (remainDims : List ℤ) : Split :=
  ((topo.dims.zip (topo.coords.zip remainDims)).take topo.ndims).foldr Split.step ⟨0, 0, 1, 1, 0⟩

/-- The colour and the key that a process splits the communicator with. -/
def colourKey (comm : Comm) (remainDims : List ℤ) : ℤ × ℤ :=
  let s := splitLoop comm.topo remainDims
  (if s.ndim = 0 then (comm.rank : ℤ) else s.colour, s.key)

/-- The sizes of the dimensions that `remain_dims` keeps. -/
def keptLoop : List (ℕ × ℤ) → List ℕ
  | [] => []
  | (dim, remain) :: entries => if remain = 0 then keptLoop entries else dim :: keptLoop entries

/-- `mca_topo_base_cart_sub`, where `results` holds the colour and the key of each rank. -/
def cartSub (comm : Comm) (remainDims : List ℤ) (results : List (ℤ × ℤ)) : Option Comm :=
  let s := splitLoop comm.topo remainDims
  (commSplit comm (colourKey comm remainDims).1 results).map fun new =>
    let topo := { new.topo with ndims := s.ndim }
    if s.ndim ≥ 1 then
      let topo := { topo with dims := fill topo.dims (keptLoop ((comm.topo.dims.zip remainDims).take comm.topo.ndims)) }
      let new := { new with topo }
      { new with topo := { topo with coords := cartCoords new new.rank s.ndim topo.coords } }
    else { new with topo }

/-- The loop of `mca_topo_base_cart_shift` over dimensions and periods: it leaves the rank in what is left, the factor, and
the size and the period of the last dimension it went through. -/
def shiftLoop : List (ℕ × ℤ) → ℕ → ℕ → ℕ → ℤ → ℕ × ℕ × ℕ × ℤ
  | [], ord, factor, thisdirection, thisperiod => (ord, factor, thisdirection, thisperiod)
  | (d, q) :: entries, ord, factor, _, _ => shiftLoop entries (ord % factor) (factor / d) d q

/-- The rank of the process with the coordinate `target` in place of `ord`. -/
def shiftRank (rank ord factor thisdirection : ℕ) (thisperiod target : ℤ) : ℤ :=
  if (target < 0 ∨ target ≥ thisdirection) ∧ thisperiod = 0 then procNull
  else
    let target := target.tmod thisdirection
    let target := if target < 0 then target + thisdirection else target
    rank + (target - ord) * factor

/-- `mca_topo_base_cart_shift`: the ranks of the source and of the destination. -/
def cartShift (comm : Comm) (direction : ℕ) (disp : ℤ) : ℤ × ℤ :=
  if disp = 0 then (comm.rank, comm.rank)
  else
    let (left, factor, thisdirection, thisperiod) :=
      shiftLoop (((comm.topo.dims.zip comm.topo.periods).take comm.topo.ndims).take (direction + 1)) comm.rank comm.size 0 0
    let ord := left / factor
    (shiftRank comm.rank ord factor thisdirection thisperiod (int32 (ord - disp)),
      shiftRank comm.rank ord factor thisdirection thisperiod (int32 (ord + disp)))

end OpenMPI.Topo
