import Mathlib.Algebra.Order.Ring.Int
import OpenMPI.Lib.Exchange

/-!
# Dimensions of a grid of processes

`MPI_Dims_create` divides the processes among the dimensions whose entry is 0.  `int`s are integers
here, and where a signed sum would leave their range the call fails with `overflow`.  Allocations
succeed.
-/

namespace OpenMPI.Topo

/-- Ways in which `MPI_Dims_create` fails: `MPI_ERR_DIMS`, `MPI_ERR_INTERN` and an overflow of the
loop's counter, which leaves its behaviour undefined. -/
inductive DimsError where
  | dims
  | intern
  | overflow
  deriving DecidableEq

/-- One odd number of the loop of `getprimes`, with `n += 2` behind it. -/
def primesStep (size : ℕ) (primes : List ℕ) (n : ℕ) : Except DimsError (List ℕ) :=
  if primes.tail.any fun p => n % p = 0 then
    if 2 ^ 31 ≤ n + 2 then .error .overflow else .ok primes
  else if size ≤ primes.length then .error .dims
  else if 2 ^ 31 ≤ n + 2 then .error .overflow
  else .ok (primes ++ [n])

/-- `getprimes`, whose loop goes through 3, 5, … up to `num`. -/
def getprimes (num : ℕ) : Except DimsError (List ℕ) :=
  (List.range' 3 ((num - 1) / 2) 2).foldlM (primesStep (num / 2 + 1)) [2]

/-- The inner loop of `getfactors`: how often `p` was divided out of `num`, and what is left.  No more
than `fuel` rounds are made. -/
def divideOut (p : ℕ) : ℕ → ℕ → ℕ × ℕ
  | 0, num => (0, num)
  | fuel + 1, num =>
    if num % p = 0 then
      let (count, left) := divideOut p fuel (num / p)
      (count + 1, left)
    else (0, num)

def getfactors (num : ℕ) (primes : List ℕ) : Except DimsError (List ℕ) :=
  if primes.length = 0 then .error .intern
  else
    let (counts, left) := primes.foldr (fun p (counts, left) =>
      let (count, left) := divideOut p left left
      (count :: counts, left)) ([], num)
    if left ≠ 1 then .error .intern else .ok counts

def smallestBin (bins : List ℕ) : ℕ :=
  (List.range' 1 (bins.length - 1)).foldl (fun pmin i => if bins.getD i 0 < bins.getD pmin 0 then i else pmin) 0

def assignFactor (f : ℕ) (bins : List ℕ) : List ℕ :=
  bins.set (smallestBin bins) (bins.getD (smallestBin bins) 0 * f)

/-- `assignnodes`: the factors from the last prime to the first, each as often as it counts, then the
bins in decreasing order. -/
def assignnodes (ndim : ℕ) (pfacts counts : List ℕ) : Except DimsError (List ℕ) :=
  if ndim = 0 then .error .dims
  else
    let bins := (pfacts.zip counts).foldr (fun (f, count) bins => (assignFactor f)^[count] bins) (List.replicate ndim 1)
    .ok (Lib.exchangeSort bins)

def freeStep (nnodes : ℤ) (s : ℤ × ℕ) (p : ℤ) : Except DimsError (ℤ × ℕ) :=
  if p = 0 then .ok (s.1, s.2 + 1)
  else if p < 0 ∨ nnodes.tmod p ≠ 0 then .error .dims
  else .ok (s.1.tdiv p, s.2)

/-- The last loop: the entries that were 0 take the bins one after the other. -/
def assignDims : List ℤ → List ℕ → List ℤ
  | [], _ => []
  | d :: dims, procs => if d = 0 then procs.headD 0 :: assignDims dims procs.tail else d :: assignDims dims procs

/-- `MPI_Dims_create`, for an array `dims` of `ndims` entries (none where `ndims` is negative);
`paramCheck` is `MPI_PARAM_CHECK`. -/
def dimsCreate (paramCheck : Bool) (nnodes ndims : ℤ) (dims : List ℤ) : Except DimsError (List ℤ) :=
  if paramCheck ∧ 1 > ndims then .error .dims
  else do
    let (freeprocs, freedims) ← dims.foldlM (freeStep nnodes) (nnodes, 0)
    if freedims = 0 then
      if freeprocs = 1 then .ok dims else .error .dims
    else if freeprocs < 1 then .error .dims
    else if freeprocs = 1 then .ok (dims.map fun d => if d = 0 then 1 else d)
    else do
      let primes ← getprimes freeprocs.toNat
      let factors ← getfactors freeprocs.toNat primes
      let procs ← assignnodes freedims primes factors
      .ok (assignDims dims procs)

end OpenMPI.Topo
