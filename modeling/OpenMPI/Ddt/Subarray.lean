import OpenMPI.Ddt.Datatype
import OpenMPI.Lib.Grid

/-!
# Subarrays

`MPI_Type_create_subarray` goes through the dimensions from the one that varies fastest.  Of its
argument checks the one of `ndims` and those of null pointers are left out: the arrays are a list.
-/

namespace OpenMPI.Ddt

open Lib Lib.Grid

/-- An entry of `size_array`, `subsize_array` and `start_array`. -/
structure Dim where
  size : ℤ
  subsize : ℤ
  start : ℤ

def Dim.check (d : Dim) : Option Part :=
  if h : d.subsize < 1 ∨ d.subsize > d.size then none
  else if h' : d.start < 0 ∨ d.start > d.size - d.subsize then none
  else some ⟨d.size.toNat, d.start.toNat, d.subsize.toNat, by omega, by omega⟩

inductive SubarrayError
  | type
  | arg
  deriving DecidableEq, Repr

def mpiOrderC : ℤ := 0

def mpiOrderFortran : ℤ := 1

namespace Datatype

/-- The loop over the dimensions behind the first two, with `last_type`, `size` and `displ`. -/
def subarrayGo (extent : ℤ) : List Part → Datatype → ℤ → ℤ → Datatype × ℤ × ℤ
  | [], last, size, displ => (last, size, displ)
  | d :: dims, last, size, displ =>
    subarrayGo extent dims (ddtCreateHvector d.length 1 (size * extent) last) (size * d.size)
      (displ + size * d.start)

/-- `replace_subarray_type`: the datatype at its displacement, with both bounds. -/
def replaceSubarrayType (extent : ℤ) (last : Datatype) (size displ : ℤ) : Datatype :=
  ddtCreateStruct [⟨1, 0, 0, marker dtLb⟩, ⟨1, displ * extent, 1, last⟩,
    ⟨1, size * extent, 2, marker dtUb⟩]

def createSubarray (dims : List Part) (old : Datatype) : Datatype :=
  match dims with
  | [] => mpiDatatypeNull
  | [d] => replaceSubarrayType old.extent (ddtCreateContiguous d.length old) d.size d.start
  | d :: d' :: dims =>
    let (last, size, displ) := subarrayGo old.extent dims
      (ddtCreateVector d'.length d.length d.size old) (d.size * d'.size) (d.start + d'.start * d.size)
    replaceSubarrayType old.extent last size displ

def mpiTypeCreateSubarray (dims : List Dim) (order : ℤ) (old : Datatype) :
    Except SubarrayError Datatype :=
  if old = mpiDatatypeNull then .error .type
  else if order ≠ mpiOrderC ∧ order ≠ mpiOrderFortran then .error .arg
  else
    match dims.mapM Dim.check with
    | none => .error .arg
    | some parts => .ok (createSubarray (if order = mpiOrderC then parts.reverse else parts) old)

end Datatype

end OpenMPI.Ddt
