import Mathlib.Algebra.Order.Ring.Int

/-!
# What a datatype was made of

`dt_args.c` where an `int` has 4 bytes and an `MPI_Aint` has 8, without `OMPI_ALIGN_WORD_SIZE_INTEGERS`: the
arguments of the call that made a datatype, and the length of their packed description.
-/

namespace OpenMPI.Ddt.Args

inductive Combiner
  | dup
  | contiguous
  | vector
  | hvector
  | indexed
  | hindexed
  | indexedBlock
  | struct
  | subarray
  | darray
  | resized
  deriving DecidableEq

/-- A datatype with its `ompi_ddt_args_t`; a predefined one has none. -/
inductive Datatype
  | predefined (id : ℕ)
  | made (createType : Combiner) (i a : List ℤ) (d : List Datatype)

def Datatype.isPredefined : Datatype → Bool
  | predefined _ => true
  | made .. => false

def typeDup (type : Datatype) : Datatype := .made .dup [] [] [type]

def typeContiguous (count : ℤ) (oldtype : Datatype) : Datatype := .made .contiguous [count] [] [oldtype]

def typeVector (count blocklength stride : ℤ) (oldtype : Datatype) : Datatype :=
  .made .vector [count, blocklength, stride] [] [oldtype]

def typeCreateHvector (count blocklength stride : ℤ) (oldtype : Datatype) : Datatype :=
  .made .hvector [count, blocklength] [stride] [oldtype]

def typeIndexed (blocks : List (ℤ × ℤ)) (oldtype : Datatype) : Datatype :=
  .made .indexed (blocks.length :: (blocks.map Prod.fst ++ blocks.map Prod.snd)) [] [oldtype]

def typeCreateHindexed (blocks : List (ℤ × ℤ)) (oldtype : Datatype) : Datatype :=
  .made .hindexed (blocks.length :: blocks.map Prod.fst) (blocks.map Prod.snd) [oldtype]

def typeCreateIndexedBlock (blocklength : ℤ) (displacements : List ℤ) (oldtype : Datatype) : Datatype :=
  .made .indexedBlock (displacements.length :: blocklength :: displacements) [] [oldtype]

def typeCreateStruct (blocks : List (ℤ × ℤ × Datatype)) : Datatype :=
  .made .struct (blocks.length :: blocks.map Prod.fst) (blocks.map fun b => b.2.1) (blocks.map fun b => b.2.2)

/-- The dimensions have a size, a size of the part and a start each. -/
def typeCreateSubarray (dims : List (ℤ × ℤ × ℤ)) (order : ℤ) (oldtype : Datatype) : Datatype :=
  .made .subarray (dims.length :: (dims.map Prod.fst ++ dims.map (fun d => d.2.1) ++ dims.map (fun d => d.2.2) ++ [order]))
    [] [oldtype]

/-- The dimensions have a size, a distribution, its argument and a number of processes each. -/
def typeCreateDarray (size rank : ℤ) (dims : List (ℤ × ℤ × ℤ × ℤ)) (order : ℤ) (oldtype : Datatype) : Datatype :=
  .made .darray (size :: rank :: dims.length :: (dims.map Prod.fst ++ dims.map (fun d => d.2.1) ++
    dims.map (fun d => d.2.2.1) ++ dims.map (fun d => d.2.2.2) ++ [order])) [] [oldtype]

def typeCreateResized (lb extent : ℤ) (oldtype : Datatype) : Datatype := .made .resized [] [lb, extent] [oldtype]

/-- `total_pack_size` of `ALLOC_ARGS`, or for a duplicate that of `ompi_ddt_set_args`. -/
def ownPackSize (createType : Combiner) (ci ca cd : ℕ) : ℕ :=
  if createType = .dup then 2 * 4 else ((4 + ci) * 4 + ca * 8 + cd * 4) % 2 ^ 64

mutual

def totalPackSize : Datatype → ℕ
  | .predefined _ => 0
  | .made createType i a d => addPackSizes d (ownPackSize createType i.length a.length d.length)

/-- The loop of `ompi_ddt_set_args` over the datatypes. -/
def addPackSizes : List Datatype → ℕ → ℕ
  | [], size => size
  | d :: ds, size => addPackSizes ds (if d.isPredefined then size else (size + totalPackSize d) % 2 ^ 64)

end

def packDescriptionLength (datatype : Datatype) : ℕ :=
  if datatype.isPredefined then 4 * 2 else totalPackSize datatype

mutual

/-- A datatype and those that it was made of, each as often as it was used, but the predefined ones. -/
def nodes : Datatype → List Datatype
  | .predefined _ => []
  | .made createType i a d => .made createType i a d :: nodesAll d

def nodesAll : List Datatype → List Datatype
  | [] => []
  | d :: ds => nodes d ++ nodesAll ds

end

/-- What the description says of one datatype: of a duplicate two numbers, otherwise four and all
arguments. -/
def entryLength : Datatype → ℕ
  | .predefined _ => 4 * 2
  | .made createType i a d => if createType = .dup then 4 * 2 else 4 * (4 + i.length + d.length) + 8 * a.length

def describedLength (datatype : Datatype) : ℕ :=
  if datatype.isPredefined then entryLength datatype else ((nodes datatype).map entryLength).sum

end OpenMPI.Ddt.Args
