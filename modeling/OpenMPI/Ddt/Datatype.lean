import OpenMPI.Ddt.Optimize

/-!
# Datatypes

`ompi_ddt_add`, the constructors over it and `ompi_ddt_commit`.  Left out of `ompi_datatype_t` are
the fields that only the heterogeneous convertor and the printing read: `bdt_used`, `btypes`,
`name`, `args`, the packed description and the Fortran index.
-/

namespace OpenMPI.Ddt

def longMax : ℤ := 2 ^ 63 - 1

def longMin : ℤ := -2 ^ 63

def maxDtComponentCount : ℕ := 2 ^ 32 - 1

/-- `ompi_datatype_t`.  A new one is as `__get_free_dt_struct` leaves it; `desc` has no place for
the fake end of loop that a commit puts behind it, `optDesc` has. -/
structure Datatype where
  id : ℕ := 0
  size : ℕ := 0
  trueLb : ℤ := longMax
  trueUb : ℤ := longMin
  lb : ℤ := longMax
  ub : ℤ := longMin
  align : ℕ := 1
  nbElems : ℕ := 0
  predefined : Bool := false
  committed : Bool := false
  contiguous : Bool := true
  noGaps : Bool := false
  userLb : Bool := false
  userUb : Bool := false
  data : Bool := false
  desc : List Desc := []
  optDesc : List Desc := []
  deriving DecidableEq, Repr

namespace Datatype

def extent (d : Datatype) : ℤ := d.ub - d.lb

def ddtCreate : Datatype := {}

def basic (t : Basic) (align : ℕ) : Datatype where
  id := t.id
  size := t.size
  trueLb := 0
  trueUb := t.size
  lb := 0
  ub := t.size
  align
  nbElems := 1
  predefined := true
  committed := true
  noGaps := true
  data := true
  desc := [.elem ⟨true, t, 1, t.size, 0⟩]
  optDesc := [.elem ⟨true, t, 1, t.size, 0⟩, .endLoop ⟨1, t.size, 0⟩]

def dtLb : ℕ := 2

def dtUb : ℕ := 3

/-- `MPI_LB`, `MPI_UB` and `MPI_DATATYPE_NULL`, which have no bytes. -/
def marker (id : ℕ) : Datatype where
  id
  trueLb := 0
  trueUb := 0
  lb := 0
  ub := 0
  align := 0
  nbElems := 1
  predefined := true
  contiguous := false

def mpiDatatypeNull : Datatype := marker 0

/-- The markers move a bound. -/
def addLb (base : Datatype) (disp : ℤ) : Datatype :=
  let lb := if base.userLb then min base.lb disp else disp
  { base with
    lb
    userLb := true
    noGaps := base.noGaps && decide (base.ub - lb = base.size) }

def addUb (base : Datatype) (disp : ℤ) : Datatype :=
  let ub := if base.userUb then max base.ub disp else disp
  { base with
    ub
    userUb := true
    noGaps := base.noGaps && decide (ub - base.lb = base.size) }

def lbUbCont (count : ℕ) (disp oldLb oldUb oldExtent : ℤ) : ℤ × ℤ :=
  if count = 0 then (oldLb + disp, oldUb + disp)
  else
    let upper := disp + oldExtent * (count - 1)
    let lower := disp
    if lower < upper then (lower + oldLb, upper + oldUb) else (upper + oldLb, lower + oldUb)

def addedTrueBounds (add : Datatype) (count : ℕ) (disp extent : ℤ) : ℤ × ℤ :=
  let (lb, ub) := lbUbCont count disp add.lb add.ub extent
  let trueLb := lb - (add.lb - add.trueLb)
  let trueUb := ub - (add.ub - add.trueUb)
  if trueLb > trueUb then (trueUb, trueLb) else (trueLb, trueUb)

/-- The bounds, the alignment and the flags that go with them. -/
def addBounds (base add : Datatype) (count : ℕ) (disp extent : ℤ) : Datatype :=
  let (lb, ub) := lbUbCont count disp add.lb add.ub extent
  let lb := if add.userLb ≠ base.userLb then (if base.userLb then base.lb else lb)
    else min base.lb lb
  let ub := if base.userUb ≠ add.userUb then (if base.userUb then base.ub else ub)
    else max base.ub ub
  let userUb := base.userUb || add.userUb
  let align := max base.align add.align
  let epsilon := (ub - lb).tmod align
  { base with
    lb
    ub := if !userUb && epsilon ≠ 0 then ub + (align - epsilon) else ub
    userLb := base.userLb || add.userLb
    userUb
    align
    data := true }

/-- The entries that `ompi_ddt_add` writes behind those of the base. -/
def addedDesc (add : Datatype) (count : ℕ) (disp extent : ℤ) : List Desc :=
  if add.predefined && add.data then
    -- one of the datatypes of `ompi_ddt_basicDatatypes`
    if h : 0 < add.size then
      let type : Basic := ⟨add.id, add.size, h⟩
      if extent ≠ add.size ∧ 1 < count then
        [.loop ⟨false, count, 2, extent⟩, .elem ⟨true, type, 1, add.size, disp⟩,
          .endLoop ⟨2, add.size, disp⟩]
      else [.elem ⟨add.contiguous, type, count, extent, disp⟩]
    else []
  else
    match add.desc with
    | [.elem e] =>
      if extent = add.extent ∧ extent = e.extent then
        [.elem { e with count := e.count * count, disp := e.disp + disp }]
      else addedLoop [.elem { e with disp := e.disp + disp }]
    | desc => addedLoop (desc.map (Desc.move disp))
where
  addedLoop (desc : List Desc) : List Desc :=
    if count ≠ 1 then
      .loop ⟨add.contiguous, count, desc.length + 1, extent⟩ :: desc ++
        [.endLoop ⟨desc.length + 1, add.size, firstElemDisp desc⟩]
    else desc

/-- `OMPI_DDT_COMPUTE_REQUIRED_ENTRIES` gives up on these. -/
def tooManyEntries (add : Datatype) (count : ℕ) : Bool :=
  !add.predefined && count ≠ 1 && maxDtComponentCount - 2 ≤ add.desc.length

/-- The size, the true bounds, the description and the contiguous flags.

The true bounds of a base without bytes are `LONG_MAX` and `LONG_MIN`, which the minimum and the
maximum always replace. -/
def addData (base add : Datatype) (count : ℕ) (disp extent : ℤ) : Datatype :=
  let (trueLb, trueUb) := addedTrueBounds add count disp extent
  let oldTrueUb := if base.nbElems = 0 then disp else base.trueUb
  let size := base.size + count * add.size
  let contiguous := base.contiguous && add.contiguous && decide (disp + add.trueLb = oldTrueUb) &&
    decide ((add.size : ℤ) = extent ∨ count < 2)
  { base with
    size
    trueLb := if base.size = 0 then trueLb else min trueLb base.trueLb
    trueUb := if base.size = 0 then trueUb else max trueUb base.trueUb
    desc := base.desc ++ addedDesc add count disp extent
    contiguous
    noGaps := contiguous && decide ((size : ℤ) = base.ub - base.lb)
    nbElems := base.nbElems + count * add.nbElems }

/-- `ompi_ddt_add`; the constructors do not look at what it returns. -/
def ddtAdd (base add : Datatype) (count : ℕ) (disp extent : ℤ) : Datatype :=
  let extent := if extent = -1 then add.extent else extent
  if add.id = dtLb then base.addLb disp
  else if add.id = dtUb then base.addUb disp
  else if add.tooManyEntries count then base
  else
    let base := base.addBounds add count disp extent
    if count = 0 ∨ add.size = 0 then base else base.addData add count disp extent

def ddtDuplicate (old : Datatype) : Datatype := { old with predefined := false }

def ddtCreateResized (old : Datatype) (lb extent : ℤ) : Datatype :=
  { old.ddtDuplicate with
    lb
    ub := lb + extent
    noGaps := decide (extent = old.size) && old.contiguous }

def empty : Datatype := ddtCreate.ddtAdd mpiDatatypeNull 0 0 0

def ddtCreateContiguous (count : ℕ) (old : Datatype) : Datatype :=
  if count = 0 then empty else ddtCreate.ddtAdd old count 0 old.extent

/-- `ompi_ddt_create_vector` and `ompi_ddt_create_hvector`, whose stride is in bytes; `apart` is
whether the blocks are. -/
def createVector (count bLength : ℕ) (stride : ℤ) (apart : Bool) (old : Datatype) : Datatype :=
  if count = 0 then empty
  else if !apart || 1 ≥ count then ddtCreate.ddtAdd old (count * bLength) 0 old.extent
  else if bLength = 1 then ddtCreate.ddtAdd old count 0 stride
  else ddtCreate.ddtAdd (ddtCreate.ddtAdd old bLength 0 old.extent) count 0 stride

def ddtCreateVector (count bLength : ℕ) (stride : ℤ) (old : Datatype) : Datatype :=
  createVector count bLength (old.extent * stride) (decide ((bLength : ℤ) ≠ stride)) old

def ddtCreateHvector (count bLength : ℕ) (stride : ℤ) (old : Datatype) : Datatype :=
  createVector count bLength stride (decide (old.extent * bLength ≠ stride)) old

/-- The loop of the indexed constructors: blocks that follow one another are added together.
Displacements are counted in units of `unit` bytes, and a block of length one in `step` units. -/
def createIndexedGo (old : Datatype) (unit step : ℤ) :
    List (ℕ × ℤ) → ℕ → ℤ → ℤ → Datatype → Datatype
  | [], dLength, disp, _, pdt => pdt.ddtAdd old dLength (disp * unit) old.extent
  | (length, disp') :: rest, dLength, disp, endat, pdt =>
    if endat = disp' then
      createIndexedGo old unit step rest (dLength + length) disp (endat + length * step) pdt
    else
      createIndexedGo old unit step rest length disp' (disp' + length * step)
        (pdt.ddtAdd old dLength (disp * unit) old.extent)

def createIndexed (unit step : ℤ) (old : Datatype) : List (ℕ × ℤ) → Datatype
  | [] => empty
  | (length, disp) :: rest =>
    createIndexedGo old unit step rest length disp (disp + length * step) ddtCreate

def ddtCreateIndexed (blocks : List (ℕ × ℤ)) (old : Datatype) : Datatype :=
  createIndexed old.extent 1 old blocks

def ddtCreateHindexed (blocks : List (ℕ × ℤ)) (old : Datatype) : Datatype :=
  createIndexed 1 old.extent old blocks

def ddtCreateIndexedBlock (bLength : ℕ) (disps : List ℤ) (old : Datatype) : Datatype :=
  match disps with
  | [] => empty
  | disp :: _ =>
    if bLength = 0 then ddtCreate.ddtAdd old 0 (disp * old.extent) old.extent
    else createIndexed old.extent 1 old (disps.map fun d => (bLength, d))

/-- A field of a structure; `handle` is the pointer to its datatype, by which the constructor
compares them. -/
structure Field where
  blockLength : ℕ
  disp : ℤ
  handle : ℕ
  type : Datatype

def createStructGo : List Field → Field → ℤ → Datatype → Datatype
  | [], last, _, pdt => pdt.ddtAdd last.type last.blockLength last.disp last.type.extent
  | field :: rest, last, endto, pdt =>
    if field.handle = last.handle ∧ field.disp = endto then
      let last := { last with blockLength := last.blockLength + field.blockLength }
      createStructGo rest last (last.disp + last.blockLength * last.type.extent) pdt
    else
      createStructGo rest field (field.disp + field.type.extent * field.blockLength)
        (pdt.ddtAdd last.type last.blockLength last.disp last.type.extent)

def ddtCreateStruct : List Field → Datatype
  | [] => empty
  | field :: rest =>
    createStructGo rest field (field.disp + field.type.extent * field.blockLength) ddtCreate

def fakeEnd (desc : List Desc) (used size : ℕ) : Desc :=
  .endLoop ⟨used, size, if size ≠ 0 then firstElemDisp desc else 0⟩

/-- The optimised description with its own fake end of loop. -/
def optimized (d : Datatype) : List Desc :=
  if d.desc = [] then []
  else
    let opt := optimizeShort (d.desc ++ [fakeEnd d.desc d.desc.length d.size])
    let used := opt.length - 1
    if used ≠ 0 then opt.take used ++ [fakeEnd d.desc used d.size] else opt

def ddtCommit (d : Datatype) : Datatype :=
  if d.committed then d else { d with committed := true, optDesc := d.optimized }

/-- `DECLARE_MPI2_COMPOSED_STRUCT_DDT` and `DECLARE_MPI2_COMPOSED_BLOCK_DDT`: the datatype becomes
one of the predefined ones, with the upper bound the compiler has for it. -/
def predefine (d : Datatype) (id : ℕ) (ub : ℤ) : Datatype :=
  { ({ d with ub, id }).ddtCommit with predefined := true }

/-- What the constructors build.  Only a datatype that is neither committed nor predefined is added
to. -/
inductive Built : Datatype → Prop
  | basic {t : Basic} {align : ℕ} (hid : t.id ≠ dtLb ∧ t.id ≠ dtUb) : Built (basic t align)
  | marker {id : ℕ} : Built (marker id)
  | create : Built ddtCreate
  | add {base add : Datatype} {count : ℕ} {disp extent : ℤ} (hbase : Built base)
    (hopen : base.committed = false ∧ base.predefined = false) (hadd : Built add) :
    Built (base.ddtAdd add count disp extent)
  | duplicate {old : Datatype} (hold : Built old) : Built old.ddtDuplicate
  | resized {old : Datatype} {lb extent : ℤ} (hold : Built old) :
    Built (old.ddtCreateResized lb extent)
  | commit {d : Datatype} (hd : Built d) : Built d.ddtCommit
  | predefine {d : Datatype} {id : ℕ} {ub : ℤ} (hd : Built d) (hcommitted : d.committed = false)
    (hdata : d.data = true) (hlb : d.trueLb = 0) (hid : id ≠ dtLb ∧ id ≠ dtUb) :
    Built (d.predefine id ub)

end Datatype

end OpenMPI.Ddt
