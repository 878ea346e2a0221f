import OpenMPI.Ddt.Datatype
import OpenMPI.Ddt.Walk
import OpenMPI.Lib.Gather

/-!
# Convertors

`ompi_generic_simple_pack_function` and `ompi_generic_simple_unpack_function` for the same
architecture on both sides.  User memory is addressed from `pBaseBuf` on.  What is packed is told by
the addresses it is read from, iovec by iovec.

A caller's buffer is read behind its end, and the 16 bytes for a basic element that is cut are
overrun, where the result is `none`.
-/

namespace OpenMPI.Ddt

open Lib

/-- The fields of `ompi_convertor_t` that the functions for one architecture read; `use_desc` is the
optimised description.  The stack starts with `pStack[stack_pos]`. -/
structure Convertor where
  type : Datatype
  count : ℕ
  localSize : ℕ
  stack : List StackEntry
  bConverted : ℕ := 0
  partialLength : ℕ := 0
  completed : Bool := false
  deriving DecidableEq, Repr

/-- The test of `pack_predefined_data`. -/
def packSame (e : Elem) : Bool := decide ((e.type.size : ℤ) = e.extent)

/-- The test of `unpack_predefined_data` and `copy_predefined_data`, which compare with the lower 32
bits of the extent. -/
def unpackSame (e : Elem) : Bool := decide (e.type.size = uint32 e.extent)

namespace Convertor

/-- `OMPI_CONVERTOR_PREPARE` and `ompi_convertor_create_stack_at_begining`. -/
def prepare (d : Datatype) (count : ℕ) : Convertor where
  type := d
  count
  localSize := count * d.size
  stack := [⟨0, (d.optDesc[0]?.map Desc.count).getD 0, 0⟩, ⟨-1, count, 0⟩]
  completed := decide (count = 0 ∨ d.size = 0)

def resume (c : Convertor) : Option Walk :=
  match c.stack with
  | [] => none
  | top :: stack =>
    some { posDesc := top.index.toNat, countDesc := top.count
           pointer := top.disp + Walk.topDisp stack, stack, space := 0 }

def suspend (c : Convertor) (w : Walk) : Convertor :=
  { c with stack := ⟨w.posDesc, w.countDesc, w.pointer - w.disp⟩ :: w.stack }

def advance (c : Convertor) (w : Walk) (converted : ℕ) : Convertor :=
  let c := { c with bConverted := c.bConverted + converted }
  if c.bConverted = c.localSize then { c with stack := w.stack, completed := true } else c.suspend w

/-- The loop over the iovecs, which are told by their lengths. -/
def packGo (fuel : ℕ) (desc : List Desc) (extent : ℤ) :
    List ℕ → Walk → Option (Walk × List (List (ℤ × ℕ)))
  | [], w => some (w, [])
  | len :: iov, w =>
    match Walk.run packSame desc extent fuel { w with space := len, moved := [] } with
    | none => none
    | some (w', .completed) => some (w', [w'.moved])
    | some (w', _) => (packGo fuel desc extent iov w').map fun r => (r.1, w'.moved :: r.2)

/-- `ompi_generic_simple_pack_function`; `max_data` and `out_size` are the width and the number of
what is packed. -/
def genericSimplePack (fuel : ℕ) (c : Convertor) (iov : List ℕ) :
    Option (Convertor × List (List (ℤ × ℕ))) :=
  c.resume.bind fun w =>
    (packGo fuel c.type.optDesc c.type.extent iov w).map fun r =>
      (c.advance r.1 (r.2.map width).sum, r.2)

def unusedByte (partialData : List UInt8) : UInt8 :=
  (((List.range 128).map fun k => UInt8.ofNat (127 - k)).find? fun b => b ∉ partialData).getD 0

/-- `ompi_unpack_partial_datatype`, of the bytes of one basic element from `start` on. -/
def unpackPartialDatatype (e : Elem) (mem : ℤ → UInt8) (userBuffer : ℤ) (start : ℕ)
    (partialData : List UInt8) : Option (ℤ → UInt8) :=
  if 16 < e.type.size then none
  else
    let realData := run (userBuffer + e.disp) e.type.size
    let unused := unusedByte partialData
    let temporary := List.replicate start unused ++ partialData ++
      List.replicate (e.type.size - (start + partialData.length)) unused
    let savedData := gather mem realData
    let mem := scatter mem realData temporary
    let restored := (gather mem realData).zipWith (fun b saved => if b = unused then saved else b)
      savedData
    some (scatter mem realData restored)

/-- The local variables of `ompi_generic_simple_unpack_function`, with the user's memory. -/
structure Unpacking where
  walk : Walk
  partialLength : ℕ
  mem : ℤ → UInt8

/-- The rest of a basic element that was cut. -/
def finishPartial (desc : List Desc) (u : Unpacking) (data : List UInt8) :
    Option (Unpacking × List UInt8) :=
  if u.partialLength = 0 then some (u, data)
  else
    match desc[u.walk.posDesc]? with
    | some (.elem e) =>
      let missing := e.type.size - u.partialLength
      if data.length < missing then none
      else
        (unpackPartialDatatype e u.mem u.walk.pointer u.partialLength (data.take missing)).map
          fun mem =>
            let w : Walk := { u.walk with
              countDesc := u.walk.countDesc - 1
              pointer := u.walk.pointer + if unpackSame e then (e.type.size : ℤ) else e.extent }
            (⟨if w.countDesc = 0 then w.enter desc (w.posDesc + 1) else w, 0, mem⟩,
              data.drop missing)
    | _ => none

/-- What is left of an iovec is the start of a basic element. -/
def startPartial (desc : List Desc) (u : Unpacking) (data : List UInt8) : Option Unpacking :=
  if u.walk.space = 0 then some u
  else
    match desc[u.walk.posDesc]? with
    | some (.elem e) =>
      (unpackPartialDatatype e u.mem u.walk.pointer 0 (data.drop (data.length - u.walk.space))).map
        fun mem => ⟨{ u.walk with space := 0 }, u.walk.space, mem⟩
    | _ => none

/-- The loop over the iovecs, with the number of bytes that are taken from them. -/
def unpackGo (fuel : ℕ) (desc : List Desc) (extent : ℤ) :
    List (List UInt8) → Unpacking → Option (Unpacking × ℕ)
  | [], u => some (u, 0)
  | data :: iov, u =>
    (finishPartial desc u data).bind fun (u, rest) =>
      match Walk.run unpackSame desc extent fuel
        { u.walk with space := rest.length, moved := [] } with
      | none => none
      | some (w, status) =>
        let u : Unpacking := { u with walk := w, mem := scatter u.mem (bytes w.moved) rest }
        if status = .completed then some (u, data.length - w.space)
        else
          (startPartial desc u rest).bind fun u =>
            (unpackGo fuel desc extent iov u).map fun r => (r.1, data.length + r.2)

/-- `ompi_generic_simple_unpack_function` of iovecs with these bytes. -/
def genericSimpleUnpack (fuel : ℕ) (c : Convertor) (mem : ℤ → UInt8) (iov : List (List UInt8)) :
    Option (Convertor × (ℤ → UInt8)) :=
  c.resume.bind fun w =>
    (unpackGo fuel c.type.optDesc c.type.extent iov ⟨w, c.partialLength, mem⟩).map fun r =>
      ({ c.advance r.1.walk r.2 with partialLength := r.1.partialLength }, r.1.mem)

/-- Calls of `ompi_generic_simple_pack_function` with a buffer each, until the convertor is completed. -/
def genericPackCalls (fuel : ℕ) : Convertor → List ℕ → Option (Convertor × List (List (ℤ × ℕ)))
  | c, [] => some (c, [])
  | c, len :: lens =>
    if c.completed then some (c, [])
    else (genericSimplePack fuel c [len]).bind fun r =>
      (genericPackCalls fuel r.1 lens).map fun r' => (r'.1, r.2 ++ r'.2)

/-- Calls of `ompi_convertor_unpack`, which does nothing once the convertor is completed. -/
def unpackCalls
    (advance : Convertor → (ℤ → UInt8) → List (List UInt8) → Option (Convertor × (ℤ → UInt8))) :
    Convertor → (ℤ → UInt8) → List (List (List UInt8)) → Option (Convertor × (ℤ → UInt8))
  | c, mem, [] => some (c, mem)
  | c, mem, iov :: calls =>
    (if c.completed then some (c, mem) else advance c mem iov).bind fun r =>
      unpackCalls advance r.1 r.2 calls

end Convertor

end OpenMPI.Ddt

/-!
## Convertors for contiguous datatypes

`ompi_unpack_homogeneous_contig_function` and `ompi_pack_homogeneous_contig_with_gaps_function`.  They
do not walk over the description.  The displacements of the two entries on the stack tell where the
next byte is.
-/

namespace OpenMPI.Ddt

open Lib

namespace Convertor

def initialDispl (c : Convertor) : ℤ :=
  match c.type.optDesc.getLast? with
  | some (.endLoop e) => e.firstElemDisp
  | _ => 0

/-- What `ompi_unpack_homogeneous_contig_function` changes: `bConverted`, `stack[0].disp`,
`stack[1].disp` and the user's memory. -/
structure Contig where
  bConverted : ℕ
  disp0 : ℤ
  disp1 : ℤ
  mem : ℤ → UInt8

def unpackContigIov (c : Convertor) (s : Contig) (data : List UInt8) : Contig :=
  let size := c.type.size
  let extent := c.type.extent
  let remaining := c.localSize - s.bConverted
  let remaining := if remaining > uint32 data.length then data.length else remaining
  let bConverted := s.bConverted + remaining
  if (size : ℤ) = extent then
    { s with
      bConverted
      mem := scatter s.mem (run (c.initialDispl + s.bConverted) remaining) data }
  else
    let userMemory := c.initialDispl + (s.disp0 + s.disp1)
    let done := s.bConverted - s.bConverted / size * size
    -- the rest of the element before, if the iovec has all of it
    let length := if done ≠ 0 ∧ size - done ≤ remaining then size - done else 0
    let mem := scatter s.mem (run userMemory length) data
    let userMemory := if length ≠ 0 then userMemory + (extent - (size - length : ℕ)) else userMemory
    let data := data.drop length
    let remaining := remaining - length
    let whole := remaining / size
    let mem := scatter mem (bytes (strided whole extent [(userMemory, size)])) data
    let userMemory := userMemory + whole * extent
    let data := data.drop (whole * size)
    let remaining := remaining - whole * size
    { bConverted
      disp0 := userMemory - c.initialDispl
      disp1 := remaining
      mem := scatter mem (run userMemory remaining) data }

/-- `ompi_unpack_homogeneous_contig_function` of iovecs with these bytes. -/
def unpackHomogeneousContig (c : Convertor) (mem : ℤ → UInt8) (iov : List (List UInt8)) :
    Option (Convertor × (ℤ → UInt8)) :=
  match c.stack with
  | [stack1, stack0] =>
    let s := iov.foldl c.unpackContigIov ⟨c.bConverted, stack0.disp, stack1.disp, mem⟩
    some ({ c with
      bConverted := s.bConverted
      stack := [{ stack1 with disp := s.disp1 }, { stack0 with disp := s.disp0 }]
      completed := decide (s.bConverted = c.localSize) }, s.mem)
  | _ => none

/-- What `OMPI_CONVERTOR_PREPARE` gives `CONVERTOR_NO_OP`. -/
def noOp (checksum : Bool) (d : Datatype) (count : ℕ) : Bool :=
  !checksum && (d.noGaps || d.contiguous && decide (count = 1))

/-- The loop of `ompi_convertor_unpack` over the iovecs. -/
def noOpGo : ℤ → (pending : ℕ) → (ℤ → UInt8) → List (List UInt8) → ℕ × (ℤ → UInt8)
  | _, pending, mem, [] => (pending, mem)
  | a, pending, mem, data :: iov =>
    if data.length ≥ pending then (0, scatter mem (run a pending) data)
    else noOpGo (a + data.length) (pending - data.length) (scatter mem (run a data.length) data) iov

def unpackNoOp (c : Convertor) (mem : ℤ → UInt8) (iov : List (List UInt8)) :
    Option (Convertor × (ℤ → UInt8)) :=
  let (pending, mem) := noOpGo (c.type.trueLb + c.bConverted) (c.localSize - c.bConverted) mem iov
  some ({ c with bConverted := c.localSize - pending, completed := decide (pending = 0) }, mem)

/-- What `ompi_convertor_unpack` calls after `ompi_convertor_prepare_for_recv`.  The functions for
checksums are the same ones. -/
def unpackFunction (checksum : Bool) (d : Datatype) (count fuel : ℕ) :
    Convertor → (ℤ → UInt8) → List (List UInt8) → Option (Convertor × (ℤ → UInt8)) :=
  if noOp checksum d count then unpackNoOp
  else if d.contiguous then unpackHomogeneousContig
  else genericSimpleUnpack fuel

def iovecMemLimit : ℕ := 8192

/-- The arguments of a call: the iovecs, which are buffers of a length or are `NULL`, and
`*max_data`. -/
structure PackCall where
  iov : List (Option ℕ)
  maxData : ℕ
  deriving DecidableEq, Repr

/-- An iovec gets an address and a length, or blocks are copied to its buffer. -/
inductive Filled
  | address (block : ℤ × ℕ)
  | copied (blocks : List (ℤ × ℕ))
  deriving DecidableEq, Repr

def Filled.blocks : Filled → List (ℤ × ℕ)
  | address block => [block]
  | copied blocks => blocks

/-- What a call delivers in each iovec, and what it says that it did. -/
structure Packed where
  out : List Filled := []
  outSize : ℕ := 0
  maxData : ℕ := 0
  deriving DecidableEq, Repr

def Packed.blocks (r : Packed) : List (ℤ × ℕ) := r.out.flatMap Filled.blocks

/-- The branch that copies.  A rest of an element that is more than `max_allowed` makes
`max_allowed` wrap around. -/
def copyElements (c : Convertor) (userMemory : ℤ) (done maxAllowed : ℕ) :
    Option (List (ℤ × ℕ) × ℤ) :=
  let size := c.type.size
  let extent := c.type.extent
  let length := if done ≠ 0 then size - done else 0
  if maxAllowed < length then none
  else
    let partialData := if done ≠ 0 then [(userMemory, length)] else []
    let userMemory := if done ≠ 0 then userMemory + (extent - size + length) else userMemory
    let maxAllowed := maxAllowed - length
    let counter := min (uint32 (maxAllowed / size : ℕ)) c.count
    let pending := maxAllowed - counter * size
    some (partialData ++ strided counter extent [(userMemory, size)] ++
      (if pending ≠ 0 then [(userMemory + counter * extent, pending)] else []),
      userMemory + counter * extent + pending)

/-- The addresses of all that remains, for an iovec that is `NULL`. -/
def smallElements (c : Convertor) (stack0 : StackEntry) (userMemory : ℤ) (i : ℕ) : List (ℤ × ℕ) :=
  (List.range (c.count - i)).map fun j : ℕ =>
    if j = 0 then (userMemory, c.type.size - c.bConverted % c.type.size)
    else (c.initialDispl + (stack0.disp + j * c.type.extent), c.type.size)

def packHomogeneousContigWithGaps (c : Convertor) (call : PackCall) : Option (Convertor × Packed) :=
  match c.stack with
  | [stack1, stack0] =>
    let size := c.type.size
    let extent := c.type.extent
    let maxAllowed := min (c.localSize - c.bConverted) call.maxData
    let i := uint32 (c.bConverted / size : ℕ)
    let userMemory := c.initialDispl + (stack0.disp + stack1.disp)
    -- the end of the function
    let return_ (userMemory : ℤ) (maxAllowed : ℕ) (out : List Filled) (total : ℕ) :=
      ({ c with
          bConverted := c.bConverted + total
          stack := [{ stack1 with disp := maxAllowed },
            { stack0 with disp := userMemory - c.initialDispl }]
          completed := decide (c.bConverted + total = c.localSize) }, Packed.mk out out.length total)
    match call.iov with
    | [] => some (return_ userMemory maxAllowed [] 0)
    | buffer :: _ =>
      if maxAllowed = 0 then some (return_ userMemory 0 [] 0)
      else if buffer = none ∧ stack0.count < call.iov.length then
        let blocks := c.smallElements stack0 userMemory i
        some ({ c with
          bConverted := c.bConverted + width blocks
          stack := [{ stack1 with disp := 0, count := size },
            { stack0 with disp := stack0.disp + blocks.length * extent }]
          completed := true }, ⟨blocks.map .address, blocks.length, width blocks⟩)
      else if buffer = none ∧ iovecMemLimit ≤ size then
        -- the addresses of whole elements; an iovec for a part of one is not counted
        let elements := min (min (c.count - i) call.iov.length) (maxAllowed / size)
        let total := elements * size
        some ({ c with
          bConverted := c.bConverted + total
          completed := decide (c.bConverted + total = c.localSize) },
          ⟨(strided elements extent [(userMemory, size)]).map .address, elements, total⟩)
      else if buffer = none then none
      else
        (c.copyElements userMemory (c.bConverted - i * size) maxAllowed).map
          fun (blocks, userMemory) => return_ userMemory 0 [.copied blocks] maxAllowed
  | _ => none

def packCalls (advance : Convertor → PackCall → Option (Convertor × Packed)) :
    Convertor → List PackCall → Option (Convertor × List Packed)
  | c, [] => some (c, [])
  | c, call :: calls =>
    (if c.completed then some (c, {}) else advance c call).bind fun r =>
      (packCalls advance r.1 calls).map fun r' => (r'.1, r.2 :: r'.2)

end Convertor

end OpenMPI.Ddt
