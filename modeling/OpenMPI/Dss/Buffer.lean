import OpenMPI.Lib.Codec

/-!
# Buffers of the data support service

The memory of a buffer with its pointers as offsets from `base_ptr`, how it grows, what is appended to it and taken from
it, and how it is unloaded, loaded and copied.  Memory can be had; what it holds before anything is written to it is a
parameter.
-/

namespace OpenMPI.Dss

open OpenMPI.Lib (Action)

abbrev Byte := Fin 256

instance neZero256 : NeZero 256 := ⟨by decide⟩

inductive BufferType
  | nonDesc
  | fullyDesc
  deriving DecidableEq

/-- The codes returned; `undefined` stands for a copy of a negative number of bytes. -/
inductive Err
  | outOfResource
  | packFailure
  | packMismatch
  | unpackFailure
  | inadequateSpace
  | readPastEnd
  | unknownDataType
  | notFound
  | buffer
  | undefined
  deriving DecidableEq

/-- `opal_dss_initial_size` and `opal_dss_threshold_size`, and the bytes of new memory. -/
structure Params where
  initialSize : ℕ
  initialSize_pos : 0 < initialSize
  thresholdSize : ℕ
  thresholdSize_pos : 0 < thresholdSize
  junk : ℕ → Byte

/-- `OPAL_DSS_DEFAULT_INITIAL_SIZE` and `OPAL_DSS_DEFAULT_THRESHOLD_SIZE`. -/
def Params.default : Params := ⟨128, by decide, 1024, by decide, fun _ => 0⟩

/-- `opal_buffer_t`; `base` is the memory from `base_ptr` on. -/
structure Buffer where
  type : BufferType
  base : Option (List Byte)
  packPtr : ℕ
  unpackPtr : ℕ
  bytesAllocated : ℕ
  bytesUsed : ℕ
  deriving DecidableEq

/-- The value of an `int32_t` that a size is assigned to, unless that is negative. -/
def asInt32 (size : ℕ) : Option ℕ := if size % 2 ^ 32 < 2 ^ 31 then some (size % 2 ^ 32) else none

def memcpy (mem : List Byte) (off : ℕ) (bytes : List Byte) : List Byte :=
  mem.take off ++ bytes ++ mem.drop (off + bytes.length)

def realloc (P : Params) (mem : List Byte) (size : ℕ) : List Byte :=
  mem.take size ++ (List.range (size - mem.length)).map P.junk

namespace Buffer

def new (type : BufferType) : Buffer := ⟨type, none, 0, 0, 0, 0⟩

def mem (b : Buffer) : List Byte := b.base.getD []

/-- The loop `while (to_alloc < required)`, with as many rounds as it can take. -/
def doubled (required : ℕ) : ℕ → ℕ → ℕ
  | 0, toAlloc => toAlloc
  | rounds + 1, toAlloc => if toAlloc < required then doubled required rounds (2 * toAlloc) else toAlloc

def toAlloc (P : Params) (b : Buffer) (required : ℕ) : ℕ :=
  if P.thresholdSize ≤ required then (required + P.thresholdSize - 1) / P.thresholdSize * P.thresholdSize
  else doubled required required (if b.bytesAllocated = 0 then P.initialSize else b.bytesAllocated)

def extend (P : Params) (b : Buffer) (bytesToAdd : ℕ) : Buffer :=
  if bytesToAdd ≤ b.bytesAllocated - b.bytesUsed then b
  else
    let toAlloc := b.toAlloc P (b.bytesUsed + bytesToAdd)
    match b.base with
    | some mem => { b with base := some (realloc P mem toAlloc), bytesAllocated := toAlloc }
    | none => ⟨b.type, some (realloc P [] toAlloc), 0, 0, toAlloc, 0⟩

def tooSmall (b : Buffer) (bytesReqd : ℕ) : Bool := b.packPtr < b.unpackPtr ∨ b.packPtr - b.unpackPtr < bytesReqd

end Buffer

/-- What all functions that pack end in: room is made, the bytes are stored and the pointers moved. -/
def append (P : Params) (bytes : List Byte) : Action Buffer Err Unit := do
  let b := (← get).extend P bytes.length
  match b.base with
  | none => throw .outOfResource
  | some mem =>
    set { b with
      base := some (memcpy mem b.packPtr bytes)
      packPtr := b.packPtr + bytes.length
      bytesUsed := b.bytesUsed + bytes.length }

def take (n : ℕ) : Action Buffer Err (List Byte) := do
  let b ← get
  if b.tooSmall n then throw .readPastEnd
  else
    set { b with unpackPtr := b.unpackPtr + n }
    return (b.mem.drop b.unpackPtr).take n

namespace Buffer

def typeCode : BufferType → Byte
  | .nonDesc => 0
  | .fullyDesc => 1

/-- `opal_dss_unload`: the buffer without its payload, and the payload with its `bytes_used`. -/
def unload (P : Params) (b : Buffer) : Buffer × Option (List Byte × Option ℕ) :=
  if b.base = none ∨ b.bytesUsed = 0 then (b, none)
  else
    let b := b.extend P 1
    (⟨b.type, none, 0, 0, 0, 0⟩, some (memcpy b.mem b.packPtr [typeCode b.type], asInt32 (b.bytesUsed + 1)))

def load (b : Buffer) : Option (List Byte × Option ℕ) → Except Err Buffer
  | none => .ok b
  | some (payload, some (bytesUsed + 1)) =>
    .ok ⟨if payload[bytesUsed]? = some 1 then .fullyDesc else .nonDesc, some payload, bytesUsed, 0, bytesUsed, bytesUsed⟩
  | some _ => .error .undefined

end Buffer

def copyPayload (P : Params) (src : Buffer) : Action Buffer Err Unit := do
  let dest ← get
  if dest.bytesUsed ≠ 0 ∧ dest.type ≠ src.type then throw .buffer
  else
    set { dest with type := src.type }
    match asInt32 (src.bytesUsed - src.unpackPtr) with
    | none => throw .undefined
    | some 0 => return
    | some bytesLeft => append P ((src.mem.drop src.unpackPtr).take bytesLeft)

end OpenMPI.Dss
