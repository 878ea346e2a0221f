import OpenMPI.Btl.Base
import OpenMPI.Dss.Dss

/-!
# Unpacking whatever a payload holds

The functions that unpack and peek, on a buffer that any bytes were loaded into.  What is read as an `int32_t` may be negative, and becomes
a `size_t` where it is compared with what is left and where it is copied.  Memory can be had, but not of a negative size.
-/

namespace OpenMPI.Dss

open OpenMPI.Lib (Action)
open Btl (int32 size64)

/-- `opal_buffer_t` after `opal_dss_load`; pointers are offsets from `base_ptr`, and `bytesUsed` is where `base_ptr + bytes_used` points
to.  No code reads what was read of the memory so far, each time so many bytes from an offset on. -/
structure Loaded where
  type : BufferType
  memory : ℤ → Byte
  packPtr : ℤ
  unpackPtr : ℤ
  bytesUsed : ℤ
  reads : List (ℤ × ℕ)

namespace Loaded

/-- `opal_dss_load` of some bytes, with other memory before and after them. -/
def load (around : ℤ → Byte) (payload : List Byte) : Loaded :=
  let memory : ℤ → Byte := fun k => if 0 ≤ k ∧ k < payload.length then payload.getD k.toNat 0 else around k
  let bytesUsed : ℤ := payload.length - 1
  { type := if memory bytesUsed = 1 then .fullyDesc else .nonDesc
    memory := memory
    packPtr := bytesUsed
    unpackPtr := 0
    bytesUsed := bytesUsed
    reads := [(bytesUsed, 1)] }

def tooSmall (b : Loaded) (bytesReqd : ℕ) : Bool := b.packPtr < b.unpackPtr ∨ b.packPtr - b.unpackPtr < bytesReqd

def check (bytesReqd : ℕ) : Action Loaded Err Unit := do
  if (← get).tooSmall bytesReqd then throw .readPastEnd else return

/-- `memcpy` from `unpack_ptr`, which moves on then. -/
def copyBytes (size : ℕ) (step : ℤ) : Action Loaded Err (List Byte) := do
  let b ← get
  set { b with unpackPtr := b.unpackPtr + step, reads := b.reads ++ [(b.unpackPtr, size)] }
  return (List.range size).map fun (k : ℕ) => b.memory (b.unpackPtr + k)

def copyInts (w : ℕ) : ℕ → Action Loaded Err (List ℕ)
  | 0 => return []
  | n + 1 => do
    let bytes ← copyBytes w w
    let vals ← copyInts w n
    return fromNetwork bytes :: vals

def unpackByte (n : ℤ) : Action Loaded Err (List Value) := do
  check (size64 n)
  let bytes ← copyBytes (size64 n) n
  return bytes.map fun b => .num b.val

def unpackInts (w : ℕ) (n : ℤ) : Action Loaded Err (List Value) := do
  check (size64 (n * w))
  let vals ← copyInts w n.toNat
  return vals.map .num

def unpackCount : Action Loaded Err ℤ := do
  let vals ← unpackInts 4 1
  return int32 (vals.headD .garbage).toNat

def getDataType : Action Loaded Err Byte := do
  let vals ← unpackByte 1
  return Fin.ofNat 256 (vals.headD .garbage).toNat

/-- The type of the next data, if the buffer is fully described, has to be this one. -/
def expect (type : DataType) (err : Err) : Action Loaded Err Unit := do
  if (← get).type = .fullyDesc then
    let localType ← getDataType
    if localType = type.code then return else throw err
  else return

def onCopy {α : Type} (m : Action Loaded Err α) : Action Loaded Err α := ExceptT.mk fun b =>
  let (result, tmp) := m.exec b
  (result, { b with reads := tmp.reads })

def peekType : Action Loaded Err Byte := do
  let b ← get
  if b.type ≠ .fullyDesc then throw .unknownDataType
  else if b.bytesUsed ≤ b.unpackPtr then throw .readPastEnd
  else onCopy getDataType

/-- `opal_dss_peek`: the type and the number of the next values. -/
def peek : Action Loaded Err (Byte × ℤ) := do
  let b ← get
  if b.bytesUsed ≤ b.unpackPtr then throw .readPastEnd
  else if b.type ≠ .fullyDesc then throw .unknownDataType
  else onCopy do
    let localType ← getDataType
    if localType ≠ DataType.int32.code then throw .unpackFailure
    else
      let numVals ← unpackCount
      let type ← getDataType
      return (type, numVals)

def unpackFixed (type : DataType) (n : ℤ) : Action Loaded Err (List Value) :=
  match type with
  | .null | .byte | .int8 | .uint8 => unpackByte n
  | .int16 | .uint16 => unpackInts 2 n
  | .int32 | .uint32 => unpackInts 4 n
  | .int64 | .uint64 => unpackInts 8 n
  | _ => throw .unpackFailure

def unpackSizeMismatch (type : DataType) (w' : ℕ) (remoteType : Byte) (n : ℤ) : Action Loaded Err (List Value) :=
  match DataType.ofCode remoteType with
  | none => throw .notFound
  | some remote =>
    match remote.remote with
    | none => throw .notFound
    | some (w, signed) => do
      expect remote .packMismatch
      let vals ← unpackFixed remote n
      return vals.map fun v => .num (castTo type w' signed w v.toNat)

def unpackSystem (type real : DataType) (w : ℕ) (n : ℤ) : Action Loaded Err (List Value) := do
  let remoteType ← if (← get).type = .fullyDesc then peekType else getDataType
  if remoteType = real.code then
    expect real .packMismatch
    unpackFixed real n
  else unpackSizeMismatch type w remoteType n

def unpackStr : Action Loaded Err Value := do
  let len ← unpackCount
  if len = 0 then return .string none
  else if len < 0 then throw .outOfResource
  else
    let bytes ← unpackByte len
    return cString (bytes.map fun v => Fin.ofNat 256 v.toNat)

def unpackString (n : ℤ) : Action Loaded Err (List Value) := (List.replicate n.toNat ()).mapM fun _ => unpackStr

def unpackDataType (n : ℤ) : Action Loaded Err (List Value) := do
  expect .uint8 .packMismatch
  unpackByte n

/-- A round of `opal_dss_unpack_byte_object`; with a negative size it has no bytes. -/
def unpackObject : Action Loaded Err Value := do
  let size ← unpackCount
  if 0 < size then
    let bytes ← unpackByte size
    return .byteObject (bytes.map fun v => Fin.ofNat 256 v.toNat)
  else if size = 0 then return .byteObject []
  else return .garbage

def unpackByteObject (n : ℤ) : Action Loaded Err (List Value) := (List.replicate n.toNat ()).mapM fun _ => unpackObject

def unpackPlain (type : DataType) (n : ℤ) : Action Loaded Err (List Value) :=
  match type with
  | .bool => unpackSystem .bool .uint8 1 n
  | .int | .uint => unpackSystem type .int32 4 n
  | .size => unpackSystem .size .uint64 8 n
  | .pid => unpackSystem .pid .uint32 4 n
  | .string => unpackString n
  | .byteObject => unpackByteObject n
  | .dataType => unpackDataType n
  | _ => unpackFixed type n

/-- A round of `opal_dss_unpack_data_value` for the entry `dest`, where data values are nested less than `depth` deep. -/
def unpackValue : (depth : ℕ) → (dest : Value) → Action Loaded Err Value
  | 0, _ => throw .undefined
  | depth + 1, dest => do
    let code ← getDataType
    match DataType.ofCode code with
    | none => throw .unknownDataType
    -- the entry stays
    | some .null => return dest
    | some .undef => return .undef
    | some type => do
      expect type .packMismatch
      if type = .dataValue then
        -- the data are in memory that `malloc` gave
        let data ← unpackValue depth .garbage
        return .value type data
      else
        let vals ← unpackPlain type 1
        return .value type (vals.headD .garbage)

def unpackDataValue (dest : List Value) : Action Loaded Err (List Value) := do
  let b ← get
  dest.mapM (unpackValue (b.bytesUsed.toNat + 1))

/-- `opal_dss_unpack_buffer` of `n` values, into `dest` if there are any. -/
def unpackBuffer (type : DataType) (n : ℤ) (dest : List Value) : Action Loaded Err (List Value) := do
  expect type .packMismatch
  if type = .dataValue then unpackDataValue (dest.take n.toNat) else unpackPlain type n

/-- `opal_dss_unpack` into entries that hold `dest`: whether they were enough, `*num_vals`, and the values. -/
def unpack (type : DataType) (dest : List Value) : Action Loaded Err (Bool × ℤ × List Value) :=
  if dest.length = 0 then throw .inadequateSpace
  else do
    expect .int32 .unpackFailure
    let localNum ← unpackCount
    if (dest.length : ℤ) < localNum then
      let vals ← unpackBuffer type dest.length dest
      return (false, dest.length, vals)
    else
      let vals ← unpackBuffer type localNum dest
      return (true, localNum, vals)

inductive Query
  | unpack (type : DataType) (dest : List Value)
  | peek

def ask (b : Loaded) : Query → Option Err × Loaded
  | .unpack type dest =>
    match (unpack type dest).exec b with
    | (.ok _, b) => (none, b)
    | (.error e, b) => (some e, b)
  | .peek =>
    match peek.exec b with
    | (.ok _, b) => (none, b)
    | (.error e, b) => (some e, b)

def after (b : Loaded) (queries : List Query) : Loaded := queries.foldl (fun b q => (b.ask q).2) b

/-- The same buffer with more bytes after those that are left, from which nothing was read yet. -/
def extended (b : Loaded) (more : List Byte) : Loaded :=
  { b with
    memory := fun k => if b.packPtr ≤ k ∧ k < b.packPtr + more.length then more.getD (k - b.packPtr).toNat 0 else b.memory k
    packPtr := b.packPtr + more.length
    bytesUsed := b.bytesUsed + more.length
    reads := [] }

end Loaded

end OpenMPI.Dss
