import OpenMPI.Dss.Buffer

/-!
# Packing and unpacking

The built-in types and their values, the function that packs and the one that unpacks each of them, and the calls of a
program on its buffers.  An `int` has four bytes, a `size_t` eight, a `pid_t` four and a `bool` one.
-/

namespace OpenMPI.Dss

open OpenMPI.Lib (Action)

/-- The types of `opal_dss_types`, and `OPAL_UNDEF`. -/
inductive DataType
  | undef | byte | bool | string | size | pid
  | int | int8 | int16 | int32 | int64
  | uint | uint8 | uint16 | uint32 | uint64
  | byteObject | dataType | null | dataValue
  deriving DecidableEq

def DataType.code : DataType → Byte
  | .undef => 0 | .byte => 1 | .bool => 2 | .string => 3 | .size => 4 | .pid => 5
  | .int => 6 | .int8 => 7 | .int16 => 8 | .int32 => 9 | .int64 => 10
  | .uint => 11 | .uint8 => 12 | .uint16 => 13 | .uint32 => 14 | .uint64 => 15
  | .byteObject => 16 | .dataType => 17 | .null => 18 | .dataValue => 19

def DataType.ofCode (code : Byte) : Option DataType :=
  [.undef, .byte, .bool, .string, .size, .pid, .int, .int8, .int16, .int32, .int64, .uint, .uint8, .uint16, .uint32,
    .uint64, .byteObject, .dataType, .null, .dataValue][code.val]?

/-- The values.  An integer is told by its bytes, as a number without sign; `noValue` is a `NULL` data value, `undef` a
data value of type `OPAL_UNDEF`, and `garbage` what is left in memory. -/
inductive Value
  | num (n : ℕ)
  | string (s : Option (List Byte))
  | byteObject (bytes : List Byte)
  | noValue
  | undef
  | value (type : DataType) (data : Value)
  | garbage
  deriving DecidableEq

def Value.toNat : Value → ℕ
  | .num n => n
  | _ => 0

def toNetwork : ℕ → ℕ → List Byte
  | 0, _ => []
  | w + 1, n => toNetwork w (n / 256) ++ [Fin.ofNat 256 n]

def fromNetwork (bytes : List Byte) : ℕ := bytes.foldl (fun (n : ℕ) (b : Byte) => 256 * n + b.val) 0

section Pack

variable (P : Params)

def storeDataType (type : DataType) : Action Buffer Err Unit := append P [type.code]

def describe (type : DataType) : Action Buffer Err Unit := do
  if (← get).type = .fullyDesc then storeDataType P type else return

def packInts (w : ℕ) (vals : List Value) : Action Buffer Err Unit := append P (vals.flatMap fun v => toNetwork w v.toNat)

def packByte := packInts P 1
def packInt16 := packInts P 2
def packInt32 := packInts P 4
def packInt64 := packInts P 8

def packNull (vals : List Value) : Action Buffer Err Unit := append P (List.replicate vals.length 0)

/-- A type of the system, as the type `real` of `w` bytes: that is described in every buffer. -/
def packSystem (real : DataType) (w : ℕ) (vals : List Value) : Action Buffer Err Unit := do
  if (← get).type ≠ .fullyDesc then storeDataType P real
  describe P real
  packInts P w vals

def packBool := packSystem P .uint8 1
def packInt := packSystem P .int32 4
def packSizet := packSystem P .uint64 8
def packPid := packSystem P .uint32 4

def packStr : Value → Action Buffer Err Unit
  | .string none => packInt32 P [.num 0]
  | .string (some s) => do
    packInt32 P [.num (s.length + 1)]
    match asInt32 (s.length + 1) with
    | none => throw .undefined
    | some len => append P ((s ++ [0]).take len)
  | _ => throw .undefined

def packString (vals : List Value) : Action Buffer Err Unit := vals.forM (packStr P)

def packDataType (vals : List Value) : Action Buffer Err Unit := do
  describe P .uint8
  packByte P vals

def packObject : Value → Action Buffer Err Unit
  | .byteObject bytes => do
    packInt32 P [.num bytes.length]
    if 0 < bytes.length then append P bytes else return
  | _ => throw .undefined

def packByteObject (vals : List Value) : Action Buffer Err Unit := vals.forM (packObject P)

def packPlain (type : DataType) (vals : List Value) : Action Buffer Err Unit :=
  match type with
  | .null => packNull P vals
  | .byte | .int8 | .uint8 => packByte P vals
  | .int16 | .uint16 => packInt16 P vals
  | .int32 | .uint32 => packInt32 P vals
  | .int64 | .uint64 => packInt64 P vals
  | .bool => packBool P vals
  | .int | .uint => packInt P vals
  | .size => packSizet P vals
  | .pid => packPid P vals
  | .string => packString P vals
  | .byteObject => packByteObject P vals
  | .dataType => packDataType P vals
  | .undef | .dataValue => throw .packFailure

/-- A round of `opal_dss_pack_data_value`; what it has of data of a type is packed as by `packBuffer`. -/
def packValue : Value → Action Buffer Err Unit
  | .noValue => storeDataType P .null
  | .undef => storeDataType P .undef
  | .value type data => do
    storeDataType P type
    describe P type
    if type = .dataValue then packValue data else packPlain P type [data]
  | _ => throw .undefined

def packDataValue (vals : List Value) : Action Buffer Err Unit := vals.forM (packValue P)

def packBuffer (type : DataType) (vals : List Value) : Action Buffer Err Unit := do
  describe P type
  if type = .dataValue then packDataValue P vals else packPlain P type vals

def pack (type : DataType) (vals : List Value) : Action Buffer Err Unit := do
  describe P .int32
  packInt32 P [.num vals.length]
  packBuffer P type vals

end Pack

def getDataType : Action Buffer Err Byte := do
  let bytes ← take 1
  return bytes.headD 0

/-- The type of the next data, if the buffer is fully described, has to be this one. -/
def expect (type : DataType) (err : Err) : Action Buffer Err Unit := do
  if (← get).type = .fullyDesc then
    let localType ← getDataType
    if localType = type.code then return else throw err
  else return

def fromNetworks (w : ℕ) : ℕ → List Byte → List ℕ
  | 0, _ => []
  | n + 1, bytes => fromNetwork (bytes.take w) :: fromNetworks w n (bytes.drop w)

def unpackInts (w n : ℕ) : Action Buffer Err (List Value) := do
  let bytes ← take (n * w)
  return (fromNetworks w n bytes).map .num

def unpackByte := unpackInts 1
def unpackInt16 := unpackInts 2
def unpackInt32 := unpackInts 4
def unpackInt64 := unpackInts 8

/-- One `int32_t`, as a number without sign. -/
def unpackCount : Action Buffer Err ℕ := do
  let vals ← unpackInt32 1
  return (vals.headD .garbage).toNat

def peekType : Action Buffer Err Byte := do
  let b ← get
  if b.bytesUsed ≤ b.unpackPtr then throw .readPastEnd
  else
    let type ← getDataType
    set b
    return type

/-- The width of the integers of a type that the types of the system can be packed as, and whether they have a sign. -/
def DataType.remote : DataType → Option (ℕ × Bool)
  | .uint8 => some (1, false)
  | .int8 => some (1, true)
  | .uint16 => some (2, false)
  | .int16 => some (2, true)
  | .uint32 => some (4, false)
  | .int32 => some (4, true)
  | .uint64 => some (8, false)
  | .int64 => some (8, true)
  | _ => none

def castTo (type : DataType) (w' : ℕ) (signed : Bool) (w n : ℕ) : ℕ :=
  if type = .bool then if n = 0 then 0 else 1
  else if signed ∧ 256 ^ w ≤ 2 * n then (n + (256 ^ (w + w') - 256 ^ w)) % 256 ^ w' else n % 256 ^ w'

def unpackSizeMismatch (type : DataType) (w' : ℕ) (remoteType : Byte) (n : ℕ) : Action Buffer Err (List Value) :=
  match DataType.ofCode remoteType with
  | none => throw .notFound
  | some remote =>
    match remote.remote with
    | none => throw .notFound
    | some (w, signed) => do
      expect remote .packMismatch
      let vals ← unpackInts w n
      return vals.map fun v => .num (castTo type w' signed w v.toNat)

def unpackSystem (type real : DataType) (w n : ℕ) : Action Buffer Err (List Value) := do
  let remoteType ← if (← get).type = .fullyDesc then peekType else getDataType
  if remoteType = real.code then
    expect real .packMismatch
    unpackInts w n
  else unpackSizeMismatch type w remoteType n

def unpackBool := unpackSystem .bool .uint8 1
def unpackInt (type : DataType) := unpackSystem type .int32 4
def unpackSizet := unpackSystem .size .uint64 8
def unpackPid := unpackSystem .pid .uint32 4

/-- What there is to a string in memory of `len` bytes. -/
def cString (bytes : List Byte) : Value := if 0 ∈ bytes then .string (some (bytes.takeWhile (· ≠ 0))) else .garbage

def unpackStr : Action Buffer Err Value := do
  let len ← unpackCount
  if len = 0 then return .string none
  else if 2 ^ 31 ≤ len then throw .outOfResource
  else
    let bytes ← take len
    return cString bytes

def unpackString (n : ℕ) : Action Buffer Err (List Value) := (List.replicate n ()).mapM fun _ => unpackStr

def unpackDataType (n : ℕ) : Action Buffer Err (List Value) := do
  expect .uint8 .packMismatch
  unpackByte n

def unpackObject : Action Buffer Err Value := do
  let size ← unpackCount
  if size = 0 then return .byteObject []
  else if 2 ^ 31 ≤ size then return .garbage
  else
    let bytes ← take size
    return .byteObject bytes

def unpackByteObject (n : ℕ) : Action Buffer Err (List Value) := (List.replicate n ()).mapM fun _ => unpackObject

def unpackPlain (type : DataType) (n : ℕ) : Action Buffer Err (List Value) :=
  match type with
  | .null | .byte | .int8 | .uint8 => unpackByte n
  | .int16 | .uint16 => unpackInt16 n
  | .int32 | .uint32 => unpackInt32 n
  | .int64 | .uint64 => unpackInt64 n
  | .bool => unpackBool n
  | .int | .uint => unpackInt type n
  | .size => unpackSizet n
  | .pid => unpackPid n
  | .string => unpackString n
  | .byteObject => unpackByteObject n
  | .dataType => unpackDataType n
  | .undef | .dataValue => throw .unpackFailure

/-- A round of `opal_dss_unpack_data_value` for the entry `dest`, where data values are nested at most `depth` deep. -/
def unpackValue : ℕ → Value → Action Buffer Err Value
  | 0, _ => throw .readPastEnd
  | depth + 1, dest => do
    let code ← getDataType
    match DataType.ofCode code with
    | none => throw .unknownDataType
    -- the entry stays
    | some .null => return dest
    | some .undef => return .undef
    | some type => do
      expect type .packMismatch
      if type = .dataValue then
        -- the data are in memory that `malloc` gave
        let data ← unpackValue depth .garbage
        return .value type data
      else
        let vals ← unpackPlain type 1
        return .value type (vals.headD .garbage)

def unpackDataValue (dest : List Value) : Action Buffer Err (List Value) := do
  let b ← get
  dest.mapM (unpackValue (b.bytesUsed + 1))

/-- `opal_dss_unpack_buffer` of as many values as `dest` has entries. -/
def unpackBuffer (type : DataType) (dest : List Value) : Action Buffer Err (List Value) := do
  expect type .packMismatch
  if type = .dataValue then unpackDataValue dest else unpackPlain type dest.length

/-- `opal_dss_unpack` into entries that hold `dest`: whether they were enough, and the values. -/
def unpack (type : DataType) (dest : List Value) : Action Buffer Err (Bool × List Value) :=
  if dest.length = 0 then throw .inadequateSpace
  else do
    expect .int32 .unpackFailure
    let localNum ← unpackCount
    -- no number that was packed is negative
    if 2 ^ 31 ≤ localNum then throw .undefined
    else
      let vals ← unpackBuffer type (dest.take localNum)
      return (localNum ≤ dest.length, vals)

inductive Call
  | pack (i : ℕ) (type : DataType) (vals : List Value)
  | unpack (i : ℕ) (type : DataType) (dest : List Value)
  /-- `opal_dss_unload` of the first and `opal_dss_load` of its payload into the second -/
  | transfer (i j : ℕ)
  | copyPayload (dest src : ℕ)

abbrev World := ℕ → Buffer

namespace World

def on {α : Type} (w : World) (i : ℕ) (op : Action Buffer Err α) : World × Except Err α :=
  let (result, b) := op.exec (w i)
  (Function.update w i b, result)

def step (P : Params) (w : World) : Call → World × Except Err (Bool × List Value)
  | .pack i type vals => w.on i (do pack P type vals; return (true, []))
  | .unpack i type dest => w.on i (unpack type dest)
  | .transfer i j =>
    let (b, payload) := (w i).unload P
    let w := Function.update w i b
    match (w j).load payload with
    | .ok b => (Function.update w j b, .ok (true, []))
    | .error e => (w, .error e)
  | .copyPayload dest src => w.on dest (do copyPayload P (w src); return (true, []))

def after (P : Params) (types : ℕ → BufferType) (calls : List Call) : World :=
  calls.foldl (fun w c => (w.step P c).1) fun i => .new (types i)

end World

end OpenMPI.Dss

/-!
## Buffers as queues

What the buffers are for: a queue of what was packed, with what of it was unpacked already.  The values that a type has
are told here as well.
-/

namespace OpenMPI.Dss

/-- The number of values of a type of integers; there is one `OPAL_NULL`. -/
def DataType.bound : DataType → ℕ
  | .byte | .int8 | .uint8 | .bool | .dataType => 256
  | .int16 | .uint16 => 256 ^ 2
  | .int32 | .uint32 | .int | .uint | .pid => 256 ^ 4
  | .int64 | .uint64 | .size => 256 ^ 8
  | .null => 1
  | _ => 0

def Value.Has : Value → DataType → Prop
  | .num n, type => n < type.bound
  | .string none, type => type = .string
  | .string (some s), type => type = .string ∧ 0 ∉ s
  | .byteObject bytes, type => type = .byteObject ∧ bytes.length < 2 ^ 31
  | .noValue, type => type = .dataValue
  | .undef, type => type = .dataValue
  | .value type' data, type => type = .dataValue ∧ type' ≠ .undef ∧ data.Has type'
  | .garbage, _ => False

abbrev Item := DataType × List Value

/-- The calls that packed what was unpacked since the buffer had its payload, and what was not. -/
structure Queue where
  type : BufferType
  read : List Item
  unread : List Item

abbrev Queues := ℕ → Queue

namespace Queues

/-- What a call does to the queues, and what it returns.  An empty buffer has no payload, and values of the two types of
buffers do not come into one buffer. -/
def step (q : Queues) : Call → Queues × Except Err (Bool × List Value)
  | .pack i type vals => (Function.update q i { q i with unread := (q i).unread ++ [(type, vals)] }, .ok (true, []))
  | .unpack i _ _ =>
    match (q i).unread with
    | [] => (q, .error .readPastEnd)
    | item :: rest => (Function.update q i ⟨(q i).type, (q i).read ++ [item], rest⟩, .ok (true, item.2))
  | .transfer i j =>
    if (q i).read = [] ∧ (q i).unread = [] then (q, .ok (true, []))
    else (Function.update (Function.update q i ⟨(q i).type, [], []⟩) j ⟨(q i).type, [], (q i).unread⟩, .ok (true, []))
  | .copyPayload dest src =>
    if ¬((q dest).read = [] ∧ (q dest).unread = []) ∧ (q dest).type ≠ (q src).type then (q, .error .buffer)
    else (Function.update q dest ⟨(q src).type, (q dest).read, (q dest).unread ++ (q src).unread⟩, .ok (true, []))

def after (types : ℕ → BufferType) (calls : List Call) : Queues :=
  calls.foldl (fun q c => (q.step c).1) fun i => ⟨types i, [], []⟩

/-- The call packs values of its type, or there is room for what it unpacks and that is of its type. -/
def Valid (q : Queues) : Call → Prop
  | .pack _ type vals => type ≠ .undef ∧ vals.length < 2 ^ 31 ∧ ∀ v ∈ vals, v.Has type
  | .unpack i type dest => dest ≠ [] ∧ ∀ item ∈ (q i).unread.head?, item.1 = type ∧ item.2.length ≤ dest.length
  | _ => True

end Queues

end OpenMPI.Dss
