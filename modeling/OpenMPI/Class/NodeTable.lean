import Mathlib.Algebra.Order.Ring.Int
import Mathlib.Data.List.Basic

/-!
# Hash tables, node by node

`opal_hash_table_t` with its buckets, the nodes in them, and the list of the nodes that are free.  What the tables for keys of 32 and
64 bits and for byte strings do alike is said once, for a `KeyKind`; a table has keys of one kind.
-/

namespace OpenMPI.Class

/-- What the nodes of a table have for a key: the bucket of a key, how a node's key is compared, and what is left of it in a node that
was removed. -/
structure KeyKind (κ : Type) where
  bucket : (htMask : ℕ) → κ → ℕ
  same : (hnKey key : κ) → Bool
  removed : κ → κ

def memcmpZero (s t : List UInt8) (n : ℕ) : Bool := (List.range n).all fun i => s[i]? == t[i]?

def opalHashValue (mask : ℕ) (key : List UInt8) : ℕ :=
  let h := key.foldl (fun (h : ℕ) p => (31 * h + p.toNat) % 2 ^ 64) 0
  (h &&& mask) % 2 ^ 32

namespace KeyKind

def uint32 : KeyKind UInt32 where
  bucket htMask key := key.toNat &&& htMask
  same hnKey key := hnKey == key
  removed := id

def uint64 : KeyKind UInt64 where
  bucket htMask key := key.toNat &&& htMask
  same hnKey key := hnKey == key
  removed := id

/-- `opal_ptr_hash_node_t`; the node has a copy of the key. -/
def ptr : KeyKind (List UInt8) where
  bucket := opalHashValue
  same hnKey key := hnKey.length == key.length && memcmpZero hnKey key key.length
  removed _ := []

end KeyKind

structure HashNode (κ ν : Type) where
  address : ℕ
  hnKey : κ
  hnValue : ν
  deriving DecidableEq, Repr

/-- `OPAL_SUCCESS`, `OPAL_ERR_NOT_FOUND` and `OPAL_ERR_OUT_OF_RESOURCE` -/
inductive HashStatus
  | success
  | notFound
  | outOfResource
  deriving DecidableEq, Repr

/-- `opal_hash_table_t`; the next object will be at `fresh`. -/
structure NodeTable (κ ν : Type) where
  htNodes : List (HashNode κ ν)
  htTable : List (List (HashNode κ ν))
  htSize : ℕ
  htMask : ℕ
  fresh : ℕ
  deriving DecidableEq, Repr

namespace NodeTable

variable {κ ν : Type}

/-- `while(tmp) { tmp >>= 1; power2 <<= 1; }`, as many rounds as it can take. -/
def powerLoop : (fuel tmp power2 : ℕ) → ℕ
  | 0, _, power2 => power2
  | fuel + 1, tmp, power2 => if tmp ≠ 0 then powerLoop fuel (tmp >>> 1) (power2 <<< 1) else power2

def init (tableSize : ℕ) : NodeTable κ ν :=
  let power2 := powerLoop tableSize tableSize 1
  { htNodes := [], htTable := List.replicate power2 [], htSize := 0, htMask := power2 - 1, fresh := 0 }

def removeAll (ht : NodeTable κ ν) : NodeTable κ ν :=
  { ht with htNodes := [], htTable := ht.htTable.map fun _ => [], htSize := 0 }

def bucketOf (k : KeyKind κ) (ht : NodeTable κ ν) (key : κ) : List (HashNode κ ν) :=
  (ht.htTable[k.bucket ht.htMask key]?).getD []

def setBucket (k : KeyKind κ) (ht : NodeTable κ ν) (key : κ) (list : List (HashNode κ ν)) : List (List (HashNode κ ν)) :=
  ht.htTable.set (k.bucket ht.htMask key) list

def getValue (k : KeyKind κ) (ht : NodeTable κ ν) (key : κ) : Option ν :=
  ((ht.bucketOf k key).find? fun node => k.same node.hnKey key).map HashNode.hnValue

/-- `alloc` says whether there is memory for a new node. -/
def setValue (k : KeyKind κ) (ht : NodeTable κ ν) (key : κ) (value : ν) (alloc : Bool) : HashStatus × NodeTable κ ν :=
  let list := ht.bucketOf k key
  match list.find? fun node => k.same node.hnKey key with
  | some node =>
    (.success, { ht with htTable := ht.setBucket k key (list.map fun n =>
      if n.address = node.address then { n with hnValue := value } else n) })
  | none =>
    match ht.htNodes with
    | node :: rest =>
      (.success, { ht with
        htNodes := rest
        htTable := ht.setBucket k key (list ++ [{ node with hnKey := key, hnValue := value }])
        htSize := ht.htSize + 1 })
    | [] =>
      if alloc then
        (.success, { ht with
          htTable := ht.setBucket k key (list ++ [⟨ht.fresh, key, value⟩])
          htSize := ht.htSize + 1
          fresh := ht.fresh + 1 })
      else (.outOfResource, ht)

def removeValue (k : KeyKind κ) (ht : NodeTable κ ν) (key : κ) : HashStatus × NodeTable κ ν :=
  let list := ht.bucketOf k key
  match list.find? fun node => k.same node.hnKey key with
  | some node =>
    (.success, { ht with
      htNodes := ht.htNodes ++ [{ node with hnKey := k.removed node.hnKey }]
      htTable := ht.setBucket k key (list.filter fun n => n.address ≠ node.address)
      htSize := ht.htSize - 1 })
  | none => (.notFound, ht)

def firstOf (lists : List (List (HashNode κ ν))) : Option (HashNode κ ν) := lists.findSome? List.head?

def getFirstKey (ht : NodeTable κ ν) : Option (HashNode κ ν) := firstOf ht.htTable

/-- The node after `inNode` in its list, or the first one of the lists after this. -/
def getNextKey (k : KeyKind κ) (ht : NodeTable κ ν) (inNode : HashNode κ ν) : Option (HashNode κ ν) :=
  let i := k.bucket ht.htMask inNode.hnKey
  let list := (ht.htTable[i]?).getD []
  match (list.dropWhile fun n => n.address ≠ inNode.address).tail with
  | item :: _ => some item
  | [] => firstOf (ht.htTable.drop (i + 1))

/-- From a node on until there is no next one, if that takes at most `fuel` calls. -/
def keysFrom (next : HashNode κ ν → Option (HashNode κ ν)) : (fuel : ℕ) → HashNode κ ν → Option (List (κ × ν))
  | 0, _ => none
  | fuel + 1, node =>
    match next node with
    | none => some [(node.hnKey, node.hnValue)]
    | some node' => (keysFrom next fuel node').map ((node.hnKey, node.hnValue) :: ·)

def enumerate (first : NodeTable κ ν → Option (HashNode κ ν)) (next : NodeTable κ ν → HashNode κ ν → Option (HashNode κ ν))
    (ht : NodeTable κ ν) (fuel : ℕ) : Option (List (κ × ν)) :=
  match first ht with
  | none => some []
  | some node => keysFrom (next ht) fuel node

def getValueUint32 (ht : NodeTable UInt32 ν) (key : UInt32) : Option ν := ht.getValue .uint32 key
def setValueUint32 (ht : NodeTable UInt32 ν) (key : UInt32) (value : ν) (alloc : Bool) : HashStatus × NodeTable UInt32 ν :=
  ht.setValue .uint32 key value alloc
def removeValueUint32 (ht : NodeTable UInt32 ν) (key : UInt32) : HashStatus × NodeTable UInt32 ν := ht.removeValue .uint32 key
def getFirstKeyUint32 (ht : NodeTable UInt32 ν) : Option (HashNode UInt32 ν) := ht.getFirstKey
def getNextKeyUint32 (ht : NodeTable UInt32 ν) (inNode : HashNode UInt32 ν) : Option (HashNode UInt32 ν) := ht.getNextKey .uint32 inNode

def getValueUint64 (ht : NodeTable UInt64 ν) (key : UInt64) : Option ν := ht.getValue .uint64 key
def setValueUint64 (ht : NodeTable UInt64 ν) (key : UInt64) (value : ν) (alloc : Bool) : HashStatus × NodeTable UInt64 ν :=
  ht.setValue .uint64 key value alloc
def removeValueUint64 (ht : NodeTable UInt64 ν) (key : UInt64) : HashStatus × NodeTable UInt64 ν := ht.removeValue .uint64 key
def getFirstKeyUint64 (ht : NodeTable UInt64 ν) : Option (HashNode UInt64 ν) := ht.getFirstKey
def getNextKeyUint64 (ht : NodeTable UInt64 ν) (inNode : HashNode UInt64 ν) : Option (HashNode UInt64 ν) := ht.getNextKey .uint64 inNode

def getValuePtr (ht : NodeTable (List UInt8) ν) (key : List UInt8) : Option ν := ht.getValue .ptr key
def setValuePtr (ht : NodeTable (List UInt8) ν) (key : List UInt8) (value : ν) (alloc : Bool) :
    HashStatus × NodeTable (List UInt8) ν := ht.setValue .ptr key value alloc
def removeValuePtr (ht : NodeTable (List UInt8) ν) (key : List UInt8) : HashStatus × NodeTable (List UInt8) ν :=
  ht.removeValue .ptr key

inductive Call (κ ν : Type)
  | set (key : κ) (value : ν) (alloc : Bool)
  | remove (key : κ)
  | removeAll
  deriving DecidableEq, Repr

/-- The functions for keys of one kind. -/
structure Api (κ ν : Type) where
  get : NodeTable κ ν → κ → Option ν
  set : NodeTable κ ν → κ → ν → Bool → HashStatus × NodeTable κ ν
  remove : NodeTable κ ν → κ → HashStatus × NodeTable κ ν

def uint32Api (ν : Type) : Api UInt32 ν := ⟨getValueUint32, setValueUint32, removeValueUint32⟩
def uint64Api (ν : Type) : Api UInt64 ν := ⟨getValueUint64, setValueUint64, removeValueUint64⟩
def ptrApi (ν : Type) : Api (List UInt8) ν := ⟨getValuePtr, setValuePtr, removeValuePtr⟩

namespace Api

variable (api : Api κ ν)

def exec (ht : NodeTable κ ν) : Call κ ν → HashStatus × NodeTable κ ν
  | .set key value alloc => api.set ht key value alloc
  | .remove key => api.remove ht key
  | .removeAll => (.success, ht.removeAll)

def run (tableSize : ℕ) (calls : List (Call κ ν)) : NodeTable κ ν :=
  calls.foldl (fun ht call => (api.exec ht call).2) (.init tableSize)

end Api

end NodeTable

end OpenMPI.Class
