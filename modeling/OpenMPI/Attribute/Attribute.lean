import OpenMPI.Class.Bitmap
import OpenMPI.Class.HashTable

/-!
# Attributes

Keyvals with their reference counts, and the attributes of communicators, windows and datatypes.  The values of
attributes are not looked at, so the translations between C and Fortran are left out, as are extra states and the lock.
What the callbacks of the program answer is a parameter of each operation.
-/

namespace OpenMPI.Attribute

open OpenMPI.Class (Bitmap HashTable)

inductive AttrType
  | commAttr
  | typeAttr
  | winAttr
  deriving DecidableEq

/-- `ompi_attribute_keyval_t`; `predefined` is the flag `OMPI_KEYVAL_PREDEFINED`. -/
structure Keyval where
  attrType : AttrType
  predefined : Bool
  refcount : ℕ
  deriving DecidableEq

structure Keyvals where
  hash : HashTable Keyval
  bitmap : Bitmap
  deriving DecidableEq

/-- What an operation returns; `undefined` stands for the use of a keyval that was not found. -/
inductive Ret
  | success
  | badParam
  | notFound
  | outOfResource
  | callback
  | undefined
  deriving DecidableEq

/-- The number of buckets that `opal_hash_table_init` makes of `ATTR_HASH_SIZE`, the next power of two. -/
def attrHashSize : ℕ := 16

namespace Keyvals

def retain (t : Keyvals) (key : ℕ) (kv : Keyval) : Keyvals :=
  { t with hash := t.hash.setValue key { kv with refcount := kv.refcount + 1 } }

def destruct (t : Keyvals) (key : ℕ) : Keyvals := ⟨t.hash.removeValue key, t.bitmap.ompiClearBit key⟩

def release (t : Keyvals) (key : ℕ) (kv : Keyval) : Keyvals :=
  if kv.refcount - 1 = 0 then t.destruct key
  else { t with hash := t.hash.setValue key { kv with refcount := kv.refcount - 1 } }

/-- The keyval of `key`, if it is for objects of the type and may be used. -/
def find (t : Keyvals) (type : AttrType) (key : ℕ) (predefined : Bool) : Option Keyval :=
  (t.hash.getValue key).filter fun kv => kv.attrType = type ∧ ¬(predefined = false ∧ kv.predefined = true)

/-- `ompi_attr_create_keyval_impl`: the key, with the keyvals. -/
def createKeyval (t : Keyvals) (type : AttrType) (predefined : Bool) : Option (ℕ × Keyvals) :=
  t.bitmap.findAndSetFirstUnsetBit.map fun (key, bitmap) => (key, ⟨t.hash.setValue key ⟨type, predefined, 1⟩, bitmap⟩)

def freeKeyval (t : Keyvals) (type : AttrType) (key : ℕ) (predefined : Bool) : Keyvals × Ret :=
  match t.find type key predefined with
  | none => (t, .badParam)
  | some kv => (t.release key kv, .success)

/-- `set_value`, where `deleted` says whether the delete callback succeeds. -/
def setValue (t : Keyvals) (type : AttrType) (attrHash : Option (HashTable ℕ)) (key value : ℕ) (predefined deleted : Bool) :
    Keyvals × Option (HashTable ℕ) × Ret :=
  match t.find type key predefined with
  | none => (t, attrHash, .badParam)
  | some kv =>
    let attrs := attrHash.getD .empty
    match attrs.getValue key with
    | some _ => if deleted then (t, some (attrs.setValue key value), .success) else (t, some attrs, .callback)
    | none => (t.retain key kv, some (attrs.setValue key value), .success)

def delete (t : Keyvals) (type : AttrType) (attrHash : Option (HashTable ℕ)) (key : ℕ) (predefined deleted : Bool) :
    Keyvals × Option (HashTable ℕ) × Ret :=
  match t.find type key predefined with
  | none => (t, attrHash, .badParam)
  | some kv =>
    match attrHash with
    | none => (t, none, .badParam)
    | some attrs =>
      match attrs.getValue key with
      | none => (t, some attrs, .notFound)
      | some _ => if deleted then (t.release key kv, some (attrs.removeValue key), .success) else (t, some attrs, .callback)

def deleteLoop (type : AttrType) (deleted : ℕ → Bool) :
    List ℕ → Keyvals → Option (HashTable ℕ) → Keyvals × Option (HashTable ℕ) × Ret
  | [], t, attrHash => (t, attrHash, .success)
  | key :: keys, t, attrHash =>
    match t.delete type attrHash key true (deleted key) with
    | (t, attrHash, .success) => deleteLoop type deleted keys t attrHash
    | failed => failed

def deleteAll (t : Keyvals) (type : AttrType) (attrHash : Option (HashTable ℕ)) (deleted : ℕ → Bool) :
    Keyvals × Option (HashTable ℕ) × Ret :=
  match attrHash with
  | none => (t, none, .success)
  | some attrs => deleteLoop type deleted (attrs.keys attrHashSize) t (some attrs)

/-- The loop of `ompi_attr_copy_all`: `copied` answers an error, no value or the value for the new object.  The new
object has no attribute yet that a delete callback could be called for. -/
def copyLoop (type : AttrType) (copied : ℕ → Option (Option ℕ)) :
    List ℕ → Keyvals → Option (HashTable ℕ) → Keyvals × Option (HashTable ℕ) × Ret
  | [], t, newHash => (t, newHash, .success)
  | key :: keys, t, newHash =>
    match t.hash.getValue key with
    | none => (t, newHash, .undefined)
    | some _ =>
      match copied key with
      | none => (t, newHash, .callback)
      | some none => copyLoop type copied keys t newHash
      | some (some value) =>
        let (t, newHash, _) := t.setValue type newHash key value true true
        copyLoop type copied keys t newHash

end Keyvals

/-- A communicator, a window or a datatype, with `c_keyhash`, `w_keyhash` or `d_keyhash`. -/
structure Obj where
  type : AttrType
  attrHash : Option (HashTable ℕ)
  deriving DecidableEq

/-- The keyvals, the objects that there were with those freed as `none`, and whether the program has a keyval: it created
it and did not free it since. -/
structure World where
  keyvals : Keyvals
  objects : List (Option Obj)
  live : ℕ → Bool

/-- The state that `ompi_attr_init` leaves, before the predefined keyvals. -/
def World.init : World := ⟨⟨.empty, Bitmap.init 32⟩, [], fun _ => false⟩

/-- The calls of a program on attributes.  The answers of the callbacks come with the call: for each key whether the delete
callback succeeds, and what the copy callback answers. -/
inductive Call
  | createKeyval (type : AttrType) (predefined : Bool)
  | freeKeyval (type : AttrType) (key : ℕ) (predefined : Bool)
  | create (type : AttrType)
  | set (i key value : ℕ) (predefined deleted : Bool)
  | delete (i key : ℕ) (predefined deleted : Bool)
  | dup (i : ℕ) (copied : ℕ → Option (Option ℕ)) (deleted : ℕ → Bool)
  | free (i : ℕ) (deleted : ℕ → Bool)

namespace World

def obj (w : World) (i : ℕ) : Option Obj := w.objects[i]?.join

def createKeyval (w : World) (type : AttrType) (predefined : Bool) : World × Ret :=
  match w.keyvals.createKeyval type predefined with
  | none => (w, .outOfResource)
  | some (key, keyvals) => ({ w with keyvals, live := fun k => if k = key then true else w.live k }, .success)

def freeKeyval (w : World) (type : AttrType) (key : ℕ) (predefined : Bool) : World × Ret :=
  match w.keyvals.freeKeyval type key predefined with
  | (keyvals, .success) => ({ w with keyvals, live := fun k => if k = key then false else w.live k }, .success)
  | (_, ret) => (w, ret)

def set (w : World) (i key value : ℕ) (predefined deleted : Bool) : World × Ret :=
  match w.obj i with
  | none => (w, .badParam)
  | some o =>
    let (keyvals, attrHash, ret) := w.keyvals.setValue o.type o.attrHash key value predefined deleted
    ({ w with keyvals, objects := w.objects.set i (some { o with attrHash }) }, ret)

def delete (w : World) (i key : ℕ) (predefined deleted : Bool) : World × Ret :=
  match w.obj i with
  | none => (w, .badParam)
  | some o =>
    let (keyvals, attrHash, ret) := w.keyvals.delete o.type o.attrHash key predefined deleted
    ({ w with keyvals, objects := w.objects.set i (some { o with attrHash }) }, ret)

/-- What `ompi_comm_set`, called by `ompi_comm_dup`, and `MPI_Type_dup` do with attributes.  Where they fail, the
destructor of the new communicator leaves its attributes alone, and that of the new datatype deletes them. -/
def dup (w : World) (i : ℕ) (copied : ℕ → Option (Option ℕ)) (deleted : ℕ → Bool) : World × Ret :=
  match w.obj i with
  | none => (w, .badParam)
  | some o =>
    match o.type, o.attrHash with
    | .winAttr, _ => (w, .badParam)
    | type, none => ({ w with objects := w.objects ++ [some ⟨type, none⟩] }, .success)
    | type, some attrs =>
      match Keyvals.copyLoop type copied (attrs.keys attrHashSize) w.keyvals (some .empty) with
      | (keyvals, newHash, .success) => ({ w with keyvals, objects := w.objects ++ [some ⟨type, newHash⟩] }, .success)
      | (keyvals, newHash, ret) =>
        if type = .commAttr then ({ w with keyvals }, ret)
        else ({ w with keyvals := (keyvals.deleteAll type newHash deleted).1 }, ret)

/-- What `ompi_comm_free` and the destructors of windows and datatypes do with attributes: a communicator stays if one
cannot be deleted. -/
def free (w : World) (i : ℕ) (deleted : ℕ → Bool) : World × Ret :=
  match w.obj i with
  | none => (w, .badParam)
  | some o =>
    match o.type, w.keyvals.deleteAll o.type o.attrHash deleted with
    | .commAttr, (keyvals, _, .success) => ({ w with keyvals, objects := w.objects.set i none }, .success)
    | .commAttr, (keyvals, attrHash, ret) => ({ w with keyvals, objects := w.objects.set i (some { o with attrHash }) }, ret)
    | _, (keyvals, _, _) => ({ w with keyvals, objects := w.objects.set i none }, .success)

def step (w : World) : Call → World × Ret
  | .createKeyval type predefined => w.createKeyval type predefined
  | .freeKeyval type key predefined => w.freeKeyval type key predefined
  | .create type => ({ w with objects := w.objects ++ [some ⟨type, none⟩] }, .success)
  | .set i key value predefined deleted => w.set i key value predefined deleted
  | .delete i key predefined deleted => w.delete i key predefined deleted
  | .dup i copied deleted => w.dup i copied deleted
  | .free i deleted => w.free i deleted

def after (calls : List Call) : World := calls.foldl (fun w c => (w.step c).1) init

end World

end OpenMPI.Attribute
