import Mathlib.Data.List.Basic

/-!
# Hash tables

`opal_hash_table_t` with keys of 32 bits.  Each bucket is a list to which nodes are appended, so the nodes of a bucket
stand in the order of all nodes, and `keys` goes through one bucket after the other.
-/

namespace OpenMPI.Class

/-- `opal_hash_table_t`: the nodes in the order in which they were appended, no key twice. -/
structure HashTable (α : Type) where
  nodes : List (ℕ × α)
  nodup : (nodes.map Prod.fst).Nodup
  deriving DecidableEq

namespace HashTable

variable {α : Type}

def empty : HashTable α := ⟨[], List.nodup_nil⟩

def getValue (ht : HashTable α) (key : ℕ) : Option α := (ht.nodes.find? fun node => node.1 == key).map Prod.snd

/-- The nodes with the value of `key` replaced, or with a node for it appended. -/
def setNodes (nodes : List (ℕ × α)) (key : ℕ) (value : α) : List (ℕ × α) :=
  match nodes with
  | [] => [(key, value)]
  | node :: nodes => if node.1 = key then (key, value) :: nodes else node :: setNodes nodes key value

theorem map_setNodes (nodes : List (ℕ × α)) (key : ℕ) (value : α) :
    (setNodes nodes key value).map Prod.fst =
      if key ∈ nodes.map Prod.fst then nodes.map Prod.fst else nodes.map Prod.fst ++ [key] := by
  induction nodes with
  | nil => rfl
  | cons node nodes ih =>
    rw [setNodes]
    by_cases hkey : node.1 = key
    · simp [hkey]
    · rw [if_neg hkey, List.map_cons, ih]
      by_cases hmem : key ∈ nodes.map Prod.fst
      · rw [if_pos hmem, if_pos (by rw [List.map_cons]; exact List.mem_cons_of_mem _ hmem), List.map_cons]
      · rw [if_neg hmem, if_neg (by simpa [Ne.symm hkey] using hmem), List.map_cons, List.cons_append]

def setValue (ht : HashTable α) (key : ℕ) (value : α) : HashTable α where
  nodes := setNodes ht.nodes key value
  nodup := by
    rw [map_setNodes]
    split_ifs with hmem
    · exact ht.nodup
    · rw [List.nodup_append]
      refine ⟨ht.nodup, by simp, ?_⟩
      rintro a ha b hb rfl
      rw [List.mem_singleton] at hb
      exact hmem (hb ▸ ha)

def removeValue (ht : HashTable α) (key : ℕ) : HashTable α where
  nodes := ht.nodes.filter fun node => node.1 ≠ key
  nodup := ht.nodup.sublist (List.filter_sublist.map _)

/-- The keys in the order of `opal_hash_table_get_first_key_uint32` and `opal_hash_table_get_next_key_uint32`, in a table
of `size` buckets. -/
def keys (ht : HashTable α) (size : ℕ) : List ℕ :=
  (List.range size).flatMap fun i => (ht.nodes.map Prod.fst).filter fun key => key % size = i

end HashTable

end OpenMPI.Class
