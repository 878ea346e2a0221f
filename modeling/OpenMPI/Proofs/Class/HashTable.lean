import Mathlib.Data.List.Nodup
import OpenMPI.Class.HashTable

/-!
# Hash tables

What a key has after a value was set or removed, and the keys of a table in their order.
-/

namespace OpenMPI.Class.HashTable

open List

variable {α : Type} {ht : HashTable α} {key k : ℕ} {value : α}

@[simp] theorem getValue_empty : (empty : HashTable α).getValue key = none := rfl

theorem find?_setNodes (nodes : List (ℕ × α)) :
    ((setNodes nodes key value).find? fun node => node.1 == k).map Prod.snd =
      if k = key then some value else (nodes.find? fun node => node.1 == k).map Prod.snd := by
  induction nodes with
  | nil =>
    rw [setNodes]
    by_cases hk : k = key
    · simp [hk]
    · simp [hk, Ne.symm hk]
  | cons node nodes ih =>
    rw [setNodes]
    by_cases hnode : node.1 = key
    · rw [if_pos hnode]
      by_cases hk : k = key
      · simp [hk]
      · have hk' : ¬node.1 = k := fun h => hk (h.symm.trans hnode)
        simp [hk, Ne.symm hk, hk']
    · rw [if_neg hnode]
      by_cases hk : node.1 = k
      · have hne : k ≠ key := fun h => hnode (hk.trans h)
        simp [hk, hne]
      · rw [find?_cons_of_neg (by simpa using hk), find?_cons_of_neg (by simpa using hk), ih]

theorem getValue_setValue : (ht.setValue key value).getValue k = if k = key then some value else ht.getValue k :=
  find?_setNodes ht.nodes

theorem getValue_removeValue : (ht.removeValue key).getValue k = if k = key then none else ht.getValue k := by
  rw [getValue, removeValue, find?_filter]
  by_cases hk : k = key
  · rw [if_pos hk, Option.map_eq_none_iff, find?_eq_none]
    rintro node - h
    simp at h
    exact h.1 (h.2.trans hk)
  · rw [if_neg hk, getValue]
    congr 2
    funext node
    by_cases hnode : node.1 = k
    · simp [hnode, hk]
    · simp [hnode]

theorem getValue_isSome : (ht.getValue key).isSome = true ↔ key ∈ ht.nodes.map Prod.fst := by
  rw [getValue, Option.isSome_map, find?_isSome, mem_map]
  simp

theorem mem_keys {size : ℕ} (hsize : 0 < size) : key ∈ ht.keys size ↔ (ht.getValue key).isSome = true := by
  rw [getValue_isSome, keys, mem_flatMap]
  constructor
  · rintro ⟨i, -, hkey⟩
    exact (mem_filter.1 hkey).1
  · intro h
    exact ⟨key % size, mem_range.2 (Nat.mod_lt _ hsize), mem_filter.2 ⟨h, by simp⟩⟩

theorem keys_nodup (size : ℕ) : (ht.keys size).Nodup := by
  rw [keys, nodup_flatMap]
  refine ⟨fun i _ => ht.nodup.filter _, List.nodup_range.imp_of_mem ?_⟩
  intro i j _ _ hij key hi hj
  rw [mem_filter, decide_eq_true_eq] at hi hj
  exact hij (hi.2.symm.trans hj.2)

end OpenMPI.Class.HashTable
