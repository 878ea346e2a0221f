import Mathlib.Data.Set.Card
import OpenMPI.Class.NodeTable

/-!
# Hash tables are finite maps

The nodes of all buckets, one bucket after the other, are an association list (`NodeTable.all`).  A call replaces one node in it, puts
one in or takes one out, whatever buckets the keys fall into, and going from key to key goes through it in its order.
-/

namespace OpenMPI.Class

open List

variable {κ ν : Type}

namespace KeyKind

structure Lawful (k : KeyKind κ) : Prop where
  bucket_le : ∀ htMask key, k.bucket htMask key ≤ htMask
  same_iff : ∀ hnKey key, k.same hnKey key = true ↔ hnKey = key

theorem lawful_uint32 : uint32.Lawful where
  bucket_le _ _ := Nat.and_le_right
  same_iff _ _ := beq_iff_eq

theorem lawful_uint64 : uint64.Lawful where
  bucket_le _ _ := Nat.and_le_right
  same_iff _ _ := beq_iff_eq

theorem memcmpZero_iff {s t : List UInt8} (h : s.length = t.length) : memcmpZero s t t.length = true ↔ s = t := by
  unfold memcmpZero
  simp only [all_eq_true, mem_range, beq_iff_eq]
  constructor
  · intro heq
    refine ext_getElem? fun i => ?_
    rcases lt_or_ge i t.length with hi | hi
    · exact heq i hi
    · rw [getElem?_eq_none (h ▸ hi), getElem?_eq_none hi]
  · rintro rfl i _
    rfl

theorem lawful_ptr : ptr.Lawful where
  bucket_le _ _ := le_trans (Nat.mod_le _ _) Nat.and_le_right
  same_iff hnKey key := by
    show (hnKey.length == key.length && memcmpZero hnKey key key.length) = true ↔ hnKey = key
    rw [Bool.and_eq_true, beq_iff_eq]
    constructor
    · rintro ⟨hlen, hsame⟩
      exact (memcmpZero_iff hlen).mp hsame
    · rintro rfl
      exact ⟨rfl, (memcmpZero_iff rfl).mpr rfl⟩

end KeyKind

section Lookup

variable [DecidableEq κ] {A B nodes : List (HashNode κ ν)} {node : HashNode κ ν} {key : κ}

def lookup (nodes : List (HashNode κ ν)) (key : κ) : Option ν := (nodes.find? fun node => node.hnKey = key).map HashNode.hnValue

theorem lookup_eq_none : lookup nodes key = none ↔ key ∉ nodes.map HashNode.hnKey := by
  simp [lookup, find?_eq_none]

theorem lookup_append : lookup (A ++ B) key = (lookup A key).or (lookup B key) := by
  rw [lookup, find?_append, Option.map_or]
  rfl

theorem lookup_cons : lookup (node :: B) key = if node.hnKey = key then some node.hnValue else lookup B key := by
  unfold lookup
  by_cases h : node.hnKey = key
  · simp [h]
  · simp [h]

theorem lookup_eq_some (hnodup : (nodes.map HashNode.hnKey).Nodup) {value : ν} :
    lookup nodes key = some value ↔ ∃ node ∈ nodes, node.hnKey = key ∧ node.hnValue = value := by
  induction nodes with
  | nil => simp [lookup]
  | cons node nodes ih =>
    obtain ⟨hnot, hnodup⟩ := nodup_cons.mp hnodup
    rw [lookup_cons]
    by_cases hkey : node.hnKey = key
    · rw [if_pos hkey, Option.some.injEq]
      constructor
      · exact fun h => ⟨node, mem_cons_self, hkey, h⟩
      · rintro ⟨node', hmem, hkey', hvalue⟩
        rcases mem_cons.mp hmem with rfl | hmem
        · exact hvalue
        · exact absurd (mem_map.mpr ⟨node', hmem, hkey'.trans hkey.symm⟩) hnot
    · rw [if_neg hkey, ih hnodup]
      simp [hkey]

theorem lookup_insert (hA : node.hnKey ∉ A.map HashNode.hnKey) :
    lookup (A ++ node :: B) = Function.update (lookup (A ++ B)) node.hnKey (some node.hnValue) := by
  funext key
  rw [Function.update_apply, lookup_append, lookup_append, lookup_cons]
  by_cases hkey : key = node.hnKey
  · subst hkey
    rw [if_pos rfl, if_pos rfl, lookup_eq_none.mpr hA, Option.none_or]
  · rw [if_neg hkey, if_neg fun h => hkey h.symm]

theorem lookup_erase (hA : node.hnKey ∉ A.map HashNode.hnKey) (hB : node.hnKey ∉ B.map HashNode.hnKey) :
    lookup (A ++ B) = Function.update (lookup (A ++ node :: B)) node.hnKey none := by
  funext key
  rw [Function.update_apply, lookup_append, lookup_append, lookup_cons]
  by_cases hkey : key = node.hnKey
  · subst hkey
    rw [if_pos rfl, lookup_eq_none.mpr hA, lookup_eq_none.mpr hB, Option.none_or]
  · rw [if_neg hkey, if_neg fun h => hkey h.symm]

end Lookup

namespace NodeTable

variable {k : KeyKind κ} {ht : NodeTable κ ν} {key : κ}

def all (ht : NodeTable κ ν) : List (HashNode κ ν) := ht.htTable.flatten

structure Inv (k : KeyKind κ) (ht : NodeTable κ ν) : Prop where
  length : ht.htTable.length = ht.htMask + 1
  placed : ∀ i list, ht.htTable[i]? = some list → ∀ node ∈ list, k.bucket ht.htMask node.hnKey = i
  keys : (ht.all.map HashNode.hnKey).Nodup
  addresses : ((ht.all ++ ht.htNodes).map HashNode.address).Nodup
  below : ∀ node ∈ ht.all ++ ht.htNodes, node.address < ht.fresh
  size : ht.htSize = ht.all.length

theorem Inv.split (hk : k.Lawful) (h : Inv k ht) (key : κ) : ∃ T₁ T₂, ht.htTable = T₁ ++ ht.bucketOf k key :: T₂ ∧
    T₁.length = k.bucket ht.htMask key ∧ ∀ list, ht.setBucket k key list = T₁ ++ list :: T₂ := by
  have hlt : k.bucket ht.htMask key < ht.htTable.length := by
    rw [h.length]
    exact Nat.lt_succ_of_le (hk.bucket_le _ _)
  have hbucket : ht.bucketOf k key = ht.htTable[k.bucket ht.htMask key] := by
    rw [bucketOf, getElem?_eq_getElem hlt, Option.getD_some]
  refine ⟨ht.htTable.take (k.bucket ht.htMask key), ht.htTable.drop (k.bucket ht.htMask key + 1), ?_, ?_, fun list => ?_⟩
  · rw [hbucket, getElem_cons_drop, take_append_drop]
  · rw [length_take, min_eq_left (le_of_lt hlt)]
  · rw [setBucket, set_eq_take_append_cons_drop, if_pos hlt]

theorem Inv.not_mem_other (h : Inv k ht) {T₁ T₂ : List (List (HashNode κ ν))} (htable : ht.htTable = T₁ ++ ht.bucketOf k key :: T₂)
    (hlen : T₁.length = k.bucket ht.htMask key) :
    key ∉ T₁.flatten.map HashNode.hnKey ∧ key ∉ T₂.flatten.map HashNode.hnKey := by
  constructor
  · intro hmem
    obtain ⟨node, hnode, rfl⟩ := mem_map.mp hmem
    obtain ⟨list, hlist, hin⟩ := mem_flatten.mp hnode
    obtain ⟨i, hi, hget⟩ := getElem_of_mem hlist
    have hplaced := h.placed i list (by rw [htable, getElem?_append_left hi, getElem?_eq_getElem hi, hget]) node hin
    omega
  · intro hmem
    obtain ⟨node, hnode, rfl⟩ := mem_map.mp hmem
    obtain ⟨list, hlist, hin⟩ := mem_flatten.mp hnode
    obtain ⟨i, hi, hget⟩ := getElem_of_mem hlist
    have hplaced := h.placed (T₁.length + (i + 1)) list (by
      rw [htable, getElem?_append_right (Nat.le_add_right _ _), Nat.add_sub_cancel_left, getElem?_cons_succ,
        getElem?_eq_getElem hi, hget]) node hin
    omega

theorem Inv.placed_setBucket (h : Inv k ht) {list : List (HashNode κ ν)}
    (hlist : ∀ node ∈ list, k.bucket ht.htMask node.hnKey = k.bucket ht.htMask key) :
    ∀ i list', (ht.setBucket k key list)[i]? = some list' → ∀ node ∈ list', k.bucket ht.htMask node.hnKey = i := by
  intro i list' hget node hmem
  rw [setBucket, getElem?_set] at hget
  by_cases hi : k.bucket ht.htMask key = i
  · rw [if_pos hi] at hget
    by_cases hlt : k.bucket ht.htMask key < ht.htTable.length
    · rw [if_pos hlt, Option.some.injEq] at hget
      subst hget
      rw [hlist node hmem, hi]
    · rw [if_neg hlt] at hget
      cases hget
  · rw [if_neg hi] at hget
    exact h.placed i list' hget node hmem

theorem Inv.placed_bucketOf (h : Inv k ht) : ∀ node ∈ ht.bucketOf k key, k.bucket ht.htMask node.hnKey = k.bucket ht.htMask key := by
  intro node hmem
  rw [bucketOf] at hmem
  cases hget : ht.htTable[k.bucket ht.htMask key]? with
  | none =>
    rw [hget] at hmem
    cases hmem
  | some list =>
    rw [hget] at hmem
    exact h.placed _ list hget node hmem

theorem Inv.found (hk : k.Lawful) (h : Inv k ht) {node : HashNode κ ν}
    (hfind : ((ht.bucketOf k key).find? fun node => k.same node.hnKey key) = some node) :
    node.hnKey = key ∧ ∃ A B, ht.all = A ++ node :: B ∧
      (∀ value, (ht.setBucket k key ((ht.bucketOf k key).map fun n =>
        if n.address = node.address then { n with hnValue := value } else n)).flatten = A ++ { node with hnValue := value } :: B) ∧
      (ht.setBucket k key ((ht.bucketOf k key).filter fun n => n.address ≠ node.address)).flatten = A ++ B := by
  obtain ⟨hsame, X, Y, hlist, -⟩ := find?_eq_some_iff_append.mp hfind
  obtain ⟨T₁, T₂, htable, -, hset⟩ := h.split hk key
  have hall : ht.all = (T₁.flatten ++ X) ++ node :: (Y ++ T₂.flatten) := by
    rw [all, htable, hlist]
    simp
  have haddresses : (ht.all.map HashNode.address).Nodup := by
    have := h.addresses
    rw [map_append] at this
    exact this.of_append_left
  rw [hall, map_append, map_cons, nodup_middle, nodup_cons] at haddresses
  have hother : ∀ n ∈ X ++ Y, n.address ≠ node.address := by
    intro n hn heq
    refine haddresses.1 (heq ▸ ?_)
    rw [← map_append]
    refine mem_map_of_mem ?_
    simp only [mem_append] at hn ⊢
    tauto
  refine ⟨(hk.same_iff _ _).mp hsame, _, _, hall, fun value => ?_, ?_⟩
  · have hX : ∀ n ∈ X, (if n.address = node.address then { n with hnValue := value } else n) = n :=
      fun n hn => if_neg (hother n (mem_append_left _ hn))
    have hY : ∀ n ∈ Y, (if n.address = node.address then { n with hnValue := value } else n) = n :=
      fun n hn => if_neg (hother n (mem_append_right _ hn))
    rw [hset, hlist, map_append, map_cons, if_pos rfl, map_congr_left hX, map_congr_left hY]
    simp
  · have hX : (X.filter fun n => n.address ≠ node.address) = X :=
      filter_eq_self.mpr fun n hn => by simpa using hother n (mem_append_left _ hn)
    have hY : (Y.filter fun n => n.address ≠ node.address) = Y :=
      filter_eq_self.mpr fun n hn => by simpa using hother n (mem_append_right _ hn)
    rw [hset, hlist, filter_append, filter_cons, hX, hY]
    simp

theorem Inv.not_found (hk : k.Lawful) (h : Inv k ht)
    (hfind : ((ht.bucketOf k key).find? fun node => k.same node.hnKey key) = none) :
    key ∉ ht.all.map HashNode.hnKey ∧ ∃ A B, ht.all = A ++ B ∧
      ∀ node, (ht.setBucket k key (ht.bucketOf k key ++ [node])).flatten = A ++ node :: B := by
  obtain ⟨T₁, T₂, htable, hlen, hset⟩ := h.split hk key
  obtain ⟨h₁, h₂⟩ := h.not_mem_other htable hlen
  have hall : ht.all = (T₁.flatten ++ ht.bucketOf k key) ++ T₂.flatten := by
    rw [all]
    conv_lhs => rw [htable]
    simp
  refine ⟨?_, _, _, hall, fun node => ?_⟩
  · have hbucket : key ∉ (ht.bucketOf k key).map HashNode.hnKey := by
      intro hmem
      obtain ⟨node, hnode, rfl⟩ := mem_map.mp hmem
      exact find?_eq_none.mp hfind node hnode ((hk.same_iff _ _).mpr rfl)
    rw [hall]
    simp only [map_append, mem_append, not_or]
    exact ⟨⟨h₁, hbucket⟩, h₂⟩
  · rw [hset]
    simp

theorem Inv.of_perm (h : Inv k ht) {ht' : NodeTable κ ν} (hmask : ht'.htMask = ht.htMask) (hlen : ht'.htTable.length = ht.htTable.length)
    (hplaced : ∀ i list, ht'.htTable[i]? = some list → ∀ node ∈ list, k.bucket ht.htMask node.hnKey = i)
    (hkeys : (ht'.all.map HashNode.hnKey).Nodup)
    (haddresses : ((ht'.all ++ ht'.htNodes).map HashNode.address).Perm ((ht.all ++ ht.htNodes).map HashNode.address))
    (hfresh : ht'.fresh = ht.fresh) (hsize : ht'.htSize = ht'.all.length) : Inv k ht' where
  length := by rw [hlen, hmask, h.length]
  placed := by rwa [hmask]
  keys := hkeys
  addresses := haddresses.nodup_iff.mpr h.addresses
  below := by
    intro node hnode
    obtain ⟨node', hnode', heq⟩ := mem_map.mp (haddresses.subset (mem_map_of_mem (f := HashNode.address) hnode))
    rw [hfresh, ← heq]
    exact h.below node' hnode'
  size := hsize

theorem length_setBucket {list : List (HashNode κ ν)} : (ht.setBucket k key list).length = ht.htTable.length := length_set

theorem Inv.placed_append (h : Inv k ht) {node : HashNode κ ν} (hnode : node.hnKey = key) :
    ∀ n ∈ ht.bucketOf k key ++ [node], k.bucket ht.htMask n.hnKey = k.bucket ht.htMask key := by
  intro n hn
  rcases mem_append.mp hn with hn | hn
  · exact h.placed_bucketOf n hn
  · rw [mem_singleton.mp hn, hnode]

section Steps

variable [DecidableEq κ]

theorem Inv.getValue (hk : k.Lawful) (h : Inv k ht) : ht.getValue k key = lookup ht.all key := by
  unfold NodeTable.getValue
  cases hfind : (ht.bucketOf k key).find? fun node => k.same node.hnKey key with
  | none => rw [lookup_eq_none.mpr (h.not_found hk hfind).1, Option.map_none]
  | some node =>
    obtain ⟨hkey, A, B, hall, -⟩ := h.found hk hfind
    refine ((lookup_eq_some h.keys).mpr ⟨node, ?_, hkey, rfl⟩).symm
    rw [hall]
    exact mem_append_right _ mem_cons_self

structure Steps (k : KeyKind κ) (ht : NodeTable κ ν) (effect : (κ → Option ν) → κ → Option ν) (r : HashStatus × NodeTable κ ν) : Prop where
  inv : Inv k r.2
  contents : lookup r.2.all = if r.1 = .success then effect (lookup ht.all) else lookup ht.all

theorem Inv.setValue (hk : k.Lawful) (h : Inv k ht) (value : ν) (alloc : Bool) :
    Steps k ht (fun m => Function.update m key (some value)) (ht.setValue k key value alloc) := by
  unfold NodeTable.setValue
  dsimp only
  cases hfind : (ht.bucketOf k key).find? fun node => k.same node.hnKey key with
  | some node =>
    obtain ⟨rfl, A, B, hall, hset, -⟩ := h.found hk hfind
    have hkeys := h.keys
    rw [hall, map_append, map_cons] at hkeys
    refine ⟨h.of_perm rfl length_setBucket (h.placed_setBucket fun n hn => ?_) ?_ ?_ rfl ?_, ?_⟩
    · obtain ⟨n', hn', rfl⟩ := mem_map.mp hn
      split
      · exact h.placed_bucketOf n' hn'
      · exact h.placed_bucketOf n' hn'
    · rw [all, hset, map_append, map_cons]
      exact hkeys
    · rw [all, hset, hall]
      simp
    · rw [all, hset]
      simp [h.size, hall]
    · rw [nodup_middle, nodup_cons, mem_append, not_or] at hkeys
      rw [if_pos rfl, all, hset, hall]
      have hinsert : lookup (A ++ { node with hnValue := value } :: B) = Function.update (lookup (A ++ B)) node.hnKey (some value) :=
        lookup_insert hkeys.1.1
      rw [hinsert, lookup_erase hkeys.1.1 hkeys.1.2, Function.update_idem]
  | none =>
    obtain ⟨hnot, A, B, hall, hset⟩ := h.not_found hk hfind
    -- with a node that has the key, at an address of its own
    have hkeys : ∀ node : HashNode κ ν, node.hnKey = key → ((A ++ node :: B).map HashNode.hnKey).Nodup := by
      rintro node rfl
      rw [map_append, map_cons, nodup_middle, ← map_append, ← hall, nodup_cons]
      exact ⟨hnot, h.keys⟩
    have hcontents : ∀ node : HashNode κ ν, node.hnKey = key → lookup (A ++ node :: B) =
        Function.update (lookup ht.all) key (some node.hnValue) := by
      rintro node rfl
      rw [hall] at hnot ⊢
      rw [map_append, mem_append, not_or] at hnot
      exact lookup_insert hnot.1
    cases hnodes : ht.htNodes with
    | cons node rest =>
      dsimp only
      refine ⟨h.of_perm rfl length_setBucket (h.placed_setBucket (h.placed_append rfl)) ?_ ?_ rfl ?_, ?_⟩
      · rw [all, hset]
        exact hkeys _ rfl
      · rw [all, hset, hall, hnodes]
        simp only [map_append, map_cons, append_assoc, cons_append]
        refine List.Perm.append_left _ ?_
        exact (@perm_middle _ _ (B.map HashNode.address) _).symm
      · rw [all, hset, h.size, hall]
        simp only [length_append, length_cons]
        omega
      · rw [if_pos rfl, all, hset]
        exact hcontents _ rfl
    | nil =>
      cases alloc with
      | false => exact ⟨h, by simp⟩
      | true =>
        simp only [if_true]
        refine ⟨⟨?_, h.placed_setBucket (h.placed_append rfl), ?_, ?_, ?_, ?_⟩, ?_⟩
        · exact length_setBucket.trans h.length
        · rw [all, hset]
          exact hkeys _ rfl
        · rw [all, hset]
          dsimp only
          rw [append_nil, map_append, map_cons, nodup_middle, ← map_append, ← hall, nodup_cons]
          have haddresses := h.addresses
          rw [hnodes, append_nil] at haddresses
          refine ⟨fun hmem => ?_, haddresses⟩
          obtain ⟨n, hn, heq⟩ := mem_map.mp hmem
          have := h.below n (mem_append_left _ hn)
          dsimp only at heq
          omega
        · intro n hn
          rw [all, hset] at hn
          dsimp only at hn
          rw [append_nil, mem_append, mem_cons] at hn
          have hold : n ∈ A ++ B → n.address < ht.fresh + 1 := fun hn =>
            Nat.lt_succ_of_lt (h.below n (mem_append_left _ (hall ▸ hn)))
          rcases hn with hn | rfl | hn
          · exact hold (mem_append_left _ hn)
          · exact Nat.lt_succ_self _
          · exact hold (mem_append_right _ hn)
        · rw [all, hset, h.size, hall]
          simp only [length_append, length_cons]
          omega
        · rw [if_pos rfl, all, hset]
          exact hcontents _ rfl

theorem Inv.removeValue (hk : k.Lawful) (h : Inv k ht) :
    Steps k ht (fun m => Function.update m key none) (ht.removeValue k key) := by
  unfold NodeTable.removeValue
  dsimp only
  cases hfind : (ht.bucketOf k key).find? fun node => k.same node.hnKey key with
  | none => exact ⟨h, by simp⟩
  | some node =>
    obtain ⟨rfl, A, B, hall, -, hset⟩ := h.found hk hfind
    have hkeys := h.keys
    rw [hall, map_append, map_cons, nodup_middle, nodup_cons] at hkeys
    refine ⟨h.of_perm rfl length_setBucket (h.placed_setBucket fun n hn => h.placed_bucketOf n (mem_filter.mp hn).1) ?_ ?_ rfl ?_, ?_⟩
    · rw [all, hset, map_append]
      exact hkeys.2
    · rw [all, hset, hall]
      simp only [map_append, map_cons, append_assoc, cons_append, map_nil]
      refine List.Perm.append_left _ ?_
      rw [← append_assoc]
      exact perm_append_singleton _ _
    · rw [all, hset, h.size, hall]
      simp only [length_append, length_cons]
      omega
    · have hnot := hkeys.1
      rw [mem_append, not_or] at hnot
      rw [if_pos rfl, all, hset, hall]
      exact lookup_erase hnot.1 hnot.2

theorem Inv.removeAll (h : Inv k ht) : Steps k ht (fun _ _ => none) (.success, ht.removeAll) := by
  have hall : ht.removeAll.all = [] := by
    rw [all, NodeTable.removeAll, flatten_eq_nil_iff]
    simp
  refine ⟨⟨?_, ?_, ?_, ?_, ?_, ?_⟩, ?_⟩
  · simp [NodeTable.removeAll, h.length]
  · intro i list hlist node hnode
    simp only [NodeTable.removeAll, getElem?_map, Option.map_eq_some_iff] at hlist
    obtain ⟨_, _, rfl⟩ := hlist
    cases hnode
  · simp [hall]
  · rw [hall]
    exact nodup_nil
  · rw [hall]
    exact fun node hnode => nomatch hnode
  · rw [hall]
    rfl
  · rw [hall]
    rfl

end Steps

theorem firstOf_eq (lists : List (List (HashNode κ ν))) : firstOf lists = lists.flatten.head? := head?_flatten.symm

theorem dropWhile_address {pre post : List (HashNode κ ν)} {node : HashNode κ ν} (h : node.address ∉ pre.map HashNode.address) :
    ((pre ++ node :: post).dropWhile fun n => n.address ≠ node.address) = node :: post := by
  rw [dropWhile_append_of_pos, dropWhile_cons_of_neg]
  · simp
  · intro n hn
    simp only [decide_eq_true_eq]
    exact fun heq => h (heq ▸ mem_map_of_mem hn)

theorem Inv.getNextKey (hk : k.Lawful) (h : Inv k ht) {pre post : List (HashNode κ ν)} {node : HashNode κ ν}
    (hall : ht.all = pre ++ node :: post) : ht.getNextKey k node = post.head? := by
  obtain ⟨T₁, T₂, htable, hlen, -⟩ := h.split hk node.hnKey
  have hmem : node ∈ ht.bucketOf k node.hnKey := by
    have hin : node ∈ ht.all := hall ▸ mem_append_right _ mem_cons_self
    obtain ⟨list, hlist, hin⟩ := mem_flatten.mp hin
    obtain ⟨i, hi, rfl⟩ := getElem_of_mem hlist
    have hget : ht.htTable[i]? = some ht.htTable[i] := getElem?_eq_getElem hi
    rw [bucketOf, h.placed i _ hget node hin, hget]
    exact hin
  obtain ⟨X, Y, hbucket⟩ := append_of_mem hmem
  have hall' : ht.all = (T₁.flatten ++ X) ++ node :: (Y ++ T₂.flatten) := by
    rw [all, htable, hbucket]
    simp
  have haddresses : (ht.all.map HashNode.address).Nodup := by
    have := h.addresses
    rw [map_append] at this
    exact this.of_append_left
  -- what comes before a node has other addresses, so that the node can be found from the front
  have hbefore : ∀ {pre post}, ht.all = pre ++ node :: post → node.address ∉ pre.map HashNode.address := by
    intro pre post hall hmem
    rw [hall, map_append, map_cons, nodup_middle, nodup_cons] at haddresses
    exact haddresses.1 (mem_append_left _ hmem)
  have hpost : node :: post = node :: (Y ++ T₂.flatten) := by
    rw [← dropWhile_address (hbefore hall), ← hall, hall', dropWhile_address (hbefore hall')]
  have hX : node.address ∉ X.map HashNode.address := by
    have := hbefore hall'
    rw [map_append, mem_append, not_or] at this
    exact this.2
  have hdrop : ht.htTable.drop (k.bucket ht.htMask node.hnKey + 1) = T₂ := by
    rw [htable, ← hlen, drop_length_add_append]
    rfl
  unfold NodeTable.getNextKey
  dsimp only
  rw [← bucketOf, hbucket, dropWhile_address hX, hdrop, tail_cons, (List.cons.inj hpost).2]
  cases Y with
  | nil => exact firstOf_eq T₂
  | cons item Y => rfl

theorem Inv.keysFrom (hk : k.Lawful) (h : Inv k ht) : ∀ {pre post : List (HashNode κ ν)} {node : HashNode κ ν} {fuel : ℕ},
    ht.all = pre ++ node :: post → post.length < fuel →
    NodeTable.keysFrom (ht.getNextKey k) fuel node = some ((node :: post).map fun n => (n.hnKey, n.hnValue))
  | _, post, _, 0, _, hfuel => absurd hfuel (Nat.not_lt_zero _)
  | pre, [], node, fuel + 1, hall, _ => by
    rw [NodeTable.keysFrom, h.getNextKey hk hall]
    rfl
  | pre, node' :: post, node, fuel + 1, hall, hfuel => by
    have hall' : ht.all = (pre ++ [node]) ++ node' :: post := by rw [hall, append_assoc, singleton_append]
    rw [NodeTable.keysFrom, h.getNextKey hk hall, head?_cons]
    dsimp only
    rw [h.keysFrom hk hall' (Nat.lt_of_succ_lt_succ hfuel)]
    rfl

theorem Inv.enumerate (hk : k.Lawful) (h : Inv k ht) {fuel : ℕ} (hfuel : ht.htSize ≤ fuel) :
    NodeTable.enumerate getFirstKey (NodeTable.getNextKey k) ht fuel = some (ht.all.map fun n => (n.hnKey, n.hnValue)) := by
  unfold NodeTable.enumerate
  rw [getFirstKey, firstOf_eq, ← all]
  cases hall : ht.all with
  | nil => rfl
  | cons node post =>
    refine h.keysFrom hk (hall.trans (nil_append _).symm) ?_
    rw [h.size, hall] at hfuel
    exact hfuel

theorem powerLoop_pos : ∀ {fuel tmp power2 : ℕ}, 0 < power2 → 0 < powerLoop fuel tmp power2
  | 0, _, _, h => h
  | fuel + 1, tmp, power2, h => by
    unfold powerLoop
    split
    · refine powerLoop_pos ?_
      rw [Nat.shiftLeft_eq]
      exact mul_pos h (Nat.two_pow_pos 1)
    · exact h

theorem all_init (tableSize : ℕ) : (init tableSize : NodeTable κ ν).all = [] := by
  rw [all, init, flatten_eq_nil_iff]
  exact fun list hlist => eq_of_mem_replicate hlist

theorem inv_init (tableSize : ℕ) : Inv k (init tableSize : NodeTable κ ν) where
  length := by
    have : 0 < powerLoop tableSize tableSize 1 := powerLoop_pos one_pos
    simp only [init, length_replicate]
    omega
  placed := by
    intro i list hlist node hnode
    rw [eq_of_mem_replicate (mem_of_getElem? hlist)] at hnode
    cases hnode
  keys := by rw [all_init]; exact nodup_nil
  addresses := by rw [all_init]; exact nodup_nil
  below := by
    intro node hnode
    rw [all_init] at hnode
    cases hnode
  size := by rw [all_init]; rfl

section Spec

variable [DecidableEq κ]

def Call.effect : Call κ ν → (κ → Option ν) → κ → Option ν
  | .set key value _, m => Function.update m key (some value)
  | .remove key, m => Function.update m key none
  | .removeAll, _ => fun _ => none

def contents (calls : List (Call κ ν)) : κ → Option ν := calls.foldl (fun m call => call.effect m) fun _ => none

end Spec

namespace Api

def acceptedFrom (api : Api κ ν) : NodeTable κ ν → List (Call κ ν) → List (Call κ ν)
  | _, [] => []
  | ht, call :: calls =>
    if (api.exec ht call).1 = .success then call :: acceptedFrom api (api.exec ht call).2 calls
    else acceptedFrom api (api.exec ht call).2 calls

def accepted (api : Api κ ν) (tableSize : ℕ) (calls : List (Call κ ν)) : List (Call κ ν) := api.acceptedFrom (.init tableSize) calls

def ofKind (ν : Type) (k : KeyKind κ) : Api κ ν := ⟨getValue k, setValue k, removeValue k⟩

variable [DecidableEq κ]

theorem exec_steps (hk : k.Lawful) (h : Inv k ht) (call : Call κ ν) : Steps k ht call.effect ((ofKind ν k).exec ht call) := by
  cases call with
  | set key value alloc => exact h.setValue hk value alloc
  | remove key => exact h.removeValue hk
  | removeAll => exact h.removeAll

theorem run_from (hk : k.Lawful) (calls : List (Call κ ν)) : ∀ {ht : NodeTable κ ν}, Inv k ht →
    Inv k (calls.foldl (fun ht call => ((ofKind ν k).exec ht call).2) ht) ∧
      lookup (calls.foldl (fun ht call => ((ofKind ν k).exec ht call).2) ht).all =
        ((ofKind ν k).acceptedFrom ht calls).foldl (fun m call => call.effect m) (lookup ht.all) := by
  induction calls with
  | nil => exact fun h => ⟨h, rfl⟩
  | cons call calls ih =>
    intro ht h
    have hstep := exec_steps hk h call
    obtain ⟨hinv, hcontents⟩ := ih hstep.inv
    refine ⟨hinv, hcontents.trans ?_⟩
    rw [hstep.contents, acceptedFrom]
    split
    · rfl
    · rfl

theorem run_steps (hk : k.Lawful) (tableSize : ℕ) (calls : List (Call κ ν)) : Inv k ((ofKind ν k).run tableSize calls) ∧
    lookup ((ofKind ν k).run tableSize calls).all = NodeTable.contents ((ofKind ν k).accepted tableSize calls) := by
  obtain ⟨hinv, hcontents⟩ := run_from hk calls (inv_init (ν := ν) tableSize)
  refine ⟨hinv, hcontents.trans ?_⟩
  rw [all_init]
  rfl

structure Refines (api : Api κ ν) : Prop where
  get : ∀ tableSize calls key, api.get (api.run tableSize calls) key = NodeTable.contents (api.accepted tableSize calls) key
  set : ∀ tableSize calls key value, (api.set (api.run tableSize calls) key value true).1 = .success
  remove : ∀ tableSize calls key, (api.remove (api.run tableSize calls) key).1 =
    if NodeTable.contents (api.accepted tableSize calls) key = none then .notFound else .success
  size : ∀ tableSize calls, (api.run tableSize calls).htSize =
    {key | NodeTable.contents (api.accepted tableSize calls) key ≠ none}.ncard

/-- Going from the first key to the next until there is none, every key that is there comes once. -/
def Enumerates (api : Api κ ν) (first : NodeTable κ ν → Option (HashNode κ ν))
    (next : NodeTable κ ν → HashNode κ ν → Option (HashNode κ ν)) : Prop :=
  ∀ tableSize calls, ∃ l,
    (∀ fuel, (api.run tableSize calls).htSize ≤ fuel → enumerate first next (api.run tableSize calls) fuel = some l) ∧
    (l.map Prod.fst).Nodup ∧
    ∀ key value, (key, value) ∈ l ↔ NodeTable.contents (api.accepted tableSize calls) key = some value

theorem refines_ofKind (hk : k.Lawful) : (ofKind ν k).Refines where
  get tableSize calls key := by
    obtain ⟨hinv, hcontents⟩ := run_steps (ν := ν) hk tableSize calls
    rw [← hcontents]
    exact hinv.getValue hk
  set tableSize calls key value := by
    show (NodeTable.setValue k _ key value true).1 = .success
    unfold NodeTable.setValue
    dsimp only
    split
    · rfl
    · split
      · rfl
      · rfl
  remove tableSize calls key := by
    obtain ⟨hinv, hcontents⟩ := run_steps (ν := ν) hk tableSize calls
    have hget : NodeTable.contents ((ofKind ν k).accepted tableSize calls) key = none ↔
        ((((ofKind ν k).run tableSize calls).bucketOf k key).find? fun node => k.same node.hnKey key) = none := by
      rw [← hcontents, ← hinv.getValue hk, NodeTable.getValue, Option.map_eq_none_iff]
    show (NodeTable.removeValue k _ key).1 = _
    unfold NodeTable.removeValue
    dsimp only
    split
    · rename_i hfind
      rw [if_neg fun h => by rw [hget.mp h] at hfind; cases hfind]
    · rename_i hfind
      rw [if_pos (hget.mpr hfind)]
  size tableSize calls := by
    obtain ⟨hinv, hcontents⟩ := run_steps (ν := ν) hk tableSize calls
    have hset : {key | NodeTable.contents ((ofKind ν k).accepted tableSize calls) key ≠ none} =
        ↑(((ofKind ν k).run tableSize calls).all.map HashNode.hnKey).toFinset := by
      ext key
      rw [← hcontents, Set.mem_ofPred_eq, Ne, lookup_eq_none, not_not, coe_toFinset, Set.mem_ofPred_eq]
    rw [hset, Set.ncard_coe_finset, toFinset_card_of_nodup hinv.keys, length_map, hinv.size]

theorem enumerates_ofKind (hk : k.Lawful) : (ofKind ν k).Enumerates getFirstKey (NodeTable.getNextKey k) := by
  intro tableSize calls
  obtain ⟨hinv, hcontents⟩ := run_steps (ν := ν) hk tableSize calls
  refine ⟨_, fun fuel hfuel => hinv.enumerate hk hfuel, ?_, fun key value => ?_⟩
  · rw [map_map]
    exact hinv.keys
  · rw [← hcontents, lookup_eq_some hinv.keys, mem_map]
    simp only [Prod.mk.injEq]

end Api

/-- The tables for keys of 32 and 64 bits and for byte strings are finite maps, and the keys of the first two can be gone through. -/
theorem hashTable_refines (ν : Type) : (uint32Api ν).Refines ∧ (uint64Api ν).Refines ∧ (ptrApi ν).Refines ∧
    (uint32Api ν).Enumerates getFirstKeyUint32 getNextKeyUint32 ∧ (uint64Api ν).Enumerates getFirstKeyUint64 getNextKeyUint64 :=
  ⟨Api.refines_ofKind KeyKind.lawful_uint32, Api.refines_ofKind KeyKind.lawful_uint64, Api.refines_ofKind KeyKind.lawful_ptr,
    Api.enumerates_ofKind KeyKind.lawful_uint32, Api.enumerates_ofKind KeyKind.lawful_uint64⟩

end NodeTable

end OpenMPI.Class
