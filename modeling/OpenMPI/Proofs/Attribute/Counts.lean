import OpenMPI.Attribute.Attribute
import OpenMPI.Proofs.Class.Bitmap
import OpenMPI.Proofs.Class.HashTable

/-!
# The reference counts of keyvals

A keyval is counted once for the program, while it has it, and once for each object with an attribute for it.  `Books` says
that the counts are some numbers, and that the keyvals there are those with a count above 0; the operations on one object
keep them to what the others hold and what it holds itself (`Held`).  Where a count goes wrong the call was one of four,
and elsewhere every call does what it should (`World.counted_iff`).
-/

namespace OpenMPI.Attribute

open List Option

open OpenMPI.Class (Bitmap HashTable)
open OpenMPI.Lib

def holds (attrHash : Option (HashTable ℕ)) (key : ℕ) : Bool := attrHash.any fun attrs => (attrs.getValue key).isSome

def held (attrHash : Option (HashTable ℕ)) (key : ℕ) : ℕ := if holds attrHash key then 1 else 0

structure Books (t : Keyvals) (n : ℕ → ℕ) : Prop where
  count : ∀ key, (t.hash.getValue key).elim 0 Keyval.refcount = n key
  pos : ∀ key kv, t.hash.getValue key = some kv → 0 < kv.refcount
  bit : ∀ key, t.bitmap.isSetBit key = (t.hash.getValue key).isSome
  room : 0 < t.bitmap.length

def Typed (t : Keyvals) (type : AttrType) (key : ℕ) : Prop := ∃ kv, t.hash.getValue key = some kv ∧ kv.attrType = type

def Keeps (t t' : Keyvals) : Prop :=
  ∀ key kv', t'.hash.getValue key = some kv' → ∃ kv, t.hash.getValue key = some kv ∧ kv' = { kv with refcount := kv'.refcount }

namespace World

def holders (w : World) (key : ℕ) : ℕ := w.objects.countP fun o => o.any fun o => holds o.attrHash key

/-- A keyval is released only when the program freed it and no object has an attribute for it, and its key can be used
again just then; until then it counts once for the program and once for each such object, and is one for its type. -/
structure Counted (w : World) : Prop where
  count : ∀ key kv, w.keyvals.hash.getValue key = some kv →
    0 < kv.refcount ∧ kv.refcount = (if w.live key then 1 else 0) + w.holders key
  released : ∀ key, w.keyvals.hash.getValue key = none → w.live key = false ∧ w.holders key = 0
  valid : ∀ i o key, w.obj i = some o → holds o.attrHash key = true → Typed w.keyvals o.type key
  reusable : ∀ key, w.keyvals.bitmap.isSetBit key = (w.keyvals.hash.getValue key).isSome
  room : 0 < w.keyvals.bitmap.length

def Undisturbed (w w' : World) : Prop := w'.objects = w.objects ∧ ∀ key, w'.keyvals.hash.getValue key = w.keyvals.hash.getValue key

def changes : Call → Bool
  | .set .. | .delete .. | .dup .. => true
  | _ => false

/-- The counts are right after the call, and if it fails because of a callback nothing changed. -/
def Ok (w : World) (c : Call) : Prop :=
  Counted (w.step c).1 ∧ (changes c = true → (w.step c).2 = .callback → Undisturbed w (w.step c).1)

/-- The keys copied before a copy callback fails, if one does. -/
def copiedBefore (copied : ℕ → Option (Option ℕ)) : List ℕ → Option (List ℕ)
  | [] => none
  | key :: keys =>
    match copied key with
    | none => some []
    | some none => copiedBefore copied keys
    | some (some _) => (copiedBefore copied keys).map (key :: ·)

/-- What a call must not do: free a keyval again that is only there because of its attributes; free a window or datatype
whose attributes cannot all be deleted; duplicate an object where a copy callback fails after attributes were copied, for a
communicator, or where these cannot all be deleted, for a datatype. -/
def Careful (w : World) : Call → Prop
  | .freeKeyval type key predefined => (w.keyvals.find type key predefined).isSome = true → w.live key = true
  | .dup i copied deleted => ∀ type attrs keys, w.obj i = some ⟨type, some attrs⟩ →
      copiedBefore copied (attrs.keys attrHashSize) = some keys → type ≠ .winAttr →
      if type = .commAttr then keys = [] else ∀ key ∈ keys, deleted key = true
  | .free i deleted => ∀ type attrs, w.obj i = some ⟨type, some attrs⟩ → type ≠ .commAttr →
      ∀ key ∈ attrs.keys attrHashSize, deleted key = true
  | _ => True

end World

section Keyvals
variable {t t' : Keyvals} {n : ℕ → ℕ} {key : ℕ} {kv : Keyval} {type : AttrType}

theorem Keeps.refl (t : Keyvals) : Keeps t t := fun _ kv h => ⟨kv, h, rfl⟩

theorem Keeps.trans {t₁ t₂ t₃ : Keyvals} (h : Keeps t₁ t₂) (h' : Keeps t₂ t₃) : Keeps t₁ t₃ := by
  intro key kv₃ hkv₃
  obtain ⟨kv₂, hkv₂, heq₂⟩ := h' key kv₃ hkv₃
  obtain ⟨kv₁, hkv₁, heq₁⟩ := h key kv₂ hkv₂
  refine ⟨kv₁, hkv₁, ?_⟩
  rw [heq₂, heq₁]

theorem Books.pos_iff (h : Books t n) : 0 < n key ↔ (t.hash.getValue key).isSome = true := by
  rw [← h.count key]
  cases hget : t.hash.getValue key with
  | none => simp
  | some kv => simpa using h.pos key kv hget

theorem Books.refcount (h : Books t n) (hkv : t.hash.getValue key = some kv) : kv.refcount = n key := by
  have := h.count key
  rwa [hkv] at this

theorem Typed.keep (h : Typed t type key) (hkeeps : Keeps t t') (hn : Books t' n) (hpos : 0 < n key) : Typed t' type key := by
  obtain ⟨kv', hkv'⟩ := isSome_iff_exists.1 (hn.pos_iff.1 hpos)
  obtain ⟨kv, hkv, htype⟩ := h
  obtain ⟨kv₀, hkv₀, heq⟩ := hkeeps key kv' hkv'
  rw [hkv, Option.some.injEq] at hkv₀
  refine ⟨kv', hkv', ?_⟩
  rw [heq, ← hkv₀, htype]

theorem Keeps.getValue_eq (h : Keeps t t') (hn : Books t n) (hn' : Books t' n) (key : ℕ) :
    t'.hash.getValue key = t.hash.getValue key := by
  cases hget' : t'.hash.getValue key with
  | none =>
    have hnot : ¬0 < n key := fun hpos => by
      have := hn'.pos_iff.1 hpos
      simp [hget'] at this
    cases hget : t.hash.getValue key with
    | none => rfl
    | some kv => exact absurd (hn.pos_iff.2 (by simp [hget])) hnot
  | some kv' =>
    obtain ⟨kv, hget, heq⟩ := h key kv' hget'
    rw [hget, heq, hn'.refcount hget', ← hn.refcount hget]

theorem Books.recount (h : Books t n) (hkv : t.hash.getValue key = some kv) {c : ℕ} (hc : 0 < c) :
    Books { t with hash := t.hash.setValue key { kv with refcount := c } } (fun k => if k = key then c else n k) ∧
      Keeps t { t with hash := t.hash.setValue key { kv with refcount := c } } := by
  have hget (k : ℕ) : (t.hash.setValue key { kv with refcount := c }).getValue k =
      if k = key then some { kv with refcount := c } else t.hash.getValue k := HashTable.getValue_setValue
  refine ⟨⟨fun k => ?_, fun k kv' hk => ?_, fun k => ?_, h.room⟩, fun k kv' hk => ?_⟩
  · rw [hget]
    by_cases hk : k = key
    · rw [if_pos hk, if_pos hk]
      rfl
    · rw [if_neg hk, if_neg hk, h.count]
  · rw [hget] at hk
    split_ifs at hk
    · cases hk
      exact hc
    · exact h.pos k kv' hk
  · rw [hget]
    show t.bitmap.isSetBit k = _
    rw [h.bit]
    by_cases hk : k = key
    · rw [if_pos hk, hk, hkv]
      rfl
    · rw [if_neg hk]
  · rw [hget] at hk
    by_cases hkk : k = key
    · rw [if_pos hkk, Option.some.injEq] at hk
      subst hk
      exact ⟨kv, hkk ▸ hkv, rfl⟩
    · rw [if_neg hkk] at hk
      exact ⟨kv', hk, rfl⟩

theorem Books.congr {n' : ℕ → ℕ} (h : Books t n) (hn : ∀ k, n k = n' k) : Books t n' := (funext hn : n = n') ▸ h

theorem Books.retain (h : Books t n) (hkv : t.hash.getValue key = some kv) :
    Books (t.retain key kv) (fun k => if k = key then n k + 1 else n k) ∧ Keeps t (t.retain key kv) := by
  obtain ⟨hbooks, hkeeps⟩ := h.recount hkv (Nat.succ_pos kv.refcount)
  refine ⟨hbooks.congr fun k => ?_, hkeeps⟩
  by_cases hk : k = key
  · rw [if_pos hk, if_pos hk, hk, h.refcount hkv]
  · rw [if_neg hk, if_neg hk]

theorem Books.release (h : Books t n) (hkv : t.hash.getValue key = some kv) :
    Books (t.release key kv) (fun k => if k = key then n k - 1 else n k) ∧ Keeps t (t.release key kv) := by
  have hcount := h.refcount hkv
  rw [Keyvals.release]
  by_cases hlast : kv.refcount - 1 = 0
  · rw [if_pos hlast]
    have hget (k : ℕ) : (t.destruct key).hash.getValue k = if k = key then none else t.hash.getValue k :=
      HashTable.getValue_removeValue
    refine ⟨⟨fun k => ?_, fun k kv' hk => ?_, fun k => ?_, ?_⟩, fun k kv' hk => ?_⟩
    · rw [hget]
      by_cases hk : k = key
      · rw [if_pos hk, if_pos hk, hk, ← hcount, hlast]
        rfl
      · rw [if_neg hk, if_neg hk, h.count]
    · rw [hget] at hk
      split_ifs at hk
      exact h.pos k kv' hk
    · rw [hget, Bool.eq_iff_iff]
      show (t.bitmap.ompiClearBit key).isSetBit k = true ↔ _
      rw [Bitmap.isSetBit_ompiClearBit, h.bit]
      by_cases hk : k = key
      · simp [hk]
      · simp [hk]
    · show 0 < (t.bitmap.ompiClearBit key).length
      rw [Bitmap.length_ompiClearBit]
      exact h.room
    · rw [hget] at hk
      split_ifs at hk
      exact ⟨kv', hk, rfl⟩
  · rw [if_neg hlast]
    obtain ⟨hbooks, hkeeps⟩ := h.recount hkv (Nat.pos_of_ne_zero hlast)
    refine ⟨hbooks.congr fun k => ?_, hkeeps⟩
    by_cases hk : k = key
    · rw [if_pos hk, if_pos hk, hk, hcount]
    · rw [if_neg hk, if_neg hk]

theorem Books.createKeyval {predefined : Bool} (h : Books t n) (hcreate : t.createKeyval type predefined = some (key, t')) :
    n key = 0 ∧ Books t' (fun k => if k = key then 1 else n k) ∧
      ∀ k, k ≠ key → t'.hash.getValue k = t.hash.getValue k := by
  rw [Keyvals.createKeyval, map_eq_some_iff] at hcreate
  obtain ⟨⟨position, bitmap⟩, hfind, heq⟩ := hcreate
  obtain ⟨rfl, rfl⟩ := Prod.mk.inj heq
  obtain ⟨hroom, hunset, hbits⟩ := Bitmap.findAndSetFirstUnsetBit_spec h.room hfind
  have hnone : t.hash.getValue position = none := by
    rw [h.bit] at hunset
    simpa using hunset
  have hget (k : ℕ) : (t.hash.setValue position ⟨type, predefined, 1⟩).getValue k =
      if k = position then some ⟨type, predefined, 1⟩ else t.hash.getValue k := HashTable.getValue_setValue
  refine ⟨?_, ⟨fun k => ?_, fun k kv' hk => ?_, fun k => ?_, hroom⟩, fun k hk => ?_⟩
  · rw [← h.count, hnone]
    rfl
  · rw [hget]
    by_cases hk : k = position
    · rw [if_pos hk, if_pos hk]
      rfl
    · rw [if_neg hk, if_neg hk, h.count]
  · rw [hget] at hk
    split_ifs at hk
    · cases hk
      exact one_pos
    · exact h.pos k kv' hk
  · rw [hget, Bool.eq_iff_iff, hbits, h.bit]
    by_cases hk : k = position
    · simp [hk]
    · simp [hk]
  · rw [hget, if_neg hk]

end Keyvals

structure Owns (t : Keyvals) (m : ℕ → ℕ) (type : AttrType) (attrHash : Option (HashTable ℕ)) : Prop where
  books : Books t fun key => m key + held attrHash key
  typed : ∀ key, holds attrHash key = true → Typed t type key

section Object
variable {t : Keyvals} {m : ℕ → ℕ} {type : AttrType} {attrHash : Option (HashTable ℕ)} {attrs : HashTable ℕ} {key : ℕ} {kv : Keyval}
  {predefined : Bool}

@[simp] theorem holds_none : holds none key = false := rfl

@[simp] theorem holds_some : holds (some attrs) key = (attrs.getValue key).isSome := rfl

theorem held_eq_one (h : holds attrHash key = true) : held attrHash key = 1 := if_pos h

theorem held_eq_zero (h : holds attrHash key = false) : held attrHash key = 0 := by
  rw [held, h]
  rfl

theorem held_congr {attrHash' : Option (HashTable ℕ)} {k : ℕ} (h : holds attrHash k = holds attrHash' k) :
    held attrHash k = held attrHash' k := by
  rw [held, held, h]

theorem find_some (h : t.find type key predefined = some kv) : t.hash.getValue key = some kv ∧ kv.attrType = type := by
  rw [Keyvals.find, filter_eq_some_iff] at h
  exact ⟨h.1, (of_decide_eq_true h.2).1⟩

theorem Typed.find (h : Typed t type key) : ∃ kv, t.find type key true = some kv := by
  obtain ⟨kv, hkv, htype⟩ := h
  refine ⟨kv, ?_⟩
  rw [Keyvals.find, hkv, filter_some, if_pos]
  simpa using htype

theorem Owns.retain (h : Owns t m type attrHash) (hkv : t.find type key predefined = some kv)
    {attrHash' : Option (HashTable ℕ)} (hnot : holds attrHash key = false) (hholds : ∀ k, holds attrHash' k = (k == key || holds attrHash k)) :
    Owns (t.retain key kv) m type attrHash' ∧ Keeps t (t.retain key kv) := by
  obtain ⟨hget, htype⟩ := find_some hkv
  obtain ⟨hbooks, hkeeps⟩ := h.books.retain hget
  have hbooks' : Books (t.retain key kv) fun k => m k + held attrHash' k := by
    refine hbooks.congr fun k => ?_
    by_cases hk : k = key
    · rw [if_pos hk, hk, held_eq_zero hnot, held_eq_one (by rw [hholds]; simp)]
    · have hsame : holds attrHash k = holds attrHash' k := by
        rw [hholds]
        simp [hk]
      rw [if_neg hk, held_congr hsame]
  refine ⟨⟨hbooks', fun k hk => ?_⟩, hkeeps⟩
  have htyped : Typed t type k := by
    rw [hholds, Bool.or_eq_true, beq_iff_eq] at hk
    rcases hk with rfl | hk
    · exact ⟨kv, hget, htype⟩
    · exact h.typed k hk
  exact htyped.keep hkeeps hbooks' (by rw [held_eq_one hk]; omega)

theorem Owns.release (h : Owns t m type attrHash) (hkv : t.find type key predefined = some kv)
    {attrHash' : Option (HashTable ℕ)} (hhold : holds attrHash key = true) (hholds : ∀ k, holds attrHash' k = (k != key && holds attrHash k)) :
    Owns (t.release key kv) m type attrHash' ∧ Keeps t (t.release key kv) := by
  obtain ⟨hget, htype⟩ := find_some hkv
  obtain ⟨hbooks, hkeeps⟩ := h.books.release hget
  have hbooks' : Books (t.release key kv) fun k => m k + held attrHash' k := by
    refine hbooks.congr fun k => ?_
    by_cases hk : k = key
    · rw [if_pos hk, hk, held_eq_one hhold, held_eq_zero (by rw [hholds]; simp)]
      omega
    · have hsame : holds attrHash k = holds attrHash' k := by
        rw [hholds]
        simp [hk]
      rw [if_neg hk, held_congr hsame]
  refine ⟨⟨hbooks', fun k hk => ?_⟩, hkeeps⟩
  have htyped : Typed t type k := h.typed k (by
    rw [hholds, Bool.and_eq_true] at hk
    exact hk.2)
  exact htyped.keep hkeeps hbooks' (by rw [held_eq_one hk]; omega)

theorem Owns.congr {attrHash' : Option (HashTable ℕ)} (h : Owns t m type attrHash)
    (hholds : ∀ k, holds attrHash' k = holds attrHash k) : Owns t m type attrHash' :=
  ⟨h.books.congr fun k => by rw [held_congr (hholds k)], fun k hk => h.typed k (hholds k ▸ hk)⟩

theorem Owns.setValue (h : Owns t m type attrHash) (key value : ℕ) (predefined deleted : Bool) :
    Owns (t.setValue type attrHash key value predefined deleted).1 m type (t.setValue type attrHash key value predefined deleted).2.1 ∧
      Keeps t (t.setValue type attrHash key value predefined deleted).1 ∧
      ((t.setValue type attrHash key value predefined deleted).2.2 = .callback →
        t.setValue type attrHash key value predefined deleted = (t, attrHash, .callback)) := by
  rw [Keyvals.setValue]
  cases hkv : t.find type key predefined with
  | none => exact ⟨h, Keeps.refl t, fun hret => absurd hret (by simp)⟩
  | some kv =>
    have hattrs (k : ℕ) : holds attrHash k = ((attrHash.getD .empty).getValue k).isSome := by
      cases attrHash <;> rfl
    have hset (k : ℕ) : holds (some ((attrHash.getD .empty).setValue key value)) k = (k == key || holds attrHash k) := by
      rw [holds_some, HashTable.getValue_setValue, hattrs]
      by_cases hk : k = key <;> simp [hk]
    cases hold : (attrHash.getD .empty).getValue key with
    | none =>
      have hnot : holds attrHash key = false := by rw [hattrs, hold]; rfl
      obtain ⟨howns, hkeeps⟩ := h.retain hkv hnot hset
      simp only [hold]
      exact ⟨howns, hkeeps, fun hret => absurd hret (by simp)⟩
    | some old =>
      have hyes : holds attrHash key = true := by rw [hattrs, hold]; rfl
      simp only [hold]
      cases deleted with
      | false =>
        refine ⟨h.congr fun k => (hattrs k).symm, Keeps.refl t, fun _ => ?_⟩
        cases attrHash with
        | none => simp at hyes
        | some attrs => rfl
      | true =>
        refine ⟨h.congr fun k => ?_, Keeps.refl t, fun hret => absurd hret (by simp)⟩
        refine (hset k).trans ?_
        by_cases hk : k = key
        · simp [hk, hyes]
        · simp [hk]

theorem Owns.delete (h : Owns t m type attrHash) (key : ℕ) (predefined deleted : Bool) :
    Owns (t.delete type attrHash key predefined deleted).1 m type (t.delete type attrHash key predefined deleted).2.1 ∧
      Keeps t (t.delete type attrHash key predefined deleted).1 ∧
      ((t.delete type attrHash key predefined deleted).2.2 = .callback →
        t.delete type attrHash key predefined deleted = (t, attrHash, .callback)) := by
  rw [Keyvals.delete]
  cases hkv : t.find type key predefined with
  | none => exact ⟨h, Keeps.refl t, fun hret => absurd hret (by simp)⟩
  | some kv =>
    cases attrHash with
    | none => exact ⟨h, Keeps.refl t, fun hret => absurd hret (by simp)⟩
    | some attrs =>
      cases hold : attrs.getValue key with
      | none =>
        simp only [hold]
        exact ⟨h, Keeps.refl t, fun hret => absurd hret (by simp)⟩
      | some old =>
        simp only [hold]
        cases deleted with
        | false => exact ⟨h, Keeps.refl t, fun _ => rfl⟩
        | true =>
          have hremove (k : ℕ) : holds (some (attrs.removeValue key)) k = (k != key && holds (some attrs) k) := by
            rw [holds_some, HashTable.getValue_removeValue]
            by_cases hk : k = key <;> simp [hk]
          obtain ⟨howns, hkeeps⟩ := h.release hkv (by rw [holds_some, hold]; rfl) hremove
          exact ⟨howns, hkeeps, fun hret => absurd hret (by simp)⟩

theorem Owns.delete_held (h : Owns t m type attrHash) (hhold : holds attrHash key = true) (deleted : Bool) :
    if deleted then (t.delete type attrHash key true deleted).2.2 = .success ∧
        ∀ k, holds (t.delete type attrHash key true deleted).2.1 k = (k != key && holds attrHash k)
      else t.delete type attrHash key true deleted = (t, attrHash, .callback) := by
  obtain ⟨kv, hkv⟩ := (h.typed key hhold).find
  rw [Keyvals.delete, hkv]
  cases attrHash with
  | none => simp at hhold
  | some attrs =>
    obtain ⟨old, hold⟩ := isSome_iff_exists.1 hhold
    simp only [hold]
    cases deleted with
    | false => rfl
    | true =>
      refine ⟨rfl, fun k => ?_⟩
      show holds (some (attrs.removeValue key)) k = _
      rw [holds_some, HashTable.getValue_removeValue]
      by_cases hk : k = key <;> simp [hk]

theorem Owns.deleteLoop (deleted : ℕ → Bool) {keys : List ℕ} (hnodup : keys.Nodup) {t : Keyvals} {attrHash : Option (HashTable ℕ)}
    (h : Owns t m type attrHash) (hhold : ∀ key ∈ keys, holds attrHash key = true) :
    Owns (Keyvals.deleteLoop type deleted keys t attrHash).1 m type (Keyvals.deleteLoop type deleted keys t attrHash).2.1 ∧
      Keeps t (Keyvals.deleteLoop type deleted keys t attrHash).1 ∧
      if ∀ key ∈ keys, deleted key = true then (Keyvals.deleteLoop type deleted keys t attrHash).2.2 = .success ∧
          ∀ k, holds (Keyvals.deleteLoop type deleted keys t attrHash).2.1 k = (k ∉ keys && holds attrHash k)
        else (Keyvals.deleteLoop type deleted keys t attrHash).2.2 = .callback ∧
          ∃ key ∈ keys, holds (Keyvals.deleteLoop type deleted keys t attrHash).2.1 key = true := by
  induction keys generalizing t attrHash with
  | nil => exact ⟨h, Keeps.refl t, by simp [Keyvals.deleteLoop]⟩
  | cons key keys ih =>
    obtain ⟨hnotin, hnodup⟩ := nodup_cons.1 hnodup
    have hkey := h.delete_held (hhold key (mem_cons_self ..)) (deleted key)
    obtain ⟨howns, hkeeps, -⟩ := h.delete key true (deleted key)
    rw [Keyvals.deleteLoop]
    generalize t.delete type attrHash key true (deleted key) = r at *
    cases hdeleted : deleted key with
    | false =>
      rw [hdeleted] at hkey
      obtain rfl : r = (t, attrHash, .callback) := hkey
      refine ⟨h, Keeps.refl t, ?_⟩
      rw [if_neg fun hall => absurd (hall key (mem_cons_self ..)) (by simp [hdeleted])]
      exact ⟨rfl, key, mem_cons_self .., hhold key (mem_cons_self ..)⟩
    | true =>
      rw [hdeleted] at hkey
      obtain ⟨t', attrHash', ret⟩ := r
      obtain ⟨rfl, hholds⟩ : ret = .success ∧ ∀ k, holds attrHash' k = (k != key && holds attrHash k) := hkey
      have hhold' : ∀ k ∈ keys, holds attrHash' k = true := fun k hk => by
        have hne : k ≠ key := fun heq => hnotin (heq ▸ hk)
        simp [hholds, hne, hhold k (mem_cons_of_mem _ hk)]
      obtain ⟨howns', hkeeps', hrest⟩ := ih hnodup howns hhold'
      refine ⟨howns', hkeeps.trans hkeeps', ?_⟩
      by_cases hall : ∀ k ∈ keys, deleted k = true
      · rw [if_pos hall] at hrest
        rw [if_pos (by simpa [hdeleted] using hall)]
        refine ⟨hrest.1, fun k => ?_⟩
        rw [hrest.2, hholds]
        by_cases hk : k = key
        · simp [hk]
        · have hne : (k != key) = true := by simpa using hk
          simp [hk, hne]
      · rw [if_neg hall] at hrest
        rw [if_neg (by simpa [hdeleted] using hall)]
        obtain ⟨hret, k, hk, hholdk⟩ := hrest
        exact ⟨hret, k, mem_cons_of_mem _ hk, hholdk⟩

theorem Owns.deleteAll (h : Owns t m type attrHash) (deleted : ℕ → Bool) :
    Owns (t.deleteAll type attrHash deleted).1 m type (t.deleteAll type attrHash deleted).2.1 ∧
      Keeps t (t.deleteAll type attrHash deleted).1 ∧
      ((∀ key, holds attrHash key = true → deleted key = true) →
        (t.deleteAll type attrHash deleted).2.2 = .success ∧ ∀ k, holds (t.deleteAll type attrHash deleted).2.1 k = false) ∧
      ((¬∀ key, holds attrHash key = true → deleted key = true) →
        (t.deleteAll type attrHash deleted).2.2 = .callback ∧ ∃ k, holds (t.deleteAll type attrHash deleted).2.1 k = true) := by
  cases attrHash with
  | none => exact ⟨h, Keeps.refl t, fun _ => ⟨rfl, fun _ => rfl⟩, fun hnot => absurd (fun key hkey => by simp at hkey) hnot⟩
  | some attrs =>
    rw [Keyvals.deleteAll]
    have hmem (key : ℕ) : key ∈ attrs.keys attrHashSize ↔ holds (some attrs) key = true := HashTable.mem_keys (by decide)
    obtain ⟨howns, hkeeps, hrest⟩ := h.deleteLoop deleted (attrs.keys_nodup attrHashSize) fun key hkey => (hmem key).1 hkey
    refine ⟨howns, hkeeps, fun hall => ?_, fun hnot => ?_⟩
    · rw [if_pos fun key hkey => hall key ((hmem key).1 hkey)] at hrest
      refine ⟨hrest.1, fun k => (hrest.2 k).trans ?_⟩
      by_cases hk : k ∈ attrs.keys attrHashSize
      · simp [hk]
      · have hnone := (hmem k).not.1 hk
        rw [Bool.not_eq_true] at hnone
        rw [hnone, Bool.and_false]
    · rw [if_neg fun hall => hnot fun key hkey => hall key ((hmem key).2 hkey)] at hrest
      obtain ⟨hret, k, -, hk⟩ := hrest
      exact ⟨hret, k, hk⟩

theorem Owns.copyLoop (copied : ℕ → Option (Option ℕ)) {keys : List ℕ} (hnodup : keys.Nodup) {t : Keyvals}
    {attrHash : Option (HashTable ℕ)} (h : Owns t m type attrHash) (hfresh : ∀ key ∈ keys, holds attrHash key = false)
    (hthere : ∀ key ∈ keys, 0 < m key ∧ Typed t type key) :
    Owns (Keyvals.copyLoop type copied keys t attrHash).1 m type (Keyvals.copyLoop type copied keys t attrHash).2.1 ∧
      Keeps t (Keyvals.copyLoop type copied keys t attrHash).1 ∧
      match World.copiedBefore copied keys with
      | none => (Keyvals.copyLoop type copied keys t attrHash).2.2 = .success
      | some before => (Keyvals.copyLoop type copied keys t attrHash).2.2 = .callback ∧
          ∀ k, holds (Keyvals.copyLoop type copied keys t attrHash).2.1 k = (k ∈ before || holds attrHash k) := by
  induction keys generalizing t attrHash with
  | nil => exact ⟨h, Keeps.refl t, rfl⟩
  | cons key keys ih =>
    obtain ⟨hnotin, hnodup⟩ := nodup_cons.1 hnodup
    obtain ⟨hpos, htyped⟩ := hthere key (mem_cons_self ..)
    obtain ⟨kv₀, hkv₀, -⟩ := id htyped
    rw [Keyvals.copyLoop, hkv₀, World.copiedBefore]
    rcases hcopied : copied key with _ | _ | value
    · exact ⟨h, Keeps.refl t, rfl, fun k => by simp⟩
    · exact ih hnodup h (fun k hk => hfresh k (mem_cons_of_mem _ hk)) fun k hk => hthere k (mem_cons_of_mem _ hk)
    · obtain ⟨kv, hkv⟩ := htyped.find
      have hnot : holds attrHash key = false := hfresh key (mem_cons_self ..)
      have hattrs (k : ℕ) : holds attrHash k = ((attrHash.getD .empty).getValue k).isSome := by cases attrHash <;> rfl
      have hset (k : ℕ) : holds (some ((attrHash.getD .empty).setValue key value)) k = (k == key || holds attrHash k) := by
        rw [holds_some, HashTable.getValue_setValue, hattrs]
        by_cases hk : k = key <;> simp [hk]
      obtain ⟨howns, hkeeps⟩ := h.retain hkv hnot hset
      have hvalue : t.setValue type attrHash key value true true =
          (t.retain key kv, some ((attrHash.getD .empty).setValue key value), .success) := by
        rw [hattrs] at hnot
        rw [Keyvals.setValue, hkv]
        simp only [isSome_eq_false_iff, isNone_iff_eq_none] at hnot
        simp only [hnot]
      have hfresh' : ∀ k ∈ keys, holds (some ((attrHash.getD .empty).setValue key value)) k = false := fun k hk => by
        have hne : k ≠ key := fun heq => hnotin (heq ▸ hk)
        simp [hset, hne, hfresh k (mem_cons_of_mem _ hk)]
      have hthere' : ∀ k ∈ keys, 0 < m k ∧ Typed (t.retain key kv) type k := fun k hk => by
        obtain ⟨hposk, htypedk⟩ := hthere k (mem_cons_of_mem _ hk)
        exact ⟨hposk, htypedk.keep hkeeps howns.books (by omega)⟩
      obtain ⟨howns', hkeeps', hrest⟩ := ih hnodup howns hfresh' hthere'
      simp only [hvalue]
      refine ⟨howns', hkeeps.trans hkeeps', ?_⟩
      cases hbefore : World.copiedBefore copied keys with
      | none =>
        rw [hbefore] at hrest
        exact hrest
      | some before =>
        rw [hbefore] at hrest
        refine ⟨hrest.1, fun k => ?_⟩
        refine (hrest.2 k).trans ?_
        rw [hset]
        by_cases hk : k = key
        · simp [hk]
        · have hne : (k == key) = false := by simpa using hk
          simp [hk, hne]

theorem owns_empty {n : ℕ → ℕ} (h : Books t n) : Owns t n type (some .empty) :=
  ⟨h.congr fun _ => rfl, fun _ hk => absurd hk (by simp)⟩

end Object

namespace World

variable {w : World} {i : ℕ} {o : Obj}

theorem obj_eq_some : w.obj i = some o ↔ w.objects[i]? = some (some o) := by
  rw [obj, join_eq_some_iff]

theorem holders_set (hobj : w.obj i = some o) (o' : Option Obj) (t : Keyvals) (key : ℕ) :
    ({ w with keyvals := t, objects := w.objects.set i o' } : World).holders key + held o.attrHash key =
      w.holders key + o'.elim 0 fun o' => held o'.attrHash key := by
  obtain ⟨hi, hget⟩ := List.getElem?_eq_some_iff.1 (obj_eq_some.1 hobj)
  rw [holders, holders, countP_set hi, hget]
  have hcount : (if holds o.attrHash key then 1 else 0) ≤ w.objects.countP fun o => o.any fun o => holds o.attrHash key := by
    by_cases hhold : holds o.attrHash key = true
    · rw [if_pos hhold]
      exact countP_pos_iff.2 ⟨some o, mem_of_getElem? (obj_eq_some.1 hobj), hhold⟩
    · rw [if_neg hhold]
      exact Nat.zero_le _
  have ho' : (if (o'.any fun o => holds o.attrHash key) = true then 1 else 0) = o'.elim 0 fun o' => held o'.attrHash key := by
    cases o' <;> rfl
  rw [ho', any_some, held]
  omega

theorem holders_pos (hobj : w.obj i = some o) {key : ℕ} (hhold : holds o.attrHash key = true) : 0 < w.holders key :=
  countP_pos_iff.2 ⟨some o, mem_of_getElem? (obj_eq_some.1 hobj), hhold⟩

def others (w : World) (o : Obj) (key : ℕ) : ℕ := (if w.live key then 1 else 0) + (w.holders key - held o.attrHash key)

theorem Counted.books (h : Counted w) : Books w.keyvals fun key => (if w.live key then 1 else 0) + w.holders key := by
  refine ⟨fun key => ?_, fun key kv hkv => (h.count key kv hkv).1, h.reusable, h.room⟩
  cases hget : w.keyvals.hash.getValue key with
  | none =>
    obtain ⟨hlive, hholders⟩ := h.released key hget
    simp [hlive, hholders]
  | some kv => exact (h.count key kv hget).2

theorem counted_of_books (h : Books w.keyvals fun key => (if w.live key then 1 else 0) + w.holders key)
    (hvalid : ∀ i o key, w.obj i = some o → holds o.attrHash key = true → Typed w.keyvals o.type key) : Counted w := by
  refine ⟨fun key kv hkv => ⟨h.pos key kv hkv, h.refcount hkv⟩, fun key hnone => ?_, hvalid, h.bit, h.room⟩
  have hcount := h.count key
  rw [hnone, elim_none] at hcount
  refine ⟨?_, by omega⟩
  by_contra hlive
  rw [Bool.not_eq_false] at hlive
  rw [hlive, if_pos rfl] at hcount
  omega

theorem Counted.owns (h : Counted w) (hobj : w.obj i = some o) : Owns w.keyvals (w.others o) o.type o.attrHash := by
  refine ⟨h.books.congr fun key => ?_, fun key hkey => h.valid i o key hobj hkey⟩
  have := holders_set hobj none w.keyvals key
  rw [elim_none] at this
  rw [others]
  omega

theorem Counted.replace (h : Counted w) (hobj : w.obj i = some o) {t' : Keyvals} {attrHash' : Option (HashTable ℕ)}
    (howns : Owns t' (w.others o) o.type attrHash') (hkeeps : Keeps w.keyvals t') {o' : Option Obj}
    (ho' : o' = some ⟨o.type, attrHash'⟩ ∨ o' = none ∧ ∀ k, holds attrHash' k = false) :
    Counted { w with keyvals := t', objects := w.objects.set i o' } := by
  have hheld (key : ℕ) : (o'.elim 0 fun o' => held o'.attrHash key) = held attrHash' key := by
    rcases ho' with rfl | ⟨rfl, hnone⟩
    · rfl
    · exact (held_eq_zero (hnone key)).symm
  have hbooks : Books t' fun key => (if w.live key then 1 else 0) +
      ({ w with keyvals := t', objects := w.objects.set i o' } : World).holders key := by
    refine howns.books.congr fun key => ?_
    have hset := holders_set hobj o' t' key
    have hnone := holders_set hobj none t' key
    rw [hheld] at hset
    rw [elim_none] at hnone
    rw [others]
    omega
  refine counted_of_books hbooks fun j oj key hj hhold => ?_
  have hpos := holders_pos hj hhold
  rw [obj_eq_some, getElem?_set] at hj
  by_cases hij : i = j
  · rw [if_pos hij] at hj
    split_ifs at hj
    rcases ho' with rfl | ⟨rfl, -⟩
    · obtain rfl := Option.some.inj (Option.some.inj hj)
      exact howns.typed key hhold
    · simp at hj
  · rw [if_neg hij] at hj
    exact (h.valid j oj key (obj_eq_some.2 hj) hhold).keep hkeeps hbooks (Nat.lt_add_left _ hpos)

theorem not_counted_of_held (hobj : w.obj i = some o) {t' : Keyvals} {attrHash' : Option (HashTable ℕ)}
    (howns : Owns t' (w.others o) o.type attrHash') {k : ℕ} (hk : holds attrHash' k = true) :
    ¬Counted { w with keyvals := t', objects := w.objects.set i none } := by
  intro h
  have hcount := h.books.count k
  rw [howns.books.count k] at hcount
  have hset := holders_set hobj none t' k
  rw [elim_none] at hset
  rw [held_eq_one hk, others] at hcount
  dsimp only at hcount
  omega

theorem Undisturbed.refl (w : World) : Undisturbed w w := ⟨rfl, fun _ => rfl⟩

theorem set_objects_self (hobj : w.obj i = some o) : w.objects.set i (some o) = w.objects := by
  obtain ⟨hi, hget⟩ := List.getElem?_eq_some_iff.1 (obj_eq_some.1 hobj)
  rw [← hget, set_getElem_self]

section

variable (h : Counted w)

include h

theorem Counted.createKeyval (type : AttrType) (predefined : Bool) : Counted (w.createKeyval type predefined).1 := by
  rw [World.createKeyval]
  cases hcreate : w.keyvals.createKeyval type predefined with
  | none => exact h
  | some created =>
    obtain ⟨key, keyvals⟩ := created
    obtain ⟨hzero, hbooks, hsame⟩ := h.books.createKeyval hcreate
    refine counted_of_books (hbooks.congr fun k => ?_) fun j oj k hj hhold => ?_
    · show (if k = key then 1 else _) = (if (if k = key then true else w.live k) = true then 1 else 0) + w.holders k
      by_cases hk : k = key
      · subst hk
        rw [if_pos rfl, if_pos rfl, if_pos rfl]
        omega
      · rw [if_neg hk, if_neg hk]
    · have hpos : 0 < w.holders k := holders_pos hj hhold
      have hne : k ≠ key := by
        rintro rfl
        omega
      obtain ⟨kv, hkv, htype⟩ := h.valid j oj k hj hhold
      exact ⟨kv, (hsame k hne).trans hkv, htype⟩

theorem Counted.freeKeyval (type : AttrType) (key : ℕ) (predefined : Bool) :
    Counted (w.freeKeyval type key predefined).1 ↔
      ((w.keyvals.find type key predefined).isSome = true → w.live key = true) := by
  rw [World.freeKeyval, Keyvals.freeKeyval]
  cases hfind : w.keyvals.find type key predefined with
  | none => simpa using h
  | some kv =>
    obtain ⟨hbooks, hkeeps⟩ := h.books.release (find_some hfind).1
    simp only [isSome_some, true_imp_iff]
    constructor
    · intro hcounted
      by_contra hlive
      have hcount := hcounted.books.count key
      rw [hbooks.count key] at hcount
      have hpos := h.books.pos_iff.2 (isSome_iff_exists.2 ⟨kv, (find_some hfind).1⟩)
      dsimp only at hcount hpos
      simp only [if_true, hlive, Bool.false_eq_true, if_false, zero_add] at hcount hpos
      change w.holders key - 1 = w.holders key at hcount
      omega
    · intro hlive
      have hbooks' : Books (w.keyvals.release key kv) fun k => (if (if k = key then false else w.live k) = true then 1 else 0) + w.holders k := by
        refine hbooks.congr fun k => ?_
        by_cases hk : k = key
        · subst hk
          simp [hlive]
        · simp [hk]
      refine counted_of_books hbooks' fun j oj k hj hhold => ?_
      have hpos : 0 < w.holders k := holders_pos hj hhold
      exact (h.valid j oj k hj hhold).keep hkeeps hbooks' (Nat.lt_add_left _ hpos)

theorem Counted.create (type : AttrType) :
    Counted { w with objects := w.objects ++ [some ⟨type, none⟩] } := by
  have hholders (key : ℕ) : ({ w with objects := w.objects ++ [some ⟨type, none⟩] } : World).holders key = w.holders key := by
    rw [holders, holders, countP_append]
    simp
  refine counted_of_books (h.books.congr fun key => by rw [hholders]) fun j oj key hj hhold => ?_
  rw [obj_eq_some, getElem?_append] at hj
  split_ifs at hj with hlt
  · exact h.valid j oj key (obj_eq_some.2 hj) hhold
  · rw [getElem?_singleton] at hj
    split_ifs at hj
    obtain rfl := Option.some.inj (Option.some.inj hj)
    simp at hhold

theorem Counted.set (i key value : ℕ) (predefined deleted : Bool) :
    Counted (w.set i key value predefined deleted).1 ∧ ((w.set i key value predefined deleted).2 = .callback →
      Undisturbed w (w.set i key value predefined deleted).1) := by
  rw [World.set]
  cases hobj : w.obj i with
  | none => exact ⟨h, fun _ => Undisturbed.refl w⟩
  | some o =>
    obtain ⟨howns, hkeeps, hcallback⟩ := (h.owns hobj).setValue key value predefined deleted
    refine ⟨h.replace hobj howns hkeeps (Or.inl rfl), fun hret => ?_⟩
    dsimp only at hret ⊢
    rw [hcallback hret]
    exact ⟨set_objects_self hobj, fun _ => rfl⟩

theorem Counted.delete (i key : ℕ) (predefined deleted : Bool) :
    Counted (w.delete i key predefined deleted).1 ∧ ((w.delete i key predefined deleted).2 = .callback →
      Undisturbed w (w.delete i key predefined deleted).1) := by
  rw [World.delete]
  cases hobj : w.obj i with
  | none => exact ⟨h, fun _ => Undisturbed.refl w⟩
  | some o =>
    obtain ⟨howns, hkeeps, hcallback⟩ := (h.owns hobj).delete key predefined deleted
    refine ⟨h.replace hobj howns hkeeps (Or.inl rfl), fun hret => ?_⟩
    dsimp only at hret ⊢
    rw [hcallback hret]
    exact ⟨set_objects_self hobj, fun _ => rfl⟩

theorem Counted.free (i : ℕ) (deleted : ℕ → Bool) :
    Counted (w.free i deleted).1 ↔ ∀ type attrs, w.obj i = some ⟨type, some attrs⟩ → type ≠ .commAttr →
      ∀ key ∈ attrs.keys attrHashSize, deleted key = true := by
  rw [World.free]
  cases hobj : w.obj i with
  | none => simpa using h
  | some o =>
    obtain ⟨howns, hkeeps, hall, hsome⟩ := (h.owns hobj).deleteAll deleted
    obtain ⟨type, attrHash⟩ := o
    dsimp only at howns hkeeps hall hsome ⊢
    have hiff : (∀ type' attrs, some (Obj.mk type attrHash) = some ⟨type', some attrs⟩ → type' ≠ .commAttr →
        ∀ key ∈ attrs.keys attrHashSize, deleted key = true) ↔
        (type ≠ .commAttr → ∀ key, holds attrHash key = true → deleted key = true) := by
      constructor
      · intro hcare htype key hkey
        cases attrHash with
        | none => simp at hkey
        | some attrs => exact hcare type attrs rfl htype key ((HashTable.mem_keys (by decide)).2 hkey)
      · rintro hcare type' attrs heq htype key hkey
        obtain ⟨rfl, rfl⟩ := Obj.mk.inj (Option.some.inj heq)
        exact hcare htype key ((HashTable.mem_keys (by decide)).1 hkey)
    rw [hiff]
    by_cases hdeleted : ∀ key, holds attrHash key = true → deleted key = true
    · obtain ⟨hret, hnone⟩ := hall hdeleted
      generalize w.keyvals.deleteAll type attrHash deleted = r at *
      obtain ⟨t', attrHash', ret⟩ := r
      obtain rfl : ret = .success := hret
      have hcounted := h.replace hobj howns hkeeps (Or.inr ⟨rfl, hnone⟩)
      exact iff_of_true (by cases type <;> exact hcounted) fun _ => hdeleted
    · obtain ⟨hret, k, hk⟩ := hsome hdeleted
      generalize w.keyvals.deleteAll type attrHash deleted = r at *
      obtain ⟨t', attrHash', ret⟩ := r
      obtain rfl : ret = .callback := hret
      cases type with
      | commAttr => exact iff_of_true (h.replace hobj howns hkeeps (Or.inl rfl)) fun hne => absurd rfl hne
      | typeAttr => exact iff_of_false (not_counted_of_held hobj howns hk) fun hcare => hdeleted (hcare (by decide))
      | winAttr => exact iff_of_false (not_counted_of_held hobj howns hk) fun hcare => hdeleted (hcare (by decide))

theorem Counted.undisturbed_iff {t' : Keyvals} {type : AttrType} {attrHash : Option (HashTable ℕ)}
    (howns : Owns t' (fun key => (if w.live key then 1 else 0) + w.holders key) type attrHash) (hkeeps : Keeps w.keyvals t') :
    (Counted { w with keyvals := t' } ∧ Undisturbed w { w with keyvals := t' }) ↔ ∀ k, holds attrHash k = false := by
  constructor
  · rintro ⟨hcounted, -⟩ k
    by_contra hk
    rw [Bool.not_eq_false] at hk
    have hcount := hcounted.books.count k
    rw [howns.books.count k, held_eq_one hk] at hcount
    exact Nat.succ_ne_self _ hcount
  · intro hnone
    have hbooks : Books t' fun key => (if w.live key then 1 else 0) + w.holders key :=
      howns.books.congr fun k => by rw [held_eq_zero (hnone k), add_zero]
    have hsame := hkeeps.getValue_eq h.books hbooks
    refine ⟨counted_of_books hbooks fun j oj key hj hhold => ?_, rfl, hsame⟩
    obtain ⟨kv, hkv, htype⟩ := h.valid j oj key hj hhold
    exact ⟨kv, (hsame key).trans hkv, htype⟩

theorem Counted.append {t' : Keyvals} {type : AttrType} {attrHash : Option (HashTable ℕ)}
    (howns : Owns t' (fun key => (if w.live key then 1 else 0) + w.holders key) type attrHash) (hkeeps : Keeps w.keyvals t') :
    Counted { w with keyvals := t', objects := w.objects ++ [some ⟨type, attrHash⟩] } := by
  have hholders (key : ℕ) : ({ w with keyvals := t', objects := w.objects ++ [some ⟨type, attrHash⟩] } : World).holders key =
      w.holders key + held attrHash key := by
    rw [holders, holders, countP_append, countP_singleton, held]
    rfl
  have hbooks : Books t' fun key => (if w.live key then 1 else 0) +
      ({ w with keyvals := t', objects := w.objects ++ [some ⟨type, attrHash⟩] } : World).holders key :=
    howns.books.congr fun key => by rw [hholders, add_assoc]
  refine counted_of_books hbooks fun j oj key hj hhold => ?_
  rw [obj_eq_some, getElem?_append] at hj
  split_ifs at hj with hlt
  · have hpos : 0 < w.holders key := holders_pos (obj_eq_some.2 hj) hhold
    exact (h.valid j oj key (obj_eq_some.2 hj) hhold).keep hkeeps hbooks (by rw [hholders]; omega)
  · rw [getElem?_singleton] at hj
    split_ifs at hj
    obtain rfl := Option.some.inj (Option.some.inj hj)
    exact howns.typed key hhold

end

theorem dup_some {type : AttrType} {attrs : HashTable ℕ} (hobj : w.obj i = some ⟨type, some attrs⟩) (htype : type ≠ .winAttr)
    (copied : ℕ → Option (Option ℕ)) (deleted : ℕ → Bool) :
    w.dup i copied deleted =
      match Keyvals.copyLoop type copied (attrs.keys attrHashSize) w.keyvals (some .empty) with
      | (keyvals, newHash, .success) => ({ w with keyvals, objects := w.objects ++ [some ⟨type, newHash⟩] }, .success)
      | (keyvals, newHash, ret) =>
        if type = .commAttr then ({ w with keyvals }, ret)
        else ({ w with keyvals := (keyvals.deleteAll type newHash deleted).1 }, ret) := by
  rw [World.dup, hobj]
  cases type with
  | winAttr => exact absurd rfl htype
  | commAttr => rfl
  | typeAttr => rfl

theorem Counted.dup (h : Counted w) (i : ℕ) (copied : ℕ → Option (Option ℕ)) (deleted : ℕ → Bool) :
    (Counted (w.dup i copied deleted).1 ∧ ((w.dup i copied deleted).2 = .callback → Undisturbed w (w.dup i copied deleted).1)) ↔
      ∀ type attrs keys, w.obj i = some ⟨type, some attrs⟩ → copiedBefore copied (attrs.keys attrHashSize) = some keys →
        type ≠ .winAttr → if type = .commAttr then keys = [] else ∀ key ∈ keys, deleted key = true := by
  rcases hobj : w.obj i with _ | ⟨type, attrHash⟩
  · rw [World.dup, hobj]
    exact iff_of_true ⟨h, fun _ => Undisturbed.refl w⟩ fun type attrs keys hnone => absurd hnone (by simp)
  rcases attrHash with _ | attrs
  · rw [World.dup, hobj]
    refine iff_of_true ?_ fun type' attrs' keys heq => absurd heq (by simp)
    cases type with
    | winAttr => exact ⟨h, fun _ => Undisturbed.refl w⟩
    | commAttr => exact ⟨h.create _, fun hret => absurd hret (by simp)⟩
    | typeAttr => exact ⟨h.create _, fun hret => absurd hret (by simp)⟩
  by_cases htype : type = .winAttr
  · rw [World.dup, hobj, htype]
    refine iff_of_true ⟨h, fun _ => Undisturbed.refl w⟩ fun type' attrs' keys heq _ hne => ?_
    exact absurd (Obj.mk.inj (Option.some.inj heq)).1.symm hne
  rw [dup_some hobj htype]
  have hmem (key : ℕ) : key ∈ attrs.keys attrHashSize ↔ (attrs.getValue key).isSome = true := HashTable.mem_keys (by decide)
  have hthere : ∀ key ∈ attrs.keys attrHashSize, 0 < (if w.live key then 1 else 0) + w.holders key ∧ Typed w.keyvals type key := by
    intro key hkey
    have hhold : holds (some attrs) key = true := (hmem key).1 hkey
    exact ⟨Nat.lt_add_left _ (holders_pos hobj hhold), h.valid i _ key hobj hhold⟩
  obtain ⟨howns, hkeeps, hrest⟩ := (owns_empty h.books).copyLoop copied (attrs.keys_nodup attrHashSize) (fun _ _ => rfl) hthere
  have hiff : (∀ type' attrs' keys, some (Obj.mk type (some attrs)) = some ⟨type', some attrs'⟩ →
      copiedBefore copied (attrs'.keys attrHashSize) = some keys → type' ≠ .winAttr →
      if type' = .commAttr then keys = [] else ∀ key ∈ keys, deleted key = true) ↔
      ∀ keys, copiedBefore copied (attrs.keys attrHashSize) = some keys → type ≠ .winAttr →
        if type = .commAttr then keys = [] else ∀ key ∈ keys, deleted key = true := by
    constructor
    · exact fun hcare keys => hcare type attrs keys rfl
    · rintro hcare type' attrs' keys heq
      obtain ⟨rfl, hattrs⟩ := Obj.mk.inj (Option.some.inj heq)
      cases hattrs
      exact hcare keys
  rw [hiff]
  generalize Keyvals.copyLoop type copied (attrs.keys attrHashSize) w.keyvals (some .empty) = r at *
  obtain ⟨t', newHash, ret⟩ := r
  cases hbefore : copiedBefore copied (attrs.keys attrHashSize) with
  | none =>
    rw [hbefore] at hrest
    obtain rfl : ret = .success := hrest
    exact iff_of_true ⟨h.append howns hkeeps, fun hret => absurd hret (by simp)⟩ (by simp)
  | some before =>
    rw [hbefore] at hrest
    obtain ⟨rfl, hholds⟩ : ret = .callback ∧ ∀ k, holds newHash k = (k ∈ before || holds (some .empty) k) := hrest
    have hholds' (k : ℕ) : holds newHash k = decide (k ∈ before) := by
      rw [hholds, holds_some, Class.HashTable.getValue_empty]
      simp
    cases type with
    | winAttr => exact absurd rfl htype
    | commAttr =>
      have hundisturbed := h.undisturbed_iff howns hkeeps
      have hempty : (∀ k, holds newHash k = false) ↔ before = [] := by
        simp only [hholds', decide_eq_false_iff_not]
        exact (eq_nil_iff_forall_not_mem).symm
      rw [hempty] at hundisturbed
      simpa using hundisturbed
    | typeAttr =>
      obtain ⟨howns', hkeeps', hall, hsome⟩ := howns.deleteAll deleted
      have hundisturbed := h.undisturbed_iff howns' (hkeeps.trans hkeeps')
      have hempty : (∀ k, holds (t'.deleteAll .typeAttr newHash deleted).2.1 k = false) ↔ ∀ key ∈ before, deleted key = true := by
        constructor
        · intro hnone key hkey
          by_contra hdel
          obtain ⟨-, k, hk⟩ := hsome fun hdeleted => hdel (hdeleted key (by rw [hholds']; exact decide_eq_true hkey))
          rw [hnone k] at hk
          contradiction
        · exact fun hdeleted => (hall fun key hkey => hdeleted key (by rw [hholds'] at hkey; exact of_decide_eq_true hkey)).2
      rw [hempty] at hundisturbed
      simpa using hundisturbed

theorem Counted.ok_iff (h : Counted w) (c : Call) : Ok w c ↔ Careful w c := by
  cases c with
  | createKeyval type predefined => exact iff_of_true ⟨h.createKeyval type predefined, fun hc => absurd hc (by simp [changes])⟩ trivial
  | freeKeyval type key predefined =>
    refine Iff.trans ?_ (h.freeKeyval type key predefined)
    exact and_iff_left fun hc => absurd hc (by simp [changes])
  | create type => exact iff_of_true ⟨h.create type, fun hc => absurd hc (by simp [changes])⟩ trivial
  | set i key value predefined deleted =>
    obtain ⟨hcounted, hsame⟩ := h.set i key value predefined deleted
    exact iff_of_true ⟨hcounted, fun _ => hsame⟩ trivial
  | delete i key predefined deleted =>
    obtain ⟨hcounted, hsame⟩ := h.delete i key predefined deleted
    exact iff_of_true ⟨hcounted, fun _ => hsame⟩ trivial
  | dup i copied deleted =>
    refine Iff.trans ?_ (h.dup i copied deleted)
    exact and_congr_right fun _ => ⟨fun himp => himp rfl, fun hret _ => hret⟩
  | free i deleted =>
    refine Iff.trans ?_ (h.free i deleted)
    exact and_iff_left fun hc => absurd hc (by simp [changes])

theorem counted_init : Counted init := by
  refine ⟨fun key kv hkv => ?_, fun key _ => ⟨rfl, rfl⟩, fun i o key hobj => ?_, fun key => ?_, ?_⟩
  · simp [init] at hkv
  · simp [init, obj] at hobj
  · exact Bitmap.isSetBit_init 32 key
  · exact Bitmap.length_init_pos (by decide)

/-- In a run, every state has its keyvals counted and every set, deletion and duplication that fails because of a callback
leaves attributes and counts alone, if and only if no call does what must not be done: free a keyval twice, free a window
or datatype with attributes that cannot be deleted, duplicate in vain what was copied in part. -/
theorem counted_iff (calls : List Call) :
    (∀ l c, l ++ [c] <+: calls → Ok (after l) c) ↔ ∀ l c, l ++ [c] <+: calls → Careful (after l) c := by
  refine calls_iff (P := fun l => Counted (after l)) counted_init (fun l c hl hcare => ?_) (fun l c hl => hl.ok_iff c) calls
  rw [after, foldl_append]
  exact ((hl.ok_iff c).2 hcare).1

/-- A communicator with two attributes, of which the second cannot be copied, is duplicated: the first keyval is counted once
too often from then on. -/
theorem not_counted_dup : ¬∀ (calls l : List Call) (c : Call), l ++ [c] <+: calls → Ok (after l) c := by
  intro h
  let calls : List Call := [.createKeyval .commAttr false, .createKeyval .commAttr false, .create .commAttr,
    .set 0 0 5 false true, .set 0 1 7 false true]
  let dup : Call := .dup 0 (fun key => if key = 0 then some (some 5) else none) fun _ => true
  obtain ⟨-, hsame⟩ := h (calls ++ [dup]) calls dup prefix_rfl
  have hkeyval := (hsame rfl rfl).2 0
  have hbefore : (after calls).keyvals.hash.getValue 0 = some ⟨.commAttr, false, 2⟩ := by decide
  have hafter : ((after calls).step dup).1.keyvals.hash.getValue 0 = some ⟨.commAttr, false, 3⟩ := by decide
  rw [hbefore, hafter] at hkeyval
  revert hkeyval
  decide

end World

end OpenMPI.Attribute
