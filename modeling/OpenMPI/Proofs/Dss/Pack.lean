import Mathlib.Tactic.Ring
import OpenMPI.Dss.Dss

/-!
# What a buffer holds

What was unpacked of a buffer and what is left to unpack, with the bounds on its pointers.  Room can always be made, and
what is held stays when it is.
-/

namespace OpenMPI.Dss

open OpenMPI.Lib List
open OpenMPI.Lib.Action

variable {P : Params}

theorem length_memcpy {mem bytes : List Byte} {off : ℕ} (h : off + bytes.length ≤ mem.length) :
    (memcpy mem off bytes).length = mem.length := by
  rw [memcpy, length_append, length_append, length_take, length_drop]
  omega

theorem take_memcpy (bytes : List Byte) {mem : List Byte} {off : ℕ} (h : off ≤ mem.length) :
    (memcpy mem off bytes).take (off + bytes.length) = mem.take off ++ bytes := by
  unfold memcpy
  refine take_left' ?_
  rw [length_append, length_take]
  omega

theorem length_realloc {mem : List Byte} {size : ℕ} : (realloc P mem size).length = size := by
  rw [realloc, length_append, length_take, length_map, length_range]
  omega

theorem take_realloc {mem : List Byte} {size n : ℕ} (h : n ≤ size) (hmem : n ≤ mem.length) :
    (realloc P mem size).take n = mem.take n := by
  rw [realloc, take_append_of_le_length, take_take, min_eq_left h]
  rw [length_take]
  omega

theorem asInt32_of_lt {n : ℕ} (h : n < 2 ^ 31) : asInt32 n = some n := by
  have hmod : n % 2 ^ 32 = n := Nat.mod_eq_of_lt (lt_trans h (by simp))
  rw [asInt32, hmod, if_pos h]

namespace Buffer

theorem le_doubled {required rounds toAlloc : ℕ} (h : required ≤ rounds + toAlloc) (hpos : 0 < toAlloc) :
    required ≤ doubled required rounds toAlloc := by
  induction rounds generalizing toAlloc with
  | zero =>
    rw [doubled]
    omega
  | succ rounds ih =>
    rw [doubled]
    split_ifs with hlt
    · exact ih (by omega) (by omega)
    · omega

theorem le_toAlloc (b : Buffer) (required : ℕ) : required ≤ b.toAlloc P required := by
  unfold toAlloc
  split_ifs with hthreshold hzero
  · have hdiv := Nat.div_add_mod (required + P.thresholdSize - 1) P.thresholdSize
    have hmod := Nat.mod_lt (required + P.thresholdSize - 1) P.thresholdSize_pos
    rw [mul_comm] at hdiv
    omega
  · exact le_doubled (by omega) P.initialSize_pos
  · exact le_doubled (by omega) (by omega)

structure Holds (b : Buffer) (taken rest : List Byte) : Prop where
  used : b.bytesUsed = (taken ++ rest).length
  packPtr : b.packPtr = b.bytesUsed
  unpackPtr : b.unpackPtr = taken.length
  fits : b.bytesUsed ≤ b.bytesAllocated
  allocated : b.bytesAllocated ≤ b.mem.length
  held : b.mem.take b.bytesUsed = taken ++ rest

theorem holds_new (type : BufferType) : (new type).Holds [] [] := ⟨rfl, rfl, rfl, Nat.le_refl 0, Nat.le_refl 0, rfl⟩

/-- `base_ptr <= unpack_ptr <= pack_ptr = base_ptr + bytes_used <= base_ptr + bytes_allocated`, and that much is there. -/
structure Consistent (b : Buffer) : Prop where
  unpackPtr : b.unpackPtr ≤ b.packPtr
  packPtr : b.packPtr = b.bytesUsed
  fits : b.bytesUsed ≤ b.bytesAllocated
  allocated : b.bytesAllocated ≤ b.mem.length

variable {b : Buffer} {taken rest : List Byte}

section

variable (h : b.Holds taken rest)

include h

theorem Holds.consistent : b.Consistent := by
  refine ⟨?_, h.packPtr, h.fits, h.allocated⟩
  rw [h.unpackPtr, h.packPtr, h.used, length_append]
  exact Nat.le_add_right _ _

theorem Holds.of_base_none (hbase : b.base = none) : taken = [] ∧ rest = [] := by
  have hmem : b.mem = [] := by rw [mem, hbase]; rfl
  have hheld := h.held
  rw [hmem, take_nil] at hheld
  exact append_eq_nil_iff.mp hheld.symm

theorem Holds.extend {n : ℕ} (hn : 0 < n ∨ b.base ≠ none) :
    ∃ mem allocated, b.extend P n = ⟨b.type, some mem, b.bytesUsed, taken.length, allocated, b.bytesUsed⟩ ∧
      b.bytesUsed + n ≤ allocated ∧ allocated ≤ mem.length ∧ mem.take b.bytesUsed = taken ++ rest := by
  unfold Buffer.extend
  have hfits := h.fits
  have hall := h.allocated
  split_ifs with hroom
  · have hbase : b.base ≠ none := by
      intro hnone
      have hmem : b.mem.length = 0 := by rw [mem, hnone]; rfl
      rcases hn with hn | hn
      · omega
      · exact hn hnone
    obtain ⟨mem, hmem⟩ := Option.ne_none_iff_exists'.mp hbase
    have hmem' : b.mem = mem := by rw [Buffer.mem, hmem]; rfl
    refine ⟨mem, b.bytesAllocated, ?_, by omega, hmem' ▸ hall, hmem' ▸ h.held⟩
    rw [← hmem, ← h.unpackPtr, ← h.packPtr.trans rfl]
    rcases b with ⟨type, base, packPtr, unpackPtr, bytesAllocated, bytesUsed⟩
    have hpack := h.packPtr
    dsimp only at hpack ⊢
    rw [hpack]
  · have hle := le_toAlloc (P := P) b (b.bytesUsed + n)
    cases hbase : b.base with
    | some mem =>
      have hmem : b.mem = mem := by rw [Buffer.mem, hbase]; rfl
      refine ⟨realloc P mem (b.toAlloc P (b.bytesUsed + n)), b.toAlloc P (b.bytesUsed + n), ?_, hle, ?_, ?_⟩
      · dsimp only
        rw [h.packPtr, h.unpackPtr]
      · rw [length_realloc]
      · rw [take_realloc (by omega) (hmem ▸ le_trans hfits hall), ← hmem, h.held]
    | none =>
      obtain ⟨rfl, rfl⟩ := h.of_base_none hbase
      have hused : b.bytesUsed = 0 := h.used
      refine ⟨realloc P [] (b.toAlloc P (b.bytesUsed + n)), b.toAlloc P (b.bytesUsed + n), ?_, hle, ?_, ?_⟩
      · dsimp only
        rw [hused]
        rfl
      · rw [length_realloc]
      · rw [hused]
        rfl

theorem Holds.append (bytes : List Byte) (hn : 0 < bytes.length ∨ b.base ≠ none) :
    ∃ b', exec (Dss.append P bytes) b = (.ok (), b') ∧ b'.type = b.type ∧ b'.base ≠ none ∧ b'.Holds taken (rest ++ bytes) := by
  obtain ⟨mem, allocated, hextend, hfits, hall, hheld⟩ := h.extend (P := P) hn
  refine ⟨⟨b.type, some (memcpy mem b.bytesUsed bytes), b.bytesUsed + bytes.length, taken.length, allocated,
    b.bytesUsed + bytes.length⟩, ?_, rfl, Option.some_ne_none _, ?_⟩
  · unfold Dss.append
    rw [exec_bind (exec_get b), hextend]
    rfl
  · refine ⟨?_, rfl, rfl, hfits, ?_, ?_⟩
    · dsimp only
      rw [h.used, length_append, length_append, length_append, add_assoc]
    · change allocated ≤ (memcpy mem b.bytesUsed bytes).length
      rwa [length_memcpy (by omega)]
    · change (memcpy mem b.bytesUsed bytes).take (b.bytesUsed + bytes.length) = _
      rw [take_memcpy bytes (by omega), hheld, append_assoc]

end

theorem Holds.take {bytes : List Byte} (h : b.Holds taken (bytes ++ rest)) {n : ℕ} (hn : n = bytes.length) :
    exec (Dss.take n) b = (.ok bytes, { b with unpackPtr := b.unpackPtr + n }) ∧
      Holds { b with unpackPtr := b.unpackPtr + n } (taken ++ bytes) rest := by
  have hused := h.used
  have hunpack := h.unpackPtr
  have hpack := h.packPtr
  simp only [length_append] at hused
  constructor
  · have hsmall : b.tooSmall n = false := by
      unfold tooSmall
      rw [decide_eq_false_iff_not]
      omega
    have hmem : (b.mem.drop b.unpackPtr).take n = bytes := by
      have hheld := congrArg (fun l => (l.drop taken.length).take n) h.held
      rw [drop_left, take_left' hn.symm, drop_take, take_take,
        min_eq_left (by omega)] at hheld
      rw [hunpack, hheld]
    unfold Dss.take
    rw [exec_bind (exec_get b), hsmall]
    change exec (set _ >>= fun _ => pure ((b.mem.drop b.unpackPtr).take n)) b = _
    rw [exec_bind (exec_set _ _), exec_pure, hmem]
  · refine ⟨?_, hpack, ?_, h.fits, h.allocated, ?_⟩
    · rw [h.used, append_assoc]
    · rw [hunpack, hn, length_append]
    · exact h.held.trans (append_assoc ..).symm

theorem Holds.take_past (h : b.Holds taken []) {n : ℕ} (hn : 0 < n) : exec (Dss.take n) b = (.error .readPastEnd, b) := by
  have hused := h.used
  have hunpack := h.unpackPtr
  have hpack := h.packPtr
  rw [append_nil] at hused
  have hsmall : b.tooSmall n = true := by
    unfold tooSmall
    rw [decide_eq_true_iff]
    omega
  unfold Dss.take
  rw [exec_bind (exec_get b), hsmall]
  rfl

theorem Holds.transfer (h : b.Holds taken rest) (hne : taken ++ rest ≠ []) (hsize : (taken ++ rest).length + 1 < 2 ^ 31)
    (b₂ : Buffer) : ∃ payload b', b.unload P = (new b.type, some payload) ∧ b₂.load payload = .ok b' ∧
      b'.type = b.type ∧ b'.Holds [] (taken ++ rest) := by
  have hused := h.used
  have hpos : 0 < b.bytesUsed := by
    rw [hused]
    exact length_pos_iff.mpr hne
  have hbase : b.base ≠ none := by
    intro hnone
    obtain ⟨rfl, rfl⟩ := h.of_base_none hnone
    exact hne rfl
  obtain ⟨mem, allocated, hextend, hfits, hall, hheld⟩ := h.extend (P := P) (.inl one_pos)
  have hlen : (memcpy mem b.bytesUsed [typeCode b.type]).length = mem.length := length_memcpy (by
    rw [length_singleton]
    omega)
  have htake : (memcpy mem b.bytesUsed [typeCode b.type]).take (b.bytesUsed + 1) = taken ++ rest ++ [typeCode b.type] := by
    have := take_memcpy [typeCode b.type] (show b.bytesUsed ≤ mem.length by omega)
    rwa [hheld] at this
  have hfooter : (memcpy mem b.bytesUsed [typeCode b.type])[b.bytesUsed]? = some (typeCode b.type) := by
    have := congrArg (fun l : List Byte => l[b.bytesUsed]?) htake
    rw [getElem?_take_of_lt (Nat.lt_succ_self _), getElem?_append_right (by omega), hused, Nat.sub_self] at this
    rw [hused, this]
    rfl
  have htype : (if (memcpy mem b.bytesUsed [typeCode b.type])[b.bytesUsed]? = some 1 then BufferType.fullyDesc else .nonDesc) =
      b.type := by
    rw [hfooter]
    cases b.type <;> rfl
  refine ⟨(memcpy mem b.bytesUsed [typeCode b.type], some (b.bytesUsed + 1)), ⟨b.type,
    some (memcpy mem b.bytesUsed [typeCode b.type]), b.bytesUsed, 0, b.bytesUsed, b.bytesUsed⟩, ?_, ?_, rfl, ?_⟩
  · unfold unload
    rw [if_neg (by rintro (hnone | hzero); exacts [hbase hnone, by omega]), hextend, ← asInt32_of_lt (show b.bytesUsed + 1 < 2 ^ 31 by omega)]
    rfl
  · exact congrArg (fun type => Except.ok (Buffer.mk type _ _ _ _ _)) htype
  · refine ⟨?_, rfl, rfl, le_rfl, ?_, ?_⟩
    · exact hused
    · change b.bytesUsed ≤ (memcpy mem b.bytesUsed [typeCode b.type]).length
      omega
    · have := congrArg (List.take b.bytesUsed) htake
      rw [take_take, min_eq_left (by omega), take_left' (by rw [← hused])] at this
      exact this

end Buffer

end OpenMPI.Dss

/-!
## What packing writes and unpacking reads

The bytes of values in a buffer of a type, and for each function that packs the one that unpacks: the first writes them,
the second makes the values of them.
-/

namespace OpenMPI.Dss

open OpenMPI.Lib List
open OpenMPI.Lib.Action

variable {P : Params} {t : BufferType}

structure Stored (t : BufferType) (b : Buffer) (taken rest : List Byte) : Prop where
  type : b.type = t
  base : b.base ≠ none
  holds : b.Holds taken rest

@[simp] theorem length_toNetwork (w n : ℕ) : (toNetwork w n).length = w := by
  induction w generalizing n with
  | zero => rfl
  | succ w ih => rw [toNetwork, length_append, ih, length_singleton]

theorem fromNetwork_toNetwork {w n : ℕ} (h : n < 256 ^ w) : fromNetwork (toNetwork w n) = n := by
  induction w generalizing n with
  | zero =>
    rw [pow_zero, Nat.lt_one_iff] at h
    rw [h]
    rfl
  | succ w ih =>
    have hdiv : n / 256 < 256 ^ w := Nat.div_lt_of_lt_mul (by rwa [mul_comm, ← pow_succ])
    have hlast : fromNetwork (toNetwork (w + 1) n) = 256 * fromNetwork (toNetwork w (n / 256)) + n % 256 := by
      rw [toNetwork, fromNetwork, foldl_append]
      rfl
    rw [hlast, ih hdiv, Nat.div_add_mod]

theorem ofCode_code (type : DataType) : DataType.ofCode type.code = some type := by
  cases type <;> rfl

def tag (t : BufferType) (type : DataType) : List Byte := if t = .fullyDesc then [type.code] else []

def encodeInts (w : ℕ) (vals : List Value) : List Byte := vals.flatMap fun v => toNetwork w v.toNat

def encodeSystem (real : DataType) (w : ℕ) (vals : List Value) : List Byte := real.code :: encodeInts w vals

def encodeStr : Value → List Byte
  | .string (some s) => toNetwork 4 (s.length + 1) ++ (s ++ [0])
  | _ => toNetwork 4 0

def encodeObject : Value → List Byte
  | .byteObject bytes => toNetwork 4 bytes.length ++ bytes
  | _ => []

/-- The bytes of values of a type other than data values. -/
def encodePlain (t : BufferType) (type : DataType) (vals : List Value) : List Byte :=
  match type with
  | .null | .byte | .int8 | .uint8 => encodeInts 1 vals
  | .int16 | .uint16 => encodeInts 2 vals
  | .int32 | .uint32 => encodeInts 4 vals
  | .int64 | .uint64 => encodeInts 8 vals
  | .bool => encodeSystem .uint8 1 vals
  | .int | .uint => encodeSystem .int32 4 vals
  | .size => encodeSystem .uint64 8 vals
  | .pid => encodeSystem .uint32 4 vals
  | .string => vals.flatMap encodeStr
  | .byteObject => vals.flatMap encodeObject
  | .dataType => tag t .uint8 ++ encodeInts 1 vals
  | .undef | .dataValue => []

def encodeValue (t : BufferType) : Value → List Byte
  | .noValue => [DataType.null.code]
  | .undef => [DataType.undef.code]
  | .value type data =>
    [type.code] ++ (tag t type ++ if type = .dataValue then encodeValue t data else encodePlain t type [data])
  | _ => []

def encodeBuffer (t : BufferType) (type : DataType) (vals : List Value) : List Byte :=
  tag t type ++ if type = .dataValue then vals.flatMap (encodeValue t) else encodePlain t type vals

def encode (t : BufferType) (item : Item) : List Byte :=
  tag t .int32 ++ (toNetwork 4 item.2.length ++ encodeBuffer t item.1 item.2)

theorem encode_ne_nil (t : BufferType) (item : Item) : encode t item ≠ [] := by
  intro h
  have hlength := congrArg List.length h
  rw [encode, length_append, length_append, length_toNetwork, length_nil] at hlength
  omega

/-- No string or data value that does not come back: see the places where it is used. -/
def Value.Safe : Value → Prop
  | .string (some s) => s.length + 1 < 2 ^ 31
  | .value type data => type ≠ .null ∧ data ≠ .noValue ∧ data.Safe
  | _ => True

theorem writes_append (bytes : List Byte) : Writes (Stored t) (append P bytes) bytes := by
  intro b taken rest hb
  obtain ⟨b', hexec, htype, hbase, hholds⟩ := hb.holds.append (P := P) bytes (.inr hb.base)
  exact ⟨b', hexec, htype.trans hb.type, hbase, hholds⟩

theorem writes_describe (type : DataType) : Writes (Stored t) (describe P type) (tag t type) := by
  refine Writes.get fun b taken rest hb => ?_
  rw [hb.type]
  unfold tag
  split_ifs
  · exact writes_append _
  · exact Writes.pure

theorem writes_packInts (w : ℕ) (vals : List Value) : Writes (Stored t) (packInts P w vals) (encodeInts w vals) :=
  writes_append _

theorem writes_packSystem (real : DataType) (w : ℕ) (vals : List Value) :
    Writes (Stored t) (packSystem P real w vals) (encodeSystem real w vals) := by
  refine Writes.get fun b taken rest hb => ?_
  have hdescribe := (writes_describe (P := P) (t := t) real).bind (writes_packInts (P := P) w vals)
  rw [hb.type]
  cases t with
  | nonDesc => exact (writes_append [real.code]).bind hdescribe
  | fullyDesc => exact Writes.pure.bind hdescribe

theorem writes_packStr {v : Value} (hv : v.Has .string) (hsafe : v.Safe) :
    Writes (Stored t) (packStr P v) (encodeStr v) := by
  cases v with
  | string s =>
    cases s with
    | none => exact writes_append _
    | some s =>
      refine (writes_append _).bind ?_
      rw [asInt32_of_lt hsafe]
      have hall : (s ++ [0]).take (s.length + 1) = s ++ [0] := by
        rw [← length_singleton (a := (0 : Byte)), ← length_append, take_length]
      change Writes _ (append P ((s ++ [0]).take (s.length + 1))) _
      rw [hall]
      exact writes_append _
  | num n => exact absurd hv (Nat.not_lt_zero n)
  | byteObject bytes => cases hv.1
  | noValue | undef => cases hv
  | value type data => cases hv.1
  | garbage => exact hv.elim

theorem writes_packObject {v : Value} (hv : v.Has .byteObject) : Writes (Stored t) (packObject P v) (encodeObject v) := by
  cases v with
  | byteObject bytes =>
    refine (writes_append _).bind ?_
    cases bytes with
    | nil => exact Writes.pure
    | cons byte bytes => exact writes_append _
  | num n => exact absurd hv (Nat.not_lt_zero n)
  | string s =>
    cases s with
    | none => cases hv
    | some s => cases hv.1
  | noValue | undef => cases hv
  | value type data => cases hv.1
  | garbage => exact hv.elim

theorem encodeInts_null {vals : List Value} (h : ∀ v ∈ vals, v.Has .null) :
    encodeInts 1 vals = replicate vals.length 0 := by
  induction vals with
  | nil => rfl
  | cons v vals ih =>
    rw [encodeInts, flatMap_cons, ← encodeInts, ih fun u hu => h u (mem_cons_of_mem _ hu), length_cons,
      replicate_succ]
    have hv := h v mem_cons_self
    cases v with
    | num n =>
      obtain rfl : n = 0 := Nat.lt_one_iff.mp hv
      rfl
    | _ => rfl

theorem writes_packPlain {type : DataType} {vals : List Value} (hundef : type ≠ .undef) (hvalue : type ≠ .dataValue)
    (h : ∀ v ∈ vals, v.Has type) (hsafe : ∀ v ∈ vals, v.Safe) :
    Writes (Stored t) (packPlain P type vals) (encodePlain t type vals) := by
  cases type with
  | undef => exact absurd rfl hundef
  | dataValue => exact absurd rfl hvalue
  | null =>
    change Writes _ (packNull P vals) (encodeInts 1 vals)
    rw [encodeInts_null h]
    exact writes_append _
  | string => exact Writes.forM fun v hv => writes_packStr (h v hv) (hsafe v hv)
  | byteObject => exact Writes.forM fun v hv => writes_packObject (h v hv)
  | dataType => exact (writes_describe _).bind (writes_packInts 1 vals)
  | byte | int8 | uint8 | int16 | uint16 | int32 | uint32 | int64 | uint64 => exact writes_packInts _ vals
  | bool | int | uint | size | pid => exact writes_packSystem _ _ vals

theorem writes_packValue {v : Value} (hv : v.Has .dataValue) (hsafe : v.Safe) :
    Writes (Stored t) (packValue P v) (encodeValue t v) := by
  induction v with
  | noValue | undef => exact writes_append _
  | value type data ih =>
    obtain ⟨-, hundef, hdata⟩ := hv
    obtain ⟨-, -, hsafe⟩ := hsafe
    refine (writes_append _).bind ((writes_describe type).bind ?_)
    split_ifs with hvalue
    · exact ih (hvalue ▸ hdata) hsafe
    · refine writes_packPlain hundef hvalue ?_ ?_
      · exact fun u hu => mem_singleton.mp hu ▸ hdata
      · exact fun u hu => mem_singleton.mp hu ▸ hsafe
  | num n => exact absurd hv (Nat.not_lt_zero n)
  | string s =>
    cases s with
    | none => cases hv
    | some s => cases hv.1
  | byteObject bytes => cases hv.1
  | garbage => exact hv.elim

theorem writes_packBuffer {type : DataType} {vals : List Value} (hundef : type ≠ .undef) (h : ∀ v ∈ vals, v.Has type)
    (hsafe : ∀ v ∈ vals, v.Safe) : Writes (Stored t) (packBuffer P type vals) (encodeBuffer t type vals) := by
  refine (writes_describe type).bind ?_
  split_ifs with hvalue
  · exact Writes.forM fun v hv => writes_packValue (hvalue ▸ h v hv) (hsafe v hv)
  · exact writes_packPlain hundef hvalue h hsafe

theorem Buffer.Holds.pack {b : Buffer} {taken rest : List Byte} (hb : b.Holds taken rest) {type : DataType} {vals : List Value}
    (hundef : type ≠ .undef) (h : ∀ v ∈ vals, v.Has type) (hsafe : ∀ v ∈ vals, v.Safe) :
    ∃ b', exec (pack P type vals) b = (.ok (), b') ∧ b'.type = b.type ∧
      b'.Holds taken (rest ++ encode b.type (type, vals)) := by
  have hbuffer := writes_packBuffer (P := P) (t := b.type) hundef h hsafe
  have hcount : Writes (Stored b.type) (packInt32 P [.num vals.length] >>= fun _ => packBuffer P type vals)
      (toNetwork 4 vals.length ++ encodeBuffer b.type type vals) := by
    refine Writes.bind ?_ hbuffer
    have := writes_packInts (P := P) (t := b.type) 4 [.num vals.length]
    rwa [encodeInts, flatMap_singleton] at this
  cases hty : b.type with
  | nonDesc =>
    have hdescribe : exec (describe P .int32) b = (.ok (), b) := by
      unfold describe
      rw [exec_bind (exec_get b), hty]
      rfl
    obtain ⟨b₁, hexec, htype, hbase, hb₁⟩ := hb.append (P := P) (encodeInts 4 [.num vals.length]) (.inl (by
      rw [encodeInts, flatMap_singleton, length_toNetwork]
      exact Nat.zero_lt_succ 3))
    obtain ⟨b', hpack, hb'⟩ := hbuffer b₁ _ _ ⟨htype, hbase, hb₁⟩
    refine ⟨b', ?_, hb'.type.trans hty, ?_⟩
    · unfold Dss.pack
      rw [exec_bind hdescribe, ← hpack]
      exact exec_bind hexec
    · have := hb'.holds
      rwa [encodeInts, flatMap_singleton, append_assoc, hty] at this
  | fullyDesc =>
    obtain ⟨b₁, hexec, htype, hbase, hb₁⟩ := hb.append (P := P) [DataType.int32.code] (.inl one_pos)
    have hdescribe : exec (describe P .int32) b = (.ok (), b₁) := by
      unfold describe
      rw [exec_bind (exec_get b), hty]
      exact hexec
    obtain ⟨b', hpack, hb'⟩ := hcount b₁ _ _ ⟨htype, hbase, hb₁⟩
    refine ⟨b', ?_, hb'.type.trans hty, ?_⟩
    · unfold Dss.pack
      rw [exec_bind hdescribe, ← hpack]
    · have := hb'.holds
      rwa [append_assoc, hty] at this

end OpenMPI.Dss
