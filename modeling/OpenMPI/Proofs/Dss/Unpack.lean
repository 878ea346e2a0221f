import OpenMPI.Proofs.Dss.Pack

/-!
# What unpacking reads

Each function that unpacks makes of the bytes of values those values.
-/

namespace OpenMPI.Dss

open OpenMPI.Lib List
open OpenMPI.Lib.Action

variable {P : Params} {t : BufferType}

theorem reads_take {bytes : List Byte} {n : ℕ} (h : n = bytes.length) : Reads (Stored t) (take n) bytes bytes := by
  intro b taken rest hb
  obtain ⟨hexec, hholds⟩ := hb.holds.take h
  exact ⟨_, hexec, hb.type, hb.base, hholds⟩

theorem reads_getDataType (code : Byte) : Reads (Stored t) getDataType [code] code := (reads_take rfl).map _

theorem reads_expect (type : DataType) (err : Err) : Reads (Stored t) (expect type err) (tag t type) () := by
  refine Reads.get fun b taken rest hb => ?_
  rw [hb.type]
  unfold tag
  split_ifs
  · have h := (reads_getDataType (t := t) type.code).bind (y := []) (c := ())
      (f := fun localType => if localType = type.code then return else throw err) (by
        rw [if_pos rfl]
        exact Reads.pure ())
    exact h
  · exact Reads.pure ()

theorem fromNetworks_encodeInts {w : ℕ} {vals : List Value} (h : ∀ v ∈ vals, ∃ n, v = .num n ∧ n < 256 ^ w) :
    (fromNetworks w vals.length (encodeInts w vals)).map Value.num = vals := by
  induction vals with
  | nil => rfl
  | cons v vals ih =>
    obtain ⟨n, rfl, hn⟩ := h v mem_cons_self
    rw [encodeInts, flatMap_cons, ← encodeInts, length_cons, fromNetworks,
      take_left' (length_toNetwork ..), drop_left' (length_toNetwork ..), map_cons,
      ih fun u hu => h u (mem_cons_of_mem _ hu)]
    change Value.num (fromNetwork (toNetwork w n)) :: vals = _
    rw [fromNetwork_toNetwork hn]

theorem length_encodeInts (w : ℕ) (vals : List Value) : (encodeInts w vals).length = vals.length * w := by
  induction vals with
  | nil => rw [encodeInts, List.flatMap_nil, length_nil, length_nil, zero_mul]
  | cons v vals ih =>
    rw [encodeInts, flatMap_cons, ← encodeInts, length_append, length_toNetwork, ih, length_cons]
    ring

theorem Value.Has.num {v : Value} {type : DataType} (h : v.Has type) (hbound : 0 < type.bound) :
    ∃ n, v = .num n ∧ n < type.bound := by
  cases v with
  | num n => exact ⟨n, rfl, h⟩
  | string s =>
    cases s with
    | none => cases h; cases hbound
    | some s => cases h.1; cases hbound
  | byteObject bytes => cases h.1; cases hbound
  | noValue | undef => cases h; cases hbound
  | value type data => cases h.1; cases hbound
  | garbage => exact h.elim

section Ints

variable {vals : List Value} {w : ℕ}

theorem reads_unpackInts (h : ∀ v ∈ vals, ∃ n, v = .num n ∧ n < 256 ^ w) : Reads (Stored t) (unpackInts w vals.length) (encodeInts w vals) vals := by
  have hread := (reads_take (t := t) (length_encodeInts w vals).symm).map fun bytes =>
    (fromNetworks w vals.length bytes).map Value.num
  rwa [fromNetworks_encodeInts h] at hread

theorem exec_peekType {b : Buffer} {taken rest : List Byte} {code : Byte} (hb : Stored t b taken (code :: rest)) :
    exec peekType b = (.ok code, b) := by
  obtain ⟨b', hexec, -⟩ := reads_getDataType (t := t) code b taken rest hb
  have hleft : ¬b.bytesUsed ≤ b.unpackPtr := by
    rw [hb.holds.used, hb.holds.unpackPtr, length_append, length_cons]
    omega
  unfold peekType
  rw [exec_bind (exec_get b), if_neg hleft, exec_bind hexec, exec_bind (exec_set _ _), exec_pure]

theorem reads_unpackSystem (h : ∀ v ∈ vals, ∃ n, v = .num n ∧ n < 256 ^ w) (type real : DataType) :
    Reads (Stored t) (unpackSystem type real w vals.length) (encodeSystem real w vals) vals := by
  have hreal : Reads (Stored t) (expect real .packMismatch >>= fun _ => unpackInts w vals.length)
      (tag t real ++ encodeInts w vals) vals := (reads_expect real _).bind (reads_unpackInts h)
  refine Reads.get fun b taken rest hb => ?_
  rw [hb.type]
  cases t with
  | nonDesc =>
    have hread := (reads_getDataType (t := .nonDesc) real.code).bind (y := encodeInts w vals) (c := vals)
      (f := fun remoteType => if remoteType = real.code then (do
        expect real .packMismatch
        unpackInts w vals.length) else unpackSizeMismatch type w remoteType vals.length) (by
          rw [if_pos rfl]
          exact hreal)
    exact hread
  | fullyDesc =>
    intro b taken rest hb
    obtain ⟨b', hexec, hb'⟩ := hreal b taken rest hb
    refine ⟨b', ?_, hb'⟩
    change exec (peekType >>= fun remoteType => if remoteType = real.code then (do
        expect real .packMismatch
        unpackInts w vals.length) else unpackSizeMismatch type w remoteType vals.length) b = _
    rw [exec_bind (exec_peekType hb), if_pos rfl, hexec]

end Ints

theorem reads_unpackCount {n : ℕ} (h : n < 256 ^ 4) : Reads (Stored t) unpackCount (toNetwork 4 n) n := by
  have hread := (reads_unpackInts (t := t) (w := 4)
    (show ∀ v ∈ [Value.num n], _ from fun v hv => ⟨n, mem_singleton.mp hv, h⟩)).map fun vals => (vals.headD .garbage).toNat
  rwa [encodeInts, flatMap_singleton] at hread

theorem cString_append {s : List Byte} (h : 0 ∉ s) : cString (s ++ [0]) = .string (some s) := by
  have hall : ∀ byte ∈ s, decide (byte ≠ 0) = true := by
    intro byte hbyte
    rw [decide_eq_true_iff]
    rintro rfl
    exact h hbyte
  rw [cString, if_pos (mem_append_right _ mem_cons_self), takeWhile_append_of_pos hall]
  rw [takeWhile_cons_of_neg (by simp), append_nil]

theorem reads_unpackStr {v : Value} (hv : v.Has .string) (hsafe : v.Safe) :
    Reads (Stored t) unpackStr (encodeStr v) v := by
  cases v with
  | string s =>
    cases s with
    | none =>
      have hread := (reads_unpackCount (t := t) (n := 0) (by simp)).bind (y := []) (Reads.pure (Value.string none))
        (f := fun len => if len = 0 then pure (.string none) else if 2 ^ 31 ≤ len then throw .outOfResource else (do
          let bytes ← take len
          return cString bytes))
      rwa [append_nil] at hread
    | some s =>
      have hlen : s.length + 1 < 2 ^ 31 := hsafe
      refine (reads_unpackCount (by omega)).bind ?_
      rw [if_neg (Nat.succ_ne_zero _), if_neg (by omega), ← cString_append hv.2]
      exact (reads_take (by rw [length_append, length_singleton])).map _
  | num n => exact absurd hv (Nat.not_lt_zero n)
  | byteObject bytes => cases hv.1
  | noValue | undef => cases hv
  | value type data => cases hv.1
  | garbage => exact hv.elim

theorem reads_unpackObject {v : Value} (hv : v.Has .byteObject) : Reads (Stored t) unpackObject (encodeObject v) v := by
  cases v with
  | byteObject bytes =>
    have hlen : bytes.length < 2 ^ 31 := hv.2
    refine (reads_unpackCount (by omega)).bind ?_
    split_ifs with hzero hbig
    · obtain rfl := length_eq_zero_iff.mp hzero
      exact Reads.pure _
    · omega
    · exact (reads_take rfl).map _
  | num n => exact absurd hv (Nat.not_lt_zero n)
  | string s =>
    cases s with
    | none => cases hv
    | some s => cases hv.1
  | noValue | undef => cases hv
  | value type data => cases hv.1
  | garbage => exact hv.elim

theorem reads_replicate {m : Action Buffer Err Value} {out : Value → List Byte} {vals : List Value}
    (h : ∀ v ∈ vals, Reads (Stored t) m (out v) v) :
    Reads (Stored t) ((replicate vals.length ()).mapM fun _ => m) (vals.flatMap out) vals := by
  refine Reads.mapM ?_
  induction vals with
  | nil => exact .nil
  | cons v vals ih => exact .cons (h v mem_cons_self) (ih fun u hu => h u (mem_cons_of_mem _ hu))

theorem reads_unpackPlain {type : DataType} {vals : List Value} (hundef : type ≠ .undef) (hvalue : type ≠ .dataValue)
    (h : ∀ v ∈ vals, v.Has type) (hsafe : ∀ v ∈ vals, v.Safe) :
    Reads (Stored t) (unpackPlain type vals.length) (encodePlain t type vals) vals := by
  have hnum (w : ℕ) (hbound : 0 < type.bound) (hw : type.bound ≤ 256 ^ w) : ∀ v ∈ vals, ∃ n, v = .num n ∧ n < 256 ^ w := by
    intro v hv
    obtain ⟨n, rfl, hn⟩ := (h v hv).num hbound
    exact ⟨n, rfl, lt_of_lt_of_le hn hw⟩
  cases type with
  | undef => exact absurd rfl hundef
  | dataValue => exact absurd rfl hvalue
  | string => exact reads_replicate fun v hv => reads_unpackStr (h v hv) (hsafe v hv)
  | byteObject => exact reads_replicate fun v hv => reads_unpackObject (h v hv)
  | dataType => exact (reads_expect _ _).bind (reads_unpackInts (hnum 1 (by simp [DataType.bound]) (le_rfl)))
  | null => exact reads_unpackInts (hnum 1 (by simp [DataType.bound]) (by simp [DataType.bound]))
  | byte | int8 | uint8 => exact reads_unpackInts (hnum 1 (by simp [DataType.bound]) (le_rfl))
  | int16 | uint16 => exact reads_unpackInts (hnum 2 (by simp [DataType.bound]) (le_rfl))
  | int32 | uint32 => exact reads_unpackInts (hnum 4 (by simp [DataType.bound]) (le_rfl))
  | int64 | uint64 => exact reads_unpackInts (hnum 8 (by simp [DataType.bound]) (le_rfl))
  | bool => exact reads_unpackSystem (hnum 1 (by simp [DataType.bound]) (le_rfl)) _ _
  | int | uint | pid => exact reads_unpackSystem (hnum 4 (by simp [DataType.bound]) (le_rfl)) _ _
  | size => exact reads_unpackSystem (hnum 8 (by simp [DataType.bound]) (le_rfl)) _ _

def Value.depth : Value → ℕ
  | .value type data => if type = .dataValue then data.depth + 1 else 1
  | _ => 1

theorem Value.Has.depth_le {v : Value} (hv : v.Has .dataValue) (t : BufferType) : v.depth ≤ (encodeValue t v).length := by
  induction v with
  | noValue | undef => exact Nat.le_refl 1
  | value type data ih =>
    obtain ⟨-, -, hdata⟩ := hv
    rw [Value.depth, encodeValue, length_append, length_singleton, length_append]
    split_ifs with hvalue
    · have := ih (hvalue ▸ hdata)
      omega
    · omega
  | num n => exact absurd hv (Nat.not_lt_zero n)
  | string s =>
    cases s with
    | none => cases hv
    | some s => cases hv.1
  | byteObject bytes => cases hv.1
  | garbage => exact hv.elim

theorem reads_unpackValue {v dest : Value} {depth : ℕ} (hv : v.Has .dataValue) (hsafe : v.Safe)
    (hdest : v = .noValue → dest = .noValue) (hdepth : v.depth ≤ depth) :
    Reads (Stored t) (unpackValue depth dest) (encodeValue t v) v := by
  induction v generalizing depth dest with
  | noValue =>
    obtain ⟨depth, rfl⟩ := Nat.exists_eq_succ_of_ne_zero (ne_of_gt hdepth)
    obtain rfl := hdest rfl
    refine (reads_getDataType DataType.null.code).bind (y := []) ?_
    rw [ofCode_code]
    exact Reads.pure _
  | undef =>
    obtain ⟨depth, rfl⟩ := Nat.exists_eq_succ_of_ne_zero (ne_of_gt hdepth)
    refine (reads_getDataType DataType.undef.code).bind (y := []) ?_
    rw [ofCode_code]
    exact Reads.pure _
  | value type data ih =>
    obtain ⟨-, hundef, hdata⟩ := hv
    obtain ⟨hnull, hno, hsafe⟩ := hsafe
    obtain ⟨depth, rfl⟩ : ∃ depth', depth = depth' + 1 := by
      refine Nat.exists_eq_succ_of_ne_zero (ne_of_gt (lt_of_lt_of_le ?_ hdepth))
      rw [Value.depth]
      split_ifs
      · exact Nat.zero_lt_succ _
      · exact one_pos
    refine (reads_getDataType type.code).bind ?_
    rw [ofCode_code]
    have hbody : Reads (Stored t) (do
        expect type .packMismatch
        if type = .dataValue then
          let data ← unpackValue depth .garbage
          return Value.value type data
        else
          let vals ← unpackPlain type 1
          return Value.value type (vals.headD .garbage))
        (tag t type ++ if type = .dataValue then encodeValue t data else encodePlain t type [data]) (.value type data) := by
      refine (reads_expect type _).bind ?_
      split_ifs with hvalue
      · refine (ih (hvalue ▸ hdata) hsafe (fun h => absurd h hno) ?_).map _
        rw [Value.depth, if_pos hvalue] at hdepth
        omega
      · have hplain := reads_unpackPlain (t := t) hundef hvalue
          (show ∀ u ∈ [data], u.Has type from fun u hu => mem_singleton.mp hu ▸ hdata) (fun u hu => mem_singleton.mp hu ▸ hsafe)
        exact hplain.map fun vals => Value.value type (vals.headD .garbage)
    cases type with
    | null => exact absurd rfl hnull
    | undef => exact absurd rfl hundef
    | _ => exact hbody
  | num n => exact absurd hv (Nat.not_lt_zero n)
  | string s =>
    cases s with
    | none => cases hv
    | some s => cases hv.1
  | byteObject bytes => cases hv.1
  | garbage => exact hv.elim

theorem reads_unpackDataValue {vals dest : List Value} (h : ∀ v ∈ vals, v.Has .dataValue) (hsafe : ∀ v ∈ vals, v.Safe)
    (hlength : dest.length = vals.length) (hdest : ∀ k : ℕ, vals[k]? = some Value.noValue → dest[k]? = some Value.noValue) :
    Reads (Stored t) (unpackDataValue dest) (vals.flatMap (encodeValue t)) vals := by
  refine Reads.get fun b taken rest hb => Reads.mapM ?_
  have hdepth : ∀ v ∈ vals, v.depth ≤ b.bytesUsed + 1 := by
    intro v hv
    have hle := List.Sublist.length_le (sublist_flatten_of_mem (mem_map_of_mem (f := encodeValue t) hv))
    rw [← flatMap_def] at hle
    have hused := hb.holds.used
    simp only [length_append] at hused
    exact le_trans ((h v hv).depth_le t) (by omega)
  clear hb
  generalize b.bytesUsed + 1 = depth at hdepth
  induction vals generalizing dest with
  | nil =>
    obtain rfl := length_eq_zero_iff.mp hlength
    exact .nil
  | cons v vals ih =>
    cases dest with
    | nil => cases hlength
    | cons d dest =>
      refine .cons ?_ (ih (fun u hu => h u (mem_cons_of_mem _ hu)) (fun u hu => hsafe u (mem_cons_of_mem _ hu))
        (Nat.succ.inj hlength) (fun k => hdest (k + 1)) fun u hu => hdepth u (mem_cons_of_mem _ hu))
      refine reads_unpackValue (h v mem_cons_self) (hsafe v mem_cons_self) ?_ (hdepth v mem_cons_self)
      rintro rfl
      exact Option.some.inj (hdest 0 rfl)

theorem reads_unpack {type : DataType} {vals dest : List Value} (hundef : type ≠ .undef) (hcount : vals.length < 2 ^ 31)
    (h : ∀ v ∈ vals, v.Has type) (hsafe : ∀ v ∈ vals, v.Safe) (hne : dest ≠ []) (hroom : vals.length ≤ dest.length)
    (hdest : ∀ k : ℕ, vals[k]? = some Value.noValue → dest[k]? = some Value.noValue) :
    Reads (Stored t) (unpack type dest) (encode t (type, vals)) (true, vals) := by
  unfold unpack
  rw [if_neg (by rwa [length_eq_zero_iff])]
  refine (reads_expect .int32 _).bind ((reads_unpackCount (by dsimp only; omega)).bind ?_)
  rw [if_neg (by dsimp only; omega)]
  have hlength : (dest.take vals.length).length = vals.length := by
    rw [length_take]
    omega
  have hbuffer : Reads (Stored t) (unpackBuffer type (dest.take vals.length)) (encodeBuffer t type vals) vals := by
    refine (reads_expect type _).bind ?_
    split_ifs with hvalue
    · refine reads_unpackDataValue (hvalue ▸ h) hsafe hlength fun k hk => ?_
      have hlt : k < vals.length := (List.getElem?_eq_some_iff.mp hk).1
      rw [getElem?_take_of_lt hlt]
      exact hdest k hk
    · rw [hlength]
      exact reads_unpackPlain hundef hvalue h hsafe
  have hread := hbuffer.map fun vals' => (decide (vals.length ≤ dest.length), vals')
  have hall : decide (vals.length ≤ dest.length) = true := decide_eq_true hroom
  dsimp only
  rw [hall] at hread ⊢
  exact hread

end OpenMPI.Dss
