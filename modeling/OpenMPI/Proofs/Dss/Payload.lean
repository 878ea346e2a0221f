import OpenMPI.Dss.Payload

/-!
# No payload makes unpacking unsafe

Whatever is read is checked against what is left before, so that the pointers stay in order and all reads in the payload (`Sound`).  A call
that does not fail does the same with more bytes after those that are left (`Agree`), so that one which would need these fails.  The only
payload that is not safe is one without the byte that tells the type of the buffer (`safe_iff`).
-/

namespace OpenMPI.Dss.Loaded

open OpenMPI.Lib List
open OpenMPI.Lib.Action
open Btl (int32 size64)

variable {α β : Type} {t : BufferType} {m : ℤ → Byte} {p : ℤ} {b b' : Loaded}

/-- The action takes `n` bytes whatever is left, and makes something of them only. -/
def Takes (n : ℕ) (a : Action Loaded Err α) : Prop := ∀ (m : ℤ → Byte) (u : ℤ), ∃ (v : α) (places : List (ℤ × ℕ)),
  (∀ r ∈ places, u ≤ r.1 ∧ r.1 + r.2 ≤ u + n) ∧
  ∀ b, b.unpackPtr = u → (∀ k, u ≤ k → k < u + n → b.memory k = m k) →
    exec a b = (.ok v, { b with unpackPtr := u + n, reads := b.reads ++ places })

theorem Takes.pure (v : α) : Takes 0 (pure v) := by
  refine fun m u => ⟨v, [], by simp, ?_⟩
  rintro b rfl -
  simp

theorem Takes.copyBytes (n : ℕ) : Takes n (copyBytes n n) := by
  refine fun m u => ⟨(range n).map fun (k : ℕ) => m (u + k), [(u, n)], fun r hr => ?_, ?_⟩
  · rw [mem_singleton.mp hr]
    exact ⟨Int.le_refl _, Int.le_refl _⟩
  · rintro b rfl hmem
    have hvals : (range n).map (fun (k : ℕ) => b.memory (b.unpackPtr + k)) = (range n).map fun (k : ℕ) => m (b.unpackPtr + k) := by
      refine map_congr_left fun k hk => ?_
      have hlt := mem_range.mp hk
      exact hmem _ (by omega) (by omega)
    rw [← hvals]
    rfl

theorem Takes.bind {n k : ℕ} {a : Action Loaded Err α} {f : α → Action Loaded Err β} (h : Takes n a) (hf : ∀ v, Takes k (f v)) :
    Takes (n + k) (a >>= f) := by
  intro m u
  obtain ⟨v, places, hplaces, hexec⟩ := h m u
  obtain ⟨v', places', hplaces', hexec'⟩ := hf v m (u + n)
  refine ⟨v', places ++ places', fun r hr => ?_, ?_⟩
  · rcases mem_append.mp hr with hr | hr
    · have := hplaces r hr
      omega
    · have := hplaces' r hr
      omega
  · intro b hu hmem
    rw [exec_bind (hexec b hu fun k hk hlt => hmem k hk (by omega))]
    refine (hexec' { b with unpackPtr := u + n, reads := b.reads ++ places } rfl fun k hk hlt => hmem k (by omega) (by omega)).trans ?_
    simp [add_assoc]

theorem Takes.copyInts (w : ℕ) : ∀ n, Takes (n * w) (copyInts w n)
  | 0 => by
    rw [zero_mul]
    exact Takes.pure []
  | n + 1 => by
    rw [Nat.succ_mul, add_comm]
    exact (Takes.copyBytes w).bind fun bytes => ((Takes.copyInts w n).bind fun vals => Takes.pure (fromNetwork bytes :: vals))

/-- The pointers are in order, and all reads were in the payload, with the byte after the data. -/
structure Sound (t : BufferType) (m : ℤ → Byte) (p : ℤ) (b : Loaded) : Prop where
  type : b.type = t
  memory : b.memory = m
  packPtr : b.packPtr = p
  bytesUsed : b.bytesUsed = p
  small : p < 2 ^ 31
  nonneg : 0 ≤ b.unpackPtr
  le : b.unpackPtr ≤ p
  reads : ∀ r ∈ b.reads, 0 ≤ r.1 ∧ r.1 + r.2 ≤ p + 1

/-- The second buffer has the same bytes left and maybe more after them, of which nothing was read. -/
structure Agree (t : BufferType) (m : ℤ → Byte) (p : ℤ) (b b' : Loaded) : Prop where
  sound : Sound t m p b
  type : b'.type = t
  memory : ∀ k, 0 ≤ k → k < p → b'.memory k = m k
  packPtr : p ≤ b'.packPtr
  bytesUsed : b'.bytesUsed = b'.packPtr
  unpackPtr : b'.unpackPtr = b.unpackPtr
  reads : ∀ r ∈ b'.reads, 0 ≤ r.1 ∧ r.1 + r.2 ≤ p

/-- The first action keeps states sound, and where it does not fail the second one does the same with more bytes. -/
structure Cut (t : BufferType) (m : ℤ → Byte) (p : ℤ) (a a' : Action Loaded Err α) : Prop where
  keeps : Keeps (Sound t m p) a
  follows : Follows (Agree t m p) a a'

namespace Cut

theorem pure (v : α) : Cut t m p (pure v) (pure v) := ⟨Keeps.pure v, Follows.pure v⟩

theorem throw (e : Err) : Cut t m p (throw e : Action Loaded Err α) (throw e) := ⟨Keeps.throw e, Follows.throw e _⟩

theorem bind {a a' : Action Loaded Err α} {f f' : α → Action Loaded Err β} (h : Cut t m p a a') (hf : ∀ v, Cut t m p (f v) (f' v)) :
    Cut t m p (a >>= f) (a' >>= f') :=
  ⟨h.keeps.bind fun v => (hf v).keeps, h.follows.bind fun v => (hf v).follows⟩

theorem mapM {f f' : β → Action Loaded Err α} (h : ∀ d, Cut t m p (f d) (f' d)) (places : List β) :
    Cut t m p (places.mapM f) (places.mapM f') :=
  ⟨Keeps.mapM (fun d => (h d).keeps) places, Follows.mapM (fun d => (h d).follows) places⟩

theorem get {f f' : Loaded → Action Loaded Err α} (h : ∀ b b', b.type = t → b'.type = t → Cut t m p (f b) (f' b')) :
    Cut t m p (MonadState.get >>= f) (MonadState.get >>= f') :=
  ⟨Keeps.get fun b hb => (h b b hb.type hb.type).keeps, Follows.get fun b b' hb => (h b b' hb.sound.type hb.type).follows⟩

end Cut

theorem Sound.fits (h : Sound t m p b) {x : ℤ} (hx : -2 ^ 40 ≤ x ∧ x < 2 ^ 40) (hcheck : b.tooSmall (size64 x) = false) :
    0 ≤ x ∧ b.unpackPtr + x ≤ p ∧ size64 x = x.toNat := by
  simp only [tooSmall, decide_eq_false_iff_not, not_or, h.packPtr] at hcheck
  have := h.nonneg
  have := h.small
  unfold size64 at hcheck ⊢
  omega

theorem Agree.check (h : Agree t m p b b') {n : ℕ} (hcheck : b.tooSmall n = false) : b'.tooSmall n = false := by
  simp only [tooSmall, decide_eq_false_iff_not, not_or, h.sound.packPtr] at hcheck ⊢
  have := h.packPtr
  have := h.unpackPtr
  omega

theorem exec_check_of_false {n : ℕ} (h : b.tooSmall n = false) : exec (check n) b = (.ok (), b) := by
  unfold check
  rw [exec_bind (exec_get b), h]
  rfl

theorem exec_check_of_true {n : ℕ} (h : b.tooSmall n = true) : exec (check n) b = (.error .readPastEnd, b) := by
  unfold check
  rw [exec_bind (exec_get b), h]
  rfl

theorem cut_checked {a : Action Loaded Err α} {x : ℤ} (hx : -2 ^ 40 ≤ x ∧ x < 2 ^ 40) (ha : 0 ≤ x → Takes x.toNat a) :
    Cut t m p (check (size64 x) >>= fun _ => a) (check (size64 x) >>= fun _ => a) := by
  constructor
  · intro b hb
    cases hcheck : b.tooSmall (size64 x) with
    | true =>
      rw [exec_bind_error (exec_check_of_true hcheck)]
      exact hb
    | false =>
      obtain ⟨hnonneg, hle, -⟩ := hb.fits hx hcheck
      obtain ⟨v, places, hplaces, hexec⟩ := ha hnonneg m b.unpackPtr
      have hstart := hb.nonneg
      rw [exec_bind (exec_check_of_false hcheck), hexec b rfl fun k _ _ => by rw [hb.memory]]
      refine { hb with nonneg := ?_, le := ?_, reads := fun r hr => ?_ }
      · dsimp only
        omega
      · dsimp only
        omega
      · rcases mem_append.mp hr with hr | hr
        · exact hb.reads r hr
        · have := hplaces r hr
          omega
  · intro b b' v b₁ hb hexec
    cases hcheck : b.tooSmall (size64 x) with
    | true =>
      rw [exec_bind_error (exec_check_of_true hcheck)] at hexec
      cases hexec
    | false =>
      obtain ⟨hnonneg, hle, -⟩ := hb.sound.fits hx hcheck
      obtain ⟨v', places, hplaces, htakes⟩ := ha hnonneg m b.unpackPtr
      have hstart := hb.sound.nonneg
      rw [exec_bind (exec_check_of_false hcheck), htakes b rfl fun k _ _ => by rw [hb.sound.memory]] at hexec
      obtain ⟨hv, hb₁⟩ := Prod.mk.inj hexec
      rw [exec_bind (exec_check_of_false (hb.check hcheck)),
        htakes b' hb.unpackPtr fun k hk hlt => hb.memory k (by omega) (by omega), hv, ← hb₁]
      refine ⟨_, rfl, ⟨{ hb.sound with nonneg := ?_, le := ?_, reads := fun r hr => ?_ }, hb.type, hb.memory, hb.packPtr, hb.bytesUsed,
        rfl, fun r hr => ?_⟩⟩
      · dsimp only
        omega
      · dsimp only
        omega
      · rcases mem_append.mp hr with hr | hr
        · exact hb.sound.reads r hr
        · have := hplaces r hr
          omega
      · rcases mem_append.mp hr with hr | hr
        · exact hb.reads r hr
        · have := hplaces r hr
          omega

theorem int32_bounds (n : ℤ) : -2 ^ 31 ≤ int32 n ∧ int32 n < 2 ^ 31 := ⟨Int.le_bmod (by decide), Int.bmod_lt (by decide)⟩

section Unpack

variable {n : ℤ} {w : ℕ} {type real : DataType}

theorem cut_unpackByte (hn : -2 ^ 31 ≤ n ∧ n < 2 ^ 31) : Cut t m p (unpackByte n) (unpackByte n) := by
  refine cut_checked (by omega) fun hnonneg => ?_
  obtain ⟨k, rfl⟩ := Int.eq_ofNat_of_zero_le hnonneg
  have hsize : size64 (k : ℤ) = k := by
    unfold size64
    omega
  rw [hsize]
  exact (Takes.copyBytes k).bind fun bytes => Takes.pure _

theorem cut_unpackInts (hn : -2 ^ 31 ≤ n ∧ n < 2 ^ 31) (hw : w = 2 ∨ w = 4 ∨ w = 8) : Cut t m p (unpackInts w n) (unpackInts w n) := by
  have hrange : -2 ^ 40 ≤ n * w ∧ n * w < 2 ^ 40 := by
    rcases hw with rfl | rfl | rfl
    all_goals omega
  refine cut_checked hrange fun hnonneg => ?_
  have hn : 0 ≤ n := by
    rcases hw with rfl | rfl | rfl
    all_goals omega
  obtain ⟨k, rfl⟩ := Int.eq_ofNat_of_zero_le hn
  rw [← Int.natCast_mul, Int.toNat_natCast, Int.toNat_natCast]
  exact (Takes.copyInts w k).bind fun vals => Takes.pure _

theorem cut_unpackCount : Cut t m p unpackCount unpackCount :=
  (cut_unpackInts (by omega) (.inr (.inl rfl))).bind fun vals => Cut.pure _

theorem cut_getDataType : Cut t m p getDataType getDataType := (cut_unpackByte (by omega)).bind fun vals => Cut.pure _

theorem cut_counted {f f' : ℤ → Action Loaded Err α} (h : ∀ n, -2 ^ 31 ≤ n ∧ n < 2 ^ 31 → Cut t m p (f n) (f' n)) :
    Cut t m p (unpackCount >>= f) (unpackCount >>= f') := by
  have hassoc : ∀ f : ℤ → Action Loaded Err α, unpackCount >>= f = unpackInts 4 1 >>= fun vals => f (int32 (vals.headD .garbage).toNat) :=
    fun f => by
      rw [unpackCount, bind_assoc]
      simp only [pure_bind]
  rw [hassoc, hassoc]
  exact (cut_unpackInts (by omega) (.inr (.inl rfl))).bind fun vals => h _ (int32_bounds _)

theorem cut_expect (type : DataType) (err : Err) : Cut t m p (expect type err) (expect type err) := by
  refine Cut.get fun b b' hb hb' => ?_
  rw [hb, hb']
  split
  · refine cut_getDataType.bind fun localType => ?_
    split
    · exact Cut.pure _
    · exact Cut.throw _
  · exact Cut.pure _

theorem cut_onCopy {a a' : Action Loaded Err α} (h : Cut t m p a a') : Cut t m p (onCopy a) (onCopy a') := by
  constructor
  · intro b hb
    exact { hb with reads := (h.keeps b hb).reads }
  · intro b b' v b₁ hb hexec
    cases hcopy : exec a b with
    | mk result tmp =>
      have hkeeps := h.keeps b hb.sound
      rw [hcopy] at hkeeps
      have honCopy : exec (onCopy a) b = (result, { b with reads := tmp.reads }) := by
        show ((exec a b).1, { b with reads := (exec a b).2.reads }) = _
        rw [hcopy]
      rw [honCopy] at hexec
      obtain ⟨rfl, rfl⟩ := Prod.mk.inj hexec
      obtain ⟨tmp', hcopy', hagree⟩ := h.follows b b' v tmp hb hcopy
      refine ⟨{ b' with reads := tmp'.reads }, ?_, ?_⟩
      · show ((exec a' b').1, { b' with reads := (exec a' b').2.reads }) = _
        rw [hcopy']
      · exact { hb with sound := { hb.sound with reads := hkeeps.reads }, reads := hagree.reads }

theorem Agree.left (h : Agree t m p b b') (hleft : ¬b.bytesUsed ≤ b.unpackPtr) : ¬b'.bytesUsed ≤ b'.unpackPtr := by
  rw [h.sound.bytesUsed] at hleft
  rw [h.bytesUsed, h.unpackPtr]
  have := h.packPtr
  omega

theorem cut_peekType : Cut t m p peekType peekType := by
  have hcopy : Cut t m p (onCopy getDataType) (onCopy getDataType) := cut_onCopy cut_getDataType
  constructor
  · refine Keeps.get fun b hb => ?_
    split
    · exact Keeps.throw _
    · split
      · exact Keeps.throw _
      · exact hcopy.keeps
  · refine Follows.get fun b b' hb => ?_
    rw [hb.sound.type, hb.type]
    split
    · exact Follows.throw _ _
    · split
      · exact Follows.throw _ _
      · rename_i hleft
        rw [if_neg (hb.left hleft)]
        exact hcopy.follows

theorem cut_peek : Cut t m p peek peek := by
  have hcopy : Cut t m p
      (onCopy do
        let localType ← getDataType
        if localType ≠ DataType.int32.code then throw .unpackFailure
        else do
          let numVals ← unpackCount
          let type ← getDataType
          return (type, numVals))
      (onCopy do
        let localType ← getDataType
        if localType ≠ DataType.int32.code then throw .unpackFailure
        else do
          let numVals ← unpackCount
          let type ← getDataType
          return (type, numVals)) := by
    refine cut_onCopy (cut_getDataType.bind fun localType => ?_)
    split
    · exact Cut.throw _
    · exact cut_unpackCount.bind fun numVals => cut_getDataType.bind fun type => Cut.pure _
  constructor
  · refine Keeps.get fun b hb => ?_
    split
    · exact Keeps.throw _
    · split
      · exact Keeps.throw _
      · exact hcopy.keeps
  · refine Follows.get fun b b' hb => ?_
    rw [hb.sound.type, hb.type]
    split
    · exact Follows.throw _ _
    · rename_i hleft
      rw [if_neg (hb.left hleft)]
      split
      · exact Follows.throw _ _
      · exact hcopy.follows

theorem cut_unpackFixed (hn : -2 ^ 31 ≤ n ∧ n < 2 ^ 31) : Cut t m p (unpackFixed type n) (unpackFixed type n) := by
  unfold unpackFixed
  split
  · exact cut_unpackByte hn
  · exact cut_unpackByte hn
  · exact cut_unpackByte hn
  · exact cut_unpackByte hn
  · exact cut_unpackInts hn (.inl rfl)
  · exact cut_unpackInts hn (.inl rfl)
  · exact cut_unpackInts hn (.inr (.inl rfl))
  · exact cut_unpackInts hn (.inr (.inl rfl))
  · exact cut_unpackInts hn (.inr (.inr rfl))
  · exact cut_unpackInts hn (.inr (.inr rfl))
  · exact Cut.throw _

theorem cut_unpackSizeMismatch {code : Byte} (hn : -2 ^ 31 ≤ n ∧ n < 2 ^ 31) :
    Cut t m p (unpackSizeMismatch type w code n) (unpackSizeMismatch type w code n) := by
  unfold unpackSizeMismatch
  split
  · exact Cut.throw _
  · split
    · exact Cut.throw _
    · exact (cut_expect _ _).bind fun _ => (cut_unpackFixed hn).bind fun vals => Cut.pure _

theorem cut_unpackSystem (hn : -2 ^ 31 ≤ n ∧ n < 2 ^ 31) : Cut t m p (unpackSystem type real w n) (unpackSystem type real w n) := by
  have hrest : ∀ code : Byte, Cut t m p
      (if code = real.code then do expect real .packMismatch; unpackFixed real n else unpackSizeMismatch type w code n)
      (if code = real.code then do expect real .packMismatch; unpackFixed real n else unpackSizeMismatch type w code n) := by
    intro code
    split
    · exact (cut_expect _ _).bind fun _ => cut_unpackFixed hn
    · exact cut_unpackSizeMismatch hn
  unfold unpackSystem
  refine Cut.get fun b b' hb hb' => ?_
  rw [hb, hb']
  split
  · exact cut_peekType.bind hrest
  · exact cut_getDataType.bind hrest

theorem cut_unpackStr : Cut t m p unpackStr unpackStr := by
  refine cut_counted fun len hlen => ?_
  split
  · exact Cut.pure _
  · split
    · exact Cut.throw _
    · exact (cut_unpackByte hlen).bind fun bytes => Cut.pure _

theorem cut_unpackObject : Cut t m p unpackObject unpackObject := by
  refine cut_counted fun size hsize => ?_
  split
  · exact (cut_unpackByte hsize).bind fun bytes => Cut.pure _
  · split
    · exact Cut.pure _
    · exact Cut.pure _

theorem cut_unpackPlain (hn : -2 ^ 31 ≤ n ∧ n < 2 ^ 31) : Cut t m p (unpackPlain type n) (unpackPlain type n) := by
  unfold unpackPlain
  split
  · exact cut_unpackSystem hn
  · exact cut_unpackSystem hn
  · exact cut_unpackSystem hn
  · exact cut_unpackSystem hn
  · exact cut_unpackSystem hn
  · exact Cut.mapM (fun _ => cut_unpackStr) _
  · exact Cut.mapM (fun _ => cut_unpackObject) _
  · exact (cut_expect _ _).bind fun _ => cut_unpackByte hn
  · exact cut_unpackFixed hn

theorem cut_unpackValue : ∀ {depth depth' : ℕ}, depth ≤ depth' → ∀ dest, Cut t m p (unpackValue depth dest) (unpackValue depth' dest)
  | 0, depth', _, dest => ⟨Keeps.throw _, Follows.throw _ _⟩
  | depth + 1, 0, h, dest => absurd h (Nat.not_succ_le_zero _)
  | depth + 1, depth' + 1, h, dest => by
    refine cut_getDataType.bind fun code => ?_
    split
    · exact Cut.throw _
    · exact Cut.pure _
    · exact Cut.pure _
    · refine (cut_expect _ _).bind fun _ => ?_
      split
      · exact (cut_unpackValue (Nat.le_of_succ_le_succ h) _).bind fun data => Cut.pure _
      · exact (cut_unpackPlain (by omega)).bind fun vals => Cut.pure _

theorem cut_unpackDataValue (dest : List Value) : Cut t m p (unpackDataValue dest) (unpackDataValue dest) := by
  constructor
  · exact Keeps.get fun b hb => Keeps.mapM (fun d => (cut_unpackValue (le_rfl) d).keeps) dest
  · refine Follows.get fun b b' hb => Follows.mapM (fun d => (cut_unpackValue ?_ d).follows) dest
    rw [hb.sound.bytesUsed, hb.bytesUsed]
    have := hb.packPtr
    omega

theorem cut_unpackBuffer (hn : -2 ^ 31 ≤ n ∧ n < 2 ^ 31) (dest : List Value) :
    Cut t m p (unpackBuffer type n dest) (unpackBuffer type n dest) := by
  refine (cut_expect _ _).bind fun _ => ?_
  split
  · exact cut_unpackDataValue _
  · exact cut_unpackPlain hn

theorem cut_unpack (type : DataType) (dest : List Value) : Cut t m p (unpack type dest) (unpack type dest) := by
  unfold unpack
  split
  · exact Cut.throw _
  · refine (cut_expect _ _).bind fun _ => cut_counted fun localNum hlocal => ?_
    split
    · exact (cut_unpackBuffer (by omega) dest).bind fun vals => Cut.pure _
    · exact (cut_unpackBuffer hlocal dest).bind fun vals => Cut.pure _

end Unpack

section Programs

variable {around : ℤ → Byte} {payload : List Byte}

theorem sound_load (hne : payload ≠ []) (hsmall : payload.length < 2 ^ 31) :
    Sound (load around payload).type (load around payload).memory (payload.length - 1) (load around payload) where
  type := rfl
  memory := rfl
  packPtr := rfl
  bytesUsed := rfl
  small := by omega
  nonneg := Int.le_refl 0
  le := by
    have := length_pos_iff.mpr hne
    show (0 : ℤ) ≤ _
    omega
  reads r hr := by
    have := length_pos_iff.mpr hne
    rw [mem_singleton.mp hr]
    dsimp only
    omega

theorem ask_unpack (type : DataType) (dest : List Value) : (b.ask (.unpack type dest)).2 = (exec (unpack type dest) b).2 := by
  unfold ask
  dsimp only
  split
  · rename_i h
    rw [h]
  · rename_i h
    rw [h]

theorem ask_peek : (b.ask .peek).2 = (exec peek b).2 := by
  unfold ask
  dsimp only
  split
  · rename_i h
    rw [h]
  · rename_i h
    rw [h]

theorem Sound.ask (h : Sound t m p b) (query : Query) : Sound t m p (b.ask query).2 := by
  cases query with
  | unpack type dest =>
    rw [ask_unpack]
    exact (cut_unpack type dest).keeps b h
  | peek =>
    rw [ask_peek]
    exact cut_peek.keeps b h

theorem Sound.after (h : Sound t m p b) (queries : List Query) : Sound t m p (b.after queries) := by
  unfold Loaded.after
  induction queries generalizing b with
  | nil => exact h
  | cons query queries ih => exact ih (h.ask query)

theorem Sound.extended (h : Sound t m p b) (more : List Byte) : Agree t m p b (b.extended more) where
  sound := h
  type := h.type
  memory k _ hk := by
    rw [Loaded.extended, h.packPtr]
    dsimp only
    rw [if_neg (by omega), h.memory]
  packPtr := by
    rw [Loaded.extended, h.packPtr]
    dsimp only
    omega
  bytesUsed := by
    rw [Loaded.extended, h.packPtr, h.bytesUsed]
  unpackPtr := rfl
  reads r hr := nomatch hr

theorem Agree.ask (h : Agree t m p b b') {query : Query} (hok : (b.ask query).1 = none) :
    ∀ r ∈ (b'.ask query).2.reads, r.1 + r.2 ≤ p := by
  cases query with
  | unpack type dest =>
    unfold Loaded.ask at hok
    dsimp only at hok
    split at hok
    · rename_i v b₁ hexec
      obtain ⟨b₁', hexec', hagree⟩ := (cut_unpack type dest).follows b b' v b₁ h hexec
      rw [ask_unpack, hexec']
      exact fun r hr => (hagree.reads r hr).2
    · cases hok
  | peek =>
    unfold Loaded.ask at hok
    dsimp only at hok
    split at hok
    · rename_i v b₁ hexec
      obtain ⟨b₁', hexec', hagree⟩ := cut_peek.follows b b' v b₁ h hexec
      rw [ask_peek, hexec']
      exact fun r hr => (hagree.reads r hr).2
    · cases hok

theorem onCopy_stays {a : Action Loaded Err α} (b : Loaded) : ∃ reads, (exec (onCopy a) b).2 = { b with reads := reads } := ⟨_, rfl⟩

theorem peek_stays (b : Loaded) : ∃ reads, (b.ask .peek).2 = { b with reads := reads } := by
  rw [ask_peek, peek, exec_bind (exec_get b)]
  split
  · exact ⟨b.reads, rfl⟩
  · split
    · exact ⟨b.reads, rfl⟩
    · exact onCopy_stays b

/-- After any calls on a buffer with this payload the pointers are in order and all reads were in it, a call that would read on with more
bytes after those that are left fails, and peeking leaves the buffer as it is. -/
structure Safe (payload : List Byte) : Prop where
  pointers : ∀ around queries, ((load around payload).after queries).unpackPtr ≤ ((load around payload).after queries).packPtr
  reads : ∀ around queries, ∀ r ∈ ((load around payload).after queries).reads, 0 ≤ r.1 ∧ r.1 + r.2 ≤ payload.length
  needs : ∀ around queries query more, ∀ r ∈ ((((load around payload).after queries).extended more).ask query).2.reads,
    ((load around payload).after queries).packPtr < r.1 + r.2 → (((load around payload).after queries).ask query).1 ≠ none
  peek : ∀ around queries, ∃ reads,
    (((load around payload).after queries).ask .peek).2 = { (load around payload).after queries with reads := reads }

theorem safe_of_ne_nil (hne : payload ≠ []) (hsmall : payload.length < 2 ^ 31) : Safe payload where
  pointers around queries := by
    have h := (@sound_load around _ hne hsmall).after queries
    rw [h.packPtr]
    exact h.le
  reads around queries r hr := by
    have h := ((sound_load hne hsmall).after queries).reads r hr
    omega
  needs around queries query more r hr hbeyond hok := by
    have h := (@sound_load around _ hne hsmall).after queries
    have hle := (h.extended more).ask hok r hr
    rw [h.packPtr] at hbeyond
    omega
  peek around queries := peek_stays _

theorem not_safe_nil : ¬Safe [] := fun h => absurd (h.reads (fun _ => 0) [] (-1, 1) mem_cons_self).1 (by decide)

theorem safe_iff (hsmall : payload.length < 2 ^ 31) : Safe payload ↔ payload ≠ [] := by
  constructor
  · rintro h rfl
    exact not_safe_nil h
  · exact fun hne => safe_of_ne_nil hne hsmall

theorem safe_iff_negative : Safe [9, 255, 255, 255, 255, 3, 1] ↔ ([9, 255, 255, 255, 255, 3, 1] : List Byte) ≠ [] :=
  safe_iff (by decide)

theorem not_safe_empty : ¬∀ payload : List Byte, payload.length < 2 ^ 31 → Safe payload := fun h => not_safe_nil (h [] (by decide))

end Programs

end OpenMPI.Dss.Loaded
