import OpenMPI.Lib.Run
import OpenMPI.Proofs.Dss.Unpack

/-!
# Buffers are queues

Every buffer holds the bytes of its queue, and every call that is careful keeps it so and returns what it should.
-/

namespace OpenMPI.Dss

open OpenMPI.Lib List
open OpenMPI.Lib.Action

variable {P : Params}

def encodeAll (t : BufferType) (items : List Item) : List Byte := items.flatMap (encode t)

theorem encodeAll_append (t : BufferType) (items items' : List Item) :
    encodeAll t (items ++ items') = encodeAll t items ++ encodeAll t items' := flatMap_append

theorem encodeAll_eq_nil {t : BufferType} {items : List Item} : encodeAll t items = [] ↔ items = [] := by
  constructor
  · intro h
    cases items with
    | nil => rfl
    | cons item items =>
      rw [encodeAll, flatMap_cons, append_eq_nil_iff] at h
      exact absurd h.1 (encode_ne_nil t item)
  · rintro rfl
    rfl

structure Good (item : Item) : Prop where
  undef : item.1 ≠ .undef
  count : item.2.length < 2 ^ 31
  has : ∀ v ∈ item.2, v.Has item.1
  safe : ∀ v ∈ item.2, v.Safe

structure Agree (b : Buffer) (q : Queue) : Prop where
  type : b.type = q.type
  holds : b.Holds (encodeAll q.type q.read) (encodeAll q.type q.unread)
  good : ∀ item ∈ q.unread, Good item

variable {b : Buffer} {q : Queue}

theorem agree_new (t : BufferType) : Agree (.new t) ⟨t, [], []⟩ := ⟨rfl, Buffer.holds_new t, fun _ h => absurd h not_mem_nil⟩

section

variable (h : Agree b q)

include h

theorem Agree.bytesUsed_eq_zero : b.bytesUsed = 0 ↔ q.read = [] ∧ q.unread = [] := by
  rw [h.holds.used, length_eq_zero_iff, append_eq_nil_iff, encodeAll_eq_nil, encodeAll_eq_nil]

theorem Agree.unpackPtr_eq_zero : b.unpackPtr = 0 ↔ q.read = [] := by
  rw [h.holds.unpackPtr, length_eq_zero_iff, encodeAll_eq_nil]

theorem Agree.pack {type : DataType} {vals : List Value} (hitem : Good (type, vals)) :
    ∃ b', exec (pack P type vals) b = (.ok (), b') ∧ Agree b' { q with unread := q.unread ++ [(type, vals)] } := by
  obtain ⟨b', hexec, htype, hb'⟩ := h.holds.pack (P := P) hitem.undef hitem.has hitem.safe
  refine ⟨b', hexec, htype.trans h.type, ?_, ?_⟩
  · rw [h.type] at hb'
    dsimp only
    rw [encodeAll_append, encodeAll, encodeAll, encodeAll, flatMap_singleton]
    exact hb'
  · intro item' hitem'
    rcases mem_append.mp hitem' with hold | hnew
    · exact h.good item' hold
    · exact mem_singleton.mp hnew ▸ hitem

theorem Agree.unpack_nil (hq : q.unread = []) (type : DataType) {dest : List Value} (hne : dest ≠ []) :
    exec (unpack type dest) b = (.error .readPastEnd, b) := by
  have hb := h.holds
  rw [hq] at hb
  unfold unpack
  rw [if_neg (by rwa [length_eq_zero_iff])]
  cases htype : b.type with
  | nonDesc =>
    have hexpect : exec (expect .int32 .unpackFailure) b = (.ok (), b) := by
      unfold expect
      rw [exec_bind (exec_get b), htype]
      rfl
    have hcount : exec unpackCount b = (.error .readPastEnd, b) :=
      exec_bind_error (exec_bind_error (hb.take_past (Nat.zero_lt_succ 3)))
    rw [exec_bind hexpect, exec_bind_error hcount]
  | fullyDesc =>
    have hexpect : exec (expect .int32 .unpackFailure) b = (.error .readPastEnd, b) := by
      unfold expect
      rw [exec_bind (exec_get b), htype]
      exact exec_bind_error (exec_bind_error (hb.take_past one_pos))
    rw [exec_bind_error hexpect]

theorem Agree.unpack_cons {item : Item} {rest : List Item} (hq : q.unread = item :: rest) {dest : List Value}
    (hne : dest ≠ []) (hroom : item.2.length ≤ dest.length)
    (hdest : ∀ k : ℕ, item.2[k]? = some Value.noValue → dest[k]? = some Value.noValue) :
    ∃ b', exec (unpack item.1 dest) b = (.ok (true, item.2), b') ∧ Agree b' ⟨q.type, q.read ++ [item], rest⟩ := by
  have hitem := h.good item (hq ▸ mem_cons_self)
  have hb := h.holds
  rw [hq, encodeAll, encodeAll, flatMap_cons] at hb
  have hbase : b.base ≠ none := by
    intro hnone
    have := (h.holds.of_base_none hnone).2
    rw [encodeAll_eq_nil, hq] at this
    cases this
  obtain ⟨b', hexec, hb'⟩ := reads_unpack (t := q.type) hitem.undef hitem.count hitem.has hitem.safe hne hroom hdest b _ _
    ⟨h.type, hbase, hb⟩
  refine ⟨b', hexec, hb'.type, ?_, ?_⟩
  · dsimp only
    rw [encodeAll_append, encodeAll, encodeAll, encodeAll, flatMap_singleton]
    exact hb'.holds
  · intro item' hitem'
    exact h.good item' (hq ▸ mem_cons_of_mem _ hitem')

theorem Agree.copyPayload {src : Buffer} {qs : Queue} (hs : Agree src qs)
    (hsize : src.bytesUsed - src.unpackPtr < 2 ^ 31) (hok : (q.read = [] ∧ q.unread = []) ∨ q.type = qs.type) :
    ∃ b', exec (copyPayload P src) b = (.ok (), b') ∧ Agree b' ⟨qs.type, q.read, q.unread ++ qs.unread⟩ := by
  have hb : Buffer.Holds { b with type := qs.type } (encodeAll qs.type q.read) (encodeAll qs.type q.unread) := by
    rcases hok with ⟨hread, hunread⟩ | htype
    · have hb := h.holds
      rw [hread, hunread] at hb ⊢
      exact ⟨hb.used, hb.packPtr, hb.unpackPtr, hb.fits, hb.allocated, hb.held⟩
    · rw [← htype]
      exact ⟨h.holds.used, h.holds.packPtr, h.holds.unpackPtr, h.holds.fits, h.holds.allocated, h.holds.held⟩
  have hgood : ∀ item ∈ q.unread ++ qs.unread, Good item := by
    intro item hitem
    rcases mem_append.mp hitem with hq | hq
    · exact h.good item hq
    · exact hs.good item hq
  have hguard : ¬(b.bytesUsed ≠ 0 ∧ b.type ≠ src.type) := by
    rw [Ne, h.bytesUsed_eq_zero, h.type, hs.type]
    rintro ⟨hne, htype⟩
    rcases hok with hnil | heq
    · exact hne hnil
    · exact htype heq
  have hleft : src.bytesUsed - src.unpackPtr = (encodeAll qs.type qs.unread).length := by
    rw [hs.holds.used, hs.holds.unpackPtr, length_append, Nat.add_sub_cancel_left]
  unfold Dss.copyPayload
  rw [exec_bind (exec_get b), if_neg hguard, exec_bind (exec_set _ _), asInt32_of_lt hsize, hs.type]
  rcases hcase : encodeAll qs.type qs.unread with _ | ⟨byte, bytes⟩
  · have hnil : qs.unread = [] := encodeAll_eq_nil.mp hcase
    rw [hleft, hcase]
    refine ⟨{ b with type := qs.type }, rfl, rfl, ?_, hgood⟩
    dsimp only
    rwa [hnil, append_nil]
  · have hbytes : (src.mem.drop src.unpackPtr).take (src.bytesUsed - src.unpackPtr) = encodeAll qs.type qs.unread := by
      rw [← drop_take, hs.holds.held, hs.holds.unpackPtr, drop_left]
    obtain ⟨b', hexec, htype, -, hb'⟩ := hb.append (P := P) (encodeAll qs.type qs.unread) (.inl (by
      rw [hcase]
      exact Nat.zero_lt_succ _))
    refine ⟨b', ?_, htype, ?_, hgood⟩
    · have hpos : src.bytesUsed - src.unpackPtr = bytes.length + 1 := by
        rw [hleft, hcase]
        rfl
      rw [hpos] at hbytes ⊢
      rw [← hexec, ← hbytes]
      rfl
    · dsimp only
      rwa [encodeAll_append]

theorem Agree.transfer (hread : q.read = []) (hunread : q.unread ≠ []) (hsize : b.bytesUsed + 1 < 2 ^ 31)
    (b₂ : Buffer) : ∃ payload b', b.unload P = (Buffer.new q.type, some payload) ∧ b₂.load payload = .ok b' ∧
      Agree b' ⟨q.type, [], q.unread⟩ := by
  have hb := h.holds
  rw [hread] at hb
  obtain ⟨payload, b', hunload, hload, htype, hb'⟩ := hb.transfer (P := P) (mt encodeAll_eq_nil.mp hunread) (hb.used ▸ hsize) b₂
  rw [h.type] at hunload htype
  exact ⟨payload, b', hunload, hload, htype, hb', h.good⟩

end

/-- The call does not reach what the functions get wrong: values that do not come back are not packed, the entries for `NULL`
data values are `NULL` before, a buffer is unloaded before anything of it is unpacked, and sizes fit `int32_t`. -/
def Careful (w : World) (q : Queues) : Call → Prop
  | .pack _ _ vals => ∀ v ∈ vals, v.Safe
  | .unpack i _ dest =>
    ∀ item ∈ (q i).unread.head?, ∀ k : ℕ, item.2[k]? = some Value.noValue → dest[k]? = some Value.noValue
  | .transfer i _ => (w i).unpackPtr = 0 ∧ (w i).bytesUsed + 1 < 2 ^ 31
  | .copyPayload _ src => (w src).bytesUsed - (w src).unpackPtr < 2 ^ 31

def Agrees (w : World) (q : Queues) : Prop := ∀ i, Agree (w i) (q i)

variable {w : World} {qs : Queues}

theorem Agrees.update (h : Agrees w qs) (i : ℕ) (hb : Agree b q) : Agrees (Function.update w i b) (Function.update qs i q) := by
  intro j
  by_cases hj : j = i
  · subst hj
    rwa [Function.update_self, Function.update_self]
  · rw [Function.update_of_ne hj, Function.update_of_ne hj]
    exact h j

theorem World.on_eq {α : Type} {op : Action Buffer Err α} {i : ℕ} {result : Except Err α} (h : exec op (w i) = (result, b)) :
    w.on i op = (Function.update w i b, result) := by
  rw [on, h]

theorem World.on_ok {op : Action Buffer Err Unit} {i : ℕ} (h : exec op (w i) = (.ok (), b)) :
    w.on i (do op; return (true, ([] : List Value))) = (Function.update w i b, .ok (true, [])) :=
  on_eq (exec_bind h)

theorem World.on_same {α : Type} {op : Action Buffer Err α} {i : ℕ} {result : Except Err α} (h : exec op (w i) = (result, w i)) :
    w.on i op = (w, result) := by
  rw [on_eq h, Function.update_eq_self]

theorem Agrees.step (h : Agrees w qs) {c : Call} (hvalid : qs.Valid c) (hcare : Careful w qs c) :
    (w.step P c).2 = (qs.step c).2 ∧ Agrees (w.step P c).1 (qs.step c).1 := by
  cases c with
  | pack i type vals =>
    obtain ⟨hundef, hcount, hhas⟩ := hvalid
    obtain ⟨b', hexec, hb'⟩ := (h i).pack (P := P) ⟨hundef, hcount, hhas, hcare⟩
    have hstep : w.step P (.pack i type vals) = (Function.update w i b', .ok (true, [])) :=
      World.on_ok hexec
    rw [hstep]
    exact ⟨rfl, h.update i hb'⟩
  | unpack i type dest =>
    obtain ⟨hne, hroom⟩ := hvalid
    cases hq : (qs i).unread with
    | nil =>
      have hstep : w.step P (.unpack i type dest) = (w, .error .readPastEnd) :=
        World.on_same ((h i).unpack_nil hq type hne)
      have hqueue : qs.step (.unpack i type dest) = (qs, .error .readPastEnd) := by
        simp only [Queues.step, hq]
      rw [hstep, hqueue]
      exact ⟨rfl, h⟩
    | cons item rest =>
      have hhead : item ∈ (qs i).unread.head? := by rw [hq]; rfl
      obtain ⟨rfl, hlength⟩ := hroom item hhead
      obtain ⟨b', hexec, hb'⟩ := (h i).unpack_cons hq hne hlength (hcare item hhead)
      have hstep : w.step P (.unpack i item.1 dest) = (Function.update w i b', .ok (true, item.2)) := World.on_eq hexec
      have hqueue : qs.step (.unpack i item.1 dest) =
          (Function.update qs i ⟨(qs i).type, (qs i).read ++ [item], rest⟩, .ok (true, item.2)) := by
        simp only [Queues.step, hq]
      rw [hstep, hqueue]
      exact ⟨rfl, h.update i hb'⟩
  | transfer i j =>
    obtain ⟨hptr, hsize⟩ := hcare
    have hread := (h i).unpackPtr_eq_zero.mp hptr
    by_cases hunread : (qs i).unread = []
    · have hunload : (w i).unload P = (w i, none) := by
        rw [Buffer.unload, if_pos (.inr ((h i).bytesUsed_eq_zero.mpr ⟨hread, hunread⟩))]
      have hstep : w.step P (.transfer i j) = (w, .ok (true, [])) := by
        simp only [World.step, hunload, Buffer.load, Function.update_eq_self]
      have hqueue : qs.step (.transfer i j) = (qs, .ok (true, [])) := if_pos ⟨hread, hunread⟩
      rw [hstep, hqueue]
      exact ⟨rfl, h⟩
    · obtain ⟨payload, b', hunload, hload, hb'⟩ := (h i).transfer (P := P) hread hunread hsize
        (Function.update w i (.new (qs i).type) j)
      have hstep : w.step P (.transfer i j) =
          (Function.update (Function.update w i (.new (qs i).type)) j b', .ok (true, [])) := by
        simp only [World.step, hunload, hload]
      have hqueue : qs.step (.transfer i j) =
          (Function.update (Function.update qs i ⟨(qs i).type, [], []⟩) j ⟨(qs i).type, [], (qs i).unread⟩, .ok (true, [])) :=
        if_neg fun hnil => hunread hnil.2
      rw [hstep, hqueue]
      exact ⟨rfl, (h.update i (agree_new _)).update j hb'⟩
  | copyPayload dest src =>
    by_cases hok : (((qs dest).read = [] ∧ (qs dest).unread = []) ∨ (qs dest).type = (qs src).type)
    · obtain ⟨b', hexec, hb'⟩ := (h dest).copyPayload (P := P) (h src) hcare hok
      have hstep : w.step P (.copyPayload dest src) = (Function.update w dest b', .ok (true, [])) :=
        World.on_ok hexec
      have hqueue : qs.step (.copyPayload dest src) =
          (Function.update qs dest ⟨(qs src).type, (qs dest).read, (qs dest).unread ++ (qs src).unread⟩, .ok (true, [])) := by
        refine if_neg ?_
        rintro ⟨hne, htype⟩
        rcases hok with hnil | heq
        · exact hne hnil
        · exact htype heq
      rw [hstep, hqueue]
      exact ⟨rfl, h.update dest hb'⟩
    · rw [not_or] at hok
      have hstep : w.step P (.copyPayload dest src) = (w, .error .buffer) := by
        have hexec : exec (copyPayload P (w src)) (w dest) = (.error .buffer, w dest) := by
          unfold copyPayload
          rw [exec_bind (exec_get _), if_pos]
          · rfl
          · rw [Ne, (h dest).bytesUsed_eq_zero, (h dest).type, (h src).type]
            exact hok
        exact World.on_same (exec_bind_error hexec)
      have hqueue : qs.step (.copyPayload dest src) = (qs, .error .buffer) := if_pos hok
      rw [hstep, hqueue]
      exact ⟨rfl, h⟩

variable (P) (types : ℕ → BufferType)

theorem World.after_concat (l : List Call) (c : Call) : after P types (l ++ [c]) = ((after P types l).step P c).1 := by
  rw [after, foldl_append]
  rfl

theorem Queues.after_concat (l : List Call) (c : Call) : after types (l ++ [c]) = ((after types l).step c).1 := by
  rw [after, foldl_append]
  rfl

def Fine (l : List Call) (c : Call) : Prop :=
  (Queues.after types l).Valid c ∧ Careful (World.after P types l) (Queues.after types l) c

theorem agrees_after (calls : List Call) (h : ∀ l c, l ++ [c] <+: calls → Fine P types l c) :
    Agrees (World.after P types calls) (Queues.after types calls) := by
  refine calls_invariant (P := fun l => Agrees (World.after P types l) (Queues.after types l)) (fun i => agree_new _)
    (fun l c hl hcare => ?_) calls h
  rw [World.after_concat, Queues.after_concat]
  exact (hl.step hcare.1 hcare.2).2

/-- As long as the calls are careful, each returns what the queues say, and the pointers of every buffer are consistent. -/
theorem buffers_are_queues (calls : List Call) (h : ∀ l c, l ++ [c] <+: calls → Fine P types l c) (l : List Call) (c : Call)
    (hl : l ++ [c] <+: calls) :
    ((World.after P types l).step P c).2 = ((Queues.after types l).step c).2 ∧
      ∀ i, (World.after P types (l ++ [c]) i).Consistent := by
  have hbefore : Agrees (World.after P types l) (Queues.after types l) :=
    agrees_after P types l fun l' c' hl' => h l' c' (hl'.trans ((prefix_append l [c]).trans hl))
  obtain ⟨hresult, hafter⟩ := hbefore.step (P := P) (h l c hl).1 (h l c hl).2
  refine ⟨hresult, fun i => ?_⟩
  rw [World.after_concat]
  exact (hafter i).holds.consistent

theorem buffers_are_queues_strings :
    let strings := [Value.string none, .string (some [79, 77])]
    let packed := [Call.pack 0 .string strings]
    ((World.after .default (fun _ => .fullyDesc) packed).step .default (.unpack 0 .string [.garbage, .garbage])).2 =
        .ok (true, strings) ∧
      ∀ i, (World.after .default (fun _ => .fullyDesc) (packed ++ [.unpack 0 .string [.garbage, .garbage]]) i).Consistent := by
  intro strings packed
  have hfine : ∀ l c, l ++ [c] <+: packed ++ [.unpack 0 .string [.garbage, .garbage]] →
      Fine .default (fun _ => .fullyDesc) l c := by
    rw [calls_concat, show packed = [] ++ packed from rfl, calls_concat]
    refine ⟨⟨fun l c h => absurd h (by simp), ?_⟩, ?_⟩
    · simp [Fine, strings, Queues.Valid, Careful, Value.Has, Value.Safe]
    · have hqueue : Queues.after (fun _ => .fullyDesc) ([] ++ packed) 0 = ⟨.fullyDesc, [], [(.string, strings)]⟩ := rfl
      refine ⟨⟨by simp, ?_⟩, ?_⟩
      · rw [hqueue]
        simp [strings]
      · intro item hitem k
        rw [hqueue] at hitem
        cases hitem
        rcases k with _ | _ | k <;> simp [strings]
  exact buffers_are_queues .default (fun _ => .fullyDesc) _ hfine packed _ prefix_rfl

/-- A `NULL` data value leaves the entry that it is unpacked into as it was. -/
theorem not_queue_null : ¬∀ (P : Params) (types : ℕ → BufferType) (calls : List Call),
    (∀ l c, l ++ [c] <+: calls → (Queues.after types l).Valid c) → ∀ l c, l ++ [c] <+: calls →
      ((World.after P types l).step P c).2 = ((Queues.after types l).step c).2 ∧
        ∀ i, (World.after P types (l ++ [c]) i).Consistent := by
  intro h
  let packed := [Call.pack 0 .dataValue [.noValue]]
  let unpack := Call.unpack 0 .dataValue [.undef]
  have hqueue : Queues.after (fun _ => .nonDesc) packed 0 = ⟨.nonDesc, [], [(.dataValue, [.noValue])]⟩ := rfl
  have hvalid : ∀ l c, l ++ [c] <+: packed ++ [unpack] → (Queues.after (fun _ => .nonDesc) l).Valid c := by
    rw [calls_concat, show packed = [] ++ packed from rfl, calls_concat]
    refine ⟨⟨fun l c h => absurd h (by simp), ?_⟩, ?_⟩
    · simp [Queues.Valid, Value.Has]
    · refine ⟨by simp, ?_⟩
      change ∀ item ∈ (Queues.after (fun _ => .nonDesc) packed 0).unread.head?, _
      rw [hqueue]
      simp
  obtain ⟨hresult, -⟩ := h .default (fun _ => .nonDesc) (packed ++ [unpack]) hvalid packed unpack prefix_rfl
  have hcode : ((World.after .default (fun _ => .nonDesc) packed).step .default unpack).2 = .ok (true, [.undef]) := rfl
  have hshould : ((Queues.after (fun _ => .nonDesc) packed).step unpack).2 = .ok (true, [.noValue]) := rfl
  rw [hcode, hshould] at hresult
  cases hresult

end OpenMPI.Dss
