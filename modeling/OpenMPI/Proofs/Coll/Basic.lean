import OpenMPI.Coll.Basic
import OpenMPI.Lib.Bits
import OpenMPI.Lib.Spanning

/-!
# The basic reductions
-/

namespace OpenMPI.Coll

open Lib Nat
open List hiding rotate

variable {α : Type*} {n count : ℕ} {op : Op α} {m : ℕ → Bufs BasicBuf α}

def Own (inPlace : Bool) (m : ℕ → Bufs BasicBuf α) (r i : ℕ) : α :=
  m r (if inPlace then .rbuf else .sbuf) i

theorem chain_gives {P : ℕ → List (Instr (Bufs BasicBuf α) α)} (e : ℕ → ℕ → α)
    (post : ℕ → Bufs BasicBuf α → Prop)
    (h : ∀ r < n, Does (P r) (fun s => if s + 1 = r then [slice (e s) 0 count] else [])
      (fun d => if d = r + 1 ∧ d < n then [slice (e r) 0 count] else []) (m r) (post r)) :
    Gives n P m fun m' => ∀ r < n, post r (m' r) := by
  refine Gives.ordered post (fun s d => if d = s + 1 ∧ d < n then [slice (e s) 0 count] else []) id
    (fun s d hne => ?_) fun r hr => (h r hr).congr (fun s => ?_) fun _ => rfl
  · split_ifs at hne with hsd
    · obtain ⟨rfl, hd⟩ := hsd
      exact ⟨lt_of_succ_lt hd, hd, s.lt_succ_self⟩
    · exact absurd rfl hne
  · exact if_congr ⟨fun h => ⟨h.symm, hr⟩, fun h => h.1.symm⟩ rfl rfl

def Result (count : ℕ) (inPlace : Bool) (m₀ : Bufs BasicBuf α) (f : ℕ → α) (m' : Bufs BasicBuf α) :
    Prop :=
  (∀ i < count, m' .rbuf i = f i) ∧ (inPlace = false → m' .sbuf = m₀ .sbuf)

theorem scanIntra_does {r : ℕ} (hr : r < n) (inPlace : Bool) :
    Does (scanIntra n r count op inPlace)
      (fun s => if s + 1 = r then [slice (fun i => upTo op.fn (Own inPlace m · i) s) 0 count] else [])
      (fun d => if d = r + 1 ∧ d < n then [slice (fun i => upTo op.fn (Own inPlace m · i) r) 0 count]
        else []) (m r) (Result count inPlace (m r) fun i => upTo op.fn (Own inPlace m · i) r) := by
  have hown : Does (if inPlace then [] else [.copyBuf .sbuf 0 .rbuf 0 count]) .nothing .nothing (m r)
      (Result count inPlace (m r) (Own inPlace m r)) := by
    cases inPlace with
    | true => exact .nil ⟨fun _ _ => rfl, nofun⟩
    | false => exact Does.copyBuf ⟨fun i hi => by simp [hi, Own], fun _ => by simp⟩
  have hprior (m₁ : Bufs BasicBuf α) (h₁ : Result count inPlace (m r) (Own inPlace m r) m₁) :
      Does (if r = 0 then [] else
          [.recvBuf (r - 1) .freeBuffer 0 count, opReduce op .freeBuffer 0 .rbuf 0 count])
        (fun s => if s + 1 = r then [slice (fun i => upTo op.fn (Own inPlace m · i) s) 0 count] else [])
        .nothing m₁ (Result count inPlace (m r) fun i => upTo op.fn (Own inPlace m · i) r) := by
    cases r with
    | zero => exact .nil h₁
    | succ r =>
      have hdoes : Does [.recvBuf r .freeBuffer 0 count, opReduce op .freeBuffer 0 .rbuf 0 count]
          ((Mail.one r (slice (fun i => upTo op.fn (Own inPlace m · i) r) 0 count)).append .nothing)
          .nothing m₁
          (Result count inPlace (m (r + 1)) fun i => upTo op.fn (Own inPlace m · i) (r + 1)) := by
        refine Does.recvBuf_cons (le_rfl) (Does.reduceBuf ⟨fun i hi => ?_, fun hin => ?_⟩)
        · simp [hi, h₁.1 i hi, upTo]
        · simp [h₁.2 hin]
      refine hdoes.congr (fun s => ?_) fun _ => rfl
      rw [Mail.append_nothing, Mail.one_apply fun s =>
        slice (fun i => upTo op.fn (Own inPlace m · i) s) 0 count]
      exact if_congr succ_inj.symm rfl rfl
  have hnext (m₂ : Bufs BasicBuf α)
      (h₂ : Result count inPlace (m r) (fun i => upTo op.fn (Own inPlace m · i) r) m₂) :
      Does (if r < n - 1 then [.sendBuf (r + 1) .rbuf 0 count] else []) .nothing
        (fun d => if d = r + 1 ∧ d < n then [slice (fun i => upTo op.fn (Own inPlace m · i) r) 0 count]
          else []) m₂ (Result count inPlace (m r) fun i => upTo op.fn (Own inPlace m · i) r) := by
    by_cases hlast : r < n - 1
    · rw [if_pos hlast]
      refine (Does.sendBuf (f := fun i => upTo op.fn (Own inPlace m · i) r) (o := 0) (fun i hi => ?_)
        h₂).congr (fun _ => rfl) fun d => ?_
      · rw [zero_add]
        exact h₂.1 i hi
      · refine if_congr ⟨fun h => ⟨h, by omega⟩, fun h => h.1⟩ rfl rfl
    · rw [if_neg hlast]
      refine (Does.nil h₂).congr (fun _ => rfl) fun d => (if_neg ?_).symm
      omega
  exact ((hown.append hprior).append hnext).congr (fun s => append_nil _) fun d => rfl

theorem scanIntra_gives (inPlace : Bool) :
    Gives n (fun r => scanIntra n r count op inPlace) m fun m' => ∀ r < n,
      Result count inPlace (m r) (fun i => upTo op.fn (Own inPlace m · i) r) (m' r) :=
  chain_gives (fun r i => upTo op.fn (Own inPlace m · i) r) _ fun _ hr => scanIntra_does hr inPlace

def exscanAcc (op : Op α) (x : ℕ → α) : ℕ → α
  | 0 => x 0
  | r + 1 => if op.commute then op.fn (exscanAcc op x r) (x (r + 1))
    else op.fn (x (r + 1)) (exscanAcc op x r)

theorem exscanIntra_does (junk : (ℕ → α) → ℕ → α) (hn : 2 ≤ n) {r : ℕ} (hr : r < n) :
    Does (exscanIntra junk n r count op)
      (fun s => if s + 1 = r then [slice (fun i => exscanAcc op (m · .sbuf i) s) 0 count] else [])
      (fun d => if d = r + 1 ∧ d < n then [slice (fun i => exscanAcc op (m · .sbuf i) r) 0 count]
        else []) (m r) fun m' =>
        (∀ i < count, r ≠ 0 → m' .rbuf i = exscanAcc op (m · .sbuf i) (r - 1)) ∧
          m' .sbuf = m r .sbuf := by
  unfold exscanIntra
  cases r with
  | zero =>
    rw [if_pos rfl]
    refine (Does.sendBuf (f := fun i => exscanAcc op (m · .sbuf i) 0) (o := 0) (fun i _ => ?_)
      ⟨fun _ _ h => absurd rfl h, rfl⟩).congr (fun s => rfl) fun d => ?_
    · rw [zero_add]
      rfl
    · exact if_congr ⟨fun h => ⟨h, by omega⟩, fun h => h.1⟩ rfl rfl
  | succ r =>
    have hinn (s : ℕ) : Mail.one r (slice (fun i => exscanAcc op (m · .sbuf i) r) 0 count) s =
        if s + 1 = r + 1 then [slice (fun i => exscanAcc op (m · .sbuf i) s) 0 count] else [] := by
      rw [Mail.one_apply fun s => slice (fun i => exscanAcc op (m · .sbuf i) s) 0 count]
      exact if_congr succ_inj.symm rfl rfl
    rw [if_neg r.succ_ne_zero]
    by_cases hlast : n - 1 = r + 1
    · rw [if_pos hlast]
      refine (Does.recvBuf (le_rfl) ⟨fun i hi _ => ?_, ?_⟩).congr hinn fun d => (if_neg ?_).symm
      · omega
      · simp [hi]
      · simp
    · rw [if_neg hlast]
      have hout (d : ℕ) : Mail.one (r + 1 + 1)
          (slice (fun i => exscanAcc op (m · .sbuf i) (r + 1)) 0 count) d =
          if d = r + 1 + 1 ∧ d < n then
            [slice (fun i => exscanAcc op (m · .sbuf i) (r + 1)) 0 count] else [] :=
        if_congr ⟨fun h => ⟨h, by omega⟩, fun h => h.1⟩ rfl rfl
      cases hc : op.commute with
      | true =>
        refine Does.congr (Does.postBuf_cons <| Does.copyBuf_cons <|
          Does.recvBuf_cons (f := fun i => exscanAcc op (m · .sbuf i) r) (o := 0) (le_rfl) <|
          Does.reduceBuf_cons <| Does.sendBuf
            (f := fun i => exscanAcc op (m · .sbuf i) (r + 1)) (o := 0) (fun i hi => ?_)
            ⟨fun i hi _ => ?_, ?_⟩) (fun s => ?_) hout
        · simp [hi, exscanAcc, hc]
        · simp [hi]
        · simp
        · rw [Mail.append_nothing]
          exact hinn s
      | false =>
        refine Does.congr (Does.postBuf_cons <|
          Does.recvBuf_cons (f := fun i => exscanAcc op (m · .sbuf i) r) (o := 0) (le_rfl) <|
          Does.copyBuf_cons <| Does.reduceBuf_cons <| Does.sendBuf
            (f := fun i => exscanAcc op (m · .sbuf i) (r + 1)) (o := 0) (fun i hi => ?_)
            ⟨fun i hi _ => ?_, ?_⟩) (fun s => ?_) hout
        · simp [hi, exscanAcc, hc]
        · simp [hi]
        · simp
        · rw [Mail.append_nothing]
          exact hinn s

theorem exscanIntra_gives (junk : (ℕ → α) → ℕ → α) (hn : 2 ≤ n) :
    Gives n (fun r => exscanIntra junk n r count op) m fun m' => ∀ r < n,
      (∀ i < count, r ≠ 0 → m' r .rbuf i = exscanAcc op (m · .sbuf i) (r - 1)) ∧
        m' r .sbuf = m r .sbuf :=
  chain_gives (fun r i => exscanAcc op (m · .sbuf i) r) (fun r (m' : Bufs BasicBuf α) =>
    (∀ i < count, r ≠ 0 → m' .rbuf i = exscanAcc op (m · .sbuf i) (r - 1)) ∧ m' .sbuf = m r .sbuf)
    fun _ hr => exscanIntra_does junk hn hr

theorem exscanAcc_eq (h : ∀ a b, op.fn a b = op.fn b a) (x : ℕ → α) (r : ℕ) :
    exscanAcc op x r = upTo op.fn x r := by
  induction r with
  | zero => rfl
  | succ r ih =>
    rw [exscanAcc, ih, upTo, h (x (r + 1)), ite_self]

def rootOwn (root : ℕ) (sb rb : BasicBuf) (inPlace : Bool) (m : ℕ → Bufs BasicBuf α) (r i : ℕ) : α :=
  m r (if inPlace = true ∧ r = root then rb else sb) i

/-- The root has `g` in its receive buffer; but for the temporary buffers nothing else has changed. -/
def Reduced (root count : ℕ) (rb : BasicBuf) (g : ℕ → α) (m₀ : Bufs BasicBuf α) (r : ℕ)
    (m' : Bufs BasicBuf α) : Prop :=
  (r = root → ∀ i < count, m' rb i = g i) ∧
    ∀ c ∉ [BasicBuf.freeBuffer, .inplaceTemp, .freeRbuf], (r = root → c ≠ rb) → m' c = m₀ c

theorem linRoot_does {m : Bufs BasicBuf α} {x : ℕ → ℕ → α} {root : ℕ} (addr : ℕ → ℕ) {src tgt : BasicBuf}
    (hst : src ≠ tgt) (hsf : src ≠ .freeBuffer) (htf : tgt ≠ .freeBuffer) (hx : x root = m src)
    (n : ℕ) :
    Does ((if root = n then [.copyBuf src 0 tgt 0 count] else [.recvBuf (addr n) tgt 0 count]) ++
        (range n).reverse.flatMap fun i =>
          if root = i then [opReduce op src 0 tgt 0 count]
          else [.recvBuf (addr i) .freeBuffer 0 count, opReduce op .freeBuffer 0 tgt 0 count])
      (.flat (range (n + 1)).reverse fun i =>
        if i ≠ root then .one (addr i) (slice (x i) 0 count) else .nothing) .nothing m
      fun m' => Holds op.fn x (range (n + 1)) (m' tgt) 0 count ∧
        ∀ c, c ≠ tgt → c ≠ .freeBuffer → m' c = m c := by
  have hfirst : Does (if root = n then [.copyBuf src 0 tgt 0 count] else [.recvBuf (addr n) tgt 0 count])
      (if n ≠ root then .one (addr n) (slice (x n) 0 count) else .nothing) .nothing m fun m₁ =>
      Holds op.fn x [n] (m₁ tgt) 0 count ∧ ∀ c, c ≠ tgt → c ≠ .freeBuffer → m₁ c = m c := by
    by_cases hroot : root = n
    · subst hroot
      rw [if_pos rfl, if_neg (not_not.mpr rfl)]
      refine Does.copyBuf ⟨Holds.single_zero fun i hi => ?_, fun c h _ => Bufs.copy_of_ne _ _ _ h⟩
      rw [Bufs.copy_zero hi, hx]
    · rw [if_neg hroot, if_pos (Ne.symm hroot)]
      refine Does.recvBuf (le_rfl)
        ⟨Holds.single_zero fun i hi => ?_, fun c h _ => Bufs.write_of_ne _ h⟩
      rw [Bufs.write_slice_zero hi]
  have hturn (l : List ℕ) (i : ℕ) (m₁ : Bufs BasicBuf α) (h₁ : Holds op.fn x l (m₁ tgt) 0 count ∧
      ∀ c, c ≠ tgt → c ≠ .freeBuffer → m₁ c = m c) :
      Does (if root = i then [opReduce op src 0 tgt 0 count]
          else [.recvBuf (addr i) .freeBuffer 0 count, opReduce op .freeBuffer 0 tgt 0 count])
        (if i ≠ root then .one (addr i) (slice (x i) 0 count) else .nothing) .nothing m₁ fun m₂ =>
        Holds op.fn x (i :: l) (m₂ tgt) 0 count ∧ ∀ c, c ≠ tgt → c ≠ .freeBuffer → m₂ c = m c := by
    obtain ⟨hsum, hsame⟩ := h₁
    by_cases hroot : root = i
    · subst hroot
      rw [if_pos rfl, if_neg (not_not.mpr rfl)]
      refine Does.reduceBuf ⟨Holds.reduce_zero (l := [root]) (.single_zero fun j _ => ?_) hsum,
        fun c h h' => ?_⟩
      · rw [hsame src hst hsf, hx]
      · rw [Bufs.reduce_of_ne _ _ _ _ h, hsame c h h']
    · rw [if_neg hroot, if_pos (Ne.symm hroot), ← Mail.append_nothing (Mail.one _ _)]
      refine Does.recvBuf_cons (le_rfl) (Does.reduceBuf
        ⟨Holds.reduce_zero (l := [i]) (.single_zero fun j hj => ?_) ?_, fun c h h' => ?_⟩)
      · rw [Bufs.write_slice_zero hj]
      · rwa [Bufs.write_of_ne _ htf]
      · rw [Bufs.reduce_of_ne _ _ _ _ h, Bufs.write_of_ne _ h', hsame c h h']
  have hall := hfirst.append fun m₁ h₁ => Does.overList (m := m₁)
    (fun pre (m' : Bufs BasicBuf α) => Holds op.fn x (pre.reverse ++ [n]) (m' tgt) 0 count ∧
      ∀ c, c ≠ tgt → c ≠ .freeBuffer → m' c = m c) (range n).reverse h₁ fun pre i _ m₂ h₂ =>
    (hturn _ i m₂ h₂).mono fun m₃ h₃ => by
      rwa [reverse_append]
  refine (hall.mono fun m' h' => ?_).congr (fun s => ?_) fun d => ?_
  · rwa [reverse_reverse, ← range_succ] at h'
  · rw [range_succ, reverse_append, reverse_singleton, singleton_append,
      Mail.flat_cons]
  · rw [Mail.nothing_append, Mail.flat_nothing]

theorem toRoot_gives {P : ℕ → List (Instr (Bufs BasicBuf α) α)} (count : ℕ) {root : ℕ} (hroot : root < n)
    (S : ℕ → Prop) [DecidablePred S] (hS : ¬S root) (x : ℕ → ℕ → α) (post : ℕ → Bufs BasicBuf α → Prop)
    (hother : ∀ r < n, r ≠ root → Does (P r) .nothing
      (if S r then .one root (slice (x r) 0 count) else .nothing) (m r) (post r))
    (hown : Does (P root) (fun s => if s < n ∧ S s then [slice (x s) 0 count] else []) .nothing
      (m root) (post root)) :
    Gives n P m fun m' => ∀ r < n, post r (m' r) := by
  refine Gives.ordered post
    (fun s d => if (s < n ∧ S s) ∧ d = root then [slice (x s) 0 count] else [])
    (fun r => if r = root then 1 else 0) (fun s d hne => ?_) fun r hr => ?_
  · split_ifs at hne with hsd
    · obtain ⟨⟨hs, hsr⟩, rfl⟩ := hsd
      rw [if_neg fun (h : s = d) => hS (h ▸ hsr), if_pos rfl]
      exact ⟨hs, hroot, one_pos⟩
    · exact absurd rfl hne
  · by_cases hrr : r = root
    · subst hrr
      refine hown.congr (fun s => ?_) fun d => (if_neg fun h => hS h.1.2).symm
      exact if_congr (and_iff_left rfl).symm rfl rfl
    · refine (hother r hr hrr).congr (fun s => (if_neg fun h => hrr h.2).symm) fun d => ?_
      by_cases hSr : S r
      · rw [if_pos hSr]
        exact if_congr (and_iff_right ⟨hr, hSr⟩).symm rfl rfl
      · rw [if_neg hSr, if_neg fun h => hSr h.1.2]
        rfl

theorem linRootIntra_does {root : ℕ} (hroot : root < n) (k : Skew α) {sb rb : BasicBuf}
    (hsr : sb ≠ rb) (hsf : sb ≠ .freeBuffer) (hrf : rb ≠ .freeBuffer) (hri : rb ≠ .inplaceTemp)
    (inPlace : Bool) :
    Does (reduceLinIntra n root root count op k sb rb inPlace)
      (fun s => if s < n ∧ s ≠ root then [slice (rootOwn root sb rb inPlace m s) 0 count] else [])
      .nothing (m root) fun m' => ∃ f : ℕ → α,
        (∀ i < count, f i = upTo op.fn (rootOwn root sb rb inPlace m · i) (n - 1)) ∧
        (∀ i < count, m' rb i = (if inPlace then k.seen f else f) i) ∧
        ∀ c ∉ [BasicBuf.freeBuffer, .inplaceTemp, .freeRbuf], c ≠ rb → m' c = m root c := by
  have hn : 0 < n := zero_lt_of_lt hroot
  have hinn (s : ℕ) : Mail.flat (range (n - 1 + 1)).reverse (fun i =>
      if i ≠ root then Mail.one i (slice (rootOwn root sb rb inPlace m i) 0 count) else .nothing) s =
      if s < n ∧ s ≠ root then [slice (rootOwn root sb rb inPlace m s) 0 count] else [] := by
    rw [Mail.flat_if (nodup_reverse.mpr nodup_range) (· ≠ root)
      fun i => slice (rootOwn root sb rb inPlace m i) 0 count, Nat.sub_add_cancel hn]
    simp only [mem_reverse, mem_range]
  have hsum {x : ℕ → ℕ → α} {f : ℕ → α} (h : Holds op.fn x (range (n - 1 + 1)) f 0 count) (i : ℕ)
      (hi : i < count) : f i = upTo op.fn (x · i) (n - 1) := by
    rw [Nat.sub_add_cancel hn] at h
    exact (h i (zero_le i) (by omega)).eq_upTo hn
  unfold reduceLinIntra
  rw [if_neg (not_not.mpr rfl)]
  cases inPlace with
  | false =>
    have hown : rootOwn root sb rb false m root = m root sb := funext fun i => by simp [rootOwn]
    simp only [Bool.false_eq_true, if_false, append_nil]
    refine ((linRoot_does id hsr hsf hrf hown (n - 1)).congr hinn fun _ => rfl).mono fun m' h => ?_
    obtain ⟨hholds, hframe⟩ := h
    exact ⟨m' rb, hsum hholds, fun _ _ => rfl, fun c hc hne => hframe c hne fun h => hc (by simp [h])⟩
  | true =>
    have hown : rootOwn root sb rb true m root = m root rb := funext fun i => by simp [rootOwn]
    simp only [if_true]
    refine ((linRoot_does id hri hrf (by decide) hown (n - 1)).append fun m₁ h₁ =>
      (Does.work_one ?_ : Does [copySkewed k .inplaceTemp rb count] .nothing .nothing m₁ _)).congr
        (fun s => ?_) fun _ => rfl
    · obtain ⟨hholds, hframe⟩ := h₁
      refine ⟨m₁ .inplaceTemp, hsum hholds, fun i hi => ?_, fun c hc hne => ?_⟩
      · simp [hi]
      · rw [Bufs.write_of_ne _ hne]
        exact hframe c (fun h => hc (by simp [h])) fun h => hc (by simp [h])
    · exact (append_nil _).trans (hinn s)

theorem reduceLinIntra_gives {root : ℕ} (hroot : root < n) (k : Skew α) {sb rb : BasicBuf}
    (hsr : sb ≠ rb) (hsf : sb ≠ .freeBuffer) (hrf : rb ≠ .freeBuffer) (hri : rb ≠ .inplaceTemp)
    (inPlace : Bool) :
    Gives n (fun r => reduceLinIntra n r root count op k sb rb (inPlace && r == root)) m fun m' =>
      ∃ f : ℕ → α, (∀ i < count, f i = upTo op.fn (rootOwn root sb rb inPlace m · i) (n - 1)) ∧
        ∀ r < n, Reduced root count rb (if inPlace then k.seen f else f) (m r) r (m' r) := by
  refine (toRoot_gives count hroot (· ≠ root) (not_not.mpr rfl) (rootOwn root sb rb inPlace m)
    (fun r (m' : Bufs BasicBuf α) => (r = root → ∃ f : ℕ → α,
      (∀ i < count, f i = upTo op.fn (rootOwn root sb rb inPlace m · i) (n - 1)) ∧
        ∀ i < count, m' rb i = (if inPlace then k.seen f else f) i) ∧
    ∀ c ∉ [BasicBuf.freeBuffer, .inplaceTemp, .freeRbuf], (r = root → c ≠ rb) → m' c = m r c)
    (fun r _ hr => ?_) ?_).mono fun m' h => ?_
  · unfold reduceLinIntra
    rw [if_pos hr, if_pos hr]
    refine Does.sendBuf (fun i _ => ?_) ⟨fun h => absurd h hr, fun _ _ _ => rfl⟩
    rw [rootOwn, if_neg fun h => hr h.2, zero_add]
  · rw [beq_self_eq_true, Bool.and_true]
    refine (linRootIntra_does hroot k hsr hsf hrf hri inPlace).mono fun m' h => ?_
    obtain ⟨f, hf, hrb, hframe⟩ := h
    exact ⟨fun _ => ⟨f, hf, hrb⟩, fun c hc hne => hframe c hc (hne rfl)⟩
  · obtain ⟨f, hf, hrb⟩ := (h root hroot).1 rfl
    refine ⟨f, hf, fun r hr => ⟨fun heq => ?_, (h r hr).2⟩⟩
    subst heq
    exact hrb

/-- The send buffer of virtual rank `v` from dimension `i` on: at first its source. -/
def sndAt (n v : ℕ) (src : BasicBuf) (i : ℕ) : BasicBuf := if i ≠ 0 ∧ v + 1 < n then .freeBuffer else src

def rcvAt (n v : ℕ) (tgt : BasicBuf) (i : ℕ) : BasicBuf := if i ≠ 0 ∧ v + 1 < n then tgt else .freeBuffer

def logSend (n root v count : ℕ) (src : BasicBuf) (i : ℕ) : List (Instr (Bufs BasicBuf α) α) :=
  if 2 ^ i ∣ v ∧ v / 2 ^ i % 2 = 1 then [.sendBuf (rotate n root (v - 2 ^ i)) (sndAt n v src i) 0 count]
  else []

def logRecv (n root v count : ℕ) (op : Op α) (src tgt : BasicBuf) (i : ℕ) :
    List (Instr (Bufs BasicBuf α) α) :=
  if 2 ^ (i + 1) ∣ v ∧ v + 2 ^ i < n then
    [.recvBuf (rotate n root (v + 2 ^ i)) (rcvAt n v tgt i) 0 count,
      opReduce op (if i = 0 then src else tgt) 0 .freeBuffer 0 count]
  else []

def logRest (n root v count : ℕ) (op : Op α) (src tgt : BasicBuf) (left i : ℕ) :
    List (Instr (Bufs BasicBuf α) α) :=
  if 2 ^ i ∣ v then (logLoop n root v count op src tgt left i (sndAt n v src i) (rcvAt n v tgt i)).1
  else []

theorem logRest_succ {root v : ℕ} {src tgt : BasicBuf} (hsrc : src ≠ .freeBuffer) (left i : ℕ) :
    logRest n root v count op src tgt (left + 1) i = logSend n root v count src i ++
      logRecv n root v count op src tgt i ++ logRest n root v count op src tgt left (i + 1) := by
  unfold logRest logSend logRecv
  by_cases hdvd : 2 ^ i ∣ v
  · have hsucc := two_pow_succ_dvd hdvd
    have hpos := Nat.two_pow_pos i
    rw [if_pos hdvd, logLoop, Nat.one_shiftLeft]
    by_cases hbit : v / 2 ^ i % 2 = 0
    · simp only [ne_eq, and_two_pow_eq_zero, hbit, not_true_eq_false, if_false, or_two_pow hbit, hsucc,
        if_true, hdvd, true_and, Nat.zero_ne_one, nil_append]
      by_cases hlt : v + 2 ^ i < n
      · have hv : v + 1 < n := by omega
        rw [if_neg (Nat.not_le_of_lt hlt), if_pos hlt]
        cases i with
        | zero => simp [sndAt, rcvAt, hv, rotate]
        | succ i => simp [sndAt, rcvAt, hv, rotate, hsrc.symm]
      · have hv (hi : i = 0) : ¬v + 1 < n := by
          subst hi
          simpa using hlt
        rw [if_pos (Nat.le_of_not_lt hlt), if_neg hlt]
        cases i with
        | zero => simp [sndAt, rcvAt, hv rfl]
        | succ i => simp [sndAt, rcvAt]
    · have hone : v / 2 ^ i % 2 = 1 := by omega
      have hno : ¬2 ^ (i + 1) ∣ v := fun h => hbit (hsucc.mp h)
      simp [and_two_pow_eq_zero, hone, hno, hdvd, ldiff_two_pow hone, rotate]
  · have hno : ¬2 ^ (i + 1) ∣ v := fun h => hdvd ((pow_dvd_pow 2 i.le_succ).trans h)
    simp [hdvd, hno]

theorem log_partner {root s p : ℕ} (hroot : root < n) (hs : s < n) (hp : p < n) (i : ℕ) :
    (2 ^ i ∣ unrotate n root s ∧ unrotate n root s / 2 ^ i % 2 = 1) ∧
        p = rotate n root (unrotate n root s - 2 ^ i) ↔
      (2 ^ (i + 1) ∣ unrotate n root p ∧ unrotate n root p + 2 ^ i < n) ∧
        s = rotate n root (unrotate n root p + 2 ^ i) := by
  have hpos := Nat.two_pow_pos i
  constructor
  · rintro ⟨⟨⟨a, ha⟩, hbit⟩, rfl⟩
    have hv := unrotate_lt (r := s) hroot
    rw [ha, Nat.mul_div_cancel_left _ hpos] at hbit
    obtain ⟨b, rfl⟩ : ∃ b, a = 2 * b + 1 := ⟨a / 2, by omega⟩
    have hsub : unrotate n root s - 2 ^ i = 2 ^ (i + 1) * b := by
      rw [ha, pow_succ, mul_add, mul_one, Nat.add_sub_cancel, mul_assoc]
    have hle : 2 ^ i ≤ unrotate n root s := ha ▸ Nat.le_mul_of_pos_right _ (succ_pos _)
    rw [unrotate_rotate hroot (by omega), Nat.sub_add_cancel hle, rotate_unrotate hroot hs]
    exact ⟨⟨hsub ▸ Nat.dvd_mul_right _ b, hv⟩, rfl⟩
  · rintro ⟨⟨⟨b, hb⟩, hlt⟩, rfl⟩
    have hadd : unrotate n root p + 2 ^ i = 2 ^ i * (2 * b + 1) := by
      rw [hb, pow_succ, mul_add, mul_one, mul_assoc]
    rw [unrotate_rotate hroot hlt, Nat.add_sub_cancel, rotate_unrotate hroot hp, hadd,
      Nat.mul_div_cancel_left _ hpos]
    exact ⟨⟨Nat.dvd_mul_right _ _, by omega⟩, rfl⟩

/-- Virtual rank `v` holds the reduction over the `2 ^ i` virtual ranks from it on. -/
def LogHolds (n root count : ℕ) (op : Op α) (x : ℕ → ℕ → α) (src : ℕ → BasicBuf) (i r : ℕ)
    (m : Bufs BasicBuf α) : Prop :=
  2 ^ i ∣ unrotate n root r → Holds op.fn x
    ((List.range' (unrotate n root r) (min (2 ^ i) (n - unrotate n root r))).map (rotate n root))
    (m (sndAt n (unrotate n root r) (src r) i)) 0 count

theorem range'_partners {v i : ℕ} (hlt : v + 2 ^ i < n) :
    range' v (min (2 ^ i) (n - v)) ++ range' (v + 2 ^ i) (min (2 ^ i) (n - (v + 2 ^ i))) =
      range' v (min (2 ^ (i + 1)) (n - v)) := by
  rw [min_eq_left (show 2 ^ i ≤ n - v by omega), range'_append_1, pow_succ]
  congr 1
  omega

theorem logRecv_does (hcomm : op.commute = true) {root r i : ℕ} {x : ℕ → ℕ → α} {src tgt : ℕ → BasicBuf}
    (htgt : tgt r ≠ .freeBuffer) (hsrc : src r ≠ .freeBuffer) {m : Bufs BasicBuf α}
    (hm : LogHolds n root count op x src i r m) (hdvd : 2 ^ (i + 1) ∣ unrotate n root r)
    (hlt : unrotate n root r + 2 ^ i < n) {f : ℕ → α}
    (hf : Holds op.fn x ((range' (unrotate n root r + 2 ^ i)
      (min (2 ^ i) (n - (unrotate n root r + 2 ^ i)))).map (rotate n root)) f 0 count) :
    Does (logRecv n root (unrotate n root r) count op (src r) (tgt r) i)
      (.one (rotate n root (unrotate n root r + 2 ^ i)) (slice f 0 count)) .nothing m fun m' =>
      LogHolds n root count op x src (i + 1) r m' ∧
        ∀ c, c ≠ .freeBuffer → (2 ∣ unrotate n root r → c ≠ tgt r) → m' c = m c := by
  have hcomm := op.comm hcomm
  have hown := hm ((pow_dvd_pow 2 i.le_succ).trans hdvd)
  have heven : 2 ∣ unrotate n root r := (dvd_pow_self 2 i.succ_ne_zero).trans hdvd
  have hv : unrotate n root r + 1 < n := by
    have := Nat.two_pow_pos i
    omega
  have hsnd : sndAt n (unrotate n root r) (src r) (i + 1) = .freeBuffer := if_pos ⟨i.succ_ne_zero, hv⟩
  have hheard {b : BasicBuf} : Holds op.fn x ((range' (unrotate n root r + 2 ^ i)
      (min (2 ^ i) (n - (unrotate n root r + 2 ^ i)))).map (rotate n root))
      (m.write b 0 (slice f 0 count) b) 0 count :=
    hf.congr fun j _ hj => Bufs.write_slice_zero (zero_add count ▸ hj)
  rw [logRecv, if_pos ⟨hdvd, hlt⟩, ← Mail.append_nothing (Mail.one _ _)]
  unfold LogHolds
  rw [hsnd, ← range'_partners hlt, map_append]
  by_cases hi : i = 0
  · subst hi
    have h0 : sndAt n (unrotate n root r) (src r) 0 = src r := if_neg fun h => h.1 rfl
    have h1 : rcvAt n (unrotate n root r) (tgt r) 0 = .freeBuffer := if_neg fun h => h.1 rfl
    rw [h0] at hown
    rw [if_pos rfl, h1]
    refine Does.recvBuf_cons (le_rfl) (Does.reduceBuf ⟨fun _ => ?_, fun c hc _ => ?_⟩)
    · refine Holds.reduce_zero ?_ hheard
      rwa [Bufs.write_of_ne _ hsrc]
    · rw [Bufs.reduce_of_ne _ _ _ _ hc, Bufs.write_of_ne _ hc]
  · have h0 : sndAt n (unrotate n root r) (src r) i = .freeBuffer := if_pos ⟨hi, hv⟩
    have h1 : rcvAt n (unrotate n root r) (tgt r) i = tgt r := if_pos ⟨hi, hv⟩
    rw [h0] at hown
    rw [if_neg hi, h1]
    refine Does.recvBuf_cons (le_rfl) (Does.reduceBuf ⟨fun _ => ?_, fun c hc hct => ?_⟩)
    · refine (Holds.reduce_zero hheard ?_).perm perm_append_comm
      rwa [Bufs.write_of_ne _ htgt.symm]
    · rw [Bufs.reduce_of_ne _ _ _ _ hc, Bufs.write_of_ne _ (hct heven)]

theorem logTurn_gives (hcomm : op.commute = true) {root : ℕ} (hroot : root < n) (i : ℕ)
    {x : ℕ → ℕ → α} {src tgt : ℕ → BasicBuf} (hsrc : ∀ r, src r ≠ .freeBuffer)
    (htgt : ∀ r, tgt r ≠ .freeBuffer) (hm : ∀ r < n, LogHolds n root count op x src i r (m r)) :
    Gives n (fun r => logSend n root (unrotate n root r) count (src r) i ++
        logRecv n root (unrotate n root r) count op (src r) (tgt r) i) m fun m' => ∀ r < n,
      LogHolds n root count op x src (i + 1) r (m' r) ∧
        ∀ c, c ≠ .freeBuffer → (2 ∣ unrotate n root r → c ≠ tgt r) → m' r c = m r c := by
  refine Gives.round m (fun r (m' : Bufs BasicBuf α) => LogHolds n root count op x src (i + 1) r m' ∧
      ∀ c, c ≠ .freeBuffer → (2 ∣ unrotate n root r → c ≠ tgt r) → m' c = m r c)
    (fun s d => if s < n ∧ (2 ^ i ∣ unrotate n root s ∧ unrotate n root s / 2 ^ i % 2 = 1) ∧
      d = rotate n root (unrotate n root s - 2 ^ i) then
        [slice (m s (sndAt n (unrotate n root s) (src s) i)) 0 count] else [])
    (fun s d hne => ?_) (fun p hp => ?_) fun p hp => ?_
  · split_ifs at hne with hsd
    · obtain ⟨hs, -, rfl⟩ := hsd
      exact ⟨hs, rotate_lt hroot⟩
    · exact absurd rfl hne
  · unfold logSend
    by_cases hsend : 2 ^ i ∣ unrotate n root p ∧ unrotate n root p / 2 ^ i % 2 = 1
    · rw [if_pos hsend]
      refine (Exec.send_one _ _ _).congr (fun _ => rfl) fun d => ?_
      exact if_congr ⟨fun h => ⟨hp, hsend, h⟩, fun h => h.2.2⟩ rfl rfl
    · rw [if_neg hsend]
      exact (Exec.nil _).congr (fun _ => rfl) fun d => (if_neg fun h => hsend h.2.1).symm
  · by_cases hrecv : 2 ^ (i + 1) ∣ unrotate n root p ∧ unrotate n root p + 2 ^ i < n
    · have hs := rotate_lt (s := unrotate n root p + 2 ^ i) hroot
      have hvs := unrotate_rotate hroot hrecv.2
      have hpart := (log_partner hroot hs hp i).mpr ⟨hrecv, rfl⟩
      have hf := hm _ hs hpart.1.1
      rw [hvs] at hf
      refine (logRecv_does hcomm (htgt p) (hsrc p) (hm p hp) hrecv.1 hrecv.2 hf).congr (fun s => ?_)
        fun _ => rfl
      by_cases hsp : s = rotate n root (unrotate n root p + 2 ^ i)
      · subst hsp
        rw [Mail.one_self, if_pos ⟨hs, hpart⟩, hvs]
      · rw [Mail.one_of_ne _ hsp, if_neg fun h => hsp ((log_partner hroot h.1 hp i).mp h.2).2]
    · rw [logRecv, if_neg hrecv]
      refine (Does.nil ⟨fun hdvd => ?_, fun _ _ _ => rfl⟩).congr
        (fun s => (if_neg fun h => hrecv ((log_partner hroot h.1 hp i).mp h.2).1).symm) fun _ => rfl
      have hge : n ≤ unrotate n root p + 2 ^ i := Nat.le_of_not_lt fun h => hrecv ⟨hdvd, h⟩
      have hown := hm p hp ((pow_dvd_pow 2 i.le_succ).trans hdvd)
      have hsame : sndAt n (unrotate n root p) (src p) (i + 1) = sndAt n (unrotate n root p) (src p) i := by
        refine if_congr ⟨fun h => ⟨?_, h.2⟩, fun h => ⟨i.succ_ne_zero, h.2⟩⟩ rfl rfl
        rintro rfl
        exact absurd h.2 (Nat.not_lt_of_le hge)
      rw [min_eq_right (by omega)] at hown
      rwa [hsame, min_eq_right (by rw [pow_succ]; omega)]

theorem logRest_gives (hcomm : op.commute = true) {root : ℕ} (hroot : root < n) {x : ℕ → ℕ → α}
    {src tgt : ℕ → BasicBuf} (hsrc : ∀ r, src r ≠ .freeBuffer) (htgt : ∀ r, tgt r ≠ .freeBuffer)
    (left i : ℕ) (hm : ∀ r < n, LogHolds n root count op x src i r (m r)) :
    Gives n (fun r => logRest n root (unrotate n root r) count op (src r) (tgt r) left i) m fun m' =>
      ∀ r < n, LogHolds n root count op x src (i + left) r (m' r) ∧
        ∀ c, c ≠ .freeBuffer → (2 ∣ unrotate n root r → c ≠ tgt r) → m' r c = m r c := by
  induction left generalizing i m with
  | zero =>
    refine (Gives.nil fun r hr => ⟨hm r hr, fun _ _ _ => rfl⟩).congr fun r _ => ?_
    unfold logRest
    split_ifs
    · rfl
    · rfl
  | succ left ih =>
    refine ((logTurn_gives hcomm hroot i hsrc htgt hm).append fun m₁ h₁ =>
      (ih (i + 1) fun r hr => (h₁ r hr).1).mono fun m₂ h₂ r hr => ⟨?_, fun c hc hct => ?_⟩).congr
      fun r _ => (logRest_succ (hsrc r) left i).symm
    · rw [add_comm left 1, ← add_assoc]
      exact (h₂ r hr).1
    · rw [(h₂ r hr).2 c hc hct, (h₁ r hr).2 c hc hct]

theorem logLoop_snd (n count : ℕ) (op : Op α) (root : ℕ) {src : BasicBuf} (tgt : BasicBuf) (hsrc : src ≠ .freeBuffer) (left i : ℕ) :
    (logLoop n root 0 count op src tgt left i (sndAt n 0 src i) (rcvAt n 0 tgt i)).2.1 =
      sndAt n 0 src (i + left) := by
  induction left generalizing i with
  | zero => rfl
  | succ left ih =>
    have hi := ih (i + 1)
    have hpos := Nat.two_pow_pos i
    rw [add_right_comm, add_assoc] at hi
    rw [logLoop, Nat.one_shiftLeft, ← hi]
    simp only [zero_and, ne_eq, not_true_eq_false, if_false, zero_or]
    by_cases hlt : 2 ^ i < n
    · have hn : 1 < n := by omega
      rw [if_neg (Nat.not_le_of_lt hlt)]
      cases i with
      | zero => simp [sndAt, rcvAt, hn]
      | succ i => simp [sndAt, rcvAt, hn, hsrc.symm]
    · have hn (h0 : i = 0) : ¬1 < n := by
        subst h0
        simpa using hlt
      rw [if_pos (Nat.le_of_not_lt hlt)]
      cases i with
      | zero => simp [sndAt, rcvAt, hn rfl]
      | succ i => simp [sndAt, rcvAt]

theorem le_cubeDimLoop (value fuel dim : ℕ) (h : value ≤ 2 ^ dim + fuel) :
    value ≤ 2 ^ cubeDimLoop value fuel dim (2 ^ dim) := by
  induction fuel generalizing dim with
  | zero => exact h
  | succ fuel ih =>
    have hpos := Nat.two_pow_pos dim
    unfold cubeDimLoop
    split_ifs with hlt
    · rw [Nat.shiftLeft_eq, ← pow_add]
      exact ih (dim + 1) (by rw [pow_succ]; omega)
    · exact Nat.le_of_not_lt hlt

theorem le_cubeDim (value : ℕ) : value ≤ 2 ^ cubeDim value :=
  le_cubeDimLoop value value 0 (Nat.le_add_left ..)

theorem reduceLogIntra_gives (hcomm : op.commute = true) {root : ℕ} (hroot : root < n) (k : Skew α)
    {sb rb : BasicBuf} (hsf : sb ≠ .freeBuffer) (hrf : rb ≠ .freeBuffer)
    (inPlace : Bool) :
    Gives n (fun r => reduceLogIntra n r root count op k sb rb (inPlace && r == root)) m fun m' =>
      ∀ r < n, Reduced root count rb (fun i => upTo op.fn (rootOwn root sb rb inPlace m · i) (n - 1))
        (m r) r (m' r) := by
  let src (r : ℕ) : BasicBuf := if (inPlace && r == root) = true then .inplaceTemp else sb
  let tgt (r : ℕ) : BasicBuf := if r ≠ root ∧ unrotate n root r % 2 = 0 then .freeRbuf else rb
  have hsrc (r : ℕ) : src r ≠ .freeBuffer := by
    simp only [src]
    split_ifs
    · decide
    · exact hsf
  have htgt (r : ℕ) : tgt r ≠ .freeBuffer := by
    simp only [tgt]
    split_ifs
    · decide
    · exact hrf
  have hvroot : unrotate n root root = 0 := (unrotate_eq_zero hroot hroot).mpr rfl
  have hown : Gives n (fun r => if (inPlace && r == root) = true then
      [.copyBuf rb 0 .inplaceTemp 0 count] else []) m fun m₁ => ∀ r < n,
      (∀ i < count, m₁ r (src r) i = rootOwn root sb rb inPlace m r i) ∧
        ∀ c, c ≠ .inplaceTemp → m₁ r c = m r c := by
    refine Gives.each (fun r (m₁ : Bufs BasicBuf α) =>
      (∀ i < count, m₁ (src r) i = rootOwn root sb rb inPlace m r i) ∧
        ∀ c, c ≠ .inplaceTemp → m₁ c = m r c) fun r _ => ?_
    simp only [src, rootOwn]
    by_cases h : (inPlace && r == root) = true
    · have h' : inPlace = true ∧ r = root := by simpa using h
      rw [if_pos h, if_pos h, if_pos h']
      exact Does.copyBuf ⟨fun i hi => Bufs.copy_zero hi, fun c hc => Bufs.copy_of_ne _ _ _ hc⟩
    · have h' : ¬(inPlace = true ∧ r = root) := by simpa using h
      rw [if_neg h, if_neg h, if_neg h']
      exact .nil ⟨fun _ _ => rfl, fun _ _ => rfl⟩
  have hstart {m₁ : ℕ → Bufs BasicBuf α} (h₁ : ∀ r < n,
      (∀ i < count, m₁ r (src r) i = rootOwn root sb rb inPlace m r i) ∧
        ∀ c, c ≠ .inplaceTemp → m₁ r c = m r c) (r : ℕ) (hr : r < n) :
      LogHolds n root count op (rootOwn root sb rb inPlace m) src 0 r (m₁ r) := by
    intro _
    have hv := unrotate_lt (r := r) hroot
    have hsnd : sndAt n (unrotate n root r) (src r) 0 = src r := if_neg fun h => h.1 rfl
    have hone : min (2 ^ 0) (n - unrotate n root r) = 1 := min_eq_left (by omega)
    rw [hsnd, hone, range'_one, map_singleton, rotate_unrotate hroot hr]
    exact .single_zero (h₁ r hr).1
  have hresult {m₂ : ℕ → Bufs BasicBuf α} (h₂ : LogHolds n root count op (rootOwn root sb rb inPlace m) src
      (0 + cubeDim n) root (m₂ root)) :
      Gives n (fun r => if r = root then [.copyBuf (sndAt n 0 (src root) (0 + cubeDim n)) 0 rb 0 count]
        else []) m₂ fun m₃ => ∀ r < n,
        (r = root → ∀ i < count, m₃ r rb i = upTo op.fn (rootOwn root sb rb inPlace m · i) (n - 1)) ∧
          ∀ c, (r = root → c ≠ rb) → m₃ r c = m₂ r c := by
    refine Gives.each (fun r (m₃ : Bufs BasicBuf α) =>
      (r = root → ∀ i < count, m₃ rb i = upTo op.fn (rootOwn root sb rb inPlace m · i) (n - 1)) ∧
        ∀ c, (r = root → c ≠ rb) → m₃ c = m₂ r c) fun r _ => ?_
    by_cases hr : r = root
    · subst hr
      rw [if_pos rfl]
      refine Does.copyBuf ⟨fun _ i hi => ?_, fun c hc => Bufs.copy_of_ne _ _ _ (hc rfl)⟩
      have hcomm := op.comm hcomm
      have hall := h₂ (by rw [hvroot]; exact dvd_zero _)
      rw [hvroot, zero_add, Nat.sub_zero, min_eq_right (le_cubeDim n),
        ← range_eq_range'] at hall
      rw [Bufs.copy_zero hi, zero_add]
      exact (hall i (zero_le i) (by omega)).eq_upTo_of_perm (by omega) (rotate_perm hroot)
    · rw [if_neg hr]
      exact .nil ⟨fun h => absurd h hr, fun _ _ => rfl⟩
  have hloop : Gives n (fun r => (if (inPlace && r == root) = true then
      [.copyBuf rb 0 .inplaceTemp 0 count] else []) ++
      logRest n root (unrotate n root r) count op (src r) (tgt r) (cubeDim n) 0) m fun m₂ =>
      LogHolds n root count op (rootOwn root sb rb inPlace m) src (0 + cubeDim n) root (m₂ root) ∧
        ∀ r < n, ∀ c ∉ [BasicBuf.freeBuffer, .inplaceTemp, .freeRbuf], (r = root → c ≠ rb) →
          m₂ r c = m r c := by
    refine hown.append fun m₁ h₁ => (logRest_gives hcomm hroot hsrc htgt (cubeDim n) 0 (hstart h₁)).mono
      fun m₂ h₂ => ⟨(h₂ root hroot).1, fun r hr c hc hcr => ?_⟩
    rw [(h₂ r hr).2 c (fun h => hc (by simp [h])) fun heven => ?_,
      (h₁ r hr).2 c fun h => hc (by simp [h])]
    simp only [tgt]
    split_ifs with h
    · exact fun h => hc (by simp [h])
    · exact hcr (by_contra fun hr => h ⟨hr, mod_eq_zero_of_dvd heven⟩)
  refine (hloop.append fun m₂ h₂ => (hresult h₂.1).mono fun m₃ h₃ r hr => ?_).congr fun r hr => ?_
  · refine ⟨(h₃ r hr).1, fun c hc hcr => ?_⟩
    rw [(h₃ r hr).2 c hcr, h₂.2 r hr c hc hcr]
  · have hsnd : sndAt n (unrotate n root r) (src r) 0 = src r := if_neg fun h => h.1 rfl
    have hrcv : rcvAt n (unrotate n root r) (tgt r) 0 = .freeBuffer := if_neg fun h => h.1 rfl
    have hone : 2 ^ 0 ∣ unrotate n root r := one_dvd _
    unfold reduceLogIntra
    simp only [hcomm, Bool.not_true, Bool.false_eq_true, if_false]
    rw [logRest, if_pos hone, hsnd, hrcv]
    congr 1
    by_cases hrr : r = root
    · subst hrr
      have hlast : (logLoop n r (unrotate n r r) count op (src r) (tgt r) (cubeDim n) 0 (src r)
          .freeBuffer).2.1 = sndAt n 0 (src r) (0 + cubeDim n) := by
        rw [hvroot] at hsnd hrcv ⊢
        have h := logLoop_snd n count op r (tgt r) (hsrc r) (cubeDim n) 0
        rwa [hsnd, hrcv] at h
      have htr : (if r ≠ r ∧ (r + n - r) % n % 2 = 0 then BasicBuf.freeRbuf else rb) = rb :=
        if_neg fun h => h.1 rfl
      have hv : (r + n - r) % n = 0 := hvroot
      rw [show tgt r = rb from htr] at hlast
      rw [if_pos rfl, if_pos hv, if_pos rfl, htr, ← hlast]
      rfl
    · have hv : (r + n - root) % n ≠ 0 := fun h => hrr ((unrotate_eq_zero hroot hr).mp h)
      rw [if_neg hrr, if_neg hv, if_neg hrr]

theorem interRoot_does (remote : ℕ → ℕ) {tmp tgt : BasicBuf} (hne : tgt ≠ tmp) (x : ℕ → ℕ → α) {l : ℕ}
    (hl : 0 < l) (m : Bufs BasicBuf α) :
    Does (.recvBuf (remote 0) tgt 0 count :: (range (l - 1)).flatMap fun j =>
        [.recvBuf (remote (j + 1)) tmp 0 count, opReduce op tmp 0 tgt 0 count])
      (.flat (range l) fun j => .one (remote j) (slice (x j) 0 count)) .nothing m fun m' =>
      Holds op.fn x (range l).reverse (m' tgt) 0 count ∧ ∀ c, c ≠ tgt → c ≠ tmp → m' c = m c := by
  obtain ⟨l, rfl⟩ := exists_eq_succ_of_ne_zero (ne_of_gt hl)
  have hturn (j : ℕ) (m₁ : Bufs BasicBuf α) (h₁ : Holds op.fn x (range (j + 1)).reverse (m₁ tgt) 0 count ∧
      ∀ c, c ≠ tgt → c ≠ tmp → m₁ c = m c) :
      Does [.recvBuf (remote (j + 1)) tmp 0 count, opReduce op tmp 0 tgt 0 count]
        (.one (remote (j + 1)) (slice (x (j + 1)) 0 count)) .nothing m₁ fun m₂ =>
        Holds op.fn x (range (j + 1 + 1)).reverse (m₂ tgt) 0 count ∧
          ∀ c, c ≠ tgt → c ≠ tmp → m₂ c = m c := by
    rw [← Mail.append_nothing (Mail.one _ _)]
    refine Does.recvBuf_cons (le_rfl) (Does.reduceBuf ⟨?_, fun c h h' => ?_⟩)
    · rw [range_succ, reverse_append, reverse_singleton]
      refine Holds.reduce_zero (.single_zero fun i hi => ?_) ?_
      · rw [Bufs.write_slice_zero hi]
      · rw [Bufs.write_of_ne _ hne]
        exact h₁.1
    · rw [Bufs.reduce_of_ne _ _ _ _ h, Bufs.write_of_ne _ h', h₁.2 c h h']
  have hfirst : Does [.recvBuf (remote 0) tgt 0 count] (.one (remote 0) (slice (x 0) 0 count)) .nothing m
      fun m₁ => Holds op.fn x (range (0 + 1)).reverse (m₁ tgt) 0 count ∧
        ∀ c, c ≠ tgt → c ≠ tmp → m₁ c = m c := by
    refine Does.recvBuf (le_rfl)
      ⟨Holds.single_zero fun i hi => ?_, fun c h _ => Bufs.write_of_ne _ h⟩
    rw [Bufs.write_slice_zero hi]
  refine (hfirst.append fun m₁ h₁ => Does.loop (fun k (m' : Bufs BasicBuf α) =>
    Holds op.fn x (range (k + 1)).reverse (m' tgt) 0 count ∧ ∀ c, c ≠ tgt → c ≠ tmp → m' c = m c) l h₁
      fun j _ m₂ h₂ => hturn j m₂ h₂).congr (fun s => ?_) fun d => ?_
  · rw [range_succ_eq_map, Mail.flat_cons, Mail.flat_map]
    rfl
  · rw [Mail.nothing_append, Mail.flat_nothing]

theorem flat_group (n l : ℕ) (f : ℕ → List α) (s : ℕ) :
    Mail.flat (range l) (fun j => Mail.one (n + j) (f (n + j))) s =
      if n ≤ s ∧ s < n + l then [f s] else [] := by
  by_cases hs : n ≤ s ∧ s < n + l
  · obtain ⟨j, rfl⟩ := Nat.exists_eq_add_of_le hs.1
    rw [if_pos hs]
    exact Mail.flat_one nodup_range (q := fun j => n + j) (fun j => f (n + j))
      (mem_range.mpr (by omega)) fun _ _ h => by omega
  · rw [if_neg hs]
    refine Mail.flat_one_eq_nil (q := fun j => n + j) _ fun j hj heq => hs ?_
    have := mem_range.mp hj
    omega

theorem reduceLinInter_gives {l : ℕ} (hl : 0 < l) {root : ℕ} (hroot : root < n) :
    Gives (n + l) (fun p => if p < n then reduceLinInter (n + ·) l count op
        (if p = root then .mpiRoot else .procNull) else reduceLinInter id n count op (.rank root)) m
      fun m' => Holds op.fn (fun r => m (n + r) .sbuf) (range l).reverse (m' root .rbuf) 0 count ∧
        ∀ p < n + l, m' p .sbuf = m p .sbuf := by
  refine (toRoot_gives count (Nat.lt_add_right _ hroot) (n ≤ ·) (Nat.not_le_of_lt hroot)
    (fun s => m s .sbuf) (fun p (m' : Bufs BasicBuf α) => (p = root → Holds op.fn
      (fun r => m (n + r) .sbuf) (range l).reverse (m' .rbuf) 0 count) ∧
      m' .sbuf = m p .sbuf) (fun p _ hpr => ?_) ?_).mono fun m' h =>
    ⟨(h root (Nat.lt_add_right _ hroot)).1 rfl, fun p hp => (h p hp).2⟩
  · by_cases hp : p < n
    · rw [if_pos hp, if_neg hpr, if_neg (Nat.not_le_of_lt hp)]
      exact .nil ⟨fun h => absurd h hpr, rfl⟩
    · rw [if_neg hp, if_pos (Nat.le_of_not_lt hp)]
      refine Does.sendBuf (fun i _ => ?_) ⟨fun h => absurd h hpr, rfl⟩
      rw [zero_add]
  · rw [if_pos hroot, if_pos rfl]
    refine ((interRoot_does (n + ·) (by decide) (fun r => m (n + r) .sbuf) hl (m root)).mono
      fun m' h => ⟨fun _ => h.1, h.2 _ (by decide) (by decide)⟩).congr (fun s => ?_) fun _ => rfl
    rw [flat_group n l fun s => slice (m s .sbuf) 0 count]
    exact if_congr and_comm rfl rfl

end OpenMPI.Coll
