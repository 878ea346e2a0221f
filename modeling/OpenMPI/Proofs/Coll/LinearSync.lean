import OpenMPI.Proofs.Coll.Gather
import OpenMPI.Proofs.Coll.Signature

/-!
# The synchronised linear gather

The root hears the first segment of one rank after the other, and then the second segments.  What it has in its buffer is told by the
bytes that have come (`Filled`).  It can take the two messages of a rank exactly if both have cut the block at the same byte
(`gathers_iff`).
-/

namespace OpenMPI.Coll

open Lib List Function Nat

variable {α : Type*}

section Moves

variable {size rank root first N i : ℕ} {s r : Description} {inPlace : Bool}

theorem linearSyncSender_scale (hN : s.count * s.typelng = N) :
    (linearSyncSender root first s).map (BufMove.scale s.typelng) =
      [.recv root .sbuf 0 0, .send root .sbuf 0 (segmentBytes first s.typelng N),
        .send root .sbuf (segmentBytes first s.typelng N) (N - segmentBytes first s.typelng N)] := by
  unfold linearSyncSender
  simp only [map_cons, map_nil, BufMove.scale, zero_mul, Nat.sub_mul, computedSegcount_mul, hN]

def firstMoves (first T N i : ℕ) : List (BufMove RootedBuf) := [.send i .rbuf 0 0, .recv i .rbuf (i * N) (segmentBytes first T N)]

def secondMoves (first T N i : ℕ) : List (BufMove RootedBuf) :=
  [.recv i .rbuf (i * N + segmentBytes first T N) (N - segmentBytes first T N)]

theorem linearSyncFirst_scale (hN : r.count * r.typelng = N) :
    (linearSyncFirst size rank first r).map (BufMove.scale r.typelng) =
      (range size).flatMap fun i => if i = rank then [] else firstMoves first r.typelng N i := by
  unfold linearSyncFirst
  rw [map_flatMap]
  refine congrArg (fun f => (range size).flatMap f) (funext fun i => ?_)
  rw [apply_ite (List.map (BufMove.scale r.typelng))]
  simp only [map_cons, map_nil, BufMove.scale, zero_mul, mul_assoc, computedSegcount_mul, hN, firstMoves]

theorem linearSyncSecond_scale (hN : r.count * r.typelng = N) :
    (linearSyncSecond size rank first r).map (BufMove.scale r.typelng) =
      (range size).flatMap fun i => if i = rank then [] else secondMoves first r.typelng N i := by
  unfold linearSyncSecond
  rw [map_flatMap]
  refine congrArg (fun f => (range size).flatMap f) (funext fun i => ?_)
  rw [apply_ite (List.map (BufMove.scale r.typelng))]
  simp only [map_cons, map_nil, BufMove.scale, add_mul, Nat.sub_mul, mul_assoc, computedSegcount_mul, hN, secondMoves]

theorem sent_sender (hN : s.count * s.typelng = N) (hr : i ≠ root) :
    BufMove.sent root (linearSyncMoves size i root first s r inPlace) =
      [segmentBytes first s.typelng N, N - segmentBytes first s.typelng N] := by
  unfold linearSyncMoves
  rw [if_pos hr, linearSyncSender_scale hN, sent_recv, sent_send, if_pos rfl, sent_send, if_pos rfl]
  rfl

theorem filterMap_flatMap_pick {γ δ : Type*} {g : γ → Option δ} {body : ℕ → List γ} (hi : i < size)
    (h : ∀ j, j ≠ i → (body j).filterMap g = []) :
    ((range size).flatMap body).filterMap g = (body i).filterMap g := by
  rw [filterMap_flatMap]
  have hpick (j : ℕ) : (body j).filterMap g = if i = j then (body i).filterMap g else [] := by
    split_ifs with hij
    · rw [hij]
    · exact h j fun heq => hij heq.symm
  rw [funext hpick]
  exact Gives.flatMap_layer _ hi

theorem rooms_root (hN : r.count * r.typelng = N) (hi : i < size) (hr : i ≠ root) :
    BufMove.rooms i (linearSyncMoves size root root first s r inPlace) =
      [(.rbuf, i * N, segmentBytes first r.typelng N),
        (.rbuf, i * N + segmentBytes first r.typelng N, N - segmentBytes first r.typelng N)] := by
  have hfirst (j : ℕ) : (firstMoves first r.typelng N j).filterMap (BufMove.roomFrom i) =
      if j = i then [(.rbuf, j * N, segmentBytes first r.typelng N)] else [] := rooms_recv
  have hsecond (j : ℕ) : (secondMoves first r.typelng N j).filterMap (BufMove.roomFrom i) =
      if j = i then [(.rbuf, j * N + segmentBytes first r.typelng N, N - segmentBytes first r.typelng N)] else [] := rooms_recv
  have hown : (if inPlace = true then []
      else [BufMove.copy RootedBuf.sbuf 0 (s.count * s.typelng) RootedBuf.rbuf (root * r.count * r.typelng)
        (r.count * r.typelng)]).filterMap
        (BufMove.roomFrom i) = [] := by
    split_ifs
    · rfl
    · rfl
  unfold linearSyncMoves
  rw [if_neg (not_not.mpr rfl), linearSyncFirst_scale hN, linearSyncSecond_scale hN, BufMove.rooms, filterMap_append,
    filterMap_append, hown, filterMap_flatMap_pick hi fun j hj => ?first, filterMap_flatMap_pick hi fun j hj => ?second]
  case first =>
    split_ifs
    · rfl
    · rw [hfirst, if_neg hj]
  case second =>
    split_ifs
    · rfl
    · rw [hsecond, if_neg hj]
  rw [if_neg hr, if_neg hr, hfirst, hsecond, if_pos rfl, if_pos rfl]
  rfl

end Moves

section Filled

variable {size root N : ℕ} {m : ℕ → Bufs RootedBuf α} {m' : Bufs RootedBuf α} {came came' : ℕ → ℕ → Prop}

/-- In the buffer of the root are the bytes of the blocks that came, and nothing else has changed. -/
structure Filled (size root N : ℕ) (m : ℕ → Bufs RootedBuf α) (came : ℕ → ℕ → Prop) (m' : Bufs RootedBuf α) : Prop where
  filled : ∀ i < size, ∀ x < N, came i x → m' .rbuf (i * N + x) = m i .sbuf x
  kept : ∀ i < size, ∀ x < N, ¬came i x → m' .rbuf (i * N + x) = m root .rbuf (i * N + x)
  beyond : ∀ y, size * N ≤ y → m' .rbuf y = m root .rbuf y
  others : ∀ b, b ≠ .rbuf → m' b = m root b

theorem Filled.start : Filled size root N m (fun _ _ => False) (m root) :=
  ⟨fun _ _ _ _ h => h.elim, fun _ _ _ _ _ => rfl, fun _ _ => rfl, fun _ _ => rfl⟩

theorem Filled.congr (h : Filled size root N m came m') (heq : ∀ i < size, ∀ x < N, came' i x ↔ came i x) :
    Filled size root N m came' m' :=
  ⟨fun i hi x hx hc => h.filled i hi x hx ((heq i hi x hx).mp hc),
    fun i hi x hx hc => h.kept i hi x hx (mt (heq i hi x hx).mpr hc), h.beyond, h.others⟩

theorem place_iff {i j x a n : ℕ} (hx : x < N) (ha : a + n ≤ N) :
    j * N + a ≤ i * N + x ∧ i * N + x < j * N + a + n ↔ i = j ∧ a ≤ x ∧ x < a + n := by
  constructor
  · rintro ⟨hle, hlt⟩
    have hij : i = j := by
      rcases lt_trichotomy i j with h | h | h
      · have := mul_le_mul_right N (succ_le_of_lt h)
        rw [succ_mul] at this
        omega
      · exact h
      · have := mul_le_mul_right N (succ_le_of_lt h)
        rw [succ_mul] at this
        omega
    subst hij
    exact ⟨rfl, by omega, by omega⟩
  · rintro ⟨rfl, h1, h2⟩
    exact ⟨by omega, by omega⟩

theorem Filled.write (h : Filled size root N m came m') {j a n : ℕ} (hj : j < size) (ha : a + n ≤ N) :
    Filled size root N m (fun i x => came i x ∨ i = j ∧ a ≤ x ∧ x < a + n)
      (m'.write .rbuf (j * N + a) (slice (m j .sbuf) a n)) := by
  have hpiece (i x : ℕ) (hx : x < N) : m'.write .rbuf (j * N + a) (slice (m j .sbuf) a n) .rbuf (i * N + x) =
      if i = j ∧ a ≤ x ∧ x < a + n then m i .sbuf x else m' .rbuf (i * N + x) := by
    rw [Bufs.write_slice_apply]
    refine if_ctx_congr ((and_iff_right rfl).trans (place_iff hx ha)) (fun hin => ?_) fun _ => rfl
    obtain ⟨rfl, h1, -⟩ := hin
    rw [show a + (i * N + x - (i * N + a)) = x by omega]
  refine ⟨fun i hi x hx hc => ?_, fun i hi x hx hc => ?_, fun y hy => ?_, fun b hb => ?_⟩
  · rw [hpiece i x hx]
    split_ifs with hin
    · rfl
    · exact h.filled i hi x hx (hc.resolve_right hin)
  · rw [hpiece i x hx, if_neg fun hin => hc (.inr hin)]
    exact h.kept i hi x hx fun hcame => hc (.inl hcame)
  · have hend := mul_le_mul_right N (succ_le_of_lt hj)
    rw [succ_mul] at hend
    rw [Bufs.write_slice_apply, if_neg (by omega)]
    exact h.beyond y hy
  · rw [Bufs.write_of_ne _ hb]
    exact h.others b hb

end Filled

/-- However the ranks run, they end with the blocks of all in the buffer of the root, and nothing else has changed. -/
def Gathers (α : Type*) (size root N : ℕ) (inPlace : Bool) (prog : ℕ → List (Instr (Bufs RootedBuf α) α)) : Prop :=
  ∀ m, Finishes size prog m fun m' =>
    (∀ i < size, ∀ x < N, m' root .rbuf (i * N + x) = gatherBlock inPlace root N m i x) ∧
      (∀ y, size * N ≤ y → m' root .rbuf y = m root .rbuf y) ∧ (∀ b, b ≠ .rbuf → m' root b = m root b) ∧
      ∀ r < size, r ≠ root → m' r = m r

section Gathers

variable {size root first N G : ℕ} {s : ℕ → Description} {r : Description} {inPlace : Bool}

def turn (root N G i p : ℕ) : List (Instr (Bufs RootedBuf α) α) :=
  ((if p = root then [.sendBuf i .rbuf 0 0] else []) ++ if p = i then [.recvBuf root .sbuf 0 0] else []) ++
    ((if p = i then [.sendBuf root .sbuf 0 G] else []) ++ if p = root then [.recvBuf i .rbuf (i * N) G] else [])

def BeforeTurn (size root N G : ℕ) (m : ℕ → Bufs RootedBuf α) (k : ℕ) (m' : ℕ → Bufs RootedBuf α) : Prop :=
  (∀ p < size, p ≠ root → m' p = m p) ∧ Filled size root N m (fun i x => i < k ∧ i ≠ root ∧ x < G) (m' root)

theorem turn_gives (hroot : root < size) (hG : G ≤ N) {m m' : ℕ → Bufs RootedBuf α} {i : ℕ} (hi : i < size) (hne : i ≠ root)
    (h : BeforeTurn size root N G m i m') : Gives size (turn root N G i) m' (BeforeTurn size root N G m (i + 1)) := by
  obtain ⟨hothers, hfilled⟩ := h
  have hgo : Gives size (fun p => (if p = root then [.sendBuf i .rbuf 0 0] else []) ++
      if p = i then [.recvBuf root .sbuf 0 0] else []) m' fun m₁ => ∀ p < size, m₁ p =
        if p = i then (m' i).write .sbuf 0 (slice (m' root .rbuf) 0 0) else m' p :=
    Gives.message hroot hi (Ne.symm hne) (le_of_eq (length_slice ..))
  refine hgo.append fun m₁ h₁ => ?_
  have hsegment : Gives size (fun p => (if p = i then [.sendBuf root .sbuf 0 G] else []) ++
      if p = root then [.recvBuf i .rbuf (i * N) G] else []) m₁ fun m₂ => ∀ p < size, m₂ p =
        if p = root then (m₁ root).write .rbuf (i * N) (slice (m₁ i .sbuf) 0 G) else m₁ p :=
    Gives.message hi hroot hne (le_of_eq (length_slice ..))
  refine hsegment.mono fun m₂ h₂ => ?_
  have hsame (p : ℕ) (hp : p < size) : m₁ p = m' p := by
    rw [h₁ p hp]
    split_ifs with hpi
    · subst hpi
      funext b x
      exact write_of_misses fun hx => absurd hx.2.2 (Nat.not_lt_of_le hx.2.1)
    · rfl
  refine ⟨fun p hp hpr => ?_, ?_⟩
  · rw [h₂ p hp, if_neg hpr, hsame p hp]
    exact hothers p hp hpr
  · rw [h₂ root hroot, if_pos rfl, hsame i hi, hsame root hroot, hothers i hi hne]
    have hwrite := hfilled.write hi (show 0 + G ≤ N by omega)
    rw [add_zero] at hwrite
    refine hwrite.congr fun j _ x _ => ?_
    constructor
    · rintro ⟨hj, hjr, hx⟩
      rcases Nat.lt_succ_iff_lt_or_eq.mp hj with hlt | rfl
      · exact .inl ⟨hlt, hjr, hx⟩
      · exact .inr ⟨rfl, zero_le x, by omega⟩
    · rintro (⟨hj, hjr, hx⟩ | ⟨rfl, -, hx⟩)
      · exact ⟨lt_succ_of_lt hj, hjr, hx⟩
      · exact ⟨Nat.lt_succ_self j, hne, by omega⟩

theorem turns_give (hroot : root < size) (hG : G ≤ N) (m : ℕ → Bufs RootedBuf α) :
    Gives size (fun p => (range size).flatMap fun i => if i = root then [] else turn root N G i p) m
      (BeforeTurn size root N G m size) := by
  refine Gives.loop (BeforeTurn size root N G m) size ⟨fun _ _ _ => rfl, ?_⟩ fun i hi m' h => ?_
  · exact Filled.start.congr fun j _ x _ => by simp
  · by_cases hir : i = root
    · simp only [if_pos hir]
      refine Gives.nil ⟨h.1, h.2.congr fun j _ x _ => ?_⟩
      constructor
      · rintro ⟨hj, hjr, hx⟩
        exact ⟨by omega, hjr, hx⟩
      · rintro ⟨hj, hjr, hx⟩
        exact ⟨by omega, hjr, hx⟩
    · simp only [if_neg hir]
      exact turn_gives hroot hG hi hir h

def ownInstr (inPlace : Bool) (root N : ℕ) : List (Instr (Bufs RootedBuf α) α) :=
  if inPlace then [] else [.work fun m => m.write .rbuf (root * N) ((m.read .sbuf 0 N).take N)]

/-- What has come when the root has copied its own data, and hears the second segments of the ranks before `k`. -/
def CameBefore (inPlace : Bool) (root G k i x : ℕ) : Prop :=
  i ≠ root ∧ (x < G ∨ i < k) ∨ i = root ∧ inPlace = false

theorem own_exec {m : ℕ → Bufs RootedBuf α} {m' : Bufs RootedBuf α} (hroot : root < size) (inPlace : Bool)
    (h : Filled size root N m (fun i x => i < size ∧ i ≠ root ∧ x < G) m') :
    ∃ m'', Exec (ownInstr inPlace root N) m' .nothing m'' .nothing ∧ Filled size root N m (CameBefore inPlace root G 0) m'' := by
  unfold ownInstr
  cases inPlace with
  | true =>
    refine ⟨m', .nil m', h.congr fun i hi x _ => ?_⟩
    simp [CameBefore, hi]
  | false =>
    refine ⟨_, .work_one _ m', ?_⟩
    have hread : (m'.read .sbuf 0 N).take N = slice (m root .sbuf) 0 N := by
      rw [Bufs.read, h.others .sbuf (by decide), take_slice _ _ (le_rfl)]
    rw [hread]
    have hwrite := h.write hroot (show 0 + N ≤ N by omega)
    rw [add_zero] at hwrite
    refine hwrite.congr fun i hi x hx => ?_
    simp [CameBefore, hi, hx]

theorem second_does {m : ℕ → Bufs RootedBuf α} {m' : Bufs RootedBuf α} (hG : G ≤ N)
    (h : Filled size root N m (CameBefore inPlace root G 0) m') :
    Does ((range size).flatMap fun i => if i = root then [] else [.recvBuf i .rbuf (i * N + G) (N - G)])
      (fun x => if x < size ∧ x ≠ root then [slice (m x .sbuf) G (N - G)] else []) .nothing m'
      (Filled size root N m (CameBefore inPlace root G size)) := by
  have hturn (i : ℕ) (hi : i < size) (m₁ : Bufs RootedBuf α) (h₁ : Filled size root N m (CameBefore inPlace root G i) m₁) :
      Does (if i = root then [] else [.recvBuf i .rbuf (i * N + G) (N - G)])
        (if i ≠ root then .one i (slice (m i .sbuf) G (N - G)) else .nothing) .nothing m₁
        (Filled size root N m (CameBefore inPlace root G (i + 1))) := by
    by_cases hir : i = root
    · rw [if_pos hir, if_neg (not_not.mpr hir)]
      refine .nil (h₁.congr fun j _ x _ => ?_)
      have hiff : j ≠ root → (j < i + 1 ↔ j < i) := by omega
      unfold CameBefore
      constructor
      · rintro (⟨hj, hx⟩ | hown)
        · exact .inl ⟨hj, hx.imp id (hiff hj).mp⟩
        · exact .inr hown
      · rintro (⟨hj, hx⟩ | hown)
        · exact .inl ⟨hj, hx.imp id (hiff hj).mpr⟩
        · exact .inr hown
    · rw [if_neg hir, if_pos hir]
      refine Does.recvBuf (le_rfl) ((h₁.write hi (show G + (N - G) ≤ N by omega)).congr fun j _ x hx => ?_)
      unfold CameBefore
      constructor
      · rintro (⟨hj, hx' | hlt⟩ | hown)
        · exact .inl (.inl ⟨hj, .inl hx'⟩)
        · rcases Nat.lt_succ_iff_lt_or_eq.mp hlt with hlt | rfl
          · exact .inl (.inl ⟨hj, .inr hlt⟩)
          · rcases lt_or_ge x G with hx' | hx'
            · exact .inl (.inl ⟨hj, .inl hx'⟩)
            · exact .inr ⟨rfl, hx', by omega⟩
        · exact .inl (.inr hown)
      · rintro ((⟨hj, hx'⟩ | hown) | ⟨rfl, -, -⟩)
        · exact .inl ⟨hj, hx'.imp id lt_succ_of_lt⟩
        · exact .inr hown
        · exact .inl ⟨hir, .inr (Nat.lt_succ_self j)⟩
  refine (Does.loop (fun i => Filled size root N m (CameBefore inPlace root G i)) size h hturn).congr (fun x => ?_) fun x => ?_
  · rw [Mail.flat_if nodup_range]
    exact if_congr (and_congr_left fun _ => mem_range) rfl rfl
  · rw [Mail.flat_nothing]

theorem seconds_give {m m' : ℕ → Bufs RootedBuf α} (hroot : root < size) (hG : G ≤ N) (h : BeforeTurn size root N G m size m') :
    Gives size (fun p => (if p = root then ownInstr inPlace root N else [.sendBuf root .sbuf G (N - G)]) ++
        if p = root then (range size).flatMap fun i => if i = root then [] else [.recvBuf i .rbuf (i * N + G) (N - G)] else [])
      m' fun m'' => ∀ p < size, if p = root then Filled size root N m (CameBefore inPlace root G size) (m'' p) else m'' p = m p := by
  obtain ⟨hothers, hfilled⟩ := h
  obtain ⟨own, hexec, hown⟩ := own_exec hroot inPlace hfilled
  refine Gives.round (update m' root own)
    (fun p m'' => if p = root then Filled size root N m (CameBefore inPlace root G size) m'' else m'' = m p)
    (fun a b => if (a < size ∧ a ≠ root) ∧ b = root then [slice (m a .sbuf) G (N - G)] else []) (fun a b hab => ?_) (fun p hp => ?_)
    fun p hp => ?_
  · split_ifs at hab with hin
    · obtain ⟨⟨ha, -⟩, rfl⟩ := hin
      exact ⟨ha, hroot⟩
    · exact absurd rfl hab
  · by_cases hpr : p = root
    · subst hpr
      rw [if_pos rfl, update_self]
      exact hexec.congr (fun _ => rfl) fun x => (if_neg fun hin => hin.1.2 rfl).symm
    · rw [if_neg hpr, update_of_ne hpr]
      refine (Exec.send_one root _ (m' p)).congr (fun _ => rfl) fun x => ?_
      rw [hothers p hp hpr]
      simp [Mail.one, Bufs.read, hp, hpr]
  · by_cases hpr : p = root
    · subst hpr
      rw [if_pos rfl, update_self]
      refine ((second_does hG hown).congr (fun x => if_congr (and_iff_left rfl).symm rfl rfl) fun _ => rfl).mono fun m'' hm'' => ?_
      rw [if_pos rfl]
      exact hm''
    · rw [if_neg hpr, update_of_ne hpr]
      refine ⟨m' p, (Exec.nil (m' p)).congr (fun x => ?_) fun _ => rfl, ?_⟩
      · exact (if_neg fun hin => hpr hin.2).symm
      · dsimp only
        rw [if_neg hpr]
        exact hothers p hp hpr

theorem ownInstr_eq {root : ℕ} {s : Description} (hs : inPlace = false → s.count * s.typelng = N) (hr : r.count * r.typelng = N) :
    (if inPlace then [] else [.copy .sbuf 0 (s.count * s.typelng) .rbuf (root * r.count * r.typelng) (r.count * r.typelng)]).map
      BufMove.instr = ownInstr (α := α) inPlace root N := by
  unfold ownInstr
  cases inPlace with
  | true => rfl
  | false =>
    rw [hs rfl, mul_assoc, hr]
    rfl

theorem flatMap_turn {p : ℕ} (hp : p < size) (hpr : p ≠ root) :
    ((range size).flatMap fun i => if i = root then [] else turn (α := α) root N G i p) =
      [.recvBuf root .sbuf 0 0, .sendBuf root .sbuf 0 G] := by
  have hturn (i : ℕ) : (if i = root then [] else turn (α := α) root N G i p) =
      if p = i then [.recvBuf root .sbuf 0 0, .sendBuf root .sbuf 0 G] else [] := by
    unfold turn
    by_cases hpi : p = i
    · subst hpi
      simp [hpr]
    · simp [hpi, hpr]
  rw [funext hturn]
  exact Gives.flatMap_layer _ hp

theorem gathers_of_same (hroot : root < size) (hs : ∀ p < size, (p = root → inPlace = false) → (s p).count * (s p).typelng = N)
    (hr : r.count * r.typelng = N)
    (hsame : ∀ p < size, p ≠ root → segmentBytes first (s p).typelng N = segmentBytes first r.typelng N) :
    Gathers α size root N inPlace fun p => gatherIntraLinearSync size p root first (s p) r inPlace := by
  have hG : segmentBytes first r.typelng N ≤ N := by
    have := segmentBytes_le first r.typelng r.count
    rwa [hr] at this
  intro m
  have hprog (p : ℕ) (hp : p < size) :
      ((range size).flatMap fun i => if i = root then [] else turn (α := α) root N (segmentBytes first r.typelng N) i p) ++
        ((if p = root then ownInstr inPlace root N
          else [.sendBuf root .sbuf (segmentBytes first r.typelng N) (N - segmentBytes first r.typelng N)]) ++
        if p = root then (range size).flatMap fun i => if i = root then []
          else [.recvBuf i .rbuf (i * N + segmentBytes first r.typelng N) (N - segmentBytes first r.typelng N)] else []) =
      gatherIntraLinearSync size p root first (s p) r inPlace := by
    unfold gatherIntraLinearSync linearSyncMoves
    by_cases hpr : p = root
    · subst hpr
      rw [if_pos rfl, if_pos rfl, if_neg (not_not.mpr rfl), map_append, map_append,
        ownInstr_eq (fun h => hs p hp fun _ => h) hr, linearSyncFirst_scale hr, linearSyncSecond_scale hr, map_flatMap,
        map_flatMap, append_assoc]
      congr 1
      · refine flatMap_congr fun i _ => ?_
        by_cases hip : i = p
        · rw [if_pos hip, if_pos hip]
          rfl
        · have hpi : ¬p = i := fun h => hip h.symm
          rw [if_neg hip, if_neg hip, turn, if_pos rfl, if_pos rfl, if_neg hpi, if_neg hpi]
          rfl
      · congr 1
        refine flatMap_congr fun i _ => ?_
        split_ifs
        · rfl
        · rfl
    · rw [if_neg hpr, if_neg hpr, if_pos hpr, linearSyncSender_scale (hs p hp fun h => absurd h hpr), hsame p hp hpr,
        flatMap_turn hp hpr]
      rfl
  refine (Finishes.of_gives ((turns_give hroot hG m).append fun m₁ h₁ => seconds_give hroot hG h₁)).congr hprog |>.mono fun m' hm' => ?_
  have hfilled := hm' root hroot
  rw [if_pos rfl] at hfilled
  refine ⟨fun i hi x hx => ?_, hfilled.beyond, hfilled.others, fun p hp hpr => ?_⟩
  · unfold gatherBlock
    by_cases hown : inPlace = true ∧ i = root
    · obtain ⟨hin, rfl⟩ := hown
      rw [if_pos ⟨hin, rfl⟩]
      refine hfilled.kept i hi x hx ?_
      simp [CameBefore, hin]
    · rw [if_neg hown]
      refine hfilled.filled i hi x hx ?_
      by_cases hir : i = root
      · exact .inr ⟨hir, by simpa [hir] using hown⟩
      · exact .inl ⟨hir, .inr hi⟩
  · have h := hm' p hp
    rwa [if_neg hpr] at h

theorem gathers_iff [Inhabited α] (hroot : root < size)
    (hs : ∀ p < size, (p = root → inPlace = false) → (s p).count * (s p).typelng = N) (hr : r.count * r.typelng = N) :
    (Gathers α size root N inPlace fun p => gatherIntraLinearSync size p root first (s p) r inPlace) ↔
      ∀ p < size, p ≠ root → segmentBytes first (s p).typelng N = segmentBytes first r.typelng N := by
  refine ⟨fun h p hp hpr => ?_, gathers_of_same hroot hs hr⟩
  have hsp := hs p hp fun heq => absurd heq hpr
  obtain ⟨-, -, hfits, -⟩ := (h fun _ _ _ => default).exists_run
  have hedge := hfits p hp root hroot
  rw [sent_sender hsp hpr, rooms_root hr hp hpr] at hedge
  obtain ⟨hfirst, hrest⟩ := forall₂_cons.mp hedge
  obtain ⟨hsecond, -⟩ := forall₂_cons.mp hrest
  have hle := segmentBytes_le first (s p).typelng (s p).count
  have hle' := segmentBytes_le first r.typelng r.count
  rw [hsp] at hle
  rw [hr] at hle'
  dsimp only at hfirst hsecond
  omega

end Gathers

/-- For ranks that describe their data by `d`, the root of a gather receiving by `r`: one broadcast is chosen, and the segmented
broadcasts and the synchronised gather come to their end with the right data. -/
structure SignatureOnly (α : Type*) (model : SizeModel) (size root segsize chains first N : ℕ) (d : ℕ → Description) (r : Description)
    (inPlace : Bool) : Prop where
  choice : ∀ p < size, bcastIntraDecFixed model size (d p) = bcastIntraDecFixed model size (d root)
  bintree : Delivers α size root N fun p => bcastDescribed (buildTree 2 size p root) p root segsize (d p)
  pipeline : Delivers α size root N fun p => bcastDescribed (buildChain 1 size p root) p root segsize (d p)
  chain : Delivers α size root N fun p => bcastDescribed (buildChain chains size p root) p root segsize (d p)
  gather : Gathers α size root N inPlace fun p => gatherIntraLinearSync size p root first (d p) r inPlace

/-- Short messages, or all ranks have a single element or all have more; and the sizes of the datatypes are all nearest to the segment
sizes in the same multiple. -/
structure Agree (size root segsize first N : ℕ) (d : ℕ → Description) (r : Description) : Prop where
  counts : N < 2048 ∨ (∀ p < size, (d p).count ≤ 1) ∨ ∀ p < size, 1 < (d p).count
  segments : ∀ p < size, segmentBytes segsize (d p).typelng N = segmentBytes segsize (d root).typelng N
  first : ∀ p < size, p ≠ root → segmentBytes first (d p).typelng N = segmentBytes first r.typelng N

def pairsOf (p : ℕ) : Description := if p = 0 then ⟨1500, 4⟩ else ⟨750, 8⟩

def triplesOf (p : ℕ) : Description := if p = 0 then ⟨1500, 4⟩ else if p = 1 then ⟨500, 12⟩ else ⟨1, 6000⟩

theorem describes_pairsOf : Describes 3 6000 pairsOf := by
  refine ⟨fun p _ => ?_, fun p _ => ?_⟩ <;> unfold pairsOf <;> split_ifs <;> decide

theorem describes_triplesOf : Describes 3 6000 triplesOf := by
  refine ⟨fun p _ => ?_, fun p _ => ?_⟩ <;> unfold triplesOf <;> split_ifs <;> decide

end OpenMPI.Coll
