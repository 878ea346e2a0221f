import OpenMPI.Proofs.Coll.Basic
import OpenMPI.Proofs.Coll.ReduceScatter

/-!
# The order of the ranks in the basic reductions

Not all of them keep it: the exclusive scan turns the operands around where the operation is not said to
commute, and so do the reductions between two groups.
-/

namespace OpenMPI.Coll

open Lib List

variable {α : Type*} {n l : ℕ} {op : Op α} {m : ℕ → Bufs BasicBuf α} {rcounts : ℕ → ℕ}

theorem scatters_gives {P : ℕ → List (Instr (Bufs BasicBuf α) α)} (rootOf : ℕ → ℕ)
    (hroots : ∀ p < n, rootOf p < n ∧ rootOf (rootOf p) = rootOf p) (S : ℕ → Prop) [DecidablePred S]
    (msg : ℕ → List α) (post : ℕ → Bufs BasicBuf α → Prop)
    (hroot : ∀ p < n, rootOf p = p → Does (P p) .nothing
      (fun d => if (d < n ∧ rootOf d = p ∧ d ≠ p) ∧ S d then [msg d] else []) (m p) (post p))
    (hother : ∀ p < n, rootOf p ≠ p → Does (P p) (if S p then .one (rootOf p) (msg p) else .nothing)
      .nothing (m p) (post p)) :
    Gives n P m fun m' => ∀ p < n, post p (m' p) := by
  refine Gives.ordered post
    (fun s d => if (d < n ∧ rootOf d = s ∧ d ≠ s) ∧ S d then [msg d] else [])
    (fun p => if rootOf p = p then 0 else 1) (fun s d hne => ?_) fun p hp => ?_
  · split_ifs at hne with hsd
    · obtain ⟨⟨hd, rfl, hds⟩, -⟩ := hsd
      rw [if_pos (hroots d hd).2, if_neg (Ne.symm hds)]
      exact ⟨(hroots d hd).1, hd, one_pos⟩
    · exact absurd rfl hne
  · by_cases hrp : rootOf p = p
    · refine (hroot p hp hrp).congr (fun s => (if_neg fun h => ?_).symm) fun _ => rfl
      obtain ⟨⟨-, rfl, hne⟩, -⟩ := h
      exact hne hrp.symm
    · refine (hother p hp hrp).congr (fun s => ?_) fun d => (if_neg fun h => ?_).symm
      · by_cases hS : S p
        · rw [if_pos hS]
          refine if_congr ⟨fun h => ⟨⟨hp, h.symm, ?_⟩, hS⟩, fun h => h.1.2.1.symm⟩ rfl rfl
          rintro rfl
          exact hrp h.symm
        · rw [if_neg hS, if_neg fun h => hS h.2]
          rfl
      · obtain ⟨⟨hd, rfl, -⟩, -⟩ := h
        exact hrp (hroots d hd).2

variable {sb rb : BasicBuf} {size : ℕ}

theorem scattervRoot_does (hsb : sb ≠ rb) {root : ℕ} (hroot : root < size) (b : ℕ) (scounts offs : ℕ → ℕ)
    (m : Bufs BasicBuf α) :
    Does (scattervIntra (b + ·) size root root sb scounts offs rb (scounts root)) .nothing
      (fun d => if (b ≤ d ∧ d < b + size) ∧ d - b ≠ root ∧ 0 < scounts (d - b) then
        [slice (m sb) (offs (d - b)) (scounts (d - b))] else []) m fun m' =>
      (∀ i < scounts root, m' rb i = m sb (offs root + i)) ∧ ∀ c, c ≠ rb → m' c = m c := by
  have hturn (i : ℕ) (m₁ : Bufs BasicBuf α) (h₁ : (root < i → ∀ j < scounts root,
      m₁ rb j = m sb (offs root + j)) ∧ ∀ c, c ≠ rb → m₁ c = m c) :
      Does (if i = root then
          if 0 < scounts i then [sndrcv sb (offs i) (scounts i) rb 0 (scounts root)] else []
        else if 0 < scounts i then [.sendBuf (b + i) sb (offs i) (scounts i)] else []) .nothing
        (if i ≠ root ∧ 0 < scounts i then .one (b + i) (slice (m sb) (offs i) (scounts i)) else .nothing)
        m₁ fun m₂ => (root < i + 1 → ∀ j < scounts root, m₂ rb j = m sb (offs root + j)) ∧
          ∀ c, c ≠ rb → m₂ c = m c := by
    obtain ⟨hown, hframe⟩ := h₁
    by_cases hi : i = root
    · subst hi
      have hno : ¬(i ≠ i ∧ 0 < scounts i) := fun h => h.1 rfl
      rw [if_pos rfl, if_neg hno]
      by_cases hpos : 0 < scounts i
      · rw [if_pos hpos]
        refine sndrcv_does ⟨fun _ j hj => ?_, fun c hc => ?_⟩
        · rw [Bufs.copy_apply, if_pos ⟨rfl, Nat.zero_le j, by omega⟩, Nat.sub_zero, hframe sb hsb]
        · rw [Bufs.copy_of_ne _ _ _ hc, hframe c hc]
      · rw [if_neg hpos]
        exact .nil ⟨fun _ j hj => absurd (Nat.zero_lt_of_lt hj) hpos, hframe⟩
    · have hown' : root < i + 1 → ∀ j < scounts root, m₁ rb j = m sb (offs root + j) :=
        fun h => hown (by omega)
      rw [if_neg hi]
      by_cases hpos : 0 < scounts i
      · rw [if_pos hpos, if_pos ⟨hi, hpos⟩]
        exact Does.sendBuf (fun j _ => by rw [hframe sb hsb]) ⟨hown', hframe⟩
      · rw [if_neg hpos, if_neg fun h => hpos h.2]
        exact .nil ⟨hown', hframe⟩
  unfold scattervIntra
  rw [if_neg (not_not.mpr rfl)]
  refine ((Does.loop (fun k (m' : Bufs BasicBuf α) => (root < k → ∀ j < scounts root,
      m' rb j = m sb (offs root + j)) ∧ ∀ c, c ≠ rb → m' c = m c) size
    ⟨fun h => absurd h (Nat.not_lt_zero root), fun _ _ => rfl⟩ fun i _ m₁ h₁ => hturn i m₁ h₁).mono
      fun m' h' => ⟨h'.1 hroot, h'.2⟩).congr (fun s => ?_) fun d => ?_
  · rw [Mail.flat_nothing]
  · have hmap := Mail.flat_map (b + ·) (range size) fun q =>
      if q - b ≠ root ∧ 0 < scounts (q - b) then
        Mail.one q (slice (m sb) (offs (q - b)) (scounts (q - b))) else .nothing
    simp only [Function.comp_def, Nat.add_sub_cancel_left] at hmap
    rw [← hmap, Mail.flat_if (List.nodup_range.map fun _ _ h => add_left_cancel h)
      (fun q => q - b ≠ root ∧ 0 < scounts (q - b))
      fun q => slice (m sb) (offs (q - b)) (scounts (q - b))]
    refine if_congr (and_congr_left fun _ => ?_) rfl rfl
    simp only [mem_map, mem_range]
    constructor
    · rintro ⟨i, hi, rfl⟩
      omega
    · exact fun h => ⟨d - b, by omega, by omega⟩

theorem scattervOther_does (b size : ℕ) (sb rb : BasicBuf) {root rank : ℕ} (hrank : rank ≠ root)
    (scounts offs : ℕ → ℕ) (rcount : ℕ) (f : ℕ → α) (o : ℕ) (m : Bufs BasicBuf α) :
    Does (scattervIntra (b + ·) size rank root sb scounts offs rb rcount)
      (if 0 < rcount then .one (b + root) (slice f o rcount) else .nothing) .nothing m fun m' =>
      (∀ i < rcount, m' rb i = f (o + i)) ∧ ∀ c, c ≠ rb → m' c = m c := by
  unfold scattervIntra
  rw [if_pos hrank]
  by_cases hpos : 0 < rcount
  · rw [if_pos hpos, if_pos hpos]
    refine Does.recvBuf (le_rfl) ⟨fun i hi => ?_, fun c hc => Bufs.write_of_ne _ hc⟩
    rw [Bufs.write_slice_apply, if_pos ⟨rfl, Nat.zero_le i, by omega⟩, Nat.sub_zero]
  · rw [if_neg hpos, if_neg hpos]
    exact .nil ⟨fun i hi => absurd (Nat.zero_lt_of_lt hi) hpos, fun _ _ => rfl⟩

theorem scattervIntra_gives (hsb : sb ≠ rb) {root : ℕ} (hroot : root < n) (rcounts : ℕ → ℕ)
    (m : ℕ → Bufs BasicBuf α) :
    Gives n (fun r => scattervIntra id n r root sb rcounts (disps rcounts) rb (rcounts r)) m fun m' =>
      ∀ r < n, (∀ i < rcounts r, m' r rb i = m root sb (disps rcounts r + i)) ∧
        ∀ c, c ≠ rb → m' r c = m r c := by
  have hproc : (fun i => 0 + i) = id := funext fun i => zero_add i
  refine scatters_gives (fun _ => root) (fun _ _ => ⟨hroot, rfl⟩) (fun r => 0 < rcounts r)
    (fun r => slice (m root sb) (disps rcounts r) (rcounts r)) (fun r (m' : Bufs BasicBuf α) =>
      (∀ i < rcounts r, m' rb i = m root sb (disps rcounts r + i)) ∧ ∀ c, c ≠ rb → m' c = m r c)
    (fun r _ hr => ?_) fun r _ hr => ?_
  · subst hr
    have h := scattervRoot_does hsb hroot 0 rcounts (disps rcounts) (m root)
    rw [hproc] at h
    refine h.congr (fun _ => rfl) fun d => ?_
    rw [Nat.sub_zero, zero_add]
    refine if_congr ⟨?_, ?_⟩ rfl rfl
    · rintro ⟨⟨-, hd⟩, hne, hpos⟩
      exact ⟨⟨hd, rfl, hne⟩, hpos⟩
    · rintro ⟨⟨hd, -, hne⟩, hpos⟩
      exact ⟨⟨Nat.zero_le d, hd⟩, hne, hpos⟩
  · have h := scattervOther_does 0 n sb rb (Ne.symm hr) rcounts (disps rcounts) (rcounts r) (m root sb)
      (disps rcounts r) (m r)
    rwa [hproc, zero_add] at h

theorem balanced_of_pos (hn : 0 < n) (hpos : ∀ r < n, 0 < rcounts r) : Balanced n rcounts := by
  obtain ⟨K, remain, hsize, hremain, hlt⟩ := nearestPower_add hn
  unfold Balanced
  rw [hsize, show n - 2 ^ K = remain by omega]
  intro j w hw hj hempty
  have hsum := blockOff_add (tmpRcounts rcounts remain) w j
  have hmono := disps_mono (tmpRcounts rcounts remain) (show base w j + 1 ≤ base w j + 2 ^ j by
    have := Nat.two_pow_pos j
    omega)
  have hbase : base w j < 2 ^ K := lt_of_le_of_lt (Nat.div_mul_le_self w _) hw
  have hfirst : 0 < tmpRcounts rcounts remain (base w j) := by
    unfold tmpRcounts
    split_ifs with hlow
    · exact Nat.add_pos_left (hpos _ (by omega)) _
    · exact hpos _ (by omega)
  rw [disps_succ] at hmono
  rw [blockOff, hempty] at hsum
  omega

theorem reduceIntra_gives (hcomm : op.commute = true) (count : ℕ) {root : ℕ} (hroot : root < n)
    (crossover : ℕ) (k : Skew α) {sb rb : BasicBuf} (hsr : sb ≠ rb) (hsf : sb ≠ .freeBuffer) (hrf : rb ≠ .freeBuffer)
    (hri : rb ≠ .inplaceTemp) (m : ℕ → Bufs BasicBuf α) :
    Gives n (fun r => reduceIntra crossover n r root count op k sb rb false) m fun m' => ∀ r < n,
      Reduced root count rb (fun i => upTo op.fn (fun s => m s sb i) (n - 1)) (m r) r (m' r) := by
  have hown : rootOwn root sb rb false m = fun s => m s sb := funext fun s => funext fun i => by
    simp [rootOwn]
  unfold reduceIntra
  by_cases hsize : n ≤ crossover
  · simp only [if_pos hsize]
    refine (reduceLinIntra_gives hroot k hsr hsf hrf hri false).mono fun m' h r hr => ?_
    obtain ⟨f, hf, hred⟩ := h
    obtain ⟨hres, hframe⟩ := hred r hr
    rw [hown] at hf
    exact ⟨fun hrr i hi => (hres hrr i hi).trans (hf i hi), hframe⟩
  · simp only [if_neg hsize]
    have h : Gives n (fun r => reduceLogIntra n r root count op k sb rb false) m fun m' => ∀ r < n,
        Reduced root count rb (fun i => upTo op.fn (rootOwn root sb rb false m · i) (n - 1)) (m r) r
          (m' r) := reduceLogIntra_gives hcomm hroot k hsf hrf false
    rwa [hown] at h

theorem reduceScatterIntra_gives {junk : (ℕ → α) → ℕ → α} (hcomm : op.commute = true) (hn : 0 < n)
    (crossover : ℕ) (trueExtent extent : ℤ) (k : Skew α) (inPlace : Bool) (m : ℕ → Bufs BasicBuf α) :
    Gives n (fun r => reduceScatterIntra junk crossover n r rcounts trueExtent extent op k inPlace) m
      fun m' => Scattered n rcounts op (if inPlace then .rbuf else .sbuf) .rbuf m m' ∧
        (inPlace = false → ∀ r < n, m' r .sbuf = m r .sbuf) := by
  let sb : BasicBuf := if inPlace then .rbuf else .sbuf
  have hsb : sb ≠ .recvBuf ∧ sb ≠ .freeBuffer := by
    simp only [sb]
    split_ifs <;> exact ⟨BasicBuf.noConfusion, BasicBuf.noConfusion⟩
  unfold reduceScatterIntra
  by_cases h0 : disps rcounts n = 0
  · simp only [if_pos h0]
    refine Gives.nil ⟨fun r hr i hi => ?_, fun _ _ _ => rfl⟩
    rw [rcounts_eq_zero h0 hr] at hi
    exact absurd hi (Nat.not_lt_zero i)
  · simp only [if_neg h0]
    by_cases hbig : op.commute ∧ trueExtent + ((disps rcounts n : ℤ) - 1) * extent < commutativeLongMsg ∧
        ((range n).any (rcounts · == 0)) = false
    · have hpos : ∀ r < n, 0 < rcounts r := fun r hr => by
        have := any_eq_false.mp hbig.2.2 r (mem_range.mpr hr)
        exact Nat.pos_of_ne_zero fun h => this (beq_iff_eq.mpr h)
      simp only [if_pos hbig]
      exact (halving_gives (op.comm hcomm) hn (balanced_of_pos hn hpos) sb BasicBuf.noConfusion m).mono
        fun m' h => ⟨fun r hr => (h r hr).1, fun _ r hr => (h r hr).2 .sbuf BasicBuf.noConfusion
          BasicBuf.noConfusion BasicBuf.noConfusion⟩
    · simp only [if_neg hbig]
      refine (reduceIntra_gives hcomm (disps rcounts n) hn crossover k hsb.1 hsb.2 (by decide)
        (by decide) m).append fun m₁ h₁ => (scattervIntra_gives (by decide) hn rcounts m₁).mono
          fun m' h' => ⟨fun r hr i hi => ?_, fun _ r hr => ?_⟩
      · have hblock : disps rcounts r + i < disps rcounts n :=
          inBlock_lt hr ⟨Nat.le_add_right _ i, Nat.add_lt_add_left hi _⟩
        rw [(h' r hr).1 i hi, (h₁ 0 hn).1 rfl _ hblock]
      · rw [(h' r hr).2 .sbuf (by decide), (h₁ r hr).2 .sbuf (by decide) fun _ => by decide]

theorem exchangeGroups_gives (op : Op α) (hn : 0 < n) (hl : 0 < l) (total : ℕ) (m : ℕ → Bufs BasicBuf α) :
    Gives (n + l) (fun p => [.sendBuf (if p < n then n else 0) .sbuf 0 total] ++
        if p = 0 then .recvBuf (n + 0) .tmpbuf2 0 total :: (range (l - 1)).flatMap fun j =>
          [.recvBuf (n + (j + 1)) .tmpbuf 0 total, opReduce op .tmpbuf 0 .tmpbuf2 0 total]
        else if p = n then .recvBuf (id 0) .tmpbuf2 0 total :: (range (n - 1)).flatMap fun j =>
          [.recvBuf (id (j + 1)) .tmpbuf 0 total, opReduce op .tmpbuf 0 .tmpbuf2 0 total]
        else []) m fun m' => ∀ p < n + l,
      (p = 0 → Holds op.fn (fun r => m (n + r) .sbuf) (range l).reverse (m' p .tmpbuf2) 0 total) ∧
      (p = n → Holds op.fn (fun r => m r .sbuf) (range n).reverse (m' p .tmpbuf2) 0 total) ∧
      ∀ c, c ≠ .tmpbuf2 → c ≠ .tmpbuf → m' p c = m p c := by
  refine Gives.round m (fun p (m' : Bufs BasicBuf α) =>
      (p = 0 → Holds op.fn (fun r => m (n + r) .sbuf) (range l).reverse (m' .tmpbuf2) 0 total) ∧
      (p = n → Holds op.fn (fun r => m r .sbuf) (range n).reverse (m' .tmpbuf2) 0 total) ∧
      ∀ c, c ≠ .tmpbuf2 → c ≠ .tmpbuf → m' c = m p c)
    (fun s d => if s < n + l ∧ d = if s < n then n else 0 then [slice (m s .sbuf) 0 total] else [])
    (fun s d hne => ?_) (fun p hp => ?_) fun p hp => ?_
  · by_cases hsd : s < n + l ∧ d = if s < n then n else 0
    · refine ⟨hsd.1, ?_⟩
      rw [hsd.2]
      split_ifs <;> omega
    · rw [if_neg hsd] at hne
      exact absurd rfl hne
  · refine (Exec.send_one _ _ _).congr (fun _ => rfl) fun d => ?_
    exact if_congr (and_iff_right hp).symm rfl rfl
  · by_cases hp0 : p = 0
    · subst hp0
      rw [if_pos rfl]
      refine ((interRoot_does (n + ·) (by decide) (fun r => m (n + r) .sbuf) hl (m 0)).mono fun m' h =>
        ⟨fun _ => h.1, fun h0 => absurd h0 (ne_of_lt hn), h.2⟩).congr (fun s => ?_) fun _ => rfl
      rw [flat_group n l fun s => slice (m s .sbuf) 0 total]
      refine if_congr ⟨fun h => ⟨h.2, (if_neg (by omega)).symm⟩, fun h => ⟨?_, h.1⟩⟩ rfl rfl
      by_contra hlt
      have := h.2
      rw [if_pos (by omega)] at this
      omega
    · rw [if_neg hp0]
      by_cases hpn : p = n
      · subst hpn
        rw [if_pos rfl]
        refine ((interRoot_does id (by decide) (fun r => m r .sbuf) hn (m p)).mono fun m' h =>
          ⟨fun h0 => absurd h0 hp0, fun _ => h.1, h.2⟩).congr (fun s => ?_) fun _ => rfl
        have hflat := flat_group 0 p (fun s => slice (m s .sbuf) 0 total) s
        simp only [zero_add] at hflat
        rw [show (fun j => Mail.one (id j) (slice (m j .sbuf) 0 total)) =
          fun j => Mail.one j (slice (m j .sbuf) 0 total) from rfl, hflat]
        refine if_congr ⟨fun h => ⟨by omega, (if_pos h.2).symm⟩, fun h => ⟨Nat.zero_le s, ?_⟩⟩ rfl rfl
        by_contra hlt
        have := h.2
        rw [if_neg hlt] at this
        exact hp0 this
      · rw [if_neg hpn]
        refine (Does.nil ⟨fun h => absurd h hp0, fun h => absurd h hpn, fun _ _ _ => rfl⟩).congr
          (fun s => (if_neg fun h => ?_).symm) fun _ => rfl
        have := h.2
        split_ifs at this
        · exact hpn this
        · exact hp0 this

/-- The programs of the two groups, of `n` and `l` ranks, with the counts of each. -/
def interPrograms (n l : ℕ) (rcounts lcounts : ℕ → ℕ) (op : Op α) (p : ℕ) : List (Instr (Bufs BasicBuf α) α) :=
  if p < n then reduceScatterInter id (n + ·) n l p rcounts op
  else reduceScatterInter (n + ·) id l n (p - n) lcounts op

theorem reduceScatterInter_gives (hn : 0 < n) (hl : 0 < l) {rcounts lcounts : ℕ → ℕ}
    (hsum : disps rcounts n = disps lcounts l) (m : ℕ → Bufs BasicBuf α) :
    Gives (n + l) (interPrograms n l rcounts lcounts op) m fun m' =>
      (∀ r < n, ∀ i < rcounts r, Reduces op.fn (fun s => m (n + s) .sbuf (disps rcounts r + i))
        (range l).reverse (m' r .rbuf i)) ∧
      (∀ r < l, ∀ i < lcounts r, Reduces op.fn (fun s => m s .sbuf (disps lcounts r + i))
        (range n).reverse (m' (n + r) .rbuf i)) ∧
      ∀ p < n + l, m' p .sbuf = m p .sbuf := by
  let rootOf (p : ℕ) : ℕ := if p < n then 0 else n
  let own (p : ℕ) : ℕ := if p < n then rcounts p else lcounts (p - n)
  let place (p : ℕ) : ℕ := if p < n then disps rcounts p else disps lcounts (p - n)
  have hscatter (m₁ : ℕ → Bufs BasicBuf α) : Gives (n + l) (fun p =>
      if p < n then scattervIntra id n p 0 .tmpbuf2 rcounts (disps rcounts) .rbuf (rcounts p)
      else scattervIntra (n + ·) l (p - n) 0 .tmpbuf2 lcounts (disps lcounts) .rbuf (lcounts (p - n))) m₁
      fun m' => ∀ p < n + l, (∀ i < own p, m' p .rbuf i = m₁ (rootOf p) .tmpbuf2 (place p + i)) ∧
        ∀ c, c ≠ .rbuf → m' p c = m₁ p c := by
    have hproc : (fun i => 0 + i) = id := funext fun i => zero_add i
    refine scatters_gives rootOf (fun p hp => ?_) (fun p => 0 < own p)
      (fun p => slice (m₁ (rootOf p) .tmpbuf2) (place p) (own p)) (fun p (m' : Bufs BasicBuf α) =>
        (∀ i < own p, m' .rbuf i = m₁ (rootOf p) .tmpbuf2 (place p + i)) ∧
          ∀ c, c ≠ .rbuf → m' c = m₁ p c) (fun p hp hr => ?_) fun p hp hr => ?_
    · simp only [rootOf]
      by_cases hpn : p < n
      · rw [if_pos hpn, if_pos hn]
        exact ⟨by omega, rfl⟩
      · rw [if_neg hpn, if_neg (lt_irrefl n)]
        exact ⟨by omega, rfl⟩
    · by_cases hpn : p < n
      · obtain rfl : 0 = p := by simpa [rootOf, hpn] using hr
        rw [if_pos hpn]
        have h := scattervRoot_does (show BasicBuf.tmpbuf2 ≠ .rbuf by decide) hpn 0 rcounts (disps rcounts)
          (m₁ 0)
        rw [hproc] at h
        refine (h.mono fun m' h' => ?_).congr (fun _ => rfl) fun d => ?_
        · simpa [own, rootOf, place, hpn] using h'
        · rw [Nat.sub_zero, zero_add]
          by_cases hd : d < n
          · have hd' : d < n + l := by omega
            simp [rootOf, own, place, hd, hd']
          · simp [rootOf, hd, ne_of_gt hn]
      · obtain rfl : n = p := by simpa [rootOf, hpn] using hr
        rw [if_neg hpn, Nat.sub_self]
        refine ((scattervRoot_does (by decide) hl n lcounts (disps lcounts) (m₁ n)).mono
          fun m' h' => ?_).congr (fun _ => rfl) fun d => ?_
        · simpa [own, rootOf, place] using h'
        · by_cases hd : d < n
          · simp [rootOf, hd, Nat.not_le_of_lt hd, Nat.ne_of_lt hn]
          · have hle : n ≤ d := Nat.le_of_not_lt hd
            have hne : d - n ≠ 0 ↔ d ≠ n := by omega
            simp [rootOf, own, place, hd, hle, hne, and_assoc]
    · by_cases hpn : p < n
      · have hp0 : p ≠ 0 := fun h => hr (by simp [rootOf, hn, h])
        rw [if_pos hpn]
        have h := scattervOther_does 0 n .tmpbuf2 .rbuf hp0 rcounts (disps rcounts) (rcounts p)
          (m₁ 0 .tmpbuf2) (disps rcounts p) (m₁ p)
        rw [hproc] at h
        simpa [own, rootOf, place, hpn] using h
      · have hpn' : p - n ≠ 0 := fun h => hr (by simp only [rootOf, if_neg hpn]; omega)
        rw [if_neg hpn]
        have h := scattervOther_does n l .tmpbuf2 .rbuf hpn' lcounts (disps lcounts) (lcounts (p - n))
          (m₁ n .tmpbuf2) (disps lcounts (p - n)) (m₁ p)
        simpa [own, rootOf, place, hpn] using h
  refine ((exchangeGroups_gives op hn hl (disps rcounts n) m).append fun m₁ h₁ =>
    (hscatter m₁).mono fun m' h' => ⟨fun r hr i hi => ?_, fun r hr i hi => ?_, fun p hp => ?_⟩).congr
      fun p hp => ?_
  · unfold interPrograms reduceScatterInter
    by_cases hpn : p < n
    · rw [if_pos hpn, if_pos hpn, if_pos hpn]
      by_cases hp0 : p = 0
      · subst hp0
        simp
      · simp [hp0, ne_of_lt hpn]
    · rw [if_neg hpn, if_neg hpn, if_neg hpn]
      have hp0 : p ≠ 0 := by omega
      by_cases hpn' : p = n
      · subst hpn'
        simp [hp0, hsum]
      · have hne : p - n ≠ 0 := by omega
        simp [hp0, hpn', hne, hsum]
  · have hres := (h' r (by omega)).1 i (by simpa only [own, if_pos hr] using hi)
    simp only [rootOf, place, if_pos hr] at hres
    rw [hres]
    exact (h₁ 0 (by omega)).1 rfl _ (Nat.zero_le _) (by
      rw [zero_add]
      exact inBlock_lt hr ⟨Nat.le_add_right _ i, Nat.add_lt_add_left hi _⟩)
  · have hnot : ¬n + r < n := by omega
    have hres := (h' (n + r) (by omega)).1 i
      (by simpa only [own, if_neg hnot, Nat.add_sub_cancel_left] using hi)
    simp only [rootOf, place, if_neg hnot, Nat.add_sub_cancel_left] at hres
    rw [hres]
    exact (h₁ n (by omega)).2.1 rfl _ (Nat.zero_le _) (by
      rw [zero_add, hsum]
      exact inBlock_lt hr ⟨Nat.le_add_right _ i, Nat.add_lt_add_left hi _⟩)
  · rw [(h' p hp).2 .sbuf (by decide), (h₁ p hp).2.2 .sbuf (by decide) (by decide)]

/-- Every run of the basic reductions of `n` ranks, or of these and a group of `l` ranks, leaves the
reduction in the order of the ranks, and the send buffers as they were. -/
structure RankOrdered (n l count : ℕ) (op : Op α) (lb : ℤ) : Prop where
  scan : ∀ (inPlace : Bool) m, Finishes n (fun r => scanIntra n r count op inPlace) m fun m' => ∀ r < n,
    Result count inPlace (m r) (fun i => upTo op.fn (Own inPlace m · i) r) (m' r)
  exscan : ∀ junk m, Finishes n (fun r => exscanIntra junk n r count op) m fun m' => ∀ r < n,
    (∀ i < count, r ≠ 0 → m' r .rbuf i = upTo op.fn (m · .sbuf i) (r - 1)) ∧ m' r .sbuf = m r .sbuf
  reduceLin : ∀ root < n, ∀ k : Skew α, k.lb = lb → ∀ (inPlace : Bool) m, Finishes n
    (fun r => reduceLinIntra n r root count op k .sbuf .rbuf (inPlace && r == root)) m fun m' => ∀ r < n,
      (r = root → ∀ i < count, m' r .rbuf i = upTo op.fn (rootOwn root .sbuf .rbuf inPlace m · i) (n - 1)) ∧
        m' r .sbuf = m r .sbuf
  reduceLinInter : ∀ root < n, ∀ m, Finishes (n + l)
    (fun p => if p < n then reduceLinInter (n + ·) l count op (if p = root then .mpiRoot else .procNull)
      else reduceLinInter id n count op (.rank root)) m fun m' =>
      (∀ i < count, m' root .rbuf i = upTo op.fn (fun s => m (n + s) .sbuf i) (l - 1)) ∧
        ∀ p < n + l, m' p .sbuf = m p .sbuf
  reduceScatterInter : ∀ rcounts lcounts, disps rcounts n = disps lcounts l → ∀ m,
    Finishes (n + l) (interPrograms n l rcounts lcounts op) m fun m' =>
      (∀ r < n, ∀ i < rcounts r,
        m' r .rbuf i = upTo op.fn (fun s => m (n + s) .sbuf (disps rcounts r + i)) (l - 1)) ∧
      (∀ r < l, ∀ i < lcounts r,
        m' (n + r) .rbuf i = upTo op.fn (fun s => m s .sbuf (disps lcounts r + i)) (n - 1)) ∧
      ∀ p < n + l, m' p .sbuf = m p .sbuf
  reduceLog : op.commute = true → ∀ root < n, ∀ k : Skew α, k.lb = lb → ∀ (inPlace : Bool) m, Finishes n
    (fun r => reduceLogIntra n r root count op k .sbuf .rbuf (inPlace && r == root)) m fun m' => ∀ r < n,
      (r = root → ∀ i < count, m' r .rbuf i = upTo op.fn (rootOwn root .sbuf .rbuf inPlace m · i) (n - 1)) ∧
        m' r .sbuf = m r .sbuf
  reduceScatter : op.commute = true → ∀ junk crossover rcounts trueExtent extent (k : Skew α), k.lb = lb →
    ∀ (inPlace : Bool) m, Finishes n
      (fun r => reduceScatterIntra junk crossover n r rcounts trueExtent extent op k inPlace) m fun m' =>
        Scattered n rcounts op (if inPlace then .rbuf else .sbuf) .rbuf m m' ∧
          (inPlace = false → ∀ r < n, m' r .sbuf = m r .sbuf)

theorem Reduced.result {root count r : ℕ} {g : ℕ → α} {m₀ m' : Bufs BasicBuf α}
    (h : Reduced root count .rbuf g m₀ r m') :
    (r = root → ∀ i < count, m' .rbuf i = g i) ∧ m' .sbuf = m₀ .sbuf :=
  ⟨h.1, h.2 .sbuf (by decide) fun _ => by decide⟩

theorem rankOrdered_of_comm {count : ℕ} {lb : ℤ} (hn : 2 ≤ n) (hl : 1 ≤ l) (hlb : lb = 0)
    (hcomm : ∀ a b, op.fn a b = op.fn b a) : RankOrdered n l count op lb := by
  have hcomm' : Std.Commutative op.fn := ⟨hcomm⟩
  have hn0 : 0 < n := by omega
  refine ⟨fun inPlace m => .of_gives (scanIntra_gives inPlace), fun junk m => .of_gives ?_,
    fun root hroot k hk inPlace m => .of_gives ?_, fun root hroot m => .of_gives ?_,
    fun rcounts lcounts hsum m => .of_gives ?_, fun hc root hroot k _ inPlace m => .of_gives ?_,
    fun hc junk crossover rcounts trueExtent extent k _ inPlace m =>
      .of_gives (reduceScatterIntra_gives hc hn0 crossover trueExtent extent k inPlace m)⟩
  · refine (exscanIntra_gives junk hn).mono fun m' h r hr => ⟨fun i hi hr0 => ?_, (h r hr).2⟩
    rw [(h r hr).1 i hi hr0, exscanAcc_eq hcomm]
  · refine (reduceLinIntra_gives hroot k (by decide) (by decide) (by decide) (by decide) inPlace).mono
      fun m' h r hr => ?_
    obtain ⟨f, hf, hred⟩ := h
    have hseen : (if inPlace = true then k.seen f else f) = f := by
      rw [k.seen_zero (hk.trans hlb), ite_self]
    have hres := hred r hr
    rw [hseen] at hres
    exact ⟨fun hrr i hi => (hres.result.1 hrr i hi).trans (hf i hi), hres.result.2⟩
  · refine (reduceLinInter_gives hl hroot).mono fun m' h => ⟨fun i hi => ?_, h.2⟩
    exact (h.1 i (Nat.zero_le i) (by omega)).eq_upTo_of_perm hl (reverse_perm _)
  · refine (reduceScatterInter_gives hn0 hl hsum m).mono fun m' h =>
      ⟨fun r hr i hi => ?_, fun r hr i hi => ?_, h.2.2⟩
    · exact (h.1 r hr i hi).eq_upTo_of_perm hl (reverse_perm _)
    · exact (h.2.1 r hr i hi).eq_upTo_of_perm hn0 (reverse_perm _)
  · exact (reduceLogIntra_gives hc hroot k (by decide) (by decide) inPlace).mono fun m' h r hr =>
      (h r hr).result

theorem exists_skew [Nontrivial α] {lb : ℤ} (hlb : lb ≠ 0) : ∃ k : Skew α, k.lb = lb ∧
    ∀ f i, k.seen f i ≠ f i := by
  have hother : ∀ a : α, ∃ b, b ≠ a := exists_ne
  choose other hne using hother
  exact ⟨⟨lb, fun f i => other (f i), fun h => absurd h hlb⟩, rfl, fun f i => hne (f i)⟩

theorem RankOrdered.lb_eq_zero [Nontrivial α] {count : ℕ} {lb : ℤ} (h : RankOrdered n l count op lb)
    (hn : 0 < n) (hc : 0 < count) : lb = 0 := by
  by_contra hlb
  obtain ⟨k, hk, hseen⟩ := exists_skew (α := α) hlb
  obtain ⟨a, -⟩ := exists_pair_ne α
  obtain ⟨m', hright, f, hf, hwrong⟩ := (h.reduceLin 0 hn k hk true fun _ _ _ => a).both
    (.of_gives (reduceLinIntra_gives hn k (by decide) (by decide) (by decide) (by decide) true))
  have h1 := (hright 0 hn).1 rfl 0 hc
  have h2 := (hwrong 0 hn).1 rfl 0 hc
  rw [if_pos rfl] at h2
  exact hseen f 0 ((h2.symm.trans h1).trans (hf 0 hc).symm)

theorem RankOrdered.comm {count : ℕ} {lb : ℤ} (h : RankOrdered n l count op lb) (hn : 2 ≤ n) (hl : 0 < l)
    (hc : 0 < count) (a b : α) : op.fn a b = op.fn b a := by
  rcases hcomm : op.commute with _ | _
  · rcases eq_or_lt_of_le hn with rfl | hn3
    · -- two ranks: the other group gets their data the wrong way around
      have hsum : disps (fun i => 1 - i) 2 = disps (fun i => 1 - i) l := by
        obtain ⟨l, rfl⟩ := Nat.exists_eq_succ_of_ne_zero (ne_of_gt hl)
        have hzero : disps (fun i => 1 - (i + 1)) l = 0 := by
          refine sum_eq_zero fun c hc => ?_
          obtain ⟨i, -, rfl⟩ := mem_map.mp hc
          omega
        have hsucc : disps (fun i => 1 - i) (l + 1) = 1 + disps (fun i => 1 - (i + 1)) l := by
          rw [disps, range_succ_eq_map, map_cons, map_map, sum_cons]
          rfl
        rw [hsucc, hzero]
        rfl
      obtain ⟨m', hright, hwrong⟩ := (h.reduceScatterInter _ _ hsum
        fun r _ _ => if r = 0 then a else b).both (.of_gives (reduceScatterInter_gives (by decide) hl hsum _))
      have h1 := hright.2.1 0 hl 0 (by decide)
      have h2 := hwrong.2.1 0 hl 0 (by decide)
      exact h1.symm.trans (h2.unique rfl)
    · -- from three ranks on: the scan without the own element turns the operands around
      obtain ⟨m', hright, hwrong⟩ := (h.exscan (fun f => f) fun r _ _ => if r = 0 then a else b).both
        (.of_gives (exscanIntra_gives (fun f => f) hn))
      have h1 := (hright 2 hn3).1 0 hc (by decide)
      have h2 := (hwrong 2 hn3).1 0 hc (by decide)
      rw [h1] at h2
      simpa [exscanAcc, upTo, hcomm] using h2
  · exact (op.comm hcomm).comm a b

def firstOp : Op Bool where
  fn a _ := a
  commute := false
  assoc := ⟨fun _ _ _ => rfl⟩
  comm := nofun

end OpenMPI.Coll
