import OpenMPI.Coll.Util
import OpenMPI.Lib.Bits
import OpenMPI.Lib.Overlay

/-!
# The loops around the ring

After `k` rounds of the computation loop, a process holds the reduction over itself and the `k` processes
behind it, at the block it received last (`Gathered`).
-/

namespace OpenMPI.Coll

open Lib
open List hiding rotate

variable {α : Type*} {n : ℕ}

def InBlock (off cnt : ℕ → ℕ) (b i : ℕ) : Prop := off b ≤ i ∧ i < off b + cnt b

def Apart (n : ℕ) (off cnt : ℕ → ℕ) : Prop :=
  ∀ b < n, ∀ b' < n, ∀ i, InBlock off cnt b i → InBlock off cnt b' i → b = b'

/-- `blk p k` is the block of process `p` in round `k`, from 1 on: the process before it had it the round
before. -/
structure Rounds (n : ℕ) (blk : ℕ → ℕ → ℕ) : Prop where
  lt : ∀ p < n, ∀ k, blk p k < n
  next : ∀ p < n, ∀ k, 1 ≤ k → k < n → blk (unrotate n 1 p) k = blk p (k + 1)
  inj : ∀ p < n, ∀ j k, 1 ≤ j → j ≤ n → 1 ≤ k → k ≤ n → blk p j = blk p k → j = k

theorem unrotate_inj {p j k : ℕ} (hp : p < n) (hj : j < n) (hk : k < n)
    (h : unrotate n j p = unrotate n k p) : j = k := by
  rw [unrotate_eq hj hp, unrotate_eq hk hp] at h
  split_ifs at h <;> omega

theorem rounds_before : Rounds n fun p k => unrotate n k p where
  lt p hp k := Nat.mod_lt _ (Nat.zero_lt_of_lt hp)
  next p hp k h1 hk := unrotate_unrotate hk hp
  inj p hp j k hj hjn hk hkn h := by
    have hzero : unrotate n n p = unrotate n 0 p := by
      rw [unrotate, unrotate, Nat.add_sub_cancel, Nat.sub_zero, Nat.add_mod_right]
    rcases lt_or_ge j n with hj' | hj'
    · rcases lt_or_ge k n with hk' | hk'
      · exact unrotate_inj hp hj' hk' h
      · obtain rfl : k = n := by omega
        have := unrotate_inj hp hj' (by omega) (h.trans hzero)
        omega
    · obtain rfl : j = n := by omega
      rcases lt_or_ge k j with hk' | hk'
      · have := unrotate_inj hp (by omega) hk' (hzero.symm.trans h)
        omega
      · omega

theorem flatMap_slide {β : Type*} (a b : ℕ → List β) (k : ℕ) :
    a 0 ++ (range k).flatMap (fun i => b i ++ a (i + 1)) =
      (range k).flatMap (fun i => a i ++ b i) ++ a k := by
  induction k with
  | zero => simp
  | succ k ih =>
    rw [range_succ, flatMap_append, flatMap_append, flatMap_singleton,
      flatMap_singleton, ← append_assoc, ih]
    simp only [append_assoc]

variable {junk : (ℕ → α) → ℕ → α} {op : Op α} {acc : RingBuf} {off cnt : ℕ → ℕ} {blk : ℕ → ℕ → ℕ}
  {maxcount : ℕ}

/-- What a process does in round `k`, from 0 on, after it has sent; the last round is round `last`. -/
def ringTurn (junk : (ℕ → α) → ℕ → α) (n p maxcount : ℕ) (op : Op α) (acc : RingBuf) (off cnt : ℕ → ℕ)
    (block last k : ℕ) : List (Instr (Bufs RingBuf α) α) :=
  (if k < last then [.postBuf junk (.inbuf ((k + 1) % 2)) 0 maxcount] else []) ++
    [.recvBuf (unrotate n 1 p) (.inbuf (k % 2)) 0 maxcount,
      opReduce op (.inbuf (k % 2)) 0 acc (off block) (cnt block)]

theorem computationLoop_eq (hn : 2 ≤ n) (p : ℕ) (block : ℕ → ℕ) :
    computationLoop junk n p maxcount op acc off cnt (block 1) block (block n) =
      [.postBuf junk (.inbuf 0) 0 maxcount] ++ (range (n - 1)).flatMap fun k =>
        [.sendBuf (rotate n 1 p) acc (off (block (k + 1))) (cnt (block (k + 1)))] ++
          ringTurn junk n p maxcount op acc off cnt (block (k + 2)) (n - 2) k := by
  obtain ⟨N, rfl⟩ := Nat.exists_eq_add_of_le' hn
  have hrange : range' 2 N = (range N).map (· + 2) :=
    range'_eq_map_range.trans (map_congr_left fun k _ => add_comm 2 k)
  have hxor (k : ℕ) : (k + 1) % 2 ^^^ 1 = k % 2 := by
    rw [xor_one]
    split_ifs <;> omega
  have hslide := flatMap_slide
    (fun k => [(.sendBuf (rotate (N + 2) 1 p) acc (off (block (k + 1))) (cnt (block (k + 1))) :
      Instr (Bufs RingBuf α) α)])
    (fun k => [.postBuf junk (.inbuf ((k + 1) % 2)) 0 maxcount,
      .recvBuf (unrotate (N + 2) 1 p) (.inbuf (k % 2)) 0 maxcount,
      opReduce op (.inbuf (k % 2)) 0 acc (off (block (k + 2))) (cnt (block (k + 2)))]) N
  have hturns : (range N).flatMap (fun k =>
      [(.sendBuf (rotate (N + 2) 1 p) acc (off (block (k + 1))) (cnt (block (k + 1))) :
        Instr (Bufs RingBuf α) α)] ++ ringTurn junk (N + 2) p maxcount op acc off cnt (block (k + 2)) N k) =
      (range N).flatMap fun k =>
        [.sendBuf (rotate (N + 2) 1 p) acc (off (block (k + 1))) (cnt (block (k + 1)))] ++
        [.postBuf junk (.inbuf ((k + 1) % 2)) 0 maxcount,
          .recvBuf (unrotate (N + 2) 1 p) (.inbuf (k % 2)) 0 maxcount,
          opReduce op (.inbuf (k % 2)) 0 acc (off (block (k + 2))) (cnt (block (k + 2)))] := by
    refine flatMap_congr fun k hk => ?_
    rw [ringTurn, if_pos (mem_range.mp hk)]
    rfl
  have hlast : N + 2 - 1 = N + 1 := rfl
  rw [hlast, Nat.add_sub_cancel, range_succ, flatMap_append, flatMap_singleton, hturns,
    ← append_assoc, ← append_assoc, append_assoc [_], ← hslide, ringTurn,
    if_neg (lt_irrefl N)]
  have hloop : (range' 2 N).flatMap (fun k =>
      [(.postBuf junk (.inbuf ((k - 1) % 2)) 0 maxcount : Instr (Bufs RingBuf α) α),
        .recvBuf (unrotate (N + 2) 1 p) (.inbuf ((k - 1) % 2 ^^^ 1)) 0 maxcount,
        opReduce op (.inbuf ((k - 1) % 2 ^^^ 1)) 0 acc (off (block k)) (cnt (block k)),
        .sendBuf (rotate (N + 2) 1 p) acc (off (block k)) (cnt (block k))]) =
      (range N).flatMap fun k => [.postBuf junk (.inbuf ((k + 1) % 2)) 0 maxcount,
        .recvBuf (unrotate (N + 2) 1 p) (.inbuf (k % 2)) 0 maxcount,
        opReduce op (.inbuf (k % 2)) 0 acc (off (block (k + 2))) (cnt (block (k + 2)))] ++
        [.sendBuf (rotate (N + 2) 1 p) acc (off (block (k + 1 + 1))) (cnt (block (k + 1 + 1)))] := by
    rw [hrange, flatMap_map]
    refine flatMap_congr fun k _ => ?_
    have hpred : k + 2 - 1 = k + 1 := rfl
    simp only [hpred, hxor]
    rfl
  rw [← hloop, computationLoop]
  rfl

/-- Process `p` after `k` rounds: the block of the next round holds what the processes behind it have, and
the blocks of the rounds after it what `p` has. -/
structure Gathered (n : ℕ) (op : Op α) (acc : RingBuf) (off cnt : ℕ → ℕ) (blk : ℕ → ℕ → ℕ)
    (x : ℕ → ℕ → α) (p : ℕ) (m : Bufs RingBuf α) (k : ℕ) (m' : Bufs RingBuf α) : Prop where
  sum : Holds op.fn x (trail n p (k + 1)) (m' acc) (off (blk p (k + 1))) (cnt (blk p (k + 1)))
  own : ∀ j, k + 1 < j → j ≤ n → ∀ i, InBlock off cnt (blk p j) i → m' acc i = x p i
  out : ∀ i, (∀ b < n, ¬InBlock off cnt b i) → m' acc i = m acc i
  frame : ∀ c, c ≠ acc → (∀ q, c ≠ .inbuf q) → m' c = m c

variable {x : ℕ → ℕ → α} {p k : ℕ} {m m₁ : Bufs RingBuf α}

theorem Gathered.blur (h : Gathered n op acc off cnt blk x p m k m₁) (hacc : ∀ q, acc ≠ .inbuf q) (q : ℕ) :
    Gathered n op acc off cnt blk x p m k (m₁.blur junk (.inbuf q) 0 maxcount) where
  sum := by
    rw [Bufs.blur_of_ne _ _ _ (hacc q)]
    exact h.sum
  own j hj hjn i hi := by
    rw [Bufs.blur_of_ne _ _ _ (hacc q)]
    exact h.own j hj hjn i hi
  out i hi := by
    rw [Bufs.blur_of_ne _ _ _ (hacc q)]
    exact h.out i hi
  frame c hc hcq := by
    rw [Bufs.blur_of_ne _ _ _ (hcq q)]
    exact h.frame c hc hcq

theorem add_apply (hacc : ∀ q, acc ≠ .inbuf q) (q o l : ℕ) (f : ℕ → α) (i : ℕ) :
    (m₁.write (.inbuf q) 0 (slice f o l)).reduce op.fn (.inbuf q) 0 acc o l acc i =
      if o ≤ i ∧ i < o + l then op.fn (f i) (m₁ acc i) else m₁ acc i := by
  rw [Bufs.reduce_apply, Bufs.write_of_ne _ (hacc q)]
  by_cases hi : o ≤ i ∧ i < o + l
  · rw [if_pos ⟨rfl, hi⟩, if_pos hi, Bufs.write_slice_apply, if_pos ⟨rfl, by omega, by omega⟩]
    congr 2
    omega
  · rw [if_neg fun h => hi h.2, if_neg hi]

theorem Gathered.add (h : Gathered n op acc off cnt blk x p m k m₁) (hblk : Rounds n blk)
    (hapart : Apart n off cnt) (hacc : ∀ q, acc ≠ .inbuf q) (hp : p < n) (hk : k + 1 < n) (q : ℕ)
    {f : ℕ → α} (hf : Holds op.fn x (trail n (unrotate n 1 p) (k + 1)) f (off (blk p (k + 2)))
      (cnt (blk p (k + 2)))) :
    Gathered n op acc off cnt blk x p m (k + 1)
      ((m₁.write (.inbuf q) 0 (slice f (off (blk p (k + 2))) (cnt (blk p (k + 2))))).reduce op.fn
        (.inbuf q) 0 acc (off (blk p (k + 2))) (cnt (blk p (k + 2)))) where
  sum := by
    refine hf.append (.single fun i h1 h2 => h.own (k + 2) (by omega) hk i ⟨h1, h2⟩) fun i h1 h2 => ?_
    rw [add_apply hacc, if_pos ⟨h1, h2⟩]
  own j hj hjn i hi := by
    have hne : ¬InBlock off cnt (blk p (k + 2)) i := fun h' => by
      have := hblk.inj p hp _ _ (by omega) hjn (by omega) hk
        (hapart _ (hblk.lt p hp j) _ (hblk.lt p hp (k + 2)) i hi h')
      omega
    exact (add_apply hacc ..).trans ((if_neg hne).trans (h.own j (by omega) hjn i hi))
  out i hi := by
    exact (add_apply hacc ..).trans ((if_neg (hi _ (hblk.lt p hp (k + 2)))).trans (h.out i hi))
  frame c hc hcq := by
    rw [Bufs.reduce_of_ne _ _ _ _ hc, Bufs.write_of_ne _ (hcq q)]
    exact h.frame c hc hcq

theorem ringTurn_does (h : Gathered n op acc off cnt blk x p m k m₁) (hblk : Rounds n blk)
    (hapart : Apart n off cnt) (hmax : ∀ b < n, cnt b ≤ maxcount) (hacc : ∀ q, acc ≠ .inbuf q)
    (hp : p < n) (hk : k + 1 < n) (last : ℕ) {f : ℕ → α}
    (hf : Holds op.fn x (trail n (unrotate n 1 p) (k + 1)) f (off (blk p (k + 2)))
      (cnt (blk p (k + 2)))) :
    Does (ringTurn junk n p maxcount op acc off cnt (blk p (k + 2)) last k)
      (.one (unrotate n 1 p) (slice f (off (blk p (k + 2))) (cnt (blk p (k + 2))))) .nothing m₁
      (Gathered n op acc off cnt blk x p m (k + 1)) := by
  have hcount := hmax _ (hblk.lt p hp (k + 2))
  have hrest {m₂ : Bufs RingBuf α} (h₂ : Gathered n op acc off cnt blk x p m k m₂) :
      Does [.recvBuf (unrotate n 1 p) (.inbuf (k % 2)) 0 maxcount,
          opReduce op (.inbuf (k % 2)) 0 acc (off (blk p (k + 2))) (cnt (blk p (k + 2)))]
        (.one (unrotate n 1 p) (slice f (off (blk p (k + 2))) (cnt (blk p (k + 2))))) .nothing m₂
        (Gathered n op acc off cnt blk x p m (k + 1)) := by
    rw [← Mail.append_nothing (Mail.one _ _)]
    exact Does.recvBuf_cons hcount (Does.reduceBuf (h₂.add hblk hapart hacc hp hk _ hf))
  unfold ringTurn
  split_ifs with hlast
  · exact Does.postBuf_cons (hrest (h.blur hacc _))
  · exact hrest h

theorem computationLoop_gives (hn : 2 ≤ n) (hblk : Rounds n blk) (hapart : Apart n off cnt)
    (hmax : ∀ b < n, cnt b ≤ maxcount) (hacc : ∀ q, acc ≠ .inbuf q) {m : ℕ → Bufs RingBuf α}
    (hm : ∀ p < n, ∀ b < n, ∀ i, InBlock off cnt b i → m p acc i = x p i) :
    Gives n (fun p => computationLoop junk n p maxcount op acc off cnt (blk p 1) (blk p) (blk p n)) m
      fun m' => ∀ p < n, Gathered n op acc off cnt blk x p (m p) (n - 1) (m' p) := by
  have hfirst : Gives n (fun _ => [(.postBuf junk (.inbuf 0) 0 maxcount : Instr (Bufs RingBuf α) α)]) m
      fun m' => ∀ p < n, Gathered n op acc off cnt blk x p (m p) 0 (m' p) := by
    refine Gives.each (fun p (m' : Bufs RingBuf α) => Gathered n op acc off cnt blk x p (m p) 0 m')
      fun p hp => Does.postBuf (Gathered.blur ⟨?_, fun j _ _ i hi => ?_, fun _ _ => rfl,
        fun _ _ _ => rfl⟩ hacc 0)
    · exact Holds.single fun i h1 h2 => hm p hp _ (hblk.lt p hp _) i ⟨h1, h2⟩
    · exact hm p hp _ (hblk.lt p hp j) i hi
  refine (hfirst.append fun m₁ h₁ => Gives.loop (m := m₁)
    (fun k (m' : ℕ → Bufs RingBuf α) => ∀ p < n, Gathered n op acc off cnt blk x p (m p) k (m' p))
    (n - 1) h₁ fun k hk m₂ h₂ => ?_).congr fun p _ => (computationLoop_eq hn p (blk p)).symm
  refine Gives.around hn (fun p => slice (m₂ p acc) (off (blk p (k + 1))) (cnt (blk p (k + 1)))) _
    (fun p _ => Exec.send_one _ _ _) fun p hp => ?_
  have hprev : unrotate n 1 p < n := unrotate_lt hn
  have hnext := hblk.next p hp (k + 1) (by omega) (by omega)
  have hf := (h₂ _ hprev).sum
  rw [hnext] at hf ⊢
  exact ringTurn_does (h₂ p hp) hblk hapart hmax hacc hp (by omega) (n - 2) hf

end OpenMPI.Coll
