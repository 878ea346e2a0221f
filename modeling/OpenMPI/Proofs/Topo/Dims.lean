import Mathlib.Algebra.BigOperators.Group.List.Lemmas
import Mathlib.Algebra.Order.BigOperators.GroupWithZero.List
import Mathlib.Data.List.GetD
import Mathlib.Data.Nat.Prime.Basic
import OpenMPI.Topo.Dims

/-!
# What MPI_Dims_create makes of the dimensions

`getprimes` finds every prime up to its argument (`getprimes_ok`), so `getfactors` divides everything
out (`getfactors_ok`) and the bins multiply to what was left over (`assignnodes_ok`).  That is the
number of processes over the given entries, rounded down: the call factorises where they divide it, or
where it fails (`dimsCreate_creates_iff`).
-/

namespace OpenMPI.Topo

open List Nat

/-- The table after `rounds` rounds: the primes below the next odd number, with 2 in front. -/
structure PrimesTable (rounds : ℕ) (primes : List ℕ) : Prop where
  head : primes.head? = some 2
  odd (p : ℕ) : p ∈ primes.tail ↔ p.Prime ∧ p ≠ 2 ∧ p < 3 + 2 * rounds
  length_le : primes.length ≤ rounds + 1

theorem primesTable_zero : PrimesTable 0 [2] where
  head := rfl
  odd p := by
    simp only [tail_cons, not_mem_nil, mul_zero, add_zero, false_iff, not_and]
    intro hp hne
    have := hp.two_le
    omega
  length_le := by simp

namespace PrimesTable

variable {rounds size : ℕ} {primes : List ℕ}

theorem mem_iff (h : PrimesTable rounds primes) (p : ℕ) : p ∈ primes ↔ p.Prime ∧ p < 3 + 2 * rounds := by
  rcases hprimes : primes with _ | ⟨a, tail⟩
  · simp [hprimes] at h
    exact absurd h.head nofun
  · have hhead := h.head
    have hodd := h.odd p
    simp only [hprimes, head?_cons, Option.some.injEq, tail_cons] at hhead hodd
    rw [mem_cons, hodd, hhead]
    constructor
    · rintro (rfl | ⟨hp, -, hlt⟩)
      · exact ⟨Nat.prime_two, by omega⟩
      · exact ⟨hp, hlt⟩
    · rintro ⟨hp, hlt⟩
      rcases eq_or_ne p 2 with rfl | hne
      · exact .inl rfl
      · exact .inr ⟨hp, hne, hlt⟩

theorem any_iff (h : PrimesTable rounds primes) :
    (primes.tail.any fun p => (3 + 2 * rounds) % p = 0) = true ↔ ¬(3 + 2 * rounds).Prime := by
  rw [any_eq_true]
  constructor
  · rintro ⟨p, hmem, hdvd⟩ hprime
    obtain ⟨hp, -, hlt⟩ := (h.odd p).mp hmem
    rcases (dvd_prime hprime).mp (dvd_of_mod_eq_zero (of_decide_eq_true hdvd)) with h1 | h1
    · exact hp.one_lt.ne' h1
    · omega
  · intro hprime
    have hdvd : (3 + 2 * rounds).minFac ∣ 3 + 2 * rounds := minFac_dvd _
    have hp : (3 + 2 * rounds).minFac.Prime := minFac_prime (by omega)
    refine ⟨_, (h.odd _).mpr ⟨hp, fun htwo => ?_, ?_⟩, decide_eq_true (mod_eq_zero_of_dvd hdvd)⟩
    · rw [htwo] at hdvd
      omega
    · exact lt_of_le_of_ne (minFac_le (by omega)) fun heq => hprime (heq ▸ hp)

theorem step (h : PrimesTable rounds primes) (hsize : rounds + 1 < size) (hint : 3 + 2 * rounds + 2 < 2 ^ 31) :
    ∃ primes', primesStep size primes (3 + 2 * rounds) = .ok primes' ∧ PrimesTable (rounds + 1) primes' := by
  have hlength := h.length_le
  by_cases hprime : (3 + 2 * rounds).Prime
  · refine ⟨primes ++ [3 + 2 * rounds], ?_, ?_, fun p => ?_, ?_⟩
    · rw [primesStep, if_neg (h.any_iff.not.mpr (not_not_intro hprime)), if_neg (by omega), if_neg (by omega)]
    · rw [head?_append, h.head, Option.some_or]
    · have hne : primes ≠ [] := fun hnil => by simpa [hnil] using h.head
      rw [tail_append_of_ne_nil hne, mem_append, h.odd, mem_singleton]
      constructor
      · rintro (⟨hp, htwo, hlt⟩ | rfl)
        · exact ⟨hp, htwo, by omega⟩
        · exact ⟨hprime, by omega, by omega⟩
      · rintro ⟨hp, htwo, hlt⟩
        -- an even number above 2 is no prime
        have hodd := hp.eq_two_or_odd
        rcases lt_or_ge p (3 + 2 * rounds) with hlt' | hge
        · exact .inl ⟨hp, htwo, hlt'⟩
        · exact .inr (by omega)
    · rw [length_append, length_singleton]
      omega
  · refine ⟨primes, ?_, h.head, fun p => ?_, by omega⟩
    · rw [primesStep, if_pos (h.any_iff.mpr hprime), if_neg (by omega)]
    · rw [h.odd]
      refine and_congr_right fun hp => and_congr_right fun htwo => ?_
      have hodd := hp.eq_two_or_odd
      constructor
      · omega
      · intro hlt
        have hne : p ≠ 3 + 2 * rounds := fun heq => hprime (heq ▸ hp)
        omega

end PrimesTable

theorem primes_run (size rounds : ℕ) (hsize : rounds < size) (hint : 3 + 2 * rounds < 2 ^ 31) :
    ∃ primes, (range' 3 rounds 2).foldlM (primesStep size) [2] = .ok primes ∧ PrimesTable rounds primes := by
  induction rounds with
  | zero => exact ⟨[2], rfl, primesTable_zero⟩
  | succ rounds ih =>
    obtain ⟨primes, hrun, htable⟩ := ih (by omega) (by omega)
    obtain ⟨primes', hstep, htable'⟩ := htable.step hsize (by omega)
    refine ⟨primes', ?_, htable'⟩
    rw [range'_concat, foldlM_append, hrun]
    change (primesStep size primes (3 + 2 * rounds) >>= pure) = _
    rw [hstep]
    rfl

theorem getprimes_ok {num : ℕ} (hnum : 2 ≤ num) (hint : num < 2 ^ 31 - 1) :
    ∃ primes, getprimes num = .ok primes ∧ ∀ p, p ∈ primes ↔ p.Prime ∧ p ≤ num := by
  obtain ⟨primes, hrun, htable⟩ := primes_run (num / 2 + 1) ((num - 1) / 2) (by omega) (by omega)
  refine ⟨primes, hrun, fun p => ?_⟩
  rw [htable.mem_iff]
  refine and_congr_right fun hp => ?_
  have hodd := hp.eq_two_or_odd
  omega

theorem getprimes_overflow : getprimes (2 ^ 31 - 1) = .error .overflow := by
  obtain ⟨primes, hrun, htable⟩ := primes_run ((2 ^ 31 - 1) / 2 + 1) ((2 ^ 31 - 1 - 1) / 2 - 1) (by omega) (by omega)
  have hlength := htable.length_le
  have hrounds : (2 ^ 31 - 1 - 1) / 2 = ((2 ^ 31 - 1 - 1) / 2 - 1) + 1 := by omega
  rw [getprimes, hrounds, range'_concat, foldlM_append, hrun]
  change (primesStep _ primes _ >>= pure) = _
  have hstep : primesStep ((2 ^ 31 - 1) / 2 + 1) primes (3 + 2 * ((2 ^ 31 - 1 - 1) / 2 - 1)) = .error .overflow := by
    rw [primesStep]
    split
    · rw [if_pos (by omega)]
    · rw [if_neg (by omega), if_pos (by omega)]
  rw [hstep]
  rfl

theorem divideOut_spec {p fuel num : ℕ} (hp : 2 ≤ p) (hnum : 0 < num) (hfuel : num ≤ fuel) :
    p ^ (divideOut p fuel num).1 * (divideOut p fuel num).2 = num ∧ ¬p ∣ (divideOut p fuel num).2 := by
  induction fuel generalizing num with
  | zero => omega
  | succ fuel ih =>
    rw [divideOut]
    split
    · rename_i hmod
      have hdvd : p ∣ num := dvd_of_mod_eq_zero hmod
      have hle : p ≤ num := Nat.le_of_dvd hnum hdvd
      have hlt : num / p < num := Nat.div_lt_self hnum (by omega)
      obtain ⟨hpow, hleft⟩ := @ih (num / p) (Nat.div_pos hle (by omega)) (by omega)
      refine ⟨?_, hleft⟩
      change p ^ ((divideOut p fuel (num / p)).1 + 1) * (divideOut p fuel (num / p)).2 = num
      rw [Nat.pow_succ', mul_assoc, hpow, Nat.mul_div_cancel' hdvd]
    · rename_i hmod
      exact ⟨by simp, fun hdvd => hmod (mod_eq_zero_of_dvd hdvd)⟩

def product (primes counts : List ℕ) : ℕ := ((primes.zip counts).map fun x => x.1 ^ x.2).prod

theorem factors_spec {num : ℕ} (hnum : 0 < num) {primes : List ℕ} (hprimes : ∀ p ∈ primes, 2 ≤ p) :
    let r := primes.foldr (fun p (s : List ℕ × ℕ) =>
      ((divideOut p s.2 s.2).1 :: s.1, (divideOut p s.2 s.2).2)) ([], num)
    product primes r.1 * r.2 = num ∧ ∀ p ∈ primes, ¬p ∣ r.2 := by
  induction primes with
  | nil => simp [product]
  | cons q primes ih =>
    obtain ⟨hproduct, hleft⟩ := ih fun p hp => hprimes p (mem_cons_of_mem q hp)
    rw [foldr_cons]
    generalize primes.foldr (fun p (s : List ℕ × ℕ) =>
      ((divideOut p s.2 s.2).1 :: s.1, (divideOut p s.2 s.2).2)) ([], num) = r at hproduct hleft ⊢
    have hpos : 0 < r.2 := by
      rcases Nat.eq_zero_or_pos r.2 with hzero | hpos
      · rw [hzero] at hproduct
        omega
      · exact hpos
    obtain ⟨hpow, hq⟩ := divideOut_spec (hprimes q mem_cons_self) hpos le_rfl
    refine ⟨?_, fun p hp => ?_⟩
    · rw [product, zip_cons_cons, map_cons, prod_cons, ← product]
      calc q ^ (divideOut q r.2 r.2).1 * product primes r.1 * (divideOut q r.2 r.2).2
          = product primes r.1 * (q ^ (divideOut q r.2 r.2).1 * (divideOut q r.2 r.2).2) := by
            rw [mul_comm (q ^ _), mul_assoc]
        _ = num := by rw [hpow, hproduct]
    · rcases mem_cons.mp hp with rfl | hp
      · exact hq
      · intro hdvd
        exact hleft p hp (hdvd.trans ⟨q ^ (divideOut q r.2 r.2).1, by rw [mul_comm, hpow]⟩)

theorem getfactors_ok {num : ℕ} (hnum : 2 ≤ num) {primes : List ℕ} (hprimes : ∀ p, p ∈ primes ↔ p.Prime ∧ p ≤ num) :
    ∃ counts, getfactors num primes = .ok counts ∧ product primes counts = num := by
  have htwo : 2 ∈ primes := (hprimes 2).mpr ⟨Nat.prime_two, hnum⟩
  have hpos : 0 < num := by omega
  obtain ⟨hproduct, hleft⟩ := factors_spec hpos fun p hp => ((hprimes p).mp hp).1.two_le
  rw [getfactors, if_neg (length_pos_of_mem htwo).ne']
  set r := primes.foldr (fun p (s : List ℕ × ℕ) =>
    ((divideOut p s.2 s.2).1 :: s.1, (divideOut p s.2 s.2).2)) ([], num) with hr
  have hone : r.2 = 1 := by
    by_contra hne
    have hdvd : r.2.minFac ∣ num := (minFac_dvd r.2).trans ⟨product primes r.1, by rw [mul_comm, hproduct]⟩
    have hmem := (hprimes r.2.minFac).mpr ⟨minFac_prime hne, Nat.le_of_dvd (by omega) hdvd⟩
    exact hleft _ hmem (minFac_dvd r.2)
  refine ⟨r.1, ?_, by rw [← hproduct, hone, mul_one]⟩
  change (if r.2 ≠ 1 then _ else _) = _
  rw [if_neg (not_not_intro hone)]

theorem smallestBin_lt {bins : List ℕ} (hbins : bins ≠ []) : smallestBin bins < bins.length := by
  have hpos : 0 < bins.length := length_pos_iff.mpr hbins
  have hrun (is : List ℕ) (his : ∀ i ∈ is, i < bins.length) {pmin : ℕ} (hpmin : pmin < bins.length) :
      is.foldl (fun pmin i => if bins.getD i 0 < bins.getD pmin 0 then i else pmin) pmin < bins.length := by
    induction is generalizing pmin with
    | nil => exact hpmin
    | cons i is ih =>
      refine ih (fun j hj => his j (mem_cons_of_mem i hj)) ?_
      dsimp only
      split
      · exact his i mem_cons_self
      · exact hpmin
  refine hrun _ (fun i hi => ?_) hpos
  have := mem_range'_1.mp hi
  omega

@[simp]
theorem length_assignFactor (f : ℕ) (bins : List ℕ) : (assignFactor f bins).length = bins.length := by
  simp [assignFactor]

theorem prod_assignFactor (f : ℕ) {bins : List ℕ} (hbins : bins ≠ []) : (assignFactor f bins).prod = bins.prod * f := by
  have hlt := smallestBin_lt hbins
  rw [assignFactor, prod_set, if_pos hlt, getD_eq_getElem _ _ hlt]
  calc (bins.take (smallestBin bins)).prod * (bins[smallestBin bins] * f) * (bins.drop (smallestBin bins + 1)).prod
      = (bins.take (smallestBin bins)).prod * (bins[smallestBin bins] * (bins.drop (smallestBin bins + 1)).prod) * f := by
        simp only [mul_assoc, mul_comm f]
    _ = bins.prod * f := by
        rw [← prod_cons, ← drop_eq_getElem_cons hlt, prod_take_mul_prod_drop]

theorem iterate_assignFactor (f count : ℕ) {bins : List ℕ} (hbins : bins ≠ []) :
    ((assignFactor f)^[count] bins).length = bins.length ∧
    ((assignFactor f)^[count] bins).prod = bins.prod * f ^ count := by
  induction count with
  | zero => simp
  | succ count ih =>
    have hne : (assignFactor f)^[count] bins ≠ [] := by
      rw [← length_pos_iff, ih.1]
      exact length_pos_iff.mpr hbins
    rw [Function.iterate_succ_apply', length_assignFactor, prod_assignFactor f hne, ih.2, pow_succ, mul_assoc]
    exact ⟨ih.1, rfl⟩

theorem assignnodes_ok {ndim : ℕ} (hndim : ndim ≠ 0) (pfacts counts : List ℕ) :
    ∃ procs, assignnodes ndim pfacts counts = .ok procs ∧ procs.length = ndim ∧
      procs.prod = product pfacts counts ∧ procs.Pairwise (· ≥ ·) := by
  have hdeal (l : List (ℕ × ℕ)) :
      (l.foldr (fun x bins => (assignFactor x.1)^[x.2] bins) (replicate ndim 1)).length = ndim ∧
      (l.foldr (fun x bins => (assignFactor x.1)^[x.2] bins) (replicate ndim 1)).prod =
        (l.map fun x => x.1 ^ x.2).prod := by
    induction l with
    | nil => simp
    | cons x l ih =>
      have hne : l.foldr (fun x bins => (assignFactor x.1)^[x.2] bins) (replicate ndim 1) ≠ [] := by
        rw [← length_pos_iff, ih.1]
        omega
      obtain ⟨hlength, hprod⟩ := iterate_assignFactor x.1 x.2 hne
      rw [foldr_cons, hlength, hprod, map_cons, prod_cons, ih.2, mul_comm]
      exact ⟨ih.1, rfl⟩
  obtain ⟨hlength, hprod⟩ := hdeal (pfacts.zip counts)
  have hperm := Lib.exchangeSort_perm
    ((pfacts.zip counts).foldr (fun x bins => (assignFactor x.1)^[x.2] bins) (replicate ndim 1))
  refine ⟨_, ?_, hperm.length_eq.trans hlength, hperm.prod_eq.trans hprod, Lib.exchangeSort_pairwise _⟩
  rw [assignnodes, if_neg hndim]

def givenDims (dims : List ℤ) : List ℤ := dims.filter (· ≠ 0)

def freeDims (dims out : List ℤ) : List ℤ := ((dims.zip out).filter (·.1 = 0)).map (·.2)

/-- The given entries divide the number of processes, and are all of it if no entry is free. -/
def Divides (nnodes : ℤ) (dims : List ℤ) : Prop :=
  (givenDims dims).prod ∣ nnodes ∧ (0 ∉ dims → (givenDims dims).prod = nnodes)

/-- All entries multiply to the number of processes, the given ones are what they were and the others
are in non-increasing order. -/
structure Factorised (nnodes : ℤ) (dims out : List ℤ) : Prop where
  product : out.prod = nnodes
  given : List.Forall₂ (fun d o => d ≠ 0 → o = d) dims out
  decreasing : (freeDims dims out).Pairwise (· ≥ ·)

/-- The call succeeds exactly if the given entries divide the number of processes, and then factorises
it. -/
def Creates (nnodes : ℤ) (dims : List ℤ) (r : Except DimsError (List ℤ)) : Prop :=
  ((∃ out, r = .ok out) ↔ Divides nnodes dims) ∧ ∀ out, r = .ok out → Factorised nnodes dims out

variable {nnodes ndims : ℤ} {dims : List ℤ}

theorem givenDims_cons_zero (dims : List ℤ) : givenDims (0 :: dims) = givenDims dims := by
  simp [givenDims]

theorem givenDims_cons {d : ℤ} (hd : d ≠ 0) (dims : List ℤ) : givenDims (d :: dims) = d :: givenDims dims := by
  simp [givenDims, hd]

theorem mem_givenDims {d : ℤ} : d ∈ givenDims dims ↔ d ∈ dims ∧ d ≠ 0 := by
  simp [givenDims]

theorem prod_givenDims_pos (hdims : ∀ d ∈ dims, 0 ≤ d) : 0 < (givenDims dims).prod := by
  refine prod_pos fun d hd => ?_
  obtain ⟨hmem, hne⟩ := mem_givenDims.mp hd
  exact lt_of_le_of_ne (hdims d hmem) hne.symm

theorem freeStep_run (hdims : ∀ d ∈ dims, 0 ≤ d) {freeprocs : ℤ} (hfree : 0 ≤ freeprocs) (freedims : ℕ) :
    dims.foldlM (freeStep nnodes) (freeprocs, freedims) =
      if ∀ d ∈ givenDims dims, d ∣ nnodes then
        .ok (freeprocs / (givenDims dims).prod, freedims + dims.count 0)
      else .error .dims := by
  induction dims generalizing freeprocs freedims with
  | nil =>
    simp [givenDims]
    rfl
  | cons d dims ih =>
    have hrest : ∀ d ∈ dims, 0 ≤ d := fun e he => hdims e (mem_cons_of_mem d he)
    have hd : 0 ≤ d := hdims d mem_cons_self
    rw [foldlM_cons, freeStep]
    rcases eq_or_ne d 0 with rfl | hne
    · rw [if_pos rfl, givenDims_cons_zero, count_cons_self, add_comm (dims.count 0), ← add_assoc]
      exact ih hrest hfree (freedims + 1)
    · rw [if_neg hne, givenDims_cons hne, count_cons_of_ne hne, prod_cons]
      simp only [forall_mem_cons]
      by_cases hdvd : d ∣ nnodes
      · rw [if_neg (by rw [Int.tmod_eq_zero_of_dvd hdvd]; omega)]
        change dims.foldlM (freeStep nnodes) (freeprocs.tdiv d, freedims) = _
        rw [Int.tdiv_eq_ediv_of_nonneg hfree, ih hrest (Int.ediv_nonneg hfree hd), Int.ediv_ediv_of_nonneg hd]
        simp only [hdvd, true_and]
      · rw [if_pos (.inr fun hmod => hdvd (Int.dvd_of_tmod_eq_zero hmod)), if_neg fun h => hdvd h.1]
        rfl

theorem assignDims_spec {procs : List ℕ} (hlength : procs.length = dims.count 0) :
    (assignDims dims procs).prod = (givenDims dims).prod * procs.prod ∧
    List.Forall₂ (fun d o => d ≠ 0 → o = d) dims (assignDims dims procs) ∧
    freeDims dims (assignDims dims procs) = procs.map (↑) := by
  induction dims generalizing procs with
  | nil =>
    rw [count_nil, length_eq_zero_iff] at hlength
    simp [hlength, assignDims, givenDims, freeDims]
  | cons d dims ih =>
    rcases eq_or_ne d 0 with rfl | hne
    · rw [count_cons_self] at hlength
      obtain ⟨p, procs, rfl⟩ := exists_cons_of_length_eq_add_one hlength
      have hlength' : procs.length = dims.count 0 := by simpa using hlength
      obtain ⟨hprod, hgiven, hfree⟩ := ih hlength'
      rw [assignDims, if_pos rfl, givenDims_cons_zero]
      refine ⟨?_, .cons (by simp) hgiven, ?_⟩
      · simp only [headD_cons, tail_cons, prod_cons, hprod, Nat.cast_mul]
        exact mul_left_comm _ _ _
      · simpa [freeDims] using hfree
    · rw [count_cons_of_ne hne] at hlength
      obtain ⟨hprod, hgiven, hfree⟩ := ih hlength
      rw [assignDims, if_neg hne, givenDims_cons hne, prod_cons, prod_cons, hprod, mul_assoc]
      refine ⟨rfl, .cons (by simp) hgiven, ?_⟩
      simpa [freeDims, hne] using hfree

theorem map_one_spec (dims : List ℤ) :
    dims.map (fun d => if d = 0 then 1 else d) = assignDims dims (replicate (dims.count 0) 1) := by
  induction dims with
  | nil => rfl
  | cons d dims ih =>
    rcases eq_or_ne d 0 with rfl | hne
    · simp [assignDims, ih, replicate_succ]
    · simp [assignDims, ih, hne]

theorem dimsCreate_cases (paramCheck : Bool) (ndims : ℤ) (hnnodes : 1 ≤ nnodes) (hint : nnodes < 2 ^ 31)
    (hdims : ∀ d ∈ dims, 0 ≤ d) :
    let freeprocs := nnodes / (givenDims dims).prod
    let succeeds := ¬(paramCheck = true ∧ 1 > ndims) ∧ (∀ d ∈ givenDims dims, d ∣ nnodes) ∧
      if 0 ∈ dims then 1 ≤ freeprocs ∧ freeprocs ≠ 2 ^ 31 - 1 else freeprocs = 1
    (succeeds → ∃ procs : List ℕ, dimsCreate paramCheck nnodes ndims dims = .ok (assignDims dims procs) ∧
      procs.length = dims.count 0 ∧ (procs.prod : ℤ) = freeprocs ∧ procs.Pairwise (· ≥ ·)) ∧
    (¬succeeds → ∃ e, dimsCreate paramCheck nnodes ndims dims = .error e) := by
  intro freeprocs succeeds
  have hpos : 0 < (givenDims dims).prod := prod_givenDims_pos hdims
  have hnonneg : 0 ≤ freeprocs := Int.ediv_nonneg (by omega) hpos.le
  have hle : freeprocs ≤ nnodes := Int.ediv_le_self _ (by omega)
  rw [dimsCreate, freeStep_run hdims (by omega), zero_add]
  by_cases hcheck : paramCheck = true ∧ 1 > ndims
  · rw [if_pos hcheck]
    exact ⟨fun h => absurd hcheck h.1, fun _ => ⟨_, rfl⟩⟩
  rw [if_neg hcheck]
  by_cases hdvd : ∀ d ∈ givenDims dims, d ∣ nnodes
  swap
  · rw [if_neg hdvd]
    exact ⟨fun h => absurd h.2.1 hdvd, fun _ => ⟨_, rfl⟩⟩
  rw [if_pos hdvd]
  change (succeeds → ∃ procs : List ℕ, (if dims.count 0 = 0 then _ else _) = _ ∧ _) ∧
    (¬succeeds → ∃ e, (if dims.count 0 = 0 then _ else _) = _)
  by_cases hfree : dims.count 0 = 0
  · have hmem : 0 ∉ dims := count_eq_zero.mp hfree
    have hsucceeds : succeeds ↔ freeprocs = 1 := by
      simp only [succeeds, if_neg hmem]
      exact ⟨fun h => h.2.2, fun h => ⟨hcheck, hdvd, h⟩⟩
    rw [if_pos hfree, hsucceeds]
    refine ⟨fun hone => ⟨[], ?_, by simp [hfree], by simp [hone], .nil⟩, fun hone => ⟨_, if_neg hone⟩⟩
    have hsame := map_one_spec dims
    rw [hfree, replicate_zero] at hsame
    rw [if_pos hone, ← hsame]
    have hnone : dims.map (fun d => if d = 0 then 1 else d) = dims.map id :=
      map_congr_left fun d hd => if_neg fun hzero : d = 0 => hmem (hzero ▸ hd)
    rw [hnone, map_id]
  · have hmem : 0 ∈ dims := not_not.mp (mt count_eq_zero.mpr hfree)
    have hsucceeds : succeeds ↔ 1 ≤ freeprocs ∧ freeprocs ≠ 2 ^ 31 - 1 := by
      simp only [succeeds, if_pos hmem]
      exact ⟨fun h => h.2.2, fun h => ⟨hcheck, hdvd, h⟩⟩
    rw [if_neg hfree, hsucceeds]
    by_cases hless : freeprocs < 1
    · rw [if_pos hless]
      exact ⟨fun h => by omega, fun _ => ⟨_, rfl⟩⟩
    rw [if_neg hless]
    by_cases hone : freeprocs = 1
    · rw [if_pos hone]
      refine ⟨fun _ => ⟨_, by rw [map_one_spec], by simp, by simp [hone], ?_⟩, fun h => by omega⟩
      simp [pairwise_replicate]
    rw [if_neg hone]
    by_cases hmax : freeprocs = 2 ^ 31 - 1
    · refine ⟨fun h => absurd hmax h.2, fun _ => ⟨.overflow, ?_⟩⟩
      change (getprimes freeprocs.toNat >>= _) = _
      rw [hmax]
      change (getprimes (2 ^ 31 - 1) >>= _) = _
      rw [getprimes_overflow]
      rfl
    · have htwo : 2 ≤ freeprocs.toNat := by omega
      obtain ⟨primes, hprimes, hmemprimes⟩ := getprimes_ok htwo (by omega)
      obtain ⟨counts, hcounts, hproduct⟩ := getfactors_ok htwo hmemprimes
      obtain ⟨procs, hprocs, hlength, hprod, hsorted⟩ := assignnodes_ok hfree primes counts
      refine ⟨fun _ => ⟨procs, ?_, hlength, ?_, hsorted⟩, fun h => absurd ⟨by omega, hmax⟩ h⟩
      · change (getprimes freeprocs.toNat >>= _) = _
        rw [hprimes]
        change (getfactors freeprocs.toNat primes >>= _) = _
        rw [hcounts]
        change (assignnodes (dims.count 0) primes counts >>= _) = _
        rw [hprocs]
        rfl
      · rw [hprod, hproduct, Int.toNat_of_nonneg hnonneg]

/-- The inputs of which the call makes what it should.  Where the given entries divide the processes
only one by one, it must come to an error in the end: what is left, rounded down, is 0 or, without a
free entry, not 1.  Where they do divide the processes, an array without entries and the largest `int`
are in the way. -/
def Creatable (paramCheck : Bool) (nnodes ndims : ℤ) (dims : List ℤ) : Prop :=
  if (givenDims dims).prod ∣ nnodes then
    ¬(paramCheck = true ∧ ndims < 1 ∧ nnodes = 1) ∧
    ¬(0 ∈ dims ∧ (givenDims dims).prod = 1 ∧ nnodes = 2 ^ 31 - 1)
  else
    (∃ d ∈ givenDims dims, ¬d ∣ nnodes) ∨
    if 0 ∈ dims then nnodes < (givenDims dims).prod
    else ¬((givenDims dims).prod ≤ nnodes ∧ nnodes < 2 * (givenDims dims).prod)

theorem factorised_iff {procs : List ℕ} (hlength : procs.length = dims.count 0)
    (hprod : (procs.prod : ℤ) = nnodes / (givenDims dims).prod) (hsorted : procs.Pairwise (· ≥ ·)) :
    Factorised nnodes dims (assignDims dims procs) ↔ (givenDims dims).prod ∣ nnodes := by
  obtain ⟨hout, hgiven, hfree⟩ := assignDims_spec hlength
  rw [hprod] at hout
  constructor
  · intro h
    exact ⟨_, by rw [← hout, h.product]⟩
  · intro hdvd
    refine ⟨hout.trans (Int.mul_ediv_cancel' hdvd), hgiven, ?_⟩
    rw [hfree, pairwise_map]
    exact hsorted.imp fun h => by exact_mod_cast h

/-- `MPI_Dims_create` factorises the number of processes, and fails where it cannot, for the
`Creatable` inputs only: each given entry is compared with the number of all processes, not with what
the entries before it have left. -/
theorem dimsCreate_creates_iff (paramCheck : Bool) (hnnodes : 1 ≤ nnodes) (hint : nnodes < 2 ^ 31)
    (hlength : dims.length = ndims.toNat) (hdims : ∀ d ∈ dims, 0 ≤ d) :
    Creates nnodes dims (dimsCreate paramCheck nnodes ndims dims) ↔ Creatable paramCheck nnodes ndims dims := by
  have hpos : 0 < (givenDims dims).prod := prod_givenDims_pos hdims
  -- without entries the product is 1
  have hempty (h : ndims < 1) : dims = [] := length_eq_zero_iff.mp (by omega)
  have hfloor : nnodes / (givenDims dims).prod * (givenDims dims).prod ≤ nnodes := Int.ediv_mul_le _ hpos.ne'
  have hdivides (h : (givenDims dims).prod ∣ nnodes) : ∀ d ∈ givenDims dims, d ∣ nnodes :=
    fun d hd => (dvd_prod hd).trans h
  have hone (h : ndims < 1) : (givenDims dims).prod = 1 := by
    rw [hempty h]
    rfl
  -- a quotient as large as this leaves no room for a divisor
  have hmax (h : nnodes / (givenDims dims).prod = 2 ^ 31 - 1) : (givenDims dims).prod = 1 := by
    rw [h] at hfloor
    omega
  obtain ⟨hok, herror⟩ := dimsCreate_cases paramCheck ndims hnnodes hint hdims
  by_cases hsucceeds : ¬(paramCheck = true ∧ 1 > ndims) ∧ (∀ d ∈ givenDims dims, d ∣ nnodes) ∧
      if 0 ∈ dims then 1 ≤ nnodes / (givenDims dims).prod ∧ nnodes / (givenDims dims).prod ≠ 2 ^ 31 - 1
      else nnodes / (givenDims dims).prod = 1
  · obtain ⟨procs, hrun, hprocs, hprod, hsorted⟩ := hok hsucceeds
    obtain ⟨hcheck, hall, hquotient⟩ := hsucceeds
    have hcreates : Creates nnodes dims (dimsCreate paramCheck nnodes ndims dims) ↔ Divides nnodes dims := by
      rw [Creates, hrun]
      simp only [Except.ok.injEq, exists_eq', true_iff, forall_eq']
      rw [factorised_iff hprocs hprod hsorted]
      exact ⟨And.left, fun h => ⟨h, h.1⟩⟩
    rw [hcreates, Divides, Creatable]
    by_cases hdvd : (givenDims dims).prod ∣ nnodes
    · have hcancel := Int.ediv_mul_cancel hdvd
      rw [if_pos hdvd]
      refine iff_of_true ⟨hdvd, fun hfree => ?_⟩ ⟨fun h => hcheck ⟨h.1, h.2.1⟩, fun h => ?_⟩
      · rw [if_neg hfree] at hquotient
        rw [hquotient, one_mul] at hcancel
        exact hcancel
      · rw [if_pos h.1, h.2.1, Int.ediv_one] at hquotient
        exact hquotient.2 h.2.2
    · rw [if_neg hdvd]
      refine iff_of_false (fun h => hdvd h.1) ?_
      rintro (⟨d, hd, hnot⟩ | h)
      · exact hnot (hall d hd)
      · by_cases hfree : 0 ∈ dims
        · rw [if_pos hfree] at h hquotient
          have := Int.ediv_eq_zero_of_lt (by omega) h
          omega
        · rw [if_neg hfree] at h hquotient
          rw [Int.ediv_eq_iff_of_pos hpos] at hquotient
          omega
  · obtain ⟨e, hrun⟩ := herror hsucceeds
    have hcreates : Creates nnodes dims (dimsCreate paramCheck nnodes ndims dims) ↔ ¬Divides nnodes dims := by
      rw [Creates, hrun]
      simp
    rw [hcreates, Divides, Creatable]
    by_cases hdvd : (givenDims dims).prod ∣ nnodes
    · have hcancel := Int.ediv_mul_cancel hdvd
      rw [if_pos hdvd]
      by_cases hcheck : paramCheck = true ∧ 1 > ndims
      · have hfree : 0 ∉ dims := by simp [hempty hcheck.2]
        rw [hone hcheck.2]
        constructor
        · intro h
          exact ⟨fun h' => h ⟨one_dvd _, fun _ => h'.2.2.symm⟩, fun h' => hfree h'.1⟩
        · rintro ⟨h, -⟩ h'
          exact h ⟨hcheck.1, hcheck.2, (h'.2 hfree).symm⟩
      · by_cases hfree : 0 ∈ dims
        · -- only the largest `int` is left over
          have hlarge : nnodes / (givenDims dims).prod = 2 ^ 31 - 1 := by
            by_contra hne
            refine hsucceeds ⟨hcheck, hdivides hdvd, ?_⟩
            rw [if_pos hfree]
            have := Int.ediv_pos_of_pos_of_dvd (by omega) hpos.le hdvd
            exact ⟨by omega, hne⟩
          have hunit := hmax hlarge
          rw [hunit, Int.ediv_one] at hlarge
          refine iff_of_false (fun h => h ⟨hdvd, fun h' => absurd hfree h'⟩) fun h => h.2 ⟨hfree, hunit, hlarge⟩
        · refine iff_of_true (fun h => hsucceeds ⟨hcheck, hdivides hdvd, ?_⟩)
            ⟨fun h => hcheck ⟨h.1, h.2.1⟩, fun h => hfree h.1⟩
          rw [if_neg hfree, h.2 hfree]
          exact Int.ediv_self (by omega)
    · rw [if_neg hdvd]
      refine iff_of_true (fun h => hdvd h.1) ?_
      by_contra hnot
      rw [not_or] at hnot
      obtain ⟨hall, hbounds⟩ := hnot
      refine hsucceeds ⟨fun hcheck => hdvd ?_, fun d hd => ?_, ?_⟩
      · rw [hone hcheck.2]
        exact one_dvd _
      · by_contra h
        exact hall ⟨d, hd, h⟩
      · by_cases hfree : 0 ∈ dims
        · rw [if_pos hfree] at hbounds ⊢
          refine ⟨Int.le_ediv_of_mul_le hpos (by omega), fun h => hdvd ?_⟩
          rw [hmax h]
          exact one_dvd _
        · rw [if_neg hfree, not_not] at hbounds
          rw [if_neg hfree, Int.ediv_eq_iff_of_pos hpos]
          omega

/-- Six processes and two given entries of 2: each divides 6, their product does not. -/
theorem dimsCreate_not_creates : ¬Creates 6 [2, 2, 0] (dimsCreate true 6 3 [2, 2, 0]) := by
  intro h
  have hrun : dimsCreate true 6 3 [2, 2, 0] = .ok [2, 2, 1] := by decide
  have hproduct := (h.2 _ hrun).product
  exact absurd hproduct (by decide)

/-- Twelve processes in a grid whose second size is 3. -/
theorem dimsCreate_creates_twelve : Creates 12 [0, 3, 0] (dimsCreate true 12 3 [0, 3, 0]) :=
  (dimsCreate_creates_iff true (by decide) (by decide) rfl (by decide)).mpr (by
    rw [Creatable, if_pos (by decide)]
    exact ⟨by decide, by decide⟩)

end OpenMPI.Topo
