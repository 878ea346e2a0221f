import Mathlib.Algebra.BigOperators.Ring.Finset
import Mathlib.Algebra.Group.Action.Defs
import OpenMPI.Ddt.ElementCount
import OpenMPI.Lib.PartialSum
import OpenMPI.Proofs.Ddt.TypeMap
import OpenMPI.Proofs.Ddt.Walk

/-!
# The counts follow the first loop only

At the end of a loop both functions go back to the start of what is around it, so the walk never
comes behind the first loop that has no other in it (`returns_walked`).  They count the basic
elements of a datatype if and only if the elements on that way have the sizes of its type map
(`countsElements_iff`).
-/

namespace OpenMPI.Ddt

open Lib List Nat

namespace CountWalk

variable {σ ρ : Type*} {data : Elem → σ → ρ ⊕ σ} {completed : σ → ρ} {desc : List Desc}
  {w w' : CountWalk σ} {r : ρ}

def Returns (data : Elem → σ → ρ ⊕ σ) (completed : σ → ρ) (desc : List Desc) (w : CountWalk σ)
    (r : ρ) : Prop :=
  ∃ fuel, w.run data completed desc fuel = some r

theorem run_mono {fuel fuel' : ℕ} (h : w.run data completed desc fuel = some r)
    (hle : fuel ≤ fuel') : w.run data completed desc fuel' = some r := by
  induction fuel generalizing w fuel' with
  | zero => cases h
  | succ fuel ih =>
    obtain ⟨fuel', rfl⟩ : ∃ k, fuel' = k + 1 := ⟨fuel' - 1, by omega⟩
    rw [run] at h ⊢
    rcases hstep : w.step data completed desc with _ | r' | w'
    · simp [hstep] at h
    · simpa [hstep] using h
    · simp only [hstep] at h ⊢
      exact ih h (by omega)

theorem Returns.unique {r' : ρ} (h : Returns data completed desc w r)
    (h' : Returns data completed desc w r') : r = r' := by
  obtain ⟨fuel, h⟩ := h
  obtain ⟨fuel', h'⟩ := h'
  have h1 := run_mono h (le_max_left fuel fuel')
  have h2 := run_mono h' (le_max_right fuel fuel')
  exact Option.some.inj (h1.symm.trans h2)

theorem returns_of_inl (h : w.step data completed desc = some (.inl r)) :
    Returns data completed desc w r := ⟨1, by simp [run, h]⟩

theorem returns_of_inr (h : w.step data completed desc = some (.inr w'))
    (h' : Returns data completed desc w' r) : Returns data completed desc w r := by
  obtain ⟨fuel, h'⟩ := h'
  exact ⟨fuel + 1, by simp [run, h, h']⟩

/-- The function returns `r` at one of the elements, or is behind them with variables that meet
`next`. -/
def Meets (data : Elem → σ → ρ ⊕ σ) (r : ρ) : List Elem → σ → (σ → Prop) → Prop
  | [], vars, next => next vars
  | e :: es, vars, next =>
    match data e vars with
    | .inl r' => r' = r
    | .inr vars' => Meets data r es vars' next

@[simp] theorem meets_append {as bs : List Elem} {vars : σ} {next : σ → Prop} :
    Meets data r (as ++ bs) vars next ↔
      Meets data r as vars fun vars' => Meets data r bs vars' next := by
  induction as generalizing vars with
  | nil => rfl
  | cons e as ih =>
    simp only [cons_append, Meets]
    rcases data e vars with r' | vars'
    · exact Iff.rfl
    · exact ih

theorem Meets.mono {es : List Elem} {vars : σ} {next next' : σ → Prop}
    (h : Meets data r es vars next) (hnext : ∀ vars, next vars → next' vars) :
    Meets data r es vars next' := by
  induction es generalizing vars with
  | nil => exact hnext _ h
  | cons e es ih =>
    rw [Meets] at h ⊢
    rcases hdata : data e vars with r' | vars' <;> rw [hdata] at h
    · exact h
    · exact ih h

variable {es cur before : List Elem} {tail : List Desc} {pos : ℕ} {stack : List CountEntry}
  {vars : σ}

theorem returns_elems (hpos : desc.drop pos = es.map Desc.elem ++ tail)
    (h : Meets data r es vars fun vars' =>
      Returns data completed desc ⟨pos + es.length, stack, vars'⟩ r) :
    Returns data completed desc ⟨pos, stack, vars⟩ r := by
  induction es generalizing pos vars with
  | nil => exact h
  | cons e es ih =>
    rw [map_cons, cons_append] at hpos
    have hget : desc[pos]? = some (.elem e) := getElem?_of_drop hpos
    rw [Meets] at h
    rcases hdata : data e vars with r' | vars' <;> rw [hdata] at h <;> dsimp only at h
    · exact returns_of_inl (by simp [step, hget, hdata, h])
    · have hstep : step data completed desc ⟨pos, stack, vars⟩
          = some (.inr ⟨pos + 1, stack, vars'⟩) := by
        simp [step, hget, hdata]
      refine returns_of_inr hstep (ih (drop_succ_of_drop hpos) (h.mono fun vars' h => ?_))
      rwa [length_cons, add_comm es.length, ← add_assoc] at h

theorem returns_loop {index : ℤ} {loops : ℕ} {up : CountEntry} {ups : List CountEntry} {e : EndLoop}
    (hloops : 0 < loops)
    (hpos : desc.drop (index + 1).toNat = cur.map Desc.elem ++ .endLoop e :: tail)
    (h : Meets data r (replicate loops cur).flatten vars fun vars' =>
      Returns data completed desc ⟨(up.index + 1).toNat, up :: ups, vars'⟩ r) :
    Returns data completed desc ⟨(index + 1).toNat, ⟨index, loops⟩ :: up :: ups, vars⟩ r := by
  have hend := getElem?_of_drop (drop_add_of_drop hpos)
  rw [length_map] at hend
  induction loops generalizing vars with
  | zero => omega
  | succ loops ih =>
    rw [replicate_succ, flatten_cons, meets_append] at h
    refine returns_elems hpos (h.mono fun vars' h => ?_)
    rcases Nat.eq_zero_or_pos loops with rfl | hpos'
    · exact returns_of_inr (by simp [step, hend]) h
    · exact returns_of_inr (by simp [step, hend, hpos'.ne']) (ih hpos' h)

theorem returns_enter {parent : CountEntry} {up : List CountEntry} {l : Loop} {K : σ → Prop}
    (hpos : desc.drop (parent.index + 1).toNat = before.map Desc.elem ++ .loop l :: tail)
    (h : Meets data r before vars K)
    (hnext : ∀ (pos : ℕ) (vars' : σ), desc.drop (pos + 1) = tail → K vars' →
      Returns data completed desc ⟨((pos : ℤ) + 1).toNat, ⟨pos, l.loops⟩ :: parent :: up, vars'⟩ r) :
    Returns data completed desc ⟨(parent.index + 1).toNat, parent :: up, vars⟩ r := by
  refine returns_elems hpos (h.mono fun vars' h => ?_)
  have hloop := drop_add_of_drop hpos
  rw [length_map] at hloop
  have hstep : step data completed desc ⟨(parent.index + 1).toNat + before.length, parent :: up, vars'⟩
      = some (.inr ⟨(parent.index + 1).toNat + before.length + 1,
        ⟨((parent.index + 1).toNat + before.length : ℕ), l.loops⟩ :: parent :: up, vars'⟩) := by
    simp [step, getElem?_of_drop hloop]
  have hbody := drop_succ_of_drop hloop
  generalize (parent.index + 1).toNat + before.length = pos at hstep hbody ⊢
  exact returns_of_inr hstep (hnext pos vars' hbody h)

theorem returns_rounds {parent : CountEntry} {up : List CountEntry} {l : Loop} {e : EndLoop}
    {rounds : ℕ} (hloops : 0 < l.loops)
    (hpos : desc.drop (parent.index + 1).toNat
      = before.map Desc.elem ++ .loop l :: (cur.map Desc.elem ++ .endLoop e :: tail))
    (h : Meets data r
      (replicate rounds (before ++ (replicate l.loops cur).flatten)).flatten vars
      fun _ => False) :
    Returns data completed desc ⟨(parent.index + 1).toNat, parent :: up, vars⟩ r := by
  induction rounds generalizing vars with
  | zero => exact h.elim
  | succ rounds ih =>
    rw [replicate_succ, flatten_cons, meets_append, meets_append] at h
    exact returns_enter hpos h fun pos vars' hbody h => returns_loop hloops hbody (h.mono fun vars' h => ih h)

theorem returns_inLoop {rounds : ℕ} {parent : CountEntry} {up : List CountEntry} {l : Loop}
    (hloops : ∀ l, Desc.loop l ∈ desc → 0 < l.loops)
    (hpos : desc.drop (parent.index + 1).toNat
      = before.map Desc.elem ++ .loop l :: (cur.map Desc.elem ++ tail))
    (h : Meets data r (walkedGo rounds tail (some (l.loops, before)) cur) vars fun _ => False) :
    Returns data completed desc ⟨(parent.index + 1).toNat, parent :: up, vars⟩ r := by
  have hmem : Desc.loop l ∈ desc := by
    apply mem_of_mem_drop
    rw [hpos]
    simp
  induction tail generalizing parent up l before cur vars with
  | nil => exact h.elim
  | cons d tail ih =>
    cases d with
    | elem e => exact @ih (cur ++ [e]) _ _ _ _ _ (by simpa using hpos) h hmem
    | endLoop e => exact returns_rounds (hloops l hmem) hpos h
    | loop l' =>
      rw [walkedGo, meets_append] at h
      refine returns_enter hpos h fun pos vars' hbody h => ?_
      have hmem' : Desc.loop l' ∈ desc := by
        apply mem_of_mem_drop
        rw [hbody]
        simp
      exact @ih [] cur _ ⟨pos, l.loops⟩ _ l' hbody h hmem'

theorem returns_walkedGo {rounds : ℕ} (hloops : ∀ l, Desc.loop l ∈ desc → 0 < l.loops)
    (hpos : desc = cur.map Desc.elem ++ tail)
    (h : Meets data r (walkedGo rounds tail none cur) vars fun _ => False) :
    Returns data completed desc (.start vars) r := by
  induction tail generalizing cur with
  | nil => exact h.elim
  | cons d tail ih =>
    cases d with
    | elem e => exact @ih (cur ++ [e]) (by simpa using hpos) h
    | endLoop e =>
      exact @returns_elems _ _ _ _ _ _ _ _ 0 _ _ hpos (h.mono fun _ => False.elim)
    | loop l =>
      have hstart : desc.drop ((-1 : ℤ) + 1).toNat
          = cur.map Desc.elem ++ .loop l :: (([] : List Elem).map Desc.elem ++ tail) := hpos
      exact @returns_inLoop _ _ _ _ _ _ [] cur _ _ rounds ⟨-1, 1⟩ [] l hloops hstart h

theorem returns_walked {rounds : ℕ} (hloops : ∀ l, Desc.loop l ∈ desc → 0 < l.loops)
    (h : Meets data r (walked rounds desc) vars fun _ => False) :
    Returns data completed desc (.start vars) r :=
  @returns_walkedGo _ _ _ _ _ _ [] _ _ rounds hloops rfl h

theorem returns_completed {e : EndLoop} (hpos : desc = es.map Desc.elem ++ [.endLoop e])
    (h : Meets data r es vars fun vars' => completed vars' = r) :
    Returns data completed desc (.start vars) r := by
  refine @returns_elems _ _ _ _ _ _ _ _ 0 _ _ hpos (h.mono fun vars' h => returns_of_inl ?_)
  have hend : desc[es.length]? = some (.endLoop e) := by simp [hpos]
  simp [step, hend, h]

end CountWalk

section Elements

variable {e : Elem} {es : List Elem} {n k : ℕ} {x : ℤ}

@[simp] theorem Elem.length_sizes : e.sizes.length = e.count := by simp [sizes]

@[simp] theorem Elem.sum_sizes : e.sizes.sum = e.count * e.type.size := by simp [sizes]

theorem Elem.sum_take_sizes (hk : k ≤ e.count) (l : List ℕ) :
    ((e.sizes ++ l).take k).sum = k * e.type.size := by
  rw [take_append_of_le_length (by simpa using hk), sizes, take_replicate,
    min_eq_left hk]
  simp

theorem Elem.sum_take_sizes_add (k : ℕ) (l : List ℕ) :
    ((e.sizes ++ l).take (e.count + k)).sum = e.count * e.type.size + (l.take k).sum := by
  have := @take_length_add_append _ e.sizes l k
  rw [Elem.length_sizes] at this
  rw [this, sum_append, Elem.sum_sizes]

theorem int32_int32_add (x y : ℤ) : int32 (int32 x + y) = int32 (x + y) := by
  simp [int32]

theorem meets_getData_of_lt {r : ℤ} {next : ℤ × ℕ → Prop} (hlt : (es.flatMap Elem.sizes).sum < n)
    (h : next (int32 (x + (es.flatMap Elem.sizes).length), n - (es.flatMap Elem.sizes).sum)) :
    CountWalk.Meets getData r es (int32 x, n) next := by
  induction es generalizing x n with
  | nil => simpa [CountWalk.Meets] using h
  | cons e es ih =>
    rw [flatMap_cons, sum_append, Elem.sum_sizes] at hlt h
    rw [length_append, Elem.length_sizes] at h
    rw [CountWalk.Meets, getData, if_neg (by omega)]
    dsimp only
    rw [int32_int32_add]
    refine ih (by omega) ?_
    rw [Nat.sub_sub, add_assoc]
    exact_mod_cast h

theorem exists_meets_getData (hle : n ≤ (es.flatMap Elem.sizes).sum) (hne : es ≠ []) :
    ∃ r, CountWalk.Meets getData r es (int32 x, n) (fun _ => False) ∧
      ((∃ k ≤ (es.flatMap Elem.sizes).length, ((es.flatMap Elem.sizes).take k).sum = n ∧
          r = int32 (x + k)) ∨
        (r = -1 ∧ ∀ k, ((es.flatMap Elem.sizes).take k).sum ≠ n)) := by
  induction es generalizing x n with
  | nil => exact absurd rfl hne
  | cons e es ih =>
    rw [flatMap_cons, sum_append, Elem.sum_sizes] at hle
    simp only [flatMap_cons, CountWalk.Meets, getData, length_append, Elem.length_sizes]
    by_cases hin : n ≤ e.count * e.type.size
    · rw [if_pos hin]
      refine ⟨_, rfl, ?_⟩
      have hk : n / e.type.size ≤ e.count :=
        Nat.div_le_of_le_mul (by rwa [mul_comm])
      by_cases hdvd : e.type.size ∣ n
      · refine .inl ⟨n / e.type.size, by omega, ?_, ?_⟩
        · rw [Elem.sum_take_sizes hk, Nat.div_mul_cancel hdvd]
        · rw [if_pos (by rw [Nat.div_mul_cancel hdvd, Nat.sub_self]), int32_int32_add]
      · have hmod := div_add_mod' n e.type.size
        have hpos : n % e.type.size ≠ 0 := fun h => hdvd (dvd_of_mod_eq_zero h)
        refine .inr ⟨if_neg (by omega), fun k hk => ?_⟩
        rcases le_total k e.count with hle' | hle'
        · rw [Elem.sum_take_sizes hle'] at hk
          exact hdvd ⟨k, by rw [← hk, mul_comm]⟩
        · obtain ⟨k, rfl⟩ := Nat.exists_eq_add_of_le hle'
          rw [Elem.sum_take_sizes_add] at hk
          exact hdvd ⟨e.count, by rw [mul_comm]; omega⟩
    · rw [if_neg hin]
      have hne' : es ≠ [] := by
        rintro rfl
        simp at hle
        omega
      obtain ⟨r, hmeets, hr⟩ := @ih (n - e.count * e.type.size) (x + e.count) (by omega) hne'
      dsimp only
      rw [int32_int32_add]
      refine ⟨r, hmeets, ?_⟩
      rcases hr with ⟨k, hk, hsum, rfl⟩ | ⟨rfl, hnone⟩
      · refine .inl ⟨e.count + k, by omega, ?_, ?_⟩
        · rw [Elem.sum_take_sizes_add]
          omega
        · push_cast
          rw [add_assoc]
      · refine .inr ⟨rfl, fun k hk => ?_⟩
        rcases le_total k e.count with hle' | hle'
        · rw [Elem.sum_take_sizes hle'] at hk
          have := mul_le_mul_right e.type.size hle'
          omega
        · obtain ⟨k, rfl⟩ := Nat.exists_eq_add_of_le hle'
          rw [Elem.sum_take_sizes_add] at hk
          exact hnone k (by omega)

theorem meets_setData {length count : ℕ} (hle : count ≤ (es.flatMap Elem.sizes).length)
    (hne : es ≠ []) :
    CountWalk.Meets setData (length + ((es.flatMap Elem.sizes).take count).sum) es
      (length, count) (fun _ => False) := by
  induction es generalizing length count with
  | nil => exact absurd rfl hne
  | cons e es ih =>
    rw [flatMap_cons, length_append, Elem.length_sizes] at hle
    rw [flatMap_cons, CountWalk.Meets, setData]
    by_cases hin : count ≤ e.count
    · rw [if_pos hin, Elem.sum_take_sizes hin]
    · rw [if_neg hin]
      have hne' : es ≠ [] := by
        rintro rfl
        simp at hle
        omega
      obtain ⟨k, rfl⟩ := Nat.exists_eq_add_of_le (Nat.le_of_not_le hin)
      have := @ih (length + e.count * e.type.size) k (by omega) hne'
      rw [Elem.sum_take_sizes_add, ← add_assoc, Nat.add_sub_cancel_left]
      exact this

end Elements

section Sums

variable {l walk : List ℕ} {n : ℕ} {r : ℤ}

def Returned (walk : List ℕ) (n : ℕ) (r : ℤ) : Prop :=
  (∃ k ≤ walk.length, (walk.take k).sum = n ∧ r = int32 k) ∨
    (r = -1 ∧ ∀ k, (walk.take k).sum ≠ n)

theorem int32_of_lt {k : ℕ} (h : k < 2 ^ 31) : int32 k = k := by
  unfold int32
  rw [Int.bmod_def]
  omega

theorem Returned.isElementCount (h : Returned walk n r) (hpre : l <+: walk)
    (hpos : ∀ s ∈ walk, 0 < s) (hlength : l.length < 2 ^ 31) (hn : n ≤ l.sum) :
    Datatype.IsElementCount l n r := by
  rcases h with ⟨k, hk, hsum, hr⟩ | ⟨hr, hnone⟩
  · have hle : k ≤ l.length := by
      by_contra hgt
      have hlt := sum_take_lt hpos (Nat.lt_of_not_le hgt) hk
      rw [take_of_isPrefix hpre le_rfl, take_length] at hlt
      omega
    refine .inl ⟨k, hle, ?_, hr.trans (int32_of_lt (by omega))⟩
    rw [← take_of_isPrefix hpre hle, hsum]
  · refine .inr ⟨hr, fun k hk => hnone (min k l.length) ?_⟩
    rw [take_of_isPrefix hpre (min_le_right _ _), ← hk]
    congr 1
    rw [← take_take, take_length]

theorem prefix_of_returned (hpos : ∀ s ∈ l, 0 < s) (hpos' : ∀ s ∈ walk, 0 < s)
    (hlength : l.length < 2 ^ 31) (hsum : l.sum ≤ walk.sum)
    (h : ∀ n ≤ l.sum, ∃ r, Returned walk n r ∧ Datatype.IsElementCount l n r) : l <+: walk := by
  have hboth (k : ℕ) (hk : k ≤ l.length) :
      k ≤ walk.length ∧ (walk.take k).sum = (l.take k).sum := by
    induction k with
    | zero => simp
    | succ k ih =>
      obtain ⟨hlt, heq⟩ := ih (by omega)
      have hstep : (l.take (k + 1)).sum = (l.take k).sum + l[k] := sum_take_succ l k hk
      have hle := sum_take_le_sum l (k + 1)
      have hposk := hpos _ (getElem_mem hk)
      have hlt' : k < walk.length := by
        by_contra hge
        rw [take_of_length_le (by omega)] at heq
        omega
      have hstep' : (walk.take (k + 1)).sum = (walk.take k).sum + walk[k] :=
        sum_take_succ walk k hlt'
      have hposk' := hpos' _ (getElem_mem hlt')
      refine ⟨hlt', ?_⟩
      rcases lt_trichotomy walk[k] l[k] with hless | hsame | hmore
      · obtain ⟨r, hr, hcount⟩ := h (walk.take (k + 1)).sum (by omega)
        have hno := sum_take_ne (l := l) hk (n := (walk.take (k + 1)).sum) (by omega) (by omega)
        rcases hcount with ⟨j, -, hj, -⟩ | ⟨rfl, -⟩
        · exact absurd hj (hno j)
        · rcases hr with ⟨j, hj, hj', hr⟩ | ⟨-, hnone⟩
          · obtain rfl := sum_take_inj hpos' hj hlt' hj'
            rw [int32_of_lt (by omega)] at hr
            omega
          · exact absurd rfl (hnone (k + 1))
      · omega
      · obtain ⟨r, hr, hcount⟩ := h (l.take (k + 1)).sum hle
        have hno := sum_take_ne (l := walk) hlt' (n := (l.take (k + 1)).sum) (by omega) (by omega)
        rcases hr with ⟨j, -, hj, -⟩ | ⟨rfl, -⟩
        · exact absurd hj (hno j)
        · rcases hcount with ⟨j, -, -, hr⟩ | ⟨-, hnone⟩
          · omega
          · exact absurd rfl (hnone (k + 1))
  exact prefix_of_sum_take (hboth _ le_rfl).1 fun k hk => (hboth k hk).2

end Sums

section Walked

variable {rounds rounds' : ℕ} {desc : List Desc} {loop : Option (ℕ × List Elem)} {done : List Elem}

theorem walkedGo_isPrefix (hle : rounds ≤ rounds') :
    walkedGo rounds desc loop done <+: walkedGo rounds' desc loop done := by
  induction desc generalizing loop done with
  | nil => exact prefix_rfl
  | cons d desc ih =>
    rcases d with e | l | e <;> rcases loop with _ | ⟨loops, before⟩
    · exact ih
    · exact ih
    · exact ih
    · exact (prefix_append_right_inj _).mpr ih
    · exact prefix_rfl
    · obtain ⟨more, rfl⟩ := Nat.exists_eq_add_of_le hle
      simp only [walkedGo, replicate_add, List.flatten_append]
      exact prefix_append _ _

theorem forall_walkedGo {p : Elem → Prop} (hdesc : ∀ e, Desc.elem e ∈ desc → p e)
    (hloop : ∀ loops before, loop = some (loops, before) → ∀ e ∈ before, p e)
    (hdone : ∀ e ∈ done, p e) : ∀ e ∈ walkedGo rounds desc loop done, p e := by
  induction desc generalizing loop done with
  | nil => simp [walkedGo]
  | cons d desc ih =>
    have hrest : ∀ e, Desc.elem e ∈ desc → p e := fun e he => hdesc e (mem_cons_of_mem _ he)
    cases d with
    | elem e =>
      have hdone' : ∀ e' ∈ done ++ [e], p e' := by
        intro e' he'
        rcases mem_append.mp he' with h | h
        · exact hdone e' h
        · rw [mem_singleton.mp h]
          exact hdesc e mem_cons_self
      rcases loop with _ | ⟨loops, before⟩
      · exact ih hrest hloop hdone'
      · exact ih hrest hloop hdone'
    | loop l =>
      have hbody : ∀ e ∈ walkedGo rounds desc (some (l.loops, done)) [], p e := by
        refine ih hrest ?_ (by simp)
        rintro loops before ⟨⟩
        exact hdone
      rcases loop with _ | ⟨loops, before⟩
      · exact hbody
      · intro e he
        rcases mem_append.mp he with h | h
        · exact hloop _ _ rfl e h
        · exact hbody e h
    | endLoop e =>
      rcases loop with _ | ⟨loops, before⟩
      · exact hdone
      · intro e he
        simp only [walkedGo, mem_flatten, mem_replicate] at he
        obtain ⟨l, ⟨-, rfl⟩, he⟩ := he
        rcases mem_append.mp he with h | h
        · exact hloop _ _ rfl e h
        · simp only [mem_flatten, mem_replicate] at h
          obtain ⟨l, ⟨-, rfl⟩, h⟩ := h
          exact hdone e h

namespace Body

variable {b : Body} {tail : List Desc} {e : EndLoop}

theorem loops_pos (hok : b.Ok) {l : Loop} (h : Desc.loop l ∈ b.flatten) : 0 < l.loops := by
  induction b with
  | nil => simp [flatten] at h
  | elem e rest ih => exact ih hok.2 (by simpa [flatten] using h)
  | loop contiguous loops extent body rest ih1 ih2 =>
    simp only [flatten, cons_append, mem_cons, mem_append, Desc.loop.injEq,
      reduceCtorEq, false_or] at h
    rcases h with rfl | h | h
    · exact hok.1.1
    · exact ih1 hok.2.1 h
    · exact ih2 hok.2.2 h

theorem count_pos (hok : b.Ok) {e : Elem} (h : Desc.elem e ∈ b.flatten) : 0 < e.count := by
  induction b with
  | nil => simp [flatten] at h
  | elem e' rest ih =>
    simp only [flatten, mem_cons, Desc.elem.injEq] at h
    rcases h with rfl | h
    · exact hok.1
    · exact ih hok.2 h
  | loop contiguous loops extent body rest ih1 ih2 =>
    simp only [flatten, cons_append, mem_cons, mem_append, reduceCtorEq,
      false_or] at h
    rcases h with h | h
    · exact ih1 hok.2.1 h
    · exact ih2 hok.2.2 h

theorem le_length_walkedGo {loops : ℕ} {before : List Elem} (hok : b.Ok) (hloops : 0 < loops)
    (hne : b ≠ nil ∨ done ≠ []) :
    rounds ≤ (walkedGo rounds (b.flatten ++ .endLoop e :: tail) (some (loops, before)) done).length
    := by
  induction b generalizing loops before done tail e with
  | nil =>
    have hdone : done ≠ [] := by simpa using hne
    have hpos := mul_pos hloops (length_pos_of_ne_nil hdone)
    have := mul_le_mul_left rounds hpos
    simp only [flatten, List.nil_append, walkedGo, List.length_flatten, map_replicate,
      sum_replicate, length_append, smul_eq_mul, mul_add]
    omega
  | elem e' rest ih => exact ih hok.2 hloops (.inr (by simp))
  | loop contiguous loops' extent body rest ih _ =>
    rw [flatten_loop_append, walkedGo, length_append]
    exact le_add_left_of_le (ih hok.2.1 hok.1.1 (.inl hok.1.2.1))

theorem walked_cases (hok : b.Ok) :
    (∃ es, b.flatten = es.map Desc.elem ∧
      ∀ rounds, walkedGo rounds (b.flatten ++ [.endLoop e]) none done = done ++ es) ∨
    ∀ rounds, rounds ≤ (walkedGo rounds (b.flatten ++ [.endLoop e]) none done).length := by
  induction b generalizing done with
  | nil => exact .inl ⟨[], rfl, fun _ => by simp [flatten, walkedGo]⟩
  | elem e' rest ih =>
    rcases @ih (done ++ [e']) hok.2 with ⟨es, hes, hwalked⟩ | hlength
    · refine .inl ⟨e' :: es, by simp [flatten, hes], fun rounds => ?_⟩
      rw [flatten, cons_append, walkedGo, hwalked, List.append_assoc, singleton_append]
    · exact .inr hlength
  | loop contiguous loops extent body rest _ _ =>
    refine .inr fun rounds => ?_
    rw [flatten_loop_append, walkedGo]
    exact le_length_walkedGo hok.2.1 hok.1.1 (.inl hok.1.2.1)

end Body

end Walked

namespace Datatype

variable {d base add : Datatype} {btypes : ℕ → ℕ} {m : ℕ}

theorem ddtAdd_predefined (count : ℕ) (disp extent : ℤ) :
    (base.ddtAdd add count disp extent).predefined = base.predefined := by
  unfold ddtAdd
  dsimp only
  split_ifs <;> rfl

theorem length_unit_of_predefined (hsize : 0 < add.size)
    (hbasic : (add.predefined && add.data) = true) : add.unit.length = 1 := by
  simp [unit, hbasic, hsize]

theorem length_typeMap_addedDesc (hadd : Sound add) (hsize : 0 < add.size) {count : ℕ}
    {disp extent : ℤ} :
    (typeMap (addedDesc add count disp extent)).length = count * add.unit.length := by
  by_cases hflat : Flattens add extent
  · obtain ⟨e, hdesc, -, -⟩ := hflat.exists_elem
    rw [typeMap_addedDesc_of_flattens hdesc hflat, unit_of_flattens hdesc hflat]
    simp [mul_comm]
  · rw [typeMap_addedDesc hadd hsize hflat]
    simp

theorem Counted.spec (h : Counted d btypes) : Built d ∧
    (∑ i ∈ Finset.Ico 4 dtMaxPredefined, btypes i) = (typeMap d.desc).length ∧
    ((d.predefined && d.data) = true → 4 ≤ d.id ∧ d.id < dtMaxPredefined) := by
  induction h with
  | @basic t align hid =>
    refine ⟨.basic ⟨by unfold dtLb; omega, by unfold dtUb; omega⟩, ?_, fun _ => hid⟩
    rw [Finset.sum_ite_eq', if_pos (Finset.mem_Ico.mpr hid)]
    simp [Datatype.basic, typeMap, typeMapGo, Elem.entries]
  | marker => exact ⟨.marker, by simp [Datatype.marker, typeMap, typeMapGo], by simp [Datatype.marker]⟩
  | create => exact ⟨.create, by simp [ddtCreate, typeMap, typeMapGo], by simp [ddtCreate]⟩
  | @add base add btypes added count disp extent hbase hopen hadd ih ih' =>
    obtain ⟨hbuilt, hsum, -⟩ := ih
    obtain ⟨hbuilt', hsum', hid⟩ := ih'
    refine ⟨.add hbuilt hopen hbuilt', ?_, ?_⟩
    · rw [typeMap_ddtAdd hbuilt.sound hbuilt'.sound, length_append, ← hsum]
      unfold addBtypes
      by_cases hskips : Skips add count
      · have hskips' := hskips
        unfold Skips at hskips'
        simp only [if_pos hskips, if_pos hskips', length_nil, add_zero]
      · have hsize : 0 < add.size := by
          unfold Skips at hskips
          omega
        have hskips' := hskips
        unfold Skips at hskips'
        rw [if_neg hskips, length_typeMap_addedDesc hbuilt'.sound hsize]
        simp only [if_neg hskips']
        by_cases hbasic : (add.predefined && add.data) = true
        · rw [length_unit_of_predefined hsize hbasic]
          simp only [hbasic, if_true]
          have hterm : ∀ i ∈ Finset.Ico 4 dtMaxPredefined,
              (if i = add.id then btypes i + count
                else if i = 0 ∧ (if extent = -1 then add.extent else extent) ≠ add.size ∧ 1 < count
                  then 1 else btypes i)
                = btypes i + if i = add.id then count else 0 := by
            intro i hi
            have := (Finset.mem_Ico.mp hi).1
            rw [if_neg (c := i = 0 ∧ _) (by omega)]
            split_ifs <;> rfl
          rw [Finset.sum_congr rfl hterm, Finset.sum_add_distrib, Finset.sum_ite_eq',
            if_pos (Finset.mem_Ico.mpr (hid hbasic)), mul_one]
        · have hunit : add.unit = typeMap add.desc := if_neg hbasic
          simp only [hbasic, if_false, Bool.false_eq_true]
          rw [hunit, ← hsum', Finset.mul_sum, ← Finset.sum_add_distrib]
          refine Finset.sum_congr rfl fun i hi => ?_
          have := (Finset.mem_Ico.mp hi).1
          rw [if_neg (by omega), if_pos this]
    · rw [ddtAdd_predefined, hopen.2]
      simp
  | duplicate _ ih => exact ⟨.duplicate ih.1, ih.2.1, by simp [ddtDuplicate]⟩
  | resized _ ih => exact ⟨.resized ih.1, ih.2.1, by simp [ddtCreateResized, ddtDuplicate]⟩
  | @commit d btypes _ ih =>
    refine ⟨.commit ih.1, ?_⟩
    unfold ddtCommit
    split_ifs
    · exact ih.2
    · exact ih.2
  | @predefine d btypes id ub _ hcommitted hdata hlb hid ih =>
    refine ⟨.predefine ih.1 hcommitted hdata hlb ⟨by unfold dtLb; omega, by unfold dtUb; omega⟩, ?_,
      fun _ => ?_⟩
    · rw [ih.2.1]
      simp [Datatype.predefine, ddtCommit, hcommitted]
    · simpa [Datatype.predefine, ddtCommit, hcommitted] using hid

theorem map_size_entries (e : Elem) : e.entries.map (fun entry => entry.2.size) = e.sizes := by
  have hcopies (n : ℕ) (disp : ℤ) : (strided n e.extent [(disp, e.type)]).map
      (fun entry => entry.2.size) = replicate n e.type.size := by
    induction n generalizing disp with
    | zero => rfl
    | succ n ih =>
      rw [strided_succ, shift_strided]
      simp [ih, replicate_succ]
  exact hcopies _ _

theorem sizes_elems (es : List Elem) :
    (typeMap (es.map Desc.elem)).map (fun entry => entry.2.size) = es.flatMap Elem.sizes := by
  have hgo (done : List (ℤ × Basic)) :
      (typeMapGo (es.map Desc.elem) [] done).map (fun entry => entry.2.size)
        = done.map (fun entry => entry.2.size) ++ es.flatMap Elem.sizes := by
    induction es generalizing done with
    | nil => simp [typeMapGo]
    | cons e es ih =>
      rw [map_cons, typeMapGo, ih, map_append, map_size_entries, flatMap_cons,
        List.append_assoc]
  exact hgo []

theorem sizes_pos (d : Datatype) (m : ℕ) : ∀ s ∈ d.sizes m, 0 < s := by
  intro s hs
  simp only [sizes, mem_flatten, mem_replicate] at hs
  obtain ⟨l, ⟨-, rfl⟩, hs⟩ := hs
  obtain ⟨entry, -, rfl⟩ := mem_map.mp hs
  exact entry.2.pos

theorem sum_sizes (h : Sound d) (m : ℕ) : (d.sizes m).sum = d.size * m := by
  obtain ⟨b, hb, -⟩ := h.described
  have hone : ((typeMap d.desc).map fun entry => entry.2.size).sum = d.size := by
    rw [← hb.width_eq, hb.desc_eq, Body.typeMap_flatten, Body.blocks_eq, width, map_map]
    rfl
  simp [sizes, sum_flatten, hone, mul_comm]

theorem length_sizes (d : Datatype) (m : ℕ) :
    (d.sizes m).length = m * (typeMap d.desc).length := by
  simp [sizes, List.length_flatten]

theorem sizes_succ (d : Datatype) (m : ℕ) : d.sizes (m + 1) = d.sizes 1 ++ d.sizes m := by
  simp [sizes, replicate_succ]

theorem sizes_one_isPrefix (hm : 0 < m) : d.sizes 1 <+: d.sizes m := by
  obtain ⟨m, rfl⟩ : ∃ k, m = k + 1 := ⟨m - 1, by omega⟩
  exact ⟨d.sizes m, (sizes_succ d m).symm⟩

theorem sum_take_sizes (h : Sound d) {k : ℕ} (hk : k ≤ (d.sizes m).length) :
    ((d.sizes m).take k).sum = d.size * (k / (d.sizes 1).length) +
      ((d.sizes 1).take (k % (d.sizes 1).length)).sum := by
  induction m generalizing k with
  | zero =>
    obtain rfl : k = 0 := by simpa [sizes] using hk
    simp
  | succ m ih =>
    rcases lt_or_ge k (d.sizes 1).length with hlt | hge
    · rw [div_eq_of_lt hlt, mod_eq_of_lt hlt, take_of_isPrefix (sizes_one_isPrefix (by omega)) hlt.le]
      simp
    · obtain ⟨k, rfl⟩ := Nat.exists_eq_add_of_le hge
      rw [sizes_succ d m, length_append] at hk
      rw [sizes_succ d m, take_length_add_append, sum_append, ih (by omega), sum_sizes h]
      rcases Nat.eq_zero_or_pos (d.sizes 1).length with hzero | hpos
      · rw [length_eq_zero_iff] at hzero
        have hsum := sum_sizes h 1
        rw [hzero, sum_nil, mul_one] at hsum
        simp [hzero, ← hsum]
      · rw [add_div_left _ hpos, add_mod_left]
        ring

theorem IsElementCount.unique {l : List ℕ} {n : ℕ} {r r' : ℤ} (hpos : ∀ s ∈ l, 0 < s)
    (h : IsElementCount l n r) (h' : IsElementCount l n r') : r = r' := by
  rcases h with ⟨k, hk, hsum, rfl⟩ | ⟨rfl, hnone⟩
  · rcases h' with ⟨k', hk', hsum', rfl⟩ | ⟨-, hnone⟩
    · rw [sum_take_inj hpos hk hk' (hsum.trans hsum'.symm)]
    · exact absurd hsum (hnone k)
  · rcases h' with ⟨k', -, hsum', -⟩ | ⟨rfl, -⟩
    · exact absurd hsum' (hnone k')
    · rfl

theorem Gets.unique {n : ℕ} {r r' : ℤ} (h : d.Gets n r) (h' : d.Gets n r') : r = r' :=
  CountWalk.Returns.unique h h'

theorem Sets.unique {k n n' : ℕ} (h : d.Sets btypes k n) (h' : d.Sets btypes k n') : n = n' := by
  obtain ⟨fuel, h⟩ := h
  obtain ⟨fuel', h'⟩ := h'
  unfold ddtSetElementCount at h h'
  dsimp only at h h'
  split_ifs at h h' with hzero hwhole
  · exact Option.some.inj (h.symm.trans h')
  · exact CountWalk.Returns.unique ⟨fuel, h⟩ ⟨fuel', h'⟩

section Sound

variable {b : Body} {rounds n : ℕ}

def walkedSizes (d : Datatype) (rounds : ℕ) : List ℕ :=
  (walked rounds d.committedDesc).flatMap Elem.sizes

theorem committedDesc_eq (hb : Describes b d.desc d.size) :
    ∃ e, d.committedDesc = b.flatten ++ [.endLoop e] :=
  ⟨⟨d.desc.length, d.size, if d.size ≠ 0 then firstElemDisp d.desc else 0⟩,
    by rw [committedDesc, ← hb.desc_eq, fakeEnd]⟩

theorem loops_pos_committedDesc (hb : Describes b d.desc d.size) :
    ∀ l, Desc.loop l ∈ d.committedDesc → 0 < l.loops := by
  intro l hl
  obtain ⟨e, he⟩ := committedDesc_eq hb
  exact Body.loops_pos hb.ok (by simpa [he] using hl)

theorem count_pos_walked (hb : Describes b d.desc d.size) :
    ∀ e ∈ walked rounds d.committedDesc, 0 < e.count := by
  obtain ⟨e, he⟩ := committedDesc_eq hb
  refine forall_walkedGo (fun e' he' => ?_) (by simp) (by simp)
  exact Body.count_pos hb.ok (by simpa [he] using he')

theorem walkedSizes_pos (d : Datatype) (rounds : ℕ) : ∀ s ∈ d.walkedSizes rounds, 0 < s := by
  intro s hs
  obtain ⟨e, -, hs⟩ := mem_flatMap.mp hs
  rw [Elem.sizes, mem_replicate] at hs
  rw [hs.2]
  exact e.type.pos

theorem length_le_walkedSizes (hb : Describes b d.desc d.size) :
    (walked rounds d.committedDesc).length ≤ (d.walkedSizes rounds).length := by
  have hcount := @count_pos_walked d b rounds hb
  unfold walkedSizes
  generalize walked rounds d.committedDesc = es at hcount ⊢
  induction es with
  | nil => simp
  | cons e es ih =>
    have := hcount e mem_cons_self
    have := ih fun e he => hcount e (mem_cons_of_mem _ he)
    rw [flatMap_cons, length_append, Elem.length_sizes, length_cons]
    omega

theorem walkedSizes_isPrefix {rounds' : ℕ} (hle : rounds ≤ rounds') :
    d.walkedSizes rounds <+: d.walkedSizes rounds' := by
  obtain ⟨t, ht⟩ := @walkedGo_isPrefix rounds rounds' d.committedDesc none [] hle
  exact ⟨t.flatMap Elem.sizes, by rw [walkedSizes, walkedSizes, walked, walked, ← ht,
    flatMap_append]⟩

theorem exists_gets (hb : Describes b d.desc d.size) (hne : walked rounds d.committedDesc ≠ [])
    (hn : n ≤ (d.walkedSizes rounds).sum) :
    ∃ r, d.Gets n r ∧ Returned (d.walkedSizes rounds) n r := by
  obtain ⟨r, hmeets, hr⟩ := @exists_meets_getData (walked rounds d.committedDesc) n 0 hn hne
  rw [show int32 0 = 0 by rfl] at hmeets
  refine ⟨r, CountWalk.returns_walked (loops_pos_committedDesc hb) hmeets, ?_⟩
  simp only [zero_add] at hr
  exact hr

theorem gets_of_elems (hb : Describes b d.desc d.size) {es : List Elem}
    (hes : b.flatten = es.map Desc.elem) (hn : (es.flatMap Elem.sizes).sum < n) :
    d.Gets n (int32 (es.flatMap Elem.sizes).length) := by
  obtain ⟨e, he⟩ := committedDesc_eq hb
  rw [hes] at he
  refine CountWalk.returns_completed he ?_
  have := @meets_getData_of_lt es n 0 (int32 (es.flatMap Elem.sizes).length)
    (fun vars => Prod.fst vars = int32 (es.flatMap Elem.sizes).length) hn (by simp)
  rwa [show int32 0 = 0 by rfl] at this

theorem sets_walked (hb : Describes b d.desc d.size) (hne : walked rounds d.committedDesc ≠ [])
    (hlength : uint32 (∑ i ∈ Finset.Ico 4 dtMaxPredefined, btypes i : ℕ) = (d.sizes 1).length)
    (hpos : 0 < (d.sizes 1).length) {k : ℕ}
    (hk : k % (d.sizes 1).length ≤ (d.walkedSizes rounds).length) :
    d.Sets btypes k (d.size * (k / (d.sizes 1).length) +
      ((d.walkedSizes rounds).take (k % (d.sizes 1).length)).sum) := by
  have hmeets := @meets_setData (walked rounds d.committedDesc)
    (d.size * (k / (d.sizes 1).length)) _ hk hne
  obtain ⟨fuel, hfuel⟩ :=
    @CountWalk.returns_walked _ _ _ Prod.fst _ _ _ rounds (loops_pos_committedDesc hb) hmeets
  refine ⟨fuel, ?_⟩
  unfold ddtSetElementCount
  simp only [hlength]
  rw [if_neg hpos.ne']
  split_ifs with hzero
  · simp [hzero]
  · exact hfuel

end Sound

theorem walks_cases (h : Sound d) : ∃ b, Describes b d.desc d.size ∧
    ((∃ es, b.flatten = es.map Desc.elem ∧ es.flatMap Elem.sizes = d.sizes 1 ∧
        ∀ rounds, walked rounds d.committedDesc = es) ∨
      ∀ rounds, rounds ≤ (walked rounds d.committedDesc).length) := by
  obtain ⟨b, hb, -⟩ := h.described
  obtain ⟨e, he⟩ := committedDesc_eq hb
  refine ⟨b, hb, ?_⟩
  rcases @Body.walked_cases [] b e hb.ok with ⟨es, hes, hwalked⟩ | hlength
  · refine .inl ⟨es, hes, ?_, fun rounds => ?_⟩
    · simp [sizes, hb.desc_eq, hes, sizes_elems]
    · rw [walked, he, hwalked, List.nil_append]
  · exact .inr fun rounds => by rw [walked, he]; exact hlength rounds

theorem length_sizes_one_pos (h : Sound d) (hsize : 0 < d.size) : 0 < (d.sizes 1).length := by
  rw [Nat.pos_iff_ne_zero, Ne, length_eq_zero_iff]
  intro hnil
  have := sum_sizes h 1
  rw [hnil] at this
  simp at this
  omega

theorem walked_ne_nil (h : Sound d) (hsize : 0 < d.size) {rounds : ℕ} (hrounds : 0 < rounds) :
    walked rounds d.committedDesc ≠ [] := by
  obtain ⟨b, hb, ⟨es, -, hsizes, hwalked⟩ | hlength⟩ := walks_cases h
  · rw [hwalked]
    rintro rfl
    have := length_sizes_one_pos h hsize
    rw [← hsizes] at this
    simp at this
  · intro hnil
    have := hlength rounds
    rw [hnil] at this
    simp at this
    omega

theorem Counted.uint32_eq (h : Counted d btypes) (hm : 0 < m) (hlength : (d.sizes m).length < 2 ^ 31) :
    uint32 (∑ i ∈ Finset.Ico 4 dtMaxPredefined, btypes i : ℕ) = (d.sizes 1).length := by
  have hle := (@sizes_one_isPrefix d m hm).length_le
  have hone := length_sizes d 1
  rw [one_mul] at hone
  rw [h.spec.2.1, ← hone]
  unfold uint32
  omega

theorem CountsInOrder.countsElements (h : Counted d btypes) (hm : 0 < m) (hd : d.CountsInOrder m) :
    CountsElements d btypes m := by
  obtain ⟨hsize, hlength, hpre⟩ := hd
  have hsound := h.spec.1.sound
  obtain ⟨b, hb, -⟩ := hsound.described
  have hne := walked_ne_nil hsound hsize (succ_pos (d.sizes m).length)
  -- one more round, so that there is an element in any case
  have hpre : d.sizes m <+: d.walkedSizes ((d.sizes m).length + 1) :=
    hpre.trans (walkedSizes_isPrefix (le_succ _))
  have hpos := walkedSizes_pos d ((d.sizes m).length + 1)
  have hget (n : ℕ) (hn : n ≤ d.size * m) : ∃ r, d.Gets n r ∧ IsElementCount (d.sizes m) n r := by
    rw [← sum_sizes hsound] at hn
    have hle : (d.sizes m).sum ≤ (d.walkedSizes ((d.sizes m).length + 1)).sum := by
      have := sum_take_le_sum (d.walkedSizes ((d.sizes m).length + 1)) (d.sizes m).length
      rwa [take_of_isPrefix hpre le_rfl, take_length] at this
    obtain ⟨r, hr, hreturned⟩ := exists_gets hb hne (hn.trans hle)
    exact ⟨r, hr, hreturned.isElementCount hpre hpos hlength hn⟩
  have hset (k : ℕ) (hk : k ≤ (d.sizes m).length) :
      d.Sets btypes k ((d.sizes m).take k).sum := by
    have hmod := mod_lt k (length_sizes_one_pos hsound hsize)
    have hone := @sizes_one_isPrefix d m hm
    have hle := (hone.trans hpre).length_le
    have := sets_walked hb hne (h.uint32_eq hm hlength) (length_sizes_one_pos hsound hsize)
      (hmod.le.trans hle)
    rwa [take_of_isPrefix (hone.trans hpre) hmod.le, ← sum_take_sizes hsound hk] at this
  refine ⟨hget, fun k hk _ => hset k hk, ?_, ?_⟩
  · intro k n hk _ hsets
    obtain rfl := hsets.unique (hset k hk)
    have hn : ((d.sizes m).take k).sum ≤ d.size * m := by
      rw [← sum_sizes hsound]
      exact sum_take_le_sum _ _
    obtain ⟨r, hr, hcount⟩ := hget _ hn
    rwa [hcount.unique (sizes_pos d m) (.inl ⟨k, hk, rfl, rfl⟩)] at hr
  · intro k n hn hgets
    obtain ⟨r, hr, hcount⟩ := hget n hn
    obtain rfl := hgets.unique hr
    rcases hcount with ⟨k', hk', hsum, hkk'⟩ | ⟨hneg, -⟩
    · obtain rfl : k = k' := by exact_mod_cast hkk'
      rw [← hsum]
      exact hset k hk'
    · omega

theorem Gets.lt (h : Sound d) (hsize : 0 < d.size) {n : ℕ} {r : ℤ} (hgets : d.Gets n r) :
    r < 2 ^ 31 := by
  have hwrapped (x : ℤ) : int32 x < 2 ^ 31 := Int.bmod_lt (by decide)
  have hreturned {walk : List ℕ} {r : ℤ} (h : Returned walk n r) : r < 2 ^ 31 := by
    rcases h with ⟨k, -, -, hr⟩ | ⟨hr, -⟩
    · exact hr.trans_lt (hwrapped k)
    · omega
  obtain ⟨b, hb, ⟨es, hes, -, hwalked⟩ | hlength⟩ := walks_cases h
  · rcases lt_or_ge (es.flatMap Elem.sizes).sum n with hlt | hle
    · rw [hgets.unique (gets_of_elems hb hes hlt)]
      exact hwrapped _
    · have hne := walked_ne_nil h hsize (succ_pos 0)
      have hle : n ≤ (d.walkedSizes 1).sum := by rwa [walkedSizes, hwalked]
      obtain ⟨r', hr', h'⟩ := exists_gets hb hne hle
      rw [hgets.unique hr']
      exact hreturned h'
  · have hne := walked_ne_nil h hsize (succ_pos n)
    have hle : n ≤ (d.walkedSizes (n + 1)).sum := by
      have h1 := hlength (n + 1)
      have h2 := @length_le_walkedSizes d b (n + 1) hb
      have h3 := length_le_sum (walkedSizes_pos d (n + 1))
      omega
    obtain ⟨r', hr', h'⟩ := exists_gets hb hne hle
    rw [hgets.unique hr']
    exact hreturned h'

theorem CountsElements.size_pos (h : Counted d btypes) (hcounts : CountsElements d btypes m) :
    0 < d.size := by
  by_contra hzero
  have hsum := sum_sizes h.spec.1.sound 1
  have hnil : d.sizes 1 = [] := by
    have := length_le_sum (sizes_pos d 1)
    exact length_eq_zero_iff.mp (by omega)
  obtain ⟨fuel, hset⟩ := hcounts.set 0 (zero_le _) (by decide)
  have hlength := length_sizes d 1
  rw [hnil, length_nil, one_mul] at hlength
  have hlocal : uint32 (∑ i ∈ Finset.Ico 4 dtMaxPredefined, btypes i : ℕ) = 0 := by
    rw [h.spec.2.1, ← hlength]
    rfl
  rw [ddtSetElementCount, hlocal] at hset
  simp at hset

theorem CountsElements.length_lt (h : Counted d btypes) (hcounts : CountsElements d btypes m) :
    (d.sizes m).length < 2 ^ 31 := by
  by_contra hge
  have hsound := h.spec.1.sound
  obtain ⟨r, hgets, hcount⟩ := hcounts.get ((d.sizes m).take (2 ^ 31)).sum
    ((sum_take_le_sum _ _).trans_eq (sum_sizes hsound m))
  have hr := hgets.lt hsound (hcounts.size_pos h)
  rw [hcount.unique (sizes_pos d m) (.inl ⟨2 ^ 31, by omega, rfl, rfl⟩)] at hr
  norm_num at hr

theorem CountsElements.countsInOrder (h : Counted d btypes) (hm : 0 < m)
    (hcounts : CountsElements d btypes m) : d.CountsInOrder m := by
  have hsound := h.spec.1.sound
  have hsize := hcounts.size_pos h
  have hlength := hcounts.length_lt h
  refine ⟨hsize, hlength, ?_⟩
  obtain ⟨b, hb, ⟨es, hes, hsizes, hwalked⟩ | hwalked⟩ := walks_cases hsound
  · rw [hwalked, hsizes]
    -- behind the description the count stays at what one instance has
    suffices m = 1 by rw [this]
    by_contra hone
    have htwo := mul_le_mul_left d.size (show 2 ≤ m by omega)
    have hlong := sum_sizes hsound 1
    obtain ⟨r, hgets, hcount⟩ := hcounts.get (d.size * 2) htwo
    rw [hgets.unique (gets_of_elems hb hes (by rw [hsizes]; omega)), hsizes] at hcount
    obtain ⟨k, rfl⟩ : ∃ k, m = k + 2 := ⟨m - 2, by omega⟩
    have htake : ((d.sizes (k + 2)).take ((d.sizes 1).length * 2)).sum = d.size * 2 := by
      rw [sizes_succ d (k + 1), sizes_succ d k, Nat.mul_two, take_length_add_append, sum_append,
        take_left, hlong]
      ring
    have hle : (d.sizes 1).length * 2 ≤ (d.sizes (k + 2)).length := by
      rw [sizes_succ d (k + 1), sizes_succ d k, length_append, length_append]
      omega
    have := hcount.unique (sizes_pos d (k + 2)) (.inl ⟨_, hle, htake, rfl⟩)
    rw [int32_of_lt (by omega)] at this
    have := length_sizes_one_pos hsound hsize
    omega
  · have hrounds := length_le_sum (sizes_pos d m)
    have hpre : d.sizes m <+: d.walkedSizes ((d.sizes m).sum + 1) := by
      have h1 := hwalked ((d.sizes m).sum + 1)
      have h2 := @length_le_walkedSizes d b ((d.sizes m).sum + 1) hb
      have h3 := length_le_sum (walkedSizes_pos d ((d.sizes m).sum + 1))
      have hle : (d.sizes m).sum ≤ (d.walkedSizes ((d.sizes m).sum + 1)).sum := by omega
      refine prefix_of_returned (sizes_pos d m) (walkedSizes_pos d _) hlength hle fun n hn => ?_
      obtain ⟨r, hr, hreturned⟩ := exists_gets hb
        (walked_ne_nil hsound hsize (succ_pos (d.sizes m).sum)) (hn.trans hle)
      obtain ⟨r', hr', hcount⟩ := hcounts.get n (hn.trans_eq (sum_sizes hsound m))
      rw [hr.unique hr'] at hreturned
      exact ⟨r', hreturned, hcount⟩
    have hfewer := @walkedSizes_isPrefix d (d.sizes m).length ((d.sizes m).sum + 1) (by omega)
    exact prefix_of_prefix_length_le hpre hfewer
      ((hwalked _).trans (length_le_walkedSizes hb))

theorem counted_mpiInt : Counted mpiInt (fun i => if i = 11 then 1 else 0) := .basic (by decide)

/-- `struct { int a; char gap[4]; int b; char gap[4]; char c; }`, the integers as a vector. -/
def vectorAndByte : Datatype :=
  ddtCreateStruct [⟨1, 0, 0, ddtCreateVector 2 1 2 mpiInt⟩, ⟨1, 16, 1, basic dtByte 1⟩]

end Datatype

end OpenMPI.Ddt
