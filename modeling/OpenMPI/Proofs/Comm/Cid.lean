import OpenMPI.Comm.Cid
import OpenMPI.Proofs.Class.PointerArray

/-!
# The processes agree on the id of a new communicator

Where the processes take their reductions at once, a round begins with the lowest ids from `start` on
that are free in each table, reserved there; all the other slots are as they were.  The round gives
the greatest of these ids to all the processes if it is free in all the tables, and otherwise leaves
every table as it was, with an id that is not free everywhere behind it.  So the rounds end, at the
latest at an id that is free everywhere.
-/

namespace OpenMPI.Comm

open Class Class.PointerArray Lib Option

variable {α : Type}

structure Roomy (t : PointerArray α) : Prop where
  kept : t.Kept
  maxSize : t.maxSize = fortranHandleMax

structure Like (t₀ t : PointerArray α) : Prop extends Roomy t where
  items : ∀ i, t.getItem i = t₀.getItem i

structure Only (t₀ t : PointerArray α) (index : ℤ) (value : Option α) : Prop extends Roomy t where
  item : t.getItem index = value
  other : ∀ i, i ≠ index → t.getItem i = t₀.getItem i

section Tables

variable {t t₀ : PointerArray α} {index : ℤ}

theorem Roomy.growTo (h : Roomy t) (hpos : 0 ≤ index) (hlt : index + 2 < fortranHandleMax) :
    ∃ t', t.growTo index true = some (true, t') ∧ t'.maxSize = fortranHandleMax := by
  unfold PointerArray.growTo
  split_ifs with hle
  · have hmax := h.maxSize
    unfold fortranHandleMax intMax at hlt hmax
    have hsoft : softFor index = (index / 2 + 1) * 2 := by
      unfold softFor
      rw [Int.tdiv_eq_ediv_of_nonneg hpos]
      exact toInt_eq (by unfold tableGrow; omega) (by unfold tableGrow intMax; omega)
    unfold growTable
    rw [hsoft, if_neg (by omega)]
    dsimp only
    rw [if_neg (show ¬_ > _ by omega), if_neg (by omega), if_neg (by omega), if_pos (by simp; omega)]
    exact ⟨_, rfl, hmax⟩
  · exact ⟨t, rfl, h.maxSize⟩

theorem Roomy.reaches (h : Roomy t) (hpos : 0 ≤ index) : Careful.Reaches t index := by
  have hmax := h.maxSize
  refine ⟨hpos, fun hodd => ?_⟩
  unfold fortranHandleMax at hmax
  omega

theorem Roomy.setItem (h : Roomy t) (hpos : 0 ≤ index) (hlt : index + 2 < fortranHandleMax)
    (value : Option α) :
    ∃ t', t.setItem index value true = some (true, t') ∧ Only t t' index value := by
  have hint : index ≤ intMax := by
    unfold fortranHandleMax at hlt
    omega
  obtain ⟨done, t', hset, hok⟩ := ok_setItem h.kept hint (h.reaches hpos) value true
  obtain ⟨t₁, hgrow, hmax⟩ := h.growTo hpos hlt
  have hdone : done = true ∧ t'.maxSize = fortranHandleMax := by
    unfold PointerArray.setItem at hset
    rw [hgrow] at hset
    simp only [bind_some, Bool.not_true, Bool.false_eq_true, if_false,
      map_eq_some_iff, Prod.mk.injEq] at hset
    obtain ⟨old, -, rfl, rfl⟩ := hset
    refine ⟨rfl, ?_⟩
    split_ifs <;> exact hmax
  obtain ⟨rfl, hmax'⟩ := hdone
  obtain ⟨hkept, -, -, -, hitem, hother⟩ := hok
  exact ⟨t', hset, ⟨hkept, hmax'⟩, hitem, hother⟩

theorem Roomy.testAndSetItem_free (h : Roomy t) (hpos : 0 ≤ index)
    (hlt : index + 2 < fortranHandleMax) (hfree : t.getItem index = none) (value : α) :
    ∃ t', t.testAndSetItem index value true = some (true, t') ∧ Only t t' index (some value) := by
  have hint : index ≤ intMax := by
    unfold fortranHandleMax at hlt
    omega
  obtain ⟨done, t', hset, hok⟩ := ok_testAndSetItem h.kept hint (h.reaches hpos) value true
  obtain ⟨t₁, hgrow, hmax⟩ := h.growTo hpos hlt
  have huse : (if index < t.size then (t.slot index).map Option.isSome else some false)
      = some false := by
    split_ifs with hin
    · rw [slot_eq_some h.kept.size_eq hpos hin, hfree]
      rfl
    · rfl
  have hdone : done = true ∧ t'.maxSize = fortranHandleMax := by
    unfold PointerArray.testAndSetItem at hset
    simp only [huse, bind_some, Bool.false_eq_true, if_false, hgrow, Bool.not_true,
      map_eq_some_iff, Prod.mk.injEq] at hset
    obtain ⟨old, -, rfl, rfl⟩ := hset
    exact ⟨rfl, hmax⟩
  obtain ⟨rfl, hmax'⟩ := hdone
  obtain ⟨hkept, -, -, -, hitem, hother⟩ := hok
  exact ⟨t', hset, ⟨hkept, hmax'⟩, hitem, hother⟩

theorem Roomy.testAndSetItem_taken (h : Roomy t) (hpos : 0 ≤ index)
    (htaken : t.getItem index ≠ none) (value : α) :
    t.testAndSetItem index value true = some (false, t) := by
  have hin : index < t.size := by
    rcases Int.lt_or_le index t.size with hin | hle
    · exact hin
    · exact absurd (getItem_of_size_le h.kept.size_eq hle) htaken
  have huse : (if index < t.size then (t.slot index).map Option.isSome else some false)
      = some true := by
    rw [if_pos hin, slot_eq_some h.kept.size_eq hpos hin]
    exact congrArg some (isSome_iff_ne_none.mpr htaken)
  unfold PointerArray.testAndSetItem
  simp only [huse, bind_some, if_true]

theorem Like.only (h : Like t₀ t) {t' : PointerArray α} {value : Option α}
    (h' : Only t t' index value) : Only t₀ t' index value :=
  ⟨h'.toRoomy, h'.item, fun i hi => (h'.other i hi).trans (h.items i)⟩

theorem Only.like (h : Only t₀ t index (some value)) {t' : PointerArray α}
    (hfree : t₀.getItem index = none) (h' : Only t t' index none) : Like t₀ t' := by
  refine ⟨h'.toRoomy, fun i => ?_⟩
  rcases eq_or_ne i index with rfl | hi
  · rw [h'.item, hfree]
  · rw [h'.other i hi, h.other i hi]

theorem reserve_spec (comm : α) {cid : ℤ} (hcid : cid + 2 < fortranHandleMax)
    (hfree : t₀.getItem cid = none) (n : ℕ) (start : ℤ) (hpos : 0 ≤ start) (hle : start ≤ cid)
    (hn : cid < start + n) (h : Like t₀ t) :
    ∃ x t', reserve comm n start t = some (some x, t') ∧ start ≤ x ∧ x ≤ cid ∧
      t₀.getItem x = none ∧ Only t₀ t' x (some comm) := by
  induction n generalizing start with
  | zero => omega
  | succ n ih =>
    unfold reserve
    rcases Classical.em (t₀.getItem start = none) with hstart | htaken
    · obtain ⟨t', hset, honly⟩ := h.testAndSetItem_free hpos (by omega)
        ((h.items start).trans hstart) comm
      rw [hset]
      exact ⟨start, t', rfl, Int.le_refl _, hle, hstart, h.only honly⟩
    · have hne : start ≠ cid := fun heq => htaken (heq ▸ hfree)
      rw [h.testAndSetItem_taken hpos (fun hnone => htaken ((h.items start).symm.trans hnone)) comm]
      obtain ⟨x, t', hreserve, hx, hrest⟩ := ih (start + 1) (by omega) (by omega) (by omega)
      exact ⟨x, t', hreserve, by omega, hrest⟩

end Tables

/-- What holds of the table at the start of a call; no PML's bound is above 65535. -/
structure Setting.Ready (s : Setting α) : Prop extends Roomy s.table where
  pmlMaxContextid_lt : s.pmlMaxContextid + 1 < fortranHandleMax

structure Setting.Free (s : Setting α) (cid : ℤ) : Prop where
  nonneg : 0 ≤ cid
  lt : cid < s.pmlMaxContextid
  free : s.table.getItem cid = none

structure Calls (s : Setting α) (p : Process α) : Prop where
  comm : p.comm = s.comm
  newcomm : p.newcomm = s.newcomm
  pmlMaxContextid : p.pmlMaxContextid = s.pmlMaxContextid

structure Searched (s : Setting α) (start cid : ℤ) (p : Process α) : Prop extends Calls s p where
  place : p.place = .max
  start_le : start ≤ p.nextlocalCid
  le_cid : p.nextlocalCid ≤ cid
  free : s.table.getItem p.nextlocalCid = none
  table : Only s.table p.table p.nextlocalCid (some s.comm)

/-- A process at the second reduction: it has reserved the id, or it cannot have it. -/
structure Responded (s : Setting α) (cid : ℤ) (p : Process α) : Prop extends Calls s p where
  place : p.place = .min
  nextcid : p.nextcid = cid
  response : (s.table.getItem cid = none ∧ p.response = 1 ∧
      Only s.table p.table cid (some s.comm)) ∨
    (s.table.getItem cid ≠ none ∧ p.response = 0 ∧ Like s.table p.table)

section Process

variable {s : Setting α} {p : Process α} {start cid : ℤ}

theorem Setting.Ready.lt (hready : s.Ready) (hfree : s.Free cid) : cid + 2 < fortranHandleMax := by
  have := hready.pmlMaxContextid_lt
  have := hfree.lt
  omega

theorem search_spec (hready : s.Ready) (hfree : s.Free cid) (hcalls : Calls s p)
    (hlike : Like s.table p.table) (hstart : p.start = start) (hpos : 0 ≤ start) (hle : start ≤ cid) :
    ∃ p', p.search = some p' ∧ Searched s start cid p' := by
  have hlt := hfree.lt
  obtain ⟨x, t', hreserve, hx, hxle, hxfree, honly⟩ :=
    reserve_spec p.comm (hready.lt hfree) hfree.free (p.pmlMaxContextid - start).toNat start hpos hle
      (by rw [hcalls.pmlMaxContextid]; omega) hlike
  unfold Process.search
  rw [hstart, hreserve]
  rw [hcalls.comm] at honly
  exact ⟨_, rfl, ⟨hcalls.comm, hcalls.newcomm, hcalls.pmlMaxContextid⟩, rfl, hx, hxle, hxfree, honly⟩

theorem begin_spec (hready : s.Ready) (hfree : s.Free cid) :
    ∃ p, s.begin = some p ∧ Searched s 0 cid p := by
  have hkept := hready.kept
  have hle : s.table.lowestFree ≤ cid := by
    -- the slots below the lowest free one are taken
    rcases Int.lt_or_le cid s.table.lowestFree with hlt | hle
    · exact absurd hfree.free (hkept.taken cid hfree.nonneg hlt)
    · exact hle
  obtain ⟨p, hp, h⟩ : ∃ p, s.begin = some p ∧ Searched s s.table.lowestFree cid p :=
    search_spec hready hfree ⟨rfl, rfl, rfl⟩ ⟨hready.toRoomy, fun _ => rfl⟩ rfl hkept.lowestFree.1 hle
  exact ⟨p, hp, h.toCalls, h.place, le_trans hkept.lowestFree.1 h.start_le, h.le_cid, h.free,
    h.table⟩

theorem Searched.respond (h : Searched s start cid p) (hpos : 0 ≤ start) {nextcid : ℤ}
    (hle : p.nextlocalCid ≤ nextcid) (hlt : nextcid + 2 < fortranHandleMax) :
    ∃ p', p.respond nextcid = some p' ∧ Responded s nextcid p' := by
  unfold Process.respond
  dsimp only
  split_ifs with heq
  · refine ⟨_, rfl, ⟨h.comm, h.newcomm, h.pmlMaxContextid⟩, rfl, rfl, .inl ?_⟩
    rw [heq]
    exact ⟨h.free, rfl, h.table⟩
  · have hlocal : 0 ≤ p.nextlocalCid := le_trans hpos h.start_le
    obtain ⟨t₁, hset, hnone⟩ := h.table.setItem hlocal (by omega) none
    have hlike := h.table.like h.free hnone
    rw [hset]
    rcases Classical.em (s.table.getItem nextcid = none) with hfree | htaken
    · obtain ⟨t₂, htest, honly⟩ := hlike.testAndSetItem_free (le_trans hlocal hle) hlt
        ((hlike.items nextcid).trans hfree) p.comm
      simp only [bind_some, htest, map_some]
      rw [h.comm] at honly
      exact ⟨_, rfl, ⟨h.comm, h.newcomm, h.pmlMaxContextid⟩, rfl, rfl,
        .inl ⟨hfree, rfl, hlike.only honly⟩⟩
    · have htest := hlike.testAndSetItem_taken (le_trans hlocal hle)
        (fun hn => htaken ((hlike.items nextcid).symm.trans hn)) p.comm
      simp only [bind_some, htest, map_some]
      exact ⟨_, rfl, ⟨h.comm, h.newcomm, h.pmlMaxContextid⟩, rfl, rfl, .inr ⟨htaken, rfl, hlike⟩⟩

theorem Responded.finish (h : Responded s cid p) (hpos : 0 ≤ cid) (hlt : cid + 2 < fortranHandleMax)
    (hfree : s.table.getItem cid = none) :
    ∃ p', p.conclude 1 = some p' ∧ p'.place = .done ∧ Finished s cid p' := by
  rcases h.response with ⟨-, -, honly⟩ | ⟨htaken, -⟩
  · obtain ⟨t', hset, honly'⟩ := honly.setItem hpos hlt (some p.newcomm)
    unfold Process.conclude
    rw [if_pos rfl, h.nextcid, hset]
    refine ⟨_, rfl, rfl, rfl, rfl, ?_, fun i hi => ?_⟩
    · rw [← h.newcomm]
      exact honly'.item
    · exact (honly'.other i hi).trans (honly.other i hi)
  · exact absurd hfree htaken

theorem Responded.goOn (h : Responded s start p) (hready : s.Ready) (hfree : s.Free cid)
    (hpos : 0 ≤ start) (hlt : start < cid) :
    ∃ p', p.conclude 0 = some p' ∧ Searched s (start + 1) cid p' := by
  have hmax := hready.lt hfree
  obtain ⟨t', hrelease, hlike⟩ : ∃ t', (if p.response = 1 then
      (p.table.setItem p.nextcid none true).map Prod.snd else some p.table) = some t' ∧
        Like s.table t' := by
    rcases h.response with ⟨hstart, hone, honly⟩ | ⟨-, hzero, hlike⟩
    · obtain ⟨t', hset, hnone⟩ := honly.setItem hpos (by omega) none
      rw [if_pos hone, h.nextcid, hset]
      exact ⟨t', rfl, honly.like hstart hnone⟩
    · rw [if_neg (by omega)]
      exact ⟨p.table, rfl, hlike⟩
  unfold Process.conclude
  rw [if_neg (by decide), if_pos rfl, hrelease, h.nextcid]
  exact search_spec hready hfree ⟨h.comm, h.newcomm, h.pmlMaxContextid⟩ hlike rfl (by omega) (by omega)

end Process

structure Reduces {P : Type} (total : Op → (P → ℤ) → ℤ) : Prop where
  le_max : ∀ values p, values p ≤ total .max values
  exists_max : ∀ values, ∃ p, total .max values = values p
  min_le : ∀ values p, total .min values ≤ values p
  exists_min : ∀ values, ∃ p, total .min values = values p

section Reduces

variable {P : Type} [Fintype P]

theorem reduces_intra [Nonempty P] :
    Reduces (reduce (Finset.univ : Finset P) Finset.univ_nonempty) where
  le_max values p := Finset.le_sup' values (Finset.mem_univ p)
  exists_max values :=
    let ⟨p, _, h⟩ := Finset.exists_mem_eq_sup' Finset.univ_nonempty values
    ⟨p, h⟩
  min_le values p := Finset.inf'_le values (Finset.mem_univ p)
  exists_min values :=
    let ⟨p, _, h⟩ := Finset.exists_mem_eq_inf' Finset.univ_nonempty values
    ⟨p, h⟩

variable (S : Split P)

theorem Split.mem_group (p : P) : p ∈ ({q | S.group q = S.group p} : Finset P) :=
  Finset.mem_filter.mpr ⟨Finset.mem_univ p, rfl⟩

theorem Split.le_reduce (values : P → ℤ) (p : P) :
    values p ≤ S.groups.reduce .max (S.group p) values :=
  Finset.le_sup' values (S.mem_group p)

theorem Split.reduce_le (values : P → ℤ) (p : P) :
    S.groups.reduce .min (S.group p) values ≤ values p :=
  Finset.inf'_le values (S.mem_group p)

theorem Split.exists_reduce (o : Op) (g : Bool) (values : P → ℤ) :
    ∃ p, S.groups.reduce o g values = values p := by
  cases o with
  | max =>
    obtain ⟨p, -, h⟩ := Finset.exists_mem_eq_sup' (S.nonempty g) values
    exact ⟨p, h⟩
  | min =>
    obtain ⟨p, -, h⟩ := Finset.exists_mem_eq_inf' (S.nonempty g) values
    exact ⟨p, h⟩

theorem reduces_inter : Reduces S.groups.total where
  le_max values p := by
    have h := S.le_reduce values p
    show _ ≤ max _ _
    cases hg : S.group p <;> rw [hg] at h
    · exact le_max_of_le_left h
    · exact le_max_of_le_right h
  exists_max values := by
    obtain ⟨p, hp⟩ := S.exists_reduce .max false values
    obtain ⟨q, hq⟩ := S.exists_reduce .max true values
    show ∃ r, max _ _ = _
    rcases max_choice (S.groups.reduce .max false values) (S.groups.reduce .max true values)
      with h | h
    · exact ⟨p, h.trans hp⟩
    · exact ⟨q, h.trans hq⟩
  min_le values p := by
    have h := S.reduce_le values p
    show min _ _ ≤ _
    cases hg : S.group p <;> rw [hg] at h
    · exact min_le_of_left_le h
    · exact min_le_of_right_le h
  exists_min values := by
    obtain ⟨p, hp⟩ := S.exists_reduce .min false values
    obtain ⟨q, hq⟩ := S.exists_reduce .min true values
    show ∃ r, min _ _ = _
    rcases min_choice (S.groups.reduce .min false values) (S.groups.reduce .min true values)
      with h | h
    · exact ⟨p, h.trans hp⟩
    · exact ⟨q, h.trans hq⟩

end Reduces

section Rounds

variable {P : Type} {s : P → Setting α} {total : Op → (P → ℤ) → ℤ} {start cid : ℤ}

def alternate (r : ℕ) : Op := if r % 2 = 0 then .max else .min

abbrev together (total : Op → (P → ℤ) → ℤ) (s : P → Setting α) : ℕ → P → Option (Process α) :=
  lock process total alternate fun p => (s p).begin

def AtMax (s : P → Setting α) (start cid : ℤ) (state : P → Option (Process α)) : Prop :=
  ∀ p, ∃ q, state p = some q ∧ Searched (s p) start cid q

def AtMin (s : P → Setting α) (cid : ℤ) (state : P → Option (Process α)) : Prop :=
  ∀ p, ∃ q, state p = some q ∧ Responded (s p) cid q

theorem AtMax.value {state : P → Option (Process α)} (h : AtMax s start cid state) (p : P) :
    ∃ q, state p = some q ∧ Searched (s p) start cid q ∧
      process.offer (state p) = some (.max, q.nextlocalCid) ∧
      process.value (state p) = q.nextlocalCid := by
  obtain ⟨q, hq, hsearched⟩ := h p
  have hoffer : process.offer (state p) = some (.max, q.nextlocalCid) := by
    show (state p).bind Process.offer = _
    rw [hq, bind_some, Process.offer, hsearched.place]
  exact ⟨q, hq, hsearched, hoffer, by rw [Party.value, hoffer]; rfl⟩

theorem AtMin.value {state : P → Option (Process α)} (h : AtMin s cid state) (p : P) :
    ∃ q, state p = some q ∧ Responded (s p) cid q ∧
      process.offer (state p) = some (.min, q.response) ∧
      process.value (state p) = q.response := by
  obtain ⟨q, hq, hresponded⟩ := h p
  have hoffer : process.offer (state p) = some (.min, q.response) := by
    show (state p).bind Process.offer = _
    rw [hq, bind_some, Process.offer, hresponded.place]
  exact ⟨q, hq, hresponded, hoffer, by rw [Party.value, hoffer]; rfl⟩

variable (hready : ∀ p, (s p).Ready) (hfree : ∀ p, (s p).Free cid) (hred : Reduces total)

include hready hfree hred in
theorem AtMax.respond {r : ℕ} (hr : r % 2 = 0) (hpos : 0 ≤ start)
    (h : AtMax s start cid (together total s r)) :
    ∃ next, start ≤ next ∧ next ≤ cid ∧ AtMin s next (together total s (r + 1)) := by
  have halt : alternate r = .max := if_pos hr
  let values := fun q => process.value (together total s r q)
  refine ⟨total .max values, ?_, ?_, fun p => ?_⟩
  · obtain ⟨p, hp⟩ := hred.exists_max values
    obtain ⟨q, -, hsearched, -, hvalue⟩ := h.value p
    rw [hp, show values p = _ from hvalue]
    exact hsearched.start_le
  · obtain ⟨p, hp⟩ := hred.exists_max values
    obtain ⟨q, -, hsearched, -, hvalue⟩ := h.value p
    rw [hp, show values p = _ from hvalue]
    exact hsearched.le_cid
  · obtain ⟨q, hq, hsearched, -, hvalue⟩ := h.value p
    have hle := hred.le_max values p
    rw [show values p = _ from hvalue] at hle
    have hmax : total .max values ≤ cid := by
      obtain ⟨p', hp'⟩ := hred.exists_max values
      obtain ⟨q', -, hsearched', -, hvalue'⟩ := h.value p'
      rw [hp', show values p' = _ from hvalue']
      exact hsearched'.le_cid
    have hlt := (hready p).lt (hfree p)
    obtain ⟨q', hrespond, hresponded⟩ := hsearched.respond hpos hle (by omega)
    refine ⟨q', ?_, hresponded⟩
    show (together total s r p).bind (Process.resume · (total (alternate r) values)) = some q'
    rw [hq, bind_some, Process.resume, hsearched.place, halt]
    exact hrespond

include hready hfree hred in
theorem AtMin.conclude {r : ℕ} (hr : r % 2 = 1) (hpos : 0 ≤ start) (hle : start ≤ cid)
    (h : AtMin s start (together total s r)) :
    ((∀ p, (s p).table.getItem start = none) ∧ AllDone s start (together total s (r + 1))) ∨
      (start < cid ∧ AtMax s (start + 1) cid (together total s (r + 1))) := by
  have halt : alternate r = .min := if_neg (by omega)
  let values := fun q => process.value (together total s r q)
  have hnext (p : P) (q : Process α) (hq : together total s r p = some q) (hplace : q.place = .min) :
      together total s (r + 1) p = q.conclude (total .min values) := by
    show (together total s r p).bind (Process.resume · (total (alternate r) values)) = _
    rw [hq, bind_some, Process.resume, hplace, halt]
  rcases Classical.em (∀ p, (s p).table.getItem start = none) with hall | hsome
  · refine .inl ⟨hall, fun p => ?_⟩
    have hone : total .min values = 1 := by
      obtain ⟨p', hp'⟩ := hred.exists_min values
      obtain ⟨q', -, hresponded, -, hvalue⟩ := h.value p'
      rw [hp', show values p' = _ from hvalue]
      rcases hresponded.response with ⟨-, hone, -⟩ | ⟨htaken, -⟩
      · exact hone
      · exact absurd (hall p') htaken
    obtain ⟨q, hq, hresponded, -⟩ := h.value p
    have hlt := (hready p).lt (hfree p)
    rw [hnext p q hq hresponded.place, hone]
    exact hresponded.finish hpos (by omega) (hall p)
  · obtain ⟨p₀, hp₀⟩ := Classical.not_forall.mp hsome
    have hlt : start < cid := by
      rcases Int.lt_or_eq_of_le hle with hlt | rfl
      · exact hlt
      · exact absurd (hfree p₀).free hp₀
    have hzero : total .min values = 0 := by
      have hle₀ := hred.min_le values p₀
      obtain ⟨q₀, -, hresponded₀, -, hvalue₀⟩ := h.value p₀
      rw [show values p₀ = _ from hvalue₀] at hle₀
      obtain ⟨p', hp'⟩ := hred.exists_min values
      obtain ⟨q', -, hresponded', -, hvalue'⟩ := h.value p'
      rw [hp', show values p' = _ from hvalue'] at hle₀ ⊢
      rcases hresponded₀.response with ⟨hnone, -⟩ | ⟨-, hzero, -⟩
      · exact absurd hnone hp₀
      · rcases hresponded'.response with ⟨-, hone, -⟩ | ⟨-, hzero', -⟩
        · omega
        · exact hzero'
    refine .inr ⟨hlt, fun p => ?_⟩
    obtain ⟨q, hq, hresponded, -⟩ := h.value p
    rw [hnext p q hq hresponded.place, hzero]
    exact hresponded.goOn (hready p) (hfree p) hpos hlt

include hready hfree hred in
theorem AtMax.rounds (r : ℕ) (hr : r % 2 = 0) (hpos : 0 ≤ start) (hle : start ≤ cid)
    (h : AtMax s start cid (together total s r)) :
    ∃ k given, r ≤ k ∧
      (∀ i, r ≤ i → i < k → ∀ p, ∃ q v, together total s i p = some q ∧
        q.offer = some (alternate i, v)) ∧
      (∀ p, (s p).table.getItem given = none) ∧ AllDone s given (together total s k) := by
  induction hn : (cid - start).toNat using Nat.strong_induction_on generalizing start r with
  | _ n ih =>
    obtain ⟨next, hstart, hnext, hmin⟩ := h.respond hready hfree hred hr hpos
    have hoffers : ∀ i, r ≤ i → i < r + 2 → ∀ p, ∃ q v, together total s i p = some q ∧
        q.offer = some (alternate i, v) := by
      intro i hi hlt p
      rcases show i = r ∨ i = r + 1 by omega with rfl | rfl
      · obtain ⟨q, hq, hsearched⟩ := h p
        refine ⟨q, q.nextlocalCid, hq, ?_⟩
        rw [Process.offer, hsearched.place, alternate, if_pos hr]
      · obtain ⟨q, hq, hresponded⟩ := hmin p
        refine ⟨q, q.response, hq, ?_⟩
        rw [Process.offer, hresponded.place, alternate, if_neg (by omega)]
    rcases hmin.conclude hready hfree hred (by omega) (le_trans hpos hstart) hnext
      with ⟨hall, hdone⟩ | ⟨hlt, hmax⟩
    · exact ⟨r + 2, next, by omega, hoffers, hall, hdone⟩
    · obtain ⟨k, given, hk, hrest, hall, hdone⟩ := ih (cid - (next + 1)).toNat (by omega) (r + 2)
        (by omega) (by omega) (by omega) hmax rfl
      refine ⟨k, given, by omega, fun i hi hik => ?_, hall, hdone⟩
      rcases lt_or_ge i (r + 2) with hi' | hi'
      · exact hoffers i hi hi'
      · exact hrest i hi' hik

include hready hfree hred in
theorem exists_inStep [Nonempty P] :
    ∃ k given, InStep process total alternate (fun p => (s p).begin) k ∧
      (∀ p, (s p).table.getItem given = none) ∧
      (∀ i ≤ k, Agreed s given (together total s i)) ∧ AllDone s given (together total s k) := by
  have hcid : 0 ≤ cid := (hfree (Classical.arbitrary P)).nonneg
  have hbegin : AtMax s 0 cid (together total s 0) := fun p => begin_spec (hready p) (hfree p)
  obtain ⟨k, given, -, hoffers, hall, hdone⟩ :=
    hbegin.rounds hready hfree hred 0 rfl (Int.le_refl 0) hcid
  refine ⟨k, given, ⟨fun i hi p => ?_, fun p => ?_⟩, hall, fun i hi p => ?_, hdone⟩
  · obtain ⟨q, v, hq, hoffer⟩ := hoffers i (Nat.zero_le i) hi p
    refine ⟨v, ?_⟩
    show (together total s i p).bind Process.offer = _
    rw [hq, bind_some, hoffer]
  · obtain ⟨q, hq, hplace, -⟩ := hdone p
    show (together total s k p).bind Process.offer = none
    rw [hq, bind_some, Process.offer, hplace]
  · rcases Nat.lt_or_eq_of_le hi with hlt | rfl
    · obtain ⟨q, v, hq, hoffer⟩ := hoffers i (Nat.zero_le i) hlt p
      refine ⟨q, hq, fun hplace => ?_⟩
      rw [Process.offer, hplace] at hoffer
      cases hoffer
    · obtain ⟨q, hq, -, hfinished⟩ := hdone p
      exact ⟨q, hq, fun _ => hfinished⟩

end Rounds

section Runs

variable {P : Type} {s : P → Setting α} {total : Op → (P → ℤ) → ℤ} {given : ℤ} {k : ℕ}
  {state : P → Option (Process α)} {left : P → ℕ}

theorem agreed_of_lock (hagreed : ∀ i ≤ k, Agreed s given (together total s i))
    (hstate : ∀ p, state p = together total s (left p) p) (hle : ∀ p, left p ≤ k) :
    Agreed s given state := by
  intro p
  rw [hstate p]
  exact hagreed _ (hle p) p

theorem allDone_of_lock (hdone : AllDone s given (together total s k))
    (hstate : ∀ p, state p = together total s (left p) p) (hleft : ∀ p, left p = k) :
    AllDone s given state := by
  intro p
  rw [hstate p, hleft p]
  exact hdone p

variable [Fintype P] [DecidableEq P]

/-- Whatever the order of the steps, the call ends, in the same way in all the processes: they have
the same id, which was free in all the tables, and no other slot of a table has changed. -/
theorem nextcid_agrees [Nonempty P] (s : P → Setting α) (hready : ∀ p, (s p).Ready) {cid : ℤ}
    (hfree : ∀ p, (s p).Free cid) :
    Agrees s (intraNextcid s) (fun n => n.state) (.start fun p => (s p).begin) ∧
      ∀ S : Split P, Agrees s (interNextcid S s) (fun n => n.state) (.start fun p => (s p).begin) := by
  refine ⟨?_, fun S => ?_⟩
  · obtain ⟨k, given, hstep, hall, hagreed, hdone⟩ := exists_inStep hready hfree reduces_intra
    refine ⟨given, Fintype.card P * (2 * k), hall, fun es n hrun => ?_⟩
    obtain ⟨hsynced, hlength, hend⟩ := intra_run hstep hrun
    exact ⟨agreed_of_lock hagreed hsynced.state hsynced.left_le, hlength,
      hend.imp_left (allDone_of_lock hdone hsynced.state)⟩
  · obtain ⟨k, given, hstep, hall, hagreed, hdone⟩ := exists_inStep hready hfree (reduces_inter S)
    refine ⟨given, Fintype.card P * (2 * k) + 4 * k, hall, fun es n hrun => ?_⟩
    obtain ⟨hinter, hlength, hend⟩ := inter_run hstep hrun
    have hsynced := hinter.synced
    exact ⟨agreed_of_lock hagreed hsynced.state hsynced.left_le, hlength,
      hend.imp_left (allDone_of_lock hdone hsynced.state)⟩

end Runs

/-- Two processes, one of which has given its first id away. -/
def twoTables (p : Bool) : Setting Unit where
  comm := ()
  newcomm := ()
  pmlMaxContextid := 65535
  table := if p then ⟨1, 1, 2, intMax, 0, some [some (), none]⟩ else construct
  nextlocalCid := 0
  nextcid := 0
  response := 0

theorem ready_twoTables (p : Bool) : (twoTables p).Ready := by
  cases p with
  | false => exact ⟨⟨kept_construct, rfl⟩, by decide⟩
  | true =>
    refine ⟨⟨⟨rfl, by decide, Int.le_refl _, rfl, by decide, fun i hi hlt => ?_, fun _ => rfl⟩, rfl⟩,
      by decide⟩
    have hlt : i < 1 := hlt
    obtain rfl : i = 0 := by omega
    decide

theorem nextcid_agrees_two :
    Agrees twoTables (intraNextcid twoTables) (fun n => n.state)
        (.start fun p => (twoTables p).begin) ∧
      Agrees twoTables (interNextcid ⟨id, id, fun _ => rfl⟩ twoTables) (fun n => n.state)
        (.start fun p => (twoTables p).begin) := by
  have hfree : ∀ p, (twoTables p).Free 1 := by
    intro p
    cases p <;> exact ⟨by decide, by decide, by decide⟩
  obtain ⟨hintra, hinter⟩ := nextcid_agrees twoTables ready_twoTables hfree
  exact ⟨hintra, hinter ⟨id, id, fun _ => rfl⟩⟩

end OpenMPI.Comm
