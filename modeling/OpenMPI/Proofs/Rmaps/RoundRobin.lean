import Mathlib.Algebra.BigOperators.Group.Finset.Basic
import Mathlib.Algebra.Order.BigOperators.Group.List
import Mathlib.Tactic.Linarith
import OpenMPI.Rmaps.RoundRobin

/-!
# Round-robin mapping

A node is claimed before its limit is looked at, so a node on the list must have room for one more rank,
and the ranks must fit: the room is a multiple of `cpus_per_rank`, or large enough for all the processes
asked for (`Careful`).  Then a node leaves the list exactly when it is full (`Placing`).
-/

namespace OpenMPI.Rmaps.RoundRobin

open List Function

variable {ν : Type*}

def limit (map : Map) (node : Slots) : Option ℕ :=
  if node.slotsMax = 0 then if map.oversubscribe then none else some node.slots
  else if map.oversubscribe then some node.slotsMax else some (min node.slotsMax node.slots)

theorem within_iff {map : Map} {node : Slots} :
    Within map node ↔ ∀ L, limit map node = some L → node.slotsInuse ≤ L := by
  unfold Within limit
  split_ifs with hmax hover hover <;> simp [hmax, hover]

theorem fullyUsed_iff {map : Map} {node : Slots} :
    fullyUsed map node = true ↔ ∃ L, limit map node = some L ∧ L ≤ node.slotsInuse := by
  have hused : fullyUsed map node = true ↔ (node.slotsMax ≠ 0 ∧ node.slotsMax ≤ node.slotsInuse) ∨
      (map.oversubscribe = false ∧ node.slots ≤ node.slotsInuse) := by
    rw [fullyUsed, decide_eq_true_eq, Bool.not_eq_true, ne_comm]
  rw [hused]
  unfold limit
  split_ifs with hmax hover hover <;> simp [hmax, hover]

@[simp] theorem limit_inuse (map : Map) (node : Slots) (x : ℕ) :
    limit map { node with slotsInuse := x } = limit map node :=
  rfl

def Around (l : List ν) (cur : ν) (rest : List ν) : Prop :=
  ∃ pre post, l = pre ++ cur :: post ∧ rest = post ++ pre

theorem Around.mem {l rest : List ν} {cur : ν} (h : Around l cur rest) (n : ν) :
    n ∈ l ↔ n = cur ∨ n ∈ rest := by
  obtain ⟨pre, post, rfl, rfl⟩ := h
  simp only [mem_append, mem_cons]
  tauto

theorem exists_around {l : List ν} {cur : ν} (h : cur ∈ l) : ∃ rest, Around l cur rest := by
  obtain ⟨pre, post, rfl⟩ := append_of_mem h
  exact ⟨post ++ pre, pre, post, rfl, rfl⟩

variable [DecidableEq ν]

theorem Around.next {l rest : List ν} {cur : ν} (h : Around l cur rest) (hnodup : l.Nodup) :
    (∃ rest', Around l (getNext l cur) rest' ∧ getNext l cur :: rest' = rest ++ [cur]) ∧
      (rest = [] ∧ l.erase cur = [] ∨
        ∃ rest', Around (l.erase cur) (getNext l cur) rest' ∧ getNext l cur :: rest' = rest) := by
  obtain ⟨pre, post, rfl, rfl⟩ := h
  have hpre : cur ∉ pre := fun hmem =>
    (nodup_append.mp hnodup).2.2 cur hmem cur mem_cons_self rfl
  have hidx : (pre ++ cur :: post).idxOf cur = pre.length := by
    rw [idxOf_append_of_notMem hpre, idxOf_cons_self, add_zero]
  have hdrop : (pre ++ cur :: post).drop (pre.length + 1) = post := by
    rw [← drop_drop, drop_left]
    rfl
  have herase : (pre ++ cur :: post).erase cur = pre ++ post := by
    rw [erase_append_right _ hpre, erase_cons_head]
  rw [getNext, hidx, hdrop, herase]
  rcases post with _ | ⟨q, post⟩
  · rcases pre with _ | ⟨p, pre⟩
    · exact ⟨⟨[], ⟨[], [], rfl, rfl⟩, rfl⟩, .inl ⟨rfl, rfl⟩⟩
    · refine ⟨⟨pre ++ [cur], ⟨[], pre ++ [cur], rfl, by simp⟩, rfl⟩, .inr ⟨pre, ⟨[], pre, by simp, by simp⟩, rfl⟩⟩
  · refine ⟨⟨post ++ pre ++ [cur], ⟨pre ++ [cur], post, by simp, by simp⟩, by simp⟩,
      .inr ⟨post ++ pre, ⟨pre, post, rfl, rfl⟩, rfl⟩⟩

/-- What has become of a round when the nodes `new` have been claimed. -/
structure Placing (map : Map) (r₀ : Round ν) (new : List ν) (r : Round ν) : Prop where
  node : ∀ n, r.node n =
    { r₀.node n with slotsInuse := (r₀.node n).slotsInuse + map.cpusPerRank * new.count n }
  procs : r.procs = r₀.procs ++ new.zipIdx r₀.start
  start : r.start = r₀.start + new.length
  nodup : r.nodeList.Nodup
  listed : ∀ n ∈ r.nodeList, n ∈ r₀.nodeList
  claimed : ∀ n ∈ new, n ∈ r₀.nodeList
  room : ∀ n ∈ r.nodeList, n ∈ new → fullyUsed map (r.node n) = false
  gone : ∀ n ∈ r₀.nodeList, n ∉ r.nodeList → fullyUsed map (r.node n) = true

section Claims

variable {map : Map} {r₀ r : Round ν} {new : List ν}

theorem Placing.refl (hnodup : r₀.nodeList.Nodup) : Placing map r₀ [] r₀ where
  node n := by simp
  procs := by simp
  start := by simp
  nodup := hnodup
  listed _ hn := hn
  claimed _ hn := absurd hn not_mem_nil
  room _ _ hn := absurd hn not_mem_nil
  gone _ hn hnot := absurd hn hnot

theorem claimSlot_node (map : Map) (r : Round ν) (n : ν) : (claimSlot map r n).1.node =
    update r.node n { r.node n with slotsInuse := (r.node n).slotsInuse + map.cpusPerRank } := by
  dsimp only [claimSlot]
  split_ifs <;> rfl

theorem claimSlot_procs (map : Map) (r : Round ν) (n : ν) : (claimSlot map r n).1.procs = r.procs ++ [(n, r.start)] ∧
    (claimSlot map r n).1.start = r.start + 1 := by
  dsimp only [claimSlot]
  split_ifs <;> exact ⟨rfl, rfl⟩

theorem claimSlot_full (map : Map) (r : Round ν) (n : ν) :
    (claimSlot map r n).2 = fullyUsed map ((claimSlot map r n).1.node n) ∧
      (claimSlot map r n).1.nodeList = if (claimSlot map r n).2 then r.nodeList.erase n else r.nodeList := by
  rcases hfull : fullyUsed map
    { r.node n with slotsInuse := (r.node n).slotsInuse + map.cpusPerRank } with _ | _ <;>
    simp [claimSlot, hfull]

theorem Placing.claim (h : Placing map r₀ new r) {n : ν} (hn : n ∈ r.nodeList) :
    Placing map r₀ (new ++ [n]) (claimSlot map r n).1 := by
  have hnode := claimSlot_node map r n
  obtain ⟨hprocs, hstart⟩ := claimSlot_procs map r n
  obtain ⟨hfull, hlist⟩ := claimSlot_full map r n
  have hsame {m : ν} (hm : m ≠ n) : (claimSlot map r n).1.node m = r.node m := by
    rw [hnode, update_of_ne hm]
  have hmem (m : ν) : m ∈ (claimSlot map r n).1.nodeList ↔
      m ∈ r.nodeList ∧ (m = n → fullyUsed map ((claimSlot map r n).1.node n) = false) := by
    rw [hlist, hfull]
    split_ifs with hused
    · rw [h.nodup.mem_erase_iff]
      simp [hused, and_comm]
    · simp [hused]
  constructor
  · intro m
    by_cases hm : m = n
    · subst hm
      rw [hnode, update_self, h.node]
      simp [mul_add, add_assoc]
    · rw [hsame hm, h.node]
      simp [Ne.symm hm]
  · rw [hprocs, h.procs, h.start, zipIdx_append, append_assoc]
    rfl
  · rw [hstart, h.start, length_append, length_singleton, add_assoc]
  · rw [hlist]
    split_ifs
    · exact h.nodup.erase n
    · exact h.nodup
  · exact fun m hm => h.listed m ((hmem m).mp hm).1
  · intro m hm
    rcases mem_append.mp hm with hm | hm
    · exact h.claimed m hm
    · obtain rfl := mem_singleton.mp hm
      exact h.listed m hn
  · intro m hm hnew
    obtain ⟨hm, hroom⟩ := (hmem m).mp hm
    by_cases hmn : m = n
    · exact hmn ▸ hroom hmn
    · rw [hsame hmn]
      exact h.room m hm (by simpa [hmn] using hnew)
  · intro m hm₀ hm
    by_cases hmn : m = n
    · subst hmn
      by_contra hused
      exact hm ((hmem m).mpr ⟨hn, fun _ => by simpa using hused⟩)
    · rw [hsame hmn]
      exact h.gone m hm₀ fun hm' => hm ((hmem m).mpr ⟨hm', fun h => absurd h hmn⟩)

/-- A node takes whole ranks until it is full, or has room for all that are asked for. -/
def Fits (map : Map) (num : ℕ) (node : Slots) : Prop :=
  ∀ L, limit map node = some L → node.slotsInuse < L ∧ map.cpusPerRank ∣ L - node.slotsInuse ∨
    node.slotsInuse + map.cpusPerRank * num ≤ L

structure Claims (map : Map) (r₀ : Round ν) (num : ℕ) (new : List ν) (r : Round ν) : Prop extends
    Placing map r₀ new r where
  length : new.length ≤ num
  within : ∀ n ∈ new, Within map (r.node n)

variable {num : ℕ}

theorem Claims.claim (h : Claims map r₀ num new r)
    (hfits : ∀ n ∈ r₀.nodeList, Fits map num (r₀.node n)) (hlt : new.length < num) {n : ν}
    (hn : n ∈ r.nodeList) : Claims map r₀ num (new ++ [n]) (claimSlot map r n).1 := by
  refine ⟨h.toPlacing.claim hn, ?_, fun m hm => ?_⟩
  · rw [length_append, length_singleton]
    exact hlt
  have hnode := claimSlot_node map r n
  by_cases hmn : m = n
  · subst hmn
    rw [hnode, update_self, within_iff, limit_inuse]
    intro L hL
    have hinuse := h.node m
    have hL₀ : limit map (r₀.node m) = some L := by
      rw [hinuse, limit_inuse] at hL
      exact hL
    have hcount : new.count m ≤ new.length := count_le_length
    simp only [hinuse, add_assoc, ← Nat.mul_add_one]
    rcases hfits m (h.listed m hn) L hL₀ with ⟨hlt₀, hdvd⟩ | hall
    · -- below the limit, by a multiple of the slots of a rank
      have hbelow : (r.node m).slotsInuse < L := by
        by_cases hnew : m ∈ new
        · by_contra hge
          have hfull := fullyUsed_iff.mpr ⟨L, hL, not_lt.mp hge⟩
          exact absurd hfull (by rw [h.room m hn hnew]; exact Bool.false_ne_true)
        · rw [hinuse, count_eq_zero_of_not_mem hnew]
          simpa using hlt₀
      rw [hinuse] at hbelow
      obtain ⟨k, hk⟩ := hdvd
      have hkc : new.count m < k := by
        by_contra hge
        have hmul := Nat.mul_le_mul_left map.cpusPerRank (not_lt.mp hge)
        dsimp only at hbelow
        omega
      have hmul := Nat.mul_le_mul_left map.cpusPerRank (Nat.succ_le_of_lt hkc)
      rw [Nat.succ_eq_add_one] at hmul
      omega
    · have hmul : map.cpusPerRank * (new.count m + 1) ≤ map.cpusPerRank * num :=
        Nat.mul_le_mul_left _ (by omega)
      omega
  · rw [hnode, update_of_ne hmn]
    exact h.within m (by simpa [hmn] using hm)

structure Ends (map : Map) (r₀ : Round ν) (num : ℕ) (rc : Rc) (new : List ν) (r : Round ν) : Prop extends
    Claims map r₀ num new r where
  success : rc = .success → new.length = num
  error : rc = .errSilent → r.nodeList = [] ∧ new.length < num

theorem bite_spec (hfits : ∀ n ∈ r₀.nodeList, Fits map num (r₀.node n))
    (h : Claims map r₀ num new r) {n : ν} (hn : n ∈ r.nodeList) {i left : ℕ} (hi : 0 < i)
    (hleft : 0 < left) (hnum : new.length + left = num) :
    ∃ new', Claims map r₀ num new' (bite map n i left r).1 ∧
      new'.length + (bite map n i left r).2 = num ∧ (bite map n i left r).2 < left ∧
      ((bite map n i left r).1.nodeList = r.nodeList ∨
        (bite map n i left r).1.nodeList = r.nodeList.erase n) := by
  induction i generalizing new r left with
  | zero => cases hi
  | succ i ih =>
    have hclaim := h.claim hfits (by omega) hn
    obtain ⟨-, hlist⟩ := claimSlot_full map r n
    have hnum' : (new ++ [n]).length + (left - 1) = num := by
      rw [length_append, length_singleton]
      omega
    rw [bite]
    rcases hr : claimSlot map r n with ⟨r', full⟩
    rw [hr] at hclaim hlist
    dsimp only at hclaim hlist ⊢
    by_cases hstop : left - 1 = 0 ∨ full = true
    · rw [if_pos hstop]
      refine ⟨new ++ [n], hclaim, hnum', by dsimp only; omega, ?_⟩
      split_ifs at hlist
      · exact .inr hlist
      · exact .inl hlist
    · rw [if_neg hstop]
      obtain ⟨hleft', hfull⟩ := not_or.mp hstop
      rw [if_neg hfull] at hlist
      rcases Nat.eq_zero_or_pos i with rfl | hi
      · exact ⟨new ++ [n], hclaim, hnum', by simp only [bite]; omega, .inl hlist⟩
      · obtain ⟨new', hnew', hsum, hlt, hlist'⟩ := ih hclaim (hlist ▸ hn) hi (by omega) hnum'
        rw [hlist] at hlist'
        exact ⟨new', hnew', hsum, by omega, hlist'⟩

theorem numProcsToAssign_pos (slotsAlloc : ℕ) (node : Slots) : 0 < numProcsToAssign map slotsAlloc node := by
  unfold numProcsToAssign
  split_ifs with hnode _ _ hzero hzero
  exacts [hnode, one_pos, one_pos, Nat.pos_of_ne_zero hzero, one_pos, Nat.pos_of_ne_zero hzero]

theorem mapByslot_spec (hfits : ∀ n ∈ r₀.nodeList, Fits map num (r₀.node n)) (slotsAlloc : ν → ℕ)
    (h : Claims map r₀ num new r) {cur : ν} (hcur : r.nodeList = [] ∨ cur ∈ r.nodeList)
    {fuel left : ℕ} (hfuel : left ≤ fuel) (hnum : new.length + left = num) :
    ∃ rc r' cur' new', mapByslot map slotsAlloc fuel left r cur = some (rc, r', cur') ∧
      Ends map r₀ num rc new' r' := by
  induction fuel generalizing new r left cur with
  | zero =>
    obtain rfl : left = 0 := by omega
    exact ⟨.success, r, cur, new, rfl, h, fun _ => hnum, nofun⟩
  | succ fuel ih =>
    rw [mapByslot]
    by_cases hleft : left = 0
    · rw [if_pos hleft]
      exact ⟨.success, r, cur, new, rfl, h, fun _ => by omega, nofun⟩
    · rw [if_neg hleft]
      by_cases hnil : r.nodeList = []
      · rw [if_pos hnil]
        exact ⟨.errSilent, r, cur, new, rfl, h, nofun, fun _ => ⟨hnil, by omega⟩⟩
      · rw [if_neg hnil]
        have hcur := hcur.resolve_left hnil
        obtain ⟨new', hnew', hsum, hlt, hlist⟩ := bite_spec hfits h hcur
          (numProcsToAssign_pos (slotsAlloc cur) (r.node cur)) (by omega) hnum
        dsimp only
        by_cases hdone : (bite map cur (numProcsToAssign map (slotsAlloc cur) (r.node cur)) left r).2 = 0
        · rw [if_pos hdone]
          exact ⟨.success, _, cur, new', rfl, hnew', fun _ => by omega, nofun⟩
        · rw [if_neg hdone]
          refine ih hnew' ?_ (by omega) hsum
          obtain ⟨rest, haround⟩ := exists_around hcur
          obtain ⟨⟨rest₁, hstay, -⟩, hleave⟩ := haround.next h.nodup
          rcases hlist with hlist | hlist <;> rw [hlist]
          · exact .inr ((hstay.mem _).mpr (.inl rfl))
          · rcases hleave with ⟨-, hempty⟩ | ⟨rest₂, hleave, -⟩
            · exact .inl hempty
            · exact .inr ((hleave.mem _).mpr (.inl rfl))

/-- Along the list from the next node on, the nodes of the round before come last. -/
def Level (new rot : List ν) : Prop :=
  ∃ k A B, rot = A ++ B ∧ (∀ n ∈ A, new.count n = k) ∧ ∀ n ∈ B, new.count n = k + 1

theorem Level.step {cur : ν} {rest : List ν} (h : Level new (cur :: rest)) (hcur : cur ∉ rest) :
    Level (new ++ [cur]) (rest ++ [cur]) ∧ Level (new ++ [cur]) rest := by
  obtain ⟨k, A, B, hrot, hA, hB⟩ := h
  have hother {n : ν} (hn : n ∈ rest) : (new ++ [cur]).count n = new.count n := by
    have hne : cur ≠ n := fun heq => hcur (heq ▸ hn)
    simp [hne]
  have hself : (new ++ [cur]).count cur = new.count cur + 1 := by simp
  rcases A with _ | ⟨a, A⟩
  · -- a round has ended
    obtain rfl : cur :: rest = B := hrot
    have hrest : ∀ n ∈ rest, (new ++ [cur]).count n = k + 1 := by
      intro n hn
      rw [hother hn]
      exact hB n (mem_cons_of_mem _ hn)
    have hcurk : (new ++ [cur]).count cur = k + 2 := by rw [hself, hB cur mem_cons_self]
    exact ⟨⟨k + 1, rest, [cur], rfl, hrest, by simpa using hcurk⟩, ⟨k + 1, rest, [], by simp, hrest, by simp⟩⟩
  · obtain ⟨rfl, rfl⟩ := List.cons.inj hrot
    have hAk : ∀ n ∈ A, (new ++ [cur]).count n = k := by
      intro n hn
      rw [hother (mem_append_left _ hn)]
      exact hA n (mem_cons_of_mem _ hn)
    have hBk : ∀ n ∈ B, (new ++ [cur]).count n = k + 1 := by
      intro n hn
      rw [hother (mem_append_right _ hn)]
      exact hB n hn
    have hcurk : (new ++ [cur]).count cur = k + 1 := by rw [hself, hA cur mem_cons_self]
    refine ⟨⟨k, A, B ++ [cur], by simp, hAk, fun n hn => ?_⟩, ⟨k, A, B, rfl, hAk, hBk⟩⟩
    rcases mem_append.mp hn with hn | hn
    · exact hBk n hn
    · exact mem_singleton.mp hn ▸ hcurk

theorem Level.le {rot : List ν} (h : Level new rot) {n m : ν} (hn : n ∈ rot) (hm : m ∈ rot) :
    new.count n ≤ new.count m + 1 := by
  obtain ⟨k, A, B, rfl, hA, hB⟩ := h
  have hk {n : ν} (hn : n ∈ A ++ B) : k ≤ new.count n ∧ new.count n ≤ k + 1 := by
    rcases mem_append.mp hn with hn | hn
    · rw [hA n hn]
      omega
    · rw [hB n hn]
      omega
  have h₁ := hk hn
  have h₂ := hk hm
  omega

theorem mapBynode_spec (hfits : ∀ n ∈ r₀.nodeList, Fits map num (r₀.node n)) (h : Claims map r₀ num new r) {cur : ν}
    (hcur : r.nodeList = [] ∨ ∃ rest, Around r.nodeList cur rest ∧ Level new (cur :: rest)) {left : ℕ}
    (hnum : new.length + left = num) :
    ∃ new', Ends map r₀ num (mapBynode map left r cur).1 new' (mapBynode map left r cur).2 ∧
      ∀ n ∈ (mapBynode map left r cur).2.nodeList, ∀ m ∈ (mapBynode map left r cur).2.nodeList,
        new'.count n ≤ new'.count m + 1 := by
  induction left generalizing new r cur with
  | zero =>
    refine ⟨new, ⟨h, fun _ => hnum, nofun⟩, fun n hn m hm => ?_⟩
    rcases hcur with hnil | ⟨rest, haround, hlevel⟩
    · simp [mapBynode, hnil] at hn
    · exact hlevel.le (by simpa using (haround.mem n).mp hn) (by simpa using (haround.mem m).mp hm)
  | succ left ih =>
    rw [mapBynode]
    by_cases hnil : r.nodeList = []
    · rw [if_pos hnil]
      exact ⟨new, ⟨h, nofun, fun _ => ⟨hnil, by omega⟩⟩, by simp [hnil]⟩
    · rw [if_neg hnil]
      obtain ⟨rest, haround, hlevel⟩ := hcur.resolve_left hnil
      have hmem := (haround.mem cur).mpr (.inl rfl)
      have hnot : cur ∉ rest := by
        obtain ⟨pre, post, heq, rfl⟩ := haround
        have hnodup := heq ▸ h.nodup
        have hperm : (cur :: (post ++ pre)).Nodup :=
          (perm_middle.trans (List.perm_append_comm.cons cur)).nodup_iff.mp hnodup
        exact (nodup_cons.mp hperm).1
      obtain ⟨hround, hless⟩ := hlevel.step hnot
      obtain ⟨⟨rest₁, hstay, heq₁⟩, hleave⟩ := haround.next h.nodup
      obtain ⟨-, hlist⟩ := claimSlot_full map r cur
      refine ih (h.claim hfits (by omega) hmem) ?_ (by rw [length_append, length_singleton]; omega)
      rw [hlist]
      split_ifs
      · rcases hleave with ⟨-, hempty⟩ | ⟨rest₂, hleave, heq₂⟩
        · exact .inl hempty
        · exact .inr ⟨rest₂, hleave, heq₂ ▸ hless⟩
      · exact .inr ⟨rest₁, hstay, heq₁ ▸ hround⟩

theorem Ends.full {rc : Rc} (h : Ends map r₀ num rc new r) (hcpus : 1 ≤ map.cpusPerRank)
    (hnodup : r₀.nodeList.Nodup) (hrc : rc = .errSilent) (f : ν → ℕ) (hf : (r₀.nodeList.map f).sum = num)
    (hwithin : ∀ n ∈ r₀.nodeList, f n ≠ 0 → Within map
      { r₀.node n with slotsInuse := (r₀.node n).slotsInuse + map.cpusPerRank * f n }) : False := by
  obtain ⟨hnil, hlt⟩ := h.error hrc
  have hle : ∀ n ∈ r₀.nodeList, f n ≤ new.count n := by
    intro n hn
    obtain ⟨L, hL, hge⟩ := fullyUsed_iff.mp (h.gone n hn (by simp [hnil]))
    have hnode := h.node n
    rw [hnode, limit_inuse] at hL
    rw [hnode] at hge
    by_cases hzero : f n = 0
    · omega
    · have hfn := within_iff.mp (hwithin n hn hzero) L hL
      dsimp only at hge hfn
      have hmul : map.cpusPerRank * f n ≤ map.cpusPerRank * new.count n := by omega
      exact Nat.le_of_mul_le_mul_left hmul hcpus
  have hsum : (r₀.nodeList.map fun n => new.count n).sum = new.length := by
    have hcount := Multiset.sum_count_eq_card (s := r₀.nodeList.toFinset) (m := (new : Multiset ν))
      (fun n hn => mem_toFinset.mpr (h.claimed n (Multiset.mem_coe.mp hn)))
    rw [sum_toFinset _ hnodup] at hcount
    simpa using hcount
  have hsums := sum_le_sum hle
  omega

end Claims

section Start

variable {s : Job ν} {app : App ν}

omit [DecidableEq ν] in
theorem lightest_mem (ndmin : ν) (l : List ν) : lightest s app ndmin l ∈ ndmin :: l := by
  induction l generalizing ndmin with
  | nil => exact mem_cons_self
  | cons nd1 l ih =>
    rw [lightest]
    split_ifs
    · simp
    · exact mem_cons_of_mem _ (ih nd1)
    · rcases mem_cons.mp (ih ndmin) with heq | hmem
      · rw [heq]
        exact mem_cons_self
      · exact mem_cons_of_mem _ (mem_cons_of_mem _ hmem)

theorem bookmarked_mem {l : List ν} {first : ν} (h : first ∈ l) : bookmarked s l first ∈ l := by
  unfold bookmarked
  split
  · split_ifs with hmem
    · exact hmem
    · exact h
  · exact h

theorem getStartingPoint_mem {l : List ν} (hl : l ≠ []) :
    ∃ cur ∈ l, getStartingPoint s app l = some cur := by
  obtain ⟨first, l, rfl⟩ := exists_cons_of_ne_nil hl
  refine ⟨_, ?_, rfl⟩
  have hcur : bookmarked s (first :: l) first ∈ first :: l := bookmarked_mem mem_cons_self
  dsimp only
  generalize bookmarked s (first :: l) first = cur at hcur ⊢
  split_ifs
  · rcases mem_cons.mp (lightest_mem cur _) with heq | hmem
    · rwa [heq]
    · rcases mem_append.mp hmem with hmem | hmem
      · exact mem_of_mem_drop hmem
      · exact mem_of_mem_take hmem
  · exact hcur

omit [DecidableEq ν] in
theorem getTargetNodes_ne_nil (h : numSlots s app ≠ 0) : getTargetNodes s app ≠ [] := by
  intro hnil
  simp [numSlots, hnil] at h

end Start

structure Respects (map : Map) (s : Job ν) (app : App ν) (rc : Rc) (t : Job ν) : Prop where
  /-- The new ranks continue the old ones, and all are placed on success. -/
  placed : ∃ new : List ν, t.procs = s.procs ++ new.zipIdx s.numProcs ∧
    (rc = .success → new.length = numWanted s app ∧ t.numProcs = s.numProcs + numWanted s app) ∧
    (∀ n ∈ new, n ∈ getTargetNodes s app) ∧
    (∀ n, t.node n = { s.node n with
      slotsInuse := (s.node n).slotsInuse + map.cpusPerRank * new.count n }) ∧
    (map.bynode → ∀ n ∈ getTargetNodes s app, ∀ m ∈ getTargetNodes s app,
      fullyUsed map (t.node n) = false → fullyUsed map (t.node m) = false →
        new.count n ≤ new.count m + 1)
  within : ∀ n, (s.node n).slotsInuse < (t.node n).slotsInuse → Within map (t.node n)
  fails : rc = .errSilent → ¬ ∃ f : ν → ℕ, ((getTargetNodes s app).map f).sum = numWanted s app ∧
    ∀ n ∈ getTargetNodes s app, f n ≠ 0 →
      Within map { s.node n with slotsInuse := (s.node n).slotsInuse + map.cpusPerRank * f n }

def Careful (map : Map) (s : Job ν) (app : App ν) : Prop :=
  ∀ n ∈ getTargetNodes s app, Fits map (numWanted s app) (s.node n)

theorem mapNodes_spec {map : Map} {s : Job ν} {app : App ν}
    (hcare : Careful map s app) {cur : ν} (hcur : cur ∈ getTargetNodes s app) : ∃ rc r bookmark new,
      mapNodes map s app cur = some (rc, r, bookmark) ∧
        Ends map ⟨s.node, getTargetNodes s app, s.procs, s.numProcs⟩ (numWanted s app) rc new r ∧
        (map.bynode → ∀ n ∈ r.nodeList, ∀ m ∈ r.nodeList, new.count n ≤ new.count m + 1) := by
  let r₀ : Round ν := ⟨s.node, getTargetNodes s app, s.procs, s.numProcs⟩
  have hfits : ∀ n ∈ r₀.nodeList, Fits map (numWanted s app) (r₀.node n) := hcare
  have hstart : Claims map r₀ (numWanted s app) [] r₀ :=
    ⟨.refl (app.nodup.filter _), Nat.zero_le _, by simp⟩
  unfold mapNodes
  by_cases hbynode : map.bynode
  · simp only [hbynode, if_true]
    obtain ⟨rest, haround⟩ := exists_around hcur
    obtain ⟨new, hends, heven⟩ := mapBynode_spec hfits hstart
      (.inr ⟨rest, haround, 0, cur :: rest, [], by simp, by simp, by simp⟩) (zero_add _)
    exact ⟨_, _, _, new, rfl, hends, fun _ => heven⟩
  · simp only [hbynode]
    obtain ⟨rc, r, cur', new, hsome, hends⟩ :=
      mapByslot_spec hfits app.slotsAlloc hstart (.inr hcur) le_rfl (zero_add _)
    exact ⟨rc, r, some cur', new, by rw [hsome]; rfl, hends, fun h => by cases h⟩

theorem mapApp_respects {map : Map} (hcpus : 1 ≤ map.cpusPerRank) {numApps : ℕ} {s : Job ν} {app : App ν}
    (hcare : Careful map s app) (happs : app.numProcs = 0 → numApps ≤ 1) (hslots : numSlots s app ≠ 0) :
    ∃ rc t, mapApp map numApps s app = some (rc, t) ∧ Respects map s app rc t := by
  obtain ⟨cur, hcur, hsome⟩ := getStartingPoint_mem (getTargetNodes_ne_nil hslots)
  obtain ⟨rc, r, bookmark, new, hmap, hends, heven⟩ := mapNodes_spec hcare hcur
  have hrespects (t : Job ν) (hnode : t.node = r.node) (hprocs : t.procs = r.procs)
      (hnum : rc = .success → t.numProcs = s.numProcs + numWanted s app) : Respects map s app rc t := by
    refine ⟨⟨new, hprocs.trans hends.procs, fun hrc => ⟨hends.success hrc, hnum hrc⟩, hends.claimed, ?_, ?_⟩,
      ?_, ?_⟩
    · intro n
      rw [hnode]
      exact hends.node n
    · intro hbynode n hn m hm hfn hfm
      rw [hnode] at hfn hfm
      have hlisted {n : ν} (hn : n ∈ getTargetNodes s app) (hfull : fullyUsed map (r.node n) = false) :
          n ∈ r.nodeList := by
        by_contra hnot
        rw [hends.gone n hn hnot] at hfull
        cases hfull
      exact heven hbynode n (hlisted hn hfn) m (hlisted hm hfm)
    · intro n hlt
      rw [hnode] at hlt ⊢
      refine hends.within n ?_
      by_contra hnot
      rw [hends.node n, count_eq_zero_of_not_mem hnot] at hlt
      simp at hlt
    · rintro hrc ⟨f, hf, hwithin⟩
      exact hends.full hcpus (app.nodup.filter _) hrc f hf hwithin
  rw [mapApp, if_neg (by omega), if_neg hslots, hsome, Option.bind_some, hmap, Option.map_some]
  rcases rc with _ | _
  · exact ⟨_, _, rfl, hrespects _ rfl rfl fun _ => rfl⟩
  · exact ⟨_, _, rfl, hrespects _ rfl rfl nofun⟩

theorem mapApp_success {map : Map} {numApps : ℕ} {s t : Job ν} {app : App ν}
    (h : mapApp map numApps s app = some (.success, t)) :
    (app.numProcs = 0 → numApps ≤ 1) ∧ numSlots s app ≠ 0 := by
  unfold mapApp at h
  split_ifs at h with happs hslots
  · simp at h
  · simp at h
  · exact ⟨by omega, hslots⟩

def twoSlots (inuse : ℕ) : Job Unit := ⟨fun _ => ⟨2, 2, inuse⟩, [], 0, none⟩

def oneProc : App Unit := ⟨1, [()], fun _ => 2, List.nodup_singleton ()⟩

def bySlot : Map := ⟨false, 1, 0, true⟩

end OpenMPI.Rmaps.RoundRobin
