import Mathlib.Algebra.BigOperators.Ring.List
import Mathlib.Tactic.FieldSimp
import Mathlib.Tactic.Positivity
import OpenMPI.Bml.R2

/-!
# The endpoints of the BML

When a process is added, the BTLs are taken in the order of their exclusivity, so those of the greatest are used
(`Taken.step`), and all copies are made from them (`metrics_right`).  Taking a BTL out keeps them right only where
the other ones make up for it (`delProcBtl_right`).
-/

namespace OpenMPI.Bml

open Btl Lib List

variable {B P E F : Type*} [DecidableEq B] [DecidableEq P] [DecidableEq F] {z : Host B P F}

section Weights

variable {items : List (BmlBtl B E)}

def Host.Uniform (z : Host B P F) (items : List (BmlBtl B E)) : Prop :=
  (∀ item ∈ items, 0 < (z.btl item.btl).bandwidth) ∨ ∀ item ∈ items, (z.btl item.btl).bandwidth = 0

omit [DecidableEq B] [DecidableEq P] [DecidableEq F]

theorem map_btl_reweigh : (z.reweigh items).map BmlBtl.btl = items.map BmlBtl.btl := by
  rw [Host.reweigh, map_map]
  rfl

theorem reweigh_eq_nil : z.reweigh items = [] ↔ items = [] := by simp [Host.reweigh]

theorem totalBandwidth_pos {item : BmlBtl B E} (hitem : item ∈ items) (h : 0 < (z.btl item.btl).bandwidth) :
    0 < z.totalBandwidth items := by
  have hle : ((z.btl item.btl).bandwidth : ℚ) ≤ z.totalBandwidth items :=
    single_le_sum (by simp) _ (mem_map_of_mem hitem)
  have hpos : (0 : ℚ) < (z.btl item.btl).bandwidth := Nat.cast_pos.mpr h
  exact hpos.trans_le hle

theorem of_mem_reweigh {item : BmlBtl B E} (h : item ∈ z.reweigh items) : 0 < item.weight ∧
    ∃ item' ∈ items, item'.btl = item.btl ∧ item'.endpoint = item.endpoint ∧ item'.flags = item.flags := by
  obtain ⟨item', hitem', rfl⟩ := mem_map.mp h
  refine ⟨?_, item', hitem', rfl, rfl, rfl⟩
  dsimp only
  split_ifs with hpos
  · have := totalBandwidth_pos hitem' hpos
    have hcast : (0 : ℚ) < (z.btl item'.btl).bandwidth := Nat.cast_pos.mpr hpos
    positivity
  · have hlength : (0 : ℚ) < items.length := Nat.cast_pos.mpr (length_pos_of_mem hitem')
    positivity

theorem exists_mem_reweigh {item : BmlBtl B E} (h : item ∈ items) : ∃ item' ∈ z.reweigh items,
    item'.btl = item.btl ∧ item'.endpoint = item.endpoint ∧ item'.flags = item.flags :=
  ⟨_, mem_map_of_mem h, rfl, rfl, rfl⟩

theorem sum_reweigh (h : z.Uniform items) (hne : items ≠ []) : ((z.reweigh items).map BmlBtl.weight).sum = 1 := by
  rw [Host.reweigh, map_map]
  rcases h with hpos | hzero
  · obtain ⟨item, hitem⟩ := exists_mem_of_ne_nil _ hne
    have htotal := totalBandwidth_pos hitem (hpos item hitem)
    have hweights : items.map (BmlBtl.weight ∘ fun item : BmlBtl B E => { item with
        weight := if (z.btl item.btl).bandwidth > 0 then (z.btl item.btl).bandwidth / z.totalBandwidth items
          else 1 / items.length }) =
        items.map fun item => ((z.btl item.btl).bandwidth : ℚ) * (z.totalBandwidth items)⁻¹ :=
      map_congr_left fun item hitem => by
        simp [hpos item hitem, div_eq_mul_inv]
    rw [hweights, sum_map_mul_right]
    exact mul_inv_cancel₀ htotal.ne'
  · have hlength : (items.length : ℚ) ≠ 0 := Nat.cast_ne_zero.mpr (length_pos_iff.mpr hne).ne'
    have hweights : items.map (BmlBtl.weight ∘ fun item : BmlBtl B E => { item with
        weight := if (z.btl item.btl).bandwidth > 0 then (z.btl item.btl).bandwidth / z.totalBandwidth items
          else 1 / items.length }) = items.map fun _ => (1 / items.length : ℚ) :=
      map_congr_left fun item hitem => by simp [hzero item hitem]
    rw [hweights, map_const', sum_replicate, nsmul_eq_mul]
    exact mul_one_div_cancel hlength

end Weights

section Least

omit [DecidableEq B] [DecidableEq P] [DecidableEq F]

variable {α : Type*} {f : α → ℕ} {l : List α}

theorem foldl_min (f : α → ℕ) (l : List α) (n : ℕ) : l.foldl (fun least a => min (f a) least) n ≤ n ∧
    (∀ a ∈ l, l.foldl (fun least a => min (f a) least) n ≤ f a) ∧
    (l.foldl (fun least a => min (f a) least) n = n ∨ ∃ a ∈ l, f a = l.foldl (fun least a => min (f a) least) n) := by
  induction l generalizing n with
  | nil => simp
  | cons a l ih =>
    obtain ⟨hle, hall, hsome⟩ := ih (min (f a) n)
    rw [foldl_cons]
    refine ⟨by omega, ?_, ?_⟩
    · simp only [mem_cons, forall_eq_or_imp]
      exact ⟨by omega, hall⟩
    · rcases hsome with heq | ⟨b, hb, heq⟩
      · rcases le_total (f a) n with han | han
        · exact .inr ⟨a, mem_cons_self, by omega⟩
        · exact .inl (by omega)
      · exact .inr ⟨b, mem_cons_of_mem _ hb, heq⟩

theorem foldl_min_attained (hne : l ≠ []) {n : ℕ} (hlt : ∀ a ∈ l, f a ≤ n) :
    (∀ a ∈ l, l.foldl (fun least a => min (f a) least) n ≤ f a) ∧
      ∃ a ∈ l, f a = l.foldl (fun least a => min (f a) least) n := by
  obtain ⟨hle, hall, hsome⟩ := foldl_min f l n
  refine ⟨hall, ?_⟩
  rcases hsome with heq | hsome
  · obtain ⟨a, ha⟩ := exists_mem_of_ne_nil _ hne
    have := hall a ha
    have := hlt a ha
    exact ⟨a, ha, by omega⟩
  · exact hsome

end Least

section Remove

variable {items send : List (BmlBtl B E)} {which which' : B → Prop} {btl b : B}

def others (items : List (BmlBtl B E)) (btl : B) : List (BmlBtl B E) := items.eraseP (·.btl = btl)

omit [DecidableEq P] [DecidableEq F]

theorem map_btl_others : (others items btl).map BmlBtl.btl = (items.map BmlBtl.btl).erase btl := by
  rw [erase_eq_eraseP, eraseP_map, others]
  congr 2
  funext item
  simp [Bool.beq_eq_decide_eq, eq_comm]

theorem mem_others (hnodup : (items.map BmlBtl.btl).Nodup) :
    b ∈ (others items btl).map BmlBtl.btl ↔ b ∈ items.map BmlBtl.btl ∧ b ≠ btl := by
  rw [map_btl_others, hnodup.mem_erase_iff, and_comm]

theorem nodup_others (hnodup : (items.map BmlBtl.btl).Nodup) : ((others items btl).map BmlBtl.btl).Nodup := by
  rw [map_btl_others]
  exact hnodup.erase btl

theorem of_mem_others {item : BmlBtl B E} (h : item ∈ others items btl) : item ∈ items := mem_of_mem_eraseP h

theorem mem_others_of_ne {item : BmlBtl B E} (h : item ∈ items) (hne : item.btl ≠ btl) : item ∈ others items btl :=
  (mem_eraseP_of_neg (by simpa using hne)).mpr h

theorem others_of_not_mem (h : btl ∉ items.map BmlBtl.btl) : others items btl = items :=
  eraseP_of_forall_not fun item hitem heq =>
    h (mem_map.mpr ⟨item, hitem, by simpa using heq⟩)

theorem BtlArray.items_remove (array : BtlArray B E) : (array.remove btl).1.items = others array.items btl := by
  rw [BtlArray.remove]
  split_ifs with h
  · rfl
  · refine (others_of_not_mem fun hmem => h ?_).symm
    obtain ⟨item, hitem, heq⟩ := mem_map.mp hmem
    exact any_eq_true.mpr ⟨item, hitem, by simpa using heq⟩

theorem BtlArray.remove_of_not_mem {array : BtlArray B E} (h : btl ∉ array.items.map BmlBtl.btl) :
    array.remove btl = (array, false) := by
  rw [BtlArray.remove, if_neg]
  intro hany
  obtain ⟨item, hitem, heq⟩ := any_eq_true.mp hany
  exact h (mem_map.mpr ⟨item, hitem, by simpa using heq⟩)

theorem BtlArray.remove_of_mem {array : BtlArray B E} (h : btl ∈ array.items.map BmlBtl.btl) :
    (array.remove btl).2 = true := by
  obtain ⟨item, hitem, heq⟩ := mem_map.mp h
  rw [BtlArray.remove, if_pos (any_eq_true.mpr ⟨item, hitem, by simpa using heq⟩)]

omit [DecidableEq B] in
theorem Copies.congr (h : Copies send items which) (hwhich : ∀ b ∈ send.map BmlBtl.btl, which b ↔ which' b) :
    Copies send items which' where
  nodup := h.nodup
  mem_iff b := by
    rw [h.mem_iff]
    exact and_congr_right fun hb => hwhich b hb
  valid := h.valid

omit [DecidableEq B] in
theorem Copies.reweigh (h : Copies send items which) : Copies send (z.reweigh items) which where
  nodup := by
    rw [map_btl_reweigh]
    exact h.nodup
  mem_iff b := by
    rw [map_btl_reweigh]
    exact h.mem_iff b
  valid item hitem := by
    obtain ⟨hpos, item', hitem', hbtl, hendpoint, hflags⟩ := of_mem_reweigh hitem
    obtain ⟨-, item'', hitem'', hbtl', hendpoint', hflags'⟩ := h.valid item' hitem'
    exact ⟨hpos, item'', hitem'', hbtl'.trans hbtl, hendpoint'.trans hendpoint, hflags'.trans hflags⟩

theorem Copies.others (h : Copies send items which) (hnodup : (send.map BmlBtl.btl).Nodup) :
    Copies (z.reweigh (others send btl)) (others items btl) which where
  nodup := nodup_others h.nodup
  mem_iff b := by
    rw [mem_others h.nodup, h.mem_iff, map_btl_reweigh, mem_others hnodup, and_right_comm]
  valid item hitem := by
    obtain ⟨hpos, item', hitem', hbtl, hendpoint, hflags⟩ := h.valid item (of_mem_others hitem)
    have hne : item'.btl ≠ btl := by
      rw [hbtl]
      exact ((mem_others h.nodup).mp (mem_map_of_mem hitem)).2
    obtain ⟨item'', hitem'', hbtl', hendpoint', hflags'⟩ := exists_mem_reweigh (z := z) (mem_others_of_ne hitem' hne)
    exact ⟨hpos, item'', hitem'', hbtl'.trans hbtl, hendpoint'.trans hendpoint, hflags'.trans hflags⟩

omit [DecidableEq B] in
theorem Host.Uniform.of_subset {items' : List (BmlBtl B E)} (h : z.Uniform items)
    (hsub : ∀ item ∈ items', ∃ item' ∈ items, item'.btl = item.btl) : z.Uniform items' := by
  rcases h with h | h
  · refine .inl fun item hitem => ?_
    obtain ⟨item', hitem', heq⟩ := hsub item hitem
    exact heq ▸ h item' hitem'
  · refine .inr fun item hitem => ?_
    obtain ⟨item', hitem', heq⟩ := hsub item hitem
    exact heq ▸ h item' hitem'

end Remove

section DelProcBtl

variable {ep : Endpoint B E} {live live' : List B} {reached : B → Option E} {p : P} {btl : B}

omit [DecidableEq P] [DecidableEq F]

omit [DecidableEq B] in
theorem Copies.not_mem {send items : List (BmlBtl B E)} {which : B → Prop} (h : Copies send items which)
    (hbtl : btl ∉ send.map BmlBtl.btl) : btl ∉ items.map BmlBtl.btl :=
  fun hmem => hbtl ((h.mem_iff btl).mp hmem).1

theorem delProcBtl_of_not_mem (h : ep.Right z live reached p) (hbtl : btl ∉ ep.send.items.map BmlBtl.btl) :
    z.delProcBtl btl ep = ep := by
  rw [Host.delProcBtl]
  dsimp only
  rw [BtlArray.remove_of_not_mem (h.eager.not_mem hbtl), BtlArray.remove_of_not_mem hbtl]
  simp only [Bool.false_eq_true, if_false]
  rw [BtlArray.remove_of_not_mem (h.rdma.not_mem hbtl)]
  simp

theorem delProcBtl_of_mem (hbtl : btl ∈ ep.send.items.map BmlBtl.btl) :
    (z.delProcBtl btl ep).send.items = z.reweigh (others ep.send.items btl) ∧
    (z.delProcBtl btl ep).eager.items = others ep.eager.items btl ∧
    (z.delProcBtl btl ep).maxSendSize = (others ep.send.items btl).foldl
      (fun size item => min (z.btl item.btl).maxSendSize size) ep.maxSendSize ∧
    ((z.delProcBtl btl ep).rdma.items = z.reweigh (others ep.rdma.items btl) ∨
      (z.delProcBtl btl ep).rdma.items = others ep.rdma.items btl) := by
  rw [Host.delProcBtl]
  dsimp only
  rw [if_pos (BtlArray.remove_of_mem hbtl), BtlArray.items_remove]
  dsimp only
  by_cases hrdma : btl ∈ ep.rdma.items.map BmlBtl.btl
  · rw [if_pos (BtlArray.remove_of_mem hrdma), BtlArray.items_remove]
    exact ⟨rfl, BtlArray.items_remove _, rfl, .inl rfl⟩
  · rw [BtlArray.remove_of_not_mem hrdma, others_of_not_mem hrdma]
    exact ⟨rfl, BtlArray.items_remove _, rfl, .inr rfl⟩

theorem delProcBtl_right (h : ep.Right z live reached p) (huniform : z.Uniform ep.send.items)
    (hlive : ∀ b, b ∈ live' ↔ b ∈ live ∧ b ≠ btl)
    (hspares : btl ∈ ep.send.items.map BmlBtl.btl → ep.Spares z btl) :
    (z.delProcBtl btl ep).Right z live' reached p ∧ z.Uniform (z.delProcBtl btl ep).send.items := by
  by_cases hbtl : btl ∈ ep.send.items.map BmlBtl.btl
  · obtain ⟨hsend, heager, hmax, hrdma⟩ := delProcBtl_of_mem (z := z) hbtl
    have hother : z.Uniform (others ep.send.items btl) :=
      huniform.of_subset fun item hitem => ⟨item, of_mem_others hitem, rfl⟩
    have huniform' : z.Uniform (z.reweigh (others ep.send.items btl)) := hother.of_subset fun item hitem => by
      obtain ⟨-, item', hitem', heq, -⟩ := of_mem_reweigh hitem
      exact ⟨item', hitem', heq⟩
    have hspares := hspares hbtl
    refine ⟨⟨?_, ?_, ?_, ?_, ?_, ?_, ?_, ?_⟩, hsend ▸ huniform'⟩
    · rw [hsend, map_btl_reweigh]
      exact nodup_others h.nodup
    · intro b
      rw [hsend, map_btl_reweigh, mem_others h.nodup, h.mem_send, hlive, and_right_comm]
    · intro item hitem
      rw [hsend] at hitem
      obtain ⟨-, item', hitem', hbtl', hendpoint, -⟩ := of_mem_reweigh hitem
      rw [← hbtl', ← hendpoint]
      exact h.endpoint item' (of_mem_others hitem')
    · rw [hsend, heager]
      refine (h.eager.others h.nodup).congr fun b hb => ?_
      rw [map_btl_reweigh, mem_others h.nodup] at hb
      simp only [map_btl_reweigh, mem_others h.nodup]
      refine ⟨fun hleast b' hb' => hleast b' hb'.1, fun hleast b' hb' => ?_⟩
      by_cases heq : b' = btl
      · rcases hspares with hall | ⟨⟨b'', hb'', hne, hle⟩, -⟩
        · exact absurd (hall b hb.1) hb.2
        · rw [heq]
          exact (hleast b'' ⟨hb'', hne⟩).trans hle
      · exact hleast b' ⟨hb', heq⟩
    · have hcopies : Copies _ (others ep.rdma.items btl) _ := h.rdma.others (z := z) h.nodup
      rw [hsend]
      rcases hrdma with hrdma | hrdma <;> rw [hrdma]
      · exact hcopies.reweigh
      · exact hcopies
    · intro item hitem
      rw [hsend] at hitem
      exact (of_mem_reweigh hitem).1
    · intro hne
      rw [hsend] at hne ⊢
      exact sum_reweigh hother (mt reweigh_eq_nil.mpr hne)
    · intro hne
      rw [hsend, Ne, reweigh_eq_nil] at hne
      obtain ⟨hle, hall, hsome⟩ := foldl_min (fun item : BmlBtl B E => (z.btl item.btl).maxSendSize)
        (others ep.send.items btl) ep.maxSendSize
      obtain ⟨hleast, item, hitem, heq⟩ := h.maxSendSize (ne_nil_of_mem (mem_map.mp hbtl).choose_spec.1)
      rw [hsend, hmax]
      have hattained : ∃ item' ∈ others ep.send.items btl, (z.btl item'.btl).maxSendSize =
          (others ep.send.items btl).foldl (fun size item => min (z.btl item.btl).maxSendSize size) ep.maxSendSize := by
        rcases hsome with hsome | hsome
        · rw [hsome]
          by_cases hitembtl : item.btl = btl
          · rcases hspares with honly | ⟨-, b, hb, hb', hble⟩
            · obtain ⟨item', hitem'⟩ := exists_mem_of_ne_nil _ hne
              have hmem := (mem_others h.nodup).mp (mem_map_of_mem hitem')
              exact absurd (honly _ hmem.1) hmem.2
            · obtain ⟨item', hitem', rfl⟩ := mem_map.mp hb
              rw [hitembtl] at heq
              have := hleast item' hitem'
              exact ⟨item', mem_others_of_ne hitem' hb', by omega⟩
          · exact ⟨item, mem_others_of_ne hitem hitembtl, heq⟩
        · exact hsome
      refine ⟨fun item hitem => ?_, ?_⟩
      · obtain ⟨-, item', hitem', hbtl', -⟩ := of_mem_reweigh hitem
        rw [← hbtl']
        exact hall item' hitem'
      · obtain ⟨item', hitem', heq'⟩ := hattained
        obtain ⟨item'', hitem'', hbtl'', -⟩ := exists_mem_reweigh (z := z) hitem'
        exact ⟨item'', hitem'', by rw [hbtl'', heq']⟩
  · rw [delProcBtl_of_not_mem h hbtl]
    refine ⟨⟨h.nodup, fun b => ?_, h.endpoint, h.eager, h.rdma, h.weight_pos, h.weight_sum, h.maxSendSize⟩, huniform⟩
    rw [hlive, and_right_comm, ← h.mem_send]
    refine ⟨fun hb => ⟨hb, ?_⟩, And.left⟩
    rintro rfl
    exact hbtl hb

end DelProcBtl

section Taken

variable {ep : Endpoint B E} {reached : B → Option E} {taken : List B} {btl b : B} {endpoint : E}

omit [DecidableEq B] [DecidableEq P] [DecidableEq F]

/-- The BTLs that an endpoint uses after some were tried: those of the greatest exclusivity. -/
structure Taken (z : Host B P F) (taken : List B) (reached : B → Option E) (ep : Endpoint B E) : Prop where
  nodup : (ep.send.items.map BmlBtl.btl).Nodup
  mem_send : ∀ b, b ∈ ep.send.items.map BmlBtl.btl ↔
    b ∈ taken ∧ reached b ≠ none ∧ ∀ b' ∈ taken, reached b' ≠ none → (z.btl b').exclusivity ≤ (z.btl b).exclusivity
  endpoint : ∀ item ∈ ep.send.items, reached item.btl = some item.endpoint
  ne_nil : ep.send.items ≠ []
  eager : ep.eager.items = []
  rdma : ep.rdma.items = []
  maxSendSize : ep.maxSendSize = 2 ^ 64 - 1

def TakenBy (z : Host B P F) (taken : List B) (reached : B → Option E) : Option (Endpoint B E) → Prop
  | none => ∀ b ∈ taken, reached b = none
  | some ep => Taken z taken reached ep

theorem mem_offer (ep : Endpoint B E) (btl : B) (endpoint : E) (b : B) :
    b ∈ (z.offer ep btl endpoint).1.send.items.map BmlBtl.btl ↔
      b ∈ ep.send.items.map BmlBtl.btl ∨ b = btl ∧ (z.offer ep btl endpoint).2 = true := by
  rw [Host.offer]
  split_ifs
  · simp
  · simp [BtlArray.insert]

theorem TakenBy.skip {o : Option (Endpoint B E)} (h : TakenBy z taken reached o) (hnone : reached btl = none) :
    TakenBy z (taken ++ [btl]) reached o := by
  have hmem (b : B) : b ∈ taken ++ [btl] ↔ b ∈ taken ∨ b = btl := by simp
  cases o with
  | none =>
    intro b hb
    rcases (hmem b).mp hb with hb | rfl
    · exact h b hb
    · exact hnone
  | some ep =>
    have h : Taken z taken reached ep := h
    refine ⟨h.nodup, fun b => ?_, h.endpoint, h.ne_nil, h.eager, h.rdma, h.maxSendSize⟩
    rw [h.mem_send]
    simp only [hmem]
    constructor
    · rintro ⟨hb, hreached, hgreatest⟩
      refine ⟨.inl hb, hreached, ?_⟩
      rintro b' (hb' | rfl) hreached'
      · exact hgreatest b' hb' hreached'
      · exact absurd hnone hreached'
    · rintro ⟨hb | rfl, hreached, hgreatest⟩
      · exact ⟨hb, hreached, fun b' hb' => hgreatest b' (.inl hb')⟩
      · exact absurd hnone hreached

theorem offer_first (h : ∀ b ∈ taken, reached b = none) (hreached : reached btl = some endpoint) (n : ℕ) :
    Taken z (taken ++ [btl]) reached (z.offer (Host.newEndpoint n) btl endpoint).1 := by
  have hoffer : z.offer (Host.newEndpoint n) btl endpoint =
      ({ Host.newEndpoint n with
        send := (BtlArray.reserve n).insert ⟨z.flagsOf btl, 0, btl, endpoint⟩, flagsOr := 0 ||| z.flagsOf btl }, true) :=
    if_neg (by simp [Host.newEndpoint, BtlArray.reserve])
  rw [hoffer]
  refine ⟨by simp [BtlArray.insert, BtlArray.reserve], fun b => ?_, ?_, by simp [BtlArray.insert], rfl, rfl, rfl⟩
  · simp only [BtlArray.insert, BtlArray.reserve, nil_append, map_singleton, mem_singleton,
      mem_append]
    constructor
    · rintro rfl
      refine ⟨.inr rfl, by simp [hreached], ?_⟩
      rintro b' (hb' | rfl) hreached'
      · exact absurd (h b' hb') hreached'
      · exact le_rfl
    · rintro ⟨hb | rfl, hreached', -⟩
      · exact absurd (h b hb) hreached'
      · rfl
  · intro item hitem
    obtain rfl : item = ⟨z.flagsOf btl, 0, btl, endpoint⟩ := by
      simpa [BtlArray.insert, BtlArray.reserve] using hitem
    exact hreached

theorem Taken.offer (h : Taken z taken reached ep) (hreached : reached btl = some endpoint) (hnew : btl ∉ taken)
    (hle : ∀ b ∈ taken, (z.btl btl).exclusivity ≤ (z.btl b).exclusivity) :
    Taken z (taken ++ [btl]) reached (z.offer ep btl endpoint).1 := by
  have hmem (b : B) : b ∈ taken ++ [btl] ↔ b ∈ taken ∨ b = btl := by simp
  obtain ⟨last, hlast⟩ : ∃ last, ep.send.items.getLast? = some last :=
    ⟨_, getLast?_eq_some_getLast h.ne_nil⟩
  have hlastmem : last ∈ ep.send.items := mem_of_getLast? hlast
  obtain ⟨hlasttaken, hlastreached, hgreatest⟩ := (h.mem_send last.btl).mp (mem_map_of_mem hlastmem)
  rw [Host.offer, hlast, Option.any_some]
  by_cases hless : (z.btl last.btl).exclusivity > (z.btl btl).exclusivity
  · rw [if_pos (decide_eq_true hless)]
    refine ⟨h.nodup, fun b => ?_, h.endpoint, h.ne_nil, h.eager, h.rdma, h.maxSendSize⟩
    rw [h.mem_send]
    simp only [hmem]
    constructor
    · rintro ⟨hb, hreached', hall⟩
      refine ⟨.inl hb, hreached', ?_⟩
      rintro b' (hb' | rfl) hb''
      · exact hall b' hb' hb''
      · exact hle b hb
    · rintro ⟨hb | rfl, hreached', hall⟩
      · exact ⟨hb, hreached', fun b' hb' => hall b' (.inl hb')⟩
      · exact absurd (hall last.btl (.inl hlasttaken) hlastreached) (Nat.not_le.mpr hless)
  · rw [if_neg (by simpa using hless)]
    have hbtl : btl ∉ ep.send.items.map BmlBtl.btl := fun hb => hnew ((h.mem_send btl).mp hb).1
    refine ⟨?_, fun b => ?_, ?_, by simp [BtlArray.insert], h.eager, h.rdma, h.maxSendSize⟩
    · simp only [BtlArray.insert, map_append, map_singleton]
      exact nodup_append.mpr ⟨h.nodup, nodup_singleton _, fun b hb b' hb' heq =>
        hbtl (by rw [mem_singleton.mp hb'] at heq; exact heq ▸ hb)⟩
    · simp only [BtlArray.insert, map_append, map_singleton, mem_append, mem_singleton, h.mem_send]
      constructor
      · rintro (⟨hb, hreached', hall⟩ | rfl)
        · refine ⟨.inl hb, hreached', ?_⟩
          rintro b' (hb' | rfl) hb''
          · exact hall b' hb' hb''
          · exact hle b hb
        · refine ⟨.inr rfl, by simp [hreached], ?_⟩
          rintro b' (hb' | rfl) hb''
          · exact (hgreatest b' hb' hb'').trans (Nat.not_lt.mp hless)
          · exact le_rfl
      · rintro ⟨hb | rfl, hreached', hall⟩
        · exact .inl ⟨hb, hreached', fun b' hb' => hall b' (.inl hb')⟩
        · exact .inr rfl
    · intro item hitem
      rcases mem_append.mp hitem with hitem | hitem
      · exact h.endpoint item hitem
      · rw [mem_singleton.mp hitem]
        exact hreached

end Taken

section Metrics

variable {ep : Endpoint B E} {reached : B → Option E} {p : P} {live : List B} {items : List (BmlBtl B E)}

omit [DecidableEq P] [DecidableEq B] [DecidableEq F]

theorem Copies.filter {which : B → Prop} [DecidablePred which] (hnodup : (items.map BmlBtl.btl).Nodup)
    (hpos : ∀ item ∈ items, 0 < item.weight) :
    Copies items (items.filter fun item => which item.btl) which where
  nodup := hnodup.sublist (List.filter_sublist.map _)
  mem_iff b := by
    simp only [mem_map, mem_filter, decide_eq_true_eq]
    constructor
    · rintro ⟨item, ⟨hitem, hwhich⟩, rfl⟩
      exact ⟨⟨item, hitem, rfl⟩, hwhich⟩
    · rintro ⟨⟨item, hitem, rfl⟩, hwhich⟩
      exact ⟨item, ⟨hitem, hwhich⟩, rfl⟩
  valid item hitem := by
    have hmem := mem_of_mem_filter hitem
    exact ⟨hpos item hmem, item, hmem, rfl, rfl, rfl⟩

theorem foldl_account (p : P) (latency : ℕ) (items : List (BmlBtl B E)) (ep : Endpoint B E) :
    (items.foldl (z.account p latency) ep).send = ep.send ∧
    (items.foldl (z.account p latency) ep).eager.items =
      ep.eager.items ++ items.filter (fun item => (z.btl item.btl).latency = latency) ∧
    (items.foldl (z.account p latency) ep).rdma.items =
      ep.rdma.items ++ items.filter (fun item => z.PrefersRdma p item.btl) ∧
    (items.foldl (z.account p latency) ep).maxSendSize =
      items.foldl (fun size item => min (z.btl item.btl).maxSendSize size) ep.maxSendSize := by
  induction items generalizing ep with
  | nil => simp
  | cons item items ih =>
    obtain ⟨hsend, heager, hrdma, hmax⟩ := ih (z.account p latency ep item)
    have hstep : (z.account p latency ep item).send = ep.send ∧
        (z.account p latency ep item).eager.items =
          ep.eager.items ++ (if (z.btl item.btl).latency = latency then [item] else []) ∧
        (z.account p latency ep item).rdma.items =
          ep.rdma.items ++ (if z.PrefersRdma p item.btl then [item] else []) ∧
        (z.account p latency ep item).maxSendSize = min (z.btl item.btl).maxSendSize ep.maxSendSize := by
      rw [Host.account]
      by_cases hlat : (z.btl item.btl).latency = latency <;>
        by_cases hlow : ep.maxSendSize > (z.btl item.btl).maxSendSize <;>
        by_cases hrdma : z.PrefersRdma p item.btl <;> simp [hlat, hlow, hrdma, BtlArray.insert] <;> omega
    obtain ⟨hsend', heager', hrdma', hmax'⟩ := hstep
    rw [foldl_cons, foldl_cons, filter_cons, filter_cons]
    refine ⟨hsend.trans hsend', ?_, ?_, by rw [hmax, hmax']⟩
    · rw [heager, heager', append_assoc]
      split_ifs <;> simp_all
    · rw [hrdma, hrdma', append_assoc]
      split_ifs <;> simp_all

theorem metrics_right {tried : List B} (h : Taken z tried reached ep) (htried : ∀ b, b ∈ live ↔ b ∈ tried)
    (hlive : ∀ b, reached b ≠ none → b ∈ live) (huniform : z.Uniform ep.send.items) :
    (z.metrics p ep).Right z live reached p ∧ z.Uniform (z.metrics p ep).send.items := by
  set sorted := ep.send.items.mergeSort fun b1 b2 => z.bandwidthCompare b1 b2 ≤ 0 with hsorted
  have hperm : sorted.Perm ep.send.items := mergeSort_perm _ _
  have hne : sorted ≠ [] := fun hnil => h.ne_nil (perm_nil.mp (hnil ▸ hperm.symm))
  have huniform' : z.Uniform sorted := huniform.of_subset fun item hitem => ⟨item, hperm.mem_iff.mp hitem, rfl⟩
  obtain ⟨hleast, item, hitem, heq⟩ := foldl_min_attained hne (f := fun item => (z.btl item.btl).latency)
    (n := 0xffffffff) fun item _ => Nat.le_of_lt_succ (z.btl item.btl).latency_lt
  set latency := sorted.foldl (fun latency item => min (z.btl item.btl).latency latency) 0xffffffff with hlatency
  obtain ⟨hsend, heager, hrdma, hmax⟩ := foldl_account p latency (z.reweigh sorted)
    { ep with send := ⟨z.reweigh sorted, ep.send.rest⟩ }
  rw [h.eager, nil_append] at heager
  rw [h.rdma, nil_append] at hrdma
  replace hmax := hmax.trans (congrArg (fun n => (z.reweigh sorted).foldl
    (fun size item => min (z.btl item.btl).maxSendSize size) n) h.maxSendSize)
  have hmetrics : z.metrics p ep = (z.reweigh sorted).foldl (z.account p latency)
    { ep with send := ⟨z.reweigh sorted, ep.send.rest⟩ } := rfl
  have hbtls : ((z.reweigh sorted).map BmlBtl.btl).Perm (ep.send.items.map BmlBtl.btl) := by
    rw [map_btl_reweigh]
    exact hperm.map _
  have hnodup : ((z.reweigh sorted).map BmlBtl.btl).Nodup := hbtls.nodup_iff.mpr h.nodup
  have hpos : ∀ item ∈ z.reweigh sorted, 0 < item.weight := fun item hitem => (of_mem_reweigh hitem).1
  rw [hmetrics]
  refine ⟨⟨?_, fun b => ?_, fun item hitem => ?_, ?_, ?_, ?_, ?_, ?_⟩, ?_⟩
  · rw [hsend]
    exact hnodup
  · rw [hsend, hbtls.mem_iff, h.mem_send, Host.Greatest]
    simp only [← htried]
    exact ⟨fun ⟨hb, hreached, hgreatest⟩ => ⟨hb, hreached, fun b' hb' => hgreatest b' (hlive b' hb') hb'⟩,
      fun ⟨hb, hreached, hgreatest⟩ => ⟨hb, hreached, fun b' _ hb' => hgreatest b' hb'⟩⟩
  · rw [hsend] at hitem
    obtain ⟨-, item', hitem', hbtl, hendpoint, -⟩ := of_mem_reweigh hitem
    rw [← hbtl, ← hendpoint]
    exact h.endpoint item' (hperm.mem_iff.mp hitem')
  · rw [hsend, heager]
    have hcopies : Copies _ _ fun b => (z.btl b).latency = latency := Copies.filter hnodup hpos
    have hleast' : ∀ b ∈ (z.reweigh sorted).map BmlBtl.btl, latency ≤ (z.btl b).latency := by
      intro b hb
      rw [map_btl_reweigh] at hb
      obtain ⟨item', hitem', rfl⟩ := mem_map.mp hb
      exact hleast item' hitem'
    refine hcopies.congr fun b hb => ⟨fun hlat b' hb' => hlat ▸ hleast' b' hb', fun hle => ?_⟩
    have hitem' : item.btl ∈ (z.reweigh sorted).map BmlBtl.btl := by
      rw [map_btl_reweigh]
      exact mem_map_of_mem hitem
    have := hle item.btl hitem'
    have := hleast' b hb
    omega
  · rw [hsend, hrdma]
    exact Copies.filter hnodup hpos
  · rw [hsend]
    exact hpos
  · intro _
    rw [hsend]
    exact sum_reweigh huniform' hne
  · intro _
    have hle : ∀ item ∈ z.reweigh sorted, (z.btl item.btl).maxSendSize ≤ 2 ^ 64 - 1 := fun item _ =>
      Nat.le_of_lt_succ (z.btl item.btl).maxSendSize_lt
    rw [hsend]
    have hmin := foldl_min_attained (mt reweigh_eq_nil.mp hne) hle
    rw [← hmax] at hmin
    exact hmin
  · rw [hsend]
    exact huniform'.of_subset fun item hitem => by
      obtain ⟨-, item', hitem', heq, -⟩ := of_mem_reweigh hitem
      exact ⟨item', hitem', heq⟩

end Metrics

end OpenMPI.Bml
