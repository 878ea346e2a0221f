import Mathlib.Data.List.TakeWhile
import Mathlib.Tactic.IntervalCases
import Mathlib.Tactic.Linarith
import Mathlib.Tactic.Ring
import OpenMPI.Lib.Decimal
import OpenMPI.Util.Nidmap

/-!
# Round trips of the node map

The numbers of contiguous nodes come back if each step between neighbours has the direction of the map
(`unpackFrom_straight`).  Otherwise fewer nodes come back, or a range does not end (`unpackFrom_length`).
-/

namespace OpenMPI.Util

open Btl Lib List

def packNumbers : (lastnode : ℤ) → List ℤ → List Item
  | lastnode, [] => [.int32 lastnode, .int32 (-1)]
  | lastnode, n :: numbers =>
    (if 1 < (n - lastnode).natAbs then [.int32 lastnode, .int32 n] else []) ++ packNumbers n numbers

def unpackFrom (step start : ℤ) : List Item → Option (List ℤ × List Item)
  | .int32 endrange :: items => unpackRanges step start endrange items
  | _ => none

theorem packRanges_eq (len : ℕ) (lastnode : ℤ) (names : List (List Char)) :
    packRanges len lastnode names = packNumbers lastnode (names.map fun name => int32 (strtol (name.drop len))) := by
  induction names generalizing lastnode with
  | nil => rfl
  | cons name names ih =>
    rw [packRanges, map_cons, packNumbers, ih]
    congr 1
    split_ifs <;> first | rfl | omega

theorem rangeLoop_of_fits {step : ℤ} (hstep : step ≠ 0) (count fuel : ℕ) (i : ℤ) (hfuel : count < fuel) :
    rangeLoop (i + step * count) step fuel i = some ((range count).map fun k : ℕ => i + step * k) := by
  induction count generalizing i fuel with
  | zero =>
    obtain ⟨fuel, rfl⟩ := Nat.exists_eq_add_one.mpr hfuel
    simp [rangeLoop]
  | succ count ih =>
    obtain ⟨fuel, rfl⟩ := Nat.exists_eq_add_one.mpr (Nat.zero_lt_of_lt hfuel)
    have hne : i ≠ i + step * (count + 1 : ℕ) := by
      have : step * (count + 1 : ℕ) ≠ 0 := mul_ne_zero hstep (by omega)
      omega
    have hend : i + step * (count + 1 : ℕ) = i + step + step * count := by
      push_cast
      ring
    rw [rangeLoop, if_pos hne, hend, ih fuel (i + step) (by omega), Option.map_some, range_succ_eq_map,
      map_cons, map_map]
    congr 2
    · simp
    · refine map_congr_left fun k _ => ?_
      rw [Function.comp_apply]
      push_cast
      ring

theorem rangeLoop_of_away {endrange step : ℤ} (fuel : ℕ) (i : ℤ) (h : (endrange - i) * step < 0) :
    rangeLoop endrange step fuel i = none := by
  induction fuel generalizing i with
  | zero => rfl
  | succ fuel ih =>
    have hne : i ≠ endrange := by
      rintro rfl
      simp at h
    rw [rangeLoop, if_pos hne, ih (i + step) (by nlinarith [sq_nonneg step]), Option.map_none]

theorem rangeLoop_eq {step start endrange : ℤ} (hstep : step = 1 ∨ step = -1) :
    rangeLoop endrange step ((endrange - start).natAbs + 1) start =
      if 0 ≤ (endrange - start) * step then
        some ((range ((endrange - start) * step).toNat).map fun k : ℕ => start + step * k)
      else none := by
  split_ifs with h
  · have hcount : endrange = start + step * (((endrange - start) * step).toNat : ℕ) := by
      rw [Int.toNat_of_nonneg h]
      rcases hstep with rfl | rfl <;> ring
    have hfits := rangeLoop_of_fits (show step ≠ 0 by omega) ((endrange - start) * step).toNat
      ((endrange - start).natAbs + 1) start (by rcases hstep with rfl | rfl <;> omega)
    rw [← hcount] at hfits
    exact hfits
  · exact rangeLoop_of_away _ _ (by omega)

theorem unpackRanges_last {step start last : ℤ} (hstep : step = 1 ∨ step = -1) (items : List Item) :
    unpackRanges step start last (.int32 (-1) :: items) =
      if 0 ≤ (last + step - start) * step then
        some ((range ((last + step - start) * step).toNat).map (fun k : ℕ => start + step * k), items)
      else none := by
  unfold unpackRanges
  rw [rangeLoop_eq hstep]
  by_cases hway : 0 ≤ (last + step - start) * step
  · rw [if_pos hway, if_pos hway, Option.bind_eq_bind, Option.bind_some, if_pos rfl]
  · rw [if_neg hway, if_neg hway]
    rfl

theorem unpackRanges_next {step start last next : ℤ} (hstep : step = 1 ∨ step = -1) (hnext : 0 ≤ next)
    (items : List Item) : unpackRanges step start last (.int32 next :: items) =
      if 0 ≤ (last + step - start) * step then
        (unpackFrom step next items).map fun r =>
          ((range ((last + step - start) * step).toNat).map (fun k : ℕ => start + step * k) ++ r.1, r.2)
      else none := by
  have hne : next ≠ -1 := by omega
  rw [unpackRanges.eq_def]
  dsimp only
  rw [rangeLoop_eq hstep]
  split_ifs with hway
  · rw [Option.bind_eq_bind, Option.bind_some]
    cases items with
    | nil => rfl
    | cons item items =>
      cases item with
      | int32 endrange =>
        rw [unpackFrom]
        dsimp only
        cases unpackRanges step next endrange items <;> rfl
      | _ => rfl
  · rfl

theorem packNumbers_nil (last : ℤ) (items : List Item) :
    packNumbers last [] ++ items = .int32 last :: .int32 (-1) :: items := rfl

theorem packNumbers_far {last n : ℤ} (h : 1 < (n - last).natAbs) (numbers : List ℤ) (items : List Item) :
    packNumbers last (n :: numbers) ++ items = .int32 last :: .int32 n :: (packNumbers n numbers ++ items) := by
  rw [packNumbers, if_pos h]
  rfl

theorem packNumbers_close {last n : ℤ} (h : ¬1 < (n - last).natAbs) (numbers : List ℤ) :
    packNumbers last (n :: numbers) = packNumbers n numbers := by
  rw [packNumbers, if_neg h, nil_append]

theorem unpackFrom_straight {step : ℤ} (hstep : step = 1 ∨ step = -1) {numbers : List ℤ} (hpos : ∀ n ∈ numbers, 0 ≤ n)
    (items : List Item) (start : ℤ) (count : ℕ) (h : Straight step (start + step * count) numbers) :
    unpackFrom step start (packNumbers (start + step * count) numbers ++ items) =
      some ((range (count + 1)).map (fun k : ℕ => start + step * k) ++ numbers, items) := by
  have hlen : (start + step * count + step - start) * step = count + 1 := by
    rcases hstep with rfl | rfl <;> ring
  have htoNat : ((start + step * count + step - start) * step).toNat = count + 1 := by omega
  induction numbers generalizing start count with
  | nil =>
    rw [packNumbers_nil, unpackFrom, unpackRanges_last hstep,
      if_pos (by omega), htoNat, append_nil]
  | cons n numbers ih =>
    obtain ⟨hn, hrest⟩ := h
    have hn0 := hpos n mem_cons_self
    have hpos' : ∀ m ∈ numbers, 0 ≤ m := fun m hm => hpos m (mem_cons_of_mem _ hm)
    have hlen' (s : ℤ) (c : ℕ) : (s + step * c + step - s) * step = c + 1 := by
      rcases hstep with rfl | rfl <;> ring
    by_cases hfar : 1 < (n - (start + step * count)).natAbs
    · rw [packNumbers_far hfar, unpackFrom, unpackRanges_next hstep hn0, if_pos (by omega), htoNat]
      have hnext := ih hpos' n 0 (by simpa using hrest) (hlen' n 0) (by rw [hlen' n 0]; rfl)
      rw [Nat.cast_zero, mul_zero, add_zero] at hnext
      rw [hnext]
      simp
    · rw [packNumbers_close hfar]
      have heq : n = start + step * ((count + 1 : ℕ) : ℤ) := by
        have := hn.resolve_right hfar
        push_cast
        linarith
      rw [heq] at hrest ⊢
      rw [ih hpos' start (count + 1) hrest (hlen' _ _) (by rw [hlen']; rfl), range_succ, map_append]
      simp

theorem unpackFrom_length {step : ℤ} (hstep : step = 1 ∨ step = -1) {numbers : List ℤ} (hpos : ∀ n ∈ numbers, 0 ≤ n)
    {items items' : List Item} {l : List ℤ} {start last : ℤ} {count : ℕ} (hcount : (last - start) * step + 1 ≤ count)
    (h : unpackFrom step start (packNumbers last numbers ++ items) = some (l, items')) :
    l.length ≤ count + numbers.length ∧ (l.length = count + numbers.length →
      (last - start) * step + 1 = count ∧ Straight step last numbers) := by
  have hlen : (last + step - start) * step = (last - start) * step + 1 := by
    rcases hstep with rfl | rfl <;> ring
  induction numbers generalizing start last count l with
  | nil =>
    rw [packNumbers_nil, unpackFrom, unpackRanges_last hstep] at h
    split_ifs at h with hway
    obtain ⟨rfl, -⟩ := Prod.mk.inj (Option.some.inj h)
    rw [length_map, length_range, length_nil]
    exact ⟨by omega, fun heq => ⟨by omega, trivial⟩⟩
  | cons n numbers ih =>
    have hn0 := hpos n mem_cons_self
    have hpos' : ∀ m ∈ numbers, 0 ≤ m := fun m hm => hpos m (mem_cons_of_mem _ hm)
    have hlen' (s a : ℤ) : (a + step - s) * step = (a - s) * step + 1 := by
      rcases hstep with rfl | rfl <;> ring
    rw [length_cons]
    by_cases hfar : 1 < (n - last).natAbs
    · rw [packNumbers_far hfar, unpackFrom, unpackRanges_next hstep hn0] at h
      split_ifs at h with hway
      obtain ⟨⟨l', items''⟩, hnext, heq⟩ := Option.map_eq_some_iff.mp h
      obtain ⟨rfl, rfl⟩ := Prod.mk.inj heq
      obtain ⟨hle, hall⟩ := ih hpos' (show (n - n) * step + 1 ≤ ((1 : ℕ) : ℤ) by simp) hnext (hlen' n n)
      rw [length_append, length_map, length_range]
      dsimp only
      refine ⟨by omega, fun heq => ?_⟩
      obtain ⟨-, hrest⟩ := hall (by omega)
      exact ⟨by omega, .inr hfar, hrest⟩
    · rw [packNumbers_close hfar] at h
      have hclose : (n - start) * step + 1 ≤ (count + 1 : ℕ) := by
        rcases hstep with rfl | rfl <;> omega
      obtain ⟨hle, hall⟩ := ih hpos' hclose h (hlen' start n)
      refine ⟨by omega, fun heq => ?_⟩
      obtain ⟨hrun, hrest⟩ := hall (by omega)
      have hnext : n - last = step := by
        rcases hstep with rfl | rfl <;> omega
      refine ⟨?_, .inl hnext, hrest⟩
      rcases hstep with rfl | rfl <;> omega

section Names

variable {nodePrefix digits name : List Char} {k : ℕ}

theorem not_isWhitespace_of_isDigit {c : Char} (h : c.isDigit = true) : c.isWhitespace = false := by
  obtain ⟨d, hd, rfl⟩ := exists_digitChar h
  interval_cases d <;> rfl

theorem not_isAlpha_of_isDigit {c : Char} (h : c.isDigit = true) : c.isAlpha = false := by
  obtain ⟨d, hd, rfl⟩ := exists_digitChar h
  interval_cases d <;> rfl

theorem strtol_digits (h : ∀ c ∈ digits, c.isDigit = true) : strtol digits = min (digitsValue digits : ℤ) (2 ^ 63 - 1) := by
  have htake : digits.takeWhile Char.isDigit = digits := takeWhile_eq_self_iff.mpr h
  have hdrop : digits.dropWhile Char.isWhitespace = digits := by
    cases digits with
    | nil => rfl
    | cons c s => exact dropWhile_cons_of_neg (by simp [not_isWhitespace_of_isDigit (h c mem_cons_self)])
  rw [strtol, hdrop]
  split
  · exact absurd (h '-' mem_cons_self) (by decide)
  · exact absurd (h '+' mem_cons_self) (by decide)
  · dsimp only
    rw [htake]

theorem int32_strtol (h : ∀ c ∈ digits, c.isDigit = true) (hlt : digitsValue digits < 10 ^ 9) :
    int32 (strtol digits) = digitsValue digits := by
  rw [strtol_digits h, int32, Int.bmod_def]
  omega

theorem splitName_append (hne : nodePrefix ≠ []) (halpha : ∀ c ∈ nodePrefix, c.isAlpha = true) (hk : digits ≠ [])
    (h : ∀ c ∈ digits, c.isDigit = true) : splitName (nodePrefix ++ digits) = some (nodePrefix, digits) := by
  obtain ⟨c, s, rfl⟩ := exists_cons_of_ne_nil hne
  obtain ⟨d, rest, rfl⟩ := exists_cons_of_ne_nil hk
  have hd := h d mem_cons_self
  have hs : ∀ e ∈ s, e.isAlpha = true := fun e he => halpha e (mem_cons_of_mem _ he)
  rw [cons_append, splitName, dropWhile_append_of_pos hs, takeWhile_append_of_pos hs,
    dropWhile_cons_of_neg (by simp [not_isAlpha_of_isDigit hd]),
    takeWhile_cons_of_neg (by simp [not_isAlpha_of_isDigit hd]), append_nil]
  exact if_pos hd

theorem printInt_natCast (n : ℕ) : printInt n = Nat.toDigits 10 n := by
  rw [printInt, if_neg (by omega), Int.natAbs_natCast]

theorem nodeName_digits (hk : digits ≠ []) (h : ∀ c ∈ digits, c.isDigit = true) (hlt : digitsValue digits < 10 ^ 9) :
    nodeName nodePrefix digits.length (digitsValue digits) = nodePrefix ++ digits := by
  have hpos : 0 < digits.length := length_pos_iff.mpr hk
  have hnine := (Nat.length_toDigits_le_iff (by decide) (by decide)).mpr hlt
  have hlength := (Nat.length_toDigits_le_iff (by decide) hpos).mpr (digitsValue_lt h)
  rw [nodeName, printInt_natCast, take_of_length_le hnine, take_of_length_le hlength, append_assoc,
    zeros_append_toDigits hk h]

theorem lt_of_nodeName {x : ℤ} (h : ∀ c ∈ digits, c.isDigit = true)
    (hname : nodeName nodePrefix (digits.length % 2 ^ 8) x = nodePrefix ++ digits) :
    digits.length < 2 ^ 8 ∧ digitsValue digits < 10 ^ 9 := by
  have hmod : digits.length % 2 ^ 8 ≤ digits.length := Nat.mod_le _ _
  have hlt : digits.length % 2 ^ 8 < 2 ^ 8 := Nat.mod_lt _ (by decide)
  rw [nodeName, append_assoc, append_cancel_left_eq] at hname
  have hlength := congrArg List.length hname
  rw [length_append, length_replicate, length_take, length_take] at hlength
  by_cases hfits : (printInt x).length ≤ digits.length % 2 ^ 8
  · have hall : digits.length < 2 ^ 8 := by omega
    refine ⟨hall, ?_⟩
    rw [Nat.mod_eq_of_lt hall] at hname
    rw [Nat.mod_eq_of_lt hall] at hfits hlength
    have hnine : (printInt x).length ≤ 9 := by omega
    rw [take_of_length_le hnine, take_of_length_le hfits] at hname
    have hx : 0 ≤ x := by
      by_contra hneg
      have hmem : '-' ∈ digits := by
        rw [← hname, printInt, if_pos (by omega)]
        simp
      exact absurd (h _ hmem) (by decide)
    obtain ⟨n, rfl⟩ := Int.eq_ofNat_of_zero_le hx
    rw [← hname, digitsValue_zeros_append, printInt_natCast, digitsValue_toDigits]
    rw [printInt_natCast] at hnine
    exact (Nat.length_toDigits_le_iff (by decide) (by decide)).mp hnine
  · refine ⟨by omega, lt_of_lt_of_le (digitsValue_lt h) (Nat.pow_le_pow_right (by decide) (by omega))⟩

end Names

section Fields

variable {nids : List Nid} {vpids archs : List UInt32}

theorem length_setDaemons : (setDaemons nids vpids).length = nids.length := by
  induction nids generalizing vpids with
  | nil => cases vpids <;> rfl
  | cons nid nids ih =>
    cases vpids with
    | nil => rfl
    | cons vpid vpids => simp [setDaemons, ih]

theorem map_name_setDaemons : (setDaemons nids vpids).map Nid.name = nids.map Nid.name := by
  induction nids generalizing vpids with
  | nil => cases vpids <;> rfl
  | cons nid nids ih =>
    cases vpids with
    | nil => rfl
    | cons vpid vpids => simp [setDaemons, ih]

theorem map_arch_setDaemons : (setDaemons nids vpids).map Nid.arch = nids.map Nid.arch := by
  induction nids generalizing vpids with
  | nil => cases vpids <;> rfl
  | cons nid nids ih =>
    cases vpids with
    | nil => rfl
    | cons vpid vpids => simp [setDaemons, ih]

theorem map_daemon_setDaemons (h : nids.length = vpids.length) : (setDaemons nids vpids).map Nid.daemon = vpids := by
  induction nids generalizing vpids with
  | nil =>
    obtain rfl := length_eq_zero_iff.mp h.symm
    rfl
  | cons nid nids ih =>
    cases vpids with
    | nil => cases h
    | cons vpid vpids => simp [setDaemons, ih (Nat.succ.inj h)]

theorem map_name_setArchs : (setArchs nids archs).map Nid.name = nids.map Nid.name := by
  induction nids generalizing archs with
  | nil => cases archs <;> rfl
  | cons nid nids ih =>
    cases archs with
    | nil => rfl
    | cons arch archs => simp [setArchs, ih]

theorem map_daemon_setArchs : (setArchs nids archs).map Nid.daemon = nids.map Nid.daemon := by
  induction nids generalizing archs with
  | nil => cases archs <;> rfl
  | cons nid nids ih =>
    cases archs with
    | nil => rfl
    | cons arch archs => simp [setArchs, ih]

theorem map_arch_setArchs (h : nids.length = archs.length) : (setArchs nids archs).map Nid.arch = archs := by
  induction nids generalizing archs with
  | nil =>
    obtain rfl := length_eq_zero_iff.mp h.symm
    rfl
  | cons nid nids ih =>
    cases archs with
    | nil => cases h
    | cons arch archs => simp [setArchs, ih (Nat.succ.inj h)]

theorem eq_of_fields {nids' : List Nid} (hname : nids.map Nid.name = nids'.map Nid.name)
    (hdaemon : nids.map Nid.daemon = nids'.map Nid.daemon) (harch : nids.map Nid.arch = nids'.map Nid.arch) :
    nids = nids' := by
  induction nids generalizing nids' with
  | nil =>
    cases nids' with
    | nil => rfl
    | cons => cases hname
  | cons nid nids ih =>
    cases nids' with
    | nil => cases hname
    | cons nid' nids' =>
      rw [map_cons, map_cons, List.cons.injEq] at hname hdaemon harch
      rw [ih hname.2 hdaemon.2 harch.2]
      cases nid
      cases nid'
      rw [List.cons.injEq, Nid.mk.injEq]
      exact ⟨⟨hname.1, hdaemon.1, harch.1⟩, rfl⟩

end Fields

section Map

variable {cfg : Config} {arch : UInt32} {hnp : Node} {nodes : List Node}

def packNames (cfg : Config) (nodes : List Node) : Option (List Item) :=
  if cfg.contiguousNodes < (nodes.length + 1 : ℕ) then packContiguous (nodes.map Node.name)
  else some (.uint8 nonContigNodeCmd :: nodes.map fun node => .string (cfg.nodename node.name))

def packRest (cfg : Config) (hnp : Node) (nodes : List Node) : List Item :=
  .vpids ((hnp :: nodes).map fun node => node.daemon.getD vpidInvalid) ::
    if cfg.heterogeneousSupport ∧ ∃ node ∈ nodes, node.arch ≠ hnp.arch then
      [.uint8 1, .int32s ((hnp :: nodes).map Node.arch)]
    else [.uint8 0]

theorem encodeNodemap_eq : encodeNodemap cfg hnp nodes = (packNames cfg nodes).map fun names =>
    .int32 (nodes.length + 1 : ℕ) :: .string (cfg.nodename hnp.name) :: (names ++ packRest cfg hnp nodes) := by
  unfold encodeNodemap packNames packRest
  dsimp only
  split_ifs <;> cases packContiguous (nodes.map Node.name) <;> simp

theorem decodeNodemap_cons {items rest : List Item} {names : List (List Char)} {name : List Char}
    (h : unpackNames (nodes.length + 1) items = some (names, rest)) :
    decodeNodemap arch (.int32 (nodes.length + 1 : ℕ) :: .string name :: items) =
      if names.length < nodes.length then none
      else match rest with
        | [.vpids vpids, .uint8 0] => some (setDaemons ((name :: names).map fun name => ⟨name, vpidInvalid, arch⟩) vpids)
        | [.vpids vpids, .uint8 _, .int32s archs] =>
          some (setArchs (setDaemons ((name :: names).map fun name => ⟨name, vpidInvalid, arch⟩) vpids) archs)
        | _ => none := by
  rw [decodeNodemap, Int.toNat_natCast, h, Option.bind_eq_bind, Option.bind_some]
  refine if_congr ?_ rfl rfl
  simp only [length_map, length_cons, Nat.cast_lt, Nat.add_lt_add_iff_right]

theorem eq_map_view_iff {nids : List Nid} (hname : nids.map Nid.name = (hnp :: nodes).map fun node => cfg.nodename node.name)
    (hdaemon : nids.map Nid.daemon = (hnp :: nodes).map fun node => node.daemon.getD vpidInvalid) :
    nids = (hnp :: nodes).map cfg.view ↔ nids.map Nid.arch = (hnp :: nodes).map Node.arch := by
  constructor
  · rintro rfl
    rw [map_map]
    rfl
  · intro harch
    refine eq_of_fields ?_ ?_ ?_
    · rw [hname, map_map]
      rfl
    · rw [hdaemon, map_map]
      rfl
    · rw [harch, map_map]
      rfl

theorem roundTrips_iff_knowsArchs {items : List Item} (hpack : packNames cfg nodes = some items)
    (hunpack : ∀ rest, unpackNames (nodes.length + 1) (items ++ rest) =
      some (nodes.map fun node => cfg.nodename node.name, rest)) :
    cfg.RoundTrips arch hnp nodes ↔ cfg.KnowsArchs arch hnp nodes := by
  have hdaemons {names : List (List Char)} (hnames : names.length = nodes.length + 1) :
      ((setDaemons (names.map fun name => ⟨name, vpidInvalid, arch⟩)
        ((hnp :: nodes).map fun node => node.daemon.getD vpidInvalid)).map Nid.daemon) =
        (hnp :: nodes).map fun node => node.daemon.getD vpidInvalid :=
    map_daemon_setDaemons (by simp [hnames])
  rw [Config.RoundTrips, encodeNodemap_eq, hpack, Option.map_some, Option.bind_some,
    decodeNodemap_cons (hunpack _), length_map, if_neg (lt_irrefl _), packRest, Config.KnowsArchs]
  by_cases hsent : cfg.heterogeneousSupport = true ∧ ∃ node ∈ nodes, node.arch ≠ hnp.arch
  · rw [if_pos hsent]
    change some (setArchs _ _) = _ ↔ _
    rw [Option.some.injEq, eq_map_view_iff]
    · rw [map_arch_setArchs (by simp [length_setDaemons])]
      simp [hsent]
    · rw [map_name_setArchs, map_name_setDaemons]
      simp
    · rw [map_daemon_setArchs, hdaemons (by simp)]
  · rw [if_neg hsent]
    change some (setDaemons _ _) = _ ↔ _
    rw [Option.some.injEq, eq_map_view_iff]
    · rw [map_arch_setDaemons, or_iff_right hsent]
      simp [eq_comm, or_imp, forall_and]
    · rw [map_name_setDaemons]
      simp
    · rw [hdaemons (by simp)]

theorem names_of_decodeNodemap {items : List Item} {name : List Char} {nids : List Nid}
    (h : decodeNodemap arch (.int32 (nodes.length + 1 : ℕ) :: .string name :: items) = some nids) :
    ∃ names rest, unpackNames (nodes.length + 1) items = some (names, rest) ∧ nids.map Nid.name = name :: names := by
  cases hnames : unpackNames (nodes.length + 1) items with
  | none =>
    rw [decodeNodemap, Int.toNat_natCast, hnames] at h
    cases h
  | some r =>
    obtain ⟨names, rest⟩ := r
    refine ⟨names, rest, rfl, ?_⟩
    rw [decodeNodemap_cons hnames] at h
    split_ifs at h
    have hname : ((name :: names).map fun name => (⟨name, vpidInvalid, arch⟩ : Nid)).map Nid.name = name :: names := by
      rw [map_map]
      exact map_id _
    split at h
    · rw [← Option.some.inj h, map_name_setDaemons, hname]
    · rw [← Option.some.inj h, map_name_setArchs, map_name_setDaemons, hname]
    · cases h

theorem unpackNames_names (names : List (List Char)) (rest : List Item) :
    unpackNames (names.length + 1) (.uint8 nonContigNodeCmd :: (names.map .string ++ rest)) = some (names, rest) := by
  have hmap (f : Item → Option (List Char)) (hf : ∀ name, f (.string name) = some name) :
      (names.map Item.string).mapM f = some names := by
    induction names with
    | nil => rfl
    | cons name names ih => simp [ih, hf]
  rw [unpackNames.eq_def]
  dsimp only
  rw [if_neg (by decide), Nat.add_sub_cancel, take_left' (by simp), drop_left' (by simp), hmap _ fun _ => rfl]
  exact if_pos rfl

theorem unpackNames_contig {m numDigs : ℕ} {nodePrefix : List Char} {lastnode incdec : ℤ} (items : List Item) :
    unpackNames m (.uint8 contigNodeCmd :: .string nodePrefix :: .uint8 numDigs :: .int32 lastnode :: .int8 incdec ::
      items) = (unpackFrom (if incdec = 0 then -1 else 1) lastnode items).map fun r =>
        (r.1.map (nodeName nodePrefix numDigs), r.2) := by
  rw [unpackNames.eq_def]
  dsimp only
  rw [if_pos rfl]
  cases items with
  | nil => rfl
  | cons item items =>
    cases item with
    | int32 endrange =>
      rw [unpackFrom]
      dsimp only
      cases unpackRanges (if incdec = 0 then -1 else 1) lastnode endrange items <;> rfl
    | _ => rfl

theorem roundTrips_of_names (h : ¬cfg.contiguousNodes < (nodes.length + 1 : ℕ)) :
    cfg.RoundTrips arch hnp nodes ↔ cfg.KnowsArchs arch hnp nodes := by
  refine roundTrips_iff_knowsArchs (by rw [packNames, if_neg h]) fun rest => ?_
  have hnames := unpackNames_names (nodes.map fun node => cfg.nodename node.name) rest
  rwa [length_map, map_map] at hnames

end Map

section Contiguous

variable {nodePrefix : List Char} {k : ℕ} {nodes : List Node}

def Node.packed (len : ℕ) (node : Node) : ℤ := int32 (strtol (node.name.drop len))

namespace Pattern

variable (h : Pattern nodePrefix k nodes)
include h

theorem name_eq {node : Node} (hnode : node ∈ nodes) : ∃ digits, node.name = nodePrefix ++ digits ∧ digits ≠ [] ∧
    digits.length = k ∧ (∀ c ∈ digits, c.isDigit = true) ∧ node.index nodePrefix.length = digitsValue digits ∧
    node.packed nodePrefix.length = int32 (strtol digits) := by
  obtain ⟨digits, hname⟩ := h.names node hnode
  have hdrop : node.name.drop nodePrefix.length = digits := by rw [hname.name_eq, drop_left]
  refine ⟨digits, hname.name_eq, ?_, hname.length_eq, hname.isDigit, ?_, ?_⟩
  · rintro rfl
    have := h.pos
    rw [← hname.length_eq] at this
    exact lt_irrefl _ this
  · rw [Node.index, hdrop]
  · rw [Node.packed, hdrop]

theorem nodename_eq (cfg : Config) {node : Node} (hnode : node ∈ nodes) : cfg.nodename node.name = node.name := by
  obtain ⟨digits, hname, -, -, hdigits, -⟩ := h.name_eq hnode
  rw [Config.nodename]
  split_ifs
  · rfl
  · rw [takeWhile_eq_self_iff, hname]
    intro c hc
    rw [decide_eq_true_iff]
    rintro rfl
    rcases mem_append.mp hc with hc | hc
    · exact absurd (h.isAlpha _ hc) (by decide)
    · exact absurd (hdigits _ hc) (by decide)

theorem packed_eq {node : Node} (hnode : node ∈ nodes) (hlt : node.index nodePrefix.length < 10 ^ 9) :
    node.packed nodePrefix.length = node.index nodePrefix.length := by
  obtain ⟨digits, -, -, -, hdigits, hindex, hpacked⟩ := h.name_eq hnode
  rw [hpacked, hindex]
  exact int32_strtol hdigits (by rwa [← hindex])

end Pattern

def wayOf (a b : ℤ) : ℤ := if b - a < 0 then -1 else 1

theorem wayOf_eq (a b : ℤ) : wayOf a b = 1 ∨ wayOf a b = -1 := by
  rw [wayOf]
  split_ifs
  · exact .inr rfl
  · exact .inl rfl

theorem packContiguous_eq {a b : Node} (h : Pattern nodePrefix k (a :: b :: nodes)) :
    packContiguous ((a :: b :: nodes).map Node.name) =
      if maxNodePrefix ≤ nodePrefix.length then none
      else some (.uint8 contigNodeCmd :: .string nodePrefix :: .uint8 (k % 2 ^ 8) ::
        .int32 (a.packed nodePrefix.length) ::
        .int8 (if b.packed nodePrefix.length - a.packed nodePrefix.length < 0 then 0 else 1) ::
        packNumbers (a.packed nodePrefix.length) ((b :: nodes).map (Node.packed nodePrefix.length))) := by
  obtain ⟨digits, hname, hne, hlength, hdigits, -, hpacked⟩ := h.name_eq mem_cons_self
  have htake : digits.takeWhile Char.isDigit = digits := takeWhile_eq_self_iff.mpr hdigits
  have hpack (node : Node) : int32 (strtol (node.name.drop nodePrefix.length)) = node.packed nodePrefix.length := rfl
  rw [map_cons, map_cons, packContiguous, hname, splitName_append h.prefix_ne h.isAlpha hne hdigits,
    Option.bind_eq_bind, Option.bind_some]
  dsimp only
  rw [htake, hlength, packRanges_eq, hpack, ← hpacked, ← map_cons, map_map]
  rfl

theorem unpackNames_packContiguous {a b : Node} (h : Pattern nodePrefix k (a :: b :: nodes))
    (hshort : nodePrefix.length < maxNodePrefix) {m : ℕ} (rest : List Item) :
    ∃ items, packContiguous ((a :: b :: nodes).map Node.name) = some items ∧
      unpackNames m (items ++ rest) =
        (unpackFrom (wayOf (a.packed nodePrefix.length) (b.packed nodePrefix.length)) (a.packed nodePrefix.length)
          (packNumbers (a.packed nodePrefix.length) ((b :: nodes).map (Node.packed nodePrefix.length)) ++ rest)).map
          fun r => (r.1.map (nodeName nodePrefix (k % 2 ^ 8)), r.2) := by
  rw [packContiguous_eq h, if_neg (Nat.not_le.mpr hshort)]
  refine ⟨_, rfl, ?_⟩
  rw [cons_append, cons_append, cons_append, cons_append, cons_append, unpackNames_contig]
  congr 2
  rw [wayOf]
  split_ifs <;> first | rfl | omega

theorem unpackNames_of_ordered (h : Pattern nodePrefix k nodes) (ho : Ordered nodePrefix k nodes) {m : ℕ} :
    ∃ items, packContiguous (nodes.map Node.name) = some items ∧
      ∀ rest, unpackNames m (items ++ rest) = some (nodes.map Node.name, rest) := by
  have hone := ho.oneWay
  rcases nodes with - | ⟨a, - | ⟨b, nodes⟩⟩
  · exact absurd hone id
  · exact absurd hone id
  have hpacked {node : Node} (hnode : node ∈ a :: b :: nodes) :
      node.packed nodePrefix.length = node.index nodePrefix.length := h.packed_eq hnode (ho.index_lt node hnode)
  have hnumbers : (b :: nodes).map (Node.packed nodePrefix.length) =
      (b :: nodes).map fun node => (node.index nodePrefix.length : ℤ) :=
    map_congr_left fun node hnode => hpacked (mem_cons_of_mem _ hnode)
  obtain ⟨items, hitems, -⟩ := unpackNames_packContiguous (m := m) h ho.prefix_lt []
  refine ⟨items, hitems, fun rest => ?_⟩
  obtain ⟨items', hitems', hunpack⟩ := unpackNames_packContiguous (m := m) h ho.prefix_lt rest
  obtain rfl := Option.some.inj (hitems'.symm.trans hitems)
  rw [hunpack, hnumbers, hpacked mem_cons_self, hpacked (mem_cons_of_mem _ mem_cons_self)]
  have hway : wayOf (a.index nodePrefix.length) (b.index nodePrefix.length) = 1 ∨ _ := wayOf_eq _ _
  have hnonneg : ∀ n ∈ (b :: nodes).map fun node => (node.index nodePrefix.length : ℤ), 0 ≤ n := by simp
  have hstraight := unpackFrom_straight hway hnonneg rest (a.index nodePrefix.length) 0 (by simpa [OneWay, wayOf] using hone)
  rw [Nat.cast_zero, mul_zero, add_zero] at hstraight
  rw [hstraight, Option.map_some, Option.some.injEq, Prod.mk.injEq]
  refine ⟨?_, rfl⟩
  have hall : (range (0 + 1)).map (fun i : ℕ => (a.index nodePrefix.length : ℤ) +
      wayOf (a.index nodePrefix.length) (b.index nodePrefix.length) * i) ++
      (b :: nodes).map (fun node => (node.index nodePrefix.length : ℤ)) =
      (a :: b :: nodes).map fun node => (node.index nodePrefix.length : ℤ) := by simp
  rw [hall, map_map]
  refine map_congr_left fun node hnode => ?_
  obtain ⟨digits, hname, hne, hlength, hdigits, hindex, -⟩ := h.name_eq hnode
  have hlt := ho.index_lt node hnode
  rw [Function.comp_apply, Nat.mod_eq_of_lt ho.digits_lt, hindex, ← hlength, hname]
  exact nodeName_digits hne hdigits (by rwa [← hindex])

theorem ordered_of_unpackNames (h : Pattern nodePrefix k nodes) {m : ℕ} {items rest rest' : List Item}
    (hpack : packContiguous (nodes.map Node.name) = some items)
    (hunpack : unpackNames m (items ++ rest) = some (nodes.map Node.name, rest')) : Ordered nodePrefix k nodes := by
  rcases nodes with - | ⟨a, - | ⟨b, nodes⟩⟩
  · cases hpack
  · cases hpack
  have hshort : nodePrefix.length < maxNodePrefix := by
    by_contra hlong
    rw [packContiguous_eq h, if_pos (Nat.not_lt.mp hlong)] at hpack
    cases hpack
  obtain ⟨items', hitems', hnames⟩ := unpackNames_packContiguous (m := m) h hshort rest
  obtain rfl := Option.some.inj (hitems'.symm.trans hpack)
  rw [hunpack] at hnames
  obtain ⟨⟨numbers, items⟩, hfrom, hmap⟩ := Option.map_eq_some_iff.mp hnames.symm
  obtain ⟨hmap, -⟩ := Prod.mk.inj hmap
  dsimp only at hmap
  -- each name is that of some number
  have hlt : ∀ node ∈ a :: b :: nodes, k < 2 ^ 8 ∧ node.index nodePrefix.length < 10 ^ 9 := by
    intro node hnode
    obtain ⟨digits, hname, -, hlength, hdigits, hindex, -⟩ := h.name_eq hnode
    have hmem : node.name ∈ numbers.map (nodeName nodePrefix (k % 2 ^ 8)) := hmap ▸ mem_map_of_mem hnode
    obtain ⟨x, -, hx⟩ := mem_map.mp hmem
    rw [hindex, ← hlength]
    rw [hname, ← hlength] at hx
    exact lt_of_nodeName hdigits hx
  have hpacked {node : Node} (hnode : node ∈ a :: b :: nodes) :
      node.packed nodePrefix.length = node.index nodePrefix.length := h.packed_eq hnode (hlt node hnode).2
  refine ⟨hshort, (hlt a mem_cons_self).1, fun node hnode => (hlt node hnode).2, ?_⟩
  have hnumbers : (b :: nodes).map (Node.packed nodePrefix.length) =
      (b :: nodes).map fun node => (node.index nodePrefix.length : ℤ) :=
    map_congr_left fun node hnode => hpacked (mem_cons_of_mem _ hnode)
  rw [hnumbers, hpacked mem_cons_self, hpacked (mem_cons_of_mem _ mem_cons_self)] at hfrom
  have hlength := congrArg List.length hmap
  rw [length_map, length_map, length_cons] at hlength
  obtain ⟨-, hall⟩ := unpackFrom_length (wayOf_eq _ _) (by simp) (le_of_eq (by simp : _ = ((1 : ℕ) : ℤ))) hfrom
  have hstraight := (hall (by rw [hlength, length_map, add_comm])).2
  simpa [OneWay, wayOf] using hstraight

theorem roundTrips_of_contiguous {cfg : Config} {arch : UInt32} {hnp : Node} (h : Pattern nodePrefix k nodes)
    (hcontig : cfg.contiguousNodes < (nodes.length + 1 : ℕ)) :
    cfg.RoundTrips arch hnp nodes ↔ cfg.KnowsArchs arch hnp nodes ∧ Ordered nodePrefix k nodes := by
  have hnodename : (nodes.map fun node => cfg.nodename node.name) = nodes.map Node.name :=
    map_congr_left fun node hnode => h.nodename_eq cfg hnode
  have hpack : packNames cfg nodes = packContiguous (nodes.map Node.name) := if_pos hcontig
  have harchs (ho : Ordered nodePrefix k nodes) : cfg.RoundTrips arch hnp nodes ↔ cfg.KnowsArchs arch hnp nodes := by
    obtain ⟨items, hitems, hunpack⟩ := unpackNames_of_ordered (m := nodes.length + 1) h ho
    exact roundTrips_iff_knowsArchs (hpack.trans hitems) fun rest => by rw [hunpack, hnodename]
  refine ⟨fun hround => ?_, fun ⟨hknows, ho⟩ => (harchs ho).mpr hknows⟩
  have ho : Ordered nodePrefix k nodes := by
    have hdecode := hround
    rw [Config.RoundTrips, encodeNodemap_eq, hpack] at hdecode
    cases hitems : packContiguous (nodes.map Node.name) with
    | none =>
      rw [hitems] at hdecode
      cases hdecode
    | some items =>
      rw [hitems, Option.map_some, Option.bind_some] at hdecode
      obtain ⟨names, rest', hunpack, hnames⟩ := names_of_decodeNodemap hdecode
      have hview : ((hnp :: nodes).map cfg.view).map Nid.name =
          cfg.nodename hnp.name :: nodes.map fun node => cfg.nodename node.name := by
        rw [map_map]
        rfl
      rw [hview, hnodename, List.cons.injEq] at hnames
      rw [← hnames.2] at hunpack
      exact ordered_of_unpackNames h hitems hunpack
  exact ⟨(harchs ho).mp hround, ho⟩

/-- A node map survives if processes know the architectures and contiguous numbers go one way. -/
theorem roundTrips_iff (cfg : Config) (arch : UInt32) (hnp : Node) (nodes : List Node) (nodePrefix : List Char) (k : ℕ)
    (h : cfg.contiguousNodes < (nodes.length + 1 : ℕ) → Pattern nodePrefix k nodes) :
    cfg.RoundTrips arch hnp nodes ↔ cfg.KnowsArchs arch hnp nodes ∧
      (cfg.contiguousNodes < (nodes.length + 1 : ℕ) → Ordered nodePrefix k nodes) := by
  by_cases hcontig : cfg.contiguousNodes < (nodes.length + 1 : ℕ)
  · rw [roundTrips_of_contiguous (h hcontig) hcontig, forall_prop_of_true hcontig]
  · rw [roundTrips_of_names hcontig, forall_prop_of_false hcontig, and_true]

def numbered (digits : List Char) : Node := ⟨'n' :: digits, some 0, 7⟩

theorem pattern_numbered {l : List (List Char)}
    (h : (l.all fun digits => digits.length == 2 && digits.all Char.isDigit) = true) :
    Pattern ['n'] 2 (l.map numbered) where
  prefix_ne := by simp
  isAlpha := by
    intro c hc
    rw [mem_singleton.mp hc]
    rfl
  pos := by simp
  names := by
    intro node hnode
    obtain ⟨digits, hmem, rfl⟩ := mem_map.mp hnode
    have hdigits := all_eq_true.mp h digits hmem
    rw [Bool.and_eq_true, beq_iff_eq, all_eq_true] at hdigits
    exact ⟨digits, rfl, hdigits.1, hdigits.2⟩

def oneWayNodes : List Node := [['0', '9'], ['1', '0'], ['1', '1'], ['1', '3'], ['1', '4']].map numbered

def backwardNodes : List Node := [['0', '1'], ['0', '2'], ['0', '4'], ['0', '3']].map numbered

theorem roundTrips_oneWay : (⟨false, 0, true⟩ : Config).RoundTrips 7 (numbered ['0', '0']) oneWayNodes :=
  (roundTrips_iff _ 7 _ oneWayNodes ['n'] 2 fun _ => pattern_numbered rfl).mpr
    ⟨.inr (by decide), fun _ => ⟨by decide, by decide, by decide, by simp +decide [OneWay, Straight, oneWayNodes]⟩⟩

/-- Fewer nodes come back. -/
theorem not_roundTrips_backward : Pattern ['n'] 2 backwardNodes ∧
    ¬(⟨false, 0, true⟩ : Config).RoundTrips 7 (numbered ['0', '0']) backwardNodes := by
  have h : Pattern ['n'] 2 backwardNodes := pattern_numbered rfl
  refine ⟨h, fun hround => ?_⟩
  have hone := ((roundTrips_of_contiguous h (by decide)).mp hround).2.oneWay
  simp +decide [OneWay, Straight, backwardNodes] at hone

end Contiguous

end OpenMPI.Util
