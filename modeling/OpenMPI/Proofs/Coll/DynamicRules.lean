import OpenMPI.Coll.DynamicRules
import OpenMPI.Lib.Run

/-!
# Which rule is applied

The look-ups stop at the first entry above the given size and take the one before it, or the first
entry of all (`ends_iff`).  The reader checks that the first message size is 0, and nothing else about
the order; so the rule that is applied is the right one only where the entries are in order around the
given sizes (`chosen_iff`).
-/

namespace OpenMPI.Coll

open List

open Lib (bind_eq_ok)

theorem readEach_getElem {α : Type*} {read : ℕ → List Char → Except ℤ (α × List Char)} {count i : ℕ}
    {s s' : List Char} {xs : List α} (h : readEach read count i s = .ok (xs, s')) {k : ℕ} {x : α}
    (hx : xs[k]? = some x) : ∃ t t', read (i + k) t = .ok (x, t') := by
  induction count generalizing i s s' xs k with
  | zero =>
    cases h
    simp at hx
  | succ count ih =>
    obtain ⟨⟨y, t⟩, hfirst, h⟩ := bind_eq_ok h
    obtain ⟨⟨ys, t'⟩, hrest, h⟩ := bind_eq_ok h
    cases h
    rcases k with _ | k
    · cases hx
      exact ⟨s, t, hfirst⟩
    · obtain ⟨u, u', hread⟩ := ih hrest hx
      refine ⟨u, u', ?_⟩
      rw [add_comm k, ← add_assoc]
      exact hread

def Numbered (coms : List ComRule) : Prop :=
  ∀ (i : ℕ) (c : ComRule), coms[i]? = some c →
    (∀ m ∈ c.msgRules, m.comRuleId = i) ∧ ∀ m ∈ c.msgRules.head?, m.msgSize = 0

theorem numbered_readEach {ci ncs : ℕ} {s s' : List Char} {coms : List ComRule}
    (h : readEach (readComRule ci) ncs 0 s = .ok (coms, s')) : Numbered coms := by
  intro i c hc
  obtain ⟨t, t', hread⟩ := readEach_getElem h hc
  obtain ⟨⟨cs, t₁⟩, -, hread⟩ := bind_eq_ok hread
  obtain ⟨⟨nms, t₂⟩, -, hread⟩ := bind_eq_ok hread
  obtain ⟨⟨msgRules, t₃⟩, hmsgs, hread⟩ := bind_eq_ok hread
  cases hread
  -- what is known of one message rule
  have hmsg (k : ℕ) (m : MsgRule) (hm : msgRules[k]? = some m) : m.comRuleId = i ∧ (k = 0 → m.msgSize = 0) := by
    obtain ⟨u, u', hread⟩ := readEach_getElem hmsgs hm
    obtain ⟨⟨ms, u₁⟩, -, hread⟩ := bind_eq_ok hread
    obtain ⟨⟨alg, u₂⟩, -, hread⟩ := bind_eq_ok hread
    obtain ⟨⟨faninout, u₃⟩, -, hread⟩ := bind_eq_ok hread
    obtain ⟨⟨ss, u₄⟩, -, hread⟩ := bind_eq_ok hread
    dsimp only at hread
    split at hread
    · cases hread
    · rename_i hfirst
      cases hread
      exact ⟨zero_add i, fun hk => by_contra fun hne => hfirst ⟨by omega, hne⟩⟩
  constructor
  · intro m hm
    obtain ⟨k, hk⟩ := mem_iff_getElem?.mp hm
    exact (hmsg k m hk).1
  · intro m hm
    rw [Option.mem_def, head?_eq_getElem?] at hm
    exact (hmsg 0 m hm).2 rfl

theorem numbered_nil : Numbered [] := by
  intro i c hc
  simp at hc

theorem numbered_readAlgRules {n x : ℕ} {s : List Char} {table rules : List AlgRule}
    (htable : ∀ a ∈ table, Numbered a.comRules) (h : readAlgRules n x s table = .ok rules) :
    ∀ a ∈ rules, Numbered a.comRules := by
  induction x generalizing s table with
  | zero =>
    cases h
    exact htable
  | succ x ih =>
    obtain ⟨⟨ci, t⟩, -, h⟩ := bind_eq_ok h
    dsimp only at h
    split at h
    · cases h
    · split at h
      · cases h
      · obtain ⟨⟨ncs, t₁⟩, -, h⟩ := bind_eq_ok h
        obtain ⟨⟨coms, t₂⟩, hcoms, h⟩ := bind_eq_ok h
        refine ih (fun a ha => ?_) h
        rcases mem_or_eq_of_mem_set ha with hmem | rfl
        · exact htable a hmem
        · exact numbered_readEach hcoms

def comRulesOf (rules : List AlgRule) (algId : ℕ) : List ComRule := (rules[algId]?.map AlgRule.comRules).getD []

theorem numbered_read {file : Option (List Char)} {n count : ℕ} {rules : List AlgRule}
    (h : readRulesConfigFile file n = .ok (count, rules)) (algId : ℕ) : Numbered (comRulesOf rules algId) := by
  have hall : ∀ a ∈ rules, Numbered a.comRules := by
    unfold readRulesConfigFile at h
    split at h
    · cases h
    · rcases file with _ | s
      · cases h
      · obtain ⟨⟨x, t⟩, -, h⟩ := bind_eq_ok h
        dsimp only at h
        split at h
        · cases h
        · obtain ⟨table, htable, h⟩ := bind_eq_ok h
          cases h
          refine numbered_readAlgRules (fun a ha => ?_) htable
          obtain ⟨i, -, rfl⟩ := mem_map.mp ha
          exact numbered_nil
  rw [comRulesOf]
  rcases ha : rules[algId]? with _ | a
  · exact numbered_nil
  · exact hall a (mem_of_getElem? ha)

section Nearest

variable {α : Type*} {size : α → ℕ} {given : ℕ}

/-- The entry before the first one above the given size, or the first entry if that is above it. -/
def Ends (size : α → ℕ) (given : ℕ) (l : List α) (r : α) : Prop :=
  (∃ after, l = r :: after ∧ given < size r) ∨
  ∃ before after, l = before ++ r :: after ∧ (∀ x ∈ before, size x ≤ given) ∧ size r ≤ given ∧
    ∀ x ∈ after.head?, given < size x

theorem nearest_append {before after : List α} {r : α} (hbefore : ∀ x ∈ before, size x ≤ given)
    (hr : size r ≤ given) (hafter : ∀ x ∈ after.head?, given < size x) (best : α) :
    nearest size given best (before ++ r :: after) = r := by
  induction before generalizing best with
  | nil =>
    rw [nil_append, nearest, if_neg (by omega)]
    rcases after with _ | ⟨x, after⟩
    · rfl
    · rw [nearest, if_pos (hafter x rfl)]
  | cons x before ih =>
    have hx := hbefore x mem_cons_self
    rw [cons_append, nearest, if_neg (by omega)]
    exact ih (fun y hy => hbefore y (mem_cons_of_mem x hy)) x

theorem exists_ends {l : List α} (hl : l ≠ []) : ∃ r, Ends size given l r := by
  induction l with
  | nil => exact absurd rfl hl
  | cons p rest ih =>
    rcases lt_or_ge given (size p) with habove | hp
    · exact ⟨p, .inl ⟨rest, rfl, habove⟩⟩
    · rcases rest with _ | ⟨q, rest⟩
      · exact ⟨p, .inr ⟨[], [], rfl, by simp, hp, by simp⟩⟩
      · obtain ⟨r, ⟨after, hsplit, habove⟩ | ⟨before, after, hsplit, hbefore, hr, hafter⟩⟩ := ih (by simp)
        · refine ⟨p, .inr ⟨[], q :: rest, rfl, by simp, hp, ?_⟩⟩
          rw [hsplit]
          simpa using habove
        · refine ⟨r, .inr ⟨p :: before, after, by rw [hsplit, cons_append], ?_, hr, hafter⟩⟩
          exact forall_mem_cons.mpr ⟨hp, hbefore⟩

theorem ends_iff {p r : α} {rest : List α} :
    Ends size given (p :: rest) r ↔ nearest size given p (p :: rest) = r := by
  have hends {r : α} (h : Ends size given (p :: rest) r) : nearest size given p (p :: rest) = r := by
    rcases h with ⟨after, hsplit, habove⟩ | ⟨before, after, hsplit, hbefore, hr, hafter⟩
    · cases hsplit
      rw [nearest, if_pos habove]
    · rw [hsplit]
      exact nearest_append hbefore hr hafter p
  constructor
  · exact hends
  · rintro rfl
    obtain ⟨r, hr⟩ : ∃ r, Ends size given (p :: rest) r := exists_ends (cons_ne_nil p rest)
    rwa [hends hr]

end Nearest

def Greatest {α : Type*} (size : α → ℕ) (given : ℕ) (l : List α) (r : α) : Prop :=
  r ∈ l ∧ size r ≤ given ∧ ∀ x ∈ l, size x ≤ given → size x ≤ size r

/-- The rule for a message: the greatest message size within the greatest communicator size, or none
if there is none. -/
def Chosen (coms : List ComRule) (comsize msgsize : ℕ) : Option MsgRule → Prop
  | some m => ∃ c, Greatest ComRule.mpiComsize comsize coms c ∧ Greatest MsgRule.msgSize msgsize c.msgRules m
  | none =>
    (∀ c ∈ coms, comsize < c.mpiComsize) ∨
    ∃ c, Greatest ComRule.mpiComsize comsize coms c ∧ ∀ m ∈ c.msgRules, msgsize < m.msgSize

/-- The entry before the first one that is too large is the greatest one, of the communicator sizes and
within it of the message sizes.  Without message sizes it does not matter which one it is, as long as
there is no rule. -/
def RulesInOrder (coms : List ComRule) (comsize msgsize : ℕ) : Prop :=
  ∀ c, Ends ComRule.mpiComsize comsize coms c →
    (c.msgRules = [] ∧ ((∀ c ∈ coms, comsize < c.mpiComsize) ∨
      ∃ c', Greatest ComRule.mpiComsize comsize coms c' ∧ c'.msgRules = [])) ∨
    (c.msgRules ≠ [] ∧ Greatest ComRule.mpiComsize comsize coms c ∧
      ∀ m, Ends MsgRule.msgSize msgsize c.msgRules m → Greatest MsgRule.msgSize msgsize c.msgRules m)

theorem getComRulePtr_eq (rules : List AlgRule) (algId comsize : ℕ) :
    getComRulePtr (some rules) algId comsize =
      match comRulesOf rules algId with
      | [] => none
      | p :: rest => some (nearest ComRule.mpiComsize comsize p (p :: rest)) := by
  rw [comRulesOf]
  change ((rules[algId]?).bind _) = _
  rcases rules[algId]? with _ | a <;> rfl

/-- The rule of an accepted file that is applied is the right one exactly if the rules are in order
around the given sizes. -/
theorem chosen_iff {file : Option (List Char)} {n count : ℕ} {rules : List AlgRule}
    (h : readRulesConfigFile file n = .ok (count, rules)) (algId comsize msgsize : ℕ) :
    Chosen (comRulesOf rules algId) comsize msgsize (appliedRule (some rules) algId comsize msgsize) ↔
      RulesInOrder (comRulesOf rules algId) comsize msgsize := by
  have hnumbered := numbered_read h algId
  rw [appliedRule, getComRulePtr_eq]
  generalize comRulesOf rules algId = coms at hnumbered ⊢
  rcases coms with _ | ⟨p, rest⟩
  · refine iff_of_true (.inl (by simp)) fun c hc => ?_
    rcases hc with ⟨after, hsplit, -⟩ | ⟨before, after, hsplit, -⟩ <;> simp at hsplit
  · -- only one entry can be the one the walk ends at
    rw [RulesInOrder]
    simp only [ends_iff, forall_eq']
    set c := nearest ComRule.mpiComsize comsize p (p :: rest) with hc
    -- a message rule belongs to one communicator rule only
    have hsame {c₁ c₂ : ComRule} {m : MsgRule} (h₁ : c₁ ∈ p :: rest) (h₂ : c₂ ∈ p :: rest) (hm₁ : m ∈ c₁.msgRules)
        (hm₂ : m ∈ c₂.msgRules) : c₁ = c₂ := by
      obtain ⟨i, hi⟩ := mem_iff_getElem?.mp h₁
      obtain ⟨j, hj⟩ := mem_iff_getElem?.mp h₂
      have hij : i = j := ((hnumbered i c₁ hi).1 m hm₁).symm.trans ((hnumbered j c₂ hj).1 m hm₂)
      rw [hij, hj] at hi
      exact (Option.some.inj hi).symm
    -- the first message size is 0, so that none is above a size only if there are none
    have hempty {c₁ : ComRule} (h₁ : c₁ ∈ p :: rest) : (∀ m ∈ c₁.msgRules, msgsize < m.msgSize) ↔ c₁.msgRules = [] := by
      constructor
      · intro habove
        obtain ⟨i, hi⟩ := mem_iff_getElem?.mp h₁
        rcases hmsgs : c₁.msgRules with _ | ⟨m, msgs⟩
        · rfl
        · have hzero := (hnumbered i c₁ hi).2 m (by rw [hmsgs]; rfl)
          have := habove m (by rw [hmsgs]; exact mem_cons_self)
          omega
      · intro hnil
        simp [hnil]
    have hmem : c ∈ p :: rest := by
      have hends : Ends ComRule.mpiComsize comsize (p :: rest) c := ends_iff.mpr hc.symm
      rcases hends with ⟨after, hsplit, -⟩ | ⟨before, after, hsplit, -⟩ <;> simp [hsplit]
    rcases hmsgs : c.msgRules with _ | ⟨m₀, msgs⟩
    · have hnone : bestMsgP (some c) msgsize = none := by
        simp [bestMsgP, hmsgs]
      rw [hnone, Chosen]
      simp only [true_and, ne_eq, not_true_eq_false, false_and, or_false]
      refine or_congr_right (exists_congr fun c₁ => and_congr_right fun hgreatest => hempty hgreatest.1)
    · have hsome : bestMsgP (some c) msgsize = some (nearest MsgRule.msgSize msgsize m₀ (m₀ :: msgs)) := by
        simp [bestMsgP, hmsgs]
      rw [hsome, Chosen]
      simp only [reduceCtorEq, false_and, false_or, ne_eq, not_false_eq_true, true_and, ends_iff, forall_eq']
      set m := nearest MsgRule.msgSize msgsize m₀ (m₀ :: msgs) with hm
      have hmmem : m ∈ c.msgRules := by
        have hends : Ends MsgRule.msgSize msgsize (m₀ :: msgs) m := ends_iff.mpr hm.symm
        rw [hmsgs]
        rcases hends with ⟨after, hsplit, -⟩ | ⟨before, after, hsplit, -⟩ <;> simp [hsplit]
      constructor
      · rintro ⟨c₁, hgreatest, hbest⟩
        obtain rfl : c₁ = c := hsame hgreatest.1 hmem hbest.1 hmmem
        exact ⟨hgreatest, hmsgs ▸ hbest⟩
      · rintro ⟨hgreatest, hbest⟩
        exact ⟨c, hgreatest, by rw [hmsgs]; exact hbest⟩

def onlyFour : List Char := "1 0 1 4 1 0 2 0 0".toList

def ruleFour : MsgRule := ⟨4, 0, 0, 0, 0, 2, 0, 0, 0⟩

theorem not_chosen_two :
    readRulesConfigFile (some onlyFour) 1 = .ok (1, [⟨0, [⟨4, 0, 0, [ruleFour]⟩]⟩]) ∧
    ¬Chosen (comRulesOf [⟨0, [⟨4, 0, 0, [ruleFour]⟩]⟩] 0) 2 100
      (appliedRule (some [⟨0, [⟨4, 0, 0, [ruleFour]⟩]⟩]) 0 2 100) := by
  refine ⟨by rfl, ?_⟩
  rintro ⟨c, ⟨hmem, hle, -⟩, -⟩
  rw [mem_singleton.mp hmem] at hle
  exact absurd hle (by decide)

theorem chosen_eight :
    Chosen (comRulesOf [⟨0, [⟨4, 0, 0, [ruleFour]⟩]⟩] 0) 8 100
      (appliedRule (some [⟨0, [⟨4, 0, 0, [ruleFour]⟩]⟩]) 0 8 100) := by
  have hread : readRulesConfigFile (some onlyFour) 1 = .ok (1, [⟨0, [⟨4, 0, 0, [ruleFour]⟩]⟩]) := by rfl
  refine (chosen_iff hread 0 8 100).mpr ?_
  intro c hc
  obtain rfl := ends_iff.mp hc
  refine .inr ⟨by simp [nearest], ⟨by simp [comRulesOf, nearest], by simp [nearest], by simp [comRulesOf, nearest]⟩, ?_⟩
  intro m hm
  obtain rfl := ends_iff.mp hm
  exact ⟨by simp [nearest], by simp [nearest, ruleFour], by simp [nearest]⟩

end OpenMPI.Coll
