import Mathlib.Algebra.Order.Ring.Int
import OpenMPI.Lib.Decimal

/-!
# Rules for collectives from a file

A rules file is the string of its characters.  Reading it gives a table of rules: for each collective
its communicator sizes, for each of them message sizes, for each of them an algorithm with its
parameters.  Allocations succeed.
-/

namespace OpenMPI.Coll

structure MsgRule where
  mpiComsize : ℕ
  algRuleId : ℕ
  comRuleId : ℕ
  msgRuleId : ℕ
  msgSize : ℕ
  resultAlg : ℕ
  resultTopoFaninout : ℕ
  resultSegsize : ℕ
  resultMaxRequests : ℕ
  deriving DecidableEq

/-- `ompi_coll_com_rule_t`, with `n_msg_sizes` the length of `msgRules`. -/
structure ComRule where
  mpiComsize : ℕ
  algRuleId : ℕ
  comRuleId : ℕ
  msgRules : List MsgRule
  deriving DecidableEq

/-- `ompi_coll_alg_rule_t`, with `n_com_sizes` the length of `comRules`. -/
structure AlgRule where
  algRuleId : ℕ
  comRules : List ComRule
  deriving DecidableEq

def mkAlgRules (nAlg : ℕ) : List AlgRule := (List.range nAlg).map fun i => ⟨i, []⟩

def isSpace (c : Char) : Bool := c ∈ [' ', '\t', '\n', '\x0b', '\x0c', '\r']

/-- `fscanf (fptr, "%d", &val)`: nothing at the end of the file, else the number or none (no digits
follow), with what is not read yet.  A number is cut to the range of a `long`, then to an `int`. -/
def scanInt (s : List Char) : Option (Option ℤ × List Char) :=
  match s.dropWhile isSpace with
  | [] => none
  | c :: s =>
    let (sign, s) : ℤ × List Char := if c = '-' then (-1, s) else if c = '+' then (1, s) else (1, c :: s)
    let digits := s.takeWhile Char.isDigit
    if digits.isEmpty then some (none, s)
    else
      let long := max (-2 ^ 63) (min (2 ^ 63 - 1) (sign * (Lib.digitsValue digits : ℤ)))
      some (some (long.bmod (2 ^ 32)), s.drop digits.length)

def skiptonewline (s : List Char) : List Char := (s.dropWhile (· ≠ '\n')).drop 1

def myeof : ℤ := -999

def getnextLoop : ℕ → List Char → ℤ × List Char
  | 0, s => (myeof, s)
  | fuel + 1, s =>
    match scanInt s with
    | none => (myeof, [])
    | some (some val, s) => (val, s)
    | some (none, []) => getnextLoop fuel []
    | some (none, trash :: s) => getnextLoop fuel (if trash = '#' then skiptonewline s else s)

/-- `getnext`; every round reads a character unless the file ends. -/
def getnext (s : List Char) : ℤ × List Char := getnextLoop (s.length + 2) s

/-- A number that must not be negative: `goto on_file_error` otherwise. -/
def getcount (s : List Char) : Except ℤ (ℕ × List Char) :=
  let (val, s) := getnext s
  if val < 0 then .error (-1) else .ok (val.toNat, s)

/-- A `for` loop from `i` over `count` entries of an array. -/
def readEach {α : Type*} (read : ℕ → List Char → Except ℤ (α × List Char)) :
    ℕ → ℕ → List Char → Except ℤ (List α × List Char)
  | 0, _, s => .ok ([], s)
  | count + 1, i, s => do
    let (x, s) ← read i s
    let (xs, s) ← readEach read count (i + 1) s
    .ok (x :: xs, s)

def readMsgRule (ci ncs cs nms : ℕ) (s : List Char) : Except ℤ (MsgRule × List Char) := do
  let (ms, s) ← getcount s
  let (alg, s) ← getcount s
  let (faninout, s) ← getcount s
  let (ss, s) ← getcount s
  if nms = 0 ∧ ms ≠ 0 then .error (-1)
  else .ok (⟨cs, ci, ncs, nms, ms, alg, faninout, ss, 0⟩, s)

def readComRule (ci ncs : ℕ) (s : List Char) : Except ℤ (ComRule × List Char) := do
  let (cs, s) ← getcount s
  let (nms, s) ← getcount s
  let (msgRules, s) ← readEach (readMsgRule ci ncs cs) nms 0 s
  .ok (⟨cs, ci, ncs, msgRules⟩, s)

def readAlgRules (nCollectives : ℕ) : ℕ → List Char → List AlgRule → Except ℤ (List AlgRule)
  | 0, _, algRules => .ok algRules
  | x + 1, s, algRules => do
    let (ci, s) ← getcount s
    if ci ≥ nCollectives then .error (-1)
    else if (algRules[ci]?.map AlgRule.algRuleId) ≠ some ci then .error (-4)
    else
      let (ncs, s) ← getcount s
      let (comRules, s) ← readEach (readComRule ci) ncs 0 s
      readAlgRules nCollectives x s (algRules.set ci ⟨ci, comRules⟩)

/-- `ompi_coll_tuned_read_rules_config_file`: how many collectives were read, and the table. -/
def readRulesConfigFile (file : Option (List Char)) (nCollectives : ℕ) : Except ℤ (ℕ × List AlgRule) :=
  if nCollectives < 1 then .error (-3)
  else
    match file with
    | none => .error (-1)
    | some s => do
      let (x, s) ← getcount s
      if x > nCollectives then .error (-1)
      else
        let algRules ← readAlgRules nCollectives x s (mkAlgRules nCollectives)
        .ok (x, algRules)

/-- The loops of the two queries: the best entry so far is replaced until one is above the given size. -/
def nearest {α : Type*} (size : α → ℕ) (given : ℕ) : α → List α → α
  | best, [] => best
  | best, p :: rest => if size p > given then best else nearest size given p rest

def getComRulePtr (rules : Option (List AlgRule)) (algId mpiComsize : ℕ) : Option ComRule := do
  let rules ← rules
  let algP ← rules[algId]?
  match algP.comRules with
  | [] => none
  | p :: rest => some (nearest ComRule.mpiComsize mpiComsize p (p :: rest))

/-- `best_msg_p` of `ompi_coll_tuned_get_target_method_params`, none where the function returns before
it looks for one. -/
def bestMsgP (baseComRule : Option ComRule) (mpiMsgsize : ℕ) : Option MsgRule := do
  let base ← baseComRule
  match base.msgRules with
  | [] => none
  | p :: rest => some (nearest MsgRule.msgSize mpiMsgsize p (p :: rest))

/-- What `ompi_coll_tuned_get_target_method_params` writes through its pointers. -/
structure MethodParams where
  topoFaninout : ℕ
  segsize : ℕ
  maxRequests : ℕ
  deriving DecidableEq

/-- `ompi_coll_tuned_get_target_method_params`: 0 stands for the fixed decision. -/
def getTargetMethodParams (baseComRule : Option ComRule) (mpiMsgsize : ℕ) (result : MethodParams) : ℕ × MethodParams :=
  match bestMsgP baseComRule mpiMsgsize with
  | none => (0, result)
  | some best => (best.resultAlg, ⟨best.resultTopoFaninout, best.resultSegsize, best.resultMaxRequests⟩)

/-- The message rule that a collective on a communicator of `mpiComsize` processes applies to a message
of `mpiMsgsize` bytes. -/
def appliedRule (rules : Option (List AlgRule)) (algId mpiComsize mpiMsgsize : ℕ) : Option MsgRule :=
  bestMsgP (getComRulePtr rules algId mpiComsize) mpiMsgsize

end OpenMPI.Coll
