import OpenMPI.Btl.Base

/-!
# The map of the nodes

`nidmap`: the HNP packs the names, daemons and architectures of all nodes for the daemons and processes.  Where
node names are contiguous, ranges of numbers are packed in place of the names.
-/

namespace OpenMPI.Util

open Btl

structure Node where
  name : List Char
  daemon : Option UInt32
  arch : UInt32

structure Nid where
  name : List Char
  daemon : UInt32
  arch : UInt32
  deriving DecidableEq

def vpidInvalid : UInt32 := 0xFFFFFFFF

def maxNodePrefix : ℕ := 50

inductive Item
  | int32 (n : ℤ)
  | uint8 (n : ℕ)
  | int8 (n : ℤ)
  | string (s : List Char)
  | vpids (l : List UInt32)
  | int32s (l : List UInt32)

def contigNodeCmd : ℕ := 1

def nonContigNodeCmd : ℕ := 2

/-- `orte_keep_fqdn_hostnames`, `orte_contiguous_nodes` and `OMPI_ENABLE_HETEROGENEOUS_SUPPORT`. -/
structure Config where
  keepFqdnHostnames : Bool
  contiguousNodes : ℤ
  heterogeneousSupport : Bool

def Config.nodename (cfg : Config) (name : List Char) : List Char :=
  if cfg.keepFqdnHostnames then name else name.takeWhile (· ≠ '.')

def strtol (s : List Char) : ℤ :=
  let digits (s : List Char) : ℕ := Nat.ofDigitChars 10 (s.takeWhile Char.isDigit) 0
  match s.dropWhile Char.isWhitespace with
  | '-' :: s => max (-(digits s : ℤ)) (-2 ^ 63)
  | '+' :: s => min (digits s : ℤ) (2 ^ 63 - 1)
  | s => min (digits s : ℤ) (2 ^ 63 - 1)

/-- The prefix of a node name, and what is after it: digits first.  Without digits there is no index. -/
def splitName : List Char → Option (List Char × List Char)
  | [] => none
  | c :: s =>
    match s.dropWhile Char.isAlpha with
    | [] => none
    | d :: rest => if d.isDigit then some (c :: s.takeWhile Char.isAlpha, d :: rest) else none

/-- The end of each range and the start of the next one, from the third node on. -/
def packRanges (len : ℕ) : (lastnode : ℤ) → (names : List (List Char)) → List Item
  | lastnode, [] => [.int32 lastnode, .int32 (-1)]
  | lastnode, name :: names =>
    let nodenum := int32 (strtol (name.drop len))
    let step := nodenum - lastnode
    let step := if step < 0 then lastnode - nodenum else step
    (if step > 1 then [.int32 lastnode, .int32 nodenum] else []) ++ packRanges len nodenum names

/-- The names of contiguous nodes.  A prefix that does not fit its buffer and a missing third node have no result. -/
def packContiguous : List (List Char) → Option (List Item)
  | name :: name' :: names => do
    let (nodePrefix, index) ← splitName name
    if maxNodePrefix ≤ nodePrefix.length then none
    else
      let firstnode := int32 (strtol index)
      let numDigs := (index.takeWhile Char.isDigit).length % 2 ^ 8
      let lastnode := int32 (strtol (name'.drop nodePrefix.length))
      some ([.uint8 contigNodeCmd, .string nodePrefix, .uint8 numDigs, .int32 firstnode,
        .int8 (if lastnode - firstnode < 0 then 0 else 1)] ++
        packRanges nodePrefix.length firstnode (name' :: names))
  | _ => none

/-- `orte_util_encode_nodemap` for the node of the HNP and the others. -/
def encodeNodemap (cfg : Config) (hnp : Node) (nodes : List Node) : Option (List Item) := do
  let numNodes := nodes.length + 1
  let names ←
    if cfg.contiguousNodes < numNodes then packContiguous (nodes.map Node.name)
    else some (.uint8 nonContigNodeCmd :: nodes.map fun node => .string (cfg.nodename node.name))
  let vpids := (hnp :: nodes).map fun node => node.daemon.getD vpidInvalid
  let archs :=
    if cfg.heterogeneousSupport ∧ ∃ node ∈ nodes, node.arch ≠ hnp.arch then
      [.uint8 1, .int32s ((hnp :: nodes).map Node.arch)]
    else [.uint8 0]
  some ([.int32 numNodes, .string (cfg.nodename hnp.name)] ++ names ++ [.vpids vpids] ++ archs)

def printInt (i : ℤ) : List Char :=
  if i < 0 then '-' :: Nat.toDigits 10 i.natAbs else Nat.toDigits 10 i.natAbs

/-- The name of a node; nine characters of its number fit `digits`. -/
def nodeName (nodePrefix : List Char) (numDigs : ℕ) (i : ℤ) : List Char :=
  nodePrefix ++ List.replicate (numDigs - (printInt i).length) '0' ++ ((printInt i).take 9).take numDigs

/-- The numbers of a range.  One that steps away from its end has no result. -/
def rangeLoop (endrange step : ℤ) : (fuel : ℕ) → (i : ℤ) → Option (List ℤ)
  | 0, _ => none
  | fuel + 1, i => if i ≠ endrange then (rangeLoop endrange step fuel (i + step)).map (i :: ·) else some []

/-- The ranges, and what is packed after them. -/
def unpackRanges (step : ℤ) : (lastnode endrange : ℤ) → List Item → Option (List ℤ × List Item)
  | lastnode, endrange, .int32 next :: items => do
    let range ← rangeLoop (endrange + step) step ((endrange + step - lastnode).natAbs + 1) lastnode
    if next = -1 then some (range, items)
    else match items with
      | .int32 endrange :: items => do
        let (ranges, items) ← unpackRanges step next endrange items
        some (range ++ ranges, items)
      | _ => none
  | _, _, _ => none

/-- The names of the nodes after that of the HNP, and what is packed after them. -/
def unpackNames (numNodes : ℕ) : List Item → Option (List (List Char) × List Item)
  | .uint8 command :: items =>
    if command = contigNodeCmd then
      match items with
      | .string nodePrefix :: .uint8 numDigs :: .int32 lastnode :: .int8 incdec :: .int32 endrange :: items => do
        let (numbers, items) ← unpackRanges (if incdec = 0 then -1 else 1) lastnode endrange items
        some (numbers.map (nodeName nodePrefix numDigs), items)
      | _ => none
    else do
      let names ← (items.take (numNodes - 1)).mapM fun
        | .string name => some name
        | _ => none
      if names.length = numNodes - 1 then some (names, items.drop (numNodes - 1)) else none
  | _ => none

def setDaemons : List Nid → List UInt32 → List Nid
  | nid :: nids, vpid :: vpids => { nid with daemon := vpid } :: setDaemons nids vpids
  | nids, _ => nids

def setArchs : List Nid → List UInt32 → List Nid
  | nid :: nids, arch :: archs => { nid with arch := arch } :: setArchs nids archs
  | nids, _ => nids

/-- `orte_util_decode_nodemap` in a process of architecture `arch`.  There must be as many nodes as were told. -/
def decodeNodemap (arch : UInt32) : List Item → Option (List Nid)
  | .int32 numNodes :: .string hnp :: items => do
    let (names, items) ← unpackNames numNodes.toNat items
    let nids := (hnp :: names).map fun name => ⟨name, vpidInvalid, arch⟩
    if nids.length < numNodes then none
    else match items with
      | [.vpids vpids, .uint8 0] => some (setDaemons nids vpids)
      | [.vpids vpids, .uint8 _, .int32s archs] => some (setArchs (setDaemons nids vpids) archs)
      | _ => none
  | _ => none

def Config.view (cfg : Config) (node : Node) : Nid :=
  ⟨cfg.nodename node.name, node.daemon.getD vpidInvalid, node.arch⟩

def Config.RoundTrips (cfg : Config) (arch : UInt32) (hnp : Node) (nodes : List Node) : Prop :=
  (encodeNodemap cfg hnp nodes).bind (decodeNodemap arch) = some ((hnp :: nodes).map cfg.view)

structure Contiguous (nodePrefix : List Char) (k : ℕ) (name : List Char) (digits : List Char) : Prop where
  name_eq : name = nodePrefix ++ digits
  length_eq : digits.length = k
  isDigit : ∀ c ∈ digits, c.isDigit = true

/-- The names are contiguous, with some digits. -/
structure Pattern (nodePrefix : List Char) (k : ℕ) (nodes : List Node) : Prop where
  prefix_ne : nodePrefix ≠ []
  isAlpha : ∀ c ∈ nodePrefix, c.isAlpha = true
  pos : 0 < k
  names : ∀ node ∈ nodes, ∃ digits, Contiguous nodePrefix k node.name digits

def Node.index (len : ℕ) (node : Node) : ℕ := Nat.ofDigitChars 10 (node.name.drop len) 0

/-- A number is a step in the direction of the map from the last one, or it is not next to it. -/
def Straight (step : ℤ) : (lastnode : ℤ) → List ℤ → Prop
  | _, [] => True
  | lastnode, n :: numbers => (n - lastnode = step ∨ 1 < (n - lastnode).natAbs) ∧ Straight step n numbers

/-- The direction of the first two numbers is that of all next ones. -/
def OneWay : List ℤ → Prop
  | a :: b :: numbers => Straight (if b - a < 0 then -1 else 1) a (b :: numbers)
  | _ => False

/-- The architecture that a process takes for all nodes is theirs, where none is sent. -/
def Config.KnowsArchs (cfg : Config) (arch : UInt32) (hnp : Node) (nodes : List Node) : Prop :=
  (cfg.heterogeneousSupport = true ∧ ∃ node ∈ nodes, node.arch ≠ hnp.arch) ∨ ∀ node ∈ hnp :: nodes, node.arch = arch

structure Ordered (nodePrefix : List Char) (k : ℕ) (nodes : List Node) : Prop where
  prefix_lt : nodePrefix.length < maxNodePrefix
  digits_lt : k < 2 ^ 8
  index_lt : ∀ node ∈ nodes, node.index nodePrefix.length < 10 ^ 9
  oneWay : OneWay (nodes.map fun node => (node.index nodePrefix.length : ℤ))

end OpenMPI.Util
