import Mathlib.Data.UInt

/-!
# Sequence trackers

`ompi_seq_tracker_t` keeps the sequence numbers that were seen as a list of ranges, and where it was
in this list last.  Both operations walk from there, `direction` telling which way.
-/

namespace OpenMPI.Class

structure SeqTrackerRange where
  seqIdHigh : UInt32
  seqIdLow : UInt32
  deriving DecidableEq, Repr

/-- `ompi_seq_tracker_t`.  The list is split at `seq_ids_current`: the items before it, the nearest
one first, and the item itself with those behind it, which are none at the end of the list. -/
structure SeqTracker where
  before : List SeqTrackerRange := []
  after : List SeqTrackerRange := []
  deriving DecidableEq, Repr

namespace SeqTrackerRange

def Has (item : SeqTrackerRange) (seqId : UInt32) : Prop :=
  item.seqIdHigh ≥ seqId ∧ item.seqIdLow ≤ seqId

instance (item : SeqTrackerRange) (seqId : UInt32) : Decidable (item.Has seqId) :=
  inferInstanceAs (Decidable (_ ∧ _))

end SeqTrackerRange

namespace SeqTracker

def seqIds (t : SeqTracker) : List SeqTrackerRange := t.before.reverse ++ t.after

def checkNext (seqId : UInt32) :
    List SeqTrackerRange → List SeqTrackerRange → Option SeqTracker
  | _, [] => none
  | before, item :: after =>
    if item.Has seqId then some ⟨before, item :: after⟩
    else if seqId > item.seqIdHigh then checkNext seqId (item :: before) after
    else none

def checkPrev (seqId : UInt32) :
    List SeqTrackerRange → List SeqTrackerRange → Option SeqTracker
  | [], _ => none
  | item :: before, after =>
    if item.Has seqId then some ⟨before, item :: after⟩
    else if seqId > item.seqIdHigh then none
    else if seqId < item.seqIdLow then checkPrev seqId before (item :: after)
    else none

def checkDuplicate (t : SeqTracker) (seqId : UInt32) : Bool × SeqTracker :=
  let found :=
    match t.after with
    | [] => none
    | item :: after =>
      if item.Has seqId then some t
      else if seqId > item.seqIdHigh then checkNext seqId (item :: t.before) after
      else if seqId < item.seqIdLow then checkPrev seqId t.before (item :: after)
      else none
  (found.isSome, found.getD t)

def new (seqId : UInt32) : SeqTrackerRange := ⟨seqId, seqId⟩

/-- The number is in the item, or it is next to it and makes it longer.  An item that the longer one
then touches is consolidated with it. -/
def insertHere (seqId : UInt32) (before : List SeqTrackerRange) (item : SeqTrackerRange)
    (after : List SeqTrackerRange) : Option SeqTracker :=
  if item.Has seqId then some ⟨before, item :: after⟩
  else if item.seqIdHigh + 1 = seqId then
    match after with
    | nextItem :: rest =>
      if nextItem.seqIdLow = seqId + 1 then
        some ⟨before, { item with seqIdHigh := nextItem.seqIdHigh } :: rest⟩
      else some ⟨before, { item with seqIdHigh := seqId } :: after⟩
    | [] => some ⟨before, { item with seqIdHigh := seqId } :: after⟩
  else if item.seqIdLow - 1 = seqId then
    match before with
    | prevItem :: rest =>
      if prevItem.seqIdHigh = seqId - 1 then
        some ⟨rest, { item with seqIdLow := prevItem.seqIdLow } :: after⟩
      else some ⟨before, { item with seqIdLow := seqId } :: after⟩
    | [] => some ⟨before, { item with seqIdLow := seqId } :: after⟩
  else none

/-- `direction` is 1. -/
def insertNext (seqId : UInt32) : List SeqTrackerRange → List SeqTrackerRange → SeqTracker
  | before, [] => ⟨before, [new seqId]⟩
  | before, item :: after =>
    match insertHere seqId before item after with
    | some t => t
    | none =>
      if seqId > item.seqIdHigh then insertNext seqId (item :: before) after
      -- one item too far
      else ⟨before, new seqId :: item :: after⟩

/-- `direction` is -1. -/
def insertPrev (seqId : UInt32) : List SeqTrackerRange → List SeqTrackerRange → SeqTracker
  | [], after => ⟨[], new seqId :: after⟩
  | item :: before, after =>
    match insertHere seqId before item after with
    | some t => t
    | none =>
      -- one item too far
      if seqId > item.seqIdHigh then ⟨item :: before, new seqId :: after⟩
      else insertPrev seqId before (item :: after)

def insert (t : SeqTracker) (seqId : UInt32) : SeqTracker :=
  match t.after with
  | [] => ⟨t.before, [new seqId]⟩
  | item :: after =>
    match insertHere seqId t.before item after with
    | some t' => t'
    | none =>
      if seqId > item.seqIdHigh then insertNext seqId (item :: t.before) after
      else if seqId < item.seqIdLow then insertPrev seqId t.before (item :: after)
      else t

inductive Call
  | insert (seqId : UInt32)
  | checkDuplicate (seqId : UInt32)
  deriving DecidableEq, Repr

def step (t : SeqTracker) : Call → SeqTracker
  | .insert seqId => t.insert seqId
  | .checkDuplicate seqId => (t.checkDuplicate seqId).2

def run (calls : List Call) : SeqTracker := calls.foldl step {}

def inserted (calls : List Call) : List UInt32 :=
  calls.filterMap fun
    | .insert seqId => some seqId
    | .checkDuplicate _ => none

end SeqTracker

end OpenMPI.Class
