import Mathlib.Algebra.Order.Ring.Int
import Mathlib.Data.List.Basic

/-!
# Arrays of strings

`opal/util/argv.c`: the array is changed in place, and a `NULL` ends it.  Memory is always there.
-/

namespace OpenMPI.Util.Argv

/-- The characters of a string before the one that ends it. -/
abbrev Str := List UInt8

inductive Cell
  | str (s : Str)
  | null
  /-- What `realloc` adds. -/
  | junk

/-- An array that is allocated, or `NULL`. -/
abbrev Items := Option (List Cell)

def argsize : ℕ := 128

def realloc (cells : List Cell) (size : ℕ) : List Cell :=
  cells.take size ++ List.replicate (size - cells.length) .junk

def countLoop : List Cell → ℕ
  | .str _ :: p => countLoop p + 1
  | _ => 0

def count : Items → ℕ
  | none => 0
  | some cells => countLoop cells

def appendNosize (argv : Items) (arg : Str) : Items :=
  match argv with
  | none => some [.str arg, .null]
  | some cells =>
    let argc := countLoop cells
    some (((realloc cells (argc + 2)).set argc (.str arg)).set (argc + 1) .null)

/-- `opal_argv_append`, which gives `argc`, too. -/
def append (argv : Items) (arg : Str) : ℤ × Items := (count (appendNosize argv arg), appendNosize argv arg)

/-- The search of `opal_argv_append_unique_nosize`. -/
def present (arg : Str) : List Cell → Bool
  | .str s :: p => arg = s || present arg p
  | _ => false

def appendUniqueNosize (argv : Items) (arg : Str) : Items :=
  match argv with
  | none => appendNosize none arg
  | some cells => if present arg cells then some cells else appendNosize (some cells) arg

/-- The loop of `opal_argv_copy`, and that of `opal_argv_insert` behind the end. -/
def appendAll (argv : Items) : List Cell → Items
  | .str s :: p => appendAll (appendNosize argv s) p
  | _ => argv

def copy : Items → Items
  | none => none
  | some cells => appendAll (some [.null]) cells

inductive Ret
  | success
  | badParam
  deriving DecidableEq

/-- The suffix is copied over the deleted items, from `i` on. -/
def deleteLoop (numToDelete : ℕ) : (steps i : ℕ) → List Cell → List Cell
  | 0, _, cells => cells
  | steps + 1, i, cells => deleteLoop numToDelete steps (i + 1) (cells.set i (cells.getD (i + numToDelete) .junk))

/-- `opal_argv_delete`.  The sum of `start` and `num_to_delete` is in the range of `int` wherever `argc` is right. -/
def delete (argc : ℤ) (argv : Items) (start numToDelete : ℤ) : Ret × ℤ × Items :=
  match argv with
  | none => (.success, argc, none)
  | some cells =>
    if numToDelete = 0 then (.success, argc, some cells)
    else if start > countLoop cells then (.success, argc, some cells)
    else if start < 0 ∨ numToDelete < 0 then (.badParam, argc, some cells)
    else
      let suffixCount := (countLoop cells - (start + numToDelete)).toNat
      let i := start.toNat + suffixCount
      let cells := deleteLoop numToDelete.toNat suffixCount start.toNat cells
      (.success, argc - numToDelete, some (realloc (cells.set i .null) (i + 1)))

/-- The suffix is moved down to the end, the last item first. -/
def moveLoop (start sourceCount : ℕ) : ℕ → List Cell → List Cell
  | 0, cells => cells
  | i + 1, cells =>
    moveLoop start sourceCount i (cells.set (start + sourceCount + i) (cells.getD (start + i) .junk))

/-- The source is duplicated into the target from `i` on. -/
def dupLoop : List Cell → (i : ℕ) → List Cell → List Cell
  | .str s :: source, i, cells => dupLoop source (i + 1) (cells.set i (.str s))
  | _, _, cells => cells

def insert (target : Items) (start : ℤ) (source : Items) : Ret × Items :=
  match target with
  | none => (.badParam, none)
  | some cells =>
    if start < 0 then (.badParam, some cells)
    else match source with
      | none => (.success, some cells)
      | some source =>
        let targetCount := countLoop cells
        let sourceCount := countLoop source
        if start > targetCount then (.success, appendAll (some cells) source)
        else
          let start := start.toNat
          let suffixCount := targetCount - start
          let cells := moveLoop start sourceCount suffixCount (realloc cells (targetCount + sourceCount + 1))
          (.success, some (dupLoop source start (cells.set (start + suffixCount + sourceCount) .null)))

def char (delimiter : ℤ) : UInt8 := UInt8.ofNat (delimiter % 256).toNat

/-- What a `char`, which has a sign, is as an `int`. -/
def charValue (c : UInt8) : ℤ := if c.toNat < 128 then c.toNat else c.toNat - 256

/-- The loop that fills the string: `pp` is the rest of the present item and `p` what is behind it. -/
def fillLoop (delimiter : UInt8) : (strLen : ℕ) → (p : List Cell) → (pp : Str) → Option Str
  | 0, _, _ => some []
  | strLen + 1, p, c :: pp => (fillLoop delimiter strLen p pp).map (c :: ·)
  | strLen + 1, .str s :: p, [] => (fillLoop delimiter strLen p s).map (delimiter :: ·)
  | _ + 1, _, [] => none

/-- The total length with delimiters, of at most `n` items. -/
def lengthLoop : (n : ℕ) → List Cell → ℕ
  | n + 1, .str s :: p => s.length + 1 + lengthLoop n p
  | _, _ => 0

/-- The string from an item on.  It gives nothing when the end of the string is written before its start. -/
def joinFrom (delimiter : ℤ) (strLen : ℕ) : List Cell → Option Str
  | .str s :: p => if strLen = 0 then none else fillLoop (char delimiter) (strLen - 1) p s
  | _ => none

def join (argv : Items) (delimiter : ℤ) : Option Str :=
  match argv with
  | none | some (.null :: _) => some []
  | some cells => joinFrom delimiter (lengthLoop cells.length cells) cells

def joinRange (argv : Items) (start stop : ℕ) (delimiter : ℤ) : Option Str :=
  match argv with
  | none | some (.null :: _) => some []
  | some cells =>
    -- `(int)start`
    if Int.bmod start (2 ^ 32) > countLoop cells then some []
    else joinFrom delimiter (lengthLoop (stop - start) (cells.drop start)) (cells.drop start)

/-- `opal_argv_split_inter` without empty items. -/
def splitLoop (delimiter : ℤ) (argv : Items) : Str → Option Items
  | [] => some argv
  | c :: src =>
    let arg := (c :: src).takeWhile fun c => charValue c ≠ delimiter
    match h : (c :: src).dropWhile fun c => charValue c ≠ delimiter with
    | [] => some (appendNosize argv arg)
    | _ :: rest =>
      have : rest.length < (c :: src).length := by
        have := (List.dropWhile_suffix (l := c :: src) fun c => charValue c ≠ delimiter).length_le
        rw [h] at this
        exact this
      if arg.length = 0 then splitLoop delimiter argv rest
      else if arg.length > argsize - 1 then splitLoop delimiter (appendNosize argv arg) rest
      -- the buffer has room for the end of the string, too
      else if arg.length < argsize then splitLoop delimiter (appendNosize argv arg) rest
      else none
  termination_by src => src.length
  decreasing_by all_goals exact this

def split (src : Str) (delimiter : ℤ) : Option Items := splitLoop delimiter none src

@[simp] abbrev ended (l : List Str) : List Cell := l.map .str ++ [.null]

/-- The array, up to the `NULL` at its end, has the strings. -/
def Holds (argv : Items) (l : List Str) : Prop :=
  match argv with
  | none => l = []
  | some cells => cells = ended l

structure Strings where
  argv : Items
  list : List Str
  holds : Holds argv list

def joined (delimiter : UInt8) : List Str → Str
  | [] => []
  | s :: l => s ++ l.flatMap (delimiter :: ·)

inductive Call
  | append (arg : Str)
  | appendUnique (arg : Str)
  | insert (start : ℤ) (source : Strings)
  | copy
  | delete (start numToDelete : ℤ)
  | join (delimiter : ℤ)
  | joinRange (start stop : ℕ) (delimiter : ℤ)
  | splitJoin (delimiter : ℤ)

/-- Strings that a split can give. -/
def Splittable (delimiter : ℤ) (l : List Str) : Prop := ∀ s ∈ l, s ≠ [] ∧ 0 ∉ s ∧ char delimiter ∉ s

def Call.Right (a : Strings) : Call → Prop
  | .append arg => Holds (Argv.append a.argv arg).2 (a.list ++ [arg]) ∧ (Argv.append a.argv arg).1 = a.list.length + 1
  | .appendUnique arg => Holds (appendUniqueNosize a.argv arg) (if arg ∈ a.list then a.list else a.list ++ [arg])
  | .insert start source =>
    let r := Argv.insert a.argv start source.argv
    Holds r.2 (if r.1 = .success then a.list.take start.toNat ++ source.list ++ a.list.drop start.toNat else a.list) ∧
      (r.1 = .badParam ↔ a.argv = none ∨ start < 0)
  | .copy => Holds (Argv.copy a.argv) a.list
  | .delete start numToDelete =>
    let r := Argv.delete a.list.length a.argv start numToDelete
    let l := if start < 0 ∨ numToDelete < 0 then a.list
      else a.list.take start.toNat ++ a.list.drop (start.toNat + numToDelete.toNat)
    Holds r.2.2 l ∧ r.2.1 = l.length
  | .join delimiter => Argv.join a.argv delimiter = some (joined (char delimiter) a.list)
  | .joinRange start stop delimiter =>
    Argv.joinRange a.argv start stop delimiter = some (joined (char delimiter) ((a.list.take stop).drop start))
  | .splitJoin delimiter => Splittable delimiter a.list → ∃ s argv, Argv.join a.argv delimiter = some s ∧
      split (s.takeWhile (· ≠ 0)) delimiter = some argv ∧ Holds argv a.list

/-- Nothing is deleted from a place in the list on or at its end but what is there, no range from such a place on is
empty, and the delimiter between two strings is a character. -/
def Call.Sound (a : Strings) : Call → Prop
  | .delete start numToDelete =>
    0 ≤ start → start ≤ a.list.length → 0 < numToDelete → a.argv ≠ none → start + numToDelete ≤ a.list.length
  | .joinRange start stop _ =>
    a.list = [] ∨ (a.list.length : ℤ) < Int.bmod start (2 ^ 32) ∨ start < a.list.length ∧ start < stop
  | .splitJoin delimiter =>
    Splittable delimiter a.list → a.list.length ≤ 1 ∨ delimiter ≠ 0 ∧ -128 ≤ delimiter ∧ delimiter < 128
  | _ => True

end OpenMPI.Util.Argv
