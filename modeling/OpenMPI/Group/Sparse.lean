import Mathlib.Algebra.Order.Ring.Int
import Mathlib.Data.List.Basic

/-!
# Groups of processes and their sparse formats

A group in a sparse format names ranks of its parent.  Pointers are compared by their addresses, that of
`MPI_GROUP_EMPTY` being 0, and what has no value in C (a shift by a negative number, a read outside an array, a result
that is not set) is `none`.  Reference counts are left out, and ranks are translated one by one.
-/

namespace OpenMPI.Groups

def procNull : ℤ := -2

def undefined : ℤ := -32766

structure Sporadic where
  rankFirst : ℤ
  length : ℤ
  deriving DecidableEq

inductive Group
  | dense (addr : ℕ) (procPointers : List ℕ) (myRank : ℤ)
  | strided (addr : ℕ) (parent : Group) (procCount : ℕ) (myRank stride offset lastElement : ℤ)
  | sporadic (addr : ℕ) (parent : Group) (procCount : ℕ) (myRank : ℤ) (list : List Sporadic)
  | bitmap (addr : ℕ) (parent : Group) (procCount : ℕ) (myRank : ℤ) (array : List ℕ)

def groupEmpty : Group := .dense 0 [] undefined

namespace Group

def addr : Group → ℕ
  | dense addr .. | strided addr .. | sporadic addr .. | bitmap addr .. => addr

def procCount : Group → ℕ
  | dense _ procPointers _ => procPointers.length
  | strided _ _ procCount .. | sporadic _ _ procCount .. | bitmap _ _ procCount .. => procCount

def myRank : Group → ℤ
  | dense _ _ myRank | strided _ _ _ myRank .. | sporadic _ _ _ myRank _ | bitmap _ _ _ myRank _ => myRank

def parent : Group → Option Group
  | dense .. => none
  | strided _ parent .. | sporadic _ parent .. | bitmap _ parent .. => some parent

def setMyRank (myRank : ℤ) : Group → Group
  | dense addr procPointers _ => dense addr procPointers myRank
  | strided addr parent procCount _ stride offset lastElement =>
    strided addr parent procCount myRank stride offset lastElement
  | sporadic addr parent procCount _ list => sporadic addr parent procCount myRank list
  | bitmap addr parent procCount _ array => bitmap addr parent procCount myRank array

end Group

def translateRanksStrided (s o l rank : ℤ) : Option ℤ :=
  if rank = procNull then some procNull
  else if rank - o < 0 then some undefined
  else if s = 0 then none
  else if (rank - o).tmod s = 0 ∧ rank ≤ l then some ((rank - o).tdiv s)
  else some undefined

def translateRanksStridedReverse (s o rank : ℤ) : Option ℤ :=
  if rank = procNull then some procNull else some (s * rank + o)

def sporadicLoop (rank : ℤ) : List Sporadic → ℤ → ℤ
  | [], _ => undefined
  | item :: list, count =>
    if item.rankFirst ≤ rank ∧ rank ≤ item.rankFirst + item.length - 1 then rank - item.rankFirst + count
    else sporadicLoop rank list (count + item.length)

def translateRanksSporadic (list : List Sporadic) (rank : ℤ) : Option ℤ :=
  if rank = procNull then some procNull else some (sporadicLoop rank list 0)

def sporadicReverseLoop (rank : ℤ) : List Sporadic → ℤ → Option ℤ
  | [], _ => none
  | item :: list, count =>
    if count + item.length - 1 < rank then sporadicReverseLoop rank list (count + item.length)
    else some (item.rankFirst + (rank - count))

def translateRanksSporadicReverse (list : List Sporadic) (rank : ℤ) : Option ℤ :=
  if rank = procNull then some procNull else sporadicReverseLoop rank list 0

def bsize : ℕ := 8

def bitSet (byte k : ℕ) : Bool := 1 <<< k = byte &&& 1 <<< k

def byteAt (array : List ℕ) (i : ℤ) : Option ℕ := if 0 ≤ i then array[i.toNat]? else none

/-- The loop over the bits of a byte in `ompi_group_translate_ranks_bmap`: the result, or the count so far. -/
def bmapBits (byte : ℕ) (last : Option ℕ) : List ℕ → ℕ → ℤ ⊕ ℕ
  | [], count => .inr count
  | k :: ks, count =>
    let count := if bitSet byte k then count + 1 else count
    if last = some k then .inl (count - 1) else bmapBits byte last ks count

def bmapBytes (array : List ℕ) (m : ℕ) : List ℕ → ℕ → Option ℤ
  | [], _ => some undefined
  | i :: is, count =>
    match array[i]? with
    | none => none
    | some byte =>
      match bmapBits byte (if i = m / bsize then some (m % bsize) else none) (List.range bsize) count with
      | .inl result => some result
      | .inr count => bmapBytes array m is count

def translateRanksBmap (array : List ℕ) (rank : ℤ) : Option ℤ :=
  if rank = procNull then some procNull
  else if rank.tmod bsize < 0 then none
  else
    match byteAt array (rank.tdiv bsize) with
    | none => none
    | some byte =>
      if bitSet byte (rank.tmod bsize).toNat then
        bmapBytes array rank.toNat (List.range (rank.toNat / bsize + 1)) 0
      else some undefined

/-- The loop over the bits of byte `i` in `ompi_group_translate_ranks_bmap_reverse`. -/
def bmapReverseBits (byte i : ℕ) (m : ℤ) : List ℕ → ℕ → ℤ ⊕ ℕ
  | [], count => .inr count
  | k :: ks, count =>
    let count := if bitSet byte k then count + 1 else count
    if m = count - 1 then .inl (i * bsize + k) else bmapReverseBits byte i m ks count

def bmapReverseBytes (m : ℤ) : List (ℕ × ℕ) → ℕ → Option ℤ
  | [], _ => none
  | (byte, i) :: array, count =>
    match bmapReverseBits byte i m (List.range bsize) count with
    | .inl result => some result
    | .inr count => bmapReverseBytes m array count

def translateRanksBmapReverse (array : List ℕ) (rank : ℤ) : Option ℤ :=
  if rank = procNull then some procNull else bmapReverseBytes rank array.zipIdx 0

namespace Group

def toParent : Group → ℤ → Option ℤ
  | dense .., _ => none
  | strided _ _ _ _ stride offset _, rank => translateRanksStridedReverse stride offset rank
  | sporadic _ _ _ _ list, rank => translateRanksSporadicReverse list rank
  | bitmap _ _ _ _ array, rank => translateRanksBmapReverse array rank

def ofParent : Group → ℤ → Option ℤ
  | dense .., _ => none
  | strided _ _ _ _ stride offset lastElement, rank => translateRanksStrided stride offset lastElement rank
  | sporadic _ _ _ _ list, rank => translateRanksSporadic list rank
  | bitmap _ _ _ _ array, rank => translateRanksBmap array rank

/-- `ompi_group_peer_lookup`, which is `ompi_group_get_proc_ptr`. -/
def peerLookup : Group → ℤ → Option ℕ
  | dense _ procPointers _, rank => if 0 ≤ rank then procPointers[rank.toNat]? else none
  | strided _ parent _ _ stride offset _, rank =>
    (translateRanksStridedReverse stride offset rank).bind parent.peerLookup
  | sporadic _ parent _ _ list, rank => (translateRanksSporadicReverse list rank).bind parent.peerLookup
  | bitmap _ parent _ _ array, rank => (translateRanksBmapReverse array rank).bind parent.peerLookup

def translateRanks (group1 : Group) (rank : ℤ) (group2 : Group) : Option ℤ :=
  if group1.addr = 0 ∨ group2.addr = 0 then some undefined
  else if group1.parent.map addr = some group2.addr then group1.toParent rank
  else if group2.parent.map addr = some group1.addr then group2.ofParent rank
  else if rank = procNull then some procNull
  else
    match group1.peerLookup rank with
    | none => none
    | some proc1 =>
      some (match (List.range group2.procCount).find? fun proc2 : ℕ => group2.peerLookup proc2 = some proc1 with
        | some proc2 => (proc2 : ℤ)
        | none => undefined)

def withMyRank (new parent : Group) : Option Group :=
  (parent.translateRanks parent.myRank new).map fun myRank => new.setMyRank myRank

end Group

def sizeofPointer : ℤ := 8

def sizeofInt : ℤ := 4

def sizeofSporadic : ℤ := 8

def calcPlist (ranks : List ℕ) : ℤ := sizeofPointer * ranks.length

def setGroupRank (proc : ℕ) : List (ℕ × ℕ) → ℤ → ℤ
  | [], myRank => myRank
  | (p, i) :: procs, myRank => setGroupRank proc procs (if p = proc then i else myRank)

def inclPlist (addr : ℕ) (group : Group) (ranks : List ℕ) : Option Group :=
  if ranks.length = 0 then some groupEmpty
  else
    match ranks.mapM fun rank : ℕ => group.peerLookup rank with
    | none => none
    | some procs =>
      if group.myRank ≠ undefined then
        (group.peerLookup group.myRank).map fun proc => .dense addr procs (setGroupRank proc procs.zipIdx undefined)
      else some (.dense addr procs undefined)

def steps (s : ℤ) : List ℕ → Bool
  | a :: b :: incl => (b : ℤ) - a = s && steps s (b :: incl)
  | _ => true

def checkStride (incl : List ℕ) : ℤ :=
  let s : ℤ := match incl with
    | a :: b :: _ => b - a
    | _ => 1
  if s < 0 then -1 else if steps s incl then s else -1

def calcStrided (ranks : List ℕ) : ℤ := if checkStride ranks = -1 then -1 else sizeofInt * 3

def inclStrided (addr : ℕ) (group : Group) (ranks : List ℕ) : Option Group :=
  match ranks with
  | [] => some groupEmpty
  | first :: _ =>
    (Group.strided addr group ranks.length undefined (checkStride ranks) first (ranks.getLastD 0)).withMyRank group

/-- The number of ranges; `prev` is the rank before, that of the first being what stands before the array. -/
def countRanges (prev : ℤ) : List ℕ → ℕ → ℕ
  | [], l => l
  | rank :: ranks, l => countRanges rank ranks (if rank = prev + 1 then (if l = 0 then l + 1 else l) else l + 1)

def calcSporadic (before : ℤ) (ranks : List ℕ) : ℤ := sizeofSporadic * countRanges before ranks 0

/-- The ranges, the last one growing. -/
def fillRanges (prev : ℕ) (item : Sporadic) : List ℕ → List Sporadic
  | [] => [item]
  | rank :: ranks =>
    if rank = prev + 1 then fillRanges rank { item with length := item.length + 1 } ranks
    else item :: fillRanges rank ⟨rank, 1⟩ ranks

/-- `ompi_group_incl_spor`; the list has room for the ranges that were counted. -/
def inclSpor (addr : ℕ) (before : ℤ) (group : Group) (ranks : List ℕ) : Option Group :=
  match ranks with
  | [] => some groupEmpty
  | first :: rest =>
    let list := fillRanges first ⟨first, 1⟩ rest
    if countRanges before ranks 0 < list.length then none
    else (Group.sporadic addr group (list.map Sporadic.length).sum.toNat undefined list).withMyRank group

def divCeil (num den : ℕ) : ℕ := if num % den = 0 then num / den else num / den + 1

def checkRanks : List ℕ → Bool
  | a :: b :: ranks => a ≤ b && checkRanks (b :: ranks)
  | _ => true

def calcBmap (origSize : ℕ) (ranks : List ℕ) : ℤ := if checkRanks ranks then divCeil origSize bsize else -1

def setBits : List ℕ → List ℕ → Option (List ℕ)
  | array, [] => some array
  | array, rank :: ranks =>
    match array[rank / bsize]? with
    | none => none
    | some byte => setBits (array.set (rank / bsize) (byte ||| 1 <<< (rank % bsize))) ranks

def inclBmap (addr : ℕ) (group : Group) (ranks : List ℕ) : Option Group :=
  if ranks.length = 0 then some groupEmpty
  else
    match setBits (List.replicate (divCeil group.procCount bsize) 0) ranks with
    | none => none
    | some array => (Group.bitmap addr group ranks.length undefined array).withMyRank group

inductive Format
  | plist
  | strided
  | sporadic
  | bitmap
  deriving DecidableEq

/-- What the format's size check gives. -/
def Format.calc (f : Format) (before : ℤ) (group : Group) (ranks : List ℕ) : ℤ :=
  match f with
  | plist => calcPlist ranks
  | strided => calcStrided ranks
  | sporadic => calcSporadic before ranks
  | bitmap => calcBmap group.procCount ranks

def Format.incl (f : Format) (addr : ℕ) (before : ℤ) (group : Group) (ranks : List ℕ) : Option Group :=
  match f with
  | plist => inclPlist addr group ranks
  | strided => inclStrided addr group ranks
  | sporadic => inclSpor addr before group ranks
  | bitmap => inclBmap addr group ranks

end OpenMPI.Groups
