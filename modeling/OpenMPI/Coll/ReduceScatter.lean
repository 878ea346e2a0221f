import OpenMPI.Coll.Basic

/-!
# Reduce and scatter

The basic component and the tuned one have the same recursive halving; the tuned one has a ring, too.
-/

namespace OpenMPI.Coll

open Lib

variable {α : Type*}

def disps (rcounts : ℕ → ℕ) (i : ℕ) : ℕ := ((List.range i).map rcounts).sum

def tmpRcounts (rcounts : ℕ → ℕ) (remain i : ℕ) : ℕ :=
  if i < remain then rcounts (i * 2 + 1) + rcounts (i * 2) else rcounts (i + remain)

def countsBetween (counts : ℕ → ℕ) (i j : ℕ) : ℕ := ((List.range' i (j - i)).map counts).sum

def halvingLoop (junk : (ℕ → α) → ℕ → α) (op : Op α) (remain : ℕ) (counts : ℕ → ℕ) (tmpRank : ℕ) :
    (fuel mask sendIndex recvIndex lastIndex : ℕ) → List (Instr (Bufs BasicBuf α) α)
  | 0, _, _, _, _ => []
  | fuel + 1, mask, sendIndex, recvIndex, lastIndex =>
    if 0 < mask then
      let tmpPeer := tmpRank ^^^ mask
      let peer := if tmpPeer < remain then tmpPeer * 2 + 1 else tmpPeer + remain
      let low := tmpRank < tmpPeer
      let sendIndex := if low then recvIndex + mask else sendIndex
      let recvIndex := if low then recvIndex else sendIndex + mask
      let sendCount := if low then countsBetween counts sendIndex lastIndex
        else countsBetween counts sendIndex recvIndex
      let recvCount := if low then countsBetween counts recvIndex sendIndex
        else countsBetween counts recvIndex lastIndex
      let irecv := if 0 < sendCount ∧ recvCount ≠ 0 then
        [.postBuf junk .recvBuf (disps counts recvIndex) recvCount] else []
      let send := if 0 < recvCount ∧ sendCount ≠ 0 then
        [.sendBuf peer .resultBuf (disps counts sendIndex) sendCount] else []
      let wait := if 0 < sendCount ∧ recvCount ≠ 0 then
        [.recvBuf peer .recvBuf (disps counts recvIndex) recvCount] else []
      let push := if 0 < recvCount then
        [opReduce op .recvBuf (disps counts recvIndex) .resultBuf (disps counts recvIndex) recvCount]
        else []
      irecv ++ send ++ wait ++ push ++
        halvingLoop junk op remain counts tmpRank fuel (mask >>> 1) recvIndex recvIndex (recvIndex + mask)
    else []

/-- The counts have a sum other than 0. -/
def halving (junk : (ℕ → α) → ℕ → α) (size rank : ℕ) (rcounts : ℕ → ℕ) (op : Op α) (sb rb : BasicBuf) :
    List (Instr (Bufs BasicBuf α) α) :=
  let count := disps rcounts size
  let tmpSize := nearestPower size
  let remain := size - tmpSize
  let fold :=
    if rank < 2 * remain then
      if rank % 2 = 0 then [.sendBuf (rank + 1) .resultBuf 0 count]
      else [.recvBuf (rank - 1) .recvBuf 0 count, opReduce op .recvBuf 0 .resultBuf 0 count]
    else []
  let loop (tmpRank : ℕ) :=
    halvingLoop junk op remain (tmpRcounts rcounts remain) tmpRank tmpSize (tmpSize >>> 1) 0 0 tmpSize ++
      if rcounts rank ≠ 0 then
        [sndrcv .resultBuf (disps rcounts rank) (rcounts rank) rb 0 (rcounts rank)]
      else []
  let unfold :=
    if rank < 2 * remain then
      if rank % 2 = 0 then if rcounts rank ≠ 0 then [.recvBuf (rank + 1) rb 0 (rcounts rank)] else []
      else if rcounts (rank - 1) ≠ 0 then
        [.sendBuf (rank - 1) .resultBuf (disps rcounts (rank - 1)) (rcounts (rank - 1))]
      else []
    else []
  let work :=
    if rank < 2 * remain then if rank % 2 = 0 then [] else loop (rank / 2)
    else loop (rank - remain)
  [sndrcv sb 0 count .resultBuf 0 count] ++ fold ++ work ++ unfold

def reduceScatterIntraBasicRecursivehalving (junk : (ℕ → α) → ℕ → α) (size rank : ℕ) (rcounts : ℕ → ℕ)
    (op : Op α) (inPlace : Bool) : List (Instr (Bufs BasicBuf α) α) :=
  if disps rcounts size = 0 then []
  else halving junk size rank rcounts op (if inPlace then .rbuf else .sbuf) .rbuf

def maxBlockCount (rcounts : ℕ → ℕ) (size : ℕ) : ℕ := ((List.range size).map rcounts).foldl max 0

def reduceScatterIntraRing (junk : (ℕ → α) → ℕ → α) (size rank : ℕ) (rcounts : ℕ → ℕ) (op : Op α)
    (inPlace : Bool) : List (Instr (Bufs RingBuf α) α) :=
  let count := disps rcounts size
  if size = 1 then if inPlace then [] else [.copyBuf .sbuf 0 .rbuf 0 count]
  else
    let sb := if inPlace then .rbuf else .sbuf
    [.copyBuf sb 0 .accumbuf 0 count] ++
      computationLoop junk size rank (maxBlockCount rcounts size) op .accumbuf (disps rcounts) rcounts
        ((rank + size - 1) % size) (fun k => (rank + size - k) % size) rank ++
      [.copyBuf .accumbuf (disps rcounts rank) .rbuf 0 (rcounts rank)]

def commutativeLongMsg : ℤ := 8 * 1024 * 1024

/-- In place, the receive buffer is passed on as the send buffer. -/
def reduceScatterIntra (junk : (ℕ → α) → ℕ → α) (crossover size rank : ℕ) (rcounts : ℕ → ℕ)
    (trueExtent extent : ℤ) (op : Op α) (k : Skew α) (inPlace : Bool) :
    List (Instr (Bufs BasicBuf α) α) :=
  let count := disps rcounts size
  let zerocounts := (List.range size).any (rcounts · == 0)
  let bufSize := trueExtent + (count - 1) * extent
  let sb := if inPlace then .rbuf else .sbuf
  if count = 0 then []
  else if op.commute ∧ bufSize < commutativeLongMsg ∧ zerocounts = false then
    halving junk size rank rcounts op sb .rbuf
  else
    reduceIntra crossover size rank 0 count op k sb .recvBuf false ++
      scattervIntra id size rank 0 .recvBuf rcounts (disps rcounts) .rbuf (rcounts rank)

/-- The processes of the ranks are `proc` and `remote`.  The roots of the two groups exchange their
data, each root gathers that of the other group, and scatters the result in its own. -/
def reduceScatterInter (proc remote : ℕ → ℕ) (lsize rsize rank : ℕ) (rcounts : ℕ → ℕ) (op : Op α) :
    List (Instr (Bufs BasicBuf α) α) :=
  let totalcounts := disps rcounts lsize
  let reduce :=
    if rank = 0 then
      [.sendBuf (remote 0) .sbuf 0 totalcounts, .recvBuf (remote 0) .tmpbuf2 0 totalcounts] ++
        (List.range (rsize - 1)).flatMap fun j =>
          [.recvBuf (remote (j + 1)) .tmpbuf 0 totalcounts,
            opReduce op .tmpbuf 0 .tmpbuf2 0 totalcounts]
    else [.sendBuf (remote 0) .sbuf 0 totalcounts]
  reduce ++ scattervIntra proc lsize rank 0 .tmpbuf2 rcounts (disps rcounts) .rbuf (rcounts rank)

end OpenMPI.Coll
