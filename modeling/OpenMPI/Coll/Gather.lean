import OpenMPI.Coll.Topo
import OpenMPI.Coll.Util

/-!
# Gather and scatter over the in-order binomial tree

The subtree of a virtual rank is a range of virtual ranks, so that each message is one piece of the
vector whose first block is the root's.  `none` stands for a tree that could not be built.
-/

namespace OpenMPI.Coll

open Lib

variable {α : Type*}

inductive RootedBuf
  | sbuf
  | rbuf
  | tempbuf
  deriving DecidableEq, Repr

/-- The elements of the subtree of a child: as many blocks as there are ranks from `vrank` to the
child, or as are left. -/
def subtreeCount (size root vrank count child : ℕ) : ℕ :=
  let vkid := (child + size - root) % size
  let mycount := vkid - vrank
  let mycount := if size - vkid < mycount then size - vkid else mycount
  mycount * count

/-- What the counter of a rank comes to after all its children. -/
def subtreeTotal (size root vrank count : ℕ) (next : List ℕ) : ℕ :=
  next.foldl (fun total child => total + subtreeCount size root vrank count child) count

def gatherChildren (size root vrank rcount : ℕ) (ptmp : RootedBuf) :
    (next : List ℕ) → (totalRecv : ℕ) → List (Instr (Bufs RootedBuf α) α) × ℕ
  | [], totalRecv => ([], totalRecv)
  | child :: next, totalRecv =>
    let mycount := subtreeCount size root vrank rcount child
    let (recvs, total) := gatherChildren size root vrank rcount ptmp next (totalRecv + mycount)
    (.recvBuf child ptmp totalRecv (rcount * size - totalRecv) :: recvs, total)

/-- Only the root looks at `rcount`, and only there the data may be in place. -/
def gatherOver (bmtree : CollTree) (size rank root scount rcount : ℕ) (inPlace : Bool) :
    List (Instr (Bufs RootedBuf α) α) :=
  let vrank := (rank + size - root) % size
  if rank = root then
    let ptmp := if root = 0 then .rbuf else .tempbuf
    let own :=
      if root = 0 then if inPlace then [] else [sndrcv .sbuf 0 scount .rbuf 0 rcount]
      else if inPlace then [.copyBuf .rbuf (rank * rcount) .tempbuf 0 rcount]
      else [sndrcv .sbuf 0 scount .tempbuf 0 rcount]
    let (recvs, _) := gatherChildren size root vrank rcount ptmp bmtree.next rcount
    let rotated :=
      if root = 0 then []
      else [.copyBuf .tempbuf 0 .rbuf (root * rcount) (rcount * (size - root)),
        .copyBuf .tempbuf (rcount * (size - root)) .rbuf 0 (rcount * root)]
    own ++ recvs ++ rotated
  else if vrank % 2 = 0 then
    let (recvs, totalRecv) := gatherChildren size root vrank scount .tempbuf bmtree.next scount
    [sndrcv .sbuf 0 scount .tempbuf 0 scount] ++ recvs ++
      [.sendBuf bmtree.prev.toNat .tempbuf 0 totalRecv]
  else [.sendBuf bmtree.prev.toNat .sbuf 0 scount]

def gatherIntraBinomial (size rank root scount rcount : ℕ) (inPlace : Bool) :
    Option (List (Instr (Bufs RootedBuf α) α)) :=
  (buildInOrderBmtree size rank root).map fun bmtree =>
    gatherOver bmtree size rank root scount rcount inPlace

def scatterChildren (size root vrank scount : ℕ) (ptmp : RootedBuf) :
    (next : List ℕ) → (totalSend : ℕ) → List (Instr (Bufs RootedBuf α) α)
  | [], _ => []
  | child :: next, totalSend =>
    let mycount := subtreeCount size root vrank scount child
    .sendBuf child ptmp totalSend mycount ::
      scatterChildren size root vrank scount ptmp next (totalSend + mycount)

/-- Only the root looks at `scount`, and only there the data may be in place. -/
def scatterOver (bmtree : CollTree) (size rank root scount rcount : ℕ) (inPlace : Bool) :
    List (Instr (Bufs RootedBuf α) α) :=
  let vrank := (rank + size - root) % size
  if rank = root then
    let ptmp := if root = 0 then .sbuf else .tempbuf
    let rotated :=
      if root = 0 then []
      else [.copyBuf .sbuf (root * scount) .tempbuf 0 (scount * (size - root)),
        .copyBuf .sbuf 0 .tempbuf (scount * (size - root)) (scount * root)]
    let own := if inPlace then [] else [sndrcv ptmp 0 scount .rbuf 0 rcount]
    rotated ++ own ++ scatterChildren size root vrank scount ptmp bmtree.next scount
  else if vrank % 2 = 0 then
    [.recvBuf bmtree.prev.toNat .tempbuf 0 (rcount * size),
      sndrcv .tempbuf 0 rcount .rbuf 0 rcount] ++
      scatterChildren size root vrank rcount .tempbuf bmtree.next rcount
  else [.recvBuf bmtree.prev.toNat .rbuf 0 rcount]

def scatterIntraBinomial (size rank root scount rcount : ℕ) (inPlace : Bool) :
    Option (List (Instr (Bufs RootedBuf α) α)) :=
  (buildInOrderBmtree size rank root).map fun bmtree =>
    scatterOver bmtree size rank root scount rcount inPlace

end OpenMPI.Coll
