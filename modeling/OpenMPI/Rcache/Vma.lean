import Mathlib.Algebra.Order.Ring.Int
import Mathlib.Data.Finset.Basic
import Mathlib.Data.List.Basic
import OpenMPI.Lib.Run

/-!
# The registration cache of the `vma` component

Address ranges, each with the registrations that cover it.  The red-black tree holds the ranges of the list by their
start, so a search of it is told by the list.  Ranges that are destroyed later, and failures to allocate, are left out.
-/

namespace OpenMPI.Rcache

/-- `mca_mpool_base_registration_t`: `bypass`, `persist` and `invalid` are its flags. -/
structure Reg where
  base : ℕ
  bound : ℕ
  bypass : Bool
  persist : Bool
  invalid : Bool
  refCount : ℕ

abbrev Memory := ℕ → Reg

structure Vma where
  start : ℕ
  stop : ℕ
  regs : List ℕ
  deriving DecidableEq

structure Module where
  vmaList : List Vma
  curCacheSize : ℤ

inductive Status
  | success
  | error
  | outOfResource
  | tempOutOfResource
  deriving DecidableEq

def downAlign (addr shift : ℕ) : ℕ := addr / 2 ^ shift * 2 ^ shift

def upAlign (addr shift : ℕ) : ℕ := addr / 2 ^ shift * 2 ^ shift + (2 ^ shift - 1)

def toInt (z : ℤ) : ℤ := z.bmod (2 ^ 32)

def compareRegs (mem : Memory) (reg1 reg2 : ℕ) : ℤ :=
  if (mem reg1).persist && !(mem reg2).persist then 1
  else if !(mem reg1).persist && (mem reg2).persist then -1
  else if (mem reg1).bound ≠ (mem reg2).bound then toInt ((mem reg1).bound - (mem reg2).bound)
  else toInt (reg1 - reg2)

def addReg (mem : Memory) (reg : ℕ) : List ℕ → List ℕ
  | [] => [reg]
  | item :: items =>
    if 0 < compareRegs mem item reg then item :: addReg mem reg items else reg :: item :: items

def removeReg (v : Vma) (reg : ℕ) : Vma := { v with regs := v.regs.erase reg }

def compareSearch (addr : ℕ) (vma : Vma) : ℤ :=
  if vma.stop < addr then 1 else if vma.start ≤ addr then 0 else -1

def compareClosest (addr : ℕ) (prev : Option Vma) (vma : Vma) : ℤ :=
  if vma.stop < addr then 1
  else if vma.start ≤ addr then 0
  else
    match prev with
    | none => 0
    | some prev => if prev.stop < addr then 0 else -1

/-- The ranges before the one that is found, backwards, and that one with those behind it. -/
def seek (compare : Option Vma → Vma → ℤ) : List Vma → List Vma → List Vma × List Vma
  | pre, [] => (pre, [])
  | pre, v :: rest => if compare pre.head? v = 0 then (pre, v :: rest) else seek compare (v :: pre) rest

def findLoop (mem : Memory) (bound : ℕ) : List ℕ → Option ℕ
  | [] => none
  | item :: items =>
    if (mem item).invalid then findLoop mem bound items
    else if bound ≤ (mem item).bound then some item
    else if !(mem item).persist then none
    else findLoop mem bound items

namespace Module

def treeFind (c : Module) (mem : Memory) (base bound : ℕ) : Option ℕ :=
  match (seek (fun _ => compareSearch base) [] c.vmaList).2 with
  | [] => none
  | v :: _ => findLoop mem bound v.regs

def gather (mem : Memory) (regCnt : ℕ) : List ℕ → List ℕ → List ℕ
  | regs, [] => regs
  | regs, item :: items =>
    if (mem item).invalid || regs.contains item then gather mem regCnt regs items
    else if regs.length + 1 = regCnt then regs ++ [item]
    else gather mem regCnt (regs ++ [item]) items

/-- The outer loop, whose turns `fuel` bounds. -/
def findAllLoop (c : Module) (mem : Memory) (regCnt bound : ℕ) : ℕ → ℕ → List ℕ → List ℕ
  | 0, _, regs => regs
  | fuel + 1, base, regs =>
    match (seek (compareClosest base) [] c.vmaList).2 with
    | [] => regs
    | v :: _ =>
      if base < v.start then
        if v.start ≤ bound then findAllLoop c mem regCnt bound fuel v.start regs else regs
      else
        let regs := gather mem regCnt regs v.regs
        if regs.length = regCnt then regs
        else if v.stop + 1 ≤ bound then findAllLoop c mem regCnt bound fuel (v.stop + 1) regs
        else regs

/-- `mca_rcache_vma_tree_find_all`; no turn comes back to a range. -/
def treeFindAll (c : Module) (mem : Memory) (base bound regCnt : ℕ) : List ℕ :=
  findAllLoop c mem regCnt bound (2 * c.vmaList.length + 1) base []

/-- A range joins the one before it if their registrations are the same. -/
def mergePrev (pre : List Vma) (v : Vma) : List Vma × Vma × Bool :=
  match pre with
  | [] => ([], v, false)
  | p :: pre =>
    if v.start = p.stop + 1 ∧ v.regs = p.regs then (pre, { p with stop := v.stop }, true) else (p :: pre, v, false)

/-- The one behind it joins a range if their registrations are the same. -/
def mergeNext (v : Vma) (rest : List Vma) : Vma × List Vma × Bool :=
  match rest with
  | [] => (v, [], false)
  | n :: rest =>
    if v.stop + 1 = n.start ∧ v.regs = n.regs then ({ v with stop := n.stop }, rest, true) else (v, n :: rest, false)

theorem length_mergePrev (pre : List Vma) (v : Vma) :
    (mergePrev pre v).1.length + (if (mergePrev pre v).2.2 then 1 else 0) = pre.length := by
  unfold mergePrev
  split
  · rfl
  · split_ifs <;> simp_all

theorem length_mergeNext (v : Vma) (rest : List Vma) :
    (mergeNext v rest).2.1.length + (if (mergeNext v rest).2.2 then 1 else 0) = rest.length := by
  unfold mergeNext
  split
  · rfl
  · split_ifs <;> simp_all

def merge (pre : List Vma) (v : Vma) (rest : List Vma) : List Vma × Vma × List Vma :=
  let prev := mergePrev pre v
  let next := mergeNext prev.2.1 rest
  if prev.2.2 || next.2.2 then merge prev.1 next.1 next.2.1 else (prev.1, next.1, next.2.1)
  termination_by pre.length + rest.length
  decreasing_by
    rename_i h
    have hprev := length_mergePrev pre v
    have hnext := length_mergeNext (mergePrev pre v).2.1 rest
    have hmerged : (mergePrev pre v).2.2 = true ∨ (mergeNext (mergePrev pre v).2.1 rest).2.2 = true := by simpa using h
    rcases hmerged with hmerged | hmerged
    · rw [if_pos hmerged] at hprev
      omega
    · rw [if_pos hmerged] at hnext
      omega

theorem length_merge (pre : List Vma) (v : Vma) (rest : List Vma) : (merge pre v rest).2.2.length ≤ rest.length := by
  fun_induction merge pre v rest with
  | case1 pre v rest prev next h ih =>
    have hnext : next.2.1.length + (if next.2.2 then 1 else 0) = rest.length := length_mergeNext prev.2.1 rest
    exact Nat.le_trans ih (by omega)
  | case2 pre v rest prev next h =>
    have hnext := length_mergeNext prev.2.1 rest
    show (mergeNext prev.2.1 rest).2.1.length ≤ _
    omega

def deleteLoop (reg bound : ℕ) (pre rest : List Vma) (size : ℤ) : List Vma × ℤ :=
  match rest with
  | [] => (pre.reverse, size)
  | v :: rest =>
    if bound < v.start then (pre.reverse ++ v :: rest, size)
    else if (removeReg v reg).regs = [] then deleteLoop reg bound pre rest (size + (v.start - v.stop - 1))
    else
      let merged := merge pre (removeReg v reg) rest
      deleteLoop reg bound (merged.2.1 :: merged.1) merged.2.2 size
  termination_by rest.length
  decreasing_by
    · simp
    · exact Nat.lt_succ_of_le (length_merge pre (removeReg v reg) rest)

def treeDelete (c : Module) (mem : Memory) (reg : ℕ) : Status × Module :=
  let found := seek (fun _ => compareSearch (mem reg).base) [] c.vmaList
  match found.2 with
  | [] => (.error, c)
  | _ :: _ =>
    let deleted := deleteLoop reg (mem reg).bound found.1 found.2 c.curCacheSize
    (.success, ⟨deleted.1, deleted.2⟩)

def canInsert (size : ℤ) (nbytes limit : ℕ) : Bool := limit = 0 || decide (size + nbytes ≤ limit)

/-- The loop of `mca_rcache_vma_tree_insert`, and whether it came to its end. -/
def insertLoop (mem : Memory) (limit reg stop : ℕ) (start : ℕ) (pre rest : List Vma) (size : ℤ) : (List Vma × ℤ) × Bool :=
  if stop < start then ((pre.reverse ++ rest, size), true)
  else
    match rest with
    | [] =>
      if canInsert size (stop - start + 1) limit then
        insertLoop mem limit reg stop (stop + 1) (⟨start, stop, addReg mem reg []⟩ :: pre) [] (size + (stop - start + 1))
      else ((pre.reverse, size), false)
    | v :: rest =>
      if start < v.start then
        let tend := if v.start ≤ stop then v.start - 1 else stop
        if canInsert size (tend - start + 1) limit then
          insertLoop mem limit reg stop (tend + 1) (⟨start, tend, addReg mem reg []⟩ :: pre) (v :: rest)
            (size + (tend - start + 1))
        else ((pre.reverse ++ v :: rest, size), false)
      else if v.start = start then
        if stop < v.stop then
          insertLoop mem limit reg stop (stop + 1) ({ v with stop := stop, regs := addReg mem reg v.regs } :: pre)
            (⟨stop + 1, v.stop, v.regs⟩ :: rest) size
        else insertLoop mem limit reg stop (v.stop + 1) ({ v with regs := addReg mem reg v.regs } :: pre) rest size
      else
        insertLoop mem limit reg stop start ({ v with stop := start - 1 } :: pre) (⟨start, v.stop, v.regs⟩ :: rest) size
  termination_by
    if stop < start then 0 else 1 + 2 * rest.length + (if (rest.head?.map Vma.start) = some start then 0 else 1)
  decreasing_by
    all_goals simp_all
    all_goals split_ifs <;> omega

def treeInsert (c : Module) (mem : Memory) (reg limit : ℕ) : Status × Module :=
  let found := seek (compareClosest (mem reg).base) [] c.vmaList
  let inserted := insertLoop mem limit reg (mem reg).bound (mem reg).base found.1 found.2 c.curCacheSize
  if inserted.2 then (.success, ⟨inserted.1.1, inserted.1.2⟩)
  else (.tempOutOfResource, (treeDelete ⟨inserted.1.1, inserted.1.2⟩ mem reg).2)

/-- `mca_rcache_vma_find`; with no bytes `*reg` stays as it is. -/
def find (c : Module) (mem : Memory) (shift addr size : ℕ) (reg : Option ℕ) : Status × Option ℕ :=
  if size = 0 then (.error, reg) else (.success, c.treeFind mem (downAlign addr shift) (upAlign (addr + size - 1) shift))

/-- `mca_rcache_vma_find_all`, with no registrations where it gives an error. -/
def findAll (c : Module) (mem : Memory) (shift addr size regCnt : ℕ) : List ℕ :=
  if size = 0 then [] else c.treeFindAll mem (downAlign addr shift) (upAlign (addr + size - 1) shift) regCnt

def insert (c : Module) (mem : Memory) (reg limit : ℕ) : Status × Module :=
  if limit ≠ 0 ∧ limit < (mem reg).bound + 1 - (mem reg).base then (.outOfResource, c) else c.treeInsert mem reg limit

end Module

/-- A registration may change as long as it is cached, but for its range. -/
inductive Event
  | insert (reg limit : ℕ)
  | delete (reg : ℕ)
  | change (mem : Memory)

/-- The registrations `held` have been inserted, and not deleted since. -/
structure World where
  cache : Module
  mem : Memory
  held : Finset ℕ

namespace World

def next (w : World) : Event → World
  | .insert reg limit =>
    let inserted := w.cache.insert w.mem reg limit
    { w with cache := inserted.2, held := if inserted.1 = .success then insert reg w.held else w.held }
  | .delete reg => { w with cache := (w.cache.treeDelete w.mem reg).2, held := w.held.erase reg }
  | .change mem => { w with mem := mem }

def Allowed (w : World) : Event → Prop
  | .insert reg _ => reg ∉ w.held ∧ (w.mem reg).base ≤ (w.mem reg).bound
  | .delete _ => True
  | .change mem => ∀ x ∈ w.held, (mem x).base = (w.mem x).base ∧ (mem x).bound = (w.mem x).bound

end World

def calls : Lib.System World Event where
  init w := w.cache = ⟨[], 0⟩ ∧ w.held = ∅
  step w e w' := w.Allowed e ∧ w' = w.next e

end OpenMPI.Rcache
