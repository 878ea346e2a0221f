import OpenMPI.Ddt.Desc

/-!
# The walk over a description

`ompi_generic_simple_pack`, `ompi_generic_simple_unpack` and `ompi_convertor_generic_simple_position`
walk over the description in the same way: as far as `SPACE` bytes take them, by whole basic
elements, with a stack of the loops they are in.  They differ in what is done with a block on the
way, which is recorded here as `moved`, and in the test that tells an element whose blocks follow
one another, which is the parameter `same`.
-/

namespace OpenMPI.Ddt

open Lib

/-- `dt_stack_t`.  The index is that of the loop, or `-1` for the whole description; the last entry
of a suspended walk has the index of the current element instead. -/
structure StackEntry where
  index : ℤ
  count : ℕ
  disp : ℤ
  deriving DecidableEq, Repr

/-- The local variables of the walk.  `pointer` is `source_base`, `user_memory_base` or
`base_pointer` from `pBaseBuf` on, and the stack starts with `pStack`. -/
structure Walk where
  posDesc : ℕ
  countDesc : ℕ
  pointer : ℤ
  stack : List StackEntry
  space : ℕ
  moved : List (ℤ × ℕ) := []
  deriving DecidableEq, Repr

namespace Walk

def topDisp : List StackEntry → ℤ
  | [] => 0
  | top :: _ => top.disp

def disp (w : Walk) : ℤ := topDisp w.stack

/-- `UPDATE_INTERNAL_COUNTERS`, with the pointer set back to `pStack->disp`. -/
def enter (desc : List Desc) (w : Walk) (posDesc : ℕ) : Walk :=
  { w with
    posDesc
    countDesc := (desc[posDesc]?.map Desc.count).getD 0
    pointer := w.disp }

def predefinedData (same : Elem → Bool) (e : Elem) (w : Walk) : Walk :=
  let copyCount := if w.space < w.countDesc * e.type.size then w.space / e.type.size
    else w.countDesc
  { w with
    pointer := w.pointer + copyCount * (if same e then (e.type.size : ℤ) else e.extent)
    space := w.space - copyCount * e.type.size
    countDesc := w.countDesc - copyCount
    moved := w.moved ++
      if same e then [(w.pointer + e.disp, copyCount * e.type.size)]
      else strided copyCount e.extent [(w.pointer + e.disp, e.type.size)] }

def contiguousLoop (l : Loop) (endLoop : EndLoop) (w : Walk) : Walk :=
  let copyLoops := if w.space < w.countDesc * endLoop.size then w.space / endLoop.size
    else w.countDesc
  { w with
    pointer := w.pointer + copyLoops * l.extent
    space := w.space - copyLoops * endLoop.size
    countDesc := w.countDesc - copyLoops
    moved := w.moved ++
      strided copyLoops l.extent [(w.pointer + endLoop.firstElemDisp, endLoop.size)] }

/-- What a loop on the stack moves by; the index `-1` is that of the whole description. -/
def loopExtent (desc : List Desc) (extent index : ℤ) : ℤ :=
  if index = -1 then extent
  else
    match desc[index.toNat]? with
    | some (.loop l) => l.extent
    | _ => 0

/-- `PUSH_STACK` of the loop at the current position. -/
def pushLoop (desc : List Desc) (w : Walk) (localDisp : ℤ) : Walk :=
  let entry : StackEntry := ⟨w.posDesc, w.countDesc, w.disp + localDisp⟩
  enter desc { w with stack := entry :: w.stack } (w.posDesc + 1)

/-- What ends the walk: the next element does not fit, or the description is at its end. -/
inductive Status
  | more
  | full
  | completed
  deriving DecidableEq, Repr

def step (same : Elem → Bool) (desc : List Desc) (extent : ℤ) (w : Walk) : Option (Walk × Status) :=
  match desc[w.posDesc]? with
  | none => none
  | some (.elem e) =>
    let w' := w.predefinedData same e
    if w'.countDesc = 0 then some (w'.enter desc (w.posDesc + 1), .more)
    else some (w', .full)
  | some (.endLoop _) =>
    match w.stack with
    | [] => none
    | top :: up =>
      if top.count - 1 = 0 then
        if up = [] then some ({ w with stack := [{ top with count := 0 }] }, .completed)
        else some (enter desc { w with stack := up } (w.posDesc + 1), .more)
      else
        let top' : StackEntry :=
          ⟨top.index, top.count - 1, top.disp + loopExtent desc extent top.index⟩
        some (enter desc { w with stack := top' :: up } (top.index + 1).toNat, .more)
  | some (.loop l) =>
    if l.contiguous then
      match desc[w.posDesc + l.items]? with
      | some (.endLoop endLoop) =>
        let w' := w.contiguousLoop l endLoop
        if w'.countDesc = 0 then some (w'.enter desc (w.posDesc + l.items + 1), .more)
        else some (w'.pushLoop desc (w'.pointer - w.pointer), .more)
      | _ => none
    else some (w.pushLoop desc 0, .more)

def run (same : Elem → Bool) (desc : List Desc) (extent : ℤ) :
    ℕ → Walk → Option (Walk × Status)
  | 0, _ => none
  | fuel + 1, w =>
    match w.step same desc extent with
    | none => none
    | some (w', .more) => run same desc extent fuel w'
    | some (w', status) => some (w', status)

end Walk

end OpenMPI.Ddt
