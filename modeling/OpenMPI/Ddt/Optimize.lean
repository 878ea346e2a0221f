import OpenMPI.Ddt.Desc

/-!
# The optimised description

`ompi_ddt_optimize_short` reads the description once and writes a shorter one.  What it has read
and not yet written is one element, which grows while what follows continues it in memory.

`last_length` is an `int32_t`, which what it is set to is cut off to.  `total_disp`, which is nowhere
set to anything but itself, is left out.
-/

namespace OpenMPI.Ddt

def int32 (n : ℤ) : ℤ := n.bmod (2 ^ 32)

def uint32 (n : ℤ) : ℕ := (n % (2 ^ 32 : ℕ)).toNat

/-- `last_disp`, `last_length`, `last_type` and `last_extent`; a type of `DT_LOOP`, which has no
size, is `none`. -/
structure Pending where
  lastDisp : ℤ
  lastLength : ℤ
  lastType : Option Basic
  lastExtent : ℤ
  deriving DecidableEq, Repr

namespace Pending

def size (p : Pending) : ℕ := (p.lastType.map Basic.size).getD 0

def bytes (p : Pending) : ℤ := p.lastLength * p.size

def Continues (p : Pending) (disp : ℤ) : Prop := p.lastDisp + p.bytes = disp

instance (p : Pending) (disp : ℤ) : Decidable (p.Continues disp) :=
  inferInstanceAs (Decidable (_ = _))

def createElem (p : Pending) : List Desc :=
  if p.lastLength = 0 then []
  else
    (p.lastType.map fun t =>
      .elem ⟨true, t, uint32 p.lastLength, p.lastExtent, p.lastDisp⟩).toList

end Pending

/-- `pElemDesc` is the end of `desc`, and `nbElems` its length.  The stack has the indexes of the
loops that are open. -/
structure Opt where
  pending : Pending
  desc : List Desc := []
  stack : List ℕ := []
  deriving DecidableEq, Repr

namespace Opt

def elem (e : Elem) (s : Opt) : Opt :=
  let p := s.pending
  if e.contiguous = true ∧ p.Continues e.disp ∧ e.extent = e.type.size then
    { s with
      pending :=
        if some e.type = p.lastType then
          { p with lastLength := int32 (p.lastLength + e.count), lastExtent := e.extent }
        else if p.lastLength = 0 then
          { p with lastType := some e.type, lastLength := int32 e.count, lastExtent := e.extent }
        else
          { p with
            lastLength := int32 (p.bytes + e.count * e.type.size)
            lastType := some dtByte
            lastExtent := 1 } }
  else
    { s with
      desc := s.desc ++ p.createElem
      pending := ⟨e.disp, int32 e.count, some e.type, e.extent⟩ }

def setItems (items : ℕ) : Desc → Desc
  | .loop l => .loop { l with items }
  | d => d

def endLoop (e : EndLoop) (s : Opt) : Opt :=
  let p := s.pending
  let desc := s.desc ++ p.createElem
  let pending := { p with lastDisp := p.lastDisp + p.lastLength, lastLength := 0 }
  match s.stack with
  | [] => { pending, desc := desc ++ [.endLoop { e with items := desc.length + 2 }] }
  | index :: stack =>
    let items := desc.length - index + 1
    { pending, stack
      desc := (desc ++ [Desc.endLoop { e with items }]).modify (index - 1) (setItems items) }

def wholeLoop (l : Loop) (close : EndLoop) (loopDisp : ℤ) (s : Opt) : Opt :=
  let p := s.pending
  if p.Continues loopDisp then
    { s with
      pending :=
        { p with
          lastLength := int32 (p.bytes + l.loops * close.size)
          lastType := some dtByte
          lastExtent := 1 } }
  else
    { s with
      desc := s.desc ++ p.createElem
      pending := ⟨loopDisp, int32 (l.loops * close.size), some dtByte, 1⟩ }

/-- What is in the loop is contiguous, with a gap before the next iteration. -/
def gapLoop (l : Loop) (close : EndLoop) (loopDisp : ℤ) (s : Opt) : Opt :=
  let p := s.pending
  let (counter, p) :=
    if p.lastLength ≠ 0 ∧ p.Continues loopDisp then
      (l.loops - 1,
        { p with
          lastLength := int32 (int32 p.bytes + close.size)
          lastType := some dtByte
          lastExtent := 1 })
    else (l.loops, p)
  { s with
    desc := s.desc ++ p.createElem ++
      [.loop { l with loops := counter, items := 2 },
        .elem ⟨true, dtByte, close.size, 1, loopDisp⟩,
        .endLoop { close with items := 2 }]
    pending :=
      if p.lastLength = 0 then p
      else { p with lastDisp := p.lastDisp + p.lastLength, lastLength := 0, lastType := none } }

/-- What is read of a loop, and how many entries behind its start are read with it. -/
def loop (l : Loop) (rest : List Desc) (s : Opt) : ℕ × Opt :=
  let p := s.pending
  if l.contiguous then
    match rest[l.items - 1]? with
    | some (.endLoop e) =>
      (l.items, if l.extent = e.size then s.wholeLoop l e (firstElemDisp rest)
        else s.gapLoop l e (firstElemDisp rest))
    | _ => (0, s)
  else
    let desc := s.desc ++ p.createElem
    let pending := if p.lastLength = 0 then p
      else { p with lastDisp := p.lastDisp + p.lastLength, lastLength := 0, lastType := none }
    let push : ℕ × Opt :=
      (0, ⟨pending, desc ++ [.loop l], (desc.length + 1) :: s.stack⟩)
    match l.items, rest with
    | 2, .elem e :: _ =>
      -- a small loop
      if e.count = 1 ∧ e.extent = e.type.size then
        (2, { s with
          pending
          desc := desc ++ [.elem ⟨false, e.type, l.loops, l.extent, e.disp⟩] })
      else if l.loops < 3 then
        (2, { s with
          pending
          desc := desc ++ (List.range l.loops).map fun i : ℕ =>
            .elem { e with disp := e.disp + i * l.extent } })
      else push
    | _, _ => push

end Opt

/-- The loop over the description, with the number of entries `pos_desc` jumps over. -/
def optimizeGo : ℕ → List Desc → Opt → Opt
  | _, [], s => s
  | skip + 1, _ :: rest, s => optimizeGo skip rest s
  | 0, .elem e :: rest, s => optimizeGo 0 rest (s.elem e)
  | 0, .endLoop e :: rest, s => optimizeGo 0 rest (s.endLoop e)
  | 0, .loop l :: rest, s =>
    let (skip, s) := s.loop l rest
    optimizeGo skip rest s

/-- `ompi_ddt_optimize_short`, of a description with its fake end of loop. -/
def optimizeShort (desc : List Desc) : List Desc :=
  (optimizeGo 0 desc { pending := ⟨0, 0, some dtByte, 1⟩ }).desc

end OpenMPI.Ddt
