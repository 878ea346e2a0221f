import OpenMPI.Lib.Strided

/-!
# Datatype descriptions

A description is an array of elements, loops and ends of loops.  Displacements are absolute for the
first iteration of every loop around them.  The fields nothing here reads are left out: `blocklen`,
`unused` and all flags but `DT_FLAG_CONTIGUOUS`; `DT_FLAG_DATA` is set in elements alone.
-/

namespace OpenMPI.Ddt

open Lib

/-- A predefined datatype, which `ompi_ddt_basicDatatypes` knows the size of. -/
structure Basic where
  id : ℕ
  size : ℕ
  pos : 0 < size
  deriving DecidableEq, Repr

def dtByte : Basic := ⟨8, 1, by decide⟩

/-- `ddt_elem_desc_t`: `count` blocks of one `type`, at a stride of `extent`. -/
structure Elem where
  contiguous : Bool
  type : Basic
  count : ℕ
  extent : ℤ
  disp : ℤ
  deriving DecidableEq, Repr

/-- `ddt_loop_desc_t`: the end of the loop is `items` further on. -/
structure Loop where
  contiguous : Bool
  loops : ℕ
  items : ℕ
  extent : ℤ
  deriving DecidableEq, Repr

/-- `ddt_endloop_desc_t`: `size` is that of one iteration. -/
structure EndLoop where
  items : ℕ
  size : ℕ
  firstElemDisp : ℤ
  deriving DecidableEq, Repr

inductive Desc
  | elem (e : Elem)
  | loop (l : Loop)
  | endLoop (e : EndLoop)
  deriving DecidableEq, Repr

/-- The field `elem.count`, which the loop counter of a loop and the items of an end of loop share
their place with. -/
def Desc.count : Desc → ℕ
  | elem e => e.count
  | loop l => l.loops
  | endLoop e => e.items

/-- A description moves with its elements; the displacement of a loop is that of what is in it. -/
def Desc.move (disp : ℤ) : Desc → Desc
  | elem e => elem { e with disp := e.disp + disp }
  | loop l => loop l
  | endLoop e => endLoop { e with firstElemDisp := e.firstElemDisp + disp }

/-- `GET_FIRST_NON_LOOP`, and the displacement of what it finds. -/
def firstElemDisp : List Desc → ℤ
  | .loop _ :: rest => firstElemDisp rest
  | .elem e :: _ => e.disp
  | _ => 0

def Elem.blocks (e : Elem) : List (ℤ × ℕ) := strided e.count e.extent [(e.disp, e.type.size)]

/-- The blocks of a description, with the loops that are open and what was visited before each.
The end of loop of no loop is the one after the description. -/
def visitsGo : List Desc → List (Loop × List (ℤ × ℕ)) → List (ℤ × ℕ) → List (ℤ × ℕ)
  | [], _, done => done
  | .elem e :: rest, loops, done => visitsGo rest loops (done ++ e.blocks)
  | .loop l :: rest, loops, done => visitsGo rest ((l, done) :: loops) []
  | .endLoop _ :: rest, (l, before) :: loops, done =>
    visitsGo rest loops (before ++ strided l.loops l.extent done)
  | .endLoop _ :: _, [], done => done

def visits (desc : List Desc) : List (ℤ × ℕ) := visitsGo desc [] []

/-- The basic blocks of `count` elements. -/
def stream (desc : List Desc) (extent : ℤ) (count : ℕ) : List (ℤ × ℕ) :=
  strided count extent (visits desc)

end OpenMPI.Ddt

/-!
## Nested descriptions

The description of a datatype is the array of a nested structure: `Body.flatten` writes it out, and
`Body.blocks` is what it visits.
-/

namespace OpenMPI.Ddt

open Lib

/-- A sequence of elements and of loops around such sequences. -/
inductive Body
  | nil
  | elem (e : Elem) (rest : Body)
  | loop (contiguous : Bool) (loops : ℕ) (extent : ℤ) (body rest : Body)
  deriving DecidableEq, Repr

namespace Body

def append : Body → Body → Body
  | nil, b => b
  | elem e rest, b => elem e (rest.append b)
  | loop contiguous loops extent body rest, b => loop contiguous loops extent body (rest.append b)

instance : Append Body := ⟨append⟩

def blocks : Body → List (ℤ × ℕ)
  | nil => []
  | elem e rest => e.blocks ++ rest.blocks
  | loop _ loops extent body rest => strided loops extent body.blocks ++ rest.blocks

def first : Body → ℤ
  | nil => 0
  | elem e _ => e.disp
  | loop _ _ _ body _ => body.first

def used : Body → ℕ
  | nil => 0
  | elem _ rest => rest.used + 1
  | loop _ _ _ body rest => body.used + 2 + rest.used

def flatten : Body → List Desc
  | nil => []
  | elem e rest => .elem e :: rest.flatten
  | loop contiguous loops extent body rest =>
    .loop ⟨contiguous, loops, body.used + 1, extent⟩ :: body.flatten ++
      .endLoop ⟨body.used + 1, width body.blocks, body.first⟩ :: rest.flatten

/-- Elements and loops are not empty, and a contiguous loop's body is one run of bytes. -/
def Ok : Body → Prop
  | nil => True
  | elem e rest => 0 < e.count ∧ rest.Ok
  | loop contiguous loops _ body rest =>
    (0 < loops ∧ body ≠ nil ∧
      (contiguous = true → bytes body.blocks = run body.first (width body.blocks))) ∧
    body.Ok ∧ rest.Ok

@[simp] theorem nil_append (b : Body) : nil ++ b = b := rfl

@[simp] theorem elem_append (e : Elem) (rest b : Body) : elem e rest ++ b = elem e (rest ++ b) := rfl

@[simp] theorem loop_append (contiguous : Bool) (loops : ℕ) (extent : ℤ) (body rest b : Body) :
    loop contiguous loops extent body rest ++ b
      = loop contiguous loops extent body (rest ++ b) := rfl

@[simp] theorem flatten_append (a b : Body) : (a ++ b).flatten = a.flatten ++ b.flatten := by
  induction a with
  | nil => rfl
  | elem e rest ih => simp [flatten, ih]
  | loop contiguous loops extent body rest _ ih => simp [flatten, ih]

@[simp] theorem blocks_append (a b : Body) : (a ++ b).blocks = a.blocks ++ b.blocks := by
  induction a with
  | nil => rfl
  | elem e rest ih => simp [blocks, ih]
  | loop contiguous loops extent body rest _ ih => simp [blocks, ih]

theorem flatten_loop_append (contiguous : Bool) (loops : ℕ) (extent : ℤ) (body rest : Body)
    (tail : List Desc) :
    (loop contiguous loops extent body rest).flatten ++ tail
      = .loop ⟨contiguous, loops, body.used + 1, extent⟩ :: (body.flatten ++
        (.endLoop ⟨body.used + 1, width body.blocks, body.first⟩ :: (rest.flatten ++ tail))) := by
  simp only [flatten, List.cons_append, List.append_assoc]

theorem length_flatten (b : Body) : b.flatten.length = b.used := by
  induction b with
  | nil => rfl
  | elem e rest ih => simp [flatten, used, ih]
  | loop contiguous loops extent body rest ih1 ih2 =>
    simp only [flatten, used, List.cons_append, List.length_cons, List.length_append, ih1, ih2]
    omega

theorem visitsGo_flatten (b : Body) (tail : List Desc) (loops : List (Loop × List (ℤ × ℕ)))
    (done : List (ℤ × ℕ)) :
    visitsGo (b.flatten ++ tail) loops done = visitsGo tail loops (done ++ b.blocks) := by
  induction b generalizing tail loops done with
  | nil => simp [flatten, blocks]
  | elem e rest ih => simp [flatten, blocks, visitsGo, ih]
  | loop contiguous count extent body rest ih1 ih2 =>
    simp only [flatten, List.cons_append, List.append_assoc, visitsGo, ih1, ih2, blocks,
      List.nil_append]

theorem visits_flatten (b : Body) : visits b.flatten = b.blocks := by
  have := b.visitsGo_flatten [] [] []
  simpa [visits, visitsGo] using this

theorem visits_flatten_endLoop (b : Body) (e : EndLoop) :
    visits (b.flatten ++ [.endLoop e]) = b.blocks := by
  have := b.visitsGo_flatten [.endLoop e] [] []
  simpa [visits, visitsGo] using this

theorem firstElemDisp_flatten {b : Body} (hok : b.Ok) (h : b ≠ nil) (tail : List Desc) :
    firstElemDisp (b.flatten ++ tail) = b.first := by
  induction b generalizing tail with
  | nil => exact absurd rfl h
  | elem e rest _ => rfl
  | loop contiguous loops extent body rest ih _ =>
    obtain ⟨⟨_, hne, _⟩, hbody, _⟩ := hok
    simp only [flatten, List.cons_append, List.append_assoc, firstElemDisp, first]
    exact ih hbody hne _

end Body

theorem Elem.width_blocks (e : Elem) : width e.blocks = e.count * e.type.size := by
  simp [Elem.blocks]

theorem Body.width_pos {b : Body} (hok : b.Ok) (h : b ≠ .nil) : 0 < width b.blocks := by
  induction b with
  | nil => exact absurd rfl h
  | elem e rest _ =>
    have := Nat.mul_pos hok.1 e.type.pos
    simp only [blocks, width_append, Elem.width_blocks]
    omega
  | loop contiguous loops extent body rest ih _ =>
    obtain ⟨⟨hloops, hne, _⟩, hbody, _⟩ := hok
    have := Nat.mul_pos hloops (ih hbody hne)
    simp only [blocks, width_append, width_strided]
    omega

end OpenMPI.Ddt

/-!
## Type maps

The type map of a description is the sequence of the basic datatypes it visits, each with its
displacement.  Its blocks are the bytes of the type map (`Body.blocks_eq`).
-/

namespace OpenMPI.Ddt

open Lib

def Elem.entries (e : Elem) : List (ℤ × Basic) := strided e.count e.extent [(e.disp, e.type)]

/-- The walk of `visitsGo`, with the basic datatypes instead of their sizes. -/
def typeMapGo : List Desc → List (Loop × List (ℤ × Basic)) → List (ℤ × Basic) → List (ℤ × Basic)
  | [], _, done => done
  | .elem e :: rest, loops, done => typeMapGo rest loops (done ++ e.entries)
  | .loop l :: rest, loops, done => typeMapGo rest ((l, done) :: loops) []
  | .endLoop _ :: rest, (l, before) :: loops, done =>
    typeMapGo rest loops (before ++ strided l.loops l.extent done)
  | .endLoop _ :: _, [], done => done

def typeMap (desc : List Desc) : List (ℤ × Basic) := typeMapGo desc [] []

namespace Body

def entries : Body → List (ℤ × Basic)
  | nil => []
  | elem e rest => e.entries ++ rest.entries
  | loop _ loops extent body rest => strided loops extent body.entries ++ rest.entries

@[simp] theorem entries_append (a b : Body) : (a ++ b).entries = a.entries ++ b.entries := by
  induction a with
  | nil => rfl
  | elem e rest ih => simp [entries, ih]
  | loop contiguous loops extent body rest _ ih => simp [entries, ih]

theorem typeMapGo_flatten (b : Body) (tail : List Desc) (loops : List (Loop × List (ℤ × Basic)))
    (done : List (ℤ × Basic)) :
    typeMapGo (b.flatten ++ tail) loops done = typeMapGo tail loops (done ++ b.entries) := by
  induction b generalizing tail loops done with
  | nil => simp [flatten, entries]
  | elem e rest ih => simp [flatten, entries, typeMapGo, ih]
  | loop contiguous count extent body rest ih1 ih2 =>
    simp only [flatten, List.cons_append, List.append_assoc, typeMapGo, ih1, ih2, entries,
      List.nil_append]

theorem typeMap_flatten (b : Body) : typeMap b.flatten = b.entries := by
  have := b.typeMapGo_flatten [] [] []
  simpa [typeMap, typeMapGo] using this

theorem blocks_eq (b : Body) : b.blocks = b.entries.map (Prod.map id Basic.size) := by
  induction b with
  | nil => rfl
  | elem e rest ih => simp [blocks, entries, ih, Elem.blocks, Elem.entries, map_strided]
  | loop contiguous loops extent body rest ih1 ih2 =>
    simp [blocks, entries, ih1, ih2, map_strided]

end Body

end OpenMPI.Ddt
