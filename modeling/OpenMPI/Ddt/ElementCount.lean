import Mathlib.Algebra.BigOperators.Intervals
import OpenMPI.Ddt.Datatype

/-!
# Element counts

`ompi_ddt_get_element_count` and `ompi_ddt_set_element_count` walk over `desc` with a stack of loop
counters of their own, in the same way; they differ in what they do with an element on the way.
-/

namespace OpenMPI.Ddt

/-- What the walk reads of `dt_stack_t`. -/
structure CountEntry where
  index : ℤ
  count : ℕ
  deriving DecidableEq, Repr

structure CountWalk (σ : Type*) where
  posDesc : ℕ
  stack : List CountEntry
  vars : σ
  deriving DecidableEq, Repr

namespace CountWalk

variable {σ ρ : Type*}

/-- One turn of the loops, or what the function returns.  `data` is what is done with an element,
`completed` what is returned at the end of the description. -/
def step (data : Elem → σ → ρ ⊕ σ) (completed : σ → ρ) (desc : List Desc) (w : CountWalk σ) :
    Option (ρ ⊕ CountWalk σ) :=
  match desc[w.posDesc]? with
  | none => none
  | some (.endLoop _) =>
    match w.stack with
    | [] => none
    | top :: up =>
      if top.count - 1 = 0 then
        match up with
        | [] => some (.inl (completed w.vars))
        | next :: _ => some (.inr { w with posDesc := (next.index + 1).toNat, stack := up })
      else
        some (.inr { w with
          posDesc := (top.index + 1).toNat
          stack := { top with count := top.count - 1 } :: up })
  | some (.loop l) =>
    some (.inr { w with posDesc := w.posDesc + 1, stack := ⟨w.posDesc, l.loops⟩ :: w.stack })
  | some (.elem e) =>
    match data e w.vars with
    | .inl r => some (.inl r)
    | .inr vars => some (.inr { w with posDesc := w.posDesc + 1, vars })

def run (data : Elem → σ → ρ ⊕ σ) (completed : σ → ρ) (desc : List Desc) :
    ℕ → CountWalk σ → Option ρ
  | 0, _ => none
  | fuel + 1, w =>
    match w.step data completed desc with
    | none => none
    | some (.inl r) => some r
    | some (.inr w') => run data completed desc fuel w'

/-- The walk starts with one iteration of the whole description. -/
def start (vars : σ) : CountWalk σ := ⟨0, [⟨-1, 1⟩], vars⟩

end CountWalk

/-- An element of `ompi_ddt_get_element_count`, with `nbElems` and `iSize`. -/
def getData (e : Elem) : ℤ × ℕ → ℤ ⊕ ℤ × ℕ
  | (nbElems, iSize) =>
    let localSize := e.count * e.type.size
    if iSize ≤ localSize then
      let localSize := iSize / e.type.size
      .inl (if iSize - localSize * e.type.size = 0 then int32 (nbElems + localSize) else -1)
    else .inr (int32 (nbElems + e.count), iSize - localSize)

/-- An element of `ompi_ddt_set_element_count`, with `length` and `count`. -/
def setData (e : Elem) : ℕ × ℕ → ℕ ⊕ ℕ × ℕ
  | (length, count) =>
    if count ≤ e.count then .inl (length + count * e.type.size)
    else .inr (length + e.count * e.type.size, count - e.count)

def dtMaxPredefined : ℕ := 42

namespace Datatype

/-- `desc` with the fake end of loop that a commit puts behind it. -/
def committedDesc (d : Datatype) : List Desc := d.desc ++ [fakeEnd d.desc d.desc.length d.size]

def ddtGetElementCount (fuel : ℕ) (d : Datatype) (iSize : ℕ) : Option ℤ :=
  CountWalk.run getData Prod.fst d.committedDesc fuel (.start (0, iSize))

/-- `ompi_ddt_set_element_count`, which divides by the number of basic elements. -/
def ddtSetElementCount (fuel : ℕ) (d : Datatype) (btypes : ℕ → ℕ) (count : ℕ) : Option ℕ :=
  let localLength := uint32 (∑ i ∈ Finset.Ico 4 dtMaxPredefined, btypes i : ℕ)
  if localLength = 0 then none
  else
    let length := d.size * (count / localLength)
    if count % localLength = 0 then some length
    else CountWalk.run setData Prod.fst d.committedDesc fuel (.start (length, count % localLength))

/-- What `ompi_ddt_add` makes of `btypes`.  Of the entries that are no basic datatypes only the one
of `DT_LOOP` is read anywhere. -/
def addBtypes (btypes : ℕ → ℕ) (add : Datatype) (added : ℕ → ℕ) (count : ℕ) (extent : ℤ) :
    ℕ → ℕ :=
  let extent := if extent = -1 then add.extent else extent
  if add.id = dtLb ∨ add.id = dtUb ∨ add.tooManyEntries count = true ∨ count = 0 ∨ add.size = 0 then
    btypes
  else if add.predefined && add.data then
    fun i =>
      if i = add.id then btypes i + count
      else if i = 0 ∧ extent ≠ add.size ∧ 1 < count then 1
      else btypes i
  else
    let loops := match add.desc with
      | [.elem e] => if extent = add.extent ∧ extent = e.extent ∨ count = 1 then 0 else 2
      | _ => if count = 1 then 0 else 2
    fun i =>
      if i = 0 then btypes i + added i + loops
      else if 4 ≤ i then btypes i + count * added i
      else btypes i

/-- A datatype that the constructors build, with its `btypes`. -/
inductive Counted : Datatype → (ℕ → ℕ) → Prop
  | basic {t : Basic} {align : ℕ} (hid : 4 ≤ t.id ∧ t.id < dtMaxPredefined) :
    Counted (basic t align) (fun i => if i = t.id then 1 else 0)
  | marker {id : ℕ} : Counted (marker id) (fun _ => 0)
  | create : Counted ddtCreate (fun _ => 0)
  | add {base add : Datatype} {btypes added : ℕ → ℕ} {count : ℕ} {disp extent : ℤ}
    (hbase : Counted base btypes) (hopen : base.committed = false ∧ base.predefined = false)
    (hadd : Counted add added) :
    Counted (base.ddtAdd add count disp extent) (addBtypes btypes add added count extent)
  | duplicate {old : Datatype} {btypes : ℕ → ℕ} (hold : Counted old btypes) :
    Counted old.ddtDuplicate btypes
  | resized {old : Datatype} {btypes : ℕ → ℕ} {lb extent : ℤ} (hold : Counted old btypes) :
    Counted (old.ddtCreateResized lb extent) btypes
  | commit {d : Datatype} {btypes : ℕ → ℕ} (hd : Counted d btypes) : Counted d.ddtCommit btypes
  | predefine {d : Datatype} {btypes : ℕ → ℕ} {id : ℕ} {ub : ℤ} (hd : Counted d btypes)
    (hcommitted : d.committed = false) (hdata : d.data = true) (hlb : d.trueLb = 0)
    (hid : 4 ≤ id ∧ id < dtMaxPredefined) : Counted (d.predefine id ub) btypes

/-- The sizes of the basic elements of `m` instances, in packed order. -/
def sizes (d : Datatype) (m : ℕ) : List ℕ :=
  (List.replicate m ((typeMap d.desc).map fun entry => entry.2.size)).flatten

/-- The number of elements wholly in the first `n` bytes, or `-1` if these end in an element. -/
def IsElementCount (sizes : List ℕ) (n : ℕ) (r : ℤ) : Prop :=
  (∃ k ≤ sizes.length, (sizes.take k).sum = n ∧ r = k) ∨
    (r = -1 ∧ ∀ k, (sizes.take k).sum ≠ n)

def Gets (d : Datatype) (n : ℕ) (r : ℤ) : Prop := ∃ fuel, d.ddtGetElementCount fuel n = some r

/-- `ompi_ddt_set_element_count` sets the length to `n`. -/
def Sets (d : Datatype) (btypes : ℕ → ℕ) (k n : ℕ) : Prop :=
  ∃ fuel, d.ddtSetElementCount fuel btypes k = some n

/-- Both functions are right for up to `m` instances, and each inverts the other. -/
structure CountsElements (d : Datatype) (btypes : ℕ → ℕ) (m : ℕ) : Prop where
  get : ∀ n ≤ d.size * m, ∃ r, d.Gets n r ∧ IsElementCount (d.sizes m) n r
  set : ∀ k ≤ (d.sizes m).length, k < 2 ^ 32 → d.Sets btypes k ((d.sizes m).take k).sum
  get_set : ∀ k n, k ≤ (d.sizes m).length → k < 2 ^ 32 → d.Sets btypes k n → d.Gets n k
  set_get : ∀ (k n : ℕ), n ≤ d.size * m → d.Gets n k → d.Sets btypes k n

end Datatype

/-- The elements the walk comes to when it goes round `rounds` times: when the first loop with no
other in it is at its end, it goes back to the start of what is around that loop, and so on for
ever.  `done` was read since the start of the innermost loop, which is taken so many times behind
what was read before it. -/
def walkedGo (rounds : ℕ) : List Desc → Option (ℕ × List Elem) → List Elem → List Elem
  | [], _, _ => []
  | .elem e :: rest, loop, done => walkedGo rounds rest loop (done ++ [e])
  | .loop l :: rest, none, done => walkedGo rounds rest (some (l.loops, done)) []
  | .loop l :: rest, some (_, before), done =>
    before ++ walkedGo rounds rest (some (l.loops, done)) []
  | .endLoop _ :: _, none, done => done
  | .endLoop _ :: _, some (loops, before), done =>
    (List.replicate rounds (before ++ (List.replicate loops done).flatten)).flatten

def walked (rounds : ℕ) (desc : List Desc) : List Elem := walkedGo rounds desc none []

def Elem.sizes (e : Elem) : List ℕ := List.replicate e.count e.type.size

/-- The walk comes to elements of the same sizes as the type map of `m` instances has, in its
order, and their number fits what is returned. -/
def Datatype.CountsInOrder (d : Datatype) (m : ℕ) : Prop :=
  0 < d.size ∧ (d.sizes m).length < 2 ^ 31 ∧
    d.sizes m <+: (walked (d.sizes m).length d.committedDesc).flatMap Elem.sizes

instance (d : Datatype) (m : ℕ) : Decidable (d.CountsInOrder m) :=
  inferInstanceAs (Decidable (_ ∧ _ ∧ _))

end OpenMPI.Ddt
