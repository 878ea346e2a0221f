import Mathlib.Data.UInt
import OpenMPI.Proofs.Ddt.Unpack

/-!
# Unpacking contiguous datatypes

The optimised description of a contiguous datatype is one run of bytes (`Contiguous`), and
`ompi_unpack_homogeneous_contig_function` writes every fragment where the stream goes on
(`unpackContig_spec`).  `ompi_generic_simple_unpack_function` does so of fragments that fit.
-/

namespace OpenMPI.Ddt

open Lib List Nat

variable {same : Elem → Bool}

namespace Elem

theorem bytes_seen_of_not_spread {e : Elem} (h : e.spread = false) :
    bytes (e.seen same).blocks = bytes e.blocks := by
  rw [bytes_of_not_spread h, bytes_of_not_spread]
  · rfl
  · unfold spread at h ⊢
    rw [decide_eq_false_iff_not, not_and_or, not_not] at h ⊢
    unfold seen
    dsimp only
    split_ifs
    · exact .inr rfl
    · exact h

end Elem

namespace Body

theorem run_append_inv {l l' : List ℤ} {a : ℤ} {n : ℕ} (h : l ++ l' = run a n) :
    l = run a l.length ∧ l' = run (a + l.length) l'.length := by
  have hn : n = l.length + l'.length := by
    have := congrArg List.length h
    simpa using this.symm
  rw [hn, run_add] at h
  exact append_inj h (by simp)

theorem not_spread_of_run {e : Elem} {l : List ℤ} {a : ℤ} {n : ℕ} (hcount : 0 < e.count)
    (hrun : bytes e.blocks ++ l = run a n) : e.spread = false := by
  rcases hspread : e.spread with _ | _
  · rfl
  · exfalso
    have hfirst : e.disp = a := by
      refine @first_eq_of_run (elem e nil) ⟨hcount, trivial⟩ nofun a (bytes e.blocks).length ?_
      rw [blocks_elem, blocks_nil, List.append_nil]
      exact (run_append_inv hrun).1
    refine Elem.bytes_of_spread hspread l l.length ?_
    have hlength := congrArg List.length hrun
    rw [length_append, length_run, length_bytes, Elem.width_blocks] at hlength
    rw [hlength, hfirst]
    exact hrun

theorem bytes_strided_of_run {loops : ℕ} (hloops : 0 < loops) {extent : ℤ} {l : List (ℤ × ℕ)}
    {l' : List ℤ} {a : ℤ} {n : ℕ} (hrun : bytes (strided loops extent l) ++ l' = run a n) :
    ∃ l'', bytes l ++ l'' = run a n := by
  obtain ⟨k, rfl⟩ : ∃ k, loops = k + 1 := ⟨loops - 1, by omega⟩
  rw [strided_succ, bytes_append, List.append_assoc] at hrun
  exact ⟨_, hrun⟩

theorem bytes_seen_of_run {b : Body} (hok : b.Ok) {l : List ℤ} {a : ℤ} {n : ℕ}
    (hrun : bytes b.blocks ++ l = run a n) : bytes (b.seen same).blocks = bytes b.blocks := by
  induction b generalizing l a n with
  | nil => rfl
  | elem e rest ih =>
    rw [blocks_elem, bytes_append, List.append_assoc] at hrun
    have hrest := (run_append_inv hrun).2
    rw [seen, blocks_elem, blocks_elem, bytes_append, bytes_append, ih hok.2 hrest,
      Elem.bytes_seen_of_not_spread (not_spread_of_run hok.1 hrun)]
  | loop contiguous loops extent body rest ih1 ih2 =>
    obtain ⟨⟨hloops, -, -⟩, hbody, hrest⟩ := hok
    rw [blocks_loop, bytes_append, List.append_assoc] at hrun
    obtain ⟨l', hinner⟩ := bytes_strided_of_run hloops hrun
    rw [seen, blocks_loop, blocks_loop, bytes_append, bytes_append,
      bytes_strided_congr (ih1 hbody hinner), ih2 hrest (run_append_inv hrun).2]

theorem stride_of_run {loops : ℕ} (hloops : 2 ≤ loops) {extent : ℤ} {l : List (ℤ × ℕ)}
    (hwidth : 0 < width l) {l' : List ℤ} {a : ℤ} {n : ℕ}
    (hrun : bytes (strided loops extent l) ++ l' = run a n) : extent = width l := by
  obtain ⟨k, rfl⟩ := Nat.exists_eq_add_of_le hloops
  rw [add_comm, strided_succ, bytes_append, List.append_assoc] at hrun
  have hfirst := (run_append_inv hrun).1
  have hsecond := (run_append_inv hrun).2
  rw [strided_succ, shift_append, bytes_append, List.append_assoc] at hsecond
  have hcopy := (run_append_inv hsecond).1
  rw [bytes_shift, hfirst, map_add_run] at hcopy
  simp only [length_run, length_bytes] at hcopy
  have := run_inj hwidth hcopy
  omega

theorem clean_of_run {b : Body} (hok : b.Ok) (hrep : b.Repeats) {last : Option Elem}
    (hlast : ∀ e, last = some e → e.spread = false) {l : List ℤ} {a : ℤ} {n : ℕ}
    (hrun : bytes b.blocks ++ l = run a n) : b.Clean last := by
  have hclash {last : Option Elem} (hlast : ∀ e, last = some e → e.spread = false) (disp : ℤ) :
      clash last disp false = false := by
    cases last with
    | none => rfl
    | some e => simp [clash, hlast e rfl]
  induction b generalizing last l a n with
  | nil => trivial
  | elem y rest ih =>
    rw [blocks_elem, bytes_append, List.append_assoc] at hrun
    rw [Clean, hclash hlast, Bool.and_false]
    refine ⟨rfl, ih hok.2 hrep ?_ (run_append_inv hrun).2⟩
    rintro _ ⟨rfl⟩
    exact not_spread_of_run hok.1 hrun
  | loop contiguous loops extent body rest ih1 ih2 =>
    obtain ⟨⟨hloops, hne, -⟩, hbody, hrest⟩ := hok
    obtain ⟨hrep, hbody', hrest'⟩ := hrep
    rw [blocks_loop, bytes_append, List.append_assoc] at hrun
    cases contiguous with
    | true =>
      rw [Clean, if_pos (stride_of_run hrep (width_pos hbody hne) hrun), hclash hlast]
      refine ⟨rfl, ih2 hrest hrest' ?_ (run_append_inv hrun).2⟩
      rintro _ ⟨rfl⟩
      simp [Elem.spread, Elem.ofBytes, dtByte]
    | false =>
      obtain ⟨l', hinner⟩ := bytes_strided_of_run hloops hrun
      exact ⟨ih1 hbody hbody' (by simp) hinner, ih2 hrest hrest' (by simp) (run_append_inv hrun).2⟩

end Body

namespace Datatype

variable {d : Datatype}

theorem Sound.walkable_run (hd : Sound d) (hcommitted : d.committed = true)
    (hcontiguous : d.contiguous = true) (hsize : 0 < d.size) (hfit : d.size < 2 ^ 31) :
    ∃ b, Walkable d b ∧ b.first = d.trueLb ∧
      ∀ same, bytes (b.seen same).blocks = run d.trueLb d.size := by
  obtain ⟨b, hb⟩ := hd.walkable hcommitted hsize hfit
  obtain ⟨e, hdesc, -⟩ := hb.optDesc_eq
  obtain ⟨b0, hb0, hrun0⟩ := hd.described
  have hclean : Clean d.desc := by
    rw [hb0.desc_eq, clean_flatten hb0.ok]
    exact Body.clean_of_run hb0.ok hb0.repeats nofun (l := [])
      (by rw [List.append_nil]; exact hrun0 hcontiguous hsize)
  have hsame := (hd.sameStream_iff hcommitted hfit).mpr hclean 0 1
  rw [stream, stream, strided_one, strided_one, hdesc, Body.visits_flatten_endLoop, hb0.desc_eq,
    Body.visits_flatten, hrun0 hcontiguous hsize] at hsame
  have hok : b.Ok := by
    have := hb.ok packSame
    rwa [Convertor.seen_packSame] at this
  refine ⟨b, hb, Body.first_eq_of_run hok hb.ne_nil hsame, fun same => ?_⟩
  rw [Body.bytes_seen_of_run hok (l := []) (by rw [List.append_nil]; exact hsame), hsame]

end Datatype

theorem uint32_le (n : ℕ) : uint32 n ≤ n := by
  rw [uint32, ← Int.natCast_mod, Int.toNat_natCast]
  exact mod_le _ _

namespace Convertor

def elements (d : Datatype) (a : ℤ) (count : ℕ) : List (ℤ × ℕ) := strided count d.extent [(a, d.size)]

def Displaced (d : Datatype) (disp0 disp1 : ℤ) (p : ℕ) : Prop :=
  (d.size : ℤ) ≠ d.extent → disp0 + disp1 = (p / d.size : ℕ) * d.extent + (p % d.size : ℕ)

section Iov

variable {c : Convertor} {s : Contig} {data : List UInt8} {count size p : ℕ} {a extent : ℤ}

theorem displaced_add {d : Datatype} {k r : ℕ} (hsize : 0 < d.size) {user : ℤ} {i : ℕ}
    (hr : r < d.size) (huser : user = a + i * d.extent) (hp : p = (i + k) * d.size + r) :
    Displaced d (user + k * d.extent - a) r p := by
  intro _
  have hdiv : p / d.size = i + k := by
    rw [hp, add_comm, add_mul_div_right _ _ hsize, div_eq_of_lt hr, zero_add]
  have hmod : p % d.size = r := by
    rw [hp, add_comm, add_mul_mod_self_right, mod_eq_of_lt hr]
  rw [hdiv, hmod, huser]
  push_cast
  ring

theorem unpackContigIov_spec (hsize : 0 < c.type.size) (hlocal : c.localSize = count * c.type.size)
    (hdisp : Displaced c.type s.disp0 s.disp1 s.bConverted)
    (htotal : s.bConverted + data.length ≤ count * c.type.size) :
    (c.unpackContigIov s data).mem = scatter s.mem
        ((bytes (elements c.type c.initialDispl count)).drop s.bConverted) data ∧
      (c.unpackContigIov s data).bConverted = s.bConverted + data.length ∧
      Displaced c.type (c.unpackContigIov s data).disp0 (c.unpackContigIov s data).disp1
        (s.bConverted + data.length) := by
  have hremaining : (if c.localSize - s.bConverted > uint32 data.length then data.length
      else c.localSize - s.bConverted) = data.length := by
    have := uint32_le data.length
    rw [hlocal]
    split_ifs <;> omega
  unfold unpackContigIov
  dsimp only
  rw [hremaining]
  generalize c.initialDispl = a
  by_cases hextent : (c.type.size : ℤ) = c.type.extent
  · rw [if_pos hextent]
    refine ⟨?_, rfl, fun hne => absurd hextent hne⟩
    have hrun (n : ℕ) (hn : data.length ≤ n) : scatter s.mem (run (a + s.bConverted) n) data
        = scatter s.mem (run (a + s.bConverted) data.length) data := by
      rw [← scatter_take, run_take hn]
    dsimp only
    rw [elements, ← hextent, bytes_strided_run, run_drop (by omega)]
    exact (hrun _ (by omega)).symm
  · rw [if_neg hextent]
    have hdisp := hdisp hextent
    generalize hd : c.type = d at *
    generalize s.bConverted = p at *
    have hdone : p - p / d.size * d.size = p % d.size := by
      have := div_add_mod' p d.size
      omega
    have hp : p / d.size * d.size + p % d.size = p := div_add_mod' p d.size
    have hq : p % d.size < d.size := mod_lt _ hsize
    rw [hdone, hdisp]
    generalize p / d.size = i at *
    generalize p % d.size = q at *
    have hwritten {l : List ℤ} (h : ((bytes (elements d a count)).drop p).take data.length = l) :
        scatter s.mem l data = scatter s.mem ((bytes (elements d a count)).drop p) data := by
      rw [← h, scatter_take]
    by_cases hzero : q = 0
    · -- from the start of an element on
      have hsplit := div_add_mod' data.length d.size
      have hr := mod_lt data.length hsize
      have hpiece := @take_drop_start a d.extent count d.size i (data.length / d.size)
        (data.length % d.size) (by omega) hr
      rw [hsplit, show i * d.size = p by omega] at hpiece
      have hmod : data.length - data.length / d.size * d.size = data.length % d.size := by omega
      have hlength : (if q ≠ 0 ∧ d.size - q ≤ data.length then d.size - q else 0) = 0 :=
        if_neg fun h => h.1 hzero
      rw [hlength, if_neg (fun h => h rfl)]
      simp only [run_zero, scatter_nil_left, drop_zero, Nat.sub_zero, hmod]
      refine ⟨?_, trivial, displaced_add hsize hr (i := i) (by rw [hzero]; simp) ?_⟩
      · rw [← hwritten hpiece, scatter_append_left, length_bytes, width_strided]
        simp [hzero]
      · rw [add_mul]
        omega
    · by_cases hrest : d.size - q ≤ data.length
      · -- the rest of an element first
        have hsplit := div_add_mod' (data.length - (d.size - q)) d.size
        have hr := mod_lt (data.length - (d.size - q)) hsize
        have hpiece := @take_drop_middle a d.extent count d.size i
          ((data.length - (d.size - q)) / d.size) q ((data.length - (d.size - q)) % d.size)
          (by rw [succ_mul]; omega) hr hq.le
        rw [hsplit, hp, show d.size - q + (data.length - (d.size - q)) = data.length by omega] at hpiece
        have hmod : data.length - (d.size - q) - (data.length - (d.size - q)) / d.size * d.size
            = (data.length - (d.size - q)) % d.size := by omega
        have huser : a + (i * d.extent + q) + (d.extent - (d.size - (d.size - q) : ℕ))
            = a + (i + 1 : ℕ) * d.extent := by
          rw [show d.size - (d.size - q) = q by omega]
          push_cast
          ring
        have hlength : (if q ≠ 0 ∧ d.size - q ≤ data.length then d.size - q else 0) = d.size - q :=
          if_pos ⟨hzero, hrest⟩
        rw [hlength, if_pos (by omega)]
        simp only [hmod, huser]
        refine ⟨?_, trivial, displaced_add hsize hr (i := i + 1) rfl ?_⟩
        · rw [← hwritten hpiece, scatter_append_left, scatter_append_left, length_bytes, width_strided,
            length_run]
          simp [add_assoc]
        · rw [add_mul, succ_mul]
          omega
      · -- still inside the element
        have hlt : i < count := by
          by_contra hge
          have := mul_le_mul_right d.size (show count ≤ i by omega)
          omega
        have hpiece := @take_drop_inside a d.extent count d.size i q data.length hlt (by omega)
        rw [hp] at hpiece
        have hwhole : data.length / d.size = 0 := div_eq_of_lt (by omega)
        have hlength : (if q ≠ 0 ∧ d.size - q ≤ data.length then d.size - q else 0) = 0 :=
          if_neg fun h => hrest h.2
        rw [hlength, if_neg (fun h => h rfl)]
        simp only [run_zero, scatter_nil_left, drop_zero, Nat.sub_zero, hwhole, zero_mul,
          strided_zero, bytes_nil]
        refine ⟨?_, trivial, fun _ => ?_⟩
        · rw [← hwritten hpiece]
          simp [add_assoc]
        · have hdiv : (p + data.length) / d.size = i :=
            Nat.div_eq_of_lt_le (by omega) (by rw [succ_mul]; omega)
          have hmod := div_add_mod' (p + data.length) d.size
          rw [hdiv] at hmod ⊢
          rw [show (p + data.length) % d.size = q + data.length by omega]
          push_cast
          ring

theorem foldl_unpackContigIov (hsize : 0 < c.type.size)
    (hlocal : c.localSize = count * c.type.size) {iov : List (List UInt8)}
    (hdisp : Displaced c.type s.disp0 s.disp1 s.bConverted)
    (htotal : s.bConverted + iov.flatten.length ≤ count * c.type.size) :
    (iov.foldl c.unpackContigIov s).mem = scatter s.mem
        ((bytes (elements c.type c.initialDispl count)).drop s.bConverted) iov.flatten ∧
      (iov.foldl c.unpackContigIov s).bConverted = s.bConverted + iov.flatten.length ∧
      Displaced c.type (iov.foldl c.unpackContigIov s).disp0 (iov.foldl c.unpackContigIov s).disp1
        (s.bConverted + iov.flatten.length) := by
  induction iov generalizing s with
  | nil => exact ⟨by simp, rfl, hdisp⟩
  | cons data iov ih =>
    rw [flatten_cons, length_append, ← add_assoc] at htotal ⊢
    obtain ⟨hmem, hconverted, hdisp'⟩ := unpackContigIov_spec hsize hlocal hdisp
      (le_of_add_right_le htotal)
    rw [← hconverted] at hdisp' htotal ⊢
    obtain ⟨hmem', hconverted', hdisp''⟩ := ih hdisp' htotal
    refine ⟨?_, hconverted', hdisp''⟩
    have hsplit := @scatter_take_drop _ s.mem
      ((bytes (elements c.type c.initialDispl count)).drop s.bConverted) (data ++ iov.flatten)
      data.length
    rw [take_left, drop_left, drop_drop] at hsplit
    rw [foldl_cons, hmem', hmem, hconverted, hsplit]

end Iov

/-- The convertor is at byte `p` of the elements, which is not their end. -/
structure Placed (d : Datatype) (count : ℕ) (c : Convertor) (p : ℕ) : Prop where
  type : c.type = d
  localSize : c.localSize = count * d.size
  bConverted : c.bConverted = p
  stack : ∃ stack1 stack0, c.stack = [stack1, stack0] ∧ Displaced d stack0.disp stack1.disp p
  completed : c.completed = false
  inside : p < count * d.size

theorem placed_prepare {d : Datatype} {count : ℕ} (hcount : 0 < count) (hsize : 0 < d.size) :
    Placed d count (prepare d count) 0 := by
  refine ⟨rfl, rfl, rfl, ⟨_, _, rfl, fun _ => by simp⟩, ?_, mul_pos hcount hsize⟩
  simp [prepare]
  omega

theorem unpacks_homogeneousContig {d : Datatype} {count : ℕ} (hsize : 0 < d.size) :
    Unpacks (fun _ => unpackHomogeneousContig) (Placed d count) (fun _ _ => True)
      (bytes (elements d (initialDispl (prepare d count)) count)) where
  writes c p mem iov h htotal _ := by
    obtain ⟨rfl, hlocal, rfl, ⟨stack1, stack0, hstack, hdisp⟩, hcompleted, hinside⟩ := h
    have hlength : (bytes (elements c.type (initialDispl (prepare c.type count)) count)).length
        = count * c.type.size := by simp [elements]
    rw [hlength] at htotal ⊢
    obtain ⟨hmem, hconverted, hdisp'⟩ := @foldl_unpackContigIov c
      ⟨c.bConverted, stack0.disp, stack1.disp, mem⟩ count hsize hlocal iov hdisp htotal
    refine ⟨0, ?_, fun _ _ => ?_, ?_⟩
    rotate_left
    · rw [unpackHomogeneousContig, hstack]
      dsimp only
      rw [hmem]
      rfl
    · dsimp only at hconverted ⊢
      rcases htotal.eq_or_lt with heq | hlt
      · refine .inl ⟨heq, ?_⟩
        rw [decide_eq_true_iff, hconverted, heq, hlocal]
      · refine .inr ⟨rfl, hlocal, hconverted, ⟨_, _, rfl, hdisp'⟩, ?_, hlt⟩
        rw [decide_eq_false_iff_not, hconverted, hlocal]
        exact hlt.ne
  fails c p mem iov _ _ hnot := absurd trivial hnot
  mono _ h := h
  not_completed c p h := h.completed
  fit_nil p := trivial
  fit_append p lens lens' := by simp
  fit_end lens _ := trivial

def UnpackAlike (d : Datatype) (count : ℕ) (mem : ℤ → UInt8) (calls : List (List (List UInt8))) :
    Prop :=
  ∃ fuel c c' mem',
    unpackCalls (genericSimpleUnpack fuel) (prepare d count) mem calls = some (c, mem') ∧
      unpackCalls unpackHomogeneousContig (prepare d count) mem calls = some (c', mem')

variable {d : Datatype} {count : ℕ} {mem : ℤ → UInt8} {calls : List (List (List UInt8))}

theorem initialDispl_prepare {b : Body} (hb : Walkable d b) :
    initialDispl (prepare d count) = b.first := by
  obtain ⟨e, hdesc, hfirst⟩ := hb.optDesc_eq
  rw [initialDispl, prepare, hdesc, getLast?_append]
  exact hfirst

theorem bytes_unpackStream {b : Body}
    (hrun : ∀ same, bytes (b.seen same).blocks = run d.trueLb d.size) (hfirst : b.first = d.trueLb)
    (hb : Walkable d b) : bytes (unpackStream d b count)
      = bytes (elements d (initialDispl (prepare d count)) count) := by
  rw [initialDispl_prepare hb, hfirst]
  refine bytes_strided_congr ?_
  rw [hrun]
  simp

theorem genericSimple_eq_none {b : Body} (hb : Walkable d b) (hcount : 0 < count) (hsize : 0 < d.size)
    (htotal : calls.flatten.flatten.length ≤ count * d.size)
    (hnot : ¬AllFit (stream d.optDesc d.extent count) 0 (calls.flatten.map List.length)) (fuel : ℕ) :
    unpackCalls (genericSimpleUnpack fuel) (prepare d count) mem calls = none := by
  rw [← allFit_unpackStream hb] at hnot
  refine ((unpacks_genericSimple (pos_unpackStream hb)).run (.inr (ready_prepare hb hcount hsize))
    ?_).2 hnot fuel
  rw [length_bytes, width_unpackStream hb, zero_add]
  exact htotal

def paddedDouble : Datatype := ((Datatype.basic ⟨14, 8, by decide⟩ 8).ddtCreateResized 0 16).ddtCommit

theorem built_paddedDouble : paddedDouble.Built := .commit (.resized (.basic (by decide)))

theorem noOpGo_eq {a : ℤ} {pending : ℕ} {iov : List (List UInt8)} (h : iov.flatten.length ≤ pending) :
    noOpGo a pending mem iov
      = (pending - iov.flatten.length, scatter mem (run a pending) iov.flatten) := by
  induction iov generalizing a pending mem with
  | nil => simp [noOpGo]
  | cons data iov ih =>
    rw [flatten_cons, length_append] at h ⊢
    rw [noOpGo]
    split_ifs with hall
    · have hempty : iov.flatten = [] := length_eq_zero_iff.mp (by omega)
      rw [hempty, List.append_nil, length_nil, show pending - (data.length + 0) = 0 by omega]
    · have hsplit := @scatter_take_drop _ mem (run a pending) (data ++ iov.flatten) data.length
      rw [take_left, drop_left, run_drop (by omega)] at hsplit
      rw [ih (by omega), Nat.sub_sub, ← hsplit, ← @scatter_take _ mem (run a pending), run_take (by omega)]

theorem unpacks_noOp : Unpacks (fun _ => unpackNoOp)
    (fun c p => c.type = d ∧ c.localSize = count * d.size ∧ c.bConverted = p ∧ c.completed = false ∧
      p < count * d.size) (fun _ _ => True) (run d.trueLb (count * d.size)) where
  writes c p mem iov := by
    rintro ⟨rfl, hlocal, rfl, hcompleted, hinside⟩ htotal -
    rw [length_run] at htotal ⊢
    have hstep := @noOpGo_eq mem (c.type.trueLb + c.bConverted) (c.localSize - c.bConverted) iov (by omega)
    refine ⟨0, _, fun _ _ => by rw [unpackNoOp, hstep, run_drop hinside.le, hlocal], ?_⟩
    · dsimp only
      rcases htotal.eq_or_lt with heq | hlt
      · exact .inl ⟨heq, decide_eq_true (by omega)⟩
      · exact .inr ⟨rfl, rfl, by omega, decide_eq_false (by omega), hlt⟩
  fails c p mem iov _ _ hnot := absurd trivial hnot
  mono _ h := h
  not_completed c p h := h.2.2.2.1
  fit_nil p := trivial
  fit_append p lens lens' := by simp
  fit_end lens _ := trivial

/-- The fragments write the bytes of their stream where one call with all of it writes them. -/
def Inverts (checksum : Bool) (d : Datatype) (count : ℕ) (calls : List (List (List UInt8))) : Prop :=
  ∃ as : List ℤ, as.length = count * d.size ∧ ∀ mem, ∃ fuel c c',
    unpackCalls (unpackFunction checksum d count fuel) (prepare d count) mem [[calls.flatten.flatten]]
        = some (c, scatter mem as calls.flatten.flatten) ∧
      unpackCalls (unpackFunction checksum d count fuel) (prepare d count) mem calls
        = some (c', scatter mem as calls.flatten.flatten)

theorem Unpacks.inverts_iff_fit {checksum : Bool} {ready : Convertor → ℕ → Prop} {fit : ℕ → List ℕ → Prop}
    {as : List ℤ} (h : Unpacks (unpackFunction checksum d count) ready fit as)
    (hready : ready (prepare d count) 0) (hlength : as.length = count * d.size)
    (htotal : calls.flatten.flatten.length = count * d.size) (hwhole : fit 0 [count * d.size]) :
    Inverts checksum d count calls ↔ fit 0 (calls.flatten.map List.length) := by
  have hrun (mem : ℤ → UInt8) := @Unpacks.run _ _ _ _ _ _ mem calls h (.inr hready) (by omega)
  constructor
  · rintro ⟨as', -, hall⟩
    by_contra hnot
    obtain ⟨fuel, c, c', -, hcalls⟩ := hall 0
    rw [(hrun 0).2 hnot fuel] at hcalls
    cases hcalls
  · refine fun hfit => ⟨as, hlength, fun mem => ?_⟩
    obtain ⟨fuel, c, hcall⟩ := (@Unpacks.run _ _ _ _ _ _ mem [[calls.flatten.flatten]] h (.inr hready)
      (by simp [htotal, hlength])).1 (by simpa [htotal] using hwhole)
    obtain ⟨fuel', c', hcalls⟩ := (hrun mem).1 hfit
    refine ⟨max fuel fuel', c, c', ?_, hcalls _ (le_max_right _ _)⟩
    simpa using hcall _ (le_max_left _ _)

/-- A stream can be cut into any fragments if its datatype is contiguous.  Otherwise every fragment has
all the rest of the basic element that it starts in, and no basic element that a fragment ends in is
longer than 16 bytes. -/
theorem inverts_iff (hd : d.Built) (hcommitted : d.committed = true) (hfit : d.size < 2 ^ 31)
    (checksum : Bool) (htotal : calls.flatten.flatten.length = count * d.size) :
    Inverts checksum d count calls ↔ noOp checksum d count = true ∨ d.contiguous = true ∨
      AllFit (stream d.optDesc d.extent count) 0 (calls.flatten.map List.length) := by
  rcases Nat.eq_zero_or_pos (count * d.size) with hzero | hpos
  · have hcompleted := completed_prepare hzero
    refine iff_of_true ⟨[], hzero.symm, fun mem => ⟨0, prepare d count, prepare d count, ?_⟩⟩
      (.inr (.inr (allFit_zero ?_)))
    · rw [scatter_nil_left]
      exact ⟨unpackCalls_completed hcompleted 0, unpackCalls_completed hcompleted 0⟩
    · rw [← List.length_flatten]
      omega
  · have hcount : 0 < count := Nat.pos_of_mul_pos_right hpos
    have hsize : 0 < d.size := Nat.pos_of_mul_pos_left hpos
    obtain ⟨b, hb⟩ := hd.sound.walkable hcommitted hsize hfit
    by_cases hnoOp : noOp checksum d count = true
    · have hfunction : unpackFunction checksum d count = fun _ => unpackNoOp := by
        funext fuel
        rw [unpackFunction, if_pos hnoOp]
      have hunpacks := hfunction ▸ @unpacks_noOp d count
      refine (hunpacks.inverts_iff_fit ⟨rfl, rfl, rfl, ?_, hpos⟩ length_run htotal trivial).trans ?_
      · simp [prepare]
        omega
      · exact iff_of_true trivial (.inl hnoOp)
    by_cases hcontiguous : d.contiguous = true
    · have hfunction : unpackFunction checksum d count = fun _ => unpackHomogeneousContig := by
        funext fuel
        rw [unpackFunction, if_neg hnoOp, if_pos hcontiguous]
      have hunpacks := hfunction ▸ @unpacks_homogeneousContig d count hsize
      refine (hunpacks.inverts_iff_fit (placed_prepare hcount hsize) (by simp [elements]) htotal trivial).trans ?_
      exact iff_of_true trivial (.inr (.inl hcontiguous))
    · have hfunction : unpackFunction checksum d count = genericSimpleUnpack := by
        funext fuel
        rw [unpackFunction, if_neg hnoOp, if_neg hcontiguous]
      have hunpacks := hfunction ▸ unpacks_genericSimple (@pos_unpackStream d b hb count)
      have hwidth := @width_unpackStream d b hb count
      have hwhole : AllFit (unpackStream d b count) 0 [count * d.size] := by
        have hzero : (locate (unpackStream d b count) 0).2 = 0 := Nat.le_zero.mp locate_le
        refine ⟨⟨.inl hzero, .inl ?_⟩, trivial⟩
        rw [zero_add, ← hwidth, locate_width]
      refine (hunpacks.inverts_iff_fit (ready_prepare hb hcount hsize) (by rw [length_bytes, hwidth]) htotal
        hwhole).trans ?_
      rw [allFit_unpackStream hb]
      simp [hnoOp, hcontiguous]

theorem inverts_vector : Inverts false vector 1
    [[List.replicate 3 1], [List.replicate 13 2], [List.replicate 8 3]] :=
  (inverts_iff built_vector (by decide) (by decide) false (by decide)).mpr (by decide)

end Convertor

end OpenMPI.Ddt

/-!
## Packing contiguous datatypes with gaps

Every call of `ompi_pack_homogeneous_contig_with_gaps_function` that is `Fair` delivers what comes
next in the stream and says how much (`pack_spec`), so a run of such calls delivers the stream of
`ompi_generic_simple_pack_function` (`packAlike_of_fairCalls`).
-/

namespace OpenMPI.Ddt

open Lib List Nat

namespace Convertor

variable {d : Datatype} {c : Convertor} {call : PackCall} {count p : ℕ}

/-- The first iovec has the room for all that is allowed, and it begins at the start of an element
or has the rest of one; or the addresses of all that remains are asked for and go into iovecs. -/
def FairIov (c : Convertor) (maxData maxAllowed : ℕ) : List (Option ℕ) → Prop
  | [] => False
  | some length :: _ => maxAllowed ≤ length ∧
    (c.bConverted % c.type.size = 0 ∨ c.type.size - c.bConverted % c.type.size ≤ maxAllowed)
  | none :: iov =>
    c.count < iov.length + 1 ∧
        (c.bConverted % c.type.size = 0 ∨ c.localSize - c.bConverted ≤ c.type.size) ∨
      iov.length + 1 ≤ c.count ∧ iovecMemLimit ≤ c.type.size ∧
        (maxAllowed < c.type.size ∨ c.bConverted % c.type.size = 0 ∧
          c.localSize - c.bConverted ≤ maxData ∧
          c.localSize - c.bConverted ≤ (iov.length + 1) * c.type.size)

instance (c : Convertor) (maxData maxAllowed : ℕ) :
    ∀ iov, Decidable (c.FairIov maxData maxAllowed iov)
  | [] => inferInstanceAs (Decidable False)
  | some _ :: _ => inferInstanceAs (Decidable (_ ∧ _))
  | none :: _ => inferInstanceAs (Decidable (_ ∨ _))

def Fair (c : Convertor) (call : PackCall) : Prop :=
  min (c.localSize - c.bConverted) call.maxData = 0 ∨
    c.FairIov call.maxData (min (c.localSize - c.bConverted) call.maxData) call.iov

instance (c : Convertor) (call : PackCall) : Decidable (c.Fair call) :=
  inferInstanceAs (Decidable (_ ∨ _))

structure Exact (call : PackCall) (r : Packed) : Prop where
  outSize : r.outSize = r.out.length
  maxData : r.maxData = width r.blocks
  used : r.out.length ≤ call.iov.length
  fits : ∀ (k length : ℕ) (blocks : List (ℤ × ℕ)), call.iov[k]? = some (some length) →
    r.out[k]? = some (Filled.copied blocks) → width blocks ≤ length

theorem exact_empty : Exact call {} := ⟨rfl, rfl, zero_le _, nofun⟩

/-- The convertor is at byte `p` of the elements, which is not their end; the second entry of the
stack displaces nothing. -/
structure Lined (d : Datatype) (count : ℕ) (c : Convertor) (p : ℕ) : Prop where
  type : c.type = d
  count_eq : c.count = count
  localSize : c.localSize = count * d.size
  bConverted : c.bConverted = p
  stack : ∃ stack1 stack0, c.stack = [stack1, stack0] ∧ stack0.count = count ∧ stack1.disp = 0 ∧
    stack0.disp = (p / d.size : ℕ) * d.extent + (p % d.size : ℕ)
  completed : c.completed = false
  inside : p < count * d.size

theorem blocks_addresses (l : List (ℤ × ℕ)) : (l.map Filled.address).flatMap Filled.blocks = l := by
  induction l with
  | nil => rfl
  | cons b l ih => rw [map_cons, flatMap_cons, ih, Filled.blocks, singleton_append]

theorem exact_addresses {l : List (ℤ × ℕ)} (h : l.length ≤ call.iov.length) :
    Exact call ⟨l.map .address, l.length, width l⟩ := by
  refine ⟨by simp, by rw [Packed.blocks, blocks_addresses], by simpa using h, ?_⟩
  intro k length blocks _ hk
  simp at hk

def Delivers (d : Datatype) (count : ℕ) (c : Convertor) (call : PackCall) (p : ℕ) : Prop :=
  ∃ c' r, packHomogeneousContigWithGaps c call = some (c', r) ∧ Exact call r ∧
    bytes r.blocks = ((bytes (elements d c.initialDispl count)).drop p).take r.maxData ∧
    (p + r.maxData = count * d.size ∧ c'.completed = true ∨ Lined d count c' (p + r.maxData))

theorem delivers_return {stack1 stack0 : StackEntry} {user : ℤ} {out : List Filled} {total : ℕ}
    (h : Lined d count c p) (hstack : stack0.count = count)
    (hle : p + total ≤ count * d.size)
    (huser : p + total < count * d.size → user - c.initialDispl
      = ((p + total) / d.size : ℕ) * d.extent + ((p + total) % d.size : ℕ))
    (hrun : packHomogeneousContigWithGaps c call = some ({ c with
      bConverted := c.bConverted + total
      stack := [{ stack1 with disp := (0 : ℕ) }, { stack0 with disp := user - c.initialDispl }]
      completed := decide (c.bConverted + total = c.localSize) }, ⟨out, out.length, total⟩))
    (hexact : Exact call ⟨out, out.length, total⟩)
    (hbytes : bytes (out.flatMap Filled.blocks)
      = ((bytes (elements d c.initialDispl count)).drop p).take total) :
    Delivers d count c call p := by
  refine ⟨_, _, hrun, hexact, hbytes, ?_⟩
  dsimp only
  rcases hle.eq_or_lt with heq | hlt
  · refine .inl ⟨heq, ?_⟩
    rw [decide_eq_true_iff, h.bConverted, heq, h.localSize]
  · refine .inr ⟨h.type, h.count_eq, h.localSize, by rw [h.bConverted],
      ⟨_, _, rfl, hstack, Nat.cast_zero, huser hlt⟩, ?_, hlt⟩
    rw [decide_eq_false_iff_not, h.bConverted, h.localSize]
    exact hlt.ne

theorem delivers_nothing (h : Lined d count c p)
    (hzero : min (c.localSize - c.bConverted) call.maxData = 0) : Delivers d count c call p := by
  obtain ⟨stack1, stack0, hstack, hcount, hdisp1, hdisp0⟩ := h.stack
  refine @delivers_return d c call count p stack1 stack0
    (c.initialDispl + (stack0.disp + stack1.disp)) [] 0 h hcount h.inside.le (fun _ => ?_) ?_
    ⟨rfl, rfl, zero_le _, nofun⟩ rfl
  · rw [hdisp1, hdisp0, add_zero]
    ring
  · rw [packHomogeneousContigWithGaps, hstack]
    dsimp only
    rw [hzero]
    split
    · rfl
    · rw [if_pos rfl]

theorem copyElements_spec {i q m : ℕ} {a user : ℤ} (hsize : 0 < c.type.size)
    (hextent : (c.type.size : ℤ) ≠ c.type.extent) (hint : c.count < 2 ^ 31) (hp : i * c.type.size + q = p) (hq : q < c.type.size)
    (hm : p + m ≤ c.count * c.type.size) (hfair : q = 0 ∨ c.type.size - q ≤ m)
    (huser : user = a + i * c.type.extent + q) :
    ∃ blocks user', c.copyElements user q m = some (blocks, user') ∧
      bytes blocks = ((bytes (elements c.type a c.count)).drop p).take m ∧
      user' - a = ((p + m) / c.type.size : ℕ) * c.type.extent + ((p + m) % c.type.size : ℕ) := by
  generalize hd : c.type = d at *
  have hpending {bytes' : List ℤ} (user : ℤ) (r : ℕ) (h : bytes' = run user r) :
      bytes (if r ≠ 0 then [(user, r)] else []) = bytes' := by
    rw [h]
    split_ifs with hr
    · simp
    · obtain rfl : r = 0 := by omega
      rfl
  have hcounter {m : ℕ} (hm : m ≤ c.count * d.size) :
      min (uint32 (m / d.size : ℕ)) c.count = m / d.size := by
    have hle : m / d.size ≤ c.count := (div_le_iff_le_mul_add_pred hsize).mpr (by
      rw [mul_comm]
      omega)
    rw [uint32_eq (by omega)]
    exact min_eq_left hle
  unfold copyElements
  rw [hd]
  dsimp only
  by_cases hzero : q = 0
  · have hsplit := div_add_mod' m d.size
    have hr := mod_lt m hsize
    have hpiece := @take_drop_start a d.extent c.count d.size i (m / d.size) (m % d.size)
      (by omega) hr
    rw [hsplit, show i * d.size = p by omega] at hpiece
    have hmod : m - m / d.size * d.size = m % d.size := by omega
    have hdisp := @displaced_add (p + m) a d (m / d.size) (m % d.size) hsize user i hr
      (by rw [huser, hzero]; simp) (by rw [add_mul]; omega) hextent
    have hnot : ¬q ≠ 0 := fun h => h hzero
    have hlength : (if q ≠ 0 then d.size - q else 0) = 0 := if_neg hnot
    rw [hlength, if_neg (Nat.not_lt_zero _), if_neg hnot, if_neg hnot, Nat.sub_zero, hcounter (by omega), hmod]
    refine ⟨_, _, rfl, ?_, ?_⟩
    · rw [elements, hpiece, List.nil_append, bytes_append, hpending _ _ rfl, huser, hzero]
      simp
    · rw [← hdisp]
      ring
  · obtain hrest : d.size - q ≤ m := hfair.resolve_left hzero
    have hsplit := div_add_mod' (m - (d.size - q)) d.size
    have hr := mod_lt (m - (d.size - q)) hsize
    have hpiece := @take_drop_middle a d.extent c.count d.size i
      ((m - (d.size - q)) / d.size) q ((m - (d.size - q)) % d.size)
      (by rw [succ_mul]; omega) hr hq.le
    rw [hsplit, hp, show d.size - q + (m - (d.size - q)) = m by omega] at hpiece
    have hmod : m - (d.size - q) - (m - (d.size - q)) / d.size * d.size
        = (m - (d.size - q)) % d.size := by omega
    have hnext : user + (d.extent - d.size + (d.size - q : ℕ)) = a + (i + 1 : ℕ) * d.extent := by
      rw [huser]
      push_cast [hq.le]
      ring
    have hdisp := @displaced_add (p + m) a d ((m - (d.size - q)) / d.size)
      ((m - (d.size - q)) % d.size) hsize (a + (i + 1 : ℕ) * d.extent) (i + 1) hr rfl
      (by rw [add_mul, succ_mul]; omega) hextent
    have hlength : (if q ≠ 0 then d.size - q else 0) = d.size - q := if_pos hzero
    rw [hlength, if_neg (by omega), if_pos hzero, if_pos hzero, hcounter (by omega), hmod, hnext]
    refine ⟨_, _, rfl, ?_, ?_⟩
    · rw [elements, hpiece, bytes_append, bytes_append, hpending _ _ rfl, huser]
      simp
    · rw [← hdisp]
      ring

section Cases

variable {size q m : ℕ} {iov : List (Option ℕ)} {maxData : ℕ}

section

variable (h : Lined d count c p)

include h

theorem Lined.allowed : c.localSize - c.bConverted = count * d.size - p := by
  rw [h.localSize, h.bConverted]

theorem Lined.index (hint : count < 2 ^ 31) :
    uint32 (p / d.size : ℕ) = p / d.size := by
  have hlt : p / d.size < count := Nat.div_lt_of_lt_mul (by
    rw [mul_comm]
    exact h.inside)
  exact uint32_eq (by omega)

theorem delivers_copy (hsize : 0 < d.size) (hint : count < 2 ^ 31)
    (hextent : (d.size : ℤ) ≠ d.extent) {length : ℕ}
    (hm : min (count * d.size - p) maxData = m) (hne : m ≠ 0) (hlength : m ≤ length)
    (hfair : p % d.size = 0 ∨ d.size - p % d.size ≤ m) :
    Delivers d count c ⟨some length :: iov, maxData⟩ p := by
  obtain ⟨stack1, stack0, hstack, hcount, hdisp1, hdisp0⟩ := h.stack
  have hpos := h.inside
  have hindex := h.index hint
  have hp : p / d.size * d.size + p % d.size = p := div_add_mod' p d.size
  obtain ⟨rfl, rfl⟩ : c.type = d ∧ c.count = count := ⟨h.type, h.count_eq⟩
  obtain ⟨blocks, user, hcopy, hbytes, huser⟩ := @copyElements_spec c p (p / c.type.size)
    (p % c.type.size) m c.initialDispl (c.initialDispl + (stack0.disp + stack1.disp)) hsize hextent
    hint hp (mod_lt _ hsize) (by omega) hfair (by rw [hdisp1, hdisp0]; ring)
  have hwidth : width blocks = m := by
    have := congrArg List.length hbytes
    simp only [length_bytes, length_take, length_drop, elements, width_strided,
      width_cons, width_nil, add_zero] at this
    omega
  refine @delivers_return _ c _ _ p stack1 stack0 user [.copied blocks] m h hcount (by omega)
    (fun _ => huser) ?_ ⟨rfl, ?_, ?_, ?_⟩ ?_
  · rw [packHomogeneousContigWithGaps, hstack]
    dsimp only
    rw [h.allowed, hm, if_neg hne, if_neg (by simp), if_neg (by simp), if_neg nofun, h.bConverted,
      hindex, show p - p / c.type.size * c.type.size = p % c.type.size by omega, hcopy]
    simp
  · simp [Packed.blocks, Filled.blocks, hwidth]
  · simp
  · rintro (_ | k) len blocks' hlen hblocks
    · obtain rfl : length = len := by simpa using hlen
      obtain rfl : blocks = blocks' := by simpa using hblocks
      omega
    · simp at hblocks
  · simpa [Filled.blocks] using hbytes

theorem smallElements_spec (hsize : 0 < d.size) {stack0 : StackEntry}
    (hdisp : stack0.disp = (p / d.size : ℕ) * d.extent + (p % d.size : ℕ))
    (hfair : p % d.size = 0 ∨ count * d.size - p ≤ d.size) :
    bytes (c.smallElements stack0 (c.initialDispl + stack0.disp) (p / d.size))
      = (bytes (elements d c.initialDispl count)).drop p := by
  have hpos := h.inside
  have hp : p / d.size * d.size + p % d.size = p := div_add_mod' p d.size
  have hq : p % d.size < d.size := mod_lt _ hsize
  have hi : p / d.size < count := Nat.div_lt_of_lt_mul (by rw [mul_comm]; exact hpos)
  rw [smallElements, h.count_eq, h.type, h.bConverted]
  rcases hfair with hzero | hlast
  · have hblocks : ((range (count - p / d.size)).map fun j : ℕ =>
        if j = 0 then (c.initialDispl + stack0.disp, d.size - p % d.size)
        else (c.initialDispl + (stack0.disp + j * d.extent), d.size))
        = strided (count - p / d.size) d.extent
          [(c.initialDispl + (p / d.size : ℕ) * d.extent, d.size)] := by
      rw [strided_eq_flatMap]
      simp only [shift_cons, shift_nil]
      rw [← map_eq_flatMap]
      refine map_congr_left fun j _ => ?_
      rw [hdisp, hzero]
      split_ifs with hj
      · simp [hj]
      · simp [add_assoc]
    rw [hblocks, elements]
    conv_rhs => rw [← hp, hzero, add_zero, drop_bytes_strided hi.le]
  · have hone : count - p / d.size = 1 := by
      by_contra hne
      have := mul_le_mul_right d.size (show p / d.size + 2 ≤ count by omega)
      rw [add_mul] at this
      omega
    rw [hone, elements]
    conv_rhs => rw [← hp, drop_bytes_strided_add hi hq.le, show count - (p / d.size + 1) = 0 by omega]
    simp [hdisp, add_assoc]

theorem delivers_small (hsize : 0 < d.size) (hint : count < 2 ^ 31)
    (hm : min (count * d.size - p) maxData ≠ 0) (hlength : count < iov.length + 1)
    (hfair : p % d.size = 0 ∨ count * d.size - p ≤ d.size) :
    Delivers d count c ⟨none :: iov, maxData⟩ p := by
  obtain ⟨stack1, stack0, hstack, hcount, hdisp1, hdisp0⟩ := h.stack
  have hbytes := smallElements_spec h hsize hdisp0 hfair
  have hwidth := congrArg List.length hbytes
  simp only [length_bytes, length_drop, elements, width_strided, width_cons, width_nil,
    add_zero] at hwidth
  obtain ⟨c', hcompleted, hrun⟩ : ∃ c' : Convertor, c'.completed = true ∧
      packHomogeneousContigWithGaps c ⟨none :: iov, maxData⟩ = some (c',
        let blocks := c.smallElements stack0 (c.initialDispl + stack0.disp) (p / d.size)
        ⟨blocks.map .address, blocks.length, width blocks⟩) := by
    have hsmall : (none : Option ℕ) = none ∧ stack0.count < (none :: iov).length := by
      rw [hcount]
      exact ⟨rfl, hlength⟩
    refine ⟨?_, ?_, ?_⟩
    rotate_left 2
    · rw [packHomogeneousContigWithGaps, hstack]
      dsimp only
      rw [h.allowed, h.type, if_neg hm, if_pos hsmall, h.bConverted, h.index hint, hdisp1, add_zero]
    · rfl
  have hused : (c.smallElements stack0 (c.initialDispl + stack0.disp) (p / d.size)).length ≤ count := by
    rw [smallElements, length_map, length_range, h.count_eq]
    exact sub_le _ _
  refine ⟨c', _, hrun, exact_addresses (hused.trans (by simpa using hlength.le)), ?_,
    .inl ⟨?_, hcompleted⟩⟩
  · rw [Packed.blocks, blocks_addresses, hbytes]
    dsimp only
    rw [hwidth, take_of_length_le]
    simp [elements]
  · have := h.inside
    dsimp only
    omega

theorem delivers_big (hsize : 0 < d.size) (hint : count < 2 ^ 31)
    (hm : min (count * d.size - p) maxData ≠ 0) (hlength : iov.length + 1 ≤ count)
    (hlimit : iovecMemLimit ≤ d.size)
    (hfair : min (count * d.size - p) maxData < d.size ∨ p % d.size = 0 ∧
      count * d.size - p ≤ maxData ∧ count * d.size - p ≤ (iov.length + 1) * d.size) :
    Delivers d count c ⟨none :: iov, maxData⟩ p := by
  obtain ⟨stack1, stack0, hstack, hcount, hdisp1, hdisp0⟩ := h.stack
  have hpos := h.inside
  have hp : p / d.size * d.size + p % d.size = p := div_add_mod' p d.size
  have hi : p / d.size < count := Nat.div_lt_of_lt_mul (by rw [mul_comm]; exact hpos)
  have hrun : packHomogeneousContigWithGaps c ⟨none :: iov, maxData⟩ = some (
      let elements := min (min (count - p / d.size) (iov.length + 1))
        (min (count * d.size - p) maxData / d.size)
      ({ c with
          bConverted := p + elements * d.size
          completed := decide (p + elements * d.size = c.localSize) },
        ⟨(strided elements d.extent [(c.initialDispl + stack0.disp, d.size)]).map .address, elements,
          elements * d.size⟩)) := by
    rw [packHomogeneousContigWithGaps, hstack]
    dsimp only
    rw [h.allowed, h.type, if_neg hm, if_neg, if_pos ⟨rfl, hlimit⟩, h.bConverted, h.index hint,
      h.count_eq, hdisp1, add_zero, length_cons]
    rw [hcount, length_cons]
    exact fun h => absurd h.2 (by omega)
  generalize hn : min (min (count - p / d.size) (iov.length + 1))
    (min (count * d.size - p) maxData / d.size) = n at hrun
  have hexact : Exact ⟨none :: iov, maxData⟩
      ⟨(strided n d.extent [(c.initialDispl + stack0.disp, d.size)]).map .address, n, n * d.size⟩ := by
    have := @exact_addresses ⟨none :: iov, maxData⟩
      (strided n d.extent [(c.initialDispl + stack0.disp, d.size)]) (by simp; omega)
    simpa using this
  rcases hfair with hnone | ⟨hzero, hall, hroom⟩
  · -- the part of an element is not counted
    obtain rfl : n = 0 := by
      rw [div_eq_of_lt hnone] at hn
      omega
    refine ⟨_, _, hrun, hexact, by simp [Packed.blocks], .inr ⟨h.type, h.count_eq, h.localSize, by simp,
      ⟨stack1, stack0, hstack, hcount, hdisp1, by simpa using hdisp0⟩, ?_, by simpa using hpos⟩⟩
    rw [decide_eq_false_iff_not, h.localSize]
    omega
  · have hleft : count * d.size - p = (count - p / d.size) * d.size := by
      rw [Nat.sub_mul]
      omega
    obtain rfl : n = count - p / d.size := by
      rw [min_eq_left hall, hleft, Nat.mul_div_cancel _ hsize] at hn
      rw [hleft] at hroom
      have := Nat.le_of_mul_le_mul_right hroom hsize
      omega
    have hend : p + (count - p / d.size) * d.size = count * d.size := by omega
    refine ⟨_, _, hrun, hexact, ?_, .inl ⟨hend, ?_⟩⟩
    · have hdrop := @drop_bytes_strided c.initialDispl d.extent count d.size (p / d.size) hi.le
      rw [show p / d.size * d.size = p by omega] at hdrop
      rw [Packed.blocks, blocks_addresses, elements, hdrop, hdisp0, hzero, Nat.cast_zero, add_zero,
        take_of_length_le (by simp)]
    · rw [decide_eq_true_iff, hend, h.localSize]

end

end Cases

theorem delivers_of_fair (h : Lined d count c p) (hsize : 0 < d.size) (hint : count < 2 ^ 31)
    (hextent : (d.size : ℤ) ≠ d.extent) (hfair : Fair c call) : Delivers d count c call p := by
  obtain ⟨iov, maxData⟩ := call
  by_cases hzero : min (c.localSize - c.bConverted) maxData = 0
  · exact delivers_nothing h hzero
  · have hfair := hfair.resolve_left hzero
    rw [h.allowed] at hfair hzero
    rcases iov with _ | ⟨_ | length, iov⟩
    · exact absurd hfair id
    · rw [FairIov, h.allowed, h.type, h.bConverted, h.count_eq] at hfair
      rcases hfair with ⟨hlength, hfair⟩ | ⟨hlength, hlimit, hfair⟩
      · exact delivers_small h hsize hint hzero hlength hfair
      · exact delivers_big h hsize hint hzero hlength hlimit hfair
    · rw [FairIov, h.type, h.bConverted] at hfair
      exact delivers_copy h hsize hint hextent rfl hzero hfair.1 hfair.2

/-- All the calls of a run are fair, each where the one before it ended. -/
def FairCalls : Convertor → List PackCall → Prop
  | _, [] => True
  | c, call :: calls =>
    if c.completed then FairCalls c calls
    else c.Fair call ∧
      match packHomogeneousContigWithGaps c call with
      | none => True
      | some (c', _) => FairCalls c' calls

theorem packCalls_completed (h : c.completed = true) (calls : List PackCall) :
    packCalls packHomogeneousContigWithGaps c calls = some (c, calls.map fun _ => {}) := by
  induction calls with
  | nil => rfl
  | cons call calls ih => rw [packCalls, if_pos h, Option.bind_some, ih, Option.map_some, map_cons]

def genericStream (fuel : ℕ) (d : Datatype) (count : ℕ) : Option (List ℤ) :=
  if (prepare d count).completed then some []
  else (genericSimplePack fuel (prepare d count) [count * d.size]).map fun r => r.2.flatMap bytes

/-- Every call tells what it delivered, and together they deliver the stream of the generic function
as far as they go, all of it if they complete the convertor. -/
def PackAlike (d : Datatype) (count : ℕ) (calls : List PackCall) : Prop :=
  ∃ c outs fuel stream,
    packCalls packHomogeneousContigWithGaps (prepare d count) calls = some (c, outs) ∧
      List.Forall₂ Exact calls outs ∧ genericStream fuel d count = some stream ∧
      outs.flatMap (fun r => bytes r.blocks) <+: stream ∧
      (c.completed = true → outs.flatMap (fun r => bytes r.blocks) = stream)

theorem Lined.initialDispl_eq (h : Lined d count c p) :
    c.initialDispl = (prepare d count).initialDispl := by
  rw [initialDispl, h.type]
  rfl

theorem lined_prepare (hcount : 0 < count) (hsize : 0 < d.size) :
    Lined d count (prepare d count) 0 := by
  refine ⟨rfl, rfl, rfl, rfl, ⟨_, _, rfl, rfl, rfl, by simp⟩, ?_, mul_pos hcount hsize⟩
  simp [prepare]
  omega

theorem packCalls_of_fairCalls (hsize : 0 < d.size) (hint : count < 2 ^ 31)
    (hextent : (d.size : ℤ) ≠ d.extent) {calls : List PackCall}
    (h : p = count * d.size ∧ c.completed = true ∨ Lined d count c p) (hfair : FairCalls c calls) :
    ∃ c' outs, packCalls packHomogeneousContigWithGaps c calls = some (c', outs) ∧
      List.Forall₂ Exact calls outs ∧
      outs.flatMap (fun r => bytes r.blocks)
        <+: (bytes (elements d (prepare d count).initialDispl count)).drop p ∧
      (c'.completed = true → outs.flatMap (fun r => bytes r.blocks)
        = (bytes (elements d (prepare d count).initialDispl count)).drop p) := by
  induction calls generalizing c p with
  | nil =>
    refine ⟨c, [], rfl, .nil, List.nil_prefix, fun hcompleted => ?_⟩
    rcases h with ⟨rfl, -⟩ | h
    · exact (drop_of_length_le (by simp [elements])).symm
    · rw [h.completed] at hcompleted
      cases hcompleted
  | cons call calls ih =>
    rcases h with ⟨rfl, hcompleted⟩ | h
    · have hnil : (bytes (elements d (prepare d count).initialDispl count)).drop (count * d.size)
          = [] := drop_of_length_le (by simp [elements])
      have hout (l : List PackCall) :
          (l.map fun _ => ({} : Packed)).flatMap (fun r => bytes r.blocks) = [] := by
        simp [Packed.blocks]
      refine ⟨c, _, packCalls_completed hcompleted _, ?_, ?_, fun _ => ?_⟩
      · rw [forall₂_map_right_iff]
        exact forall₂_same.mpr fun _ _ => exact_empty
      · rw [hout]
        exact List.nil_prefix
      · rw [hout, hnil]
    · have hopen : ¬c.completed = true := by
        rw [h.completed]
        exact Bool.false_ne_true
      rw [FairCalls, if_neg hopen] at hfair
      obtain ⟨c', r, hrun, hexact, hbytes, hnext⟩ :=
        delivers_of_fair h hsize hint hextent hfair.1
      have hrest : FairCalls c' calls := by
        have := hfair.2
        rwa [hrun] at this
      obtain ⟨c'', outs, hcalls, hexacts, hpre, hall⟩ := ih hnext hrest
      have hsplit : (bytes (elements d (prepare d count).initialDispl count)).drop p
          = bytes r.blocks ++
            (bytes (elements d (prepare d count).initialDispl count)).drop (p + r.maxData) := by
        rw [hbytes, h.initialDispl_eq, ← drop_drop, take_append_drop]
      refine ⟨c'', r :: outs, ?_, .cons hexact hexacts, ?_, fun hcompleted => ?_⟩
      · rw [packCalls, if_neg hopen, hrun, Option.bind_some, hcalls, Option.map_some]
      · rw [flatMap_cons, hsplit]
        exact (prefix_append_right_inj _).mpr hpre
      · rw [flatMap_cons, hsplit, hall hcompleted]

end Convertor

end OpenMPI.Ddt
