import Mathlib.Data.List.TakeWhile
import OpenMPI.Lib.Decimal
import OpenMPI.SocketRaw.StartOfTx

/-!
# What the server reads of the name and the size of a file

In the frame there are the name, a blank and the digits of the size (`startOfTx_eq`).  The server gets the name up to its first white
space, so that it is right for names without any which fit its array, and sizes of an `int` (`inicioTx_iff`).
-/

namespace OpenMPI.SocketRaw

open List

open Btl (int32)

namespace Buffer

variable {b : Buffer} {offset n m : ℕ} {l : List UInt8}

theorem bytes_add : b.bytes offset (n + m) = b.bytes offset n ++ b.bytes (offset + n) m := by
  simp [bytes, range_add, add_assoc]

theorem bytes_memcpy (l' : List UInt8) : (b.memcpy offset (l ++ l')).bytes offset l.length = l := by
  refine ext_getElem (by simp [bytes]) fun k _ hk => ?_
  simp [bytes, memcpy, hk, Nat.lt_add_right]

theorem bytes_memcpy_append {start : ℕ} {before : List UInt8} (h : b.bytes start before.length = before)
    (hoffset : offset = start + before.length) :
    (b.memcpy offset l).bytes start (before ++ l).length = before ++ l := by
  subst hoffset
  have hafter := @bytes_memcpy b (start + before.length) l []
  rw [append_nil] at hafter
  have hbefore : (b.memcpy (start + before.length) l).bytes start before.length = before := by
    conv_rhs => rw [← h]
    refine map_congr_left fun k hk => ?_
    rw [mem_range] at hk
    rw [memcpy, if_neg (by omega)]
  rw [length_append, bytes_add, hbefore, hafter]

end Buffer

theorem startOfTx_eq {data : Buffer} {filename payload : List UInt8} {filesize : ℤ} (h : startOfTx data filename filesize = some payload) :
    payload = filename ++ [blank] ++ printInt filesize := by
  unfold startOfTx at h
  dsimp only at h
  split at h
  · rw [← Option.some.inj h]
    have hname := @Buffer.bytes_memcpy (data.memcpy 0 [0xFF, 67]) rawHeaderLen filename [0]
    have hblank := @Buffer.bytes_memcpy_append _ (filename.length + 1 + 1) [blank] _ _ hname (by
      unfold rawHeaderLen
      omega)
    have hsize := @Buffer.bytes_memcpy_append _ (rawHeaderLen + (filename.length + 1)) (printInt filesize) _ _ hblank (by simp)
    rw [length_append, length_append] at hsize
    exact hsize
  · cases h

theorem strtok_spec {s token rest : List UInt8} (h : strtok s = some (token, rest)) :
    token ≠ [] ∧ (∀ c ∈ token, c ∈ s) ∧ ∀ c ∈ rest, c ∈ s := by
  unfold strtok at h
  dsimp only at h
  by_cases hs : s.dropWhile (· = slash) = []
  · rw [if_pos hs] at h
    cases h
  · rw [if_neg hs, Option.some.injEq, Prod.mk.injEq] at h
    obtain ⟨rfl, rfl⟩ := h
    refine ⟨?_, fun c hc => ?_, fun c hc => ?_⟩
    · obtain ⟨c, rest, heq⟩ := exists_cons_of_ne_nil hs
      have hc : c ≠ slash := by
        have := head_dropWhile_not (fun c : UInt8 => decide (c = slash)) hs
        simpa [heq] using this
      rw [heq, takeWhile_cons_of_pos (by simpa using hc)]
      exact cons_ne_nil _ _
    · exact (dropWhile_suffix _).subset ((List.takeWhile_prefix _).subset hc)
    · exact (dropWhile_suffix _).subset ((dropWhile_suffix _).subset (mem_of_mem_tail hc))

theorem tokenLoop_spec : ∀ {fuel : ℕ} {parse : List UInt8} {filename : Option (List UInt8)} {name : List UInt8},
    tokenLoop fuel parse filename = some name → filename = some name ∨ name ≠ [] ∧ ∀ c ∈ name, c ∈ parse
  | 0, _, _, _, h => .inl h
  | fuel + 1, parse, filename, name, h => by
    unfold tokenLoop at h
    cases htok : strtok parse with
    | none =>
      rw [htok] at h
      exact .inl h
    | some t =>
      obtain ⟨token, rest⟩ := t
      rw [htok] at h
      obtain ⟨hne, htoken, hrest⟩ := strtok_spec htok
      rcases tokenLoop_spec h with heq | ⟨hname, hmem⟩
      · exact .inr (Option.some.inj heq ▸ ⟨hne, htoken⟩)
      · exact .inr ⟨hname, fun c hc => hrest c (hmem c hc)⟩

theorem filenameOf_spec {path name : List UInt8} (h : filenameOf path = some name) : name ≠ [] ∧ ∀ c ∈ name, c ∈ path := by
  unfold filenameOf at h
  split at h
  · rcases tokenLoop_spec h with hnone | hspec
    · cases hnone
    · exact hspec
  · cases h

theorem toNat_ascii {c : Char} (h : c.isDigit = true) : (UInt8.ofNat c.toNat).toNat = c.toNat ∧ 48 ≤ c.toNat ∧ c.toNat ≤ 57 := by
  simp only [Char.isDigit, Bool.and_eq_true, decide_eq_true_eq] at h
  have hlow : 48 ≤ c.toNat := h.1
  have hhigh : c.toNat ≤ 57 := h.2
  refine ⟨?_, hlow, hhigh⟩
  rw [UInt8.toNat_ofNat']
  omega

theorem isdigit_ascii {s : List Char} (h : ∀ c ∈ s, c.isDigit = true) : ∀ b ∈ ascii s, isdigit b = true := by
  intro b hb
  obtain ⟨c, hc, rfl⟩ := mem_map.mp hb
  obtain ⟨heq, hlow, hhigh⟩ := toNat_ascii (h c hc)
  simp [isdigit, heq, hlow, hhigh]

theorem chars_ascii {s : List Char} (h : ∀ c ∈ s, c.isDigit = true) : chars (ascii s) = s := by
  unfold chars ascii
  rw [map_map]
  refine (map_congr_left fun c hc => ?_).trans (map_id s)
  rw [Function.comp_apply, (toNat_ascii (h c hc)).1, Char.ofNat_toNat, id]

theorem not_isspace_of_isdigit {c : UInt8} (h : isdigit c = true) : isspace c = false := by
  simp only [isdigit, decide_eq_true_eq] at h
  have hblank : c ≠ blank := by
    rintro rfl
    exact absurd h.1 (by decide)
  simp only [isspace, hblank, decide_eq_false_iff_not, not_or, not_and]
  exact ⟨not_false, by omega⟩

theorem digits_toDigits (n : ℕ) : ∀ c ∈ Nat.toDigits 10 n, c.isDigit = true := fun _ =>
  Nat.isDigit_of_mem_toDigits (by decide) (by decide)

theorem read_digits (n : ℕ) : ∃ d rest, ascii (Nat.toDigits 10 n) = d :: rest ∧ isdigit d = true ∧
    (d :: rest).takeWhile isdigit = d :: rest ∧ Nat.ofDigitChars 10 (chars (d :: rest)) 0 = n := by
  have hdigit := isdigit_ascii (digits_toDigits n)
  have hvalue : Nat.ofDigitChars 10 (chars (ascii (Nat.toDigits 10 n))) 0 = n := by
    rw [chars_ascii (digits_toDigits n)]
    exact Lib.digitsValue_toDigits n
  cases hd : ascii (Nat.toDigits 10 n) with
  | nil =>
    have hne : Nat.toDigits 10 n ≠ [] := Nat.toDigits_ne_nil
    rw [ascii, map_eq_nil_iff] at hd
    exact absurd hd hne
  | cons d rest =>
    rw [hd] at hdigit hvalue
    exact ⟨d, rest, rfl, hdigit d mem_cons_self, takeWhile_eq_self_iff.mpr hdigit, hvalue⟩

theorem scanInt_printInt {i : ℤ} (h : -2 ^ 63 ≤ i ∧ i < 2 ^ 63) : scanInt (blank :: printInt i) = some (int32 i) := by
  obtain ⟨d, rest, hdigits, hd, htake, hvalue⟩ := read_digits i.natAbs
  have hdrop : ∀ c s, isspace c = false → (blank :: c :: s).dropWhile isspace = c :: s := by
    intro c s hc
    rw [dropWhile_cons_of_pos (by decide), dropWhile_cons_of_neg (by simp [hc])]
  unfold scanInt printInt
  by_cases hneg : i < 0
  · rw [if_pos hneg, ascii, map_cons, ← ascii, hdigits]
    dsimp only
    rw [hdrop _ _ (by decide), head?_cons, if_pos (by decide), tail_cons, htake]
    dsimp only
    rw [hvalue, Option.map_some]
    congr 2
    omega
  · rw [if_neg hneg, hdigits]
    have hsign : ∀ c : UInt8, isdigit c = false → some d ≠ some c := by
      rintro c hc ⟨⟩
      rw [hc] at hd
      cases hd
    dsimp only
    rw [hdrop _ _ (not_isspace_of_isdigit hd), head?_cons, if_neg (hsign 45 (by decide)), if_neg (hsign 43 (by decide)), htake]
    dsimp only
    rw [hvalue, Option.map_some]
    congr 2
    omega

theorem ne_zero_printInt (i : ℤ) : ∀ c ∈ printInt i, c ≠ 0 := by
  have hdigit := isdigit_ascii (digits_toDigits i.natAbs)
  have hdigits : ∀ c ∈ ascii (Nat.toDigits 10 i.natAbs), c ≠ 0 := by
    rintro c hc rfl
    exact absurd (hdigit 0 hc) (by decide)
  intro c hc
  unfold printInt at hc
  split at hc
  · rcases mem_cons.mp hc with rfl | hc
    · decide
    · exact hdigits c hc
  · exact hdigits c hc

section

variable {data : Buffer} {path name payload filename : List UInt8} {stSize pad : ℕ} {filesize : ℤ}

theorem leerNombre_eq (hzero : ∀ c ∈ name, c ≠ 0) {i : ℤ} :
    Server.leerNombre (name ++ [blank] ++ printInt i ++ replicate pad 0) filename filesize =
      let s := (name ++ blank :: printInt i).dropWhile isspace
      if 256 ≤ (s.takeWhile fun c => !isspace c).length then none
      else some (s.takeWhile fun c => !isspace c, (scanInt (s.dropWhile fun c => !isspace c)).getD filesize) := by
  have hstring : cString (name ++ [blank] ++ printInt i ++ replicate pad 0) = name ++ blank :: printInt i := by
    have hall : ∀ c ∈ name ++ blank :: printInt i, decide (c ≠ 0) = true := by
      intro c hc
      refine decide_eq_true ?_
      rcases mem_append.mp hc with hc | hc
      · exact hzero c hc
      · rcases mem_cons.mp hc with rfl | hc
        · decide
        · exact ne_zero_printInt i c hc
    have hpad : (replicate pad (0 : UInt8)).takeWhile (fun c => decide (c ≠ 0)) = [] := by
      cases pad with
      | zero => rfl
      | succ pad => exact takeWhile_cons_of_neg (by decide)
    rw [cString, append_assoc name, singleton_append, takeWhile_append_of_pos hall, hpad, append_nil]
  have hsome : (name ++ blank :: printInt i).dropWhile isspace ≠ [] := by
    obtain ⟨d, rest, hdigits, hd, -, -⟩ := read_digits i.natAbs
    have hmem : d ∈ name ++ blank :: printInt i := by
      refine mem_append_right _ (mem_cons_of_mem _ ?_)
      have hmem : d ∈ ascii (Nat.toDigits 10 i.natAbs) := hdigits ▸ mem_cons_self
      unfold printInt
      split
      · exact mem_cons_of_mem _ hmem
      · exact hmem
    intro hnil
    have := dropWhile_eq_nil_iff.mp hnil d hmem
    rw [not_isspace_of_isdigit hd] at this
    cases this
  unfold Server.leerNombre
  rw [hstring]
  dsimp only
  rw [if_neg hsome]

theorem leerNombre_of_plain (hne : name ≠ []) (hzero : ∀ c ∈ name, c ≠ 0) (hplain : ∀ c ∈ name, isspace c = false) {i : ℤ}
    (hi : -2 ^ 63 ≤ i ∧ i < 2 ^ 63) :
    Server.leerNombre (name ++ [blank] ++ printInt i ++ replicate pad 0) filename filesize =
      if 256 ≤ name.length then none else some (name, int32 i) := by
  have hdrop : (name ++ blank :: printInt i).dropWhile isspace = name ++ blank :: printInt i := by
    obtain ⟨c, rest, rfl⟩ := exists_cons_of_ne_nil hne
    exact dropWhile_cons_of_neg (by simp [hplain c mem_cons_self])
  have hplain' : ∀ c ∈ name, (!isspace c) = true := fun c hc => by simp [hplain c hc]
  have hblank : (blank :: printInt i).takeWhile (fun c => !isspace c) = [] := takeWhile_cons_of_neg (by decide)
  have hafter : (blank :: printInt i).dropWhile (fun c => !isspace c) = blank :: printInt i := dropWhile_cons_of_neg (by decide)
  rw [leerNombre_eq hzero]
  dsimp only
  rw [hdrop, takeWhile_append_of_pos hplain', dropWhile_append_of_pos hplain', hblank, hafter, append_nil,
    scanInt_printInt hi, Option.getD_some]

theorem plain_of_leerNombre (hzero : ∀ c ∈ name, c ≠ 0) {i : ℤ} {read : List UInt8} {size : ℤ}
    (h : Server.leerNombre (name ++ [blank] ++ printInt i ++ replicate pad 0) filename filesize = some (read, size)) :
    ∀ c ∈ read, isspace c = false := by
  rw [leerNombre_eq hzero] at h
  dsimp only at h
  split at h
  · cases h
  · rw [Option.some.injEq, Prod.mk.injEq] at h
    obtain ⟨rfl, -⟩ := h
    intro c hc
    simpa using mem_takeWhile_imp hc

theorem int32_bounds (n : ℤ) : -2 ^ 31 ≤ int32 n ∧ int32 n < 2 ^ 31 := ⟨Int.le_bmod (by decide), Int.bmod_lt (by decide)⟩

theorem int32_stSize_iff : int32 (stSize : ℤ) = stSize ↔ stSize < 2 ^ 31 := by
  constructor
  · intro h
    have := (int32_bounds stSize).2
    omega
  · intro h
    exact Int.bmod_eq_of_le (by omega) (by omega)

theorem leerNombre_inicioTx (hpath : ∀ c ∈ path, c ≠ 0) (hname : filenameOf path = some name)
    (h : Client.inicioTx data path stSize = some payload) (hplain : ∀ c ∈ name, isspace c = false) :
    Server.leerNombre (payload ++ replicate pad 0) filename filesize =
      if 256 ≤ name.length then none else some (name, int32 stSize) := by
  rw [Client.inicioTx, hname, Option.bind_some] at h
  obtain ⟨hne, hsub⟩ := filenameOf_spec hname
  have hbounds := int32_bounds stSize
  have htwice : int32 (int32 (stSize : ℤ)) = int32 stSize := Int.bmod_bmod
  rw [startOfTx_eq h, leerNombre_of_plain hne (fun c hc => hpath c (hsub c hc)) hplain (by omega), htwice]

/-- The server gets the name and the size of a file just if there is no white space in the name, it fits its array, and the size is an
`int`. -/
theorem inicioTx_iff (hpath : ∀ c ∈ path, c ≠ 0) (hname : filenameOf path = some name)
    (h : Client.inicioTx data path stSize = some payload) :
    Server.leerNombre (payload ++ List.replicate pad 0) filename filesize = some (name, (stSize : ℤ)) ↔
      (∀ c ∈ name, isspace c = false) ∧ name.length < 256 ∧ stSize < 2 ^ 31 := by
  constructor
  · intro hread
    have hplain : ∀ c ∈ name, isspace c = false := by
      have hsent := h
      rw [Client.inicioTx, hname, Option.bind_some] at hsent
      rw [startOfTx_eq hsent] at hread
      exact plain_of_leerNombre (fun c hc => hpath c ((filenameOf_spec hname).2 c hc)) hread
    rw [leerNombre_inicioTx hpath hname h hplain] at hread
    split at hread
    · cases hread
    · rename_i hlength
      rw [Option.some.injEq, Prod.mk.injEq] at hread
      exact ⟨hplain, Nat.lt_of_not_le hlength, int32_stSize_iff.mp hread.2⟩
  · rintro ⟨hplain, hlength, hsize⟩
    rw [leerNombre_inicioTx hpath hname h hplain, if_neg (Nat.not_le_of_lt hlength), int32_stSize_iff.mpr hsize]

theorem inicioTx_iff_hosts :
    Server.leerNombre (ascii ['h', 'o', 's', 't', 's', ' ', '1', '5', '8'] ++ List.replicate 35 0) [] 0 =
      some (ascii ['h', 'o', 's', 't', 's'], 158) :=
  (@inicioTx_iff (fun _ => 0) (ascii ['/', 'e', 't', 'c', '/', 'h', 'o', 's', 't', 's']) _ _ [] 158 35 0
    (by simp [ascii]) (by decide) (by decide)).mpr ⟨by simp [ascii, isspace, blank], by decide, by decide⟩

/-- The server takes the name to end at its first blank. -/
theorem not_inicioTx_blank :
    ¬∀ (data : Buffer) (path name payload filename : List UInt8) (stSize pad : ℕ) (filesize : ℤ), (∀ c ∈ path, c ≠ 0) →
      filenameOf path = some name → Client.inicioTx data path stSize = some payload →
      Server.leerNombre (payload ++ List.replicate pad 0) filename filesize = some (name, (stSize : ℤ)) := by
  intro h
  have := h (fun _ => 0) (ascii ['a', ' ', 'b']) (ascii ['a', ' ', 'b']) (ascii ['a', ' ', 'b', ' ', '5']) [] 5 39 0
    (by simp [ascii]) (by decide) (by decide)
  exact absurd this (by decide)

end

end OpenMPI.SocketRaw
