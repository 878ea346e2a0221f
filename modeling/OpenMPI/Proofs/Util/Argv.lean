import Mathlib.Data.List.Induction
import Mathlib.Data.List.TakeWhile
import OpenMPI.Util.Argv

/-!
# Where arrays of strings are lists

`opal_argv_delete` subtracts from `argc` what it was asked to delete and not what there was, `opal_argv_join_range` has no
room for the end of an empty string, and a delimiter that is no `char` is never found again.
-/

namespace OpenMPI.Util.Argv

open List

variable {l l' : List Str} {argv : Items} {arg : Str} {start num delimiter : ℤ}

theorem countLoop_eq (l : List Str) : countLoop (ended l) = l.length := by
  induction l with
  | nil => rfl
  | cons s l ih => exact congrArg (· + 1) ih

theorem Holds.unique (h : Holds argv l) (h' : Holds argv l') : l = l' := by
  cases argv with
  | none => exact Eq.trans h h'.symm
  | some cells =>
    have hmap : l.map Cell.str = l'.map .str := append_cancel_right (Eq.trans h.symm h')
    exact map_injective_iff.mpr (fun _ _ heq => Cell.str.inj heq) hmap

theorem Holds.count (h : Holds argv l) : count argv = l.length := by
  cases argv with
  | none => exact (congrArg length h).symm
  | some cells => exact (congrArg countLoop h).trans (countLoop_eq l)

theorem Holds.append (h : Holds argv l) (arg : Str) : Holds (appendNosize argv arg) (l ++ [arg]) := by
  cases argv with
  | none => rw [show l = [] from h]; rfl
  | some cells =>
    obtain rfl : cells = ended l := h
    show ((realloc _ (countLoop (ended l) + 2)).set _ _).set _ _ = _
    rw [countLoop_eq, realloc]
    simp [take_of_length_le]

theorem present_eq (l : List Str) : present arg (ended l) = decide (arg ∈ l) := by
  induction l with
  | nil => rfl
  | cons s l ih => simp [present, ih]

theorem Holds.appendAll (h : Holds argv l) (l' : List Str) :
    Holds (appendAll argv (ended l')) (l ++ l') := by
  induction l' generalizing argv l with
  | nil => rwa [append_nil]
  | cons s l' ih =>
    have h' := ih (h.append s)
    rwa [append_assoc] at h'

theorem deleteLoop_spec {n : ℕ} (hn : 0 < n) (pre del suf tail : List Cell) (hdel : suf ≠ [] → del.length = n) :
    ∃ rest, deleteLoop n suf.length pre.length (pre ++ del ++ suf ++ tail) = pre ++ suf ++ rest ∧
      rest.length = del.length + tail.length := by
  induction suf generalizing pre del with
  | nil => exact ⟨del ++ tail, by simp [deleteLoop], length_append⟩
  | cons c suf ih =>
    have hdel := hdel (cons_ne_nil c suf)
    obtain ⟨d, ds, rfl⟩ := exists_cons_of_length_pos (hdel ▸ hn)
    have hget : (pre ++ d :: ds ++ c :: suf ++ tail).getD (pre.length + n) .junk = c := by
      simp [getD_eq_getElem?_getD, ← hdel]
    have hset : (pre ++ d :: ds ++ c :: suf ++ tail).set pre.length c = (pre ++ [c]) ++ (ds ++ [c]) ++ suf ++ tail := by
      simp
    obtain ⟨rest, hloop, hlen⟩ := ih (pre ++ [c]) (ds ++ [c]) fun _ => by simpa using hdel
    refine ⟨rest, ?_, by simpa using hlen⟩
    rw [length_cons, deleteLoop, hget, hset]
    simpa using hloop

theorem Holds.delete (h : Holds argv l) (hargv : argv ≠ none) (hstart : 0 ≤ start) (hle : start ≤ l.length)
    (hnum : 0 < num) (argc : ℤ) : (delete argc argv start num).2.1 = argc - num ∧
      Holds (delete argc argv start num).2.2 (l.take start.toNat ++ l.drop (start.toNat + num.toNat)) := by
  cases argv with
  | none => exact absurd rfl hargv
  | some cells =>
    obtain rfl : cells = ended l := h
    dsimp only [Argv.delete]
    rw [countLoop_eq, if_neg (by omega), if_neg (by omega), if_neg (by omega)]
    refine ⟨rfl, ?_⟩
    obtain ⟨n, rfl⟩ := Int.eq_ofNat_of_zero_le (le_of_lt hnum)
    obtain ⟨i, rfl⟩ := Int.eq_ofNat_of_zero_le hstart
    have hsuffix : ((l.length : ℤ) - (i + n)).toNat = ((l.drop (i + n)).map Cell.str).length := by
      simp
      omega
    have hpre : ((l.take i).map Cell.str).length = i := by
      simp
      omega
    have hcells : ended l =
        (l.take i).map .str ++ ((l.drop i).take n).map .str ++ (l.drop (i + n)).map .str ++ [.null] := by
      rw [← map_append, ← map_append, append_assoc, ← drop_drop, take_append_drop, take_append_drop]
    obtain ⟨rest, hloop, hlen⟩ := deleteLoop_spec (show 0 < n by omega) ((l.take i).map Cell.str)
      (((l.drop i).take n).map .str) ((l.drop (i + n)).map .str) [.null] fun hne => by
        have := length_pos_iff.mpr hne
        simp at this ⊢
        omega
    obtain ⟨r, rest, rfl⟩ := exists_cons_of_length_pos (show 0 < rest.length by simp [hlen])
    show realloc _ _ = _
    rw [Int.toNat_natCast, Int.toNat_natCast, hsuffix, hcells]
    rw [hpre] at hloop
    have hindex : i + ((l.drop (i + n)).map Cell.str).length =
        ((l.take i).map Cell.str ++ (l.drop (i + n)).map Cell.str).length := by rw [length_append, hpre]
    rw [hloop, hindex, set_append_right _ _ (Nat.le_refl _), Nat.sub_self, set_cons_zero, realloc]
    have htake (X : List Cell) : (X ++ .null :: rest).take (X.length + 1) = X ++ [.null] := by
      rw [take_append, take_of_length_le (Nat.le_succ _)]
      simp
    rw [htake]
    simp <;> omega

theorem cons_eq_concat (c : Cell) (gap : List Cell) :
    ∃ gap' last, c :: gap = gap' ++ [last] ∧ gap'.length = gap.length := by
  refine ⟨(c :: gap).dropLast, _, (dropLast_append_getLast (cons_ne_nil c gap)).symm, ?_⟩
  rw [length_dropLast]
  rfl

theorem moveLoop_spec (pre suf gap done : List Cell) :
    ∃ gap', moveLoop pre.length gap.length suf.length (pre ++ suf ++ gap ++ done) = pre ++ gap' ++ suf ++ done ∧
      gap'.length = gap.length := by
  induction suf using List.reverseRecOn generalizing gap done with
  | nil => exact ⟨gap, by simp [moveLoop], rfl⟩
  | append_singleton suf c ih =>
    have hget : (pre ++ (suf ++ [c]) ++ gap ++ done).getD (pre.length + suf.length) .junk = c := by
      simp [getD_eq_getElem?_getD]
    obtain ⟨gap', last, hgap, hlen⟩ := cons_eq_concat c gap
    have hset : (pre ++ (suf ++ [c]) ++ gap ++ done).set (pre.length + gap.length + suf.length) c =
        pre ++ suf ++ gap' ++ (c :: done) := by
      have hcells : pre ++ (suf ++ [c]) ++ gap ++ done = (pre ++ suf ++ gap') ++ last :: done := by
        simpa using congrArg (pre ++ suf ++ · ++ done) hgap
      rw [hcells, ← hlen]
      have hindex : pre.length + gap'.length + suf.length = (pre ++ suf ++ gap').length := by
        simp only [length_append]
        omega
      rw [hindex, set_append_right _ _ (Nat.le_refl _), Nat.sub_self]
      rfl
    obtain ⟨gap'', hloop, hlen''⟩ := ih gap' (c :: done)
    rw [hlen] at hloop
    refine ⟨gap'', ?_, hlen''.trans hlen⟩
    rw [length_append, length_singleton, moveLoop, hget, hset, hloop]
    simp

theorem dupLoop_spec (l : List Str) (pre gap rest : List Cell) (hgap : gap.length = l.length) :
    dupLoop (ended l) pre.length (pre ++ gap ++ rest) = pre ++ l.map .str ++ rest := by
  induction l generalizing pre gap with
  | nil => simp [length_eq_zero_iff.mp hgap, dupLoop]
  | cons s l ih =>
    obtain ⟨g, gap, rfl⟩ := exists_cons_of_length_pos (show 0 < gap.length by rw [hgap]; exact Nat.succ_pos _)
    have hset : (pre ++ g :: gap ++ rest).set pre.length (.str s) = (pre ++ [.str s]) ++ gap ++ rest := by
      simp
    have hloop := ih (pre ++ [.str s]) gap (Nat.succ.inj hgap)
    rw [ended, map_cons, cons_append, dupLoop, hset]
    simpa using hloop

theorem Holds.insert (h : Holds argv l) (hstart : 0 ≤ start) (hargv : argv ≠ none) {source : Items}
    (hsource : Holds source l') :
    (insert argv start source).1 = .success ∧
      Holds (insert argv start source).2 (l.take start.toNat ++ l' ++ l.drop start.toNat) := by
  cases argv with
  | none => exact absurd rfl hargv
  | some cells =>
    obtain rfl : cells = ended l := h
    dsimp only [Argv.insert]
    rw [if_neg (Int.not_lt.mpr hstart)]
    cases source with
    | none =>
      obtain rfl : l' = [] := hsource
      rw [append_nil, take_append_drop]
      exact ⟨rfl, rfl⟩
    | some source =>
      obtain rfl : source = ended l' := hsource
      dsimp only
      rw [countLoop_eq, countLoop_eq]
      split_ifs with hend
      · rw [take_of_length_le (by omega), drop_of_length_le (by omega), append_nil]
        exact ⟨rfl, (show Holds (some (ended l)) l from rfl).appendAll l'⟩
      · refine ⟨rfl, ?_⟩
        have hle : start.toNat ≤ l.length := by omega
        have hroom : realloc (ended l) (l.length + l'.length + 1) =
            (l.take start.toNat).map .str ++ (l.drop start.toNat).map .str ++ (.null :: replicate l'.length .junk) := by
          rw [← map_append, take_append_drop, realloc, take_of_length_le (by simp)]
          simp [show l.length + l'.length + 1 - (l.length + 1) = l'.length by omega]
        obtain ⟨gap, last, hgap, hlen⟩ := cons_eq_concat .null (replicate l'.length .junk)
        rw [length_replicate] at hlen
        have hpre : ((l.take start.toNat).map Cell.str).length = start.toNat := by simp [hle]
        have hsuf : ((l.drop start.toNat).map Cell.str).length = l.length - start.toNat := by simp
        obtain ⟨gap', hmove, hgap'⟩ := moveLoop_spec ((l.take start.toNat).map Cell.str)
          ((l.drop start.toNat).map Cell.str) gap [last]
        rw [hroom, hgap, ← append_assoc]
        rw [hpre, hsuf, hlen] at hmove
        rw [hmove]
        have hset : ((l.take start.toNat).map Cell.str ++ gap' ++ (l.drop start.toNat).map Cell.str ++ [last]).set
            (start.toNat + (l.length - start.toNat) + l'.length) .null =
              (l.take start.toNat).map Cell.str ++ gap' ++ ((l.drop start.toNat).map Cell.str ++ [.null]) := by
          rw [set_append_right _ _ (by simp [hgap', hlen]; omega)]
          simp [hgap', hlen, show start.toNat + (l.length - start.toNat) + l'.length =
            min start.toNat l.length + (l'.length + (l.length - start.toNat)) by omega]
        have hdup := dupLoop_spec l' ((l.take start.toNat).map .str) gap' ((l.drop start.toNat).map .str ++ [.null])
          (hgap'.trans hlen)
        rw [hpre] at hdup
        rw [hset, hdup]
        simp [Holds]

theorem fillLoop_str (d : UInt8) (n : ℕ) (p : List Cell) (s : Str) :
    fillLoop d (s.length + n) p s = (fillLoop d n p []).map (s ++ ·) := by
  induction s with
  | nil => simp
  | cons c s ih =>
    rw [length_cons, add_right_comm, fillLoop, ih, Option.map_map]
    rfl

theorem fillLoop_spec (d : UInt8) (l : List Str) (p : List Cell) :
    fillLoop d (l.map (·.length + 1)).sum (l.map .str ++ p) [] = some (l.flatMap (d :: ·)) := by
  induction l with
  | nil => cases p <;> rfl
  | cons s l ih =>
    have hlen : ((s :: l).map (·.length + 1)).sum = s.length + (l.map (·.length + 1)).sum + 1 := by
      simp
      omega
    rw [hlen, map_cons, cons_append, fillLoop, fillLoop_str, ih]
    simp

theorem lengthLoop_eq (n : ℕ) (l : List Str) :
    lengthLoop n (ended l) = ((l.take n).map (·.length + 1)).sum := by
  induction l generalizing n with
  | nil => cases n <;> simp [lengthLoop]
  | cons s l ih => cases n <;> simp [lengthLoop, ih]

theorem joinFrom_eq (n : ℕ) (s : Str) (l : List Str) :
    joinFrom delimiter (lengthLoop n (ended (s :: l))) (ended (s :: l)) =
      if n = 0 then none else some (joined (char delimiter) ((s :: l).take n)) := by
  rw [lengthLoop_eq, ended, map_cons, cons_append, joinFrom]
  cases n with
  | zero => rfl
  | succ n =>
    have hlen : (((s :: l).take (n + 1)).map (·.length + 1)).sum - 1 =
        s.length + ((l.take n).map (·.length + 1)).sum := by simp
    have hcells : l.map .str ++ [Cell.null] = (l.take n).map .str ++ ((l.drop n).map .str ++ [.null]) := by
      rw [← append_assoc, ← map_append, take_append_drop]
    rw [if_neg (by simp), if_neg (Nat.succ_ne_zero n), hlen, fillLoop_str, hcells, fillLoop_spec]
    rfl

theorem Holds.join (h : Holds argv l) (delimiter : ℤ) : join argv delimiter = some (joined (char delimiter) l) := by
  cases argv with
  | none => rw [show l = [] from h]; rfl
  | some cells =>
    obtain rfl : cells = ended l := h
    cases l with
    | nil => rfl
    | cons s l =>
      refine (joinFrom_eq _ s l).trans ?_
      rw [if_neg (by simp), take_of_length_le (by simp)]

theorem Holds.joinRange_iff (h : Holds argv l) (start stop : ℕ) (delimiter : ℤ) :
    joinRange argv start stop delimiter = some (joined (char delimiter) ((l.take stop).drop start)) ↔
      l = [] ∨ (l.length : ℤ) < Int.bmod start (2 ^ 32) ∨ start < l.length ∧ start < stop := by
  cases argv with
  | none =>
    obtain rfl : l = [] := h
    refine iff_of_true ?_ (.inl rfl)
    rw [take_nil, drop_nil]
    rfl
  | some cells =>
    obtain rfl : cells = ended l := h
    cases hl : l with
    | nil =>
      refine iff_of_true ?_ (.inl rfl)
      rw [take_nil, drop_nil]
      rfl
    | cons s rest =>
      have hrun : Argv.joinRange (some (ended (s :: rest))) start stop delimiter =
          if Int.bmod start (2 ^ 32) > ((s :: rest).length : ℕ) then some []
          else joinFrom delimiter (lengthLoop (stop - start) ((ended (s :: rest)).drop start))
            ((ended (s :: rest)).drop start) := by
        rw [← countLoop_eq (s :: rest)]
        rfl
      rw [hrun, ← hl]
      have hne : l ≠ [] := hl ▸ cons_ne_nil s rest
      split_ifs with hcast
      · have hstart : l.length ≤ start := by
          rw [Int.bmod_def] at hcast
          split_ifs at hcast <;> omega
        rw [drop_of_length_le (by rw [length_take]; omega)]
        exact iff_of_true rfl (.inr (.inl hcast))
      · rw [drop_take]
        rcases lt_or_ge start l.length with hlt | hge
        · obtain ⟨t, later, hlater⟩ := exists_cons_of_length_pos (show 0 < (l.drop start).length by simp; omega)
          rw [drop_append_of_le_length (by simp; omega), ← map_drop, hlater, joinFrom_eq]
          split_ifs with hempty
          · exact iff_of_false (by simp) (not_or.mpr ⟨hne, not_or.mpr ⟨hcast, by omega⟩⟩)
          · exact iff_of_true rfl (.inr (.inr ⟨hlt, by omega⟩))
        · have hnone : joinFrom delimiter (lengthLoop (stop - start) ((ended l).drop start))
              ((ended l).drop start) = none := by
            rw [drop_append, drop_of_length_le (by simpa using hge), nil_append]
            cases start - (l.map Cell.str).length <;> simp [joinFrom]
          rw [hnone]
          exact iff_of_false (by simp) (not_or.mpr ⟨hne, not_or.mpr ⟨hcast, by omega⟩⟩)

theorem char_charValue (c : UInt8) : char (charValue c) = c := by
  have hlt := c.toNat_lt
  rw [char, charValue]
  apply UInt8.toNat_inj.mp
  rw [UInt8.toNat_ofNat']
  split_ifs <;> omega

theorem charValue_char (hlow : -128 ≤ delimiter) (hhigh : delimiter < 128) : charValue (char delimiter) = delimiter := by
  rw [char, charValue, UInt8.toNat_ofNat']
  split_ifs <;> omega

theorem charValue_range (c : UInt8) : -128 ≤ charValue c ∧ charValue c < 128 := by
  have hlt := c.toNat_lt
  rw [charValue]
  split_ifs <;> omega

theorem splitLoop_last (argv : Items) {src : Str} (hne : src ≠ []) (hsrc : ∀ c ∈ src, charValue c ≠ delimiter) :
    splitLoop delimiter argv src = some (appendNosize argv src) := by
  obtain ⟨c, src, rfl⟩ := exists_cons_of_ne_nil hne
  have htake : (c :: src).takeWhile (fun c => charValue c ≠ delimiter) = c :: src :=
    takeWhile_eq_self_iff.mpr fun c hc => decide_eq_true (hsrc c hc)
  have hdrop : (c :: src).dropWhile (fun c => charValue c ≠ delimiter) = [] :=
    dropWhile_eq_nil_iff.mpr fun c hc => decide_eq_true (hsrc c hc)
  rw [splitLoop]
  split
  · rw [htake]
  · rename_i heq
    rw [hdrop] at heq
    cases heq

theorem splitLoop_next (argv : Items) {arg : Str} (hne : arg ≠ []) (harg : ∀ c ∈ arg, charValue c ≠ delimiter)
    {d : UInt8} (hd : charValue d = delimiter) (rest : Str) :
    splitLoop delimiter argv (arg ++ d :: rest) = splitLoop delimiter (appendNosize argv arg) rest := by
  have htake : (arg ++ d :: rest).takeWhile (fun c => charValue c ≠ delimiter) = arg := by
    rw [takeWhile_append_of_pos fun c hc => decide_eq_true (harg c hc)]
    simp [hd]
  have hdrop : (arg ++ d :: rest).dropWhile (fun c => charValue c ≠ delimiter) = d :: rest := by
    rw [dropWhile_append_of_pos fun c hc => decide_eq_true (harg c hc)]
    simp [hd]
  have hpos := length_pos_iff.mpr hne
  obtain ⟨c, cs, rfl⟩ := exists_cons_of_ne_nil hne
  rw [cons_append] at htake hdrop ⊢
  rw [splitLoop]
  split
  · rename_i heq
    rw [hdrop] at heq
    cases heq
  · rename_i heq
    rw [hdrop] at heq
    cases heq
    rw [htake, if_neg (by omega), argsize]
    split_ifs <;> first | rfl | omega

theorem splitLoop_joined (hchar : l = [] ∨ charValue (char delimiter) = delimiter) {arg : Str}
    (hsplit : Splittable delimiter (arg :: l)) {l' : List Str} (h : Holds argv l') :
    ∃ argv', splitLoop delimiter argv (arg ++ l.flatMap (char delimiter :: ·)) = some argv' ∧
      Holds argv' (l' ++ arg :: l) := by
  have hnot {s : Str} (hs : s ∈ arg :: l) : ∀ c ∈ s, charValue c ≠ delimiter := by
    rintro c hc rfl
    rw [← char_charValue c] at hc
    exact (hsplit s hs).2.2 hc
  induction l generalizing arg argv l' with
  | nil =>
    rw [flatMap_nil, append_nil]
    exact ⟨_, splitLoop_last argv (hsplit arg mem_cons_self).1 (hnot mem_cons_self), h.append arg⟩
  | cons s l ih =>
    have hd := hchar.resolve_left (cons_ne_nil s l)
    rw [flatMap_cons, cons_append,
      splitLoop_next argv (hsplit arg mem_cons_self).1 (hnot mem_cons_self) hd]
    obtain ⟨argv', hloop, hholds⟩ := ih (.inr hd) (fun t ht => hsplit t (mem_cons_of_mem _ ht)) (h.append arg)
      fun ht => hnot (mem_cons_of_mem _ ht)
    rw [append_assoc] at hholds
    exact ⟨argv', hloop, hholds⟩

theorem Holds.split_join (h : Holds argv l) (hsplit : Splittable delimiter l)
    (hchar : l.length ≤ 1 ∨ delimiter ≠ 0 ∧ -128 ≤ delimiter ∧ delimiter < 128) : ∃ s argv', Argv.join argv delimiter = some s ∧
      split (s.takeWhile (· ≠ 0)) delimiter = some argv' ∧ Holds argv' l := by
  refine ⟨joined (char delimiter) l, ?_⟩
  cases l with
  | nil => exact ⟨none, h.join delimiter, by rw [joined, takeWhile_nil, split, splitLoop], rfl⟩
  | cons arg l =>
    have hd : l = [] ∨ charValue (char delimiter) = delimiter := by
      rcases hchar with hlen | ⟨-, hlow, hhigh⟩
      · exact .inl (length_eq_zero_iff.mp (by simpa using hlen))
      · exact .inr (charValue_char hlow hhigh)
    have hchars : ∀ c ∈ joined (char delimiter) (arg :: l), c ≠ 0 := by
      rintro c hc rfl
      rcases mem_append.mp hc with hc | hc
      · exact (hsplit arg mem_cons_self).2.1 hc
      · obtain ⟨s, hs, hc⟩ := mem_flatMap.mp hc
        rcases mem_cons.mp hc with hzero | hc
        · have heq := hd.resolve_left (ne_nil_of_mem hs)
          have hzero' : delimiter = 0 := by rw [← heq, ← hzero]; rfl
          rcases hchar with hlen | hchar
          · cases l with
            | nil => cases hs
            | cons => simp at hlen
          · exact hchar.1 hzero'
        · exact (hsplit s (mem_cons_of_mem _ hs)).2.1 hc
    obtain ⟨argv', hloop, hholds⟩ := splitLoop_joined hd hsplit (show Holds none [] from rfl)
    refine ⟨argv', h.join delimiter, ?_, hholds⟩
    rw [takeWhile_eq_self_iff.mpr fun c hc => decide_eq_true (hchars c hc)]
    exact hloop

theorem Holds.not_split_join (h : Holds argv l) (hsplit : Splittable delimiter l) (hlen : 1 < l.length)
    (hchar : delimiter = 0 ∨ delimiter < -128 ∨ 128 ≤ delimiter) : ¬∃ s argv', Argv.join argv delimiter = some s ∧
      split (s.takeWhile (· ≠ 0)) delimiter = some argv' ∧ Holds argv' l := by
  rintro ⟨s, argv', hjoin, hrun, hholds⟩
  cases (h.join delimiter).symm.trans hjoin
  cases l with
  | nil => cases hlen
  | cons arg l =>
    obtain ⟨c, cs, rfl⟩ := exists_cons_of_ne_nil (hsplit arg mem_cons_self).1
    have hc : c ≠ 0 := fun heq => (hsplit _ mem_cons_self).2.1 (heq ▸ mem_cons_self)
    have hne : (joined (char delimiter) ((c :: cs) :: l)).takeWhile (· ≠ 0) ≠ [] := by simp [joined, hc]
    have hwhole : splitLoop delimiter none _ = _ := splitLoop_last none hne fun b hb heq => by
        have hnonzero := of_decide_eq_true (mem_takeWhile_imp (p := fun c => decide (c ≠ 0)) hb)
        have hrange := charValue_range b
        have hzero : b = char delimiter := by rw [← heq, char_charValue]
        rcases hchar with rfl | hout
        · exact hnonzero hzero
        · omega
    have hone := hholds.unique (Option.some.inj (hrun.symm.trans hwhole) ▸ (show Holds none [] from rfl).append _)
    rw [hone] at hlen
    simp at hlen

theorem right_iff (a : Strings) (call : Call) : call.Right a ↔ call.Sound a := by
  obtain ⟨argv, l, h⟩ := a
  cases call with
  | append arg => exact iff_of_true ⟨h.append arg, by rw [Argv.append, (h.append arg).count]; simp⟩ trivial
  | appendUnique arg =>
    refine iff_of_true ?_ trivial
    cases argv with
    | none =>
      obtain rfl : l = [] := h
      exact (show Holds none [] from rfl).append arg
    | some cells =>
      have hcells : cells = ended l := h
      simp only [Call.Right, appendUniqueNosize, hcells, present_eq, decide_eq_true_eq]
      rw [← hcells]
      split_ifs
      · exact h
      · exact h.append arg
  | insert start source =>
    refine iff_of_true ?_ trivial
    by_cases hbad : argv = none ∨ start < 0
    · have hrun : Argv.insert argv start source.argv = (.badParam, argv) := by
        cases argv with
        | none => rfl
        | some cells => exact if_pos (hbad.resolve_left nofun)
      show Holds (Argv.insert argv start source.argv).2 _ ∧ _
      rw [hrun]
      exact ⟨h, iff_of_true rfl hbad⟩
    · rw [not_or, Int.not_lt] at hbad
      obtain ⟨hret, hholds⟩ := h.insert hbad.2 hbad.1 source.holds
      refine ⟨by rwa [if_pos hret], iff_of_false (by rw [hret]; nofun) ?_⟩
      exact not_or.mpr ⟨hbad.1, Int.not_lt.mpr hbad.2⟩
  | copy =>
    refine iff_of_true ?_ trivial
    cases argv with
    | none => exact h
    | some cells =>
      obtain rfl : cells = ended l := h
      exact (show Holds (some [.null]) [] from rfl).appendAll l
  | delete start num =>
    by_cases hdo : argv ≠ none ∧ 0 ≤ start ∧ start ≤ l.length ∧ 0 < num
    · obtain ⟨hargv, hstart, hle, hnum⟩ := hdo
      obtain ⟨hargc, hholds⟩ := h.delete hargv hstart hle hnum l.length
      show Holds (Argv.delete l.length argv start num).2.2 _ ∧ (Argv.delete l.length argv start num).2.1 = _ ↔ _
      rw [if_neg (by omega), hargc]
      simp only [Call.Sound, hholds, hstart, hle, hnum, hargv, true_and, forall_const, ne_eq, not_false_eq_true,
        length_append, length_take, length_drop]
      omega
    · have hrun : (Argv.delete l.length argv start num).2 = ((l.length : ℤ), argv) := by
        cases argv with
        | none => rfl
        | some cells =>
          obtain rfl : cells = ended l := h
          dsimp only [Argv.delete]
          rw [countLoop_eq]
          have hdo : ¬(0 ≤ start ∧ start ≤ l.length ∧ 0 < num) := fun hall => hdo ⟨nofun, hall⟩
          split_ifs <;> first | rfl | omega
      refine iff_of_true ?_ fun hstart hle hnum hargv => absurd ⟨hargv, hstart, hle, hnum⟩ hdo
      show Holds (Argv.delete l.length argv start num).2.2 _ ∧ (Argv.delete l.length argv start num).2.1 = _
      have hlist : (if start < 0 ∨ num < 0 then l else l.take start.toNat ++ l.drop (start.toNat + num.toNat)) = l := by
        split_ifs with hneg
        · rfl
        · by_cases hend : l.length < start
          · rw [take_of_length_le (by omega), drop_of_length_le (by omega), append_nil]
          · by_cases hargv : argv = none
            · obtain rfl : l = [] := by subst hargv; exact h
              simp
            · have hzero : num = 0 := by
                by_contra hne
                exact hdo ⟨hargv, by omega, by omega, by omega⟩
              simp [hzero]
      rw [hrun, hlist]
      exact ⟨h, rfl⟩
  | join delimiter => exact iff_of_true (h.join delimiter) trivial
  | joinRange start stop delimiter => exact h.joinRange_iff start stop delimiter
  | splitJoin delimiter =>
    refine ⟨fun hright hsplit => ?_, fun hsound hsplit => h.split_join hsplit (hsound hsplit)⟩
    by_contra hsound
    have hnot : ¬(l.length ≤ 1 ∨ delimiter ≠ 0 ∧ -128 ≤ delimiter ∧ delimiter < 128) := hsound
    exact h.not_split_join hsplit (by omega) (by omega) (hright hsplit)

/-- Five strings are deleted from the second of two on, and `argc` is negative. -/
theorem not_right_delete :
    ¬(Call.delete 1 5).Right ⟨some [.str [97], .str [98], .null], [[97], [98]], rfl⟩ := by
  rintro ⟨-, hargc⟩
  revert hargc
  decide

end OpenMPI.Util.Argv
