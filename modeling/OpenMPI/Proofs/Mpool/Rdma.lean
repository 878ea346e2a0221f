import Mathlib.Data.List.Perm.Lattice
import OpenMPI.Mpool.Rdma
import OpenMPI.Proofs.Rcache.Vma

/-!
# Registrations are accounted for

An object is spare, in one of the lists, or somebody refers to it (`Inv`).  While a call moves an object from one place to
another it is `out`, still registered with the driver, or `new`, not yet registered.
-/

namespace OpenMPI.Mpool

open Lib Rcache List Function

variable {z : Config} {s t : Pool} {r x : ℕ}

def Pool.referenced (s : Pool) : List ℕ := (List.range s.made).filter fun r => 0 < (s.mem r).refCount

structure Accounted (s : Pool) : Prop where
  counted : ∀ r, (s.mem r).refCount = s.held r
  covered : ∀ a ∈ s.answers, a.reg.base ≤ a.addr ∧ a.addr + a.size ≤ a.reg.bound + 1
  once : s.wrong = false
  registered : ∀ r, r ∈ s.pinned ↔ r < s.made ∧ r ∉ s.free
  places : (s.referenced ++ s.mru ++ s.gc ++ s.free).Perm (List.range s.made)
  mru : ∀ r ∈ s.mru, (s.mem r).refCount = 0 ∧ (s.mem r).invalid = false ∧ Cached s.cache r
  gc : ∀ r ∈ s.gc, (s.mem r).refCount = 0 ∧ (s.mem r).invalid = true
  released : ∀ a ∈ s.answers, a.doomed = false

structure Keeps (s t : Pool) : Prop where
  cached : ∀ x, Cached t.cache x → Cached s.cache x ∧ t.mem x = s.mem x
  evicted : ∀ x, Cached s.cache x → ¬Cached t.cache x → x ∈ s.mru ∨ x ∈ s.gc
  mru : ∀ x ∈ t.mru, x ∈ s.mru
  gc : ∀ x ∈ t.gc, x ∈ s.gc

/-- No deregistration fails; no bytes are asked for only where the cache is not asked or gets nothing; and what is found
will do. -/
def Pool.Careful (z : Config) (s : Pool) : Step → Prop
  | .register _ size flags _ d => (∀ r, d.deregisterMem r = true) ∧ (0 < size ∨ flags.bypass = true ∨ flags.persist = true)
  | .find addr size reg => (size = 0 → reg = none) ∧
      ∀ r, (s.cache.find s.mem z.pageSizeLog addr size reg).2 = some r → suits z (s.mem r) addr size = true
  | .deregister _ d => ∀ r, d.deregisterMem r = true
  | .release _ _ => True

def Pool.spare (s : Pool) (out new : List ℕ) : List ℕ := s.mru ++ s.gc ++ s.free ++ out ++ new

structure Inv (z : Config) (s : Pool) (out new : List ℕ) : Prop where
  nodup : (s.spare out new).Nodup
  lt : ∀ r ∈ s.spare out new, r < s.made
  zero : ∀ r, (s.mem r).refCount = 0 ↔ s.made ≤ r ∨ r ∈ s.spare out new
  pinnedNodup : s.pinned.Nodup
  pinned : ∀ r, r ∈ s.pinned ↔ r < s.made ∧ r ∉ s.free ∧ r ∉ new
  exact : Exact s.cache s.mem
  cached : ∀ x, Cached s.cache x → x ∈ s.pinned ∧ (s.mem x).bypass = false
  kept : z.leavePinned = true → ∀ x ∈ s.pinned, (s.mem x).bypass = false → (s.mem x).persist = false → Cached s.cache x
  mru : ∀ r ∈ s.mru, z.leavePinned = true ∧ (s.mem r).invalid = false ∧ (s.mem r).bypass = false ∧
    (s.mem r).persist = false
  gc : ∀ r ∈ s.gc, (s.mem r).invalid = true ∧ Cached s.cache r
  counted : ∀ r, (s.mem r).refCount = s.held r
  doomed : ∀ r ∈ s.doomed, r ∈ s.pinned ∧ (Cached s.cache r → (s.mem r).invalid = true)
  wrong : s.wrong = false
  covered : ∀ a ∈ s.answers, a.reg.base ≤ a.addr ∧ a.addr + a.size ≤ a.reg.bound + 1
  released : ∀ a ∈ s.answers, a.doomed = false

theorem mem_spare {out new : List ℕ} :
    r ∈ s.spare out new ↔ r ∈ s.mru ∨ r ∈ s.gc ∨ r ∈ s.free ∨ r ∈ out ∨ r ∈ new := by
  simp [Pool.spare]

theorem setReg_self (s : Pool) (r : ℕ) (reg : Reg) : (s.setReg r reg).mem r = reg := update_self ..

theorem setReg_of_ne {s : Pool} {reg : Reg} (h : x ≠ r) : (s.setReg r reg).mem x = s.mem x := update_of_ne h ..

theorem addRef_mem (s : Pool) (r x : ℕ) :
    (s.addRef r).mem x = { s.mem x with refCount := (s.mem x).refCount + if x = r then 1 else 0 } := by
  by_cases hx : x = r
  · subst hx
    rw [if_pos rfl]
    exact setReg_self _ _ _
  · rw [if_neg hx]
    exact setReg_of_ne hx

namespace Inv

variable {out new : List ℕ}

theorem pinned_of_out (h : Inv z s (r :: out) new) : r ∈ s.pinned := by
  have hnodup := h.nodup
  have hmem : r ∈ s.spare (r :: out) new := mem_spare.mpr (.inr (.inr (.inr (.inl mem_cons_self))))
  refine (h.pinned r).mpr ⟨h.lt r hmem, fun hfree => ?_, fun hnew => ?_⟩
  · rw [Pool.spare, append_assoc, nodup_append] at hnodup
    exact hnodup.2.2 r (mem_append_right _ hfree) r (mem_append_left _ mem_cons_self) rfl
  · rw [Pool.spare, nodup_append] at hnodup
    exact hnodup.2.2 r (mem_append_right _ mem_cons_self) r hnew rfl

theorem zero_of_out (h : Inv z s (r :: out) new) : (s.mem r).refCount = 0 :=
  (h.zero r).mpr (.inr (mem_spare.mpr (.inr (.inr (.inr (.inl mem_cons_self))))))

theorem relist (h : Inv z s out new) {mru' gc' out' : List ℕ}
    (hperm : (mru' ++ gc' ++ s.free ++ out' ++ new).Perm (s.spare out new))
    (hmru : ∀ r ∈ mru', z.leavePinned = true ∧ (s.mem r).invalid = false ∧ (s.mem r).bypass = false ∧
      (s.mem r).persist = false)
    (hgc : ∀ r ∈ gc', (s.mem r).invalid = true ∧ Cached s.cache r) :
    Inv z { s with mru := mru', gc := gc' } out' new :=
  { h with
    nodup := hperm.nodup_iff.mpr h.nodup
    lt := fun r hr => h.lt r (hperm.mem_iff.mp hr)
    zero := fun r => (h.zero r).trans (or_congr_right hperm.mem_iff.symm)
    mru := hmru
    gc := hgc }

theorem recache (h : Inv z s out new) {c : Module} (hc : Exact c s.mem) (hsame : ∀ x, Cached c x ↔ Cached s.cache x) :
    Inv z { s with cache := c } out new :=
  { h with
    exact := hc
    cached := fun x hx => h.cached x ((hsame x).mp hx)
    kept := fun hz x hx hb hp => (hsame x).mpr (h.kept hz x hx hb hp)
    gc := fun r hr => ⟨(h.gc r hr).1, (hsame r).mpr (h.gc r hr).2⟩
    doomed := fun r hr => ⟨(h.doomed r hr).1, fun hx => (h.doomed r hr).2 ((hsame r).mp hx)⟩ }

theorem discard (h : Inv z s (r :: out) new) {c : Module} (hc : Exact c s.mem)
    (hsame : ∀ x, Cached c x ↔ Cached s.cache x ∧ x ≠ r) {d : Driver} (hd : d.deregisterMem r = true) :
    Inv z ((({ s with cache := c } : Pool).deregMem d r).putItem r) out new := by
  have hperm : (s.mru ++ s.gc ++ (r :: s.free) ++ out ++ new).Perm (s.spare (r :: out) new) := by
    simp only [Pool.spare, append_assoc]
    refine List.Perm.append_left _ (List.Perm.append_left _ ?_)
    show (r :: (s.free ++ (out ++ new))).Perm (s.free ++ (r :: (out ++ new)))
    exact perm_middle.symm
  have hpinned := h.pinned_of_out
  have hnodup := hperm.nodup_iff.mpr h.nodup
  have hgc (x : ℕ) (hx : x ∈ s.gc) : x ≠ r := by
    rintro rfl
    simp only [append_assoc, nodup_append] at hnodup
    exact hnodup.2.1.2.2 x hx x (by simp) rfl
  have herase : ({ s with cache := c } : Pool).deregMem d r =
      { s with cache := c, wrong := false, pinned := s.pinned.erase r } := by
    simp [Pool.deregMem, h.wrong, hpinned, h.zero_of_out, hd]
  rw [herase]
  exact { h with
    nodup := hnodup
    lt := fun x hx => h.lt x (hperm.mem_iff.mp hx)
    zero := fun x => (h.zero x).trans (or_congr_right hperm.mem_iff.symm)
    pinnedNodup := h.pinnedNodup.erase r
    pinned := fun x => by
      show x ∈ s.pinned.erase r ↔ x < s.made ∧ x ∉ r :: s.free ∧ x ∉ new
      rw [h.pinnedNodup.mem_erase_iff, h.pinned, mem_cons]
      grind
    exact := hc
    cached := fun x hx => by
      obtain ⟨hx, hne⟩ := (hsame x).mp hx
      exact ⟨(h.pinnedNodup.mem_erase_iff).mpr ⟨hne, (h.cached x hx).1⟩, (h.cached x hx).2⟩
    kept := fun hz x hx hb hp => by
      obtain ⟨hne, hx⟩ := (h.pinnedNodup.mem_erase_iff).mp hx
      exact (hsame x).mpr ⟨h.kept hz x hx hb hp, hne⟩
    gc := fun x hx => ⟨(h.gc x hx).1, (hsame x).mpr ⟨(h.gc x hx).2, hgc x hx⟩⟩
    doomed := fun x hx => by
      obtain ⟨hx, hne⟩ := mem_filter.mp hx
      have hne' : x ≠ r := of_decide_eq_true hne
      obtain ⟨hpin, hinvalid⟩ := h.doomed x hx
      exact ⟨(h.pinnedNodup.mem_erase_iff).mpr ⟨hne', hpin⟩, fun hc => hinvalid ((hsame x).mp hc).1⟩
    wrong := rfl }

theorem new_not_pinned (h : Inv z s out (r :: new)) : r ∉ s.pinned := fun hp =>
  ((h.pinned r).mp hp).2.2 mem_cons_self

theorem ne_new (h : Inv z s out (r :: new)) (hx : x ∈ s.mru ∨ x ∈ s.gc ∨ x ∈ s.free ∨ x ∈ out) : x ≠ r := by
  rintro rfl
  have hnodup := h.nodup
  rw [Pool.spare, nodup_append] at hnodup
  exact hnodup.2.2 x (by simpa using hx) x mem_cons_self rfl

theorem getItem (h : Inv z s out []) {memory : Bool} {item : ℕ} (hs : s.getItem memory = some (item, t)) :
    Inv z t out [item] := by
  have hpinned := h.pinned
  have hnodup := h.nodup
  have hlt := h.lt
  have hzero := h.zero
  rw [Pool.getItem.eq_def] at hs
  rcases hfree : s.free with - | ⟨i, free⟩
  · rw [hfree] at hs
    dsimp only at hs
    split_ifs at hs
    cases hs
    have hmem (x : ℕ) : x ∈ range' (s.made + 1) 31 ↔ s.made < x ∧ x < s.made + 32 := by
      rw [mem_range'_1]
      omega
    have hspare (x : ℕ) : x ∈ s.mru ++ s.gc ++ range' (s.made + 1) 31 ++ out ++ [s.made] ↔
        x ∈ s.spare out [] ∨ s.made ≤ x ∧ x < s.made + 32 := by
      simp only [Pool.spare, mem_append, mem_singleton, hmem, hfree, not_mem_nil, or_false]
      have : x = s.made ∨ s.made < x ∧ x < s.made + 32 ↔ s.made ≤ x ∧ x < s.made + 32 := by omega
      grind
    have hfresh (x : ℕ) (hx : x ∈ s.mru ++ s.gc ++ out) : x < s.made := by
      refine hlt x (mem_spare.mpr ?_)
      simp only [mem_append] at hx
      grind
    exact { h with
      nodup := by
        show (s.mru ++ s.gc ++ range' (s.made + 1) 31 ++ out ++ [s.made]).Nodup
        have hold : (s.mru ++ s.gc ++ out).Nodup := by simpa [Pool.spare, hfree] using hnodup
        have hperm : (s.mru ++ s.gc ++ range' (s.made + 1) 31 ++ out ++ [s.made]).Perm
            (s.mru ++ s.gc ++ out ++ range' s.made 32) := by
          simp only [append_assoc]
          refine List.Perm.append_left _ (List.Perm.append_left _ ?_)
          rw [range'_succ]
          refine (perm_append_comm_assoc _ _ _).trans (List.Perm.append_left _ ?_)
          exact perm_append_comm
        refine hperm.nodup_iff.mpr (nodup_append.mpr ⟨hold, nodup_range', fun x hx y hy => ?_⟩)
        have := hfresh x hx
        have := (mem_range'_1.mp hy).1
        omega
      lt := fun x hx => by
        show x < s.made + 32
        rcases (hspare x).mp hx with hx | hx
        · exact lt_of_lt_of_le (hlt x hx) (Nat.le_add_right _ _)
        · exact hx.2
      zero := fun x => by
        show (s.mem x).refCount = 0 ↔ s.made + 32 ≤ x ∨ x ∈ s.mru ++ s.gc ++ range' (s.made + 1) 31 ++ out ++ [s.made]
        rw [hzero, hspare]
        have : s.made ≤ x ↔ s.made + 32 ≤ x ∨ s.made ≤ x ∧ x < s.made + 32 := by omega
        grind
      pinned := fun x => by
        show x ∈ s.pinned ↔ x < s.made + 32 ∧ x ∉ range' (s.made + 1) 31 ∧ x ∉ [s.made]
        rw [hpinned, hmem, hfree, mem_singleton]
        simp
        omega }
  · rw [hfree] at hs
    obtain ⟨rfl, rfl⟩ := Prod.mk.inj (Option.some.inj hs)
    have hperm : (s.mru ++ s.gc ++ free ++ out ++ [i]).Perm (s.spare out []) := by
      simp only [Pool.spare, hfree, append_assoc, append_nil]
      refine List.Perm.append_left _ (List.Perm.append_left _ ?_)
      rw [← append_assoc]
      exact perm_append_comm
    exact { h with
      nodup := hperm.nodup_iff.mpr hnodup
      lt := fun x hx => hlt x (hperm.mem_iff.mp hx)
      zero := fun x => (hzero x).trans (or_congr_right hperm.mem_iff.symm)
      pinned := fun x => by
        show x ∈ s.pinned ↔ x < s.made ∧ x ∉ free ∧ x ∉ [i]
        rw [hpinned, hfree, mem_cons, mem_singleton]
        simp
        grind }

theorem initReg (h : Inv z s out [r]) (base bound : ℕ) (flags : Flags) : Inv z (s.initReg r base bound flags) out [r] := by
  have hother {x : ℕ} (hx : x ≠ r) : (s.initReg r base bound flags).mem x = s.mem x := setReg_of_ne hx
  have href (x : ℕ) : ((s.initReg r base bound flags).mem x).refCount = (s.mem x).refCount := by
    by_cases hx : x = r
    · rw [hx]
      show ((s.setReg r _).mem r).refCount = _
      rw [setReg_self]
    · rw [hother hx]
  have hpin {x : ℕ} (hx : x ∈ s.pinned) : x ≠ r := fun heq => h.new_not_pinned (heq ▸ hx)
  exact { h with
    zero := fun x => by
      rw [href]
      exact h.zero x
    exact := h.exact.congr fun x hx => by simp [hother (hpin (h.cached x hx).1)]
    cached := fun x hx => by
      rw [hother (hpin (h.cached x hx).1)]
      exact h.cached x hx
    kept := fun hz x hx => by
      rw [hother (hpin hx)]
      exact h.kept hz x hx
    mru := fun x hx => by
      rw [hother (h.ne_new (.inl hx))]
      exact h.mru x hx
    gc := fun x hx => by
      rw [hother (h.ne_new (.inr (.inl hx)))]
      exact h.gc x hx
    counted := fun x => (href x).trans (h.counted x)
    doomed := fun x hx => by
      rw [hother (hpin (h.doomed x hx).1)]
      exact h.doomed x hx }

theorem putItem (h : Inv z s out [r]) : Inv z (s.putItem r) out [] := by
  have hperm : (s.mru ++ s.gc ++ (r :: s.free) ++ out ++ []).Perm (s.spare out [r]) := by
    simp only [Pool.spare, append_assoc, append_nil]
    refine List.Perm.append_left _ (List.Perm.append_left _ ?_)
    show (r :: (s.free ++ out)).Perm (s.free ++ (out ++ [r]))
    rw [← append_assoc]
    exact (perm_append_singleton r (s.free ++ out)).symm
  exact { h with
    nodup := hperm.nodup_iff.mpr h.nodup
    lt := fun x hx => h.lt x (hperm.mem_iff.mp hx)
    zero := fun x => (h.zero x).trans (or_congr_right hperm.mem_iff.symm)
    pinned := fun x => by
      show x ∈ s.pinned ↔ x < s.made ∧ x ∉ r :: s.free ∧ x ∉ []
      rw [h.pinned]
      simp
      grind
    doomed := fun x hx => h.doomed x (mem_of_mem_filter hx) }

/-- A new registration is there, in the cache or not, and its caller has it. -/
theorem enrol (h : Inv z s out [r]) {c : Module} (hc : Exact c s.mem) {P : Prop}
    (hsame : ∀ x, Cached c x ↔ Cached s.cache x ∨ x = r ∧ P) (hP : P → (s.mem r).bypass = false)
    (hkept : z.leavePinned = true → (s.mem r).bypass = false → (s.mem r).persist = false → P) {addr size : ℕ}
    (hbase : (s.mem r).base ≤ addr) (hbound : addr + size ≤ (s.mem r).bound + 1) :
    Inv z (((({ s with cache := c } : Pool).pin r).addRef r).give addr size r) out [] := by
  have hnot := h.new_not_pinned
  have hmem (x : ℕ) : (((({ s with cache := c } : Pool).pin r).addRef r).give addr size r).mem x =
      { s.mem x with refCount := (s.mem x).refCount + if x = r then 1 else 0 } := addRef_mem _ r x
  have hspare (x : ℕ) : x ∈ s.spare out [r] ↔ x ∈ s.spare out [] ∨ x = r := by
    rw [mem_spare, mem_spare, mem_singleton]
    simp [or_assoc]
  have hnodup : (s.spare out []).Nodup ∧ r ∉ s.spare out [] := by
    have hn := h.nodup
    rw [Pool.spare, ← append_nil (s.mru ++ s.gc ++ s.free ++ out), nodup_append] at hn
    exact ⟨hn.1, fun hr => hn.2.2 r hr r (mem_singleton_self r) rfl⟩
  have hlt := h.lt r ((hspare r).mpr (.inr rfl))
  have hold {x : ℕ} (hx : Cached c x) (hp : x ∈ s.pinned) : Cached s.cache x :=
    ((hsame x).mp hx).resolve_right fun heq => hnot (heq.1 ▸ hp)
  exact {
    nodup := hnodup.1
    lt := fun x hx => h.lt x ((hspare x).mpr (.inl hx))
    zero := fun x => by
      rw [hmem]
      show (s.mem x).refCount + (if x = r then 1 else 0) = 0 ↔ s.made ≤ x ∨ x ∈ s.spare out []
      by_cases hx : x = r
      · subst hx
        rw [if_pos rfl]
        refine iff_of_false (Nat.succ_ne_zero _) ?_
        rintro (hle | hin)
        · omega
        · exact hnodup.2 hin
      · rw [if_neg hx, add_zero, h.zero, hspare, or_iff_left hx]
    pinnedNodup := nodup_cons.mpr ⟨hnot, h.pinnedNodup⟩
    pinned := fun x => by
      show x ∈ r :: s.pinned ↔ x < s.made ∧ x ∉ s.free ∧ x ∉ []
      have hfree : r ∉ s.free := fun hr => h.ne_new (.inr (.inr (.inl hr))) rfl
      rw [mem_cons, h.pinned]
      by_cases hx : x = r
      · subst hx
        simp [hlt, hfree]
      · simp [hx]
    exact := hc.congr fun x _ => by
      rw [hmem]
      exact ⟨rfl, rfl⟩
    cached := fun x hx => by
      rw [hmem]
      rcases (hsame x).mp hx with hx | ⟨rfl, hp⟩
      · exact ⟨mem_cons_of_mem _ (h.cached x hx).1, (h.cached x hx).2⟩
      · exact ⟨mem_cons_self, hP hp⟩
    kept := fun hz x hx => by
      rw [hmem]
      intro hb hp
      rcases mem_cons.mp hx with rfl | hx
      · exact (hsame x).mpr (.inr ⟨rfl, hkept hz hb hp⟩)
      · exact (hsame x).mpr (.inl (h.kept hz x hx hb hp))
    mru := fun x hx => by
      rw [hmem]
      exact h.mru x hx
    gc := fun x hx => by
      rw [hmem]
      exact ⟨(h.gc x hx).1, (hsame x).mpr (.inl (h.gc x hx).2)⟩
    counted := fun x => by
      rw [hmem]
      show (s.mem x).refCount + (if x = r then 1 else 0) = update s.held r (s.held r + 1) x
      by_cases hx : x = r
      · subst hx
        rw [if_pos rfl, update_self, ← h.counted]
      · rw [if_neg hx, update_of_ne hx, add_zero, h.counted]
    doomed := fun x hx => by
      rw [hmem]
      obtain ⟨hp, hinvalid⟩ := h.doomed x hx
      exact ⟨mem_cons_of_mem _ hp, fun hcached => hinvalid (hold hcached hp)⟩
    wrong := h.wrong
    covered := fun a ha => by
      rcases mem_append.mp ha with ha | ha
      · exact h.covered a ha
      · obtain rfl := mem_singleton.mp ha
        have hreg := addRef_mem (({ s with cache := c } : Pool).pin r) r r
        dsimp only
        rw [hreg]
        exact ⟨hbase, hbound⟩
    released := fun a ha => by
      rcases mem_append.mp ha with ha | ha
      · exact h.released a ha
      · obtain rfl := mem_singleton.mp ha
        have hd : r ∉ s.doomed := fun hd => hnot (h.doomed r hd).1
        show s.doomed.contains r = false
        simpa using hd }

/-- A registration that the cache found gets one more reference, and a caller has it. -/
theorem hit (h : Inv z s [] []) (hr : Cached s.cache r) (hvalid : (s.mem r).invalid = false) {addr size : ℕ}
    (hbase : (s.mem r).base ≤ addr) (hbound : addr + size ≤ (s.mem r).bound + 1) :
    Inv z ((s.hit z r).give addr size r) [] [] := by
  have hpinned := (h.cached r hr).1
  have hmade := (h.pinned r).mp hpinned
  have hgc : r ∉ s.gc := fun hin => by
    have := (h.gc r hin).1
    rw [hvalid] at this
    cases this
  have hmru (hin : r ∈ s.spare [] []) : r ∈ s.mru := by
    rcases mem_spare.mp hin with hin | hin | hin | hin | hin
    · exact hin
    · exact absurd hin hgc
    · exact absurd hin hmade.2.1
    · cases hin
    · cases hin
  -- whether it was spare or not, it is not afterwards
  have hunlist : ∃ mru, (if (s.mem r).refCount = 0 ∧ z.leavePinned = true then { s with mru := s.mru.erase r } else s) =
      { s with mru := mru } ∧ (∀ x ∈ mru, x ∈ s.mru) ∧ (mru ++ s.gc ++ s.free ++ [] ++ []).Nodup ∧
      ∀ x, x ∈ mru ++ s.gc ++ s.free ++ [] ++ [] ↔ x ∈ s.spare [] [] ∧ x ≠ r := by
    have hnodup := h.nodup
    by_cases hzero : (s.mem r).refCount = 0
    · have hin : r ∈ s.mru := hmru (((h.zero r).mp hzero).resolve_left (by omega))
      have hperm : (s.spare [] []).Perm (r :: (s.mru.erase r ++ s.gc ++ s.free ++ [] ++ [])) := by
        simp only [Pool.spare, append_assoc, ← cons_append]
        exact (perm_cons_erase hin).append_right _
      have hnodup' := hperm.nodup_iff.mp hnodup
      refine ⟨s.mru.erase r, if_pos ⟨hzero, (h.mru r hin).1⟩, fun x => mem_of_mem_erase, (nodup_cons.mp hnodup').2, fun x => ?_⟩
      rw [hperm.mem_iff, mem_cons]
      constructor
      · exact fun hx => ⟨.inr hx, fun heq => (nodup_cons.mp hnodup').1 (heq ▸ hx)⟩
      · exact fun hx => hx.1.resolve_left hx.2
    · refine ⟨s.mru, if_neg fun hz => hzero hz.1, fun x hx => hx, hnodup, fun x => ?_⟩
      refine (and_iff_left_of_imp fun hx => ?_).symm
      rintro rfl
      exact hzero ((h.zero x).mpr (.inr hx))
  obtain ⟨mru, heq, hsub, hnodup, hspare⟩ := hunlist
  rw [Pool.hit, heq]
  have hmem (x : ℕ) : ((({ s with mru := mru } : Pool).addRef r).give addr size r).mem x =
      { s.mem x with refCount := (s.mem x).refCount + if x = r then 1 else 0 } := addRef_mem _ r x
  exact { h with
    nodup := hnodup
    lt := fun x hx => h.lt x ((hspare x).mp hx).1
    zero := fun x => by
      rw [hmem]
      show (s.mem x).refCount + (if x = r then 1 else 0) = 0 ↔ s.made ≤ x ∨ x ∈ mru ++ s.gc ++ s.free ++ [] ++ []
      rw [hspare]
      by_cases hx : x = r
      · subst hx
        rw [if_pos rfl]
        refine iff_of_false (Nat.succ_ne_zero _) ?_
        rintro (hle | hin)
        · omega
        · exact hin.2 rfl
      · rw [if_neg hx, add_zero, h.zero, and_iff_left hx]
    exact := h.exact.congr fun x _ => by
      rw [hmem]
      exact ⟨rfl, rfl⟩
    cached := fun x hx => by
      rw [hmem]
      exact h.cached x hx
    kept := fun hz x hx => by
      rw [hmem]
      exact h.kept hz x hx
    mru := fun x hx => by
      rw [hmem]
      exact h.mru x (hsub x hx)
    gc := fun x hx => by
      rw [hmem]
      exact h.gc x hx
    counted := fun x => by
      rw [hmem]
      show (s.mem x).refCount + (if x = r then 1 else 0) = update s.held r (s.held r + 1) x
      by_cases hx : x = r
      · subst hx
        rw [if_pos rfl, update_self, ← h.counted]
      · rw [if_neg hx, update_of_ne hx, add_zero, h.counted]
    doomed := fun x hx => by
      rw [hmem]
      exact h.doomed x hx
    covered := fun a ha => by
      rcases mem_append.mp ha with ha | ha
      · exact h.covered a ha
      · obtain rfl := mem_singleton.mp ha
        have hreg := addRef_mem ({ s with mru := mru } : Pool) r r
        dsimp only
        rw [hreg]
        exact ⟨hbase, hbound⟩
    released := fun a ha => by
      rcases mem_append.mp ha with ha | ha
      · exact h.released a ha
      · obtain rfl := mem_singleton.mp ha
        have hd : r ∉ s.doomed := fun hd => by
          have := (h.doomed r hd).2 hr
          rw [hvalid] at this
          cases this
        show s.doomed.contains r = false
        simpa using hd }

theorem dropRef (h : Inv z s [] []) (hheld : 0 < s.held r) :
    let t := ({ s with held := update s.held r (s.held r - 1) } : Pool).setReg r
      { s.mem r with refCount := (s.mem r).refCount - 1 }
    Inv z t (if (s.mem r).refCount = 1 then [r] else []) [] := by
  intro t
  have hcounted := h.counted r
  have hmem (x : ℕ) : t.mem x = { s.mem x with refCount := (s.mem x).refCount - if x = r then 1 else 0 } := by
    by_cases hx : x = r
    · subst hx
      rw [if_pos rfl]
      exact setReg_self _ _ _
    · rw [if_neg hx]
      exact setReg_of_ne hx
  have hnot : ¬(s.made ≤ r ∨ r ∈ s.spare [] []) := fun hr => by
    have := (h.zero r).mpr hr
    omega
  have hspare (x : ℕ) : x ∈ t.spare (if (s.mem r).refCount = 1 then [r] else []) [] ↔
      x ∈ s.spare [] [] ∨ x = r ∧ (s.mem r).refCount = 1 := by
    rw [mem_spare, mem_spare]
    split_ifs with hone
    · simp only [mem_singleton, not_mem_nil, hone]
      show x ∈ s.mru ∨ x ∈ s.gc ∨ x ∈ s.free ∨ x = r ∨ False ↔ _
      grind
    · simp [hone]
      rfl
  exact { h with
    nodup := by
      have hnodup := h.nodup
      show (s.mru ++ s.gc ++ s.free ++ (if (s.mem r).refCount = 1 then [r] else []) ++ []).Nodup
      split_ifs
      · rw [append_nil]
        refine nodup_append.mpr ⟨?_, nodup_singleton r, fun x hx y hy => ?_⟩
        · simpa [Pool.spare] using hnodup
        · obtain rfl := mem_singleton.mp hy
          rintro rfl
          exact hnot (.inr (by simpa [Pool.spare] using hx))
      · exact hnodup
    lt := fun x hx => by
      rcases (hspare x).mp hx with hx | ⟨rfl, -⟩
      · exact h.lt x hx
      · exact Nat.lt_of_not_le fun hle => hnot (.inl hle)
    zero := fun x => by
      rw [hmem, hspare]
      show (s.mem x).refCount - (if x = r then 1 else 0) = 0 ↔ s.made ≤ x ∨ _
      by_cases hx : x = r
      · subst hx
        have hn := not_or.mp hnot
        simp [hn.1, hn.2]
        omega
      · simp [hx, h.zero]
    exact := h.exact.congr fun x _ => by
      rw [hmem]
      exact ⟨rfl, rfl⟩
    cached := fun x hx => by
      rw [hmem]
      exact h.cached x hx
    kept := fun hz x hx => by
      rw [hmem]
      exact h.kept hz x hx
    mru := fun x hx => by
      rw [hmem]
      exact h.mru x hx
    gc := fun x hx => by
      rw [hmem]
      exact h.gc x hx
    counted := fun x => by
      rw [hmem]
      show (s.mem x).refCount - (if x = r then 1 else 0) = update s.held r (s.held r - 1) x
      by_cases hx : x = r
      · subst hx
        rw [if_pos rfl, update_self, h.counted]
      · rw [if_neg hx, update_of_ne hx, Nat.sub_zero, h.counted]
    doomed := fun x hx => by
      rw [hmem]
      exact h.doomed x hx }

theorem keepUnused (h : Inv z s [r] []) (hz : z.leavePinned = true) (hr : Pool.isCacheable (s.mem r) = true) :
    Inv z { s with mru := r :: s.mru } [] [] := by
  have hfields : (s.mem r).bypass = false ∧ (s.mem r).persist = false ∧ (s.mem r).invalid = false := by
    simpa [Pool.isCacheable, and_assoc] using hr
  show Inv z { s with mru := r :: s.mru, gc := s.gc } [] []
  refine h.relist ?_ (fun x hx => ?_) h.gc
  · simp only [Pool.spare, append_nil, cons_append]
    exact (perm_append_singleton r _).symm
  · rcases mem_cons.mp hx with rfl | hx
    · exact ⟨hz, hfields.2.2, hfields.1, hfields.2.1⟩
    · exact h.mru x hx

theorem discardUnused (h : Inv z s [r] []) {d : Driver} (hd : d.deregisterMem r = true) :
    Inv z (((if (s.mem r).bypass then s else s.uncache r).deregMem d r).putItem r) [] [] := by
  split_ifs with hb
  · have hnot : ¬Cached s.cache r := fun hr => by
      rw [(h.cached r hr).2] at hb
      cases hb
    refine h.discard h.exact (fun x => ?_) hd
    refine (and_iff_left_of_imp fun hx => ?_).symm
    rintro rfl
    exact hnot hx
  · obtain ⟨hexact, hsame⟩ := h.exact.treeDelete r
    exact h.discard hexact hsame hd

theorem invalidate (h : Inv z s [] []) (hr : Cached s.cache r) (hvalid : (s.mem r).invalid = false) (n : ℕ) :
    Inv z (Pool.invalidate (s, n) r).1 [] [] := by
  have hpinned := (h.cached r hr).1
  have hmem (x : ℕ) : (s.setReg r { s.mem r with invalid := true }).mem x =
      { s.mem x with invalid := (s.mem x).invalid || decide (x = r) } := by
    by_cases hx : x = r
    · subst hx
      rw [setReg_self]
      simp
    · rw [setReg_of_ne hx]
      simp [hx]
  have hstep (mru gc : List ℕ) (hperm : (mru ++ gc).Perm (s.mru ++ s.gc)) (hmru : ∀ x ∈ mru, x ∈ s.mru ∧ x ≠ r)
      (hgc : ∀ x ∈ gc, x ∈ s.gc ∨ x = r) :
      Inv z { s.setReg r { s.mem r with invalid := true } with mru := mru, gc := gc } [] [] := by
    have hspare : (mru ++ gc ++ s.free ++ [] ++ []).Perm (s.spare [] []) := by
      simp only [Pool.spare, append_nil]
      exact hperm.append_right _
    exact { h with
      nodup := hspare.nodup_iff.mpr h.nodup
      lt := fun x hx => h.lt x (hspare.mem_iff.mp hx)
      zero := fun x => by
        show ((s.setReg r { s.mem r with invalid := true }).mem x).refCount = 0 ↔ _
        rw [hmem]
        exact (h.zero x).trans (or_congr_right hspare.mem_iff.symm)
      exact := h.exact.congr fun x _ => by
        rw [hmem]
        exact ⟨rfl, rfl⟩
      cached := fun x hx => by
        show _ ∧ ((s.setReg r { s.mem r with invalid := true }).mem x).bypass = false
        rw [hmem]
        exact h.cached x hx
      kept := fun hz x hx => by
        show ((s.setReg r { s.mem r with invalid := true }).mem x).bypass = false →
          ((s.setReg r { s.mem r with invalid := true }).mem x).persist = false → _
        rw [hmem]
        exact h.kept hz x hx
      mru := fun x hx => by
        obtain ⟨hin, hne⟩ := hmru x hx
        show _ ∧ ((s.setReg r { s.mem r with invalid := true }).mem x).invalid = false ∧
          ((s.setReg r { s.mem r with invalid := true }).mem x).bypass = false ∧
          ((s.setReg r { s.mem r with invalid := true }).mem x).persist = false
        rw [hmem]
        simpa [hne] using h.mru x hin
      gc := fun x hx => by
        show ((s.setReg r { s.mem r with invalid := true }).mem x).invalid = true ∧ _
        rw [hmem]
        rcases hgc x hx with hin | rfl
        · exact ⟨by simp [(h.gc x hin).1], (h.gc x hin).2⟩
        · exact ⟨by simp, hr⟩
      counted := fun x => by
        show ((s.setReg r { s.mem r with invalid := true }).mem x).refCount = _
        rw [hmem]
        exact h.counted x
      doomed := fun x hx => by
        show _ ∧ (_ → ((s.setReg r { s.mem r with invalid := true }).mem x).invalid = true)
        rw [hmem]
        exact ⟨(h.doomed x hx).1, fun hc => by simp [(h.doomed x hx).2 hc]⟩ }
  have href : ((s.setReg r { s.mem r with invalid := true }).mem r).refCount = (s.mem r).refCount := by rw [hmem]
  rw [Pool.invalidate]
  dsimp only
  rw [href]
  split_ifs with hzero
  · refine hstep s.mru s.gc (List.Perm.refl _) (fun x hx => ⟨hx, ?_⟩) fun x hx => .inl hx
    rintro rfl
    exact hzero ((h.zero x).mpr (.inr (mem_spare.mpr (.inl hx))))
  · have hin : r ∈ s.mru := by
      have hmade := (h.pinned r).mp hpinned
      rcases mem_spare.mp (((h.zero r).mp (not_not.mp hzero)).resolve_left (by omega)) with hin | hin | hin | hin | hin
      · exact hin
      · have := (h.gc r hin).1
        rw [hvalid] at this
        cases this
      · exact absurd hin hmade.2.1
      · cases hin
      · cases hin
    have hnodup : s.mru.Nodup := by
      have := h.nodup
      simp only [Pool.spare, append_assoc, nodup_append] at this
      exact this.1
    refine hstep (s.mru.erase r) (s.gc ++ [r]) ?_ (fun x hx => ?_) fun x hx => ?_
    · rw [← append_assoc]
      refine (perm_append_singleton r _).trans ?_
      rw [← cons_append]
      exact (perm_cons_erase hin).symm.append_right _
    · exact ((hnodup.mem_erase_iff).mp hx).symm
    · exact (mem_append.mp hx).imp_right mem_singleton.mp

end Inv

theorem invalidate_rest (s : Pool × ℕ) (r : ℕ) :
    (Pool.invalidate s r).1.cache = s.1.cache ∧ (Pool.invalidate s r).1.pinned = s.1.pinned ∧
      ∀ x, (Pool.invalidate s r).1.mem x = { s.1.mem x with invalid := (s.1.mem x).invalid || decide (x = r) } := by
  have hmem (x : ℕ) : (s.1.setReg r { s.1.mem r with invalid := true }).mem x =
      { s.1.mem x with invalid := (s.1.mem x).invalid || decide (x = r) } := by
    by_cases hx : x = r
    · subst hx
      rw [setReg_self]
      simp
    · rw [setReg_of_ne hx]
      simp [hx]
  rw [Pool.invalidate]
  dsimp only
  split_ifs
  · exact ⟨rfl, rfl, hmem⟩
  · exact ⟨rfl, rfl, hmem⟩

structure Invalidated (z : Config) (s t : Pool) (regs : List ℕ) : Prop where
  inv : Inv z t [] []
  cache : t.cache = s.cache
  pinned : t.pinned = s.pinned
  mem : ∀ x, t.mem x = { s.mem x with invalid := (s.mem x).invalid || decide (x ∈ regs) }

theorem Inv.invalidateAll {regs : List ℕ} (h : Inv z s [] []) (hnodup : regs.Nodup)
    (hregs : ∀ r ∈ regs, Cached s.cache r ∧ (s.mem r).invalid = false) (n : ℕ) :
    Invalidated z s (regs.foldl Pool.invalidate (s, n)).1 regs := by
  induction regs generalizing s n with
  | nil => exact ⟨h, rfl, rfl, fun x => by simp⟩
  | cons r regs ih =>
    obtain ⟨hnot, hnodup'⟩ := nodup_cons.mp hnodup
    obtain ⟨hr, hvalid⟩ := hregs r mem_cons_self
    obtain ⟨hcache, hpinned, hmem⟩ := invalidate_rest (s, n) r
    have hinv := h.invalidate hr hvalid n
    rw [foldl_cons]
    have hrest := ih (s := (Pool.invalidate (s, n) r).1) hinv hnodup' (fun x hx => ?_) (Pool.invalidate (s, n) r).2
    · refine ⟨hrest.inv, hrest.cache.trans hcache, hrest.pinned.trans hpinned, fun x => ?_⟩
      rw [hrest.mem, hmem]
      simp [Bool.or_assoc]
    · obtain ⟨hx', hv⟩ := hregs x (mem_cons_of_mem _ hx)
      rw [hcache, hmem]
      have hne : x ≠ r := fun heq => hnot (heq ▸ hx)
      exact ⟨hx', by simp [hv, hne]⟩

theorem downAlign_le (a k : ℕ) : downAlign a k ≤ a := Nat.div_mul_le_self _ _

theorem le_upAlign (a k : ℕ) : a ≤ upAlign a k := by
  have hdiv := Nat.div_add_mod' a (2 ^ k)
  have hmod := Nat.mod_lt a (Nat.two_pow_pos k)
  rw [upAlign]
  omega

def Pool.validCount (s : Pool) : ℕ := ((s.cache.vmaList.flatMap Vma.regs).filter fun x => !(s.mem x).invalid).length

theorem Invalidated.count_lt {regs : List ℕ} (h : Invalidated z s t regs) (hr : r ∈ regs) (hc : Cached s.cache r)
    (hvalid : (s.mem r).invalid = false) : t.validCount < s.validCount := by
  have hfilter : (t.cache.vmaList.flatMap Vma.regs).filter (fun x => !(t.mem x).invalid) =
      ((s.cache.vmaList.flatMap Vma.regs).filter fun x => !(s.mem x).invalid).filter fun x => !decide (x ∈ regs) := by
    rw [filter_filter, h.cache]
    refine filter_congr fun x _ => ?_
    rw [h.mem]
    simp [Bool.and_comm]
  rw [Pool.validCount, Pool.validCount, hfilter, length_filter_lt_length_iff_exists]
  obtain ⟨v, hv, hin⟩ := hc
  exact ⟨r, mem_filter.mpr ⟨mem_flatMap.mpr ⟨v, hv, hin⟩, by simp [hvalid]⟩, by simp [hr]⟩

theorem Inv.releaseLoop (h : Inv z s [] []) (base : ℕ) {size : ℕ} (hsize : 0 < size) {fuel : ℕ} (n : ℕ)
    (hfuel : s.validCount < fuel) :
    ∃ regs, Invalidated z s (Pool.releaseLoop z base size fuel (s, n)).1 regs ∧ ∀ x, Cached s.cache x →
      downAlign base z.pageSizeLog ≤ (s.mem x).bound → (s.mem x).base ≤ upAlign (base + size - 1) z.pageSizeLog →
      ((Pool.releaseLoop z base size fuel (s, n)).1.mem x).invalid = true := by
  induction fuel generalizing s n with
  | zero => exact absurd hfuel (Nat.not_lt_zero _)
  | succ fuel ih =>
    have hle : downAlign base z.pageSizeLog ≤ upAlign (base + size - 1) z.pageSizeLog := by
      have := downAlign_le base z.pageSizeLog
      have := le_upAlign (base + size - 1) z.pageSizeLog
      omega
    have hfound := h.exact.findAll_spec hle (show 0 < Pool.nregs by decide)
    rw [Pool.releaseLoop]
    have hall : s.cache.findAll s.mem z.pageSizeLog base size Pool.nregs = s.cache.treeFindAll s.mem
        (downAlign base z.pageSizeLog) (upAlign (base + size - 1) z.pageSizeLog) Pool.nregs := if_neg (by omega)
    dsimp only
    rw [hall]
    generalize s.cache.treeFindAll s.mem (downAlign base z.pageSizeLog) (upAlign (base + size - 1) z.pageSizeLog)
      Pool.nregs = regs at hfound ⊢
    have hregs (r : ℕ) (hr : r ∈ regs) : Cached s.cache r ∧ (s.mem r).invalid = false := by
      have := (hfound.only r hr).resolve_left not_mem_nil
      exact ⟨this.1, this.2.1⟩
    have hinvalidated := h.invalidateAll hfound.nodup hregs n
    generalize hfold : regs.foldl Pool.invalidate (s, n) = out at hinvalidated ⊢
    obtain ⟨t, n'⟩ := out
    split_ifs with hfull
    · obtain ⟨r, hr⟩ : ∃ r, r ∈ regs := exists_mem_of_length_pos (by rw [hfull]; decide)
      have hcount : t.validCount < s.validCount := hinvalidated.count_lt hr (hregs r hr).1 (hregs r hr).2
      obtain ⟨regs', hloop, hgone⟩ := ih hinvalidated.inv n' (show t.validCount < fuel by omega)
      refine ⟨regs ++ regs', ⟨hloop.inv, hloop.cache.trans hinvalidated.cache, hloop.pinned.trans hinvalidated.pinned,
        fun x => ?_⟩, fun x hx hbound hbase => ?_⟩
      · rw [hloop.mem, hinvalidated.mem]
        simp [Bool.or_assoc]
      · refine hgone x (hinvalidated.cache ▸ hx) ?_ ?_ <;> rw [hinvalidated.mem] <;> assumption
    · refine ⟨regs, hinvalidated, fun x hx hbound hbase => ?_⟩
      show (t.mem x).invalid = true
      rw [hinvalidated.mem]
      by_cases hvalid : (s.mem x).invalid = true
      · simp [hvalid]
      · have hin := (hfound.all.resolve_left hfull) x ⟨hx, Bool.eq_false_iff.mpr hvalid, hbound, hbase⟩
        simp [hin]

theorem Inv.doom (h : Inv z s [] []) {base size : ℕ}
    (hgone : ∀ x, Cached s.cache x → 0 < size → (s.mem x).base < base + size → base ≤ (s.mem x).bound →
      (s.mem x).invalid = true) : Inv z (s.doom base size) [] [] :=
  { h with
    doomed := fun x hx => by
      rcases mem_append.mp hx with hx | hx
      · exact h.doomed x hx
      · obtain ⟨hpin, hin⟩ := mem_filter.mp hx
        have hin' : (0 < size ∧ (s.mem x).base < base + size) ∧ base ≤ (s.mem x).bound := by simpa using hin
        exact ⟨hpin, fun hc => hgone x hc hin'.1.1 hin'.1.2 hin'.2⟩ }

theorem Inv.release (h : Inv z s [] []) (base size : ℕ) :
    Inv z ((s.releaseMemory z base size).2.doom base size) [] [] := by
  rw [Pool.releaseMemory]
  dsimp only
  rcases Nat.eq_zero_or_pos size with rfl | hsize
  · have hnone : (Pool.releaseLoop z base 0 ((s.cache.vmaList.flatMap Vma.regs).length + 1) (s, 0)).1 = s := by
      rw [Pool.releaseLoop]
      simp [Module.findAll, Pool.nregs]
    rw [hnone]
    exact h.doom fun x _ hpos => absurd hpos (lt_irrefl 0)
  · have hfuel : s.validCount < (s.cache.vmaList.flatMap Vma.regs).length + 1 :=
      Nat.lt_succ_of_le (length_filter_le _ _)
    obtain ⟨regs, hloop, hgone⟩ := h.releaseLoop base hsize 0 hfuel
    generalize Pool.releaseLoop z base size _ (s, 0) = out at hloop hgone
    refine hloop.inv.doom fun x hx _ hbase hbound => ?_
    refine hgone x (hloop.cache ▸ hx) ?_ ?_
    · have := downAlign_le base z.pageSizeLog
      rw [hloop.mem] at hbound
      exact le_trans this hbound
    · have := le_upAlign (base + size - 1) z.pageSizeLog
      rw [hloop.mem] at hbase
      have hbase' : (s.mem x).base < base + size := hbase
      omega

theorem Keeps.refl (s : Pool) : Keeps s s :=
  ⟨fun _ hx => ⟨hx, rfl⟩, fun _ hx hn => absurd hx hn, fun _ h => h, fun _ h => h⟩

theorem Keeps.trans {u : Pool} (h : Keeps s t) (h' : Keeps t u) : Keeps s u where
  cached x hx := by
    obtain ⟨hx', hmem'⟩ := h'.cached x hx
    obtain ⟨hx'', hmem⟩ := h.cached x hx'
    exact ⟨hx'', hmem'.trans hmem⟩
  evicted x hx hn := by
    by_cases hx' : Cached t.cache x
    · exact (h'.evicted x hx' hn).imp (h.mru x) (h.gc x)
    · exact h.evicted x hx hx'
  mru x hx := h.mru x (h'.mru x hx)
  gc x hx := h.gc x (h'.gc x hx)

theorem Inv.unregistrationGc {gc : List ℕ} (h : Inv z s [] []) (hgc : s.gc = gc) {d : Driver}
    (hd : ∀ r, d.deregisterMem r = true) :
    Inv z (Pool.unregistrationGc d gc s) [] [] ∧ Keeps s (Pool.unregistrationGc d gc s) := by
  induction gc generalizing s with
  | nil => exact ⟨h, Keeps.refl s⟩
  | cons r gc ih =>
    have hpop : Inv z { s with mru := s.mru, gc := gc } [r] [] := by
      refine h.relist ?_ h.mru fun x hx => h.gc x (hgc ▸ mem_cons_of_mem _ hx)
      simp only [Pool.spare, hgc, append_assoc, append_nil]
      refine List.Perm.append_left _ ?_
      rw [← append_assoc]
      exact perm_append_singleton r (gc ++ s.free)
    obtain ⟨hexact, hsame⟩ := hpop.exact.treeDelete r
    have hdiscard := hpop.discard hexact hsame (hd r)
    obtain ⟨hrest, hkeeps⟩ := ih hdiscard rfl
    refine ⟨hrest, Keeps.trans ?_ hkeeps⟩
    refine ⟨fun x hx => ⟨((hsame x).mp hx).1, rfl⟩, fun x hx hn => ?_, fun x hx => hx, fun x hx => ?_⟩
    · have heq : x = r := not_not.mp fun hne => hn ((hsame x).mpr ⟨hx, hne⟩)
      exact .inr (hgc ▸ heq ▸ mem_cons_self)
    · exact hgc ▸ mem_cons_of_mem _ hx

theorem insert_cases {c : Module} {mem : Memory} (h : Exact c mem) (hx : ¬Cached c r) (limit : ℕ) :
    Exact (c.insert mem r limit).2 mem ∧
      ((c.insert mem r limit).1 = .success ∧
          (∀ x, Cached (c.insert mem r limit).2 x ↔ Cached c x ∨ x = r ∧ (mem r).base ≤ (mem r).bound) ∨
        (c.insert mem r limit).1 ≠ .success ∧ ∀ x, Cached (c.insert mem r limit).2 x ↔ Cached c x) := by
  by_cases hle : (mem r).base ≤ (mem r).bound
  · obtain ⟨hexact, hcases⟩ := h.insert hx hle limit
    refine ⟨hexact, hcases.imp_left fun hin => ⟨hin.1, fun x => ?_⟩⟩
    rw [hin.2, and_iff_left hle]
  · have hempty : c.insert mem r limit = (.success, c) := by
      have happend := seek_append (compareClosest (mem r).base) [] c.vmaList
      rw [reverse_nil, nil_append] at happend
      rw [Module.insert, if_neg (by omega), Module.treeInsert, Module.insertLoop.eq_def, if_pos (Nat.lt_of_not_le hle), happend]
      rfl
    rw [hempty]
    refine ⟨h, .inl ⟨rfl, fun x => ?_⟩⟩
    simp [hle]

structure Inserted (z : Config) (s : Pool) (item : ℕ) (out : Status × Pool) : Prop where
  success : out.1 = .success → ∃ (t : Pool) (c : Module), out.2 = { t with cache := c } ∧ Inv z t [] [item] ∧
    Keeps s t ∧ t.mem = s.mem ∧ Exact c t.mem ∧
    ∀ x, Cached c x ↔ Cached t.cache x ∨ x = item ∧ (s.mem item).base ≤ (s.mem item).bound
  failure : out.1 ≠ .success → Inv z out.2 [] [item] ∧ Keeps s out.2

theorem Inv.not_cached_new {item : ℕ} {out : List ℕ} (h : Inv z s out [item]) : ¬Cached s.cache item := fun hc =>
  h.new_not_pinned (h.cached item hc).1

theorem Inv.insertLoop {item : ℕ} {olds : List ℕ} (h : Inv z s [] [item]) (hmru : s.mru = olds.reverse) {d : Driver}
    (hd : ∀ r, d.deregisterMem r = true) : Inserted z s item (Pool.insertLoop z d item olds s) := by
  have hinsert := insert_cases h.exact h.not_cached_new z.rcacheSizeLimit
  induction olds generalizing s with
  | nil =>
    obtain ⟨hexact, ⟨hok, hin⟩ | ⟨hfail, hsame⟩⟩ := hinsert
    · exact ⟨fun _ => ⟨s, _, rfl, h, Keeps.refl s, rfl, hexact, hin⟩, fun hne => absurd hok hne⟩
    · refine ⟨fun hok => absurd hok hfail, fun _ => ⟨h.recache hexact hsame, ?_⟩⟩
      exact ⟨fun x hx => ⟨(hsame x).mp hx, rfl⟩, fun x hx hn => absurd ((hsame x).mpr hx) hn, fun _ h => h, fun _ h => h⟩
  | cons old olds ih =>
    obtain ⟨hexact, hcases⟩ := hinsert
    rw [Pool.insertLoop]
    dsimp only
    split_ifs with htemp hold
    · -- the oldest unused registration is evicted
      obtain ⟨-, hsame⟩ := hcases.resolve_left fun hok => by
        rw [htemp] at hok
        cases hok.1
      have hrecache := h.recache hexact hsame
      have hevict : Inv z { s with
          cache := (s.cache.insert s.mem item z.rcacheSizeLimit).2, mru := olds.reverse, gc := s.gc } [old] [item] := by
        refine hrecache.relist ?_ (fun x hx => h.mru x ?_) hrecache.gc
        · simp only [Pool.spare, hmru, reverse_cons, append_assoc, append_nil]
          refine List.Perm.append_left _ ?_
          rw [← append_assoc, ← append_assoc, ← append_assoc, ← append_assoc]
          exact (List.perm_append_comm.append_right _)
        · rw [hmru, reverse_cons]
          exact mem_append_left _ hx
      obtain ⟨hexact', hsame'⟩ := hevict.exact.treeDelete old
      have hdiscard := hevict.discard hexact' hsame' (hd old)
      have hrest := ih hdiscard rfl (insert_cases hdiscard.exact hdiscard.not_cached_new z.rcacheSizeLimit)
      have hkeeps : Keeps s ((({ s with
          cache := ((s.cache.insert s.mem item z.rcacheSizeLimit).2.treeDelete s.mem old).2, mru := olds.reverse } :
          Pool).deregMem d old).putItem old) := by
        refine ⟨fun x hx => ⟨(hsame x).mp ((hsame' x).mp hx).1, rfl⟩, fun x hx hn => ?_, fun x hx => ?_, fun x hx => hx⟩
        · have heq : x = old := not_not.mp fun hne => hn ((hsame' x).mpr ⟨(hsame x).mpr hx, hne⟩)
          rw [hmru, heq]
          exact .inl (by simp)
        · rw [hmru, reverse_cons]
          exact mem_append_left _ hx
      refine ⟨fun hok => ?_, fun hfail => ?_⟩
      · obtain ⟨t, c, heq, hinv, hkeeps', hmem, hc, hin⟩ := hrest.success hok
        exact ⟨t, c, heq, hinv, hkeeps.trans hkeeps', hmem, hc, hin⟩
      · obtain ⟨hinv, hkeeps'⟩ := hrest.failure hfail
        exact ⟨hinv, hkeeps.trans hkeeps'⟩
    · exact absurd (hd old) hold
    · obtain ⟨hok, hin⟩ | ⟨hfail, hsame⟩ := hcases
      · exact ⟨fun _ => ⟨s, _, rfl, h, Keeps.refl s, rfl, hexact, hin⟩, fun hne => absurd hok hne⟩
      · refine ⟨fun hok => absurd hok hfail, fun _ => ⟨h.recache hexact hsame, ?_⟩⟩
        exact ⟨fun x hx => ⟨(hsame x).mp hx, rfl⟩, fun x hx hn => absurd ((hsame x).mpr hx) hn, fun _ h => h, fun _ h => h⟩

/-- What a call leaves: a caller has the registration, or the cache is as it was. -/
structure Registered (z : Config) (s : Pool) (addr size : ℕ) (out : Result) : Prop where
  success : out.rc = .success → ∃ r, out.reg = some r ∧ Inv z (out.pool.give addr size r) [] []
  failure : out.rc ≠ .success → Inv z out.pool [] [] ∧ Keeps s out.pool

theorem Registered.of_keeps {addr size : ℕ} {out : Result} (hk : Keeps s t) (h : Registered z t addr size out) :
    Registered z s addr size out :=
  ⟨h.success, fun hfail => ⟨(h.failure hfail).1, hk.trans (h.failure hfail).2⟩⟩

theorem getItem_same {memory : Bool} {item : ℕ} (hs : s.getItem memory = some (item, t)) :
    t.mem = s.mem ∧ t.cache = s.cache ∧ t.mru = s.mru ∧ t.gc = s.gc := by
  rw [Pool.getItem.eq_def] at hs
  rcases hfree : s.free with - | ⟨i, free⟩
  · rw [hfree] at hs
    dsimp only at hs
    split_ifs at hs
    obtain ⟨-, rfl⟩ := Prod.mk.inj (Option.some.inj hs)
    exact ⟨rfl, rfl, rfl, rfl⟩
  · rw [hfree] at hs
    obtain ⟨-, rfl⟩ := Prod.mk.inj (Option.some.inj hs)
    exact ⟨rfl, rfl, rfl, rfl⟩

section Item

variable {addr size item : ℕ} {flags : Flags} {d : Driver}

def Pool.prepare (z : Config) (s : Pool) (addr size : ℕ) (flags : Flags) (item : ℕ) : Pool :=
  s.initReg item (downAlign addr z.pageSizeLog) (upAlign (addr + size - 1) z.pageSizeLog) flags

theorem prepare_mem (z : Config) (s : Pool) (addr size : ℕ) (flags : Flags) (item : ℕ) :
    (s.prepare z addr size flags item).mem item = { s.mem item with
      base := downAlign addr z.pageSizeLog, bound := upAlign (addr + size - 1) z.pageSizeLog
      bypass := flags.bypass, persist := flags.persist, invalid := false } := setReg_self _ _ _

theorem keeps_prepare (h : Inv z t [] [item]) (hs : s.getItem d.memory = some (item, t)) :
    Keeps s (t.prepare z addr size flags item) := by
  obtain ⟨hmem, hcache, hmru, hgc⟩ := getItem_same hs
  refine ⟨fun x hx => ?_, fun x hx hn => absurd (show Cached t.cache x from hcache ▸ hx) hn, fun x hx => ?_, fun x hx => ?_⟩
  · have hx' : Cached t.cache x := hx
    have hne : x ≠ item := fun heq => h.not_cached_new (heq ▸ hx')
    refine ⟨hcache ▸ hx', ?_⟩
    rw [← hmem]
    exact setReg_of_ne hne
  · rw [← hmru]
    exact hx
  · rw [← hgc]
    exact hx

theorem covers_prepare (z : Config) (s : Pool) (addr size : ℕ) (flags : Flags) (item : ℕ) :
    ((s.prepare z addr size flags item).mem item).base ≤ addr ∧
      addr + size ≤ ((s.prepare z addr size flags item).mem item).bound + 1 := by
  rw [prepare_mem]
  have := le_upAlign (addr + size - 1) z.pageSizeLog
  exact ⟨downAlign_le addr _, by dsimp only; omega⟩

theorem Keeps.putItem (h : Keeps s t) (item : ℕ) : Keeps s (t.putItem item) := ⟨h.cached, h.evicted, h.mru, h.gc⟩

theorem Inv.registerCacheBypass (h : Inv z s [] []) (hflags : flags.bypass = true ∨ z.leavePinned = false) :
    Registered z s addr size (Pool.registerCacheBypass z s addr size flags d) := by
  rw [Pool.registerCacheBypass.eq_def]
  rcases hitem : s.getItem d.memory with - | ⟨item, t⟩
  · exact ⟨(by rintro ⟨⟩), fun _ => ⟨h, Keeps.refl s⟩⟩
  · have hget := h.getItem hitem
    have hprepare : Inv z (t.prepare z addr size flags item) [] [item] := hget.initReg ..
    have hkeeps : Keeps s (t.prepare z addr size flags item) := keeps_prepare hget hitem
    dsimp only
    split_ifs with hregister
    · refine ⟨fun _ => ⟨item, rfl, ?_⟩, fun hne => absurd rfl hne⟩
      refine hprepare.enrol (P := False) hprepare.exact (fun x => by simp) False.elim ?_ (covers_prepare ..).1 (covers_prepare ..).2
      intro hz hb _
      rw [prepare_mem] at hb
      rcases hflags with hflags | hflags
      · cases hflags.symm.trans hb
      · cases hflags.symm.trans hz
    · exact ⟨(by rintro ⟨⟩), fun _ => ⟨hprepare.putItem, hkeeps.putItem item⟩⟩

theorem registerCached_some (hitem : s.getItem d.memory = some (item, t)) :
    Pool.registerCached z s addr size flags d =
      let out := Pool.insertLoop z d item (t.prepare z addr size flags item).mru.reverse (t.prepare z addr size flags item)
      if out.1 = .success then
        if d.registerMem then ⟨.success, some item, (out.2.pin item).addRef item⟩
        else ⟨.error, none, (out.2.uncache item).putItem item⟩
      else ⟨out.1, none, out.2.putItem item⟩ := by
  simp only [Pool.registerCached, hitem]
  rfl

theorem Inv.registerCached (h : Inv z s [] []) (hd : ∀ r, d.deregisterMem r = true) (hb : flags.bypass = false)
    (hsize : 0 < size ∨ flags.persist = true) :
    Registered z s addr size (Pool.registerCached z s addr size flags d) := by
  rcases hitem : s.getItem d.memory with - | ⟨item, t⟩
  · rw [Pool.registerCached.eq_def, hitem]
    exact ⟨nofun, fun _ => ⟨h, Keeps.refl s⟩⟩
  · have hget := h.getItem hitem
    have hprepare : Inv z (t.prepare z addr size flags item) [] [item] := hget.initReg ..
    have hkeeps : Keeps s (t.prepare z addr size flags item) := keeps_prepare hget hitem
    have hcovers := covers_prepare z t addr size flags item
    have hfields := prepare_mem z t addr size flags item
    have hinsert := hprepare.insertLoop (reverse_reverse _).symm hd
    rw [registerCached_some hitem]
    dsimp only
    generalize t.prepare z addr size flags item = p at hprepare hkeeps hcovers hfields hinsert ⊢
    generalize Pool.insertLoop z d item p.mru.reverse p = out at hinsert ⊢
    obtain ⟨rc, u⟩ := out
    dsimp only
    split_ifs with hok hregister
    · obtain ⟨u, c, rfl, hinv, -, hmem, hc, hin⟩ := hinsert.success hok
      rw [← hmem] at hin hfields hcovers
      refine ⟨fun _ => ⟨item, rfl, hinv.enrol hc hin ?_ ?_ hcovers.1 hcovers.2⟩, fun hne => absurd rfl hne⟩
      · intro _
        rw [hfields]
        exact hb
      · intro _ _ hp
        rw [hfields] at hp ⊢
        have hpos : 0 < size := hsize.resolve_right fun hp' => absurd (hp'.symm.trans hp) nofun
        have := downAlign_le addr z.pageSizeLog
        have := le_upAlign (addr + size - 1) z.pageSizeLog
        show downAlign addr z.pageSizeLog ≤ upAlign (addr + size - 1) z.pageSizeLog
        omega
    · obtain ⟨u, c, rfl, hinv, hk, hmem, hc, hin⟩ := hinsert.success hok
      obtain ⟨hexact, hsame⟩ := hc.treeDelete item
      have hback (x : ℕ) : Cached (c.treeDelete u.mem item).2 x ↔ Cached u.cache x := by
        rw [hsame, hin]
        constructor
        · rintro ⟨hx | hx, hne⟩
          · exact hx
          · exact absurd hx.1 hne
        · intro hx
          exact ⟨.inl hx, fun heq => hinv.not_cached_new (heq ▸ hx)⟩
      have hrecache := hinv.recache hexact hback
      refine ⟨nofun, fun _ => ⟨hrecache.putItem, (hkeeps.trans (hk.trans ?_)).putItem item⟩⟩
      exact ⟨fun x hx => ⟨(hback x).mp hx, rfl⟩, fun x hx hn => absurd ((hback x).mpr hx) hn, fun _ h => h, fun _ h => h⟩
    · obtain ⟨hinv, hk⟩ := hinsert.failure hok
      exact ⟨fun heq => absurd heq hok, fun _ => ⟨hinv.putItem, (hkeeps.trans hk).putItem item⟩⟩

theorem Inv.hit_found (h : Inv z s [] []) (hsize : 0 < size) {reg : Option ℕ}
    (hfind : (s.cache.find s.mem z.pageSizeLog addr size reg).2 = some r) :
    Inv z ((s.hit z r).give addr size r) [] [] := by
  rw [Module.find, if_neg (by omega)] at hfind
  obtain ⟨hcached, hvalid, hbase, hbound⟩ := h.exact.find_some hfind
  have := le_upAlign (addr + size - 1) z.pageSizeLog
  exact h.hit hcached hvalid (le_trans hbase (downAlign_le addr _)) (by omega)

theorem Inv.register (h : Inv z s [] []) {reg : Option ℕ} (hcareful : s.Careful z (.register addr size flags reg d)) :
    Registered z s addr size (Pool.register z s addr size flags reg d) := by
  obtain ⟨hd, hsize⟩ := hcareful
  rw [Pool.register]
  by_cases hb : flags.bypass = true
  · rw [if_pos hb]
    exact h.registerCacheBypass (.inl hb)
  · have hb' : flags.bypass = false := Bool.eq_false_iff.mpr hb
    obtain ⟨hgc, hkeeps⟩ := h.unregistrationGc rfl hd
    rw [if_neg hb]
    dsimp only
    generalize Pool.unregistrationGc d s.gc s = t at hgc hkeeps ⊢
    refine Registered.of_keeps hkeeps ?_
    by_cases hp : flags.persist = true
    · rw [if_pos hp]
      exact hgc.registerCached hd hb' (.inr hp)
    · have hpos : 0 < size := hsize.resolve_right fun hor => hor.elim hb hp
      rw [if_neg hp]
      split
      · rename_i r hfound
        have hfind : (t.cache.find t.mem z.pageSizeLog addr size reg).2 = some r :=
          (Option.filter_eq_some_iff.mp hfound).1
        exact ⟨fun _ => ⟨r, rfl, hgc.hit_found hpos hfind⟩, fun hne => absurd rfl hne⟩
      · split_ifs with hauto
        · have hz : z.leavePinned = false := by
            rw [Bool.and_eq_true] at hauto
            simpa using hauto.1
          exact hgc.registerCacheBypass (.inr hz)
        · exact hgc.registerCached hd hb' (.inl hpos)

theorem Inv.find (h : Inv z s [] []) {reg : Option ℕ} (hcareful : s.Careful z (.find addr size reg)) :
    Inv z ((Pool.find z s addr size reg).reg.elim (Pool.find z s addr size reg).pool
      ((Pool.find z s addr size reg).pool.give addr size)) [] [] := by
  obtain ⟨hzero, hsuits⟩ := hcareful
  rw [Pool.find]
  rcases hfound : (s.cache.find s.mem z.pageSizeLog addr size reg).2 with - | r
  · exact h
  · have hpos : 0 < size := by
      refine Nat.pos_of_ne_zero fun hz => ?_
      rw [Module.find, if_pos hz, hzero hz] at hfound
      cases hfound
    dsimp only
    rw [if_pos (hsuits r hfound)]
    exact h.hit_found hpos hfound

end Item

theorem Inv.deregister (h : Inv z s [] []) {d : Driver} (hd : ∀ r, d.deregisterMem r = true) (hheld : 0 < s.held r) :
    Inv z (({ s with held := update s.held r (s.held r - 1) } : Pool).deregister z r d).2 [] [] := by
  have hdrop := h.dropRef hheld
  have hcounted := h.counted r
  rw [Pool.deregister]
  dsimp only at hdrop ⊢
  have hmem := setReg_self { s with held := update s.held r (s.held r - 1) } r
    { s.mem r with refCount := (s.mem r).refCount - 1 }
  generalize ({ s with held := update s.held r (s.held r - 1) } : Pool).setReg r
    { s.mem r with refCount := (s.mem r).refCount - 1 } = t at hdrop hmem ⊢
  have href : (t.mem r).refCount = (s.mem r).refCount - 1 := by rw [hmem]
  split_ifs at hdrop with hone
  · rw [if_neg (by omega)]
    by_cases hkeep : (z.leavePinned && Pool.isCacheable (t.mem r)) = true
    · rw [if_pos hkeep]
      rw [Bool.and_eq_true] at hkeep
      exact hdrop.keepUnused hkeep.1 hkeep.2
    · rw [if_neg hkeep, if_pos (hd r)]
      exact hdrop.discardUnused (hd r)
  · rw [if_pos (by omega)]
    exact hdrop

theorem Inv.init (h : Init s) : Inv z s [] [] := by
  have hspare : s.spare [] [] = [] := by simp [Pool.spare, h.mru, h.gc, h.free]
  have hnot (x : ℕ) : ¬Cached s.cache x := by
    rw [h.cache]
    rintro ⟨v, hv, -⟩
    cases hv
  exact {
    nodup := by rw [hspare]; exact nodup_nil
    lt := fun r hr => by
      rw [hspare] at hr
      cases hr
    zero := fun r => by simp [h.mem, h.made]
    pinnedNodup := by rw [h.pinned]; exact nodup_nil
    pinned := fun r => by simp [h.pinned, h.made]
    exact := by
      refine ⟨?_, ?_, fun x hx => absurd hx (hnot x)⟩
      · rw [h.cache]
        exact ⟨.nil, nofun, nofun, nofun⟩
      · rw [h.cache]
        rfl
    cached := fun x hx => absurd hx (hnot x)
    kept := fun _ x hx => by
      rw [h.pinned] at hx
      cases hx
    mru := fun r hr => by
      rw [h.mru] at hr
      cases hr
    gc := fun r hr => by
      rw [h.gc] at hr
      cases hr
    counted := fun r => (h.mem r).trans (h.held r).symm
    doomed := fun r hr => by
      rw [h.doomed] at hr
      cases hr
    wrong := h.wrong
    covered := fun a ha => by
      rw [h.answers] at ha
      cases ha
    released := fun a ha => by
      rw [h.answers] at ha
      cases ha }

theorem Inv.step {e : Step} (h : Inv z s [] []) (hcareful : s.Careful z e) (hstep : (system z).step s e t) :
    Inv z t [] [] := by
  have hstep' : s.next z e = some t := hstep
  rcases e with ⟨addr, size, flags, reg, d⟩ | ⟨addr, size, reg⟩ | ⟨reg, d⟩ | ⟨base, size⟩
  · have hregistered := h.register hcareful
    cases hstep'
    by_cases hok : (s.register z addr size flags reg d).rc = .success
    · obtain ⟨r, hr, hinv⟩ := hregistered.success hok
      rw [if_pos hok, hr]
      exact hinv
    · rw [if_neg hok]
      exact (hregistered.failure hok).1
  · cases hstep'
    exact h.find hcareful
  · rw [Pool.next] at hstep'
    split_ifs at hstep' with hheld
    cases hstep'
    exact h.deregister hcareful hheld
  · cases hstep'
    exact h.release base size

theorem Inv.accounted (h : Inv z s [] []) : Accounted s :=
  { h with
    once := h.wrong
    registered := fun r => (h.pinned r).trans (and_congr_right fun _ => and_iff_left not_mem_nil)
    places := by
      have hspare : s.spare [] [] = s.mru ++ s.gc ++ s.free := by simp [Pool.spare]
      have hnodup := h.nodup
      have hlt := h.lt
      have hzero := h.zero
      rw [hspare] at hnodup hlt
      simp only [hspare] at hzero
      rw [append_assoc, append_assoc, ← append_assoc s.mru]
      -- an object is referenced or spare, but not both
      have hreferenced (r : ℕ) : r ∈ s.referenced ↔ r < s.made ∧ r ∉ s.mru ++ s.gc ++ s.free := by
        rw [Pool.referenced, mem_filter, mem_range, decide_eq_true_eq, Nat.pos_iff_ne_zero, Ne, hzero]
        refine and_congr_right fun hr => not_congr (or_iff_right (Nat.not_le_of_lt hr))
      refine (perm_ext_iff_of_nodup ?_ nodup_range).mpr fun r => ?_
      · refine nodup_append.mpr ⟨List.nodup_range.filter _, hnodup, fun x hx y hy heq => ?_⟩
        exact ((hreferenced x).mp hx).2 (heq ▸ hy)
      · rw [mem_append, hreferenced, mem_range]
        have := hlt r
        tauto
    mru := fun r hr => by
      obtain ⟨hz, hvalid, hb, hp⟩ := h.mru r hr
      have hmem : r ∈ s.spare [] [] := mem_spare.mpr (.inl hr)
      have hfree : r ∉ s.free := fun hf => by
        have hnodup := h.nodup
        simp only [Pool.spare, append_nil, append_assoc] at hnodup
        exact (nodup_append.mp hnodup).2.2 r hr r (mem_append_right _ hf) rfl
      refine ⟨(h.zero r).mpr (.inr hmem), hvalid, h.kept hz r ?_ hb hp⟩
      exact (h.pinned r).mpr ⟨h.lt r hmem, hfree, not_mem_nil⟩
    gc := fun r hr => ⟨(h.zero r).mpr (.inr (mem_spare.mpr (.inr (.inl hr)))), (h.gc r hr).1⟩ }

/-- Where each step is careful, registrations are accounted for, and a registration that fails leaves the cache. -/
theorem accounted_of_careful (hs : ((system z).restrict (Pool.Careful z)).Reachable s) :
    Accounted s ∧ ∀ addr size flags reg d, s.Careful z (.register addr size flags reg d) →
      (s.register z addr size flags reg d).rc ≠ .success → Keeps s (s.register z addr size flags reg d).pool := by
  have hinv : Inv z s [] [] := by
    refine hs.invariant (P := fun s => Inv z s [] []) (fun s h => Inv.init h) (fun s e t h hstep => ?_)
    exact h.step hstep.1 hstep.2
  refine ⟨hinv.accounted, fun addr size flags reg d hcareful hfail => ?_⟩
  exact ((hinv.register hcareful).failure hfail).2

def start : Pool := ⟨fun _ => ⟨0, 0, false, false, false, 0⟩, ⟨[], 0⟩, [], 0, [], [], [], fun _ => 0, [], false, []⟩

theorem init_start : Init start :=
  ⟨fun _ => rfl, rfl, rfl, rfl, rfl, rfl, rfl, fun _ => rfl, rfl, rfl, rfl⟩

def willing : Driver := ⟨true, true, fun _ => true⟩

def unwilling : Driver := ⟨true, false, fun _ => true⟩

def pinning : Config := ⟨true, 0, 12⟩

def bypassed : Pool := (start.registerCacheBypass pinning 0 2 ⟨true, false⟩ willing).pool.give 0 2 0

theorem accounted_of_careful_bypassed :
    Accounted bypassed ∧ Keeps bypassed (bypassed.register pinning 4096 2 ⟨true, false⟩ none unwilling).pool := by
  have hstep : ((system pinning).restrict (Pool.Careful pinning)).step start (.register 0 2 ⟨true, false⟩ none willing)
      bypassed := ⟨⟨fun _ => rfl, .inl Nat.two_pos⟩, rfl⟩
  have h := accounted_of_careful ⟨start, _, init_start, System.Run.single hstep⟩
  exact ⟨h.1, h.2 _ _ _ _ _ ⟨fun _ => rfl, .inl Nat.two_pos⟩ nofun⟩

def limited : Config := ⟨false, 8192, 12⟩

def taken : Pool := { start with free := List.range' 1 31, made := 32 }

def prepared : Pool := Pool.prepare limited taken 0 8192 ⟨false, false⟩ 0

def twoPages : Pool := (({ prepared with cache := ⟨[⟨0, 8191, [0]⟩], 8192⟩ } : Pool).pin 0).addRef 0

theorem insert_twoPages {mem : Memory} (h : mem 0 = ⟨0, 8191, false, false, false, 0⟩) :
    (⟨[], 0⟩ : Module).insert mem 0 8192 = (.success, ⟨[⟨0, 8191, [0]⟩], 8192⟩) := by
  have hloop : Module.insertLoop mem 8192 0 8191 0 [] [] 0 = (([⟨0, 8191, [0]⟩], 8192), true) := by
    rw [Module.insertLoop, if_neg (by omega)]
    rw [if_pos (by decide), Module.insertLoop, if_pos (by omega)]
    rfl
  have hseek : Rcache.seek (compareClosest 0) [] [] = ([], []) := rfl
  have hfits : ¬(8192 ≠ 0 ∧ 8192 < (mem 0).bound + 1 - (mem 0).base) := by
    rw [h]
    decide
  rw [Module.insert, if_neg hfits, Module.treeInsert, h, hseek]
  dsimp only
  rw [hloop]
  rfl

theorem register_twoPages :
    start.register limited 0 8192 ⟨false, false⟩ none willing = ⟨.success, some 0, twoPages⟩ := by
  have hinsert : (prepared.cache).insert prepared.mem 0 8192 = (.success, ⟨[⟨0, 8191, [0]⟩], 8192⟩) := insert_twoPages rfl
  have hloop : Pool.insertLoop limited willing 0 [] prepared =
      (.success, { prepared with cache := ⟨[⟨0, 8191, [0]⟩], 8192⟩ }) := by
    show ((prepared.cache.insert prepared.mem 0 8192).1, { prepared with cache := (prepared.cache.insert prepared.mem 0 8192).2 }) = _
    rw [hinsert]
  have hcached : start.register limited 0 8192 ⟨false, false⟩ none willing =
      start.registerCached limited 0 8192 ⟨false, false⟩ willing := rfl
  have hitem : start.getItem willing.memory = some (0, taken) := rfl
  have hsome : start.registerCached limited 0 8192 ⟨false, false⟩ willing = _ := registerCached_some hitem
  rw [show Pool.prepare limited taken 0 8192 ⟨false, false⟩ 0 = prepared from rfl] at hsome
  rw [hcached, hsome, show prepared.mru.reverse = [] from rfl, hloop]
  rfl

/-- Where a page of two is asked for, the registration of both is found, but nobody counts it. -/
theorem not_accounted_found : ∃ z s, (system z).Reachable s ∧ ¬Accounted s := by
  refine ⟨limited, (twoPages.give 0 8192 0).give 0 4096 0,
    ⟨start, [.register 0 8192 ⟨false, false⟩ none willing, .find 0 4096 none], init_start,
      ((System.Run.nil _).snoc (t := start) (u := twoPages.give 0 8192 0) ?_).snoc rfl⟩, fun h => ?_⟩
  · show start.next limited _ = _
    rw [Pool.next, register_twoPages]
    rfl
  · exact absurd (h.counted 0) (by decide)

end OpenMPI.Mpool
