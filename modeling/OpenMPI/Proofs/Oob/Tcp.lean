import Mathlib.Data.List.Nodup
import Mathlib.Data.List.Perm.Basic
import OpenMPI.Oob.Tcp

/-!
# Receives that do not depend on who comes first

The books (`Books`) follow the messages and the receives that took them: each message is taken once or waits, behind those
of its origin and tag that were taken.  A callback that is put off waits in the list of completed receives, which the
shape of the running callbacks tells (`Shape`).  The arguments of a callback are right where the sender sent directly,
the iovecs are as the user passed them as far as the message goes, and the callback was not put off or its receive names
the sender.
-/

namespace OpenMPI.Oob

open Lib List Function

variable {β : Type*} {s t : State β} {r : Recv} {m : Msg β}

/-- The copy of a message into the iovecs as the user passed them, and its count. -/
def Taken.Right (t : Taken β) : Prop :=
  t.chunks = (msgCopy t.recv.alloc t.recv.user t.msg.data).1 ∧
    t.rc = .bytes (t.recv.count t.msg (msgCopy t.recv.alloc t.recv.user t.msg.data).1)

/-- The arguments of a callback follow from the receive and the message, and the receive was there. -/
structure Call.Right (c : Call β) : Prop where
  peer : c.peer = c.msg.origin
  tag : c.tag = c.msg.tag
  live : c.live = true
  copied : c.toTaken.Right

def deferred : List (Frame β) → List (Taken β) → List (Taken β)
  | [], completed => completed
  | .plain :: frames, completed => deferred frames completed
  | .posting _ :: frames, completed => deferred frames completed
  | .completing _ :: _, completed => completed.tail
  | .dispatching :: _, completed => completed

def State.taken (s : State β) : List (Taken β) := s.handed.map Call.toTaken ++ deferred s.frames s.completed

/-- What is asked of a state.  A callback is put off only while others run. -/
structure Fair (s : State β) : Prop where
  once : (s.taken.map Taken.msg ++ s.queued).Perm s.arrived
  idle : s.frames = [] → s.taken = s.handed.map Call.toTaken
  matching : ∀ t ∈ s.taken, t.recv ∈ s.calls ∧ t.recv.takes t.msg
  single : ((s.taken.filter (!·.recv.persistent)).map (·.recv.id)).Nodup
  gone : ∀ t ∈ s.taken, t.recv.persistent = false → ∀ r ∈ s.posted, r.id ≠ t.recv.id
  order : s.handed.Pairwise fun a b => a.recv = b.recv → a.msg.origin = b.msg.origin → a.msg.tag = b.msg.tag →
    a.msg.number < b.msg.number
  settled : ∀ q ∈ s.queued, ∀ r ∈ s.posted, r.takes q → .posting r ∈ s.frames
  arguments : ∀ c ∈ s.handed, c.Right

/-- A message of `n` bytes goes as far in the iovecs as with the lengths the user passed. -/
def Room (alloc : Bool) : List ℕ → List ℕ → ℕ → Prop
  | len :: lens, u :: user, n =>
    (alloc = true ∧ lens = []) ∨ n ≤ min len u ∨ (len = u ∧ Room alloc lens user (n - u))
  | _, _, _ => True

/-- A message for a persistent receive comes directly, has room in the iovecs and overtakes none; where a callback is put
off, the receive names the sender.  A receive that is posted finds a message that came directly, and is not cancelled
before its call is over. -/
def State.Careful (s : State β) : Step β → Prop
  | .arrive m => ∀ r, s.posted.find? (·.takes m) = some r →
      (r.persistent = true → m.peer = m.origin ∧ Room r.alloc (s.iovs r.id) r.user m.data.length ∧
        ∀ q ∈ s.queued, m.origin = q.origin → m.tag ≠ q.tag) ∧
      (r.persistent = false → r.recursive = true ∨ s.completed = [] ∨ r.name = m.origin)
  | .recvNb r => ∀ m, s.queued.find? (r.takes ·) = some m → m.peer = m.origin
  | .cancel name tag => ∀ r, .posting r ∈ s.frames → State.named name tag r = false
  | .ret => ∀ r frames m, s.frames = .posting r :: frames → s.queued.find? (r.takes ·) = some m →
      m.peer = m.origin ∧ Room r.alloc (s.iovs r.id) r.user m.data.length

theorem msgCopy_all {alloc : Bool} {n : ℕ} {lens : List ℕ} {src : List β}
    (h : (alloc && lens.isEmpty) = true ∨ src.length ≤ n) :
    msgCopy alloc (n :: lens) src = ([src], src.length :: lens) := by
  have hk : (if (alloc && lens.isEmpty) = true then src.length else min n src.length) = src.length := by
    split_ifs with hlast
    · rfl
    · exact min_eq_right (h.resolve_left hlast)
  rw [msgCopy, hk]
  simp

theorem msgCopy_cons {alloc : Bool} {n : ℕ} {lens : List ℕ} {src : List β} (hlast : ¬(alloc && lens.isEmpty) = true)
    (hlt : n < src.length) :
    msgCopy alloc (n :: lens) src =
      (src.take n :: (msgCopy alloc lens (src.drop n)).1, n :: (msgCopy alloc lens (src.drop n)).2) := by
  rw [msgCopy, if_neg hlast, min_eq_left (le_of_lt hlt)]
  simp [ne_of_lt hlt]

theorem length_msgCopy (alloc : Bool) (lens : List ℕ) (src : List β) :
    (msgCopy alloc lens src).2.length = lens.length := by
  induction lens generalizing src with
  | nil => rfl
  | cons n lens ih =>
    by_cases h : (alloc && lens.isEmpty) = true ∨ src.length ≤ n
    · rw [msgCopy_all h]
      rfl
    · obtain ⟨hlast, hlt⟩ := not_or.mp h
      rw [msgCopy_cons hlast (Nat.lt_of_not_le hlt)]
      simp [ih]

theorem msgCopy_of_room {alloc : Bool} {lens user : List ℕ} {src : List β} (hlength : lens.length = user.length)
    (h : Room alloc lens user src.length) : (msgCopy alloc lens src).1 = (msgCopy alloc user src).1 := by
  induction lens generalizing user src with
  | nil =>
    obtain rfl := length_eq_zero_iff.mp hlength.symm
    rfl
  | cons len lens ih =>
    rcases user with - | ⟨u, user⟩
    · cases hlength
    · have hlength' : lens.length = user.length := Nat.succ.inj hlength
      have hempty : lens.isEmpty = user.isEmpty := by
        rw [Bool.eq_iff_iff, isEmpty_iff_length_eq_zero, isEmpty_iff_length_eq_zero, hlength']
      rcases h with ⟨rfl, rfl⟩ | hle | ⟨rfl, hroom⟩
      · rw [msgCopy_all (.inl rfl), msgCopy_all (.inl (by rw [← hempty]; rfl))]
      · rw [msgCopy_all (.inr (le_trans hle (min_le_left _ _))),
          msgCopy_all (.inr (le_trans hle (min_le_right _ _)))]
      · by_cases hall : (alloc && lens.isEmpty) = true ∨ src.length ≤ len
        · rw [msgCopy_all hall, msgCopy_all (by rwa [← hempty])]
        · obtain ⟨hlast, hlt⟩ := not_or.mp hall
          have hlt' : len < src.length := Nat.lt_of_not_le hlt
          rw [msgCopy_cons hlast hlt', msgCopy_cons (by rwa [← hempty]) hlt']
          dsimp only
          rw [ih hlength' (by rwa [length_drop])]

theorem takes_congr {q : Msg β} (horigin : m.origin = q.origin) (htag : m.tag = q.tag) : r.takes m = r.takes q := by
  rw [Recv.takes, Recv.takes, horigin, htag]

theorem find?_split {α : Type*} {p : α → Bool} {l : List α} {a : α} (h : l.find? p = some a) :
    ∃ l₁ l₂, l = l₁ ++ a :: l₂ ∧ (∀ b ∈ l₁, p b = false) ∧ p a = true ∧ l.eraseP p = l₁ ++ l₂ := by
  obtain ⟨hp, l₁, l₂, rfl, hfirst⟩ := find?_eq_some_iff_append.mp h
  have hfalse (b : α) (hb : b ∈ l₁) : p b = false := by simpa using hfirst b hb
  refine ⟨l₁, l₂, rfl, hfalse, hp, ?_⟩
  rw [eraseP_append_right _ fun b hb => by simp [hfalse b hb], eraseP_cons_of_pos hp]

def Shape : List (Frame β) → List (Taken β) → Prop
  | [], completed => completed = []
  | .plain :: frames, completed => Shape frames completed
  | .posting _ :: frames, completed => Shape frames completed
  | .completing t :: frames, completed => (∃ rest, completed = t :: rest) ∧ Shape frames []
  | .dispatching :: frames, _ => Shape frames []

variable {frames : List (Frame β)} {completed : List (Taken β)}

theorem Shape.deferred_nil (h : Shape frames []) : deferred frames [] = [] := by
  induction frames with
  | nil => rfl
  | cons f frames ih =>
    rcases f with - | t | - | r
    · exact ih h
    · rfl
    · rfl
    · exact ih h

theorem Shape.append (h : Shape frames completed) (hne : completed ≠ []) (t : Taken β) :
    Shape frames (completed ++ [t]) ∧ deferred frames (completed ++ [t]) = deferred frames completed ++ [t] := by
  induction frames with
  | nil => exact absurd h hne
  | cons f frames ih =>
    rcases f with - | t' | - | r
    · exact ih h
    · obtain ⟨⟨rest, rfl⟩, hrest⟩ := h
      exact ⟨⟨⟨rest ++ [t], rfl⟩, hrest⟩, rfl⟩
    · exact ⟨h, rfl⟩
    · exact ih h

/-- What is known of the lists, where `T` are the receives that have got a message and `F` the running callbacks. -/
structure Books (s : State β) (T : List (Taken β)) (F : List (Frame β)) : Prop where
  arrived : (T.map Taken.msg ++ s.queued).Perm s.arrived
  numbers : ∀ m ∈ s.arrived, m.number < s.arrived.length
  queue : s.queued.Pairwise fun a b => a.number < b.number
  behind : ∀ t ∈ T, ∀ q ∈ s.queued, t.msg.origin = q.origin → t.msg.tag = q.tag → t.msg.number < q.number
  ids : ∀ r ∈ s.calls, r.id < s.calls.length
  posted : ∀ r ∈ s.posted, r ∈ s.calls
  postedIds : (s.posted.map Recv.id).Nodup
  takes : ∀ t ∈ T, t.recv ∈ s.calls ∧ t.recv.takes t.msg
  single : ((T.filter (!·.recv.persistent)).map (·.recv.id)).Nodup
  gone : ∀ t ∈ T, t.recv.persistent = false → ∀ r ∈ s.posted, r.id ≠ t.recv.id
  settled : ∀ q ∈ s.queued, ∀ r ∈ s.posted, r.takes q → .posting r ∈ F
  posting : ∀ r, .posting r ∈ F → r.persistent = true ∧ r ∈ s.posted
  iovs : ∀ r ∈ s.posted, s.iovs r.id ≠ [] ∧ (s.iovs r.id).length = r.user.length ∧
    (r.persistent = false → s.iovs r.id = r.user)
  cancelled : ∀ i ∈ s.cancelled, i < s.calls.length ∧ ∀ r ∈ s.posted, r.id ≠ i

namespace Books

variable {T T' : List (Taken β)} {F F' : List (Frame β)}

section

variable (h : Books s T F)

include h

theorem keep (handed : List (Call β)) (completed : List (Taken β)) (frames : List (Frame β)) :
    Books { s with handed := handed, completed := completed, frames := frames } T F :=
  ⟨h.arrived, h.numbers, h.queue, h.behind, h.ids, h.posted, h.postedIds, h.takes, h.single, h.gone, h.settled, h.posting,
    h.iovs, h.cancelled⟩

theorem perm (hp : T.Perm T') : Books s T' F :=
  { h with
    arrived := ((hp.symm.map _).append_right _).trans h.arrived
    behind := fun t ht => h.behind t (hp.mem_iff.mpr ht)
    takes := fun t ht => h.takes t (hp.mem_iff.mpr ht)
    single := ((hp.filter _).map _).nodup_iff.mp h.single
    gone := fun t ht => h.gone t (hp.mem_iff.mpr ht) }

theorem calls (hF : ∀ r, .posting r ∈ F ↔ .posting r ∈ F') : Books s T F' :=
  { h with
    settled := fun q hq r hr ht => (hF r).mp (h.settled q hq r hr ht)
    posting := fun r hr => h.posting r ((hF r).mpr hr) }

theorem inj {r r' : Recv} (hr : r ∈ s.posted) (hr' : r' ∈ s.posted) (hid : r.id = r'.id) : r = r' :=
  inj_on_of_nodup_map h.postedIds hr hr' hid

theorem number_lt {t : Taken β} (ht : t ∈ T) : t.msg.number < s.arrived.length := by
  refine h.numbers _ (h.arrived.mem_iff.mp ?_)
  exact mem_append_left _ (mem_map_of_mem ht)

theorem fresh {r : Recv} (hid : r.id = s.calls.length) : ∀ r' ∈ s.calls, r'.id ≠ r.id := by
  intro r' hr'
  have := h.ids r' hr'
  omega

theorem numbers_append (hnumber : m.number = s.arrived.length) :
    ∀ m' ∈ s.arrived ++ [m], m'.number < (s.arrived ++ [m]).length := by
  intro m' hm'
  rw [length_append, length_singleton]
  rcases mem_append.mp hm' with hm' | hm'
  · exact Nat.lt_succ_of_lt (h.numbers m' hm')
  · obtain rfl := mem_singleton.mp hm'
    omega

theorem come (hnumber : m.number = s.arrived.length) (hnone : ∀ r ∈ s.posted, r.takes m = false) :
    Books { s with arrived := s.arrived ++ [m], queued := s.queued ++ [m] } T F :=
  { h with
    arrived := by
      rw [← append_assoc]
      exact h.arrived.append_right _
    numbers := h.numbers_append hnumber
    queue := by
      refine pairwise_append.mpr ⟨h.queue, pairwise_singleton _ _, fun q hq m' hm' => ?_⟩
      obtain rfl := mem_singleton.mp hm'
      rw [hnumber]
      exact h.numbers q (h.arrived.mem_iff.mp (mem_append_right _ hq))
    behind := fun t ht q hq horigin htag => by
      rcases mem_append.mp hq with hq | hq
      · exact h.behind t ht q hq horigin htag
      · obtain rfl := mem_singleton.mp hq
        rw [hnumber]
        exact h.number_lt ht
    settled := fun q hq r hr htakes => by
      rcases mem_append.mp hq with hq | hq
      · exact h.settled q hq r hr htakes
      · obtain rfl := mem_singleton.mp hq
        rw [hnone r hr] at htakes
        cases htakes }

theorem behind_append {t' : Taken β}
    (hbehind : ∀ q ∈ s.queued, t'.msg.origin = q.origin → t'.msg.tag = q.tag → t'.msg.number < q.number) :
    ∀ t ∈ T ++ [t'], ∀ q ∈ s.queued, t.msg.origin = q.origin → t.msg.tag = q.tag → t.msg.number < q.number := by
  intro t ht
  rcases mem_append.mp ht with ht | ht
  · exact h.behind t ht
  · obtain rfl := mem_singleton.mp ht
    exact hbehind

theorem takes_append {t' : Taken β} (hcalls : t'.recv ∈ s.calls)
    (htakes : t'.recv.takes t'.msg = true) : ∀ t ∈ T ++ [t'], t.recv ∈ s.calls ∧ t.recv.takes t.msg := by
  intro t ht
  rcases mem_append.mp ht with ht | ht
  · exact h.takes t ht
  · obtain rfl := mem_singleton.mp ht
    exact ⟨hcalls, htakes⟩

theorem single_append {t' : Taken β}
    (hnew : t'.recv.persistent = false → ∀ t ∈ T, t.recv.persistent = false → t.recv.id ≠ t'.recv.id) :
    (((T ++ [t']).filter (!·.recv.persistent)).map (·.recv.id)).Nodup := by
  rw [filter_append, map_append]
  by_cases hp : t'.recv.persistent = true
  · simpa [hp] using h.single
  · have hp' : t'.recv.persistent = false := Bool.eq_false_iff.mpr hp
    refine nodup_append.mpr ⟨h.single, by simp [hp'], ?_⟩
    intro i hi j hj hij
    obtain ⟨t, ht, rfl⟩ := mem_map.mp hi
    obtain ⟨hmem, hpers⟩ := mem_filter.mp ht
    have hj' : j = t'.recv.id := by simpa [hp'] using hj
    exact hnew hp' t hmem (by simpa using hpers) (hij.trans hj')

theorem iovs_copy {r : Recv} (hr : r.persistent = true ∨ r ∉ s.posted)
    (hids : ∀ r' ∈ s.posted, r'.id = r.id → r' = r) :
    ∀ r' ∈ s.posted, (s.copy r m).iovs r'.id ≠ [] ∧ ((s.copy r m).iovs r'.id).length = r'.user.length ∧
      (r'.persistent = false → (s.copy r m).iovs r'.id = r'.user) := by
  intro r' hr'
  obtain ⟨hne, hlength, hsame⟩ := h.iovs r' hr'
  by_cases hid : r'.id = r.id
  · obtain rfl := hids r' hr' hid
    have hp : r'.persistent = true := hr.resolve_right (not_not.mpr hr')
    have hiovs : (s.copy r' m).iovs r'.id = (msgCopy r'.alloc (s.iovs r'.id) m.data).2 := update_self ..
    have hlength' : ((s.copy r' m).iovs r'.id).length = r'.user.length := by rw [hiovs, length_msgCopy, hlength]
    refine ⟨?_, hlength', fun hf => ?_⟩
    · rw [← length_pos_iff, hlength', ← hlength, length_pos_iff]
      exact hne
    · rw [hp] at hf
      cases hf
  · have hiovs : (s.copy r m).iovs r'.id = s.iovs r'.id := update_of_ne hid ..
    rw [hiovs]
    exact ⟨hne, hlength, hsame⟩

theorem arrived_taken (t : Taken β) :
    ((T ++ [t]).map Taken.msg ++ s.queued).Perm (s.arrived ++ [t.msg]) := by
  rw [map_append, append_assoc]
  refine (List.perm_append_comm.append_left _).trans ?_
  rw [← append_assoc]
  exact h.arrived.append_right _

theorem handOn (hnumber : m.number = s.arrived.length) (hr : r ∈ s.posted) (hp : r.persistent = true)
    (htakes : r.takes m = true) (hnone : ∀ q ∈ s.queued, m.origin = q.origin → m.tag ≠ q.tag) (rc : Status)
    (chunks : List (List β)) :
    Books (({ s with arrived := s.arrived ++ [m] } : State β).copy r m) (T ++ [⟨r, m, rc, chunks⟩]) F :=
  { h with
    arrived := h.arrived_taken ⟨r, m, rc, chunks⟩
    numbers := h.numbers_append hnumber
    behind := h.behind_append fun q hq horigin htag => absurd htag (hnone q hq horigin)
    takes := h.takes_append (h.posted r hr) htakes
    single := h.single_append fun hf => absurd hf (by simp [hp])
    gone := by
      intro t ht
      rcases mem_append.mp ht with ht | ht
      · exact h.gone t ht
      · obtain rfl := mem_singleton.mp ht
        exact fun hf => absurd hf (by simp [hp])
    iovs := h.iovs_copy (.inl hp) fun r' hr' hid => h.inj hr' hr hid }

theorem fill (hnumber : m.number = s.arrived.length)
    (hfind : s.posted.find? (·.takes m) = some r) (hp : r.persistent = false) (rc : Status) (chunks : List (List β)) :
    Books { ({ s with arrived := s.arrived ++ [m] } : State β).copy r m with posted := s.posted.eraseP (·.takes m) }
      (T ++ [⟨r, m, rc, chunks⟩]) F := by
  obtain ⟨l₁, l₂, hposted, -, htakes, herase⟩ := find?_split hfind
  have hr : r ∈ s.posted := by simp [hposted]
  have hnodup := h.postedIds
  rw [hposted, map_append, map_cons] at hnodup
  have hgone : ∀ r' ∈ s.posted.eraseP (·.takes m), r'.id ≠ r.id := by
    intro r' hr' hid
    have hmem : r.id ∈ l₁.map Recv.id ++ l₂.map Recv.id := by
      rw [herase, ← hid] at *
      rw [← map_append]
      exact mem_map_of_mem hr'
    exact (nodup_middle.mp hnodup).notMem hmem
  have hsub : ∀ r' ∈ s.posted.eraseP (·.takes m), r' ∈ s.posted := fun r' hr' => mem_of_mem_eraseP hr'
  exact { h with
    arrived := h.arrived_taken ⟨r, m, rc, chunks⟩
    numbers := h.numbers_append hnumber
    behind := h.behind_append fun q hq horigin htag => by
      have hq' := h.settled q hq r hr (by rw [← takes_congr horigin htag]; exact htakes)
      exact absurd (h.posting r hq').1 (by simp [hp])
    posted := fun r' hr' => h.posted r' (hsub r' hr')
    postedIds := (List.eraseP_sublist.map _).nodup h.postedIds
    takes := h.takes_append (h.posted r hr) htakes
    single := h.single_append fun _ t ht hf => fun hid => h.gone t ht hf r hr hid.symm
    gone := by
      intro t ht hf r' hr'
      rcases mem_append.mp ht with ht | ht
      · exact h.gone t ht hf r' (hsub r' hr')
      · obtain rfl := mem_singleton.mp ht
        exact hgone r' hr'
    settled := fun q hq r' hr' => h.settled q hq r' (hsub r' hr')
    posting := fun r' hr' => by
      obtain ⟨hp', hmem⟩ := h.posting r' hr'
      refine ⟨hp', ?_⟩
      rw [hposted] at hmem
      rw [herase]
      rcases mem_append.mp hmem with hmem | hmem
      · exact mem_append_left _ hmem
      · rcases mem_cons.mp hmem with rfl | hmem
        · rw [hp] at hp'
          cases hp'
        · exact mem_append_right _ hmem
    iovs := fun r' hr' => by
      have hid := hgone r' hr'
      simpa [State.copy, update_of_ne hid] using h.iovs r' (hsub r' hr')
    cancelled := fun i hi => ⟨(h.cancelled i hi).1, fun r' hr' => (h.cancelled i hi).2 r' (hsub r' hr')⟩ }

theorem called (hid : r.id = s.calls.length) :
    Books { s with calls := s.calls ++ [r], iovs := update s.iovs r.id r.user } T F :=
  { h with
    ids := fun r' hr' => by
      rw [length_append, length_singleton]
      rcases mem_append.mp hr' with hr' | hr'
      · exact Nat.lt_succ_of_lt (h.ids r' hr')
      · obtain rfl := mem_singleton.mp hr'
        omega
    posted := fun r' hr' => mem_append_left _ (h.posted r' hr')
    takes := fun t ht => ⟨mem_append_left _ (h.takes t ht).1, (h.takes t ht).2⟩
    iovs := fun r' hr' => by
      have hne := h.fresh hid r' (h.posted r' hr')
      simpa [update_of_ne hne] using h.iovs r' hr'
    cancelled := fun i hi => by
      obtain ⟨hlt, hi'⟩ := h.cancelled i hi
      refine ⟨?_, hi'⟩
      rw [length_append, length_singleton]
      exact Nat.lt_succ_of_lt hlt }

theorem post (hid : r.id = s.calls.length) (huser : r.user ≠ [])
    (hF : ∀ r', .posting r' ∈ F' ↔ .posting r' ∈ F ∨ (r' = r ∧ r.persistent = true))
    (hqueued : ∀ q ∈ s.queued, r.takes q = true → r.persistent = true) :
    Books { s with
      calls := s.calls ++ [r], iovs := update s.iovs r.id r.user, posted := s.posted ++ [r] } T F' := by
  have hcalled := h.called hid
  have hfresh := h.fresh hid
  exact {
    hcalled with
    posted := fun r' hr' => by
      rcases mem_append.mp hr' with hr' | hr'
      · exact hcalled.posted r' hr'
      · exact mem_append_right _ hr'
    postedIds := by
      rw [map_append]
      refine nodup_append.mpr ⟨h.postedIds, by simp, ?_⟩
      intro i hi j hj hij
      obtain ⟨r', hr', rfl⟩ := mem_map.mp hi
      obtain rfl : j = r.id := by simpa using hj
      exact hfresh r' (h.posted r' hr') hij
    gone := fun t ht hf r' hr' => by
      rcases mem_append.mp hr' with hr' | hr'
      · exact h.gone t ht hf r' hr'
      · obtain rfl := mem_singleton.mp hr'
        exact fun hid' => hfresh _ (h.takes t ht).1 hid'.symm
    settled := fun q hq r' hr' htakes => by
      rw [hF]
      rcases mem_append.mp hr' with hr' | hr'
      · exact .inl (h.settled q hq r' hr' htakes)
      · obtain rfl := mem_singleton.mp hr'
        exact .inr ⟨rfl, hqueued q hq htakes⟩
    posting := fun r' hr' => by
      rcases (hF r').mp hr' with hr' | ⟨rfl, hp⟩
      · exact ⟨(h.posting r' hr').1, mem_append_left _ (h.posting r' hr').2⟩
      · exact ⟨hp, mem_append_right _ (mem_singleton_self _)⟩
    iovs := fun r' hr' => by
      rcases mem_append.mp hr' with hr' | hr'
      · exact hcalled.iovs r' hr'
      · obtain rfl := mem_singleton.mp hr'
        simpa using huser
    cancelled := fun i hi => by
      refine ⟨(hcalled.cancelled i hi).1, fun r' hr' => ?_⟩
      rcases mem_append.mp hr' with hr' | hr'
      · exact (h.cancelled i hi).2 r' hr'
      · obtain rfl := mem_singleton.mp hr'
        have := (h.cancelled i hi).1
        omega }

theorem take (hfind : s.queued.find? (r.takes ·) = some m) (hcalls : r ∈ s.calls)
    (hr : r.persistent = true ∧ r ∈ s.posted ∨ (∀ r' ∈ s.posted, r'.id ≠ r.id) ∧ ∀ t ∈ T, t.recv.id ≠ r.id)
    (rc : Status) (chunks : List (List β)) :
    Books { s.copy r m with queued := s.queued.eraseP (r.takes ·) } (T ++ [⟨r, m, rc, chunks⟩]) F := by
  obtain ⟨l₁, l₂, hqueued, hfirst, htakes, herase⟩ := find?_split hfind
  have hsub : ∀ q ∈ s.queued.eraseP (r.takes ·), q ∈ s.queued := fun q hq => mem_of_mem_eraseP hq
  have hqueue := h.queue
  rw [hqueued] at hqueue
  have hlater : ∀ q ∈ s.queued.eraseP (r.takes ·), m.origin = q.origin → m.tag = q.tag → m.number < q.number := by
    intro q hq horigin htag
    rw [herase] at hq
    rcases mem_append.mp hq with hq | hq
    · have := hfirst q hq
      rw [← takes_congr horigin htag, htakes] at this
      cases this
    · exact rel_of_pairwise_cons (pairwise_append.mp hqueue).2.1 hq
  exact { h with
    arrived := by
      refine List.Perm.trans ?_ h.arrived
      show ((T ++ [(⟨r, m, rc, chunks⟩ : Taken β)]).map Taken.msg ++ s.queued.eraseP (r.takes ·)).Perm _
      rw [herase, hqueued, map_append, append_assoc]
      refine List.Perm.append_left _ ?_
      show (m :: (l₁ ++ l₂)).Perm _
      exact perm_middle.symm
    queue := h.queue.sublist eraseP_sublist
    behind := fun t ht q hq => by
      rcases mem_append.mp ht with ht | ht
      · exact h.behind t ht q (hsub q hq)
      · obtain rfl := mem_singleton.mp ht
        exact hlater q hq
    takes := h.takes_append hcalls htakes
    single := h.single_append fun hf t ht _ => by
      rcases hr with ⟨hp, -⟩ | ⟨-, hnew⟩
      · exact absurd hf (by simp [hp])
      · exact hnew t ht
    gone := fun t ht hf r' hr' => by
      rcases mem_append.mp ht with ht | ht
      · exact h.gone t ht hf r' hr'
      · obtain rfl := mem_singleton.mp ht
        rcases hr with ⟨hp, -⟩ | ⟨hnew, -⟩
        · exact absurd hf (by simp [hp])
        · exact hnew r' hr'
    settled := fun q hq => h.settled q (hsub q hq)
    iovs := by
      refine h.iovs_copy (hr.imp And.left fun hnew hmem => hnew.1 r hmem rfl) fun r' hr' hid => ?_
      rcases hr with ⟨-, hmem⟩ | ⟨hnew, -⟩
      · exact h.inj hr' hmem hid
      · exact absurd hid (hnew r' hr') }

theorem cancel {name : Name} {tag : ℤ}
    (hcareful : ∀ r, .posting r ∈ F → State.named name tag r = false) : Books (s.recvCancel name tag).1 T F :=
  { h with
    posted := fun r hr => h.posted r (mem_of_mem_filter hr)
    postedIds := (List.filter_sublist.map _).nodup h.postedIds
    gone := fun t ht hf r hr => h.gone t ht hf r (mem_of_mem_filter hr)
    settled := fun q hq r hr => h.settled q hq r (mem_of_mem_filter hr)
    posting := fun r hr => by
      obtain ⟨hp, hmem⟩ := h.posting r hr
      exact ⟨hp, mem_filter.mpr ⟨hmem, by simp [hcareful r hr]⟩⟩
    iovs := fun r hr => h.iovs r (mem_of_mem_filter hr)
    cancelled := fun i hi => by
      rcases mem_append.mp hi with hi | hi
      · exact ⟨(h.cancelled i hi).1, fun r hr => (h.cancelled i hi).2 r (mem_of_mem_filter hr)⟩
      · obtain ⟨r', hr', rfl⟩ := mem_map.mp hi
        obtain ⟨hmem', hnamed'⟩ := mem_filter.mp hr'
        refine ⟨h.ids r' (h.posted r' hmem'), fun r hr hid => ?_⟩
        obtain ⟨hmem, hnamed⟩ := mem_filter.mp hr
        obtain rfl := h.inj hmem hmem' hid
        rw [hnamed'] at hnamed
        cases hnamed }

end

end Books

theorem Books.done {T : List (Taken β)} {F : List (Frame β)} (h : Books s T (.posting r :: F))
    (hnone : ∀ q ∈ s.queued, r.takes q = false) : Books s T F :=
  { h with
    settled := fun q hq r' hr' htakes => by
      rcases mem_cons.mp (h.settled q hq r' hr' htakes) with heq | hmem
      · obtain rfl : r' = r := by injection heq
        rw [hnone q hq] at htakes
        cases htakes
      · exact hmem
    posting := fun r' hr' => h.posting r' (mem_cons_of_mem _ hr') }

structure Told (s : State β) : Prop where
  order : s.handed.Pairwise fun a b => a.recv = b.recv → a.msg.origin = b.msg.origin → a.msg.tag = b.msg.tag →
    a.msg.number < b.msg.number
  right : ∀ c ∈ s.handed, c.Right

structure Late (s : State β) (t : Taken β) : Prop where
  copied : t.Right
  persistent : t.recv.persistent = false
  name : t.recv.name = t.msg.origin
  live : t.recv.id ∉ s.cancelled

theorem Late.congr {x : Taken β} (h : Late s x) (hcancelled : t.cancelled = s.cancelled) : Late t x :=
  ⟨h.copied, h.persistent, h.name, hcancelled ▸ h.live⟩

structure Inv (s : State β) : Prop where
  books : Books s s.taken s.frames
  told : Told s
  late : ∀ t ∈ deferred s.frames s.completed, Late s t
  shape : Shape s.frames s.completed

theorem Told.hand (h : Told s) {c : Call β} (hc : c.Right)
    (hlast : ∀ c' ∈ s.handed, c'.recv = c.recv → c'.msg.origin = c.msg.origin → c'.msg.tag = c.msg.tag →
      c'.msg.number < c.msg.number) (hhanded : t.handed = s.handed ++ [c]) : Told t := by
  refine ⟨?_, fun c' hc' => ?_⟩
  · rw [hhanded]
    refine pairwise_append.mpr ⟨h.order, pairwise_singleton _ _, fun c' hc' c'' hc'' => ?_⟩
    obtain rfl := mem_singleton.mp hc''
    exact hlast c' hc'
  · rw [hhanded] at hc'
    rcases mem_append.mp hc' with hc' | hc'
    · exact h.right c' hc'
    · obtain rfl := mem_singleton.mp hc'
      exact hc

section Call

variable {x : Taken β} {peer : Name} {tag : ℤ} {f : Frame β}

def State.handing (s : State β) (x : Taken β) (peer : Name) (tag : ℤ) : Call β :=
  ⟨x, peer, tag, decide (x.recv.id ∉ s.cancelled)⟩

theorem State.call_eq (s : State β) : s.call x peer tag f =
    { s with handed := s.handed ++ [s.handing x peer tag], completed := s.completed, frames := f :: s.frames } := rfl

theorem State.msgComplete_first (hrec : ¬x.recv.recursive = true) (hempty : s.completed = []) :
    s.msgComplete x peer = { s with
      handed := s.handed ++ [s.handing x peer x.recv.tag], completed := [x], frames := .completing x :: s.frames } := by
  rw [State.msgComplete, if_neg hrec, if_pos hempty]
  rfl

theorem State.dispatch_nil (h : s.completed = []) : s.dispatch = s := by
  rw [State.dispatch.eq_def, h]

theorem State.dispatch_cons {rest : List (Taken β)} (h : s.completed = x :: rest) :
    s.dispatch = { s with
      handed := s.handed ++ [s.handing x x.recv.name x.recv.tag], completed := rest
      frames := .dispatching :: s.frames } := by
  rw [State.dispatch.eq_def, h]
  rfl

theorem Inv.call {F : List (Frame β)} (hb : Books s (s.taken ++ [x]) F) (ht : Told s)
    (hlate : ∀ t ∈ deferred s.frames s.completed, Late s t) (hshape : Shape s.frames s.completed)
    (hf : f = .plain ∨ ∃ r, f = .posting r) (hF : ∀ r, .posting r ∈ F ↔ .posting r ∈ f :: s.frames)
    (hpeer : peer = x.msg.origin) (htag : tag = x.msg.tag) (hlive : x.recv.id ∉ s.cancelled) (hright : x.Right)
    (hlast : ∀ c ∈ s.handed, c.msg.origin = x.msg.origin → c.msg.tag = x.msg.tag → c.msg.number < x.msg.number) :
    Inv (s.call x peer tag f) := by
  have hdeferred : deferred (f :: s.frames) s.completed = deferred s.frames s.completed := by
    rcases hf with rfl | ⟨r, rfl⟩ <;> rfl
  have htaken : (s.taken ++ [x]).Perm ((s.handed ++ [s.handing x peer tag]).map Call.toTaken ++
      deferred (f :: s.frames) s.completed) := by
    rw [hdeferred, State.taken, map_append, append_assoc, append_assoc]
    exact List.perm_append_comm.append_left _
  rw [State.call_eq]
  refine ⟨((hb.perm htaken).calls hF).keep _ _ _, ?_, ?_, ?_⟩
  · exact ht.hand ⟨hpeer, htag, decide_eq_true hlive, hright⟩ (fun c hc _ => hlast c hc) rfl
  · show ∀ t ∈ deferred (f :: s.frames) s.completed, Late _ t
    rw [hdeferred]
    exact fun t ht => (hlate t ht).congr rfl
  · show Shape (f :: s.frames) s.completed
    rcases hf with rfl | ⟨r, rfl⟩ <;> exact hshape

theorem Inv.msgComplete (hb : Books s (s.taken ++ [x]) s.frames) (ht : Told s)
    (hlate : ∀ t ∈ deferred s.frames s.completed, Late s t) (hshape : Shape s.frames s.completed)
    (hp : x.recv.persistent = false) (htag : x.recv.tag = x.msg.tag) (hlive : x.recv.id ∉ s.cancelled)
    (hright : x.Right)
    (hlast : ∀ c ∈ s.handed, c.msg.origin = x.msg.origin → c.msg.tag = x.msg.tag → c.msg.number < x.msg.number)
    (hname : x.recv.recursive = true ∨ s.completed = [] ∨ x.recv.name = x.msg.origin) :
    Inv (s.msgComplete x x.msg.origin) := by
  by_cases hrec : x.recv.recursive = true
  · rw [State.msgComplete, if_pos hrec]
    exact Inv.call hb ht hlate hshape (.inl rfl) (fun r => by simp) rfl htag hlive hright hlast
  by_cases hempty : s.completed = []
  · have hshape' : Shape s.frames [] := by rwa [← hempty]
    have htaken : s.taken ++ [x] = (s.handed ++ [s.handing x x.msg.origin x.recv.tag]).map Call.toTaken ++
        deferred (.completing x :: s.frames) [x] := by
      rw [State.taken, hempty, hshape'.deferred_nil, map_append, append_nil]
      exact (append_nil _).symm
    rw [htaken] at hb
    rw [State.msgComplete_first hrec hempty]
    refine ⟨(hb.calls fun r => by simp).keep _ _ _, ?_, ?_, ⟨⟨[], rfl⟩, hshape'⟩⟩
    · exact ht.hand ⟨rfl, htag, decide_eq_true hlive, hright⟩ (fun c hc _ => hlast c hc) rfl
    · show ∀ t ∈ ([] : List (Taken β)), _
      simp
  · have hname' := (hname.resolve_left hrec).resolve_left hempty
    obtain ⟨hshape', hdeferred⟩ := hshape.append hempty x
    have htaken : s.taken ++ [x] = s.handed.map Call.toTaken ++ deferred s.frames (s.completed ++ [x]) := by
      rw [hdeferred, State.taken, append_assoc]
    rw [htaken] at hb
    rw [State.msgComplete, if_neg hrec, if_neg hempty]
    refine ⟨hb.keep _ _ _, ⟨ht.order, ht.right⟩, ?_, hshape'⟩
    show ∀ t ∈ deferred s.frames (s.completed ++ [x]), _
    rw [hdeferred]
    intro t ht'
    rcases mem_append.mp ht' with ht' | ht'
    · exact (hlate t ht').congr rfl
    · obtain rfl := mem_singleton.mp ht'
      exact ⟨hright, hp, hname', hlive⟩

theorem Inv.dispatch (hb : Books s (s.handed.map Call.toTaken ++ s.completed) s.frames) (ht : Told s)
    (hlate : ∀ t ∈ s.completed, Late s t) (hshape : Shape s.frames []) : Inv s.dispatch := by
  rcases hcompleted : s.completed with - | ⟨x, rest⟩
  · have hnil : deferred s.frames s.completed = s.completed := by rw [hcompleted, hshape.deferred_nil]
    rw [State.dispatch_nil hcompleted]
    refine ⟨?_, ht, ?_, by rwa [hcompleted]⟩
    · rwa [State.taken, hnil]
    · rwa [hnil]
  · rw [hcompleted] at hb hlate
    have hx := hlate x mem_cons_self
    have htakes := (hb.takes x (by simp)).2
    have htag : x.recv.tag = x.msg.tag := by
      rw [Recv.takes, Bool.and_eq_true] at htakes
      exact of_decide_eq_true htakes.2
    have hsingle := hb.single
    rw [filter_append, map_append, nodup_append] at hsingle
    have htaken : s.handed.map Call.toTaken ++ x :: rest =
        (s.handed ++ [s.handing x x.recv.name x.recv.tag]).map Call.toTaken ++ rest := by
      rw [map_append, append_assoc]
      rfl
    rw [htaken] at hb
    rw [State.dispatch_cons hcompleted]
    refine ⟨(hb.calls fun r => by simp).keep _ _ _, ?_, ?_, hshape⟩
    · refine ht.hand ⟨hx.name, htag, decide_eq_true hx.live, hx.copied⟩ (fun c hc hrecv => ?_) rfl
      refine absurd rfl (hsingle.2.2 x.recv.id ?_ x.recv.id ?_)
      · refine mem_map.mpr ⟨c.toTaken, mem_filter.mpr ⟨mem_map_of_mem hc, ?_⟩, congrArg Recv.id hrecv⟩
        show (!c.recv.persistent) = true
        rw [hrecv]
        exact (Bool.not_eq_true' _).mpr hx.persistent
      · simp [hx.persistent]
    · intro t ht'
      exact (hlate t (mem_cons_of_mem _ ht')).congr rfl

end Call

theorem takes_tag (h : r.takes m = true) : r.tag = m.tag := by
  rw [Recv.takes, Bool.and_eq_true] at h
  exact of_decide_eq_true h.2

theorem filled_right (hlength : (s.iovs r.id).length = r.user.length)
    (hroom : Room r.alloc (s.iovs r.id) r.user m.data.length) : (s.filled r m).Right := by
  have hchunks := msgCopy_of_room hlength hroom
  refine ⟨hchunks, ?_⟩
  show Status.bytes _ = Status.bytes _
  rw [hchunks]
  rfl

theorem room_self (alloc : Bool) (user : List ℕ) (n : ℕ) : Room alloc user user n := by
  induction user generalizing n with
  | nil => trivial
  | cons u user ih => exact .inr (.inr ⟨rfl, ih _⟩)

theorem State.msgData_none (hfind : s.posted.find? (·.takes m) = none) :
    s.msgData m = { s with arrived := s.arrived ++ [m], queued := s.queued ++ [m] } := by
  simp only [State.msgData, hfind]

theorem State.msgData_some (hfind : s.posted.find? (·.takes m) = some r) (hne : s.iovs r.id ≠ []) :
    s.msgData m =
      let s' : State β := ({ s with arrived := s.arrived ++ [m] } : State β).copy r m
      if r.persistent then s'.call (s.filled r m) m.peer r.tag .plain
      else { s' with posted := s.posted.eraseP (·.takes m) }.msgComplete (s.filled r m) m.origin := by
  simp only [State.msgData, hfind, if_neg hne]
  rfl

theorem State.matchLoop_none (hfind : s.queued.find? (r.takes ·) = none) : s.matchLoop r = s := by
  simp only [State.matchLoop, hfind]

theorem State.matchLoop_some (hfind : s.queued.find? (r.takes ·) = some m) :
    s.matchLoop r = s.msgMatched r m (.posting r) := by
  simp only [State.matchLoop, hfind]

theorem Inv.arrive (h : Inv s) (hnumber : m.number = s.arrived.length) (hcareful : s.Careful (.arrive m)) :
    Inv (s.msgData m) := by
  rcases hfind : s.posted.find? (·.takes m) with - | r
  · rw [State.msgData_none hfind]
    refine ⟨h.books.come hnumber fun r hr => ?_, ⟨h.told.order, h.told.right⟩, ?_, h.shape⟩
    · simpa using find?_eq_none.mp hfind r hr
    · exact fun t ht => (h.late t ht).congr rfl
  · obtain ⟨hpersistent, hother⟩ := hcareful r hfind
    have hr : r ∈ s.posted := mem_of_find?_eq_some hfind
    have htakes : r.takes m = true := by simpa using find?_some hfind
    obtain ⟨hne, hlength, hsame⟩ := h.books.iovs r hr
    have hlive : r.id ∉ s.cancelled := fun hi => (h.books.cancelled _ hi).2 r hr rfl
    have hlate : ∀ t ∈ deferred s.frames s.completed, Late s t := h.late
    have hlast : ∀ c ∈ s.handed, c.msg.origin = m.origin → c.msg.tag = m.tag → c.msg.number < m.number := by
      intro c hc _ _
      rw [hnumber]
      exact h.books.number_lt (mem_append_left _ (mem_map_of_mem hc))
    rw [State.msgData_some hfind hne]
    dsimp only
    split_ifs with hp
    · obtain ⟨hpeer, hroom, hnone⟩ := hpersistent hp
      refine Inv.call (h.books.handOn hnumber hr hp htakes hnone _ _) ⟨h.told.order, h.told.right⟩ ?_ h.shape
        (.inl rfl) (fun r => ?_) hpeer (takes_tag htakes) hlive (filled_right hlength hroom) hlast
      · exact fun t ht => (hlate t ht).congr rfl
      · show _ ↔ _ ∈ Frame.plain :: s.frames
        simp
    · have hp' : r.persistent = false := Bool.eq_false_iff.mpr hp
      refine Inv.msgComplete (h.books.fill hnumber hfind hp' _ _) ⟨h.told.order, h.told.right⟩ ?_ h.shape hp'
        (takes_tag htakes) hlive (filled_right hlength ?_) hlast (hother hp')
      · exact fun t ht => (hlate t ht).congr rfl
      · rw [show (({ s with arrived := s.arrived ++ [m] } : State β)).iovs r.id = r.user from hsame hp']
        exact room_self _ _ _

theorem Inv.msgMatched {f : Frame β} {F : List (Frame β)} (hb : Books s s.taken F) (ht : Told s)
    (hlate : ∀ t ∈ deferred s.frames s.completed, Late s t) (hshape : Shape s.frames s.completed)
    (hf : f = .plain ∨ ∃ r, f = .posting r) (hF : ∀ r, .posting r ∈ F ↔ .posting r ∈ f :: s.frames)
    (hfind : s.queued.find? (r.takes ·) = some m) (hcalls : r ∈ s.calls)
    (hr : r.persistent = true ∧ r ∈ s.posted ∨ (∀ r' ∈ s.posted, r'.id ≠ r.id) ∧ ∀ t ∈ s.taken, t.recv.id ≠ r.id)
    (hlive : r.id ∉ s.cancelled) (hpeer : m.peer = m.origin) (hlength : (s.iovs r.id).length = r.user.length)
    (hroom : Room r.alloc (s.iovs r.id) r.user m.data.length) : Inv (s.msgMatched r m f) := by
  have hq : m ∈ s.queued := mem_of_find?_eq_some hfind
  rw [State.msgMatched]
  refine Inv.call (hb.take hfind hcalls hr _ _) ⟨ht.order, ht.right⟩ ?_ hshape hf hF hpeer rfl hlive
    (filled_right hlength hroom) ?_
  · exact fun t ht => (hlate t ht).congr rfl
  · exact fun c hc => hb.behind _ (mem_append_left _ (mem_map_of_mem hc)) m hq

theorem Inv.matchLoop (hb : Books s s.taken (.posting r :: s.frames)) (ht : Told s)
    (hlate : ∀ t ∈ deferred s.frames s.completed, Late s t) (hshape : Shape s.frames s.completed)
    (hcareful : ∀ m, s.queued.find? (r.takes ·) = some m →
      m.peer = m.origin ∧ Room r.alloc (s.iovs r.id) r.user m.data.length) : Inv (s.matchLoop r) := by
  rcases hfind : s.queued.find? (r.takes ·) with - | m
  · rw [State.matchLoop_none hfind]
    refine ⟨hb.done fun q hq => ?_, ht, hlate, hshape⟩
    simpa using find?_eq_none.mp hfind q hq
  · obtain ⟨hp, hr⟩ := hb.posting r mem_cons_self
    obtain ⟨hpeer, hroom⟩ := hcareful m hfind
    rw [State.matchLoop_some hfind]
    exact Inv.msgMatched hb ht hlate hshape (.inr ⟨r, rfl⟩) (fun _ => Iff.rfl) hfind (hb.posted r hr) (.inl ⟨hp, hr⟩)
      (fun hi => (hb.cancelled _ hi).2 r hr rfl) hpeer (hb.iovs r hr).2.1 hroom

theorem Inv.recvNb (h : Inv s) (hid : r.id = s.calls.length) (hcareful : s.Careful (.recvNb r))
    (hs : s.recvNb r = some t) : Inv t := by
  have hlate : ∀ t ∈ deferred s.frames s.completed, Late s t := h.late
  have hlate' : ∀ t' ∈ deferred s.frames s.completed, Late { s with
      calls := s.calls ++ [r], iovs := update s.iovs r.id r.user } t' :=
    fun t ht => (hlate t ht).congr rfl
  rw [State.recvNb] at hs
  split_ifs at hs with huser hp
  · cases hs
    have hF (r' : Recv) : Frame.posting r' ∈ Frame.posting r :: s.frames ↔
        Frame.posting r' ∈ s.frames ∨ (r' = r ∧ r.persistent = true) := by simp [hp, or_comm]
    have hb := h.books.post hid huser hF fun _ _ _ => hp
    refine Inv.matchLoop hb ⟨h.told.order, h.told.right⟩ ?_ h.shape fun m hm => ⟨hcareful m hm, ?_⟩
    · exact fun t ht => (hlate t ht).congr rfl
    · show Room _ (update s.iovs r.id r.user r.id) _ _
      rw [update_self]
      exact room_self _ _ _
  · dsimp only at hs
    rcases hfind : s.queued.find? (r.takes ·) with - | m
    · rw [hfind] at hs
      cases hs
      have hnone (q : Msg β) (hq : q ∈ s.queued) : r.takes q ≠ true := find?_eq_none.mp hfind q hq
      have hF (r' : Recv) : Frame.posting r' ∈ s.frames ↔ Frame.posting r' ∈ s.frames ∨ (r' = r ∧ r.persistent = true) := by
        simp [hp]
      refine ⟨h.books.post hid huser hF fun q hq ht => absurd ht (hnone q hq), ⟨h.told.order, h.told.right⟩, ?_, h.shape⟩
      exact fun t ht => (hlate t ht).congr rfl
    · rw [hfind] at hs
      cases hs
      have hfresh := h.books.fresh hid
      refine Inv.msgMatched (h.books.called hid) ⟨h.told.order, h.told.right⟩ hlate' h.shape (.inl rfl)
        (fun r => ?_) hfind (mem_append_right _ (mem_singleton_self r)) (.inr ⟨?_, ?_⟩) ?_ (hcareful m hfind) ?_ ?_
      · show _ ↔ _ ∈ Frame.plain :: s.frames
        simp
      · exact fun r' hr' => hfresh r' (h.books.posted r' hr')
      · exact fun t ht => hfresh _ (h.books.takes t ht).1
      · intro hi
        have := (h.books.cancelled _ hi).1
        omega
      · show (update s.iovs r.id r.user r.id).length = _
        rw [update_self]
      · show Room _ (update s.iovs r.id r.user r.id) _ _
        rw [update_self]
        exact room_self _ _ _

theorem Inv.cancel (h : Inv s) {name : Name} {tag : ℤ} (hcareful : s.Careful (.cancel name tag)) :
    Inv (s.recvCancel name tag).1 := by
  refine ⟨h.books.cancel hcareful, ⟨h.told.order, h.told.right⟩, fun t ht => ?_, h.shape⟩
  have hlate := h.late t ht
  refine ⟨hlate.copied, hlate.persistent, hlate.name, fun hi => ?_⟩
  rcases mem_append.mp hi with hi | hi
  · exact hlate.live hi
  · obtain ⟨r, hr, hid⟩ := mem_map.mp hi
    exact h.books.gone t (mem_append_right _ ht) hlate.persistent r (mem_of_mem_filter hr) hid

theorem Inv.ret (h : Inv s) (hcareful : s.Careful .ret) (hs : s.ret = some t) : Inv t := by
  rcases s with ⟨posted, queued, completed, frames, iovs, arrived, calls, handed, cancelled⟩
  rcases frames with - | ⟨- | x | - | r, frames⟩
  · cases hs
  · cases hs
    refine ⟨(h.books.keep _ _ _).calls fun r => ?_, ⟨h.told.order, h.told.right⟩, ?_, h.shape⟩
    · show _ ∈ Frame.plain :: frames ↔ _ ∈ frames
      simp
    · exact fun t ht => (h.late t ht).congr rfl
  · cases hs
    obtain ⟨⟨rest, rfl⟩, hshape⟩ := h.shape
    have herase : (x :: rest).eraseP (fun t' => decide (t'.recv.id = x.recv.id)) = rest :=
      eraseP_cons_of_pos (decide_eq_true rfl)
    rw [herase]
    refine Inv.dispatch ((h.books.keep _ _ _).calls fun r => ?_) ⟨h.told.order, h.told.right⟩ ?_ hshape
    · show _ ∈ Frame.completing x :: frames ↔ _ ∈ frames
      simp
    · exact fun t ht => (h.late t ht).congr rfl
  · cases hs
    refine Inv.dispatch ((h.books.keep _ _ _).calls fun r => ?_) ⟨h.told.order, h.told.right⟩ ?_ h.shape
    · show _ ∈ Frame.dispatching :: frames ↔ _ ∈ frames
      simp
    · exact fun t ht => (h.late t ht).congr rfl
  · cases hs
    refine Inv.matchLoop (h.books.keep _ _ _) ⟨h.told.order, h.told.right⟩ ?_ h.shape fun m hm => hcareful r frames m rfl hm
    exact fun t ht => (h.late t ht).congr rfl

theorem Inv.init (h : Init s) : Inv s := by
  have htaken : s.taken = [] := by
    rw [State.taken, h.handed, h.frames, h.completed]
    rfl
  refine ⟨?_, ⟨by simp [h.handed], by simp [h.handed]⟩, ?_, ?_⟩
  · rw [htaken]
    constructor <;> simp [h.posted, h.queued, h.frames, h.arrived, h.calls, h.cancelled]
  · rw [h.frames, h.completed]
    show ∀ t ∈ ([] : List (Taken β)), _
    simp
  · rw [h.frames, h.completed]
    rfl

theorem Inv.step (h : Inv s) {e : Step β} (hcareful : s.Careful e) (hs : s.next e = some t) : Inv t := by
  rcases e with m | r | ⟨name, tag⟩ | -
  · rw [State.next] at hs
    split_ifs at hs with hnumber
    cases hs
    exact h.arrive hnumber hcareful
  · rw [State.next] at hs
    split_ifs at hs with hid
    exact h.recvNb hid hcareful hs
  · cases hs
    exact h.cancel hcareful
  · exact h.ret hcareful hs

theorem Inv.fair (h : Inv s) : Fair s where
  once := h.books.arrived
  idle hframes := by
    have hshape := h.shape
    rw [hframes] at hshape
    rw [State.taken, hframes, show s.completed = [] from hshape]
    exact append_nil _
  matching := h.books.takes
  single := h.books.single
  gone := h.books.gone
  order := h.told.order
  settled := h.books.settled
  arguments := h.told.right

theorem fair_of_careful (hs : ((system β).restrict State.Careful).Reachable s) : Fair s := by
  refine Inv.fair (hs.invariant (P := Inv) (fun s h => Inv.init h) fun s e t h hstep => ?_)
  exact h.step hstep.1 hstep.2

def start : State ℕ := ⟨[], [], [], [], fun _ => [], [], [], [], []⟩

theorem init_start : Init start := ⟨rfl, rfl, rfl, rfl, rfl, rfl, rfl, rfl⟩

def fromZero (peer : ℕ) : Msg ℕ := ⟨0, ⟨some 1, some 0⟩, ⟨some 1, some peer⟩, 5, [7, 8], 2⟩

def anyone : Recv := ⟨0, ⟨none, none⟩, 5, true, false, false, false, [4]⟩

/-- A receive is posted, and a message comes directly. -/
theorem fair_of_careful_posted :
    Fair (((start.recvNb anyone).getD start).msgData (fromZero 0)) := by
  have hposted : ((system ℕ).restrict State.Careful).step start (.recvNb anyone) ((start.recvNb anyone).getD start) :=
    ⟨fun _ h => (nomatch h), rfl⟩
  have harrived : ((system ℕ).restrict State.Careful).step ((start.recvNb anyone).getD start) (.arrive (fromZero 0))
      (((start.recvNb anyone).getD start).msgData (fromZero 0)) := by
    refine ⟨fun r hr => ?_, rfl⟩
    obtain rfl : anyone = r := Option.some.inj hr
    exact ⟨fun _ => ⟨rfl, .inr (.inl (by decide)), fun _ h => (nomatch h)⟩, fun h => (nomatch h)⟩
  exact fair_of_careful ⟨start, _, init_start, (System.Run.single hposted).snoc harrived⟩

/-- Process 1 passes on a message of process 0, which a receive then finds: its callback is told process 1. -/
theorem not_fair_relayed : ∃ s, (system ℕ).Reachable s ∧ ¬Fair s := by
  refine ⟨_, ⟨start, [.arrive (fromZero 1), .recvNb anyone], init_start,
    ((System.Run.nil _).snoc (t := start) (u := start.msgData (fromZero 1)) rfl).snoc rfl⟩, fun h => ?_⟩
  have hpeer := (h.arguments _ mem_cons_self).peer
  exact absurd hpeer (by decide)

end OpenMPI.Oob
