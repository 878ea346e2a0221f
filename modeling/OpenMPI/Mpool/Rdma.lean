import OpenMPI.Lib.Run
import OpenMPI.Rcache.Vma

/-!
# Registrations of the `rdma` memory pool

Memory is registered with a driver and kept in a cache, where a registration that nobody refers to stays for later use
if `leave_pinned` is set.  The driver's answers come with each call.  Statistics, and what other threads do while the
lock is dropped, are left out.
-/

namespace OpenMPI.Mpool

open Lib Rcache

structure Config where
  leavePinned : Bool
  rcacheSizeLimit : ℕ
  pageSizeLog : ℕ

structure Flags where
  bypass : Bool
  persist : Bool

/-- What the driver and the allocator answer in a call. -/
structure Driver where
  memory : Bool
  registerMem : Bool
  deregisterMem : ℕ → Bool

/-- A registration that a caller got, as it was then. -/
structure Answer where
  addr : ℕ
  size : ℕ
  reg : Reg
  doomed : Bool

/-- `mca_mpool_rdma_module_t`, where `free` is `reg_list` with the objects below `made`.  The others tell what happened:
the registrations whose memory is registered, the references the callers hold, the registrations in a range that was
released, whether the driver was asked to deregister what is referenced or not registered, and what callers got. -/
structure Pool where
  mem : Memory
  cache : Module
  free : List ℕ
  made : ℕ
  mru : List ℕ
  gc : List ℕ
  pinned : List ℕ
  held : ℕ → ℕ
  doomed : List ℕ
  wrong : Bool
  answers : List Answer

structure Result where
  rc : Status
  reg : Option ℕ
  pool : Pool

inductive Step
  /-- The last registration is what `*reg` is before the call. -/
  | register (addr size : ℕ) (flags : Flags) (reg : Option ℕ) (d : Driver)
  | find (addr size : ℕ) (reg : Option ℕ)
  | deregister (reg : ℕ) (d : Driver)
  | release (base size : ℕ)

namespace Pool

/-- `OMPI_FREE_LIST_GET`, which makes 32 objects where there are none. -/
def getItem (s : Pool) (memory : Bool) : Option (ℕ × Pool) :=
  match s.free with
  | item :: free => some (item, { s with free := free })
  | [] => if memory then some (s.made, { s with free := List.range' (s.made + 1) 31, made := s.made + 32 }) else none

def putItem (s : Pool) (item : ℕ) : Pool :=
  { s with free := item :: s.free, doomed := s.doomed.filter (· ≠ item) }

def setReg (s : Pool) (item : ℕ) (reg : Reg) : Pool := { s with mem := Function.update s.mem item reg }

def initReg (s : Pool) (item base bound : ℕ) (flags : Flags) : Pool :=
  s.setReg item { s.mem item with
    base := base, bound := bound, bypass := flags.bypass, persist := flags.persist, invalid := false }

def addRef (s : Pool) (reg : ℕ) : Pool :=
  s.setReg reg { s.mem reg with refCount := (s.mem reg).refCount + 1 }

def pin (s : Pool) (reg : ℕ) : Pool := { s with pinned := reg :: s.pinned }

def deregMem (s : Pool) (d : Driver) (reg : ℕ) : Pool :=
  { s with
    wrong := s.wrong || !s.pinned.contains reg || (s.mem reg).refCount ≠ 0
    pinned := if d.deregisterMem reg then s.pinned.erase reg else s.pinned }

def uncache (s : Pool) (reg : ℕ) : Pool := { s with cache := (s.cache.treeDelete s.mem reg).2 }

def unregistrationGc (d : Driver) : List ℕ → Pool → Pool
  | [], s => s
  | reg :: gc, s => unregistrationGc d gc (((({ s with gc := gc } : Pool).uncache reg).deregMem d reg).putItem reg)

def registerCacheBypass (z : Config) (s : Pool) (addr size : ℕ) (flags : Flags) (d : Driver) : Result :=
  match s.getItem d.memory with
  | none => ⟨.outOfResource, none, s⟩
  | some (item, s) =>
    let s := s.initReg item (downAlign addr z.pageSizeLog) (upAlign (addr + size - 1) z.pageSizeLog) flags
    if d.registerMem then ⟨.success, some item, (s.pin item).addRef item⟩ else ⟨.error, none, s.putItem item⟩

/-- The insertions of `mca_mpool_rdma_register`, with the unused registrations to evict, the oldest one first. -/
def insertLoop (z : Config) (d : Driver) (item : ℕ) : List ℕ → Pool → Status × Pool
  | [], s =>
    let inserted := s.cache.insert s.mem item z.rcacheSizeLimit
    (inserted.1, { s with cache := inserted.2 })
  | old :: olds, s =>
    let inserted := s.cache.insert s.mem item z.rcacheSizeLimit
    let s := { s with cache := inserted.2 }
    if inserted.1 = .tempOutOfResource then
      let s := ({ s.uncache old with mru := olds.reverse } : Pool).deregMem d old
      if d.deregisterMem old then insertLoop z d item olds (s.putItem old) else (.error, s)
    else (inserted.1, s)

def suits (z : Config) (reg : Reg) (addr size : ℕ) : Bool :=
  z.leavePinned || reg.persist ||
    (reg.base = downAlign addr z.pageSizeLog && reg.bound = upAlign (addr + size - 1) z.pageSizeLog)

def hit (z : Config) (s : Pool) (reg : ℕ) : Pool :=
  (if (s.mem reg).refCount = 0 ∧ z.leavePinned then { s with mru := s.mru.erase reg } else s).addRef reg

def registerCached (z : Config) (s : Pool) (addr size : ℕ) (flags : Flags) (d : Driver) : Result :=
  match s.getItem d.memory with
  | none => ⟨.outOfResource, none, s⟩
  | some (item, s) =>
    let s := s.initReg item (downAlign addr z.pageSizeLog) (upAlign (addr + size - 1) z.pageSizeLog) flags
    let inserted := insertLoop z d item s.mru.reverse s
    if inserted.1 = .success then
      if d.registerMem then ⟨.success, some item, (inserted.2.pin item).addRef item⟩
      else ⟨.error, none, (inserted.2.uncache item).putItem item⟩
    else ⟨inserted.1, none, inserted.2.putItem item⟩

/-- `mca_mpool_rdma_register`; where it fails `*reg` does not count. -/
def register (z : Config) (s : Pool) (addr size : ℕ) (flags : Flags) (reg : Option ℕ) (d : Driver) : Result :=
  if flags.bypass then registerCacheBypass z s addr size flags d
  else
    let s := unregistrationGc d s.gc s
    if flags.persist then registerCached z s addr size flags d
    else
      match (s.cache.find s.mem z.pageSizeLog addr size reg).2.filter fun r => suits z (s.mem r) addr size with
      | some r => ⟨.success, some r, s.hit z r⟩
      | none =>
        if !z.leavePinned && z.rcacheSizeLimit = 0 then registerCacheBypass z s addr size flags d
        else registerCached z s addr size flags d

def find (z : Config) (s : Pool) (addr size : ℕ) (reg : Option ℕ) : Result :=
  let found := s.cache.find s.mem z.pageSizeLog addr size reg
  match found.2 with
  | none => ⟨found.1, none, s⟩
  | some r => ⟨found.1, some r, if suits z (s.mem r) addr size then s.hit z r else s⟩

def isCacheable (reg : Reg) : Bool := !(reg.bypass || reg.persist || reg.invalid)

def deregister (z : Config) (s : Pool) (reg : ℕ) (d : Driver) : Status × Pool :=
  let s := s.setReg reg { s.mem reg with refCount := (s.mem reg).refCount - 1 }
  if 0 < (s.mem reg).refCount then (.success, s)
  else if z.leavePinned && isCacheable (s.mem reg) then (.success, { s with mru := reg :: s.mru })
  else
    let s := (if (s.mem reg).bypass then s else s.uncache reg).deregMem d reg
    if d.deregisterMem reg then (.success, s.putItem reg) else (.error, s)

def nregs : ℕ := 100

/-- A registration in memory that is released: it is unused and goes, or the caller is told. -/
def invalidate (s : Pool × ℕ) (reg : ℕ) : Pool × ℕ :=
  let t := s.1.setReg reg { s.1.mem reg with invalid := true }
  if (t.mem reg).refCount ≠ 0 then (t, s.2 + 1)
  else ({ t with mru := t.mru.erase reg, gc := t.gc ++ [reg] }, s.2)

/-- The loop of `mca_mpool_rdma_release_memory`, whose turns `fuel` bounds. -/
def releaseLoop (z : Config) (base size : ℕ) : ℕ → Pool × ℕ → Pool × ℕ
  | 0, s => s
  | fuel + 1, s =>
    let regs := s.1.cache.findAll s.1.mem z.pageSizeLog base size nregs
    let s := regs.foldl invalidate s
    if regs.length = nregs then releaseLoop z base size fuel s else s

/-- `mca_mpool_rdma_release_memory`; a full array has valid registrations, which are invalid then. -/
def releaseMemory (z : Config) (s : Pool) (base size : ℕ) : Status × Pool :=
  let out := releaseLoop z base size ((s.cache.vmaList.flatMap Vma.regs).length + 1) (s, 0)
  (if out.2 = 0 then .success else .error, out.1)

/-- A caller gets a registration, and with it a reference. -/
def give (s : Pool) (addr size reg : ℕ) : Pool :=
  { s with
    held := Function.update s.held reg (s.held reg + 1)
    answers := s.answers ++ [⟨addr, size, s.mem reg, s.doomed.contains reg⟩] }

/-- The registrations that intersect a range that is released. -/
def doom (s : Pool) (base size : ℕ) : Pool :=
  { s with
    doomed := s.doomed ++ s.pinned.filter fun r =>
      0 < size && (s.mem r).base < base + size && base ≤ (s.mem r).bound }

/-- What comes of a call; a caller deregisters only what it holds. -/
def next (z : Config) (s : Pool) : Step → Option Pool
  | .register addr size flags reg d =>
    let out := s.register z addr size flags reg d
    some (if out.rc = .success then out.reg.elim out.pool (out.pool.give addr size) else out.pool)
  | .find addr size reg =>
    let out := s.find z addr size reg
    some (out.reg.elim out.pool (out.pool.give addr size))
  | .deregister reg d =>
    if 0 < s.held reg then
      some (({ s with held := Function.update s.held reg (s.held reg - 1) } : Pool).deregister z reg d).2
    else none
  | .release base size => some ((s.releaseMemory z base size).2.doom base size)

end Pool

structure Init (s : Pool) : Prop where
  mem : ∀ r, (s.mem r).refCount = 0
  cache : s.cache = ⟨[], 0⟩
  free : s.free = []
  made : s.made = 0
  mru : s.mru = []
  gc : s.gc = []
  pinned : s.pinned = []
  held : ∀ r, s.held r = 0
  doomed : s.doomed = []
  wrong : s.wrong = false
  answers : s.answers = []

def system (z : Config) : System Pool Step where
  init := Init
  step s e t := s.next z e = some t

end OpenMPI.Mpool
