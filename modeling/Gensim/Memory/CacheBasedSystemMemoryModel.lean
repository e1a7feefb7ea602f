import Gensim.Devices.MMU
import Gensim.Lib.Operations

/-! The memory of a simulated system, with a cache of the translations of its addresses. The contents of the
memory and of the devices are left out: an access leads to the entry of a cache that its data goes by. -/
namespace Gensim.Memory

open Core Devices Operations

variable {Host Device : Type}

/-- What is behind the caches: the translations, under tables that do not change, the device at a physical
address and the page of the host at one. `LookupDevice` is asked where `HasDevice` has answered, and finds a
device there, as the code asserts. -/
structure SystemMemory (Host Device : Type) where
  translate : AccessInfo → Address → TranslateResult × Address
  hasDevice : Address → Bool
  lookupDevice : (physAddr : Address) → hasDevice physAddr = true → Device
  lockRegion : Address → Option Host

inductive SMMCacheEntry.Data (Host Device : Type) where
  | parkingPage
  | memory (page : Host)
  | device (device : Device)

structure SMMCacheEntry (Host Device : Type) where
  virtTag : Address
  physAddr : Address
  data : SMMCacheEntry.Data Host Device

namespace SMMCacheEntry

def kInvalidTag : Address := 0xffffffffffffffff

def kIsDevice : Address := 1

def new : SMMCacheEntry Host Device := ⟨kInvalidTag, 0, .parkingPage⟩

variable (entry : SMMCacheEntry Host Device)

def isPageFor (addr : Address) : Bool := addr.pageBase == entry.virtTag

def invalidate : SMMCacheEntry Host Device := { entry with virtTag := kInvalidTag, data := .parkingPage }

end SMMCacheEntry

/-- The result of a translation put into an entry, and what is returned. -/
def SystemMemory.updateCacheEntry (memory : SystemMemory Host Device) (info : AccessInfo) (addr : Address)
    (entry : SMMCacheEntry Host Device) : Nat × SMMCacheEntry Host Device :=
  let (result, physAddr) := memory.translate info addr
  if result.rc ≠ 0 then (result.rc, entry.invalidate)
  else
    if hDevice : memory.hasDevice physAddr then
      (0, ⟨SMMCacheEntry.kInvalidTag, SMMCacheEntry.kIsDevice, .device (memory.lookupDevice physAddr hDevice)⟩)
    else
      match memory.lockRegion physAddr.pageBase with
      | none => (1, entry)
      | some page => (0, ⟨addr.pageBase, physAddr.pageBase, .memory page⟩)

namespace SystemMemory

variable (memory : SystemMemory Host Device) (info : AccessInfo) (addr : Address)

/-- The access is translated, to memory. -/
def HasPage : Prop :=
  (memory.translate info addr).1 = .ok ∧ memory.hasDevice (memory.translate info addr).2 = false ∧
    (memory.lockRegion (memory.translate info addr).2.pageBase).isSome

/-- The access is translated, to an address where there is neither a device nor memory. -/
def HasNothing : Prop :=
  (memory.translate info addr).1 = .ok ∧ memory.hasDevice (memory.translate info addr).2 = false ∧
    memory.lockRegion (memory.translate info addr).2.pageBase = none

end SystemMemory

structure SMMCache (Host Device : Type) where
  cache : Fin 1024 → SMMCacheEntry Host Device
  dirty : Bool
  pointerTaken : Bool
  dirtyPages : Fin 32 → Bool

namespace SMMCache

/-- A cache as its constructor leaves it, which flushes it. -/
def new : SMMCache Host Device := ⟨fun _ => .new, false, false, fun _ => false⟩

def entryIndex (addr : Address) : Fin 1024 := Fin.ofNat 1024 addr.getPageIndex

def pageOf (index : Fin 1024) : Fin 32 := ⟨index / 32, by omega⟩

variable (cache : SMMCache Host Device)

def getCachePtr : SMMCache Host Device := { cache with pointerTaken := true }

def entryFor (addr : Address) : SMMCacheEntry Host Device := cache.cache (entryIndex addr)

def setEntry (addr : Address) (entry : SMMCacheEntry Host Device) : SMMCache Host Device :=
  { cache with cache := Function.update cache.cache (entryIndex addr) entry }

/-- The cache after an entry was taken from it. -/
def tryGetEntry (addr : Address) : SMMCache Host Device :=
  { cache with dirty := true, dirtyPages := Function.update cache.dirtyPages (pageOf (entryIndex addr)) true }

def flush : SMMCache Host Device :=
  if !cache.dirty && !cache.pointerTaken then cache
  else
    { cache with
      cache := fun i => if cache.dirtyPages (pageOf i) then (cache.cache i).invalidate else cache.cache i
      dirty := false
      dirtyPages := fun _ => false }

def evict (addr : Address) : SMMCache Host Device := cache.setEntry addr (cache.entryFor addr).invalidate

/-- An access, up to its data: the entry that they go by, or what is returned. -/
def access (memory : SystemMemory Host Device) (info : AccessInfo) (addr : Address) :
    Except Nat (SMMCacheEntry Host Device) × SMMCache Host Device :=
  let taken := cache.tryGetEntry addr
  if (taken.entryFor addr).isPageFor addr then (.ok (taken.entryFor addr), taken)
  else
    let (rc, entry) := memory.updateCacheEntry info addr (taken.entryFor addr)
    (if rc = 0 then .ok entry else .error rc, taken.setEntry addr entry)

end SMMCache

/-- The caches by interface and mode, those of reads and those of writes. -/
structure CacheBasedSystemMemoryModel (Host Device : Type) where
  caches : Nat × Nat → Bool → SMMCache Host Device
  executionRing : Nat

namespace CacheBasedSystemMemoryModel

/-- A cache is made when it is first asked for, and a pointer to it is taken then. -/
def new (executionRing : Nat) : CacheBasedSystemMemoryModel Host Device :=
  ⟨fun _ _ => SMMCache.new.getCachePtr, executionRing⟩

section Model

variable (memory : SystemMemory Host Device) (checkAlignment : Bool) (model : CacheBasedSystemMemoryModel Host Device)

def getCache (interface mode : Nat) (write : Bool) : SMMCache Host Device := model.caches (interface, mode) write

def setCache (interface mode : Nat) (write : Bool) (cache : SMMCache Host Device) :
    CacheBasedSystemMemoryModel Host Device :=
  { model with
    caches := Function.update model.caches (interface, mode)
      (Function.update (model.caches (interface, mode)) write cache) }

def flushCaches : CacheBasedSystemMemoryModel Host Device :=
  { model with caches := fun mode write => (model.caches mode write).flush }

def evictCacheEntry (addr : Address) : CacheBasedSystemMemoryModel Host Device :=
  { model with caches := fun mode write => (model.caches mode write).evict addr }

/-- An access that is aligned, by `DoRead` or by `Write`. The cache is that of mode 3 in every ring. -/
def access (info : AccessInfo) (addr : Address) :
    Except Nat (SMMCacheEntry Host Device) × CacheBasedSystemMemoryModel Host Device :=
  let (result, cache) := (model.getCache 0 3 info.write).access memory info addr
  (result, model.setCache 0 3 info.write cache)

/-- The calls for the bytes of an access, up to the first that fails. -/
def accessAll (info : AccessInfo) :
    List Address → CacheBasedSystemMemoryModel Host Device → Nat × CacheBasedSystemMemoryModel Host Device
  | [], model => (0, model)
  | addr :: addrs, model =>
      match model.access memory info addr with
      | (.error rc, model) => (rc, model)
      | (.ok _, model) => accessAll info addrs model

/-- The sizes of an access; at any other the code asserts false. -/
inductive AccessSize where
  | one
  | two
  | four
  | eight

def AccessSize.bytes : AccessSize → Nat
  | .one => 1
  | .two => 2
  | .four => 4
  | .eight => 8

def bytesOf (addr : Address) (size : Nat) : List Address :=
  (List.range size).map fun i => addr + BitVec.ofNat 64 i

/-- The addresses that a read is made of. -/
def readAddrs (addr : Address) (size : AccessSize) : List Address :=
  let unaligned := checkAlignment && (addr.toNat &&& (size.bytes - 1)) != 0
  if unaligned then bytesOf addr size.bytes else [addr]

def doRead (addr : Address) (size : AccessSize) (isFetch : Bool) : Nat × CacheBasedSystemMemoryModel Host Device :=
  accessAll memory ⟨model.executionRing, false, isFetch⟩ (readAddrs checkAlignment addr size) model

/-- The addresses that a write is made of. -/
def writeAddrs (addr : Address) (size : AccessSize) : List Address :=
  let unaligned := checkAlignment &&
    match size with
    | .two => (addr.toNat &&& 0x1) != 0
    | .four => (addr.toNat &&& 0x3) != 0
    | .eight => (addr.toNat &&& 0x7) != 0
    | _ => false
  if unaligned then bytesOf addr size.bytes else [addr]

def write (addr : Address) (size : AccessSize) : Nat × CacheBasedSystemMemoryModel Host Device :=
  accessAll memory ⟨model.executionRing, true, false⟩ (writeAddrs checkAlignment addr size) model

inductive Operation where
  | read (addr : Address) (size : AccessSize)
  | fetch (addr : Address) (size : AccessSize)
  | write (addr : Address) (size : AccessSize)
  | setExecutionRing (ring : Nat)
  | flush
  | evict (addr : Address)

/-- What is returned, and the model after an operation. A change of the ring installs the caches anew, which
leaves them as they are. -/
def perform : Operation → Nat × CacheBasedSystemMemoryModel Host Device
  | .read addr size => model.doRead memory checkAlignment addr size false
  | .fetch addr size => model.doRead memory checkAlignment addr size true
  | .write addr size => model.write memory checkAlignment addr size
  | .setExecutionRing ring => (0, { model with executionRing := ring })
  | .flush => (0, model.flushCaches)
  | .evict addr => (0, model.evictCacheEntry addr)

/-! ### Calls -/

/-- The calls that operations come down to: the bytes of an access that is not aligned are accesses of their own. -/
inductive Call where
  | access (info : AccessInfo) (addr : Address)
  | setExecutionRing (ring : Nat)
  | flush
  | evict (addr : Address)

def step : Call → CacheBasedSystemMemoryModel Host Device
  | .access info addr => (model.access memory info addr).2
  | .setExecutionRing ring => { model with executionRing := ring }
  | .flush => model.flushCaches
  | .evict addr => model.evictCacheEntry addr

/-- An access that succeeds is one that its translation permits. -/
def Respects : Call → Prop
  | .access info addr =>
      (∃ entry, (model.access memory info addr).1 = .ok entry) → (memory.translate info addr).1 = .ok
  | _ => True

def accessCalls (info : AccessInfo) : List Address → CacheBasedSystemMemoryModel Host Device → List Call
  | [], _ => []
  | addr :: addrs, model =>
      .access info addr ::
        match model.access memory info addr with
        | (.error _, _) => []
        | (.ok _, model) => accessCalls info addrs model

def calls : Operation → List Call
  | .read addr size =>
      accessCalls memory ⟨model.executionRing, false, false⟩ (readAddrs checkAlignment addr size) model
  | .fetch addr size =>
      accessCalls memory ⟨model.executionRing, false, true⟩ (readAddrs checkAlignment addr size) model
  | .write addr size =>
      accessCalls memory ⟨model.executionRing, true, false⟩ (writeAddrs checkAlignment addr size) model
  | .setExecutionRing ring => [.setExecutionRing ring]
  | .flush => [.flush]
  | .evict addr => [.evict addr]

def next (op : Operation) : CacheBasedSystemMemoryModel Host Device := (model.perform memory checkAlignment op).2

/-- The accesses of an operation succeed only if their translations permit them. -/
def RespectsRing (op : Operation) : Prop :=
  Throughout (step memory) (Respects memory) model (model.calls memory checkAlignment op)

/-- The calls of a history, one operation after the other. -/
def history : CacheBasedSystemMemoryModel Host Device → List Operation → List Call
  | _, [] => []
  | model, op :: ops => model.calls memory checkAlignment op ++ history (model.next memory checkAlignment op) ops

/-- The access puts the page of an address into the cache, if it is not there. -/
def Fills (write : Bool) (target : Address) : Call → Prop
  | .access info addr => info.write = write ∧ addr.pageBase = target.pageBase ∧ memory.HasPage info addr
  | _ => False

/-- The page has to make place, for another or for none. -/
def Displaces (write : Bool) (target : Address) : Call → Prop
  | .access info addr =>
      info.write = write ∧ SMMCache.entryIndex addr = SMMCache.entryIndex target ∧
        addr.pageBase ≠ target.pageBase ∧ ¬ memory.HasNothing info addr
  | .setExecutionRing _ => False
  | .flush => True
  | .evict addr => SMMCache.entryIndex addr = SMMCache.entryIndex target

/-- The page of an address was put into the cache, and did not have to make place since. -/
def Filled (calls : List Call) (write : Bool) (target : Address) : Prop :=
  ∃ before call after, calls = before ++ call :: after ∧ Fills memory write target call ∧
    ∀ other ∈ after, ¬ Displaces memory write target other

/-- An access to a page that is in the cache is one that its translation permits. -/
def Permitted (calls : List Call) : Prop :=
  ∀ before info addr after, calls = before ++ .access info addr :: after →
    Filled memory before info.write addr → (memory.translate info addr).1 = .ok

end Model

/-! ### Entries -/

variable {memory : SystemMemory Host Device} {checkAlignment : Bool} {model : CacheBasedSystemMemoryModel Host Device}

theorem pageBase_ne_kInvalidTag (addr : Address) : addr.pageBase ≠ SMMCacheEntry.kInvalidTag := by
  intro hInvalid
  have hLow := congrArg BitVec.toNat hInvalid
  rw [Address.toNat_pageBase] at hLow
  have hTag : SMMCacheEntry.kInvalidTag.toNat = 0xffffffffffffffff := rfl
  unfold Address.pageSize at hLow
  omega

theorem entryIndex_congr {addr target : Address} (hPage : addr.pageBase = target.pageBase) :
    SMMCache.entryIndex addr = SMMCache.entryIndex target := by
  have hIndex := congrArg BitVec.toNat hPage
  rw [Address.toNat_pageBase, Address.toNat_pageBase] at hIndex
  exact congrArg (Fin.ofNat 1024) (Nat.eq_of_mul_eq_mul_right (by decide) hIndex)

variable {entry : SMMCacheEntry Host Device}

theorem isPageFor_of_kInvalidTag (hTag : entry.virtTag = SMMCacheEntry.kInvalidTag) (target : Address) :
    ¬ entry.isPageFor target = true := by
  rw [SMMCacheEntry.isPageFor, hTag, beq_iff_eq]
  exact pageBase_ne_kInvalidTag target

/-- What an update does: it fails, or it finds a device, nothing or a page. -/
theorem updateCacheEntry_cases (memory : SystemMemory Host Device) (info : AccessInfo) (addr : Address)
    (entry : SMMCacheEntry Host Device) :
    ((memory.updateCacheEntry info addr entry).2.virtTag = SMMCacheEntry.kInvalidTag ∧
        ((memory.updateCacheEntry info addr entry).1 = 0 → (memory.translate info addr).1 = .ok) ∧
        ¬ memory.HasPage info addr ∧ ¬ memory.HasNothing info addr) ∨
      (memory.updateCacheEntry info addr entry = (1, entry) ∧ memory.HasNothing info addr) ∨
      ((memory.updateCacheEntry info addr entry).2.virtTag = addr.pageBase ∧ memory.HasPage info addr) := by
  unfold SystemMemory.updateCacheEntry SystemMemory.HasPage SystemMemory.HasNothing
  generalize memory.translate info addr = result
  obtain ⟨result, physAddr⟩ := result
  by_cases hOk : result = .ok
  · cases hOk
    cases hDevice : memory.hasDevice physAddr with
    | true => simp [TranslateResult.rc, hDevice]
    | false =>
      cases hLock : memory.lockRegion physAddr.pageBase with
      | none => simp [TranslateResult.rc, hDevice, hLock]
      | some page => simp [TranslateResult.rc, hDevice, hLock]
  · have hRc : result.rc ≠ 0 := fun hZero => hOk (TranslateResult.rc_eq_zero_iff.mp hZero)
    simp [hOk, hRc, SMMCacheEntry.invalidate]

variable {info : AccessInfo} {addr : Address}

theorem not_hasNothing_of_hasPage (hPage : memory.HasPage info addr) : ¬ memory.HasNothing info addr := by
  intro hNothing
  have hSome := hPage.2.2
  rw [hNothing.2.2] at hSome
  cases hSome

theorem isPageFor_updateCacheEntry {addr target : Address} :
    (memory.updateCacheEntry info addr entry).2.isPageFor target = true ↔
      addr.pageBase = target.pageBase ∧ memory.HasPage info addr ∨
        entry.isPageFor target = true ∧ memory.HasNothing info addr := by
  rcases updateCacheEntry_cases memory info addr entry with
    ⟨hTag, -, hNoPage, hSomething⟩ | ⟨hSame, hNothing⟩ | ⟨hTag, hPage⟩
  · refine iff_of_false (isPageFor_of_kInvalidTag hTag target) ?_
    rintro (⟨-, hPage⟩ | ⟨-, hNothing⟩)
    · exact hNoPage hPage
    · exact hSomething hNothing
  · rw [hSame, and_iff_left hNothing, or_iff_right fun hBoth => not_hasNothing_of_hasPage hBoth.2 hNothing]
  · rw [SMMCacheEntry.isPageFor, hTag, beq_iff_eq, and_iff_left hPage,
      or_iff_left fun hBoth => not_hasNothing_of_hasPage hPage hBoth.2]
    exact eq_comm

/-! ### Caches -/

/-- An entry that is in use is on a page that is dirty. -/
def Settled (cache : SMMCache Host Device) : Prop :=
  ∀ i, (cache.cache i).virtTag ≠ SMMCacheEntry.kInvalidTag →
    cache.dirty = true ∧ cache.dirtyPages (SMMCache.pageOf i) = true

variable {cache : SMMCache Host Device}

theorem cache_setEntry_self (addr : Address) (entry : SMMCacheEntry Host Device) :
    (cache.setEntry addr entry).cache (SMMCache.entryIndex addr) = entry := Function.update_self _ _ _

theorem cache_setEntry_of_ne {i : Fin 1024} (hNe : i ≠ SMMCache.entryIndex addr) (entry : SMMCacheEntry Host Device) :
    (cache.setEntry addr entry).cache i = cache.cache i :=
  Function.update_of_ne hNe _ _

section

variable (hSettled : Settled cache)
include hSettled

theorem settled_tryGetEntry (addr : Address) : Settled (cache.tryGetEntry addr) := by
  intro i hUsed
  refine ⟨rfl, ?_⟩
  unfold SMMCache.tryGetEntry
  dsimp only
  rw [Function.update_apply]
  split
  · rfl
  · exact (hSettled i hUsed).2

/-- An entry that was taken from the cache may be filled. -/
theorem settled_setEntry_tryGetEntry (addr : Address) (entry : SMMCacheEntry Host Device) :
    Settled ((cache.tryGetEntry addr).setEntry addr entry) := by
  intro i hUsed
  by_cases hSame : i = SMMCache.entryIndex addr
  · exact ⟨rfl, hSame ▸ Function.update_self _ _ _⟩
  · rw [cache_setEntry_of_ne hSame] at hUsed
    exact settled_tryGetEntry hSettled addr i hUsed

theorem settled_access (info : AccessInfo) (addr : Address) : Settled (cache.access memory info addr).2 := by
  unfold SMMCache.access
  dsimp only
  split
  · exact settled_tryGetEntry hSettled addr
  · exact settled_setEntry_tryGetEntry hSettled addr _

theorem virtTag_flush (i : Fin 1024) : (cache.flush.cache i).virtTag = SMMCacheEntry.kInvalidTag := by
  by_contra hUsed
  unfold SMMCache.flush at hUsed
  split at hUsed
  · rename_i hClean
    rw [(hSettled i hUsed).1] at hClean
    cases hClean
  · dsimp only at hUsed
    split at hUsed
    · exact hUsed rfl
    · rename_i hPage
      exact hPage (hSettled i hUsed).2

theorem settled_evict (addr : Address) : Settled (cache.evict addr) := by
  intro i hUsed
  unfold SMMCache.evict at hUsed
  by_cases hSame : i = SMMCache.entryIndex addr
  · rw [hSame, cache_setEntry_self] at hUsed
    exact absurd rfl hUsed
  · rw [cache_setEntry_of_ne hSame] at hUsed
    exact hSettled i hUsed

end

theorem isPageFor_access {addr target : Address} :
    ((cache.access memory info addr).2.entryFor target).isPageFor target = true ↔
      addr.pageBase = target.pageBase ∧ memory.HasPage info addr ∨ (cache.entryFor target).isPageFor target = true ∧
          ¬ (SMMCache.entryIndex addr = SMMCache.entryIndex target ∧ addr.pageBase ≠ target.pageBase ∧
            ¬ memory.HasNothing info addr) := by
  -- an entry is of one page only
  have hOne (hIndex : SMMCache.entryIndex addr = SMMCache.entryIndex target)
      (hTarget : (cache.entryFor target).isPageFor target = true) :
      (cache.entryFor addr).isPageFor addr = true ↔ addr.pageBase = target.pageBase := by
    rw [SMMCacheEntry.isPageFor, beq_iff_eq] at hTarget ⊢
    rw [hTarget, SMMCache.entryFor, SMMCache.entryFor, hIndex]
  unfold SMMCache.access
  dsimp only
  split
  · rename_i hHit
    constructor
    · intro hTarget
      exact .inr ⟨hTarget, fun hDisplaced => hDisplaced.2.1 ((hOne hDisplaced.1 hTarget).mp hHit)⟩
    · rintro (⟨hPage, -⟩ | ⟨hTarget, -⟩)
      · have hIndex := entryIndex_congr hPage
        unfold SMMCacheEntry.isPageFor at hHit ⊢
        rwa [hPage, SMMCache.entryFor, hIndex] at hHit
      · exact hTarget
  · rename_i hMiss
    by_cases hIndex : SMMCache.entryIndex addr = SMMCache.entryIndex target
    · have hEntry : (cache.tryGetEntry addr).entryFor addr = cache.entryFor target := congrArg cache.cache hIndex
      rw [SMMCache.entryFor, ← hIndex, cache_setEntry_self, isPageFor_updateCacheEntry, hEntry]
      refine or_congr_right (and_congr_right fun hTarget => ?_)
      have hNe : addr.pageBase ≠ target.pageBase := fun hPage => hMiss ((hOne hIndex hTarget).mpr hPage)
      rw [and_iff_right rfl, and_iff_right hNe, not_not]
    · rw [SMMCache.entryFor, cache_setEntry_of_ne (Ne.symm hIndex),
        or_iff_right fun hBoth => hIndex (entryIndex_congr hBoth.1)]
      exact (and_iff_left fun hDisplaced => hIndex hDisplaced.1).symm

theorem exists_access_of_isPageFor (hHit : (cache.entryFor addr).isPageFor addr = true) :
    ∃ entry, (cache.access memory info addr).1 = .ok entry := by
  unfold SMMCache.access
  dsimp only
  exact ⟨cache.entryFor addr, congrArg Prod.fst (if_pos hHit)⟩

/-- An access succeeds because the page is in the cache, or because it is translated. -/
theorem isPageFor_or_translate_of_access (hAccess : (cache.access memory info addr).1 = .ok entry) :
    (cache.entryFor addr).isPageFor addr = true ∨ (memory.translate info addr).1 = .ok := by
  unfold SMMCache.access at hAccess
  dsimp only at hAccess
  split at hAccess
  · rename_i hHit
    exact .inl hHit
  · dsimp only at hAccess
    split at hAccess
    · rename_i hRc
      rcases updateCacheEntry_cases memory info addr ((cache.tryGetEntry addr).entryFor addr) with
        ⟨-, hOk, -⟩ | ⟨-, hNothing⟩ | ⟨-, hPage⟩
      · exact .inr (hOk hRc)
      · exact .inr hNothing.1
      · exact .inr hPage.1
    · cases hAccess

/-! ### Operations and calls -/

theorem foldl_accessCalls (info : AccessInfo) (addrs : List Address) (model : CacheBasedSystemMemoryModel Host Device) :
    (accessCalls memory info addrs model).foldl (step memory) model = (accessAll memory info addrs model).2 := by
  induction addrs generalizing model with
  | nil => rfl
  | cons addr addrs ih =>
    rw [accessCalls, accessAll, List.foldl_cons, step]
    cases hAccess : model.access memory info addr with
    | mk result after =>
      cases result with
      | error rc => rfl
      | ok entry => exact ih after

theorem foldl_calls (op : Operation) :
    (model.calls memory checkAlignment op).foldl (step memory) model = model.next memory checkAlignment op := by
  cases op with
  | read addr size => exact foldl_accessCalls _ _ model
  | fetch addr size => exact foldl_accessCalls _ _ model
  | write addr size => exact foldl_accessCalls _ _ model
  | setExecutionRing ring => rfl
  | flush => rfl
  | evict addr => rfl

theorem throughout_history_iff {ops : List Operation} :
    Throughout (next memory checkAlignment) (RespectsRing memory checkAlignment) model ops ↔
      Throughout (step memory) (Respects memory) model (history memory checkAlignment model ops) := by
  induction ops generalizing model with
  | nil => exact Iff.rfl
  | cons op ops ih => rw [throughout_cons, history, throughout_append, foldl_calls, ih, RespectsRing]

/-! ### Pages in the cache -/

/-- The page of an address is in the cache. -/
def Resident (write : Bool) (target : Address) (model : CacheBasedSystemMemoryModel Host Device) : Prop :=
  ((model.getCache 0 3 write).entryFor target).isPageFor target = true

def AllSettled (model : CacheBasedSystemMemoryModel Host Device) : Prop :=
  ∀ mode write, Settled (model.caches mode write)

theorem getCache_setCache {write other : Bool} {cache : SMMCache Host Device} :
    (model.setCache 0 3 write cache).getCache 0 3 other = if write = other then cache else model.getCache 0 3 other := by
  unfold setCache getCache
  dsimp only
  rw [Function.update_self, Function.update_apply]
  exact if_congr eq_comm rfl rfl

theorem allSettled_step (hSettled : AllSettled model) (call : Call) : AllSettled (model.step memory call) := by
  intro mode write
  cases call with
  | access info addr =>
    change Settled (Function.update model.caches (0, 3) _ mode write)
    rw [Function.update_apply]
    split
    · rw [Function.update_apply]
      split
      · exact settled_access (hSettled _ _) info addr
      · exact hSettled _ _
    · exact hSettled _ _
  | setExecutionRing ring => exact hSettled mode write
  | flush => exact fun i hUsed => absurd (virtTag_flush (hSettled mode write) i) hUsed
  | evict addr => exact settled_evict (hSettled mode write) addr

/-- What one call does to a page in the cache. -/
theorem resident_step_iff (hSettled : AllSettled model) (call : Call) (write : Bool) (target : Address) :
    Resident write target (model.step memory call) ↔
      Fills memory write target call ∨ Resident write target model ∧ ¬ Displaces memory write target call := by
  cases call with
  | access info addr =>
    have hCache : (model.step memory (.access info addr)).getCache 0 3 write =
        if info.write = write then ((model.getCache 0 3 info.write).access memory info addr).2
        else model.getCache 0 3 write := getCache_setCache
    unfold Resident Fills Displaces
    dsimp only
    rw [hCache]
    split
    · rename_i hWrite
      rw [and_iff_right hWrite, and_iff_right hWrite, isPageFor_access, hWrite]
    · rename_i hWrite
      rw [or_iff_right fun hBoth => hWrite hBoth.1]
      exact (and_iff_left fun hBoth => hWrite hBoth.1).symm
  | setExecutionRing ring => exact ((or_iff_right id).trans (and_iff_left id)).symm
  | flush =>
    refine iff_of_false (isPageFor_of_kInvalidTag (virtTag_flush (hSettled _ _) _) target) ?_
    rintro (hFills | ⟨-, hKept⟩)
    · exact hFills
    · exact hKept trivial
  | evict addr =>
    unfold Resident Fills Displaces
    rw [false_or]
    change (((model.getCache 0 3 write).evict addr).cache _).isPageFor target = true ↔ _
    unfold SMMCache.evict
    by_cases hIndex : SMMCache.entryIndex addr = SMMCache.entryIndex target
    · rw [← hIndex, cache_setEntry_self]
      exact iff_of_false (isPageFor_of_kInvalidTag rfl target) fun hBoth => hBoth.2 rfl
    · rw [cache_setEntry_of_ne (Ne.symm hIndex)]
      exact (and_iff_left hIndex).symm

theorem filled_iff_resident (ring : Nat) (calls : List Call) (write : Bool) (target : Address) :
    Resident write target (calls.foldl (step memory) (new ring)) ↔ Filled memory calls write target := by
  refine (holds_foldl_iff (fun _ call hSettled => allSettled_step hSettled call)
    (fun _ call hSettled => resident_step_iff hSettled call write target) ?_ ?_ calls).2
  · exact fun _ _ _ hUsed => absurd rfl hUsed
  · exact isPageFor_of_kInvalidTag rfl target

theorem respects_access_iff (info : AccessInfo) (addr : Address) : model.Respects memory (.access info addr) ↔
      (Resident info.write addr model → (memory.translate info addr).1 = .ok) := by
  refine ⟨fun hRespects hResident => hRespects (exists_access_of_isPageFor hResident), ?_⟩
  rintro hPermitted ⟨entry, hAccess⟩
  exact (isPageFor_or_translate_of_access hAccess).elim hPermitted id

/-- The caches respect the rings in a history exactly if every access to a page that an earlier one left in
the cache is permitted itself. -/
theorem respectsRing_throughout_iff (memory : SystemMemory Host Device) (checkAlignment : Bool) (ring : Nat)
    (ops : List Operation) :
    Throughout (next memory checkAlignment) (RespectsRing memory checkAlignment) (new ring) ops ↔
      Permitted memory (history memory checkAlignment (new ring) ops) := by
  rw [throughout_history_iff, throughout_iff_split]
  refine forall_congr' fun before => ?_
  constructor
  · intro hRespects info addr after hCalls hFilled
    exact (respects_access_iff info addr).mp (hRespects _ after hCalls) ((filled_iff_resident ring _ _ _).mpr hFilled)
  · intro hPermitted call after hCalls
    cases call with
    | access info addr =>
        refine (respects_access_iff info addr).mpr fun hResident => ?_
        exact hPermitted info addr after hCalls ((filled_iff_resident ring _ _ _).mp hResident)
    | setExecutionRing ring => trivial
    | flush => trivial
    | evict addr => trivial

/-- A page that ring 1 may read, and ring 0 may not. -/
def kernelPage : SystemMemory Unit Empty where
  translate info addr := if info.ring = 0 then (.accessPermissionPage, 0) else (.ok, addr)
  hasDevice _ := false
  lookupDevice _ hDevice := absurd hDevice (by decide)
  lockRegion _ := some ()

/-- The page is read in ring 1 first, and then in ring 0. -/
theorem kernelPage_read_by_user :
    ¬ Throughout (next kernelPage true) (RespectsRing kernelPage true) (new 1)
      [.read 0x1000 .four, .setExecutionRing 0, .read 0x1000 .four] := by
  rintro ⟨-, -, hLast, -⟩
  cases hLast.1 ⟨_, rfl⟩

end CacheBasedSystemMemoryModel

end Gensim.Memory
