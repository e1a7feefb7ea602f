import Gensim.Core.Address
import Gensim.Lib.ByteStore
import Gensim.Lib.Operations

/-! The memory interface that keeps the host pointers of guest pages in a direct-mapped cache. -/
namespace Gensim.Core

open Operations

/-- The base of a page of the guest, and where the page is in the host. -/
structure CachedLegacyMemoryInterface.CacheEntry where
  tag : Address
  data : Nat

/-- The cache, and the host memory that its pointers lead to. -/
structure CachedLegacyMemoryInterface where
  cache : Nat → CachedLegacyMemoryInterface.CacheEntry
  host : ByteStore.Store

namespace CachedLegacyMemoryInterface

def kCacheSize : Nat := 1024

-- the pointer that `LockRegion` gives for the base of a page
variable (lockRegion : Address → Nat) (memory : CachedLegacyMemoryInterface)

/-- The tag 1 is the base of no page, so every entry misses. -/
def invalidate : CachedLegacyMemoryInterface := { memory with cache := fun _ => ⟨1, 0⟩ }

def new (host : ByteStore.Store) : CachedLegacyMemoryInterface := invalidate ⟨fun _ => ⟨0, 0⟩, host⟩

def index (addr : Address) : Nat := addr.getPageIndex % kCacheSize

def loadEntryFor (addr : Address) : CachedLegacyMemoryInterface :=
  { memory with
    cache := Function.update memory.cache (index addr) ⟨addr.pageBase, lockRegion addr.pageBase⟩ }

/-- Where the byte at an address is in the host; a miss loads the entry first. -/
def getPtr (addr : Address) : Nat × CachedLegacyMemoryInterface :=
  let memory :=
    if (memory.cache (index addr)).tag ≠ addr.pageBase then memory.loadEntryFor lockRegion addr else memory
  ((memory.cache (index addr)).data + addr.getPageOffset, memory)

/-! ### Accesses -/

/-- A load of a host word at the pointer for an address. -/
def loadAt (size : Nat) (addr : Address) : Nat × CachedLegacyMemoryInterface :=
  let (ptr, memory) := memory.getPtr lockRegion addr
  (ByteStore.load memory.host ptr size, memory)

def storeAt (size : Nat) (addr : Address) (data : Nat) : CachedLegacyMemoryInterface :=
  let (ptr, memory) := memory.getPtr lockRegion addr
  { memory with host := ByteStore.store memory.host ptr size data }

def read8 : Address → Nat × CachedLegacyMemoryInterface := memory.loadAt lockRegion 1

def write8 : Address → Nat → CachedLegacyMemoryInterface := memory.storeAt lockRegion 1

/-- `Read`, into a host word of so many bytes. -/
def read : Nat → Address → CachedLegacyMemoryInterface → Nat × CachedLegacyMemoryInterface
  | 0, _, memory => (0, memory)
  | len + 1, addr, memory =>
      let (byte, memory) := memory.read8 lockRegion addr
      let (rest, memory) := read len (addr + 1) memory
      (byte + 256 * rest, memory)

/-- A write that crosses a page, byte by byte from the lowest address. -/
def write : Nat → Address → Nat → CachedLegacyMemoryInterface → CachedLegacyMemoryInterface
  | 0, _, _, memory => memory
  | len + 1, addr, data, memory =>
      write len (addr + 1) (data / 256) (memory.write8 lockRegion addr (data % 256))

/-- Whether the last byte is in another page. -/
def crosses (size : Nat) (addr : Address) : Prop :=
  addr.getPageIndex ≠ (addr + BitVec.ofNat 64 (size - 1)).getPageIndex

instance (size : Nat) (addr : Address) : Decidable (crosses size addr) := inferInstanceAs (Decidable (_ ≠ _))

def readWide (size : Nat) (addr : Address) : Nat × CachedLegacyMemoryInterface :=
  if crosses size addr then read lockRegion size addr memory else memory.loadAt lockRegion size addr

/-- Within a page there is one store, through one pointer. -/
def writeWide (size : Nat) (addr : Address) (data : Nat) : CachedLegacyMemoryInterface :=
  if crosses size addr then write lockRegion size addr data memory
  else memory.storeAt lockRegion size addr data

def read16 := memory.readWide lockRegion 2

def read32 := memory.readWide lockRegion 4

def read64 := memory.readWide lockRegion 8

def read128 (addr : Address) := read lockRegion 16 addr memory

def write16 := memory.writeWide lockRegion 2

def write32 := memory.writeWide lockRegion 4

def write64 := memory.writeWide lockRegion 8

def write128 (addr : Address) (data : Nat) := write lockRegion 16 addr data memory

inductive Width where
  | bits8
  | bits16
  | bits32
  | bits64
  | bits128
  deriving DecidableEq

def Width.size : Width → Nat
  | .bits8 => 1
  | .bits16 => 2
  | .bits32 => 4
  | .bits64 => 8
  | .bits128 => 16

def readWidth : Width → Address → Nat × CachedLegacyMemoryInterface
  | .bits8 => memory.read8 lockRegion
  | .bits16 => memory.read16 lockRegion
  | .bits32 => memory.read32 lockRegion
  | .bits64 => memory.read64 lockRegion
  | .bits128 => memory.read128 lockRegion

def writeWidth : Width → Address → Nat → CachedLegacyMemoryInterface
  | .bits8 => memory.write8 lockRegion
  | .bits16 => memory.write16 lockRegion
  | .bits32 => memory.write32 lockRegion
  | .bits64 => memory.write64 lockRegion
  | .bits128 => memory.write128 lockRegion

inductive Operation where
  | read (width : Width) (addr : Address)
  | write (width : Width) (addr : Address) (data : Nat)
  | invalidate
  deriving DecidableEq

end CachedLegacyMemoryInterface

/-! ### The byte memory -/

/-- The byte at each address. -/
abbrev ByteMemory := Address → BitVec 8

namespace ByteMemory

variable (bytes : ByteMemory)

/-- The little-endian value of so many bytes; the last address is followed by the first. -/
def value : Nat → Address → Nat
  | 0, _ => 0
  | size + 1, addr => (bytes addr).toNat + 256 * value size (addr + 1)

def written (size : Nat) (addr : Address) (data : Nat) : ByteMemory := fun other =>
  if (other - addr).toNat < size then BitVec.ofNat 8 (data / 256 ^ (other - addr).toNat) else bytes other

/-- Writing the first byte and then the others. -/
theorem written_succ {size : Nat} (hSize : size < 2 ^ 64) (addr : Address) (data : Nat) :
    (bytes.written 1 addr (data % 256)).written size (addr + 1) (data / 256) = bytes.written (size + 1) addr data := by
  funext other
  have hNext : other - (addr + 1) = other - addr - 1 := by bv_omega
  unfold written
  by_cases hFirst : other = addr
  · subst hFirst
    have hLast : (other - (other + 1)).toNat = 2 ^ 64 - 1 := by
      rw [hNext, BitVec.sub_self]
      rfl
    rw [if_neg (by omega), BitVec.sub_self, if_pos (by decide), if_pos (by simp)]
    apply BitVec.eq_of_toNat_eq
    simp
  · have hPos : 0 < (other - addr).toNat := by
      refine Nat.pos_of_ne_zero fun hZero => hFirst ?_
      have hEq : other - addr = 0 := BitVec.eq_of_toNat_eq hZero
      exact BitVec.sub_eq_iff_eq_add.mp hEq |>.trans (BitVec.zero_add addr)
    have hLess : (other - (addr + 1)).toNat = (other - addr).toNat - 1 := by
      rw [hNext]
      generalize other - addr = distance at hPos
      bv_omega
    rw [hLess]
    by_cases hIn : (other - addr).toNat < size + 1
    · rw [if_pos (by omega), if_pos hIn]
      congr 1
      rw [Nat.div_div_eq_div_mul, ← pow_succ']
      congr 2
      omega
    · rw [if_neg (by omega), if_neg (by omega), if_neg hIn]

end ByteMemory

namespace CachedLegacyMemoryInterface

variable {lockRegion : Address → Nat} {memory : CachedLegacyMemoryInterface} {addr : Address} {size : Nat}

/-- The storages of different pages do not overlap. -/
def Apart (lockRegion : Address → Nat) : Prop :=
  ∀ page other : Address, page.pageBase ≠ other.pageBase → ∀ i < Address.pageSize, ∀ j < Address.pageSize,
    lockRegion page.pageBase + i ≠ lockRegion other.pageBase + j

/-- Where the byte of an address is kept. -/
def place (lockRegion : Address → Nat) (addr : Address) : Nat :=
  lockRegion addr.pageBase + addr.getPageOffset

/-- The memory as the guest sees it, whatever the cache holds. -/
def contents (lockRegion : Address → Nat) (memory : CachedLegacyMemoryInterface) : ByteMemory := fun addr =>
  memory.host (place lockRegion addr)

/-- An entry that is tagged with a page has the pointer of the page. -/
def Valid (lockRegion : Address → Nat) (memory : CachedLegacyMemoryInterface) : Prop :=
  ∀ i page, (memory.cache i).tag = Address.pageBase page → (memory.cache i).data = lockRegion page.pageBase

theorem pageBase_eq_iff {other : Address} :
    addr.pageBase = other.pageBase ↔ addr.getPageIndex = other.getPageIndex := by
  rw [← BitVec.toNat_inj, Address.toNat_pageBase, Address.toNat_pageBase]
  exact Nat.mul_left_inj (by decide)

/-- The tag of an empty entry is no page. -/
theorem pageBase_ne_one (page : Address) : (1 : Address) ≠ page.pageBase := by
  intro hOne
  have hNat := congrArg BitVec.toNat hOne
  rw [Address.toNat_pageBase] at hNat
  change 1 = page.getPageIndex * 4096 at hNat
  omega

theorem valid_invalidate : Valid lockRegion memory.invalidate := fun _ page hTag => absurd hTag (pageBase_ne_one page)

theorem place_injective (hApart : Apart lockRegion) : Function.Injective (place lockRegion) := by
  intro first second hPlace
  by_cases hPage : first.pageBase = second.pageBase
  · have hOffset : first.getPageOffset = second.getPageOffset := by
      unfold place at hPlace
      rw [hPage] at hPlace
      exact Nat.add_left_cancel hPlace
    apply BitVec.eq_of_toNat_eq
    rw [Address.toNat_eq first, Address.toNat_eq second, hOffset, pageBase_eq_iff.mp hPage]
  · exact absurd hPlace (hApart first second hPage _ first.getPageOffset_lt _ second.getPageOffset_lt)

theorem getPtr_spec (hValid : Valid lockRegion memory) (addr : Address) :
    (memory.getPtr lockRegion addr).1 = place lockRegion addr ∧ (memory.getPtr lockRegion addr).2.host = memory.host ∧
      Valid lockRegion (memory.getPtr lockRegion addr).2 := by
  unfold getPtr place
  split
  next =>
    refine ⟨by simp [loadEntryFor], rfl, fun i page hTag => ?_⟩
    by_cases hIndex : i = index addr
    · subst hIndex
      simp only [loadEntryFor, Function.update_self] at hTag ⊢
      rw [hTag]
    · simp only [loadEntryFor, Function.update_of_ne hIndex] at hTag ⊢
      exact hValid i page hTag
  next hTag =>
    rw [not_not] at hTag
    exact ⟨congrArg (· + _) (hValid _ addr hTag), rfl, hValid⟩

/-! ### Accesses -/

/-- Within a page the storage goes on as the addresses do. -/
theorem place_add (lockRegion : Address → Nat) {i : Nat} (hPage : addr.getPageOffset + i < Address.pageSize) :
    place lockRegion (addr + BitVec.ofNat 64 i) = place lockRegion addr + i := by
  have hBase : (addr + BitVec.ofNat 64 i).pageBase = addr.pageBase :=
    pageBase_eq_iff.mpr (Address.getPageIndex_add hPage)
  unfold place
  rw [hBase, Address.getPageOffset_add hPage, Nat.add_assoc]

theorem inPage_of_not_crosses (hSize : size ≤ 8) (hPositive : 0 < size) (hCrosses : ¬ crosses size addr) :
    addr.getPageOffset + size ≤ Address.pageSize := by
  unfold crosses at hCrosses
  rw [not_not] at hCrosses
  have hLt := addr.isLt
  have hNat : (addr + BitVec.ofNat 64 (size - 1)).toNat = (addr.toNat + (size - 1)) % 2 ^ 64 := by
    rw [BitVec.toNat_add, BitVec.toNat_ofNat, Nat.mod_eq_of_lt (show size - 1 < 2 ^ 64 by omega)]
  unfold Address.getPageIndex at hCrosses
  rw [hNat] at hCrosses
  rw [Address.getPageOffset_eq]
  unfold Address.pageSize at *
  omega

theorem load_eq_value (hPage : addr.getPageOffset + size ≤ Address.pageSize) :
    ByteStore.load memory.host (place lockRegion addr) size = (memory.contents lockRegion).value size addr := by
  induction size generalizing addr with
  | zero => rfl
  | succ size ih =>
    rw [ByteStore.load, ByteMemory.value]
    by_cases hLast : size = 0
    · subst hLast
      rfl
    · have hNext : addr.getPageOffset + 1 < Address.pageSize := by omega
      have hPlace := place_add lockRegion hNext
      have hOffset := Address.getPageOffset_add hNext
      rw [← hPlace, ih (by rw [hOffset]; omega)]
      rfl

theorem host_store_eq_written (hApart : Apart lockRegion) (hPage : addr.getPageOffset + size ≤ Address.pageSize)
    (data : Nat) :
    contents lockRegion { memory with host := ByteStore.store memory.host (place lockRegion addr) size data } =
      (memory.contents lockRegion).written size addr data := by
  funext other
  unfold contents ByteMemory.written ByteStore.store
  dsimp only
  have hOther : other = addr + BitVec.ofNat 64 (other - addr).toNat := by
    rw [BitVec.ofNat_toNat, BitVec.setWidth_eq, BitVec.add_comm, BitVec.sub_add_cancel]
  by_cases hIn : (other - addr).toNat < size
  · have hPlace : place lockRegion other = place lockRegion addr + (other - addr).toNat := by
      rw [hOther, place_add lockRegion (by omega)]
      rw [← hOther]
    rw [if_pos hIn, hPlace, if_pos (by omega), Nat.add_sub_cancel_left]
  · rw [if_neg hIn, if_neg]
    rintro ⟨hLow, hHigh⟩
    refine hIn ?_
    obtain ⟨i, hi⟩ := Nat.exists_eq_add_of_le hLow
    have hSame : other = addr + BitVec.ofNat 64 i :=
      place_injective hApart (hi.trans (place_add lockRegion (by omega)).symm)
    have hSmall : i < 2 ^ 64 := by
      unfold Address.pageSize at hPage
      omega
    have hDistance : (other - addr).toNat = i := by
      rw [hSame, BitVec.add_comm, BitVec.add_sub_cancel, BitVec.toNat_ofNat, Nat.mod_eq_of_lt hSmall]
    omega

/-- What an access left: the interface is valid, and stands for these bytes. -/
structure Leaves (lockRegion : Address → Nat) (bytes : ByteMemory) (memory : CachedLegacyMemoryInterface) :
    Prop where
  valid : Valid lockRegion memory
  contents : memory.contents lockRegion = bytes

theorem loadAt_spec (hValid : Valid lockRegion memory) (hPage : addr.getPageOffset + size ≤ Address.pageSize) :
    (memory.loadAt lockRegion size addr).1 = (memory.contents lockRegion).value size addr ∧
      Leaves lockRegion (memory.contents lockRegion) (memory.loadAt lockRegion size addr).2 := by
  obtain ⟨hPtr, hHost, hAfter⟩ := getPtr_spec hValid addr
  refine ⟨?_, hAfter, ?_⟩
  · change ByteStore.load (memory.getPtr lockRegion addr).2.host (memory.getPtr lockRegion addr).1 size = _
    rw [hPtr, hHost, load_eq_value hPage]
  · change (fun addr => (memory.getPtr lockRegion _).2.host (place lockRegion addr)) = _
    rw [hHost]
    rfl

theorem storeAt_spec (hApart : Apart lockRegion) (hValid : Valid lockRegion memory)
    (hPage : addr.getPageOffset + size ≤ Address.pageSize) (data : Nat) :
    Leaves lockRegion ((memory.contents lockRegion).written size addr data)
      (memory.storeAt lockRegion size addr data) := by
  obtain ⟨hPtr, hHost, hAfter⟩ := getPtr_spec hValid addr
  refine ⟨hAfter, ?_⟩
  rw [← host_store_eq_written hApart hPage data]
  change (fun other => ByteStore.store (memory.getPtr lockRegion addr).2.host
    (memory.getPtr lockRegion addr).1 size data (place lockRegion other)) = _
  rw [hPtr, hHost]
  rfl

theorem byte_inPage (addr : Address) : addr.getPageOffset + 1 ≤ Address.pageSize := addr.getPageOffset_lt

theorem read_spec (hValid : Valid lockRegion memory) (size : Nat) (addr : Address) :
    (read lockRegion size addr memory).1 = (memory.contents lockRegion).value size addr ∧
      Leaves lockRegion (memory.contents lockRegion) (read lockRegion size addr memory).2 := by
  induction size generalizing addr memory with
  | zero => exact ⟨rfl, hValid, rfl⟩
  | succ size ih =>
    obtain ⟨hByte, hFirst⟩ := loadAt_spec hValid (byte_inPage addr)
    obtain ⟨hRest, hLast⟩ := ih hFirst.valid (addr + 1)
    rw [hFirst.contents] at hRest hLast
    refine ⟨?_, hLast⟩
    rw [ByteMemory.value, ← hRest]
    change (memory.loadAt lockRegion 1 addr).1 + _ = _
    rw [hByte]
    rfl

theorem write_spec (hApart : Apart lockRegion) (hValid : Valid lockRegion memory) {size : Nat}
    (hSize : size ≤ 2 ^ 64) (addr : Address) (data : Nat) :
    Leaves lockRegion ((memory.contents lockRegion).written size addr data)
      (write lockRegion size addr data memory) := by
  induction size generalizing addr data memory with
  | zero => exact ⟨hValid, rfl⟩
  | succ size ih =>
    have hFirst := storeAt_spec hApart hValid (byte_inPage addr) (data % 256)
    have hRest := ih hFirst.valid (by omega) (addr + 1) (data / 256)
    rw [hFirst.contents, ByteMemory.written_succ _ (by omega)] at hRest
    exact hRest

theorem readWide_spec (hValid : Valid lockRegion memory) (hSize : size ≤ 8) (hPositive : 0 < size) (addr : Address) :
    (memory.readWide lockRegion size addr).1 = (memory.contents lockRegion).value size addr ∧
      Leaves lockRegion (memory.contents lockRegion) (memory.readWide lockRegion size addr).2 := by
  unfold readWide
  split
  next => exact read_spec hValid size addr
  next hCrosses => exact loadAt_spec hValid (inPage_of_not_crosses hSize hPositive hCrosses)

theorem writeWide_spec (hApart : Apart lockRegion) (hValid : Valid lockRegion memory) (hSize : size ≤ 8)
    (hPositive : 0 < size) (addr : Address) (data : Nat) :
    Leaves lockRegion ((memory.contents lockRegion).written size addr data)
      (memory.writeWide lockRegion size addr data) := by
  unfold writeWide
  split
  next => exact write_spec hApart hValid (by omega) addr data
  next hCrosses => exact storeAt_spec hApart hValid (inPage_of_not_crosses hSize hPositive hCrosses) data

theorem readWidth_spec (hValid : Valid lockRegion memory) (width : Width) (addr : Address) :
    (memory.readWidth lockRegion width addr).1 = (memory.contents lockRegion).value width.size addr ∧
      Leaves lockRegion (memory.contents lockRegion) (memory.readWidth lockRegion width addr).2 := by
  cases width with
  | bits8 => exact loadAt_spec hValid (byte_inPage addr)
  | bits16 => exact readWide_spec hValid (by decide) (by decide) addr
  | bits32 => exact readWide_spec hValid (by decide) (by decide) addr
  | bits64 => exact readWide_spec hValid (by decide) (by decide) addr
  | bits128 => exact read_spec hValid 16 addr

theorem writeWidth_spec (hApart : Apart lockRegion) (hValid : Valid lockRegion memory) (width : Width)
    (addr : Address) (data : Nat) : Leaves lockRegion ((memory.contents lockRegion).written width.size addr data)
      (memory.writeWidth lockRegion width addr data) := by
  cases width with
  | bits8 => exact storeAt_spec hApart hValid (byte_inPage addr) data
  | bits16 => exact writeWide_spec hApart hValid (by decide) (by decide) addr data
  | bits32 => exact writeWide_spec hApart hValid (by decide) (by decide) addr data
  | bits64 => exact writeWide_spec hApart hValid (by decide) (by decide) addr data
  | bits128 => exact write_spec hApart hValid (by decide) addr data

/-! ### Runs -/

/-- The interface, and the bytes as they were written last. -/
abbrev State := CachedLegacyMemoryInterface × ByteMemory

def advance (lockRegion : Address → Nat) (s : State) : Operation → State
  | .read width addr => ((s.1.readWidth lockRegion width addr).2, s.2)
  | .write width addr data => (s.1.writeWidth lockRegion width addr data, s.2.written width.size addr data)
  | .invalidate => (s.1.invalidate, s.2)

/-- A read returns the value of the bytes. -/
def Right (lockRegion : Address → Nat) (s : State) : Operation → Prop
  | .read width addr => (s.1.readWidth lockRegion width addr).1 = s.2.value width.size addr
  | _ => True

theorem right_of_leaves {s : State} (hLeaves : Leaves lockRegion s.2 s.1) (op : Operation) :
    Right lockRegion s op := by
  cases op with
  | read width addr =>
    have hValue := (readWidth_spec hLeaves.valid width addr).1
    rwa [hLeaves.contents] at hValue
  | _ => trivial

theorem advance_leaves (hApart : Apart lockRegion) {s : State} (hLeaves : Leaves lockRegion s.2 s.1)
    (op : Operation) : Leaves lockRegion (advance lockRegion s op).2 (advance lockRegion s op).1 := by
  cases op with
  | read width addr =>
    have hAfter := (readWidth_spec hLeaves.valid width addr).2
    exact ⟨hAfter.valid, hAfter.contents.trans hLeaves.contents⟩
  | write width addr data =>
    have hAfter := writeWidth_spec hApart hLeaves.valid width addr data
    rwa [hLeaves.contents] at hAfter
  | invalidate => exact ⟨valid_invalidate, hLeaves.contents⟩

/-- Over storages that do not overlap, the interface is a memory of bytes. -/
theorem reads_last_written (hApart : Apart lockRegion) (host : ByteStore.Store) (ops : List Operation) :
    Throughout (advance lockRegion) (Right lockRegion) (new host, (new host).contents lockRegion) ops := by
  have hBoth : Throughout (advance lockRegion) (fun _ _ => True)
        (new host, (new host).contents lockRegion) ops ↔
      Throughout (advance lockRegion) (Right lockRegion) (new host, (new host).contents lockRegion) ops :=
    throughout_congr (fun s => Leaves lockRegion s.2 s.1)
      (fun _ op hLeaves => iff_of_true trivial (right_of_leaves hLeaves op))
      (fun _ op hLeaves _ => advance_leaves hApart hLeaves op) ⟨valid_invalidate, rfl⟩ ops
  exact hBoth.mp (throughout_of_forall (fun _ _ _ => trivial) _)

/-- Pages kept one after the other, and accesses over the end of the first and of the last. -/
theorem reads_last_written_inOrder :
    Apart BitVec.toNat ∧ Throughout (advance BitVec.toNat) (Right BitVec.toNat)
      (new (fun _ => 0), (new fun _ => 0).contents BitVec.toNat)
      [.write .bits32 0xffe 0x12345678, .read .bits16 0x1000, .write .bits64 0xfffffffffffffffc 7,
        .read .bits128 0] := by
  have hApart : Apart BitVec.toNat := by
    intro page other hPage i hi j hj hSame
    rw [Address.toNat_pageBase, Address.toNat_pageBase] at hSame
    refine hPage (pageBase_eq_iff.mpr ?_)
    unfold Address.pageSize at *
    omega
  exact ⟨hApart, reads_last_written hApart _ _⟩

end CachedLegacyMemoryInterface

end Gensim.Core
