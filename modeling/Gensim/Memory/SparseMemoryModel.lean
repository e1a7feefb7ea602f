import Gensim.Core.Address
import Gensim.Core.Cache
import Gensim.Lib.Operations

/-! Guest memory kept as host pages that are made when they are first accessed. -/
namespace Gensim.Memory

open Core Operations

abbrev Byte := BitVec 8

/-- The ways an access can fail to return at all. -/
inductive Fault where
  | badAlloc
  | nullPointer
  deriving DecidableEq

/-- A host page is named by the number of pages mapped before it. -/
structure SparseMemoryModel where
  cache : Cache (Option Nat)
  data : Nat → Option Nat
  heap : Nat → Nat → Byte
  mapped : Nat
  pagesRemaining : Nat

/-- What is asked of the memory at an address. -/
inductive Access where
  | write (bytes : List Byte)
  | read (size : Nat)
  deriving DecidableEq

namespace Access

def size : Access → Nat
  | .write bytes => bytes.length
  | .read size => size

end Access

namespace SparseMemoryModel

def pageBudget : Nat := 1024 * 1024

def new : SparseMemoryModel := ⟨.new none, fun _ => none, fun _ _ => 0, 0, pageBudget⟩

-- `readable` says whether the mapping manager has an address in a region with `RegFlagRead`
variable (readable : Address → Bool) (memory : SparseMemoryModel)

/-- A page of zeros from `mmap`. -/
def mapPage (page : Nat) : SparseMemoryModel :=
  { memory with
    data := Function.update memory.data page (some memory.mapped)
    heap := Function.update memory.heap memory.mapped fun _ => 0
    mapped := memory.mapped + 1
    pagesRemaining := memory.pagesRemaining - 1 }

def getPageUncached (page : Nat) : Except Fault (Nat × SparseMemoryModel) :=
  match memory.data page with
  | some pointer => .ok (pointer, memory)
  | none =>
      if memory.pagesRemaining = 0 then .error .badAlloc
      else .ok (memory.mapped, memory.mapPage page)

/-- With the pointer that the caller adds an offset to and gives to `memcpy`: neither is defined for a
null pointer, whatever the number of bytes. -/
def getPage (page : Nat) : Except Fault (Nat × SparseMemoryModel) :=
  match memory.cache.hitWay page with
  | some way =>
      match memory.cache.value page way with
      | some pointer => .ok (pointer, memory)
      | none => .error .nullPointer
  | none => do
      let (pointer, after) ← memory.getPageUncached page
      .ok (pointer, { after with cache := after.cache.fill page (some pointer) })

/-- `memcpy` to a host page. -/
def store (pointer offset : Nat) (bytes : List Byte) : SparseMemoryModel :=
  { memory with
    heap := Function.update memory.heap pointer fun i =>
      if offset ≤ i then (bytes[i - offset]?).getD (memory.heap pointer i) else memory.heap pointer i }

def load (pointer offset size : Nat) : List Byte :=
  (List.range size).map fun i => memory.heap pointer (offset + i)

/-- `Read` and `Write` where the access stays in one page: the status, the bytes read and the memory. -/
def accessPage (address : Address) : Access → Except Fault (Nat × List Byte × SparseMemoryModel)
  | .write bytes => do
      let (pointer, after) ← memory.getPage address.getPageIndex
      .ok (0, [], after.store pointer address.getPageOffset bytes)
  | .read size =>
      if readable address then do
        let (pointer, after) ← memory.getPage address.getPageIndex
        .ok (0, after.load pointer address.getPageOffset size, after)
      else .ok (1, [], memory)

def crossesPage (address : Address) (size : Nat) : Bool :=
  (address + BitVec.ofNat 64 size - 1).pageBase ≠ address.pageBase

/-- The accesses of one byte that an access is made of. -/
def bytewise (address : Address) : Access → List (Address × Access)
  | .write bytes => bytes.mapIdx fun i byte => (address + BitVec.ofNat 64 i, .write [byte])
  | .read size => (List.range size).map fun i => (address + BitVec.ofNat 64 i, .read 1)

/-- The accesses within a page that `Read` and `Write` come down to: an access that crosses into
another page is made again byte by byte, and an access of one byte never crosses. -/
def parts (address : Address) (access : Access) : List (Address × Access) :=
  if crossesPage address access.size then bytewise address access else [(address, access)]

/-- The loop ends with the first status that is not 0. -/
def accessParts : List (Address × Access) → SparseMemoryModel →
    Except Fault (Nat × List Byte × SparseMemoryModel)
  | [], memory => .ok (0, [], memory)
  | (address, access) :: rest, memory => do
      let (status, bytes, memory) ← memory.accessPage readable address access
      if status ≠ 0 then .ok (status, bytes, memory)
      else
        let (status, more, memory) ← accessParts rest memory
        .ok (status, bytes ++ more, memory)

/-- `SparseMemoryModel::Read` and `SparseMemoryModel::Write`. -/
def access (address : Address) (access : Access) : Except Fault (Nat × List Byte × SparseMemoryModel) :=
  accessParts readable (parts address access) memory

end SparseMemoryModel

/-! ## The byte array that the memory stands for -/

/-- The byte that was last written to each address, or zero. -/
abbrev ByteArray64 := Address → Byte

namespace ByteArray64

variable (bytes : ByteArray64)

def after (address : Address) : Access → ByteArray64
  | .write data => fun other => (data[(other - address).toNat]?).getD (bytes other)
  | .read _ => bytes

def expected (address : Address) : Access → List Byte
  | .write _ => []
  | .read size => (List.range size).map fun i => bytes (address + BitVec.ofNat 64 i)

end ByteArray64

end Gensim.Memory
