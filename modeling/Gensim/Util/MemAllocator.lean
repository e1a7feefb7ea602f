import Gensim.Lib.ByteStore
import Gensim.Lib.Mappings

/-! The zone allocator: buffers with a header are cut from the front of large chunks, the most recent one is
resized in place, and a chunk is released with its last buffer.

Pointers are numbers and null is 0. A chunk is known by the address of its memory, which no other chunk has
while it exists; headers name it by that address. What `Extend` and `Shrink` assert is what their callers have checked,
so that only the assertion of `Free` is kept. -/
namespace Gensim.Util.ZoneAllocator

open ByteStore Mappings

def kChunkSize : Nat := 1024 * 1024

theorem kChunkSize_pos : 0 < kChunkSize := by decide

/-- `sizeof(AllocationHeader)`: the parent and the size, eight bytes each. -/
def headerSize : Nat := 16

def storeHeader (memory : Store) (header parent size : Nat) : Store :=
  store (store memory header 8 parent) (header + 8) 8 size

/-! ## Chunks -/

structure Chunk where
  data : Nat
  dataPtr : Nat
  allocatedPointers : Nat

/-- The data pointer as `Align` leaves it. -/
def align (pointer : Nat) : Nat := if pointer % 16 ≠ 0 then (pointer + 16) / 16 * 16 else pointer

namespace Chunk

def remainingSpace (chunk : Chunk) : Nat := kChunkSize - (chunk.dataPtr - chunk.data)

def extend (chunk : Chunk) (bytes : Nat) : Chunk := { chunk with dataPtr := align (chunk.dataPtr + bytes) }

def shrink (chunk : Chunk) (bytes : Nat) : Chunk := { chunk with dataPtr := align (chunk.dataPtr - bytes) }

/-- The buffer, the chunk and the memory with the new header. -/
def allocate (chunk : Chunk) (memory : Store) (bytes : Nat) : Option (Nat × Chunk × Store) :=
  if bytes + headerSize > chunk.remainingSpace then none
  else
    let afterHeader := chunk.extend headerSize
    let extended := afterHeader.extend bytes
    some (afterHeader.dataPtr,
      { extended with dataPtr := align extended.dataPtr, allocatedPointers := chunk.allocatedPointers + 1 },
      storeHeader memory chunk.dataPtr chunk.data bytes)

/-- A buffer has been freed. -/
def freed (chunk : Chunk) : Chunk := { chunk with allocatedPointers := chunk.allocatedPointers - 1 }

/-- There is no result where the assertion fails that the buffer is inside of the chunk. -/
def free (chunk : Chunk) (ptr : Nat) : Option Chunk :=
  if chunk.data ≤ ptr ∧ ptr < chunk.data + kChunkSize then some chunk.freed else none

end Chunk

/-! ## The allocator -/

structure Allocator where
  chunks : List Chunk := []
  activeChunk : Option Nat := none
  lastBuffer : Nat := 0
  memory : Store

def memcpy (memory : Store) (destination source size : Nat) : Store := fun address =>
  if destination ≤ address ∧ address < destination + size then memory (source + (address - destination))
  else memory address

namespace Allocator

def starts (a : Allocator) : List Nat := a.chunks.map Chunk.data

def chunk? (a : Allocator) (start : Nat) : Option Chunk := a.chunks.find? fun chunk => chunk.data = start

/-- A chunk has changed. -/
def update (a : Allocator) (chunk : Chunk) : Allocator :=
  { a with chunks := modify Chunk.data chunk.data (fun _ => chunk) a.chunks }

/-- The header of a buffer names its chunk. -/
def parentOf (a : Allocator) (buffer : Nat) : Nat := load a.memory (buffer - headerSize) 8

def sizeOf (a : Allocator) (buffer : Nat) : Nat := load a.memory (buffer - headerSize + 8) 8

def setSize (a : Allocator) (buffer size : Nat) : Allocator :=
  { a with memory := store a.memory (buffer - headerSize + 8) 8 size }

/-- The host maps the memory of the chunk, in the light of what it has mapped already. -/
def newChunk (mmap : List Nat → Nat) (a : Allocator) : Chunk × Allocator :=
  let chunk : Chunk := ⟨mmap a.starts, mmap a.starts, 0⟩
  (chunk, { a with chunks := a.chunks ++ [chunk], activeChunk := some chunk.data })

def allocateFrom (a : Allocator) (chunk : Chunk) (bytes : Nat) : Option (Nat × Allocator) :=
  (chunk.allocate a.memory bytes).map fun (buffer, chunk, memory) =>
    (buffer, { a.update chunk with memory := memory, lastBuffer := buffer })

/-- The active chunk, unless it has too little space for the bytes alone. -/
def usable (a : Allocator) (bytes : Nat) : Option Chunk :=
  (a.activeChunk.bind a.chunk?).filter fun chunk => !decide (chunk.remainingSpace < bytes)

def allocate (mmap : List Nat → Nat) (a : Allocator) (bytes : Nat) : Nat × Allocator :=
  let (chunk, a) := match a.usable bytes with
    | some chunk => (chunk, a)
    | none => a.newChunk mmap
  match a.allocateFrom chunk bytes with
  | some result => result
  | none =>
      let (chunk, a) := a.newChunk mmap
      (a.allocateFrom chunk bytes).getD (0, { a with lastBuffer := 0 })

/-- A chunk without buffers is released. -/
def release (a : Allocator) (chunk : Chunk) : Allocator :=
  if chunk.allocatedPointers = 0 then
    { a with
      chunks := a.chunks.filter fun other => other.data ≠ chunk.data
      activeChunk := if a.activeChunk = some chunk.data then none else a.activeChunk }
  else a

/-- There is no result for a header that names no chunk, or where an assertion fails. -/
def free (a : Allocator) (buffer : Nat) : Option Allocator := do
  let chunk ← a.chunk? (a.parentOf buffer)
  let chunk ← chunk.free buffer
  let a := (a.update chunk).release chunk
  some (if buffer = a.lastBuffer then { a with lastBuffer := 0 } else a)

/-- The part of `Reallocate` that resizes the most recent buffer where it is. -/
def resizeLast (a : Allocator) (buffer newSize : Nat) : Option Allocator :=
  if buffer = a.lastBuffer ∧ buffer ≠ 0 then do
    let chunk ← a.chunk? (a.parentOf buffer)
    let size := a.sizeOf buffer
    if newSize > size then
      if chunk.remainingSpace ≥ newSize - size then
        some ((a.setSize buffer newSize).update (chunk.extend (newSize - size)))
      else none
    else some ((a.setSize buffer newSize).update (chunk.shrink (size - newSize)))
  else none

/-- The part of `Reallocate` that copies a buffer to a new one. -/
def move (mmap : List Nat → Nat) (a : Allocator) (buffer newSize : Nat) : Option (Nat × Allocator) :=
  let (newBuffer, a) := a.allocate mmap newSize
  if buffer ≠ 0 then
    let copySize := if newSize > a.sizeOf buffer then a.sizeOf buffer else newSize
    (free { a with memory := memcpy a.memory newBuffer buffer copySize } buffer).map (newBuffer, ·)
  else some (newBuffer, a)

def reallocate (mmap : List Nat → Nat) (a : Allocator) (buffer newSize : Nat) : Option (Nat × Allocator) :=
  match a.resizeLast buffer newSize with
  | some a => some (buffer, a)
  | none => a.move mmap buffer newSize

/-- The host has mapped memory on a page, within the address space and apart from the chunks that exist. -/
def Fresh (a : Allocator) (base : Nat) : Prop :=
  base % 4096 = 0 ∧ 0 < base ∧ base + kChunkSize ≤ 2 ^ 64 ∧ ∀ start ∈ a.starts, Apart kChunkSize base start

end Allocator

/-! ## Clients -/

/-- A buffer with its header. -/
structure Extent where
  parent : Nat
  header : Nat
  size : Nat

namespace Extent

def buffer (e : Extent) : Nat := e.header + headerSize

def finish (e : Extent) : Nat := e.buffer + e.size

/-- The buffer does not begin where its chunk ends, as one without bytes may. -/
def Inside (e : Extent) : Prop := e.buffer < e.parent + kChunkSize

end Extent

/-- An allocator with all the buffers that its chunks have held, the newest first, and those of them that are not
freed. -/
structure Session where
  allocator : Allocator
  extents : List Extent := []
  live : List Extent := []

abbrev Size : Type := { n : Nat // n + headerSize ≤ kChunkSize }

/-- A call, with the memory that the host maps if it is asked. -/
inductive Operation
  | allocate (bytes : Size) (mmap : List Nat → Nat)
  /-- A live buffer, or null, is reallocated. -/
  | reallocate (index : Option Nat) (bytes : Size) (mmap : List Nat → Nat)
  | free (index : Nat)
  /-- The client writes to a live buffer. -/
  | write (index offset : Nat) (value : BitVec 8)

namespace Session

/-- The extent of a new buffer, which is in the active chunk. -/
def extentOf (a : Allocator) (buffer size : Nat) : Extent := ⟨a.activeChunk.getD 0, buffer - headerSize, size⟩

def resized (header size : Nat) (extents : List Extent) : List Extent :=
  extents.map fun e => if e.header = header then { e with size } else e

/-- The extents of released chunks are gone. -/
def inChunks (a : Allocator) (extents : List Extent) : List Extent := extents.filter fun e => e.parent ∈ a.starts

def withNew (session : Session) (result : Nat × Allocator) (bytes : Nat) : Session :=
  { allocator := result.2
    extents := extentOf result.2 result.1 bytes :: session.extents
    live := extentOf result.2 result.1 bytes :: session.live }

def withFreed (session : Session) (a : Allocator) (index : Nat) : Session :=
  { allocator := a, extents := inChunks a session.extents, live := session.live.eraseIdx index }

/-- The buffer of a live extent has been reallocated, where it is or to another place. -/
def withMoved (session : Session) (index : Nat) (e : Extent) (result : Nat × Allocator) (bytes : Nat) : Session :=
  if result.1 = e.buffer then
    { allocator := result.2, extents := resized e.header bytes session.extents, live := resized e.header bytes session.live }
  else (session.withNew result bytes).withFreed result.2 (index + 1)

/-- There is no result where the call has none. A call for a buffer that is not live is left out. -/
def next (session : Session) : Operation → Option Session
  | .allocate bytes mmap => some (session.withNew (session.allocator.allocate mmap bytes) bytes)
  | .reallocate none bytes mmap => (session.allocator.reallocate mmap 0 bytes).map (session.withNew · bytes)
  | .reallocate (some index) bytes mmap =>
      match session.live[index]? with
      | none => some session
      | some e => (session.allocator.reallocate mmap e.buffer bytes).map (session.withMoved index e · bytes)
  | .free index =>
      match session.live[index]? with
      | none => some session
      | some e => (session.allocator.free e.buffer).map (session.withFreed · index)
  | .write index offset value =>
      match session.live[index]? with
      | none => some session
      | some e =>
          if offset < e.size then
            some { session with
              allocator := { session.allocator with
                memory := Function.update session.allocator.memory (e.buffer + offset) value } }
          else some session

/-- The session of a client that has called nothing yet. -/
def start (memory : Store) : Session := ⟨{ memory }, [], []⟩

/-- The host maps memory when it is asked, and a buffer that is freed or reallocated begins before the end of its
chunk. -/
def Permits (session : Session) : Operation → Prop
  | .allocate _ mmap => session.allocator.Fresh (mmap session.allocator.starts)
  | .reallocate index _ mmap => session.allocator.Fresh (mmap session.allocator.starts) ∧
      ∀ k ∈ index, ∀ e ∈ session.live[k]?, e.Inside
  | .free index => ∀ e ∈ session.live[index]?, e.Inside
  | .write .. => True

/-- Each of the calls is permitted when its turn comes. -/
def PermitsAll : Session → List Operation → Prop
  | _, [] => True
  | session, op :: ops => session.Permits op ∧ ∀ after, session.next op = some after → PermitsAll after ops

/-- The live buffers are aligned and apart from each other and from all headers, a chunk exists exactly as long as
a live buffer is in it, and `Reallocate` returns a buffer and keeps the bytes that both sizes have. -/
structure Correct (session : Session) : Prop where
  aligned : ∀ e ∈ session.live, e.buffer % 16 = 0
  disjoint : session.live.Pairwise fun e f => e.finish ≤ f.buffer ∨ f.finish ≤ e.buffer
  headers : ∀ e ∈ session.live, ∀ f ∈ session.extents, e.finish ≤ f.header ∨ f.header + headerSize ≤ e.buffer
  chunks : ∀ start, start ∈ session.allocator.starts ↔ ∃ e ∈ session.live, e.parent = start
  reallocate : ∀ (index : Nat) (e : Extent) (bytes : Size) (mmap : List Nat → Nat), session.live[index]? = some e →
    session.Permits (.reallocate (some index) bytes mmap) →
      ∃ buffer a, session.allocator.reallocate mmap e.buffer bytes = some (buffer, a) ∧
        ∀ k < min e.size bytes, a.memory (buffer + k) = session.allocator.memory (e.buffer + k)

end Session

/-! ## Chunks keep their bounds -/

theorem align_spec (pointer : Nat) : align pointer % 16 = 0 ∧ pointer ≤ align pointer ∧ align pointer < pointer + 16 := by
  unfold align
  split <;> omega

theorem align_of_aligned {pointer : Nat} (hAligned : pointer % 16 = 0) : align pointer = pointer :=
  if_neg (not_not.mpr hAligned)

structure Chunk.Sound (chunk : Chunk) : Prop where
  data : chunk.data % 4096 = 0 ∧ 0 < chunk.data ∧ chunk.data + kChunkSize ≤ 2 ^ 64
  aligned : chunk.dataPtr % 16 = 0
  above : chunk.data ≤ chunk.dataPtr
  below : chunk.dataPtr ≤ chunk.data + kChunkSize

namespace Chunk.Sound

variable {chunk : Chunk} (hChunk : chunk.Sound)
include hChunk

/-- The end of a chunk is aligned, so that rounding up stays inside. -/
theorem of_align {pointer : Nat} (hAbove : chunk.data ≤ pointer) (hBelow : pointer ≤ chunk.data + kChunkSize)
    (pointers : Nat) : Chunk.Sound ⟨chunk.data, align pointer, pointers⟩ := by
  obtain ⟨hAligned, hLow, hHigh⟩ := align_spec pointer
  obtain ⟨hPage, -, -⟩ := hChunk.data
  refine ⟨hChunk.data, hAligned, by simp only; omega, ?_⟩
  simp only [kChunkSize] at hBelow ⊢
  omega

theorem extend {bytes : Nat} (hRoom : bytes ≤ chunk.remainingSpace) : (chunk.extend bytes).Sound := by
  have hAbove := hChunk.above
  have hBelow := hChunk.below
  simp only [remainingSpace] at hRoom
  exact hChunk.of_align (by omega) (by omega) _

/-- A buffer behind its header, with the data pointer behind the buffer. -/
theorem allocate (memory : Store) {bytes : Nat} (hRoom : bytes + headerSize ≤ chunk.remainingSpace) :
    ∃ dataPtr, chunk.allocate memory bytes = some (chunk.dataPtr + headerSize,
        ⟨chunk.data, dataPtr, chunk.allocatedPointers + 1⟩, storeHeader memory chunk.dataPtr chunk.data bytes) ∧
      chunk.dataPtr + headerSize + bytes ≤ dataPtr ∧ Chunk.Sound ⟨chunk.data, dataPtr, chunk.allocatedPointers + 1⟩ := by
  have hHeader : align (chunk.dataPtr + headerSize) = chunk.dataPtr + headerSize :=
    align_of_aligned (by simp [headerSize, hChunk.aligned])
  refine ⟨align (chunk.dataPtr + headerSize + bytes), ?_, (align_spec _).2.1, ?_⟩
  · rw [Chunk.allocate, if_neg (by omega)]
    simp only [Chunk.extend, hHeader, align_of_aligned (align_spec _).1]
  · have hAbove := hChunk.above
    have hBelow := hChunk.below
    simp only [remainingSpace] at hRoom
    exact hChunk.of_align (by omega) (by omega) _

end Chunk.Sound

/-! ## Extents in chunks -/

namespace Extent

/-- An extent in its chunk. -/
structure In (e : Extent) (chunk : Chunk) : Prop where
  parent : e.parent = chunk.data
  above : chunk.data ≤ e.header
  aligned : e.header % 16 = 0
  below : e.finish ≤ chunk.dataPtr

/-- The header in memory says what the extent is. -/
def Stored (e : Extent) (memory : Store) : Prop :=
  load memory e.header 8 = e.parent ∧ load memory (e.header + 8) 8 = e.size

theorem storeHeader_apply {memory : Store} {header parent size address : Nat}
    (hOutside : address < header ∨ header + headerSize ≤ address) :
    storeHeader memory header parent size address = memory address := by
  simp only [headerSize] at hOutside
  rcases hOutside with hBefore | hAfter
  · rw [storeHeader, store_apply_of_lt (by omega), store_apply_of_lt (by omega)]
  · rw [storeHeader, store_apply_of_ge (by omega), store_apply_of_ge (by omega)]

theorem stored_storeHeader {e : Extent} (hParent : e.parent < 2 ^ 64) (hSize : e.size < 2 ^ 64) (memory : Store) :
    e.Stored (storeHeader memory e.header e.parent e.size) := by
  unfold Stored storeHeader
  rw [load_store_of_disjoint (by omega), load_store_self, load_store_self, Nat.mod_eq_of_lt (by omega),
    Nat.mod_eq_of_lt (by omega)]
  exact ⟨rfl, rfl⟩

theorem Stored.congr {e : Extent} {memory memory' : Store} (hStored : e.Stored memory)
    (hSame : ∀ address, e.header ≤ address → address < e.buffer → memory' address = memory address) :
    e.Stored memory' := by
  simp only [buffer, headerSize] at hSame
  refine ⟨.trans ?_ hStored.1, .trans ?_ hStored.2⟩
  · exact load_congr fun address hLow hHigh => hSame address hLow (by omega)
  · exact load_congr fun address hLow hHigh => hSame address (by omega) (by omega)

/-- The one ends before the header of the other. -/
def Separate (e f : Extent) : Prop := e.finish ≤ f.header ∨ f.finish ≤ e.header

instance : Std.Symm Separate where
  symm _ _ := Or.symm

theorem buffer_ne_zero (e : Extent) : e.buffer ≠ 0 := by
  simp [Extent.buffer, headerSize]

end Extent

namespace Allocator

/-- What holds between the calls. -/
structure Consistent (a : Allocator) (extents live : List Extent) : Prop where
  apart : a.starts.Pairwise (Apart kChunkSize)
  sound : ∀ chunk ∈ a.chunks, chunk.Sound
  active : ∀ start, a.activeChunk = some start → start ∈ a.starts
  placed : ∀ e ∈ extents, ∃ chunk ∈ a.chunks, e.In chunk
  ordered : extents.Pairwise fun new old => new.parent = old.parent → old.finish ≤ new.header
  stored : ∀ e ∈ extents, e.Stored a.memory
  sublist : live.Sublist extents
  counted : ∀ chunk ∈ a.chunks, chunk.allocatedPointers = live.countP fun e => e.parent = chunk.data
  last : a.lastBuffer ≠ 0 → ∃ e es ls, extents = e :: es ∧ live = e :: ls ∧ e.buffer = a.lastBuffer

/-- Every chunk holds a live buffer. -/
def Used (a : Allocator) (live : List Extent) : Prop := ∀ start ∈ a.starts, ∃ e ∈ live, e.parent = start

/-- A new buffer has been allocated. -/
structure Allocated (a : Allocator) (extents live : List Extent) (bytes : Nat) (result : Nat × Allocator) : Prop where
  consistent : result.2.Consistent (Session.extentOf result.2 result.1 bytes :: extents)
    (Session.extentOf result.2 result.1 bytes :: live)
  used : result.2.Used (Session.extentOf result.2 result.1 bytes :: live)
  active : result.2.activeChunk = some (Session.extentOf result.2 result.1 bytes).parent
  buffer_eq : (Session.extentOf result.2 result.1 bytes).buffer = result.1
  frame : ∀ f ∈ extents, ∀ address, f.header ≤ address → address < f.finish →
    result.2.memory address = a.memory address

variable {a : Allocator} {extents live : List Extent} {chunk other : Chunk} {e f : Extent}

theorem mem_starts {start : Nat} : start ∈ a.starts ↔ ∃ chunk ∈ a.chunks, chunk.data = start :=
  List.mem_map

theorem starts_update (a : Allocator) (chunk : Chunk) : (a.update chunk).starts = a.starts :=
  map_start_modify fun _ _ => rfl

theorem mem_update (hMem : other ∈ (a.update chunk).chunks) :
    other = chunk ∨ other ∈ a.chunks ∧ other.data ≠ chunk.data :=
  (mem_modify hMem).imp_left fun ⟨_, _, _, hSame⟩ => hSame

namespace Consistent

variable (hA : a.Consistent extents live)
include hA

theorem chunks_apart (hChunk : chunk ∈ a.chunks) (hOther : other ∈ a.chunks) (hNe : chunk.data ≠ other.data) :
    Apart kChunkSize chunk.data other.data :=
  hA.apart.forall (mem_starts.mpr ⟨chunk, hChunk, rfl⟩) (mem_starts.mpr ⟨other, hOther, rfl⟩) hNe

theorem eq_of_data_eq (hChunk : chunk ∈ a.chunks) (hOther : other ∈ a.chunks) (hSame : chunk.data = other.data) :
    chunk = other :=
  eq_of_start_eq kChunkSize_pos hA.apart hChunk hOther hSame

theorem chunk?_eq (hChunk : chunk ∈ a.chunks) : a.chunk? chunk.data = some chunk :=
  find?_start_eq kChunkSize_pos hA.apart hChunk

/-- An extent of a chunk that is known by its parent. -/
theorem in_of_parent (hE : e ∈ extents) (hChunk : chunk ∈ a.chunks) (hParent : e.parent = chunk.data) : e.In chunk := by
  obtain ⟨other, hOther, hIn⟩ := hA.placed e hE
  rwa [hA.eq_of_data_eq hChunk hOther (hParent.symm.trans hIn.parent)]

theorem separate : extents.Pairwise Extent.Separate := by
  refine hA.ordered.imp_of_mem fun {e f} hE hF hOrder => ?_
  obtain ⟨chunk, hChunk, hIn⟩ := hA.placed e hE
  obtain ⟨other, hOther, hIn'⟩ := hA.placed f hF
  by_cases hSame : chunk.data = other.data
  · exact .inr (hOrder (hIn.parent.trans (hSame.trans hIn'.parent.symm)))
  · have hApart := hA.chunks_apart hChunk hOther hSame
    have hEndE := hIn.below.trans (hA.sound chunk hChunk).below
    have hEndF := hIn'.below.trans (hA.sound other hOther).below
    have hStartE := hIn.above
    have hStartF := hIn'.above
    simp only [Apart, Extent.Separate] at hApart ⊢
    omega

/-- A header is not inside a buffer. -/
theorem header_outside (hE : e ∈ extents) (hF : f ∈ extents) {address : Nat} (hLow : e.header ≤ address)
    (hHigh : address < e.buffer) : ¬ (f.buffer ≤ address ∧ address < f.finish) := by
  by_cases hSame : e = f
  · subst hSame
    omega
  · have hSeparate := hA.separate.forall hE hF hSame
    simp only [Extent.Separate, Extent.finish, Extent.buffer] at hSeparate hHigh ⊢
    omega

/-- Only a buffer is written to. -/
theorem withMemory (hE : e ∈ extents) {memory : Store}
    (hSame : ∀ address, ¬ (e.buffer ≤ address ∧ address < e.finish) → memory address = a.memory address) :
    Consistent { a with memory := memory } extents live := by
  refine { hA with stored := fun f hF => (hA.stored f hF).congr fun address hLow hHigh => ?_ }
  exact hSame address (hA.header_outside hF hE hLow hHigh)

theorem update_sound (hSound : chunk.Sound) : ∀ other ∈ (a.update chunk).chunks, other.Sound := by
  intro other hMem
  obtain rfl | ⟨hOther, -⟩ := mem_update hMem
  · exact hSound
  · exact hA.sound other hOther

theorem update_placed (hChunk : chunk ∈ a.chunks) {chunk' : Chunk} (hData : chunk.data = chunk'.data) (hF : f ∈ extents)
    (hIn : f.In chunk → f.In chunk') : ∃ other ∈ (a.update chunk').chunks, f.In other := by
  obtain ⟨other, hOther, hInOther⟩ := hA.placed f hF
  by_cases hSame : other.data = chunk.data
  · exact ⟨chunk', change_mem_modify hChunk hData, hIn (hA.eq_of_data_eq hOther hChunk hSame ▸ hInOther)⟩
  · exact ⟨other, mem_modify_of_ne hOther (hData ▸ hSame), hInOther⟩

section

variable (hE : e ∈ extents)
include hE

theorem parent_mem_starts : e.parent ∈ a.starts := by
  obtain ⟨chunk, hChunk, hIn⟩ := hA.placed e hE
  exact mem_starts.mpr ⟨chunk, hChunk, hIn.parent.symm⟩

theorem parentOf_buffer : a.parentOf e.buffer = e.parent := by
  simpa [parentOf, Extent.buffer] using (hA.stored e hE).1

theorem sizeOf_buffer : a.sizeOf e.buffer = e.size := by
  simpa [sizeOf, Extent.buffer] using (hA.stored e hE).2

/-- The chunk that the header of a buffer names. -/
theorem chunk?_buffer : ∃ chunk ∈ a.chunks, e.In chunk ∧ a.chunk? (a.parentOf e.buffer) = some chunk := by
  obtain ⟨chunk, hChunk, hIn⟩ := hA.placed e hE
  exact ⟨chunk, hChunk, hIn, by rw [hA.parentOf_buffer hE, hIn.parent, hA.chunk?_eq hChunk]⟩

end

/-! ### Allocate -/

variable {mmap : List Nat → Nat}

theorem newChunk (hFresh : a.Fresh (mmap a.starts)) : (a.newChunk mmap).2.Consistent extents live := by
  obtain ⟨hPage, hPos, hFits, hApart⟩ := hFresh
  have hNew : mmap a.starts ∉ a.starts := fun hMem => (hApart _ hMem).ne kChunkSize_pos rfl
  have hStarts : (a.newChunk mmap).2.starts = a.starts ++ [mmap a.starts] := by simp [Allocator.newChunk, starts]
  refine { hA with apart := ?_, sound := ?_, active := ?_, placed := ?_, counted := ?_ }
  · rw [hStarts, List.pairwise_append]
    exact ⟨hA.apart, by simp, fun start hMem other hOther =>
      List.mem_singleton.mp hOther ▸ Or.symm (hApart start hMem)⟩
  · refine List.forall_mem_append.mpr ⟨hA.sound, List.forall_mem_singleton.mpr ?_⟩
    exact ⟨⟨hPage, hPos, hFits⟩, by simp only; omega, le_rfl, Nat.le_add_right _ _⟩
  · rw [hStarts]
    intro start hActive
    obtain rfl := Option.some.inj hActive
    simp
  · intro e hE
    obtain ⟨chunk, hChunk, hIn⟩ := hA.placed e hE
    exact ⟨chunk, List.mem_append_left _ hChunk, hIn⟩
  · refine List.forall_mem_append.mpr ⟨hA.counted, List.forall_mem_singleton.mpr ?_⟩
    refine (List.countP_eq_zero.mpr fun e hE hSame => hNew ?_).symm
    rw [← (of_decide_eq_true hSame : e.parent = mmap a.starts)]
    exact hA.parent_mem_starts (hA.sublist.subset hE)

/-- A header at the data pointer changes no extent. -/
theorem storeHeader_frame (hChunk : chunk ∈ a.chunks) (hRoom : chunk.dataPtr + headerSize ≤ chunk.data + kChunkSize)
    (parent size : Nat) (hF : f ∈ extents) {address : Nat} (hLow : f.header ≤ address) (hHigh : address < f.finish) :
    storeHeader a.memory chunk.dataPtr parent size address = a.memory address := by
  refine Extent.storeHeader_apply ?_
  obtain ⟨other, hOther, hIn⟩ := hA.placed f hF
  have hBelow := hIn.below
  by_cases hSame : chunk.data = other.data
  · rw [← hA.eq_of_data_eq hChunk hOther hSame] at hBelow
    omega
  · have hApart := hA.chunks_apart hChunk hOther hSame
    have hAbove := (hA.sound chunk hChunk).above
    have hStart := hIn.above
    have hEnd := (hA.sound other hOther).below
    simp only [Apart] at hApart
    omega

theorem allocateFrom (hChunk : chunk ∈ a.chunks) (hActive : a.activeChunk = some chunk.data) {bytes : Nat}
    (hRoom : bytes + headerSize ≤ chunk.remainingSpace)
    (hUsed : ∀ start ∈ a.starts, start = chunk.data ∨ ∃ e ∈ live, e.parent = start) :
    ∃ result, a.allocateFrom chunk bytes = some result ∧ a.Allocated extents live bytes result := by
  have hSound := hA.sound chunk hChunk
  obtain ⟨dataPtr, hRun, hBehind, hSound'⟩ := hSound.allocate a.memory hRoom
  let e : Extent := ⟨chunk.data, chunk.dataPtr, bytes⟩
  let chunk' : Chunk := ⟨chunk.data, dataPtr, chunk.allocatedPointers + 1⟩
  let a' : Allocator := { a.update chunk' with
    memory := storeHeader a.memory chunk.dataPtr chunk.data bytes, lastBuffer := chunk.dataPtr + headerSize }
  have hExtent : Session.extentOf a' (chunk.dataPtr + headerSize) bytes = e := by
    simp only [Session.extentOf, a', update, hActive, Option.getD_some, Nat.add_sub_cancel, e]
  have hGrows : chunk.dataPtr ≤ chunk'.dataPtr := by
    simp only [chunk']
    omega
  have hLimits : chunk.dataPtr + headerSize ≤ chunk.data + kChunkSize ∧ bytes < 2 ^ 64 ∧ chunk.data < 2 ^ 64 := by
    have hData := hSound.data
    have hAbove := hSound.above
    simp only [Chunk.remainingSpace, kChunkSize, headerSize] at hData hRoom ⊢
    omega
  have hFrame : ∀ f ∈ extents, ∀ address, f.header ≤ address → address < f.finish → a'.memory address = a.memory address :=
    fun f hF address hLow hHigh => hA.storeHeader_frame hChunk hLimits.1 _ _ hF hLow hHigh
  refine ⟨(chunk.dataPtr + headerSize, a'), by rw [Allocator.allocateFrom, hRun]; rfl, ?_⟩
  refine ⟨?_, ?_, hExtent ▸ hActive, hExtent ▸ rfl, hFrame⟩ <;> rw [hExtent]
  · refine ⟨?_, hA.update_sound hSound', ?_, ?_, ?_, ?_, hA.sublist.cons_cons e, ?_,
      fun _ => ⟨e, extents, live, rfl, rfl, rfl⟩⟩
    · exact (a.starts_update chunk').symm ▸ hA.apart
    · exact (a.starts_update chunk').symm ▸ hA.active
    · refine List.forall_mem_cons.mpr ⟨⟨chunk', change_mem_modify hChunk rfl, rfl, hSound.above, hSound.aligned, hBehind⟩, ?_⟩
      exact fun f hF => hA.update_placed hChunk (show chunk.data = chunk'.data from rfl) hF fun hIn =>
        ⟨hIn.parent, hIn.above, hIn.aligned, hIn.below.trans hGrows⟩
    · exact List.pairwise_cons.mpr ⟨fun f hF hParent => (hA.in_of_parent hF hChunk hParent.symm).below, hA.ordered⟩
    · refine List.forall_mem_cons.mpr ⟨Extent.stored_storeHeader hLimits.2.2 hLimits.2.1 a.memory, fun f hF => ?_⟩
      refine (hA.stored f hF).congr fun address hLow hHigh => hFrame f hF address hLow ?_
      exact Nat.lt_of_lt_of_le hHigh (Nat.le_add_right _ _)
    · intro other hMem
      obtain rfl | ⟨hOther, hNe⟩ := mem_update hMem
      · simp [chunk', e, hA.counted chunk hChunk]
      · rw [hA.counted other hOther, List.countP_cons_of_neg]
        simpa using hNe.symm
  · intro start hMem
    obtain rfl | ⟨f, hF, hParent⟩ := hUsed start ((a.starts_update chunk') ▸ hMem)
    · exact ⟨e, List.mem_cons_self, rfl⟩
    · exact ⟨f, List.mem_cons_of_mem _ hF, hParent⟩

/-- Where the active chunk is too small, a new one is not. -/
theorem allocate (hUsed : a.Used live) (bytes : Size) (hFresh : a.Fresh (mmap a.starts)) :
    a.Allocated extents live bytes (a.allocate mmap bytes) := by
  obtain ⟨result, hNew, hAllocated⟩ := (hA.newChunk hFresh).allocateFrom
    (show (a.newChunk mmap).1 ∈ (a.newChunk mmap).2.chunks by simp [Allocator.newChunk]) rfl
    (show (bytes : Nat) + headerSize ≤ _ by simpa [Allocator.newChunk, Chunk.remainingSpace] using bytes.2)
    (fun start hMem => by
      rw [Allocator.newChunk, starts, List.map_append, List.mem_append, List.map_singleton, List.mem_singleton] at hMem
      exact hMem.symm.imp id (hUsed start))
  have hAllocated : a.Allocated extents live bytes result := { hAllocated with }
  rw [Allocator.allocate]
  cases hUsable : a.usable bytes with
  | none =>
    simp only [hNew]
    exact hAllocated
  | some chunk =>
    obtain ⟨hFound, -⟩ := Option.filter_eq_some_iff.mp hUsable
    obtain ⟨start, hActive, hFind⟩ := Option.bind_eq_some_iff.mp hFound
    have hChunk : chunk ∈ a.chunks := List.mem_of_find?_eq_some hFind
    have hData : chunk.data = start := by simpa using List.find?_some hFind
    by_cases hRoom : bytes + headerSize ≤ chunk.remainingSpace
    · obtain ⟨result, hFrom, hAllocated⟩ := hA.allocateFrom hChunk (hData ▸ hActive) hRoom fun start hMem =>
        .inr (hUsed start hMem)
      simp only [hFrom]
      exact hAllocated
    · have hNone : a.allocateFrom chunk bytes = none := by
        rw [Allocator.allocateFrom, Chunk.allocate, if_pos (by omega)]
        rfl
      simp only [hNone, hNew, Option.getD_some]
      exact hAllocated

/-! ### Free -/

/-- Extents are told apart by their buffers. -/
theorem eq_of_buffer_eq (hE : e ∈ extents) (hF : f ∈ extents) (hSame : e.buffer = f.buffer) : e = f := by
  by_contra hNe
  have hSeparate := hA.separate.forall hE hF hNe
  simp only [Extent.Separate, Extent.finish, Extent.buffer, headerSize] at hSeparate hSame
  omega

theorem used_iff : a.Used live ↔ ∀ chunk ∈ a.chunks, 0 < chunk.allocatedPointers := by
  have hChunk : ∀ chunk ∈ a.chunks, 0 < chunk.allocatedPointers ↔ ∃ e ∈ live, e.parent = chunk.data := by
    intro chunk hMem
    rw [hA.counted chunk hMem, List.countP_pos_iff]
    simp
  exact List.forall_mem_map.trans (forall₂_congr fun chunk hMem => (hChunk chunk hMem).symm)

theorem inChunks_eq_self : Session.inChunks a extents = extents :=
  List.filter_eq_self.mpr fun _ hE => decide_eq_true (hA.parent_mem_starts hE)

/-- The count of the chunk falls with the number of its live buffers. -/
theorem discount {index : Nat} (hIndex : live[index]? = some e) (hChunk : chunk ∈ a.chunks) (hParent : e.parent = chunk.data)
    (last : Nat) (hLast : last ≠ 0 → last = a.lastBuffer ∧ e.buffer ≠ last) :
    Consistent { a.update chunk.freed with lastBuffer := last } extents (live.eraseIdx index) := by
  obtain ⟨hLt, hAt⟩ := List.getElem?_eq_some_iff.mp hIndex
  have hPerm : (e :: live.eraseIdx index).Perm live := hAt ▸ List.getElem_cons_eraseIdx_perm hLt
  have hSound : chunk.freed.Sound := { hA.sound chunk hChunk with }
  refine ⟨?_, hA.update_sound hSound, ?_, ?_, hA.ordered, hA.stored, ?_, ?_, ?_⟩
  · exact (a.starts_update chunk.freed).symm ▸ hA.apart
  · exact (a.starts_update chunk.freed).symm ▸ hA.active
  · exact fun f hF => hA.update_placed hChunk (show chunk.data = chunk.freed.data from rfl) hF fun hIn => { hIn with }
  · exact (List.eraseIdx_sublist live index).trans hA.sublist
  · intro other hMem
    obtain rfl | ⟨hOther, hNe⟩ := mem_update hMem
    · have hCount := hA.counted chunk hChunk
      rw [← hPerm.countP_eq, List.countP_cons_of_pos (by simpa using hParent)] at hCount
      simp [Chunk.freed, hCount]
    · rw [hA.counted other hOther, ← hPerm.countP_eq, List.countP_cons_of_neg]
      simpa [hParent, Chunk.freed] using hNe.symm
  · intro hSome
    obtain ⟨rfl, hOther⟩ := hLast hSome
    obtain ⟨f, es, ls, hExtents, hLive, hBuffer⟩ := hA.last hSome
    -- The most recent buffer is another one, so it keeps its place.
    cases index with
    | zero =>
      rw [hLive] at hIndex
      obtain rfl : f = e := Option.some.inj hIndex
      exact absurd hBuffer hOther
    | succ k => exact ⟨f, es, ls.eraseIdx k, hExtents, by rw [hLive, List.eraseIdx_cons_succ], hBuffer⟩

theorem release (hChunk : chunk ∈ a.chunks) :
    (a.release chunk).Consistent (Session.inChunks (a.release chunk) extents) live := by
  by_cases hEmpty : chunk.allocatedPointers = 0
  · have hRelease : a.release chunk = { a with
        chunks := a.chunks.filter fun other => other.data ≠ chunk.data
        activeChunk := if a.activeChunk = some chunk.data then none else a.activeChunk } := if_pos hEmpty
    have hStarts {start : Nat} : start ∈ (a.release chunk).starts ↔ start ∈ a.starts ∧ start ≠ chunk.data := by
      rw [hRelease]
      simp only [starts, List.mem_map, List.mem_filter, decide_eq_true_eq]
      exact ⟨fun ⟨other, hOther, hSame⟩ => hSame ▸ ⟨⟨other, hOther.1, rfl⟩, hOther.2⟩,
        fun ⟨⟨other, hOther, hSame⟩, hNe⟩ => ⟨other, ⟨hOther, hSame ▸ hNe⟩, hSame⟩⟩
    -- No live buffer is in a chunk that is released.
    have hOthers : ∀ e ∈ live, e.parent ∈ (a.release chunk).starts := fun e hE => hStarts.mpr
      ⟨hA.parent_mem_starts (hA.sublist.subset hE),
        by simpa using List.countP_eq_zero.mp ((hA.counted chunk hChunk).symm.trans hEmpty) e hE⟩
    have hLive : live.filter (fun e => e.parent ∈ (a.release chunk).starts) = live :=
      List.filter_eq_self.mpr fun e hE => decide_eq_true (hOthers e hE)
    have hMem {other : Chunk} (hOther : other ∈ (a.release chunk).chunks) : other ∈ a.chunks :=
      (List.mem_filter.mp (hRelease ▸ hOther)).1
    refine ⟨?_, fun other hOther => hA.sound other (hMem hOther), ?_, ?_, hA.ordered.sublist List.filter_sublist,
      ?_, hLive ▸ hA.sublist.filter _, fun other hOther => hA.counted other (hMem hOther), ?_⟩
    · rw [hRelease]
      exact hA.apart.sublist (List.filter_sublist.map _)
    · intro start hActive
      rw [hRelease] at hActive
      obtain ⟨hOther, hSame⟩ := Option.ite_none_left_eq_some.mp hActive
      exact hStarts.mpr ⟨hA.active start hSame, fun hEq => hOther (hEq ▸ hSame)⟩
    · intro e hE
      obtain ⟨hOld, hParent⟩ := List.mem_filter.mp hE
      obtain ⟨other, hOther, hIn⟩ := hA.placed e hOld
      have hNe := (hStarts.mp (of_decide_eq_true hParent)).2
      refine ⟨other, ?_, hIn⟩
      rw [hRelease]
      exact List.mem_filter.mpr ⟨hOther, decide_eq_true (hIn.parent ▸ hNe)⟩
    · intro e hE
      have hStored := hA.stored e (List.mem_filter.mp hE).1
      rwa [hRelease]
    · have hLast : (a.release chunk).lastBuffer = a.lastBuffer := by rw [hRelease]
      rw [hLast]
      intro hSome
      obtain ⟨f, es, ls, rfl, rfl, hBuffer⟩ := hA.last hSome
      exact ⟨f, _, ls, List.filter_cons_of_pos (decide_eq_true (hOthers f List.mem_cons_self)), rfl, hBuffer⟩
  · have hSame : a.release chunk = a := if_neg hEmpty
    rw [hSame, hA.inChunks_eq_self]
    exact hA

/-- A buffer inside of its chunk is freed. Only a chunk that is released stops being the active one. -/
theorem free (hUsed : a.Used live) {index : Nat} (hIndex : live[index]? = some e) (hInside : e.Inside) :
    ∃ a', a.free e.buffer = some a' ∧ a'.Consistent (Session.inChunks a' extents) (live.eraseIdx index) ∧
      a'.Used (live.eraseIdx index) ∧ a'.memory = a.memory ∧
      ∀ start ∈ a'.starts, a.activeChunk = some start → a'.activeChunk = some start := by
  obtain ⟨chunk, hChunk, hIn, hFind⟩ := hA.chunk?_buffer (hA.sublist.subset (List.mem_of_getElem? hIndex))
  have hDiscount := hA.discount hIndex hChunk hIn.parent (if e.buffer = a.lastBuffer then 0 else a.lastBuffer) <| by
    split
    · exact fun hSome => absurd rfl hSome
    · exact fun _ => ⟨rfl, ‹_›⟩
  have hFreed := hDiscount.release (change_mem_modify hChunk rfl : chunk.freed ∈ (a.update chunk.freed).chunks)
  refine ⟨_, ?_, hFreed, hFreed.used_iff.mpr fun other hMem => ?_, ?_, fun start hStart hActive => ?_⟩
  · have hFree : chunk.free e.buffer = some chunk.freed :=
      if_pos ⟨hIn.above.trans (Nat.le_add_right _ _), hIn.parent ▸ hInside⟩
    rw [Allocator.free, hFind]
    change (chunk.free e.buffer).bind _ = _
    rw [hFree]
    by_cases hEmpty : chunk.freed.allocatedPointers = 0 <;> by_cases hLast : e.buffer = a.lastBuffer <;>
      simp [Allocator.release, update, hEmpty, hLast]
  -- The other chunks keep their count, and this one is left only if its count is not 0.
  · rw [Allocator.release] at hMem
    split at hMem
    case isTrue hEmpty =>
      obtain ⟨hOld, hNe⟩ := List.mem_filter.mp hMem
      obtain rfl | ⟨hOther, -⟩ := mem_update hOld
      · simp at hNe
      · exact hA.used_iff.mp hUsed other hOther
    case isFalse hEmpty =>
      obtain rfl | ⟨hOther, -⟩ := mem_update hMem
      · exact Nat.pos_of_ne_zero hEmpty
      · exact hA.used_iff.mp hUsed other hOther
  · rw [Allocator.release]
    split <;> rfl
  · obtain ⟨other, hMem, rfl⟩ := mem_starts.mp hStart
    rw [Allocator.release] at hMem ⊢
    split
    case isTrue hEmpty =>
      rw [if_pos hEmpty] at hMem
      have hNe : other.data ≠ chunk.data := of_decide_eq_true (List.mem_filter.mp hMem).2
      exact (if_neg fun hSame => hNe (Option.some.inj (hActive.symm.trans hSame))).trans hActive
    case isFalse => exact hActive

/-! ### Reallocate -/

omit hA in
/-- The newest extent changes its size, and its chunk is moved to a pointer behind it. -/
theorem resized {es ls : List Extent} (hA : a.Consistent (e :: es) (e :: ls)) (hChunk : chunk ∈ a.chunks) (hIn : e.In chunk)
    {dataPtr size : Nat} (hSound : Chunk.Sound ⟨chunk.data, dataPtr, chunk.allocatedPointers⟩)
    (hBehind : e.buffer + size ≤ dataPtr) (hSize : size < 2 ^ 64) (hLast : e.buffer = a.lastBuffer) :
    ((a.setSize e.buffer size).update ⟨chunk.data, dataPtr, chunk.allocatedPointers⟩).Consistent
      ({ e with size } :: es) ({ e with size } :: ls) := by
  let chunk' : Chunk := ⟨chunk.data, dataPtr, chunk.allocatedPointers⟩
  obtain ⟨hHead, hTail⟩ := List.pairwise_cons.mp hA.ordered
  have hMemory : (a.setSize e.buffer size).memory = store a.memory (e.header + 8) 8 size := by
    rw [setSize, Extent.buffer, Nat.add_sub_cancel]
  have hStored : ∀ f ∈ ({ e with size } :: es : List Extent), f.Stored (a.setSize e.buffer size).memory := by
    rw [hMemory]
    refine List.forall_mem_cons.mpr ⟨⟨?_, ?_⟩, fun f hF => ?_⟩
    · exact (load_store_of_disjoint (.inl le_rfl)).trans (hA.stored e List.mem_cons_self).1
    · rw [load_store_self, Nat.mod_eq_of_lt (by omega)]
    · have hSeparate := (List.pairwise_cons.mp hA.separate).1 f hF
      refine (hA.stored f (List.mem_cons_of_mem e hF)).congr fun address hLow hHigh => ?_
      simp only [Extent.Separate, Extent.finish, Extent.buffer, headerSize] at hSeparate hHigh
      exact if_neg (by omega)
  refine ⟨?_, hA.update_sound hSound, ?_, ?_, List.pairwise_cons.mpr ⟨hHead, hTail⟩, hStored, ?_, ?_, ?_⟩
  · exact (a.starts_update chunk').symm ▸ hA.apart
  · exact (a.starts_update chunk').symm ▸ hA.active
  · have hNew : Extent.In { e with size } chunk' := ⟨hIn.parent, hIn.above, hIn.aligned, hBehind⟩
    refine List.forall_mem_cons.mpr ⟨⟨chunk', change_mem_modify hChunk rfl, hNew⟩, fun f hF => ?_⟩
    refine hA.update_placed hChunk (show chunk.data = chunk'.data from rfl) (List.mem_cons_of_mem e hF) fun hInF => ?_
    have hOrder := hHead f hF (hIn.parent.trans hInF.parent.symm)
    refine ⟨hInF.parent, hInF.above, hInF.aligned, ?_⟩
    simp only [Extent.buffer] at hBehind ⊢
    omega
  · exact (List.cons_sublist_cons.mp hA.sublist).cons_cons _
  · intro other hMem
    have hSame : ∀ start, List.countP (fun f => decide (f.parent = start)) ({ e with size } :: ls) =
        List.countP (fun f => decide (f.parent = start)) (e :: ls) := fun start => by
      rw [List.countP_cons, List.countP_cons]
    rw [hSame]
    obtain rfl | ⟨hOther, -⟩ := mem_update hMem
    · exact hA.counted chunk hChunk
    · exact hA.counted other hOther
  · exact fun _ => ⟨_, es, ls, rfl, rfl, hLast⟩

/-- The buffer stays where it is; only its size in the header is written. -/
theorem resizeLast (hE : e ∈ extents) (bytes : Size) {a' : Allocator} (hRun : a.resizeLast e.buffer bytes = some a') :
    ∃ es ls, extents = e :: es ∧ live = e :: ls ∧
      a'.Consistent ({ e with size := bytes } :: es) ({ e with size := bytes } :: ls) ∧
      a'.starts = a.starts ∧ ∀ address, e.buffer ≤ address → a'.memory address = a.memory address := by
  obtain ⟨⟨hLast, hSome⟩, hBody⟩ := Option.ite_none_right_eq_some.mp hRun
  obtain ⟨found, hFind, hResize⟩ := Option.bind_eq_some_iff.mp hBody
  obtain ⟨f, es, ls, rfl, rfl, hBuffer⟩ := hA.last (hLast ▸ hSome)
  obtain rfl := hA.eq_of_buffer_eq hE List.mem_cons_self (hLast.trans hBuffer.symm)
  obtain ⟨chunk, hChunk, hIn, hFound⟩ := hA.chunk?_buffer hE
  obtain rfl := Option.some.inj (hFind.symm.trans hFound)
  have hSound := hA.sound found hChunk
  have hBelow := hIn.below
  have hAbove := hIn.above
  have hSize : (bytes : Nat) < 2 ^ 64 := by
    have := bytes.2
    simp only [kChunkSize] at this
    omega
  have hFrame : ∀ address, e.buffer ≤ address → (a.setSize e.buffer bytes).memory address = a.memory address := by
    intro address hLow
    refine store_apply_of_ge ?_
    simp only [Extent.buffer, headerSize] at hLow ⊢
    omega
  simp only [hA.sizeOf_buffer hE, Extent.finish] at hResize hBelow
  refine ⟨es, ls, rfl, rfl, ?_⟩
  split at hResize
  case isTrue hGrow =>
    obtain ⟨hRoom, hSame⟩ := Option.ite_none_right_eq_some.mp hResize
    obtain rfl := Option.some.inj hSame
    have hBehind := (align_spec (found.dataPtr + (bytes - e.size))).2.1
    exact ⟨hA.resized hChunk hIn (hSound.extend hRoom) (by omega) hSize hLast, starts_update _ _, hFrame⟩
  case isFalse hShrink =>
    obtain rfl := Option.some.inj hResize
    have hBehind := (align_spec (found.dataPtr - (e.size - bytes))).2.1
    have hInside : found.data ≤ found.dataPtr - (e.size - bytes) := by
      simp only [Extent.buffer] at hBelow
      omega
    have hShrunk := hSound.of_align hInside ((Nat.sub_le _ _).trans hSound.below) found.allocatedPointers
    exact ⟨hA.resized hChunk hIn hShrunk (by omega) hSize hLast, starts_update _ _, hFrame⟩

/-- A buffer is copied to a new one and freed. -/
theorem move (hUsed : a.Used live) {index : Nat} (hIndex : live[index]? = some e) (hInside : e.Inside) (bytes : Size)
    (hFresh : a.Fresh (mmap a.starts)) :
    ∃ buffer a', a.move mmap e.buffer bytes = some (buffer, a') ∧
      a'.Consistent (Session.inChunks a' (Session.extentOf a' buffer bytes :: extents))
        (Session.extentOf a' buffer bytes :: live.eraseIdx index) ∧
      a'.Used (Session.extentOf a' buffer bytes :: live.eraseIdx index) ∧ buffer ≠ e.buffer ∧
      ∀ k, k < e.size → k < bytes → a'.memory (buffer + k) = a.memory (e.buffer + k) := by
  have hNew := hA.allocate hUsed bytes hFresh
  have hE : e ∈ extents := hA.sublist.subset (List.mem_of_getElem? hIndex)
  have hSize := hNew.consistent.sizeOf_buffer (List.mem_cons_of_mem _ hE)
  rw [Allocator.move]
  generalize a.allocate mmap bytes = result at *
  obtain ⟨new, b⟩ := result
  let f := Session.extentOf b new bytes
  let copySize := if (bytes : Nat) > e.size then e.size else (bytes : Nat)
  let c : Allocator := { b with memory := memcpy b.memory new e.buffer copySize }
  have hC : c.Consistent (f :: extents) (f :: live) := by
    refine hNew.consistent.withMemory List.mem_cons_self fun address hOutside => if_neg fun hCopied => hOutside ?_
    rw [Extent.finish, hNew.buffer_eq]
    have hCopy : copySize ≤ bytes := by
      simp only [copySize]
      split <;> omega
    exact ⟨hCopied.1, hCopied.2.trans_le (Nat.add_le_add_left hCopy new)⟩
  obtain ⟨a', hFree, hFreed, hUsed', hMemory, hStays⟩ :=
    hC.free hNew.used (show (f :: live)[index + 1]? = some e from hIndex) hInside
  rw [List.eraseIdx_cons_succ] at hFreed hUsed'
  -- The chunk of the new buffer is not the one that is released.
  have hActive := hStays f.parent (hFreed.parent_mem_starts (hFreed.sublist.subset List.mem_cons_self)) hNew.active
  have hSame : Session.extentOf a' new bytes = f := by
    rw [Session.extentOf, hActive]
    rfl
  refine ⟨new, a', ?_, hSame ▸ hFreed, hSame ▸ hUsed', ?_, fun k hOld hBytes => ?_⟩
  · simp only [if_pos e.buffer_ne_zero, hSize]
    rw [hFree]
    rfl
  · have hSeparate := (List.pairwise_cons.mp hNew.consistent.separate).1 e hE
    have hBuffer := hNew.buffer_eq
    simp only [Extent.Separate, Extent.finish, Extent.buffer, headerSize] at hSeparate hBuffer ⊢
    omega
  · have hWithin : k < copySize := by
      simp only [copySize]
      split <;> omega
    rw [hMemory]
    change memcpy b.memory new e.buffer copySize (new + k) = _
    rw [memcpy, if_pos (by omega), Nat.add_sub_cancel_left]
    refine hNew.frame e hE _ ?_ ?_ <;> simp only [Extent.finish, Extent.buffer] <;> omega

end Consistent

end Allocator

/-! ## Every sequence of calls -/

namespace Session

variable {session : Session}

def Consistent (session : Session) : Prop :=
  session.allocator.Consistent session.extents session.live ∧ session.allocator.Used session.live

theorem reallocate_null (mmap : List Nat → Nat) (a : Allocator) (bytes : Nat) :
    a.reallocate mmap 0 bytes = some (a.allocate mmap bytes) := by
  have hNone : a.resizeLast 0 bytes = none := if_neg fun hLast => hLast.2 rfl
  simp [Allocator.reallocate, hNone, Allocator.move]

theorem consistent_withNew (hSession : session.Consistent) {mmap : List Nat → Nat} (bytes : Size)
    (hFresh : session.allocator.Fresh (mmap session.allocator.starts)) :
    (session.withNew (session.allocator.allocate mmap bytes) bytes).Consistent :=
  have hNew := hSession.1.allocate hSession.2 bytes hFresh
  ⟨hNew.consistent, hNew.used⟩

/-- No other extent has the header of the newest one. -/
theorem resized_cons {a : Allocator} {e : Extent} {es live : List Extent} (hA : a.Consistent (e :: es) live) (size : Nat)
    {others : List Extent} (hOthers : ∀ f ∈ others, f ∈ es) :
    resized e.header size (e :: others) = { e with size } :: others := by
  have hSame : ∀ f ∈ others, (if f.header = e.header then { f with size } else f) = f := by
    intro f hF
    have hSeparate := (List.pairwise_cons.mp hA.separate).1 f (hOthers f hF)
    simp only [Extent.Separate, Extent.finish, Extent.buffer, headerSize] at hSeparate
    exact if_neg (by omega)
  rw [resized, List.map_cons, if_pos rfl, List.map_congr_left hSame, List.map_id']

section

variable (hSession : session.Consistent)
include hSession

/-- What a call of `Reallocate` does: the buffer has its new size and holds the bytes of the old one. -/
theorem consistent_reallocate {index : Nat} {e : Extent} {bytes : Size} {mmap : List Nat → Nat}
    (hIndex : session.live[index]? = some e) (hPermits : session.Permits (.reallocate (some index) bytes mmap)) :
    ∃ buffer a, session.allocator.reallocate mmap e.buffer bytes = some (buffer, a) ∧
      (session.withMoved index e (buffer, a) bytes).Consistent ∧
      ∀ k, k < e.size → k < bytes → a.memory (buffer + k) = session.allocator.memory (e.buffer + k) := by
  have hE := hSession.1.sublist.subset (List.mem_of_getElem? hIndex)
  rw [Allocator.reallocate]
  cases hResize : session.allocator.resizeLast e.buffer bytes with
  | some b =>
    obtain ⟨es, ls, hExtents, hLive, hB, hStarts, hFrame⟩ := hSession.1.resizeLast hE bytes hResize
    refine ⟨e.buffer, b, rfl, ?_, fun k _ _ => hFrame _ (Nat.le_add_right _ _)⟩
    obtain ⟨a, extents, live⟩ := session
    obtain rfl : extents = e :: es := hExtents
    obtain rfl : live = e :: ls := hLive
    have hSub := (List.cons_sublist_cons.mp hSession.1.sublist).subset
    rw [withMoved, if_pos rfl, resized_cons hSession.1 bytes fun f hF => hF,
      resized_cons hSession.1 bytes fun f hF => hSub hF]
    refine ⟨hB, fun start hMem => ?_⟩
    obtain ⟨f, hF, hParent⟩ := hSession.2 start (hStarts ▸ hMem)
    obtain rfl | hRest := List.mem_cons.mp hF
    · exact ⟨_, List.mem_cons_self, hParent⟩
    · exact ⟨f, List.mem_cons_of_mem _ hRest, hParent⟩
  | none =>
    obtain ⟨buffer, a, hMove, hA, hUsed, hNe, hBytes⟩ :=
      hSession.1.move hSession.2 hIndex (hPermits.2 index rfl e hIndex) bytes hPermits.1
    refine ⟨buffer, a, hMove, ?_, hBytes⟩
    rw [withMoved, if_neg hNe]
    exact ⟨hA, hUsed⟩

/-- A call that is permitted returns. -/
theorem consistent_next {op : Operation} (hPermits : session.Permits op) :
    ∃ after, session.next op = some after ∧ after.Consistent := by
  cases op with
  | allocate bytes mmap => exact ⟨_, rfl, consistent_withNew hSession bytes hPermits⟩
  | reallocate index bytes mmap =>
    cases index with
    | none =>
      rw [next, reallocate_null]
      exact ⟨_, rfl, consistent_withNew hSession bytes hPermits.1⟩
    | some index =>
      rw [next]
      split
      case h_1 => exact ⟨session, rfl, hSession⟩
      case h_2 e hIndex =>
        obtain ⟨buffer, a, hRun, hAfter, -⟩ := consistent_reallocate hSession hIndex hPermits
        exact ⟨_, by rw [hRun]; rfl, hAfter⟩
  | free index =>
    rw [next]
    split
    case h_1 => exact ⟨session, rfl, hSession⟩
    case h_2 e hIndex =>
      obtain ⟨a, hFree, hA, hUsed, -⟩ := hSession.1.free hSession.2 hIndex (hPermits e hIndex)
      exact ⟨_, by rw [hFree]; rfl, hA, hUsed⟩
  | write index offset value =>
    rw [next]
    split
    case h_1 => exact ⟨session, rfl, hSession⟩
    case h_2 e hIndex =>
      split
      case isTrue hOffset =>
        have hE := hSession.1.sublist.subset (List.mem_of_getElem? hIndex)
        refine ⟨_, rfl, hSession.1.withMemory hE fun address hOutside => Function.update_of_ne ?_ _ _, hSession.2⟩
        rintro rfl
        exact hOutside ⟨Nat.le_add_right _ _, Nat.add_lt_add_left hOffset _⟩
      case isFalse => exact ⟨session, rfl, hSession⟩

theorem consistent_run {ops : List Operation} (hPermits : session.PermitsAll ops) :
    ∃ after, ops.foldlM next session = some after ∧ after.Consistent := by
  induction ops generalizing session with
  | nil => exact ⟨session, rfl, hSession⟩
  | cons op ops ih =>
    obtain ⟨middle, hNext, hMiddle⟩ := consistent_next hSession hPermits.1
    rw [List.foldlM_cons, hNext]
    exact ih hMiddle (hPermits.2 middle hNext)

end

theorem consistent_start (memory : Store) : (start memory).Consistent :=
  ⟨⟨.nil, by simp [start], by simp [start], by simp [start], .nil, by simp [start], .slnil, by simp [start],
    by simp [start]⟩, by simp [start, Allocator.Used, Allocator.starts]⟩

theorem Consistent.correct (hSession : session.Consistent) : session.Correct := by
  obtain ⟨hA, hUsed⟩ := hSession
  have hMem : ∀ e ∈ session.live, e ∈ session.extents := fun e hE => hA.sublist.subset hE
  refine ⟨fun e hE => ?_, ?_, fun e hE f hF => ?_, fun start => ⟨hUsed start, ?_⟩, ?_⟩
  · obtain ⟨chunk, -, hIn⟩ := hA.placed e (hMem e hE)
    simp [Extent.buffer, headerSize, hIn.aligned]
  · refine (hA.separate.sublist hA.sublist).imp fun {e f} hSeparate => ?_
    simp only [Extent.Separate, Extent.finish, Extent.buffer] at hSeparate ⊢
    omega
  · by_cases hSame : e = f
    · exact .inr (hSame ▸ le_rfl)
    · have hSeparate := hA.separate.forall (hMem e hE) hF hSame
      simp only [Extent.Separate, Extent.finish, Extent.buffer] at hSeparate ⊢
      omega
  · rintro ⟨e, hE, rfl⟩
    exact hA.parent_mem_starts (hMem e hE)
  · intro index e bytes mmap hIndex hPermits
    obtain ⟨buffer, a, hRun, -, hBytes⟩ := consistent_reallocate ⟨hA, hUsed⟩ hIndex hPermits
    exact ⟨buffer, a, hRun, fun k hK => hBytes k (lt_min_iff.mp hK).1 (lt_min_iff.mp hK).2⟩

/-- Calls that are permitted return, and what they return is as it should be. -/
theorem correct_run (memory : Store) (ops : List Operation) (hPermits : (start memory).PermitsAll ops) :
    ∃ session, ops.foldlM next (start memory) = some session ∧ session.Correct := by
  obtain ⟨session, hRun, hSession⟩ := consistent_run (consistent_start memory) hPermits
  exact ⟨session, hRun, hSession.correct⟩

/-- The host maps the first chunk behind the chunk at 0. -/
theorem correct_run_freed : ∃ session, [Operation.allocate ⟨10, by decide⟩ fun _ => kChunkSize, .free 0].foldlM next
    (start fun _ => 0) = some session ∧ session.Correct := by
  refine correct_run (fun _ => 0) _ ⟨⟨by decide, by decide, by decide, by simp [start, Allocator.starts]⟩, ?_⟩
  intro after hNext
  obtain rfl := Option.some.inj hNext
  refine ⟨fun e hE => ?_, fun _ _ => trivial⟩
  obtain rfl := Option.some.inj hE
  unfold Extent.Inside
  decide

/-- A buffer of no bytes at the very end of a chunk cannot be freed. -/
theorem free_at_end_aborts : [Operation.allocate ⟨kChunkSize - 32, by decide⟩ fun _ => kChunkSize,
    .allocate ⟨0, by decide⟩ fun _ => 2 * kChunkSize, .free 0].foldlM next (start fun _ => 0) = none := by
  rfl

end Session

end Gensim.Util.ZoneAllocator
