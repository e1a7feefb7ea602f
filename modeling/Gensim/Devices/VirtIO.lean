import Gensim.Devices.VirtRing
import Gensim.Lib.ByteStore
import Mathlib.Tactic

/-! The queues of a VirtIO device, and the block device that serves their requests. The rings, the headers of the
requests and their buffers are bytes of one memory. -/
namespace Gensim.Devices

open ByteStore

structure VirtRingDesc where
  paddr : BitVec 64
  len : BitVec 32
  flags : BitVec 16
  next : BitVec 16

namespace VirtRingDesc

def hasNext (descr : VirtRingDesc) : Bool := descr.flags &&& 1 = 1

def isWrite (descr : VirtRingDesc) : Bool := descr.flags &&& 2 ≠ 0

end VirtRingDesc

namespace VirtRing

variable (ring : VirtRing) (memory : Store)

/-- The descriptor at an index, which is not compared with the size of the table. -/
def getDescriptor (index : BitVec 16) : VirtRingDesc :=
  let address := ring.descriptors.toNat + 16 * index.toNat
  ⟨.ofNat 64 (load memory address 8), .ofNat 32 (load memory (address + 8) 4),
    .ofNat 16 (load memory (address + 12) 2), .ofNat 16 (load memory (address + 14) 2)⟩

def availIdx : BitVec 16 := .ofNat 16 (load memory (ring.avail.toNat + 2) 2)

def availRing (slot : Nat) : BitVec 16 := .ofNat 16 (load memory (ring.avail.toNat + 4 + 2 * slot) 2)

def usedIdx : BitVec 16 := .ofNat 16 (load memory (ring.used.toNat + 2) 2)

/-- The `id` in a slot of the used ring. -/
def usedId (slot : Nat) : BitVec 32 := .ofNat 32 (load memory (ring.used.toNat + 4 + 8 * slot) 4)

end VirtRing

structure VirtQueue where
  ring : VirtRing
  size : Nat
  lastAvailIdx : BitVec 16

namespace VirtQueue

variable (queue : VirtQueue) (memory : Store)

def numHeads : BitVec 16 := queue.ring.availIdx memory - queue.lastAvailIdx

/-- The queue after its oldest head was popped. -/
def popped : VirtQueue := { queue with lastAvailIdx := queue.lastAvailIdx + 1 }

def oldest : BitVec 16 := queue.ring.availRing memory (queue.lastAvailIdx.toNat % queue.size)

/-- There is no result where an assertion fails, and no head when there are none left. -/
def popDescriptorChainHead : Option (Option (BitVec 16 × VirtQueue)) :=
  if (queue.numHeads memory).toNat < queue.size then
    if queue.numHeads memory = 0 then some none
    else if (queue.oldest memory).toNat < queue.size then some (some (queue.oldest memory, queue.popped))
    else none
  else none

/-- The memory after an entry was written to the used ring. -/
def push (elemIdx : BitVec 16) (len : BitVec 32) : Store :=
  let entry := queue.ring.used.toNat + 4 + 8 * ((queue.ring.usedIdx memory).toNat % queue.size)
  let memory := store (store memory entry 4 elemIdx.toNat) (entry + 4) 4 len.toNat
  store memory (queue.ring.used.toNat + 2) 2 (queue.ring.usedIdx memory + 1).toNat

end VirtQueue

/-- A buffer of the guest, at its address in the memory of the host. -/
structure Buffer where
  data : Nat
  size : BitVec 32

/-- The bytes of a buffer. The status is written to a buffer without bytes as well. -/
def Buffer.Covers (buffer : Buffer) (address : Nat) : Prop :=
  buffer.data ≤ address ∧ address < buffer.data + max 1 buffer.size.toNat

structure VirtIOQueueEvent where
  readBuffers : List Buffer
  writeBuffers : List Buffer
  index : BitVec 16

namespace VirtIOQueueEvent

variable (event : VirtIOQueueEvent)

def addBuffer (isWrite : Bool) (buffer : Buffer) : VirtIOQueueEvent :=
  if isWrite then { event with writeBuffers := event.writeBuffers ++ [buffer] }
  else { event with readBuffers := event.readBuffers ++ [buffer] }

/-- The length that is pushed with the head, by the type of the request. There is none where an assertion
on the number of buffers fails. -/
def responseSize (type : BitVec 32) : Option (BitVec 32) :=
  if type = 0 then
    match event.writeBuffers with
    | [data, _] => some (data.size + 1)
    | _ => none
  else if type = 1 then if event.readBuffers.length = 2 then some 1 else none
  else if type = 8 then if event.writeBuffers.length = 2 then some 8 else none
  else some 1

end VirtIOQueueEvent

/-- A block device in its machine: where the regions of the guest are in memory, and what serving a request changes
in the state of the device and in memory. It writes to the write buffers of the request only. -/
structure VirtIOBlock (σ : Type) where
  lockRegion : BitVec 64 → BitVec 32 → Option Nat
  serve : σ × Store → VirtIOQueueEvent → σ × Store
  serve_apart : ∀ st event address, (∀ buffer ∈ event.writeBuffers, ¬ buffer.Covers address) →
    (serve st event).2 address = st.2 address

namespace VirtIOBlock

variable {σ : Type} (block : VirtIOBlock σ)

/-- The size of `virtio_blk_req`. -/
def headerSize : Nat := 16

/-- The `type` of a `virtio_blk_req`. -/
def requestType (memory : Store) (header : Buffer) : BitVec 32 := .ofNat 32 (load memory header.data 4)

/-- There is no result where an assertion fails. -/
def processEvent (queue : VirtQueue) (st : σ × Store) (event : VirtIOQueueEvent) : Option (σ × Store) :=
  match event.readBuffers, event.writeBuffers with
  | [], [] => some st
  | [], _ :: _ => none
  | _ :: _, [] => none
  | header :: _, _ :: _ =>
      if header.size.toNat < headerSize then some st
      else
        (event.responseSize (requestType st.2 header)).map fun size =>
          let (s, memory) := block.serve st event
          (s, queue.push memory event.index size)

/-- The loop over the descriptors of a chain, for at most so many of them. There is no result where a region cannot
be locked. -/
def followChain (ring : VirtRing) (memory : Store) : Nat → BitVec 16 → VirtIOQueueEvent → Option VirtIOQueueEvent
  | 0, _, _ => none
  | steps + 1, index, event => do
      let descr := ring.getDescriptor memory index
      let data ← block.lockRegion descr.paddr descr.len
      let event := event.addBuffer descr.isWrite ⟨data, descr.len⟩
      if descr.hasNext then followChain ring memory steps descr.next event else some event

/-- The loop over the heads, for at most so many of them and so many descriptors in each chain, with the
heads in the order in which they were popped. -/
def processQueue (steps : Nat) : Nat → σ × Store → VirtQueue → Option (List (BitVec 16) × (σ × Store) × VirtQueue)
  | 0, _, _ => none
  | rounds + 1, st, queue =>
      match queue.popDescriptorChainHead st.2 with
      | none => none
      | some none => some ([], st, queue)
      | some (some (head, queue)) => do
          let event ← block.followChain queue.ring st.2 steps head ⟨[], [], head⟩
          let st ← block.processEvent queue st event
          let (heads, st, queue) ← processQueue steps rounds st queue
          some (head :: heads, st, queue)

end VirtIOBlock

/-! ### Requests -/

namespace VirtQueue

variable (queue : VirtQueue) (memory : Store)

/-- The heads that the guest has made available, from the oldest. -/
def outstanding : List (BitVec 16) :=
  (List.range (queue.numHeads memory).toNat).map fun k =>
    queue.ring.availRing memory ((queue.lastAvailIdx + BitVec.ofNat 16 k).toNat % queue.size)

/-- The slot of the used ring that is so many ahead. -/
def usedSlot (k : Nat) : Nat := (queue.ring.usedIdx memory + BitVec.ofNat 16 k).toNat % queue.size

def InAvail (address : Nat) : Prop :=
  queue.ring.avail.toNat ≤ address ∧ address < queue.ring.avail.toNat + 4 + 2 * queue.size

def InUsed (address : Nat) : Prop :=
  queue.ring.used.toNat ≤ address ∧ address < queue.ring.used.toNat + 4 + 8 * queue.size

end VirtQueue

section Requests

variable {σ : Type} (block : VirtIOBlock σ) (ring : VirtRing) (queue : VirtQueue)

/-- The descriptors from an index to one that is the last, each with its buffer. -/
inductive Chain (memory : Store) : BitVec 16 → List (VirtRingDesc × Buffer) → Prop
  | last {index : BitVec 16} {descr : VirtRingDesc} {data : Nat} :
      ring.getDescriptor memory index = descr → block.lockRegion descr.paddr descr.len = some data →
      descr.hasNext = false → Chain memory index [(descr, ⟨data, descr.len⟩)]
  | next {index : BitVec 16} {descr : VirtRingDesc} {data : Nat} {rest : List (VirtRingDesc × Buffer)} :
      ring.getDescriptor memory index = descr → block.lockRegion descr.paddr descr.len = some data →
      descr.hasNext = true → Chain memory descr.next rest →
      Chain memory index ((descr, ⟨data, descr.len⟩) :: rest)

def addBuffers (event : VirtIOQueueEvent) (chain : List (VirtRingDesc × Buffer)) : VirtIOQueueEvent :=
  chain.foldl (fun event entry => event.addBuffer entry.1.isWrite entry.2) event

/-- The buffers of a chain. -/
def requestOf (head : BitVec 16) (chain : List (VirtRingDesc × Buffer)) : VirtIOQueueEvent :=
  addBuffers ⟨[], [], head⟩ chain

/-- The request has a whole header, a place for the status, and the number of buffers that its type asks for. -/
def IsWhole (memory : Store) (event : VirtIOQueueEvent) : Prop :=
  ∃ header ∈ event.readBuffers.head?, VirtIOBlock.headerSize ≤ header.size.toNat ∧ event.writeBuffers ≠ [] ∧
    (event.responseSize (VirtIOBlock.requestType memory header)).isSome

/-- Each of the heads is in the table and starts a chain that is a request when its turn comes. -/
def CanBeServed : σ × Store → List (BitVec 16) → Prop
  | _, [] => True
  | st, head :: heads => head.toNat < queue.size ∧ ∃ chain st', Chain block queue.ring st.2 head chain ∧
      IsWhole st.2 (requestOf head chain) ∧ block.processEvent queue st (requestOf head chain) = some st' ∧
      CanBeServed st' heads

/-- The write buffers of a request have no byte of the rings. -/
def VirtIOQueueEvent.Apart (event : VirtIOQueueEvent) : Prop :=
  ∀ buffer ∈ event.writeBuffers, ∀ address, queue.InAvail address ∨ queue.InUsed address → ¬ buffer.Covers address

/-- No request of the heads overlaps the rings when its turn comes. -/
def RequestsApart : σ × Store → List (BitVec 16) → Prop
  | _, [] => True
  | st, head :: heads => ∀ chain, Chain block queue.ring st.2 head chain →
      (requestOf head chain).Apart queue ∧
        ∀ st', block.processEvent queue st (requestOf head chain) = some st' → RequestsApart st' heads

/-- The loop ends, pops the outstanding heads in the order of the ring, and returns each of them in the
next slot of the used ring. -/
def ProcessesAll (st : σ × Store) : Prop :=
  ∃ steps rounds heads st' queue', block.processQueue steps rounds st queue = some (heads, st', queue') ∧
    heads = queue.outstanding st.2 ∧
    queue.ring.usedIdx st'.2 = queue.ring.usedIdx st.2 + BitVec.ofNat 16 heads.length ∧
    ∀ (k : Nat) (hk : k < heads.length), queue.ring.usedId st'.2 (queue.usedSlot st.2 k) = heads[k].setWidth 32

end Requests

/-! ### Chains -/

section Chains

variable {σ : Type} {block : VirtIOBlock σ} {ring : VirtRing} {memory : Store} {index : BitVec 16}
  {chain : List (VirtRingDesc × Buffer)}

theorem followChain_of_chain (hChain : Chain block ring memory index chain) {steps : Nat}
    (hSteps : chain.length ≤ steps) (event : VirtIOQueueEvent) :
    block.followChain ring memory steps index event = some (addBuffers event chain) := by
  induction hChain generalizing steps event with
  | last hDescr hLock hLast =>
    obtain ⟨steps, rfl⟩ := Nat.exists_eq_succ_of_ne_zero (Nat.lt_of_lt_of_le (Nat.succ_pos _) hSteps).ne'
    rw [VirtIOBlock.followChain, hDescr, hLock, hLast]
    rfl
  | next hDescr hLock hNext _ ih =>
    obtain ⟨steps, rfl⟩ := Nat.exists_eq_succ_of_ne_zero (Nat.lt_of_lt_of_le (Nat.succ_pos _) hSteps).ne'
    rw [VirtIOBlock.followChain, hDescr, hLock, hNext]
    exact ih (Nat.le_of_succ_le_succ hSteps) _

theorem chain_of_followChain {steps : Nat} {event result : VirtIOQueueEvent}
    (hFollow : block.followChain ring memory steps index event = some result) :
    ∃ chain, Chain block ring memory index chain ∧ result = addBuffers event chain := by
  induction steps generalizing index event with
  | zero => cases hFollow
  | succ steps ih =>
    rw [VirtIOBlock.followChain] at hFollow
    obtain ⟨data, hLock, hFollow⟩ := Option.bind_eq_some_iff.mp hFollow
    cases hNext : (ring.getDescriptor memory index).hasNext with
    | true =>
      rw [hNext, if_pos rfl] at hFollow
      obtain ⟨rest, hRest, rfl⟩ := ih hFollow
      exact ⟨_, .next rfl hLock hNext hRest, rfl⟩
    | false =>
      rw [hNext, if_neg (by decide), Option.some_inj] at hFollow
      exact ⟨_, .last rfl hLock hNext, hFollow.symm⟩

theorem canBeServed_popped {queue : VirtQueue} {st : σ × Store} {heads : List (BitVec 16)} :
    CanBeServed block queue.popped st heads ↔ CanBeServed block queue st heads := by
  induction heads generalizing st with
  | nil => rfl
  | cons head heads ih =>
    simp only [CanBeServed, ih]
    rfl

theorem requestsApart_popped {queue : VirtQueue} {st : σ × Store} {heads : List (BitVec 16)} :
    RequestsApart block queue.popped st heads ↔ RequestsApart block queue st heads := by
  induction heads generalizing st with
  | nil => rfl
  | cons head heads ih =>
    simp only [RequestsApart, ih]
    rfl

theorem index_addBuffers (event : VirtIOQueueEvent) : (addBuffers event chain).index = event.index := by
  induction chain generalizing event with
  | nil => rfl
  | cons entry chain ih =>
    refine (ih _).trans ?_
    cases hWrite : entry.1.isWrite <;> simp [VirtIOQueueEvent.addBuffer, hWrite]

end Chains

/-! ### Rings -/

/-- The index of a used ring and the ids in its slots. -/
structure UsedRing where
  idx : BitVec 16
  ids : Nat → BitVec 32

namespace UsedRing

variable {used : UsedRing} {size : Nat}

def push (used : UsedRing) (size : Nat) (elemIdx : BitVec 16) : UsedRing :=
  ⟨used.idx + 1, Function.update used.ids (used.idx.toNat % size) (elemIdx.setWidth 32)⟩

def pushAll (used : UsedRing) (size : Nat) (returned : List (BitVec 16)) : UsedRing :=
  returned.foldl (fun used elemIdx => used.push size elemIdx) used

def slot (used : UsedRing) (size k : Nat) : Nat := (used.idx + BitVec.ofNat 16 k).toNat % size

theorem pushAll_append_singleton (returned : List (BitVec 16)) (elemIdx : BitVec 16) :
    used.pushAll size (returned ++ [elemIdx]) = (used.pushAll size returned).push size elemIdx := by
  rw [pushAll, List.foldl_append]
  rfl

theorem idx_pushAll (returned : List (BitVec 16)) :
    (used.pushAll size returned).idx = used.idx + BitVec.ofNat 16 returned.length := by
  induction returned using List.reverseRecOn with
  | nil => simp [pushAll]
  | append_singleton returned elemIdx ih =>
    rw [pushAll_append_singleton, push, ih, List.length_append, BitVec.ofNat_add, BitVec.add_assoc]
    rfl

/-- A slot that was written has the last id that was written to it. -/
theorem ids_pushAll (returned : List (BitVec 16)) {k : Nat} (hk : k < returned.length) :
    ∃ k', ∃ hk' : k' < returned.length, used.slot size k' = used.slot size k ∧
      (used.pushAll size returned).ids (used.slot size k) = returned[k'].setWidth 32 := by
  induction returned using List.reverseRecOn with
  | nil => cases hk
  | append_singleton returned elemIdx ih =>
    have hIds (slot : Nat) : (used.pushAll size (returned ++ [elemIdx])).ids slot =
        if slot = used.slot size returned.length then elemIdx.setWidth 32
        else (used.pushAll size returned).ids slot := by
      rw [pushAll_append_singleton, push, idx_pushAll]
      exact Function.update_apply _ _ _ _
    rw [hIds]
    rw [List.length_append, List.length_singleton] at hk
    split
    · rename_i hSame
      refine ⟨returned.length, by simp, hSame.symm, ?_⟩
      rw [List.getElem_append_right le_rfl]
      simp
    · rename_i hOther
      have hLt : k < returned.length := by
        rcases Nat.lt_succ_iff_lt_or_eq.mp hk with hLt | rfl
        · exact hLt
        · exact absurd rfl hOther
      obtain ⟨k', hk', hSame, hId⟩ := ih hLt
      refine ⟨k', by simp; omega, hSame, ?_⟩
      rw [hId, List.getElem_append_left hk']

/-- Each id is in its slot exactly if the ids for one slot are the same. -/
theorem ids_pushAll_iff (used : UsedRing) (size : Nat) (heads : List (BitVec 16)) :
    (∀ (k : Nat) (hk : k < heads.length),
        (used.pushAll size heads).ids (used.slot size k) = heads[k].setWidth 32) ↔
      ∀ (k k' : Nat) (hk : k < heads.length) (hk' : k' < heads.length),
        used.slot size k = used.slot size k' → heads[k] = heads[k'] := by
  constructor
  · intro hIds k k' hk hk' hSame
    have hId := (hIds k hk).symm
    rw [hSame, hIds k' hk'] at hId
    bv_omega
  · intro hSame k hk
    obtain ⟨k', hk', hSlot, hId⟩ := used.ids_pushAll heads hk
    rw [hId, hSame k' k hk' hk hSlot]

/-- Slots do not coincide before the ring is full if its size divides the range of the index. -/
theorem slot_injective (hSize : size ∣ 2 ^ 16) {k k' : Nat} (hk : k < size) (hk' : k' < size)
    (hSame : used.slot size k = used.slot size k') : k = k' := by
  have hSlot (k : Nat) : used.slot size k = (used.idx.toNat + k) % size := by
    rw [slot, BitVec.toNat_add, Nat.mod_mod_of_dvd _ hSize, BitVec.toNat_ofNat, Nat.add_mod,
      Nat.mod_mod_of_dvd _ hSize, ← Nat.add_mod]
  rw [hSlot, hSlot] at hSame
  have hMod : k % size = k' % size := Nat.ModEq.add_left_cancel' _ hSame
  rwa [Nat.mod_eq_of_lt hk, Nat.mod_eq_of_lt hk'] at hMod

end UsedRing

namespace VirtQueue

variable {queue : VirtQueue} {memory memory' : Store}

/-- What the used ring of a queue holds. -/
def used (queue : VirtQueue) (memory : Store) : UsedRing :=
  ⟨queue.ring.usedIdx memory, fun slot => if slot < queue.size then queue.ring.usedId memory slot else 0⟩

theorem numHeads_congr (hAvail : ∀ address, queue.InAvail address → memory' address = memory address) :
    queue.numHeads memory' = queue.numHeads memory := by
  unfold numHeads VirtRing.availIdx
  rw [load_congr fun address _ _ => hAvail address ⟨by omega, by omega⟩]

theorem outstanding_congr (hSize : 0 < queue.size)
    (hAvail : ∀ address, queue.InAvail address → memory' address = memory address) :
    queue.outstanding memory' = queue.outstanding memory := by
  unfold outstanding
  rw [numHeads_congr hAvail]
  refine List.map_congr_left fun k _ => ?_
  have hSlot := Nat.mod_lt (queue.lastAvailIdx + BitVec.ofNat 16 k).toNat hSize
  unfold VirtRing.availRing
  rw [load_congr fun address _ _ => hAvail address ⟨by omega, by omega⟩]

theorem used_congr (hUsed : ∀ address, queue.InUsed address → memory' address = memory address) :
    queue.used memory' = queue.used memory := by
  unfold used VirtRing.usedIdx VirtRing.usedId
  rw [load_congr fun address _ _ => hUsed address ⟨by omega, by omega⟩]
  congr 1
  funext slot
  split
  · rw [load_congr fun address _ _ => hUsed address ⟨by omega, by omega⟩]
  · rfl

/-- A push writes to the used ring only. -/
theorem push_apply (hSize : 0 < queue.size) (elemIdx : BitVec 16) (len : BitVec 32) {address : Nat}
    (hAddress : ¬ queue.InUsed address) : queue.push memory elemIdx len address = memory address := by
  have hSlot := Nat.mod_lt (queue.ring.usedIdx memory).toNat hSize
  unfold InUsed at hAddress
  simp only [push, store]
  rw [if_neg (by omega), if_neg (by omega), if_neg (by omega)]

theorem used_push (hSize : 0 < queue.size) (elemIdx : BitVec 16) (len : BitVec 32) :
    queue.used (queue.push memory elemIdx len) = (queue.used memory).push queue.size elemIdx := by
  have hSlot := Nat.mod_lt (queue.ring.usedIdx memory).toNat hSize
  generalize hEntry : (queue.ring.usedIdx memory).toNat % queue.size = entry at hSlot
  generalize hBase : queue.ring.used.toNat = base
  -- the entries lie behind the index
  have hIdx (value value' : Nat) : queue.ring.usedIdx (store (store memory (base + 4 + 8 * entry) 4 value)
      (base + 4 + 8 * entry + 4) 4 value') = queue.ring.usedIdx memory := by
    unfold VirtRing.usedIdx
    rw [hBase, load_store_of_disjoint (by omega), load_store_of_disjoint (by omega)]
  simp only [push, hEntry, hBase, hIdx]
  unfold used UsedRing.push
  congr 1
  · rw [VirtRing.usedIdx, hBase, load_store_self]
    exact BitVec.eq_of_toNat_eq (by simp)
  · funext slot
    simp only [Function.update_apply, hEntry, VirtRing.usedId, hBase]
    rw [load_store_of_disjoint (by omega)]
    by_cases hSame : slot = entry
    · subst hSame
      rw [if_pos hSlot, if_pos rfl, load_store_of_disjoint (by omega), load_store_self]
      exact BitVec.eq_of_toNat_eq (by simp)
    · rw [if_neg hSame, load_store_of_disjoint (by omega), load_store_of_disjoint (by omega)]

theorem outstanding_of_numHeads_eq_zero (hNone : queue.numHeads memory = 0) : queue.outstanding memory = [] := by
  rw [outstanding, hNone]
  rfl

/-- The oldest head, and what is outstanding after it was popped. -/
theorem outstanding_eq_cons (hSome : queue.numHeads memory ≠ 0) :
    (queue.popped.numHeads memory).toNat + 1 = (queue.numHeads memory).toNat ∧
      queue.outstanding memory = queue.oldest memory :: queue.popped.outstanding memory := by
  have hCount : (queue.popped.numHeads memory).toNat + 1 = (queue.numHeads memory).toNat := by
    unfold numHeads popped at *
    bv_omega
  refine ⟨hCount, ?_⟩
  unfold outstanding
  rw [← hCount, List.range_succ_eq_map, List.map_cons, List.map_map]
  congr 1
  · simp [oldest]
  · refine List.map_congr_left fun k _ => ?_
    change queue.ring.availRing memory ((queue.lastAvailIdx + BitVec.ofNat 16 (k + 1)).toNat % queue.size) =
      queue.ring.availRing memory ((queue.lastAvailIdx + 1 + BitVec.ofNat 16 k).toNat % queue.size)
    rw [BitVec.ofNat_add, BitVec.add_assoc, BitVec.add_comm (BitVec.ofNat 16 k)]
    rfl

theorem popDescriptorChainHead_eq_some {result : Option (BitVec 16 × VirtQueue)} :
    queue.popDescriptorChainHead memory = some result ↔
      (queue.numHeads memory).toNat < queue.size ∧ (queue.numHeads memory = 0 ∧ result = none ∨
        queue.numHeads memory ≠ 0 ∧ (queue.oldest memory).toNat < queue.size ∧
          result = some (queue.oldest memory, queue.popped)) := by
  unfold popDescriptorChainHead
  grind

end VirtQueue

/-! ### Heads -/

section Heads

variable {σ : Type} {block : VirtIOBlock σ} {queue : VirtQueue} {st st' : σ × Store} {event : VirtIOQueueEvent}

/-- An event is served and its head pushed exactly if it is a whole request. -/
theorem processEvent_eq_some (hProcess : block.processEvent queue st event = some st') :
    ¬ IsWhole st.2 event ∧ st' = st ∨ IsWhole st.2 event ∧
      ∃ len, st' = ((block.serve st event).1, queue.push (block.serve st event).2 event.index len) := by
  unfold VirtIOBlock.processEvent at hProcess
  unfold IsWhole
  split at hProcess
  · rename_i hReads _
    exact .inl ⟨by simp [hReads], (Option.some.inj hProcess).symm⟩
  · cases hProcess
  · cases hProcess
  · rename_i header _ _ _ hReads hWrites
    split at hProcess
    · rename_i hSize
      refine .inl ⟨?_, (Option.some.inj hProcess).symm⟩
      rintro ⟨first, hFirst, hWhole, -⟩
      rw [hReads, List.head?_cons, Option.mem_some_iff] at hFirst
      exact absurd hWhole (not_le.mpr (hFirst ▸ hSize))
    · rename_i hSize
      obtain ⟨len, hLen, rfl⟩ := Option.map_eq_some_iff.mp hProcess
      exact .inr ⟨⟨header, by rw [hReads]; rfl, not_lt.mp hSize, by simp [hWrites], by simp [hLen]⟩, len, rfl⟩

/-- What an event that does not overlap the rings does to them. -/
theorem rings_of_processEvent (hSize : 0 < queue.size)
    (hRings : ∀ address, queue.InAvail address → ¬ queue.InUsed address) (hApart : event.Apart queue)
    (hProcess : block.processEvent queue st event = some st') :
    (∀ address, queue.InAvail address → st'.2 address = st.2 address) ∧
      (¬ IsWhole st.2 event ∧ queue.used st'.2 = queue.used st.2 ∨
        IsWhole st.2 event ∧ queue.used st'.2 = (queue.used st.2).push queue.size event.index) := by
  rcases processEvent_eq_some hProcess with ⟨hNot, rfl⟩ | ⟨hWhole, len, rfl⟩
  · exact ⟨fun _ _ => rfl, .inl ⟨hNot, rfl⟩⟩
  · have hServed (address : Nat) (hIn : queue.InAvail address ∨ queue.InUsed address) :
        (block.serve st event).2 address = st.2 address :=
      block.serve_apart _ _ _ fun buffer hBuffer => hApart buffer hBuffer address hIn
    refine ⟨fun address hIn => ?_, .inr ⟨hWhole, ?_⟩⟩
    · exact (VirtQueue.push_apply hSize _ _ (hRings address hIn)).trans (hServed address (.inl hIn))
    · dsimp only
      rw [VirtQueue.used_push hSize, VirtQueue.used_congr fun address hIn => hServed address (.inr hIn)]

end Heads

section Runs

variable {σ : Type} {block : VirtIOBlock σ} {queue : VirtQueue} {st st' : σ × Store}
  (hRings : ∀ address, queue.InAvail address → ¬ queue.InUsed address)
include hRings

/-- One round: the head that is served leaves the other heads as they are, and their requests apart from the
rings. -/
theorem popped_of_processEvent {chain : List (VirtRingDesc × Buffer)} (hSize : 0 < queue.size)
    (hApart : RequestsApart block queue st (queue.oldest st.2 :: queue.popped.outstanding st.2))
    (hChain : Chain block queue.ring st.2 (queue.oldest st.2) chain)
    (hProcess : block.processEvent queue st (requestOf (queue.oldest st.2) chain) = some st') :
    queue.popped.numHeads st'.2 = queue.popped.numHeads st.2 ∧
      queue.popped.outstanding st'.2 = queue.popped.outstanding st.2 ∧
      RequestsApart block queue.popped st' (queue.popped.outstanding st'.2) ∧
      (¬ IsWhole st.2 (requestOf (queue.oldest st.2) chain) ∧ queue.used st'.2 = queue.used st.2 ∨
        IsWhole st.2 (requestOf (queue.oldest st.2) chain) ∧
          queue.used st'.2 = (queue.used st.2).push queue.size (queue.oldest st.2)) := by
  obtain ⟨hEvent, hRest⟩ := hApart chain hChain
  obtain ⟨hAvail, hUsed⟩ := rings_of_processEvent hSize hRings hEvent hProcess
  have hLater : queue.popped.outstanding st'.2 = queue.popped.outstanding st.2 :=
    VirtQueue.outstanding_congr hSize hAvail
  rw [requestOf, index_addBuffers] at hUsed
  exact ⟨VirtQueue.numHeads_congr hAvail, hLater, hLater ▸ requestsApart_popped.mpr (hRest st' hProcess), hUsed⟩

/-- What a run of the loop that ends has done: all heads were popped, some of them were returned, and if
all were then they could be served. -/
theorem of_processQueue {steps rounds : Nat} {queue' : VirtQueue} {heads : List (BitVec 16)}
    (hApart : RequestsApart block queue st (queue.outstanding st.2))
    (hRun : block.processQueue steps rounds st queue = some (heads, st', queue')) :
    (queue.numHeads st.2).toNat < queue.size ∧ heads = queue.outstanding st.2 ∧
      ∃ returned : List (BitVec 16), returned.Sublist heads ∧
        queue.used st'.2 = (queue.used st.2).pushAll queue.size returned ∧
        (returned.length = heads.length → CanBeServed block queue st heads) := by
  induction rounds generalizing st queue heads with
  | zero => cases hRun
  | succ rounds ih =>
    rw [VirtIOBlock.processQueue] at hRun
    cases hPop : queue.popDescriptorChainHead st.2 with
    | none =>
      rw [hPop] at hRun
      cases hRun
    | some result =>
      rw [hPop] at hRun
      obtain ⟨hRoom, ⟨hNone, rfl⟩ | ⟨hSome, hHead, rfl⟩⟩ := VirtQueue.popDescriptorChainHead_eq_some.mp hPop
      · cases hRun
        exact ⟨hRoom, (VirtQueue.outstanding_of_numHeads_eq_zero hNone).symm, [], List.nil_sublist _, rfl,
          fun _ => trivial⟩
      · obtain ⟨-, hOutstanding⟩ := VirtQueue.outstanding_eq_cons hSome
        dsimp only at hRun
        obtain ⟨event, hFollow, hRun⟩ := Option.bind_eq_some_iff.mp hRun
        obtain ⟨t, hProcess, hRun⟩ := Option.bind_eq_some_iff.mp hRun
        obtain ⟨⟨rest, t', final⟩, hRest, hRun⟩ := Option.bind_eq_some_iff.mp hRun
        rw [Option.some_inj, Prod.mk.injEq, Prod.mk.injEq] at hRun
        obtain ⟨rfl, rfl, rfl⟩ := hRun
        obtain ⟨chain, hChain, rfl⟩ := chain_of_followChain hFollow
        rw [hOutstanding] at hApart ⊢
        obtain ⟨-, hLater, hApart, hUsed⟩ :=
          popped_of_processEvent hRings (Nat.zero_lt_of_lt hRoom) hApart hChain hProcess
        obtain ⟨-, rfl, returned, hSublist, hLast, hServed⟩ := @ih queue.popped t hRings _ hApart hRest
        dsimp only at hSublist hServed ⊢
        rw [hLater] at hSublist hServed ⊢
        refine ⟨hRoom, rfl, ?_⟩
        rcases hUsed with ⟨-, hSame⟩ | ⟨hWhole, hPushed⟩
        · refine ⟨returned, hSublist.cons _, hLast.trans (congrArg (UsedRing.pushAll · _ _) hSame), fun hAll => ?_⟩
          have hLe := hSublist.length_le
          rw [hAll, List.length_cons] at hLe
          omega
        · refine ⟨_ :: returned, hSublist.cons_cons _, hLast.trans (congrArg (UsedRing.pushAll · _ _) hPushed),
            fun hAll => ⟨hHead, chain, t, hChain, hWhole, hProcess, ?_⟩⟩
          exact canBeServed_popped.mp (hServed (Nat.succ.inj hAll))

/-- Heads that can be served are all returned, if there are enough steps for their chains. -/
theorem processQueue_of_canBeServed (hRoom : (queue.numHeads st.2).toNat < queue.size)
    (hApart : RequestsApart block queue st (queue.outstanding st.2))
    (hServed : CanBeServed block queue st (queue.outstanding st.2)) :
    ∃ enough st' queue', queue.used st'.2 = (queue.used st.2).pushAll queue.size (queue.outstanding st.2) ∧
      ∀ steps ≥ enough, block.processQueue steps ((queue.numHeads st.2).toNat + 1) st queue =
        some (queue.outstanding st.2, st', queue') := by
  generalize hCount : (queue.numHeads st.2).toNat = count at hRoom
  induction count generalizing st queue with
  | zero =>
    have hNone : queue.numHeads st.2 = 0 := BitVec.eq_of_toNat_eq hCount
    have hPop := VirtQueue.popDescriptorChainHead_eq_some.mpr ⟨hCount ▸ hRoom, .inl ⟨hNone, rfl⟩⟩
    rw [VirtQueue.outstanding_of_numHeads_eq_zero hNone]
    exact ⟨0, st, queue, rfl, fun steps _ => by rw [VirtIOBlock.processQueue, hPop]⟩
  | succ count ih =>
    have hSome : queue.numHeads st.2 ≠ 0 := by
      intro hNone
      rw [hNone] at hCount
      cases hCount
    obtain ⟨hLess, hOutstanding⟩ := VirtQueue.outstanding_eq_cons hSome
    rw [hOutstanding] at hServed hApart ⊢
    obtain ⟨hHead, chain, t, hChain, hWhole, hProcess, hServed⟩ := hServed
    obtain ⟨hHeads, hLater, hApart, ⟨hNot, -⟩ | ⟨-, hPushed⟩⟩ :=
      popped_of_processEvent hRings (Nat.zero_lt_of_lt hRoom) hApart hChain hProcess
    · exact absurd hWhole hNot
    obtain ⟨enough, st', queue', hUsed, hRun⟩ := @ih queue.popped t hRings hApart
      (hLater ▸ canBeServed_popped.mpr hServed) (hHeads ▸ Nat.succ.inj (hLess.trans hCount)) (Nat.lt_of_succ_lt hRoom)
    rw [hLater] at hUsed hRun
    refine ⟨max enough chain.length, st', queue', hUsed.trans (congrArg (UsedRing.pushAll · _ _) hPushed), ?_⟩
    intro steps hSteps
    have hPop := VirtQueue.popDescriptorChainHead_eq_some.mpr ⟨hCount ▸ hRoom, .inr ⟨hSome, hHead, rfl⟩⟩
    have hFollow := followChain_of_chain hChain ((le_max_right _ _).trans hSteps) ⟨[], [], queue.oldest st.2⟩
    rw [VirtIOBlock.processQueue, hPop]
    change (block.followChain queue.ring st.2 steps _ _).bind _ = _
    rw [hFollow]
    change (block.processEvent queue st (requestOf _ chain)).bind _ = _
    rw [hProcess]
    change (block.processQueue steps (count + 1) t queue.popped).bind _ = _
    rw [hRun steps ((le_max_left _ _).trans hSteps)]
    rfl

theorem of_processesAll (hApart : RequestsApart block queue st (queue.outstanding st.2))
    (hAll : ProcessesAll block queue st) :
    (queue.numHeads st.2).toNat < queue.size ∧ CanBeServed block queue st (queue.outstanding st.2) ∧
      ∀ (k k' : Nat) (hk : k < (queue.outstanding st.2).length) (hk' : k' < (queue.outstanding st.2).length),
        queue.usedSlot st.2 k = queue.usedSlot st.2 k' →
          (queue.outstanding st.2)[k] = (queue.outstanding st.2)[k'] := by
  obtain ⟨steps, rounds, heads, st', queue', hRun, rfl, hIdx, hIds⟩ := hAll
  obtain ⟨hRoom, -, returned, hSublist, hUsed, hServed⟩ := of_processQueue hRings hApart hRun
  have hFew : (queue.outstanding st.2).length < 2 ^ 16 := by
    rw [VirtQueue.outstanding, List.length_map, List.length_range]
    exact (queue.numHeads st.2).isLt
  -- fewer entries than indices, so that the index tells how many there are
  have hLength : returned.length = (queue.outstanding st.2).length := by
    have hSame : queue.ring.usedIdx st'.2 = queue.ring.usedIdx st.2 + BitVec.ofNat 16 returned.length :=
      (congrArg UsedRing.idx hUsed).trans (UsedRing.idx_pushAll returned)
    rw [hIdx, BitVec.add_right_inj] at hSame
    have hMod := congrArg BitVec.toNat hSame
    rw [BitVec.toNat_ofNat, BitVec.toNat_ofNat, Nat.mod_eq_of_lt hFew,
      Nat.mod_eq_of_lt (hSublist.length_le.trans_lt hFew)] at hMod
    exact hMod.symm
  rw [hSublist.eq_of_length hLength] at hUsed
  refine ⟨hRoom, hServed hLength, (UsedRing.ids_pushAll_iff (queue.used st.2) queue.size _).mp fun k hk => ?_⟩
  rw [← hUsed]
  exact (if_pos (Nat.mod_lt _ (Nat.zero_lt_of_lt hRoom))).trans (hIds k hk)

end Runs

/-- The queue is processed exactly if the ring is not full, each head starts a chain that ends and is a
whole request, and no two different heads are to go to one slot of the used ring. -/
theorem processesAll_iff {σ : Type} (block : VirtIOBlock σ) (queue : VirtQueue) (st : σ × Store)
    (hRings : ∀ address, queue.InAvail address → ¬ queue.InUsed address)
    (hApart : RequestsApart block queue st (queue.outstanding st.2)) :
    ProcessesAll block queue st ↔ (queue.numHeads st.2).toNat < queue.size ∧
      CanBeServed block queue st (queue.outstanding st.2) ∧ (¬ queue.size ∣ 2 ^ 16 →
        ∀ (k k' : Nat) (hk : k < (queue.outstanding st.2).length) (hk' : k' < (queue.outstanding st.2).length),
          queue.usedSlot st.2 k = queue.usedSlot st.2 k' →
            (queue.outstanding st.2)[k] = (queue.outstanding st.2)[k']) := by
  constructor
  · intro hAll
    obtain ⟨hRoom, hServed, hSlots⟩ := of_processesAll hRings hApart hAll
    exact ⟨hRoom, hServed, fun _ => hSlots⟩
  · rintro ⟨hRoom, hServed, hSlots⟩
    obtain ⟨enough, st', queue', hUsed, hRun⟩ := processQueue_of_canBeServed hRings hRoom hApart hServed
    have hLength : (queue.outstanding st.2).length < queue.size := by
      rwa [VirtQueue.outstanding, List.length_map, List.length_range]
    have hIds := (UsedRing.ids_pushAll_iff (queue.used st.2) queue.size (queue.outstanding st.2)).mpr ?_
    · refine ⟨enough, _, _, st', queue', hRun enough le_rfl, rfl, ?_, fun k hk => ?_⟩
      · exact (congrArg UsedRing.idx hUsed).trans (UsedRing.idx_pushAll _)
      · rw [← hUsed] at hIds
        exact (if_pos (Nat.mod_lt _ (Nat.zero_lt_of_lt hRoom))).symm.trans (hIds k hk)
    · intro k k' hk hk' hSame
      by_cases hSize : queue.size ∣ 2 ^ 16
      · obtain rfl := UsedRing.slot_injective hSize (hk.trans hLength) (hk'.trans hLength) hSame
        rfl
      · exact hSlots hSize k k' hk hk' hSame

/-- The queue of a device whose rings start at 0x1000. -/
def queueAt1000 (size : Nat) : VirtQueue := ⟨.setHostBaseAddress 0x1000 (BitVec.ofNat 32 size), size, 0⟩

/-- A table with a request to flush, of a header at 0 and a place for the status at 16. -/
def flushMemory (headerSize next : Nat) : Store :=
  let memory := store (fun _ => 0) 0 4 4
  let memory := store memory 0x1000 16 (headerSize * 2 ^ 64 + 2 ^ 96 + next * 2 ^ 112)
  let memory := store memory 0x1010 16 (16 + 2 ^ 64 + 2 * 2 ^ 96)
  store memory 0x1042 2 1

/-- A device that answers each request with the status of one that is not supported. -/
def flushBlock : VirtIOBlock Unit where
  lockRegion paddr _ := some paddr.toNat
  serve st event := ((), (event.writeBuffers.getLast?.map fun status => store st.2 status.data 1 2).getD st.2)
  serve_apart st event address hApart := by
    cases hLast : event.writeBuffers.getLast? with
    | none => rfl
    | some status =>
      refine if_neg fun hAddress => hApart status (List.mem_of_getLast? hLast) ⟨hAddress.1, ?_⟩
      exact hAddress.2.trans_le (Nat.add_le_add_left (le_max_left _ _) _)

theorem processesAll_iff_flush : ProcessesAll flushBlock (queueAt1000 4) ((), flushMemory 16 1) := by
  have hAvail (address : Nat) (hIn : (queueAt1000 4).InAvail address) : 0x1040 ≤ address ∧ address < 0x104c := hIn
  have hUsed (address : Nat) (hIn : (queueAt1000 4).InUsed address) : 0x2040 ≤ address ∧ address < 0x2064 := hIn
  refine (processesAll_iff flushBlock (queueAt1000 4) ((), flushMemory 16 1) ?_ ?_).mpr
    ⟨by decide, ⟨by decide, _, _, .next rfl rfl rfl (.last rfl rfl rfl), ?_, rfl, trivial⟩, ?_⟩
  · intro address hIn hIn'
    have := hAvail address hIn
    have := hUsed address hIn'
    omega
  · refine fun chain hChain => ⟨?_, fun _ _ => trivial⟩
    have hRequest : some ⟨[⟨0, 16⟩], [⟨16, 1⟩], 0⟩ = some (requestOf 0 chain) :=
      followChain_of_chain hChain (Nat.le_add_right _ 2) ⟨[], [], 0⟩
    change (requestOf 0 chain).Apart _
    rw [← Option.some.inj hRequest]
    rintro buffer hBuffer address hIn hCovers
    obtain rfl := List.mem_singleton.mp hBuffer
    have hStatus : 16 ≤ address ∧ address < 17 := hCovers
    have := hIn.imp (hAvail address) (hUsed address)
    omega
  · exact ⟨⟨0, 16⟩, rfl, by decide, by decide, by decide⟩
  · exact fun hSize => absurd (by decide : 4 ∣ 2 ^ 16) hSize

theorem followChain_cycle (steps : Nat) (event : VirtIOQueueEvent) :
    flushBlock.followChain (queueAt1000 4).ring (flushMemory 16 0) steps 0 event = none := by
  induction steps generalizing event with
  | zero => rfl
  | succ steps ih => exact ih _

/-- The header is too short, the chain is a cycle, or the ring is full. -/
theorem flush_not_returned :
    ¬ ProcessesAll flushBlock (queueAt1000 4) ((), flushMemory 8 1) ∧
      ¬ ProcessesAll flushBlock (queueAt1000 4) ((), flushMemory 16 0) ∧
      ¬ ProcessesAll flushBlock (queueAt1000 1) ((), store (fun _ => 0) 0x1012 2 1) := by
  refine ⟨?_, ?_, ?_⟩ <;> rintro ⟨steps, rounds, heads, st', queue', hRun, -, hIdx, -⟩
  · rcases steps with _ | _ | steps <;> rcases rounds with _ | _ | rounds
    iterate 8 cases hRun
    have hEnd : some ([0], ((), flushMemory 8 1), (queueAt1000 4).popped) = some (heads, st', queue') := hRun
    cases hEnd
    revert hIdx
    decide
  · rcases rounds with _ | rounds
    · cases hRun
    · change (flushBlock.followChain (queueAt1000 4).ring (flushMemory 16 0) steps 0 _).bind _ = _ at hRun
      rw [followChain_cycle] at hRun
      cases hRun
  · rcases rounds with _ | rounds <;> cases hRun

end Gensim.Devices
