import Mathlib

/-! A block device that keeps in memory what is written to it, over a device that it only reads. -/
namespace Gensim.Devices

/-- The backing device is known by what it reads for a block, if it can read it. -/
structure MemoryCOWBlockDevice (β : Type*) where
  backing : BitVec 64 → Option β
  snapshotData : BitVec 64 → Option β

namespace MemoryCOWBlockDevice

variable {β : Type*} (dev : MemoryCOWBlockDevice β) (blockIdx i : BitVec 64)

def readBlock : Option β :=
  match dev.snapshotData blockIdx with
  | none => dev.backing blockIdx
  | some block => some block

/-- What the loop has put into the buffer, and its result. -/
def readBlocks (dev : MemoryCOWBlockDevice β) (blockIdx : BitVec 64) : Nat → List β × Bool
  | 0 => ([], true)
  | count + 1 =>
    match dev.readBlock blockIdx with
    | none => ([], false)
    | some block => (readBlocks dev (blockIdx + 1) count).map (block :: ·) id

def writeBlock (block : β) : MemoryCOWBlockDevice β :=
  { dev with snapshotData := Function.update dev.snapshotData blockIdx (some block) }

def writeBlocks (dev : MemoryCOWBlockDevice β) (blockIdx : BitVec 64) : List β → MemoryCOWBlockDevice β
  | [] => dev
  | block :: blocks => writeBlocks (dev.writeBlock blockIdx block) (blockIdx + 1) blocks

/-- A call of `WriteBlocks`, whose count is an `uint32_t`. -/
structure Request (β : Type*) where
  blockIdx : BitVec 64
  blocks : List β
  count_lt : blocks.length < 2 ^ 32

variable (backing : BitVec 64 → Option β) (requests : List (Request β))

/-- The device after some calls, with the last one first. -/
def written : List (Request β) → MemoryCOWBlockDevice β
  | [] => ⟨backing, fun _ => none⟩
  | request :: earlier => (written earlier).writeBlocks request.blockIdx request.blocks

/-- A disk: a block is in the last call that covers it, or else on the backing device. -/
def disk : List (Request β) → BitVec 64 → Option β
  | [], i => backing i
  | request :: earlier, i => request.blocks[(i - request.blockIdx).toNat]?.or (disk earlier i)

theorem readBlock_writeBlock (block : β) :
    (dev.writeBlock blockIdx block).readBlock i = if i = blockIdx then some block else dev.readBlock i := by
  unfold readBlock writeBlock
  rcases eq_or_ne i blockIdx with rfl | hNe
  · simp
  · simp [hNe]

theorem readBlock_writeBlocks {blocks : List β} (hCount : blocks.length < 2 ^ 64) :
    (dev.writeBlocks blockIdx blocks).readBlock i = blocks[(i - blockIdx).toNat]?.or (dev.readBlock i) := by
  induction blocks generalizing dev blockIdx with
  | nil => simp [writeBlocks]
  | cons block blocks ih =>
    rw [List.length_cons] at hCount
    rw [writeBlocks, ih _ _ (by omega), readBlock_writeBlock]
    rcases eq_or_ne i blockIdx with rfl | hNe
    · -- the rest is too short to come round to the first block again
      have hEnd : blocks.length ≤ (i - (i + 1)).toNat := by bv_omega
      rw [List.getElem?_eq_none hEnd]
      simp
    · have hNext : (i - blockIdx).toNat = (i - (blockIdx + 1)).toNat + 1 := by bv_omega
      rw [if_neg hNe, hNext, List.getElem?_cons_succ]

theorem readBlock_written : (written backing requests).readBlock i = disk backing requests i := by
  induction requests with
  | nil => rfl
  | cons request earlier ih => rw [written, readBlock_writeBlocks _ _ _ (request.count_lt.trans (by decide)), ih, disk]

/-- After any calls, a read has what a disk has up to the first block that fails. -/
theorem readBlocks_written (count : Nat) :
    let found := (List.range count).map fun i => disk backing requests (blockIdx + .ofNat 64 i)
    (written backing requests).readBlocks blockIdx count =
      ((found.takeWhile (·.isSome)).reduceOption, found.all (·.isSome)) := by
  induction count generalizing blockIdx with
  | zero => rfl
  | succ count ih =>
    have hNext (i : Nat) : blockIdx + 1 + .ofNat 64 i = blockIdx + .ofNat 64 (i + 1) := by
      rw [BitVec.add_assoc, Nat.add_comm, BitVec.ofNat_add]
      rfl
    rw [readBlocks, readBlock_written, ih, List.range_succ_eq_map]
    simp only [hNext]
    cases hFirst : disk backing requests blockIdx <;> simp [hFirst, Function.comp_def, List.reduceOption]

end MemoryCOWBlockDevice
end Gensim.Devices
