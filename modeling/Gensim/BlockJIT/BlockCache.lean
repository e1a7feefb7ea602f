import Gensim.Core.Address
import Gensim.Core.ProcessorFeatures

/-! The virtual block cache, a direct-mapped table of translated blocks. -/
namespace Gensim.BlockJIT

open Core

/-- The address of the code of a translated block, 0 for the null pointer. -/
abbrev BlockTxlnFn := BitVec 64

/-- The address that a slot is for, and the code of the block there. -/
structure BlockCacheEntry where
  virtTag : BitVec 64
  ptr : BlockTxlnFn
  deriving DecidableEq

/-- Which features the code depends on, and the levels that it was made for. -/
structure BlockFeaturesEntry where
  featureRequiredMask : BitVec 64
  featureLevel : BitVec 64
  deriving DecidableEq

/-- Ghost state, that no function of the source has: the insertion an entry comes from, and whether
the function it inserted has been freed since. -/
structure Insertion where
  address : Address
  features : ProcessorFeatureSet
  freed : Bool
  deriving DecidableEq

def blockCacheSize : Nat := 1024

structure BlockCache where
  cache : Fin blockCacheSize → BlockCacheEntry
  featureCache : Fin blockCacheSize → BlockFeaturesEntry
  insertions : Fin blockCacheSize → Option Insertion

namespace BlockCache

variable (blocks : BlockCache)

/-- `BLOCKCACHE_INSTRUCTION_SHIFT` is 0. -/
def entryIndex (address : Address) : Fin blockCacheSize :=
  ⟨(address >>> 0).toNat % blockCacheSize, Nat.mod_lt _ (by decide)⟩

def contains (address : Address) : Bool := (blocks.cache (entryIndex address)).virtTag = address

def lookup (address : Address) : BlockTxlnFn :=
  if (blocks.cache (entryIndex address)).virtTag = address then (blocks.cache (entryIndex address)).ptr
  else 0

/-- The slot of the address is overwritten, whatever it was for. -/
def insert (address : Address) (ptr : BlockTxlnFn) (required : ProcessorFeatureSet) : BlockCache where
  cache := Function.update blocks.cache (entryIndex address) ⟨address, ptr⟩
  featureCache := Function.update blocks.featureCache (entryIndex address)
    ⟨required.getRequiredMask, required.getLevelMask⟩
  insertions := Function.update blocks.insertions (entryIndex address) (some ⟨address, required, false⟩)

/-- The entries are filled with ones; what the features cache says of them stays. -/
def invalidate : BlockCache where
  cache _ := ⟨BitVec.allOnes 64, BitVec.allOnes 64⟩
  featureCache := blocks.featureCache
  insertions _ := none

/-- The comparison of `InvalidateFeatures`. -/
def Mismatch (currentMask : BitVec 64) (slot : Fin blockCacheSize) : Prop :=
  currentMask &&& (blocks.featureCache slot).featureRequiredMask ≠ (blocks.featureCache slot).featureLevel

instance (currentMask : BitVec 64) (slot : Fin blockCacheSize) :
    Decidable (blocks.Mismatch currentMask slot) := inferInstanceAs (Decidable (_ ≠ _))

/-- Slots whose features have other levels now get the tag 1, where no
instruction begins. -/
def invalidateFeatures (currentMask : BitVec 64) : BlockCache :=
  { blocks with
    cache := fun slot =>
      if blocks.Mismatch currentMask slot then { blocks.cache slot with virtTag := 1 }
      else blocks.cache slot }

/-- A cache as its constructor leaves it. -/
def empty : BlockCache :=
  invalidate ⟨fun _ => ⟨0, 0⟩, fun _ => ⟨0, 0⟩, fun _ => none⟩

/-- Functions of the cache are freed behind its back: only the ghost state knows. -/
def noteFreed (freed : List BlockTxlnFn) : BlockCache :=
  { blocks with
    insertions := fun slot => (blocks.insertions slot).map fun insertion =>
      { insertion with freed := insertion.freed || decide ((blocks.cache slot).ptr ∈ freed) } }

section Fields

variable (address : Address) (ptr : BlockTxlnFn) (required : ProcessorFeatureSet) (mask : BitVec 64)
variable (freed : List BlockTxlnFn) (slot : Fin blockCacheSize)

@[simp] theorem insert_cache : (blocks.insert address ptr required).cache slot =
    if slot = entryIndex address then ⟨address, ptr⟩ else blocks.cache slot :=
  Function.update_apply ..

@[simp] theorem insert_featureCache : (blocks.insert address ptr required).featureCache slot =
    if slot = entryIndex address then ⟨required.getRequiredMask, required.getLevelMask⟩
    else blocks.featureCache slot :=
  Function.update_apply ..

@[simp] theorem insert_insertions : (blocks.insert address ptr required).insertions slot =
    if slot = entryIndex address then some ⟨address, required, false⟩ else blocks.insertions slot :=
  Function.update_apply ..

@[simp] theorem invalidate_virtTag : (blocks.invalidate.cache slot).virtTag = BitVec.allOnes 64 := rfl

@[simp] theorem invalidate_insertions : blocks.invalidate.insertions slot = none := rfl

@[simp] theorem invalidateFeatures_virtTag : ((blocks.invalidateFeatures mask).cache slot).virtTag =
    if blocks.Mismatch mask slot then 1 else (blocks.cache slot).virtTag := by
  unfold invalidateFeatures
  dsimp only
  split <;> rfl

@[simp] theorem invalidateFeatures_ptr :
    ((blocks.invalidateFeatures mask).cache slot).ptr = (blocks.cache slot).ptr := by
  unfold invalidateFeatures
  dsimp only
  split <;> rfl

@[simp] theorem invalidateFeatures_insertions : (blocks.invalidateFeatures mask).insertions = blocks.insertions := rfl

@[simp] theorem noteFreed_cache : (blocks.noteFreed freed).cache = blocks.cache := rfl

theorem noteFreed_insertions : (blocks.noteFreed freed).insertions slot = (blocks.insertions slot).map fun insertion =>
      { insertion with freed := insertion.freed || decide ((blocks.cache slot).ptr ∈ freed) } := rfl

theorem noteFreed_nil : blocks.noteFreed [] = blocks := by
  have hSame : (blocks.noteFreed []).insertions = blocks.insertions := by
    funext slot
    cases hInsertion : blocks.insertions slot with
    | none => simp [noteFreed_insertions, hInsertion]
    | some insertion => simp [noteFreed_insertions, hInsertion]
  exact congrArg (BlockCache.mk blocks.cache blocks.featureCache) hSame

end Fields

variable {blocks} {address : Address}

@[simp] theorem contains_iff :
    blocks.contains address = true ↔ (blocks.cache (entryIndex address)).virtTag = address := by
  simp [contains]

/-- What an entry and the masks beside it keep of the insertion they come from. -/
structure EntryOf (blocks : BlockCache) (slot : Fin blockCacheSize) (insertion : Insertion) : Prop where
  slot_eq : entryIndex insertion.address = slot
  tag : (blocks.cache slot).virtTag = insertion.address ∨ (blocks.cache slot).virtTag = 1
  masks : blocks.featureCache slot =
    ⟨insertion.features.getRequiredMask, insertion.features.getLevelMask⟩

/-- Every entry that was inserted is as inserted, or has the tag of dropped entries. -/
def Consistent (blocks : BlockCache) : Prop :=
  ∀ slot insertion, blocks.insertions slot = some insertion → blocks.EntryOf slot insertion

theorem Consistent.noteFreed (hConsistent : blocks.Consistent) (freed : List BlockTxlnFn) :
    (blocks.noteFreed freed).Consistent := by
  intro slot insertion hInsertion
  rw [noteFreed_insertions, Option.map_eq_some_iff] at hInsertion
  obtain ⟨before, hBefore, rfl⟩ := hInsertion
  exact ⟨(hConsistent slot before hBefore).slot_eq, (hConsistent slot before hBefore).tag,
    (hConsistent slot before hBefore).masks⟩

theorem Consistent.insert (hConsistent : blocks.Consistent) (address : Address) (ptr : BlockTxlnFn)
    (required : ProcessorFeatureSet) : (blocks.insert address ptr required).Consistent := by
  intro slot insertion hInsertion
  rw [insert_insertions] at hInsertion
  split at hInsertion
  next hSlot =>
    rw [← Option.some.inj hInsertion]
    exact ⟨hSlot.symm, .inl (by rw [insert_cache, if_pos hSlot]),
      by rw [insert_featureCache, if_pos hSlot]⟩
  next hSlot =>
    have hEntry := hConsistent slot insertion hInsertion
    refine ⟨hEntry.slot_eq, ?_, ?_⟩
    · rw [insert_cache, if_neg hSlot]
      exact hEntry.tag
    · rw [insert_featureCache, if_neg hSlot]
      exact hEntry.masks

theorem consistent_invalidate : blocks.invalidate.Consistent := nofun

theorem Consistent.invalidateFeatures (hConsistent : blocks.Consistent) (mask : BitVec 64) :
    (blocks.invalidateFeatures mask).Consistent := by
  intro slot insertion hInsertion
  have hEntry := hConsistent slot insertion hInsertion
  refine ⟨hEntry.slot_eq, ?_, hEntry.masks⟩
  rw [invalidateFeatures_virtTag]
  split
  · exact .inr rfl
  · exact hEntry.tag

end BlockCache

end Gensim.BlockJIT
