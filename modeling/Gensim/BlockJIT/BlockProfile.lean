import Gensim.BlockJIT.BlockCache

/-! The physical block profile: the translations of each page of guest memory. It owns them, and what
it drops it gives to the code allocator's `Free`. -/
namespace Gensim.BlockJIT

open Core

/-- The code of a block, and the features that it was translated under. There
is no code where the pointer is null. -/
structure BlockTranslation where
  fn : BlockTxlnFn
  featuresRequired : ProcessorFeatureSet
  size : Nat
  deriving DecidableEq

namespace BlockTranslation

def empty : BlockTranslation := ⟨0, .empty, 0⟩

def IsValid (txln : BlockTranslation) (features : ProcessorFeatureSet) : Prop :=
  txln.fn ≠ 0 ∧ features.Offers txln.featuresRequired

instance (txln : BlockTranslation) (features : ProcessorFeatureSet) :
    Decidable (txln.IsValid features) := inferInstanceAs (Decidable (_ ∧ _))

def invalidate (txln : BlockTranslation) : BlockTranslation :=
  { txln with fn := 0, featuresRequired := .empty }

end BlockTranslation

/-- The translations of one page, by the offset they start at. The chunks of the table are an
allocation detail. -/
structure BlockPageProfile where
  table : Nat → BlockTranslation
  txlns : List BlockTxlnFn
  dirty : Bool
  valid : Bool

namespace BlockPageProfile

variable (profile : BlockPageProfile)

def empty : BlockPageProfile := ⟨fun _ => .empty, [], false, false⟩

/-- With the functions given to `Free`. -/
def invalidate : BlockPageProfile × List BlockTxlnFn :=
  (empty, profile.txlns)

/-- The translation at an offset is freed, if there is one. -/
def invalidateTxln (offset : Nat) : BlockPageProfile × List BlockTxlnFn :=
  let txln := profile.table offset
  let table := Function.update profile.table offset txln.invalidate
  if txln.fn ≠ 0 then ({ profile with table, txlns := profile.txlns.erase txln.fn }, [txln.fn])
  else ({ profile with table }, [])

def insert (offset : Nat) (txln : BlockTranslation) : BlockPageProfile × List BlockTxlnFn :=
  let (profile, freedByPage) := if profile.dirty then profile.invalidate else (profile, [])
  let profile :=
    if profile.valid then profile else { profile with table := fun _ => .empty, valid := true }
  let (profile, freedByEntry) :=
    if (profile.table offset).fn ≠ 0 then profile.invalidateTxln offset else (profile, [])
  ({ profile with
      table := Function.update profile.table offset txln
      txlns := profile.txlns.insert txln.fn }, freedByPage ++ freedByEntry)

/-- What an insertion drops: everything on a dirty page, else the translation it replaces. -/
def droppedByInsert (offset : Nat) : List BlockTxlnFn :=
  if profile.dirty then profile.txlns
  else if profile.valid ∧ (profile.table offset).fn ≠ 0 then [(profile.table offset).fn]
  else []

theorem insert_freed (offset : Nat) (txln : BlockTranslation) :
    (profile.insert offset txln).2 = profile.droppedByInsert offset := by
  unfold insert droppedByInsert
  by_cases hDirty : profile.dirty
  · simp [hDirty, invalidate, empty, BlockTranslation.empty]
  · by_cases hValid : profile.valid
    · by_cases hFn : (profile.table offset).fn = 0#64
      · simp [hDirty, hValid, hFn]
      · simp [hDirty, hValid, hFn, invalidateTxln]
    · simp [hDirty, hValid, BlockTranslation.empty]

theorem invalidateTxln_freed (offset : Nat) : (profile.invalidateTxln offset).2 =
    if (profile.table offset).fn ≠ 0 then [(profile.table offset).fn] else [] := by
  unfold invalidateTxln
  dsimp only
  split <;> rfl

end BlockPageProfile

/-- The profile has a slot for every page of a 32-bit physical address space. -/
structure BlockProfile where
  pageProfiles : Nat → BlockPageProfile
  dirtyPages : List Nat
  codeSize : Nat

namespace BlockProfile

variable (profile : BlockProfile)

def profileCount : Nat := 2 ^ 20

def empty : BlockProfile := ⟨fun _ => .empty, [], 0⟩

def setPage (page : Nat) (pageProfile : BlockPageProfile) : BlockProfile :=
  { profile with pageProfiles := Function.update profile.pageProfiles page pageProfile }

def insert (address : PhysicalAddress) (txln : BlockTranslation) : BlockProfile × List BlockTxlnFn :=
  let (pageProfile, freed) :=
    (profile.pageProfiles address.getPageIndex).insert address.getPageOffset txln
  ({ profile.setPage address.getPageIndex pageProfile with
      codeSize := profile.codeSize + txln.size }, freed)

def invalidate : BlockProfile × List BlockTxlnFn :=
  ({ profile with pageProfiles := fun page => (profile.pageProfiles page).invalidate.1, codeSize := 0 },
    (List.range profileCount).flatMap fun page => (profile.pageProfiles page).invalidate.2)

/-- The page keeps its translations until the next collection or insertion. -/
def markPageDirty (address : PhysicalAddress) : BlockProfile :=
  let page := address.getPageIndex
  { profile.setPage page { profile.pageProfiles page with dirty := true } with
    dirtyPages := profile.dirtyPages ++ [page] }

/-- The translation as it was found, and the profile it leaves. -/
def get (address : PhysicalAddress) (features : ProcessorFeatureSet) :
    BlockTranslation × BlockProfile × List BlockTxlnFn :=
  let pageProfile := profile.pageProfiles address.getPageIndex
  let txln := pageProfile.table address.getPageOffset
  if txln.IsValid features then (txln, profile, [])
  else
    let (pageProfile, freed) := pageProfile.invalidateTxln address.getPageOffset
    (txln, profile.setPage address.getPageIndex pageProfile, freed)

/-- All that was translated for the dirty pages is freed. -/
def garbageCollect : BlockProfile × List BlockTxlnFn :=
  profile.dirtyPages.foldl (fun (profile, freed) page =>
      let (pageProfile, freedByPage) := (profile.pageProfiles page).invalidate
      (profile.setPage page pageProfile, freed ++ freedByPage))
    ({ profile with dirtyPages := [] }, [])

def droppedByInsert (address : PhysicalAddress) : List BlockTxlnFn :=
  (profile.pageProfiles address.getPageIndex).droppedByInsert address.getPageOffset

/-- What a look-up drops: a translation made for other levels. -/
def droppedByGet (address : PhysicalAddress) (features : ProcessorFeatureSet) : List BlockTxlnFn :=
  let txln := (profile.pageProfiles address.getPageIndex).table address.getPageOffset
  if txln.fn ≠ 0 ∧ ¬ features.Offers txln.featuresRequired then [txln.fn] else []

theorem insert_freed (address : PhysicalAddress) (txln : BlockTranslation) :
    (profile.insert address txln).2 = profile.droppedByInsert address :=
  BlockPageProfile.insert_freed _ _ txln

theorem get_txln (address : PhysicalAddress) (features : ProcessorFeatureSet) : (profile.get address features).1 =
      (profile.pageProfiles address.getPageIndex).table address.getPageOffset := by
  unfold get
  dsimp only
  split <;> rfl

theorem get_freed (address : PhysicalAddress) (features : ProcessorFeatureSet) :
    (profile.get address features).2.2 = profile.droppedByGet address features := by
  unfold get droppedByGet
  dsimp only
  split
  next hValid => rw [if_neg fun h => h.2 hValid.2]
  next hValid =>
    rw [BlockPageProfile.invalidateTxln_freed]
    split
    next hFn => rw [if_pos ⟨hFn, fun hOffers => hValid ⟨hFn, hOffers⟩⟩]
    next hFn => rw [if_neg fun h => hFn h.1]

end BlockProfile

end Gensim.BlockJIT
