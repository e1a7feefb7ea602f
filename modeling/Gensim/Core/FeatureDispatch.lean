import Gensim.Core.BasicJITExecutionEngine
import Gensim.Lib.Operations

/-! Whether the blocks that are dispatched were compiled for the feature levels of the moment. -/
namespace Gensim.Core.BasicJITExecutionEngine

open BlockJIT BlockCache Operations

variable {engine : BasicJITExecutionEngine} {blocks : BlockCache} {features : ProcessorFeatureSet}

/-- Every block the cache finds was compiled for the levels the thread has. -/
def Matching (blocks : BlockCache) (features : ProcessorFeatureSet) : Prop :=
  ∀ address insertion, blocks.contains address = true →
    blocks.insertions (entryIndex address) = some insertion → features.Offers insertion.features

/-- Where a feature changes, the comparison of the masks, which is made with the levels before the
change, drops every cached block that requires the feature. Address 1 still finds a dropped block,
since 1 is the tag that dropped entries get. -/
def FlushesStale (engine : BasicJITExecutionEngine) : Operation → Prop
  | .setFeatureLevel id newLevel =>
      ∀ level, engine.features.getFeatureLevel id = some level → level ≠ newLevel →
        ∀ address insertion, engine.virtBlockCache.contains address = true →
          engine.virtBlockCache.insertions (entryIndex address) = some insertion →
          insertion.features.Mentions id →
            engine.virtBlockCache.Mismatch engine.features.getAvailableMask (entryIndex address) ∧
              entryIndex address ≠ entryIndex 1
  | _ => True

variable {op : Operation}

theorem matching_noteFreed (hMatching : Matching blocks features) (freed : List BlockTxlnFn) :
    Matching (blocks.noteFreed freed) features := by
  intro address insertion hContains hInsertion
  rw [noteFreed_insertions, Option.map_eq_some_iff] at hInsertion
  obtain ⟨before, hBefore, rfl⟩ := hInsertion
  exact hMatching address before hContains hBefore

theorem matching_insert (hMatching : Matching blocks features) {required : ProcessorFeatureSet}
    (hOffers : features.Offers required) (address : Address) (ptr : BlockTxlnFn) :
    Matching (blocks.insert address ptr required) features := by
  intro other insertion hContains hInsertion
  rw [contains_iff, insert_cache] at hContains
  rw [insert_insertions] at hInsertion
  split at hInsertion
  next => exact Option.some.inj hInsertion ▸ hOffers
  next hSlot =>
    rw [if_neg hSlot] at hContains
    exact hMatching other insertion (contains_iff.mpr hContains) hInsertion

/-- The entry that address 1 leads to is found, if it was ever inserted. -/
theorem exists_contains (hConsistent : blocks.Consistent) {insertion : Insertion}
    (hInsertion : blocks.insertions (entryIndex 1) = some insertion) :
    ∃ address, blocks.contains address = true ∧ entryIndex address = entryIndex 1 := by
  have hEntry := hConsistent (entryIndex 1) insertion hInsertion
  have hSlot : entryIndex (blocks.cache (entryIndex 1)).virtTag = entryIndex 1 := by
    rcases hEntry.tag with hTag | hTag
    · rw [hTag, hEntry.slot_eq]
    · rw [hTag]
  exact ⟨_, contains_iff.mpr (by rw [hSlot]), hSlot⟩

/-- After a change the levels are on offer to the blocks that do not require the changed feature, and
the flush has to have dropped the others. -/
theorem matching_change_iff (hMatching : Matching engine.virtBlockCache engine.features)
    (hConsistent : engine.virtBlockCache.Consistent) {id level newLevel : BitVec 32}
    (hLevel : engine.features.getFeatureLevel id = some level) (hChange : level ≠ newLevel) :
    Matching (engine.virtBlockCache.invalidateFeatures engine.features.getAvailableMask)
        (engine.features.setFeatureLevel id newLevel) ↔ engine.FlushesStale (.setFeatureLevel id newLevel) := by
  let blocks := engine.virtBlockCache
  let mask := engine.features.getAvailableMask
  have hOld : ∀ address insertion, blocks.contains address = true →
      blocks.insertions (entryIndex address) = some insertion →
      ((engine.features.setFeatureLevel id newLevel).Offers insertion.features ↔ ¬ insertion.features.Mentions id) := by
    intro address insertion hContains hInsertion
    refine engine.features.offers_setFeatureLevel (hMatching address insertion hContains hInsertion) ?_
    rw [hLevel]
    exact fun h => hChange (Option.some.inj h)
  constructor
  · intro hAfter _ _ _ address insertion hContains hInsertion hMentions
    have hStale := (hOld address insertion hContains hInsertion).not_left.mpr hMentions
    by_contra hKept
    rw [not_and_or, not_not] at hKept
    by_cases hMismatch : blocks.Mismatch mask (entryIndex address)
    · -- dropped, but found again under its new tag
      have hOne : entryIndex address = entryIndex 1 := hKept.resolve_left (not_not_intro hMismatch)
      rw [hOne] at hInsertion hMismatch
      refine hStale (hAfter 1 insertion (contains_iff.mpr ?_) hInsertion)
      rw [invalidateFeatures_virtTag, if_pos hMismatch]
    · refine hStale (hAfter address insertion (contains_iff.mpr ?_) hInsertion)
      rw [invalidateFeatures_virtTag, if_neg hMismatch]
      exact contains_iff.mp hContains
  · intro hFlushes address insertion hContains hInsertion
    rw [contains_iff, invalidateFeatures_virtTag] at hContains
    split at hContains
    next hMismatch =>
      subst hContains
      obtain ⟨other, hOther, hSlot⟩ := exists_contains hConsistent hInsertion
      rw [← hSlot] at hInsertion
      refine (hOld other insertion hOther hInsertion).mpr fun hMentions => ?_
      exact (hFlushes level hLevel hChange other insertion hOther hInsertion hMentions).2 hSlot
    next hMismatch =>
      have hBefore := contains_iff.mpr hContains
      refine (hOld address insertion hBefore hInsertion).mpr fun hMentions => ?_
      exact hMismatch (hFlushes level hLevel hChange address insertion hBefore hInsertion hMentions).1

theorem flushesStale_of_quiet (hQuiet : ¬ engine.Changes op) : engine.FlushesStale op := by
  cases op with
  | setFeatureLevel id newLevel =>
    intro level hLevel hChange
    exact absurd ⟨level, hLevel, hChange⟩ hQuiet
  | _ => trivial

/-- One operation leads from matching blocks to matching blocks just if its flush drops what it
makes stale. -/
theorem Effect.matching_iff (hEffect : engine.Effect op blocks features)
    (hMatching : Matching engine.virtBlockCache engine.features)
    (hConsistent : engine.virtBlockCache.Consistent) : Matching blocks features ↔ engine.FlushesStale op := by
  cases hEffect with
  | keep hQuiet => exact iff_of_true (matching_noteFreed hMatching _) (flushesStale_of_quiet hQuiet)
  | insert address ptr required hQuiet hOffers =>
    exact iff_of_true (matching_insert (matching_noteFreed hMatching _) hOffers address ptr)
      (flushesStale_of_quiet hQuiet)
  | invalidate blocks hQuiet => exact iff_of_true nofun (flushesStale_of_quiet hQuiet)
  | rewrite id level hQuiet hLevel =>
    refine iff_of_true (fun address insertion hContains hInsertion feature hMem => ?_) (flushesStale_of_quiet hQuiet)
    rw [ProcessorFeatureSet.getFeatureLevel_setFeatureLevel]
    have hOffers := hMatching address insertion hContains hInsertion feature hMem
    split
    next hSame => rw [← hLevel, ← hSame, hOffers]
    next => exact hOffers
  | change id level newLevel hOp hLevel hChange =>
    subst hOp
    exact matching_change_iff hMatching hConsistent hLevel hChange

/-- Along every sequence of operations, the blocks found in the cache match the levels of the thread
after each operation just if each change of a feature finds no cached block that its flush keeps and
that requires the feature. -/
theorem dispatches_matching_iff (maxCodeSize : Nat) (aggressive : Bool) (start : ProcessorFeatureSet)
    (ops : List Operation) :
    Throughout step (fun engine op => Matching (engine.step op).virtBlockCache (engine.step op).features)
        (new maxCodeSize aggressive start) ops ↔
      Throughout step FlushesStale (new maxCodeSize aggressive start) ops := by
  refine throughout_congr
    (fun engine => Matching engine.virtBlockCache engine.features ∧ engine.virtBlockCache.Consistent)
    ?_ ?_ ?_ ops
  · rintro engine op ⟨hMatching, hConsistent⟩
    exact (engine.step_effect op).matching_iff hMatching hConsistent
  · rintro engine op ⟨-, hConsistent⟩ hAfter
    exact ⟨hAfter, (engine.step_effect op).consistent hConsistent⟩
  · exact ⟨nofun, consistent_invalidate⟩

/-- A block that reads feature 0 at level 0 is still found after the level has been set to 1. -/
theorem stale_block_dispatched :
    ¬ Throughout step
        (fun engine op => Matching (engine.step op).virtBlockCache (engine.step op).features)
        (new 0 false (ProcessorFeatureSet.empty.setFeatureLevel 0 0))
        [.registerTranslation 0x1000 0x8000 0x100 16 [0], .setFeatureLevel 0 1] := by
  rintro ⟨-, hAfter, -⟩
  have hOffers := hAfter 0x8000 ⟨0x8000, ProcessorFeatureSet.empty.setFeatureLevel 0 0, false⟩
    (by decide) (by decide)
  have hLevel := hOffers (0, 0) List.mem_cons_self
  exact absurd hLevel (by decide)

/-- With features that fit the masks, the flush of a change keeps every block it should drop, since it
compares with the levels before the change: a change is safe only while no cached block requires the
feature. -/
theorem flushesStale_iff_of_fits (hMatching : Matching engine.virtBlockCache engine.features)
    (hConsistent : engine.virtBlockCache.Consistent) (hFits : engine.features.Fits)
    (hBlocks : ∀ slot insertion, engine.virtBlockCache.insertions slot = some insertion →
      insertion.features.Fits) {id level newLevel : BitVec 32}
    (hLevel : engine.features.getFeatureLevel id = some level) (hChange : level ≠ newLevel) :
    engine.FlushesStale (.setFeatureLevel id newLevel) ↔
      ∀ address insertion, engine.virtBlockCache.contains address = true →
        engine.virtBlockCache.insertions (entryIndex address) = some insertion → ¬ insertion.features.Mentions id := by
  constructor
  · intro hFlushes address insertion hContains hInsertion hMentions
    have hDropped := hFlushes level hLevel hChange address insertion hContains hInsertion hMentions
    refine hDropped.1 ?_
    rw [(hConsistent _ insertion hInsertion).masks]
    exact ProcessorFeatureSet.masks_agree hFits (hBlocks _ insertion hInsertion)
      (hMatching address insertion hContains hInsertion)
  · intro hNone _ _ _ address insertion hContains hInsertion hMentions
    exact absurd hMentions (hNone address insertion hContains hInsertion)

end Gensim.Core.BasicJITExecutionEngine
