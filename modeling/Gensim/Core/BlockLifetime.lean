import Gensim.Core.BasicJITExecutionEngine
import Gensim.Lib.Operations

/-! Whether the functions that the cache returns still belong to the address they are returned for. -/
namespace Gensim.Core.BasicJITExecutionEngine

open BlockJIT BlockCache Operations

variable {engine : BasicJITExecutionEngine} {blocks : BlockCache} {features : ProcessorFeatureSet}
variable {address : Address} {op : Operation}

/-- What the cache returns for the address was inserted for it, and has not been freed since. -/
def LiveAt (address : Address) (blocks : BlockCache) : Prop :=
  blocks.lookup address ≠ 0 → ∃ insertion, blocks.insertions (entryIndex address) = some insertion ∧
    insertion.address = address ∧ insertion.freed = false

/-- The operation frees no function that the cache goes on to return for the address, and no change
of a feature drops the entry that address 1 leads to: the tag of dropped entries is 1. -/
structure KeepsAlive (address : Address) (engine : BasicJITExecutionEngine) (op : Operation) : Prop where
  free : op.registers.map entryIndex ≠ some (entryIndex address) →
    engine.virtBlockCache.lookup address ≠ 0 → engine.virtBlockCache.lookup address ∉ engine.freedBy op
  drop : address = 1 → engine.Changes op →
    engine.virtBlockCache.Mismatch engine.features.getAvailableMask (entryIndex 1) →
    (engine.virtBlockCache.cache (entryIndex 1)).virtTag = 1 ∨
      (engine.virtBlockCache.cache (entryIndex 1)).ptr = 0

theorem lookup_of_hit (hHit : blocks.lookup address ≠ 0) :
    blocks.lookup address = (blocks.cache (entryIndex address)).ptr := by
  unfold lookup at hHit ⊢
  split at hHit
  next hTag => rw [if_pos hTag]
  next => exact absurd rfl hHit

theorem liveAt_noteFreed_iff (hLive : LiveAt address blocks) (freed : List BlockTxlnFn) :
    LiveAt address (blocks.noteFreed freed) ↔ (blocks.lookup address ≠ 0 → blocks.lookup address ∉ freed) := by
  refine forall_congr' fun hHit => ?_
  obtain ⟨insertion, hInsertion, hAddress, hFresh⟩ := hLive hHit
  have hPtr : blocks.lookup address = (blocks.cache (entryIndex address)).ptr := lookup_of_hit hHit
  rw [hPtr]
  simp [noteFreed_insertions, hInsertion, hAddress, hFresh]

/-- In another entry an insertion changes nothing; in the same entry it leaves the address live, or
not found at all. -/
theorem liveAt_insert_iff (other : Address) (ptr : BlockTxlnFn) (required : ProcessorFeatureSet) :
    LiveAt address (blocks.insert other ptr required) ↔
      (entryIndex address ≠ entryIndex other → LiveAt address blocks) := by
  by_cases hSlot : entryIndex address = entryIndex other
  · refine iff_of_true (fun hHit => ?_) (fun hOther => absurd hSlot hOther)
    have hSame : other = address := by
      by_contra hOther
      simp [lookup, hSlot, hOther] at hHit
    exact ⟨_, by rw [insert_insertions, if_pos hSlot], hSame, rfl⟩
  · simp [LiveAt, lookup, hSlot]

theorem liveAt_invalidate (hAddress : address ≠ BitVec.allOnes 64) : LiveAt address blocks.invalidate := by
  intro hHit
  exact absurd (if_neg hAddress.symm) hHit

theorem lookup_invalidateFeatures (mask : BitVec 64) : (blocks.invalidateFeatures mask).lookup address =
      if blocks.Mismatch mask (entryIndex address) then
        if address = 1 then (blocks.cache (entryIndex address)).ptr else 0 else blocks.lookup address := by
  unfold lookup
  rw [invalidateFeatures_virtTag, invalidateFeatures_ptr]
  split
  · simp only [eq_comm]
  · rfl

/-- A dropped entry is returned for address 1, if that address leads to it. -/
theorem liveAt_invalidateFeatures_iff (hLive : LiveAt address blocks) (hConsistent : blocks.Consistent)
    (mask : BitVec 64) : LiveAt address (blocks.invalidateFeatures mask) ↔
      (address = 1 → blocks.Mismatch mask (entryIndex 1) →
        (blocks.cache (entryIndex 1)).virtTag = 1 ∨ (blocks.cache (entryIndex 1)).ptr = 0) := by
  unfold LiveAt
  rw [lookup_invalidateFeatures, invalidateFeatures_insertions]
  constructor
  · intro hAfter hOne hMismatch
    subst hOne
    rw [if_pos hMismatch, if_pos rfl] at hAfter
    by_contra hStale
    rw [not_or] at hStale
    obtain ⟨insertion, hInsertion, hAddress, -⟩ := hAfter hStale.2
    exact hStale.1 (hAddress ▸ (hConsistent _ insertion hInsertion).tag |>.elim id id)
  · intro hDrop hHit
    by_cases hMismatch : blocks.Mismatch mask (entryIndex address)
    · rw [if_pos hMismatch] at hHit
      by_cases hOne : address = 1
      · subst hOne
        rw [if_pos rfl] at hHit
        have hTag := (hDrop rfl hMismatch).resolve_right hHit
        exact hLive (by rwa [lookup, if_pos hTag])
      · exact absurd (if_neg hOne) hHit
    · rw [if_neg hMismatch] at hHit
      exact hLive hHit

theorem keepsAlive_of_freedBy_nil (hFreed : engine.freedBy op = []) (hQuiet : ¬ engine.Changes op) :
    KeepsAlive address engine op :=
  ⟨fun _ _ => by simp [hFreed], fun _ hChanges => absurd hChanges hQuiet⟩

/-- One operation keeps the address live just if it frees nothing the address goes on to find. -/
theorem Effect.liveAt_iff (hEffect : engine.Effect op blocks features)
    (hLive : LiveAt address engine.virtBlockCache) (hConsistent : engine.virtBlockCache.Consistent)
    (hAddress : address ≠ BitVec.allOnes 64) : LiveAt address blocks ↔ KeepsAlive address engine op := by
  cases hEffect with
  | keep hQuiet hRegisters =>
    rw [liveAt_noteFreed_iff hLive]
    constructor
    · intro hFree
      exact ⟨fun _ => hFree, fun _ hChanges => absurd hChanges hQuiet⟩
    · intro hKeeps
      exact hKeeps.free (by simp [hRegisters])
  | insert other ptr required hQuiet hOffers hRegisters =>
    rw [liveAt_insert_iff, liveAt_noteFreed_iff hLive]
    rcases hRegisters with hSome | ⟨hNone, hFreed⟩
    · constructor
      · intro hFree
        refine ⟨fun hSlot => hFree fun hSame => hSlot ?_, fun _ hChanges => absurd hChanges hQuiet⟩
        rw [hSome, hSame, Option.map_some]
      · intro hKeeps hSlot
        refine hKeeps.free ?_
        rw [hSome, Option.map_some]
        exact fun hSame => hSlot (Option.some.inj hSame).symm
    · refine iff_of_true (fun _ _ => ?_) (keepsAlive_of_freedBy_nil hFreed hQuiet)
      rw [hFreed]
      exact List.not_mem_nil
  | invalidate blocks hQuiet hFreed =>
    exact iff_of_true (liveAt_invalidate hAddress) (keepsAlive_of_freedBy_nil hFreed hQuiet)
  | rewrite id level hQuiet hLevel hFreed => exact iff_of_true hLive (keepsAlive_of_freedBy_nil hFreed hQuiet)
  | change id level newLevel hOp hLevel hChange =>
    subst hOp
    rw [liveAt_invalidateFeatures_iff hLive hConsistent]
    constructor
    · intro hDrop
      exact ⟨fun _ _ => List.not_mem_nil, fun hOne _ => hDrop hOne⟩
    · intro hKeeps hOne
      exact hKeeps.drop hOne ⟨level, hLevel, hChange⟩

/-- What the cache returns for an address is live at the start and after every operation just if the
address is not the one that the cleared entries are tagged with, and no operation frees or drops what
the address goes on to find. -/
theorem entries_live_iff (maxCodeSize : Nat) (aggressive : Bool) (start : ProcessorFeatureSet)
    (ops : List Operation) (address : Address) :
    (LiveAt address (new maxCodeSize aggressive start).virtBlockCache ∧
        Throughout step (fun engine op => LiveAt address (engine.step op).virtBlockCache)
          (new maxCodeSize aggressive start) ops) ↔
      address ≠ BitVec.allOnes 64 ∧
        Throughout step (KeepsAlive address) (new maxCodeSize aggressive start) ops := by
  have hStart : LiveAt address (new maxCodeSize aggressive start).virtBlockCache ↔
      address ≠ BitVec.allOnes 64 := by
    refine ⟨fun hLive hOnes => ?_, liveAt_invalidate⟩
    subst hOnes
    obtain ⟨insertion, hInsertion, -⟩ :=
      hLive (show BlockCache.empty.lookup (BitVec.allOnes 64) ≠ 0 by decide)
    exact nomatch hInsertion
  rw [hStart]
  refine and_congr_right fun hAddress => throughout_congr
    (fun engine => LiveAt address engine.virtBlockCache ∧ engine.virtBlockCache.Consistent) ?_ ?_ ?_ ops
  · rintro engine op ⟨hLive, hConsistent⟩
    exact (engine.step_effect op).liveAt_iff hLive hConsistent hAddress
  · rintro engine op ⟨-, hConsistent⟩ hAfter
    exact ⟨hAfter, (engine.step_effect op).consistent hConsistent⟩
  · exact ⟨hStart.mpr hAddress, consistent_invalidate⟩

/-- A block is registered, its page is dirtied, and another block of the page is registered: the
insertion frees the function of the first block, and the cache goes on to return it. -/
theorem freed_block_returned :
    ¬ Throughout step (fun engine op => LiveAt 0x8000 (engine.step op).virtBlockCache)
        (new 0 false .empty)
        [.registerTranslation 0x1000 0x8000 0x100 16 [], .invalidateRegion 0x1000,
          .registerTranslation 0x1010 0x8010 0x200 16 []] := by
  rintro ⟨-, -, hAfter, -⟩
  obtain ⟨insertion, hInsertion, -, hFresh⟩ := hAfter (by decide)
  have hFreed : some insertion = some ⟨0x8000, .empty, true⟩ := hInsertion.symm.trans (by decide)
  rw [Option.some.inj hFreed] at hFresh
  exact absurd hFresh (by decide)

end Gensim.Core.BasicJITExecutionEngine
