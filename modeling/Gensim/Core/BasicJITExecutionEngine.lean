import Gensim.BlockJIT.BlockProfile

/-! The block bookkeeping of `BasicJITExecutionEngine` on one thread: the physical profile that owns
the translations, the virtual cache they are dispatched from, and the flushes between them. -/
namespace Gensim.Core

open BlockJIT

structure BasicJITExecutionEngine where
  physBlockProfile : BlockProfile
  virtBlockCache : BlockCache
  flushTxlns : Bool
  flushAllTxlns : Bool
  maxCodeSize : Nat
  /-- `archsim::options::AggressiveCodeInvalidation`. -/
  aggressiveCodeInvalidation : Bool
  /-- The feature levels of the thread. -/
  features : ProcessorFeatureSet

namespace BasicJITExecutionEngine

variable (engine : BasicJITExecutionEngine)

def new (maxCodeSize : Nat) (aggressive : Bool) (features : ProcessorFeatureSet) :
    BasicJITExecutionEngine :=
  ⟨.empty, .empty, false, false, maxCodeSize, aggressive, features⟩

/-- The profile moved on and gave functions to `Free`. -/
def setProfile (next : BlockProfile × List BlockTxlnFn) : BasicJITExecutionEngine :=
  { engine with physBlockProfile := next.1, virtBlockCache := engine.virtBlockCache.noteFreed next.2 }

def setCache (blocks : BlockCache) : BasicJITExecutionEngine := { engine with virtBlockCache := blocks }

def flushTxlnCache : BasicJITExecutionEngine := engine.setCache engine.virtBlockCache.invalidate

def flushTranslations : BasicJITExecutionEngine := { engine.flushTxlnCache with flushTxlns := true }

def flushAllTranslations : BasicJITExecutionEngine :=
  { engine.flushTxlnCache with flushTxlns := true, flushAllTxlns := true }

def flushTxlnsFeature : BasicJITExecutionEngine :=
  engine.setCache (engine.virtBlockCache.invalidateFeatures engine.features.getAvailableMask)

def invalidateRegion (address : PhysicalAddress) : BasicJITExecutionEngine :=
  { engine with physBlockProfile := engine.physBlockProfile.markPageDirty address }

def checkFlushTxlns : BasicJITExecutionEngine :=
  if engine.flushTxlns then
    let profile := engine.physBlockProfile
    let flushed := engine.setProfile
      (if engine.aggressiveCodeInvalidation || engine.flushAllTxlns then profile.invalidate
       else profile.garbageCollect)
    { flushed.flushTxlnCache with flushTxlns := false, flushAllTxlns := false }
  else engine

def checkCodeSize : BasicJITExecutionEngine :=
  if engine.maxCodeSize = 0 then engine
  else if engine.maxCodeSize < engine.physBlockProfile.codeSize then
    (engine.setProfile engine.physBlockProfile.invalidate).flushTxlnCache
  else engine

/-- `PerformTranslation` answers the fetch with a physical address, or with a fault. -/
def lookupBlock (address : Address) (translated : Option PhysicalAddress) : BasicJITExecutionEngine :=
  if engine.virtBlockCache.lookup address ≠ 0 then engine
  else
    match translated with
    | none => engine
    | some physaddr =>
        let (txln, next) := engine.physBlockProfile.get physaddr engine.features
        let engine := engine.setProfile next
        if txln.IsValid engine.features then
          engine.setCache (engine.virtBlockCache.insert address txln.fn txln.featuresRequired)
        else engine

def registerTranslation (physAddr : PhysicalAddress) (virtAddr : Address) (txln : BlockTranslation) :
    BasicJITExecutionEngine :=
  let engine := engine.setProfile (engine.physBlockProfile.insert physAddr txln)
  engine.setCache (engine.virtBlockCache.insert virtAddr txln.fn txln.featuresRequired)

/-- `AttachFeaturesTo`: the features a translation has read, at the levels it started from. -/
def attachFeatures : List (BitVec 32) → ProcessorFeatureSet
  | [] => .empty
  | id :: reads =>
      match engine.features.getFeatureLevel id with
      | none => attachFeatures reads
      | some level => (attachFeatures reads).setFeatureLevel id level

/-- The listener of the change runs before the level is written. -/
def setFeatureLevel (id newLevel : BitVec 32) : BasicJITExecutionEngine :=
  match engine.features.getFeatureLevel id with
  | none => engine
  | some level =>
      let engine := if level ≠ newLevel then engine.flushTxlnsFeature else engine
      { engine with features := engine.features.setFeatureLevel id newLevel }

/-- What can happen to an engine: calls of its own, and the events it subscribes to. A translation
comes with its function, its size and the features it read. -/
inductive Operation where
  | registerTranslation (physAddr : PhysicalAddress) (virtAddr : Address) (fn : BlockTxlnFn) (size : Nat)
      (reads : List (BitVec 32))
  | lookupBlock (address : Address) (translated : Option PhysicalAddress)
  | setFeatureLevel (id newLevel : BitVec 32)
  | invalidateRegion (address : PhysicalAddress)
  | flushTxlnCache
  | flushTxlns
  | flushAllTxlns
  | checkFlushTxlns
  | checkCodeSize

def step : Operation → BasicJITExecutionEngine
  | .registerTranslation physAddr virtAddr fn size reads =>
      engine.registerTranslation physAddr virtAddr ⟨fn, engine.attachFeatures reads, size⟩
  | .lookupBlock address translated => engine.lookupBlock address translated
  | .setFeatureLevel id newLevel => engine.setFeatureLevel id newLevel
  | .invalidateRegion address => engine.invalidateRegion address
  | .flushTxlnCache => engine.flushTxlnCache
  | .flushTxlns => engine.flushTranslations
  | .flushAllTxlns => engine.flushAllTranslations
  | .checkFlushTxlns => engine.checkFlushTxlns
  | .checkCodeSize => engine.checkCodeSize

/-- A translation is recorded for the levels it was made at. -/
theorem offers_attachFeatures (reads : List (BitVec 32)) : engine.features.Offers (engine.attachFeatures reads) := by
  induction reads with
  | nil => exact ProcessorFeatureSet.offers_empty _
  | cons id reads ih =>
    rw [attachFeatures]
    cases hLevel : engine.features.getFeatureLevel id with
    | none => exact ih
    | some level =>
      intro feature hMem
      rcases List.mem_cons.mp hMem with rfl | hRest
      · exact hLevel
      · exact ih feature (List.mem_filter.mp hRest).1

/-- The functions that a registration or a look-up gives to `Free`, in the state it is called in. The
flushes free functions too, and then empty the cache. -/
def freedBy : Operation → List BlockTxlnFn
  | .registerTranslation physAddr _ _ _ _ => engine.physBlockProfile.droppedByInsert physAddr
  | .lookupBlock address (some physaddr) =>
      if engine.virtBlockCache.lookup address ≠ 0 then []
      else engine.physBlockProfile.droppedByGet physaddr engine.features
  | _ => []

/-- The address an operation registers a translation for. -/
def Operation.registers : Operation → Option Address
  | .registerTranslation _ virtAddr _ _ _ => some virtAddr
  | _ => none

/-- The operation changes the level of a feature that the thread has. -/
def Changes : Operation → Prop
  | .setFeatureLevel id newLevel =>
      ∃ level, engine.features.getFeatureLevel id = some level ∧ level ≠ newLevel
  | _ => False

/-- What an operation can do to the cache and to the levels of the thread. -/
inductive Effect (op : Operation) : BlockCache → ProcessorFeatureSet → Prop where
  | keep (hQuiet : ¬ engine.Changes op) (hRegisters : op.registers = none) :
      Effect op (engine.virtBlockCache.noteFreed (engine.freedBy op)) engine.features
  | insert (address : Address) (ptr : BlockTxlnFn) (required : ProcessorFeatureSet)
      (hQuiet : ¬ engine.Changes op) (hOffers : engine.features.Offers required)
      (hRegisters : op.registers = some address ∨ op.registers = none ∧ engine.freedBy op = []) :
      Effect op ((engine.virtBlockCache.noteFreed (engine.freedBy op)).insert address ptr required)
        engine.features
  | invalidate (blocks : BlockCache) (hQuiet : ¬ engine.Changes op) (hFreed : engine.freedBy op = []) :
      Effect op blocks.invalidate engine.features
  | rewrite (id level : BitVec 32) (hQuiet : ¬ engine.Changes op)
      (hLevel : engine.features.getFeatureLevel id = some level) (hFreed : engine.freedBy op = []) :
      Effect op engine.virtBlockCache (engine.features.setFeatureLevel id level)
  | change (id level newLevel : BitVec 32) (hOp : op = .setFeatureLevel id newLevel)
      (hLevel : engine.features.getFeatureLevel id = some level) (hChange : level ≠ newLevel) :
      Effect op (engine.virtBlockCache.invalidateFeatures engine.features.getAvailableMask)
        (engine.features.setFeatureLevel id newLevel)

variable {engine}

theorem effect_of_unchanged {op : Operation} {next : BasicJITExecutionEngine}
    (hQuiet : ¬ engine.Changes op) (hRegisters : op.registers = none) (hFreed : engine.freedBy op = [])
    (hCache : next.virtBlockCache = engine.virtBlockCache) (hFeatures : next.features = engine.features) :
    engine.Effect op next.virtBlockCache next.features := by
  have hKeep : engine.Effect op _ engine.features := .keep hQuiet hRegisters
  rwa [hFreed, BlockCache.noteFreed_nil, ← hCache, ← hFeatures] at hKeep

theorem lookupBlock_effect (address : Address) (translated : Option PhysicalAddress) :
    engine.Effect (.lookupBlock address translated) (engine.lookupBlock address translated).virtBlockCache
      (engine.lookupBlock address translated).features := by
  cases translated with
  | none => exact effect_of_unchanged id rfl rfl (by simp [lookupBlock]) (by simp [lookupBlock])
  | some physaddr =>
    let op := Operation.lookupBlock address (some physaddr)
    by_cases hHit : engine.virtBlockCache.lookup address ≠ 0
    · rw [lookupBlock, if_pos hHit]
      exact effect_of_unchanged id rfl (if_pos hHit) rfl rfl
    · have hFreed : (engine.physBlockProfile.get physaddr engine.features).2.2 = engine.freedBy op := by
        rw [freedBy, if_neg hHit, BlockProfile.get_freed]
      rw [lookupBlock, if_neg hHit]
      dsimp only [setProfile, setCache]
      rw [hFreed]
      split
      next hValid =>
        have hNone : engine.freedBy op = [] := by
          rw [BlockProfile.get_txln] at hValid
          rw [← hFreed, BlockProfile.get_freed, BlockProfile.droppedByGet]
          exact if_neg fun h => h.2 hValid.2
        exact .insert address _ _ id hValid.2 (.inr ⟨rfl, hNone⟩)
      next => exact .keep id rfl

theorem step_effect (op : Operation) : engine.Effect op (engine.step op).virtBlockCache (engine.step op).features := by
  cases op with
  | registerTranslation physAddr virtAddr fn size reads =>
    dsimp only [step, registerTranslation, setProfile, setCache]
    rw [BlockProfile.insert_freed]
    exact .insert virtAddr fn _ id (engine.offers_attachFeatures reads) (.inl rfl)
  | lookupBlock address translated => exact lookupBlock_effect address translated
  | setFeatureLevel feature newLevel =>
    rw [step, setFeatureLevel]
    cases hLevel : engine.features.getFeatureLevel feature with
    | none =>
      refine effect_of_unchanged ?_ rfl rfl rfl rfl
      rintro ⟨level, hSome, -⟩
      exact absurd (hSome.symm.trans hLevel) (by simp)
    | some level =>
      by_cases hChange : level = newLevel
      · subst hChange
        dsimp only
        rw [if_neg (not_not_intro rfl)]
        refine .rewrite feature level ?_ hLevel rfl
        rintro ⟨other, hSome, hOther⟩
        exact hOther (Option.some.inj (hSome.symm.trans hLevel))
      · dsimp only
        rw [if_pos hChange]
        exact .change feature level newLevel rfl hLevel hChange
  | invalidateRegion address => exact effect_of_unchanged id rfl rfl rfl rfl
  | flushTxlnCache => exact .invalidate engine.virtBlockCache id rfl
  | flushTxlns => exact .invalidate engine.virtBlockCache id rfl
  | flushAllTxlns => exact .invalidate engine.virtBlockCache id rfl
  | checkFlushTxlns =>
    rw [step, checkFlushTxlns]
    split
    · exact .invalidate _ id rfl
    · exact effect_of_unchanged id rfl rfl rfl rfl
  | checkCodeSize =>
    rw [step, checkCodeSize]
    split
    · exact effect_of_unchanged id rfl rfl rfl rfl
    · split
      · exact .invalidate _ id rfl
      · exact effect_of_unchanged id rfl rfl rfl rfl

theorem Effect.consistent {op : Operation} {blocks : BlockCache} {features : ProcessorFeatureSet}
    (hEffect : engine.Effect op blocks features) (hConsistent : engine.virtBlockCache.Consistent) :
    blocks.Consistent := by
  cases hEffect with
  | keep => exact hConsistent.noteFreed _
  | insert => exact (hConsistent.noteFreed _).insert _ _ _
  | invalidate => exact BlockCache.consistent_invalidate
  | rewrite => exact hConsistent
  | change => exact hConsistent.invalidateFeatures _

end BasicJITExecutionEngine

end Gensim.Core
