import Gensim.Core.Address
import Gensim.Lib.Operations

/-! The region look-up of the translation manager: the table of regions, the cache in front of it,
and the regions touched since the last profile. -/
namespace Gensim.Translate

open Core Operations

/-- The identity of a `Region` object. -/
abbrev RegionId := Nat

/-- One region for each page, and the same regions as a set. -/
structure RegionTable where
  regions : Nat → Option RegionId
  denseRegions : List RegionId

structure RegionCacheEntry where
  tag : Nat
  data : Option RegionId
  deriving DecidableEq

namespace RegionCacheEntry

/-- An entry as `Invalidate` leaves it. -/
def empty : RegionCacheEntry := ⟨1, none⟩

end RegionCacheEntry

structure TranslationManager where
  regions : RegionTable
  regionCache : Nat → RegionCacheEntry
  touchedRegions : List (Option RegionId)
  /-- `invalid_` of each region. -/
  invalid : RegionId → Bool
  nextRegion : RegionId

namespace TranslationManager

variable (manager : TranslationManager)

def regionCacheSize : Nat := 1024

def new : TranslationManager := ⟨⟨fun _ => none, []⟩, fun _ => .empty, [], fun _ => false, 0⟩

/-- `RegionTable::Get`, which makes the region that is not there. -/
def tableGet (page : Nat) : RegionId × TranslationManager :=
  match manager.regions.regions page with
  | some region => (region, manager)
  | none => (manager.nextRegion,
      { manager with
        regions :=
          ⟨Function.update manager.regions.regions page (some manager.nextRegion),
            manager.nextRegion :: manager.regions.denseRegions⟩
        nextRegion := manager.nextRegion + 1 })

/-- `wutils::vset::insert`. -/
def touch (region : Option RegionId) : TranslationManager :=
  { manager with
    touchedRegions :=
      if region ∈ manager.touchedRegions then manager.touchedRegions
      else manager.touchedRegions ++ [region] }

def setEntry (slot : Nat) (entry : RegionCacheEntry) : TranslationManager :=
  { manager with regionCache := Function.update manager.regionCache slot entry }

/-- `none` where a null pointer is dereferenced. -/
def getRegion (page : Nat) : Option RegionId × TranslationManager :=
  let slot := page % regionCacheSize
  let entry := manager.regionCache slot
  if entry.tag ≠ page then
    let got := manager.tableGet page
    (some got.1, (got.2.setEntry slot ⟨page, some got.1⟩).touch (some got.1))
  else (entry.data, manager.touch entry.data)

/-- `rgn.Invalidate()` and `regions.Erase(phys_addr)`; the cache and the touched regions stay. -/
def invalidateRegion (page : Nat) : TranslationManager :=
  let got := manager.tableGet page
  { got.2 with
    invalid := Function.update got.2.invalid got.1 true
    regions :=
      ⟨Function.update got.2.regions.regions page none, got.2.regions.denseRegions.erase got.1⟩ }

/-- The touched regions stay. -/
def invalidate : TranslationManager :=
  { manager with
    invalid := fun region => manager.invalid region || decide (region ∈ manager.regions.denseRegions)
    regions := ⟨fun _ => none, []⟩
    regionCache := fun _ => .empty }

/-- What profiling does to the regions themselves, their heat and their status, is left out. -/
def profile : TranslationManager := { manager with touchedRegions := [] }

/-- `InvalidateRegion` asserts that its address is the base of a page. -/
inductive Operation where
  | getRegion (address : PhysicalAddress)
  | invalidateRegion (page : Fin (2 ^ 20))
  | invalidate
  | profile

def step : Operation → TranslationManager
  | .getRegion address => (manager.getRegion address.getPageIndex).2
  | .invalidateRegion page => manager.invalidateRegion page
  | .invalidate => manager.invalidate
  | .profile => manager.profile

/-- The table holds the region for the page, and the region is valid. -/
def Holds (page : Nat) (region : RegionId) : Prop :=
  manager.regions.regions page = some region ∧ manager.invalid region = false

/-- The region a look-up returns is the valid one that the table holds for the page. -/
def Finds : Operation → Prop
  | .getRegion address =>
      ∃ region, (manager.getRegion address.getPageIndex).1 = some region ∧
        (manager.getRegion address.getPageIndex).2.Holds address.getPageIndex region
  | _ => True

/-- Every touched region is a valid one that the table holds. -/
def TouchedHeld : Prop :=
  ∀ touched ∈ manager.touchedRegions, ∃ page region, touched = some region ∧ manager.Holds page region

/-! ## The condition on a history

A history has the latest operation first. -/

/-- The page that a cache entry was last filled for, since the last full invalidation. -/
def lastFill (slot : Nat) : List Operation → Option Nat
  | [] => none
  | .getRegion address :: history =>
      if address.getPageIndex % regionCacheSize = slot then some address.getPageIndex
      else lastFill slot history
  | .invalidate :: _ => none
  | _ :: history => lastFill slot history

/-- Whether a page has been invalidated since it was last asked for. -/
def droppedSince (page : Nat) : List Operation → Bool
  | [] => false
  | .getRegion address :: history => address.getPageIndex ≠ page && droppedSince page history
  | .invalidateRegion dropped :: history => dropped = page || droppedSince page history
  | _ :: history => droppedSince page history

/-- The pages asked for since the last profile. -/
def askedFor : List Operation → List Nat
  | [] => []
  | .getRegion address :: history => address.getPageIndex :: askedFor history
  | .profile :: _ => []
  | _ :: history => askedFor history

/-- A look-up of page 1 does not come to an empty entry, whose tag is 1; no look-up comes to an entry
whose page has been invalidated since it was filled; and no page is invalidated between a look-up of
it and the next profile. -/
def Orderly (history : List Operation) : Operation → Prop
  | .getRegion address =>
      let page := address.getPageIndex
      (lastFill (page % regionCacheSize) history = none → page ≠ 1) ∧
        (lastFill (page % regionCacheSize) history = some page → droppedSince page history = false)
  | .invalidateRegion page => page.val ∉ askedFor history
  | .invalidate => askedFor history = []
  | .profile => True

/-! ## The table -/

variable {manager : TranslationManager} {page : Nat}

/-- The table has each region once, in both of its forms, and only valid ones. -/
structure TableOk (manager : TranslationManager) : Prop where
  valid : ∀ page region, manager.regions.regions page = some region → manager.invalid region = false
  known : ∀ page region, manager.regions.regions page = some region → region < manager.nextRegion
  inj : ∀ page other region, manager.regions.regions page = some region →
    manager.regions.regions other = some region → page = other
  dense : ∀ region, region ∈ manager.regions.denseRegions ↔
    ∃ page, manager.regions.regions page = some region
  nodup : manager.regions.denseRegions.Nodup
  fresh : ∀ region, manager.nextRegion ≤ region → manager.invalid region = false

@[simp] theorem tableGet_regionCache : (manager.tableGet page).2.regionCache = manager.regionCache := by
  unfold tableGet
  split <;> rfl

@[simp] theorem tableGet_touchedRegions : (manager.tableGet page).2.touchedRegions = manager.touchedRegions := by
  unfold tableGet
  split <;> rfl

@[simp] theorem tableGet_invalid : (manager.tableGet page).2.invalid = manager.invalid := by
  unfold tableGet
  split <;> rfl

/-- Whether the region was there or not, it is now. -/
theorem tableGet_regions : (manager.tableGet page).2.regions.regions =
    Function.update manager.regions.regions page (some (manager.tableGet page).1) := by
  unfold tableGet
  split
  next region hRegion => rw [← hRegion, Function.update_eq_self]
  next => rfl

variable {region : RegionId}

theorem tableGet_fst_of_some (hRegion : manager.regions.regions page = some region) :
    (manager.tableGet page).1 = region := by
  unfold tableGet
  rw [hRegion]

theorem tableGet_regions_of_some {other : Nat} (hRegion : manager.regions.regions other = some region) :
    (manager.tableGet page).2.regions.regions other = some region := by
  rw [tableGet_regions, Function.update_apply]
  split
  next hSame =>
    subst hSame
    rw [tableGet_fst_of_some hRegion]
  next => exact hRegion

theorem TableOk.tableGet (hOk : manager.TableOk) (page : Nat) : (manager.tableGet page).2.TableOk := by
  cases hRegion : manager.regions.regions page with
  | some region =>
    have hSame : (manager.tableGet page).2 = manager := by rw [TranslationManager.tableGet, hRegion]
    rwa [hSame]
  | none =>
    have hNew : ∀ other region, (manager.tableGet page).2.regions.regions other = some region ↔
        (other = page ∧ region = manager.nextRegion) ∨ manager.regions.regions other = some region := by
      intro other region
      rw [tableGet_regions, Function.update_apply, TranslationManager.tableGet, hRegion]
      by_cases hSame : other = page
      · simp [hSame, hRegion, eq_comm]
      · simp [hSame]
    have hNext : (manager.tableGet page).2.nextRegion = manager.nextRegion + 1 := by
      rw [TranslationManager.tableGet, hRegion]
    have hDense : (manager.tableGet page).2.regions.denseRegions =
        manager.nextRegion :: manager.regions.denseRegions := by
      rw [TranslationManager.tableGet, hRegion]
    constructor
    · intro other region hOther
      rw [tableGet_invalid]
      rcases (hNew other region).mp hOther with ⟨-, rfl⟩ | hOld
      · exact hOk.fresh _ le_rfl
      · exact hOk.valid other region hOld
    · intro other region hOther
      rw [hNext]
      rcases (hNew other region).mp hOther with ⟨-, rfl⟩ | hOld
      · exact Nat.lt_succ_self _
      · exact (hOk.known other region hOld).trans (Nat.lt_succ_self _)
    · intro first second region hFirst hSecond
      rcases (hNew first region).mp hFirst with ⟨hPage, hEq⟩ | hOldFirst
      · rcases (hNew second region).mp hSecond with ⟨hOther, -⟩ | hOldSecond
        · rw [hPage, hOther]
        · exact absurd (hOk.known second region hOldSecond) (by rw [hEq]; exact lt_irrefl _)
      · rcases (hNew second region).mp hSecond with ⟨-, hEq⟩ | hOldSecond
        · exact absurd (hOk.known first region hOldFirst) (by rw [hEq]; exact lt_irrefl _)
        · exact hOk.inj first second region hOldFirst hOldSecond
    · intro region
      rw [hDense, List.mem_cons, hOk.dense]
      simp only [hNew, exists_or, exists_and_right, exists_eq, true_and]
    · rw [hDense, List.nodup_cons]
      refine ⟨fun hMem => ?_, hOk.nodup⟩
      obtain ⟨other, hOther⟩ := (hOk.dense _).mp hMem
      exact lt_irrefl _ (hOk.known other _ hOther)
    · intro region hLe
      rw [hNext] at hLe
      rw [tableGet_invalid]
      exact hOk.fresh region (Nat.le_of_succ_le hLe)

theorem invalidateRegion_regions (other : Nat) : (manager.invalidateRegion page).regions.regions other =
    if other = page then none else manager.regions.regions other := by
  unfold invalidateRegion
  dsimp only
  rw [tableGet_regions, Function.update_idem, Function.update_apply]

theorem invalidateRegion_invalid (region : RegionId) : (manager.invalidateRegion page).invalid region =
    if region = (manager.tableGet page).1 then true else manager.invalid region := by
  unfold invalidateRegion
  dsimp only
  rw [tableGet_invalid, Function.update_apply]

/-- The region that is dropped is held for no other page. -/
theorem TableOk.ne_dropped (hOk : manager.TableOk) {other : Nat} (hNe : other ≠ page)
    (hRegion : manager.regions.regions other = some region) : region ≠ (manager.tableGet page).1 := by
  intro hEq
  have hGet := hOk.tableGet page
  refine hNe (hGet.inj other page region (tableGet_regions_of_some hRegion) ?_)
  rw [tableGet_regions, Function.update_self, hEq]

theorem TableOk.invalidateRegion (hOk : manager.TableOk) (page : Nat) : (manager.invalidateRegion page).TableOk := by
  have hGet := hOk.tableGet page
  have hRest : ∀ other region, (manager.invalidateRegion page).regions.regions other = some region →
      other ≠ page ∧ manager.regions.regions other = some region := by
    intro other region hOther
    rw [invalidateRegion_regions] at hOther
    split at hOther
    · cases hOther
    next hNe => exact ⟨hNe, hOther⟩
  constructor
  · intro other region hOther
    obtain ⟨hNe, hOld⟩ := hRest other region hOther
    rw [invalidateRegion_invalid, if_neg (hOk.ne_dropped hNe hOld)]
    exact hOk.valid other region hOld
  · intro other region hOther
    exact hGet.known other region (tableGet_regions_of_some (hRest other region hOther).2)
  · intro first second region hFirst hSecond
    exact hOk.inj first second region (hRest first region hFirst).2 (hRest second region hSecond).2
  · intro region
    refine (hGet.nodup.mem_erase_iff).trans ?_
    rw [hGet.dense]
    constructor
    · rintro ⟨hNe, other, hOther⟩
      refine ⟨other, ?_⟩
      rw [tableGet_regions, Function.update_apply] at hOther
      split at hOther
      · exact absurd (Option.some.inj hOther).symm hNe
      next hOtherNe => rwa [invalidateRegion_regions, if_neg hOtherNe]
    · rintro ⟨other, hOther⟩
      obtain ⟨hNe, hOld⟩ := hRest other region hOther
      exact ⟨hOk.ne_dropped hNe hOld, other, tableGet_regions_of_some hOld⟩
  · exact hGet.nodup.erase _
  · intro region hLe
    have hNew : region ≠ (manager.tableGet page).1 := by
      intro hEq
      have hKnown := hGet.known page (manager.tableGet page).1 (by rw [tableGet_regions, Function.update_self])
      exact absurd hLe (not_le.mpr (hEq ▸ hKnown))
    rw [invalidateRegion_invalid, if_neg hNew]
    have hFresh := hGet.fresh region hLe
    rwa [tableGet_invalid] at hFresh

theorem TableOk.invalidate (hOk : manager.TableOk) : manager.invalidate.TableOk where
  valid _ _ := nofun
  known _ _ := nofun
  inj _ _ _ := nofun
  dense region := by simp [TranslationManager.invalidate]
  nodup := List.nodup_nil
  fresh region hLe := by
    have hOut : region ∉ manager.regions.denseRegions := by
      intro hMem
      obtain ⟨page, hPage⟩ := (hOk.dense region).mp hMem
      exact absurd hLe (not_le.mpr (hOk.known page region hPage))
    simp [TranslationManager.invalidate, hOut, hOk.fresh region hLe]

/-! ## What a manager keeps of an orderly history -/

variable {history : List Operation}

/-- The entry of a slot that was last filled for the page: while the page has not been invalidated it
has the region of the table, and after that a region that is invalid. -/
def Filled (manager : TranslationManager) (page : Nat) (dropped : Bool) (entry : RegionCacheEntry) : Prop :=
  ∃ region, entry = ⟨page, some region⟩ ∧
    if dropped then manager.invalid region = true else manager.regions.regions page = some region

structure Tracks (manager : TranslationManager) (history : List Operation) : Prop where
  table : manager.TableOk
  empty : ∀ slot, lastFill slot history = none → manager.regionCache slot = .empty
  filled : ∀ slot page, lastFill slot history = some page → page % regionCacheSize = slot ∧
    manager.Filled page (droppedSince page history) (manager.regionCache slot)
  asked : ∀ page ∈ askedFor history, ∃ region, manager.regions.regions page = some region ∧
    some region ∈ manager.touchedRegions
  touched : ∀ region ∈ manager.touchedRegions, ∃ page ∈ askedFor history,
    manager.regions.regions page = region

theorem tracks_new : new.Tracks [] where
  table := by
    constructor <;> simp [new]
  empty _ _ := rfl
  filled _ _ := nofun
  asked _ := nofun
  touched _ := nofun

theorem Tracks.touchedHeld (hTracks : manager.Tracks history) : manager.TouchedHeld := by
  intro touched hMem
  obtain ⟨page, hAsked, hRegion⟩ := hTracks.touched touched hMem
  obtain ⟨region, hSome, -⟩ := hTracks.asked page hAsked
  exact ⟨page, region, hRegion ▸ hSome, hSome, hTracks.table.valid page region hSome⟩

theorem mem_touch {region other : Option RegionId} :
    other ∈ (manager.touch region).touchedRegions ↔ other = region ∨ other ∈ manager.touchedRegions := by
  unfold touch
  dsimp only
  split
  next hMem =>
    constructor
    · exact .inr
    · rintro (rfl | hOther)
      · exact hMem
      · exact hOther
  next => rw [List.mem_append, List.mem_singleton, or_comm]

section

variable (hTracks : manager.Tracks history)
include hTracks

/-- A look-up that finds the region of the table, or makes it, keeps track: `after` is the manager
before the region is touched. -/
theorem Tracks.getRegion {after : TranslationManager} {address : PhysicalAddress} (hTable : after.TableOk)
    (hCache : after.regionCache = Function.update manager.regionCache
      (address.getPageIndex % regionCacheSize) ⟨address.getPageIndex, some region⟩)
    (hTouched : after.touchedRegions = manager.touchedRegions) (hInvalid : after.invalid = manager.invalid)
    (hRegions : after.regions.regions = Function.update manager.regions.regions address.getPageIndex (some region))
    (hSame : ∀ other, manager.regions.regions address.getPageIndex = some other → region = other) :
    (after.touch (some region)).Tracks (.getRegion address :: history) := by
  have hKeep : ∀ page other, manager.regions.regions page = some other → after.regions.regions page = some other := by
    intro page other hOther
    rw [hRegions, Function.update_apply]
    split
    next hPage => rw [hSame other (hPage ▸ hOther)]
    next => exact hOther
  have hHeld : after.regions.regions address.getPageIndex = some region := by rw [hRegions, Function.update_self]
  constructor
  · exact ⟨hTable.valid, hTable.known, hTable.inj, hTable.dense, hTable.nodup, hTable.fresh⟩
  · intro slot hFill
    rw [lastFill] at hFill
    split at hFill
    · cases hFill
    next hSlot =>
      change after.regionCache slot = _
      rw [hCache, Function.update_of_ne (Ne.symm hSlot)]
      exact hTracks.empty slot hFill
  · intro slot page hFill
    rw [lastFill] at hFill
    split at hFill
    next hSlot =>
      obtain rfl := Option.some.inj hFill
      refine ⟨hSlot, region, ?_, ?_⟩
      · change after.regionCache slot = _
        rw [hCache, hSlot, Function.update_self]
      · have hAnew : droppedSince address.getPageIndex (.getRegion address :: history) = false := by
          simp [droppedSince]
        rw [hAnew]
        exact hHeld
    next hSlot =>
      obtain ⟨hPage, other, hEntry, hRegion⟩ := hTracks.filled slot page hFill
      refine ⟨hPage, other, ?_, ?_⟩
      · change after.regionCache slot = _
        rw [hCache, Function.update_of_ne (Ne.symm hSlot), hEntry]
      · have hNe : address.getPageIndex ≠ page := fun h => hSlot (h ▸ hPage)
        rw [droppedSince, decide_eq_true hNe, Bool.true_and]
        cases hDropped : droppedSince page history with
        | true =>
          rw [hDropped] at hRegion
          change after.invalid other = true
          rw [hInvalid]
          exact hRegion
        | false =>
          rw [hDropped] at hRegion
          exact hKeep page other hRegion
  · intro page hAsked
    rcases List.mem_cons.mp hAsked with rfl | hBefore
    · exact ⟨region, hHeld, mem_touch.mpr (.inl rfl)⟩
    · obtain ⟨other, hOther, hMem⟩ := hTracks.asked page hBefore
      exact ⟨other, hKeep page other hOther, mem_touch.mpr (.inr (hTouched ▸ hMem))⟩
  · intro other hMem
    rcases mem_touch.mp hMem with rfl | hBefore
    · exact ⟨_, List.mem_cons_self, hHeld⟩
    · obtain ⟨page, hAsked, hRegion⟩ := hTracks.touched other (hTouched ▸ hBefore)
      obtain ⟨found, hFound, -⟩ := hTracks.asked page hAsked
      exact ⟨page, List.mem_cons_of_mem _ hAsked, (hKeep page found hFound).trans (hFound.symm.trans hRegion)⟩

/-- A look-up is in order, finds its region and keeps track, or it is none of these. -/
theorem Tracks.getRegion_cases (address : PhysicalAddress) :
    (Orderly history (.getRegion address) ∧ manager.Finds (.getRegion address) ∧
        (manager.step (.getRegion address)).Tracks (.getRegion address :: history)) ∨
      (¬ Orderly history (.getRegion address) ∧ ¬ manager.Finds (.getRegion address)) := by
  let page := address.getPageIndex
  let slot := page % regionCacheSize
  by_cases hTag : (manager.regionCache slot).tag ≠ page
  · -- the entry is for another page, so the table answers
    left
    have hMiss : manager.getRegion page = (some (manager.tableGet page).1,
        ((manager.tableGet page).2.setEntry slot ⟨page, some (manager.tableGet page).1⟩).touch
          (some (manager.tableGet page).1)) := if_pos hTag
    have hGet := hTracks.table.tableGet page
    have hHeld : (manager.tableGet page).2.regions.regions page = some (manager.tableGet page).1 := by
      rw [tableGet_regions, Function.update_self]
    refine ⟨⟨fun hNone hOne => ?_, fun hSome => ?_⟩, ⟨(manager.tableGet page).1, ?_, ?_⟩, ?_⟩
    · rw [hTracks.empty slot hNone] at hTag
      exact hTag hOne.symm
    · obtain ⟨-, region, hEntry, -⟩ := hTracks.filled slot page hSome
      rw [hEntry] at hTag
      exact absurd rfl hTag
    · rw [hMiss]
    · rw [hMiss]
      exact ⟨hHeld, hGet.valid page _ hHeld⟩
    · rw [step, hMiss]
      refine hTracks.getRegion ?_ ?_ ?_ ?_ tableGet_regions fun other => tableGet_fst_of_some
      · exact ⟨hGet.valid, hGet.known, hGet.inj, hGet.dense, hGet.nodup, hGet.fresh⟩
      · exact congrArg (fun cache => Function.update cache slot _) tableGet_regionCache
      · exact tableGet_touchedRegions
      · exact tableGet_invalid
  · rw [not_not] at hTag
    have hHit : manager.getRegion page = ((manager.regionCache slot).data,
        manager.touch (manager.regionCache slot).data) := if_neg (not_not_intro hTag)
    cases hFill : lastFill slot history with
    | none =>
      -- the entry is empty, and its tag is that of page 1
      right
      have hEmpty := hTracks.empty slot hFill
      rw [hEmpty] at hTag hHit
      refine ⟨fun hOrderly => hOrderly.1 hFill hTag.symm, ?_⟩
      rintro ⟨region, hRegion, -⟩
      rw [hHit] at hRegion
      cases hRegion
    | some filled =>
      obtain ⟨-, region, hEntry, hRegion⟩ := hTracks.filled slot filled hFill
      rw [hEntry] at hTag hHit
      obtain rfl : filled = page := hTag
      cases hDropped : droppedSince page history with
      | true =>
        rw [hDropped] at hRegion
        right
        refine ⟨fun hOrderly => ?_, ?_⟩
        · exact absurd (hDropped.symm.trans (hOrderly.2 hFill)) (by simp)
        · rintro ⟨found, hFound, -, hValid⟩
          rw [hHit] at hFound hValid
          obtain rfl := Option.some.inj hFound
          exact absurd (hRegion.symm.trans hValid) (by simp)
      | false =>
        rw [hDropped] at hRegion
        left
        refine ⟨⟨fun hNone => ?_, fun _ => hDropped⟩, ⟨region, ?_, ?_⟩, ?_⟩
        · exact absurd (hFill.symm.trans hNone) (by simp)
        · rw [hHit]
        · rw [hHit]
          exact ⟨hRegion, hTracks.table.valid page region hRegion⟩
        · rw [step, hHit]
          refine hTracks.getRegion hTracks.table ?_ rfl rfl ?_ fun other hOther => ?_
          · exact (Function.update_eq_self_iff.mpr hEntry.symm).symm
          · exact (Function.update_eq_self_iff.mpr hRegion.symm).symm
          · exact Option.some.inj (hRegion.symm.trans hOther)

theorem Tracks.invalidateRegion {page : Fin (2 ^ 20)} (hNot : page.val ∉ askedFor history) :
    (manager.invalidateRegion page).Tracks (.invalidateRegion page :: history) := by
  have hCache : (manager.invalidateRegion page).regionCache = manager.regionCache := tableGet_regionCache
  have hTouched : (manager.invalidateRegion page).touchedRegions = manager.touchedRegions := tableGet_touchedRegions
  have hInvalid : ∀ region, manager.invalid region = true → (manager.invalidateRegion page).invalid region = true := by
    intro region hRegion
    rw [invalidateRegion_invalid, hRegion, ite_self]
  have hOther : ∀ other region, other ≠ page.val → manager.regions.regions other = region →
      (manager.invalidateRegion page).regions.regions other = region := by
    intro other region hNe hRegion
    rw [invalidateRegion_regions, if_neg hNe, hRegion]
  constructor
  · exact hTracks.table.invalidateRegion page
  · intro slot hFill
    rw [hCache]
    exact hTracks.empty slot hFill
  · intro slot filled hFill
    obtain ⟨hSlot, region, hEntry, hRegion⟩ := hTracks.filled slot filled hFill
    refine ⟨hSlot, region, hCache ▸ hEntry, ?_⟩
    cases hDropped : droppedSince filled history with
    | true =>
      rw [hDropped] at hRegion
      rw [droppedSince, hDropped, Bool.or_true]
      exact hInvalid region hRegion
    | false =>
      rw [hDropped] at hRegion
      rw [droppedSince, hDropped, Bool.or_false]
      by_cases hPage : page.val = filled
      · subst hPage
        rw [decide_eq_true rfl]
        change (manager.invalidateRegion page).invalid region = true
        rw [invalidateRegion_invalid, if_pos (tableGet_fst_of_some hRegion).symm]
      · rw [decide_eq_false hPage]
        exact hOther filled _ (Ne.symm hPage) hRegion
  · intro asked hAsked
    obtain ⟨region, hRegion, hMem⟩ := hTracks.asked asked hAsked
    exact ⟨region, hOther asked _ (fun h => hNot (h ▸ hAsked)) hRegion, hTouched ▸ hMem⟩
  · intro region hMem
    obtain ⟨asked, hAsked, hRegion⟩ := hTracks.touched region (hTouched ▸ hMem)
    exact ⟨asked, hAsked, hOther asked _ (fun h => hNot (h ▸ hAsked)) hRegion⟩

/-- A page that was asked for leaves its region among the touched ones, where it is invalid now. -/
theorem Tracks.not_touchedHeld {after : TranslationManager} (hTouched : after.touchedRegions = manager.touchedRegions)
    {page : Nat} (hAsked : page ∈ askedFor history)
    (hInvalid : ∀ region, manager.regions.regions page = some region → after.invalid region = true) :
    ¬ after.TouchedHeld := by
  intro hHeld
  obtain ⟨region, hRegion, hMem⟩ := hTracks.asked page hAsked
  obtain ⟨-, found, hFound, -, hValid⟩ := hHeld (some region) (hTouched ▸ hMem)
  obtain rfl := Option.some.inj hFound
  exact absurd ((hInvalid region hRegion).symm.trans hValid) (by simp)

theorem Tracks.invalidate (hNone : askedFor history = []) :
    manager.invalidate.Tracks (.invalidate :: history) where
  table := hTracks.table.invalidate
  empty _ _ := rfl
  filled _ _ := nofun
  asked page hAsked := by
    change page ∈ askedFor history at hAsked
    rw [hNone] at hAsked
    cases hAsked
  touched region hMem := by
    obtain ⟨page, hAsked, -⟩ := hTracks.touched region hMem
    rw [hNone] at hAsked
    cases hAsked

theorem Tracks.profile : manager.profile.Tracks (.profile :: history) where
  table := ⟨hTracks.table.valid, hTracks.table.known, hTracks.table.inj, hTracks.table.dense,
    hTracks.table.nodup, hTracks.table.fresh⟩
  empty := hTracks.empty
  filled := hTracks.filled
  asked _ := nofun
  touched _ := nofun

/-- One operation is in order just if it finds what it should and leaves only held regions touched,
and then it keeps track. -/
theorem Tracks.step_cases (op : Operation) :
    (Orderly history op ∧ manager.Finds op ∧ (manager.step op).Tracks (op :: history)) ∨
      (¬ Orderly history op ∧ ¬ (manager.Finds op ∧ (manager.step op).TouchedHeld)) := by
  cases op with
  | getRegion address =>
    rcases hTracks.getRegion_cases address with hRight | ⟨hNot, hMiss⟩
    · exact .inl hRight
    · exact .inr ⟨hNot, fun hFinds => hMiss hFinds.1⟩
  | invalidateRegion page =>
    by_cases hAsked : page.val ∈ askedFor history
    · have hWrong : ¬ (manager.step (.invalidateRegion page)).TouchedHeld := by
        refine hTracks.not_touchedHeld tableGet_touchedRegions hAsked fun region hRegion => ?_
        rw [step, invalidateRegion_invalid, if_pos (tableGet_fst_of_some hRegion).symm]
      exact .inr ⟨not_not_intro hAsked, fun hRight => hWrong hRight.2⟩
    · exact .inl ⟨hAsked, trivial, hTracks.invalidateRegion hAsked⟩
  | invalidate =>
    cases hAsked : askedFor history with
    | nil => exact .inl ⟨hAsked, trivial, hTracks.invalidate hAsked⟩
    | cons page rest =>
      have hMem : page ∈ askedFor history := hAsked ▸ List.mem_cons_self
      have hWrong : ¬ (manager.step .invalidate).TouchedHeld := by
        refine hTracks.not_touchedHeld rfl hMem fun region hRegion => ?_
        have hDense := (hTracks.table.dense region).mpr ⟨page, hRegion⟩
        simp [step, TranslationManager.invalidate, hDense]
      refine .inr ⟨?_, fun hRight => hWrong hRight.2⟩
      rw [Orderly, hAsked]
      exact List.cons_ne_nil page rest
  | profile => exact .inl ⟨trivial, trivial, hTracks.profile⟩

end

/-- The manager with the operations that led to it. -/
def stepRecorded (recorded : TranslationManager × List Operation) (op : Operation) :
    TranslationManager × List Operation :=
  (recorded.1.step op, op :: recorded.2)

/-- Along every sequence of operations, each look-up returns the valid region that the table holds for
its page and every touched region stays one that the table holds, just if each operation is in order
after the ones before it. -/
theorem lookups_fresh_iff (ops : List Operation) :
    Throughout stepRecorded
        (fun recorded op => recorded.1.Finds op ∧ (recorded.1.step op).TouchedHeld) (new, []) ops ↔
      Throughout stepRecorded (fun recorded op => Orderly recorded.2 op) (new, []) ops := by
  refine throughout_congr (fun recorded => recorded.1.Tracks recorded.2) ?_ ?_ tracks_new ops
  · intro recorded op hTracks
    rcases hTracks.step_cases op with ⟨hOrderly, hFinds, hAfter⟩ | ⟨hNot, hWrong⟩
    · exact iff_of_true ⟨hFinds, hAfter.touchedHeld⟩ hOrderly
    · exact iff_of_false hWrong hNot
  · intro recorded op hTracks hRight
    rcases hTracks.step_cases op with ⟨-, -, hAfter⟩ | ⟨-, hWrong⟩
    · exact hAfter
    · exact absurd hRight hWrong

/-- A page is looked up, profiled, invalidated and looked up again: the cache still has the region that
was invalidated. -/
theorem stale_region_returned :
    ¬ Throughout stepRecorded
        (fun recorded op => recorded.1.Finds op ∧ (recorded.1.step op).TouchedHeld) (new, [])
        [.getRegion 0x5000, .profile, .invalidateRegion 5, .getRegion 0x5000] := by
  rintro ⟨-, -, -, ⟨⟨region, hRegion, hHeld, hValid⟩, -⟩, -⟩
  obtain rfl : 0 = region := Option.some.inj hRegion
  exact absurd hHeld (by decide)

end TranslationManager

end Gensim.Translate
