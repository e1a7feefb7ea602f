import Gensim.Lib.Operations
import Gensim.Memory.Unmapping

/-! The program break of a user program, and the VMA of its heap. -/
namespace Gensim.Abi

open Memory Memory.GuestAddress Memory.RegionBasedMemoryModel Operations

/-- The breaks, and the mappings and the bytes of the guest memory. -/
structure ProgramBreak where
  initialBreak : Nat
  programBreak : Nat
  backing : Backing
  mappings : RegionBasedMemoryModel RegionFlags
  data : ByteStore.Store

namespace ProgramBreak

/-- `data` are the bytes with the page mapped. -/
def setInitialBreak (backing : Backing) (mappings : RegionBasedMemoryModel RegionFlags) (data : ByteStore.Store)
    (depth brk : Nat) : Except Failure ProgramBreak := do
  let mappings ← mappings.mapRegion depth (alignDown brk) (alignUp 1) regFlagReadWrite
  return ⟨brk, brk, backing, mappings, data⟩

variable (state : ProgramBreak)

def remapped (brk : Nat) : Except Failure (Bool × RegionBasedMemoryModel RegionFlags × ByteStore.Store) :=
  state.mappings.remapRegion state.backing state.data state.initialBreak (alignUp (sub brk state.initialBreak))

/-- The break is set whether the region was remapped or not. -/
def setBreak (brk : Nat) : Except Failure ProgramBreak :=
  if brk < state.initialBreak then .ok state
  else do
    let (_, mappings, data) ← state.remapped brk
    return { state with programBreak := brk, mappings, data }

/-- A call that does not return ends the run. -/
def step (brk : Nat) : ProgramBreak := (state.setBreak brk).toOption.getD state

/-- What a call is for: the memory up to the break is mapped and can be written, no two VMAs overlap, the bytes
that were in it are kept, and the break has changed only if the region was remapped. -/
structure Served (brk : Nat) (next : ProgramBreak) : Prop where
  mapped : ∀ addr, state.initialBreak ≤ addr → addr < brk → next.mappings.Maps addr regFlagReadWrite
  apart : ∀ entry ∈ next.mappings.guestVmas, ∀ other ∈ next.mappings.guestVmas, entry.1 ≠ other.1 →
    ∀ addr, entry.2.contains addr → ¬ other.2.contains addr
  kept : ∀ addr, state.initialBreak ≤ addr → addr < brk → state.mappings.Maps addr regFlagReadWrite →
    next.data addr = state.data addr
  changed : next.programBreak ≠ state.programBreak → ∃ result, state.remapped brk = .ok (true, result)

def Serves (brk : Nat) : Prop := ∃ next, state.setBreak brk = .ok next ∧ state.Served brk next

/-- Where the VMA of the heap begins. -/
def heapBase : Nat := alignDown state.initialBreak

def heapSize : Nat := ((state.mappings.guestVmas.find? state.heapBase).map (·.size)).getD 0

/-- The heap has the initial break, a region is found that ends no sooner than the heap, none begins at the initial
break, and the new size reaches the break; or there is nothing to do. -/
def Servable (brk : Nat) : Prop :=
  if state.initialBreak < state.heapBase + state.heapSize then
    (∃ region ∈ state.mappings.allocatedRegions.lowerBound state.initialBreak,
      add state.initialBreak state.heapSize ≤ add region.1 region.2) ∧
    (∀ region ∈ mergeAllocatedRegions state.mappings.allocatedRegions, region.1 ≠ state.initialBreak) ∧
    (brk = state.initialBreak ∨ brk ≤ state.heapBase + alignUp (brk - state.initialBreak))
  else brk = state.initialBreak ∧ state.programBreak = brk

/-- The break is at or above the initial one, and with the size for it stays below `limit`. -/
structure Within (limit brk : Nat) : Prop where
  above : state.initialBreak ≤ brk
  below : brk ≤ limit
  reach : state.heapBase + alignUp (brk - state.initialBreak) ≤ limit

/-- The VMA of the heap is there, and no other has an address up to `limit`. -/
structure Heap (limit : Nat) : Prop where
  heap : ∃ size, (state.heapBase, ⟨state.heapBase, size, regFlagReadWrite⟩) ∈ state.mappings.guestVmas ∧
    state.heapBase + size ≤ limit
  others : ∀ entry ∈ state.mappings.guestVmas, entry.1 ≠ state.heapBase → entry.2.base = entry.1 ∧
    entry.1 + entry.2.size < space ∧ (entry.1 + entry.2.size ≤ state.heapBase ∨ limit ≤ entry.1)
  apart : ∀ entry ∈ state.mappings.guestVmas, ∀ other ∈ state.mappings.guestVmas,
    entry.1 ≠ state.heapBase → other.1 ≠ state.heapBase → entry.1 < other.1 → entry.1 + entry.2.size ≤ other.1
  page : state.heapBase + pageSize ≤ limit
  bounded : limit < space

variable {state} {limit brk : Nat}

theorem heapBase_le (state : ProgramBreak) : state.heapBase ≤ state.initialBreak ∧
    state.initialBreak < state.heapBase + pageSize := alignDown_le state.initialBreak

namespace Heap

variable (hHeap : state.Heap limit)

include hHeap

theorem mem_heap : (state.heapBase, ⟨state.heapBase, state.heapSize, regFlagReadWrite⟩) ∈ state.mappings.guestVmas ∧
    state.heapBase + state.heapSize ≤ limit := by
  obtain ⟨size, hMem, hLimit⟩ := hHeap.heap
  have hSize : state.heapSize = size := by
    rw [heapSize, SortedMap.find?_of_mem hMem]
    rfl
  exact hSize ▸ ⟨hMem, hLimit⟩

theorem upTo_initialBreak : state.mappings.guestVmas.upTo state.initialBreak =
    some (state.heapBase, ⟨state.heapBase, state.heapSize, regFlagReadWrite⟩) := by
  obtain ⟨hMem, hLimit⟩ := hHeap.mem_heap
  obtain ⟨hLe, hLt⟩ := state.heapBase_le
  have hPage := hHeap.page
  refine SortedMap.upTo_eq_some.mpr ⟨hMem, hLe, fun other hOther hBelow => ?_⟩
  by_contra hAbove
  have hApart := (hHeap.others other hOther (by omega)).2.2
  omega

theorem not_vmaIntersects : state.mappings.vmaIntersects state.heapBase
    ⟨state.heapBase, state.heapSize, regFlagReadWrite⟩ = false := by
  have hBounded := hHeap.bounded
  have hLimit := hHeap.mem_heap.2
  rw [vmaIntersects, List.any_eq_false]
  intro other hOther
  rw [decide_eq_true_eq]
  rintro ⟨hNe, hBelow, hAbove⟩
  obtain ⟨hKey, hRoom, hApart⟩ := hHeap.others other hOther hNe
  rw [GuestVMA.finish, hKey, add_of_lt hRoom] at hBelow
  rw [GuestVMA.finish, add_of_lt (by dsimp only; omega), hKey] at hAbove
  dsimp only at hBelow hAbove
  omega

/-- The heap with another size. -/
def resized (state : ProgramBreak) (size : Nat) : SortedMap Nat (GuestVMA RegionFlags) :=
  state.mappings.guestVmas.insert state.heapBase ⟨state.heapBase, size, regFlagReadWrite⟩

/-- The bytes with the heap of another size. -/
def resizedData (state : ProgramBreak) (size : Nat) : ByteStore.Store :=
  state.backing.resizeVMA state.data state.heapBase state.heapSize size

/-- What a remapping of the heap comes to. -/
theorem remapped_eq (hWithin : state.Within limit brk) : state.remapped brk =
    if state.initialBreak < state.heapBase + state.heapSize then
      (deallocateRegion state.mappings.allocatedRegions state.initialBreak state.heapSize).bind fun freed =>
        (allocateRegion freed state.initialBreak (alignUp (brk - state.initialBreak))).bind fun regions =>
          .ok (true, ⟨resized state (alignUp (brk - state.initialBreak)), regions⟩,
            resizedData state (alignUp (brk - state.initialBreak))) else .ok (false, state.mappings, state.data) := by
  have hBounded := hHeap.bounded
  have hLimit := hHeap.mem_heap.2
  have hContains : GuestVMA.contains ⟨state.heapBase, state.heapSize, regFlagReadWrite⟩ state.initialBreak ↔
      state.initialBreak < state.heapBase + state.heapSize := by
    rw [GuestVMA.contains, GuestVMA.finish, add_of_lt (by dsimp only; omega)]
    exact and_iff_right state.heapBase_le.1
  have hSub : sub brk state.initialBreak = brk - state.initialBreak :=
    sub_of_le hWithin.above (hWithin.below.trans_lt hBounded)
  rw [remapped, hSub, remapRegion, lookupVMA_of_upTo hHeap.upTo_initialBreak, alignUp_of_dvd (dvd_alignUp _)]
  by_cases hIn : state.initialBreak < state.heapBase + state.heapSize
  · rw [if_pos hIn, if_pos (hContains.mpr hIn)]
    change (if state.mappings.vmaIntersects state.heapBase _ = true then _ else _) = _
    rw [hHeap.not_vmaIntersects]
    rfl
  · rw [if_neg hIn, if_neg (mt hContains.mp hIn)]
    rfl

/-- The other VMAs have no address between the heap and the limit. -/
theorem not_contains_other {entry : Nat × GuestVMA RegionFlags} (hEntry : entry ∈ state.mappings.guestVmas)
    (hNe : entry.1 ≠ state.heapBase) {addr : Nat} (hAddr : state.heapBase ≤ addr) (hLimit : addr < limit) :
    ¬ entry.2.contains addr := by
  obtain ⟨hKey, hRoom, hApart⟩ := hHeap.others entry hEntry hNe
  rw [GuestVMA.contains, GuestVMA.finish, hKey, add_of_lt hRoom]
  omega

/-- The heap stays apart from the other VMAs while it ends below the limit. -/
theorem apart_resized {size : Nat} (hSize : state.heapBase + size ≤ limit) :
    ∀ entry ∈ resized state size, ∀ other ∈ resized state size, entry.1 ≠ other.1 →
      ∀ addr, entry.2.contains addr → ¬ other.2.contains addr := by
  have hBounded := hHeap.bounded
  have hHeapAddr {addr : Nat} (hAddr : GuestVMA.contains ⟨state.heapBase, size, regFlagReadWrite⟩ addr) :
      state.heapBase ≤ addr ∧ addr < limit := by
    rw [GuestVMA.contains, GuestVMA.finish, add_of_lt (by dsimp only; omega)] at hAddr
    dsimp only at hAddr
    omega
  intro entry hEntry other hOther hNe addr hIn
  rcases SortedMap.mem_insert.mp hEntry with rfl | ⟨hEntryNe, hEntryOld⟩
  · rcases SortedMap.mem_insert.mp hOther with rfl | ⟨hOtherNe, hOtherOld⟩
    · exact absurd rfl hNe
    · exact hHeap.not_contains_other hOtherOld hOtherNe (hHeapAddr hIn).1 (hHeapAddr hIn).2
  · rcases SortedMap.mem_insert.mp hOther with rfl | ⟨hOtherNe, hOtherOld⟩
    · intro hHeapIn
      exact hHeap.not_contains_other hEntryOld hEntryNe (hHeapAddr hHeapIn).1 (hHeapAddr hHeapIn).2 hIn
    · obtain ⟨hKey, hRoom, -⟩ := hHeap.others entry hEntryOld hEntryNe
      obtain ⟨hOtherKey, hOtherRoom, -⟩ := hHeap.others other hOtherOld hOtherNe
      rw [GuestVMA.contains, GuestVMA.finish, hKey, add_of_lt hRoom] at hIn
      rw [GuestVMA.contains, GuestVMA.finish, hOtherKey, add_of_lt hOtherRoom]
      rcases Nat.lt_or_gt_of_ne hNe with hBefore | hAfter
      · have hApart := hHeap.apart entry hEntryOld other hOtherOld hEntryNe hOtherNe hBefore
        omega
      · have hApart := hHeap.apart other hOtherOld entry hEntryOld hOtherNe hEntryNe hAfter
        omega

/-- With a heap of some size, the addresses up to the break are mapped just if the heap reaches it. -/
theorem mapped_iff {size : Nat} (hSize : state.heapBase + size ≤ limit) (hWithin : state.Within limit brk)
    {regions : SortedMap Nat Nat} : (∀ addr, state.initialBreak ≤ addr → addr < brk →
      RegionBasedMemoryModel.Maps ⟨resized state size, regions⟩ addr regFlagReadWrite) ↔
      brk = state.initialBreak ∨ brk ≤ state.heapBase + size := by
  obtain ⟨hAbove, hBelow, -⟩ := hWithin
  have hBounded := hHeap.bounded
  have hBase := state.heapBase_le.1
  have hContains (addr : Nat) : GuestVMA.contains ⟨state.heapBase, size, regFlagReadWrite⟩ addr ↔
      state.heapBase ≤ addr ∧ addr < state.heapBase + size := by
    rw [GuestVMA.contains, GuestVMA.finish, add_of_lt (by dsimp only; omega)]
  constructor
  · intro hMapped
    by_contra hShort
    obtain ⟨entry, hEntry, hIn, -⟩ := hMapped (brk - 1) (by omega) (by omega)
    rcases SortedMap.mem_insert.mp hEntry with rfl | ⟨hNe, hOld⟩
    · rw [hContains] at hIn
      omega
    · exact hHeap.not_contains_other hOld hNe (by omega) (by omega) hIn
  · intro hReach addr hLe hLt
    exact ⟨_, SortedMap.mem_insert.mpr (.inl rfl), (hContains addr).mpr (by omega), rfl⟩

theorem resized_heapSize : resized state state.heapSize = state.mappings.guestVmas :=
  SortedMap.insert_of_mem hHeap.mem_heap.1

/-- A heap with another size below the limit. -/
theorem resize {size : Nat} (hSize : state.heapBase + size ≤ limit) (regions : SortedMap Nat Nat)
    (data : ByteStore.Store) :
    Heap { state with programBreak := brk, mappings := ⟨resized state size, regions⟩, data } limit where
  heap := ⟨size, SortedMap.mem_insert.mpr (.inl rfl), hSize⟩
  others := by
    intro entry hEntry hNe
    rcases SortedMap.mem_insert.mp hEntry with rfl | ⟨-, hOld⟩
    · exact absurd rfl hNe
    · exact hHeap.others entry hOld hNe
  apart := by
    intro entry hEntry other hOther hEntryNe hOtherNe hLt
    rcases SortedMap.mem_insert.mp hEntry with rfl | ⟨-, hOld⟩
    · exact absurd rfl hEntryNe
    · rcases SortedMap.mem_insert.mp hOther with rfl | ⟨-, hOtherOld⟩
      · exact absurd rfl hOtherNe
      · exact hHeap.apart entry hOld other hOtherOld hEntryNe hOtherNe hLt
  page := hHeap.page
  bounded := hHeap.bounded

/-- Only bytes that no VMA had are zeroed. -/
theorem resizedData_of_maps {size addr : Nat} (hBase : state.heapBase ≤ addr) (hLimit : addr < limit)
    (hMaps : state.mappings.Maps addr regFlagReadWrite) : resizedData state size addr = state.data addr := by
  obtain ⟨entry, hEntry, hIn, -⟩ := hMaps
  have hKey : entry.1 = state.heapBase := by
    by_contra hNe
    exact hHeap.not_contains_other hEntry hNe hBase hLimit hIn
  rw [SortedMap.eq_of_mem hEntry hHeap.mem_heap.1 hKey, GuestVMA.contains, GuestVMA.finish,
    add_of_lt (hHeap.mem_heap.2.trans_lt hHeap.bounded)] at hIn
  rw [resizedData]
  cases state.backing with
  | sparse => rfl
  | contiguous => exact if_neg fun hZeroed => absurd hZeroed.1 (not_le.mpr hIn.2)

/-- A call that returns has given the heap its new size, or found no heap at the initial break. -/
theorem setBreak_eq_ok (hWithin : state.Within limit brk) {next : ProgramBreak} : state.setBreak brk = .ok next ↔
      if state.initialBreak < state.heapBase + state.heapSize then
        (∃ region ∈ state.mappings.allocatedRegions.lowerBound state.initialBreak,
          add state.initialBreak state.heapSize ≤ add region.1 region.2) ∧
        (∀ region ∈ mergeAllocatedRegions state.mappings.allocatedRegions, region.1 ≠ state.initialBreak) ∧
        next = { state with
          programBreak := brk
          mappings := ⟨resized state (alignUp (brk - state.initialBreak)), mergeAllocatedRegions
            ((mergeAllocatedRegions state.mappings.allocatedRegions).insert state.initialBreak
              (alignUp (brk - state.initialBreak)))⟩
          data := resizedData state (alignUp (brk - state.initialBreak)) }
      else next = { state with programBreak := brk } := by
  rw [setBreak, if_neg (not_lt.mpr hWithin.above)]
  change Except.bind _ _ = _ ↔ _
  rw [bind_eq_ok, hHeap.remapped_eq hWithin]
  by_cases hIn : state.initialBreak < state.heapBase + state.heapSize
  · rw [if_pos hIn, if_pos hIn]
    simp only [bind_eq_ok, deallocateRegion_eq_ok, allocateRegion_eq_ok]
    constructor
    · rintro ⟨_, ⟨_, ⟨hFound, rfl⟩, _, ⟨hFresh, rfl⟩, hSame⟩, hNext⟩
      cases hSame
      exact ⟨hFound, hFresh, (Except.ok.inj hNext).symm⟩
    · rintro ⟨hFound, hFresh, rfl⟩
      exact ⟨_, ⟨_, ⟨hFound, rfl⟩, _, ⟨hFresh, rfl⟩, rfl⟩, rfl⟩
  · rw [if_neg hIn, if_neg hIn]
    constructor
    · rintro ⟨_, hSame, hNext⟩
      cases hSame
      exact (Except.ok.inj hNext).symm
    · rintro rfl
      exact ⟨_, rfl, rfl⟩

theorem serves_iff (hWithin : state.Within limit brk) : state.Serves brk ↔ state.Servable brk := by
  have hSize := hHeap.mem_heap.2
  rw [Serves, Servable]
  simp only [hHeap.setBreak_eq_ok hWithin]
  by_cases hIn : state.initialBreak < state.heapBase + state.heapSize
  · simp only [if_pos hIn]
    constructor
    · rintro ⟨_, ⟨hFound, hFresh, rfl⟩, hServed⟩
      exact ⟨hFound, hFresh, (hHeap.mapped_iff hWithin.reach hWithin).mp hServed.mapped⟩
    · rintro ⟨hFound, hFresh, hReach⟩
      have hRemap : ∃ result, state.remapped brk = .ok (true, result) := by
        rw [hHeap.remapped_eq hWithin, if_pos hIn]
        simp only [bind_eq_ok, deallocateRegion_eq_ok, allocateRegion_eq_ok]
        exact ⟨_, _, ⟨hFound, rfl⟩, _, ⟨hFresh, rfl⟩, rfl⟩
      refine ⟨_, ⟨hFound, hFresh, rfl⟩, (hHeap.mapped_iff hWithin.reach hWithin).mpr hReach,
        hHeap.apart_resized hWithin.reach, ?_, fun _ => hRemap⟩
      intro addr hLow hHigh hMaps
      exact hHeap.resizedData_of_maps (state.heapBase_le.1.trans hLow) (hHigh.trans_le hWithin.below) hMaps
  · simp only [if_neg hIn, exists_eq_left]
    have hMapped := @mapped_iff state limit brk hHeap _ hSize hWithin state.mappings.allocatedRegions
    rw [hHeap.resized_heapSize] at hMapped
    have hApart := hHeap.apart_resized hSize
    rw [hHeap.resized_heapSize] at hApart
    constructor
    · intro hServed
      refine ⟨?_, ?_⟩
      · have hReach := hMapped.mp hServed.mapped
        have hAbove := hWithin.above
        omega
      · by_contra hChanged
        obtain ⟨result, hRemap⟩ := hServed.changed fun h => hChanged h.symm
        rw [hHeap.remapped_eq hWithin, if_neg hIn] at hRemap
        cases hRemap
    · rintro ⟨hSame, hBreak⟩
      exact ⟨hMapped.mpr (.inl hSame), hApart, fun _ _ _ _ => rfl, fun hChanged => absurd hBreak.symm hChanged⟩

theorem step_of_serves (hWithin : state.Within limit brk) (hServes : state.Serves brk) :
    (state.step brk).Heap limit ∧ (state.step brk).initialBreak = state.initialBreak := by
  obtain ⟨next, hNext, -⟩ := hServes
  have hStep : state.step brk = next := by
    rw [step, hNext]
    rfl
  rw [hStep]
  rw [hHeap.setBreak_eq_ok hWithin] at hNext
  split_ifs at hNext with hIn
  · obtain ⟨-, -, rfl⟩ := hNext
    exact ⟨hHeap.resize hWithin.reach _ _, rfl⟩
  · subst hNext
    have hSame := @resize state limit brk hHeap _ hHeap.mem_heap.2 state.mappings.allocatedRegions state.data
    rw [hHeap.resized_heapSize] at hSame
    exact ⟨hSame, rfl⟩

end Heap

/-- The page of the initial break is mapped where it was free. -/
theorem heap_setInitialBreak {backing : Backing} {mappings : RegionBasedMemoryModel RegionFlags}
    {data : ByteStore.Store} {depth : Nat} (hStart : setInitialBreak backing mappings data depth brk = .ok state)
    (hPlaced : Placed mappings.guestVmas) (hFree : mappings.Free (alignDown brk) limit)
    (hPage : alignDown brk + pageSize ≤ limit) (hBounded : limit < space) :
    state.Heap limit ∧ state.initialBreak = brk := by
  obtain ⟨mapped, hMap, hState⟩ := bind_eq_ok.mp hStart
  obtain rfl := Except.ok.inj hState
  obtain ⟨cleared, hClear, -, rfl⟩ := (mapRegionWith_eq_ok (dvd_alignUp 1)).mp hMap
  have hSame : cleared = mappings := by
    rw [clearRegion] at hClear
    split at hClear
    · have hPages : mappings.Free (alignDown brk) (alignDown brk + pageSize) := fun entry hEntry =>
        (hFree entry hEntry).imp_right hPage.trans
      exact eq_of_untouched (hPlaced.untouched_of_free (hPage.trans_lt hBounded) hPages) hClear
    · exact (Except.ok.inj hClear).symm
  subst hSame
  refine ⟨⟨⟨alignUp 1, SortedMap.mem_insert.mpr (.inl rfl), hPage⟩, ?_, ?_, hPage, hBounded⟩, rfl⟩
  · intro entry hEntry hNe
    rcases SortedMap.mem_insert.mp hEntry with rfl | ⟨-, hOld⟩
    · exact absurd rfl hNe
    · exact ⟨hPlaced.keyed entry hOld, hPlaced.bounded entry hOld, hFree entry hOld⟩
  · intro entry hEntry other hOther hEntryNe hOtherNe hLt
    rcases SortedMap.mem_insert.mp hEntry with rfl | ⟨-, hOld⟩
    · exact absurd rfl hEntryNe
    · rcases SortedMap.mem_insert.mp hOther with rfl | ⟨-, hOtherOld⟩
      · exact absurd rfl hOtherNe
      · exact hPlaced.apart entry hOld other hOtherOld hLt

/-- Along every sequence of breaks that no other mapping is in the way of, each call does what it is for exactly if
each finds the heap and the regions as it must. -/
theorem serves_iff_servable (backing : Backing) (mappings : RegionBasedMemoryModel RegionFlags)
    (data : ByteStore.Store) (depth initial limit : Nat) (start : ProgramBreak) (breaks : List Nat)
    (hStart : setInitialBreak backing mappings data depth initial = .ok start) (hPlaced : Placed mappings.guestVmas)
    (hFree : mappings.Free (alignDown initial) limit) (hPage : alignDown initial + pageSize ≤ limit)
    (hBounded : limit < space) (hBreaks : ∀ brk ∈ breaks, start.Within limit brk) :
    Throughout step Serves start breaks ↔ Throughout step Servable start breaks := by
  have hHeap := (heap_setInitialBreak hStart hPlaced hFree hPage hBounded).1
  have hWithin {state : ProgramBreak} (hInitial : state.initialBreak = start.initialBreak) {brk : Nat}
      (hMem : brk ∈ breaks) : state.Within limit brk := by
    obtain ⟨hAbove, hBelow, hReach⟩ := hBreaks brk hMem
    rw [heapBase] at hReach
    exact ⟨hInitial ▸ hAbove, hBelow, by rw [heapBase, hInitial]; exact hReach⟩
  refine throughout_congr_of_mem (fun state => state.Heap limit ∧ state.initialBreak = start.initialBreak) ?_ ?_
    ⟨hHeap, rfl⟩
  · rintro state brk hMem ⟨hHeap, hInitial⟩
    exact hHeap.serves_iff (hWithin hInitial hMem)
  · rintro state brk hMem ⟨hHeap, hInitial⟩ hServes
    obtain ⟨hNext, hSame⟩ := hHeap.step_of_serves (hWithin hInitial hMem) hServes
    exact ⟨hNext, hSame.trans hInitial⟩

/-- A page of the binary and a page of the stack, with their regions. -/
def sample : RegionBasedMemoryModel RegionFlags :=
  ⟨⟨[(0x1000, ⟨0x1000, 0x1000, regFlagReadWrite⟩), (0x40000000, ⟨0x40000000, 0x1000, regFlagReadWrite⟩)],
    by simp⟩,
    ⟨[(0x1000, 0x1000), (0x40000000, 0x1000)], by simp⟩⟩

/-- The break right behind the binary is moved up twice. -/
theorem serves_sample : ∃ start, setInitialBreak .contiguous sample (fun _ => 0) 1 0x2000 = .ok start ∧
    Throughout step Serves start [0x2800, 0x5000] := by
  have hPlaced : Placed sample.guestVmas := by
    constructor <;> simp [sample, SortedMap.mem_def, space, pageSize]
  have hFree : sample.Free (alignDown 0x2000) 0x40000000 := by
    intro entry hEntry
    rcases List.mem_pair.mp hEntry with rfl | rfl
    · exact .inl (by decide)
    · exact .inr (by decide)
  refine ⟨_, rfl, (serves_iff_servable .contiguous sample (fun _ => 0) 1 0x2000 0x40000000 _ [0x2800, 0x5000] rfl
    hPlaced hFree (by decide) (by decide) ?_).mpr ⟨?_, ?_, trivial⟩⟩
  · intro brk hBrk
    rcases List.mem_pair.mp hBrk with rfl | rfl
    · exact ⟨by decide, by decide, by decide⟩
    · exact ⟨by decide, by decide, by decide⟩
  · rw [Servable, if_pos (by decide)]
    exact ⟨⟨(0x40000000, 0x1000), rfl, by decide⟩, List.forall_iff_forall_mem.mp ⟨by decide, by decide⟩,
      .inr (by decide)⟩
  · rw [Servable, if_pos (by decide)]
    exact ⟨⟨(0x40000000, 0x1000), rfl, by decide⟩, List.forall_iff_forall_mem.mp ⟨by decide, by decide⟩,
      .inr (by decide)⟩

/-- A break that no binary is right before cannot be moved. One within a page is not backed at the end. One set back to
the initial break loses the heap, and is moved without it. -/
theorem not_serves_sample :
    (∃ start, setInitialBreak .contiguous ⟨.empty, .empty⟩ (fun _ => 0) 1 0x2000 = .ok start ∧ ¬ start.Serves 0x3000) ∧
    (∃ start, setInitialBreak .contiguous sample (fun _ => 0) 1 0x2800 = .ok start ∧ ¬ start.Serves 0x3800) ∧
    (∃ start, setInitialBreak .contiguous sample (fun _ => 0) 1 0x2000 = .ok start ∧
      ¬ Throughout step Serves start [0x2000, 0x3000]) := by
  refine ⟨⟨_, rfl, ?_⟩, ⟨_, rfl, ?_⟩, ⟨_, rfl, ?_⟩⟩
  · rintro ⟨next, hNext, -⟩
    exact nomatch (show Except.error Failure.thrown = Except.ok next from hNext)
  · rintro ⟨next, hNext, hServed⟩
    cases hNext
    obtain ⟨entry, hEntry, hIn, -⟩ := hServed.mapped 0x3000 (by decide) (by decide)
    have hAll : List.Forall (fun entry : Nat × GuestVMA RegionFlags => ¬ entry.2.contains 0x3000)
        [(0x1000, ⟨0x1000, 0x1000, regFlagReadWrite⟩), (0x2000, ⟨0x2000, 0x1000, regFlagReadWrite⟩),
          (0x40000000, ⟨0x40000000, 0x1000, regFlagReadWrite⟩)] := by decide
    exact List.forall_iff_forall_mem.mp hAll entry hEntry hIn
  · rintro ⟨-, ⟨next, hNext, hServed⟩, -⟩
    cases hNext
    obtain ⟨result, hRemap⟩ := hServed.changed (by decide)
    exact nomatch (show Except.ok (false, _) = Except.ok (true, result) from hRemap)

end ProgramBreak

end Gensim.Abi
