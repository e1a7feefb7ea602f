import Gensim.Memory.PlacedVMAs

/-! What `UnmapSubregion` does to VMAs that lie apart from each other. -/
namespace Gensim.Memory.RegionBasedMemoryModel

open GuestAddress

variable {π : Type} {model next : RegionBasedMemoryModel π} {entry other : Nat × GuestVMA π}

/-- No VMA has an address in `[addr, finish)`. -/
def Free (model : RegionBasedMemoryModel π) (addr finish : Nat) : Prop :=
  ∀ entry ∈ model.guestVmas, entry.1 + entry.2.size ≤ addr ∨ finish ≤ entry.1

/-- An address is mapped, with a protection. -/
def Maps (model : RegionBasedMemoryModel π) (addr : Nat) (prot : π) : Prop :=
  ∃ entry ∈ model.guestVmas, entry.2.contains addr ∧ entry.2.protection = prot

/-- Of the mapped addresses those of `[addr, finish)` are gone, and the others are mapped as before. -/
def Unmaps (model next : RegionBasedMemoryModel π) (addr finish : Nat) : Prop :=
  ∀ asked prot, next.Maps asked prot ↔ model.Maps asked prot ∧ ¬ (addr ≤ asked ∧ asked < finish)

/-- The one VMA with an address in `[addr, finish)` begins at `addr` and ends within, and the region
that `DeallocateRegion` then finds, the first that begins at `addr` or above, reaches `finish`. -/
structure Removes (model : RegionBasedMemoryModel π) (addr finish : Nat) : Prop where
  at_start : ∃ entry ∈ model.guestVmas, entry.1 = addr ∧ entry.1 + entry.2.size ≤ finish
  others : ∀ entry ∈ model.guestVmas, entry.1 ≠ addr →
    entry.1 + entry.2.size ≤ addr ∨ finish ≤ entry.1
  found : ∃ region ∈ model.allocatedRegions.lowerBound addr, finish ≤ add region.1 region.2

/-- A VMA reaches over `[addr, finish)` on both sides, and no region begins at `finish`. -/
def Splits (model : RegionBasedMemoryModel π) (addr finish : Nat) : Prop :=
  (∃ entry ∈ model.guestVmas, entry.1 < addr ∧ finish < entry.1 + entry.2.size) ∧
    ∀ region ∈ model.allocatedRegions, region.1 ≠ finish

/-- `UnmapSubregion` returns, whatever depth of recursion it is given from some depth on, and has unmapped
the range. -/
def UnmapsRange (model : RegionBasedMemoryModel π) (addr size : Nat) : Prop :=
  ∃ next, (∃ bound, ∀ depth, bound ≤ depth → unmapSubregion depth model addr size = .ok next) ∧
    model.Unmaps next addr (addr + size)

section Visit

variable {unmap : RegionBasedMemoryModel π → Nat → Nat → Except Failure (RegionBasedMemoryModel π)}
  {addr size : Nat} {before after : List (Nat × GuestVMA π)}

theorem visitVMAs_untouched (hUntouched : ∀ entry ∈ before, entry.2.situation addr (add addr size) = .untouched) :
    visitVMAs unmap addr size (before ++ after) model = visitVMAs unmap addr size after model := by
  induction before with
  | nil => rfl
  | cons entry before ih =>
    rw [List.forall_mem_cons] at hUntouched
    rw [List.cons_append, visitVMAs]
    dsimp only
    rw [hUntouched.1]
    exact ih hUntouched.2

/-- The loop goes through the VMAs it leaves alone up to the first it does not. -/
theorem exists_first_touched (entries : List (Nat × GuestVMA π)) (addr uEnd : Nat) :
    (∀ entry ∈ entries, entry.2.situation addr uEnd = .untouched) ∨
      ∃ before entry after, entries = before ++ entry :: after ∧
        (∀ entry ∈ before, entry.2.situation addr uEnd = .untouched) ∧ entry.2.situation addr uEnd ≠ .untouched := by
  cases hFind : entries.find? (fun entry => entry.2.situation addr uEnd ≠ .untouched) with
  | none =>
    refine .inl fun entry hEntry => ?_
    simpa using List.find?_eq_none.mp hFind entry hEntry
  | some entry =>
    obtain ⟨hTouched, before, after, hSplit, hBefore⟩ := List.find?_eq_some_iff_append.mp hFind
    refine .inr ⟨before, entry, after, hSplit, fun entry hEntry => ?_, by simpa using hTouched⟩
    simpa using hBefore entry hEntry

/-- Where no VMA is, none is touched. -/
theorem Placed.untouched_of_free (hPlaced : Placed model.guestVmas) (hRoom : addr + size < space)
    (hFree : model.Free addr (addr + size)) :
    ∀ entry ∈ model.guestVmas, entry.2.situation addr (add addr size) = .untouched := by
  intro entry hEntry
  rw [add_of_lt hRoom, hPlaced.untouched_iff hEntry (by omega)]
  exact .inl (hFree entry hEntry)

/-- Mappings that `UnmapSubregion` leaves alone. -/
theorem unmapSubregion_untouched {depth : Nat}
    (hUntouched : ∀ entry ∈ model.guestVmas, entry.2.situation addr (add addr size) = .untouched) :
    unmapSubregion (depth + 1) model addr size = .ok model := by
  rw [unmapSubregion, ← List.append_nil model.guestVmas.entries, visitVMAs_untouched hUntouched]
  rfl

theorem eq_of_untouched {depth : Nat}
    (hUntouched : ∀ entry ∈ model.guestVmas, entry.2.situation addr (add addr size) = .untouched)
    (hUnmap : unmapSubregion depth model addr size = .ok next) : next = model := by
  cases depth with
  | zero => cases hUnmap
  | succ depth =>
    rw [unmapSubregion_untouched hUntouched] at hUnmap
    exact (Except.ok.inj hUnmap).symm

theorem unmapSubregion_first {depth : Nat} (hSplit : model.guestVmas.entries = before ++ entry :: after)
    (hBefore : ∀ entry ∈ before, entry.2.situation addr (add addr size) = .untouched) :
    unmapSubregion (depth + 1) model addr size = visitVMAs (unmapSubregion depth) addr size (entry :: after) model := by
  rw [unmapSubregion, hSplit, visitVMAs_untouched hBefore]

theorem unmapRegion_of_not_found (hLookup : ∀ found, model.lookupVMA addr ≠ .ok (some found))
    (hUnmap : model.unmapRegion addr size = .ok next) : next = model := by
  rw [unmapRegion] at hUnmap
  cases hFound : model.lookupVMA addr with
  | error failure =>
    rw [hFound] at hUnmap
    cases hUnmap
  | ok found =>
    cases found with
    | some vma => exact absurd hFound (hLookup vma)
    | none =>
      rw [hFound] at hUnmap
      exact (Except.ok.inj hUnmap).symm

/-- A VMA is to be unmapped whole and there is none at the first address: `UnmapRegion` does nothing,
and the recursion does not end. -/
theorem unmapSubregion_stuck (hLookup : ∀ found, model.lookupVMA addr ≠ .ok (some found))
    (hSplit : model.guestVmas.entries = before ++ entry :: after)
    (hBefore : ∀ entry ∈ before, entry.2.situation addr (add addr size) = .untouched)
    (hCovered : entry.2.situation addr (add addr size) = .covered) (depth : Nat) :
    unmapSubregion depth model addr size ≠ .ok next := by
  induction depth with
  | zero => exact nofun
  | succ depth ih =>
    rw [unmapSubregion_first hSplit hBefore, visitVMAs]
    dsimp only
    rw [hCovered]
    dsimp only
    cases hUnmap : model.unmapRegion addr size with
    | error failure => exact nofun
    | ok same =>
      rw [unmapRegion_of_not_found hLookup hUnmap]
      exact ih

end Visit

section Results

variable {addr size : Nat}

/-! ### A VMA is removed -/

def removed (model : RegionBasedMemoryModel π) (addr : Nat) : RegionBasedMemoryModel π :=
  ⟨model.guestVmas.erase addr, mergeAllocatedRegions model.allocatedRegions⟩

section

variable (hPlaced : Placed model.guestVmas)
include hPlaced

theorem unmapRegion_eq_ok (hEntry : entry ∈ model.guestVmas) (hAligned : pageSize ∣ size)
    (hRoom : entry.1 + size < space) : model.unmapRegion entry.1 size = .ok next ↔
      (∃ region ∈ model.allocatedRegions.lowerBound entry.1, entry.1 + size ≤ add region.1 region.2) ∧
      next = model.removed entry.1 := by
  have hNonempty := hPlaced.nonempty entry hEntry
  have hContains : entry.2.contains entry.1 := (hPlaced.contains_iff hEntry).mpr ⟨le_rfl, by omega⟩
  have hLookup : model.lookupVMA entry.1 = .ok (some entry) := by
    rw [lookupVMA_of_upTo (hPlaced.upTo_of_contains hEntry le_rfl (by omega)), if_pos hContains]
  have hDelete : model.deleteVMA entry.1 = model.guestVmas.erase entry.1 := by
    rw [deleteVMA]
    cases hFind : model.guestVmas.entries.find? (·.2.contains entry.1) with
    | none => exact absurd hContains (by simpa using List.find?_eq_none.mp hFind entry hEntry)
    | some found =>
      have hFound := List.mem_of_find?_eq_some hFind
      have hIn := List.find?_some hFind
      rw [decide_eq_true_eq, hPlaced.contains_iff hFound] at hIn
      rw [hPlaced.eq_of_contains hEntry hFound le_rfl (by omega) hIn.1 hIn.2]
  rw [unmapRegion, hLookup]
  change Except.bind (deallocateRegion model.allocatedRegions entry.1 (alignUp size)) _ = _ ↔ _
  rw [bind_eq_ok, alignUp_of_dvd hAligned, hDelete]
  simp only [deallocateRegion_eq_ok, add_of_lt hRoom]
  constructor
  · rintro ⟨regions, ⟨hFound, rfl⟩, hNext⟩
    exact ⟨hFound, (Except.ok.inj hNext).symm⟩
  · rintro ⟨hFound, rfl⟩
    exact ⟨_, ⟨hFound, rfl⟩, rfl⟩

theorem not_contains_removed (hEntry : entry ∈ model.guestVmas) (hOther : other ∈ (model.removed entry.1).guestVmas) :
    ¬ (other.1 ≤ entry.1 ∧ entry.1 < other.1 + other.2.size) := by
  obtain ⟨hNe, hOld⟩ := SortedMap.mem_erase.mp hOther
  have hNonempty := hPlaced.nonempty entry hEntry
  have hApart := hPlaced.before_or_behind hEntry hOld hNe
  omega

/-- After the VMA at the first address is gone, one that is touched next ends the call badly. -/
theorem untouched_of_removed (hEntry : entry ∈ model.guestVmas) (hRoom : entry.1 + size < space) {depth : Nat}
    (hUnmap : unmapSubregion depth (model.removed entry.1) entry.1 size = .ok next) :
    ∀ other ∈ (model.removed entry.1).guestVmas, other.2.situation entry.1 (add entry.1 size) = .untouched := by
  have hLeft : Placed (model.removed entry.1).guestVmas := hPlaced.erase _
  cases depth with
  | zero => cases hUnmap
  | succ depth =>
    rcases exists_first_touched (model.removed entry.1).guestVmas.entries entry.1 (add entry.1 size) with
      hUntouched | ⟨before, other, after, hSplit, hBefore, hTouched⟩
    · exact hUntouched
    · exfalso
      have hOther := SortedMap.mem_of_split hSplit
      have hNot := not_contains_removed hPlaced hEntry hOther
      cases hSituation : other.2.situation entry.1 (add entry.1 size) with
      | untouched => exact hTouched hSituation
      | covered =>
        refine unmapSubregion_stuck ?_ hSplit hBefore hSituation _ hUnmap
        exact hLeft.lookupVMA_of_unmapped fun other hOther => not_contains_removed hPlaced hEntry hOther
      | overStart =>
        rw [hLeft.overStart_iff hOther] at hSituation
        omega
      | inside =>
        rw [add_of_lt hRoom, hLeft.inside_iff hOther (by omega)] at hSituation
        omega
      | overEnd =>
        rw [unmapSubregion_first hSplit hBefore, visitVMAs] at hUnmap
        dsimp only at hUnmap
        rw [hSituation] at hUnmap
        cases hUnmap

end

section FirstTouched

variable {before after : List (Nat × GuestVMA π)} {depth : Nat}

theorem removes_of_covered (hPlaced : Placed model.guestVmas) (hAligned : pageSize ∣ size)
    (hRoom : addr + size < space) (hSplit : model.guestVmas.entries = before ++ entry :: after)
    (hBefore : ∀ entry ∈ before, entry.2.situation addr (add addr size) = .untouched)
    (hCovered : entry.2.situation addr (add addr size) = .covered)
    (hUnmap : unmapSubregion (depth + 1) model addr size = .ok next) : model.Removes addr (addr + size) := by
  have hEntry := SortedMap.mem_of_split hSplit
  have hNonempty := hPlaced.nonempty entry hEntry
  have hFinish := add_of_lt hRoom
  obtain ⟨hLow, hEnd⟩ := (hPlaced.covered_iff hEntry).mp hCovered
  by_cases hAt : entry.1 = addr
  · subst hAt
    rw [unmapSubregion_first hSplit hBefore, visitVMAs] at hUnmap
    dsimp only at hUnmap
    rw [hCovered] at hUnmap
    dsimp only at hUnmap
    cases hRegion : model.unmapRegion entry.1 size with
    | error failure =>
      rw [hRegion] at hUnmap
      cases hUnmap
    | ok cleared =>
      obtain ⟨hFound, rfl⟩ := (unmapRegion_eq_ok hPlaced hEntry hAligned hRoom).mp hRegion
      rw [hRegion] at hUnmap
      change unmapSubregion depth (model.removed entry.1) entry.1 size = .ok next at hUnmap
      have hUntouched := untouched_of_removed hPlaced hEntry hRoom hUnmap
      refine ⟨⟨entry, hEntry, rfl, by omega⟩, fun other hOther hNe => ?_, hFound⟩
      have hLeft : other ∈ (model.removed entry.1).guestVmas := SortedMap.mem_erase.mpr ⟨hNe, hOther⟩
      have hNot := not_contains_removed hPlaced hEntry hLeft
      have hOtherUntouched := hUntouched other hLeft
      rw [hFinish, hPlaced.untouched_iff hOther (by omega)] at hOtherUntouched
      omega
  · -- no VMA has the first address: the ones below are untouched and end before the covered one
    refine absurd hUnmap (unmapSubregion_stuck ?_ hSplit hBefore hCovered _)
    apply hPlaced.lookupVMA_of_unmapped
    intro other hOther ⟨hLe, hLt⟩
    have hApart := hPlaced.apart other hOther entry hEntry (by omega)
    have hIn : other ∈ before := by
      rw [SortedMap.mem_def, hSplit, List.mem_append, List.mem_cons] at hOther
      rcases hOther with hIn | rfl | hIn
      · exact hIn
      · omega
      · have hAfter := (SortedMap.lt_of_split hSplit).2 other hIn
        omega
    have hUntouched := hBefore other hIn
    rw [hFinish, hPlaced.untouched_iff hOther (by omega)] at hUntouched
    omega

/-! ### A VMA is moved -/

/-- A VMA that was moved but for its key. -/
def shifted (model : RegionBasedMemoryModel π) (entry : Nat × GuestVMA π) (finish : Nat) :
    RegionBasedMemoryModel π :=
  { model with guestVmas := model.guestVmas.insert entry.1 { entry.2 with base := finish } }

/-- The VMA whose base was moved does not contain the first address any more. -/
theorem shifted_lookup (hPlaced : Placed model.guestVmas) (hEntry : entry ∈ model.guestVmas)
    (hStart : entry.2.situation addr (add addr size) = .overStart) (found : Nat × GuestVMA π) :
    (model.shifted entry (add addr size)).lookupVMA addr ≠ .ok (some found) := by
  obtain ⟨hLow, hReach, hEnd⟩ := (hPlaced.overStart_iff hEntry).mp hStart
  have hUpTo : (model.shifted entry (add addr size)).guestVmas.upTo addr =
      some (entry.1, { entry.2 with base := add addr size }) := by
    refine SortedMap.upTo_eq_some.mpr ⟨SortedMap.mem_insert.mpr (.inl rfl), hLow.le, ?_⟩
    intro above hAbove hLe
    rcases SortedMap.mem_insert.mp hAbove with rfl | ⟨-, hOld⟩
    · exact le_rfl
    · by_contra hLt
      have hApart := hPlaced.apart entry hEntry above hOld (by omega)
      omega
  rw [lookupVMA_of_upTo hUpTo, if_neg]
  · exact nofun
  · intro hContains
    have hLe : add addr size ≤ addr := hContains.1
    omega

theorem situation_of_base {vma : GuestVMA π} (hBase : addr ≤ vma.base) :
    vma.situation addr vma.base = .covered ∨ vma.situation addr vma.base = .untouched := by
  rw [GuestVMA.situation]
  split_ifs with hCovered hStart hInside hEnd
  · exact .inl rfl
  · omega
  · omega
  · omega
  · exact .inr rfl

/-- Another VMA that is to be unmapped whole ends the call badly. -/
theorem shifted_stuck (hPlaced : Placed model.guestVmas) (hSplit : model.guestVmas.entries = before ++ entry :: after)
    (hBefore : ∀ entry ∈ before, entry.2.situation addr (add addr size) = .untouched)
    (hStart : entry.2.situation addr (add addr size) = .overStart)
    {between last : List (Nat × GuestVMA π)} {other : Nat × GuestVMA π} (hAfter : after = between ++ other :: last)
    (hBetween : ∀ entry ∈ between, entry.2.situation addr (add addr size) = .untouched)
    (hCovered : other.2.situation addr (add addr size) = .covered) :
    unmapSubregion depth (model.shifted entry (add addr size)) addr size ≠ .ok next := by
  have hEntry := SortedMap.mem_of_split hSplit
  obtain ⟨hLow, hReach, hEnd⟩ := (hPlaced.overStart_iff hEntry).mp hStart
  have hLookup := shifted_lookup hPlaced hEntry hStart
  have hEntries : (model.shifted entry (add addr size)).guestVmas.entries =
      before ++ (entry.1, { entry.2 with base := add addr size }) :: after :=
    SortedMap.insert_of_split hSplit
  have hMoved : ({ entry.2 with base := add addr size } : GuestVMA π).situation addr (add addr size) =
        .covered ∨
      ({ entry.2 with base := add addr size } : GuestVMA π).situation addr (add addr size) =
        .untouched := situation_of_base (show addr ≤ add addr size by omega)
  rcases hMoved with hMoved | hMoved
  · exact unmapSubregion_stuck hLookup hEntries hBefore hMoved _
  · rw [hAfter, ← List.singleton_append, ← List.append_assoc, ← List.append_assoc] at hEntries
    refine unmapSubregion_stuck hLookup hEntries ?_ hCovered _
    intro first hFirst
    rcases List.mem_append.mp hFirst with hFirst | hFirst
    · rcases List.mem_append.mp hFirst with hFirst | hFirst
      · exact hBefore first hFirst
      · rw [List.mem_singleton.mp hFirst]
        exact hMoved
    · exact hBetween first hFirst

theorem eq_shifted_of_overStart (hPlaced : Placed model.guestVmas) (hRoom : addr + size < space)
    (hSplit : model.guestVmas.entries = before ++ entry :: after)
    (hBefore : ∀ entry ∈ before, entry.2.situation addr (add addr size) = .untouched)
    (hStart : entry.2.situation addr (add addr size) = .overStart)
    (hUnmap : unmapSubregion (depth + 1) model addr size = .ok next) : next = model.shifted entry (addr + size) := by
  have hEntry := SortedMap.mem_of_split hSplit
  have hFinish := add_of_lt hRoom
  obtain ⟨hLow, hReach, hEnd⟩ := (hPlaced.overStart_iff hEntry).mp hStart
  rw [unmapSubregion_first hSplit hBefore, visitVMAs] at hUnmap
  dsimp only at hUnmap
  rw [hStart] at hUnmap
  change visitVMAs _ addr size after (model.shifted entry (add addr size)) = _ at hUnmap
  have hAfterMem {other : Nat × GuestVMA π} (hOther : other ∈ after) :
      other ∈ model.guestVmas ∧ entry.1 + entry.2.size ≤ other.1 := by
    have hIn : other ∈ model.guestVmas := by
      rw [SortedMap.mem_def, hSplit]
      simp [hOther]
    exact ⟨hIn, hPlaced.apart entry hEntry other hIn ((SortedMap.lt_of_split hSplit).2 other hOther)⟩
  rcases exists_first_touched after addr (add addr size) with
    hUntouched | ⟨between, other, last, hAfter, hBetween, hTouched⟩
  · rw [← List.append_nil after, visitVMAs_untouched hUntouched] at hUnmap
    rw [← Except.ok.inj hUnmap, hFinish]
  · exfalso
    obtain ⟨hOther, hAbove⟩ := hAfterMem (show other ∈ after by simp [hAfter])
    rw [hAfter, visitVMAs_untouched hBetween, visitVMAs] at hUnmap
    dsimp only at hUnmap
    cases hSituation : other.2.situation addr (add addr size) with
    | untouched => exact hTouched hSituation
    | covered =>
      rw [hSituation] at hUnmap
      dsimp only at hUnmap
      cases hRegion : (model.shifted entry (add addr size)).unmapRegion addr size with
      | error failure =>
        rw [hRegion] at hUnmap
        cases hUnmap
      | ok same =>
        rw [hRegion, unmapRegion_of_not_found (shifted_lookup hPlaced hEntry hStart) hRegion] at hUnmap
        exact shifted_stuck hPlaced hSplit hBefore hStart hAfter hBetween hSituation hUnmap
    | overStart =>
      rw [hPlaced.overStart_iff hOther] at hSituation
      omega
    | inside =>
      rw [hFinish, hPlaced.inside_iff hOther (by omega)] at hSituation
      omega
    | overEnd =>
      rw [hSituation] at hUnmap
      cases hUnmap

/-! ### A VMA is split -/

/-- The model with a new VMA and a region allocated for it. -/
def installed (model : RegionBasedMemoryModel π) (addr size : Nat) (prot : π) :
    RegionBasedMemoryModel π :=
  ⟨model.guestVmas.insert addr ⟨addr, size, prot⟩,
    mergeAllocatedRegions (model.allocatedRegions.insert addr size)⟩

theorem mapRegionWith_eq_ok {unmap : RegionBasedMemoryModel π → Nat → Nat →
      Except Failure (RegionBasedMemoryModel π)} (hAligned : pageSize ∣ size) {prot : π} :
    model.mapRegionWith unmap addr size prot = .ok next ↔ ∃ cleared, model.clearRegion unmap addr size = .ok cleared ∧
      (∀ region ∈ cleared.allocatedRegions, region.1 ≠ addr) ∧ next = cleared.installed addr size prot := by
  rw [mapRegionWith, alignUp_of_dvd hAligned]
  change Except.bind (model.clearRegion unmap addr size) _ = _ ↔ _
  rw [bind_eq_ok]
  refine exists_congr fun cleared => and_congr_right fun _ => ?_
  change Except.bind (allocateRegion cleared.allocatedRegions addr size) _ = _ ↔ _
  rw [bind_eq_ok]
  simp only [allocateRegion_eq_ok]
  constructor
  · rintro ⟨regions, ⟨hNone, rfl⟩, hNext⟩
    exact ⟨hNone, (Except.ok.inj hNext).symm⟩
  · rintro ⟨hNone, rfl⟩
    exact ⟨_, ⟨hNone, rfl⟩, rfl⟩

/-- The part of a VMA below `addr`. -/
def cut (model : RegionBasedMemoryModel π) (entry : Nat × GuestVMA π) (addr : Nat) :
    RegionBasedMemoryModel π :=
  { model with guestVmas := model.guestVmas.insert entry.1 ⟨entry.1, addr - entry.1, entry.2.protection⟩ }

/-- The VMA from which `[addr, finish)` is cut out, and the rest of it above put into place. -/
def split (model : RegionBasedMemoryModel π) (entry : Nat × GuestVMA π) (addr finish : Nat) :
    RegionBasedMemoryModel π :=
  (model.cut entry addr).installed finish (entry.1 + entry.2.size - finish) entry.2.protection

theorem unmapSubregion_inside (hPlaced : Placed model.guestVmas) (hRoom : addr + size < space)
    (hSplit : model.guestVmas.entries = before ++ entry :: after)
    (hBefore : ∀ entry ∈ before, entry.2.situation addr (add addr size) = .untouched)
    (hInside : entry.2.situation addr (add addr size) = .inside) : unmapSubregion (depth + 1) model addr size =
      ((model.cut entry addr).mapRegionWith (unmapSubregion depth) (addr + size)
        (entry.1 + entry.2.size - (addr + size)) entry.2.protection).bind
          fun split => unmapSubregion depth split addr size := by
  have hEntry := SortedMap.mem_of_split hSplit
  have hFinish := add_of_lt hRoom
  have hBounded := hPlaced.bounded entry hEntry
  rw [unmapSubregion_first hSplit hBefore, visitVMAs]
  dsimp only
  rw [hInside]
  rw [hFinish, hPlaced.inside_iff hEntry (by omega)] at hInside
  dsimp only [cut]
  rw [hPlaced.finish_eq hEntry, hPlaced.keyed entry hEntry, hFinish, sub_of_le (by omega) (by omega),
    sub_of_le (by omega) (by omega)]
  rfl

end FirstTouched

section Split

variable {finish : Nat} (hPlaced : Placed model.guestVmas) (hEntry : entry ∈ model.guestVmas)
  (hAligned : pageSize ∣ addr) (hFinish : pageSize ∣ finish) (hLow : entry.1 < addr) (hLe : addr ≤ finish)
  (hHigh : finish < entry.1 + entry.2.size)

include hPlaced hEntry hLow

theorem mem_cut_apart (hOther : other ∈ (model.cut entry addr).guestVmas) :
    other.1 + other.2.size ≤ addr ∨ entry.1 + entry.2.size ≤ other.1 := by
  rcases SortedMap.mem_insert.mp hOther with rfl | ⟨hNe, hOld⟩
  · dsimp only
    omega
  · have hApart := hPlaced.before_or_behind hEntry hOld hNe
    omega

include hHigh

theorem mem_split_apart (hOther : other ∈ (model.split entry addr finish).guestVmas) :
    other.1 + other.2.size ≤ addr ∨ finish ≤ other.1 := by
  rcases SortedMap.mem_insert.mp hOther with rfl | ⟨-, hCut⟩
  · exact .inr le_rfl
  · have hApart := mem_cut_apart hPlaced hEntry hLow hCut
    omega

include hLe hAligned

theorem placed_cut : Placed (model.cut entry addr).guestVmas := by
  have hBounded := hPlaced.bounded entry hEntry
  have hKey := (hPlaced.aligned entry hEntry).1
  refine hPlaced.insert hKey (Nat.dvd_sub hAligned hKey) (by omega) (by omega) fun other hOther hNe => ?_
  have hApart := hPlaced.before_or_behind hEntry hOther hNe
  omega

include hFinish

theorem placed_split : Placed (model.split entry addr finish).guestVmas := by
  have hBounded := hPlaced.bounded entry hEntry
  obtain ⟨hKey, hSize⟩ := hPlaced.aligned entry hEntry
  have hCut := placed_cut hPlaced hEntry hAligned hLow hLe hHigh
  refine hCut.insert hFinish (Nat.dvd_sub (Nat.dvd_add hKey hSize) hFinish) (by omega) (by omega) fun other hOther _ => ?_
  have hApart := mem_cut_apart hPlaced hEntry hLow hOther
  omega

/-- The rest of a VMA above the addresses that are cut out of it is mapped as it was, where no region
begins there. -/
theorem mapRegionWith_cut {depth : Nat} : (model.cut entry addr).mapRegionWith (unmapSubregion (depth + 1)) finish
        (entry.1 + entry.2.size - finish) entry.2.protection = .ok next ↔
      (∀ region ∈ model.allocatedRegions, region.1 ≠ finish) ∧ next = model.split entry addr finish := by
  have hBounded := hPlaced.bounded entry hEntry
  obtain ⟨hKey, hSize⟩ := hPlaced.aligned entry hEntry
  have hCut := placed_cut hPlaced hEntry hAligned hLow hLe hHigh
  have hClear : (model.cut entry addr).clearRegion (unmapSubregion (depth + 1)) finish
      (entry.1 + entry.2.size - finish) = .ok (model.cut entry addr) := by
    rw [clearRegion]
    split
    · apply unmapSubregion_untouched
      intro other hOther
      have hApart := mem_cut_apart hPlaced hEntry hLow hOther
      rw [add_of_lt (by omega), hCut.untouched_iff hOther (by omega)]
      omega
    · rfl
  rw [mapRegionWith_eq_ok (Nat.dvd_sub (Nat.dvd_add hKey hSize) hFinish), hClear]
  constructor
  · rintro ⟨_, hSame, hNone, rfl⟩
    cases hSame
    exact ⟨hNone, rfl⟩
  · rintro ⟨hNone, rfl⟩
    exact ⟨_, rfl, hNone, rfl⟩

end Split

/-! ### Complete and exact unmapping -/

variable (hPlaced : Placed model.guestVmas)

include hPlaced

theorem maps_iff {asked : Nat} {prot : π} : model.Maps asked prot ↔
    ∃ entry ∈ model.guestVmas, (entry.1 ≤ asked ∧ asked < entry.1 + entry.2.size) ∧ entry.2.protection = prot :=
  exists_congr fun _ => and_congr_right fun hEntry => and_congr_left fun _ => hPlaced.contains_iff hEntry

theorem not_unmaps_shifted (hEntry : entry ∈ model.guestVmas) (hLow : entry.1 < addr) {finish : Nat}
    (hLe : addr ≤ finish) : ¬ model.Unmaps (model.shifted entry finish) addr finish := by
  intro hUnmaps
  have hNonempty := hPlaced.nonempty entry hEntry
  have hMapped : model.Maps entry.1 entry.2.protection :=
    (maps_iff hPlaced).mpr ⟨entry, hEntry, ⟨le_rfl, by omega⟩, rfl⟩
  -- the first address of the moved VMA is mapped no more
  obtain ⟨other, hOther, hContains, -⟩ := (hUnmaps _ _).mpr ⟨hMapped, by omega⟩
  rcases SortedMap.mem_insert.mp hOther with rfl | ⟨hNe, hOld⟩
  · have hBase : finish ≤ entry.1 := hContains.1
    omega
  · rw [hPlaced.contains_iff hOld] at hContains
    have hApart := hPlaced.before_or_behind hEntry hOld hNe
    omega

variable (hAddr : pageSize ∣ addr) (hSize : pageSize ∣ size) (hRoom : addr + size < space)

include hAddr hSize hRoom

theorem unmappable_of_unmaps (hPositive : 0 < size) {depth : Nat}
    (hUnmap : unmapSubregion depth model addr size = .ok next) (hUnmaps : model.Unmaps next addr (addr + size)) :
    model.Free addr (addr + size) ∨ model.Removes addr (addr + size) ∨ model.Splits addr (addr + size) := by
  have hFinish := add_of_lt hRoom
  cases depth with
  | zero => cases hUnmap
  | succ depth =>
    rcases exists_first_touched model.guestVmas.entries addr (add addr size) with
      hUntouched | ⟨before, entry, after, hSplit, hBefore, hTouched⟩
    · rw [eq_of_untouched hUntouched hUnmap] at hUnmaps
      refine .inl fun entry hEntry => ?_
      by_contra hMeets
      have hNonempty := hPlaced.nonempty entry hEntry
      have hMapped : model.Maps (max entry.1 addr) entry.2.protection :=
        (maps_iff hPlaced).mpr ⟨entry, hEntry, by omega, rfl⟩
      have hOutside := ((hUnmaps _ _).mp hMapped).2
      omega
    · have hEntry := SortedMap.mem_of_split hSplit
      cases hSituation : entry.2.situation addr (add addr size) with
      | untouched => exact absurd hSituation hTouched
      | covered => exact .inr (.inl (removes_of_covered hPlaced hSize hRoom hSplit hBefore hSituation hUnmap))
      | overStart =>
        have hLow := ((hPlaced.overStart_iff hEntry).mp hSituation).1
        rw [eq_shifted_of_overStart hPlaced hRoom hSplit hBefore hSituation hUnmap] at hUnmaps
        exact absurd hUnmaps (not_unmaps_shifted hPlaced hEntry hLow (by omega))
      | inside =>
        rw [unmapSubregion_inside hPlaced hRoom hSplit hBefore hSituation] at hUnmap
        rw [hFinish, hPlaced.inside_iff hEntry (by omega)] at hSituation
        obtain ⟨hLow, hHigh⟩ := hSituation
        cases depth with
        | zero =>
          obtain ⟨_, _, hNone⟩ := bind_eq_ok.mp hUnmap
          cases hNone
        | succ depth =>
          obtain ⟨middle, hMap, -⟩ := bind_eq_ok.mp hUnmap
          have hKeys := (mapRegionWith_cut hPlaced hEntry hAddr (Nat.dvd_add hAddr hSize) hLow (by omega)
            hHigh).mp hMap
          exact .inr (.inr ⟨⟨entry, hEntry, hLow, hHigh⟩, hKeys.1⟩)
      | overEnd =>
        rw [unmapSubregion_first hSplit hBefore, visitVMAs] at hUnmap
        dsimp only at hUnmap
        rw [hSituation] at hUnmap
        cases hUnmap

omit hAddr in
theorem unmapsRange_of_removes (hRemoves : model.Removes addr (addr + size)) : model.UnmapsRange addr size := by
  have hFinish := add_of_lt hRoom
  obtain ⟨⟨entry, hEntry, rfl, hEnd⟩, hOthers, hFound⟩ := hRemoves
  have hNonempty := hPlaced.nonempty entry hEntry
  have hLeft : Placed (model.removed entry.1).guestVmas := hPlaced.erase _
  obtain ⟨before, after, hSplit⟩ := List.append_of_mem hEntry
  have hBefore := hPlaced.untouched_before hSplit le_rfl hRoom
  have hCovered : entry.2.situation entry.1 (add entry.1 size) = .covered := by
    rw [hFinish, hPlaced.covered_iff hEntry]
    omega
  refine ⟨model.removed entry.1, ⟨2, fun depth hDepth => ?_⟩, fun asked prot => ?_⟩
  · obtain ⟨depth, rfl⟩ := Nat.exists_eq_add_of_le' hDepth
    rw [unmapSubregion_first hSplit hBefore, visitVMAs]
    dsimp only
    rw [hCovered, (unmapRegion_eq_ok hPlaced hEntry hSize hRoom).mpr ⟨hFound, rfl⟩]
    refine unmapSubregion_untouched fun other hOther => ?_
    obtain ⟨hNe, hOld⟩ := SortedMap.mem_erase.mp hOther
    rw [hFinish, hLeft.untouched_iff hOther (by omega)]
    exact .inl (hOthers other hOld hNe)
  · rw [maps_iff hLeft, maps_iff hPlaced]
    constructor
    · rintro ⟨other, hOther, hIn, rfl⟩
      obtain ⟨hNe, hOld⟩ := SortedMap.mem_erase.mp hOther
      have hApart := hOthers other hOld hNe
      exact ⟨⟨other, hOld, hIn, rfl⟩, by omega⟩
    · rintro ⟨⟨other, hOld, hIn, rfl⟩, hOutside⟩
      have hNe : other.1 ≠ entry.1 := by
        intro hSame
        rw [SortedMap.eq_of_mem hOld hEntry hSame] at hIn
        omega
      exact ⟨other, SortedMap.mem_erase.mpr ⟨hNe, hOld⟩, hIn, rfl⟩

theorem unmapsRange_of_splits (hSplits : model.Splits addr (addr + size)) : model.UnmapsRange addr size := by
  have hFinish := add_of_lt hRoom
  have hEnd : pageSize ∣ addr + size := Nat.dvd_add hAddr hSize
  obtain ⟨⟨entry, hEntry, hLow, hHigh⟩, hKeys⟩ := hSplits
  have hSplitPlaced := placed_split hPlaced hEntry hAddr hEnd hLow (by omega) hHigh
  obtain ⟨before, after, hSplit⟩ := List.append_of_mem hEntry
  have hBefore := hPlaced.untouched_before hSplit hLow.le hRoom
  have hInside : entry.2.situation addr (add addr size) = .inside := by
    rw [hFinish, hPlaced.inside_iff hEntry (by omega)]
    exact ⟨hLow, hHigh⟩
  refine ⟨model.split entry addr (addr + size), ⟨2, fun depth hDepth => ?_⟩, fun asked prot => ?_⟩
  · obtain ⟨depth, rfl⟩ := Nat.exists_eq_add_of_le' hDepth
    rw [unmapSubregion_inside hPlaced hRoom hSplit hBefore hInside,
      (mapRegionWith_cut hPlaced hEntry hAddr hEnd hLow (by omega) hHigh).mpr ⟨hKeys, rfl⟩]
    refine unmapSubregion_untouched fun other hOther => ?_
    rw [hFinish, hSplitPlaced.untouched_iff hOther (by omega)]
    exact .inl (mem_split_apart hPlaced hEntry hLow hHigh hOther)
  · rw [maps_iff hSplitPlaced, maps_iff hPlaced]
    constructor
    · rintro ⟨other, hOther, hIn, rfl⟩
      have hOutside := mem_split_apart hPlaced hEntry hLow hHigh hOther
      rcases SortedMap.mem_insert.mp hOther with rfl | ⟨-, hCut⟩
      · dsimp only at hIn
        exact ⟨⟨entry, hEntry, by omega, rfl⟩, by omega⟩
      · rcases SortedMap.mem_insert.mp hCut with rfl | ⟨-, hOld⟩
        · dsimp only at hIn
          exact ⟨⟨entry, hEntry, by omega, rfl⟩, by omega⟩
        · exact ⟨⟨other, hOld, hIn, rfl⟩, by omega⟩
    · rintro ⟨⟨other, hOld, hIn, rfl⟩, hOutside⟩
      by_cases hSame : other.1 = entry.1
      · rw [SortedMap.eq_of_mem hOld hEntry hSame] at hIn ⊢
        by_cases hBelow : asked < addr
        · refine ⟨(entry.1, ⟨entry.1, addr - entry.1, entry.2.protection⟩), ?_, ⟨hIn.1, by dsimp only; omega⟩, rfl⟩
          exact SortedMap.mem_insert.mpr (.inr ⟨by dsimp only; omega, SortedMap.mem_insert.mpr (.inl rfl)⟩)
        · refine ⟨(addr + size, ⟨addr + size, entry.1 + entry.2.size - (addr + size), entry.2.protection⟩), ?_,
            ⟨by dsimp only; omega, by dsimp only; omega⟩, rfl⟩
          exact SortedMap.mem_insert.mpr (.inl rfl)
      · have hApart := hPlaced.before_or_behind hEntry hOld hSame
        refine ⟨other, ?_, hIn, rfl⟩
        exact SortedMap.mem_insert.mpr (.inr ⟨by omega, SortedMap.mem_insert.mpr (.inr ⟨hSame, hOld⟩)⟩)

end Results

/-- Of VMAs that lie apart from each other a range of pages is unmapped exactly if no VMA meets it, or the only
one that does begins with it and ends within and a region is found for it, or one reaches over it on both sides
and no region begins at its end. -/
theorem unmapsRange_iff (model : RegionBasedMemoryModel π) (addr size : Nat) (hPlaced : Placed model.guestVmas)
    (hAddr : pageSize ∣ addr) (hSize : pageSize ∣ size) (hPositive : 0 < size) (hRoom : addr + size < space) :
    model.UnmapsRange addr size ↔
      model.Free addr (addr + size) ∨ model.Removes addr (addr + size) ∨ model.Splits addr (addr + size) := by
  constructor
  · rintro ⟨next, ⟨bound, hReturns⟩, hUnmaps⟩
    exact unmappable_of_unmaps hPlaced hAddr hSize hRoom hPositive (hReturns bound le_rfl) hUnmaps
  · rintro (hFree | hRemoves | hSplits)
    · refine ⟨model, ⟨1, fun depth hDepth => ?_⟩, fun asked prot => ?_⟩
      · obtain ⟨depth, rfl⟩ := Nat.exists_eq_add_of_le' hDepth
        exact unmapSubregion_untouched (hPlaced.untouched_of_free hRoom hFree)
      · rw [maps_iff hPlaced]
        refine ⟨fun hMapped => ⟨hMapped, ?_⟩, And.left⟩
        obtain ⟨entry, hEntry, hIn, -⟩ := hMapped
        have hApart := hFree entry hEntry
        omega
    · exact unmapsRange_of_removes hPlaced hSize hRoom hRemoves
    · exact unmapsRange_of_splits hPlaced hAddr hSize hRoom hSplits

/-- One VMA of two pages, with its region. -/
def twoPages : RegionBasedMemoryModel Unit :=
  ⟨⟨[(0x2000, ⟨0x2000, 0x2000, ()⟩)], by simp⟩, ⟨[(0x2000, 0x2000)], by simp⟩⟩

theorem placed_twoPages : Placed twoPages.guestVmas := by
  constructor <;> simp [twoPages, SortedMap.mem_def, space, pageSize]

theorem unmapsRange_twoPages : twoPages.UnmapsRange 0x2000 0x2000 :=
  (unmapsRange_iff twoPages 0x2000 0x2000 placed_twoPages (by decide) (by decide) (by decide) (by decide)).mpr
    (.inr (.inl ⟨⟨_, List.mem_singleton.mpr rfl, rfl, by decide⟩, by simp [twoPages, SortedMap.mem_def],
      ⟨(0x2000, 0x2000), rfl, by decide⟩⟩))

/-- Pages that the two share in part, or that are more than the two and begin before them, are not unmapped. -/
theorem not_unmapsRange_of_meets {addr size : Nat} (hAddr : pageSize ∣ addr) (hSize : pageSize ∣ size)
    (hRoom : addr + size < space) (hMeets : addr < 0x4000 ∧ 0x2000 < addr + size)
    (hOther : ¬ (addr = 0x2000 ∧ 0x4000 ≤ addr + size) ∧ ¬ (0x2000 < addr ∧ addr + size < 0x4000)) :
    ¬ twoPages.UnmapsRange addr size := by
  rintro ⟨next, ⟨bound, hReturns⟩, hUnmaps⟩
  have hPositive : 0 < size := by
    by_contra hZero
    obtain ⟨n, rfl⟩ := hAddr
    simp only [pageSize] at hMeets hOther
    omega
  rcases unmappable_of_unmaps placed_twoPages hAddr hSize hRoom hPositive (hReturns bound le_rfl) hUnmaps with
    hFree | ⟨⟨entry, hEntry, hAt, hEnd⟩, -, -⟩ | ⟨⟨entry, hEntry, hLow, hHigh⟩, -⟩
  · have hApart := hFree _ (List.mem_singleton.mpr rfl)
    dsimp only at hApart
    omega
  · obtain rfl := List.mem_singleton.mp hEntry
    exact hOther.1 ⟨hAt.symm, hEnd⟩
  · obtain rfl := List.mem_singleton.mp hEntry
    exact hOther.2 ⟨hLow, hHigh⟩

/-- Pages around the two, the first or the last of them, and pages that begin before or end behind them. -/
theorem not_unmapsRange_twoPages :
    ¬ twoPages.UnmapsRange 0x1000 0x4000 ∧ ¬ twoPages.UnmapsRange 0x2000 0x1000 ∧
    ¬ twoPages.UnmapsRange 0x3000 0x1000 ∧ ¬ twoPages.UnmapsRange 0x1000 0x2000 ∧
    ¬ twoPages.UnmapsRange 0x3000 0x2000 := by
  refine ⟨?_, ?_, ?_, ?_, ?_⟩ <;>
    exact not_unmapsRange_of_meets (by decide) (by decide) (by decide) (by decide) (by decide)

end Gensim.Memory.RegionBasedMemoryModel
