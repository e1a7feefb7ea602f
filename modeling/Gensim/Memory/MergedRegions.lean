import Gensim.Memory.RegionBasedMemoryModel

/-! What merging leaves of the allocated regions of a memory model. -/
namespace Gensim.Memory.RegionBasedMemoryModel

open GuestAddress

def regionEnd (region : Nat × Nat) : Nat := region.1 + region.2

def Covered (regions : List (Nat × Nat)) (a : Nat) : Prop := ∃ region ∈ regions, region.1 ≤ a ∧ a < regionEnd region

/-- No two of the regions overlap or touch, and they have the addresses of the regions before. -/
structure Merges (before after : SortedMap Nat Nat) : Prop where
  apart : after.entries.Pairwise fun first second => regionEnd first < second.1
  covers : ∀ a, Covered after.entries a ↔ Covered before.entries a

/-- The address is in the last region that starts at it or before. -/
def CoveredByLast (regions : List (Nat × Nat)) (a : Nat) : Prop :=
  ∃ region ∈ regions, region.1 ≤ a ∧ a < regionEnd region ∧ ∀ other ∈ regions, other.1 ≤ a → other.1 ≤ region.1

/-- Where a region ends before an earlier one does, another region starts in it or at its end. -/
def LastReachesFurthest (regions : SortedMap Nat Nat) : Prop :=
  ∀ first ∈ regions, ∀ second ∈ regions, first.1 ≤ second.1 → regionEnd second < regionEnd first →
    ∃ next ∈ regions, second.1 < next.1 ∧ next.1 ≤ regionEnd second

section Absorb

variable {region next : Nat × Nat} {rest : List (Nat × Nat)} {a : Nat}

theorem le_of_mem_absorb (hFirst : ∀ other ∈ rest, region.1 < other.1) :
    ∀ other ∈ absorb region rest, region.1 ≤ other.1 := by
  intro other hOther
  have hKey := (absorb_keys_sublist region rest).subset (List.mem_map_of_mem hOther)
  rcases List.mem_cons.mp hKey with hSame | hLater
  · exact hSame.ge
  · obtain ⟨later, hLater, hSame⟩ := List.mem_map.mp hLater
    exact hSame ▸ (hFirst later hLater).le

theorem lt_of_mem_sorted (hSorted : (next :: rest).Pairwise (·.1 < ·.1)) (hLt : a < next.1) :
    ∀ other ∈ next :: rest, a < other.1 :=
  List.forall_mem_cons.mpr ⟨hLt, fun _ hOther => hLt.trans (List.rel_of_pairwise_cons hSorted hOther)⟩

theorem sorted_merge (hSorted : (region :: next :: rest).Pairwise (·.1 < ·.1)) (size : Nat) :
    ((region.1, size) :: rest).Pairwise (·.1 < ·.1) :=
  List.pairwise_cons.mpr ⟨fun _ hOther => List.rel_of_pairwise_cons hSorted (List.mem_cons_of_mem _ hOther),
    hSorted.of_cons.of_cons⟩

theorem coveredByLast_cons_of_lt (hFirst : ∀ other ∈ rest, a < other.1) :
    CoveredByLast (region :: rest) a ↔ region.1 ≤ a ∧ a < regionEnd region := by
  constructor
  · rintro ⟨found, hMem, hLow, hHigh, -⟩
    rcases List.mem_cons.mp hMem with rfl | hLater
    · exact ⟨hLow, hHigh⟩
    · exact absurd hLow (hFirst found hLater).not_ge
  · rintro ⟨hLow, hHigh⟩
    refine ⟨region, List.mem_cons_self, hLow, hHigh, fun other hOther hLe => ?_⟩
    rcases List.mem_cons.mp hOther with rfl | hLater
    · exact le_rfl
    · exact absurd hLe (hFirst other hLater).not_ge

/-- A region says nothing of the addresses from the start of the next one on. -/
theorem coveredByLast_cons_of_le (hNext : region.1 < next.1) (hLe : next.1 ≤ a) :
    CoveredByLast (region :: next :: rest) a ↔ CoveredByLast (next :: rest) a := by
  constructor
  · rintro ⟨found, hMem, hLow, hHigh, hLast⟩
    rcases List.mem_cons.mp hMem with rfl | hLater
    · exact absurd (hLast next (by simp) hLe) hNext.not_ge
    · exact ⟨found, hLater, hLow, hHigh, fun other hOther => hLast other (List.mem_cons_of_mem _ hOther)⟩
  · rintro ⟨found, hMem, hLow, hHigh, hLast⟩
    refine ⟨found, List.mem_cons_of_mem _ hMem, hLow, hHigh, fun other hOther hOtherLe => ?_⟩
    rcases List.mem_cons.mp hOther with rfl | hLater
    · exact hNext.le.trans (hLast next List.mem_cons_self hLe)
    · exact hLast other hLater hOtherLe

/-- Two regions that both start before the others are alike where they end together. -/
theorem coveredByLast_congr (hRegion : (region :: rest).Pairwise (·.1 < ·.1))
    (hNext : (next :: rest).Pairwise (·.1 < ·.1)) (hEnd : regionEnd region = regionEnd next) (hStart : region.1 ≤ a)
    (hLe : next.1 ≤ a) : CoveredByLast (region :: rest) a ↔ CoveredByLast (next :: rest) a := by
  rcases rest with _ | ⟨later, rest⟩
  · rw [coveredByLast_cons_of_lt (by simp), coveredByLast_cons_of_lt (by simp), hEnd]
    simp [hStart, hLe]
  · by_cases hLater : later.1 ≤ a
    · rw [coveredByLast_cons_of_le (List.rel_of_pairwise_cons hRegion List.mem_cons_self) hLater,
        coveredByLast_cons_of_le (List.rel_of_pairwise_cons hNext List.mem_cons_self) hLater]
    · have hAll := lt_of_mem_sorted hRegion.of_cons (not_le.mp hLater)
      rw [coveredByLast_cons_of_lt hAll, coveredByLast_cons_of_lt hAll, hEnd]
      simp [hStart, hLe]

/-- What is merged into a region replaces its end. -/
theorem coveredByLast_merge (hSorted : (region :: next :: rest).Pairwise (·.1 < ·.1))
    (hTouch : next.1 ≤ regionEnd region) :
    CoveredByLast ((region.1, regionEnd next - region.1) :: rest) a ↔ CoveredByLast (region :: next :: rest) a := by
  have hBefore : region.1 < next.1 := List.rel_of_pairwise_cons hSorted List.mem_cons_self
  have hEnd : regionEnd (region.1, regionEnd next - region.1) = regionEnd next := by
    simp only [regionEnd]
    omega
  by_cases hLe : next.1 ≤ a
  · rw [coveredByLast_cons_of_le hBefore hLe]
    exact coveredByLast_congr (sorted_merge hSorted _) hSorted.of_cons hEnd (hBefore.le.trans hLe) hLe
  · rw [not_le] at hLe
    have hAll := lt_of_mem_sorted hSorted.of_cons hLe
    rw [coveredByLast_cons_of_lt (List.forall_mem_cons.mp hAll).2, coveredByLast_cons_of_lt hAll, hEnd]
    have hNext : next.1 ≤ regionEnd next := Nat.le_add_right _ _
    simp only [hLe.trans_le hTouch, hLe.trans_le hNext]

/-- A region that ends before the next one starts stays as it is. -/
theorem coveredByLast_of_gap (hSorted : (region :: next :: rest).Pairwise (·.1 < ·.1)) (hGap : regionEnd region < next.1) :
    CoveredByLast (region :: next :: rest) a ↔
      region.1 ≤ a ∧ a < regionEnd region ∨ CoveredByLast (next :: rest) a := by
  by_cases hLe : next.1 ≤ a
  · rw [coveredByLast_cons_of_le (List.rel_of_pairwise_cons hSorted List.mem_cons_self) hLe,
      or_iff_right fun hIn => by omega]
  · have hAll := lt_of_mem_sorted hSorted.of_cons (not_le.mp hLe)
    have hNone : ¬ CoveredByLast (next :: rest) a := by
      rintro ⟨found, hMem, hLow, -⟩
      exact (hAll found hMem).not_ge hLow
    rw [coveredByLast_cons_of_lt hAll, or_iff_left hNone]

/-- Merging keeps apart what does not touch, and an address where the last region has it. -/
theorem absorb_spec (hSorted : (region :: rest).Pairwise (·.1 < ·.1))
    (hRoom : ∀ other ∈ region :: rest, regionEnd other < space) :
    (absorb region rest).Pairwise (fun first second => regionEnd first < second.1) ∧
      ∀ a, Covered (absorb region rest) a ↔ CoveredByLast (region :: rest) a := by
  induction rest generalizing region with
  | nil => exact ⟨List.pairwise_singleton _ _, fun a => by simp [absorb, Covered, CoveredByLast]⟩
  | cons next rest ih =>
    have hBefore : region.1 < next.1 := List.rel_of_pairwise_cons hSorted List.mem_cons_self
    have hEnd : add region.1 region.2 = regionEnd region := add_of_lt (hRoom region List.mem_cons_self)
    have hNextEnd : add next.1 next.2 = regionEnd next := add_of_lt (hRoom next (by simp))
    have hRest : ∀ other ∈ rest, regionEnd other < space := fun other hOther => hRoom other (by simp [hOther])
    rw [absorb, hEnd, hNextEnd]
    split
    case isTrue hTouch =>
      have hNextRoom := hRoom next (by simp)
      have hStart : region.1 ≤ regionEnd next := hBefore.le.trans (Nat.le_add_right _ _)
      rw [sub_of_le hStart hNextRoom]
      have hMerged := @ih (region.1, regionEnd next - region.1) (sorted_merge hSorted _) ?_
      · exact ⟨hMerged.1, fun a => (hMerged.2 a).trans (coveredByLast_merge hSorted hTouch)⟩
      · refine List.forall_mem_cons.mpr ⟨?_, hRest⟩
        simp only [regionEnd] at hStart hNextRoom ⊢
        omega
    case isFalse hGap =>
      rw [not_le] at hGap
      obtain ⟨hApart, hCovered⟩ := ih hSorted.of_cons fun other hOther => hRoom other (List.mem_cons_of_mem _ hOther)
      have hLater := le_of_mem_absorb fun other hOther => List.rel_of_pairwise_cons hSorted.of_cons hOther
      refine ⟨List.pairwise_cons.mpr ⟨fun other hOther => hGap.trans_le (hLater other hOther), hApart⟩, fun a => ?_⟩
      have hCons : Covered (region :: absorb next rest) a ↔
          region.1 ≤ a ∧ a < regionEnd region ∨ Covered (absorb next rest) a := by simp [Covered]
      rw [hCons, hCovered, coveredByLast_of_gap hSorted hGap]

end Absorb

variable {regions : SortedMap Nat Nat}

theorem mergeAllocatedRegions_spec (hRoom : ∀ region ∈ regions, regionEnd region < space) :
    (mergeAllocatedRegions regions).entries.Pairwise (fun first second => regionEnd first < second.1) ∧
      ∀ a, Covered (mergeAllocatedRegions regions).entries a ↔ CoveredByLast regions.entries a := by
  obtain ⟨entries, hSorted⟩ := regions
  cases entries with
  | nil => simp [mergeAllocatedRegions, mergeRegions, Covered, CoveredByLast]
  | cons region rest => exact absorb_spec hSorted hRoom

theorem covered_of_coveredByLast {entries : List (Nat × Nat)} {a : Nat} (hLast : CoveredByLast entries a) :
    Covered entries a := by
  obtain ⟨region, hMem, hLow, hHigh, -⟩ := hLast
  exact ⟨region, hMem, hLow, hHigh⟩

theorem coveredByLast_iff : (∀ a, Covered regions.entries a → CoveredByLast regions.entries a) ↔
    LastReachesFurthest regions := by
  constructor
  · intro hAll first hFirst second hSecond hLe hShort
    obtain ⟨next, hNext, hLow, hHigh, hLast⟩ :=
      hAll (regionEnd second) ⟨first, hFirst, hLe.trans (Nat.le_add_right _ _), hShort⟩
    refine ⟨next, hNext, lt_of_le_of_ne (hLast second hSecond (Nat.le_add_right _ _)) fun hSame => ?_, hLow⟩
    rw [SortedMap.eq_of_mem hNext hSecond hSame.symm] at hHigh
    exact hHigh.false
  · rintro hReach a ⟨first, hFirst, hLow, hHigh⟩
    cases hUpTo : regions.upTo a with
    | none => exact absurd hLow (SortedMap.upTo_eq_none.mp hUpTo first hFirst).not_ge
    | some last =>
      obtain ⟨hLast, hLe, hMax⟩ := SortedMap.upTo_eq_some.mp hUpTo
      refine ⟨last, hLast, hLe, ?_, hMax⟩
      by_contra hShort
      rw [not_lt] at hShort
      obtain ⟨next, hNext, hAfter, hIn⟩ := hReach first hFirst last hLast (hMax first hFirst hLow) (hShort.trans_lt hHigh)
      exact hAfter.not_ge (hMax next hNext (hIn.trans hShort))

/-- Where no region wraps around, merging keeps the addresses of the regions exactly if no address is lost to
a region that ends before an earlier one. -/
theorem merges_iff (hRoom : ∀ region ∈ regions, regionEnd region < space) :
    Merges regions (mergeAllocatedRegions regions) ↔ LastReachesFurthest regions := by
  obtain ⟨hApart, hCovered⟩ := mergeAllocatedRegions_spec hRoom
  rw [← coveredByLast_iff]
  constructor
  · intro hMerges a hIn
    exact (hCovered a).mp ((hMerges.covers a).mpr hIn)
  · intro hAll
    exact ⟨hApart, fun a => (hCovered a).trans ⟨covered_of_coveredByLast, hAll a⟩⟩

/-- Two regions that touch are merged. -/
theorem merges_touching : Merges ⟨[(0x1000, 0x1000), (0x2000, 0x1000)], by simp⟩
    (mergeAllocatedRegions ⟨[(0x1000, 0x1000), (0x2000, 0x1000)], by simp⟩) := by
  refine (merges_iff (by simp [SortedMap.mem_def, regionEnd, space])).mpr ?_
  simp [LastReachesFurthest, SortedMap.mem_def, regionEnd]

/-- A region inside another one cuts it short. -/
theorem nested_not_merged : ¬ Merges ⟨[(0x1000, 0x4000), (0x2000, 0x1000)], by simp⟩
    (mergeAllocatedRegions ⟨[(0x1000, 0x4000), (0x2000, 0x1000)], by simp⟩) := by
  intro hMerges
  have hLost := (hMerges.covers 0x4000).mpr ⟨(0x1000, 0x4000), by simp, by simp [regionEnd]⟩
  simp [Covered, mergeAllocatedRegions, mergeRegions, absorb, add, sub, space, regionEnd] at hLost

end Gensim.Memory.RegionBasedMemoryModel
