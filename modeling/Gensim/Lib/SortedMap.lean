import Mathlib.Tactic

/-! Finite maps kept as lists of entries in the order of their keys. -/

/-- A map by its entries. That the keys ascend is a field, so each key has one
entry and two maps with the same entries are equal. -/
@[ext] structure SortedMap (κ ν : Type*) [LinearOrder κ] where
  entries : List (κ × ν)
  sorted : entries.Pairwise (·.1 < ·.1)

namespace SortedMap

variable {κ ν : Type*} [LinearOrder κ]

instance : Membership (κ × ν) (SortedMap κ ν) := ⟨fun map entry => entry ∈ map.entries⟩

def empty : SortedMap κ ν := ⟨[], .nil⟩

variable (map : SortedMap κ ν) (key : κ)

/-- The entry takes the place of one with the same key, if there is one. -/
def insert (value : ν) : SortedMap κ ν where
  entries := map.entries.filter (·.1 < key) ++ (key, value) :: map.entries.filter (key < ·.1)
  sorted := by
    rw [List.pairwise_append, List.pairwise_cons]
    refine ⟨map.sorted.filter _, ⟨?_, map.sorted.filter _⟩, ?_⟩
    · intro entry hEntry
      simpa using (List.mem_filter.mp hEntry).2
    · intro before hBefore after hAfter
      have hLow : before.1 < key := by simpa using (List.mem_filter.mp hBefore).2
      rcases List.mem_cons.mp hAfter with rfl | hAfter
      · exact hLow
      · have hHigh : key < after.1 := by simpa using (List.mem_filter.mp hAfter).2
        exact hLow.trans hHigh

/-- The map without the entry of a key. -/
def erase : SortedMap κ ν := ⟨map.entries.filter (·.1 ≠ key), map.sorted.filter _⟩

/-- The value of a key. -/
def find? : Option ν := (map.entries.find? (·.1 = key)).map (·.2)

/-- The last entry with a key up to this one. -/
def upTo : Option (κ × ν) := (map.entries.filter (·.1 ≤ key)).getLast?

/-- The first entry with this key or a later one. -/
def lowerBound : Option (κ × ν) := map.entries.find? (key ≤ ·.1)

variable {map key} {value : ν} {entry : κ × ν}

theorem mem_def : entry ∈ map ↔ entry ∈ map.entries := Iff.rfl

@[simp] theorem not_mem_empty : entry ∉ (empty : SortedMap κ ν) := List.not_mem_nil

/-- A key has one entry. -/
theorem eq_of_mem {first second : κ × ν} (hFirst : first ∈ map) (hSecond : second ∈ map)
    (hKey : first.1 = second.1) : first = second := by
  have hKeys : (map.entries.map (·.1)).Nodup := List.pairwise_map.mpr (map.sorted.imp ne_of_lt)
  exact List.inj_on_of_nodup_map hKeys hFirst hSecond hKey

/-- The entries after an insertion: the new one and those of the other keys. -/
@[simp] theorem mem_insert : entry ∈ map.insert key value ↔ entry = (key, value) ∨ entry.1 ≠ key ∧ entry ∈ map := by
  simp only [mem_def, insert, List.mem_append, List.mem_cons, List.mem_filter, decide_eq_true_eq]
  constructor
  · rintro (⟨hMem, hLt⟩ | rfl | ⟨hMem, hLt⟩)
    · exact .inr ⟨hLt.ne, hMem⟩
    · exact .inl rfl
    · exact .inr ⟨hLt.ne', hMem⟩
  · rintro (rfl | ⟨hNe, hMem⟩)
    · exact .inr (.inl rfl)
    · rcases lt_or_gt_of_ne hNe with hLt | hLt
      · exact .inl ⟨hMem, hLt⟩
      · exact .inr (.inr ⟨hMem, hLt⟩)

@[simp] theorem mem_erase : entry ∈ map.erase key ↔ entry.1 ≠ key ∧ entry ∈ map := by
  simp [mem_def, erase, and_comm]

theorem find?_eq_none : map.find? key = none ↔ ∀ entry ∈ map, entry.1 ≠ key := by
  simp [find?, mem_def]

theorem mem_of_find? (hFind : map.find? key = some value) : (key, value) ∈ map := by
  rw [find?, Option.map_eq_some_iff] at hFind
  obtain ⟨found, hFound, rfl⟩ := hFind
  have hKey : found.1 = key := by simpa using List.find?_some hFound
  exact hKey ▸ List.mem_of_find?_eq_some hFound

theorem find?_of_mem (hMem : (key, value) ∈ map) : map.find? key = some value := by
  cases hFind : map.find? key with
  | none => exact absurd rfl (find?_eq_none.mp hFind _ hMem)
  | some found => exact congrArg some (congrArg Prod.snd (eq_of_mem (mem_of_find? hFind) hMem rfl))

theorem upTo_eq_none : map.upTo key = none ↔ ∀ entry ∈ map, key < entry.1 := by
  simp only [upTo, List.getLast?_eq_none_iff, List.filter_eq_nil_iff, decide_eq_true_eq, not_le, mem_def]

/-- `upTo` finds the entry with the greatest of the keys that are not above
the one asked for. -/
theorem upTo_eq_some : map.upTo key = some entry ↔
      entry ∈ map ∧ entry.1 ≤ key ∧ ∀ other ∈ map, other.1 ≤ key → other.1 ≤ entry.1 := by
  have hLast {entry : κ × ν} (hUpTo : map.upTo key = some entry) :
      entry ∈ map ∧ entry.1 ≤ key ∧ ∀ other ∈ map, other.1 ≤ key → other.1 ≤ entry.1 := by
    obtain ⟨before, hSplit⟩ := List.getLast?_eq_some_iff.mp hUpTo
    have hMem : entry ∈ map.entries.filter (·.1 ≤ key) := by simp [hSplit]
    rw [List.mem_filter, decide_eq_true_eq] at hMem
    refine ⟨hMem.1, hMem.2, fun other hOther hLe => ?_⟩
    have hIn : other ∈ map.entries.filter (·.1 ≤ key) := List.mem_filter.mpr ⟨hOther, decide_eq_true hLe⟩
    have hSorted := map.sorted.filter (fun other => decide (other.1 ≤ key))
    rw [hSplit] at hIn hSorted
    rcases List.mem_append.mp hIn with hBefore | hSame
    · exact ((List.pairwise_append.mp hSorted).2.2 other hBefore entry (by simp)).le
    · exact (congrArg Prod.fst (List.mem_singleton.mp hSame)).le
  refine ⟨hLast, fun ⟨hMem, hLe, hMax⟩ => ?_⟩
  cases hUpTo : map.upTo key with
  | none => exact absurd hLe (not_le.mpr (upTo_eq_none.mp hUpTo entry hMem))
  | some last =>
    obtain ⟨hIn, hLeLast, hMaxLast⟩ := hLast hUpTo
    have hKey : last.1 = entry.1 := le_antisymm (hMax last hIn hLeLast) (hMaxLast entry hMem hLe)
    rw [eq_of_mem hIn hMem hKey]

section Split

variable {before after : List (κ × ν)}

theorem mem_of_split (hSplit : map.entries = before ++ entry :: after) : entry ∈ map := by
  rw [mem_def, hSplit]
  simp

/-- The keys on either side of an entry are below and above its own. -/
theorem lt_of_split (hSplit : map.entries = before ++ entry :: after) :
    (∀ first ∈ before, first.1 < entry.1) ∧ ∀ last ∈ after, entry.1 < last.1 := by
  have hSorted := hSplit ▸ map.sorted
  rw [List.pairwise_append, List.pairwise_cons] at hSorted
  exact ⟨fun first hFirst => hSorted.2.2 first hFirst entry List.mem_cons_self, hSorted.2.1.1⟩

/-- Another value in the place of an entry. -/
theorem insert_of_split (hSplit : map.entries = before ++ entry :: after) :
    (map.insert entry.1 value).entries = before ++ (entry.1, value) :: after := by
  obtain ⟨hBefore, hAfter⟩ := lt_of_split hSplit
  have hLow : map.entries.filter (·.1 < entry.1) = before := by
    rw [hSplit, List.filter_append, List.filter_cons_of_neg (by simp), List.filter_eq_self.mpr,
      List.filter_eq_nil_iff.mpr, List.append_nil]
    · exact fun last hLast => by simpa using (hAfter last hLast).le
    · exact fun first hFirst => by simpa using hBefore first hFirst
  have hHigh : map.entries.filter (entry.1 < ·.1) = after := by
    rw [hSplit, List.filter_append, List.filter_cons_of_neg (by simp), List.filter_eq_nil_iff.mpr,
      List.filter_eq_self.mpr, List.nil_append]
    · exact fun last hLast => by simpa using hAfter last hLast
    · exact fun first hFirst => by simpa using (hBefore first hFirst).le
  change map.entries.filter (·.1 < entry.1) ++ _ :: map.entries.filter (entry.1 < ·.1) = _
  rw [hLow, hHigh]

/-- Nothing changes when an entry that is there is inserted. -/
theorem insert_of_mem (hMem : (key, value) ∈ map) : map.insert key value = map := by
  obtain ⟨before, after, hSplit⟩ := List.append_of_mem hMem
  exact SortedMap.ext ((insert_of_split hSplit).trans hSplit.symm)

end Split

end SortedMap
