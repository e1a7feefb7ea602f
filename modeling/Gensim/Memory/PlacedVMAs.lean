import Gensim.Memory.RegionBasedMemoryModel

/-! VMAs that lie apart from each other, and how they lie to a range of addresses. -/
namespace Gensim.Memory.RegionBasedMemoryModel

open GuestAddress

variable {π : Type} {model : RegionBasedMemoryModel π} {entry other : Nat × GuestVMA π}

/-- VMAs that lie apart from each other in the address space, kept at their own bases. -/
structure Placed (vmas : SortedMap Nat (GuestVMA π)) : Prop where
  keyed : ∀ entry ∈ vmas, entry.2.base = entry.1
  nonempty : ∀ entry ∈ vmas, 0 < entry.2.size
  bounded : ∀ entry ∈ vmas, entry.1 + entry.2.size < space
  aligned : ∀ entry ∈ vmas, pageSize ∣ entry.1 ∧ pageSize ∣ entry.2.size
  apart : ∀ entry ∈ vmas, ∀ other ∈ vmas, entry.1 < other.1 → entry.1 + entry.2.size ≤ other.1

/-! ### Lookups -/

theorem lookupVMA_of_upTo {asked : Nat} (hUpTo : model.guestVmas.upTo asked = some entry) :
    model.lookupVMA asked = .ok (if entry.2.contains asked then some entry else none) := by
  have hMem := (SortedMap.upTo_eq_some.mp hUpTo).1
  have hNonempty : model.guestVmas.entries.isEmpty = false := by
    rw [List.isEmpty_eq_false_iff]
    exact List.ne_nil_of_mem hMem
  rw [lookupVMA, hNonempty, hUpTo]
  rfl

namespace Placed

theorem finish_eq (hPlaced : Placed model.guestVmas) (hEntry : entry ∈ model.guestVmas) :
    entry.2.finish = entry.1 + entry.2.size := by
  rw [GuestVMA.finish, hPlaced.keyed entry hEntry, add_of_lt (hPlaced.bounded entry hEntry)]

variable {addr : Nat}

section

variable (hPlaced : Placed model.guestVmas)
include hPlaced

theorem contains_iff (hEntry : entry ∈ model.guestVmas) :
    entry.2.contains addr ↔ entry.1 ≤ addr ∧ addr < entry.1 + entry.2.size := by
  rw [GuestVMA.contains, hPlaced.finish_eq hEntry, hPlaced.keyed entry hEntry]

theorem eq_of_contains {other : Nat × GuestVMA π} (hEntry : entry ∈ model.guestVmas) (hOther : other ∈ model.guestVmas)
    (hLe : entry.1 ≤ addr) (hLt : addr < entry.1 + entry.2.size) (hLeOther : other.1 ≤ addr)
    (hLtOther : addr < other.1 + other.2.size) : entry = other := by
  rcases lt_trichotomy entry.1 other.1 with hBefore | hSame | hAfter
  · have hApart := hPlaced.apart entry hEntry other hOther hBefore
    omega
  · exact SortedMap.eq_of_mem hEntry hOther hSame
  · have hApart := hPlaced.apart other hOther entry hEntry hAfter
    omega

theorem upTo_of_contains (hEntry : entry ∈ model.guestVmas) (hLe : entry.1 ≤ addr)
    (hLt : addr < entry.1 + entry.2.size) : model.guestVmas.upTo addr = some entry := by
  refine SortedMap.upTo_eq_some.mpr ⟨hEntry, hLe, fun other hOther hLeOther => ?_⟩
  by_contra hAfter
  have hApart := hPlaced.apart entry hEntry other hOther (by omega)
  omega

theorem lookupVMA_of_unmapped
    (hUnmapped : ∀ entry ∈ model.guestVmas, ¬ (entry.1 ≤ addr ∧ addr < entry.1 + entry.2.size))
    (found : Nat × GuestVMA π) : model.lookupVMA addr ≠ .ok (some found) := by
  intro hLookup
  cases hUpTo : model.guestVmas.upTo addr with
  | none =>
    rw [lookupVMA, hUpTo] at hLookup
    split at hLookup <;> cases hLookup
  | some entry =>
    have hEntry := (SortedMap.upTo_eq_some.mp hUpTo).1
    have hNot : ¬ entry.2.contains addr := by
      rw [hPlaced.contains_iff hEntry]
      exact hUnmapped entry hEntry
    rw [lookupVMA_of_upTo hUpTo, if_neg hNot] at hLookup
    cases hLookup

end

/-- A VMA is put where no other is, or in the place of one that is no smaller. -/
theorem insert {vmas : SortedMap Nat (GuestVMA π)} (hPlaced : Placed vmas) {addr size : Nat} {prot : π}
    (hAddr : pageSize ∣ addr) (hSize : pageSize ∣ size) (hPositive : 0 < size) (hRoom : addr + size < space)
    (hApart : ∀ other ∈ vmas, other.1 ≠ addr → other.1 + other.2.size ≤ addr ∨ addr + size ≤ other.1) :
    Placed (vmas.insert addr ⟨addr, size, prot⟩) := by
  refine ⟨?_, ?_, ?_, ?_, ?_⟩
  · intro entry hEntry
    rcases SortedMap.mem_insert.mp hEntry with rfl | ⟨-, hOld⟩
    · rfl
    · exact hPlaced.keyed entry hOld
  · intro entry hEntry
    rcases SortedMap.mem_insert.mp hEntry with rfl | ⟨-, hOld⟩
    · exact hPositive
    · exact hPlaced.nonempty entry hOld
  · intro entry hEntry
    rcases SortedMap.mem_insert.mp hEntry with rfl | ⟨-, hOld⟩
    · exact hRoom
    · exact hPlaced.bounded entry hOld
  · intro entry hEntry
    rcases SortedMap.mem_insert.mp hEntry with rfl | ⟨-, hOld⟩
    · exact ⟨hAddr, hSize⟩
    · exact hPlaced.aligned entry hOld
  · intro entry hEntry other hOther hLt
    rcases SortedMap.mem_insert.mp hEntry with rfl | ⟨hNe, hOld⟩
    · rcases SortedMap.mem_insert.mp hOther with rfl | ⟨hNe, hOld⟩
      · exact absurd hLt (lt_irrefl _)
      · have hFree := hApart other hOld hNe
        have hNonempty := hPlaced.nonempty other hOld
        dsimp only at hLt ⊢
        omega
    · rcases SortedMap.mem_insert.mp hOther with rfl | ⟨-, hOldOther⟩
      · have hFree := hApart entry hOld hNe
        dsimp only at hLt ⊢
        omega
      · exact hPlaced.apart entry hOld other hOldOther hLt

theorem erase {vmas : SortedMap Nat (GuestVMA π)} (hPlaced : Placed vmas) (addr : Nat) : Placed (vmas.erase addr) := by
  have hOld {entry : Nat × GuestVMA π} (hEntry : entry ∈ vmas.erase addr) : entry ∈ vmas :=
    (SortedMap.mem_erase.mp hEntry).2
  refine ⟨?_, ?_, ?_, ?_, ?_⟩
  · exact fun entry hEntry => hPlaced.keyed entry (hOld hEntry)
  · exact fun entry hEntry => hPlaced.nonempty entry (hOld hEntry)
  · exact fun entry hEntry => hPlaced.bounded entry (hOld hEntry)
  · exact fun entry hEntry => hPlaced.aligned entry (hOld hEntry)
  · exact fun entry hEntry other hOther => hPlaced.apart entry (hOld hEntry) other (hOld hOther)

/-- Another VMA is before an entry or behind it. -/
theorem before_or_behind (hPlaced : Placed model.guestVmas) (hEntry : entry ∈ model.guestVmas)
    (hOther : other ∈ model.guestVmas) (hNe : other.1 ≠ entry.1) :
    other.1 + other.2.size ≤ entry.1 ∨ entry.1 + entry.2.size ≤ other.1 := by
  rcases Nat.lt_or_gt_of_ne hNe with hBefore | hAfter
  · exact .inl (hPlaced.apart other hOther entry hEntry hBefore)
  · exact .inr (hPlaced.apart entry hEntry other hOther hAfter)

end Placed

section Situations

variable {uStart uEnd : Nat}

section

variable (hPlaced : Placed model.guestVmas)
include hPlaced

theorem Placed.covered_iff (hEntry : entry ∈ model.guestVmas) :
    entry.2.situation uStart uEnd = .covered ↔ uStart ≤ entry.1 ∧ entry.1 + entry.2.size ≤ uEnd := by
  rw [GuestVMA.situation, hPlaced.finish_eq hEntry, hPlaced.keyed entry hEntry]
  split_ifs with hCovered hStart hInside hEnd <;> simp [hCovered]

theorem Placed.overStart_iff (hEntry : entry ∈ model.guestVmas) :
    entry.2.situation uStart uEnd = .overStart ↔
      entry.1 < uStart ∧ uStart < entry.1 + entry.2.size ∧ entry.1 + entry.2.size < uEnd := by
  rw [GuestVMA.situation, hPlaced.finish_eq hEntry, hPlaced.keyed entry hEntry]
  split_ifs with hCovered hStart hInside hEnd <;> simp <;> omega

theorem Placed.inside_iff (hEntry : entry ∈ model.guestVmas) (hLe : uStart ≤ uEnd) :
    entry.2.situation uStart uEnd = .inside ↔ entry.1 < uStart ∧ uEnd < entry.1 + entry.2.size := by
  rw [GuestVMA.situation, hPlaced.finish_eq hEntry, hPlaced.keyed entry hEntry]
  split_ifs with hCovered hStart hInside hEnd <;> simp <;> omega

/-- Besides the VMAs that are apart from the addresses, one is left as it is that shares its first or
its last address with them. -/
theorem Placed.untouched_iff (hEntry : entry ∈ model.guestVmas) (hLe : uStart ≤ uEnd) :
    entry.2.situation uStart uEnd = .untouched ↔
      (entry.1 + entry.2.size ≤ uStart ∨ uEnd ≤ entry.1) ∨ entry.1 = uStart ∧ uEnd < entry.1 + entry.2.size ∨
      entry.1 < uStart ∧ entry.1 + entry.2.size = uEnd := by
  have hNonempty := hPlaced.nonempty entry hEntry
  rw [GuestVMA.situation, hPlaced.finish_eq hEntry, hPlaced.keyed entry hEntry]
  split_ifs with hCovered hStart hInside hEnd <;> simp <;> omega

theorem Placed.untouched_before {before after : List (Nat × GuestVMA π)}
    (hSplit : model.guestVmas.entries = before ++ entry :: after) {addr size : Nat} (hLe : entry.1 ≤ addr)
    (hRoom : addr + size < space) : ∀ other ∈ before, other.2.situation addr (add addr size) = .untouched := by
  intro other hOther
  have hLt := (SortedMap.lt_of_split hSplit).1 other hOther
  have hIn : other ∈ model.guestVmas := by
    rw [SortedMap.mem_def, hSplit]
    exact List.mem_append_left _ hOther
  have hApart := hPlaced.apart other hIn entry (SortedMap.mem_of_split hSplit) hLt
  rw [add_of_lt hRoom, hPlaced.untouched_iff hIn (by omega)]
  omega

end

end Situations

end Gensim.Memory.RegionBasedMemoryModel
