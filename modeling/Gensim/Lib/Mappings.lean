import Mathlib.Tactic

/-! Pieces of memory of one size that are mapped apart from each other, each with a record that is known by where
the piece starts. -/
namespace Mappings

/-- Two pieces do not overlap. -/
def Apart (size s t : Nat) : Prop := s + size ≤ t ∨ t + size ≤ s

instance {size : Nat} : Std.Symm (Apart size) where
  symm _ _ := Or.symm

theorem Apart.ne {size s t : Nat} (hApart : Apart size s t) (hSize : 0 < size) : s ≠ t := by
  simp only [Apart] at hApart
  omega

variable {α : Type*} {start : α → Nat} {s : Nat} {change : α → α} {records : List α}

/-- The record of one piece changes. -/
def modify (start : α → Nat) (s : Nat) (change : α → α) (records : List α) : List α :=
  records.map fun x => if start x = s then change x else x

theorem map_start_modify (hStart : ∀ x, start x = s → start (change x) = s) :
    (modify start s change records).map start = records.map start := by
  rw [modify, List.map_map]
  refine List.map_congr_left fun x _ => ?_
  simp only [Function.comp_apply]
  split
  case isTrue hThis => exact (hStart x hThis).trans hThis.symm
  case isFalse => rfl

theorem mem_modify {y : α} (hMem : y ∈ modify start s change records) :
    (∃ x ∈ records, start x = s ∧ y = change x) ∨ y ∈ records ∧ start y ≠ s := by
  obtain ⟨x, hX, rfl⟩ := List.mem_map.mp hMem
  split
  case isTrue hThis => exact .inl ⟨x, hX, hThis, rfl⟩
  case isFalse hOther => exact .inr ⟨hX, hOther⟩

theorem change_mem_modify {x : α} (hMem : x ∈ records) (hThis : start x = s) : change x ∈ modify start s change records :=
  List.mem_map.mpr ⟨x, hMem, if_pos hThis⟩

theorem mem_modify_of_ne {x : α} (hMem : x ∈ records) (hOther : start x ≠ s) : x ∈ modify start s change records :=
  List.mem_map.mpr ⟨x, hMem, if_neg hOther⟩

section Unique

variable {size : Nat} (hSize : 0 < size) (hApart : (records.map start).Pairwise (Apart size)) {x y : α}
include hSize hApart

theorem eq_of_start_eq (hX : x ∈ records) (hY : y ∈ records) (hSame : start x = start y) : x = y :=
  List.inj_on_of_nodup_map (hApart.imp fun hPair => hPair.ne hSize) hX hY hSame

theorem find?_start_eq (hX : x ∈ records) : records.find? (fun y => start y = start x) = some x := by
  cases hFind : records.find? fun y => start y = start x with
  | none => simpa using List.find?_eq_none.mp hFind x hX
  | some y =>
    have hSame : start y = start x := by simpa using List.find?_some hFind
    rw [eq_of_start_eq hSize hApart (List.mem_of_find?_eq_some hFind) hX hSame]

end Unique

end Mappings
