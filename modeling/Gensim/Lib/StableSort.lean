import Mathlib.Data.List.Sort
import Mathlib.Tactic

/-! Stable sorting by a numeric key, said through the key classes: the result is
ordered and every class keeps its elements in their order. Pieces that were
sorted separately are put together with the rules below. -/
namespace StableSort

variable {α : Type*} {key : α → Nat}

/-- Two lists with the same elements in the same order in every key class. -/
def SameClasses (key : α → Nat) (l l' : List α) : Prop :=
  ∀ k, l.filter (fun x => key x = k) = l'.filter fun x => key x = k

theorem SameClasses.refl (l : List α) : SameClasses key l l := fun _ => rfl

theorem SameClasses.trans {l l' l'' : List α} (h : SameClasses key l l')
    (h' : SameClasses key l' l'') : SameClasses key l l'' :=
  fun k => (h k).trans (h' k)

theorem SameClasses.append {a a' b b' : List α} (ha : SameClasses key a a')
    (hb : SameClasses key b b') : SameClasses key (a ++ b) (a' ++ b') := by
  intro k
  rw [List.filter_append, List.filter_append, ha k, hb k]

theorem SameClasses.mem_iff {l l' : List α} (h : SameClasses key l l') {x : α} : x ∈ l ↔ x ∈ l' := by
  have hClass : ∀ m : List α, x ∈ m ↔ x ∈ m.filter fun y => key y = key x := by
    intro m
    simp
  rw [hClass l, hClass l', h]

theorem SameClasses.perm {l l' : List α} (h : SameClasses key l l') : l.Perm l' := by
  classical
  rw [List.perm_iff_count]
  intro x
  have hClass : ∀ m : List α, m.count x = (m.filter fun y => key y = key x).count x := by
    intro m
    rw [List.count_filter (by simp)]
  rw [hClass l, hClass l', h]

/-- Neighbouring pieces without a common key can change places. -/
theorem sameClasses_swap {a b : List α} (h : ∀ x ∈ a, ∀ y ∈ b, key x ≠ key y) : SameClasses key (a ++ b) (b ++ a) := by
  intro k
  rw [List.filter_append, List.filter_append]
  by_cases hEmpty : a.filter (fun x => key x = k) = []
  · rw [hEmpty, List.nil_append, List.append_nil]
  · obtain ⟨x, hx⟩ := List.exists_mem_of_ne_nil _ hEmpty
    rw [List.mem_filter, decide_eq_true_eq] at hx
    have hOther : b.filter (fun y => key y = k) = [] := by
      rw [List.filter_eq_nil_iff]
      intro y hy hKey
      exact h x hx.1 y hy (hx.2.trans (of_decide_eq_true hKey).symm)
    rw [hOther, List.nil_append, List.append_nil]

def Sorted (key : α → Nat) (l : List α) : Prop := l.Pairwise fun x y => key x ≤ key y

/-- `c` is the stable sorting of `l`. -/
structure StableSorted (key : α → Nat) (c l : List α) : Prop where
  sorted : Sorted key c
  classes : SameClasses key c l

theorem StableSorted.refl {l : List α} (h : Sorted key l) : StableSorted key l l := ⟨h, .refl l⟩

theorem StableSorted.of_sameClasses {c l l' : List α} (h : StableSorted key c l)
    (hClasses : SameClasses key l l') : StableSorted key c l' :=
  ⟨h.sorted, h.classes.trans hClasses⟩

theorem StableSorted.append {c c' l l' : List α} (h : StableSorted key c l)
    (h' : StableSorted key c' l') (hLe : ∀ x ∈ l, ∀ y ∈ l', key x ≤ key y) : StableSorted key (c ++ c') (l ++ l') := by
  refine ⟨List.pairwise_append.mpr ⟨h.sorted, h'.sorted, ?_⟩, h.classes.append h'.classes⟩
  intro x hx y hy
  exact hLe x (h.classes.mem_iff.mp hx) y (h'.classes.mem_iff.mp hy)

/-- The merge rule: two sorted runs, each cut in two, such that nothing before
the cuts is above `bound` and nothing after them below, and the inner pieces
have no common key. -/
theorem StableSorted.of_cuts {a₁ a₂ b₁ b₂ c₁ c₂ : List α} {bound : Nat}
    (h₁ : StableSorted key c₁ (a₁ ++ b₁)) (h₂ : StableSorted key c₂ (a₂ ++ b₂))
    (hBelow : ∀ x ∈ a₁ ++ b₁, key x ≤ bound) (hAbove : ∀ x ∈ a₂ ++ b₂, bound ≤ key x)
    (hApart : ∀ x ∈ b₁, ∀ y ∈ a₂, key x ≠ key y) : StableSorted key (c₁ ++ c₂) ((a₁ ++ a₂) ++ (b₁ ++ b₂)) := by
  have hJoined := h₁.append h₂ fun x hx y hy => (hBelow x hx).trans (hAbove y hy)
  refine hJoined.of_sameClasses ?_
  have hMiddle := ((SameClasses.refl a₁).append (sameClasses_swap hApart)).append (SameClasses.refl b₂)
  simpa only [List.append_assoc] using hMiddle

theorem filter_le_eq {l : List α} (h : Sorted key l) (p : α → Bool) (m : Nat) : l.filter (fun x => p x && key x ≤ m) =
      l.filter (fun x => p x && key x < m) ++ l.filter fun x => p x && key x = m := by
  induction l with
  | nil => rfl
  | cons x rest ih =>
    obtain ⟨hLe, hRest⟩ := List.pairwise_cons.mp h
    have hSplit := ih hRest
    rcases Nat.lt_trichotomy (key x) m with hLt | hEq | hGt
    · cases hp : p x <;> simp [hp, hLt, hLt.ne, hLt.le, hSplit]
    · have hNone : rest.filter (fun y => p y && key y < m) = [] := by
        rw [List.filter_eq_nil_iff]
        intro y hy
        have hAbove := hLe y hy
        simp only [Bool.and_eq_true, decide_eq_true_eq, not_and]
        omega
      rw [hNone, List.nil_append] at hSplit
      cases hp : p x <;> simp [hp, hEq, hSplit, hNone]
    · simp [hGt.not_ge, hGt.not_gt, hGt.ne', hSplit]

/-- In a sorted list the classes follow each other. -/
theorem filter_eq_flatMap {l : List α} (h : Sorted key l) (p : α → Bool) {n : Nat}
    (hBound : ∀ x ∈ l, p x = true → key x < n) :
    l.filter p = (List.range n).flatMap fun k => l.filter fun x => p x && key x = k := by
  have hPrefix : ∀ m, l.filter (fun x => p x && key x < m) =
      (List.range m).flatMap fun k => l.filter fun x => p x && key x = k := by
    intro m
    induction m with
    | zero => simp
    | succ m ih =>
      rw [List.range_succ, List.flatMap_append, List.flatMap_singleton, ← ih, ← filter_le_eq h]
      simp only [Nat.lt_succ_iff]
  rw [← hPrefix n]
  apply List.filter_congr
  intro x hx
  cases hp : p x with
  | false => rfl
  | true => simp [hBound x hx hp]

end StableSort
