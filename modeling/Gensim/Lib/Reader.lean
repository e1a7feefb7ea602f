import Gensim.Lib.Operations

/-! Readers that hand out the elements of a sequence one after the other, with a look at the next one. -/

/-- A call has no result where the reader reads out of bounds. -/
structure Reader (σ α : Type*) where
  good : σ → Bool
  peek : σ → Option (α × σ)
  get : σ → Option (α × σ)

namespace Reader

open Operations

variable {σ α : Type*} (reader : Reader σ α)

inductive Call where
  | peek | get
  deriving DecidableEq

/-- How many elements have been taken after one more call. -/
def Call.next (taken : Nat) : Call → Nat
  | .peek => taken
  | .get => taken + 1

def call : Call → σ → Option (α × σ)
  | .peek => reader.peek
  | .get => reader.get

/-- The reader is good as long as there are elements left after those that were taken, and while it is,
each call returns the next one. -/
def Delivers (elements : List α) : Nat → σ → List Call → Prop
  | taken, s, [] => reader.good s = true ↔ taken < elements.length
  | taken, s, c :: calls => (reader.good s = true ↔ taken < elements.length) ∧
      ∀ x, elements[taken]? = some x →
        ∃ t, reader.call c s = some (x, t) ∧ Delivers elements (c.next taken) t calls

/-- The call takes the last element. -/
def TakesLast (length taken : Nat) (c : Call) : Prop := c = .get ∧ taken + 1 = length

variable {reader} {elements : List α}

theorem Delivers.good_iff {taken : Nat} {s : σ} {calls : List Call}
    (hDelivers : reader.Delivers elements taken s calls) : reader.good s = true ↔ taken < elements.length := by
  cases calls with
  | nil => exact hDelivers
  | cons c calls => exact hDelivers.1

/-- With no elements left only the end has to be seen. -/
theorem delivers_of_taken {taken : Nat} {s : σ} (hTaken : elements.length ≤ taken)
    (hGood : reader.good s = false) (calls : List Call) : reader.Delivers elements taken s calls := by
  have hEnd : reader.good s = true ↔ taken < elements.length := by
    rw [hGood]
    exact iff_of_false (by decide) (by omega)
  cases calls with
  | nil => exact hEnd
  | cons c calls =>
    refine ⟨hEnd, fun x hNext => ?_⟩
    rw [List.getElem?_eq_none hTaken] at hNext
    cases hNext

theorem next_le {length taken : Nat} (hLt : taken < length) (c : Call) :
    c.next taken < length ∨ TakesLast length taken c := by
  cases c with
  | peek => exact .inl hLt
  | get =>
    rcases Nat.lt_or_eq_of_le (Nat.succ_le_of_lt hLt) with hMore | hLast
    · exact .inl hMore
    · exact .inr ⟨rfl, hLast⟩

theorem not_takesLast {length taken : Nat} {c : Call} (hLt : c.next taken < length) : ¬ TakesLast length taken c := by
  rintro ⟨rfl, hLast⟩
  change taken + 1 < length at hLt
  omega

theorem throughout_of_taken {length taken : Nat} {P : Nat → Call → Prop} (hTaken : length ≤ taken)
    (calls : List Call) : Throughout Call.next (fun taken c => taken < length → P taken c) taken calls := by
  induction calls generalizing taken with
  | nil => trivial
  | cons c calls ih =>
    refine ⟨fun hLt => absurd hTaken (by omega), ih ?_⟩
    cases c with
    | peek => exact hTaken
    | get => exact hTaken.trans (Nat.le_succ taken)

/-- A reader that returns the right elements delivers them exactly if it stays good with each call but the
one that takes the last of them. -/
theorem delivers_iff (holds : Nat → σ → Prop) (stays : Nat → Call → Prop)
    (hGood : ∀ taken s, holds taken s → reader.good s = true)
    (hCall : ∀ taken s x c, holds taken s → elements[taken]? = some x →
      ∃ t, reader.call c s = some (x, t) ∧ (stays taken c → holds (c.next taken) t) ∧
        (¬ stays taken c → reader.good t = false))
    {s : σ} {taken : Nat} (hStart : holds taken s) (hLt : taken < elements.length) (calls : List Call) :
    reader.Delivers elements taken s calls ↔ Throughout Call.next (fun taken c => taken < elements.length →
        (stays taken c ↔ ¬ TakesLast elements.length taken c)) taken calls := by
  induction calls generalizing s taken with
  | nil => exact iff_of_true (iff_of_true (hGood taken s hStart) hLt) trivial
  | cons c calls ih =>
    have hNext : elements[taken]? = some elements[taken] := List.getElem?_eq_getElem hLt
    obtain ⟨t, hResult, hStays, hStops⟩ := hCall taken s _ c hStart hNext
    have hOne : reader.Delivers elements taken s (c :: calls) ↔ reader.Delivers elements (c.next taken) t calls := by
      refine ⟨fun hDelivers => ?_, fun hDelivers => ?_⟩
      · obtain ⟨t', hSame, hRest⟩ := hDelivers.2 _ hNext
        rw [hResult, Option.some_inj, Prod.mk.injEq] at hSame
        exact hSame.2 ▸ hRest
      · refine ⟨iff_of_true (hGood taken s hStart) hLt, fun x hx => ⟨t, ?_, hDelivers⟩⟩
        rw [hNext, Option.some_inj] at hx
        rw [hResult, hx]
    rw [hOne, throughout_cons]
    by_cases hStay : stays taken c
    · have hHolds := hStays hStay
      rcases next_le hLt c with hMore | hLast
      · rw [ih hHolds hMore]
        exact (and_iff_right fun _ => iff_of_true hStay (not_takesLast hMore)).symm
      · refine iff_of_false (fun hDelivers => ?_) fun hBoth => ((hBoth.1 hLt).mp hStay) hLast
        have hMore := hDelivers.good_iff.mp (hGood _ t hHolds)
        exact not_takesLast hMore hLast
    · have hBad := hStops hStay
      rcases next_le hLt c with hMore | hLast
      · refine iff_of_false (fun hDelivers => ?_) fun hBoth =>
          hStay ((hBoth.1 hLt).mpr (not_takesLast hMore))
        have hTrue := hDelivers.good_iff.mpr hMore
        rw [hBad] at hTrue
        cases hTrue
      · have hTaken : elements.length ≤ c.next taken := by
          obtain ⟨rfl, hEnd⟩ := hLast
          exact hEnd.ge
        refine iff_of_true (delivers_of_taken hTaken hBad calls) ⟨fun _ => ?_, ?_⟩
        · exact iff_of_false hStay fun hNot => hNot hLast
        · exact throughout_of_taken hTaken calls

end Reader
