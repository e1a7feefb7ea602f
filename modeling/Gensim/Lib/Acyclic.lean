import Mathlib.Logic.Relation
import Mathlib.Data.Finset.Card
import Mathlib.Data.Finset.Filter
import Mathlib.Tactic

/-! Acyclic relations on finitely many vertices can be numbered along their
edges. The number of a vertex is how many vertices lead to it. -/
namespace Acyclic

open Relation

variable {α : Type*} {edge : α → α → Prop}

/-- No vertex leads back to itself. -/
def NoCycle (edge : α → α → Prop) : Prop := ∀ a, ¬ TransGen edge a a

theorem noCycle_of_lt {f : α → Nat} (h : ∀ a b, edge a b → f a < f b) : NoCycle edge := by
  intro a hPath
  have hLess : ∀ b c, TransGen edge b c → f b < f c := by
    intro b c hbc
    induction hbc with
    | single hEdge => exact h _ _ hEdge
    | tail _ hEdge ih => exact ih.trans (h _ _ hEdge)
  exact Nat.lt_irrefl _ (hLess a a hPath)

open Classical in
/-- Number of vertices of `vertices` with a path to `a`. -/
noncomputable def rank (edge : α → α → Prop) (vertices : Finset α) (a : α) : Nat :=
  (vertices.filter fun b => TransGen edge b a).card

theorem rank_lt_card (hAcyclic : NoCycle edge) {vertices : Finset α} {a : α} (hMem : a ∈ vertices) :
    rank edge vertices a < vertices.card := by
  classical
  apply Finset.card_lt_card
  rw [Finset.ssubset_iff_of_subset (Finset.filter_subset _ _)]
  exact ⟨a, hMem, fun hSelf => hAcyclic a (Finset.mem_filter.mp hSelf).2⟩

/-- Every edge goes to a vertex of higher rank. -/
theorem rank_lt (hAcyclic : NoCycle edge) {vertices : Finset α} {a b : α} (hEdge : edge a b)
    (hMem : a ∈ vertices) : rank edge vertices a < rank edge vertices b := by
  classical
  apply Finset.card_lt_card
  rw [Finset.ssubset_iff_of_subset]
  · refine ⟨a, ?_, ?_⟩
    · exact Finset.mem_filter.mpr ⟨hMem, TransGen.single hEdge⟩
    · exact fun hSelf => hAcyclic a (Finset.mem_filter.mp hSelf).2
  · intro c hc
    obtain ⟨hVertex, hPath⟩ := Finset.mem_filter.mp hc
    exact Finset.mem_filter.mpr ⟨hVertex, hPath.tail hEdge⟩

end Acyclic
