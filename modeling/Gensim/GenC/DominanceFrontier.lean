import Gensim.GenC.Dominance

/-! `DominanceFrontierAnalysis`: where the dominance of a block ends. -/
namespace Gensim.GenC.DominanceFrontier

open Dominance SSADominance

variable {β : Type} [DecidableEq β] (g : ControlFlowGraph β)

def strictlyDominates (dominance : β → Finset β) (x y : β) : Bool :=
  if x = y then false else x ∈ dominance y

/-- The set of `y` is looked at once for each predecessor, not the predecessor's. -/
def dominatesAPredecessor (dominance : β → Finset β) (x y : β) : Bool :=
  (g.predecessors y).any fun _ => x ∈ dominance y

def getDominanceFrontier (fuel : Nat) (n : β) : Option (Finset β) :=
  (calculate g fuel).map fun dominance =>
    (g.blocks.filter fun x =>
      !strictlyDominates dominance n x && dominatesAPredecessor g dominance n x).toFinset

/-- The block `x` dominates a predecessor of `y`, but not `y` strictly. -/
def InFrontier (x y : β) : Prop :=
  (∃ p, g.Edge p y ∧ Dominates g.Edge g.entry x p) ∧ ¬ (x ≠ y ∧ Dominates g.Edge g.entry x y)

variable {g}

/-- The analysis can only report the block itself. -/
theorem mem_frontier {dominance : β → Finset β} (h : Invariant g dominance) {x y : β} (hBlock : x ∈ g.blocks) :
    (y ∈ g.blocks ∧ !strictlyDominates dominance x y && dominatesAPredecessor g dominance x y) ↔
      y = x ∧ ∃ p, g.Edge p x := by
  simp only [dominatesAPredecessor, strictlyDominates, Bool.and_eq_true, List.any_eq_true, g.mem_predecessors,
    decide_eq_true_eq]
  constructor
  · rintro ⟨-, hStrict, p, hEdge, hMem⟩
    by_cases hSame : x = y
    · exact ⟨hSame.symm, p, hSame ▸ hEdge⟩
    · simp [hSame, hMem] at hStrict
  · rintro ⟨rfl, p, hEdge⟩
    exact ⟨hBlock, by simp, p, hEdge, h.self y hBlock⟩

variable (g)

/-- A block with predecessors dominates one of them, and the blocks behind those it dominates it
dominates as well. -/
def EndsInItself (x : β) : Prop :=
  (∀ p, g.Edge p x → ∃ q, g.Edge q x ∧ Dominates g.Edge g.entry x q) ∧
    ∀ p y, g.Edge p y → Dominates g.Edge g.entry x p → y ≠ x → Dominates g.Edge g.entry x y

variable {g}

omit [DecidableEq β] in
theorem inFrontier_iff_self {x : β} : (∀ y, y = x ∧ (∃ p, g.Edge p x) ↔ InFrontier g x y) ↔ EndsInItself g x := by
  constructor
  · intro h
    refine ⟨fun p hEdge => ((h x).mp ⟨rfl, p, hEdge⟩).1, fun p y hEdge hDom hNe => ?_⟩
    by_contra hNot
    exact hNe ((h y).mpr ⟨⟨p, hEdge, hDom⟩, fun hStrict => hNot hStrict.2⟩).1
  · rintro ⟨hSelf, hOthers⟩ y
    constructor
    · rintro ⟨rfl, p, hEdge⟩
      exact ⟨hSelf p hEdge, fun hStrict => hStrict.1 rfl⟩
    · rintro ⟨⟨p, hEdge, hDom⟩, hStrict⟩
      have hSame : y = x := by
        by_contra hNe
        exact hStrict ⟨fun hEq => hNe hEq.symm, hOthers p y hEdge hDom hNe⟩
      exact ⟨hSame, p, hSame ▸ hEdge⟩

/-- The analysis ends on every graph, and finds the frontier of the blocks that can only have
themselves in it. -/
theorem frontier_exact_iff (g : ControlFlowGraph β) :
    ∃ frontier : β → Finset β,
      (∀ fuel, g.blocks.length ^ 2 < fuel → ∀ x, getDominanceFrontier g fuel x = some (frontier x)) ∧
        ∀ x ∈ g.blocks, (∀ y, y ∈ frontier x ↔ InFrontier g x y) ↔ EndsInItself g x := by
  obtain ⟨dominance, hLoop, hInv, -⟩ := loop_spec (@invariant_initial β _ g)
  refine ⟨fun x => (g.blocks.filter fun y =>
    !strictlyDominates dominance x y && dominatesAPredecessor g dominance x y).toFinset, ?_, ?_⟩
  · intro fuel hFuel x
    rw [getDominanceFrontier, calculate, hLoop fuel (size_initial.trans_lt hFuel)]
    rfl
  · intro x hBlock
    rw [← inFrontier_iff_self]
    refine forall_congr' fun y => iff_congr ?_ Iff.rfl
    rw [List.mem_toFinset, List.mem_filter, mem_frontier hInv hBlock]

/-- The arm of a branch has the join in its frontier, but only the arm is reported. -/
theorem join_not_in_frontier :
    (getDominanceFrontier diamond 17 1).map (fun frontier => decide (3 ∈ frontier)) = some false ∧
      InFrontier diamond 1 3 := by
  refine ⟨by decide, ⟨1, ?_, dominates_self 1⟩, fun hStrict => arm_not_dominating hStrict.2⟩
  simp [ControlFlowGraph.Edge, diamond]

end Gensim.GenC.DominanceFrontier
