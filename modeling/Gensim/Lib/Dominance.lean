import Mathlib.Data.List.Basic
import Mathlib.Logic.Relation
import Mathlib.Tactic

/-! Dominance in a directed graph with an entry: `x` dominates `b` when every path
from the entry to `b` visits `x`. -/
namespace Dominance

variable {α : Type*} {edge : α → α → Prop} {entry : α}

/-- The vertices visited on the way from the entry to `b`, last one first. -/
inductive PathTo (edge : α → α → Prop) (entry : α) : List α → α → Prop
  | start : PathTo edge entry [entry] entry
  | step {path : List α} {b c : α} (prior : PathTo edge entry path b) (last : edge b c) :
      PathTo edge entry (c :: path) c

def Reachable (edge : α → α → Prop) (entry b : α) : Prop := ∃ path, PathTo edge entry path b

def Dominates (edge : α → α → Prop) (entry x b : α) : Prop :=
  ∀ path, PathTo edge entry path b → x ∈ path

variable {path : List α}

theorem PathTo.mem {b : α} (h : PathTo edge entry path b) : b ∈ path := by
  cases h with
  | start => exact List.mem_cons_self
  | step => exact List.mem_cons_self

theorem dominates_self (b : α) : Dominates edge entry b b := fun _ h => h.mem

theorem dominates_entry {x : α} : Dominates edge entry x entry ↔ x = entry := by
  constructor
  · intro h
    exact List.mem_singleton.mp (h [entry] .start)
  · rintro rfl
    exact dominates_self x

/-- A visited vertex was reached on the way. -/
theorem PathTo.upTo {b x : α} (h : PathTo edge entry path b) (hMem : x ∈ path) :
    x = b ∨ ∃ shorter, PathTo edge entry shorter x ∧ shorter.length < path.length := by
  induction h with
  | start => exact Or.inl (List.mem_singleton.mp hMem)
  | step prior last ih =>
    rcases List.mem_cons.mp hMem with hHere | hBefore
    · exact Or.inl hHere
    · right
      rcases ih hBefore with rfl | ⟨shorter, hShorter, hLength⟩
      · exact ⟨_, prior, by simp⟩
      · exact ⟨shorter, hShorter, by simp only [List.length_cons]; omega⟩

theorem Dominates.reachable {x b : α} (h : Dominates edge entry x b)
    (hReach : Reachable edge entry b) : Reachable edge entry x := by
  obtain ⟨path, hPath⟩ := hReach
  rcases hPath.upTo (h path hPath) with rfl | ⟨shorter, hShorter, -⟩
  · exact ⟨path, hPath⟩
  · exact ⟨shorter, hShorter⟩

theorem Dominates.of_edge {x b c : α} (h : Dominates edge entry x c) (hNe : x ≠ c)
    (hEdge : edge b c) : Dominates edge entry x b := by
  intro path hPath
  exact (List.mem_cons.mp (h _ (.step hPath hEdge))).resolve_left hNe

theorem Dominates.antisymm {x b : α} (h : Dominates edge entry x b)
    (h' : Dominates edge entry b x) (hReach : Reachable edge entry b) : x = b := by
  obtain ⟨path, hPath⟩ := hReach
  induction hSize : path.length using Nat.strong_induction_on generalizing path with
  | _ size ih =>
    rcases hPath.upTo (h path hPath) with hSame | ⟨middle, hMiddle, hShorter⟩
    · exact hSame
    · rcases hMiddle.upTo (h' middle hMiddle) with hSame | ⟨shortest, hShortest, hLength⟩
      · exact hSame.symm
      · exact ih shortest.length (by omega) shortest hShortest rfl

/-- Two predecessors that dominate a vertex are the same. -/
theorem eq_of_dominating_preds {p q b : α} (hp : edge p b) (hq : edge q b) (hpb : p ≠ b)
    (hqb : q ≠ b) (hReach : Reachable edge entry b) (hDomP : Dominates edge entry p b)
    (hDomQ : Dominates edge entry q b) : p = q :=
  (hDomP.of_edge hpb hq).antisymm (hDomQ.of_edge hqb hp) (hDomQ.reachable hReach)

/-- With one predecessor, whatever dominates it dominates the vertex. -/
theorem dominates_of_only_pred {x p b : α} (hEntry : b ≠ entry)
    (hOnly : ∀ q, edge q b → q = b ∨ q = p) (h : Dominates edge entry x p) : Dominates edge entry x b := by
  intro path hPath
  generalize hEnd : b = c at hPath
  induction hPath with
  | start => exact absurd hEnd hEntry
  | step prior last ih =>
    subst hEnd
    rcases hOnly _ last with rfl | rfl
    · exact List.mem_cons_of_mem _ (ih rfl)
    · exact List.mem_cons_of_mem _ (h _ prior)

/-- A reachable vertex is the entry or has a predecessor that is reached first. -/
theorem PathTo.exists_pred {b : α} (h : PathTo edge entry path b) (hEntry : b ≠ entry) :
    ∃ p shorter, edge p b ∧ p ≠ b ∧ PathTo edge entry shorter p ∧ shorter.length < path.length := by
  generalize hEnd : b = c at h
  induction h with
  | start => exact absurd hEnd hEntry
  | @step path p c prior last ih =>
    subst hEnd
    by_cases hSelf : p = b
    · obtain ⟨q, shorter, hEdge, hNe, hShorter, hLength⟩ := ih hSelf.symm
      refine ⟨q, shorter, hSelf ▸ hEdge, hSelf ▸ hNe, hShorter, ?_⟩
      simp only [List.length_cons]
      omega
    · exact ⟨p, path, last, hSelf, prior, by simp⟩

end Dominance
