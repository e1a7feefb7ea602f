import Gensim.Lib.Acyclic
import Gensim.Lib.Dominance
import Mathlib.Data.Finset.Card
import Mathlib.Algebra.BigOperators.Group.Finset.Basic

/-! `SSADominance`: dominators of the blocks of an action, as the largest solution
of the equations the loop iterates. Over several predecessors the loop collects
the union of the intersections with the old set, not the intersection of all. -/
namespace Gensim.GenC

open Dominance

/-- The blocks of an action and where their control flow statements lead. -/
structure ControlFlowGraph (β : Type) where
  blocks : List β
  entry : β
  successors : β → List β
  entry_mem : entry ∈ blocks
  successors_mem : ∀ b ∈ blocks, ∀ c ∈ successors b, c ∈ blocks

namespace ControlFlowGraph
variable {β : Type} [DecidableEq β] (g : ControlFlowGraph β)

/-- Blocks are pushed once for each of their targets, in the order of the blocks. -/
def predecessors (b : β) : List β :=
  g.blocks.flatMap fun p => List.replicate ((g.successors p).count b) p

def Edge (p b : β) : Prop := p ∈ g.blocks ∧ b ∈ g.successors p

theorem mem_predecessors {p b : β} : p ∈ g.predecessors b ↔ g.Edge p b := by
  simp only [predecessors, List.mem_flatMap, List.mem_replicate, Edge]
  constructor
  · rintro ⟨q, hMem, hCount, rfl⟩
    exact ⟨hMem, List.count_pos_iff.mp (Nat.pos_of_ne_zero hCount)⟩
  · rintro ⟨hMem, hTarget⟩
    exact ⟨p, hMem, (List.count_pos_iff.mpr hTarget).ne', rfl⟩

omit [DecidableEq β] in
theorem mem_of_reachable {b : β} (h : Reachable g.Edge g.entry b) : b ∈ g.blocks := by
  obtain ⟨path, hPath⟩ := h
  cases hPath with
  | start => exact g.entry_mem
  | step _ last => exact g.successors_mem _ last.1 _ last.2

end ControlFlowGraph

namespace SSADominance
variable {β : Type} [DecidableEq β] (g : ControlFlowGraph β)

/-! ### The analysis -/

def initial : β → Finset β := fun b => if b = g.entry then {g.entry} else g.blocks.toFinset

/-- What the inserter collects over the predecessors. -/
def collect (dominance : β → Finset β) (oldDom : Finset β) (preds : List β) : Finset β :=
  preds.foldl (fun newDom pred => newDom ∪ (oldDom ∩ dominance pred)) ∅

def newDominators (dominance : β → Finset β) (b : β) : Finset β :=
  insert b (collect dominance (dominance b) (g.predecessors b))

def visit (state : (β → Finset β) × Bool) (b : β) : (β → Finset β) × Bool :=
  if b = g.entry then state
  else
    let newDom := newDominators g state.1 b
    if newDom ≠ state.1 b then (Function.update state.1 b newDom, true) else state

def round (dominance : β → Finset β) : (β → Finset β) × Bool :=
  g.blocks.foldl (visit g) (dominance, false)

def loop : Nat → (β → Finset β) → Option (β → Finset β)
  | 0, _ => none
  | fuel + 1, dominance =>
      let next := round g dominance
      if next.2 then loop fuel next.1 else some next.1

def calculate (fuel : Nat) : Option (β → Finset β) := loop g fuel (initial g)

/-! ### The equations -/

variable {dominance : β → Finset β}

theorem mem_collect {oldDom : Finset β} {preds : List β} {x : β} :
    x ∈ collect dominance oldDom preds ↔ x ∈ oldDom ∧ ∃ p ∈ preds, x ∈ dominance p := by
  have hFold : ∀ (acc : Finset β), x ∈ preds.foldl (fun newDom pred => newDom ∪ (oldDom ∩ dominance pred)) acc ↔
        x ∈ acc ∨ x ∈ oldDom ∧ ∃ p ∈ preds, x ∈ dominance p := by
    induction preds with
    | nil => simp
    | cons p preds ih =>
      intro acc
      rw [List.foldl_cons, ih]
      simp only [Finset.mem_union, Finset.mem_inter, List.mem_cons, exists_eq_or_imp]
      tauto
  simpa [collect] using hFold ∅

theorem mem_newDominators {b x : β} : x ∈ newDominators g dominance b ↔
      x = b ∨ x ∈ dominance b ∧ ∃ p, g.Edge p b ∧ x ∈ dominance p := by
  simp [newDominators, mem_collect, g.mem_predecessors]

/-- A family of sets that every round keeps below the computed one. -/
structure Supported (family : β → Finset β) : Prop where
  blocks : ∀ b ∈ g.blocks, family b ⊆ g.blocks.toFinset
  entry : family g.entry ⊆ {g.entry}
  grounded : ∀ b ∈ g.blocks, b ≠ g.entry → ∀ x ∈ family b,
    x = b ∨ ∃ p, g.Edge p b ∧ x ∈ family p

/-- What holds of the sets throughout the loop. -/
structure Invariant (dominance : β → Finset β) : Prop where
  entry : dominance g.entry = {g.entry}
  blocks : ∀ b ∈ g.blocks, dominance b ⊆ g.blocks.toFinset
  self : ∀ b ∈ g.blocks, b ∈ dominance b
  above : ∀ family, Supported g family → ∀ b ∈ g.blocks, family b ⊆ dominance b

def Solves (dominance : β → Finset β) (b : β) : Prop :=
  b ≠ g.entry → newDominators g dominance b = dominance b

section Loop
variable {g}

theorem invariant_initial : Invariant g (initial g) where
  entry := by simp [initial]
  blocks b _ := by
    unfold initial
    split
    · simpa using g.entry_mem
    · exact Finset.Subset.refl _
  self b hMem := by
    unfold initial
    split
    · rename_i hEntry
      simp [hEntry]
    · simpa using hMem
  above family h b hMem := by
    unfold initial
    split
    · rename_i hEntry
      exact hEntry ▸ h.entry
    · exact h.blocks b hMem

variable {dominance : β → Finset β}

theorem newDominators_subset (h : Invariant g dominance) {b : β} (hMem : b ∈ g.blocks) :
    newDominators g dominance b ⊆ dominance b := by
  intro x hx
  rcases (mem_newDominators g).mp hx with rfl | ⟨hOld, -⟩
  · exact h.self x hMem
  · exact hOld

/-- One update keeps the invariant. -/
theorem invariant_update (h : Invariant g dominance) {b : β} (hMem : b ∈ g.blocks) (hEntry : b ≠ g.entry) :
    Invariant g (Function.update dominance b (newDominators g dominance b)) := by
  have hSame : ∀ c, c ≠ b → Function.update dominance b (newDominators g dominance b) c = dominance c :=
    fun c hc => Function.update_of_ne hc _ _
  refine ⟨?_, fun c hc => ?_, fun c hc => ?_, fun family hFamily c hc => ?_⟩
  · rw [hSame _ hEntry.symm]
    exact h.entry
  all_goals
    by_cases hHere : c = b
    swap
    · rw [hSame c hHere]
      first
        | exact h.blocks c hc
        | exact h.self c hc
        | exact h.above family hFamily c hc
    subst hHere
    rw [Function.update_self]
  · exact (newDominators_subset h hc).trans (h.blocks c hc)
  · exact Finset.mem_insert_self _ _
  · intro x hx
    rw [mem_newDominators]
    rcases hFamily.grounded c hc hEntry x hx with hSelf | ⟨p, hEdge, hPred⟩
    · exact Or.inl hSelf
    · exact Or.inr ⟨h.above family hFamily c hc hx, p, hEdge, h.above family hFamily p hEdge.1 hPred⟩

/-- Room left for the sets to shrink. -/
def size (g : ControlFlowGraph β) (dominance : β → Finset β) : Nat :=
  ∑ b ∈ g.blocks.toFinset, (dominance b).card

theorem size_update (h : Invariant g dominance) {b : β} (hMem : b ∈ g.blocks)
    (hNew : newDominators g dominance b ≠ dominance b) :
    size g (Function.update dominance b (newDominators g dominance b)) < size g dominance := by
  refine Finset.sum_lt_sum (fun c _ => ?_) ⟨b, List.mem_toFinset.mpr hMem, ?_⟩
  · by_cases hc : c = b
    · subst hc
      rw [Function.update_self]
      exact Finset.card_le_card (newDominators_subset h hMem)
    · rw [Function.update_of_ne hc]
  · rw [Function.update_self]
    exact Finset.card_lt_card ((newDominators_subset h hMem).ssubset_of_ne hNew)

/-- A round keeps the invariant. It reports a change exactly if a set shrank, and
otherwise the sets solve the equations. -/
theorem visits_spec (blocks : List β) (hBlocks : ∀ b ∈ blocks, b ∈ g.blocks) (flag : Bool)
    (h : Invariant g dominance) : Invariant g (blocks.foldl (visit g) (dominance, flag)).1 ∧
      (size g (blocks.foldl (visit g) (dominance, flag)).1 < size g dominance ∧
          (blocks.foldl (visit g) (dominance, flag)).2 = true ∨
        blocks.foldl (visit g) (dominance, flag) = (dominance, flag) ∧ ∀ b ∈ blocks, Solves g dominance b) := by
  induction blocks generalizing dominance flag with
  | nil => exact ⟨h, Or.inr ⟨rfl, by simp⟩⟩
  | cons b blocks ih =>
    have hMem := hBlocks b List.mem_cons_self
    have hRest : ∀ c ∈ blocks, c ∈ g.blocks := fun c hc => hBlocks c (List.mem_cons_of_mem _ hc)
    rw [List.foldl_cons]
    by_cases hStay : Solves g dominance b
    · have hVisit : visit g (dominance, flag) b = (dominance, flag) := by
        unfold visit
        by_cases hEntry : b = g.entry
        · rw [if_pos hEntry]
        · rw [if_neg hEntry]
          simp [hStay hEntry]
      rw [hVisit]
      obtain ⟨hInv, hCases⟩ := ih hRest flag h
      refine ⟨hInv, hCases.imp_right fun hSame => ⟨hSame.1, ?_⟩⟩
      intro c hc
      rcases List.mem_cons.mp hc with rfl | hc
      · exact hStay
      · exact hSame.2 c hc
    · obtain ⟨hEntry, hNew⟩ := Classical.not_imp.mp hStay
      have hVisit : visit g (dominance, flag) b =
          (Function.update dominance b (newDominators g dominance b), true) := by
        unfold visit
        rw [if_neg hEntry]
        simp [hNew]
      rw [hVisit]
      have hLess := size_update h hMem hNew
      obtain ⟨hInv, hCases⟩ := ih hRest true (invariant_update h hMem hEntry)
      refine ⟨hInv, Or.inl ?_⟩
      rcases hCases with ⟨hShrunk, hFlag⟩ | ⟨hSame, -⟩
      · exact ⟨hShrunk.trans hLess, hFlag⟩
      · rw [hSame]
        exact ⟨hLess, rfl⟩

/-- The loop ends, with the same sets however many more rounds are allowed. -/
theorem loop_spec (h : Invariant g dominance) :
    ∃ final, (∀ fuel, size g dominance < fuel → loop g fuel dominance = some final) ∧
      Invariant g final ∧ ∀ b ∈ g.blocks, Solves g final b := by
  induction hSize : size g dominance using Nat.strong_induction_on generalizing dominance with
  | _ n ih =>
    obtain ⟨hInv, hCases⟩ := visits_spec g.blocks (fun _ hb => hb) false h
    rcases hCases with ⟨hShrunk, hFlag⟩ | ⟨hSame, hSolves⟩
    · obtain ⟨final, hLoop, hFinal⟩ := ih _ (hSize ▸ hShrunk) hInv rfl
      refine ⟨final, fun fuel hFuel => ?_, hFinal⟩
      obtain ⟨fuel, rfl⟩ : ∃ k, fuel = k + 1 := ⟨fuel - 1, by omega⟩
      rw [loop]
      simp only [round, hFlag, if_true]
      exact hLoop fuel (by omega)
    · refine ⟨dominance, fun fuel hFuel => ?_, h, hSolves⟩
      obtain ⟨fuel, rfl⟩ : ∃ k, fuel = k + 1 := ⟨fuel - 1, by omega⟩
      rw [loop]
      simp [round, hSame]

theorem size_initial : size g (initial g) ≤ g.blocks.length ^ 2 := by
  have hEach : ∀ b ∈ g.blocks.toFinset, (initial g b).card ≤ g.blocks.length := by
    intro b hMem
    refine le_trans (Finset.card_le_card ?_) g.blocks.toFinset_card_le
    exact invariant_initial.blocks b (List.mem_toFinset.mp hMem)
  calc size g (initial g) ≤ g.blocks.toFinset.card * g.blocks.length := by
        simpa [size] using Finset.sum_le_card_nsmul _ _ _ hEach
    _ ≤ g.blocks.length * g.blocks.length :=
        Nat.mul_le_mul_right _ g.blocks.toFinset_card_le
    _ = g.blocks.length ^ 2 := (Nat.pow_two _).symm

end Loop

/-! ### The computed sets and dominance -/

section Result
variable {g} {dominance : β → Finset β} (h : Invariant g dominance)
include h

/-- No dominator is lost. -/
theorem mem_of_dominates {b x : β} (hReach : Reachable g.Edge g.entry b)
    (hDom : Dominates g.Edge g.entry x b) : x ∈ dominance b := by
  classical
  have hFamily : Supported g fun c => g.blocks.toFinset.filter fun y =>
      Reachable g.Edge g.entry c ∧ Dominates g.Edge g.entry y c := by
    refine ⟨fun c _ => Finset.filter_subset _ _, fun y hy => ?_, fun c hMem hEntry y hy => ?_⟩
    · exact Finset.mem_singleton.mpr (dominates_entry.mp (Finset.mem_filter.mp hy).2.2)
    · obtain ⟨hBlock, ⟨path, hPath⟩, hDominates⟩ := Finset.mem_filter.mp hy
      by_cases hSelf : y = c
      · exact Or.inl hSelf
      · obtain ⟨p, shorter, hEdge, -, hShorter, -⟩ := hPath.exists_pred hEntry
        exact Or.inr ⟨p, hEdge, Finset.mem_filter.mpr ⟨hBlock, ⟨shorter, hShorter⟩, hDominates.of_edge hSelf hEdge⟩⟩
  refine h.above _ hFamily b (g.mem_of_reachable hReach) (Finset.mem_filter.mpr ⟨?_, hReach, hDom⟩)
  exact List.mem_toFinset.mpr (g.mem_of_reachable (hDom.reachable hReach))

/-- Every predecessor enters the set, whether it dominates or not. -/
theorem pred_mem {p b : β} (hEntry : b ≠ g.entry) (hEdge : g.Edge p b) (hNe : p ≠ b) : p ∈ dominance b := by
  have hMem := g.successors_mem p hEdge.1 b hEdge.2
  have hFamily : Supported g fun c => if c = b then {b, p} else {c} := by
    refine ⟨fun c hc => ?_, ?_, fun c hc _ y hy => ?_⟩
    · split
      · intro y hy
        rcases Finset.mem_insert.mp hy with rfl | hy
        · exact List.mem_toFinset.mpr hMem
        · exact List.mem_toFinset.mpr (Finset.mem_singleton.mp hy ▸ hEdge.1)
      · simpa using hc
    · simp [hEntry.symm]
    · split at hy
      · rename_i hHere
        subst hHere
        rcases Finset.mem_insert.mp hy with rfl | hy
        · exact Or.inl rfl
        · exact Or.inr ⟨p, hEdge, by simpa [hNe] using hy⟩
      · exact Or.inl (Finset.mem_singleton.mp hy)
  exact h.above _ hFamily b hMem (by simp)

/-- A block that jumps to itself keeps every block. -/
theorem mem_of_loop {b x : β} (hEntry : b ≠ g.entry) (hEdge : g.Edge b b) (hx : x ∈ g.blocks) : x ∈ dominance b := by
  have hFamily : Supported g fun c => if c = b then g.blocks.toFinset else {c} := by
    refine ⟨fun c hc => ?_, ?_, fun c hc _ y hy => ?_⟩
    · split
      · exact Finset.Subset.refl _
      · simpa using hc
    · simp [hEntry.symm]
    · split at hy
      · rename_i hHere
        subst hHere
        exact Or.inr ⟨c, hEdge, by simpa using hy⟩
      · exact Or.inl (Finset.mem_singleton.mp hy)
  exact h.above _ hFamily b hEdge.1 (by simpa using hx)

end Result

/-! ### What the sets hold -/

section Reported
open Relation

def Forward (p b : β) : Prop := g.Edge p b ∧ b ≠ g.entry

/-- The block can be reached from `x`, or from a loop, without going back to the entry. -/
def Reported (x b : β) : Prop :=
  TransGen (Forward g) x b ∨ ∃ c, TransGen (Forward g) c c ∧ ReflTransGen (Forward g) c b

variable {g}

omit [DecidableEq β] in
theorem not_reported_entry (x : β) : ¬ Reported g x g.entry := by
  have hLast : ∀ y, ¬ TransGen (Forward g) y g.entry := by
    intro y hPath
    obtain ⟨-, -, -, hNe⟩ := TransGen.tail'_iff.mp hPath
    exact hNe rfl
  rintro (hPath | ⟨c, hLoop, hPath⟩)
  · exact hLast x hPath
  · rcases reflTransGen_iff_eq_or_transGen.mp hPath with hEq | hPath
    · exact hLast c (hEq ▸ hLoop)
    · exact hLast c hPath

omit [DecidableEq β] in
theorem Reported.exists_pred {x b : β} (h : Reported g x b) : ∃ p, Forward g p b ∧ (x = p ∨ Reported g x p) := by
  rcases h with hPath | ⟨c, hLoop, hPath⟩
  · obtain ⟨p, hPrior, hEdge⟩ := TransGen.tail'_iff.mp hPath
    refine ⟨p, hEdge, ?_⟩
    rcases reflTransGen_iff_eq_or_transGen.mp hPrior with hEq | hPrior
    · exact Or.inl hEq.symm
    · exact Or.inr (Or.inl hPrior)
  · have hFull : TransGen (Forward g) c b := hLoop.trans_left hPath
    obtain ⟨p, hPrior, hEdge⟩ := TransGen.tail'_iff.mp hFull
    exact ⟨p, hEdge, Or.inr (Or.inr ⟨c, hLoop, hPrior⟩)⟩

variable {dominance : β → Finset β}

theorem mem_of_reported (h : Invariant g dominance) {b x : β} (hb : b ∈ g.blocks)
    (hx : x ∈ g.blocks) (hReported : Reported g x b) : x ∈ dominance b := by
  classical
  have hFamily : Supported g fun c => g.blocks.toFinset.filter fun y =>
      y = c ∨ y = x ∧ Reported g x c := by
    refine ⟨fun c _ => Finset.filter_subset _ _, fun y hy => ?_, fun c _ _ y hy => ?_⟩
    · rcases (Finset.mem_filter.mp hy).2 with hSelf | ⟨-, hEntry⟩
      · exact Finset.mem_singleton.mpr hSelf
      · exact absurd hEntry (not_reported_entry x)
    · rcases (Finset.mem_filter.mp hy).2 with hSelf | ⟨rfl, hHere⟩
      · exact Or.inl hSelf
      · obtain ⟨p, hEdge, hPrior⟩ := hHere.exists_pred
        refine Or.inr ⟨p, hEdge.1, Finset.mem_filter.mpr ⟨List.mem_toFinset.mpr hx, ?_⟩⟩
        exact hPrior.imp_right fun hPred => ⟨rfl, hPred⟩
  exact h.above _ hFamily b hb (Finset.mem_filter.mpr ⟨List.mem_toFinset.mpr hx, Or.inr ⟨rfl, hReported⟩⟩)

theorem reported_of_mem (h : Invariant g dominance) (hSolves : ∀ b ∈ g.blocks, Solves g dominance b)
    {b x : β} (hb : b ∈ g.blocks) (hNe : x ≠ b) (hMem : x ∈ dominance b) : Reported g x b := by
  by_cases hLoop : ∃ c, TransGen (Forward g) c c ∧ ReflTransGen (Forward g) c b
  · exact Or.inr hLoop
  -- Without a loop before `b` its ancestors are ranked, and the set can be followed back to `x`.
  let edge : β → β → Prop := fun p q => Forward g p q ∧ ReflTransGen (Forward g) q b
  have hForget : ∀ c d, TransGen edge c d → TransGen (Forward g) c d :=
    fun c d hPath => hPath.lift id fun _ _ hEdge => hEdge.1
  have hAcyclic : Acyclic.NoCycle edge := by
    intro c hCycle
    obtain ⟨-, -, -, hToB⟩ := TransGen.tail'_iff.mp hCycle
    exact hLoop ⟨c, hForget c c hCycle, hToB⟩
  have hBack : ∀ n c, Acyclic.rank edge g.blocks.toFinset c = n → c ∈ g.blocks →
      ReflTransGen (Forward g) c b → x ∈ dominance c → x = c ∨ TransGen (Forward g) x c := by
    intro n
    induction n using Nat.strong_induction_on with
    | _ n ih =>
      intro c hRank hBlock hPath hIn
      by_cases hEntry : c = g.entry
      · rw [hEntry, h.entry, Finset.mem_singleton] at hIn
        exact Or.inl (hIn.trans hEntry.symm)
      rw [← hSolves c hBlock hEntry] at hIn
      rcases (mem_newDominators g).mp hIn with hSelf | ⟨-, p, hEdge, hPred⟩
      · exact Or.inl hSelf
      · have hForward : Forward g p c := ⟨hEdge, hEntry⟩
        have hLess := Acyclic.rank_lt hAcyclic (show edge p c from ⟨hForward, hPath⟩) (List.mem_toFinset.mpr hEdge.1)
        rcases ih _ (hRank ▸ hLess) p rfl hEdge.1 (hPath.head hForward) hPred with rfl | hPrior
        · exact Or.inr (TransGen.single hForward)
        · exact Or.inr (hPrior.tail hForward)
  exact Or.inl ((hBack _ b rfl hb .refl hMem).resolve_left hNe)

/-- The loop ends with the sets of the blocks that are reported. -/
theorem calculate_spec (g : ControlFlowGraph β) :
    ∃ dominance, (∀ fuel, g.blocks.length ^ 2 < fuel → calculate g fuel = some dominance) ∧
      ∀ b ∈ g.blocks, ∀ x ∈ g.blocks, x ≠ b → (x ∈ dominance b ↔ Reported g x b) := by
  obtain ⟨dominance, hLoop, hInv, hSolves⟩ := loop_spec (@invariant_initial β _ g)
  refine ⟨dominance, fun fuel hFuel => hLoop fuel (size_initial.trans_lt hFuel), ?_⟩
  intro b hb x hx hNe
  exact ⟨reported_of_mem hInv hSolves hb hNe, mem_of_reported hInv hb hx⟩

end Reported

/-- Each block is reached from one other block only, and a block that jumps to
itself is only reached through all others. -/
def SinglePredecessors : Prop :=
  ∀ b, Reachable g.Edge g.entry b → b ≠ g.entry →
    (∀ p q, g.Edge p b → g.Edge q b → p ≠ b → q ≠ b → p = q) ∧
      (g.Edge b b → ∀ x ∈ g.blocks, Dominates g.Edge g.entry x b)

theorem dominates_of_mem (h : Invariant g dominance) (hSolves : ∀ b ∈ g.blocks, Solves g dominance b)
    (hSingle : SinglePredecessors g) {b x : β} (hReach : Reachable g.Edge g.entry b) (hMem : x ∈ dominance b) :
    Dominates g.Edge g.entry x b := by
  obtain ⟨path, hPath⟩ := hReach
  -- by the length of a path: the one predecessor is reached on a shorter one
  induction hSize : path.length using Nat.strong_induction_on generalizing b path with
  | _ n ih =>
    have hBlock := g.mem_of_reachable ⟨path, hPath⟩
    by_cases hEntry : b = g.entry
    · subst hEntry
      rw [h.entry] at hMem
      exact dominates_entry.mpr (Finset.mem_singleton.mp hMem)
    obtain ⟨hUnique, hLoop⟩ := hSingle b ⟨path, hPath⟩ hEntry
    by_cases hSelf : g.Edge b b
    · exact hLoop hSelf x (List.mem_toFinset.mp (h.blocks b hBlock hMem))
    · obtain ⟨p, shorter, hEdge, hNe, hShorter, hLength⟩ := hPath.exists_pred hEntry
      have hOnly : ∀ q, g.Edge q b → q = p := by
        intro q hq
        exact hUnique q p hq hEdge (fun hEq => hSelf (hEq ▸ hq)) hNe
      rw [← hSolves b hBlock hEntry] at hMem
      rcases (mem_newDominators g).mp hMem with rfl | ⟨-, q, hq, hPred⟩
      · exact dominates_self x
      · rw [hOnly q hq] at hPred
        exact dominates_of_only_pred hEntry (fun q hq => Or.inr (hOnly q hq))
          (ih shorter.length (by omega) hPred shorter hShorter rfl)

/-- The loop ends on every graph. Its sets are the dominators of the reachable
blocks exactly if no reachable block is a join. -/
theorem calculate_dominators_iff :
    ∃ dominance, (∀ fuel, g.blocks.length ^ 2 < fuel → calculate g fuel = some dominance) ∧
      ((∀ b, Reachable g.Edge g.entry b → ∀ x, x ∈ dominance b ↔ Dominates g.Edge g.entry x b) ↔
        SinglePredecessors g) := by
  obtain ⟨dominance, hLoop, hInv, hSolves⟩ := loop_spec (@invariant_initial β _ g)
  refine ⟨dominance, fun fuel hFuel => hLoop fuel (size_initial.trans_lt hFuel), ?_, ?_⟩
  · intro hCorrect b hReach hEntry
    refine ⟨fun p q hp hq hpb hqb => ?_, fun hSelf x hx => ?_⟩
    · exact eq_of_dominating_preds hp hq hpb hqb hReach
        ((hCorrect b hReach p).mp (pred_mem hInv hEntry hp hpb))
        ((hCorrect b hReach q).mp (pred_mem hInv hEntry hq hqb))
    · exact (hCorrect b hReach x).mp (mem_of_loop hInv hEntry hSelf hx)
  · intro hSingle b hReach x
    exact ⟨dominates_of_mem g hInv hSolves hSingle hReach, mem_of_dominates hInv hReach⟩

/-- Two arms that meet again. -/
def diamond : ControlFlowGraph Nat where
  blocks := [0, 1, 2, 3]
  entry := 0
  successors b := if b = 0 then [1, 2] else if b = 3 then [] else [3]
  entry_mem := by decide
  successors_mem := by decide

theorem arm_not_dominating : ¬ Dominates diamond.Edge 0 1 3 := by
  intro h
  have hFirst : diamond.Edge 0 2 := by simp [ControlFlowGraph.Edge, diamond]
  have hSecond : diamond.Edge 2 3 := by simp [ControlFlowGraph.Edge, diamond]
  have hVisited := h [3, 2, 0] (.step (.step .start hFirst) hSecond)
  simp at hVisited

/-- An arm is reported to dominate the join. -/
theorem arm_reported :
    (calculate diamond 17).map (fun dominance => decide (1 ∈ dominance 3)) = some true ∧
      ¬ Dominates diamond.Edge 0 1 3 :=
  ⟨by decide, arm_not_dominating⟩

end SSADominance

end Gensim.GenC
