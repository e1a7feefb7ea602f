import Mathlib.Tactic
import Gensim.Generators.DecodeTree

/-! The paths of a decode tree: the bit string read on the way to a leaf, and its instruction.
Decoding answers with a path that matches the word. -/
namespace Gensim.Generator

open BitPattern Isa

variable {ι : Type}

namespace DecodeNode

inductive Path : DecodeNode ι → List BitChar → ι → Prop
  | leaf {startPtr : Nat} {insn : ι} {transitions : List (DecodeTransition ι)}
      {unconstrained : Option (Nat × DecodeNode ι)} :
      Path (.mk startPtr (some insn) transitions unconstrained) [] insn
  | edge {startPtr length : Nat} {value : BitVec 32} {kid : DecodeNode ι} {insn : ι}
      {transitions : List (DecodeTransition ι)} {unconstrained : Option (Nat × DecodeNode ι)}
      {rest : List BitChar} (hMem : (length, value, kid) ∈ transitions) (hRest : Path kid rest insn) :
      Path (.mk startPtr none transitions unconstrained) (constant length value ++ rest) insn
  | skip {startPtr length : Nat} {kid : DecodeNode ι} {insn : ι}
      {transitions : List (DecodeTransition ι)} {rest : List BitChar} (hRest : Path kid rest insn) :
      Path (.mk startPtr none transitions (some (length, kid)))
        (List.replicate length .any ++ rest) insn

/-- The constrained transitions of a node over 32-bit words: a multimap without two edges of
the same length and value. -/
structure GoodEdges (startPtr : Nat) (transitions : List (DecodeTransition ι)) : Prop where
  bounds : ∀ t ∈ transitions, 1 ≤ t.1 ∧ startPtr + t.1 ≤ 32 ∧ t.2.1.toNat < 2 ^ t.1
  sorted : transitions.Pairwise (·.1 ≤ ·.1)
  distinct : transitions.Pairwise fun t u => ¬ (t.1 = u.1 ∧ t.2.1 = u.2.1)

/-- The shape of a tree over 32-bit words.  Leaves stand at bit 32 and only there; with
`strict`, every edge reads at least one bit. -/
inductive Wf (strict : Bool) : Nat → DecodeNode ι → Prop
  | leaf (insn : ι) : Wf strict 32 (.mk 32 (some insn) [] none)
  | inner {startPtr : Nat} {transitions : List (DecodeTransition ι)}
      {unconstrained : Option (Nat × DecodeNode ι)} (hStart : startPtr < 32)
      (hEdges : GoodEdges startPtr transitions)
      (hPositive : ∀ length kid, strict = true → unconstrained = some (length, kid) → 1 ≤ length)
      (hKids : ∀ t ∈ transitions, Wf strict (startPtr + t.1) t.2.2)
      (hSkip : ∀ length kid, unconstrained = some (length, kid) → Wf strict (startPtr + length) kid) :
      Wf strict startPtr (.mk startPtr none transitions unconstrained)

theorem Wf.start_le {strict : Bool} {start : Nat} {node : DecodeNode ι} (h : Wf strict start node) : start ≤ 32 := by
  cases h with
  | leaf => exact le_rfl
  | inner hStart => exact hStart.le

section Decoding

variable (descriptions : ι → InstructionDescription)

/-- What decoding at a node may answer: an instruction on a matching path, or nothing
when no path matches. -/
def Decodes (word : BitVec 32) (start : Nat) (paths : List BitChar → ι → Prop) :
    Option (DecodedInstruction ι) → Prop
  | some found => ∃ bits insn, paths bits insn ∧ matchesFrom word start bits = true ∧
      found = decodeLeaf descriptions word insn
  | none => ∀ bits insn, paths bits insn → matchesFrom word start bits = false

variable {descriptions}

theorem decodeTransitions_spec {word : BitVec 32} {start : Nat} {transitions : List (DecodeTransition ι)}
    (hEdges : ∀ t ∈ transitions, 1 ≤ t.1 ∧ start + t.1 ≤ 32 ∧ t.2.1.toNat < 2 ^ t.1)
    (hKids : ∀ t ∈ transitions, Decodes descriptions word (start + t.1) t.2.2.Path (decode descriptions word t.2.2)) :
    Decodes descriptions word start (fun bits insn => ∃ t ∈ transitions, ∃ rest, t.2.2.Path rest insn ∧
        bits = constant t.1 t.2.1 ++ rest) (decodeTransitions descriptions word start transitions) := by
  induction transitions with
  | nil => simp [decodeTransitions, Decodes]
  | cons t transitions ih =>
    obtain ⟨length, value, kid⟩ := t
    obtain ⟨hPos, hRange, hValue⟩ := hEdges _ List.mem_cons_self
    have hKid := hKids _ List.mem_cons_self
    have hOthers := ih (fun t hMem => hEdges t (List.mem_cons_of_mem _ hMem))
      (fun t hMem => hKids t (List.mem_cons_of_mem _ hMem))
    have hField : (unsignedBits word (31 - start) (31 - start + 1 - length) = value) ↔
        matchesFrom word start (constant length value) = true := by
      rw [unsignedBits_eq_field hPos hRange, field_eq_iff hRange hValue]
    -- the other edges answer as long as no path behind this edge matches
    have hNext : (∀ rest insn, kid.Path rest insn → matchesFrom word start (constant length value ++ rest) = false) →
        Decodes descriptions word start (fun bits insn => ∃ t ∈ (length, value, kid) :: transitions, ∃ rest,
            t.2.2.Path rest insn ∧ bits = constant t.1 t.2.1 ++ rest)
          (decodeTransitions descriptions word start transitions) := by
      intro hMiss
      cases hResult : decodeTransitions descriptions word start transitions with
      | some found =>
        rw [hResult] at hOthers
        obtain ⟨bits, insn, ⟨t, hMem, rest, hRest, hBits⟩, hMatch, hFound⟩ := hOthers
        exact ⟨bits, insn, ⟨t, List.mem_cons_of_mem _ hMem, rest, hRest, hBits⟩, hMatch, hFound⟩
      | none =>
        rw [hResult] at hOthers
        rintro bits insn ⟨t, hMem, rest, hRest, rfl⟩
        rcases List.mem_cons.mp hMem with rfl | hTail
        · exact hMiss rest insn hRest
        · exact hOthers _ insn ⟨t, hTail, rest, hRest, rfl⟩
    rw [decodeTransitions]
    split
    · rename_i hEq
      cases hResult : decode descriptions word kid with
      | some found =>
        rw [hResult] at hKid
        obtain ⟨rest, insn, hRest, hMatch, hFound⟩ := hKid
        refine ⟨_, insn, ⟨_, List.mem_cons_self, rest, hRest, rfl⟩, ?_, hFound⟩
        rw [matchesFrom_append, hField.mp hEq, length_constant, hMatch]
        rfl
      | none =>
        rw [hResult] at hKid
        apply hNext
        intro rest insn hRest
        rw [matchesFrom_append, length_constant, hKid rest insn hRest, Bool.and_false]
    · rename_i hNe
      apply hNext
      intro rest insn _
      rw [matchesFrom_append, Bool.eq_false_iff.mpr (fun h => hNe (hField.mpr h)), Bool.false_and]

/-- Answers from the edges come first, then the answer behind the unconstrained transition. -/
theorem Decodes.node {word : BitVec 32} {start : Nat} {transitions : List (DecodeTransition ι)}
    {unconstrained : Option (Nat × DecodeNode ι)} {edges skip : Option (DecodedInstruction ι)}
    (hEdges : Decodes descriptions word start (fun bits insn => ∃ t ∈ transitions, ∃ rest, t.2.2.Path rest insn ∧
        bits = constant t.1 t.2.1 ++ rest) edges) (hSkip : ∀ length kid, unconstrained = some (length, kid) →
      Decodes descriptions word (start + length) kid.Path skip) (hNone : unconstrained = none → skip = none) :
    Decodes descriptions word start (DecodeNode.mk start none transitions unconstrained).Path (edges.or skip) := by
  cases edges with
  | some found =>
    obtain ⟨bits, insn, ⟨t, hMem, rest, hRest, rfl⟩, hMatch, hFound⟩ := hEdges
    exact ⟨_, insn, .edge hMem hRest, hMatch, hFound⟩
  | none =>
    rw [Option.none_or]
    cases skip with
    | some found =>
      cases unconstrained with
      | none => cases hNone rfl
      | some skipped =>
        obtain ⟨rest, insn, hRest, hMatch, hFound⟩ := hSkip skipped.1 skipped.2 rfl
        refine ⟨_, insn, .skip hRest, ?_, hFound⟩
        rw [matchesFrom_append, matchesFrom_replicate_any, List.length_replicate, hMatch]
        rfl
    | none =>
      intro bits insn hPath
      cases hPath with
      | edge hMem hRest => exact hEdges _ insn ⟨_, hMem, _, hRest, rfl⟩
      | skip hRest => rw [matchesFrom_append, List.length_replicate, hSkip _ _ rfl _ insn hRest, Bool.and_false]

theorem decode_spec {strict : Bool} {start : Nat} {node : DecodeNode ι} (hWf : Wf strict start node)
    (word : BitVec 32) : Decodes descriptions word start node.Path (decode descriptions word node) := by
  induction hWf with
  | leaf insn => exact ⟨[], insn, .leaf, rfl, rfl⟩
  | @inner start transitions unconstrained hStart hEdges hPositive hKids hSkip ihKids ihSkip =>
    have hSkipped : ∀ length kid, unconstrained = some (length, kid) →
        Decodes descriptions word (start + length) kid.Path (decodeUnconstrained descriptions word unconstrained) := by
      rintro length kid rfl
      exact ihSkip length kid rfl
    have hNode := Decodes.node (decodeTransitions_spec hEdges.bounds ihKids) hSkipped (by
      rintro rfl
      rfl)
    rw [decode]
    cases hResult : decodeTransitions descriptions word start transitions <;>
      simpa [hResult] using hNode

end Decoding

end DecodeNode

end Gensim.Generator
