import Mathlib.Data.List.Sort
import Mathlib.Tactic
import Gensim.Generators.DecodeOptimize

/-! The decoder that the generator emits for a decode tree: nested switches, longest edges
first, that fall through to the next edges when a subtree does not return. -/
namespace Gensim.Generator

open BitPattern Isa

variable {ι : Type}

/-- The expression that an emitted `switch` inspects. -/
inductive Selector
  /-- `(instr & BIT_LSB(high)) >> high` -/
  | bit (high : Nat)
  /-- `UNSIGNED_BITS(instr, high, low)` -/
  | bits (high low : Nat)
deriving DecidableEq, Repr

def Selector.eval (word : BitVec 32) : Selector → BitVec 32
  | .bit high => (word &&& ((1 : BitVec 32) <<< high)) >>> high
  | .bits high low => unsignedBits word high low

mutual

/-- The emitted statements.  A leaf sets the instruction and returns. -/
inductive Code (ι : Type) where
  | empty
  | leaf (insn : ι)
  | seq (first second : Code ι)
  | switch (selector : Selector) (cases : Cases ι)

/-- The cases of a switch; each body ends with a `break`. -/
inductive Cases (ι : Type) where
  | nil
  | case (value : BitVec 32) (body : Code ι) (rest : Cases ι)

end

mutual

/-- The instruction returned, if the code returns. -/
def Code.exec (word : BitVec 32) : Code ι → Option ι
  | .empty => none
  | .leaf insn => some insn
  | .seq first second =>
      match first.exec word with
      | some insn => some insn
      | none => second.exec word
  | .switch selector cases => cases.exec word (selector.eval word)

def Cases.exec (word value : BitVec 32) : Cases ι → Option ι
  | .nil => none
  | .case label body rest => if value = label then body.exec word else rest.exec word value

end

def Cases.ofList : List (Nat × BitVec 32 × Code ι) → Cases ι
  | [] => .nil
  | (_, value, body) :: rest => .case value body (Cases.ofList rest)

/-- The switch for the edges of one length. -/
def switchOf (maxInstructionSize startPtr : Nat) (subtrees : List (Nat × BitVec 32 × Code ι))
    (length : Nat) : Code ι :=
  let high := maxInstructionSize - 1 - startPtr
  let low := maxInstructionSize - startPtr - length
  .switch (if length = 1 then .bit high else .bits high low)
    (Cases.ofList (subtrees.filter (·.1 = length)))

/-- The groups of `sorted_transitions`, read in reverse order of the lengths. -/
def groupLengths (subtrees : List (Nat × BitVec 32 × Code ι)) : List Nat :=
  (subtrees.map (·.1)).dedup.mergeSort fun a b => decide (b ≤ a)

def inTurn : List (Code ι) → Code ι
  | [] => .empty
  | code :: rest => .seq code (inTurn rest)

def switches (maxInstructionSize startPtr : Nat) (subtrees : List (Nat × BitVec 32 × Code ι)) :
    Code ι :=
  inTurn ((groupLengths subtrees).map (switchOf maxInstructionSize startPtr subtrees))

mutual

def generateDecodeTree (maxInstructionSize : Nat) : DecodeNode ι → Code ι
  | .mk _ (some insn) _ _ => .leaf insn
  | .mk startPtr none transitions unconstrained =>
      .seq (switches maxInstructionSize startPtr (generateSubtrees maxInstructionSize transitions))
        (generateUnconstrained maxInstructionSize unconstrained)

def generateSubtrees (maxInstructionSize : Nat) :
    List (Nat × BitVec 32 × DecodeNode ι) → List (Nat × BitVec 32 × Code ι)
  | [] => []
  | (length, value, kid) :: rest =>
      (length, value, generateDecodeTree maxInstructionSize kid) ::
        generateSubtrees maxInstructionSize rest

def generateUnconstrained (maxInstructionSize : Nat) : Option (Nat × DecodeNode ι) → Code ι
  | none => .empty
  | some (_, kid) => generateDecodeTree maxInstructionSize kid

end

/-! What the emitted code returns. -/

theorem selector_eval {word : BitVec 32} {start length : Nat} (hPos : 1 ≤ length) (hRange : start + length ≤ 32) :
    (if length = 1 then Selector.bit (32 - 1 - start) else .bits (32 - 1 - start)
      (32 - start - length)).eval word = field word start length := by
  split
  · rename_i hOne
    subst hOne
    apply BitVec.eq_of_getLsbD_eq
    intro i hi
    simp only [Selector.eval, field, BitVec.getLsbD_ushiftRight, BitVec.getLsbD_and, BitVec.getLsbD_shiftLeft]
    rcases Nat.eq_zero_or_pos i with rfl | hBit
    · simp [show 31 - start < 32 by omega, show ¬ 31 < start by omega]
    · have hNone : (1 : BitVec 32).getLsbD i = false := by simp [BitVec.getLsbD_one]; omega
      have hShift : 32 - 1 - start + i - (32 - 1 - start) = i := by omega
      rw [hShift, hNone]
      simp [show ¬ 31 + i < 32 by omega]
  · rw [Selector.eval, ← unsignedBits_eq_field hPos hRange]
    congr 1
    omega

theorem generateSubtrees_eq (maxInstructionSize : Nat) (transitions : List (DecodeTransition ι)) :
    generateSubtrees maxInstructionSize transitions =
      transitions.map fun t => (t.1, t.2.1, generateDecodeTree maxInstructionSize t.2.2) := by
  induction transitions with
  | nil => rfl
  | cons t transitions ih => rw [generateSubtrees, ih, List.map_cons]

theorem exec_ofList (word value : BitVec 32) (subtrees : List (Nat × BitVec 32 × Code ι)) :
    (Cases.ofList subtrees).exec word value =
      (subtrees.find? fun t => value = t.2.1).bind fun t => t.2.2.exec word := by
  induction subtrees with
  | nil => rfl
  | cons t subtrees ih =>
    rw [Cases.ofList, Cases.exec, List.find?_cons]
    by_cases hLabel : value = t.2.1
    · simp [hLabel]
    · simp [hLabel, ih]

theorem mem_groupLengths {subtrees : List (Nat × BitVec 32 × Code ι)} {length : Nat} :
    length ∈ groupLengths subtrees ↔ ∃ t ∈ subtrees, t.1 = length := by
  simp [groupLengths, List.mem_mergeSort]

/-- A sequence of statements returns what the first one that returns does. -/
theorem exec_inTurn (word : BitVec 32) (codes : List (Code ι)) :
    (∀ insn, (inTurn codes).exec word = some insn → ∃ code ∈ codes, code.exec word = some insn) ∧
    ((inTurn codes).exec word = none → ∀ code ∈ codes, code.exec word = none) := by
  induction codes with
  | nil => simp [inTurn, Code.exec]
  | cons code codes ih =>
    simp only [inTurn, Code.exec]
    cases hFirst : code.exec word with
    | some insn => exact ⟨fun insn' h => ⟨code, List.mem_cons_self, hFirst.trans h⟩, fun h => by cases h⟩
    | none =>
      refine ⟨fun insn h => ?_, fun h => ?_⟩
      · obtain ⟨later, hMem, hLater⟩ := ih.1 insn h
        exact ⟨later, List.mem_cons_of_mem _ hMem, hLater⟩
      · intro later hMem
        rcases List.mem_cons.mp hMem with rfl | hRest
        · exact hFirst
        · exact ih.2 h later hRest

namespace DecodeNode

/-- Edges of the same length and value are the same edge. -/
theorem GoodEdges.unique {start : Nat} {transitions : List (DecodeTransition ι)}
    (h : GoodEdges start transitions) {t u : DecodeTransition ι} (ht : t ∈ transitions)
    (hu : u ∈ transitions) (hLength : t.1 = u.1) (hValue : t.2.1 = u.2.1) : t = u := by
  by_contra hNe
  have hSymm : Std.Symm fun t u : DecodeTransition ι => ¬ (t.1 = u.1 ∧ t.2.1 = u.2.1) :=
    ⟨fun a b hab hba => hab ⟨hba.1.symm, hba.2.symm⟩⟩
  exact h.distinct.forall ht hu hNe ⟨hLength, hValue⟩

section Generated

variable {descriptions : ι → InstructionDescription}

theorem switches_spec {word : BitVec 32} {start : Nat} {transitions : List (DecodeTransition ι)}
    (hGood : GoodEdges start transitions)
    (hKids : ∀ t ∈ transitions, Decodes descriptions word (start + t.1) t.2.2.Path
      (((generateDecodeTree 32 t.2.2).exec word).map (decodeLeaf descriptions word))) :
    Decodes descriptions word start (fun bits insn => ∃ t ∈ transitions, ∃ rest, t.2.2.Path rest insn ∧
        bits = constant t.1 t.2.1 ++ rest) (((switches 32 start (generateSubtrees 32 transitions)).exec word).map
        (decodeLeaf descriptions word)) := by
  set subtrees := generateSubtrees 32 transitions with hSubtrees
  rw [generateSubtrees_eq] at hSubtrees
  -- a switch runs the subtree of the edge that matches the word
  have hSwitch : ∀ length ∈ groupLengths subtrees, (switchOf 32 start subtrees length).exec word =
        (transitions.find? fun t => t.1 = length ∧ field word start length = t.2.1).bind
          fun t => (generateDecodeTree 32 t.2.2).exec word := by
    intro length hLength
    obtain ⟨e, he, rfl⟩ := mem_groupLengths.mp hLength
    rw [hSubtrees] at he
    obtain ⟨t, ht, rfl⟩ := List.mem_map.mp he
    obtain ⟨hPos, hRange, -⟩ := hGood.bounds t ht
    rw [switchOf, Code.exec, selector_eval hPos hRange, exec_ofList, hSubtrees]
    simp [List.find?_filter, List.find?_map, Option.bind_map]
  obtain ⟨hSome, hNone⟩ := exec_inTurn word ((groupLengths subtrees).map (switchOf 32 start subtrees))
  rw [← switches] at hSome hNone
  cases hResult : (switches 32 start subtrees).exec word with
  | some insn =>
    obtain ⟨code, hCode, hExec⟩ := hSome insn hResult
    obtain ⟨length, hLength, rfl⟩ := List.mem_map.mp hCode
    rw [hSwitch length hLength, Option.bind_eq_some_iff] at hExec
    obtain ⟨t, hFind, hKid⟩ := hExec
    have hMem := List.mem_of_find?_eq_some hFind
    have hEdge := List.find?_some hFind
    simp only [decide_eq_true_eq] at hEdge
    obtain ⟨rfl, hField⟩ := hEdge
    obtain ⟨hPos, hRange, hValue⟩ := hGood.bounds t hMem
    have hSpec := hKids t hMem
    rw [hKid] at hSpec
    obtain ⟨rest, i, hRest, hMatch, hLeaf⟩ := hSpec
    refine ⟨_, i, ⟨t, hMem, rest, hRest, rfl⟩, ?_, hLeaf⟩
    rw [matchesFrom_append, (field_eq_iff hRange hValue).mp hField, length_constant, hMatch]
    rfl
  | none =>
    rintro bits insn ⟨t, hMem, rest, hRest, rfl⟩
    obtain ⟨hPos, hRange, hValue⟩ := hGood.bounds t hMem
    rw [matchesFrom_append, length_constant]
    by_cases hField : field word start t.1 = t.2.1
    · have hLength : t.1 ∈ groupLengths subtrees := by
        rw [mem_groupLengths, hSubtrees]
        exact ⟨_, List.mem_map_of_mem hMem, rfl⟩
      have hExec := hNone hResult _ (List.mem_map_of_mem hLength)
      rw [hSwitch t.1 hLength] at hExec
      obtain ⟨u, hFind⟩ : ∃ u, (transitions.find? fun u =>
          u.1 = t.1 ∧ field word start t.1 = u.2.1) = some u :=
        Option.isSome_iff_exists.mp (List.find?_isSome.mpr ⟨t, hMem, by simp [hField]⟩)
      have hEdge := List.find?_some hFind
      simp only [decide_eq_true_eq] at hEdge
      obtain rfl := hGood.unique (List.mem_of_find?_eq_some hFind) hMem hEdge.1 (hEdge.2.symm.trans hField)
      rw [hFind, Option.bind_some] at hExec
      have hSpec := hKids u hMem
      rw [hExec] at hSpec
      rw [hSpec rest insn hRest, Bool.and_false]
    · rw [Bool.eq_false_iff.mpr (fun h => hField ((field_eq_iff hRange hValue).mpr h)), Bool.false_and]

theorem generateDecodeTree_spec {strict : Bool} {start : Nat} {node : DecodeNode ι}
    (hWf : Wf strict start node) (word : BitVec 32) : Decodes descriptions word start node.Path
      (((generateDecodeTree 32 node).exec word).map (decodeLeaf descriptions word)) := by
  induction hWf with
  | leaf insn => exact ⟨[], insn, .leaf, rfl, rfl⟩
  | @inner start transitions unconstrained hStart hEdges hPositive hKids hSkip ihKids ihSkip =>
    have hSkipped : ∀ length kid, unconstrained = some (length, kid) →
        Decodes descriptions word (start + length) kid.Path
          (((generateUnconstrained 32 unconstrained).exec word).map (decodeLeaf descriptions word)) := by
      rintro length kid rfl
      exact ihSkip length kid rfl
    have hNode := Decodes.node (switches_spec hEdges ihKids) hSkipped (by
      rintro rfl
      rfl)
    rw [generateDecodeTree, Code.exec]
    cases hResult : (switches 32 start (generateSubtrees 32 transitions)).exec word <;>
      simpa [hResult] using hNode

end Generated

/-- No word matches bit strings of two different instructions. -/
def Disjoint (descriptions : ι → InstructionDescription) (insns : List ι) : Prop :=
  ∀ i ∈ insns, ∀ j ∈ insns, ∀ word : BitVec 32, MatchesInstruction descriptions word i →
    MatchesInstruction descriptions word j → i = j

section Transparent

variable {descriptions : ι → InstructionDescription}

/-- Where at most one instruction matches, whatever answers from the same paths answers
the same. -/
theorem Decodes.unique {word : BitVec 32} {start : Nat} {paths : List BitChar → ι → Prop}
    (hOne : ∀ p i q j, paths p i → paths q j → matchesFrom word start p = true →
      matchesFrom word start q = true → i = j)
    {a b : Option (DecodedInstruction ι)} (ha : Decodes descriptions word start paths a)
    (hb : Decodes descriptions word start paths b) : a = b := by
  cases a with
  | none =>
    cases b with
    | none => rfl
    | some found =>
      obtain ⟨bits, insn, hPath, hMatch, -⟩ := hb
      rw [ha bits insn hPath] at hMatch
      cases hMatch
  | some found =>
    obtain ⟨bits, insn, hPath, hMatch, rfl⟩ := ha
    cases b with
    | none =>
      rw [hb bits insn hPath] at hMatch
      cases hMatch
    | some other =>
      obtain ⟨bits', insn', hPath', hMatch', rfl⟩ := hb
      rw [hOne bits insn bits' insn' hPath hPath' hMatch hMatch']

theorem Decodes.congr {word : BitVec 32} {start : Nat} {paths paths' : List BitChar → ι → Prop}
    (hPaths : ∀ bits insn, paths' bits insn ↔ paths bits insn) {a : Option (DecodedInstruction ι)}
    (h : Decodes descriptions word start paths' a) : Decodes descriptions word start paths a := by
  cases a with
  | none => exact fun bits insn hPath => h bits insn ((hPaths bits insn).mpr hPath)
  | some found =>
    obtain ⟨bits, insn, hPath, hRest⟩ := h
    exact ⟨bits, insn, (hPaths bits insn).mp hPath, hRest⟩

theorem exec_eq_of_map_eq {word : BitVec 32} {a : Option ι} {b : Option (DecodedInstruction ι)}
    (h : a.map (decodeLeaf descriptions word) = b) : a = b.map (·.insn) := by
  rw [← h, Option.map_map]
  exact (congrFun Option.map_id a).symm

end Transparent

/-- Optimisation terminates and does not change what is decoded, and the code emitted for
either tree selects the same instruction. -/
theorem optimize_transparent [DecidableEq ι] (descriptions : ι → InstructionDescription) (first : ι)
    (rest : List ι) (hFormats : ∀ i ∈ first :: rest, (descriptions i).format.getLength = 32)
    (hReturns : ∀ i ∈ first :: rest, (descriptions i).Returns)
    (hDisjoint : Disjoint descriptions (first :: rest)) (minPrefixLength minPrefixMembers : Nat)
    (hMin : 1 ≤ minPrefixLength) :
    ∃ tree, build descriptions first rest = some tree ∧ ∀ fuel ≥ 65, ∃ tree',
      optimize minPrefixLength minPrefixMembers fuel tree = some tree' ∧ ∀ word : BitVec 32,
        decode descriptions word tree' = decode descriptions word tree ∧
        (generateDecodeTree 32 tree).exec word =
          (decode descriptions word tree).map (·.insn) ∧
        (generateDecodeTree 32 tree').exec word =
          (decode descriptions word tree).map (·.insn) := by
  obtain ⟨tree, hBuild, hBuilt⟩ := build_spec hFormats hReturns
  refine ⟨tree, hBuild, fun fuel hFuel => ?_⟩
  have hTree : OptimizesTo minPrefixLength minPrefixMembers fuel 0 tree :=
    optimize_spec hMin (.inl ⟨hBuilt.wf, hFuel⟩)
  obtain ⟨tree', hOptimize, hWf, hPaths⟩ := hTree
  refine ⟨tree', hOptimize, fun word => ?_⟩
  have hOne : ∀ p i q j, tree.Path p i → tree.Path q j → matchesFrom word 0 p = true →
      matchesFrom word 0 q = true → i = j := by
    intro p i q j hp hq hMatchP hMatchQ
    obtain ⟨hi, hBitsP⟩ := hBuilt.sound p i hp
    obtain ⟨hj, hBitsQ⟩ := hBuilt.sound q j hq
    exact hDisjoint i hi j hj word ⟨p, hBitsP, hMatchP⟩ ⟨q, hBitsQ, hMatchQ⟩
  have hDecode : Decodes descriptions word 0 tree.Path (decode descriptions word tree) :=
    decode_spec hBuilt.wf word
  refine ⟨?_, ?_, ?_⟩
  · exact Decodes.unique hOne ((decode_spec hWf word).congr hPaths) hDecode
  · exact exec_eq_of_map_eq (Decodes.unique hOne (generateDecodeTree_spec hBuilt.wf word) hDecode)
  · exact exec_eq_of_map_eq
      (Decodes.unique hOne ((generateDecodeTree_spec hWf word).congr hPaths) hDecode)

/-- Two instructions whose first bytes differ in the last bit only. -/
def siblings (odd : Bool) : InstructionDescription where
  format := ⟨[⟨"Static Constrainment", true, 8, if odd then 0x13 else 0x12⟩, ⟨"rest", false, 24, 0⟩]⟩
  decodeConstraints := []

theorem siblings_bit {word : BitVec 32} {odd : Bool} (h : MatchesInstruction siblings word odd) :
    word.getMsbD 7 = odd := by
  obtain ⟨bits, hMem, hMatch⟩ := h
  have hChar : ∀ bits ∈ (siblings odd).bitStrings, ∃ front : List BitChar, ∃ rest,
      bits = front ++ ofBool odd :: rest ∧ front.length = 7 := by
    cases odd <;> exact fun bits hBits =>
      ⟨bits.take 7, bits.drop 8, by revert bits; decide, by revert bits; decide⟩
  obtain ⟨front, rest, rfl, hFront⟩ := hChar bits hMem
  rw [matchesFrom_append, matchesFrom, hFront, admits_ofBool] at hMatch
  simpa using (Bool.and_eq_true_iff.mp (Bool.and_eq_true_iff.mp hMatch).2).1

/-- The six bits that both have in common become an edge of their own. -/
theorem optimize_transparent_siblings :
    Disjoint siblings [false, true] ∧ ∃ tree tree', build siblings false [true] = some tree ∧
      optimize 2 2 65 tree = some tree' ∧ tree' ≠ tree ∧
      decode siblings 0x13000000 tree' = decode siblings 0x13000000 tree := by
  have hDisjoint : Disjoint siblings [false, true] :=
    fun i _ j _ word hi hj => (siblings_bit hi).symm.trans (siblings_bit hj)
  obtain ⟨tree, hBuild, hTree⟩ :=
    optimize_transparent siblings false [true] (by decide) (by decide) hDisjoint 2 2 (by decide)
  obtain ⟨tree', hOptimize, hSame⟩ := hTree 65 le_rfl
  refine ⟨hDisjoint, tree, tree', hBuild, hOptimize, fun hEq => ?_, (hSame 0x13000000).1⟩
  let edges : DecodeNode Bool → Nat := fun | .mk _ _ transitions _ => transitions.length
  have hFewer : ((build siblings false [true]).bind (optimize 2 2 65)).map edges ≠
      (build siblings false [true]).map edges := by cbv; decide
  rw [hBuild, Option.bind_some, hOptimize, hEq] at hFewer
  exact hFewer rfl

/-- Also where instructions overlap, the decoder that is generated from the optimised tree returns an instruction
that the word matches, and none only if the word matches none. -/
theorem exec_generateDecodeTree [DecidableEq ι] (descriptions : ι → InstructionDescription) (first : ι)
    (rest : List ι) (hFormats : ∀ i ∈ first :: rest, (descriptions i).format.getLength = 32)
    (hReturns : ∀ i ∈ first :: rest, (descriptions i).Returns)
    (minPrefixLength minPrefixMembers : Nat) (hMin : 1 ≤ minPrefixLength) :
    ∃ tree tree', build descriptions first rest = some tree ∧
      optimize minPrefixLength minPrefixMembers 65 tree = some tree' ∧ ∀ word : BitVec 32,
        (∀ insn ∈ (generateDecodeTree 32 tree').exec word,
          insn ∈ first :: rest ∧ MatchesInstruction descriptions word insn) ∧
        ((generateDecodeTree 32 tree').exec word = none →
          ∀ insn ∈ first :: rest, ¬ MatchesInstruction descriptions word insn) := by
  obtain ⟨tree, hBuild, hBuilt⟩ := build_spec hFormats hReturns
  obtain ⟨tree', hOptimize, hWf, hPaths⟩ : OptimizesTo minPrefixLength minPrefixMembers 65 0 tree :=
    optimize_spec hMin (.inl ⟨hBuilt.wf, le_rfl⟩)
  refine ⟨tree, tree', hBuild, hOptimize, fun word => ?_⟩
  have hDecodes : Decodes descriptions word 0 tree.Path _ := (generateDecodeTree_spec hWf word).congr hPaths
  refine ⟨fun insn hInsn => ?_, fun hNone insn hMem => ?_⟩
  · rw [hInsn] at hDecodes
    obtain ⟨bits, found, hPath, hMatch, hLeaf⟩ := hDecodes
    obtain rfl : insn = found := congrArg (·.insn) hLeaf
    obtain ⟨hMem, hBits⟩ := hBuilt.sound bits insn hPath
    exact ⟨hMem, bits, hBits, hMatch⟩
  · rw [hNone] at hDecodes
    rintro ⟨bits, hBits, hMatch⟩
    obtain ⟨p, i, hPath, rfl | hAny⟩ := hBuilt.complete insn hMem bits hBits
    · simp [hDecodes p i hPath] at hMatch
    · simpa [hDecodes p i hPath] using matchesFrom_of_all_any word 0 hAny

theorem exec_generateDecodeTree_byteAndNibble : ∃ tree tree', build byteAndNibble false [true] = some tree ∧
    optimize 2 2 65 tree = some tree' ∧ (generateDecodeTree 32 tree').exec 0x73000000 ≠ none := by
  obtain ⟨tree, tree', hBuild, hOptimize, hExec⟩ :=
    exec_generateDecodeTree byteAndNibble false [true] (by decide) (by decide) 2 2 (by decide)
  exact ⟨tree, tree', hBuild, hOptimize, fun hNone => (hExec _).2 hNone true (by decide) (by decide)⟩

end DecodeNode

end Gensim.Generator
