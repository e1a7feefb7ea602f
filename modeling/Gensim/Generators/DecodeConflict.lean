import Mathlib.Data.List.TakeWhile
import Mathlib.Tactic
import Gensim.Generators.DecodeInsertion

/-! When the insertion of an instruction reports an ISA conflict.  The verdict is lost on the way
back through a constrained transition that is reused, so that only the leaf behind nothing but
unconstrained transitions can report. -/
namespace Gensim.Generator

open BitPattern Isa

variable {ι : Type}

namespace DecodeNode

/-- The positions of a tree over bit strings of length `n`: leaves stand at bit `n` and every
transition reads at least one bit. -/
inductive Aligned (n : Nat) : Nat → DecodeNode ι → Prop
  | leaf (insn : ι) : Aligned n n (.mk n (some insn) [] none)
  | inner {start : Nat} {transitions : List (DecodeTransition ι)}
      {unconstrained : Option (Nat × DecodeNode ι)} (hStart : start < n)
      (hEdges : ∀ t ∈ transitions, 1 ≤ t.1)
      (hKids : ∀ t ∈ transitions, Aligned n (start + t.1) t.2.2)
      (hPositive : ∀ length kid, unconstrained = some (length, kid) → 1 ≤ length)
      (hSkip : ∀ length kid, unconstrained = some (length, kid) → Aligned n (start + length) kid) :
      Aligned n start (.mk start none transitions unconstrained)

theorem Aligned.start_le {n start : Nat} {node : DecodeNode ι} (h : Aligned n start node) : start ≤ n := by
  cases h with
  | leaf => exact le_rfl
  | inner hStart => exact hStart.le

mutual

/-- The instruction of the leaf behind unconstrained transitions only. -/
def owner : DecodeNode ι → Option ι
  | .mk _ target _ unconstrained => ownerBehind target unconstrained

def ownerBehind (target : Option ι) : Option (Nat × DecodeNode ι) → Option ι
  | none => target
  | some (_, kid) => owner kid

end

@[simp]
theorem owner_none (start : Nat) (target : Option ι) (transitions : List (DecodeTransition ι)) :
    owner (.mk start target transitions none) = target := by
  rw [owner, ownerBehind]

@[simp]
theorem owner_some (start length : Nat) (target : Option ι)
    (transitions : List (DecodeTransition ι)) (kid : DecodeNode ι) :
    owner (.mk start target transitions (some (length, kid))) = owner kid := by
  rw [owner, ownerBehind]

theorem owner_transitions (start : Nat) (target : Option ι) (transitions transitions' : List (DecodeTransition ι))
    (unconstrained : Option (Nat × DecodeNode ι)) : owner (.mk start target transitions unconstrained) =
      owner (.mk start target transitions' unconstrained) := by
  rw [owner, owner]

theorem Aligned.setSkip {n start length : Nat} {transitions : List (DecodeTransition ι)}
    {unconstrained : Option (Nat × DecodeNode ι)} {kid : DecodeNode ι}
    (h : Aligned n start (.mk start none transitions unconstrained)) (hPos : 1 ≤ length)
    (hKid : Aligned n (start + length) kid) : Aligned n start (.mk start none transitions (some (length, kid))) := by
  cases h with
  | inner hStart hEdges hKids hPositive hSkip =>
    refine .inner hStart hEdges hKids ?_ ?_
    · rintro _ _ ⟨⟩
      exact hPos
    · rintro _ _ ⟨⟩
      exact hKid

/-- New transitions that are old ones or one good one more. -/
theorem Aligned.setEdges {n start : Nat} {transitions transitions' : List (DecodeTransition ι)}
    {unconstrained : Option (Nat × DecodeNode ι)} {u : DecodeTransition ι}
    (h : Aligned n start (.mk start none transitions unconstrained)) (hPos : 1 ≤ u.1)
    (hKid : Aligned n (start + u.1) u.2.2) (hMem : ∀ t ∈ transitions', t = u ∨ t ∈ transitions) :
    Aligned n start (.mk start none transitions' unconstrained) := by
  cases h with
  | inner hStart hEdges hKids hPositive hSkip =>
    refine .inner hStart (fun t ht => ?_) (fun t ht => ?_) hPositive hSkip
    · rcases hMem t ht with rfl | hOld
      · exact hPos
      · exact hEdges t hOld
    · rcases hMem t ht with rfl | hOld
      · exact hKid
      · exact hKids t hOld

variable {descriptions : ι → InstructionDescription}

theorem create_aligned {insn : ι} {n : Nat} (hLength : (descriptions insn).format.getLength = n) {start : Nat}
    (hStart : start ≤ n) : Aligned n start (create descriptions (some insn) start) := by
  simp only [create, hLength]
  split
  · rename_i hEq
    subst hEq
    exact .leaf insn
  · exact .inner (by omega) (by simp) (by simp) (by simp) (by simp)

theorem owner_create {insn : ι} {n : Nat} (hLength : (descriptions insn).format.getLength = n) (start : Nat) :
    (create descriptions (some insn) start).owner = if start = n then some insn else none := by
  simp only [create, hLength]
  split <;> simp

theorem owner_create_getD {insn : ι} {n : Nat} (hLength : (descriptions insn).format.getLength = n) (start : Nat) :
    (create descriptions (some insn) start).owner.getD insn = insn := by
  rw [owner_create hLength]
  split <;> rfl

/-- What inserting a bit string from `start` on does to the owner, and what it reports. -/
structure Reports (insn : ι) (bits : BitString) (n start : Nat) (node node' : DecodeNode ι)
    (success : Bool) : Prop where
  aligned : Aligned n start node'
  unconstrained : (∀ c ∈ bits.drop start, c = .any) →
    node'.owner = some (node.owner.getD insn) ∧ (success = false ↔ node.owner.getD insn ≠ insn)
  constrained : (¬ ∀ c ∈ bits.drop start, c = .any) → node'.owner = node.owner ∧ success = true

section Insertion

variable {descriptions : ι → InstructionDescription} {insn : ι} {bits : BitString} {n start : Nat}

/-- Below a fresh node nothing is reported. -/
theorem Reports.success_of_fresh (hLength : (descriptions insn).format.getLength = n)
    {node' : DecodeNode ι} {success : Bool}
    (h : Reports insn bits n start (create descriptions (some insn) start) node' success) : success = true := by
  by_cases hAny : ∀ c ∈ bits.drop start, c = .any
  · have hReport := (h.unconstrained hAny).2
    simpa [owner_create_getD hLength] using hReport
  · exact (h.constrained hAny).2

/-- Passing unconstrained characters on to the node behind an unconstrained transition. -/
theorem Reports.skip {length : Nat} {success : Bool} {node kid kid' : DecodeNode ι}
    {transitions : List (DecodeTransition ι)} {unconstrained : Option (Nat × DecodeNode ι)}
    (h : Reports insn bits n (start + length) kid kid' success)
    (hDrop : bits.drop start = List.replicate length .any ++ bits.drop (start + length))
    (hNode : Aligned n start (.mk start none transitions unconstrained)) (hPos : 1 ≤ length)
    (hOwner : node.owner.getD insn = kid.owner.getD insn)
    (hOther : (¬ ∀ c ∈ bits.drop (start + length), c = .any) → node.owner = kid.owner) :
    Reports insn bits n start node (.mk start none transitions (some (length, kid'))) success := by
  have hAny : (∀ c ∈ bits.drop start, c = .any) ↔ ∀ c ∈ bits.drop (start + length), c = .any := by
    rw [hDrop, List.forall_mem_append]
    exact ⟨fun h => h.2, fun h => ⟨fun c hMem => List.eq_of_mem_replicate hMem, h⟩⟩
  refine ⟨hNode.setSkip hPos h.aligned, fun hAll => ?_, fun hNot => ?_⟩
  · rw [owner_some, hOwner]
    exact h.unconstrained (hAny.mp hAll)
  · rw [hAny] at hNot
    rw [owner_some, hOther hNot]
    exact h.constrained hNot

/-- Below a constrained transition nothing changes for the owner. -/
theorem Reports.edge {transitions transitions' : List (DecodeTransition ι)}
    {unconstrained : Option (Nat × DecodeNode ι)} (hFixed : ¬ ∀ c ∈ bits.drop start, c = .any)
    (hAligned : Aligned n start (.mk start none transitions' unconstrained)) :
    Reports insn bits n start (.mk start none transitions unconstrained)
      (.mk start none transitions' unconstrained) true :=
  ⟨hAligned, fun hAny => absurd hAny hFixed, fun _ => ⟨owner_transitions .., rfl⟩⟩

variable [DecidableEq ι] {fuel : Nat} {transitions : List (DecodeTransition ι)}
  {unconstrained : Option (Nat × DecodeNode ι)}

/-- The call at `node` returns, and reports as it should. -/
def Answers (descriptions : ι → InstructionDescription) (insn : ι) (bits : BitString)
    (n fuel start : Nat) (node : DecodeNode ι) : Prop :=
  ∃ node' success, addBitString descriptions insn bits fuel node = some (node', success) ∧
    Reports insn bits n start node node' success

section

variable (hLength : (descriptions insn).format.getLength = n)
include hLength

theorem answers_unconstrained (hBits : bits.length = n)
    (hRec : ∀ next node, start < next → Aligned n next node → Answers descriptions insn bits n fuel next node)
    (hNode : Aligned n start (.mk start none transitions unconstrained)) (hStart : start < n)
    (hHead : (getPrefix bits start).head? = some .any) : Answers descriptions insn bits n (fuel + 1) start
      (.mk start none transitions unconstrained) := by
  have hEnd := hBits ▸ getPrefix_end_le (hStart.trans_eq hBits.symm)
  have hShorter : ∀ length ≤ (getPrefix bits start).length,
      bits.drop start = List.replicate length .any ++ bits.drop (start + length) :=
    fun length hLe => drop_eq_replicate_append (hStart.trans_eq hBits.symm) hHead hLe
  have hPos : 1 ≤ (getPrefix bits start).length :=
    List.length_pos_iff.mpr (getPrefix_spec (hStart.trans_eq hBits.symm)).1
  set pre := getPrefix bits start with hPre
  have hInner : start ≠ bits.length := by omega
  simp only [Answers, addBitString, if_neg hInner, ← hPre, hHead, if_true]
  cases unconstrained with
  | none =>
    obtain ⟨kid', success, hEq, hReports⟩ := hRec (start + pre.length) _ (by omega)
      (create_aligned hLength hEnd)
    refine ⟨_, success, by simp only [hEq]; rfl, ?_⟩
    apply hReports.skip (hShorter _ le_rfl) hNode hPos
    · rw [owner_none, owner_create_getD hLength]
      rfl
    · intro hNot
      have hBefore : start + pre.length ≠ n := by
        intro hSame
        simp [hSame, ← hBits] at hNot
      rw [owner_none, owner_create hLength, if_neg hBefore]
  | some skipped =>
    obtain ⟨length, kid⟩ := skipped
    have hKid : 1 ≤ length ∧ Aligned n (start + length) kid := by
      cases hNode with
      | inner _ _ _ hPositive hSkip => exact ⟨hPositive length kid rfl, hSkip length kid rfl⟩
    by_cases hLe : length ≤ pre.length
    · obtain ⟨kid', success, hEq, hReports⟩ := hRec (start + length) kid (by omega) hKid.2
      refine ⟨_, success, by simp only [if_pos hLe, hEq]; rfl, ?_⟩
      exact hReports.skip (hShorter _ hLe) hNode hKid.1 (by rw [owner_some])
        fun _ => owner_some ..
    · -- the transition is broken, and the owner is behind both parts
      have hMiddle : Aligned n (start + pre.length)
          (.mk (start + pre.length) none [] (some (length - pre.length, kid))) := by
        have := hKid.2.start_le
        refine .inner (by omega) (by simp) (by simp) ?_ ?_
        · rintro _ _ ⟨⟩
          omega
        · rintro _ _ ⟨⟩
          rw [Nat.add_assoc, Nat.add_sub_cancel' (by omega)]
          exact hKid.2
      obtain ⟨kid', success, hEq, hReports⟩ := hRec (start + pre.length) _ (by omega) hMiddle
      refine ⟨_, success, by simp only [if_neg hLe, breakUnconstrainedTransition, hEq]; rfl, ?_⟩
      exact hReports.skip (hShorter _ le_rfl) hNode hPos (by rw [owner_some, owner_some])
        fun _ => by rw [owner_some, owner_some]

theorem answers_constrained (hBits : bits.length = n)
    (hRec : ∀ next node, start < next → Aligned n next node → Answers descriptions insn bits n fuel next node)
    (hNode : Aligned n start (.mk start none transitions unconstrained)) (hStart : start < n)
    (hHead : (getPrefix bits start).head? ≠ some .any) : Answers descriptions insn bits n (fuel + 1) start
      (.mk start none transitions unconstrained) := by
  obtain ⟨hNonempty, hDrop, hNoAny⟩ := getPrefix_spec (hStart.trans_eq hBits.symm)
  have hEnd := hBits ▸ getPrefix_end_le (hStart.trans_eq hBits.symm)
  rw [if_neg hHead] at hNoAny
  set pre := getPrefix bits start with hPre
  have hPos : 1 ≤ pre.length := List.length_pos_iff.mpr hNonempty
  have hFixed : ¬ ∀ c ∈ bits.drop start, c = .any := by
    intro hAny
    obtain ⟨c, hMem⟩ := List.exists_mem_of_ne_nil pre hNonempty
    have hIn : c ∈ bits.drop start := hDrop ▸ List.mem_append_left _ hMem
    exact hNoAny (hAny c hIn ▸ hMem)
  have hInner : start ≠ bits.length := by omega
  simp only [Answers, addBitString, if_neg hInner, ← hPre, if_neg hHead, List.span_eq_takeWhile_dropWhile]
  set q := fun t : DecodeTransition ι => !(t.1 == pre.length && t.2.1 == Util.parseBinary pre)
  have hSplit : transitions.takeWhile q ++ transitions.dropWhile q = transitions := List.takeWhile_append_dropWhile
  cases hRest : transitions.dropWhile q with
  | cons t after =>
    -- the transition is reused, and what is reported below is not passed on
    obtain ⟨length, value, kid⟩ := t
    rw [hRest] at hSplit
    have hOld : (length, value, kid) ∈ transitions := hSplit ▸ List.mem_append_right _ List.mem_cons_self
    have hKid : 1 ≤ length ∧ Aligned n (start + length) kid := by
      cases hNode with
      | inner _ hEdges hKids _ _ => exact ⟨hEdges _ hOld, hKids _ hOld⟩
    obtain ⟨kid', success, hEq, hReports⟩ := hRec (start + length) kid (by omega) hKid.2
    refine ⟨_, true, by simp only [hEq]; rfl, Reports.edge hFixed ?_⟩
    refine hNode.setEdges (u := (length, value, kid')) hKid.1 hReports.aligned fun t ht => ?_
    rw [← hSplit]
    simp only [List.mem_append, List.mem_cons] at ht ⊢
    tauto
  | nil =>
    obtain ⟨kid', success, hEq, hReports⟩ := hRec (start + pre.length) _ (by omega)
      (create_aligned hLength hEnd)
    obtain rfl := hReports.success_of_fresh hLength
    refine ⟨_, true, by simp only [hEq]; rfl, Reports.edge hFixed ?_⟩
    exact hNode.setEdges hPos hReports.aligned fun t ht => mem_insertTransition.mp ht

theorem addBitString_answers (hBits : bits.length = n) {node : DecodeNode ι} (hNode : Aligned n start node)
    (hFuel : n - start < fuel) : Answers descriptions insn bits n fuel start node := by
  induction fuel generalizing start node with
  | zero => omega
  | succ fuel ih =>
    have hAligned := hNode
    cases hNode with
    | leaf i =>
      refine ⟨_, _, by rw [addBitString, if_pos hBits.symm], hAligned, fun _ => ?_, fun hNot => ?_⟩
      · rw [owner_none]
        simp
      · simp [← hBits] at hNot
    | inner hStart =>
      have hRec : ∀ next node, start < next → Aligned n next node →
          Answers descriptions insn bits n fuel next node := by
        intro next node hLt hNext
        have := hNext.start_le
        exact ih hNext (by omega)
      by_cases hHead : (getPrefix bits start).head? = some .any
      · exact answers_unconstrained hLength hBits hRec hAligned hStart hHead
      · exact answers_constrained hLength hBits hRec hAligned hStart hHead

/-- Only the wholly unconstrained bit string can be reported, and it is reported if the leaf
behind unconstrained transitions belongs to another instruction. -/
theorem addBitStrings_answers {bitStrings : List BitString} (hBits : ∀ b ∈ bitStrings, b.length = n)
    {tree : DecodeNode ι} (hTree : Aligned n 0 tree) :
    ∃ tree' success, addBitStrings descriptions insn bitStrings tree = some (tree', success) ∧ Aligned n 0 tree' ∧
      tree'.owner = (if List.replicate n .any ∈ bitStrings then some (tree.owner.getD insn) else tree.owner) ∧
      (success = false ↔ List.replicate n .any ∈ bitStrings ∧ tree.owner.getD insn ≠ insn) := by
  induction bitStrings generalizing tree with
  | nil => exact ⟨tree, true, rfl, hTree, by simp, by simp⟩
  | cons bits bitStrings ih =>
    have hLen := hBits bits List.mem_cons_self
    have hFuel : n - 0 < bits.length + 1 := by omega
    obtain ⟨tree', success, hEq, hReports⟩ := addBitString_answers hLength hLen hTree hFuel
    have hAny : (∀ c ∈ bits.drop 0, c = .any) ↔ List.replicate n .any = bits := by
      rw [List.drop_zero, eq_comm, List.eq_replicate_iff]
      exact ⟨fun h => ⟨hLen, h⟩, fun h => h.2⟩
    have ih := ih (fun b hMem => hBits b (List.mem_cons_of_mem _ hMem)) hReports.aligned
    obtain ⟨tree'', success', hEq', hAligned, hOwner, hReport⟩ := ih
    simp only [addBitStrings, hEq, Option.bind_eq_bind, Option.bind_some, List.mem_cons]
    by_cases hWhole : List.replicate n .any = bits
    · obtain ⟨hOwn, hSuccess⟩ := hReports.unconstrained (hAny.mpr hWhole)
      simp only [hWhole, true_or, if_true, true_and]
      cases success with
      | false => exact ⟨tree', false, by simp, hReports.aligned, hOwn, by simpa using hSuccess⟩
      | true =>
        -- the leaf is its own now, and stays so
        have hMine : tree.owner.getD insn = insn := by simpa using hSuccess
        rw [hOwn, hMine] at hOwner hReport
        refine ⟨tree'', success', by simpa using hEq', hAligned, ?_, ?_⟩
        · rw [hOwner, hMine]
          split <;> rfl
        · rw [hReport, hMine]
          simp
    · obtain ⟨hOwn, rfl⟩ := hReports.constrained (hAny.not.mpr hWhole)
      rw [hOwn] at hOwner hReport
      refine ⟨tree'', success', by simpa using hEq', hAligned, ?_, ?_⟩
      · simpa [hWhole] using hOwner
      · simpa [hWhole] using hReport

end

end Insertion

/-! Sequences of insertions. -/

section Sequence

variable [DecidableEq ι] (descriptions : ι → InstructionDescription)

/-- The first instruction with the wholly unconstrained bit string. -/
def firstUnconstrained (n : Nat) (insns : List ι) : Option ι :=
  insns.find? fun i => List.replicate n .any ∈ (descriptions i).bitStrings

/-- The instruction has a bit string of a different instruction. -/
def Shares (insns : List ι) (insn : ι) : Prop :=
  ∃ other ∈ insns, other ≠ insn ∧
    ∃ bits ∈ (descriptions insn).bitStrings, bits ∈ (descriptions other).bitStrings

/-- After the instructions before it, the insertion of an instruction reports a conflict exactly
if it shares a bit string with one of them. -/
def ReportsExactly (first : ι) (earlier : List ι) (insn : ι) : Prop :=
  ∃ tree tree' success, build descriptions first earlier = some tree ∧
    addInstruction descriptions insn tree = some (tree', success) ∧
    (success = false ↔ Shares descriptions (first :: earlier) insn)

variable {descriptions} {n : Nat}

theorem addInstruction_of_returns {insn : ι} (hReturns : (descriptions insn).Returns) (tree : DecodeNode ι) :
    addInstruction descriptions insn tree =
      addBitStrings descriptions insn (descriptions insn).bitStrings tree := by
  rw [addInstruction, getBitString_of_returns hReturns, Option.bind_some]

variable {tree : DecodeNode ι}

theorem returns_of_addInstruction {insn : ι} {result : DecodeNode ι × Bool}
    (h : addInstruction descriptions insn tree = some result) : (descriptions insn).Returns := by
  obtain ⟨bitStrings, hBits, -⟩ := Option.bind_eq_some_iff.mp h
  by_contra hThrows
  rw [InstructionDescription.getBitString, if_neg hThrows] at hBits
  exact nomatch hBits

/-- A tree is built only of instructions whose bit strings are computed. -/
theorem returns_of_build {first : ι} {rest : List ι} (h : build descriptions first rest = some tree) :
    ∀ i ∈ first :: rest, (descriptions i).Returns := by
  induction rest using List.reverseRecOn generalizing tree with
  | nil =>
    obtain ⟨start, hCreate, -⟩ := Option.bind_eq_some_iff.mp h
    obtain ⟨result, hAdd, -⟩ := Option.map_eq_some_iff.mp hCreate
    exact List.forall_mem_singleton.mpr (returns_of_addInstruction hAdd)
  | append_singleton rest insn ih =>
    obtain ⟨start, hCreate, hFold⟩ := Option.bind_eq_some_iff.mp h
    rw [List.foldlM_append] at hFold
    obtain ⟨before, hBefore, hLast⟩ := Option.bind_eq_some_iff.mp hFold
    rw [List.foldlM_cons] at hLast
    obtain ⟨after, hAdd, -⟩ := Option.bind_eq_some_iff.mp hLast
    obtain ⟨result, hAdd, -⟩ := Option.map_eq_some_iff.mp hAdd
    have hRest := ih (Option.bind_eq_some_iff.mpr ⟨start, hCreate, hBefore⟩)
    rw [← List.cons_append, List.forall_mem_append]
    exact ⟨hRest, List.forall_mem_singleton.mpr (returns_of_addInstruction hAdd)⟩

theorem addInstruction_answers {insn : ι} (hLength : (descriptions insn).format.getLength = n)
    (hReturns : (descriptions insn).Returns) {insns : List ι} (hTree : Aligned n 0 tree)
    (hOwner : tree.owner = firstUnconstrained descriptions n insns) :
    ∃ tree' success, addInstruction descriptions insn tree = some (tree', success) ∧
      Aligned n 0 tree' ∧ tree'.owner = firstUnconstrained descriptions n (insns ++ [insn]) ∧
      (success = false ↔ List.replicate n .any ∈ (descriptions insn).bitStrings ∧
        (firstUnconstrained descriptions n insns).getD insn ≠ insn) := by
  obtain ⟨tree', success, hEq, hAligned, hOwner', hReport⟩ := addBitStrings_answers hLength
    (fun b hMem => (bitStrings_length hMem).trans hLength) hTree
  rw [hOwner] at hOwner' hReport
  refine ⟨tree', success, (addInstruction_of_returns hReturns tree).trans hEq, hAligned, hOwner'.trans ?_, hReport⟩
  rw [firstUnconstrained, firstUnconstrained, List.find?_append, List.find?_singleton]
  split <;> cases insns.find? _ <;> simp_all

theorem build_answers {first : ι} {rest : List ι} (hPos : 0 < n)
    (hFormats : ∀ i ∈ first :: rest, (descriptions i).format.getLength = n)
    (hReturns : ∀ i ∈ first :: rest, (descriptions i).Returns) :
    ∃ tree, build descriptions first rest = some tree ∧ Aligned n 0 tree ∧
      tree.owner = firstUnconstrained descriptions n (first :: rest) := by
  have hFirst := hFormats first List.mem_cons_self
  have hEmpty : (create descriptions (some first) 0).owner = firstUnconstrained descriptions n [] := by
    rw [owner_create hFirst, if_neg hPos.ne]
    rfl
  obtain ⟨tree, success, hAdd, hAligned, hOwner, -⟩ :=
    addInstruction_answers hFirst (hReturns first List.mem_cons_self) (create_aligned hFirst (Nat.zero_le n)) hEmpty
  have hCreate : createTree descriptions first = some tree := by rw [createTree, hAdd]; rfl
  simp only [build, hCreate, Option.bind_eq_bind, Option.bind_some]
  -- the invariant of the insertions: the owner is the first unconstrained instruction so far
  induction rest using List.reverseRecOn with
  | nil => exact ⟨tree, rfl, hAligned, hOwner⟩
  | append_singleton rest insn ih =>
    have hSub : ∀ i ∈ first :: rest, i ∈ first :: (rest ++ [insn]) := fun i hi =>
      List.mem_cons.mpr ((List.mem_cons.mp hi).imp_right (List.mem_append_left _))
    obtain ⟨before, hBefore, hAligned, hOwner⟩ :=
      ih (fun i hi => hFormats i (hSub i hi)) fun i hi => hReturns i (hSub i hi)
    obtain ⟨after, success, hAdd, hAligned, hOwner, -⟩ :=
      addInstruction_answers (hFormats insn (by simp)) (hReturns insn (by simp)) hAligned hOwner
    refine ⟨after, ?_, hAligned, hOwner⟩
    rw [List.foldlM_append, hBefore]
    simp [hAdd]

end Sequence

/-- A conflict is reported exactly if there is one, unless the bit strings of an instruction are not computed
or the shared bit string has a constrained run: then nothing is reported. The source keeps positions in a
`uint8_t`, so that the formats have to be shorter than 256 bits. -/
theorem reportsExactly_iff [DecidableEq ι] (descriptions : ι → InstructionDescription) (n : Nat)
    (hPos : 0 < n) (_hByte : n < 256) (first : ι) (earlier : List ι) (insn : ι)
    (hFormats : ∀ i ∈ insn :: first :: earlier, (descriptions i).format.getLength = n) :
    ReportsExactly descriptions first earlier insn ↔
      (∀ i ∈ insn :: first :: earlier, (descriptions i).Returns) ∧ (Shares descriptions (first :: earlier) insn →
        List.replicate n .any ∈ (descriptions insn).bitStrings ∧
        ∃ other, firstUnconstrained descriptions n (first :: earlier) = some other ∧
          other ≠ insn) := by
  obtain ⟨hLength, hEarlier⟩ := List.forall_mem_cons.mp hFormats
  by_cases hReturns : ∀ i ∈ insn :: first :: earlier, (descriptions i).Returns
  swap
  · refine iff_of_false (fun ⟨_, _, _, hBuild, hAdd, _⟩ => hReturns ?_) fun h => hReturns h.1
    exact List.forall_mem_cons.mpr ⟨returns_of_addInstruction hAdd, returns_of_build hBuild⟩
  obtain ⟨hHere, hBefore⟩ := List.forall_mem_cons.mp hReturns
  obtain ⟨tree, hBuild, hAligned, hOwner⟩ := build_answers hPos hEarlier hBefore
  obtain ⟨tree', success, hAdd, -, -, hReport⟩ := addInstruction_answers hLength hHere hAligned hOwner
  have hOther : (firstUnconstrained descriptions n (first :: earlier)).getD insn ≠ insn ↔
      ∃ other, firstUnconstrained descriptions n (first :: earlier) = some other ∧
        other ≠ insn := by
    cases firstUnconstrained descriptions n (first :: earlier) <;> simp
  rw [hOther] at hReport
  have hOnly : success = false → Shares descriptions (first :: earlier) insn := by
    intro hFailed
    obtain ⟨hMine, other, hFind, hNe⟩ := hReport.mp hFailed
    exact ⟨other, List.mem_of_find?_eq_some hFind, hNe, _, hMine, by
      simpa using List.find?_some hFind⟩
  rw [and_iff_right hReturns, ← hReport]
  constructor
  · rintro ⟨tree₂, tree₂', success₂, hBuild₂, hAdd₂, hExact⟩
    obtain rfl : tree = tree₂ := Option.some.inj (hBuild.symm.trans hBuild₂)
    obtain ⟨rfl, rfl⟩ : tree' = tree₂' ∧ success = success₂ := by
      simpa using hAdd.symm.trans hAdd₂
    exact hExact.mpr
  · intro hAll
    exact ⟨tree, tree', success, hBuild, hAdd, hOnly, hAll⟩

/-- Two instructions of one format, whose first byte is static or not. -/
def twins (constrained : Bool) (_ : Bool) : InstructionDescription where
  format := ⟨[⟨"op", constrained, 8, 0x12⟩, ⟨"rest", false, 24, 0⟩]⟩
  decodeConstraints := []

theorem reportsExactly_iff_twins : ReportsExactly (twins false) false [] true :=
  (reportsExactly_iff (twins false) 32 (by decide) (by decide) false [] true (by decide)).mpr
    ⟨by decide, fun _ => ⟨by decide, false, by decide, by decide⟩⟩

/-- The second of two instructions with the same bit string is inserted without a word. -/
theorem conflict_not_reported :
    (∃ tree tree', build (twins true) false [] = some tree ∧
      addInstruction (twins true) true tree = some (tree', true)) ∧
    Shares (twins true) [false] true :=
  ⟨⟨_, _, rfl, rfl⟩, false, by decide, by decide, implicitBitString (twins true true).format.chunks,
    by decide, by decide⟩

end DecodeNode

end Gensim.Generator
