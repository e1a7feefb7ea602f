import Mathlib.Data.List.TakeWhile
import Mathlib.Tactic
import Gensim.Generators.DecodePath

/-! Inserting a bit string keeps every path of a decode tree and adds at most one, so that the
tree of a list of instructions decodes the words that their bit strings match. -/
namespace Gensim.Generator

open BitPattern Isa

variable {ι : Type}

namespace DecodeNode

/-- `node'` has the paths of `node` and possibly the path of `insn` along `bits`. -/
structure Extends (insn : ι) (bits : List BitChar) (node node' : DecodeNode ι) : Prop where
  kept : ∀ p i, node.Path p i → node'.Path p i
  only : ∀ p i, node'.Path p i → node.Path p i ∨ p = bits ∧ i = insn

theorem Extends.refl (insn : ι) (bits : List BitChar) (node : DecodeNode ι) : Extends insn bits node node :=
  ⟨fun _ _ h => h, fun _ _ h => .inl h⟩

variable {bits : List BitChar}

theorem Extends.trans {insn : ι} {a b c : DecodeNode ι} (hFirst : Extends insn bits a b)
    (hSecond : Extends insn bits b c) : Extends insn bits a c where
  kept p i h := hSecond.kept p i (hFirst.kept p i h)
  only p i h := (hSecond.only p i h).elim (hFirst.only p i) .inr

variable {kid kid' : DecodeNode ι}

theorem Extends.skip {insn : ι} (h : Extends insn bits kid kid') (start length : Nat)
    (transitions : List (DecodeTransition ι)) :
    Extends insn (List.replicate length .any ++ bits) (.mk start none transitions (some (length, kid)))
      (.mk start none transitions (some (length, kid'))) where
  kept p i hPath := by
    cases hPath with
    | edge hMem hRest => exact .edge hMem hRest
    | skip hRest => exact .skip (h.kept _ _ hRest)
  only p i hPath := by
    cases hPath with
    | edge hMem hRest => exact .inl (.edge hMem hRest)
    | skip hRest =>
      rcases h.only _ _ hRest with hOld | ⟨rfl, rfl⟩
      · exact .inl (.skip hOld)
      · exact .inr ⟨rfl, rfl⟩

theorem Extends.edge {insn : ι} (h : Extends insn bits kid kid') (start length : Nat) (value : BitVec 32)
    (before after : List (DecodeTransition ι)) (unconstrained : Option (Nat × DecodeNode ι)) :
    Extends insn (constant length value ++ bits)
      (.mk start none (before ++ (length, value, kid) :: after) unconstrained)
      (.mk start none (before ++ (length, value, kid') :: after) unconstrained) where
  kept p i hPath := by
    cases hPath with
    | edge hMem hRest =>
      rcases List.mem_append.mp hMem with hBefore | hHere
      · exact .edge (List.mem_append_left _ hBefore) hRest
      rcases List.mem_cons.mp hHere with hEq | hAfter
      · cases hEq
        exact .edge (List.mem_append_right _ List.mem_cons_self) (h.kept _ _ hRest)
      · exact .edge (List.mem_append_right _ (List.mem_cons_of_mem _ hAfter)) hRest
    | skip hRest => exact .skip hRest
  only p i hPath := by
    cases hPath with
    | edge hMem hRest =>
      rcases List.mem_append.mp hMem with hBefore | hHere
      · exact .inl (.edge (List.mem_append_left _ hBefore) hRest)
      rcases List.mem_cons.mp hHere with hEq | hAfter
      · cases hEq
        rcases h.only _ _ hRest with hOld | ⟨rfl, rfl⟩
        · exact .inl (.edge (List.mem_append_right _ List.mem_cons_self) hOld)
        · exact .inr ⟨rfl, rfl⟩
      · exact .inl (.edge (List.mem_append_right _ (List.mem_cons_of_mem _ hAfter)) hRest)
    | skip hRest => exact .inl (.skip hRest)

/-- Breaking the unconstrained transition puts a node on it. -/
theorem extends_break (insn : ι) (bits : List BitChar) (start : Nat) {pos length : Nat}
    (hPos : pos < length) (kid : DecodeNode ι) (transitions : List (DecodeTransition ι)) :
    Extends insn bits (.mk start none transitions (some (length, kid))) (.mk start none transitions
        (some (pos, .mk (start + pos) none [] (some (length - pos, kid))))) := by
  have hReplicate : ∀ rest : List BitChar, List.replicate length .any ++ rest =
      List.replicate pos .any ++ (List.replicate (length - pos) .any ++ rest) := by
    intro rest
    rw [← List.append_assoc, List.replicate_append_replicate, Nat.add_sub_cancel' hPos.le]
  constructor
  · intro p i hPath
    cases hPath with
    | edge hMem hRest => exact .edge hMem hRest
    | skip hRest =>
      rw [hReplicate]
      exact .skip (.skip hRest)
  · intro p i hPath
    left
    cases hPath with
    | edge hMem hRest => exact .edge hMem hRest
    | skip hRest =>
      cases hRest with
      | edge hMem _ => exact absurd hMem List.not_mem_nil
      | skip hRest =>
        rw [← hReplicate]
        exact .skip hRest

variable {transitions : List (DecodeTransition ι)}

theorem mem_insertTransition {t u : DecodeTransition ι} :
    u ∈ insertTransition t transitions ↔ u = t ∨ u ∈ transitions := by
  rw [insertTransition, List.mem_append, List.mem_cons, or_left_comm, ← List.mem_append,
    List.takeWhile_append_dropWhile]

variable {t : DecodeTransition ι}

theorem pairwise_insertTransition {r : DecodeTransition ι → DecodeTransition ι → Prop} (hOld : transitions.Pairwise r)
    (hBefore : ∀ u ∈ transitions.takeWhile (·.1 ≤ t.1), r u t)
    (hAfter : ∀ u ∈ transitions.dropWhile (·.1 ≤ t.1), r t u) : (insertTransition t transitions).Pairwise r := by
  have hSplit : transitions.takeWhile (·.1 ≤ t.1) ++ transitions.dropWhile (·.1 ≤ t.1) =
      transitions := List.takeWhile_append_dropWhile
  rw [← hSplit, List.pairwise_append] at hOld
  obtain ⟨hTake, hDrop, hAcross⟩ := hOld
  rw [insertTransition, List.pairwise_append, List.pairwise_cons]
  refine ⟨hTake, ⟨hAfter, hDrop⟩, fun u hu v hv => ?_⟩
  rcases List.mem_cons.mp hv with rfl | hMem
  · exact hBefore u hu
  · exact hAcross u hu v hMem

theorem sorted_insertTransition (hSorted : transitions.Pairwise (·.1 ≤ ·.1)) :
    (insertTransition t transitions).Pairwise (·.1 ≤ ·.1) := by
  apply pairwise_insertTransition hSorted
  · intro u hMem
    simpa using List.mem_takeWhile_imp hMem
  · induction transitions with
    | nil => simp
    | cons a transitions ih =>
      obtain ⟨hHead, hTail⟩ := List.pairwise_cons.mp hSorted
      rw [List.dropWhile_cons]
      split
      · exact ih hTail
      · rename_i hLonger
        have hLt : t.1 < a.1 := by simpa using hLonger
        intro u hMem
        rcases List.mem_cons.mp hMem with rfl | hRest
        · exact hLt.le
        · exact hLt.le.trans (hHead u hRest)

theorem GoodEdges.insert {start : Nat} (h : GoodEdges start transitions)
    (hBounds : 1 ≤ t.1 ∧ start + t.1 ≤ 32 ∧ t.2.1.toNat < 2 ^ t.1)
    (hNew : ∀ u ∈ transitions, ¬ (u.1 = t.1 ∧ u.2.1 = t.2.1)) : GoodEdges start (insertTransition t transitions) where
  bounds u hMem := by
    rcases mem_insertTransition.mp hMem with rfl | hOld
    · exact hBounds
    · exact h.bounds u hOld
  sorted := sorted_insertTransition h.sorted
  distinct := by
    apply pairwise_insertTransition h.distinct
    · intro u hMem
      exact hNew u (List.takeWhile_subset _ hMem)
    · rintro u hMem ⟨hLength, hSame⟩
      exact hNew u (List.dropWhile_subset _ hMem) ⟨hLength.symm, hSame.symm⟩

variable {start length : Nat} {unconstrained : Option (Nat × DecodeNode ι)}

theorem Wf.setSkip {kid : DecodeNode ι} (h : Wf true start (.mk start none transitions unconstrained))
    (hPos : 1 ≤ length) (hKid : Wf true (start + length) kid) :
    Wf true start (.mk start none transitions (some (length, kid))) := by
  cases h with
  | inner hStart hEdges hPositive hKids hSkip =>
    refine .inner hStart hEdges ?_ hKids ?_
    · rintro _ _ - ⟨⟩
      exact hPos
    · rintro _ _ ⟨⟩
      exact hKid

theorem Wf.setEdge {value : BitVec 32} {before after : List (DecodeTransition ι)}
    (h : Wf true start (.mk start none (before ++ (length, value, kid) :: after) unconstrained))
    (hKid : Wf true (start + length) kid') :
    Wf true start (.mk start none (before ++ (length, value, kid') :: after) unconstrained) := by
  cases h with
  | inner hStart hEdges hPositive hKids hSkip =>
    have hMem : ∀ t ∈ before ++ (length, value, kid') :: after, t = (length, value, kid') ∨
        t ∈ before ++ (length, value, kid) :: after := by
      intro t ht
      simp only [List.mem_append, List.mem_cons] at ht ⊢
      tauto
    -- lengths and values are the old ones
    refine .inner hStart ⟨?_, ?_, ?_⟩ hPositive ?_ hSkip
    · intro t ht
      rcases hMem t ht with rfl | hOld
      · exact hEdges.bounds (length, value, kid) (by simp)
      · exact hEdges.bounds t hOld
    · simpa [List.pairwise_append, List.pairwise_cons] using hEdges.sorted
    · simpa [List.pairwise_append, List.pairwise_cons] using hEdges.distinct
    · intro t ht
      rcases hMem t ht with rfl | hOld
      · exact hKid
      · exact hKids t hOld

theorem Wf.insertEdge {value : BitVec 32} {kid : DecodeNode ι}
    (h : Wf true start (.mk start none transitions unconstrained)) (hPos : 1 ≤ length)
    (hValue : value.toNat < 2 ^ length) (hNew : ∀ t ∈ transitions, ¬ (t.1 = length ∧ t.2.1 = value))
    (hKid : Wf true (start + length) kid) : Wf true start
      (.mk start none (insertTransition (length, value, kid) transitions) unconstrained) := by
  cases h with
  | inner hStart hEdges hPositive hKids hSkip =>
    refine .inner hStart (hEdges.insert ⟨hPos, hKid.start_le, hValue⟩ hNew) hPositive ?_ hSkip
    intro t ht
    rcases mem_insertTransition.mp ht with rfl | hOld
    · exact hKid
    · exact hKids t hOld

end DecodeNode

variable {str : BitString}

/-- The prefix is the longest run of one kind of character: all `x`, or no `x`. -/
theorem getPrefix_spec {start : Nat} (hStart : start < str.length) : getPrefix str start ≠ [] ∧
      str.drop start = getPrefix str start ++ str.drop (start + (getPrefix str start).length) ∧
      (if (getPrefix str start).head? = some .any then ∀ c ∈ getPrefix str start, c = .any
        else BitChar.any ∉ getPrefix str start) := by
  have hDrop : ∀ q : BitChar → Bool, str.drop start = (str.drop start).takeWhile q ++
      str.drop (start + ((str.drop start).takeWhile q).length) := by
    intro q
    have hSplit : str.drop start = (str.drop start).takeWhile q ++ (str.drop start).dropWhile q :=
      List.takeWhile_append_dropWhile.symm
    have hRest := (congrArg (List.drop ((str.drop start).takeWhile q).length) hSplit).trans List.drop_left
    rw [← List.drop_drop, hRest]
    exact hSplit
  obtain ⟨c, rest, hCons⟩ : ∃ c rest, str.drop start = c :: rest := List.exists_cons_of_ne_nil (by simpa using hStart)
  have hHead : str[start]? = some c := by
    rw [← List.head?_drop, hCons]
    rfl
  unfold getPrefix
  rw [hHead]
  split
  · rename_i hAny
    obtain rfl : c = .any := by simpa using hAny
    refine ⟨by simp [hCons], hDrop _, ?_⟩
    rw [if_pos (by simp [hCons])]
    intro c hMem
    simpa using List.mem_takeWhile_imp hMem
  · rename_i hFixed
    have hNe : c ≠ .any := by simpa using hFixed
    refine ⟨by simp [hCons, hNe], hDrop _, ?_⟩
    rw [if_neg (by simp [hCons, hNe])]
    intro hMem
    simpa using List.mem_takeWhile_imp hMem

theorem getPrefix_end_le {start : Nat} (hStart : start < str.length) :
    start + (getPrefix str start).length ≤ str.length := by
  have hLength := congrArg List.length (getPrefix_spec hStart).2.1
  simp only [List.length_append, List.length_drop] at hLength
  omega

/-- A part of a run of don't-cares is skipped just as well. -/
theorem drop_eq_replicate_append {start : Nat} (hStart : start < str.length)
    (hHead : (getPrefix str start).head? = some .any) {length : Nat} (hLe : length ≤ (getPrefix str start).length) :
    str.drop start = List.replicate length .any ++ str.drop (start + length) := by
  obtain ⟨-, hDrop, hAny⟩ := getPrefix_spec hStart
  rw [if_pos hHead] at hAny
  generalize getPrefix str start = pre at hDrop hAny hLe
  have hReplicate : pre = List.replicate pre.length .any := List.eq_replicate_of_mem hAny
  rw [← List.drop_drop, hDrop, hReplicate, List.drop_append_of_le_length (by simpa using hLe),
    List.drop_replicate, ← List.append_assoc, List.replicate_append_replicate,
    Nat.add_sub_cancel' hLe, List.length_replicate]

namespace DecodeNode

section Construction

variable {descriptions : ι → InstructionDescription} {insn : ι} {start : Nat}

section

variable (hLength : (descriptions insn).format.getLength = 32)
include hLength

theorem create_wf (hStart : start ≤ 32) : Wf true start (create descriptions (some insn) start) := by
  simp only [create, hLength]
  split
  · rename_i hEq
    subst hEq
    exact .leaf insn
  · exact .inner (by omega) ⟨by simp, .nil, .nil⟩ (by simp) (by simp) (by simp)

theorem create_path {p : List BitChar} {i : ι} (hPath : (create descriptions (some insn) start).Path p i) :
    start = 32 ∧ p = [] ∧ i = insn := by
  simp only [create, hLength] at hPath
  split at hPath
  · rename_i hEq
    cases hPath with
    | leaf => exact ⟨hEq, rfl, rfl⟩
  · cases hPath with
    | edge hMem _ => exact absurd hMem List.not_mem_nil

/-- A fresh node behind a new edge has at most the path that ends there. -/
theorem extends_fresh {bits pre : List BitChar} (hBits : bits.length = 32)
    (hDrop : bits.drop start = pre ++ bits.drop (start + pre.length)) {node node' : DecodeNode ι}
    (hKept : ∀ p i, node.Path p i → node'.Path p i)
    (hNew : ∀ p i, node'.Path p i → node.Path p i ∨
      ∃ rest, (create descriptions (some insn) (start + pre.length)).Path rest i ∧ p = pre ++ rest) :
    Extends insn (bits.drop start) node node' := by
  refine ⟨hKept, fun p i hPath => ?_⟩
  rcases hNew p i hPath with hOld | ⟨rest, hRest, rfl⟩
  · exact .inl hOld
  · obtain ⟨hEnd, rfl, rfl⟩ := create_path hLength hRest
    right
    rw [hDrop, hEnd, ← hBits, List.drop_length]
    exact ⟨rfl, rfl⟩

end

variable {unconstrained : Option (Nat × DecodeNode ι)}

theorem extends_insert (hLength : (descriptions insn).format.getLength = 32) {bits pre : List BitChar}
    (hBits : bits.length = 32) {value : BitVec 32} (hDrop : bits.drop start = pre ++ bits.drop (start + pre.length))
    (hConstant : constant pre.length value = pre) {transitions : List (DecodeTransition ι)} :
    Extends insn (bits.drop start) (.mk start none transitions unconstrained) (.mk start none
        (insertTransition (pre.length, value,
          create descriptions (some insn) (start + pre.length)) transitions) unconstrained) := by
  apply extends_fresh hLength hBits hDrop
  · intro p i hPath
    cases hPath with
    | edge hMem hRest => exact .edge (mem_insertTransition.mpr (.inr hMem)) hRest
    | skip hRest => exact .skip hRest
  · intro p i hPath
    cases hPath with
    | edge hMem hRest =>
      rcases mem_insertTransition.mp hMem with hNew | hOld
      · cases hNew
        exact .inr ⟨_, hRest, by rw [hConstant]⟩
      · exact .inl (.edge hOld hRest)
    | skip hRest => exact .inl (.skip hRest)

/-- What inserting a bit string at a node does; a conflict is only reported on a path of
don't-cares that another instruction ends. -/
structure Added (insn : ι) (bits : BitString) (start : Nat) (node node' : DecodeNode ι)
    (success : Bool) : Prop where
  wf : Wf true start node'
  extended : Extends insn (bits.drop start) node node'
  reached : ∃ i, node'.Path (bits.drop start) i
  conflict : success = false →
    (∀ c ∈ bits.drop start, c = .any) ∧ ∃ i, i ≠ insn ∧ node.Path (bits.drop start) i

variable {bits : BitString} {success : Bool}

theorem Added.skip {start length : Nat} {node kid kid' : DecodeNode ι} {transitions : List (DecodeTransition ι)}
    (h : Added insn bits (start + length) kid kid' success)
    (hDrop : bits.drop start = List.replicate length .any ++ bits.drop (start + length))
    (hWf : Wf true start (.mk start none transitions unconstrained)) (hPos : 1 ≤ length)
    (hBase : Extends insn (bits.drop start) node (.mk start none transitions (some (length, kid)))) :
    Added insn bits start node (.mk start none transitions (some (length, kid'))) success where
  wf := hWf.setSkip hPos h.wf
  extended := by
    refine hBase.trans ?_
    rw [hDrop]
    exact h.extended.skip start length transitions
  reached := by
    obtain ⟨i, hPath⟩ := h.reached
    rw [hDrop]
    exact ⟨i, .skip hPath⟩
  conflict hFailed := by
    obtain ⟨hAny, i, hNe, hPath⟩ := h.conflict hFailed
    refine ⟨fun c hMem => ?_, i, hNe, ?_⟩
    · rw [hDrop] at hMem
      exact (List.mem_append.mp hMem).elim List.eq_of_mem_replicate (hAny c)
    · rw [hDrop] at hBase ⊢
      exact (hBase.only _ _ (.skip hPath)).resolve_right fun hNew => hNe hNew.2

theorem Added.edge {start length : Nat} {value : BitVec 32} {node kid kid' : DecodeNode ι}
    {before after : List (DecodeTransition ι)} (h : Added insn bits (start + length) kid kid' success)
    (hDrop : bits.drop start = constant length value ++ bits.drop (start + length))
    (hWf : Wf true start (.mk start none (before ++ (length, value, kid') :: after) unconstrained))
    (hBase : Extends insn (bits.drop start) node
      (.mk start none (before ++ (length, value, kid) :: after) unconstrained)) : Added insn bits start node
      (.mk start none (before ++ (length, value, kid') :: after) unconstrained) true where
  wf := hWf
  extended := by
    refine hBase.trans ?_
    rw [hDrop]
    exact h.extended.edge start length value before after unconstrained
  reached := by
    obtain ⟨i, hPath⟩ := h.reached
    rw [hDrop]
    exact ⟨i, .edge (List.mem_append_right _ List.mem_cons_self) hPath⟩
  conflict hFailed := absurd hFailed (by decide)

/-- Below a fresh node no other instruction stands in the way. -/
theorem Added.success_of_fresh (hLength : (descriptions insn).format.getLength = 32) {kid' : DecodeNode ι}
    (h : Added insn bits start (create descriptions (some insn) start) kid' success) : success = true := by
  by_contra hFailed
  obtain ⟨-, i, hNe, hPath⟩ := h.conflict (by simpa using hFailed)
  exact hNe (create_path hLength hPath).2.2

section Step

/-! One call at an inner node, given what the recursive call does. -/

variable [DecidableEq ι] {insn : ι} {bits : BitString} {fuel start : Nat}
  {transitions : List (DecodeTransition ι)} {unconstrained : Option (Nat × DecodeNode ι)}

/-- The call at `node` returns, and inserts the bit string. -/
def Inserts (descriptions : ι → InstructionDescription) (insn : ι) (bits : BitString) (fuel start : Nat)
    (node : DecodeNode ι) : Prop :=
  ∃ node' success, addBitString descriptions insn bits fuel node = some (node', success) ∧
    Added insn bits start node node' success

section

variable (hLength : (descriptions insn).format.getLength = 32)
include hLength

theorem inserts_unconstrained (hBits : bits.length = 32)
    (hRec : ∀ next node, start < next → Wf true next node → Inserts descriptions insn bits fuel next node)
    (hWf : Wf true start (.mk start none transitions unconstrained)) (hStart : start < 32)
    (hHead : (getPrefix bits start).head? = some .any) : Inserts descriptions insn bits (fuel + 1) start
      (.mk start none transitions unconstrained) := by
  obtain ⟨hNonempty, hDrop, hAny⟩ := getPrefix_spec (hStart.trans_eq hBits.symm)
  have hEnd := hBits ▸ getPrefix_end_le (hStart.trans_eq hBits.symm)
  have hShorter : ∀ length ≤ (getPrefix bits start).length,
      bits.drop start = List.replicate length .any ++ bits.drop (start + length) :=
    fun length hLe => drop_eq_replicate_append (hStart.trans_eq hBits.symm) hHead hLe
  rw [if_pos hHead] at hAny
  set pre := getPrefix bits start with hPre
  have hPos : 1 ≤ pre.length := List.length_pos_iff.mpr hNonempty
  have hReplicate : pre = List.replicate pre.length .any := List.eq_replicate_of_mem hAny
  have hInner : start ≠ bits.length := by omega
  simp only [Inserts, addBitString, if_neg hInner, ← hPre, hHead, if_true]
  cases unconstrained with
  | none =>
    obtain ⟨kid', success, hEq, hAdded⟩ := hRec (start + pre.length) _ (by omega)
      (create_wf hLength hEnd)
    refine ⟨_, success, by simp only [hEq]; rfl, ?_⟩
    apply hAdded.skip (hShorter _ le_rfl) hWf hPos
    apply extends_fresh hLength hBits hDrop
    · intro p i hPath
      cases hPath with
      | edge hMem hRest => exact .edge hMem hRest
    · intro p i hPath
      cases hPath with
      | edge hMem hRest => exact .inl (.edge hMem hRest)
      | skip hRest => exact .inr ⟨_, hRest, by rw [← hReplicate]⟩
  | some skipped =>
    obtain ⟨length, kid⟩ := skipped
    cases hWf with
    | inner _ hEdges hPositive hKids hSkip =>
    have hOld := hPositive length kid rfl rfl
    have hKid := hSkip length kid rfl
    have hNode : Wf true start (.mk start none transitions (some (length, kid))) :=
      .inner hStart hEdges hPositive hKids hSkip
    by_cases hLe : length ≤ pre.length
    · obtain ⟨kid', success, hEq, hAdded⟩ := hRec (start + length) kid (by omega) hKid
      refine ⟨_, success, by simp only [if_pos hLe, hEq]; rfl, ?_⟩
      exact hAdded.skip (hShorter _ hLe) hNode hOld (.refl ..)
    · have hMiddle : Wf true (start + pre.length)
          (.mk (start + pre.length) none [] (some (length - pre.length, kid))) := by
        have := hKid.start_le
        refine .inner (by omega) ⟨by simp, .nil, .nil⟩ ?_ (by simp) ?_
        · rintro _ _ - ⟨⟩
          omega
        · rintro _ _ ⟨⟩
          rwa [Nat.add_assoc, Nat.add_sub_cancel' (by omega)]
      obtain ⟨kid', success, hEq, hAdded⟩ := hRec (start + pre.length) _ (by omega) hMiddle
      refine ⟨_, success, by simp only [if_neg hLe, breakUnconstrainedTransition, hEq]; rfl, ?_⟩
      exact hAdded.skip (hShorter _ le_rfl) hNode hPos (extends_break insn _ start (by omega) kid transitions)

theorem inserts_constrained (hBits : bits.length = 32)
    (hRec : ∀ next node, start < next → Wf true next node → Inserts descriptions insn bits fuel next node)
    (hWf : Wf true start (.mk start none transitions unconstrained)) (hStart : start < 32)
    (hHead : (getPrefix bits start).head? ≠ some .any) : Inserts descriptions insn bits (fuel + 1) start
      (.mk start none transitions unconstrained) := by
  obtain ⟨hNonempty, hDrop, hFixed⟩ := getPrefix_spec (hStart.trans_eq hBits.symm)
  have hEnd := hBits ▸ getPrefix_end_le (hStart.trans_eq hBits.symm)
  rw [if_neg hHead] at hFixed
  set pre := getPrefix bits start with hPre
  have hPos : 1 ≤ pre.length := List.length_pos_iff.mpr hNonempty
  have hConstant : constant pre.length (Util.parseBinary pre) = pre := Util.constant_parseBinary (by omega) hFixed
  have hDropConstant : bits.drop start =
      constant pre.length (Util.parseBinary pre) ++ bits.drop (start + pre.length) := by
    rw [hConstant]
    exact hDrop
  have hInner : start ≠ bits.length := by omega
  simp only [Inserts, addBitString, if_neg hInner, ← hPre, if_neg hHead, List.span_eq_takeWhile_dropWhile]
  have hSplit := List.takeWhile_append_dropWhile
    (p := fun t : DecodeTransition ι => !(t.1 == pre.length && t.2.1 == Util.parseBinary pre))
    (l := transitions)
  have hFirst := List.head?_dropWhile_not
    (fun t : DecodeTransition ι => !(t.1 == pre.length && t.2.1 == Util.parseBinary pre))
    transitions
  cases hRest : transitions.dropWhile (fun t => !(t.1 == pre.length && t.2.1 == Util.parseBinary pre)) with
  | cons t after =>
    -- an edge with this length and value exists
    obtain ⟨length, value, kid⟩ := t
    rw [hRest] at hSplit hFirst
    obtain ⟨rfl, rfl⟩ : length = pre.length ∧ value = Util.parseBinary pre := by
      simpa using hFirst
    rw [← hSplit] at hWf
    have hKid : Wf true (start + pre.length) kid := by
      cases hWf with
      | inner _ _ _ hKids _ => exact hKids (_, _, kid) (List.mem_append_right _ List.mem_cons_self)
    obtain ⟨kid', success, hEq, hAdded⟩ := hRec (start + pre.length) kid (by omega) hKid
    refine ⟨_, true, by simp only [hEq]; rfl, ?_⟩
    refine hAdded.edge hDropConstant (hWf.setEdge hAdded.wf) ?_
    rw [hSplit]
    exact .refl ..
  | nil =>
    have hNone : ∀ t ∈ transitions, ¬ (t.1 = pre.length ∧ t.2.1 = Util.parseBinary pre) := by
      intro t hMem
      have hDiffers := List.dropWhile_eq_nil_iff.mp hRest t hMem
      rintro ⟨hSame, hValue⟩
      simp [hSame, hValue] at hDiffers
    obtain ⟨kid', success, hEq, hAdded⟩ := hRec (start + pre.length) _ (by omega)
      (create_wf hLength hEnd)
    obtain rfl := hAdded.success_of_fresh hLength
    refine ⟨_, true, by simp only [hEq]; rfl, ?_⟩
    exact hAdded.edge hDropConstant (hWf.insertEdge hPos (Util.parseBinary_lt (by omega)) hNone hAdded.wf)
      (extends_insert hLength hBits hDrop hConstant)

theorem addBitString_spec (hBits : bits.length = 32) {node : DecodeNode ι} (hWf : Wf true start node)
    (hFuel : 32 - start < fuel) : Inserts descriptions insn bits fuel start node := by
  induction fuel generalizing start node with
  | zero => omega
  | succ fuel ih =>
    have hNode := hWf
    cases hWf with
    | leaf i =>
      have hDrop : bits.drop 32 = [] := List.drop_eq_nil_of_le hBits.le
      refine ⟨_, _, by rw [addBitString, if_pos hBits.symm], hNode, .refl .., ⟨i, ?_⟩, ?_⟩
      · rw [hDrop]
        exact .leaf
      · intro hFailed
        rw [hDrop]
        refine ⟨by simp, i, ?_, .leaf⟩
        simpa using hFailed
    | @inner _ transitions unconstrained hStart hEdges hPositive hKids hSkip =>
      have hRec : ∀ next node, start < next → Wf true next node → Inserts descriptions insn bits fuel next node := by
        intro next node hLt hNext
        have := hNext.start_le
        exact ih hNext (by omega)
      by_cases hHead : (getPrefix bits start).head? = some .any
      · exact inserts_unconstrained hLength hBits hRec hNode hStart hHead
      · exact inserts_constrained hLength hBits hRec hNode hStart hHead

end

end Step

/-! The tree of a list of instructions. -/

section Tree

variable [DecidableEq ι]

/-- A path of the tree matches whatever the bit string matches. -/
def Covers (tree : DecodeNode ι) (bits : BitString) : Prop :=
  ∃ p i, tree.Path p i ∧ (p = bits ∨ ∀ c ∈ p, c = .any)

structure Built (descriptions : ι → InstructionDescription) (insns : List ι)
    (tree : DecodeNode ι) : Prop where
  wf : Wf true 0 tree
  sound : ∀ p i, tree.Path p i → i ∈ insns ∧ p ∈ (descriptions i).bitStrings
  complete : ∀ i ∈ insns, ∀ bits ∈ (descriptions i).bitStrings, tree.Covers bits

omit [DecidableEq ι] in
theorem Covers.mono {tree tree' : DecodeNode ι} {bits : BitString} (h : tree.Covers bits)
    (hKept : ∀ p i, tree.Path p i → tree'.Path p i) : tree'.Covers bits := by
  obtain ⟨p, i, hPath, hBits⟩ := h
  exact ⟨p, i, hKept p i hPath, hBits⟩

theorem addBitStrings_spec {insn : ι} (hLength : (descriptions insn).format.getLength = 32)
    {bitStrings : List BitString} (hBits : ∀ b ∈ bitStrings, b.length = 32) {tree : DecodeNode ι}
    (hWf : Wf true 0 tree) : ∃ tree' success, addBitStrings descriptions insn bitStrings tree = some (tree', success) ∧
      Wf true 0 tree' ∧ (∀ p i, tree.Path p i → tree'.Path p i) ∧
      (∀ p i, tree'.Path p i → tree.Path p i ∨ p ∈ bitStrings ∧ i = insn) ∧ ∀ b ∈ bitStrings, tree'.Covers b := by
  induction bitStrings generalizing tree with
  | nil => exact ⟨tree, true, rfl, hWf, fun _ _ h => h, fun _ _ h => .inl h, by simp⟩
  | cons bits bitStrings ih =>
    have hLen := hBits bits List.mem_cons_self
    have hFuel : 32 - 0 < bits.length + 1 := by omega
    obtain ⟨tree', success, hEq, hAdded⟩ := addBitString_spec hLength hLen hWf hFuel
    obtain ⟨i, hReached⟩ := hAdded.reached
    have hOnly : ∀ p i, tree'.Path p i → tree.Path p i ∨ p = bits ∧ i = insn := hAdded.extended.only
    simp only [addBitStrings, hEq, Option.bind_eq_bind, Option.bind_some]
    cases success with
    | true =>
      obtain ⟨tree'', success', hEq', hWf', hKept, hOnly', hCovers⟩ :=
        ih (fun b hMem => hBits b (List.mem_cons_of_mem _ hMem)) hAdded.wf
      refine ⟨tree'', success', by simpa using hEq', hWf',
        fun p i h => hKept p i (hAdded.extended.kept p i h), ?_, ?_⟩
      · intro p i h
        rcases hOnly' p i h with hPath | ⟨hMem, rfl⟩
        · rcases hOnly p i hPath with hOld | ⟨rfl, rfl⟩
          · exact .inl hOld
          · exact .inr ⟨List.mem_cons_self, rfl⟩
        · exact .inr ⟨List.mem_cons_of_mem _ hMem, rfl⟩
      · intro b hMem
        rcases List.mem_cons.mp hMem with rfl | hRest
        · exact ⟨_, i, hKept _ i hReached, .inl rfl⟩
        · exact hCovers b hRest
    | false =>
      -- the remaining bit strings are left out, but the conflicting path matches every word
      have hAny := (hAdded.conflict rfl).1
      refine ⟨tree', false, by simp, hAdded.wf, hAdded.extended.kept, ?_, ?_⟩
      · intro p i h
        rcases hOnly p i h with hOld | ⟨rfl, rfl⟩
        · exact .inl hOld
        · exact .inr ⟨List.mem_cons_self, rfl⟩
      · intro b _
        exact ⟨_, i, hReached, .inr hAny⟩

theorem addInstruction_spec {insns : List ι} {insn : ι}
    (hLength : (descriptions insn).format.getLength = 32) (hReturns : (descriptions insn).Returns)
    {tree : DecodeNode ι} (hBuilt : Built descriptions insns tree) :
    ∃ tree', (addInstruction descriptions insn tree).map Prod.fst = some tree' ∧
      Built descriptions (insns ++ [insn]) tree' := by
  obtain ⟨tree', success, hEq, hWf, hKept, hOnly, hCovers⟩ := addBitStrings_spec hLength
    (fun b hMem => (bitStrings_length hMem).trans hLength) hBuilt.wf
  refine ⟨tree', by rw [addInstruction, getBitString_of_returns hReturns, Option.bind_some, hEq]; rfl, hWf, ?_, ?_⟩
  · intro p i hPath
    rcases hOnly p i hPath with hOld | ⟨hMem, rfl⟩
    · obtain ⟨hi, hp⟩ := hBuilt.sound p i hOld
      exact ⟨List.mem_append_left _ hi, hp⟩
    · exact ⟨by simp, hMem⟩
  · intro i hi b hb
    rcases List.mem_append.mp hi with hOld | hNew
    · exact (hBuilt.complete i hOld b hb).mono hKept
    · obtain rfl := List.mem_singleton.mp hNew
      exact hCovers b hb

theorem build_spec {first : ι} {rest : List ι}
    (hFormats : ∀ i ∈ first :: rest, (descriptions i).format.getLength = 32)
    (hReturns : ∀ i ∈ first :: rest, (descriptions i).Returns) :
    ∃ tree, build descriptions first rest = some tree ∧ Built descriptions (first :: rest) tree := by
  have hFirst := hFormats first List.mem_cons_self
  have hEmpty : Built descriptions [] (create descriptions (some first) 0) := by
    refine ⟨create_wf hFirst (by decide), fun p i hPath => ?_, by simp⟩
    exact absurd (create_path hFirst hPath).1 (by decide)
  obtain ⟨tree, hCreate, hTree⟩ := addInstruction_spec hFirst (hReturns first List.mem_cons_self) hEmpty
  suffices h : ∀ (insns : List ι) (done : List ι) (tree : DecodeNode ι),
      (∀ i ∈ insns, (descriptions i).format.getLength = 32) → (∀ i ∈ insns, (descriptions i).Returns) →
      Built descriptions done tree →
      ∃ tree', insns.foldlM (fun tree insn => (addInstruction descriptions insn tree).map Prod.fst)
        tree = some tree' ∧ Built descriptions (done ++ insns) tree' by
    obtain ⟨tree', hFold, hBuilt⟩ := h rest [first] tree (fun i hi => hFormats i (List.mem_cons_of_mem _ hi))
      (fun i hi => hReturns i (List.mem_cons_of_mem _ hi)) hTree
    refine ⟨tree', ?_, hBuilt⟩
    rw [build, createTree, hCreate]
    exact hFold
  intro insns
  induction insns with
  | nil =>
    intro done tree _ _ hBuilt
    exact ⟨tree, rfl, by rwa [List.append_nil]⟩
  | cons insn insns ih =>
    intro done tree hFormats hReturns hBuilt
    obtain ⟨next, hAdd, hNext⟩ :=
      addInstruction_spec (hFormats insn List.mem_cons_self) (hReturns insn List.mem_cons_self) hBuilt
    obtain ⟨tree', hFold, hTree⟩ := ih (done ++ [insn]) next (fun i hi => hFormats i (List.mem_cons_of_mem _ hi))
      (fun i hi => hReturns i (List.mem_cons_of_mem _ hi)) hNext
    refine ⟨tree', ?_, by simpa using hTree⟩
    rw [List.foldlM_cons, hAdd]
    exact hFold

end Tree

end Construction

end DecodeNode

/-- The word matches one of the bit strings of the instruction. -/
def MatchesInstruction (descriptions : ι → InstructionDescription) (word : BitVec 32) (insn : ι) :
    Prop :=
  ∃ bits ∈ (descriptions insn).bitStrings, matchesFrom word 0 bits = true

instance (descriptions : ι → InstructionDescription) (word : BitVec 32) (insn : ι) :
    Decidable (MatchesInstruction descriptions word insn) :=
  inferInstanceAs (Decidable (∃ bits ∈ (descriptions insn).bitStrings, matchesFrom word 0 bits = true))

namespace DecodeNode

variable {descriptions : ι → InstructionDescription}

theorem Built.matches_of_decode {insns : List ι} {tree : DecodeNode ι}
    (h : Built descriptions insns tree) {word : BitVec 32} {found : DecodedInstruction ι}
    (hFound : decode descriptions word tree = some found) :
    found.insn ∈ insns ∧ MatchesInstruction descriptions word found.insn := by
  have hDecodes : Decodes descriptions word 0 tree.Path (decode descriptions word tree) := decode_spec h.wf word
  rw [hFound] at hDecodes
  obtain ⟨bits, insn, hPath, hMatch, rfl⟩ := hDecodes
  obtain ⟨hMem, hBits⟩ := h.sound bits insn hPath
  exact ⟨hMem, bits, hBits, hMatch⟩

theorem Built.decode_isSome_iff {insns : List ι} {tree : DecodeNode ι}
    (h : Built descriptions insns tree) (word : BitVec 32) : (decode descriptions word tree).isSome = true ↔
      ∃ insn ∈ insns, MatchesInstruction descriptions word insn := by
  constructor
  · intro hSome
    obtain ⟨found, hFound⟩ := Option.isSome_iff_exists.mp hSome
    exact ⟨found.insn, h.matches_of_decode hFound⟩
  · rintro ⟨insn, hMem, bits, hBits, hMatch⟩
    obtain ⟨p, i, hPath, hCase⟩ := h.complete insn hMem bits hBits
    have hPathMatch : matchesFrom word 0 p = true := by
      rcases hCase with rfl | hAny
      · exact hMatch
      · exact matchesFrom_of_all_any word 0 hAny
    have hDecodes : Decodes descriptions word 0 tree.Path (decode descriptions word tree) := decode_spec h.wf word
    cases hResult : decode descriptions word tree with
    | some found => rfl
    | none =>
      rw [hResult] at hDecodes
      rw [hDecodes p i hPath] at hPathMatch
      exact absurd hPathMatch (by decide)

/-- Whatever the order of insertion, a word decodes exactly when it matches a bit string of
an inserted instruction, and then to such an instruction. The bit strings of every instruction
have to be computed: a tree is not built where `ConstrainChunk` throws. -/
theorem decode_build [DecidableEq ι] (descriptions : ι → InstructionDescription) (first : ι)
    (rest : List ι) (hFormats : ∀ i ∈ first :: rest, (descriptions i).format.getLength = 32)
    (hReturns : ∀ i ∈ first :: rest, (descriptions i).Returns) :
    ∃ tree, build descriptions first rest = some tree ∧ ∀ word : BitVec 32,
      ((decode descriptions word tree).isSome = true ↔
        ∃ insn ∈ first :: rest, MatchesInstruction descriptions word insn) ∧
      ∀ found, decode descriptions word tree = some found →
        found.insn ∈ first :: rest ∧ MatchesInstruction descriptions word found.insn := by
  obtain ⟨tree, hBuild, hBuilt⟩ := build_spec hFormats hReturns
  exact ⟨tree, hBuild, fun word => ⟨hBuilt.decode_isSome_iff word,
    fun found hFound => hBuilt.matches_of_decode hFound⟩⟩

/-- A format with a constrained first byte, and one that constrains the second four bits. -/
def byteAndNibble (nibble : Bool) : InstructionDescription :=
  if nibble then
    { format := ⟨[⟨"cond", false, 4, 0⟩, ⟨"op", false, 4, 0⟩, ⟨"rest", false, 24, 0⟩]⟩
      decodeConstraints := [[⟨"op", .equals, 3⟩]] }
  else
    { format := ⟨[⟨"Static Constrainment", true, 8, 0x12⟩, ⟨"rest", false, 24, 0⟩]⟩
      decodeConstraints := [] }

theorem decode_build_byteAndNibble :
    (∀ i ∈ [false, true], (byteAndNibble i).format.getLength = 32) ∧
      ∃ tree, build byteAndNibble false [true] = some tree ∧
        (decode byteAndNibble 0x73000000 tree).isSome = true := by
  refine ⟨by decide, ?_⟩
  obtain ⟨tree, hBuild, hDecode⟩ := decode_build byteAndNibble false [true] (by decide) (by decide)
  exact ⟨tree, hBuild, (hDecode 0x73000000).1.mpr ⟨true, by decide, by decide⟩⟩

end DecodeNode

end Gensim.Generator
