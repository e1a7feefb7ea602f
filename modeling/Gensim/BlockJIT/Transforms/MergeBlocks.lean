import Gensim.BlockJIT.Transforms.SortIR
import Gensim.BlockJIT.Trace

/-! `MergeBlocksTransform`: a block that ends in a jump absorbs the target when
nothing else jumps there. The jump is deleted and the target's instructions
are relabelled in place; a LIFO list of candidates lets a block absorb a whole
chain. -/
namespace Gensim.BlockJIT.MergeBlocks

open BlockProgram StableSort

/-! ### The transform -/

/-- Relabel the instructions of `source` that follow the deleted jump. -/
def relabel (source target : Nat) (insn : IRInstruction) : IRInstruction :=
  if insn.irBlock = nopBlock then insn
  else if insn.irBlock = source then { insn with irBlock := target }
  else insn

/-- Delete the first jump of `target`, then relabel. Without a jump nothing
changes. -/
def moveBlock (source target : Nat) : List IRInstruction → List IRInstruction
  | [] => []
  | insn :: rest =>
      if insn.irBlock = target ∧ insn.type = .jmp then
        insn.makeNop :: rest.map (relabel source target)
      else insn :: moveBlock source target rest

def mergeBlock (insns : List IRInstruction) (source target : Nat) : Option (List IRInstruction) :=
  if source < target then none else some (moveBlock source target insns)

/-- What the transform collects about jumps: the candidates with the last one
first, the successor of each block that ends in a jump, and the number of
edges into each block. -/
structure Edges where
  workList : List Nat
  succs : Nat → Nat
  predCount : Nat → Nat

def count (target : Nat) (predCount : Nat → Nat) : Nat → Nat :=
  Function.update predCount target (predCount target + 1)

def visit (edges : Edges) (insn : IRInstruction) : Edges :=
  if insn.irBlock = nopBlock then edges
  else
    match insn.type with
    | .jmp =>
        { workList := insn.irBlock :: edges.workList
          succs := Function.update edges.succs insn.irBlock (insn.operand 0).blockId
          predCount := count (insn.operand 0).blockId edges.predCount }
    | .branch =>
        { edges with
          predCount := count (insn.operand 2).blockId
            (count (insn.operand 1).blockId edges.predCount) }
    | _ => edges

def identify (insns : List IRInstruction) : Edges :=
  insns.foldl visit ⟨[], fun _ => invalidBlockId, fun _ => 0⟩

/-- The work-list loop. A cyclic graph can keep it running, so it is given a
number of iterations. -/
def mergeLoop (predCount : Nat → Nat) :
    Nat → List Nat → (Nat → Nat) → List IRInstruction → Option (List IRInstruction)
  | _, [], _, insns => some insns
  | 0, _ :: _, _, _ => none
  | fuel + 1, block :: workList, succs, insns =>
      let successor := succs block
      if predCount successor ≠ 1 then mergeLoop predCount fuel workList succs insns
      else
        match mergeBlock insns successor block with
        | none => mergeLoop predCount fuel workList succs insns
        | some insns =>
            let succs := Function.update succs block (succs successor)
            let workList := if succs block ≠ invalidBlockId then block :: workList else workList
            mergeLoop predCount fuel workList succs insns

def apply (fuel : Nat) (ctx : TranslationContext) : Option TranslationContext :=
  let sorted := SortIR.apply ctx
  let edges := identify sorted.insns
  (mergeLoop edges.predCount fuel edges.workList edges.succs sorted.insns).map
    fun insns => { sorted with insns }

/-! ### What is collected about jumps -/

def isJump (insn : IRInstruction) : Bool := insn.irBlock ≠ nopBlock && insn.type = .jmp

/-- Target of the jump of a block, if it has one. -/
def jumpOf (insns : List IRInstruction) (block : Nat) : Option Nat :=
  (insns.reverse.find? fun insn => isJump insn && insn.irBlock = block).map
    fun insn => (insn.operand 0).blockId

/-- All edges of the graph, by their target. -/
def edgeTargets (insns : List IRInstruction) : List Nat :=
  (insns.filter fun insn => insn.irBlock ≠ nopBlock).flatMap targets

theorem identify_append (insns : List IRInstruction) (insn : IRInstruction) :
    identify (insns ++ [insn]) = visit (identify insns) insn := by
  rw [identify, List.foldl_append]
  rfl

theorem identify_workList (insns : List IRInstruction) :
    (identify insns).workList = ((insns.filter isJump).map (·.irBlock)).reverse := by
  induction insns using List.reverseRecOn with
  | nil => rfl
  | append_singleton insns insn ih =>
    rw [identify_append, List.filter_append, List.map_append, List.reverse_append, ← ih, visit]
    by_cases hNop : insn.irBlock = nopBlock
    · simp [hNop, isJump]
    · rw [if_neg hNop]
      cases hType : insn.type <;> simp [hNop, hType, isJump]

theorem identify_succs (insns : List IRInstruction) (block : Nat) :
    (identify insns).succs block = (jumpOf insns block).getD invalidBlockId := by
  induction insns using List.reverseRecOn with
  | nil => rfl
  | append_singleton insns insn ih =>
    have hLast : jumpOf (insns ++ [insn]) block =
        if isJump insn && insn.irBlock = block then some (insn.operand 0).blockId
        else jumpOf insns block := by
      rw [jumpOf, List.reverse_append, List.reverse_singleton, List.singleton_append, List.find?_cons]
      cases isJump insn && decide (insn.irBlock = block) <;> rfl
    rw [identify_append, hLast, visit]
    by_cases hNop : insn.irBlock = nopBlock
    · simp [hNop, isJump, ih]
    · rw [if_neg hNop]
      by_cases hType : insn.type = .jmp
      · simp only [hType, isJump, hNop, ne_eq, not_false_eq_true, decide_true, Bool.true_and, decide_eq_true_eq]
        by_cases hBlock : insn.irBlock = block
        · subst hBlock
          simp
        · rw [Function.update_of_ne (Ne.symm hBlock), if_neg hBlock, ih]
      · rw [if_neg (by simp [isJump, hType]), ← ih]
        split
        · contradiction
        · rfl
        · rfl

theorem count_apply (target t : Nat) (predCount : Nat → Nat) :
    count target predCount t = predCount t + if target = t then 1 else 0 := by
  unfold count
  by_cases hTarget : target = t
  · subst hTarget
    simp
  · simp [hTarget, Function.update_of_ne (Ne.symm hTarget)]

theorem identify_predCount (insns : List IRInstruction) (t : Nat) :
    (identify insns).predCount t = (edgeTargets insns).count t := by
  induction insns using List.reverseRecOn with
  | nil => rfl
  | append_singleton insns insn ih =>
    rw [identify_append, edgeTargets, List.filter_append, List.flatMap_append, List.count_append,
      ← edgeTargets, ← ih, visit]
    by_cases hNop : insn.irBlock = nopBlock
    · simp [hNop]
    · rw [if_neg hNop, List.filter_cons_of_pos (by simpa using hNop), List.filter_nil,
        List.flatMap_singleton]
      cases hType : insn.type <;> simp [targets, hType, count_apply, List.count_cons]
      omega

theorem mem_edgeTargets {insns : List IRInstruction} {insn : IRInstruction} {t : Nat}
    (hMem : insn ∈ insns) (hLive : insn.irBlock ≠ nopBlock) (hTarget : t ∈ targets insn) : t ∈ edgeTargets insns :=
  List.mem_flatMap.mpr ⟨insn, List.mem_filter.mpr ⟨hMem, by simpa using hLive⟩, hTarget⟩

/-- A block with one edge into it is reached from one instruction. -/
theorem edge_unique {insns : List IRInstruction} {t : Nat} {i j : IRInstruction}
    (hCount : (edgeTargets insns).count t = 1) (hi : i ∈ insns) (hj : j ∈ insns)
    (hLiveI : i.irBlock ≠ nopBlock) (hLiveJ : j.irBlock ≠ nopBlock) (hTi : t ∈ targets i)
    (hTj : t ∈ targets j) : i = j := by
  obtain ⟨before, after, rfl⟩ := List.append_of_mem hi
  rw [edgeTargets, List.filter_append, List.flatMap_append, List.count_append,
    List.filter_cons_of_pos (by simpa using hLiveI), List.flatMap_cons, List.count_append] at hCount
  have hHere : 0 < (targets i).count t := List.count_pos_iff.mpr hTi
  have hNone : ∀ l : List IRInstruction, j ∈ l → 0 < (edgeTargets l).count t :=
    fun l hMem => List.count_pos_iff.mpr (mem_edgeTargets hMem hLiveJ hTj)
  rcases List.mem_append.mp hj with hBefore | hRest
  · have hOther := hNone before hBefore
    rw [edgeTargets] at hOther
    omega
  · rcases List.mem_cons.mp hRest with rfl | hAfter
    · rfl
    · have hOther := hNone after hAfter
      rw [edgeTargets] at hOther
      omega

/-! ### The buffer between two merges -/

/-- Where an instruction of the sorted buffer is now, if `owner` tells which block
has absorbed its own and `joined` which blocks have lost their jump. -/
def placed (owner : Nat → Nat) (joined : Nat → Bool) (insn : IRInstruction) : IRInstruction :=
  if insn.irBlock = nopBlock then insn
  else if insn.type = .jmp ∧ joined insn.irBlock = true then insn.makeNop
  else { insn with irBlock := owner insn.irBlock }

/-- Blocks with the same owner form a chain: each but the last has lost a jump to
the next one. The owner is the first, and what can still be jumped to is an
owner. -/
structure Chains (ctx : TranslationContext) (owner : Nat → Nat) (joined : Nat → Bool) : Prop where
  owner_le : ∀ c, owner c ≤ c
  owner_owner : ∀ c, owner (owner c) = owner c
  next : ∀ c, joined c = true → ∃ t, jumpOf ctx.insns c = some t ∧ owner t = owner c ∧ c < t ∧
    ∀ d, owner d = owner c → c < d → t ≤ d
  last : ∀ c, joined c = false → ∀ d, owner d = owner c → d ≤ c
  entry : ∀ c, joined c = false → ∀ insn ∈ ctx.code c, ∀ t ∈ targets insn, owner t = t

/-- The invariant of the work-list loop. -/
structure Merging (ctx : TranslationContext) (owner : Nat → Nat) (joined : Nat → Bool)
    (succs : Nat → Nat) (workList : List Nat) : Prop extends Chains ctx owner joined where
  succs_eq : ∀ c, joined c = false →
    succs (owner c) = (jumpOf ctx.insns c).getD invalidBlockId
  descending : workList.Pairwise (· > ·)
  pending : ∀ c, owner c ≠ c → ∀ block ∈ workList, block < c

section Graph
variable {ctx : TranslationContext} (h : Ordered ctx)

theorem exists_jump {insns : List IRInstruction} {c t : Nat} (hJump : jumpOf insns c = some t) :
    ∃ j ∈ insns, j.irBlock = c ∧ c ≠ nopBlock ∧ j.type = .jmp ∧ targets j = [t] := by
  rw [jumpOf, Option.map_eq_some_iff] at hJump
  obtain ⟨j, hFind, rfl⟩ := hJump
  have hProp := List.find?_some hFind
  simp only [isJump, Bool.and_eq_true, decide_eq_true_eq] at hProp
  obtain ⟨⟨hLive, hType⟩, rfl⟩ := hProp
  exact ⟨j, List.mem_reverse.mp (List.mem_of_find?_eq_some hFind), rfl, hLive, hType, by simp [targets, hType]⟩

include h in
theorem jump_lt {c t : Nat} (hJump : jumpOf ctx.insns c = some t) :
    c < t ∧ t < ctx.blockCount ∧ c < ctx.blockCount := by
  obtain ⟨j, hMem, rfl, hLive, -, hTargets⟩ := exists_jump hJump
  obtain ⟨hLt, hBound⟩ := h.targets j hMem hLive t (by simp [hTargets])
  exact ⟨hLt, hBound, h.ids j hMem hLive⟩

include h in
/-- Every chain ends. -/
theorem exists_last {owner : Nat → Nat} {joined : Nat → Bool} (hChains : Chains ctx owner joined)
    (c : Nat) : ∃ d, owner d = owner c ∧ c ≤ d ∧ joined d = false := by
  induction hSize : ctx.blockCount - c using Nat.strong_induction_on generalizing c with
  | _ size ih =>
    cases hJoined : joined c with
    | false => exact ⟨c, rfl, Nat.le_refl _, hJoined⟩
    | true =>
      obtain ⟨t, hJump, hOwner, hLt, -⟩ := hChains.next c hJoined
      have hBound := jump_lt h hJump
      obtain ⟨d, hSame, hLe, hLast⟩ := ih (ctx.blockCount - t) (by omega) t rfl
      exact ⟨d, hSame.trans hOwner, by omega, hLast⟩

theorem moveBlock_split {source target : Nat} {pre post : List IRInstruction} {j : IRInstruction}
    (hPre : ∀ i ∈ pre, ¬ (i.irBlock = target ∧ i.type = .jmp)) (hBlock : j.irBlock = target) (hType : j.type = .jmp) :
    moveBlock source target (pre ++ j :: post) = pre ++ j.makeNop :: post.map (relabel source target) := by
  induction pre with
  | nil => rw [List.nil_append, moveBlock, if_pos ⟨hBlock, hType⟩, List.nil_append]
  | cons i pre ih =>
    rw [List.cons_append, moveBlock, if_neg (hPre i List.mem_cons_self),
      ih fun k hMem => hPre k (List.mem_cons_of_mem _ hMem), List.cons_append]

def ownerAfter (owner : Nat → Nat) (source target c : Nat) : Nat :=
  if owner c = source then target else owner c

section Placed
variable {owner : Nat → Nat} {joined : Nat → Bool} {insn : IRInstruction} {last source target : Nat}

theorem placed_before (hOwner : owner insn.irBlock ≠ source)
    (hNotJump : insn.irBlock ≠ nopBlock → ¬ (insn.type = .jmp ∧ insn.irBlock = last)) :
    placed (ownerAfter owner source target) (Function.update joined last true) insn = placed owner joined insn := by
  unfold placed
  by_cases hNop : insn.irBlock = nopBlock
  · rw [if_pos hNop, if_pos hNop]
  · have hSame : ownerAfter owner source target insn.irBlock = owner insn.irBlock := if_neg hOwner
    rw [if_neg hNop, if_neg hNop, hSame]
    by_cases hBlock : insn.irBlock = last
    · have hType : insn.type ≠ .jmp := fun hJmp => hNotJump hNop ⟨hJmp, hBlock⟩
      simp only [hType, false_and, ↓reduceIte]
    · rw [Function.update_of_ne hBlock]

theorem placed_jump (hLive : insn.irBlock ≠ nopBlock) (hBlock : insn.irBlock = last) (hType : insn.type = .jmp) :
    placed (ownerAfter owner source target) (Function.update joined last true) insn = insn.makeNop := by
  rw [placed, if_neg hLive, if_pos ⟨hType, by rw [hBlock, Function.update_self]⟩]

theorem placed_after (hBlock : insn.irBlock ≠ nopBlock → insn.irBlock ≠ last)
    (hOwner : insn.irBlock ≠ nopBlock → owner insn.irBlock ≠ nopBlock) :
    relabel source target (placed owner joined insn) =
      placed (ownerAfter owner source target) (Function.update joined last true) insn := by
  unfold placed
  by_cases hNop : insn.irBlock = nopBlock
  · rw [if_pos hNop, if_pos hNop, relabel, if_pos hNop]
  · rw [if_neg hNop, if_neg hNop, Function.update_of_ne (hBlock hNop)]
    split
    · rfl
    · rw [relabel, if_neg (hOwner hNop), ownerAfter]
      split <;> rfl

/-- A jump that is still there belongs to the last block of its chain. -/
theorem placed_eq_jump {block : Nat} (hBlock : block ≠ nopBlock)
    (h : (placed owner joined insn).irBlock = block ∧ (placed owner joined insn).type = .jmp) :
    insn.irBlock ≠ nopBlock ∧ insn.type = .jmp ∧ joined insn.irBlock = false ∧ owner insn.irBlock = block := by
  obtain ⟨hHere, hType⟩ := h
  unfold placed at hHere hType
  by_cases hNop : insn.irBlock = nopBlock
  · rw [if_pos hNop] at hHere
    exact absurd (hHere.symm.trans hNop) hBlock
  · rw [if_neg hNop] at hHere hType
    split at hType
    · cases hType
    · rename_i hKept
      rw [if_neg hKept] at hHere
      have hJmp : insn.type = .jmp := hType
      exact ⟨hNop, hJmp, by simpa [hJmp] using hKept, hHere⟩

end Placed

include h in
/-- One merge, seen from the sorted buffer. -/
theorem moveBlock_placed {owner : Nat → Nat} {joined : Nat → Bool} {last s : Nat}
    (hSorted : Sorted (·.irBlock) ctx.insns) (hChains : Chains ctx owner joined)
    (hLast : joined last = false) (hJump : jumpOf ctx.insns last = some s) :
    moveBlock s (owner last) (ctx.insns.map (placed owner joined)) = ctx.insns.map
        (placed (ownerAfter owner s (owner last)) (Function.update joined last true)) := by
  obtain ⟨hLt, hBound, hLastBound⟩ := jump_lt h hJump
  obtain ⟨j, hMem, hHere, hLive, hType, -⟩ := exists_jump hJump
  have hCount := h.count
  have hOwnerLe := hChains.owner_le
  obtain ⟨pre, post, hSplit⟩ := List.append_of_mem hMem
  have hEnds := h.ends_buffer
  rw [hSplit, List.pairwise_append, List.pairwise_cons] at hEnds
  have hOrder := hSorted
  rw [hSplit, Sorted, List.pairwise_append, List.pairwise_cons] at hOrder
  have hLiveJ : j.irBlock ≠ nopBlock := hHere ▸ hLive
  have hPreNotJump : ∀ i ∈ pre, i.irBlock ≠ nopBlock → ¬ (i.type = .jmp ∧ i.irBlock = last) := by
    rintro i hi hLiveI ⟨hJmp, hBlock⟩
    exact hEnds.2.2 i hi j List.mem_cons_self hLiveI (by rw [hJmp]; rfl) (hHere.trans hBlock.symm)
  have hPreLe : ∀ i ∈ pre, i.irBlock ≤ last := fun i hi =>
    hHere ▸ hOrder.2.2 i hi j List.mem_cons_self
  have hPlacedJump : placed owner joined j = { j with irBlock := owner last } := by
    rw [placed, if_neg hLiveJ, if_neg (by rw [hHere, hLast]; simp), hHere]
  rw [hSplit, List.map_append, List.map_cons, List.map_append, List.map_cons,
    moveBlock_split _ (by rw [hPlacedJump]) (by rw [hPlacedJump]; exact hType), List.map_map]
  · congr 1
    · apply List.map_congr_left
      intro i hi
      have hLe := hPreLe i hi
      have hOwner := hOwnerLe i.irBlock
      exact (placed_before (by omega) (hPreNotJump i hi)).symm
    · congr 1
      · rw [placed_jump hLiveJ hHere hType]
        rfl
      · apply List.map_congr_left
        intro i hi
        refine placed_after (fun hLiveI hSame => ?_) fun hLiveI => ?_
        · exact hEnds.2.1.1 i hi hLiveJ (by rw [hType]; rfl) (hSame.trans hHere.symm)
        · have hId := h.ids i (hSplit ▸ List.mem_append_right _ (List.mem_cons_of_mem _ hi)) hLiveI
          have hOwner := hOwnerLe i.irBlock
          omega
  · intro i hi hBoth
    obtain ⟨k, hk, rfl⟩ := List.mem_map.mp hi
    have hTarget : owner last ≠ nopBlock := by
      have hOwner := hOwnerLe last
      omega
    obtain ⟨hLiveK, hJmp, hUnjoined, hSame⟩ := placed_eq_jump hTarget hBoth
    have hOne := hChains.last k.irBlock hUnjoined last hSame.symm
    have hTwo := hChains.last last hLast k.irBlock hSame
    exact hPreNotJump k hk hLiveK ⟨hJmp, by omega⟩

/-! ### The invariant -/

include h in
theorem merging_start (hSorted : Sorted (·.irBlock) ctx.insns) :
    Merging ctx id (fun _ => false) (identify ctx.insns).succs (identify ctx.insns).workList where
  owner_le c := Nat.le_refl c
  owner_owner _ := rfl
  next c hJoined := by cases hJoined
  last c _ d hSame := le_of_eq hSame
  entry _ _ _ _ _ _ := rfl
  succs_eq c _ := identify_succs ctx.insns c
  pending c hMoved := absurd rfl hMoved
  descending := by
    rw [identify_workList, List.pairwise_reverse, List.pairwise_map, List.pairwise_filter]
    refine (List.Pairwise.and hSorted h.ends_buffer).imp ?_
    rintro i j ⟨hLe, hEnds⟩ hi -
    simp only [isJump, Bool.and_eq_true, decide_eq_true_eq] at hi
    have hApart := hEnds hi.1 (by rw [hi.2]; rfl)
    have hOrder : i.irBlock ≤ j.irBlock := hLe
    omega

section Merge
variable {owner : Nat → Nat} {joined : Nat → Bool} {last s : Nat}

theorem ownerAfter_cases (owner : Nat → Nat) (source target c : Nat) :
    (owner c = source ∧ ownerAfter owner source target c = target) ∨
      (owner c ≠ source ∧ ownerAfter owner source target c = owner c) := by
  unfold ownerAfter
  by_cases hSource : owner c = source
  · exact Or.inl ⟨hSource, if_pos hSource⟩
  · exact Or.inr ⟨hSource, if_neg hSource⟩

/-- The facts about a merge of `s` into the chain that ends in `last`. -/
structure Step (ctx : TranslationContext) (owner : Nat → Nat) (joined : Nat → Bool)
    (last s : Nat) : Prop where
  chains : Chains ctx owner joined
  unjoined : joined last = false
  jump : jumpOf ctx.insns last = some s
  single : (edgeTargets ctx.insns).count s = 1
  lt : last < s
  root : owner s = s

include h in
theorem Step.of_merging (hChains : Chains ctx owner joined) (hLast : joined last = false)
    (hJump : jumpOf ctx.insns last = some s) (hSingle : (edgeTargets ctx.insns).count s = 1) :
    Step ctx owner joined last s := by
  obtain ⟨j, hMem, hHere, hLive, -, hTargets⟩ := exists_jump hJump
  refine ⟨hChains, hLast, hJump, hSingle, (jump_lt h hJump).1, ?_⟩
  exact hChains.entry last hLast j (mem_codeOf.mpr ⟨hMem, hHere, hHere ▸ hLive⟩) s (by simp [hTargets])

section

variable (hStep : Step ctx owner joined last s)
include hStep

theorem Step.apart : owner last ≠ s := by
  have hLe := hStep.chains.owner_le last
  have hLt := hStep.lt
  omega

/-- Another block of the same chain is not the last one. -/
theorem Step.only {c : Nat} (hOther : c ≠ last) (hUnjoined : joined c = false) : owner c ≠ owner last := by
  intro hSame
  have hOne := hStep.chains.last c hUnjoined last hSame.symm
  have hTwo := hStep.chains.last last hStep.unjoined c hSame
  omega

theorem Step.unjoined_of_update {c : Nat} (h : Function.update joined last true c = false) :
    c ≠ last ∧ joined c = false := by
  by_cases hSame : c = last
  · subst hSame
    rw [Function.update_self] at h
    cases h
  · rw [Function.update_of_ne hSame] at h
    exact ⟨hSame, h⟩

theorem Step.chains_after : Chains ctx (ownerAfter owner s (owner last)) (Function.update joined last true) := by
  have hChains := hStep.chains
  have hLt := hStep.lt
  have hApart := hStep.apart
  have hBelow : ∀ d, owner d = owner last → d ≤ last := hChains.last last hStep.unjoined
  have hAbove : ∀ d, owner d = s → s ≤ d := fun d hd => hd ▸ hChains.owner_le d
  have hLastAfter : ownerAfter owner s (owner last) last = owner last := if_neg hApart
  have hRootAfter : ownerAfter owner s (owner last) s = owner last := if_pos hStep.root
  constructor
  · intro c
    rcases ownerAfter_cases owner s (owner last) c with ⟨hOld, hNew⟩ | ⟨-, hNew⟩
    · have hLe := hChains.owner_le last
      have hGe := hAbove c hOld
      omega
    · rw [hNew]
      exact hChains.owner_le c
  · intro c
    rcases ownerAfter_cases owner s (owner last) c with ⟨-, hNew⟩ | ⟨hOld, hNew⟩
    · rw [hNew, ownerAfter, hChains.owner_owner, if_neg hApart]
    · rw [hNew, ownerAfter, hChains.owner_owner, if_neg hOld]
  · intro c hJoined
    by_cases hHere : c = last
    · subst hHere
      refine ⟨s, hStep.jump, by rw [hRootAfter, hLastAfter], hLt, fun d hSame hd => ?_⟩
      rw [hLastAfter] at hSame
      rcases ownerAfter_cases owner s (owner c) d with ⟨hOld, -⟩ | ⟨-, hNew⟩
      · exact hAbove d hOld
      · have hLe := hBelow d (hNew.symm.trans hSame)
        omega
    · rw [Function.update_of_ne hHere] at hJoined
      obtain ⟨t, hJump, hOwner, hNext, hFirst⟩ := hChains.next c hJoined
      refine ⟨t, hJump, by unfold ownerAfter; rw [hOwner], hNext, fun d hSame hd => ?_⟩
      rcases ownerAfter_cases owner s (owner last) d with ⟨hOldD, hNewD⟩ | ⟨hOldD, hNewD⟩ <;>
        rcases ownerAfter_cases owner s (owner last) c with ⟨hOldC, hNewC⟩ | ⟨hOldC, hNewC⟩
      · exact hFirst d (hOldD.trans hOldC.symm) hd
      · have hLe := hBelow t (by rw [hOwner, ← hNewC, ← hSame, hNewD])
        have hGe := hAbove d hOldD
        omega
      · have hLe := hBelow d (by rw [← hNewD, hSame, hNewC])
        have hGe := hAbove c hOldC
        omega
      · exact hFirst d (by rw [← hNewD, hSame, hNewC]) hd
  · intro c hUnjoined d hSame
    obtain ⟨hOther, hUnjoined⟩ := hStep.unjoined_of_update hUnjoined
    rcases ownerAfter_cases owner s (owner last) d with ⟨hOldD, hNewD⟩ | ⟨hOldD, hNewD⟩ <;>
      rcases ownerAfter_cases owner s (owner last) c with ⟨hOldC, hNewC⟩ | ⟨hOldC, hNewC⟩
    · exact hChains.last c hUnjoined d (hOldD.trans hOldC.symm)
    · exact absurd (by rw [← hNewC, ← hSame, hNewD]) (hStep.only hOther hUnjoined)
    · have hLe := hBelow d (by rw [← hNewD, hSame, hNewC])
      have hGe := hAbove c hOldC
      omega
    · exact hChains.last c hUnjoined d (by rw [← hNewD, hSame, hNewC])
  · intro c hUnjoined insn hMem t hTarget
    obtain ⟨hOther, hUnjoined⟩ := hStep.unjoined_of_update hUnjoined
    have hEntry := hChains.entry c hUnjoined insn hMem t hTarget
    have hNotRoot : t ≠ s := by
      rintro rfl
      -- the deleted jump was the only way to the absorbed block
      obtain ⟨j, hMemJ, hHereJ, hLiveJ, -, hTargetsJ⟩ := exists_jump hStep.jump
      obtain ⟨hMemI, hHereI, hLiveI⟩ := mem_codeOf.mp hMem
      have hSame := edge_unique hStep.single hMemI hMemJ hLiveI (hHereJ ▸ hLiveJ) hTarget (by simp [hTargetsJ])
      exact hOther (by rw [← hHereI, hSame, hHereJ])
    unfold ownerAfter
    rw [hEntry, if_neg hNotRoot]

theorem Step.merging_after {succs : Nat → Nat} {workList rest : List Nat}
    (hMerging : Merging ctx owner joined succs (owner last :: rest))
    (hWorkList : workList = owner last :: rest ∨ workList = rest) :
    Merging ctx (ownerAfter owner s (owner last)) (Function.update joined last true)
      (Function.update succs (owner last) (succs s)) workList := by
  have hDescending := List.pairwise_cons.mp hMerging.descending
  refine ⟨hStep.chains_after, fun c hUnjoined => ?_, ?_, fun c hMoved block hMem => ?_⟩
  · obtain ⟨hOther, hUnjoined⟩ := hStep.unjoined_of_update hUnjoined
    rw [← hMerging.succs_eq c hUnjoined]
    rcases ownerAfter_cases owner s (owner last) c with ⟨hOld, hNew⟩ | ⟨-, hNew⟩
    · rw [hNew, Function.update_self, hOld]
    · rw [hNew, Function.update_of_ne (hStep.only hOther hUnjoined)]
  · rcases hWorkList with rfl | rfl
    · exact hMerging.descending
    · exact hDescending.2
  · have hBlock : block ≤ owner last := by
      rcases hWorkList with rfl | rfl
      · rcases List.mem_cons.mp hMem with rfl | hMem
        · exact Nat.le_refl _
        · exact (hDescending.1 block hMem).le
      · exact (hDescending.1 block hMem).le
    have hMemOld : block ∈ owner last :: rest := by
      rcases hWorkList with rfl | rfl
      · exact hMem
      · exact List.mem_cons_of_mem _ hMem
    rcases ownerAfter_cases owner s (owner last) c with ⟨hOld, -⟩ | ⟨-, hNew⟩
    · have hGe := hStep.chains.owner_le c
      have hLe := hStep.chains.owner_le last
      have hLt := hStep.lt
      omega
    · exact hMerging.pending c (hNew ▸ hMoved) block hMemOld

end

end Merge

/-! ### The loop ends -/

/-- Blocks that can still lose their jump. -/
def openBlocks (n : Nat) (joined : Nat → Bool) : Finset Nat :=
  (Finset.range n).filter fun c => joined c = false

theorem openBlocks_update {n last : Nat} {joined : Nat → Bool} (hLt : last < n) (hUnjoined : joined last = false) :
    (openBlocks n (Function.update joined last true)).card < (openBlocks n joined).card := by
  apply Finset.card_lt_card
  rw [Finset.ssubset_iff_of_subset]
  · exact ⟨last, by simp [openBlocks, hLt, hUnjoined], by simp [openBlocks]⟩
  · intro c hc
    simp only [openBlocks, Finset.mem_filter] at hc ⊢
    by_cases hSame : c = last
    · subst hSame
      rw [Function.update_self] at hc
      cases hc.2
    · rwa [Function.update_of_ne hSame] at hc

include h in
theorem edgeTargets_lt {t : Nat} (hMem : t ∈ edgeTargets ctx.insns) : t < ctx.blockCount := by
  obtain ⟨insn, hInsn, hTarget⟩ := List.mem_flatMap.mp hMem
  obtain ⟨hInsn, hLive⟩ := List.mem_filter.mp hInsn
  exact (h.targets insn hInsn (by simpa using hLive) t hTarget).2

include h in
theorem mergeLoop_spec (hSorted : Sorted (·.irBlock) ctx.insns) (fuel : Nat) :
    ∀ {workList : List Nat} {succs owner : Nat → Nat} {joined : Nat → Bool}, Merging ctx owner joined succs workList →
      workList.length + (openBlocks ctx.blockCount joined).card ≤ fuel →
      ∃ owner' joined', Chains ctx owner' joined' ∧ mergeLoop (identify ctx.insns).predCount fuel workList succs
          (ctx.insns.map (placed owner joined)) = some (ctx.insns.map (placed owner' joined')) := by
  induction fuel with
  | zero =>
    intro workList succs owner joined hMerging hFuel
    have hEmpty : workList = [] := List.eq_nil_of_length_eq_zero (by omega)
    subst hEmpty
    exact ⟨owner, joined, hMerging.toChains, rfl⟩
  | succ fuel ih =>
    intro workList succs owner joined hMerging hFuel
    cases workList with
    | nil => exact ⟨owner, joined, hMerging.toChains, rfl⟩
    | cons block rest =>
      rw [List.length_cons] at hFuel
      have hSkip : Merging ctx owner joined succs rest :=
        { hMerging with
          descending := (List.pairwise_cons.mp hMerging.descending).2
          pending := fun c hMoved b hMem =>
            hMerging.pending c hMoved b (List.mem_cons_of_mem _ hMem) }
      rw [mergeLoop]
      by_cases hCount : (identify ctx.insns).predCount (succs block) = 1
      swap
      · rw [if_pos hCount]
        exact ih hSkip (by omega)
      rw [if_neg (by simpa using hCount)]
      have hRoot : owner block = block := by
        by_contra hMoved
        exact lt_irrefl _ (hMerging.pending block hMoved block List.mem_cons_self)
      obtain ⟨last, hOwner, -, hUnjoined⟩ := exists_last h hMerging.toChains block
      rw [hRoot] at hOwner
      have hSuccs := hMerging.succs_eq last hUnjoined
      rw [identify_predCount] at hCount
      have hEdge : succs block < ctx.blockCount := edgeTargets_lt h (List.count_pos_iff.mp (by omega))
      have hBlockCount := h.count
      have hJump : jumpOf ctx.insns last = some (succs block) := by
        rw [hOwner] at hSuccs
        cases hJump : jumpOf ctx.insns last with
        | none =>
          rw [hJump] at hSuccs
          have hLarge : nopBlock < invalidBlockId := by decide
          have hInvalid : succs block = invalidBlockId := hSuccs
          omega
        | some t =>
          rw [hJump] at hSuccs
          rw [hSuccs]
          rfl
      subst hOwner
      have hStep := Step.of_merging h hMerging.toChains hUnjoined hJump hCount
      have hLt := hStep.lt
      have hLe := hMerging.owner_le last
      have hOpen := @openBlocks_update ctx.blockCount last joined (jump_lt h hJump).2.2 hUnjoined
      dsimp only
      rw [mergeBlock, if_neg (by omega), moveBlock_placed h hSorted hMerging.toChains hUnjoined hJump]
      dsimp only
      split
      · exact ih (hStep.merging_after hMerging (Or.inl rfl)) (by rw [List.length_cons]; omega)
      · exact ih (hStep.merging_after hMerging (Or.inr rfl)) (by omega)

/-! ### The code of a chain -/

/-- What block `b` of the result has from block `c`: all of it if `b` owns it,
without the jump if the chain goes on. -/
def piece (ctx : TranslationContext) (owner : Nat → Nat) (joined : Nat → Bool) (b c : Nat) :
    List IRInstruction :=
  if owner c = b then (ctx.code c).filter fun insn => !(insn.type = .jmp && joined c) else []

/-- The code of a chain from block `c` on. -/
def chainFrom (ctx : TranslationContext) (owner : Nat → Nat) (joined : Nat → Bool) (c : Nat) :
    List IRInstruction :=
  (List.range' c (ctx.blockCount - c)).flatMap (piece ctx owner joined (owner c))

/-- Which instructions end up in block `b`. -/
def movedTo (owner : Nat → Nat) (joined : Nat → Bool) (b : Nat) (insn : IRInstruction) : Bool :=
  insn.irBlock ≠ nopBlock && owner insn.irBlock = b &&
    !(insn.type = .jmp && joined insn.irBlock)

section Chain
variable {owner : Nat → Nat} {joined : Nat → Bool}

theorem codeOf_placed {insns : List IRInstruction} {b : Nat}
    (hOwner : ∀ insn ∈ insns, insn.irBlock ≠ nopBlock → owner insn.irBlock ≠ nopBlock) :
    (codeOf b (insns.map (placed owner joined))).map IRInstruction.content =
      (insns.filter (movedTo owner joined b)).map IRInstruction.content := by
  induction insns with
  | nil => rfl
  | cons insn rest ih =>
    have hRest := ih fun i hMem => hOwner i (List.mem_cons_of_mem _ hMem)
    rw [List.map_cons, List.filter_cons, placed]
    by_cases hNop : insn.irBlock = nopBlock
    · rw [if_pos hNop, codeOf_cons_of_nop hNop, if_neg (by simp [movedTo, hNop])]
      exact hRest
    · rw [if_neg hNop]
      by_cases hDeleted : insn.type = .jmp ∧ joined insn.irBlock = true
      · rw [if_pos hDeleted, codeOf_cons_of_nop rfl, if_neg (by simp [movedTo, hDeleted])]
        exact hRest
      · rw [if_neg hDeleted]
        by_cases hHere : owner insn.irBlock = b
        · have hMoved : movedTo owner joined b insn = true := by
            simpa [movedTo, hNop, hHere, imp_iff_not_or] using hDeleted
          rw [codeOf_cons_self hHere (by exact hOwner insn List.mem_cons_self hNop), if_pos hMoved,
            List.map_cons, List.map_cons, hRest]
          rfl
        · rw [codeOf_cons_of_ne hHere, if_neg (by simp [movedTo, hHere])]
          exact hRest

include h in
/-- A block of the result is the blocks it owns, one after the other. -/
theorem filter_movedTo (hSorted : Sorted (·.irBlock) ctx.insns) (b : Nat) :
    ctx.insns.filter (movedTo owner joined b) = (List.range ctx.blockCount).flatMap (piece ctx owner joined b) := by
  rw [filter_eq_flatMap hSorted (movedTo owner joined b) (n := ctx.blockCount)]
  · apply List.flatMap_congr
    intro c hc
    have hLive : c ≠ nopBlock := by
      have hCount := h.count
      have hLt := List.mem_range.mp hc
      omega
    unfold piece
    split
    · rename_i hOwner
      rw [TranslationContext.code, codeOf, List.filter_filter]
      apply List.filter_congr
      intro insn _
      by_cases hBlock : insn.irBlock = c
      · subst hBlock
        simp [movedTo, hLive, hOwner]
      · simp [hBlock]
    · rename_i hOwner
      rw [List.filter_eq_nil_iff]
      intro insn _
      by_cases hBlock : insn.irBlock = c
      · subst hBlock
        simp [movedTo, hOwner]
      · simp [hBlock]
  · intro insn hMem hMoved
    refine h.ids insn hMem ?_
    simp only [movedTo, Bool.and_eq_true, decide_eq_true_eq] at hMoved
    exact hMoved.1.1

theorem flatMap_piece_eq_nil {b : Nat} {blocks : List Nat} (hNone : ∀ c ∈ blocks, owner c ≠ b) :
    blocks.flatMap (piece ctx owner joined b) = [] := by
  rw [List.flatMap_eq_nil_iff]
  intro c hc
  rw [piece, if_neg (hNone c hc)]

/-- An owner's block is its whole chain. -/
theorem flatMap_piece_eq_chainFrom (hChains : Chains ctx owner joined) {b : Nat} (hRoot : owner b = b) :
    (List.range ctx.blockCount).flatMap (piece ctx owner joined b) = chainFrom ctx owner joined b := by
  rw [chainFrom, hRoot]
  have hEmpty : (List.range (min b ctx.blockCount)).flatMap (piece ctx owner joined b) = [] := by
    apply flatMap_piece_eq_nil
    intro c hc hOwner
    have hLe := hChains.owner_le c
    have hLt := List.mem_range.mp hc
    omega
  have hSplit : List.range ctx.blockCount =
      List.range (min b ctx.blockCount) ++ List.range' b (ctx.blockCount - b) := by
    rcases Nat.le_total b ctx.blockCount with hLe | hGe
    · have hJoin := @List.range'_append_1 0 b (ctx.blockCount - b)
      rw [Nat.zero_add, Nat.add_sub_cancel' hLe] at hJoin
      rw [Nat.min_eq_left hLe, List.range_eq_range', List.range_eq_range', hJoin]
    · rw [Nat.min_eq_right hGe, Nat.sub_eq_zero_of_le hGe]
      simp
  rw [hSplit, List.flatMap_append, hEmpty, List.nil_append]

include h in
theorem code_eq_nil {c : Nat} (hOut : ctx.blockCount ≤ c) : ctx.code c = [] := by
  rw [TranslationContext.code, codeOf, List.filter_eq_nil_iff]
  intro insn hMem
  simp only [decide_eq_true_eq, not_and]
  rintro rfl hLive
  have hLt := h.ids insn hMem hLive
  omega

include h in
theorem chainFrom_last (hChains : Chains ctx owner joined) {c : Nat} (hLast : joined c = false) :
    chainFrom ctx owner joined c = ctx.code c := by
  rcases Nat.lt_or_ge c ctx.blockCount with hLt | hGe
  · obtain ⟨n, hn⟩ : ∃ n, ctx.blockCount - c = n + 1 := ⟨ctx.blockCount - c - 1, by omega⟩
    have hRest : (List.range' (c + 1) n).flatMap (piece ctx owner joined (owner c)) = [] := by
      apply flatMap_piece_eq_nil
      intro d hd hSame
      have hLe := hChains.last c hLast d hSame
      have hGt := List.mem_range'_1.mp hd
      omega
    rw [chainFrom, hn, List.range'_succ, List.flatMap_cons, hRest, List.append_nil, piece, if_pos rfl]
    simp [hLast]
  · rw [chainFrom, Nat.sub_eq_zero_of_le hGe, code_eq_nil h hGe]
    rfl

include h in
/-- A joined block goes on with the block it jumped to. -/
theorem chainFrom_joined (hChains : Chains ctx owner joined) {c : Nat} (hJoined : joined c = true) :
    ∃ t body j, jumpOf ctx.insns c = some t ∧ ctx.code c = body ++ [j] ∧ j.type = .jmp ∧
      (j.operand 0).blockId = t ∧ (∀ i ∈ body, isTerminator i.type = false) ∧ c < t ∧ t < ctx.blockCount ∧
      chainFrom ctx owner joined c = body ++ chainFrom ctx owner joined t := by
  obtain ⟨t, hJump, hOwner, hLt, hFirst⟩ := hChains.next c hJoined
  obtain ⟨-, hBound, hHere⟩ := jump_lt h hJump
  obtain ⟨j, hMem, hBlock, hLive, hType, hTargets⟩ := exists_jump hJump
  have hMemCode : j ∈ ctx.code c := mem_codeOf.mpr ⟨hMem, hBlock, hBlock ▸ hLive⟩
  obtain ⟨body, hCode⟩ := eq_last_of_terminator (h.ends c) hMemCode (by rw [hType]; rfl)
  have hBody : ∀ i ∈ body, isTerminator i.type = false := by
    intro i hi
    have hEnds := h.ends c
    rw [hCode] at hEnds
    exact (List.pairwise_append.mp hEnds).2.2 i hi j List.mem_cons_self
  refine ⟨t, body, j, hJump, hCode, hType, by simpa [targets, hType] using hTargets, hBody, hLt,
    hBound, ?_⟩
  have hPiece : piece ctx owner joined (owner c) c = body := by
    have hKept : body.filter (fun insn => !(insn.type = .jmp && joined c)) = body := by
      rw [List.filter_eq_self]
      intro i hi
      have hNot : i.type ≠ .jmp := by
        intro hJmp
        have hFalse := hBody i hi
        rw [hJmp] at hFalse
        cases hFalse
      simp [hNot]
    rw [piece, if_pos rfl, hCode, List.filter_append, hKept]
    simp [hType, hJoined]
  have hBetween : (List.range' (c + 1) (t - (c + 1))).flatMap (piece ctx owner joined (owner c)) = [] := by
    apply flatMap_piece_eq_nil
    intro d hd hSame
    obtain ⟨hGt, hLess⟩ := List.mem_range'_1.mp hd
    have hLe := hFirst d hSame (by omega)
    omega
  have hRange : List.range' c (ctx.blockCount - c) =
      c :: (List.range' (c + 1) (t - (c + 1)) ++ List.range' t (ctx.blockCount - t)) := by
    have hSize : ctx.blockCount - c = (t - (c + 1) + (ctx.blockCount - t)) + 1 := by omega
    rw [hSize, List.range'_succ, ← List.range'_append_1]
    have hStart : c + 1 + (t - (c + 1)) = t := by omega
    rw [hStart]
  rw [chainFrom, hRange, List.flatMap_cons, List.flatMap_append, hPiece, hBetween, List.nil_append, chainFrom, hOwner]

end Chain

/-! ### Running the merged graph -/

section Run
variable {W : Type} {host : Host W} {owner : Nat → Nat} {joined : Nat → Bool}
  {graph : Nat → List IRInstruction}

include h in
/-- From any block, the rest of its chain behaves as the old graph does. -/
theorem chain_run (hChains : Chains ctx owner joined) (hGraph : ∀ b, owner b = b → b ≠ nopBlock →
      (graph b).map IRInstruction.content = (chainFrom ctx owner joined b).map IRInstruction.content) (c : Nat) :
    ∀ s : State Nat W, ∃ o o', FinishesFrom (step host IROperand.getVregIdx) ctx.code (ctx.code c) s o ∧
      FinishesFrom (step host IROperand.getVregIdx) graph (chainFrom ctx owner joined c) s o' ∧
      SameView o o' := by
  induction hSize : ctx.blockCount - c using Nat.strong_induction_on generalizing c with
  | _ size ih =>
    intro s
    cases hJoined : joined c with
    | false =>
      rw [chainFrom_last h hChains hJoined]
      generalize hOut : execBlock (step host IROperand.getVregIdx) (ctx.code c) s = out
      by_cases hComplete : out.Complete
      · exact ⟨out, out, hOut ▸ finishesFrom_leave (hOut ▸ hComplete),
          hOut ▸ finishesFrom_leave (hOut ▸ hComplete), SameView.refl out⟩
      · obtain ⟨t, hGoto⟩ := not_forall_not.mp hComplete
        obtain ⟨insn, hMem, hTarget⟩ := exists_target_of_goto (hOut ▸ hGoto)
        obtain ⟨hMemAll, hHere, hLive⟩ := mem_codeOf.mp hMem
        obtain ⟨hLt, hBound⟩ := h.targets insn hMemAll hLive t hTarget
        have hCount := h.count
        obtain ⟨o, o', hOld, hNew, hView⟩ := ih (ctx.blockCount - t) (by omega) t rfl out.state
        subst hOut
        refine ⟨_, _, finishesFrom_goto hGoto hOld, finishesFrom_goto hGoto ?_, hView.after rfl⟩
        have hEntry := hChains.entry c hJoined insn hMem t hTarget
        exact finishesFrom_content (hGraph t hEntry (by omega)) hNew
    | true =>
      obtain ⟨t, body, j, -, hCode, hType, hTarget, hBody, hLt, hBound, hChain⟩ := chainFrom_joined h hChains hJoined
      rw [hCode, hChain]
      by_cases hFall : (execBlock (step host IROperand.getVregIdx) body s).next = .fall
      · obtain ⟨o, o', hOld, hNew, hView⟩ := ih (ctx.blockCount - t) (by omega) t rfl
          (execBlock (step host IROperand.getVregIdx) body s).state
        obtain ⟨m, hJump, hSkip⟩ := finishesFrom_jump hType hTarget hOld
        exact ⟨_, _, finishesFrom_append_fall hFall hJump, finishesFrom_append_fall hFall hNew,
          (hSkip.trans hView).after rfl⟩
      · have hComplete := @execBlock_complete W host _ hBody s
        exact ⟨_, _, finishesFrom_append_leave hFall hComplete,
          finishesFrom_append_leave hFall hComplete, SameView.refl _⟩

end Run

end Graph

/-! ### The result -/

theorem jumpOf_eq_code (insns : List IRInstruction) (block : Nat) :
    jumpOf insns block = ((codeOf block insns).reverse.find? fun insn => insn.type = .jmp).map
      fun insn => (insn.operand 0).blockId := by
  rw [jumpOf, codeOf, ← List.filter_reverse, List.find?_filter]
  congr 2
  funext insn
  by_cases hBlock : insn.irBlock = block <;> simp [isJump, hBlock]

/-- Chains are a property of the graph, not of the buffer. -/
theorem Chains.congr {ctx ctx' : TranslationContext} {owner : Nat → Nat} {joined : Nat → Bool}
    (h : Chains ctx' owner joined) (hCode : ∀ b, ctx'.code b = ctx.code b) :
    Chains ctx owner joined := by
  have hJump : ∀ b, jumpOf ctx'.insns b = jumpOf ctx.insns b := by
    intro b
    rw [jumpOf_eq_code, jumpOf_eq_code, ← TranslationContext.code, ← TranslationContext.code, hCode]
  refine ⟨h.owner_le, h.owner_owner, fun c hJoined => ?_, h.last, fun c hUnjoined insn hMem => ?_⟩
  · rw [← hJump]
    exact h.next c hJoined
  · exact h.entry c hUnjoined insn (by rw [hCode]; exact hMem)

/-- Every block of `ctx` is in one block of `ctx'`, whole and in order, where only
a jump to the block that now follows may be missing. -/
def Rearranged (ctx ctx' : TranslationContext) : Prop :=
  ∃ owner joined, Chains ctx owner joined ∧ ∀ b,
    (ctx'.code b).map IRInstruction.content =
      ((List.range ctx.blockCount).flatMap (piece ctx owner joined b)).map IRInstruction.content

theorem mergeLoop_succ {predCount succs : Nat → Nat} {fuel : Nat} {workList : List Nat}
    {insns result : List IRInstruction} (h : mergeLoop predCount fuel workList succs insns = some result) :
    mergeLoop predCount (fuel + 1) workList succs insns = some result := by
  induction fuel generalizing workList succs insns with
  | zero =>
    cases workList with
    | nil => exact h
    | cons block rest => cases h
  | succ fuel ih =>
    cases workList with
    | nil => exact h
    | cons block rest =>
      rw [mergeLoop] at h ⊢
      dsimp only at h ⊢
      split at h
      · rw [if_pos (by assumption)]
        exact ih h
      · rw [if_neg (by assumption)]
        cases hMerge : mergeBlock insns (succs block) block with
        | none =>
          rw [hMerge] at h
          exact ih h
        | some insns' =>
          rw [hMerge] at h
          exact ih h

theorem mergeLoop_of_le {predCount succs : Nat → Nat} {fuel fuel' : Nat} {workList : List Nat}
    {insns result : List IRInstruction} (hLe : fuel ≤ fuel')
    (h : mergeLoop predCount fuel workList succs insns = some result) :
    mergeLoop predCount fuel' workList succs insns = some result := by
  induction hLe with
  | refl => exact h
  | step _ ih => exact mergeLoop_succ ih

theorem placed_id (insns : List IRInstruction) : insns.map (placed id fun _ => false) = insns := by
  conv_rhs => rw [← List.map_id insns]
  apply List.map_congr_left
  intro insn _
  unfold placed
  split
  · rfl
  · rw [if_neg (by simp)]
    rfl

theorem workList_length {ctx : TranslationContext} (h : Ordered ctx) (hSorted : Sorted (·.irBlock) ctx.insns) :
    (identify ctx.insns).workList.length ≤ ctx.blockCount := by
  have hNodup : (identify ctx.insns).workList.Nodup := (merging_start h hSorted).descending.imp fun hGt => ne_of_gt hGt
  have hSubset : (identify ctx.insns).workList ⊆ List.range ctx.blockCount := by
    intro block hMem
    rw [identify_workList, List.mem_reverse, List.mem_map] at hMem
    obtain ⟨insn, hInsn, rfl⟩ := hMem
    obtain ⟨hInsn, hJump⟩ := List.mem_filter.mp hInsn
    simp only [isJump, Bool.and_eq_true, decide_eq_true_eq] at hJump
    exact List.mem_range.mpr (h.ids insn hInsn hJump.1)
  simpa using (hNodup.subperm hSubset).length_le

theorem placed_le {ctx : TranslationContext} (h : Ordered ctx) {owner : Nat → Nat}
    {joined : Nat → Bool} (hChains : Chains ctx owner joined) :
    ∀ insn ∈ ctx.insns.map (placed owner joined), insn.irBlock ≤ nopBlock := by
  intro insn hMem
  obtain ⟨old, hOld, rfl⟩ := List.mem_map.mp hMem
  have hLe := SortIR.irBlock_le h old hOld
  unfold placed
  split
  · exact hLe
  · split
    · exact Nat.le_refl _
    · exact (hChains.owner_le _).trans hLe

/-- Merging blocks and sorting gives the same traces from block 0. No instruction
but the joining jumps is lost, none is duplicated, and each block keeps its
order. -/
theorem apply_preserves (ctx : TranslationContext) (h : Ordered ctx) :
    ∃ merged, (∀ fuel, 2 * ctx.blockCount ≤ fuel → apply fuel ctx = some merged) ∧
      SameTraces ctx (SortIR.apply merged) ∧ Rearranged ctx (SortIR.apply merged) := by
  have hLe := SortIR.irBlock_le h
  have hSorted := (SortIR.apply_spec ctx hLe).sorted
  have hCount := SortIR.apply_blockCount ctx
  have hCode : (SortIR.apply ctx).code = ctx.code := funext (SortIR.apply_code hLe)
  have hBase := SortIR.apply_ordered h
  generalize hApply : SortIR.apply ctx = base at hSorted hCount hCode hBase
  have hOpen : (openBlocks base.blockCount fun _ => false).card ≤ base.blockCount := by
    simp [openBlocks]
  have hWork := workList_length hBase hSorted
  obtain ⟨owner, joined, hChains, hLoop⟩ := mergeLoop_spec hBase hSorted (2 * ctx.blockCount)
    (merging_start hBase hSorted) (by omega)
  rw [placed_id] at hLoop
  refine ⟨{ base with insns := base.insns.map (placed owner joined) }, fun fuel hFuel => ?_, ?_⟩
  · rw [apply, hApply, mergeLoop_of_le hFuel hLoop]
    rfl
  generalize hMerged : { base with insns := base.insns.map (placed owner joined) } = merged
  have hGraph : ∀ b, ((SortIR.apply merged).code b).map IRInstruction.content =
      ((List.range base.blockCount).flatMap (piece base owner joined b)).map
        IRInstruction.content := by
    intro b
    subst hMerged
    rw [SortIR.apply_code (placed_le hBase hChains), TranslationContext.code, codeOf_placed,
      filter_movedTo hBase hSorted]
    intro insn hMem hLive
    have hId := hBase.ids insn hMem hLive
    have hOwner := hChains.owner_le insn.irBlock
    have hBound := hBase.count
    omega
  constructor
  · intro W host s
    have hRoot : owner 0 = 0 := Nat.le_zero.mp (hChains.owner_le 0)
    have hOwners : ∀ b, owner b = b → b ≠ nopBlock →
        ((SortIR.apply merged).code b).map IRInstruction.content =
          (chainFrom base owner joined b).map IRInstruction.content := by
      intro b hb _
      rw [hGraph, flatMap_piece_eq_chainFrom hChains hb]
    obtain ⟨o, o', hOld, hNew, hView⟩ := @chain_run base hBase W host owner joined _ hChains hOwners 0 s
    rw [hCode] at hOld
    exact ⟨o, o', hOld, finishesFrom_content (hOwners 0 hRoot (by decide)) hNew, hView⟩
  · refine ⟨owner, joined, hChains.congr (congrFun hCode), fun b => ?_⟩
    rw [hGraph, hCount]
    unfold piece
    rw [hCode]

/-- A branch whose arms meet again, with a jump chain behind the join. -/
def diamond : TranslationContext where
  insns := [
    ⟨.branch, [.vreg 0 1, .block 1, .block 2], 0⟩,
    ⟨.jmp, [.block 3], 1⟩,
    ⟨.writeReg, [.constant 1 4, .constant 0 4], 2⟩,
    ⟨.jmp, [.block 3], 2⟩,
    ⟨.jmp, [.block 4], 3⟩,
    ⟨.ret, [], 4⟩]
  regCount := 1
  blockCount := 5

theorem diamond_ordered : Ordered diamond where
  count := by decide
  ids := by decide
  ends b := by
    match b with
    | 0 | 1 | 2 | 3 | 4 => decide
    | b + 5 => simp [TranslationContext.code, codeOf, diamond]
  targets := by decide

theorem apply_preserves_diamond :
    Ordered diamond ∧ ∃ merged, (∀ fuel, 10 ≤ fuel → apply fuel diamond = some merged) ∧
      SameTraces diamond (SortIR.apply merged) ∧ Rearranged diamond (SortIR.apply merged) :=
  ⟨diamond_ordered, apply_preserves diamond diamond_ordered⟩

end Gensim.BlockJIT.MergeBlocks
