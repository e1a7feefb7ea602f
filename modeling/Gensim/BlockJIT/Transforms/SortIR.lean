import Gensim.BlockJIT.IRSorter
import Gensim.BlockJIT.Trace

/-! `SortIRTransform`: bring the buffer into block order with deleted
instructions last. One pass decides whether anything has to be done and which
sorter is needed. -/
namespace Gensim.BlockJIT.SortIR

open StableSort

structure Flags where
  irSorted : Bool
  nopsSorted : Bool
  foundNops : Bool
  prevBlock : Nat

def visit (flags : Flags) (insn : IRInstruction) : Flags :=
  if insn.irBlock = nopBlock then { flags with foundNops := true }
  else
    { irSorted := if insn.irBlock < flags.prevBlock then false else flags.irSorted
      nopsSorted := if flags.foundNops then false else flags.nopsSorted
      foundNops := flags.foundNops
      prevBlock := insn.irBlock }

/-- `prev_block` starts as the block of the first instruction. The code reads
it from an empty buffer too, where `ctx.at(0)` is no instruction; a buffer that
is translated has at least one, and without one the loop has no rounds that
would look at the `0` given here. -/
def inspect (insns : List IRInstruction) : Flags :=
  insns.foldl visit ⟨true, true, false, ((insns.head?).map (·.irBlock)).getD 0⟩

def apply (ctx : TranslationContext) : TranslationContext :=
  let flags := inspect ctx.insns
  if !flags.irSorted then { ctx with insns := IRSorter.mergeSort ctx.insns }
  else if !flags.nopsSorted then { ctx with insns := IRSorter.nopFilter ctx.insns }
  else ctx

/-! ### What the flags mean -/

theorem sorted_of_flag {insns : List IRInstruction} {flags : Flags} (h : (insns.foldl visit flags).irSorted = true) :
    flags.irSorted = true ∧ (∀ insn ∈ insns, insn.irBlock ≠ nopBlock → flags.prevBlock ≤ insn.irBlock) ∧
      insns.Pairwise fun i j => i.irBlock ≠ nopBlock → j.irBlock ≠ nopBlock → i.irBlock ≤ j.irBlock := by
  induction insns generalizing flags with
  | nil => exact ⟨h, by simp, .nil⟩
  | cons insn rest ih =>
    rw [List.foldl_cons] at h
    obtain ⟨hFlag, hPrev, hRest⟩ := ih h
    rw [List.pairwise_cons]
    by_cases hNop : insn.irBlock = nopBlock
    · rw [visit, if_pos hNop] at hFlag hPrev
      refine ⟨hFlag, fun other hMem hLive => ?_, fun other _ hLive => absurd hNop hLive, hRest⟩
      rcases List.mem_cons.mp hMem with rfl | hMem
      · exact absurd hNop hLive
      · exact hPrev other hMem hLive
    · rw [visit, if_neg hNop] at hFlag hPrev
      dsimp only at hFlag hPrev
      have hLe : flags.prevBlock ≤ insn.irBlock := by
        by_contra hLess
        rw [if_pos (by omega)] at hFlag
        cases hFlag
      rw [if_neg (by omega)] at hFlag
      refine ⟨hFlag, fun other hMem hLive => ?_, fun other hMem _ hLive => hPrev other hMem hLive, hRest⟩
      rcases List.mem_cons.mp hMem with rfl | hMem
      · exact hLe
      · exact hLe.trans (hPrev other hMem hLive)

theorem nops_last_of_flag {insns : List IRInstruction} {flags : Flags}
    (h : (insns.foldl visit flags).nopsSorted = true) :
    (flags.foundNops = true → ∀ insn ∈ insns, insn.irBlock = nopBlock) ∧
      insns.Pairwise fun i j => i.irBlock = nopBlock → j.irBlock = nopBlock := by
  have hKeeps : ∀ (rest : List IRInstruction) (flags : Flags), flags.nopsSorted = false →
      (rest.foldl visit flags).nopsSorted = false := by
    intro rest
    induction rest with
    | nil => exact fun _ hFlag => hFlag
    | cons insn rest ih =>
      intro flags hFlag
      refine ih _ ?_
      unfold visit
      split
      · exact hFlag
      · simp [hFlag]
  induction insns generalizing flags with
  | nil => exact ⟨by simp, .nil⟩
  | cons insn rest ih =>
    rw [List.foldl_cons] at h
    obtain ⟨hFound, hRest⟩ := ih h
    rw [List.pairwise_cons]
    by_cases hNop : insn.irBlock = nopBlock
    · rw [visit, if_pos hNop] at hFound
      refine ⟨fun _ other hMem => ?_, fun other hMem _ => hFound rfl other hMem, hRest⟩
      rcases List.mem_cons.mp hMem with rfl | hMem
      · exact hNop
      · exact hFound rfl other hMem
    · refine ⟨fun hFlag => ?_, fun other _ hHere => absurd hHere hNop, hRest⟩
      rw [hKeeps rest _ (by rw [visit, if_neg hNop]; simp [hFlag])] at h
      cases h

/-! ### The sorted buffer -/

/-- Ordered by block, with every block's instructions in their old order. -/
structure SortsBlocks (insns insns' : List IRInstruction) : Prop where
  sorted : Sorted (·.irBlock) insns'
  blocks : ∀ block, block ≠ nopBlock →
    insns'.filter (fun insn => insn.irBlock = block) = insns.filter fun insn => insn.irBlock = block

theorem codeOf_eq_filter (block : Nat) (insns : List IRInstruction) : codeOf block insns =
      if block = nopBlock then [] else insns.filter fun insn => insn.irBlock = block := by
  split
  · rename_i hNop
    rw [codeOf, List.filter_eq_nil_iff]
    intro insn _
    simp [hNop]
  · rename_i hNop
    rw [codeOf]
    congr 1
    funext insn
    by_cases hBlock : insn.irBlock = block <;> simp [hBlock, hNop]

theorem SortsBlocks.codeOf_eq {insns insns' : List IRInstruction} (h : SortsBlocks insns insns')
    (block : Nat) : codeOf block insns' = codeOf block insns := by
  rw [codeOf_eq_filter, codeOf_eq_filter]
  split
  · rfl
  · exact h.blocks block (by assumption)

theorem SortsBlocks.mem_iff {insns insns' : List IRInstruction} (h : SortsBlocks insns insns')
    {insn : IRInstruction} (hLive : insn.irBlock ≠ nopBlock) : insn ∈ insns' ↔ insn ∈ insns := by
  have hCode : ∀ l, insn ∈ l ↔ insn ∈ codeOf insn.irBlock l := by
    intro l
    simp [mem_codeOf, hLive]
  rw [hCode insns', hCode insns, h.codeOf_eq]

theorem apply_spec (ctx : TranslationContext) (h : ∀ insn ∈ ctx.insns, insn.irBlock ≤ nopBlock) :
    SortsBlocks ctx.insns (apply ctx).insns := by
  unfold apply
  dsimp only
  cases hSorted : (inspect ctx.insns).irSorted with
  | false =>
    have hMerge := IRSorter.mergeSort_spec fun insn hMem =>
      lt_of_le_of_lt (h insn hMem) (by decide)
    exact ⟨hMerge.sorted, fun block _ => hMerge.classes block⟩
  | true =>
    have hOrder := (sorted_of_flag hSorted).2.2
    cases hNops : (inspect ctx.insns).nopsSorted with
    | false =>
      obtain ⟨deleted, hFilter, hDeleted⟩ := IRSorter.nopFilter_spec ctx.insns
      simp only [Bool.not_true, Bool.false_eq_true, ↓reduceIte, Bool.not_false, hFilter]
      constructor
      · rw [Sorted, List.pairwise_append, List.pairwise_filter]
        refine ⟨hOrder.imp fun hLe hi hj => hLe (by simpa using hi) (by simpa using hj), ?_, ?_⟩
        · refine List.pairwise_of_forall_mem_list fun i hi j hj => ?_
          exact (hDeleted i hi).trans_le (hDeleted j hj).ge
        · intro i hi j hj
          rw [hDeleted j hj]
          exact h i (List.mem_filter.mp hi).1
      · intro block hBlock
        have hNone : deleted.filter (fun insn => insn.irBlock = block) = [] := by
          rw [List.filter_eq_nil_iff]
          intro insn hMem
          simp [hDeleted insn hMem, Ne.symm hBlock]
        rw [List.filter_append, hNone, List.append_nil, List.filter_filter]
        congr 1
        funext insn
        by_cases hHere : insn.irBlock = block <;> simp [hHere, hBlock]
    | true =>
      have hLast := (nops_last_of_flag hNops).2
      refine ⟨?_, fun _ _ => rfl⟩
      refine (List.Pairwise.and hOrder hLast).imp_of_mem ?_
      intro i j hi hj hBoth
      by_cases hNopJ : j.irBlock = nopBlock
      · exact (h i hi).trans_eq hNopJ.symm
      · exact hBoth.1 (fun hNopI => hNopJ (hBoth.2 hNopI)) hNopJ

theorem apply_perm (ctx : TranslationContext) (h : ∀ insn ∈ ctx.insns, insn.irBlock ≤ nopBlock) :
    (apply ctx).insns.Perm ctx.insns := by
  unfold apply
  dsimp only
  split
  · exact (IRSorter.mergeSort_spec fun insn hMem => lt_of_le_of_lt (h insn hMem) (by decide)).classes.perm
  · split
    · exact IRSorter.nopFilter_perm ctx.insns
    · exact .refl _

/-- The buffer is only compacted: the instructions are in order but for the deleted ones. -/
def compacts (ctx : TranslationContext) : Bool := (inspect ctx.insns).irSorted && !(inspect ctx.insns).nopsSorted

/-- Sorting gives a permutation in the order of the blocks, with the deleted instructions last. The
instructions of a block keep their order, the deleted ones too unless the buffer is only compacted. -/
theorem sorts_stably (ctx : TranslationContext) (h : ∀ insn ∈ ctx.insns, insn.irBlock ≤ nopBlock) :
    (apply ctx).insns.Perm ctx.insns ∧ Sorted (·.irBlock) (apply ctx).insns ∧
      ((apply ctx).insns.Pairwise fun i j => i.irBlock = nopBlock → j.irBlock = nopBlock) ∧
      ∀ block, (block = nopBlock → compacts ctx = false) →
        (apply ctx).insns.filter (fun insn => insn.irBlock = block) =
          ctx.insns.filter fun insn => insn.irBlock = block := by
  have hSorts := apply_spec ctx h
  have hPerm := apply_perm ctx h
  refine ⟨hPerm, hSorts.sorted, ?_, fun block hBlock => ?_⟩
  · refine hSorts.sorted.imp_of_mem ?_
    intro i j hi hj hLe hNop
    exact le_antisymm (h j (hPerm.mem_iff.mp hj)) (hNop ▸ hLe)
  · by_cases hNop : block = nopBlock
    · have hPath := hBlock hNop
      unfold compacts at hPath
      unfold apply
      dsimp only
      cases hSorted : (inspect ctx.insns).irSorted with
      | false =>
          exact (IRSorter.mergeSort_spec fun insn hMem => lt_of_le_of_lt (h insn hMem) (by decide)).classes block
      | true =>
          rw [hSorted, Bool.true_and, Bool.not_eq_false'] at hPath
          rw [hPath]
          rfl
    · exact hSorts.blocks block hNop

/-- Two deleted instructions before one that is not. -/
def twoDeleted : TranslationContext where
  insns := [⟨.intcheck, [], 0⟩, ⟨.nop, [], nopBlock⟩, ⟨.trap, [], nopBlock⟩, ⟨.ret, [], 0⟩]
  regCount := 0
  blockCount := 1

theorem sorts_stably_twoDeleted : (∀ insn ∈ twoDeleted.insns, insn.irBlock ≤ nopBlock) ∧
    (apply twoDeleted).insns.Perm twoDeleted.insns ∧ Sorted (·.irBlock) (apply twoDeleted).insns :=
  ⟨by decide, (sorts_stably twoDeleted (by decide)).1, (sorts_stably twoDeleted (by decide)).2.1⟩

/-- The compaction exchanges the first deleted instruction with the one that is kept, and so passes it
behind the second. -/
theorem deleted_change_places :
    (∀ insn ∈ twoDeleted.insns, insn.irBlock ≤ nopBlock) ∧
      (apply twoDeleted).insns.filter (fun insn => insn.irBlock = nopBlock) ≠
        twoDeleted.insns.filter fun insn => insn.irBlock = nopBlock := by
  have hLoop : IRSorter.nopFilterLoop (IRSorter.blockAt twoDeleted.insns) 4 (List.range 4) 0 1 = [0, 3, 2, 1] := by
    simp [IRSorter.nopFilterLoop, IRSorter.findReal, IRSorter.keyAt, IRSorter.blockAt, twoDeleted, nopBlock,
      IRSorter.exchange, List.range, List.range.loop]
  have hApply : (apply twoDeleted).insns = IRSorter.copyRuns twoDeleted.insns [0, 3, 2, 1] :=
    congrArg (IRSorter.copyRuns twoDeleted.insns) hLoop
  refine ⟨by decide, ?_⟩
  rw [hApply, IRSorter.copyRuns_eq]
  decide

theorem apply_blockCount (ctx : TranslationContext) : (apply ctx).blockCount = ctx.blockCount := by
  unfold apply
  dsimp only
  split
  · rfl
  · split <;> rfl

theorem irBlock_le {ctx : TranslationContext} (h : Ordered ctx) : ∀ insn ∈ ctx.insns, insn.irBlock ≤ nopBlock := by
  intro insn hMem
  by_cases hNop : insn.irBlock = nopBlock
  · exact hNop.le
  · exact (h.ids insn hMem hNop).le.trans h.count

theorem apply_code {ctx : TranslationContext} (h : ∀ insn ∈ ctx.insns, insn.irBlock ≤ nopBlock)
    (block : Nat) : (apply ctx).code block = ctx.code block :=
  (apply_spec ctx h).codeOf_eq block

/-- Sorting does not touch the graph. -/
theorem apply_ordered {ctx : TranslationContext} (h : Ordered ctx) : Ordered (apply ctx) := by
  have hSorts := apply_spec ctx (irBlock_le h)
  refine ⟨?_, fun insn hMem hLive => ?_, fun b => ?_, fun insn hMem hLive t ht => ?_⟩
  · rw [apply_blockCount]
    exact h.count
  · rw [apply_blockCount]
    exact h.ids insn ((hSorts.mem_iff hLive).mp hMem) hLive
  · rw [apply_code (irBlock_le h)]
    exact h.ends b
  · rw [apply_blockCount]
    exact h.targets insn ((hSorts.mem_iff hLive).mp hMem) hLive t ht

end Gensim.BlockJIT.SortIR
