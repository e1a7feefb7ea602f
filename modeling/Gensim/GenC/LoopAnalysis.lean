import Gensim.GenC.Dominance
import Gensim.Lib.DepthFirst

/-! `LoopAnalysis`: a depth-first traversal that keeps its marks in vectors of flags, which are
indexed by the numbers that the blocks are given first. -/
namespace Gensim.GenC.LoopAnalysis

open DepthFirst (LeadsToCycle)

variable {β : Type} [DecidableEq β]

/-! ### The analysis -/

/-- `block_idxs[i] = block_idxs.size()`. The compiled code takes the size before it makes an entry for the
block, so that the numbers start at 0. -/
def assignIndex (blockIdxs : List (β × Nat)) (block : β) : List (β × Nat) :=
  (block, blockIdxs.length) :: blockIdxs.filter fun entry => entry.1 ≠ block

def blockIdxsOf (blocks : List β) : List (β × Nat) :=
  blocks.foldl assignIndex []

/-- What the recursion changes: the blocks that it has come to, and those on the way to the current one. -/
structure Flags where
  visited : List Bool
  recStack : List Bool

/-- An access behind the end of a vector is undefined. -/
def write (flags : List Bool) (idx : Nat) (value : Bool) : Option (List Bool) :=
  if idx < flags.length then some (flags.set idx value) else none

def followSuccessors (blockIdxs : List (β × Nat)) (visit : β → Flags → Option (Bool × Flags)) :
    List β → Flags → Option (Bool × Flags)
  | [], v => some (false, v)
  | succ :: rest, v => do
      let succIdx ← blockIdxs.lookup succ
      let seen ← v.visited[succIdx]?
      let (found, v) ← (if seen then some (false, v) else visit succ v)
      if found then some (true, v)
      else
        let onStack ← v.recStack[succIdx]?
        if onStack then some (true, v) else followSuccessors blockIdxs visit rest v

/-- The recursion to a depth of at most `depth`. -/
def visitBlock (g : ControlFlowGraph β) (blockIdxs : List (β × Nat)) :
    Nat → β → Flags → Option (Bool × Flags)
  | 0, _, _ => none
  | depth + 1, block, v => do
      let blockIdx ← blockIdxs.lookup block
      let seen ← v.visited[blockIdx]?
      let (found, v) ←
        (if seen then some (false, v)
        else do
          let visited ← write v.visited blockIdx true
          let recStack ← write v.recStack blockIdx true
          followSuccessors blockIdxs (visitBlock g blockIdxs depth) (g.successors block) ⟨visited, recStack⟩)
      if found then some (true, v)
      else
        let recStack ← write v.recStack blockIdx false
        some (false, { v with recStack := recStack })

/-- The blocks on the way from the entry differ, so the recursion is no deeper than there are blocks. -/
def loopExists (g : ControlFlowGraph β) : Option Bool :=
  let flags := List.replicate g.blocks.length false
  (visitBlock g (blockIdxsOf g.blocks) g.blocks.length g.entry ⟨flags, flags⟩).map Prod.fst

/-! ### Indices -/

theorem assignIndex_new {blockIdxs : List (β × Nat)} {b : β} (hNew : ∀ entry ∈ blockIdxs, entry.1 ≠ b) :
    assignIndex blockIdxs b = (b, blockIdxs.length) :: blockIdxs := by
  rw [assignIndex, List.filter_eq_self.mpr fun entry hEntry => decide_eq_true (hNew entry hEntry)]

theorem lookup_foldl {blocks : List β} (hNodup : blocks.Nodup) {blockIdxs : List (β × Nat)}
    (hNew : ∀ entry ∈ blockIdxs, entry.1 ∉ blocks) (b : β) : (blocks.foldl assignIndex blockIdxs).lookup b =
      if b ∈ blocks then some (blockIdxs.length + blocks.idxOf b) else blockIdxs.lookup b := by
  induction blocks generalizing blockIdxs with
  | nil => rw [List.foldl_nil, if_neg (List.not_mem_nil)]
  | cons c rest ih =>
    obtain ⟨hHere, hRest⟩ := List.nodup_cons.mp hNodup
    rw [List.foldl_cons, assignIndex_new fun entry hEntry hSame => hNew entry hEntry (by simp [hSame])]
    have hLater : ∀ entry ∈ (c, blockIdxs.length) :: blockIdxs, entry.1 ∉ rest := by
      intro entry hEntry
      rcases List.mem_cons.mp hEntry with rfl | hEntry
      · exact hHere
      · exact fun hMem => hNew entry hEntry (List.mem_cons_of_mem _ hMem)
    rw [ih hRest hLater]
    by_cases hSame : b = c
    · subst hSame
      rw [if_neg hHere, if_pos List.mem_cons_self, List.lookup_cons_self, List.idxOf_cons_self, Nat.add_zero]
    · rw [List.lookup_cons, beq_false_of_ne hSame, List.idxOf_cons_ne _ (fun hEq => hSame hEq.symm)]
      by_cases hMem : b ∈ rest
      · rw [if_pos hMem, if_pos (List.mem_cons_of_mem _ hMem), List.length_cons]
        congr 1
        omega
      · have hNot : b ∉ c :: rest := by simp [hSame, hMem]
        rw [if_neg hMem, if_neg hNot]

/-- Every block has its own index. -/
theorem lookup_blockIdxsOf {blocks : List β} (hNodup : blocks.Nodup) {b : β} (hMem : b ∈ blocks) :
    (blockIdxsOf blocks).lookup b = some (blocks.idxOf b) := by
  rw [blockIdxsOf, lookup_foldl hNodup (List.forall_mem_nil _), if_pos hMem, List.length_nil, Nat.zero_add]

/-! ### Flags and sets -/

section Refinement

variable {g : ControlFlowGraph β} (hNodup : g.blocks.Nodup)

/-- The flags say which of the blocks are in the set. -/
structure Marks (g : ControlFlowGraph β) (set : Finset β) (flags : List Bool) : Prop where
  length : flags.length = g.blocks.length
  get : ∀ b ∈ g.blocks, flags[g.blocks.idxOf b]? = some (decide (b ∈ set))

/-- The flags of the traversal against the sets of the search. -/
structure Represents (g : ControlFlowGraph β) (s : DepthFirst.State β) (v : Flags) : Prop where
  visited : Marks g s.visited v.visited
  recStack : Marks g s.stack v.recStack

variable {flags : List Bool} {b : β}

theorem Marks.write {set set' : Finset β} (h : Marks g set flags) (hBlock : b ∈ g.blocks) {value : Bool}
    (hValue : decide (b ∈ set') = value) (hSame : ∀ c, c ≠ b → (c ∈ set' ↔ c ∈ set)) :
    ∃ flags', LoopAnalysis.write flags (g.blocks.idxOf b) value = some flags' ∧ Marks g set' flags' := by
  have hIdx : g.blocks.idxOf b < flags.length := h.length ▸ List.idxOf_lt_length_of_mem hBlock
  refine ⟨flags.set (g.blocks.idxOf b) value, if_pos hIdx, by rw [List.length_set, h.length], ?_⟩
  intro c hc
  rw [List.getElem?_set]
  by_cases hEq : c = b
  · subst hEq
    rw [if_pos rfl, if_pos hIdx, hValue]
  · rw [if_neg fun hIdxEq => hEq ((List.idxOf_inj hBlock).mp hIdxEq).symm, h.get c hc]
    exact congrArg some (decide_eq_decide.mpr (hSame c hEq).symm)

theorem Marks.insert {set : Finset β} (h : Marks g set flags) (hBlock : b ∈ g.blocks) :
    ∃ flags', LoopAnalysis.write flags (g.blocks.idxOf b) true = some flags' ∧
      Marks g (insert b set) flags' :=
  h.write hBlock (decide_eq_true (Finset.mem_insert_self b set))
    fun _ hNe => ⟨fun hMem => Finset.mem_of_mem_insert_of_ne hMem hNe, Finset.mem_insert_of_mem⟩

theorem Marks.erase {set : Finset β} (h : Marks g set flags) (hBlock : b ∈ g.blocks) :
    ∃ flags', LoopAnalysis.write flags (g.blocks.idxOf b) false = some flags' ∧
      Marks g (set.erase b) flags' :=
  h.write hBlock (decide_eq_false (Finset.notMem_erase b set))
    fun _ hNe => ⟨Finset.mem_of_mem_erase, fun hMem => Finset.mem_erase_of_ne_of_mem hNe hMem⟩

/-- The traversal is inside its vectors and does what the search does. -/
def Follows (g : ControlFlowGraph β) (r : Bool × DepthFirst.State β) (result : Option (Bool × Flags)) : Prop :=
  ∃ v, result = some (r.1, v) ∧ Represents g r.2 v

theorem followSuccessors_cons {blockIdxs : List (β × Nat)} {visit : β → Flags → Option (Bool × Flags)} {c : β}
    {i : Nat} (hLookup : blockIdxs.lookup c = some i) (rest : List β) (v : Flags) :
    followSuccessors blockIdxs visit (c :: rest) v =
      v.visited[i]?.bind fun seen => (if seen then some (false, v) else visit c v).bind fun r =>
        if r.1 then some (true, r.2) else r.2.recStack[i]?.bind fun onStack =>
          if onStack then some (true, r.2) else followSuccessors blockIdxs visit rest r.2 := by
  rw [followSuccessors, hLookup]
  rfl

include hNodup

theorem followSuccessors_follows {search : β → DepthFirst.State β → Option (Bool × DepthFirst.State β)}
    {visit : β → Flags → Option (Bool × Flags)}
    (hLeaves : ∀ c t t', search c t = some (false, t') → c ∉ t'.stack)
    (hVisit : ∀ c t r v, search c t = some r → c ∉ t.visited → c ∈ g.blocks → Represents g t v →
      Follows g r (visit c v))
    {cs : List β} (hcs : ∀ c ∈ cs, c ∈ g.blocks) {s : DepthFirst.State β} {r : Bool × DepthFirst.State β}
    {v : Flags} (h : DepthFirst.follow search cs s = some r) (hRep : Represents g s v) :
    Follows g r (followSuccessors (blockIdxsOf g.blocks) visit cs v) := by
  induction cs generalizing s v with
  | nil =>
    cases h
    exact ⟨v, rfl, hRep⟩
  | cons c rest ih =>
    have hBlock := hcs c List.mem_cons_self
    have hRest : ∀ d ∈ rest, d ∈ g.blocks := fun d hd => hcs d (List.mem_cons_of_mem _ hd)
    rw [DepthFirst.follow] at h
    rw [followSuccessors_cons (lookup_blockIdxsOf hNodup hBlock), hRep.visited.get c hBlock, Option.bind_some]
    by_cases hSeen : c ∈ s.visited
    · rw [if_pos hSeen] at h
      rw [decide_eq_true hSeen, if_pos rfl, Option.bind_some, if_neg Bool.false_ne_true,
        hRep.recStack.get c hBlock, Option.bind_some]
      by_cases hOn : c ∈ s.stack
      · rw [if_pos hOn] at h
        cases h
        rw [if_pos (decide_eq_true hOn)]
        exact ⟨v, rfl, hRep⟩
      · rw [if_neg hOn] at h
        rw [if_neg (by simpa using hOn)]
        exact ih hRest h hRep
    · rw [if_neg hSeen] at h
      obtain ⟨⟨found, t⟩, hSearch, hNext⟩ := Option.bind_eq_some_iff.mp h
      obtain ⟨w, hSome, hw⟩ := hVisit c s _ v hSearch hSeen hBlock hRep
      rw [decide_eq_false hSeen, if_neg Bool.false_ne_true, hSome, Option.bind_some]
      cases found with
      | true =>
        cases hNext
        exact ⟨w, rfl, hw⟩
      | false =>
        -- the block that was searched has left the stack again
        have hOff := hLeaves c s t hSearch
        rw [if_neg Bool.false_ne_true, hw.recStack.get c hBlock, Option.bind_some, if_neg (by simpa using hOff)]
        exact ih hRest hNext hw

omit hNodup in
theorem visitBlock_succ {blockIdxs : List (β × Nat)} {i depth : Nat} (hLookup : blockIdxs.lookup b = some i)
    (v : Flags) :
    visitBlock g blockIdxs (depth + 1) b v = v.visited[i]?.bind fun seen => (if seen then some (false, v)
        else (write v.visited i true).bind fun visited => (write v.recStack i true).bind fun recStack =>
          followSuccessors blockIdxs (visitBlock g blockIdxs depth) (g.successors b) ⟨visited, recStack⟩).bind
        fun r => if r.1 then some (true, r.2)
          else (write r.2.recStack i false).bind fun recStack => some (false, { r.2 with recStack := recStack }) := by
  rw [visitBlock, hLookup]
  rfl

theorem visitBlock_follows {depth : Nat} {s : DepthFirst.State β} {r : Bool × DepthFirst.State β} {v : Flags}
    (h : DepthFirst.visit g.successors depth b s = some r) (hNew : b ∉ s.visited) (hBlock : b ∈ g.blocks)
    (hRep : Represents g s v) : Follows g r (visitBlock g (blockIdxsOf g.blocks) depth b v) := by
  induction depth generalizing b s r v with
  | zero => exact nomatch h
  | succ depth ih =>
    rw [DepthFirst.visit] at h
    obtain ⟨⟨found, t⟩, hFollow, rfl⟩ := Option.map_eq_some_iff.mp h
    obtain ⟨visited, hVisited, hMarks⟩ := hRep.visited.insert hBlock
    obtain ⟨recStack, hRecStack, hStack⟩ := hRep.recStack.insert hBlock
    rw [visitBlock_succ (lookup_blockIdxsOf hNodup hBlock), hRep.visited.get b hBlock, decide_eq_false hNew,
      Option.bind_some, if_neg Bool.false_ne_true, hVisited, Option.bind_some, hRecStack, Option.bind_some]
    have hEntered : Represents g ⟨insert b s.visited, insert b s.stack⟩ ⟨visited, recStack⟩ := ⟨hMarks, hStack⟩
    obtain ⟨w, hSome, hw⟩ := followSuccessors_follows hNodup (fun c t t' => DepthFirst.notMem_stack_of_visit)
      (fun c t r v hc hNew hc' hw => ih hc hNew hc' hw) (g.successors_mem b hBlock) hFollow hEntered
    rw [hSome, Option.bind_some]
    cases found with
    | true => exact ⟨w, rfl, hw⟩
    | false =>
      obtain ⟨left, hWrite, hLeft⟩ := hw.recStack.erase hBlock
      refine ⟨{ w with recStack := left }, ?_, hw.visited, hLeft⟩
      rw [if_neg Bool.false_ne_true, hWrite]
      rfl

end Refinement

/-! ### Loops -/

/-- The analysis ends and says whether the entry leads to a loop. -/
def FindsLoops (g : ControlFlowGraph β) : Prop :=
  ∃ found, loopExists g = some found ∧ (found = true ↔ LeadsToCycle g.successors g.entry)

theorem represents_empty (g : ControlFlowGraph β) : Represents g ⟨∅, ∅⟩
      ⟨List.replicate g.blocks.length false, List.replicate g.blocks.length false⟩ := by
  have hMarks : Marks g ∅ (List.replicate g.blocks.length false) :=
    ⟨List.length_replicate, fun b hb => by simp [List.idxOf_lt_length_of_mem hb]⟩
  exact ⟨hMarks, hMarks⟩

/-- For every action the analysis stays inside its vectors, ends, and finds a loop exactly if the entry
leads to one. -/
theorem findsLoops (g : ControlFlowGraph β) (hNodup : g.blocks.Nodup) : FindsLoops g := by
  have hEntry : g.entry ∈ g.blocks.toFinset := List.mem_toFinset.mpr g.entry_mem
  obtain ⟨r, hSearch, hCycle⟩ := DepthFirst.search_spec
    (fun x hx y hy => List.mem_toFinset.mpr (g.successors_mem x (List.mem_toFinset.mp hx) y hy)) hEntry
    g.blocks.toFinset_card_le
  obtain ⟨v, hSome, -⟩ := visitBlock_follows hNodup hSearch (Finset.notMem_empty _) g.entry_mem (represents_empty g)
  refine ⟨r.1, ?_, hCycle⟩
  rw [loopExists, hSome]
  rfl

/-- Two ways from the entry that join again, and a block behind the join that jumps back to it. -/
def joinAndLoop : ControlFlowGraph Nat where
  blocks := [0, 1, 2, 3, 4]
  entry := 0
  successors b := [[1, 2], [3], [3], [4], [3]].getD b []
  entry_mem := by decide
  successors_mem := by decide

theorem findsLoops_joinAndLoop :
    joinAndLoop.blocks.Nodup ∧ FindsLoops joinAndLoop ∧ loopExists joinAndLoop = some true :=
  ⟨by decide, findsLoops joinAndLoop (by decide), by decide⟩

end Gensim.GenC.LoopAnalysis
