import Gensim.GenC.Run
import Gensim.Lib.Loop

/-! `RegisterAllocationAnalysis`: the values that a block uses get registers, block by block from the exits
backwards, apart from the values whose ranges in the block meet theirs. -/
namespace Gensim.GenC.RegisterAllocation

variable {A : Arch}

/-! ### The analysis -/

/-- The position of a statement in its own block. -/
def getIndex (a : Action A) (s : StatementId) : Nat :=
  match a.blocks.find? fun b => (a.body b).any (·.id = s) with
  | some b => (a.body b).findIdx (·.id = s)
  | none => 0

structure LiveRange where
  start : StatementId
  stop : StatementId

def LiveRange.intersectsWith (a : Action A) (r other : LiveRange) : Prop :=
  ¬ (getIndex a r.start ≥ getIndex a other.stop ∨ getIndex a r.stop ≤ getIndex a other.start)

instance (a : Action A) (r other : LiveRange) : Decidable (r.intersectsWith a other) :=
  inferInstanceAs (Decidable (¬ _))

/-- The block is read from its end, and the first use that is met is kept. -/
def lastUse : List (Statement A) → StatementId → Option StatementId
  | [], _ => none
  | stmt :: rest, s => (lastUse rest s).or (if s ∈ stmt.kind.operands then some stmt.id else none)

/-- The ranges in the order of the addresses of the statements they start at. -/
def liveRanges (stmtOrder : AddressOrder) (stmts : List (Statement A)) : List LiveRange :=
  (stmtOrder.sort (stmts.flatMap (·.kind.operands)).dedup).filterMap fun s => (lastUse stmts s).map (⟨s, ·⟩)

abbrev Allocation := StatementId → Option Nat

/-- The lowest of sixteen registers that no range which meets this one has. -/
def allocateRange (a : Action A) (ranges : List LiveRange) (allocation : Allocation) (r : LiveRange) : Allocation :=
  match (List.range 16).find? fun k => ∀ i ∈ ranges, i.start ≠ r.start → r.intersectsWith a i →
      allocation i.start ≠ some k with
  | some k => Function.update allocation r.start (some k)
  | none => allocation

def processBlock (stmtOrder : AddressOrder) (a : Action A) (allocation : Allocation) (b : BlockId) : Allocation :=
  let ranges := liveRanges stmtOrder (a.body b)
  ranges.foldl (allocateRange a ranges) allocation

structure Search where
  allocation : Allocation
  workList : List BlockId
  seenList : List BlockId

def Search.step (stmtOrder : AddressOrder) (a : Action A) (s : Search) : Option Search :=
  match s.workList with
  | [] => none
  | b :: rest =>
      if b ∈ s.seenList then some { s with workList := rest }
      else some ⟨processBlock stmtOrder a s.allocation b, rest ++ a.getPredecessors b, b :: s.seenList⟩

def getExitBlocks (order : AddressOrder) (a : Action A) : List BlockId :=
  order.sort (a.blocks.filter fun b => a.getSuccessors b = [])

/-- The number of registers is not looked at. -/
def allocate (order stmtOrder : AddressOrder) (a : Action A) (_maxRegs : Int) : Option Allocation :=
  (Loop.exhaust (Search.step stmtOrder a) (a.blocks.length * (a.blocks.length + 1) + 1)
    ⟨fun _ => none, getExitBlocks order a, []⟩).map Search.allocation

/-! ### Liveness -/

/-- A path from the definition of the value comes to the place before statement `i` of the block. -/
inductive DefinedTo (a : Action A) (s : StatementId) : BlockId → Nat → Prop
  | here {b : BlockId} {i : Nat} {stmt : Statement A} (hGet : (a.body b)[i]? = some stmt) (hId : stmt.id = s) :
      DefinedTo a s b (i + 1)
  | next {b : BlockId} {i : Nat} (hLess : i < (a.body b).length) (hBefore : DefinedTo a s b i) :
      DefinedTo a s b (i + 1)
  | edge {b c : BlockId} (hEdge : c ∈ a.getSuccessors b) (hBefore : DefinedTo a s b (a.body b).length) :
      DefinedTo a s c 0

/-- A path from the place before statement `i` comes to a use of the value, and not over its definition. -/
inductive UsedFrom (a : Action A) (s : StatementId) : BlockId → Nat → Prop
  | use {b : BlockId} {i : Nat} {stmt : Statement A} (hGet : (a.body b)[i]? = some stmt)
      (hUse : s ∈ stmt.kind.operands) : UsedFrom a s b i
  | next {b : BlockId} {i : Nat} {stmt : Statement A} (hGet : (a.body b)[i]? = some stmt) (hOther : stmt.id ≠ s)
      (hRest : UsedFrom a s b (i + 1)) : UsedFrom a s b i
  | edge {b c : BlockId} (hEdge : c ∈ a.getSuccessors b) (hRest : UsedFrom a s c 0) :
      UsedFrom a s b (a.body b).length

def Live (a : Action A) (s : StatementId) (b : BlockId) (i : Nat) : Prop :=
  DefinedTo a s b i ∧ UsedFrom a s b i

/-- Values that are live at one place of the action have different registers, and all registers exist. -/
structure InterferenceFree (a : Action A) (maxRegs : Int) (allocation : Allocation) : Prop where
  apart : ∀ s t k, s ≠ t → allocation s = some k → allocation t = some k →
    ¬ ∃ b ∈ a.blocks, ∃ i, Live a s b i ∧ Live a t b i
  below : ∀ s k, allocation s = some k → (k : Int) < maxRegs

def AllocatesApart (order stmtOrder : AddressOrder) (a : Action A) (maxRegs : Int) : Prop :=
  ∃ allocation, allocate order stmtOrder a maxRegs = some allocation ∧ InterferenceFree a maxRegs allocation

/-- The number of other ranges that meet a range. -/
def meeting (a : Action A) (ranges : List LiveRange) (r : LiveRange) : Nat :=
  ranges.countP fun i => i.start ≠ r.start ∧ r.intersectsWith a i

/-- Every use stands behind the definition, in the same block. -/
def LocalUses (a : Action A) : Prop :=
  ∀ b ∈ a.blocks, ∀ (i : Nat) (stmt : Statement A), (a.body b)[i]? = some stmt → ∀ s ∈ stmt.kind.operands,
    ∃ (j : Nat) (source : Statement A), j < i ∧ (a.body b)[j]? = some source ∧ source.id = s

/-! ### Positions -/

section Positions

variable {a : Action A} {b c : BlockId} {i j : Nat} {stmt stmt' : Statement A}

theorem position_unique (hShape : Structured a) (hb : b ∈ a.blocks) (hc : c ∈ a.blocks)
    (hGet : (a.body b)[i]? = some stmt) (hGet' : (a.body c)[j]? = some stmt') (hId : stmt.id = stmt'.id) :
    b = c ∧ i = j := by
  obtain ⟨rfl, rfl⟩ := hShape.block_unique hb hc (List.mem_of_getElem? hGet) (List.mem_of_getElem? hGet') hId
  have hNodup : (a.body b).Nodup := (List.nodup_flatMap.mp hShape.ids.of_map).1 b hb
  obtain ⟨hLess, -⟩ := List.getElem?_eq_some_iff.mp hGet
  exact ⟨rfl, (List.getElem?_inj hLess hNodup).mp (hGet.trans hGet'.symm)⟩

theorem getIndex_eq (hShape : Structured a) (hb : b ∈ a.blocks) (hGet : (a.body b)[i]? = some stmt) :
    getIndex a stmt.id = i := by
  have hMem := List.mem_of_getElem? hGet
  obtain ⟨hLess, hAt⟩ := List.getElem?_eq_some_iff.mp hGet
  unfold getIndex
  cases hFind : a.blocks.find? fun c => (a.body c).any (·.id = stmt.id) with
  | none =>
    have hNone := List.find?_eq_none.mp hFind b hb
    simp only [List.any_eq_true, decide_eq_true_eq] at hNone
    exact absurd ⟨stmt, hMem, rfl⟩ hNone
  | some c =>
    have hHas := List.find?_some hFind
    obtain ⟨other, hOther, hId⟩ := List.any_eq_true.mp hHas
    have hSame : stmt.id = other.id := (of_decide_eq_true hId).symm
    obtain ⟨rfl, -⟩ := hShape.block_unique hb (List.mem_of_find?_eq_some hFind) hMem hOther hSame
    refine (List.findIdx_eq hLess).mpr ⟨by simp [hAt], fun k hk => ?_⟩
    rw [decide_eq_false_iff_not]
    intro hSame
    have hGetK := List.getElem?_eq_getElem (hk.trans hLess)
    exact absurd (position_unique hShape hb hb hGetK hGet hSame).2 hk.ne

end Positions

/-! ### Ranges -/

section Ranges

variable {a : Action A} {stmtOrder : AddressOrder} {stmts : List (Statement A)} {s t e : StatementId}

theorem lastUse_mem (h : lastUse stmts s = some e) :
    ∃ (k : Nat) (stmt : Statement A), stmts[k]? = some stmt ∧ stmt.id = e ∧ s ∈ stmt.kind.operands := by
  induction stmts with
  | nil => cases h
  | cons head rest ih =>
    rw [lastUse] at h
    cases hRest : lastUse rest s with
    | some e' =>
      rw [hRest, Option.some_or] at h
      obtain ⟨k, stmt, hGet, hStmt⟩ := ih (hRest.trans h)
      exact ⟨k + 1, stmt, hGet, hStmt⟩
    | none =>
      rw [hRest, Option.none_or] at h
      obtain ⟨hUse, hId⟩ := Option.ite_none_right_eq_some.mp h
      exact ⟨0, head, rfl, Option.some.inj hId, hUse⟩

/-- The range of a value ends at its last use or behind any other. -/
theorem lastUse_spec {k : Nat} {stmt : Statement A} (hGet : stmts[k]? = some stmt) (hUse : s ∈ stmt.kind.operands) :
    ∃ (last : Nat) (stmt' : Statement A), k ≤ last ∧ stmts[last]? = some stmt' ∧ lastUse stmts s = some stmt'.id := by
  induction stmts generalizing k with
  | nil => cases hGet
  | cons head rest ih =>
    rw [lastUse]
    cases k with
    | zero =>
      cases hGet
      cases hRest : lastUse rest s with
      | none => exact ⟨0, stmt, le_rfl, rfl, if_pos hUse⟩
      | some e =>
        obtain ⟨last, stmt', hLast, rfl, -⟩ := lastUse_mem hRest
        exact ⟨last + 1, stmt', Nat.zero_le _, hLast, rfl⟩
    | succ k =>
      obtain ⟨last, stmt', hLe, hLast, hSome⟩ := ih hGet
      exact ⟨last + 1, stmt', Nat.succ_le_succ hLe, hLast, by rw [hSome, Option.some_or]⟩

theorem mem_liveRanges {r : LiveRange} : r ∈ liveRanges stmtOrder stmts ↔ lastUse stmts r.start = some r.stop := by
  simp only [liveRanges, List.mem_filterMap, (stmtOrder.perm _).mem_iff, List.mem_dedup, Option.map_eq_some_iff]
  constructor
  · rintro ⟨_, -, _, hLast, rfl⟩
    exact hLast
  · intro hLast
    obtain ⟨k, stmt, hGet, -, hUse⟩ := lastUse_mem hLast
    exact ⟨r.start, List.mem_flatMap.mpr ⟨stmt, List.mem_of_getElem? hGet, hUse⟩, r.stop, hLast, rfl⟩

theorem LiveRange.intersectsWith_symm {r i : LiveRange} (h : r.intersectsWith a i) : i.intersectsWith a r := by
  unfold LiveRange.intersectsWith at h ⊢
  omega

theorem UsedFrom.local_range (hShape : Structured a) (hLocal : LocalUses a) {b : BlockId} {i : Nat}
    (hUsed : UsedFrom a s b i) (hb : b ∈ a.blocks) :
    ∃ (j k : Nat) (source stmt : Statement A), (a.body b)[j]? = some source ∧ source.id = s ∧ j < i ∧ i ≤ k ∧
      (a.body b)[k]? = some stmt ∧ s ∈ stmt.kind.operands := by
  induction hUsed with
  | use hGet hUse =>
    obtain ⟨j, source, hLess, hSource, hId⟩ := hLocal _ hb _ _ hGet _ hUse
    exact ⟨j, _, source, _, hSource, hId, hLess, le_rfl, hGet, hUse⟩
  | @next b i stmt hGet hOther _ ih =>
    obtain ⟨j, k, source, last, hSource, hId, hLess, hLe, hLast, hUse⟩ := ih hb
    have hNe : j ≠ i := by
      rintro rfl
      cases hSource.symm.trans hGet
      exact hOther hId
    exact ⟨j, k, source, last, hSource, hId, by omega, by omega, hLast, hUse⟩
  | edge hEdge _ ih =>
    obtain ⟨j, -, -, -, -, -, hLess, -⟩ := ih (hShape.targets_mem _ hb _ hEdge)
    exact absurd hLess (Nat.not_lt_zero j)

/-- A value that is used in its own block only has a range that covers the places where it is live. -/
theorem UsedFrom.exists_range (stmtOrder : AddressOrder) (hShape : Structured a) (hLocal : LocalUses a)
    {b : BlockId} {i : Nat} (hUsed : UsedFrom a s b i) (hb : b ∈ a.blocks) :
    ∃ r ∈ liveRanges stmtOrder (a.body b), r.start = s ∧ getIndex a r.start < i ∧ i ≤ getIndex a r.stop := by
  obtain ⟨j, k, source, stmt, hSource, rfl, hLess, hLe, hGet, hUse⟩ := hUsed.local_range hShape hLocal hb
  obtain ⟨last, stmt', hLast, hGet', hSome⟩ := lastUse_spec hGet hUse
  refine ⟨⟨source.id, stmt'.id⟩, mem_liveRanges.mpr hSome, rfl, ?_⟩
  rw [getIndex_eq hShape hb hSource, getIndex_eq hShape hb hGet']
  exact ⟨hLess, hLe.trans hLast⟩

theorem exists_ranges_meet (hShape : Structured a) (hLocal : LocalUses a) {b : BlockId} {i : Nat} (hb : b ∈ a.blocks)
    (hs : UsedFrom a s b i) (ht : UsedFrom a t b i) :
    ∃ r ∈ liveRanges stmtOrder (a.body b), ∃ r' ∈ liveRanges stmtOrder (a.body b),
      r.start = s ∧ r'.start = t ∧ r.intersectsWith a r' := by
  obtain ⟨r, hr, hStart, hLess, hLe⟩ := hs.exists_range stmtOrder hShape hLocal hb
  obtain ⟨r', hr', hStart', hLess', hLe'⟩ := ht.exists_range stmtOrder hShape hLocal hb
  refine ⟨r, hr, r', hr', hStart, hStart', ?_⟩
  unfold LiveRange.intersectsWith
  omega

/-- No two blocks use one value. -/
theorem used_unique (hShape : Structured a) (hLocal : LocalUses a) {b c : BlockId} (hb : b ∈ a.blocks)
    (hc : c ∈ a.blocks) {e' : StatementId} (hUsed : lastUse (a.body b) s = some e)
    (hUsed' : lastUse (a.body c) s = some e') : b = c := by
  obtain ⟨k, stmt, hGet, -, hUse⟩ := lastUse_mem hUsed
  obtain ⟨k', stmt', hGet', -, hUse'⟩ := lastUse_mem hUsed'
  obtain ⟨j, source, -, hSource, hId⟩ := hLocal b hb k stmt hGet s hUse
  obtain ⟨j', source', -, hSource', hId'⟩ := hLocal c hc k' stmt' hGet' s hUse'
  exact (position_unique hShape hb hc hSource hSource' (hId.trans hId'.symm)).1

end Ranges

/-! ### Blocks -/

section Blocks

variable {a : Action A} {ranges : List LiveRange} {allocation : Allocation} {r : LiveRange}

/-- Ranges that meet have different registers. -/
def Apart (a : Action A) (ranges : List LiveRange) (allocation : Allocation) : Prop :=
  ∀ r ∈ ranges, ∀ i ∈ ranges, i.start ≠ r.start → r.intersectsWith a i →
    ∀ k, allocation r.start = some k → allocation i.start ≠ some k

/-- The register of a range is no higher than the number of ranges that meet it, since all below are taken. -/
theorem allocateRange_spec (a : Action A) (ranges : List LiveRange) (allocation : Allocation) (r : LiveRange) :
    allocateRange a ranges allocation r = allocation ∨
      ∃ k ≤ min 15 (meeting a ranges r),
        (∀ i ∈ ranges, i.start ≠ r.start → r.intersectsWith a i → allocation i.start ≠ some k) ∧
        allocateRange a ranges allocation r = Function.update allocation r.start (some k) := by
  unfold allocateRange
  split
  · rename_i k hFind
    obtain ⟨hFree, hLess, hTaken⟩ := List.find?_range_eq_some.mp hFind
    refine Or.inr ⟨k, le_min (Nat.le_of_lt_succ (List.mem_range.mp hLess)) ?_, of_decide_eq_true hFree, rfl⟩
    have hSubset : (List.range k).map some ⊆ (ranges.filter fun i =>
        i.start ≠ r.start ∧ r.intersectsWith a i).map fun i => allocation i.start := by
      intro register hRegister
      obtain ⟨k', hk', rfl⟩ := List.mem_map.mp hRegister
      have hNot := hTaken k' (List.mem_range.mp hk')
      simp only [Bool.not_eq_true', decide_eq_false_iff_not] at hNot
      push Not at hNot
      obtain ⟨i, hi, hNe, hMeet, hHas⟩ := hNot
      exact List.mem_map.mpr ⟨i, List.mem_filter.mpr ⟨hi, decide_eq_true ⟨hNe, hMeet⟩⟩, hHas⟩
    have hNodup : ((List.range k).map some).Nodup := List.nodup_range.map (Option.some_injective _)
    have hLength := (hNodup.subperm hSubset).length_le
    rwa [List.length_map, List.length_range, List.length_map, ← List.countP_eq_length_filter] at hLength
  · exact Or.inl rfl

theorem allocateRange_apart (hKeys : ∀ x ∈ ranges, ∀ y ∈ ranges, x.start = y.start → x = y) (hr : r ∈ ranges)
    (hApart : Apart a ranges allocation) : Apart a ranges (allocateRange a ranges allocation r) := by
  rcases allocateRange_spec a ranges allocation r with hSame | ⟨k, -, hFree, hNew⟩
  · rwa [hSame]
  rw [hNew]
  intro x hx i hi hNe hMeet k' hxk hik
  by_cases hxr : x.start = r.start
  · cases hKeys x hx r hr hxr
    rw [Function.update_self] at hxk
    rw [Function.update_of_ne hNe] at hik
    exact hFree i hi hNe hMeet (hik.trans hxk.symm)
  rw [Function.update_of_ne hxr] at hxk
  by_cases hir : i.start = r.start
  · cases hKeys i hi r hr hir
    rw [Function.update_self] at hik
    exact hFree x hx hxr (LiveRange.intersectsWith_symm hMeet) (hxk.trans hik.symm)
  · rw [Function.update_of_ne hir] at hik
    exact hApart x hx i hi hNe hMeet k' hxk hik

theorem foldl_apart (hKeys : ∀ x ∈ ranges, ∀ y ∈ ranges, x.start = y.start → x = y) {todo : List LiveRange}
    (hTodo : todo ⊆ ranges) (hApart : Apart a ranges allocation) :
    Apart a ranges (todo.foldl (allocateRange a ranges) allocation) := by
  induction todo generalizing allocation with
  | nil => exact hApart
  | cons r rest ih =>
    obtain ⟨hr, hRest⟩ := List.cons_subset.mp hTodo
    exact ih hRest (allocateRange_apart hKeys hr hApart)

/-- Every register that was not there before belongs to a range of the block. -/
theorem foldl_cases {todo : List LiveRange} {v : StatementId} {k : Nat}
    (h : todo.foldl (allocateRange a ranges) allocation v = some k) :
    allocation v = some k ∨ ∃ r ∈ todo, r.start = v ∧ k ≤ min 15 (meeting a ranges r) := by
  induction todo generalizing allocation with
  | nil => exact Or.inl h
  | cons r rest ih =>
    rcases ih h with hBefore | ⟨i, hi, hStart⟩
    · rcases allocateRange_spec a ranges allocation r with hSame | ⟨k', hLow, -, hNew⟩
      · exact Or.inl (hSame ▸ hBefore)
      · rw [hNew, Function.update_apply] at hBefore
        split at hBefore
        · rename_i hStart
          cases hBefore
          exact Or.inr ⟨r, List.mem_cons_self, hStart.symm, hLow⟩
        · exact Or.inl hBefore
    · exact Or.inr ⟨i, List.mem_cons_of_mem r hi, hStart⟩

end Blocks

/-! ### The work list -/

section WorkList

variable {a : Action A} {stmtOrder : AddressOrder} {s s' : Search}

structure Sound (stmtOrder : AddressOrder) (a : Action A) (s : Search) : Prop where
  listed : ∀ b ∈ s.workList, b ∈ a.blocks
  placed : ∀ v k, s.allocation v = some k → ∃ b ∈ s.seenList, b ∈ a.blocks ∧
    ∃ r ∈ liveRanges stmtOrder (a.body b), r.start = v ∧ k ≤ min 15 (meeting a (liveRanges stmtOrder (a.body b)) r)
  apart : ∀ b ∈ a.blocks, Apart a (liveRanges stmtOrder (a.body b)) s.allocation

theorem Sound.processBlock (hShape : Structured a) (hLocal : LocalUses a) (h : Sound stmtOrder a s) {b : BlockId}
    {rest : List BlockId} (hWork : s.workList = b :: rest) (hNew : b ∉ s.seenList) : Sound stmtOrder a
      ⟨RegisterAllocation.processBlock stmtOrder a s.allocation b, rest ++ a.getPredecessors b, b :: s.seenList⟩ := by
  have hb : b ∈ a.blocks := h.listed b (hWork ▸ List.mem_cons_self)
  have hKeys : ∀ x ∈ liveRanges stmtOrder (a.body b), ∀ y ∈ liveRanges stmtOrder (a.body b),
      x.start = y.start → x = y := by
    rintro ⟨x, e⟩ hx ⟨y, e'⟩ hy (rfl : x = y)
    have hSame : some e = some e' := (mem_liveRanges.mp hx).symm.trans (mem_liveRanges.mp hy)
    cases hSame
    rfl
  refine ⟨fun c hc => ?_, fun v k hv => ?_, fun c hc => ?_⟩
  · rcases List.mem_append.mp hc with hRest | hPred
    · exact h.listed c (hWork ▸ List.mem_cons_of_mem b hRest)
    · exact List.mem_of_mem_filter hPred
  · rcases foldl_cases hv with hBefore | hRange
    · obtain ⟨c, hc, hUsed⟩ := h.placed v k hBefore
      exact ⟨c, List.mem_cons_of_mem b hc, hUsed⟩
    · exact ⟨b, List.mem_cons_self, hb, hRange⟩
  · by_cases hSame : c = b
    · subst hSame
      exact foldl_apart hKeys (List.Subset.refl _) (h.apart c hc)
    -- the values that another block uses keep their registers
    have hBefore : ∀ x ∈ liveRanges stmtOrder (a.body c), ∀ k,
        RegisterAllocation.processBlock stmtOrder a s.allocation b x.start = some k →
          s.allocation x.start = some k := by
      intro x hx k hk
      refine (foldl_cases hk).resolve_right ?_
      rintro ⟨r, hr, hStart, -⟩
      exact hSame (used_unique hShape hLocal hc hb (mem_liveRanges.mp hx) (hStart ▸ mem_liveRanges.mp hr))
    intro x hx i hi hNe hMeet k hxk hik
    exact h.apart c hc x hx i hi hNe hMeet k (hBefore x hx k hxk) (hBefore i hi k hik)

def work (a : Action A) (s : Search) : Nat :=
  (a.blocks.toFinset \ s.seenList.toFinset).card * a.blocks.length + s.workList.length

theorem Sound.step (hShape : Structured a) (hLocal : LocalUses a) (h : Sound stmtOrder a s)
    (hStep : s.step stmtOrder a = some s') : Sound stmtOrder a s' ∧ work a s' < work a s := by
  unfold Search.step at hStep
  split at hStep
  · cases hStep
  · rename_i b rest hWork
    split at hStep
    · cases hStep
      refine ⟨⟨fun c hc => h.listed c (hWork ▸ List.mem_cons_of_mem b hc), h.placed, h.apart⟩, ?_⟩
      simp only [work, hWork, List.length_cons]
      omega
    · rename_i hNew
      cases hStep
      refine ⟨h.processBlock hShape hLocal hWork hNew, ?_⟩
      have hb : b ∈ a.blocks.toFinset \ s.seenList.toFinset := by simp [hNew, h.listed b (hWork ▸ List.mem_cons_self)]
      have hPreds : (a.getPredecessors b).length ≤ a.blocks.length := List.length_filter_le _ _
      simp only [work, hWork, List.toFinset_cons, Finset.sdiff_insert, List.length_append, List.length_cons]
      rw [← Finset.card_erase_add_one hb, Nat.add_mul]
      omega

/-- Where every use is local and no range meets too many others of its block, no two live values share a
register and all registers exist. -/
theorem local_allocatesApart (order stmtOrder : AddressOrder) {maxRegs : Int} (hShape : Structured a)
    (hLocal : LocalUses a) (hRegs : ∀ b ∈ a.blocks, ∀ r ∈ liveRanges stmtOrder (a.body b),
      (min 15 (meeting a (liveRanges stmtOrder (a.body b)) r) : Int) < maxRegs) :
    AllocatesApart order stmtOrder a maxRegs := by
  have hStart : Sound stmtOrder a ⟨fun _ => none, getExitBlocks order a, []⟩ := by
    refine ⟨fun b hb => ?_, nofun, fun _ _ _ _ _ _ _ _ _ h => nomatch h⟩
    exact List.mem_of_mem_filter ((order.perm _).mem_iff.mp hb)
  have hExits : (getExitBlocks order a).length ≤ a.blocks.length :=
    (order.perm _).length_eq.trans_le (List.length_filter_le _ _)
  have hBound : work a ⟨fun _ => none, getExitBlocks order a, []⟩ < a.blocks.length * (a.blocks.length + 1) + 1 := by
    have hCard : a.blocks.toFinset.card = a.blocks.length := List.toFinset_card_of_nodup hShape.nodup
    simp only [work, List.toFinset_nil, Finset.sdiff_empty, hCard, Nat.mul_add, Nat.mul_one]
    omega
  obtain ⟨s, hRun, hSound⟩ :=
    Loop.exhaust_spec (fun _ _ hInvariant => hInvariant.step hShape hLocal) hBound hStart
  refine ⟨s.allocation, congrArg (Option.map Search.allocation) hRun, ?_, fun v k hv => ?_⟩
  · rintro v w k hNe hv hw ⟨b, hb, i, hLive, hLive'⟩
    obtain ⟨r, hr, r', hr', rfl, rfl, hMeet⟩ := exists_ranges_meet hShape hLocal hb hLive.2 hLive'.2
    exact hSound.apart b hb r hr r' hr' hNe.symm hMeet k hv hw
  · obtain ⟨b, -, hb, r, hr, -, hLow⟩ := hSound.placed v k hv
    have := hRegs b hb r hr
    omega

end WorkList

/-- One value for a variable and another that is returned. -/
def twoValues : Action tiny where
  blocks := [0]
  entry := 0
  body _ := [⟨0, false, .constant 0⟩, ⟨1, false, .constant 1⟩, ⟨2, true, .variableWrite 0 0⟩,
    ⟨3, true, .return_ (some 1)⟩]
  symbolType _ := false
  params := []
  returnsValue := true

def listOrder : AddressOrder := ⟨id, fun _ => .refl _⟩

theorem structured_twoValues : Structured twoValues where
  entry_mem := by decide
  nodup := by decide
  terminated b _ := ⟨[_, _, _], _, rfl, rfl, by simp [Kind.isControlFlow]⟩
  targets_mem := by decide
  ids := by decide

theorem localUses_twoValues : LocalUses twoValues := by
  intro b hb i stmt hGet s hs
  match i, hGet with
  | 0, rfl | 1, rfl => cases hs
  | 2, rfl =>
    cases List.mem_singleton.mp hs
    exact ⟨0, _, by omega, rfl, rfl⟩
  | 3, rfl =>
    cases List.mem_singleton.mp hs
    exact ⟨1, _, by omega, rfl, rfl⟩

theorem local_allocatesApart_twoValues :
    Structured twoValues ∧ LocalUses twoValues ∧ AllocatesApart listOrder listOrder twoValues 2 :=
  ⟨structured_twoValues, localUses_twoValues,
    local_allocatesApart listOrder listOrder structured_twoValues localUses_twoValues (by decide)⟩

/-- A value that is returned from the last of three blocks, and another that the middle block computes and
writes to a variable. -/
def passedThrough : Action tiny where
  blocks := [0, 1, 2]
  entry := 0
  body
    | 0 => [⟨0, false, .constant 0⟩, ⟨1, true, .jump 1⟩]
    | 1 => [⟨2, false, .constant 1⟩, ⟨3, true, .variableWrite 0 2⟩, ⟨4, true, .jump 2⟩]
    | _ => [⟨5, true, .return_ (some 0)⟩]
  symbolType _ := false
  params := []
  returnsValue := true

theorem live_zero : Live passedThrough 0 1 1 := by
  have hEdge : 1 ∈ passedThrough.getSuccessors 0 := by decide
  have hEdge' : 2 ∈ passedThrough.getSuccessors 1 := by decide
  have hEnd : DefinedTo passedThrough 0 0 2 := .next (by decide) (.here rfl rfl)
  have hUse : UsedFrom passedThrough 0 2 0 := .use rfl List.mem_cons_self
  exact ⟨.next (by decide) (.edge hEdge hEnd), .next rfl (by decide) (.next rfl (by decide) (.edge hEdge' hUse))⟩

/-- Both get register 0, and both are live before the write in the middle block. -/
theorem value_passed_through_loses_register :
    (allocate listOrder listOrder passedThrough 16).map (fun allocation => (allocation 0, allocation 2)) =
        some (some 0, some 0) ∧
      ¬ AllocatesApart listOrder listOrder passedThrough 16 := by
  have hRun : (allocate listOrder listOrder passedThrough 16).map
      (fun allocation => (allocation 0, allocation 2)) = some (some 0, some 0) := by
    decide
  refine ⟨hRun, ?_⟩
  rintro ⟨allocation, hAllocate, hFree⟩
  rw [hAllocate] at hRun
  obtain ⟨hZero, hTwo⟩ := Prod.mk.inj (Option.some.inj hRun)
  have hLive : Live passedThrough 2 1 1 := ⟨.here rfl rfl, .use rfl List.mem_cons_self⟩
  exact hFree.apart 0 2 0 (by decide) hZero hTwo ⟨1, by decide, 1, live_zero, hLive⟩

end Gensim.GenC.RegisterAllocation
