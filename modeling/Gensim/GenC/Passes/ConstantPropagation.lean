import Gensim.GenC.Run

/-! `ConstantPropagationPass`: reads of a variable that is written once, with a constant or a field
of the instruction, are replaced by what was written, in the blocks that the dominance analysis
puts behind the write. -/
namespace Gensim.GenC

open Simulation Dominance

variable {A : Arch}

/-- Values have the types of the variables they are read from or written to. -/
structure Typed (a : Action A) : Prop where
  reads : ∀ stmt ∈ a.statements, ∀ x, stmt.kind = .variableRead x → stmt.type = a.symbolType x
  writes : ∀ stmt ∈ a.statements, ∀ x expr, stmt.kind = .variableWrite x expr →
    ∃ source ∈ a.statements, source.id = expr ∧ source.type = a.symbolType x

namespace ConstantPropagation

/-- A write that is worth propagating: its block, its variable and the expression written. -/
structure Candidate (A : Arch) where
  block : BlockId
  symbol : SymbolId
  expr : Statement A

/-- The expressions that are propagated. -/
def isConstant (stmt : Statement A) : Bool :=
  match stmt.kind with
  | .constant _ | .readStructMember _ _ => true
  | _ => false

/-- No other statement kills the variable, and it is not passed to a call. -/
def onlyWrite (a : Action A) (stmt : Statement A) (target : SymbolId) : Bool :=
  a.statements.all fun use =>
    (use.kind.killTarget ≠ some target ∨ use.id = stmt.id) ∧
      ¬ (use.kind.isCall = true ∧ target ∈ use.kind.symbols)

def isACandidate (a : Action A) (b : BlockId) (stmt : Statement A) : Option (Candidate A) :=
  match stmt.kind with
  | .variableWrite target expr =>
      if onlyWrite a stmt target then
        ((a.find? expr).filter isConstant).map fun source => ⟨b, target, source⟩
      else none
  | _ => none

def candidates (a : Action A) : List (Candidate A) :=
  a.blocks.flatMap fun b => (a.body b).filterMap (isACandidate a b)

/-- Whether a candidate replaces a statement of block `b`. -/
def replaces (dominance : BlockId → Finset BlockId) (b : BlockId) (stmt : Statement A)
    (candidate : Candidate A) : Bool :=
  match stmt.kind with
  | .variableRead target =>
      target = candidate.symbol ∧ b ≠ candidate.block ∧ candidate.block ∈ dominance b
  | _ => false

/-- The new statement takes the place of the read in the block and in all operands. -/
def replaceUse (dominance : BlockId → Finset BlockId) (b : BlockId) (stmt : Statement A)
    (candidate : Candidate A) : Statement A :=
  if replaces dominance b stmt candidate then
    { stmt with type := candidate.expr.type, kind := candidate.expr.kind }
  else stmt

def runOnStatements (dominance : BlockId → Finset BlockId) (a : Action A) : Action A :=
  { a with
    body := fun b => (a.body b).map fun stmt =>
      (candidates a).foldl (replaceUse dominance b) stmt }

/-- The pass, with a bound on the rounds of the dominance analysis. -/
def run {a : Action A} (hShape : Structured a) (fuel : Nat) : Option (Action A) :=
  (SSADominance.calculate hShape.graph fuel).map fun dominance => runOnStatements dominance a

section Candidates

variable {a : Action A} {b : BlockId} {x : SymbolId}

theorem mem_assigned {kind : Kind A} :
    x ∈ kind.assigned ↔ kind.killTarget = some x ∨ kind.isCall = true ∧ x ∈ kind.symbols := by
  cases kind with
  | machine access target operands => simp [Kind.assigned, Kind.killTarget, Kind.isCall]
  | variableWrite target expr => simp [Kind.assigned, Kind.killTarget, Kind.isCall, eq_comm]
  | call target args => simp [Kind.assigned, Kind.killTarget, Kind.isCall, Kind.symbols]
  | _ => simp [Kind.assigned, Kind.killTarget, Kind.isCall]

/-- What makes a candidate. -/
structure IsCandidate (a : Action A) (candidate : Candidate A) (stmt : Statement A)
    (expr : StatementId) : Prop where
  block_mem : candidate.block ∈ a.blocks
  stmt_mem : stmt ∈ a.body candidate.block
  write : stmt.kind = .variableWrite candidate.symbol expr
  expr_mem : candidate.expr ∈ a.statements
  expr_id : candidate.expr.id = expr
  constant : isConstant candidate.expr = true
  only : ∀ use ∈ a.statements, candidate.symbol ∈ use.kind.assigned → use.id = stmt.id

theorem exists_of_mem_candidates {candidate : Candidate A} (h : candidate ∈ candidates a) :
    ∃ stmt expr, IsCandidate a candidate stmt expr := by
  obtain ⟨b, hBlock, hMem⟩ := List.mem_flatMap.mp h
  obtain ⟨stmt, hStmt, hCandidate⟩ := List.mem_filterMap.mp hMem
  unfold isACandidate at hCandidate
  split at hCandidate
  · rename_i target expr hKind
    split at hCandidate
    · rename_i hOnly
      obtain ⟨source, hSource, rfl⟩ := Option.map_eq_some_iff.mp hCandidate
      obtain ⟨hFind, hConstant⟩ := Option.filter_eq_some_iff.mp hSource
      refine ⟨stmt, expr, hBlock, hStmt, hKind, List.mem_of_find?_eq_some hFind, ?_, hConstant, ?_⟩
      · simpa using List.find?_some hFind
      · intro use hUse hAssigned
        have hAll := List.all_eq_true.mp hOnly use hUse
        simp only [decide_eq_true_eq] at hAll
        rcases mem_assigned.mp hAssigned with hKill | hCall
        · exact hAll.1.resolve_left fun hNe => hNe hKill
        · exact absurd hCall hAll.2
    · cases hCandidate
  · cases hCandidate

/-- No other block assigns the variable of a candidate. -/
theorem IsCandidate.not_assigned (hShape : Structured a) {candidate : Candidate A}
    {write : Statement A} {expr : StatementId} (h : IsCandidate a candidate write expr)
    (hb : b ∈ a.blocks) (hNe : b ≠ candidate.block) : ∀ stmt ∈ a.body b, candidate.symbol ∉ stmt.kind.assigned := by
  intro stmt hStmt hAssigned
  have hId := h.only stmt (List.mem_flatMap.mpr ⟨b, hb, hStmt⟩) hAssigned
  exact hNe (hShape.block_unique hb h.block_mem hStmt h.stmt_mem hId).1

/-- What the passes over the candidates leave of a statement. -/
theorem foldl_replaceUse (dominance : BlockId → Finset BlockId) (b : BlockId)
    (list : List (Candidate A)) (hList : ∀ candidate ∈ list, isConstant candidate.expr = true) (stmt : Statement A) :
    list.foldl (replaceUse dominance b) stmt = stmt ∨ ∃ candidate ∈ list, replaces dominance b stmt candidate = true ∧
        list.foldl (replaceUse dominance b) stmt =
          { stmt with type := candidate.expr.type, kind := candidate.expr.kind } := by
  induction list generalizing stmt with
  | nil => exact Or.inl rfl
  | cons first rest ih =>
    have hRest := fun candidate hMem => hList candidate (List.mem_cons_of_mem first hMem)
    rw [List.foldl_cons]
    by_cases hReplaces : replaces dominance b stmt first = true
    · -- The constant that has replaced the read is not a read any more.
      right
      refine ⟨first, List.mem_cons_self, hReplaces, ?_⟩
      rw [replaceUse, if_pos hReplaces]
      rcases ih hRest { stmt with type := first.expr.type, kind := first.expr.kind } with
        hSame | ⟨candidate, -, hAgain, -⟩
      · exact hSame
      · have hConstant := hList first List.mem_cons_self
        unfold replaces at hAgain
        unfold isConstant at hConstant
        split at hAgain
        · rename_i hKind
          simp only at hKind
          simp [hKind] at hConstant
        · cases hAgain
    · rw [replaceUse, if_neg hReplaces]
      rcases ih hRest stmt with hSame | ⟨candidate, hMem, hLater⟩
      · exact Or.inl hSame
      · exact Or.inr ⟨candidate, List.mem_cons_of_mem first hMem, hLater⟩

end Candidates

/-! What the variable of a candidate holds. -/

section Holding

variable {callees : Callees A} {a : Action A} {values : List A.Value} {machine : A.Machine}
  {path : List BlockId} {s s' : State A} {candidate : Candidate A}

def Holds (candidate : Candidate A) (s : State A) : Prop :=
  ∃ value, Computes candidate.expr value ∧ s.symbols candidate.symbol = some value

/-- A read of the variable and a copy of the expression give the same value. -/
theorem execute_copy {types : SymbolId → A.Ty} {stmt : Statement A} (h : Holds candidate s)
    (hConstant : isConstant candidate.expr = true) (hKind : stmt.kind = .variableRead candidate.symbol)
    (hType : stmt.type = candidate.expr.type) :
    execute callees types { stmt with type := candidate.expr.type, kind := candidate.expr.kind } s =
      execute callees types stmt s := by
  obtain ⟨value, ⟨hCast, hComputes⟩, hSymbol⟩ := h
  have hRead : execute callees types stmt s = .next { s with values := (stmt.id, value) :: s.values } := by
    simp only [execute, hKind, valued, State.setStatementValue, State.getSymbolValue, hSymbol,
      Option.getD_some, hType, hCast]
  rw [hRead]
  unfold isConstant at hConstant
  split at hConstant
  · rename_i constant hExpr
    simp only [hExpr] at hComputes
    simp only [execute, hExpr, valued, State.setStatementValue, hComputes]
  · rename_i target memberNames hExpr
    simp only [hExpr] at hComputes
    obtain ⟨field, hField, rfl⟩ := hComputes
    simp only [execute, hExpr, valued, hField, State.setStatementValue]
  · cases hConstant

/-- After its block the variable holds the value. -/
theorem IsCandidate.holds_of_block (hShape : Structured a) (hTyped : Typed a)
    (hVisited : Visited callees a values machine path s) {write : Statement A}
    {expr : StatementId} (h : IsCandidate a candidate write expr)
    (hRun : executeBlock callees a.symbolType (a.body candidate.block) s = .next s') : Holds candidate s' := by
  obtain ⟨before, after, hBody⟩ := List.append_of_mem h.stmt_mem
  have hStatement : ∀ stmt ∈ a.body candidate.block, stmt ∈ a.statements := fun stmt hStmt =>
    List.mem_flatMap.mpr ⟨_, h.block_mem, hStmt⟩
  rw [hBody, executeBlock_append] at hRun
  obtain ⟨middle, hBefore, hRest⟩ := Flow.andThen_eq_next hRun
  rw [executeBlock_cons] at hRest
  obtain ⟨written, hWrite, hAfter⟩ := Flow.andThen_eq_next hRest
  -- The value written is that of the expression.
  simp only [execute, h.write] at hWrite
  cases hValue : middle.getStatementValue expr with
  | none => simp [hValue] at hWrite
  | some value =>
    simp only [hValue, Flow.next.injEq] at hWrite
    subst hWrite
    obtain ⟨entry, hFind, rfl⟩ := Option.map_eq_some_iff.mp hValue
    have hEntryId : entry.1 = expr := by simpa using List.find?_some hFind
    obtain ⟨source, hSource, hId, hComputes⟩ :=
      hVisited.computes_front h.block_mem hBody hBefore (List.mem_of_find?_eq_some hFind)
    have hSame : source = candidate.expr := List.inj_on_of_nodup_map hShape.ids hSource h.expr_mem
        (hId.trans (hEntryId.trans h.expr_id.symm))
    subst hSame
    have hType : candidate.expr.type = a.symbolType candidate.symbol := by
      obtain ⟨typed, hMem, hTypedId, hType⟩ := hTyped.writes write (hStatement write h.stmt_mem) _ _ h.write
      rw [← List.inj_on_of_nodup_map hShape.ids hMem h.expr_mem (hTypedId.trans h.expr_id.symm)]
      exact hType
    -- Nothing behind the write assigns the variable.
    have hKept : ∀ stmt ∈ after, candidate.symbol ∉ stmt.kind.assigned := by
      intro stmt hStmt hAssigned
      have hMem : stmt ∈ a.body candidate.block := by
        rw [hBody]
        exact List.mem_append_right _ (List.mem_cons_of_mem _ hStmt)
      have hSame := (hShape.block_unique h.block_mem h.block_mem hMem h.stmt_mem
        (h.only stmt (hStatement stmt hMem) hAssigned)).2
      have hNodup := (List.nodup_flatMap.mp hShape.ids.of_map).1 _ h.block_mem
      rw [hBody, List.nodup_append] at hNodup
      exact (List.nodup_cons.mp hNodup.2.1).1 (hSame ▸ hStmt)
    refine ⟨entry.2, hComputes, ?_⟩
    rw [executeBlock_symbols hKept hAfter]
    show Function.update middle.symbols _ _ _ = _
    rw [Function.update_self, ← hType, hComputes.1]

/-- In a run the variable holds the value from its block on. -/
theorem holds_of_visited (hShape : Structured a) (hTyped : Typed a)
    (hCandidate : candidate ∈ candidates a) (hVisited : Visited callees a values machine path s)
    (hMem : candidate.block ∈ path) : Holds candidate s := by
  obtain ⟨write, expr, h⟩ := exists_of_mem_candidates hCandidate
  induction hVisited with
  | start => cases hMem
  | @block path s₀ s₁ b prior next mem run ih =>
    by_cases hHere : candidate.block = b
    · subst hHere
      exact h.holds_of_block hShape hTyped prior run
    · obtain ⟨value, hComputes, hSymbol⟩ := ih ((List.mem_cons.mp hMem).resolve_left hHere)
      refine ⟨value, hComputes, ?_⟩
      rw [executeBlock_symbols (h.not_assigned hShape mem (Ne.symm hHere)) run]
      exact hSymbol

/-- A block whose candidates hold does the same before and after the pass. -/
theorem executeBlock_map (hShape : Structured a) (hTyped : Typed a)
    {dominance : BlockId → Finset BlockId} {b : BlockId} (hb : b ∈ a.blocks)
    {stmts : List (Statement A)} (hStmts : ∀ stmt ∈ stmts, stmt ∈ a.body b) (hHolds : ∀ candidate ∈ candidates a,
      (∃ stmt ∈ stmts, replaces dominance b stmt candidate = true) → Holds candidate s) :
    executeBlock callees a.symbolType (stmts.map fun stmt => (candidates a).foldl (replaceUse dominance b) stmt) s =
      executeBlock callees a.symbolType stmts s := by
  induction stmts generalizing s with
  | nil => rfl
  | cons stmt rest ih =>
    have hMem : stmt ∈ a.statements := List.mem_flatMap.mpr ⟨b, hb, hStmts stmt List.mem_cons_self⟩
    have hFirst : execute callees a.symbolType ((candidates a).foldl (replaceUse dominance b) stmt) s =
        execute callees a.symbolType stmt s := by
      have hConstants : ∀ candidate ∈ candidates a, isConstant candidate.expr = true := by
        intro candidate hCandidate
        obtain ⟨_, _, h⟩ := exists_of_mem_candidates hCandidate
        exact h.constant
      rcases foldl_replaceUse dominance b (candidates a) hConstants stmt with
        hSame | ⟨candidate, hCandidate, hReplaces, hNew⟩
      · rw [hSame]
      · obtain ⟨write, expr, h⟩ := exists_of_mem_candidates hCandidate
        have hHold := hHolds candidate hCandidate ⟨stmt, List.mem_cons_self, hReplaces⟩
        unfold replaces at hReplaces
        split at hReplaces
        · rename_i target hKind
          obtain ⟨rfl, -, -⟩ := of_decide_eq_true hReplaces
          have hWriteMem := List.mem_flatMap.mpr ⟨_, h.block_mem, h.stmt_mem⟩
          obtain ⟨source, hSource, hId, hType⟩ := hTyped.writes write hWriteMem _ _ h.write
          have hExpr : source = candidate.expr :=
            List.inj_on_of_nodup_map hShape.ids hSource h.expr_mem (hId.trans h.expr_id.symm)
          rw [hNew]
          apply execute_copy hHold h.constant hKind
          rw [hTyped.reads stmt hMem _ hKind, ← hExpr, hType]
        · cases hReplaces
    rw [List.map_cons, executeBlock_cons, executeBlock_cons, hFirst]
    cases hRun : execute callees a.symbolType stmt s with
    | next s' =>
      apply ih fun other hOther => hStmts other (List.mem_cons_of_mem stmt hOther)
      rintro candidate hCandidate ⟨other, hOther, hReplaces⟩
      obtain ⟨value, hComputes, hSymbol⟩ :=
        hHolds candidate hCandidate ⟨other, List.mem_cons_of_mem stmt hOther, hReplaces⟩
      obtain ⟨write, expr, h⟩ := exists_of_mem_candidates hCandidate
      have hNe : b ≠ candidate.block := by
        unfold replaces at hReplaces
        split at hReplaces
        · exact (of_decide_eq_true hReplaces).2.1
        · cases hReplaces
      refine ⟨value, hComputes, ?_⟩
      rw [(execute_spec hRun).symbols _ (h.not_assigned hShape hb hNe stmt (hStmts stmt List.mem_cons_self))]
      exact hSymbol
    | stopped status s' => rfl
    | fails => rfl
    | diverges => rfl

end Holding

/-- Every path to a replaced read goes through the write whose constant it gets. -/
def ReplacesOnlyBehind {a : Action A} (hShape : Structured a)
    (dominance : BlockId → Finset BlockId) : Prop :=
  ∀ candidate ∈ candidates a, ∀ b ∈ a.blocks, ∀ stmt ∈ a.body b,
    replaces dominance b stmt candidate = true →
    Dominates hShape.graph.Edge a.entry candidate.block b

theorem ReplacesOnlyBehind.preserves {a : Action A} (hShape : Structured a) (hTyped : Typed a)
    {dominance : BlockId → Finset BlockId} (h : ReplacesOnlyBehind hShape dominance) :
    Preserves a (runOnStatements dominance a) := by
  apply preserves_of_visited
  intro callees values machine path s b hVisited hNext hMem
  refine Or.inr ⟨hMem, ?_⟩
  apply executeBlock_map hShape hTyped hMem fun stmt hStmt => hStmt
  rintro candidate hCandidate ⟨stmt, hStmt, hReplaces⟩
  have hOnPath := h candidate hCandidate b hMem stmt hStmt hReplaces _ (hVisited.pathTo hShape hNext)
  apply holds_of_visited hShape hTyped hCandidate hVisited
  refine (List.mem_cons.mp hOnPath).resolve_left fun hEq => ?_
  unfold replaces at hReplaces
  split at hReplaces
  · exact (of_decide_eq_true hReplaces).2.1 hEq.symm
  · cases hReplaces

/-- Wherever a block that reads the variable can be reached from the write, or from a loop, without
going back to the entry, the write is on every path there. -/
def WritesDominate {a : Action A} (hShape : Structured a) : Prop :=
  ∀ candidate ∈ candidates a, ∀ b ∈ a.blocks, b ≠ candidate.block →
    (∃ stmt ∈ a.body b, stmt.kind = .variableRead candidate.symbol) →
    SSADominance.Reported hShape.graph candidate.block b →
    Dominates hShape.graph.Edge a.entry candidate.block b

theorem replacesOnlyBehind_iff {a : Action A} (hShape : Structured a) {dominance : BlockId → Finset BlockId}
    (hDominance : ∀ b ∈ a.blocks, ∀ x ∈ a.blocks, x ≠ b → (x ∈ dominance b ↔ SSADominance.Reported hShape.graph x b)) :
    ReplacesOnlyBehind hShape dominance ↔ WritesDominate hShape := by
  constructor
  · rintro h candidate hCandidate b hb hNe ⟨stmt, hStmt, hKind⟩ hReported
    obtain ⟨write, expr, hWrite⟩ := exists_of_mem_candidates hCandidate
    apply h candidate hCandidate b hb stmt hStmt
    have hMem := (hDominance b hb _ hWrite.block_mem hNe.symm).mpr hReported
    simp [replaces, hKind, hNe, hMem]
  · intro h candidate hCandidate b hb stmt hStmt hReplaces
    obtain ⟨write, expr, hWrite⟩ := exists_of_mem_candidates hCandidate
    unfold replaces at hReplaces
    split at hReplaces
    · rename_i target hKind
      obtain ⟨rfl, hNe, hMem⟩ := of_decide_eq_true hReplaces
      exact h candidate hCandidate b hb hNe ⟨stmt, hStmt, hKind⟩ ((hDominance b hb _ hWrite.block_mem hNe.symm).mp hMem)
    · cases hReplaces

/-- The pass ends on every action.  It keeps the meaning, and replaces reads only behind the
write, exactly if the writes dominate the reads they lead to. -/
theorem run_right_iff {a : Action A} (hShape : Structured a) (hTyped : Typed a) :
    ∃ a', (∀ fuel, a.blocks.length ^ 2 < fuel → run hShape fuel = some a') ∧
      ∃ dominance, a' = runOnStatements dominance a ∧
        (Preserves a a' ∧ ReplacesOnlyBehind hShape dominance ↔ WritesDominate hShape) := by
  obtain ⟨dominance, hCalculate, hMem⟩ := SSADominance.calculate_spec hShape.graph
  refine ⟨runOnStatements dominance a, fun fuel hFuel => ?_, dominance, rfl, ?_⟩
  · rw [run, hCalculate fuel hFuel]
    rfl
  · rw [← replacesOnlyBehind_iff hShape hMem]
    exact ⟨fun h => h.2, fun h => ⟨h.preserves hShape hTyped, h⟩⟩

/-- The variable 0 gets the constant 7 on one arm and is returned behind both. -/
def armWrite : Action tiny where
  blocks := [0, 1, 2, 3]
  entry := 0
  body b :=
    if b = 0 then [⟨0, false, .variableRead 1⟩, ⟨1, true, .branch 0 1 2⟩]
    else if b = 1 then
      [⟨2, false, .constant 7⟩, ⟨3, true, .variableWrite 0 2⟩, ⟨4, true, .jump 3⟩]
    else if b = 2 then [⟨5, true, .jump 3⟩]
    else [⟨6, false, .variableRead 0⟩, ⟨7, true, .return_ (some 6)⟩]
  symbolType _ := false
  params := [1]
  returnsValue := true

theorem structured_armWrite : Structured armWrite where
  entry_mem := by decide
  nodup := by decide
  terminated b hb := by
    fin_cases hb
    · exact ⟨[⟨0, false, .variableRead 1⟩], ⟨1, true, .branch 0 1 2⟩, rfl, rfl, by
        simp [Kind.isControlFlow]⟩
    · exact ⟨[⟨2, false, .constant 7⟩, ⟨3, true, .variableWrite 0 2⟩], ⟨4, true, .jump 3⟩, rfl, rfl,
        by simp [Kind.isControlFlow]⟩
    · exact ⟨[], ⟨5, true, .jump 3⟩, rfl, rfl, by simp⟩
    · exact ⟨[⟨6, false, .variableRead 0⟩], ⟨7, true, .return_ (some 6)⟩, rfl, rfl, by
        simp [Kind.isControlFlow]⟩
  targets_mem := by decide
  ids := by decide

theorem typed_armWrite : Typed armWrite where
  reads stmt hStmt x hKind := by
    simp [Action.statements, armWrite] at hStmt
    rcases hStmt with rfl | rfl | rfl | rfl | rfl | rfl | rfl | rfl
    all_goals first | rfl | cases hKind
  writes stmt hStmt x expr hKind := by
    have hConstant : (⟨2, false, .constant 7⟩ : Statement tiny) ∈ armWrite.statements := by
      simp [Action.statements, armWrite]
    simp [Action.statements, armWrite] at hStmt
    rcases hStmt with rfl | rfl | rfl | rfl | rfl | rfl | rfl | rfl
    all_goals cases hKind
    exact ⟨_, hConstant, rfl, rfl⟩

theorem run_right_iff_armWrite :
    ∃ a', (∀ fuel, 4 ^ 2 < fuel → run structured_armWrite fuel = some a') ∧
      ∃ dominance, a' = runOnStatements dominance armWrite ∧
        (Preserves armWrite a' ∧ ReplacesOnlyBehind structured_armWrite dominance ↔
          WritesDominate structured_armWrite) :=
  run_right_iff structured_armWrite typed_armWrite

/-- The constant of the arm is returned on the other path too. -/
theorem arm_constant_returned :
    ∃ a', run structured_armWrite 17 = some a' ∧ ¬ Preserves armWrite a' := by
  let callees : Callees tiny := fun _ _ _ => .fails
  have hBefore : advance (armWrite.step callees) 4 (armWrite.start [0] ()) =
      .done (.finished ⟨.normal, some 0, [none], ()⟩) := rfl
  have hAfter : ((run structured_armWrite 17).map fun a' =>
      (a'.params.length, advance (a'.step callees) 4 (a'.start [0] ()))) =
        some (1, .done (.finished ⟨.normal, some 7, [none], ()⟩)) := rfl
  obtain ⟨a', hRun, hResult⟩ := Option.map_eq_some_iff.mp hAfter
  obtain ⟨hParams, hEnd⟩ := Prod.mk.inj hResult
  refine ⟨a', hRun, fun hPreserves => ?_⟩
  have hOld := Action.executeAction_of_done rfl hBefore
  have hNew : a'.executeAction callees [0] () = .finished ⟨.normal, some 7, [none], ()⟩ :=
    Action.executeAction_of_done hParams.symm hEnd
  have hSame := hPreserves callees [0] () (by rw [hOld]; simp)
  rw [hOld, hNew] at hSame
  simp at hSame

end ConstantPropagation

end Gensim.GenC
