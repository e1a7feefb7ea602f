import Gensim.GenC.Interpreter
import Gensim.GenC.Dominance

/-! What a statement changes, and the blocks that a run visits. -/
namespace Gensim.GenC

open Simulation Dominance

variable {A : Arch} {callees : Callees A} {types : SymbolId → A.Ty}

/-! One statement. -/

variable {s s' : State A}

theorem State.copyBack_spec {args : List Argument} {references : List (Option A.Value)}
    (h : State.copyBack types args references s = some s') :
    s'.values = s.values ∧ s'.nextBlock = s.nextBlock ∧ s'.returnValue = s.returnValue ∧ s'.machine = s.machine ∧
      ∀ x, x ∉ args.filterMap Argument.symbol? → s'.symbols x = s.symbols x := by
  induction args generalizing references s with
  | nil =>
    cases h
    exact ⟨rfl, rfl, rfl, rfl, fun _ _ => rfl⟩
  | cons arg args ih =>
    cases arg with
    | value statement => exact ih h
    | symbol y =>
      rw [State.copyBack] at h
      split at h
      · obtain ⟨hValues, hNext, hReturn, hMachine, hSymbols⟩ := ih h
        refine ⟨hValues, hNext, hReturn, hMachine, fun x hx => ?_⟩
        simp only [List.filterMap_cons, Argument.symbol?, List.mem_cons, not_or] at hx
        rw [hSymbols x hx.2]
        exact Function.update_of_ne hx.1 _ _
      · cases h

/-- What one statement can do. -/
structure Executed (stmt : Statement A) (s s' : State A) : Prop where
  values : s'.values = s.values ∨ ∃ value, s'.values = (stmt.id, A.cast stmt.type value) :: s.values
  symbols : ∀ x, x ∉ stmt.kind.assigned → s'.symbols x = s.symbols x
  nextBlock : stmt.kind.isControlFlow = false → s'.nextBlock = s.nextBlock
  target : stmt.kind.isControlFlow = true →
    s'.nextBlock = none ∨ ∃ c ∈ stmt.kind.targets, s'.nextBlock = some c

variable {stmt : Statement A}

theorem executed_valued {value : Option A.Value} (hFlow : stmt.kind.isControlFlow = false)
    (h : valued stmt s value = .next s') : Executed stmt s s' := by
  cases value with
  | none => cases h
  | some value =>
    cases h
    exact ⟨Or.inr ⟨value, rfl⟩, fun _ _ => rfl, fun _ => rfl, fun hIs => by simp [hFlow] at hIs⟩

theorem executed_goto {target : Option BlockId} (hTarget : ∀ c, target = some c → c ∈ stmt.kind.targets)
    (h : goto s target = .next s') (hFlow : stmt.kind.isControlFlow = true) : Executed stmt s s' := by
  cases target with
  | none => cases h
  | some c =>
    cases h
    exact ⟨Or.inl rfl, fun _ _ => rfl, fun hIs => by simp [hFlow] at hIs,
      fun _ => Or.inr ⟨c, hTarget c rfl, rfl⟩⟩

theorem selectCase_mem {value : Nat} {default c : BlockId} {values : List (StatementId × Option A.Value × BlockId)}
    (h : selectCase value default values = some c) : c = default ∨ c ∈ values.map fun entry => entry.2.2 := by
  induction values generalizing default with
  | nil =>
    cases h
    exact Or.inl rfl
  | cons entry values ih =>
    obtain ⟨id, constant, target⟩ := entry
    simp only [selectCase, Option.bind_eq_bind, Option.bind_eq_some_iff] at h
    obtain ⟨-, -, case, -, hRest⟩ := h
    rw [List.map_cons, List.mem_cons]
    rcases ih hRest with hHere | hLater
    · by_cases hCase : case = value
      · rw [if_pos hCase] at hHere
        exact Or.inr (Or.inl hHere)
      · rw [if_neg hCase] at hHere
        exact Or.inl hHere
    · exact Or.inr (Or.inr hLater)

theorem Flow.ofStatus_eq_next {status : Status} (h : Flow.ofStatus status s = .next s') :
    status = .normal ∧ s = s' := by
  unfold Flow.ofStatus at h
  split at h
  · rename_i hStatus
    exact ⟨hStatus, Flow.next.inj h⟩
  · cases h

theorem executed_machine {access : Access A.Intrinsic} {target : Option SymbolId} {operands : List StatementId}
    (hKind : stmt.kind = .machine access target operands)
    (h : visitMachine types stmt access target operands s = .next s') : Executed stmt s s' := by
  unfold visitMachine at h
  split at h
  · cases h
  · rename_i done hDone
    obtain ⟨-, rfl⟩ := Flow.ofStatus_eq_next h
    refine ⟨?_, ?_, fun _ => ?_, fun hIs => by simp [hKind, Kind.isControlFlow] at hIs⟩
    · cases done.value with
      | none => left; cases target <;> rfl
      | some value => right; exact ⟨value, by cases target <;> rfl⟩
    · intro x hx
      rw [hKind] at hx
      cases target with
      | none => cases done.value <;> rfl
      | some y =>
        have hNe : x ≠ y := by simpa [Kind.assigned] using hx
        cases done.value <;> exact Function.update_of_ne hNe _ _
    · cases target <;> cases done.value <;> rfl

theorem executed_call {target : ActionId} {args : List Argument} (hKind : stmt.kind = .call target args)
    (h : visitCall callees types stmt target args s = .next s') : Executed stmt s s' := by
  unfold visitCall at h
  split at h
  · cases h
  · split at h
    · cases h
    · cases h
    · split at h
      · cases h
      · rename_i back hBack
        obtain ⟨hValues, hNext, -, -, hSymbols⟩ := State.copyBack_spec hBack
        have hRest : ∀ x, x ∉ stmt.kind.assigned → back.symbols x = s.symbols x := by
          intro x hx
          rw [hKind] at hx
          exact hSymbols x hx
        have hFlow : stmt.kind.isControlFlow ≠ true := by simp [hKind, Kind.isControlFlow]
        split at h
        · split at h
          · rename_i value _
            cases h
            exact ⟨Or.inr ⟨value, by rw [← hValues]; rfl⟩, hRest, fun _ => hNext,
              fun hIs => absurd hIs hFlow⟩
          · cases h
        · obtain ⟨-, rfl⟩ := Flow.ofStatus_eq_next h
          exact ⟨Or.inl hValues, hRest, fun _ => hNext, fun hIs => absurd hIs hFlow⟩

theorem execute_spec (h : execute callees types stmt s = .next s') : Executed stmt s s' := by
  unfold execute at h
  split at h
  all_goals rename_i hKind
  · exact executed_valued (by rw [hKind]; rfl) h
  · exact executed_valued (by rw [hKind]; rfl) h
  · exact executed_valued (by rw [hKind]; rfl) h
  · exact executed_valued (by rw [hKind]; rfl) h
  · exact executed_valued (by rw [hKind]; rfl) h
  · split at h
    · cases h
      refine ⟨Or.inl rfl, fun x hx => ?_, fun _ => rfl, fun hIs => by simp [hKind, Kind.isControlFlow] at hIs⟩
      rw [hKind] at hx
      exact Function.update_of_ne (by simpa [Kind.assigned] using hx) _ _
    · cases h
  · exact executed_machine hKind h
  · exact executed_call hKind h
  · exact executed_goto (by rw [hKind]; simp [Kind.targets]) h (by rw [hKind]; rfl)
  · refine executed_goto ?_ h (by rw [hKind]; rfl)
    intro c hc
    obtain ⟨isTrue, -, rfl⟩ := Option.map_eq_some_iff.mp hc
    rw [hKind]
    cases isTrue <;> simp [Kind.targets]
  · refine executed_goto ?_ h (by rw [hKind]; rfl)
    intro c hc
    obtain ⟨value, -, hSelect⟩ := Option.bind_eq_some_iff.mp hc
    rw [hKind, Kind.targets, List.mem_dedup, List.mem_cons]
    exact selectCase_mem hSelect
  · cases h
    exact ⟨Or.inl rfl, fun _ _ => rfl, fun hIs => by simp [hKind, Kind.isControlFlow] at hIs,
      fun _ => Or.inl rfl⟩
  · split at h
    · cases h
      exact ⟨Or.inl rfl, fun _ _ => rfl, fun hIs => by simp [hKind, Kind.isControlFlow] at hIs,
        fun _ => Or.inl rfl⟩
    · cases h
  · cases h

/-! Blocks. -/

def Flow.andThen (flow : Flow A) (rest : State A → Flow A) : Flow A :=
  match flow with
  | .next s => rest s
  | .stopped status s => .stopped status s
  | .fails => .fails
  | .diverges => .diverges

theorem Flow.andThen_eq_next {flow : Flow A} {rest : State A → Flow A} {s' : State A}
    (h : flow.andThen rest = .next s') : ∃ s, flow = .next s ∧ rest s = .next s' := by
  cases flow with
  | next s => exact ⟨s, rfl, h⟩
  | stopped status s => cases h
  | fails => cases h
  | diverges => cases h

theorem executeBlock_cons (stmt : Statement A) (rest : List (Statement A)) (s : State A) :
    executeBlock callees types (stmt :: rest) s =
      (execute callees types stmt s).andThen (executeBlock callees types rest) := by
  rw [executeBlock]
  cases execute callees types stmt s <;> rfl

theorem executeBlock_append (first second : List (Statement A)) (s : State A) :
    executeBlock callees types (first ++ second) s =
      (executeBlock callees types first s).andThen (executeBlock callees types second) := by
  induction first generalizing s with
  | nil => rfl
  | cons stmt first ih =>
    rw [List.cons_append, executeBlock_cons, executeBlock_cons]
    cases execute callees types stmt s with
    | next s' => exact ih s'
    | stopped status s' => rfl
    | fails => rfl
    | diverges => rfl

theorem executeBlock_singleton (stmt : Statement A) (s : State A) :
    executeBlock callees types [stmt] s = execute callees types stmt s := by
  rw [executeBlock_cons]
  cases execute callees types stmt s <;> rfl

theorem executeBlock_symbols {stmts : List (Statement A)} {x : SymbolId}
    (hAssigned : ∀ stmt ∈ stmts, x ∉ stmt.kind.assigned) (h : executeBlock callees types stmts s = .next s') :
    s'.symbols x = s.symbols x := by
  induction stmts generalizing s with
  | nil =>
    cases h
    rfl
  | cons stmt rest ih =>
    rw [executeBlock_cons] at h
    obtain ⟨middle, hFirst, hRest⟩ := Flow.andThen_eq_next h
    rw [ih (fun other hMem => hAssigned other (List.mem_cons_of_mem stmt hMem)) hRest]
    exact (execute_spec hFirst).symbols x (hAssigned stmt List.mem_cons_self)

/-! Actions. -/

theorem Action.eq_of_mem_body {a : Action A} (h : a.statements.Nodup) {b c : BlockId} (hb : b ∈ a.blocks)
    (hc : c ∈ a.blocks) (hStmt : stmt ∈ a.body b) (hStmt' : stmt ∈ a.body c) : b = c := by
  by_contra hNe
  have : Std.Symm (Function.onFun List.Disjoint a.body) := ⟨fun _ _ hxy => hxy.symm⟩
  exact (List.nodup_flatMap.mp h).2.forall hb hc hNe hStmt hStmt'

/-- The shape of an action: blocks end in control flow that leads to blocks, and each statement
has its own identity. -/
structure Structured (a : Action A) : Prop where
  entry_mem : a.entry ∈ a.blocks
  nodup : a.blocks.Nodup
  terminated : ∀ b ∈ a.blocks, ∃ front last, a.body b = front ++ [last] ∧
    last.kind.isControlFlow = true ∧ ∀ stmt ∈ front, stmt.kind.isControlFlow = false
  targets_mem : ∀ b ∈ a.blocks, ∀ c ∈ a.getSuccessors b, c ∈ a.blocks
  ids : (a.statements.map Statement.id).Nodup

namespace Structured

variable {a : Action A}

theorem getSuccessors_eq {b : BlockId} {front : List (Statement A)} {last : Statement A}
    (hBody : a.body b = front ++ [last]) (hLast : last.kind.isControlFlow = true) :
    a.getSuccessors b = last.kind.targets := by
  simp [Action.getSuccessors, Action.getControlFlow, hBody, Option.filter, hLast]

/-- The control flow graph of the action. -/
def graph (h : Structured a) : ControlFlowGraph BlockId where
  blocks := a.blocks
  entry := a.entry
  successors := a.getSuccessors
  entry_mem := h.entry_mem
  successors_mem := h.targets_mem

/-- A block leads to one of its successors, or the action returns. -/
theorem executeBlock_target (h : Structured a) {b : BlockId} (hMem : b ∈ a.blocks) {s s' : State A}
    (hRun : executeBlock callees types (a.body b) s = .next s') :
    s'.nextBlock = none ∨ ∃ c ∈ a.getSuccessors b, s'.nextBlock = some c := by
  obtain ⟨front, last, hBody, hLast, -⟩ := h.terminated b hMem
  rw [hBody, executeBlock_append] at hRun
  obtain ⟨middle, -, hEnd⟩ := Flow.andThen_eq_next hRun
  rw [executeBlock_singleton] at hEnd
  rw [getSuccessors_eq hBody hLast]
  exact (execute_spec hEnd).target hLast

/-- A statement belongs to one block only. -/
theorem block_unique (h : Structured a) {b c : BlockId} (hb : b ∈ a.blocks) (hc : c ∈ a.blocks)
    {stmt stmt' : Statement A} (hStmt : stmt ∈ a.body b) (hStmt' : stmt' ∈ a.body c)
    (hId : stmt.id = stmt'.id) : b = c ∧ stmt = stmt' := by
  have hSame : stmt = stmt' := List.inj_on_of_nodup_map h.ids (List.mem_flatMap.mpr ⟨b, hb, hStmt⟩)
      (List.mem_flatMap.mpr ⟨c, hc, hStmt'⟩) hId
  subst hSame
  exact ⟨Action.eq_of_mem_body h.ids.of_map hb hc hStmt hStmt', rfl⟩

end Structured

/-- What a block's end means for the run. -/
def Action.proceed (a : Action A) : Flow A → Progress (State A) (Outcome A)
  | .next s => .running s
  | .stopped status s => .done (a.finish status s)
  | .fails => .done .fails
  | .diverges => .done .diverges

section Step

variable {a : Action A} {s : State A} {b : BlockId}

theorem step_return (h : s.nextBlock = none) : a.step callees s = .done (a.finish .normal s) := by
  simp only [Action.step, h]

theorem step_block (h : s.nextBlock = some b) (hMem : b ∈ a.blocks) :
    a.step callees s = a.proceed (executeBlock callees a.symbolType (a.body b) s) := by
  simp only [Action.step, h, if_pos hMem]
  cases executeBlock callees a.symbolType (a.body b) s <;> rfl

theorem step_missing (h : s.nextBlock = some b) (hMem : b ∉ a.blocks) : a.step callees s = .done .fails := by
  simp only [Action.step, h, if_neg hMem]

end Step

theorem State.setParams_spec (types : SymbolId → A.Ty) (params : List SymbolId)
    (values : List A.Value) (s : State A) : (State.setParams types params values s).values = s.values ∧
      (State.setParams types params values s).nextBlock = s.nextBlock := by
  induction params generalizing values s with
  | nil => exact ⟨rfl, rfl⟩
  | cons x params ih =>
    cases values with
    | nil => exact ⟨rfl, rfl⟩
    | cons value values => exact ih values (s.setSymbolValue types x value)

/-- The blocks that a run has completed, the last one first. -/
inductive Visited (callees : Callees A) (a : Action A) (values : List A.Value)
    (machine : A.Machine) : List BlockId → State A → Prop
  | start : Visited callees a values machine [] (a.start values machine)
  | block {path : List BlockId} {s s' : State A} {b : BlockId}
      (prior : Visited callees a values machine path s) (next : s.nextBlock = some b)
      (mem : b ∈ a.blocks) (run : executeBlock callees a.symbolType (a.body b) s = .next s') :
      Visited callees a values machine (b :: path) s'

section Visits

variable {a : Action A} {values : List A.Value} {machine : A.Machine} {path : List BlockId}
  {s : State A}

theorem Visited.pathTo (hShape : Structured a) (h : Visited callees a values machine path s)
    {b : BlockId} (hNext : s.nextBlock = some b) : PathTo hShape.graph.Edge hShape.graph.entry (b :: path) b := by
  induction h generalizing b with
  | start =>
    rw [Action.start, (State.setParams_spec _ _ _ _).2] at hNext
    cases hNext
    exact .start
  | block prior next mem run ih =>
    rcases hShape.executeBlock_target mem run with hNone | ⟨c, hSuccessor, hSome⟩
    · rw [hNone] at hNext
      cases hNext
    · rw [hSome] at hNext
      cases hNext
      exact .step (ih next) ⟨mem, hSuccessor⟩

/-- What is known of the value of a statement: it is of the statement's type, and constants and
fields of the instruction do not depend on the state. -/
def Computes (stmt : Statement A) (value : A.Value) : Prop :=
  A.cast stmt.type value = value ∧
    match stmt.kind with
    | .constant constant => value = A.cast stmt.type constant
    | .readStructMember target memberNames =>
        ∃ field, A.field target memberNames = some field ∧ value = A.cast stmt.type field
    | _ => True

theorem execute_computes {stmt : Statement A} {s s' : State A} (h : execute callees types stmt s = .next s') :
    s'.values = s.values ∨ ∃ value, s'.values = (stmt.id, value) :: s.values ∧ Computes stmt value := by
  rcases (execute_spec h).values with hSame | ⟨value, hValues⟩
  · exact Or.inl hSame
  · right
    refine ⟨_, hValues, A.cast_cast _ _, ?_⟩
    split
    · rename_i constant hKind
      simp only [execute, hKind, valued] at h
      cases h
      exact congrArg Prod.snd (List.head_eq_of_cons_eq hValues).symm
    · rename_i target memberNames hKind
      simp only [execute, hKind] at h
      cases hField : A.field target memberNames with
      | none =>
        rw [hField] at h
        cases h
      | some field =>
        rw [hField] at h
        cases h
        exact ⟨field, rfl, congrArg Prod.snd (List.head_eq_of_cons_eq hValues).symm⟩
    · trivial

variable {entry : StatementId × A.Value}

theorem executeBlock_computes {stmts : List (Statement A)} {s s' : State A}
    (h : executeBlock callees types stmts s = .next s') (hEntry : entry ∈ s'.values) :
    entry ∈ s.values ∨ ∃ stmt ∈ stmts, stmt.id = entry.1 ∧ Computes stmt entry.2 := by
  induction stmts generalizing s with
  | nil =>
    cases h
    exact Or.inl hEntry
  | cons stmt rest ih =>
    rw [executeBlock_cons] at h
    obtain ⟨middle, hFirst, hRest⟩ := Flow.andThen_eq_next h
    rcases ih hRest with hMiddle | ⟨other, hMem, hOther⟩
    · rcases execute_computes hFirst with hSame | ⟨value, hValues, hComputes⟩
      · exact Or.inl (hSame ▸ hMiddle)
      · rw [hValues] at hMiddle
        rcases List.mem_cons.mp hMiddle with rfl | hOld
        · exact Or.inr ⟨stmt, List.mem_cons_self, rfl, hComputes⟩
        · exact Or.inl hOld
    · exact Or.inr ⟨other, List.mem_cons_of_mem stmt hMem, hOther⟩

/-- Where the values of a run come from. -/
theorem Visited.computes (h : Visited callees a values machine path s) (hEntry : entry ∈ s.values) :
    ∃ b ∈ a.blocks, ∃ stmt ∈ a.body b, stmt.id = entry.1 ∧ Computes stmt entry.2 := by
  induction h with
  | start =>
    rw [Action.start, (State.setParams_spec _ _ _ _).1] at hEntry
    cases hEntry
  | @block path s₀ _ b₀ prior next mem run ih =>
    rcases executeBlock_computes run hEntry with hOld | ⟨stmt, hMem, hStmt⟩
    · exact ih hOld
    · exact ⟨b₀, mem, stmt, hMem, hStmt⟩

/-- The same in the middle of a block. -/
theorem Visited.computes_front (h : Visited callees a values machine path s) {b : BlockId} (hMem : b ∈ a.blocks)
    {front rest : List (Statement A)} (hBody : a.body b = front ++ rest) {s' : State A}
    (hRun : executeBlock callees types front s = .next s') (hEntry : entry ∈ s'.values) :
    ∃ stmt ∈ a.statements, stmt.id = entry.1 ∧ Computes stmt entry.2 := by
  rcases executeBlock_computes hRun hEntry with hOld | ⟨stmt, hStmt, hComputes⟩
  · obtain ⟨c, hc, stmt, hStmt, hComputes⟩ := h.computes hOld
    exact ⟨stmt, List.mem_flatMap.mpr ⟨c, hc, hStmt⟩, hComputes⟩
  · refine ⟨stmt, List.mem_flatMap.mpr ⟨b, hMem, ?_⟩, hComputes⟩
    rw [hBody]
    exact List.mem_append_left _ hStmt

/-- Blocks that do the same in every state that a run gets to. -/
theorem preserves_of_visited {body : BlockId → List (Statement A)} {blocks : List BlockId}
    (h : ∀ callees values machine path s b, Visited callees a values machine path s →
      s.nextBlock = some b → b ∈ a.blocks → executeBlock callees a.symbolType (a.body b) s = .fails ∨
        b ∈ blocks ∧ executeBlock callees a.symbolType (body b) s = executeBlock callees a.symbolType (a.body b) s) :
    Preserves a { a with body := body, blocks := blocks } := by
  let related : Callees A → State A → State A → Prop := fun callees s s' =>
    s = s' ∧ ∃ values machine path, Visited callees a values machine path s
  have hStart : ∀ callees values machine, related callees (a.start values machine)
      (Action.start { a with body := body, blocks := blocks } values machine) :=
    fun callees values machine => ⟨rfl, values, machine, [], .start⟩
  refine preserves_of_simulates rfl hStart fun callees => simulates_of_step ?_
  rintro s _ ⟨rfl, values, machine, path, hVisited⟩
  cases hNext : s.nextBlock with
  | none => exact Or.inl ⟨_, step_return hNext, Or.inr (step_return hNext)⟩
  | some b =>
    by_cases hMem : b ∈ a.blocks
    · rw [step_block hNext hMem]
      rcases h callees values machine path s b hVisited hNext hMem with hFails | ⟨hMem', hSame⟩
      · rw [hFails]
        exact Or.inl ⟨_, rfl, Or.inl rfl⟩
      · rw [step_block hNext hMem', hSame]
        cases hRun : executeBlock callees a.symbolType (a.body b) s with
        | next s' => exact Or.inr ⟨s', s', rfl, rfl, rfl, values, machine, _, .block hVisited hNext hMem hRun⟩
        | stopped status s' => exact Or.inl ⟨_, rfl, Or.inr rfl⟩
        | fails => exact Or.inl ⟨_, rfl, Or.inl rfl⟩
        | diverges => exact Or.inl ⟨_, rfl, Or.inr rfl⟩
    · exact Or.inl ⟨_, step_missing hNext hMem, Or.inl rfl⟩

end Visits

end Gensim.GenC
