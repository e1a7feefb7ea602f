import Mathlib.Logic.Function.Basic
import Gensim.Lib.Simulation
import Gensim.GenC.Action

/-! The meaning of actions, as the interpreter executes them. -/
namespace Gensim.GenC

open Simulation

variable {A : Arch}

/-- What the caller of an action gets back. -/
structure ActionResult (A : Arch) where
  status : Status
  returned : Option A.Value
  /-- The final values of the reference parameters, by position. -/
  references : List (Option A.Value)
  machine : A.Machine

/-- `fails` is an exception of the interpreter. -/
inductive Outcome (A : Arch)
  | finished (result : ActionResult A)
  | fails
  | diverges

/-- What the actions that are called do. -/
abbrev Callees (A : Arch) := ActionId → List A.Value → A.Machine → Outcome A

/-- The state of one action. The values of the statements are kept with the newest first, which
stands for their time stamps. -/
structure State (A : Arch) where
  symbols : SymbolId → Option A.Value
  values : List (StatementId × A.Value)
  nextBlock : Option BlockId
  returnValue : Option A.Value
  machine : A.Machine

namespace State

def getStatementValue (s : State A) (id : StatementId) : Option A.Value :=
  (s.values.find? fun entry => entry.1 = id).map Prod.snd

def getStatementValues (s : State A) (ids : List StatementId) : Option (List A.Value) :=
  ids.mapM s.getStatementValue

def setStatementValue (s : State A) (stmt : Statement A) (value : A.Value) : State A :=
  { s with values := (stmt.id, A.cast stmt.type value) :: s.values }

/-- A variable that was never written has the default value of its type. -/
def getSymbolValue (s : State A) (types : SymbolId → A.Ty) (x : SymbolId) : A.Value :=
  (s.symbols x).getD (A.cast (types x) (A.default (types x)))

def setSymbolValue (s : State A) (types : SymbolId → A.Ty) (x : SymbolId) (value : A.Value) :
    State A :=
  { s with symbols := Function.update s.symbols x (some (A.cast (types x) value)) }

/-- The member that got its value last. -/
def newest (s : State A) (members : List StatementId) : Option A.Value :=
  (s.values.find? fun entry => entry.1 ∈ members).map Prod.snd

def getArguments (s : State A) (types : SymbolId → A.Ty) (args : List Argument) :
    Option (List A.Value) :=
  args.mapM fun arg =>
    match arg with
    | .value statement => s.getStatementValue statement
    | .symbol symbol => some (s.getSymbolValue types symbol)

/-- The values of reference parameters go back to the variables that were passed; a variable that
was passed by value has none. -/
def copyBack (types : SymbolId → A.Ty) :
    List Argument → List (Option A.Value) → State A → Option (State A)
  | [], _, s => some s
  | .value _ :: args, references, s => copyBack types args references.tail s
  | .symbol x :: args, references, s =>
      match references.head? with
      | some (some value) => copyBack types args references.tail (s.setSymbolValue types x value)
      | _ => none

def setParams (types : SymbolId → A.Ty) : List SymbolId → List A.Value → State A → State A
  | x :: params, value :: values, s => setParams types params values (s.setSymbolValue types x value)
  | _, _, s => s

end State

/-- How execution goes on after a statement. -/
inductive Flow (A : Arch)
  | next (s : State A)
  | stopped (status : Status) (s : State A)
  | fails
  | diverges

/-- The next statement is executed only as long as the status is normal. -/
def Flow.ofStatus (status : Status) (s : State A) : Flow A :=
  if status = .normal then .next s else .stopped status s

section Execution

variable (callees : Callees A) (types : SymbolId → A.Ty)

def visitCall (stmt : Statement A) (target : ActionId) (args : List Argument) (s : State A) :
    Flow A :=
  match s.getArguments types args with
  | none => .fails
  | some values =>
      match callees target values s.machine with
      | .fails => .fails
      | .diverges => .diverges
      | .finished result =>
          match State.copyBack types args result.references { s with machine := result.machine } with
          | none => .fails
          | some s' =>
              if result.status = .normal ∧ A.isVoid stmt.type = false then
                match result.returned with
                | some value => .next (s'.setStatementValue stmt value)
                | none => .fails
              else .ofStatus result.status s'

def visitMachine (stmt : Statement A) (access : Access A.Intrinsic) (target : Option SymbolId)
    (operands : List StatementId) (s : State A) : Flow A :=
  match (s.getStatementValues operands).bind fun values => A.perform access values s.machine with
  | none => .fails
  | some done =>
      let s' := { s with machine := done.machine }
      let s' := target.elim s' fun x => s'.setSymbolValue types x done.loaded
      let s' := done.value.elim s' fun value => s'.setStatementValue stmt value
      .ofStatus done.status s'

/-- The target of a switch: the last case that is equal, or else the default. -/
def selectCase (value : Nat) (default : BlockId) :
    List (StatementId × Option A.Value × BlockId) → Option BlockId
  | [] => some default
  | (_, constant, target) :: values => do
      let case ← constant
      let case ← A.int case
      selectCase value (if case = value then target else default) values

def valued (stmt : Statement A) (s : State A) : Option A.Value → Flow A
  | some value => .next (s.setStatementValue stmt value)
  | none => .fails

def goto (s : State A) : Option BlockId → Flow A
  | some target => .next { s with nextBlock := some target }
  | none => .fails

def execute (stmt : Statement A) (s : State A) : Flow A :=
  match stmt.kind with
  | .constant value => valued stmt s (some value)
  | .operation op operands => valued stmt s ((s.getStatementValues operands).bind (A.evaluate op))
  | .phi members => valued stmt s (s.newest members)
  | .readStructMember target memberNames => valued stmt s (A.field target memberNames)
  | .variableRead target => valued stmt s (some (s.getSymbolValue types target))
  | .variableWrite target expr =>
      match s.getStatementValue expr with
      | some value => .next (s.setSymbolValue types target value)
      | none => .fails
  | .machine access target operands => visitMachine types stmt access target operands s
  | .call target args => visitCall callees types stmt target args s
  | .jump target => goto s (some target)
  | .branch expr trueTarget falseTarget =>
      goto s (((s.getStatementValue expr).bind A.truth).map fun isTrue =>
        if isTrue then trueTarget else falseTarget)
  | .switch expr default values =>
      goto s (((s.getStatementValue expr).bind A.int).bind fun value =>
        selectCase value default values)
  | .return_ none => .next { s with nextBlock := none }
  | .return_ (some expr) =>
      match s.getStatementValue expr with
      | some value => .next { s with nextBlock := none, returnValue := some value }
      | none => .fails
  | .raise => .fails

def executeBlock : List (Statement A) → State A → Flow A
  | [], s => .next s
  | stmt :: rest, s =>
      match execute callees types stmt s with
      | .next s' => executeBlock rest s'
      | .stopped status s' => .stopped status s'
      | .fails => .fails
      | .diverges => .diverges

end Execution

namespace Action

variable (callees : Callees A) (a : Action A)

def getReferences (s : State A) : List (Option A.Value) :=
  a.params.map fun x =>
    if A.isReference (a.symbolType x) then some (s.getSymbolValue a.symbolType x) else none

def finish (status : Status) (s : State A) : Outcome A :=
  .finished
    { status
      returned := if a.returnsValue then s.returnValue else none
      references := a.getReferences s
      machine := s.machine }

/-- Execute the next block. -/
def step (s : State A) : Progress (State A) (Outcome A) :=
  match s.nextBlock with
  | none => .done (a.finish .normal s)
  | some b =>
      if b ∈ a.blocks then
        match executeBlock callees a.symbolType (a.body b) s with
        | .next s' => .running s'
        | .stopped status s' => .done (a.finish status s')
        | .fails => .done .fails
        | .diverges => .done .diverges
      else .done .fails

def start (values : List A.Value) (machine : A.Machine) : State A :=
  State.setParams a.symbolType a.params values
    { symbols := fun _ => none
      values := []
      nextBlock := some a.entry
      returnValue := none
      machine }

/-- Run the action to its end, if it has one. -/
noncomputable def executeAction (values : List A.Value) (machine : A.Machine) : Outcome A :=
  if values.length = a.params.length then
    result .diverges (a.step callees) (a.start values machine)
  else .fails

variable {callees} {a} in
theorem executeAction_of_done {values : List A.Value} {machine : A.Machine} {outcome : Outcome A}
    {n : Nat} (hLength : values.length = a.params.length)
    (h : advance (a.step callees) n (a.start values machine) = .done outcome) :
    a.executeAction callees values machine = outcome := by
  rw [executeAction, if_pos hLength, result_of_done h]

end Action

/-- Whenever the first action runs without an exception, the second one does the same: it ends
with the same result, or does not end either. -/
def Preserves (a a' : Action A) : Prop :=
  ∀ callees values machine, a.executeAction callees values machine ≠ .fails →
    a'.executeAction callees values machine = a.executeAction callees values machine

/-- Actions whose runs are related from the start. -/
theorem preserves_of_simulates {a a' : Action A} (hParams : a'.params.length = a.params.length)
    {related : Callees A → State A → State A → Prop} (hStart : ∀ callees values machine,
      related callees (a.start values machine) (a'.start values machine))
    (hStep : ∀ callees, Simulates .diverges (· = Outcome.fails) (a.step callees) (a'.step callees)
      (related callees)) : Preserves a a' := by
  intro callees values machine hRuns
  unfold Action.executeAction at hRuns ⊢
  rw [hParams]
  by_cases hLength : values.length = a.params.length
  · rw [if_pos hLength] at hRuns ⊢
    rw [if_pos hLength]
    exact (hStep callees).result_eq (hStart callees values machine) hRuns
  · rw [if_neg hLength] at hRuns
    exact absurd rfl hRuns

/-- Natural numbers, in types that are void or not, without operations or a machine. -/
abbrev tiny : Arch where
  Value := Nat
  Ty := Bool
  Machine := Unit
  Operation := Empty
  Intrinsic := Empty
  cast _ v := v
  cast_cast _ _ := rfl
  default _ := 0
  isVoid t := t
  isReference _ := false
  evaluate _ _ := none
  truth v := some (v ≠ 0)
  int v := some v
  field _ _ := none
  perform _ _ _ := none

end Gensim.GenC
