import Mathlib.Data.List.Basic
import Mathlib.Tactic

/-! Actions in SSA form: blocks of statements that compute values, read and write variables and
the machine, and end in a control flow statement. -/
namespace Gensim.GenC

/-- How a run of an action ended, other than by an exception. -/
inductive Status
  | normal | halt | error
  deriving DecidableEq, Repr

/-- The statements that read or write the machine. -/
inductive Access (Intrinsic : Type)
  | memoryRead (width : Nat)
  | memoryWrite (width : Nat)
  | deviceRead
  | registerRead (bank : Nat) (isBanked : Bool)
  | registerWrite (bank : Nat) (isBanked : Bool)
  | intrinsic (id : Intrinsic)

/-- What a machine access did: the value of the statement, if it has one, and the value that was
loaded for the variable it kills. -/
structure Performed (Value Machine : Type) where
  status : Status
  value : Option Value
  loaded : Value
  machine : Machine

/-- Constants, their types and operations, and the machine. -/
structure Arch where
  Value : Type
  Ty : Type
  Machine : Type
  Operation : Type
  Intrinsic : Type
  /-- A value of the type is cut to the type's width. -/
  cast : Ty → Value → Value
  cast_cast : ∀ t v, cast t (cast t v) = cast t v
  default : Ty → Value
  isVoid : Ty → Bool
  isReference : Ty → Bool
  /-- Arithmetic, casts, selection, vector and bit operations; none where they are not
  implemented. -/
  evaluate : Operation → List Value → Option Value
  /-- The boolean reading of a constant, where there is one. -/
  truth : Value → Option Bool
  int : Value → Option Nat
  field : Nat → List String → Option Value
  perform : Access Intrinsic → List Value → Machine → Option (Performed Value Machine)

abbrev BlockId := Nat
abbrev StatementId := Nat
abbrev SymbolId := Nat
abbrev ActionId := Nat

/-- Sets of blocks are visited in the order of the blocks' addresses, whatever that is. -/
structure AddressOrder where
  sort : List BlockId → List BlockId
  perm : ∀ blocks, (sort blocks).Perm blocks

/-- An argument of a call is a value, or a variable for a reference parameter. -/
inductive Argument
  | value (statement : StatementId)
  | symbol (symbol : SymbolId)
  deriving DecidableEq, Repr

/-- The classes of statements with their operands. -/
inductive Kind (A : Arch)
  | constant (value : A.Value)
  | operation (op : A.Operation) (operands : List StatementId)
  | phi (members : List StatementId)
  | readStructMember (target : SymbolId) (memberNames : List String)
  | variableRead (target : SymbolId)
  | variableWrite (target : SymbolId) (expr : StatementId)
  | machine (access : Access A.Intrinsic) (target : Option SymbolId) (operands : List StatementId)
  | call (target : ActionId) (args : List Argument)
  | jump (target : BlockId)
  | branch (expr : StatementId) (trueTarget falseTarget : BlockId)
  /-- The cases in the order in which they are compared, each with the constant of its value if
  that is one. -/
  | switch (expr : StatementId) (default : BlockId)
      (values : List (StatementId × Option A.Value × BlockId))
  | return_ (value : Option StatementId)
  | raise

structure Statement (A : Arch) where
  id : StatementId
  type : A.Ty
  kind : Kind A

structure Action (A : Arch) where
  blocks : List BlockId
  entry : BlockId
  body : BlockId → List (Statement A)
  symbolType : SymbolId → A.Ty
  params : List SymbolId
  /-- The return type is not void. -/
  returnsValue : Bool

variable {A : Arch}

namespace Argument

def statement? : Argument → Option StatementId
  | .value statement => some statement
  | .symbol _ => none

def symbol? : Argument → Option SymbolId
  | .value _ => none
  | .symbol x => some x

end Argument

namespace Kind

/-- The statements among the operands. -/
def operands : Kind A → List StatementId
  | .constant _ => []
  | .operation _ operands => operands
  | .phi members => members
  | .readStructMember _ _ => []
  | .variableRead _ => []
  | .variableWrite _ expr => [expr]
  | .machine _ _ operands => operands
  | .call _ args => args.filterMap Argument.statement?
  | .jump _ => []
  | .branch expr _ _ => [expr]
  | .switch expr _ values => expr :: values.map fun entry => entry.1
  | .return_ value => value.toList
  | .raise => []

/-- The variables among the operands. -/
def symbols : Kind A → List SymbolId
  | .readStructMember target _ => [target]
  | .variableRead target => [target]
  | .variableWrite target _ => [target]
  | .machine _ target _ => target.toList
  | .call _ args => args.filterMap Argument.symbol?
  | _ => []

/-- The variable that a statement of the class `SSAVariableKillStatement` overwrites. -/
def killTarget : Kind A → Option SymbolId
  | .variableWrite target _ => some target
  | .machine _ target _ => target
  | _ => none

/-- The variables that change when the statement is executed. -/
def assigned : Kind A → List SymbolId
  | .variableWrite target _ => [target]
  | .machine _ target _ => target.toList
  | .call _ args => args.filterMap Argument.symbol?
  | _ => []

def isControlFlow : Kind A → Bool
  | .jump _ | .branch _ _ _ | .switch _ _ _ | .return_ _ | .raise => true
  | _ => false

def isCall : Kind A → Bool
  | .call _ _ => true
  | _ => false

/-- The blocks a control flow statement may lead to, each of them once. -/
def targets : Kind A → List BlockId
  | .jump target => [target]
  | .branch _ trueTarget falseTarget => [trueTarget, falseTarget].dedup
  | .switch _ default values => (default :: values.map fun entry => entry.2.2).dedup
  | _ => []

end Kind

namespace Action

/-- All statements, block by block. -/
def statements (a : Action A) : List (Statement A) := a.blocks.flatMap a.body

def getControlFlow (a : Action A) (b : BlockId) : Option (Statement A) :=
  (a.body b).getLast?.filter fun stmt => stmt.kind.isControlFlow

def getSuccessors (a : Action A) (b : BlockId) : List BlockId :=
  match a.getControlFlow b with
  | some stmt => stmt.kind.targets
  | none => []

/-- A block is listed once for each of its successors that is `b`. -/
def getPredecessors (a : Action A) (b : BlockId) : List BlockId :=
  a.blocks.filter fun p => b ∈ a.getSuccessors p

/-- The statement that an operand points to. -/
def find? (a : Action A) (id : StatementId) : Option (Statement A) :=
  a.statements.find? fun stmt => stmt.id = id

end Action

end Gensim.GenC
