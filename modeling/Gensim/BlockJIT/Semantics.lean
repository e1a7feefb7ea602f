import Gensim.BlockJIT.IR
import Gensim.BlockJIT.Word
import Gensim.Lib.BlockProgram
import Gensim.Lib.ByteStore

/-! What an IR buffer computes. Virtual registers are read and written at the
operand's width, the guest register file is a byte store, and everything
outside the translated code (memory, devices, helper functions, floating point
and vector arithmetic) is a `Host`. The meaning is independent of how virtual
registers are named: `κ` is the type of the cells they live in. -/
namespace Gensim.BlockJIT

open BlockProgram ByteStore

structure State (κ W : Type) where
  cells : κ → Nat
  regs : Store
  world : W

structure HostResult (W : Type) where
  value : Nat
  regs : Store
  world : W
  halts : Bool

/-- The part of the machine the IR does not define. The offsets are those of the
tagged entries of the architecture's register file. `compute` covers
instructions that only produce a value, `external` those that leave the
translated code. -/
structure Host (W : Type) where
  pcOffset : Nat
  cOffset : Nat
  vOffset : Nat
  zOffset : Nat
  nOffset : Nat
  compute : IRInstructionType → List Word → W → Nat
  external : IRInstructionType → List Word → Store → W → HostResult W

/-- One executed instruction with the values it read and the register file it
started from. -/
structure Event where
  type : IRInstructionType
  args : List Word
  regs : Store

inductive InstructionClass
  | skip | value | cmov | loadPc | incPc | readReg | writeReg | flags | external
  | jump | branch | exit
  deriving DecidableEq, Repr

def classify : IRInstructionType → InstructionClass
  | .invalid | .nop | .barrier => .skip
  | .cmov => .cmov
  | .ldpc => .loadPc
  | .incpc => .incPc
  | .readReg => .readReg
  | .writeReg => .writeReg
  | .adcWithFlags | .sbcWithFlags | .setZnFlags => .flags
  | .verify | .count | .intcheck | .trap | .readMem | .writeMem | .call
  | .setCpuMode | .setCpuFeature | .writeDevice | .readDevice
  | .flush | .flushItlb | .flushDtlb | .flushItlbEntry | .flushDtlbEntry
  | .takeException | .profile | .fctrlSetRound | .fctrlSetFlushDenormal => .external
  | .jmp => .jump
  | .branch => .branch
  | .ret | .dispatch => .exit
  | _ => .value

/-- Helpers that are handed the thread can read the whole register file. -/
def observesRegisterFile : IRInstructionType → Bool
  | .verify | .readMem | .writeMem | .call | .writeDevice | .readDevice | .takeException => true
  | _ => false

/-- Verification only compares; the other helpers may also write registers. -/
def mutatesRegisterFile : IRInstructionType → Bool
  | .readMem | .writeMem | .call | .writeDevice | .readDevice | .takeException => true
  | _ => false

/-! ### Values -/

/-- Result of an instruction that only produces a value. The result is truncated
when it is written, so it may exceed the destination's width here. A shift by
at least the width gives zero, also the arithmetic one. -/
def result {W : Type} (host : Host W) (world : W) :
    IRInstructionType → List Word → Nat
  | .mov, src :: _ => src.value
  | .zx, src :: _ => src.value
  | .trunc, src :: _ => src.value
  | .sx, [src, dst] => ofSigned dst.size (toSigned src)
  | .add, [src, dst] => dst.value + src.value
  | .sub, [src, dst] => ofSigned dst.size (dst.value - src.value)
  | .imul, [src, dst] => dst.value * src.value
  | .mul, [src, dst] => dst.value * src.value
  | .udiv, [src, dst] => dst.value / src.value
  | .sdiv, [src, dst] => ofSigned dst.size ((toSigned dst).tdiv (toSigned src))
  | .mod, [src, dst] => dst.value % src.value
  | .shl, [src, dst] => dst.value * 2 ^ src.value
  | .shr, [src, dst] => dst.value / 2 ^ src.value
  | .sar, [src, dst] =>
      if src.value < bits dst.size then ofSigned dst.size (toSigned dst / 2 ^ src.value) else 0
  | .rol, [src, dst] => rotateLeft dst src.value
  | .ror, [src, dst] => rotateLeft dst (bits dst.size - src.value % bits dst.size)
  | .and, [src, dst] => dst.value &&& src.value
  | .or, [src, dst] => dst.value ||| src.value
  | .xor, [src, dst] => dst.value ^^^ src.value
  | .clz, src :: _ => leadingZeros src
  | .popcnt, src :: _ => populationCount src
  | .bswap, src :: _ => byteSwap src
  | .cmpeq, lhs :: rhs :: _ => ofBool (lhs.value = rhs.value)
  | .cmpne, lhs :: rhs :: _ => ofBool (lhs.value ≠ rhs.value)
  | .cmpgt, lhs :: rhs :: _ => ofBool (rhs.value < lhs.value)
  | .cmpgte, lhs :: rhs :: _ => ofBool (rhs.value ≤ lhs.value)
  | .cmplt, lhs :: rhs :: _ => ofBool (lhs.value < rhs.value)
  | .cmplte, lhs :: rhs :: _ => ofBool (lhs.value ≤ rhs.value)
  | .cmpsgt, lhs :: rhs :: _ => ofBool (toSigned rhs < toSigned lhs)
  | .cmpsgte, lhs :: rhs :: _ => ofBool (toSigned rhs ≤ toSigned lhs)
  | .cmpslt, lhs :: rhs :: _ => ofBool (toSigned lhs < toSigned rhs)
  | .cmpslte, lhs :: rhs :: _ => ofBool (toSigned lhs ≤ toSigned rhs)
  | type, args => host.compute type args world

/-! ### Flags -/

section Flags
variable {W : Type} (host : Host W)

def setByte (regs : Store) (offset : Nat) (b : Bool) : Store := store regs offset 1 (ofBool b)

def setZN (regs : Store) (w : Word) : Store :=
  setByte (setByte regs host.zOffset (w.value = 0)) host.nOffset
    (2 ^ (bits w.size - 1) ≤ w.value)

/-- The four flags of a 32-bit addition or subtraction with carry. -/
def setCVZN (regs : Store) (unsigned : Int) (signed : Int) : Store :=
  let r : Word := ⟨ofSigned 4 unsigned, 4⟩
  let regs := setByte regs host.cOffset (unsigned < 0 ∨ 2 ^ 32 ≤ unsigned)
  let regs := setByte regs host.vOffset (signed ≠ toSigned r)
  setZN host regs r

def setFlags (regs : Store) : IRInstructionType → List Word → Store
  | .adcWithFlags, [lhs, rhs, carry] =>
      let l : Word := ⟨lhs.value % 2 ^ 32, 4⟩
      let r : Word := ⟨rhs.value % 2 ^ 32, 4⟩
      let c := ofBool (carry.value % 256 ≠ 0)
      setCVZN host regs (l.value + r.value + c) (toSigned l + toSigned r + c)
  | .sbcWithFlags, [lhs, rhs, carry] =>
      let l : Word := ⟨lhs.value % 2 ^ 32, 4⟩
      let r : Word := ⟨rhs.value % 2 ^ 32, 4⟩
      let c := ofBool (carry.value % 256 ≠ 0)
      setCVZN host regs (l.value - r.value - c) (toSigned l - toSigned r - c)
  | .setZnFlags, [w] => setZN host regs w
  | _, _ => regs

end Flags

/-! ### Operands -/

/-- Only helper calls write through an undirected operand: their first one
receives the return value when it is a virtual register. -/
def isOutput (type : IRInstructionType) : OperandDirection → Bool
  | .o | .b => true
  | .n => type = .call
  | _ => false

def isInput : OperandDirection → Bool
  | .i | .b => true
  | _ => false

/-- Value of an operand that is not a virtual register. Block ids are control
targets and carry no data. -/
def literal (o : IROperand) : Nat :=
  match o.type with
  | .constant => o.value.toNat % 2 ^ bits o.size
  | .func | .pc => o.value.toNat
  | _ => 0

section Operands
variable {κ W : Type}

/-- Value an operand contributes in a given direction. A program-counter operand
used as an input stands for the register file's current one. -/
def readOperand (pcOffset : Nat) (loc : IROperand → κ) (s : State κ W)
    (d : OperandDirection) (o : IROperand) : Word :=
  if o.isVreg then
    ⟨if isInput d then s.cells (loc o) % 2 ^ bits o.size else 0, o.size⟩
  else if o.type = .pc ∧ isInput d then ⟨load s.regs pcOffset o.size, o.size⟩
  else ⟨literal o, o.size⟩

def args (pcOffset : Nat) (loc : IROperand → κ) (insn : IRInstruction) (s : State κ W) :
    List Word :=
  insn.directed.map fun p => readOperand pcOffset loc s p.1 p.2

/-- The virtual register an instruction writes, if any. -/
def output (insn : IRInstruction) : Option IROperand :=
  (insn.directed.find? fun p => isOutput insn.type p.1 && p.2.isVreg).map (·.2)

/-- Write a value at the output operand's width. The whole cell is replaced. -/
def writeOutput [DecidableEq κ] (loc : IROperand → κ) (insn : IRInstruction) (value : Nat)
    (cells : κ → Nat) : κ → Nat :=
  match output insn with
  | some o => Function.update cells (loc o) (value % 2 ^ bits o.size)
  | none => cells

def outputSize (insn : IRInstruction) : Nat :=
  match output insn with
  | some o => o.size
  | none => 0

end Operands

/-! ### Execution -/

section Execution
variable {κ W : Type} [DecidableEq κ] (host : Host W) (loc : IROperand → κ)

/-- What an instruction does to the state and to control, given the values it
read. -/
def effect (insn : IRInstruction) (a : List Word) (s : State κ W) : State κ W × Next :=
  let arg := fun k => (a.getD k ⟨0, 0⟩)
  let write := fun value => { s with cells := writeOutput loc insn value s.cells }
  match classify insn.type with
  | .skip => (s, .fall)
  | .value => (write (result host s.world insn.type a), .fall)
  | .cmov => (if (arg 0).value ≠ 0 then write (arg 1).value else s, .fall)
  | .loadPc => (write (load s.regs host.pcOffset (outputSize insn)), .fall)
  | .incPc =>
      ({ s with
          regs := store s.regs host.pcOffset 4 (load s.regs host.pcOffset 4 + (arg 0).value) },
        .fall)
  | .readReg => (write (load s.regs (arg 0).value (outputSize insn)), .fall)
  | .writeReg =>
      ({ s with regs := store s.regs (arg 1).value (arg 0).size (arg 0).value }, .fall)
  | .flags => ({ s with regs := setFlags host s.regs insn.type a }, .fall)
  | .external =>
      let view := if observesRegisterFile insn.type then s.regs else fun _ => 0
      let r := host.external insn.type a view s.world
      ({ cells := writeOutput loc insn r.value s.cells
         regs := if mutatesRegisterFile insn.type then r.regs else s.regs
         world := r.world },
        if r.halts then .halt else .fall)
  | .jump => (s, .goto (insn.operand 0).blockId)
  | .branch =>
      (s, .goto (if (arg 0).value ≠ 0 then insn.operand 1 else insn.operand 2).blockId)
  | .exit => (s, .halt)

def step (insn : IRInstruction) (s : State κ W) : Outcome (State κ W) Event :=
  let a := args host.pcOffset loc insn s
  ⟨(effect host loc insn a s).1, [⟨insn.type, a, s.regs⟩], (effect host loc insn a s).2⟩

end Execution

/-- Instructions of a block in buffer order. Deleted instructions are never
lowered. -/
def codeOf (block : Nat) (insns : List IRInstruction) : List IRInstruction :=
  insns.filter fun insn => insn.irBlock = block ∧ insn.irBlock ≠ nopBlock

def TranslationContext.code (ctx : TranslationContext) (block : Nat) : List IRInstruction :=
  codeOf block ctx.insns

end Gensim.BlockJIT
