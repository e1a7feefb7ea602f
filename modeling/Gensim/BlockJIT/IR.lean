import Mathlib.Data.BitVec
import Mathlib.Tactic

/-! The block JIT's intermediate representation: operands, instructions, the
operand-format table and the instruction buffer every transform rewrites in
place. Nothing here gives an instruction a meaning. -/
namespace Gensim.BlockJIT

inductive IROperandType
  | none | constant | vreg | block | func | pc
  deriving DecidableEq, Repr

inductive IRAllocationMode
  | notAllocated | allocatedReg | allocatedStack
  deriving DecidableEq, Repr

/-- One operand. `allocData` is the 14-bit field of the source, so a larger
register number or stack offset is truncated when it is stored. -/
structure IROperand where
  value : BitVec 64
  allocData : BitVec 14 := 0
  allocMode : IRAllocationMode := .notAllocated
  type : IROperandType
  /-- Width in bytes. -/
  size : Nat
  deriving DecidableEq, Repr

namespace IROperand

def constant (value : BitVec 64) (size : Nat) : IROperand := { value, type := .constant, size }
def vreg (id : Nat) (size : Nat) : IROperand := { value := .ofNat 64 id, type := .vreg, size }
def block (id : Nat) : IROperand := { value := .ofNat 64 id, type := .block, size := 0 }
def none : IROperand := { value := 0, type := .none, size := 0 }

def isConstant (o : IROperand) : Bool := o.type = .constant
def isVreg (o : IROperand) : Bool := o.type = .vreg
def isAllocReg (o : IROperand) : Bool := o.allocMode = .allocatedReg
def isAllocStack (o : IROperand) : Bool := o.allocMode = .allocatedStack

/-- Register identifiers are 32 bits wide. -/
def getVregIdx (o : IROperand) : Nat := o.value.toNat % 2 ^ 32

/-- Block identifiers are 32 bits wide. -/
def blockId (o : IROperand) : Nat := o.value.toNat % 2 ^ 32

def allocate (o : IROperand) (mode : IRAllocationMode) (data : Nat) : IROperand :=
  { o with allocMode := mode, allocData := .ofNat 14 data }

end IROperand

inductive IRInstructionType
  | invalid | verify | count | intcheck | nop | trap
  | mov | cmov | ldpc | incpc
  | add | sub | imul | mul | udiv | sdiv | mod
  | shl | shr | sar | ror | rol | clz | popcnt | bswap
  | and | or | xor
  | cmpeq | cmpne | cmpgt | cmpgte | cmplt | cmplte
  | sx | zx | trunc
  | readReg | writeReg | readMem | writeMem
  | call | jmp | branch | ret | dispatch
  | setCpuMode | setCpuFeature | writeDevice | readDevice | probeDevice
  | flush | flushItlb | flushDtlb | flushItlbEntry | flushDtlbEntry
  | adcWithFlags | sbcWithFlags | setZnFlags
  | barrier | takeException | profile
  | cmpsgt | cmpsgte | cmpslt | cmpslte
  | fmul | fdiv | fadd | fsub | fsqrt | fabs
  | fcmpLt | fcmpLte | fcmpGt | fcmpGte | fcmpEq | fcmpNe
  | fcvtUiToF | fcvtFToUi | fcvttFToUi | fcvtSiToF | fcvtFToSi | fcvttFToSi | fcvtSToD | fcvtDToS
  | fctrlSetRound | fctrlGetRound | fctrlSetFlushDenormal | fctrlGetFlushDenormal
  | vaddi | vaddf | vsubi | vsubf | vmuli | vmulf | vori | vandi | vxori
  | vcmpeqi | vcmpgti | vcmpgtei | vcmpltf
  deriving DecidableEq, Repr

/-- The letters of a descriptor's format string. Positions past the end of a
format are `x`. -/
inductive OperandDirection
  | x | n | b | i | o
  deriving DecidableEq, Repr

/-- Format column of the descriptor table, without its trailing `X`s. -/
def format : IRInstructionType → List OperandDirection
  | .invalid | .intcheck | .nop | .trap | .ret | .flush | .flushItlb | .flushDtlb => []
  | .verify | .jmp | .barrier | .profile => [.n]
  | .count | .setCpuFeature => [.n, .n]
  | .dispatch => [.n, .n, .n, .n]
  | .branch => [.i, .n, .n]
  | .ldpc | .fctrlGetRound | .fctrlGetFlushDenormal => [.o]
  | .incpc | .setCpuMode | .flushItlbEntry | .flushDtlbEntry | .setZnFlags | .fctrlSetRound
  | .fctrlSetFlushDenormal => [.i]
  | .writeReg | .takeException => [.i, .i]
  | .writeDevice | .adcWithFlags | .sbcWithFlags => [.i, .i, .i]
  | .readMem => [.n, .i, .i, .o]
  | .writeMem => [.n, .i, .i, .i]
  | .call => [.n, .i, .i, .i, .i, .i]
  | .cmov => [.i, .i, .b]
  | .add | .sub | .imul | .mul | .udiv | .sdiv | .mod
  | .shl | .shr | .sar | .ror | .rol | .and | .or | .xor => [.i, .b]
  | .mov | .clz | .popcnt | .bswap | .sx | .zx | .trunc | .readReg | .probeDevice
  | .fsqrt | .fabs | .fcvtUiToF | .fcvtFToUi | .fcvttFToUi | .fcvtSiToF | .fcvtFToSi
  | .fcvttFToSi | .fcvtSToD | .fcvtDToS => [.i, .o]
  | .cmpeq | .cmpne | .cmpgt | .cmpgte | .cmplt | .cmplte
  | .cmpsgt | .cmpsgte | .cmpslt | .cmpslte | .readDevice
  | .fmul | .fdiv | .fadd | .fsub
  | .fcmpLt | .fcmpLte | .fcmpGt | .fcmpGte | .fcmpEq | .fcmpNe => [.i, .i, .o]
  | .vaddi | .vaddf | .vsubi | .vsubf | .vmuli | .vmulf | .vori | .vandi | .vxori
  | .vcmpeqi | .vcmpgti | .vcmpgtei | .vcmpltf => [.n, .i, .i, .o]

def direction (type : IRInstructionType) (index : Nat) : OperandDirection :=
  (format type).getD index .x

/-- Block id of instructions a transform has deleted. -/
def nopBlock : Nat := 0x7fffffff

def invalidBlockId : Nat := 0xffffffff

structure IRInstruction where
  type : IRInstructionType
  operands : List IROperand
  irBlock : Nat
  deriving DecidableEq, Repr

namespace IRInstruction

def makeNop (_ : IRInstruction) : IRInstruction :=
  { type := .nop, operands := [], irBlock := nopBlock }

def operand (insn : IRInstruction) (index : Nat) : IROperand :=
  insn.operands.getD index .none

/-- Operands paired with their direction, in operand order. -/
def directed (insn : IRInstruction) : List (OperandDirection × IROperand) :=
  insn.operands.mapIdx fun index o => (direction insn.type index, o)

end IRInstruction

/-- The instruction buffer with the counters the transforms read. -/
structure TranslationContext where
  insns : List IRInstruction
  regCount : Nat
  blockCount : Nat
  deriving DecidableEq, Repr

end Gensim.BlockJIT
