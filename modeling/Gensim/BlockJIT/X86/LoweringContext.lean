import Gensim.BlockJIT.IR
import Gensim.BlockJIT.Semantics
import Gensim.BlockJIT.X86.Machine

/-! Where the x86 back end keeps the operands of the intermediate representation. -/
namespace Gensim.BlockJIT.X86

open ByteStore

/-- The registers that the allocator hands out, by their index. -/
def allocableRegisters : List Gpr := [.rax, .rbx, .rcx, .r8, .r9, .r10, .r11, .r13, .r14]

def getAllocableRegister (index : Nat) : Option Gpr := allocableRegisters[index]?

def regstateReg : Gpr := .rbp
def getTemp : Nat → Gpr
  | 0 => .rdi
  | 1 => .rsi
  | _ => .rdx

def registerFromOperand (oper : IROperand) : Option Gpr :=
  if oper.isAllocReg then getAllocableRegister oper.allocData.toNat else none

def stackFromOperand (oper : IROperand) : Option Address :=
  if oper.isAllocStack ∧ oper.size ≤ 8 then some ⟨.rsp, oper.allocData.toNat⟩ else none

/-- A constant of its own width, or a register that has been allocated. -/
def Placed (oper : IROperand) : Prop :=
  oper.isConstant = true ∧ oper.allocMode = .notAllocated ∧
      oper.value.toNat < 2 ^ bits oper.size ∨
    oper.isVreg = true ∧ oper.isAllocReg = true ∧
      oper.allocData.toNat < allocableRegisters.length ∨
    oper.isVreg = true ∧ oper.isAllocStack = true ∧ oper.size ≤ 8

/-- The value of an operand in its place. -/
def operandWord (m : Machine) (oper : IROperand) : Word :=
  { size := oper.size
    value :=
      if oper.isConstant then oper.value.toNat % 2 ^ bits oper.size
      else
        match registerFromOperand oper, stackFromOperand oper with
        | some r, _ => m.read r oper.size
        | none, some a => load m.mem (m.address a) oper.size
        | none, none => 0 }

theorem isConstant_of_isVreg {oper : IROperand} (h : oper.isVreg = true) : oper.isConstant = false := by
  simp_all [IROperand.isVreg, IROperand.isConstant]

theorem isAllocReg_of_isAllocStack {oper : IROperand} (h : oper.isAllocStack = true) : oper.isAllocReg = false := by
  simp_all [IROperand.isAllocStack, IROperand.isAllocReg]

theorem isAllocStack_of_isAllocReg {oper : IROperand} (h : oper.isAllocReg = true) : oper.isAllocStack = false := by
  simp_all [IROperand.isAllocStack, IROperand.isAllocReg]

theorem allocable_ne {index : Nat} {r : Gpr} (h : getAllocableRegister index = some r) :
    r ≠ .rdi ∧ r ≠ .rsi ∧ r ≠ .rdx ∧ r ≠ .rsp ∧ r ≠ .rbp ∧ r ≠ .r12 ∧ r ≠ .r15 := by
  have hMem : r ∈ allocableRegisters := List.mem_of_getElem? h
  revert hMem
  cases r <;> decide

theorem operandWord_constant {oper : IROperand} (h : oper.isConstant = true) (m : Machine) :
    operandWord m oper = ⟨oper.value.toNat % 2 ^ bits oper.size, oper.size⟩ := by
  simp [operandWord, h]

theorem operandWord_register {oper : IROperand} {r : Gpr} (h : oper.isVreg = true)
    (hReg : registerFromOperand oper = some r) (m : Machine) :
    operandWord m oper = ⟨m.read r oper.size, oper.size⟩ := by
  have hNot := isConstant_of_isVreg h
  simp [operandWord, hNot, hReg]

theorem operandWord_stack {oper : IROperand} (h : oper.isVreg = true)
    (hStack : oper.isAllocStack = true) (hSize : oper.size ≤ 8) (m : Machine) :
    stackFromOperand oper = some ⟨.rsp, oper.allocData.toNat⟩ ∧ operandWord m oper =
        ⟨load m.mem (m.address ⟨.rsp, oper.allocData.toNat⟩) oper.size, oper.size⟩ := by
  have hNot := isConstant_of_isVreg h
  have hReg := isAllocReg_of_isAllocStack hStack
  simp [operandWord, stackFromOperand, registerFromOperand, hNot, hReg, hStack, hSize]

theorem exists_register {oper : IROperand} (hReg : oper.isAllocReg = true)
    (hIndex : oper.allocData.toNat < allocableRegisters.length) : ∃ r, registerFromOperand oper = some r ∧
      getAllocableRegister oper.allocData.toNat = some r := by
  refine ⟨allocableRegisters[oper.allocData.toNat], ?_, ?_⟩
  · simp [registerFromOperand, hReg, getAllocableRegister, hIndex]
  · simp [getAllocableRegister, hIndex]

theorem operandWord_lt (m : Machine) (oper : IROperand) : (operandWord m oper).value < 2 ^ bits oper.size := by
  have hPos : 0 < 2 ^ bits oper.size := Nat.two_pow_pos _
  simp only [operandWord]
  split
  · exact Nat.mod_lt _ hPos
  · split
    · exact Nat.mod_lt _ hPos
    · rw [bits, two_pow_eq]
      exact load_lt _ _ _
    · exact hPos

/-! Places by themselves. -/

/-- The guest register file, which the register state pointer points to. -/
def registerFile (m : Machine) : Store := fun offset => m.mem (m.regs regstateReg + offset)

end Gensim.BlockJIT.X86
