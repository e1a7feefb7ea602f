import Gensim.BlockJIT.X86.LoweringContext

/-! The x86 lowering of the instructions that compute the guest's flags: the processor's own
flags are stored to the register file. -/
namespace Gensim.BlockJIT.X86

open ByteStore

section Lowering

variable {W : Type} (host : Host W)

/-- The code that puts the carry into the carry flag, and whether a plain addition or
subtraction will do.  Adding 255 to a byte carries exactly when the byte is not zero. -/
def loadCarry (carryIn : IROperand) : Option (List Insn × Bool) :=
  let tmp := getTemp 0
  if carryIn.isConstant then
    if carryIn.value = 0 then some ([], true) else some ([.stc], false)
  else if carryIn.isVreg then
    if carryIn.isAllocReg then
      (registerFromOperand carryIn).map fun r =>
        ([.mov 1 (.imm 0xff) tmp, .alu .add 1 (.reg r) tmp], false)
    else
      (stackFromOperand carryIn).map fun a =>
        ([.mov 1 (.imm 0xff) tmp, .alu .add 1 (.mem a) tmp], false)
  else none

def operandSource (oper : IROperand) : Option Source :=
  if oper.isConstant then some (.imm oper.value.toNat)
  else if oper.isVreg then
    if oper.isAllocReg then (registerFromOperand oper).map .reg
    else if oper.isAllocStack then (stackFromOperand oper).map .mem
    else none
  else none

/-- `LowerAdcFlags` and `LowerSbcFlags` differ in the arithmetic only. -/
def lowerCarryFlags (plain withCarry : AluOp) : List IROperand → Option (List Insn)
  | lhs :: rhs :: carryIn :: _ => do
      let tmp := getTemp 0
      let (setUp, justDoAnAdd) ← loadCarry carryIn
      let l ← operandSource lhs
      let r ← operandSource rhs
      return setUp ++
        [.mov 4 l tmp, .alu (if justDoAnAdd then plain else withCarry) 4 r tmp,
          .setcc .b ⟨regstateReg, host.cOffset⟩, .setcc .o ⟨regstateReg, host.vOffset⟩,
          .setcc .z ⟨regstateReg, host.zOffset⟩, .setcc .s ⟨regstateReg, host.nOffset⟩]
  | _ => none

def lowerAdcFlags : List IROperand → Option (List Insn) := lowerCarryFlags host .add .adc
def lowerSbcFlags : List IROperand → Option (List Insn) := lowerCarryFlags host .sub .sbb

/-- A value in a stack slot fails an assertion.  The sign of a constant is that of its 64-bit
representation. -/
def lowerZnFlags : List IROperand → Option (List Insn)
  | value :: _ =>
      let flags (n z : Nat) : List Insn :=
        [.store 1 (.imm n) ⟨regstateReg, host.nOffset⟩, .store 1 (.imm z) ⟨regstateReg, host.zOffset⟩]
      if value.isAllocReg then
        (registerFromOperand value).map fun r =>
          [.test value.size r r, .setcc .z ⟨regstateReg, host.zOffset⟩,
            .setcc .s ⟨regstateReg, host.nOffset⟩]
      else if value.isAllocStack then none
      else if value.isConstant then
        if value.value = 0 then some (flags 0 1)
        else if value.value.toInt < 0 then some (flags 1 0)
        else some (flags 0 0)
      else none
  | _ => none

/-- The three instructions that write flags. -/
def lowerFlags : IRInstructionType → List IROperand → Option (List Insn)
  | .adcWithFlags, operands => lowerAdcFlags host operands
  | .sbcWithFlags, operands => lowerSbcFlags host operands
  | .setZnFlags, operands => lowerZnFlags host operands
  | _, _ => none

end Lowering

/-! Storing the flags. -/

section Stores

variable {W : Type} {host : Host W}

/-- The flags lie in the register file, and that in the address space. -/
def Addressable (host : Host W) (m : Machine) : Prop :=
  ∀ offset ∈ [host.cOffset, host.vOffset, host.zOffset, host.nOffset],
    m.regs regstateReg + offset < 2 ^ 64

theorem registerFile_storeAt {m : Machine} {offset : Nat}
    (hRange : m.regs regstateReg + offset < 2 ^ 64) (value : Nat) :
    registerFile (m.storeAt ⟨regstateReg, offset⟩ 1 value) = store (registerFile m) offset 1 value := by
  funext address
  simp only [registerFile, Machine.storeAt, Machine.address, Nat.mod_eq_of_lt hRange, store]
  by_cases hHere : address = offset
  · subst hHere
    simp
  · rw [if_neg (by omega), if_neg (by omega)]

theorem registerFile_setcc {m : Machine} {offset : Nat}
    (hRange : m.regs regstateReg + offset < 2 ^ 64) (condition : Condition) :
    registerFile (m.exec (.setcc condition ⟨regstateReg, offset⟩)) =
      setByte (registerFile m) offset (m.condition condition) :=
  registerFile_storeAt hRange _

/-- Storing the processor's four flags after an addition or subtraction. -/
theorem registerFile_setccs {m : Machine} (hFile : Addressable host m) (unsigned signed : Int) :
    registerFile (((m.setArithmetic 4 unsigned signed).run
      [.setcc .b ⟨regstateReg, host.cOffset⟩, .setcc .o ⟨regstateReg, host.vOffset⟩,
        .setcc .z ⟨regstateReg, host.zOffset⟩, .setcc .s ⟨regstateReg, host.nOffset⟩])) =
      setCVZN host (registerFile m) unsigned signed := by
  simp only [Addressable, List.mem_cons, List.not_mem_nil, or_false, forall_eq_or_imp, forall_eq] at hFile
  obtain ⟨hC, hV, hZ, hN⟩ := hFile
  simp only [Machine.run_cons, Machine.run_nil]
  rw [registerFile_setcc, registerFile_setcc, registerFile_setcc, registerFile_setcc]
  · rfl
  · exact hC
  · exact hV
  · exact hZ
  · exact hN

end Stores

/-! Running the lowered code. -/

/-- The code so far has only used the temporary. -/
structure SameButTemp (m m' : Machine) : Prop where
  mem : m'.mem = m.mem
  regs : ∀ r, r ≠ getTemp 0 → m'.regs r = m.regs r

variable {m m' : Machine}

section

variable (h : SameButTemp m m')
include h

theorem SameButTemp.write (size value : Nat) :
    SameButTemp m (m'.write (getTemp 0) size value) where
  mem := h.mem
  regs r hr := (Function.update_of_ne hr _ _).trans (h.regs r hr)

theorem SameButTemp.alu (op : AluOp) (size : Nat) (src : Source) :
    SameButTemp m (m'.alu op size src (getTemp 0)) where
  mem := h.mem
  regs r hr := (Function.update_of_ne hr _ _).trans (h.regs r hr)

theorem SameButTemp.registerFile_eq : registerFile m' = registerFile m := by
  funext offset
  rw [registerFile, registerFile, h.mem, h.regs regstateReg (by decide)]

theorem SameButTemp.read_eq {index : Nat} {r : Gpr} (hr : getAllocableRegister index = some r) (size : Nat) :
    m'.read r size = m.read r size := by
  rw [Machine.read, Machine.read, h.regs r (allocable_ne hr).1]

theorem SameButTemp.stack_eq (displacement size : Nat) :
    load m'.mem (m'.address ⟨.rsp, displacement⟩) size = load m.mem (m.address ⟨.rsp, displacement⟩) size := by
  rw [h.mem, Machine.address, Machine.address, h.regs .rsp (by decide)]

end

theorem operandSource_spec {oper : IROperand} (hPlaced : Placed oper) (hSize : oper.size = 4) :
    ∃ src, operandSource oper = some src ∧ ∀ m m', SameButTemp m m' → m'.source 4 src = (operandWord m oper).value := by
  rcases hPlaced with ⟨hConst, -, -⟩ | ⟨hVreg, hReg, hIndex⟩ | ⟨hVreg, hStack, hWidth⟩
  · refine ⟨.imm oper.value.toNat, by simp [operandSource, hConst], fun m m' _ => ?_⟩
    rw [operandWord_constant hConst, hSize]
    rfl
  · obtain ⟨r, hr, hIndexed⟩ := exists_register hReg hIndex
    have hNot := isConstant_of_isVreg hVreg
    refine ⟨.reg r, by simp [operandSource, hNot, hVreg, hReg, hr], fun m m' hSame => ?_⟩
    rw [operandWord_register hVreg hr, hSize]
    exact hSame.read_eq hIndexed 4
  · have hNot := isConstant_of_isVreg hVreg
    have hNotReg := isAllocReg_of_isAllocStack hStack
    refine ⟨.mem ⟨.rsp, oper.allocData.toNat⟩, ?_, fun m m' hSame => ?_⟩
    · simp [operandSource, hNot, hVreg, hNotReg, hStack, stackFromOperand, hWidth]
    · rw [(operandWord_stack hVreg hStack hWidth m).2, hSize]
      exact hSame.stack_eq _ 4

/-- Adding a byte that is 0 or 1 to 255 carries when it is 1. -/
theorem carry_after_add {m : Machine} {src : Source} {value : Nat}
    (hSource : (m.write (getTemp 0) 1 0xff).source 1 src = value) (hBit : value ≤ 1) :
    (m.run [.mov 1 (.imm 0xff) (getTemp 0), .alu .add 1 src (getTemp 0)]).carry = decide (value ≠ 0) := by
  have hTemp : (m.write (getTemp 0) 1 0xff).read (getTemp 0) 1 = 255 := by
    rw [Machine.read_write_self]
    rfl
  have hImm : m.source 1 (.imm 0xff) = 0xff := rfl
  simp only [Machine.run_cons, Machine.run_nil, Machine.exec, hImm, Machine.alu, hTemp, hSource,
    Machine.setArithmetic, Machine.setResult, bits]
  rcases Nat.le_one_iff_eq_zero_or_eq_one.mp hBit with rfl | rfl <;> decide

theorem loadCarry_spec {carryIn : IROperand} (hPlaced : Placed carryIn) (hSize : 1 ≤ carryIn.size)
    {m : Machine} (hBit : (operandWord m carryIn).value ≤ 1) :
    ∃ code justDoAnAdd, loadCarry carryIn = some (code, justDoAnAdd) ∧ SameButTemp m (m.run code) ∧
      (justDoAnAdd = true → (operandWord m carryIn).value = 0) ∧
      (justDoAnAdd = false → (m.run code).carry = decide ((operandWord m carryIn).value ≠ 0)) := by
  have hRefl : SameButTemp m m := ⟨rfl, fun _ _ => rfl⟩
  have hByte : ∀ src, SameButTemp m (m.run [.mov 1 (.imm 0xff) (getTemp 0), .alu .add 1 src (getTemp 0)]) :=
    fun src => (hRefl.write 1 _).alu .add 1 src
  rcases hPlaced with ⟨hConst, -, hValue⟩ | ⟨hVreg, hReg, hIndex⟩ | ⟨hVreg, hStack, hWidth⟩
  · rw [operandWord_constant hConst, Nat.mod_eq_of_lt hValue] at hBit ⊢
    by_cases hZero : carryIn.value = 0
    · refine ⟨[], true, by simp [loadCarry, hConst, hZero], hRefl, fun _ => by simp [hZero], ?_⟩
      intro h
      cases h
    · have hNat : carryIn.value.toNat ≠ 0 := fun h => hZero (BitVec.eq_of_toNat_eq h)
      refine ⟨[.stc], false, ?_, ⟨rfl, fun _ _ => rfl⟩, ?_, ?_⟩
      · rw [loadCarry, if_pos hConst, if_neg hZero]
      · intro h
        cases h
      · intro _
        simp [Machine.exec, hNat]
  · obtain ⟨r, hr, hIndexed⟩ := exists_register hReg hIndex
    have hNot := isConstant_of_isVreg hVreg
    rw [operandWord_register hVreg hr] at hBit ⊢
    refine ⟨_, false, by simp only [loadCarry, hNot, hVreg, hReg, hr]; rfl, hByte _, ?_, ?_⟩
    · intro h
      cases h
    · intro _
      refine carry_after_add ?_ hBit
      have hLow := Nat.mod_mod_of_dvd (m.regs r) (Nat.pow_dvd_pow 2 (Nat.mul_le_mul_left 8 hSize))
      dsimp only at hBit ⊢
      rw [Machine.source, (hRefl.write 1 0xff).read_eq hIndexed, Machine.read, bits, ← hLow]
      exact Nat.mod_eq_of_lt (lt_of_le_of_lt hBit (by decide))
  · have hNot := isConstant_of_isVreg hVreg
    have hNotReg := isAllocReg_of_isAllocStack hStack
    obtain ⟨hAddress, hWord⟩ := operandWord_stack hVreg hStack hWidth m
    rw [hWord] at hBit ⊢
    refine ⟨_, false, by simp only [loadCarry, hNot, hVreg, hNotReg, hAddress]; rfl, hByte _, ?_, ?_⟩
    · intro h
      cases h
    · intro _
      refine carry_after_add ?_ hBit
      obtain ⟨width, hWidthEq⟩ := Nat.exists_eq_add_of_le' hSize
      dsimp only at hBit ⊢
      rw [Machine.source, (hRefl.write 1 0xff).stack_eq]
      rw [hWidthEq] at hBit ⊢
      simp only [load] at hBit ⊢
      omega

section Carry

variable {W : Type} {host : Host W}

/-- `f` is what the two operations compute, the first one without a carry. -/
structure Arithmetic (plain withCarry : AluOp) (f : Int → Int → Int → Int) : Prop where
  plain_eq : ∀ (m : Machine) (src : Source) (dst : Gpr),
    m.alu plain 4 src dst =
      (m.write dst 4 (ofSigned 4 (f (m.read dst 4) (m.source 4 src) 0))).setArithmetic 4
        (f (m.read dst 4) (m.source 4 src) 0)
        (f (toSigned ⟨m.read dst 4, 4⟩) (toSigned ⟨m.source 4 src, 4⟩) 0)
  carry_eq : ∀ (m : Machine) (src : Source) (dst : Gpr),
    m.alu withCarry 4 src dst =
      (m.write dst 4 (ofSigned 4 (f (m.read dst 4) (m.source 4 src) (ofBool m.carry)))).setArithmetic
        4 (f (m.read dst 4) (m.source 4 src) (ofBool m.carry))
        (f (toSigned ⟨m.read dst 4, 4⟩) (toSigned ⟨m.source 4 src, 4⟩) (ofBool m.carry))

theorem arithmetic_add : Arithmetic .add .adc fun a b c => a + b + c where
  plain_eq m src dst := by simp [Machine.alu]
  carry_eq m src dst := by simp [Machine.alu]

theorem arithmetic_sub : Arithmetic .sub .sbb fun a b c => a - b - c where
  plain_eq m src dst := by simp [Machine.alu]
  carry_eq m src dst := by simp [Machine.alu]

theorem Addressable.of_same {m m' : Machine} (h : Addressable host m) (hSame : SameButTemp m m') :
    Addressable host m' := by
  intro offset hMem
  rw [hSame.regs regstateReg (by decide)]
  exact h offset hMem

/-- The code returns and stores the flags of `f`. -/
theorem run_lowerCarryFlags {plain withCarry : AluOp} {f : Int → Int → Int → Int}
    (hArith : Arithmetic plain withCarry f) {m : Machine} (hFile : Addressable host m)
    {lhs rhs carryIn : IROperand} (hLhs : Placed lhs) (hRhs : Placed rhs) (hCarry : Placed carryIn)
    (hLhsSize : lhs.size = 4) (hRhsSize : rhs.size = 4) (hCarrySize : 1 ≤ carryIn.size)
    (hBit : (operandWord m carryIn).value ≤ 1) :
    ∃ code, lowerCarryFlags host plain withCarry [lhs, rhs, carryIn] = some code ∧
      registerFile (m.run code) = setCVZN host (registerFile m)
        (f (operandWord m lhs).value (operandWord m rhs).value (operandWord m carryIn).value)
        (f (toSigned (operandWord m lhs)) (toSigned (operandWord m rhs)) (operandWord m carryIn).value) := by
  obtain ⟨setUp, justDoAnAdd, hLoad, hSetUp, hPlain, hFlag⟩ := loadCarry_spec hCarry hCarrySize hBit
  obtain ⟨l, hl, hLeft⟩ := operandSource_spec hLhs hLhsSize
  obtain ⟨r, hr, hRight⟩ := operandSource_spec hRhs hRhsSize
  refine ⟨_, by simp only [lowerCarryFlags, hLoad, hl, hr]; rfl, ?_⟩
  -- the left operand is in the temporary, and moving it there leaves the carry flag
  set m₁ := m.run setUp
  set m₂ := m₁.write (getTemp 0) 4 (m₁.source 4 l) with hm₂
  have hSame : SameButTemp m m₂ := hSetUp.write 4 _
  have hTemp : m₂.read (getTemp 0) 4 = (operandWord m lhs).value := by
    have hLt := operandWord_lt m lhs
    rw [hLhsSize] at hLt
    rw [hm₂, Machine.read_write_self, hLeft m m₁ hSetUp, Nat.mod_eq_of_lt hLt]
  have hSource : m₂.source 4 r = (operandWord m rhs).value := hRight m m₂ hSame
  have hLhsWord : (⟨(operandWord m lhs).value, 4⟩ : Word) = operandWord m lhs := by simp [operandWord, hLhsSize]
  have hRhsWord : (⟨(operandWord m rhs).value, 4⟩ : Word) = operandWord m rhs := by simp [operandWord, hRhsSize]
  have hAlu : ∃ value, m₂.alu (if justDoAnAdd then plain else withCarry) 4 r (getTemp 0) =
      (m₂.write (getTemp 0) 4 value).setArithmetic 4
        (f (operandWord m lhs).value (operandWord m rhs).value (operandWord m carryIn).value)
        (f (toSigned (operandWord m lhs)) (toSigned (operandWord m rhs)) (operandWord m carryIn).value) := by
    cases justDoAnAdd with
    | true =>
      rw [if_pos rfl, hArith.plain_eq, hTemp, hSource, hLhsWord, hRhsWord, hPlain rfl]
      exact ⟨_, rfl⟩
    | false =>
      have hBool : (ofBool m₂.carry : Int) = (operandWord m carryIn).value := by
        rw [show m₂.carry = m₁.carry from rfl, hFlag rfl]
        rcases Nat.le_one_iff_eq_zero_or_eq_one.mp hBit with h | h <;> rw [h] <;> rfl
      rw [if_neg (by decide), hArith.carry_eq, hTemp, hSource, hLhsWord, hRhsWord, hBool]
      exact ⟨_, rfl⟩
  obtain ⟨value, hAlu⟩ := hAlu
  rw [Machine.run_append, Machine.run_cons, Machine.run_cons]
  simp only [Machine.exec]
  rw [hAlu, registerFile_setccs (hFile.of_same (hSame.write 4 value)), (hSame.write 4 value).registerFile_eq]

variable {value : IROperand}

theorem run_lowerZnFlags_register {m : Machine} (hFile : Addressable host m) (hVreg : value.isVreg = true)
    (hReg : value.isAllocReg = true) (hIndex : value.allocData.toNat < allocableRegisters.length) :
    ∃ code, lowerZnFlags host [value] = some code ∧
      registerFile (m.run code) = setZN host (registerFile m) (operandWord m value) := by
  obtain ⟨r, hr, -⟩ := exists_register hReg hIndex
  simp only [Addressable, List.mem_cons, List.not_mem_nil, or_false, forall_eq_or_imp, forall_eq] at hFile
  obtain ⟨-, -, hZ, hN⟩ := hFile
  refine ⟨_, by simp only [lowerZnFlags, hReg, hr]; rfl, ?_⟩
  simp only [Machine.run_cons, Machine.run_nil]
  rw [registerFile_setcc, registerFile_setcc, operandWord_register hVreg hr]
  · simp only [Machine.exec, Machine.condition, Machine.setResult, Machine.storeAt, Nat.and_self]
    rfl
  · exact hZ
  · exact hN

/-- The sign of a 32-bit constant is lost. -/
theorem run_lowerZnFlags_constant {m : Machine} (hFile : Addressable host m) (hConst : value.isConstant = true)
    (hMode : value.allocMode = .notAllocated) (hValue : value.value.toNat < 2 ^ 32) :
    ∃ code, lowerZnFlags host [value] = some code ∧
      registerFile (m.run code) = setByte (setByte (registerFile m) host.nOffset false)
        host.zOffset (value.value.toNat = 0) := by
  simp only [Addressable, List.mem_cons, List.not_mem_nil, or_false, forall_eq_or_imp, forall_eq] at hFile
  obtain ⟨-, -, hZ, hN⟩ := hFile
  have hNotReg : value.isAllocReg = false := by simp [IROperand.isAllocReg, hMode]
  have hNotStack : value.isAllocStack = false := by simp [IROperand.isAllocStack, hMode]
  have hSign : ¬ value.value.toInt < 0 := by
    rw [BitVec.toInt_eq_toNat_cond]
    split <;> omega
  have hStores : ∀ n z : Nat, registerFile (m.run
      [.store 1 (.imm n) ⟨regstateReg, host.nOffset⟩, .store 1 (.imm z) ⟨regstateReg, host.zOffset⟩]) =
      store (store (registerFile m) host.nOffset 1 (n % 2 ^ bits 1)) host.zOffset 1 (z % 2 ^ bits 1) := by
    intro n z
    simp only [Machine.run_cons, Machine.run_nil, Machine.exec]
    rw [registerFile_storeAt, registerFile_storeAt]
    · rfl
    · exact hN
    · exact hZ
  by_cases hZero : value.value = 0
  · refine ⟨_, by simp only [lowerZnFlags, hNotReg, hNotStack, hConst, hZero]; rfl, ?_⟩
    rw [hStores, hZero]
    rfl
  · have hNat : value.value.toNat ≠ 0 := fun h => hZero (BitVec.eq_of_toNat_eq h)
    refine ⟨_, by simp only [lowerZnFlags, hNotReg, hNotStack, hConst, if_neg hZero, if_neg hSign]; rfl, ?_⟩
    rw [hStores, decide_eq_false hNat]
    rfl

theorem lowerZnFlags_stack (hStack : value.isAllocStack = true) : lowerZnFlags host [value] = none := by
  have hNotReg := isAllocReg_of_isAllocStack hStack
  simp [lowerZnFlags, hNotReg, hStack]

end Carry

end Gensim.BlockJIT.X86
