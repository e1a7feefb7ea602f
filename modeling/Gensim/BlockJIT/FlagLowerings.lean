import Gensim.BlockJIT.LLVM.LoweringFlags
import Gensim.BlockJIT.X86.LowerFlags

/-! The two back ends compared on the instructions that compute the guest's flags. -/
namespace Gensim.BlockJIT

open ByteStore X86

variable {W : Type} {host : Host W}

def Host.FlagsDistinct (host : Host W) : Prop :=
  [host.cOffset, host.vOffset, host.zOffset, host.nOffset].Nodup

/-- 32-bit operands in any place, and a carry of 0 or 1. -/
inductive FlagInstruction (m : Machine) : IRInstructionType → List IROperand → Prop
  | adc {lhs rhs carryIn : IROperand} (hLhs : Placed lhs) (hRhs : Placed rhs)
      (hCarry : Placed carryIn) (hLhsSize : lhs.size = 4) (hRhsSize : rhs.size = 4)
      (hCarrySize : 1 ≤ carryIn.size) (hBit : (operandWord m carryIn).value ≤ 1) :
      FlagInstruction m .adcWithFlags [lhs, rhs, carryIn]
  | sbc {lhs rhs carryIn : IROperand} (hLhs : Placed lhs) (hRhs : Placed rhs)
      (hCarry : Placed carryIn) (hLhsSize : lhs.size = 4) (hRhsSize : rhs.size = 4)
      (hCarrySize : 1 ≤ carryIn.size) (hBit : (operandWord m carryIn).value ≤ 1) :
      FlagInstruction m .sbcWithFlags [lhs, rhs, carryIn]
  | zn {value : IROperand} (hValue : Placed value) (hSize : value.size = 4) :
      FlagInstruction m .setZnFlags [value]

/-- Both back ends write the flags that the instruction defines, and nothing else of the
register file. -/
def FlagsAgree (host : Host W) (m : Machine) (type : IRInstructionType)
    (operands : List IROperand) : Prop :=
  ∃ code, X86.lowerFlags host type operands = some code ∧
    registerFile (m.run code) =
      LLVM.lowerFlags host (registerFile m) type (operands.map (operandWord m)) ∧
    registerFile (m.run code) =
      setFlags host (registerFile m) type (operands.map (operandWord m))

/-- When that is so: a subtraction must not change the sign of its left operand, and the
operand of `SET_ZN_FLAGS` must not be in a stack slot nor a negative constant. -/
def FlagsRight (m : Machine) : IRInstructionType → List IROperand → Prop
  | .sbcWithFlags, [lhs, rhs, carryIn] =>
      let a := (operandWord m lhs).value
      let b := (operandWord m rhs).value + (operandWord m carryIn).value
      if a < 2 ^ 31 then b ≤ a ∨ a + 2 ^ 31 < b else b + 2 ^ 31 ≤ a ∨ a < b
  | .setZnFlags, [value] =>
      value.isAllocStack = false ∧ (value.isConstant = true → value.value.toNat < 2 ^ 31)
  | _, _ => True

section Bytes

theorem setByte_comm (regs : Store) {a b : Nat} (hNe : a ≠ b) (x y : Bool) :
    setByte (setByte regs a x) b y = setByte (setByte regs b y) a x :=
  store_comm (by omega)

theorem setByte_apply_self (regs : Store) (a : Nat) (x : Bool) : setByte regs a x a = BitVec.ofNat 8 (ofBool x) := by
  simp [setByte, store]

theorem setByte_apply_of_ne (regs : Store) {a b : Nat} (hNe : b ≠ a) (x : Bool) : setByte regs a x b = regs b := by
  simp only [setByte, store]
  rw [if_neg (by omega)]

/-- The flags in the order C, V, Z, N. -/
def withFlags (host : Host W) (regs : Store) (c v z n : Bool) : Store :=
  setByte (setByte (setByte (setByte regs host.cOffset c) host.vOffset v) host.zOffset z)
    host.nOffset n

theorem withFlags_eq_cnvz (hOffsets : host.FlagsDistinct) (regs : Store) (c v z n : Bool) :
    setByte (setByte (setByte (setByte regs host.cOffset c) host.nOffset n) host.vOffset v)
      host.zOffset z = withFlags host regs c v z n := by
  simp only [Host.FlagsDistinct, List.nodup_cons, List.mem_cons, List.not_mem_nil, or_false, not_or] at hOffsets
  obtain ⟨-, ⟨-, hVN⟩, hZN, -⟩ := hOffsets
  rw [withFlags, setByte_comm _ (Ne.symm hVN), setByte_comm _ (Ne.symm hZN)]

theorem withFlags_overflow_inj (hOffsets : host.FlagsDistinct) {regs : Store} {c v v' z n : Bool}
    (h : withFlags host regs c v z n = withFlags host regs c v' z n) : v = v' := by
  simp only [Host.FlagsDistinct, List.nodup_cons, List.mem_cons, List.not_mem_nil, or_false, not_or] at hOffsets
  obtain ⟨-, ⟨hVZ, hVN⟩, -⟩ := hOffsets
  have hByte := congrFun h host.vOffset
  simp only [withFlags, setByte_apply_of_ne _ hVN, setByte_apply_of_ne _ hVZ, setByte_apply_self] at hByte
  revert hByte
  cases v <;> cases v' <;> decide

theorem setCVZN_eq (regs : Store) (unsigned signed : Int) : setCVZN host regs unsigned signed =
      withFlags host regs (unsigned < 0 ∨ 2 ^ 32 ≤ unsigned)
        (signed ≠ toSigned ⟨ofSigned 4 unsigned, 4⟩) (ofSigned 4 unsigned = 0) (2 ^ 31 ≤ ofSigned 4 unsigned) := rfl

end Bytes

/-! The numbers behind the flags. -/

section Numbers

variable {l r c : Nat}

theorem toSigned_four (value : Nat) :
    toSigned ⟨value, 4⟩ = if value < 2 ^ 31 then (value : Int) else value - 2 ^ 32 := rfl

theorem adc_overflow_iff (hl : l < 2 ^ 32) (hr : r < 2 ^ 32) (hc : c ≤ 1) :
    ((2 ^ 31 ≤ l ↔ 2 ^ 31 ≤ r) ∧ ¬ (2 ^ 31 ≤ l ↔ 2 ^ 31 ≤ (l + r + c) % 2 ^ 32)) ↔
      toSigned ⟨l, 4⟩ + toSigned ⟨r, 4⟩ + c ≠ toSigned ⟨(l + r + c) % 2 ^ 32, 4⟩ := by
  simp only [toSigned_four]
  split <;> split <;> split <;> omega

/-- The 64-bit difference: all ones above bit 31 after a borrow. -/
theorem sbc_result (hl : l < 2 ^ 32) (hr : r < 2 ^ 32) (hc : c ≤ 1) :
    (BitVec.ofNat 64 l - BitVec.ofNat 64 r - BitVec.ofNat 64 c).toNat =
      if r + c ≤ l then l - r - c else 2 ^ 64 + l - r - c := by
  simp only [BitVec.toNat_sub, BitVec.toNat_ofNat]
  split <;> omega

theorem ofSigned_sub (hl : l < 2 ^ 32) (hr : r < 2 ^ 32) (hc : c ≤ 1) :
    ofSigned 4 ((l : Int) - r - c) = if r + c ≤ l then l - r - c else 2 ^ 32 + l - r - c := by
  have hBits : (2 : Int) ^ bits 4 = 2 ^ 32 := rfl
  rw [ofSigned, hBits]
  split <;> omega

end Numbers

/-! Each instruction. -/

section Instructions

variable {l r c size : Nat} {regs : Store}

theorem llvm_adcFlags (hOffsets : host.FlagsDistinct) (hl : l < 2 ^ 32) (hr : r < 2 ^ 32)
    (hc : c ≤ 1) (hSize : 1 ≤ size) : LLVM.adcFlags host regs ⟨l, 4⟩ ⟨r, 4⟩ ⟨c, size⟩ =
      setCVZN host regs (l + r + c) (toSigned ⟨l, 4⟩ + toSigned ⟨r, 4⟩ + c) := by
  have hSum : (BitVec.ofNat 64 l + BitVec.ofNat 64 r + BitVec.ofNat 64 c).toNat = l + r + c := by
    simp only [BitVec.toNat_add, BitVec.toNat_ofNat]
    omega
  have hTrunc : ofSigned 4 ((l : Int) + r + c) = (l + r + c) % 2 ^ 32 := by
    rw [show (l : Int) + r + c = ((l + r + c : Nat) : Int) by push_cast; rfl, ofSigned_natCast]
    rfl
  rw [LLVM.adcFlags, LLVM.carryFlags_eq host regs hl hr hc hSize hSum, withFlags_eq_cnvz hOffsets, setCVZN_eq, hTrunc]
  congr 1
  · exact decide_eq_decide.mpr (by omega)
  · exact decide_eq_decide.mpr (adc_overflow_iff hl hr hc)

/-- The subtraction differs from what it should store in the overflow flag at most. -/
theorem llvm_sbcFlags (hOffsets : host.FlagsDistinct) (hl : l < 2 ^ 32) (hr : r < 2 ^ 32)
    (hc : c ≤ 1) (hSize : 1 ≤ size) : LLVM.sbcFlags host regs ⟨l, 4⟩ ⟨r, 4⟩ ⟨c, size⟩ =
        setCVZN host regs (l - r - c) (toSigned ⟨l, 4⟩ - toSigned ⟨r, 4⟩ - c) ↔
      if l < 2 ^ 31 then r + c ≤ l ∨ l + 2 ^ 31 < r + c else r + c + 2 ^ 31 ≤ l ∨ l < r + c := by
  have hTrunc := ofSigned_sub hl hr hc
  set result := if r + c ≤ l then l - r - c else 2 ^ 64 + l - r - c with hResult
  have hLow : result % 2 ^ 32 = ofSigned 4 ((l : Int) - r - c) := by
    rw [hTrunc, hResult]
    split <;> omega
  have hBorrow : decide (2 ^ 32 ≤ result) = decide ((l : Int) - r - c < 0 ∨ 2 ^ 32 ≤ (l : Int) - r - c) := by
    apply decide_eq_decide.mpr
    rw [hResult]
    split <;> omega
  rw [LLVM.sbcFlags, LLVM.carryFlags_eq host regs hl hr hc hSize (sbc_result hl hr hc), ← hResult,
    withFlags_eq_cnvz hOffsets, setCVZN_eq, hLow, hBorrow]
  -- the two overflow flags agree exactly when the sign of the left operand is kept
  have hFlag : ((2 ^ 31 ≤ l ↔ 2 ^ 31 ≤ r) ∧ ¬ (2 ^ 31 ≤ l ↔ 2 ^ 31 ≤ ofSigned 4 ((l : Int) - r - c)) ↔
      toSigned ⟨l, 4⟩ - toSigned ⟨r, 4⟩ - c ≠ toSigned ⟨ofSigned 4 ((l : Int) - r - c), 4⟩) ↔
      if l < 2 ^ 31 then r + c ≤ l ∨ l + 2 ^ 31 < r + c else r + c + 2 ^ 31 ≤ l ∨ l < r + c := by
    simp only [toSigned_four, hTrunc]
    split <;> split <;> split <;> split <;> omega
  rw [← hFlag]
  constructor
  · intro hEq
    exact decide_eq_decide.mp (withFlags_overflow_inj hOffsets hEq)
  · intro hIff
    rw [decide_eq_decide.mpr hIff]

theorem llvm_znFlags {value : Nat} (hValue : value < 2 ^ 32) :
    LLVM.znFlags host regs ⟨value, 4⟩ = setZN host regs ⟨value, 4⟩ := by
  have hZero : (LLVM.getValueFor ⟨value, 4⟩ == 0) = decide (value = 0) := @LLVM.beq_zero 32 value hValue
  have hSign : (LLVM.getValueFor ⟨value, 4⟩).slt 0 = decide (2 ^ 31 ≤ value) := @LLVM.slt_zero 31 value hValue
  simp only [LLVM.znFlags, setZN, hZero, hSign]
  rfl

end Instructions

section Agreement

variable {m : Machine}

theorem operandWord_eq {oper : IROperand} (hSize : oper.size = 4) :
    operandWord m oper = ⟨(operandWord m oper).value, 4⟩ ∧ (operandWord m oper).value < 2 ^ 32 := by
  refine ⟨by rw [← hSize]; rfl, ?_⟩
  have hLt := operandWord_lt m oper
  rwa [hSize] at hLt

/-- The meaning of the two instructions on operands of these widths. -/
theorem setFlags_carry {regs : Store} {l r c size : Nat} (hl : l < 2 ^ 32) (hr : r < 2 ^ 32) (hc : c ≤ 1) :
    setFlags host regs .adcWithFlags [⟨l, 4⟩, ⟨r, 4⟩, ⟨c, size⟩] =
        setCVZN host regs (l + r + c) (toSigned ⟨l, 4⟩ + toSigned ⟨r, 4⟩ + c) ∧
      setFlags host regs .sbcWithFlags [⟨l, 4⟩, ⟨r, 4⟩, ⟨c, size⟩] =
        setCVZN host regs (l - r - c) (toSigned ⟨l, 4⟩ - toSigned ⟨r, 4⟩ - c) := by
  have hCarry : ofBool (decide (c % 256 ≠ 0)) = c := by
    rcases Nat.le_one_iff_eq_zero_or_eq_one.mp hc with rfl | rfl <;> rfl
  simp only [setFlags, Nat.mod_eq_of_lt hl, Nat.mod_eq_of_lt hr, hCarry, and_self]

/-- The x86 code for a subtraction is right, so that only the other back end decides. -/
theorem flagsAgree_iff_llvm {type : IRInstructionType} {operands : List IROperand} {code : List Insn}
    (hCode : X86.lowerFlags host type operands = some code) (hRun : registerFile (m.run code) =
      setFlags host (registerFile m) type (operands.map (operandWord m))) : FlagsAgree host m type operands ↔
      LLVM.lowerFlags host (registerFile m) type (operands.map (operandWord m)) =
        setFlags host (registerFile m) type (operands.map (operandWord m)) := by
  constructor
  · rintro ⟨code', -, hLlvm, hMeaning⟩
    exact hLlvm.symm.trans hMeaning
  · intro hSame
    exact ⟨code, hCode, hRun.trans hSame.symm, hRun⟩

section Carry

variable {lhs rhs carryIn : IROperand}

theorem flagsAgree_adc (hOffsets : host.FlagsDistinct) (hFile : Addressable host m)
    (hLhs : Placed lhs) (hRhs : Placed rhs) (hCarry : Placed carryIn)
    (hLhsSize : lhs.size = 4) (hRhsSize : rhs.size = 4) (hCarrySize : 1 ≤ carryIn.size)
    (hBit : (operandWord m carryIn).value ≤ 1) : FlagsAgree host m .adcWithFlags [lhs, rhs, carryIn] := by
  obtain ⟨hLeft, hl⟩ := operandWord_eq (m := m) hLhsSize
  obtain ⟨hRight, hr⟩ := operandWord_eq (m := m) hRhsSize
  obtain ⟨code, hCode, hRun⟩ := run_lowerCarryFlags arithmetic_add hFile hLhs hRhs hCarry hLhsSize
    hRhsSize hCarrySize hBit
  have hMeaning : registerFile (m.run code) = setFlags host (registerFile m) .adcWithFlags
      ([lhs, rhs, carryIn].map (operandWord m)) := by
    rw [hRun, List.map_cons, List.map_cons, List.map_cons, List.map_nil, hLeft, hRight]
    exact (setFlags_carry hl hr hBit).1.symm
  have hLower : X86.lowerFlags host .adcWithFlags [lhs, rhs, carryIn] = some code := hCode
  apply (flagsAgree_iff_llvm hLower hMeaning).mpr
  rw [List.map_cons, List.map_cons, List.map_cons, List.map_nil, hLeft, hRight]
  exact (llvm_adcFlags hOffsets hl hr hBit hCarrySize).trans (setFlags_carry hl hr hBit).1.symm

theorem flagsAgree_sbc_iff (hOffsets : host.FlagsDistinct) (hFile : Addressable host m)
    (hLhs : Placed lhs) (hRhs : Placed rhs) (hCarry : Placed carryIn)
    (hLhsSize : lhs.size = 4) (hRhsSize : rhs.size = 4) (hCarrySize : 1 ≤ carryIn.size)
    (hBit : (operandWord m carryIn).value ≤ 1) : FlagsAgree host m .sbcWithFlags [lhs, rhs, carryIn] ↔
      FlagsRight m .sbcWithFlags [lhs, rhs, carryIn] := by
  obtain ⟨hLeft, hl⟩ := operandWord_eq (m := m) hLhsSize
  obtain ⟨hRight, hr⟩ := operandWord_eq (m := m) hRhsSize
  obtain ⟨code, hCode, hRun⟩ := run_lowerCarryFlags arithmetic_sub hFile hLhs hRhs hCarry hLhsSize
    hRhsSize hCarrySize hBit
  have hMeaning : registerFile (m.run code) = setFlags host (registerFile m) .sbcWithFlags
      ([lhs, rhs, carryIn].map (operandWord m)) := by
    rw [hRun, List.map_cons, List.map_cons, List.map_cons, List.map_nil, hLeft, hRight]
    exact (setFlags_carry hl hr hBit).2.symm
  have hLower : X86.lowerFlags host .sbcWithFlags [lhs, rhs, carryIn] = some code := hCode
  rw [flagsAgree_iff_llvm hLower hMeaning, List.map_cons, List.map_cons, List.map_cons, List.map_nil, hLeft, hRight]
  have hSpec : setFlags host (registerFile m) .sbcWithFlags
      [⟨(operandWord m lhs).value, 4⟩, ⟨(operandWord m rhs).value, 4⟩, operandWord m carryIn] = _ :=
    (setFlags_carry hl hr hBit).2
  rw [hSpec]
  exact llvm_sbcFlags hOffsets hl hr hBit hCarrySize

end Carry

theorem flagsAgree_zn_iff (hOffsets : host.FlagsDistinct) (hFile : Addressable host m)
    {value : IROperand} (hPlaced : Placed value) (hSize : value.size = 4) :
    FlagsAgree host m .setZnFlags [value] ↔ FlagsRight m .setZnFlags [value] := by
  obtain ⟨hWord, hLt⟩ := operandWord_eq (m := m) hSize
  have hLlvm : LLVM.lowerFlags host (registerFile m) .setZnFlags ([value].map (operandWord m)) =
      setFlags host (registerFile m) .setZnFlags ([value].map (operandWord m)) := by
    rw [List.map_cons, List.map_nil, hWord]
    exact llvm_znFlags hLt
  rcases hPlaced with ⟨hConst, hMode, hValue⟩ | ⟨hVreg, hReg, hIndex⟩ | ⟨hVreg, hStack, hWidth⟩
  · rw [hSize] at hValue
    obtain ⟨code, hCode, hRun⟩ := run_lowerZnFlags_constant hFile hConst hMode hValue
    have hLower : X86.lowerFlags host .setZnFlags [value] = some code := hCode
    have hMeaning : setFlags host (registerFile m) .setZnFlags ([value].map (operandWord m)) =
        setByte (setByte (registerFile m) host.zOffset (value.value.toNat = 0)) host.nOffset
          (2 ^ 31 ≤ value.value.toNat) := by
      rw [List.map_cons, List.map_nil, operandWord_constant hConst, hSize, Nat.mod_eq_of_lt hValue]
      rfl
    simp only [Host.FlagsDistinct, List.nodup_cons, List.mem_cons, List.not_mem_nil, or_false, not_or] at hOffsets
    obtain ⟨-, -, hZN, -⟩ := hOffsets
    rw [setByte_comm _ (Ne.symm hZN)] at hRun
    constructor
    · rintro ⟨code', hCode', -, hSame⟩
      obtain rfl : code = code' := Option.some.inj (hLower.symm.trans hCode')
      refine ⟨by simp [IROperand.isAllocStack, hMode], fun _ => ?_⟩
      have hByte := congrFun (hRun.symm.trans (hSame.trans hMeaning)) host.nOffset
      rw [setByte_apply_self, setByte_apply_self] at hByte
      by_contra hBig
      rw [decide_eq_true (by omega)] at hByte
      exact absurd hByte (by decide)
    · rintro ⟨-, hSmall⟩
      have hEq : registerFile (m.run code) =
          setFlags host (registerFile m) .setZnFlags ([value].map (operandWord m)) := by
        rw [hRun, hMeaning, decide_eq_false (Nat.not_le.mpr (hSmall hConst))]
      exact (flagsAgree_iff_llvm hLower hEq).mpr hLlvm
  · obtain ⟨code, hCode, hRun⟩ := run_lowerZnFlags_register hFile hVreg hReg hIndex
    have hNotStack := isAllocStack_of_isAllocReg hReg
    have hNotConst := isConstant_of_isVreg hVreg
    have hLower : X86.lowerFlags host .setZnFlags [value] = some code := hCode
    have hAgree : FlagsAgree host m .setZnFlags [value] := (flagsAgree_iff_llvm hLower hRun).mpr hLlvm
    simp [hAgree, FlagsRight, hNotStack, hNotConst]
  · constructor
    · rintro ⟨code, hCode, -⟩
      have hNone : X86.lowerFlags host .setZnFlags [value] = none := lowerZnFlags_stack hStack
      rw [hNone] at hCode
      cases hCode
    · rintro ⟨hNotStack, -⟩
      rw [hStack] at hNotStack
      cases hNotStack

end Agreement

/-- Both back ends write the right flags exactly when the operands satisfy `FlagsRight`. -/
theorem flagsAgree_iff {m : Machine} (hOffsets : host.FlagsDistinct) (hFile : Addressable host m)
    {type : IRInstructionType} {operands : List IROperand}
    (hInsn : FlagInstruction m type operands) :
    FlagsAgree host m type operands ↔ FlagsRight m type operands := by
  cases hInsn with
  | adc hLhs hRhs hCarry hLhsSize hRhsSize hCarrySize hBit =>
      exact iff_of_true
        (flagsAgree_adc hOffsets hFile hLhs hRhs hCarry hLhsSize hRhsSize hCarrySize hBit) trivial
  | sbc hLhs hRhs hCarry hLhsSize hRhsSize hCarrySize hBit =>
      exact flagsAgree_sbc_iff hOffsets hFile hLhs hRhs hCarry hLhsSize hRhsSize hCarrySize hBit
  | zn hValue hSize => exact flagsAgree_zn_iff hOffsets hFile hValue hSize

/-! Concrete inputs. -/

def flagHost : Host Unit where
  pcOffset := 60
  cOffset := 64
  vOffset := 65
  zOffset := 66
  nOffset := 67
  compute := fun _ _ _ => 0
  external := fun _ _ regs world => ⟨0, regs, world, false⟩

/-- `rax` holds the smallest 32-bit number and `rbx` one. -/
def flagMachine : Machine where
  regs := fun r =>
    match r with
    | .rax => 0x80000000
    | .rbx => 1
    | .rbp => 0x1000
    | .rsp => 0x2000
    | _ => 0
  mem := fun _ => 0
  carry := false
  zero := false
  sign := false
  overflow := false

def inRegister (index : Nat) : IROperand := (IROperand.vreg index 4).allocate .allocatedReg index
def inSlot (index : Nat) : IROperand := (IROperand.vreg index 4).allocate .allocatedStack (8 * index)

theorem flagHost_distinct : flagHost.FlagsDistinct := by
  rw [Host.FlagsDistinct]
  decide

theorem flagMachine_addressable : Addressable flagHost flagMachine := by
  rw [Addressable]
  decide

theorem placed_inRegister {index : Nat} (hIndex : index < 9) : Placed (inRegister index) := by
  right
  left
  refine ⟨rfl, rfl, ?_⟩
  simp only [inRegister, IROperand.allocate, BitVec.toNat_ofNat, allocableRegisters, List.length]
  omega

theorem placed_constant {value : BitVec 64} {size : Nat} (hValue : value.toNat < 2 ^ bits size) :
    Placed (.constant value size) := Or.inl ⟨rfl, rfl, hValue⟩

/-- Subtracting the other way round gives the right flags. -/
theorem flagsAgree_iff_swapped :
    FlagInstruction flagMachine .sbcWithFlags [inRegister 1, .constant 1 4, .constant 0 1] ∧
      FlagsAgree flagHost flagMachine .sbcWithFlags [inRegister 1, .constant 1 4, .constant 0 1] := by
  have hInsn : FlagInstruction flagMachine .sbcWithFlags
      [inRegister 1, .constant 1 4, .constant 0 1] :=
    .sbc (placed_inRegister (by decide)) (placed_constant (by decide)) (placed_constant (by decide))
      rfl rfl (by decide) (by decide)
  refine ⟨hInsn, (flagsAgree_iff flagHost_distinct flagMachine_addressable hInsn).mpr ?_⟩
  simp only [FlagsRight]
  decide

/-- `0x80000000 - 1` overflows, but the LLVM back end stores no overflow.  The x86 back end
takes the constant `0x80000000` for positive and does not accept a stack slot. -/
theorem flags_differ :
    ¬ FlagsAgree flagHost flagMachine .sbcWithFlags [inRegister 0, inRegister 1, .constant 0 1] ∧
      ¬ FlagsAgree flagHost flagMachine .setZnFlags [.constant 0x80000000 4] ∧
      ¬ FlagsAgree flagHost flagMachine .setZnFlags [inSlot 0] := by
  refine ⟨?_, ?_, ?_⟩
  · rw [flagsAgree_sbc_iff flagHost_distinct flagMachine_addressable (placed_inRegister (by decide))
      (placed_inRegister (by decide)) (placed_constant (by decide)) rfl rfl (by decide) (by decide)]
    simp only [FlagsRight]
    decide
  · rw [flagsAgree_zn_iff flagHost_distinct flagMachine_addressable (placed_constant (by decide)) rfl]
    rintro ⟨-, hSmall⟩
    exact absurd (hSmall rfl) (by decide)
  · rw [flagsAgree_zn_iff flagHost_distinct flagMachine_addressable
      (Or.inr (Or.inr ⟨rfl, rfl, by decide⟩)) rfl]
    rintro ⟨hPlace, -⟩
    exact absurd hPlace (by decide)

end Gensim.BlockJIT
