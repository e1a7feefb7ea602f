import Gensim.BlockJIT.Semantics

/-! The LLVM lowering of the instructions that compute the guest's flags: carry and overflow
are rebuilt from 64-bit arithmetic and sign bits. -/
namespace Gensim.BlockJIT.LLVM

open ByteStore

section Lowering

variable {W : Type} (host : Host W) (regs : Store)

/-- An operand as an LLVM integer of its width. -/
def getValueFor (w : Word) : BitVec (bits w.size) := .ofNat _ w.value

/-- `BlockJITADCFLAGSLowering` and `BlockJITSBCFLAGSLowering` differ in the arithmetic only:
both take the overflow flag from equal operand signs and a different sign of the result. -/
def carryFlags (combine : BitVec 64 → BitVec 64 → BitVec 64) (lhs rhs carry : Word) : Store :=
  let lhsOrig := getValueFor lhs
  let rhsOrig := getValueFor rhs
  let result := combine (lhsOrig.setWidth 64) (rhsOrig.setWidth 64)
  let result := combine result ((getValueFor carry).setWidth 64)
  let result32 := result.setWidth 32
  let nValue := result32.slt 0
  let zValue := result32 == 0
  let cValue := BitVec.ult 0xffffffff result
  let lhsSign := lhsOrig.slt 0
  let rhsSign := rhsOrig.slt 0
  let vValue := (lhsSign == rhsSign) && (lhsSign != nValue)
  let regs := setByte regs host.cOffset cValue
  let regs := setByte regs host.nOffset nValue
  let regs := setByte regs host.vOffset vValue
  setByte regs host.zOffset zValue

def adcFlags : Word → Word → Word → Store := carryFlags host regs (· + ·)
def sbcFlags : Word → Word → Word → Store := carryFlags host regs (· - ·)

def znFlags (value : Word) : Store :=
  let inValue := getValueFor value
  let zValue := inValue == 0
  let nValue := inValue.slt 0
  setByte (setByte regs host.zOffset zValue) host.nOffset nValue

def lowerFlags : IRInstructionType → List Word → Store
  | .adcWithFlags, [lhs, rhs, carry] => adcFlags host regs lhs rhs carry
  | .sbcWithFlags, [lhs, rhs, carry] => sbcFlags host regs lhs rhs carry
  | .setZnFlags, [value] => znFlags host regs value
  | _, _ => regs

end Lowering

/-! What the 32-bit comparisons decide. -/

theorem slt_zero {n value : Nat} (hValue : value < 2 ^ (n + 1)) :
    (BitVec.ofNat (n + 1) value).slt 0 = decide (2 ^ n ≤ value) := by
  have hPow : 2 ^ (n + 1) = 2 * 2 ^ n := by ring
  rw [BitVec.slt_eq_decide, BitVec.toInt_eq_toNat_cond, BitVec.toNat_ofNat, Nat.mod_eq_of_lt hValue, hPow]
  rw [hPow] at hValue
  simp only [BitVec.ofNat_eq_ofNat, BitVec.toInt_zero, decide_eq_decide]
  generalize 2 ^ n = half at hValue ⊢
  split <;> omega

theorem beq_zero {n value : Nat} (hValue : value < 2 ^ n) : (BitVec.ofNat n value == 0) = decide (value = 0) := by
  rw [Bool.eq_iff_iff, beq_iff_eq, decide_eq_true_eq]
  constructor
  · intro h
    have hNat := congrArg BitVec.toNat h
    rwa [BitVec.toNat_ofNat, Nat.mod_eq_of_lt hValue] at hNat
  · rintro rfl
    rfl

/-- The flags that the two lowerings store, from the operands' numbers. -/
theorem carryFlags_eq {W : Type} (host : Host W) (regs : Store)
    {combine : BitVec 64 → BitVec 64 → BitVec 64} {l r c size : Nat} (hl : l < 2 ^ 32)
    (hr : r < 2 ^ 32) (hc : c ≤ 1) (hSize : 1 ≤ size) {result : Nat}
    (hResult : (combine (combine (.ofNat 64 l) (.ofNat 64 r)) (.ofNat 64 c)).toNat = result) :
    carryFlags host regs combine ⟨l, 4⟩ ⟨r, 4⟩ ⟨c, size⟩ =
      setByte (setByte (setByte (setByte regs host.cOffset (2 ^ 32 ≤ result)) host.nOffset (2 ^ 31 ≤ result % 2 ^ 32))
        host.vOffset ((2 ^ 31 ≤ l ↔ 2 ^ 31 ≤ r) ∧ ¬ (2 ^ 31 ≤ l ↔ 2 ^ 31 ≤ result % 2 ^ 32)))
        host.zOffset (result % 2 ^ 32 = 0) := by
  have hWide : ∀ w : Word, w.value < 2 ^ bits w.size → (getValueFor w).setWidth 64 = .ofNat 64 w.value := by
    intro w hw
    apply BitVec.eq_of_toNat_eq
    rw [BitVec.toNat_setWidth, getValueFor, BitVec.toNat_ofNat, BitVec.toNat_ofNat, Nat.mod_eq_of_lt hw]
  have hCarryWidth : c < 2 ^ bits size := by
    have : 2 ^ 8 ≤ 2 ^ bits size := Nat.pow_le_pow_right (by decide) (by simp only [bits]; omega)
    omega
  have hTrunc : (combine (combine (.ofNat 64 l) (.ofNat 64 r)) (.ofNat 64 c)).setWidth 32 =
      .ofNat 32 (result % 2 ^ 32) := by
    apply BitVec.eq_of_toNat_eq
    rw [BitVec.toNat_setWidth, hResult, BitVec.toNat_ofNat, Nat.mod_mod]
  have hMod : result % 2 ^ 32 < 2 ^ 32 := Nat.mod_lt _ (by decide)
  have hCarryOut : BitVec.ult 0xffffffff (combine (combine (.ofNat 64 l) (.ofNat 64 r))
      (.ofNat 64 c)) = decide (2 ^ 32 ≤ result) := by
    rw [BitVec.ult_eq_decide, hResult]
    exact decide_eq_decide.mpr Nat.succ_le_iff.symm
  have hLeft : (getValueFor ⟨l, 4⟩).slt 0 = decide (2 ^ 31 ≤ l) := @slt_zero 31 l hl
  have hRight : (getValueFor ⟨r, 4⟩).slt 0 = decide (2 ^ 31 ≤ r) := @slt_zero 31 r hr
  have hNegative := @slt_zero 31 _ hMod
  have hOverflow : ∀ p q s : Prop, [Decidable p] → [Decidable q] → [Decidable s] →
      ((decide p == decide q) && (decide p != decide s)) = decide ((p ↔ q) ∧ ¬ (p ↔ s)) := by
    intro p q s _ _ _
    by_cases p <;> by_cases q <;> by_cases s <;> simp_all
  unfold carryFlags
  dsimp only
  rw [hWide ⟨l, 4⟩ hl, hWide ⟨r, 4⟩ hr, hWide ⟨c, size⟩ hCarryWidth]
  dsimp only
  rw [hTrunc, hNegative, beq_zero hMod, hCarryOut, hLeft, hRight, hOverflow]

end Gensim.BlockJIT.LLVM
