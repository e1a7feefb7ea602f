import Gensim.BlockJIT.Step
import Gensim.Lib.LLVMInteger

/-! The LLVM lowering of the shifts and of the rotation.  A virtual register is always named with
one size, so that an operand is an LLVM integer of its own width. -/
namespace Gensim.BlockJIT.LLVM

open LLVMInteger

/-- An operand as the builder sees it. -/
def valueFor (w : Word) : Value := constant (bits w.size) w.value

def lowerSHL (amount dest : Word) : Option Value := shl (valueFor dest) (valueFor amount)

/-- The amount is brought to the width of the shifted operand; the largest amount is taken from
the size of the amount. -/
def lowerSHR (amount dest : Word) : Option Value := do
  let lhs := valueFor dest
  let rhs := zextOrTrunc (valueFor amount) lhs.width
  let maxShift := constant lhs.width (amount.size * 8)
  let comparison ← icmp (fun x y => y ≤ x) rhs maxShift
  let shift ← lshr lhs rhs
  select comparison (constant lhs.width 0) shift

def lowerROR (amount dest : Word) : Option Value := do
  let lhs := valueFor dest
  let rhs := valueFor amount
  let zero := constant lhs.width 0
  let maxShift := constant lhs.width (amount.size * 8)
  let rotation ← and rhs (constant rhs.width (amount.size * 8 - 1))
  let comparison ← icmp (fun x y => x = y) rotation zero
  let shift1 ← lshr lhs rotation
  let shift2 ← shl lhs (← sub maxShift rotation)
  let rotated ← or shift1 shift2
  select comparison lhs rotated

def lowerSAR (amount dest : Word) : Option Value := do
  let lhs := valueFor dest
  let rhs := valueFor amount
  let maxShift := constant lhs.width (amount.size * 8)
  let comparison ← icmp (fun x y => y ≤ x) rhs maxShift
  let shift ← ashr lhs rhs
  select comparison (constant lhs.width 0) shift

/-- The shifts and the rotation. -/
inductive Shift
  | shl | shr | sar | ror
deriving DecidableEq, Repr

def Shift.type : Shift → IRInstructionType
  | .shl => .shl
  | .shr => .shr
  | .sar => .sar
  | .ror => .ror

def Shift.lower : Shift → Word → Word → Option Value
  | .shl => lowerSHL
  | .shr => lowerSHR
  | .sar => lowerSAR
  | .ror => lowerROR

/-- The code can be built, and its value is that of the instruction at the width of the shifted
operand. -/
def Shift.LoweredRight {W : Type} (host : Host W) (world : W) (shift : Shift) (amount dest : Word) :
    Prop :=
  shift.lower amount dest =
    some (constant (bits dest.size) (result host world shift.type [amount, dest]))

/-- The sizes in bytes of integer operands. -/
def sizes : List Nat := [1, 2, 4, 8, 16]

/-- A word that fits its size, which is one of the sizes of integers. -/
structure Integer (w : Word) : Prop where
  size_mem : w.size ∈ sizes
  value_lt : w.value < 2 ^ bits w.size

theorem valueFor_eq {w : Word} (h : Integer w) : valueFor w = ⟨bits w.size, some w.value⟩ := by
  rw [valueFor, constant, Nat.mod_eq_of_lt h.value_lt]

theorem bits_bounds {size : Nat} (hSize : size ∈ sizes) : 8 ≤ bits size ∧ bits size ≤ 128 := by
  simp only [sizes, List.mem_cons, List.not_mem_nil, or_false] at hSize
  simp only [bits]
  omega

/-- No number of bits comes near the numbers of the smallest integer. -/
theorem bits_lt_two_pow {size other : Nat} (hSize : size ∈ sizes) (hOther : other ∈ sizes) :
    bits size < 2 ^ bits other := by
  have hPow : 2 ^ 8 ≤ 2 ^ bits other := Nat.pow_le_pow_right (by decide) (bits_bounds hOther).1
  have hBits := (bits_bounds hSize).2
  omega

theorem and_bits_sub_one {size : Nat} (hSize : size ∈ sizes) {n : Nat} (hn : n < bits size) :
    n &&& (size * 8 - 1) = n := by
  obtain ⟨k, hk⟩ : ∃ k, bits size = 2 ^ k := by
    simp only [sizes, List.mem_cons, List.not_mem_nil, or_false] at hSize
    rcases hSize with rfl | rfl | rfl | rfl | rfl
    exacts [⟨3, rfl⟩, ⟨4, rfl⟩, ⟨5, rfl⟩, ⟨6, rfl⟩, ⟨7, rfl⟩]
  have hMul : size * 8 = 2 ^ k := by rw [← hk, bits, Nat.mul_comm]
  rw [hMul, Nat.and_two_pow_sub_one_eq_mod, Nat.mod_eq_of_lt (hk ▸ hn)]

section Lowering

variable {W : Type} (host : Host W) (world : W) {amount dest : Word}

/-- All but the right shift are built from the two operands as they are. -/
theorem lower_of_size_ne (hSize : amount.size ≠ dest.size) {shift : Shift} (hShift : shift ≠ .shr) :
    shift.lower amount dest = none := by
  have hWidth : bits dest.size ≠ bits amount.size := by
    simp only [bits]
    omega
  cases shift with
  | shl => simp [Shift.lower, lowerSHL, LLVMInteger.shl, binary, valueFor, constant, hWidth]
  | shr => exact absurd rfl hShift
  | sar => simp [Shift.lower, lowerSAR, icmp, valueFor, constant, hWidth.symm]
  | ror => simp [Shift.lower, lowerROR, LLVMInteger.and, binary, icmp, valueFor, constant, hWidth.symm]

variable (hAmount : Integer amount) (hDest : Integer dest) (hLt : amount.value < bits dest.size)
include hAmount hDest hLt

theorem lowerSHL_of_size_eq (hSize : amount.size = dest.size) : Shift.shl.LoweredRight host world amount dest := by
  simp only [Shift.LoweredRight, Shift.lower, lowerSHL, valueFor_eq hAmount, valueFor_eq hDest, hSize,
    LLVMInteger.shl, binary_same, if_pos hLt]
  rfl

theorem lowerSAR_of_size_eq (hSize : amount.size = dest.size) : Shift.sar.LoweredRight host world amount dest := by
  have hMax : amount.size * 8 % 2 ^ bits dest.size = bits dest.size := by
    rw [hSize, Nat.mul_comm, ← bits, Nat.mod_eq_of_lt (bits_lt_two_pow hDest.size_mem hDest.size_mem)]
  have hBelow : ¬ bits dest.size ≤ amount.value := by omega
  simp only [Shift.LoweredRight, Shift.lower, lowerSAR, valueFor_eq hAmount, valueFor_eq hDest, constant, hMax]
  simp only [hSize, icmp_same, LLVMInteger.ashr, binary_same, if_pos hLt, Option.bind_eq_bind, Option.bind_some,
    select_same, hBelow, decide_false, Bool.false_eq_true, if_false, zero_ne_one]
  have hResult : result host world Shift.sar.type [amount, dest] =
      ofSigned dest.size (toSigned dest / 2 ^ amount.value) := if_pos hLt
  rw [hResult, Nat.mod_eq_of_lt (ofSigned_lt ..)]
  rfl

/-- The value of the right shift is 0 from the width of the amount on. -/
theorem lowerSHR_eq : lowerSHR amount dest = some ⟨bits dest.size,
    some (if bits amount.size ≤ amount.value then 0 else dest.value / 2 ^ amount.value)⟩ := by
  have hMax : amount.size * 8 % 2 ^ bits dest.size = bits amount.size := by
    rw [Nat.mul_comm, ← bits, Nat.mod_eq_of_lt (bits_lt_two_pow hAmount.size_mem hDest.size_mem)]
  have hSame : amount.value % 2 ^ bits dest.size = amount.value :=
    Nat.mod_eq_of_lt (hLt.trans (bits_lt_two_pow hDest.size_mem hDest.size_mem))
  simp only [lowerSHR, valueFor_eq hAmount, valueFor_eq hDest, zextOrTrunc, constant, Option.map_some,
    hSame, hMax, icmp_same, LLVMInteger.lshr, binary_same, if_pos hLt, Option.bind_eq_bind,
    Option.bind_some, select_same, Nat.zero_mod, decide_eq_true_eq]
  split <;> rfl

theorem lowerROR_of_size_eq (hSize : amount.size = dest.size) : Shift.ror.LoweredRight host world amount dest := by
  have hMax : amount.size * 8 % 2 ^ bits dest.size = bits dest.size := by
    rw [hSize, Nat.mul_comm, ← bits, Nat.mod_eq_of_lt (bits_lt_two_pow hDest.size_mem hDest.size_mem)]
  have hMask : amount.value &&& (amount.size * 8 - 1) % 2 ^ bits dest.size = amount.value := by
    have hFits := bits_lt_two_pow hDest.size_mem hDest.size_mem
    rw [hSize, Nat.mod_eq_of_lt (by rw [Nat.mul_comm, ← bits]; omega),
      and_bits_sub_one hDest.size_mem hLt]
  have hResult : result host world Shift.ror.type [amount, dest] = rotateLeft dest (bits dest.size - amount.value) := by
    rw [← Nat.mod_eq_of_lt hLt]
    simp [result, Shift.type]
  rw [Shift.LoweredRight, hResult]
  simp only [Shift.lower, lowerROR, valueFor_eq hAmount, valueFor_eq hDest, constant, hMax]
  simp only [hSize] at hMask ⊢
  simp only [LLVMInteger.and, LLVMInteger.or, LLVMInteger.sub, LLVMInteger.shl, LLVMInteger.lshr, binary_same,
    hMask, Option.bind_eq_bind, Option.bind_some, icmp_same, if_pos hLt]
  have hSmall : bits dest.size < 2 ^ bits dest.size := bits_lt_two_pow hDest.size_mem hDest.size_mem
  by_cases hZero : amount.value = 0
  · -- the shift by the whole width is poison, and is not selected
    have hRotate : rotateLeft dest (bits dest.size - 0) = dest.value := by
      simp [rotateLeft, Nat.div_eq_of_lt hDest.value_lt]
    rw [hZero, hRotate, Nat.mod_eq_of_lt hDest.value_lt]
    simp [binary]
  · have hBack : (bits dest.size + (2 ^ bits dest.size - amount.value)) % 2 ^ bits dest.size =
        bits dest.size - amount.value := by
      rw [show bits dest.size + (2 ^ bits dest.size - amount.value) =
        bits dest.size - amount.value + 2 ^ bits dest.size by omega, Nat.add_mod_right,
        Nat.mod_eq_of_lt (by omega)]
    have hRotate : rotateLeft dest (bits dest.size - amount.value) =
        dest.value * 2 ^ (bits dest.size - amount.value) + dest.value / 2 ^ amount.value := by
      simp only [rotateLeft]
      rw [Nat.mod_eq_of_lt (by omega), show bits dest.size - (bits dest.size - amount.value) =
        amount.value by omega]
    rw [hBack, if_pos (by omega), hRotate, ← or_shifts hLt.le hDest.value_lt]
    simp [hZero]

end Lowering

/-- The four lowerings are right exactly for operands of one size, and the right shift also where
the guard does not cut in or nothing is left after the shift. -/
theorem loweredRight_iff {W : Type} (host : Host W) (world : W) (shift : Shift) (amount dest : Word)
    (hAmount : Integer amount) (hDest : Integer dest) (hLt : amount.value < bits dest.size) :
    shift.LoweredRight host world amount dest ↔
      amount.size = dest.size ∨ shift = .shr ∧
        (amount.value < bits amount.size ∨ dest.value < 2 ^ amount.value) := by
  by_cases hShift : shift = .shr
  · subst hShift
    have hResult : result host world Shift.shr.type [amount, dest] = dest.value / 2 ^ amount.value :=
      rfl
    have hFits : dest.value / 2 ^ amount.value < 2 ^ bits dest.size :=
      (Nat.div_le_self _ _).trans_lt hDest.value_lt
    rw [Shift.LoweredRight, Shift.lower, lowerSHR_eq hAmount hDest hLt, hResult, constant,
      Nat.mod_eq_of_lt hFits]
    have hGone : 0 = dest.value / 2 ^ amount.value ↔ dest.value < 2 ^ amount.value := by
      rw [eq_comm, Nat.div_eq_zero_iff_lt (Nat.two_pow_pos _)]
    by_cases hCut : bits amount.size ≤ amount.value
    · have hSizes : amount.size ≠ dest.size := by
        intro hSame
        rw [hSame] at hCut
        omega
      simp [hCut, hGone, hSizes]
    · simp [hCut, Nat.lt_of_not_le hCut]
  · by_cases hSize : amount.size = dest.size
    · simp only [hSize, true_or, iff_true]
      cases shift with
      | shl => exact lowerSHL_of_size_eq host world hAmount hDest hLt hSize
      | shr => exact absurd rfl hShift
      | sar => exact lowerSAR_of_size_eq host world hAmount hDest hLt hSize
      | ror => exact lowerROR_of_size_eq host world hAmount hDest hLt hSize
    · simp [Shift.LoweredRight, lower_of_size_ne hSize hShift, hSize, hShift]

theorem loweredRight_iff_rotate : Shift.ror.LoweredRight (idleHost 0) () ⟨8, 4⟩ ⟨0x12345678, 4⟩ :=
  (loweredRight_iff (idleHost 0) () .ror ⟨8, 4⟩ ⟨0x12345678, 4⟩ ⟨by decide, by decide⟩
    ⟨by decide, by decide⟩ (by decide)).mpr (.inl rfl)

/-- A 32-bit value shifted right by 8, the amount in a byte, comes out as 0; the other lowerings do
not build anything for a byte amount. -/
theorem byte_amount_wrong :
    lowerSHR ⟨8, 1⟩ ⟨0x100, 4⟩ = some ⟨32, some 0⟩ ∧
    ¬ Shift.shr.LoweredRight (idleHost 0) () ⟨8, 1⟩ ⟨0x100, 4⟩ ∧
    ∀ shift ∈ [Shift.shl, .sar, .ror], shift.lower ⟨1, 1⟩ ⟨1, 4⟩ = none := by
  refine ⟨by decide, ?_, by decide⟩
  unfold Shift.LoweredRight
  decide

end Gensim.BlockJIT.LLVM
