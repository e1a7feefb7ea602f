import Mathlib.Tactic

/-! Integer constants of the intermediate form, their types and the operators on them. -/
namespace Gensim.GenC

/-- The integer types, in the order in which `Resolve` compares them. -/
inductive PlainOldDataType where
  | int8
  | int16
  | int32
  | int64
  deriving DecidableEq

namespace PlainOldDataType

def elementSize : PlainOldDataType → Nat
  | .int8 => 1
  | .int16 => 2
  | .int32 => 4
  | .int64 => 8

def max (left right : PlainOldDataType) : PlainOldDataType :=
  if left.elementSize < right.elementSize then right else left

end PlainOldDataType

structure IRType where
  base : PlainOldDataType
  signed : Bool
  deriving DecidableEq

inductive BinaryOperator where
  | add | subtract | multiply | divide | modulo
  | shiftLeft | shiftRight | rotateLeft | rotateRight
  | bitwiseOr | bitwiseAnd | bitwiseXOR | signedShiftRight
  | logicalOr | logicalAnd
  | equality | inequality | lessThan | greaterThan | lessThanEqual | greaterThanEqual
  deriving DecidableEq

namespace BinaryOperator

/-- An operator before `END_OF_NORMAL_OPERATORS`. -/
def isNormal : BinaryOperator → Bool
  | .logicalOr | .logicalAnd | .equality | .inequality | .lessThan | .greaterThan | .lessThanEqual
  | .greaterThanEqual => false
  | _ => true

def isRotate : BinaryOperator → Bool
  | .rotateLeft | .rotateRight => true
  | _ => false

def isShift : BinaryOperator → Bool
  | .shiftLeft | .shiftRight | .signedShiftRight => true
  | _ => false

end BinaryOperator

namespace IRType

def sizeInBytes (type : IRType) : Nat := type.base.elementSize

def width (type : IRType) : Nat := type.sizeInBytes * 8

def resolve (op : BinaryOperator) (lhs rhs : IRType) : IRType :=
  if op.isNormal then ⟨lhs.base.max rhs.base, lhs.signed && rhs.signed⟩ else ⟨.int8, false⟩

/-- `IRType::Cast` of an integer. The sign extension is lost on the way out: a type of 64 bits returns
the value it was given, and any other masks. -/
def cast (value : BitVec 64) (source target : IRType) : BitVec 64 :=
  let result :=
    if source.signed && target.signed then (value.setWidth source.width).signExtend 64 else value
  if target.base = .int64 then value else result &&& ((1#64 <<< target.width) - 1)

theorem width_le (type : IRType) : type.width ≤ 64 := by
  unfold width sizeInBytes PlainOldDataType.elementSize
  cases type.base <;> decide

theorem toNat_mask {width : Nat} (hWidth : width < 64) : ((1#64 <<< width) - 1).toNat = 2 ^ width - 1 := by
  have hPow : 2 ^ width < 2 ^ 64 := Nat.pow_lt_pow_right (by decide) hWidth
  have hShift : (1#64 <<< width).toNat = 2 ^ width := by
    rw [BitVec.toNat_shiftLeft, Nat.shiftLeft_eq]
    exact (congrArg (· % 2 ^ 64) (Nat.one_mul _)).trans (Nat.mod_eq_of_lt hPow)
  rw [BitVec.toNat_sub_of_le, hShift]
  · rfl
  · rw [BitVec.le_def, hShift]
    exact Nat.one_le_two_pow

theorem getLsbD_mask {width : Nat} (hWidth : width < 64) (bit : Nat) :
    ((1#64 <<< width) - 1).getLsbD bit = decide (bit < width) := by
  rw [BitVec.getLsbD, toNat_mask hWidth]
  exact Nat.testBit_two_pow_sub_one width bit

/-- A value is cast to its own type by cutting it to the width, whatever the sign. -/
theorem getLsbD_cast_self (value : BitVec 64) (type : IRType) (bit : Nat) :
    (cast value type type).getLsbD bit = (decide (bit < type.width) && value.getLsbD bit) := by
  have hLe := type.width_le
  unfold cast
  by_cases hBase : type.base = .int64
  · have hWidth : type.width = 64 := by simp [width, sizeInBytes, hBase, PlainOldDataType.elementSize]
    rw [if_pos hBase, hWidth]
    by_cases hBit : bit < 64
    · simp [hBit]
    · simp [BitVec.getLsbD_of_ge _ _ (not_lt.mp hBit)]
  · have hWidth : type.width < 64 := by
      unfold width sizeInBytes PlainOldDataType.elementSize
      cases hCase : type.base <;> simp_all
    rw [if_neg hBase, BitVec.getLsbD_and, getLsbD_mask hWidth, Bool.and_comm]
    by_cases hBit : bit < type.width
    · have hExtend : ((value.setWidth type.width).signExtend 64).getLsbD bit = value.getLsbD bit := by
        rw [BitVec.getLsbD_signExtend, if_pos hBit, BitVec.getLsbD_setWidth, decide_eq_true hBit,
          decide_eq_true (hBit.trans hWidth), Bool.true_and, Bool.true_and]
      cases type.signed
      · rfl
      · exact congrArg (decide (bit < type.width) && ·) hExtend
    · simp [hBit]

theorem cast_cast (value : BitVec 64) (type : IRType) :
    cast (cast value type type) type type = cast value type type := by
  refine BitVec.eq_of_getLsbD_eq fun bit _ => ?_
  simp [getLsbD_cast_self]

/-- A value that fits its type is below the type's width. -/
theorem toNat_lt_of_fits {value : BitVec 64} {type : IRType} (hFits : cast value type type = value) :
    value.toNat < 2 ^ type.width := by
  refine Nat.lt_pow_two_of_testBit _ fun bit hBit => ?_
  have hCut := getLsbD_cast_self value type bit
  rw [hFits, decide_eq_false (not_lt.mpr hBit), Bool.false_and] at hCut
  exact hCut

theorem cast_of_lt {value : BitVec 64} {type : IRType} (hLt : value.toNat < 2 ^ type.width) :
    cast value type type = value := by
  refine BitVec.eq_of_getLsbD_eq fun bit _ => ?_
  rw [getLsbD_cast_self]
  by_cases hBit : bit < type.width
  · simp [hBit]
  · have hPow := Nat.pow_le_pow_right (n := 2) (by decide) (not_lt.mp hBit)
    have hClear : value.getLsbD bit = false := Nat.testBit_lt_two_pow (lt_of_lt_of_le hLt hPow)
    rw [hClear, Bool.and_false]

end IRType

namespace IRConstant

/-- A shift by 64 or more is undefined. -/
def shl (lhs rhs : BitVec 64) : Option (BitVec 64) :=
  if rhs.toNat < 64 then some (lhs <<< rhs.toNat) else none

def shr (lhs rhs : BitVec 64) : Option (BitVec 64) :=
  if rhs.toNat < 64 then some (lhs >>> rhs.toNat) else none

def rol (lhs rhs : BitVec 64) (widthInBits : Nat) : Option (BitVec 64) := do
  let lowbits ← shl lhs rhs
  let highbits ← shr lhs (BitVec.ofNat 64 widthInBits - rhs)
  let mask ← shl 1 (BitVec.ofNat 64 widthInBits)
  some ((lowbits ||| highbits) &&& (mask - 1))

def ror (lhs rhs : BitVec 64) (widthInBits : Nat) : Option (BitVec 64) := do
  let lowbits ← shr lhs rhs
  let highbits ← shl lhs (BitVec.ofNat 64 widthInBits - rhs)
  let mask ← shl 1 (BitVec.ofNat 64 widthInBits)
  some ((lowbits ||| highbits) &&& (mask - 1))

def ssr (lhs rhs : BitVec 64) : Option (BitVec 64) :=
  if rhs.toNat < 64 then some (lhs.sshiftRight rhs.toNat) else none

def ofBool (value : Bool) : BitVec 64 := if value then 1 else 0

variable {lhs rhs : BitVec 64}

section Rotate

variable {widthInBits : Nat}

section

variable (hWidth : widthInBits < 64)
include hWidth

theorem toNat_width_sub (hAmount : rhs.toNat < widthInBits) :
    (BitVec.ofNat 64 widthInBits - rhs).toNat = widthInBits - rhs.toNat := by
  rw [BitVec.toNat_sub_of_le, BitVec.toNat_ofNat, Nat.mod_eq_of_lt (hWidth.trans (by decide))]
  rw [BitVec.le_def, BitVec.toNat_ofNat, Nat.mod_eq_of_lt (hWidth.trans (by decide))]
  exact hAmount.le

theorem shl_one : shl 1 (BitVec.ofNat 64 widthInBits) = some (1#64 <<< widthInBits) := by
  unfold shl
  rw [BitVec.toNat_ofNat, Nat.mod_eq_of_lt (hWidth.trans (by decide)), if_pos hWidth]
  rfl

theorem rol_eq (hAmount : rhs.toNat < widthInBits) :
    rol lhs rhs widthInBits = some (((lhs <<< rhs.toNat) ||| (lhs >>> (widthInBits - rhs.toNat))) &&&
      ((1#64 <<< widthInBits) - 1)) := by
  unfold rol
  rw [shl_one hWidth, shl, shr, toNat_width_sub hWidth hAmount, if_pos (hAmount.trans hWidth),
    if_pos (lt_of_le_of_lt (Nat.sub_le ..) hWidth)]
  rfl

theorem ror_eq (hAmount : rhs.toNat < widthInBits) :
    ror lhs rhs widthInBits = some (((lhs >>> rhs.toNat) ||| (lhs <<< (widthInBits - rhs.toNat))) &&&
      ((1#64 <<< widthInBits) - 1)) := by
  unfold ror
  rw [shl_one hWidth, shr, shl, toNat_width_sub hWidth hAmount, if_pos (hAmount.trans hWidth),
    if_pos (lt_of_le_of_lt (Nat.sub_le ..) hWidth)]
  rfl

end

/-- The mask of 64 bits is one of the shifts that are undefined. -/
theorem rol_64 : rol lhs rhs 64 = none := by
  unfold rol
  cases shl lhs rhs with
  | none => rfl
  | some _ => cases shr lhs (BitVec.ofNat 64 64 - rhs) <;> rfl

theorem ror_64 : ror lhs rhs 64 = none := by
  unfold ror
  cases shr lhs rhs with
  | none => rfl
  | some _ => cases shl lhs (BitVec.ofNat 64 64 - rhs) <;> rfl

/-- A rotate keeps some bit: `left` is the number of places to the left, counted around the width. -/
theorem rotate_ne_zero {left : Nat} (hWidth : widthInBits < 64) (hLeft : left ≤ widthInBits)
    (hFits : lhs.toNat < 2 ^ widthInBits) (hNonzero : lhs ≠ 0) :
    ((lhs <<< left) ||| (lhs >>> (widthInBits - left))) &&& ((1#64 <<< widthInBits) - 1) ≠ 0 := by
  intro hZero
  apply hNonzero
  refine BitVec.eq_of_getLsbD_eq fun bit _ => ?_
  rw [BitVec.ofNat_eq_ofNat, BitVec.getLsbD_zero]
  by_contra hSet
  have hIn : bit < widthInBits := by
    by_contra hOut
    have hPow := Nat.pow_le_pow_right (n := 2) (by decide) (not_lt.mp hOut)
    exact hSet (Nat.testBit_lt_two_pow (lt_of_lt_of_le hFits hPow))
  have hBits (place : Nat) (hPlace : place < widthInBits) :
      (!decide (place < left) && lhs.getLsbD (place - left) || lhs.getLsbD (widthInBits - left + place)) = false := by
    have hBit : (((lhs <<< left) ||| (lhs >>> (widthInBits - left))) &&&
        ((1#64 <<< widthInBits) - 1)).getLsbD place = false := by
      rw [hZero]
      exact BitVec.getLsbD_zero
    rwa [BitVec.getLsbD_and, IRType.getLsbD_mask hWidth, decide_eq_true hPlace, Bool.and_true,
      BitVec.getLsbD_or, BitVec.getLsbD_shiftLeft, BitVec.getLsbD_ushiftRight,
      decide_eq_true (hPlace.trans hWidth), Bool.true_and] at hBit
  rcases Nat.lt_or_ge (bit + left) widthInBits with hStays | hEnters
  · have hLow := hBits (bit + left) hStays
    simp [hSet] at hLow
  · have hHigh := hBits (bit + left - widthInBits) (by omega)
    rw [show widthInBits - left + (bit + left - widthInBits) = bit by omega] at hHigh
    simp [hSet] at hHigh

end Rotate

end IRConstant

/-- A constant that fits its own type, as `SSAConstantStatement::Resolve` demands. -/
structure SSAConstantStatement where
  constant : BitVec 64
  type : IRType
  fits : IRType.cast constant type type = constant

end Gensim.GenC
