import Gensim.GenC.IRConstant

/-! Folding of operators on constants, next to what the interpreter makes of them. -/
namespace Gensim.GenC.ConstantFolding

open IRConstant

/-- The switch of `ConstantFoldBinaryOp`. -/
def foldedValue (op : BinaryOperator) (lhs rhs : BitVec 64) (type : IRType) : Option (BitVec 64) :=
  match op with
  | .add => some (lhs + rhs)
  | .subtract => some (lhs - rhs)
  | .multiply => some (lhs * rhs)
  | .divide => if rhs = 0 then some 0 else some (lhs / rhs)
  | .modulo => if rhs = 0 then some 0 else some (lhs % rhs)
  | .shiftLeft => shl lhs rhs
  | .shiftRight => shr lhs rhs
  | .signedShiftRight => if rhs.toNat < 64 then some (lhs.sshiftRight rhs.toNat) else none
  | .rotateLeft => rol lhs rhs (type.sizeInBytes * 8)
  | .rotateRight => ror lhs rhs (type.sizeInBytes * 8)
  | .bitwiseAnd => some (lhs &&& rhs)
  | .bitwiseOr => some (lhs ||| rhs)
  | .bitwiseXOR => some (lhs ^^^ rhs)
  | .logicalOr => some (ofBool (lhs != 0 || rhs != 0))
  | .logicalAnd => some (ofBool (lhs != 0 && rhs != 0))
  | .equality => some (ofBool (lhs == rhs))
  | .inequality => some (ofBool (lhs != rhs))
  | .lessThan => some (ofBool (lhs < rhs))
  | .lessThanEqual => some (ofBool (lhs ≤ rhs))
  | .greaterThan => some (ofBool (lhs > rhs))
  | .greaterThanEqual => some (ofBool (lhs ≥ rhs))

/-- The switch over the size of a rotate's type in the interpreter. -/
def rotated (rotate : BitVec 64 → BitVec 64 → Nat → Option (BitVec 64)) (lhs rhs : BitVec 64)
    (type : IRType) : Option (BitVec 64) :=
  match type.sizeInBytes with
  | 4 => rotate lhs rhs 32
  | 8 => rotate lhs rhs 64
  | _ => none

/-- The switch of `VisitBinaryArithmeticStatement`. -/
def interpretedValue (op : BinaryOperator) (lhs rhs : BitVec 64) (type : IRType) :
    Option (BitVec 64) :=
  match op with
  | .add => some (lhs + rhs)
  | .subtract => some (lhs - rhs)
  | .multiply => some (lhs * rhs)
  | .divide => if rhs = 0 then some 0 else some (lhs / rhs)
  | .modulo => if rhs = 0 then some 0 else some (lhs % rhs)
  | .bitwiseAnd => some (lhs &&& rhs)
  | .bitwiseOr => some (lhs ||| rhs)
  | .bitwiseXOR => some (lhs ^^^ rhs)
  | .logicalAnd => some (ofBool (lhs != 0 && rhs != 0))
  | .logicalOr => some (ofBool (lhs != 0 || rhs != 0))
  | .shiftLeft => shl lhs rhs
  | .shiftRight => shr lhs rhs
  | .signedShiftRight => ssr lhs rhs
  -- neither case of a rotate ends in a break
  | .rotateLeft => do
      let _ ← rotated rol lhs rhs type
      let _ ← rotated ror lhs rhs type
      some (ofBool (lhs == rhs))
  | .rotateRight => do
      let _ ← rotated ror lhs rhs type
      some (ofBool (lhs == rhs))
  | .equality => some (ofBool (lhs == rhs))
  | .inequality => some (ofBool (lhs != rhs))
  | .greaterThan => some (ofBool (lhs > rhs))
  | .greaterThanEqual => some (ofBool (lhs ≥ rhs))
  | .lessThan => some (ofBool (lhs < rhs))
  | .lessThanEqual => some (ofBool (lhs ≤ rhs))

/-- `ConstantFoldBinaryOp`, up to the replacement of the uses: the constant that is substituted. -/
def constantFoldBinaryOp (op : BinaryOperator) (lhs rhs : SSAConstantStatement) :
    Option SSAConstantStatement :=
  let type := IRType.resolve op lhs.type rhs.type
  (foldedValue op lhs.constant rhs.constant type).map fun value =>
    ⟨IRType.cast value type type, type, IRType.cast_cast value type⟩

/-- The value `SetStatementValue` keeps for a constant. -/
def visitConstantStatement (statement : SSAConstantStatement) : BitVec 64 :=
  IRType.cast statement.constant statement.type statement.type

/-- The value `SetStatementValue` keeps for an operator on constants. -/
def visitBinaryArithmeticStatement (op : BinaryOperator) (lhs rhs : SSAConstantStatement) :
    Option (BitVec 64) :=
  let type := IRType.resolve op lhs.type rhs.type
  (interpretedValue op (visitConstantStatement lhs) (visitConstantStatement rhs) type).map fun value =>
    IRType.cast value type type

/-- Both come to a value, and to the same. -/
def FoldsAsInterpreted (op : BinaryOperator) (lhs rhs : SSAConstantStatement) : Prop :=
  ∃ folded, constantFoldBinaryOp op lhs rhs = some folded ∧
    visitBinaryArithmeticStatement op lhs rhs = some folded.constant

variable {op : BinaryOperator} {lhs rhs : SSAConstantStatement} {left right : BitVec 64} {type : IRType}

@[simp] theorem visitConstantStatement_eq (statement : SSAConstantStatement) :
    visitConstantStatement statement = statement.constant := statement.fits

theorem interpretedValue_eq (hRotate : op.isRotate = false) :
    interpretedValue op left right type = foldedValue op left right type := by
  cases op with
  | rotateLeft | rotateRight => cases hRotate
  | _ => rfl

/-- Only shifts of 64 bits or more have no value. -/
theorem foldedValue_isSome (hRotate : op.isRotate = false)
    (hAmount : op.isShift = true → right.toNat < 64) : ∃ value, foldedValue op left right type = some value := by
  cases op with
  | rotateLeft | rotateRight => cases hRotate
  | shiftLeft | shiftRight | signedShiftRight => exact ⟨_, if_pos (hAmount rfl)⟩
  | divide | modulo =>
    by_cases hZero : right = 0
    · exact ⟨_, if_pos hZero⟩
    · exact ⟨_, if_neg hZero⟩
  | _ => exact ⟨_, rfl⟩

theorem foldsAsInterpreted_of_not_rotate (hRotate : op.isRotate = false)
    (hAmount : op.isShift = true → rhs.constant.toNat < 64) : FoldsAsInterpreted op lhs rhs := by
  obtain ⟨value, hValue⟩ :=
    @foldedValue_isSome op lhs.constant rhs.constant (IRType.resolve op lhs.type rhs.type) hRotate hAmount
  unfold FoldsAsInterpreted constantFoldBinaryOp visitBinaryArithmeticStatement
  simp only [visitConstantStatement_eq, interpretedValue_eq hRotate, hValue]
  exact ⟨_, rfl, rfl⟩

/-! ## Rotates -/

/-- What a rotate of 32 bits folds to, as far as it can be mistaken for a comparison. -/
theorem foldedValue_rotate_int32 (hRotate : op.isRotate = true) (hBase : type.base = .int32)
    (hLeft : left.toNat < 2 ^ 32) (hAmount : right.toNat < 32) :
    ∃ value, foldedValue op left right type = some value ∧ value.toNat < 2 ^ 32 ∧
      (left = 0 → value = 0) ∧ (left ≠ 0 → value ≠ 0) ∧ (left = right → value ≠ 1) := by
  have hSize : type.sizeInBytes * 8 = 32 := by simp [IRType.sizeInBytes, hBase, PlainOldDataType.elementSize]
  have hMasked (value : BitVec 64) : (value &&& ((1#64 <<< 32) - 1)).toNat < 2 ^ 32 :=
    lt_of_le_of_lt (Nat.and_le_right) (by decide)
  have hRight : right = BitVec.ofNat 64 (⟨right.toNat, hAmount⟩ : Fin 32) := by simp
  cases op with
  | rotateLeft =>
    refine ⟨_, by rw [foldedValue, hSize, rol_eq (by decide) hAmount], hMasked _, ?_, ?_, ?_⟩
    · rintro rfl
      simp
    · exact rotate_ne_zero (by decide) hAmount.le hLeft
    · intro hSame
      rw [hSame, hRight]
      generalize (⟨right.toNat, hAmount⟩ : Fin 32) = amount
      revert amount
      decide
  | rotateRight =>
    refine ⟨_, by rw [foldedValue, hSize, ror_eq (by decide) hAmount], hMasked _, ?_, ?_, ?_⟩
    · rintro rfl
      simp
    · have hAround : 32 - (32 - right.toNat) = right.toNat := Nat.sub_sub_self hAmount.le
      have hKept := @rotate_ne_zero left 32 (32 - right.toNat) (by decide) (Nat.sub_le ..) hLeft
      rw [hAround, BitVec.or_comm] at hKept
      exact hKept
    · intro hSame
      rw [hSame, hRight]
      generalize (⟨right.toNat, hAmount⟩ : Fin 32) = amount
      revert amount
      decide
  | _ => cases hRotate

/-- The interpreter has rotates of 32 and 64 bits only, and the latter are undefined. -/
theorem interpretedValue_rotate_eq_none (hRotate : op.isRotate = true) (hBase : type.base ≠ .int32) :
    interpretedValue op left right type = none := by
  have hNone (rotate : BitVec 64 → BitVec 64 → Nat → Option (BitVec 64))
      (hRotate : rotate left right 64 = none) : rotated rotate left right type = none := by
    unfold rotated IRType.sizeInBytes
    cases hCase : type.base with
    | int8 | int16 => rfl
    | int32 => exact absurd hCase hBase
    | int64 => exact hRotate
  cases op with
  | rotateLeft =>
    unfold interpretedValue
    rw [hNone rol rol_64]
    rfl
  | rotateRight =>
    unfold interpretedValue
    rw [hNone ror ror_64]
    rfl
  | _ => cases hRotate

theorem interpretedValue_rotate_int32 (hRotate : op.isRotate = true) (hBase : type.base = .int32)
    (hAmount : right.toNat < 32) : interpretedValue op left right type = some (ofBool (left == right)) := by
  have hRotated (rotate : BitVec 64 → BitVec 64 → Nat → Option (BitVec 64)) :
      rotated rotate left right type = rotate left right 32 := by
    simp [rotated, IRType.sizeInBytes, hBase, PlainOldDataType.elementSize]
  cases op with
  | rotateLeft =>
    unfold interpretedValue
    rw [hRotated rol, hRotated ror, rol_eq (by decide) hAmount, ror_eq (by decide) hAmount]
    rfl
  | rotateRight =>
    unfold interpretedValue
    rw [hRotated ror, ror_eq (by decide) hAmount]
    rfl
  | _ => cases hRotate

/-- An operand fits the type of the statement, which is no smaller than its own. -/
theorem lhs_lt_of_rotate (hRotate : op.isRotate = true) :
    lhs.constant.toNat < 2 ^ (IRType.resolve op lhs.type rhs.type).width := by
  have hNormal : op.isNormal = true := by
    cases op with
    | rotateLeft | rotateRight => rfl
    | _ => cases hRotate
  refine lt_of_lt_of_le (IRType.toNat_lt_of_fits lhs.fits) (Nat.pow_le_pow_right (by decide) ?_)
  unfold IRType.resolve IRType.width IRType.sizeInBytes PlainOldDataType.max
  rw [if_pos hNormal]
  refine Nat.mul_le_mul_right 8 ?_
  split
  next hLess => exact hLess.le
  next => exact le_rfl

theorem foldsAsInterpreted_rotate_iff (hRotate : op.isRotate = true)
    (hAmount : rhs.constant.toNat < (IRType.resolve op lhs.type rhs.type).width) : FoldsAsInterpreted op lhs rhs ↔
      (IRType.resolve op lhs.type rhs.type).base = .int32 ∧ lhs.constant = 0 ∧ rhs.constant ≠ 0 := by
  have hLeft := @lhs_lt_of_rotate op lhs rhs hRotate
  unfold FoldsAsInterpreted constantFoldBinaryOp visitBinaryArithmeticStatement
  simp only [visitConstantStatement_eq]
  generalize IRType.resolve op lhs.type rhs.type = type at hAmount hLeft ⊢
  by_cases hBase : type.base = .int32
  · have hWidth : type.width = 32 := by simp [IRType.width, IRType.sizeInBytes, hBase, PlainOldDataType.elementSize]
    rw [hWidth] at hAmount hLeft
    obtain ⟨value, hValue, hBelow, hZero, hNonzero, hOne⟩ := foldedValue_rotate_int32 hRotate hBase hLeft hAmount
    have hBool : (ofBool (lhs.constant == rhs.constant)).toNat < 2 ^ type.width := by
      rw [hWidth]
      cases lhs.constant == rhs.constant <;> decide
    rw [hValue, interpretedValue_rotate_int32 hRotate hBase hAmount]
    simp only [Option.map_some, Option.some.injEq, exists_eq_left', IRType.cast_of_lt hBool,
      IRType.cast_of_lt (hWidth ▸ hBelow), hBase, true_and]
    by_cases hSame : lhs.constant = rhs.constant
    · rw [beq_iff_eq.mpr hSame]
      constructor
      · exact fun hValue => absurd hValue.symm (hOne hSame)
      · rintro ⟨hLhs, hRhs⟩
        exact absurd (hSame.symm.trans hLhs) hRhs
    · rw [beq_eq_false_iff_ne.mpr hSame]
      constructor
      · intro hValue
        have hLhs : lhs.constant = 0 := by_contra fun hLhs => hNonzero hLhs hValue.symm
        exact ⟨hLhs, fun hRhs => hSame (hLhs.trans hRhs.symm)⟩
      · rintro ⟨hLhs, -⟩
        exact (hZero hLhs).symm
  · rw [interpretedValue_rotate_eq_none hRotate hBase]
    simp [hBase]

/-- Folding and interpretation of an operator on constants agree exactly when the operator is no rotate,
or rotates a zero of 32 bits by an amount that is not zero. -/
theorem foldsAsInterpreted_iff (op : BinaryOperator) (lhs rhs : SSAConstantStatement)
    (hAmount : (op.isShift || op.isRotate) = true →
      rhs.constant.toNat < (IRType.resolve op lhs.type rhs.type).width) :
    FoldsAsInterpreted op lhs rhs ↔ op.isRotate = false ∨
      (IRType.resolve op lhs.type rhs.type).base = .int32 ∧ lhs.constant = 0 ∧ rhs.constant ≠ 0 := by
  cases hRotate : op.isRotate with
  | false =>
      have hBelow (hShift : op.isShift = true) : rhs.constant.toNat < 64 :=
        lt_of_lt_of_le (hAmount (by simp [hShift])) (IRType.width_le _)
      simp [foldsAsInterpreted_of_not_rotate hRotate hBelow]
  | true =>
      rw [foldsAsInterpreted_rotate_iff hRotate (hAmount (by simp [hRotate]))]
      simp

/-- A shift in a type of 8 bits, whose result is cut to the type by both. -/
theorem foldsAsInterpreted_iff_shift :
    FoldsAsInterpreted .shiftLeft ⟨0xf1, ⟨.int8, true⟩, by decide⟩ ⟨4, ⟨.int8, false⟩, by decide⟩ :=
  (foldsAsInterpreted_iff .shiftLeft ⟨0xf1, ⟨.int8, true⟩, by decide⟩ ⟨4, ⟨.int8, false⟩, by decide⟩
    (fun _ => by decide)).mpr (.inl rfl)

/-- The interpreter falls through from the rotate to the comparison. -/
theorem rotate_interpreted_as_equality :
    let lhs : SSAConstantStatement := ⟨0x12, ⟨.int32, false⟩, by decide⟩
    let rhs : SSAConstantStatement := ⟨4, ⟨.int32, false⟩, by decide⟩
    (constantFoldBinaryOp .rotateRight lhs rhs).map (·.constant) = some 0x20000001 ∧
      visitBinaryArithmeticStatement .rotateRight lhs rhs = some 0 ∧
      ¬ FoldsAsInterpreted .rotateRight lhs rhs := by
  intro lhs rhs
  have hFolded : (constantFoldBinaryOp .rotateRight lhs rhs).map (·.constant) = some 0x20000001 := by
    decide
  have hInterpreted : visitBinaryArithmeticStatement .rotateRight lhs rhs = some 0 := by decide
  refine ⟨hFolded, hInterpreted, fun ⟨folded, hFold, hVisit⟩ => ?_⟩
  rw [hFold] at hFolded
  rw [hInterpreted] at hVisit
  exact absurd (hVisit.trans hFolded) (by decide)

end Gensim.GenC.ConstantFolding
