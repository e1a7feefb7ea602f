import Mathlib.Data.BitVec
import Mathlib.Data.List.TakeWhile
import Mathlib.Tactic

/-! The format of 64-bit mode instructions: legacy prefixes, an optional REX
prefix, a one- or two-byte opcode, and a ModRM byte with its SIB byte and
displacement when it names a memory operand. -/
namespace X86Format

abbrev Byte := BitVec 8

inductive Base
  | register (number : Nat)
  | instructionPointer
  | none
  deriving DecidableEq, Repr

structure MemoryOperand where
  base : Base
  /-- Register number and scale. -/
  index : Option (Nat × Nat)
  displacement : Int
  deriving DecidableEq, Repr

/-- General-purpose registers. Without a REX prefix byte registers 4 to 7 are the
high halves of the first four. -/
inductive Register
  | gpr (number size : Nat)
  | highByte (number : Nat)
  deriving DecidableEq, Repr

structure Decoded where
  operandSize : Nat
  addressSize : Nat
  twoByte : Bool
  opcode : Byte
  /-- The `reg` field of ModRM, without its REX extension. -/
  extension : Nat
  register : Register
  memory : MemoryOperand
  deriving DecidableEq, Repr

/-! ### Fields -/

/-- A ModRM or SIB byte. -/
def packFields (top middle low : Byte) : Byte :=
  (top &&& 3) <<< 6 ||| (middle &&& 7) <<< 3 ||| (low &&& 7)

def topField (b : Byte) : Nat := (b >>> 6).toNat
def middleField (b : Byte) : Nat := ((b >>> 3) &&& 7).toNat
def lowField (b : Byte) : Nat := (b &&& 7).toNat

section Fields
variable (top middle low : Byte)

@[simp] theorem topField_packFields : topField (packFields top middle low) = top.toNat % 4 := by
  have hBits : packFields top middle low >>> 6 = top &&& 3 := by
    apply BitVec.eq_of_getLsbD_eq
    intro i hi
    unfold packFields
    interval_cases i <;> simp
  rw [topField, hBits, BitVec.toNat_and]
  exact Nat.and_two_pow_sub_one_eq_mod _ 2

@[simp] theorem middleField_packFields : middleField (packFields top middle low) = middle.toNat % 8 := by
  have hBits : (packFields top middle low >>> 3) &&& 7 = middle &&& 7 := by
    apply BitVec.eq_of_getLsbD_eq
    intro i hi
    unfold packFields
    interval_cases i <;> simp
  rw [middleField, hBits, BitVec.toNat_and]
  exact Nat.and_two_pow_sub_one_eq_mod _ 3

@[simp] theorem lowField_packFields : lowField (packFields top middle low) = low.toNat % 8 := by
  have hBits : packFields top middle low &&& 7 = low &&& 7 := by
    apply BitVec.eq_of_getLsbD_eq
    intro i hi
    unfold packFields
    interval_cases i <;> simp
  rw [lowField, hBits, BitVec.toNat_and]
  exact Nat.and_two_pow_sub_one_eq_mod _ 3

end Fields

/-! ### Displacements -/

/-- The bytes of a 32-bit value, lowest first. -/
def bytes32 (x : BitVec 32) : List Byte :=
  [x.extractLsb' 0 8, x.extractLsb' 8 8, x.extractLsb' 16 8, x.extractLsb' 24 8]

def readDisplacement : Nat → List Byte → Option (Int × List Byte)
  | 0, bytes => some (0, bytes)
  | 1, b :: bytes => some (b.toInt, bytes)
  | 4, b0 :: b1 :: b2 :: b3 :: bytes => some ((b3 ++ b2 ++ b1 ++ b0 : BitVec 32).toInt, bytes)
  | _, _ => none

theorem readDisplacement_bytes32 (x : BitVec 32) (rest : List Byte) :
    readDisplacement 4 (bytes32 x ++ rest) = some (x.toInt, rest) := by
  have hBits : (x.extractLsb' 24 8 ++ x.extractLsb' 16 8 ++ x.extractLsb' 8 8 ++
      x.extractLsb' 0 8 : BitVec 32) = x := by
    apply BitVec.eq_of_getLsbD_eq
    intro i hi
    interval_cases i <;>
      simp only [BitVec.getLsbD_append, BitVec.getLsbD_extractLsb'] <;> rfl
  simp only [bytes32, List.cons_append, List.nil_append, readDisplacement, hBits]

/-- A small displacement survives being cut to a byte. -/
theorem readDisplacement_byte {x : BitVec 32} (hLow : -128 ≤ x.toInt) (hHigh : x.toInt < 128) (rest : List Byte) :
    readDisplacement 1 (x.setWidth 8 :: rest) = some (x.toInt, rest) := by
  have hSame : (x.setWidth 8).toInt = x.toInt := by
    rw [BitVec.toInt_setWidth]
    have hBmod : x.toInt = (x.toNat : Int).bmod (2 ^ 32) := BitVec.toInt_eq_toNat_bmod x
    rw [hBmod] at hLow hHigh ⊢
    simp only [Int.bmod_def] at *
    omega
  simp only [readDisplacement, hSame]

/-! ### Decoding -/

/-- The memory operand of a ModRM byte, with the index and base extension bits. -/
def decodeMemory (x b : Bool) (modrm : Byte) (bytes : List Byte) :
    Option (MemoryOperand × List Byte) :=
  let size := if topField modrm = 1 then 1 else if topField modrm = 2 then 4 else 0
  if topField modrm = 3 then none
  else if lowField modrm = 4 then
    match bytes with
    | [] => none
    | sib :: bytes =>
        let number := middleField sib + if x then 8 else 0
        let index := if number = 4 then none else some (number, 2 ^ topField sib)
        if lowField sib = 5 ∧ topField modrm = 0 then
          (readDisplacement 4 bytes).map fun d => (⟨.none, index, d.1⟩, d.2)
        else
          (readDisplacement size bytes).map fun d =>
            (⟨.register (lowField sib + if b then 8 else 0), index, d.1⟩, d.2)
  else if lowField modrm = 5 ∧ topField modrm = 0 then
    (readDisplacement 4 bytes).map fun d => (⟨.instructionPointer, none, d.1⟩, d.2)
  else
    (readDisplacement size bytes).map fun d =>
      (⟨.register (lowField modrm + if b then 8 else 0), none, d.1⟩, d.2)

def legacyPrefixes : List Byte :=
  [0x26, 0x2e, 0x36, 0x3e, 0x64, 0x65, 0x66, 0x67, 0xf0, 0xf2, 0xf3]

def isRex (b : Byte) : Bool := b >>> 4 = 4

/-- A byte in the position of an opcode that is one. -/
def IsOpcode (b : Byte) : Prop := b ∉ legacyPrefixes ∧ isRex b = false ∧ b ≠ 0x0f

instance (b : Byte) : Decidable (IsOpcode b) := inferInstanceAs (Decidable (_ ∧ _))

/-- Decode after the prefixes. Whether an instruction works on bytes is part of
its opcode, so it is given. -/
def decodeOpcode (byteForm : Bool) (legacy : List Byte) (rex : Option Byte) (bytes : List Byte) :
    Option (Decoded × List Byte) :=
  let bit := fun k => (rex.getD 0).getLsbD k
  let operandSize :=
    if byteForm then 1 else if bit 3 then 8 else if 0x66 ∈ legacy then 2 else 4
  let finish := fun (twoByte : Bool) (opcode : Byte) (bytes : List Byte) =>
    match bytes with
    | [] => none
    | modrm :: bytes =>
        let number := middleField modrm + if bit 2 then 8 else 0
        (decodeMemory (bit 1) (bit 0) modrm bytes).map fun m =>
          ({ operandSize
             addressSize := if 0x67 ∈ legacy then 4 else 8
             twoByte, opcode
             extension := middleField modrm
             register :=
               if byteForm ∧ rex = none ∧ 4 ≤ number then .highByte (number - 4)
               else .gpr number operandSize
             memory := m.1 }, m.2)
  match bytes with
  | [] => none
  | b :: bytes =>
      if b = 0x0f then
        match bytes with
        | [] => none
        | opcode :: bytes => finish true opcode bytes
      else finish false b bytes

def decode (byteForm : Bool) (bytes : List Byte) : Option (Decoded × List Byte) :=
  let legacy := bytes.takeWhile (· ∈ legacyPrefixes)
  match bytes.dropWhile (· ∈ legacyPrefixes) with
  | [] => none
  | b :: rest =>
      if isRex b then decodeOpcode byteForm legacy (some b) rest
      else decodeOpcode byteForm legacy none (b :: rest)

theorem not_legacy_of_isRex {b : Byte} (h : isRex b = true) : b ∉ legacyPrefixes := by
  revert b
  decide

section Decode
variable {byteForm : Bool} {legacy rest : List Byte} {rex : Option Byte}

/-- The legacy prefixes end at the first other byte. -/
theorem split_legacy (hLegacy : ∀ b ∈ legacy, b ∈ legacyPrefixes) {b : Byte} (hb : b ∉ legacyPrefixes)
    (l : List Byte) : (legacy ++ b :: l).takeWhile (· ∈ legacyPrefixes) = legacy ∧
      (legacy ++ b :: l).dropWhile (· ∈ legacyPrefixes) = b :: l := by
  rw [List.takeWhile_append_of_pos (by simpa using hLegacy),
    List.dropWhile_append_of_pos (by simpa using hLegacy)]
  simp [hb]

/-- Prefixes are read up to the byte that begins the opcode. -/
theorem decode_prefixes (hLegacy : ∀ b ∈ legacy, b ∈ legacyPrefixes)
    (hRex : ∀ b, rex = some b → isRex b = true) {first : Byte}
    (hFirst : first ∉ legacyPrefixes) (hPlain : isRex first = false) :
    decode byteForm (legacy ++ rex.toList ++ first :: rest) = decodeOpcode byteForm legacy rex (first :: rest) := by
  cases rex with
  | none =>
    obtain ⟨hBefore, hAfter⟩ := split_legacy hLegacy hFirst rest
    simp [decode, hBefore, hAfter, hPlain]
  | some b =>
    have hHere := hRex b rfl
    obtain ⟨hBefore, hAfter⟩ := split_legacy hLegacy (not_legacy_of_isRex hHere) (first :: rest)
    simp [decode, hBefore, hAfter, hHere]

/-- Operand size of an instruction that does not work on bytes. -/
def operandSizeOf (byteForm : Bool) (legacy : List Byte) (rex : Option Byte) : Nat :=
  if byteForm then 1 else if (rex.getD 0).getLsbD 3 then 8 else if 0x66 ∈ legacy then 2 else 4

/-- The register named by a `reg` field. -/
def registerOf (byteForm : Bool) (legacy : List Byte) (rex : Option Byte) (reg : Nat) : Register :=
  let number := reg + if (rex.getD 0).getLsbD 2 then 8 else 0
  if byteForm ∧ rex = none ∧ 4 ≤ number then .highByte (number - 4)
  else .gpr number (operandSizeOf byteForm legacy rex)

/-- The bytes of a one- or two-byte opcode. -/
def opcodeBytes (twoByte : Bool) (opcode : Byte) : List Byte :=
  if twoByte then [0x0f, opcode] else [opcode]

/-- A whole instruction is decoded part by part. -/
theorem decode_instruction (hLegacy : ∀ b ∈ legacy, b ∈ legacyPrefixes)
    (hRex : ∀ b, rex = some b → isRex b = true) {twoByte : Bool} {opcode modrm : Byte}
    (hOpcode : twoByte = true ∨ IsOpcode opcode) :
    decode byteForm (legacy ++ rex.toList ++ (opcodeBytes twoByte opcode ++ modrm :: rest)) =
      (decodeMemory ((rex.getD 0).getLsbD 1) ((rex.getD 0).getLsbD 0) modrm rest).map fun m =>
        ({ operandSize := operandSizeOf byteForm legacy rex
           addressSize := if 0x67 ∈ legacy then 4 else 8
           twoByte, opcode
           extension := middleField modrm
           register := registerOf byteForm legacy rex (middleField modrm)
           memory := m.1 }, m.2) := by
  cases twoByte with
  | true =>
    rw [opcodeBytes, if_pos rfl, List.cons_append, decode_prefixes hLegacy hRex (by decide) rfl]
    simp [decodeOpcode, operandSizeOf, registerOf]
  | false =>
    obtain ⟨hFirst, hPlain, hEscape⟩ := hOpcode.resolve_left (by simp)
    rw [opcodeBytes, if_neg (by simp), List.cons_append,
      decode_prefixes hLegacy hRex hFirst hPlain]
    have hOne : opcode ≠ 0x0f#8 := hEscape
    simp [decodeOpcode, operandSizeOf, registerOf, hOne]

end Decode

end X86Format
