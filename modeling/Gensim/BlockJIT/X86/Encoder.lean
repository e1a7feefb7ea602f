import Gensim.Lib.X86Format

/-! `X86Encoder`: the bytes of instructions with a memory operand. The two overloads
of `encode_opcode_mod_rm` share the ModRM, SIB and displacement bytes and choose
their prefixes separately. -/
namespace Gensim.BlockJIT.X86

open X86Format

/-! ### Operands -/

/-- `rawIndex` is the number within the old or, for a `hireg`, the new eight
registers. `newreg` marks the byte registers that need a REX prefix. -/
structure X86Register where
  size : Nat
  rawIndex : Byte
  hireg : Bool := false
  newreg : Bool := false
  deriving DecidableEq, Repr

def regRsp : X86Register := { size := 8, rawIndex := 4 }
def regRbp : X86Register := { size := 8, rawIndex := 5 }
def regR12 : X86Register := { size := 8, rawIndex := 4, hireg := true }
def regR13 : X86Register := { size := 8, rawIndex := 5, hireg := true }
def regRiz : X86Register := { size := 0, rawIndex := 8 }
/-- The reference `REG_RIP` is bound to the same object as `REG_RIZ`. -/
def regRip : X86Register := regRiz

structure X86Memory where
  base : X86Register
  index : X86Register := regRiz
  segment : Nat := 0
  displacement : BitVec 32 := 0
  scale : Nat := 0
  deriving DecidableEq, Repr

/-! ### The encoder -/

/-- Neither a base nor an index register. -/
def X86Memory.isAbsolute (rm : X86Memory) : Bool := rm.base = regRiz ∧ rm.index = regRiz

/-- The `mod` field: no displacement, a byte or 32 bits. With these two bases no
displacement cannot be said. -/
def modField (rm : X86Memory) : Byte :=
  let mod : Byte :=
    if rm.displacement = 0 ∨ rm.isAbsolute then 0
    else if rm.displacement.toInt < 128 ∧ rm.displacement.toInt > -127 then 1
    else 2
  if mod = 0 ∧ rm.base = regRbp then 1
  else if mod = 0 ∧ rm.base = regR13 then 1
  else mod

/-- The `rm` field. Four asks for a SIB byte. -/
def mrmField (rm : X86Memory) : Option Byte :=
  if rm.base = regRsp then some 4
  else if rm.base = regR12 then some 4
  else if rm.base = regRip then none
  else if rm.scale ≠ 0 then some 4
  else some rm.base.rawIndex

def scaleField : Nat → Option Byte
  | 1 => some 0
  | 2 => some 1
  | 4 => some 2
  | 8 => some 3
  | _ => none

def sibByte (rm : X86Memory) : Option Byte :=
  if rm.scale = 0 then some (packFields 0 4 rm.base.rawIndex)
  else
    (scaleField rm.scale).map fun s =>
      packFields s (if rm.index = regRiz then 4 else rm.index.rawIndex)
        (if rm.base = regRiz then 5 else rm.base.rawIndex)

def displacementBytes (rm : X86Memory) : List Byte :=
  if modField rm = 1 then [rm.displacement.setWidth 8]
  else if modField rm = 2 ∨ rm.isAbsolute then bytes32 rm.displacement
  else []

def encodeModRegRm (mreg : Byte) (rm : X86Memory) : Option (List Byte) := do
  let mrm ← mrmField rm
  let sib ← if mrm = 4 then (sibByte rm).map (fun b => [b]) else some []
  some (packFields (modField rm) mreg mrm :: (sib ++ displacementBytes rm))

def rexB : Byte := 0x41
def rexX : Byte := 0x42
def rexR : Byte := 0x44
def rexW : Byte := 0x48

def flag (b : Bool) (bits : Byte) : Byte := if b then bits else 0

/-- A REX prefix is emitted when any of its bits was asked for. -/
def rexPrefix (rex : Byte) : Option Byte := if rex = 0 then none else some rex

def opcodeOf (opcode : BitVec 16) : List Byte :=
  opcodeBytes (decide (opcode > 0x100)) (opcode.setWidth 8)

def segmentPrefix : Nat → Option (List Byte)
  | 0 => some []
  | 1 => some [0x65]
  | _ => none

def isOperandSize (size : Nat) : Bool := size = 1 ∨ size = 2 ∨ size = 4 ∨ size = 8

def rexOfReg (reg : X86Register) (rm : X86Memory) : Byte :=
  flag reg.newreg 0x40 ||| flag (reg.size = 8) rexW ||| flag reg.hireg rexR |||
    flag rm.base.hireg rexB ||| flag rm.index.hireg rexX

/-- `encode_opcode_mod_rm (opcode, reg, mem)`. -/
def encodeOpcodeModRmReg (opcode : BitVec 16) (reg : X86Register) (rm : X86Memory) :
    Option (List Byte) := do
  guard (isOperandSize reg.size)
  guard (rm.base.size = 4 ∨ rm.base.size = 8 ∨ rm.base = regRiz)
  let segment ← segmentPrefix rm.segment
  let modrm ← encodeModRegRm reg.rawIndex rm
  some (segment ++ (if reg.size = 2 then [0x66] else []) ++
    (if rm.base.size = 4 then [0x67] else []) ++ (rexPrefix (rexOfReg reg rm)).toList ++
    (opcodeOf opcode ++ modrm))

def rexOfSize (size : Nat) (rm : X86Memory) : Byte :=
  flag (size = 8) rexW ||| flag rm.base.hireg rexB

/-- `encode_opcode_mod_rm (opcode, oper, size, mem)`. It looks neither at the segment
nor at whether the index is one of the new registers. -/
def encodeOpcodeModRmExt (opcode : BitVec 16) (oper : Byte) (size : Nat) (rm : X86Memory) :
    Option (List Byte) := do
  guard (isOperandSize size)
  guard (rm.base.size = 4 ∨ rm.base.size = 8)
  let modrm ← encodeModRegRm oper rm
  some ((if size = 2 then [0x66] else []) ++ (if rm.base.size = 4 then [0x67] else []) ++
    (rexPrefix (rexOfSize size rm)).toList ++ (opcodeOf opcode ++ modrm))

/-! ### What the operands stand for -/

namespace X86Register

def number (r : X86Register) : Nat := r.rawIndex.toNat + if r.hireg then 8 else 0

/-- `AH`, `CH`, `DH` and `BH`. -/
def isHighByte (r : X86Register) : Bool := r.size = 1 ∧ 4 ≤ r.rawIndex.toNat ∧ !r.hireg ∧ !r.newreg

def denotes (r : X86Register) : Register :=
  if r.isHighByte then .highByte (r.rawIndex.toNat - 4) else .gpr r.number r.size

/-- The registers of the encoder's table. -/
def Valid (r : X86Register) : Prop :=
  isOperandSize r.size = true ∧ r.rawIndex.toNat < 8 ∧
    (r.newreg = true → r.size = 1 ∧ 4 ≤ r.rawIndex.toNat ∧ r.hireg = false)

instance (r : X86Register) : Decidable r.Valid := inferInstanceAs (Decidable (_ ∧ _))

end X86Register

namespace X86Memory

/-- A 32- or 64-bit base and an optional index of the same width other than the
stack pointer. -/
structure Valid (rm : X86Memory) : Prop where
  base : rm.base.Valid
  baseSize : rm.base.size = 4 ∨ rm.base.size = 8
  segment : rm.segment = 0 ∨ rm.segment = 1
  index : rm.scale = 0 ∧ rm.index = regRiz ∨
    rm.scale ∈ [1, 2, 4, 8] ∧ rm.index.Valid ∧ rm.index.size = rm.base.size ∧ rm.index.number ≠ 4

def denotes (rm : X86Memory) : MemoryOperand where
  base := .register rm.base.number
  index := if rm.scale = 0 then none else some (rm.index.number, rm.scale)
  displacement := rm.displacement.toInt

end X86Memory

/-! ### ModRM, SIB and displacement -/

/-- The escapes for a missing displacement are only made for 64-bit bases. -/
def X86Memory.Expressible (rm : X86Memory) : Prop :=
  ¬ (rm.base.size = 4 ∧ rm.base.rawIndex = 5 ∧ rm.displacement = 0)

instance (rm : X86Memory) : Decidable rm.Expressible := inferInstanceAs (Decidable (¬ _))

/-- The index a SIB byte names under an extension bit. -/
def indexWith (x : Bool) (rm : X86Memory) : Option (Nat × Nat) :=
  if rm.scale = 0 then none
  else
    let number := rm.index.rawIndex.toNat + if x then 8 else 0
    if number = 4 then none else some (number, rm.scale)

theorem rawIndex_eq_five {r : Byte} : r.toNat = 5 ↔ r = 5 := by
  constructor
  · intro hEq
    exact BitVec.eq_of_toNat_eq hEq
  · intro hEq
    rw [hEq]
    rfl

section Memory
variable {rm : X86Memory} (h : rm.Valid)
include h

theorem X86Memory.Valid.base_ne_riz : rm.base ≠ regRiz := by
  intro hEq
  have hSize := h.baseSize
  rw [hEq] at hSize
  simp [regRiz] at hSize

theorem X86Memory.Valid.not_absolute : rm.isAbsolute = false := by
  simp [isAbsolute, h.base_ne_riz]

/-- A wide base is an old register. -/
theorem X86Memory.Valid.base_eq_iff {r : Byte} {hi : Bool} : rm.base = { size := 8, rawIndex := r, hireg := hi } ↔
      rm.base.size = 8 ∧ rm.base.rawIndex = r ∧ rm.base.hireg = hi := by
  have hOld : rm.base.newreg = false := by
    cases hNew : rm.base.newreg with
    | false => rfl
    | true =>
      have hByte := (h.base.2.2 hNew).1
      have hSize := h.baseSize
      omega
  constructor
  · intro hEq
    simp [hEq]
  · rintro ⟨hSize, hIndex, hHi⟩
    generalize rm.base = base at *
    cases base
    simp_all

/-- When the displacement is left out it is zero, and the base allows it if the
operand is expressible. -/
theorem modField_cases : (modField rm = 0 ∧ rm.displacement = 0 ∧ (rm.Expressible ↔ rm.base.rawIndex ≠ 5)) ∨
      (modField rm = 1 ∧ -128 ≤ rm.displacement.toInt ∧ rm.displacement.toInt < 128 ∧ rm.Expressible) ∨
      (modField rm = 2 ∧ rm.Expressible) := by
  have hRbp := @X86Memory.Valid.base_eq_iff rm h 5 false
  have hR13 := @X86Memory.Valid.base_eq_iff rm h 5 true
  unfold modField X86Memory.Expressible
  by_cases hZero : rm.displacement = 0
  · simp only [hZero, true_or, if_true]
    by_cases hFive : rm.base.rawIndex = 5
    · rcases h.baseSize with hSize | hSize
      · left
        have hNotBp : rm.base ≠ regRbp := fun hEq => by simp [regRbp, hEq] at hSize
        have hNot13 : rm.base ≠ regR13 := fun hEq => by simp [regR13, hEq] at hSize
        simp [hNotBp, hNot13, hFive, hSize]
      · right
        left
        have hEscape : rm.base = regRbp ∨ rm.base = regR13 := by
          cases hHi : rm.base.hireg with
          | false => exact Or.inl (hRbp.mpr ⟨hSize, hFive, hHi⟩)
          | true => exact Or.inr (hR13.mpr ⟨hSize, hFive, hHi⟩)
        rcases hEscape with hEq | hEq <;> simp [hEq, regRbp, regR13]
    · left
      have hNotBp : rm.base ≠ regRbp := fun hEq => hFive (by rw [hEq]; rfl)
      have hNot13 : rm.base ≠ regR13 := fun hEq => hFive (by rw [hEq]; rfl)
      refine ⟨by simp [hNotBp, hNot13], trivial, ?_⟩
      exact ⟨fun _ => hFive, fun _ hEscape => hFive hEscape.2.1⟩
  · simp only [hZero, h.not_absolute]
    by_cases hSmall : rm.displacement.toInt < 128 ∧ rm.displacement.toInt > -127
    · right
      left
      simp only [hSmall, and_self, Bool.false_eq_true, or_self, if_true, if_false]
      refine ⟨by simp, by omega, trivial, by simp⟩
    · right
      right
      simp [hSmall]

theorem readDisplacement_encoded (rest : List Byte) :
    readDisplacement (if modField rm = 1 then 1 else if modField rm = 2 then 4 else 0)
      (displacementBytes rm ++ rest) = some (rm.displacement.toInt, rest) := by
  unfold displacementBytes
  rcases modField_cases h with ⟨hMod, hZero, -⟩ | ⟨hMod, hLow, hHigh, -⟩ | ⟨hMod, -⟩
  · simp [hMod, hZero, h.not_absolute, readDisplacement]
  · simpa [hMod] using readDisplacement_byte hLow hHigh rest
  · simpa [hMod] using readDisplacement_bytes32 rm.displacement rest

theorem modField_lt : (modField rm).toNat < 3 := by
  rcases modField_cases h with ⟨hMod, -⟩ | ⟨hMod, -⟩ | ⟨hMod, -⟩ <;> rw [hMod] <;> decide

/-- Only the base 5 without a displacement is decoded as something else. -/
theorem expressible_iff : rm.Expressible ↔ ¬ (rm.base.rawIndex.toNat = 5 ∧ (modField rm).toNat = 0) := by
  rw [rawIndex_eq_five]
  rcases modField_cases h with ⟨hMod, -, hIff⟩ | ⟨hMod, -, -, hYes⟩ | ⟨hMod, hYes⟩
  · simp [hMod, hIff]
  · simp [hMod, hYes]
  · simp [hMod, hYes]

/-- The base and the displacement, with or without a SIB byte before them. -/
theorem decodeBase_spec {escape : Base} (hEscape : ∀ n, escape ≠ .register n) (index : Option (Nat × Nat))
    (rest : List Byte) : let decoded := if rm.base.rawIndex.toNat = 5 ∧ (modField rm).toNat = 0 then
        (readDisplacement 4 (displacementBytes rm ++ rest)).map fun d =>
          ((⟨escape, index, d.1⟩ : MemoryOperand), d.2)
      else
        (readDisplacement (if (modField rm).toNat = 1 then 1 else if (modField rm).toNat = 2 then 4 else 0)
          (displacementBytes rm ++ rest)).map fun d => (⟨.register rm.base.number, index, d.1⟩, d.2)
    (rm.Expressible → decoded = some (⟨.register rm.base.number, index, rm.displacement.toInt⟩, rest)) ∧
      (¬ rm.Expressible → ∀ m, decoded = some m → ∀ n, m.1.base ≠ .register n) := by
  intro decoded
  have hSize : (if (modField rm).toNat = 1 then 1 else if (modField rm).toNat = 2 then 4 else 0) =
      if modField rm = 1 then 1 else if modField rm = 2 then 4 else 0 := by
    rcases modField_cases h with ⟨hMod, -⟩ | ⟨hMod, -⟩ | ⟨hMod, -⟩ <;> rw [hMod] <;> rfl
  constructor
  · intro hYes
    change (if _ then _ else _) = _
    rw [if_neg ((expressible_iff h).mp hYes), hSize, readDisplacement_encoded h rest]
    rfl
  · intro hNo m hSome n
    change (if _ then _ else _) = _ at hSome
    rw [if_pos (not_not.mp (mt (expressible_iff h).mpr hNo))] at hSome
    obtain ⟨d, -, rfl⟩ := Option.map_eq_some_iff.mp hSome
    exact hEscape n

/-- Decoding the operand behind a SIB byte. -/
theorem decodeMemory_sib (x : Bool) (mreg : Byte) {s i : Byte} (hIndex : i.toNat < 8) (rest : List Byte) :
    (rm.Expressible → decodeMemory x rm.base.hireg (packFields (modField rm) mreg 4)
          (packFields s i rm.base.rawIndex :: (displacementBytes rm ++ rest)) = some (⟨.register rm.base.number,
          if i.toNat + (if x then 8 else 0) = 4 then none
          else some (i.toNat + (if x then 8 else 0), 2 ^ (s.toNat % 4)), rm.displacement.toInt⟩, rest)) ∧
      (¬ rm.Expressible → ∀ m, decodeMemory x rm.base.hireg (packFields (modField rm) mreg 4)
          (packFields s i rm.base.rawIndex :: (displacementBytes rm ++ rest)) = some m →
        ∀ n, m.1.base ≠ .register n) := by
  have hMod := modField_lt h
  have hRaw := h.base.2.1
  unfold decodeMemory
  simp only [topField_packFields, lowField_packFields, middleField_packFields]
  rw [Nat.mod_eq_of_lt (show (modField rm).toNat < 4 by omega), Nat.mod_eq_of_lt hRaw,
    Nat.mod_eq_of_lt hIndex, if_neg (by omega), if_pos (by decide)]
  exact @decodeBase_spec rm h .none (fun _ => nofun) _ rest

/-- Decoding an operand without a SIB byte. -/
theorem decodeMemory_plain (x : Bool) (mreg : Byte) (hSib : rm.base.rawIndex.toNat ≠ 4) (rest : List Byte) :
    (rm.Expressible → decodeMemory x rm.base.hireg (packFields (modField rm) mreg rm.base.rawIndex)
          (displacementBytes rm ++ rest) = some (⟨.register rm.base.number, none, rm.displacement.toInt⟩, rest)) ∧
      (¬ rm.Expressible → ∀ m, decodeMemory x rm.base.hireg (packFields (modField rm) mreg rm.base.rawIndex)
          (displacementBytes rm ++ rest) = some m → ∀ n, m.1.base ≠ .register n) := by
  have hMod := modField_lt h
  have hRaw := h.base.2.1
  unfold decodeMemory
  simp only [topField_packFields, lowField_packFields]
  rw [Nat.mod_eq_of_lt (show (modField rm).toNat < 4 by omega), Nat.mod_eq_of_lt hRaw,
    if_neg (by omega), if_neg hSib]
  exact @decodeBase_spec rm h .instructionPointer (fun _ => nofun) none rest

/-- What the ModRM byte and the bytes after it say under the extension bits of a
REX prefix. -/
theorem encodeModRegRm_spec (mreg : Byte) (x : Bool) (hNone : rm.scale = 0 → x = false) :
    ∃ modrm tail, encodeModRegRm mreg rm = some (modrm :: tail) ∧ middleField modrm = mreg.toNat % 8 ∧ ∀ rest,
        (rm.Expressible → decodeMemory x rm.base.hireg modrm (tail ++ rest) =
          some (⟨.register rm.base.number, indexWith x rm, rm.displacement.toInt⟩, rest)) ∧
        (¬ rm.Expressible → ∀ m, decodeMemory x rm.base.hireg modrm (tail ++ rest) = some m →
          ∀ n, m.1.base ≠ .register n) := by
  have hRiz := h.base_ne_riz
  rcases h.index with ⟨hScale, hIndex⟩ | ⟨hScale, hIndex, -, -⟩
  · by_cases hSib : rm.base.rawIndex = 4
    · have hField : mrmField rm = some 4 := by simp [mrmField, regRip, hRiz, hScale, hSib]
      refine ⟨packFields (modField rm) mreg 4,
        packFields 0 4 rm.base.rawIndex :: displacementBytes rm, ?_, by simp, fun rest => ?_⟩
      · simp [encodeModRegRm, hField, sibByte, hScale]
      · have hDecode := decodeMemory_sib h x mreg (s := 0) (i := 4) (by decide) rest
        rw [hNone hScale] at hDecode ⊢
        simpa [indexWith, hScale] using hDecode
    · have hPlain : rm.base.rawIndex.toNat ≠ 4 := fun hEq => hSib (BitVec.eq_of_toNat_eq hEq)
      have hField : mrmField rm = some rm.base.rawIndex := by
        have hSp : rm.base ≠ regRsp := fun hEq => hSib (by rw [hEq]; rfl)
        have hTwelve : rm.base ≠ regR12 := fun hEq => hSib (by rw [hEq]; rfl)
        simp [mrmField, regRip, hRiz, hScale, hSp, hTwelve]
      refine ⟨packFields (modField rm) mreg rm.base.rawIndex, displacementBytes rm, ?_, by simp,
        fun rest => ?_⟩
      · have hNot : rm.base.rawIndex ≠ 4#8 := hSib
        simp [encodeModRegRm, hField, hNot]
      · simpa [indexWith, hScale] using decodeMemory_plain h x mreg hPlain rest
  · have hNonzero : rm.scale ≠ 0 := by
      intro hZero
      simp [hZero] at hScale
    have hField : mrmField rm = some 4 := by simp [mrmField, regRip, hRiz, hNonzero]
    have hNotRiz : rm.index ≠ regRiz := by
      intro hEq
      have hLt := hIndex.2.1
      rw [hEq] at hLt
      exact absurd hLt (by decide)
    obtain ⟨s, hPow, hScaleField⟩ : ∃ s : Byte, 2 ^ (s.toNat % 4) = rm.scale ∧ scaleField rm.scale = some s := by
      simp only [List.mem_cons, List.not_mem_nil, or_false] at hScale
      rcases hScale with hEq | hEq | hEq | hEq <;> rw [hEq]
      · exact ⟨0, by decide, rfl⟩
      · exact ⟨1, by decide, rfl⟩
      · exact ⟨2, by decide, rfl⟩
      · exact ⟨3, by decide, rfl⟩
    refine ⟨packFields (modField rm) mreg 4,
      packFields s rm.index.rawIndex rm.base.rawIndex :: displacementBytes rm, ?_, by simp,
      fun rest => ?_⟩
    · simp [encodeModRegRm, hField, sibByte, hNonzero, hScaleField, hNotRiz, hRiz]
    · have hDecode := decodeMemory_sib h x mreg (s := s) hIndex.2.1 rest
      simpa [indexWith, hNonzero, hPow] using hDecode

end Memory

/-! ### Prefixes -/

/-- The bits of the emitted REX prefix are those that were asked for. -/
theorem rexPrefix_spec (n w r b x : Bool) :
    let rex := flag n 0x40 ||| flag w rexW ||| flag r rexR ||| flag b rexB ||| flag x rexX
    (rexPrefix rex = none ↔ n = false ∧ w = false ∧ r = false ∧ b = false ∧ x = false) ∧
      (∀ y, rexPrefix rex = some y → isRex y = true) ∧
      ((rexPrefix rex).getD 0).getLsbD 0 = b ∧ ((rexPrefix rex).getD 0).getLsbD 1 = x ∧
      ((rexPrefix rex).getD 0).getLsbD 2 = r ∧ ((rexPrefix rex).getD 0).getLsbD 3 = w := by
  intro rex
  have hBits : (rexPrefix rex = none ↔ n = false ∧ w = false ∧ r = false ∧ b = false ∧ x = false) ∧
      (rex ≠ 0 → isRex rex = true) ∧
      ((rexPrefix rex).getD 0).getLsbD 0 = b ∧ ((rexPrefix rex).getD 0).getLsbD 1 = x ∧
      ((rexPrefix rex).getD 0).getLsbD 2 = r ∧ ((rexPrefix rex).getD 0).getLsbD 3 = w := by
    revert n w r b x
    decide
  refine ⟨hBits.1, fun y hSome => ?_, hBits.2.2⟩
  rw [rexPrefix] at hSome
  split_ifs at hSome with hZero
  obtain rfl := Option.some.inj hSome
  exact hBits.2.1 hZero

/-- The size and address prefixes, after a segment prefix or none. -/
def sizePrefixes (segment : List Byte) (size baseSize : Nat) : List Byte :=
  segment ++ (if size = 2 then [0x66] else []) ++ (if baseSize = 4 then [0x67] else [])

theorem sizePrefixes_spec {segment : List Byte} (h : segment = [] ∨ segment = [0x65]) (size baseSize : Nat) :
    (∀ b ∈ sizePrefixes segment size baseSize, b ∈ legacyPrefixes) ∧
      (0x66 ∈ sizePrefixes segment size baseSize ↔ size = 2) ∧
      (0x67 ∈ sizePrefixes segment size baseSize ↔ baseSize = 4) := by
  unfold sizePrefixes
  rcases h with rfl | rfl <;> by_cases hSize : size = 2 <;> by_cases hBase : baseSize = 4 <;>
    simp only [hSize, hBase, if_true, if_false] <;> decide

theorem operandSizeOf_eq {legacy : List Byte} {rex : Option Byte} {size : Nat}
    (hSize : isOperandSize size = true) (hLegacy : 0x66 ∈ legacy ↔ size = 2)
    (hWide : (rex.getD 0).getLsbD 3 = decide (size = 8)) : operandSizeOf (decide (size = 1)) legacy rex = size := by
  have hCases : size = 1 ∨ size = 2 ∨ size = 4 ∨ size = 8 := by simpa [isOperandSize] using hSize
  unfold operandSizeOf
  rw [hWide]
  simp only [hLegacy]
  rcases hCases with rfl | rfl | rfl | rfl <;> rfl

/-! ### Whole instructions -/

/-- The decoded parts both overloads have to give back. -/
def Decoded.Matches (d : Decoded) (opcode : BitVec 16) (size : Nat) (rm : X86Memory) : Prop :=
  d.twoByte = decide (opcode > 0x100) ∧ d.opcode = opcode.setWidth 8 ∧ d.operandSize = size ∧
    d.addressSize = rm.base.size ∧ d.memory = rm.denotes

/-- Whatever follows, the emitted bytes are decoded to the operands. -/
def FaithfulReg (opcode : BitVec 16) (reg : X86Register) (rm : X86Memory) : Prop :=
  ∃ bytes, encodeOpcodeModRmReg opcode reg rm = some bytes ∧ ∀ rest, ∃ d,
    decode (reg.size = 1) (bytes ++ rest) = some (d, rest) ∧
      Decoded.Matches d opcode reg.size rm ∧ d.register = reg.denotes

def FaithfulExt (opcode : BitVec 16) (oper : Byte) (size : Nat) (rm : X86Memory) : Prop :=
  ∃ bytes, encodeOpcodeModRmExt opcode oper size rm = some bytes ∧ ∀ rest, ∃ d,
    decode (size = 1) (bytes ++ rest) = some (d, rest) ∧
      Decoded.Matches d opcode size rm ∧ d.extension = oper.toNat

section Whole
variable {rm : X86Memory} (h : rm.Valid) {opcode : BitVec 16}
  (hOpcode : opcode > 0x100 ∨ IsOpcode (opcode.setWidth 8))
include h hOpcode

/-- Decoding the bytes of either overload, given its prefixes. -/
theorem decode_encoded {segment : List Byte} (hSegment : segment = [] ∨ segment = [0x65])
    {size : Nat} (hSize : isOperandSize size = true) {rex : Option Byte} {mreg : Byte} {x : Bool}
    (hNone : rm.scale = 0 → x = false) (hRex : ∀ y, rex = some y → isRex y = true)
    (hB : (rex.getD 0).getLsbD 0 = rm.base.hireg) (hX : (rex.getD 0).getLsbD 1 = x)
    (hW : (rex.getD 0).getLsbD 3 = decide (size = 8)) :
    ∃ modrm, encodeModRegRm mreg rm = some modrm ∧ ∀ rest,
      let decoded := decode (size = 1) (sizePrefixes segment size rm.base.size ++ rex.toList ++
        (opcodeOf opcode ++ modrm) ++ rest)
      (rm.Expressible → decoded = some
        ({ operandSize := size
           addressSize := rm.base.size
           twoByte := decide (opcode > 0x100)
           opcode := opcode.setWidth 8
           extension := mreg.toNat % 8
           register := registerOf (size = 1) (sizePrefixes segment size rm.base.size) rex (mreg.toNat % 8)
           memory := ⟨.register rm.base.number, indexWith x rm, rm.displacement.toInt⟩ }, rest)) ∧
      (¬ rm.Expressible → ∀ d rest', decoded = some (d, rest') → d.memory ≠ rm.denotes) := by
  obtain ⟨modrm, tail, hEncode, hMiddle, hDecode⟩ := encodeModRegRm_spec h mreg x hNone
  obtain ⟨hLegacy, hOverride, hAddress⟩ := sizePrefixes_spec hSegment size rm.base.size
  refine ⟨modrm :: tail, hEncode, fun rest => ?_⟩
  have hKind : decide (opcode > 0x100) = true ∨ IsOpcode (opcode.setWidth 8) := by simpa using hOpcode
  have hWhole := @decode_instruction (decide (size = 1)) _ (tail ++ rest) rex hLegacy hRex _ _ modrm hKind
  have hSizeOf := operandSizeOf_eq hSize hOverride hW
  have hAddressSize : (if 0x67 ∈ sizePrefixes segment size rm.base.size then 4 else 8) =
      rm.base.size := by
    simp only [hAddress]
    have hBase := h.baseSize
    split <;> omega
  rw [hB, hX, hMiddle, hSizeOf, hAddressSize] at hWhole
  have hBytes : sizePrefixes segment size rm.base.size ++ rex.toList ++ (opcodeOf opcode ++ modrm :: tail) ++ rest =
      sizePrefixes segment size rm.base.size ++ rex.toList ++
        (opcodeBytes (decide (opcode > 0x100)) (opcode.setWidth 8) ++ modrm :: (tail ++ rest)) := by
    simp [opcodeOf, List.append_assoc]
  obtain ⟨hYes, hNo⟩ := hDecode rest
  intro decoded
  have hDecoded : decoded = _ := (congrArg _ hBytes).trans hWhole
  rw [hDecoded]
  refine ⟨fun hExpressible => ?_, fun hNot d rest' hSome => ?_⟩
  · rw [hYes hExpressible]
    rfl
  · obtain ⟨m, hMemory, hPair⟩ := Option.map_eq_some_iff.mp hSome
    have hBase := hNo hNot m hMemory rm.base.number
    simp only [Prod.mk.injEq] at hPair
    intro hSame
    rw [← hPair.1] at hSame
    exact hBase (congrArg MemoryOperand.base hSame)

end Whole

theorem indexWith_hireg {rm : X86Memory} (h : rm.Valid) : indexWith rm.index.hireg rm = rm.denotes.index := by
  unfold indexWith X86Memory.denotes
  rcases h.index with ⟨hScale, -⟩ | ⟨-, -, -, hNumber⟩
  · simp [hScale]
  · unfold X86Register.number at hNumber ⊢
    dsimp only
    rw [if_neg hNumber]

/-- Without the extension bit the new registers are lost. -/
theorem indexWith_false {rm : X86Memory} (h : rm.Valid) :
    indexWith false rm = rm.denotes.index ↔ rm.index.hireg = false := by
  constructor
  · intro hSame
    rcases h.index with ⟨-, hRiz⟩ | ⟨hScale, -, -, -⟩
    · rw [hRiz]
      rfl
    · have hNonzero : rm.scale ≠ 0 := by
        intro hZero
        simp [hZero] at hScale
      cases hHi : rm.index.hireg with
      | false => rfl
      | true =>
        exfalso
        simp only [indexWith, X86Memory.denotes, X86Register.number, hNonzero, hHi, if_false,
          if_true, Bool.false_eq_true] at hSame
        split at hSame
        · cases hSame
        · simp at hSame
  · intro hLow
    rw [← indexWith_hireg h, hLow]

theorem index_low_of_unscaled {rm : X86Memory} (h : rm.Valid) (hScale : rm.scale = 0) : rm.index.hireg = false := by
  rcases h.index with ⟨-, hRiz⟩ | ⟨hMem, -⟩
  · rw [hRiz]
    rfl
  · simp [hScale] at hMem

/-- A high byte register cannot stand beside a REX prefix. -/
theorem registerOf_eq_iff {reg : X86Register} (h : reg.Valid) (rm : X86Memory)
    {legacy : List Byte} (hLegacy : 0x66 ∈ legacy ↔ reg.size = 2) :
    registerOf (reg.size = 1) legacy (rexPrefix (rexOfReg reg rm)) (reg.rawIndex.toNat % 8) = reg.denotes ↔
      ¬ (reg.isHighByte = true ∧ (rm.base.hireg = true ∨ rm.index.hireg = true)) := by
  obtain ⟨hNone, -, -, -, hR, hW⟩ := rexPrefix_spec reg.newreg (decide (reg.size = 8)) reg.hireg
    rm.base.hireg rm.index.hireg
  rw [← rexOfReg] at hNone hR hW
  generalize rexPrefix (rexOfReg reg rm) = rex at hNone hR hW
  obtain ⟨hSize, hRaw, hNew⟩ := h
  have hOperand := operandSizeOf_eq hSize hLegacy hW
  unfold registerOf X86Register.denotes
  dsimp only
  rw [hR, hOperand, Nat.mod_eq_of_lt hRaw]
  by_cases hHigh : reg.isHighByte = true
  · have hParts : reg.size = 1 ∧ 4 ≤ reg.rawIndex.toNat ∧ reg.hireg = false ∧ reg.newreg = false := by
      simpa [X86Register.isHighByte] using hHigh
    obtain ⟨hOne, hFour, hLow, hOld⟩ := hParts
    have hAbsent : rex = none ↔ rm.base.hireg = false ∧ rm.index.hireg = false := by
      rw [hNone]
      simp [hOld, hLow, hOne]
    simp only [hHigh, hLow, hOne, hAbsent]
    cases rm.base.hireg <;> cases rm.index.hireg <;> simp [hFour]
  · have hNo : ¬ (decide (reg.size = 1) = true ∧ rex = none ∧
        4 ≤ reg.rawIndex.toNat + if reg.hireg = true then 8 else 0) := by
      rintro ⟨hOne, hAbsent, hFour⟩
      obtain ⟨hOld, -, hLow, -, -⟩ := hNone.mp hAbsent
      rw [hLow] at hFour
      apply hHigh
      simp only [X86Register.isHighByte, hOld, hLow, decide_eq_true_eq] at hOne hFour ⊢
      simpa [hOne] using hFour
    rw [if_neg hHigh, if_neg hNo]
    simp [hHigh, X86Register.number]

section Overloads
variable {rm : X86Memory} (h : rm.Valid) {opcode : BitVec 16}
  (hOpcode : opcode > 0x100 ∨ IsOpcode (opcode.setWidth 8))
include h hOpcode

theorem faithfulReg_iff {reg : X86Register} (hReg : reg.Valid) : FaithfulReg opcode reg rm ↔ rm.Expressible ∧
      ¬ (reg.isHighByte = true ∧ (rm.base.hireg = true ∨ rm.index.hireg = true)) := by
  obtain ⟨segment, hSegment, hKind⟩ : ∃ segment, segmentPrefix rm.segment = some segment ∧
      (segment = [] ∨ segment = [0x65]) := by
    rcases h.segment with hEq | hEq <;> rw [hEq]
    · exact ⟨[], rfl, Or.inl rfl⟩
    · exact ⟨[0x65], rfl, Or.inr rfl⟩
  obtain ⟨-, hRex, hB, hX, -, hW⟩ := rexPrefix_spec reg.newreg (decide (reg.size = 8)) reg.hireg
    rm.base.hireg rm.index.hireg
  rw [← rexOfReg] at hRex hB hX hW
  obtain ⟨modrm, hModrm, hDecode⟩ := @decode_encoded rm h opcode hOpcode segment hKind _ hReg.1 _
    reg.rawIndex _ (index_low_of_unscaled h) hRex hB hX hW
  have hRegister := registerOf_eq_iff hReg rm (sizePrefixes_spec hKind reg.size rm.base.size).2.1
  have hBytes : encodeOpcodeModRmReg opcode reg rm = some (sizePrefixes segment reg.size rm.base.size ++
        (rexPrefix (rexOfReg reg rm)).toList ++ (opcodeOf opcode ++ modrm)) := by
    have hBase : rm.base.size = 4 ∨ rm.base.size = 8 ∨ rm.base = regRiz := h.baseSize.imp_right Or.inl
    simp [encodeOpcodeModRmReg, hReg.1, hBase, hSegment, hModrm, sizePrefixes]
  constructor
  · rintro ⟨bytes, hSome, hAll⟩
    rw [hBytes, Option.some.injEq] at hSome
    obtain ⟨d, hDecoded, hMatches, hSame⟩ := hAll []
    rw [← hSome] at hDecoded
    by_cases hExpressible : rm.Expressible
    · rw [(hDecode []).1 hExpressible, Option.some.injEq, Prod.mk.injEq] at hDecoded
      rw [← hDecoded.1] at hSame
      exact ⟨hExpressible, hRegister.mp hSame⟩
    · exact absurd hMatches.2.2.2.2 ((hDecode []).2 hExpressible d [] hDecoded)
  · rintro ⟨hExpressible, hPlain⟩
    refine ⟨_, hBytes, fun rest => ⟨_, (hDecode rest).1 hExpressible, ?_, hRegister.mpr hPlain⟩⟩
    refine ⟨rfl, rfl, rfl, rfl, ?_⟩
    rw [indexWith_hireg h]
    rfl

theorem faithfulExt_iff {oper : Byte} {size : Nat} (hOper : oper.toNat < 8) (hSize : isOperandSize size = true) :
    FaithfulExt opcode oper size rm ↔ rm.Expressible ∧ rm.index.hireg = false := by
  obtain ⟨-, hRex, hB, hX, -, hW⟩ := rexPrefix_spec false (decide (size = 8)) false rm.base.hireg false
  have hFlags : flag false 0x40 ||| flag (decide (size = 8)) rexW ||| flag false rexR |||
      flag rm.base.hireg rexB ||| flag false rexX = rexOfSize size rm := by
    simp [flag, rexOfSize]
  rw [hFlags] at hRex hB hX hW
  obtain ⟨modrm, hModrm, hDecode⟩ := @decode_encoded rm h opcode hOpcode [] (Or.inl rfl) _ hSize _
    oper _ (fun _ => rfl) hRex hB hX hW
  have hBytes : encodeOpcodeModRmExt opcode oper size rm =
      some (sizePrefixes [] size rm.base.size ++ (rexPrefix (rexOfSize size rm)).toList ++
        (opcodeOf opcode ++ modrm)) := by
    simp [encodeOpcodeModRmExt, hSize, h.baseSize, hModrm, sizePrefixes]
  constructor
  · rintro ⟨bytes, hSome, hAll⟩
    rw [hBytes, Option.some.injEq] at hSome
    obtain ⟨d, hDecoded, hMatches, -⟩ := hAll []
    rw [← hSome] at hDecoded
    by_cases hExpressible : rm.Expressible
    · rw [(hDecode []).1 hExpressible, Option.some.injEq, Prod.mk.injEq] at hDecoded
      have hMemory := hMatches.2.2.2.2
      rw [← hDecoded.1] at hMemory
      exact ⟨hExpressible, (indexWith_false h).mp (congrArg MemoryOperand.index hMemory)⟩
    · exact absurd hMatches.2.2.2.2 ((hDecode []).2 hExpressible d [] hDecoded)
  · rintro ⟨hExpressible, hLow⟩
    refine ⟨_, hBytes, fun rest => ⟨_, (hDecode rest).1 hExpressible, ?_, ?_⟩⟩
    · refine ⟨rfl, rfl, rfl, rfl, ?_⟩
      rw [(indexWith_false h).mpr hLow]
      rfl
    · exact Nat.mod_eq_of_lt hOper

end Overloads

/-- Memory operands are encoded faithfully unless a 32-bit `EBP` or `R13D` base has
no displacement, a high byte register meets a REX prefix, or the overload with an
opcode extension is given one of the new registers as index. -/
theorem encodes_memory_iff (opcode : BitVec 16)
    (hOpcode : opcode > 0x100 ∨ IsOpcode (opcode.setWidth 8)) (rm : X86Memory) (h : rm.Valid) :
    (∀ reg : X86Register, reg.Valid →
      (FaithfulReg opcode reg rm ↔ rm.Expressible ∧
        ¬ (reg.isHighByte = true ∧ (rm.base.hireg = true ∨ rm.index.hireg = true)))) ∧
      (∀ (oper : Byte) (size : Nat), oper.toNat < 8 → isOperandSize size = true →
        (FaithfulExt opcode oper size rm ↔ rm.Expressible ∧ rm.index.hireg = false)) :=
  ⟨fun _ hReg => faithfulReg_iff h hOpcode hReg,
    fun _ _ hOper hSize => faithfulExt_iff h hOpcode hOper hSize⟩

/-- `[ebp]`, and `[rax + r9*4 + 16]`. -/
def atEbp : X86Memory := { base := { size := 4, rawIndex := 5 } }

def indexedByR9 : X86Memory where
  base := { size := 8, rawIndex := 0 }
  index := { size := 8, rawIndex := 1, hireg := true }
  displacement := 16
  scale := 4

theorem atEbp_valid : atEbp.Valid where
  base := by decide
  baseSize := by decide
  segment := by decide
  index := by decide

theorem indexedByR9_valid : indexedByR9.Valid where
  base := by decide
  baseSize := by decide
  segment := by decide
  index := by decide

theorem encodes_memory_r9 :
    FaithfulReg 0x8b { size := 8, rawIndex := 2 } indexedByR9 ∧
      ¬ FaithfulExt 0xff 0 8 indexedByR9 := by
  constructor
  · exact ((encodes_memory_iff 0x8b (by decide) indexedByR9 indexedByR9_valid).1 _
      (by decide)).mpr ⟨by decide, by decide⟩
  · intro hFaithful
    have hLow := ((encodes_memory_iff 0xff (by decide) indexedByR9 indexedByR9_valid).2 0 8
      (by decide) (by decide)).mp hFaithful
    exact absurd hLow.2 (by decide)

/-- `mov [ebp], edx` comes out as `mov [eip + disp32], edx` without the
displacement, and `inc [rax + r9*4 + 16]` as `inc [rax + rcx*4 + 16]`. -/
theorem wrong_operands :
    (encodeOpcodeModRmReg 0x89 { size := 4, rawIndex := 2 } atEbp).bind
        (fun bytes => decode false (bytes ++ [1, 2, 3, 4])) =
      some ({ operandSize := 4, addressSize := 4, twoByte := false, opcode := 0x89, extension := 2,
              register := .gpr 2 4, memory := ⟨.instructionPointer, none, 0x04030201⟩ }, []) ∧
      (encodeOpcodeModRmExt 0xff 0 8 indexedByR9).bind (decode false) =
        some ({ operandSize := 8, addressSize := 8, twoByte := false, opcode := 0xff,
                extension := 0, register := .gpr 0 8,
                memory := ⟨.register 0, some (1, 4), 16⟩ }, []) ∧
      atEbp.Valid ∧ indexedByR9.Valid :=
  ⟨by decide, by decide, atEbp_valid, indexedByR9_valid⟩

end Gensim.BlockJIT.X86
