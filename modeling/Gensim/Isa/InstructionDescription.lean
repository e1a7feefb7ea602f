import Mathlib.Tactic
import Gensim.Util

/-! Instruction descriptions: the chunks of an instruction format, the decode constraints
placed on them and the bit strings that result. -/
namespace Gensim.Isa

structure InstructionFormatChunk where
  name : String
  isConstrained : Bool
  length : Nat
  constrainedValue : BitVec 32
deriving DecidableEq, Repr

structure InstructionFormatDescription where
  chunks : List InstructionFormatChunk
deriving DecidableEq, Repr

def InstructionFormatDescription.getLength (format : InstructionFormatDescription) : Nat :=
  (format.chunks.map (·.length)).sum

inductive ConstraintType
  | equals
  | bitwiseAnd
  | bitwiseXor
  | notEquals
deriving DecidableEq, Repr

structure DecodeConstraint where
  field : String
  type : ConstraintType
  value : BitVec 32
deriving DecidableEq, Repr

structure InstructionDescription where
  format : InstructionFormatDescription
  decodeConstraints : List (List DecodeConstraint)
deriving DecidableEq, Repr

abbrev BitString := List BitChar

/-- What one constraint adds for a candidate value.  An error is an early `return`. -/
def constrainValue (chunkLength : Nat) (value : BitVec 32) (output : List BitString)
    (constraint : DecodeConstraint) : Except (List BitString) (List BitString) :=
  match constraint.type with
  | .equals =>
      if value = constraint.value then .error (output ++ [Util.formatBinary value chunkLength])
      else .ok output
  | .bitwiseAnd =>
      if value &&& constraint.value = constraint.value then
        .ok (output ++ [Util.formatBinary value chunkLength])
      else .ok output
  | .bitwiseXor =>
      if value ^^^ constraint.value ≠ 0 then
        .ok (output ++ [Util.formatBinary value chunkLength])
      else .ok output
  | .notEquals => .error [List.replicate chunkLength .any]

/-- The values of a chunk of less than 31 bits; a wider one makes `ConstrainChunk` throw, see
`InstructionDescription.Returns`. -/
def constrainChunk (chunkLength : Nat) (constraints : List DecodeConstraint) : List BitString :=
  let values := (List.range (2 ^ chunkLength)).map (BitVec.ofNat 32)
  match values.foldlM (fun output value =>
      constraints.foldlM (constrainValue chunkLength value) output) [] with
  | .error output => output
  | .ok output => output

/-- The possible texts of one chunk under a set of decode constraints. -/
def chunkStrings (constraintSet : List DecodeConstraint) (chunk : InstructionFormatChunk) :
    List BitString :=
  if chunk.isConstrained then [Util.formatBinary chunk.constrainedValue chunk.length]
  else
    let constraints := constraintSet.filter fun constraint => constraint.field = chunk.name
    if constraints.isEmpty then [List.replicate chunk.length .any]
    else constrainChunk chunk.length constraints

/-- Every way of choosing one text for each chunk. -/
def permute (constraintSet : List DecodeConstraint) (chunks : List InstructionFormatChunk) :
    List BitString :=
  chunks.foldl (fun bitStrings chunk =>
    bitStrings.flatMap fun before => (chunkStrings constraintSet chunk).map (before ++ ·)) [[]]

def implicitBitString (chunks : List InstructionFormatChunk) : BitString :=
  chunks.flatMap fun chunk =>
    if chunk.isConstrained then Util.formatBinary chunk.constrainedValue chunk.length
    else List.replicate chunk.length .any

/-- The member `bitStrings` as the sets of constraints leave it. -/
def InstructionDescription.bitStrings (insn : InstructionDescription) : List BitString :=
  if insn.decodeConstraints.isEmpty then [implicitBitString insn.format.chunks]
  else
    insn.decodeConstraints.foldl
      (fun bitStrings constraintSet => permute constraintSet insn.format.chunks ++ bitStrings) []

/-- `1 << chunk_length` is an `int`, so that `ConstrainChunk` reserves a negative number of
values for a field of 31 bits or more and throws. -/
def InstructionDescription.Returns (insn : InstructionDescription) : Prop :=
  ∀ set ∈ insn.decodeConstraints, ∀ chunk ∈ insn.format.chunks, chunk.isConstrained = false →
    ∀ constraint ∈ set, constraint.field = chunk.name → chunk.length < 31

instance (insn : InstructionDescription) : Decidable insn.Returns := by
  unfold InstructionDescription.Returns
  infer_instance

/-- There is no result where `ConstrainChunk` throws. -/
def InstructionDescription.getBitString (insn : InstructionDescription) : Option (List BitString) :=
  if insn.Returns then some insn.bitStrings else none

theorem getBitString_of_returns {insn : InstructionDescription} (h : insn.Returns) :
    insn.getBitString = some insn.bitStrings :=
  if_pos h

/-! Every bit string is as long as the format. -/

/-- All texts of a result, returned early or not, have the given length. -/
def AllOfLength (len : Nat) : Except (List BitString) (List BitString) → Prop
  | .error output => ∀ b ∈ output, b.length = len
  | .ok output => ∀ b ∈ output, b.length = len

theorem foldlM_allOfLength {α : Type*} {len : Nat}
    {step : List BitString → α → Except (List BitString) (List BitString)}
    (hStep : ∀ output a, AllOfLength len (.ok output) → AllOfLength len (step output a))
    (xs : List α) (output : List BitString) (hOutput : AllOfLength len (.ok output)) :
    AllOfLength len (xs.foldlM step output) := by
  induction xs generalizing output with
  | nil => exact hOutput
  | cons a xs ih =>
    have hFirst := hStep output a hOutput
    rw [List.foldlM_cons]
    cases hResult : step output a with
    | error early => rwa [hResult] at hFirst
    | ok next =>
      rw [hResult] at hFirst
      exact ih next hFirst

theorem constrainValue_length (len : Nat) (value : BitVec 32) (output : List BitString)
    (constraint : DecodeConstraint) (hOutput : AllOfLength len (.ok output)) :
    AllOfLength len (constrainValue len value output constraint) := by
  have hAdded : ∀ b ∈ output ++ [Util.formatBinary value len], b.length = len := by
    intro b hMem
    rcases List.mem_append.mp hMem with hOld | hNew
    · exact hOutput b hOld
    · rw [List.mem_singleton.mp hNew, Util.length_formatBinary]
  have hEither : ∀ (p : Prop) [Decidable p], AllOfLength len
      (if p then .ok (output ++ [Util.formatBinary value len]) else .ok output) := by
    intro p _
    split
    · exact hAdded
    · exact hOutput
  unfold constrainValue
  split
  · split
    · exact hAdded
    · exact hOutput
  · exact hEither _
  · exact hEither _
  · simp [AllOfLength]

theorem constrainChunk_length {len : Nat} {constraints : List DecodeConstraint} {b : BitString}
    (hMem : b ∈ constrainChunk len constraints) : b.length = len := by
  have hAll := foldlM_allOfLength (fun output value (hOutput : AllOfLength len (.ok output)) => foldlM_allOfLength
      (fun output constraint h => constrainValue_length len value output constraint h) constraints output hOutput)
    ((List.range (2 ^ len)).map (BitVec.ofNat 32)) [] (fun b h => absurd h (List.not_mem_nil))
  simp only [constrainChunk] at hMem
  split at hMem
  · rename_i output hOutput
    rw [hOutput] at hAll
    exact hAll b hMem
  · rename_i output hOutput
    rw [hOutput] at hAll
    exact hAll b hMem

theorem chunkStrings_length {constraintSet : List DecodeConstraint} {chunk : InstructionFormatChunk} {b : BitString}
    (hMem : b ∈ chunkStrings constraintSet chunk) : b.length = chunk.length := by
  unfold chunkStrings at hMem
  split at hMem
  · rw [List.mem_singleton.mp hMem, Util.length_formatBinary]
  · dsimp only at hMem
    split at hMem
    · rw [List.mem_singleton.mp hMem, List.length_replicate]
    · exact constrainChunk_length hMem

theorem permute_length {constraintSet : List DecodeConstraint} {chunks : List InstructionFormatChunk} {b : BitString}
    (hMem : b ∈ permute constraintSet chunks) : b.length = (chunks.map (·.length)).sum := by
  induction chunks using List.reverseRecOn generalizing b with
  | nil => simp_all [permute]
  | append_singleton chunks chunk ih =>
    rw [permute, List.foldl_append, List.foldl_cons, List.foldl_nil, ← permute] at hMem
    obtain ⟨before, hBefore, hAfter⟩ := List.mem_flatMap.mp hMem
    obtain ⟨text, hText, rfl⟩ := List.mem_map.mp hAfter
    simp [ih hBefore, chunkStrings_length hText]

theorem implicitBitString_length (chunks : List InstructionFormatChunk) :
    (implicitBitString chunks).length = (chunks.map (·.length)).sum := by
  induction chunks with
  | nil => rfl
  | cons chunk chunks ih =>
    rw [implicitBitString, List.flatMap_cons, List.length_append, ← implicitBitString, ih]
    split <;> simp [Util.length_formatBinary]

theorem bitStrings_length {insn : InstructionDescription} {b : BitString}
    (hMem : b ∈ insn.bitStrings) : b.length = insn.format.getLength := by
  unfold InstructionDescription.bitStrings at hMem
  split at hMem
  · rw [List.mem_singleton.mp hMem, implicitBitString_length]
    rfl
  · suffices h : ∀ (sets : List (List DecodeConstraint)) (output : List BitString),
        (∀ c ∈ output, c.length = insn.format.getLength) →
        ∀ c ∈ sets.foldl (fun bitStrings set => permute set insn.format.chunks ++ bitStrings) output,
          c.length = insn.format.getLength from h _ [] (by simp) b hMem
    intro sets
    induction sets with
    | nil => exact fun _ hOutput => hOutput
    | cons set sets ih =>
      intro output hOutput
      apply ih
      intro c hc
      rcases List.mem_append.mp hc with hNew | hOld
      · exact permute_length hNew
      · exact hOutput c hOld

end Gensim.Isa
