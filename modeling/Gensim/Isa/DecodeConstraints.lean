import Mathlib.Tactic
import Gensim.Isa.InstructionDescription

/-! What the decode constraints of an instruction denote.  The bit strings of an instruction
are compared with the conjunction of its constraints, over the words that they match. -/
namespace Gensim.Isa

/-! The words that an instruction description asks for. -/

/-- What a decode constraint asks of the value of its field. -/
def DecodeConstraint.Holds (constraint : DecodeConstraint) (value : BitVec 32) : Prop :=
  match constraint.type with
  | .equals => value = constraint.value
  | .bitwiseAnd => value &&& constraint.value = constraint.value
  | .bitwiseXor => value ^^^ constraint.value ≠ 0
  | .notEquals => value ≠ constraint.value

/-- The chunks of a format with the bits of a word that fall to each, from a bit position on. -/
def fieldsFrom (w : BitVec 32) :
    Nat → List InstructionFormatChunk → List (InstructionFormatChunk × BitVec 32)
  | _, [] => []
  | start, chunk :: chunks =>
      (chunk, BitPattern.field w start chunk.length) :: fieldsFrom w (start + chunk.length) chunks

def InstructionFormatDescription.fields (format : InstructionFormatDescription) (w : BitVec 32) :
    List (InstructionFormatChunk × BitVec 32) :=
  fieldsFrom w 0 format.chunks

/-- Every static chunk of the format has its value in the word. -/
def InstructionFormatDescription.StaticHold (format : InstructionFormatDescription)
    (w : BitVec 32) : Prop :=
  ∀ p ∈ format.fields w, p.1.isConstrained = true → p.2 = p.1.constrainedValue

/-- A constraint holds of the field it names. -/
def DecodeConstraint.HoldsIn (constraint : DecodeConstraint) (format : InstructionFormatDescription)
    (w : BitVec 32) : Prop :=
  ∀ p ∈ format.fields w, p.1.isConstrained = false → constraint.field = p.1.name →
    constraint.Holds p.2

/-- The static chunks hold, and every constraint of one of the constraint sets.  Without
constraint sets nothing more is asked. -/
def InstructionDescription.Describes (insn : InstructionDescription) (w : BitVec 32) : Prop :=
  insn.format.StaticHold w ∧
    (insn.decodeConstraints = [] ∨
      ∃ set ∈ insn.decodeConstraints, ∀ constraint ∈ set, constraint.HoldsIn insn.format w)

/-! The words that the code matches. -/

def InstructionDescription.Matches (insn : InstructionDescription) (w : BitVec 32) : Prop :=
  ∃ strings ∈ insn.getBitString, ∃ b ∈ strings, BitPattern.matchesFrom w 0 b = true

/-- The bit strings are computed and match exactly the words described. -/
def InstructionDescription.DenotesConjunctions (insn : InstructionDescription) : Prop :=
  insn.Returns ∧ ∀ w, insn.Matches w ↔ insn.Describes w

/-- What the parser of formats and the width of a word leave: a static value fits its chunk,
and the chunks fit into a word. -/
structure InstructionFormatDescription.WellFormed (format : InstructionFormatDescription) :
    Prop where
  static_fits : ∀ chunk ∈ format.chunks, chunk.isConstrained = true →
    chunk.constrainedValue.toNat < 2 ^ chunk.length
  length_le : format.getLength ≤ 32

/-! Fields of a word. -/

theorem fieldsFrom_append (w : BitVec 32) (start : Nat) (a b : List InstructionFormatChunk) :
    fieldsFrom w start (a ++ b) = fieldsFrom w start a ++ fieldsFrom w (start + (a.map (·.length)).sum) b := by
  induction a generalizing start with
  | nil => rfl
  | cons chunk a ih => simp only [List.cons_append, fieldsFrom, ih, List.map_cons, List.sum_cons, Nat.add_assoc]

/-! The values that `ConstrainChunk` lets through. -/

/-- Some constraint holds of the value, and no equality asks for a smaller one: the loop stops
at the first value that an equality asks for. -/
def Admits (constraints : List DecodeConstraint) (value : BitVec 32) : Prop :=
  (∃ constraint ∈ constraints, constraint.Holds value) ∧
    ∀ constraint ∈ constraints, constraint.type = .equals → value ≤ constraint.value

/-- The texts of a result, returned early or not. -/
def texts : Except (List BitString) (List BitString) → List BitString
  | .error output => output
  | .ok output => output

variable {value : BitVec 32} {constraint : DecodeConstraint}

theorem constrainValue_of_holds (hType : constraint.type ≠ .notEquals) (hHolds : constraint.Holds value) (len : Nat)
    (output : List BitString) : constrainValue len value output constraint =
      if constraint.type = .equals then .error (output ++ [Util.formatBinary value len])
      else .ok (output ++ [Util.formatBinary value len]) := by
  cases h : constraint.type <;> simp_all [constrainValue, DecodeConstraint.Holds]

theorem constrainValue_of_not_holds (hType : constraint.type ≠ .notEquals) (hHolds : ¬ constraint.Holds value)
    (len : Nat) (output : List BitString) : constrainValue len value output constraint = .ok output := by
  cases h : constraint.type <;> simp_all [constrainValue, DecodeConstraint.Holds]

theorem DecodeConstraint.holds_of_equals (hType : constraint.type = .equals) :
    constraint.Holds value ↔ value = constraint.value := by
  simp [DecodeConstraint.Holds, hType]

variable {constraints : List DecodeConstraint}

/-- One value is written once for each constraint that holds of it, and the loop is left exactly
where an equality holds. -/
theorem foldlM_constrainValue (len : Nat) (value : BitVec 32)
    (hTypes : ∀ constraint ∈ constraints, constraint.type ≠ .notEquals) (output : List BitString) :
    (∀ b, b ∈ texts (constraints.foldlM (constrainValue len value) output) ↔
      b ∈ output ∨ b = Util.formatBinary value len ∧ ∃ constraint ∈ constraints, constraint.Holds value) ∧
    ((∃ early, constraints.foldlM (constrainValue len value) output = .error early) ↔
      ∃ constraint ∈ constraints, constraint.type = .equals ∧ value = constraint.value) := by
  induction constraints generalizing output with
  | nil => simp [texts, pure, Except.pure]
  | cons constraint constraints ih =>
    have hOwn : constraint.type ≠ .notEquals := hTypes constraint List.mem_cons_self
    have hRest : ∀ c ∈ constraints, c.type ≠ .notEquals := fun c hMem => hTypes c (List.mem_cons_of_mem _ hMem)
    rw [List.foldlM_cons]
    by_cases hHolds : constraint.Holds value
    · rw [constrainValue_of_holds hOwn hHolds]
      by_cases hType : constraint.type = .equals
      · rw [if_pos hType]
        simp [bind, Except.bind, texts, hHolds, hType, ← DecodeConstraint.holds_of_equals hType]
      · rw [if_neg hType]
        obtain ⟨hTexts, hEarly⟩ := ih hRest (output ++ [Util.formatBinary value len])
        refine ⟨fun b => (hTexts b).trans ?_, hEarly.trans (by simp [hType])⟩
        simp only [List.mem_append, List.mem_cons, List.not_mem_nil, or_false, exists_eq_or_imp,
          hHolds, true_or, and_true]
        tauto
    · rw [constrainValue_of_not_holds hOwn hHolds]
      have hNot : ¬ (constraint.type = .equals ∧ value = constraint.value) :=
        fun h => hHolds ((DecodeConstraint.holds_of_equals h.1).mpr h.2)
      obtain ⟨hTexts, hEarly⟩ := ih hRest output
      exact ⟨fun b => (hTexts b).trans (by simp [hHolds]), hEarly.trans (by simp [hNot])⟩

/-- Going through the values in order, those up to the first that an equality asks for are
written if any constraint holds of them. -/
theorem mem_texts_foldlM (len : Nat) (hTypes : ∀ constraint ∈ constraints, constraint.type ≠ .notEquals)
    {values : List (BitVec 32)} (hSorted : values.Pairwise (· < ·)) (output : List BitString) (b : BitString) :
    b ∈ texts (values.foldlM (fun output value =>
        constraints.foldlM (constrainValue len value) output) output) ↔
      b ∈ output ∨ ∃ value ∈ values, b = Util.formatBinary value len ∧
        (∃ constraint ∈ constraints, constraint.Holds value) ∧
        ∀ constraint ∈ constraints, constraint.type = .equals → constraint.value ∈ values →
          value ≤ constraint.value := by
  induction values generalizing output with
  | nil => simp [texts, pure, Except.pure]
  | cons first values ih =>
    obtain ⟨hFirst, hSorted⟩ := List.pairwise_cons.mp hSorted
    obtain ⟨hTexts, hEarly⟩ := foldlM_constrainValue len first hTypes output
    have hLeast : ∀ value ∈ first :: values, first ≤ value := by
      intro value hMem
      rcases List.mem_cons.mp hMem with rfl | hLater
      · exact BitVec.le_refl _
      · exact BitVec.le_of_lt (hFirst value hLater)
    rw [List.foldlM_cons]
    cases hStep : constraints.foldlM (constrainValue len first) output with
    | error early =>
      rw [hStep] at hTexts
      obtain ⟨stop, hStop, hType, hEq⟩ := hEarly.mp ⟨early, hStep⟩
      refine (hTexts b).trans (or_congr_right ⟨fun h => ?_, ?_⟩)
      · exact ⟨first, List.mem_cons_self, h.1, h.2, fun c _ _ hMem => hLeast _ hMem⟩
      · rintro ⟨value, hMem, rfl, hHolds, hBound⟩
        -- the equality that stopped the loop bounds the value from above
        have hLe : value ≤ first := hEq ▸ hBound stop hStop hType (hEq ▸ List.mem_cons_self)
        obtain rfl := BitVec.le_antisymm hLe (hLeast value hMem)
        exact ⟨rfl, hHolds⟩
    | ok next =>
      rw [hStep] at hTexts
      have hNone : ∀ c ∈ constraints, c.type = .equals → c.value ≠ first := by
        intro c hMem hType hEq
        obtain ⟨early, hError⟩ := hEarly.mpr ⟨c, hMem, hType, hEq.symm⟩
        rw [hStep] at hError
        cases hError
      refine (ih hSorted next).trans ?_
      rw [show b ∈ next ↔ _ from hTexts b, or_assoc]
      refine or_congr_right ?_
      simp only [List.mem_cons, exists_eq_or_imp]
      refine or_congr ⟨fun h => ⟨h.1, h.2, fun c _ _ hMem => hLeast _ (List.mem_cons.mpr hMem)⟩,
        fun h => ⟨h.1, h.2.1⟩⟩ (exists_congr fun value => ?_)
      refine and_congr_right fun _ => and_congr_right fun _ => and_congr_right fun _ => ?_
      refine forall_congr' fun c => forall_congr' fun hMem => forall_congr' fun hType => ?_
      simp [hNone c hMem hType]

theorem constrainChunk_eq_texts (len : Nat) (constraints : List DecodeConstraint) :
    constrainChunk len constraints = texts (((List.range (2 ^ len)).map (BitVec.ofNat 32)).foldlM
      (fun output value => constraints.foldlM (constrainValue len value) output) []) := by
  rw [constrainChunk]
  split <;> simp [texts, *]

theorem mem_values {len : Nat} (hLen : len ≤ 32) (value : BitVec 32) :
    value ∈ (List.range (2 ^ len)).map (BitVec.ofNat 32) ↔ value.toNat < 2 ^ len := by
  have hPow : 2 ^ len ≤ 2 ^ 32 := Nat.pow_le_pow_right (by decide) hLen
  constructor
  · intro hMem
    obtain ⟨n, hn, rfl⟩ := List.mem_map.mp hMem
    have hn : n < 2 ^ len := List.mem_range.mp hn
    rwa [BitVec.toNat_ofNat, Nat.mod_eq_of_lt (by omega)]
  · intro hLt
    exact List.mem_map.mpr ⟨value.toNat, List.mem_range.mpr hLt, by simp⟩

theorem values_sorted {len : Nat} (hLen : len ≤ 32) :
    ((List.range (2 ^ len)).map (BitVec.ofNat 32)).Pairwise (· < ·) := by
  have hPow : 2 ^ len ≤ 2 ^ 32 := Nat.pow_le_pow_right (by decide) hLen
  refine List.pairwise_map.mpr (List.pairwise_lt_range.imp_of_mem ?_)
  intro a b ha hb hLt
  rw [List.mem_range] at ha hb
  rw [BitVec.lt_def, BitVec.toNat_ofNat, BitVec.toNat_ofNat, Nat.mod_eq_of_lt (by omega),
    Nat.mod_eq_of_lt (by omega)]
  exact hLt

theorem mem_constrainChunk {len : Nat} (hLen : len ≤ 32)
    (hTypes : ∀ constraint ∈ constraints, constraint.type ≠ .notEquals) (b : BitString) :
    b ∈ constrainChunk len constraints ↔ ∃ value : BitVec 32, value.toNat < 2 ^ len ∧
      b = BitPattern.constant len value ∧ Admits constraints value := by
  rw [constrainChunk_eq_texts, mem_texts_foldlM len hTypes (values_sorted hLen)]
  simp only [List.not_mem_nil, false_or, mem_values hLen, Util.formatBinary_eq hLen, Admits]
  refine exists_congr fun value => and_congr_right fun hLt => and_congr_right fun _ =>
    and_congr_right fun _ => forall_congr' fun c => forall_congr' fun _ => forall_congr' fun _ => ?_
  refine ⟨fun h => ?_, fun h _ => h⟩
  by_cases hFits : c.value.toNat < 2 ^ len
  · exact h hFits
  · rw [BitVec.le_def]
    omega

variable {w : BitVec 32}

theorem matches_constrainChunk {start len : Nat} (hRange : start + len ≤ 32)
    (hTypes : ∀ constraint ∈ constraints, constraint.type ≠ .notEquals) :
    (∃ b ∈ constrainChunk len constraints, BitPattern.matchesFrom w start b = true) ↔
      Admits constraints (BitPattern.field w start len) := by
  constructor
  · rintro ⟨b, hMem, hMatches⟩
    obtain ⟨value, hLt, rfl, hAdmits⟩ := (mem_constrainChunk (by omega) hTypes b).mp hMem
    rwa [(BitPattern.field_eq_iff hRange hLt).mpr hMatches]
  · intro hAdmits
    have hLt : (BitPattern.field w start len).toNat < 2 ^ len := BitPattern.field_lt (by omega)
    exact ⟨_, (mem_constrainChunk (by omega) hTypes _).mpr ⟨_, hLt, rfl, hAdmits⟩,
      (BitPattern.field_eq_iff hRange hLt).mp rfl⟩

/-! The words that one constraint set lets through. -/

/-- The value of a field, or of a static chunk, that some text of the chunk has. -/
def Accepts (set : List DecodeConstraint) (chunk : InstructionFormatChunk) (value : BitVec 32) :
    Prop :=
  if chunk.isConstrained then value = chunk.constrainedValue
  else (∃ constraint ∈ set, constraint.field = chunk.name) →
    Admits (set.filter fun constraint => constraint.field = chunk.name) value

variable {set : List DecodeConstraint}

theorem matches_chunkStrings {start : Nat} {chunk : InstructionFormatChunk} (hRange : start + chunk.length ≤ 32)
    (hStatic : chunk.isConstrained = true → chunk.constrainedValue.toNat < 2 ^ chunk.length)
    (hTypes : ∀ constraint ∈ set, constraint.type ≠ .notEquals) :
    (∃ b ∈ chunkStrings set chunk, BitPattern.matchesFrom w start b = true) ↔
      Accepts set chunk (BitPattern.field w start chunk.length) := by
  unfold chunkStrings Accepts
  split
  · rename_i hConstrained
    simp only [List.mem_singleton, exists_eq_left]
    rw [Util.formatBinary_eq (by omega), BitPattern.field_eq_iff hRange (hStatic hConstrained)]
  · dsimp only
    split
    · rename_i hEmpty
      have hNone : ¬ ∃ constraint ∈ set, constraint.field = chunk.name := by
        simpa [List.filter_eq_nil_iff] using hEmpty
      simp [hNone]
    · rename_i hSome
      have hNamed : ∃ constraint ∈ set, constraint.field = chunk.name := by simpa [List.filter_eq_nil_iff] using hSome
      rw [matches_constrainChunk hRange fun c hMem => hTypes c (List.mem_of_mem_filter hMem)]
      exact ⟨fun h _ => h, fun h => h hNamed⟩

theorem matches_permute {chunks : List InstructionFormatChunk} (hLength : (chunks.map (·.length)).sum ≤ 32)
    (hStatic : ∀ chunk ∈ chunks, chunk.isConstrained = true → chunk.constrainedValue.toNat < 2 ^ chunk.length)
    (hTypes : ∀ constraint ∈ set, constraint.type ≠ .notEquals) :
    (∃ b ∈ permute set chunks, BitPattern.matchesFrom w 0 b = true) ↔
      ∀ p ∈ fieldsFrom w 0 chunks, Accepts set p.1 p.2 := by
  induction chunks using List.reverseRecOn with
  | nil => simp [permute, fieldsFrom, BitPattern.matchesFrom]
  | append_singleton chunks chunk ih =>
    simp only [List.map_append, List.map_cons, List.map_nil, List.sum_append, List.sum_cons,
      List.sum_nil, Nat.add_zero] at hLength
    have ih := ih (by omega) fun c hMem => hStatic c (List.mem_append_left _ hMem)
    have hLast := matches_chunkStrings hLength
      (w := w) (hStatic chunk (List.mem_append_right _ List.mem_cons_self)) hTypes
    rw [fieldsFrom_append, List.forall_mem_append, ← ih]
    simp only [fieldsFrom, List.forall_mem_singleton, Nat.zero_add, ← hLast]
    rw [permute, List.foldl_append, List.foldl_cons, List.foldl_nil, ← permute]
    constructor
    · rintro ⟨b, hMem, hMatches⟩
      obtain ⟨before, hBefore, hAfter⟩ := List.mem_flatMap.mp hMem
      obtain ⟨text, hText, rfl⟩ := List.mem_map.mp hAfter
      rw [BitPattern.matchesFrom_append, Bool.and_eq_true, permute_length hBefore, Nat.zero_add] at hMatches
      exact ⟨⟨before, hBefore, hMatches.1⟩, text, hText, hMatches.2⟩
    · rintro ⟨⟨before, hBefore, hFirst⟩, text, hText, hSecond⟩
      refine ⟨before ++ text, List.mem_flatMap.mpr ⟨before, hBefore, List.mem_map.mpr ⟨text, hText, rfl⟩⟩, ?_⟩
      rw [BitPattern.matchesFrom_append, Bool.and_eq_true, permute_length hBefore, Nat.zero_add]
      exact ⟨hFirst, hSecond⟩

theorem matches_implicitBitString {start : Nat} {chunks : List InstructionFormatChunk}
    (hLength : start + (chunks.map (·.length)).sum ≤ 32)
    (hStatic : ∀ chunk ∈ chunks, chunk.isConstrained = true → chunk.constrainedValue.toNat < 2 ^ chunk.length) :
    BitPattern.matchesFrom w start (implicitBitString chunks) = true ↔
      ∀ p ∈ fieldsFrom w start chunks, p.1.isConstrained = true → p.2 = p.1.constrainedValue := by
  induction chunks generalizing start with
  | nil => simp [implicitBitString, fieldsFrom, BitPattern.matchesFrom]
  | cons chunk chunks ih =>
    rw [List.map_cons, List.sum_cons] at hLength
    have hStart : start + chunk.length ≤ 32 := by omega
    have hChunk : ∀ text : BitString, text.length = chunk.length →
        (BitPattern.matchesFrom w start (text ++ implicitBitString chunks) = true ↔
          BitPattern.matchesFrom w start text = true ∧ ∀ p ∈ fieldsFrom w (start + chunk.length) chunks,
            p.1.isConstrained = true → p.2 = p.1.constrainedValue) := by
      intro text hText
      rw [BitPattern.matchesFrom_append, Bool.and_eq_true, hText,
        ih (by omega) fun c hMem => hStatic c (List.mem_cons_of_mem _ hMem)]
    rw [implicitBitString, List.flatMap_cons, ← implicitBitString, fieldsFrom, List.forall_mem_cons]
    split
    · rename_i hConstrained
      rw [hChunk _ (Util.length_formatBinary _ _), Util.formatBinary_eq (by omega),
        ← BitPattern.field_eq_iff hStart (hStatic chunk List.mem_cons_self hConstrained)]
      simp [hConstrained]
    · rename_i hFree
      rw [hChunk _ List.length_replicate]
      simp [hFree]

theorem mem_foldl_append_reverse {α β : Type*} (f : α → List β) (xs : List α) (output : List β)
    (b : β) : b ∈ xs.foldl (fun output x => f x ++ output) output ↔ b ∈ output ∨ ∃ x ∈ xs, b ∈ f x := by
  induction xs generalizing output with
  | nil => simp
  | cons x xs ih =>
    rw [List.foldl_cons, ih]
    simp only [List.mem_append, List.exists_mem_cons_iff]
    tauto

section

variable {insn : InstructionDescription} (hFormat : insn.format.WellFormed)
  (hTypes : ∀ set ∈ insn.decodeConstraints, ∀ constraint ∈ set, constraint.type ≠ .notEquals)
  (hReturns : insn.Returns)
include hReturns

theorem matches_iff_bitStrings (w : BitVec 32) :
    insn.Matches w ↔ ∃ b ∈ insn.bitStrings, BitPattern.matchesFrom w 0 b = true := by
  simp [InstructionDescription.Matches, getBitString_of_returns hReturns]

include hFormat

theorem matches_of_no_constraints (hNone : insn.decodeConstraints = []) (w : BitVec 32) :
    insn.Matches w ↔ insn.format.StaticHold w := by
  have hLength := hFormat.length_le
  simp only [matches_iff_bitStrings hReturns, InstructionDescription.bitStrings, hNone,
    List.isEmpty_nil, if_true, List.mem_singleton, exists_eq_left]
  exact matches_implicitBitString (by simpa [InstructionFormatDescription.getLength] using hLength)
    hFormat.static_fits

include hTypes

theorem matches_iff_accepts (hSome : insn.decodeConstraints ≠ []) (w : BitVec 32) :
    insn.Matches w ↔ ∃ set ∈ insn.decodeConstraints, ∀ p ∈ insn.format.fields w, Accepts set p.1 p.2 := by
  have hEmpty : ¬ insn.decodeConstraints.isEmpty = true := by simpa using hSome
  simp only [matches_iff_bitStrings hReturns, InstructionDescription.bitStrings, if_neg hEmpty,
    mem_foldl_append_reverse, List.not_mem_nil, false_or]
  constructor
  · rintro ⟨b, ⟨set, hSet, hMem⟩, hMatches⟩
    exact ⟨set, hSet, (matches_permute hFormat.length_le hFormat.static_fits (hTypes set hSet)).mp ⟨b, hMem, hMatches⟩⟩
  · rintro ⟨set, hSet, hAccepts⟩
    obtain ⟨b, hMem, hMatches⟩ := (matches_permute hFormat.length_le hFormat.static_fits (hTypes set hSet)).mpr hAccepts
    exact ⟨b, ⟨set, hSet, hMem⟩, hMatches⟩

end

/-- A field under constraints of a set has a value that one of them holds of, and none of its
equalities asks for a smaller value. -/
def AdmittedBy (set : List DecodeConstraint) (format : InstructionFormatDescription)
    (w : BitVec 32) : Prop :=
  ∀ p ∈ format.fields w, p.1.isConstrained = false →
    (∃ constraint ∈ set, constraint.field = p.1.name) →
      (∃ constraint ∈ set, constraint.field = p.1.name ∧ constraint.Holds p.2) ∧
      ∀ constraint ∈ set, constraint.field = p.1.name → constraint.type = .equals →
        p.2 ≤ constraint.value

theorem accepts_iff_admittedBy (set : List DecodeConstraint) (format : InstructionFormatDescription)
    (w : BitVec 32) : (∀ p ∈ format.fields w, Accepts set p.1 p.2) ↔ format.StaticHold w ∧ AdmittedBy set format w := by
  rw [InstructionFormatDescription.StaticHold, AdmittedBy, ← forall₂_and]
  refine forall₂_congr fun p _ => ?_
  unfold Accepts
  cases p.1.isConstrained <;> simp [Admits, and_assoc]

/-- Where all constraints of a set hold, the set lets the word through. -/
theorem admittedBy_of_holdsIn {format : InstructionFormatDescription}
    (hHolds : ∀ constraint ∈ set, constraint.HoldsIn format w) : AdmittedBy set format w := by
  rintro p hField hFree ⟨constraint, hMem, hName⟩
  refine ⟨⟨constraint, hMem, hName, hHolds constraint hMem p hField hFree hName⟩, ?_⟩
  intro c hc hName hType
  have hValue := hHolds c hc p hField hFree hName
  rw [DecodeConstraint.holds_of_equals hType] at hValue
  exact hValue ▸ BitVec.le_refl _

/-- Whatever one set lets through, all the constraints of some set hold of. -/
def InstructionDescription.Conjunctive (insn : InstructionDescription) : Prop :=
  ∀ w, insn.format.StaticHold w → ∀ set ∈ insn.decodeConstraints, AdmittedBy set insn.format w →
    ∃ other ∈ insn.decodeConstraints, ∀ constraint ∈ other, constraint.HoldsIn insn.format w

/-- One constraint for each field of a set is enough. -/
theorem conjunctive_of_unique {insn : InstructionDescription}
    (hUnique : ∀ set ∈ insn.decodeConstraints, ∀ c ∈ set, ∀ d ∈ set, c.field = d.field → c = d) :
    insn.Conjunctive := by
  intro w _ set hSet hAdmitted
  refine ⟨set, hSet, fun c hc p hField hFree hName => ?_⟩
  obtain ⟨⟨d, hd, hField', hHolds⟩, _⟩ := hAdmitted p hField hFree ⟨c, hc, hName⟩
  rwa [hUnique set hSet c hc d hd (hName.trans hField'.symm)]

/-- The bit strings of an instruction denote the conjunctions of its constraints exactly if no
constrained field is too wide to go through, and what satisfies one constraint of each field, and
stays below its equalities, satisfies them all. -/
theorem denotesConjunctions_iff (insn : InstructionDescription) (hFormat : insn.format.WellFormed)
    (hTypes : ∀ set ∈ insn.decodeConstraints, ∀ constraint ∈ set, constraint.type ≠ .notEquals) :
    insn.DenotesConjunctions ↔ insn.Returns ∧ insn.Conjunctive := by
  refine and_congr_right fun hReturns => ?_
  by_cases hNone : insn.decodeConstraints = []
  · simp [matches_of_no_constraints hFormat hReturns hNone, InstructionDescription.Describes,
      InstructionDescription.Conjunctive, hNone]
  · simp only [matches_iff_accepts hFormat hTypes hReturns hNone, accepts_iff_admittedBy,
      InstructionDescription.Describes, hNone, false_or]
    constructor
    · intro h w hStatic set hSet hAdmitted
      exact ((h w).mp ⟨set, hSet, hStatic, hAdmitted⟩).2
    · intro hConjunctive w
      constructor
      · rintro ⟨set, hSet, hStatic, hAdmitted⟩
        exact ⟨hStatic, hConjunctive w hStatic set hSet hAdmitted⟩
      · rintro ⟨hStatic, set, hSet, hHolds⟩
        exact ⟨set, hSet, hStatic, admittedBy_of_holdsIn hHolds⟩

/-- A static chunk, and a field that must have its low bit set and must not be 3. -/
def oddNotThree : InstructionDescription where
  format := ⟨[⟨"Static Constrainment", true, 30, 5⟩, ⟨"op", false, 2, 0⟩]⟩
  decodeConstraints := [[⟨"op", .bitwiseAnd, 1⟩, ⟨"op", .bitwiseXor, 3⟩]]

/-- The same with its two constraints in sets of their own. -/
def oddOrNotThree : InstructionDescription where
  format := oddNotThree.format
  decodeConstraints := [[⟨"op", .bitwiseAnd, 1⟩], [⟨"op", .bitwiseXor, 3⟩]]

theorem oddNotThree_wellFormed : oddNotThree.format.WellFormed := ⟨by decide, by decide⟩

theorem denotesConjunctions_iff_oddOrNotThree : oddOrNotThree.DenotesConjunctions :=
  (denotesConjunctions_iff oddOrNotThree oddNotThree_wellFormed (by decide)).mpr
    ⟨by decide, conjunctive_of_unique (by decide)⟩

/-- The word whose field is 0 is matched: 0 is not 3, and that its low bit is clear is not looked
at any more. -/
theorem unsatisfied_constraint_matched :
    oddNotThree.Matches 20 ∧ ¬ oddNotThree.Describes 20 := by
  constructor
  · exact ⟨_, rfl, BitPattern.constant 32 (20 : BitVec 32), by decide, by decide⟩
  · rintro ⟨_, hNone | ⟨set, hSet, hHolds⟩⟩
    · cases hNone
    · obtain rfl := List.mem_singleton.mp hSet
      have hLow := hHolds _ List.mem_cons_self (⟨"op", false, 2, 0⟩, 0) (by decide) rfl rfl
      exact absurd hLow (by unfold DecodeConstraint.Holds; decide)

end Gensim.Isa
