import Gensim.Arch.ARMDecodeContext
import Gensim.Lib.Operations

/-! The blocks of conditional instructions behind the IT instructions of a Thumb stream. -/
namespace Gensim.Arch.ITBlocks

open ARMDecodeContext Operations

/-- An instruction that was decoded in Thumb mode. -/
def Thumb : Type := { decode : Decode // decode.isaMode ≠ 0 }

namespace Thumb

variable (insn : Thumb)

/-- The state of the decode context after an instruction. -/
def next (itstate : ITState) : ITState := ARMDecodeContext.next insn.val itstate insn.val.isaMode

/-- The instruction as the decode context leaves it. -/
def decoded (itstate : ITState) : Decode := (decodeSync insn.val itstate insn.val.isaMode).1

/-- A 16-bit instruction `0xbfXY`. -/
def bits : Option ITState := itBits insn.val insn.val.isaMode

/-- An IT instruction has a mask. Without one, the instruction is a hint. -/
def isIT : Bool := insn.bits.any (· &&& 0xf != 0)

end Thumb

/-- What `ARMDecodeTranslateContext::Translate` stores to ITSTATE. -/
def translate (insn : Decode) : Option ITState :=
  if insn.isaMode ≠ 0 then
    insn.predicate.map fun info =>
      let itstate : ITState := info.setWidth 8
      let mask := ((itstate &&& 0x1f) <<< 1) &&& 0x1f
      if mask = 0x10 then 0 else (itstate &&& 0xe0) ||| mask
  else none

/-! ### The rules of the architecture -/

/-- `ITAdvance`. -/
def itAdvance (itstate : ITState) : ITState :=
  if itstate &&& 7 = 0 then 0 else (itstate &&& 0xe0) ||| (((itstate &&& 0x1f) <<< 1) &&& 0x1f)

/-- The number of instructions that a mask is for, by its lowest bit. -/
def blockLength (bits : ITState) : Nat :=
  if bits.getLsbD 0 then 4 else if bits.getLsbD 1 then 3 else if bits.getLsbD 2 then 2 else 1

/-- The instruction behind the given ones is in the block of the last IT instruction, with this state. -/
def InBlock (before : List Thumb) (itstate : ITState) : Prop :=
  ∃ earlier it bits after, before = earlier ++ it :: after ∧ it.bits = some bits ∧ it.isIT = true ∧
    (∀ insn ∈ after, insn.isIT = false) ∧ after.length < blockLength bits ∧ itstate = itAdvance^[after.length] bits

/-- The state of the decode context after some instructions. -/
def itstateAfter (before : List Thumb) : ITState := before.foldl (fun itstate insn => insn.next itstate) 0

/-- What is to hold of an instruction behind others. -/
structure Tracked (before : List Thumb) (insn : Thumb) : Prop where
  /-- It is predicated just if it is in a block, with the state of its position there. -/
  marks : ∀ info, (insn.decoded (itstateAfter before)).predicate = some info ↔
    ∃ itstate, InBlock before itstate ∧ info = itstate.setWidth 32
  /-- The state after it is the one for the next instruction. -/
  advances : ∀ itstate, itstate ≠ 0 → (itstateAfter (before ++ [insn]) = itstate ↔ InBlock (before ++ [insn]) itstate)
  /-- A state that its translation stores is the state after it. -/
  writes : ∀ itstate, translate (insn.decoded (itstateAfter before)) = some itstate →
    itstate = itstateAfter (before ++ [insn])

/-- The state for the instruction behind the given ones. -/
def expected (before : List Thumb) : ITState :=
  before.foldl (fun itstate insn => if insn.isIT then insn.bits.getD 0 else itAdvance itstate) 0

/-- A hint may stand only where its bits are what the state becomes, and an IT instruction outside of blocks
or with such bits. -/
def Placed (before : List Thumb) (insn : Thumb) : Prop :=
  ∀ bits, insn.bits = some bits → bits = itAdvance (expected before) ∨ insn.isIT = true ∧ expected before = 0

/-! ### Positions in a block -/

variable {before : List Thumb} {insn : Thumb} {itstate bits : ITState}

theorem isIT_iff : insn.isIT = true ↔ ∃ bits, insn.bits = some bits ∧ bits &&& 0xf ≠ 0 := by
  cases hBits : insn.bits with
  | none => simp [Thumb.isIT, hBits]
  | some bits => simp [Thumb.isIT, hBits]

theorem expected_append (before : List Thumb) (insn : Thumb) :
    expected (before ++ [insn]) = if insn.isIT then insn.bits.getD 0 else itAdvance (expected before) := by
  rw [expected, List.foldl_append]
  rfl

theorem itstateAfter_append (before : List Thumb) (insn : Thumb) :
    itstateAfter (before ++ [insn]) = insn.next (itstateAfter before) := by
  rw [itstateAfter, List.foldl_append]
  rfl

theorem iterate_itAdvance_ne_zero (hMask : bits &&& 0xf ≠ 0) {n : Nat} (hn : n < blockLength bits) :
    itAdvance^[n] bits ≠ 0 := by
  have hLength : blockLength bits ≤ 4 := by
    simp only [blockLength]
    split_ifs <;> decide
  have hAll : ∀ bits : ITState, bits &&& 0xf ≠ 0 → ∀ n : Fin 4, n.val < blockLength bits → itAdvance^[n] bits ≠ 0 := by
    decide
  exact hAll bits hMask ⟨n, by omega⟩ hn

theorem iterate_itAdvance_blockLength : ∀ bits : ITState, bits &&& 0xf ≠ 0 → itAdvance^[blockLength bits] bits = 0 := by
  decide

theorem expected_of_inBlock (hBlock : InBlock before itstate) : expected before = itstate ∧ itstate ≠ 0 := by
  obtain ⟨earlier, it, bits, after, rfl, hBits, hIt, hAfter, hLength, rfl⟩ := hBlock
  obtain ⟨_, hSame, hMask⟩ := isIT_iff.mp hIt
  obtain rfl := Option.some.inj (hBits.symm.trans hSame)
  refine ⟨?_, iterate_itAdvance_ne_zero hMask hLength⟩
  clear hLength
  induction after using List.reverseRecOn with
  | nil => simp [expected_append, hIt, hBits]
  | append_singleton after insn ih =>
    rw [← List.cons_append, ← List.append_assoc, expected_append, hAfter insn (by simp), if_neg (by decide),
      ih fun other hMem => hAfter other (List.mem_append_left _ hMem), List.length_append]
    exact (Function.iterate_succ_apply' itAdvance after.length bits).symm

theorem inBlock_expected (hBlock : expected before ≠ 0) : InBlock before (expected before) := by
  induction before using List.reverseRecOn with
  | nil => exact absurd rfl hBlock
  | append_singleton before insn ih =>
    rw [expected_append] at hBlock ⊢
    cases hIt : insn.isIT with
    | true =>
      obtain ⟨bits, hBits, hMask⟩ := isIT_iff.mp hIt
      refine ⟨before, insn, bits, [], rfl, hBits, hIt, by simp, ?_, by simp [hBits]⟩
      rw [List.length_nil, blockLength]
      split_ifs <;> decide
    | false =>
      rw [hIt, if_neg (by decide)] at hBlock
      have hNe : expected before ≠ 0 := fun h => hBlock (by rw [h]; rfl)
      obtain ⟨earlier, it, bits, after, rfl, hBits, hFirst, hAfter, hLength, hState⟩ := ih hNe
      have hNext : itAdvance^[after.length + 1] bits = itAdvance (expected (earlier ++ it :: after)) := by
        rw [Function.iterate_succ_apply', ← hState]
      have hMore : after.length + 1 ≠ blockLength bits := by
        intro hEnd
        obtain ⟨_, hSame, hMask⟩ := isIT_iff.mp hFirst
        obtain rfl := Option.some.inj (hBits.symm.trans hSame)
        rw [hEnd, iterate_itAdvance_blockLength bits hMask] at hNext
        exact hBlock hNext.symm
      refine ⟨earlier, it, bits, after ++ [insn], by simp, hBits, hFirst, ?_, ?_, ?_⟩
      · intro other hMem
        obtain hMem | hMem := List.mem_append.mp hMem
        · exact hAfter other hMem
        · rwa [List.mem_singleton.mp hMem]
      · rw [List.length_append, List.length_singleton]
        omega
      · rw [List.length_append, List.length_singleton, hNext]
        rfl

/-- The state is that of a block, or 0 outside of the blocks. -/
theorem inBlock_iff : InBlock before itstate ↔ expected before = itstate ∧ itstate ≠ 0 := by
  constructor
  · exact expected_of_inBlock
  · rintro ⟨rfl, hNe⟩
    exact inBlock_expected hNe

/-! ### The contexts -/

/-- On the states of blocks the contexts advance as the architecture has it. -/
theorem advance_expected (before : List Thumb) : ITState.advance (expected before) = itAdvance (expected before) := by
  have hAdvance : ∀ itstate : ITState, itstate = 0 ∨ itstate &&& 0xf ≠ 0 → itstate.advance = itAdvance itstate := by
    decide
  have hKeep : ∀ itstate : ITState, itstate = 0 ∨ itstate &&& 0xf ≠ 0 →
      itAdvance itstate = 0 ∨ itAdvance itstate &&& 0xf ≠ 0 := by decide
  refine hAdvance _ ?_
  induction before using List.reverseRecOn with
  | nil => exact .inl rfl
  | append_singleton before insn ih =>
    rw [expected_append]
    cases hIt : insn.isIT with
    | true =>
      obtain ⟨bits, hBits, hMask⟩ := isIT_iff.mp hIt
      rw [if_pos rfl, hBits]
      exact .inr hMask
    | false => exact hKeep _ ih

theorem next_eq (insn : Thumb) (itstate : ITState) : insn.next itstate = insn.bits.getD itstate.advance := by
  have hZero : (if itstate = 0 then 0 else itstate.advance) = itstate.advance := by
    split_ifs with hZero
    · rw [hZero]
      rfl
    · rfl
  rw [Thumb.next, ARMDecodeContext.next, hZero]
  rfl

theorem predicate_decoded (insn : Thumb) (itstate : ITState) :
    (insn.decoded itstate).predicate = if itstate = 0 then none else some (itstate.setWidth 32) := by
  simp [Thumb.decoded, decodeSync, predicate, insn.property]

theorem translate_decoded (insn : Thumb) (itstate : ITState) :
    translate (insn.decoded itstate) = if itstate = 0 then none else some itstate.advance := by
  have hSame : ∀ itstate : ITState,
      (let narrow := (itstate.setWidth 32).setWidth 8
       let mask := ((narrow &&& 0x1f) <<< 1) &&& 0x1f
       if mask = 0x10 then (0 : ITState) else (narrow &&& 0xe0) ||| mask) = itstate.advance := by decide
  have hMode : (insn.decoded itstate).isaMode ≠ 0 := insn.property
  rw [translate, if_pos hMode, predicate_decoded]
  split_ifs
  · rfl
  · exact congrArg some (hSame itstate)

/-- The states after an instruction agree just if the instruction is tracked there. -/
theorem advances_iff : (∀ itstate, itstate ≠ 0 →
    (itstateAfter before = itstate ↔ InBlock before itstate)) ↔ itstateAfter before = expected before := by
  constructor
  · intro hAll
    by_cases hZero : itstateAfter before = 0
    · by_contra hNe
      have hBlock : expected before ≠ 0 := fun h => hNe (hZero.trans h.symm)
      exact hNe ((hAll _ hBlock).mpr (inBlock_expected hBlock))
    · exact (inBlock_iff.mp ((hAll _ hZero).mp rfl)).1.symm
  · intro hAgree itstate hNe
    rw [inBlock_iff, hAgree, and_iff_left hNe]

theorem Tracked.agree (hTracked : Tracked before insn) :
    itstateAfter (before ++ [insn]) = expected (before ++ [insn]) :=
  advances_iff.mp hTracked.advances

/-- Where the decode context has had the right state so far, an instruction is tracked just if it is placed as
it must be. -/
theorem tracked_iff (hAgree : itstateAfter before = expected before) : Tracked before insn ↔ Placed before insn := by
  have hMarks : ∀ info, (insn.decoded (itstateAfter before)).predicate = some info ↔
      ∃ itstate, InBlock before itstate ∧ info = itstate.setWidth 32 := by
    intro info
    simp only [predicate_decoded, hAgree, inBlock_iff]
    by_cases hZero : expected before = 0
    · simp [hZero]
    · simp [eq_comm]
  have hAfter : itstateAfter (before ++ [insn]) = insn.bits.getD (itAdvance (expected before)) := by
    rw [itstateAfter_append, next_eq, hAgree, advance_expected]
  have hWrites : (∀ itstate, translate (insn.decoded (itstateAfter before)) = some itstate →
      itstate = itstateAfter (before ++ [insn])) ↔
      (expected before ≠ 0 → itAdvance (expected before) = insn.bits.getD (itAdvance (expected before))) := by
    rw [translate_decoded, hAgree, advance_expected, hAfter]
    by_cases hZero : expected before = 0
    · simp [hZero]
    · simp
  have hTracked : Tracked before insn ↔ itstateAfter (before ++ [insn]) = expected (before ++ [insn]) ∧
      (expected before ≠ 0 → itAdvance (expected before) = insn.bits.getD (itAdvance (expected before))) := by
    rw [← advances_iff, ← hWrites]
    exact ⟨fun h => ⟨h.advances, h.writes⟩, fun h => ⟨hMarks, h.1, h.2⟩⟩
  rw [hTracked, hAfter, expected_append, Placed]
  cases hBits : insn.bits with
  | none => simp [Thumb.isIT, hBits]
  | some bits =>
    cases hIt : insn.isIT with
    | true => simp [or_iff_not_imp_right, eq_comm]
    | false => simp +contextual [eq_comm]

/-- Of every Thumb stream, the instructions are tracked along the stream exactly if each hint and each IT
instruction is where it leaves the state that the architecture has. -/
theorem tracked_iff_placed (stream : List Thumb) :
    Throughout (fun before insn => before ++ [insn]) Tracked [] stream ↔
      Throughout (fun before insn => before ++ [insn]) Placed [] stream :=
  throughout_congr (fun before => itstateAfter before = expected before)
    (fun _ _ hAgree => tracked_iff hAgree) (fun _ _ _ hTracked => hTracked.agree) rfl stream

/-- A 16-bit instruction. -/
def narrow (code : BitVec 32) : Thumb := ⟨⟨0, code <<< 16, 2, false, 1, none⟩, Nat.one_ne_zero⟩

/-- After a WFE every instruction is predicated, and a NOP ends the block of two that it is in. -/
theorem hints_not_tracked :
    (narrow 0x4408).decoded (itstateAfter [narrow 0xbf20, narrow 0x4408]) =
        { (narrow 0x4408).val with predicate := some 0x20 } ∧
      ¬ Throughout (fun before insn => before ++ [insn]) Tracked [] [narrow 0xbf20, narrow 0x4408] ∧
      ¬ Throughout (fun before insn => before ++ [insn]) Tracked [] [narrow 0xbf04, narrow 0xbf00] := by
  refine ⟨by decide, ?_, ?_⟩
  · rintro ⟨hTracked, -⟩
    exact absurd hTracked.agree (by decide)
  · rintro ⟨-, hTracked, -⟩
    exact absurd hTracked.agree (by decide)

end Gensim.Arch.ITBlocks
