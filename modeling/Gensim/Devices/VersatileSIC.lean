import Gensim.Lib.Operations

/-! The secondary interrupt controller of the Versatile board. -/
namespace Gensim.Devices

open Operations

/-- The registers of the controller. -/
inductive SICRegister where
  | status | rawstat | enable | enclr | softintset | softintclr | picenable | picenclr
  deriving DecidableEq

namespace SICRegister

def offset : SICRegister → Nat
  | status => 0x00
  | rawstat => 0x04
  | enable => 0x08
  | enclr => 0x0c
  | softintset => 0x10
  | softintclr => 0x14
  | picenable => 0x20
  | picenclr => 0x24

/-- `GetRegister` -/
def at? (off : Nat) : Option SICRegister :=
  [status, rawstat, enable, enclr, softintset, softintclr, picenable, picenclr].find? (·.offset = off)

end SICRegister

/-- The registers and the levels of the lines, and whether the line to the parent is asserted. -/
structure VersatileSIC where
  registers : SICRegister → BitVec 32
  lines : Fin 32 → Bool
  irqLine : Bool

namespace VersatileSIC

def new : VersatileSIC where
  registers _ := 0
  lines _ := false
  irqLine := false

variable (sic : VersatileSIC)

/-- `MemoryRegister::Write`: the registers are made with a width of 31. -/
def writeMasked (reg : SICRegister) (value : BitVec 32) : VersatileSIC :=
  { sic with registers := Function.update sic.registers reg (value &&& ((1 <<< 31) - 1)) }

def writeRegister (reg : SICRegister) (value : BitVec 32) : VersatileSIC :=
  match reg with
  | .enable => sic.writeMasked .enable (sic.registers .enable ||| value)
  | .enclr => sic.writeMasked .enable (sic.registers .enable &&& ~~~value)
  | reg => sic.writeMasked reg value

/-- There is no change where no register is. -/
def write (off : Nat) (data : BitVec 64) : VersatileSIC :=
  match SICRegister.at? off with
  | none => sic
  | some reg => sic.writeRegister reg (data.setWidth 32)

/-- The loop in `UpdateParentState`. -/
def haveAssertedLines : Bool :=
  (List.finRange 32).foldl (fun have_ i => have_ || (sic.lines i && (sic.registers .enable).getLsbD i)) false

def updateParentState : VersatileSIC :=
  if sic.haveAssertedLines && !sic.irqLine then { sic with irqLine := true }
  else if !sic.haveAssertedLines && sic.irqLine then { sic with irqLine := false }
  else sic

def assertLine (line : Fin 32) : VersatileSIC :=
  { sic with lines := Function.update sic.lines line true }.updateParentState

def rescindLine (line : Fin 32) : VersatileSIC :=
  { sic with lines := Function.update sic.lines line false }.updateParentState

inductive Operation where
  | assertLine (line : Fin 32)
  | rescindLine (line : Fin 32)
  | write (off : Nat) (data : BitVec 64)

def perform : Operation → VersatileSIC
  | .assertLine line => sic.assertLine line
  | .rescindLine line => sic.rescindLine line
  | .write off data => sic.write off data

/-- Some asserted line is enabled. -/
def IsDue : Prop := ∃ i, sic.lines i = true ∧ (sic.registers .enable).getLsbD i = true

/-- The line to the parent follows the lines and the register that enables them. -/
def Follows : Prop := sic.irqLine = true ↔ sic.IsDue

/-- No write to ENABLE enables the first asserted line (line 31 is never enabled), and none to ENCLR disables
the last one. -/
def KeepsDue (sic : VersatileSIC) : Operation → Prop
  | .write off data =>
      match SICRegister.at? off with
      | some .enable => (∃ i : Fin 32, i.val < 31 ∧ sic.lines i = true ∧ data.getLsbD i = true) → sic.IsDue
      | some .enclr =>
          sic.IsDue →
            ∃ i, sic.lines i = true ∧ (sic.registers .enable).getLsbD i = true ∧ data.getLsbD i = false
      | _ => True
  | _ => True

/-- The register that enables the lines has 31 bits. -/
def IsMasked : Prop := (sic.registers .enable).getLsbD 31 = false

variable {sic}

theorem haveAssertedLines_iff : sic.haveAssertedLines = true ↔ sic.IsDue := by
  have hLoop (lines : List (Fin 32)) (start : Bool) :
      lines.foldl (fun have_ i => have_ || (sic.lines i && (sic.registers .enable).getLsbD i)) start = true ↔
        start = true ∨ ∃ i ∈ lines, sic.lines i = true ∧ (sic.registers .enable).getLsbD i = true := by
    induction lines generalizing start with
    | nil => simp
    | cons line lines ih =>
      rw [List.foldl_cons, ih, List.exists_mem_cons_iff, Bool.or_eq_true, Bool.and_eq_true, or_assoc]
  rw [haveAssertedLines, hLoop, IsDue]
  simp

theorem follows_updateParentState (sic : VersatileSIC) : sic.updateParentState.Follows := by
  have hDue := sic.haveAssertedLines_iff
  unfold updateParentState
  split_ifs with hAssert hRescind
  · rw [Bool.and_eq_true] at hAssert
    exact iff_of_true rfl (hDue.mp hAssert.1)
  · rw [Bool.and_eq_true, Bool.not_eq_true'] at hRescind
    refine iff_of_false Bool.false_ne_true fun hSome => ?_
    exact absurd (hDue.mpr hSome) (by simp [hRescind.1])
  · rw [Follows, ← hDue]
    revert hAssert hRescind
    cases sic.haveAssertedLines <;> cases sic.irqLine <;> decide

theorem getLsbD_writeMasked (value : BitVec 32) (i : Fin 32) :
    ((sic.writeMasked .enable value).registers .enable).getLsbD i = true ↔ value.getLsbD i = true ∧ i.val < 31 := by
  have hMask : ∀ i : Fin 32, ((1 <<< 31) - 1 : BitVec 32).getLsbD i = decide (i.val < 31) := by decide
  unfold writeMasked
  dsimp only
  rw [Function.update_self, BitVec.getLsbD_and, hMask, Bool.and_eq_true, decide_eq_true_iff]

theorem getLsbD_data (data : BitVec 64) (i : Fin 32) : (data.setWidth 32).getLsbD i = data.getLsbD i := by
  simp

theorem IsMasked.lt_of_getLsbD (hMasked : sic.IsMasked) {i : Fin 32}
    (hEnabled : (sic.registers .enable).getLsbD i = true) : i.val < 31 := by
  refine lt_of_le_of_ne (Nat.le_of_lt_succ i.isLt) fun hLast => ?_
  rw [hLast, hMasked] at hEnabled
  cases hEnabled

theorem IsMasked.write (hMasked : sic.IsMasked) (off : Nat) (data : BitVec 64) : (sic.write off data).IsMasked := by
  have hWritten (value : BitVec 32) : (sic.writeMasked .enable value).IsMasked :=
    Bool.eq_false_iff.mpr fun hBit => lt_irrefl 31 ((getLsbD_writeMasked value ⟨31, by decide⟩).mp hBit).2
  unfold VersatileSIC.write
  split
  · exact hMasked
  · rename_i reg _
    cases reg with
    | enable | enclr => exact hWritten _
    | _ => exact hMasked

theorem IsMasked.perform (hMasked : sic.IsMasked) (op : Operation) : (sic.perform op).IsMasked := by
  have hParent {sic : VersatileSIC} (hMasked : sic.IsMasked) : sic.updateParentState.IsMasked := by
    unfold updateParentState
    split_ifs <;> exact hMasked
  cases op with
  | assertLine line => exact hParent hMasked
  | rescindLine line => exact hParent hMasked
  | write off data => exact hMasked.write off data

theorem keepsDue_write_iff (hMasked : sic.IsMasked) (off : Nat) (data : BitVec 64) :
    sic.KeepsDue (.write off data) ↔ ((sic.write off data).IsDue ↔ sic.IsDue) := by
  unfold KeepsDue VersatileSIC.write
  dsimp only
  cases SICRegister.at? off with
  | none => exact iff_of_true trivial Iff.rfl
  | some reg =>
    cases reg with
    | enable =>
      have hDue : (sic.writeRegister .enable (data.setWidth 32)).IsDue ↔
          sic.IsDue ∨ ∃ i : Fin 32, i.val < 31 ∧ sic.lines i = true ∧ data.getLsbD i = true := by
        unfold IsDue
        rw [← exists_or]
        refine exists_congr fun i => ?_
        have hLt := hMasked.lt_of_getLsbD (i := i)
        change sic.lines i = true ∧ ((sic.writeMasked .enable _).registers .enable).getLsbD i = true ↔ _
        rw [getLsbD_writeMasked, BitVec.getLsbD_or, getLsbD_data, Bool.or_eq_true]
        tauto
      rw [hDue, or_iff_left_iff_imp]
    | enclr =>
      have hDue : (sic.writeRegister .enclr (data.setWidth 32)).IsDue ↔
          ∃ i, sic.lines i = true ∧ (sic.registers .enable).getLsbD i = true ∧ data.getLsbD i = false := by
        refine exists_congr fun i => ?_
        have hLt := hMasked.lt_of_getLsbD (i := i)
        change sic.lines i = true ∧ ((sic.writeMasked .enable _).registers .enable).getLsbD i = true ↔ _
        rw [getLsbD_writeMasked, BitVec.getLsbD_and, BitVec.getLsbD_not, getLsbD_data, Bool.and_eq_true]
        simp only [i.isLt, decide_true, Bool.true_and, Bool.not_eq_true']
        tauto
      rw [hDue]
      exact ⟨fun hKeeps => ⟨fun ⟨i, hLine, hEnabled, _⟩ => ⟨i, hLine, hEnabled⟩, hKeeps⟩, Iff.mpr⟩
    | _ => exact iff_of_true trivial Iff.rfl

theorem write_irqLine (off : Nat) (data : BitVec 64) : (sic.write off data).irqLine = sic.irqLine := by
  unfold write
  split
  · rfl
  · unfold writeRegister
    split <;> rfl

/-- The line follows after an operation exactly if that was no write, or one that left it as it is whether
some asserted line is enabled. -/
theorem follows_perform_iff (hMasked : sic.IsMasked) (hFollows : sic.Follows) (op : Operation) :
    (sic.perform op).Follows ↔ sic.KeepsDue op := by
  cases op with
  | assertLine line => exact iff_of_true (follows_updateParentState _) trivial
  | rescindLine line => exact iff_of_true (follows_updateParentState _) trivial
  | write off data =>
    have hLine : sic.irqLine = true ↔ sic.IsDue := hFollows
    change ((sic.write off data).irqLine = true ↔ _) ↔ _
    rw [keepsDue_write_iff hMasked, write_irqLine, hLine]
    exact Iff.comm

theorem follows_throughout_iff (ops : List Operation) :
    Throughout perform (fun sic op => (sic.perform op).Follows) new ops ↔
      Throughout perform KeepsDue new ops := by
  have hNew : new.Follows := iff_of_false Bool.false_ne_true fun ⟨_, hLine, _⟩ => Bool.false_ne_true hLine
  exact throughout_congr (fun sic => sic.IsMasked ∧ sic.Follows)
    (fun sic op hInv => follows_perform_iff hInv.1 hInv.2 op)
    (fun sic op hInv hAfter => ⟨hInv.1.perform op, hAfter⟩) ⟨rfl, hNew⟩ ops

/-- A line that is enabled while it is asserted. -/
theorem enabled_too_late :
    ¬ Throughout perform (fun sic op => (sic.perform op).Follows) new [.assertLine 3, .write 0x08 0x8] := by
  rintro ⟨-, hWrite, -⟩
  cases hWrite.mpr ⟨3, rfl, rfl⟩

end VersatileSIC

end Gensim.Devices
