import Gensim.Arch.RiscVSystemCoprocessor

/-! The platform-level interrupt controller: its registers, and the external interrupts of the harts. -/
namespace Gensim.Devices

open Arch Operations

/-- Contexts of user mode are left out, for the registers of such a configuration are not implemented. -/
inductive SifivePLIC.Mode where
  | supervisor | machine
  deriving DecidableEq

structure HartContext (n : Nat) where
  hart : Fin n
  context : SifivePLIC.Mode
  threshold : BitVec 32
  enable : Fin 2 → BitVec 32

/-- The controller of `n` harts, with their coprocessors. -/
structure SifivePLIC (n : Nat) where
  interruptPriorities : Fin 54 → BitVec 32
  interruptPending : Fin 2 → BitVec 32
  interruptClaimed : Fin 2 → BitVec 32
  hartConfig : List (HartContext n)
  harts : Fin n → RiscVSystemCoprocessor

namespace SifivePLIC

variable {n : Nat} (plic : SifivePLIC n)

/-- The interrupt that a context is signalled by. -/
def Mode.interrupt : Mode → Interrupt
  | .supervisor => .sei
  | .machine => .mei

def new (contexts : List (Fin n × Mode)) (harts : Fin n → RiscVSystemCoprocessor) : SifivePLIC n where
  interruptPriorities _ := 0
  interruptPending _ := 0
  interruptClaimed _ := 0
  hartConfig := contexts.map fun (hart, context) => ⟨hart, context, 0, fun _ => 0⟩
  harts := harts

/-- The interrupts of a word that are pending for a context and not claimed. -/
def hartPending (context : HartContext n) (word : Fin 2) : BitVec 32 :=
  plic.interruptPending word &&& ~~~plic.interruptClaimed word &&& context.enable word

/-! ### Signals -/

def eip (context : HartContext n) : BitVec 32 :=
  if ∃ word, plic.hartPending context word ≠ 0 then 1#32 <<< context.context.interrupt.bit.val else 0

/-- The bits that should be set for a hart. -/
def hartEip (hart : Fin n) : BitVec 32 :=
  plic.hartConfig.foldr (fun context eips => if context.hart = hart then plic.eip context ||| eips else eips) 0

/-- The external interrupts of a hart are pended and unpended as they should be. -/
def signal (coproc : RiscVSystemCoprocessor) (pendingEip : BitVec 32) : RiscVSystemCoprocessor :=
  let hartEip : BitVec 32 := (coproc.ip.readMIP &&& 0xf00).setWidth 32
  let unpendIrqs := hartEip &&& ~~~pendingEip
  let unpended := if unpendIrqs = 0 then coproc else coproc.machineUnpendInterrupt (unpendIrqs.setWidth 64)
  let pendIrqs := ~~~hartEip &&& pendingEip
  if pendIrqs = 0 then unpended else unpended.machinePendInterrupt (pendIrqs.setWidth 64)

def updateIRQ : SifivePLIC n :=
  { plic with harts := fun hart => signal (plic.harts hart) (plic.hartEip hart) }

/-! ### Lines -/

-- Numerals for the words are read with this instance.
local instance wordsNeZero : NeZero 2 := ⟨two_ne_zero⟩

def word (line : Nat) : Fin 2 := Fin.ofNat 2 (line / 32)

def bitOf (words : Fin 2 → BitVec 32) (line : Nat) : Bool := (words (word line)).getLsbD (line % 32)

def setBit (words : Fin 2 → BitVec 32) (line : Nat) : Fin 2 → BitVec 32 :=
  Function.update words (word line) (words (word line) ||| 1#32 <<< (line % 32))

def clearBit (words : Fin 2 → BitVec 32) (line : Nat) : Fin 2 → BitVec 32 :=
  Function.update words (word line) (words (word line) &&& ~~~(1#32 <<< (line % 32)))

/-- There is no result where the line is out of range. -/
def assertLine (line : Nat) : Option (SifivePLIC n) :=
  if line < 64 then some { plic with interruptPending := setBit plic.interruptPending line }.updateIRQ else none

def rescindLine (line : Nat) : Option (SifivePLIC n) :=
  if line < 64 then some { plic with interruptPending := clearBit plic.interruptPending line }.updateIRQ else none

/-! ### Claims -/

/-- The first bit that is set, `bit_set_forward`. -/
def bitSetForward (data : BitVec 32) : Option Nat := (List.range 32).find? fun i => data.getLsbD i

/-- The interrupt that the loop over the words finds, zero if there is none. -/
def findInterrupt (context : HartContext n) : Nat :=
  (List.finRange 2).foldl
    (fun found word => ((bitSetForward (plic.hartPending context word)).map (word.val * 32 + ·)).getD found) 0

/-- The interrupt that is claimed, and the controller after that. -/
def claimInterrupt (context : HartContext n) : Nat × SifivePLIC n :=
  let found := plic.findInterrupt context
  if found = 0 then (0, plic)
  else (found, { plic with interruptClaimed := setBit plic.interruptClaimed found })

/-- There is no result where the number is out of range. -/
def completeInterrupt (irq : Nat) : Option (SifivePLIC n) :=
  if irq < 64 then some { plic with interruptClaimed := clearBit plic.interruptClaimed irq } else none

/-! ### Registers -/

/-- The data that is read, and the controller after that, before its signals are updated. There is no
result where an index is out of range or a register is not implemented. -/
def readRegister (offset size : Nat) : Option (Nat × SifivePLIC n) :=
  if offset < 0x1000 then
    if h : size = 4 ∧ offset / 4 < 54 then some ((plic.interruptPriorities ⟨offset / 4, h.2⟩).toNat, plic) else none
  else if offset < 0x2000 then none
  else if offset < 0x200000 then
    (plic.hartConfig[(offset - 0x2000) / 0x80]?).map fun config =>
      ((config.enable (Fin.ofNat 2 ((offset - 0x2000) % 8 / 4))).toNat, plic)
  else
    (plic.hartConfig[(offset - 0x200000) / 0x1000]?).map fun config =>
      if (offset - 0x200000) % 8 = 4 then plic.claimInterrupt config else (config.threshold.toNat, plic)

def setConfig (index : Nat) (config : HartContext n) : SifivePLIC n :=
  { plic with hartConfig := plic.hartConfig.set index config }

def writePriority (id : Fin 54) (data : BitVec 64) : SifivePLIC n :=
  { plic with interruptPriorities := Function.update plic.interruptPriorities id (data.setWidth 32) }

def writeRegister (offset size : Nat) (data : BitVec 64) : Option (SifivePLIC n) :=
  if offset < 0x1000 then
    if h : size = 4 ∧ offset / 4 < 54 then some (plic.writePriority ⟨offset / 4, h.2⟩ data) else none
  else if offset < 0x2000 then none
  else if offset < 0x200000 then
    let index := (offset - 0x2000) / 0x80
    let word := Fin.ofNat 2 ((offset - 0x2000) % 8 / 4)
    (plic.hartConfig[index]?).map fun config =>
      plic.setConfig index { config with enable := Function.update config.enable word (data.setWidth 32) }
  else
    let index := (offset - 0x200000) / 0x1000
    (plic.hartConfig[index]?).bind fun config =>
      if (offset - 0x200000) % 8 = 0 then
        some (plic.setConfig index { config with threshold := data.setWidth 32 })
      else if (offset - 0x200000) % 8 = 4 then plic.completeInterrupt (data.setWidth 32).toNat
      else some plic

def read (offset size : Nat) : Option (Nat × SifivePLIC n) :=
  (plic.readRegister offset size).map fun (data, plic) => (data, plic.updateIRQ)

def write (offset size : Nat) (data : BitVec 64) : Option (SifivePLIC n) :=
  (plic.writeRegister offset size data).map updateIRQ

inductive Operation where
  | assertLine (line : Nat)
  | rescindLine (line : Nat)
  | read (offset size : Nat)
  | write (offset size : Nat) (data : BitVec 64)

/-- The data that is read, if any, and the controller after an operation. -/
def perform : Operation → Option (Nat × SifivePLIC n)
  | .assertLine line => (plic.assertLine line).map (0, ·)
  | .rescindLine line => (plic.rescindLine line).map (0, ·)
  | .read offset size => plic.read offset size
  | .write offset size data => (plic.write offset size data).map (0, ·)

/-- The context that claims an interrupt by an operation. -/
def claimant : Operation → Option (HartContext n)
  | .read offset _ =>
      if 0x200000 ≤ offset ∧ (offset - 0x200000) % 8 = 4 then plic.hartConfig[(offset - 0x200000) / 0x1000]?
      else none
  | _ => none

/-- The interrupt that is completed by an operation. -/
def Operation.completed : Operation → Option Nat
  | .write offset _ data =>
      if 0x200000 ≤ offset ∧ (offset - 0x200000) % 8 = 4 then some (data.setWidth 32).toNat else none
  | _ => none

/-! ### Delivery -/

/-- The line is pending for a context and not claimed. -/
def isSignalled (context : HartContext n) (line : Nat) : Bool :=
  bitOf plic.interruptPending line && !bitOf plic.interruptClaimed line && bitOf context.enable line

/-- A source that the context should be interrupted by. There is no source with the number zero. -/
def IsSource (context : HartContext n) (source : Fin 54) : Prop :=
  source.val ≠ 0 ∧ plic.isSignalled context source = true ∧ context.threshold < plic.interruptPriorities source

/-- The external interrupts of the harts are those of the contexts that have a source. -/
def SignalsSources : Prop :=
  ∀ hart (mode : Mode), (plic.harts hart).ip.readMIP.getLsbD mode.interrupt.bit = true ↔
    ∃ context ∈ plic.hartConfig, context.hart = hart ∧ context.context = mode ∧ ∃ source, plic.IsSource context source

/-- The source has the highest priority, and the lowest number with that. -/
def IsBest (context : HartContext n) (source : Fin 54) : Prop :=
  plic.IsSource context source ∧ ∀ other, plic.IsSource context other →
    plic.interruptPriorities other < plic.interruptPriorities source ∨
      plic.interruptPriorities other = plic.interruptPriorities source ∧ source ≤ other

/-- What a claim of the context should return. -/
def ShouldClaim (context : HartContext n) (claim : Nat) : Prop :=
  (∃ source, plic.IsBest context source ∧ claim = source.val) ∨
    (∀ source, ¬ plic.IsSource context source) ∧ claim = 0

/-- A controller, with the sources that were returned by a claim and not completed since. -/
structure History (n : Nat) where
  plic : SifivePLIC n
  returned : List Nat

namespace History

variable (history : History n)

def next (op : Operation) : History n :=
  match history.plic.perform op with
  | none => history
  | some (data, plic) =>
      ⟨plic,
        if (history.plic.claimant op).isSome ∧ data ≠ 0 then data :: history.returned
        else history.returned.filter fun source => op.completed ≠ some source⟩

/-- After the operation the signals are as they should be, and a claim returns what it should and nothing
that was returned and not completed. -/
def Delivers (op : Operation) : Prop :=
  ∀ data plic, history.plic.perform op = some (data, plic) → plic.SignalsSources ∧
    ∀ context ∈ history.plic.claimant op,
      history.plic.ShouldClaim context data ∧ (data ≠ 0 → data ∉ history.returned)

end History

/-- A mode of a hart that has a line signalled has a source. -/
def SignalsHaveSource : Prop :=
  ∀ context ∈ plic.hartConfig, ∀ line < 64, plic.isSignalled context line = true →
    ∃ other ∈ plic.hartConfig, other.hart = context.hart ∧ other.context = context.context ∧
      ∃ source, plic.IsSource other source

/-- The lowest line that is signalled from 32 on, or if there is none the lowest. -/
def IsFirst (context : HartContext n) (line : Nat) : Prop :=
  plic.isSignalled context line = true ∧ ∀ other < 64, plic.isSignalled context other = true →
    if 32 ≤ line then 32 ≤ other → line ≤ other else other < 32 ∧ line ≤ other

/-- The order of the numbers and that of the priorities give the same line. -/
def FirstIsBest (context : HartContext n) : Prop :=
  ∀ line < 64, plic.IsFirst context line → plic.ShouldClaim context line

def History.Agrees (history : History n) (op : Operation) : Prop :=
  ∀ data plic, history.plic.perform op = some (data, plic) → plic.SignalsHaveSource ∧
    ∀ context ∈ history.plic.claimant op, history.plic.FirstIsBest context

/-! ### Words of lines -/

variable {plic} {line other : Nat}

theorem word_eq_of_lt (hLine : line < 64) (hOther : other < 64) (hWord : word line = word other)
    (hIndex : line % 32 = other % 32) : line = other := by
  have hDiv : line / 32 % 2 = other / 32 % 2 := congrArg Fin.val hWord
  omega

theorem getLsbD_one_shiftLeft {i j : Nat} (hj : j < 32) : (1#32 <<< i).getLsbD j = decide (i = j) := by
  rw [BitVec.getLsbD_shiftLeft]
  by_cases hSame : i = j
  · simp [hSame, hj]
  · by_cases hLt : j < i
    · simp [hSame, hLt]
    · simp [hSame]
      omega

theorem bitOf_setBit {words : Fin 2 → BitVec 32} (hLine : line < 64) (hOther : other < 64) :
    bitOf (setBit words line) other = (bitOf words other || decide (line = other)) := by
  unfold bitOf setBit
  rw [Function.update_apply]
  split
  · rename_i hWord
    rw [BitVec.getLsbD_or, getLsbD_one_shiftLeft (Nat.mod_lt _ (by decide)), hWord]
    congr 1
    exact decide_eq_decide.mpr ⟨fun hIndex => word_eq_of_lt hLine hOther hWord.symm hIndex, congrArg (· % 32)⟩
  · rename_i hWord
    rw [decide_eq_false fun hSame => hWord (congrArg word hSame).symm, Bool.or_false]

theorem bitOf_clearBit {words : Fin 2 → BitVec 32} (hLine : line < 64) (hOther : other < 64) :
    bitOf (clearBit words line) other = (bitOf words other && !decide (line = other)) := by
  unfold bitOf clearBit
  rw [Function.update_apply]
  split
  · rename_i hWord
    rw [BitVec.getLsbD_and, BitVec.getLsbD_not, getLsbD_one_shiftLeft (Nat.mod_lt _ (by decide)), hWord,
      decide_eq_true (Nat.mod_lt _ (by decide)), Bool.true_and]
    congr 2
    exact decide_eq_decide.mpr ⟨fun hIndex => word_eq_of_lt hLine hOther hWord.symm hIndex, congrArg (· % 32)⟩
  · rename_i hWord
    rw [decide_eq_false fun hSame => hWord (congrArg word hSame).symm, Bool.not_false, Bool.and_true]

variable {context : HartContext n}

theorem getLsbD_hartPending (w : Fin 2) {i : Nat} (hi : i < 32) :
    (plic.hartPending context w).getLsbD i = plic.isSignalled context (w * 32 + i) := by
  have hWord : word (w * 32 + i) = w := by
    apply Fin.ext
    change (w * 32 + i) / 32 % 2 = w
    omega
  have hIndex : (w.val * 32 + i) % 32 = i := by omega
  simp only [hartPending, isSignalled, bitOf, hWord, hIndex, BitVec.getLsbD_and, BitVec.getLsbD_not, hi,
    decide_true, Bool.true_and]

theorem hartPending_ne_zero_iff (w : Fin 2) :
    plic.hartPending context w ≠ 0 ↔ ∃ i < 32, plic.isSignalled context (w * 32 + i) = true := by
  constructor
  · intro hNe
    by_contra hNone
    refine hNe (BitVec.eq_of_getLsbD_eq fun i hi => ?_)
    rw [getLsbD_hartPending w hi]
    exact (Bool.eq_false_of_not_eq_true fun hSet => hNone ⟨i, hi, hSet⟩).trans BitVec.getLsbD_zero.symm
  · rintro ⟨i, hi, hSet⟩ hZero
    rw [← getLsbD_hartPending w hi, hZero] at hSet
    exact absurd (hSet.symm.trans BitVec.getLsbD_zero) (by decide)

theorem exists_hartPending_iff :
    (∃ w, plic.hartPending context w ≠ 0) ↔ ∃ line < 64, plic.isSignalled context line = true := by
  simp only [hartPending_ne_zero_iff]
  constructor
  · rintro ⟨w, i, hi, hSet⟩
    exact ⟨w * 32 + i, by omega, hSet⟩
  · rintro ⟨line, hLine, hSet⟩
    refine ⟨⟨line / 32, by omega⟩, line % 32, Nat.mod_lt _ (by decide), ?_⟩
    rwa [Nat.div_add_mod']

/-! ### Signals -/

theorem getLsbD_eip {mode : Mode} : (plic.eip context).getLsbD mode.interrupt.bit = true ↔
      context.context = mode ∧ ∃ line < 64, plic.isSignalled context line = true := by
  unfold eip
  split
  · rename_i hPending
    rw [exists_hartPending_iff] at hPending
    rw [getLsbD_one_shiftLeft mode.interrupt.bit.isLt, decide_eq_true_eq, and_iff_left hPending]
    cases context.context <;> cases mode <;> decide
  · rename_i hNone
    rw [exists_hartPending_iff] at hNone
    exact iff_of_false (fun hSet => absurd (hSet.symm.trans BitVec.getLsbD_zero) (by decide)) fun hBoth => hNone hBoth.2

theorem getLsbD_hartEip {hart : Fin n} {mode : Mode} : (plic.hartEip hart).getLsbD mode.interrupt.bit = true ↔
      ∃ context ∈ plic.hartConfig, context.hart = hart ∧ context.context = mode ∧
        ∃ line < 64, plic.isSignalled context line = true := by
  unfold hartEip
  induction plic.hartConfig with
  | nil => simp
  | cons context contexts ih =>
    rw [List.foldr_cons, List.exists_mem_cons_iff]
    split
    · rename_i hHart
      rw [BitVec.getLsbD_or, Bool.or_eq_true, ih, getLsbD_eip, and_iff_right hHart]
    · rename_i hOther
      rw [ih]
      exact (or_iff_right fun hBoth => hOther hBoth.1).symm

theorem getLsbD_readMIP (bits : InterruptBits) (i : Interrupt) : bits.readMIP.getLsbD i.bit = bits i := by
  rw [Bool.eq_iff_iff, InterruptBits.readMIP, InterruptBits.getLsbD_read]
  constructor
  · rintro ⟨j, -, hSet, hSame⟩
    rwa [← RiscVSystemCoprocessor.bit_injective hSame]
  · intro hSet
    exact ⟨i, RiscVSystemCoprocessor.mem_machine i, hSet, rfl⟩

theorem getLsbD_setWidth_fin (bits : BitVec 32) (i : Fin 32) : (bits.setWidth 64).getLsbD i = bits.getLsbD i := by
  rw [BitVec.getLsbD_setWidth, decide_eq_true (by omega), Bool.true_and]

theorem ip_signal (coproc : RiscVSystemCoprocessor) (pendingEip : BitVec 32) (mode : Mode) :
    (signal coproc pendingEip).ip mode.interrupt = pendingEip.getLsbD mode.interrupt.bit := by
  have hUnpend (coproc : RiscVSystemCoprocessor) (mask : BitVec 32) (i : Interrupt) :
      (if mask = 0 then coproc else coproc.machineUnpendInterrupt (mask.setWidth 64)).ip i =
        (coproc.ip i && !mask.getLsbD i.bit) := by
    split
    · rename_i hZero
      rw [hZero, show BitVec.getLsbD (0 : BitVec 32) i.bit = false from BitVec.getLsbD_zero, Bool.not_false,
        Bool.and_true]
    · rw [RiscVSystemCoprocessor.machineUnpendInterrupt, RiscVSystemCoprocessor.ip_checkForInterrupts]
      exact congrArg (coproc.ip i && !·) (getLsbD_setWidth_fin mask i.bit)
  have hPend (coproc : RiscVSystemCoprocessor) (mask : BitVec 32) (i : Interrupt) :
      (if mask = 0 then coproc else coproc.machinePendInterrupt (mask.setWidth 64)).ip i =
        (coproc.ip i || mask.getLsbD i.bit) := by
    split
    · rename_i hZero
      rw [hZero, show BitVec.getLsbD (0 : BitVec 32) i.bit = false from BitVec.getLsbD_zero, Bool.or_false]
    · rw [RiscVSystemCoprocessor.machinePendInterrupt, RiscVSystemCoprocessor.ip_checkForInterrupts]
      exact congrArg (coproc.ip i || ·) (getLsbD_setWidth_fin mask i.bit)
  have hHart : ((coproc.ip.readMIP &&& 0xf00).setWidth 32).getLsbD mode.interrupt.bit = coproc.ip mode.interrupt := by
    rw [RiscVSystemCoprocessor.getLsbD_setWidth_fin, BitVec.getLsbD_and, getLsbD_readMIP]
    cases mode <;> exact Bool.and_true _
  unfold signal
  dsimp only
  rw [hPend, hUnpend, BitVec.getLsbD_and, BitVec.getLsbD_and, BitVec.getLsbD_not, BitVec.getLsbD_not, hHart,
    decide_eq_true mode.interrupt.bit.isLt]
  cases coproc.ip mode.interrupt <;> cases pendingEip.getLsbD mode.interrupt.bit <;> rfl

theorem signalsSources_updateIRQ_iff : plic.updateIRQ.SignalsSources ↔ plic.updateIRQ.SignalsHaveSource := by
  have hBit (hart : Fin n) (mode : Mode) : (plic.updateIRQ.harts hart).ip.readMIP.getLsbD mode.interrupt.bit = true ↔
        ∃ context ∈ plic.updateIRQ.hartConfig, context.hart = hart ∧ context.context = mode ∧
          ∃ line < 64, plic.updateIRQ.isSignalled context line = true := by
    rw [getLsbD_readMIP]
    exact (Bool.eq_iff_iff.mp (ip_signal (plic.harts hart) (plic.hartEip hart) mode)).trans getLsbD_hartEip
  unfold SignalsSources SignalsHaveSource
  simp only [hBit]
  constructor
  · intro hSignals context hContext line hLine hSignalled
    exact (hSignals context.hart context.context).mp ⟨context, hContext, rfl, rfl, line, hLine, hSignalled⟩
  · intro hHave hart mode
    constructor
    · rintro ⟨context, hContext, rfl, rfl, line, hLine, hSignalled⟩
      exact hHave context hContext line hLine hSignalled
    · rintro ⟨context, hContext, hHart, hMode, source, -, hSignalled, -⟩
      exact ⟨context, hContext, hHart, hMode, source, by omega, hSignalled⟩

/-! ### Claims -/

theorem bitSetForward_of_none {w : Fin 2} (hNone : bitSetForward (plic.hartPending context w) = none) {i : Nat}
    (hi : i < 32) : plic.isSignalled context (w * 32 + i) = false := by
  have hClear := List.find?_eq_none.mp hNone i (List.mem_range.mpr hi)
  rw [getLsbD_hartPending w hi] at hClear
  exact Bool.eq_false_of_not_eq_true hClear

theorem bitSetForward_of_some {w : Fin 2} {i : Nat} (hSome : bitSetForward (plic.hartPending context w) = some i) :
    i < 32 ∧ plic.isSignalled context (w * 32 + i) = true ∧
      ∀ j < 32, plic.isSignalled context (w * 32 + j) = true → i ≤ j := by
  obtain ⟨hSet, hMem, hFirst⟩ := List.find?_range_eq_some.mp hSome
  have hi := List.mem_range.mp hMem
  rw [getLsbD_hartPending w hi] at hSet
  refine ⟨hi, hSet, fun j hj hSignalled => ?_⟩
  by_contra hLt
  have hClear := hFirst j (not_le.mp hLt)
  rw [getLsbD_hartPending w hj, hSignalled] at hClear
  cases hClear

theorem findInterrupt_cases (context : HartContext n) :
    (∀ line < 64, plic.isSignalled context line = false) ∧ plic.findInterrupt context = 0 ∨
      plic.findInterrupt context < 64 ∧ plic.IsFirst context (plic.findInterrupt context) := by
  have hFind : plic.findInterrupt context = ((bitSetForward (plic.hartPending context 1)).map (1 * 32 + ·)).getD
        (((bitSetForward (plic.hartPending context 0)).map (0 * 32 + ·)).getD 0) := rfl
  have hLower (line : Nat) : 0 * 32 + line = line := by omega
  have hUpperLine {line : Nat} (hLine : 32 ≤ line) : 1 * 32 + (line - 32) = line := by omega
  rw [hFind]
  cases hUpper : bitSetForward (plic.hartPending context 1) with
  | some i =>
    obtain ⟨hi, hSet, hFirst⟩ := bitSetForward_of_some hUpper
    change _ ∨ 1 * 32 + i < 64 ∧ plic.IsFirst context (1 * 32 + i)
    refine .inr ⟨by omega, hSet, fun other hOther hSignalled => ?_⟩
    rw [if_pos (by omega)]
    intro hUpperOther
    rw [← hUpperLine hUpperOther] at hSignalled
    have hLe := hFirst (other - 32) (by omega) hSignalled
    omega
  | none =>
    have hClear {line : Nat} (hLine : line < 64) (hSignalled : plic.isSignalled context line = true) : line < 32 := by
      by_contra hGe
      rw [← hUpperLine (not_lt.mp hGe)] at hSignalled
      have hNot := bitSetForward_of_none hUpper (show line - 32 < 32 by omega)
      exact absurd (hSignalled.symm.trans hNot) (by decide)
    cases hBits : bitSetForward (plic.hartPending context 0) with
    | some i =>
      obtain ⟨hi, hSet, hFirst⟩ := bitSetForward_of_some hBits
      change _ ∨ 0 * 32 + i < 64 ∧ plic.IsFirst context (0 * 32 + i)
      refine .inr ⟨by omega, hSet, fun other hOther hSignalled => ?_⟩
      rw [if_neg (by omega), hLower]
      have hLt := hClear hOther hSignalled
      rw [← hLower other] at hSignalled
      exact ⟨hLt, hFirst other hLt hSignalled⟩
    | none =>
      refine .inl ⟨fun line hLine => Bool.eq_false_of_not_eq_true fun hSignalled => ?_, rfl⟩
      have hNot := bitSetForward_of_none hBits (hClear hLine hSignalled)
      rw [← hLower line] at hSignalled
      exact absurd (hSignalled.symm.trans hNot) (by decide)

theorem eq_of_isFirst (hLine : line < 64) (hOther : other < 64) (hFirst : plic.IsFirst context line)
    (hFirst' : plic.IsFirst context other) : line = other := by
  have hLe := hFirst.2 other hOther hFirst'.1
  have hLe' := hFirst'.2 line hLine hFirst.1
  split at hLe <;> split at hLe' <;> omega

/-- A claim returns what it should exactly if the first line is the best. -/
theorem shouldClaim_findInterrupt_iff (context : HartContext n) :
    plic.ShouldClaim context (plic.findInterrupt context) ↔ plic.FirstIsBest context := by
  rcases plic.findInterrupt_cases context with ⟨hNone, hZero⟩ | ⟨hLt, hFirst⟩
  · refine iff_of_true (.inr ⟨fun source hSource => ?_, hZero⟩) fun line hLine hFirst => ?_
    · exact absurd ((hNone source (by omega)).symm.trans hSource.2.1) (by decide)
    · exact absurd ((hNone line hLine).symm.trans hFirst.1) (by decide)
  · refine ⟨fun hShould line hLine hLineFirst => ?_, fun hBest => hBest _ hLt hFirst⟩
    rwa [eq_of_isFirst hLine hLt hLineFirst hFirst]

/-! ### Histories -/

/-- The interrupts that are claimed change by a claim and by a completion only. -/
inductive Claims (plic : SifivePLIC n) (op : Operation) (data : Nat) (after : SifivePLIC n) : Prop
  | claim (context : HartContext n) (hClaimant : plic.claimant op = some context)
      (hData : data = plic.findInterrupt context)
      (hClaimed : after.interruptClaimed =
        if data = 0 then plic.interruptClaimed else setBit plic.interruptClaimed data)
  | complete (irq : Nat) (hClaimant : plic.claimant op = none) (hCompleted : op.completed = some irq)
      (hIrq : irq < 64) (hClaimed : after.interruptClaimed = clearBit plic.interruptClaimed irq)
  | other (hClaimant : plic.claimant op = none) (hCompleted : op.completed = none)
      (hClaimed : after.interruptClaimed = plic.interruptClaimed)

variable {after : SifivePLIC n}

theorem claims_read {offset size data : Nat} (hRead : plic.readRegister offset size = some (data, after)) :
    Claims plic (.read offset size) data after.updateIRQ := by
  have hOther (hPlic : after = plic) (hNot : ¬ (0x200000 ≤ offset ∧ (offset - 0x200000) % 8 = 4)) :
      Claims plic (.read offset size) data after.updateIRQ :=
    .other (if_neg hNot) rfl (congrArg (·.updateIRQ.interruptClaimed) hPlic)
  unfold readRegister at hRead
  split at hRead
  · split at hRead <;> cases hRead
    exact hOther rfl (by omega)
  split at hRead
  · cases hRead
  split at hRead
  · obtain ⟨config, -, hResult⟩ := Option.map_eq_some_iff.mp hRead
    exact hOther (congrArg Prod.snd hResult).symm (by omega)
  · obtain ⟨config, hConfig, hResult⟩ := Option.map_eq_some_iff.mp hRead
    split at hResult
    · rename_i hClaim
      refine .claim config ((if_pos ⟨by omega, hClaim⟩).trans hConfig) ?_ ?_
      all_goals
        unfold claimInterrupt at hResult
        dsimp only at hResult
        split at hResult <;> cases hResult
      · exact Eq.symm ‹_›
      · rfl
      · exact (if_pos rfl).symm
      · exact (if_neg ‹_›).symm
    · rename_i hNot
      exact hOther (congrArg Prod.snd hResult).symm fun hBoth => hNot hBoth.2

theorem claims_write {offset size : Nat} {data : BitVec 64}
    (hWrite : plic.writeRegister offset size data = some after) :
    Claims plic (.write offset size data) 0 after.updateIRQ := by
  have hOther (hClaimed : after.interruptClaimed = plic.interruptClaimed)
      (hNot : ¬ (0x200000 ≤ offset ∧ (offset - 0x200000) % 8 = 4)) :
      Claims plic (.write offset size data) 0 after.updateIRQ :=
    .other rfl (if_neg hNot) hClaimed
  unfold writeRegister at hWrite
  split at hWrite
  · split at hWrite <;> cases hWrite
    exact hOther rfl (by omega)
  split at hWrite
  · cases hWrite
  split at hWrite
  · obtain ⟨config, -, rfl⟩ := Option.map_eq_some_iff.mp hWrite
    exact hOther rfl (by omega)
  · obtain ⟨config, -, hResult⟩ := Option.bind_eq_some_iff.mp hWrite
    split at hResult
    · cases hResult
      exact hOther rfl (by omega)
    split at hResult
    · rename_i hComplete
      unfold completeInterrupt at hResult
      split at hResult <;> cases hResult
      rename_i hIrq
      exact .complete _ rfl (if_pos ⟨by omega, hComplete⟩) hIrq rfl
    · rename_i hNot
      cases hResult
      exact hOther rfl fun hBoth => hNot hBoth.2

/-- What an operation does: it ends with an update of the signals. -/
theorem claims_perform {op : Operation} {data : Nat} (hPerform : plic.perform op = some (data, after)) :
    (∃ before : SifivePLIC n, after = before.updateIRQ) ∧ Claims plic op data after := by
  cases op with
  | assertLine line =>
    obtain ⟨_, hAssert, hResult⟩ := Option.map_eq_some_iff.mp hPerform
    cases hResult
    unfold assertLine at hAssert
    split at hAssert <;> cases hAssert
    exact ⟨⟨_, rfl⟩, .other rfl rfl rfl⟩
  | rescindLine line =>
    obtain ⟨_, hRescind, hResult⟩ := Option.map_eq_some_iff.mp hPerform
    cases hResult
    unfold rescindLine at hRescind
    split at hRescind <;> cases hRescind
    exact ⟨⟨_, rfl⟩, .other rfl rfl rfl⟩
  | read offset size =>
    obtain ⟨⟨_, before⟩, hRead, hResult⟩ := Option.map_eq_some_iff.mp hPerform
    cases hResult
    exact ⟨⟨before, rfl⟩, claims_read hRead⟩
  | write offset size data =>
    obtain ⟨_, hWrite, hResult⟩ := Option.map_eq_some_iff.mp hPerform
    cases hResult
    obtain ⟨before, hRegister, rfl⟩ := Option.map_eq_some_iff.mp hWrite
    exact ⟨⟨before, rfl⟩, claims_write hRegister⟩

theorem findInterrupt_of_ne_zero (hNe : plic.findInterrupt context ≠ 0) :
    plic.findInterrupt context < 64 ∧ bitOf plic.interruptClaimed (plic.findInterrupt context) = false := by
  rcases plic.findInterrupt_cases context with ⟨-, hZero⟩ | ⟨hLt, hFirst⟩
  · exact absurd hZero hNe
  · have hSignalled := hFirst.1
    rw [isSignalled, Bool.and_eq_true, Bool.and_eq_true, Bool.not_eq_true'] at hSignalled
    exact ⟨hLt, hSignalled.1.2⟩

namespace History

variable {history : History n}

/-- What was returned and not completed is claimed. -/
def Tracks (history : History n) : Prop :=
  ∀ source ∈ history.returned, source < 64 ∧ bitOf history.plic.interruptClaimed source = true

theorem tracks_next (hTracks : history.Tracks) (op : Operation) : (history.next op).Tracks := by
  unfold next
  cases hPerform : history.plic.perform op with
  | none => exact hTracks
  | some result =>
    obtain ⟨data, after⟩ := result
    intro source hSource
    dsimp only at hSource ⊢
    cases (claims_perform hPerform).2 with
    | claim context hClaimant hData hClaimed =>
      rw [hClaimant] at hSource
      rw [hClaimed]
      by_cases hZero : data = 0
      · rw [if_neg fun hBoth => hBoth.2 hZero] at hSource
        rw [if_pos hZero]
        exact hTracks source (List.mem_of_mem_filter hSource)
      · rw [if_pos ⟨rfl, hZero⟩] at hSource
        obtain ⟨hLt, -⟩ := findInterrupt_of_ne_zero (fun hFound => hZero (hData.trans hFound))
        rw [← hData] at hLt
        rw [if_neg hZero]
        rcases List.mem_cons.mp hSource with rfl | hMem
        · exact ⟨hLt, by rw [bitOf_setBit hLt hLt, decide_eq_true rfl, Bool.or_true]⟩
        · obtain ⟨hSourceLt, hSet⟩ := hTracks source hMem
          exact ⟨hSourceLt, by rw [bitOf_setBit hLt hSourceLt, hSet, Bool.true_or]⟩
    | complete irq hClaimant hCompleted hIrq hClaimed =>
      rw [hClaimant, if_neg (by simp)] at hSource
      obtain ⟨hMem, hNe⟩ := List.mem_filter.mp hSource
      obtain ⟨hLt, hSet⟩ := hTracks source hMem
      refine ⟨hLt, ?_⟩
      rw [hCompleted] at hNe
      rw [hClaimed, bitOf_clearBit hIrq hLt, hSet]
      simpa using hNe
    | other hClaimant hCompleted hClaimed =>
      rw [hClaimant, if_neg (by simp)] at hSource
      rw [hClaimed]
      exact hTracks source (List.mem_of_mem_filter hSource)

theorem delivers_iff_agrees (hTracks : history.Tracks) (op : Operation) : history.Delivers op ↔ history.Agrees op := by
  refine forall₂_congr fun data after => imp_congr_right fun hPerform => ?_
  obtain ⟨⟨before, rfl⟩, hClaims⟩ := claims_perform hPerform
  refine and_congr signalsSources_updateIRQ_iff (forall₂_congr fun context hContext => ?_)
  cases hClaims with
  | claim other hClaimant hData =>
    cases hClaimant.symm.trans hContext
    rw [hData, shouldClaim_findInterrupt_iff]
    refine and_iff_left fun hNe hReturned => ?_
    have hClear := (findInterrupt_of_ne_zero hNe).2
    exact absurd ((hTracks _ hReturned).2.symm.trans hClear) (by decide)
  | complete _ hClaimant => cases hClaimant.symm.trans hContext
  | other hClaimant => cases hClaimant.symm.trans hContext

end History

/-- The interrupts are delivered as they should be in a run from reset exactly if at every point of it a mode
of a hart with a line signalled has a source, and at every claim the first line is the best source. -/
theorem delivers_throughout_iff (contexts : List (Fin n × Mode)) (harts : Fin n → RiscVSystemCoprocessor)
    (ops : List Operation) :
    Throughout History.next History.Delivers ⟨new contexts harts, []⟩ ops ↔
      Throughout History.next History.Agrees ⟨new contexts harts, []⟩ ops :=
  throughout_congr History.Tracks (fun _ op hTracks => History.delivers_iff_agrees hTracks op)
    (fun _ op hTracks _ => History.tracks_next hTracks op) (by intro _ hMem; cases hMem) ops

/-- A source of priority zero is enabled and asserted: the hart is interrupted, whatever its threshold. -/
theorem priority_zero_signalled :
    ¬ Throughout History.next History.Delivers ⟨new [((0 : Fin 1), .machine)] fun _ => .new ⟨.noTxln, 0⟩ 3, []⟩
      [.write 0x2000 4 2, .assertLine 1] := by
  rintro ⟨-, hLast, -⟩
  obtain ⟨context, -, -, -, source, -, -, hPriority⟩ := ((hLast _ _ rfl).1 0 .machine).mp (by decide +kernel)
  exact absurd hPriority (BitVec.not_lt_zero)

end SifivePLIC

end Gensim.Devices
