import Gensim.Arch.RiscVMMU
import Gensim.Devices.CPUIRQLine

/-! The system coprocessor of a RISC-V hart: which interrupts are pending and enabled, and which of them
the hart is told of. -/
namespace Gensim.Arch

open Devices Operations

/-- The kinds of interrupts, by the level and the origin. -/
inductive Interrupt where
  | usi | ssi | msi | uti | sti | mti | uei | sei | mei
  deriving DecidableEq

namespace Interrupt

/-- The place of the interrupt in `mip` and `mie`. -/
def bit : Interrupt → Fin 32
  | .usi => 0
  | .ssi => 1
  | .msi => 3
  | .uti => 4
  | .sti => 5
  | .mti => 7
  | .uei => 8
  | .sei => 9
  | .mei => 11

def machine : List Interrupt := [.mei, .sei, .uei, .mti, .sti, .uti, .msi, .ssi, .usi]

def supervisor : List Interrupt := [.sei, .uei, .sti, .uti, .ssi, .usi]

end Interrupt

/-- The fields of `IP_t` or of `IE_t`. -/
abbrev InterruptBits := Interrupt → Bool

namespace InterruptBits

variable (bits : InterruptBits)

/-- A word with the fields of some interrupts. -/
def read (interrupts : List Interrupt) : BitVec 64 :=
  interrupts.foldr (fun i data => (BitVec.ofBool (bits i)).setWidth 64 <<< i.bit.val ||| data) 0

/-- Set the fields of some interrupts from a word. -/
def write (interrupts : List Interrupt) (data : BitVec 64) : InterruptBits :=
  fun i => if i ∈ interrupts then data.getLsbD i.bit else bits i

def readMIP : BitVec 64 := bits.read Interrupt.machine
def readSIP : BitVec 64 := bits.read Interrupt.supervisor
def writeMIP (data : BitVec 64) : InterruptBits := bits.write Interrupt.supervisor data
def writeSIP (data : BitVec 64) : InterruptBits := bits.write [.uei, .ssi, .usi] data
def pendMask (mask : BitVec 64) : InterruptBits := fun i => bits i || mask.getLsbD i.bit
def clearMask (mask : BitVec 64) : InterruptBits := fun i => bits i && !mask.getLsbD i.bit

def readMIE : BitVec 64 := bits.read Interrupt.machine
def readSIE : BitVec 64 := bits.read Interrupt.supervisor
def writeMIE (data : BitVec 64) : InterruptBits := bits.write Interrupt.machine data
def writeSIE (data : BitVec 64) : InterruptBits := bits.write Interrupt.supervisor data

end InterruptBits

/-- The fields of `STATUS_t` that enable interrupts. -/
structure Status where
  mie : Bool
  sie : Bool
  uie : Bool

namespace Status

def writeMSTATUS (data : BitVec 64) : Status := ⟨data.getLsbD 3, data.getLsbD 1, data.getLsbD 0⟩

def writeSSTATUS (status : Status) (data : BitVec 64) : Status :=
  { status with sie := data.getLsbD 1, uie := data.getLsbD 0 }

end Status

/-- The coprocessor with its hart, and the registers that have to do with interrupts. -/
structure RiscVSystemCoprocessor where
  status : Status
  ip : InterruptBits
  ie : InterruptBits
  mideleg : BitVec 64
  sideleg : BitVec 64
  truePendingInterrupts : BitVec 32
  mmu : RiscVMMU
  hart : ThreadInstance 32
  executionRing : Nat

namespace RiscVSystemCoprocessor

variable (coproc : RiscVSystemCoprocessor)

/-- The enabled interrupts that are pending. -/
def pending : BitVec 64 := coproc.ip.readMIP &&& coproc.ie.readMIE

/-- The line of an interrupt is brought high or low if that has changed. -/
def checkLine (current : BitVec 64) (told : BitVec 32) (hart : ThreadInstance 32) (i : Fin 32) :
    ThreadInstance 32 :=
  if current.getLsbD i = true ∧ told.getLsbD i = false then hart.assertLine i
  else if current.getLsbD i = false ∧ told.getLsbD i = true then hart.rescindLine i
  else hart

def checkForInterrupts : RiscVSystemCoprocessor :=
  if coproc.pending = coproc.truePendingInterrupts.setWidth 64 then
    { coproc with hart := coproc.hart.pendIRQ }
  else
    { coproc with
      hart := ((List.finRange 32).foldl (checkLine coproc.pending coproc.truePendingInterrupts) coproc.hart).pendIRQ
      truePendingInterrupts := coproc.pending.setWidth 32 }

def machinePendInterrupt (mask : BitVec 64) : RiscVSystemCoprocessor :=
  { coproc with ip := coproc.ip.pendMask mask }.checkForInterrupts

def machineUnpendInterrupt (mask : BitVec 64) : RiscVSystemCoprocessor :=
  { coproc with ip := coproc.ip.clearMask mask }.checkForInterrupts

/-- The registers whose value has nothing to do with interrupts, or whose writes are ignored. -/
def isPlain (address : Nat) : Bool :=
  address ∈ [0x105, 0x106, 0x140, 0x141, 0x142, 0x143, 0x301, 0x302, 0x305, 0x306, 0x340, 0x341, 0x342, 0x343,
    0xc01, 0xf14] ∨ 0x3a0 ≤ address ∧ address ≤ 0x3a3 ∨ 0x3b0 ≤ address ∧ address ≤ 0x3bf

/-- There is no result where a register is not implemented, or a mode of the MMU is not expected. -/
def write64 (address : Nat) (data : BitVec 64) : Option RiscVSystemCoprocessor :=
  if address = 0x100 then
    some { coproc with status := coproc.status.writeSSTATUS data }.checkForInterrupts
  else if address = 0x104 then some { coproc with ie := coproc.ie.writeSIE data }.checkForInterrupts
  else if address = 0x144 then some { coproc with ip := coproc.ip.writeSIP data }.checkForInterrupts
  else if address = 0x180 then (RiscVMMU.setSATP data).map fun mmu => { coproc with mmu := mmu }
  else if address = 0x300 then
    some { coproc with status := .writeMSTATUS data }.checkForInterrupts.checkForInterrupts
  else if address = 0x303 then some { coproc with mideleg := data }
  else if address = 0x304 then some { coproc with ie := coproc.ie.writeMIE data }.checkForInterrupts
  else if address = 0x344 then some { coproc with ip := coproc.ip.writeMIP data }.checkForInterrupts
  else if isPlain address then some coproc
  else none

/-- The coprocessor of a new hart. The mode of the MMU is set when that is initialised. -/
def new (mmu : RiscVMMU) (executionRing : Nat) : RiscVSystemCoprocessor :=
  { status := .writeMSTATUS 0
    ip := fun _ => false
    ie := fun _ => false
    mideleg := 0
    sideleg := 0
    truePendingInterrupts := 0
    mmu := mmu
    hart := .new
    executionRing := executionRing : RiscVSystemCoprocessor }.checkForInterrupts

/-! ### The choice of an interrupt -/

/-- The mask of `1 << i`, a signed word. -/
def maskOf (i : Nat) : BitVec 64 := (1#32 <<< i).signExtend 64

/-- The first interrupt of a word, `get_pending_interrupt`. -/
def firstInterrupt (bits : BitVec 64) : Option Nat := (List.range 32).find? fun i => bits &&& maskOf i ≠ 0

structure PendingInterrupt where
  id : Option Nat
  priv : Nat
  deriving DecidableEq

def machineEnabled (ring : Nat) : Bool := ring < 3 || ring == 3 && coproc.status.mie

def supervisorEnabled (ring : Nat) : Bool := ring < 1 || ring == 1 && coproc.status.sie

/-- There is no interrupt where the source has the pair of minus ones, and no result for interrupts that
are delegated to user mode. -/
def getPendingInterrupt : Option (Option PendingInterrupt) :=
  let machine := coproc.ip.readMIP &&& coproc.ie.readMIE &&& ~~~coproc.mideleg
  let supervisor := coproc.ip.readSIP &&& coproc.ie.readSIE &&& coproc.mideleg &&& ~~~coproc.sideleg
  if coproc.machineEnabled coproc.executionRing = true ∧ machine ≠ 0 then
    some (some ⟨firstInterrupt machine, 3⟩)
  else if coproc.supervisorEnabled coproc.executionRing = true ∧ supervisor ≠ 0 then
    some (some ⟨firstInterrupt supervisor, 1⟩)
  else if coproc.executionRing = 0 ∧ coproc.status.uie = true ∧
      coproc.ie.readMIE &&& coproc.ip.readMIP &&& coproc.mideleg &&& coproc.sideleg ≠ 0 then none
  else some none

def canTakeInterrupt (ring irq : Nat) : Bool :=
  coproc.machineEnabled ring && ~~~coproc.mideleg &&& maskOf irq ≠ 0 ||
    coproc.supervisorEnabled ring && coproc.mideleg &&& maskOf irq ≠ 0

/-- What the guest or a device does with the coprocessor, and the hart on its own. -/
inductive Operation where
  | write64 (address : Nat) (data : BitVec 64)
  | pend (mask : BitVec 64)
  | unpend (mask : BitVec 64)
  | setExecutionRing (ring : Nat)
  | handleMessage (handling : Fin 32 → InterruptHandling)

def perform : Operation → Option RiscVSystemCoprocessor
  | .write64 address data => coproc.write64 address data
  | .pend mask => some (coproc.machinePendInterrupt mask)
  | .unpend mask => some (coproc.machineUnpendInterrupt mask)
  | .setExecutionRing ring => some { coproc with executionRing := ring }
  | .handleMessage handling => some { coproc with hart := coproc.hart.handleMessage handling }

/-! ### Consistency -/

/-- An interrupt is chosen exactly if one can be taken, and the one that is chosen can be taken. -/
def Selects : Prop :=
  ∃ result, coproc.getPendingInterrupt = some result ∧
    ((∃ p ∈ result, ∃ irq, p.id = some irq) ↔
      ∃ irq, coproc.pending.getLsbD irq = true ∧ coproc.canTakeInterrupt coproc.executionRing irq = true) ∧
    ∀ p ∈ result, ∀ irq, p.id = some irq →
      coproc.pending.getLsbD irq = true ∧ coproc.canTakeInterrupt coproc.executionRing irq = true ∧
        p.priv = if coproc.mideleg.getLsbD irq then 1 else 3

/-- The lines of the hart are those of the pending interrupts. -/
def LinesExact : Prop := ∀ i : Fin 32, (coproc.hart.irqLines i).asserted = coproc.pending.getLsbD i

def isOn (i : Interrupt) : Bool := coproc.ip i && coproc.ie i

def isDelegated (i : Interrupt) : Bool := coproc.mideleg.getLsbD i.bit

/-- While the hart takes interrupts of the supervisor, an interrupt of the machine level that is delegated
is not the only one. -/
def Sees : Prop :=
  coproc.supervisorEnabled coproc.executionRing = true →
    (∃ i, coproc.isOn i = true ∧ coproc.isDelegated i = true ∧ i ∉ Interrupt.supervisor) →
      ∃ i, coproc.isOn i = true ∧ (coproc.isDelegated i = false ∨ i ∈ Interrupt.supervisor)

end RiscVSystemCoprocessor

/-! ### Words of interrupts -/

theorem InterruptBits.getLsbD_read (bits : InterruptBits) (interrupts : List Interrupt) (n : Nat) :
    (bits.read interrupts).getLsbD n = true ↔ ∃ i ∈ interrupts, bits i = true ∧ i.bit.val = n := by
  induction interrupts with
  | nil => simp [read]
  | cons i interrupts ih =>
    have hOne : ((BitVec.ofBool (bits i)).setWidth 64 <<< i.bit.val).getLsbD n = true ↔
        bits i = true ∧ i.bit.val = n := by
      have hBit := i.bit.isLt
      cases bits i with
      | false => simp
      | true =>
        rw [BitVec.getLsbD_shiftLeft]
        simp [BitVec.ofBool]
        omega
    change (_ ||| bits.read interrupts).getLsbD n = true ↔ _
    rw [BitVec.getLsbD_or, Bool.or_eq_true, hOne, ih]
    simp

namespace RiscVSystemCoprocessor

variable {coproc : RiscVSystemCoprocessor} {bits : BitVec 64}

theorem and_maskOf_ne_zero_iff {i : Nat} (hi : i < 31) : bits &&& maskOf i ≠ 0 ↔ bits.getLsbD i = true := by
  have hMask : maskOf i = BitVec.twoPow 64 i := by interval_cases i <;> rfl
  rw [hMask, BitVec.and_twoPow]
  split
  · rename_i hBit
    refine iff_of_true (fun hZero => ?_) hBit
    have hSame := congrArg (BitVec.getLsbD · i) hZero
    simp at hSame
    omega
  · rename_i hBit
    exact iff_of_false (fun hNot => hNot rfl) hBit

theorem mem_machine (i : Interrupt) : i ∈ Interrupt.machine := by cases i <;> decide

theorem bit_lt (i : Interrupt) : i.bit.val < 31 := by cases i <;> decide

theorem bit_injective : Function.Injective fun i : Interrupt => i.bit.val := by
  intro i j hSame
  cases i <;> cases j <;> first | rfl | cases hSame

/-- A word of the interrupts that are on, for some list of them. -/
theorem getLsbD_read_and_read {interrupts : List Interrupt} {n : Nat} :
    (coproc.ip.read interrupts &&& coproc.ie.read interrupts).getLsbD n = true ↔
      ∃ i ∈ interrupts, coproc.isOn i = true ∧ i.bit.val = n := by
  rw [BitVec.getLsbD_and, Bool.and_eq_true, InterruptBits.getLsbD_read, InterruptBits.getLsbD_read]
  constructor
  · rintro ⟨⟨i, hMem, hPending, rfl⟩, j, -, hEnabled, hSame⟩
    obtain rfl := bit_injective hSame
    exact ⟨j, hMem, by rw [isOn, hPending, hEnabled, Bool.and_true], rfl⟩
  · rintro ⟨i, hMem, hOn, rfl⟩
    rw [isOn, Bool.and_eq_true] at hOn
    exact ⟨⟨i, hMem, hOn.1, rfl⟩, i, hMem, hOn.2, rfl⟩

theorem getLsbD_pending {n : Nat} : coproc.pending.getLsbD n = true ↔ ∃ i, coproc.isOn i = true ∧ i.bit.val = n := by
  rw [pending, InterruptBits.readMIP, InterruptBits.readMIE, getLsbD_read_and_read]
  exact exists_congr fun i => and_iff_right (mem_machine i)

/-- A word whose bits are those of the interrupts with a property. -/
def IsWordOf (bits : BitVec 64) (P : Interrupt → Prop) : Prop :=
  ∀ n, bits.getLsbD n = true ↔ ∃ i, P i ∧ i.bit.val = n

variable {P : Interrupt → Prop}

theorem IsWordOf.ne_zero_iff (hWord : IsWordOf bits P) : bits ≠ 0 ↔ ∃ i, P i := by
  constructor
  · intro hNe
    by_contra hNone
    refine hNe (BitVec.eq_of_getLsbD_eq fun n _ => ?_)
    have hClear : ¬ bits.getLsbD n = true := by
      rw [hWord]
      exact fun ⟨i, hi, _⟩ => hNone ⟨i, hi⟩
    exact (Bool.eq_false_of_not_eq_true hClear).trans BitVec.getLsbD_zero.symm
  · rintro ⟨i, hi⟩ rfl
    have hBit := (hWord i.bit).mpr ⟨i, hi, rfl⟩
    exact absurd (hBit.symm.trans BitVec.getLsbD_zero) (by decide)

/-- The first interrupt of a word is one of its interrupts. -/
theorem IsWordOf.firstInterrupt (hWord : IsWordOf bits P) (hSome : ∃ i, P i) :
    ∃ i, P i ∧ firstInterrupt bits = some i.bit.val := by
  obtain ⟨i, hi⟩ := hSome
  have hLt := bit_lt i
  have hFound : (List.range 32).find? (fun n => decide (bits &&& maskOf n ≠ 0)) ≠ none := by
    intro hNone
    have hMiss := List.find?_eq_none.mp hNone i.bit (List.mem_range.mpr i.bit.isLt)
    exact hMiss (decide_eq_true ((and_maskOf_ne_zero_iff hLt).mpr ((hWord _).mpr ⟨i, hi, rfl⟩)))
  obtain ⟨n, hn⟩ := Option.ne_none_iff_exists'.mp hFound
  obtain ⟨hMask, -, hFirst⟩ := List.find?_range_eq_some.mp hn
  have hnLt : n < 31 := by
    by_contra hGe
    have hEarlier := hFirst i.bit (by omega)
    rw [Bool.not_eq_true', decide_eq_false_iff_not, and_maskOf_ne_zero_iff hLt] at hEarlier
    exact hEarlier ((hWord _).mpr ⟨i, hi, rfl⟩)
  obtain ⟨j, hj, hBit⟩ := (hWord n).mp ((and_maskOf_ne_zero_iff hnLt).mp (of_decide_eq_true hMask))
  exact ⟨j, hj, hBit ▸ hn⟩

theorem isWordOf_machine : IsWordOf (coproc.ip.readMIP &&& coproc.ie.readMIE &&& ~~~coproc.mideleg) fun i =>
      coproc.isOn i = true ∧ coproc.isDelegated i = false := by
  intro n
  rw [BitVec.getLsbD_and, Bool.and_eq_true, InterruptBits.readMIP, InterruptBits.readMIE, getLsbD_read_and_read]
  constructor
  · rintro ⟨⟨i, -, hOn, rfl⟩, hNot⟩
    rw [BitVec.getLsbD_not, Bool.and_eq_true, Bool.not_eq_true'] at hNot
    exact ⟨i, ⟨hOn, hNot.2⟩, rfl⟩
  · rintro ⟨i, ⟨hOn, hNot⟩, rfl⟩
    have hLt := bit_lt i
    refine ⟨⟨i, mem_machine i, hOn, rfl⟩, ?_⟩
    rw [BitVec.getLsbD_not, Bool.and_eq_true, Bool.not_eq_true']
    exact ⟨decide_eq_true (by omega), hNot⟩

theorem isWordOf_supervisor (hSideleg : coproc.sideleg = 0) :
    IsWordOf (coproc.ip.readSIP &&& coproc.ie.readSIE &&& coproc.mideleg &&& ~~~coproc.sideleg) fun i =>
      (i ∈ Interrupt.supervisor ∧ coproc.isOn i = true) ∧ coproc.isDelegated i = true := by
  intro n
  rw [hSideleg, show ~~~(0 : BitVec 64) = BitVec.allOnes 64 from BitVec.not_zero, BitVec.and_allOnes,
    BitVec.getLsbD_and, Bool.and_eq_true, InterruptBits.readSIP, InterruptBits.readSIE, getLsbD_read_and_read]
  constructor
  · rintro ⟨⟨i, hMem, hOn, rfl⟩, hDelegated⟩
    exact ⟨i, ⟨⟨hMem, hOn⟩, hDelegated⟩, rfl⟩
  · rintro ⟨i, ⟨⟨hMem, hOn⟩, hDelegated⟩, rfl⟩
    exact ⟨⟨i, hMem, hOn, rfl⟩, hDelegated⟩

theorem canTakeInterrupt_iff {ring : Nat} {i : Interrupt} : coproc.canTakeInterrupt ring i.bit = true ↔
      coproc.machineEnabled ring = true ∧ coproc.isDelegated i = false ∨
        coproc.supervisorEnabled ring = true ∧ coproc.isDelegated i = true := by
  have hLt := bit_lt i
  have hNot : (~~~coproc.mideleg).getLsbD i.bit = !coproc.mideleg.getLsbD i.bit := by
    rw [BitVec.getLsbD_not, decide_eq_true (by omega), Bool.true_and]
  simp only [canTakeInterrupt, Bool.or_eq_true, Bool.and_eq_true, decide_eq_true_eq, and_maskOf_ne_zero_iff hLt,
    hNot, Bool.not_eq_true', isDelegated]

/-- The interrupt is on, and the hart takes it in its ring. -/
def CanTake (coproc : RiscVSystemCoprocessor) (i : Interrupt) : Prop :=
  coproc.isOn i = true ∧
    (coproc.machineEnabled coproc.executionRing = true ∧ coproc.isDelegated i = false ∨
      coproc.supervisorEnabled coproc.executionRing = true ∧ coproc.isDelegated i = true)

theorem canTake_iff {irq : Nat} :
    (coproc.pending.getLsbD irq = true ∧ coproc.canTakeInterrupt coproc.executionRing irq = true) ↔
      ∃ i, coproc.CanTake i ∧ i.bit.val = irq := by
  rw [getLsbD_pending]
  constructor
  · rintro ⟨⟨i, hOn, rfl⟩, hTake⟩
    exact ⟨i, ⟨hOn, canTakeInterrupt_iff.mp hTake⟩, rfl⟩
  · rintro ⟨i, ⟨hOn, hTake⟩, rfl⟩
    exact ⟨⟨i, hOn, rfl⟩, canTakeInterrupt_iff.mpr hTake⟩

/-- A word of interrupts that can be taken, all of them delegated or none, gives a right choice. -/
theorem selects_of_word (hWord : IsWordOf bits P) (hSome : ∃ i, P i) (priv : Nat)
    (hTake : ∀ i, P i → coproc.CanTake i ∧ priv = if coproc.isDelegated i then 1 else 3)
    (hResult : coproc.getPendingInterrupt = some (some ⟨firstInterrupt bits, priv⟩)) : coproc.Selects := by
  obtain ⟨i, hi, hFirst⟩ := hWord.firstInterrupt hSome
  obtain ⟨hCan, hPriv⟩ := hTake i hi
  rw [hFirst] at hResult
  have hBoth := canTake_iff.mpr ⟨i, hCan, rfl⟩
  refine ⟨_, hResult, iff_of_true ⟨_, rfl, i.bit, rfl⟩ ⟨i.bit, hBoth⟩, ?_⟩
  rintro _ ⟨⟩ irq ⟨⟩
  exact ⟨hBoth.1, hBoth.2, hPriv⟩

theorem machineEnabled_of_supervisorEnabled {ring : Nat} (hSupervisor : coproc.supervisorEnabled ring = true) :
    coproc.machineEnabled ring = true := by
  have hRing : ring < 3 := by
    rw [supervisorEnabled, Bool.or_eq_true, Bool.and_eq_true, decide_eq_true_eq, beq_iff_eq] at hSupervisor
    omega
  rw [machineEnabled, decide_eq_true hRing, Bool.true_or]

theorem not_sees_iff (hMachine : ¬ (coproc.machineEnabled coproc.executionRing = true ∧
      ∃ i, coproc.isOn i = true ∧ coproc.isDelegated i = false))
    (hSupervisor : ¬ (coproc.supervisorEnabled coproc.executionRing = true ∧
      ∃ i, (i ∈ Interrupt.supervisor ∧ coproc.isOn i = true) ∧ coproc.isDelegated i = true)) :
    ¬ coproc.Sees ↔ ∃ i, coproc.CanTake i := by
  constructor
  · intro hBlind
    rw [Sees, Classical.not_imp, Classical.not_imp] at hBlind
    obtain ⟨hEnabled, ⟨i, hOn, hDelegated, -⟩, -⟩ := hBlind
    exact ⟨i, hOn, .inr ⟨hEnabled, hDelegated⟩⟩
  · rintro ⟨i, hOn, ⟨hEnabled, hOwn⟩ | ⟨hEnabled, hDelegated⟩⟩ hSees
    · exact hMachine ⟨hEnabled, i, hOn, hOwn⟩
    · have hLevel : i ∉ Interrupt.supervisor := fun hMem => hSupervisor ⟨hEnabled, i, ⟨hMem, hOn⟩, hDelegated⟩
      obtain ⟨j, hOnJ, hOwn | hMem⟩ := hSees hEnabled ⟨i, hOn, hDelegated, hLevel⟩
      · exact hMachine ⟨machineEnabled_of_supervisorEnabled hEnabled, j, hOnJ, hOwn⟩
      · cases hDelegatedJ : coproc.isDelegated j with
        | false => exact hMachine ⟨machineEnabled_of_supervisorEnabled hEnabled, j, hOnJ, hDelegatedJ⟩
        | true => exact hSupervisor ⟨hEnabled, j, ⟨hMem, hOnJ⟩, hDelegatedJ⟩

/-- The choice is right exactly if the supervisor sees the interrupts that it can take. -/
theorem selects_iff (hSideleg : coproc.sideleg = 0) : coproc.Selects ↔ coproc.Sees := by
  have hMachineWord := coproc.isWordOf_machine
  have hSupervisorWord := isWordOf_supervisor hSideleg
  by_cases hMachine : coproc.machineEnabled coproc.executionRing = true ∧
      ∃ i, coproc.isOn i = true ∧ coproc.isDelegated i = false
  · obtain ⟨hEnabled, i, hOn, hOwn⟩ := hMachine
    refine iff_of_true (selects_of_word hMachineWord ⟨i, hOn, hOwn⟩ 3 ?_ ?_) fun _ _ => ⟨i, hOn, .inl hOwn⟩
    · rintro j ⟨hOnJ, hOwnJ⟩
      exact ⟨⟨hOnJ, .inl ⟨hEnabled, hOwnJ⟩⟩, by rw [hOwnJ]; rfl⟩
    · exact if_pos ⟨hEnabled, hMachineWord.ne_zero_iff.mpr ⟨i, hOn, hOwn⟩⟩
  · by_cases hSupervisor : coproc.supervisorEnabled coproc.executionRing = true ∧
        ∃ i, (i ∈ Interrupt.supervisor ∧ coproc.isOn i = true) ∧ coproc.isDelegated i = true
    · obtain ⟨hEnabled, i, ⟨hMem, hOn⟩, hDelegated⟩ := hSupervisor
      refine iff_of_true (selects_of_word hSupervisorWord ⟨i, ⟨hMem, hOn⟩, hDelegated⟩ 1 ?_ ?_)
        fun _ _ => ⟨i, hOn, .inr hMem⟩
      · rintro j ⟨⟨-, hOnJ⟩, hDelegatedJ⟩
        exact ⟨⟨hOnJ, .inr ⟨hEnabled, hDelegatedJ⟩⟩, by rw [hDelegatedJ]; rfl⟩
      · rw [← hMachineWord.ne_zero_iff] at hMachine
        exact (if_neg hMachine).trans (if_pos ⟨hEnabled, hSupervisorWord.ne_zero_iff.mpr ⟨i, ⟨hMem, hOn⟩, hDelegated⟩⟩)
    · have hNone : coproc.getPendingInterrupt = some none := by
        rw [← hMachineWord.ne_zero_iff] at hMachine
        rw [← hSupervisorWord.ne_zero_iff] at hSupervisor
        refine (if_neg hMachine).trans ((if_neg hSupervisor).trans (if_neg ?_))
        rintro ⟨-, -, hUser⟩
        rw [hSideleg] at hUser
        exact hUser BitVec.and_zero
      have hTaken : (∃ irq, coproc.pending.getLsbD irq = true ∧
          coproc.canTakeInterrupt coproc.executionRing irq = true) ↔ ∃ i, coproc.CanTake i := by
        simp only [canTake_iff]
        exact ⟨fun ⟨_, i, hi, _⟩ => ⟨i, hi⟩, fun ⟨i, hi⟩ => ⟨_, i, hi, rfl⟩⟩
      rw [← not_iff_not, not_sees_iff hMachine hSupervisor, ← hTaken]
      constructor
      · intro hNot
        by_contra hNoIrq
        refine hNot ⟨none, hNone, iff_of_false ?_ hNoIrq, fun _ hMem => by cases hMem⟩
        rintro ⟨_, hMem, -⟩
        cases hMem
      · rintro hIrq ⟨result, hSome, hIff, -⟩
        rw [hNone] at hSome
        cases hSome
        obtain ⟨_, hMem, -⟩ := hIff.mpr hIrq
        cases hMem

theorem ip_checkForInterrupts : coproc.checkForInterrupts.ip = coproc.ip := by
  unfold checkForInterrupts
  split <;> rfl

/-! ### The lines -/

/-- The lines of the hart were told what is pending, and nothing has changed since. -/
structure Settled (coproc : RiscVSystemCoprocessor) : Prop where
  told : coproc.truePendingInterrupts = coproc.pending.setWidth 32
  lines : ∀ i : Fin 32, (coproc.hart.irqLines i).asserted = coproc.truePendingInterrupts.getLsbD i
  sideleg : coproc.sideleg = 0

theorem asserted_checkLine {current : BitVec 64} {told : BitVec 32} {hart : ThreadInstance 32} {i : Fin 32}
    (hTold : (hart.irqLines i).asserted = told.getLsbD i) (j : Fin 32) :
    ((checkLine current told hart i).irqLines j).asserted =
      if j = i then current.getLsbD i else (hart.irqLines j).asserted := by
  unfold checkLine
  split
  · rename_i hRise
    rw [ThreadInstance.irqLines_assertLine, Function.update_apply]
    split
    · rw [CPUIRQLine.assert_asserted, hRise.1]
    · rfl
  · rename_i hNoRise
    split
    · rename_i hFall
      rw [ThreadInstance.irqLines_rescindLine, Function.update_apply]
      split
      · rw [CPUIRQLine.rescind_asserted, hFall.1]
      · rfl
    · rename_i hNoFall
      split
      · rename_i hSame
        rw [hSame, hTold]
        revert hNoRise hNoFall
        cases current.getLsbD i <;> cases told.getLsbD i <;> decide
      · rfl

theorem asserted_foldl_checkLine {current : BitVec 64} {told : BitVec 32} {lines : List (Fin 32)}
    (hNodup : lines.Nodup) {hart : ThreadInstance 32}
    (hTold : ∀ i ∈ lines, (hart.irqLines i).asserted = told.getLsbD i) (j : Fin 32) :
    ((lines.foldl (checkLine current told) hart).irqLines j).asserted =
      if j ∈ lines then current.getLsbD j else (hart.irqLines j).asserted := by
  induction lines generalizing hart with
  | nil => rfl
  | cons i lines ih =>
    obtain ⟨hNotMem, hNodup⟩ := List.nodup_cons.mp hNodup
    obtain ⟨hFirst, hRest⟩ := List.forall_mem_cons.mp hTold
    have hTail : ∀ k ∈ lines, ((checkLine current told hart i).irqLines k).asserted = told.getLsbD k := by
      intro k hk
      have hOther : k ≠ i := by
        rintro rfl
        exact hNotMem hk
      rw [asserted_checkLine hFirst, if_neg hOther]
      exact hRest k hk
    rw [List.foldl_cons, ih hNodup hTail, asserted_checkLine hFirst]
    by_cases hSame : j = i
    · simp [hSame, hNotMem]
    · simp [hSame]

theorem getLsbD_setWidth_fin (bits : BitVec 64) (i : Fin 32) : (bits.setWidth 32).getLsbD i = bits.getLsbD i := by
  rw [BitVec.getLsbD_setWidth, decide_eq_true i.isLt, Bool.true_and]

theorem settled_checkForInterrupts
    (hLines : ∀ i : Fin 32, (coproc.hart.irqLines i).asserted = coproc.truePendingInterrupts.getLsbD i)
    (hSideleg : coproc.sideleg = 0) : coproc.checkForInterrupts.Settled := by
  unfold checkForInterrupts
  split
  · rename_i hSame
    refine ⟨?_, fun i => ?_, hSideleg⟩
    · change coproc.truePendingInterrupts = coproc.pending.setWidth 32
      rw [hSame, BitVec.setWidth_setWidth_of_le _ (by decide), BitVec.setWidth_eq]
    · exact ThreadInstance.asserted_pendIRQ i |>.trans (hLines i)
  · refine ⟨rfl, fun i => ?_, hSideleg⟩
    refine (ThreadInstance.asserted_pendIRQ i).trans ?_
    rw [asserted_foldl_checkLine (List.nodup_finRange 32) fun i _ => hLines i, if_pos (List.mem_finRange i)]
    exact (getLsbD_setWidth_fin coproc.pending i).symm

theorem settled_new (mmu : RiscVMMU) (ring : Nat) : (new mmu ring).Settled :=
  settled_checkForInterrupts (fun _ => BitVec.getLsbD_zero.symm) rfl

theorem settled_write64 (hSettled : coproc.Settled) {address : Nat} {data : BitVec 64}
    {after : RiscVSystemCoprocessor} (hWrite : coproc.write64 address data = some after) : after.Settled := by
  unfold write64 at hWrite
  split_ifs at hWrite
  · exact Option.some.inj hWrite ▸ settled_checkForInterrupts hSettled.lines hSettled.sideleg
  · exact Option.some.inj hWrite ▸ settled_checkForInterrupts hSettled.lines hSettled.sideleg
  · exact Option.some.inj hWrite ▸ settled_checkForInterrupts hSettled.lines hSettled.sideleg
  · obtain ⟨mmu, -, rfl⟩ := Option.map_eq_some_iff.mp hWrite
    exact ⟨hSettled.told, hSettled.lines, hSettled.sideleg⟩
  · have hOnce : ({ coproc with status := .writeMSTATUS data } : RiscVSystemCoprocessor).checkForInterrupts.Settled :=
      settled_checkForInterrupts hSettled.lines hSettled.sideleg
    exact Option.some.inj hWrite ▸ settled_checkForInterrupts hOnce.lines hOnce.sideleg
  · exact Option.some.inj hWrite ▸ ⟨hSettled.told, hSettled.lines, hSettled.sideleg⟩
  · exact Option.some.inj hWrite ▸ settled_checkForInterrupts hSettled.lines hSettled.sideleg
  · exact Option.some.inj hWrite ▸ settled_checkForInterrupts hSettled.lines hSettled.sideleg
  · exact Option.some.inj hWrite ▸ hSettled

theorem settled_perform (hSettled : coproc.Settled) {op : Operation} {after : RiscVSystemCoprocessor}
    (hPerform : coproc.perform op = some after) : after.Settled := by
  cases op with
  | write64 address data => exact settled_write64 hSettled hPerform
  | pend mask => exact Option.some.inj hPerform ▸ settled_checkForInterrupts hSettled.lines hSettled.sideleg
  | unpend mask => exact Option.some.inj hPerform ▸ settled_checkForInterrupts hSettled.lines hSettled.sideleg
  | setExecutionRing ring => exact Option.some.inj hPerform ▸ ⟨hSettled.told, hSettled.lines, hSettled.sideleg⟩
  | handleMessage handling =>
    refine Option.some.inj hPerform ▸ ⟨hSettled.told, fun i => ?_, hSettled.sideleg⟩
    exact (ThreadInstance.asserted_handleMessage i).trans (hSettled.lines i)

theorem linesExact_of_settled (hSettled : coproc.Settled) : coproc.LinesExact := by
  intro i
  rw [hSettled.lines, hSettled.told, getLsbD_setWidth_fin]

/-! ### Histories -/

/-- The choice of an interrupt and the lines are right after an operation, if that ends. -/
def StaysConsistent (coproc : RiscVSystemCoprocessor) (op : Operation) : Prop :=
  ∀ after ∈ coproc.perform op, after.Selects ∧ after.LinesExact

/-- The supervisor sees what it can take after an operation. -/
def StaysSeen (coproc : RiscVSystemCoprocessor) (op : Operation) : Prop :=
  ∀ after ∈ coproc.perform op, after.Sees

def next (coproc : RiscVSystemCoprocessor) (op : Operation) : RiscVSystemCoprocessor :=
  (coproc.perform op).getD coproc

/-- The coprocessor is consistent after every operation exactly if it never comes to a state in which the
only interrupts that are on are of the machine level and delegated to a supervisor who takes them. -/
theorem staysConsistent_throughout_iff (mmu : RiscVMMU) (ring : Nat) (ops : List Operation) :
    Throughout next StaysConsistent (new mmu ring) ops ↔ Throughout next StaysSeen (new mmu ring) ops := by
  refine throughout_congr Settled (fun coproc op hSettled => ?_) (fun coproc op hSettled _ => ?_)
    (settled_new mmu ring) ops
  · refine forall_congr' fun after => imp_congr_right fun hPerform => ?_
    have hAfter := settled_perform hSettled hPerform
    rw [selects_iff hAfter.sideleg]
    exact and_iff_left (linesExact_of_settled hAfter)
  · unfold next
    cases hPerform : coproc.perform op with
    | none => exact hSettled
    | some after => exact settled_perform hSettled hPerform

/-- The timer interrupt of the machine is delegated, enabled and pending, while a user program runs. -/
theorem delegated_timer_not_chosen :
    ¬ Throughout next StaysConsistent (new ⟨.noTxln, 0⟩ 0)
      [.write64 0x303 0x80, .write64 0x304 0x80, .pend 0x80] := by
  rintro ⟨-, -, hLast, -⟩
  obtain ⟨result, hResult, hChosen, -⟩ := (hLast _ rfl).1
  have hNone : result = none := by
    refine (Option.some.inj hResult).symm.trans ?_
    decide +kernel
  obtain ⟨p, hMem, -⟩ := hChosen.mpr ⟨7, by decide +kernel, by decide +kernel⟩
  rw [hNone] at hMem
  cases hMem

end RiscVSystemCoprocessor

end Gensim.Arch
