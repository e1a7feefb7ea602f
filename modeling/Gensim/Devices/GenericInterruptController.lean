import Gensim.Devices.CPUIRQLine
import Gensim.Lib.Loop

/-! The generic interrupt controller, with its distributor and its interface to the CPU. -/
namespace Gensim.Devices

open Operations

structure GICIRQLine where
  enabled : Bool
  pending : Bool
  raised : Bool
  edgeTriggered : Bool
  priority : BitVec 8

namespace GICIRQLine

def new : GICIRQLine := ⟨false, false, false, false, 0⟩

variable (irq : GICIRQLine)

def enable : GICIRQLine :=
  { irq with enabled := true, pending := irq.pending || (irq.raised && !irq.edgeTriggered) }

/-- The line takes part in the choice of an interrupt. -/
def isSignalled : Bool := irq.enabled && (irq.pending || (!irq.edgeTriggered && irq.raised))

end GICIRQLine

/-- The controller with both of its interfaces. There is no interrupt where the source has number 1023. -/
structure GIC where
  irqs : Fin 96 → GICIRQLine
  distributorCtrl : Bool
  config : Fin 6 → BitVec 32
  cpuCtrl : Bool
  prioMask : BitVec 8
  binpnt : BitVec 3
  currentPending : Option (Fin 96)
  runningIrq : Option (Fin 96)
  runningPriority : Nat
  lastActive : Fin 96 → Option (Fin 96)
  irqLine : CPUIRQLine

namespace GIC

/-- The registers of the configuration are not set at the start. -/
def new (config : Fin 6 → BitVec 32) : GIC where
  irqs _ := .new
  distributorCtrl := false
  config := config
  cpuCtrl := false
  prioMask := 0
  binpnt := 3
  currentPending := none
  runningIrq := none
  runningPriority := 0x100
  lastActive _ := none
  irqLine := .new

/-- The number that the guest sees. -/
def number : Option (Fin 96) → Nat
  | none => 1023
  | some irq => irq

variable (gic : GIC)

/-! ### The interface to the CPU -/

/-- One round of the loop in `update`, with the best priority and line so far. -/
def consider (choice : Nat × Option (Fin 96)) (irqi : Fin 96) : Nat × Option (Fin 96) :=
  if (gic.irqs irqi).isSignalled ∧ (gic.irqs irqi).priority.toNat < choice.1 then
    ((gic.irqs irqi).priority.toNat, some irqi)
  else choice

def best : Nat × Option (Fin 96) := (List.finRange 96).foldl gic.consider (0x100, none)

/-- Both interfaces are enabled, and the best priority is below the mask. -/
def isBelowMask : Bool := gic.cpuCtrl && gic.distributorCtrl && gic.best.1 < gic.prioMask.toNat

def update : GIC :=
  { gic with
    currentPending := if gic.isBelowMask then gic.best.2 else none
    irqLine :=
      if gic.isBelowMask ∧ gic.best.1 < gic.runningPriority then gic.irqLine.assert.1
      else gic.irqLine.rescind.1 }

def priorityOf : Option (Fin 96) → Nat
  | none => 0x100
  | some irq => (gic.irqs irq).priority.toNat

/-- The number that is returned, and the controller after that. -/
def acknowledge : Nat × GIC :=
  match gic.currentPending with
  | none => (1023, gic)
  | some irq =>
      if gic.runningPriority ≤ (gic.irqs irq).priority.toNat then (1023, gic)
      else
        (irq, { gic with
          lastActive := Function.update gic.lastActive irq gic.runningIrq
          irqs := Function.update gic.irqs irq { gic.irqs irq with pending := false }
          runningIrq := some irq
          runningPriority := (gic.irqs irq).priority.toNat }.update)

/-- The next interrupt that the loop in `complete` looks at. -/
def nextActive (irq tmp : Fin 96) : Option (Fin 96) :=
  (gic.lastActive tmp).filter (· ≠ irq)

/-- There is no result where the loop does not end. If it ends, it does so before it has looked at more
than all the lines. -/
def complete (irq : Nat) : Option GIC :=
  if hIrq : irq < 96 then
    match gic.runningIrq with
    | none => some gic
    | some running =>
        if running = ⟨irq, hIrq⟩ then
          some { gic with
            runningIrq := gic.lastActive running
            runningPriority := gic.priorityOf (gic.lastActive running) }.update
        else
          (Loop.exhaust (gic.nextActive ⟨irq, hIrq⟩) 96 running).map fun tmp =>
            if gic.lastActive tmp = some ⟨irq, hIrq⟩ then
              { gic with
                lastActive := Function.update gic.lastActive tmp (gic.lastActive ⟨irq, hIrq⟩) }.update
            else gic.update
  else some gic

/-- What is read, if there is such a register, and the controller after that. -/
def cpuRead (off : Nat) : Option Nat × GIC :=
  if off = 0x00 then (some gic.cpuCtrl.toNat, gic)
  else if off = 0x04 then (some gic.prioMask.toNat, gic)
  else if off = 0x08 then (some gic.binpnt.toNat, gic)
  else if off = 0x0c then (some gic.acknowledge.1, gic.acknowledge.2)
  else if off = 0x14 then (some gic.runningPriority, gic)
  else if off = 0x18 then (some (number gic.currentPending), gic)
  else (none, gic)

/-- There is no result where `complete` has none. -/
def cpuWrite (off : Nat) (data : BitVec 64) : Option GIC :=
  if off = 0x00 then some { gic with cpuCtrl := data.getLsbD 0 }.update
  else if off = 0x04 then some { gic with prioMask := data.setWidth 8 }.update
  else if off = 0x08 then some { gic with binpnt := data.setWidth 3 }.update
  else if off = 0x10 then gic.complete (data.setWidth 32).toNat
  else some gic

/-! ### The distributor -/

/-- There is no result where the assertion in `get_gic_irq` fails. -/
def modifyIrq (index : Nat) (f : GICIRQLine → GICIRQLine) : Option GIC :=
  if hIndex : index < 96 then
    some { gic with irqs := Function.update gic.irqs ⟨index, hIndex⟩ (f (gic.irqs ⟨index, hIndex⟩)) }
  else none

/-- Change the lines from `base` on whose bit is set. -/
def forBits (f : GICIRQLine → GICIRQLine) (base : Nat) (bits : BitVec 8) : Option GIC :=
  (List.range 8).foldlM
    (fun gic i => if bits.getLsbD i then gic.modifyIrq (base + i) f else some gic) gic

def setEnabled (base : Nat) (bits : BitVec 8) : Option GIC := gic.forBits GICIRQLine.enable base bits

def clearEnabled (base : Nat) (bits : BitVec 8) : Option GIC :=
  gic.forBits (fun irq => { irq with enabled := false }) base bits

def setPending (base : Nat) (bits : BitVec 8) : Option GIC :=
  gic.forBits (fun irq => { irq with pending := true }) base bits

def clearPending (base : Nat) (bits : BitVec 8) : Option GIC :=
  gic.forBits (fun irq => { irq with pending := false }) base bits

def setPriority (index : Nat) (priority : BitVec 8) : Option GIC :=
  gic.modifyIrq index fun irq => { irq with priority := priority }

/-- Go through the bytes that are written, each for so many lines. -/
def forBytes (f : GIC → Nat → BitVec 8 → Option GIC) (base lines len : Nat) (data : BitVec 64) : Option GIC :=
  (List.range len).foldlM
    (fun gic i => f gic (base + lines * i) ((data >>> (8 * i)).setWidth 8)) gic

/-- The data, if the register is known, and the controller, which a read leaves as it is. -/
def distributorRead (off : Nat) : Option (BitVec 32) × GIC :=
  let data : Option (BitVec 32) :=
    if off = 0x00 then some (BitVec.ofNat 32 gic.distributorCtrl.toNat)
    else if off = 0x04 then some 0x2
    else if 0x100 ≤ off ∧ off ≤ 0x108 ∨ 0x180 ≤ off ∧ off ≤ 0x188 then some 0
    else if 0x200 ≤ off ∧ off ≤ 0x208 ∨ 0x280 ≤ off ∧ off ≤ 0x288 then some 0
    else if 0x400 ≤ off ∧ off ≤ 0x45c ∨ 0x800 ≤ off ∧ off ≤ 0x85c then some 0
    else if hOff : 0xc00 ≤ off ∧ off ≤ 0xc14 then some (gic.config ⟨(off - 0xc00) / 4, by omega⟩)
    else if off = 0xfe0 then some 0x90
    else if off = 0xfe4 then some 0x13
    else if off = 0xfe8 then some 0x4
    else if off = 0xfec then some 0x0
    else none
  (data, gic)

/-- There is no result where an assertion fails. The targets are left out, for they are not read. -/
def distributorWrite (off len : Nat) (data : BitVec 64) : Option GIC :=
  if off = 0x00 then some { gic with distributorCtrl := data.getLsbD 0 }.update
  else if 0x100 ≤ off ∧ off ≤ 0x108 then (gic.forBytes setEnabled ((off - 0x100) * 8) 8 len data).map update
  else if 0x180 ≤ off ∧ off ≤ 0x188 then (gic.forBytes clearEnabled ((off - 0x180) * 8) 8 len data).map update
  else if 0x200 ≤ off ∧ off ≤ 0x208 then (gic.forBytes setPending ((off - 0x200) * 8) 8 len data).map update
  else if 0x280 ≤ off ∧ off ≤ 0x288 then (gic.forBytes clearPending ((off - 0x280) * 8) 8 len data).map update
  else if 0x400 ≤ off ∧ off ≤ 0x45c then (gic.forBytes setPriority (off - 0x400) 1 len data).map update
  else if hOff : 0xc00 ≤ off ∧ off ≤ 0xc14 then
    some { gic with
      config := Function.update gic.config ⟨(off - 0xc00) / 4, by omega⟩ (data.setWidth 32) }
  else some gic

/-! ### The lines -/

def assertLine (l : Fin 96) : GIC :=
  let irq := gic.irqs l
  if irq.raised then gic
  else
    { gic with
      irqs := Function.update gic.irqs l
        { irq with raised := true, pending := irq.pending || irq.edgeTriggered } }.update

def rescindLine (l : Fin 96) : GIC :=
  let irq := gic.irqs l
  if irq.raised then { gic with irqs := Function.update gic.irqs l { irq with raised := false } }.update
  else gic

/-- What a device does with a line, or the guest with a word of the registers. -/
inductive Operation where
  | assertLine (l : Fin 96)
  | rescindLine (l : Fin 96)
  | distributorRead (word : Nat)
  | distributorWrite (word : Nat) (data : BitVec 64)
  | cpuRead (word : Nat)
  | cpuWrite (word : Nat) (data : BitVec 64)

def perform : Operation → Option GIC
  | .assertLine l => some (gic.assertLine l)
  | .rescindLine l => some (gic.rescindLine l)
  | .distributorRead word => some (gic.distributorRead (4 * word)).2
  | .distributorWrite word data => gic.distributorWrite (4 * word) 4 data
  | .cpuRead word => some (gic.cpuRead (4 * word)).2
  | .cpuWrite word data => gic.cpuWrite (4 * word) data

/-! ### Signalling -/

/-- The line is signalled and has the smallest priority of those that are. -/
def IsBest (irq : Fin 96) : Prop :=
  (gic.irqs irq).isSignalled = true ∧
    ∀ other, (gic.irqs other).isSignalled = true →
      (gic.irqs irq).priority.toNat ≤ (gic.irqs other).priority.toNat

/-- Both interfaces are enabled, and the interrupt is best, below the mask and below what is running. -/
def IsDue (irq : Fin 96) : Prop :=
  (gic.cpuCtrl = true ∧ gic.distributorCtrl = true) ∧ gic.IsBest irq ∧
    (gic.irqs irq).priority.toNat < gic.prioMask.toNat ∧
    (gic.irqs irq).priority.toNat < gic.runningPriority

/-- The line to the CPU is asserted exactly if some interrupt is due, and one that is due is then
acknowledged. -/
def SignalsExactly : Prop :=
  (gic.irqLine.asserted = true ↔ ∃ irq, gic.IsDue irq) ∧
    (gic.irqLine.asserted = true → ∃ irq, gic.IsDue irq ∧ gic.acknowledge.1 = irq)

/-- What `update` sets is as it would be set again. -/
def Settled : Prop :=
  gic.currentPending = (if gic.isBelowMask then gic.best.2 else none) ∧
    (gic.irqLine.asserted = true ↔ gic.isBelowMask = true ∧ gic.best.1 < gic.runningPriority)

/-- The choice among some lines: one that is best, if there is any. -/
inductive IsChoice (lines : List (Fin 96)) : Nat × Option (Fin 96) → Prop
  | none : (∀ irq ∈ lines, (gic.irqs irq).isSignalled = false) → IsChoice lines (0x100, none)
  | some {irq : Fin 96} : (gic.irqs irq).isSignalled = true →
      (∀ other ∈ lines, (gic.irqs other).isSignalled = true →
        (gic.irqs irq).priority.toNat ≤ (gic.irqs other).priority.toNat) →
      IsChoice lines ((gic.irqs irq).priority.toNat, some irq)

variable {gic}

theorem isChoice_consider {lines : List (Fin 96)} {choice : Nat × Option (Fin 96)}
    (hChoice : gic.IsChoice lines choice) (irqi : Fin 96) :
    gic.IsChoice (lines ++ [irqi]) (gic.consider choice irqi) := by
  unfold consider
  split
  · rename_i hBetter
    refine .some hBetter.1 fun other hOther hSignalled => ?_
    cases hChoice with
    | none hNone =>
      rcases List.mem_append.mp hOther with hOld | hNew
      · rw [hNone other hOld] at hSignalled
        cases hSignalled
      · rw [List.mem_singleton.mp hNew]
    | some _ hLeast =>
      rcases List.mem_append.mp hOther with hOld | hNew
      · exact hBetter.2.le.trans (hLeast other hOld hSignalled)
      · rw [List.mem_singleton.mp hNew]
  · rename_i hWorse
    cases hChoice with
    | none hNone =>
      refine .none (List.forall_mem_append.mpr ⟨hNone, List.forall_mem_singleton.mpr ?_⟩)
      by_contra hSignalled
      exact hWorse ⟨Bool.eq_true_of_not_eq_false hSignalled, (gic.irqs irqi).priority.isLt⟩
    | some hIrq hLeast =>
      refine .some hIrq (List.forall_mem_append.mpr ⟨hLeast, List.forall_mem_singleton.mpr ?_⟩)
      exact fun hSignalled => not_lt.mp fun hLess => hWorse ⟨hSignalled, hLess⟩

theorem isChoice_best : gic.IsChoice (List.finRange 96) gic.best := by
  unfold best
  induction List.finRange 96 using List.reverseRecOn with
  | nil => exact .none fun irq hMem => absurd hMem List.not_mem_nil
  | append_singleton lines irqi ih =>
    rw [List.foldl_append]
    exact isChoice_consider ih irqi

theorem settled_update (gic : GIC) : gic.update.Settled := by
  refine ⟨rfl, ?_⟩
  change (if gic.isBelowMask ∧ gic.best.1 < gic.runningPriority then gic.irqLine.assert.1
    else gic.irqLine.rescind.1).asserted = true ↔ gic.isBelowMask = true ∧ gic.best.1 < gic.runningPriority
  split
  · rename_i hRaise
    exact iff_of_true CPUIRQLine.assert_asserted hRaise
  · rename_i hLow
    rw [CPUIRQLine.rescind_asserted]
    exact iff_of_false Bool.false_ne_true hLow

theorem isBelowMask_iff : gic.isBelowMask = true ↔ (gic.cpuCtrl = true ∧ gic.distributorCtrl = true) ∧
      gic.best.1 < gic.prioMask.toNat := by
  rw [isBelowMask, Bool.and_eq_true, Bool.and_eq_true, decide_eq_true_eq]

theorem best_eq_of_isBest {irq : Fin 96} (hBest : gic.IsBest irq) : gic.best.1 = (gic.irqs irq).priority.toNat := by
  have hChoice := gic.isChoice_best
  generalize gic.best = choice at hChoice
  cases hChoice with
  | none hNone => cases hBest.1.symm.trans (hNone irq (List.mem_finRange irq))
  | some hSignalled hLeast => exact le_antisymm (hLeast irq (List.mem_finRange irq) hBest.1) (hBest.2 _ hSignalled)

/-- There is a best line if a priority was found. -/
theorem exists_isBest (hFound : gic.best.1 < 0x100) : ∃ irq, gic.IsBest irq ∧ gic.best.2 = some irq := by
  have hChoice := gic.isChoice_best
  generalize gic.best = choice at hChoice hFound
  cases hChoice with
  | none => exact absurd hFound (lt_irrefl _)
  | @some irq hSignalled hLeast => exact ⟨irq, ⟨hSignalled, fun other => hLeast other (List.mem_finRange other)⟩, rfl⟩

theorem isDue_iff {irq : Fin 96} :
    gic.IsDue irq ↔ gic.IsBest irq ∧ gic.isBelowMask = true ∧ gic.best.1 < gic.runningPriority := by
  rw [IsDue, and_left_comm]
  refine and_congr_right fun hBest => ?_
  rw [isBelowMask_iff, best_eq_of_isBest hBest]
  exact and_assoc.symm

theorem signalsExactly_of_settled (hSettled : gic.Settled) : gic.SignalsExactly := by
  obtain ⟨hPending, hLine⟩ := hSettled
  rw [SignalsExactly, hLine]
  have hFind (hBoth : gic.isBelowMask = true ∧ gic.best.1 < gic.runningPriority) :
      ∃ irq, gic.IsDue irq ∧ gic.best.2 = some irq := by
    have hMask := (isBelowMask_iff.mp hBoth.1).2
    obtain ⟨irq, hBest, hSame⟩ := gic.exists_isBest (hMask.trans gic.prioMask.isLt)
    exact ⟨irq, isDue_iff.mpr ⟨hBest, hBoth⟩, hSame⟩
  refine ⟨⟨fun hBoth => (hFind hBoth).imp fun _ => And.left, ?_⟩, fun hBoth => ?_⟩
  · rintro ⟨irq, hDue⟩
    exact (isDue_iff.mp hDue).2
  · obtain ⟨irq, hDue, hSame⟩ := hFind hBoth
    refine ⟨irq, hDue, ?_⟩
    rw [acknowledge, hPending, if_pos hBoth.1, hSame]
    dsimp only
    rw [if_neg (not_le.mpr hDue.2.2.2)]

/-! ### Operations -/

section

variable (hSettled : gic.Settled)
include hSettled

theorem settled_acknowledge : gic.acknowledge.2.Settled := by
  unfold acknowledge
  split
  · exact hSettled
  · split
    · exact hSettled
    · exact settled_update _

theorem settled_assertLine (l : Fin 96) : (gic.assertLine l).Settled := by
  unfold assertLine
  dsimp only
  split
  · exact hSettled
  · exact settled_update _

theorem settled_rescindLine (l : Fin 96) : (gic.rescindLine l).Settled := by
  unfold rescindLine
  dsimp only
  split
  · exact settled_update _
  · exact hSettled

theorem settled_cpuRead (off : Nat) : (gic.cpuRead off).2.Settled := by
  have hAfter := settled_acknowledge hSettled
  unfold cpuRead
  split_ifs <;> assumption

end

variable {after : GIC}

section

variable (hSettled : gic.Settled)
include hSettled

theorem settled_complete {irq : Nat} (hComplete : gic.complete irq = some after) : after.Settled := by
  unfold complete at hComplete
  split at hComplete
  · split at hComplete
    · exact Option.some.inj hComplete ▸ hSettled
    · split at hComplete
      · exact Option.some.inj hComplete ▸ settled_update _
      · obtain ⟨tmp, -, rfl⟩ := Option.map_eq_some_iff.mp hComplete
        split <;> exact settled_update _
  · exact Option.some.inj hComplete ▸ hSettled

theorem settled_cpuWrite {off : Nat} {data : BitVec 64} (hWrite : gic.cpuWrite off data = some after) :
    after.Settled := by
  unfold cpuWrite at hWrite
  split_ifs at hWrite
  · exact Option.some.inj hWrite ▸ settled_update _
  · exact Option.some.inj hWrite ▸ settled_update _
  · exact Option.some.inj hWrite ▸ settled_update _
  · exact settled_complete hSettled hWrite
  · exact Option.some.inj hWrite ▸ hSettled

theorem settled_distributorWrite {off len : Nat} {data : BitVec 64}
    (hWrite : gic.distributorWrite off len data = some after) : after.Settled := by
  have hUpdated {result : Option GIC} (hMap : result.map update = some after) : after.Settled := by
    obtain ⟨middle, -, rfl⟩ := Option.map_eq_some_iff.mp hMap
    exact settled_update middle
  unfold distributorWrite at hWrite
  split_ifs at hWrite
  · exact Option.some.inj hWrite ▸ settled_update _
  · exact hUpdated hWrite
  · exact hUpdated hWrite
  · exact hUpdated hWrite
  · exact hUpdated hWrite
  · exact hUpdated hWrite
  · exact Option.some.inj hWrite ▸ hSettled
  · exact Option.some.inj hWrite ▸ hSettled

theorem settled_perform {op : Operation} (hPerform : gic.perform op = some after) : after.Settled := by
  cases op with
  | assertLine l => exact Option.some.inj hPerform ▸ settled_assertLine hSettled l
  | rescindLine l => exact Option.some.inj hPerform ▸ settled_rescindLine hSettled l
  | distributorRead word => exact Option.some.inj hPerform ▸ hSettled
  | distributorWrite word data => exact settled_distributorWrite hSettled hPerform
  | cpuRead word => exact Option.some.inj hPerform ▸ settled_cpuRead hSettled _
  | cpuWrite word data => exact settled_cpuWrite hSettled hPerform

end

theorem settled_new (config : Fin 6 → BitVec 32) : (GIC.new config).Settled :=
  ⟨rfl, iff_of_false Bool.false_ne_true fun hBoth => absurd hBoth.1 Bool.false_ne_true⟩

/-! ### Operations that end -/

theorem exists_modifyIrq {index : Nat} (hIndex : index < 96) (f : GICIRQLine → GICIRQLine) :
    ∃ after, gic.modifyIrq index f = some after :=
  ⟨_, dif_pos hIndex⟩

theorem exists_forBits (f : GICIRQLine → GICIRQLine) {base : Nat} (hBase : base + 8 ≤ 96) (bits : BitVec 8) :
    ∃ after, gic.forBits f base bits = some after := by
  refine Loop.exists_foldlM (fun i hMem gic => ?_) gic
  have hi := List.mem_range.mp hMem
  split
  · exact exists_modifyIrq (by omega) f
  · exact ⟨gic, rfl⟩

theorem exists_map_update_forBytes {f : GIC → Nat → BitVec 8 → Option GIC} {base lines len : Nat}
    (hBytes : ∀ gic : GIC, ∀ i < len, ∀ byte, ∃ after, f gic (base + lines * i) byte = some after)
    (data : BitVec 64) : ∃ after, (gic.forBytes f base lines len data).map update = some after := by
  obtain ⟨middle, hMiddle⟩ : ∃ middle, gic.forBytes f base lines len data = some middle :=
    Loop.exists_foldlM (fun i hMem gic => hBytes gic i (List.mem_range.mp hMem) _) gic
  exact ⟨middle.update, by rw [hMiddle, Option.map_some]⟩

theorem exists_distributorWrite (word : Nat) (data : BitVec 64) :
    ∃ after, gic.distributorWrite (4 * word) 4 data = some after := by
  have hBits (f : GICIRQLine → GICIRQLine) {start : Nat} (hStart : start % 4 = 0)
      (hWord : start ≤ 4 * word ∧ 4 * word ≤ start + 8) (gic : GIC) (i : Nat) (hi : i < 4) (byte : BitVec 8) :
      ∃ after, gic.forBits f ((4 * word - start) * 8 + 8 * i) byte = some after :=
    exists_forBits f (by omega) byte
  unfold distributorWrite
  split_ifs with h0 hSetEnabled hClearEnabled hSetPending hClearPending hPriority
  · exact ⟨_, rfl⟩
  · exact exists_map_update_forBytes (hBits _ (by omega) hSetEnabled) data
  · exact exists_map_update_forBytes (hBits _ (by omega) hClearEnabled) data
  · exact exists_map_update_forBytes (hBits _ (by omega) hSetPending) data
  · exact exists_map_update_forBytes (hBits _ (by omega) hClearPending) data
  · exact exists_map_update_forBytes (fun gic i hi byte => exists_modifyIrq (by omega) _) data
  · exact ⟨_, rfl⟩
  · exact ⟨_, rfl⟩

/-- From one active interrupt to those it has interrupted, some line is the last or is on top of `irq`. -/
def ActiveEnds (gic : GIC) (irq running : Fin 96) : Prop :=
  ∃ tmp, Relation.ReflTransGen (fun a b => gic.lastActive a = some b) running tmp ∧
    (gic.lastActive tmp = none ∨ gic.lastActive tmp = some irq)

theorem nextActive_eq_none_iff {irq tmp : Fin 96} :
    gic.nextActive irq tmp = none ↔ gic.lastActive tmp = none ∨ gic.lastActive tmp = some irq := by
  unfold nextActive
  cases gic.lastActive tmp with
  | none => simp
  | some next => simp [Option.filter]

theorem lastActive_of_nextActive {irq tmp next : Fin 96} (hNext : gic.nextActive irq tmp = some next) :
    gic.lastActive tmp = some next :=
  (Option.filter_eq_some_iff.mp hNext).1

/-- The loop in `complete` ends within so many steps exactly if it ends. -/
theorem exists_exhaust_nextActive_iff {irq running : Fin 96} :
    (∃ tmp, Loop.exhaust (gic.nextActive irq) 96 running = some tmp) ↔ gic.ActiveEnds irq running := by
  constructor
  · rintro ⟨tmp, hRun⟩
    obtain ⟨hPath, hLast⟩ := Loop.exists_exhaust_iff.mp ⟨96, hRun⟩
    exact ⟨tmp, hPath.lift id fun a b => lastActive_of_nextActive, nextActive_eq_none_iff.mp hLast⟩
  · rintro ⟨tmp, hPath, hLast⟩
    obtain ⟨last, hEnds⟩ : ∃ last, ∃ n, Loop.exhaust (gic.nextActive irq) n running = some last := by
      induction hPath using Relation.ReflTransGen.head_induction_on with
      | refl => exact ⟨tmp, Loop.exists_exhaust_iff.mpr ⟨.refl, nextActive_eq_none_iff.mpr hLast⟩⟩
      | @head a b hFirst _ ih =>
        obtain ⟨last, hEnds⟩ := ih
        obtain ⟨hRest, hStop⟩ := Loop.exists_exhaust_iff.mp hEnds
        cases hNext : gic.nextActive irq a with
        | none => exact ⟨a, Loop.exists_exhaust_iff.mpr ⟨.refl, hNext⟩⟩
        | some c =>
          obtain rfl := Option.some.inj ((lastActive_of_nextActive hNext).symm.trans hFirst)
          exact ⟨last, Loop.exists_exhaust_iff.mpr ⟨.head hNext hRest, hStop⟩⟩
    obtain ⟨n, hRun⟩ := hEnds
    exact ⟨last, Loop.exhaust_card hRun⟩

/-- An end of interrupt for another interrupt than the running one comes when the active ones are not
a cycle. -/
def Ends (gic : GIC) : Operation → Prop
  | .cpuWrite word data => 4 * word = 0x10 → ∀ (hIrq : (data.setWidth 32).toNat < 96),
      ∀ running ∈ gic.runningIrq, running ≠ ⟨_, hIrq⟩ → gic.ActiveEnds ⟨_, hIrq⟩ running
  | _ => True

theorem exists_complete_iff {irq : Nat} : (∃ after, gic.complete irq = some after) ↔
      ∀ (hIrq : irq < 96), ∀ running ∈ gic.runningIrq, running ≠ ⟨irq, hIrq⟩ → gic.ActiveEnds ⟨irq, hIrq⟩ running := by
  unfold complete
  split
  · rename_i hIrq
    cases hRunning : gic.runningIrq with
    | none => exact iff_of_true ⟨gic, rfl⟩ (fun _ running hMem => by cases hMem)
    | some running =>
      dsimp only
      split
      · rename_i hSame
        refine iff_of_true ⟨_, rfl⟩ fun _ other hMem hOther => ?_
        obtain rfl := Option.mem_some_iff.mp hMem
        exact absurd hSame hOther
      · rename_i hOther
        rw [← Option.isSome_iff_exists, Option.isSome_map, Option.isSome_iff_exists, exists_exhaust_nextActive_iff]
        refine ⟨fun hEnds _ other hMem _ => ?_, fun hEnds => hEnds hIrq running rfl hOther⟩
        rwa [← Option.mem_some_iff.mp hMem]
  · rename_i hNo
    exact iff_of_true ⟨gic, rfl⟩ fun hIrq => absurd hIrq hNo

theorem exists_perform_iff (op : Operation) : (∃ after, gic.perform op = some after) ↔ gic.Ends op := by
  cases op with
  | assertLine l => exact iff_of_true ⟨_, rfl⟩ trivial
  | rescindLine l => exact iff_of_true ⟨_, rfl⟩ trivial
  | distributorRead word => exact iff_of_true ⟨_, rfl⟩ trivial
  | distributorWrite word data => exact iff_of_true (exists_distributorWrite word data) trivial
  | cpuRead word => exact iff_of_true ⟨_, rfl⟩ trivial
  | cpuWrite word data =>
    change (∃ after, gic.cpuWrite (4 * word) data = some after) ↔ _
    unfold cpuWrite
    dsimp only [Ends]
    split_ifs with h0 h1 h2 hComplete
    · exact iff_of_true ⟨_, rfl⟩ fun hOff => by omega
    · exact iff_of_true ⟨_, rfl⟩ fun hOff => by omega
    · exact iff_of_true ⟨_, rfl⟩ fun hOff => by omega
    · exact exists_complete_iff.trans (imp_iff_right hComplete).symm
    · exact iff_of_true ⟨_, rfl⟩ fun hOff => absurd hOff hComplete

/-- The operation ends, and the controller signals exactly after it. -/
def EndsExact (gic : GIC) (op : Operation) : Prop :=
  ∃ after, gic.perform op = some after ∧ after.SignalsExactly

/-- The controller after an operation, if that ends. -/
def next (gic : GIC) (op : Operation) : GIC := (gic.perform op).getD gic

/-- The controller signals exactly after every operation of a history, exactly if no end of interrupt is
for another interrupt than the running one while the active interrupts are a cycle. -/
theorem endsExact_throughout_iff (config : Fin 6 → BitVec 32) (ops : List Operation) :
    Throughout next EndsExact (GIC.new config) ops ↔ Throughout next Ends (GIC.new config) ops := by
  refine throughout_congr Settled (fun gic op hSettled => ?_) (fun gic op hSettled hEnds => ?_)
    (settled_new config) ops
  · rw [← exists_perform_iff]
    refine exists_congr fun after => and_iff_left_of_imp fun hPerform => ?_
    exact signalsExactly_of_settled (settled_perform hSettled hPerform)
  · obtain ⟨after, hPerform, -⟩ := hEnds
    rw [next, hPerform]
    exact settled_perform hSettled hPerform

/-- An interrupt whose priority is changed while it runs is acknowledged again. -/
def acknowledgedTwice : List Operation :=
  [.distributorWrite 0 1, .cpuWrite 0 1, .cpuWrite 1 0xff, .distributorWrite 0x40 2,
    .distributorWrite 0x100 0xa00, .assertLine 1, .cpuRead 3, .distributorWrite 0x100 0x500, .cpuRead 3]

theorem complete_never_ends :
    ¬ Throughout next EndsExact (GIC.new fun _ => 0) (acknowledgedTwice ++ [.cpuWrite 4 2]) := by
  rw [throughout_append, throughout_cons]
  rintro ⟨-, ⟨after, hPerform, -⟩, -⟩
  have hNone : ((acknowledgedTwice.foldl next (GIC.new fun _ => 0)).perform (.cpuWrite 4 2)).isSome = false := by
    decide +kernel
  rw [hPerform] at hNone
  cases hNone

end GIC

end Gensim.Devices
