import Gensim.Devices.GenericInterruptController
import Gensim.Lib.Links

/-! The active interrupts of the generic interrupt controller: a stack that is linked through `last_active`. -/
namespace Gensim.Devices

open Operations

namespace GIC

variable (gic : GIC)

/-- What a device does with a line, or the guest with any of the registers. -/
inductive Access where
  | assertLine (l : Fin 96)
  | rescindLine (l : Fin 96)
  | distributorRead (off : Nat)
  | distributorWrite (off len : Nat) (data : BitVec 64)
  | cpuRead (off : Nat)
  | cpuWrite (off : Nat) (data : BitVec 64)

/-- There is no result where an assertion fails or a loop does not end. -/
def access? : Access → Option GIC
  | .assertLine l => some (gic.assertLine l)
  | .rescindLine l => some (gic.rescindLine l)
  | .distributorRead off => some (gic.distributorRead off).2
  | .distributorWrite off len data => gic.distributorWrite off len data
  | .cpuRead off => some (gic.cpuRead off).2
  | .cpuWrite off data => gic.cpuWrite off data

def access (access : Access) : GIC := (gic.access? access).getD gic

/-- The active interrupts, the running one first. -/
def Active (stack : List (Fin 96)) : Prop := Links.Chain gic.lastActive gic.runningIrq stack

/-- An end of interrupt takes exactly this interrupt from the stack, and does nothing else if it is not
there than to update the line. -/
def CompletesExactly (stack : List (Fin 96)) : Prop :=
  ∀ irq : Nat, ∃ after, gic.complete irq = some after ∧
    after.Active (stack.filter fun i => i.val ≠ irq) ∧
    ((∀ i ∈ stack, i.val ≠ irq) → after = gic ∨ after = gic.update)

/-- The active interrupts are a finite stack without repetition, and ends of interrupts act on it. -/
def IsStack : Prop := ∃ stack, gic.Active stack ∧ stack.Nodup ∧ gic.CompletesExactly stack

/-- The interrupt that an acknowledgement takes is not active already. -/
def TakesNew (gic : GIC) : Access → Prop
  | .cpuRead off => off = 0x0c → ∀ irq ∈ gic.currentPending,
      (gic.irqs irq).priority.toNat < gic.runningPriority → ∀ stack, gic.Active stack → irq ∉ stack
  | _ => True

variable {gic}

/-! ### Ends of interrupts -/

variable {stack : List (Fin 96)}

@[simp] theorem update_active_iff : gic.update.Active stack ↔ gic.Active stack := Iff.rfl

/-- The loop in `complete` stops on top of the interrupt, or at the bottom of the stack. -/
theorem exhaust_nextActive (irq : Fin 96) {rest : List (Fin 96)} {a : Fin 96} {n : Nat}
    (hChain : Links.Chain gic.lastActive (some a) (a :: rest)) (hFuel : rest.length < n) :
    ∃ tmp, Loop.exhaust (gic.nextActive irq) n a = some tmp ∧ ((irq ∉ rest ∧ gic.lastActive tmp = none) ∨
        ∃ before after, a :: rest = before ++ tmp :: irq :: after ∧ gic.lastActive tmp = some irq) := by
  induction rest generalizing a n with
  | nil =>
    obtain ⟨n, rfl⟩ := Nat.exists_eq_succ_of_ne_zero (Nat.ne_of_gt hFuel)
    have hLast : gic.lastActive a = none := hChain.2
    exact ⟨a, Loop.exhaust_of_none (nextActive_eq_none_iff.mpr (.inl hLast)) n, .inl ⟨List.not_mem_nil, hLast⟩⟩
  | cons b rest ih =>
    obtain ⟨n, rfl⟩ := Nat.exists_eq_succ_of_ne_zero (Nat.ne_zero_of_lt hFuel)
    obtain ⟨-, hNext, hRest⟩ := hChain
    by_cases hSame : b = irq
    · subst hSame
      exact ⟨a, Loop.exhaust_of_none (nextActive_eq_none_iff.mpr (.inr hNext)) n, .inr ⟨[], rest, rfl, hNext⟩⟩
    · have hStep : gic.nextActive irq a = some b := by simp [nextActive, hNext, Option.filter, hSame]
      obtain ⟨tmp, hRun, hStop⟩ := ih ⟨rfl, hRest⟩ (Nat.lt_of_succ_lt_succ hFuel)
      refine ⟨tmp, (Loop.exhaust_of_some hStep n).trans hRun, hStop.imp ?_ ?_⟩
      · rintro ⟨hNot, hLast⟩
        exact ⟨List.not_mem_cons_of_ne_of_not_mem (Ne.symm hSame) hNot, hLast⟩
      · rintro ⟨before, after, hSplit, hTop⟩
        exact ⟨a :: before, after, congrArg (a :: ·) hSplit, hTop⟩

theorem filter_ne_of_nodup (before : List (Fin 96)) {after : List (Fin 96)} {irq : Fin 96}
    (hNodup : (before ++ irq :: after).Nodup) :
    (before ++ irq :: after).filter (fun i => i.val ≠ irq.val) = before ++ after := by
  obtain ⟨-, hAfter, hApart⟩ := List.nodup_append.mp hNodup
  have hBefore : ∀ i ∈ before, decide (i.val ≠ irq.val) = true := fun i hMem =>
    decide_eq_true fun hSame => hApart i hMem irq List.mem_cons_self (Fin.ext hSame)
  have hRest : ∀ i ∈ after, decide (i.val ≠ irq.val) = true := fun i hMem =>
    decide_eq_true fun hSame => (List.nodup_cons.mp hAfter).1 (Fin.ext hSame ▸ hMem)
  rw [List.filter_append, List.filter_cons_of_neg (by simp), List.filter_eq_self.mpr hBefore,
    List.filter_eq_self.mpr hRest]

/-- An interrupt inside the stack is unlinked from the one on top of it. -/
theorem active_unlink {before after : List (Fin 96)} {tmp irq : Fin 96}
    (hActive : gic.Active (before ++ tmp :: irq :: after)) :
    ({ gic with lastActive := Function.update gic.lastActive tmp (gic.lastActive irq) } : GIC).Active
      ((before ++ tmp :: irq :: after).filter fun i => i.val ≠ irq.val) := by
  have hSplit : before ++ tmp :: irq :: after = (before ++ [tmp]) ++ irq :: after := by simp
  have hNodup := hActive.nodup
  rw [hSplit] at hNodup ⊢
  rw [filter_ne_of_nodup _ hNodup, List.append_assoc]
  exact hActive.remove

theorem active_filter_of_not_mem {irq : Nat} (hActive : gic.Active stack) (hAll : ∀ i ∈ stack, i.val ≠ irq) :
    gic.Active (stack.filter fun i => i.val ≠ irq) := by
  rwa [List.filter_eq_self.mpr (by simpa using hAll)]

theorem completesExactly (hActive : gic.Active stack) : gic.CompletesExactly stack := by
  intro irq
  have hNodup := hActive.nodup
  unfold complete
  split
  case isFalse hNo =>
    have hAll : ∀ i ∈ stack, i.val ≠ irq := fun i _ hSame => hNo (hSame ▸ i.isLt)
    exact ⟨gic, rfl, active_filter_of_not_mem hActive hAll, fun _ => .inl rfl⟩
  case isTrue hIrq =>
    cases hRunning : gic.runningIrq with
    | none =>
      obtain rfl : stack = [] := by
        rw [Active, hRunning] at hActive
        exact hActive.unique (show Links.Chain gic.lastActive none [] from rfl)
      exact ⟨gic, rfl, active_filter_of_not_mem hActive (by simp), fun _ => .inl rfl⟩
    | some running =>
      obtain ⟨rest, rfl, hRest⟩ : ∃ rest, stack = running :: rest ∧
          Links.Chain gic.lastActive (gic.lastActive running) rest := by
        rw [Active, hRunning] at hActive
        cases stack with
        | nil => cases hActive
        | cons top rest =>
          obtain ⟨hTop, hRest⟩ := hActive
          cases hTop
          exact ⟨rest, rfl, hRest⟩
      dsimp only
      split
      case isTrue hSame =>
        subst hSame
        refine ⟨_, rfl, ?_, fun hAll => absurd rfl (hAll _ List.mem_cons_self)⟩
        have hBelow : (⟨irq, hIrq⟩ :: rest).filter (fun i => i.val ≠ irq) = rest := filter_ne_of_nodup [] hNodup
        rw [update_active_iff, hBelow]
        exact hRest
      case isFalse hOther =>
        have hLength : rest.length < 96 := by simpa using hNodup.length_le_card
        obtain ⟨tmp, hRun, hStop⟩ := exhaust_nextActive ⟨irq, hIrq⟩ ⟨rfl, hRest⟩ hLength
        rw [hRun, Option.map_some]
        refine ⟨_, rfl, ?_⟩
        rcases hStop with ⟨hNot, hLast⟩ | ⟨before, after, hSplit, hLast⟩
        · have hAll : ∀ i ∈ running :: rest, i.val ≠ irq := by
            rintro i hMem rfl
            rcases List.mem_cons.mp hMem with rfl | hBelow
            · exact hOther rfl
            · exact hNot hBelow
          rw [if_neg (by simp [hLast])]
          exact ⟨active_filter_of_not_mem hActive hAll, fun _ => .inr rfl⟩
        · rw [if_pos hLast, hSplit]
          rw [hSplit] at hActive
          have hUnlinked := active_unlink hActive
          rw [hRunning] at hUnlinked
          exact ⟨update_active_iff.mpr hUnlinked, fun hAll => absurd rfl (hAll ⟨irq, hIrq⟩ (by simp))⟩

theorem isStack_iff : gic.IsStack ↔ ∃ stack, gic.Active stack :=
  exists_congr fun _ => ⟨And.left, fun hActive => ⟨hActive, hActive.nodup, completesExactly hActive⟩⟩

/-! ### Accesses -/

/-- The running interrupt and the links are the same. -/
def SameActive (a b : GIC) : Prop := a.runningIrq = b.runningIrq ∧ a.lastActive = b.lastActive

theorem SameActive.isStack {a b : GIC} (hSame : SameActive a b) (hStack : b.IsStack) : a.IsStack := by
  rw [isStack_iff] at hStack ⊢
  unfold Active at hStack ⊢
  rwa [hSame.1, hSame.2]

theorem sameActive_modifyIrq {index : Nat} {f : GICIRQLine → GICIRQLine} {after start : GIC}
    (hModify : gic.modifyIrq index f = some after) (hSame : SameActive gic start) : SameActive after start := by
  unfold modifyIrq at hModify
  split at hModify
  · exact Option.some.inj hModify ▸ hSame
  · cases hModify

theorem sameActive_forBits {f : GICIRQLine → GICIRQLine} {base : Nat} {bits : BitVec 8} {after start : GIC}
    (hBits : gic.forBits f base bits = some after) (hSame : SameActive gic start) : SameActive after start := by
  refine Loop.foldlM_invariant (SameActive · start) (fun gic i after hSame hStep => ?_) hBits hSame
  split at hStep
  · exact sameActive_modifyIrq hStep hSame
  · exact Option.some.inj hStep ▸ hSame

variable {data : BitVec 64} {after : GIC}

theorem sameActive_map_forBytes {f : GIC → Nat → BitVec 8 → Option GIC} {base lines len : Nat}
    (hByte : ∀ {gic after start : GIC} {index byte}, f gic index byte = some after → SameActive gic start →
      SameActive after start) (hBytes : (gic.forBytes f base lines len data).map update = some after) :
    SameActive after gic := by
  obtain ⟨middle, hMiddle, rfl⟩ := Option.map_eq_some_iff.mp hBytes
  have hSame : SameActive middle gic :=
    Loop.foldlM_invariant (SameActive · gic) (fun gic i after hSame hStep => hByte hStep hSame) hMiddle ⟨rfl, rfl⟩
  exact hSame

theorem sameActive_distributorWrite {off len : Nat} (hWrite : gic.distributorWrite off len data = some after) :
    SameActive after gic := by
  unfold distributorWrite at hWrite
  split_ifs at hWrite
  · exact Option.some.inj hWrite ▸ ⟨rfl, rfl⟩
  · exact sameActive_map_forBytes sameActive_forBits hWrite
  · exact sameActive_map_forBytes sameActive_forBits hWrite
  · exact sameActive_map_forBytes sameActive_forBits hWrite
  · exact sameActive_map_forBytes sameActive_forBits hWrite
  · exact sameActive_map_forBytes sameActive_modifyIrq hWrite
  · exact Option.some.inj hWrite ▸ ⟨rfl, rfl⟩
  · exact Option.some.inj hWrite ▸ ⟨rfl, rfl⟩

section

variable (hStack : gic.IsStack)
include hStack

/-- An acknowledgement leaves a stack exactly if it takes no interrupt that is active. -/
theorem isStack_acknowledge_iff : gic.acknowledge.2.IsStack ↔ ∀ irq ∈ gic.currentPending,
      (gic.irqs irq).priority.toNat < gic.runningPriority → ∀ stack, gic.Active stack → irq ∉ stack := by
  obtain ⟨stack, hActive, -, -⟩ := id hStack
  unfold acknowledge
  cases hPending : gic.currentPending with
  | none => exact iff_of_true hStack fun irq hMem => by cases hMem
  | some irq =>
    dsimp only
    split
    · rename_i hLow
      refine iff_of_true hStack fun other hMem hHigh => ?_
      obtain rfl := Option.mem_some_iff.mp hMem
      exact absurd hHigh (not_lt.mpr hLow)
    · rename_i hHigh
      rw [isStack_iff]
      constructor
      · rintro ⟨other, hOther⟩ taken hMem - list hList hTwice
        obtain rfl := Option.mem_some_iff.mp hMem
        exact hList.not_push hTwice other hOther
      · intro hNew
        exact ⟨irq :: stack, hActive.push (hNew irq rfl (not_le.mp hHigh) stack hActive)⟩

theorem isStack_complete {irq : Nat} (hComplete : gic.complete irq = some after) : after.IsStack := by
  obtain ⟨stack, -, -, hExact⟩ := hStack
  obtain ⟨other, hOther, hActive, -⟩ := hExact irq
  obtain rfl := Option.some.inj (hComplete.symm.trans hOther)
  exact isStack_iff.mpr ⟨_, hActive⟩

theorem isStack_cpuWrite {off : Nat} (hWrite : gic.cpuWrite off data = some after) : after.IsStack := by
  have hSame {other : GIC} (hOther : SameActive other gic) : other.IsStack := hOther.isStack hStack
  unfold cpuWrite at hWrite
  split_ifs at hWrite
  · exact Option.some.inj hWrite ▸ hSame ⟨rfl, rfl⟩
  · exact Option.some.inj hWrite ▸ hSame ⟨rfl, rfl⟩
  · exact Option.some.inj hWrite ▸ hSame ⟨rfl, rfl⟩
  · exact isStack_complete hStack hWrite
  · exact Option.some.inj hWrite ▸ hStack

theorem isStack_access_iff (access : Access) : (gic.access access).IsStack ↔ gic.TakesNew access := by
  have hSome (hAfter : ∀ after, gic.access? access = some after → after.IsStack) : (gic.access access).IsStack := by
    unfold GIC.access
    cases hAccess : gic.access? access with
    | none => exact hStack
    | some after => exact hAfter after hAccess
  cases access with
  | assertLine l =>
    refine iff_of_true (SameActive.isStack ?_ hStack) trivial
    change SameActive (gic.assertLine l) gic
    unfold assertLine
    dsimp only
    split <;> exact ⟨rfl, rfl⟩
  | rescindLine l =>
    refine iff_of_true (SameActive.isStack ?_ hStack) trivial
    change SameActive (gic.rescindLine l) gic
    unfold rescindLine
    dsimp only
    split <;> exact ⟨rfl, rfl⟩
  | distributorRead off => exact iff_of_true hStack trivial
  | distributorWrite off len data =>
    exact iff_of_true (hSome fun after hAfter => (sameActive_distributorWrite hAfter).isStack hStack) trivial
  | cpuRead off =>
    change (gic.cpuRead off).2.IsStack ↔ (off = 0x0c → _)
    by_cases hOff : off = 0x0c
    · subst hOff
      exact (isStack_acknowledge_iff hStack).trans (imp_iff_right rfl).symm
    · refine iff_of_true ?_ fun hSame => absurd hSame hOff
      unfold cpuRead
      split_ifs <;> exact hStack
  | cpuWrite off data => exact iff_of_true (hSome fun after hAfter => isStack_cpuWrite hStack hAfter) trivial

end

/-- The active interrupts stay a finite stack exactly if no interrupt is acknowledged that is still active. -/
theorem isStack_throughout_iff (config : Fin 6 → BitVec 32) (accesses : List Access) :
    Throughout access (fun gic op => (gic.access op).IsStack) (GIC.new config) accesses ↔
      Throughout access TakesNew (GIC.new config) accesses := by
  have hNew : (GIC.new config).IsStack := isStack_iff.mpr ⟨[], rfl⟩
  exact throughout_congr IsStack (fun gic op hStack => isStack_access_iff hStack op)
    (fun gic op _ hAfter => hAfter) hNew accesses

-- Numerals for the lines are read with this instance.
local instance linesNeZero : NeZero 96 := ⟨by decide⟩

/-- An interrupt whose line stays asserted is given a higher priority while it runs. -/
def raisedWhileRunning : List Access :=
  [.distributorWrite 0x000 4 1, .cpuWrite 0x00 1, .cpuWrite 0x04 0xff, .distributorWrite 0x100 4 2,
    .distributorWrite 0x400 4 0xa00, .assertLine 1, .cpuRead 0x0c, .distributorWrite 0x400 4 0x500]

theorem not_isStack_acknowledged_again :
    ¬ Throughout access (fun gic op => (gic.access op).IsStack) (GIC.new fun _ => 0)
      (raisedWhileRunning ++ [.cpuRead 0x0c]) := by
  rw [throughout_append, throughout_cons]
  rintro ⟨-, hStack, -⟩
  have hTop : ((raisedWhileRunning.foldl access (GIC.new fun _ => 0)).access (.cpuRead 0x0c)).runningIrq = some 1 := by
    decide +kernel
  have hLink :
      ((raisedWhileRunning.foldl access (GIC.new fun _ => 0)).access (.cpuRead 0x0c)).lastActive 1 = some 1 := by
    decide +kernel
  obtain ⟨stack, hActive, -, -⟩ := hStack
  unfold Active at hActive
  rw [hTop] at hActive
  cases stack with
  | nil => cases hActive
  | cons irq stack =>
      obtain ⟨hSame, hRest⟩ := id hActive
      cases hSame
      rw [hLink] at hRest
      exact List.cons_ne_self _ _ (hActive.unique hRest)

end GIC

end Gensim.Devices
