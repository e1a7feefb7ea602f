import Gensim.Lib.Operations

/-! The vectored interrupt controller, with the dispatch through its vector address register. -/
namespace Gensim.Devices

open Operations

structure PL190 where
  irqLevel : BitVec 32
  softLevel : BitVec 32
  enable : BitVec 32
  fiqSelect : BitVec 32
  priority : Nat
  prevPriority : Nat → Nat
  prioMask : Nat → BitVec 32
  vectorCtrls : Fin 16 → BitVec 8
  vectorAddrs : Fin 16 → BitVec 32
  defaultVectorAddress : BitVec 32
  irqLine : Bool
  fiqLine : Bool

namespace PL190

/-- The control byte of a slot makes it vectored. -/
def isVectored (ctrl : BitVec 8) : Bool := ctrl &&& 0x20 != 0

/-- The line that a slot stands for. -/
def source (ctrl : BitVec 8) : Nat := (ctrl &&& 0x1f).toNat

/-- The mask in `update_vectors` before the round `i` of its loop. -/
def maskBelow (ctrls : Fin 16 → BitVec 8) : Nat → BitVec 32
  | 0 => 0
  | i + 1 =>
      if hSlot : i < 16 then
        if isVectored (ctrls ⟨i, hSlot⟩) then maskBelow ctrls i ||| 1#32 <<< source (ctrls ⟨i, hSlot⟩)
        else maskBelow ctrls i
      else maskBelow ctrls i

variable (pl : PL190)

def rawLevel : BitVec 32 := pl.irqLevel ||| pl.softLevel

def activeIrqs : BitVec 32 := pl.rawLevel &&& pl.enable &&& ~~~pl.fiqSelect

def activeFiqs : BitVec 32 := pl.rawLevel &&& pl.enable &&& pl.fiqSelect

def updateLines : PL190 :=
  { pl with
    irqLine := pl.activeIrqs &&& pl.prioMask pl.priority != 0
    fiqLine := pl.activeFiqs &&& pl.prioMask pl.priority != 0 }

def updateVectors : PL190 :=
  { pl with prioMask := fun i => if i ≤ 16 then maskBelow pl.vectorCtrls i else pl.prioMask i }.updateLines

/-- What was saved is not set at the start. -/
def new (prevPriority : Nat → Nat) : PL190 :=
  updateVectors
    { irqLevel := 0
      softLevel := 0
      enable := 0
      fiqSelect := 0
      priority := 17
      prevPriority := prevPriority
      prioMask := fun _ => 0xffffffff
      vectorCtrls := fun _ => 0
      vectorAddrs := fun _ => 0
      defaultVectorAddress := 0
      irqLine := false
      fiqLine := false }

/-- Where the loop in `handle_var_read` ends. -/
def dispatchPriority : Nat :=
  ((List.range pl.priority).find? fun i => pl.rawLevel &&& pl.prioMask (i + 1) != 0).getD pl.priority

/-- The address that is returned, if it does not come from past the end of the addresses. -/
def vectorAddr? (i : Nat) : Option (BitVec 32) := if hSlot : i < 16 then some (pl.vectorAddrs ⟨i, hSlot⟩) else none

def handleVarRead : Option (BitVec 32) × PL190 :=
  if pl.dispatchPriority = 17 then (some pl.defaultVectorAddress, pl)
  else
    let after :=
      if pl.dispatchPriority < pl.priority then
        { pl with
          prevPriority := Function.update pl.prevPriority pl.dispatchPriority pl.priority
          priority := pl.dispatchPriority }.updateLines
      else pl
    (after.vectorAddr? after.priority, after)

def handleVarWrite : PL190 :=
  (if pl.priority < 17 then { pl with priority := pl.prevPriority pl.priority } else pl).updateLines

/-- The slot that is computed from the offset of a register. -/
def vectorOf (reg : BitVec 32) : BitVec 8 := ((reg - 0x200) / 4).setWidth 8

/-- There is no result where the access is past the end of the slots. -/
def withVector (reg : BitVec 32) (f : Fin 16 → PL190) : Option PL190 :=
  if 16 < (vectorOf reg).toNat then some pl
  else if hSlot : (vectorOf reg).toNat < 16 then some (f ⟨_, hSlot⟩).updateVectors
  else none

def write (offset : BitVec 32) (data : BitVec 64) : Option PL190 :=
  let reg := offset &&& 0xfff
  let word := data.setWidth 32
  if reg < 0x100 then
    if reg = 0x000 ∨ reg = 0x004 ∨ reg = 0x008 then some pl.updateLines
    else if reg = 0x00c then some { pl with fiqSelect := word }.updateLines
    else if reg = 0x010 then some { pl with enable := pl.enable ||| word }.updateLines
    else if reg = 0x014 then some { pl with enable := pl.enable &&& ~~~word }.updateLines
    else if reg = 0x018 then some { pl with softLevel := pl.softLevel ||| word }.updateLines
    else if reg = 0x01c then some { pl with softLevel := pl.softLevel &&& ~~~word }.updateLines
    else if reg = 0x030 then some pl.handleVarWrite
    else if reg = 0x034 then some { pl with defaultVectorAddress := word }
    else some pl
  else if reg < 0x200 then
    pl.withVector reg fun n => { pl with vectorAddrs := Function.update pl.vectorAddrs n word }
  else if reg < 0xfe0 then
    pl.withVector reg fun n => { pl with vectorCtrls := Function.update pl.vectorCtrls n (data.setWidth 8) }
  else some pl

/-- Only the vector address register does something when it is read. -/
def read (offset : BitVec 32) : PL190 := if offset &&& 0xfff = 0x030 then pl.handleVarRead.2 else pl

def assertLine (line : Fin 32) : PL190 := { pl with irqLevel := pl.irqLevel ||| 1#32 <<< line.val }.updateLines

def rescindLine (line : Fin 32) : PL190 := { pl with irqLevel := pl.irqLevel &&& ~~~(1#32 <<< line.val) }.updateLines

inductive Operation where
  | assertLine (line : Fin 32)
  | rescindLine (line : Fin 32)
  | read (offset : BitVec 32)
  | write (offset : BitVec 32) (data : BitVec 64)

def perform : Operation → Option PL190
  | .assertLine line => some (pl.assertLine line)
  | .rescindLine line => some (pl.rescindLine line)
  | .read offset => some (pl.read offset)
  | .write offset data => pl.write offset data

/-! ### Dispatch -/

/-- A vectored slot of a higher priority than the current one whose line is among some. -/
def IsAmong (lines : BitVec 32) (n : Fin 16) : Prop :=
  n.val < pl.priority ∧ isVectored (pl.vectorCtrls n) = true ∧ lines.getLsbD (source (pl.vectorCtrls n)) = true

/-- The slot is the lowest whose interrupt is raised and enabled as an IRQ. -/
def IsNext (n : Fin 16) : Prop := pl.IsAmong pl.activeIrqs n ∧ ∀ m < n, ¬ pl.IsAmong pl.activeIrqs m

/-- The controller, with the addresses that the guest has written for the slots, and the priorities that
were in force before the reads that raised them. -/
structure Session where
  pl : PL190
  written : Fin 16 → BitVec 32
  saved : List Nat

namespace Session

def new (prevPriority : Nat → Nat) : Session := ⟨.new prevPriority, fun _ => 0, []⟩

variable (s : Session)

def next (op : Operation) : Session where
  pl := (s.pl.perform op).getD s.pl
  written :=
    match op with
    | .write offset data => fun n =>
        if (offset &&& 0xfff).toNat = 0x100 + 4 * n then data.setWidth 32 else s.written n
    | _ => s.written
  saved :=
    match op with
    | .read offset =>
        if (s.pl.read offset).priority < s.pl.priority then s.pl.priority :: s.saved else s.saved
    | .write offset _ => if offset &&& 0xfff = 0x030 then s.saved.tail else s.saved
    | _ => s.saved

/-- A read of the vector address register dispatches to the lowest slot that is due, and a write to it
restores the priority that was in force before. -/
def Dispatches (s : Session) : Operation → Prop
  | .read offset => offset &&& 0xfff = 0x030 → ∀ n, s.pl.IsNext n →
      s.pl.handleVarRead.1 = some (s.written n) ∧ s.pl.handleVarRead.2.priority = n
  | .write offset data => ∃ after, s.pl.write offset data = some after ∧
      (offset &&& 0xfff = 0x030 → ∀ before rest, s.saved = before :: rest → after.priority = before)
  | _ => True

/-- The guest has written no address for the slot that is due, no lower slot is raised that is not enabled as
an IRQ, and no write is past the end of the slots. -/
def Expected (s : Session) : Operation → Prop
  | .read offset => offset &&& 0xfff = 0x030 → ∀ n, s.pl.IsNext n →
      s.written n = 0 ∧ ∀ m < n, ¬ s.pl.IsAmong s.pl.rawLevel m
  | .write offset _ => 0x200 ≤ offset &&& 0xfff → offset &&& 0xfff < 0xfe0 →
      vectorOf (offset &&& 0xfff) ≠ 16
  | _ => True

end Session

/-! ### Masks -/

theorem getLsbD_maskBelow {ctrls : Fin 16 → BitVec 8} {i b : Nat} (hb : b < 32) : (maskBelow ctrls i).getLsbD b = true ↔
      ∃ m : Fin 16, m.val < i ∧ isVectored (ctrls m) = true ∧ source (ctrls m) = b := by
  induction i with
  | zero => simp [maskBelow]
  | succ i ih =>
    have hSplit : (∃ m : Fin 16, m.val < i + 1 ∧ isVectored (ctrls m) = true ∧ source (ctrls m) = b) ↔
        (∃ m : Fin 16, m.val < i ∧ isVectored (ctrls m) = true ∧ source (ctrls m) = b) ∨
          ∃ hSlot : i < 16, isVectored (ctrls ⟨i, hSlot⟩) = true ∧ source (ctrls ⟨i, hSlot⟩) = b := by
      constructor
      · rintro ⟨m, hm, hBoth⟩
        rcases Nat.lt_succ_iff_lt_or_eq.mp hm with hLess | rfl
        · exact .inl ⟨m, hLess, hBoth⟩
        · exact .inr ⟨m.isLt, hBoth⟩
      · rintro (⟨m, hm, hBoth⟩ | ⟨hSlot, hBoth⟩)
        · exact ⟨m, Nat.lt_succ_of_lt hm, hBoth⟩
        · exact ⟨⟨i, hSlot⟩, Nat.lt_succ_self i, hBoth⟩
    rw [hSplit, ← ih, maskBelow]
    split_ifs with hSlot hVectored
    · rw [BitVec.getLsbD_or, Bool.or_eq_true]
      refine or_congr_right ?_
      have hBit : (1#32 <<< source (ctrls ⟨i, hSlot⟩)).getLsbD b = _ := BitVec.getLsbD_twoPow _ _
      rw [hBit, Bool.and_eq_true, decide_eq_true_eq, decide_eq_true_eq]
      exact ⟨fun hBoth => ⟨hSlot, hVectored, hBoth.2⟩, fun ⟨_, _, hSame⟩ => ⟨hSame ▸ hb, hSame⟩⟩
    · simp [hVectored, hSlot]
    · simp [hSlot]

theorem source_lt (ctrl : BitVec 8) : source ctrl < 32 := by
  have hMask : (ctrl &&& 0x1f).toNat ≤ 0x1f := by
    rw [BitVec.toNat_and]
    exact Nat.and_le_right
  exact Nat.lt_succ_of_le hMask

theorem and_maskBelow_ne_zero_iff {ctrls : Fin 16 → BitVec 8} {lines : BitVec 32} {i : Nat} :
    (lines &&& maskBelow ctrls i != 0) = true ↔
      ∃ m : Fin 16, m.val < i ∧ isVectored (ctrls m) = true ∧ lines.getLsbD (source (ctrls m)) = true := by
  rw [bne_iff_ne]
  constructor
  · intro hSome
    obtain ⟨b, hb, hBit⟩ : ∃ b, b < 32 ∧ (lines &&& maskBelow ctrls i).getLsbD b = true := by
      by_contra hNone
      refine hSome (BitVec.eq_of_getLsbD_eq fun b hb => ?_)
      rw [Bool.eq_false_of_not_eq_true fun hBit => hNone ⟨b, hb, hBit⟩]
      simp
    rw [BitVec.getLsbD_and, Bool.and_eq_true, getLsbD_maskBelow hb] at hBit
    obtain ⟨hLine, m, hm, hVectored, rfl⟩ := hBit
    exact ⟨m, hm, hVectored, hLine⟩
  · rintro ⟨m, hm, hVectored, hLine⟩ hZero
    have hBit : (lines &&& maskBelow ctrls i).getLsbD (source (ctrls m)) = true := by
      rw [BitVec.getLsbD_and, hLine, Bool.true_and, getLsbD_maskBelow (source_lt _)]
      exact ⟨m, hm, hVectored, rfl⟩
    rw [hZero] at hBit
    simp at hBit

theorem isAmong_rawLevel {n : Fin 16} (hDue : pl.IsAmong pl.activeIrqs n) : pl.IsAmong pl.rawLevel n := by
  obtain ⟨hLess, hVectored, hLine⟩ := hDue
  rw [activeIrqs, BitVec.getLsbD_and, BitVec.getLsbD_and, Bool.and_eq_true, Bool.and_eq_true] at hLine
  exact ⟨hLess, hVectored, hLine.1.1⟩

variable {pl}

/-- Where some slot is raised, the loop ends at the lowest. -/
theorem dispatchPriority_spec (hMasks : ∀ i ≤ 16, pl.prioMask i = maskBelow pl.vectorCtrls i) {n : Fin 16}
    (hRaised : pl.IsAmong pl.rawLevel n) : ∃ i : Fin 16, pl.dispatchPriority = i ∧ i ≤ n ∧ pl.IsAmong pl.rawLevel i ∧
      ∀ m < i, ¬ pl.IsAmong pl.rawLevel m := by
  have hTest {i : Nat} (hi : i < 16) : (pl.rawLevel &&& pl.prioMask (i + 1) != 0) = true ↔
      ∃ m : Fin 16, m.val < i + 1 ∧ isVectored (pl.vectorCtrls m) = true ∧
        pl.rawLevel.getLsbD (source (pl.vectorCtrls m)) = true := by
    rw [hMasks (i + 1) (by omega), and_maskBelow_ne_zero_iff]
  unfold dispatchPriority
  cases hFind : (List.range pl.priority).find? fun i => pl.rawLevel &&& pl.prioMask (i + 1) != 0 with
  | none =>
    have hNone := List.find?_eq_none.mp hFind n (List.mem_range.mpr hRaised.1)
    exact absurd ((hTest n.isLt).mpr ⟨n, Nat.lt_succ_self _, hRaised.2⟩) hNone
  | some i =>
    obtain ⟨hHere, hMem, hBefore⟩ := List.find?_range_eq_some.mp hFind
    have hLess := List.mem_range.mp hMem
    have hLow {m : Fin 16} (hm : pl.IsAmong pl.rawLevel m) : i ≤ m := by
      by_contra hAbove
      have hMore := (hTest m.isLt).mpr ⟨m, Nat.lt_succ_self _, hm.2⟩
      have hNot := hBefore m (not_le.mp hAbove)
      rw [hMore] at hNot
      exact Bool.false_ne_true hNot
    have hi : i < 16 := (hLow hRaised).trans_lt n.isLt
    obtain ⟨m, hm, hSlot⟩ := (hTest hi).mp hHere
    have hSame : m.val = i := le_antisymm (Nat.le_of_lt_succ hm) (hLow ⟨by omega, hSlot⟩)
    refine ⟨m, hSame.symm, ?_, ⟨by omega, hSlot⟩, fun other hOther hAmong => ?_⟩
    · exact Fin.le_def.mpr (hSame ▸ hLow hRaised)
    · have hNotBelow := hLow hAmong
      omega

/-! ### The run of a session -/

/-- Each priority is saved under the one that took its place, down to the lowest. -/
def Saved (prevPriority : Nat → Nat) : Nat → List Nat → Prop
  | priority, [] => priority = 17
  | priority, before :: rest => priority < before ∧ prevPriority priority = before ∧ Saved prevPriority before rest

theorem Saved.le {prevPriority : Nat → Nat} {priority : Nat} {saved : List Nat}
    (hSaved : Saved prevPriority priority saved) : priority ≤ 17 := by
  induction saved generalizing priority with
  | nil => exact Nat.le_of_eq hSaved
  | cons before rest ih => exact hSaved.1.le.trans (ih hSaved.2.2)

theorem Saved.update {prevPriority : Nat → Nat} {priority : Nat} {saved : List Nat}
    (hSaved : Saved prevPriority priority saved) {i : Nat} (hi : i < priority) (value : Nat) :
    Saved (Function.update prevPriority i value) priority saved := by
  induction saved generalizing priority with
  | nil => exact hSaved
  | cons before rest ih =>
    obtain ⟨hLess, hPrev, hRest⟩ := hSaved
    exact ⟨hLess, (Function.update_of_ne hi.ne' ..).trans hPrev, ih hRest (hi.trans hLess)⟩

/-- The masks are those of the slots, no address was ever taken, and the priorities are saved in order. -/
structure Session.Consistent (s : Session) : Prop where
  masks : ∀ i ≤ 16, s.pl.prioMask i = maskBelow s.pl.vectorCtrls i
  addrs : ∀ n, s.pl.vectorAddrs n = 0
  saved : Saved s.pl.prevPriority s.pl.priority s.saved

theorem masks_updateVectors (pl : PL190) :
    ∀ i ≤ 16, pl.updateVectors.prioMask i = maskBelow pl.updateVectors.vectorCtrls i :=
  fun _ hi => if_pos hi

theorem Session.consistent_new (prevPriority : Nat → Nat) : (Session.new prevPriority).Consistent :=
  ⟨masks_updateVectors _, fun _ => rfl, rfl⟩

/-- The slot of an address is computed past the end, whatever the address. -/
theorem vectorOf_address {reg : BitVec 32} (hLow : ¬ reg < 0x100) (hHigh : reg < 0x200) :
    16 < (vectorOf reg).toNat := by
  rw [BitVec.lt_def] at hLow hHigh
  have hReg : (reg - 0x200).toNat = 2 ^ 32 - 0x200 + reg.toNat := by
    rw [BitVec.toNat_sub]
    simp at hLow hHigh ⊢
    omega
  rw [vectorOf, BitVec.toNat_setWidth, BitVec.toNat_udiv, hReg]
  simp at hLow hHigh ⊢
  omega

namespace Session

variable {s : Session}

/-- What the dispatch rests on is as before, and the masks are those of the slots. -/
def Kept (before after : PL190) : Prop :=
  (∀ i ≤ 16, after.prioMask i = maskBelow after.vectorCtrls i) ∧ after.vectorAddrs = before.vectorAddrs ∧
    after.prevPriority = before.prevPriority ∧ after.priority = before.priority

theorem Consistent.of_kept (hConsistent : s.Consistent) {after : PL190} (hKept : Kept s.pl after)
    (written : Fin 16 → BitVec 32) : Consistent ⟨after, written, s.saved⟩ := by
  obtain ⟨hMasks, hAddrs, hPrev, hPriority⟩ := hKept
  refine ⟨hMasks, ?_, ?_⟩
  · rw [hAddrs]
    exact hConsistent.addrs
  · rw [hPrev, hPriority]
    exact hConsistent.saved

theorem kept_withVector {pl after : PL190} {reg : BitVec 32} {f : Fin 16 → PL190}
    (hMasks : ∀ i ≤ 16, pl.prioMask i = maskBelow pl.vectorCtrls i)
    (hSame : ∀ n, (f n).vectorAddrs = pl.vectorAddrs ∧ (f n).prevPriority = pl.prevPriority ∧
      (f n).priority = pl.priority) (hVector : pl.withVector reg f = some after) : Kept pl after := by
  unfold withVector at hVector
  split_ifs at hVector
  · exact Option.some.inj hVector ▸ ⟨hMasks, rfl, rfl, rfl⟩
  · obtain rfl := Option.some.inj hVector
    exact ⟨masks_updateVectors _, hSame _⟩

theorem kept_write {pl after : PL190} (hMasks : ∀ i ≤ 16, pl.prioMask i = maskBelow pl.vectorCtrls i)
    {offset : BitVec 32} {data : BitVec 64} (hOther : offset &&& 0xfff ≠ 0x030)
    (hWrite : pl.write offset data = some after) : Kept pl after := by
  unfold PL190.write at hWrite
  dsimp only at hWrite
  split at hWrite
  · split_ifs at hWrite <;> first | exact absurd ‹_› hOther | exact Option.some.inj hWrite ▸ ⟨hMasks, rfl, rfl, rfl⟩
  · rename_i hLow
    split_ifs at hWrite with hAddress
    · rw [withVector, if_pos (vectorOf_address hLow hAddress)] at hWrite
      exact Option.some.inj hWrite ▸ ⟨hMasks, rfl, rfl, rfl⟩
    · refine kept_withVector hMasks ?_ hWrite
      exact fun _ => ⟨rfl, rfl, rfl⟩
    · exact Option.some.inj hWrite ▸ ⟨hMasks, rfl, rfl, rfl⟩

theorem write_var (pl : PL190) {offset : BitVec 32} (hVar : offset &&& 0xfff = 0x030) (data : BitVec 64) :
    pl.write offset data = some pl.handleVarWrite := by
  unfold PL190.write
  rw [hVar]
  rfl

theorem exists_withVector_iff (pl : PL190) (reg : BitVec 32) (f : Fin 16 → PL190) :
    (∃ after, pl.withVector reg f = some after) ↔ vectorOf reg ≠ 16 := by
  have hSixteen : vectorOf reg = 16 ↔ (vectorOf reg).toNat = 16 := BitVec.toNat_eq
  rw [withVector, ne_eq, hSixteen]
  split_ifs with hPast hSlot
  · exact iff_of_true ⟨_, rfl⟩ (by omega)
  · exact iff_of_true ⟨_, rfl⟩ (by omega)
  · exact iff_of_false (fun ⟨_, hNone⟩ => by cases hNone) (by omega)

/-- The only writes without a result are those past the end of the slots. -/
theorem exists_write_iff (pl : PL190) (offset : BitVec 32) (data : BitVec 64) :
    (∃ after, pl.write offset data = some after) ↔
      (0x200 ≤ offset &&& 0xfff → offset &&& 0xfff < 0xfe0 → vectorOf (offset &&& 0xfff) ≠ 16) := by
  unfold PL190.write
  dsimp only
  generalize offset &&& 0xfff = reg
  by_cases hAddress : reg < 0x200
  · refine iff_of_true ?_ fun hCtrl => absurd hAddress (BitVec.not_lt.mpr hCtrl)
    by_cases hLow : reg < 0x100
    · rw [if_pos hLow]
      split_ifs <;> exact ⟨_, rfl⟩
    · rw [if_neg hLow, if_pos hAddress, withVector, if_pos (vectorOf_address hLow hAddress)]
      exact ⟨_, rfl⟩
  · have hLow : ¬ reg < 0x100 := fun hLow => hAddress (BitVec.lt_trans hLow (by decide))
    rw [if_neg hLow, if_neg hAddress, imp_iff_right (BitVec.not_lt.mp hAddress)]
    split_ifs with hCtrl
    · rw [imp_iff_right hCtrl, exists_withVector_iff]
    · exact iff_of_true ⟨_, rfl⟩ fun hBelow => absurd hBelow hCtrl

theorem handleVarRead_of_lt {pl : PL190} (hLess : pl.dispatchPriority < pl.priority) (hBound : pl.priority ≤ 17) :
    pl.handleVarRead.2 = { pl with
          prevPriority := Function.update pl.prevPriority pl.dispatchPriority pl.priority
          priority := pl.dispatchPriority }.updateLines ∧
      pl.handleVarRead.1 = pl.vectorAddr? pl.dispatchPriority := by
  rw [handleVarRead, if_neg (by omega)]
  dsimp only
  rw [if_pos hLess]
  exact ⟨rfl, rfl⟩

theorem handleVarRead_of_not_lt {pl : PL190} (hSame : ¬ pl.dispatchPriority < pl.priority) :
    pl.handleVarRead.2 = pl := by
  unfold handleVarRead
  rw [if_neg hSame]
  split <;> rfl

theorem consistent_next (hConsistent : s.Consistent) (op : Operation) : (s.next op).Consistent := by
  cases op with
  | assertLine line =>
    have hKept : Kept s.pl (s.pl.assertLine line) := ⟨hConsistent.masks, rfl, rfl, rfl⟩
    exact hConsistent.of_kept hKept _
  | rescindLine line =>
    have hKept : Kept s.pl (s.pl.rescindLine line) := ⟨hConsistent.masks, rfl, rfl, rfl⟩
    exact hConsistent.of_kept hKept _
  | read offset =>
    change Consistent ⟨s.pl.read offset, s.written,
      if (s.pl.read offset).priority < s.pl.priority then s.pl.priority :: s.saved else s.saved⟩
    by_cases hVar : offset &&& 0xfff = 0x030
    · rw [PL190.read, if_pos hVar]
      by_cases hLess : s.pl.dispatchPriority < s.pl.priority
      · rw [(handleVarRead_of_lt hLess hConsistent.saved.le).1]
        change Consistent ⟨_, _, if s.pl.dispatchPriority < s.pl.priority then _ else _⟩
        rw [if_pos hLess]
        exact ⟨hConsistent.masks, hConsistent.addrs, hLess, Function.update_self .., hConsistent.saved.update hLess _⟩
      · rw [handleVarRead_of_not_lt hLess, if_neg (lt_irrefl _)]
        exact hConsistent
    · rw [PL190.read, if_neg hVar, if_neg (lt_irrefl _)]
      exact hConsistent
  | write offset data =>
    change Consistent ⟨(s.pl.write offset data).getD s.pl, _,
      if offset &&& 0xfff = 0x030 then s.saved.tail else s.saved⟩
    by_cases hVar : offset &&& 0xfff = 0x030
    · rw [if_pos hVar, write_var s.pl hVar, Option.getD_some, handleVarWrite]
      obtain ⟨pl, written, saved⟩ := s
      cases saved with
      | nil =>
        have hLowest : pl.priority = 17 := hConsistent.saved
        rw [if_neg (not_lt.mpr hLowest.ge)]
        exact ⟨hConsistent.masks, hConsistent.addrs, hLowest⟩
      | cons before rest =>
        obtain ⟨hLess, hPrev, hRest⟩ := hConsistent.saved
        rw [if_pos (hLess.trans_le hRest.le)]
        refine ⟨hConsistent.masks, hConsistent.addrs, ?_⟩
        change Saved pl.prevPriority (pl.prevPriority pl.priority) rest
        rwa [hPrev]
    · rw [if_neg hVar]
      cases hWrite : s.pl.write offset data with
      | none => exact hConsistent.of_kept ⟨hConsistent.masks, rfl, rfl, rfl⟩ _
      | some after => exact hConsistent.of_kept (kept_write hConsistent.masks hVar hWrite) _

theorem dispatches_read_iff (hConsistent : s.Consistent) (n : Fin 16) (hNext : s.pl.IsNext n) :
    (s.pl.handleVarRead.1 = some (s.written n) ∧ s.pl.handleVarRead.2.priority = n) ↔
      s.written n = 0 ∧ ∀ m < n, ¬ s.pl.IsAmong s.pl.rawLevel m := by
  obtain ⟨i, hAt, hLe, hRaised, hLowest⟩ := dispatchPriority_spec hConsistent.masks (s.pl.isAmong_rawLevel hNext.1)
  have hLess : s.pl.dispatchPriority < s.pl.priority := hAt ▸ hRaised.1
  obtain ⟨hAfter, hValue⟩ := handleVarRead_of_lt hLess hConsistent.saved.le
  have hAddress : s.pl.vectorAddr? s.pl.dispatchPriority = some 0 := by
    rw [hAt, vectorAddr?, dif_pos i.isLt, hConsistent.addrs]
  rw [hAfter, hValue, hAddress]
  change some 0 = some (s.written n) ∧ s.pl.dispatchPriority = n ↔ _
  rw [hAt, Option.some_inj, eq_comm (a := (0 : BitVec 32))]
  refine and_congr_right fun _ => ?_
  constructor
  · intro hSame
    rwa [← Fin.ext hSame]
  · intro hNone
    exact le_antisymm hLe (not_lt.mp fun hBelow => hNone i hBelow hRaised)

theorem dispatches_iff (hConsistent : s.Consistent) (op : Operation) : s.Dispatches op ↔ s.Expected op := by
  cases op with
  | assertLine line => exact Iff.rfl
  | rescindLine line => exact Iff.rfl
  | read offset =>
    exact imp_congr_right fun _ => forall_congr' fun n => imp_congr_right (dispatches_read_iff hConsistent n)
  | write offset data =>
    refine Iff.trans (exists_congr fun after => and_iff_left_of_imp ?_) (exists_write_iff s.pl offset data)
    intro hWrite hVar before rest hSaved
    rw [write_var s.pl hVar] at hWrite
    obtain rfl := Option.some.inj hWrite
    have hOrder := hConsistent.saved
    rw [hSaved] at hOrder
    obtain ⟨hLess, hPrev, hRest⟩ := hOrder
    rw [handleVarWrite, if_pos (hLess.trans_le hRest.le)]
    exact hPrev

/-- The dispatch is right exactly along the runs in which every operation is as expected. -/
theorem dispatches_throughout_iff (prevPriority : Nat → Nat) (ops : List Operation) :
    Throughout next Dispatches (Session.new prevPriority) ops ↔
      Throughout next Expected (Session.new prevPriority) ops :=
  throughout_congr Consistent (fun _ op hConsistent => dispatches_iff hConsistent op)
    (fun _ op hConsistent _ => consistent_next hConsistent op) (consistent_new prevPriority) ops

/-- The guest makes a slot for line 3 and writes an address for it, and the line is asserted. -/
theorem address_not_taken :
    ¬ Throughout next Dispatches (Session.new fun _ => 0)
      [.write 0x200 0x23, .write 0x100 0x8000, .write 0x010 0x8, .assertLine 3, .read 0x030] := by
  rintro ⟨-, -, -, -, hRead, -⟩
  have hNext := (hRead rfl 0 ⟨⟨by decide, by decide, by decide⟩, fun m hm => absurd hm (Fin.not_lt_zero m)⟩).1
  revert hNext
  decide

theorem saved_nested {prevPriority : Nat → Nat} {priority : Nat} {saved : List Nat}
    (hSaved : Saved prevPriority priority saved) :
    (priority :: saved).IsChain (· < ·) ∧ (priority :: saved).getLast? = some 17 := by
  induction saved generalizing priority with
  | nil => exact ⟨.singleton _, congrArg some hSaved⟩
  | cons before rest ih =>
    obtain ⟨hOrder, hLast⟩ := ih hSaved.2.2
    exact ⟨.cons_cons hSaved.1 hOrder, hLast⟩

/-- In every run the interrupts in service are nested, and the end of one returns to the one that it broke into. -/
theorem service_nested (prevPriority : Nat → Nat) (ops : List Operation) :
    let s := ops.foldl next (Session.new prevPriority)
    (s.pl.priority :: s.saved).IsChain (· < ·) ∧ (s.pl.priority :: s.saved).getLast? = some 17 ∧
      ∀ before rest, s.saved = before :: rest → s.pl.handleVarWrite.priority = before := by
  intro s
  have hConsistent : s.Consistent :=
    List.foldlRecOn ops next (consistent_new prevPriority) fun _ h op _ => consistent_next h op
  obtain ⟨after, hWrite, hEnd⟩ := (dispatches_iff hConsistent (.write 0x030 0)).mpr fun h => absurd h (by decide)
  obtain ⟨hOrder, hLast⟩ := saved_nested hConsistent.saved
  rw [write_var s.pl rfl] at hWrite
  cases hWrite
  exact ⟨hOrder, hLast, hEnd rfl⟩

end Session

end PL190

end Gensim.Devices
