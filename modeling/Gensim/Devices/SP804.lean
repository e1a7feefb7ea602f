import Gensim.Lib.Operations

/-! The dual timer module, whose two timers share an interrupt line. -/
namespace Gensim.Devices

open Operations

/-- One of the timers. The prescaler is left out, for it is only ever cleared. -/
structure InternalTimer where
  enabled : Bool
  loadValue : BitVec 32
  currentValue : BitVec 32
  isr : BitVec 32
  controlReg : BitVec 32

namespace InternalTimer

def new : InternalTimer where
  enabled := false
  loadValue := 0
  currentValue := 0xffffffff
  isr := 0
  controlReg := 0x20

variable (timer : InternalTimer)

def oneShot : Bool := timer.controlReg.getLsbD 0
def size : Bool := timer.controlReg.getLsbD 1
def intEn : Bool := timer.controlReg.getLsbD 5
def mode : Bool := timer.controlReg.getLsbD 6
def enable : Bool := timer.controlReg.getLsbD 7

/-- `InitialisePeriod` -/
def initialisePeriod : InternalTimer :=
  { timer with
    currentValue :=
      if timer.mode then timer.loadValue else if timer.size then 0xffffffff else 0xffff }

/-- `Update`, up to the call of `UpdateIRQ`. -/
def update : InternalTimer :=
  if timer.enable && !timer.enabled then { timer.initialisePeriod with enabled := true }
  else if !timer.enable && timer.enabled then { timer with enabled := false }
  else timer

/-- The raw status is set, with interrupts enabled. -/
def posts : Bool := timer.isr != 0 && timer.intEn

/-- The next tick sets the raw status. -/
def Expires : Prop := timer.enabled = true ∧ timer.currentValue ≤ 1000

instance : Decidable timer.Expires := inferInstanceAs (Decidable (_ ∧ _))

/-- What a tick leaves of a timer. -/
def ticked : InternalTimer :=
  if timer.Expires then { timer with isr := timer.isr ||| 1 }.initialisePeriod
  else if timer.enabled then { timer with currentValue := timer.currentValue - 1000 }
  else timer

end InternalTimer

structure SP804 where
  timers : Fin 2 → InternalTimer
  suspended : Bool
  irqLine : Bool

namespace SP804

def new : SP804 := ⟨fun _ => .new, false, false⟩

variable (dev : SP804)

def setTimer (t : Fin 2) (timer : InternalTimer) : SP804 :=
  { dev with timers := Function.update dev.timers t timer }

-- Numerals for the timers are read with this instance.
local instance timersNeZero : NeZero 2 := ⟨two_ne_zero⟩

def posts : Bool := (dev.timers 0).posts || (dev.timers 1).posts

def updateIRQ : SP804 :=
  if dev.posts then
    if !dev.irqLine && !dev.suspended then { dev with irqLine := true } else dev
  else if dev.irqLine then { dev with irqLine := false } else dev

/-- `InternalTimer::Tick` for one of the timers. -/
def tickTimer (t : Fin 2) : SP804 :=
  let timer := dev.timers t
  if !timer.enabled then dev
  else if timer.currentValue ≤ 1000 then
    let fired := dev.setTimer t { timer with isr := timer.isr ||| 1 }
    let posted := if timer.intEn then fired.updateIRQ else fired
    posted.setTimer t (posted.timers t).initialisePeriod
  else dev.setTimer t { timer with currentValue := timer.currentValue - 1000 }

def tick : SP804 := (dev.tickTimer 0).tickTimer 1

/-- `InternalTimer::WriteRegister` for one of the timers. -/
def writeRegister (t : Fin 2) (off : Nat) (data : BitVec 32) : SP804 :=
  let timer := dev.timers t
  if off = 0x00 then dev.setTimer t { timer with loadValue := data, currentValue := data }
  else if off = 0x08 then (dev.setTimer t { timer with controlReg := data }.update).updateIRQ
  else if off = 0x0c then (dev.setTimer t { timer with isr := 0 }).updateIRQ
  else if off = 0x18 then dev.setTimer t { timer with loadValue := data }
  else dev

/-- Past the timers there are only the registers that identify the device. -/
def write (off : Nat) (data : BitVec 32) : SP804 :=
  if off < 0x20 then dev.writeRegister 0 off data
  else if off < 0x40 then dev.writeRegister 1 (off - 0x20) data
  else dev

inductive Operation where
  | write (off : Nat) (data : BitVec 32)
  | tick

def perform : Operation → SP804
  | .write off data => dev.write off data
  | .tick => dev.tick

/-- The operation writes to the register LOAD or CONTROL of the timer. -/
def Operation.Restarts (t : Fin 2) : Operation → Prop
  | .write off _ => off = 0x20 * t ∨ off = 0x20 * t + 0x08
  | .tick => False

/-- How often the timer sets its raw status in a run. -/
def firings (t : Fin 2) : SP804 → List Operation → Nat
  | _, [] => 0
  | dev, op :: ops =>
      (match op with
        | .tick => if (dev.timers t).Expires then 1 else 0
        | .write _ _ => 0) + firings t (dev.perform op) ops

def ticks : List Operation → Nat
  | [] => 0
  | .tick :: ops => ticks ops + 1
  | .write _ _ :: ops => ticks ops

/-- The line is asserted as the status of the timers says. -/
def Follows : Prop :=
  dev.irqLine = true ↔ dev.suspended = false ∧
    ∃ t, (dev.timers t).isr ≠ 0 ∧ (dev.timers t).intEn = true

/-- The line follows after every operation, and a one-shot timer fires at most once between two writes that
restart it. -/
def FiresAsConfigured (ops : List Operation) : Prop :=
  Throughout perform (fun dev op => (dev.perform op).Follows) new ops ∧
    ∀ t before segment after, ops = before ++ (segment ++ after) → (∀ op ∈ segment, ¬ op.Restarts t) →
      ((before.foldl perform new).timers t).oneShot = true →
      firings t (before.foldl perform new) segment ≤ 1

/-- A one-shot timer that has fired is restarted before the ticks that follow reach its period. -/
def RestartedInTime (ops : List Operation) : Prop :=
  ∀ t before segment after, ops = before ++ (.tick :: segment ++ after) → (∀ op ∈ segment, ¬ op.Restarts t) →
    ((before.foldl perform new).timers t).oneShot = true →
    ((before.foldl perform new).timers t).Expires →
    ticks segment = 0 ∨
      1000 * ticks segment < ((before.foldl perform new).timers t).initialisePeriod.currentValue.toNat

/-! ### The line -/

variable {dev}

theorem posts_iff : dev.posts = true ↔ ∃ t, (dev.timers t).isr ≠ 0 ∧ (dev.timers t).intEn = true := by
  simp [posts, InternalTimer.posts, Fin.exists_fin_two]

/-- The device is not suspended, and the line is as the timers post. -/
def Settled (dev : SP804) : Prop := dev.suspended = false ∧ dev.irqLine = dev.posts

theorem follows_of_settled (hSettled : dev.Settled) : dev.Follows := by
  rw [Follows, hSettled.2, posts_iff]
  exact (and_iff_right hSettled.1).symm

theorem settled_updateIRQ (hRuns : dev.suspended = false) : dev.updateIRQ.Settled := by
  unfold updateIRQ
  split_ifs with hPosts hIdle hAsserted
  · exact ⟨hRuns, hPosts.symm⟩
  · refine ⟨hRuns, ?_⟩
    rw [hPosts]
    simpa [hRuns] using hIdle
  · exact ⟨hRuns, (Bool.eq_false_of_not_eq_true hPosts).symm⟩
  · refine ⟨hRuns, ?_⟩
    rw [Bool.eq_false_of_not_eq_true hPosts, Bool.eq_false_of_not_eq_true hAsserted]

@[simp] theorem updateIRQ_timers : dev.updateIRQ.timers = dev.timers := by
  unfold updateIRQ
  split_ifs <;> rfl

@[simp] theorem setTimer_same (t : Fin 2) (timer : InternalTimer) : (dev.setTimer t timer).timers t = timer :=
  Function.update_self ..

theorem setTimer_of_ne {s t : Fin 2} (hOther : s ≠ t) (timer : InternalTimer) :
    (dev.setTimer t timer).timers s = dev.timers s :=
  Function.update_of_ne hOther ..

variable {t : Fin 2}

section

variable (hSettled : dev.Settled)
include hSettled

/-- A timer is changed, but not in what it posts. -/
theorem settled_setTimer {timer : InternalTimer} (hPosts : timer.posts = (dev.timers t).posts) :
    (dev.setTimer t timer).Settled := by
  have hEach (s : Fin 2) : ((dev.setTimer t timer).timers s).posts = (dev.timers s).posts := by
    rcases eq_or_ne s t with rfl | hOther
    · rw [setTimer_same, hPosts]
    · rw [setTimer_of_ne hOther]
  refine ⟨hSettled.1, hSettled.2.trans ?_⟩
  rw [posts, posts, hEach, hEach]

theorem settled_tickTimer (t : Fin 2) : (dev.tickTimer t).Settled := by
  unfold tickTimer
  dsimp only
  split_ifs with hDisabled hExpires hIntEn
  · exact hSettled
  · refine settled_setTimer (settled_updateIRQ ?_) rfl
    exact hSettled.1
  · refine settled_setTimer (settled_setTimer hSettled ?_) rfl
    have hOff := Bool.eq_false_of_not_eq_true hIntEn
    unfold InternalTimer.posts InternalTimer.intEn at *
    rw [hOff, Bool.and_false, Bool.and_false]
  · exact settled_setTimer hSettled rfl

theorem settled_writeRegister (t : Fin 2) (off : Nat) (data : BitVec 32) : (dev.writeRegister t off data).Settled := by
  unfold writeRegister
  dsimp only
  split_ifs
  · exact settled_setTimer hSettled rfl
  · exact settled_updateIRQ hSettled.1
  · exact settled_updateIRQ hSettled.1
  · exact settled_setTimer hSettled rfl
  · exact hSettled

theorem settled_perform (op : Operation) : (dev.perform op).Settled := by
  cases op with
  | tick => exact settled_tickTimer (settled_tickTimer hSettled 0) 1
  | write off data =>
    change (dev.write off data).Settled
    unfold write
    split_ifs
    · exact settled_writeRegister hSettled 0 off data
    · exact settled_writeRegister hSettled 1 _ data
    · exact hSettled

end

theorem follows_throughout (ops : List Operation) :
    Throughout perform (fun dev op => (dev.perform op).Follows) new ops := by
  have hAll : Throughout perform (fun _ _ => True) new ops := throughout_of_forall (fun _ _ _ => trivial) new
  refine (throughout_congr Settled (fun dev op hSettled => ?_) (fun dev op hSettled _ => ?_) ⟨rfl, rfl⟩ ops).mp hAll
  · exact iff_of_true trivial (follows_of_settled (settled_perform hSettled op))
  · exact settled_perform hSettled op

/-! ### Expiry -/

theorem tickTimer_timers (s t : Fin 2) :
    (dev.tickTimer t).timers s = if s = t then (dev.timers t).ticked else dev.timers s := by
  unfold tickTimer InternalTimer.ticked InternalTimer.Expires
  dsimp only
  rcases eq_or_ne s t with rfl | hOther
  · by_cases hEnabled : (dev.timers s).enabled = true
    · simp only [hEnabled, Bool.not_true, Bool.false_eq_true, if_false, true_and, if_true]
      split_ifs <;> simp
    · simp [hEnabled]
  · rw [if_neg hOther]
    split_ifs <;> simp [setTimer_of_ne hOther]

theorem tick_timers (t : Fin 2) : dev.tick.timers t = (dev.timers t).ticked := by
  unfold tick
  rw [tickTimer_timers, tickTimer_timers, tickTimer_timers]
  match t with
  | 0 => rfl
  | 1 => rfl

/-- What only a write to CONTROL changes of a timer. -/
structure SameSettings (a b : InternalTimer) : Prop where
  enabled : a.enabled = b.enabled
  controlReg : a.controlReg = b.controlReg

/-- A write that does not restart a timer keeps its settings and its value. -/
theorem write_timers (dev : SP804) {off : Nat} {data : BitVec 32} (hRuns : ¬ (Operation.write off data).Restarts t) :
    SameSettings ((dev.write off data).timers t) (dev.timers t) ∧
      ((dev.write off data).timers t).currentValue = (dev.timers t).currentValue := by
  have hRegister (s : Fin 2) (local_ : Nat) (hLocal : s = t → local_ ≠ 0x00 ∧ local_ ≠ 0x08) :
      SameSettings ((dev.writeRegister s local_ data).timers t) (dev.timers t) ∧
        ((dev.writeRegister s local_ data).timers t).currentValue = (dev.timers t).currentValue := by
    unfold writeRegister
    rcases eq_or_ne t s with rfl | hOther
    · rw [if_neg (hLocal rfl).1, if_neg (hLocal rfl).2]
      split_ifs <;> simp only [updateIRQ_timers, setTimer_same, and_true] <;> exact ⟨rfl, rfl⟩
    · split_ifs <;> simp only [updateIRQ_timers, setTimer_of_ne hOther, and_true] <;>
        exact ⟨rfl, rfl⟩
  unfold Operation.Restarts at hRuns
  unfold write
  split_ifs with hFirst hSecond
  · exact hRegister 0 off fun hSame => by subst hSame; simp at hRuns; omega
  · exact hRegister 1 (off - 0x20) fun hSame => by subst hSame; simp at hRuns; omega
  · exact ⟨⟨rfl, rfl⟩, rfl⟩

theorem sameSettings_ticked (timer : InternalTimer) : SameSettings timer.ticked timer := by
  unfold InternalTimer.ticked
  split_ifs <;> exact ⟨rfl, rfl⟩

theorem sameSettings_foldl {segment : List Operation} (hRuns : ∀ op ∈ segment, ¬ op.Restarts t) (dev : SP804) :
    SameSettings ((segment.foldl perform dev).timers t) (dev.timers t) := by
  induction segment generalizing dev with
  | nil => exact ⟨rfl, rfl⟩
  | cons op segment ih =>
    obtain ⟨hOp, hRest⟩ := List.forall_mem_cons.mp hRuns
    have hStep : SameSettings ((dev.perform op).timers t) (dev.timers t) := by
      cases op with
      | tick => exact (tick_timers t).symm ▸ sameSettings_ticked _
      | write off data => exact (write_timers dev hOp).1
    have hTail := ih hRest (dev.perform op)
    exact ⟨hTail.enabled.trans hStep.enabled, hTail.controlReg.trans hStep.controlReg⟩

theorem ticked_currentValue {timer : InternalTimer} (hEnabled : timer.enabled = true) (hRuns : ¬ timer.Expires) :
    1000 < timer.currentValue.toNat ∧ timer.ticked.currentValue.toNat = timer.currentValue.toNat - 1000 := by
  have hMore : 1000 < timer.currentValue.toNat := not_le.mp fun hLess => hRuns ⟨hEnabled, BitVec.le_def.mpr hLess⟩
  refine ⟨hMore, ?_⟩
  rw [InternalTimer.ticked, if_neg hRuns, if_pos hEnabled]
  exact BitVec.toNat_sub_of_le (BitVec.le_def.mpr hMore.le)

/-- An enabled timer does not fire while the ticks have not reached its value. -/
theorem firings_eq_zero_iff {segment : List Operation} (hRuns : ∀ op ∈ segment, ¬ op.Restarts t) (dev : SP804)
    (hEnabled : (dev.timers t).enabled = true) : firings t dev segment = 0 ↔
      ticks segment = 0 ∨ 1000 * ticks segment < (dev.timers t).currentValue.toNat := by
  induction segment generalizing dev with
  | nil => simp [firings, ticks]
  | cons op segment ih =>
    obtain ⟨hOp, hRest⟩ := List.forall_mem_cons.mp hRuns
    cases op with
    | write off data =>
      obtain ⟨hSame, hValue⟩ := write_timers dev hOp
      have hLater := ih hRest (dev.write off data) (hSame.enabled.trans hEnabled)
      rw [hValue] at hLater
      rw [firings, ticks, Nat.zero_add]
      exact hLater
    | tick =>
      have hLater := ih hRest dev.tick
      rw [tick_timers, (sameSettings_ticked _).enabled] at hLater
      change (if (dev.timers t).Expires then 1 else 0) + firings t dev.tick segment = 0 ↔
        ticks segment + 1 = 0 ∨ 1000 * (ticks segment + 1) < _
      by_cases hExpires : (dev.timers t).Expires
      · have hReached : (dev.timers t).currentValue.toNat ≤ 1000 := BitVec.le_def.mp hExpires.2
        rw [if_pos hExpires]
        exact iff_of_false (by omega) (by omega)
      · obtain ⟨hMore, hValue⟩ := ticked_currentValue hEnabled hExpires
        rw [if_neg hExpires, Nat.zero_add, hLater hEnabled, hValue]
        omega

/-- The first time that a timer fires. -/
theorem exists_first_firing (segment : List Operation) (dev : SP804) (hFires : firings t dev segment ≠ 0) :
    ∃ first rest, segment = first ++ .tick :: rest ∧ ((first.foldl perform dev).timers t).Expires ∧
      firings t dev segment = 1 + firings t (first.foldl perform dev).tick rest := by
  induction segment generalizing dev with
  | nil => exact absurd rfl hFires
  | cons op segment ih =>
    have hSkip (hNow : firings t dev (op :: segment) = firings t (dev.perform op) segment) :
        ∃ first rest, op :: segment = first ++ .tick :: rest ∧ ((first.foldl perform dev).timers t).Expires ∧
          firings t dev (op :: segment) = 1 + firings t (first.foldl perform dev).tick rest := by
      obtain ⟨first, rest, rfl, hExpires, hCount⟩ := ih (dev.perform op) (hNow ▸ hFires)
      exact ⟨op :: first, rest, rfl, hExpires, hNow.trans hCount⟩
    cases op with
    | write off data => exact hSkip (Nat.zero_add _)
    | tick =>
      by_cases hExpires : (dev.timers t).Expires
      · exact ⟨[], segment, rfl, hExpires, congrArg (· + _) (if_pos hExpires)⟩
      · exact hSkip ((congrArg (· + _) (if_neg hExpires)).trans (Nat.zero_add _))

/-- After a timer has fired it runs for its whole period. -/
theorem firings_after_firing {rest : List Operation} (hRuns : ∀ op ∈ rest, ¬ op.Restarts t) {dev : SP804}
    (hExpires : (dev.timers t).Expires) : firings t dev.tick rest = 0 ↔
      ticks rest = 0 ∨ 1000 * ticks rest < (dev.timers t).initialisePeriod.currentValue.toNat := by
  have hAfter : dev.tick.timers t = { dev.timers t with isr := (dev.timers t).isr ||| 1 }.initialisePeriod := by
    rw [tick_timers, InternalTimer.ticked, if_pos hExpires]
  rw [firings_eq_zero_iff hRuns dev.tick (by rw [hAfter]; exact hExpires.1), hAfter]
  rfl

/-- The timers fire as configured exactly if every one-shot timer is restarted in time. -/
theorem firesAsConfigured_iff (ops : List Operation) : FiresAsConfigured ops ↔ RestartedInTime ops := by
  rw [FiresAsConfigured, and_iff_right (follows_throughout ops)]
  constructor
  · intro hOnce t before segment after hOps hRuns hOneShot hExpires
    have hTwo := hOnce t before (.tick :: segment) after hOps (by simpa [Operation.Restarts] using hRuns) hOneShot
    have hCount : firings t (before.foldl perform new) (.tick :: segment) =
        1 + firings t (before.foldl perform new).tick segment := congrArg (· + _) (if_pos hExpires)
    rw [← firings_after_firing hRuns hExpires]
    omega
  · intro hInTime t before segment after hOps hRuns hOneShot
    by_contra hMore
    obtain ⟨first, rest, rfl, hExpires, hCount⟩ :=
      exists_first_firing segment (before.foldl perform new) (t := t) (by omega)
    have hFirst : ∀ op ∈ first, ¬ op.Restarts t := fun op hMem => hRuns op (by simp [hMem])
    have hRest : ∀ op ∈ rest, ¬ op.Restarts t := fun op hMem => hRuns op (by simp [hMem])
    have hSame := sameSettings_foldl hFirst (before.foldl perform new)
    rw [← List.foldl_append] at hExpires hCount hSame
    have hQuiet := hInTime t (before ++ first) rest after (by simp [hOps]) hRest
      ((congrArg (BitVec.getLsbD · 0) hSame.controlReg).trans hOneShot) hExpires
    rw [← firings_after_firing hRest hExpires] at hQuiet
    omega

/-- A one-shot timer with a period of one tick, whose interrupt is cleared after the first. -/
theorem fires_twice : ¬ FiresAsConfigured [.write 0x00 1000, .write 0x08 0xe1, .tick, .write 0x0c 0, .tick] := by
  rintro ⟨-, hOnce⟩
  have hTwo := hOnce 0 [.write 0x00 1000, .write 0x08 0xe1] [.tick, .write 0x0c 0, .tick] [] rfl
    (by simp [Operation.Restarts]) rfl
  exact absurd hTwo (by decide)

end SP804

end Gensim.Devices
