import Gensim.Core.MemoryMonitor

/-! Monitored writes are atomic in programs where a single thread uses them. -/
namespace Gensim.Core.MemoryMonitor

open Threads

variable {n : Nat} {monitor after : MemoryMonitor n} {thread other : Fin n} {address : Address}

/-! ## What a call leaves -/

theorem lock_eq_some {locked : MemoryMonitor n} (hLock : monitor.lock thread = some locked) :
    locked = { monitor with lockedThread := some thread } := by
  unfold lock at hLock
  split at hLock
  next hHeld =>
    obtain rfl := Option.some.inj hLock
    rw [← hHeld]
  next =>
    split at hLock
    next => exact (Option.some.inj hLock).symm
    next => cases hLock

theorem lock_of_free (hFree : monitor.lockedThread = none) :
    monitor.lock thread = some { monitor with lockedThread := some thread } := by
  simp [lock, hFree]

theorem lock_of_held (hHeld : monitor.lockedThread = some thread) : monitor.lock thread = some monitor := by
  simp [lock, hHeld]

theorem acquireMonitor_eq_some (hCall : monitor.acquireMonitor thread address = some after) :
    after.monitors = Function.update monitor.monitors thread (some address) := by
  obtain ⟨locked, hLock, hAfter⟩ := Option.bind_eq_some_iff.mp hCall
  obtain rfl := lock_eq_some hLock
  rw [← Option.some.inj hAfter]
  simp [unlock]

theorem lockMonitor_eq_some {success : Bool} (hCall : monitor.lockMonitor thread address = some (success, after)) :
    after.monitors = monitor.monitors ∧ (success = true → monitor.monitors thread = some address) := by
  obtain ⟨locked, hLock, hAfter⟩ := Option.bind_eq_some_iff.mp hCall
  obtain rfl := lock_eq_some hLock
  split at hAfter
  next hMonitor =>
    obtain ⟨rfl, rfl⟩ := Prod.mk.inj (Option.some.inj hAfter)
    exact ⟨rfl, fun _ => hMonitor⟩
  next =>
    obtain ⟨rfl, rfl⟩ := Prod.mk.inj (Option.some.inj hAfter)
    exact ⟨by simp [unlock], nofun⟩

/-- A notification takes the monitors on its address away from the other threads, and says so. -/
theorem notify_eq_some {erased : Bool} (hCall : monitor.notify thread address = some (erased, after)) :
    (∀ other, after.monitors other = monitor.monitors other ∧
        ¬ (other ≠ thread ∧ monitor.monitors other = some address) ∨
      other ≠ thread ∧ after.monitors other = none ∧ erased = true) ∧
    (erased = true → ∃ other ≠ thread, monitor.monitors other = some address) := by
  obtain ⟨locked, hLock, hAfter⟩ := Option.bind_eq_some_iff.mp hCall
  obtain rfl := lock_eq_some hLock
  obtain ⟨rfl, rfl⟩ := Prod.mk.inj (Option.some.inj hAfter)
  refine ⟨fun other => ?_, ?_⟩
  · by_cases hMatching : other ≠ thread ∧ monitor.monitors other = some address
    · refine .inr ⟨hMatching.1, ?_, ?_⟩
      · simp [unlock, hMatching]
      · exact List.any_eq_true.mpr ⟨other, List.mem_finRange _, by simpa using hMatching⟩
    · exact .inl ⟨by simp [unlock, hMatching], hMatching⟩
  · intro hAny
    obtain ⟨other, -, hMatching⟩ := List.any_eq_true.mp hAny
    exact ⟨other, by simpa using hMatching⟩

theorem notify_takes {erased : Bool} (hCall : monitor.notify thread address = some (erased, after))
    (hOther : other ≠ thread) : after.monitors other ≠ some address := by
  rcases (notify_eq_some hCall).1 other with ⟨hSame, hNot⟩ | ⟨-, hNone, -⟩
  · rw [hSame]
    exact fun hHas => hNot ⟨hOther, hHas⟩
  · rw [hNone]
    nofun

theorem monitors_unlockMonitor : (monitor.unlockMonitor thread).monitors = monitor.monitors := by
  unfold unlockMonitor unlock
  split <;> rfl

/-! ## The address a program has a monitor on -/

theorem reservation_append (held : Option Address) (before rest : List Action) :
    reservation held (before ++ rest) = reservation (reservation held before) rest := by
  induction before generalizing held with
  | nil => rfl
  | cons action before ih => cases action <;> exact ih _

variable {actions : List Action}

theorem reservation_of_no_acquire {held : Option Address} (hNone : ∀ acquired, .acquire acquired ∉ actions) :
    reservation held actions = held := by
  induction actions with
  | nil => rfl
  | cons action actions ih =>
    have hRest := ih fun acquired hMem => hNone acquired (List.mem_cons_of_mem _ hMem)
    cases action with
    | acquire acquired => exact absurd List.mem_cons_self (hNone acquired)
    | write | store => exact hRest

theorem reservation_eq_some {held : Option Address} (hHas : reservation held actions = some address) :
    held = some address ∨ .acquire address ∈ actions := by
  induction actions generalizing held with
  | nil => exact .inl hHas
  | cons action actions ih =>
    cases action with
    | acquire acquired =>
      rcases ih hHas with hSame | hLater
      · exact .inr (Option.some.inj hSame ▸ List.mem_cons_self)
      · exact .inr (List.mem_cons_of_mem _ hLater)
    | write | store => exact (ih hHas).imp_right (List.mem_cons_of_mem _)

/-- What a program acquires itself does not depend on what was held before. -/
theorem reservation_of_none (held : Option Address) (hHas : reservation none actions = some address) :
    reservation held actions = some address := by
  induction actions with
  | nil => cases hHas
  | cons action actions ih =>
    cases action with
    | acquire acquired => exact hHas
    | write | store => exact ih hHas

/-! ## The log of the threads -/

section Log

variable {log new before rest : List (Event n)} {event last : Event n}

/-- Where an event is that was there before new ones. -/
theorem split_append (hOld : event ∉ new) (hSplit : log ++ new = before ++ event :: rest) :
    ∃ rest', log = before ++ event :: rest' ∧ rest = rest' ++ new := by
  rcases List.append_eq_append_iff.mp hSplit with ⟨middle, -, hNew⟩ | ⟨middle, hLog, hRest⟩
  · exact absurd (hNew ▸ List.mem_append_right _ List.mem_cons_self) hOld
  · cases middle with
    | nil =>
      rw [List.nil_append] at hRest
      exact absurd (hRest ▸ List.mem_cons_self) hOld
    | cons first middle =>
      obtain ⟨rfl, rfl⟩ := List.cons.inj hRest
      exact ⟨middle, hLog, rfl⟩

/-- An event is the last one, or was there before it. -/
theorem split_concat (hSplit : log ++ [last] = before ++ event :: rest) :
    event = last ∧ before = log ∨ ∃ rest', log = before ++ event :: rest' ∧ rest = rest' ++ [last] := by
  rcases List.eq_nil_or_concat rest with rfl | ⟨rest', end', rfl⟩
  · obtain ⟨hLog, hLast⟩ := List.append_inj' hSplit rfl
    exact .inl ⟨(List.cons.inj hLast).1.symm, hLog.symm⟩
  · rw [List.concat_eq_append, ← List.cons_append, ← List.append_assoc] at hSplit
    obtain ⟨hLog, hLast⟩ := List.append_inj' hSplit rfl
    exact .inr ⟨rest', hLog, by rw [List.concat_eq_append, hLast]⟩

end Log

/-- A monitored write in the log is one that the thread has done, with its monitor, and what it has
acquired since is in the log as well. -/
def Recorded (thread : Fin n) (log : List (Event n)) (done : List Action) : Prop :=
  ∀ before address after, log = before ++ .wrote thread address :: after →
    ∃ earlier later, done = earlier ++ .write address :: later ∧
      reservation none earlier = some address ∧
      ((∀ acquired, .acquired thread acquired ∉ after) → ∀ acquired, .acquire acquired ∉ later)

theorem Recorded.append {log new : List (Event n)} {done performed : List Action}
    (hRecorded : Recorded thread log done) (hNew : ∀ address, .wrote thread address ∉ new)
    (hAcquired : ∀ acquired, .acquire acquired ∈ performed → .acquired thread acquired ∈ new) :
    Recorded thread (log ++ new) (done ++ performed) := by
  intro before address after hSplit
  obtain ⟨after, hLog, rfl⟩ := split_append (hNew address) hSplit
  obtain ⟨earlier, later, rfl, hHeld, hLater⟩ := hRecorded before address after hLog
  refine ⟨earlier, later ++ performed, by simp, hHeld, fun hNone acquired hMem => ?_⟩
  rcases List.mem_append.mp hMem with hOld | hPerformed
  · exact hLater (fun acquired hMem => hNone acquired (List.mem_append_left _ hMem)) acquired hOld
  · exact hNone acquired (List.mem_append_right _ (hAcquired acquired hPerformed))

/-- The write that a thread has its monitor for. -/
theorem Recorded.wrote {log : List (Event n)} {done : List Action}
    (hRecorded : Recorded thread log done) (hHeld : reservation none done = some address) :
    Recorded thread (log ++ [.wrote thread address]) (done ++ [.write address]) := by
  intro before address' after hSplit
  rcases split_concat hSplit with ⟨hEvent, -⟩ | ⟨after, hLog, rfl⟩
  · obtain rfl := (Event.wrote.inj hEvent).2
    exact ⟨done, [], rfl, hHeld, fun _ _ => by simp⟩
  · obtain ⟨earlier, later, rfl, hEarlier, hLater⟩ := hRecorded before address' after hLog
    refine ⟨earlier, later ++ [.write address], by simp, hEarlier, fun hNone acquired hMem => ?_⟩
    rcases List.mem_append.mp hMem with hOld | hLast
    · exact hLater (fun acquired hMem => hNone acquired (List.mem_append_left _ hMem)) acquired hOld
    · cases List.mem_singleton.mp hLast

/-! ## What a thread has done -/

variable {programs : Fin n → List Action} {s s' : Threads n} {done : List Action}

/-- A thread has done the first part of its program, and the monitor and the log agree with that. -/
structure Consistent (programs : Fin n → List Action) (s : Threads n) (thread : Fin n)
    (done : List Action) : Prop where
  program : programs thread = done ++ s.rest thread
  monitor : ∀ address, s.monitor.monitors thread = some address → reservation none done = some address
  locked : s.phase thread = .locked → ∃ address rest, s.rest thread = .write address :: rest ∧
    reservation none done = some address
  stored : ∀ address, s.phase thread = .stored address → Conditional (programs thread) address
  lockedLog : ∀ address, .locked thread address ∈ s.log → Conditional (programs thread) address
  storedLog : ∀ address, .stored thread address ∈ s.log → .store address ∈ programs thread
  recorded : Recorded thread s.log done

theorem consistent_start (thread : Fin n) : Consistent programs (start programs) thread [] where
  program := rfl
  monitor _ := nofun
  locked := nofun
  stored _ := nofun
  lockedLog _ := nofun
  storedLog _ := nofun
  recorded before address after hSplit := by
    have hLength := congrArg List.length hSplit
    simp [start] at hLength

theorem Consistent.wroteLog (hConsistent : Consistent programs s thread done)
    (hMem : .wrote thread address ∈ s.log) : Conditional (programs thread) address := by
  obtain ⟨before, after, hSplit⟩ := List.append_of_mem hMem
  obtain ⟨earlier, later, rfl, hHeld, -⟩ := hConsistent.recorded before address after hSplit
  exact ⟨earlier, later ++ s.rest thread, by simp [hConsistent.program], hHeld⟩

theorem step_log (hStep : Step thread s s') : ∃ new, s'.log = s.log ++ new ∧ ∀ event ∈ new, event.thread = thread := by
  cases hStep with
  | acquire | store | lock | write | unlock => exact ⟨_, rfl, by simp [Event.thread]⟩
  | lockFails => exact ⟨[], by simp, by simp⟩
  | @notify _ _ erased => exact ⟨_, rfl, by cases erased <;> simp [Event.thread]⟩

/-- What a step of one thread does to the others. -/
theorem step_frame (hStep : Step thread s s') (hOther : other ≠ thread) :
    s'.rest other = s.rest other ∧ s'.phase other = s.phase other ∧
      (s'.monitor.monitors other = s.monitor.monitors other ∨
        s'.monitor.monitors other = none ∧ ∃ address, .erased thread address ∈ s'.log) := by
  cases hStep with
  | acquire hPhase hNext hCall =>
    refine ⟨Function.update_of_ne hOther .., rfl, .inl ?_⟩
    rw [acquireMonitor_eq_some hCall, Function.update_of_ne hOther]
  | store hPhase hNext => exact ⟨Function.update_of_ne hOther .., rfl, .inl rfl⟩
  | lockFails hPhase hNext hCall =>
    exact ⟨Function.update_of_ne hOther .., rfl, .inl (congrFun (lockMonitor_eq_some hCall).1 other)⟩
  | lock hPhase hNext hCall =>
    exact ⟨rfl, Function.update_of_ne hOther .., .inl (congrFun (lockMonitor_eq_some hCall).1 other)⟩
  | write hPhase hNext => exact ⟨Function.update_of_ne hOther .., Function.update_of_ne hOther .., .inl rfl⟩
  | @notify address _ erased hPhase hCall =>
    refine ⟨rfl, Function.update_of_ne hOther .., ?_⟩
    rcases (notify_eq_some hCall).1 other with ⟨hSame, -⟩ | ⟨-, hNone, hErased⟩
    · exact .inl hSame
    · exact .inr ⟨hNone, address, by simp [hErased]⟩
  | unlock hPhase => exact ⟨rfl, Function.update_of_ne hOther .., .inl (congrFun monitors_unlockMonitor other)⟩

theorem Consistent.frame (hConsistent : Consistent programs s other done) (hStep : Step thread s s')
    (hOther : other ≠ thread) : Consistent programs s' other done := by
  obtain ⟨hRest, hPhase, hMonitor⟩ := step_frame hStep hOther
  obtain ⟨new, hLog, hNew⟩ := step_log hStep
  have hOld (event : Event n) (hEvent : event.thread = other) : event ∉ new :=
    fun hMem => hOther (hEvent.symm.trans (hNew event hMem))
  have hMem (event : Event n) (hEvent : event.thread = other) (hIn : event ∈ s'.log) : event ∈ s.log := by
    rw [hLog] at hIn
    exact (List.mem_append.mp hIn).resolve_right (hOld event hEvent)
  exact {
    program := by rw [hRest, hConsistent.program]
    monitor address hHas := by
      rcases hMonitor with hSame | ⟨hNone, -⟩
      · exact hConsistent.monitor address (hSame ▸ hHas)
      · exact absurd (hNone.symm.trans hHas) nofun
    locked := by
      rw [hRest, hPhase]
      exact hConsistent.locked
    stored := by
      rw [hPhase]
      exact hConsistent.stored
    lockedLog address hIn := hConsistent.lockedLog address (hMem _ rfl hIn)
    storedLog address hIn := hConsistent.storedLog address (hMem _ rfl hIn)
    recorded := by
      rw [hLog, ← List.append_nil done]
      exact hConsistent.recorded.append (fun address => hOld _ rfl) nofun }

section

variable (hConsistent : Consistent programs s thread done)
include hConsistent

/-- The thread takes up an action or a part of one that leaves it idle. -/
theorem Consistent.idle {monitor : MemoryMonitor n} {action : Action} {rest : List Action} {new : List (Event n)}
    (hPhase : s.phase thread = .idle) (hNext : s.rest thread = action :: rest)
    (hMonitor : ∀ address, monitor.monitors thread = some address →
      reservation none (done ++ [action]) = some address) (hLocked : ∀ address, .locked thread address ∉ new)
    (hWrote : ∀ address, .wrote thread address ∉ new)
    (hStored : ∀ address, .stored thread address ∈ new → action = .store address)
    (hAcquired : ∀ address, action = .acquire address → .acquired thread address ∈ new) :
    Consistent programs ⟨monitor, Function.update s.rest thread rest, s.phase, s.log ++ new⟩ thread
      (done ++ [action]) where
  program := by simp [hConsistent.program, hNext]
  monitor := hMonitor
  locked hLocked := absurd (hPhase.symm.trans hLocked) nofun
  stored address hStored := absurd (hPhase.symm.trans hStored) nofun
  lockedLog address hMem := hConsistent.lockedLog address ((List.mem_append.mp hMem).resolve_right (hLocked address))
  storedLog address hMem := by
    rcases List.mem_append.mp hMem with hOld | hNew
    · exact hConsistent.storedLog address hOld
    · rw [hConsistent.program, hNext, hStored address hNew]
      exact List.mem_append_right _ List.mem_cons_self
  recorded := hConsistent.recorded.append hWrote fun acquired hMem =>
    hAcquired acquired (List.mem_singleton.mp hMem).symm

/-- The thread goes on with a monitored write. -/
theorem Consistent.within {monitor : MemoryMonitor n} {phase : Phase} {new : List (Event n)}
    (hMonitor : ∀ address, monitor.monitors thread = some address → s.monitor.monitors thread = some address)
    (hLocked : phase = .locked → ∃ address rest, s.rest thread = .write address :: rest ∧
      reservation none done = some address) (hStored : ∀ address, phase ≠ .stored address)
    (hLockedLog : ∀ address, .locked thread address ∈ new → Conditional (programs thread) address)
    (hWroteLog : ∀ address, .wrote thread address ∉ new) (hStoredLog : ∀ address, .stored thread address ∉ new) :
    Consistent programs ⟨monitor, s.rest, Function.update s.phase thread phase, s.log ++ new⟩ thread done where
  program := hConsistent.program
  monitor address hHas := hConsistent.monitor address (hMonitor address hHas)
  locked hPhase := hLocked (by simpa using hPhase)
  stored address hPhase := absurd (by simpa using hPhase) (hStored address)
  lockedLog address hMem := (List.mem_append.mp hMem).elim (hConsistent.lockedLog address) (hLockedLog address)
  storedLog address hMem :=
    hConsistent.storedLog address ((List.mem_append.mp hMem).resolve_right (hStoredLog address))
  recorded := by
    rw [← List.append_nil done]
    exact hConsistent.recorded.append hWroteLog nofun

theorem Consistent.step (hStep : Step thread s s') : ∃ done, Consistent programs s' thread done := by
  cases hStep with
  | @acquire address _ _ hPhase hNext hCall =>
    refine ⟨_, hConsistent.idle hPhase hNext (fun acquired hHas => ?_) (by simp) (by simp) (by simp)
      (by simp)⟩
    rw [acquireMonitor_eq_some hCall, Function.update_self] at hHas
    rw [reservation_append, ← hHas]
    rfl
  | @store address _ hPhase hNext =>
    refine ⟨_, hConsistent.idle hPhase hNext (fun acquired hHas => ?_) (by simp) (by simp) (by simp)
      nofun⟩
    rw [reservation_append]
    exact hConsistent.monitor acquired hHas
  | @lockFails address rest monitor hPhase hNext hCall =>
    rw [← List.append_nil s.log]
    refine ⟨_, hConsistent.idle hPhase hNext (fun acquired hHas => ?_) (by simp) (by simp) nofun nofun⟩
    rw [(lockMonitor_eq_some hCall).1] at hHas
    rw [reservation_append]
    exact hConsistent.monitor acquired hHas
  | @lock address rest monitor hPhase hNext hCall =>
    have hHeld := hConsistent.monitor address ((lockMonitor_eq_some hCall).2 rfl)
    refine ⟨_, hConsistent.within (fun acquired hHas => (lockMonitor_eq_some hCall).1 ▸ hHas)
      (fun _ => ⟨address, rest, hNext, hHeld⟩) nofun (fun locked hMem => ?_) (by simp) (by simp)⟩
    obtain rfl := (Event.locked.inj (List.mem_singleton.mp hMem)).2
    exact ⟨done, rest, hNext ▸ hConsistent.program, hHeld⟩
  | @write address rest hPhase hNext =>
    obtain ⟨address', rest', hNext', hHeld⟩ := hConsistent.locked hPhase
    obtain ⟨hAction, rfl⟩ := List.cons.inj (hNext.symm.trans hNext')
    obtain rfl := Action.write.inj hAction
    have hConditional : Conditional (programs thread) address := ⟨done, rest, hNext ▸ hConsistent.program, hHeld⟩
    refine ⟨done ++ [.write address], ?_⟩
    exact {
      program := by simp [hConsistent.program, hNext]
      monitor acquired hHas := by
        rw [reservation_append]
        exact hConsistent.monitor acquired hHas
      locked hLocked := by simp at hLocked
      stored stored hStored := by
        have hSame : address = stored := by simpa using hStored
        exact hSame ▸ hConditional
      lockedLog locked hMem := hConsistent.lockedLog locked (by simpa using hMem)
      storedLog stored hMem := hConsistent.storedLog stored (by simpa using hMem)
      recorded := hConsistent.recorded.wrote hHeld }
  | @notify address monitor erased hPhase hCall =>
    refine ⟨_, hConsistent.within (fun acquired hHas => ?_) nofun nofun ?_ ?_ ?_⟩
    · rcases (notify_eq_some hCall).1 thread with ⟨hSame, -⟩ | ⟨hNe, -⟩
      · exact hSame ▸ hHas
      · exact absurd rfl hNe
    all_goals cases erased <;> simp
  | unlock hPhase =>
    exact ⟨_, hConsistent.within (fun acquired hHas => monitors_unlockMonitor ▸ hHas) nofun nofun
      (by simp) (by simp) (by simp)⟩

end

/-- No thread acquires a monitor on an address that another one has a conditional write of. -/
def Apart (programs : Fin n → List Action) : Prop :=
  ∀ thread address, Conditional (programs thread) address → ∀ other ≠ thread, .acquire address ∉ programs other

/-- A notification has no monitor to take away. -/
theorem Apart.not_erased {erased : Bool} (hApart : Apart programs)
    (hThreads : ∀ thread, ∃ done, Consistent programs s thread done) (hPhase : s.phase thread = .stored address)
    (hCall : s.monitor.notify thread address = some (erased, after)) : erased = false := by
  refine Bool.eq_false_iff.mpr fun hErased => ?_
  obtain ⟨other, hOther, hHas⟩ := (notify_eq_some hCall).2 hErased
  obtain ⟨_, hThread⟩ := hThreads thread
  obtain ⟨done, hConsistent⟩ := hThreads other
  have hHeld := hConsistent.monitor address hHas
  apply hApart thread address (hThread.stored address hPhase) other hOther
  rw [hConsistent.program]
  exact List.mem_append_left _ ((reservation_eq_some hHeld).resolve_left nofun)

/-! ## Runs of a program that is exclusive -/

theorem Exclusive.apart (hExclusive : Exclusive programs) : Apart programs :=
  fun thread address hThread other hOther => (hExclusive.address thread address hThread other hOther).2

/-- Each time it writes, a thread has acquired a monitor since it last did. -/
def Once (log : List (Event n)) : Prop :=
  ∀ before thread address between address' after,
    log = before ++ .wrote thread address :: between ++ .wrote thread address' :: after →
    ∃ acquired, .acquired thread acquired ∈ between

theorem Once.append {log new : List (Event n)} (hOnce : Once log)
    (hNew : ∀ thread address, .wrote thread address ∉ new) : Once (log ++ new) := by
  intro before thread address between address' after hSplit
  obtain ⟨after, hLog, -⟩ := split_append (hNew thread address') hSplit
  exact hOnce before thread address between address' after hLog

theorem Once.wrote {rest : List Action} (hExclusive : Exclusive programs) (hOnce : Once s.log)
    (hConsistent : Consistent programs s thread done) (hPhase : s.phase thread = .locked)
    (hNext : s.rest thread = .write address :: rest) : Once (s.log ++ [.wrote thread address]) := by
  intro before writer first between second after hSplit
  rcases split_concat hSplit with ⟨hEvent, hLog⟩ | ⟨after, hLog, -⟩
  · obtain ⟨rfl, rfl⟩ := Event.wrote.inj hEvent
    obtain ⟨earlier, later, rfl, hEarlier, hLater⟩ := hConsistent.recorded before first between hLog.symm
    obtain ⟨held, rest', hNext', hHeld⟩ := hConsistent.locked hPhase
    obtain rfl := Action.write.inj (List.cons.inj (hNext.symm.trans hNext')).1
    by_contra hNone
    have hNo := hLater (not_exists.mp hNone)
    have hSame : first = second := by
      rw [reservation_append, hEarlier] at hHeld
      exact Option.some.inj ((reservation_of_no_acquire hNo).symm.trans hHeld)
    have hProgram := hConsistent.program
    rw [hSame] at hProgram hEarlier
    obtain ⟨acquired, hMem⟩ := hExclusive.acquire writer second earlier later rest (by rw [hProgram, hNext]) hEarlier
    exact hNo acquired hMem
  · exact hOnce before writer first between second after hLog

/-- What holds of the threads of an exclusive program. -/
structure Sound (programs : Fin n → List Action) (s : Threads n) : Prop where
  threads : ∀ thread, ∃ done, Consistent programs s thread done
  once : Once s.log
  defined : ∀ thread address, .erased thread address ∉ s.log

theorem sound_start : Sound programs (start programs) where
  threads thread := ⟨[], consistent_start thread⟩
  once before thread address between address' after hSplit := by
    have hLength := congrArg List.length hSplit
    simp [start] at hLength
  defined _ _ := nofun

section

variable (hExclusive : Exclusive programs)
include hExclusive

theorem Sound.step (hSound : Sound programs s) (hStep : Step thread s s') : Sound programs s' := by
  have hThreads (other : Fin n) : ∃ done, Consistent programs s' other done := by
    obtain ⟨done, hConsistent⟩ := hSound.threads other
    by_cases hOther : other = thread
    · subst hOther
      exact hConsistent.step hStep
    · exact ⟨done, hConsistent.frame hStep hOther⟩
  have hAppend (new : List (Event n)) (hNew : ∀ thread address, .wrote thread address ∉ new) := hSound.once.append hNew
  cases hStep with
  | acquire | store | lock | unlock => exact ⟨hThreads, hAppend _ (by simp), by simp [hSound.defined]⟩
  | lockFails => exact ⟨hThreads, hSound.once, hSound.defined⟩
  | write hPhase hNext =>
    obtain ⟨done, hConsistent⟩ := hSound.threads thread
    exact ⟨hThreads, hSound.once.wrote hExclusive hConsistent hPhase hNext, by simp [hSound.defined]⟩
  | notify hPhase hCall =>
    obtain rfl := (Exclusive.apart hExclusive).not_erased hSound.threads hPhase hCall
    exact ⟨hThreads, hAppend _ (by simp), by simp [hSound.defined]⟩

theorem Sound.atomic (hSound : Sound programs s) : Atomic s.log := by
  have hConditional (thread : Fin n) (address : Address) (hMem : .wrote thread address ∈ s.log) :
      Conditional (programs thread) address := by
    obtain ⟨done, hConsistent⟩ := hSound.threads thread
    exact hConsistent.wroteLog hMem
  refine ⟨?_, hSound.once, ?_, hSound.defined⟩
  · intro before event between thread address after hSplit other hOther hEvent
    have hWrite := hConditional thread address (hSplit ▸ by simp)
    rcases hEvent with rfl | rfl
    · obtain ⟨done, hConsistent⟩ := hSound.threads other
      have hStore := hConsistent.storedLog address (hSplit ▸ by simp)
      exact absurd hStore (hExclusive.address thread address hWrite other hOther).1
    · have hWriteOther := hConditional other address (hSplit ▸ by simp)
      exact absurd (hExclusive.thread _ _ _ _ hWriteOther hWrite) hOther
  · intro before thread address between other address' after hSplit hOther
    obtain ⟨done, hConsistent⟩ := hSound.threads thread
    have hLock := hConsistent.lockedLog address (hSplit ▸ by simp)
    have hWriteOther := hConditional other address' (hSplit ▸ by simp)
    exact absurd (hExclusive.thread _ _ _ _ hWriteOther hLock) hOther

theorem sound_of_reachable (hReachable : Reachable programs s) : Sound programs s := by
  induction hReachable with
  | refl => exact sound_start
  | tail _ hStep ih =>
    obtain ⟨thread, hStep⟩ := hStep
    exact ih.step hExclusive hStep

end

end Gensim.Core.MemoryMonitor
