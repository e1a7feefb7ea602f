import Gensim.Core.MonitorAtomicity

/-! The interleavings that break atomicity, and the programs that have none. -/
namespace Gensim.Core.MemoryMonitor

open Threads

variable {n : Nat} {thread other : Fin n} {address : Address} {programs : Fin n → List Action}
  {s s' : Threads n}

/-! ## Threads that run alone -/

/-- One thread takes steps while the others wait. -/
abbrev Steps (thread : Fin n) : Threads n → Threads n → Prop := Relation.ReflTransGen (Step thread)

theorem Steps.reachable (hSteps : Steps thread s s') (hReachable : Reachable programs s) : Reachable programs s' := by
  induction hSteps with
  | refl => exact hReachable
  | tail _ hStep ih => exact ih.tail ⟨thread, hStep⟩

theorem Steps.log (hSteps : Steps thread s s') :
    ∃ new, s'.log = s.log ++ new ∧ ∀ event ∈ new, event.thread = thread := by
  induction hSteps with
  | refl => exact ⟨[], by simp, by simp⟩
  | tail _ hStep ih =>
    obtain ⟨new, hLog, hNew⟩ := ih
    obtain ⟨last, hLast, hEvents⟩ := step_log hStep
    refine ⟨new ++ last, by rw [hLast, hLog, List.append_assoc], fun event hMem => ?_⟩
    exact (List.mem_append.mp hMem).elim (hNew event) (hEvents event)

theorem Steps.frame (hSteps : Steps thread s s') (hOther : other ≠ thread) :
    s'.rest other = s.rest other ∧ s'.phase other = s.phase other ∧
      (s'.monitor.monitors other = s.monitor.monitors other ∨ ∃ address, .erased thread address ∈ s'.log) := by
  induction hSteps with
  | refl => exact ⟨rfl, rfl, .inl rfl⟩
  | tail _ hStep ih =>
    obtain ⟨hRest, hPhase, hMonitor⟩ := ih
    obtain ⟨hRest', hPhase', hMonitor'⟩ := step_frame hStep hOther
    obtain ⟨new, hLog, -⟩ := step_log hStep
    refine ⟨hRest'.trans hRest, hPhase'.trans hPhase, ?_⟩
    rcases hMonitor with hSame | ⟨address, hErased⟩
    · rcases hMonitor' with hSame' | ⟨-, hErased⟩
      · exact .inl (hSame'.trans hSame)
      · exact .inr hErased
    · exact .inr ⟨address, hLog ▸ List.mem_append_left _ hErased⟩

/-- The thread waits for nothing: it has no call under way, and nobody has the lock. -/
structure Ready (s : Threads n) (thread : Fin n) : Prop where
  free : s.monitor.lockedThread = none
  phase : s.phase thread = .idle

/-- A thread alone performs the first actions of those it has still to do. -/
structure Alone (thread : Fin n) (performed : List Action) (s s' : Threads n) : Prop where
  steps : Steps thread s s'
  ready : Ready s' thread
  rest : s.rest thread = performed ++ s'.rest thread
  monitor : s'.monitor.monitors thread = reservation (s.monitor.monitors thread) performed
  log : ∃ new, s'.log = s.log ++ new ∧
    ∀ acquired, .acquired thread acquired ∈ new → .acquire acquired ∈ performed

theorem Alone.trans {s'' : Threads n} {first second : List Action} (hFirst : Alone thread first s s')
    (hSecond : Alone thread second s' s'') : Alone thread (first ++ second) s s'' where
  steps := Relation.ReflTransGen.trans hFirst.steps hSecond.steps
  ready := hSecond.ready
  rest := by rw [hFirst.rest, hSecond.rest, List.append_assoc]
  monitor := by rw [hSecond.monitor, hFirst.monitor, reservation_append]
  log := by
    obtain ⟨new, hLog, hNew⟩ := hFirst.log
    obtain ⟨more, hMore, hAcquired⟩ := hSecond.log
    refine ⟨new ++ more, by rw [hMore, hLog, List.append_assoc], fun acquired hMem => ?_⟩
    exact List.mem_append.mpr ((List.mem_append.mp hMem).imp (hNew acquired) (hAcquired acquired))

variable {rest : List Action}

section

variable (hReady : Ready s thread)
include hReady

/-- The write that a thread has its monitor for, up to its store. -/
theorem Ready.wrote (hNext : s.rest thread = .write address :: rest) (hHas : s.monitor.monitors thread = some address) :
    ∃ s', Steps thread s s' ∧ s'.monitor = ⟨s.monitor.monitors, some thread⟩ ∧
      s'.phase thread = .stored address ∧ s'.rest thread = rest ∧
      s'.log = s.log ++ [.locked thread address, .wrote thread address] := by
  have hCall : s.monitor.lockMonitor thread address = some (true, ⟨s.monitor.monitors, some thread⟩) := by
    simp [lockMonitor, lock_of_free hReady.free, hHas]
  let locked : Threads n := ⟨⟨s.monitor.monitors, some thread⟩, s.rest,
    Function.update s.phase thread .locked, s.log ++ [.locked thread address]⟩
  have hLock : Step thread s locked := .lock hReady.phase hNext hCall
  have hPhase : locked.phase thread = .locked := Function.update_self ..
  have hNextLocked : locked.rest thread = .write address :: rest := hNext
  refine ⟨_, (Relation.ReflTransGen.single hLock).tail (.write hPhase hNextLocked), rfl, ?_, ?_, ?_⟩
  · exact Function.update_self ..
  · exact Function.update_self ..
  · exact List.append_assoc ..

/-- The write that a thread has its monitor for, up to the call of `UnlockMonitor`: the lock is free by
then, as `Notify` released it. -/
theorem Ready.notified (hNext : s.rest thread = .write address :: rest)
    (hHas : s.monitor.monitors thread = some address) : ∃ s' new, Steps thread s s' ∧ s'.monitor.lockedThread = none ∧
      s'.monitor.monitors thread = some address ∧ s'.phase thread = .notified address ∧
      s'.rest thread = rest ∧ (∀ other ≠ thread, s'.monitor.monitors other ≠ some address) ∧
      s'.log = s.log ++ .locked thread address :: .wrote thread address :: new ∧
      ∀ event ∈ new, event = .erased thread address := by
  obtain ⟨written, hSteps, hMonitor, hPhase, hRest, hLog⟩ := hReady.wrote hNext hHas
  have hHeld : written.monitor.lockedThread = some thread := by rw [hMonitor]
  obtain ⟨erased, after, hCall, hFree⟩ : ∃ erased after,
      written.monitor.notify thread address = some (erased, after) ∧ after.lockedThread = none := by
    refine ⟨_, _, by rw [notify, lock_of_held hHeld]; rfl, ?_⟩
    simp [unlock, hHeld]
  have hOwn : after.monitors thread = some address := by
    rcases (notify_eq_some hCall).1 thread with ⟨hSame, -⟩ | ⟨hNe, -⟩
    · rw [hSame, hMonitor, hHas]
    · exact absurd rfl hNe
  refine ⟨_, if erased then [.erased thread address] else [], hSteps.tail (.notify hPhase hCall), hFree,
    hOwn, Function.update_self .., hRest, fun _ => notify_takes hCall, ?_, ?_⟩
  · rw [hLog, List.append_assoc]
    rfl
  · cases erased <;> simp

theorem Ready.alone_write (hNext : s.rest thread = .write address :: rest)
    (hHas : s.monitor.monitors thread = some address) :
    ∃ s' new, Alone thread [.write address] s s' ∧
      s'.log = s.log ++ .locked thread address :: .wrote thread address :: new ∧
      ∀ acquired, .acquired thread acquired ∉ new := by
  obtain ⟨notified, new, hSteps, hFree, hOwn, hPhase, hRest, -, hLog, hNew⟩ := hReady.notified hNext hHas
  have hMonitor : notified.monitor.unlockMonitor thread = notified.monitor := by simp [unlockMonitor, unlock, hFree]
  have hAcquired (acquired : Address) : .acquired thread acquired ∉ new ++ [.unlocked thread address] := by
    intro hMem
    rcases List.mem_append.mp hMem with hMem | hMem
    · cases hNew _ hMem
    · cases List.mem_singleton.mp hMem
  have hFinal : notified.log ++ [.unlocked thread address] =
      s.log ++ .locked thread address :: .wrote thread address :: (new ++ [.unlocked thread address]) := by
    rw [hLog, List.append_assoc]
    rfl
  refine ⟨_, _, ⟨hSteps.tail (.unlock hPhase), ⟨?_, Function.update_self ..⟩, ?_, ?_, ?_⟩, hFinal, hAcquired⟩
  · rw [hMonitor, hFree]
  · rw [hNext, hRest]
    rfl
  · rw [hMonitor, hOwn, hHas]
    rfl
  · refine ⟨_, hFinal, fun acquired hMem => ?_⟩
    simp only [List.mem_cons, reduceCtorEq, false_or] at hMem
    exact absurd hMem (hAcquired acquired)

theorem Ready.alone_action {action : Action} (hNext : s.rest thread = action :: rest) :
    ∃ s', Alone thread [action] s s' := by
  cases action with
  | acquire acquired =>
    have hCall : s.monitor.acquireMonitor thread acquired =
        some ⟨Function.update s.monitor.monitors thread (some acquired), none⟩ := by
      simp [acquireMonitor, lock_of_free hReady.free, unlock]
    refine ⟨_, .single (.acquire hReady.phase hNext hCall), ⟨rfl, hReady.phase⟩, ?_, ?_, _, rfl, ?_⟩
    · simp [hNext]
    · exact Function.update_self ..
    · simp
  | store stored =>
    refine ⟨_, .single (.store hReady.phase hNext), ⟨hReady.free, hReady.phase⟩, ?_, rfl, _, rfl, ?_⟩
    · simp [hNext]
    · simp
  | write written =>
    by_cases hHas : s.monitor.monitors thread = some written
    · obtain ⟨s', new, hAlone, -⟩ := hReady.alone_write hNext hHas
      exact ⟨s', hAlone⟩
    · have hCall : s.monitor.lockMonitor thread written = some (false, ⟨s.monitor.monitors, none⟩) := by
        simp [lockMonitor, lock_of_free hReady.free, hHas, unlock]
      refine ⟨_, .single (.lockFails hReady.phase hNext hCall), ⟨rfl, hReady.phase⟩, ?_, rfl, [], ?_, ?_⟩
      · simp [hNext]
      · simp
      · simp

/-- A thread alone gets to any place in its program. -/
theorem Ready.alone {performed rest : List Action} (hNext : s.rest thread = performed ++ rest) :
    ∃ s', Alone thread performed s s' := by
  induction performed generalizing s with
  | nil => exact ⟨s, .refl, hReady, rfl, rfl, [], by simp, by simp⟩
  | cons action performed ih =>
    obtain ⟨first, hFirst⟩ := hReady.alone_action hNext
    have hRest : first.rest thread = performed ++ rest := List.append_cancel_left (hFirst.rest.symm.trans hNext)
    obtain ⟨s', hAlone⟩ := ih hFirst.ready hRest
    exact ⟨s', hFirst.trans hAlone⟩

end

theorem Alone.rest_eq {performed rest : List Action} (hAlone : Alone thread performed s s')
    (hNext : s.rest thread = performed ++ rest) : s'.rest thread = rest :=
  List.append_cancel_left (hAlone.rest.symm.trans hNext)

theorem Alone.held {performed : List Action} (hAlone : Alone thread performed s s')
    (hHeld : reservation none performed = some address) : s'.monitor.monitors thread = some address := by
  rw [hAlone.monitor]
  exact reservation_of_none _ hHeld

/-! ## Programs all of whose interleavings are atomic -/

theorem ready_start (thread : Fin n) : Ready (start programs) thread := ⟨rfl, rfl⟩

theorem Steps.ready {other : Fin n} (hSteps : Steps thread s s') (hOther : other ≠ thread)
    (hFree : s'.monitor.lockedThread = none) (hPhase : s.phase other = .idle) : Ready s' other :=
  ⟨hFree, (hSteps.frame hOther).2.1.trans hPhase⟩

variable (hAtomic : ∀ s, Reachable programs s → Atomic s.log)

include hAtomic

/-- Two threads with conditional writes: the second one writes after `Notify` of the first released
the lock. -/
theorem thread_of_atomic {address' : Address} (hThread : Conditional (programs thread) address)
    (hWrites : Conditional (programs other) address') : thread = other := by
  by_contra hNe
  have hOther : other ≠ thread := Ne.symm hNe
  obtain ⟨before, rest, hProgram, hHeld⟩ := hThread
  obtain ⟨before', rest', hProgram', hHeld'⟩ := hWrites
  obtain ⟨first, hFirst⟩ := (ready_start thread).alone hProgram
  obtain ⟨second, new, hSecond, hFree, -, -, -, -, hLog, hNew⟩ :=
    hFirst.ready.notified (hFirst.rest_eq hProgram) (hFirst.held hHeld)
  have hBefore : Steps thread (start programs) second := hFirst.steps.trans hSecond
  have hReady := hBefore.ready hOther hFree rfl
  have hRest : second.rest other = before' ++ .write address' :: rest' := (hBefore.frame hOther).1.trans hProgram'
  obtain ⟨third, hThird⟩ := hReady.alone hRest
  obtain ⟨last, hLast, -, -, -, hLogLast⟩ := hThird.ready.wrote (hThird.rest_eq hRest) (hThird.held hHeld')
  obtain ⟨more, hLogThird, hMore⟩ := hThird.steps.log
  have hEnd := hAtomic last (hLast.reachable (hThird.steps.reachable (hBefore.reachable .refl)))
  have hSplit : last.log = first.log ++ .locked thread address ::
      (.wrote thread address :: (new ++ more ++ [.locked other address'])) ++ .wrote other address' :: [] := by
    rw [hLogLast, hLogThird, hLog]
    simp
  have hUnlocked := hEnd.exclusive _ _ _ _ _ _ _ hSplit hOther
  simp only [List.mem_cons, List.mem_append, reduceCtorEq, false_or, or_false, List.not_mem_nil] at hUnlocked
  rcases hUnlocked with hMem | hMem
  · cases hNew _ hMem
  · exact hNe (hMore _ hMem)

/-- An ordinary store of another thread between the acquire and the write. -/
theorem store_of_atomic (hThread : Conditional (programs thread) address) (hOther : other ≠ thread) :
    .store address ∉ programs other := by
  intro hStore
  obtain ⟨before, rest, hProgram, hHeld⟩ := hThread
  obtain ⟨before', rest', hProgram'⟩ := List.append_of_mem hStore
  obtain ⟨first, hFirst⟩ := (ready_start other).alone hProgram'
  have hRest : first.rest thread = before ++ .write address :: rest := (hFirst.steps.frame hOther.symm).1.trans hProgram
  have hReady := hFirst.steps.ready hOther.symm hFirst.ready.free rfl
  obtain ⟨second, hSecond⟩ := hReady.alone hRest
  have hNext : second.rest other = .store address :: rest' :=
    (hSecond.steps.frame hOther).1.trans (hFirst.rest_eq hProgram')
  have hPhase : second.phase other = .idle := (hSecond.steps.frame hOther).2.1.trans hFirst.ready.phase
  let third : Threads n := ⟨second.monitor, Function.update second.rest other rest', second.phase,
    second.log ++ [.stored other address]⟩
  have hThird : Step other second third := .store hPhase hNext
  have hReadyThird : Ready third thread := ⟨hSecond.ready.free, hSecond.ready.phase⟩
  have hRestThird : third.rest thread = .write address :: rest :=
    (step_frame hThird hOther.symm).1.trans (hSecond.rest_eq hRest)
  obtain ⟨last, hLast, -, -, -, hLog⟩ := hReadyThird.wrote hRestThird (hSecond.held hHeld)
  have hReachable : Reachable programs second := hSecond.steps.reachable (hFirst.steps.reachable .refl)
  have hEnd := hAtomic last (hLast.reachable (hReachable.tail ⟨other, hThird⟩))
  have hSplit : last.log = second.log ++ .stored other address :: [.locked thread address] ++
      .wrote thread address :: [] := by
    rw [hLog]
    simp [third]
  have hAcquired := hEnd.fresh _ _ _ _ _ _ hSplit other hOther (.inl rfl)
  cases List.mem_singleton.mp hAcquired

/-- A monitor of another thread on the address, which the write takes away. -/
theorem acquire_of_atomic (hThread : Conditional (programs thread) address) (hOther : other ≠ thread) :
    .acquire address ∉ programs other := by
  intro hAcquire
  obtain ⟨before, rest, hProgram, hHeld⟩ := hThread
  obtain ⟨before', rest', hProgram'⟩ := List.append_of_mem hAcquire
  have hStart : (start programs).rest other = (before' ++ [.acquire address]) ++ rest' := hProgram'.trans (by simp)
  obtain ⟨first, hFirst⟩ := (ready_start other).alone hStart
  have hHas : first.monitor.monitors other = some address := by
    rw [hFirst.monitor, reservation_append]
    rfl
  have hRest : first.rest thread = before ++ .write address :: rest := (hFirst.steps.frame hOther.symm).1.trans hProgram
  have hReady := hFirst.steps.ready hOther.symm hFirst.ready.free rfl
  obtain ⟨second, hSecond⟩ := hReady.alone hRest
  obtain ⟨third, new, hThird, -, -, -, -, hTaken, -⟩ :=
    hSecond.ready.notified (hSecond.rest_eq hRest) (hSecond.held hHeld)
  have hSteps : Steps thread first third := hSecond.steps.trans hThird
  rcases (hSteps.frame hOther).2.2 with hSame | ⟨erased, hErased⟩
  · exact hTaken other hOther (hSame.trans hHas)
  · have hReachable := hSteps.reachable (hFirst.steps.reachable .refl)
    exact (hAtomic third hReachable).defined thread erased hErased

/-- Two writes of a thread after one acquire. -/
theorem once_of_atomic {before between rest : List Action}
    (hProgram : programs thread = before ++ .write address :: between ++ .write address :: rest)
    (hHeld : reservation none before = some address) : ∃ acquired, .acquire acquired ∈ between := by
  by_contra hNone
  have hStart : (start programs).rest thread = before ++ (.write address :: between ++ .write address :: rest) :=
    hProgram.trans (List.append_assoc ..)
  obtain ⟨first, hFirst⟩ := (ready_start thread).alone hStart
  have hNext := hFirst.rest_eq hStart
  obtain ⟨second, new, hSecond, hLog, hNew⟩ := hFirst.ready.alone_write hNext (hFirst.held hHeld)
  have hRest : second.rest thread = between ++ .write address :: rest := hSecond.rest_eq hNext
  obtain ⟨third, hThird⟩ := hSecond.ready.alone hRest
  have hHas : third.monitor.monitors thread = some address := by
    rw [hThird.monitor, reservation_of_no_acquire (not_exists.mp hNone), hSecond.monitor]
    exact hFirst.held hHeld
  obtain ⟨last, hLast, -, -, -, hLogLast⟩ := hThird.ready.wrote (hThird.rest_eq hRest) hHas
  obtain ⟨more, hLogThird, hMore⟩ := hThird.log
  have hReachable : Reachable programs last :=
    hLast.reachable (hThird.steps.reachable (hSecond.steps.reachable (hFirst.steps.reachable .refl)))
  have hSplit : last.log = (first.log ++ [.locked thread address]) ++ .wrote thread address ::
      (new ++ more ++ [.locked thread address]) ++ .wrote thread address :: [] := by
    rw [hLogLast, hLogThird, hLog]
    simp
  obtain ⟨acquired, hMem⟩ := (hAtomic last hReachable).once _ _ _ _ _ _ hSplit
  simp only [List.mem_append, List.mem_singleton, reduceCtorEq, or_false] at hMem
  rcases hMem with hMem | hMem
  · exact hNew acquired hMem
  · exact hNone ⟨acquired, hMore acquired hMem⟩

omit hAtomic

/-- Every interleaving of the programs is atomic exactly when only one thread has monitored writes that
can succeed, each after an acquire of its own, and the other threads neither acquire nor store to the
addresses of these writes. -/
theorem atomic_iff_exclusive (programs : Fin n → List Action) :
    (∀ s, Reachable programs s → Atomic s.log) ↔ Exclusive programs := by
  constructor
  · intro hAtomic
    refine ⟨?_, ?_, ?_⟩
    · exact fun thread other address address' => thread_of_atomic hAtomic
    · exact fun thread address hThread other hOther =>
        ⟨store_of_atomic hAtomic hThread hOther, acquire_of_atomic hAtomic hThread hOther⟩
    · exact fun thread address before between after => once_of_atomic hAtomic
  · intro hExclusive s hReachable
    exact (sound_of_reachable hExclusive hReachable).atomic hExclusive

/-- A store of the other thread after the acquire does not keep the write from its own store. -/
theorem stale_write_succeeds :
    let programs : Fin 2 → List Action := ![[.acquire 0x40, .write 0x40], [.store 0x40]]
    ∃ s, Reachable programs s ∧
      s.log = [.acquired 0 0x40, .stored 1 0x40, .locked 0 0x40, .wrote 0 0x40] ∧ ¬ Atomic s.log := by
  intro programs
  have hAcquire : ∃ s, Step 0 (start programs) s ∧ s.monitor.monitors 0 = some 0x40 ∧
      s.monitor.lockedThread = none ∧ s.phase = (fun _ => .idle) ∧ s.rest 0 = [.write 0x40] ∧
      s.rest 1 = [.store 0x40] ∧ s.log = [.acquired 0 0x40] :=
    ⟨_, .acquire rfl rfl rfl, rfl, rfl, rfl, rfl, rfl, rfl⟩
  obtain ⟨first, hFirst, hHas, hFree, hPhase, hRest, hStore, hLog⟩ := hAcquire
  let second : Threads 2 := ⟨first.monitor, Function.update first.rest 1 [], first.phase,
    first.log ++ [.stored 1 0x40]⟩
  have hSecond : Step 1 first second := .store (congrFun hPhase 1) hStore
  have hReady : Ready second 0 := ⟨hFree, congrFun hPhase 0⟩
  have hNext : second.rest 0 = [.write 0x40] := hRest
  obtain ⟨last, hLast, -, -, -, hLogLast⟩ := hReady.wrote hNext hHas
  have hFinal : last.log = [.acquired 0 0x40, .stored 1 0x40, .locked 0 0x40, .wrote 0 0x40] := by
    rw [hLogLast, show second.log = first.log ++ [.stored 1 0x40] from rfl, hLog]
    rfl
  refine ⟨last, hLast.reachable ((Relation.ReflTransGen.single ⟨0, hFirst⟩).tail ⟨1, hSecond⟩), hFinal,
    fun hAtomic => ?_⟩
  have hMem := hAtomic.fresh [.acquired 0 0x40] (.stored 1 0x40) [.locked 0 0x40] 0 0x40 [] hFinal 1
    (by decide) (.inl rfl)
  cases List.mem_singleton.mp hMem

end Gensim.Core.MemoryMonitor
