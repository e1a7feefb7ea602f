import Gensim.Core.MonitorInterleavings

/-! In every interleaving one thread at a time is in a monitored write, and all threads can finish. -/
namespace Gensim.Core.MemoryMonitor

open Threads

variable {n : Nat} {monitor after : MemoryMonitor n} {thread : Fin n} {address : Address}

/-! ## The lock after a call -/

theorem lockedThread_of_lock {locked : MemoryMonitor n} (hLock : monitor.lock thread = some locked) :
    monitor.lockedThread = none ∨ monitor.lockedThread = some thread := by
  unfold lock at hLock
  split_ifs at hLock with hHeld hFree
  · exact .inr hHeld
  · exact .inl hFree

theorem lockedThread_acquireMonitor (hCall : monitor.acquireMonitor thread address = some after) :
    (monitor.lockedThread = none ∨ monitor.lockedThread = some thread) ∧ after.lockedThread = none := by
  obtain ⟨locked, hLock, hAfter⟩ := Option.bind_eq_some_iff.mp hCall
  refine ⟨lockedThread_of_lock hLock, ?_⟩
  obtain rfl := lock_eq_some hLock
  rw [← Option.some.inj hAfter]
  simp [unlock]

theorem lockedThread_lockMonitor {success : Bool}
    (hCall : monitor.lockMonitor thread address = some (success, after)) :
    (monitor.lockedThread = none ∨ monitor.lockedThread = some thread) ∧
      after.lockedThread = if success then some thread else none := by
  obtain ⟨locked, hLock, hAfter⟩ := Option.bind_eq_some_iff.mp hCall
  refine ⟨lockedThread_of_lock hLock, ?_⟩
  obtain rfl := lock_eq_some hLock
  split at hAfter
  all_goals
    obtain ⟨rfl, rfl⟩ := Prod.mk.inj (Option.some.inj hAfter)
    simp [unlock]

theorem lockedThread_notify {erased : Bool} (hCall : monitor.notify thread address = some (erased, after)) :
    after.lockedThread = none := by
  obtain ⟨locked, hLock, hAfter⟩ := Option.bind_eq_some_iff.mp hCall
  obtain rfl := lock_eq_some hLock
  obtain ⟨-, rfl⟩ := Prod.mk.inj (Option.some.inj hAfter)
  simp [unlock]

namespace Threads

variable {programs : Fin n → List Action} {s s' : Threads n}

/-- A thread is between its lock and its notification. -/
def InWrite (s : Threads n) (thread : Fin n) : Prop :=
  s.phase thread = .locked ∨ ∃ address, s.phase thread = .stored address

def Disciplined (s : Threads n) : Prop := ∀ thread, s.monitor.lockedThread = some thread ↔ s.InWrite thread

/-- The lock stays as it is, or is taken by a thread that begins to write, or is given back by one that has written. -/
theorem Disciplined.lock_step (hDisciplined : s.Disciplined) (hStep : Step thread s s') :
    s'.monitor.lockedThread = s.monitor.lockedThread ∧ (s'.InWrite thread ↔ s.InWrite thread) ∨
      s.monitor.lockedThread = none ∧ s'.monitor.lockedThread = some thread ∧ s'.InWrite thread ∨
      s.monitor.lockedThread = some thread ∧ s'.monitor.lockedThread = none ∧ ¬ s'.InWrite thread := by
  have hHolder := hDisciplined thread
  cases hStep with
  | acquire hPhase _ hCall =>
    obtain ⟨hBefore, hAfter⟩ := lockedThread_acquireMonitor hCall
    exact .inl (by grind [InWrite])
  | store => exact .inl ⟨rfl, Iff.rfl⟩
  | lockFails hPhase _ hCall =>
    obtain ⟨hBefore, hAfter⟩ := lockedThread_lockMonitor hCall
    exact .inl (by grind [InWrite])
  | lock hPhase _ hCall =>
    obtain ⟨hBefore, hAfter⟩ := lockedThread_lockMonitor hCall
    exact .inr (.inl (by grind [InWrite]))
  | write hPhase => exact .inl ⟨rfl, by simp [InWrite, hPhase]⟩
  | notify hPhase hCall =>
    exact .inr (.inr ⟨hHolder.mpr (.inr ⟨_, hPhase⟩), lockedThread_notify hCall, by simp [InWrite]⟩)
  | unlock hPhase =>
    have hNot : s.monitor.lockedThread ≠ some thread := fun hHeld => by grind [InWrite]
    exact .inl ⟨by simp [unlockMonitor, unlock, hNot], by simp [InWrite, hPhase]⟩

theorem Disciplined.step (hDisciplined : s.Disciplined) (hStep : Step thread s s') : s'.Disciplined := by
  intro other
  have hThread := hDisciplined thread
  have hOther := hDisciplined other
  have hLock := hDisciplined.lock_step hStep
  rcases eq_or_ne other thread with rfl | hNe
  · grind
  · have hSame : s'.InWrite other ↔ s.InWrite other := by rw [InWrite, InWrite, (step_frame hStep hNe).2.1]
    grind

theorem disciplined_of_reachable (hReachable : Reachable programs s) : s.Disciplined := by
  induction hReachable with
  | refl => simp [Disciplined, start, new, InWrite]
  | tail _ hStep ih => exact hStep.elim fun _ hStep => ih.step hStep

/-- In every interleaving at most one thread is between its lock and its notification. -/
theorem inWrite_subsingleton (hReachable : Reachable programs s) : {thread | s.InWrite thread}.Subsingleton := by
  intro thread hThread other hOther
  have hHolder := disciplined_of_reachable hReachable
  exact Option.some.inj (((hHolder thread).mpr hThread).symm.trans ((hHolder other).mpr hOther))

theorem inWrite_subsingleton_of_pair : ∃ s : Threads 2, s.InWrite 0 ∧ {thread | s.InWrite thread}.Subsingleton := by
  have hReachable : Reachable (fun _ : Fin 2 => [.acquire 0x40, .write 0x40]) _ :=
    .tail (.tail .refl ⟨0, .acquire rfl rfl rfl⟩) ⟨0, .lock rfl rfl rfl⟩
  exact ⟨_, .inl rfl, inWrite_subsingleton hReachable⟩

/-! ## Progress -/

def Finished (s : Threads n) : Prop := ∀ thread, s.rest thread = [] ∧ s.phase thread = .idle

theorem consistent_of_reachable (hReachable : Reachable programs s) (thread : Fin n) :
    ∃ done, Consistent programs s thread done := by
  induction hReachable with
  | refl => exact ⟨[], consistent_start thread⟩
  | tail _ hStep ih =>
    obtain ⟨stepping, hStep⟩ := hStep
    obtain ⟨done, hConsistent⟩ := ih
    rcases eq_or_ne thread stepping with rfl | hNe
    · exact hConsistent.step hStep
    · exact ⟨done, hConsistent.frame hStep hNe⟩

theorem exists_step (hReachable : Reachable programs s) (hNot : ¬ s.Finished) : ∃ thread s', Step thread s s' := by
  have hHolder := disciplined_of_reachable hReachable
  cases hLock : s.monitor.lockedThread with
  | some holder =>
    -- the thread that has the lock goes on with its write
    rcases (hHolder holder).mp hLock with hPhase | ⟨address, hPhase⟩
    · obtain ⟨done, hConsistent⟩ := consistent_of_reachable hReachable holder
      obtain ⟨address, rest, hRest, -⟩ := hConsistent.locked hPhase
      exact ⟨holder, _, .write hPhase hRest⟩
    · obtain ⟨⟨erased, monitor⟩, hCall⟩ : ∃ result, s.monitor.notify holder address = some result := by
        simp [notify, lock_of_held hLock]
      exact ⟨holder, _, .notify hPhase hCall⟩
  | none =>
    simp only [Finished, not_forall] at hNot
    obtain ⟨thread, hThread⟩ := hNot
    have hOut : ¬ s.InWrite thread := fun hIn => by simpa [hLock] using (hHolder thread).mpr hIn
    cases hPhase : s.phase thread with
    | locked => exact absurd (.inl hPhase) hOut
    | stored address => exact absurd (.inr ⟨address, hPhase⟩) hOut
    | notified address => exact ⟨thread, _, .unlock hPhase⟩
    | idle =>
      obtain ⟨action, rest, hRest⟩ := List.exists_cons_of_ne_nil fun hNil => hThread ⟨hNil, hPhase⟩
      obtain ⟨s', hAlone⟩ := Ready.alone_action ⟨hLock, hPhase⟩ hRest
      rcases Relation.ReflTransGen.cases_head hAlone.steps with rfl | ⟨next, hStep, -⟩
      · exact absurd hAlone.rest (by simp)
      · exact ⟨thread, next, hStep⟩

/-- In no interleaving does the loop of `Notify` go on from an element that it erased. -/
theorem not_erased_of_reachable (hApart : Apart programs) (hReachable : Reachable programs s) (thread : Fin n)
    (address : Address) : .erased thread address ∉ s.log := by
  induction hReachable with
  | refl => exact nofun
  | tail hBefore hStep ih =>
    obtain ⟨stepping, hStep⟩ := hStep
    cases hStep with
    | acquire | store | lock | write | unlock => simp [ih]
    | lockFails => exact ih
    | notify hPhase hCall =>
      obtain rfl := hApart.not_erased (consistent_of_reachable hBefore) hPhase hCall
      simp [ih]

/-- What a thread has still to do. -/
def work (s : Threads n) (thread : Fin n) : Nat :=
  4 * (s.rest thread).length +
    match s.phase thread with
    | .locked => 0
    | .idle => 1
    | .notified _ => 2
    | .stored _ => 3

theorem work_step (hStep : Step thread s s') : s'.work thread < s.work thread := by
  cases hStep <;> simp_all [work]
  omega

theorem sum_work_step (hStep : Step thread s s') : ∑ other, s'.work other < ∑ other, s.work other := by
  refine Finset.sum_lt_sum (fun other _ => ?_) ⟨thread, Finset.mem_univ _, work_step hStep⟩
  rcases eq_or_ne other thread with rfl | hNe
  · exact (work_step hStep).le
  · obtain ⟨hRest, hPhase, -⟩ := step_frame hStep hNe
    rw [work, work, hRest, hPhase]

/-- Where threads do not acquire the addresses that others write under a monitor, every call of `Notify` is
defined, no interleaving goes on for ever, and one that cannot go on has finished all programs. -/
theorem runs_finish (programs : Fin n → List Action) (hApart : Apart programs) :
    WellFounded (fun s' s : Threads n => ∃ thread, Step thread s s') ∧
      ∀ s, Reachable programs s → (∀ thread address, .erased thread address ∉ s.log) ∧
        ((∀ thread s', ¬ Step thread s s') → s.Finished) := by
  refine ⟨Subrelation.wf ?_ (measure fun s : Threads n => ∑ other, s.work other).wf, fun s hReachable => ?_⟩
  · rintro s' s ⟨thread, hStep⟩
    exact sum_work_step hStep
  · refine ⟨not_erased_of_reachable hApart hReachable, fun hStuck => ?_⟩
    by_contra hNot
    obtain ⟨thread, s', hStep⟩ := exists_step hReachable hNot
    exact hStuck thread s' hStep

/-- Two threads that each write their own address, which the other one stores to. -/
theorem runs_finish_pair :
    let programs : Fin 2 → List Action :=
      ![[.acquire 0x40, .write 0x40, .store 0x80], [.acquire 0x80, .write 0x80, .store 0x40]]
    Apart programs ∧ ∀ s, Reachable programs s → (∀ thread s', ¬ Step thread s s') → s.Finished := by
  intro programs
  have hWrites (thread : Fin 2) (address : Address) (hThread : Conditional (programs thread) address) :
      .write address ∈ programs thread := by
    obtain ⟨before, after, hProgram, -⟩ := hThread
    simp [hProgram]
  have hApart : Apart programs := by
    intro thread address hThread other hOther
    have hWrite := hWrites thread address hThread
    fin_cases thread <;> fin_cases other <;> simp_all [programs]
  exact ⟨hApart, fun s hReachable => ((runs_finish programs hApart).2 s hReachable).2⟩

end Threads
end Gensim.Core.MemoryMonitor
