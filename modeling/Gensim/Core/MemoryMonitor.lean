import Gensim.Core.Address
import Mathlib.Logic.Relation

/-! The monitor behind load-linked and store-conditional accesses, and threads that share it. -/
namespace Gensim.Core

variable {n : Nat}

/-- The `BaseMemoryMonitor` of threads that are numbered by their IDs. `lock_` is held by the thread
that `locked_thread_` points to. -/
structure MemoryMonitor (n : Nat) where
  monitors : Fin n → Option Address
  lockedThread : Option (Fin n)

namespace MemoryMonitor

def new : MemoryMonitor n := ⟨fun _ => none, none⟩

section Calls

variable (monitor : MemoryMonitor n) (thread : Fin n) (address : Address)

/-- There is no result while the thread waits for the lock. -/
def lock : Option (MemoryMonitor n) :=
  if monitor.lockedThread = some thread then some monitor
  else if monitor.lockedThread = none then some { monitor with lockedThread := some thread }
  else none

def unlock : MemoryMonitor n :=
  if monitor.lockedThread = some thread then { monitor with lockedThread := none } else monitor

def acquireMonitor : Option (MemoryMonitor n) := do
  let locked ← monitor.lock thread
  some (unlock { locked with monitors := Function.update locked.monitors thread (some address) } thread)

def lockMonitor : Option (Bool × MemoryMonitor n) := do
  let locked ← monitor.lock thread
  if locked.monitors thread = some address then some (true, locked)
  else some (false, locked.unlock thread)

def unlockMonitor : MemoryMonitor n := monitor.unlock thread

/-- The loop over `monitors_` erases the element that its iterator is at, and then advances the
iterator: with the monitors comes whether an element was erased. -/
def notify : Option (Bool × MemoryMonitor n) := do
  let locked ← monitor.lock thread
  let matching (other : Fin n) : Bool := other ≠ thread ∧ locked.monitors other = some address
  let erased := { locked with
    monitors := fun other => if matching other then none else locked.monitors other }
  some ((List.finRange n).any matching, erased.unlock thread)

end Calls

/-! ## Threads that share a monitor -/

/-- What guest code does to the memory that a monitor watches. -/
inductive Action where
  | acquire (address : Address)
  | write (address : Address)
  | store (address : Address)
  deriving DecidableEq

/-- How far the generated code of a monitored write has come. -/
inductive Phase where
  | idle
  | locked
  | stored (address : Address)
  | notified (address : Address)
  deriving DecidableEq

inductive Event (n : Nat) where
  | acquired (thread : Fin n) (address : Address)
  | locked (thread : Fin n) (address : Address)
  | wrote (thread : Fin n) (address : Address)
  | erased (thread : Fin n) (address : Address)
  | unlocked (thread : Fin n) (address : Address)
  | stored (thread : Fin n) (address : Address)
  deriving DecidableEq

def Event.thread : Event n → Fin n
  | .acquired thread _ | .locked thread _ | .wrote thread _ | .erased thread _ | .unlocked thread _
  | .stored thread _ => thread

/-- Threads with what each has still to do, and what was done so far, the oldest first. -/
structure Threads (n : Nat) where
  monitor : MemoryMonitor n
  rest : Fin n → List Action
  phase : Fin n → Phase
  log : List (Event n)

namespace Threads

def start (programs : Fin n → List Action) : Threads n := ⟨.new, programs, fun _ => .idle, []⟩

/-- One thread makes a call of the monitor, or stores. A call is one step, as what it does is done with
the lock, and a store of any kind is another. -/
inductive Step (thread : Fin n) (s : Threads n) : Threads n → Prop where
  | acquire {address rest monitor} (hPhase : s.phase thread = .idle)
      (hNext : s.rest thread = .acquire address :: rest)
      (hCall : s.monitor.acquireMonitor thread address = some monitor) :
      Step thread s
        ⟨monitor, Function.update s.rest thread rest, s.phase, s.log ++ [.acquired thread address]⟩
  | store {address rest} (hPhase : s.phase thread = .idle)
      (hNext : s.rest thread = .store address :: rest) :
      Step thread s
        ⟨s.monitor, Function.update s.rest thread rest, s.phase, s.log ++ [.stored thread address]⟩
  | lockFails {address rest monitor} (hPhase : s.phase thread = .idle)
      (hNext : s.rest thread = .write address :: rest)
      (hCall : s.monitor.lockMonitor thread address = some (false, monitor)) :
      Step thread s ⟨monitor, Function.update s.rest thread rest, s.phase, s.log⟩
  | lock {address rest monitor} (hPhase : s.phase thread = .idle)
      (hNext : s.rest thread = .write address :: rest)
      (hCall : s.monitor.lockMonitor thread address = some (true, monitor)) :
      Step thread s ⟨monitor, s.rest, Function.update s.phase thread .locked,
        s.log ++ [.locked thread address]⟩
  | write {address rest} (hPhase : s.phase thread = .locked)
      (hNext : s.rest thread = .write address :: rest) :
      Step thread s ⟨s.monitor, Function.update s.rest thread rest,
        Function.update s.phase thread (.stored address), s.log ++ [.wrote thread address]⟩
  | notify {address monitor erased} (hPhase : s.phase thread = .stored address)
      (hCall : s.monitor.notify thread address = some (erased, monitor)) :
      Step thread s ⟨monitor, s.rest, Function.update s.phase thread (.notified address),
        s.log ++ if erased then [.erased thread address] else []⟩
  | unlock {address} (hPhase : s.phase thread = .notified address) :
      Step thread s ⟨s.monitor.unlockMonitor thread, s.rest, Function.update s.phase thread .idle,
        s.log ++ [.unlocked thread address]⟩

/-- The threads after some interleaving of their programs, not necessarily to the end. -/
def Reachable (programs : Fin n → List Action) : Threads n → Prop :=
  Relation.ReflTransGen (fun s s' => ∃ thread, Step thread s s') (start programs)

end Threads

/-- What was done is atomic. -/
structure Atomic (log : List (Event n)) : Prop where
  /-- A store of another thread is before the last time the writing thread acquired its monitor. -/
  fresh : ∀ before event between thread address after,
    log = before ++ event :: between ++ .wrote thread address :: after → ∀ other ≠ thread,
    event = .stored other address ∨ event = .wrote other address → .acquired thread address ∈ between
  once : ∀ before thread address between address' after,
    log = before ++ .wrote thread address :: between ++ .wrote thread address' :: after →
    ∃ acquired, .acquired thread acquired ∈ between
  exclusive : ∀ before thread address between other address' after,
    log = before ++ .locked thread address :: between ++ .wrote other address' :: after →
    other ≠ thread → .unlocked thread address ∈ between
  /-- No loop goes on from an element that it erased. -/
  defined : ∀ thread address, .erased thread address ∉ log

/-- The address that a thread has a monitor on after its actions, if no other thread takes it away. -/
def reservation : Option Address → List Action → Option Address
  | held, [] => held
  | _, .acquire address :: rest => reservation (some address) rest
  | held, .write _ :: rest | held, .store _ :: rest => reservation held rest

/-- A program has a monitored write that succeeds if no other thread takes its monitor away. -/
def Conditional (program : List Action) (address : Address) : Prop :=
  ∃ before after, program = before ++ .write address :: after ∧ reservation none before = some address

/-- Only one thread has monitored writes that can succeed, each after an acquire of its own, and no
other thread acquires or stores to their addresses. -/
structure Exclusive (programs : Fin n → List Action) : Prop where
  thread : ∀ thread other address address', Conditional (programs thread) address →
    Conditional (programs other) address' → thread = other
  address : ∀ thread address, Conditional (programs thread) address → ∀ other ≠ thread,
    .store address ∉ programs other ∧ .acquire address ∉ programs other
  acquire : ∀ thread address before between after,
    programs thread = before ++ .write address :: between ++ .write address :: after →
    reservation none before = some address → ∃ acquired, .acquire acquired ∈ between

end MemoryMonitor

end Gensim.Core
