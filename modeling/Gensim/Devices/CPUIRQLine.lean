import Gensim.Lib.Operations

/-! The interrupt lines of a thread, and the messages that tell it of them. -/
namespace Gensim.Devices

open Operations

/-- What the thread was told of the line. -/
inductive CPUIRQLine.State where
  | idle | raised | acknowledged | rescinded
  deriving DecidableEq

/-- A line to the thread: its level, and how far an interrupt of it has got. -/
structure CPUIRQLine where
  asserted : Bool
  state : CPUIRQLine.State
  deriving DecidableEq

namespace CPUIRQLine

def new : CPUIRQLine := ⟨false, .idle⟩

variable (line : CPUIRQLine)

/-- The line after `Assert`, and whether the thread is told of it by `TakeIRQ`. -/
def assert : CPUIRQLine × Bool :=
  match line.state with
  | .idle | .acknowledged => (⟨true, .raised⟩, true)
  | .raised | .rescinded => ({ line with asserted := true }, false)

/-- The line after `Rescind`, and whether the thread is told of it by `RescindIRQ`. -/
def rescind : CPUIRQLine × Bool :=
  match line.state with
  | .raised => (⟨false, .rescinded⟩, true)
  | .acknowledged => (⟨false, .idle⟩, false)
  | .idle | .rescinded => ({ line with asserted := false }, false)

/-- The thread has handled the interrupt. A line that was rescinded meanwhile
is idle again. -/
def acknowledge : CPUIRQLine :=
  match line.state with
  | .raised => { line with state := .acknowledged }
  | .rescinded => { line with state := .idle }
  | .idle | .acknowledged => line

/-- An interrupt that was handled is pending again. -/
def raise : CPUIRQLine :=
  match line.state with
  | .acknowledged => { line with state := .raised }
  | .idle | .raised | .rescinded => line

def isAcknowledged : Bool := line.state = .acknowledged

/-- A line that the thread was told of is asserted. -/
def IsTracked : Prop := line.state = .raised ∨ line.state = .acknowledged → line.asserted = true

variable {line}

theorem assert_asserted : line.assert.1.asserted = true := by
  unfold assert
  cases line.state <;> rfl

theorem isTracked_assert : line.assert.1.IsTracked := fun _ => assert_asserted

theorem rescind_asserted : line.rescind.1.asserted = false := by
  unfold rescind
  cases line.state <;> rfl

theorem isTracked_rescind : line.rescind.1.IsTracked := by
  obtain ⟨asserted, state⟩ := line
  cases state <;> simp [rescind, IsTracked]

theorem isTracked_acknowledge (hTracked : line.IsTracked) : line.acknowledge.IsTracked := by
  unfold acknowledge IsTracked at *
  cases hState : line.state <;> simp_all

theorem isTracked_raise (hTracked : line.IsTracked) : line.raise.IsTracked := by
  unfold raise IsTracked at *
  cases hState : line.state <;> simp_all

theorem acknowledge_asserted : line.acknowledge.asserted = line.asserted := by
  unfold acknowledge
  cases line.state <;> rfl

theorem raise_asserted : line.raise.asserted = line.asserted := by
  unfold raise
  cases line.state <;> rfl

theorem isAcknowledged_acknowledge :
    line.acknowledge.isAcknowledged = true ↔ line.state = .raised ∨ line.state = .acknowledged := by
  unfold acknowledge isAcknowledged
  cases hState : line.state <;> simp [hState]

end CPUIRQLine

inductive ThreadMessage where
  | nop | halt | interrupt
  deriving DecidableEq

/-- What `HandleInterrupt` of an emulation model does to the lines and messages of the thread: nothing, or it
pends the interrupts again, as it does on RISC-V when it writes `mstatus`. -/
inductive InterruptHandling where
  | returns | pends
  deriving DecidableEq

/-- A thread with `n` interrupt lines. -/
structure ThreadInstance (n : Nat) where
  irqLines : Fin n → CPUIRQLine
  messageQueue : List ThreadMessage
  pendingIrqs : BitVec 32

namespace ThreadInstance

variable {n : Nat} (thread : ThreadInstance n)

def new : ThreadInstance n := ⟨fun _ => .new, [], 0⟩

def sendMessage (message : ThreadMessage) : ThreadInstance n :=
  { thread with messageQueue := thread.messageQueue ++ [message] }

/-- An interrupt more is pending, and the thread is sent a message about it. -/
def takeIRQ : ThreadInstance n :=
  { thread with pendingIrqs := thread.pendingIrqs + 1 }.sendMessage .interrupt

def rescindIRQ : ThreadInstance n := { thread with pendingIrqs := thread.pendingIrqs - 1 }

def setLine (number : Fin n) (line : CPUIRQLine) : ThreadInstance n :=
  { thread with irqLines := Function.update thread.irqLines number line }

def assertLine (number : Fin n) : ThreadInstance n :=
  let (line, taken) := (thread.irqLines number).assert
  if taken then (thread.setLine number line).takeIRQ else thread.setLine number line

def rescindLine (number : Fin n) : ThreadInstance n :=
  let (line, told) := (thread.irqLines number).rescind
  if told then (thread.setLine number line).rescindIRQ else thread.setLine number line

/-- The line is one that `HandleIRQ` calls `HandleInterrupt` for. -/
def IsWaiting (number : Fin n) : Prop :=
  (thread.irqLines number).asserted = true ∧ (thread.irqLines number).isAcknowledged = false

instance (number : Fin n) : Decidable (thread.IsWaiting number) := inferInstanceAs (Decidable (_ ∧ _))

/-- All lines that were acknowledged are raised again, with one message, if any
line is asserted. -/
def pendIRQ : ThreadInstance n :=
  if ∃ number, (thread.irqLines number).asserted = true then
    let sent := thread.sendMessage .interrupt
    { sent with irqLines := fun number => (sent.irqLines number).raise }
  else thread

/-- `HandleInterrupt` is a virtual function of the emulation model, which comes in here. -/
def handleInterrupt : InterruptHandling → ThreadInstance n
  | .returns => thread
  | .pends => thread.pendIRQ

/-- The loop body of `HandleIRQ` for one line. -/
def handleLine (handling : Fin n → InterruptHandling) (thread : ThreadInstance n) (number : Fin n) :
    ThreadInstance n :=
  if thread.IsWaiting number then
    let handled := thread.handleInterrupt (handling number)
    handled.setLine number (handled.irqLines number).acknowledge
  else thread

/-- The loop over the lines, in the order of their numbers. -/
def handleIRQ (handling : Fin n → InterruptHandling) : ThreadInstance n :=
  (List.finRange n).foldl (handleLine handling) thread

/-- `HandleMessage` is called when there is a message. -/
def handleMessage (handling : Fin n → InterruptHandling) : ThreadInstance n :=
  match thread.messageQueue with
  | [] => thread
  | .nop :: rest | .halt :: rest => { thread with messageQueue := rest }
  | .interrupt :: rest => { thread with messageQueue := rest }.handleIRQ handling

/-- What a device or the thread itself does. -/
inductive Call (n : Nat) where
  | assert (number : Fin n)
  | rescind (number : Fin n)
  | handleMessage (handling : Fin n → InterruptHandling)
  | pendIRQ
  | sendMessage (message : ThreadMessage)

def call : Call n → ThreadInstance n
  | .assert number => thread.assertLine number
  | .rescind number => thread.rescindLine number
  | .handleMessage handling => thread.handleMessage handling
  | .pendIRQ => thread.pendIRQ
  | .sendMessage message => thread.sendMessage message

/-! ### Interrupts that are lost -/

/-- There is a message for the lines that wait. -/
def Noticed : Prop := ∀ number, thread.IsWaiting number → .interrupt ∈ thread.messageQueue

instance : Decidable thread.Noticed := inferInstanceAs (Decidable (∀ _, _ → _))

/-- A line that was rescinded before it was acknowledged is asserted only while there is a message, and
with the last message no line is asserted other than by `Assert` of a line that was not rescinded so, unless
`HandleInterrupt` pends the interrupts again. -/
def Heeds : Call n → Prop
  | .assert number => (thread.irqLines number).state = .rescinded → .interrupt ∈ thread.messageQueue
  | .handleMessage handling => ∀ rest, thread.messageQueue = .interrupt :: rest → .interrupt ∉ rest →
      (∀ number, thread.IsWaiting number → handling number = .returns) → ∀ number, (thread.irqLines number).asserted = true →
        (thread.irqLines number).state = .raised ∨ (thread.irqLines number).state = .acknowledged
  | _ => True

variable {thread}

theorem irqLines_assertLine (number : Fin n) : (thread.assertLine number).irqLines =
      Function.update thread.irqLines number (thread.irqLines number).assert.1 := by
  unfold assertLine
  dsimp only
  split <;> rfl

theorem irqLines_rescindLine (number : Fin n) : (thread.rescindLine number).irqLines =
      Function.update thread.irqLines number (thread.irqLines number).rescind.1 := by
  unfold rescindLine
  dsimp only
  split <;> rfl

theorem messageQueue_rescindLine (number : Fin n) : (thread.rescindLine number).messageQueue = thread.messageQueue := by
  unfold rescindLine
  dsimp only
  split <;> rfl

theorem messageQueue_assertLine (number : Fin n) : (thread.assertLine number).messageQueue =
      if (thread.irqLines number).assert.2 then thread.messageQueue ++ [.interrupt] else thread.messageQueue := by
  unfold assertLine
  dsimp only
  split <;> rfl

theorem asserted_pendIRQ (number : Fin n) :
    (thread.pendIRQ.irqLines number).asserted = (thread.irqLines number).asserted := by
  unfold pendIRQ
  split
  · exact CPUIRQLine.raise_asserted
  · rfl

theorem interrupt_mem_pendIRQ {number : Fin n} (hWaiting : thread.IsWaiting number) :
    .interrupt ∈ thread.pendIRQ.messageQueue := by
  rw [pendIRQ, if_pos ⟨number, hWaiting.1⟩]
  exact List.mem_append_right _ List.mem_cons_self

theorem mem_pendIRQ {message : ThreadMessage} (hMem : message ∈ thread.messageQueue) :
    message ∈ thread.pendIRQ.messageQueue := by
  unfold pendIRQ
  split
  · exact List.mem_append_left _ hMem
  · exact hMem

section Handling

variable {handling : Fin n → InterruptHandling} {number : Fin n} {numbers : List (Fin n)}

theorem asserted_handleLine (other : Fin n) :
    ((thread.handleLine handling number).irqLines other).asserted = (thread.irqLines other).asserted := by
  have hHandled : ((thread.handleInterrupt (handling number)).irqLines other).asserted =
      (thread.irqLines other).asserted := by
    cases handling number with
    | returns => rfl
    | pends => exact asserted_pendIRQ other
  unfold handleLine
  split
  · dsimp only [setLine]
    rw [Function.update_apply]
    split
    · rename_i hSame
      subst hSame
      rw [CPUIRQLine.acknowledge_asserted, hHandled]
    · exact hHandled
  · rfl

theorem asserted_handleMessage (other : Fin n) :
    ((thread.handleMessage handling).irqLines other).asserted = (thread.irqLines other).asserted := by
  have hLoop (numbers : List (Fin n)) (thread : ThreadInstance n) :
      ((numbers.foldl (handleLine handling) thread).irqLines other).asserted =
        (thread.irqLines other).asserted := by
    induction numbers generalizing thread with
    | nil => rfl
    | cons number numbers ih => exact (ih _).trans (asserted_handleLine other)
  unfold handleMessage
  split
  · rfl
  · rfl
  · rfl
  · exact hLoop _ _

theorem mem_foldl_handleLine {message : ThreadMessage} (hMem : message ∈ thread.messageQueue) :
    message ∈ (numbers.foldl (handleLine handling) thread).messageQueue := by
  induction numbers generalizing thread with
  | nil => exact hMem
  | cons number numbers ih =>
    refine ih ?_
    unfold handleLine
    split
    · change message ∈ (thread.handleInterrupt (handling number)).messageQueue
      cases handling number with
      | returns => exact hMem
      | pends => exact mem_pendIRQ hMem
    · exact hMem

theorem handleLine_of_returns (hReturns : thread.IsWaiting number → handling number = .returns) :
    thread.handleLine handling number = if thread.IsWaiting number then
      thread.setLine number (thread.irqLines number).acknowledge else thread := by
  unfold handleLine
  split
  · rename_i hWaiting
    rw [hReturns hWaiting]
    rfl
  · rfl

/-- The body of the loop for one line does not concern the others, unless it pends the interrupts. -/
theorem isWaiting_handleLine (hReturns : thread.IsWaiting number → handling number = .returns) {other : Fin n}
    (hOther : other ≠ number) : (thread.handleLine handling number).irqLines other = thread.irqLines other := by
  rw [handleLine_of_returns hReturns]
  split
  · exact Function.update_of_ne hOther ..
  · rfl

/-- A handler that pends the interrupts leaves a message. -/
theorem interrupt_mem_of_pends (hNodup : numbers.Nodup) (hMem : number ∈ numbers)
    (hWaiting : thread.IsWaiting number) (hPends : handling number = .pends) : .interrupt ∈
      (numbers.foldl (handleLine handling) thread).messageQueue := by
  induction numbers generalizing thread with
  | nil => exact absurd hMem List.not_mem_nil
  | cons first numbers ih =>
    obtain ⟨hHere, hRest⟩ := List.nodup_cons.mp hNodup
    rw [List.foldl_cons]
    by_cases hFirst : thread.IsWaiting first ∧ handling first = .pends
    · refine mem_foldl_handleLine ?_
      rw [handleLine, if_pos hFirst.1, hFirst.2]
      exact interrupt_mem_pendIRQ hFirst.1
    · have hReturns (h : thread.IsWaiting first) : handling first = .returns := by
        cases hKind : handling first with
        | returns => rfl
        | pends => exact absurd ⟨h, hKind⟩ hFirst
      have hOther : number ≠ first := fun hSame => hFirst ⟨hSame ▸ hWaiting, hSame ▸ hPends⟩
      refine ih hRest ((List.mem_cons.mp hMem).resolve_left hOther) ?_
      rwa [IsWaiting, isWaiting_handleLine hReturns hOther]

/-- Handlers that leave the thread alone: the waiting lines are acknowledged. -/
theorem foldl_handleLine (hNodup : numbers.Nodup)
    (hReturns : ∀ number ∈ numbers, thread.IsWaiting number → handling number = .returns) :
    let after := numbers.foldl (handleLine handling) thread
    after.messageQueue = thread.messageQueue ∧ ∀ other, after.irqLines other =
      if other ∈ numbers ∧ thread.IsWaiting other then (thread.irqLines other).acknowledge
      else thread.irqLines other := by
  induction numbers generalizing thread with
  | nil => exact ⟨rfl, fun other => (if_neg fun h => absurd h.1 List.not_mem_nil).symm⟩
  | cons first numbers ih =>
    obtain ⟨hHere, hRest⟩ := List.nodup_cons.mp hNodup
    have hFirst := hReturns first List.mem_cons_self
    have hSame {other : Fin n} (hOther : other ≠ first) := isWaiting_handleLine hFirst hOther
    have hTail : ∀ number ∈ numbers, (thread.handleLine handling first).IsWaiting number →
        handling number = .returns := by
      intro number hMem hWaiting
      rw [IsWaiting, hSame fun hEq => hHere (hEq ▸ hMem)] at hWaiting
      exact hReturns number (List.mem_cons_of_mem _ hMem) hWaiting
    obtain ⟨hQueue, hLines⟩ := ih hRest hTail
    refine ⟨hQueue.trans ?_, fun other => (hLines other).trans ?_⟩
    · rw [handleLine_of_returns hFirst]
      split <;> rfl
    · by_cases hOther : other = first
      · subst hOther
        rw [if_neg fun h => hHere h.1, handleLine_of_returns hFirst]
        by_cases hWaiting : thread.IsWaiting other
        · rw [if_pos hWaiting, if_pos ⟨List.mem_cons_self, hWaiting⟩]
          exact Function.update_self ..
        · rw [if_neg hWaiting, if_neg fun h => hWaiting h.2]
      · simp only [IsWaiting, hSame hOther, List.mem_cons, hOther, false_or]

end Handling

/-- A line is waiting after `HandleIRQ` if it is asserted but the thread was not told of that. -/
theorem isWaiting_handleIRQ {handling : Fin n → InterruptHandling}
    (hReturns : ∀ number, thread.IsWaiting number → handling number = .returns) {number : Fin n} :
    (thread.handleIRQ handling).IsWaiting number ↔ (thread.irqLines number).asserted = true ∧
        ¬ ((thread.irqLines number).state = .raised ∨ (thread.irqLines number).state = .acknowledged) := by
  have hLine := (foldl_handleLine (List.nodup_finRange n) fun number _ => hReturns number).2 number
  simp only [List.mem_finRange, true_and] at hLine
  rw [IsWaiting, handleIRQ, hLine]
  split
  · rw [CPUIRQLine.acknowledge_asserted, ← CPUIRQLine.isAcknowledged_acknowledge, Bool.not_eq_true]
  · rename_i hNot
    refine ⟨fun hWaiting => absurd hWaiting hNot, ?_⟩
    rintro ⟨hAsserted, hUntold⟩
    refine absurd ⟨hAsserted, ?_⟩ hNot
    rw [not_or] at hUntold
    exact decide_eq_false hUntold.2

/-- Every line that the thread was told of is asserted. -/
def Tracks (thread : ThreadInstance n) : Prop := ∀ number, (thread.irqLines number).IsTracked

theorem tracks_pendIRQ (hTracks : thread.Tracks) : thread.pendIRQ.Tracks := by
  unfold pendIRQ
  split
  · exact fun number => CPUIRQLine.isTracked_raise (hTracks number)
  · exact hTracks

theorem tracks_handleIRQ (hTracks : thread.Tracks) (handling : Fin n → InterruptHandling) :
    (thread.handleIRQ handling).Tracks := by
  refine List.foldlRecOn (List.finRange n) _ hTracks fun thread hTracks number _ => ?_
  have hHandled : (thread.handleInterrupt (handling number)).Tracks := by
    cases handling number with
    | returns => exact hTracks
    | pends => exact tracks_pendIRQ hTracks
  unfold handleLine
  split
  · intro other
    dsimp only [setLine]
    rw [Function.update_apply]
    split
    · exact CPUIRQLine.isTracked_acknowledge (hHandled number)
    · exact hHandled other
  · exact hTracks

theorem tracks_call (hTracks : thread.Tracks) (c : Call n) : (thread.call c).Tracks := by
  cases c with
  | assert number =>
    intro other
    change ((thread.assertLine number).irqLines other).IsTracked
    rw [irqLines_assertLine, Function.update_apply]
    split
    · exact CPUIRQLine.isTracked_assert
    · exact hTracks other
  | rescind number =>
    intro other
    change ((thread.rescindLine number).irqLines other).IsTracked
    rw [irqLines_rescindLine, Function.update_apply]
    split
    · exact CPUIRQLine.isTracked_rescind
    · exact hTracks other
  | handleMessage handling =>
    change (thread.handleMessage handling).Tracks
    unfold handleMessage
    split
    · exact hTracks
    · exact hTracks
    · exact hTracks
    · rename_i rest hQueue
      have hPopped : { thread with messageQueue := rest }.Tracks := hTracks
      exact tracks_handleIRQ hPopped handling
  | pendIRQ => exact tracks_pendIRQ hTracks
  | sendMessage message => exact hTracks

theorem noticed_assertLine (hTracks : thread.Tracks) (hNoticed : thread.Noticed) (number : Fin n) :
    (thread.assertLine number).Noticed ↔
      ((thread.irqLines number).state = .rescinded → .interrupt ∈ thread.messageQueue) := by
  have hOther {other : Fin n} (hNe : other ≠ number) (hWaiting : (thread.assertLine number).IsWaiting other) :
      .interrupt ∈ thread.messageQueue := by
    rw [IsWaiting, irqLines_assertLine, Function.update_of_ne hNe] at hWaiting
    exact hNoticed other hWaiting
  have hSelf : (thread.assertLine number).IsWaiting number ↔
      (thread.irqLines number).assert.1.isAcknowledged = false := by
    rw [IsWaiting, irqLines_assertLine, Function.update_self, CPUIRQLine.assert_asserted]
    exact and_iff_right rfl
  constructor
  · intro hAfter hState
    have hMem := hAfter number (hSelf.mpr (by simp [CPUIRQLine.assert, hState, CPUIRQLine.isAcknowledged]))
    rwa [messageQueue_assertLine, if_neg (by simp [CPUIRQLine.assert, hState])] at hMem
  · intro hQueued other hWaiting
    rw [messageQueue_assertLine]
    split
    · simp
    · rename_i hUntold
      by_cases hNe : other = number
      · -- the line is raised, and then it was waiting before, or it was rescinded
        cases hState : (thread.irqLines number).state with
        | idle => simp [CPUIRQLine.assert, hState] at hUntold
        | acknowledged => simp [CPUIRQLine.assert, hState] at hUntold
        | raised =>
          refine hNoticed number ⟨hTracks number (.inl hState), ?_⟩
          simp [CPUIRQLine.isAcknowledged, hState]
        | rescinded => exact hQueued hState
      · exact hOther hNe hWaiting

theorem noticed_rescindLine (hNoticed : thread.Noticed) (number : Fin n) : (thread.rescindLine number).Noticed := by
  intro other hWaiting
  rw [messageQueue_rescindLine]
  rw [IsWaiting, irqLines_rescindLine, Function.update_apply] at hWaiting
  split at hWaiting
  · rw [CPUIRQLine.rescind_asserted] at hWaiting
    cases hWaiting.1
  · exact hNoticed other hWaiting

theorem noticed_handleIRQ {handling : Fin n → InterruptHandling} : (thread.handleIRQ handling).Noticed ↔
    (.interrupt ∉ thread.messageQueue → (∀ number, thread.IsWaiting number → handling number = .returns) →
      ∀ number, (thread.irqLines number).asserted = true →
        (thread.irqLines number).state = .raised ∨ (thread.irqLines number).state = .acknowledged) := by
  constructor
  · intro hAfter hLast hReturns number hAsserted
    by_contra hUntold
    have hMem := hAfter number ((isWaiting_handleIRQ hReturns).mpr ⟨hAsserted, hUntold⟩)
    rw [handleIRQ, (foldl_handleLine (List.nodup_finRange n) fun number _ => hReturns number).1] at hMem
    exact hLast hMem
  · intro hHeeds number hWaiting
    by_contra hLast
    have hReturns (other : Fin n) (hOther : thread.IsWaiting other) : handling other = .returns := by
      cases hKind : handling other with
      | returns => rfl
      | pends =>
        have hMem := interrupt_mem_of_pends (List.nodup_finRange n) (List.mem_finRange other) hOther hKind
        exact absurd hMem hLast
    obtain ⟨hAsserted, hUntold⟩ := (isWaiting_handleIRQ hReturns).mp hWaiting
    exact hUntold (hHeeds (fun hMem => hLast (mem_foldl_handleLine hMem)) hReturns number hAsserted)

theorem noticed_handleMessage (hNoticed : thread.Noticed) (handling : Fin n → InterruptHandling) :
    (thread.handleMessage handling).Noticed ↔ thread.Heeds (.handleMessage handling) := by
  -- a message of another kind is not the one that the lines wait for
  have hOther {message : ThreadMessage} {rest : List ThreadMessage} (hQueue : thread.messageQueue = message :: rest)
      (hKind : message ≠ .interrupt) : { thread with messageQueue := rest }.Noticed ↔
        thread.Heeds (.handleMessage handling) := by
    refine iff_of_true (fun number hWaiting => ?_) fun rest hSame => ?_
    · have hMem := hNoticed number hWaiting
      rw [hQueue] at hMem
      exact (List.mem_cons.mp hMem).resolve_left hKind.symm
    · rw [hQueue, List.cons.injEq] at hSame
      exact absurd hSame.1 hKind
  unfold handleMessage
  split
  · rename_i hEmpty
    refine iff_of_true hNoticed fun rest hQueue => ?_
    rw [hEmpty] at hQueue
    cases hQueue
  · rename_i rest hQueue
    exact hOther hQueue (by decide)
  · rename_i rest hQueue
    exact hOther hQueue (by decide)
  · rename_i rest hQueue
    rw [noticed_handleIRQ]
    constructor
    · intro hHeeds rest' hRest
      rw [hQueue, List.cons.injEq] at hRest
      exact hRest.2 ▸ hHeeds
    · exact fun hHeeds => hHeeds rest hQueue

theorem noticed_pendIRQ (hNoticed : thread.Noticed) : thread.pendIRQ.Noticed := by
  unfold pendIRQ
  split
  · intro number _
    change _ ∈ thread.messageQueue ++ [.interrupt]
    simp
  · exact hNoticed

theorem noticed_call (hTracks : thread.Tracks) (hNoticed : thread.Noticed) (c : Call n) :
    (thread.call c).Noticed ↔ thread.Heeds c := by
  cases c with
  | assert number => exact noticed_assertLine hTracks hNoticed number
  | rescind number => exact iff_of_true (noticed_rescindLine hNoticed number) trivial
  | handleMessage handling => exact noticed_handleMessage hNoticed handling
  | pendIRQ => exact iff_of_true (noticed_pendIRQ hNoticed) trivial
  | sendMessage message =>
    refine iff_of_true (fun number hWaiting => ?_) trivial
    exact List.mem_append_left _ (hNoticed number hWaiting)

/-- After every call there is a message for the lines that wait exactly if every call heeds the lines
that were rescinded before they were acknowledged, whatever `HandleInterrupt` does each time. -/
theorem noticed_throughout_iff (calls : List (Call n)) :
    Throughout call (fun thread c => (thread.call c).Noticed) new calls ↔ Throughout call Heeds new calls := by
  refine throughout_congr (fun thread => thread.Tracks ∧ thread.Noticed) ?_ ?_ ⟨?_, ?_⟩ calls
  · exact fun thread c hInvariant => noticed_call hInvariant.1 hInvariant.2 c
  · exact fun thread c hInvariant hNoticed => ⟨tracks_call hInvariant.1 c, hNoticed⟩
  · rintro number (hState | hState) <;> cases hState
  · rintro number ⟨hAsserted, -⟩
    cases hAsserted

/-- A line is asserted and rescinded, the thread handles the message, and the line is asserted again. -/
def pulseHandled : List (Call 1) := [.assert 0, .rescind 0, .handleMessage fun _ => .returns, .assert 0]

theorem second_interrupt_lost :
    ¬ Throughout call (fun thread c => (thread.call c).Noticed) new pulseHandled ∧
      (pulseHandled.foldl call new).IsWaiting 0 ∧ (pulseHandled.foldl call new).messageQueue = [] := by
  decide

end ThreadInstance

end Gensim.Devices
