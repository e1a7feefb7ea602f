import Gensim.Lib.Operations
import Gensim.Lib.SortedMap

/-! The singly linked list, whose nodes delete the ones behind them. -/
namespace Gensim.Util

open Operations

structure WListNode (α : Type) where
  data : α
  next : Option Nat

/-- The nodes that are allocated are known by their addresses. -/
structure WList (α : Type) where
  heap : SortedMap Nat (WListNode α)
  head : Option Nat

namespace WList

variable {α : Type} (list : WList α)

def new : WList α := ⟨.empty, none⟩

/-- `delete` of a node, which deletes the next one before its memory is freed. There is no result where a node is not
allocated. -/
def delete : Nat → SortedMap Nat (WListNode α) → Option Nat → Option (SortedMap Nat (WListNode α))
  | _, heap, none => some heap
  | 0, _, some _ => none
  | steps + 1, heap, some node => do
      let found ← heap.find? node
      let rest ← delete steps heap found.next
      return rest.erase node

/-- The new node is put at an address. -/
def pushFront (address : Nat) (t : α) : WList α := ⟨list.heap.insert address ⟨t, list.head⟩, some address⟩

def popFront : Option (WList α) := do
  let oldHead ← list.head
  let node ← list.heap.find? oldHead
  let heap ← delete list.heap.entries.length list.heap (some oldHead)
  return ⟨heap, node.next⟩

def front : Option α := do
  let node ← list.heap.find? (← list.head)
  return node.data

/-- The nodes that the loops go over, for at most so many of them. -/
def nodes (heap : SortedMap Nat (WListNode α)) : Nat → Option Nat → Option (List (WListNode α))
  | _, none => some []
  | 0, some _ => none
  | steps + 1, some node => do
      let found ← heap.find? node
      let rest ← nodes heap steps found.next
      return found :: rest

def iteration (steps : Nat) : Option (List α) := (nodes list.heap steps list.head).map (·.map (·.data))

def size (steps : Nat) : Option Nat := (nodes list.heap steps list.head).map (·.length)

/-- What the list shows is what a reference list shows, and no node that it reads was freed. -/
structure Behaves (reference : List α) : Prop where
  iteration : ∃ steps, list.iteration steps = some reference
  size : ∃ steps, list.size steps = some reference.length
  front : list.front = reference.head?

/-- From an address on there are the nodes of these elements. -/
def Holds (heap : SortedMap Nat (WListNode α)) : Option Nat → List α → Prop
  | start, [] => start = none
  | start, x :: rest => ∃ address next, start = some address ∧ (address, ⟨x, next⟩) ∈ heap ∧ Holds heap next rest

variable {list} {heap : SortedMap Nat (WListNode α)} {start : Option Nat} {reference : List α}

theorem Holds.insert (hHolds : Holds heap start reference) {address : Nat} (hFresh : heap.find? address = none)
    (node : WListNode α) : Holds (heap.insert address node) start reference := by
  induction reference generalizing start with
  | nil => exact hHolds
  | cons x rest ih =>
    obtain ⟨found, next, hStart, hMem, hRest⟩ := hHolds
    have hOther : found ≠ address := SortedMap.find?_eq_none.mp hFresh _ hMem
    exact ⟨found, next, hStart, SortedMap.mem_insert.mpr (.inr ⟨hOther, hMem⟩), ih hRest⟩

theorem Holds.nodes (hHolds : Holds heap start reference) :
    ∃ found, WList.nodes heap reference.length start = some found ∧ found.map (·.data) = reference := by
  induction reference generalizing start with
  | nil =>
    cases hHolds
    exact ⟨[], rfl, rfl⟩
  | cons x rest ih =>
    obtain ⟨address, next, rfl, hMem, hRest⟩ := hHolds
    obtain ⟨found, hFound, hData⟩ := ih hRest
    refine ⟨⟨x, next⟩ :: found, ?_, by rw [List.map_cons, hData]⟩
    simp [WList.nodes, SortedMap.find?_of_mem hMem, hFound]

theorem behaves_of_holds (hHolds : Holds list.heap list.head reference) : list.Behaves reference := by
  obtain ⟨found, hFound, hData⟩ := hHolds.nodes
  refine ⟨⟨_, by rw [iteration, hFound, Option.map_some, hData]⟩, ⟨reference.length, ?_⟩, ?_⟩
  · rw [size, hFound, Option.map_some, ← hData, List.length_map]
  · cases reference with
    | nil => simp [front, show list.head = none from hHolds]
    | cons x rest =>
      obtain ⟨address, next, hHead, hMem, -⟩ := hHolds
      simp [front, hHead, SortedMap.find?_of_mem hMem]

/-- The last node can be popped. -/
theorem popFront_single {x : α} (hHolds : Holds list.heap list.head [x]) :
    ∃ after, list.popFront = some after ∧ Holds after.heap after.head [] := by
  obtain ⟨address, next, hHead, hMem, rfl⟩ := hHolds
  obtain ⟨steps, hSteps⟩ := Nat.exists_eq_succ_of_ne_zero (List.length_pos_iff.mpr (List.ne_nil_of_mem hMem)).ne'
  refine ⟨⟨list.heap.erase address, none⟩, ?_, rfl⟩
  simp [popFront, hHead, SortedMap.find?_of_mem hMem, hSteps, delete]

theorem find?_of_delete {steps : Nat} {node : Nat} {after : SortedMap Nat (WListNode α)}
    (hDelete : delete steps heap (some node) = some after) : after.find? node = none := by
  cases steps with
  | zero => cases hDelete
  | succ steps =>
    simp only [delete, Option.bind_eq_bind, Option.bind_eq_some_iff] at hDelete
    obtain ⟨found, -, rest, -, hAfter⟩ := hDelete
    obtain rfl := Option.some.inj hAfter
    exact SortedMap.find?_eq_none.mpr fun entry hMem => (SortedMap.mem_erase.mp hMem).1

/-- With a node that is popped, the next one is freed. -/
theorem not_behaves_popFront {x y : α} {rest : List α} (hHolds : Holds list.heap list.head (x :: y :: rest))
    {after : WList α} (hPop : list.popFront = some after) : ¬ after.Behaves (y :: rest) := by
  obtain ⟨address, _, hHead, hMem, second, _, rfl, -⟩ := hHolds
  simp only [popFront, hHead, SortedMap.find?_of_mem hMem, Option.bind_eq_bind, Option.bind_some,
    Option.bind_eq_some_iff] at hPop
  obtain ⟨heap, hDelete, hAfter⟩ := hPop
  obtain rfl := Option.some.inj hAfter
  have hFreed : heap.find? second = none := by
    cases hSteps : list.heap.entries.length with
    | zero =>
      rw [hSteps] at hDelete
      cases hDelete
    | succ steps =>
      rw [hSteps] at hDelete
      simp only [delete, SortedMap.find?_of_mem hMem, Option.bind_eq_bind, Option.bind_some,
        Option.bind_eq_some_iff] at hDelete
      obtain ⟨middle, hNext, hLast⟩ := hDelete
      obtain rfl := Option.some.inj hLast
      refine SortedMap.find?_eq_none.mpr fun entry hIn => ?_
      exact SortedMap.find?_eq_none.mp (find?_of_delete hNext) entry (SortedMap.mem_erase.mp hIn).2
  intro hBehaves
  have hFront := hBehaves.front
  simp [front, hFreed] at hFront

end WList

inductive WListOperation (α : Type) where
  | pushFront (address : Nat) (t : α)
  | popFront

/-- A list, while its calls are defined, and a reference list that is driven by the same calls. -/
structure WLists (α : Type) where
  list : Option (WList α)
  reference : List α

namespace WLists

variable {α : Type} (s : WLists α)

def new : WLists α := ⟨some .new, []⟩

def next (s : WLists α) : WListOperation α → WLists α
  | .pushFront address t => ⟨s.list.map (·.pushFront address t), t :: s.reference⟩
  | .popFront => ⟨s.list.bind (·.popFront), s.reference.tail⟩

/-- Nodes are allocated where there are none, and there is something to pop. -/
def Valid : WListOperation α → Prop
  | .pushFront address _ => ∀ list ∈ s.list, list.heap.find? address = none
  | .popFront => s.reference ≠ []

def Behaves : Prop := ∃ list, s.list = some list ∧ list.Behaves s.reference

/-- A node is only popped when it is the last. -/
def Tame : WListOperation α → Prop
  | .pushFront _ _ => True
  | .popFront => s.reference.length = 1

def Holds : Prop := ∃ list, s.list = some list ∧ WList.Holds list.heap list.head s.reference

variable {s}

theorem holds_next (hHolds : s.Holds) {op : WListOperation α} (hValid : s.Valid op) (hTame : s.Tame op) :
    (s.next op).Holds := by
  obtain ⟨list, hList, hNodes⟩ := hHolds
  cases op with
  | pushFront address t =>
    refine ⟨list.pushFront address t, by rw [next, hList, Option.map_some], address, list.head, rfl, ?_, ?_⟩
    · exact SortedMap.mem_insert.mpr (.inl rfl)
    · exact hNodes.insert (hValid list hList) _
  | popFront =>
    obtain ⟨x, hOne⟩ := List.length_eq_one_iff.mp hTame
    rw [hOne] at hNodes
    obtain ⟨after, hPop, hAfter⟩ := WList.popFront_single hNodes
    exact ⟨after, by rw [next, hList, Option.bind_some, hPop], by simpa [next, hOne] using hAfter⟩

theorem behaves_next_iff (hHolds : s.Holds) {op : WListOperation α} (hValid : s.Valid op) :
    (s.next op).Behaves ↔ s.Tame op := by
  constructor
  · obtain ⟨list, hList, hNodes⟩ := hHolds
    rintro ⟨after, hAfter, hBehaves⟩
    cases op with
    | pushFront address t => trivial
    | popFront =>
      rw [next, hList, Option.bind_some] at hAfter
      cases hReference : s.reference with
      | nil => exact absurd hReference hValid
      | cons x tail =>
        cases tail with
        | nil => simp [Tame, hReference]
        | cons y rest =>
          rw [hReference] at hNodes
          refine absurd ?_ (WList.not_behaves_popFront hNodes hAfter)
          simpa [next, hReference] using hBehaves
  · intro hTame
    obtain ⟨list, hList, hNodes⟩ := holds_next hHolds hValid hTame
    exact ⟨list, hList, WList.behaves_of_holds hNodes⟩

/-- The calls behave exactly while only the last node is popped. -/
theorem behaves_throughout_iff (ops : List (WListOperation α)) :
    Throughout next (fun s op => s.Valid op ∧ (s.next op).Behaves) new ops ↔
      Throughout next (fun s op => s.Valid op ∧ s.Tame op) new ops := by
  have hNew : (new : WLists α).Holds := ⟨.new, rfl, rfl⟩
  exact throughout_and_congr Holds (fun _ _ hHolds => behaves_next_iff hHolds) (fun _ _ hHolds => holds_next hHolds) hNew ops

end WLists
end Gensim.Util
