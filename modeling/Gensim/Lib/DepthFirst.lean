import Mathlib.Data.Finset.Card
import Mathlib.Logic.Relation
import Mathlib.Tactic

/-! Depth-first search for a cycle. The vertices on the current path are kept apart from the others
that were visited: an edge to one of them closes a cycle. -/
namespace DepthFirst

open Relation

variable {α : Type*} [DecidableEq α]

structure State (α : Type*) where
  visited : Finset α
  stack : Finset α

/-- Go through the successors until one of them closes a cycle or leads to one. -/
def follow (visit : α → State α → Option (Bool × State α)) :
    List α → State α → Option (Bool × State α)
  | [], s => some (false, s)
  | c :: rest, s =>
      if c ∈ s.visited then if c ∈ s.stack then some (true, s) else follow visit rest s
      else (visit c s).bind fun r => if r.1 then some r else follow visit rest r.2

/-- Search from a vertex that was not visited, to a depth of at most `n`. -/
def visit (successors : α → List α) : Nat → α → State α → Option (Bool × State α)
  | 0, _, _ => none
  | n + 1, b, s =>
      (follow (visit successors n) (successors b) ⟨insert b s.visited, insert b s.stack⟩).map fun r =>
        if r.1 then r else (false, { r.2 with stack := r.2.stack.erase b })

variable {successors : α → List α} {vertices : Finset α}

def Edge (successors : α → List α) (b c : α) : Prop := c ∈ successors b

def LeadsToCycle (successors : α → List α) (b : α) : Prop :=
  ∃ c, ReflTransGen (Edge successors) b c ∧ TransGen (Edge successors) c c

/-- A search that ends without a cycle has taken its vertex off the path again. -/
theorem notMem_stack_of_visit {n : Nat} {b : α} {s t : State α}
    (h : visit successors n b s = some (false, t)) : b ∉ t.stack := by
  cases n with
  | zero => exact nomatch h
  | succ n =>
    rw [visit] at h
    obtain ⟨⟨found, u⟩, -, hLeave⟩ := Option.map_eq_some_iff.mp h
    cases found with
    | true => exact nomatch hLeave
    | false =>
      cases hLeave
      exact Finset.notMem_erase b _

/-- The vertices that the search is done with lead to each other only, and not back. -/
structure Sound (successors : α → List α) (s : State α) : Prop where
  stack_subset : s.stack ⊆ s.visited
  closed : ∀ x ∈ s.visited, x ∉ s.stack → ∀ y ∈ successors x, y ∈ s.visited ∧ y ∉ s.stack
  acyclic : ∀ x ∈ s.visited, x ∉ s.stack → ¬ TransGen (Edge successors) x x

/-- What a search leaves when it found no cycle. -/
structure Passed (successors : α → List α) (s s' : State α) : Prop where
  sound : Sound successors s'
  stack_eq : s'.stack = s.stack
  grows : s.visited ⊆ s'.visited

omit [DecidableEq α] in
theorem Sound.closed_path {s : State α} (h : Sound successors s) {x y : α} (hx : x ∈ s.visited)
    (hStack : x ∉ s.stack) (hPath : ReflTransGen (Edge successors) x y) : y ∈ s.visited ∧ y ∉ s.stack := by
  induction hPath with
  | refl => exact ⟨hx, hStack⟩
  | tail _ hEdge ih => exact h.closed _ ih.1 ih.2 _ hEdge

omit [DecidableEq α] in
theorem Passed.trans {s t u : State α} (h : Passed successors s t) (h' : Passed successors t u) :
    Passed successors s u :=
  ⟨h'.sound, h'.stack_eq.trans h.stack_eq, h.grows.trans h'.grows⟩

theorem sound_enter {s : State α} (h : Sound successors s) {b : α} (hNew : b ∉ s.visited) :
    Sound successors ⟨insert b s.visited, insert b s.stack⟩ := by
  have hOld : ∀ x, x ∈ insert b s.visited → x ∉ insert b s.stack → x ∈ s.visited ∧ x ∉ s.stack := by
    intro x hx hStack
    rw [Finset.mem_insert, not_or] at hStack
    exact ⟨(Finset.mem_insert.mp hx).resolve_left hStack.1, hStack.2⟩
  refine ⟨Finset.insert_subset_insert b h.stack_subset, fun x hx hStack y hy => ?_, fun x hx hStack => ?_⟩
  · obtain ⟨hVisited, hDone⟩ := hOld x hx hStack
    obtain ⟨hTarget, hFree⟩ := h.closed x hVisited hDone y hy
    refine ⟨Finset.mem_insert_of_mem hTarget, ?_⟩
    rw [Finset.mem_insert, not_or]
    exact ⟨fun hSame => hNew (hSame ▸ hTarget), hFree⟩
  · exact h.acyclic x (hOld x hx hStack).1 (hOld x hx hStack).2

/-- When all successors are done with, so is the vertex. -/
theorem sound_leave {s : State α} (h : Sound successors s) {b : α} (hStack : b ∈ s.stack)
    (hDone : ∀ c ∈ successors b, c ∈ s.visited ∧ c ∉ s.stack) :
    Sound successors { s with stack := s.stack.erase b } := by
  have hCases : ∀ x, x ∉ s.stack.erase b → x = b ∨ x ∉ s.stack := by
    intro x hx
    rw [Finset.mem_erase, not_and_or, not_ne_iff] at hx
    exact hx
  refine ⟨(Finset.erase_subset b _).trans h.stack_subset, fun x hx hLeft y hy => ?_, fun x hx hLeft => ?_⟩
  · have hTarget : y ∈ s.visited ∧ y ∉ s.stack := by
      rcases hCases x hLeft with rfl | hFree
      · exact hDone y hy
      · exact h.closed x hx hFree y hy
    exact ⟨hTarget.1, fun hErased => hTarget.2 (Finset.mem_of_mem_erase hErased)⟩
  · rcases hCases x hLeft with rfl | hFree
    · intro hCycle
      obtain ⟨c, hEdge, hPath⟩ := TransGen.head'_iff.mp hCycle
      exact (h.closed_path (hDone c hEdge).1 (hDone c hEdge).2 hPath).2 hStack
    · exact h.acyclic x hx hFree

/-- The answer of a search from `b`. -/
structure Answers (successors : α → List α) (b : α) (s : State α) (r : Bool × State α) : Prop where
  grows : s.visited ⊆ r.2.visited
  cycle : r.1 = true → LeadsToCycle successors b
  passed : r.1 = false → Passed successors s r.2

section Search

variable (hClosed : ∀ x ∈ vertices, ∀ y ∈ successors x, y ∈ vertices)

theorem follow_spec {search : α → State α → Option (Bool × State α)} {n : Nat} {b : α}
    (hSearch : ∀ c t, Sound successors t → c ∉ t.visited → c ∈ vertices →
      (∀ x ∈ t.stack, ReflTransGen (Edge successors) x c) → (vertices \ t.visited).card ≤ n →
      ∃ r, search c t = some r ∧ Answers successors c t r ∧ c ∈ r.2.visited)
    {cs : List α} (hcs : ∀ c ∈ cs, c ∈ successors b ∧ c ∈ vertices) {s : State α} (h : Sound successors s)
    (hStack : ∀ x ∈ s.stack, ReflTransGen (Edge successors) x b) (hRoom : (vertices \ s.visited).card ≤ n) :
    ∃ r, follow search cs s = some r ∧ Answers successors b s r ∧
      (r.1 = false → ∀ c ∈ cs, c ∈ r.2.visited ∧ c ∉ r.2.stack) := by
  induction cs generalizing s with
  | nil => exact ⟨_, rfl, ⟨subset_rfl, nofun, fun _ => ⟨h, rfl, subset_rfl⟩⟩, nofun⟩
  | cons c rest ih =>
    have hRest : ∀ d ∈ rest, d ∈ successors b ∧ d ∈ vertices := fun d hd => hcs d (List.mem_cons_of_mem _ hd)
    obtain ⟨hEdge, hVertex⟩ := hcs c List.mem_cons_self
    have hTail : ∀ t, Passed successors s t → c ∈ t.visited → c ∉ t.stack →
        ∃ r, follow search rest t = some r ∧ Answers successors b s r ∧
          (r.1 = false → ∀ d ∈ c :: rest, d ∈ r.2.visited ∧ d ∉ r.2.stack) := by
      intro t hPassed hVisited hFree
      have hLess := Finset.card_le_card (Finset.sdiff_subset_sdiff (subset_refl vertices) hPassed.grows)
      obtain ⟨r, hFollow, hAnswers, hDone⟩ := ih hRest hPassed.sound (hPassed.stack_eq ▸ hStack) (hLess.trans hRoom)
      refine ⟨r, hFollow, ⟨hPassed.grows.trans hAnswers.grows, hAnswers.cycle,
        fun hNone => hPassed.trans (hAnswers.passed hNone)⟩, fun hNone d hd => ?_⟩
      rcases List.mem_cons.mp hd with rfl | hd
      · exact ⟨hAnswers.grows hVisited, (hAnswers.passed hNone).stack_eq ▸ hFree⟩
      · exact hDone hNone d hd
    rw [follow]
    by_cases hVisited : c ∈ s.visited
    · rw [if_pos hVisited]
      by_cases hOn : c ∈ s.stack
      · rw [if_pos hOn]
        have hCycle : TransGen (Edge successors) c c := TransGen.tail' (hStack c hOn) hEdge
        exact ⟨_, rfl, ⟨subset_rfl, fun _ => ⟨c, .single hEdge, hCycle⟩, nofun⟩, nofun⟩
      · rw [if_neg hOn]
        exact hTail s ⟨h, rfl, subset_rfl⟩ hVisited hOn
    · rw [if_neg hVisited]
      obtain ⟨⟨found, t⟩, hFound, hAnswers, hHere⟩ :=
        hSearch c s h hVisited hVertex (fun x hx => (hStack x hx).tail hEdge) hRoom
      rw [hFound, Option.bind_some]
      cases found with
      | true =>
        obtain ⟨d, hPath, hCycle⟩ := hAnswers.cycle rfl
        exact ⟨_, rfl, ⟨hAnswers.grows, fun _ => ⟨d, hPath.head hEdge, hCycle⟩, nofun⟩, nofun⟩
      | false =>
        have hPassed := hAnswers.passed rfl
        refine hTail t hPassed hHere fun hOn => hVisited (h.stack_subset ?_)
        rwa [hPassed.stack_eq] at hOn

include hClosed in
theorem visit_spec {n : Nat} {b : α} {s : State α} (h : Sound successors s) (hNew : b ∉ s.visited)
    (hVertex : b ∈ vertices) (hStack : ∀ x ∈ s.stack, ReflTransGen (Edge successors) x b)
    (hRoom : (vertices \ s.visited).card ≤ n) :
    ∃ r, visit successors n b s = some r ∧ Answers successors b s r ∧ b ∈ r.2.visited := by
  induction n generalizing b s with
  | zero =>
    have hEmpty := Finset.card_eq_zero.mp (Nat.le_zero.mp hRoom)
    have hMem := Finset.mem_sdiff.mpr ⟨hVertex, hNew⟩
    rw [hEmpty] at hMem
    exact absurd hMem (Finset.notMem_empty b)
  | succ n ih =>
    have hLess : (vertices \ insert b s.visited).card ≤ n := by
      rw [Finset.sdiff_insert, Finset.card_erase_of_mem (Finset.mem_sdiff.mpr ⟨hVertex, hNew⟩)]
      omega
    have hReach : ∀ x ∈ insert b s.stack, ReflTransGen (Edge successors) x b := by
      intro x hx
      rcases Finset.mem_insert.mp hx with rfl | hx
      · exact .refl
      · exact hStack x hx
    obtain ⟨⟨found, t⟩, hFollow, hAnswers, hDone⟩ := follow_spec (fun c t ht hc hv hr hm => ih ht hc hv hr hm)
        (fun c hc => ⟨hc, hClosed b hVertex c hc⟩) (sound_enter h hNew) hReach hLess
    have hHere : b ∈ t.visited := hAnswers.grows (Finset.mem_insert_self b _)
    have hGrows : s.visited ⊆ t.visited := (Finset.subset_insert b _).trans hAnswers.grows
    rw [visit, hFollow, Option.map_some]
    cases found with
    | true => exact ⟨_, rfl, ⟨hGrows, fun _ => hAnswers.cycle rfl, nofun⟩, hHere⟩
    | false =>
      have hPassed := hAnswers.passed rfl
      have hStackEq : t.stack = insert b s.stack := hPassed.stack_eq
      have hFree : b ∉ s.stack := fun hOn => hNew (h.stack_subset hOn)
      refine ⟨_, rfl, ⟨hGrows, nofun, fun _ => ⟨?_, ?_, hGrows⟩⟩, hHere⟩
      · exact sound_leave hPassed.sound (hStackEq ▸ Finset.mem_insert_self b _) (hDone rfl)
      · exact (congrArg (Finset.erase · b) hStackEq).trans (Finset.erase_insert hFree)

include hClosed in
/-- The search from an entry ends, and finds a cycle exactly if the entry leads to one. -/
theorem search_spec {entry : α} (hEntry : entry ∈ vertices) {n : Nat} (hRoom : vertices.card ≤ n) :
    ∃ r, visit successors n entry ⟨∅, ∅⟩ = some r ∧ (r.1 = true ↔ LeadsToCycle successors entry) := by
  have hStart : Sound successors ⟨∅, ∅⟩ := ⟨subset_rfl, nofun, nofun⟩
  obtain ⟨⟨found, t⟩, hVisit, hAnswers, hHere⟩ :=
    visit_spec hClosed hStart (Finset.notMem_empty entry) hEntry nofun (by simpa using hRoom)
  refine ⟨_, hVisit, hAnswers.cycle, ?_⟩
  rintro ⟨c, hPath, hCycle⟩
  cases found with
  | true => rfl
  | false =>
    have hPassed := hAnswers.passed rfl
    have hEmpty : t.stack = ∅ := hPassed.stack_eq
    have hFree (x : α) : x ∉ t.stack := hEmpty ▸ Finset.notMem_empty x
    exact absurd hCycle (hPassed.sound.acyclic c (hPassed.sound.closed_path hHere (hFree entry) hPath).1 (hFree c))

end Search

end DepthFirst
