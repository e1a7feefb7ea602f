import Mathlib.Tactic

/-! Stacks whose elements are linked by a function, each to the one below it. -/
namespace Links

variable {α : Type*} {next : α → Option α}

/-- From `start` the links lead through all of a list, and then end. -/
def Chain (next : α → Option α) : Option α → List α → Prop
  | start, [] => start = none
  | start, a :: rest => start = some a ∧ Chain next (next a) rest

variable {start : Option α}

theorem Chain.unique {list other : List α} (hList : Chain next start list) (hOther : Chain next start other) :
    list = other := by
  induction list generalizing start other with
  | nil =>
    cases hList
    cases other with
    | nil => rfl
    | cons b other => cases hOther.1
  | cons a list ih =>
    obtain ⟨rfl, hRest⟩ := hList
    cases other with
    | nil => cases hOther
    | cons b other =>
      obtain ⟨hSame, hOther⟩ := hOther
      cases hSame
      rw [ih hRest hOther]

theorem Chain.drop {before rest : List α} {a : α} (hChain : Chain next start (before ++ a :: rest)) :
    Chain next (some a) (a :: rest) := by
  induction before generalizing start with
  | nil =>
    obtain ⟨rfl, hRest⟩ := hChain
    exact ⟨rfl, hRest⟩
  | cons b before ih => exact ih hChain.2

variable {list : List α}

/-- Links that end do not come back. -/
theorem Chain.nodup (hChain : Chain next start list) : list.Nodup := by
  induction list generalizing start with
  | nil => exact List.nodup_nil
  | cons a list ih =>
    refine List.nodup_cons.mpr ⟨fun hMem => ?_, ih hChain.2⟩
    obtain ⟨before, after, rfl⟩ := List.append_of_mem hMem
    obtain ⟨rfl, hRest⟩ := hChain
    have hLength := congrArg List.length (hRest.drop.2.unique hRest)
    simp only [List.length_append, List.length_cons] at hLength
    omega

variable [DecidableEq α]

theorem chain_update_iff {start link : Option α} {a : α} (hNot : a ∉ list) :
    Chain (Function.update next a link) start list ↔ Chain next start list := by
  induction list generalizing start with
  | nil => exact Iff.rfl
  | cons b list ih =>
    obtain ⟨hHead, hTail⟩ := not_or.mp (List.mem_cons.not.mp hNot)
    rw [Chain, Chain, Function.update_of_ne (Ne.symm hHead), ih hTail]

/-- An element is put on top. -/
theorem Chain.push (hChain : Chain next start list) {a : α} (hNew : a ∉ list) :
    Chain (Function.update next a start) (some a) (a :: list) := by
  refine ⟨rfl, ?_⟩
  rw [Function.update_self]
  exact (chain_update_iff hNew).mpr hChain

/-- An element that is there already is put on top of itself, and the links do not end. -/
theorem Chain.not_push (hChain : Chain next start list) {a : α} (hMem : a ∈ list) (other : List α) :
    ¬ Chain (Function.update next a start) (some a) other := by
  intro hOther
  obtain ⟨before, after, rfl, hFirst⟩ := List.eq_append_cons_of_mem hMem
  -- From the old top the links still lead to `a`.
  have hBack : ∀ (before : List α) (top : Option α) (rest : List α), a ∉ before →
      Chain next top (before ++ a :: after) → Chain (Function.update next a start) top rest →
      ∃ tail, rest = before ++ tail ∧ Chain (Function.update next a start) (some a) tail := by
    intro before
    induction before with
    | nil =>
      rintro top rest - ⟨rfl, -⟩ hRest
      exact ⟨rest, rfl, hRest⟩
    | cons b before ih =>
      rintro top rest hNot ⟨rfl, hOld⟩ hRest
      obtain ⟨hHead, hTail⟩ := not_or.mp (List.mem_cons.not.mp hNot)
      cases rest with
      | nil => cases hRest
      | cons c rest =>
        obtain ⟨hSame, hRest⟩ := hRest
        cases hSame
        rw [Function.update_of_ne (Ne.symm hHead)] at hRest
        obtain ⟨tail, rfl, hTop⟩ := ih _ rest hTail hOld hRest
        exact ⟨tail, rfl, hTop⟩
  cases other with
  | nil => cases hOther
  | cons b other =>
    obtain ⟨hSame, hRest⟩ := hOther
    cases hSame
    rw [Function.update_self] at hRest
    obtain ⟨tail, rfl, hTop⟩ := hBack before start other hFirst hChain hRest
    have hCycle := hTop.unique (show Chain (Function.update next a start) (some a) (a :: (before ++ tail)) from
      ⟨rfl, by rwa [Function.update_self]⟩)
    have hLength := congrArg List.length hCycle
    simp only [List.length_cons, List.length_append] at hLength
    omega

/-- An element is taken out: the one above it is linked to the one below. -/
theorem Chain.remove {before after : List α} {a b : α} (hChain : Chain next start (before ++ a :: b :: after)) :
    Chain (Function.update next a (next b)) start (before ++ a :: after) := by
  have hNodup := hChain.nodup
  induction before generalizing start with
  | nil =>
    obtain ⟨rfl, -, hAfter⟩ := hChain
    have hNot : a ∉ after := fun hMem => (List.nodup_cons.mp hNodup).1 (List.mem_cons_of_mem _ hMem)
    exact hAfter.push hNot
  | cons c before ih =>
    obtain ⟨rfl, hRest⟩ := hChain
    obtain ⟨hNew, hTail⟩ := List.nodup_cons.mp hNodup
    have hOther : c ≠ a := fun hSame => hNew (by simp [hSame])
    refine ⟨rfl, ?_⟩
    rw [Function.update_of_ne hOther]
    exact ih hRest hTail

end Links
