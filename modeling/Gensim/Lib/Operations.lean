import Mathlib.Tactic

/-! Machines driven by a list of operations, and what holds of every operation along a run. -/
namespace Operations

variable {σ ω : Type*} {step : σ → ω → σ} {P Q : σ → ω → Prop}

/-- `P` holds of every operation in the state that the operations before it lead to. -/
def Throughout (step : σ → ω → σ) (P : σ → ω → Prop) : σ → List ω → Prop
  | _, [] => True
  | s, op :: ops => P s op ∧ Throughout step P (step s op) ops

@[simp] theorem throughout_nil (s : σ) : Throughout step P s [] := trivial

@[simp] theorem throughout_cons (s : σ) (op : ω) (ops : List ω) :
    Throughout step P s (op :: ops) ↔ P s op ∧ Throughout step P (step s op) ops := Iff.rfl

instance decidableThroughout [∀ s op, Decidable (P s op)] :
    ∀ (s : σ) (ops : List ω), Decidable (Throughout step P s ops)
  | _, [] => .isTrue trivial
  | s, op :: ops =>
      have := decidableThroughout (step s op) ops
      inferInstanceAs (Decidable (P s op ∧ Throughout step P (step s op) ops))

variable {ops : List ω}

theorem throughout_of_forall (hAll : ∀ s, ∀ op ∈ ops, P s op) (s : σ) : Throughout step P s ops := by
  induction ops generalizing s with
  | nil => trivial
  | cons op ops ih =>
    exact ⟨hAll s op List.mem_cons_self, ih (fun s op hMem => hAll s op (List.mem_cons_of_mem _ hMem)) _⟩

variable {s : σ}

theorem throughout_append {before after : List ω} : Throughout step P s (before ++ after) ↔
      Throughout step P s before ∧ Throughout step P (before.foldl step s) after := by
  induction before generalizing s with
  | nil => simp
  | cons op before ih => simp only [List.cons_append, throughout_cons, ih, List.foldl_cons, and_assoc]

/-- What the operations of a run keep holds after it. -/
theorem foldl_of_throughout {invariant : σ → Prop} (hKeep : ∀ s op, invariant s → P s op → invariant (step s op))
    (hRun : Throughout step P s ops) (hStart : invariant s) : invariant (ops.foldl step s) := by
  induction ops generalizing s with
  | nil => exact hStart
  | cons op ops ih => exact ih hRun.2 (hKeep s op hStart hRun.1)

/-- Two machines that stay related while the operations meet the condition of the first, one operation
of the first for one of the second. -/
theorem throughout_simulation {τ κ : Type*} {next : τ → κ → τ} {R : τ → κ → Prop} (image : ω → κ)
    (related : σ → τ → Prop) (hAgree : ∀ s t, ∀ op ∈ ops, related s t → (P s op ↔ R t (image op)))
    (hKeep : ∀ s t, ∀ op ∈ ops, related s t → P s op → related (step s op) (next t (image op))) {t : τ}
    (hStart : related s t) : Throughout step P s ops ↔ Throughout next R t (ops.map image) := by
  induction ops generalizing s t with
  | nil => exact Iff.rfl
  | cons op ops ih =>
    rw [throughout_cons, List.map_cons, throughout_cons, ← hAgree s t op List.mem_cons_self hStart]
    refine and_congr_right fun hFirst => ih ?_ ?_ (hKeep s t op List.mem_cons_self hStart hFirst)
    · exact fun s t op hMem => hAgree s t op (List.mem_cons_of_mem _ hMem)
    · exact fun s t op hMem => hKeep s t op (List.mem_cons_of_mem _ hMem)

/-- Two conditions on the operations of a run that agree in every state an invariant admits agree on the
run, when the operations that meet them keep the invariant. -/
theorem throughout_congr_of_mem (invariant : σ → Prop) (hAgree : ∀ s, ∀ op ∈ ops, invariant s → (P s op ↔ Q s op))
    (hKeep : ∀ s, ∀ op ∈ ops, invariant s → P s op → invariant (step s op)) (hStart : invariant s) :
    Throughout step P s ops ↔ Throughout step Q s ops := by
  have hBoth : Throughout step P s ops ↔ Throughout step Q s (ops.map id) := by
    refine throughout_simulation id (fun s t => s = t ∧ invariant s) ?_ ?_ ⟨rfl, hStart⟩
    · rintro s _ op hMem ⟨rfl, hInvariant⟩
      exact hAgree s op hMem hInvariant
    · rintro s _ op hMem ⟨rfl, hInvariant⟩ hFirst
      exact ⟨rfl, hKeep s op hMem hInvariant hFirst⟩
  rwa [List.map_id] at hBoth

theorem throughout_congr (invariant : σ → Prop) (hAgree : ∀ s op, invariant s → (P s op ↔ Q s op))
    (hKeep : ∀ s op, invariant s → P s op → invariant (step s op)) (hStart : invariant s) (ops : List ω) :
    Throughout step P s ops ↔ Throughout step Q s ops :=
  throughout_congr_of_mem invariant (fun s op _ => hAgree s op) (fun s op _ => hKeep s op) hStart

/-- For valid operations it is enough that the conditions agree on them, and that the second keeps the
invariant. -/
theorem throughout_and_congr {valid : σ → ω → Prop} (invariant : σ → Prop)
    (hAgree : ∀ s op, invariant s → valid s op → (P s op ↔ Q s op))
    (hKeep : ∀ s op, invariant s → valid s op → Q s op → invariant (step s op)) (hStart : invariant s) (ops : List ω) :
    Throughout step (fun s op => valid s op ∧ P s op) s ops ↔ Throughout step (fun s op => valid s op ∧ Q s op) s ops :=
  throughout_congr invariant (fun s op hInvariant => and_congr_right (hAgree s op hInvariant))
    (fun s op hInvariant hBoth => hKeep s op hInvariant hBoth.1 ((hAgree s op hInvariant hBoth.1).mp hBoth.2)) hStart ops

/-- A machine whose operations are runs of a smaller machine. -/
theorem throughout_flatMap {κ : Type*} {small : σ → κ → σ} {R : σ → κ → Prop} (parts : ω → List κ)
    (hAgree : ∀ s, ∀ op ∈ ops, P s op ↔ Throughout small R s (parts op))
    (hStep : ∀ s, ∀ op ∈ ops, P s op → step s op = (parts op).foldl small s) :
    Throughout step P s ops ↔ Throughout small R s (ops.flatMap parts) := by
  induction ops generalizing s with
  | nil => exact Iff.rfl
  | cons op ops ih =>
    rw [throughout_cons, List.flatMap_cons, throughout_append, ← hAgree s op List.mem_cons_self]
    refine and_congr_right fun hFirst => ?_
    rw [hStep s op List.mem_cons_self hFirst]
    refine ih ?_ ?_
    · exact fun s op hMem => hAgree s op (List.mem_cons_of_mem _ hMem)
    · exact fun s op hMem => hStep s op (List.mem_cons_of_mem _ hMem)

theorem throughout_iff_split :
    Throughout step P s ops ↔ ∀ before op after, ops = before ++ op :: after → P (before.foldl step s) op := by
  constructor
  · rintro hAll before op after rfl
    exact (throughout_append.mp hAll).2.1
  · intro hSplit
    induction ops generalizing s with
    | nil => trivial
    | cons op ops ih =>
      refine ⟨hSplit [] op ops rfl, ih fun before other after hOps => ?_⟩
      exact hSplit (op :: before) other after (congrArg (op :: ·) hOps)

/-- What the operations of a kind bring about and those of another undo holds after a run exactly if one of
the first kind was done, and none of the second since. -/
theorem holds_foldl_iff {invariant holds : σ → Prop} {sets clears : ω → Prop}
    (hKeep : ∀ s op, invariant s → invariant (step s op))
    (hStep : ∀ s op, invariant s → (holds (step s op) ↔ sets op ∨ holds s ∧ ¬ clears op)) (hStart : invariant s)
    (hNot : ¬ holds s) (ops : List ω) :
    invariant (ops.foldl step s) ∧ (holds (ops.foldl step s) ↔
      ∃ before op after, ops = before ++ op :: after ∧ sets op ∧ ∀ other ∈ after, ¬ clears other) := by
  induction ops using List.reverseRecOn with
  | nil => exact ⟨hStart, iff_of_false hNot (by simp)⟩
  | append_singleton ops last ih =>
    obtain ⟨hInvariant, hHolds⟩ := ih
    rw [List.foldl_append]
    refine ⟨hKeep _ last hInvariant, (hStep _ last hInvariant).trans ?_⟩
    constructor
    · rintro (hSets | ⟨hBefore, hClears⟩)
      · exact ⟨ops, last, [], rfl, hSets, by simp⟩
      · obtain ⟨before, op, after, rfl, hSets, hAfter⟩ := hHolds.mp hBefore
        refine ⟨before, op, after ++ [last], by simp, hSets, fun other hOther => ?_⟩
        rcases List.mem_append.mp hOther with hMem | hMem
        · exact hAfter other hMem
        · rwa [List.mem_singleton.mp hMem]
    · rintro ⟨before, op, after, hOps, hSets, hAfter⟩
      rcases List.eq_nil_or_concat' after with rfl | ⟨rest, other, rfl⟩
      · obtain ⟨-, hLast⟩ := List.append_inj' hOps rfl
        cases hLast
        exact .inl hSets
      · rw [← List.cons_append, ← List.append_assoc] at hOps
        obtain ⟨hInit, hLast⟩ := List.append_inj' hOps rfl
        cases hLast
        refine .inr ⟨hHolds.mpr ⟨before, op, rest, hInit, hSets, fun other hMem => ?_⟩, ?_⟩
        · exact hAfter other (List.mem_append_left _ hMem)
        · exact hAfter last (by simp)

end Operations
