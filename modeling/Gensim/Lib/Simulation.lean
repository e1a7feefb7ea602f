import Mathlib.Tactic

/-! Deterministic machines that step until they have a result, and simulations between them in
which either machine may take several steps at a time. -/
namespace Simulation

variable {σ σ' ρ : Type*}

inductive Progress (σ ρ : Type*)
  | running (state : σ)
  | done (result : ρ)

def advance (step : σ → Progress σ ρ) : Nat → σ → Progress σ ρ
  | 0, s => .running s
  | n + 1, s =>
      match step s with
      | .running t => advance step n t
      | .done r => .done r

section Advance

variable {step : σ → Progress σ ρ} {s t : σ} {r : ρ} {m n : Nat}

theorem advance_one (step : σ → Progress σ ρ) (s : σ) : advance step 1 s = step s := by
  simp only [advance]
  cases step s <;> rfl

theorem advance_add_of_running (h : advance step m s = .running t) (n : Nat) :
    advance step (m + n) s = advance step n t := by
  induction m generalizing s with
  | zero =>
    cases h
    rw [Nat.zero_add]
  | succ m ih =>
    rw [Nat.add_right_comm]
    simp only [advance] at h ⊢
    cases hStep : step s with
    | running u =>
      rw [hStep] at h
      exact ih h
    | done r =>
      rw [hStep] at h
      cases h

theorem advance_add_of_done (h : advance step m s = .done r) (n : Nat) : advance step (m + n) s = .done r := by
  induction m generalizing s with
  | zero => cases h
  | succ m ih =>
    rw [Nat.add_right_comm]
    simp only [advance] at h ⊢
    cases hStep : step s with
    | running u =>
      rw [hStep] at h
      exact ih h
    | done r' =>
      rw [hStep] at h
      exact h

theorem advance_done_unique {r' : ρ} (h : advance step m s = .done r) (h' : advance step n s = .done r') : r = r' := by
  have hLeft := advance_add_of_done h n
  have hRight := advance_add_of_done h' m
  rw [Nat.add_comm, hLeft] at hRight
  exact Progress.done.inj hRight

/-- A machine that is still running after `m` steps ends later. -/
theorem done_of_running (h : advance step m s = .running t) (hDone : advance step n s = .done r) :
    ∃ k, n = m + k ∧ advance step k t = .done r := by
  by_cases hLt : n < m
  · have hLonger := advance_add_of_done hDone (m - n)
    rw [Nat.add_sub_cancel' hLt.le, h] at hLonger
    cases hLonger
  · refine ⟨n - m, by omega, ?_⟩
    rw [← advance_add_of_running h, Nat.add_sub_cancel' (by omega)]
    exact hDone

end Advance

/-- The result of a machine, or `diverges` when it never ends. -/
noncomputable def result (diverges : ρ) (step : σ → Progress σ ρ) (s : σ) : ρ :=
  open Classical in
  if h : ∃ r n, advance step n s = .done r then h.choose else diverges

section Result

variable {diverges : ρ} {step : σ → Progress σ ρ} {step' : σ' → Progress σ' ρ} {s t : σ} {r : ρ}
  {n : Nat}

theorem result_of_done (h : advance step n s = .done r) : result diverges step s = r := by
  have hEnds : ∃ r n, advance step n s = .done r := ⟨r, n, h⟩
  rw [result, dif_pos hEnds]
  obtain ⟨m, hChosen⟩ := hEnds.choose_spec
  exact advance_done_unique hChosen h

theorem result_of_never (h : ∀ n r, advance step n s ≠ .done r) : result diverges step s = diverges := by
  rw [result, dif_neg]
  rintro ⟨r, n, hDone⟩
  exact h n r hDone

theorem result_of_running (h : advance step n s = .running t) : result diverges step s = result diverges step t := by
  by_cases hEnds : ∃ r m, advance step m t = .done r
  · obtain ⟨r, m, hDone⟩ := hEnds
    rw [result_of_done hDone]
    exact result_of_done ((advance_add_of_running h m).trans hDone)
  · push Not at hEnds
    rw [result_of_never fun m r => hEnds r m, result_of_never]
    intro m r hDone
    obtain ⟨k, -, hRest⟩ := done_of_running h hDone
    exact hEnds r k hRest

/-- From related states both machines get to related states again, or the first one gets a result
that is bad or that is the second one's. -/
def Simulates (diverges : ρ) (bad : ρ → Prop) (step : σ → Progress σ ρ)
    (step' : σ' → Progress σ' ρ) (related : σ → σ' → Prop) : Prop :=
  ∀ s s', related s s' → ∃ k,
    (∃ r, advance step (k + 1) s = .done r ∧ (bad r ∨ result diverges step' s' = r)) ∨
      ∃ k' t t', advance step (k + 1) s = .running t ∧ advance step' (k' + 1) s' = .running t' ∧
        related t t'

theorem Simulates.result_eq {bad : ρ → Prop} {related : σ → σ' → Prop} {s' : σ'}
    (h : Simulates diverges bad step step' related) (hRelated : related s s')
    (hGood : ¬ bad (result diverges step s)) : result diverges step' s' = result diverges step s := by
  by_cases hEnds : ∃ n r, advance step n s = .done r
  · -- By the number of steps that the first machine still takes.
    obtain ⟨n, r, hDone⟩ := hEnds
    induction n using Nat.strong_induction_on generalizing s s' with
    | _ n ih =>
      obtain ⟨k, ⟨r', hResult, hCases⟩ | ⟨k', t, t', hLeft, hRight, hNext⟩⟩ := h s s' hRelated
      · rw [result_of_done hResult] at hGood ⊢
        exact hCases.resolve_left hGood
      · rw [result_of_running hLeft] at hGood ⊢
        rw [result_of_running hRight]
        obtain ⟨rest, rfl, hRest⟩ := done_of_running hLeft hDone
        exact ih rest (by omega) hNext hGood hRest
  · push Not at hEnds
    rw [result_of_never hEnds]
    apply result_of_never
    intro n
    induction n using Nat.strong_induction_on generalizing s s' with
    | _ n ih =>
      intro r hDone
      obtain ⟨k, ⟨r', hResult, -⟩ | ⟨k', t, t', hLeft, hRight, hNext⟩⟩ := h s s' hRelated
      · exact hEnds _ _ hResult
      · obtain ⟨rest, rfl, hRest⟩ := done_of_running hRight hDone
        rw [result_of_running hLeft] at hGood
        refine ih rest (by omega) hNext hGood (fun m r' hLater => ?_) r hRest
        exact hEnds _ _ ((advance_add_of_running hLeft m).trans hLater)

/-- Machines that go step by step. -/
theorem simulates_of_step {bad : ρ → Prop} {related : σ → σ' → Prop} (h : ∀ s s', related s s' →
      (∃ r, step s = .done r ∧ (bad r ∨ step' s' = .done r)) ∨
        ∃ t t', step s = .running t ∧ step' s' = .running t' ∧ related t t') :
    Simulates diverges bad step step' related := by
  intro s s' hRelated
  refine ⟨0, ?_⟩
  rcases h s s' hRelated with ⟨r, hDone, hCases⟩ | ⟨t, t', hLeft, hRight, hNext⟩
  · left
    refine ⟨r, by rw [Nat.zero_add, advance_one, hDone], hCases.imp_right fun hDone' => ?_⟩
    exact result_of_done ((advance_one step' s').trans hDone')
  · right
    exact ⟨0, t, t', by rw [Nat.zero_add, advance_one, hLeft],
      by rw [Nat.zero_add, advance_one, hRight], hNext⟩

end Result

end Simulation
