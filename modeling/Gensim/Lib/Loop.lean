import Mathlib.Tactic

/-! Loops that may fail, and their invariants. -/
namespace Loop

variable {σ α : Type*}

/-- Take steps until there is none to take, fewer than `n` of them. -/
def exhaust (step : σ → Option σ) : Nat → σ → Option σ
  | 0, _ => none
  | n + 1, s =>
      match step s with
      | none => some s
      | some t => exhaust step n t

variable {step : σ → Option σ}

theorem exhaust_of_none {s : σ} (hLast : step s = none) (n : Nat) : exhaust step (n + 1) s = some s := by
  rw [exhaust, hLast]

variable {s t : σ}

theorem exhaust_of_some (hNext : step s = some t) (n : Nat) : exhaust step (n + 1) s = exhaust step n t := by
  rw [exhaust, hNext]

variable {invariant : σ → Prop} {n : Nat}

/-- A loop whose steps keep an invariant and lower a measure ends. -/
theorem exhaust_spec {measure : σ → Nat}
    (hStep : ∀ s t, invariant s → step s = some t → invariant t ∧ measure t < measure s) {s : σ}
    (hBound : measure s < n) (hStart : invariant s) : ∃ t, exhaust step n s = some t ∧ invariant t := by
  induction n generalizing s with
  | zero => omega
  | succ n ih =>
    cases hNext : step s with
    | none => exact ⟨s, exhaust_of_none hNext n, hStart⟩
    | some t =>
      obtain ⟨hInvariant, hLess⟩ := hStep s t hStart hNext
      rw [exhaust_of_some hNext]
      exact ih (by omega) hInvariant

theorem exhaust_invariant (hStep : ∀ s t, invariant s → step s = some t → invariant t)
    (hRun : exhaust step n s = some t) (hStart : invariant s) : invariant t := by
  induction n generalizing s with
  | zero => cases hRun
  | succ n ih =>
    cases hNext : step s with
    | none =>
      rw [exhaust_of_none hNext] at hRun
      exact Option.some.inj hRun ▸ hStart
    | some middle =>
      rw [exhaust_of_some hNext] at hRun
      exact ih hRun (hStep s middle hStart hNext)

/-- What holds at the end held at the start. -/
theorem exhaust_back {good : σ → Prop} (hBack : ∀ s s', step s = some s' → good s' → good s) {s s' : σ}
    (hRun : exhaust step n s = some s') (hGood : good s') : good s := by
  induction n generalizing s with
  | zero => cases hRun
  | succ n ih =>
    cases hNext : step s with
    | none =>
      rw [exhaust_of_none hNext] at hRun
      exact Option.some.inj hRun ▸ hGood
    | some middle =>
      rw [exhaust_of_some hNext] at hRun
      exact hBack s middle hNext (ih hRun)

/-- Two loops side by side, when what holds at the end held all along. -/
theorem exhaust_related {τ : Type*} {next : τ → Option τ} {related : σ → τ → Prop} {good : σ → Prop}
    (hBack : ∀ s s', step s = some s' → good s' → good s) (hStop : ∀ s t, related s t → step s = none → next t = none)
    (hStep : ∀ s t s', related s t → step s = some s' → good s' → ∃ t', next t = some t' ∧ related s' t') {s s' : σ}
    {t : τ} (hRun : exhaust step n s = some s') (hGood : good s') (hStart : related s t) :
    ∃ t', exhaust next n t = some t' ∧ related s' t' := by
  induction n generalizing s t with
  | zero => cases hRun
  | succ n ih =>
    cases hNext : step s with
    | none =>
      rw [exhaust_of_none hNext] at hRun
      obtain rfl := Option.some.inj hRun
      exact ⟨t, exhaust_of_none (hStop s t hStart hNext) n, hStart⟩
    | some middle =>
      rw [exhaust_of_some hNext] at hRun
      obtain ⟨t', hOther, hRelated⟩ := hStep s t middle hStart hNext (exhaust_back hBack hRun hGood)
      obtain ⟨last, hLast, hEnd⟩ := ih hRun hRelated
      exact ⟨last, (exhaust_of_some hOther n).trans hLast, hEnd⟩

theorem exhaust_of_le {n m : Nat} (hLe : n ≤ m) (hRun : exhaust step n s = some t) : exhaust step m s = some t := by
  induction n generalizing m s with
  | zero => cases hRun
  | succ n ih =>
    obtain ⟨m, rfl⟩ := Nat.exists_eq_succ_of_ne_zero (Nat.lt_of_lt_of_le (Nat.succ_pos n) hLe).ne'
    cases hNext : step s with
    | none =>
      rw [exhaust_of_none hNext] at hRun ⊢
      exact hRun
    | some middle =>
      rw [exhaust_of_some hNext] at hRun ⊢
      exact ih (Nat.le_of_succ_le_succ hLe) hRun

/-- The loop ends where the steps lead to a state without a step. -/
theorem exists_exhaust_iff : (∃ n, exhaust step n s = some t) ↔
      Relation.ReflTransGen (fun a b => step a = some b) s t ∧ step t = none := by
  constructor
  · rintro ⟨n, hRun⟩
    induction n generalizing s with
    | zero => cases hRun
    | succ n ih =>
      cases hNext : step s with
      | none =>
        rw [exhaust_of_none hNext] at hRun
        obtain rfl := Option.some.inj hRun
        exact ⟨.refl, hNext⟩
      | some middle =>
        rw [exhaust_of_some hNext] at hRun
        exact ⟨.head hNext (ih hRun).1, (ih hRun).2⟩
  · rintro ⟨hPath, hLast⟩
    induction hPath using Relation.ReflTransGen.head_induction_on with
    | refl => exact ⟨1, exhaust_of_none hLast 0⟩
    | head hFirst _ ih =>
      obtain ⟨n, hRun⟩ := ih
      exact ⟨n + 1, (exhaust_of_some hFirst n).trans hRun⟩

theorem isSome_exhaust_succ (n : Nat) (s : σ) :
    (exhaust step (n + 1) s).isSome = true ↔ ∀ t, step s = some t → (exhaust step n t).isSome = true := by
  cases hNext : step s with
  | none => simp [exhaust_of_none hNext]
  | some middle => simp [exhaust_of_some hNext]

/-- A loop over finitely many states that ends takes no state twice. -/
theorem exhaust_card [Fintype σ] (hRun : exhaust step n s = some t) : exhaust step (Fintype.card σ) s = some t := by
  classical
  let ends (k : Nat) : Finset σ := {s | (exhaust step k s).isSome = true}
  have hMono : Monotone ends := by
    intro k m hLe s hMem
    obtain ⟨t, hEnd⟩ := Option.isSome_iff_exists.mp (Finset.mem_filter.mp hMem).2
    exact Finset.mem_filter.mpr ⟨Finset.mem_univ s, Option.isSome_iff_exists.mpr ⟨t, exhaust_of_le hLe hEnd⟩⟩
  have hStable : ∀ m, (ends m).card = (ends (m + 1)).card → (ends (m + 1)).card = (ends (m + 2)).card := by
    intro m hCard
    have hSame : ends m = ends (m + 1) := Finset.eq_of_subset_of_card_le (hMono m.le_succ) hCard.ge
    congr 1
    refine Finset.filter_congr fun s _ => ?_
    rw [isSome_exhaust_succ, isSome_exhaust_succ]
    refine forall_congr' fun t => imp_congr_right fun _ => ?_
    simpa [ends] using Finset.ext_iff.mp hSame t
  have hBound := Nat.stabilises_of_monotone (fun _ _ hLe => Finset.card_le_card (hMono hLe))
    (fun m => Finset.card_le_univ (ends m)) hStable (le_max_right n (Fintype.card σ))
  have hAll : ends (max n (Fintype.card σ)) = ends (Fintype.card σ) :=
    (Finset.eq_of_subset_of_card_le (hMono (le_max_right _ _)) hBound.le).symm
  have hMem : s ∈ ends (Fintype.card σ) := by
    rw [← hAll]
    exact hMono (le_max_left _ _) (by simp [ends, hRun])
  obtain ⟨t', hEnd⟩ := Option.isSome_iff_exists.mp (Finset.mem_filter.mp hMem).2
  have hBoth := (exhaust_of_le (le_max_left n (Fintype.card σ)) hRun).symm.trans (exhaust_of_le (le_max_right _ _) hEnd)
  rwa [← Option.some.inj hBoth] at hEnd

variable {f : σ → α → Option σ} {list : List α}

theorem foldlM_spec (hStep : ∀ x ∈ list, ∀ s, invariant s → ∃ t, f s x = some t ∧ invariant t) {s : σ}
    (hStart : invariant s) : ∃ t, list.foldlM f s = some t ∧ invariant t := by
  induction list generalizing s with
  | nil => exact ⟨s, rfl, hStart⟩
  | cons x list ih =>
    obtain ⟨hFirst, hRest⟩ := List.forall_mem_cons.mp hStep
    obtain ⟨t, hNext, hInvariant⟩ := hFirst s hStart
    rw [List.foldlM_cons, hNext]
    exact ih hRest hInvariant

theorem foldlM_invariant (invariant : σ → Prop) (hStep : ∀ s x t, invariant s → f s x = some t → invariant t)
    (hRun : list.foldlM f s = some t) (hStart : invariant s) : invariant t := by
  induction list generalizing s with
  | nil => exact Option.some.inj hRun ▸ hStart
  | cons x list ih =>
    rw [List.foldlM_cons, Option.bind_eq_bind, Option.bind_eq_some_iff] at hRun
    obtain ⟨middle, hFirst, hRest⟩ := hRun
    exact ih hRest (hStep s x middle hStart hFirst)

theorem exists_foldlM (hStep : ∀ x ∈ list, ∀ s, ∃ t, f s x = some t) (s : σ) : ∃ t, list.foldlM f s = some t := by
  have hAlways : ∀ x ∈ list, ∀ s, True → ∃ t, f s x = some t ∧ True := by
    intro x hMem s _
    obtain ⟨t, hNext⟩ := hStep x hMem s
    exact ⟨t, hNext, trivial⟩
  obtain ⟨t, hRun, -⟩ := foldlM_spec hAlways trivial
  exact ⟨t, hRun⟩

end Loop
