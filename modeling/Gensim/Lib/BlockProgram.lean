import Mathlib.Data.List.Basic
import Mathlib.Tactic

/-! Programs made of numbered straight-line blocks. A step reports the events it
produced and where control goes next; a run is cut off after a given number of
blocks, so equality at every cut-off is equality of the whole behaviour, also of
runs that never end. -/
namespace BlockProgram

inductive Next
  | fall
  | goto (block : Nat)
  | halt
  deriving DecidableEq, Repr

structure Outcome (σ ε : Type*) where
  state : σ
  events : List ε
  next : Next

variable {ι σ ε : Type*}

namespace Outcome

/-- Continue after an outcome that fell through; keep any other one. -/
def andThen (o : Outcome σ ε) (rest : σ → Outcome σ ε) : Outcome σ ε :=
  match o.next with
  | .fall => ⟨(rest o.state).state, o.events ++ (rest o.state).events, (rest o.state).next⟩
  | _ => o

/-- Continue in the block an outcome went to; keep any other one. -/
def andGoto (o : Outcome σ ε) (rest : Nat → σ → Outcome σ ε) : Outcome σ ε :=
  match o.next with
  | .goto b =>
      ⟨(rest b o.state).state, o.events ++ (rest b o.state).events, (rest b o.state).next⟩
  | _ => o

variable {o : Outcome σ ε}

theorem andThen_of_ne_fall {rest : σ → Outcome σ ε} (h : o.next ≠ .fall) : o.andThen rest = o := by
  unfold andThen
  split
  · exact absurd (by assumption) h
  · rfl

theorem andThen_of_fall {rest : σ → Outcome σ ε} (h : o.next = .fall) : o.andThen rest =
      ⟨(rest o.state).state, o.events ++ (rest o.state).events, (rest o.state).next⟩ := by
  simp only [andThen, h]

theorem andThen_assoc (o : Outcome σ ε) (first second : σ → Outcome σ ε) :
    (o.andThen first).andThen second = o.andThen fun s => (first s).andThen second := by
  by_cases h : o.next = .fall
  · rw [andThen_of_fall h, andThen_of_fall h]
    by_cases hFirst : (first o.state).next = .fall
    · rw [andThen_of_fall hFirst, andThen_of_fall (by exact hFirst)]
      simp only [List.append_assoc]
    · rw [andThen_of_ne_fall hFirst, andThen_of_ne_fall (by exact hFirst)]
  · rw [andThen_of_ne_fall h, andThen_of_ne_fall h, andThen_of_ne_fall h]

theorem andThen_congr {first second : σ → Outcome σ ε} (h : o.next = .fall → first o.state = second o.state) :
    o.andThen first = o.andThen second := by
  by_cases hFall : o.next = .fall
  · rw [andThen_of_fall hFall, andThen_of_fall hFall, h hFall]
  · rw [andThen_of_ne_fall hFall, andThen_of_ne_fall hFall]

theorem andGoto_of_goto {rest : Nat → σ → Outcome σ ε} {b : Nat} (h : o.next = .goto b) : o.andGoto rest =
      ⟨(rest b o.state).state, o.events ++ (rest b o.state).events, (rest b o.state).next⟩ := by
  simp only [andGoto, h]

theorem andGoto_of_ne_goto {rest : Nat → σ → Outcome σ ε} (h : ∀ b, o.next ≠ .goto b) : o.andGoto rest = o := by
  unfold andGoto
  split
  · exact absurd (by assumption) (h _)
  · rfl

end Outcome

/-- Straight-line execution up to the first transfer of control. -/
def execBlock (step : ι → σ → Outcome σ ε) : List ι → σ → Outcome σ ε
  | [], s => ⟨s, [], .fall⟩
  | i :: rest, s => (step i s).andThen (execBlock step rest)

/-- Execute at most `fuel` blocks. A run that was cut off reports the block it
would enter next. -/
def run (step : ι → σ → Outcome σ ε) (code : Nat → List ι) : Nat → Nat → σ → Outcome σ ε
  | 0, b, s => ⟨s, [], .goto b⟩
  | fuel + 1, b, s => (execBlock step (code b) s).andGoto (run step code fuel)

theorem execBlock_append (step : ι → σ → Outcome σ ε) (first second : List ι) (s : σ) :
    execBlock step (first ++ second) s = (execBlock step first s).andThen (execBlock step second) := by
  induction first generalizing s with
  | nil => simp [execBlock, Outcome.andThen]
  | cons i rest ih =>
    rw [List.cons_append, execBlock, execBlock, Outcome.andThen_assoc]
    exact Outcome.andThen_congr fun _ => ih _

/-! ### Complete runs -/

namespace Outcome

/-- The run did not stop at a cut-off. -/
def Complete (o : Outcome σ ε) : Prop := ∀ b, o.next ≠ .goto b

/-- An outcome with the events of what went before it. -/
def after (o : Outcome σ ε) (events : List ε) : Outcome σ ε := { o with events := events ++ o.events }

theorem andGoto_after (o : Outcome σ ε) (events : List ε) (rest : Nat → σ → Outcome σ ε) :
    (o.after events).andGoto rest = (o.andGoto rest).after events := by
  have hSame : (o.after events).next = o.next := rfl
  cases hNext : o.next with
  | goto c =>
    rw [andGoto_of_goto hNext, andGoto_of_goto (hSame.trans hNext)]
    simp [after]
  | fall => rw [andGoto_of_ne_goto (o := o) (by simp [hNext]), andGoto_of_ne_goto (by simp [hSame, hNext])]
  | halt => rw [andGoto_of_ne_goto (o := o) (by simp [hNext]), andGoto_of_ne_goto (by simp [hSame, hNext])]

end Outcome

/-- Executing `first` and then following the blocks ends with `o`. -/
def FinishesFrom (step : ι → σ → Outcome σ ε) (code : Nat → List ι) (first : List ι) (s : σ)
    (o : Outcome σ ε) : Prop :=
  o.Complete ∧ ∃ fuel, (execBlock step first s).andGoto (run step code fuel) = o

/-- The run from block `b` ends with `o`. -/
def Finishes (step : ι → σ → Outcome σ ε) (code : Nat → List ι) (b : Nat) (s : σ)
    (o : Outcome σ ε) : Prop :=
  FinishesFrom step code (code b) s o

section Finishes
variable {step : ι → σ → Outcome σ ε} {code : Nat → List ι} {first second : List ι} {s : σ}
  {o o' : Outcome σ ε} {b : Nat}

theorem finishesFrom_leave (h : (execBlock step first s).Complete) :
    FinishesFrom step code first s (execBlock step first s) :=
  ⟨h, 0, Outcome.andGoto_of_ne_goto h⟩

theorem finishesFrom_goto (hGoto : (execBlock step first s).next = .goto b)
    (h : Finishes step code b (execBlock step first s).state o) :
    FinishesFrom step code first s (o.after (execBlock step first s).events) := by
  obtain ⟨hComplete, fuel, hRun⟩ := h
  refine ⟨hComplete, fuel + 1, ?_⟩
  rw [Outcome.andGoto_of_goto hGoto, run, hRun]
  rfl

theorem finishesFrom_append_fall (hFall : (execBlock step first s).next = .fall)
    (h : FinishesFrom step code second (execBlock step first s).state o) :
    FinishesFrom step code (first ++ second) s (o.after (execBlock step first s).events) := by
  obtain ⟨hComplete, fuel, hRun⟩ := h
  refine ⟨hComplete, fuel, ?_⟩
  rw [execBlock_append, Outcome.andThen_of_fall hFall, ← hRun, ← Outcome.andGoto_after]
  rfl

theorem finishesFrom_append_leave (hLeave : (execBlock step first s).next ≠ .fall)
    (hComplete : (execBlock step first s).Complete) :
    FinishesFrom step code (first ++ second) s (execBlock step first s) := by
  have hStop : execBlock step (first ++ second) s = execBlock step first s := by
    rw [execBlock_append, Outcome.andThen_of_ne_fall hLeave]
  exact ⟨hComplete, 0, by rw [hStop]; exact Outcome.andGoto_of_ne_goto hComplete⟩

end Finishes

end BlockProgram
