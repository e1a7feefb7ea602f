import Gensim.BlockJIT.Step

/-! Traces of complete runs. Transforms of the control-flow graph delete and
retarget jumps and give blocks other numbers; what they must keep is
everything else a run does, in the same order. -/
namespace Gensim.BlockJIT

open BlockProgram

/-- A jump only leads from one place of the code to another. -/
def withoutJumps (e : Event) : Option Event := if e.type = .jmp then none else some e

section View
variable {W : Type}

/-- The runs end in the same way and state after the same events. -/
structure SameView (o o' : Outcome (State Nat W) Event) : Prop where
  next : o'.next = o.next
  state : o'.state = o.state
  events : o'.events.filterMap withoutJumps = o.events.filterMap withoutJumps

theorem SameView.refl (o : Outcome (State Nat W) Event) : SameView o o := ⟨rfl, rfl, rfl⟩

theorem SameView.trans {o o' o'' : Outcome (State Nat W) Event} (h : SameView o o')
    (h' : SameView o' o'') : SameView o o'' :=
  ⟨h'.next.trans h.next, h'.state.trans h.state, h'.events.trans h.events⟩

theorem SameView.after {o o' : Outcome (State Nat W) Event} (h : SameView o o') {events events' : List Event}
    (hEvents : events'.filterMap withoutJumps = events.filterMap withoutJumps) :
    SameView (o.after events) (o'.after events') := by
  refine ⟨h.next, h.state, ?_⟩
  simp only [Outcome.after, List.filterMap_append, hEvents, h.events]

end View

/-- From the same state both runs end, with the same trace. -/
def SameTraces (ctx ctx' : TranslationContext) : Prop :=
  ∀ (W : Type) (host : Host W) (s : State Nat W), ∃ o o',
    Finishes (step host IROperand.getVregIdx) ctx.code 0 s o ∧
      Finishes (step host IROperand.getVregIdx) ctx'.code 0 s o' ∧ SameView o o'

/-- An instruction without its place in the graph. -/
def IRInstruction.content (insn : IRInstruction) : IRInstruction := { insn with irBlock := 0 }

section Content
variable {W : Type} {host : Host W}

/-- What an instruction does is independent of the block it is in. -/
theorem execBlock_content {code code' : List IRInstruction}
    (h : code'.map IRInstruction.content = code.map IRInstruction.content) (s : State Nat W) :
    execBlock (step host IROperand.getVregIdx) code' s = execBlock (step host IROperand.getVregIdx) code s := by
  have hContent : ∀ (l : List IRInstruction) (s : State Nat W),
      execBlock (step host IROperand.getVregIdx) (l.map IRInstruction.content) s =
        execBlock (step host IROperand.getVregIdx) l s := by
    intro l
    induction l with
    | nil => exact fun _ => rfl
    | cons insn rest ih =>
      intro s
      rw [List.map_cons, execBlock, execBlock]
      exact Outcome.andThen_congr fun _ => ih _
  rw [← hContent code', ← hContent code, h]

theorem finishesFrom_content {graph : Nat → List IRInstruction} {code code' : List IRInstruction}
    (h : code'.map IRInstruction.content = code.map IRInstruction.content) {s : State Nat W}
    {o : Outcome (State Nat W) Event} (hFinishes : FinishesFrom (step host IROperand.getVregIdx) graph code s o) :
    FinishesFrom (step host IROperand.getVregIdx) graph code' s o := by
  obtain ⟨hComplete, fuel, hRun⟩ := hFinishes
  exact ⟨hComplete, fuel, by rw [execBlock_content h, hRun]⟩

/-- Code without a terminator is left by falling through or by a helper that
stops. -/
theorem execBlock_complete {body : List IRInstruction}
    (hBody : ∀ i ∈ body, isTerminator i.type = false) (s : State Nat W) :
    (execBlock (step host IROperand.getVregIdx) body s).Complete := by
  intro b hGoto
  obtain ⟨i, hMem, hTarget⟩ := exists_target_of_goto hGoto
  have hTerminator := isTerminator_of_target hTarget
  rw [hBody i hMem] at hTerminator
  cases hTerminator

/-- A jump adds nothing to what its target does. -/
theorem finishesFrom_jump {graph : Nat → List IRInstruction} {j : IRInstruction} {t : Nat}
    {s : State Nat W} {o : Outcome (State Nat W) Event} (hType : j.type = .jmp) (hTarget : (j.operand 0).blockId = t)
    (h : Finishes (step host IROperand.getVregIdx) graph t s o) :
    ∃ m, FinishesFrom (step host IROperand.getVregIdx) graph [j] s m ∧ SameView m o := by
  have hNext : (step host IROperand.getVregIdx j s).next = .goto t := by simp [step, effect, hType, classify, hTarget]
  have hState : (step host IROperand.getVregIdx j s).state = s := by simp [step, effect, hType, classify]
  have hEvents : (step host IROperand.getVregIdx j s).events.filterMap withoutJumps = [] := by
    simp [step, hType, withoutJumps]
  have hJump : execBlock (step host IROperand.getVregIdx) [j] s = step host IROperand.getVregIdx j s := by
    rw [execBlock, Outcome.andThen_of_ne_fall (by rw [hNext]; simp)]
  rw [← hJump] at hNext hEvents hState
  refine ⟨_, finishesFrom_goto hNext (by rw [hState]; exact h), rfl, rfl, ?_⟩
  simp only [Outcome.after, List.filterMap_append, hEvents, List.nil_append]

end Content

/-- Graphs whose blocks are numbered in execution order: a terminator is the last
instruction of its block and only leads to later blocks. The instructions of a
block may be spread over the buffer. -/
structure Ordered (ctx : TranslationContext) : Prop where
  count : ctx.blockCount ≤ nopBlock
  ids : ∀ insn ∈ ctx.insns, insn.irBlock ≠ nopBlock → insn.irBlock < ctx.blockCount
  ends : ∀ b, (ctx.code b).Pairwise fun i _ => isTerminator i.type = false
  targets : ∀ insn ∈ ctx.insns, insn.irBlock ≠ nopBlock → ∀ t ∈ targets insn,
    insn.irBlock < t ∧ t < ctx.blockCount

theorem eq_last_of_terminator {code : List IRInstruction} {i : IRInstruction}
    (hEnds : code.Pairwise fun i _ => isTerminator i.type = false) (hMem : i ∈ code)
    (hTerminator : isTerminator i.type = true) : ∃ body, code = body ++ [i] := by
  obtain ⟨body, rest, rfl⟩ := List.append_of_mem hMem
  cases rest with
  | nil => exact ⟨body, rfl⟩
  | cons j rest =>
    have hFalse := (List.pairwise_cons.mp (List.pairwise_append.mp hEnds).2.1).1 j List.mem_cons_self
    rw [hTerminator] at hFalse
    cases hFalse

section Ordered
variable {ctx : TranslationContext} (h : Ordered ctx)
include h

/-- In buffer order nothing of a block follows its terminator. -/
theorem Ordered.ends_buffer : ctx.insns.Pairwise fun i j =>
    i.irBlock ≠ nopBlock → isTerminator i.type = true → j.irBlock ≠ i.irBlock := by
  have hAll : ∀ b, ctx.insns.Pairwise fun i j => (i.irBlock = b ∧ i.irBlock ≠ nopBlock) →
      (j.irBlock = b ∧ j.irBlock ≠ nopBlock) → isTerminator i.type = false := by
    intro b
    have hBlock := h.ends b
    rw [TranslationContext.code, codeOf, List.pairwise_filter] at hBlock
    simpa using hBlock
  rw [List.pairwise_iff_getElem]
  intro x y hx hy hLt hLive hTerminator hSame
  have hPair := List.pairwise_iff_getElem.mp (hAll ctx.insns[x].irBlock) x y hx hy hLt
  rw [hPair ⟨rfl, hLive⟩ ⟨hSame, hSame ▸ hLive⟩] at hTerminator
  cases hTerminator

end Ordered

end Gensim.BlockJIT
