import Gensim.BlockJIT.Semantics

/-! What one instruction can do: which cells it leaves alone, when two
instructions have the same step, and what running a block of such steps
preserves. Transform proofs use these facts and do not open `effect`. -/
namespace Gensim.BlockJIT

open BlockProgram ByteStore

theorem classify_eq_jump {type : IRInstructionType} : classify type = .jump ↔ type = .jmp := by
  cases type <;> decide

theorem classify_eq_branch {type : IRInstructionType} : classify type = .branch ↔ type = .branch := by
  cases type <;> decide

section Code
variable {insn : IRInstruction} {block : Nat} {rest : List IRInstruction}

theorem codeOf_cons_self (hBlock : insn.irBlock = block) (hNop : insn.irBlock ≠ nopBlock) :
    codeOf block (insn :: rest) = insn :: codeOf block rest := by
  rw [codeOf, List.filter_cons_of_pos (by simp [hBlock, hBlock ▸ hNop])]
  rfl

theorem codeOf_cons_of_ne (hBlock : insn.irBlock ≠ block) : codeOf block (insn :: rest) = codeOf block rest := by
  rw [codeOf, List.filter_cons_of_neg (by simp [hBlock])]
  rfl

theorem codeOf_cons_of_nop (hNop : insn.irBlock = nopBlock) : codeOf block (insn :: rest) = codeOf block rest := by
  rw [codeOf, List.filter_cons_of_neg (by simp [hNop])]
  rfl

end Code

/-- Transfers of control. Helpers can also end a block, but only at run time. -/
def isTerminator (type : IRInstructionType) : Bool :=
  match classify type with
  | .jump | .branch | .exit => true
  | _ => false

/-- No earlier instruction of the block leaves it. -/
def Reached (block : Nat) (earlier : List IRInstruction) : Prop :=
  ∀ insn ∈ earlier, insn.irBlock = block → isTerminator insn.type = false

variable {block : Nat} {insn : IRInstruction}

theorem Reached.cons {earlier : List IRInstruction} (h : Reached block earlier)
    (hInsn : insn.irBlock = block → isTerminator insn.type = false) : Reached block (insn :: earlier) := by
  intro other hMem
  rcases List.mem_cons.mp hMem with rfl | hMem
  · exact hInsn
  · exact h other hMem

section Congruence
variable {κ W : Type} [DecidableEq κ] {host : Host W} {loc : IROperand → κ} {insn : IRInstruction}

theorem step_of_value (s : State κ W) (h : classify insn.type = .value) :
    step host loc insn s = ⟨{ s with
          cells := writeOutput loc insn (result host s.world insn.type (args host.pcOffset loc insn s)) s.cells },
        [⟨insn.type, args host.pcOffset loc insn s, s.regs⟩], .fall⟩ := by
  simp only [step, effect, h]

variable {s : State κ W}

/-- An instruction's step is determined by its type, the values it reads, the
operand it writes and its control targets. -/
theorem step_congr {insn insn' : IRInstruction} (hType : insn.type = insn'.type)
    (hArgs : args host.pcOffset loc insn s = args host.pcOffset loc insn' s) (hOutput : output insn = output insn')
    (hTargets : ∀ k, direction insn.type k = .n → insn.operand k = insn'.operand k) :
    step host loc insn s = step host loc insn' s := by
  have hWrite : ∀ value cells, writeOutput loc insn value cells = writeOutput loc insn' value cells := by
    intro value cells
    simp only [writeOutput, hOutput]
  have hSize : outputSize insn = outputSize insn' := by simp only [outputSize, hOutput]
  have hEffect : ∀ a, effect host loc insn a s = effect host loc insn' a s := by
    intro a
    unfold effect
    simp only [hWrite, hSize, ← hType]
    cases hClass : classify insn.type with
    | jump =>
      have hJmp := classify_eq_jump.mp hClass
      rw [hTargets 0 (by rw [hJmp]; rfl)]
    | branch =>
      have hBranch := classify_eq_branch.mp hClass
      rw [hTargets 1 (by rw [hBranch]; rfl), hTargets 2 (by rw [hBranch]; rfl)]
    | _ => rfl
  simp only [step, hArgs, hEffect, hType]

/-- A cell that is not the output's keeps its value. -/
theorem effect_cells {a : List Word} {cell : κ} (h : ∀ o, output insn = some o → loc o ≠ cell) :
    (effect host loc insn a s).1.cells cell = s.cells cell := by
  have hWrite : ∀ value, writeOutput loc insn value s.cells cell = s.cells cell := by
    intro value
    unfold writeOutput
    cases hOut : output insn with
    | none => rfl
    | some o => exact Function.update_of_ne (h o hOut).symm _ _
  unfold effect
  cases classify insn.type with
  | cmov =>
    dsimp only
    split
    · exact hWrite _
    · rfl
  | value => exact hWrite _
  | loadPc => exact hWrite _
  | readReg => exact hWrite _
  | external => exact hWrite _
  | _ => rfl

theorem step_cells {cell : κ} (h : ∀ o, output insn = some o → loc o ≠ cell) :
    (step host loc insn s).state.cells cell = s.cells cell :=
  effect_cells h

theorem step_next_of_terminator (h : isTerminator insn.type = true) : (step host loc insn s).next ≠ .fall := by
  unfold isTerminator at h
  simp only [step, effect]
  cases hClass : classify insn.type <;> simp_all

theorem step_next_of_not_terminator (hHost : ∀ type a regs world, (host.external type a regs world).halts = false)
    (h : isTerminator insn.type = false) : (step host loc insn s).next = .fall := by
  unfold isTerminator at h
  simp only [step, effect]
  cases hClass : classify insn.type <;> simp_all

/-- Two blocks whose first steps agree are equal from there on if the rest is. -/
theorem execBlock_cons_congr {insn insn' : IRInstruction} {rest rest' : List IRInstruction}
    (hStep : step host loc insn s = step host loc insn' s)
    (hRest : (step host loc insn s).next = .fall → execBlock (step host loc) rest (step host loc insn s).state =
        execBlock (step host loc) rest' (step host loc insn s).state) :
    execBlock (step host loc) (insn :: rest) s = execBlock (step host loc) (insn' :: rest') s := by
  rw [execBlock, execBlock, ← hStep]
  exact Outcome.andThen_congr hRest

/-- Equal executions read the same values first and stay equal afterwards. -/
theorem execBlock_cons_inv {insn insn' : IRInstruction} {rest rest' : List IRInstruction}
    (h : execBlock (step host loc) (insn :: rest) s = execBlock (step host loc) (insn' :: rest') s) :
    args host.pcOffset loc insn s = args host.pcOffset loc insn' s ∧
      (step host loc insn s = step host loc insn' s → (step host loc insn s).next = .fall →
        execBlock (step host loc) rest (step host loc insn s).state =
          execBlock (step host loc) rest' (step host loc insn s).state) := by
  have hEvents := congrArg Outcome.events h
  refine ⟨?_, ?_⟩
  · have hHead : ∀ (i : IRInstruction) (is : List IRInstruction),
        (execBlock (step host loc) (i :: is) s).events.head? = some ⟨i.type, args host.pcOffset loc i s, s.regs⟩ := by
      intro i is
      rw [execBlock]
      by_cases hFall : (step host loc i s).next = .fall
      · rw [Outcome.andThen_of_fall hFall]
        rfl
      · rw [Outcome.andThen_of_ne_fall hFall]
        rfl
    have hBoth := (hHead insn rest).symm.trans ((congrArg List.head? hEvents).trans (hHead insn' rest'))
    simp only [Option.some.injEq, Event.mk.injEq] at hBoth
    exact hBoth.2.1
  · intro hStep hFall
    rw [execBlock, execBlock, ← hStep, Outcome.andThen_of_fall hFall, Outcome.andThen_of_fall hFall] at h
    simp only [Outcome.mk.injEq, List.append_cancel_left_eq] at h
    obtain ⟨hState, hRest, hNext⟩ := h
    generalize execBlock (step host loc) rest (step host loc insn s).state = o at hState hRest hNext
    generalize execBlock (step host loc) rest' (step host loc insn s).state = o' at hState hRest hNext
    cases o
    cases o'
    simp_all

end Congruence

/-- Blocks an instruction can jump to. -/
def targets (insn : IRInstruction) : List Nat :=
  match insn.type with
  | .jmp => [(insn.operand 0).blockId]
  | .branch => [(insn.operand 1).blockId, (insn.operand 2).blockId]
  | _ => []

theorem mem_targets_of_goto {κ W : Type} [DecidableEq κ] {host : Host W} {loc : IROperand → κ} {s : State κ W}
    (h : (step host loc insn s).next = .goto block) : block ∈ targets insn := by
  simp only [step, effect] at h
  cases hClass : classify insn.type with
  | jump =>
    simp only [hClass, Next.goto.injEq] at h
    simp [targets, classify_eq_jump.mp hClass, h]
  | branch =>
    simp only [hClass, Next.goto.injEq] at h
    have hTargets : targets insn = [(insn.operand 1).blockId, (insn.operand 2).blockId] := by
      simp only [targets, classify_eq_branch.mp hClass]
    rw [hTargets, ← h]
    split
    · exact List.mem_cons_self
    · exact List.mem_cons_of_mem _ List.mem_cons_self
  | external =>
    simp only [hClass] at h
    have hNever : ∀ halts : Bool, (if halts = true then Next.halt else Next.fall) ≠ .goto block := by
      intro halts
      cases halts <;> simp
    exact absurd h (hNever _)
  | _ => simp [hClass] at h

theorem isTerminator_of_target (h : block ∈ targets insn) : isTerminator insn.type = true := by
  unfold targets at h
  split at h
  · rename_i hType
    rw [hType]
    rfl
  · rename_i hType
    rw [hType]
    rfl
  · simp at h

theorem mem_codeOf {insns : List IRInstruction} : insn ∈ codeOf block insns ↔
      insn ∈ insns ∧ insn.irBlock = block ∧ insn.irBlock ≠ nopBlock := by
  simp [codeOf]

/-- Straight-line code is only left through one of its own jumps. -/
theorem exists_target_of_goto {κ W : Type} [DecidableEq κ] {host : Host W} {loc : IROperand → κ}
    {code : List IRInstruction} {s : State κ W} (h : (execBlock (step host loc) code s).next = .goto block) :
    ∃ insn ∈ code, block ∈ targets insn := by
  induction code generalizing s with
  | nil => cases h
  | cons insn rest ih =>
    rw [execBlock] at h
    by_cases hFall : (step host loc insn s).next = .fall
    · rw [Outcome.andThen_of_fall hFall] at h
      obtain ⟨other, hMem, hTarget⟩ := ih h
      exact ⟨other, List.mem_cons_of_mem _ hMem, hTarget⟩
    · rw [Outcome.andThen_of_ne_fall hFall] at h
      exact ⟨insn, List.mem_cons_self, mem_targets_of_goto h⟩

section Meaning

/-- A host whose helpers return at once and change nothing. -/
def idleHost (pcOffset : Nat) : Host Unit where
  pcOffset := pcOffset
  cOffset := pcOffset + 4
  vOffset := pcOffset + 5
  zOffset := pcOffset + 6
  nOffset := pcOffset + 7
  compute _ _ _ := 0
  external _ _ regs world := ⟨0, regs, world, false⟩

/-- Every block reads and does the same from every state, whatever the host. -/
def SameMeaning (ctx ctx' : TranslationContext) : Prop :=
  ∀ (W : Type) (host : Host W) (block : Nat) (s : State Nat W),
    execBlock (step host IROperand.getVregIdx) (ctx.code block) s =
      execBlock (step host IROperand.getVregIdx) (ctx'.code block) s

end Meaning

section Output

variable {insn : IRInstruction} {o : IROperand}

/-- The written operand is a virtual register in a non-input position. -/
theorem output_mem (h : output insn = some o) :
    ∃ d, (d, o) ∈ insn.directed ∧ isOutput insn.type d = true ∧ o.isVreg = true := by
  unfold output at h
  rw [Option.map_eq_some_iff] at h
  obtain ⟨⟨d, o'⟩, hFind, hEq⟩ := h
  subst hEq
  have hProp := List.find?_some hFind
  rw [Bool.and_eq_true] at hProp
  exact ⟨d, List.mem_of_find?_eq_some hFind, hProp.1, hProp.2⟩

private theorem find?_congr {α : Type*} {p : α → Bool} {l l' : List α}
    (h : List.Forall₂ (fun a b => p a = p b ∧ (p a = true → a = b)) l l') : l.find? p = l'.find? p := by
  induction h with
  | nil => rfl
  | cons hHead _ ih =>
    rw [List.find?_cons, List.find?_cons, ← hHead.1, ih]
    split
    · rename_i hTrue
      rw [hHead.2 hTrue]
    · rfl

/-- Operands in positions that are never written do not matter for the output. -/
theorem output_congr {insn insn' : IRInstruction} (hType : insn'.type = insn.type)
    (hLength : insn'.operands.length = insn.operands.length)
    (hOperands : ∀ k, isOutput insn.type (direction insn.type k) = true →
      insn'.operands[k]? = insn.operands[k]?) : output insn' = output insn := by
  unfold output
  rw [hType]
  congr 1
  apply find?_congr
  rw [List.forall₂_iff_get]
  refine ⟨by simp [IRInstruction.directed, hLength], ?_⟩
  intro k hk hk'
  have hOps : k < insn'.operands.length := by simpa [IRInstruction.directed] using hk
  have hOps' : k < insn.operands.length := by simpa [IRInstruction.directed] using hk'
  simp only [IRInstruction.directed, List.get_eq_getElem, List.getElem_mapIdx, hType]
  by_cases hOut : isOutput insn.type (direction insn.type k) = true
  · have hSame := hOperands k hOut
    rw [List.getElem?_eq_getElem hOps, List.getElem?_eq_getElem hOps'] at hSame
    simp [Option.some.inj hSame]
  · simp [hOut]

theorem isOutput_ne_i {type : IRInstructionType} {d : OperandDirection} (h : isOutput type d = true) : d ≠ .i := by
  rintro rfl
  simp [isOutput] at h

@[simp] theorem directed_getElem? (insn : IRInstruction) (k : Nat) :
    insn.directed[k]? = insn.operands[k]?.map fun o => (direction insn.type k, o) := by
  simp [IRInstruction.directed]

theorem args_getElem? {κ W : Type} (pcOffset : Nat) (loc : IROperand → κ) (insn : IRInstruction)
    (s : State κ W) (k : Nat) : (args pcOffset loc insn s)[k]? =
      insn.operands[k]?.map fun o => readOperand pcOffset loc s (direction insn.type k) o := by
  rw [args, List.getElem?_map, directed_getElem?, Option.map_map]
  rfl

theorem operand_getElem? {k : Nat} (h : insn.operands[k]? = some o) : insn.operand k = o := by
  simp [IRInstruction.operand, List.getD, h]

theorem isVreg_of_isConstant (h : o.isConstant = true) : o.isVreg = false := by
  simp only [IROperand.isConstant, decide_eq_true_eq] at h
  simp [IROperand.isVreg, h]

theorem output_mov (hType : insn.type = .mov) (hVreg : (insn.operand 1).isVreg = true) :
    output insn = some (insn.operand 1) := by
  obtain ⟨type, operands, irBlock⟩ := insn
  subst hType
  match operands with
  | [] => exact absurd hVreg (by simp [IRInstruction.operand]; decide)
  | [_] => exact absurd hVreg (by simp [IRInstruction.operand]; decide)
  | first :: second :: rest =>
    have hSecond : second.isVreg = true := hVreg
    simp [output, IRInstruction.directed, IRInstruction.operand, direction, format, isOutput, hSecond]

theorem readOperand_constant {κ W : Type} (pcOffset : Nat) (loc : IROperand → κ) (s : State κ W) (d : OperandDirection)
    (h : o.isConstant = true) : readOperand pcOffset loc s d o = ⟨literal o, o.size⟩ := by
  have hType : o.type = .constant := by simpa [IROperand.isConstant] using h
  simp [readOperand, IROperand.isVreg, hType]

end Output

end Gensim.BlockJIT
