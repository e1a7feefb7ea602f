import Gensim.BlockJIT.Step

/-! `ConstantPropTransform`: input virtual registers are replaced by the constant
a `MOV` of the same block recorded for them. The recorded operand keeps the
width of the `MOV`'s source, which need not be the width of the use. -/
namespace Gensim.BlockJIT.ConstantProp

open BlockProgram

abbrev ConstantMap := Nat → Option IROperand

def isConstantMov (insn : IRInstruction) : Bool :=
  insn.type = .mov ∧ (insn.operand 0).isConstant

/-- The in-place update of a recorded constant by an `ADD` or `SUB` of another
one. The operand loop erases the entry again, because the destination of both
is an input and output. -/
def trackArithmetic (insn : IRInstruction) (constants : ConstantMap) : ConstantMap :=
  let key := (insn.operand 1).getVregIdx
  if (insn.operand 0).isConstant then
    match insn.type, constants key with
    | .add, some c =>
        Function.update constants key (some { c with value := c.value + (insn.operand 0).value })
    | .sub, some c =>
        Function.update constants key (some { c with value := c.value - (insn.operand 0).value })
    | _, _ => constants
  else constants

/-- The operand loop. A replacement sees the entries the earlier operands of the
same instruction have erased. -/
def rewriteOperands :
    List (OperandDirection × IROperand) → ConstantMap → List IROperand × ConstantMap
  | [], constants => ([], constants)
  | (d, o) :: rest, constants =>
      if d = .i then
        let o' := if o.isVreg then (constants o.getVregIdx).getD o else o
        let r := rewriteOperands rest constants
        (o' :: r.1, r.2)
      else
        let constants :=
          if o.isVreg then Function.update constants o.getVregIdx none else constants
        let r := rewriteOperands rest constants
        (o :: r.1, r.2)

/-- One instruction of the scan. `none` is a failed assertion. -/
def visit (insn : IRInstruction) (constants : ConstantMap) :
    Option (IRInstruction × ConstantMap) :=
  if insn.type = .mov ∧ ¬ (insn.operand 1).isVreg then none
  else if isConstantMov insn then
    some (insn, Function.update constants (insn.operand 1).getVregIdx (some (insn.operand 0)))
  else if (insn.type = .add ∨ insn.type = .sub) ∧ ¬ (insn.operand 1).isVreg then none
  else
    let r := rewriteOperands insn.directed (trackArithmetic insn constants)
    some ({ insn with operands := r.1 }, r.2)

def scan : List IRInstruction → Nat → ConstantMap → Option (List IRInstruction)
  | [], _, _ => some []
  | insn :: rest, prevBlock, constants =>
      if insn.irBlock = nopBlock then
        (scan rest prevBlock constants).map (insn :: ·)
      else
        let constants := if prevBlock ≠ insn.irBlock then fun _ => none else constants
        (visit insn constants).bind fun r =>
          (scan rest insn.irBlock r.2).map (r.1 :: ·)

def apply (ctx : TranslationContext) : Option TranslationContext :=
  (scan ctx.insns 0 fun _ => none).map fun insns => { ctx with insns }

/-! ### Which constant reaches a use -/

/-- Some operand of the list is not a pure input and names `v`. -/
def overwrites (operands : List (OperandDirection × IROperand)) (v : Nat) : Bool :=
  operands.any fun p => p.1 ≠ .i && p.2.isVreg && p.2.getVregIdx = v

/-- The constant `MOV` whose value `v` holds in `block` after the given
instructions, listed from the nearest one back. -/
def reachingMov (block v : Nat) : List IRInstruction → Option IRInstruction
  | [] => none
  | insn :: earlier =>
      if insn.irBlock = nopBlock then reachingMov block v earlier
      else if insn.irBlock ≠ block then none
      else if isConstantMov insn then
        if (insn.operand 1).getVregIdx = v then some insn else reachingMov block v earlier
      else if overwrites insn.directed v then none
      else reachingMov block v earlier

/-- Every input of `use` that a constant reaches has the constant's own width,
and the constant fits the register it was moved to. -/
def WidthsAgreeAt (earlier : List IRInstruction) (use : IRInstruction) : Prop :=
  ∀ k o mov, use.directed[k]? = some (.i, o) → o.isVreg = true →
    overwrites (use.directed.take k) o.getVregIdx = false →
    reachingMov use.irBlock o.getVregIdx earlier = some mov →
    o.size = (mov.operand 0).size ∧
      literal (mov.operand 0) < 2 ^ bits (mov.operand 1).size

def WidthsAgree (insns : List IRInstruction) : Prop :=
  ∀ before use after, insns = before ++ use :: after → use.irBlock ≠ nopBlock →
    Reached use.irBlock before → WidthsAgreeAt before.reverse use

/-! ### The map follows the reaching constants -/

theorem overwrites_cons (p : OperandDirection × IROperand) (rest : List (OperandDirection × IROperand)) (v : Nat) :
    overwrites (p :: rest) v = ((p.1 ≠ .i && p.2.isVreg && p.2.getVregIdx = v) || overwrites rest v) := rfl

theorem rewriteOperands_constants (operands : List (OperandDirection × IROperand))
    (constants : ConstantMap) (v : Nat) : (rewriteOperands operands constants).2 v =
      if overwrites operands v then none else constants v := by
  induction operands generalizing constants with
  | nil => rfl
  | cons p rest ih =>
    obtain ⟨d, o⟩ := p
    rw [overwrites_cons]
    by_cases hDir : d = .i
    · simp [rewriteOperands, hDir, ih]
    · by_cases hVreg : o.isVreg = true
      · by_cases hKey : o.getVregIdx = v
        · simp [rewriteOperands, hDir, hVreg, hKey, ih]
        · simp [rewriteOperands, hDir, hVreg, hKey, ih, Function.update_of_ne (Ne.symm hKey)]
      · simp [rewriteOperands, hDir, hVreg, ih]

/-- An operand is replaced exactly when it is an input register with an entry
that no earlier operand of the instruction erased. -/
theorem rewriteOperands_getElem? (operands : List (OperandDirection × IROperand))
    (constants : ConstantMap) (k : Nat) : (rewriteOperands operands constants).1[k]? = operands[k]?.map fun p =>
      if p.1 = .i ∧ p.2.isVreg = true ∧ overwrites (operands.take k) p.2.getVregIdx = false then
        (constants p.2.getVregIdx).getD p.2 else p.2 := by
  induction operands generalizing constants k with
  | nil => simp [rewriteOperands]
  | cons p rest ih =>
    obtain ⟨d, o⟩ := p
    cases k with
    | zero =>
      by_cases hDir : d = .i <;> by_cases hVreg : o.isVreg = true <;>
        simp [rewriteOperands, hDir, hVreg, overwrites]
    | succ k =>
      by_cases hDir : d = .i
      · simp [rewriteOperands, hDir, ih, overwrites_cons]
      · by_cases hVreg : o.isVreg = true
        · simp only [rewriteOperands, hDir, hVreg, if_false, if_true,
            List.getElem?_cons_succ, ih, List.take_succ_cons, overwrites_cons]
          congr 1
          funext q
          by_cases hKey : o.getVregIdx = q.2.getVregIdx
          · simp [hKey, hDir]
          · simp [hKey, Function.update_of_ne (Ne.symm hKey)]
        · simp [rewriteOperands, hDir, hVreg, ih, overwrites_cons]

theorem trackArithmetic_cases (insn : IRInstruction) (constants : ConstantMap) :
    trackArithmetic insn constants = constants ∨
      (insn.type = .add ∨ insn.type = .sub) ∧ (insn.operand 0).isConstant = true ∧
        ∀ v, v ≠ (insn.operand 1).getVregIdx → trackArithmetic insn constants v = constants v := by
  unfold trackArithmetic
  by_cases hConstant : (insn.operand 0).isConstant = true
  · simp only [hConstant, if_true]
    split
    · rename_i hType hEntry
      refine Or.inr ⟨Or.inl hType, trivial, fun v hv => ?_⟩
      simp only [hType, hEntry, Function.update_of_ne hv]
    · rename_i hType hEntry
      refine Or.inr ⟨Or.inr hType, trivial, fun v hv => ?_⟩
      simp only [hType, hEntry, Function.update_of_ne hv]
    · exact Or.inl rfl
  · simp [hConstant]

/-- A virtual register an instruction names in a position that is not a pure
input is overwritten. -/
theorem overwrites_of_operand {insn : IRInstruction} {k : Nat}
    (hDir : direction insn.type k ≠ .i) (hVreg : (insn.operand k).isVreg = true) :
    overwrites insn.directed (insn.operand k).getVregIdx = true := by
  cases hGet : insn.operands[k]? with
  | none =>
    have hNone : insn.operand k = .none := by simp [IRInstruction.operand, List.getD, hGet]
    rw [hNone] at hVreg
    exact absurd hVreg (by decide)
  | some o =>
    have hOperand := operand_getElem? hGet
    rw [overwrites, List.any_eq_true]
    refine ⟨(direction insn.type k, o), ?_, ?_⟩
    · exact List.mem_of_getElem? (by rw [directed_getElem?, hGet]; rfl)
    · rw [← hOperand]
      simp [hDir, hVreg]

/-- The entry for `v` after an instruction, in terms of the one before. -/
def entryAfter (insn : IRInstruction) (v : Nat) (entry : Option IROperand) : Option IROperand :=
  if isConstantMov insn then
    if (insn.operand 1).getVregIdx = v then some (insn.operand 0) else entry
  else if overwrites insn.directed v then none
  else entry

/-- What a successful visit does to the instruction and to the map. The
arithmetic tracking has no effect on either. -/
structure Visited (insn insn' : IRInstruction) (constants constants' : ConstantMap) : Prop where
  type : insn'.type = insn.type
  irBlock : insn'.irBlock = insn.irBlock
  moved : insn.type = .mov → (insn.operand 1).isVreg = true
  entry : ∀ v, constants' v = entryAfter insn v (constants v)
  operands : ∀ k, insn'.operands[k]? = insn.operands[k]?.map fun o =>
    if direction insn.type k = .i ∧ o.isVreg = true ∧
        overwrites (insn.directed.take k) o.getVregIdx = false then
      (constants o.getVregIdx).getD o
    else o

theorem direction_mov {k : Nat} (h : direction .mov k = .i) : k = 0 := by
  match k with
  | 0 => rfl
  | 1 => simp [direction, format] at h
  | k + 2 => simp [direction, format] at h

theorem direction_arithmetic {type : IRInstructionType} (hType : type = .add ∨ type = .sub)
    {k : Nat} (h : direction type k = .i) : k = 0 := by
  match k with
  | 0 => rfl
  | 1 => rcases hType with rfl | rfl <;> simp [direction, format] at h
  | k + 2 => rcases hType with rfl | rfl <;> simp [direction, format] at h

theorem visited_of_visit {insn insn' : IRInstruction} {constants constants' : ConstantMap}
    (h : visit insn constants = some (insn', constants')) : Visited insn insn' constants constants' := by
  unfold visit at h
  split at h
  · cases h
  rename_i hMov
  have hMoved : insn.type = .mov → (insn.operand 1).isVreg = true := by
    intro hType
    by_contra hVreg
    exact hMov ⟨hType, hVreg⟩
  split at h
  · rename_i hConstantMov
    have hMovType : insn.type = .mov ∧ (insn.operand 0).isConstant = true := by
      simpa [isConstantMov] using hConstantMov
    simp only [Option.some.injEq, Prod.mk.injEq] at h
    obtain ⟨rfl, rfl⟩ := h
    refine ⟨rfl, rfl, hMoved, ?_, ?_⟩
    · intro v
      simp only [entryAfter, hConstantMov, if_true]
      by_cases hKey : (insn.operand 1).getVregIdx = v
      · simp [hKey]
      · simp [hKey, Function.update_of_ne (Ne.symm hKey)]
    · intro k
      cases hGet : insn.operands[k]? with
      | none => rfl
      | some o =>
        have hNot : ¬ (direction insn.type k = .i ∧ o.isVreg = true ∧
            overwrites (insn.directed.take k) o.getVregIdx = false) := by
          rintro ⟨hDir, hVreg, -⟩
          rw [hMovType.1] at hDir
          have hk := direction_mov hDir
          subst hk
          rw [← operand_getElem? hGet, isVreg_of_isConstant hMovType.2] at hVreg
          cases hVreg
        simp only [Option.map_some, if_neg hNot]
  · rename_i hConstantMov
    split at h
    · cases h
    rename_i hArithmetic
    simp only [Option.some.injEq, Prod.mk.injEq] at h
    obtain ⟨rfl, rfl⟩ := h
    refine ⟨rfl, rfl, hMoved, ?_, ?_⟩
    · intro v
      rw [rewriteOperands_constants, entryAfter, if_neg hConstantMov]
      rcases trackArithmetic_cases insn constants with hSame | ⟨hType, -, hElse⟩
      · rw [hSame]
      · have hVreg : (insn.operand 1).isVreg = true := by
          by_contra hVreg
          exact hArithmetic ⟨hType, hVreg⟩
        have hDir : direction insn.type 1 ≠ .i := by rcases hType with hType | hType <;> rw [hType] <;> decide
        by_cases hKey : v = (insn.operand 1).getVregIdx
        · rw [hKey, overwrites_of_operand hDir hVreg]
          rfl
        · rw [hElse v hKey]
    · intro k
      rw [rewriteOperands_getElem?, directed_getElem?, Option.map_map]
      cases hGet : insn.operands[k]? with
      | none => rfl
      | some o =>
        simp only [Option.map_some, Function.comp_apply, Option.some.injEq]
        by_cases hUse : direction insn.type k = .i ∧ o.isVreg = true ∧
            overwrites (insn.directed.take k) o.getVregIdx = false
        · rw [if_pos hUse, if_pos hUse]
          rcases trackArithmetic_cases insn constants with hSame | ⟨hType, hConstant, -⟩
          · rw [hSame]
          · have hk := direction_arithmetic hType hUse.1
            subst hk
            rw [← operand_getElem? hGet, isVreg_of_isConstant hConstant] at hUse
            exact absurd hUse.2.1 (by decide)
        · rw [if_neg hUse, if_neg hUse]

/-- The map holds exactly the reaching constants of the block scanned last. -/
def Tracks (earlier : List IRInstruction) (prevBlock : Nat) (constants : ConstantMap) : Prop :=
  ∀ block v, (if block = prevBlock then constants v else none) =
    (reachingMov block v earlier).map (·.operand 0)

theorem Tracks.nil : Tracks [] 0 fun _ => none := by
  intro block v
  simp [reachingMov]

variable {earlier : List IRInstruction}

theorem Tracks.nop {prevBlock : Nat} {constants : ConstantMap} (h : Tracks earlier prevBlock constants)
    {insn : IRInstruction} (hNop : insn.irBlock = nopBlock) : Tracks (insn :: earlier) prevBlock constants := by
  intro block v
  rw [reachingMov, if_pos hNop]
  exact h block v

/-- Entering an instruction clears the map exactly when its block differs. -/
theorem Tracks.enter {prevBlock : Nat} {constants : ConstantMap} (h : Tracks earlier prevBlock constants)
    (block v : Nat) :
    (if prevBlock ≠ block then fun _ => none else constants) v = (reachingMov block v earlier).map (·.operand 0) := by
  rw [← h block v]
  rcases eq_or_ne prevBlock block with rfl | hNe
  · simp
  · simp [hNe, hNe.symm]

theorem Tracks.visit {insn insn' : IRInstruction} {constants constants' : ConstantMap}
    (hVisited : Visited insn insn' constants constants') (hNop : insn.irBlock ≠ nopBlock)
    (hEnter : ∀ v, constants v = (reachingMov insn.irBlock v earlier).map (·.operand 0)) :
    Tracks (insn :: earlier) insn.irBlock constants' := by
  intro block v
  rw [reachingMov, if_neg hNop]
  rcases eq_or_ne block insn.irBlock with rfl | hNe
  · rw [if_pos rfl, if_neg (by simp), hVisited.entry v, entryAfter, hEnter v]
    cases isConstantMov insn with
    | true =>
      rcases eq_or_ne (insn.operand 1).getVregIdx v with hKey | hKey
      · simp [hKey]
      · simp [hKey]
    | false =>
      cases overwrites insn.directed v with
      | true => rfl
      | false => rfl
  · rw [if_neg hNe, if_pos hNe.symm]
    rfl

theorem isConstantMov_of_reachingMov {block v : Nat} {mov : IRInstruction}
    (h : reachingMov block v earlier = some mov) : isConstantMov mov = true := by
  induction earlier with
  | nil => cases h
  | cons insn earlier ih =>
    rw [reachingMov] at h
    split at h
    · exact ih h
    split at h
    · cases h
    split at h
    · rename_i hMov
      split at h
      · cases h
        exact hMov
      · exact ih h
    split at h
    · cases h
    · exact ih h

/-! ### Values held by the reaching constants -/

section Values
variable {W : Type} {host : Host W}

/-- Every register a constant reaches holds that constant, cut to the width it
was moved at. -/
def Holds (earlier : List IRInstruction) (block : Nat) (s : State Nat W) : Prop :=
  ∀ v mov, reachingMov block v earlier = some mov →
    s.cells v = literal (mov.operand 0) % 2 ^ bits (mov.operand 1).size

theorem Holds.nil (block : Nat) (s : State Nat W) : Holds [] block s := by
  intro v mov h
  cases h

/-- A constant `MOV` leaves its constant in the register it names. -/
theorem step_constantMov_cells {insn : IRInstruction} (s : State Nat W)
    (hMov : isConstantMov insn = true) (hVreg : (insn.operand 1).isVreg = true) :
    (step host IROperand.getVregIdx insn s).state.cells (insn.operand 1).getVregIdx =
      literal (insn.operand 0) % 2 ^ bits (insn.operand 1).size := by
  have hParts : insn.type = .mov ∧ (insn.operand 0).isConstant = true := by simpa [isConstantMov] using hMov
  have hFirst : (args host.pcOffset IROperand.getVregIdx insn s)[0]? =
      some ⟨literal (insn.operand 0), (insn.operand 0).size⟩ := by
    rw [args_getElem?]
    cases hGet : insn.operands[0]? with
    | none =>
      have hNone : insn.operand 0 = .none := by simp [IRInstruction.operand, List.getD, hGet]
      rw [hNone] at hParts
      exact absurd hParts.2 (by decide)
    | some o =>
      rw [operand_getElem? hGet, Option.map_some] at *
      rw [readOperand_constant _ _ _ _ hParts.2]
  cases hArgs : args host.pcOffset IROperand.getVregIdx insn s with
  | nil => simp [hArgs] at hFirst
  | cons first rest =>
    have hHead : first = ⟨literal (insn.operand 0), (insn.operand 0).size⟩ := by simpa [hArgs] using hFirst
    have hClass : classify insn.type = .value := by rw [hParts.1]; rfl
    rw [step_of_value s hClass]
    simp only [hArgs, writeOutput, output_mov hParts.1 hVreg, Function.update_self, hParts.1, result, hHead]

theorem Holds.step {earlier : List IRInstruction} {insn : IRInstruction} {s : State Nat W}
    (h : Holds earlier insn.irBlock s) (hNop : insn.irBlock ≠ nopBlock)
    (hMoved : insn.type = .mov → (insn.operand 1).isVreg = true) :
    Holds (insn :: earlier) insn.irBlock (step host IROperand.getVregIdx insn s).state := by
  intro v mov hReach
  rw [reachingMov, if_neg hNop, if_neg (by simp)] at hReach
  split at hReach
  · rename_i hMov
    have hType : insn.type = .mov := by
      simp only [isConstantMov, decide_eq_true_eq] at hMov
      exact hMov.1
    split at hReach
    · rename_i hKey
      cases hReach
      rw [← hKey]
      exact step_constantMov_cells s hMov (hMoved hType)
    · rename_i hKey
      rw [step_cells]
      · exact h v mov hReach
      · intro o hOut
        rw [output_mov hType (hMoved hType), Option.some.injEq] at hOut
        exact hOut ▸ hKey
  · split at hReach
    · cases hReach
    · rename_i hKept
      rw [step_cells]
      · exact h v mov hReach
      · intro o hOut hKey
        obtain ⟨d, hMem, hDir, hVreg⟩ := output_mem hOut
        apply hKept
        rw [overwrites, List.any_eq_true]
        exact ⟨(d, o), hMem, by simp [isOutput_ne_i hDir, hVreg, hKey]⟩

end Values

/-! ### Replacement and width -/

section Main
variable {W : Type} {host : Host W} {earlier : List IRInstruction} {s : State Nat W}

/-- The rewritten instruction reads what the original reads exactly when the
widths agree. -/
theorem args_eq_iff {insn insn' : IRInstruction} {constants constants' : ConstantMap}
    (hVisited : Visited insn insn' constants constants')
    (hEnter : ∀ v, constants v = (reachingMov insn.irBlock v earlier).map (·.operand 0))
    (hHolds : Holds earlier insn.irBlock s) (pcOffset : Nat) :
    args pcOffset IROperand.getVregIdx insn s = args pcOffset IROperand.getVregIdx insn' s ↔
      WidthsAgreeAt earlier insn := by
  have hReplaced : ∀ k o mov, insn.directed[k]? = some (.i, o) → o.isVreg = true →
      overwrites (insn.directed.take k) o.getVregIdx = false →
      reachingMov insn.irBlock o.getVregIdx earlier = some mov →
      (args pcOffset IROperand.getVregIdx insn s)[k]? =
          some ⟨literal (mov.operand 0) % 2 ^ bits (mov.operand 1).size % 2 ^ bits o.size, o.size⟩ ∧
        (args pcOffset IROperand.getVregIdx insn' s)[k]? = some ⟨literal (mov.operand 0), (mov.operand 0).size⟩ := by
    intro k o mov hGet hVreg hKept hReach
    rw [directed_getElem?, Option.map_eq_some_iff] at hGet
    obtain ⟨o', hOperand, hPair⟩ := hGet
    simp only [Prod.mk.injEq] at hPair
    obtain ⟨hDir, rfl⟩ := hPair
    have hConstant : (mov.operand 0).isConstant = true := by
      have hMov := isConstantMov_of_reachingMov hReach
      simp only [isConstantMov, decide_eq_true_eq] at hMov
      exact hMov.2
    rw [args_getElem?, args_getElem?, hVisited.operands k, hVisited.type, hOperand, hDir]
    refine ⟨?_, ?_⟩
    · simp [readOperand, hVreg, isInput, hHolds _ _ hReach]
    · simp only [Option.map_some, hVreg, hKept, and_self, if_true, hEnter, hReach,
        Option.getD_some, readOperand_constant _ _ _ _ hConstant]
  constructor
  · intro hArgs k o mov hGet hVreg hKept hReach
    obtain ⟨hOld, hNew⟩ := hReplaced k o mov hGet hVreg hKept hReach
    rw [hArgs, hNew] at hOld
    simp only [Option.some.injEq, Word.mk.injEq] at hOld
    refine ⟨hOld.2.symm, ?_⟩
    calc literal (mov.operand 0)
        ≤ literal (mov.operand 0) % 2 ^ bits (mov.operand 1).size := by
          conv_lhs => rw [hOld.1]
          exact Nat.mod_le _ _
      _ < 2 ^ bits (mov.operand 1).size := Nat.mod_lt _ (by positivity)
  · intro hWidths
    apply List.ext_getElem?
    intro k
    rw [args_getElem?, args_getElem?, hVisited.operands k, hVisited.type, Option.map_map]
    cases hOperand : insn.operands[k]? with
    | none => rfl
    | some o =>
      simp only [Option.map_some, Function.comp_apply, Option.some.injEq]
      split
      · rename_i hUse
        have hGet : insn.directed[k]? = some (.i, o) := by rw [directed_getElem?, hOperand, Option.map_some, hUse.1]
        cases hReach : reachingMov insn.irBlock o.getVregIdx earlier with
        | none => rw [hEnter, hReach, Option.map_none, Option.getD_none]
        | some mov =>
          obtain ⟨hOld, hNew⟩ := hReplaced k o mov hGet hUse.2.1 hUse.2.2 hReach
          obtain ⟨hSize, hFits⟩ := hWidths k o mov hGet hUse.2.1 hUse.2.2 hReach
          have hLiteral : literal (mov.operand 0) < 2 ^ bits (mov.operand 0).size := by
            have hMov := isConstantMov_of_reachingMov hReach
            simp only [isConstantMov, IROperand.isConstant, decide_eq_true_eq] at hMov
            simp only [literal, hMov.2]
            exact Nat.mod_lt _ (by positivity)
          rw [Nat.mod_eq_of_lt hFits, hSize, Nat.mod_eq_of_lt hLiteral, ← hNew] at hOld
          rw [args_getElem?, args_getElem?, hVisited.operands k, hVisited.type, hOperand] at hOld
          simpa [hUse] using hOld
      · rfl

theorem step_eq_of_args {insn insn' : IRInstruction} {constants constants' : ConstantMap}
    (hVisited : Visited insn insn' constants constants')
    (hArgs : args host.pcOffset IROperand.getVregIdx insn s = args host.pcOffset IROperand.getVregIdx insn' s) :
    step host IROperand.getVregIdx insn s = step host IROperand.getVregIdx insn' s := by
  have hSame : ∀ k, direction insn.type k ≠ .i → insn'.operands[k]? = insn.operands[k]? := by
    intro k hDir
    rw [hVisited.operands k]
    simp [hDir]
  apply step_congr hVisited.type.symm hArgs
  · apply (output_congr hVisited.type ?_ ?_).symm
    · have hLength := congrArg List.length hArgs
      simpa [args, IRInstruction.directed] using hLength.symm
    · intro k hOut
      exact hSame k (isOutput_ne_i hOut)
  · intro k hDir
    simp [IRInstruction.operand, List.getD, hSame k (by simp [hDir])]

/-- Widths agree at every reached instruction of `block` in `rest`, which
follows `earlier` in the buffer. -/
def WidthsAgreeIn (block : Nat) (earlier rest : List IRInstruction) : Prop :=
  ∀ before use after, rest = before ++ use :: after → use.irBlock = block →
    Reached block (before.reverse ++ earlier) → WidthsAgreeAt (before.reverse ++ earlier) use

variable {block : Nat} {insn : IRInstruction}

theorem WidthsAgreeIn.tail {earlier rest : List IRInstruction} (h : WidthsAgreeIn block earlier (insn :: rest)) :
    WidthsAgreeIn block (insn :: earlier) rest := by
  intro before use after hRest hBlock hReached
  have hHere := h (insn :: before) use after (by rw [hRest, List.cons_append]) hBlock
  simp only [List.reverse_cons, List.append_assoc, List.singleton_append] at hHere
  exact hHere hReached

theorem WidthsAgreeIn.of_tail {earlier rest : List IRInstruction}
    (hHead : insn.irBlock = block → Reached block earlier → WidthsAgreeAt earlier insn)
    (hTail : WidthsAgreeIn block (insn :: earlier) rest) : WidthsAgreeIn block earlier (insn :: rest) := by
  intro before use after hRest hBlock hReached
  cases before with
  | nil =>
    simp only [List.nil_append, List.cons.injEq] at hRest
    obtain ⟨rfl, -⟩ := hRest
    exact hHead hBlock hReached
  | cons first before =>
    simp only [List.cons_append, List.cons.injEq] at hRest
    obtain ⟨rfl, hRest⟩ := hRest
    simp only [List.reverse_cons, List.append_assoc, List.singleton_append] at hReached ⊢
    exact hTail before use after hRest hBlock hReached

/-- Inversion of one scan step at an instruction that is still in a block. -/
theorem scan_cons {rest out : List IRInstruction} {prevBlock : Nat} {constants : ConstantMap}
    (hScan : scan (insn :: rest) prevBlock constants = some out) (hTracks : Tracks earlier prevBlock constants)
    (hNop : insn.irBlock ≠ nopBlock) :
    ∃ insn' rest' entered constants', out = insn' :: rest' ∧ Visited insn insn' entered constants' ∧
      (∀ v, entered v = (reachingMov insn.irBlock v earlier).map (·.operand 0)) ∧
      scan rest insn.irBlock constants' = some rest' ∧ Tracks (insn :: earlier) insn.irBlock constants' := by
  rw [scan, if_neg hNop, Option.bind_eq_some_iff] at hScan
  obtain ⟨⟨insn', constants'⟩, hVisit, hScan⟩ := hScan
  rw [Option.map_eq_some_iff] at hScan
  obtain ⟨rest', hRest, rfl⟩ := hScan
  have hVisited := visited_of_visit hVisit
  have hEnter := hTracks.enter insn.irBlock
  exact ⟨insn', rest', _, constants', rfl, hVisited, hEnter, hRest, Tracks.visit hVisited hNop hEnter⟩

theorem scan_cons_nop {rest out : List IRInstruction} {prevBlock : Nat} {constants : ConstantMap}
    (hScan : scan (insn :: rest) prevBlock constants = some out) (hNop : insn.irBlock = nopBlock) :
    ∃ rest', out = insn :: rest' ∧ scan rest prevBlock constants = some rest' := by
  rw [scan, if_pos hNop, Option.map_eq_some_iff] at hScan
  obtain ⟨rest', hRest, rfl⟩ := hScan
  exact ⟨rest', rfl, hRest⟩

theorem Holds.nop (h : Holds earlier block s) (hNop : insn.irBlock = nopBlock) : Holds (insn :: earlier) block s := by
  intro v mov hReach
  rw [reachingMov, if_pos hNop] at hReach
  exact h v mov hReach

/-- Nothing reaches across an instruction of another block. -/
theorem Holds.other (hNop : insn.irBlock ≠ nopBlock) (hBlock : insn.irBlock ≠ block) (s : State Nat W) :
    Holds (insn :: earlier) block s := by
  intro v mov hReach
  rw [reachingMov, if_neg hNop, if_pos hBlock] at hReach
  cases hReach

/-- The invariant carried through a block: the map tracks the reaching constants
and the registers hold them. -/
theorem execBlock_eq_of_widths (hLive : block ≠ nopBlock) (rest : List IRInstruction) :
    ∀ {earlier out : List IRInstruction} {prevBlock : Nat} {constants : ConstantMap}
      {s : State Nat W}, scan rest prevBlock constants = some out →
      Tracks earlier prevBlock constants → Holds earlier block s → Reached block earlier →
      WidthsAgreeIn block earlier rest → execBlock (step host IROperand.getVregIdx) (codeOf block rest) s =
        execBlock (step host IROperand.getVregIdx) (codeOf block out) s := by
  induction rest with
  | nil =>
    intro earlier out prevBlock constants s hScan _ _ _ _
    cases hScan
    rfl
  | cons insn rest ih =>
    intro earlier out prevBlock constants s hScan hTracks hHolds hReached hWidths
    by_cases hNop : insn.irBlock = nopBlock
    · obtain ⟨rest', rfl, hRest⟩ := scan_cons_nop hScan hNop
      rw [codeOf_cons_of_nop hNop, codeOf_cons_of_nop hNop]
      exact ih hRest (hTracks.nop hNop) (hHolds.nop hNop)
        (hReached.cons fun hBlock => absurd (hBlock.symm.trans hNop) hLive) hWidths.tail
    obtain ⟨insn', rest', entered, constants', rfl, hVisited, hEnter, hRest, hTracks'⟩ := scan_cons hScan hTracks hNop
    by_cases hBlock : insn.irBlock = block
    · subst hBlock
      have hAgree := hWidths [] insn rest rfl rfl hReached
      have hArgs := (args_eq_iff hVisited hEnter hHolds host.pcOffset).mpr hAgree
      rw [codeOf_cons_self rfl hNop, codeOf_cons_self hVisited.irBlock (hVisited.irBlock.symm ▸ hNop)]
      refine execBlock_cons_congr (step_eq_of_args hVisited hArgs) fun hFall => ?_
      have hStraight : isTerminator insn.type = false := by
        by_contra hTerminator
        exact step_next_of_terminator (Bool.eq_true_of_not_eq_false hTerminator) hFall
      exact ih hRest hTracks' (hHolds.step hNop hVisited.moved) (hReached.cons fun _ => hStraight) hWidths.tail
    · rw [codeOf_cons_of_ne hBlock, codeOf_cons_of_ne (hVisited.irBlock.symm ▸ hBlock)]
      exact ih hRest hTracks' (Holds.other hNop hBlock s) (hReached.cons fun hEq => absurd hEq hBlock) hWidths.tail

/-- Under a host whose helpers always return, equal executions force the widths
to agree wherever control gets. -/
theorem widths_of_execBlock_eq (hLive : block ≠ nopBlock)
    (hHost : ∀ type a regs world, (host.external type a regs world).halts = false) (rest : List IRInstruction) :
    ∀ {earlier out : List IRInstruction} {prevBlock : Nat} {constants : ConstantMap}
      {s : State Nat W}, scan rest prevBlock constants = some out →
      Tracks earlier prevBlock constants → Holds earlier block s →
      execBlock (step host IROperand.getVregIdx) (codeOf block rest) s =
        execBlock (step host IROperand.getVregIdx) (codeOf block out) s → WidthsAgreeIn block earlier rest := by
  induction rest with
  | nil =>
    intro earlier out prevBlock constants s _ _ _ _ before use after hRest
    simp at hRest
  | cons insn rest ih =>
    intro earlier out prevBlock constants s hScan hTracks hHolds hExec
    by_cases hNop : insn.irBlock = nopBlock
    · obtain ⟨rest', rfl, hRest⟩ := scan_cons_nop hScan hNop
      rw [codeOf_cons_of_nop hNop, codeOf_cons_of_nop hNop] at hExec
      exact .of_tail (fun hBlock => absurd (hBlock.symm.trans hNop) hLive)
        (ih hRest (hTracks.nop hNop) (hHolds.nop hNop) hExec)
    obtain ⟨insn', rest', entered, constants', rfl, hVisited, hEnter, hRest, hTracks'⟩ := scan_cons hScan hTracks hNop
    by_cases hBlock : insn.irBlock = block
    · subst hBlock
      rw [codeOf_cons_self rfl hNop, codeOf_cons_self hVisited.irBlock (hVisited.irBlock.symm ▸ hNop)] at hExec
      obtain ⟨hArgs, hAfter⟩ := execBlock_cons_inv hExec
      have hAgree := (args_eq_iff hVisited hEnter hHolds host.pcOffset).mp hArgs
      refine .of_tail (fun _ _ => hAgree) ?_
      cases hTerminator : isTerminator insn.type with
      | true =>
        -- nothing after a terminator of the block is reached
        intro before use after _ _ hReached
        have hInsn := hReached insn (by simp) rfl
        rw [hTerminator] at hInsn
        cases hInsn
      | false =>
        exact ih hRest hTracks' (hHolds.step hNop hVisited.moved)
          (hAfter (step_eq_of_args hVisited hArgs) (step_next_of_not_terminator hHost hTerminator))
    · rw [codeOf_cons_of_ne hBlock, codeOf_cons_of_ne (hVisited.irBlock.symm ▸ hBlock)] at hExec
      exact .of_tail (fun hEq => absurd hEq hBlock) (ih hRest hTracks' (Holds.other hNop hBlock s) hExec)

end Main

theorem widthsAgree_iff (insns : List IRInstruction) :
    WidthsAgree insns ↔ ∀ block, block ≠ nopBlock → WidthsAgreeIn block [] insns := by
  have hMem : ∀ block (before : List IRInstruction), Reached block before ↔ Reached block (before.reverse ++ []) := by
    intro block before
    simp [Reached]
  constructor
  · intro h block hLive before use after hSplit hBlock hReached
    subst hBlock
    rw [← hMem] at hReached
    simpa using h before use after hSplit hLive hReached
  · intro h before use after hSplit hLive hReached
    rw [hMem] at hReached
    simpa using h use.irBlock hLive before use after hSplit rfl hReached

/-- Constant propagation keeps the meaning of exactly those buffers in which
every use a constant reaches has the constant's width. -/
theorem sameMeaning_iff {ctx ctx' : TranslationContext} (h : apply ctx = some ctx') :
    SameMeaning ctx ctx' ↔ WidthsAgree ctx.insns := by
  rw [apply, Option.map_eq_some_iff] at h
  obtain ⟨out, hScan, rfl⟩ := h
  rw [widthsAgree_iff]
  constructor
  · intro hSame block hLive
    exact widths_of_execBlock_eq hLive (fun _ _ _ _ => rfl) ctx.insns hScan Tracks.nil
      (Holds.nil block _) (hSame Unit (idleHost 0) block ⟨fun _ => 0, fun _ => 0, ()⟩)
  · intro hWidths W host block s
    rcases eq_or_ne block nopBlock with rfl | hLive
    · have hEmpty : ∀ insns, codeOf nopBlock insns = [] := by
        intro insns
        simp [codeOf]
      simp only [TranslationContext.code, hEmpty]
    · exact execBlock_eq_of_widths hLive ctx.insns hScan Tracks.nil (Holds.nil block s)
        (fun insn hMem => absurd hMem (by simp)) (hWidths block hLive)

/-- A register-file write of an 8-byte register after a `MOV` of a constant, as
the peephole rewriting of a full shift leaves it when `size` is 1. -/
def storedConstant (size : Nat) : TranslationContext where
  insns := [⟨.mov, [.constant 0 size, .vreg 0 8], 0⟩,
    ⟨.writeReg, [.vreg 0 8, .constant 16 4], 0⟩, ⟨.ret, [], 0⟩]
  regCount := 1
  blockCount := 1

theorem sameMeaning_storedConstant :
    ∃ ctx', apply (storedConstant 8) = some ctx' ∧ ctx' ≠ storedConstant 8 ∧
      SameMeaning (storedConstant 8) ctx' := by
  refine ⟨_, rfl, by decide, (sameMeaning_iff rfl).mpr ?_⟩
  intro before use after hSplit _ _ k o mov hGet hVreg _ hReach
  rcases before with _ | ⟨first, _ | ⟨second, before⟩⟩
  · cases hReach
  · simp only [storedConstant, List.cons_append, List.nil_append, List.cons.injEq] at hSplit
    obtain ⟨rfl, rfl, rfl⟩ := hSplit
    rcases k with _ | _ | k
    · cases hGet
      cases hReach
      decide
    · cases hGet
      cases hVreg
    · cases hGet
  · rcases before with _ | ⟨third, before⟩
    · simp only [storedConstant, List.cons_append, List.nil_append, List.cons.injEq] at hSplit
      obtain ⟨-, -, rfl, -⟩ := hSplit
      cases hGet
    · simp [storedConstant] at hSplit

/-- The 1-byte constant replaces the 8-byte register, so only one byte of the
register file is written. -/
theorem storedConstant_changes_meaning :
    ∃ ctx', apply (storedConstant 1) = some ctx' ∧ ¬ SameMeaning (storedConstant 1) ctx' := by
  refine ⟨_, rfl, ?_⟩
  intro hSame
  have hRun := hSame Unit (idleHost 0) 0 ⟨fun _ => 0, fun _ => 255, ()⟩
  have hByte := congrArg (fun o => o.state.regs 17) hRun
  exact absurd hByte (by decide)

end Gensim.BlockJIT.ConstantProp
