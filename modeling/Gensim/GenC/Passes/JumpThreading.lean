import Gensim.GenC.Run
import Gensim.Lib.Acyclic

/-! `JumpThreadingPass`: control flow to a block that only jumps on goes to that jump's target. The pass
manager repeats the pass for as long as it reports a change. -/
namespace Gensim.GenC

variable {A : Arch}

/-- Put another control flow statement at the end of a block. -/
def Action.setControlFlow (a : Action A) (b : BlockId) (stmt : Statement A) (kind : Kind A) :
    Action A :=
  { a with body := Function.update a.body b ((a.body b).dropLast ++ [{ stmt with kind := kind }]) }

/-- Replace blocks among the operands. -/
def Kind.retarget (f : BlockId → BlockId) : Kind A → Kind A
  | .jump target => .jump (f target)
  | .branch expr trueTarget falseTarget => .branch expr (f trueTarget) (f falseTarget)
  | .switch expr default values =>
      .switch expr (f default) (values.map fun entry => (entry.1, entry.2.1, f entry.2.2))
  | kind => kind

namespace JumpThreading

/-- The targets of a switch are collected in a set. -/
def getTargets (order : AddressOrder) (kind : Kind A) : List BlockId :=
  match kind with
  | .switch _ _ _ => order.sort kind.targets
  | kind => kind.targets

/-- Where a target leads that starts with a jump. -/
def jumpTarget (a : Action A) (target : BlockId) : Option BlockId :=
  match (a.body target).head?.map Statement.kind with
  | some (.jump t) => some t
  | _ => none

def replaceTarget (target t c : BlockId) : BlockId := if c = target then t else c

def threadTarget (b : BlockId) (a : Action A) (target : BlockId) : Action A :=
  match jumpTarget a target, a.getControlFlow b with
  | some t, some stmt => a.setControlFlow b stmt (stmt.kind.retarget (replaceTarget target t))
  | _, _ => a

/-- A change is reported whenever a target starts with a jump. -/
def tryThreadJump (order : AddressOrder) (state : Action A × Bool) (b : BlockId) : Action A × Bool :=
  match state.1.getControlFlow b with
  | some stmt => (getTargets order stmt.kind).foldl
      (fun state target => (threadTarget b state.1 target, state.2 || (jumpTarget state.1 target).isSome)) state
  | none => state

def run (order : AddressOrder) (a : Action A) : Action A × Bool :=
  a.blocks.foldl (tryThreadJump order) (a, false)

/-- `while(i->Run(action))` in `SSAPassManager::Run`, for at most `fuel` runs. -/
def repeatRun (order : AddressOrder) : Nat → Action A → Option (Action A)
  | 0, _ => none
  | fuel + 1, a => if (run order a).2 then repeatRun order fuel (run order a).1 else some (run order a).1

def Terminates (order : AddressOrder) (a : Action A) : Prop := ∃ fuel, (repeatRun order fuel a).isSome = true

/-! ### One replacement -/

section Thread

variable {a : Action A} {b c target : BlockId}

theorem mem_targets_retarget {f : BlockId → BlockId} {kind : Kind A} :
    c ∈ (kind.retarget f).targets ↔ ∃ d ∈ kind.targets, f d = c := by
  cases kind with
  | jump d => simp [Kind.retarget, Kind.targets, eq_comm]
  | branch expr d e => simp [Kind.retarget, Kind.targets, List.mem_dedup, eq_comm]
  | switch expr default values =>
    simp only [Kind.retarget, Kind.targets, List.mem_dedup, List.mem_cons, List.map_map, List.mem_map,
      Function.comp_def, exists_eq_or_imp]
    constructor
    · rintro (rfl | ⟨entry, hEntry, rfl⟩)
      · exact Or.inl rfl
      · exact Or.inr ⟨entry.2.2, ⟨entry, hEntry, rfl⟩, rfl⟩
    · rintro (rfl | ⟨d, ⟨entry, hEntry, rfl⟩, rfl⟩)
      · exact Or.inl rfl
      · exact Or.inr ⟨entry, hEntry, rfl⟩
  | _ => simp [Kind.retarget, Kind.targets]

theorem isControlFlow_retarget {f : BlockId → BlockId} {kind : Kind A} :
    (kind.retarget f).isControlFlow = kind.isControlFlow := by
  cases kind <;> rfl

theorem getControlFlow_eq_some {stmt : Statement A} (h : a.getControlFlow b = some stmt) :
    a.body b = (a.body b).dropLast ++ [stmt] ∧ stmt.kind.isControlFlow = true := by
  obtain ⟨hLast, hFlow⟩ := Option.filter_eq_some_iff.mp h
  exact ⟨(List.dropLast_append_getLast? stmt hLast).symm, hFlow⟩

theorem threadTarget_eq {stmt : Statement A} {t : BlockId} (hJump : jumpTarget a target = some t)
    (hFlow : a.getControlFlow b = some stmt) :
    threadTarget b a target = a.setControlFlow b stmt (stmt.kind.retarget (replaceTarget target t)) := by
  rw [threadTarget, hJump, hFlow]

theorem threadTarget_of_none (h : jumpTarget a target = none ∨ a.getControlFlow b = none) :
    threadTarget b a target = a := by
  rw [threadTarget]
  rcases h with h | h <;> rw [h]
  cases jumpTarget a target <;> rfl

theorem blocks_threadTarget : (threadTarget b a target).blocks = a.blocks := by
  rw [threadTarget]
  split <;> rfl

theorem body_threadTarget (hNe : c ≠ b) : (threadTarget b a target).body c = a.body c := by
  rw [threadTarget]
  split
  · exact Function.update_of_ne hNe _ _
  · rfl

theorem jumpTarget_threadTarget (hNe : c ≠ b) : jumpTarget (threadTarget b a target) c = jumpTarget a c := by
  rw [jumpTarget, body_threadTarget hNe, jumpTarget]

theorem getSuccessors_threadTarget (hNe : c ≠ b) : (threadTarget b a target).getSuccessors c = a.getSuccessors c := by
  rw [Action.getSuccessors, Action.getControlFlow, body_threadTarget hNe, Action.getSuccessors, Action.getControlFlow]

/-- The block goes to what its targets are replaced by. -/
theorem mem_getSuccessors_threadTarget {t : BlockId} (hJump : jumpTarget a target = some t) :
    c ∈ (threadTarget b a target).getSuccessors b ↔ ∃ d ∈ a.getSuccessors b, replaceTarget target t d = c := by
  cases hFlow : a.getControlFlow b with
  | none => simp [threadTarget_of_none (Or.inr hFlow), Action.getSuccessors, hFlow]
  | some stmt =>
    have hControl := (getControlFlow_eq_some hFlow).2
    have hNew : (threadTarget b a target).getControlFlow b =
        some { stmt with kind := stmt.kind.retarget (replaceTarget target t) } := by
      rw [threadTarget_eq hJump hFlow, Action.getControlFlow, Action.setControlFlow]
      simp [Option.filter, isControlFlow_retarget, hControl]
    rw [Action.getSuccessors, hNew, Action.getSuccessors, hFlow]
    exact mem_targets_retarget

/-- Where the block leads if it is a jump itself. -/
theorem jumpTarget_threadTarget_self {t : BlockId} (hJump : jumpTarget a target = some t) :
    jumpTarget (threadTarget b a target) b = jumpTarget a b ∨
      jumpTarget (threadTarget b a target) b = (jumpTarget a b).map (replaceTarget target t) := by
  cases hFlow : a.getControlFlow b with
  | none => exact Or.inl (by rw [threadTarget_of_none (Or.inr hFlow)])
  | some stmt =>
    obtain ⟨hBody, -⟩ := getControlFlow_eq_some hFlow
    have hNew : (threadTarget b a target).body b = (a.body b).dropLast ++
        [{ stmt with kind := stmt.kind.retarget (replaceTarget target t) }] := by
      rw [threadTarget_eq hJump hFlow]
      exact Function.update_self _ _ _
    unfold jumpTarget at hNew ⊢
    rw [hNew]
    cases hFront : (a.body b).dropLast with
    | nil =>
      rw [hFront] at hBody
      rw [hBody]
      right
      cases hKind : stmt.kind <;> simp [hKind, Kind.retarget]
    | cons first front =>
      left
      rw [hBody, hFront]
      rfl

end Thread

/-! ### Chains that end -/

section Ranked

/-- A block that jumps leads to a block of lower rank. -/
structure Ranked (rank : BlockId → Nat) (a : Action A) : Prop where
  jumps : ∀ c ∈ a.blocks, ∀ d, jumpTarget a c = some d → d ∈ a.blocks ∧ rank d < rank c
  successors : ∀ c ∈ a.blocks, ∀ d ∈ a.getSuccessors c, d ∈ a.blocks

/-- The jumps that a block leads to have a rank below `k`, apart from those that are still to be replaced. -/
def Below (rank : BlockId → Nat) (k : Nat) (pending : List BlockId) (a : Action A) (b : BlockId) : Prop :=
  ∀ d ∈ a.getSuccessors b, (jumpTarget a d).isSome = true → rank d < k ∨ d ∈ pending ∧ rank d ≤ k

variable {rank : BlockId → Nat} {a : Action A} {b target : BlockId} {k : Nat} {pending : List BlockId}

theorem isSome_jumpTarget_threadTarget (c : BlockId) :
    (jumpTarget (threadTarget b a target) c).isSome = (jumpTarget a c).isSome := by
  by_cases hNe : c = b
  · subst hNe
    cases hJump : jumpTarget a target with
    | none => rw [threadTarget_of_none (Or.inl hJump)]
    | some t =>
      rcases @jumpTarget_threadTarget_self _ a c target t hJump with hSame | hMap
      · rw [hSame]
      · rw [hMap, Option.isSome_map]
  · rw [jumpTarget_threadTarget hNe]

theorem ranked_threadTarget (h : Ranked rank a) (hTarget : target ∈ a.blocks) :
    Ranked rank (threadTarget b a target) := by
  cases hJump : jumpTarget a target with
  | none => rwa [threadTarget_of_none (Or.inl hJump)]
  | some t =>
    obtain ⟨hMem, hLess⟩ := h.jumps target hTarget t hJump
    have hReplace : ∀ d, d ∈ a.blocks →
        replaceTarget target t d ∈ a.blocks ∧ rank (replaceTarget target t d) ≤ rank d := by
      intro d hd
      unfold replaceTarget
      split
      · rename_i hSame
        exact ⟨hMem, hSame ▸ hLess.le⟩
      · exact ⟨hd, le_rfl⟩
    refine ⟨fun c hc d hd => ?_, fun c hc d hd => ?_⟩ <;> rw [blocks_threadTarget] at hc ⊢
    · by_cases hNe : c = b
      · subst hNe
        rcases jumpTarget_threadTarget_self hJump with hSame | hMap
        · exact h.jumps c hc d (hSame ▸ hd)
        · obtain ⟨e, he, rfl⟩ := Option.map_eq_some_iff.mp (hMap ▸ hd)
          obtain ⟨hBlock, hRank⟩ := h.jumps c hc e he
          exact ⟨(hReplace e hBlock).1, (hReplace e hBlock).2.trans_lt hRank⟩
      · exact h.jumps c hc d (jumpTarget_threadTarget hNe ▸ hd)
    · by_cases hNe : c = b
      · subst hNe
        obtain ⟨e, he, rfl⟩ := (mem_getSuccessors_threadTarget hJump).mp hd
        exact (hReplace e (h.successors c hc e he)).1
      · exact h.successors c hc d (getSuccessors_threadTarget hNe ▸ hd)

/-- The target that is replaced is no longer pending. -/
theorem below_threadTarget (h : Ranked rank a) (hTarget : target ∈ a.blocks)
    (hBelow : Below rank k (target :: pending) a b) : Below rank k pending (threadTarget b a target) b := by
  intro d hd hSome
  rw [isSome_jumpTarget_threadTarget] at hSome
  cases hJump : jumpTarget a target with
  | none =>
    rw [threadTarget_of_none (Or.inl hJump)] at hd
    refine (hBelow d hd hSome).imp_right fun hPending => ⟨?_, hPending.2⟩
    refine (List.mem_cons.mp hPending.1).resolve_left fun hSame => ?_
    rw [hSame, hJump] at hSome
    exact nomatch hSome
  | some t =>
    obtain ⟨-, hLess⟩ := h.jumps target hTarget t hJump
    obtain ⟨e, he, rfl⟩ := (mem_getSuccessors_threadTarget hJump).mp hd
    by_cases hSame : e = target
    · subst hSame
      have hOld := hBelow e he (by rw [hJump]; rfl)
      rw [replaceTarget, if_pos rfl]
      left
      rcases hOld with hOld | ⟨-, hOld⟩ <;> omega
    · rw [replaceTarget, if_neg hSame] at hSome ⊢
      exact (hBelow e he hSome).imp_right fun hPending =>
        ⟨(List.mem_cons.mp hPending.1).resolve_left hSame, hPending.2⟩

theorem below_of_ne {c : BlockId} (hNe : c ≠ b) (hBelow : Below rank k pending a c) :
    Below rank k pending (threadTarget b a target) c := by
  intro d hd hSome
  rw [isSome_jumpTarget_threadTarget] at hSome
  exact hBelow d (getSuccessors_threadTarget hNe ▸ hd) hSome

theorem mem_getTargets {order : AddressOrder} {kind : Kind A} {d : BlockId} :
    d ∈ getTargets order kind ↔ d ∈ kind.targets := by
  unfold getTargets
  split
  · exact (order.perm _).mem_iff
  · rfl

/-- What the replacements for one block leave. -/
structure Threaded (rank : BlockId → Nat) (b : BlockId) (a a' : Action A) : Prop where
  ranked : Ranked rank a'
  blocks : a'.blocks = a.blocks
  others : ∀ c k, c ≠ b → Below rank k [] a c → Below rank k [] a' c

theorem threadTargets_spec {targets : List BlockId} {state : Action A × Bool} (h : Ranked rank state.1)
    (hTargets : ∀ d ∈ targets, d ∈ state.1.blocks) :
    let next := targets.foldl
      (fun state target => (threadTarget b state.1 target, state.2 || (jumpTarget state.1 target).isSome)) state
    Threaded rank b state.1 next.1 ∧ (Below rank k targets state.1 b → Below rank k [] next.1 b) := by
  induction targets generalizing state with
  | nil => exact ⟨⟨h, rfl, fun _ _ _ hBelow => hBelow⟩, id⟩
  | cons target rest ih =>
    have hHere := hTargets target List.mem_cons_self
    obtain ⟨hThreaded, hBelow⟩ := @ih (threadTarget b state.1 target, _) (ranked_threadTarget h hHere)
      (fun d hd => by rw [blocks_threadTarget]; exact hTargets d (List.mem_cons_of_mem _ hd))
    refine ⟨⟨hThreaded.ranked, hThreaded.blocks.trans blocks_threadTarget, ?_⟩, ?_⟩
    · exact fun c k hNe hOld => hThreaded.others c k hNe (below_of_ne hNe hOld)
    · exact fun hOld => hBelow (below_threadTarget h hHere hOld)

theorem tryThreadJump_spec (order : AddressOrder) {state : Action A × Bool} (h : Ranked rank state.1)
    (hBlock : b ∈ state.1.blocks) : Threaded rank b state.1 (tryThreadJump order state b).1 ∧
      (Below rank (k + 1) [] state.1 b → Below rank k [] (tryThreadJump order state b).1 b) := by
  have hSuccessors := h.successors b hBlock
  rw [tryThreadJump]
  cases hFlow : state.1.getControlFlow b with
  | none =>
    refine ⟨⟨h, rfl, fun _ _ _ hBelow => hBelow⟩, fun _ d hd _ => ?_⟩
    rw [Action.getSuccessors, hFlow] at hd
    exact absurd hd List.not_mem_nil
  | some stmt =>
    have hEq : state.1.getSuccessors b = stmt.kind.targets := by rw [Action.getSuccessors, hFlow]
    rw [hEq] at hSuccessors
    obtain ⟨hThreaded, hBelow⟩ := threadTargets_spec h fun d hd => hSuccessors d (mem_getTargets.mp hd)
    refine ⟨hThreaded, fun hOld => hBelow fun d hd hSome => ?_⟩
    have hPending : d ∈ getTargets order stmt.kind := mem_getTargets.mpr (hEq ▸ hd)
    rcases hOld d hd hSome with hLess | ⟨hNone, -⟩
    · exact Or.inr ⟨hPending, Nat.le_of_lt_succ hLess⟩
    · exact absurd hNone List.not_mem_nil

theorem Below.mono {c : BlockId} (h : Below rank k [] a c) : Below rank (k + 1) [] a c := fun d hd hSome =>
  (h d hd hSome).imp Nat.lt_succ_of_lt fun hNone => absurd hNone.1 List.not_mem_nil

/-- A run takes every jump to a lower rank. -/
theorem threadBlocks_spec (order : AddressOrder) {blocks : List BlockId} {state : Action A × Bool}
    (h : Ranked rank state.1) (hBlocks : ∀ b ∈ blocks, b ∈ state.1.blocks) :
    let next := blocks.foldl (tryThreadJump order) state
    Ranked rank next.1 ∧ next.1.blocks = state.1.blocks ∧
      (∀ c j, c ∉ blocks → Below rank j [] state.1 c → Below rank j [] next.1 c) ∧
      ∀ c ∈ blocks, Below rank (k + 1) [] state.1 c → Below rank k [] next.1 c := by
  induction blocks generalizing state with
  | nil => exact ⟨h, rfl, fun _ _ _ hBelow => hBelow, List.forall_mem_nil _⟩
  | cons b rest ih =>
    obtain ⟨hThreaded, hHere⟩ := tryThreadJump_spec order h (hBlocks b List.mem_cons_self)
    obtain ⟨hRanked, hSame, hOthers, hRest⟩ := @ih (tryThreadJump order state b) hThreaded.ranked
      fun c hc => hThreaded.blocks ▸ hBlocks c (List.mem_cons_of_mem _ hc)
    refine ⟨hRanked, hSame.trans hThreaded.blocks, fun c j hc hBelow => ?_, fun c hc hBelow => ?_⟩
    · rw [List.mem_cons, not_or] at hc
      exact hOthers c j hc.2 (hThreaded.others c j hc.1 hBelow)
    · by_cases hLater : c ∈ rest
      · refine hRest c hLater ?_
        by_cases hNe : c = b
        · subst hNe
          exact (hHere hBelow).mono
        · exact hThreaded.others c _ hNe hBelow
      · obtain rfl : c = b := (List.mem_cons.mp hc).resolve_right hLater
        exact hOthers c k hLater (hHere hBelow)

/-- Nothing is reported when no control flow leads to a jump. -/
theorem run_of_quiet (order : AddressOrder) (hQuiet : ∀ b ∈ a.blocks, Below rank 0 [] a b) :
    run order a = (a, false) := by
  have hNone : ∀ b ∈ a.blocks, ∀ d ∈ a.getSuccessors b, jumpTarget a d = none := by
    intro b hb d hd
    cases hJump : jumpTarget a d with
    | none => rfl
    | some t =>
      rcases hQuiet b hb d hd (by rw [hJump]; rfl) with hLess | hMem
      · exact absurd hLess (Nat.not_lt_zero _)
      · exact absurd hMem.1 List.not_mem_nil
  have hTargets : ∀ (b : BlockId) (targets : List BlockId), (∀ d ∈ targets, jumpTarget a d = none) →
      targets.foldl (fun (state : Action A × Bool) target =>
        (threadTarget b state.1 target, state.2 || (jumpTarget state.1 target).isSome)) (a, false) = (a, false) := by
    intro b targets hAll
    induction targets with
    | nil => rfl
    | cons d rest ih =>
      have hd := hAll d List.mem_cons_self
      rw [List.foldl_cons]
      dsimp only
      rw [threadTarget_of_none (Or.inl hd), hd]
      exact ih fun e he => hAll e (List.mem_cons_of_mem _ he)
  have hBlocks : ∀ blocks : List BlockId, (∀ b ∈ blocks, b ∈ a.blocks) →
      blocks.foldl (tryThreadJump order) (a, false) = (a, false) := by
    intro blocks hAll
    induction blocks with
    | nil => rfl
    | cons b rest ih =>
      have hStep : tryThreadJump order (a, false) b = (a, false) := by
        unfold tryThreadJump
        cases hFlow : a.getControlFlow b with
        | none => rfl
        | some stmt =>
          refine hTargets b _ fun d hd => hNone b (hAll b List.mem_cons_self) d ?_
          rw [Action.getSuccessors, hFlow]
          exact mem_getTargets.mp hd
      rw [List.foldl_cons, hStep]
      exact ih fun c hc => hAll c (List.mem_cons_of_mem _ hc)
  exact hBlocks a.blocks fun _ hb => hb

theorem terminates_of_below (order : AddressOrder) (h : Ranked rank a)
    (hBelow : ∀ b ∈ a.blocks, Below rank k [] a b) : (repeatRun order (k + 1) a).isSome = true := by
  induction k generalizing a with
  | zero =>
    rw [repeatRun, run_of_quiet order hBelow]
    rfl
  | succ k ih =>
    rw [repeatRun]
    split
    · obtain ⟨hRanked, hBlocks, -, hLower⟩ := @threadBlocks_spec A rank k order a.blocks (a, false) h fun _ hb => hb
      exact ih hRanked fun b hb => hLower b (hBlocks ▸ hb) (hBelow b (hBlocks ▸ hb))
    · rfl

end Ranked

/-! ### Chains that close -/

section Trapped

/-- Blocks that only jump to one another. -/
def Trapped (trap : Set BlockId) (a : Action A) : Prop :=
  ∀ c ∈ trap, c ∈ a.blocks ∧ ∃ stmt d, a.body c = [stmt] ∧ stmt.kind = .jump d ∧ d ∈ trap

variable {trap : Set BlockId} {a : Action A} {b c target : BlockId}

theorem Trapped.jumpTarget (h : Trapped trap a) (hc : c ∈ trap) :
    ∃ stmt d, a.getControlFlow c = some stmt ∧ stmt.kind = .jump d ∧
      JumpThreading.jumpTarget a c = some d ∧ d ∈ trap := by
  obtain ⟨-, stmt, d, hBody, hKind, hd⟩ := h c hc
  refine ⟨stmt, d, ?_, hKind, ?_, hd⟩
  · rw [Action.getControlFlow, hBody]
    simp [Option.filter, hKind, Kind.isControlFlow]
  · rw [JumpThreading.jumpTarget, hBody, List.head?_cons, Option.map_some, hKind]

theorem trapped_threadTarget (h : Trapped trap a) : Trapped trap (threadTarget b a target) := by
  intro c hc
  obtain ⟨hBlock, stmt, d, hBody, hKind, hd⟩ := h c hc
  rw [blocks_threadTarget]
  refine ⟨hBlock, ?_⟩
  by_cases hNe : c = b
  · subst hNe
    cases hJump : JumpThreading.jumpTarget a target with
    | none =>
      rw [threadTarget_of_none (Or.inl hJump)]
      exact ⟨stmt, d, hBody, hKind, hd⟩
    | some t =>
      obtain ⟨flow, _, hFlow, -⟩ := h.jumpTarget hc
      obtain ⟨hSplit, -⟩ := getControlFlow_eq_some hFlow
      rw [hBody] at hSplit
      obtain rfl : stmt = flow := (List.cons.inj hSplit).1
      refine ⟨{ stmt with kind := .jump (replaceTarget target t d) }, replaceTarget target t d, ?_, rfl, ?_⟩
      · rw [threadTarget_eq hJump hFlow, hKind]
        simp [Action.setControlFlow, hBody, Kind.retarget]
      · unfold replaceTarget
        split
        · rename_i hSame
          subst hSame
          obtain ⟨-, e, -, -, he, hTrap⟩ := h.jumpTarget hd
          cases he.symm.trans hJump
          exact hTrap
        · exact hd
  · rw [body_threadTarget hNe]
    exact ⟨stmt, d, hBody, hKind, hd⟩

theorem threadTargets_trapped {targets : List BlockId} {state : Action A × Bool} (h : Trapped trap state.1) :
    let next := targets.foldl
      (fun state target => (threadTarget b state.1 target, state.2 || (JumpThreading.jumpTarget state.1 target).isSome))
      state
    Trapped trap next.1 ∧ (state.2 = true ∨ (∃ d ∈ targets, d ∈ trap) → next.2 = true) := by
  induction targets generalizing state with
  | nil => exact ⟨h, fun hCases => hCases.resolve_right (by simp)⟩
  | cons d rest ih =>
    obtain ⟨hTrapped, hFlag⟩ := @ih (threadTarget b state.1 d, _) (trapped_threadTarget h)
    refine ⟨hTrapped, fun hCases => hFlag ?_⟩
    rcases hCases with hOld | ⟨e, he, hTrap⟩
    · exact Or.inl (by simp [hOld])
    · rcases List.mem_cons.mp he with rfl | he
      · obtain ⟨-, _, -, -, hJump, -⟩ := h.jumpTarget hTrap
        exact Or.inl (by simp [hJump])
      · exact Or.inr ⟨e, he, hTrap⟩

theorem tryThreadJump_trapped (order : AddressOrder) {state : Action A × Bool} (h : Trapped trap state.1) :
    Trapped trap (tryThreadJump order state b).1 ∧
      (state.2 = true ∨ b ∈ trap → (tryThreadJump order state b).2 = true) := by
  rw [tryThreadJump]
  cases hFlow : state.1.getControlFlow b with
  | none =>
    refine ⟨h, fun hCases => hCases.resolve_right fun hb => ?_⟩
    obtain ⟨_, _, hSome, -⟩ := h.jumpTarget hb
    exact nomatch hFlow.symm.trans hSome
  | some stmt =>
    obtain ⟨hTrapped, hFlag⟩ := threadTargets_trapped h
    refine ⟨hTrapped, fun hCases => hFlag (hCases.imp_right fun hb => ?_)⟩
    obtain ⟨_, d, hSome, hKind, -, hd⟩ := h.jumpTarget hb
    cases hFlow.symm.trans hSome
    exact ⟨d, mem_getTargets.mpr (by rw [hKind]; exact List.mem_cons_self), hd⟩

theorem run_trapped (order : AddressOrder) (h : Trapped trap a) (hc : c ∈ trap) :
    Trapped trap (run order a).1 ∧ (run order a).2 = true := by
  have hBlocks : ∀ (blocks : List BlockId) (state : Action A × Bool), Trapped trap state.1 →
      Trapped trap (blocks.foldl (tryThreadJump order) state).1 ∧
        (state.2 = true ∨ c ∈ blocks → (blocks.foldl (tryThreadJump order) state).2 = true) := by
    intro blocks
    induction blocks with
    | nil => exact fun state hState => ⟨hState, fun hCases => hCases.resolve_right List.not_mem_nil⟩
    | cons b rest ih =>
      intro state hState
      obtain ⟨hStep, hFlag⟩ := @tryThreadJump_trapped _ trap b order state hState
      obtain ⟨hTrapped, hRest⟩ := ih _ hStep
      refine ⟨hTrapped, fun hCases => hRest ?_⟩
      rcases hCases with hOld | hMem
      · exact Or.inl (hFlag (Or.inl hOld))
      · rcases List.mem_cons.mp hMem with rfl | hMem
        · exact Or.inl (hFlag (Or.inr hc))
        · exact Or.inr hMem
  obtain ⟨hTrapped, hFlag⟩ := hBlocks a.blocks (a, false) h
  exact ⟨hTrapped, hFlag (Or.inr (h c hc).1)⟩

theorem repeatRun_trapped (order : AddressOrder) (h : Trapped trap a) (hc : c ∈ trap) (fuel : Nat) :
    repeatRun order fuel a = none := by
  induction fuel generalizing a with
  | zero => rfl
  | succ fuel ih =>
    obtain ⟨hTrapped, hFlag⟩ := run_trapped order h hc
    rw [repeatRun, if_pos hFlag]
    exact ih hTrapped

end Trapped

/-! ### Fixpoints -/

/-- A block that holds only a jump, and where it leads. -/
def JumpEdge (a : Action A) (b c : BlockId) : Prop := b ∈ a.blocks ∧ jumpTarget a b = some c

theorem body_of_jumpEdge {a : Action A} (hShape : Structured a) {b c : BlockId} (h : JumpEdge a b c) :
    ∃ stmt, a.body b = [stmt] ∧ stmt.kind = .jump c ∧ c ∈ a.getSuccessors b := by
  obtain ⟨front, last, hBody, hLast, hFront⟩ := hShape.terminated b h.1
  have hJump := h.2
  unfold jumpTarget at hJump
  rw [hBody] at hJump
  cases front with
  | nil =>
    refine ⟨last, hBody, ?_⟩
    rw [Structured.getSuccessors_eq hBody hLast]
    cases hKind : last.kind <;> simp [hKind] at hJump
    rw [hJump]
    exact ⟨rfl, List.mem_cons_self⟩
  | cons first front =>
    have hPlain := hFront first List.mem_cons_self
    cases hKind : first.kind <;> simp [hKind, Kind.isControlFlow] at hJump hPlain

theorem trapped_of_cycles {a : Action A} (hShape : Structured a) :
    Trapped {b | Relation.TransGen (JumpEdge a) b b} a := by
  intro c hc
  obtain ⟨d, hEdge, hBack⟩ := Relation.TransGen.head'_iff.mp hc
  obtain ⟨stmt, hBody, hKind, -⟩ := body_of_jumpEdge hShape hEdge
  exact ⟨hEdge.1, stmt, d, hBody, hKind, Relation.TransGen.tail' hBack hEdge⟩

/-- The pass is repeated until nothing changes, unless blocks that hold only a jump lead in a circle. -/
theorem terminates_iff {a : Action A} (order : AddressOrder) (hShape : Structured a) :
    Terminates order a ↔ Acyclic.NoCycle (JumpEdge a) := by
  constructor
  · rintro ⟨fuel, hSome⟩ c hCycle
    rw [repeatRun_trapped order (trapped_of_cycles hShape) hCycle fuel] at hSome
    exact nomatch hSome
  · intro hAcyclic
    have hBack : Acyclic.NoCycle (Function.swap (JumpEdge a)) := fun c hCycle =>
      hAcyclic c (Relation.transGen_swap.mp hCycle)
    let rank := Acyclic.rank (Function.swap (JumpEdge a)) a.blocks.toFinset
    have hRanked : Ranked rank a := by
      refine ⟨fun c hc d hd => ?_, hShape.targets_mem⟩
      have hEdge : JumpEdge a c d := ⟨hc, hd⟩
      obtain ⟨-, -, -, hSuccessor⟩ := body_of_jumpEdge hShape hEdge
      have hBlock := hShape.targets_mem c hc d hSuccessor
      exact ⟨hBlock, Acyclic.rank_lt hBack (show Function.swap (JumpEdge a) d c from hEdge)
        (List.mem_toFinset.mpr hBlock)⟩
    refine ⟨a.blocks.toFinset.card + 1, terminates_of_below order hRanked fun b hb d hd _ => Or.inl ?_⟩
    exact Acyclic.rank_lt_card hBack (List.mem_toFinset.mpr (hShape.targets_mem b hb d hd))

/-- Two jumps in a row. -/
def chain : Action tiny where
  blocks := [0, 1, 2]
  entry := 0
  body b := [⟨b, true, if b < 2 then .jump (b + 1) else .return_ none⟩]
  symbolType _ := false
  params := []
  returnsValue := false

theorem terminates_iff_chain : Structured chain ∧ Terminates ⟨id, fun _ => .refl _⟩ chain := by
  have hShape : Structured chain := by
    refine ⟨by decide, by decide, fun b hb => ⟨[], _, rfl, ?_, List.forall_mem_nil _⟩, by decide, by decide⟩
    revert b
    decide
  refine ⟨hShape, (terminates_iff _ hShape).mpr (Acyclic.noCycle_of_lt (f := id) ?_)⟩
  intro b c h
  obtain ⟨stmt, hBody, hKind, -⟩ := body_of_jumpEdge hShape h
  cases hBody
  dsimp only at hKind
  split at hKind
  · cases hKind
    exact Nat.lt_succ_self b
  · exact nomatch hKind

/-- A block that jumps to itself, behind the entry. -/
def emptyLoop : Action tiny where
  blocks := [0, 1]
  entry := 0
  body b := [⟨b, true, .jump 1⟩]
  symbolType _ := false
  params := []
  returnsValue := false

theorem emptyLoop_changes_forever : Structured emptyLoop ∧ ∀ order, ¬ Terminates order emptyLoop := by
  refine ⟨⟨by decide, by decide, fun b _ => ⟨[], _, rfl, rfl, List.forall_mem_nil _⟩, by decide, by decide⟩, ?_⟩
  rintro order ⟨fuel, hSome⟩
  have hTrapped : Trapped {1} emptyLoop := by
    rintro _ rfl
    exact ⟨by decide, _, 1, rfl, rfl, rfl⟩
  rw [repeatRun_trapped order hTrapped rfl fuel] at hSome
  exact nomatch hSome

end JumpThreading

end Gensim.GenC
