import Gensim.GenC.Run

/-! `FindUseBeforeDefAnalysis`: reads of variables, and calls that take them by reference, that can be
reached while the variable has no value. Every path is followed until it comes to a block again. -/
namespace Gensim.GenC.UseBeforeDef

variable {A : Arch}

/-! ### The analysis -/

/-- The variables that a statement needs a value of. -/
def usedBy : Kind A → List SymbolId
  | .call _ args => args.filterMap Argument.symbol?
  | .variableRead target => [target]
  | _ => []

/-- The statements of a block that use a variable too early, and the variables that are defined behind it. -/
def scan : List (Statement A) → List SymbolId → List (Statement A) × List SymbolId
  | [], defd => ([], defd)
  | stmt :: rest, defd =>
      let defd := stmt.kind.killTarget.toList ++ defd
      let later := scan rest defd
      (if (usedBy stmt.kind).any (· ∉ defd) then stmt :: later.1 else later.1, later.2)

/-- The recursion to a depth of at most `depth`. -/
def findFrom (a : Action A) : Nat → BlockId → List BlockId → List SymbolId → Option (List (Statement A))
  | 0, _, _, _ => none
  | depth + 1, block, encountered, defd =>
      if block ∈ encountered then some []
      else
        let here := scan (a.body block) defd
        (a.getSuccessors block).foldlM
          (fun ubds succ => (findFrom a depth succ (block :: encountered) here.2).map (ubds ++ ·)) here.1

/-- A path comes to each block at most once before it ends. -/
def findUsesBeforeDefs (a : Action A) : Option (List (Statement A)) :=
  findFrom a (a.blocks.length + 1) a.entry [] a.params

/-! ### Paths -/

def Kills (stmt : Statement A) (x : SymbolId) : Prop := stmt.kind.killTarget = some x

/-- A variable is defined by the statements that kill it, and by calls that take it by reference. -/
def Defines (stmt : Statement A) (x : SymbolId) : Prop := x ∈ stmt.kind.assigned

/-- A path from the block to the statement passes no definition of the variable. -/
inductive Reaches (a : Action A) (defines : Statement A → SymbolId → Prop) (x : SymbolId) (r : Statement A) :
    BlockId → Prop
  | here {b : BlockId} {front back : List (Statement A)} (hBody : a.body b = front ++ r :: back)
      (hFree : ∀ stmt ∈ front, ¬ defines stmt x) : Reaches a defines x r b
  | step {b c : BlockId} (hFree : ∀ stmt ∈ a.body b, ¬ defines stmt x) (hEdge : c ∈ a.getSuccessors b)
      (hRest : Reaches a defines x r c) : Reaches a defines x r b

/-- Some path from the entry reaches the statement while one of its variables is not defined. -/
def Undefined (a : Action A) (defines : Statement A → SymbolId → Prop) (r : Statement A) : Prop :=
  ∃ x ∈ usedBy r.kind, x ∉ a.params ∧ Reaches a defines x r a.entry

/-- The analysis ends and reports the uses that a path reaches before a definition. -/
def ReportsExactly (a : Action A) : Prop :=
  ∃ report, findUsesBeforeDefs a = some report ∧ ∀ r, r ∈ report ↔ Undefined a Defines r

/-! ### Blocks -/

section Scan

variable {stmts : List (Statement A)} {defd : List SymbolId} {x : SymbolId}

theorem killTarget_eq_none {kind : Kind A} (h : x ∈ usedBy kind) : kind.killTarget = none := by
  cases kind <;> first | rfl | exact absurd h List.not_mem_nil

theorem mem_killed {stmt : Statement A} : x ∈ stmt.kind.killTarget.toList ++ defd ↔ Kills stmt x ∨ x ∈ defd := by
  rw [List.mem_append, Option.mem_toList]
  exact Iff.rfl

theorem mem_scan_defd : x ∈ (scan stmts defd).2 ↔ x ∈ defd ∨ ∃ stmt ∈ stmts, Kills stmt x := by
  induction stmts generalizing defd with
  | nil => simp [scan]
  | cons stmt rest ih =>
    rw [scan, ih, mem_killed, List.exists_mem_cons_iff]
    tauto

theorem mem_scan_cons {stmt r : Statement A} : r ∈ (scan (stmt :: stmts) defd).1 ↔
      r = stmt ∧ (∃ x ∈ usedBy r.kind, x ∉ defd) ∨ r ∈ (scan stmts (stmt.kind.killTarget.toList ++ defd)).1 := by
  have hEarly : (usedBy stmt.kind).any (· ∉ stmt.kind.killTarget.toList ++ defd) = true ↔
      ∃ x ∈ usedBy stmt.kind, x ∉ defd := by
    rw [List.any_eq_true]
    refine exists_congr fun x => and_congr_right fun hx => ?_
    rw [decide_eq_true_iff, killTarget_eq_none hx]
    rfl
  rw [scan]
  dsimp only
  by_cases hUse : ∃ x ∈ usedBy stmt.kind, x ∉ defd
  · rw [if_pos (hEarly.mpr hUse), List.mem_cons]
    exact or_congr_left ⟨fun hEq => ⟨hEq, hEq ▸ hUse⟩, And.left⟩
  · rw [if_neg (mt hEarly.mp hUse)]
    exact ⟨Or.inr, fun h => h.resolve_left fun hHere => hUse (hHere.1 ▸ hHere.2)⟩

theorem mem_scan {r : Statement A} : r ∈ (scan stmts defd).1 ↔ ∃ x ∈ usedBy r.kind, x ∉ defd ∧
      ∃ front back, stmts = front ++ r :: back ∧ ∀ stmt ∈ front, ¬ Kills stmt x := by
  induction stmts generalizing defd with
  | nil => simp [scan]
  | cons stmt rest ih =>
    rw [mem_scan_cons, ih]
    constructor
    · rintro (⟨rfl, x, hx, hNew⟩ | ⟨x, hx, hNew, front, back, rfl, hFree⟩)
      · exact ⟨x, hx, hNew, [], rest, rfl, List.forall_mem_nil _⟩
      · rw [mem_killed, not_or] at hNew
        exact ⟨x, hx, hNew.2, stmt :: front, back, rfl, List.forall_mem_cons.mpr ⟨hNew.1, hFree⟩⟩
    · rintro ⟨x, hx, hNew, front, back, hSplit, hFree⟩
      cases front with
      | nil =>
        cases hSplit
        exact Or.inl ⟨rfl, x, hx, hNew⟩
      | cons first front =>
        cases hSplit
        obtain ⟨hHere, hLater⟩ := List.forall_mem_cons.mp hFree
        exact Or.inr ⟨x, hx, mt mem_killed.mp (not_or.mpr ⟨hHere, hNew⟩), front, back, rfl, hLater⟩

end Scan

/-! ### Paths without repetition -/

section Paths

variable {a : Action A} {x : SymbolId} {r : Statement A}

/-- A path that comes to no encountered block and to no block twice. -/
inductive Found (a : Action A) (x : SymbolId) (r : Statement A) : List BlockId → BlockId → Prop
  | here {encountered : List BlockId} {b : BlockId} {front back : List (Statement A)} (hNew : b ∉ encountered)
      (hBody : a.body b = front ++ r :: back) (hFree : ∀ stmt ∈ front, ¬ Kills stmt x) :
      Found a x r encountered b
  | step {encountered : List BlockId} {b c : BlockId} (hNew : b ∉ encountered)
      (hFree : ∀ stmt ∈ a.body b, ¬ Kills stmt x) (hEdge : c ∈ a.getSuccessors b)
      (hRest : Found a x r (b :: encountered) c) : Found a x r encountered b

theorem Found.reaches {encountered : List BlockId} {b : BlockId} (h : Found a x r encountered b) :
    Reaches a Kills x r b := by
  induction h with
  | here _ hBody hFree => exact .here hBody hFree
  | step _ hFree hEdge _ ih => exact .step hFree hEdge ih

/-- The statement is reached over `n` edges. -/
def ReachesIn (a : Action A) (x : SymbolId) (r : Statement A) : Nat → BlockId → Prop
  | 0, b => ∃ front back, a.body b = front ++ r :: back ∧ ∀ stmt ∈ front, ¬ Kills stmt x
  | n + 1, b => (∀ stmt ∈ a.body b, ¬ Kills stmt x) ∧ ∃ c ∈ a.getSuccessors b, ReachesIn a x r n c

theorem Reaches.exists_length {b : BlockId} (h : Reaches a Kills x r b) : ∃ n, ReachesIn a x r n b := by
  induction h with
  | here hBody hFree => exact ⟨0, _, _, hBody, hFree⟩
  | step hFree hEdge _ ih =>
    obtain ⟨n, hn⟩ := ih
    exact ⟨n + 1, hFree, _, hEdge, hn⟩

/-- A shortest path does not come back to a block: each one on it is nearer to the statement. -/
theorem found_of_shortest {n : Nat} {b : BlockId} {encountered : List BlockId} (h : ReachesIn a x r n b)
    (hShortest : ∀ m < n, ¬ ReachesIn a x r m b) (hFar : ∀ c ∈ encountered, ∀ m ≤ n, ¬ ReachesIn a x r m c) :
    Found a x r encountered b := by
  have hNew : b ∉ encountered := fun hMem => hFar b hMem n le_rfl h
  induction n generalizing b encountered with
  | zero =>
    obtain ⟨front, back, hBody, hFree⟩ := h
    exact .here hNew hBody hFree
  | succ n ih =>
    obtain ⟨hFree, c, hEdge, hRest⟩ := h
    have hNext : ∀ m < n, ¬ ReachesIn a x r m c :=
      fun m hm hShort => hShortest (m + 1) (Nat.succ_lt_succ hm) ⟨hFree, c, hEdge, hShort⟩
    have hAhead : ∀ d ∈ b :: encountered, ∀ m ≤ n, ¬ ReachesIn a x r m d := by
      intro d hd m hm
      rcases List.mem_cons.mp hd with rfl | hd
      · exact hShortest m (Nat.lt_succ_of_le hm)
      · exact hFar d hd m (Nat.le_succ_of_le hm)
    exact .step hNew hFree hEdge (ih hRest hNext hAhead fun hMem => hAhead c hMem n le_rfl hRest)

theorem found_iff {b : BlockId} : Found a x r [] b ↔ Reaches a Kills x r b := by
  classical
  refine ⟨Found.reaches, fun h => ?_⟩
  have hExists := h.exists_length
  exact found_of_shortest (Nat.find_spec hExists) (fun _ hm => Nat.find_min hExists hm) (List.forall_mem_nil _)

end Paths

/-! ### The report -/

section Report

variable {a : Action A}

theorem foldlM_append {β : Type} {f : β → Option (List (Statement A))} {cs : List β}
    (hEach : ∀ c ∈ cs, ∃ l, f c = some l) (start : List (Statement A)) :
    ∃ report, cs.foldlM (fun ubds c => (f c).map (ubds ++ ·)) start = some report ∧
      ∀ r, r ∈ report ↔ r ∈ start ∨ ∃ c ∈ cs, ∃ l, f c = some l ∧ r ∈ l := by
  induction cs generalizing start with
  | nil => exact ⟨start, rfl, by simp⟩
  | cons c rest ih =>
    obtain ⟨l, hl⟩ := hEach c List.mem_cons_self
    obtain ⟨report, hReport, hMem⟩ := ih (fun d hd => hEach d (List.mem_cons_of_mem _ hd)) (start ++ l)
    refine ⟨report, by rw [List.foldlM_cons, hl]; exact hReport, fun r => ?_⟩
    rw [hMem, List.mem_append, List.exists_mem_cons_iff, or_assoc, hl]
    simp

theorem findFrom_spec (hShape : Structured a) {depth : Nat} {b : BlockId} (hBlock : b ∈ a.blocks)
    {encountered : List BlockId} (hDepth : (a.blocks.toFinset \ encountered.toFinset).card < depth)
    (defd : List SymbolId) : ∃ report, findFrom a depth b encountered defd = some report ∧
      ∀ r, r ∈ report ↔ ∃ x ∈ usedBy r.kind, x ∉ defd ∧ Found a x r encountered b := by
  induction depth generalizing b encountered defd with
  | zero => exact absurd hDepth (Nat.not_lt_zero _)
  | succ depth ih =>
    rw [findFrom]
    by_cases hSeen : b ∈ encountered
    · rw [if_pos hSeen]
      refine ⟨[], rfl, fun r => iff_of_false List.not_mem_nil ?_⟩
      rintro ⟨x, -, -, hFound⟩
      cases hFound with
      | here hNew => exact hNew hSeen
      | step hNew => exact hNew hSeen
    · rw [if_neg hSeen]
      have hLess : (a.blocks.toFinset \ (b :: encountered).toFinset).card < depth := by
        have hMem : b ∈ a.blocks.toFinset \ encountered.toFinset := by simp [hBlock, hSeen]
        rw [List.toFinset_cons, Finset.sdiff_insert, Finset.card_erase_of_mem hMem]
        have := Finset.card_pos.mpr ⟨b, hMem⟩
        omega
      have hEach := fun c hc => ih (hShape.targets_mem b hBlock c hc) hLess (scan (a.body b) defd).2
      obtain ⟨report, hReport, hMem⟩ :=
        foldlM_append (fun c hc => (hEach c hc).imp fun _ h => h.1) (scan (a.body b) defd).1
      refine ⟨report, hReport, fun r => ?_⟩
      rw [hMem, mem_scan]
      constructor
      · rintro (⟨x, hx, hNew, front, back, hBody, hFree⟩ | ⟨c, hc, l, hl, hIn⟩)
        · exact ⟨x, hx, hNew, .here hSeen hBody hFree⟩
        · obtain ⟨l', hl', hFound⟩ := hEach c hc
          cases hl.symm.trans hl'
          obtain ⟨x, hx, hNew, hRest⟩ := (hFound r).mp hIn
          rw [mem_scan_defd, not_or] at hNew
          exact ⟨x, hx, hNew.1, .step hSeen (fun stmt hStmt hKill => hNew.2 ⟨stmt, hStmt, hKill⟩) hc hRest⟩
      · rintro ⟨x, hx, hNew, hFound⟩
        cases hFound with
        | here _ hBody hFree => exact Or.inl ⟨x, hx, hNew, _, _, hBody, hFree⟩
        | @step _ _ c _ hFree hEdge hRest =>
          obtain ⟨l, hl, hIn⟩ := hEach c hEdge
          refine Or.inr ⟨c, hEdge, l, hl, (hIn r).mpr ⟨x, hx, mt mem_scan_defd.mp ?_, hRest⟩⟩
          rintro (hOld | ⟨stmt, hStmt, hKill⟩)
          · exact hNew hOld
          · exact hFree stmt hStmt hKill

theorem findUsesBeforeDefs_spec (hShape : Structured a) :
    ∃ report, findUsesBeforeDefs a = some report ∧ ∀ r, r ∈ report ↔ Undefined a Kills r := by
  have hDepth : (a.blocks.toFinset \ ([] : List BlockId).toFinset).card < a.blocks.length + 1 := by
    simpa using Nat.lt_succ_of_le a.blocks.toFinset_card_le
  obtain ⟨report, hReport, hMem⟩ := findFrom_spec hShape hShape.entry_mem hDepth a.params
  refine ⟨report, hReport, fun r => ?_⟩
  rw [hMem]
  exact exists_congr fun x => and_congr_right fun _ => and_congr_right fun _ => found_iff

theorem Kills.defines {stmt : Statement A} {x : SymbolId} (h : Kills stmt x) : Defines stmt x := by
  unfold Kills at h
  unfold Defines
  cases hKind : stmt.kind <;> rw [hKind] at h <;> simp_all [Kind.killTarget, Kind.assigned]

theorem Reaches.mono {x : SymbolId} {r : Statement A} {b : BlockId} (h : Reaches a Defines x r b) :
    Reaches a Kills x r b := by
  induction h with
  | here hBody hFree => exact .here hBody fun stmt hStmt hKill => hFree stmt hStmt hKill.defines
  | step hFree hEdge _ ih => exact .step (fun stmt hStmt hKill => hFree stmt hStmt hKill.defines) hEdge ih

/-- A call is not taken for a definition of the variables it gets by reference. -/
theorem reportsUses_iff (hShape : Structured a) :
    ReportsExactly a ↔ ∀ r, Undefined a Kills r → Undefined a Defines r := by
  obtain ⟨report, hReport, hMem⟩ := findUsesBeforeDefs_spec hShape
  constructor
  · rintro ⟨report', hReport', hExact⟩ r hr
    cases hReport.symm.trans hReport'
    exact (hExact r).mp ((hMem r).mpr hr)
  · intro h
    refine ⟨report, hReport, fun r => ⟨fun hr => h r ((hMem r).mp hr), ?_⟩⟩
    rintro ⟨x, hx, hNew, hPath⟩
    exact (hMem r).mpr ⟨x, hx, hNew, hPath.mono⟩

/-- A variable that is set by a call and then read. -/
def setByCall : Action tiny where
  blocks := [0]
  entry := 0
  body _ := [⟨0, true, .call 0 [.symbol 0]⟩, ⟨1, false, .variableRead 0⟩, ⟨2, true, .return_ (some 1)⟩]
  symbolType _ := false
  params := []
  returnsValue := true

theorem structured_setByCall : Structured setByCall where
  entry_mem := by decide
  nodup := by decide
  terminated b _ := ⟨[_, _], _, rfl, rfl, by simp [Kind.isControlFlow]⟩
  targets_mem := by decide
  ids := by decide

theorem reportsUses_iff_setByCall :
    Structured setByCall ∧
      (ReportsExactly setByCall ↔ ∀ r, Undefined setByCall Kills r → Undefined setByCall Defines r) :=
  ⟨structured_setByCall, reportsUses_iff structured_setByCall⟩

/-- The read behind the call is reported. -/
theorem read_after_call_reported :
    findUsesBeforeDefs setByCall = some [⟨0, true, .call 0 [.symbol 0]⟩, ⟨1, false, .variableRead 0⟩] ∧
      ¬ ReportsExactly setByCall := by
  refine ⟨rfl, ?_⟩
  rintro ⟨report, hReport, hExact⟩
  cases hReport
  obtain ⟨x, hx, -, hPath⟩ := (hExact ⟨1, false, .variableRead 0⟩).mp (List.mem_cons_of_mem _ List.mem_cons_self)
  cases List.mem_singleton.mp hx
  -- the call stands before the read on every path
  have hCall : Defines (⟨0, true, .call 0 [.symbol 0]⟩ : Statement tiny) 0 := List.mem_cons_self
  cases hPath with
  | @here _ front back hBody hFree =>
      cases front with
      | nil => exact nomatch hBody
      | cons first front =>
          cases (List.cons.inj hBody).1
          exact hFree _ List.mem_cons_self hCall
  | step hFree _ _ => exact hFree _ List.mem_cons_self hCall

end Report

end Gensim.GenC.UseBeforeDef
