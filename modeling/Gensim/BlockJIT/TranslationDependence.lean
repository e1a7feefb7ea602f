import Gensim.BlockJIT.BlockJitTranslate
import Gensim.BlockJIT.IR

/-! What a translated block depends on, and what its translation leaves behind in the thread. -/
namespace Gensim.BlockJIT

open Arch Core ARMDecodeContext

/-! ## `ITSTATE` over a block -/

/-- The state after some instructions. -/
def itstateAfter (itstate : ITState) (decoded : List (Nat × Decode)) : ITState :=
  decoded.foldl (fun itstate instruction => next instruction.2 itstate instruction.1) itstate

/-- An instruction that is no IT instruction. -/
def NotIt (instruction : Nat × Decode) : Prop := itBits instruction.2 instruction.1 = none

instance (instruction : Nat × Decode) : Decidable (NotIt instruction) :=
  inferInstanceAs (Decidable (_ = _))

/-- A block without an IT instruction that starts where no bits of the mask are left, or one whose last
IT instruction, advanced over the instructions after it, comes back to the state the block started in. -/
def Restores (itstate : ITState) (decoded : List (Nat × Decode)) : Prop :=
  (∀ instruction ∈ decoded, NotIt instruction) ∧ (decoded = [] ∨ itstate &&& 0x1f = 0) ∨
    ∃ before instruction after bits, decoded = before ++ instruction :: after ∧
      itBits instruction.2 instruction.1 = some bits ∧ (∀ other ∈ after, NotIt other) ∧
      ITState.advance^[after.length] bits = itstate

/-- Each instruction is decoded alike, with the same predicate, from both states. -/
def SamePredicates (itstate itstate' : ITState) (decoded : List (Nat × Decode)) : Prop :=
  ∀ before instruction after, decoded = before ++ instruction :: after →
    (decodeSync instruction.2 (itstateAfter itstate before) instruction.1).1 =
      (decodeSync instruction.2 (itstateAfter itstate' before) instruction.1).1

variable {itstate : ITState} {decoded : List (Nat × Decode)}

theorem SamePredicates.of_append {itstate' : ITState} {more : List (Nat × Decode)}
    (hSame : SamePredicates itstate itstate' (decoded ++ more)) : SamePredicates itstate itstate' decoded := by
  rintro before instruction after rfl
  exact hSame before instruction (after ++ more) (by simp)

theorem next_of_notIt {instruction : Nat × Decode} (hNot : NotIt instruction) (itstate : ITState) :
    next instruction.2 itstate instruction.1 = itstate.advance := by
  have hZero : ITState.advance 0 = 0 := by decide
  rw [next, hNot, Option.getD_none]
  split
  next h => rw [h, hZero]
  next => rfl

theorem itstateAfter_of_notIt (hNot : ∀ instruction ∈ decoded, NotIt instruction) (itstate : ITState) :
    itstateAfter itstate decoded = ITState.advance^[decoded.length] itstate := by
  induction decoded generalizing itstate with
  | nil => rfl
  | cons instruction decoded ih =>
    obtain ⟨hFirst, hRest⟩ := List.forall_mem_cons.mp hNot
    change itstateAfter (next instruction.2 itstate instruction.1) decoded = _
    rw [next_of_notIt hFirst, ih hRest]
    rfl

/-- A state is left behind for good while its mask has bits. -/
theorem iterate_advance_eq_self {n : Nat} (hPositive : 0 < n) :
    ITState.advance^[n] itstate = itstate ↔ itstate &&& 0x1f = 0 := by
  have hFixed : ∀ itstate : ITState, itstate &&& 0x1f = 0 → itstate.advance = itstate := by decide
  have hFive : ∀ itstate : ITState, ITState.advance^[5] itstate &&& 0x1f = 0 := by decide
  constructor
  · intro hSame
    have hOften : ITState.advance^[n * 5] itstate = itstate := by
      rw [Function.iterate_mul]
      exact Function.iterate_fixed hSame 5
    have hSplit : n * 5 = n * 5 - 5 + 5 := by omega
    rw [hSplit, Function.iterate_add_apply, Function.iterate_fixed (hFixed _ (hFive itstate))] at hOften
    rw [← hOften]
    exact hFive itstate
  · exact fun hClear => Function.iterate_fixed (hFixed itstate hClear) n

/-- The last IT instruction of a block. -/
theorem exists_last_it (hSome : ¬ ∀ instruction ∈ decoded, NotIt instruction) :
    ∃ before instruction after bits, decoded = before ++ instruction :: after ∧
      itBits instruction.2 instruction.1 = some bits ∧ ∀ other ∈ after, NotIt other := by
  induction decoded with
  | nil => exact absurd (fun _ => nofun) hSome
  | cons instruction decoded ih =>
    by_cases hRest : ∀ other ∈ decoded, NotIt other
    · have hFirst : ¬ NotIt instruction := fun hNot => hSome (List.forall_mem_cons.mpr ⟨hNot, hRest⟩)
      obtain ⟨bits, hBits⟩ := Option.ne_none_iff_exists'.mp hFirst
      exact ⟨[], instruction, decoded, bits, rfl, hBits, hRest⟩
    · obtain ⟨before, last, after, bits, rfl, hBits, hAfter⟩ := ih hRest
      exact ⟨instruction :: before, last, after, bits, rfl, hBits, hAfter⟩

theorem itstateAfter_of_it {before after : List (Nat × Decode)} {instruction : Nat × Decode}
    {bits : ITState} (hBits : itBits instruction.2 instruction.1 = some bits)
    (hAfter : ∀ other ∈ after, NotIt other) (itstate : ITState) :
    itstateAfter itstate (before ++ instruction :: after) = ITState.advance^[after.length] bits := by
  have hNext (itstate : ITState) : next instruction.2 itstate instruction.1 = bits := by
    rw [next, hBits, Option.getD_some]
  rw [← itstateAfter_of_notIt hAfter]
  simp only [itstateAfter, List.foldl_append, List.foldl_cons, hNext]

theorem itstateAfter_eq_self : itstateAfter itstate decoded = itstate ↔ Restores itstate decoded := by
  constructor
  · intro hSame
    by_cases hNot : ∀ instruction ∈ decoded, NotIt instruction
    · refine .inl ⟨hNot, ?_⟩
      rcases List.eq_nil_or_concat decoded with hNil | ⟨init, last, rfl⟩
      · exact .inl hNil
      · rw [itstateAfter_of_notIt hNot] at hSame
        exact .inr ((iterate_advance_eq_self (by simp)).mp hSame)
    · obtain ⟨before, instruction, after, bits, rfl, hBits, hAfter⟩ := exists_last_it hNot
      rw [itstateAfter_of_it hBits hAfter] at hSame
      exact .inr ⟨before, instruction, after, bits, rfl, hBits, hAfter, hSame⟩
  · rintro (⟨hNot, hNil | hClear⟩ | ⟨before, instruction, after, bits, rfl, hBits, hAfter, hBack⟩)
    · rw [hNil]
      rfl
    · rw [itstateAfter_of_notIt hNot]
      rcases Nat.eq_zero_or_pos decoded.length with hZero | hPositive
      · rw [hZero]
        rfl
      · exact (iterate_advance_eq_self hPositive).mpr hClear
    · rw [itstateAfter_of_it hBits hAfter, hBack]

/-! ## Rounds of the loop -/

section Emit

variable {β : Type*} {emit : Emit β} {t t' : Translation β}

theorem Emit.reads_mono (hRun : emit.run t = some t') : t.readFeatureLevels ⊆ t'.readFeatureLevels := by
  induction emit generalizing t with
  | done => exact Option.some.inj hRun ▸ List.Subset.refl _
  | build call next ih =>
    rw [Emit.run] at hRun
    have hNext := ih _ hRun
    exact hNext
  | getFeatureLevel feature next ih =>
    rw [Emit.run] at hRun
    cases hLevel : t.featureLevels.getFeatureLevel feature with
    | none =>
      rw [hLevel] at hRun
      cases hRun
    | some level =>
      rw [hLevel] at hRun
      exact fun other hMem => ih level hRun (List.mem_insert_of_mem hMem)
  | setFeatureLevel feature level call next ih =>
    rw [Emit.run] at hRun
    have hNext := ih hRun
    exact hNext
  | invalidateFeatures next ih =>
    rw [Emit.run] at hRun
    have hNext := ih hRun
    exact hNext
  | setIsaMode mode call next ih =>
    cases mode <;>
    · rw [Emit.run] at hRun
      have hNext := ih hRun
      exact hNext

end Emit

namespace EmitBlock

variable {μ ρ β : Type*} {isa : Isa μ β} {supportChaining : Bool} {s s' : EmitBlock μ ρ β}

theorem reads_writeBackItstate (decode : Decode) (t : Translation β) :
    (writeBackItstate isa decode t).readFeatureLevels = t.readFeatureLevels := by
  unfold writeBackItstate
  cases decode.predicate with
  | none => rfl
  | some info =>
    dsimp only
    split <;> rfl

/-- An instruction changes the translation, fails or does neither, once `ITSTATE` is written back. -/
theorem emitInstruction_eq (isa : Isa μ β) (s : EmitBlock μ ρ β) :
    ∃ t status, s.emitInstruction isa = { s.writeBackState isa with translation := t, status := status } ∧
      s.translation.readFeatureLevels ⊆ t.readFeatureLevels := by
  unfold emitInstruction
  split
  next => exact ⟨s.translation, .failed, rfl, List.Subset.refl _⟩
  next =>
    split
    next t hRun =>
      refine ⟨_, s.status, rfl, ?_⟩
      rw [reads_writeBackItstate]
      exact Emit.reads_mono hRun
    next => exact ⟨s.translation, .failed, rfl, List.Subset.refl _⟩

/-- A round of the loop is the end of the block, or takes up an instruction: it fails, is followed by the next one,
jumps to a block that is merged, or ends the block. -/
theorem step_eq_some (hStep : s.step isa supportChaining = some s') :
    s.status = .running ∧ (s.continues = false ∧ s' = s.finish isa ∨ s.continues = true ∧
      ((s.emitInstruction isa).status = .failed ∧ s' = s.emitInstruction isa ∨
        (s.emitInstruction isa).status ≠ .failed ∧ ((∃ pc, s' = { s.emitInstruction isa with pc := pc }) ∨
          (∃ target ∉ s.blockHeads, target.getPageIndex = s.pc.getPageIndex ∧
            s' = (s.emitInstruction isa).enter target) ∨ s' = (s.emitInstruction isa).finish isa))) := by
  obtain ⟨t, status, hEmit, -⟩ := emitInstruction_eq isa s
  unfold step at hStep
  dsimp only at hStep
  split at hStep
  next => cases hStep
  next hRunning =>
    refine ⟨not_not.mp hRunning, ?_⟩
    split at hStep
    next hEnds => exact .inl ⟨hEnds, (Option.some.inj hStep).symm⟩
    next hContinues =>
      refine .inr ⟨Bool.not_eq_false _ ▸ hContinues, ?_⟩
      split at hStep
      next hFailed => exact .inl ⟨hFailed, (Option.some.inj hStep).symm⟩
      next hOk =>
        refine .inr ⟨hOk, ?_⟩
        split at hStep
        next => exact .inl ⟨_, (Option.some.inj hStep).symm⟩
        next =>
          split at hStep
          next hMerge =>
            refine .inr (.inl ⟨_, hMerge.2, ?_, (Option.some.inj hStep).symm⟩)
            have hPage := hMerge.1
            rw [hEmit] at hPage
            simp only [canMergeJump, Bool.and_eq_true, beq_iff_eq] at hPage
            exact hPage.2
          next => exact .inr (.inr (Option.some.inj hStep).symm)

theorem step_eq_none (hStep : s.step isa supportChaining = none) : s.status ≠ .running := by
  intro hRunning
  unfold step at hStep
  dsimp only at hStep
  split_ifs at hStep
  contradiction

/-- What is left of the page to be merged, of the block, and of the loop. -/
def work (s : EmitBlock μ ρ β) : Nat :=
  ((Finset.range Address.pageSize).filter fun offset =>
      s.blockHeads.all fun head => head ≠ s.pcPage.setWidth 64 + BitVec.ofNat 64 offset).card * 34 +
    (33 - s.count) + if s.status = .running then 1 else 0

theorem work_enter {target : Address} (hNew : target ∉ s.blockHeads)
    (hPage : target.pageBase = s.pcPage.setWidth 64) : work (s.enter target) < work s := by
  have hSame : target.pageBase.setWidth 32 = s.pcPage := by
    rw [hPage]
    bv_omega
  have hOffset : s.pcPage.setWidth 64 + BitVec.ofNat 64 target.getPageOffset = target := by
    rw [← hPage]
    apply BitVec.eq_of_toNat_eq
    have hLt := target.isLt
    have hSplit := target.toNat_eq
    rw [BitVec.toNat_add, Address.toNat_pageBase, BitVec.toNat_ofNat, Nat.add_mod_mod, ← hSplit, Nat.mod_eq_of_lt hLt]
  have hFewer : ((Finset.range Address.pageSize).filter fun offset =>
        (s.blockHeads.insert target).all fun head => head ≠ s.pcPage.setWidth 64 + BitVec.ofNat 64 offset).card <
      ((Finset.range Address.pageSize).filter fun offset =>
        s.blockHeads.all fun head => head ≠ s.pcPage.setWidth 64 + BitVec.ofNat 64 offset).card := by
    refine Finset.card_lt_card (Finset.ssubset_iff_of_subset ?_ |>.mpr ⟨target.getPageOffset, ?_, ?_⟩)
    · refine Finset.monotone_filter_right _ fun _ _ hNone => List.all_eq_true.mpr fun head hHead => ?_
      exact List.all_eq_true.mp hNone head (List.mem_insert_of_mem hHead)
    · rw [Finset.mem_filter, Finset.mem_range, hOffset]
      refine ⟨target.getPageOffset_lt, List.all_eq_true.mpr fun head hHead => decide_eq_true fun hSame => ?_⟩
      exact hNew (hSame ▸ hHead)
    · rw [Finset.mem_filter, hOffset]
      exact fun hNone => of_decide_eq_true (List.all_eq_true.mp hNone.2 target List.mem_insert_self) rfl
  simp only [work, enter, hSame]
  omega

theorem work_step (hStep : s.step isa supportChaining = some s') : work s' < work s := by
  obtain ⟨t, status, hEmit, -⟩ := emitInstruction_eq isa s
  obtain ⟨hRunning, ⟨-, rfl⟩ | ⟨hContinues, hCases⟩⟩ := step_eq_some hStep
  · simp only [work, finish, hRunning]
    exact Nat.add_lt_add_left (by simp) _
  obtain ⟨hPage, hCount, -⟩ := of_decide_eq_true hContinues
  have hLess : s.count < 32 := hCount
  rw [hEmit] at hCases
  have hWork : work { s.writeBackState isa with translation := t, status := status } < work s := by
    simp only [work, writeBackState, hRunning, if_pos]
    split <;> omega
  rcases hCases with ⟨-, rfl⟩ | ⟨-, ⟨pc, rfl⟩ | ⟨target, hNew, hTarget, rfl⟩ | rfl⟩
  · exact hWork
  · exact hWork
  · have hTargetPage : target.pageBase = s.pcPage.setWidth 64 := by
      rw [← hPage]
      exact BitVec.eq_of_toNat_eq (by rw [Address.toNat_pageBase, Address.toNat_pageBase, hTarget])
    exact lt_trans (@work_enter _ _ _ { s.writeBackState isa with translation := t, status := status } target hNew
      hTargetPage) hWork
  · refine lt_of_le_of_lt ?_ hWork
    simp only [work, finish]
    exact Nat.add_le_add_left (by simp) _

/-- The thread, with the `ITSTATE` that the instructions so far lead to. -/
def Tracks (thread : Thread μ ρ) (s : EmitBlock μ ρ β) : Prop :=
  s.thread = { thread with itstate := itstateAfter thread.itstate s.decoded }

theorem tracks_step {thread : Thread μ ρ} (hTracks : Tracks thread s) (hStep : s.step isa supportChaining = some s') :
    Tracks thread s' := by
  have hWritten : Tracks thread (s.writeBackState isa) := by
    unfold Tracks at *
    simp only [writeBackState, decodeSync, ARMDecodeContext.decodeSync, hTracks, itstateAfter, List.foldl_append,
      List.foldl_cons, List.foldl_nil]
  obtain ⟨t, status, hEmit, -⟩ := emitInstruction_eq isa s
  obtain ⟨-, ⟨-, rfl⟩ | ⟨-, hCases⟩⟩ := step_eq_some hStep
  · exact hTracks
  rw [hEmit] at hCases
  rcases hCases with ⟨-, rfl⟩ | ⟨-, ⟨pc, rfl⟩ | ⟨target, -, -, rfl⟩ | rfl⟩ <;> exact hWritten

end EmitBlock

section Translations

variable {μ ρ β : Type*} (isa : Isa μ β) (supportChaining : Bool) (builder : β) (thread : Thread μ ρ) (address : Address)

/-- The result of `translate_block`. -/
def Translates (result : EmitBlock μ ρ β) : Prop :=
  ∃ n, translateBlock isa supportChaining builder n thread address = some result

/-- Every jump that is merged goes to a new place of the page, and every block has few instructions. -/
theorem translateBlock_ends : ∃ result, Translates isa supportChaining builder thread address result := by
  obtain ⟨result, hRun, -⟩ := Loop.exhaust_spec (fun s s' (_ : True) hStep => ⟨trivial, EmitBlock.work_step hStep⟩)
    (Nat.lt_succ_self (EmitBlock.work (.start builder thread address))) trivial
  exact ⟨result, _, hRun⟩

variable {isa supportChaining builder thread address}

theorem Translates.unique {result result' : EmitBlock μ ρ β}
    (hRun : Translates isa supportChaining builder thread address result)
    (hRun' : Translates isa supportChaining builder thread address result') : result' = result := by
  obtain ⟨n, hRun⟩ := hRun
  obtain ⟨m, hRun'⟩ := hRun'
  have hBoth := (Loop.exhaust_of_le (le_max_left n m) hRun).symm.trans (Loop.exhaust_of_le (le_max_right n m) hRun')
  exact (Option.some.inj hBoth).symm

/-- Translation leaves the thread as it was exactly when its block brings `ITSTATE` back. -/
theorem thread_unchanged_iff {result : EmitBlock μ ρ β}
    (hRun : Translates isa supportChaining builder thread address result) :
    result.thread = thread ↔ Restores thread.itstate result.decoded := by
  obtain ⟨n, hRun⟩ := hRun
  have hTracks : EmitBlock.Tracks thread result := Loop.exhaust_invariant (fun _ _ => EmitBlock.tracks_step) hRun rfl
  rw [← itstateAfter_eq_self, hTracks]
  constructor
  · exact fun hSame => congrArg Thread.itstate hSame
  · intro hSame
    rw [hSame]

end Translations

/-! ## Two translations side by side -/

variable {μ ρ β : Type*}

/-- Two translations that differ at most in the levels of features outside a set. -/
structure Alike (required : BitVec 32 → Prop) (t u : Translation β) : Prop where
  levels : ∀ feature, required feature →
    t.featureLevels.getFeatureLevel feature = u.featureLevels.getFeatureLevel feature
  rest : u = { t with featureLevels := u.featureLevels }

variable {required : BitVec 32 → Prop}

/-- The translation of an instruction depends on no level but those of the features it has read. -/
theorem Emit.run_alike {emit : Emit β} {t t' u : Translation β} (hAlike : Alike required t u)
    (hRun : emit.run t = some t') (hReads : ∀ feature ∈ t'.readFeatureLevels, required feature) :
    ∃ u', emit.run u = some u' ∧ Alike required t' u' := by
  induction emit generalizing t u with
  | done => exact ⟨u, rfl, Option.some.inj hRun ▸ hAlike⟩
  | build call next ih =>
    obtain ⟨hLevels, hRest⟩ := hAlike
    rw [Emit.run] at hRun
    rw [Emit.run, hRest]
    refine ih _ ?_ hRun
    exact ⟨hLevels, rfl⟩
  | getFeatureLevel feature next ih =>
    obtain ⟨hLevels, hRest⟩ := hAlike
    rw [Emit.run] at hRun
    cases hLevel : t.featureLevels.getFeatureLevel feature with
    | none =>
      rw [hLevel] at hRun
      cases hRun
    | some level =>
      rw [hLevel] at hRun
      have hRequired : required feature := hReads feature (Emit.reads_mono hRun (List.mem_insert_self ..))
      rw [Emit.run, ← hLevels feature hRequired, hLevel, hRest]
      refine ih level ?_ hRun
      exact ⟨hLevels, rfl⟩
  | setFeatureLevel feature level call next ih =>
    obtain ⟨hLevels, hRest⟩ := hAlike
    rw [Emit.run] at hRun
    rw [Emit.run, hRest]
    refine ih ?_ hRun
    refine ⟨fun other hOther => ?_, rfl⟩
    simp only [ProcessorFeatureSet.getFeatureLevel_setFeatureLevel, hLevels other hOther]
  | invalidateFeatures next ih =>
    obtain ⟨hLevels, hRest⟩ := hAlike
    rw [Emit.run] at hRun
    rw [Emit.run, hRest]
    refine ih ?_ hRun
    exact ⟨hLevels, rfl⟩
  | setIsaMode mode call next ih =>
    obtain ⟨hLevels, hRest⟩ := hAlike
    cases mode with
    | none | some =>
      rw [Emit.run] at hRun
      rw [Emit.run, hRest]
      refine ih ?_ hRun
      exact ⟨hLevels, rfl⟩

namespace EmitBlock

/-- Two loops at the same place, for threads with the same memory. -/
structure Related (required : BitVec 32 → Prop) (s t : EmitBlock μ ρ β) : Prop where
  memory : t.thread.memory = s.thread.memory
  alike : Alike required s.translation t.translation
  rest : t = { s with thread := t.thread, translation := t.translation }

/-- The block is or may still be translated, has read required features only, and its instructions are decoded alike
from two states. -/
def Good (required : BitVec 32 → Prop) (itstate itstate' : ITState) (s : EmitBlock μ ρ β) : Prop :=
  s.status ≠ .failed ∧ (∀ feature ∈ s.translation.readFeatureLevels, required feature) ∧
    SamePredicates itstate itstate' s.decoded

variable {isa : Isa μ β} {supportChaining : Bool} {s s' t : EmitBlock μ ρ β}

theorem alike_writeBackItstate {decode : Decode} {t u : Translation β} (hAlike : Alike required t u) :
    Alike required (writeBackItstate isa decode t) (writeBackItstate isa decode u) := by
  obtain ⟨hLevels, hRest⟩ := hAlike
  unfold writeBackItstate
  cases decode.predicate with
  | none => exact ⟨hLevels, hRest⟩
  | some info =>
    dsimp only
    split
    · refine ⟨hLevels, ?_⟩
      rw [hRest]
    · exact ⟨hLevels, hRest⟩

theorem Related.fetched_eq (hRelated : Related required s t) (isa : Isa μ β) : t.fetched isa = s.fetched isa := by
  obtain ⟨hMemory, ⟨-, hTranslation⟩, hRest⟩ := hRelated
  unfold fetched
  rw [hMemory, hTranslation, hRest]

theorem emitInstruction_related (hRelated : Related required s t)
    (hDecode : (t.decodeSync isa).1 = (s.decodeSync isa).1) (hOk : (s.emitInstruction isa).status ≠ .failed)
    (hReads : ∀ feature ∈ (s.emitInstruction isa).translation.readFeatureLevels, required feature) :
    Related required (s.emitInstruction isa) (t.emitInstruction isa) := by
  have hFetched := hRelated.fetched_eq isa
  have hWritten : t.writeBackState isa = { s.writeBackState isa with
      thread := (t.writeBackState isa).thread, translation := t.translation } := by
    have hMode : t.translation.isaMode = s.translation.isaMode := by rw [hRelated.alike.rest]
    unfold writeBackState
    rw [hFetched, hMode, hRelated.rest]
  unfold emitInstruction at hOk hReads ⊢
  rw [hDecode, hFetched]
  split at hOk
  next => exact absurd rfl hOk
  next hCode =>
    rw [if_neg hCode] at hReads
    rw [if_neg hCode, if_neg hCode]
    cases hRun : (isa.translateInstruction (s.decodeSync isa).1).run s.translation with
    | none =>
      rw [hRun] at hOk
      exact absurd rfl hOk
    | some t' =>
      rw [hRun] at hReads
      dsimp only at hReads
      rw [reads_writeBackItstate] at hReads
      obtain ⟨u', hOther, hAlike⟩ := Emit.run_alike hRelated.alike hRun hReads
      rw [hOther]
      refine ⟨hRelated.memory, alike_writeBackItstate hAlike, ?_⟩
      dsimp only
      rw [hWritten]

theorem good_of_step {itstate itstate' : ITState} (hStep : s.step isa supportChaining = some s')
    (hGood : Good required itstate itstate' s') : Good required itstate itstate' s := by
  obtain ⟨t, status, hEmit, hReads⟩ := emitInstruction_eq isa s
  obtain ⟨hRunning, hCases⟩ := step_eq_some hStep
  have hRead : s.translation.readFeatureLevels ⊆ s'.translation.readFeatureLevels ∧
      ∃ more, s'.decoded = s.decoded ++ more := by
    rcases hCases with ⟨-, rfl⟩ | ⟨-, hCases⟩
    · exact ⟨List.Subset.refl _, [], (List.append_nil _).symm⟩
    rw [hEmit] at hCases
    rcases hCases with ⟨-, rfl⟩ | ⟨-, ⟨pc, rfl⟩ | ⟨target, -, -, rfl⟩ | rfl⟩ <;> exact ⟨hReads, _, rfl⟩
  obtain ⟨hSubset, more, hMore⟩ := hRead
  refine ⟨by rw [hRunning]; nofun, fun feature hMem => hGood.2.1 feature (hSubset hMem), ?_⟩
  exact SamePredicates.of_append (hMore ▸ hGood.2.2)

section

variable (hRelated : Related required s t)
include hRelated

theorem related_finish : Related required (s.finish isa) (t.finish isa) := by
  obtain ⟨hMemory, ⟨hLevels, hTranslation⟩, hRest⟩ := hRelated
  refine ⟨hMemory, ⟨hLevels, ?_⟩, ?_⟩
  · unfold finish
    rw [hTranslation]
  · unfold finish
    rw [hRest]

theorem related_enter (target : Address) : Related required (s.enter target) (t.enter target) := by
  obtain ⟨hMemory, hAlike, hRest⟩ := hRelated
  refine ⟨hMemory, hAlike, ?_⟩
  unfold enter
  rw [hRest]

theorem Related.continues_eq : t.continues = s.continues := by
  obtain ⟨-, ⟨-, hTranslation⟩, hRest⟩ := hRelated
  unfold continues
  rw [hTranslation, hRest]

theorem Related.canMergeJump_eq (isa : Isa μ β) (supportChaining : Bool) (decode : Decode) :
    t.canMergeJump isa supportChaining decode = s.canMergeJump isa supportChaining decode := by
  obtain ⟨-, ⟨-, hTranslation⟩, hRest⟩ := hRelated
  unfold canMergeJump
  rw [hTranslation, hRest]

/-- Instructions that are decoded alike from the states that two threads start in. -/
theorem decodeSync_eq {thread other : Thread μ ρ} (hTracks : Tracks thread s) (hTracks' : Tracks other t)
    (hSame : SamePredicates thread.itstate other.itstate (s.decoded ++ [(s.translation.isaMode, s.fetched isa)])) :
    (t.decodeSync isa).1 = (s.decodeSync isa).1 := by
  have hMode : t.translation.isaMode = s.translation.isaMode := by rw [hRelated.alike.rest]
  have hDecoded : t.decoded = s.decoded := by rw [hRelated.rest]
  unfold decodeSync
  rw [hRelated.fetched_eq isa, hMode, hTracks, hTracks', hDecoded]
  exact (hSame s.decoded _ [] rfl).symm

theorem related_step {thread other : Thread μ ρ} (hTracks : Tracks thread s) (hTracks' : Tracks other t)
    (hStep : s.step isa supportChaining = some s') (hGood : Good required thread.itstate other.itstate s') :
    ∃ t', t.step isa supportChaining = some t' ∧ Related required s' t' := by
  obtain ⟨hRunning, hCases⟩ := step_eq_some hStep
  have hStatus : t.status = s.status := by rw [hRelated.rest]
  have hPc : t.pc = s.pc := by rw [hRelated.rest]
  have hHeads : t.blockHeads = s.blockHeads := by rw [hRelated.rest]
  rcases hCases with ⟨hEnds, rfl⟩ | ⟨hContinues, hCases⟩
  · refine ⟨t.finish isa, ?_, related_finish hRelated⟩
    simp [step, hStatus, hRunning, hRelated.continues_eq, hEnds]
  · have hEmitted : (s.emitInstruction isa).status ≠ .failed ∧
        s'.translation.readFeatureLevels = (s.emitInstruction isa).translation.readFeatureLevels ∧
        s'.decoded = (s.emitInstruction isa).decoded := by
      rcases hCases with ⟨hFailed, rfl⟩ | ⟨hOk, ⟨pc, rfl⟩ | ⟨target, -, -, rfl⟩ | rfl⟩
      · exact absurd hFailed hGood.1
      all_goals exact ⟨hOk, rfl, rfl⟩
    obtain ⟨hOk, hReads, hDecoded⟩ := hEmitted
    have hSame := hGood.2.2
    obtain ⟨_, _, hEmit, -⟩ := emitInstruction_eq isa s
    rw [hDecoded, hEmit] at hSame
    have hDecode := decodeSync_eq hRelated hTracks hTracks' hSame
    have hEmitted := emitInstruction_related hRelated hDecode hOk (hReads ▸ hGood.2.1)
    have hStatusAfter : (t.emitInstruction isa).status = (s.emitInstruction isa).status := by rw [hEmitted.rest]
    have hMerge := hEmitted.canMergeJump_eq isa supportChaining
    unfold step at hStep ⊢
    simp only [hStatus, hRelated.continues_eq, hRunning, hContinues, hStatusAfter, hOk, hDecode, hPc,
      hHeads, hMerge, ne_eq, not_true_eq_false, if_false, Bool.true_eq_false] at hStep ⊢
    split at hStep
    next hMore =>
      obtain rfl := Option.some.inj hStep
      refine ⟨_, if_pos hMore, hEmitted.memory, hEmitted.alike, ?_⟩
      rw [hEmitted.rest]
    next hEnd =>
      split at hStep
      next hMerges =>
        obtain rfl := Option.some.inj hStep
        exact ⟨_, (if_neg hEnd).trans (if_pos hMerges), related_enter hEmitted _⟩
      next hMerges =>
        obtain rfl := Option.some.inj hStep
        exact ⟨_, (if_neg hEnd).trans (if_neg hMerges), related_finish hEmitted⟩

end

end EmitBlock

/-- The block of a thread serves another that agrees on the mode, the memory and the levels that the translation
records, if its instructions are decoded alike from the `ITSTATE` of both. -/
theorem translates_alike {isa : Isa μ β} {supportChaining : Bool} {builder : β} {thread other : Thread μ ρ}
    {address : Address} {result : EmitBlock μ ρ β}
    (hRun : Translates isa supportChaining builder thread address result)
    (hFinished : result.status = .finished) (hMode : other.mode = thread.mode)
    (hMemory : other.memory = thread.memory)
    (hLevels : ∀ feature, Requires result feature →
      thread.features.getFeatureLevel feature = other.features.getFeatureLevel feature)
    (hSame : SamePredicates thread.itstate other.itstate result.decoded) :
    ∃ result', Translates isa supportChaining builder other address result' ∧
      EmitBlock.Related (Requires result) result result' := by
  obtain ⟨n, hRun⟩ := hRun
  have hStart : EmitBlock.Related (Requires result) (.start builder thread address) (.start builder other address) := by
    refine ⟨hMemory, ⟨hLevels, ?_⟩, rfl⟩
    unfold EmitBlock.start EmitBlock.enter
    rw [hMode]
  have hGood : EmitBlock.Good (Requires result) thread.itstate other.itstate result :=
    ⟨by rw [hFinished]; nofun, fun _ hMem => hMem, hSame⟩
  let InStep (s t : EmitBlock μ ρ β) : Prop :=
    EmitBlock.Related (Requires result) s t ∧ EmitBlock.Tracks thread s ∧ EmitBlock.Tracks other t
  have hStop (s t : EmitBlock μ ρ β) (hInStep : InStep s t) (hStep : s.step isa supportChaining = none) :
      t.step isa supportChaining = none := by
    have hStatus : t.status = s.status := by rw [hInStep.1.rest]
    rw [EmitBlock.step, if_pos]
    rw [hStatus]
    exact EmitBlock.step_eq_none hStep
  have hNext (s t s' : EmitBlock μ ρ β) (hInStep : InStep s t) (hStep : s.step isa supportChaining = some s')
      (hGood : EmitBlock.Good (Requires result) thread.itstate other.itstate s') :
      ∃ t', t.step isa supportChaining = some t' ∧ InStep s' t' := by
    obtain ⟨hRelated, hTracks, hTracks'⟩ := hInStep
    obtain ⟨t', hNext, hRelated'⟩ := EmitBlock.related_step hRelated hTracks hTracks' hStep hGood
    exact ⟨t', hNext, hRelated', EmitBlock.tracks_step hTracks hStep, EmitBlock.tracks_step hTracks' hNext⟩
  obtain ⟨result', hOther, hRelated, -⟩ :=
    Loop.exhaust_related (fun _ _ => EmitBlock.good_of_step) hStop hNext hRun hGood ⟨hStart, rfl, rfl⟩
  exact ⟨result', ⟨n, hOther⟩, hRelated⟩

/-- For threads that agree on the mode and the memory: both are translated, a translation leaves its thread as it was
exactly if its block brings `ITSTATE` back, and they get the same block if they agree on the levels that the
translation records and the instructions are decoded alike from the `ITSTATE` of both. -/
theorem translateBlock_independent (isa : Isa μ β) (supportChaining : Bool) (builder : β) (thread other : Thread μ ρ)
    (address : Address) (hMode : other.mode = thread.mode) (hMemory : other.memory = thread.memory) :
    ∃ result result', Translates isa supportChaining builder thread address result ∧
      Translates isa supportChaining builder other address result' ∧
      (result.thread = thread ↔ Restores thread.itstate result.decoded) ∧
      (result'.thread = other ↔ Restores other.itstate result'.decoded) ∧
      (result.status = .finished → (∀ feature, Requires result feature →
          thread.features.getFeatureLevel feature = other.features.getFeatureLevel feature) →
        SamePredicates thread.itstate other.itstate result.decoded →
        result'.status = .finished ∧ result'.decoded = result.decoded ∧
          result'.translation.builder = result.translation.builder) := by
  obtain ⟨result, hRun⟩ := translateBlock_ends isa supportChaining builder thread address
  obtain ⟨result', hRun'⟩ := translateBlock_ends isa supportChaining builder other address
  refine ⟨result, result', hRun, hRun', thread_unchanged_iff hRun, thread_unchanged_iff hRun', ?_⟩
  intro hFinished hLevels hSame
  obtain ⟨last, hLast, -, ⟨-, hTranslation⟩, hRest⟩ := translates_alike hRun hFinished hMode hMemory hLevels hSame
  obtain rfl := hRun'.unique hLast
  refine ⟨?_, ?_, ?_⟩
  · rw [hRest, hFinished]
  · rw [hRest]
  · rw [hTranslation]

/-- Memory full of branches, each translated to a test of its predicate, if it has one. -/
def branches : Isa Unit (List IRInstruction) where
  decodeInstr _ mode _ := ⟨1, 0x47700000, if mode = 0 then 4 else 2, true, mode, none⟩
  getJumpInfo _ _ := ⟨true, false, 0⟩
  translateInstruction decode := .build (fun code => (0, code ++
    (decode.predicate.map fun info => ⟨.branch, [.constant (info.setWidth 64) 4], 0⟩).toList))
    fun _ => .done
  stregItstate itstate code :=
    code ++ [⟨.writeReg, [.constant (itstate.setWidth 64) 1, .constant 0 4], 0⟩]
  ret code := code ++ [⟨.ret, [], 0⟩]

def branchThread (mode : Nat) (itstate : ITState) : Thread Unit Unit := ⟨mode, .empty, (), itstate, ()⟩

def branchBlock (mode : Nat) (itstate : ITState) : Option (EmitBlock Unit Unit (List IRInstruction)) :=
  translateBlock branches true [] 2 (branchThread mode itstate) 0x1000

/-- The condition of a branch in ARM mode is its own, whatever `ITSTATE` is. -/
theorem translateBlock_independent_branch :
    ∃ result result', Translates branches true [] (branchThread 0 0) 0x1000 result ∧
      Translates branches true [] (branchThread 0 0x20) 0x1000 result' ∧ result.thread = branchThread 0 0 ∧
      result'.thread = branchThread 0 0x20 ∧ result'.translation.builder = result.translation.builder := by
  obtain ⟨result, result', hRun, hRun', hThread, hThread', hSame⟩ :=
    translateBlock_independent branches true [] (branchThread 0 0) (branchThread 0 0x20) 0x1000 rfl rfl
  have hBlock : (branchBlock 0 0).map (fun result => (result.status, result.decoded)) =
      some (.finished, [(0, branches.decodeInstr () 0 0x1000)]) := rfl
  obtain ⟨block, hBlock, hResult⟩ := Option.map_eq_some_iff.mp hBlock
  obtain ⟨hFinished, hDecoded⟩ := Prod.mk.inj hResult
  obtain rfl := hRun.unique ⟨2, hBlock⟩
  have hNot : ∀ instruction ∈ block.decoded, NotIt instruction := by
    rw [hDecoded]
    simp only [List.mem_singleton, forall_eq]
    decide
  obtain ⟨-, hDecoded', hBuilder⟩ := hSame hFinished (fun _ _ => rfl) (by
    rw [hDecoded]
    rintro (_ | ⟨first, before⟩) instruction after hSplit
    · cases hSplit
      decide
    · simp at hSplit)
  exact ⟨block, result', hRun, hRun', hThread.mpr (.inl ⟨hNot, .inr (by decide)⟩),
    hThread'.mpr (.inl ⟨hDecoded' ▸ hNot, .inr (by decide)⟩), hBuilder⟩

/-- The block of a thread in an IT block has a predicate and writes `ITSTATE`, and `ITSTATE` is changed
by the translation itself. -/
theorem itstate_changes_block :
    (branchBlock 1 0).map (·.translation.builder) = some [⟨.ret, [], 0⟩] ∧
      (branchBlock 1 8).map (·.translation.builder) = some [⟨.branch, [.constant 8 4], 0⟩,
        ⟨.writeReg, [.constant 0 1, .constant 0 4], 0⟩, ⟨.ret, [], 0⟩] ∧
      (branchBlock 1 8).map (·.thread.itstate) = some 0 :=
  ⟨rfl, rfl, rfl⟩

end Gensim.BlockJIT
