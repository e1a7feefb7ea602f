import Mathlib.Data.List.Sort
import Mathlib.Tactic
import Gensim.Generators.DecodeInsertion

/-! Left-factoring of the edges of a decode tree by popular prefixes.  The optimised tree has
the same paths. -/
namespace Gensim.Generator

open BitPattern Isa

variable {ι : Type}

namespace DecodeNode

/-! A prefix is a length and a value. -/

/-- The prefixes of the edges long enough to be grouped, one entry for each edge and length. -/
def prefixes (minPrefixLength : Nat) (transitions : List (DecodeTransition ι)) :
    List (Nat × BitVec 32) :=
  (transitions.filter (minPrefixLength ≤ ·.1)).flatMap fun t =>
    ((List.range (t.1 - minPrefixLength + 1)).reverse.filter (minPrefixLength ≤ ·)).map fun length =>
      (length, unsignedBits t.2.1 (t.1 - 1) (t.1 - length))

/-- The order of `prefix_ranking` read backwards: most popular first, then by length and
value. -/
def rankedBefore (all : List (Nat × BitVec 32)) (p q : Nat × BitVec 32) : Bool :=
  all.count q < all.count p ||
    (all.count p == all.count q && (q.1 < p.1 || (p.1 == q.1 && q.2.toNat ≤ p.2.toNat)))

def prefixRanking (minPrefixMembers : Nat) (all : List (Nat × BitVec 32)) : List (Nat × BitVec 32) :=
  (all.dedup.filter (minPrefixMembers ≤ all.count ·)).mergeSort (rankedBefore all)

/-- One prefix is the beginning of the other. -/
def overlap (p q : Nat × BitVec 32) : Bool :=
  let a := Util.formatBinary p.2 p.1
  let b := Util.formatBinary q.2 q.1
  b.isPrefixOf a || a.isPrefixOf b

def selectedPrefixes (ranking : List (Nat × BitVec 32)) : List (Nat × BitVec 32) :=
  ranking.foldl (fun selected p => if selected.any (overlap · p) then selected else selected ++ [p]) []

def matchesPrefix (p : Nat × BitVec 32) (t : DecodeTransition ι) : Bool :=
  p.1 ≤ t.1 && unsignedBits t.2.1 (t.1 - 1) (t.1 - p.1) == p.2

/-- Move an edge below the new node.  An edge equal to the prefix becomes the unconstrained
transition of length zero, whose value is never read. -/
def addShortened (p : Nat × BitVec 32) : DecodeNode ι → DecodeTransition ι → DecodeNode ι
  | .mk startPtr target transitions unconstrained, (length, value, kid) =>
      if length - p.1 = 0 then .mk startPtr target transitions (some (length - p.1, kid))
      else
        .mk startPtr target
          (insertTransition (length - p.1, unsignedBits value (length - p.1 - 1) 0, kid) transitions)
          unconstrained

def splitPrefix (startPtr : Nat) (transitions : List (DecodeTransition ι)) (p : Nat × BitVec 32) :
    List (DecodeTransition ι) :=
  let newNode := (transitions.filter (matchesPrefix p)).foldl (addShortened p)
    (.mk (startPtr + p.1) none [] none)
  insertTransition (p.1, p.2, newNode) (transitions.filter fun t => !matchesPrefix p t)

/-- The transitions of a node after its prefixes have been factored out. -/
def factored (minPrefixLength minPrefixMembers startPtr : Nat)
    (transitions : List (DecodeTransition ι)) : List (DecodeTransition ι) :=
  if (transitions.filter (minPrefixLength ≤ ·.1)).isEmpty then transitions
  else
    (selectedPrefixes (prefixRanking minPrefixMembers (prefixes minPrefixLength transitions))).foldl
      (splitPrefix startPtr) transitions

def optimize (minPrefixLength minPrefixMembers : Nat) : Nat → DecodeNode ι → Option (DecodeNode ι)
  | 0, _ => none
  | fuel + 1, .mk startPtr target transitions unconstrained => do
      let transitions ← (factored minPrefixLength minPrefixMembers startPtr transitions).mapM fun t =>
        (optimize minPrefixLength minPrefixMembers fuel t.2.2).map fun kid => (t.1, t.2.1, kid)
      match unconstrained with
      | none => return .mk startPtr target transitions none
      | some (length, kid) => do
          let kid ← optimize minPrefixLength minPrefixMembers fuel kid
          return .mk startPtr target transitions (some (length, kid))

/-! What the selection guarantees: distinct beginnings of the edges of the node. -/

/-- A prefix of an edge of a node at `start`. -/
structure GoodPrefix (start : Nat) (p : Nat × BitVec 32) : Prop where
  positive : 1 ≤ p.1
  range : start + p.1 < 32
  value : p.2.toNat < 2 ^ p.1

variable {transitions : List (DecodeTransition ι)} {p : Nat × BitVec 32}

theorem good_of_mem_prefixes {minPrefixLength start : Nat} (hMin : 1 ≤ minPrefixLength)
    (hEdges : GoodEdges start transitions) (hMem : p ∈ prefixes minPrefixLength transitions) : GoodPrefix start p := by
  simp only [prefixes, List.mem_flatMap, List.mem_filter, decide_eq_true_eq, List.mem_map,
    List.mem_reverse, List.mem_range] at hMem
  obtain ⟨t, ⟨hMem, hLong⟩, length, ⟨hUpper, hLower⟩, rfl⟩ := hMem
  obtain ⟨hPos, hRange, -⟩ := hEdges.bounds t hMem
  refine ⟨by dsimp only; omega, by dsimp only; omega, ?_⟩
  dsimp only
  rw [unsignedBits_high hPos (by omega) (by omega)]
  exact field_lt (by omega)

theorem selectedPrefixes_spec (ranking : List (Nat × BitVec 32)) : (∀ p ∈ selectedPrefixes ranking, p ∈ ranking) ∧
      (selectedPrefixes ranking).Pairwise fun p q => overlap p q = false := by
  induction ranking using List.reverseRecOn with
  | nil => exact ⟨by simp [selectedPrefixes], .nil⟩
  | append_singleton ranking p ih =>
    rw [selectedPrefixes, List.foldl_append, ← selectedPrefixes, List.foldl_cons, List.foldl_nil]
    split
    · exact ⟨fun q hq => List.mem_append_left _ (ih.1 q hq), ih.2⟩
    · rename_i hApart
      refine ⟨fun q hq => ?_, List.pairwise_append.mpr ⟨ih.2, List.pairwise_singleton _ _, ?_⟩⟩
      · rcases List.mem_append.mp hq with hOld | hNew
        · exact List.mem_append_left _ (ih.1 q hOld)
        · exact List.mem_append_right _ hNew
      · intro q hq r hr
        rw [List.mem_singleton.mp hr]
        simpa using fun h => hApart (List.any_eq_true.mpr ⟨q, hq, h⟩)

/-! Moving the edges below a new node. -/

variable {t : DecodeTransition ι}

/-- An edge with the prefix reads the prefix and then the rest of its value. -/
theorem constant_of_matchesPrefix (hPos : 1 ≤ t.1) (hLen : t.1 ≤ 32) (hMatch : matchesPrefix p t = true) :
    constant t.1 t.2.1 =
      constant p.1 p.2 ++ constant (t.1 - p.1) (field t.2.1 (32 - (t.1 - p.1)) (t.1 - p.1)) := by
  simp only [matchesPrefix, Bool.and_eq_true, decide_eq_true_eq, beq_iff_eq] at hMatch
  obtain ⟨hLe, hValue⟩ := hMatch
  rw [unsignedBits_high hPos hLen hLe] at hValue
  rw [constant_split hLen hLe, hValue]

theorem le_of_matchesPrefix (hMatch : matchesPrefix p t = true) : p.1 ≤ t.1 := by
  simp only [matchesPrefix, Bool.and_eq_true, decide_eq_true_eq] at hMatch
  exact hMatch.1

variable {start : Nat}

/-- Edges that agree after the prefix are the same edge. -/
theorem value_eq_of_shortened {t u : DecodeTransition ι} (ht : 1 ≤ t.1 ∧ start + t.1 ≤ 32 ∧ t.2.1.toNat < 2 ^ t.1)
    (hu : 1 ≤ u.1 ∧ start + u.1 ≤ 32 ∧ u.2.1.toNat < 2 ^ u.1) (hMatchT : matchesPrefix p t = true)
    (hMatchU : matchesPrefix p u = true) (hLength : t.1 = u.1)
    (hValue : field t.2.1 (32 - (t.1 - p.1)) (t.1 - p.1) = field u.2.1 (32 - (u.1 - p.1)) (u.1 - p.1)) :
    t.2.1 = u.2.1 := by
  apply constant_injective ht.2.2 (by rw [hLength]; exact hu.2.2)
  rw [constant_of_matchesPrefix ht.1 (by omega) hMatchT, hValue, hLength,
    constant_of_matchesPrefix hu.1 (by omega) hMatchU]

/-- The node made of the shortened `edges`: its transitions are theirs, and one edge at most
was the prefix itself. -/
structure Shortened (p : Nat × BitVec 32) (start : Nat) (edges : List (DecodeTransition ι))
    (transitions : List (DecodeTransition ι)) (unconstrained : Option (Nat × DecodeNode ι)) :
    Prop where
  good : GoodEdges (start + p.1) transitions
  mem : ∀ u, u ∈ transitions ↔ ∃ t ∈ edges, p.1 < t.1 ∧
    u = (t.1 - p.1, field t.2.1 (32 - (t.1 - p.1)) (t.1 - p.1), t.2.2)
  skip : ∀ u, unconstrained = some u ↔ ∃ t ∈ edges, t.1 = p.1 ∧ u = (0, t.2.2)

theorem foldl_addShortened {edges : List (DecodeTransition ι)}
    (hBounds : ∀ t ∈ edges, 1 ≤ t.1 ∧ start + t.1 ≤ 32 ∧ t.2.1.toNat < 2 ^ t.1)
    (hDistinct : edges.Pairwise fun t u => ¬ (t.1 = u.1 ∧ t.2.1 = u.2.1))
    (hMatch : ∀ t ∈ edges, matchesPrefix p t = true) : ∃ transitions unconstrained,
      edges.foldl (addShortened p) (.mk (start + p.1) none [] none) =
        .mk (start + p.1) none transitions unconstrained ∧ Shortened p start edges transitions unconstrained := by
  induction edges using List.reverseRecOn with
  | nil => exact ⟨[], none, rfl, ⟨by simp, .nil, .nil⟩, by simp, by simp⟩
  | append_singleton edges t ih =>
    obtain ⟨hOld, -, hNew⟩ := List.pairwise_append.mp hDistinct
    have hBoundsOld : ∀ u ∈ edges, 1 ≤ u.1 ∧ start + u.1 ≤ 32 ∧ u.2.1.toNat < 2 ^ u.1 :=
      fun u hu => hBounds u (List.mem_append_left _ hu)
    have hMatchOld : ∀ u ∈ edges, matchesPrefix p u = true := fun u hu => hMatch u (List.mem_append_left _ hu)
    have hBoundsT := hBounds t (by simp)
    have hMatchT := hMatch t (by simp)
    have hLe := le_of_matchesPrefix hMatchT
    obtain ⟨transitions, unconstrained, hFold, hShort⟩ := ih hBoundsOld hOld hMatchOld
    -- an earlier edge that is shortened to the same length and value
    have hClash : ∀ u ∈ edges, u.1 = t.1 → field u.2.1 (32 - (u.1 - p.1)) (u.1 - p.1) ≠
        field t.2.1 (32 - (t.1 - p.1)) (t.1 - p.1) := by
      intro u hu hLength hValue
      exact hNew u hu t (by simp) ⟨hLength, value_eq_of_shortened (hBoundsOld u hu) hBoundsT
        (hMatchOld u hu) hMatchT hLength hValue⟩
    rw [List.foldl_append, hFold, List.foldl_cons, List.foldl_nil, addShortened]
    split
    · rename_i hZero
      have hEq : t.1 = p.1 := by omega
      refine ⟨_, _, rfl, hShort.good, fun u => ?_, fun u => ?_⟩
      · rw [hShort.mem u]
        constructor
        · rintro ⟨v, hv, hLt⟩
          exact ⟨v, List.mem_append_left _ hv, hLt⟩
        · rintro ⟨v, hv, hLt, rfl⟩
          rcases List.mem_append.mp hv with hBefore | hLast
          · exact ⟨v, hBefore, hLt, rfl⟩
          · rw [List.mem_singleton.mp hLast] at hLt
            omega
      · constructor
        · intro h
          exact ⟨t, by simp, hEq, by rw [← Option.some.inj h, hZero]⟩
        · rintro ⟨v, hv, hLength, rfl⟩
          rcases List.mem_append.mp hv with hBefore | hLast
          · have hNone : ∀ a : BitVec 32, field a (32 - (p.1 - p.1)) (p.1 - p.1) = 0 := by
              intro a
              simp [field]
            refine absurd ?_ (hClash v hBefore (hLength.trans hEq.symm))
            rw [hLength, hEq, hNone, hNone]
          · rw [List.mem_singleton.mp hLast, hZero]
    · rename_i hNonzero
      have hLt : p.1 < t.1 := by omega
      have hValue : unsignedBits t.2.1 (t.1 - p.1 - 1) 0 = field t.2.1 (32 - (t.1 - p.1)) (t.1 - p.1) :=
        unsignedBits_low (by omega) (by omega)
      rw [hValue]
      refine ⟨_, _, rfl, hShort.good.insert ?_ ?_, fun u => ?_, fun u => ?_⟩
      · exact ⟨by dsimp only; omega, by dsimp only; omega, field_lt (by omega)⟩
      · intro u hu
        obtain ⟨v, hv, hLtV, rfl⟩ := (hShort.mem u).mp hu
        rintro ⟨hLength, hSame⟩
        dsimp only at hLength hSame
        exact hClash v hv (by omega) hSame
      · rw [mem_insertTransition, hShort.mem u]
        constructor
        · rintro (rfl | ⟨v, hv, hRest⟩)
          · exact ⟨t, by simp, hLt, rfl⟩
          · exact ⟨v, List.mem_append_left _ hv, hRest⟩
        · rintro ⟨v, hv, hLtV, rfl⟩
          rcases List.mem_append.mp hv with hBefore | hLast
          · exact .inr ⟨v, hBefore, hLtV, rfl⟩
          · exact .inl (by rw [List.mem_singleton.mp hLast])
      · rw [hShort.skip u]
        constructor
        · rintro ⟨v, hv, hRest⟩
          exact ⟨v, List.mem_append_left _ hv, hRest⟩
        · rintro ⟨v, hv, hLength, rfl⟩
          rcases List.mem_append.mp hv with hBefore | hLast
          · exact ⟨v, hBefore, hLength, rfl⟩
          · rw [List.mem_singleton.mp hLast] at hLength
            omega

/-- The paths of the new node are those of the edges, without the prefix. -/
theorem Shortened.path_iff {edges transitions : List (DecodeTransition ι)} {unconstrained : Option (Nat × DecodeNode ι)}
    (h : Shortened p start edges transitions unconstrained) (hMatch : ∀ t ∈ edges, matchesPrefix p t = true)
    (offset : Nat) (bits : List BitChar) (insn : ι) :
    (DecodeNode.mk offset none transitions unconstrained).Path bits insn ↔ ∃ t ∈ edges, ∃ rest, t.2.2.Path rest insn ∧
        bits = constant (t.1 - p.1) (field t.2.1 (32 - (t.1 - p.1)) (t.1 - p.1)) ++ rest := by
  constructor
  · intro hPath
    cases hPath with
    | edge hMem hRest =>
      obtain ⟨t, ht, -, hEq⟩ := (h.mem _).mp hMem
      cases hEq
      exact ⟨t, ht, _, hRest, rfl⟩
    | skip hRest =>
      obtain ⟨t, ht, hLength, hEq⟩ := (h.skip _).mp rfl
      cases hEq
      exact ⟨t, ht, _, hRest, by simp [hLength, constant]⟩
  · rintro ⟨t, ht, rest, hRest, rfl⟩
    rcases (le_of_matchesPrefix (hMatch t ht)).lt_or_eq with hLt | hEq
    · exact .edge ((h.mem _).mpr ⟨t, ht, hLt, rfl⟩) hRest
    · obtain rfl := (h.skip (0, t.2.2)).mpr ⟨t, ht, hEq.symm, rfl⟩
      have hPath : (DecodeNode.mk offset none transitions (some (0, t.2.2))).Path
          (List.replicate 0 .any ++ rest) insn := .skip hRest
      simpa [← hEq, constant] using hPath

/-! Factoring out one prefix after the other. -/

/-- A node put on the way to the nodes of the tree: its unconstrained transition may be of
length zero, but the nodes below are as they were inserted. -/
inductive Intermediate : Nat → DecodeNode ι → Prop
  | mk {startPtr : Nat} {transitions : List (DecodeTransition ι)}
      {unconstrained : Option (Nat × DecodeNode ι)} (hStart : startPtr < 32)
      (hEdges : GoodEdges startPtr transitions)
      (hKids : ∀ t ∈ transitions, Wf true (startPtr + t.1) t.2.2)
      (hSkip : ∀ length kid, unconstrained = some (length, kid) → Wf true (startPtr + length) kid) :
      Intermediate startPtr (.mk startPtr none transitions unconstrained)

/-- The transitions after the prefixes in `done` have been factored out of `original`. -/
structure Splitting (start : Nat) (original : List (DecodeTransition ι))
    (done : List (Nat × BitVec 32)) (transitions : List (DecodeTransition ι)) : Prop where
  good : GoodEdges start transitions
  kids : ∀ t ∈ transitions, Wf true (start + t.1) t.2.2 ∨
    (t.1, t.2.1) ∈ done ∧ Intermediate (start + t.1) t.2.2
  paths : ∀ unconstrained bits insn,
    (DecodeNode.mk start none transitions unconstrained).Path bits insn ↔
      (DecodeNode.mk start none original unconstrained).Path bits insn

theorem GoodEdges.filter (h : GoodEdges start transitions) (q : DecodeTransition ι → Bool) :
    GoodEdges start (transitions.filter q) :=
  ⟨fun t ht => h.bounds t (List.mem_of_mem_filter ht), h.sorted.filter q, h.distinct.filter q⟩

/-- An edge whose value is the prefix, or begins with it, overlaps it. -/
theorem overlap_of_matchesPrefix (hBounds : 1 ≤ t.1 ∧ start + t.1 ≤ 32 ∧ t.2.1.toNat < 2 ^ t.1)
    (hMatch : matchesPrefix p t = true) : overlap (t.1, t.2.1) p = true := by
  have hLe := le_of_matchesPrefix hMatch
  simp only [overlap, Bool.or_eq_true, List.isPrefixOf_iff_prefix]
  left
  rw [Util.formatBinary_eq (by omega), Util.formatBinary_eq (by omega),
    constant_of_matchesPrefix hBounds.1 (by omega) hMatch]
  exact List.prefix_append _ _

theorem matchesPrefix_self (hBounds : 1 ≤ t.1 ∧ start + t.1 ≤ 32 ∧ t.2.1.toNat < 2 ^ t.1) :
    matchesPrefix (t.1, t.2.1) t = true := by
  have hWhole : field t.2.1 (32 - t.1) t.1 = t.2.1 := by
    apply constant_injective (field_lt (by omega)) hBounds.2.2
    have hSplit := @constant_split t.2.1 t.1 0 (by omega) (by omega)
    simpa [constant] using hSplit.symm
  simp only [matchesPrefix, le_refl, decide_true, Bool.true_and, beq_iff_eq]
  rw [unsignedBits_high hBounds.1 (by omega) le_rfl, hWhole]

theorem path_splitPrefix (hGood : GoodEdges start transitions) (p : Nat × BitVec 32)
    (unconstrained : Option (Nat × DecodeNode ι)) (bits : List BitChar) (insn : ι) :
    (DecodeNode.mk start none (splitPrefix start transitions p) unconstrained).Path bits insn ↔
      (DecodeNode.mk start none transitions unconstrained).Path bits insn := by
  have hMatched : ∀ t ∈ transitions.filter (matchesPrefix p), matchesPrefix p t = true :=
    fun t ht => (List.mem_filter.mp ht).2
  obtain ⟨kids, skip, hNode, hShort⟩ := foldl_addShortened
    (hGood.filter (matchesPrefix p)).bounds (hGood.filter (matchesPrefix p)).distinct hMatched
  simp only [splitPrefix, hNode]
  constructor
  · intro hPath
    cases hPath with
    | edge hMem hRest =>
      rcases mem_insertTransition.mp hMem with hNew | hOld
      · cases hNew
        obtain ⟨t, ht, rest, hKid, rfl⟩ := (hShort.path_iff hMatched _ _ _).mp hRest
        have hMem := List.mem_of_mem_filter ht
        obtain ⟨hPos, hRange, -⟩ := hGood.bounds t hMem
        rw [← List.append_assoc, ← constant_of_matchesPrefix hPos (by omega) (hMatched t ht)]
        exact .edge hMem hKid
      · exact .edge (List.mem_of_mem_filter hOld) hRest
    | skip hRest => exact .skip hRest
  · intro hPath
    cases hPath with
    | @edge _ length value kid _ _ _ rest hMem hRest =>
      by_cases hMatch : matchesPrefix p (length, value, kid) = true
      · have ht := List.mem_filter.mpr ⟨hMem, hMatch⟩
        obtain ⟨hPos, hRange, -⟩ := hGood.bounds _ hMem
        have hSplit := constant_of_matchesPrefix hPos (by omega) hMatch
        dsimp only at hSplit
        rw [hSplit, List.append_assoc]
        exact .edge (mem_insertTransition.mpr (.inl rfl))
          ((hShort.path_iff hMatched _ _ _).mpr ⟨_, ht, rest, hRest, rfl⟩)
      · exact .edge (mem_insertTransition.mpr (.inr (List.mem_filter.mpr ⟨hMem, by simpa using hMatch⟩))) hRest
    | skip hRest => exact .skip hRest

theorem Splitting.split {original transitions : List (DecodeTransition ι)} {done : List (Nat × BitVec 32)}
    (h : Splitting start original done transitions) (hPrefix : GoodPrefix start p)
    (hApart : ∀ q ∈ done, overlap q p = false) :
    Splitting start original (done ++ [p]) (splitPrefix start transitions p) where
  good := by
    apply (h.good.filter _).insert ⟨hPrefix.positive, hPrefix.range.le, hPrefix.value⟩
    rintro u hu ⟨hLength, hValue⟩
    obtain ⟨hMem, hMiss⟩ := List.mem_filter.mp hu
    have hSelf := matchesPrefix_self (h.good.bounds u hMem)
    rw [show (u.1, u.2.1) = p from Prod.ext hLength hValue] at hSelf
    simp [hSelf] at hMiss
  kids t ht := by
    rcases mem_insertTransition.mp ht with rfl | hOld
    · -- the edges moved below the new node are not those of another selected prefix
      have hMatched : ∀ t ∈ transitions.filter (matchesPrefix p), matchesPrefix p t = true :=
        fun t ht => (List.mem_filter.mp ht).2
      have hStrict : ∀ t ∈ transitions.filter (matchesPrefix p), Wf true (start + t.1) t.2.2 := by
        intro t ht
        have hMem := List.mem_of_mem_filter ht
        rcases h.kids t hMem with hWf | ⟨hDone, -⟩
        · exact hWf
        · have := overlap_of_matchesPrefix (h.good.bounds t hMem) (hMatched t ht)
          rw [hApart _ hDone] at this
          cases this
      obtain ⟨kids, skip, hNode, hShort⟩ := foldl_addShortened
        (h.good.filter (matchesPrefix p)).bounds (h.good.filter (matchesPrefix p)).distinct hMatched
      refine .inr ⟨List.mem_append_right _ List.mem_cons_self, ?_⟩
      dsimp only
      rw [hNode]
      refine .mk hPrefix.range hShort.good ?_ ?_
      · intro u hu
        obtain ⟨t, ht, hLt, rfl⟩ := (hShort.mem u).mp hu
        dsimp only
        rw [Nat.add_assoc, Nat.add_sub_cancel' hLt.le]
        exact hStrict t ht
      · intro length kid hSkip
        obtain ⟨t, ht, hEq, hPair⟩ := (hShort.skip _).mp hSkip
        cases hPair
        rw [Nat.add_zero, ← hEq]
        exact hStrict t ht
    · rcases h.kids t (List.mem_of_mem_filter hOld) with hWf | ⟨hDone, hKid⟩
      · exact .inl hWf
      · exact .inr ⟨List.mem_append_left _ hDone, hKid⟩
  paths unconstrained bits insn :=
    (path_splitPrefix h.good p unconstrained bits insn).trans (h.paths unconstrained bits insn)

theorem Splitting.foldl {original transitions : List (DecodeTransition ι)} {done selected : List (Nat × BitVec 32)}
    (h : Splitting start original done transitions) (hGood : ∀ p ∈ selected, GoodPrefix start p)
    (hApart : (done ++ selected).Pairwise fun p q => overlap p q = false) :
    Splitting start original (done ++ selected) (selected.foldl (splitPrefix start) transitions) := by
  induction selected generalizing done transitions with
  | nil => simpa using h
  | cons p selected ih =>
    have hStep := h.split (hGood p List.mem_cons_self) fun q hq =>
      (List.pairwise_append.mp hApart).2.2 q hq p List.mem_cons_self
    rw [List.append_cons] at hApart ⊢
    exact ih hStep (fun q hq => hGood q (List.mem_cons_of_mem _ hq)) hApart

theorem factored_spec {minPrefixLength start : Nat} (minPrefixMembers : Nat) (hMin : 1 ≤ minPrefixLength)
    (hGood : GoodEdges start transitions) (hKids : ∀ t ∈ transitions, Wf true (start + t.1) t.2.2) :
    ∃ done, Splitting start transitions done
      (factored minPrefixLength minPrefixMembers start transitions) := by
  have hStart : Splitting start transitions [] transitions :=
    ⟨hGood, fun t ht => .inl (hKids t ht), fun _ _ _ => Iff.rfl⟩
  unfold factored
  split
  · exact ⟨[], hStart⟩
  · set ranking := prefixRanking minPrefixMembers (prefixes minPrefixLength transitions)
    obtain ⟨hMem, hApart⟩ := selectedPrefixes_spec ranking
    refine ⟨_, hStart.foldl (fun p hp => good_of_mem_prefixes hMin hGood ?_) hApart⟩
    have hRanked : p ∈ ranking := hMem p hp
    simp only [ranking, prefixRanking, List.mem_mergeSort, List.mem_filter, List.mem_dedup] at hRanked
    exact hRanked.1

/-! The recursion over the tree. -/

theorem exists_mapM {α β : Type*} {f : α → Option β} {r : α → β → Prop} {xs : List α}
    (h : ∀ a ∈ xs, ∃ b, f a = some b ∧ r a b) : ∃ ys, xs.mapM f = some ys ∧ List.Forall₂ r xs ys := by
  induction xs with
  | nil => exact ⟨[], rfl, .nil⟩
  | cons a xs ih =>
    obtain ⟨b, hb, hr⟩ := h a List.mem_cons_self
    obtain ⟨ys, hys, hRest⟩ := ih fun c hc => h c (List.mem_cons_of_mem _ hc)
    exact ⟨b :: ys, by simp [List.mapM_cons, hb, hys], .cons hr hRest⟩

theorem forall₂_exists_left {α β : Type*} {r : α → β → Prop} {xs : List α} {ys : List β}
    (h : List.Forall₂ r xs ys) {y : β} (hMem : y ∈ ys) : ∃ x ∈ xs, r x y := by
  induction h with
  | nil => cases hMem
  | @cons a b xs ys hab hRest ih =>
    rcases List.mem_cons.mp hMem with rfl | hLater
    · exact ⟨a, List.mem_cons_self, hab⟩
    · obtain ⟨x, hx, hr⟩ := ih hLater
      exact ⟨x, List.mem_cons_of_mem _ hx, hr⟩

/-- The transition after its node has been optimised. -/
structure Rewritten (start : Nat) (t u : DecodeTransition ι) : Prop where
  length : u.1 = t.1
  value : u.2.1 = t.2.1
  wf : Wf false (start + t.1) u.2.2
  paths : ∀ bits insn, u.2.2.Path bits insn ↔ t.2.2.Path bits insn

theorem GoodEdges.rewritten {transitions transitions' : List (DecodeTransition ι)} (h : GoodEdges start transitions)
    (hSame : List.Forall₂ (Rewritten start) transitions transitions') : GoodEdges start transitions' := by
  have hKeys : transitions'.map (fun t => (t.1, t.2.1)) = transitions.map (fun t => (t.1, t.2.1)) := by
    induction hSame with
    | nil => rfl
    | cons ht _ ih =>
      have hTail := ih ⟨fun t hMem => h.bounds t (List.mem_cons_of_mem _ hMem), h.sorted.of_cons, h.distinct.of_cons⟩
      rw [List.map_cons, List.map_cons, hTail, ht.length, ht.value]
  refine ⟨fun u hu => ?_, ?_, ?_⟩
  · obtain ⟨t, ht, hr⟩ := forall₂_exists_left hSame hu
    rw [hr.length, hr.value]
    exact h.bounds t ht
  · have hSorted := List.pairwise_map (f := fun t : DecodeTransition ι => (t.1, t.2.1))
      (R := fun a b => a.1 ≤ b.1) (l := transitions')
    rw [hKeys, List.pairwise_map] at hSorted
    exact hSorted.mp h.sorted
  · have hDistinct := List.pairwise_map (f := fun t : DecodeTransition ι => (t.1, t.2.1))
      (R := fun a b => ¬ (a.1 = b.1 ∧ a.2 = b.2)) (l := transitions')
    rw [hKeys, List.pairwise_map] at hDistinct
    exact hDistinct.mp h.distinct

theorem path_rewritten {transitions transitions' : List (DecodeTransition ι)}
    (hSame : List.Forall₂ (Rewritten start) transitions transitions')
    {unconstrained unconstrained' : Option (Nat × DecodeNode ι)}
    (hSkip : ∀ bits insn, (∃ length kid rest, unconstrained' = some (length, kid) ∧
        kid.Path rest insn ∧ bits = List.replicate length .any ++ rest) ↔
      ∃ length kid rest, unconstrained = some (length, kid) ∧
        kid.Path rest insn ∧ bits = List.replicate length .any ++ rest) (bits : List BitChar) (insn : ι) :
    (DecodeNode.mk start none transitions' unconstrained').Path bits insn ↔
      (DecodeNode.mk start none transitions unconstrained).Path bits insn := by
  constructor
  · intro hPath
    cases hPath with
    | edge hMem hRest =>
      obtain ⟨⟨length, value, kid⟩, ht, hr⟩ := forall₂_exists_left hSame hMem
      obtain ⟨hLength, hValue, -, hPaths⟩ := hr
      dsimp only at hLength hValue hPaths
      subst hLength hValue
      exact .edge ht ((hPaths _ _).mp hRest)
    | skip hRest =>
      obtain ⟨length, kid, rest, rfl, hKid, hBits⟩ := (hSkip _ _).mp ⟨_, _, _, rfl, hRest, rfl⟩
      rw [hBits]
      exact .skip hKid
  · intro hPath
    cases hPath with
    | edge hMem hRest =>
      obtain ⟨⟨length, value, kid⟩, ht, hr⟩ := forall₂_exists_left hSame.flip hMem
      obtain ⟨hLength, hValue, -, hPaths⟩ := hr
      dsimp only at hLength hValue hPaths
      subst hLength hValue
      exact .edge ht ((hPaths _ _).mpr hRest)
    | skip hRest =>
      obtain ⟨length, kid, rest, rfl, hKid, hBits⟩ := (hSkip _ _).mpr ⟨_, _, _, rfl, hRest, rfl⟩
      rw [hBits]
      exact .skip hKid

/-- Optimisation returns a tree with the same paths. -/
def OptimizesTo (minPrefixLength minPrefixMembers fuel start : Nat) (node : DecodeNode ι) : Prop :=
  ∃ node', optimize minPrefixLength minPrefixMembers fuel node = some node' ∧
    Wf false start node' ∧ ∀ bits insn, node'.Path bits insn ↔ node.Path bits insn

theorem optimizesTo_inner {minPrefixLength minPrefixMembers fuel start : Nat} (hMin : 1 ≤ minPrefixLength)
    {unconstrained : Option (Nat × DecodeNode ι)} (hStart : start < 32) (hGood : GoodEdges start transitions)
    (hKids : ∀ t ∈ transitions, Wf true (start + t.1) t.2.2)
    (hRecKids : ∀ next (node : DecodeNode ι), start < next → Wf true next node ∨ Intermediate next node →
      OptimizesTo minPrefixLength minPrefixMembers fuel next node)
    (hRecSkip : ∀ length kid, unconstrained = some (length, kid) →
      OptimizesTo minPrefixLength minPrefixMembers fuel (start + length) kid) :
    OptimizesTo minPrefixLength minPrefixMembers (fuel + 1) start (.mk start none transitions unconstrained) := by
  obtain ⟨done, hSplit⟩ := factored_spec minPrefixMembers hMin hGood hKids
  have hEach : ∀ t ∈ factored minPrefixLength minPrefixMembers start transitions,
      ∃ u, ((optimize minPrefixLength minPrefixMembers fuel t.2.2).map fun kid => (t.1, t.2.1, kid)) =
        some u ∧ Rewritten start t u := by
    intro t ht
    have hPos := (hSplit.good.bounds t ht).1
    obtain ⟨kid, hEq, hWf, hPaths⟩ := hRecKids (start + t.1) t.2.2 (by omega)
      ((hSplit.kids t ht).imp id And.right)
    exact ⟨(t.1, t.2.1, kid), by rw [hEq]; rfl, rfl, rfl, hWf, hPaths⟩
  obtain ⟨transitions', hMap, hSame⟩ := exists_mapM hEach
  have hKids' : ∀ u ∈ transitions', Wf false (start + u.1) u.2.2 := by
    intro u hu
    obtain ⟨t, -, hr⟩ := forall₂_exists_left hSame hu
    rw [hr.length]
    exact hr.wf
  have hGood' := hSplit.good.rewritten hSame
  cases unconstrained with
  | none =>
    refine ⟨.mk start none transitions' none, ?_, ?_, fun bits insn => ?_⟩
    · simp only [optimize, hMap]
      rfl
    · exact .inner hStart hGood' (by simp) hKids' (by simp)
    · exact (path_rewritten hSame (fun _ _ => Iff.rfl) bits insn).trans (hSplit.paths none bits insn)
  | some skipped =>
    obtain ⟨length, kid⟩ := skipped
    obtain ⟨kid', hEq, hWf, hPaths⟩ := hRecSkip length kid rfl
    refine ⟨.mk start none transitions' (some (length, kid')), ?_, ?_, fun bits insn => ?_⟩
    · simp only [optimize, hMap, hEq]
      rfl
    · refine .inner hStart hGood' (by simp) hKids' ?_
      rintro _ _ ⟨⟩
      exact hWf
    · refine (path_rewritten hSame (fun bits insn => ?_) bits insn).trans (hSplit.paths (some (length, kid)) bits insn)
      constructor
      · rintro ⟨_, _, rest, ⟨⟩, hRest, hBits⟩
        exact ⟨length, kid, rest, rfl, (hPaths _ _).mp hRest, hBits⟩
      · rintro ⟨_, _, rest, ⟨⟩, hRest, hBits⟩
        exact ⟨length, kid', rest, rfl, (hPaths _ _).mpr hRest, hBits⟩

/-- Every level reads at least one bit, except that an intermediate node may hand over to a
node at the same bit. -/
theorem optimize_spec {minPrefixLength minPrefixMembers fuel start : Nat}
    (hMin : 1 ≤ minPrefixLength) {node : DecodeNode ι} (h : Wf true start node ∧ 2 * (32 - start) + 1 ≤ fuel ∨
      Intermediate start node ∧ 2 * (32 - start) + 2 ≤ fuel) :
    OptimizesTo minPrefixLength minPrefixMembers fuel start node := by
  induction fuel generalizing start node with
  | zero => omega
  | succ fuel ih =>
    rcases h with ⟨hWf, hFuel⟩ | ⟨hNode, hFuel⟩
    · cases hWf with
      | leaf insn => exact ⟨.mk 32 (some insn) [] none, rfl, .leaf insn, fun _ _ => Iff.rfl⟩
      | inner hStart hEdges hPositive hKids hSkip =>
        apply optimizesTo_inner hMin hStart hEdges hKids
        · intro next node hLt hKind
          exact ih (hKind.imp (⟨·, by omega⟩) (⟨·, by omega⟩))
        · intro length kid hEq
          have := hPositive length kid rfl hEq
          exact ih (.inl ⟨hSkip length kid hEq, by omega⟩)
    · cases hNode with
      | mk hStart hEdges hKids hSkip =>
        apply optimizesTo_inner hMin hStart hEdges hKids
        · intro next node hLt hKind
          exact ih (hKind.imp (⟨·, by omega⟩) (⟨·, by omega⟩))
        · intro length kid hEq
          exact ih (.inl ⟨hSkip length kid hEq, by omega⟩)

end DecodeNode

end Gensim.Generator
