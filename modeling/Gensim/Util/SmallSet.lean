import Gensim.Util.DenseSet

/-! The set that is kept in a few slots, and the map that is kept in an array when it is small. -/
namespace Gensim.Util

open Operations

/-- A `SmallSet`, whose slots have data whether they are populated or not. -/
structure SmallSet (α : Type) where
  data : Nat → α
  populated : Nat → Bool

namespace SmallSet

variable {α : Type} [DecidableEq α] (set : SmallSet α) (tsize : Nat)

/-- The data of the slots is what their memory had. -/
def new (memory : Nat → α) : SmallSet α := ⟨memory, fun _ => false⟩

def count (test : α) : Bool := (List.range tsize).any fun i => set.populated i && set.data i = test

def size : Nat := (List.range tsize).countP set.populated

def fill (slot : Nat) (t : α) : SmallSet α :=
  ⟨Function.update set.data slot t, Function.update set.populated slot true⟩

/-- The loop of `insert`, whose pointer is the last slot so far that is not populated. There is no result where the
assertion fails. -/
def insertLoop (t : α) : List Nat → Option Nat → Option (SmallSet α)
  | [], pointer => pointer.map (set.fill · t)
  | i :: rest, pointer =>
      if set.populated i then if set.data i = t then some set else insertLoop t rest pointer
      else insertLoop t rest (some i)

def insert (t : α) : Option (SmallSet α) := set.insertLoop t (List.range tsize) none

/-- `erase` of an iterator. -/
def eraseAt (slot : Nat) : SmallSet α := { set with populated := Function.update set.populated slot false }

def firstSlot (t : α) : Option Nat := (List.range tsize).find? fun i => set.data i = t

def erase (t : α) : SmallSet α :=
  if set.size tsize = 0 then set
  else
    match set.firstSlot tsize t with
    | some i => set.eraseAt i
    | none => set

def clear : SmallSet α := { set with populated := fun _ => false }

/-- The loop of `advance` over the slots that are left. -/
def advance : Nat → Nat → Nat
  | 0, ptr => ptr
  | left + 1, ptr => if set.populated ptr then ptr else advance left (ptr + 1)

/-- What a loop sees up to the end, if it ends before so many elements. -/
def elements : Nat → Nat → Option (List α)
  | 0, _ => none
  | steps + 1, ptr =>
      if ptr = tsize then some []
      else (elements steps (set.advance (tsize - (ptr + 1)) (ptr + 1))).map (set.data ptr :: ·)

def iteration : Option (List α) := set.elements tsize (tsize + 1) (set.advance tsize 0)

/-- What a set shows is what a finite set shows. -/
structure Behaves (members : Finset α) : Prop where
  count : ∀ t, set.count tsize t = decide (t ∈ members)
  size : set.size tsize = members.card
  iteration : ∃ list, set.iteration tsize = some list ∧ list.Nodup ∧ ∀ t, t ∈ list ↔ t ∈ members

/-- Each member is in one slot. -/
structure Represents (members : Finset α) : Prop where
  mem : ∀ t, t ∈ members ↔ ∃ i < tsize, set.populated i = true ∧ set.data i = t
  unique : ∀ i < tsize, ∀ j < tsize, set.populated i = true → set.populated j = true → set.data i = set.data j → i = j

variable {set tsize} {members : Finset α} {t : α}

omit [DecidableEq α] in
theorem elements_advance (left ptr steps : Nat) (hLeft : ptr + left = tsize) (hSteps : left < steps) :
    set.elements tsize steps (set.advance left ptr) =
      some (((List.range' ptr left).filter (set.populated ·)).map set.data) := by
  induction left generalizing ptr steps with
  | zero =>
    obtain ⟨steps, rfl⟩ := Nat.exists_eq_succ_of_ne_zero hSteps.ne'
    simp [advance, elements, hLeft.symm]
  | succ left ih =>
    rw [advance, List.range'_succ]
    by_cases hSlot : set.populated ptr = true
    · obtain ⟨steps, rfl⟩ := Nat.exists_eq_succ_of_ne_zero (Nat.zero_lt_of_lt hSteps).ne'
      rw [if_pos hSlot, elements, if_neg (by omega), show tsize - (ptr + 1) = left by omega,
        ih (ptr + 1) steps (by omega) (by omega), List.filter_cons_of_pos hSlot, List.map_cons, Option.map_some]
    · rw [if_neg hSlot, ih (ptr + 1) steps (by omega) (by omega), List.filter_cons_of_neg hSlot]

namespace Represents

variable (hRep : set.Represents tsize members)
include hRep

theorem count_eq (t : α) : set.count tsize t = decide (t ∈ members) := by
  rw [Bool.eq_iff_iff, count, List.any_eq_true, decide_eq_true_eq, hRep.mem]
  simp

theorem behaves : set.Behaves tsize members := by
  have hList : set.iteration tsize = some (((List.range tsize).filter (set.populated ·)).map set.data) := by
    rw [iteration, elements_advance tsize 0 (tsize + 1) (Nat.zero_add _) (Nat.lt_succ_self _), List.range_eq_range']
  have hNodup : (((List.range tsize).filter (set.populated ·)).map set.data).Nodup := by
    refine List.Nodup.map_on (fun i hI j hJ => ?_) (List.nodup_range.filter _)
    simp only [List.mem_filter, List.mem_range] at hI hJ
    exact hRep.unique i hI.1 j hJ.1 hI.2 hJ.2
  have hMem (t : α) : t ∈ ((List.range tsize).filter (set.populated ·)).map set.data ↔ t ∈ members := by
    simp [hRep.mem, and_assoc]
  refine ⟨hRep.count_eq, ?_, _, hList, hNodup, hMem⟩
  have hSame : (((List.range tsize).filter (set.populated ·)).map set.data).toFinset = members :=
    Finset.ext fun t => List.mem_toFinset.trans (hMem t)
  rw [← hSame, List.toFinset_card_of_nodup hNodup, List.length_map, size, List.countP_eq_length_filter]

theorem fill {slot : Nat} (hLt : slot < tsize) (hFree : set.populated slot = false) (hNew : t ∉ members) :
    (set.fill slot t).Represents tsize (Insert.insert t members) := by
  have hOther (i : Nat) (hLt : i < tsize) (hSlot : set.populated i = true) : set.data i ≠ t :=
    fun hData => hNew ((hRep.mem t).mpr ⟨i, hLt, hSlot, hData⟩)
  have hUnique := hRep.unique
  refine ⟨fun u => ?_, ?_⟩
  · rw [Finset.mem_insert, hRep.mem]
    simp only [SmallSet.fill, Function.update_apply]
    grind
  · simp only [SmallSet.fill, Function.update_apply]
    grind

theorem eraseAt {slot : Nat} (hLt : slot < tsize) (hSlot : set.populated slot = true) :
    (set.eraseAt slot).Represents tsize (members.erase (set.data slot)) := by
  have hUnique := hRep.unique
  refine ⟨fun u => ?_, ?_⟩
  · rw [Finset.mem_erase, hRep.mem]
    simp only [SmallSet.eraseAt, Function.update_apply]
    grind
  · simp only [SmallSet.eraseAt, Function.update_apply]
    grind

end Represents

omit [DecidableEq α] in
theorem represents_clear : set.clear.Represents tsize ∅ := ⟨by simp [clear], by simp [clear]⟩

/-- `insert` finds the data, or it fills a slot, or every slot is populated with other data. -/
theorem insertLoop_spec (slots : List Nat) (pointer : Option Nat) :
    (set.insertLoop t slots pointer = some set ∧ ∃ i ∈ slots, set.populated i = true ∧ set.data i = t) ∨
      (∃ slot, set.insertLoop t slots pointer = some (set.fill slot t) ∧
        (pointer = some slot ∨ slot ∈ slots ∧ set.populated slot = false) ∧
        ∀ i ∈ slots, set.populated i = true → set.data i ≠ t) ∨
      pointer = none ∧ ∀ i ∈ slots, set.populated i = true ∧ set.data i ≠ t := by
  induction slots generalizing pointer with
  | nil =>
    cases pointer with
    | none => exact .inr (.inr ⟨rfl, by simp⟩)
    | some slot => exact .inr (.inl ⟨slot, rfl, .inl rfl, by simp⟩)
  | cons i rest ih =>
    rw [insertLoop]
    split_ifs
    case pos hSlot hData => exact .inl ⟨rfl, i, List.mem_cons_self, hSlot, hData⟩
    case neg hSlot hData => grind
    case neg hFree => grind

theorem Represents.insert (hRep : set.Represents tsize members) (hRoom : t ∈ members ∨ members.card < tsize) :
    ∃ after, set.insert tsize t = some after ∧ after.Represents tsize (Insert.insert t members) := by
  have hNew (hAll : ∀ i ∈ List.range tsize, set.populated i = true → set.data i ≠ t) : t ∉ members := by
    rw [hRep.mem]
    rintro ⟨i, hLt, hSlot, hData⟩
    exact hAll i (List.mem_range.mpr hLt) hSlot hData
  rcases set.insertLoop_spec (List.range tsize) none with ⟨hFound, i, hIn, hSlot, hData⟩ | hFill | ⟨-, hFull⟩
  · refine ⟨set, hFound, ?_⟩
    rwa [Finset.insert_eq_of_mem ((hRep.mem t).mpr ⟨i, List.mem_range.mp hIn, hSlot, hData⟩)]
  · obtain ⟨slot, hFilled, hFree, hAll⟩ := hFill
    obtain ⟨hIn, hFree⟩ := hFree.resolve_left (Option.some_ne_none slot).symm
    exact ⟨_, hFilled, hRep.fill (List.mem_range.mp hIn) hFree (hNew hAll)⟩
  · have hSize : set.size tsize = tsize := by
      rw [size, List.countP_eq_length.mpr fun i hIn => (hFull i hIn).1, List.length_range]
    refine absurd (hRoom.resolve_left (hNew fun i hIn _ => (hFull i hIn).2)) (not_lt.mpr ?_)
    exact (hSize.symm.trans hRep.behaves.size).le

omit [DecidableEq α] in
theorem eraseAt_of_free {i : Nat} (hFree : set.populated i ≠ true) : set.eraseAt i = set := by
  rw [eraseAt, Function.update_eq_self_iff.mpr (Bool.eq_false_iff.mpr hFree).symm]

theorem Represents.erase (hRep : set.Represents tsize members)
    (hFirst : t ∈ members → ∀ i ∈ set.firstSlot tsize t, set.populated i = true) :
    (set.erase tsize t).Represents tsize (members.erase t) := by
  rw [SmallSet.erase]
  split
  case isTrue hEmpty =>
    rw [hRep.behaves.size, Finset.card_eq_zero] at hEmpty
    rwa [hEmpty, Finset.erase_empty, ← hEmpty]
  case isFalse =>
    cases hSlot : set.firstSlot tsize t with
    | none =>
      rw [firstSlot, List.find?_eq_none] at hSlot
      rwa [Finset.erase_eq_of_notMem]
      rw [hRep.mem]
      rintro ⟨i, hLt, -, hData⟩
      exact hSlot i (List.mem_range.mpr hLt) (decide_eq_true hData)
    | some i =>
      have hLt : i < tsize := List.mem_range.mp (List.mem_of_find?_eq_some hSlot)
      have hData : set.data i = t := by simpa using List.find?_some hSlot
      by_cases hPopulated : set.populated i = true
      · exact hData ▸ hRep.eraseAt hLt hPopulated
      · rw [Finset.erase_eq_of_notMem fun hMem => hPopulated (hFirst hMem i hSlot)]
        dsimp only
        rwa [eraseAt_of_free hPopulated]

/-- A member stays where an earlier slot has its data and is not populated. -/
theorem Represents.not_behaves_erase (hRep : set.Represents tsize members) (hMem : t ∈ members) {i : Nat}
    (hSlot : set.firstSlot tsize t = some i) (hFree : set.populated i ≠ true) :
    ¬ (set.erase tsize t).Behaves tsize (members.erase t) := by
  intro hBehaves
  have hSame : set.erase tsize t = set := by
    rw [SmallSet.erase, hSlot]
    dsimp only
    rw [eraseAt_of_free hFree, ite_self]
  have hCount := hBehaves.count t
  rw [hSame, hRep.count_eq, decide_eq_true hMem] at hCount
  exact Finset.notMem_erase t members (of_decide_eq_true hCount.symm)

end SmallSet

/-- Sets are known by their names. -/
inductive SmallSetOperation (α : Type) where
  | insert (name : Nat) (t : α)
  | erase (name : Nat) (t : α)
  | eraseAt (name slot : Nat)
  | copy (name other : Nat)
  | clear (name : Nat)

/-- Sets of one type, and finite sets that are driven by the same calls. -/
structure SmallSets (α : Type) where
  sets : Nat → SmallSet α
  reference : Nat → Finset α

namespace SmallSets

open SmallSet

variable {α : Type} [DecidableEq α] (tsize : Nat) (s : SmallSets α)

def new (memory : Nat → Nat → α) : SmallSets α := ⟨fun name => .new (memory name), fun _ => ∅⟩

def put (name : Nat) (set : SmallSet α) (members : Finset α) : SmallSets α :=
  ⟨Function.update s.sets name set, Function.update s.reference name members⟩

/-- Copies are those that the compiler makes. -/
def next (s : SmallSets α) : SmallSetOperation α → SmallSets α
  | .insert name t =>
      s.put name (((s.sets name).insert tsize t).getD (s.sets name)) (Insert.insert t (s.reference name))
  | .erase name t => s.put name ((s.sets name).erase tsize t) ((s.reference name).erase t)
  | .eraseAt name slot =>
      s.put name ((s.sets name).eraseAt slot) ((s.reference name).erase ((s.sets name).data slot))
  | .copy name other => s.put name (s.sets other) (s.reference other)
  | .clear name => s.put name (s.sets name).clear ∅

/-- There is room for what is inserted, and iterators are at members. -/
def Valid : SmallSetOperation α → Prop
  | .insert name t => t ∈ s.reference name ∨ (s.reference name).card < tsize
  | .eraseAt name slot => slot < tsize ∧ (s.sets name).populated slot = true
  | _ => True

def Answers : SmallSetOperation α → Prop
  | .insert name t => ((s.sets name).insert tsize t).isSome = true
  | _ => True

def Behaves : Prop := ∀ name, (s.sets name).Behaves tsize (s.reference name)

/-- The first slot that has the data of a member to erase is the member's. -/
def Tame : SmallSetOperation α → Prop
  | .erase name t => t ∈ s.reference name → ∀ i ∈ (s.sets name).firstSlot tsize t, (s.sets name).populated i = true
  | _ => True

def Represented : Prop := ∀ name, (s.sets name).Represents tsize (s.reference name)

variable {tsize s}

omit [DecidableEq α] in
theorem Represented.put (hRep : s.Represented tsize) (name : Nat) {set : SmallSet α} {members : Finset α}
    (hNew : set.Represents tsize members) : (s.put name set members).Represented tsize :=
  forall_update (Represents · tsize ·) hRep name hNew

theorem represented_next (hRep : s.Represented tsize) {op : SmallSetOperation α} (hValid : s.Valid tsize op)
    (hTame : s.Tame tsize op) : s.Answers tsize op ∧ (s.next tsize op).Represented tsize := by
  cases op with
  | insert name t =>
    obtain ⟨after, hAfter, hNew⟩ := (hRep name).insert hValid
    rw [Answers, next, hAfter]
    exact ⟨rfl, hRep.put name hNew⟩
  | erase name t => exact ⟨trivial, hRep.put name ((hRep name).erase hTame)⟩
  | eraseAt name slot => exact ⟨trivial, hRep.put name ((hRep name).eraseAt hValid.1 hValid.2)⟩
  | copy name other => exact ⟨trivial, hRep.put name (hRep other)⟩
  | clear name => exact ⟨trivial, hRep.put name represents_clear⟩

theorem behaves_next_iff (hRep : s.Represented tsize) {op : SmallSetOperation α} (hValid : s.Valid tsize op) :
    s.Answers tsize op ∧ (s.next tsize op).Behaves tsize ↔ s.Tame tsize op := by
  constructor
  · rintro ⟨-, hBehaves⟩
    cases op with
    | erase name t =>
      intro hMem i hSlot
      by_contra hFree
      refine (hRep name).not_behaves_erase hMem hSlot hFree ?_
      simpa [next, put] using hBehaves name
    | _ => trivial
  · intro hTame
    obtain ⟨hAnswers, hNew⟩ := represented_next hRep hValid hTame
    exact ⟨hAnswers, fun name => (hNew name).behaves⟩

theorem behaves_throughout_iff (tsize : Nat) (memory : Nat → Nat → α) (ops : List (SmallSetOperation α)) :
    Throughout (next tsize) (fun s op => s.Valid tsize op ∧ s.Answers tsize op ∧ (s.next tsize op).Behaves tsize)
      (new memory) ops ↔ Throughout (next tsize) (fun s op => s.Valid tsize op ∧ s.Tame tsize op) (new memory) ops := by
  have hNew : (new memory).Represented tsize := fun name =>
    (represents_clear : (SmallSet.new (memory name)).clear.Represents tsize ∅)
  exact throughout_and_congr (Represented tsize) (fun _ _ hRep => behaves_next_iff hRep)
    (fun _ _ hRep hValid hTame => (represented_next hRep hValid hTame).2) hNew ops

end SmallSets

/-- A `maybe_map`, whose keys are the numbers below its expected count. -/
structure MaybeMap (β : Type) where
  isArray : Bool
  innerMap : Nat → Option β
  innerArray : Nat → β
  populated : Nat → Bool

namespace MaybeMap

variable {β : Type} [Inhabited β] (map : MaybeMap β)

/-- The values of an array are what its memory had. -/
def new (threshold expectedCount : Nat) (memory : Nat → β) : MaybeMap β :=
  ⟨expectedCount < threshold, fun _ => none, memory, fun _ => false⟩

def insert (key : Nat) (value : β) : MaybeMap β :=
  if map.isArray then
    { map with
      innerArray := Function.update map.innerArray key value, populated := Function.update map.populated key true }
  else { map with innerMap := Function.update map.innerMap key (some value) }

/-- What the reference of `operator[]` reads. -/
def lookup (key : Nat) : β := if map.isArray then map.innerArray key else (map.innerMap key).getD default

/-- What `operator[]` leaves. -/
def touch (key : Nat) : MaybeMap β :=
  if map.isArray then { map with populated := Function.update map.populated key true }
  else { map with innerMap := Function.update map.innerMap key (some ((map.innerMap key).getD default)) }

/-- A value is written through the reference of `operator[]`. -/
def write (key : Nat) (value : β) : MaybeMap β :=
  let touched := map.touch key
  if map.isArray then { touched with innerArray := Function.update touched.innerArray key value }
  else { touched with innerMap := Function.update touched.innerMap key (some value) }

def count (key : Nat) : Bool := if map.isArray then map.populated key else (map.innerMap key).isSome

def erase (key : Nat) : MaybeMap β :=
  if map.isArray then { map with populated := Function.update map.populated key false }
  else { map with innerMap := Function.update map.innerMap key none }

def clear : MaybeMap β :=
  if map.isArray then { map with populated := fun _ => false } else { map with innerMap := fun _ => none }

end MaybeMap

inductive MaybeMapOperation (β : Type) where
  | insert (key : Nat) (value : β)
  | lookup (key : Nat)
  | write (key : Nat) (value : β)
  | count (key : Nat)
  | erase (key : Nat)
  | clear

/-- A map that is kept in an array and one that is not, which are driven by the same calls. -/
structure MaybeMaps (β : Type) where
  array : MaybeMap β
  map : MaybeMap β

namespace MaybeMaps

variable {β : Type} [Inhabited β] (s : MaybeMaps β)

def both (f : MaybeMap β → MaybeMap β) : MaybeMaps β := ⟨f s.array, f s.map⟩

def next (s : MaybeMaps β) : MaybeMapOperation β → MaybeMaps β
  | .insert key value => s.both (·.insert key value)
  | .lookup key => s.both (·.touch key)
  | .write key value => s.both (·.write key value)
  | .count _ => s
  | .erase key => s.both (·.erase key)
  | .clear => s.both (·.clear)

/-- Keys are below the expected count. -/
def Valid (expectedCount : Nat) : MaybeMapOperation β → Prop
  | .insert key _ | .lookup key | .write key _ | .count key | .erase key => key < expectedCount
  | .clear => True

/-- The calls have the same results. -/
def Answers : MaybeMapOperation β → Prop
  | .lookup key => s.array.lookup key = s.map.lookup key
  | .count key => s.array.count key = s.map.count key
  | _ => True

/-- A fresh key is only read where the memory of the array has the default. -/
def Tame : MaybeMapOperation β → Prop
  | .lookup key => s.array.populated key = true ∨ s.array.innerArray key = default
  | _ => True

structure Agree : Prop where
  array : s.array.isArray = true
  map : s.map.isArray = false
  entries : ∀ key, s.map.innerMap key = if s.array.populated key then some (s.array.innerArray key) else none

variable {s}

theorem answers_iff (hAgree : s.Agree) (op : MaybeMapOperation β) : s.Answers op ↔ s.Tame op := by
  cases op with
  | lookup key =>
    simp only [Answers, MaybeMap.lookup, hAgree.array, hAgree.map, hAgree.entries key, Tame]
    by_cases hPopulated : s.array.populated key = true
    · simp [hPopulated]
    · simp [hPopulated]
  | count key =>
    simp only [Answers, MaybeMap.count, hAgree.array, hAgree.map, hAgree.entries key, Tame, iff_true]
    by_cases hPopulated : s.array.populated key = true
    · simp [hPopulated]
    · simp [hPopulated]
  | _ => exact Iff.rfl

theorem agree_next (hAgree : s.Agree) {op : MaybeMapOperation β} (hTame : s.Tame op) : (s.next op).Agree := by
  obtain ⟨hArray, hMap, hEntries⟩ := hAgree
  cases op with
  | count key => exact ⟨hArray, hMap, hEntries⟩
  | lookup key =>
    simp only [Tame] at hTame
    refine ⟨?_, ?_, fun other => ?_⟩ <;> simp only [next, both, MaybeMap.touch, hArray, hMap]
    all_goals grind
  | _ =>
    refine ⟨?_, ?_, fun other => ?_⟩ <;> simp only [next, both, MaybeMap.insert, MaybeMap.write, MaybeMap.touch,
      MaybeMap.erase, MaybeMap.clear, hArray, hMap]
    all_goals grind

theorem answers_throughout_iff {arrayThreshold mapThreshold expectedCount : Nat} (hArray : expectedCount < arrayThreshold)
    (hMap : mapThreshold ≤ expectedCount) (memory : Nat → β) (ops : List (MaybeMapOperation β)) :
    Throughout next (fun s op => Valid expectedCount op ∧ s.Answers op)
        ⟨.new arrayThreshold expectedCount memory, .new mapThreshold expectedCount memory⟩ ops ↔
      Throughout next (fun s op => Valid expectedCount op ∧ s.Tame op)
        ⟨.new arrayThreshold expectedCount memory, .new mapThreshold expectedCount memory⟩ ops := by
  refine throughout_and_congr Agree (fun _ op hAgree _ => answers_iff hAgree op)
    (fun _ _ hAgree _ => agree_next hAgree) ?_ ops
  exact ⟨decide_eq_true hArray, decide_eq_false (not_lt.mpr hMap), fun _ => rfl⟩

end MaybeMaps

/-- The containers are sets, and the two representations of a map agree, exactly while only empty sets are assigned to
themselves, the last member is not asked for where there is none, no earlier slot has the data of a member that is
erased, and no fresh key is read where the array has another value than the default. -/
theorem containers_behave_iff {α β : Type} [DecidableEq α] [Inhabited β] (size tsize : Nat) (slots : Nat → Nat → α)
    {arrayThreshold mapThreshold expectedCount : Nat} (hArray : expectedCount < arrayThreshold)
    (hMap : mapThreshold ≤ expectedCount) (memory : Nat → β) (denseOps : List DenseSetOperation)
    (smallOps : List (SmallSetOperation α)) (mapOps : List (MaybeMapOperation β)) :
    (Throughout DenseSets.next (fun s op => DenseSets.Valid (size % 2 ^ 32) op ∧ s.Answers (size % 2 ^ 32) op ∧
        (s.next op).Behaves (size % 2 ^ 32)) (DenseSets.new size) denseOps ∧
      Throughout (SmallSets.next tsize) (fun s op => s.Valid tsize op ∧ s.Answers tsize op ∧
        (s.next tsize op).Behaves tsize) (SmallSets.new slots) smallOps ∧
      Throughout MaybeMaps.next (fun s op => MaybeMaps.Valid expectedCount op ∧ s.Answers op)
        ⟨.new arrayThreshold expectedCount memory, .new mapThreshold expectedCount memory⟩ mapOps) ↔
    Throughout DenseSets.next (fun s op => DenseSets.Valid (size % 2 ^ 32) op ∧ s.Tame op) (DenseSets.new size) denseOps ∧
      Throughout (SmallSets.next tsize) (fun s op => s.Valid tsize op ∧ s.Tame tsize op) (SmallSets.new slots) smallOps ∧
      Throughout MaybeMaps.next (fun s op => MaybeMaps.Valid expectedCount op ∧ s.Tame op)
        ⟨.new arrayThreshold expectedCount memory, .new mapThreshold expectedCount memory⟩ mapOps :=
  and_congr (DenseSets.behaves_throughout_iff size denseOps)
    (and_congr (SmallSets.behaves_throughout_iff tsize slots smallOps)
      (MaybeMaps.answers_throughout_iff hArray hMap memory mapOps))

/-- Members that are inserted and erased once, and a key that is written before it is read. -/
theorem containers_behave_once : 4 < 8 ∧ 4 ≤ 4 ∧
    Throughout DenseSets.next (fun s op => DenseSets.Valid (70 % 2 ^ 32) op ∧ s.Answers (70 % 2 ^ 32) op ∧
      (s.next op).Behaves (70 % 2 ^ 32)) (DenseSets.new 70) [.insert 0 66, .copy 1 0, .last 1] ∧
    Throughout (SmallSets.next 2) (fun s op => s.Valid 2 op ∧ s.Answers 2 op ∧ (s.next 2 op).Behaves 2)
      (SmallSets.new fun _ _ => 0) [.insert 0 5, .erase 0 5] ∧
    Throughout MaybeMaps.next (fun s op => MaybeMaps.Valid 4 op ∧ s.Answers op)
      ⟨.new 8 4 fun _ => 0, .new 4 4 fun _ => 0⟩ [.insert 3 7, .lookup 3] := by
  refine ⟨by decide, le_rfl, (containers_behave_iff 70 2 _ (by decide) le_rfl _ _ _ _).mpr ⟨?_, ?_, ?_⟩⟩
  · simp [DenseSets.Valid, DenseSets.Tame, DenseSets.next, DenseSets.put, DenseSets.new]
  · simp [SmallSets.Valid, SmallSets.Tame, SmallSets.next, SmallSets.put, SmallSets.new]
    decide
  · simp [MaybeMaps.Valid, MaybeMaps.Tame, MaybeMaps.next, MaybeMaps.both, MaybeMap.insert, MaybeMap.new]

/-- The last member of an empty set, a member whose data an erased slot still has, and a key that was erased. -/
theorem containers_misbehave :
    ¬ Throughout DenseSets.next (fun s op => DenseSets.Valid (8 % 2 ^ 32) op ∧ s.Answers (8 % 2 ^ 32) op ∧
        (s.next op).Behaves (8 % 2 ^ 32)) (DenseSets.new 8) [.last 0] ∧
      ¬ Throughout (SmallSets.next 2) (fun s op => s.Valid 2 op ∧ s.Answers 2 op ∧ (s.next 2 op).Behaves 2)
        (SmallSets.new fun _ _ => 0) [.insert 0 1, .insert 0 2, .erase 0 2, .erase 0 1, .insert 0 2, .erase 0 2] ∧
      ¬ Throughout MaybeMaps.next (fun s op => MaybeMaps.Valid 4 op ∧ s.Answers op)
        ⟨.new 8 4 fun _ => 0, .new 4 4 fun _ => 0⟩ [.insert 3 7, .erase 3, .lookup 3] := by
  refine ⟨?_, ?_, ?_⟩
  · rintro ⟨⟨-, ⟨result, hLast, -⟩, -⟩, -⟩
    exact absurd hLast (Option.some_ne_none result).symm
  · rintro ⟨-, -, -, -, -, ⟨-, -, hBehaves⟩, -⟩
    exact absurd ((hBehaves 0).count 2) (by decide)
  · rintro ⟨-, -, ⟨-, hAnswers⟩, -⟩
    exact absurd (show 7 = 0 from hAnswers) (by decide)

end Gensim.Util
