import Gensim.Lib.Loop
import Gensim.Util.FastVector
import Gensim.Util.WList

/-! The vector that manages its own storage. -/
namespace Gensim.Util

open Operations

/-- The bytes of an element, few enough for a vector of `int` elements. -/
structure ElementSize where
  bytes : Nat
  pos : 0 < bytes
  le : bytes ≤ 2 ^ 32

/-- The objects in the storage, and the bytes that are allocated for it. -/
structure WVector (α : Type) where
  storage : Nat → Option α
  bytes : Nat
  size : Nat
  capacity : Nat

namespace WVector

variable {α : Type} (width : ElementSize) (v : WVector α)

def new : WVector α := ⟨fun _ => none, 0, 0, 0⟩

/-- An object, if its memory is allocated. -/
def cell (i : Nat) : Option α := if (i + 1) * width.bytes ≤ v.bytes then v.storage i else none

/-- A round of the loop in `ensure_capacity`, on the capacity and the flag. -/
def grow (limit : Nat) (state : Nat × Bool) : Option (Nat × Bool) :=
  if state.1 < limit then some (state.1 * 2 % 2 ^ 64, true) else none

/-- The new capacity is passed as an `int`. A capacity that is doubled more often is zero and stays so, and the loop
does not end. -/
def ensureCapacity (newCapacity : Nat) : Option (WVector α) :=
  let limit := ((BitVec.ofNat 32 newCapacity).signExtend 64).toNat
  let start := if v.capacity = 0 then (1, true) else (v.capacity, false)
  (Loop.exhaust (grow limit) 66 start).map fun (capacity, resize) =>
    if resize then
      { v with
        storage := fun i => if i < v.size then v.cell width i else none
        bytes := capacity * width.bytes % 2 ^ 64
        capacity }
    else { v with capacity }

/-- An object is constructed behind the last. There is no result where it has no memory. -/
def construct (t : α) : Option (WVector α) :=
  if (v.size + 1) * width.bytes ≤ v.bytes then
    some { v with storage := Function.update v.storage v.size (some t), size := v.size + 1 }
  else none

def pushBack (t : α) : Option (WVector α) := do
  let v ← v.ensureCapacity width (v.size + 1)
  v.construct width t

def popBack : WVector α := { v with storage := Function.update v.storage (v.size - 1) none, size := v.size - 1 }

def resize (newSize : Nat) (value : α) : Option (WVector α) := do
  let v ← v.ensureCapacity width newSize
  (List.replicate (newSize - v.size) value).foldlM (fun v value => v.construct width value) v

/-- The storage is given as many bytes as there are elements. -/
def trim : WVector α := { v with bytes := v.size, capacity := v.size }

/-- There is no result where the vector aborts. -/
def at? (index : Nat) : Option α := if v.size ≤ index then none else v.cell width index

/-- What the vector shows is what a reference list shows. -/
structure Behaves (reference : List α) : Prop where
  size : v.size = reference.length
  elements : ∀ i, v.at? width i = reference[i]?
  iteration : (List.range v.size).map (v.cell width) = reference.map some
  front : v.at? width 0 = reference.head?
  back : v.at? width (v.size - 1) = reference.getLast?

/-- The vector has these elements in its storage. -/
structure Represents (reference : List α) : Prop where
  size : v.size = reference.length
  cells : ∀ i, i < v.size → v.cell width i = reference[i]?
  bytes : v.bytes = v.capacity * width.bytes
  le : v.size ≤ v.capacity
  lt : v.capacity < 2 ^ 32

variable {width v} {reference : List α}

theorem Represents.at?_eq (hRep : v.Represents width reference) (i : Nat) : v.at? width i = reference[i]? := by
  rw [at?]
  split
  case isTrue hEnd => rw [List.getElem?_eq_none (hRep.size ▸ hEnd)]
  case isFalse hIn => exact hRep.cells i (not_le.mp hIn)

theorem Represents.behaves (hRep : v.Represents width reference) : v.Behaves width reference := by
  refine ⟨hRep.size, hRep.at?_eq, ?_, ?_, ?_⟩
  · refine List.ext_getElem (by simp [hRep.size]) fun i hLeft hRight => ?_
    rw [List.length_map, List.length_range] at hLeft
    rw [List.getElem_map, List.getElem_range, hRep.cells i hLeft, List.getElem_map,
      List.getElem?_eq_getElem (hRep.size ▸ hLeft)]
  · rw [hRep.at?_eq, List.head?_eq_getElem?]
  · rw [hRep.at?_eq, hRep.size, List.getLast?_eq_getElem?]

/-! ### Capacity -/

theorem toNat_int {n : Nat} (hLt : n < 2 ^ 31) : ((BitVec.ofNat 32 n).signExtend 64).toNat = n := by
  have hMsb : (BitVec.ofNat 32 n).msb = false := by
    rw [BitVec.msb_eq_decide, BitVec.toNat_ofNat, decide_eq_false_iff_not]
    omega
  rw [BitVec.signExtend_eq_setWidth_of_msb_false hMsb, BitVec.toNat_setWidth, BitVec.toNat_ofNat]
  omega

/-- The capacity is doubled until it is enough. -/
theorem exhaust_grow {limit : Nat} (hLimit : limit < 2 ^ 31) {state : Nat × Bool} (hPos : 0 < state.1)
    (hLt : state.1 < 2 ^ 32) :
    ∃ last, Loop.exhaust (grow limit) 66 state = some last ∧ limit ≤ last.1 ∧ state.1 ≤ last.1 ∧ last.1 < 2 ^ 32 ∧
      (last = state ∨ last.2 = true) := by
  have hStep : ∀ s t, state.1 ≤ s.1 ∧ s.1 < 2 ^ 32 ∧ (s = state ∨ s.2 = true) → grow limit s = some t →
      (state.1 ≤ t.1 ∧ t.1 < 2 ^ 32 ∧ (t = state ∨ t.2 = true)) ∧ 32 - t.1.log2 < 32 - s.1.log2 := by
    rintro s t ⟨hLe, -, -⟩ hGrow
    rw [grow] at hGrow
    split at hGrow
    case isFalse => cases hGrow
    case isTrue hShort =>
      obtain rfl := Option.some.inj hGrow
      have hDouble : s.1 * 2 % 2 ^ 64 = 2 * s.1 := by omega
      have hLog : s.1.log2 < 31 := (Nat.log2_lt (by omega)).mpr (by omega)
      rw [hDouble, Nat.log2_two_mul (by omega)]
      exact ⟨⟨by omega, by omega, .inr rfl⟩, by omega⟩
  obtain ⟨last, hRun, hLe, hBound, hFlag⟩ := Loop.exhaust_spec hStep (show _ < 66 by omega) ⟨le_rfl, hLt, .inl rfl⟩
  have hEnd := (Loop.exists_exhaust_iff.mp ⟨66, hRun⟩).2
  refine ⟨last, hRun, ?_, hLe, hBound, hFlag⟩
  by_contra hShort
  rw [grow, if_pos (not_le.mp hShort)] at hEnd
  cases hEnd

section

variable (hRep : v.Represents width reference)
include hRep

theorem Represents.ensureCapacity {n : Nat} (hFits : n < 2 ^ 31) :
    ∃ after, v.ensureCapacity width n = some after ∧ after.Represents width reference ∧ n ≤ after.capacity := by
  have hStart : 0 < (if v.capacity = 0 then (1, true) else (v.capacity, false)).1 ∧
      v.capacity ≤ (if v.capacity = 0 then (1, true) else (v.capacity, false)).1 ∧
      (if v.capacity = 0 then (1, true) else (v.capacity, false)).1 < 2 ^ 32 := by
    have hLt := hRep.lt
    split <;> dsimp only <;> omega
  obtain ⟨⟨capacity, flag⟩, hRun, hEnough, hLe, hLt, hFlag⟩ := exhaust_grow hFits hStart.1 hStart.2.2
  dsimp only at hEnough hLe hLt hFlag
  rw [WVector.ensureCapacity, toNat_int hFits]
  simp only [hRun, Option.map_some]
  cases flag with
  | false =>
    have hSame : capacity = v.capacity := by split at hFlag <;> simp_all
    exact ⟨_, rfl, by simpa [hSame] using hRep, hEnough⟩
  | true =>
    have hBytes : capacity * width.bytes % 2 ^ 64 = capacity * width.bytes := by
      refine Nat.mod_eq_of_lt ?_
      calc capacity * width.bytes < 2 ^ 32 * width.bytes := Nat.mul_lt_mul_of_pos_right hLt width.pos
        _ ≤ 2 ^ 32 * 2 ^ 32 := Nat.mul_le_mul_left _ width.le
        _ = 2 ^ 64 := by decide
    refine ⟨_, rfl, ⟨hRep.size, fun i hIn => ?_, hBytes, hRep.le.trans (hStart.2.1.trans hLe), hLt⟩, hEnough⟩
    have hSize : i < v.size := hIn
    have hRoom : (i + 1) * width.bytes ≤ capacity * width.bytes :=
      Nat.mul_le_mul_right _ (hSize.trans_le (hRep.le.trans (hStart.2.1.trans hLe)))
    simp only [cell, if_true, hBytes, if_pos hRoom, if_pos hSize]
    exact hRep.cells i hSize

theorem Represents.construct (hRoom : v.size < v.capacity) (t : α) :
    ∃ after, v.construct width t = some after ∧ after.Represents width (reference ++ [t]) ∧
      after.capacity = v.capacity := by
  have hBytes : (v.size + 1) * width.bytes ≤ v.bytes := hRep.bytes ▸ Nat.mul_le_mul_right _ hRoom
  refine ⟨_, if_pos hBytes, ⟨by simp [hRep.size], fun i hIn => ?_, hRep.bytes, hRoom, hRep.lt⟩, rfl⟩
  rcases Nat.lt_or_eq_of_le (Nat.lt_succ_iff.mp hIn) with hOld | rfl
  · rw [List.getElem?_append_left (hRep.size ▸ hOld), ← hRep.cells i hOld]
    simp [cell, hOld.ne]
  · rw [cell, if_pos hBytes, hRep.size]
    simp

theorem Represents.pushBack (hFits : reference.length + 1 < 2 ^ 31) (t : α) :
    ∃ after, v.pushBack width t = some after ∧ after.Represents width (reference ++ [t]) := by
  rw [← hRep.size] at hFits
  obtain ⟨grown, hGrown, hSame, hRoom⟩ := hRep.ensureCapacity hFits
  have hSize : grown.size = v.size := hSame.size.trans hRep.size.symm
  obtain ⟨after, hAfter, hNew, -⟩ := hSame.construct (by omega) t
  exact ⟨after, by rw [WVector.pushBack, hGrown, Option.bind_eq_bind, Option.bind_some, hAfter], hNew⟩

theorem Represents.constructs {values : List α} (hRoom : v.size + values.length ≤ v.capacity) :
    ∃ after, values.foldlM (fun v value => v.construct width value) v = some after ∧
      after.Represents width (reference ++ values) := by
  induction values generalizing v reference with
  | nil => exact ⟨v, rfl, by simpa using hRep⟩
  | cons value values ih =>
    rw [List.length_cons] at hRoom
    obtain ⟨next, hNext, hNew, hCapacity⟩ := hRep.construct (by omega) value
    have hSize : next.size = v.size + 1 := by rw [hNew.size, hRep.size, List.length_append, List.length_singleton]
    obtain ⟨after, hAfter, hAll⟩ := ih hNew (by omega)
    refine ⟨after, by rw [List.foldlM_cons, hNext]; exact hAfter, ?_⟩
    rwa [List.append_assoc, List.singleton_append] at hAll

theorem Represents.resize {n : Nat} (hFits : n < 2 ^ 31) (hGrows : reference.length ≤ n) (value : α) :
    ∃ after, v.resize width n value = some after ∧ after.Represents width (FastVector.resized reference n value) := by
  obtain ⟨grown, hGrown, hSame, hRoom⟩ := hRep.ensureCapacity hFits
  have hSize := hSame.size
  obtain ⟨after, hAfter, hNew⟩ := @Represents.constructs α width grown reference hSame (List.replicate (n - grown.size) value)
    (by rw [List.length_replicate]; omega)
  refine ⟨after, by rw [WVector.resize, hGrown, Option.bind_eq_bind, Option.bind_some, hAfter], ?_⟩
  rwa [FastVector.resized, List.take_of_length_le hGrows, ← hSize]

theorem Represents.popBack (hSome : reference ≠ []) : v.popBack.Represents width reference.dropLast := by
  have hPos := List.length_pos_iff.mpr hSome
  have hSize := hRep.size
  refine ⟨by simp [WVector.popBack, hSize], fun i hIn => ?_, hRep.bytes, (Nat.sub_le _ _).trans hRep.le, hRep.lt⟩
  have hLt : i < v.size - 1 := hIn
  rw [List.getElem?_dropLast, if_pos (by omega), ← hRep.cells i (by omega)]
  simp [cell, WVector.popBack, hLt.ne]

theorem Represents.trim (hFits : reference = [] ∨ width.bytes = 1) : v.trim.Represents width reference := by
  refine ⟨hRep.size, fun i hIn => ?_, ?_, le_rfl, hRep.le.trans_lt hRep.lt⟩
  · have hLt : i < v.size := hIn
    rcases hFits with rfl | hOne
    · exact absurd (hLt.trans_eq hRep.size) (Nat.not_lt_zero i)
    · rw [← hRep.cells i hLt]
      have hBytes := hRep.bytes
      have hLe := hRep.le
      simp only [cell, WVector.trim, hOne, Nat.mul_one] at hBytes ⊢
      rw [if_pos (Nat.succ_le_of_lt hLt), if_pos (by omega)]
  · rcases hFits with rfl | hOne
    · simp [WVector.trim, show v.size = 0 from hRep.size]
    · simp [WVector.trim, hOne]

end

/-- A vector is not made smaller. -/
theorem size_of_resize {n : Nat} (hLe : n ≤ v.size) {value : α} {after : WVector α}
    (hResize : v.resize width n value = some after) : after.size = v.size := by
  simp only [WVector.resize, Option.bind_eq_bind, Option.bind_eq_some_iff] at hResize
  obtain ⟨grown, hGrown, hAfter⟩ := hResize
  have hSize : grown.size = v.size := by
    obtain ⟨state, -, rfl⟩ := Option.map_eq_some_iff.mp hGrown
    dsimp only
    split <;> rfl
  rw [Nat.sub_eq_zero_of_le (hLe.trans_eq hSize.symm)] at hAfter
  obtain rfl := Option.some.inj hAfter
  exact hSize

/-- The last of the elements has no memory after a trim. -/
theorem not_behaves_trim (hSome : reference ≠ []) (hWide : width.bytes ≠ 1) : ¬ v.trim.Behaves width reference := by
  intro hBehaves
  have hPos := List.length_pos_iff.mpr hSome
  have hSize : v.size = reference.length := hBehaves.size
  have hLast := hBehaves.back
  have hTwo : 2 ≤ width.bytes := by
    have := width.pos
    omega
  have hShort : ¬ v.size * width.bytes ≤ v.size := by
    have := Nat.mul_le_mul_left v.size hTwo
    omega
  have hIn : ¬ v.size ≤ v.size - 1 := by omega
  simp only [at?, cell, WVector.trim, if_neg hIn, Nat.sub_add_cancel (hSize ▸ hPos), if_neg hShort] at hLast
  exact hSome (List.getLast?_eq_none_iff.mp hLast.symm)

end WVector

inductive WVectorOperation (α : Type) where
  | pushBack (t : α)
  | popBack
  | resize (newSize : Nat) (value : α)
  | trim

/-- A vector, while its calls are defined, and a reference list that is driven by the same calls. -/
structure WVectors (α : Type) where
  vector : Option (WVector α)
  reference : List α

namespace WVectors

variable {α : Type} (width : ElementSize) (s : WVectors α)

def new : WVectors α := ⟨some .new, []⟩

def next (s : WVectors α) : WVectorOperation α → WVectors α
  | .pushBack t => ⟨s.vector.bind (·.pushBack width t), s.reference ++ [t]⟩
  | .popBack => ⟨s.vector.map (·.popBack), s.reference.dropLast⟩
  | .resize newSize value =>
      ⟨s.vector.bind (·.resize width newSize value), FastVector.resized s.reference newSize value⟩
  | .trim => ⟨s.vector.map (·.trim), s.reference⟩

/-- There is something to pop, and sizes are those of an `int`. -/
def Valid : WVectorOperation α → Prop
  | .pushBack _ => s.reference.length + 1 < 2 ^ 31
  | .popBack => s.reference ≠ []
  | .resize newSize _ => newSize < 2 ^ 31
  | .trim => True

def Behaves : Prop := ∃ v, s.vector = some v ∧ v.Behaves width s.reference

/-- Vectors only grow, and a trim is given as many bytes as there are elements. -/
def Tame : WVectorOperation α → Prop
  | .pushBack _ => True
  | .popBack => True
  | .resize newSize _ => s.reference.length ≤ newSize
  | .trim => s.reference = [] ∨ width.bytes = 1

def Represented : Prop := ∃ v, s.vector = some v ∧ v.Represents width s.reference

variable {width s}

theorem represented_next (hRep : s.Represented width) {op : WVectorOperation α} (hValid : s.Valid op)
    (hTame : s.Tame width op) : (s.next width op).Represented width := by
  obtain ⟨v, hV, hRep⟩ := hRep
  cases op with
  | pushBack t =>
    obtain ⟨after, hAfter, hNew⟩ := hRep.pushBack hValid t
    exact ⟨after, by rw [next, hV, Option.bind_some, hAfter], hNew⟩
  | popBack => exact ⟨_, by rw [next, hV, Option.map_some], hRep.popBack hValid⟩
  | resize newSize value =>
    obtain ⟨after, hAfter, hNew⟩ := hRep.resize hValid hTame value
    exact ⟨after, by rw [next, hV, Option.bind_some, hAfter], hNew⟩
  | trim => exact ⟨_, by rw [next, hV, Option.map_some], hRep.trim hTame⟩

theorem behaves_next_iff (hRep : s.Represented width) {op : WVectorOperation α} (hValid : s.Valid op) :
    (s.next width op).Behaves width ↔ s.Tame width op := by
  constructor
  · obtain ⟨v, hV, hOld⟩ := hRep
    rintro ⟨after, hAfter, hBehaves⟩
    cases op with
    | pushBack t => trivial
    | popBack => trivial
    | resize newSize value =>
      by_contra hShrinks
      rw [Tame, not_le] at hShrinks
      rw [next, hV, Option.bind_some] at hAfter
      have hSize := WVector.size_of_resize (hShrinks.le.trans_eq hOld.size.symm) hAfter
      have hNew : after.size = (FastVector.resized s.reference newSize value).length := hBehaves.size
      simp only [FastVector.resized, List.length_append, List.length_take, List.length_replicate] at hNew
      have := hOld.size
      omega
    | trim =>
      by_contra hBad
      obtain ⟨hSome, hWide⟩ := not_or.mp hBad
      rw [next, hV, Option.map_some] at hAfter
      obtain rfl := Option.some.inj hAfter
      exact WVector.not_behaves_trim hSome hWide hBehaves
  · intro hTame
    obtain ⟨v, hV, hNew⟩ := represented_next hRep hValid hTame
    exact ⟨v, hV, hNew.behaves⟩

theorem behaves_throughout_iff (width : ElementSize) (ops : List (WVectorOperation α)) :
    Throughout (next width) (fun s op => s.Valid op ∧ (s.next width op).Behaves width) new ops ↔
      Throughout (next width) (fun s op => s.Valid op ∧ s.Tame width op) new ops := by
  have hNew : (new : WVectors α).Represented width :=
    ⟨.new, rfl, rfl, fun i hIn => absurd hIn (Nat.not_lt_zero i), (Nat.zero_mul _).symm, le_rfl, Nat.two_pow_pos 32⟩
  exact throughout_and_congr (Represented width) (fun _ _ hRep => behaves_next_iff hRep)
    (fun _ _ hRep => represented_next hRep) hNew ops

end WVectors

/-- Lists and vectors behave as sequences exactly while no node is popped before the last one, no vector is made
smaller, and none is trimmed that has elements of several bytes. -/
theorem sequences_behave_iff {α : Type} (width : ElementSize) (listOps : List (WListOperation α))
    (vectorOps : List (WVectorOperation α)) :
    (Throughout WLists.next (fun s op => s.Valid op ∧ (s.next op).Behaves) WLists.new listOps ∧
      Throughout (WVectors.next width) (fun s op => s.Valid op ∧ (s.next width op).Behaves width) WVectors.new vectorOps) ↔
    Throughout WLists.next (fun s op => s.Valid op ∧ s.Tame op) WLists.new listOps ∧
      Throughout (WVectors.next width) (fun s op => s.Valid op ∧ s.Tame width op) WVectors.new vectorOps :=
  and_congr (WLists.behaves_throughout_iff listOps) (WVectors.behaves_throughout_iff width vectorOps)

/-- After a node is popped, the next one is not allocated. -/
theorem popped_list_freed : ¬ Throughout WLists.next (fun s op => s.Valid op ∧ (s.next op).Behaves) WLists.new
    [.pushFront 0x10 (1 : Nat), .pushFront 0x20 2, .popFront] := by
  rintro ⟨-, -, ⟨-, after, hAfter, hBehaves⟩, -⟩
  have hFront : (WLists.list _).bind (·.front) = _ := (congrArg (Option.bind · WList.front) hAfter).trans hBehaves.front
  exact absurd hFront (by decide)

end Gensim.Util
