import Gensim.Lib.Operations

/-! The vector with inline storage, which moves to an overflow vector when it grows. -/
namespace Gensim.Util

open Operations

/-- The union of the inline values and the overflow vector. A cell without a value is indeterminate. -/
inductive Storage (α : Type*) where
  | values (cells : Nat → Option α)
  | vector (elements : List (Option α))

namespace Storage

variable {α : Type*} (storage : Storage α)

/-- What is in an inline cell, which says nothing while the vector is there. -/
def value (i : Nat) : Option α :=
  match storage with
  | values cells => cells i
  | vector _ => none

def elements : List (Option α) :=
  match storage with
  | values _ => []
  | vector elements => elements

/-- The storage before anything is put there. -/
def raw : Storage α := values fun _ => none

end Storage

structure FastVector (α : Type*) where
  storage : Storage α
  count : BitVec 32

namespace FastVector

variable {α : Type*} (num : Nat) (v : FastVector α)

def new : FastVector α := ⟨.raw, 0⟩

def usingValues : Bool := v.count.toNat ≤ num
def usingVector : Bool := num < v.count.toNat

def switchToVector : FastVector α := { v with storage := .vector ((List.range num).map v.storage.value) }

def pushBackValues (val : α) : FastVector α :=
  ⟨.values (Function.update v.storage.value v.count.toNat (some val)), v.count + 1⟩

def pushBackVector (val : α) : FastVector α := ⟨.vector (v.storage.elements ++ [some val]), v.count + 1⟩

def pushBack (val : α) : FastVector α :=
  let v := if v.count.toNat = num then v.switchToVector num else v
  if num ≤ v.count.toNat then v.pushBackVector val else v.pushBackValues val

/-- What copies have in common: the count is that of the other vector, and so are its contents. -/
def takeFrom (other : FastVector α) : FastVector α :=
  let v := { v with count := other.count }
  if other.usingVector num then { v.switchToVector num with storage := .vector other.storage.elements }
  else { v with storage := .values fun i => if i < num then other.storage.value i else v.storage.value i }

def copyOf (other : FastVector α) : FastVector α := (FastVector.mk .raw 0).takeFrom num other

def clear : FastVector α := ⟨if v.usingVector num then .raw else v.storage, 0⟩

def assign (other : FastVector α) : FastVector α := (v.clear num).takeFrom num other

/-- The vector is its own `other`, and is cleared before it is read. -/
def assignSelf : FastVector α := (v.clear num).takeFrom num (v.clear num)

/-- `std::vector::resize` -/
def resized {β : Type*} (elements : List β) (size : Nat) (padding : β) : List β :=
  elements.take size ++ List.replicate (size - elements.length) padding

def resize [Inhabited α] (size : Nat) : FastVector α :=
  if num < size then
    { v with storage := .vector (resized (v.switchToVector num).storage.elements size (some default)) }
  else v

def reserve (size : Nat) : FastVector α := if num < size then v.switchToVector num else v

def size : Nat := v.count.toNat
def empty : Bool := 0 < v.count.toNat

/-- There is no result where an exception is thrown. -/
def at? (i : Nat) : Option (Option α) :=
  if v.count.toNat ≤ i then none
  else if v.usingValues num then some (v.storage.value i)
  else v.storage.elements[i]?

def front : Option α := if v.usingValues num then v.storage.value 0 else v.storage.elements.head?.join
def back : Option α := if v.usingValues num then v.storage.value 0 else v.storage.elements.getLast?.join

/-- What an iterator sees from `begin` to `end`. -/
def iteration : List (Option (Option α)) := (List.range v.count.toNat).map (v.at? num)

inductive Observer where
  | size | empty | elementAt | front | back | iteration

/-- The observer gives what it gives for a vector with these elements. The first and last elements are only
asked for where there are some. -/
def Agrees (list : List α) : Observer → Prop
  | .size => v.size = list.length
  | .empty => v.empty = list.isEmpty
  | .elementAt => ∀ i, v.at? num i = list[i]?.map some
  | .front => list ≠ [] → v.front num = list.head?
  | .back => list ≠ [] → v.back num = list.getLast?
  | .iteration => v.iteration num = list.map fun x => some (some x)

/-- When an observer agrees: `empty` tests for the contrary, and `back` returns the first of the inline values. -/
def Observer.Reliable (list : List α) : Observer → Prop
  | .empty => False
  | .back => list.length ≤ num → list.head? = list.getLast?
  | _ => True

/-! ### Representation -/

/-- The vector has these elements, in the member of the union that the count says. -/
structure Represents (list : List α) : Prop where
  count : v.count.toNat = list.length
  values : list.length ≤ num → ∀ i < list.length, v.storage.value i = list[i]?
  vector : num < list.length → v.storage.elements = list.map some

variable {num v}

theorem pushBack_of_lt (hShort : v.count.toNat < num) (val : α) : v.pushBack num val = v.pushBackValues val := by
  simp [pushBack, hShort.ne, hShort]

theorem pushBack_of_eq (hFull : v.count.toNat = num) (val : α) :
    v.pushBack num val = (v.switchToVector num).pushBackVector val := by
  simp [pushBack, hFull, switchToVector]

theorem pushBack_of_gt (hLong : num < v.count.toNat) (val : α) : v.pushBack num val = v.pushBackVector val := by
  simp [pushBack, hLong.ne', hLong.le]

theorem represents_nil (hCount : v.count.toNat = 0) : v.Represents num [] :=
  ⟨hCount, fun _ _ hi => absurd hi (Nat.not_lt_zero _), fun hLess => absurd hLess (Nat.not_lt_zero _)⟩

section Observers

variable {list : List α} (hRep : v.Represents num list)

include hRep

theorem Represents.usingValues_iff : v.usingValues num = true ↔ list.length ≤ num := by
  rw [usingValues, decide_eq_true_eq, hRep.count]

theorem Represents.at?_eq (i : Nat) : v.at? num i = list[i]?.map some := by
  unfold at?
  rw [hRep.count]
  split_ifs with hEnd hValues
  · rw [List.getElem?_eq_none hEnd, Option.map_none]
  · rw [hRep.values (hRep.usingValues_iff.mp hValues) i (not_le.mp hEnd),
      List.getElem?_eq_getElem (not_le.mp hEnd), Option.map_some]
  · rw [hRep.vector (not_le.mp (hRep.usingValues_iff.not.mp hValues)), List.getElem?_map]

theorem Represents.iteration_eq : v.iteration num = list.map fun x => some (some x) := by
  unfold iteration
  rw [hRep.count]
  refine List.ext_getElem (by simp) fun i hLeft hRight => ?_
  rw [List.getElem_map, List.getElem_range, hRep.at?_eq, List.getElem?_eq_getElem (by simpa using hRight),
    List.getElem_map, Option.map_some]

theorem Represents.front_eq (hSome : list ≠ []) : v.front num = list.head? := by
  unfold front
  split_ifs with hValues
  · rw [hRep.values (hRep.usingValues_iff.mp hValues) 0 (List.length_pos_iff.mpr hSome), List.head?_eq_getElem?]
  · rw [hRep.vector (not_le.mp (hRep.usingValues_iff.not.mp hValues)), List.head?_map]
    cases list.head? <;> rfl

theorem Represents.back_eq (hSome : list ≠ []) :
    v.back num = if list.length ≤ num then list.head? else list.getLast? := by
  unfold back
  simp only [hRep.usingValues_iff]
  split_ifs with hShort
  · rw [hRep.values hShort 0 (List.length_pos_iff.mpr hSome), List.head?_eq_getElem?]
  · rw [hRep.vector (not_le.mp hShort), List.getLast?_map]
    cases list.getLast? <;> rfl

theorem Represents.empty_ne : v.empty ≠ list.isEmpty := by
  unfold empty
  rw [hRep.count]
  cases list <;> simp

theorem Represents.agrees_iff (observer : Observer) : v.Agrees num list observer ↔ observer.Reliable num list := by
  cases observer with
  | size => exact iff_of_true hRep.count trivial
  | empty => exact iff_of_false hRep.empty_ne id
  | elementAt => exact iff_of_true hRep.at?_eq trivial
  | front => exact iff_of_true hRep.front_eq trivial
  | iteration => exact iff_of_true hRep.iteration_eq trivial
  | back =>
    rcases eq_or_ne list [] with rfl | hSome
    · exact iff_of_true (fun hNot => absurd rfl hNot) fun _ => rfl
    · rw [Agrees, Observer.Reliable, imp_iff_right hSome, hRep.back_eq hSome]
      split_ifs with hShort
      · exact (imp_iff_right hShort).symm
      · exact iff_of_true rfl fun hLess => absurd hLess hShort

end Observers

/-! ### Calls -/

section Calls

variable {list : List α}

theorem Represents.pushBack (hRep : v.Represents num list) (val : α) (hFits : list.length + 1 < 2 ^ 32) :
    (v.pushBack num val).Represents num (list ++ [val]) := by
  have hNext : (v.count + 1).toNat = (list ++ [val]).length := by
    rw [BitVec.toNat_add, hRep.count, List.length_append]
    exact Nat.mod_eq_of_lt hFits
  rcases lt_trichotomy list.length num with hShort | hFull | hLong
  · rw [pushBack_of_lt (hRep.count.trans_lt hShort)]
    refine ⟨hNext, fun _ i hi => ?_, fun hLess => ?_⟩
    · change Function.update v.storage.value v.count.toNat (some val) i = _
      rw [hRep.count]
      rcases eq_or_ne i list.length with rfl | hOther
      · rw [Function.update_self]
        simp
      · have hOld : i < list.length := by
          rw [List.length_append, List.length_singleton] at hi
          omega
        rw [Function.update_of_ne hOther, hRep.values hShort.le i hOld, List.getElem?_append_left hOld]
    · rw [List.length_append, List.length_singleton] at hLess
      omega
  · have hAll : (List.range num).map v.storage.value = list.map some := by
      subst hFull
      refine List.ext_getElem (by simp) fun i hLeft hRight => ?_
      rw [List.length_map] at hRight
      rw [List.getElem_map, List.getElem_range, hRep.values le_rfl i hRight, List.getElem_map,
        List.getElem?_eq_getElem hRight]
    rw [pushBack_of_eq (hRep.count.trans hFull)]
    refine ⟨hNext, fun hLess => ?_, fun _ => ?_⟩
    · rw [List.length_append, List.length_singleton] at hLess
      omega
    · change (List.range num).map v.storage.value ++ [some val] = _
      rw [hAll, List.map_append, List.map_singleton]
  · rw [pushBack_of_gt (hLong.trans_eq hRep.count.symm)]
    refine ⟨hNext, fun hLess => ?_, fun _ => ?_⟩
    · rw [List.length_append, List.length_singleton] at hLess
      omega
    · change v.storage.elements ++ [some val] = _
      rw [hRep.vector hLong, List.map_append, List.map_singleton]

theorem Represents.takeFrom (hRep : v.Represents num list) (target : FastVector α) :
    (target.takeFrom num v).Represents num list := by
  unfold FastVector.takeFrom
  dsimp only
  split_ifs with hVector
  · rw [usingVector, decide_eq_true_eq, hRep.count] at hVector
    exact ⟨hRep.count, fun hShort => absurd hVector (not_lt.mpr hShort), fun hLong => hRep.vector hLong⟩
  · rw [usingVector, decide_eq_true_eq, hRep.count] at hVector
    refine ⟨hRep.count, fun hShort i hi => ?_, fun hLong => absurd hLong hVector⟩
    change (if i < num then v.storage.value i else _) = _
    rw [if_pos (hi.trans_le hShort), hRep.values hShort i hi]

theorem represents_clear : (v.clear num).Represents num ([] : List α) := represents_nil rfl

theorem represents_assignSelf : (v.assignSelf num).Represents num ([] : List α) := represents_clear.takeFrom _

/-- Where the elements are in the vector, no inline cell has a value. -/
theorem Represents.value_of_long (hRep : v.Represents num list) (hLong : num < list.length) (i : Nat) :
    v.storage.value i = none := by
  have hElements := hRep.vector hLong
  cases hStorage : v.storage with
  | values cells =>
    rw [hStorage] at hElements
    have hNil : list = [] := List.map_eq_nil_iff.mp hElements.symm
    simp [hNil] at hLong
  | vector elements => rfl

/-- After a switch of the storage that is not followed by a new count, the first element is lost. -/
theorem Represents.at?_lost (hRep : v.Represents (num + 1) list) (hSome : list ≠ []) {elements : List (Option α)}
    (hFirst : elements.head? = some (v.storage.value 0)) :
    FastVector.at? (num + 1) ⟨.vector elements, v.count⟩ 0 = some none := by
  have hPos : ¬ v.count.toNat ≤ 0 := by
    rw [hRep.count]
    exact not_le.mpr (List.length_pos_iff.mpr hSome)
  unfold at? usingValues
  rw [if_neg hPos]
  split_ifs with hValues
  · rfl
  · rw [decide_eq_true_eq, hRep.count, not_le] at hValues
    rw [← List.head?_eq_getElem?]
    exact hFirst.trans (by rw [hRep.value_of_long hValues])

end Calls

end FastVector

inductive VectorOperation (α : Type*) where
  | pushBack (i : Nat) (val : α)
  | copy (i j : Nat)
  | assign (i j : Nat)
  | resize (i size : Nat)
  | reserve (i size : Nat)
  | clear (i : Nat)

/-- Vectors by their names, and the vectors of the standard library driven by the same calls. -/
structure Vectors (α : Type*) where
  fast : Nat → FastVector α
  reference : Nat → List α

namespace Vectors

variable {α : Type*} (num : Nat) (vs : Vectors α)

def new : Vectors α := ⟨fun _ => .new, fun _ => []⟩

def set (i : Nat) (v : FastVector α) (list : List α) : Vectors α :=
  ⟨Function.update vs.fast i v, Function.update vs.reference i list⟩

def next {α : Type*} [Inhabited α] (num : Nat) (vs : Vectors α) : VectorOperation α → Vectors α
  | .pushBack i val => vs.set i ((vs.fast i).pushBack num val) (vs.reference i ++ [val])
  | .copy i j => vs.set i (.copyOf num (vs.fast j)) (vs.reference j)
  | .assign i j =>
      if i = j then vs.set i ((vs.fast i).assignSelf num) (vs.reference i)
      else vs.set i ((vs.fast i).assign num (vs.fast j)) (vs.reference j)
  | .resize i size => vs.set i ((vs.fast i).resize num size) (FastVector.resized (vs.reference i) size default)
  | .reserve i size => vs.set i ((vs.fast i).reserve num size) (vs.reference i)
  | .clear i => vs.set i ((vs.fast i).clear num) []

/-- The observers that work, agree on every vector. -/
def Refines : Prop :=
  ∀ i, ∀ observer ∈ [FastVector.Observer.size, .elementAt, .front, .iteration],
    (vs.fast i).Agrees num (vs.reference i) observer

/-- The calls after which the vectors are still alike. -/
def Tame : VectorOperation α → Prop
  | .pushBack i _ => (vs.reference i).length + 1 < 2 ^ 32
  | .copy _ _ => True
  | .assign i j => i = j → vs.reference i = []
  | .resize i size => size = (vs.reference i).length ∧ size ≤ num
  | .reserve i size => num < size → vs.reference i = []
  | .clear _ => True

/-- Every vector has its elements in its storage. -/
def AllRepresented : Prop := ∀ i, (vs.fast i).Represents num (vs.reference i)

variable {num vs}

theorem refines_of_allRepresented (hAll : vs.AllRepresented num) : vs.Refines num := by
  intro i observer hMem
  simp only [List.mem_cons, List.not_mem_nil, or_false] at hMem
  rcases hMem with rfl | rfl | rfl | rfl
  · exact (hAll i).count
  · exact (hAll i).at?_eq
  · exact (hAll i).front_eq
  · exact (hAll i).iteration_eq

theorem allRepresented_set (hAll : vs.AllRepresented num) {i : Nat} {v : FastVector α} {list : List α}
    (hRep : v.Represents num list) : (vs.set i v list).AllRepresented num := by
  intro j
  rcases eq_or_ne j i with rfl | hOther
  · simpa [set] using hRep
  · simpa [set, hOther] using hAll j

theorem agrees_of_refines_set {i : Nat} {v : FastVector α} {list : List α} (hRefines : (vs.set i v list).Refines num) :
    v.size = list.length ∧ ∀ k, v.at? num k = list[k]?.map some := by
  have hSize := hRefines i .size (by simp)
  have hAt := hRefines i .elementAt (by simp)
  simp only [set, Function.update_self] at hSize hAt
  exact ⟨hSize, hAt⟩

variable [Inhabited α]

theorem allRepresented_next (hAll : vs.AllRepresented num) {op : VectorOperation α} (hTame : vs.Tame num op) :
    (vs.next num op).AllRepresented num := by
  cases op with
  | pushBack i val => exact allRepresented_set hAll ((hAll i).pushBack val hTame)
  | copy i j => exact allRepresented_set hAll ((hAll j).takeFrom _)
  | assign i j =>
    rw [next]
    split_ifs with hSelf
    · rw [hTame hSelf]
      exact allRepresented_set hAll FastVector.represents_assignSelf
    · exact allRepresented_set hAll ((hAll j).takeFrom _)
  | resize i size =>
    obtain ⟨rfl, hShort⟩ := hTame
    have hSame : FastVector.resized (vs.reference i) (vs.reference i).length default = vs.reference i := by
      simp [FastVector.resized]
    rw [next, FastVector.resize, if_neg (not_lt.mpr hShort), hSame]
    exact allRepresented_set hAll (hAll i)
  | reserve i size =>
    rw [next, FastVector.reserve]
    split_ifs with hLong
    · rw [hTame hLong]
      refine allRepresented_set hAll (FastVector.represents_nil ?_)
      exact (hAll i).count.trans (congrArg List.length (hTame hLong))
    · exact allRepresented_set hAll (hAll i)
  | clear i => exact allRepresented_set hAll FastVector.represents_clear

theorem tame_of_refines (hAll : vs.AllRepresented (num + 1)) {op : VectorOperation α}
    (hRefines : (vs.next (num + 1) op).Refines (num + 1)) : vs.Tame (num + 1) op := by
  -- A vector that is not empty, whose first element is indeterminate.
  have hLost {i : Nat} {v : FastVector α} (hSome : vs.reference i ≠ []) (hNone : v.at? (num + 1) 0 = some none) :
      ¬ v.at? (num + 1) 0 = (vs.reference i)[0]?.map some := by
    rw [hNone, List.getElem?_eq_getElem (List.length_pos_iff.mpr hSome)]
    simp
  have hSwitched (i : Nat) : ((vs.fast i).switchToVector (num + 1)).storage.elements.head? =
      some ((vs.fast i).storage.value 0) := by
    rw [FastVector.switchToVector, List.range_succ_eq_map]
    rfl
  cases op with
  | pushBack i val =>
    obtain ⟨hSize, -⟩ := agrees_of_refines_set hRefines
    have hBound := ((vs.fast i).pushBack (num + 1) val).count.isLt
    have hCount : ((vs.fast i).pushBack (num + 1) val).count.toNat = (vs.reference i).length + 1 :=
      hSize.trans List.length_append
    exact hCount.symm.trans_lt hBound
  | copy i j => trivial
  | assign i j =>
    rintro rfl
    rw [next, if_pos rfl] at hRefines
    obtain ⟨hSize, -⟩ := agrees_of_refines_set hRefines
    exact List.length_eq_zero_iff.mp (hSize.symm.trans FastVector.represents_assignSelf.count)
  | resize i size =>
    obtain ⟨hSize, hAt⟩ := agrees_of_refines_set hRefines
    have hCount : ((vs.fast i).resize (num + 1) size).size = (vs.reference i).length := by
      refine Eq.trans ?_ (hAll i).count
      unfold FastVector.resize
      split_ifs <;> rfl
    have hLength : (vs.reference i).length = size := by
      rw [hCount, FastVector.resized, List.length_append, List.length_take, List.length_replicate] at hSize
      omega
    refine ⟨hLength.symm, not_lt.mp fun hLong => ?_⟩
    have hSome : vs.reference i ≠ [] := List.ne_nil_of_length_pos (by omega)
    have hSame : FastVector.resized (vs.reference i) size default = vs.reference i := by
      simp [FastVector.resized, ← hLength]
    rw [hSame, FastVector.resize, if_pos hLong] at hAt
    refine hLost hSome ((hAll i).at?_lost hSome ?_) (hAt 0)
    obtain ⟨n, rfl⟩ := Nat.exists_eq_succ_of_ne_zero (Nat.ne_zero_of_lt hLong)
    rw [FastVector.resized, List.head?_append, List.head?_take, if_neg (Nat.succ_ne_zero n), hSwitched, Option.some_or]
  | reserve i size =>
    intro hLong
    rw [next, FastVector.reserve, if_pos hLong] at hRefines
    obtain ⟨-, hAt⟩ := agrees_of_refines_set hRefines
    by_contra hSome
    exact hLost hSome ((hAll i).at?_lost hSome (hSwitched i)) (hAt 0)
  | clear i => trivial

/-- Size, elements and iteration agree after every call exactly if all the calls are tame, and then the other
observers agree exactly where they are reliable. -/
theorem refines_throughout_iff (num : Nat) (ops : List (VectorOperation α)) :
    (Throughout (next (num + 1)) (fun vs op => (vs.next (num + 1) op).Refines (num + 1)) new ops ↔
        Throughout (next (num + 1)) (Tame (num + 1)) new ops) ∧
      (Throughout (next (num + 1)) (Tame (num + 1)) new ops → ∀ i observer,
        ((ops.foldl (next (num + 1)) new).fast i).Agrees (num + 1)
            ((ops.foldl (next (num + 1)) new).reference i) observer ↔
          observer.Reliable (num + 1) ((ops.foldl (next (num + 1)) new).reference i)) := by
  have hNew : (new : Vectors α).AllRepresented (num + 1) := fun _ => FastVector.represents_nil rfl
  refine ⟨throughout_congr (AllRepresented (num + 1)) (fun vs op hAll => ?_) (fun vs op hAll hRefines => ?_) hNew ops,
    fun hTame i observer => ?_⟩
  · exact ⟨tame_of_refines hAll, fun hTame => refines_of_allRepresented (allRepresented_next hAll hTame)⟩
  · exact allRepresented_next hAll (tame_of_refines hAll hRefines)
  · have hAll := foldl_of_throughout (fun vs op hAll hOp => allRepresented_next hAll hOp) hTame hNew
    exact (hAll i).agrees_iff observer

/-- A new vector is not found empty, the last of two elements is not found, and a vector assigned to itself
loses its element. -/
theorem calls_differ :
    ¬ (FastVector.new : FastVector Nat).Agrees 4 [] .empty ∧
      ¬ ((List.foldl (next 4) new [.pushBack 0 1, .pushBack 0 2]).fast 0).Agrees 4 [1, 2] .back ∧
      ¬ (List.foldl (next 4) new [.pushBack 0 1, .assign 0 0]).Refines 4 := by
  refine ⟨fun hAgrees => Bool.false_ne_true hAgrees, fun hAgrees => ?_, fun hRefines => ?_⟩
  · exact absurd (hAgrees (List.cons_ne_nil _ _)) (by decide)
  · have hSize : (0 : Nat) = 1 := hRefines 0 .size (by simp)
    cases hSize

end Vectors

end Gensim.Util
