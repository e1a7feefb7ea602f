import Mathlib.Order.Interval.Set.Disjoint
import Mathlib.Tactic
import Mathlib.Order.CompletePartialOrder

/-! `RegisterFile`: register spaces placed one after the other, and views of their bytes as slots and as
banks of registers with elements. Sizes and offsets are numbers of 32 bits, as in the source. -/
namespace Gensim.Arch

/-! ### Views -/

/-- What stands before the first `*` of a type name. The position is cut to 8 bits, also where there is
none. -/
def baseType (text : String) : String :=
  String.ofList (text.toList.take ((text.toList.findIdx? (· = '*')).getD (2 ^ 64 - 1) % 256))

/-- The types that `IRType::ParseType` knows, with their sizes in bytes. -/
def baseTypes : List (String × Nat) :=
  [("uint8", 1), ("sint8", 1), ("uint16", 2), ("sint16", 2), ("uint32", 4), ("sint32", 4), ("uint64", 8),
    ("sint64", 8), ("uint128", 16), ("sint128", 16), ("float", 4), ("double", 8), ("void", 0)]

def parseType (text : String) : Option Nat := baseTypes.lookup (baseType text)

structure RegSlotViewDescriptor where
  id : String
  typeName : String
  size : UInt32
  offset : UInt32
  tag : Option String

structure RegBankViewDescriptor where
  id : String
  elementTypeName : String
  registerSpaceOffset : UInt32
  registerCount : UInt32
  registerStride : UInt32
  elementCount : UInt32
  elementSize : UInt32
  elementStride : UInt32

inductive View
  | bank (view : RegBankViewDescriptor)
  | slot (view : RegSlotViewDescriptor)

namespace View

def id : View → String
  | .bank view => view.id
  | .slot view => view.id

def bank? : View → Option RegBankViewDescriptor
  | .bank view => some view
  | .slot _ => none

def slot? : View → Option RegSlotViewDescriptor
  | .bank _ => none
  | .slot view => some view

end View

def RegSlotViewDescriptor.resolve (slot : RegSlotViewDescriptor) (spaceSize : UInt32) : List String :=
  (if slot.offset + slot.size > spaceSize then
    ["Register slot " ++ slot.id ++ ": exceeds the bounds of its register space!"] else []) ++
  if (parseType slot.typeName).isNone then
    ["Register slot " ++ slot.id ++ ": Unknown type " ++ slot.typeName] else []

namespace RegBankViewDescriptor

def getBankSize (bank : RegBankViewDescriptor) : UInt32 := bank.registerCount * bank.registerStride

def resolve (bank : RegBankViewDescriptor) (spaceSize : UInt32) : List String :=
  (if bank.registerCount = 0 then
    ["Register bank " ++ bank.id ++ ": must have at least one register!"] else []) ++
  (if bank.registerSpaceOffset + bank.getBankSize > spaceSize then
    ["Register bank " ++ bank.id ++ ": does not fit within the bounds of its register space!"] else []) ++
  (if bank.elementStride < bank.elementSize then
    ["Register bank " ++ bank.id ++ ": Stride must be greater than element size"] else []) ++
  (if bank.elementCount * bank.elementStride > bank.registerStride then
    ["Register bank " ++ bank.id ++
      ": Element Count * Element Stride must be less than Register Stride"] else []) ++
  if (parseType bank.elementTypeName).isNone then
    ["Register bank " ++ bank.id ++ ": Unknown type " ++ bank.elementTypeName] else []

/-- Where an element of a register starts, in its space. -/
def elementOffset (bank : RegBankViewDescriptor) (register element : Nat) : Nat :=
  bank.registerSpaceOffset.toNat + register * bank.registerStride.toNat + element * bank.elementStride.toNat

end RegBankViewDescriptor

/-! ### Spaces and files -/

/-- A space with the views that are added to it, in order. -/
structure RegSpaceDescriptor where
  sizeInBytes : UInt32
  pos : 0 < sizeInBytes
  added : List View

/-- A view is not taken up when the space has one of its name. -/
def addView (views : List View) (view : View) : List View :=
  if view.id ∈ views.map View.id then views else views ++ [view]

namespace RegSpaceDescriptor

def views (space : RegSpaceDescriptor) : List View := space.added.foldl addView []

def banks (space : RegSpaceDescriptor) : List RegBankViewDescriptor := space.views.filterMap View.bank?

def slots (space : RegSpaceDescriptor) : List RegSlotViewDescriptor := space.views.filterMap View.slot?

def getAlignmentRequirements (space : RegSpaceDescriptor) : UInt32 :=
  space.slots.foldl (fun maximum slot => if slot.size > maximum then slot.size else maximum)
    (space.banks.foldl
      (fun maximum bank => if bank.registerStride > maximum then bank.registerStride else maximum) 0)

def resolve (space : RegSpaceDescriptor) : List String :=
  space.banks.flatMap (·.resolve space.sizeInBytes) ++ space.slots.flatMap (·.resolve space.sizeInBytes)

end RegSpaceDescriptor

/-- No alignment divides by zero. -/
def alignUp (value alignment : UInt32) : Option UInt32 :=
  if alignment = 0 then none
  else if value % alignment = 0 then some value else some (value + (alignment - value % alignment))

/-- The offset of space `i` when the spaces before the list end at `totalOffset`. -/
def offsetFrom : List RegSpaceDescriptor → Nat → UInt32 → Option UInt32
  | [], _, _ => none
  | space :: rest, i, totalOffset =>
      (alignUp totalOffset space.getAlignmentRequirements).bind fun offset =>
        match i with
        | 0 => some offset
        | i + 1 => offsetFrom rest i (offset + space.sizeInBytes)

structure RegisterFile where
  spaces : List RegSpaceDescriptor

namespace RegisterFile

def bankViews (file : RegisterFile) : List RegBankViewDescriptor :=
  file.spaces.flatMap fun space => space.added.filterMap View.bank?

def slotViews (file : RegisterFile) : List RegSlotViewDescriptor :=
  file.spaces.flatMap fun space => space.added.filterMap View.slot?

def getOffsetOf (file : RegisterFile) (i : Nat) : Option UInt32 := offsetFrom file.spaces i 0

def getSize (file : RegisterFile) : Option UInt32 := do
  let last ← file.spaces.getLast?
  let offset ← file.getOffsetOf (file.spaces.length - 1)
  some (last.sizeInBytes + offset)

def bankErrors : List RegBankViewDescriptor → List String → List String
  | [], _ => []
  | bank :: rest, names =>
      (if bank.id ∈ names then
        ["Register bank " ++ bank.id ++ ": another bank or slot with this name already exists"] else []) ++
      bankErrors rest (bank.id :: names)

def slotErrors : List RegSlotViewDescriptor → List String → List String → List String
  | [], _, _ => []
  | slot :: rest, names, tags =>
      (if slot.id ∈ names then
        ["Register slot " ++ slot.id ++ ": another bank or slot with this name already exists"] else []) ++
      ((slot.tag.filter (· ∈ tags)).toList.map fun tag =>
        "Register slot " ++ slot.id ++ ": another slot with tag " ++ tag ++ " already exists") ++
      slotErrors rest (slot.id :: names) (slot.tag.toList ++ tags)

/-- The errors that are reported; `Resolve` succeeds if there are none. -/
def resolve (file : RegisterFile) : List String :=
  file.spaces.flatMap RegSpaceDescriptor.resolve ++ bankErrors file.bankViews [] ++
    slotErrors file.slotViews (file.bankViews.map (·.id)) []

/-! ### Sound layouts -/

/-- The bytes of space `i` in the file. -/
def spaceBytes (space : RegSpaceDescriptor) (offset : UInt32) : Set Nat :=
  Set.Ico offset.toNat (offset.toNat + space.sizeInBytes.toNat)

/-- What the users of a register file rely on. A view is accessed at the size of its type. -/
structure SoundLayout (file : RegisterFile) : Prop where
  inside : ∀ i space, file.spaces[i]? = some space → ∃ offset size, file.getOffsetOf i = some offset ∧
    file.getSize = some size ∧ offset.toNat + space.sizeInBytes.toNat ≤ size.toNat
  apart : ∀ i j space space' offset offset', i < j → file.spaces[i]? = some space →
    file.spaces[j]? = some space' → file.getOffsetOf i = some offset → file.getOffsetOf j = some offset' →
      Disjoint (spaceBytes space offset) (spaceBytes space' offset')
  slots : ∀ space ∈ file.spaces, ∀ slot, .slot slot ∈ space.added → ∀ n, parseType slot.typeName = some n →
    slot.offset.toNat + n ≤ space.sizeInBytes.toNat
  elements : ∀ space ∈ file.spaces, ∀ bank, .bank bank ∈ space.added →
    ∀ n, parseType bank.elementTypeName = some n → ∀ register element, register < bank.registerCount.toNat →
      element < bank.elementCount.toNat →
        bank.elementOffset register element + n ≤ space.sizeInBytes.toNat
  elementsApart : ∀ space ∈ file.spaces, ∀ bank, .bank bank ∈ space.added →
    ∀ n, parseType bank.elementTypeName = some n → ∀ register element register' element',
      register < bank.registerCount.toNat → element < bank.elementCount.toNat →
      register' < bank.registerCount.toNat → element' < bank.elementCount.toNat →
      (register, element) ≠ (register', element') →
        Disjoint (Set.Ico (bank.elementOffset register element) (bank.elementOffset register element + n))
          (Set.Ico (bank.elementOffset register' element') (bank.elementOffset register' element' + n))

end RegisterFile

/-! ### Elements -/

namespace RegBankViewDescriptor

variable {bank : RegBankViewDescriptor} {n spaceSize : Nat}

/-- The last element ends in the space, and no element reaches the next one or the next register. -/
structure TypeFits (bank : RegBankViewDescriptor) (n spaceSize : Nat) : Prop where
  last : bank.elementOffset (bank.registerCount.toNat - 1) (bank.elementCount.toNat - 1) + n ≤ spaceSize
  element : 1 < bank.elementCount.toNat → n ≤ bank.elementStride.toNat
  register : 1 < bank.registerCount.toNat →
    (bank.elementCount.toNat - 1) * bank.elementStride.toNat + n ≤ bank.registerStride.toNat

theorem elementOffset_le {register element register' element' : Nat} (hRegister : register ≤ register')
    (hElement : element ≤ element') : bank.elementOffset register element ≤ bank.elementOffset register' element' :=
  Nat.add_le_add (Nat.add_le_add_left (Nat.mul_le_mul_right _ hRegister) _) (Nat.mul_le_mul_right _ hElement)

theorem TypeFits.before (h : bank.TypeFits n spaceSize) {register element register' element' : Nat}
    (hElement : element < bank.elementCount.toNat) (hRegister' : register' < bank.registerCount.toNat)
    (hElement' : element' < bank.elementCount.toNat)
    (hLess : register < register' ∨ register = register' ∧ element < element') :
    bank.elementOffset register element + n ≤ bank.elementOffset register' element' := by
  rcases hLess with hLess | ⟨rfl, hLess⟩
  · have hFits := h.register (by omega)
    have hNext : bank.elementOffset (register + 1) 0 ≤ bank.elementOffset register' element' :=
      elementOffset_le hLess (Nat.zero_le _)
    have hLast := Nat.mul_le_mul_right bank.elementStride.toNat (Nat.le_sub_one_of_lt hElement)
    unfold elementOffset at *
    rw [Nat.add_one_mul] at hNext
    omega
  · have hFits := h.element (by omega)
    have hNext : bank.elementOffset register (element + 1) ≤ bank.elementOffset register element' :=
      elementOffset_le le_rfl hLess
    unfold elementOffset at *
    rw [Nat.add_one_mul] at hNext
    omega

/-- Where the elements of a register fit its stride, they are where they should be exactly if their type
fits. -/
theorem typeFits_iff (hRegisters : 0 < bank.registerCount.toNat) (hElements : 0 < bank.elementCount.toNat)
    (hStride : bank.elementCount.toNat * bank.elementStride.toNat ≤ bank.registerStride.toNat) :
    ((∀ register element, register < bank.registerCount.toNat → element < bank.elementCount.toNat →
        bank.elementOffset register element + n ≤ spaceSize) ∧
      ∀ register element register' element', register < bank.registerCount.toNat →
        element < bank.elementCount.toNat → register' < bank.registerCount.toNat →
        element' < bank.elementCount.toNat → (register, element) ≠ (register', element') →
          Disjoint (Set.Ico (bank.elementOffset register element) (bank.elementOffset register element + n))
            (Set.Ico (bank.elementOffset register' element') (bank.elementOffset register' element' + n))) ↔
      bank.TypeFits n spaceSize := by
  constructor
  · rintro ⟨hInside, hApart⟩
    refine ⟨hInside _ _ (by omega) (by omega), fun hSecond => ?_, fun hSecond => ?_⟩
    · have hDisjoint := hApart 0 0 0 1 hRegisters hElements hRegisters hSecond (by simp)
      rw [Set.Ico_disjoint_Ico] at hDisjoint
      unfold elementOffset at hDisjoint
      omega
    · have hDisjoint := hApart 0 (bank.elementCount.toNat - 1) 1 0 hRegisters (by omega) hSecond hElements
        (by simp)
      have hWithin : (bank.elementCount.toNat - 1) * bank.elementStride.toNat ≤ bank.registerStride.toNat :=
        (Nat.mul_le_mul_right _ (Nat.sub_le _ 1)).trans hStride
      rw [Set.Ico_disjoint_Ico] at hDisjoint
      unfold elementOffset at hDisjoint
      omega
  · intro h
    constructor
    · intro register element hRegister hElement
      have hLast : bank.elementOffset register element ≤
          bank.elementOffset (bank.registerCount.toNat - 1) (bank.elementCount.toNat - 1) :=
        elementOffset_le (by omega) (by omega)
      have hFits := h.last
      omega
    · intro register element register' element' hRegister hElement hRegister' hElement' hNe
      rw [Set.Ico_disjoint_Ico]
      have hCases : (register < register' ∨ register = register' ∧ element < element') ∨
          (register' < register ∨ register' = register ∧ element' < element) := by
        rw [Ne, Prod.mk.injEq] at hNe
        omega
      rcases hCases with hLess | hLess
      · have hBefore := h.before hElement hRegister' hElement' hLess
        omega
      · have hBefore := h.before hElement' hRegister hElement hLess
        omega

end RegBankViewDescriptor

/-! ### Spaces -/

section Spaces

/-- `ALIGN_UP` on natural numbers. -/
def alignedUp (value alignment : Nat) : Nat :=
  if value % alignment = 0 then value else value + (alignment - value % alignment)

/-- Where the last space ends when no sum is cut to 32 bits. -/
def layoutEnd : List RegSpaceDescriptor → Nat → Nat
  | [], total => total
  | space :: rest, total =>
      layoutEnd rest (alignedUp total space.getAlignmentRequirements.toNat + space.sizeInBytes.toNat)

theorem layoutEnd_cons (space : RegSpaceDescriptor) (rest : List RegSpaceDescriptor) (total : Nat) :
    layoutEnd (space :: rest) total =
      layoutEnd rest (alignedUp total space.getAlignmentRequirements.toNat + space.sizeInBytes.toNat) := rfl

theorem le_alignedUp (value alignment : Nat) : value ≤ alignedUp value alignment := by
  unfold alignedUp
  split <;> omega

theorem le_layoutEnd (spaces : List RegSpaceDescriptor) (total : Nat) : total ≤ layoutEnd spaces total := by
  induction spaces generalizing total with
  | nil => exact le_rfl
  | cons space rest ih =>
    have hHere := le_alignedUp total space.getAlignmentRequirements.toNat
    have hRest := ih (alignedUp total space.getAlignmentRequirements.toNat + space.sizeInBytes.toNat)
    rw [layoutEnd_cons]
    omega

theorem alignUp_eq_some {value alignment : UInt32} (hAlignment : alignment ≠ 0)
    (hFits : alignedUp value.toNat alignment.toNat < 2 ^ 32) : ∃ aligned, alignUp value alignment = some aligned ∧
      aligned.toNat = alignedUp value.toNat alignment.toNat := by
  have hZero : value % alignment = 0 ↔ value.toNat % alignment.toNat = 0 := by
    rw [← UInt32.toNat_inj, UInt32.toNat_mod]
    rfl
  unfold alignUp alignedUp at *
  rw [if_neg hAlignment]
  by_cases hMod : value % alignment = 0
  · rw [if_pos hMod, if_pos (hZero.mp hMod)]
    exact ⟨value, rfl, rfl⟩
  · rw [if_neg (mt hZero.mpr hMod)] at hFits ⊢
    rw [if_neg hMod]
    refine ⟨_, rfl, ?_⟩
    have hPos : 0 < alignment.toNat := Nat.pos_of_ne_zero fun h => hAlignment (UInt32.toNat_inj.mp h)
    have hLess := Nat.mod_lt value.toNat hPos
    have hLe : value % alignment ≤ alignment := by
      rw [UInt32.le_iff_toNat_le, UInt32.toNat_mod]
      exact hLess.le
    rw [UInt32.toNat_add, UInt32.toNat_sub_of_le _ _ hLe, UInt32.toNat_mod]
    exact Nat.mod_eq_of_lt hFits

theorem exists_offsetFrom {spaces : List RegSpaceDescriptor}
    (hAligned : ∀ space ∈ spaces, space.getAlignmentRequirements ≠ 0) {i : Nat} (hi : i < spaces.length)
    (total : UInt32) : ∃ offset, offsetFrom spaces i total = some offset := by
  induction spaces generalizing i total with
  | nil => exact absurd hi (Nat.not_lt_zero i)
  | cons first rest ih =>
    obtain ⟨aligned, hAlign⟩ : ∃ aligned, alignUp total first.getAlignmentRequirements = some aligned := by
      unfold alignUp
      rw [if_neg (hAligned first List.mem_cons_self)]
      split <;> exact ⟨_, rfl⟩
    rw [offsetFrom, hAlign, Option.bind_some]
    cases i with
    | zero => exact ⟨aligned, rfl⟩
    | succ i => exact ih (fun space hSpace => hAligned space (List.mem_cons_of_mem _ hSpace)) (by simpa using hi) _

theorem aligned_of_offsetFrom {spaces : List RegSpaceDescriptor} {i : Nat} {space : RegSpaceDescriptor}
    {total offset : UInt32} (hSpace : spaces[i]? = some space) (hOffset : offsetFrom spaces i total = some offset) :
    space.getAlignmentRequirements ≠ 0 := by
  induction spaces generalizing i total with
  | nil => exact nomatch hSpace
  | cons first rest ih =>
    obtain ⟨aligned, hAlign, hRest⟩ := Option.bind_eq_some_iff.mp hOffset
    cases i with
    | zero =>
      cases hSpace
      intro hZero
      rw [alignUp, if_pos hZero] at hAlign
      exact nomatch hAlign
    | succ i => exact ih hSpace hRest

variable {spaces : List RegSpaceDescriptor} {total : UInt32}
  (hAligned : ∀ space ∈ spaces, space.getAlignmentRequirements ≠ 0)
  (hEnd : layoutEnd spaces total.toNat < 2 ^ 32)

include hAligned hEnd in
theorem offsetFrom_cons {first : RegSpaceDescriptor} {rest : List RegSpaceDescriptor}
    (hSpaces : spaces = first :: rest) :
    ∃ aligned, alignUp total first.getAlignmentRequirements = some aligned ∧ total.toNat ≤ aligned.toNat ∧
      layoutEnd rest (aligned + first.sizeInBytes).toNat = layoutEnd spaces total.toNat ∧
      (aligned + first.sizeInBytes).toNat = aligned.toNat + first.sizeInBytes.toNat ∧
      aligned.toNat + first.sizeInBytes.toNat ≤ layoutEnd spaces total.toNat := by
  subst hSpaces
  rw [layoutEnd_cons] at hEnd ⊢
  have hLater := le_layoutEnd rest
    (alignedUp total.toNat first.getAlignmentRequirements.toNat + first.sizeInBytes.toNat)
  obtain ⟨aligned, hAlign, hNat⟩ : ∃ aligned, alignUp total first.getAlignmentRequirements = some aligned ∧
      aligned.toNat = alignedUp total.toNat first.getAlignmentRequirements.toNat :=
    alignUp_eq_some (hAligned first List.mem_cons_self) (by omega)
  have hSum : (aligned + first.sizeInBytes).toNat = aligned.toNat + first.sizeInBytes.toNat := by
    rw [UInt32.toNat_add]
    exact Nat.mod_eq_of_lt (by omega)
  refine ⟨aligned, hAlign, hNat ▸ le_alignedUp _ _, ?_, hSum, hNat ▸ hLater⟩
  rw [hSum, hNat]

include hAligned hEnd in
/-- The spaces end where they should when they are aligned and end below 2^32. -/
theorem offsetFrom_spec {i : Nat} {space : RegSpaceDescriptor} {offset : UInt32}
    (hSpace : spaces[i]? = some space) (hOffset : offsetFrom spaces i total = some offset) :
    total.toNat ≤ offset.toNat ∧ offset.toNat + space.sizeInBytes.toNat ≤ layoutEnd spaces total.toNat ∧
      (i + 1 = spaces.length → offset.toNat + space.sizeInBytes.toNat = layoutEnd spaces total.toNat) := by
  induction spaces generalizing i total with
  | nil => exact nomatch hSpace
  | cons first rest ih =>
    obtain ⟨aligned, hAlign, hLe, hRest, hSum, hFirst⟩ := offsetFrom_cons hAligned hEnd rfl
    rw [offsetFrom, hAlign, Option.bind_some] at hOffset
    cases i with
    | zero =>
      cases hOffset
      cases hSpace
      refine ⟨hLe, hFirst, fun hLast => ?_⟩
      have hNil : rest = [] := List.length_eq_zero_iff.mp (by simpa using hLast.symm)
      rw [← hRest, hNil, layoutEnd, hSum]
    | succ i =>
      obtain ⟨hLater, hInside, hLast⟩ := ih (fun x hx => hAligned x (List.mem_cons_of_mem _ hx))
        (by rw [hRest]; exact hEnd) hSpace hOffset
      rw [hRest] at hInside hLast
      exact ⟨by omega, hInside, fun hEq => hLast (by simpa using hEq)⟩

include hAligned hEnd in
theorem offsetFrom_before {i j : Nat} {space space' : RegSpaceDescriptor} {offset offset' : UInt32} (hLess : i < j)
    (hSpace : spaces[i]? = some space) (hSpace' : spaces[j]? = some space')
    (hOffset : offsetFrom spaces i total = some offset) (hOffset' : offsetFrom spaces j total = some offset') :
    offset.toNat + space.sizeInBytes.toNat ≤ offset'.toNat := by
  induction spaces generalizing i j total with
  | nil => exact nomatch hSpace
  | cons first rest ih =>
    obtain ⟨aligned, hAlign, hLe, hRest, hSum, -⟩ := offsetFrom_cons hAligned hEnd rfl
    have hAligned' : ∀ x ∈ rest, x.getAlignmentRequirements ≠ 0 := fun x hx => hAligned x (List.mem_cons_of_mem _ hx)
    obtain ⟨j, rfl⟩ : ∃ k, j = k + 1 := ⟨j - 1, by omega⟩
    rw [offsetFrom, hAlign, Option.bind_some] at hOffset hOffset'
    cases i with
    | zero =>
      cases hOffset
      cases hSpace
      have hLater := (offsetFrom_spec hAligned' (by rw [hRest]; exact hEnd) hSpace' hOffset').1
      omega
    | succ i =>
      exact ih hAligned' (by rw [hRest]; exact hEnd) (Nat.lt_of_succ_lt_succ hLess) hSpace hSpace' hOffset
        hOffset'

end Spaces

/-! ### Accepted files -/

section Accepted

theorem foldl_addView {kept added : List View} (h : ((kept ++ added).map View.id).Nodup) :
    added.foldl addView kept = kept ++ added := by
  induction added generalizing kept with
  | nil => rw [List.foldl_nil, List.append_nil]
  | cons view rest ih =>
    have hNew : view.id ∉ kept.map View.id := by
      rw [List.map_append, List.map_cons, List.nodup_append] at h
      exact fun hMem => h.2.2 _ hMem _ List.mem_cons_self rfl
    have hStep : addView kept view = kept ++ [view] := if_neg hNew
    rw [List.foldl_cons, hStep, ih (by rwa [List.append_assoc, List.singleton_append]), List.append_assoc,
      List.singleton_append]

theorem ids_perm (added : List View) : (added.map View.id).Perm ((added.filterMap View.bank?).map (·.id) ++
      (added.filterMap View.slot?).map (·.id)) := by
  induction added with
  | nil => exact .refl _
  | cons view rest ih =>
    cases view with
    | bank view => exact ih.cons _
    | slot view => exact (ih.cons _).trans List.perm_middle.symm

namespace RegisterFile

theorem fresh_cons {α : Type} {id : α → String} {x : α} {rest : List α} {names : List String}
    (hHere : id x ∉ names) (hRest : (rest.map id).Nodup ∧ ∀ y ∈ rest, id y ∉ id x :: names) :
    ((x :: rest).map id).Nodup ∧ ∀ y ∈ x :: rest, id y ∉ names := by
  refine ⟨List.nodup_cons.mpr ⟨fun hMem => ?_, hRest.1⟩, fun y hy => ?_⟩
  · obtain ⟨y, hy, hSame⟩ := List.mem_map.mp hMem
    exact hRest.2 y hy (hSame ▸ List.mem_cons_self)
  · rcases List.mem_cons.mp hy with rfl | hy
    · exact hHere
    · exact fun hMem => hRest.2 y hy (List.mem_cons_of_mem _ hMem)

theorem bankErrors_eq_nil {banks : List RegBankViewDescriptor} {names : List String}
    (h : bankErrors banks names = []) : (banks.map (·.id)).Nodup ∧ ∀ bank ∈ banks, bank.id ∉ names := by
  induction banks generalizing names with
  | nil => exact ⟨List.nodup_nil, List.forall_mem_nil _⟩
  | cons bank rest ih =>
    rw [bankErrors, List.append_eq_nil_iff] at h
    exact fresh_cons (fun hMem => by simp [hMem] at h) (ih h.2)

theorem slotErrors_eq_nil {slots : List RegSlotViewDescriptor} {names tags : List String}
    (h : slotErrors slots names tags = []) : (slots.map (·.id)).Nodup ∧ ∀ slot ∈ slots, slot.id ∉ names := by
  induction slots generalizing names tags with
  | nil => exact ⟨List.nodup_nil, List.forall_mem_nil _⟩
  | cons slot rest ih =>
    rw [slotErrors, List.append_eq_nil_iff, List.append_eq_nil_iff] at h
    exact fresh_cons (fun hMem => by simp [hMem] at h) (ih h.2)

variable {file : RegisterFile} {space : RegSpaceDescriptor}

/-- An accepted file took up all views. -/
theorem views_eq_added (hAccepted : file.resolve = []) (hSpace : space ∈ file.spaces) : space.views = space.added := by
  rw [resolve, List.append_eq_nil_iff, List.append_eq_nil_iff] at hAccepted
  obtain ⟨hBanks, -⟩ := bankErrors_eq_nil hAccepted.1.2
  obtain ⟨hSlots, hOther⟩ := slotErrors_eq_nil hAccepted.2
  have hBankPart : (space.added.filterMap View.bank?).Sublist file.bankViews :=
    List.sublist_flatten_of_mem (List.mem_map_of_mem hSpace)
  have hSlotPart : (space.added.filterMap View.slot?).Sublist file.slotViews :=
    List.sublist_flatten_of_mem (List.mem_map_of_mem hSpace)
  refine foldl_addView ((ids_perm space.added).nodup_iff.mpr (List.nodup_append.mpr ⟨?_, ?_, ?_⟩))
  · exact hBanks.sublist (hBankPart.map _)
  · exact hSlots.sublist (hSlotPart.map _)
  · intro name hName name' hName' hSame
    obtain ⟨slot, hSlot, rfl⟩ := List.mem_map.mp hName'
    exact hOther slot (hSlotPart.subset hSlot) (hSame ▸ (hBankPart.map _).subset hName)

theorem bank_resolved (hAccepted : file.resolve = []) (hSpace : space ∈ file.spaces) {bank : RegBankViewDescriptor}
    (hBank : .bank bank ∈ space.added) : bank.resolve space.sizeInBytes = [] := by
  have hViews := views_eq_added hAccepted hSpace
  rw [resolve, List.append_eq_nil_iff, List.append_eq_nil_iff, List.flatMap_eq_nil_iff] at hAccepted
  have hHere := hAccepted.1.1 space hSpace
  rw [RegSpaceDescriptor.resolve, List.append_eq_nil_iff, List.flatMap_eq_nil_iff] at hHere
  exact hHere.1 bank (List.mem_filterMap.mpr ⟨_, hViews ▸ hBank, rfl⟩)

theorem registers_pos (hAccepted : file.resolve = []) (hSpace : space ∈ file.spaces) {bank : RegBankViewDescriptor}
    (hBank : .bank bank ∈ space.added) :
    0 < bank.registerCount.toNat ∧ bank.elementCount * bank.elementStride ≤ bank.registerStride := by
  have hChecks := bank_resolved hAccepted hSpace hBank
  simp only [RegBankViewDescriptor.resolve, List.append_eq_nil_iff, ite_eq_right_iff, List.cons_ne_nil, imp_false,
    gt_iff_lt] at hChecks
  exact ⟨Nat.pos_of_ne_zero fun hZero => hChecks.1.1.1.1 (UInt32.toNat_inj.mp hZero), UInt32.not_lt.mp hChecks.1.2⟩

/-- No sum or product of the file is cut to 32 bits that would be compared or added later. -/
structure NoOverflow (file : RegisterFile) : Prop where
  total : layoutEnd file.spaces 0 < 2 ^ 32
  elements : ∀ space ∈ file.spaces, ∀ bank, .bank bank ∈ space.added →
    bank.elementCount.toNat * bank.elementStride.toNat < 2 ^ 32

/-- Every space can be aligned, and the types of the views fit the places of the views. -/
structure Fits (file : RegisterFile) : Prop where
  aligned : ∀ space ∈ file.spaces, space.getAlignmentRequirements ≠ 0
  slots : ∀ space ∈ file.spaces, ∀ slot, .slot slot ∈ space.added → ∀ n, parseType slot.typeName = some n →
    slot.offset.toNat + n ≤ space.sizeInBytes.toNat
  banks : ∀ space ∈ file.spaces, ∀ bank, .bank bank ∈ space.added →
    ∀ n, parseType bank.elementTypeName = some n → 0 < bank.elementCount.toNat →
      bank.TypeFits n space.sizeInBytes.toNat

theorem getSize_eq_some (hAligned : ∀ space ∈ file.spaces, space.getAlignmentRequirements ≠ 0)
    (hEnd : layoutEnd file.spaces 0 < 2 ^ 32) (hSpaces : file.spaces ≠ []) :
    ∃ size, file.getSize = some size ∧ size.toNat = layoutEnd file.spaces 0 := by
  have hLength := List.length_pos_iff.mpr hSpaces
  have hLast := List.getLast?_eq_some_getLast hSpaces
  have hGet : file.spaces[file.spaces.length - 1]? = some (file.spaces.getLast hSpaces) := by
    rw [← List.getLast?_eq_getElem?, hLast]
  obtain ⟨offset, hOffset⟩ := exists_offsetFrom hAligned (Nat.sub_lt hLength Nat.one_pos) 0
  obtain ⟨-, -, hEq⟩ := @offsetFrom_spec file.spaces 0 hAligned hEnd _ _ _ hGet hOffset
  have hSum : offset.toNat + (file.spaces.getLast hSpaces).sizeInBytes.toNat = layoutEnd file.spaces 0 := hEq (by omega)
  refine ⟨(file.spaces.getLast hSpaces).sizeInBytes + offset, ?_, ?_⟩
  · rw [getSize, hLast, getOffsetOf, hOffset]
    rfl
  · rw [UInt32.toNat_add, Nat.add_comm, hSum]
    exact Nat.mod_eq_of_lt hEnd

/-- The checks do not compare the declared sizes with the types of the views, and a space without a view
of positive size has no alignment. -/
theorem soundLayout_iff {file : RegisterFile} (hAccepted : file.resolve = []) (hExact : NoOverflow file) :
    SoundLayout file ↔ Fits file := by
  have hElements : ∀ space ∈ file.spaces, ∀ bank, .bank bank ∈ space.added → 0 < bank.registerCount.toNat ∧
      bank.elementCount.toNat * bank.elementStride.toNat ≤ bank.registerStride.toNat := by
    intro space hSpace bank hBank
    obtain ⟨hPos, hStride⟩ := registers_pos hAccepted hSpace hBank
    rw [UInt32.le_iff_toNat_le, UInt32.toNat_mul,
      Nat.mod_eq_of_lt (hExact.elements space hSpace bank hBank)] at hStride
    exact ⟨hPos, hStride⟩
  constructor
  · intro h
    refine ⟨fun space hSpace => ?_, h.slots, fun space hSpace bank hBank n hType hPos => ?_⟩
    · obtain ⟨i, hi⟩ := List.mem_iff_getElem?.mp hSpace
      obtain ⟨offset, size, hOffset, -⟩ := h.inside i space hi
      exact aligned_of_offsetFrom hi hOffset
    · obtain ⟨hRegisters, hStride⟩ := hElements space hSpace bank hBank
      exact (RegBankViewDescriptor.typeFits_iff hRegisters hPos hStride).mp
        ⟨h.elements space hSpace bank hBank n hType, h.elementsApart space hSpace bank hBank n hType⟩
  · intro h
    have hBanks : ∀ space ∈ file.spaces, ∀ bank, .bank bank ∈ space.added →
        ∀ n, parseType bank.elementTypeName = some n → 0 < bank.elementCount.toNat → _ :=
      fun space hSpace bank hBank n hType hPos =>
        (RegBankViewDescriptor.typeFits_iff (hElements space hSpace bank hBank).1 hPos
          (hElements space hSpace bank hBank).2).mpr (h.banks space hSpace bank hBank n hType hPos)
    refine ⟨fun i space hSpace => ?_, ?_, h.slots, ?_, ?_⟩
    · have hi := (List.getElem?_eq_some_iff.mp hSpace).1
      obtain ⟨offset, hOffset⟩ := exists_offsetFrom h.aligned hi 0
      obtain ⟨size, hSize, hEq⟩ := getSize_eq_some h.aligned hExact.total (List.ne_nil_of_length_pos (by omega))
      have hInside := (@offsetFrom_spec file.spaces 0 h.aligned hExact.total _ _ _ hSpace hOffset).2.1
      exact ⟨offset, size, hOffset, hSize, hEq ▸ hInside⟩
    · intro i j space space' offset offset' hLess hSpace hSpace' hOffset hOffset'
      have hBefore :=
        @offsetFrom_before file.spaces 0 h.aligned hExact.total _ _ _ _ _ _ hLess hSpace hSpace' hOffset hOffset'
      rw [spaceBytes, spaceBytes, Set.Ico_disjoint_Ico]
      omega
    · intro space hSpace bank hBank n hType register element hRegister hElement
      exact (hBanks space hSpace bank hBank n hType (by omega)).1 register element hRegister hElement
    · intro space hSpace bank hBank n hType register element register' element' hRegister hElement
      exact (hBanks space hSpace bank hBank n hType (by omega)).2
        register element register' element' hRegister hElement

/-- A bank of sixteen words and a space with two flags. -/
def flagsAndWords : RegisterFile where
  spaces :=
    [⟨64, by decide, [.bank ⟨"RB", "uint32", 0, 16, 4, 1, 4, 4⟩]⟩,
      ⟨4, by decide, [.slot ⟨"C", "uint8", 1, 0, none⟩, .slot ⟨"V", "uint8", 1, 1, none⟩]⟩]

theorem soundLayout_flagsAndWords :
    flagsAndWords.resolve = [] ∧ NoOverflow flagsAndWords ∧ SoundLayout flagsAndWords := by
  have hAccepted : flagsAndWords.resolve = [] := by decide
  have hExact : NoOverflow flagsAndWords := by
    refine ⟨by decide, fun space hSpace bank hBank => ?_⟩
    rcases List.mem_pair.mp hSpace with rfl | rfl
    · cases List.mem_singleton.mp hBank
      decide
    · exact absurd hBank (by simp)
  refine ⟨hAccepted, hExact, (soundLayout_iff hAccepted hExact).mpr ⟨by decide, ?_, ?_⟩⟩
  · intro space hSpace slot hSlot n hType
    rcases List.mem_pair.mp hSpace with rfl | rfl
    · exact absurd hSlot (by simp)
    · have hOne : parseType "uint8" = some 1 := by decide
      rcases List.mem_pair.mp hSlot with hSame | hSame <;> cases hSame <;> cases hOne.symm.trans hType <;> decide
  · intro space hSpace bank hBank n hType hPos
    rcases List.mem_pair.mp hSpace with rfl | rfl
    · cases List.mem_singleton.mp hBank
      have hFour : parseType "uint32" = some 4 := by decide
      cases hFour.symm.trans hType
      exact ⟨by decide, by decide, by decide⟩
    · exact absurd hBank (by simp)

/-- Eight bytes are read from a slot of one byte. -/
def narrowSlot : RegisterFile where
  spaces := [⟨1, by decide, [.slot ⟨"PC", "uint64", 1, 0, none⟩]⟩]

theorem narrowSlot_accepted : narrowSlot.resolve = [] ∧ ¬ SoundLayout narrowSlot := by
  refine ⟨by decide, fun h => ?_⟩
  have hFits := h.slots _ List.mem_cons_self _ List.mem_cons_self 8 (by decide)
  exact absurd hFits (by decide)

end RegisterFile

end Accepted

end Gensim.Arch
