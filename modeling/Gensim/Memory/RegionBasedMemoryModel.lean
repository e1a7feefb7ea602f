import Gensim.Lib.ByteStore
import Gensim.Lib.SortedMap

/-! The guest mappings of a region based memory model: its VMAs, each with a protection, and the regions
that were allocated for them. -/
namespace Gensim.Memory

/-! Addresses and sizes are `uint64_t`, and sums of them wrap around. -/
namespace GuestAddress

def space : Nat := 2 ^ 64

def pageSize : Nat := 4096

def add (addr size : Nat) : Nat := (addr + size) % space

def sub (addr size : Nat) : Nat := (addr + space - size) % space

def alignDown (addr : Nat) : Nat := addr - addr % pageSize

def alignUp (size : Nat) : Nat :=
  if size % pageSize = 0 then size else add (alignDown size) pageSize

theorem add_of_lt {addr size : Nat} (hRoom : addr + size < space) : add addr size = addr + size :=
  Nat.mod_eq_of_lt hRoom

theorem sub_of_le {addr size : Nat} (hLe : size ≤ addr) (hAddr : addr < space) : sub addr size = addr - size := by
  rw [sub, show addr + space - size = addr - size + space by omega, Nat.add_mod_right]
  exact Nat.mod_eq_of_lt (by omega)

theorem dvd_alignUp (size : Nat) : pageSize ∣ alignUp size := by
  rw [alignUp]
  split_ifs with hZero
  · exact Nat.dvd_of_mod_eq_zero hZero
  · have hPages : pageSize ∣ alignDown size + pageSize := Nat.dvd_add (Nat.dvd_sub_mod size) dvd_rfl
    exact (Nat.dvd_mod_iff (by decide)).mpr hPages

theorem alignDown_le (addr : Nat) : alignDown addr ≤ addr ∧ addr < alignDown addr + pageSize := by
  have hLt : addr % pageSize < pageSize := Nat.mod_lt _ (by decide)
  have hLe := Nat.mod_le addr pageSize
  rw [alignDown]
  omega

theorem alignUp_of_dvd {size : Nat} (hAligned : pageSize ∣ size) : alignUp size = size :=
  if_pos (Nat.mod_eq_zero_of_dvd hAligned)

end GuestAddress

open GuestAddress

structure GuestVMA (π : Type) where
  base : Nat
  size : Nat
  protection : π

namespace GuestVMA

variable {π : Type} (vma : GuestVMA π)

def finish : Nat := add vma.base vma.size

def contains (addr : Nat) : Prop := vma.base ≤ addr ∧ addr < vma.finish

instance (addr : Nat) : Decidable (vma.contains addr) := inferInstanceAs (Decidable (_ ∧ _))

/-- How a VMA lies to the addresses that `UnmapSubregion` is asked to unmap. -/
inductive Situation where
  | covered
  | overStart
  | inside
  | overEnd
  | untouched
  deriving DecidableEq

/-- The tests of `UnmapSubregion`, in their order. -/
def situation (uStart uEnd : Nat) : Situation :=
  if uStart ≤ vma.base ∧ vma.finish ≤ uEnd then .covered
  else if vma.base < uStart ∧ uStart < vma.finish ∧ vma.finish < uEnd then .overStart
  else if vma.base < uStart ∧ uEnd < vma.finish then .inside
  else if uStart < vma.base ∧ vma.base < uEnd then .overEnd
  else .untouched

end GuestVMA

abbrev RegionFlags := BitVec 4

def regFlagReadWrite : RegionFlags := 3

/-- The memory models that have VMAs: `sparse` finds the pages of the guest by their addresses, `contiguous` has the
whole guest memory in one host mapping. -/
inductive Backing where
  | sparse
  | contiguous

namespace Backing

/-- Zeros from one address up to another. -/
def zeroed (data : ByteStore.Store) (first finish : Nat) : ByteStore.Store :=
  fun addr => if first ≤ addr ∧ addr < finish then 0 else data addr

/-- The bytes after `AllocateVMA`, which is taken to succeed. -/
def allocateVMA (data : ByteStore.Store) (base size : Nat) : Backing → ByteStore.Store
  | sparse => data
  | contiguous => zeroed data base (base + size)

/-- The bytes after `ResizeVMA`. -/
def resizeVMA (data : ByteStore.Store) (base oldSize newSize : Nat) : Backing → ByteStore.Store
  | sparse => data
  | contiguous => zeroed data (base + oldSize) (base + newSize)

end Backing

/-- `guest_vmas` and `allocated_regions_`, which has the size of the region at each key. -/
structure RegionBasedMemoryModel (π : Type) where
  guestVmas : SortedMap Nat (GuestVMA π)
  allocatedRegions : SortedMap Nat Nat

namespace RegionBasedMemoryModel

variable {π : Type}

/-- The ways a call can fail to return. -/
inductive Failure where
  /-- A `std::logic_error`, which `UNIMPLEMENTED` throws too. -/
  | thrown
  /-- An iterator is moved before the first entry, or read past the last one. -/
  | undefined
  /-- A recursion or a loop does not end. -/
  | unbounded
  deriving DecidableEq

/-! ### Allocated regions -/

/-- Merge regions into this one while it reaches the next. -/
def absorb : Nat × Nat → List (Nat × Nat) → List (Nat × Nat)
  | region, [] => [region]
  | region, next :: rest =>
      if next.1 ≤ add region.1 region.2 then
        absorb (region.1, sub (add next.1 next.2) region.1) rest
      else region :: absorb next rest

def mergeRegions : List (Nat × Nat) → List (Nat × Nat)
  | [] => []
  | region :: rest => absorb region rest

theorem absorb_keys_sublist (region : Nat × Nat) (rest : List (Nat × Nat)) :
    ((absorb region rest).map (·.1)).Sublist (region.1 :: rest.map (·.1)) := by
  induction rest generalizing region with
  | nil => exact .refl _
  | cons next rest ih =>
    rw [absorb]
    split
    · exact (ih _).trans (.cons_cons _ (List.sublist_cons_self _ _))
    · exact (ih next).cons_cons _

theorem mergeRegions_keys_sublist (regions : List (Nat × Nat)) :
    ((mergeRegions regions).map (·.1)).Sublist (regions.map (·.1)) := by
  cases regions with
  | nil => exact .refl _
  | cons region rest => exact absorb_keys_sublist region rest

def mergeAllocatedRegions (regions : SortedMap Nat Nat) : SortedMap Nat Nat where
  entries := mergeRegions regions.entries
  sorted := by
    have hKeys : (regions.entries.map (·.1)).Pairwise (· < ·) := List.pairwise_map.mpr regions.sorted
    exact List.pairwise_map.mp (hKeys.sublist (mergeRegions_keys_sublist _))

def allocateRegion (regions : SortedMap Nat Nat) (addr size : Nat) :
    Except Failure (SortedMap Nat Nat) :=
  if (regions.find? addr).isSome then .error .thrown
  else .ok (mergeAllocatedRegions (regions.insert addr size))

def deallocateRegion (regions : SortedMap Nat Nat) (addr size : Nat) :
    Except Failure (SortedMap Nat Nat) :=
  match regions.lowerBound addr with
  | none => .error .undefined
  | some region =>
      if add region.1 region.2 < add addr size then .error .thrown
      else .ok (mergeAllocatedRegions regions)

theorem bind_eq_ok {α β : Type} {first : Except Failure α} {rest : α → Except Failure β} {result : β} :
    first.bind rest = .ok result ↔ ∃ value, first = .ok value ∧ rest value = .ok result := by
  cases first with
  | error failure => simp [Except.bind]
  | ok value => simp [Except.bind]

theorem allocateRegion_eq_ok {regions next : SortedMap Nat Nat} {addr size : Nat} :
    allocateRegion regions addr size = .ok next ↔
      (∀ region ∈ regions, region.1 ≠ addr) ∧ next = mergeAllocatedRegions (regions.insert addr size) := by
  rw [allocateRegion, ← SortedMap.find?_eq_none, ← Option.isNone_iff_eq_none, ← Option.isSome_eq_false_iff]
  cases (regions.find? addr).isSome with
  | true => simp
  | false => simp [eq_comm]

theorem deallocateRegion_eq_ok {regions next : SortedMap Nat Nat} {addr size : Nat} :
    deallocateRegion regions addr size = .ok next ↔
      (∃ region ∈ regions.lowerBound addr, add addr size ≤ add region.1 region.2) ∧
        next = mergeAllocatedRegions regions := by
  rw [deallocateRegion]
  cases regions.lowerBound addr with
  | none => simp
  | some region =>
    dsimp only
    split_ifs with hShort
    · simp [hShort]
    · simp [not_lt.mp hShort, eq_comm]

variable (model : RegionBasedMemoryModel π)

def hasIntersectingRegions (addr size : Nat) : Bool :=
  model.allocatedRegions.entries.any fun region =>
    addr < add region.1 region.2 ∧ region.1 < add addr size

/-! ### VMAs -/

/-- The VMA with an address, and its key. -/
def lookupVMA (addr : Nat) : Except Failure (Option (Nat × GuestVMA π)) :=
  if model.guestVmas.entries.isEmpty then .ok none
  else
    match model.guestVmas.upTo addr with
    | none => .error .undefined
    | some entry => .ok (if entry.2.contains addr then some entry else none)

def deleteVMA (addr : Nat) : SortedMap Nat (GuestVMA π) :=
  match model.guestVmas.entries.find? (·.2.contains addr) with
  | none => model.guestVmas
  | some (key, _) => model.guestVmas.erase key

/-- `DeallocateVMA` is taken to succeed. -/
def unmapRegion (addr size : Nat) : Except Failure (RegionBasedMemoryModel π) := do
  match ← model.lookupVMA addr with
  | none => return model
  | some _ =>
      let regions ← deallocateRegion model.allocatedRegions addr (alignUp size)
      return ⟨model.deleteVMA addr, regions⟩

section Recursion

-- the recursive call of `UnmapSubregion`
variable (unmapSubregion : RegionBasedMemoryModel π → Nat → Nat →
  Except Failure (RegionBasedMemoryModel π))

/-- What `MapRegion` does about an overlap. -/
def clearRegion (addr size : Nat) : Except Failure (RegionBasedMemoryModel π) :=
  if model.hasIntersectingRegions addr size then unmapSubregion model addr size else .ok model

def mapRegionWith (addr size : Nat) (prot : π) : Except Failure (RegionBasedMemoryModel π) := do
  let size := alignUp size
  let cleared ← model.clearRegion unmapSubregion addr size
  let regions ← allocateRegion cleared.allocatedRegions addr size
  return ⟨cleared.guestVmas.insert addr ⟨addr, size, prot⟩, regions⟩

/-- The loop of `UnmapSubregion` over the VMAs that are left to visit. -/
def visitVMAs (addr size : Nat) : List (Nat × GuestVMA π) → RegionBasedMemoryModel π →
    Except Failure (RegionBasedMemoryModel π)
  | [], model => .ok model
  | (key, vma) :: rest, model =>
      let uEnd := add addr size
      match vma.situation addr uEnd with
      | .covered => do
          unmapSubregion (← model.unmapRegion addr size) addr size
      -- only the base moves: the VMA keeps its size and its key
      | .overStart =>
          visitVMAs addr size rest
            { model with guestVmas := model.guestVmas.insert key { vma with base := uEnd } }
      | .inside => do
          let cut : RegionBasedMemoryModel π :=
            { model with guestVmas := model.guestVmas.insert key { vma with size := sub addr vma.base } }
          let split ← mapRegionWith cut unmapSubregion uEnd (sub vma.finish uEnd) vma.protection
          unmapSubregion split addr size
      | .overEnd => .error .thrown
      | .untouched => visitVMAs addr size rest model

end Recursion

/-- `depth` is how deep the recursion may go. -/
def unmapSubregion : Nat → RegionBasedMemoryModel π → Nat → Nat →
    Except Failure (RegionBasedMemoryModel π)
  | 0, _, _, _ => .error .unbounded
  | depth + 1, model, addr, size =>
      visitVMAs (unmapSubregion depth) addr size model.guestVmas.entries model

/-- Another VMA overlaps this one, as it is before it is resized. -/
def vmaIntersects (key : Nat) (vma : GuestVMA π) : Bool :=
  model.guestVmas.entries.any fun other =>
    other.1 ≠ key ∧ vma.base < other.2.finish ∧ other.2.base < vma.finish

/-- Whether the VMA was resized, with the mappings and the bytes after the call. -/
def remapRegion (backing : Backing) (data : ByteStore.Store) (addr size : Nat) :
    Except Failure (Bool × RegionBasedMemoryModel π × ByteStore.Store) := do
  match ← model.lookupVMA addr with
  | none => return (false, model, data)
  | some (key, vma) =>
      let size := alignUp size
      if model.vmaIntersects key vma then return (false, model, data)
      let freed ← deallocateRegion model.allocatedRegions addr vma.size
      let regions ← allocateRegion freed addr size
      return (true, ⟨model.guestVmas.insert key { vma with size }, regions⟩,
        backing.resizeVMA data vma.base vma.size size)

def mapRegion (depth addr size : Nat) (prot : π) : Except Failure (RegionBasedMemoryModel π) :=
  model.mapRegionWith (unmapSubregion depth) addr size prot

end RegionBasedMemoryModel
end Gensim.Memory
