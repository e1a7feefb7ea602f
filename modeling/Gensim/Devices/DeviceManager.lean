import Gensim.Lib.Operations
import Gensim.Lib.SortedMap

/-! The devices of a system by their addresses: a map from where they start, and a bitmap of their pages. -/
namespace Gensim.Devices

namespace RegionArch

def pageSize : Nat := 4096

def pageCount : Nat := 2 ^ 20

end RegionArch

open RegionArch

structure DeviceManager (δ : Type) where
  devices : SortedMap Nat δ
  deviceBitmap : Nat → Bool

/-- Devices of which each has a size. -/
class MemoryComponent (δ : Type) where
  getSize : δ → BitVec 32

variable {δ : Type} [MemoryComponent δ]

/-- A device is installed where the assertions of `InstallDevice` hold, in the 32 bits of the bitmap. -/
structure Install (δ : Type) [MemoryComponent δ] where
  base : Nat
  device : δ
  base_ne_zero : base ≠ 0
  aligned : pageSize ∣ base
  fits : base + (MemoryComponent.getSize device).toNat ≤ pageCount * pageSize

namespace Install

variable (call : Install δ)

abbrev size : Nat := (MemoryComponent.getSize call.device).toNat

def finish : Nat := call.base + call.size

def Contains (a : Nat) : Prop := call.base ≤ a ∧ a < call.finish

/-- The ranges of two devices have no address in common. -/
def Apart (first second : Install δ) : Prop := ∀ a, first.Contains a → ¬ second.Contains a

end Install

namespace DeviceManager

variable (manager : DeviceManager δ)

def new : DeviceManager δ := ⟨.empty, fun _ => false⟩

/-- The pages that the loops of `InstallDevice` go over. -/
def pages (base size : Nat) : List Nat :=
  (List.range ((size + (pageSize - 1)) / pageSize)).map fun i => (base + i * pageSize) / pageSize

/-- Whether the device was installed. There is no result where an assertion fails, or the bitmap has no bit for
a page. -/
def installDevice (baseAddress deviceSize : Nat) (device : δ) : Option (Bool × DeviceManager δ) :=
  if baseAddress ≠ 0 ∧ deviceSize = (MemoryComponent.getSize device).toNat ∧ baseAddress % pageSize = 0 ∧
      ∀ page ∈ pages baseAddress deviceSize, page < pageCount then
    if (pages baseAddress deviceSize).any manager.deviceBitmap then some (false, manager)
    else
      some (true, {
        devices := manager.devices.insert baseAddress device
        deviceBitmap := fun page => manager.deviceBitmap page || decide (page ∈ pages baseAddress deviceSize) })
  else none

def lookupDevice (deviceAddress : Nat) : Option δ :=
  (manager.devices.entries.find? fun entry =>
    entry.1 ≤ deviceAddress ∧ deviceAddress < entry.1 + (MemoryComponent.getSize entry.2).toNat).map (·.2)

def hasDevice (deviceAddress : Nat) : Bool := manager.deviceBitmap (deviceAddress / pageSize)

def installAll (manager : DeviceManager δ) (calls : List (Install δ)) : Option (DeviceManager δ) :=
  calls.foldlM (fun manager call =>
    (manager.installDevice call.base call.size call.device).map (·.2)) manager

/-- The bitmap and the map agree on every address, and the device that is found is the only one there. -/
def Agrees (calls : List (Install δ)) : Prop :=
  ∀ a : BitVec 32, (manager.hasDevice a.toNat = true ↔ (manager.lookupDevice a.toNat).isSome = true) ∧
    ∀ device ∈ manager.lookupDevice a.toNat, ∃ call ∈ calls, call.device = device ∧ call.Contains a.toNat ∧
      ∀ other ∈ calls, other.Contains a.toNat → other = call

variable {manager}

/-! ### Pages -/

theorem mem_pages {base size page : Nat} (hAligned : pageSize ∣ base) :
    page ∈ pages base size ↔ base ≤ page * pageSize ∧ page * pageSize < base + size := by
  obtain ⟨first, rfl⟩ := hAligned
  simp only [pages, List.mem_map, List.mem_range, pageSize]
  constructor
  · rintro ⟨i, hLt, rfl⟩
    omega
  · rintro ⟨hLow, hHigh⟩
    exact ⟨page - first, by omega, by omega⟩

/-- Pages that two devices share start in both of them. -/
theorem not_mem_pages_of_apart {first second : Install δ} (hApart : first.Apart second) {page : Nat}
    (hFirst : page ∈ pages first.base first.size) : page ∉ pages second.base second.size := fun hSecond =>
  hApart _ ((mem_pages first.aligned).mp hFirst) ((mem_pages second.aligned).mp hSecond)

/-! ### What is installed -/

/-- What a sequence of calls leaves. -/
structure Holds (manager : DeviceManager δ) (calls : List (Install δ)) : Prop where
  bitmap : ∀ page, manager.deviceBitmap page = true ↔
    ∃ call ∈ calls, page ∈ pages call.base call.size
  devices : manager.devices = calls.foldl (fun map call => map.insert call.base call.device) .empty

theorem holds_new : (new : DeviceManager δ).Holds [] := by
  constructor
  · simp [new]
  · rfl

theorem Holds.install {calls : List (Install δ)} (hHolds : manager.Holds calls) {call : Install δ}
    (hApart : ∀ earlier ∈ calls, earlier.Apart call) :
    ∃ after, (manager.installDevice call.base call.size call.device).map (·.2) =
      some after ∧ after.Holds (calls ++ [call]) := by
  have hFits : ∀ page ∈ pages call.base call.size, page < pageCount := by
    intro page hPage
    have hIn := ((mem_pages call.aligned).mp hPage).2.trans_le call.fits
    exact Nat.lt_of_mul_lt_mul_right hIn
  have hFree : ¬ (pages call.base call.size).any manager.deviceBitmap = true := by
    rw [List.any_eq_true]
    rintro ⟨page, hPage, hSet⟩
    obtain ⟨earlier, hMem, hEarlier⟩ := (hHolds.bitmap page).mp hSet
    exact not_mem_pages_of_apart (hApart earlier hMem) hEarlier hPage
  have hAligned : call.base % pageSize = 0 := Nat.mod_eq_zero_of_dvd call.aligned
  rw [installDevice, if_pos ⟨call.base_ne_zero, rfl, hAligned, hFits⟩, if_neg hFree]
  refine ⟨_, rfl, fun page => ?_, ?_⟩
  · simp [hHolds.bitmap, or_and_right, exists_or]
  · simp [hHolds.devices]

theorem exists_installAll {calls : List (Install δ)} (hApart : calls.Pairwise Install.Apart) :
    ∃ manager, installAll new calls = some manager ∧ manager.Holds calls := by
  induction calls using List.reverseRecOn with
  | nil => exact ⟨new, rfl, holds_new⟩
  | append_singleton calls call ih =>
    obtain ⟨hBefore, -, hLast⟩ := List.pairwise_append.mp hApart
    obtain ⟨manager, hRun, hHolds⟩ := ih hBefore
    obtain ⟨after, hInstall, hAfter⟩ := hHolds.install fun earlier hMem => hLast earlier hMem call (by simp)
    refine ⟨after, ?_, hAfter⟩
    rw [installAll] at hRun ⊢
    rw [List.foldlM_append, hRun, Option.bind_eq_bind, Option.bind_some, List.foldlM_cons, hInstall]
    rfl

namespace Holds

variable {calls : List (Install δ)} (hHolds : manager.Holds calls)
include hHolds

/-- For each base there is the device of the last call. -/
theorem mem_devices {base : Nat} {device : δ} :
    (base, device) ∈ manager.devices ↔ ∃ before call after, calls = before ++ call :: after ∧
      (call.base = base ∧ call.device = device) ∧ ∀ later ∈ after, ¬ later.base = base := by
  rw [hHolds.devices]
  have hStep (map : SortedMap Nat δ) (call : Install δ) : (base, device) ∈ map.insert call.base call.device ↔
      (call.base = base ∧ call.device = device) ∨ (base, device) ∈ map ∧ ¬ call.base = base := by
    rw [SortedMap.mem_insert, Prod.mk.injEq, and_comm (b := (base, device) ∈ map)]
    simp only [ne_eq, eq_comm]
  exact (@Operations.holds_foldl_iff _ _ (fun (map : SortedMap Nat δ) (call : Install δ) => map.insert call.base call.device)
    .empty (fun _ => True) (fun map => (base, device) ∈ map) _ _ (fun _ _ _ => trivial)
    (fun map call _ => hStep map call) trivial SortedMap.not_mem_empty calls).2

theorem hasDevice_iff {a : Nat} :
    manager.hasDevice a = true ↔ ∃ call ∈ calls, call.Contains (a / pageSize * pageSize) := by
  rw [hasDevice, hHolds.bitmap]
  exact exists_congr fun call => and_congr_right fun _ => mem_pages call.aligned

theorem exists_of_lookupDevice {a : Nat} {device : δ} (hFound : manager.lookupDevice a = some device) :
    ∃ before call after, calls = before ++ call :: after ∧ call.device = device ∧ call.Contains a ∧
      ∀ later ∈ after, later.base ≠ call.base := by
  obtain ⟨⟨base, found⟩, hFind, rfl⟩ := Option.map_eq_some_iff.mp hFound
  have hIn : base ≤ a ∧ a < base + (MemoryComponent.getSize found).toNat := by simpa using List.find?_some hFind
  obtain ⟨before, call, after, rfl, ⟨rfl, rfl⟩, hLast⟩ := hHolds.mem_devices.mp (List.mem_of_find?_eq_some hFind)
  exact ⟨before, call, after, rfl, rfl, hIn, hLast⟩

theorem lookupDevice_isSome {before after : List (Install δ)} {call : Install δ} (hSplit : calls = before ++ call :: after)
    (hLast : ∀ later ∈ after, later.base ≠ call.base) {a : Nat} (hIn : call.Contains a) :
    (manager.lookupDevice a).isSome = true := by
  have hMem : (call.base, call.device) ∈ manager.devices :=
    hHolds.mem_devices.mpr ⟨before, call, after, hSplit, ⟨rfl, rfl⟩, hLast⟩
  rw [lookupDevice, Option.isSome_map, List.find?_isSome]
  exact ⟨_, hMem, by simpa [Install.Contains, Install.finish] using hIn⟩

end Holds

/-! ### Agreement -/

variable {calls : List (Install δ)}

theorem eq_of_contains (hApart : calls.Pairwise Install.Apart) {first second : Install δ} (hFirst : first ∈ calls)
    (hSecond : second ∈ calls) {a : Nat} (hIn : first.Contains a) (hAlso : second.Contains a) : first = second := by
  by_contra hNe
  have hSymm : Std.Symm (Install.Apart (δ := δ)) := ⟨fun _ _ hApart a hIn hAlso => hApart a hAlso hIn⟩
  exact hApart.forall hFirst hSecond hNe a hIn hAlso

/-- The page of an address lies in a device of whole pages exactly if the address does. -/
theorem contains_page_iff {call : Install δ} (hSize : pageSize ∣ call.size) {a : Nat} :
    call.Contains (a / pageSize * pageSize) ↔ call.Contains a := by
  obtain ⟨first, hFirst⟩ := call.aligned
  obtain ⟨count, hCount⟩ := hSize
  simp only [Install.Contains, Install.finish, hFirst, hCount, pageSize]
  omega

theorem contains_pageStart {call : Install δ} {a : Nat} (hIn : call.Contains a) :
    call.Contains (a / pageSize * pageSize) := by
  obtain ⟨first, hFirst⟩ := call.aligned
  simp only [Install.Contains, Install.finish, hFirst, pageSize] at hIn ⊢
  omega

section Agrees

variable (hHolds : manager.Holds calls) (hApart : calls.Pairwise Install.Apart)
include hHolds hApart

theorem pageSize_dvd_of_agrees (hAgrees : manager.Agrees calls) {call : Install δ} (hCall : call ∈ calls) :
    pageSize ∣ call.size := by
  by_contra hSize
  have hFits : call.base + call.size ≤ pageCount * pageSize := call.fits
  obtain ⟨first, hFirst⟩ := call.aligned
  -- behind its end the device still has the page
  have hPage : call.finish < 2 ^ 32 ∧ call.Contains (call.finish / pageSize * pageSize) := by
    simp only [Install.Contains, Install.finish, hFirst, pageCount, pageSize] at hFits hSize ⊢
    omega
  have hHas := (hAgrees (BitVec.ofNat 32 call.finish)).1
  rw [BitVec.toNat_ofNat, Nat.mod_eq_of_lt hPage.1, hHolds.hasDevice_iff] at hHas
  obtain ⟨device, hFound⟩ := Option.isSome_iff_exists.mp (hHas.mp ⟨call, hCall, hPage.2⟩)
  obtain ⟨before, other, after, hSplit, -, hIn, -⟩ := hHolds.exists_of_lookupDevice hFound
  obtain rfl := eq_of_contains hApart (by simp [hSplit]) hCall (contains_pageStart hIn) hPage.2
  exact hIn.2.false

theorem base_ne_of_agrees (hAgrees : manager.Agrees calls) :
    calls.Pairwise fun first second => 0 < first.size → second.base ≠ first.base := by
  rw [List.pairwise_iff_forall_sublist]
  intro first second hSub hPos hSame
  have hFirst : first ∈ calls := hSub.subset (by simp)
  have hStart : first.Contains first.base := ⟨le_rfl, Nat.lt_add_of_pos_right hPos⟩
  have hLt : first.base < 2 ^ 32 := hStart.2.trans_le first.fits
  have hHas := (hAgrees (BitVec.ofNat 32 first.base)).1
  rw [BitVec.toNat_ofNat, Nat.mod_eq_of_lt hLt, hHolds.hasDevice_iff] at hHas
  obtain ⟨device, hFound⟩ := Option.isSome_iff_exists.mp (hHas.mp ⟨first, hFirst, contains_pageStart hStart⟩)
  obtain ⟨before, call, after, rfl, -, hIn, hLast⟩ := hHolds.exists_of_lookupDevice hFound
  have hCall : call = first := eq_of_contains hApart (by simp) hFirst hIn hStart
  have hNot : second ∉ after := fun hMem => hLast second hMem (hSame.trans (congrArg Install.base hCall.symm))
  obtain ⟨left, right, hParts, hLeft, hRight⟩ := List.sublist_append_iff.mp hSub
  cases left with
  | nil =>
    rw [List.nil_append] at hParts
    subst hParts
    exact hNot (hRight.tail.subset (by simp))
  | cons head left =>
    obtain ⟨rfl, -⟩ := List.cons.inj hParts
    have hBefore : first ∈ before := hLeft.subset (by simp)
    exact (List.pairwise_append.mp hApart).2.2 first hBefore call (by simp) first.base hStart hIn

theorem agrees_of_wholePages (hSizes : ∀ call ∈ calls, pageSize ∣ call.size)
    (hBases : calls.Pairwise fun first second =>
      0 < first.size → second.base ≠ first.base) : manager.Agrees calls := by
  intro a
  constructor
  · rw [hHolds.hasDevice_iff]
    constructor
    · rintro ⟨call, hCall, hPage⟩
      have hIn := (contains_page_iff (hSizes call hCall)).mp hPage
      obtain ⟨before, after, rfl⟩ := List.append_of_mem hCall
      refine hHolds.lookupDevice_isSome rfl (fun later hLater => ?_) hIn
      have hPos : 0 < call.size := by
        simp only [Install.Contains, Install.finish] at hIn
        omega
      exact List.rel_of_pairwise_cons (List.pairwise_append.mp hBases).2.1 hLater hPos
    · intro hSome
      obtain ⟨device, hFound⟩ := Option.isSome_iff_exists.mp hSome
      obtain ⟨before, call, after, rfl, -, hIn, -⟩ := hHolds.exists_of_lookupDevice hFound
      exact ⟨call, by simp, contains_pageStart hIn⟩
  · intro device hFound
    obtain ⟨before, call, after, rfl, hDevice, hIn, -⟩ := hHolds.exists_of_lookupDevice hFound
    exact ⟨call, by simp, hDevice, hIn, fun other hOther hAlso => eq_of_contains hApart hOther (by simp) hAlso hIn⟩

end Agrees

/-- Where no two devices overlap, the bitmap and the map agree exactly if all devices have whole pages, and none is
installed at the base of an earlier one that has a size. -/
theorem lookups_agree_iff (calls : List (Install δ)) (hApart : calls.Pairwise Install.Apart) :
    (∃ manager, installAll new calls = some manager ∧ manager.Agrees calls) ↔
      (∀ call ∈ calls, pageSize ∣ call.size) ∧
        calls.Pairwise fun first second => 0 < first.size → second.base ≠ first.base := by
  obtain ⟨manager, hRun, hHolds⟩ := exists_installAll hApart
  constructor
  · rintro ⟨other, hOther, hAgrees⟩
    obtain rfl := Option.some.inj (hRun.symm.trans hOther)
    exact ⟨fun call => pageSize_dvd_of_agrees hHolds hApart hAgrees, base_ne_of_agrees hHolds hApart hAgrees⟩
  · rintro ⟨hSizes, hBases⟩
    exact ⟨manager, hRun, agrees_of_wholePages hHolds hApart hSizes hBases⟩

end DeviceManager

/-- A device that is only a size. -/
instance : MemoryComponent (BitVec 32) := ⟨id⟩

namespace DeviceManager

/-- A device of one page, and one of two pages behind it. -/
def neighbours : List (Install (BitVec 32)) :=
  [⟨0x1000, 0x1000#32, by decide, by decide, by decide⟩, ⟨0x2000, 0x2000#32, by decide, by decide, by decide⟩]

theorem lookups_agree_neighbours : ∃ manager, installAll new neighbours = some manager ∧ manager.Agrees neighbours := by
  refine (lookups_agree_iff neighbours (List.pairwise_pair.mpr fun a hIn hAlso => ?_)).mpr ⟨by decide, by decide⟩
  have hFirst : 0x1000 ≤ a ∧ a < 0x2000 := hIn
  have hSecond : 0x2000 ≤ a ∧ a < 0x4000 := hAlso
  omega

/-- Behind a small device the rest of its page has a device only in the bitmap. -/
theorem small_device_disagrees : ¬ ∃ manager,
    installAll new [(⟨0x1000, 0x100#32, by decide, by decide, by decide⟩ : Install (BitVec 32))] = some manager ∧
      manager.Agrees [⟨0x1000, 0x100#32, by decide, by decide, by decide⟩] := by
  rintro ⟨manager, hRun, hAgrees⟩
  cases hRun
  exact absurd (hAgrees 0x1800).1 (by decide)

end DeviceManager
end Gensim.Devices
