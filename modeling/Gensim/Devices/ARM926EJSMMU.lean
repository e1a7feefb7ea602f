import Gensim.Devices.MMU

/-! The memory management unit of the ARM926EJ-S, and the short descriptors of ARMv5. -/
namespace Gensim.Devices

open Core

namespace ARM926EJSMMU

inductive TxL1Descriptor where
  | fault
  | coarse (baseAddr : BitVec 32) (domain : BitVec 4)
  | wholeSection (baseAddr : BitVec 32) (domain : BitVec 4) (ap : BitVec 2)
  | fine (baseAddr : BitVec 32) (domain : BitVec 4)

def TxL1Descriptor.new (data : BitVec 32) : TxL1Descriptor :=
  match (data.setWidth 2).toNat with
  | 0 => .fault
  | 1 => .coarse (data &&& 0xfffffc00#32) (data.extractLsb' 5 4)
  | 2 => .wholeSection (data &&& 0xfff00000#32) (data.extractLsb' 5 4) (data.extractLsb' 10 2)
  | _ => .fine (data &&& 0xfffff000#32) (data.extractLsb' 5 4)

/-- The access permissions of the quarters of a page. -/
structure Permissions where
  ap0 : BitVec 2
  ap1 : BitVec 2
  ap2 : BitVec 2
  ap3 : BitVec 2

def Permissions.new (data : BitVec 32) : Permissions :=
  ⟨data.extractLsb' 4 2, data.extractLsb' 6 2, data.extractLsb' 8 2, data.extractLsb' 10 2⟩

inductive TxL2Descriptor where
  | fault
  | large (baseAddr : BitVec 32) (aps : Permissions)
  | small (baseAddr : BitVec 32) (aps : Permissions)

/-- There is no result where the assertion fails that the page is not a tiny one. -/
def TxL2Descriptor.new (data : BitVec 32) : Option TxL2Descriptor :=
  match (data.setWidth 2).toNat with
  | 0 => some .fault
  | 1 => some (.large (data &&& 0xffff0000#32) (.new data))
  | 2 => some (.small (data &&& 0xfffff000#32) (.new data))
  | _ => none

end ARM926EJSMMU

/-- The unit, with the registers of its coprocessor and the physical memory. The table of the first level
is aligned to its size. -/
structure ARM926EJSMMU where
  enabled : Bool
  ttbr : BitVec 32
  aligned : ttbr.toNat % 2 ^ 14 = 0
  dacr : BitVec 32
  cp1S : Bool
  cp1R : Bool
  read32 : BitVec 32 → BitVec 32

namespace ARM926EJSMMU

variable (mmu : ARM926EJSMMU)

def getL1Descriptor (mva : BitVec 32) : TxL1Descriptor :=
  .new (mmu.read32 (mmu.ttbr ||| (mva >>> 20) <<< 2))

def getL2DescriptorCoarse (mva baseAddr : BitVec 32) : Option TxL2Descriptor :=
  TxL2Descriptor.new (mmu.read32 ((baseAddr &&& 0xfffffc00#32) ||| ((mva &&& 0x000ff000#32) >>> 12) <<< 2))

def allowAccess (ap : BitVec 2) (info : AccessInfo) : Bool :=
  match ap.toNat with
  | 0 => if mmu.cp1R then !info.write else if mmu.cp1S then info.ring != 0 && !info.write else false
  | 1 => info.ring != 0
  | 2 => info.ring != 0 || !info.write
  | _ => true

/-- The two bits that control a domain. -/
def domainAccess (domain : BitVec 4) : BitVec 2 := (mmu.dacr >>> (domain.toNat * 2)).setWidth 2

/-- What `phys_addr` is set to where there is no translation. -/
def canary : Address := 0xf0f0f0f0

/-- The switch over the bits of the domain, which has no case for a reserved domain. -/
def checkAccess (domain : BitVec 4) (ap : BitVec 2) (info : AccessInfo)
    (domainFault permissionFault : TranslateResult) (physAddr : BitVec 32) : TranslateResult × Address :=
  match (mmu.domainAccess domain).toNat with
  | 0 => (domainFault, canary)
  | 1 => if mmu.allowAccess ap info then (.ok, physAddr.setWidth 64) else (permissionFault, canary)
  | _ => (.ok, physAddr.setWidth 64)

def translateSection (mva baseAddr : BitVec 32) (domain : BitVec 4) (ap : BitVec 2) (info : AccessInfo) :
    TranslateResult × Address :=
  mmu.checkAccess domain ap info .accessDomainSection .accessPermissionSection
    (baseAddr ||| (mva &&& 0xfffff#32))

def translateCoarse (mva baseAddr : BitVec 32) (domain : BitVec 4) (info : AccessInfo) :
    Option (TranslateResult × Address) :=
  (mmu.getL2DescriptorCoarse mva baseAddr).map fun
    | .fault => (.faultPage, canary)
    | .large base aps =>
        mmu.checkAccess domain aps.ap0 info .accessDomainPage .accessPermissionPage
          ((base &&& 0xffff0000#32) ||| (mva &&& 0x0000ffff#32))
    | .small base aps =>
        mmu.checkAccess domain aps.ap0 info .accessDomainPage .accessPermissionPage
          ((base &&& 0xfffff000#32) ||| (mva &&& 0x00000fff#32))

/-- There is no result where an assertion fails, for fine tables and tiny pages. -/
def translate (virtAddr : Address) (info : AccessInfo) : Option (TranslateResult × Address) :=
  if mmu.enabled then
    let mva := virtAddr.setWidth 32
    match mmu.getL1Descriptor mva with
    | .fault => some (.faultSection, canary)
    | .wholeSection baseAddr domain ap => some (mmu.translateSection mva baseAddr domain ap info)
    | .coarse baseAddr domain => mmu.translateCoarse mva baseAddr domain info
    | .fine _ _ => none
  else some (.ok, virtAddr)

/-! ### The rules of the architecture -/

/-- The bits of a word from `low` on, as a number. -/
def field (word : BitVec 32) (low width : Nat) : Nat := word.toNat / 2 ^ low % 2 ^ width

/-- A section or page: the domain, the permissions of its four quarters, the quarter that the address is
in, and the physical address. -/
structure Frame where
  domain : BitVec 4
  aps : Nat → BitVec 2
  quarter : Nat
  physAddr : Nat

/-- The frame that starts at the upper bits of a descriptor, with the lower bits of the address. -/
def place (descriptor mva : BitVec 32) (bits : Nat) : Nat :=
  descriptor.toNat / 2 ^ bits * 2 ^ bits + mva.toNat % 2 ^ bits

def l1Entry (mva : BitVec 32) : BitVec 32 :=
  mmu.read32 (BitVec.ofNat 32 (mmu.ttbr.toNat + field mva 20 12 * 4))

def l2Entry (mva : BitVec 32) : BitVec 32 :=
  mmu.read32 (BitVec.ofNat 32 ((mmu.l1Entry mva).toNat / 2 ^ 10 * 2 ^ 10 + field mva 12 8 * 4))

/-- Where an address is mapped. A table of the first level has sections and tables of the second level,
one of the second level large and small pages. -/
def frame (mva : BitVec 32) : Option Frame :=
  let l1 := mmu.l1Entry mva
  let l2 := mmu.l2Entry mva
  let domain := l1.extractLsb' 5 4
  let aps := fun quarter => l2.extractLsb' (4 + 2 * quarter) 2
  match field l1 0 2, field l2 0 2 with
  | 2, _ => some ⟨domain, fun _ => l1.extractLsb' 10 2, 0, place l1 mva 20⟩
  | 1, 1 => some ⟨domain, aps, field mva 14 2, place l2 mva 16⟩
  | 1, 2 => some ⟨domain, aps, field mva 10 2, place l2 mva 12⟩
  | _, _ => none

/-- Who may do what with some permissions. -/
def Permitted (ap : BitVec 2) (info : AccessInfo) : Prop :=
  ap = 0 ∧ info.write = false ∧ (mmu.cp1R = true ∨ mmu.cp1S = true ∧ info.ring ≠ 0) ∨
    ap = 1 ∧ info.ring ≠ 0 ∨ ap = 2 ∧ (info.ring ≠ 0 ∨ info.write = false) ∨ ap = 3

/-- The bits of a domain: 3 is for no checks, 1 for those of the permissions, 0 and 2 are for no access. -/
def Granted (frame : Frame) (info : AccessInfo) : Prop :=
  mmu.domainAccess frame.domain = 3 ∨
    mmu.domainAccess frame.domain = 1 ∧ mmu.Permitted (frame.aps frame.quarter) info

/-- Entries of the kinds that are implemented. -/
def Supported (mva : BitVec 32) : Prop :=
  field (mmu.l1Entry mva) 0 2 ≠ 3 ∧ (field (mmu.l1Entry mva) 0 2 = 1 → field (mmu.l2Entry mva) 0 2 ≠ 3)

/-- The translation ends, with the physical address where the access is granted and a fault elsewhere. -/
def Follows (virtAddr : Address) (info : AccessInfo) : Prop :=
  ∃ result physAddr, mmu.translate virtAddr info = some (result, physAddr) ∧
    (result = .ok ↔ ∃ frame ∈ mmu.frame (virtAddr.setWidth 32), mmu.Granted frame info) ∧
    (result = .ok → ∃ frame ∈ mmu.frame (virtAddr.setWidth 32), physAddr.toNat = frame.physAddr)

/-- The domain is not the reserved one, and where the permissions are checked the quarter of the address has
the say that the first quarter has. -/
def Regular (frame : Frame) (info : AccessInfo) : Prop :=
  mmu.domainAccess frame.domain ≠ 2 ∧ (mmu.domainAccess frame.domain = 1 →
    (mmu.Permitted (frame.aps frame.quarter) info ↔ mmu.Permitted (frame.aps 0) info))

/-! ### Addresses -/

/-- The upper bits of one word and the lower bits of another. -/
theorem toNat_join {bits : Nat} {mask : BitVec 32} (hMask : mask.toNat = 2 ^ bits - 1) (upper lower : BitVec 32) :
    ((upper &&& ~~~mask) ||| (lower &&& mask)).toNat = place upper lower bits := by
  have hLower : lower.toNat % 2 ^ bits < 2 ^ bits := Nat.mod_lt _ (Nat.two_pow_pos _)
  apply Nat.eq_of_testBit_eq
  intro i
  have hOnes : mask.getLsbD i = decide (i < bits) := by
    rw [← BitVec.testBit_toNat, hMask, Nat.testBit_two_pow_sub_one]
  rw [BitVec.testBit_toNat, BitVec.getLsbD_or, BitVec.getLsbD_and, BitVec.getLsbD_and, BitVec.getLsbD_not, hOnes,
    place, Nat.mul_comm, Nat.testBit_two_pow_mul_add _ hLower, Nat.testBit_mod_two_pow, Nat.testBit_div_two_pow]
  by_cases hLow : i < bits
  · simp [hLow, BitVec.testBit_toNat]
  · have hBack : i - bits + bits = i := by omega
    by_cases hIn : i < 32
    · simp [hLow, hIn, hBack, BitVec.testBit_toNat]
    · simp [hLow, hIn, hBack, BitVec.testBit_toNat, BitVec.getLsbD_of_ge upper i (by omega)]

/-- The bits of an index and those of the table do not meet. -/
theorem toNat_or_of_aligned {bits : Nat} {table index : BitVec 32} (hTable : table.toNat % 2 ^ bits = 0)
    (hIndex : index.toNat < 2 ^ bits) : (table ||| index).toNat = table.toNat + index.toNat := by
  have hMul : 2 ^ bits * (table.toNat / 2 ^ bits) = table.toNat := Nat.mul_div_cancel' (Nat.dvd_of_mod_eq_zero hTable)
  rw [BitVec.toNat_or, ← hMul, Nat.two_pow_add_eq_or_of_lt hIndex]

theorem getL1Descriptor_eq (mva : BitVec 32) : mmu.getL1Descriptor mva = .new (mmu.l1Entry mva) := by
  have hIndex : ((mva >>> 20) <<< 2).toNat = field mva 20 12 * 4 := by
    have := mva.isLt
    simp only [BitVec.toNat_shiftLeft, BitVec.toNat_ushiftRight, Nat.shiftLeft_eq, Nat.shiftRight_eq_div_pow, field]
    omega
  have hAddr : (mmu.ttbr ||| (mva >>> 20) <<< 2).toNat = mmu.ttbr.toNat + field mva 20 12 * 4 := by
    rw [toNat_or_of_aligned mmu.aligned, hIndex]
    rw [hIndex, field]
    omega
  rw [getL1Descriptor, l1Entry, ← hAddr, BitVec.ofNat_toNat, BitVec.setWidth_eq]

theorem getL2DescriptorCoarse_eq (mva : BitVec 32) :
    mmu.getL2DescriptorCoarse mva (mmu.l1Entry mva &&& 0xfffffc00#32) = TxL2Descriptor.new (mmu.l2Entry mva) := by
  have hIndex : (((mva &&& 0x000ff000#32) >>> 12) <<< 2).toNat = field mva 12 8 * 4 := by
    have hField : (mva &&& 0x000ff000#32) >>> 12 = (mva >>> 12) &&& 0xff#32 := by
      rw [BitVec.ushiftRight_and_distrib]
      rfl
    have hMask : ((mva >>> 12) &&& 0xff#32).toNat = field mva 12 8 := by
      rw [BitVec.toNat_and, show (0xff#32).toNat = 2 ^ 8 - 1 from rfl, Nat.and_two_pow_sub_one_eq_mod,
        BitVec.toNat_ushiftRight, Nat.shiftRight_eq_div_pow, field]
    have hLt : field mva 12 8 < 2 ^ 8 := Nat.mod_lt _ (by decide)
    rw [hField, BitVec.toNat_shiftLeft, hMask, Nat.shiftLeft_eq]
    omega
  have hTable : (mmu.l1Entry mva &&& 0xfffffc00#32).toNat = (mmu.l1Entry mva).toNat / 2 ^ 10 * 2 ^ 10 := by
    have hJoin := @toNat_join 10 0x3ff#32 rfl (mmu.l1Entry mva) 0
    simpa [place] using hJoin
  have hAddr : ((mmu.l1Entry mva &&& 0xfffffc00#32) ||| ((mva &&& 0x000ff000#32) >>> 12) <<< 2).toNat =
      (mmu.l1Entry mva).toNat / 2 ^ 10 * 2 ^ 10 + field mva 12 8 * 4 := by
    have hLt : field mva 12 8 < 2 ^ 8 := Nat.mod_lt _ (by decide)
    rw [@toNat_or_of_aligned 10, hIndex, hTable]
    · rw [hTable]
      omega
    · rw [hIndex]
      omega
  rw [getL2DescriptorCoarse, BitVec.and_assoc, BitVec.and_self, l2Entry, ← hAddr, BitVec.ofNat_toNat, BitVec.setWidth_eq]

/-! ### Access -/

theorem allowAccess_iff (ap : BitVec 2) (info : AccessInfo) : mmu.allowAccess ap info = true ↔ mmu.Permitted ap info := by
  have hCases : ap = 0 ∨ ap = 1 ∨ ap = 2 ∨ ap = 3 := by
    revert ap
    decide
  obtain rfl | rfl | rfl | rfl := hCases
  · simp [allowAccess, Permitted]
    grind
  · simp [allowAccess, Permitted]
  · simp [allowAccess, Permitted]
  · simp [allowAccess, Permitted]

/-- What becomes of an access to a frame: a reserved domain is let through, and the permissions are those of
the first quarter. -/
def Reaches (frame : Frame) (info : AccessInfo) (result : TranslateResult) (physAddr : Address) : Prop :=
  (result = .ok ↔ mmu.domainAccess frame.domain = 2 ∨ mmu.domainAccess frame.domain = 3 ∨
    mmu.domainAccess frame.domain = 1 ∧ mmu.Permitted (frame.aps 0) info) ∧
  (result = .ok → physAddr.toNat = frame.physAddr)

theorem reaches_checkAccess (frame : Frame) (info : AccessInfo) {domainFault permissionFault : TranslateResult}
    (hDomain : domainFault ≠ .ok) (hPermission : permissionFault ≠ .ok) {physAddr : BitVec 32}
    (hAddr : physAddr.toNat = frame.physAddr) : mmu.Reaches frame info
      (mmu.checkAccess frame.domain (frame.aps 0) info domainFault permissionFault physAddr).1
      (mmu.checkAccess frame.domain (frame.aps 0) info domainFault permissionFault physAddr).2 := by
  have hWide : (physAddr.setWidth 64).toNat = frame.physAddr := by rw [BitVec.toNat_setWidth_of_le (by decide), hAddr]
  have hCases : ∀ access : BitVec 2, access = 0 ∨ access = 1 ∨ access = 2 ∨ access = 3 := by decide
  obtain hAccess | hAccess | hAccess | hAccess := hCases (mmu.domainAccess frame.domain)
  · simp [Reaches, checkAccess, hAccess, hDomain]
  · by_cases hAllow : mmu.allowAccess (frame.aps 0) info = true
    · simp [Reaches, checkAccess, hAccess, hAllow, hWide, (mmu.allowAccess_iff _ _).mp hAllow]
    · have hNot : ¬ mmu.Permitted (frame.aps 0) info := fun h => hAllow ((mmu.allowAccess_iff _ _).mpr h)
      simp [Reaches, checkAccess, hAccess, hAllow, hPermission, hNot]
  · simp [Reaches, checkAccess, hAccess, hWide]
  · simp [Reaches, checkAccess, hAccess, hWide]

/-- A translation that ends: with a fault where nothing is mapped, and as the frame is checked elsewhere. -/
def Ends (mva : BitVec 32) (info : AccessInfo) (translated : Option (TranslateResult × Address)) : Prop :=
  ∃ result physAddr, translated = some (result, physAddr) ∧
    (mmu.frame mva = none ∧ result ≠ .ok ∨ ∃ frame, mmu.frame mva = some frame ∧ mmu.Reaches frame info result physAddr)

theorem ends_of_checkAccess {mva : BitVec 32} {frame : Frame} (hFrame : mmu.frame mva = some frame) (info : AccessInfo)
    {domainFault permissionFault : TranslateResult} (hDomain : domainFault ≠ .ok) (hPermission : permissionFault ≠ .ok)
    {physAddr : BitVec 32} (hAddr : physAddr.toNat = frame.physAddr) : mmu.Ends mva info
      (some (mmu.checkAccess frame.domain (frame.aps 0) info domainFault permissionFault physAddr)) :=
  ⟨_, _, rfl, Or.inr ⟨frame, hFrame, mmu.reaches_checkAccess frame info hDomain hPermission hAddr⟩⟩

theorem toNat_setWidth_two (word : BitVec 32) : (word.setWidth 2).toNat = field word 0 2 := by
  simp [field]

theorem ends_translateCoarse {mva : BitVec 32} (h1 : field (mmu.l1Entry mva) 0 2 = 1)
    (hTiny : field (mmu.l2Entry mva) 0 2 ≠ 3) (info : AccessInfo) : mmu.Ends mva info
      (mmu.translateCoarse mva (mmu.l1Entry mva &&& 0xfffffc00#32) ((mmu.l1Entry mva).extractLsb' 5 4) info) := by
  have hLt : field (mmu.l2Entry mva) 0 2 < 2 ^ 2 := Nat.mod_lt _ (by decide)
  rw [translateCoarse, getL2DescriptorCoarse_eq, TxL2Descriptor.new, toNat_setWidth_two]
  obtain h2 | h2 | h2 : field (mmu.l2Entry mva) 0 2 = 0 ∨ field (mmu.l2Entry mva) 0 2 = 1 ∨
      field (mmu.l2Entry mva) 0 2 = 2 := by omega
  · rw [h2]
    exact ⟨.faultPage, canary, rfl, Or.inl ⟨by simp [frame, h1, h2], by decide⟩⟩
  · rw [h2]
    have hFrame : mmu.frame mva = some ⟨(mmu.l1Entry mva).extractLsb' 5 4,
        fun quarter => (mmu.l2Entry mva).extractLsb' (4 + 2 * quarter) 2, field mva 14 2,
        place (mmu.l2Entry mva) mva 16⟩ := by
      simp [frame, h1, h2]
    refine mmu.ends_of_checkAccess hFrame info (by decide) (by decide) ?_
    rw [BitVec.and_assoc, BitVec.and_self]
    exact @toNat_join 16 0xffff#32 rfl _ _
  · rw [h2]
    have hFrame : mmu.frame mva = some ⟨(mmu.l1Entry mva).extractLsb' 5 4,
        fun quarter => (mmu.l2Entry mva).extractLsb' (4 + 2 * quarter) 2, field mva 10 2,
        place (mmu.l2Entry mva) mva 12⟩ := by
      simp [frame, h1, h2]
    refine mmu.ends_of_checkAccess hFrame info (by decide) (by decide) ?_
    rw [BitVec.and_assoc, BitVec.and_self]
    exact @toNat_join 12 0xfff#32 rfl _ _

theorem ends_translate (hEnabled : mmu.enabled = true) {virtAddr : Address} (info : AccessInfo)
    (hSupported : mmu.Supported (virtAddr.setWidth 32)) :
    mmu.Ends (virtAddr.setWidth 32) info (mmu.translate virtAddr info) := by
  obtain ⟨hFine, hTiny⟩ := hSupported
  rw [translate, if_pos hEnabled]
  generalize (virtAddr.setWidth 32 : BitVec 32) = mva at *
  have hLt : field (mmu.l1Entry mva) 0 2 < 2 ^ 2 := Nat.mod_lt _ (by decide)
  dsimp only
  rw [getL1Descriptor_eq, TxL1Descriptor.new, toNat_setWidth_two]
  obtain h1 | h1 | h1 : field (mmu.l1Entry mva) 0 2 = 0 ∨ field (mmu.l1Entry mva) 0 2 = 1 ∨
      field (mmu.l1Entry mva) 0 2 = 2 := by omega
  · rw [h1]
    exact ⟨.faultSection, canary, rfl, Or.inl ⟨by simp [frame, h1], by decide⟩⟩
  · rw [h1]
    exact mmu.ends_translateCoarse h1 (hTiny h1) info
  · rw [h1]
    have hFrame : mmu.frame mva = some ⟨(mmu.l1Entry mva).extractLsb' 5 4,
        fun _ => (mmu.l1Entry mva).extractLsb' 10 2, 0, place (mmu.l1Entry mva) mva 20⟩ := by
      simp [frame, h1]
    exact mmu.ends_of_checkAccess hFrame info (by decide) (by decide) (@toNat_join 20 0xfffff#32 rfl _ _)

/-- The unit follows the rules of the architecture exactly where the domain is not the reserved one and the quarter
of the page has the say of the first quarter. -/
theorem follows_iff_regular (mmu : ARM926EJSMMU) (virtAddr : Address) (info : AccessInfo) (hEnabled : mmu.enabled = true)
    (hSupported : mmu.Supported (virtAddr.setWidth 32)) :
    mmu.Follows virtAddr info ↔ ∀ frame ∈ mmu.frame (virtAddr.setWidth 32), mmu.Regular frame info := by
  obtain ⟨result, physAddr, hTranslate, hEnd⟩ := mmu.ends_translate hEnabled info hSupported
  have hUnique : mmu.Follows virtAddr info ↔
      (result = .ok ↔ ∃ frame ∈ mmu.frame (virtAddr.setWidth 32), mmu.Granted frame info) ∧
        (result = .ok → ∃ frame ∈ mmu.frame (virtAddr.setWidth 32), physAddr.toNat = frame.physAddr) := by
    rw [Follows, hTranslate]
    constructor
    · rintro ⟨_, _, hEq, hSpec⟩
      cases hEq
      exact hSpec
    · intro hSpec
      exact ⟨_, _, rfl, hSpec⟩
  rw [hUnique]
  obtain ⟨hNone, hFault⟩ | ⟨frame, hSome, hOk, hAddr⟩ := hEnd
  · simp [hNone, hFault]
  · have hPhys : result = .ok → ∃ other : Frame, other ∈ some frame ∧ physAddr.toNat = other.physAddr := by
      intro hResult
      exact ⟨frame, rfl, hAddr hResult⟩
    rw [hSome, and_iff_left hPhys, hOk]
    simp only [Option.mem_some_iff, exists_eq_left', forall_eq', Granted, Regular]
    have hCases : ∀ access : BitVec 2, access = 0 ∨ access = 1 ∨ access = 2 ∨ access = 3 := by decide
    obtain hAccess | hAccess | hAccess | hAccess := hCases (mmu.domainAccess frame.domain)
    · simp [hAccess]
    · simp [hAccess, iff_comm]
    · simp [hAccess]
    · simp [hAccess]

/-- A small page at 0 whose first quarter is for all, and the others for none. -/
def sample (dacr : BitVec 32) : ARM926EJSMMU where
  enabled := true
  ttbr := 0x4000
  aligned := by decide
  dacr := dacr
  cp1S := false
  cp1R := false
  read32 addr := if addr = 0x4000 then 0x8001 else if addr = 0x8000 then 0x7032 else 0

theorem follows_sample : (sample 1).Follows 0x12#64 ⟨0, true, false⟩ :=
  (follows_iff_regular (sample 1) 0x12#64 ⟨0, true, false⟩ rfl ⟨by decide, fun _ => by decide⟩).mpr (by
    rintro frame ⟨⟩
    exact ⟨by decide, fun _ => Iff.rfl⟩)

/-- A user writes to a page of a reserved domain, and to the second quarter of the page. -/
theorem not_follows_sample :
    ¬ (sample 2).Follows 0#64 ⟨0, true, false⟩ ∧ ¬ (sample 1).Follows 0x400#64 ⟨0, true, false⟩ := by
  constructor
  · rintro ⟨_, _, ⟨⟩, hOk, -⟩
    obtain ⟨_, ⟨⟩, hGranted⟩ := hOk.mp rfl
    revert hGranted
    simp [Granted, Permitted]
    decide
  · rintro ⟨_, _, ⟨⟩, hOk, -⟩
    obtain ⟨_, ⟨⟩, hGranted⟩ := hOk.mp rfl
    revert hGranted
    simp [Granted, Permitted]
    decide

end ARM926EJSMMU

end Gensim.Devices
