import Gensim.Devices.MMU

/-! The memory management unit of RISC-V, and the walk of the privileged architecture for Sv39. -/
namespace Gensim.Arch

open Core Devices

/-- A page table entry. -/
abbrev PTE := BitVec 64

namespace PTE

variable (pte : PTE)

def getV : Bool := pte.getLsbD 0
def getR : Bool := pte.getLsbD 1
def getW : Bool := pte.getLsbD 2
def getX : Bool := pte.getLsbD 3
def getU : Bool := pte.getLsbD 4
def getA : Bool := pte.getLsbD 6
def getD : Bool := pte.getLsbD 7

def getPPN : BitVec 64 := pte >>> 10

end PTE

structure PhysMem where
  read32 : Address → BitVec 32
  read64 : Address → BitVec 64

inductive RiscVMMU.Mode where
  | noTxln | sv32 | sv39 | sv48
  deriving DecidableEq

/-- The identifier of the address space is left out, for it is always zero. -/
structure RiscVMMU where
  mode : RiscVMMU.Mode
  pageTablePpn : BitVec 64

namespace RiscVMMU

namespace Mode

def bits : Mode → BitVec 4
  | .noTxln => 0
  | .sv32 => 1
  | .sv39 => 8
  | .sv48 => 9

/-- There is no result where a mode is not expected. -/
def ofBits (bits : BitVec 4) : Option Mode :=
  if bits = 0 then some .noTxln
  else if bits = 1 then some .sv32
  else if bits = 8 then some .sv39
  else if bits = 9 then some .sv48
  else none

def getPTLevels : Mode → Option Nat
  | .noTxln => none
  | .sv32 => some 2
  | .sv39 => some 3
  | .sv48 => some 4

end Mode

variable (mmu : RiscVMMU) (mem : PhysMem)

def getSATP : BitVec 64 := mmu.pageTablePpn ||| (mmu.mode.bits.setWidth 64 <<< 60)

def setSATP (newSatp : BitVec 64) : Option RiscVMMU :=
  (Mode.ofBits (newSatp.extractLsb' 60 4)).map fun mode => ⟨mode, newSatp &&& 0xfffffffffff⟩

/-- There is no result where a mode or a level is not expected. -/
def getVPN (address : Address) (vpn : Nat) : Option (BitVec 64) :=
  match mmu.mode, vpn with
  | .sv32, 0 => some ((address >>> 12) &&& 0x3ff)
  | .sv32, 1 => some ((address >>> 22) &&& 0x3ff)
  | .sv39, 0 | .sv48, 0 => some ((address >>> 12) &&& 0x1ff)
  | .sv39, 1 | .sv48, 1 => some ((address >>> 21) &&& 0x1ff)
  | .sv39, 2 | .sv48, 2 => some ((address >>> 30) &&& 0x1ff)
  | .sv48, 3 => some ((address >>> 39) &&& 0x1ff)
  | _, _ => none

def getPTESize : Option (BitVec 64) :=
  match mmu.mode with
  | .sv32 => some 4
  | .sv39 | .sv48 => some 8
  | .noTxln => none

def loadPTE (address : Address) : Option PTE :=
  match mmu.mode with
  | .sv32 => some ((mem.read32 address).setWidth 64)
  | .sv39 | .sv48 => some (mem.read64 address)
  | .noTxln => none

/-- The mask of a leaf, which is implemented for Sv39 only. -/
def leafMask (level : Nat) : Option (BitVec 64) :=
  match mmu.mode, level with
  | .sv39, 0 => some (~~~0xfff)
  | .sv39, 1 => some (~~~0x1fffff)
  | .sv39, 2 => some (~~~0x3fffffff)
  | _, _ => none

/-- The page of a leaf, starting from the information that the constructor leaves. -/
def leafInfo (pi : PageInfo) (pte : PTE) (mask : BitVec 64) : PageInfo :=
  let pi := { pi with present := true, physAddr := pte.getPPN <<< 12, mask := mask }
  if pte.getU then
    { pi with userCanRead := pte.getR, userCanWrite := pte.getW, userCanExecute := pte.getX }
  else
    { pi with kernelCanRead := pte.getR, kernelCanWrite := pte.getW, kernelCanExecute := pte.getX }

/-- The address of the entry for a level, and the entry. -/
def entryAt (virtAddr table : Address) (level : Nat) : Option (Address × PTE) := do
  let pteAddress := table + (← mmu.getVPN virtAddr level) * (← mmu.getPTESize)
  some (pteAddress, ← mmu.loadPTE mem pteAddress)

/-- What an entry says about the page, or what the next level says. -/
def infoOf (pi : PageInfo) (level : Nat) (pteAddress : Address) (pte : PTE)
    (nextLevel : Option (Address × PageInfo)) : Option (Address × PageInfo) :=
  if pte.getV = false ∨ pte.getR = false ∧ pte.getW = true then
    some (pteAddress, { pi with present := false })
  else if pte.getR = true ∨ pte.getX = true then
    (mmu.leafMask level).map fun mask => (pteAddress, leafInfo pi pte mask)
  else nextLevel

/-- There is no result where something is not expected or not implemented, such as a pointer to a next
level in the last one. -/
def getInfoLevel (pi : PageInfo) (virtAddr : Address) : Nat → Address → Option (Address × PageInfo)
  | 0, table => do
      let (pteAddress, pte) ← mmu.entryAt mem virtAddr table 0
      mmu.infoOf pi 0 pteAddress pte none
  | level + 1, table => do
      let (pteAddress, pte) ← mmu.entryAt mem virtAddr table (level + 1)
      mmu.infoOf pi (level + 1) pteAddress pte (getInfoLevel pi virtAddr level (pte.getPPN * 4096))

/-- The ring of an access after `mstatus` was looked at. -/
def adjustRing (mstatus : BitVec 64) (info : AccessInfo) : AccessInfo :=
  if info.ring = 3 ∧ info.fetch = false ∧ mstatus.getLsbD 17 = true then
    { info with ring := (mstatus.extractLsb' 11 2).toNat }
  else info

/-- The checks of the permissions of a page, which come after those of the entry. -/
def allows (mstatus : BitVec 64) (info : AccessInfo) (pi : PageInfo) : Bool :=
  let sum := mstatus.getLsbD 18
  if info.ring = 0 then
    (!info.fetch || pi.userCanExecute) && (info.write || pi.userCanRead) && (!info.write || pi.userCanWrite)
  else if info.ring = 1 then
    (!info.fetch || pi.kernelCanExecute || sum && pi.userCanExecute) &&
      (info.write || pi.kernelCanRead || sum && pi.userCanRead) &&
      (!info.write || pi.kernelCanWrite || sum && pi.userCanWrite)
  else true

/-- The result and the physical address for a page that was found. -/
def checkPage (mstatus : BitVec 64) (virtAddr physAddr : Address) (info : AccessInfo)
    (found : Address × PageInfo) : TranslateResult × Address :=
  let (pteAddress, pi) := found
  if pi.present then
    let pte : PTE := mem.read64 pteAddress
    let physAddr := Address.pageBase pi.physAddr ||| (virtAddr &&& ~~~pi.mask)
    if pte.getA = true ∧ (info.write = true → pte.getD = true) ∧ allows mstatus info pi = true then
      (.ok, physAddr)
    else (.faultPage, physAddr)
  else (.faultPage, physAddr)

/-- The result, and the physical address if that is set. The exception for a fault is left out. -/
def translate (mstatus : BitVec 64) (pi : PageInfo) (virtAddr physAddr : Address) (info : AccessInfo) :
    Option (TranslateResult × Address) :=
  let info := adjustRing mstatus info
  if mmu.mode = .noTxln ∨ info.ring = 3 then some (.ok, virtAddr)
  else
    mmu.mode.getPTLevels.bind fun levels =>
      (mmu.getInfoLevel mem pi virtAddr (levels - 1) ((mmu.getSATP &&& 0xfffffffffff) * 4096)).map
        (checkPage mem mstatus virtAddr physAddr info)

end RiscVMMU

/-! ### The architecture -/

namespace Sv39

inductive Access where
  | fetch | load | store
  deriving DecidableEq

/-- The page number of an entry, whose upper ten bits are reserved. -/
def ppn (pte : PTE) : Nat := pte.toNat / 2 ^ 10 % 2 ^ 44

def vpn (virtAddr : Address) (level : Nat) : Nat := virtAddr.toNat / 2 ^ (12 + 9 * level) % 2 ^ 9

def entry (mem : PhysMem) (virtAddr : Address) (level table : Nat) : PTE :=
  mem.read64 (BitVec.ofNat 64 (table * 4096 + vpn virtAddr level * 8))

def IsValid (pte : PTE) : Prop := pte.getV = true ∧ (pte.getR = true ∨ pte.getW = false)

def IsLeaf (pte : PTE) : Prop := pte.getR = true ∨ pte.getX = true

instance (pte : PTE) : Decidable (IsValid pte) := inferInstanceAs (Decidable (_ ∧ _))

instance (pte : PTE) : Decidable (IsLeaf pte) := inferInstanceAs (Decidable (_ ∨ _))

/-- How the walk ends: with an entry that is not valid, with a leaf and its level, or with a pointer where
there is no next level. -/
inductive Outcome where
  | invalid
  | leaf (level : Nat) (pte : PTE)
  | pointer

/-- The pointers that the walk goes through from a level on, and how it ends. -/
def walk (mem : PhysMem) (virtAddr : Address) : Nat → Nat → List PTE × Outcome
  | 0, table =>
      let pte := entry mem virtAddr 0 table
      ([], if ¬ IsValid pte then .invalid else if IsLeaf pte then .leaf 0 pte else .pointer)
  | level + 1, table =>
      let pte := entry mem virtAddr (level + 1) table
      if ¬ IsValid pte then ([], .invalid)
      else if IsLeaf pte then ([], .leaf (level + 1) pte)
      else (pte :: (walk mem virtAddr level (ppn pte)).1, (walk mem virtAddr level (ppn pte)).2)

def IsAligned (level : Nat) (pte : PTE) : Prop := ppn pte % 2 ^ (9 * level) = 0

instance (level : Nat) (pte : PTE) : Decidable (IsAligned level pte) := inferInstanceAs (Decidable (_ = _))

/-- The leaf permits the access from user or supervisor mode. -/
def Permits (mstatus : BitVec 64) (user : Bool) (pte : PTE) : Access → Prop
  | .fetch => pte.getX = true ∧ pte.getU = user
  | .load => (pte.getR = true ∨ mstatus.getLsbD 19 = true ∧ pte.getX = true) ∧
      (pte.getU = user ∨ user = false ∧ mstatus.getLsbD 18 = true)
  | .store => pte.getW = true ∧ (pte.getU = user ∨ user = false ∧ mstatus.getLsbD 18 = true)

/-- The leaf was accessed, and written if the access is a store. -/
def IsMarked (pte : PTE) (access : Access) : Prop := pte.getA = true ∧ (access = .store → pte.getD = true)

/-- The physical address that the access goes to. -/
def Translates (mem : PhysMem) (satp mstatus : BitVec 64) (user : Bool) (access : Access)
    (virtAddr physAddr : Address) : Prop :=
  ∃ level pte, (walk mem virtAddr 2 (satp.toNat % 2 ^ 44)).2 = .leaf level pte ∧ IsAligned level pte ∧
    Permits mstatus user pte access ∧ IsMarked pte access ∧
    physAddr = BitVec.ofNat 64 (ppn pte * 4096 + virtAddr.toNat % 2 ^ (12 + 9 * level))

end Sv39

namespace RiscVMMU

variable (mmu : RiscVMMU) (mem : PhysMem)

/-- `Translate` returns, and what it returns is as the architecture says. -/
def Follows (mstatus : BitVec 64) (pi : PageInfo) (ring : Nat) (access : Sv39.Access)
    (virtAddr physAddr : Address) : Prop :=
  let info : AccessInfo := ⟨ring, access = .store, access = .fetch⟩
  let translates := Sv39.Translates mem mmu.getSATP mstatus ((adjustRing mstatus info).ring = 0) access virtAddr
  ∃ result physAddr', mmu.translate mem mstatus pi virtAddr physAddr info = some (result, physAddr') ∧
    (result = .ok ↔ ∃ target, translates target) ∧ (result = .ok → translates physAddr')

/-- Of the reserved bits, 54 to 61 are clear, which `GetPPN` takes into the address; 62 and 63 are shifted out. -/
def IsClear (pte : PTE) : Prop := pte.toNat / 2 ^ 54 % 2 ^ 8 = 0

/-- The pointers of the walk lead the source to the tables that they lead the architecture to. -/
def PointersAreClear (virtAddr : Address) : Prop :=
  ∀ pte ∈ (Sv39.walk mem virtAddr 2 (mmu.getSATP.toNat % 2 ^ 44)).1, IsClear pte

/-- A leaf is one that the source and the architecture treat alike. -/
def IsPlain (mstatus : BitVec 64) (pi : PageInfo) (user : Bool) (level : Nat) (pte : PTE) :
    Sv39.Access → Prop
  | .fetch =>
      if user then pte.getU = true → pte.getX = true → (pte.getR = true ↔ Sv39.IsAligned level pte)
      else if pte.getU then
        ¬ (mstatus.getLsbD 18 = true ∧ pte.getR = true ∧ (pi.kernelCanExecute = true ∨ pte.getX = true))
      else
        pte.getR = true ∧ (pte.getX = true ∨ mstatus.getLsbD 18 = true ∧ pi.userCanExecute = true) ↔
          pte.getX = true ∧ Sv39.IsAligned level pte
  | .load => (pte.getU = user ∨ user = false ∧ mstatus.getLsbD 18 = true) →
      (pte.getR = true ↔ (pte.getR = true ∨ mstatus.getLsbD 19 = true ∧ pte.getX = true) ∧
        Sv39.IsAligned level pte)
  | .store => (pte.getU = user ∨ user = false ∧ mstatus.getLsbD 18 = true) → pte.getW = true →
      Sv39.IsAligned level pte

/-- The walk does not end with a pointer, and a leaf that it ends with is plain; if the leaf grants the
access, its reserved bits are clear. -/
def WalkIsPlain (mstatus : BitVec 64) (pi : PageInfo) (user : Bool) (access : Sv39.Access)
    (virtAddr : Address) : Prop :=
  match (Sv39.walk mem virtAddr 2 (mmu.getSATP.toNat % 2 ^ 44)).2 with
  | .invalid => True
  | .pointer => False
  | .leaf level pte => Sv39.IsMarked pte access → IsPlain mstatus pi user level pte access ∧
      (Sv39.Permits mstatus user pte access → Sv39.IsAligned level pte → IsClear pte)

section Leaves

variable (mstatus : BitVec 64) {user : Bool} (level : Nat) (pte : PTE) (mask : BitVec 64)

/-- The checks of the source and of the architecture come to the same exactly for a plain leaf. -/
theorem allows_leafInfo_iff (userX kernelX : Bool) {ring : Nat} (hRing : ring = if user then 0 else 1)
    (access : Sv39.Access) :
    (allows mstatus ⟨ring, access = .store, access = .fetch⟩ (leafInfo (.new userX kernelX) pte mask) = true ↔
        Sv39.Permits mstatus user pte access ∧ Sv39.IsAligned level pte) ↔
      IsPlain mstatus (.new userX kernelX) user level pte access := by
  unfold IsPlain Sv39.Permits leafInfo allows
  generalize Sv39.IsAligned level pte = aligned
  generalize pte.getR = r
  generalize pte.getX = x
  generalize pte.getU = u
  generalize mstatus.getLsbD 18 = sum
  subst hRing
  by_cases hAligned : aligned
  · cases access with
    | fetch => cases user <;> cases u <;> cases r <;> cases x <;> cases sum <;> simp [PageInfo.new, hAligned]
    | load => cases user <;> cases u <;> cases r <;> cases sum <;> simp [PageInfo.new, hAligned]
    | store => cases user <;> cases u <;> cases sum <;> simp [PageInfo.new, hAligned]
  · cases access with
    | fetch => cases user <;> cases u <;> cases r <;> cases x <;> cases sum <;> simp [PageInfo.new, hAligned]
    | load => cases user <;> cases u <;> cases r <;> cases sum <;> simp [PageInfo.new, hAligned]
    | store => cases user <;> cases u <;> cases sum <;> simp [PageInfo.new, hAligned]

end Leaves

/-! ### The walks -/

section Walks

variable {mmu mem} {virtAddr : Address} {level : Nat}

theorem getVPN_eq (hMode : mmu.mode = .sv39) (hLevel : level ≤ 2) :
    mmu.getVPN virtAddr level = some (BitVec.ofNat 64 (Sv39.vpn virtAddr level)) := by
  have hField (shift : Nat) : (virtAddr >>> shift) &&& 0x1ff#64 =
      BitVec.ofNat 64 (virtAddr.toNat / 2 ^ shift % 2 ^ 9) := by
    apply BitVec.eq_of_toNat_eq
    rw [BitVec.toNat_and, BitVec.toNat_ushiftRight, Nat.shiftRight_eq_div_pow, BitVec.toNat_ofNat, BitVec.toNat_ofNat]
    change virtAddr.toNat / 2 ^ shift &&& (2 ^ 9 - 1) = _
    rw [Nat.and_two_pow_sub_one_eq_mod, Nat.mod_eq_of_lt (b := 2 ^ 64) (by omega)]
  unfold getVPN Sv39.vpn
  rw [hMode]
  interval_cases level <;> exact congrArg some (hField _)

theorem entryAt_eq (mem : PhysMem) (hMode : mmu.mode = .sv39) (hLevel : level ≤ 2) (table : Nat) :
    ∃ pteAddress, mem.read64 pteAddress = Sv39.entry mem virtAddr level table ∧
      mmu.entryAt mem virtAddr (BitVec.ofNat 64 (table * 4096)) level =
        some (pteAddress, Sv39.entry mem virtAddr level table) := by
  have hSize : mmu.getPTESize = some 8 := by rw [getPTESize, hMode]
  have hLoad (address : Address) : mmu.loadPTE mem address = some (mem.read64 address) := by
    unfold loadPTE
    rw [hMode]
  have hAddress : BitVec.ofNat 64 (table * 4096) + BitVec.ofNat 64 (Sv39.vpn virtAddr level) * 8 =
      BitVec.ofNat 64 (table * 4096 + Sv39.vpn virtAddr level * 8) := by
    rw [BitVec.ofNat_add, BitVec.ofNat_mul (Sv39.vpn virtAddr level) 8]
    rfl
  refine ⟨BitVec.ofNat 64 (table * 4096 + Sv39.vpn virtAddr level * 8), rfl, ?_⟩
  rw [entryAt, getVPN_eq hMode hLevel, hSize]
  change (mmu.loadPTE mem (_ + _ * 8)).bind _ = _
  rw [hAddress, hLoad]
  rfl

variable {pte : PTE}

theorem getPPN_mul (hClear : IsClear pte) : pte.getPPN * 4096 = BitVec.ofNat 64 (Sv39.ppn pte * 4096) := by
  apply BitVec.eq_of_toNat_eq
  unfold PTE.getPPN Sv39.ppn
  unfold IsClear at hClear
  rw [BitVec.toNat_mul, BitVec.toNat_ushiftRight, Nat.shiftRight_eq_div_pow, BitVec.toNat_ofNat]
  change pte.toNat / 2 ^ 10 * 4096 % 2 ^ 64 = _
  omega

theorem isValid_iff : Sv39.IsValid pte ↔ ¬ (pte.getV = false ∨ pte.getR = false ∧ pte.getW = true) := by
  unfold Sv39.IsValid
  cases pte.getV <;> cases pte.getR <;> cases pte.getW <;> decide

theorem infoOf_of_not_isValid (hInvalid : ¬ Sv39.IsValid pte) (pi : PageInfo) (level : Nat) (pteAddress : Address)
    (nextLevel : Option (Address × PageInfo)) :
    mmu.infoOf pi level pteAddress pte nextLevel = some (pteAddress, { pi with present := false }) :=
  if_pos (not_not.mp fun hNot => hInvalid (isValid_iff.mpr hNot))

theorem infoOf_of_isLeaf (hValid : Sv39.IsValid pte) (hLeaf : Sv39.IsLeaf pte) (pi : PageInfo) (level : Nat)
    (pteAddress : Address) (nextLevel : Option (Address × PageInfo)) :
    mmu.infoOf pi level pteAddress pte nextLevel =
      (mmu.leafMask level).map fun mask => (pteAddress, leafInfo pi pte mask) := by
  rw [infoOf, if_neg (isValid_iff.mp hValid)]
  exact if_pos hLeaf

theorem infoOf_of_pointer (hValid : Sv39.IsValid pte) (hPointer : ¬ Sv39.IsLeaf pte) (pi : PageInfo) (level : Nat)
    (pteAddress : Address) (nextLevel : Option (Address × PageInfo)) :
    mmu.infoOf pi level pteAddress pte nextLevel = nextLevel := by
  rw [infoOf, if_neg (isValid_iff.mp hValid)]
  exact if_neg hPointer

/-- What the source finds by its walk. -/
def Finds (mmu : RiscVMMU) (mem : PhysMem) (pi : PageInfo) (found : Option (Address × PageInfo)) :
    Sv39.Outcome → Prop
  | .invalid => ∃ pteAddress, found = some (pteAddress, { pi with present := false })
  | .pointer => found = none
  | .leaf level pte => level ≤ 2 ∧ ∃ pteAddress, mem.read64 pteAddress = pte ∧
      found = (mmu.leafMask level).map fun mask => (pteAddress, leafInfo pi pte mask)

theorem finds_getInfoLevel (hMode : mmu.mode = .sv39) (pi : PageInfo) (hLevel : level ≤ 2) {table : Nat}
    (hClear : ∀ pte ∈ (Sv39.walk mem virtAddr level table).1, IsClear pte) :
    Finds mmu mem pi (mmu.getInfoLevel mem pi virtAddr level (BitVec.ofNat 64 (table * 4096)))
      (Sv39.walk mem virtAddr level table).2 := by
  induction level generalizing table with
  | zero =>
    obtain ⟨pteAddress, hLoad, hEntry⟩ := entryAt_eq mem hMode hLevel table
    rw [getInfoLevel, hEntry, Sv39.walk]
    dsimp only
    change Finds mmu mem pi (mmu.infoOf pi 0 pteAddress _ none) _
    split
    · rename_i hInvalid
      exact ⟨pteAddress, infoOf_of_not_isValid hInvalid ..⟩
    · rename_i hValid
      split
      · rename_i hLeaf
        exact ⟨hLevel, pteAddress, hLoad, infoOf_of_isLeaf (not_not.mp hValid) hLeaf ..⟩
      · rename_i hPointer
        exact infoOf_of_pointer (not_not.mp hValid) hPointer ..
  | succ level ih =>
    obtain ⟨pteAddress, hLoad, hEntry⟩ := entryAt_eq mem hMode hLevel table
    rw [Sv39.walk] at hClear ⊢
    rw [getInfoLevel, hEntry]
    dsimp only at hClear ⊢
    change Finds mmu mem pi (mmu.infoOf pi (level + 1) pteAddress _ _) _
    split
    · rename_i hInvalid
      exact ⟨pteAddress, infoOf_of_not_isValid hInvalid ..⟩
    · rename_i hValid
      rw [if_neg hValid] at hClear
      split
      · rename_i hLeaf
        exact ⟨hLevel, pteAddress, hLoad, infoOf_of_isLeaf (not_not.mp hValid) hLeaf ..⟩
      · rename_i hPointer
        rw [if_neg hPointer] at hClear
        obtain ⟨hFirst, hRest⟩ := List.forall_mem_cons.mp hClear
        rw [infoOf_of_pointer (not_not.mp hValid) hPointer, getPPN_mul hFirst]
        exact ih (by omega) hRest

/-- The low bits of the address are taken over into an aligned page, which is the architecture's if the
reserved bits are clear. -/
theorem physAddr_eq_iff (hLevel : level ≤ 2) (hAligned : Sv39.IsAligned level pte) (virtAddr : Address) :
    Address.pageBase (pte.getPPN <<< 12) ||| (virtAddr &&& BitVec.ofNat 64 (2 ^ (12 + 9 * level) - 1)) =
      BitVec.ofNat 64 (Sv39.ppn pte * 4096 + virtAddr.toNat % 2 ^ (12 + 9 * level)) ↔ IsClear pte := by
  unfold Sv39.IsAligned Sv39.ppn at hAligned
  have hBound : 2 ^ (12 + 9 * level) ≤ 2 ^ 42 := Nat.pow_le_pow_right (by decide) (by omega)
  have hLow : virtAddr.toNat % 2 ^ (12 + 9 * level) < 2 ^ (12 + 9 * level) := Nat.mod_lt _ (Nat.two_pow_pos _)
  have hFrame : (Address.pageBase (pte.getPPN <<< 12)).toNat = pte.toNat / 2 ^ 10 % 2 ^ 52 * 4096 := by
    rw [Address.toNat_pageBase, Address.getPageIndex, PTE.getPPN, BitVec.toNat_shiftLeft, Nat.shiftLeft_eq,
      BitVec.toNat_ushiftRight, Nat.shiftRight_eq_div_pow, Address.pageSize]
    omega
  have hOffset : (virtAddr &&& BitVec.ofNat 64 (2 ^ (12 + 9 * level) - 1)).toNat =
      virtAddr.toNat % 2 ^ (12 + 9 * level) := by
    rw [BitVec.toNat_and, BitVec.toNat_ofNat, Nat.mod_eq_of_lt (by omega), Nat.and_two_pow_sub_one_eq_mod]
  -- the page number of the source is aligned if that of the architecture is, which has its low bits
  obtain ⟨k, hk⟩ : 2 ^ (12 + 9 * level) ∣ pte.toNat / 2 ^ 10 % 2 ^ 52 * 4096 := by
    rw [Nat.add_comm, pow_add]
    refine Nat.mul_dvd_mul (Nat.dvd_of_mod_eq_zero ?_) (by decide)
    interval_cases level <;> omega
  have hOr := Nat.two_pow_add_eq_or_of_lt hLow k
  rw [← BitVec.toNat_inj, BitVec.toNat_or, hFrame, hOffset, BitVec.toNat_ofNat, hk, ← hOr, ← hk]
  unfold IsClear Sv39.ppn
  omega

theorem adjustRing_eq (mstatus : BitVec 64) (info : AccessInfo) :
    adjustRing mstatus info = ⟨(adjustRing mstatus info).ring, info.write, info.fetch⟩ := by
  unfold adjustRing
  split <;> rfl

theorem translate_eq (mem : PhysMem) (hMode : mmu.mode = .sv39) {mstatus : BitVec 64} {info : AccessInfo}
    (hRing : (adjustRing mstatus info).ring ≤ 1) (pi : PageInfo) (virtAddr physAddr : Address) :
    mmu.translate mem mstatus pi virtAddr physAddr info =
      (mmu.getInfoLevel mem pi virtAddr 2 (BitVec.ofNat 64 (mmu.getSATP.toNat % 2 ^ 44 * 4096))).map
        (checkPage mem mstatus virtAddr physAddr (adjustRing mstatus info)) := by
  have hBase : (mmu.getSATP &&& 0xfffffffffff) * 4096 = BitVec.ofNat 64 (mmu.getSATP.toNat % 2 ^ 44 * 4096) := by
    apply BitVec.eq_of_toNat_eq
    rw [BitVec.toNat_mul, BitVec.toNat_and, BitVec.toNat_ofNat]
    change (mmu.getSATP.toNat &&& (2 ^ 44 - 1)) * 4096 % 2 ^ 64 = _
    rw [Nat.and_two_pow_sub_one_eq_mod]
  have hWalks : ¬ (mmu.mode = .noTxln ∨ (adjustRing mstatus info).ring = 3) := by
    rw [hMode]
    rintro (hNone | hThree)
    · cases hNone
    · omega
  unfold translate
  rw [if_neg hWalks, hBase, hMode]
  rfl

/-- The page of a leaf is translated if it was marked and the checks allow the access. -/
theorem checkPage_leafInfo {pteAddress : Address} (hLoad : mem.read64 pteAddress = pte) (mstatus : BitVec 64)
    (virtAddr physAddr : Address) (ring : Nat) (access : Sv39.Access) (pi : PageInfo) (mask : BitVec 64) :
    ∃ result, checkPage mem mstatus virtAddr physAddr ⟨ring, access = .store, access = .fetch⟩
        (pteAddress, leafInfo pi pte mask) = (result, Address.pageBase (pte.getPPN <<< 12) ||| (virtAddr &&& ~~~mask)) ∧
      (result = .ok ↔ Sv39.IsMarked pte access ∧
        allows mstatus ⟨ring, access = .store, access = .fetch⟩ (leafInfo pi pte mask) = true) := by
  have hLeaf : (leafInfo pi pte mask).present = true ∧ (leafInfo pi pte mask).mask = mask ∧
      (leafInfo pi pte mask).physAddr = pte.getPPN <<< 12 := by
    unfold leafInfo
    dsimp only
    split <;> exact ⟨rfl, rfl, rfl⟩
  unfold checkPage Sv39.IsMarked
  dsimp only
  rw [if_pos hLeaf.1, hLeaf.2.1, hLeaf.2.2, hLoad]
  split
  · rename_i hChecked
    obtain ⟨hA, hD, hAllowed⟩ := hChecked
    exact ⟨_, rfl, iff_of_true rfl ⟨⟨hA, fun hStore => hD (decide_eq_true hStore)⟩, hAllowed⟩⟩
  · rename_i hFault
    refine ⟨_, rfl, iff_of_false (by decide) ?_⟩
    rintro ⟨⟨hA, hD⟩, hAllowed⟩
    exact hFault ⟨hA, fun hStore => hD (of_decide_eq_true hStore), hAllowed⟩

theorem exists_leafMask (hMode : mmu.mode = .sv39) (hLevel : level ≤ 2) :
    mmu.leafMask level = some (~~~BitVec.ofNat 64 (2 ^ (12 + 9 * level) - 1)) := by
  unfold leafMask
  rw [hMode]
  interval_cases level <;> rfl

theorem eq_of_le_one {ring : Nat} (hRing : ring ≤ 1) : ring = if decide (ring = 0) then 0 else 1 := by
  interval_cases ring <;> rfl

section Outcomes

variable {satp mstatus : BitVec 64} {user : Bool} {access : Sv39.Access} {target : Address}

theorem translates_leaf_iff {level : Nat} {pte : PTE}
    (hOutcome : (Sv39.walk mem virtAddr 2 (satp.toNat % 2 ^ 44)).2 = .leaf level pte) :
    Sv39.Translates mem satp mstatus user access virtAddr target ↔
      (Sv39.IsMarked pte access ∧ Sv39.Permits mstatus user pte access ∧ Sv39.IsAligned level pte) ∧
        target = BitVec.ofNat 64 (Sv39.ppn pte * 4096 + virtAddr.toNat % 2 ^ (12 + 9 * level)) := by
  constructor
  · rintro ⟨level', pte', hLeaf, hAligned, hPermits, hMarked, rfl⟩
    rw [hOutcome] at hLeaf
    cases hLeaf
    exact ⟨⟨hMarked, hPermits, hAligned⟩, rfl⟩
  · rintro ⟨⟨hMarked, hPermits, hAligned⟩, rfl⟩
    exact ⟨level, pte, hOutcome, hAligned, hPermits, hMarked, rfl⟩

theorem not_translates_of_invalid (hOutcome : (Sv39.walk mem virtAddr 2 (satp.toNat % 2 ^ 44)).2 = .invalid) :
    ¬ Sv39.Translates mem satp mstatus user access virtAddr target := by
  rintro ⟨level, pte, hLeaf, -⟩
  rw [hOutcome] at hLeaf
  cases hLeaf

end Outcomes

end Walks

/-- In Sv39 mode, an access from user or supervisor mode is translated as the architecture says exactly if
its walk is plain. A pointer with a reserved bit leads the source to another table, so that what it finds
there is not related to the walk. -/
theorem follows_iff (mmu : RiscVMMU) (mem : PhysMem) (hMode : mmu.mode = .sv39) (mstatus : BitVec 64)
    (userX kernelX : Bool) (ring : Nat) (access : Sv39.Access)
    (hRing : (adjustRing mstatus ⟨ring, access = .store, access = .fetch⟩).ring ≤ 1)
    (virtAddr physAddr : Address) (hClear : mmu.PointersAreClear mem virtAddr) :
    mmu.Follows mem mstatus (.new userX kernelX) ring access virtAddr physAddr ↔
      mmu.WalkIsPlain mem mstatus (.new userX kernelX)
        ((adjustRing mstatus ⟨ring, access = .store, access = .fetch⟩).ring = 0) access virtAddr := by
  have hFinds := finds_getInfoLevel hMode (.new userX kernelX) le_rfl hClear
  have hTranslate := translate_eq mem hMode hRing (.new userX kernelX) virtAddr physAddr
  rw [adjustRing_eq] at hTranslate
  have hUser := eq_of_le_one hRing
  unfold Follows
  dsimp only
  generalize (adjustRing mstatus ⟨ring, access = .store, access = .fetch⟩).ring = r at *
  generalize decide (r = 0) = user at *
  unfold WalkIsPlain
  rw [hTranslate]
  cases hOutcome : (Sv39.walk mem virtAddr 2 (mmu.getSATP.toNat % 2 ^ 44)).2 with
  | invalid =>
      rw [hOutcome] at hFinds
      obtain ⟨pteAddress, hFound⟩ := hFinds
      refine iff_of_true ⟨.faultPage, physAddr, ?_, iff_of_false (by decide) ?_, fun hOk => ?_⟩ trivial
      · rw [hFound]
        rfl
      · exact fun ⟨target, hTarget⟩ => not_translates_of_invalid hOutcome hTarget
      · cases hOk
  | pointer =>
      rw [hOutcome] at hFinds
      refine iff_of_false ?_ not_false
      rintro ⟨result, physAddr', hRun, -⟩
      rw [show mmu.getInfoLevel _ _ _ _ _ = none from hFinds] at hRun
      cases hRun
  | leaf level pte =>
      rw [hOutcome] at hFinds
      obtain ⟨hLevel, pteAddress, hLoad, hFound⟩ := hFinds
      rw [exists_leafMask hMode hLevel] at hFound
      obtain ⟨result, hChecked, hOk⟩ := checkPage_leafInfo hLoad mstatus virtAddr physAddr r access
        (.new userX kernelX) (~~~BitVec.ofNat 64 (2 ^ (12 + 9 * level) - 1))
      have hSame := allows_leafInfo_iff mstatus level pte (~~~BitVec.ofNat 64 (2 ^ (12 + 9 * level) - 1))
        userX kernelX hUser access
      rw [BitVec.not_not] at hChecked
      simp only [hFound, Option.map_some, hChecked, translates_leaf_iff hOutcome, exists_and_left, exists_eq,
        and_true, Option.some.injEq, Prod.mk.injEq]
      rw [← hSame]
      constructor
      · rintro ⟨_, _, ⟨rfl, rfl⟩, hArch, hAddress⟩ hMarked
        rw [hOk, and_congr_right_iff] at hArch
        refine ⟨hArch hMarked, fun hPermits hAligned => (physAddr_eq_iff hLevel hAligned virtAddr).mp ?_⟩
        exact (hAddress (hOk.mpr ⟨hMarked, (hArch hMarked).mpr ⟨hPermits, hAligned⟩⟩)).2
      · intro hPlain
        refine ⟨_, _, ⟨rfl, rfl⟩, hOk.trans (and_congr_right_iff.mpr fun hMarked => (hPlain hMarked).1), ?_⟩
        intro hResult
        obtain ⟨hMarked, hAllowed⟩ := hOk.mp hResult
        obtain ⟨hPermits, hAligned⟩ := (hPlain hMarked).1.mp hAllowed
        refine ⟨⟨hMarked, hPermits, hAligned⟩, (physAddr_eq_iff hLevel hAligned virtAddr).mpr ?_⟩
        exact (hPlain hMarked).2 hPermits hAligned

/-- The first table is a page of pointers to a page of leaves. -/
def twoLevels : PhysMem := ⟨fun _ => 0, fun address => if address.toNat < 4096 then 0x401 else 0xdf⟩

theorem follows_iff_twoLevels :
    RiscVMMU.Follows ⟨.sv39, 0⟩ twoLevels 0 (.new false false) 0 .load 0x1234 0 := by
  refine (follows_iff _ _ rfl 0 false false 0 .load (by decide) 0x1234 0 ?_).mpr ?_
  · exact List.forall_mem_singleton.mpr rfl
  · exact fun _ => ⟨fun _ => iff_of_true rfl ⟨.inl rfl, by decide⟩, fun _ _ => rfl⟩

/-- All tables are pages of one entry. -/
def uniformMem (pte : PTE) : PhysMem := ⟨fun _ => 0, fun _ => pte⟩

/-- A page that can only be executed is not fetched from, the supervisor fetches from a page of the user,
and a large page is not aligned. -/
theorem permissions_wrong :
    ¬ RiscVMMU.Follows ⟨.sv39, 0⟩ (uniformMem 0xd9) 0 (.new false false) 0 .fetch 0 0 ∧
      ¬ RiscVMMU.Follows ⟨.sv39, 0⟩ (uniformMem 0xdf) 0x40000 (.new false false) 1 .fetch 0 0 ∧
      ¬ RiscVMMU.Follows ⟨.sv39, 0⟩ (uniformMem 0x4df) 0 (.new false false) 0 .load 0 0 := by
  refine ⟨?_, ?_, ?_⟩
  · rintro ⟨result, physAddr, hRun, hArch, -⟩
    have hFault : result = .faultPage := (congrArg Prod.fst (Option.some.inj hRun)).symm
    rw [hFault] at hArch
    cases hArch.mpr ⟨_, 2, 0xd9, rfl, rfl, ⟨rfl, rfl⟩, ⟨rfl, fun hStore => by cases hStore⟩, rfl⟩
  · rintro ⟨result, physAddr, hRun, hArch, -⟩
    have hOk : result = .ok := (congrArg Prod.fst (Option.some.inj hRun)).symm
    obtain ⟨target, level, pte, hLeaf, -, hPermits, -⟩ := hArch.mp hOk
    cases hLeaf
    cases hPermits.2
  · rintro ⟨result, physAddr, hRun, hArch, -⟩
    have hOk : result = .ok := (congrArg Prod.fst (Option.some.inj hRun)).symm
    obtain ⟨target, level, pte, hLeaf, hAligned, -⟩ := hArch.mp hOk
    cases hLeaf
    cases hAligned

end RiscVMMU

end Gensim.Arch
