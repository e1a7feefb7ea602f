import Gensim.Devices.MMU

/-! The memory management unit of ARMv6, which walks its tables in `Translate` and again in `GetInfo`. -/
namespace Gensim.Devices

open Core

/-- The fields of a first-level descriptor that are read. -/
inductive TxL1Descriptor where
  | fault
  | coarse (baseAddr : BitVec 32) (domain : BitVec 4)
  | wholeSection (baseAddr : BitVec 32) (domain : BitVec 4) (ap : BitVec 3) (xn : Bool)

namespace TxL1Descriptor

/-- The domain, which is zero for a fault. -/
def domain : TxL1Descriptor → BitVec 4
  | .fault => 0
  | .coarse _ domain => domain
  | .wholeSection _ domain _ _ => domain

/-- There is no result where the assertion fails that a section is not a supersection. -/
def new (data : BitVec 32) : Option TxL1Descriptor :=
  match (data.setWidth 2).toNat with
  | 1 => some (.coarse (data &&& 0xfffffc00) (data.extractLsb' 5 4))
  | 2 =>
      if data.getLsbD 17 then none
      else some (.wholeSection (data &&& 0xfff00000) (data.extractLsb' 5 4)
        (data.extractLsb' 15 1 ++ data.extractLsb' 10 2) (data.getLsbD 4))
  | _ => some .fault

end TxL1Descriptor

inductive TxL2Descriptor where
  | fault
  | large (baseAddr : BitVec 32) (ap : BitVec 3) (xn : Bool)
  | small (baseAddr : BitVec 32) (ap : BitVec 3) (xn : Bool)

def TxL2Descriptor.new (data : BitVec 32) : TxL2Descriptor :=
  match (data.setWidth 2).toNat with
  | 0 => .fault
  | 1 => .large (data &&& 0xffff0000) (data.extractLsb' 9 1 ++ data.extractLsb' 4 2) (data.getLsbD 15)
  | _ => .small (data &&& 0xfffff000) (data.extractLsb' 9 1 ++ data.extractLsb' 4 2) (data.getLsbD 0)

/-- The unit, with the registers of its coprocessor and the physical memory. -/
structure ARMv6MMU where
  enabled : Bool
  ttbr : BitVec 32
  dacr : BitVec 32
  read32 : BitVec 32 → BitVec 32

namespace ARMv6MMU

variable (mmu : ARMv6MMU)

def getL1Descriptor (mva : BitVec 32) : Option TxL1Descriptor :=
  TxL1Descriptor.new (mmu.read32 ((mmu.ttbr &&& ~~~0x3fff#32) ||| (mva >>> 20) <<< 2))

def getL2DescriptorCoarse (mva baseAddr : BitVec 32) : TxL2Descriptor :=
  .new (mmu.read32 ((baseAddr &&& 0xfffffc00) ||| ((mva >>> 12) &&& 0xff) <<< 2))

/-- The two bits that control a domain. -/
def domainAccess (domain : BitVec 4) : BitVec 2 := (mmu.dacr >>> (domain.toNat * 2)).setWidth 2

/-! ### `GetInfo` -/

def fillAccessPerms (pi : PageInfo) (ap : BitVec 3) : PageInfo :=
  match ap.toNat with
  | 1 => pi.setAll false false true true
  | 2 => pi.setAll true false true true
  | 3 => pi.setAll true true true true
  | 5 => pi.setAll false false true false
  | 6 => pi.setAll true false true false
  | 7 => pi.setAll true false true false
  | _ => pi.setAll false false false false

/-- There is no result where an assertion fails, for a reserved domain. -/
def fillDomainPerms (pi : PageInfo) (domain : BitVec 4) (ap : BitVec 3) : Option PageInfo :=
  match (mmu.domainAccess domain).toNat with
  | 0 => some (pi.setAll false false false false)
  | 1 => some (fillAccessPerms pi ap)
  | 3 => some (pi.setAll true true true true)
  | _ => none

def getSectionInfo (pi : PageInfo) (baseAddr : BitVec 32) (domain : BitVec 4) (ap : BitVec 3) :
    Option PageInfo :=
  mmu.fillDomainPerms { pi with present := true, physAddr := baseAddr.setWidth 64, mask := 0x000fffff } domain ap

def getCoarseInfo (pi : PageInfo) (mva baseAddr : BitVec 32) (domain : BitVec 4) : Option PageInfo :=
  match mmu.getL2DescriptorCoarse mva baseAddr with
  | .fault => some { pi with present := false }
  | .large base ap _ =>
      (mmu.fillDomainPerms { pi with present := true } domain ap).map fun pi =>
        { pi with physAddr := ((base &&& 0xffff0000) ||| (mva &&& 0xffff)).setWidth 64, mask := 0xffff }
  | .small base ap _ =>
      (mmu.fillDomainPerms { pi with present := true } domain ap).map fun pi =>
        { pi with physAddr := ((base &&& 0xfffff000) ||| (mva &&& 0xfff)).setWidth 64, mask := 0xfff }

/-- The information on a page, starting from one as the constructor leaves it. -/
def getInfo (pi : PageInfo) (virtAddr : Address) : Option PageInfo :=
  if mmu.enabled then
    (mmu.getL1Descriptor (virtAddr.setWidth 32)).bind fun
      | .fault => some { pi with present := false }
      | .wholeSection baseAddr domain ap _ => mmu.getSectionInfo pi baseAddr domain ap
      | .coarse baseAddr domain => mmu.getCoarseInfo pi (virtAddr.setWidth 32) baseAddr domain
  else some { pi.setAll true true true true with physAddr := virtAddr, mask := 0xf, present := true }

/-! ### `Translate` -/

def allowAccess (ap : BitVec 3) (xn : Bool) (info : AccessInfo) : Bool :=
  if info.fetch && xn then false
  else
    match ap.toNat with
    | 1 => info.ring != 0
    | 2 => info.ring != 0 || !info.write
    | 3 => true
    | 5 => info.ring != 0 && !info.write
    | 6 => !info.write
    | 7 => !info.write
    | _ => false

/-- What `phys_addr` is set to where there is no translation. -/
def canary : Address := 0xf0f0f0f0

/-- The checks of the domain and the permissions, with the answers where they fail. -/
def checkAccess (domain : BitVec 4) (ap : BitVec 3) (xn : Bool) (info : AccessInfo)
    (domainFault permissionFault : TranslateResult) (physAddr : Address) : TranslateResult × Address :=
  match (mmu.domainAccess domain).toNat with
  | 2 => (domainFault, canary)
  | 1 => if allowAccess ap xn info then (.ok, physAddr) else (permissionFault, canary)
  | _ => (.ok, physAddr)

def translateSection (mva baseAddr : BitVec 32) (domain : BitVec 4) (ap : BitVec 3) (xn : Bool)
    (info : AccessInfo) : TranslateResult × Address :=
  mmu.checkAccess domain ap xn info .accessDomainSection .accessPermissionSection
    ((baseAddr ||| (mva &&& 0xfffff)).setWidth 64)

def translateCoarse (mva baseAddr : BitVec 32) (domain : BitVec 4) (info : AccessInfo) :
    TranslateResult × Address :=
  match mmu.getL2DescriptorCoarse mva baseAddr with
  | .fault => (.faultPage, canary)
  | .small base ap xn =>
      mmu.checkAccess domain ap xn info .accessDomainPage .accessPermissionPage
        (((base &&& 0xfffff000) ||| (mva &&& 0xfff)).setWidth 64)
  | .large base ap xn =>
      mmu.checkAccess domain ap xn info .accessDomainPage .accessPermissionPage
        (((base &&& 0xffff0000) ||| (mva &&& 0xffff)).setWidth 64)

def translate (virtAddr : Address) (info : AccessInfo) : Option (TranslateResult × Address) :=
  if mmu.enabled then
    (mmu.getL1Descriptor (virtAddr.setWidth 32)).map fun
      | .fault => (.faultSection, canary)
      | .wholeSection baseAddr domain ap xn =>
          mmu.translateSection (virtAddr.setWidth 32) baseAddr domain ap xn info
      | .coarse baseAddr domain => mmu.translateCoarse (virtAddr.setWidth 32) baseAddr domain info
  else some (.ok, virtAddr)

/-! ### Agreement of the two -/

/-- A translation and the information on a page say the same about an access. There is no translation if
the domain has no access. -/
def Agree (virtAddr : Address) (ring : Nat) (write : Bool) (noAccess : Prop)
    (translated : Option (TranslateResult × Address)) (info : Option PageInfo) : Prop :=
  ∃ result physAddr pi, translated = some (result, physAddr) ∧ info = some pi ∧
    (result = .ok ↔ pi.permits ring write = true) ∧ (result = .ok → physAddr = pi.combine virtAddr) ∧
    (noAccess → result ≠ .ok)

/-- The domain of the address has no access. -/
def HasNoAccess (virtAddr : Address) : Prop :=
  mmu.enabled = true ∧ ∃ descr ∈ mmu.getL1Descriptor (virtAddr.setWidth 32),
    mmu.domainAccess descr.domain = 0

/-- The walks agree on data accesses from the ring. -/
def WalksAgree (pi : PageInfo) (virtAddr : Address) (ring : Nat) (write : Bool) : Prop :=
  Agree virtAddr ring write (mmu.HasNoAccess virtAddr) (mmu.translate virtAddr ⟨ring, write, false⟩)
    (mmu.getInfo pi virtAddr)

/-- Accesses are checked or not, but the domain is neither closed nor reserved. -/
def IsOpen (domain : BitVec 4) : Prop := mmu.domainAccess domain = 1 ∨ mmu.domainAccess domain = 3

/-- If there is a page, its domain is open. -/
def HasOpenDomain (mva : BitVec 32) : TxL1Descriptor → Prop
  | .fault => True
  | .wholeSection _ domain _ _ => mmu.IsOpen domain
  | .coarse baseAddr domain => mmu.getL2DescriptorCoarse mva baseAddr = .fault ∨ mmu.IsOpen domain

/-- The address is not in a section that is taken for a supersection, nor in a page of a domain that is
closed or reserved. -/
def IsRegular (virtAddr : Address) : Prop :=
  ∃ descr ∈ mmu.getL1Descriptor (virtAddr.setWidth 32), mmu.HasOpenDomain (virtAddr.setWidth 32) descr

variable {mmu}

theorem permits_fillAccessPerms (pi : PageInfo) (ap : BitVec 3) (xn : Bool) (ring : Nat) (write : Bool) :
    (fillAccessPerms pi ap).permits ring write = (pi.present && allowAccess ap xn ⟨ring, write, false⟩) := by
  unfold fillAccessPerms allowAccess
  have hLt := ap.isLt
  generalize ap.toNat = n at hLt
  by_cases hRing : ring = 0
  · interval_cases n <;> cases write <;> simp [PageInfo.permits, PageInfo.setAll, hRing]
  · interval_cases n <;> cases write <;> simp [PageInfo.permits, PageInfo.setAll, hRing]

theorem exists_fillAccessPerms (pi : PageInfo) (ap : BitVec 3) :
    ∃ a b c d, fillAccessPerms pi ap = pi.setAll a b c d := by
  unfold fillAccessPerms
  split <;> exact ⟨_, _, _, _, rfl⟩

section Page

variable {virtAddr physAddr : Address} {ring : Nat} {write xn : Bool} {domain : BitVec 4} {ap : BitVec 3}
  {domainFault permissionFault : TranslateResult} {page : PageInfo} {place : PageInfo → PageInfo}
  {noAccess : Prop}

/-- The answers for a page agree exactly if its domain is open: a closed one is open for `Translate`, and
a reserved one stops `GetInfo`. -/
theorem agree_page_iff (hPermission : permissionFault ≠ .ok)
    (hPresent : page.present = true) (hPlace : ∀ pi, (place pi).permits ring write = pi.permits ring write)
    (hCombine : ∀ a b c d, (place (page.setAll a b c d)).combine virtAddr = physAddr)
    (hNoAccess : noAccess ↔ mmu.domainAccess domain = 0) : Agree virtAddr ring write noAccess
        (some (mmu.checkAccess domain ap xn ⟨ring, write, false⟩ domainFault permissionFault physAddr))
        ((mmu.fillDomainPerms page domain ap).map place) ↔ mmu.IsOpen domain := by
  unfold checkAccess fillDomainPerms IsOpen
  rw [hNoAccess]
  obtain hAccess | hAccess | hAccess | hAccess : mmu.domainAccess domain = 0 ∨ mmu.domainAccess domain = 1 ∨
      mmu.domainAccess domain = 2 ∨ mmu.domainAccess domain = 3 := by
    generalize mmu.domainAccess domain = access
    revert access
    decide
  · rw [hAccess]
    refine iff_of_false ?_ (by decide)
    rintro ⟨_, _, _, hTranslated, -, -, -, hNever⟩
    cases hTranslated
    exact hNever rfl rfl
  · rw [hAccess]
    refine iff_of_true ?_ (.inl rfl)
    obtain ⟨a, b, c, d, hFill⟩ := exists_fillAccessPerms page ap
    have hPermits := permits_fillAccessPerms page ap xn ring write
    rw [hPresent, Bool.true_and, hFill] at hPermits
    change Agree _ _ _ _ (some (if allowAccess ap xn ⟨ring, write, false⟩ then _ else _))
      (some (place (fillAccessPerms page ap)))
    rw [← hPermits, hFill]
    split
    · rename_i hAllowed
      refine ⟨_, _, _, rfl, rfl, iff_of_true rfl ((hPlace _).trans hAllowed), fun _ => ?_, fun hZero => ?_⟩
      · exact (hCombine a b c d).symm
      · exact absurd hZero (by decide)
    · rename_i hDenied
      refine ⟨_, _, _, rfl, rfl, iff_of_false hPermission ?_, fun hOk => absurd hOk hPermission, fun _ => hPermission⟩
      rw [hPlace]
      exact hDenied
  · rw [hAccess]
    refine iff_of_false ?_ (by decide)
    rintro ⟨_, _, _, -, hInfo, -⟩
    cases hInfo
  · rw [hAccess]
    refine iff_of_true ?_ (.inr rfl)
    refine ⟨_, _, _, rfl, rfl, iff_of_true rfl ?_, fun _ => (hCombine true true true true).symm, fun hZero => ?_⟩
    · rw [hPlace]
      simp [PageInfo.permits, PageInfo.setAll, hPresent]
    · exact absurd hZero (by decide)

end Page

/-- The low bits of an address are taken over into the frame, whatever was there. -/
theorem combine_frame {n : Nat} (hn : n ≤ 32) {low : BitVec 32} (hLow : ∀ i, low.getLsbD i = decide (i < n))
    {mask : Address} (hMask : ∀ i, mask.getLsbD i = decide (i < n)) (frame rest : BitVec 32) (virtAddr : Address) :
    (((frame &&& ~~~low) ||| (rest &&& low)).setWidth 64 &&& ~~~mask) ||| (virtAddr &&& mask) =
      ((frame &&& ~~~low) ||| (virtAddr.setWidth 32 &&& low)).setWidth 64 := by
  refine BitVec.eq_of_getLsbD_eq fun i hi => ?_
  simp only [BitVec.getLsbD_or, BitVec.getLsbD_and, BitVec.getLsbD_setWidth, BitVec.getLsbD_not, hLow, hMask, hi,
    decide_true, Bool.true_and]
  by_cases hi' : i < n
  · simp [hi', hi'.trans_le hn]
  · simp [hi']

theorem getLsbD_ones {w : Nat} (n : Nat) (hn : n ≤ w) (i : Nat) :
    (BitVec.ofNat w (2 ^ n - 1)).getLsbD i = decide (i < n) := by
  rw [BitVec.getLsbD_ofNat, Nat.testBit_two_pow_sub_one]
  by_cases hi : i < n
  · simp [hi, hi.trans_le hn]
  · simp [hi]

theorem agree_absent {virtAddr : Address} {ring : Nat} {write : Bool} {noAccess : Prop} {result : TranslateResult}
    (hFault : result ≠ .ok) {pi : PageInfo} (hAbsent : pi.present = false) :
    Agree virtAddr ring write noAccess (some (result, canary)) (some pi) := by
  have hDenied : pi.permits ring write = false := by rw [PageInfo.permits, hAbsent, Bool.false_and]
  refine ⟨result, canary, pi, rfl, rfl, iff_of_false hFault ?_, fun hOk => absurd hOk hFault, fun _ => hFault⟩
  rw [hDenied]
  exact Bool.false_ne_true

section Walks

variable {virtAddr : Address} {baseAddr : BitVec 32} {domain : BitVec 4} {noAccess : Prop}

theorem baseAddr_of_new {data : BitVec 32} {ap : BitVec 3} {xn : Bool}
    (hNew : TxL1Descriptor.new data = some (.wholeSection baseAddr domain ap xn)) :
    baseAddr = data &&& ~~~0xfffff#32 := by
  unfold TxL1Descriptor.new at hNew
  split at hNew
  · cases hNew
  · split at hNew
    · cases hNew
    · cases hNew
      rfl
  · cases hNew

theorem agree_section_iff {data : BitVec 32} {ap : BitVec 3} {xn : Bool}
    (hNew : TxL1Descriptor.new data = some (.wholeSection baseAddr domain ap xn))
    (hNoAccess : noAccess ↔ mmu.domainAccess domain = 0) (pi : PageInfo) (ring : Nat) (write : Bool) :
    Agree virtAddr ring write noAccess
        (some (mmu.translateSection (virtAddr.setWidth 32) baseAddr domain ap xn ⟨ring, write, false⟩))
        (mmu.getSectionInfo pi baseAddr domain ap) ↔ mmu.IsOpen domain := by
  rw [translateSection, ← id_eq (mmu.getSectionInfo pi baseAddr domain ap), ← Option.map_id]
  refine agree_page_iff (by decide) rfl (fun _ => rfl) (fun a b c d => ?_) hNoAccess
  have hFrame := combine_frame (by decide) (getLsbD_ones 20 (by decide)) (getLsbD_ones 20 (by decide))
    data 0#32 virtAddr
  rw [BitVec.zero_and, BitVec.or_zero] at hFrame
  rw [baseAddr_of_new hNew]
  exact hFrame

theorem agree_coarse_iff (hNoAccess : noAccess ↔ mmu.domainAccess domain = 0) (pi : PageInfo) (ring : Nat)
    (write : Bool) : Agree virtAddr ring write noAccess
        (some (mmu.translateCoarse (virtAddr.setWidth 32) baseAddr domain ⟨ring, write, false⟩))
        (mmu.getCoarseInfo pi (virtAddr.setWidth 32) baseAddr domain) ↔
      mmu.getL2DescriptorCoarse (virtAddr.setWidth 32) baseAddr = .fault ∨ mmu.IsOpen domain := by
  unfold translateCoarse getCoarseInfo
  cases mmu.getL2DescriptorCoarse (virtAddr.setWidth 32) baseAddr with
  | fault => exact iff_of_true (agree_absent (by decide) rfl) (.inl rfl)
  | large base ap xn =>
    rw [or_iff_right (by simp)]
    refine agree_page_iff (by decide) rfl (fun _ => rfl) (fun a b c d => ?_) hNoAccess
    exact combine_frame (by decide) (getLsbD_ones 16 (by decide)) (getLsbD_ones 16 (by decide)) base _ virtAddr
  | small base ap xn =>
    rw [or_iff_right (by simp)]
    refine agree_page_iff (by decide) rfl (fun _ => rfl) (fun a b c d => ?_) hNoAccess
    exact combine_frame (by decide) (getLsbD_ones 12 (by decide)) (getLsbD_ones 12 (by decide)) base _ virtAddr

end Walks

/-- The walks agree on an address exactly if it is regular, or there is no walk. -/
theorem walksAgree_iff (mmu : ARMv6MMU) (pi : PageInfo) (virtAddr : Address) (ring : Nat) (write : Bool) :
    mmu.WalksAgree pi virtAddr ring write ↔ (mmu.enabled = true → mmu.IsRegular virtAddr) := by
  unfold WalksAgree translate getInfo
  split
  · rename_i hEnabled
    rw [imp_iff_right hEnabled]
    cases hDescr : mmu.getL1Descriptor (virtAddr.setWidth 32) with
    | none =>
        refine iff_of_false ?_ ?_
        · rintro ⟨_, _, _, hTranslated, -⟩
          cases hTranslated
        · rintro ⟨_, hMem, -⟩
          rw [hDescr] at hMem
          cases hMem
    | some descr =>
        have hNoAccess : mmu.HasNoAccess virtAddr ↔ mmu.domainAccess descr.domain = 0 := by
          simp [HasNoAccess, hEnabled, hDescr]
        have hRegular : mmu.IsRegular virtAddr ↔ mmu.HasOpenDomain (virtAddr.setWidth 32) descr := by
          simp [IsRegular, hDescr]
        rw [hRegular]
        cases descr with
        | fault => exact iff_of_true (agree_absent (by decide) rfl) trivial
        | wholeSection baseAddr domain ap xn => exact agree_section_iff hDescr hNoAccess pi ring write
        | coarse baseAddr domain => exact agree_coarse_iff hNoAccess pi ring write
  · rename_i hDisabled
    refine iff_of_true ?_ fun hEnabled => absurd hEnabled hDisabled
    refine ⟨_, _, _, rfl, rfl, iff_of_true rfl ?_, fun _ => ?_, fun hNo => absurd hNo.1 hDisabled⟩
    · simp [PageInfo.permits, PageInfo.setAll]
    · change virtAddr = (virtAddr &&& ~~~0xf#64) ||| (virtAddr &&& 0xf#64)
      rw [← BitVec.and_or_distrib_left, show ~~~0xf#64 ||| 0xf#64 = BitVec.allOnes 64 by decide,
        BitVec.and_allOnes]

/-- All addresses are in sections of a domain without access. -/
def closedSections : ARMv6MMU := ⟨true, 0, 0, fun _ => 2⟩

theorem closed_section_translated :
    closedSections.translate 0 ⟨0, true, false⟩ = some (.ok, 0) ∧
      ¬ closedSections.WalksAgree (.new false false) 0 0 true := by
  have hTranslated : closedSections.translate 0 ⟨0, true, false⟩ = some (.ok, 0) := by decide
  refine ⟨hTranslated, ?_⟩
  rintro ⟨result, physAddr, pi, hResult, -, -, -, hNever⟩
  rw [hTranslated] at hResult
  cases hResult
  exact hNever ⟨rfl, _, rfl, by decide⟩ rfl

end ARMv6MMU

end Gensim.Devices
