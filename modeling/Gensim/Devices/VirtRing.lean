import Mathlib.Tactic

/-! Where a VirtIO device looks for the rings of a queue. -/
namespace Gensim.Devices

/-- The addresses of the rings, in the memory of the host. -/
structure VirtRing where
  descriptors : BitVec 64
  avail : BitVec 64
  used : BitVec 64

namespace VirtRing

def setHostBaseAddress (baseAddress : BitVec 64) (size : BitVec 32) : VirtRing :=
  let avail := baseAddress + size.setWidth 64 * 16
  let availSize : BitVec 32 := (size.setWidth 64 * 2 + 4).setWidth 32
  let padding : BitVec 32 := 4096 - availSize % 4096
  ⟨baseAddress, avail, avail + availSize.setWidth 64 + padding.setWidth 64⟩

/-- The layout of the legacy interface, for `n` descriptors and an alignment of 4096 bytes. -/
structure Legacy (ring : VirtRing) (base : BitVec 64) (n : Nat) : Prop where
  descriptors : ring.descriptors = base
  avail : ring.avail = base + BitVec.ofNat 64 (16 * n)
  used : ∀ offset, IsLeast {m | 4096 ∣ m ∧ 16 * n + 2 * n + 6 ≤ m} offset → ring.used = base + BitVec.ofNat 64 offset

theorem avail_setHostBaseAddress (base : BitVec 64) {n : Nat} (hMax : n ≤ 1024) :
    (setHostBaseAddress base (BitVec.ofNat 32 n)).avail = base + BitVec.ofNat 64 (16 * n) := by
  refine congrArg (base + ·) (BitVec.eq_of_toNat_eq ?_)
  simp only [BitVec.ofNat_eq_ofNat, BitVec.toNat_mul, BitVec.toNat_setWidth, BitVec.toNat_ofNat]
  omega

theorem availSize_eq (n : Nat) :
    (((BitVec.ofNat 32 n).setWidth 64 * 2 + 4).setWidth 32 : BitVec 32) = BitVec.ofNat 32 (2 * n + 4) := by
  apply BitVec.eq_of_toNat_eq
  simp only [BitVec.ofNat_eq_ofNat, BitVec.toNat_add, BitVec.toNat_mul, BitVec.toNat_setWidth, BitVec.toNat_ofNat]
  omega

/-- The padding fills a page that starts with the available ring. -/
theorem used_setHostBaseAddress (base : BitVec 64) {n : Nat} (hMax : n ≤ 1024) :
    (setHostBaseAddress base (BitVec.ofNat 32 n)).used = base + BitVec.ofNat 64 (16 * n + 4096) := by
  have hPadding : (4096 - BitVec.ofNat 32 (2 * n + 4) % 4096 : BitVec 32) = BitVec.ofNat 32 (4092 - 2 * n) := by
    apply BitVec.eq_of_toNat_eq
    simp only [BitVec.ofNat_eq_ofNat, BitVec.toNat_sub, BitVec.toNat_umod, BitVec.toNat_ofNat, Nat.reducePow,
      Nat.reduceMod]
    omega
  have hFill : ((BitVec.ofNat 32 (2 * n + 4)).setWidth 64 + (BitVec.ofNat 32 (4092 - 2 * n)).setWidth 64 : BitVec 64) =
      4096#64 := by
    apply BitVec.eq_of_toNat_eq
    simp only [BitVec.toNat_add, BitVec.toNat_setWidth, BitVec.toNat_ofNat]
    omega
  have hUsed : (setHostBaseAddress base (BitVec.ofNat 32 n)).used =
      (setHostBaseAddress base (BitVec.ofNat 32 n)).avail +
        (((BitVec.ofNat 32 n).setWidth 64 * 2 + 4).setWidth 32 : BitVec 32).setWidth 64 +
        (4096 - (((BitVec.ofNat 32 n).setWidth 64 * 2 + 4).setWidth 32 : BitVec 32) % 4096 : BitVec 32).setWidth 64 := rfl
  rw [hUsed, availSize_eq, hPadding, BitVec.add_assoc, hFill, avail_setHostBaseAddress base hMax, BitVec.add_assoc,
    ← BitVec.ofNat_add]

theorem isLeast_alignUp (least : Nat) : IsLeast {m | 4096 ∣ m ∧ least ≤ m} ((least + 4095) / 4096 * 4096) := by
  refine ⟨⟨Nat.dvd_mul_left _ _, by omega⟩, ?_⟩
  rintro m ⟨⟨k, rfl⟩, hLe⟩
  omega

/-- The layout is the legacy one exactly if the table of descriptors fills its pages. -/
theorem legacy_iff_dvd (base : BitVec 64) {n : Nat} (hPos : 0 < n) (hMax : n ≤ 1024) :
    (setHostBaseAddress base (BitVec.ofNat 32 n)).Legacy base n ↔ 256 ∣ n := by
  have hLeast := isLeast_alignUp (16 * n + 2 * n + 6)
  have hUsed : base + BitVec.ofNat 64 (16 * n + 4096) =
      base + BitVec.ofNat 64 ((16 * n + 2 * n + 6 + 4095) / 4096 * 4096) ↔ 256 ∣ n := by
    rw [BitVec.add_right_inj, ← BitVec.toNat_inj, BitVec.toNat_ofNat, BitVec.toNat_ofNat,
      Nat.mod_eq_of_lt (by omega), Nat.mod_eq_of_lt (by omega)]
    omega
  constructor
  · intro hLegacy
    rw [← hUsed, ← used_setHostBaseAddress base hMax]
    exact hLegacy.used _ hLeast
  · intro hPages
    refine ⟨rfl, avail_setHostBaseAddress base hMax, fun offset hOffset => ?_⟩
    rw [used_setHostBaseAddress base hMax, hOffset.unique hLeast]
    exact hUsed.mpr hPages

end VirtRing

/-- The registers that set up a queue. -/
inductive QueueRegister where
  | queueNum | queueAlign | queuePFN

/-- What the registers set up. There are no rings before the queue has an address. -/
structure QueueSetup where
  size : BitVec 32
  align : BitVec 32
  ring : Option VirtRing

namespace QueueSetup

/-- The registers of a queue in `VirtIO::WriteRegister`. `lockRegion` gives the host address of a page of the guest,
and there is no result where an assertion fails. -/
def writeRegister (lockRegion : BitVec 32 → Option (BitVec 64)) (queue : QueueSetup) :
    QueueRegister → BitVec 32 → Option QueueSetup
  | .queueNum, value => some { queue with size := value }
  | .queueAlign, value => some { queue with align := value }
  -- a page of zero resets the device, which leaves its queues as they are
  | .queuePFN, value =>
      if value = 0 then some queue
      else do
        let base ← lockRegion value
        if queue.size = 0 then none
        else some { queue with ring := some (.setHostBaseAddress base queue.size) }

/-- A driver sets up a queue of `n` descriptors with an alignment of 4096 bytes. -/
def setUp (lockRegion : BitVec 32 → Option (BitVec 64)) (queue : QueueSetup) (n : Nat) (page : BitVec 32) :
    Option QueueSetup := do
  let queue ← queue.writeRegister lockRegion .queueNum (BitVec.ofNat 32 n)
  let queue ← queue.writeRegister lockRegion .queueAlign 4096
  queue.writeRegister lockRegion .queuePFN page

theorem setUp_eq_some {lockRegion : BitVec 32 → Option (BitVec 64)} (queue : QueueSetup) {n : Nat} {page : BitVec 32}
    {base : BitVec 64} (hLock : lockRegion page = some base) (hPage : page ≠ 0) (hPos : 0 < n) (hMax : n ≤ 1024) :
    queue.setUp lockRegion n page =
      some ⟨BitVec.ofNat 32 n, 4096, some (.setHostBaseAddress base (BitVec.ofNat 32 n))⟩ := by
  have hSize : BitVec.ofNat 32 n ≠ 0 := by
    rw [ne_eq, ← BitVec.toNat_inj, BitVec.toNat_ofNat]
    simp only [BitVec.ofNat_eq_ofNat, BitVec.toNat_ofNat]
    omega
  simp only [setUp, writeRegister, Option.bind_eq_bind, Option.bind_some, if_neg hPage, if_neg hSize, hLock]

/-- The rings of a queue are at the places that a driver gives them. -/
def LegacyLayout (lockRegion : BitVec 32 → Option (BitVec 64)) (queue : QueueSetup) (n : Nat) (page : BitVec 32) :
    Prop :=
  ∀ base, lockRegion page = some base →
    ∃ ring after, queue.setUp lockRegion n page = some after ∧ after.ring = some ring ∧ ring.Legacy base n

/-- A queue of a power of two of descriptors, at most 1024, has the legacy layout exactly if it has at least 256. -/
theorem legacyLayout_iff {lockRegion : BitVec 32 → Option (BitVec 64)} (queue : QueueSetup) {n : Nat} {page : BitVec 32}
    {base : BitVec 64} (hLock : lockRegion page = some base) (hPage : page ≠ 0) (hPower : ∃ k, n = 2 ^ k)
    (hMax : n ≤ 1024) : queue.LegacyLayout lockRegion n page ↔ 256 ≤ n := by
  obtain ⟨k, rfl⟩ := hPower
  have hPos : 0 < 2 ^ k := Nat.two_pow_pos k
  have hDvd : 256 ∣ 2 ^ k ↔ 256 ≤ 2 ^ k := by
    rw [show 256 = 2 ^ 8 from rfl, Nat.pow_dvd_pow_iff_le_right', Nat.pow_le_pow_iff_right (by decide)]
  rw [← hDvd, ← VirtRing.legacy_iff_dvd base hPos hMax]
  have hSetUp := queue.setUp_eq_some hLock hPage hPos hMax
  constructor
  · intro hLayout
    obtain ⟨ring, after, hAfter, hRing, hLegacy⟩ := hLayout base hLock
    cases hSetUp.symm.trans hAfter
    cases hRing
    exact hLegacy
  · intro hLegacy other hOther
    cases hLock.symm.trans hOther
    exact ⟨_, _, hSetUp, rfl, hLegacy⟩

theorem legacyLayout_of_256 : QueueSetup.LegacyLayout (fun _ => some 0x10000) ⟨0, 0, none⟩ 256 1 :=
  (legacyLayout_iff _ rfl (by decide) ⟨8, rfl⟩ (by decide)).mpr le_rfl

/-- For 128 descriptors the used ring is looked for half a page too late. -/
theorem used_ring_misplaced : ¬ QueueSetup.LegacyLayout (fun _ => some 0x10000) ⟨0, 0, none⟩ 128 1 := by
  intro hLayout
  obtain ⟨ring, after, hAfter, hRing, hLegacy⟩ := hLayout _ rfl
  cases hAfter
  cases hRing
  have hUsed := hLegacy.used 4096 ⟨⟨dvd_rfl, by decide⟩, fun m hm => Nat.le_of_dvd (by have := hm.2; omega) hm.1⟩
  revert hUsed
  decide

end QueueSetup
end Gensim.Devices
