import Mathlib.Tactic

/-! Guest addresses and the pages they lie in. -/
namespace Gensim.Core

/-- An `archsim::Address`, a wrapped `uint64_t`. -/
abbrev Address := BitVec 64

namespace Address

def pageSize : Nat := 4096

def getPageOffset (address : Address) : Nat := address.toNat &&& 0xfff

def getPageIndex (address : Address) : Nat := address.toNat / pageSize

def pageBase (address : Address) : Address := address &&& ~~~0xfff#64

@[simp] theorem getPageOffset_eq (address : Address) : address.getPageOffset = address.toNat % pageSize :=
  Nat.and_two_pow_sub_one_eq_mod address.toNat 12

theorem toNat_pageBase (address : Address) : address.pageBase.toNat = address.getPageIndex * pageSize := by
  apply Nat.eq_of_testBit_eq
  intro bit
  have hMask : address.pageBase.toNat.testBit bit = (decide (12 ≤ bit) && address.toNat.testBit bit) := by
    change address.pageBase.getLsbD bit = (decide (12 ≤ bit) && address.getLsbD bit)
    by_cases hBit : bit < 64
    · rw [pageBase, BitVec.getLsbD_and, BitVec.getLsbD_not]
      have hOnes : (0xfff#64).getLsbD bit = decide (bit < 12) := Nat.testBit_two_pow_sub_one 12 bit
      rw [hOnes, decide_eq_true hBit, Bool.true_and, Bool.and_comm, ← decide_not]
      simp only [not_lt]
    · simp [BitVec.getLsbD_of_ge _ _ (not_lt.mp hBit)]
  rw [hMask, getPageIndex]
  change _ = (address.toNat / 2 ^ 12 * 2 ^ 12).testBit bit
  rw [Nat.testBit_mul_two_pow, Nat.testBit_div_two_pow]
  by_cases hBit : 12 ≤ bit
  · simp [hBit]
  · simp [hBit]

theorem toNat_eq (address : Address) : address.toNat = address.getPageIndex * pageSize + address.getPageOffset := by
  rw [getPageOffset_eq, getPageIndex]
  exact (Nat.div_add_mod' _ _).symm

theorem getPageOffset_lt (address : Address) : address.getPageOffset < pageSize := by
  rw [getPageOffset_eq]
  exact Nat.mod_lt _ (by decide)

/-- A page does not wrap around the address space. -/
theorem toNat_add_of_inPage {address : Address} {i : Nat} (hPage : address.getPageOffset + i < pageSize) :
    (address + BitVec.ofNat 64 i).toNat = address.toNat + i := by
  have hLt := address.isLt
  rw [getPageOffset_eq] at hPage
  rw [BitVec.toNat_add, BitVec.toNat_ofNat]
  unfold pageSize at hPage
  omega

theorem getPageIndex_add {address : Address} {i : Nat} (hPage : address.getPageOffset + i < pageSize) :
    (address + BitVec.ofNat 64 i).getPageIndex = address.getPageIndex := by
  unfold getPageIndex
  rw [toNat_add_of_inPage hPage]
  rw [getPageOffset_eq] at hPage
  unfold pageSize at hPage ⊢
  omega

theorem getPageOffset_add {address : Address} {i : Nat} (hPage : address.getPageOffset + i < pageSize) :
    (address + BitVec.ofNat 64 i).getPageOffset = address.getPageOffset + i := by
  rw [getPageOffset_eq, getPageOffset_eq, toNat_add_of_inPage hPage]
  rw [getPageOffset_eq] at hPage
  unfold pageSize at hPage ⊢
  omega

end Address

/-- A physical address, of the 32 bits that the tables with an entry for each page have room for. -/
abbrev PhysicalAddress := BitVec 32

namespace PhysicalAddress

def getPageIndex (address : PhysicalAddress) : Nat := address.toNat / Address.pageSize

def getPageOffset (address : PhysicalAddress) : Nat := address.toNat &&& 0xfff

end PhysicalAddress

end Gensim.Core
