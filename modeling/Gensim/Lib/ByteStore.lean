import Mathlib.Data.Nat.ModEq
import Mathlib.Tactic

/-! Byte-addressed stores with little-endian access of any width. A store is a
total function, so an access never fails; what a program may touch is a
separate obligation of its own. -/
namespace ByteStore

abbrev Store := Nat → BitVec 8

/-- Little-endian value of the `size` bytes from `offset` on. -/
def load (m : Store) (offset : Nat) : Nat → Nat
  | 0 => 0
  | size + 1 => (m offset).toNat + 256 * load m (offset + 1) size

/-- Replace exactly `size` bytes. Value bits above the width are dropped. -/
def store (m : Store) (offset size value : Nat) : Store := fun address =>
  if offset ≤ address ∧ address < offset + size then
    BitVec.ofNat 8 (value / 256 ^ (address - offset))
  else m address

theorem two_pow_eq (size : Nat) : 2 ^ (8 * size) = 256 ^ size := by
  rw [Nat.pow_mul]

theorem load_lt (m : Store) (offset size : Nat) : load m offset size < 256 ^ size := by
  induction size generalizing offset with
  | zero => simp [load]
  | succ size ih =>
    have hByte := (m offset).isLt
    have hRest := ih (offset + 1)
    simp only [load, Nat.pow_succ]
    omega

/-- A load depends only on the bytes it covers. -/
theorem load_congr {m m' : Store} {offset size : Nat}
    (h : ∀ address, offset ≤ address → address < offset + size → m address = m' address) :
    load m offset size = load m' offset size := by
  induction size generalizing offset with
  | zero => rfl
  | succ size ih =>
    have hHead := h offset (le_refl _) (by omega)
    have hTail : load m (offset + 1) size = load m' (offset + 1) size :=
      ih fun address hLow hHigh => h address (by omega) (by omega)
    simp only [load, hHead, hTail]

variable {m : Store} {offset size value address : Nat}

theorem store_apply_of_lt (h : address < offset) : store m offset size value address = m address := by
  simp [store, Nat.not_le.mpr h]

theorem store_apply_of_ge (h : offset + size ≤ address) : store m offset size value address = m address := by
  simp [store, Nat.not_lt.mpr h]

theorem store_apply_of_mem (hLow : offset ≤ address) (hHigh : address < offset + size) :
    store m offset size value address = BitVec.ofNat 8 (value / 256 ^ (address - offset)) := by
  simp [store, hLow, hHigh]

private theorem load_store_suffix (m : Store) (offset size value shift : Nat) :
    load (store m offset (shift + size) value) (offset + shift) size = value / 256 ^ shift % 256 ^ size := by
  induction size generalizing shift with
  | zero => simp [load, Nat.mod_one]
  | succ size ih =>
    have hTail := ih (shift + 1)
    rw [show shift + 1 + size = shift + (size + 1) by omega,
      show offset + (shift + 1) = offset + shift + 1 by omega] at hTail
    rw [load, hTail, store_apply_of_mem (by omega) (by omega)]
    have hSplit : value / 256 ^ shift % (256 * 256 ^ size) =
        value / 256 ^ shift % 256 + 256 * (value / 256 ^ shift / 256 % 256 ^ size) :=
      Nat.mod_mul
    rw [Nat.add_sub_cancel_left, BitVec.toNat_ofNat, pow_succ 256 shift, pow_succ 256 size,
      ← Nat.div_div_eq_div_mul, Nat.mul_comm (256 ^ size) 256, hSplit]

/-- Reading back exactly what was written gives the value at that width. -/
theorem load_store_self (m : Store) (offset size value : Nat) :
    load (store m offset size value) offset size = value % 256 ^ size := by
  simpa using load_store_suffix m offset size value 0

/-- A write elsewhere does not change a load. -/
theorem load_store_of_disjoint {offset size value offset' size' : Nat}
    (h : offset' + size' ≤ offset ∨ offset + size ≤ offset') :
    load (store m offset size value) offset' size' = load m offset' size' := by
  refine load_congr fun address hLow hHigh => ?_
  rcases h with h | h
  · exact store_apply_of_lt (by omega)
  · exact store_apply_of_ge (by omega)

/-- Disjoint writes commute. -/
theorem store_comm {offset size value offset' size' value' : Nat}
    (h : offset' + size' ≤ offset ∨ offset + size ≤ offset') : store (store m offset size value) offset' size' value' =
      store (store m offset' size' value') offset size value := by
  funext address
  by_cases hFirst : offset ≤ address ∧ address < offset + size
  · have hSecond : ¬ (offset' ≤ address ∧ address < offset' + size') := by omega
    simp [store, hFirst, hSecond]
  · simp [store, hFirst]

end ByteStore
