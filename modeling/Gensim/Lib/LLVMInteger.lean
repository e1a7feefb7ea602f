import Mathlib.Data.Nat.Bitwise
import Mathlib.Tactic

/-! Integer values of LLVM and the operations a builder emits on them.  An operation whose
operands do not have the types it asks for cannot be built. -/
namespace LLVMInteger

/-- A value of the type `i`*width*; `none` is poison. -/
structure Value where
  width : Nat
  value : Option Nat
deriving DecidableEq, Repr

def constant (width n : Nat) : Value := ⟨width, some (n % 2 ^ width)⟩

def zextOrTrunc (v : Value) (width : Nat) : Value := ⟨width, v.value.map (· % 2 ^ width)⟩

/-- An operation on two operands of the same type.  Poison in an operand is poison in the result. -/
def binary (f : Nat → Nat → Nat → Option Nat) (a b : Value) : Option Value :=
  if a.width = b.width then some ⟨a.width, a.value.bind fun x => b.value.bind fun y => f a.width x y⟩
  else none

def and : Value → Value → Option Value := binary fun _ x y => some (x &&& y)
def or : Value → Value → Option Value := binary fun _ x y => some (x ||| y)
def sub : Value → Value → Option Value := binary fun w x y => some ((x + (2 ^ w - y)) % 2 ^ w)

/-! A shift by the width or more is poison. -/

def shl : Value → Value → Option Value :=
  binary fun w x y => if y < w then some (x * 2 ^ y % 2 ^ w) else none

def lshr : Value → Value → Option Value :=
  binary fun w x y => if y < w then some (x / 2 ^ y) else none

def toSigned (w x : Nat) : Int := if x < 2 ^ (w - 1) then x else x - 2 ^ w

def ashr : Value → Value → Option Value :=
  binary fun w x y => if y < w then some ((toSigned w x / 2 ^ y) % 2 ^ w).toNat else none

/-- A comparison gives an `i1`. -/
def icmp (p : Nat → Nat → Bool) (a b : Value) : Option Value :=
  if a.width = b.width then
    some ⟨1, a.value.bind fun x => b.value.bind fun y => some (if p x y then 1 else 0)⟩
  else none

/-- The operand that is not selected may be poison. -/
def select (c a b : Value) : Option Value :=
  if c.width = 1 ∧ a.width = b.width then
    some ⟨a.width, c.value.bind fun n => if n = 1 then a.value else b.value⟩
  else none

section Same

/-! Operands that have one type and are not poison. -/

variable {w x y : Nat}

@[simp]
theorem binary_same (f : Nat → Nat → Nat → Option Nat) : binary f ⟨w, some x⟩ ⟨w, some y⟩ = some ⟨w, f w x y⟩ := by
  simp [binary]

@[simp]
theorem icmp_same (p : Nat → Nat → Bool) :
    icmp p ⟨w, some x⟩ ⟨w, some y⟩ = some ⟨1, some (if p x y then 1 else 0)⟩ := by
  simp [icmp]

@[simp]
theorem select_same (n : Nat) (a b : Option Nat) :
    select ⟨1, some n⟩ ⟨w, a⟩ ⟨w, b⟩ = some ⟨w, if n = 1 then a else b⟩ := by
  simp [select]

end Same

/-- Two parts of a word that do not overlap: rotating by two shifts. -/
theorem or_shifts {w k x : Nat} (hk : k ≤ w) (hx : x < 2 ^ w) :
    x / 2 ^ k ||| x * 2 ^ (w - k) % 2 ^ w = (x * 2 ^ (w - k) + x / 2 ^ k) % 2 ^ w := by
  have hPow : 2 ^ w = 2 ^ k * 2 ^ (w - k) := by rw [← Nat.pow_add, Nat.add_sub_cancel' hk]
  have hLow : x / 2 ^ k < 2 ^ (w - k) := Nat.div_lt_of_lt_mul (hPow ▸ hx)
  have hHigh : x * 2 ^ (w - k) % 2 ^ w = 2 ^ (w - k) * (x % 2 ^ k) := by
    rw [hPow, Nat.mul_mod_mul_right, Nat.mul_comm]
  have hPart : x % 2 ^ k < 2 ^ k := Nat.mod_lt _ (Nat.two_pow_pos k)
  have hFits : 2 ^ (w - k) * (x % 2 ^ k) + x / 2 ^ k < 2 ^ w := calc
    _ < 2 ^ (w - k) * (x % 2 ^ k) + 2 ^ (w - k) := Nat.add_lt_add_left hLow _
    _ = 2 ^ (w - k) * (x % 2 ^ k + 1) := (Nat.mul_succ _ _).symm
    _ ≤ 2 ^ (w - k) * 2 ^ k := Nat.mul_le_mul_left _ hPart
    _ = 2 ^ w := by rw [hPow, Nat.mul_comm]
  have hSmall : x / 2 ^ k < 2 ^ w := hLow.trans_le (Nat.pow_le_pow_right (by decide) (Nat.sub_le w k))
  rw [hHigh, Nat.lor_comm, ← Nat.two_pow_add_eq_or_of_lt hLow, Nat.add_mod (x * _), hHigh,
    Nat.mod_eq_of_lt hSmall, Nat.mod_eq_of_lt hFits]

end LLVMInteger
