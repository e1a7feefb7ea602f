import Mathlib.Data.Nat.Bits
import Mathlib.Data.Nat.Size
import Mathlib.Tactic

/-! Values with a width in bytes, and the two's-complement reading of them. -/
namespace Gensim.BlockJIT

/-- A value as an instruction sees it, with its width in bytes. -/
structure Word where
  value : Nat
  size : Nat
  deriving DecidableEq, Repr

/-- The width in bits of a size in bytes. -/
def bits (size : Nat) : Nat := 8 * size

/-- The value in two's complement: the top bit counts negatively. -/
def toSigned (w : Word) : Int :=
  if w.value < 2 ^ (bits w.size - 1) then w.value else w.value - 2 ^ bits w.size

/-- The bits of an integer that fit into a size, the inverse of `toSigned`. -/
def ofSigned (size : Nat) (z : Int) : Nat := (z % 2 ^ bits size).toNat

/-- The result of a comparison, whatever the size of its destination. -/
def ofBool (b : Bool) : Nat := if b then 1 else 0

/-- The zeros above the highest bit that is set; all the bits if none is. -/
def leadingZeros (w : Word) : Nat := bits w.size - w.value.size

/-- The number of bits that are set. -/
def populationCount (w : Word) : Nat := (w.value.bits.filter id).length

/-- The bytes in reverse order: the lowest is put in first and ends on top. -/
def byteSwap (w : Word) : Nat :=
  (List.range w.size).foldl (fun acc k => acc * 256 + w.value / 256 ^ k % 256) 0

/-- A rotation by an amount that is taken modulo the width. The sum is not cut
to the width; a destination does that. -/
def rotateLeft (w : Word) (amount : Nat) : Nat :=
  let k := amount % bits w.size
  w.value * 2 ^ k + w.value / 2 ^ (bits w.size - k)

/-- What `ofSigned` gives can be stored at its size. -/
theorem ofSigned_lt (size : Nat) (z : Int) : ofSigned size z < 2 ^ bits size := by
  have hPos : (0 : Int) < 2 ^ bits size := by positivity
  have hLow := Int.emod_nonneg z hPos.ne'
  have hHigh := Int.emod_lt_of_pos z hPos
  unfold ofSigned
  zify
  rw [Int.toNat_of_nonneg hLow]
  exact_mod_cast hHigh

/-- For an integer that is not negative it is the truncation. -/
theorem ofSigned_natCast (size v : Nat) : ofSigned size v = v % 2 ^ bits size := by
  unfold ofSigned
  norm_cast

end Gensim.BlockJIT
