import Mathlib.Tactic
import Gensim.Lib.BitPattern

/-! Bit fields and the conversion between numbers and their binary text, as the
generator's utilities compute them on 32-bit words. -/
namespace Gensim

open BitPattern

/-- `UNSIGNED_BITS(v, u, l)`: bits `u` down to `l`. -/
def unsignedBits (v : BitVec 32) (u l : Nat) : BitVec 32 := (v <<< (31 - u)) >>> (31 - u + l)

namespace Util

def parseLoop : List BitChar → BitVec 32 → BitVec 32 → BitVec 32
  | [], val, _ => val
  | c :: rest, val, bit => parseLoop rest (if c = .one then val + bit else val) (bit >>> 1)

def parseBinary (str : List BitChar) : BitVec 32 := parseLoop str 0 ((1 : BitVec 32) <<< (str.length - 1))

def formatLoop : Nat → BitVec 32 → BitVec 32 → List BitChar
  | 0, _, _ => []
  | width + 1, x, i =>
      if x &&& i ≠ 0 then .one :: formatLoop width (x - i) (i >>> 1)
      else .zero :: formatLoop width x (i >>> 1)

def formatBinary (x : BitVec 32) (width : Nat) : List BitChar :=
  formatLoop width x ((1 : BitVec 32) <<< (width - 1))

end Util

variable {v : BitVec 32}

theorem unsignedBits_eq_field {start len : Nat} (hPos : 1 ≤ len) (hRange : start + len ≤ 32) :
    unsignedBits v (31 - start) (31 - start + 1 - len) = field v start len := by
  rw [unsignedBits, field]
  congr 1
  · congr 1
    omega
  · omega

/-- The leading `p` bits of a value of `len` bits. -/
theorem unsignedBits_high {len p : Nat} (hPos : 1 ≤ len) (hLen : len ≤ 32) (hP : p ≤ len) :
    unsignedBits v (len - 1) (len - p) = field v (32 - len) p := by
  rw [unsignedBits, field, show 31 - (len - 1) = 32 - len by omega,
    show 32 - len + (len - p) = 32 - p by omega]

/-- The last `len` bits of a value. -/
theorem unsignedBits_low {len : Nat} (hPos : 1 ≤ len) (hLen : len ≤ 32) :
    unsignedBits v (len - 1) 0 = field v (32 - len) len := by
  rw [unsignedBits, field, show 31 - (len - 1) = 32 - len by omega]
  rfl

/-- A value of `len` bits is written as its leading bits followed by its last ones. -/
theorem constant_split {len p : Nat} (hLen : len ≤ 32) (hP : p ≤ len) : constant len v =
      constant p (field v (32 - len) p) ++ constant (len - p) (field v (32 - (len - p)) (len - p)) := by
  have hAdd := constant_add p (len - p) v
  rw [show p + (len - p) = len by omega] at hAdd
  rw [hAdd]
  congr 1
  · refine constant_eq_iff.mpr fun i hi => ?_
    rw [getLsbD_field (by omega) hi, BitVec.getLsbD_ushiftRight, BitVec.getMsbD]
    simp only [show 32 - len + (p - 1 - i) < 32 by omega, decide_true, Bool.true_and]
    congr 1
    omega
  · refine constant_eq_iff.mpr fun i hi => ?_
    rw [getLsbD_field (by omega) hi, BitVec.getMsbD]
    simp only [show 32 - (len - p) + (len - p - 1 - i) < 32 by omega, decide_true, Bool.true_and]
    congr 1
    omega

namespace Util

/-- The number that a bit string writes. -/
def number : List BitChar → Nat
  | [] => 0
  | c :: rest => (if c = .one then 2 ^ rest.length else 0) + number rest

theorem number_lt (str : List BitChar) : number str < 2 ^ str.length := by
  induction str with
  | nil => decide
  | cons c rest ih =>
    simp only [number, List.length_cons, Nat.pow_succ]
    split <;> omega

variable {str : List BitChar}

theorem toNat_parseLoop {val bit : BitVec 32} (hBit : ∀ c rest, str = c :: rest → bit.toNat = 2 ^ rest.length)
    (hRoom : val.toNat + 2 ^ str.length ≤ 2 ^ 32) : (parseLoop str val bit).toNat = val.toNat + number str := by
  induction str generalizing val bit with
  | nil => rfl
  | cons c rest ih =>
    have hNow := hBit c rest rfl
    have hShift : ∀ d tail, rest = d :: tail → (bit >>> 1).toNat = 2 ^ tail.length := by
      rintro d tail rfl
      rw [BitVec.toNat_ushiftRight, hNow, Nat.shiftRight_one, List.length_cons, Nat.pow_succ]
      omega
    rw [List.length_cons, Nat.pow_succ] at hRoom
    have hAdd : (val + bit).toNat = val.toNat + 2 ^ rest.length := by
      rw [BitVec.toNat_add, hNow, Nat.mod_eq_of_lt]
      have := Nat.two_pow_pos rest.length
      omega
    simp only [parseLoop, number]
    split
    · rw [ih hShift (by omega), hAdd, Nat.add_assoc]
    · rw [ih hShift (by omega)]
      omega

theorem toNat_parseBinary (hLen : str.length ≤ 32) : (parseBinary str).toNat = number str := by
  have hPow : 2 ^ str.length ≤ 2 ^ 32 := Nat.pow_le_pow_right (by decide) hLen
  rw [parseBinary, toNat_parseLoop _ (by simpa using hPow)]
  · simp
  · rintro c rest rfl
    have hSmall : 2 ^ rest.length < 2 ^ 32 := Nat.pow_lt_pow_right (by decide) (by simpa using hLen)
    rw [List.length_cons, Nat.add_sub_cancel, BitVec.toNat_shiftLeft, Nat.shiftLeft_eq]
    simpa using Nat.mod_eq_of_lt hSmall

theorem parseBinary_lt (hLen : str.length ≤ 32) : (parseBinary str).toNat < 2 ^ str.length := by
  rw [toNat_parseBinary hLen]
  exact number_lt str

theorem constant_number (hAny : BitChar.any ∉ str) {v : BitVec 32} (high : Nat)
    (hValue : v.toNat = 2 ^ str.length * high + number str) : constant str.length v = str := by
  induction str generalizing high with
  | nil => rfl
  | cons c rest ih =>
    simp only [List.mem_cons, not_or] at hAny
    have hBelow := number_lt rest
    obtain ⟨top, hTop, hChar⟩ : ∃ top, v.toNat = 2 ^ rest.length * top + number rest ∧ ofBool (top.testBit 0) = c := by
      simp only [number, List.length_cons, Nat.pow_succ] at hValue
      cases c with
      | zero => exact ⟨2 * high, by rw [hValue]; simp; ring, by simp [ofBool]⟩
      | one => exact ⟨2 * high + 1, by rw [hValue]; simp; ring, by simp [ofBool]⟩
      | any => exact absurd rfl hAny.1
    rw [List.length_cons, constant, ih hAny.2 top hTop, BitVec.getLsbD, hTop, Nat.testBit_two_pow_mul_add top hBelow]
    simpa using hChar

/-- A bit string without don't-cares is the number it parses to, written out. -/
theorem constant_parseBinary (hLen : str.length ≤ 32) (hAny : BitChar.any ∉ str) :
    constant str.length (parseBinary str) = str := by
  apply constant_number hAny 0
  rw [toNat_parseBinary hLen]
  simp

variable {width : Nat}

/-- Taking a bit off a value leaves the bits below it. -/
theorem constant_sub_twoPow (x : BitVec 32) (hWidth : width < 32) :
    constant width (x - BitVec.twoPow 32 width) = constant width x := by
  have hDvd : 2 ^ width ∣ 2 ^ 32 := Nat.pow_dvd_pow 2 (by omega)
  have hMultiple : 2 ^ width ∣ 2 ^ 32 - 2 ^ width := Nat.dvd_sub hDvd (dvd_refl _)
  have hMod : (x - BitVec.twoPow 32 width).toNat % 2 ^ width = x.toNat % 2 ^ width := by
    rw [BitVec.toNat_sub, BitVec.toNat_twoPow_of_lt hWidth, Nat.mod_mod_of_dvd _ hDvd,
      Nat.add_mod, Nat.mod_eq_zero_of_dvd hMultiple, Nat.zero_add, Nat.mod_mod]
  refine constant_eq_iff.mpr fun i hi => ?_
  have hBit := congrArg (fun m => m.testBit i) hMod
  simpa [Nat.testBit_mod_two_pow, hi, BitVec.getLsbD] using hBit

theorem twoPow_ushiftRight_one (hWidth : width + 1 < 32) :
    BitVec.twoPow 32 (width + 1) >>> 1 = BitVec.twoPow 32 width := by
  apply BitVec.eq_of_toNat_eq
  rw [BitVec.toNat_ushiftRight, BitVec.toNat_twoPow_of_lt hWidth,
    BitVec.toNat_twoPow_of_lt (by omega), Nat.shiftRight_one, Nat.pow_succ]
  omega

theorem and_twoPow_ne_zero (hWidth : width < 32) (x : BitVec 32) :
    x &&& BitVec.twoPow 32 width ≠ 0 ↔ x.getLsbD width = true := by
  have hNonzero : BitVec.twoPow 32 width ≠ 0 := by
    intro h
    have hNat := congrArg BitVec.toNat h
    rw [BitVec.toNat_twoPow_of_lt hWidth] at hNat
    exact (Nat.two_pow_pos width).ne' hNat
  rw [BitVec.and_twoPow]
  cases x.getLsbD width with
  | false => simp
  | true => simpa using hNonzero

theorem formatLoop_eq (hWidth : width < 32) (x : BitVec 32) :
    formatLoop (width + 1) x (BitVec.twoPow 32 width) = constant (width + 1) x := by
  induction width generalizing x with
  | zero =>
    simp only [formatLoop, constant, and_twoPow_ne_zero hWidth, ofBool]
    split <;> rfl
  | succ width ih =>
    rw [formatLoop, twoPow_ushiftRight_one hWidth, constant]
    simp only [and_twoPow_ne_zero hWidth, ih (Nat.lt_of_succ_lt hWidth), constant_sub_twoPow x hWidth, ofBool]
    split <;> rfl

theorem formatBinary_eq {x : BitVec 32} (hWidth : width ≤ 32) : formatBinary x width = constant width x := by
  cases width with
  | zero => rfl
  | succ width =>
    rw [formatBinary, Nat.add_sub_cancel, ← formatLoop_eq (by omega)]
    rfl

theorem length_formatBinary (x : BitVec 32) (width : Nat) : (formatBinary x width).length = width := by
  suffices h : ∀ x i, (formatLoop width x i).length = width from h x _
  induction width with
  | zero => intros; rfl
  | succ width ih =>
    intro x i
    simp only [formatLoop]
    split <;> simp [ih]

end Util

end Gensim
