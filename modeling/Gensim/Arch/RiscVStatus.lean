import Mathlib.Tactic

/-! The status register of the RISC-V system coprocessor, and its machine and supervisor views. -/
namespace Gensim.Arch

/-- `BITSEL` -/
def bitsel (v : BitVec 64) (b : Nat) : BitVec 64 := (v >>> b) &&& 1

/-- `UNSIGNED_BITS_64` -/
def unsignedBits64 (v : BitVec 64) (u l : Nat) : BitVec 64 := (v <<< (63 - u)) >>> (63 - u + l)

/-- `STATUS_t`. The fields that are a `uint8_t` there only ever take slices of two bits. -/
@[ext] structure StatusRegister where
  sd : Bool
  sxl : BitVec 2
  uxl : BitVec 2
  tsr : Bool
  tw : Bool
  tvm : Bool
  mxr : Bool
  sum : Bool
  mprv : Bool
  xs : BitVec 2
  fs : BitVec 2
  mpp : BitVec 2
  spp : Bool
  mpie : Bool
  spie : Bool
  upie : Bool
  mie : Bool
  sie : Bool
  uie : Bool
deriving DecidableEq

namespace StatusRegister

def new : StatusRegister where
  sd := false
  sxl := 0
  uxl := 0
  tsr := false
  tw := false
  tvm := false
  mxr := false
  sum := false
  mprv := false
  xs := 0
  fs := 0
  mpp := 0
  spp := false
  mpie := false
  spie := false
  upie := false
  mie := false
  sie := false
  uie := false

/-- A flag at its place in the register. -/
def flag (b : Bool) (place : Nat) : BitVec 64 := (BitVec.ofBool b).setWidth 64 <<< place

/-- A field of two bits at its place in the register. -/
def field (f : BitVec 2) (place : Nat) : BitVec 64 := f.setWidth 64 <<< place

/-- The two bits of a slice, as they are assigned to a field. -/
def slice (data : BitVec 64) (u l : Nat) : BitVec 2 := (unsignedBits64 data u l).setWidth 2

variable (status : StatusRegister) (data : BitVec 64)

def readMSTATUS : BitVec 64 :=
  flag status.sd 63 ||| field status.sxl 34 ||| field status.uxl 32 ||| flag status.tsr 22 |||
    flag status.tw 21 ||| flag status.tvm 20 ||| flag status.mxr 19 ||| flag status.sum 18 |||
    flag status.mprv 17 ||| field status.xs 15 ||| field status.fs 13 ||| field status.mpp 11 |||
    flag status.spp 8 ||| flag status.mpie 7 ||| flag status.spie 5 ||| flag status.upie 4 |||
    flag status.mie 3 ||| flag status.sie 1 ||| flag status.uie 0

/-- The fields after the write, and whether both translation caches are told to flush. -/
def writeMSTATUS : StatusRegister × Bool :=
  ({ sd := unsignedBits64 data 63 62 != 0#64
     sxl := slice data 34 33
     uxl := slice data 32 31
     tsr := bitsel data 22 != 0#64
     tw := bitsel data 21 != 0#64
     tvm := bitsel data 20 != 0#64
     mxr := bitsel data 19 != 0#64
     sum := bitsel data 18 != 0#64
     mprv := bitsel data 17 != 0#64
     xs := slice data 16 15
     fs := slice data 14 13
     mpp := slice data 12 11
     spp := bitsel data 8 != 0#64
     mpie := bitsel data 7 != 0#64
     spie := bitsel data 5 != 0#64
     upie := bitsel data 4 != 0#64
     mie := bitsel data 3 != 0#64
     sie := bitsel data 1 != 0#64
     uie := bitsel data 0 != 0#64 },
    status.sum != (bitsel data 18 != 0#64) || (bitsel data 17 != 0#64) != status.mprv)

def readSSTATUS : BitVec 64 :=
  flag status.sd 63 ||| field status.uxl 32 ||| flag status.mxr 19 ||| flag status.sum 18 |||
    field status.xs 15 ||| field status.fs 13 ||| flag status.spp 8 ||| flag status.spie 5 |||
    flag status.upie 4 ||| flag status.sie 1 ||| flag status.uie 0

def writeSSTATUS : StatusRegister × Bool :=
  ({ status with
     sd := unsignedBits64 data 63 62 != 0#64
     uxl := slice data 32 31
     mxr := bitsel data 19 != 0#64
     sum := bitsel data 18 != 0#64
     xs := slice data 16 15
     fs := slice data 14 13
     spp := bitsel data 8 != 0#64
     spie := bitsel data 5 != 0#64
     upie := bitsel data 4 != 0#64
     sie := bitsel data 1 != 0#64
     uie := bitsel data 0 != 0#64 },
    (bitsel data 18 != 0#64) != status.sum)

/-- A write of either view. -/
inductive Write where
  | mstatus (data : BitVec 64)
  | sstatus (data : BitVec 64)

def perform : Write → StatusRegister
  | .mstatus data => (status.writeMSTATUS data).1
  | .sstatus data => (status.writeSSTATUS data).1

/-- The fields that the supervisor does not see. -/
def hidden : Bool × Bool × Bool × Bool × Bool × Bool × BitVec 2 × BitVec 2 :=
  (status.tsr, status.tw, status.tvm, status.mprv, status.mpie, status.mie, status.sxl, status.mpp)

/-- What is read from a view can be written back without any change, and the supervisor changes no field
that it does not see. -/
def ViewsFaithful : Prop :=
  (status.writeMSTATUS status.readMSTATUS).1 = status ∧
    (status.writeSSTATUS status.readSSTATUS).1 = status ∧
    ∀ data, (status.writeSSTATUS data).1.hidden = status.hidden

/-! ### Bits -/

@[simp] theorem bitsel_ne_zero (b : Nat) : (bitsel data b != 0#64) = data.getLsbD b := by
  have hBit : bitsel data b = (BitVec.ofBool (data.getLsbD b)).setWidth 64 := by
    refine BitVec.eq_of_getLsbD_eq fun i hi => ?_
    cases i with
    | zero => simp [bitsel]
    | succ i => simp [bitsel, BitVec.getLsbD_one]
  rw [hBit]
  cases data.getLsbD b <;> rfl

theorem getLsbD_slice {l : Nat} (hl : l < 63) {i : Nat} (hi : i < 2) :
    (slice data (l + 1) l).getLsbD i = data.getLsbD (l + i) := by
  have hPlace : 63 - (l + 1) + l + i - (63 - (l + 1)) = l + i := by omega
  have hSize : 63 - (l + 1) + l + i < 64 := by omega
  have hAbove : ¬ 63 - (l + 1) + l + i < 63 - (l + 1) := by omega
  simp only [slice, unsignedBits64, BitVec.getLsbD_setWidth, BitVec.getLsbD_ushiftRight,
    BitVec.getLsbD_shiftLeft, hPlace, hi, hSize, hAbove, decide_true, decide_false, Bool.not_false, Bool.true_and]

/-- A slice of two bits that are known is the field that has them. -/
theorem slice_eq {data : BitVec 64} {l : Nat} (hl : l < 63) {f : BitVec 2}
    (hLow : data.getLsbD l = f.getLsbD 0) (hHigh : data.getLsbD (l + 1) = f.getLsbD 1) : slice data (l + 1) l = f := by
  refine BitVec.eq_of_getLsbD_eq fun i hi => ?_
  rw [getLsbD_slice data hl hi]
  interval_cases i
  · exact hLow
  · exact hHigh

theorem top_ne_zero : (unsignedBits64 data 63 62 != 0#64) = (data.getLsbD 63 || data.getLsbD 62) := by
  have hBit (i : Nat) : (unsignedBits64 data 63 62).getLsbD i = data.getLsbD (62 + i) := by
    rw [unsignedBits64, BitVec.getLsbD_ushiftRight, BitVec.shiftLeft_zero]
  rw [Bool.eq_iff_iff, bne_iff_ne, Bool.or_eq_true]
  constructor
  · intro hTop
    by_contra hNone
    rw [not_or, Bool.not_eq_true, Bool.not_eq_true] at hNone
    refine hTop (BitVec.eq_of_getLsbD_eq fun i hi => ?_)
    rw [hBit, BitVec.getLsbD_zero]
    match i with
    | 0 => exact hNone.2
    | 1 => exact hNone.1
    | i + 2 => exact BitVec.getLsbD_of_ge _ _ (by omega)
  · rintro (hHigh | hLow) hZero
    · cases (hBit 1).symm.trans (congrArg (BitVec.getLsbD · 1) hZero) ▸ hHigh
    · cases (hBit 0).symm.trans (congrArg (BitVec.getLsbD · 0) hZero) ▸ hLow

theorem getLsbD_flag (b : Bool) {place : Nat} (hPlace : place < 64) (i : Nat) :
    (flag b place).getLsbD i = (i == place && b) := by
  rcases lt_trichotomy i place with hBelow | rfl | hAbove
  · simp [flag, hBelow, hBelow.ne]
  · simp [flag, hPlace]
  · have hFar : i - place ≠ 0 := by omega
    simp [flag, hAbove.ne', hFar]

theorem getLsbD_field (f : BitVec 2) {place : Nat} (hPlace : place < 63) (i : Nat) :
    (field f place).getLsbD i = (i == place && f.getLsbD 0 || i == place + 1 && f.getLsbD 1) := by
  rcases lt_trichotomy i place with hBelow | rfl | hAbove
  · simp [field, hBelow, hBelow.ne, show i ≠ place + 1 by omega]
  · simp [field, show i < 64 by omega]
  · rcases eq_or_ne i (place + 1) with rfl | hFar
    · simp [field, show place + 1 < 64 by omega]
    · have hPast : f.getLsbD (i - place) = false := BitVec.getLsbD_of_ge f _ (by omega)
      simp [field, hAbove.ne', hFar, hPast]

/-! ### Writing back -/

/-- Both lengths are written one bit below where they are read. -/
theorem writeMSTATUS_readMSTATUS : (status.writeMSTATUS status.readMSTATUS).1 =
      { status with sxl := status.sxl <<< 1 ||| status.uxl >>> 1, uxl := status.uxl <<< 1 } := by
  have hBit (i : Nat) := congrArg (BitVec.getLsbD · i) (readMSTATUS.eq_def status)
  simp (disch := decide) only [BitVec.getLsbD_or, getLsbD_flag, getLsbD_field] at hBit
  ext1
  case sxl => exact slice_eq (by decide) ((hBit 33).trans (by simp)) ((hBit 34).trans (by simp))
  case uxl => exact slice_eq (by decide) ((hBit 31).trans (by simp)) ((hBit 32).trans (by simp))
  case xs => exact slice_eq (by decide) ((hBit 15).trans (by simp)) ((hBit 16).trans (by simp))
  case fs => exact slice_eq (by decide) ((hBit 13).trans (by simp)) ((hBit 14).trans (by simp))
  case mpp => exact slice_eq (by decide) ((hBit 11).trans (by simp)) ((hBit 12).trans (by simp))
  all_goals simp only [writeMSTATUS, top_ne_zero, bitsel_ne_zero, hBit]
  all_goals simp

theorem writeSSTATUS_readSSTATUS :
    (status.writeSSTATUS status.readSSTATUS).1 = { status with uxl := status.uxl <<< 1 } := by
  have hBit (i : Nat) := congrArg (BitVec.getLsbD · i) (readSSTATUS.eq_def status)
  simp (disch := decide) only [BitVec.getLsbD_or, getLsbD_flag, getLsbD_field] at hBit
  ext1
  case uxl => exact slice_eq (by decide) ((hBit 31).trans (by simp)) ((hBit 32).trans (by simp))
  case xs => exact slice_eq (by decide) ((hBit 15).trans (by simp)) ((hBit 16).trans (by simp))
  case fs => exact slice_eq (by decide) ((hBit 13).trans (by simp)) ((hBit 14).trans (by simp))
  all_goals simp only [writeSSTATUS, top_ne_zero, bitsel_ne_zero, hBit]
  all_goals simp

/-- Moved up by one bit, two lengths stay as they are only if they are zero. -/
theorem lengths_kept_iff (sxl uxl : BitVec 2) :
    sxl <<< 1 ||| uxl >>> 1 = sxl ∧ uxl <<< 1 = uxl ↔ sxl = 0 ∧ uxl = 0 := by
  revert sxl uxl
  decide

/-- In the states that writes lead to, the views are faithful exactly if both lengths are zero. -/
theorem viewsFaithful_iff (writes : List Write) :
    (writes.foldl perform new).ViewsFaithful ↔
      (writes.foldl perform new).sxl = 0 ∧ (writes.foldl perform new).uxl = 0 := by
  generalize writes.foldl perform new = status
  rw [← lengths_kept_iff, ViewsFaithful, writeMSTATUS_readMSTATUS, writeSSTATUS_readSSTATUS]
  constructor
  · rintro ⟨hMachine, -, -⟩
    exact ⟨congrArg sxl hMachine, congrArg uxl hMachine⟩
  · rintro ⟨hSxl, hUxl⟩
    rw [hSxl, hUxl]
    exact ⟨rfl, rfl, fun data => rfl⟩

theorem not_viewsFaithful_two : ¬ ([.mstatus (1 <<< 33)].foldl perform new).ViewsFaithful := by
  rintro ⟨hMachine, -, -⟩
  revert hMachine
  decide

end StatusRegister

end Gensim.Arch
