import Mathlib.Tactic

/-! Decoding of ARM instructions, with the condition that an IT instruction puts on those after it. -/
namespace Gensim.Arch

/-- What translation reads of a decoded instruction. -/
structure Decode where
  instrCode : BitVec 16
  ir : BitVec 32
  instrLength : Nat
  endOfBlock : Bool
  isaMode : Nat
  /-- The predicate info of an instruction that is predicated. -/
  predicate : Option (BitVec 32)
  deriving DecidableEq

/-- The `ITSTATE` register and the decode context's copy of it. -/
abbrev ITState := BitVec 8

namespace ITState

/-- The state after one more instruction. -/
def advance (itstate : ITState) : ITState :=
  let cond := itstate >>> 5
  let mask := ((itstate &&& 0x1f) <<< 1) &&& 0x1f
  if mask = 0x10 then 0 else (cond <<< 5) ||| mask

end ITState

namespace ARMDecodeContext

variable (decode : Decode) (itstate : ITState)

/-- The instruction word, from its upper half if it has 16 bits. -/
def word : BitVec 32 := if decode.instrLength = 2 then decode.ir >>> 16 else decode.ir

/-- The state that a Thumb instruction sets, if it is an IT instruction. -/
def itBits (mode : Nat) : Option ITState :=
  if mode ≠ 0 ∧ decode.instrLength = 2 ∧ word decode &&& 0xff00 = 0xbf00 then
    some ((word decode).setWidth 8)
  else none

/-- The state after an instruction. -/
def next (mode : Nat) : ITState := (itBits decode mode).getD (if itstate = 0 then 0 else itstate.advance)

def predicate (mode : Nat) : Option (BitVec 32) :=
  if mode = 0 ∧ word decode &&& 0xf0000000 < 0xe0000000 then some (word decode >>> 28)
  else if itstate = 0 then none
  else some (itstate.setWidth 32)

/-- `DecodeSync`, from what the decoder of the instruction set makes of the memory. -/
def decodeSync (mode : Nat) : Decode × ITState :=
  ({ decode with predicate := predicate decode itstate mode }, next decode itstate mode)

end ARMDecodeContext

end Gensim.Arch
