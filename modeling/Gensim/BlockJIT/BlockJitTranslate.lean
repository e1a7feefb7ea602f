import Gensim.Arch.ARMDecodeContext
import Gensim.Core.Address
import Gensim.Core.ProcessorFeatures
import Gensim.Lib.Loop

/-! How the block JIT makes the intermediate form of a block of ARM code. The code generated for an
architecture (the decoder, the jump information and the translation of single instructions) stands as
parameters. -/
namespace Gensim.BlockJIT

open Arch Core

/-- What the generated translation of an instruction does: calls of the IR builder, which may return a
register or a block, and of the translator's own functions. -/
inductive Emit (β : Type*) where
  | done
  | build (call : β → Nat × β) (next : Nat → Emit β)
  | getFeatureLevel (feature : BitVec 32) (next : BitVec 32 → Emit β)
  | setFeatureLevel (feature level : BitVec 32) (call : β → β) (next : Emit β)
  | invalidateFeatures (next : Emit β)
  | setIsaMode (mode : Option Nat) (call : β → β) (next : Emit β)

structure JumpInfo where
  isIndirect : Bool
  isConditional : Bool
  jumpTarget : Address

/-- What is generated for an architecture, over memory contents `μ` and an IR builder `β`. -/
structure Isa (μ β : Type*) where
  decodeInstr : μ → Nat → Address → Decode
  getJumpInfo : Decode → Address → JumpInfo
  translateInstruction : Decode → Emit β
  /-- `streg` of a constant to the offset of `ITSTATE`. -/
  stregItstate : ITState → β → β
  ret : β → β

/-- A thread, with its other registers `ρ`. -/
structure Thread (μ ρ : Type*) where
  mode : Nat
  features : ProcessorFeatureSet
  memory : μ
  itstate : ITState
  registers : ρ

/-- The state of a `BaseBlockJITTranslate` and of the builder. -/
structure Translation (β : Type*) where
  featureLevels : ProcessorFeatureSet
  readFeatureLevels : List (BitVec 32)
  featuresValid : Bool
  isaMode : Nat
  isaModeValid : Bool
  builder : β

variable {μ ρ β : Type*}

/-- A translation that looks at a level which is not there fails an assertion. -/
def Emit.run : Emit β → Translation β → Option (Translation β)
  | .done, t => some t
  | .build call next, t => (next (call t.builder).1).run { t with builder := (call t.builder).2 }
  | .getFeatureLevel feature next, t =>
      match t.featureLevels.getFeatureLevel feature with
      | some level =>
          (next level).run { t with readFeatureLevels := t.readFeatureLevels.insert feature }
      | none => none
  | .setFeatureLevel feature level call next, t =>
      next.run { t with
        featureLevels := t.featureLevels.setFeatureLevel feature level
        builder := call t.builder }
  | .invalidateFeatures next, t => next.run { t with featuresValid := false }
  | .setIsaMode (some mode) call next, t =>
      next.run { t with isaMode := mode, builder := call t.builder }
  | .setIsaMode none call next, t =>
      next.run { t with isaModeValid := false, builder := call t.builder }

inductive Status where
  | running
  | finished
  | failed
  deriving DecidableEq

/-- Where the loop of `emit_block` stands. A merged jump makes the loop start again at its target. -/
structure EmitBlock (μ ρ β : Type*) where
  thread : Thread μ ρ
  translation : Translation β
  pc : Address
  pcPage : BitVec 32
  count : Nat
  blockHeads : List Address
  /-- The instructions so far, each with the mode it was decoded in. -/
  decoded : List (Nat × Decode)
  status : Status

namespace EmitBlock

def maxCount : Nat := 32

/-- The loop at the start of a block. -/
def enter (s : EmitBlock μ ρ β) (address : Address) : EmitBlock μ ρ β :=
  { s with
    pc := address
    pcPage := address.pageBase.setWidth 32
    count := 0
    blockHeads := s.blockHeads.insert address }

def start (builder : β) (thread : Thread μ ρ) (address : Address) : EmitBlock μ ρ β :=
  enter
    { thread
      translation := ⟨thread.features, [], true, thread.mode, true, builder⟩
      pc := address
      pcPage := 0
      count := 0
      blockHeads := []
      decoded := []
      status := .running } address

variable (isa : Isa μ β) (supportChaining : Bool) (s : EmitBlock μ ρ β)

/-- The condition of the loop. -/
def continues : Bool :=
  s.pc.pageBase = s.pcPage.setWidth 64 ∧ s.count < maxCount ∧ s.translation.isaModeValid = true ∧
    s.translation.featuresValid = true

/-- The end of a block. The look-up of blocks to chain to is commented out, so `emit_chain` always
emits a return. -/
def finish : EmitBlock μ ρ β :=
  { s with
    translation := { s.translation with builder := isa.ret s.translation.builder }
    status := .finished }

/-- `ARMDecodeTranslateContext::Translate`. -/
def writeBackItstate (decode : Decode) (t : Translation β) : Translation β :=
  match decode.predicate with
  | some info =>
      if decode.isaMode ≠ 0 then
        { t with builder := isa.stregItstate (ITState.advance (info.setWidth 8)) t.builder }
      else t
  | none => t

/-- What the decoder makes of the memory at the program counter. -/
def fetched : Decode := isa.decodeInstr s.thread.memory s.translation.isaMode s.pc

/-- What `DecodeSync` makes of that, once `Reset` has read `ITSTATE`. -/
def decodeSync : Decode × ITState :=
  ARMDecodeContext.decodeSync (s.fetched isa) s.thread.itstate s.translation.isaMode

/-- The loop after `WriteBackState`. -/
def writeBackState : EmitBlock μ ρ β :=
  { s with
    thread := { s.thread with itstate := (s.decodeSync isa).2 }
    count := s.count + 1
    decoded := s.decoded ++ [(s.translation.isaMode, s.fetched isa)] }

def emitInstruction : EmitBlock μ ρ β :=
  if (s.fetched isa).instrCode = 65535 then { s.writeBackState isa with status := .failed }
  else
    match (isa.translateInstruction (s.decodeSync isa).1).run s.translation with
    | some t => { s.writeBackState isa with translation := writeBackItstate isa (s.decodeSync isa).1 t }
    | none => { s.writeBackState isa with status := .failed }

def canMergeJump (decode : Decode) : Bool :=
  let info := isa.getJumpInfo decode s.pc
  supportChaining && decode.predicate.isNone && s.translation.isaModeValid && !info.isIndirect &&
    !info.isConditional && info.jumpTarget.getPageIndex == s.pc.getPageIndex

/-- One round of the loop, if there is one. -/
def step : Option (EmitBlock μ ρ β) :=
  if s.status ≠ .running then none
  else if s.continues = false then some (s.finish isa)
  else
    let decode := (s.decodeSync isa).1
    let emitted := s.emitInstruction isa
    let target := (isa.getJumpInfo decode s.pc).jumpTarget
    if emitted.status = .failed then some emitted
    else if decode.endOfBlock = false then
      some { emitted with pc := s.pc + BitVec.ofNat 64 decode.instrLength }
    else if emitted.canMergeJump isa supportChaining decode ∧ target ∉ s.blockHeads then
      some (emitted.enter target)
    else some (emitted.finish isa)

end EmitBlock

/-- `translate_block` up to the compilation of the intermediate form, cut off after `n` rounds. -/
def translateBlock (isa : Isa μ β) (supportChaining : Bool) (builder : β) (n : Nat)
    (thread : Thread μ ρ) (address : Address) : Option (EmitBlock μ ρ β) :=
  Loop.exhaust (EmitBlock.step isa supportChaining) n (.start builder thread address)

/-- The levels that `AttachFeaturesTo` records are those of the features that were read. -/
def Requires (result : EmitBlock μ ρ β) (feature : BitVec 32) : Prop :=
  feature ∈ result.translation.readFeatureLevels

end Gensim.BlockJIT
