import Mathlib.Tactic
import Gensim.Isa.InstructionDescription

/-! The decode tree: instructions are inserted bit string by bit string, and a word is decoded
by walking the edges it matches. -/
namespace Gensim.Generator

open BitPattern Isa

/-- A node reads the word from bit `startPtr` on.  The constrained transitions are
`(length, value, node)` in the order of the multimap, the unconstrained one only has a length.
The source keeps positions in a `uint8_t`: formats are shorter than 256 bits. -/
inductive DecodeNode (ι : Type) where
  | mk (startPtr : Nat) (target : Option ι) (transitions : List (Nat × BitVec 32 × DecodeNode ι))
      (unconstrained : Option (Nat × DecodeNode ι))

structure DecodedInstruction (ι : Type) where
  insn : ι
  chunks : List (String × BitVec 32)
deriving DecidableEq, Repr

variable {ι : Type}

abbrev DecodeTransition (ι : Type) := Nat × BitVec 32 × DecodeNode ι

namespace DecodeNode

def startPtr : DecodeNode ι → Nat
  | .mk startPtr _ _ _ => startPtr

def target : DecodeNode ι → Option ι
  | .mk _ target _ _ => target

/-- Insertion in a multimap keyed by the length: after the transitions of the same length. -/
def insertTransition (t : DecodeTransition ι) (transitions : List (DecodeTransition ι)) :
    List (DecodeTransition ι) :=
  transitions.takeWhile (·.1 ≤ t.1) ++ t :: transitions.dropWhile (·.1 ≤ t.1)

end DecodeNode

def getPrefix (str : BitString) (start : Nat) : BitString :=
  if str[start]? = some .any then (str.drop start).takeWhile (· = .any)
  else (str.drop start).takeWhile (· ≠ .any)

/-! `descriptions` gives the description that an instruction, a pointer in the source, points
to. -/
section Construction

variable [DecidableEq ι] (descriptions : ι → InstructionDescription)

namespace DecodeNode

def create (inst : Option ι) (startPtr : Nat) : DecodeNode ι :=
  match inst with
  | some i =>
      if startPtr = (descriptions i).format.getLength then .mk startPtr (some i) [] none
      else .mk startPtr none [] none
  | none => .mk startPtr none [] none

mutual

/-- `BreakAllTransitions` and `BreakUnconstrainedTransition` on one node. -/
def breakNode (pos : Nat) : DecodeNode ι → DecodeNode ι
  | .mk startPtr target transitions unconstrained =>
      .mk startPtr target ((breakTransitions pos transitions).foldl (fun ts t => insertTransition t ts) [])
        (breakUnconstrainedTransition startPtr pos unconstrained)

/-- `DecodeTransition::Break` on each transition. -/
def breakTransitions (pos : Nat) : List (DecodeTransition ι) → List (DecodeTransition ι)
  | [] => []
  | (length, value, kid) :: rest =>
      (if pos = 0 ∨ pos = length then (length, value, kid)
      else if length ≤ pos then (length, value, breakNode (pos - length) kid)
      else
        let shorter := (length - pos, unsignedBits value (length - pos) 0, kid)
        match create descriptions kid.target (kid.startPtr - length + pos) with
        | .mk startPtr target transitions unconstrained =>
            (pos, unsignedBits value pos 0,
              .mk startPtr target (insertTransition shorter transitions) unconstrained)) ::
        breakTransitions pos rest

/-- Break the unconstrained transition of a node that starts at `startPtr`. -/
def breakUnconstrainedTransition (startPtr pos : Nat) :
    Option (Nat × DecodeNode ι) → Option (Nat × DecodeNode ι)
  | none => none
  | some (length, kid) =>
      if length ≤ pos then some (length, breakNode (pos - length) kid)
      else some (pos, .mk (startPtr + pos) none [] (some (length - pos, kid)))

end

/-- `AddInstruction(instruction, bitstring)`: the tree afterwards and the value returned. -/
def addBitString (insn : ι) (bits : BitString) : Nat → DecodeNode ι → Option (DecodeNode ι × Bool)
  | 0, _ => none
  | fuel + 1, .mk startPtr target transitions unconstrained =>
      if startPtr = bits.length then
        -- the ISA conflict: the leaf belongs to another instruction
        some (.mk startPtr target transitions unconstrained,
          !(target.isSome && target ≠ some insn))
      else
        let pre := getPrefix bits startPtr
        if pre.head? = some .any then
          match unconstrained with
          | none => do
              let (kid, success) ←
                addBitString insn bits fuel (create descriptions (some insn) (startPtr + pre.length))
              return (.mk startPtr target transitions (some (pre.length, kid)), success)
          | some (length, kid) =>
              match (if length ≤ pre.length then some (length, kid)
                else breakUnconstrainedTransition descriptions startPtr pre.length
                  (some (length, kid))) with
              | none => none
              | some (length, kid) => do
                  let (kid, success) ← addBitString insn bits fuel kid
                  return (.mk startPtr target transitions (some (length, kid)), success)
        else
          let val := Util.parseBinary pre
          match transitions.span fun t => !(t.1 == pre.length && t.2.1 == val) with
          | (before, (length, value, kid) :: after) => do
              let (kid, _) ← addBitString insn bits fuel kid
              return (.mk startPtr target (before ++ (length, value, kid) :: after) unconstrained,
                true)
          | (_, []) => do
              let (kid, success) ←
                addBitString insn bits fuel (create descriptions (some insn) (startPtr + pre.length))
              return (.mk startPtr target (insertTransition (pre.length, val, kid) transitions)
                unconstrained, success)

def addBitStrings (insn : ι) : List BitString → DecodeNode ι → Option (DecodeNode ι × Bool)
  | [], tree => some (tree, true)
  | bits :: rest, tree => do
      let (tree, success) ← addBitString descriptions insn bits (bits.length + 1) tree
      if success then addBitStrings insn rest tree else return (tree, false)

def addInstruction (insn : ι) (tree : DecodeNode ι) : Option (DecodeNode ι × Bool) :=
  (descriptions insn).getBitString.bind fun bitStrings => addBitStrings descriptions insn bitStrings tree

def createTree (first : ι) : Option (DecodeNode ι) :=
  (addInstruction descriptions first (create descriptions (some first) 0)).map Prod.fst

/-- The first instruction creates the tree, the others are added in order; the generator
goes on when an insertion reports a conflict. -/
def build (first : ι) (rest : List ι) : Option (DecodeNode ι) := do
  rest.foldlM (fun tree insn => (addInstruction descriptions insn tree).map Prod.fst)
    (← createTree descriptions first)

end DecodeNode

end Construction

section Decoding

variable (descriptions : ι → InstructionDescription)

/-- The fields of a word, most significant first; a name already in the map keeps its value. -/
def decodeChunks (word : BitVec 32) :
    Nat → List InstructionFormatChunk → List (String × BitVec 32) → List (String × BitVec 32)
  | _, [], found => found
  | insnPtr, chunk :: rest, found =>
      let value := unsignedBits word insnPtr (insnPtr + 1 - chunk.length)
      decodeChunks word (insnPtr - chunk.length) rest
        (if found.any (·.1 = chunk.name) then found else found ++ [(chunk.name, value)])

def decodeLeaf (word : BitVec 32) (insn : ι) : DecodedInstruction ι :=
  { insn := insn
    chunks := decodeChunks word 31 (descriptions insn).format.chunks [] }

namespace DecodeNode

mutual

def decode (word : BitVec 32) : DecodeNode ι → Option (DecodedInstruction ι)
  | .mk _ (some insn) _ _ => some (decodeLeaf descriptions word insn)
  | .mk startPtr none transitions unconstrained =>
      match decodeTransitions word startPtr transitions with
      | some found => some found
      | none => decodeUnconstrained word unconstrained

def decodeTransitions (word : BitVec 32) (startPtr : Nat) :
    List (Nat × BitVec 32 × DecodeNode ι) → Option (DecodedInstruction ι)
  | [] => none
  | (length, value, kid) :: rest =>
      if unsignedBits word (31 - startPtr) (31 - startPtr + 1 - length) = value then
        match decode word kid with
        | some found => some found
        | none => decodeTransitions word startPtr rest
      else decodeTransitions word startPtr rest

def decodeUnconstrained (word : BitVec 32) :
    Option (Nat × DecodeNode ι) → Option (DecodedInstruction ι)
  | none => none
  | some (_, kid) => decode word kid

end

end DecodeNode

end Decoding

end Gensim.Generator
