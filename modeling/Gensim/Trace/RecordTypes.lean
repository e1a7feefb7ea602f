import Mathlib.Tactic

/-! The records that a trace is made of. -/
namespace Gensim.Trace

/-- What a record says. A packet is one record followed by the data extensions
that it counts. -/
inductive TraceRecordType where
  | unknown | instructionHeader | instructionCode | regRead | regWrite | bankRegRead | bankRegWrite
  | memReadAddr | memReadData | memWriteAddr | memWriteData | instructionBundleHeader | dataExtension | index
  deriving DecidableEq

/-- The value of the enumeration, as a byte of the header. -/
def TraceRecordType.code : TraceRecordType → BitVec 8
  | .unknown => 0
  | .instructionHeader => 1
  | .instructionCode => 2
  | .regRead => 3
  | .regWrite => 4
  | .bankRegRead => 5
  | .bankRegWrite => 6
  | .memReadAddr => 7
  | .memReadData => 8
  | .memWriteAddr => 9
  | .memWriteData => 10
  | .instructionBundleHeader => 11
  | .dataExtension => 12
  | .index => 13

/-- A record of the file: a word with the type, the number of extensions and
the short data, and a word with the long data. -/
@[ext] structure Record where
  header : BitVec 32
  data : BitVec 32
  deriving DecidableEq, Inhabited

namespace Record

/-- The constructor of `TraceRecord`: the type in the top byte of the header,
the number of extensions below it and the short data in the low half. -/
def new (type : TraceRecordType) (data16 : BitVec 16) (data32 : BitVec 32) (extensionCount : BitVec 8) :
    Record :=
  ⟨type.code.setWidth 32 <<< 24 ||| extensionCount.setWidth 32 <<< 16 ||| data16.setWidth 32, data32⟩

variable (record : Record)

/-- The type as it was read: any byte, not only the code of a type. -/
def getType : BitVec 8 := (record.header >>> 24).setWidth 8

/-- How many records after this one belong to its packet. -/
def getExtensionCount : BitVec 8 := (record.header >>> 16).setWidth 8

def getData16 : BitVec 16 := record.header.setWidth 16

def getData32 : BitVec 32 := record.data

variable {type : TraceRecordType} {data16 : BitVec 16} {data32 : BitVec 32} {extensionCount : BitVec 8}

/-- The fields of the header do not overlap, so that each getter returns what
the constructor was given. -/
@[simp] theorem getType_new : (new type data16 data32 extensionCount).getType = type.code := by
  unfold new getType
  ext i hi
  have hExtension : extensionCount.getLsbD (24 + i - 16) = false := BitVec.getLsbD_of_ge _ _ (by omega)
  have hData : data16.getLsbD (24 + i) = false := BitVec.getLsbD_of_ge _ _ (by omega)
  have hIn : 24 + i < 32 := by omega
  have hIn' : i < 32 := by omega
  simp [hi, hExtension, hData, hIn, hIn']

@[simp] theorem getData16_new : (new type data16 data32 extensionCount).getData16 = data16 := by
  unfold new getData16
  ext i hi
  simp

@[simp] theorem getData32_new : (new type data16 data32 extensionCount).getData32 = data32 := rfl

end Record

end Gensim.Trace
