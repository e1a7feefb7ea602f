import Gensim.Trace.PacketStream

/-! What is written to a trace, and what is read back from it. -/
namespace Gensim.Trace

open Operations Reader

/-! ### The packets of the events -/

/-- A record with the low word of a value, and the rest of its words as extensions. -/
def packetOf (type : TraceRecordType) (data16 : BitVec 16) (value extensionCount : Nat) : TraceRecordPacket :=
  ⟨.new type data16 (.ofNat 32 value) (.ofNat 8 extensionCount),
    (List.range extensionCount).map fun i =>
      .new .dataExtension (type.code.setWidth 16) (.ofNat 32 (value >>> (32 * (i + 1)))) 0⟩

/-- A number of one of the sizes in bits that a template is specialised for. -/
structure Number (sizes : List Nat) where
  bits : Nat
  bits_mem : bits ∈ sizes
  value : BitVec bits

namespace Number

variable {sizes : List Nat} (number : Number sizes)

def toNat : Nat := number.value.toNat

/-- The words of 32 bits that the number takes up. -/
def words : Nat := (number.bits + 31) / 32

def extensionCount : Nat := number.words - 1

end Number

/-- A program counter, an instruction or an address. -/
abbrev Word := Number [32, 64]

/-- The value of a register. -/
abbrev RegisterValue := Number [8, 16, 32, 64]

/-- Data that is read from memory or written to it. -/
abbrev MemoryValue := Number [8, 16, 32, 64, 128]

/-- The value of a register of a bank: a number, a `float` or `double` being one with its bits, or the bytes of
the register. -/
inductive BankValue where
  | number (value : Number [8, 16, 32, 64, 128])
  | bytes (size : Nat) (hSize : 4 ∣ size ∧ 0 < size ∧ size ≤ 16) (data : BitVec (8 * size))

namespace BankValue

def toNat : BankValue → Nat
  | .number value => value.toNat
  | .bytes _ _ data => data.toNat

def words : BankValue → Nat
  | .number value => value.words
  | .bytes size _ _ => size / 4

def getExtensionCount (size : Nat) : Nat := if size ≤ 4 then 0 else size / 4 - 1

/-- There are specialisations for 64 bits, but none for 128. -/
def extensionCount : BankValue → Nat
  | .number value => if value.bits = 64 then 1 else 0
  | .bytes size _ _ => getExtensionCount size

end BankValue

def bankRegister (bank regnum : BitVec 8) : BitVec 16 := bank.setWidth 16 <<< 8 ||| regnum.setWidth 16

def traceInsn (pc code : Word) (isaMode irqMode : BitVec 8) : List TraceRecordPacket :=
  [packetOf .instructionHeader (isaMode.setWidth 16) pc.toNat pc.extensionCount,
    packetOf .instructionCode (irqMode.setWidth 16) code.toNat code.extensionCount]

def traceRegRead (regnum : BitVec 8) (value : RegisterValue) : List TraceRecordPacket :=
  [packetOf .regRead (regnum.setWidth 16) value.toNat value.extensionCount]

def traceRegWrite (regnum : BitVec 8) (value : RegisterValue) : List TraceRecordPacket :=
  [packetOf .regWrite (regnum.setWidth 16) value.toNat value.extensionCount]

def traceBankRegRead (bank regnum : BitVec 8) (value : BankValue) : List TraceRecordPacket :=
  [packetOf .bankRegRead (bankRegister bank regnum) value.toNat value.extensionCount]

def traceBankRegWrite (bank regnum : BitVec 8) (value : BankValue) : List TraceRecordPacket :=
  [packetOf .bankRegWrite (bankRegister bank regnum) value.toNat value.extensionCount]

def traceMemRead (address : Word) (value : MemoryValue) (width : BitVec 8) : List TraceRecordPacket :=
  [packetOf .memReadAddr (width.setWidth 16) address.toNat address.extensionCount,
    packetOf .memReadData (width.setWidth 16) value.toNat value.extensionCount]

/-- `TraceMemWriteAddr` for 32 bits. It makes the record with its arguments exchanged. -/
def traceMemWriteAddr (address width : BitVec 32) : TraceRecordPacket :=
  packetOf .memWriteAddr ((address.setWidth 8).setWidth 16) width.toNat 0

/-- `TraceMemWriteData` for 32 bits. It makes the record with its arguments exchanged. -/
def traceMemWriteData (data width : BitVec 32) : TraceRecordPacket :=
  packetOf .memWriteData ((data.setWidth 8).setWidth 16) width.toNat 0

/-- `Trace_Mem_Write` calls both with the arguments exchanged. The type of the first argument, the width,
selects the specialisation, so that the address and the value become 32 bits wide. -/
def traceMemWrite (address : Word) (value : MemoryValue) (width : BitVec 8) : List TraceRecordPacket :=
  [traceMemWriteAddr (width.setWidth 32) (.ofNat 32 address.toNat),
    traceMemWriteData (width.setWidth 32) (.ofNat 32 value.toNat)]

/-- The calls of a trace source. -/
inductive TraceCall where
  | insn (pc code : Word) (isaMode irqMode : BitVec 8)
  | endInsn
  | regRead (regnum : BitVec 8) (value : RegisterValue)
  | regWrite (regnum : BitVec 8) (value : RegisterValue)
  | bankRegRead (bank regnum : BitVec 8) (value : BankValue)
  | bankRegWrite (bank regnum : BitVec 8) (value : BankValue)
  | memRead (address : Word) (value : MemoryValue) (width : BitVec 8)
  | memWrite (address : Word) (value : MemoryValue) (width : BitVec 8)

def TraceCall.packets : TraceCall → List TraceRecordPacket
  | .insn pc code isaMode irqMode => traceInsn pc code isaMode irqMode
  | .endInsn => []
  | .regRead regnum value => traceRegRead regnum value
  | .regWrite regnum value => traceRegWrite regnum value
  | .bankRegRead bank regnum value => traceBankRegRead bank regnum value
  | .bankRegWrite bank regnum value => traceBankRegWrite bank regnum value
  | .memRead address value width => traceMemRead address value width
  | .memWrite address value width => traceMemWrite address value width

/-- A source with the records that its sink was given and those in its buffer. -/
structure TraceSource where
  skip : Nat
  packetOpen : Bool
  aggressiveFlushing : Bool
  packetBuffer : List Record
  sink : List Record

namespace TraceSource

def packetBufferSize : Nat := 1024

def new (skip : Nat) (aggressiveFlushing : Bool) : TraceSource := ⟨skip, false, aggressiveFlushing, [], []⟩

variable (source : TraceSource)

def emitPackets : TraceSource :=
  { source with sink := source.sink ++ source.packetBuffer, packetBuffer := [] }

/-- Write a record to where `getNextPacket` points. -/
def put (record : Record) : TraceSource :=
  let source :=
    if source.packetBuffer.length = packetBufferSize ∨ source.aggressiveFlushing then source.emitPackets
    else source
  { source with packetBuffer := source.packetBuffer ++ [record] }

def putPackets (packets : List TraceRecordPacket) : TraceSource :=
  (packets.flatMap TraceRecordPacket.records).foldl put source

/-- The first instructions may be skipped, and other events are part of an instruction. There is no result
where the assertion of `Trace_Insn` fails: the instruction before was not ended. -/
def call (c : TraceCall) : Option TraceSource :=
  match c with
  | .insn pc code isaMode irqMode =>
      if source.skip > 0 then some { source with skip := source.skip - 1 }
      else if source.packetOpen then none
      else some { source.putPackets (traceInsn pc code isaMode irqMode) with packetOpen := true }
  | .endInsn => some { source with packetOpen := false }
  | event => some (if source.packetOpen then source.putPackets event.packets else source)

end TraceSource

/-! ### What is read -/

/-- What the reader of a packet returns. -/
inductive Item where
  | instructionHeader (isaMode pc : Nat)
  | instructionCode (exceptionMode code : Nat)
  | regRead (index value : Nat)
  | regWrite (index value : Nat)
  | bankRegRead (bank regNum value : Nat)
  | bankRegWrite (bank regNum value : Nat)
  | memReadAddr (width address : Nat)
  | memReadData (width data : Nat)
  | memWriteAddr (width address : Nat)
  | memWriteData (width data : Nat)
  deriving DecidableEq

namespace TraceRecordPacket

variable (packet : TraceRecordPacket)

def asU32 : Nat := packet.record.getData32.toNat

/-- There is no result where `at` throws. -/
def getExtension (i : Nat) : Option Nat := packet.extensions[i]?.map fun extension => extension.getData32.toNat

/-- `AsU64` takes the first extension with `at`, whatever the value. -/
def asU64 : Option Nat := (packet.getExtension 0).map fun high => high <<< 32 ||| packet.asU32

/-- A value of so many words, by `AsU32` or `AsU64`, and by `GetExtension` where it has more. -/
def read : Nat → Option Nat
  | 0 | 1 => some packet.asU32
  | 2 => packet.asU64
  | words + 3 => (read (words + 2)).bind fun low =>
      (packet.getExtension (words + 1)).map fun high => high <<< (32 * (words + 2)) ||| low

def getBank : Nat := ((packet.record.getData16 >>> 8).setWidth 8).toNat

def getRegNum : Nat := (packet.record.getData16.setWidth 8).toNat

def getData16 : Nat := packet.record.getData16.toNat

/-- What the reader for the type of the record returns if it is asked for a value of so many words. -/
def visited (words : Nat) : Option Item := do
  let data ← packet.read words
  let type := packet.record.getType
  if type = TraceRecordType.instructionHeader.code then some (.instructionHeader packet.getData16 data)
  else if type = TraceRecordType.instructionCode.code then some (.instructionCode packet.getData16 data)
  else if type = TraceRecordType.regRead.code then some (.regRead packet.getData16 data)
  else if type = TraceRecordType.regWrite.code then some (.regWrite packet.getData16 data)
  else if type = TraceRecordType.bankRegRead.code then some (.bankRegRead packet.getBank packet.getRegNum data)
  else if type = TraceRecordType.bankRegWrite.code then some (.bankRegWrite packet.getBank packet.getRegNum data)
  else if type = TraceRecordType.memReadAddr.code then some (.memReadAddr packet.getData16 data)
  else if type = TraceRecordType.memReadData.code then some (.memReadData packet.getData16 data)
  else if type = TraceRecordType.memWriteAddr.code then some (.memWriteAddr packet.getData16 data)
  else if type = TraceRecordType.memWriteData.code then some (.memWriteData packet.getData16 data)
  else none

/-- The reader of the packet, asked for so many words, returns the item. -/
def Returns (expected : Nat × Item) : Prop := packet.visited expected.1 = some expected.2

end TraceRecordPacket

/-- What is to be read back from the packets of a call, with the words of each value. -/
def TraceCall.items : TraceCall → List (Nat × Item)
  | .insn pc code isaMode irqMode => [(pc.words, .instructionHeader isaMode.toNat pc.toNat),
      (code.words, .instructionCode irqMode.toNat code.toNat)]
  | .endInsn => []
  | .regRead regnum value => [(value.words, .regRead regnum.toNat value.toNat)]
  | .regWrite regnum value => [(value.words, .regWrite regnum.toNat value.toNat)]
  | .bankRegRead bank regnum value => [(value.words, .bankRegRead bank.toNat regnum.toNat value.toNat)]
  | .bankRegWrite bank regnum value => [(value.words, .bankRegWrite bank.toNat regnum.toNat value.toNat)]
  | .memRead address value width => [(address.words, .memReadAddr width.toNat address.toNat),
      (value.words, .memReadData width.toNat value.toNat)]
  | .memWrite address value width => [(address.words, .memWriteAddr width.toNat address.toNat),
      (value.words, .memWriteData width.toNat value.toNat)]

/-! ### Packets that are read back -/

section Read

variable {type : TraceRecordType} {data16 : BitVec 16} {value extensionCount : Nat}

theorem asU32_packetOf : (packetOf type data16 value extensionCount).asU32 = value % 2 ^ 32 := by
  rw [TraceRecordPacket.asU32, packetOf, Record.getData32_new, BitVec.toNat_ofNat]

theorem getExtension_packetOf (i : Nat) : (packetOf type data16 value extensionCount).getExtension i =
      if i < extensionCount then some (value / 2 ^ (32 * (i + 1)) % 2 ^ 32) else none := by
  unfold TraceRecordPacket.getExtension packetOf
  split
  · rename_i hLt
    simp [hLt, Nat.shiftRight_eq_div_pow]
  · rename_i hGe
    simp [Nat.le_of_not_lt hGe]

/-- One more word of a value. -/
theorem mod_word (value words : Nat) : (value / 2 ^ (32 * words) % 2 ^ 32) <<< (32 * words) ||| value % 2 ^ (32 * words) =
      value % 2 ^ (32 * (words + 1)) := by
  rw [Nat.shiftLeft_eq, Nat.mul_comm, ← Nat.two_pow_add_eq_or_of_lt (Nat.mod_lt _ (Nat.two_pow_pos _)),
    Nat.mul_add 32 words 1, Nat.pow_add, Nat.mul_one, Nat.mod_mul, Nat.add_comm]

/-- The words of a value make up the value again, as far as there are extensions for them. -/
theorem read_packetOf (words : Nat) : (packetOf type data16 value extensionCount).read (words + 1) =
      if words ≤ extensionCount then some (value % 2 ^ (32 * (words + 1))) else none := by
  induction words with
  | zero =>
    rw [TraceRecordPacket.read, asU32_packetOf]
    simp
  | succ words ih =>
    have hNext : (packetOf type data16 value extensionCount).read (words + 1 + 1) =
        ((packetOf type data16 value extensionCount).read (words + 1)).bind fun low =>
          ((packetOf type data16 value extensionCount).getExtension words).map fun high =>
            high <<< (32 * (words + 1)) ||| low := by
      cases words <;> rfl
    rw [hNext, ih, getExtension_packetOf]
    split_ifs with hWords hExtension hBoth hNot
    · rw [Option.bind_some, Option.map_some, mod_word]
    all_goals first | omega | rfl

/-- What the reader of a type returns. -/
def itemOf (type : TraceRecordType) (data16 : BitVec 16) (value : Nat) : Option Item :=
  match type with
  | .instructionHeader => some (.instructionHeader data16.toNat value)
  | .instructionCode => some (.instructionCode data16.toNat value)
  | .regRead => some (.regRead data16.toNat value)
  | .regWrite => some (.regWrite data16.toNat value)
  | .bankRegRead =>
      some (.bankRegRead ((data16 >>> 8).setWidth 8).toNat (data16.setWidth 8).toNat value)
  | .bankRegWrite =>
      some (.bankRegWrite ((data16 >>> 8).setWidth 8).toNat (data16.setWidth 8).toNat value)
  | .memReadAddr => some (.memReadAddr data16.toNat value)
  | .memReadData => some (.memReadData data16.toNat value)
  | .memWriteAddr => some (.memWriteAddr data16.toNat value)
  | .memWriteData => some (.memWriteData data16.toNat value)
  | _ => none

theorem visited_packetOf (words : Nat) : (packetOf type data16 value extensionCount).visited (words + 1) =
      if words ≤ extensionCount then itemOf type data16 (value % 2 ^ (32 * (words + 1))) else none := by
  have hType : (packetOf type data16 value extensionCount).record.getType = type.code := Record.getType_new
  have hData16 : (packetOf type data16 value extensionCount).record.getData16 = data16 := Record.getData16_new
  unfold TraceRecordPacket.visited TraceRecordPacket.getData16 TraceRecordPacket.getBank TraceRecordPacket.getRegNum
  rw [hType, hData16, read_packetOf]
  split
  · cases type <;> rfl
  · rfl

/-- A value is read back exactly if there are extensions for its words. -/
theorem returns_packetOf {words : Nat} (hWords : 0 < words) (hValue : value < 2 ^ (32 * words)) {item : Item}
    (hItem : itemOf type data16 value = some item) :
    (packetOf type data16 value extensionCount).Returns (words, item) ↔ words ≤ extensionCount + 1 := by
  obtain ⟨words, rfl⟩ := Nat.exists_eq_succ_of_ne_zero hWords.ne'
  rw [TraceRecordPacket.Returns, visited_packetOf, Nat.mod_eq_of_lt hValue, hItem, Nat.succ_le_succ_iff]
  simp

end Read

namespace Number

variable {sizes : List Nat} (number : Number sizes)

theorem toNat_lt : number.toNat < 2 ^ (32 * number.words) :=
  number.value.isLt.trans_le (Nat.pow_le_pow_right (by decide) (by unfold words; omega))

theorem words_pos (hSizes : ∀ bits ∈ sizes, 0 < bits) : 0 < number.words := by
  have hBits := hSizes _ number.bits_mem
  unfold words
  omega

theorem returns_packetOf (hSizes : ∀ bits ∈ sizes, 0 < bits) {type : TraceRecordType} {data16 : BitVec 16}
    {item : Item} (hItem : itemOf type data16 number.toNat = some item) :
    (packetOf type data16 number.toNat number.extensionCount).Returns (number.words, item) := by
  have hPos := number.words_pos hSizes
  refine (Trace.returns_packetOf hPos number.toNat_lt hItem).mpr ?_
  unfold extensionCount
  omega

end Number

namespace BankValue

/-- There are extensions for the words of the value. -/
def Fits : BankValue → Prop
  | .number value => value.bits ≠ 128
  | .bytes _ _ _ => True

theorem toNat_lt (value : BankValue) : value.toNat < 2 ^ (32 * value.words) := by
  cases value with
  | number number => exact number.toNat_lt
  | bytes size hSize data =>
    refine data.isLt.trans_le (Nat.pow_le_pow_right (by decide) ?_)
    have hWords := Nat.mul_div_cancel' hSize.1
    change 8 * size ≤ 32 * (size / 4)
    omega

theorem words_pos (value : BankValue) : 0 < value.words := by
  cases value with
  | number number => exact number.words_pos (by decide)
  | bytes size hSize data => exact Nat.div_pos (Nat.le_of_dvd hSize.2.1 hSize.1) (by decide)

theorem fits_iff (value : BankValue) : value.Fits ↔ value.words ≤ value.extensionCount + 1 := by
  cases value with
  | number number =>
    obtain ⟨bits, hBits, value⟩ := number
    simp only [List.mem_cons, List.not_mem_nil, or_false] at hBits
    rcases hBits with rfl | rfl | rfl | rfl | rfl <;> simp [Fits, words, extensionCount, Number.words]
  | bytes size hSize data =>
    refine iff_of_true trivial ?_
    change size / 4 ≤ getExtensionCount size + 1
    unfold getExtensionCount
    split <;> omega

theorem returns_packetOf (value : BankValue) {type : TraceRecordType} {data16 : BitVec 16} {item : Item}
    (hItem : itemOf type data16 value.toNat = some item) :
    (packetOf type data16 value.toNat value.extensionCount).Returns (value.words, item) ↔ value.Fits := by
  rw [Trace.returns_packetOf value.words_pos value.toNat_lt hItem, fits_iff]

end BankValue

namespace TraceCall

/-- The readers find the words that they ask for: memory writes have room for 32 bits of the address and of
the data, and so has a register of a bank that is traced as a 128 bit number. -/
def Fits : TraceCall → Prop
  | .bankRegRead _ _ value | .bankRegWrite _ _ value => value.Fits
  | .memWrite address value _ => address.bits ≤ 32 ∧ value.bits ≤ 32
  | _ => True

end TraceCall

/-! ### Whole traces -/

namespace TraceSource

def flush (source : TraceSource) : TraceSource := source.emitPackets

/-- The calls whose records are written, while so many instructions are to be skipped and an instruction is
open or not. -/
def traced (skip : Nat) (packetOpen : Bool) : List TraceCall → List TraceCall
  | [] => []
  | .insn pc code isaMode irqMode :: calls =>
      if skip > 0 then traced (skip - 1) packetOpen calls
      else .insn pc code isaMode irqMode :: traced skip true calls
  | .endInsn :: calls => traced skip false calls
  | event :: calls => if packetOpen then event :: traced skip packetOpen calls else traced skip packetOpen calls

/-- The records that were written, in the sink or still in the buffer. -/
def written (source : TraceSource) : List Record := source.sink ++ source.packetBuffer

variable {source : TraceSource}

/-- No assertion fails, and the adaptor gives the packets of what was written one after the other, whose
readers return what was traced. -/
def RoundTrips (source : TraceSource) (calls : List TraceCall) : Prop :=
  ∃ after packets, calls.foldlM call source = some after ∧
    (TracePacketStreamAdaptor.reader (recordBufferStream after.flush.sink)).Delivers
      packets 0 (.new 0) (List.replicate packets.length .get) ∧
    List.Forall₂ TraceRecordPacket.Returns packets
      ((traced source.skip source.packetOpen calls).flatMap TraceCall.items)

end TraceSource

end Gensim.Trace
