import Gensim.Trace.RecordStreams

/-! Records and their extensions, grouped into packets. -/
namespace Gensim.Trace

open Operations Reader

structure TraceRecordPacket where
  record : Record
  extensions : List Record
  deriving DecidableEq, Inhabited

namespace TraceRecordPacket

def kExtensionCount : Nat := 4

def records (packet : TraceRecordPacket) : List Record := packet.record :: packet.extensions

/-- The first record says how many extensions there are, and there is room for them. -/
structure WellFormed (packet : TraceRecordPacket) : Prop where
  type : packet.record.getType ≠ TraceRecordType.dataExtension.code
  length : packet.extensions.length = packet.record.getExtensionCount.toNat
  room : packet.record.getExtensionCount.toNat ≤ kExtensionCount

end TraceRecordPacket

/-- A stream of records, as far as packets are made of it. -/
structure RecordStreamInput (σ : Type) where
  good : σ → Bool
  get : σ → Option (Record × σ)

namespace RecordStreamInput

variable {σ : Type} (input : RecordStreamInput σ)

/-- The stream has these records and then no more. -/
def Yields : List Record → σ → Prop
  | [], s => input.good s = false
  | record :: records, s => input.good s = true ∧ ∃ t, input.get s = some (record, t) ∧ Yields records t

theorem Yields.good_iff {input : RecordStreamInput σ} {records : List Record} {s : σ}
    (hYields : input.Yields records s) : input.good s = true ↔ records ≠ [] := by
  cases records with
  | nil =>
    rw [show input.good s = false from hYields]
    exact iff_of_false (by decide) fun hNil => hNil rfl
  | cons record records => exact iff_of_true hYields.1 (List.cons_ne_nil _ _)

end RecordStreamInput

/-- The adaptor of a buffer of records, with the index of the next one. -/
def recordBufferStream (buffer : List Record) : RecordStreamInput Nat where
  good index := index < buffer.length
  get index := buffer[index]?.map fun record => (record, index + 1)

theorem yields_recordBufferStream (buffer : List Record) (index : Nat) :
    (recordBufferStream buffer).Yields (buffer.drop index) index := by
  generalize hRest : buffer.drop index = rest
  induction rest generalizing index with
  | nil =>
    rw [List.drop_eq_nil_iff] at hRest
    exact decide_eq_false (not_lt.mpr hRest)
  | cons record rest ih =>
    have hNext : buffer[index]? = some record := by
      rw [← List.head?_drop, hRest]
      rfl
    refine ⟨decide_eq_true (List.getElem?_eq_some_iff.mp hNext).1, index + 1, ?_, ih (index + 1) ?_⟩
    · change Option.map _ buffer[index]? = _
      rw [hNext]
      rfl
    · rw [← List.tail_drop, hRest]
      rfl

structure TracePacketStreamAdaptor (σ : Type) where
  inputStream : σ
  packetReady : Bool
  packet : TraceRecordPacket

namespace TracePacketStreamAdaptor

variable {σ : Type} (input : RecordStreamInput σ)

def new (inputStream : σ) : TracePacketStreamAdaptor σ := ⟨inputStream, false, ⟨.new .unknown 0 0 0, []⟩⟩

/-- Read so many extensions, if the stream has them. -/
def readExtensions : Nat → σ → Option (Option (List Record) × σ)
  | 0, s => some (some [], s)
  | count + 1, s =>
      if input.good s then do
        let (extension, s) ← input.get s
        let (extensions, s) ← readExtensions count s
        some (extensions.map (extension :: ·), s)
      else some (none, s)

variable (adaptor : TracePacketStreamAdaptor σ)

/-- There is no result where an assertion fails. -/
def preparePacket : Option (TracePacketStreamAdaptor σ) :=
  if input.good adaptor.inputStream then do
    let (head, s) ← input.get adaptor.inputStream
    if head.getType = TraceRecordType.dataExtension.code then none
    else do
      let (extensions, s) ← readExtensions input head.getExtensionCount.toNat s
      match extensions with
      | none => some { adaptor with inputStream := s }
      | some extensions =>
          if extensions.length ≤ TraceRecordPacket.kExtensionCount then
            some ⟨s, true, ⟨head, extensions⟩⟩
          else none
  else some adaptor

def prepare : Option (TracePacketStreamAdaptor σ) :=
  if adaptor.packetReady then some adaptor else adaptor.preparePacket input

def get : Option (TraceRecordPacket × TracePacketStreamAdaptor σ) := do
  let adaptor ← adaptor.prepare input
  some (adaptor.packet, { adaptor with packetReady := false })

def peek : Option (TraceRecordPacket × TracePacketStreamAdaptor σ) := do
  let adaptor ← adaptor.prepare input
  some (adaptor.packet, adaptor)

def reader : Reader (TracePacketStreamAdaptor σ) TraceRecordPacket :=
  ⟨fun adaptor => input.good adaptor.inputStream, peek input, get input⟩

variable {input} {adaptor} {packets : List TraceRecordPacket} {packet : TraceRecordPacket}
  {extensions rest leftover : List Record} {s : σ} {taken : Nat}

theorem readExtensions_spec (hYields : input.Yields (extensions ++ rest) s) :
    ∃ t, readExtensions input extensions.length s = some (some extensions, t) ∧ input.Yields rest t := by
  induction extensions generalizing s with
  | nil => exact ⟨s, rfl, hYields⟩
  | cons extension extensions ih =>
    obtain ⟨hGood, next, hGet, hRest⟩ := hYields
    obtain ⟨t, hRead, hAfter⟩ := ih hRest
    refine ⟨t, ?_, hAfter⟩
    rw [List.length_cons, readExtensions, if_pos hGood, hGet]
    change (readExtensions input extensions.length next).bind _ = _
    rw [hRead]
    rfl

theorem preparePacket_spec (hPacket : packet.WellFormed)
    (hYields : input.Yields (packet.records ++ rest) adaptor.inputStream) :
    ∃ t, adaptor.preparePacket input = some ⟨t, true, packet⟩ ∧ input.Yields rest t := by
  obtain ⟨hGood, next, hGet, hRest⟩ := hYields
  obtain ⟨t, hRead, hAfter⟩ := readExtensions_spec hRest
  refine ⟨t, ?_, hAfter⟩
  rw [preparePacket, if_pos hGood, hGet]
  change (if _ then none else _) = _
  rw [if_neg hPacket.type, ← hPacket.length]
  change (readExtensions input packet.extensions.length next).bind _ = _
  rw [hRead]
  change (if _ then _ else none) = _
  rw [if_pos (hPacket.length ▸ hPacket.room)]

/-- The adaptor after so many packets were taken, while there are records left. -/
structure Holds (input : RecordStreamInput σ) (packets : List TraceRecordPacket) (leftover : List Record)
    (taken : Nat) (adaptor : TracePacketStreamAdaptor σ) : Prop where
  good : input.good adaptor.inputStream = true
  ready : adaptor.packetReady = true → packets[taken]? = some adaptor.packet
  yields : input.Yields ((packets.drop (taken + adaptor.packetReady.toNat)).flatMap
    TraceRecordPacket.records ++ leftover) adaptor.inputStream

/-- There are records left after the packet that is next. -/
def Stays (packets : List TraceRecordPacket) (leftover : List Record) (taken : Nat) : Prop :=
  taken + 1 < packets.length ∨ leftover ≠ []

theorem stays_iff : (packets.drop (taken + 1)).flatMap TraceRecordPacket.records ++ leftover ≠ [] ↔
    Stays packets leftover taken := by
  have hNil : (packets.drop (taken + 1)).flatMap TraceRecordPacket.records = [] ↔ packets.length ≤ taken + 1 := by
    rw [List.flatMap_eq_nil_iff, ← List.drop_eq_nil_iff, List.eq_nil_iff_forall_not_mem]
    exact forall_congr' fun packet => imp_congr_right fun _ => iff_false_intro (List.cons_ne_nil _ _)
  rw [ne_eq, List.append_eq_nil_iff, hNil, Stays, ne_eq, not_and_or, not_le]

section

variable (hPackets : ∀ packet ∈ packets, packet.WellFormed)
include hPackets

theorem Holds.prepare (hHolds : Holds input packets leftover taken adaptor) (hNext : packets[taken]? = some packet) :
    ∃ t, adaptor.prepare input = some ⟨t, true, packet⟩ ∧
      input.Yields ((packets.drop (taken + 1)).flatMap TraceRecordPacket.records ++ leftover) t := by
  have hYields := hHolds.yields
  unfold TracePacketStreamAdaptor.prepare
  cases hReady : adaptor.packetReady with
  | true =>
    rw [hReady] at hYields
    refine ⟨adaptor.inputStream, ?_, hYields⟩
    have hPacket := hHolds.ready hReady
    rw [hNext, Option.some_inj] at hPacket
    rw [if_pos rfl, hPacket, ← hReady]
  | false =>
    have hDrop : packets.drop taken = packet :: packets.drop (taken + 1) := by
      obtain ⟨hLt, hAt⟩ := List.getElem?_eq_some_iff.mp hNext
      rw [← hAt]
      exact List.drop_eq_getElem_cons hLt
    rw [hReady, Bool.toNat_false, Nat.add_zero, hDrop, List.flatMap_cons, List.append_assoc] at hYields
    rw [if_neg (by decide)]
    exact preparePacket_spec (hPackets packet (List.mem_of_getElem? hNext)) hYields

/-- The packets are delivered exactly if there are records left after each call but the one that takes the
last packet: a packet that was looked at is no longer among them. -/
theorem delivers_reader (hYields : input.Yields (packets.flatMap TraceRecordPacket.records ++ leftover) s)
    (hSome : packets ≠ []) (calls : List Call) : (reader input).Delivers packets 0 (new s) calls ↔
      Throughout Call.next (fun taken c => taken < packets.length →
        (Stays packets leftover taken ↔ ¬ TakesLast packets.length taken c)) 0 calls := by
  have hStart : Holds input packets leftover 0 (new s) := by
    obtain ⟨packet, rest, rfl⟩ := List.exists_cons_of_ne_nil hSome
    exact ⟨hYields.1, nofun, hYields⟩
  refine delivers_iff (Holds input packets leftover) (fun taken _ => Stays packets leftover taken) ?_ ?_
    hStart (List.length_pos_iff.mpr hSome) calls
  · exact fun taken adaptor hHolds => hHolds.good
  · intro taken adaptor packet c hHolds hNext
    obtain ⟨t, hPrepare, hAfter⟩ := hHolds.prepare hPackets hNext
    have hEnd (hNot : ¬ Stays packets leftover taken) : input.good t = false := by
      rw [← stays_iff, ← hAfter.good_iff, Bool.not_eq_true] at hNot
      exact hNot
    cases c with
    | peek =>
      refine ⟨⟨t, true, packet⟩, ?_, fun hStays => ⟨?_, fun _ => hNext, hAfter⟩, hEnd⟩
      · change adaptor.peek input = _
        rw [peek, hPrepare]
        rfl
      · exact hAfter.good_iff.mpr (stays_iff.mpr hStays)
    | get =>
      refine ⟨⟨t, false, packet⟩, ?_, fun hStays => ⟨?_, nofun, hAfter⟩, hEnd⟩
      · change adaptor.get input = _
        rw [get, hPrepare]
        rfl
      · exact hAfter.good_iff.mpr (stays_iff.mpr hStays)

theorem delivers_reader_iff (hYields : input.Yields (packets.flatMap TraceRecordPacket.records ++ leftover) s)
    (calls : List Call) :
    (reader input).Delivers packets 0 (new s) calls ↔
      (packets = [] → leftover = []) ∧ Throughout Call.next (fun taken c => taken < packets.length →
        (Stays packets leftover taken ↔ ¬ TakesLast packets.length taken c)) 0 calls := by
  by_cases hSome : packets = []
  · subst hSome
    have hGood : input.good s = true ↔ leftover ≠ [] := hYields.good_iff
    refine ⟨fun hDelivers => ⟨fun _ => ?_, throughout_of_taken (Nat.zero_le _) calls⟩, fun hNone => ?_⟩
    · by_contra hLeft
      exact absurd (hDelivers.good_iff.mp (hGood.mpr hLeft)) (Nat.lt_irrefl 0)
    · refine delivers_of_taken (Nat.zero_le _) ?_ calls
      rw [← Bool.not_eq_true]
      exact fun hTrue => hGood.mp hTrue (hNone.1 rfl)
  · rw [delivers_reader hPackets hYields hSome, and_iff_right fun hNone => absurd hNone hSome]

end

end TracePacketStreamAdaptor

/-! ### Whole traces -/

/-- The packets of a file, with the records of a packet at its end that is not whole. -/
structure Groups (file : List Record) (packets : List TraceRecordPacket) (leftover : List Record) : Prop where
  file_eq : file = packets.flatMap TraceRecordPacket.records ++ leftover
  wellFormed : ∀ packet ∈ packets, packet.WellFormed
  truncated : ∀ head rest, leftover = head :: rest → rest.length < head.getExtensionCount.toNat

/-- When each of the readers delivers what is in a file. -/
theorem readers_deliver_iff (file : List Record) (calls : List Call) :
    (RecordFileInputStream.reader.Delivers file 0 (.openFile file) calls ↔
      file ≠ [] ∧ Throughout Call.next (fun taken c => taken < file.length →
        (RecordFileInputStream.Fills file.length taken ↔ ¬ TakesLast file.length taken c)) 0 calls) ∧
    (RecordStream.reader.Delivers file 0 (.openFile file) calls ↔ calls.count .get < file.length) ∧
    ∀ (σ : Type) (input : RecordStreamInput σ) (s : σ) (packets : List TraceRecordPacket)
      (leftover : List Record), Groups file packets leftover → input.Yields file s →
        ((TracePacketStreamAdaptor.reader input).Delivers packets 0 (.new s) calls ↔
          (packets = [] → leftover = []) ∧ Throughout Call.next (fun taken c => taken < packets.length →
            (TracePacketStreamAdaptor.Stays packets leftover taken ↔
              ¬ TakesLast packets.length taken c)) 0 calls) := by
  refine ⟨RecordFileInputStream.delivers_reader_iff file calls, RecordStream.delivers_reader_iff file calls, ?_⟩
  intro σ input s packets leftover hGroups hYields
  rw [hGroups.file_eq] at hYields
  exact TracePacketStreamAdaptor.delivers_reader_iff hGroups.wellFormed hYields calls

/-- A register write of 64 bits, with the upper half in an extension, and a register read. -/
def writeAndRead : List TraceRecordPacket :=
  [⟨.new .regWrite 3 7 1, [.new .dataExtension 4 1 0]⟩, ⟨.new .regRead 2 5 0, []⟩]

theorem groups_writeAndRead : Groups (writeAndRead.flatMap TraceRecordPacket.records) writeAndRead [] where
  file_eq := (List.append_nil _).symm
  wellFormed := by
    simp only [writeAndRead, List.forall_mem_cons]
    exact ⟨⟨by decide, by decide, by decide⟩, ⟨by decide, by decide, by decide⟩, nofun⟩
  truncated := nofun

theorem readers_deliver_iff_writeAndRead :
    (TracePacketStreamAdaptor.reader (recordBufferStream (writeAndRead.flatMap TraceRecordPacket.records))).Delivers
      writeAndRead 0 (.new 0) [.get, .get] := by
  refine ((readers_deliver_iff _ [.get, .get]).2.2 Nat _ 0 _ [] groups_writeAndRead
    (yields_recordBufferStream _ 0)).mpr ⟨nofun, fun _ => ?_, fun _ => ?_, trivial⟩
  · exact iff_of_true (.inl (by decide)) (by rintro ⟨-, hLast⟩; cases hLast)
  · exact iff_of_false (by rintro (hMore | hLeft) <;> simp_all [writeAndRead, Call.next]) fun hNot => hNot ⟨rfl, rfl⟩

/-- A file of one register write. -/
def oneWrite : List Record := [.new .regWrite 3 7 0]

/-- Of two records the second is not delivered, one record is followed by others that are not there, and
a packet that was looked at is not delivered. -/
theorem readers_fail :
    ¬ RecordFileInputStream.reader.Delivers (oneWrite ++ oneWrite) 0 (.openFile (oneWrite ++ oneWrite)) [.get] ∧
      ¬ RecordStream.reader.Delivers oneWrite 0 (.openFile oneWrite) [.get] ∧
      ¬ (TracePacketStreamAdaptor.reader (recordBufferStream oneWrite)).Delivers
        [⟨.new .regWrite 3 7 0, []⟩] 0 (.new 0) [.peek] := by
  have hWhole : ∀ packet ∈ [(⟨.new .regWrite 3 7 0, []⟩ : TraceRecordPacket)], packet.WellFormed :=
    List.forall_mem_singleton.mpr ⟨by decide, by decide, by decide⟩
  refine ⟨?_, ?_, ?_⟩
  · rw [RecordFileInputStream.delivers_reader_iff]
    rintro ⟨-, hFirst, -⟩
    have hFills := (hFirst (by decide)).mpr (by rintro ⟨-, hLast⟩; cases hLast)
    exact absurd hFills (by decide)
  · rw [RecordStream.delivers_reader_iff]
    decide
  · have hYields : (recordBufferStream oneWrite).Yields (([⟨.new .regWrite 3 7 0, []⟩] :
        List TraceRecordPacket).flatMap TraceRecordPacket.records ++ []) 0 := yields_recordBufferStream oneWrite 0
    rw [TracePacketStreamAdaptor.delivers_reader_iff hWhole hYields]
    rintro ⟨-, hFirst, -⟩
    rcases (hFirst (by decide)).mpr (by rintro ⟨hGet, -⟩; cases hGet) with hMore | hLeft
    · exact absurd hMore (by decide)
    · exact hLeft rfl

end Gensim.Trace
