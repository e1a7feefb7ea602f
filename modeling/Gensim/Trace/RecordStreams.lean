import Gensim.Lib.Reader
import Gensim.Trace.RecordTypes

/-! The readers of trace files. -/
namespace Gensim.Trace

open Operations Reader

/-! ### Files that are read with a stream -/

/-- The stream has the records of the file that it has not read yet, and whether `good()`. -/
structure RecordFileInputStream where
  rest : List Record
  streamGood : Bool
  isReadyRecord : Bool
  readyRecord : Record
  recordBuffer : List Record
  recordBufferPointer : Nat

namespace RecordFileInputStream

def recordBufferSize : Nat := 1024 * 1024

def openFile (file : List Record) : RecordFileInputStream := ⟨file, true, false, ⟨0, 0⟩, [], 0⟩

variable (s : RecordFileInputStream)

/-- A stream that reads less than it is asked for is at its end and no longer good. -/
def readBuffer : RecordFileInputStream :=
  let records := if s.streamGood then s.rest.take recordBufferSize else []
  { s with
    rest := s.rest.drop records.length
    streamGood := s.streamGood && records.length = recordBufferSize
    recordBuffer := records
    recordBufferPointer := 0 }

def refill : RecordFileInputStream :=
  if s.recordBufferPointer = s.recordBuffer.length then s.readBuffer else s

def makeReadyRecord : Option RecordFileInputStream := do
  let s := s.refill
  let record ← s.recordBuffer[s.recordBufferPointer]?
  some { s with
    readyRecord := record
    recordBufferPointer := s.recordBufferPointer + 1
    isReadyRecord := s.streamGood || s.isReadyRecord }

def prepare : Option RecordFileInputStream := if s.isReadyRecord then some s else s.makeReadyRecord

def get : Option (Record × RecordFileInputStream) := do
  let s ← s.prepare
  some (s.readyRecord, { s with isReadyRecord := false })

def peek : Option (Record × RecordFileInputStream) := do
  let s ← s.prepare
  some (s.readyRecord, s)

def reader : Reader RecordFileInputStream Record := ⟨streamGood, peek, get⟩

def buffered : List Record := s.recordBuffer.drop s.recordBufferPointer

/-- The stream after so many records were taken, while it is good: the file was read up to a multiple of
the size of the buffer. -/
structure Holds (file : List Record) (taken : Nat) (s : RecordFileInputStream) (loaded : Nat) : Prop where
  good : s.streamGood = true
  ready : s.isReadyRecord = true → file[taken]? = some s.readyRecord
  dvd : recordBufferSize ∣ loaded
  le : loaded ≤ file.length
  rest : s.rest = file.drop loaded
  pointer : s.recordBufferPointer ≤ s.recordBuffer.length
  length : taken + s.isReadyRecord.toNat + s.buffered.length = loaded
  bounded : s.isReadyRecord.toNat + s.buffered.length ≤ recordBufferSize
  ahead : ∀ i < s.buffered.length, s.buffered[i]? = file[taken + s.isReadyRecord.toNat + i]?

theorem size_pos : 0 < recordBufferSize := by decide

theorem holds_openFile (file : List Record) : Holds file 0 (openFile file) 0 where
  good := rfl
  ready hReady := nomatch hReady
  dvd := dvd_zero _
  le := Nat.zero_le _
  rest := rfl
  pointer := le_rfl
  length := rfl
  bounded := Nat.zero_le _
  ahead _ hLt := nomatch hLt

/-- The end of the buffer that a record is in. -/
theorem end_of_buffer {taken loaded : Nat} (hDvd : recordBufferSize ∣ loaded) (hLt : taken < loaded)
    (hLe : loaded ≤ taken + recordBufferSize) : (taken / recordBufferSize + 1) * recordBufferSize = loaded := by
  obtain ⟨count, rfl⟩ := hDvd
  have hDiv : taken / recordBufferSize = count - 1 := by
    have hCount : 0 < count := by
      rcases Nat.eq_zero_or_pos count with rfl | hPos
      · simp at hLt
      · exact hPos
    obtain ⟨before, rfl⟩ := Nat.exists_eq_succ_of_ne_zero hCount.ne'
    rw [Nat.mul_succ] at hLt hLe
    exact Nat.div_eq_of_lt_le (by rw [Nat.succ_sub_one, Nat.mul_comm]; omega)
      (by rw [Nat.succ_sub_one, Nat.succ_mul, Nat.mul_comm]; omega)
  rcases Nat.eq_zero_or_pos count with rfl | hPos
  · simp at hLt
  · rw [hDiv, Nat.sub_add_cancel hPos, Nat.mul_comm]

/-- The file fills the buffer that the record is in. -/
def Fills (length taken : Nat) : Prop := (taken / recordBufferSize + 1) * recordBufferSize ≤ length

instance (length taken : Nat) : Decidable (Fills length taken) := inferInstanceAs (Decidable (_ ≤ _))

variable {s} {file : List Record} {taken loaded : Nat} {x : Record}

section

variable (hHolds : Holds file taken s loaded)
include hHolds

theorem Holds.fills (hAhead : 0 < s.isReadyRecord.toNat + s.buffered.length) : Fills file.length taken := by
  have hLength := hHolds.length
  have hBounded := hHolds.bounded
  unfold Fills
  rw [end_of_buffer hHolds.dvd (by omega) (by omega)]
  exact hHolds.le

theorem Holds.buffer_getElem (hReady : s.isReadyRecord = false) (hAhead : s.buffered ≠ []) :
    s.recordBuffer[s.recordBufferPointer]? = file[taken]? := by
  have hFirst := hHolds.ahead 0 (List.length_pos_iff.mpr hAhead)
  rw [hReady] at hFirst
  rwa [buffered, List.getElem?_drop] at hFirst

/-- A buffer that the file fills is read whole. -/
theorem Holds.readBuffer (hReady : s.isReadyRecord = false) (hEmpty : s.buffered = [])
    (hFills : Fills file.length taken) :
    Holds file taken s.readBuffer (loaded + recordBufferSize) ∧ s.readBuffer.buffered ≠ [] := by
  have hLength := hHolds.length
  rw [hReady, hEmpty] at hLength
  obtain rfl : taken = loaded := hLength
  have hRoom : taken + recordBufferSize ≤ file.length := by
    unfold Fills at hFills
    rwa [Nat.succ_mul, Nat.div_mul_cancel hHolds.dvd] at hFills
  have hTake : ((file.drop taken).take recordBufferSize).length = recordBufferSize := by
    rw [List.length_take, List.length_drop]
    omega
  have hRead : s.readBuffer = { s with
      rest := file.drop (taken + recordBufferSize)
      recordBuffer := (file.drop taken).take recordBufferSize
      recordBufferPointer := 0 } := by
    unfold RecordFileInputStream.readBuffer
    rw [if_pos hHolds.good, hHolds.rest]
    dsimp only
    rw [hTake, hHolds.good, List.drop_drop]
    simp
  have hBuffered : s.readBuffer.buffered = (file.drop taken).take recordBufferSize := by
    rw [hRead]
    rfl
  refine ⟨⟨?_, ?_, ?_, hRoom, ?_, ?_, ?_, ?_, ?_⟩, ?_⟩
  · rw [hRead]
    exact hHolds.good
  · rw [hRead, hReady]
    exact nofun
  · exact Nat.dvd_add hHolds.dvd (Nat.dvd_refl _)
  · rw [hRead]
  · rw [hRead]
    exact Nat.zero_le _
  · rw [hBuffered, hTake, hRead, hReady]
    rfl
  · rw [hBuffered, hTake, hRead, hReady]
    exact (Nat.zero_add _).le
  · intro i hi
    rw [hBuffered, hTake] at hi
    rw [hBuffered, hRead, hReady, List.getElem?_take_of_lt hi, List.getElem?_drop]
    rfl
  · intro hNil
    rw [hBuffered] at hNil
    rw [hNil] at hTake
    exact absurd hTake size_pos.ne

/-- Otherwise the stream comes to its end, with the record at the start of the buffer. -/
theorem Holds.readBuffer_end (hReady : s.isReadyRecord = false) (hEmpty : s.buffered = [])
    (hEnd : ¬ Fills file.length taken) :
    s.readBuffer.streamGood = false ∧ s.readBuffer.recordBuffer[0]? = file[taken]? := by
  have hLength := hHolds.length
  rw [hReady, hEmpty] at hLength
  obtain rfl : taken = loaded := hLength
  have hRoom : file.length < taken + recordBufferSize := by
    unfold Fills at hEnd
    rwa [Nat.succ_mul, Nat.div_mul_cancel hHolds.dvd, not_le] at hEnd
  have hTake : (file.drop taken).take recordBufferSize = file.drop taken :=
    List.take_of_length_le (by rw [List.length_drop]; omega)
  unfold RecordFileInputStream.readBuffer
  rw [if_pos hHolds.good, hHolds.rest, hTake]
  dsimp only
  refine ⟨?_, ?_⟩
  · have hLe := hHolds.le
    rw [hHolds.good, List.length_drop, Bool.true_and, decide_eq_false_iff_not]
    omega
  · rw [List.getElem?_drop]
    rfl

theorem Holds.refill (hReady : s.isReadyRecord = false) :
    (Fills file.length taken → ∃ loaded, Holds file taken s.refill loaded ∧ s.refill.buffered ≠ []) ∧
      (¬ Fills file.length taken → s.refill.streamGood = false) ∧ s.refill.isReadyRecord = false ∧
      s.refill.recordBuffer[s.refill.recordBufferPointer]? = file[taken]? := by
  have hEmptyIff : s.recordBufferPointer = s.recordBuffer.length ↔ s.buffered = [] := by
    rw [buffered, List.drop_eq_nil_iff]
    exact ⟨fun hSame => hSame.ge, fun hGe => Nat.le_antisymm hHolds.pointer hGe⟩
  unfold RecordFileInputStream.refill
  split
  · rename_i hSame
    have hEmpty := hEmptyIff.mp hSame
    refine ⟨fun hFills => ⟨_, hHolds.readBuffer hReady hEmpty hFills⟩,
      fun hEnd => (hHolds.readBuffer_end hReady hEmpty hEnd).1, hReady, ?_⟩
    by_cases hFills : Fills file.length taken
    · obtain ⟨hAfter, hAhead⟩ := hHolds.readBuffer hReady hEmpty hFills
      exact hAfter.buffer_getElem hReady hAhead
    · exact (hHolds.readBuffer_end hReady hEmpty hFills).2
  · rename_i hMore
    have hAhead : s.buffered ≠ [] := fun hEmpty => hMore (hEmptyIff.mpr hEmpty)
    have hFills := hHolds.fills (Nat.add_pos_right _ (List.length_pos_iff.mpr hAhead))
    exact ⟨fun _ => ⟨loaded, hHolds, hAhead⟩, fun hEnd => absurd hFills hEnd, hReady,
      hHolds.buffer_getElem hReady hAhead⟩

/-- Make the first record of the buffer the ready one. -/
theorem Holds.makeReady (hReady : s.isReadyRecord = false) (hAhead : s.buffered ≠ []) (hNext : file[taken]? = some x) :
    Holds file taken { s with
      readyRecord := x
      recordBufferPointer := s.recordBufferPointer + 1
      isReadyRecord := true } loaded := by
  have hLength := hHolds.length
  have hBounded := hHolds.bounded
  rw [hReady] at hLength hBounded
  have hPos := List.length_pos_iff.mpr hAhead
  have hBuffered : s.recordBuffer.drop (s.recordBufferPointer + 1) = s.buffered.drop 1 := by
    rw [buffered, List.drop_drop]
  have hPointer : s.recordBufferPointer < s.recordBuffer.length := by
    rw [buffered, List.length_drop] at hPos
    omega
  refine ⟨hHolds.good, fun _ => hNext, hHolds.dvd, hHolds.le, hHolds.rest, hPointer, ?_, ?_, ?_⟩
  · change taken + 1 + (s.recordBuffer.drop (s.recordBufferPointer + 1)).length = loaded
    rw [hBuffered, List.length_drop, ← hLength]
    simp only [Bool.toNat_false]
    omega
  · change 1 + (s.recordBuffer.drop (s.recordBufferPointer + 1)).length ≤ recordBufferSize
    rw [hBuffered, List.length_drop]
    simp only [Bool.toNat_false] at hBounded
    omega
  · intro i hi
    change i < (s.recordBuffer.drop (s.recordBufferPointer + 1)).length at hi
    change (s.recordBuffer.drop (s.recordBufferPointer + 1))[i]? = file[taken + 1 + i]?
    rw [hBuffered, List.length_drop] at hi
    have hAt := hHolds.ahead (1 + i) (by omega)
    rw [hReady] at hAt
    rw [hBuffered, List.getElem?_drop, hAt, Bool.toNat_false, Nat.add_zero, Nat.add_assoc]

theorem Holds.prepare (hNext : file[taken]? = some x) :
    ∃ t, s.prepare = some t ∧ t.readyRecord = x ∧
      (Fills file.length taken → ∃ loaded, Holds file taken t loaded ∧ t.isReadyRecord = true) ∧
      (¬ Fills file.length taken → t.streamGood = false) := by
  unfold RecordFileInputStream.prepare
  cases hReady : s.isReadyRecord with
  | true =>
    have hFills := hHolds.fills (by rw [hReady]; exact Nat.add_pos_left Nat.one_pos _)
    refine ⟨s, rfl, ?_, fun _ => ⟨loaded, hHolds, hReady⟩, fun hEnd => absurd hFills hEnd⟩
    rw [hHolds.ready hReady, Option.some_inj] at hNext
    exact hNext
  | false =>
    obtain ⟨hFull, hEnd, hStill, hFirst⟩ := hHolds.refill hReady
    rw [if_neg (by decide), makeReadyRecord, hFirst, hNext]
    refine ⟨_, rfl, rfl, fun hFills => ?_, hEnd⟩
    obtain ⟨loaded', hAfter, hAhead⟩ := hFull hFills
    refine ⟨loaded', ?_, ?_⟩
    · have hMade := hAfter.makeReady hStill hAhead hNext
      rw [hAfter.good] at hMade ⊢
      exact hMade
    · rw [hAfter.good, Bool.true_or]

theorem Holds.take (hReady : s.isReadyRecord = true) :
    Holds file (taken + 1) { s with isReadyRecord := false } loaded := by
  have hLength := hHolds.length
  have hBounded := hHolds.bounded
  have hAhead := hHolds.ahead
  rw [hReady] at hLength hBounded hAhead
  refine ⟨hHolds.good, nofun, hHolds.dvd, hHolds.le, hHolds.rest, hHolds.pointer, hLength, ?_, hAhead⟩
  change 0 + s.buffered.length ≤ recordBufferSize
  simp only [Bool.toNat_true] at hBounded
  omega

end

/-- A file is delivered exactly if each call is for a record of a buffer that the file fills, apart from
the one that takes the last record. -/
theorem delivers_reader (hFile : file ≠ []) (calls : List Call) : reader.Delivers file 0 (openFile file) calls ↔
      Throughout Call.next (fun taken c => taken < file.length →
        (Fills file.length taken ↔ ¬ TakesLast file.length taken c)) 0 calls := by
  refine delivers_iff (fun taken s => ∃ loaded, Holds file taken s loaded) _ ?_ ?_
    ⟨0, holds_openFile file⟩ (List.length_pos_iff.mpr hFile) calls
  · rintro taken s ⟨loaded, hHolds⟩
    exact hHolds.good
  · rintro taken s x c ⟨loaded, hHolds⟩ hNext
    obtain ⟨t, hPrepare, hRecord, hFull, hEnd⟩ := hHolds.prepare hNext
    cases c with
    | peek =>
      refine ⟨t, ?_, fun hFills => ?_, hEnd⟩
      · change s.peek = _
        rw [peek, hPrepare, ← hRecord]
        rfl
      · obtain ⟨loaded', hAfter, -⟩ := hFull hFills
        exact ⟨loaded', hAfter⟩
    | get =>
      refine ⟨{ t with isReadyRecord := false }, ?_, fun hFills => ?_, hEnd⟩
      · change s.get = _
        rw [get, hPrepare, ← hRecord]
        rfl
      · obtain ⟨loaded', hAfter, hReady⟩ := hFull hFills
        exact ⟨loaded', hAfter.take hReady⟩

theorem delivers_reader_iff (file : List Record) (calls : List Call) : reader.Delivers file 0 (openFile file) calls ↔
      file ≠ [] ∧ Throughout Call.next (fun taken c => taken < file.length →
        (Fills file.length taken ↔ ¬ TakesLast file.length taken c)) 0 calls := by
  by_cases hFile : file = []
  · subst hFile
    refine iff_of_false (fun hDelivers => ?_) fun hBoth => hBoth.1 rfl
    exact absurd (hDelivers.good_iff.mp rfl) (Nat.lt_irrefl 0)
  · rw [delivers_reader hFile, and_iff_right hFile]

end RecordFileInputStream

/-! ### Files that are read with a buffer of their own -/

/-- The file has the records that were not read yet, and whether `feof`. -/
structure RecordStream where
  rest : List Record
  endOfFile : Bool
  buffer : List Record
  bufferPtr : Nat
  good : Bool

namespace RecordStream

def kBufferEntries : Nat := 1 <<< 10

def openFile (file : List Record) : RecordStream :=
  ⟨file, false, List.replicate kBufferEntries ⟨0, 0⟩, kBufferEntries, true⟩

variable (s : RecordStream)

/-- `fread` leaves the rest of the buffer as it was. -/
def readBuffer : RecordStream :=
  let records := s.rest.take kBufferEntries
  { s with
    rest := s.rest.drop records.length
    endOfFile := records.length < kBufferEntries
    buffer := records ++ s.buffer.drop records.length
    bufferPtr := 0
    good := true }

/-- The end of the file is looked for before the buffer is read. -/
def refillBuffer : RecordStream :=
  if s.endOfFile then { s with bufferPtr := 0, good := false } else s.readBuffer

def prepare : RecordStream := if s.bufferPtr = kBufferEntries then s.refillBuffer else s

def next : Option (Record × RecordStream) := do
  let s := s.prepare
  let record ← s.buffer[s.bufferPtr]?
  some (record, { s with bufferPtr := s.bufferPtr + 1 })

def peek : Option (Record × RecordStream) := do
  let s := s.prepare
  let record ← s.buffer[s.bufferPtr]?
  some (record, s)

def reader : Reader RecordStream Record := ⟨good, peek, next⟩

/-- The stream after so many records were taken: the buffer ends before the record `stop`. -/
structure Holds (file : List Record) (taken : Nat) (s : RecordStream) (stop : Nat) : Prop where
  good : s.good = true
  atEnd : s.endOfFile = true → file.length < stop
  rest : s.rest = file.drop stop
  bounded : s.bufferPtr ≤ kBufferEntries
  pointer : taken + kBufferEntries = stop + s.bufferPtr
  buffered : ∀ i < kBufferEntries, ∀ position < file.length, position + kBufferEntries = stop + i →
    s.buffer[i]? = file[position]?

theorem holds_openFile (file : List Record) : Holds file 0 (openFile file) 0 where
  good := rfl
  atEnd hEnd := nomatch hEnd
  rest := rfl
  bounded := le_rfl
  pointer := rfl
  buffered i hi position _ hPosition := by omega

variable {s} {file : List Record} {taken stop : Nat} {x : Record}

section

variable (hHolds : Holds file taken s stop)
include hHolds

theorem Holds.readBuffer (hAt : taken = stop) (hMore : taken < file.length) :
    Holds file taken s.readBuffer (stop + kBufferEntries) := by
  have hLength : ((file.drop stop).take kBufferEntries).length = min kBufferEntries (file.length - stop) := by
    rw [List.length_take, List.length_drop]
  refine ⟨rfl, ?_, ?_, Nat.zero_le _, ?_, ?_⟩
  · unfold RecordStream.readBuffer
    rw [hHolds.rest]
    dsimp only
    rw [hLength, decide_eq_true_eq]
    omega
  · unfold RecordStream.readBuffer
    rw [hHolds.rest]
    dsimp only
    rw [hLength, List.drop_drop]
    rcases Nat.le_total kBufferEntries (file.length - stop) with hFull | hShort
    · rw [min_eq_left hFull]
    · rw [min_eq_right hShort, List.drop_eq_nil_of_le (by omega), List.drop_eq_nil_of_le (by omega)]
  · change taken + kBufferEntries = stop + kBufferEntries + 0
    omega
  · intro i hi position hPosition hSame
    obtain rfl : position = stop + i := by omega
    change ((s.rest.take kBufferEntries) ++ _)[i]? = _
    rw [hHolds.rest, List.getElem?_append_left (by rw [hLength]; omega), List.getElem?_take_of_lt hi,
      List.getElem?_drop]

/-- While there are records left, the next one is at the pointer once the buffer was refilled. -/
theorem Holds.prepare (hNext : file[taken]? = some x) :
    (∃ stop, Holds file taken s.prepare stop) ∧ s.prepare.bufferPtr < kBufferEntries ∧
      s.prepare.buffer[s.prepare.bufferPtr]? = some x := by
  have hMore : taken < file.length := by
    by_contra hLe
    rw [List.getElem?_eq_none (not_lt.mp hLe)] at hNext
    cases hNext
  have hAtPointer {s : RecordStream} {stop : Nat} (hHolds : Holds file taken s stop)
      (hLt : s.bufferPtr < kBufferEntries) : s.buffer[s.bufferPtr]? = some x :=
    (hHolds.buffered _ hLt taken hMore hHolds.pointer).trans hNext
  unfold RecordStream.prepare
  split
  · rename_i hEmpty
    have hAt : taken = stop := by
      have hPointer := hHolds.pointer
      omega
    have hRefill : s.refillBuffer = s.readBuffer := by
      refine if_neg fun hEnd => ?_
      have hShort := hHolds.atEnd hEnd
      omega
    have hAfter := hHolds.readBuffer hAt hMore
    have hStart : s.readBuffer.bufferPtr < kBufferEntries := by
      change 0 < kBufferEntries
      decide
    rw [hRefill]
    exact ⟨⟨_, hAfter⟩, hStart, hAtPointer hAfter hStart⟩
  · rename_i hFilled
    have hLt := lt_of_le_of_ne hHolds.bounded hFilled
    exact ⟨⟨stop, hHolds⟩, hLt, hAtPointer hHolds hLt⟩

theorem Holds.take (hLt : s.bufferPtr < kBufferEntries) :
    Holds file (taken + 1) { s with bufferPtr := s.bufferPtr + 1 } stop := by
  refine ⟨hHolds.good, hHolds.atEnd, hHolds.rest, hLt, ?_, hHolds.buffered⟩
  have hPointer := hHolds.pointer
  change taken + 1 + kBufferEntries = stop + (s.bufferPtr + 1)
  omega

end

theorem delivers_reader (hFile : file ≠ []) (calls : List Call) : reader.Delivers file 0 (openFile file) calls ↔
      Throughout Call.next (fun taken c => taken < file.length → (True ↔ ¬ TakesLast file.length taken c)) 0 calls := by
  refine delivers_iff (fun taken s => ∃ stop, Holds file taken s stop) _ ?_ ?_
    ⟨0, holds_openFile file⟩ (List.length_pos_iff.mpr hFile) calls
  · rintro taken s ⟨stop, hHolds⟩
    exact hHolds.good
  · rintro taken s x c ⟨stop, hHolds⟩ hNext
    obtain ⟨⟨stop', hAfter⟩, hLt, hRecord⟩ := hHolds.prepare hNext
    cases c with
    | peek =>
      refine ⟨s.prepare, ?_, fun _ => ⟨stop', hAfter⟩, fun hNot => absurd trivial hNot⟩
      change s.peek = _
      rw [peek, hRecord]
      rfl
    | get =>
      refine ⟨_, ?_, fun _ => ⟨stop', hAfter.take hLt⟩, fun hNot => absurd trivial hNot⟩
      change s.next = _
      rw [next, hRecord]
      rfl

/-- Not all records are taken. -/
theorem throughout_not_takesLast {length taken : Nat} (hLt : taken < length) (calls : List Call) :
    Throughout Call.next (fun taken c => taken < length → (True ↔ ¬ TakesLast length taken c)) taken calls ↔
      taken + calls.count .get < length := by
  induction calls generalizing taken with
  | nil => exact iff_of_true trivial hLt
  | cons c calls ih =>
    rw [throughout_cons, true_iff]
    cases c with
    | peek =>
      rw [List.count_cons_of_ne (by decide), and_iff_right]
      · exact ih hLt
      · rintro - ⟨hPeek, -⟩
        cases hPeek
    | get =>
      rw [List.count_cons_self]
      by_cases hLast : taken + 1 = length
      · exact iff_of_false (fun hBoth => hBoth.1 hLt ⟨rfl, hLast⟩) (by omega)
      · rw [and_iff_right fun _ hTakes => hLast hTakes.2]
        have hMore : taken + 1 < length := by omega
        refine (ih hMore).trans ?_
        omega

/-- A file is delivered as long as its last record is not taken: the stream never says that there are no
more records. -/
theorem delivers_reader_iff (file : List Record) (calls : List Call) :
    reader.Delivers file 0 (openFile file) calls ↔ calls.count .get < file.length := by
  by_cases hFile : file = []
  · subst hFile
    refine iff_of_false (fun hDelivers => ?_) (Nat.not_lt_zero _)
    exact absurd (hDelivers.good_iff.mp rfl) (Nat.lt_irrefl 0)
  · rw [delivers_reader hFile, throughout_not_takesLast (List.length_pos_iff.mpr hFile), Nat.zero_add]

end RecordStream

end Gensim.Trace
