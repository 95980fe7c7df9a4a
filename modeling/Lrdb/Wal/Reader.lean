import Lrdb.Base.Frames
import Lrdb.Wal.Codec
import Lrdb.Wal.Replay

/-!
# Reading a log file

The reader takes one frame after another: four bytes of length and a record. A short length is the
end of the file; anything else that is wrong sends recovery in search of a later position at which a
whole record can be read.
-/

namespace Lrdb

/-- An input stream with its position, its `failbit` and its `eofbit`. -/
structure InputFile where
  data : Bytes
  position : Nat := 0
  fail : Bool := false
  eof : Bool := false
  deriving DecidableEq, Repr

namespace InputFile

/-- `gcount` is the length of what was read; a short read sets both flags. -/
def read (f : InputFile) (n : Nat) : Bytes × InputFile :=
  if f.fail || f.eof then ([], { f with fail := true })
  else
    let bytes := (f.data.drop f.position).take n
    if bytes.length = n then (bytes, { f with position := f.position + n })
    else (bytes, { f with position := f.position + bytes.length, fail := true, eof := true })

/-- The flag of the end is cleared first; a stream that has failed stays where it is. -/
def seekg (f : InputFile) (position : Nat) : InputFile :=
  if f.fail then { f with eof := false } else { f with position := position, eof := false }

def readFrame (f : InputFile) (limit : Nat) : Except Status Bytes × InputFile :=
  let (lengthBytes, f) := f.read 4
  if lengthBytes.length ≠ 4 then
    if f.eof then (.error (.incomplete "EOF reached"), f)
    else (.error (.ioError "Failed to read record length"), f)
  else
    let recordLength := decodeFixed lengthBytes
    if recordLength = 0 ∨ limit < recordLength then
      (.error (.corruption "Invalid record length"), f)
    else
      let (recordData, f) := f.read recordLength
      if recordData.length ≠ recordLength then (.error (.corruption "Record data truncated"), f)
      else (.ok recordData, f)

end InputFile

structure WALReader where
  file : InputFile
  readPosition : Nat := 0
  eofReached : Bool := false
  deriving DecidableEq, Repr

namespace WALReader

def opened (data : Bytes) : WALReader := { file := { data := data } }

def maxRecordLength : Nat := 100 * 1024 * 1024

def readRecordInternal (reader : WALReader) : Except Status WALRecord × WALReader :=
  let (lengthBytes, file) := reader.file.read 4
  if lengthBytes.length ≠ 4 then
    if file.eof then
      (.error (.incomplete "EOF reached"), { reader with file := file, eofReached := true })
    else (.error (.ioError "Failed to read record length"), { reader with file := file })
  else
    let recordLength := decodeFixed lengthBytes
    if recordLength = 0 ∨ maxRecordLength < recordLength then
      (.error (.corruption "Invalid record length"), { reader with file := file })
    else
      let (recordData, file) := file.read recordLength
      if recordData.length ≠ recordLength then
        (.error (.corruption "Record data truncated"), { reader with file := file })
      else
        match WALRecord.decode recordData with
        | .error status => (.error status, { reader with file := file })
        | .ok r =>
            (.ok r, { reader with
              file := file, readPosition := reader.readPosition + 4 + recordLength })

def readNextRecord (reader : WALReader) : Except Status WALRecord × WALReader :=
  if reader.eofReached then (.error (.incomplete "EOF reached"), reader)
  else reader.readRecordInternal

def seek (reader : WALReader) (position : Nat) : Status × WALReader :=
  let file := reader.file.seekg position
  if file.fail then (.ioError "Failed to seek in WAL file", { reader with file := file })
  else (.ok, ⟨file, position, false⟩)

end WALReader

def maxResyncBytes : Nat := 64 * 1024

/-- `TryResyncWALFile`: the first later position where a reader of its own gets a record. -/
def tryResync (data : Bytes) (start : Nat) : Option Nat :=
  ((List.range maxResyncBytes).map fun i => start + (i + 1)).find? fun position =>
    ((WALReader.opened data).seek position).2.readNextRecord.1.toOption.isSome

structure Recovery (cmp : Comparator) where
  state : ReplayState cmp
  applied : List WALRecord := []

namespace Recovery
variable {cmp : Comparator} (options : MemTableOptions)

/-- One round of the loop of `RecoverFromWALFile`; without a reader the file is done. -/
def round (reader : WALReader) (st : Recovery cmp) :
    Except Status (Recovery cmp × Option WALReader) :=
  if reader.eofReached then .ok (st, none)
  else
    match reader.readNextRecord with
    | (.ok r, reader) => do
        let state ← st.state.next options r
        return (⟨state, st.applied ++ [r]⟩, some reader)
    | (.error status, reader) =>
        if status.isIncomplete then .ok (st, none)
        else
          match tryResync reader.file.data reader.readPosition with
          | none => .error (.corruption "WAL resync failed (file keeps remaining records)")
          | some position =>
              let (status, reader) := reader.seek position
              if status.isOk then .ok (st, some reader) else .error status

def loop : Nat → WALReader → Recovery cmp → Option (Except Status (Recovery cmp))
  | 0, _, _ => none
  | fuel + 1, reader, st =>
      match round options reader st with
      | .error status => some (.error status)
      | .ok (st, none) => some (.ok st)
      | .ok (st, some reader) => loop fuel reader st

def file (st : Recovery cmp) (data : Bytes) : Except Status (Recovery cmp) :=
  (loop options (data.length + 1) (.opened data) st).getD
    (.error (.corruption "WAL resync failed (file keeps remaining records)"))

end Recovery

/-! ## What one read does -/

def WALRecord.frame (r : WALRecord) : Bytes := putFixed32 r.encodedLength ++ r.encode

@[simp] theorem WALRecord.length_frame (r : WALRecord) : r.frame.length = 4 + r.encodedLength := by
  simp [frame, putFixed32]

theorem WALRecord.encodedLength_pos (r : WALRecord) : 33 ≤ r.encodedLength := by
  rw [encodedLength]
  omega

def WALRecord.Readable (r : WALRecord) : Prop := r.encodedLength ≤ WALReader.maxRecordLength

instance (r : WALRecord) : Decidable r.Readable := inferInstanceAs (Decidable (_ ≤ _))

namespace InputFile
variable {f : InputFile} {n : Nat}

theorem read_whole (fine : f.fail = false) (before : f.eof = false) {bytes rest : Bytes}
    (parts : f.data.drop f.position = bytes ++ rest) (length : bytes.length = n) :
    f.read n = (bytes, { f with position := f.position + n }) := by
  have delivered : (f.data.drop f.position).take n = bytes := by rw [parts, List.take_left' length]
  simp [read, fine, before, delivered, length]

theorem read_short (fine : f.fail = false) (before : f.eof = false)
    (short : (f.data.drop f.position).length < n) :
    f.read n = (f.data.drop f.position, { f with
      position := f.position + (f.data.drop f.position).length, fail := true, eof := true }) := by
  have delivered : (f.data.drop f.position).take n = f.data.drop f.position :=
    List.take_of_length_le short.le
  rw [read, fine, before, if_neg (by decide)]
  dsimp only
  rw [delivered, if_neg short.ne]

variable {data : Bytes} {position : Nat}

theorem readFrame_end (limit : Nat) (short : (data.drop position).length < 4) :
    (⟨data, position, false, false⟩ : InputFile).readFrame limit =
      (.error (.incomplete "EOF reached"),
        ⟨data, position + (data.drop position).length, true, true⟩) := by
  have read := InputFile.read_short (f := ⟨data, position, false, false⟩) rfl rfl short
  rw [readFrame, read]
  dsimp only
  rw [if_pos short.ne, if_pos rfl]

theorem readFrame_of_length {limit length : Nat} {rest : Bytes} (fits : length < 256 ^ 4)
    (parts : data.drop position = putFixed32 length ++ rest) :
    (⟨data, position, false, false⟩ : InputFile).readFrame limit =
      if length = 0 ∨ limit < length then
        (.error (.corruption "Invalid record length"), ⟨data, position + 4, false, false⟩)
      else if rest.length < length then
        (.error (.corruption "Record data truncated"),
          ⟨data, position + 4 + rest.length, true, true⟩)
      else (.ok (rest.take length), ⟨data, position + 4 + length, false, false⟩) := by
  have read := InputFile.read_whole (f := ⟨data, position, false, false⟩) rfl rfl parts
    (length_putFixed32 length)
  have decoded : decodeFixed (putFixed32 length) = length := by
    rw [putFixed32, decodeFixed_putFixed, Nat.mod_eq_of_lt fits]
  have after : data.drop (position + 4) = rest := by
    rw [← List.drop_drop, parts, List.drop_left' (length_putFixed32 length)]
  rw [readFrame, read]
  dsimp only
  rw [if_neg (not_not.mpr (length_putFixed32 length)), decoded]
  by_cases invalid : length = 0 ∨ limit < length
  · rw [if_pos invalid, if_pos invalid]
  rw [if_neg invalid, if_neg invalid]
  by_cases short : rest.length < length
  · rw [InputFile.read_short (f := ⟨data, position + 4, false, false⟩) rfl rfl (after ▸ short),
      if_pos short]
    dsimp only
    rw [after, if_pos short.ne]
  · have whole := List.length_take_of_le (Nat.le_of_not_lt short)
    rw [InputFile.read_whole (f := ⟨data, position + 4, false, false⟩) rfl rfl
      (after.trans (List.take_append_drop length rest).symm) whole, if_neg short]
    dsimp only
    rw [if_neg (not_not.mpr whole)]

end InputFile

namespace WALReader
variable {data : Bytes} {position : Nat}

def standing (data : Bytes) (position : Nat) : WALReader := ⟨⟨data, position, false, false⟩, position, false⟩

theorem opened_eq (data : Bytes) : opened data = standing data 0 := rfl

theorem seek_standing (position other : Nat) :
    (standing data position).seek other = (.ok, standing data other) := rfl

theorem readRecordInternal_eq (reader : WALReader) : reader.readRecordInternal =
    match reader.file.readFrame maxRecordLength with
    | (.error status, file) =>
        (.error status, { reader with
          file := file, eofReached := status.isIncomplete || reader.eofReached })
    | (.ok recordData, file) =>
        match WALRecord.decode recordData with
        | .error status => (.error status, { reader with file := file })
        | .ok r =>
            (.ok r, { reader with
              file := file, readPosition := reader.readPosition + 4 + recordData.length }) := by
  rw [readRecordInternal, InputFile.readFrame]
  dsimp only
  split
  · split <;> rfl
  split
  · rfl
  split
  · rfl
  · rename_i _ _ whole
    simp only [not_not.mp whole]

theorem readNextRecord_end (short : (data.drop position).length < 4) :
    (standing data position).readNextRecord = (.error (.incomplete "EOF reached"),
      ⟨⟨data, position + (data.drop position).length, true, true⟩, position, true⟩) := by
  rw [readNextRecord, if_neg (by exact Bool.false_ne_true), readRecordInternal_eq]
  simp only [standing, InputFile.readFrame_end maxRecordLength short]
  rfl

theorem readNextRecord_of_length {length : Nat} {rest : Bytes} (fits : length < 256 ^ 4)
    (parts : data.drop position = putFixed32 length ++ rest) :
    (standing data position).readNextRecord =
      if length = 0 ∨ maxRecordLength < length then
        (.error (.corruption "Invalid record length"),
          ⟨⟨data, position + 4, false, false⟩, position, false⟩)
      else if rest.length < length then
        (.error (.corruption "Record data truncated"),
          ⟨⟨data, position + 4 + rest.length, true, true⟩, position, false⟩)
      else
        match WALRecord.decode (rest.take length) with
        | .error status =>
            (.error status, ⟨⟨data, position + 4 + length, false, false⟩, position, false⟩)
        | .ok r => (.ok r, standing data (position + 4 + length)) := by
  rw [readNextRecord, if_neg (by exact Bool.false_ne_true), readRecordInternal_eq]
  simp only [standing, InputFile.readFrame_of_length fits parts]
  by_cases invalid : length = 0 ∨ maxRecordLength < length
  · rw [if_pos invalid, if_pos invalid]
    rfl
  rw [if_neg invalid, if_neg invalid]
  by_cases short : rest.length < length
  · rw [if_pos short, if_pos short]
    rfl
  rw [if_neg short, if_neg short]
  have taken := List.length_take_of_le (Nat.le_of_not_lt short)
  dsimp only
  cases WALRecord.decode (rest.take length) with
  | error status => rfl
  | ok r =>
      dsimp only
      rw [taken]

theorem encodedLength_fits {r : WALRecord} (valid : r.Valid) : r.encodedLength < 256 ^ 4 :=
  valid.short.trans_lt (by decide)

theorem readNextRecord_frame {r : WALRecord} (typed : r.Typed) (readable : r.Readable)
    {rest : Bytes} (parts : data.drop position = r.frame ++ rest) :
    (standing data position).readNextRecord = (.ok r, standing data (position + r.frame.length)) := by
  rw [WALRecord.frame, List.append_assoc] at parts
  have short : r.encodedLength ≤ WALRecord.maxEncodedLength := readable.trans (by decide)
  rw [readNextRecord_of_length (short.trans_lt (by decide)) parts, if_neg, if_neg,
    List.take_left' (WALRecord.length_encode r),
    WALRecord.decode_encode typed (WALRecord.short_of_encodedLength short),
    WALRecord.length_frame, Nat.add_assoc]
  · simp
  · rintro (empty | long)
    · exact absurd empty (Nat.ne_of_gt (Nat.lt_of_lt_of_le (by decide) r.encodedLength_pos))
    · exact absurd readable (Nat.not_le.mpr long)

theorem readNextRecord_torn {r : WALRecord} (valid : r.Valid) {m : Nat} (long : 4 ≤ m)
    (cut : m < r.frame.length) (parts : data.drop position = r.frame.take m) :
    (standing data position).readNextRecord =
      if r.Readable then
        (.error (.corruption "Record data truncated"), ⟨⟨data, position + m, true, true⟩, position, false⟩)
      else
        (.error (.corruption "Invalid record length"),
          ⟨⟨data, position + 4, false, false⟩, position, false⟩) := by
  have length : (r.encode.take (m - 4)).length = m - 4 := by
    apply List.length_take_of_le
    rw [WALRecord.length_frame] at cut
    rw [WALRecord.length_encode]
    omega
  rw [WALRecord.frame, List.take_append, List.take_of_length_le (by rwa [length_putFixed32]),
    length_putFixed32] at parts
  rw [readNextRecord_of_length (encodedLength_fits valid) parts, length]
  by_cases readable : r.Readable
  · rw [if_pos readable, if_neg, if_pos, Nat.add_assoc, Nat.add_sub_cancel' long]
    · rw [WALRecord.length_frame] at cut
      omega
    · rintro (empty | large)
      · exact absurd empty (Nat.ne_of_gt (Nat.lt_of_lt_of_le (by decide) r.encodedLength_pos))
      · exact absurd readable (Nat.not_le.mpr large)
  · rw [if_neg readable, if_pos (.inr (Nat.lt_of_not_le readable))]

theorem readNextRecord_cases (data : Bytes) (position : Nat) :
    (∃ r, (standing data position).readNextRecord =
        (.ok r, standing data (position + r.frame.length)) ∧
      r.Readable ∧ position + r.frame.length ≤ data.length) ∨
    ∃ status reader, (standing data position).readNextRecord = (.error status, reader) ∧
      reader.file.data = data ∧ reader.readPosition = position := by
  by_cases short : (data.drop position).length < 4
  · exact .inr ⟨_, _, readNextRecord_end short, rfl, rfl⟩
  obtain ⟨bytes, rest, parts, four⟩ : ∃ bytes rest : Bytes,
      data.drop position = bytes ++ rest ∧ bytes.length = 4 :=
    ⟨_, _, (List.take_append_drop 4 _).symm, List.length_take_of_le (Nat.le_of_not_lt short)⟩
  have same : bytes = putFixed32 (decodeFixed bytes) := by
    rw [putFixed32, ← four, putFixed_decodeFixed]
  have fits : decodeFixed bytes < 256 ^ 4 := four ▸ decodeFixed_lt bytes
  rw [readNextRecord_of_length fits (same ▸ parts)]
  split
  · exact .inr ⟨_, _, rfl, rfl, rfl⟩
  split
  · exact .inr ⟨_, _, rfl, rfl, rfl⟩
  rename_i valid whole
  cases decoded : WALRecord.decode (rest.take (decodeFixed bytes)) with
  | error status => exact .inr ⟨_, _, rfl, rfl, rfl⟩
  | ok r =>
      have length := WALRecord.decode_length decoded
      rw [List.length_take_of_le (Nat.le_of_not_lt whole)] at length
      have total := congrArg List.length parts
      simp only [List.length_drop, List.length_append, four] at total
      refine .inl ⟨r, ?_, ?_, ?_⟩
      · rw [WALRecord.length_frame, length, Nat.add_assoc]
      · rw [WALRecord.Readable, length]
        exact Nat.le_of_not_lt (not_or.mp valid).2
      · rw [WALRecord.length_frame, length]
        omega

end WALReader
end Lrdb
