import Lrdb.Db.ManifestCodec
import Lrdb.Wal.Reader

/-!
# Reading the manifest files

A file is read record by record; after a record that is wrong, recovery looks for the next position at
which a record can be read. A stream that has come to the end of the file cannot be moved any more.
-/

namespace Lrdb
open Frames

structure ManifestReader where
  file : InputFile
  readPosition : Nat := 0
  eofReached : Bool := false
  deriving DecidableEq, Repr

namespace ManifestReader

def opened (data : Bytes) : ManifestReader := { file := { data := data } }

def maxRecordLength : Nat := 10 * 1024 * 1024

def readNextRecord (reader : ManifestReader) : Option (Except Status RawRecord × ManifestReader) :=
  if reader.eofReached then some (.error (.incomplete "EOF reached"), reader)
  else
    match reader.file.readFrame maxRecordLength with
    | (.error status, file) =>
        some (.error status, { reader with file := file, eofReached := status.isIncomplete })
    | (.ok recordData, file) => do
        match ← RawRecord.decode recordData with
        | .error status => return (.error status, { reader with file := file })
        | .ok r =>
            return (.ok r, { reader with
              file := file, readPosition := reader.readPosition + 4 + recordData.length })

def seek (reader : ManifestReader) (position : Nat) : Status × ManifestReader :=
  let file := reader.file.seekg position
  if file.fail then (.ioError "Failed to seek in manifest file", { reader with file := file })
  else (.ok, ⟨file, position, false⟩)

end ManifestReader

namespace ManifestFile

def maxResyncBytes : Nat := 64 * 1024

def probe (data : Bytes) : Nat → Nat → Option (Option Nat)
  | 0, _ => some none
  | n + 1, position => do
      let (found, _) ← ((ManifestReader.opened data).seek position).2.readNextRecord
      if found.toOption.isSome then return some position else probe data n (position + 1)

def tryResyncManifestFile (data : Bytes) (start : Nat) : Option (Option Nat) :=
  probe data maxResyncBytes (start + 1)

end ManifestFile

structure ManifestRecovery where
  table : DescriptorTable ColumnFamilyOptions
  localMaxSequence : Nat := 0

namespace ManifestRecovery

inductive Round where
  | next (reader : ManifestReader) (st : ManifestRecovery)
  | done (status : Status) (st : ManifestRecovery)

/-- One round of the loop of `RecoverFromManifestFile`. -/
def round (reader : ManifestReader) (st : ManifestRecovery) : Option Round :=
  if reader.eofReached then some (.done .ok st)
  else do
    match ← reader.readNextRecord with
    | (.ok r, reader) =>
        let table ← st.table.applyRaw r
        return .next reader ⟨table, max st.localMaxSequence r.sequenceNumber⟩
    | (.error status, reader) =>
        if status.isIncomplete then return .done .ok st
        else
          match ← ManifestFile.tryResyncManifestFile reader.file.data reader.readPosition with
          | none => return .done (.corruption "Manifest resync failed (rest of file skipped)") st
          | some position =>
              let (status, reader) := reader.seek position
              if status.isOk then return .next reader st else return .done status st

def loop : Nat → ManifestReader → ManifestRecovery → Option (Option (Status × ManifestRecovery))
  | 0, _, _ => none
  | fuel + 1, reader, st =>
      match round reader st with
      | none => some none
      | some (.done status st) => some (some (status, st))
      | some (.next reader st) => loop fuel reader st

end ManifestRecovery

namespace ManifestFile

/-- `RecoverFromManifestFile`; there is nothing once a decoder has read outside its bytes. -/
def recoverFromManifestFile (table : DescriptorTable ColumnFamilyOptions) (data : Bytes) :
    Option (Status × ManifestRecovery) :=
  (ManifestRecovery.loop (data.length + 1) (.opened data) ⟨table, 0⟩).join

/-- The loop of `RecoverColumnFamilies` over the files in the order of their names. The sequence of a
damaged file does not count, its changes to the table stay. -/
def recoverFiles : DescriptorTable ColumnFamilyOptions × Nat → List Bytes →
    Option (Status × DescriptorTable ColumnFamilyOptions × Nat)
  | found, [] => some (.ok, found)
  | (table, sequence), data :: files => do
      let (status, st) ← recoverFromManifestFile table data
      if status.isOk then recoverFiles (st.table, max sequence st.localMaxSequence) files
      else if status.isCorruption then recoverFiles (st.table, sequence) files
      else return (status, st.table, sequence)

/-- `ManifestManager::RecoverColumnFamilies`: the status, the families and the last sequence. -/
def recoverColumnFamilies (files : List Bytes) :
    Option (Status × List (ColumnFamilyDescriptor ColumnFamilyOptions) × Nat) := do
  let (status, table, sequence) ← recoverFiles (∅, 0) files
  if status.isOk then return (.ok, ManifestManager.live table, sequence)
  else return (status, [], 0)

end ManifestFile

/-! ## What one read does -/

def RawRecord.frame (r : RawRecord) : Bytes := putFixed32 r.encodedLength ++ r.encode

@[simp] theorem RawRecord.length_frame (r : RawRecord) : r.frame.length = 4 + r.encodedLength := by
  simp [frame, putFixed32]

def RawRecord.Readable (r : RawRecord) : Prop := r.encodedLength ≤ ManifestReader.maxRecordLength

instance (r : RawRecord) : Decidable r.Readable := inferInstanceAs (Decidable (_ ≤ _))

namespace ManifestReader
variable {data : Bytes} {position : Nat}

def standing (data : Bytes) (position : Nat) : ManifestReader :=
  ⟨⟨data, position, false, false⟩, position, false⟩

theorem opened_eq (data : Bytes) : opened data = standing data 0 := rfl

theorem seek_standing (position other : Nat) :
    (standing data position).seek other = (.ok, standing data other) := rfl

theorem readNextRecord_end (short : (data.drop position).length < 4) :
    (standing data position).readNextRecord = some (.error (.incomplete "EOF reached"),
      ⟨⟨data, position + (data.drop position).length, true, true⟩, position, true⟩) := by
  rw [readNextRecord, if_neg (by exact Bool.false_ne_true)]
  simp only [standing, InputFile.readFrame_end maxRecordLength short]
  rfl

theorem fits_of_readable {r : RawRecord} (readable : r.Readable) : r.encodedLength < uint32Limit :=
  Nat.lt_of_le_of_lt readable (by decide)

theorem readNextRecord_frame {r : RawRecord} (sequence : r.sequenceNumber < uint64Limit)
    (readable : r.Readable) {rest : Bytes} (parts : data.drop position = r.frame ++ rest) :
    (standing data position).readNextRecord =
      some (.ok r, standing data (position + r.frame.length)) := by
  rw [RawRecord.frame, List.append_assoc] at parts
  have fits := fits_of_readable readable
  have valid : ¬ (r.encodedLength = 0 ∨ maxRecordLength < r.encodedLength) := by
    rintro (empty | long)
    · rw [RawRecord.encodedLength] at empty
      omega
    · exact absurd readable (Nat.not_le.mpr long)
  have whole : ¬ (r.encode ++ rest).length < r.encodedLength := by
    rw [List.length_append, RawRecord.length_encode]
    omega
  rw [readNextRecord, if_neg (by exact Bool.false_ne_true)]
  simp only [standing, InputFile.readFrame_of_length fits parts]
  rw [if_neg valid, if_neg whole, List.take_left' r.length_encode]
  simp only [RawRecord.decode_encode sequence fits, r.length_encode, RawRecord.length_frame,
    Nat.add_assoc]
  rfl

theorem readNextRecord_torn {r : RawRecord} (readable : r.Readable) {m : Nat} (long : 4 ≤ m)
    (cut : m < r.frame.length) (parts : data.drop position = r.frame.take m) :
    (standing data position).readNextRecord = some (.error (.corruption "Record data truncated"),
      ⟨⟨data, position + m, true, true⟩, position, false⟩) := by
  rw [RawRecord.length_frame] at cut
  have length : (r.encode.take (m - 4)).length = m - 4 := by
    apply List.length_take_of_le
    rw [RawRecord.length_encode]
    omega
  have valid : ¬ (r.encodedLength = 0 ∨ maxRecordLength < r.encodedLength) := by
    rintro (empty | large)
    · rw [RawRecord.encodedLength] at empty
      omega
    · exact absurd readable (Nat.not_le.mpr large)
  rw [RawRecord.frame, List.take_append, List.take_of_length_le (by rwa [length_putFixed32]),
    length_putFixed32] at parts
  rw [readNextRecord, if_neg (by exact Bool.false_ne_true)]
  simp only [standing, InputFile.readFrame_of_length (fits_of_readable readable) parts, length]
  rw [if_neg valid, if_pos (by omega), Nat.add_assoc, Nat.add_sub_cancel' long]
  rfl

theorem readNextRecord_cases {found : Except Status RawRecord} {reader : ManifestReader}
    (read : (standing data position).readNextRecord = some (found, reader)) :
    (∃ r next, found = .ok r ∧ reader = standing data next ∧ position < next ∧ next ≤ data.length) ∨
    ∃ status, found = .error status ∧ reader.file.data = data ∧ reader.readPosition = position := by
  by_cases short : (data.drop position).length < 4
  · rw [readNextRecord_end short] at read
    cases read
    exact .inr ⟨_, rfl, rfl, rfl⟩
  obtain ⟨bytes, rest, parts, four⟩ : ∃ bytes rest : Bytes,
      data.drop position = bytes ++ rest ∧ bytes.length = 4 :=
    ⟨_, _, (List.take_append_drop 4 _).symm, List.length_take_of_le (Nat.le_of_not_lt short)⟩
  have same : bytes = putFixed32 (decodeFixed bytes) := by
    rw [putFixed32, ← four, putFixed_decodeFixed]
  have fits : decodeFixed bytes < 256 ^ 4 := four ▸ decodeFixed_lt bytes
  have total := congrArg List.length parts
  rw [List.length_drop, List.length_append, four] at total
  rw [readNextRecord, if_neg (by exact Bool.false_ne_true)] at read
  simp only [standing, InputFile.readFrame_of_length fits (same ▸ parts)] at read
  by_cases invalid : decodeFixed bytes = 0 ∨ maxRecordLength < decodeFixed bytes
  · rw [if_pos invalid] at read
    cases read
    exact .inr ⟨_, rfl, rfl, rfl⟩
  rw [if_neg invalid] at read
  by_cases cut : rest.length < decodeFixed bytes
  · rw [if_pos cut] at read
    cases read
    exact .inr ⟨_, rfl, rfl, rfl⟩
  rw [if_neg cut] at read
  obtain ⟨decoded, -, read⟩ := Option.bind_eq_some_iff.mp read
  have length := List.length_take_of_le (Nat.le_of_not_lt cut)
  cases decoded with
  | error status =>
      cases read
      exact .inr ⟨_, rfl, rfl, rfl⟩
  | ok r =>
      cases read
      refine .inl ⟨r, position + 4 + decodeFixed bytes, rfl, ?_, ?_, ?_⟩
      · rw [length]
        rfl
      · omega
      · omega

end ManifestReader

namespace ManifestFile
open ManifestReader
variable {data : Bytes} {position next n : Nat}

def Unreadable (data : Bytes) (position : Nat) : Prop :=
  ∃ status reader, (standing data position).readNextRecord = some (.error status, reader)

theorem unreadable_iff : Unreadable data position ↔
    (standing data position).readNextRecord.any fun found => found.1.toOption.isNone := by
  rw [Unreadable]
  rcases (standing data position).readNextRecord with _ | ⟨_ | _, reader⟩ <;>
    simp [Except.toOption]

instance (data : Bytes) (position : Nat) : Decidable (Unreadable data position) :=
  decidable_of_iff _ unreadable_iff.symm

theorem unreadable_end (short : (data.drop position).length < 4) : Unreadable data position :=
  ⟨_, _, readNextRecord_end short⟩

def Damaged (data : Bytes) (position : Nat) : Prop :=
  ∃ status reader, status.isIncomplete = false ∧ reader.file.fail = false ∧
    (standing data position).readNextRecord = some (.error status, reader)

theorem damaged_iff : Damaged data position ↔
    (standing data position).readNextRecord.any fun found =>
      !found.2.file.fail && found.1.casesOn (fun status => !status.isIncomplete) fun _ => false := by
  rw [Damaged]
  rcases (standing data position).readNextRecord with _ | ⟨_ | _, reader⟩ <;> simp
  exact and_comm

instance (data : Bytes) (position : Nat) : Decidable (Damaged data position) :=
  decidable_of_iff _ damaged_iff.symm

theorem probe_eq_none_iff : probe data n position = some none ↔
    ∀ i < n, Unreadable data (position + i) := by
  induction n generalizing position with
  | zero => simp [probe]
  | succ n ih =>
      rw [probe, opened_eq, seek_standing]
      constructor
      · intro found
        obtain ⟨⟨result, reader⟩, read, rest⟩ := Option.bind_eq_some_iff.mp found
        cases result with
        | ok r => cases rest
        | error status =>
            have later := ih.mp rest
            intro i below
            cases i with
            | zero => exact ⟨status, reader, read⟩
            | succ i =>
                have there := later i (Nat.lt_of_succ_lt_succ below)
                rwa [Nat.add_right_comm, Nat.add_assoc] at there
      · intro unreadable
        obtain ⟨status, reader, read⟩ := unreadable 0 n.succ_pos
        have later : ∀ i < n, Unreadable data (position + 1 + i) := by
          intro i below
          have there := unreadable (i + 1) (Nat.succ_lt_succ below)
          rwa [Nat.add_right_comm, Nat.add_assoc]
        change ((standing data (position + 0)).readNextRecord.bind _) = some none
        rw [read]
        exact ih.mpr later

theorem probe_some (found : probe data n position = some (some next)) :
    position ≤ next ∧ ∃ r reader, (standing data next).readNextRecord = some (.ok r, reader) := by
  induction n generalizing position with
  | zero => cases found
  | succ n ih =>
      rw [probe, opened_eq, seek_standing] at found
      obtain ⟨⟨result, reader⟩, read, rest⟩ := Option.bind_eq_some_iff.mp found
      cases result with
      | ok r =>
          cases rest
          exact ⟨le_rfl, r, reader, read⟩
      | error status =>
          obtain ⟨later, there⟩ := ih rest
          exact ⟨(Nat.le_succ _).trans later, there⟩

theorem tryResync_eq_none_iff {start : Nat} : tryResyncManifestFile data start = some none ↔
    ∀ i < maxResyncBytes, Unreadable data (start + 1 + i) := probe_eq_none_iff

end ManifestFile

theorem ManifestReader.seek_isOk {data : Bytes} {position : Nat} {reader reader' : ManifestReader}
    {status : Status} (same : reader.file.data = data)
    (sought : reader.seek position = (status, reader')) (success : status.isOk) :
    reader' = standing data position := by
  subst same
  obtain ⟨⟨bytes, at', fail, eof⟩, start, ended⟩ := reader
  cases fail
  · cases sought
    rfl
  · cases sought
    cases success

namespace ManifestRecovery
open ManifestReader
variable {data : Bytes} {position fuel : Nat} {st : ManifestRecovery}

theorem round_next {reader : ManifestReader} {st' : ManifestRecovery}
    (went : round (standing data position) st = some (.next reader st')) :
    ∃ next, reader = standing data next ∧ position < next ∧ next ≤ data.length := by
  rw [round, if_neg (by exact Bool.false_ne_true)] at went
  obtain ⟨⟨found, reader'⟩, read, went⟩ := Option.bind_eq_some_iff.mp went
  obtain ⟨r, next, rfl, rfl, later, inside⟩ | ⟨status, rfl, same, start⟩ := readNextRecord_cases read
  · obtain ⟨table, -, went⟩ := Option.bind_eq_some_iff.mp went
    cases went
    exact ⟨next, rfl, later, inside⟩
  · dsimp only at went
    split at went
    · cases went
    obtain ⟨resync, found, went⟩ := Option.bind_eq_some_iff.mp went
    cases resync with
    | none => cases went
    | some next =>
        rcases sought : reader'.seek next with ⟨status', reader''⟩
        simp only [sought] at went
        split at went
        · rename_i success
          cases went
          rw [same, start] at found
          obtain ⟨later, r, reader, again⟩ := ManifestFile.probe_some found
          refine ⟨next, seek_isOk same sought success, later, ?_⟩
          obtain ⟨_, _, -, -, beyond, inside⟩ | ⟨_, failed, -⟩ := readNextRecord_cases again
          · exact beyond.le.trans inside
          · cases failed
        · cases went

theorem loop_isSome (st : ManifestRecovery) (inside : position ≤ data.length)
    (enough : data.length - position < fuel) :
    (loop fuel (standing data position) st).isSome := by
  induction fuel generalizing position st with
  | zero => exact absurd enough (Nat.not_lt_zero _)
  | succ fuel ih =>
      rw [loop]
      cases went : round (standing data position) st with
      | none => rfl
      | some outcome =>
          cases outcome with
          | done status st => rfl
          | next reader st' =>
              obtain ⟨next, rfl, later, within⟩ := round_next went
              exact ih st' within (by omega)

end ManifestRecovery
end Lrdb
