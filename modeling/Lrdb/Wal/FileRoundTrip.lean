import Lrdb.Wal.TornTail

namespace Lrdb
open Frames WALReader

/-- The file of a `WALWriter`, whose stream takes what it is given. -/
structure WALOutput where
  data : Bytes := []
  isOpen : Bool := true
  deriving DecidableEq, Repr

/-- A call of `WriteRecord`, `WriteRecords` or `Close`. -/
inductive WALWriterCall where
  | writeRecord (r : WALRecord)
  | writeRecords (rs : List WALRecord)
  | close
  deriving DecidableEq, Repr

def WALWriterCall.records : WALWriterCall → List WALRecord
  | writeRecord r => [r]
  | writeRecords rs => rs
  | close => []

namespace WALOutput

def writeRecordInternal (f : WALOutput) (r : WALRecord) : Status × WALOutput :=
  let encoded := r.encode
  if WALRecord.maxEncodedLength < encoded.length then
    (.invalidArgument "WAL record too large", f)
  else (.ok, { f with data := f.data ++ (putFixed32 encoded.length ++ encoded) })

def writeRecord (f : WALOutput) (r : WALRecord) : Status × WALOutput :=
  if !f.isOpen then (.invalidArgument "WAL file not open", f) else f.writeRecordInternal r

/-- The batch goes into one buffer, and into the file at once. -/
def writeRecords (f : WALOutput) (rs : List WALRecord) : Status × WALOutput :=
  if !f.isOpen then (.invalidArgument "WAL file not open", f)
  else if rs.isEmpty then (.ok, f)
  else
    let encodedRecords := rs.map (·.encode)
    if encodedRecords.any (WALRecord.maxEncodedLength < ·.length) then
      (.invalidArgument "WAL record too large", f)
    else
      let batchBuffer := encodedRecords.flatMap fun encoded => putFixed32 encoded.length ++ encoded
      (.ok, { f with data := f.data ++ batchBuffer })

def call (f : WALOutput) : WALWriterCall → Status × WALOutput
  | .writeRecord r => f.writeRecord r
  | .writeRecords rs => f.writeRecords rs
  | .close => (.ok, { f with isOpen := false })

def session (f : WALOutput) : List WALWriterCall → List WALRecord × WALOutput
  | [] => ([], f)
  | c :: calls =>
      let (status, f') := f.call c
      let (accepted, last) := f'.session calls
      (if status.isOk then c.records ++ accepted else accepted, last)

end WALOutput

/-- The results of `n` calls of `ReadNextRecord`. -/
def WALReader.readRecords : Nat → WALReader → List (Except Status WALRecord)
  | 0, _ => []
  | n + 1, reader =>
      let (result, reader) := reader.readNextRecord
      result :: readRecords n reader

namespace WALOutput
variable {f : WALOutput}

/-- A call that returns OK appends the frames of its records, which are short enough; any other
call leaves the file alone. -/
def Took (f : WALOutput) (rs : List WALRecord) (result : Status × WALOutput) : Prop :=
  (result.1.isOk = true ∧ result.2.data = f.data ++ stream WALRecord.frame rs ∧
    ∀ r ∈ rs, r.encodedLength ≤ WALRecord.maxEncodedLength) ∨
  (result.1.isOk = false ∧ result.2.data = f.data)

theorem took_writeRecord (f : WALOutput) (r : WALRecord) : f.Took [r] (f.writeRecord r) := by
  unfold writeRecord writeRecordInternal
  split
  · exact .inr ⟨rfl, rfl⟩
  dsimp only
  rw [WALRecord.length_encode]
  split
  · exact .inr ⟨rfl, rfl⟩
  · rename_i short
    refine .inl ⟨rfl, ?_, List.forall_mem_singleton.mpr (Nat.le_of_not_lt short)⟩
    rw [stream_cons, stream_nil, List.append_nil]
    rfl

theorem took_writeRecords (f : WALOutput) (rs : List WALRecord) :
    f.Took rs (f.writeRecords rs) := by
  unfold writeRecords
  split
  · exact .inr ⟨rfl, rfl⟩
  split
  · rename_i empty
    cases List.isEmpty_iff.mp empty
    exact .inl ⟨rfl, (List.append_nil _).symm, by simp⟩
  dsimp only
  split
  · exact .inr ⟨rfl, rfl⟩
  · rename_i short
    refine .inl ⟨rfl, ?_, fun r member => ?_⟩
    · rw [List.flatMap_map]
      simp only [WALRecord.length_encode]
      rfl
    · apply Nat.le_of_not_lt
      intro long
      refine short (List.any_eq_true.mpr ⟨r.encode, List.mem_map_of_mem member, ?_⟩)
      rw [WALRecord.length_encode]
      exact decide_eq_true long

theorem took_call (f : WALOutput) (c : WALWriterCall) : f.Took c.records (f.call c) := by
  cases c with
  | writeRecord r => exact f.took_writeRecord r
  | writeRecords rs => exact f.took_writeRecords rs
  | close => exact .inl ⟨rfl, (List.append_nil _).symm, by simp [WALWriterCall.records]⟩

theorem session_data (f : WALOutput) (calls : List WALWriterCall) :
    (f.session calls).2.data = f.data ++ stream WALRecord.frame (f.session calls).1 ∧
      ∀ r ∈ (f.session calls).1, r.encodedLength ≤ WALRecord.maxEncodedLength ∧
        ∃ c ∈ calls, r ∈ c.records := by
  induction calls generalizing f with
  | nil => exact ⟨(List.append_nil _).symm, by simp [session]⟩
  | cons c calls ih =>
      obtain ⟨data, short⟩ := ih (f.call c).2
      have later : ∀ r ∈ ((f.call c).2.session calls).1,
          r.encodedLength ≤ WALRecord.maxEncodedLength ∧ ∃ c' ∈ c :: calls, r ∈ c'.records := by
        intro r member
        obtain ⟨fits, c', called, mem⟩ := short r member
        exact ⟨fits, c', List.mem_cons_of_mem c called, mem⟩
      rw [session]
      dsimp only
      rcases f.took_call c with ⟨ok, appended, fits⟩ | ⟨failed, same⟩
      · rw [if_pos ok, data, appended, stream_append, List.append_assoc]
        refine ⟨rfl, fun r member => ?_⟩
        obtain here | there := List.mem_append.mp member
        · exact ⟨fits r here, c, List.mem_cons_self .., here⟩
        · exact later r there
      · rw [if_neg (Bool.eq_false_iff.mp failed), data, same]
        exact ⟨rfl, later⟩

end WALOutput

namespace WALReader
variable {data : Bytes} {position : Nat}

theorem readNextRecord_unreadable {r : WALRecord}
    (short : r.encodedLength ≤ WALRecord.maxEncodedLength) (unreadable : ¬r.Readable) {rest : Bytes}
    (parts : data.drop position = r.frame ++ rest) :
    (standing data position).readNextRecord.1 =
      .error (.corruption "Invalid record length") := by
  rw [WALRecord.frame, List.append_assoc] at parts
  rw [readNextRecord_of_length (short.trans_lt (by decide)) parts,
    if_pos (.inr (Nat.lt_of_not_le unreadable))]

theorem readRecords_unreadable {r : WALRecord}
    (short : r.encodedLength ≤ WALRecord.maxEncodedLength) (unreadable : ¬r.Readable) {rest : Bytes}
    (parts : data.drop position = r.frame ++ rest) (n : Nat)
    (results : List (Except Status WALRecord)) :
    (standing data position).readRecords (n + 1) ≠ .ok r :: results := by
  intro same
  have head : (standing data position).readNextRecord.1 = .ok r := (List.cons.inj same).1
  rw [readNextRecord_unreadable short unreadable parts] at head
  cases head

theorem readRecords_stream_iff {rs : List WALRecord} (typed : ∀ r ∈ rs, r.Typed)
    (short : ∀ r ∈ rs, r.encodedLength ≤ WALRecord.maxEncodedLength)
    (parts : data.drop position = stream WALRecord.frame rs) :
    (standing data position).readRecords (rs.length + 1) =
        rs.map .ok ++ [.error (.incomplete "EOF reached")] ↔
      ∀ r ∈ rs, r.Readable := by
  induction rs generalizing position with
  | nil =>
      refine iff_of_true ?_ (by simp)
      rw [List.length_nil, readRecords, readNextRecord_end (by rw [parts]; decide)]
      rfl
  | cons r rs ih =>
      obtain ⟨typedHere, typedRest⟩ := List.forall_mem_cons.mp typed
      obtain ⟨shortHere, shortRest⟩ := List.forall_mem_cons.mp short
      have after : data.drop (position + r.frame.length) = stream WALRecord.frame rs := by
        rw [← List.drop_drop, parts, stream_cons, List.drop_left]
      rw [List.length_cons, List.map_cons, List.cons_append, List.forall_mem_cons]
      by_cases readable : r.Readable
      · rw [readRecords, readNextRecord_frame typedHere readable parts]
        dsimp only
        rw [List.cons.injEq, ih typedRest shortRest after, and_iff_right rfl,
          and_iff_right readable]
      · exact iff_of_false (readRecords_unreadable shortHere readable parts _ _)
          fun all => readable all.1

end WALReader

/-- Reading a file that was written by any calls gives the records of the calls that returned OK,
and then the end, if and only if none of them is longer than the reader takes. -/
theorem readRecords_session_iff (calls : List WALWriterCall)
    (typed : ∀ c ∈ calls, ∀ r ∈ c.records, r.Typed) :
    (opened (WALOutput.session {} calls).2.data).readRecords
        ((WALOutput.session {} calls).1.length + 1) =
      (WALOutput.session {} calls).1.map .ok ++ [.error (.incomplete "EOF reached")] ↔
    ∀ r ∈ (WALOutput.session {} calls).1, r.Readable := by
  obtain ⟨data, accepted⟩ := WALOutput.session_data {} calls
  have parts : (WALOutput.session {} calls).2.data.drop 0 =
      stream WALRecord.frame (WALOutput.session {} calls).1 := by
    rw [List.drop_zero, data, List.nil_append]
  rw [opened_eq]
  refine readRecords_stream_iff (fun r member => ?_) (fun r member => (accepted r member).1) parts
  obtain ⟨-, c, called, mem⟩ := accepted r member
  exact typed c called r mem

def mixedCalls : List WALWriterCall :=
  [.writeRecord (.ofWrite 0 [107] 1 (some [1])),
    .writeRecords [{ type := .kCheckpoint }, .ofWrite 2 [] 3 none], .writeRecords []]

theorem readRecords_session_mixed :
    (opened (WALOutput.session {} mixedCalls).2.data).readRecords
        ((WALOutput.session {} mixedCalls).1.length + 1) =
      (WALOutput.session {} mixedCalls).1.map .ok ++ [.error (.incomplete "EOF reached")] := by
  have typed : ∀ c ∈ mixedCalls, ∀ r ∈ c.records, r.Typed := by
    simp only [mixedCalls, List.forall_mem_cons, WALWriterCall.records, List.not_mem_nil,
      false_imp_iff, implies_true, and_true]
    exact ⟨⟨rfl, by decide, by decide, by decide⟩, ⟨rfl, by decide, by decide, by decide⟩,
      ⟨rfl, by decide, by decide, by decide⟩⟩
  have readable : ∀ r ∈ (WALOutput.session {} mixedCalls).1, r.Readable := by decide +kernel
  exact (readRecords_session_iff mixedCalls typed).mpr readable

theorem readRecords_session_between {r : WALRecord}
    (short : r.encodedLength ≤ WALRecord.maxEncodedLength) (unreadable : ¬r.Readable) :
    (WALOutput.session {} [.writeRecord r]).1 = [r] ∧
      (opened (WALOutput.session {} [.writeRecord r]).2.data).readRecords 2 ≠
        [.ok r, .error (.incomplete "EOF reached")] := by
  have written : WALOutput.writeRecord {} r = (.ok, { data := r.frame }) := by
    unfold WALOutput.writeRecord WALOutput.writeRecordInternal
    rw [if_neg (by decide)]
    dsimp only
    rw [WALRecord.length_encode, if_neg (Nat.not_lt.mpr short)]
    rfl
  have accepted : WALOutput.session {} [.writeRecord r] = ([r], { data := r.frame }) := by
    simp only [WALOutput.session, WALOutput.call, written]
    rfl
  rw [accepted]
  exact ⟨rfl, readRecords_unreadable short unreadable (List.append_nil _).symm _ _⟩

def largeRecord : WALRecord :=
  { sequenceNumber := 1, key := [107], value := List.replicate (101 * 1024 * 1024) 0 }

theorem encodedLength_replicate (n : Nat) : WALRecord.encodedLength
    { sequenceNumber := 1, key := [107], value := List.replicate n 0 } = 34 + n := by
  rw [WALRecord.encodedLength, List.length_replicate]
  show 1 + 8 + 4 + 8 + 4 + 4 + 1 + n + 4 = _
  omega

theorem readRecords_session_large :
    (WALOutput.session {} [.writeRecord largeRecord]).1 = [largeRecord] ∧
      (opened (WALOutput.session {} [.writeRecord largeRecord]).2.data).readRecords 2 ≠
        [.ok largeRecord, .error (.incomplete "EOF reached")] := by
  have length : largeRecord.encodedLength = 34 + 101 * 1024 * 1024 := encodedLength_replicate _
  have short : largeRecord.encodedLength ≤ WALRecord.maxEncodedLength := by
    rw [length]
    decide
  have unreadable : ¬largeRecord.Readable := by
    rw [WALRecord.Readable, length]
    decide
  exact readRecords_session_between short unreadable

end Lrdb
