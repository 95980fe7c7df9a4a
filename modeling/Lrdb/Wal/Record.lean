import Lrdb.Storage.MemTable

/-!
# Log records

The log is a sequence of records. A write appends one record or is refused; a failure can also come
after the record has reached the file.
-/

namespace Lrdb

inductive WALRecordType where
  | kPut | kDelete | kMerge | kBeginTransaction | kCommitTransaction | kAbortTransaction
  | kCheckpoint | kFlushMemTable | kCreateColumnFamily | kDropColumnFamily
  | kUpdateColumnFamilyOptions
  /-- A byte that is none of these, as `Decode` casts it. -/
  | unknown (byte : UInt8)
  deriving DecidableEq, Repr

structure WALRecord where
  type : WALRecordType := .kPut
  sequenceNumber : Nat := 0
  columnFamilyId : Nat := 0
  key : Key := []
  value : Value := []
  transactionId : Nat := 0
  deriving DecidableEq, Repr

abbrev Log := List WALRecord

namespace WALRecord

def encodedLength (r : WALRecord) : Nat := 1 + 8 + 4 + 8 + 4 + 4 + r.key.length + r.value.length + 4

def maxEncodedLength : Nat := 128 * 1024 * 1024

end WALRecord

inductive WriteFault where
  /-- No writer: creating or switching the file failed. -/
  | noFile
  /-- The stream refused the bytes. -/
  | append
  /-- The bytes are in the file, but its position or its sync was not as expected. -/
  | afterAppend
  deriving DecidableEq, Repr

namespace Log

/-- `WALManager::WriteRecordInternal` of an open manager. -/
def writeRecord (log : Log) (fault : Option WriteFault) (r : WALRecord) : Status × Log :=
  if fault = some .noFile then (.ioError "Failed to create new WAL file", log)
  else if r.sequenceNumber = 0 then
    (.invalidArgument "Invalid sequence number in WAL record", log)
  else if WALRecord.maxEncodedLength < r.encodedLength ∨ fault = some .append then
    (.ioError "Failed to write WAL record", log)
  else if fault = some .afterAppend then (.ioError "Failed to sync WAL file", log ++ [r])
  else (.ok, log ++ [r])

def writePut (log : Log) (fault : Option WriteFault) (columnFamilyId : Nat) (key : Key)
    (value : Value) (sequence : Nat) : Status × Log :=
  if key.isEmpty then (.invalidArgument "Key cannot be empty", log)
  else log.writeRecord fault
    { type := .kPut, sequenceNumber := sequence, columnFamilyId := columnFamilyId, key := key,
      value := value }

def writeDelete (log : Log) (fault : Option WriteFault) (columnFamilyId : Nat) (key : Key)
    (sequence : Nat) : Status × Log :=
  if key.isEmpty then (.invalidArgument "Key cannot be empty", log)
  else log.writeRecord fault
    { type := .kDelete, sequenceNumber := sequence, columnFamilyId := columnFamilyId, key := key }

end Log

/-- The record of one committed write, as `Commit` logs it. -/
def WALRecord.ofWrite (columnFamilyId : Nat) (key : Key) (sequence : Nat) :
    Option Value → WALRecord
  | some value =>
      { type := .kPut, sequenceNumber := sequence, columnFamilyId := columnFamilyId, key := key,
        value := value }
  | none =>
      { type := .kDelete, sequenceNumber := sequence, columnFamilyId := columnFamilyId, key := key }

@[simp] theorem WALRecord.sequenceNumber_ofWrite (columnFamilyId : Nat) (key : Key)
    (sequence : Nat) (content : Option Value) :
    (ofWrite columnFamilyId key sequence content).sequenceNumber = sequence := by
  cases content <;> rfl

@[simp] theorem WALRecord.key_ofWrite (columnFamilyId : Nat) (key : Key) (sequence : Nat)
    (content : Option Value) : (ofWrite columnFamilyId key sequence content).key = key := by
  cases content <;> rfl

def Log.writeKey (log : Log) (fault : Option WriteFault) (columnFamilyId : Nat) (key : Key)
    (sequence : Nat) : Option Value → Status × Log
  | some value => log.writePut fault columnFamilyId key value sequence
  | none => log.writeDelete fault columnFamilyId key sequence

namespace Log
variable {log log' : Log} {fault : Option WriteFault} {r : WALRecord} {status : Status}

theorem writeRecord_cases (written : log.writeRecord fault r = (status, log')) :
    status.isOk ∧ log' = log ++ [r] ∨ ¬ status.isOk ∧ (log' = log ∨ log' = log ++ [r]) := by
  unfold writeRecord at written
  split at written
  · cases written
    exact .inr ⟨by decide, .inl rfl⟩
  split at written
  · cases written
    exact .inr ⟨by decide, .inl rfl⟩
  split at written
  · cases written
    exact .inr ⟨by decide, .inl rfl⟩
  split at written
  · cases written
    exact .inr ⟨by decide, .inr rfl⟩
  · cases written
    exact .inl ⟨by decide, rfl⟩

/-- A call that succeeds appends the record of its write; one that fails may have done so too. -/
theorem writeKey_cases {columnFamilyId : Nat} {key : Key} {sequence : Nat} {content : Option Value}
    (written : log.writeKey fault columnFamilyId key sequence content = (status, log')) :
    status.isOk ∧ log' = log ++ [.ofWrite columnFamilyId key sequence content] ∨
      ¬ status.isOk ∧
        (log' = log ∨ log' = log ++ [.ofWrite columnFamilyId key sequence content]) := by
  cases content with
  | some value =>
      rw [writeKey, writePut] at written
      split at written
      · cases written
        exact .inr ⟨by decide, .inl rfl⟩
      · exact writeRecord_cases written
  | none =>
      rw [writeKey, writeDelete] at written
      split at written
      · cases written
        exact .inr ⟨by decide, .inl rfl⟩
      · exact writeRecord_cases written

theorem writeRecord_faultless (written : log.writeRecord none r = (status, log')) :
    status.isOk ∧ log' = log ++ [r] ∨ ¬ status.isOk ∧ log' = log := by
  unfold writeRecord at written
  rw [if_neg nofun] at written
  split at written
  · cases written
    exact .inr ⟨by decide, rfl⟩
  split at written
  · cases written
    exact .inr ⟨by decide, rfl⟩
  · rw [if_neg nofun] at written
    cases written
    exact .inl ⟨by decide, rfl⟩

theorem writeKey_faultless {columnFamilyId : Nat} {key : Key} {sequence : Nat}
    {content : Option Value}
    (written : log.writeKey none columnFamilyId key sequence content = (status, log')) :
    status.isOk ∧ log' = log ++ [.ofWrite columnFamilyId key sequence content] ∨
      ¬ status.isOk ∧ log' = log := by
  cases content <;> simp only [writeKey, writePut, writeDelete] at written <;> split at written
  · cases written
    exact .inr ⟨by decide, rfl⟩
  · exact writeRecord_faultless written
  · cases written
    exact .inr ⟨by decide, rfl⟩
  · exact writeRecord_faultless written

end Log
end Lrdb
