import Lrdb.Storage.SearchOrder
import Lrdb.Wal.Reader

/-!
# Recovery from the log files

The files are replayed one after another, and what they leave in the recovery memtable is flushed
to a file of level zero.
-/

namespace Lrdb

/-- `FinishRecovery`: a recovery that applied no write leaves no file. -/
def LSMTree.finishRecovery {cmp : Comparator} (options : LSMTreeOptions) (sstables : SSTableManager)
    (mem : MemTable cmp) : Status × SSTableManager :=
  if mem.isEmpty then (.ok, sstables)
  else sstables.flushMemTableToSSTable cmp options.writer mem 0

/-- The loop of `RecoverFromWAL` over the files. -/
def Recovery.files {cmp : Comparator} (options : MemTableOptions) (st : Recovery cmp) :
    List Bytes → Except Status (Recovery cmp)
  | [] => .ok st
  | data :: rest =>
      match st.file options data with
      | .error status => .error (.ioError ("Fatal error during WAL recovery: " ++ status.message))
      | .ok st => files options st rest

/-- `RecoverFromWAL`, up to the removal of the files. -/
def recoverFromWAL {cmp : Comparator} (options : LSMTreeOptions) (sstables : SSTableManager)
    (files : List Bytes) : Except Status (Recovery cmp × SSTableManager) := do
  let st ← Recovery.files options.memtable ⟨.new options.memtable, []⟩ files
  let (status, sstables) := LSMTree.finishRecovery options sstables st.state.memtable
  if status.isOk then return (st, sstables) else throw status

/-- The comparator agrees with the byte order in which a flush writes what was recovered. -/
def FlushOrdered (cmp : Comparator) (options : MemTableOptions) (log : Log) : Prop :=
  ∀ st : ReplayState cmp, (ReplayState.new options).replay options log = .ok st →
    (sortedEntries st.memtable.entries).IsChain fun a b =>
      cmp.compare a.1.encode b.1.encode = .lt

theorem flushOrdered_bytewise (options : MemTableOptions) (log : Log) :
    FlushOrdered bytewiseComparator options log :=
  fun st _ => isChain_sortedEntries st.memtable.nodup_keys

theorem LSMTree.finishRecovery_isOk_iff {cmp : Comparator} (options : LSMTreeOptions)
    {sstables : SSTableManager} (fresh : sstables.Fresh) (mem : MemTable cmp) :
    (finishRecovery options sstables mem).1.isOk ↔ (sortedEntries mem.entries).IsChain
      fun a b => cmp.compare a.1.encode b.1.encode = .lt := by
  unfold finishRecovery
  split
  · rename_i empty
    rw [MemTable.isEmpty_iff.mp empty]
    exact iff_of_true rfl .nil
  · exact SSTableManager.flush_isOk_iff fresh mem

/-! ## Which records are applied -/

/-- Replay has a meaning for the record. -/
def WALRecord.Supported (r : WALRecord) : Prop := r.type ≠ .kMerge ∧ r.type.known

instance (r : WALRecord) : Decidable r.Supported := inferInstanceAs (Decidable (_ ∧ _))

/-- The records of a log that come to be applied, in that order; `buffers` has those of open
transactions. -/
def effective (buffers : Nat → List WALRecord) : Log → List WALRecord
  | [] => []
  | r :: rest =>
      if r.transactionId = 0 then r :: effective buffers rest
      else
        match r.type with
        | .kBeginTransaction => effective buffers rest
        | .kCommitTransaction => buffers r.transactionId ++
            effective (Function.update buffers r.transactionId []) rest
        | .kAbortTransaction => effective (Function.update buffers r.transactionId []) rest
        | _ => effective (Function.update buffers r.transactionId
            (buffers r.transactionId ++ [r])) rest

def Replayable (log : Log) : Prop := ∀ r ∈ effective (fun _ => []) log, r.Supported

instance (log : Log) : Decidable (Replayable log) := by unfold Replayable; infer_instance

namespace ReplayState
variable {cmp : Comparator} {options : MemTableOptions}

theorem applyRecord_cases (options : MemTableOptions) {mem : MemTable cmp}
    (writable : mem.immutable = false) (r : WALRecord) :
    r.Supported ∧ (∃ mem', applyRecord options mem r = .ok mem' ∧ mem'.immutable = false) ∨
      ¬ r.Supported ∧ ∃ status, applyRecord options mem r = .error status := by
  unfold applyRecord WALRecord.Supported
  cases type : r.type with
  | kPut | kDelete =>
      refine .inl ⟨⟨by decide, rfl⟩, ?_⟩
      simp [recoverRecord, MemTable.put, MemTable.delete, MemTable.add, writable, MemTable.insert]
  | kMerge | unknown byte =>
      refine .inr ⟨?_, _, rfl⟩
      simp [WALRecordType.known]
  | kBeginTransaction | kCommitTransaction | kAbortTransaction | kCheckpoint | kFlushMemTable
  | kCreateColumnFamily | kDropColumnFamily | kUpdateColumnFamilyOptions =>
      exact .inl ⟨⟨by decide, rfl⟩, mem, rfl, writable⟩

theorem applyRecords_ok_iff (options : MemTableOptions) {mem : MemTable cmp} (writable : mem.immutable = false)
    (rs : List WALRecord) :
    (∃ mem', rs.foldlM (applyRecord options) mem = .ok mem') ↔ ∀ r ∈ rs, r.Supported := by
  induction rs generalizing mem with
  | nil => exact iff_of_true ⟨mem, rfl⟩ (by simp)
  | cons r rs ih =>
      rw [List.forall_mem_cons, List.foldlM_cons]
      rcases applyRecord_cases options writable r with ⟨supported, mem', applied, writable'⟩ |
        ⟨unsupported, status, failed⟩
      · rw [and_iff_right supported, applied]
        exact ih writable'
      · rw [failed]
        exact iff_of_false (by rintro ⟨mem', ok⟩; cases ok) fun all => unsupported all.1

theorem replay_memtable (options : MemTableOptions) (st : ReplayState cmp) (log : Log) :
    (st.replay options log).map memtable =
      (effective st.buffers log).foldlM (applyRecord options) st.memtable := by
  induction log generalizing st with
  | nil => rfl
  | cons r rest ih =>
      have split : st.replay options (r :: rest) =
          (st.next options r).bind fun st => st.replay options rest := by
        rw [replay, List.foldlM_cons]
        rfl
      rw [split, effective, next, applyRecovered]
      by_cases plain : r.transactionId = 0
      · rw [if_pos plain, if_pos plain, List.foldlM_cons]
        cases applyRecord options st.memtable r with
        | error status => rfl
        | ok mem => exact ih { st with
            memtable := mem, maxSequence := max st.maxSequence r.sequenceNumber }
      rw [if_neg plain, if_neg plain]
      cases r.type with
      | kBeginTransaction =>
          exact ih { st with
            transactionStates := _, maxSequence := max st.maxSequence r.sequenceNumber }
      | kCommitTransaction =>
          dsimp only
          rw [List.foldlM_append]
          cases (st.buffers r.transactionId).foldlM (applyRecord options) st.memtable with
          | error status => rfl
          | ok mem => exact ih ⟨mem, _, _, max st.maxSequence r.sequenceNumber⟩
      | kAbortTransaction => exact ih ⟨st.memtable, _, _, max st.maxSequence r.sequenceNumber⟩
      | kPut | kDelete | kMerge | kCheckpoint | kFlushMemTable | kCreateColumnFamily
      | kDropColumnFamily | kUpdateColumnFamilyOptions | unknown byte =>
          exact ih ⟨st.memtable, _, _, max st.maxSequence r.sequenceNumber⟩

theorem replay_ok_iff (options : MemTableOptions) (log : Log) :
    (∃ st, (new options : ReplayState cmp).replay options log = .ok st) ↔ Replayable log := by
  have applied := replay_memtable options (new options : ReplayState cmp) log
  rw [Replayable, ← @applyRecords_ok_iff cmp options (MemTable.new options) rfl]
  change _ = (effective (fun _ => []) log).foldlM _ (MemTable.new options) at applied
  rw [← applied]
  cases (new options : ReplayState cmp).replay options log with
  | error status => simp [Except.map]
  | ok st => simp [Except.map]

end ReplayState
end Lrdb
