import Lrdb.Wal.Consecutive

/-!
# Transactions and the log

The manager keeps a state for every transaction and changes it before the record is written. When the
write fails then, the state stays changed; and a transaction that has ended can be committed or
aborted again. Without these the states follow the records.
-/

namespace Lrdb
open Runs

def WALRecordType.marks : WALRecordType → Option TransactionState
  | kBeginTransaction => some .kActive
  | kCommitTransaction => some .kCommitted
  | kAbortTransaction => some .kAborted
  | _ => none

inductive WriteCall where
  | beginTransaction (columnFamilyId transactionId sequence : Nat)
  | commitTransaction (columnFamilyId transactionId sequence : Nat)
  | abortTransaction (columnFamilyId transactionId sequence : Nat)
  | put (columnFamilyId : Nat) (key : Key) (value : Value) (sequence : Nat)
  | delete (columnFamilyId : Nat) (key : Key) (sequence : Nat)
  | merge (columnFamilyId : Nat) (key : Key) (value : Value) (sequence : Nat)
  | checkpoint (sequence : Nat)
  | flushMemTable (sequence : Nat)
  | createColumnFamily (columnFamilyId : Nat) (name options : Bytes) (sequence : Nat)
  | dropColumnFamily (columnFamilyId sequence : Nat)
  | updateColumnFamilyOptions (columnFamilyId : Nat) (options : Bytes) (sequence : Nat)
  deriving DecidableEq, Repr

namespace WriteCall

def record : WriteCall → WALRecord
  | beginTransaction columnFamilyId transactionId sequenceNumber =>
      { type := .kBeginTransaction, sequenceNumber, columnFamilyId, transactionId }
  | commitTransaction columnFamilyId transactionId sequenceNumber =>
      { type := .kCommitTransaction, sequenceNumber, columnFamilyId, transactionId }
  | abortTransaction columnFamilyId transactionId sequenceNumber =>
      { type := .kAbortTransaction, sequenceNumber, columnFamilyId, transactionId }
  | put columnFamilyId key value sequenceNumber =>
      { type := .kPut, sequenceNumber, columnFamilyId, key, value }
  | delete columnFamilyId key sequenceNumber => { type := .kDelete, sequenceNumber, columnFamilyId, key }
  | merge columnFamilyId key value sequenceNumber =>
      { type := .kMerge, sequenceNumber, columnFamilyId, key, value }
  | checkpoint sequenceNumber => { type := .kCheckpoint, sequenceNumber }
  | flushMemTable sequenceNumber => { type := .kFlushMemTable, sequenceNumber }
  | createColumnFamily columnFamilyId name options sequenceNumber =>
      { type := .kCreateColumnFamily, sequenceNumber, columnFamilyId
        value := putFixed 4 name.length ++ name ++ (putFixed 4 options.length ++ options) }
  | dropColumnFamily columnFamilyId sequenceNumber =>
      { type := .kDropColumnFamily, sequenceNumber, columnFamilyId }
  | updateColumnFamilyOptions columnFamilyId options sequenceNumber =>
      { type := .kUpdateColumnFamilyOptions, sequenceNumber, columnFamilyId, value := options }

def keyed : WriteCall → Bool
  | put .. | delete .. | merge .. => true
  | _ => false

end WriteCall

namespace WALManager

def setTransaction (m : WALManager) (id : Nat) (state : TransactionState) : WALManager :=
  { m with activeTransactions := Function.update m.activeTransactions id (some state) }

/-- `WriteBeginTransaction`, `WriteCommitTransaction`, `WriteAbortTransaction` and the calls for the
other records. The state of a transaction is set again after its record. -/
def writeCall (m : WALManager) (faults : RecordFaults) (c : WriteCall) : Status × WALManager :=
  if c.keyed ∧ c.record.key.isEmpty then (.invalidArgument "Key cannot be empty", m)
  else
    let (status, m) := m.writeRecordInternal faults c.record
    match c.record.type.marks with
    | none => (status, m)
    | some state =>
        if status.isOk then (status, m.setTransaction c.record.transactionId state) else (status, m)

def WriterOpen (m : WALManager) : Prop := ∀ w ∈ m.writer, w.isOpen

structure SameBooks (m m' : WALManager) : Prop where
  activeTransactions : m'.activeTransactions = m.activeTransactions
  lastSequence : m'.lastSequence = m.lastSequence
  syncOnWrite : m'.syncOnWrite = m.syncOnWrite

variable {m m' m'' : WALManager} {r : WALRecord} {faults : RecordFaults}

theorem SameBooks.refl (m : WALManager) : SameBooks m m := ⟨rfl, rfl, rfl⟩

theorem SameBooks.trans (first : SameBooks m m') (second : SameBooks m' m'') : SameBooks m m'' where
  activeTransactions := second.activeTransactions.trans first.activeTransactions
  lastSequence := second.lastSequence.trans first.lastSequence
  syncOnWrite := second.syncOnWrite.trans first.syncOnWrite

theorem syncWriter_same (m : WALManager) (fails : Bool) :
    SameBooks m (m.syncWriter fails).2 ∧ (m.syncWriter fails).2.writer = m.writer := by
  unfold WALManager.syncWriter
  split
  · exact ⟨.refl m, rfl⟩
  split
  · exact ⟨.refl m, rfl⟩
  split <;> exact ⟨⟨rfl, rfl, rfl⟩, rfl⟩

theorem syncWriter_fails {w : WALWriter} {fails : Bool} (writer : m.writer = some w) (isOpen : w.isOpen)
    (failed : ¬ (m.syncWriter fails).1.isOk) : fails := by
  unfold WALManager.syncWriter at failed
  rw [writer] at failed
  dsimp only at failed
  rw [if_neg (not_not_intro isOpen)] at failed
  by_contra fine
  rw [if_neg fine] at failed
  exact failed rfl

structure Prepared (m : WALManager) (result : Status × WALManager) : Prop where
  same : SameBooks m result.2
  isOpen : result.2.WriterOpen
  there : result.1.isOk → result.2.writer.isSome

theorem createNewWALFile_prepared (m : WALManager) (faults : FileFaults) :
    Prepared m (m.createNewWALFile faults) := by
  have synced := (syncWriter_same m faults.closingSync).1
  unfold WALManager.createNewWALFile
  generalize m.syncWriter faults.closingSync = result at synced ⊢
  obtain ⟨status, m'⟩ := result
  dsimp only at synced ⊢
  split
  · exact ⟨synced.trans ⟨rfl, rfl, rfl⟩, nofun, nofun⟩
  · refine ⟨synced.trans ⟨rfl, rfl, rfl⟩, ?_, fun _ => rfl⟩
    rintro w ⟨⟩
    rfl

theorem archiveCurrentWAL_same (m : WALManager) (faults : FileFaults) :
    SameBooks m (m.archiveCurrentWAL faults).2 := by
  unfold WALManager.archiveCurrentWAL
  split
  · exact .refl m
  have synced := (syncWriter_same m faults.sync).1
  generalize m.syncWriter faults.sync = result at synced ⊢
  obtain ⟨status, m'⟩ := result
  dsimp only at synced ⊢
  split
  · exact synced
  split <;> exact synced.trans ⟨rfl, rfl, rfl⟩

theorem switchToNewWAL_prepared (m : WALManager) (faults : FileFaults) :
    Prepared m (m.switchToNewWAL faults) := by
  obtain ⟨same, isOpen, there⟩ := createNewWALFile_prepared (m.archiveCurrentWAL faults).2 faults
  exact ⟨(archiveCurrentWAL_same m faults).trans same, isOpen, there⟩

theorem missing_prepared (isOpen : m.WriterOpen) (faults : FileFaults) :
    Prepared m (if m.writer.isNone then m.createNewWALFile faults else (.ok, m)) := by
  split
  · exact createNewWALFile_prepared m faults
  · rename_i there
    exact ⟨.refl m, isOpen, fun _ => Option.isSome_iff_ne_none.mpr (by simpa using there)⟩

theorem switching_prepared (isOpen : m.WriterOpen) (there : m.writer.isSome) (faults : FileFaults) :
    Prepared m (if m.shouldSwitchWAL then m.switchToNewWAL faults else (.ok, m)) := by
  split
  · exact switchToNewWAL_prepared m faults
  · exact ⟨.refl m, isOpen, fun _ => there⟩

theorem updateTransactionState_cases (m : WALManager) (r : WALRecord) :
    (¬ (m.updateTransactionState r).1.isOk ∧ (m.updateTransactionState r).2 = m) ∨
      (r.type.marks = none ∧ m.updateTransactionState r = (.ok, m)) ∨
      ∃ state, r.type.marks = some state ∧
        (state = .kActive ↔ m.activeTransactions r.transactionId = none) ∧
        m.updateTransactionState r = (.ok, m.setTransaction r.transactionId state) := by
  unfold WALManager.updateTransactionState
  cases known : m.activeTransactions r.transactionId <;> cases type : r.type <;>
    simp [WALRecordType.marks, Status.isOk, Status.invalidArgument, setTransaction]

def Fails (m : WALManager) (faults : RecordFaults) (r : WALRecord) : Prop :=
  faults.append ≠ none ∨ WALRecord.maxEncodedLength < r.encodedLength ∨
    (m.syncOnWrite = true ∧ faults.sync = true)

theorem append_cases (isOpen : m.WriterOpen) (exists' : m.writer.isSome) (fault : Option AppendFault)
    (r : WALRecord) : SameBooks m (m.append fault r).2 ∧ (m.append fault r).2.WriterOpen ∧
      (m.append fault r).2.writer.isSome ∧ (¬ (m.append fault r).1.isOk →
        fault ≠ none ∨ WALRecord.maxEncodedLength < r.encodedLength) := by
  obtain ⟨w, writer⟩ := Option.isSome_iff_exists.mp exists'
  have openHere : w.isOpen := isOpen w writer
  unfold WALManager.append
  rw [writer]
  dsimp only
  rw [if_neg (not_not_intro openHere)]
  by_cases large : WALRecord.maxEncodedLength < r.encodedLength
  · rw [if_pos large]
    exact ⟨.refl m, isOpen, exists', fun _ => .inr large⟩
  rw [if_neg large]
  cases fault with
  | none =>
      refine ⟨⟨rfl, rfl, rfl⟩, ?_, rfl, fun failed => absurd rfl failed⟩
      rintro v ⟨⟩
      exact openHere
  | some fault =>
      cases fault with
      | refused => exact ⟨.refl m, isOpen, exists', fun _ => .inl nofun⟩
      | misplaced =>
          refine ⟨⟨rfl, rfl, rfl⟩, ?_, exists', fun _ => .inl nofun⟩
          exact isOpen

/-- The manager `m'` behind the check: the write succeeds, or it fails and leaves the books as the
check has left them. -/
structure Written (m : WALManager) (faults : RecordFaults) (r : WALRecord) (m' : WALManager)
    (result : Status × WALManager) : Prop where
  activeTransactions : result.2.activeTransactions = m'.activeTransactions
  success : result.1.isOk → result.2.lastSequence = r.sequenceNumber
  failure : ¬ result.1.isOk → result.2.lastSequence = m.lastSequence ∧ m.Fails faults r

theorem written_of_checked (faults : RecordFaults) (isOpen : m'.WriterOpen) (exists' : m'.writer.isSome)
    (positive : r.sequenceNumber ≠ 0) (checked : m.updateTransactionState r = (.ok, m'))
    (last : m'.lastSequence = m.lastSequence) (syncs : m'.syncOnWrite = m.syncOnWrite) :
    (m.writeToFile faults r).2.WriterOpen ∧ Written m faults r m' (m.writeToFile faults r) := by
  obtain ⟨same, stillOpen, stillThere, failed⟩ := append_cases isOpen exists' faults.append r
  have passed : ¬ ¬ Status.ok.isOk = true := not_not_intro rfl
  unfold WALManager.writeToFile
  rw [if_neg positive, checked]
  dsimp only
  rw [if_neg passed]
  generalize m'.append faults.append r = appended at same stillOpen stillThere failed ⊢
  obtain ⟨status, m₁⟩ := appended
  dsimp only at same stillOpen stillThere failed ⊢
  by_cases ok : status.isOk
  · rw [if_neg (not_not_intro ok)]
    by_cases sync : m₁.syncOnWrite = true
    · obtain ⟨w, writer⟩ := Option.isSome_iff_exists.mp stillThere
      obtain ⟨synced, sameWriter⟩ := syncWriter_same m₁ faults.sync
      have syncFailed : ¬ (m₁.syncWriter faults.sync).1.isOk → faults.sync :=
        syncWriter_fails writer (stillOpen w writer)
      rw [if_pos sync]
      generalize m₁.syncWriter faults.sync = result at synced sameWriter syncFailed ⊢
      obtain ⟨status', m₂⟩ := result
      dsimp only at synced sameWriter syncFailed ⊢
      have openAfter : m₂.WriterOpen := by
        rw [WriterOpen, sameWriter]
        exact stillOpen
      have books := same.trans synced
      by_cases ok' : status'.isOk
      · rw [if_pos ok']
        exact ⟨openAfter, books.activeTransactions, fun _ => rfl, fun failed => absurd rfl failed⟩
      · rw [if_neg ok']
        refine ⟨openAfter, books.activeTransactions, nofun, fun _ => ⟨books.lastSequence.trans last, ?_⟩⟩
        refine .inr (.inr ⟨?_, syncFailed ok'⟩)
        rw [← syncs, ← same.syncOnWrite]
        exact sync
    · rw [if_neg sync]
      exact ⟨stillOpen, same.activeTransactions, fun _ => rfl, fun failed => absurd rfl failed⟩
  · rw [if_pos ok]
    refine ⟨stillOpen, same.activeTransactions, nofun, fun _ => ⟨same.lastSequence.trans last, ?_⟩⟩
    rcases failed ok with fault | large
    · exact .inl fault
    · exact .inr (.inl large)

theorem writeToFile_cases (isOpen : m.WriterOpen) (exists' : m.writer.isSome) (faults : RecordFaults)
    (r : WALRecord) : (m.writeToFile faults r).2.WriterOpen ∧
      ((¬ (m.writeToFile faults r).1.isOk ∧ SameBooks m (m.writeToFile faults r).2) ∨
        ∃ m', m.updateTransactionState r = (.ok, m') ∧
          Written m faults r m' (m.writeToFile faults r)) := by
  by_cases zero : r.sequenceNumber = 0
  · rw [WALManager.writeToFile, if_pos zero]
    exact ⟨isOpen, .inl ⟨nofun, .refl m⟩⟩
  rcases updateTransactionState_cases m r with ⟨refused, same⟩ | ⟨_, checked⟩ | ⟨state, _, _, checked⟩
  · rw [WALManager.writeToFile, if_neg zero]
    generalize m.updateTransactionState r = result at refused same ⊢
    obtain ⟨status, m'⟩ := result
    dsimp only at refused same ⊢
    rw [if_pos refused, same]
    exact ⟨isOpen, .inl ⟨refused, .refl m⟩⟩
  · obtain ⟨stillOpen, written⟩ := written_of_checked faults isOpen exists' zero checked rfl rfl
    exact ⟨stillOpen, .inr ⟨m, checked, written⟩⟩
  · obtain ⟨stillOpen, written⟩ :=
      written_of_checked faults (show (m.setTransaction r.transactionId state).WriterOpen from isOpen)
        exists' zero checked rfl rfl
    exact ⟨stillOpen, .inr ⟨_, checked, written⟩⟩

theorem writeRecordInternal_cases (isOpen : m.WriterOpen) (faults : RecordFaults) (r : WALRecord) :
    (m.writeRecordInternal faults r).2.WriterOpen ∧
      ((¬ (m.writeRecordInternal faults r).1.isOk ∧ SameBooks m (m.writeRecordInternal faults r).2) ∨
        ∃ m₁ m', SameBooks m m₁ ∧ m₁.updateTransactionState r = (.ok, m') ∧
          Written m₁ faults r m' (m.writeRecordInternal faults r)) := by
  rw [WALManager.writeRecordInternal]
  split
  · exact ⟨isOpen, .inl ⟨nofun, .refl m⟩⟩
  obtain ⟨same₁, open₁, there₁⟩ := missing_prepared isOpen faults.missing
  generalize (if m.writer.isNone then m.createNewWALFile faults.missing else (.ok, m)) = result
    at same₁ open₁ there₁ ⊢
  obtain ⟨status, m₁⟩ := result
  dsimp only at same₁ open₁ there₁ ⊢
  by_cases ok : status.isOk
  · rw [if_neg (not_not_intro ok)]
    obtain ⟨same₂, open₂, there₂⟩ := switching_prepared open₁ (there₁ ok) faults.switching
    generalize (if m₁.shouldSwitchWAL then m₁.switchToNewWAL faults.switching else (.ok, m₁)) = result
      at same₂ open₂ there₂ ⊢
    obtain ⟨status', m₂⟩ := result
    dsimp only at same₂ open₂ there₂ ⊢
    have same := same₁.trans same₂
    by_cases ok' : status'.isOk
    · rw [if_neg (not_not_intro ok')]
      obtain ⟨openAfter, refused | ⟨m', checked, written⟩⟩ :=
        writeToFile_cases open₂ (there₂ ok') faults r
      · exact ⟨openAfter, .inl ⟨refused.1, same.trans refused.2⟩⟩
      · exact ⟨openAfter, .inr ⟨m₂, m', same, checked, written⟩⟩
    · rw [if_pos ok']
      exact ⟨open₂, .inl ⟨nofun, same⟩⟩
  · rw [if_pos ok]
    exact ⟨open₁, .inl ⟨nofun, same₁⟩⟩

theorem writeCall_cases (isOpen : m.WriterOpen) (faults : RecordFaults) (c : WriteCall) :
    (m.writeCall faults c).2.WriterOpen ∧
      ((¬ (m.writeCall faults c).1.isOk ∧ SameBooks m (m.writeCall faults c).2) ∨
        (c.record.type.marks = none ∧
          (m.writeCall faults c).2.activeTransactions = m.activeTransactions ∧
          (¬ (m.writeCall faults c).1.isOk → (m.writeCall faults c).2.lastSequence = m.lastSequence)) ∨
        ∃ state, c.record.type.marks = some state ∧
          (state = .kActive ↔ m.activeTransactions c.record.transactionId = none) ∧
          (m.writeCall faults c).2.activeTransactions =
            Function.update m.activeTransactions c.record.transactionId (some state) ∧
          (¬ (m.writeCall faults c).1.isOk → m.Fails faults c.record)) := by
  rw [writeCall]
  split
  · exact ⟨isOpen, .inl ⟨nofun, .refl m⟩⟩
  obtain ⟨openAfter, cases'⟩ := writeRecordInternal_cases isOpen faults c.record
  generalize m.writeRecordInternal faults c.record = result at openAfter cases' ⊢
  obtain ⟨status, m₂⟩ := result
  dsimp only at openAfter cases' ⊢
  rcases cases' with ⟨refused, same⟩ | ⟨m₁, m', same, checked, written⟩
  · cases c.record.type.marks with
    | none => exact ⟨openAfter, .inl ⟨refused, same⟩⟩
    | some state =>
        dsimp only
        rw [if_neg refused]
        exact ⟨openAfter, .inl ⟨refused, same⟩⟩
  obtain ⟨active, success, failure⟩ := written
  dsimp only at active success failure
  rcases updateTransactionState_cases m₁ c.record with ⟨refused, _⟩ | ⟨marks, unchanged⟩ |
    ⟨state, marks, accepted, changed⟩
  · rw [checked] at refused
    exact absurd rfl refused
  · rw [unchanged] at checked
    cases checked
    rw [marks]
    refine ⟨openAfter, .inr (.inl ⟨rfl, active.trans same.activeTransactions, ?_⟩)⟩
    exact fun failed => (failure failed).1.trans same.lastSequence
  · rw [changed] at checked
    cases checked
    rw [same.activeTransactions] at accepted
    have set : m₂.activeTransactions =
        Function.update m.activeTransactions c.record.transactionId (some state) := by
      rw [active, setTransaction, same.activeTransactions]
    have fails : ¬ status.isOk → m.Fails faults c.record := by
      intro failed
      have fails := (failure failed).2
      rwa [Fails, same.syncOnWrite] at fails
    rw [marks]
    dsimp only
    by_cases ok : status.isOk
    · rw [if_pos ok]
      refine ⟨openAfter, .inr (.inr ⟨state, rfl, accepted, ?_, fun failed => absurd ok failed⟩)⟩
      show Function.update m₂.activeTransactions _ _ = _
      rw [set, Function.update_idem]
    · rw [if_neg ok]
      exact ⟨openAfter, .inr (.inr ⟨state, rfl, accepted, set, fails⟩)⟩

end WALManager

/-! ## Runs -/

structure Bookkeeping where
  manager : WALManager
  logged : Log := []

def loggedState (logged : Log) (id : Nat) : Option TransactionState :=
  logged.foldl (fun state r => if r.transactionId = id then r.type.marks.or state else state) none

theorem loggedState_append (logged : Log) (r : WALRecord) (id : Nat) : loggedState (logged ++ [r]) id =
    if r.transactionId = id then r.type.marks.or (loggedState logged id) else loggedState logged id := by
  rw [loggedState, List.foldl_append]
  rfl

namespace Bookkeeping

def step (s : Bookkeeping) (a : RecordFaults × WriteCall) : Option Bookkeeping :=
  let (status, manager) := s.manager.writeCall a.1 a.2
  some { manager, logged := if status.isOk then s.logged ++ [a.2.record] else s.logged }

/-- A begin of a transaction that is not known, and a commit or abort of one that is, do not fail
behind the check, and the one that is known is active. -/
def Clean (s : Bookkeeping) (a : RecordFaults × WriteCall) : Prop :=
  ∀ state, a.2.record.type.marks = some state →
    (state = .kActive ↔ s.manager.activeTransactions a.2.record.transactionId = none) →
      ¬ s.manager.Fails a.1 a.2.record ∧ (state ≠ .kActive →
        s.manager.activeTransactions a.2.record.transactionId = some .kActive)

instance (m : WALManager) (faults : RecordFaults) (r : WALRecord) : Decidable (m.Fails faults r) := by
  unfold WALManager.Fails; infer_instance

instance (s : Bookkeeping) (a : RecordFaults × WriteCall) : Decidable (Clean s a) :=
  inferInstanceAs (Decidable (∀ state ∈ a.2.record.type.marks,
    (state = .kActive ↔ s.manager.activeTransactions a.2.record.transactionId = none) →
      ¬ s.manager.Fails a.1 a.2.record ∧ (state ≠ .kActive →
        s.manager.activeTransactions a.2.record.transactionId = some .kActive)))

def FollowsLog (s : Bookkeeping) : Prop :=
  ∀ id, s.manager.activeTransactions id = loggedState s.logged id

/-- A call that fails changes nothing, and a transaction goes only from absent to active and from
active to its end. -/
structure Orderly (s : Bookkeeping) (a : RecordFaults × WriteCall) : Prop where
  failure : ¬ (s.manager.writeCall a.1 a.2).1.isOk →
    (s.manager.writeCall a.1 a.2).2.activeTransactions = s.manager.activeTransactions ∧
      (s.manager.writeCall a.1 a.2).2.lastSequence = s.manager.lastSequence
  transition : ∀ id,
    (s.manager.writeCall a.1 a.2).2.activeTransactions id = s.manager.activeTransactions id ∨
      (s.manager.activeTransactions id = none ∧
        (s.manager.writeCall a.1 a.2).2.activeTransactions id = some .kActive) ∨
      (s.manager.activeTransactions id = some .kActive ∧
        ((s.manager.writeCall a.1 a.2).2.activeTransactions id = some .kCommitted ∨
          (s.manager.writeCall a.1 a.2).2.activeTransactions id = some .kAborted))

theorem orderly_of_clean {s : Bookkeeping} {a : RecordFaults × WriteCall} (isOpen : s.manager.WriterOpen)
    (clean : Clean s a) : Orderly s a := by
  obtain ⟨_, cases'⟩ := WALManager.writeCall_cases isOpen a.1 a.2
  rcases cases' with ⟨_, same⟩ | ⟨_, active, last⟩ | ⟨state, marks, accepted, active, fails⟩
  · refine ⟨fun _ => ⟨same.activeTransactions, same.lastSequence⟩, fun id => .inl ?_⟩
    rw [same.activeTransactions]
  · refine ⟨fun failed => ⟨active, last failed⟩, fun id => .inl ?_⟩
    rw [active]
  · obtain ⟨fine, known⟩ := clean state marks accepted
    refine ⟨fun failed => absurd (fails failed) fine, fun id => ?_⟩
    rw [active]
    by_cases here : id = a.2.record.transactionId
    · subst here
      rw [Function.update_self]
      cases state with
      | kActive => exact .inr (.inl ⟨accepted.mp rfl, rfl⟩)
      | kCommitted => exact .inr (.inr ⟨known nofun, .inl rfl⟩)
      | kAborted => exact .inr (.inr ⟨known nofun, .inr rfl⟩)
    · rw [Function.update_of_ne here]
      exact .inl rfl

theorem followsLog_step {s t : Bookkeeping} {a : RecordFaults × WriteCall} (isOpen : s.manager.WriterOpen)
    (clean : Clean s a) (stepped : step s a = some t) (follows : FollowsLog s) :
    t.manager.WriterOpen ∧ FollowsLog t := by
  obtain ⟨openAfter, cases'⟩ := WALManager.writeCall_cases isOpen a.1 a.2
  rw [step] at stepped
  generalize s.manager.writeCall a.1 a.2 = result at openAfter cases' stepped
  obtain ⟨status, m⟩ := result
  cases stepped
  dsimp only at openAfter cases'
  refine ⟨openAfter, ?_⟩
  intro id
  show m.activeTransactions id = loggedState (if status.isOk then s.logged ++ [a.2.record] else s.logged) id
  rcases cases' with ⟨failed, same⟩ | ⟨marks, active, _⟩ | ⟨state, marks, accepted, active, fails⟩
  · rw [same.activeTransactions, if_neg failed]
    exact follows id
  · rw [active, follows id]
    split
    · rw [loggedState_append, marks]
      split <;> rfl
    · rfl
  · have ok : status.isOk := by
      by_contra failed
      exact (clean state marks accepted).1 (fails failed)
    rw [active, if_pos ok, loggedState_append, marks]
    by_cases here : a.2.record.transactionId = id
    · subst here
      rw [Function.update_self, if_pos rfl]
      rfl
    · rw [Function.update_of_ne (Ne.symm here), if_neg here]
      exact follows id

/-- In a run of clean calls from a manager without transactions the states follow the records, and
every clean call from there is orderly. -/
theorem transactions_follow_log {m : WALManager} {s : Bookkeeping} (isOpen : m.WriterOpen)
    (none : ∀ id, m.activeTransactions id = none) (run : Run step Clean { manager := m } s) :
    FollowsLog s ∧ ∀ a, Clean s a → Orderly s a := by
  have invariant : s.manager.WriterOpen ∧ FollowsLog s := by
    refine Run.invariant (p := fun s => s.manager.WriterOpen ∧ FollowsLog s) ?_ run ⟨isOpen, none⟩
    rintro s a t clean stepped ⟨isOpen, follows⟩
    exact followsLog_step isOpen clean stepped follows
  exact ⟨invariant.2, fun a clean => orderly_of_clean invariant.1 clean⟩

def callsAndRefusals : List (RecordFaults × WriteCall) :=
  [({}, .beginTransaction 0 7 1), ({}, .put 0 [107] [1] 2), ({}, .beginTransaction 0 8 3),
    ({}, .beginTransaction 0 8 4), ({}, .commitTransaction 0 7 5),
    ({ append := some .refused }, .put 0 [107] [2] 6), ({}, .beginTransaction 0 9 7),
    ({}, .abortTransaction 0 9 8)]

theorem transactions_follow_log_begin : ∃ s,
    execute step { manager := .opened 1 } callsAndRefusals = some s ∧ s.logged.length = 6 ∧
      s.manager.activeTransactions 7 = some .kCommitted ∧ s.manager.activeTransactions 8 = some .kActive ∧
        s.manager.activeTransactions 9 = some .kAborted ∧
          FollowsLog s ∧ ∀ a, Clean s a → Orderly s a := by
  have clean : Allowed step Clean { manager := .opened 1 } callsAndRefusals := by decide +kernel
  have facts : (execute step { manager := .opened 1 } callsAndRefusals).any fun s =>
      s.logged.length = 6 ∧ s.manager.activeTransactions 7 = some .kCommitted ∧
        s.manager.activeTransactions 8 = some .kActive ∧
          s.manager.activeTransactions 9 = some .kAborted := by decide +kernel
  have isOpen : (WALManager.opened 1).WriterOpen := by
    rintro w ⟨⟩
    rfl
  obtain ⟨s, executed, facts⟩ := Option.any_eq_true _ _ |>.mp facts
  obtain ⟨logged, committed, active, aborted⟩ := of_decide_eq_true facts
  exact ⟨s, executed, logged, committed, active, aborted,
    transactions_follow_log isOpen (fun _ => rfl) (execute_run _ clean executed)⟩

theorem not_orderly_refused : ¬ ∀ s, Run step free { manager := .opened 1 } s →
    FollowsLog s ∧ ∀ a, Orderly s a := by
  intro all
  have orderly := (all _ .refl).2 ({ append := some .refused }, .beginTransaction 0 7 1)
  have unchanged := congrFun (orderly.failure nofun).1 7
  cases unchanged

end Bookkeeping
end Lrdb
