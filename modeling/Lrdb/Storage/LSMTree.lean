import Lrdb.Storage.SSTableManager

/-!
# The LSM tree

One mutable memtable, immutable memtables waiting to be flushed, and files. A point read asks the
memtables from new to old and then the files.
-/

namespace Lrdb
open Versions

structure LSMTreeOptions where
  memtableSize : Nat := 64 * 1024 * 1024
  maxMemtables : Nat := 4
  l0StopWritesTrigger : Nat := 12
  writer : SSTableWriterOptions := {}
  memtable : MemTableOptions := { writeBufferSize := memtableSize, maxWriteBufferNumber := maxMemtables }

structure LSMTree (cmp : Comparator) where
  mutableMemTable : MemTable cmp
  immutables : List (MemTable cmp)
  sstables : SSTableManager
  nextSequenceNumber : Nat
  writeStop : Bool

namespace LSMTree
variable {cmp : Comparator} (options : LSMTreeOptions)

def new : LSMTree cmp := ⟨.new options.memtable, [], .new, 1, false⟩

/-- The `kStop` answer of `CheckWriteConditions`; a slowdown only delays the write. -/
def writesStopped (t : LSMTree cmp) : Bool :=
  t.writeStop || decide (options.l0StopWritesTrigger ≤ (t.sstables.level 0).length)

/-- `MemTableManager::SwitchMemTable`. -/
def switchMemTable (t : LSMTree cmp) : Except Status (LSMTree cmp) :=
  if options.memtable.maxWriteBufferNumber - 1 ≤ t.immutables.length then
    .error (.tryAgain "Too many immutable MemTables")
  else .ok
    { t with
      mutableMemTable := .new options.memtable
      immutables := t.immutables ++ [t.mutableMemTable.setImmutable] }

/-- `PutLocked`, `DeleteLocked` and `MergeLocked`. -/
def addEntry (t : LSMTree cmp) (type : ValueType) (key : Key) (value : Value) (sequence : Nat) :
    Status × LSMTree cmp :=
  match t.mutableMemTable.add options.memtable type key value sequence with
  | .error status => (status, t)
  | .ok mem => (.ok, { t with mutableMemTable := mem })

def writeLocked (t : LSMTree cmp) (type : ValueType) (key : Key) (value : Value)
    (sequence : Nat) : Status × LSMTree cmp :=
  let (sequence, t) :=
    if sequence = 0 then
      (t.nextSequenceNumber, { t with nextSequenceNumber := t.nextSequenceNumber + 1 })
    else (sequence, t)
  let switched :=
    if t.mutableMemTable.shouldFlush options.memtable then t.switchMemTable options else .ok t
  match switched with
  | .error status => (status, t)
  | .ok t => t.addEntry options type key value sequence

def write (t : LSMTree cmp) (type : ValueType) (key : Key) (value : Value) (sequence : Nat) :
    Status × LSMTree cmp :=
  if t.writesStopped options then (.ioError "Write stopped due to too many L0 files", t)
  else t.writeLocked options type key value sequence

def put (t : LSMTree cmp) (key : Key) (value : Value) (sequence : Nat) : Status × LSMTree cmp :=
  t.write options .kValue key value sequence

def delete (t : LSMTree cmp) (key : Key) (sequence : Nat) : Status × LSMTree cmp :=
  t.write options .kDeletion key [] sequence

/-- `DoFlushMemTable`: an empty memtable leaves no file. -/
def doFlushMemTable (sstables : SSTableManager) (mem : MemTable cmp) : Status × SSTableManager :=
  if mem.isEmpty then (.ok, sstables)
  else sstables.flushMemTableToSSTable cmp options.writer mem 0

def flushOldestMemTable (t : LSMTree cmp) : Status × LSMTree cmp :=
  match t.immutables with
  | [] => (.ok, t)
  | mem :: rest =>
      let (status, sstables) := doFlushMemTable options t.sstables mem
      if status.isOk then (status, { t with immutables := rest, sstables := sstables })
      else (status, { t with sstables := sstables })

/-- The loop of `FlushAll`: every flush that succeeds removes a memtable. -/
def flushImmutables : Nat → LSMTree cmp → Status × LSMTree cmp
  | 0, t => (.ok, t)
  | n + 1, t =>
      let (status, t) := t.flushOldestMemTable options
      if status.isOk then flushImmutables n t else (status, t)

def flushAll (t : LSMTree cmp) : Status × LSMTree cmp :=
  let switched := if t.mutableMemTable.isEmpty then .ok t else t.switchMemTable options
  match switched with
  | .error status => (status, t)
  | .ok t => flushImmutables options t.immutables.length t

/-! ## Reading -/

def getFromImmutables (key : Key) (snapshot : Nat) (value : Value) :
    List (MemTable cmp) → MemTable.GetResult
  | [] => (false, ⟨.ok, value⟩)
  | mem :: older =>
      let (hit, result) := mem.get key snapshot .ok value
      if result.status.isDeleted then (false, result)
      else if ¬ result.status.isOk ∧ ¬ result.status.isNotFound ∧
          ¬ result.status.isMergeInProgress then (false, result)
      else if hit then (true, result)
      else getFromImmutables key snapshot result.value older

/-- The hit flag is the out parameter `found`. -/
def getFromMemTables (t : LSMTree cmp) (key : Key) (snapshot : Nat) (value : Value) :
    MemTable.GetResult :=
  let (hit, result) := t.mutableMemTable.get key snapshot .ok value
  if result.status.isDeleted then (false, result)
  else if ¬ result.status.isOk ∧ ¬ result.status.isNotFound ∧
      ¬ result.status.isMergeInProgress then (false, result)
  else if hit then (true, ⟨.ok, result.value⟩)
  else getFromImmutables key snapshot result.value t.immutables.reverse

/-- The files are searched even when a memtable has answered, and write to the same value. -/
def get (t : LSMTree cmp) (key : Key) (snapshot : Nat) (value : Value) : ReadResult :=
  let (memFound, mem) := t.getFromMemTables key snapshot value
  if mem.status.isDeleted then ⟨.notFound "Key was deleted", mem.value⟩
  else if ¬ mem.status.isOk ∧ ¬ mem.status.isNotFound ∧ ¬ mem.status.isMergeInProgress then mem
  else
    let (fileFound, file) := t.sstables.get cmp key snapshot mem.value
    let found := memFound || (file.status.isOk && fileFound)
    if file.status.isDeleted then ⟨.notFound "Key was deleted", file.value⟩
    else if ¬ file.status.isOk then file
    else if ¬ found then ⟨.notFound "Key not found", file.value⟩
    else ⟨.ok, file.value⟩

/-! ## What a read sees -/

def payload : Version → Option Value
  | (_, .kDeletion, _) => none
  | (_, _, stored) => some stored

def memTables (t : LSMTree cmp) : List (MemTable cmp) := t.mutableMemTable :: t.immutables.reverse

def memPlaces (t : LSMTree cmp) (key : Key) (snapshot : Nat) : List (List Version) :=
  t.memTables.map fun mem => visibleVersions snapshot (mem.versions key)

def filePlaces (t : LSMTree cmp) (key : Key) (snapshot : Nat) : List (List Version) :=
  (t.sstables.candidates cmp key).map fun table => visibleVersions snapshot (table.versions key)

def Unshadowed (t : LSMTree cmp) (key : Key) (snapshot : Nat) : Prop :=
  ∀ version ∈ firstHit (t.memPlaces key snapshot), (payload version).isSome →
    ∀ older ∈ firstHit (t.filePlaces key snapshot), payload older = payload version

instance (t : LSMTree cmp) (key : Key) (snapshot : Nat) :
    Decidable (t.Unshadowed key snapshot) := by unfold Unshadowed; infer_instance

/-- The file's version wins over a value from a memtable; only a tombstone there stops the search. -/
def outcome (memHit fileHit : Option Version) : Option Value :=
  match memHit with
  | none => fileHit.bind payload
  | some version => (payload version).bind fun _ => payload (fileHit.getD version)

private theorem getFromImmutables_eq (key : Key) (snapshot : Nat) (value : Value)
    (tables : List (MemTable cmp)) : getFromImmutables key snapshot value tables =
      match firstHit (tables.map fun mem => visibleVersions snapshot (mem.versions key)) with
      | none => (false, ⟨.ok, value⟩)
      | some (_, type, stored) => MemTable.report false value type stored := by
  induction tables with
  | nil => rfl
  | cons mem older ih =>
      rw [getFromImmutables, MemTable.get_eq_answer, List.map_cons, firstHit]
      cases newest (visibleVersions snapshot (mem.versions key)) with
      | none =>
          simpa [MemTable.answer, MemTable.miss, Status.isDeleted, Status.isOk, Status.isNotFound,
            Status.notFound] using ih
      | some version =>
          obtain ⟨sequence, type, stored⟩ := version
          cases type <;> rfl

def MemAnswer (value : Value) : Option Version → MemTable.GetResult → Prop
  | none, r => r = (false, ⟨.ok, value⟩)
  | some version, r =>
      match payload version with
      | none => r.2.status.isDeleted
      | some stored => r.1 ∧ r.2.value = stored ∧ ¬ r.2.status.isDeleted ∧
          (r.2.status.isOk ∨ r.2.status.isMergeInProgress)

theorem getFromMemTables_answer (t : LSMTree cmp) (key : Key) (snapshot : Nat) (value : Value) :
    MemAnswer value (firstHit (t.memPlaces key snapshot)) (t.getFromMemTables key snapshot value) := by
  rw [getFromMemTables, MemTable.get_eq_answer, memPlaces, memTables, List.map_cons, firstHit]
  cases newest (visibleVersions snapshot (t.mutableMemTable.versions key)) with
  | none =>
      simp only [MemTable.answer, MemTable.miss, Status.isDeleted, Status.isOk, Status.isNotFound,
        Status.notFound, getFromImmutables_eq, Option.none_or]
      cases firstHit (t.immutables.reverse.map fun mem =>
          visibleVersions snapshot (mem.versions key)) with
      | none => simp [MemAnswer]
      | some version =>
          obtain ⟨sequence, type, stored⟩ := version
          cases type <;> simp [MemAnswer, MemTable.report, payload, Status.ok, Status.deleted,
            Status.mergeInProgress, Status.isMergeInProgress, Status.isDeleted, Status.isOk]
  | some version =>
      obtain ⟨sequence, type, stored⟩ := version
      cases type <;> simp [MemAnswer, MemTable.answer, MemTable.report, payload, Status.ok,
        Status.deleted, Status.mergeInProgress, Status.isMergeInProgress, Status.isDeleted,
        Status.isOk, Status.isNotFound]

theorem sstables_get_eq {t : LSMTree cmp} {key : Key}
    (laid : ∀ table ∈ t.sstables.candidates cmp key, SSTable.Laid cmp table) (snapshot : Nat)
    (value : Value) : t.sstables.get cmp key snapshot value =
      SSTable.report value (firstHit (t.filePlaces key snapshot)) :=
  SSTableManager.searchFiles_eq laid key snapshot value

theorem get_answers_of_files (t : LSMTree cmp) {key : Key} {snapshot : Nat}
    {fileHit : Option Version} (files : ∀ value,
      t.sstables.get cmp key snapshot value = SSTable.report value fileHit) (value : Value) :
    (t.get key snapshot value).Answers (outcome (firstHit (t.memPlaces key snapshot)) fileHit) := by
  have mem := getFromMemTables_answer t key snapshot value
  unfold get
  rcases got : t.getFromMemTables key snapshot value with ⟨memFound, result⟩
  rw [got] at mem
  cases hit : firstHit (t.memPlaces key snapshot) with
  | none =>
      rw [hit] at mem
      obtain ⟨rfl, rfl⟩ := Prod.ext_iff.mp mem
      simp only [files]
      cases fileHit with
      | none => exact rfl
      | some version =>
          obtain ⟨sequence, type, stored⟩ := version
          cases type with
          | kValue | kMerge => exact ⟨rfl, rfl⟩
          | kDeletion => exact rfl
  | some version =>
      simp only [hit, MemAnswer] at mem
      cases held : payload version with
      | none =>
          simp only [held] at mem
          simp only [mem, if_true, outcome, held, Option.bind_none]
          exact rfl
      | some stored =>
          simp only [held] at mem
          obtain ⟨found, value', live, fine⟩ := mem
          have passes : ¬ (¬ result.status.isOk ∧ ¬ result.status.isNotFound ∧
              ¬ result.status.isMergeInProgress) := by tauto
          simp only [if_neg live, if_neg passes, files, outcome, held, Option.bind_some]
          obtain rfl : memFound = true := found
          cases fileHit with
          | none => exact held ▸ ⟨rfl, value'⟩
          | some older =>
              obtain ⟨sequence, type, below⟩ := older
              cases type with
              | kValue | kMerge => exact ⟨rfl, rfl⟩
              | kDeletion => exact rfl

theorem get_answers_choice (t : LSMTree cmp) (key : Key) (snapshot : Nat) (value : Value) :
    (t.get key snapshot value).Answers
      (outcome (firstHit (t.memPlaces key snapshot)) (t.sstables.choice cmp key snapshot)) :=
  t.get_answers_of_files (t.sstables.get_eq_choice key snapshot) value

theorem get_answers_outcome {t : LSMTree cmp} {key : Key}
    (laid : ∀ table ∈ t.sstables.candidates cmp key, SSTable.Laid cmp table) (snapshot : Nat)
    (value : Value) : (t.get key snapshot value).Answers
      (outcome (firstHit (t.memPlaces key snapshot)) (firstHit (t.filePlaces key snapshot))) :=
  t.get_answers_of_files (sstables_get_eq laid snapshot) value

theorem outcome_eq_iff {memHit fileHit : Option Version} :
    outcome memHit fileHit = (memHit.or fileHit).bind payload ↔
      ∀ version ∈ memHit, (payload version).isSome →
        ∀ older ∈ fileHit, payload older = payload version := by
  cases memHit with
  | none => simp [outcome]
  | some version =>
      cases held : payload version with
      | none => simp [outcome, held]
      | some stored => cases fileHit <;> simp [outcome, held]

theorem get_answers_iff {t : LSMTree cmp} {key : Key}
    (laid : ∀ table ∈ t.sstables.candidates cmp key, SSTable.Laid cmp table) (snapshot : Nat)
    (value : Value) : (t.get key snapshot value).Answers
        ((firstHit (t.memPlaces key snapshot ++ t.filePlaces key snapshot)).bind payload) ↔
      t.Unshadowed key snapshot := by
  have actual := get_answers_outcome laid snapshot value
  rw [firstHit_append]
  refine Iff.trans ⟨fun answers => actual.unique answers, fun equal => equal ▸ actual⟩ ?_
  exact outcome_eq_iff

end LSMTree
end Lrdb
