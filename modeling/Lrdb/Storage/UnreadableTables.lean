import Lrdb.Storage.Compaction
import Lrdb.Storage.PinnedCursor

/-!
# Tables that cannot be read

A point read reports a block that it cannot read and passes over a file that it cannot open. A level
iterator goes on behind a failure, or ends its level there, and keeps the failure only in the status of
the file that it leaves last.
-/

namespace Lrdb
open Versions Scans SSTable TableFile Stateful

structure TableFaults extends BlockFaults where
  missing : Bool := false

abbrev Faults := SSTable → TableFaults

namespace SSTable
variable (cmp : Comparator)

/-- `GetReader` gives a reader. -/
def opens (faults : Faults) (table : SSTable) : Bool :=
  !(faults table).missing && (table.readIndex cmp).isOk

/-- `SSTableReader::Get`, with `ReadDataBlock` failing on some blocks. -/
def getUnder (faults : Faults) (table : SSTable) (key : Key) (snapshot : Nat) (value : Value) :
    MemTable.GetResult :=
  if ¬ table.info.keyInRange cmp key then report value none
  else if table.bloom.any fun filter => ¬ filter.mayContain key then report value none
  else
    match findIndexEntry cmp table key with
    | none => report value none
    | some i =>
        match (faults table).failed i, table.blocks[i]? with
        | some failed, _ => (false, ⟨failed.status, value⟩)
        | none, none => report value none
        | none, some block => report value (scanBlock cmp key snapshot none block.entries)

end SSTable

namespace SSTableManager
variable (cmp : Comparator) (faults : Faults)

def searchFileUnder (table : SSTable) (key : Key) (snapshot : Nat) (value : Value) :
    Option MemTable.GetResult :=
  if ¬ table.opens cmp faults then none
  else if ¬ table.mayContainKey cmp key then none
  else
    let result := table.getUnder cmp faults key snapshot value
    if ¬ result.2.status.isOk then some (false, result.2)
    else if result.1 then some (true, result.2)
    else none

def searchFilesUnder (key : Key) (snapshot : Nat) (value : Value) :
    List SSTable → MemTable.GetResult
  | [] => (false, ⟨.ok, value⟩)
  | table :: rest =>
      (searchFileUnder cmp faults table key snapshot value).getD
        (searchFilesUnder key snapshot value rest)

def getUnder (m : SSTableManager) (key : Key) (snapshot : Nat) (value : Value) :
    MemTable.GetResult :=
  searchFilesUnder cmp faults key snapshot value (m.candidates cmp key)

end SSTableManager

namespace LSMTree
variable {cmp : Comparator}

/-- The end of `LSMTree::Get`, behind the files. -/
def fileAnswer (memFound : Bool) (result : MemTable.GetResult) : ReadResult :=
  let (fileFound, file) := result
  let found := memFound || (file.status.isOk && fileFound)
  if file.status.isDeleted then ⟨.notFound "Key was deleted", file.value⟩
  else if ¬ file.status.isOk then file
  else if ¬ found then ⟨.notFound "Key not found", file.value⟩
  else ⟨.ok, file.value⟩

/-- `LSMTree::Get` over files of which some cannot be read. -/
def getUnder (faults : Faults) (t : LSMTree cmp) (key : Key) (snapshot : Nat) (value : Value) :
    ReadResult :=
  let (memFound, mem) := t.getFromMemTables key snapshot value
  if mem.status.isDeleted then ⟨.notFound "Key was deleted", mem.value⟩
  else if ¬ mem.status.isOk ∧ ¬ mem.status.isNotFound ∧ ¬ mem.status.isMergeInProgress then mem
  else fileAnswer memFound (t.sstables.getUnder cmp faults key snapshot mem.value)

end LSMTree

/-! ## Iterators over such files -/

structure FaultyLevel where
  files : List SSTable
  current : Option (List StoredRecord × Status) := none
  behind : List SSTable := []

namespace FaultyLevel
variable (cmp : Comparator) (faults : Faults) (it : FaultyLevel)

/-- `LoadCurrentIterator`, and `SeekToFirst` in the file if it can be opened. -/
def load : List SSTable → FaultyLevel
  | [] => { it with current := none, behind := [] }
  | table :: rest =>
      { it with
        current := if table.opens cmp faults then some (fileRecords (faults table).toBlockFaults table)
          else none
        behind := rest }

def seekToFirst : FaultyLevel := it.load cmp faults it.files

/-- The iterator of a file is dropped, with its status, when the level iterator leaves the file. -/
def next : FaultyLevel :=
  match it.current with
  | some (_ :: record :: rest, status) => { it with current := some (record :: rest, status) }
  | some ([_], _) => it.load cmp faults it.behind
  | _ => it

def askFor (files : List SSTable) : Option (Nat × Bool) :=
  files.head?.map fun table => (table.info.fileNumber, table.opens cmp faults)

def askNext : Option (Nat × Bool) :=
  match it.current with
  | some ([_], _) => askFor cmp faults it.behind
  | _ => none

def entry : Option StoredRecord := it.current.bind fun current => current.1.head?

def status : Status := it.current.elim .ok Prod.snd

end FaultyLevel

namespace SSTableManager
variable (cmp : Comparator) (faults : Faults)

def levelRecords : List SSTable → List StoredRecord × Status
  | [] => ([], .ok)
  | table :: rest =>
      if ¬ table.opens cmp faults then ([], .ok)
      else
        match fileRecords (faults table).toBlockFaults table with
        | ([], status) => ([], status)
        | (record :: records, _) =>
            let (more, status) := levelRecords rest
            (record :: records ++ more, status)

end SSTableManager

inductive FaultyChild where
  | memTable (entries rest : List Entry)
  | level (it : FaultyLevel)

namespace FaultyChild
open SSTableManager
variable (cmp : Comparator) (faults : Faults)

def seekToFirst : FaultyChild → FaultyChild
  | memTable entries _ => memTable entries entries
  | level it => level (it.seekToFirst cmp faults)

def next : FaultyChild → FaultyChild
  | memTable entries rest => memTable entries rest.tail
  | level it => level (it.next cmp faults)

def entry : FaultyChild → Option StoredRecord
  | memTable _ rest => rest.head?.map stored
  | level it => it.entry

def status : FaultyChild → Status
  | memTable .. => .ok
  | level it => it.status

def asks (ask : FaultyLevel → Option (Nat × Bool)) : FaultyChild → Option (Nat × Bool)
  | memTable .. => none
  | level it => ask it

def left : FaultyChild → List StoredRecord × Status
  | memTable _ rest => (rest.map stored, .ok)
  | level it =>
      match it.current with
      | none => ([], .ok)
      | some ([], status) => ([], status)
      | some (record :: records, _) =>
          let (more, status) := levelRecords cmp faults it.behind
          (record :: records ++ more, status)

def kind : ChildKind FaultyChild StoredRecord where
  entry := FaultyChild.entry
  size child := (child.left cmp faults).1.length
  first := ⟨asks fun it => FaultyLevel.askFor cmp faults it.files, seekToFirst cmp faults⟩
  next := ⟨asks fun it => it.askNext cmp faults, next cmp faults⟩

end FaultyChild

/-! ## The merge of stored records -/

namespace MergeIterator
variable (cmp : Comparator)

/-- `CompareInternalKeys`. -/
def compareRecords (a b : StoredRecord) : Ordering :=
  match parseInternalKey a.1, parseInternalKey b.1 with
  | some (keyA, sequenceA, typeA), some (keyB, sequenceB, typeB) =>
      (cmp.compare keyA keyB).then ((compare sequenceB sequenceA).then (compare typeA typeB))
  | _, _ => bytewiseCompare a.1 b.1

/-- The merge asks of a type only whether it is a deletion. -/
def typeOf : Nat → ValueType
  | 2 => .kDeletion
  | 3 => .kMerge
  | _ => .kValue

def recordKind : RecordKind StoredRecord where
  entryOf record := (parseInternalKey record.1).map fun (userKey, sequence, type) =>
    (.make userKey sequence (typeOf type), record.2)
  preferred preferNewest a b := compareRecords cmp a b = if preferNewest then .lt else .gt

end MergeIterator

namespace LSMTree
variable {cmp : Comparator}
open MergeIterator SSTableManager

def faultyChildren (t : LSMTree cmp) : List FaultyChild :=
  (t.mutableMemTable.entries :: t.immutables.map MemTable.entries).map (FaultyChild.memTable · []) ++
    (t.sstables.level 0).reverse.map (fun file => .level { files := [file] }) ++
      t.sstables.levelFiles.tail.map fun files => .level { files := files }

def childrenUnder (faults : Faults) (t : LSMTree cmp) : List (List StoredRecord × Status) :=
  (t.mutableMemTable.entries :: t.immutables.map MemTable.entries).map (fun entries =>
      (entries.map stored, .ok)) ++
    (t.sstables.level 0).reverse.map (fun file => levelRecords cmp faults [file]) ++
      t.sstables.levelFiles.tail.map (levelRecords cmp faults)

def scanUnder (around : Surroundings) (faults : Faults) (t : LSMTree cmp) (snapshot : Nat) :
    StateM Readers (Option (List (Key × Value) × Status)) := do
  let scanned ← Merge.scan cmp snapshot (recordKind cmp) ((FaultyChild.kind cmp faults).pinned around)
    (((t.childrenUnder faults).map fun child => child.1.length).sum + 1)
    (t.faultyChildren.map fun child => ⟨child, none⟩)
  pure (scanned.map fun (out, children) =>
    (out, ((children.map fun child => child.child.status).find? fun s => ¬ s.isOk).getD .ok))

/-- A scan over the readers of the cache. What it gives after the use of a destroyed reader is not
known. -/
def newIteratorUnder (around : Surroundings) (readers : Readers) (faults : Faults) (t : LSMTree cmp)
    (snapshot : Nat) : Option (List (Key × Value) × Status) :=
  let scanned := (t.scanUnder around faults snapshot).run readers
  if scanned.2.lost then none else scanned.1

end LSMTree

/-! ## Point reads -/

def Reports (status : Status) : Prop := ¬ status.isOk ∧ ¬ status.isNotFound

instance (status : Status) : Decidable (Reports status) := by unfold Reports; infer_instance

section PointReads
variable {cmp : Comparator} {faults : Faults} {key : Key} {snapshot : Nat}

theorem SSTable.getUnder_eq_or (table : SSTable) (value : Value) :
    table.getUnder cmp faults key snapshot value = table.get cmp key snapshot value ∨
      ∃ failed : FailedRead, table.getUnder cmp faults key snapshot value =
        (false, ⟨failed.status, value⟩) := by
  unfold getUnder SSTable.get
  split
  · exact .inl rfl
  split
  · exact .inl rfl
  cases findIndexEntry cmp table key with
  | none => exact .inl rfl
  | some i =>
      dsimp only
      cases (faults table).failed i with
      | some failed => exact .inr ⟨failed, rfl⟩
      | none =>
          left
          rw [Option.bind_some]
          cases table.blocks[i]? <;> rfl

namespace SSTableManager

theorem searchFileUnder_eq_or {table : SSTable} (opens : table.opens cmp faults) (value : Value) :
    searchFileUnder cmp faults table key snapshot value = searchFile cmp table key snapshot value ∨
      ∃ failed : FailedRead, searchFileUnder cmp faults table key snapshot value =
        some (false, ⟨failed.status, value⟩) := by
  have index : (table.readIndex cmp).isOk := (Bool.and_eq_true_iff.mp opens).2
  unfold searchFileUnder searchFile
  rw [if_neg (not_not.mpr opens), if_neg (not_not.mpr index)]
  split
  · exact .inl rfl
  rcases @SSTable.getUnder_eq_or cmp faults key snapshot table value with same | ⟨failed, here⟩
  · rw [same]
    exact .inl rfl
  · rw [here]
    exact .inr ⟨failed, rfl⟩

def fileOutcome (cmp : Comparator) (faults : Faults) (key : Key) (snapshot : Nat) (value : Value)
    (table : SSTable) : Option MemTable.GetResult :=
  if table.opens cmp faults then searchFileUnder cmp faults table key snapshot value
  else searchFile cmp table key snapshot value

def speakers (cmp : Comparator) (faults : Faults) (key : Key) (snapshot : Nat) (value : Value)
    (tables : List SSTable) : List SSTable :=
  tables.dropWhile fun table => (fileOutcome cmp faults key snapshot value table).isNone

theorem silent {table : SSTable} {value : Value} (quiet : fileOutcome cmp faults key snapshot value table = none) :
    searchFileUnder cmp faults table key snapshot value = none ∧
      searchFile cmp table key snapshot value = none := by
  unfold fileOutcome at quiet
  split at quiet
  · rename_i opens
    refine ⟨quiet, ?_⟩
    rcases @searchFileUnder_eq_or cmp faults key snapshot table opens value with same | ⟨failed, here⟩
    · rw [← same, quiet]
    · rw [quiet] at here
      cases here
  · rename_i closed
    exact ⟨if_pos closed, quiet⟩

theorem search_speakers (value : Value) (tables : List SSTable) :
    searchFilesUnder cmp faults key snapshot value tables = searchFilesUnder cmp faults key snapshot value
        (speakers cmp faults key snapshot value tables) ∧
      searchFiles cmp key snapshot value tables = searchFiles cmp key snapshot value
        (speakers cmp faults key snapshot value tables) := by
  induction tables with
  | nil => exact ⟨rfl, rfl⟩
  | cons table rest ih =>
      cases quiet : fileOutcome cmp faults key snapshot value table with
      | none =>
          obtain ⟨under, whole⟩ := @silent cmp faults key snapshot table value quiet
          have passed : speakers cmp faults key snapshot value (table :: rest) =
              speakers cmp faults key snapshot value rest :=
            List.dropWhile_cons_of_pos (by rw [quiet]; rfl)
          rw [passed, searchFilesUnder, searchFiles, under, whole]
          exact ih
      | some result =>
          have stops : speakers cmp faults key snapshot value (table :: rest) = table :: rest :=
            List.dropWhile_cons_of_neg (by simp [quiet])
          rw [stops]
          exact ⟨rfl, rfl⟩

end SSTableManager

namespace LSMTree
open SSTableManager

def GetSound (faults : Faults) (t : LSMTree cmp) (key : Key) (snapshot : Nat) (value : Value) : Prop :=
  t.getUnder faults key snapshot value = t.get key snapshot value ∨
    Reports (t.getUnder faults key snapshot value).status

/-- The memtables hold a tombstone or fail. -/
def MemoryDecides (mem : ReadResult) : Prop :=
  mem.status.isDeleted ∨ ¬ mem.status.isOk ∧ ¬ mem.status.isNotFound ∧ ¬ mem.status.isMergeInProgress

/-- The first candidate that has something to say can be opened; or else those behind it that can be
opened give a failure or the same answer. -/
def FilesDecide (faults : Faults) (t : LSMTree cmp) (key : Key) (snapshot : Nat) (memFound : Bool)
    (value : Value) : Prop :=
  match speakers cmp faults key snapshot value (t.sstables.candidates cmp key) with
  | [] => True
  | table :: rest => table.opens cmp faults ∨
      Reports (fileAnswer memFound (searchFilesUnder cmp faults key snapshot value rest)).status ∨
        some (fileAnswer memFound (searchFilesUnder cmp faults key snapshot value rest)) =
          (searchFile cmp table key snapshot value).map (fileAnswer memFound)

def GetCovered (faults : Faults) (t : LSMTree cmp) (key : Key) (snapshot : Nat) (value : Value) : Prop :=
  let mem := t.getFromMemTables key snapshot value
  MemoryDecides mem.2 ∨ t.FilesDecide faults key snapshot mem.1 mem.2.value

instance (faults : Faults) (t : LSMTree cmp) (key : Key) (snapshot : Nat) (value : Value) :
    Decidable (GetSound faults t key snapshot value) := by unfold GetSound; infer_instance

instance (mem : ReadResult) : Decidable (MemoryDecides mem) := by unfold MemoryDecides; infer_instance

instance (faults : Faults) (t : LSMTree cmp) (key : Key) (snapshot : Nat) (memFound : Bool) (value : Value) :
    Decidable (t.FilesDecide faults key snapshot memFound value) := by
  unfold FilesDecide; split <;> infer_instance

instance (faults : Faults) (t : LSMTree cmp) (key : Key) (snapshot : Nat) (value : Value) :
    Decidable (GetCovered faults t key snapshot value) := by unfold GetCovered; infer_instance

theorem reports_failed (memFound : Bool) (failed : FailedRead) (value : Value) :
    Reports (fileAnswer memFound (false, ⟨failed.status, value⟩)).status := by
  have kept : (fileAnswer memFound (false, ⟨failed.status, value⟩)).status = failed.status := rfl
  rw [kept]
  exact ⟨Bool.false_ne_true, Bool.false_ne_true⟩

theorem files_sound_iff {t : LSMTree cmp} {memFound : Bool} {value : Value} :
    (fileAnswer memFound (t.sstables.getUnder cmp faults key snapshot value) =
        fileAnswer memFound (t.sstables.get cmp key snapshot value) ∨
      Reports (fileAnswer memFound (t.sstables.getUnder cmp faults key snapshot value)).status) ↔
    t.FilesDecide faults key snapshot memFound value := by
  obtain ⟨under, whole⟩ := @search_speakers cmp faults key snapshot value (t.sstables.candidates cmp key)
  rw [SSTableManager.getUnder, SSTableManager.get, under, whole, FilesDecide]
  cases shape : speakers cmp faults key snapshot value (t.sstables.candidates cmp key) with
  | nil => exact iff_of_true (.inl rfl) trivial
  | cons table rest =>
      have speaks : (fileOutcome cmp faults key snapshot value table).isSome := by
        have head := List.head?_dropWhile_not (fun table =>
          (fileOutcome cmp faults key snapshot value table).isNone) (t.sstables.candidates cmp key)
        rw [show List.dropWhile _ _ = table :: rest from shape] at head
        simpa using head
      rw [searchFilesUnder, searchFiles]
      by_cases opens : table.opens cmp faults
      · refine iff_of_true ?_ (.inl opens)
        rw [fileOutcome, if_pos opens] at speaks
        rcases @searchFileUnder_eq_or cmp faults key snapshot table opens value with same | ⟨failed, here⟩
        · left
          rw [← same]
          cases said : searchFileUnder cmp faults table key snapshot value with
          | none => rw [said] at speaks; cases speaks
          | some result => rfl
        · right
          rw [here]
          exact reports_failed memFound failed value
      · rw [fileOutcome, if_neg opens] at speaks
        have passed : searchFileUnder cmp faults table key snapshot value = none := if_pos opens
        cases said : searchFile cmp table key snapshot value with
        | none => rw [said] at speaks; cases speaks
        | some result =>
            simp only [passed, said, Option.getD_none, Option.getD_some, Option.map_some, Option.some.injEq,
              opens, Bool.false_eq_true, false_or]
            exact or_comm

theorem getSound_iff (faults : Faults) (t : LSMTree cmp) (key : Key) (snapshot : Nat) (value : Value) :
    GetSound faults t key snapshot value ↔ GetCovered faults t key snapshot value := by
  unfold GetSound GetCovered LSMTree.getUnder LSMTree.get MemoryDecides
  rcases t.getFromMemTables key snapshot value with ⟨memFound, mem⟩
  dsimp only
  by_cases deleted : mem.status.isDeleted
  · simp [deleted]
  by_cases failed : ¬ mem.status.isOk ∧ ¬ mem.status.isNotFound ∧ ¬ mem.status.isMergeInProgress
  · simp [deleted, failed]
  · rw [if_neg deleted, if_neg deleted, if_neg failed, if_neg failed]
    rw [or_iff_right (not_or.mpr ⟨deleted, failed⟩)]
    exact files_sound_iff

end LSMTree
end PointReads

/-! ## Scans -/

section Scans
variable {cmp : Comparator} {faults : Faults} {snapshot : Nat}
open MergeIterator SSTableManager

namespace FaultyLevel

theorem left_load (it : FaultyLevel) (files : List SSTable) :
    (FaultyChild.level (it.load cmp faults files)).left cmp faults = levelRecords cmp faults files := by
  cases files with
  | nil => rfl
  | cons table rest =>
      rw [load, levelRecords]
      by_cases opens : table.opens cmp faults
      · rw [if_pos opens, if_neg (not_not.mpr opens), FaultyChild.left]
        rcases fileRecords (faults table).toBlockFaults table with ⟨_ | ⟨record, records⟩, status⟩ <;> rfl
      · rw [if_neg opens, if_pos opens]
        rfl

end FaultyLevel

namespace FaultyChild

theorem left_next (child : FaultyChild) : ((child.next cmp faults).left cmp faults).1 =
    (child.left cmp faults).1.tail := by
  cases child with
  | memTable entries rest =>
      change rest.tail.map stored = (rest.map stored).tail
      exact List.map_tail
  | level it =>
      rcases it with ⟨files, _ | ⟨_ | ⟨first, _ | ⟨second, records⟩⟩, status⟩, behind⟩
      · rfl
      · rfl
      · exact congrArg Prod.fst (FaultyLevel.left_load ⟨files, some ([first], status), behind⟩ behind)
      · rfl

theorem entry_eq (child : FaultyChild) : child.entry = (child.left cmp faults).1.head? := by
  cases child with
  | memTable entries rest => exact (List.head?_map ..).symm
  | level it => rcases it with ⟨files, _ | ⟨_ | ⟨record, records⟩, status⟩, behind⟩ <;> rfl

theorem status_next (child : FaultyChild) :
    ((child.next cmp faults).left cmp faults).2 = (child.left cmp faults).2 := by
  cases child with
  | memTable entries rest => rfl
  | level it =>
      rcases it with ⟨files, _ | ⟨_ | ⟨first, _ | ⟨second, records⟩⟩, status⟩, behind⟩
      · rfl
      · rfl
      · have ends : _ = levelRecords cmp faults behind :=
          FaultyLevel.left_load ⟨files, some ([first], status), behind⟩ behind
        exact (congrArg Prod.snd ends).trans rfl
      · rfl

theorem status_of_ended {child : FaultyChild} (ended : child.entry = none) :
    child.status = (child.left cmp faults).2 := by
  cases child with
  | memTable entries rest => rfl
  | level it =>
      rcases it with ⟨files, _ | ⟨_ | ⟨record, records⟩, status⟩, behind⟩
      · rfl
      · rfl
      · cases ended

theorem compareRecords_stored (a b : Entry) :
    compareRecords cmp (stored a) (stored b) = internalCompare cmp a.1 b.1 := by
  rw [compareRecords, stored, stored, parse_encode, parse_encode]
  rfl

theorem recordKind_stored (e : Entry) : (recordKind cmp).entryOf (stored e) = some e := by
  have known : typeOf e.1.type.toNat = e.1.type := by cases e.1.type <;> rfl
  have same : InternalKey.make e.1.userKey e.1.sequence e.1.type = e.1 := InternalKey.make_self e.1
  simp [recordKind, stored, parse_encode, known, same]

variable (cmp faults) in
theorem listing_kind : Merge.Listing cmp (recordKind cmp) (kind cmp faults)
    (fun child => (child.left cmp faults).1) stored where
  entry := entry_eq
  next := left_next
  size _ := rfl
  parsed := recordKind_stored
  preferred a b := by
    refine decide_eq_true_iff.trans ?_
    rw [compareRecords_stored]
    exact Iff.rfl

end FaultyChild

namespace LSMTree
variable {t : LSMTree cmp}

theorem left_faultyChildren (faults : Faults) (t : LSMTree cmp) :
    (t.faultyChildren.map (FaultyChild.seekToFirst cmp faults)).map (FaultyChild.left cmp faults) =
      t.childrenUnder faults := by
  have level (files : List SSTable) : ((FaultyChild.level { files := files }).seekToFirst cmp faults).left
      cmp faults = levelRecords cmp faults files := FaultyLevel.left_load _ files
  rw [faultyChildren, childrenUnder]
  simp only [List.map_append, List.map_map]
  refine congrArg₂ _ (congrArg₂ _ rfl ?_) ?_
  · exact List.map_congr_left fun file _ => level [file]
  · exact List.map_congr_left fun files _ => level files

def finalStatus (faults : Faults) (t : LSMTree cmp) : Status :=
  (((t.childrenUnder faults).map Prod.snd).find? fun s => ¬ s.isOk).getD .ok

def Gives (faults : Faults) (t : LSMTree cmp) (given : Children) : Prop :=
  (t.childrenUnder faults).map Prod.fst = given.map (List.map stored)

instance (given : Children) : Decidable (t.Gives faults given) := by unfold Gives; infer_instance

def WellFormed (cmp : Comparator) (children : Children) : Prop := Sorted cmp children ∧ Agreeing children

theorem unpin_faultyChildren (t : LSMTree cmp) :
    unpin (t.faultyChildren.map fun child => PinnedChild.mk child none) = t.faultyChildren := by
  rw [unpin, List.map_map]
  exact List.map_id _

section Tended
variable {around : Surroundings} {d : Discipline Readers} {good : PinnedChild FaultyChild → Readers → Prop}
  (tended : Tended around d good (FaultyChild.kind cmp faults)) {s : Readers}
  (here : AllGood good (t.faultyChildren.map fun child => PinnedChild.mk child none) s)
include tended here

variable (snapshot) in
theorem ensures_scanUnder : Ensures d s (t.scanUnder around faults snapshot) fun r _ =>
    ∃ out, r = some (out, t.finalStatus faults) := by
  have shrinks := (FaultyChild.listing_kind cmp faults).shrinks
  have constant : Merge.Constant (FaultyChild.kind cmp faults) fun child =>
      (child.left cmp faults).2 := fun child _ => FaultyChild.status_next child
  have lefts := left_faultyChildren faults t
  have size : Merge.total (FaultyChild.kind cmp faults)
      (t.faultyChildren.map (FaultyChild.seekToFirst cmp faults)) =
        ((t.childrenUnder faults).map fun child => child.1.length).sum := by
    rw [Merge.total, ← lefts, List.map_map, List.map_map, List.map_map]
    rfl
  have smaller (children : List FaultyChild) (key : Key) (value : Option Value) (rest : List FaultyChild)
      (round : Merge.smallest cmp snapshot (recordKind cmp) (FaultyChild.kind cmp faults).owned children =
        some (key, value, rest)) : _ := Merge.smallest_total shrinks round
  obtain ⟨out, returned⟩ := Merge.scanned_returns smaller (Nat.lt_succ_of_le size.le)
  refine (Merge.ensures_scan (Merge.shows_constant snapshot shrinks constant
    ((t.childrenUnder faults).map Prod.snd)) tended here ?_ _).bind
      fun r u _ shows => .pure fun _ _ => ?_
  · rw [unpin_faultyChildren, ← lefts]
    simp only [List.map_map]
    rfl
  · obtain ⟨same, ends⟩ := shows
    rw [unpin_faultyChildren] at same
    obtain ⟨⟨entries, children⟩, rfl, -⟩ := Option.map_eq_some_iff.mp (same.trans returned)
    obtain ⟨-, statuses, ended⟩ := ends _ rfl
    have same : (children.map fun child => child.child.status) =
        (t.childrenUnder faults).map Prod.snd := by
      rw [← statuses, unpin, List.map_map]
      refine List.map_congr_left fun child member => ?_
      exact FaultyChild.status_of_ended (Merge.ended_of_smallest ended child.child
        (List.mem_map_of_mem member))
    exact ⟨entries, by rw [Option.map_some, finalStatus, ← same]⟩

variable (snapshot) in
theorem ensures_scanUnder_gives {given : Children} (gives : t.Gives faults given) :
    Ensures d s (t.scanUnder around faults snapshot) fun r _ =>
      r.map Prod.fst = some (scan cmp snapshot given) := by
  have listing := FaultyChild.listing_kind cmp faults
  have lefts : (t.faultyChildren.map (FaultyChild.seekToFirst cmp faults)).map
      (fun child => (child.left cmp faults).1) = given.map (List.map stored) := by
    rw [← gives, ← left_faultyChildren, List.map_map, List.map_map, List.map_map]
    rfl
  have entire : ∀ child ∈ t.faultyChildren.map (FaultyChild.seekToFirst cmp faults),
      ∃ entries : List Entry, (child.left cmp faults).1 = entries.map stored := by
    intro child member
    have inside := List.mem_map_of_mem (f := fun child => (FaultyChild.left cmp faults child).1) member
    rw [lefts] at inside
    obtain ⟨entries, -, same⟩ := List.mem_map.mp inside
    exact ⟨entries, same.symm⟩
  have lists : (t.faultyChildren.map (FaultyChild.seekToFirst cmp faults)).map
      (Merge.entriesLeft (recordKind cmp) fun child => (child.left cmp faults).1) = given := by
    have parsed := congrArg (List.map (List.filterMap (recordKind cmp).entryOf)) lefts
    rw [List.map_map, List.map_map] at parsed
    refine Eq.trans (List.map_map ..) (Eq.trans parsed (Eq.trans (List.map_map ..)
      (List.map_id'' (fun entries => ?_) _)))
    rw [Function.comp, List.filterMap_map]
    exact (List.filterMap_congr fun e _ => listing.parsed e).trans (List.filterMap_some ..)
  have enough : size given < ((t.childrenUnder faults).map fun child => child.1.length).sum + 1 := by
    have same : ((t.childrenUnder faults).map fun child => child.1.length) = given.map List.length := by
      have lengths := congrArg (List.map List.length) gives
      rw [List.map_map, List.map_map] at lengths
      refine Eq.trans lengths (List.map_congr_left fun entries _ => ?_)
      exact List.length_map stored
    rw [same, size, List.length_flatten]
    exact Nat.lt_succ_self _
  refine (Merge.ensures_scan (listing.shows_turn snapshot) tended here ?_ _).bind
    fun r u _ shows => .pure fun _ _ => ?_
  · rw [unpin_faultyChildren]
    intro child member
    obtain ⟨entries, here⟩ := entire child member
    exact (listing.entire_iff here).1
  · have same := shows.1
    rw [unpin_faultyChildren] at same
    have scanned := scanned_turn cmp snapshot enough
    rw [Option.map_map]
    refine same.trans ?_
    change Merge.scanned cmp _ _ ((t.faultyChildren.map (FaultyChild.seekToFirst cmp faults)).map _) = _
    rw [lists]
    exact scanned

end Tended

/-! ## When a scan is right -/

variable {around : Surroundings} {readers : Readers}

/-- A full scan gives what the complete tables give, or the iterator has failed when it is no longer
valid. -/
def ScanSound (around : Surroundings) (readers : Readers) (faults : Faults) (t : LSMTree cmp)
    (snapshot : Nat) : Prop :=
  ∃ out status, t.newIteratorUnder around readers faults snapshot = some (out, status) ∧
    (out = t.newIterator snapshot ∨ ¬ status.isOk)

def ScanReadersLast (around : Surroundings) (readers : Readers) (faults : Faults) (t : LSMTree cmp)
    (snapshot : Nat) : Prop :=
  ((t.scanUnder around faults snapshot).run readers).2.lost = false

instance (t : LSMTree cmp) : Decidable (ScanReadersLast around readers faults t snapshot) := by
  unfold ScanReadersLast; infer_instance

/-- Some child ends with its failure in its status. -/
def Fails (faults : Faults) (t : LSMTree cmp) : Prop :=
  ∃ child ∈ t.childrenUnder faults, ¬ child.2.isOk

instance (t : LSMTree cmp) : Decidable (t.Fails faults) := by unfold Fails; infer_instance

theorem finalStatus_isOk {t : LSMTree cmp} : ¬ (t.finalStatus faults).isOk ↔ t.Fails faults := by
  unfold finalStatus Fails
  cases found : ((t.childrenUnder faults).map Prod.snd).find? fun s => ¬ s.isOk with
  | none =>
      refine iff_of_false (not_not.mpr rfl) ?_
      rintro ⟨child, member, bad⟩
      exact bad (by simpa using List.find?_eq_none.mp found child.2 (List.mem_map_of_mem member))
  | some status =>
      obtain ⟨child, member, rfl⟩ := List.mem_map.mp (List.mem_of_find?_eq_some found)
      have bad : ¬ child.2.isOk := by simpa using List.find?_some found
      exact iff_of_true bad ⟨child, member, bad⟩

variable (around readers faults snapshot) in
theorem newIteratorUnder_eq (t : LSMTree cmp) : ∃ out,
    t.newIteratorUnder around readers faults snapshot =
        (if ScanReadersLast around readers faults t snapshot then some (out, t.finalStatus faults)
          else none) ∧
      ∀ given, t.Gives faults given → out = scan cmp snapshot given := by
  have tended := tended_anarchy around (FaultyChild.kind cmp faults)
  obtain ⟨-, -, out, scanned⟩ := ensures_scanUnder snapshot (s := readers) tended
    (fun _ _ => trivial) readers trivial trivial
  refine ⟨out, ?_, fun given gives => ?_⟩
  · have same : ((t.scanUnder around faults snapshot).run readers).1 = _ := scanned
    unfold newIteratorUnder
    dsimp only
    rw [same]
    by_cases last : ScanReadersLast around readers faults t snapshot
    · rw [if_pos last, if_neg (Bool.not_eq_true _ ▸ last)]
    · rw [if_neg last, if_pos (Bool.of_not_eq_false last)]
  · obtain ⟨-, -, same⟩ := ensures_scanUnder_gives snapshot (s := readers) tended
      (fun _ _ => trivial) gives readers trivial trivial
    rw [scanned] at same
    exact Option.some.inj same

theorem scanSound_of_covered {t : LSMTree cmp} (last : ScanReadersLast around readers faults t snapshot)
    (covered : t.Fails faults ∨ t.Gives faults t.children) :
    ScanSound around readers faults t snapshot := by
  obtain ⟨out, scanned, given⟩ := newIteratorUnder_eq faults snapshot around readers t
  rw [if_pos last] at scanned
  exact ⟨out, _, scanned, covered.symm.imp (given _) finalStatus_isOk.mpr⟩

theorem WellFormed.scan_eq_iff {given all : Children} (formed : WellFormed cmp given)
    (whole : WellFormed cmp all) : scan cmp snapshot given = scan cmp snapshot all ↔
      ∀ key, live snapshot (versionsAt given key) = live snapshot (versionsAt all key) := by
  have some : Lists _ _ (scan cmp snapshot given) := lists_scan formed.1 formed.2
  have every : Lists _ _ (scan cmp snapshot all) := lists_scan whole.1 whole.2
  refine Iff.trans ⟨fun same => ?_, fun lists => ?_⟩ every.iff
  · exact same ▸ some
  · exact some.unique lists

theorem scanSound_iff {t : LSMTree cmp} {given : Children} (whole : WellFormed cmp t.children)
    (formed : WellFormed cmp given) (gives : t.Gives faults given) :
    ScanSound around readers faults t snapshot ↔ ScanReadersLast around readers faults t snapshot ∧
      (t.Fails faults ∨
        ∀ key, live snapshot (versionsAt given key) = live snapshot (versionsAt t.children key)) := by
  obtain ⟨out, scanned, comes⟩ := newIteratorUnder_eq faults snapshot around readers t
  obtain rfl := comes given gives
  rw [← formed.scan_eq_iff whole, ← finalStatus_isOk, ScanSound, scanned]
  constructor
  · rintro ⟨out, status, found, sound⟩
    obtain ⟨last, same⟩ := Option.ite_none_right_eq_some.mp found
    cases same
    exact ⟨last, sound.symm⟩
  · rintro ⟨last, sound⟩
    exact ⟨_, _, if_pos last, sound.symm⟩

/-! ## Files that open are read to their end -/

def openedChildren (faults : Faults) (t : LSMTree cmp) : Children :=
  let opened (files : List SSTable) := levelEntries cmp (files.takeWhile (SSTable.opens cmp faults))
  t.mutableMemTable.entries :: t.immutables.map MemTable.entries ++
    (t.sstables.level 0).reverse.map (fun file => opened [file]) ++
      t.sstables.levelFiles.tail.map opened

def Readable (faults : Faults) (t : LSMTree cmp) : Prop :=
  ∀ files ∈ t.sstables.levelFiles, ∀ file ∈ files, file.opens cmp faults →
    (faults file).toBlockFaults.Whole file

instance (t : LSMTree cmp) : Decidable (t.Readable faults) := by unfold Readable; infer_instance

theorem levelRecords_opened {files : List SSTable} (readable : ∀ file ∈ files, file.opens cmp faults →
    (faults file).toBlockFaults.Whole file) : levelRecords cmp faults files =
      ((levelEntries cmp (files.takeWhile (SSTable.opens cmp faults))).map stored, .ok) := by
  induction files with
  | nil => rfl
  | cons table rest ih =>
      obtain ⟨here, later⟩ := List.forall_mem_cons.mp readable
      rw [levelRecords]
      by_cases opens : table.opens cmp faults
      · have index : (table.readIndex cmp).isOk := (Bool.and_eq_true_iff.mp opens).2
        rw [if_neg (not_not.mpr opens), fileRecords_whole (here opens), List.takeWhile_cons_of_pos opens,
          levelEntries, ih later]
        cases entries : table.entries with
        | nil => rw [if_neg fun both => both.2 rfl]; rfl
        | cons entry more => rw [if_pos ⟨index, List.cons_ne_nil _ _⟩, List.map_append]; rfl
      · rw [if_pos opens, List.takeWhile_cons_of_neg opens]
        rfl

theorem gives_opened {t : LSMTree cmp} (readable : t.Readable faults) :
    t.Gives faults (t.openedChildren faults) := by
  unfold Gives childrenUnder openedChildren
  simp only [List.map_append, List.map_map, List.map_cons]
  refine congrArg₂ _ (congrArg₂ _ rfl ?_) ?_
  · refine List.map_congr_left fun file inLevel => congrArg Prod.fst (levelRecords_opened ?_)
    obtain ⟨files, level, inside⟩ := mem_of_level (List.mem_reverse.mp inLevel)
    exact List.forall_mem_singleton.mpr (readable files level file inside)
  · exact List.map_congr_left fun files deep =>
      congrArg Prod.fst (levelRecords_opened (readable files (List.mem_of_mem_tail deep)))

theorem levelEntries_takeWhile (files : List SSTable) (p : SSTable → Bool) :
    levelEntries cmp (files.takeWhile p) <+: levelEntries cmp files := by
  induction files with
  | nil => exact List.prefix_rfl
  | cons table rest ih =>
      by_cases here : p table
      · rw [List.takeWhile_cons_of_pos here, levelEntries, levelEntries]
        split
        · exact (List.prefix_append_right_inj _).mpr ih
        · exact List.prefix_rfl
      · rw [List.takeWhile_cons_of_neg here]
        exact List.nil_prefix

theorem sublist_openedChildren (t : LSMTree cmp) :
    List.Forall₂ List.Sublist (t.openedChildren faults) t.children := by
  unfold openedChildren children
  refine List.rel_append (List.rel_append ?_ ?_) ?_
  · exact List.forall₂_same.mpr fun entries _ => List.Sublist.refl entries
  · exact List.forall₂_map_left_iff.mpr (List.forall₂_map_right_iff.mpr (List.forall₂_same.mpr
      fun file _ => (levelEntries_takeWhile [file] _).sublist))
  · exact List.forall₂_map_left_iff.mpr (List.forall₂_map_right_iff.mpr (List.forall₂_same.mpr
      fun files _ => (levelEntries_takeWhile files _).sublist))

theorem exists_longer {given all : Children} (shorter : List.Forall₂ List.Sublist given all)
    {child : List Entry} (member : child ∈ given) : ∃ longer ∈ all, child.Sublist longer := by
  induction shorter with
  | nil => cases member
  | cons here _ ih =>
      rcases List.mem_cons.mp member with rfl | later
      · exact ⟨_, List.mem_cons_self, here⟩
      · obtain ⟨longer, inside, sub⟩ := ih later
        exact ⟨longer, List.mem_cons_of_mem _ inside, sub⟩

theorem WellFormed.sublists {given all : Children} (whole : WellFormed cmp all)
    (shorter : List.Forall₂ List.Sublist given all) : WellFormed cmp given := by
  obtain ⟨sorted, agreeing⟩ := whole
  constructor
  · intro child member
    obtain ⟨longer, inside, sub⟩ := exists_longer shorter member
    exact (sorted longer inside).sublist sub
  · intro key
    refine (agreeing key).subset fun w member => ?_
    obtain ⟨version, held, rfl⟩ := List.mem_map.mp member
    obtain ⟨child, inGiven, here⟩ := List.mem_flatMap.mp held
    obtain ⟨longer, inside, sub⟩ := exists_longer shorter inGiven
    obtain ⟨entry, inChild, rfl, same⟩ := mem_versionsOf.mp here
    exact List.mem_map_of_mem (List.mem_flatMap.mpr
      ⟨longer, inside, mem_versionsOf.mpr ⟨entry, sub.subset inChild, rfl, same⟩⟩)

theorem wellFormed_children {t : LSMTree cmp} (searchable : t.sstables.Searchable cmp)
    (leveled : t.sstables.Leveled cmp) (functional : ∀ key, Functional (t.stamps key)) :
    WellFormed cmp t.children :=
  ⟨sorted_children searchable leveled, agreeing_children searchable leveled functional⟩

end LSMTree
end Scans

/-! ## Answers of incomplete tables -/

namespace LSMTree
open MergeIterator PointRead Runs PinnedCursor
variable {cmp : Comparator}

/-- A point read is right exactly when it is covered. A scan is right when its readers last and a failure
stays in its status or nothing is lost; where its children give entries in order, it is right exactly when
its readers last and a failure stays or what is not given decides no key. -/
theorem sound_reads (faults : Faults) (t : LSMTree cmp) (snapshot : Nat) :
    (∀ key value, GetSound faults t key snapshot value ↔ GetCovered faults t key snapshot value) ∧
    ∀ around readers,
      (ScanReadersLast around readers faults t snapshot → t.Fails faults ∨ t.Gives faults t.children →
        ScanSound around readers faults t snapshot) ∧
      ∀ given, WellFormed cmp t.children → WellFormed cmp given → t.Gives faults given →
        (ScanSound around readers faults t snapshot ↔ ScanReadersLast around readers faults t snapshot ∧
          (t.Fails faults ∨
            ∀ key, live snapshot (versionsAt given key) = live snapshot (versionsAt t.children key))) :=
  ⟨fun key value => getSound_iff faults t key snapshot value, fun _ _ =>
    ⟨scanSound_of_covered, fun _ whole formed gives => scanSound_iff whole formed gives⟩⟩

def twoFiles : List PointRead.Call := [.put [107] [1] 1, .flushAll, .put [107] [2] 2, .flushAll]

def newerFails (missing : Bool) : Faults := fun table =>
  if table.info.fileNumber = 2 then
    { missing := missing, failed := fun _ => some ⟨0, false⟩, offset := 64 }
  else {}

theorem sound_reads_twoFiles :
    ∃ st, execute (State.step {}) (.initial {} : State bytewiseComparator) twoFiles = some st ∧
      GetSound (newerFails false) st.tree [107] 0 [] ∧
      ScanSound alone {} (newerFails false) st.tree 0 ∧
      (ScanSound alone {} (newerFails true) st.tree 0 ↔
        ScanReadersLast alone {} (newerFails true) st.tree 0 ∧ (st.tree.Fails (newerFails true) ∨
          ∀ key, live 0 (versionsAt (st.tree.openedChildren (newerFails true)) key) =
            live 0 (versionsAt st.tree.children key))) := by
  have safe : Allowed (State.step {}) (State.FlushesSafely {})
      (.initial {} : State bytewiseComparator) twoFiles := by decide +kernel
  have facts : (execute (State.step {}) (.initial {} : State bytewiseComparator) twoFiles).any fun st =>
      (∀ files ∈ st.tree.sstables.levelFiles.tail, files = []) ∧
        GetCovered (newerFails false) st.tree [107] 0 [] ∧
          ScanReadersLast alone {} (newerFails false) st.tree 0 ∧ st.tree.Fails (newerFails false) ∧
            st.tree.Readable (newerFails true) := by decide +kernel
  obtain ⟨st, executed, facts⟩ := Option.any_eq_true _ _ |>.mp facts
  obtain ⟨top, covered, last, fails, readable⟩ := of_decide_eq_true facts
  have recorded := recorded_of_run (execute_run _ safe executed)
  have formed := wellFormed_children recorded.searchable (leveled_of_top top) recorded.functional
  refine ⟨st, executed, ((sound_reads (newerFails false) st.tree 0).1 [107] []).mpr covered,
    ((sound_reads (newerFails false) st.tree 0).2 alone {}).1 last (.inl fails), ?_⟩
  exact ((sound_reads (newerFails true) st.tree 0).2 alone {}).2 _ formed
    (formed.sublists (sublist_openedChildren st.tree)) (gives_opened readable)

theorem sound_reads_not_missing :
    ¬ ∀ st : State bytewiseComparator, Run (State.step {}) free (.initial {}) st →
      ∀ faults snapshot, (∀ key value, GetSound faults st.tree key snapshot value) ∧
        ∀ around readers, ScanSound around readers faults st.tree snapshot := by
  intro always
  have wrong : (execute (State.step {}) (.initial {} : State bytewiseComparator) twoFiles).any fun st =>
      ¬ GetSound (newerFails true) st.tree [107] 0 [] := by decide +kernel
  obtain ⟨st, executed, wrong⟩ := Option.any_eq_true _ _ |>.mp wrong
  have sound := (always st (execute_run _ (allowed_free _ _ _) executed) (newerFails true) 0).1 [107] []
  exact of_decide_eq_true wrong sound

end LSMTree
end Lrdb
