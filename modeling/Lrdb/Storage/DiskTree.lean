import Mathlib.Logic.Function.Basic
import Lrdb.Storage.FileNames
import Lrdb.Storage.FlushedTable
import Lrdb.Storage.ReaderCache
import Lrdb.Wal.Recovery

/-!
# The tree on the bytes of its files

What the tree has in memory are the memtables, and the names and key ranges of the files it registered.
The tables are bytes in a directory: a flush writes them, every read opens them, and a tree that is
opened again finds them by their names.
-/

namespace Lrdb
namespace TableFile

abbrev Directory := List Char → Option Bytes

structure FlushIO where
  now : Nat := 0
  creating : Status := .ok
  /-- The first status that is not OK of the appends while entries are added. -/
  adding : Status := .ok
  /-- The same of the calls of `Finish`. -/
  closing : Status := .ok
  /-- What a file has that was given up and cannot be deleted. -/
  left : Option Bytes := none
  failures : ∀ status ∈ [creating, adding, closing], status.code = .ok ∨ status.code = .ioError := by
    decide

/-- How far a flush has come with its file. The writer deletes a file that it does not finish. -/
inductive Flushed where
  | notCreated (status : Status)
  | abandoned (status : Status)
  | finished (writer : SSTableWriter)

/-- `SSTableCompactor::FlushMemTable`, with what becomes of the file. -/
def writeTable (order : Bytes → Bytes → Ordering) (filename : Bytes) (io : FlushIO) (entries : List Entry) :
    Flushed :=
  if ¬ io.creating.isOk then .notCreated io.creating
  else
    match SSTableWriter.openFile {} filename io.now with
    | .error status => .notCreated status
    | .ok start =>
        if ¬ io.adding.isOk then .abandoned io.adding
        else
          match start.addAll order ((sortedEntries entries).map stored) with
          | .error status => .abandoned status
          | .ok added =>
              match added.finish io.closing with
              | .error status => .abandoned status
              | .ok finished => .finished finished

/-- `SSTableManager`, with what it keeps of its files. -/
structure FileManager where
  levelFiles : List (List FileMeta) := List.replicate 7 []
  nextFileNumber : Nat := 1

namespace FileManager
variable (cmp : Comparator) (path : List Char → Bytes)

def level (m : FileManager) (i : Nat) : List FileMeta := m.levelFiles.getD i []

def registerSSTable (m : FileManager) (file : FileMeta) : Except Status FileManager :=
  if file.filename = [] then .error (.invalidArgument "Empty filename")
  else if file.info.fileNumber = 0 then .error (.invalidArgument "Invalid file number")
  else if m.levelFiles.length ≤ file.level then .error (.invalidArgument "Invalid level")
  else if ∃ other ∈ m.levelFiles.flatten, other.info.fileNumber = file.info.fileNumber then
    .error (.invalidArgument "SSTable file already registered")
  else .ok
    { levelFiles := m.levelFiles.set file.level
        ((m.level file.level).orderedInsert (CachingManager.SmallestLE cmp) file)
      nextFileNumber :=
        if m.nextFileNumber ≤ file.info.fileNumber then file.info.fileNumber + 1
        else m.nextFileNumber }

/-- `path` gives the path of a name in the directory. A file that is not registered is deleted, too. -/
def flushMemTableToSSTable (m : FileManager) (directory : Directory) (mem : MemTable cmp) (io : FlushIO) :
    Status × FileManager × Directory :=
  let fileNumber := m.nextFileNumber
  let filename := TableName.make fileNumber 0
  let m := { m with nextFileNumber := fileNumber + 1 }
  match writeTable cmp.compare (path filename) io mem.entries with
  | .notCreated status => (status, m, directory)
  | .abandoned status => (status, m, Function.update directory filename io.left)
  | .finished writer =>
      match m.registerSSTable cmp
          ⟨filename, 0, ⟨fileNumber, writer.info.smallestKey, writer.info.largestKey⟩⟩ with
      | .error status => (status, m, Function.update directory filename io.left)
      | .ok m => (.ok, m, Function.update directory filename (some writer.file))

/-! ## Reading -/

def openTable (directory : Directory) (filename : List Char) : Option SSTableReader :=
  (directory filename).bind fun content =>
    (SSTableReader.openFile cmp.compare (path filename) content).toOption

def levelCandidates (key : Key) : Nat → List FileMeta → List FileMeta
  | 0, files =>
      (files.filter fun file => file.info.keyInRange cmp key).insertionSort fun a b =>
        b.info.fileNumber ≤ a.info.fileNumber
  | _ + 1, files =>
      match files.dropWhile fun file => cmp.compare file.info.largestKey key = .lt with
      | file :: _ => if file.info.keyInRange cmp key then [file] else []
      | [] => []

def candidates (m : FileManager) (key : Key) : List FileMeta :=
  (m.levelFiles.zipIdx.map fun (files, i) => levelCandidates cmp key i files).flatten

/-- One turn of the loop of `Get`: `none` goes on to the next file. -/
def searchFile (directory : Directory) (file : FileMeta) (key : Key) (snapshot : Nat) (value : Value) :
    Option MemTable.GetResult :=
  match openTable cmp path directory file.filename with
  | none => none
  | some reader =>
      if ¬ reader.mayContainKey cmp.compare key then none
      else
        let result := reader.get cmp.compare key snapshot value
        if ¬ result.2.status.isOk then some (false, result.2)
        else if result.1 then some (true, result.2)
        else none

def searchFiles (directory : Directory) (key : Key) (snapshot : Nat) (value : Value) :
    List FileMeta → MemTable.GetResult
  | [] => (false, ⟨.ok, value⟩)
  | file :: rest =>
      (searchFile cmp path directory file key snapshot value).getD
        (searchFiles directory key snapshot value rest)

def get (m : FileManager) (directory : Directory) (key : Key) (snapshot : Nat) (value : Value) :
    MemTable.GetResult :=
  searchFiles cmp path directory key snapshot value (m.candidates cmp key)

/-! ## Loading a directory -/

def wrapped (m : FileManager) : FileManager := { m with nextFileNumber := m.nextFileNumber % 2 ^ 64 }

structure FileLoading where
  manager : FileManager := {}
  maxFileNumber : Nat := 0
  loaded : Nat := 0

/-- One turn of the loop of `LoadExistingSSTables`. The key range comes from the file, the number and the
level from its name. -/
def loadFile (directory : Directory) (loading : FileLoading) (filename : List Char) : FileLoading :=
  match TableName.parse filename, openTable cmp path directory filename with
  | some (fileNumber, level), some reader =>
      if level < 0 then loading
      else
        match loading.manager.registerSSTable cmp ⟨filename, level.toNat,
            ⟨fileNumber, reader.info.smallestKey, reader.info.largestKey⟩⟩ with
        | .error _ => loading
        | .ok m => ⟨m.wrapped, max loading.maxFileNumber fileNumber, loading.loaded + 1⟩
  | _, _ => loading

def loadExistingSSTables (directory : Directory) (listing : List (List Char)) : FileManager :=
  let loading := listing.foldl (loadFile cmp path directory) {}
  if 0 < loading.loaded then
    { loading.manager with nextFileNumber := (loading.maxFileNumber + 1) % 2 ^ 64 }
  else loading.manager

end FileManager

structure DiskTree (cmp : Comparator) where
  mutableMemTable : MemTable cmp
  immutables : List (MemTable cmp)
  sstables : FileManager
  directory : Directory
  nextSequenceNumber : Nat
  writeStop : Bool

inductive DiskAction (cmp : Comparator) where
  | write (type : ValueType) (key : Key) (value : Value) (sequence : Nat)
  | switchMemTable
  | flushOldestMemTable (io : FlushIO)
  /-- The end of a recovery, with the memtable it has replayed to. -/
  | finishRecovery (mem : MemTable cmp) (io : FlushIO)
  /-- The memtables are gone, and the tree is opened again. -/
  | reopen (listing : List (List Char))
  | get (key : Key) (snapshot : Nat) (value : Value)

inductive DiskAnswer where
  | done (status : Status)
  | read (result : ReadResult)

namespace DiskTree
variable {cmp : Comparator} (path : List Char → Bytes) (options : LSMTreeOptions)

def new : DiskTree cmp := ⟨.new options.memtable, [], {}, fun _ => none, 1, false⟩

def memory (d : DiskTree cmp) : LSMTree cmp :=
  ⟨d.mutableMemTable, d.immutables, .new, d.nextSequenceNumber, d.writeStop⟩

def setMemory (d : DiskTree cmp) (t : LSMTree cmp) : DiskTree cmp :=
  ⟨t.mutableMemTable, t.immutables, d.sstables, d.directory, t.nextSequenceNumber, t.writeStop⟩

def writesStopped (d : DiskTree cmp) : Bool :=
  d.writeStop || decide (options.l0StopWritesTrigger ≤ (d.sstables.level 0).length)

/-- `PutLocked`, `DeleteLocked` and `MergeLocked` touch no file. -/
def write (d : DiskTree cmp) (type : ValueType) (key : Key) (value : Value) (sequence : Nat) :
    Status × DiskTree cmp :=
  if d.writesStopped options then (.ioError "Write stopped due to too many L0 files", d)
  else
    let (status, t) := d.memory.writeLocked options type key value sequence
    (status, d.setMemory t)

def switchMemTable (d : DiskTree cmp) : Status × DiskTree cmp :=
  match d.memory.switchMemTable options with
  | .error status => (status, d)
  | .ok t => (.ok, d.setMemory t)

/-- An empty memtable leaves no file. -/
def doFlushMemTable (d : DiskTree cmp) (mem : MemTable cmp) (io : FlushIO) : Status × DiskTree cmp :=
  if mem.isEmpty then (.ok, d)
  else
    let (status, sstables, directory) :=
      d.sstables.flushMemTableToSSTable cmp path d.directory mem io
    (status, { d with sstables := sstables, directory := directory })

def flushOldestMemTable (d : DiskTree cmp) (io : FlushIO) : Status × DiskTree cmp :=
  match d.immutables with
  | [] => (.ok, d)
  | mem :: rest =>
      let (status, d) := d.doFlushMemTable path mem io
      if status.isOk then (status, { d with immutables := rest }) else (status, d)

def reopen (d : DiskTree cmp) (listing : List (List Char)) : DiskTree cmp :=
  { (new options : DiskTree cmp) with
    sstables := FileManager.loadExistingSSTables cmp path d.directory listing
    directory := d.directory }

def get (d : DiskTree cmp) (key : Key) (snapshot : Nat) (value : Value) : ReadResult :=
  let (memFound, mem) := d.memory.getFromMemTables key snapshot value
  if mem.status.isDeleted then ⟨.notFound "Key was deleted", mem.value⟩
  else if ¬ mem.status.isOk ∧ ¬ mem.status.isNotFound ∧ ¬ mem.status.isMergeInProgress then mem
  else
    let (fileFound, file) := d.sstables.get cmp path d.directory key snapshot mem.value
    let found := memFound || (file.status.isOk && fileFound)
    if file.status.isDeleted then ⟨.notFound "Key was deleted", file.value⟩
    else if ¬ file.status.isOk then file
    else if ¬ found then ⟨.notFound "Key not found", file.value⟩
    else ⟨.ok, file.value⟩

def step (d : DiskTree cmp) : DiskAction cmp → DiskAnswer × DiskTree cmp
  | .write type key value sequence =>
      let (status, d) := d.write options type key value sequence
      (.done status, d)
  | .switchMemTable =>
      let (status, d) := d.switchMemTable options
      (.done status, d)
  | .flushOldestMemTable io =>
      let (status, d) := d.flushOldestMemTable path io
      (.done status, d)
  | .finishRecovery mem io =>
      let (status, d) := d.doFlushMemTable path mem io
      (.done status, d)
  | .reopen listing => (.done .ok, d.reopen path options listing)
  | .get key snapshot value => (.read (d.get path key snapshot value), d)

def Fits (d : DiskTree cmp) (mem : MemTable cmp) (io : FlushIO) : Prop :=
  let name := path (TableName.make d.sstables.nextFileNumber 0)
  d.sstables.nextFileNumber + 1 < 2 ^ 64 ∧
    (∀ writer, writeTable cmp.compare name io mem.entries = .finished writer →
      writer.file.length < uint32Limit) ∧
    ∀ content ∈ io.left, ∀ reader, SSTableReader.openFile cmp.compare name content ≠ .ok reader

def Lists (d : DiskTree cmp) (listing : List (List Char)) : Prop :=
  listing.Nodup ∧ ∀ filename, filename ∈ listing ↔ (d.directory filename).isSome

def Careful (d : DiskTree cmp) : DiskAction cmp → Prop
  | .flushOldestMemTable io => ∀ mem ∈ d.immutables.head?, d.Fits path mem io
  | .finishRecovery mem io => d.Fits path mem io
  | .reopen listing => d.Lists listing
  | _ => True

/-- A careful step, with the action and its answer. -/
def Steps (d : DiskTree cmp) (event : DiskAction cmp × DiskAnswer) (d' : DiskTree cmp) : Prop :=
  d.Careful path event.1 ∧ d.step path options event.1 = (event.2, d')

end DiskTree
end TableFile

/-! ## The tree on its tables -/

namespace LSMTree
open TableFile
variable {cmp : Comparator} (options : LSMTreeOptions)

def skipFile (t : LSMTree cmp) : LSMTree cmp :=
  { t with sstables := { t.sstables with nextFileNumber := t.sstables.nextFileNumber + 1 } }

inductive Steps : LSMTree cmp → DiskAction cmp × DiskAnswer → LSMTree cmp → Prop where
  | write (t : LSMTree cmp) (type : ValueType) (key : Key) (value : Value) (sequence : Nat) :
      Steps t (.write type key value sequence, .done (t.write options type key value sequence).1)
        (t.write options type key value sequence).2
  | switchMemTable {t t' : LSMTree cmp} (switched : t.switchMemTable options = .ok t') :
      Steps t (.switchMemTable, .done .ok) t'
  | stay {t : LSMTree cmp} {status : Status} (refused : t.switchMemTable options = .error status) :
      Steps t (.switchMemTable, .done status) t
  | flushOldestMemTable (t : LSMTree cmp) (io : FlushIO) :
      Steps t (.flushOldestMemTable io, .done (t.flushOldestMemTable options).1)
        (t.flushOldestMemTable options).2
  | finishRecovery (t : LSMTree cmp) (mem : MemTable cmp) (io : FlushIO) :
      Steps t (.finishRecovery mem io, .done (finishRecovery options t.sstables mem).1)
        { t with sstables := (finishRecovery options t.sstables mem).2 }
  | flushFails {t : LSMTree cmp} {mem : MemTable cmp} {rest : List (MemTable cmp)} (io : FlushIO)
      {failure : Status} (oldest : t.immutables = mem :: rest) (filled : ¬ mem.isEmpty)
      (failed : failure.code = .ioError) : Steps t (.flushOldestMemTable io, .done failure) t.skipFile
  | recoveryFails (t : LSMTree cmp) {mem : MemTable cmp} (io : FlushIO) {failure : Status}
      (filled : ¬ mem.isEmpty) (failed : failure.code = .ioError) :
      Steps t (.finishRecovery mem io, .done failure) t.skipFile
  | reopen (t : LSMTree cmp) (listing : List (List Char)) {order : List Nat}
      (lists : order.Perm (t.sstables.files.map fun file => file.2.info.fileNumber)) :
      Steps t (.reopen listing, .done .ok)
        (reopened options (t.sstables.loadExistingSSTables cmp order))
  | get (t : LSMTree cmp) (key : Key) (snapshot : Nat) (value : Value) :
      Steps t (.get key snapshot value, .read (t.get key snapshot value)) t

end LSMTree
end Lrdb
