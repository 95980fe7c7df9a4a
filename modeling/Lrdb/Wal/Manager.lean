import Mathlib.Data.Char
import Mathlib.Data.List.Lex
import Lrdb.Base.Ranks
import Lrdb.Base.Runs
import Lrdb.Wal.Recovery

/-!
# The files of the log

The manager appends to one file. When that file has grown to its limit it is renamed into the archive
and a file of the next number is created. A file is named by its number, padded to six digits.
-/

namespace Lrdb

/-- A file in `wal`, or in `wal/archive`. -/
structure LogFile where
  archived : Bool := false
  number : Nat
  records : List WALRecord := []
  /-- How many of the records a sync has covered. -/
  synced : Nat := 0
  /-- How many of them recovery has brought into the tree. -/
  flushed : Nat := 0
  deriving DecidableEq, Repr

/-- The log files, in the order in which they were created. -/
abbrev WALDisk := List LogFile

namespace LogFile

/-- `GenerateWALFilename`, without the directory. -/
def fileName (number : Nat) : List Char := (Nat.toDigits 10 number).leftpad 6 '0' ++ ".wal".toList

def path (f : LogFile) : List Char :=
  "wal/".toList ++ (if f.archived then "archive/".toList else []) ++ fileName f.number

/-- `stoull` of a name without its extension. -/
def parse (name : List Char) : Nat := Nat.ofDigitChars 10 (name.take (name.length - 4)) 0

def Is (archived : Bool) (number : Nat) (f : LogFile) : Prop :=
  f.archived = archived ∧ f.number = number

instance (archived : Bool) (number : Nat) (f : LogFile) : Decidable (f.Is archived number) :=
  inferInstanceAs (Decidable (_ ∧ _))

def size (f : LogFile) : Nat := (f.records.map fun r => 4 + r.encodedLength).sum

end LogFile

namespace WALDisk

/-- A change to one file of `wal`. -/
def update (d : WALDisk) (number : Nat) (change : LogFile → LogFile) : WALDisk :=
  d.map fun f => if f.Is false number then change f else f

/-- Opening for appending keeps a file that exists. -/
def create (d : WALDisk) (number : Nat) : WALDisk :=
  if d.any fun f => f.Is false number then d else d ++ [{ number := number }]

/-- The rename into the archive replaces a file of that name. -/
def archive (d : WALDisk) (number : Nat) : WALDisk :=
  update (d.filter fun f => ¬ f.Is true number) number fun f => { f with archived := true }

def append (d : WALDisk) (number : Nat) (r : WALRecord) : WALDisk :=
  d.update number fun f => { f with records := f.records ++ [r] }

def sync (d : WALDisk) (number : Nat) : WALDisk :=
  d.update number fun f => { f with synced := f.records.length }

def size (d : WALDisk) (number : Nat) : Nat := ((d.find? fun f => f.Is false number).map (·.size)).getD 0

/-- `GetWALFiles`: the first thousand of both directories by path. -/
def walFiles (d : WALDisk) : List LogFile := (Ranks.sorted LogFile.path d).take 1000

end WALDisk

structure WALWriter where
  number : Nat
  fileSize : Nat := 0
  isOpen : Bool := true
  deriving DecidableEq, Repr

structure FileFaults where
  sync : Bool := false
  rename : Bool := false
  closingSync : Bool := false
  create : Bool := false
  deriving DecidableEq, Repr

inductive AppendFault where
  | refused | misplaced
  deriving DecidableEq, Repr

structure RecordFaults where
  missing : FileFaults := {}
  switching : FileFaults := {}
  append : Option AppendFault := none
  sync : Bool := false
  deriving DecidableEq, Repr

inductive FileStep where
  | create (number : Nat)
  | sync (number : Nat)
  | archive (number : Nat)
  | append (number : Nat)
  | flush
  | remove (archived : Bool) (number : Nat)
  deriving DecidableEq, Repr

structure WALManager where
  disk : WALDisk := []
  nextFileNumber : Nat := 1
  writer : Option WALWriter := none
  maxWALSize : Nat := 64 * 2 ^ 20
  syncOnWrite : Bool := false
  initialized : Bool := false
  activeTransactions : Nat → Option TransactionState := fun _ => none
  lastSequence : Nat := 0
  /-- The steps of the current call, each with the files before it. -/
  trail : List (WALDisk × FileStep) := []
  /-- Every record that reached a file, with the number of that file. -/
  written : List (Nat × WALRecord) := []
  /-- The records that the last recovery has applied. -/
  replayed : Log := []

namespace WALManager

def change (m : WALManager) (step : FileStep) (disk : WALDisk) : WALManager :=
  { m with disk := disk, trail := m.trail ++ [(m.disk, step)] }

/-- `WALWriter::Sync` of the current file. -/
def syncWriter (m : WALManager) (fails : Bool) : Status × WALManager :=
  match m.writer with
  | none => (.invalidArgument "No active WAL writer", m)
  | some w =>
      if ¬ w.isOpen then (.invalidArgument "WAL file not open", m)
      else if fails then (.ioError "Failed to flush WAL file", m)
      else (.ok, m.change (.sync w.number) (m.disk.sync w.number))

def createNewWALFile (faults : FileFaults) (m : WALManager) : Status × WALManager :=
  let (_, m) := m.syncWriter faults.closingSync
  let number := m.nextFileNumber
  let m := { m with writer := none, nextFileNumber := number + 1 }
  if faults.create then (.ioError "Failed to open WAL file", m)
  else
    (.ok, { m.change (.create number) (m.disk.create number) with
      writer := some { number := number, fileSize := m.disk.size number } })

def archiveCurrentWAL (faults : FileFaults) (m : WALManager) : Status × WALManager :=
  match m.writer with
  | none => (.invalidArgument "No current WAL file", m)
  | some w =>
      let (status, m) := m.syncWriter faults.sync
      if ¬ status.isOk then (status, m)
      else if faults.rename then
        (.ioError "Failed to archive WAL file", { m with writer := some { w with isOpen := false } })
      else (.ok, { m.change (.archive w.number) (m.disk.archive w.number) with writer := none })

/-- A failure to archive is only logged. -/
def switchToNewWAL (faults : FileFaults) (m : WALManager) : Status × WALManager :=
  (m.archiveCurrentWAL faults).2.createNewWALFile faults

def shouldSwitchWAL (m : WALManager) : Bool :=
  match m.writer with
  | none => true
  | some w => m.maxWALSize ≤ w.fileSize

def updateTransactionState (m : WALManager) (r : WALRecord) : Status × WALManager :=
  let known := (m.activeTransactions r.transactionId).isSome
  let set (state : TransactionState) : WALManager :=
    { m with activeTransactions := Function.update m.activeTransactions r.transactionId (some state) }
  match r.type with
  | .kBeginTransaction =>
      if known then
        (.invalidArgument ("Transaction already active: " ++ toString r.transactionId), m)
      else (.ok, set .kActive)
  | .kCommitTransaction =>
      if known then (.ok, set .kCommitted)
      else (.invalidArgument ("Transaction not found: " ++ toString r.transactionId), m)
  | .kAbortTransaction =>
      if known then (.ok, set .kAborted)
      else (.invalidArgument ("Transaction not found: " ++ toString r.transactionId), m)
  | _ => (.ok, m)

/-- `WALWriter::WriteRecord` of the current file. -/
def append (m : WALManager) (fault : Option AppendFault) (r : WALRecord) : Status × WALManager :=
  match m.writer with
  | none => (.invalidArgument "WAL file not open", m)
  | some w =>
      let added := { m.change (.append w.number) (m.disk.append w.number r) with
        written := m.written ++ [(w.number, r)] }
      if ¬ w.isOpen then (.invalidArgument "WAL file not open", m)
      else if WALRecord.maxEncodedLength < r.encodedLength then
        (.invalidArgument "WAL record too large", m)
      else
        match fault with
        | some .refused => (.ioError "Failed to write WAL record", m)
        | some .misplaced => (.ioError "WAL write position mismatch", added)
        | none => (.ok, { added with
            writer := some { w with fileSize := w.fileSize + (4 + r.encodedLength) } })

def writeToFile (m : WALManager) (faults : RecordFaults) (r : WALRecord) : Status × WALManager :=
  if r.sequenceNumber = 0 then (.invalidArgument "Invalid sequence number in WAL record", m)
  else
    let (status, m) := m.updateTransactionState r
    if ¬ status.isOk then (status, m)
    else
      let (status, m) := m.append faults.append r
      if ¬ status.isOk then (.ioError ("Failed to write WAL record: " ++ status.message), m)
      else if m.syncOnWrite then
        let (status, m) := m.syncWriter faults.sync
        if status.isOk then (.ok, { m with lastSequence := r.sequenceNumber })
        else (.ioError ("Failed to sync WAL file: " ++ status.message), m)
      else (.ok, { m with lastSequence := r.sequenceNumber })

def writeRecordInternal (m : WALManager) (faults : RecordFaults) (r : WALRecord) :
    Status × WALManager :=
  if ¬ m.initialized then (.invalidArgument "WALManager not initialized", m)
  else
    let (status, m) := if m.writer.isNone then m.createNewWALFile faults.missing else (.ok, m)
    if ¬ status.isOk then (.ioError ("Failed to create new WAL file: " ++ status.message), m)
    else
      let (status, m) := if m.shouldSwitchWAL then m.switchToNewWAL faults.switching else (.ok, m)
      if ¬ status.isOk then (.ioError ("Failed to switch WAL file: " ++ status.message), m)
      else m.writeToFile faults r

end WALManager

inductive WALAction where
  | write (r : WALRecord) (faults : RecordFaults)
  | sync (fails : Bool)
  | archive (faults : FileFaults)
  | setMaxWALSize (size : Nat)
  | setSyncOnWrite (syncOnWrite : Bool)
  deriving DecidableEq, Repr

def WALRecord.Fits (r : WALRecord) : Prop :=
  r.type.known ∧ r.sequenceNumber < 2 ^ 64 ∧ r.columnFamilyId < 2 ^ 32 ∧ r.transactionId < 2 ^ 64

instance (r : WALRecord) : Decidable r.Fits := inferInstanceAs (Decidable (_ ∧ _))

namespace WALManager

def step (m : WALManager) (action : WALAction) : Option WALManager :=
  let m := { m with trail := [] }
  match action with
  | .write r faults => if r.Fits then some (m.writeRecordInternal faults r).2 else none
  | .sync fails => some (m.syncWriter fails).2
  | .archive faults => some (m.archiveCurrentWAL faults).2
  | .setMaxWALSize size => some { m with maxWALSize := size }
  | .setSyncOnWrite syncOnWrite => some { m with syncOnWrite := syncOnWrite }

end WALManager
end Lrdb
