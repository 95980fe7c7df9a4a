import Lrdb.Db.CrashRecovery
import Lrdb.Storage.Reload
import Lrdb.Wal.GreatestSequence
import Lrdb.Wal.Sessions

/-!
# The sessions of a column family

A session opens on what the earlier ones left on the disk, and ends with a shutdown or a crash at any
of its steps. The counter of commit sequences is in memory only; the logs and the file LAST_SEQUENCE
are what the next session restores it from.
-/

namespace Lrdb
open Runs

namespace WALDisk

def logs (files : WALDisk) : List Log := files.map LogFile.records

/-- The number of the file that `Initialize` creates. -/
def nextNumber (files : WALDisk) : Nat := files.maxFileNumber + 1

def listed (files : WALDisk) : WALDisk :=
  Ranks.sorted LogFile.path (files.create files.nextNumber)

end WALDisk

/-- `RecoverSetSnapshot`, on the counter. -/
def recoverSetSnapshot (nextSequence recovered : Nat) : Nat :=
  if recovered = 0 then nextSequence else recovered + 1

structure Disk where
  sstables : SSTableManager := .new
  files : WALDisk := []
  /-- The number in the file LAST_SEQUENCE. -/
  lastSequence : Option Nat := none

structure OpenFamily (cmp : Comparator) where
  session : Session cmp
  /-- The log files of earlier sessions that are still there, and the one of this session. -/
  left : WALDisk := []
  /-- The counter as the session found it. -/
  base : Nat
  /-- So many records of the session are synced. -/
  synced : Nat := 0
  lastSequence : Option Nat := none

inductive Lifetime (cmp : Comparator) where
  | closed (disk : Disk)
  | opened (family : OpenFamily cmp)

/-- How far `Shutdown`, and `TruncateLogs` after it, have come, with the log files still there. -/
inductive ShutdownPoint where
  | treeClosed (files : WALDisk)
  /-- LAST_SEQUENCE is truncated and not yet written. -/
  | emptied (files : WALDisk)
  | written (files : WALDisk)
  deriving DecidableEq, Repr

inductive LifetimeAction where
  /-- The constructor, and `DBImpl::RecoverFromWAL` when `again` is set. The tables are loaded in
  the order of the directory, and the files in `left` are not removed. -/
  | start (order : List Nat) (again : Bool) (left : WALDisk)
  /-- A crash of the constructor, before its flush. -/
  | create
  /-- A crash of the constructor, after its flush and between the removals of the log files. -/
  | interrupt (order : List Nat) (left : WALDisk)
  | session (action : SessionAction)
  | crash (files : WALDisk)
  /-- A shutdown that ends at this point, or a crash there. -/
  | shutdown (point : ShutdownPoint)
  deriving DecidableEq, Repr

namespace Disk
variable (cmp : Comparator) (options : LSMTreeOptions) (d : Disk)

def logs : List Log := d.files.logs

/-- Recovery is entered only if the scan has found a file in `wal` itself, and `GetWALFiles` stops after
a thousand files. -/
def read : WALDisk := if d.files.maxFileNumber = 0 then [] else d.files.listed.take 1000

def unreadFiles : WALDisk :=
  if d.files.maxFileNumber = 0 then d.files.listed else d.files.listed.drop 1000

def replayed : List Log := d.read.logs

def unread : List Log := d.unreadFiles.logs

def Lists (order : List Nat) : Prop :=
  order.Perm (d.sstables.files.map fun file => file.2.info.fileNumber)

/-- Only files that were replayed are removed, and not the one that is written to. -/
def Leaves (left : WALDisk) : Prop :=
  d.unreadFiles.Sublist left ∧ left.Sublist d.files.listed ∧
    ∃ f ∈ left, f.Is false d.files.nextNumber

instance (order : List Nat) : Decidable (d.Lists order) := by
  unfold Lists
  infer_instance

instance (left : WALDisk) : Decidable (d.Leaves left) := inferInstanceAs (Decidable (_ ∧ _ ∧ _))

/-- `LoadExistingSSTables` and `RecoverFromWAL`, up to the removal of the log files. -/
def recover (order : List Nat) : Except Status (ReplayState cmp × SSTableManager) := do
  let st ← (ReplayState.new options.memtable).replay options.memtable d.replayed.flatten
  let (status, sstables) :=
    LSMTree.finishRecovery options (d.sstables.loadExistingSSTables cmp order) st.memtable
  if status.isOk then return (st, sstables) else throw status

/-- The constructor takes the greater of the two sequences, `DBImpl::RecoverFromWAL` that of the log
alone. -/
def nextSequence (walSequence : Nat) (again : Bool) : Nat :=
  let next := recoverSetSnapshot 1 (max walSequence (d.lastSequence.getD 0))
  if again then recoverSetSnapshot next walSequence else next

def start (order : List Nat) (again : Bool) (left : WALDisk) : Option (OpenFamily cmp) :=
  match d.recover cmp options order with
  | .error _ => none
  | .ok (st, sstables) =>
      let next := d.nextSequence st.maxSequence again
      if d.Lists order ∧ d.Leaves left then
        some
          { session := .opened (.reopened options sstables) next
            left := left
            base := next
            lastSequence := d.lastSequence }
      else none

def interrupt (order : List Nat) (left : WALDisk) : Option Disk :=
  match d.recover cmp options order with
  | .error _ => none
  | .ok (_, sstables) =>
      if d.Lists order ∧ d.Leaves left then some { d with sstables := sstables, files := left }
      else none

/-- The files that are not read have no greater sequence than what sets the counter. The log alone
sets it in the second recovery, unless it is empty; then no table may be ahead of the log. -/
def SetsCounter (again : Bool) : Prop :=
  if again ∧ greatestSequence d.replayed ≠ 0 then
    greatestSequence d.unread ≤ greatestSequence d.replayed ∧ d.sstables.Below (greatestSequence d.replayed + 1)
  else greatestSequence d.unread ≤ max (greatestSequence d.replayed) (d.lastSequence.getD 0)

instance (again : Bool) : Decidable (d.SetsCounter again) := by
  unfold SetsCounter
  infer_instance

end Disk

namespace OpenFamily
variable {cmp : Comparator} (options : LSMTreeOptions) (f : OpenFamily cmp)

def Remains (logs : List Log) : Prop :=
  logs.flatten.Subperm (f.left.logs.flatten ++ f.session.wal)

def Survives (logs : List Log) : Prop :=
  (f.left.logs.flatten ++ f.session.wal.take f.synced).Subperm logs.flatten ∧ f.Remains logs

instance (logs : List Log) : Decidable (f.Remains logs) := by
  unfold Remains
  infer_instance

instance (logs : List Log) : Decidable (f.Survives logs) := inferInstanceAs (Decidable (_ ∧ _))

def syncedBy (action : SessionAction) (session : Session cmp) : Nat :=
  match action with
  | .transaction (.synced _ true) => session.wal.length
  | _ => f.synced

def step (action : SessionAction) : Option (OpenFamily cmp) :=
  (f.session.step options action).map fun session =>
    { f with session := session, synced := f.syncedBy action session }

def crash (files : WALDisk) : Option Disk :=
  if f.Survives files.logs then some ⟨f.session.lsm.sstables, files, f.lastSequence⟩ else none

def shutdown : ShutdownPoint → Option Disk
  | .treeClosed files =>
      if f.Survives files.logs then some ⟨(f.session.lsm.close options).2, files, f.lastSequence⟩
      else none
  | .emptied files =>
      if f.Survives files.logs then some ⟨(f.session.lsm.close options).2, files, none⟩ else none
  | .written files =>
      if f.Remains files.logs then
        some ⟨(f.session.lsm.close options).2, files, some f.session.manager.currentSequence⟩
      else none

end OpenFamily

namespace Lifetime
variable {cmp : Comparator} (options : LSMTreeOptions)

def step : Lifetime cmp → LifetimeAction → Option (Lifetime cmp)
  | .closed d, .start order again left => (d.start cmp options order again left).map .opened
  | .closed d, .create => some (.closed { d with files := d.files.listed })
  | .closed d, .interrupt order left => (d.interrupt cmp options order left).map .closed
  | .opened f, .session action => (f.step options action).map .opened
  | .opened f, .crash files => (f.crash files).map .closed
  | .opened f, .shutdown point => (f.shutdown options point).map .closed
  | _, _ => none

/-- What a crash leaves reaches the sequence before the first of the session, in a log file or in
LAST_SEQUENCE; while log files are removed, it reaches the greatest sequence of all. A session that
opens reads the counter from what has that sequence. -/
def KeepsCounter : Lifetime cmp → LifetimeAction → Prop
  | .closed d, .start _ again _ => d.SetsCounter again
  | .closed d, .interrupt _ left =>
      greatestSequence d.logs ≤ max (greatestSequence left.logs) (d.lastSequence.getD 0)
  | .opened f, .crash files | .opened f, .shutdown (.treeClosed files) =>
      f.base ≤ max (greatestSequence files.logs) (f.lastSequence.getD 0) + 1
  | .opened f, .shutdown (.emptied files) => f.base ≤ greatestSequence files.logs + 1
  | _, _ => True

instance : (st : Lifetime cmp) → (action : LifetimeAction) → Decidable (KeepsCounter st action)
  | .closed d, .start _ again _ => inferInstanceAs (Decidable (d.SetsCounter again))
  | .closed d, .interrupt _ left =>
      inferInstanceAs (Decidable
        (greatestSequence d.logs ≤ max (greatestSequence left.logs) (d.lastSequence.getD 0)))
  | .opened f, .crash files | .opened f, .shutdown (.treeClosed files) =>
      inferInstanceAs (Decidable
        (f.base ≤ max (greatestSequence files.logs) (f.lastSequence.getD 0) + 1))
  | .opened f, .shutdown (.emptied files) =>
      inferInstanceAs (Decidable (f.base ≤ greatestSequence files.logs + 1))
  | .closed _, .create | .closed _, .session _ | .closed _, .crash _ | .closed _, .shutdown _
  | .opened _, .start .. | .opened _, .create | .opened _, .interrupt .. | .opened _, .session _
  | .opened _, .shutdown (.written _) =>
      inferInstanceAs (Decidable True)

end Lifetime
end Lrdb
