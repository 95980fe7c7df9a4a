import Lrdb.Wal.Consecutive

/-!
# Sessions of the manager

A session starts with a scan of the active directory for the highest file number, the creation of the
next file, and recovery. It ends with a shutdown or with a crash between two steps of a call.
-/

namespace Lrdb

abbrev FreshTables := { m : SSTableManager // m.Fresh }

namespace WALDisk

def maxFileNumber (d : WALDisk) : Nat :=
  ((d.filter fun f => ¬ f.archived).map fun f => LogFile.parse (LogFile.fileName f.number)).foldr max 0

def flush (d : WALDisk) (files : List LogFile) : WALDisk :=
  d.map fun f =>
    if files.any fun g => f.Is g.archived g.number then { f with flushed := f.records.length } else f

def remove (d : WALDisk) (archived : Bool) (number : Nat) : WALDisk :=
  d.filter fun f => ¬ f.Is archived number

end WALDisk

namespace WALManager
variable (cmp : Comparator) (options : LSMTreeOptions)

/-- The file of the writer stays, and so does one that cannot be removed. -/
def removeReplayed (m : WALManager) (stays : LogFile → Bool) : List LogFile → WALManager
  | [] => m
  | f :: rest =>
      if m.writer.any (fun w => f.Is false w.number) ∨ stays f then removeReplayed m stays rest
      else removeReplayed
        (m.change (.remove f.archived f.number) (m.disk.remove f.archived f.number)) stays rest

def flushReplayed (m : WALManager) (recovery : Recovery cmp) : WALManager :=
  { m.change .flush (m.disk.flush m.disk.walFiles) with
    replayed := recovery.applied
    lastSequence := if 0 < recovery.state.maxSequence then recovery.state.maxSequence
      else m.lastSequence }

/-- `RecoverFromWAL` of the manager. -/
def recoverLogs (m : WALManager) (tree : FreshTables) (stays : LogFile → Bool) :
    Status × WALManager :=
  match (recoverFromWAL options tree.val (m.disk.walFiles.map LogFile.content) :
      Except Status (Recovery cmp × SSTableManager)) with
  | .error status => (status, m)
  | .ok (recovery, _) =>
      (.ok, (flushReplayed cmp m recovery).removeReplayed stays m.disk.walFiles)

def scanned (m : WALManager) : WALManager :=
  { m with nextFileNumber := m.disk.maxFileNumber + 1, replayed := [] }

/-- Recovery is entered only if the scan has found a file. -/
def initializeWAL (m : WALManager) (tree : FreshTables) (faults : FileFaults)
    (stays : LogFile → Bool) : Status × WALManager :=
  if m.initialized then (.invalidArgument "WALManager already initialized", m)
  else
    let last := m.disk.maxFileNumber
    let (status, m) := m.scanned.createNewWALFile faults
    if ¬ status.isOk then
      (.ioError "Failed to initialize WAL manager: timeout after 5 seconds", m)
    else if last = 0 then (.ok, { m with initialized := true })
    else
      let (status, m) := m.recoverLogs cmp options tree stays
      if status.isOk then (.ok, { m with initialized := true }) else (status, m)

def shutdown (m : WALManager) (fails : Bool) : WALManager :=
  { (m.syncWriter fails).2 with writer := none, initialized := false }

end WALManager

inductive WALCall where
  | client (action : WALAction)
  | initializeWAL (tree : FreshTables) (faults : FileFaults) (stays : LogFile → Bool)
  | shutdown (fails : Bool)

/-- A crash leaves `taken` steps of its call; of each file it keeps what was synced, and as much more
as `kept` says. -/
inductive SessionCall where
  | complete (call : WALCall)
  | crash (call : WALCall) (taken : Nat) (kept : Nat → Nat)

namespace WALManager
variable (cmp : Comparator) (options : LSMTreeOptions)

def call (m : WALManager) : WALCall → Option WALManager
  | .client action => m.step action
  | .initializeWAL tree faults stays =>
      some ({ m with trail := [] }.initializeWAL cmp options tree faults stays).2
  | .shutdown fails => some ({ m with trail := [] }.shutdown fails)

/-- The files after so many steps of the call that `m` has just finished. -/
def diskAfter (m : WALManager) (taken : Nat) : WALDisk :=
  ((m.trail.map Prod.fst)[taken]?).getD m.disk

def crashed (m : WALManager) (taken : Nat) (kept : Nat → Nat) : WALManager :=
  { disk := (m.diskAfter taken).map fun f =>
      { f with records := f.records.take (max f.synced (kept f.number)) } }

def sessionStep (m : WALManager) : SessionCall → Option WALManager
  | .complete c => m.call cmp options c
  | .crash c taken kept => (m.call cmp options c).map fun m => m.crashed taken kept

end WALManager

/-! ## What a session must do -/

namespace LogFile

def Unreplayed (f : LogFile) : Prop := f.flushed < f.records.length

instance (f : LogFile) : Decidable f.Unreplayed := inferInstanceAs (Decidable (_ < _))

/-- The records that are synced and not yet flushed. -/
def pending (f : LogFile) : List WALRecord := (f.records.take f.synced).drop f.flushed

end LogFile

def FileStep.Targets : FileStep → LogFile → Prop
  | .create number, f => f.Is false number
  | .archive number, f => f.Is true number
  | .remove archived number, f => f.Is archived number
  | _, _ => False

instance : (step : FileStep) → (f : LogFile) → Decidable (step.Targets f)
  | .create _, _ | .archive _, _ | .remove _ _, _ => inferInstanceAs (Decidable (LogFile.Is ..))
  | .sync _, _ | .append _, _ | .flush, _ => inferInstanceAs (Decidable False)

namespace WALManager

/-- No step of the call that has just ended was aimed at a file with unreplayed records. -/
def Spares (m : WALManager) : Prop :=
  ∀ point ∈ m.trail, ∀ f ∈ point.1, point.2.Targets f → ¬ f.Unreplayed

instance (m : WALManager) : Decidable m.Spares := by unfold Spares; infer_instance

def Replays (m m' : WALManager) : Prop :=
  ∀ f ∈ m.disk, f.pending ≠ [] → f.records <:+: m'.replayed

instance (m m' : WALManager) : Decidable (Replays m m') := by unfold Replays; infer_instance

/-- What one call must keep, and the opening of a session deliver. -/
def Keeps (cmp : Comparator) (options : LSMTreeOptions) (m : WALManager) : SessionCall → Prop
  | .complete (.initializeWAL tree faults stays) =>
      ∀ m' ∈ m.call cmp options (.initializeWAL tree faults stays),
        m'.Spares ∧ (m.initialized = false → Replays m m')
  | .complete c | .crash c _ _ => ∀ m' ∈ m.call cmp options c, m'.Spares

end WALManager
end Lrdb
