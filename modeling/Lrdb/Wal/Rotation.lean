import Mathlib.Data.List.MinMax
import Lrdb.Wal.Sessions
import Lrdb.Wal.WholeFiles

namespace Lrdb
open Runs

namespace WALDisk
variable {d : WALDisk} {f : LogFile}

theorem mem_update {number : Nat} {change : LogFile → LogFile} : f ∈ d.update number change ↔
    ∃ g ∈ d, f = if g.Is false number then change g else g := by
  simp only [update, List.mem_map, eq_comm]

theorem mem_create {number : Nat} (member : f ∈ d.create number) :
    f ∈ d ∨ f = { number := number } := by
  unfold create at member
  split at member
  · exact .inl member
  · simpa using member

theorem mem_archive {number : Nat} (member : f ∈ d.archive number) :
    ∃ g ∈ d, f = { g with archived := f.archived } := by
  obtain ⟨g, inside, same⟩ := mem_update.mp member
  refine ⟨g, List.mem_of_mem_filter inside, ?_⟩
  split at same
  · rw [same]
  · rw [same]

theorem le_maxFileNumber (member : f ∈ d) (active : f.archived = false) :
    f.number ≤ d.maxFileNumber := by
  refine List.le_max_of_le' 0 ?_ le_rfl
  rw [List.mem_map]
  exact ⟨f, List.mem_filter.mpr ⟨member, by simp [active]⟩, LogFile.parse_fileName f.number⟩

end WALDisk

namespace WALManager

def AllValid (d : WALDisk) : Prop := ∀ f ∈ d, ∀ r ∈ f.records, r.Valid

structure Sparing (m : WALManager) : Prop where
  valid : AllValid m.disk
  passed : ∀ point ∈ m.trail, AllValid point.1
  spares : m.Spares

variable {m m' : WALManager}

theorem Sparing.change (sparing : m.Sparing) {step : FileStep} {d : WALDisk} (valid : AllValid d)
    (spared : ∀ f ∈ m.disk, step.Targets f → ¬ f.Unreplayed) : (m.change step d).Sparing where
  valid := valid
  passed := by
    refine List.forall_mem_append.mpr ⟨sparing.passed, ?_⟩
    simpa using sparing.valid
  spares := by
    refine List.forall_mem_append.mpr ⟨sparing.spares, ?_⟩
    simpa using spared

theorem Sparing.same (sparing : m.Sparing) (disk : m'.disk = m.disk) (trail : m'.trail = m.trail) :
    m'.Sparing :=
  ⟨disk ▸ sparing.valid, trail ▸ sparing.passed, by rw [Spares, trail]; exact sparing.spares⟩

/-- What a session keeps about the files it may touch: unreplayed files have older numbers than the
current file, or are the current file. -/
structure Careful (m : WALManager) : Prop extends Sparing m where
  next : m.initialized ∨ m.writer.isSome → ∀ f ∈ m.disk, f.Unreplayed → f.number < m.nextFileNumber
  current : ∀ w ∈ m.writer, w.number < m.nextFileNumber ∧
    ∀ f ∈ m.disk, f.Unreplayed → f.number < w.number ∨ f.Is false w.number

def AllReplayed (d : WALDisk) : Prop := ∀ f ∈ d, ¬ f.Unreplayed

theorem Sparing.careful (sparing : m.Sparing) (replayed : AllReplayed m.disk)
    (current : ∀ w ∈ m.writer, w.number < m.nextFileNumber) : m.Careful :=
  { sparing with
    next := fun _ f member unreplayed => absurd unreplayed (replayed f member)
    current := fun w writer =>
      ⟨current w writer, fun f member unreplayed => absurd unreplayed (replayed f member)⟩ }

theorem Careful.same (careful : m.Careful) (disk : m'.disk = m.disk) (trail : m'.trail = m.trail)
    (next : m.nextFileNumber ≤ m'.nextFileNumber) (started : m'.initialized = m.initialized)
    (current : ∀ v ∈ m'.writer, ∃ w ∈ m.writer, w.number = v.number) : m'.Careful := by
  refine { careful.toSparing.same disk trail with next := ?_, current := ?_ }
  · intro live f member unreplayed
    rw [disk] at member
    have before : m.initialized ∨ m.writer.isSome := by
      rw [started] at live
      refine live.imp_right fun writing => ?_
      obtain ⟨v, writer⟩ := Option.isSome_iff_exists.mp writing
      obtain ⟨w, before, -⟩ := current v writer
      exact Option.isSome_iff_exists.mpr ⟨w, before⟩
    exact (careful.next before f member unreplayed).trans_le next
  · intro v writer
    obtain ⟨w, before, number⟩ := current v writer
    obtain ⟨less, older⟩ := careful.current w before
    rw [← number, disk]
    exact ⟨less.trans_le next, older⟩

theorem Careful.update (careful : m.Careful) {w : WALWriter} (writer : w ∈ m.writer)
    {step : FileStep} {change : LogFile → LogFile}
    (named : ∀ f, (change f).number = f.number ∧ (change f).archived = f.archived)
    (valid : ∀ f ∈ m.disk, ∀ r ∈ (change f).records, r.Valid)
    (harmless : ∀ f, ¬ step.Targets f) :
    (m.change step (m.disk.update w.number change)).Careful := by
  have live : m.initialized ∨ m.writer.isSome := .inr (Option.isSome_iff_exists.mpr ⟨w, writer⟩)
  have older : ∀ f ∈ m.disk.update w.number change, f.Unreplayed →
      f.number < m.nextFileNumber ∧ (f.number < w.number ∨ f.Is false w.number) := by
    intro f member unreplayed
    obtain ⟨g, inside, rfl⟩ := WALDisk.mem_update.mp member
    obtain ⟨less, before⟩ := careful.current w writer
    split at unreplayed
    · rename_i here
      rw [if_pos here, (named g).1, LogFile.Is, (named g).1, (named g).2]
      exact ⟨here.2 ▸ less, .inr here⟩
    · rename_i other
      rw [if_neg other]
      exact ⟨careful.next live g inside unreplayed, before g inside unreplayed⟩
  refine { careful.toSparing.change ?_ (fun f _ aimed => absurd aimed (harmless f)) with
    next := fun _ f member unreplayed => (older f member unreplayed).1
    current := ?_ }
  · intro f member
    obtain ⟨g, inside, rfl⟩ := WALDisk.mem_update.mp member
    split
    · exact valid g inside
    · exact careful.valid g inside
  · intro v here
    obtain rfl := Option.some.inj (Option.mem_def.mp writer |>.symm.trans here)
    exact ⟨(careful.current w writer).1, fun f member unreplayed => (older f member unreplayed).2⟩

theorem Careful.syncWriter (careful : m.Careful) (fails : Bool) :
    (m.syncWriter fails).2.Careful := by
  unfold WALManager.syncWriter
  split
  · exact careful
  rename_i w writer
  split
  · exact careful
  split
  · exact careful
  · exact careful.update writer (fun _ => ⟨rfl, rfl⟩) careful.valid fun _ aimed => aimed

theorem syncWriter_frame (m : WALManager) (fails : Bool) :
    (m.syncWriter fails).2.nextFileNumber = m.nextFileNumber ∧
      (m.syncWriter fails).2.initialized = m.initialized ∧
      (m.syncWriter fails).2.writer = m.writer := by
  unfold WALManager.syncWriter
  split
  · exact ⟨rfl, rfl, rfl⟩
  split
  · exact ⟨rfl, rfl, rfl⟩
  split <;> exact ⟨rfl, rfl, rfl⟩

theorem Careful.createNewWALFile (careful : m.Careful) (live : m.initialized ∨ m.writer.isSome)
    (faults : FileFaults) : (m.createNewWALFile faults).2.Careful := by
  have synced := careful.syncWriter faults.closingSync
  have frame := syncWriter_frame m faults.closingSync
  unfold WALManager.createNewWALFile
  generalize m.syncWriter faults.closingSync = result at synced frame ⊢
  obtain ⟨status, m⟩ := result
  dsimp only at synced frame ⊢
  rw [← frame.2.1, ← frame.2.2] at live
  split
  · exact synced.same rfl rfl (Nat.le_succ _) rfl nofun
  have below : ∀ f ∈ m.disk.create m.nextFileNumber, f.Unreplayed → f.number < m.nextFileNumber := by
    intro f member unreplayed
    rcases WALDisk.mem_create member with old | rfl
    · exact synced.next live f old unreplayed
    · exact absurd unreplayed (Nat.lt_irrefl _)
  have created : (m.change (.create m.nextFileNumber) (m.disk.create m.nextFileNumber)).Sparing := by
    apply synced.toSparing.change
    · intro f member
      rcases WALDisk.mem_create member with old | rfl
      · exact synced.valid f old
      · exact List.forall_mem_nil _
    · intro f member named unreplayed
      exact absurd named.2 (synced.next live f member unreplayed).ne
  refine { created.same rfl rfl with
    next := fun _ f member unreplayed => (below f member unreplayed).trans (Nat.lt_succ_self _)
    current := ?_ }
  rintro w ⟨⟩
  exact ⟨Nat.lt_succ_self _, fun f member unreplayed => .inl (below f member unreplayed)⟩

theorem Careful.archiveCurrentWAL (careful : m.Careful) (faults : FileFaults) :
    (m.archiveCurrentWAL faults).2.Careful := by
  have synced := careful.syncWriter faults.sync
  have frame := syncWriter_frame m faults.sync
  unfold WALManager.archiveCurrentWAL
  split
  · exact careful
  rename_i w writer
  rw [writer] at frame
  generalize m.syncWriter faults.sync = result at synced frame ⊢
  obtain ⟨status, m⟩ := result
  dsimp only at synced frame ⊢
  split
  · exact synced
  split
  · refine synced.same rfl rfl le_rfl rfl ?_
    rintro v ⟨⟩
    exact ⟨w, frame.2.2, rfl⟩
  have live : m.initialized ∨ m.writer.isSome := .inr (by rw [frame.2.2]; rfl)
  have moved : (m.change (.archive w.number) (m.disk.archive w.number)).Sparing := by
    apply synced.toSparing.change
    · intro f member
      obtain ⟨g, inside, same⟩ := WALDisk.mem_archive member
      rw [same]
      exact synced.valid g inside
    · rintro f member ⟨archived, number⟩ unreplayed
      rcases (synced.current w frame.2.2).2 f member unreplayed with less | here
      · exact absurd number less.ne
      · exact Bool.noConfusion (archived.symm.trans here.1)
  refine { moved.same rfl rfl with next := ?_, current := nofun }
  intro _ f member unreplayed
  obtain ⟨g, inside, same⟩ := WALDisk.mem_archive member
  rw [same] at unreplayed ⊢
  exact synced.next live g inside unreplayed

theorem createNewWALFile_initialized (m : WALManager) (faults : FileFaults) :
    (m.createNewWALFile faults).2.initialized = m.initialized := by
  have kept := (syncWriter_frame m faults.closingSync).2.1
  unfold WALManager.createNewWALFile
  dsimp only
  split <;> exact kept

theorem archiveCurrentWAL_initialized (m : WALManager) (faults : FileFaults) :
    (m.archiveCurrentWAL faults).2.initialized = m.initialized := by
  have kept := (syncWriter_frame m faults.sync).2.1
  unfold WALManager.archiveCurrentWAL
  split
  · rfl
  dsimp only
  split
  · exact kept
  split <;> exact kept

theorem Careful.append (careful : m.Careful) (fault : Option AppendFault) {r : WALRecord}
    (fits : r.Fits) (positive : r.sequenceNumber ≠ 0) : (m.append fault r).2.Careful := by
  unfold WALManager.append
  split
  · exact careful
  rename_i w writer
  split
  · exact careful
  split
  · exact careful
  rename_i short
  have valid : r.Valid := ⟨fits.1, ⟨Nat.pos_of_ne_zero positive, fits.2.1⟩, fits.2.2.1, fits.2.2.2,
    Nat.le_of_not_lt short⟩
  have appended : (m.change (.append w.number) (m.disk.append w.number r)).Careful := by
    have grown : ∀ f ∈ m.disk, ∀ x ∈ f.records ++ [r], x.Valid := by
      intro f member
      refine List.forall_mem_append.mpr ⟨careful.valid f member, ?_⟩
      simpa using valid
    exact careful.update writer (fun _ => ⟨rfl, rfl⟩) grown fun _ aimed => aimed
  split
  · exact careful
  · exact appended.same rfl rfl le_rfl rfl fun v here => ⟨v, here, rfl⟩
  · refine appended.same rfl rfl le_rfl rfl ?_
    rintro v ⟨⟩
    exact ⟨w, writer, rfl⟩

theorem Careful.updateTransactionState (careful : m.Careful) (r : WALRecord) :
    (m.updateTransactionState r).2.Careful := by
  have kept (active : Nat → Option TransactionState) :
      { m with activeTransactions := active }.Careful :=
    careful.same rfl rfl le_rfl rfl fun v writer => ⟨v, writer, rfl⟩
  unfold WALManager.updateTransactionState
  dsimp only
  split <;> try split
  all_goals first | exact careful | exact kept _

theorem Careful.writeToFile (careful : m.Careful) (faults : RecordFaults) {r : WALRecord}
    (fits : r.Fits) : (m.writeToFile faults r).2.Careful := by
  unfold WALManager.writeToFile
  split
  · exact careful
  rename_i positive
  have first := careful.updateTransactionState r
  generalize m.updateTransactionState r = result at first ⊢
  obtain ⟨status, m⟩ := result
  dsimp only at first ⊢
  split
  · exact first
  have second := first.append faults.append fits positive
  generalize m.append faults.append r = result at second ⊢
  obtain ⟨status, m⟩ := result
  dsimp only at second ⊢
  split
  · exact second
  split
  · have third := second.syncWriter faults.sync
    split
    · exact third.same rfl rfl le_rfl rfl fun v writer => ⟨v, writer, rfl⟩
    · exact third
  · exact second.same rfl rfl le_rfl rfl fun v writer => ⟨v, writer, rfl⟩

theorem Careful.writeRecordInternal (careful : m.Careful) (faults : RecordFaults) {r : WALRecord}
    (fits : r.Fits) : (m.writeRecordInternal faults r).2.Careful := by
  unfold WALManager.writeRecordInternal
  split
  · exact careful
  rename_i started
  rw [Bool.not_eq_true, Bool.not_eq_false] at started
  have first : (if m.writer.isNone then m.createNewWALFile faults.missing else (.ok, m)).2.Careful ∧
      (if m.writer.isNone then m.createNewWALFile faults.missing else (.ok, m)).2.initialized := by
    split
    · exact ⟨careful.createNewWALFile (.inl started) faults.missing,
        (createNewWALFile_initialized ..).trans started⟩
    · exact ⟨careful, started⟩
  generalize (if m.writer.isNone then m.createNewWALFile faults.missing else (.ok, m)) = result
    at first ⊢
  obtain ⟨status, m⟩ := result
  dsimp only at first ⊢
  split
  · exact first.1
  have second : (if m.shouldSwitchWAL then m.switchToNewWAL faults.switching else (.ok, m)).2.Careful := by
    split
    · exact (first.1.archiveCurrentWAL faults.switching).createNewWALFile
        (.inl ((archiveCurrentWAL_initialized ..).trans first.2)) faults.switching
    · exact first.1
  generalize (if m.shouldSwitchWAL then m.switchToNewWAL faults.switching else (.ok, m)) = result
    at second ⊢
  obtain ⟨status, m⟩ := result
  dsimp only at second ⊢
  split
  · exact second
  · exact second.writeToFile faults fits

theorem Careful.begins (careful : m.Careful) : { m with trail := [] }.Careful where
  valid := careful.valid
  passed := List.forall_mem_nil _
  spares := List.forall_mem_nil _
  next := careful.next
  current := careful.current

theorem Careful.step {action : WALAction} (careful : m.Careful)
    (stepped : m.step action = some m') : m'.Careful := by
  unfold WALManager.step at stepped
  cases action with
  | write r faults =>
      dsimp only at stepped
      split at stepped <;> [rename_i fits; cases stepped]
      cases stepped
      exact careful.begins.writeRecordInternal faults fits
  | sync fails =>
      cases stepped
      exact careful.begins.syncWriter fails
  | archive faults =>
      cases stepped
      exact careful.begins.archiveCurrentWAL faults
  | setMaxWALSize size | setSyncOnWrite syncOnWrite =>
      cases stepped
      exact careful.begins.same rfl rfl le_rfl rfl fun v writer => ⟨v, writer, rfl⟩

/-! ## The start of a session -/

theorem mem_syncWriter {fails : Bool} {f : LogFile} (member : f ∈ (m.syncWriter fails).2.disk) :
    ∃ g ∈ m.disk, f = { g with synced := f.synced } := by
  unfold WALManager.syncWriter at member
  split at member
  · exact ⟨f, member, rfl⟩
  split at member
  · exact ⟨f, member, rfl⟩
  split at member
  · exact ⟨f, member, rfl⟩
  · obtain ⟨g, inside, same⟩ := WALDisk.mem_update.mp member
    refine ⟨g, inside, ?_⟩
    split at same <;> rw [same]

theorem Sparing.syncWriter (sparing : m.Sparing) (fails : Bool) :
    (m.syncWriter fails).2.Sparing := by
  have valid : AllValid (m.syncWriter fails).2.disk := by
    intro f member
    obtain ⟨g, inside, same⟩ := mem_syncWriter member
    rw [same]
    exact sparing.valid g inside
  revert valid
  unfold WALManager.syncWriter
  split
  · exact fun _ => sparing
  split
  · exact fun _ => sparing
  split
  · exact fun _ => sparing
  · exact fun valid => sparing.change valid fun _ _ aimed => False.elim aimed

theorem Sparing.createNewWALFile (sparing : m.Sparing)
    (fresh : ∀ f ∈ m.disk, ¬ f.Is false m.nextFileNumber) (faults : FileFaults) :
    (m.createNewWALFile faults).2.Sparing ∧
      (AllReplayed m.disk → AllReplayed (m.createNewWALFile faults).2.disk) ∧
      ∀ w ∈ (m.createNewWALFile faults).2.writer,
        w.number < (m.createNewWALFile faults).2.nextFileNumber := by
  have synced := sparing.syncWriter faults.closingSync
  have frame := syncWriter_frame m faults.closingSync
  have kept : ∀ f ∈ (m.syncWriter faults.closingSync).2.disk, _ := fun _ member =>
    mem_syncWriter member
  unfold WALManager.createNewWALFile
  generalize m.syncWriter faults.closingSync = result at synced frame kept ⊢
  obtain ⟨status, m'⟩ := result
  dsimp only at synced frame kept ⊢
  have replayed (all : AllReplayed m.disk) : AllReplayed m'.disk := by
    intro f member
    obtain ⟨g, inside, same⟩ := kept f member
    rw [same]
    exact all g inside
  split
  · exact ⟨synced.same rfl rfl, replayed, nofun⟩
  refine ⟨Sparing.same (m := m'.change (.create m'.nextFileNumber)
    (m'.disk.create m'.nextFileNumber)) ?_ rfl rfl, fun all f member => ?_, ?_⟩
  · apply synced.change
    · intro f member
      rcases WALDisk.mem_create member with old | rfl
      · exact synced.valid f old
      · exact List.forall_mem_nil _
    · intro f member named
      obtain ⟨g, inside, same⟩ := kept f member
      rw [same, frame.1] at named
      exact absurd named (fresh g inside)
  · rcases WALDisk.mem_create member with old | rfl
    · exact replayed all f old
    · exact Nat.lt_irrefl _
  · rintro w ⟨⟩
    exact Nat.lt_succ_self _

theorem removeReplayed_eq (m : WALManager) (stays : LogFile → Bool) (files : List LogFile) :
    ∃ disk trail, m.removeReplayed stays files = { m with disk := disk, trail := trail } ∧
      ∀ f ∈ disk, f ∈ m.disk := by
  induction files generalizing m with
  | nil => exact ⟨m.disk, m.trail, rfl, fun _ member => member⟩
  | cons g rest ih =>
      rw [removeReplayed]
      split
      · exact ih m
      · obtain ⟨disk, trail, same, kept⟩ :=
          ih (m.change (.remove g.archived g.number) (m.disk.remove g.archived g.number))
        exact ⟨disk, trail, same, fun f member => List.mem_of_mem_filter (kept f member)⟩

theorem Sparing.removeReplayed (sparing : m.Sparing) (stays : LogFile → Bool) {files : List LogFile}
    (replayed : ∀ g ∈ files, ∀ f ∈ m.disk, f.Is g.archived g.number → ¬ f.Unreplayed) :
    (m.removeReplayed stays files).Sparing := by
  induction files generalizing m with
  | nil => exact sparing
  | cons g rest ih =>
      obtain ⟨here, later⟩ := List.forall_mem_cons.mp replayed
      rw [WALManager.removeReplayed]
      split
      · exact ih sparing later
      · apply ih
        · exact sparing.change (fun f member => sparing.valid f (List.mem_of_mem_filter member)) here
        · exact fun g' listed f member => later g' listed f (List.mem_of_mem_filter member)

theorem mem_flush {d : WALDisk} {files : List LogFile} {f : LogFile} (member : f ∈ d.flush files) :
    (∀ g ∈ files, ¬ f.Is g.archived g.number) ∧ f ∈ d ∨
      ¬ f.Unreplayed ∧ ∃ g ∈ d, f.records = g.records := by
  obtain ⟨g, inside, rfl⟩ := List.mem_map.mp member
  split
  · exact .inr ⟨Nat.lt_irrefl _, g, inside, rfl⟩
  · rename_i unlisted
    refine .inl ⟨fun other listed named => unlisted ?_, inside⟩
    exact List.any_eq_true.mpr ⟨other, listed, decide_eq_true named⟩

variable {cmp : Comparator} {options : LSMTreeOptions}

theorem Sparing.flushReplayed (sparing : m.Sparing) (recovery : Recovery cmp) :
    (m.flushReplayed cmp recovery).Sparing := by
  have flushed : (m.change .flush (m.disk.flush m.disk.walFiles)).Sparing := by
    apply sparing.change
    · intro f member
      rcases mem_flush member with ⟨-, old⟩ | ⟨-, g, inside, same⟩
      · exact sparing.valid f old
      · rw [same]
        exact sparing.valid g inside
    · exact fun _ _ aimed => False.elim aimed
  exact flushed.same rfl rfl

theorem Sparing.recoverLogs (sparing : m.Sparing) (tree : FreshTables) (stays : LogFile → Bool) :
    (m.recoverLogs cmp options tree stays).2.Sparing ∧
      (AllReplayed m.disk → AllReplayed (m.recoverLogs cmp options tree stays).2.disk) ∧
      (m.recoverLogs cmp options tree stays).2.writer = m.writer ∧
      (m.recoverLogs cmp options tree stays).2.nextFileNumber = m.nextFileNumber := by
  unfold WALManager.recoverLogs
  split
  · exact ⟨sparing, id, rfl, rfl⟩
  rename_i recovery _ _
  obtain ⟨d, trail, same, kept⟩ :=
    removeReplayed_eq (m.flushReplayed cmp recovery) stays m.disk.walFiles
  refine ⟨(sparing.flushReplayed recovery).removeReplayed stays ?_, fun all f member => ?_, ?_, ?_⟩
  · intro g listed f member named
    rcases mem_flush member with ⟨unlisted, -⟩ | ⟨done, -⟩
    · exact absurd named (unlisted g listed)
    · exact done
  · rw [same] at member
    rcases mem_flush (kept f member) with ⟨-, old⟩ | ⟨done, -⟩
    · exact all f old
    · exact done
  · rw [same]
    rfl
  · rw [same]
    rfl

/-- Recovery of whole files that it can read and flush leaves nothing unreplayed. -/
theorem recoverLogs_ok (valid : AllValid m.disk) (tree : FreshTables) (stays : LogFile → Bool)
    (listed : ∀ f ∈ m.disk, f.Unreplayed → f ∈ m.disk.walFiles)
    (readable : ∀ r ∈ m.disk.walFiles.flatMap (·.records), r.Readable)
    (replayable : Replayable (m.disk.walFiles.flatMap (·.records)))
    (ordered : FlushOrdered cmp options.memtable (m.disk.walFiles.flatMap (·.records))) :
    (m.recoverLogs cmp options tree stays).1 = .ok ∧
      (m.recoverLogs cmp options tree stays).2.replayed = m.disk.walFiles.flatMap (·.records) ∧
      AllReplayed (m.recoverLogs cmp options tree stays).2.disk := by
  have validFiles : ∀ r ∈ m.disk.walFiles.flatMap (·.records), r.Valid := by
    intro r member
    obtain ⟨f, inside, here⟩ := List.mem_flatMap.mp member
    exact valid f (Ranks.mem_sorted.mp (List.mem_of_mem_take inside)) r here
  obtain ⟨⟨recovery, sstables⟩, recovered, applied, -⟩ :=
    (@recoversWhole_iff cmp options _ tree.property _ validFiles).mpr ⟨readable, replayable, ordered⟩
  obtain ⟨d, trail, same, kept⟩ :=
    removeReplayed_eq (m.flushReplayed cmp recovery) stays m.disk.walFiles
  rw [WALManager.recoverLogs, recovered]
  dsimp only
  rw [same]
  refine ⟨rfl, applied, fun f member => ?_⟩
  rcases mem_flush (kept f member) with ⟨unlisted, old⟩ | ⟨done, -⟩
  · exact fun unreplayed => unlisted f (listed f old unreplayed) ⟨rfl, rfl⟩
  · exact done

def recoveredFiles (m : WALManager) : List LogFile :=
  (m.disk.create (m.disk.maxFileNumber + 1)).walFiles

/-- A new manager enters recovery, reads every file with something to replay, and can replay it. -/
structure Reopens (cmp : Comparator) (options : LSMTreeOptions) (m : WALManager)
    (faults : FileFaults) : Prop where
  new : m.writer = none
  creates : faults.create = false
  found : m.disk.maxFileNumber ≠ 0
  listed : ∀ f ∈ m.disk, f.Unreplayed → f ∈ m.recoveredFiles
  readable : ∀ r ∈ m.recoveredFiles.flatMap (·.records), r.Readable
  replayable : Replayable (m.recoveredFiles.flatMap (·.records))
  ordered : FlushOrdered cmp options.memtable (m.recoveredFiles.flatMap (·.records))

variable {tree : FreshTables} {faults : FileFaults} {stays : LogFile → Bool}

theorem Sparing.started (sparing : m.Sparing) (faults : FileFaults) :
    (m.scanned.createNewWALFile faults).2.Sparing ∧
      (AllReplayed m.disk → AllReplayed (m.scanned.createNewWALFile faults).2.disk) ∧
      ∀ w ∈ (m.scanned.createNewWALFile faults).2.writer,
        w.number < (m.scanned.createNewWALFile faults).2.nextFileNumber := by
  have scanned : m.scanned.Sparing := sparing.same rfl rfl
  apply scanned.createNewWALFile
  rintro f member ⟨active, number⟩
  exact absurd number (Nat.lt_succ_of_le (WALDisk.le_maxFileNumber member active)).ne

theorem Sparing.initializeWAL (sparing : m.Sparing) :
    (m.initializeWAL cmp options tree faults stays).2.Sparing ∧
      (m.initialized = false → AllReplayed m.disk →
        (m.initializeWAL cmp options tree faults stays).2.Careful) := by
  have created := sparing.started faults
  unfold WALManager.initializeWAL
  split
  · rename_i started
    exact ⟨sparing, fun closed => absurd (closed.symm.trans started) nofun⟩
  dsimp only
  generalize m.scanned.createNewWALFile faults = result at created ⊢
  obtain ⟨status, m₁⟩ := result
  dsimp only at created ⊢
  obtain ⟨sparing₁, replayed, current⟩ := created
  split
  · exact ⟨sparing₁, fun _ all => sparing₁.careful (replayed all) current⟩
  split
  · have started : { m₁ with initialized := true }.Sparing := sparing₁.same rfl rfl
    exact ⟨started, fun _ all => started.careful (replayed all) current⟩
  obtain ⟨sparing₂, replayed₂, writer, counter⟩ := @Sparing.recoverLogs _ cmp options sparing₁ tree stays
  generalize m₁.recoverLogs cmp options tree stays = result at sparing₂ replayed₂ writer counter ⊢
  obtain ⟨status, m₂⟩ := result
  dsimp only at sparing₂ replayed₂ writer counter ⊢
  rw [← writer, ← counter] at current
  split
  · have started : { m₂ with initialized := true }.Sparing := sparing₂.same rfl rfl
    exact ⟨started, fun _ all => started.careful (replayed₂ (replayed all)) current⟩
  · exact ⟨sparing₂, fun _ all => sparing₂.careful (replayed₂ (replayed all)) current⟩

theorem Reopens.replays (reopens : Reopens cmp options m faults) (sparing : m.Sparing)
    (closed : m.initialized = false) :
    (m.initializeWAL cmp options tree faults stays).2.Careful ∧
      Replays m (m.initializeWAL cmp options tree faults stays).2 := by
  obtain ⟨sparing₁, -, current⟩ := sparing.started faults
  have created : (m.scanned.createNewWALFile faults).1 = .ok ∧
      (m.scanned.createNewWALFile faults).2.disk = m.disk.create (m.disk.maxFileNumber + 1) := by
    have unsynced : m.scanned.syncWriter faults.closingSync =
        (.invalidArgument "No active WAL writer", m.scanned) := by
      rw [WALManager.syncWriter, show m.scanned.writer = none from reopens.new]
    rw [WALManager.createNewWALFile, unsynced]
    dsimp only
    rw [reopens.creates]
    exact ⟨rfl, rfl⟩
  unfold WALManager.initializeWAL
  rw [if_neg (by simp [closed])]
  dsimp only
  generalize m.scanned.createNewWALFile faults = result at sparing₁ current created ⊢
  obtain ⟨status, m₁⟩ := result
  dsimp only at sparing₁ current created ⊢
  obtain ⟨rfl, disk⟩ := created
  have files : m₁.disk.walFiles = m.recoveredFiles := by rw [disk, recoveredFiles]
  have listed : ∀ f ∈ m₁.disk, f.Unreplayed → f ∈ m₁.disk.walFiles := by
    intro f member unreplayed
    rw [files]
    rw [disk] at member
    rcases WALDisk.mem_create member with old | rfl
    · exact reopens.listed f old unreplayed
    · exact absurd unreplayed (Nat.lt_irrefl _)
  obtain ⟨ok, applied, replayed⟩ := @recoverLogs_ok _ cmp options sparing₁.valid tree stays listed
    (files ▸ reopens.readable) (files ▸ reopens.replayable) (files ▸ reopens.ordered)
  obtain ⟨sparing₂, -, writer, counter⟩ := @Sparing.recoverLogs _ cmp options sparing₁ tree stays
  generalize m₁.recoverLogs cmp options tree stays = result
    at ok applied replayed sparing₂ writer counter ⊢
  obtain ⟨status, m₂⟩ := result
  dsimp only at ok applied replayed sparing₂ writer counter ⊢
  subst ok
  rw [← writer, ← counter] at current
  rw [if_neg (by decide), if_neg reopens.found, if_pos (by decide)]
  have started : { m₂ with initialized := true }.Sparing := sparing₂.same rfl rfl
  refine ⟨started.careful replayed current, fun f member pending => ?_⟩
  have unreplayed : f.Unreplayed := by
    by_contra done
    apply pending
    rw [LogFile.pending, List.drop_eq_nil_iff, List.length_take]
    exact (Nat.min_le_right _ _).trans (Nat.le_of_not_lt done)
  obtain ⟨before, after, parts⟩ := List.append_of_mem (reopens.listed f member unreplayed)
  refine ⟨before.flatMap (·.records), after.flatMap (·.records), ?_⟩
  dsimp only
  rw [applied, files, parts]
  simp

/-- A session is started only when all is replayed, or it can replay what there is. -/
def Startable (cmp : Comparator) (options : LSMTreeOptions) (m : WALManager) : SessionCall → Prop
  | .complete (.initializeWAL _ faults _) =>
      AllReplayed m.disk ∨ Reopens cmp options m faults
  | _ => True

theorem AllReplayed.pending {d : WALDisk} (all : AllReplayed d) {f : LogFile} (member : f ∈ d) :
    f.pending = [] := by
  rw [LogFile.pending, List.drop_eq_nil_iff, List.length_take]
  exact (Nat.min_le_right _ _).trans (Nat.le_of_not_lt (all f member))

theorem Careful.shutdown (careful : m.Careful) (fails : Bool) : (m.shutdown fails).Careful := by
  have synced := careful.syncWriter fails
  exact { synced.toSparing.same rfl rfl with
    next := nofun
    current := nofun }

theorem Careful.call {c : WALCall} (careful : m.Careful)
    (startable : Startable cmp options m (.complete c)) (called : m.call cmp options c = some m') :
    m'.Careful := by
  cases c with
  | client action => exact careful.step called
  | shutdown fails =>
      cases called
      exact careful.begins.shutdown fails
  | initializeWAL tree faults stays =>
      cases called
      by_cases closed : m.initialized = false
      · rcases startable with all | reopens
        · exact careful.begins.toSparing.initializeWAL.2 closed all
        · have reopens' : Reopens cmp options { m with trail := [] } faults :=
            ⟨reopens.new, reopens.creates, reopens.found, reopens.listed, reopens.readable,
              reopens.replayable, reopens.ordered⟩
          exact (reopens'.replays careful.begins.toSparing closed).1
      · rw [Bool.not_eq_false] at closed
        rw [WALManager.initializeWAL, if_pos closed]
        exact careful.begins

theorem crashed_careful (sparing : m.Sparing) (taken : Nat) (kept : Nat → Nat) :
    (m.crashed taken kept).Careful := by
  have valid : AllValid (m.diskAfter taken) := by
    unfold diskAfter
    cases point : (m.trail.map Prod.fst)[taken]? with
    | none => exact sparing.valid
    | some d =>
        obtain ⟨entry, listed, rfl⟩ := List.mem_map.mp (List.mem_of_getElem? point)
        exact sparing.passed entry listed
  refine ⟨⟨?_, List.forall_mem_nil _, List.forall_mem_nil _⟩, ?_, nofun⟩
  · intro f member
    obtain ⟨g, inside, rfl⟩ := List.mem_map.mp member
    exact fun r here => valid g inside r (List.mem_of_mem_take here)
  · exact fun live => absurd live (by simp [crashed])

theorem Careful.sparing {c : WALCall} (careful : m.Careful)
    (called : m.call cmp options c = some m') : m'.Sparing := by
  cases c with
  | client action => exact (careful.step called).toSparing
  | shutdown fails =>
      cases called
      exact (careful.begins.shutdown fails).toSparing
  | initializeWAL tree faults stays =>
      cases called
      exact careful.begins.toSparing.initializeWAL.1

theorem Careful.sessionStep {c : SessionCall} (careful : m.Careful)
    (startable : Startable cmp options m c) (stepped : m.sessionStep cmp options c = some m') :
    m'.Careful := by
  cases c with
  | complete c => exact careful.call startable stepped
  | crash c taken kept =>
      obtain ⟨ended, called, rfl⟩ := Option.map_eq_some_iff.mp stepped
      exact crashed_careful (careful.sparing called) taken kept

theorem careful_new : ({} : WALManager).Careful :=
  ⟨⟨List.forall_mem_nil _, List.forall_mem_nil _, List.forall_mem_nil _⟩, fun _ => List.forall_mem_nil _,
    nofun⟩

/-- In every run whose sessions start only when they can replay what they find, no step is aimed at a
file with unreplayed records, and every session replays what was synced and not yet flushed. -/
theorem keeps_of_startable {m : WALManager}
    (run : Run (sessionStep cmp options) (Startable cmp options) {} m) {c : SessionCall}
    (startable : Startable cmp options m c) : Keeps cmp options m c := by
  have careful : m.Careful :=
    Run.invariant (fun _ _ _ allowed stepped careful => careful.sessionStep allowed stepped) run
      careful_new
  cases c with
  | crash c taken kept => exact fun m' called => (careful.sparing called).spares
  | complete c =>
      cases c with
      | client action => exact fun m' called => (careful.sparing called).spares
      | shutdown fails => exact fun m' called => (careful.sparing called).spares
      | initializeWAL tree faults stays =>
          intro m' called
          refine ⟨(careful.sparing called).spares, fun closed => ?_⟩
          cases called
          rcases startable with all | reopens
          · exact fun f member pending => absurd (all.pending member) pending
          · have reopens' : Reopens cmp options { m with trail := [] } faults :=
              ⟨reopens.new, reopens.creates, reopens.found, reopens.listed, reopens.readable,
                reopens.replayable, reopens.ordered⟩
            exact (reopens'.replays careful.begins.toSparing closed).2

/-- A session with one synced write, which dies in the second write after `taken` steps. -/
def rotating (taken : Nat) : List SessionCall :=
  [.complete (.initializeWAL ⟨.new, SSTableManager.fresh_new⟩ {} fun _ => false),
    .complete (.client (.setSyncOnWrite true)), .complete (.client (.setMaxWALSize 39)),
    .complete (.client (.write (.ofWrite 0 [107] 1 (some [1])) {})),
    .crash (.client (.write (.ofWrite 0 [107] 2 none) {})) taken fun _ => 0]

theorem keeps_afterCreation :
    ∃ m, execute (sessionStep bytewiseComparator {}) {} (rotating 3) = some m ∧
      Keeps bytewiseComparator {} m
        (.complete (.initializeWAL ⟨.new, SSTableManager.fresh_new⟩ {} fun _ => false)) := by
  have holds : (execute (sessionStep bytewiseComparator {}) {} (rotating 3)).any fun m =>
      decide (m.writer = none ∧ m.disk.maxFileNumber ≠ 0 ∧
        (∀ f ∈ m.disk, f.Unreplayed → f ∈ m.recoveredFiles) ∧
        (∀ r ∈ m.recoveredFiles.flatMap (·.records), r.Readable) ∧
        Replayable (m.recoveredFiles.flatMap (·.records))) := by decide +kernel
  obtain ⟨m, executed, holds⟩ := Option.any_eq_true _ _ |>.mp holds
  obtain ⟨new, found, listed, readable, replayable⟩ := of_decide_eq_true holds
  have allowed : Allowed (sessionStep bytewiseComparator {}) (Startable bytewiseComparator {}) {}
      (rotating 3) :=
    ⟨.inl (List.forall_mem_nil _), fun _ _ => ⟨trivial, fun _ _ => ⟨trivial, fun _ _ =>
      ⟨trivial, fun _ _ => ⟨trivial, fun _ _ => trivial⟩⟩⟩⟩⟩
  exact ⟨m, executed, keeps_of_startable (execute_run _ allowed executed) (.inr
    ⟨new, rfl, found, listed, readable, replayable, flushOrdered_bytewise _ _⟩)⟩

theorem keeps_not_afterRename :
    ¬ ∀ (m : WALManager) (c : SessionCall),
      Run (sessionStep bytewiseComparator {}) free {} m → Keeps bytewiseComparator {} m c := by
  intro always
  have wrong : (execute (sessionStep bytewiseComparator {}) {} (rotating 2)).any fun m =>
      (m.call bytewiseComparator {}
        (.initializeWAL ⟨.new, SSTableManager.fresh_new⟩ {} fun _ => false)).any fun m' =>
          decide (m.initialized = false ∧ ¬ Replays m m') := by decide +kernel
  obtain ⟨m, executed, wrong⟩ := Option.any_eq_true _ _ |>.mp wrong
  obtain ⟨m', called, wrong⟩ := Option.any_eq_true _ _ |>.mp wrong
  obtain ⟨closed, lost⟩ := of_decide_eq_true wrong
  have run := execute_run _ (allowed_free _ _ _) executed
  exact lost ((always m (.complete (.initializeWAL _ _ _)) run m' called).2 closed)

end WALManager
end Lrdb
