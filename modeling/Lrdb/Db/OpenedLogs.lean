import Lrdb.Db.SequenceRestore
import Lrdb.Storage.FlushAll
import Lrdb.Wal.Rotation

/-!
# The log files as the manager opens them

The recovery of a family is that of its log manager on the bytes of the files: both read the same files,
put the same records into the tree and find the same sequence.
-/

namespace Lrdb
open Frames

namespace Disk
variable {cmp : Comparator} {options : LSMTreeOptions} {d : Disk} {order : List Nat}
  {st : ReplayState cmp} {sstables : SSTableManager}

/-- The tables as `LoadExistingSSTables` leaves them to the recovery. -/
def tree (cmp : Comparator) (d : Disk) (order : List Nat) : FreshTables :=
  ⟨d.sstables.loadExistingSSTables cmp order, LSMTree.fresh_load ..⟩

theorem recoverFromWAL_read (valid : ∀ r ∈ d.replayed.flatten, r.Valid)
    (readable : ∀ r ∈ d.replayed.flatten, r.Readable)
    (recovered : d.recover cmp options order = .ok (st, sstables)) :
    recoverFromWAL options (d.tree cmp order).val (d.read.map LogFile.content) =
      .ok (⟨st, d.replayed.flatten⟩, sstables) := by
  have contents : d.read.map LogFile.content = d.replayed.map (stream WALRecord.frame) ++ [] := by
    rw [List.append_nil, replayed, WALDisk.logs, List.map_map]
    rfl
  unfold recover at recovered
  rcases Recovery.files_whole options.memtable (⟨.new options.memtable, []⟩ : Recovery cmp) valid
    readable [] with ⟨status, failed, -⟩ | ⟨state, replays, ends⟩
  · simp only [failed, bind, Except.bind] at recovered
    cases recovered
  · simp only [replays, bind, Except.bind] at recovered
    split at recovered <;> [rename_i success; cases recovered]
    obtain ⟨rfl, rfl⟩ := Prod.mk.inj (Except.ok.inj recovered)
    rw [recoverFromWAL, contents, ends]
    exact if_pos success

theorem initializeWAL_recovers {m : WALManager} (closed : m.initialized = false)
    (new : m.writer = none) (unset : m.lastSequence = 0) (files : m.disk = d.files)
    (valid : ∀ r ∈ d.replayed.flatten, r.Valid) (readable : ∀ r ∈ d.replayed.flatten, r.Readable)
    (recovered : d.recover cmp options order = .ok (st, sstables)) (stays : LogFile → Bool) :
    ∃ m', m.initializeWAL cmp options (d.tree cmp order) {} stays = (.ok, m') ∧
      m'.initialized = true ∧ m'.replayed = d.replayed.flatten ∧ m'.lastSequence = st.maxSequence ∧
      m'.nextFileNumber = d.files.nextNumber + 1 ∧
      (d.files.maxFileNumber = 0 → m'.disk = d.files.create d.files.nextNumber) := by
  have sequence : st.maxSequence = greatestSequence d.replayed := (recover_ok recovered).1
  have created : ∃ m₁, m.scanned.createNewWALFile {} = (.ok, m₁) ∧
      m₁.disk = d.files.create d.files.nextNumber ∧ m₁.nextFileNumber = d.files.nextNumber + 1 ∧
      m₁.replayed = [] ∧ m₁.lastSequence = 0 := by
    have unsynced : m.scanned.syncWriter false =
        (.invalidArgument "No active WAL writer", m.scanned) := by
      rw [WALManager.syncWriter, show m.scanned.writer = none from new]
    rw [WALManager.createNewWALFile, unsynced]
    refine ⟨_, rfl, ?_, ?_, rfl, unset⟩
    · exact congrArg (fun d : WALDisk => d.create d.nextNumber) files
    · exact congrArg (fun d : WALDisk => d.nextNumber + 1) files
  obtain ⟨m₁, creates, disk, next, nothing, zero⟩ := created
  unfold WALManager.initializeWAL
  rw [if_neg (by simp [closed]), creates]
  dsimp only
  rw [if_neg (by decide), files]
  by_cases none : d.files.maxFileNumber = 0
  · have unread : d.replayed = [] := by simp [replayed, read, none, WALDisk.logs]
    rw [if_pos none, unread]
    refine ⟨_, rfl, rfl, nothing, ?_, next, fun _ => disk⟩
    rw [sequence, unread]
    exact zero
  · have listed : m₁.disk.walFiles = d.read := by
      rw [disk, read, if_neg none]
      rfl
    have replays := recoverFromWAL_read valid readable recovered
    rw [← listed] at replays
    rw [if_neg none, WALManager.recoverLogs, replays]
    dsimp only
    obtain ⟨left, trail, removed, -⟩ := WALManager.removeReplayed_eq
      (m₁.flushReplayed cmp ⟨st, d.replayed.flatten⟩) stays m₁.disk.walFiles
    rw [removed]
    refine ⟨_, rfl, rfl, rfl, ?_, next, fun found => absurd found none⟩
    show (if 0 < st.maxSequence then st.maxSequence else m₁.lastSequence) = st.maxSequence
    split
    · rfl
    · rename_i none
      rw [zero, Nat.eq_zero_of_not_pos none]

end Disk
end Lrdb
