import Lrdb.Base.Frames
import Lrdb.Wal.Manager

namespace Lrdb
open Frames

namespace LogFile

theorem isDigit_of_mem_padded {n : Nat} {c : Char} (member : c ∈ (Nat.toDigits 10 n).leftpad 6 '0') :
    c.isDigit := by
  rw [List.leftpad, List.mem_append] at member
  rcases member with zero | digit
  · rw [List.eq_of_mem_replicate zero]
    rfl
  · exact Nat.isDigit_of_mem_toDigits (by decide) (by decide) digit

theorem parse_fileName (n : Nat) : parse (fileName n) = n := by
  have stem : (fileName n).take ((fileName n).length - 4) = (Nat.toDigits 10 n).leftpad 6 '0' := by
    apply List.take_left'
    rw [fileName, List.length_append]
    rfl
  rw [parse, stem, List.leftpad, Nat.ofDigitChars_append, Nat.ofDigitChars_replicate_zero,
    Nat.mul_zero, Nat.ofDigitChars_ten_toDigits]

theorem number_eq_of_path {f g : LogFile} (same : f.path = g.path) :
    f.archived = g.archived ∧ f.number = g.number := by
  have digit (n : Nat) : ∃ c rest, fileName n = c :: rest ∧ c.isDigit := by
    cases padded : (Nat.toDigits 10 n).leftpad 6 '0' with
    | nil =>
        have length := congrArg List.length padded
        simp [List.leftpad] at length
    | cons c rest =>
        refine ⟨c, rest ++ ".wal".toList, by rw [fileName, padded]; rfl, ?_⟩
        apply isDigit_of_mem_padded (n := n)
        rw [padded]
        exact List.mem_cons_self
  have name {a b : Nat} (names : fileName a = fileName b) : a = b := by
    rw [← parse_fileName a, names, parse_fileName]
  rw [path, path, List.append_assoc, List.append_assoc, List.append_cancel_left_eq] at same
  cases first : f.archived <;> cases second : g.archived
  · simp only [first, second, Bool.false_eq_true, if_false, List.nil_append] at same
    exact ⟨rfl, name same⟩
  · obtain ⟨c, rest, named, isDigit⟩ := digit f.number
    simp only [first, second, Bool.false_eq_true, if_false, if_true, List.nil_append, named] at same
    rw [(List.cons.inj same).1] at isDigit
    cases isDigit
  · obtain ⟨c, rest, named, isDigit⟩ := digit g.number
    simp only [first, second, Bool.false_eq_true, if_false, if_true, List.nil_append, named] at same
    rw [← (List.cons.inj same).1] at isDigit
    cases isDigit
  · simp only [first, second, if_true, List.append_cancel_left_eq] at same
    exact ⟨rfl, name same⟩

def numbered (f : LogFile) : List (Nat × WALRecord) := f.records.map (f.number, ·)

def content (f : LogFile) : Bytes := stream WALRecord.frame f.records

end LogFile

namespace WALDisk

theorem apart_of_ascending {earlier : List LogFile} {last : LogFile}
    (ascending : (earlier ++ [last]).Pairwise fun f g => f.number < g.number) {f : LogFile}
    (member : f ∈ earlier) (archived : Bool) : ¬ f.Is archived last.number := by
  rintro ⟨-, same⟩
  have less := (List.pairwise_append.mp ascending).2.2 f member last (List.mem_singleton_self last)
  exact absurd same less.ne

theorem update_last {earlier : List LogFile} {last : LogFile}
    (ascending : (earlier ++ [last]).Pairwise fun f g => f.number < g.number)
    (active : last.archived = false) (change : LogFile → LogFile) :
    update (earlier ++ [last]) last.number change = earlier ++ [change last] := by
  have unchanged : earlier.map (fun f => if f.Is false last.number then change f else f) = earlier := by
    apply (List.map_congr_left _).trans (List.map_id _)
    intro f member
    rw [if_neg (apart_of_ascending ascending member false), id]
  rw [update, List.map_append, unchanged, List.map_singleton, if_pos ⟨active, rfl⟩]

theorem archive_last {earlier : List LogFile} {last : LogFile}
    (ascending : (earlier ++ [last]).Pairwise fun f g => f.number < g.number)
    (active : last.archived = false) :
    archive (earlier ++ [last]) last.number = earlier ++ [{ last with archived := true }] := by
  have kept : (earlier ++ [last]).filter (fun f => ¬ f.Is true last.number) = earlier ++ [last] := by
    apply List.filter_eq_self.mpr
    intro f member
    rw [decide_eq_true_eq]
    rcases List.mem_append.mp member with before | here
    · exact apart_of_ascending ascending before true
    · obtain rfl := List.mem_singleton.mp here
      exact fun named => Bool.noConfusion (active.symm.trans named.1)
  rw [archive, kept, update_last ascending active]

end WALDisk

namespace WALManager

structure Consecutive (m : WALManager) : Prop where
  ascending : m.disk.Pairwise fun f g => f.number < g.number
  below : ∀ f ∈ m.disk, f.number < m.nextFileNumber
  current : ∀ w ∈ m.writer, ∃ earlier last,
    m.disk = earlier ++ [last] ∧ last.archived = false ∧ last.number = w.number
  written : m.written = m.disk.flatMap LogFile.numbered
  valid : ∀ f ∈ m.disk, ∀ r ∈ f.records, r.Valid

def opened (number : Nat) : WALManager :=
  { disk := [{ number := number }], nextFileNumber := number + 1, initialized := true,
    writer := some { number := number } }

theorem consecutive_opened (number : Nat) : (opened number).Consecutive where
  ascending := List.pairwise_singleton ..
  below := by simp [opened]
  current := by
    rintro w ⟨⟩
    exact ⟨[], _, rfl, rfl, rfl⟩
  written := rfl
  valid := by simp [opened]

variable {m m' : WALManager}

theorem Consecutive.replace (ordered : m.Consecutive) {earlier : List LogFile} {last last' : LogFile}
    (before : m.disk = earlier ++ [last]) (after : m'.disk = earlier ++ [last'])
    (number : last'.number = last.number) {more : List WALRecord}
    (records : last'.records = last.records ++ more) (valid : ∀ r ∈ more, r.Valid)
    (written : m'.written = m.written ++ more.map (last.number, ·))
    (next : m'.nextFileNumber = m.nextFileNumber)
    (current : ∀ w ∈ m'.writer, last'.archived = false ∧ last'.number = w.number) :
    m'.Consecutive := by
  obtain ⟨ascending, below, -, logged, validBefore⟩ := ordered
  rw [before] at ascending below logged validBefore
  obtain ⟨validEarlier, validLast⟩ := List.forall_mem_append.mp validBefore
  obtain ⟨belowEarlier, belowLast⟩ := List.forall_mem_append.mp below
  have numberLast := belowLast last (List.mem_singleton_self last)
  rw [List.pairwise_append] at ascending
  constructor
  · rw [after, List.pairwise_append]
    refine ⟨ascending.1, List.pairwise_singleton .., ?_⟩
    intro f member g here
    rw [List.mem_singleton.mp here, number]
    exact ascending.2.2 f member last (List.mem_singleton_self last)
  · rw [after, next]
    refine List.forall_mem_append.mpr ⟨belowEarlier, ?_⟩
    simpa [number] using numberLast
  · intro w writer
    exact ⟨earlier, last', after, current w writer⟩
  · rw [written, logged, after]
    simp [LogFile.numbered, number, records]
  · rw [after]
    refine List.forall_mem_append.mpr ⟨validEarlier, ?_⟩
    have validHere := validLast last (List.mem_singleton_self last)
    simpa [records, or_imp, forall_and] using ⟨validHere, valid⟩

theorem Consecutive.syncWriter (ordered : m.Consecutive) (fails : Bool) :
    (m.syncWriter fails).2.Consecutive := by
  unfold WALManager.syncWriter
  split
  · exact ordered
  rename_i w writer
  split
  · exact ordered
  split
  · exact ordered
  obtain ⟨earlier, last, split, active, number⟩ := ordered.current w writer
  have covered : m.disk.sync w.number =
      earlier ++ [{ last with synced := last.records.length }] := by
    rw [WALDisk.sync, split, ← number]
    exact WALDisk.update_last (split ▸ ordered.ascending) active _
  refine @replace _ _ ordered _ _ _ split covered rfl [] (List.append_nil _).symm
    (List.forall_mem_nil _) (List.append_nil _).symm rfl ?_
  rintro v here
  obtain rfl := Option.some.inj (writer.symm.trans here)
  exact ⟨active, number⟩

theorem Consecutive.same (ordered : m.Consecutive) (disk : m'.disk = m.disk)
    (written : m'.written = m.written) (next : m.nextFileNumber ≤ m'.nextFileNumber)
    (current : ∀ v ∈ m'.writer, ∃ w ∈ m.writer, w.number = v.number) : m'.Consecutive := by
  constructor
  · rw [disk]
    exact ordered.ascending
  · rw [disk]
    exact fun f member => (ordered.below f member).trans_le next
  · intro v writer
    obtain ⟨w, before, number⟩ := current v writer
    obtain ⟨earlier, last, split, active, named⟩ := ordered.current w before
    exact ⟨earlier, last, disk.trans split, active, named.trans number⟩
  · rw [disk, written]
    exact ordered.written
  · rw [disk]
    exact ordered.valid

theorem Consecutive.createNewWALFile (ordered : m.Consecutive) (faults : FileFaults) :
    (m.createNewWALFile faults).2.Consecutive := by
  have synced := ordered.syncWriter faults.closingSync
  unfold WALManager.createNewWALFile
  generalize m.syncWriter faults.closingSync = result at synced ⊢
  obtain ⟨status, m⟩ := result
  dsimp only at synced ⊢
  split
  · exact synced.same rfl rfl (Nat.le_succ _) nofun
  have new : ¬ m.disk.any fun f => f.Is false m.nextFileNumber := by
    rw [List.any_eq_true]
    rintro ⟨f, member, named⟩
    exact absurd (of_decide_eq_true named).2 (synced.below f member).ne
  have created : m.disk.create m.nextFileNumber = m.disk ++ [{ number := m.nextFileNumber }] :=
    if_neg new
  constructor
  · show (m.disk.create m.nextFileNumber).Pairwise _
    rw [created, List.pairwise_append]
    refine ⟨synced.ascending, List.pairwise_singleton .., fun f member g here => ?_⟩
    rw [List.mem_singleton.mp here]
    exact synced.below f member
  · show ∀ f ∈ m.disk.create m.nextFileNumber, f.number < m.nextFileNumber + 1
    rw [created]
    refine List.forall_mem_append.mpr ⟨fun f member => (synced.below f member).trans
      (Nat.lt_succ_self _), ?_⟩
    simp
  · rintro w ⟨⟩
    exact ⟨m.disk, _, created, rfl, rfl⟩
  · show m.written = (m.disk.create m.nextFileNumber).flatMap LogFile.numbered
    rw [created, synced.written]
    simp [LogFile.numbered]
  · show ∀ f ∈ m.disk.create m.nextFileNumber, _
    rw [created]
    exact List.forall_mem_append.mpr ⟨synced.valid, by simp⟩

theorem syncWriter_writer (m : WALManager) (fails : Bool) :
    (m.syncWriter fails).2.writer = m.writer := by
  unfold WALManager.syncWriter
  split
  · rfl
  split
  · rfl
  split <;> rfl

theorem Consecutive.archiveCurrentWAL (ordered : m.Consecutive) (faults : FileFaults) :
    (m.archiveCurrentWAL faults).2.Consecutive := by
  have synced := ordered.syncWriter faults.sync
  have kept := syncWriter_writer m faults.sync
  unfold WALManager.archiveCurrentWAL
  split
  · exact ordered
  rename_i w writer
  rw [writer] at kept
  generalize m.syncWriter faults.sync = result at synced kept ⊢
  obtain ⟨status, m⟩ := result
  dsimp only at synced kept ⊢
  split
  · exact synced
  split
  · refine synced.same rfl rfl le_rfl ?_
    rintro v ⟨⟩
    exact ⟨w, kept, rfl⟩
  · obtain ⟨earlier, last, split, active, number⟩ := synced.current w kept
    have moved : m.disk.archive w.number = earlier ++ [{ last with archived := true }] := by
      rw [split, ← number]
      exact WALDisk.archive_last (split ▸ synced.ascending) active
    exact @replace _ _ synced _ _ _ split moved rfl [] (List.append_nil _).symm
      (List.forall_mem_nil _) (List.append_nil _).symm rfl nofun

theorem Consecutive.append (ordered : m.Consecutive) (fault : Option AppendFault) {r : WALRecord}
    (fits : r.Fits) (positive : r.sequenceNumber ≠ 0) : (m.append fault r).2.Consecutive := by
  unfold WALManager.append
  split
  · exact ordered
  rename_i w writer
  split
  · exact ordered
  split
  · exact ordered
  rename_i short
  obtain ⟨earlier, last, split, active, number⟩ := ordered.current w writer
  have valid : r.Valid := ⟨fits.1, ⟨Nat.pos_of_ne_zero positive, fits.2.1⟩, fits.2.2.1, fits.2.2.2,
    Nat.le_of_not_lt short⟩
  have appended : m.disk.append w.number r = earlier ++ [{ last with records := last.records ++ [r] }] := by
    rw [WALDisk.append, split, ← number]
    exact WALDisk.update_last (split ▸ ordered.ascending) active _
  have added (v : WALWriter) (same : v.number = w.number) : Consecutive
      { m.change (.append w.number) (m.disk.append w.number r) with
        written := m.written ++ [(w.number, r)], writer := some v } := by
    refine @replace _ _ ordered _ _ _ split appended rfl [r] rfl ?_ ?_ rfl ?_
    · simpa using valid
    · rw [number]
      rfl
    · rintro u ⟨⟩
      exact ⟨active, number.trans same.symm⟩
  split
  · exact ordered
  · have same := added w rfl
    rw [← writer] at same
    exact same
  · exact added _ rfl

theorem Consecutive.updateTransactionState (ordered : m.Consecutive) (r : WALRecord) :
    (m.updateTransactionState r).2.Consecutive := by
  have kept (active : Nat → Option TransactionState) :
      { m with activeTransactions := active }.Consecutive :=
    ordered.same rfl rfl le_rfl fun v writer => ⟨v, writer, rfl⟩
  unfold WALManager.updateTransactionState
  dsimp only
  split <;> try split
  all_goals first | exact ordered | exact kept _

theorem Consecutive.writeToFile (ordered : m.Consecutive) (faults : RecordFaults) {r : WALRecord}
    (fits : r.Fits) : (m.writeToFile faults r).2.Consecutive := by
  unfold WALManager.writeToFile
  split
  · exact ordered
  rename_i positive
  have first := ordered.updateTransactionState r
  generalize m.updateTransactionState r = result at first ⊢
  obtain ⟨status, m⟩ := result
  dsimp only at first ⊢
  split
  · exact first
  have second := first.append faults.append fits positive
  generalize m.append faults.append r = result at second ⊢
  obtain ⟨status, m⟩ := result
  dsimp only at second ⊢
  split
  · exact second
  split
  · have third := second.syncWriter faults.sync
    split
    · exact third.same rfl rfl le_rfl fun v writer => ⟨v, writer, rfl⟩
    · exact third
  · exact second.same rfl rfl le_rfl fun v writer => ⟨v, writer, rfl⟩

theorem Consecutive.writeRecordInternal (ordered : m.Consecutive) (faults : RecordFaults)
    {r : WALRecord} (fits : r.Fits) : (m.writeRecordInternal faults r).2.Consecutive := by
  unfold WALManager.writeRecordInternal
  split
  · exact ordered
  have first : (if m.writer.isNone then m.createNewWALFile faults.missing else (.ok, m)).2.Consecutive := by
    split
    · exact ordered.createNewWALFile faults.missing
    · exact ordered
  generalize (if m.writer.isNone then m.createNewWALFile faults.missing else (.ok, m)) = result at first ⊢
  obtain ⟨status, m⟩ := result
  dsimp only at first ⊢
  split
  · exact first
  have second : (if m.shouldSwitchWAL then m.switchToNewWAL faults.switching else (.ok, m)).2.Consecutive := by
    split
    · exact (first.archiveCurrentWAL faults.switching).createNewWALFile faults.switching
    · exact first
  generalize (if m.shouldSwitchWAL then m.switchToNewWAL faults.switching else (.ok, m)) = result
    at second ⊢
  obtain ⟨status, m⟩ := result
  dsimp only at second ⊢
  split
  · exact second
  · exact second.writeToFile faults fits

theorem Consecutive.step {action : WALAction} (ordered : m.Consecutive)
    (stepped : m.step action = some m') : m'.Consecutive := by
  have started : { m with trail := [] }.Consecutive :=
    ordered.same rfl rfl le_rfl fun v writer => ⟨v, writer, rfl⟩
  unfold WALManager.step at stepped
  cases action with
  | write r faults =>
      dsimp only at stepped
      split at stepped <;> [rename_i fits; cases stepped]
      cases stepped
      exact started.writeRecordInternal faults fits
  | sync fails =>
      cases stepped
      exact started.syncWriter fails
  | archive faults =>
      cases stepped
      exact started.archiveCurrentWAL faults
  | setMaxWALSize size | setSyncOnWrite syncOnWrite =>
      cases stepped
      exact started.same rfl rfl le_rfl fun v writer => ⟨v, writer, rfl⟩

end WALManager
end Lrdb
