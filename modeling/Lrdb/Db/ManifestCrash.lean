import Lrdb.Db.ManifestFile

namespace Lrdb
open Frames ManifestReader

structure ManifestRecord.Fits (r : ManifestRecord ColumnFamilyOptions) : Prop where
  typed : r.Typed
  readable : r.raw.Readable

def ManifestRecord.frame (r : ManifestRecord ColumnFamilyOptions) : Bytes := r.raw.frame

def greatest (rs : List (ManifestRecord ColumnFamilyOptions)) : Nat :=
  (rs.map ManifestRecord.sequence).foldl max 0

def DescriptorTable.applyAll (table : DescriptorTable ColumnFamilyOptions)
    (rs : List (ManifestRecord ColumnFamilyOptions)) : DescriptorTable ColumnFamilyOptions :=
  rs.foldl (fun table r => table.apply ColumnFamilyOptions.codec r) table

section Folds
variable {table : DescriptorTable ColumnFamilyOptions}
  {rs more : List (ManifestRecord ColumnFamilyOptions)}

@[simp] theorem applyAll_nil : table.applyAll [] = table := rfl

@[simp] theorem applyAll_cons (r : ManifestRecord ColumnFamilyOptions) : table.applyAll (r :: rs) =
    (table.apply ColumnFamilyOptions.codec r).applyAll rs := rfl

theorem applyAll_append : table.applyAll (rs ++ more) = (table.applyAll rs).applyAll more :=
  List.foldl_append

@[simp] theorem greatest_nil : greatest [] = 0 := rfl

@[simp] theorem greatest_cons (r : ManifestRecord ColumnFamilyOptions) :
    greatest (r :: rs) = max r.sequence (greatest rs) := by
  rw [greatest, List.map_cons, List.foldl_cons, max_comm, List.foldl_assoc]
  rfl

theorem greatest_append : greatest (rs ++ more) = max (greatest rs) (greatest more) := by
  induction rs with
  | nil => simp
  | cons r rs ih => rw [List.cons_append, greatest_cons, greatest_cons, ih, max_assoc]

end Folds

namespace ManifestRecovery
variable {data : Bytes} {position fuel : Nat} {st : ManifestRecovery}
  {rs : List (ManifestRecord ColumnFamilyOptions)}

def after (st : ManifestRecovery) (rs : List (ManifestRecord ColumnFamilyOptions)) :
    ManifestRecovery := ⟨st.table.applyAll rs, max st.localMaxSequence (greatest rs)⟩

theorem loop_stream (fuel : Nat) (rest : Bytes) (fits : ∀ r ∈ rs, r.Fits)
    (parts : data.drop position = stream ManifestRecord.frame rs ++ rest) :
    loop (fuel + rs.length) (standing data position) st =
      loop fuel (standing data (position + (stream ManifestRecord.frame rs).length)) (st.after rs) := by
  induction rs generalizing position st with
  | nil => simp [after]
  | cons r rs ih =>
      obtain ⟨here, later⟩ := List.forall_mem_cons.mp fits
      rw [stream_cons, List.append_assoc] at parts
      have behind : data.drop (position + r.frame.length) =
          stream ManifestRecord.frame rs ++ rest := by
        rw [← List.drop_drop, parts, List.drop_left]
      have sequence : r.raw.sequenceNumber < uint64Limit := r.raw_sequence ▸ here.typed.sequence
      have read := readNextRecord_frame sequence here.readable parts
      have applied := st.table.applyRaw_raw here.typed (fits_of_readable here.readable)
      have went : round (standing data position) st =
          some (.next (standing data (position + r.frame.length)) (st.after [r])) := by
        rw [round, if_neg (by exact Bool.false_ne_true), read]
        simp only [Option.bind_eq_bind, Option.bind_some, applied, ManifestRecord.raw_sequence, after,
          greatest_cons, greatest_nil, Nat.max_zero]
        rfl
      have whole : (st.after [r]).after rs = st.after (r :: rs) := by
        simp [after, max_assoc]
      rw [List.length_cons, ← Nat.add_assoc, loop, went]
      dsimp only
      rw [ih later behind, whole, stream_cons, List.length_append, Nat.add_assoc]

theorem loop_end (fuel : Nat) (st : ManifestRecovery) (short : (data.drop position).length < 4) :
    loop (fuel + 1) (standing data position) st = some (some (.ok, st)) := by
  rw [loop, round, if_neg (by exact Bool.false_ne_true), readNextRecord_end short]
  rfl

theorem round_torn (st : ManifestRecovery) {m : Nat}
    (read : (standing data position).readNextRecord = some (.error (.corruption "Record data truncated"),
      ⟨⟨data, position + m, true, true⟩, position, false⟩)) :
    round (standing data position) st =
      (ManifestFile.tryResyncManifestFile data position).map fun found =>
        .done (if found.isSome then .ioError "Failed to seek in manifest file"
          else .corruption "Manifest resync failed (rest of file skipped)") st := by
  have going : ¬ (Status.corruption "Record data truncated").isIncomplete = true := Bool.false_ne_true
  rw [round, if_neg (by exact Bool.false_ne_true), read]
  simp only [Option.bind_eq_bind, Option.bind_some]
  rw [if_neg going]
  rcases ManifestFile.tryResyncManifestFile data position with _ | _ | next <;> rfl

theorem round_resync (st : ManifestRecovery) {status : Status} {reader : ManifestReader} {next : Nat}
    (damaged : status.isIncomplete = false) (good : reader.file.fail = false)
    (read : (standing data position).readNextRecord = some (.error status, reader))
    (found : ManifestFile.tryResyncManifestFile data position = some (some next)) :
    round (standing data position) st = some (.next (standing data next) st) := by
  obtain ⟨_, _, failed, -⟩ | ⟨_, -, same, start⟩ := readNextRecord_cases read
  · cases failed
  have going : ¬ status.isIncomplete = true := by simp [damaged]
  have sought : reader.seek next = (.ok, standing data next) := by
    rw [seek, InputFile.seekg, if_neg (by simp [good])]
    simp only [good, same]
    rfl
  rw [round, if_neg (by exact Bool.false_ne_true), read]
  simp only [Option.bind_eq_bind, Option.bind_some]
  rw [if_neg going, same, start, found]
  simp only [Option.bind_some, sought]
  rfl

end ManifestRecovery

namespace ManifestFile

theorem probe_first {data : Bytes} {position n k : Nat} {r : RawRecord} {reader : ManifestReader}
    (inside : k < n) (nothing : ∀ i < k, Unreadable data (position + i))
    (read : (standing data (position + k)).readNextRecord = some (.ok r, reader)) :
    probe data n position = some (some (position + k)) := by
  induction k generalizing n position with
  | zero =>
      obtain ⟨n, rfl⟩ : ∃ m, n = m + 1 := ⟨n - 1, by omega⟩
      rw [probe, opened_eq, seek_standing, ← Nat.add_zero position, read]
      rfl
  | succ k ih =>
      obtain ⟨n, rfl⟩ : ∃ m, n = m + 1 := ⟨n - 1, by omega⟩
      obtain ⟨status, reader', failed⟩ := nothing 0 k.succ_pos
      have later : ∀ i < k, Unreadable data (position + 1 + i) := by
        intro i below
        have there := nothing (i + 1) (Nat.succ_lt_succ below)
        rwa [Nat.add_right_comm, Nat.add_assoc]
      have found := ih (Nat.lt_of_succ_lt_succ inside) later
        (by rwa [Nat.add_right_comm, Nat.add_assoc])
      rw [Nat.add_zero] at failed
      rw [probe, opened_eq, seek_standing, failed, ← Nat.add_assoc, Nat.add_right_comm position k 1]
      exact found

def written (rs : List (ManifestRecord ColumnFamilyOptions)) : Bytes :=
  stream ManifestRecord.frame rs

def Recovers (files : List Bytes) (records : List (ManifestRecord ColumnFamilyOptions)) : Prop :=
  recoverColumnFamilies files =
    some (.ok, ManifestManager.live (DescriptorTable.applyAll ∅ records), greatest records)

section Intact
variable {table : DescriptorTable ColumnFamilyOptions}
  {rs : List (ManifestRecord ColumnFamilyOptions)}

theorem length_le_written (rs : List (ManifestRecord ColumnFamilyOptions)) :
    rs.length ≤ (written rs).length := by
  apply length_le_stream
  intro r empty
  have length := r.raw.length_frame
  rw [show r.raw.frame = [] from empty, List.length_nil] at length
  omega

/-- The records of a file, and then a tail that begins no record. -/
theorem recover_of_tail (table : DescriptorTable ColumnFamilyOptions) (tail : Bytes)
    (fits : ∀ r ∈ rs, r.Fits) (short : tail.length < 4) :
    recoverFromManifestFile table (written rs ++ tail) =
      some (.ok, ⟨table.applyAll rs, greatest rs⟩) := by
  have length := length_le_written rs
  have fuel : (written rs ++ tail).length + 1 =
      (written rs ++ tail).length - rs.length + 1 + rs.length := by
    rw [List.length_append]
    omega
  have ended : ((written rs ++ tail).drop (0 + (written rs).length)).length < 4 := by
    rwa [Nat.zero_add, List.drop_left]
  rw [recoverFromManifestFile, opened_eq, fuel,
    ManifestRecovery.loop_stream _ tail fits rfl]
  change Option.join (ManifestRecovery.loop _ (standing _ (0 + (written rs).length)) _) = _
  rw [ManifestRecovery.loop_end _ _ ended, ManifestRecovery.after]
  simp

theorem recover_written (fits : ∀ r ∈ rs, r.Fits) :
    recoverFromManifestFile table (written rs) = some (.ok, ⟨table.applyAll rs, greatest rs⟩) := by
  have whole := recover_of_tail table [] fits (by simp)
  rwa [List.append_nil] at whole

theorem recoverFiles_written {files : List (List (ManifestRecord ColumnFamilyOptions))}
    (found : DescriptorTable ColumnFamilyOptions × Nat) (rest : List Bytes)
    (fits : ∀ r ∈ files.flatten, r.Fits) : recoverFiles found (files.map written ++ rest) =
      recoverFiles (found.1.applyAll files.flatten, max found.2 (greatest files.flatten)) rest := by
  induction files generalizing found with
  | nil => simp
  | cons file files ih =>
      rw [List.flatten_cons] at fits
      have here : ∀ r ∈ file, r.Fits := fun r member => fits r (List.mem_append_left _ member)
      have later : ∀ r ∈ files.flatten, r.Fits := fun r member =>
        fits r (List.mem_append_right _ member)
      rw [List.map_cons, List.cons_append, recoverFiles, recover_written here]
      simp only [Option.bind_eq_bind, Option.bind_some]
      have success : Status.ok.isOk = true := rfl
      rw [if_pos success, ih _ later, List.flatten_cons, applyAll_append, greatest_append, max_assoc]

theorem recoverColumnFamilies_written {files : List (List (ManifestRecord ColumnFamilyOptions))}
    (fits : ∀ r ∈ files.flatten, r.Fits) : recoverColumnFamilies (files.map written) =
      some (.ok, ManifestManager.recoverColumnFamilies ColumnFamilyOptions.codec files) := by
  have spec (found : DescriptorTable ColumnFamilyOptions × Nat) :
      ManifestManager.recoverFiles ColumnFamilyOptions.codec found files =
        (found.1.applyAll files.flatten, max found.2 (greatest files.flatten)) := by
    clear fits
    induction files generalizing found with
    | nil => simp [ManifestManager.recoverFiles]
    | cons file files ih =>
        rw [ManifestManager.recoverFiles, ManifestManager.recoverFromManifestFile]
        dsimp only
        rw [ih, List.flatten_cons, applyAll_append, greatest_append, ← max_assoc]
        rfl
  have whole := recoverFiles_written (∅, 0) [] fits
  rw [List.append_nil, recoverFiles] at whole
  rw [recoverColumnFamilies, whole, ManifestManager.recoverColumnFamilies, spec]
  rfl

end Intact

structure CrashedLog where
  earlier : List (List (ManifestRecord ColumnFamilyOptions))
  last : List (ManifestRecord ColumnFamilyOptions)
  cut : Nat

namespace CrashedLog
variable (log : CrashedLog) (more : List (ManifestRecord ColumnFamilyOptions))

def kept : List (ManifestRecord ColumnFamilyOptions) :=
  contained ManifestRecord.frame log.cut log.last

def tail : Bytes := torn ManifestRecord.frame log.cut log.last

def start : Nat := (written log.kept).length

def remains : Bytes := (written log.last).take log.cut

def appended : Bytes := log.remains ++ written more

def records : List (ManifestRecord ColumnFamilyOptions) := log.earlier.flatten ++ log.last ++ more

def RecoversAfterCrash : Prop :=
  Recovers (log.earlier.map written ++ [log.remains]) (log.earlier.flatten ++ log.kept)

def RecoversAppended : Prop :=
  Recovers (log.earlier.map written ++ [log.appended more])
    (log.earlier.flatten ++ (log.kept ++ more))

/-- The tail is too short for a length; or no record can be read behind its beginning, and the last
file has no sequence beyond those of the others. -/
def EndsWell : Prop :=
  log.tail.length < 4 ∨ (∀ i < maxResyncBytes, Unreadable log.remains (log.start + 1 + i)) ∧
    greatest log.kept ≤ greatest log.earlier.flatten

/-- The reader finds the tail damaged before the end of the file, and the first record that can be read
behind its beginning, within the window, is the first one that was appended. -/
structure PassesTail : Prop where
  damaged : Damaged (log.appended more) log.start
  within : log.tail.length ≤ maxResyncBytes
  nothing : ∀ i, i + 1 < log.tail.length → Unreadable (log.appended more) (log.start + 1 + i)

def Resumes : Prop :=
  log.tail = [] ∨ more = [] ∧ log.EndsWell ∨ more ≠ [] ∧ log.PassesTail more

variable {log more}

theorem remains_eq (log : CrashedLog) : log.remains = written log.kept ++ log.tail :=
  take_stream log.cut log.last

theorem drop_remains : log.remains.drop log.start = log.tail := by
  rw [remains_eq, start, List.drop_left]

theorem drop_appended : (log.appended more).drop log.start = log.tail ++ written more := by
  rw [appended, remains_eq, start, List.append_assoc, List.drop_left]

theorem fits_earlier (fits : ∀ r ∈ log.records more, r.Fits) : ∀ r ∈ log.earlier.flatten, r.Fits :=
  fun r member => fits r (List.mem_append_left _ (List.mem_append_left _ member))

theorem fits_last (fits : ∀ r ∈ log.records more, r.Fits) : ∀ r ∈ log.last, r.Fits :=
  fun r member => fits r (List.mem_append_left _ (List.mem_append_right _ member))

theorem fits_kept (fits : ∀ r ∈ log.records more, r.Fits) : ∀ r ∈ log.kept, r.Fits :=
  fun r member => fits_last fits r ((contained_isPrefix log.cut log.last).subset member)

theorem fits_more (fits : ∀ r ∈ log.records more, r.Fits) : ∀ r ∈ more, r.Fits :=
  fun r member => fits r (List.mem_append_right _ member)

theorem recovers_iff {data : Bytes} {records : List (ManifestRecord ColumnFamilyOptions)}
    (fits : ∀ r ∈ log.earlier.flatten, r.Fits) {status : Status} {st : ManifestRecovery}
    (last : recoverFromManifestFile (DescriptorTable.applyAll ∅ log.earlier.flatten) data =
      some (status, st)) (table : st.table = DescriptorTable.applyAll ∅ records) :
    Recovers (log.earlier.map written ++ [data]) records ↔
      if status.isOk then max (greatest log.earlier.flatten) st.localMaxSequence = greatest records
      else status.isCorruption ∧ greatest log.earlier.flatten = greatest records := by
  rw [Recovers, recoverColumnFamilies, recoverFiles_written _ _ fits, Nat.zero_max, recoverFiles, last]
  simp only [Option.bind_eq_bind, Option.bind_some]
  by_cases success : status.isOk
  · rw [if_pos success, if_pos success, recoverFiles, table]
    simp [Status.isOk, Status.ok]
  rw [if_neg success, if_neg success]
  by_cases corrupt : status.isCorruption
  · rw [if_pos corrupt, recoverFiles, table]
    simp [Status.isOk, Status.ok, corrupt]
  · have failed : status ≠ .ok := by
      rintro rfl
      exact success rfl
    rw [if_neg corrupt]
    simp [success, corrupt, failed]

theorem loop_last (table : DescriptorTable ColumnFamilyOptions) (rest : Bytes) {fuel : Nat}
    (fits : ∀ r ∈ log.kept, r.Fits)
    (enough : fuel + log.kept.length = (log.remains ++ rest).length + 1) :
    recoverFromManifestFile table (log.remains ++ rest) =
      (ManifestRecovery.loop fuel (standing (log.remains ++ rest) log.start)
        ⟨table.applyAll log.kept, greatest log.kept⟩).join := by
  have parts : (log.remains ++ rest).drop 0 =
      stream ManifestRecord.frame log.kept ++ (log.tail ++ rest) := by
    rw [List.drop_zero, remains_eq, List.append_assoc]
    rfl
  rw [recoverFromManifestFile, opened_eq, ← enough, ManifestRecovery.loop_stream fuel _ fits parts,
    Nat.zero_add, ManifestRecovery.after, Nat.zero_max]
  rfl

theorem tail_lt (fits : ∀ r ∈ log.last, r.Fits) (long : 4 ≤ log.tail.length) :
    ∃ r : RawRecord, r.Readable ∧ ∃ m, 4 ≤ m ∧ m < r.frame.length ∧ log.tail = r.frame.take m := by
  have cases : log.tail = [] ∨ ∃ r ∈ log.last, ∃ m < r.frame.length, log.tail = r.frame.take m :=
    torn_cases log.cut log.last
  obtain empty | ⟨r, member, m, cut, same⟩ := cases
  · rw [empty] at long
    cases long
  · refine ⟨r.raw, (fits r member).readable, m, ?_, cut, same⟩
    rw [same, List.length_take] at long
    exact long.trans (Nat.min_le_left ..)

theorem recoversAfterCrash_iff (earlier : ∀ r ∈ log.earlier.flatten, r.Fits)
    (last : ∀ r ∈ log.last, r.Fits) : log.RecoversAfterCrash ↔ log.EndsWell := by
  have kept : ∀ r ∈ log.kept, r.Fits := fun r member =>
    last r ((contained_isPrefix log.cut log.last).subset member)
  have count := length_le_written log.kept
  have total := congrArg List.length (log.remains_eq)
  rw [List.length_append] at total
  have begins : ∃ fuel, fuel + 1 + log.kept.length = log.remains.length + 1 :=
    ⟨log.remains.length - log.kept.length, by omega⟩
  obtain ⟨fuel, enough⟩ := begins
  have run (table : DescriptorTable ColumnFamilyOptions) := loop_last table [] kept
    (by rwa [List.append_nil])
  simp only [List.append_nil] at run
  have tables : (DescriptorTable.applyAll ∅ log.earlier.flatten).applyAll log.kept =
      DescriptorTable.applyAll ∅ (log.earlier.flatten ++ log.kept) := applyAll_append.symm
  by_cases short : log.tail.length < 4
  · have ended := ManifestRecovery.loop_end fuel
      ⟨(DescriptorTable.applyAll ∅ log.earlier.flatten).applyAll log.kept, greatest log.kept⟩
      (show (log.remains.drop log.start).length < 4 by rwa [drop_remains])
    rw [RecoversAfterCrash, recovers_iff earlier ((run _).trans (congrArg Option.join ended)) tables,
      if_pos (by rfl), greatest_append]
    exact iff_of_true rfl (.inl short)
  obtain ⟨r, readable, m, long, cut, same⟩ := tail_lt last (Nat.le_of_not_lt short)
  have read := readNextRecord_torn readable long cut (drop_remains.trans same)
  rw [EndsWell, or_iff_right short, ← tryResync_eq_none_iff, RecoversAfterCrash]
  have went := ManifestRecovery.round_torn
    ⟨(DescriptorTable.applyAll ∅ log.earlier.flatten).applyAll log.kept, greatest log.kept⟩ read
  cases found : tryResyncManifestFile log.remains log.start with
  | none =>
      have outside := run (DescriptorTable.applyAll ∅ log.earlier.flatten)
      rw [ManifestRecovery.loop, went, found] at outside
      rw [Recovers, recoverColumnFamilies, recoverFiles_written _ _ earlier, recoverFiles, outside]
      simp
  | some resync =>
      have last := run (DescriptorTable.applyAll ∅ log.earlier.flatten)
      rw [ManifestRecovery.loop, went, found] at last
      rw [recovers_iff earlier last tables]
      cases resync with
      | some next => simp [Status.isOk, Status.isCorruption, Status.ioError]
      | none => simp [Status.isOk, Status.isCorruption, Status.corruption, greatest_append]

theorem appended_of_tail (empty : log.tail = []) : log.appended more = written (log.kept ++ more) := by
  rw [appended, remains_eq, empty, List.append_nil, written, written, written, stream_append]

theorem PassesTail.resync (passes : log.PassesTail more) (part : log.tail ≠ [])
    (fits : ∀ r ∈ more, r.Fits) (any : more ≠ []) :
    tryResyncManifestFile (log.appended more) log.start =
      some (some (log.start + log.tail.length)) := by
  obtain ⟨r, rest, rfl⟩ := List.exists_cons_of_ne_nil any
  have long := List.length_pos_iff.mpr part
  have here := fits r (List.mem_cons_self ..)
  have sequence : r.raw.sequenceNumber < uint64Limit := r.raw_sequence ▸ here.typed.sequence
  have place : log.start + 1 + (log.tail.length - 1) = log.start + log.tail.length := by omega
  have parts : (log.appended (r :: rest)).drop (log.start + log.tail.length) =
      r.raw.frame ++ written rest := by
    rw [← List.drop_drop, drop_appended, List.drop_left]
    rfl
  have read := readNextRecord_frame sequence here.readable parts
  rw [← place] at read ⊢
  refine probe_first ?_ (fun i below => passes.nothing i (by omega)) read
  have within := passes.within
  omega

theorem recoversAppended (fits : ∀ r ∈ log.records more, r.Fits) (resumes : log.Resumes more) :
    log.RecoversAppended more := by
  have earlier := fits_earlier fits
  have kept := fits_kept fits
  have tables : (DescriptorTable.applyAll ∅ log.earlier.flatten).applyAll (log.kept ++ more) =
      DescriptorTable.applyAll ∅ (log.earlier.flatten ++ (log.kept ++ more)) := applyAll_append.symm
  have success : Status.ok.isOk = true := rfl
  have whole (empty : log.tail = []) : log.RecoversAppended more := by
    have both : ∀ r ∈ log.kept ++ more, r.Fits := fun r member =>
      (List.mem_append.mp member).elim (kept r) (fits_more fits r)
    rw [RecoversAppended, appended_of_tail empty, recovers_iff earlier (recover_written both) tables,
      if_pos success, greatest_append, greatest_append, greatest_append]
  obtain empty | ⟨rfl, ends⟩ | ⟨any, passes⟩ := resumes
  · exact whole empty
  · have recovers := (recoversAfterCrash_iff earlier (fits_last fits)).mpr ends
    have same : log.appended [] = log.remains := List.append_nil _
    rwa [RecoversAppended, same, List.append_nil]
  by_cases empty : log.tail = []
  · exact whole empty
  have long := List.length_pos_iff.mpr empty
  have keptCount := length_le_written log.kept
  have moreCount := length_le_written more
  have total : (log.appended more).length =
      (written log.kept).length + log.tail.length + (written more).length := by
    rw [appended, remains_eq, List.length_append, List.length_append]
  obtain ⟨fuel, enough⟩ : ∃ fuel, fuel + 1 + more.length + 1 + log.kept.length =
      (log.appended more).length + 1 :=
    ⟨(log.appended more).length - 1 - more.length - log.kept.length, by omega⟩
  obtain ⟨status, reader, damaged, good, read⟩ := passes.damaged
  have went := ManifestRecovery.round_resync
    ⟨(DescriptorTable.applyAll ∅ log.earlier.flatten).applyAll log.kept, greatest log.kept⟩
    damaged good read (passes.resync empty (fits_more fits) any)
  have parts : (log.appended more).drop (log.start + log.tail.length) =
      stream ManifestRecord.frame more ++ [] := by
    rw [← List.drop_drop, drop_appended, List.drop_left, List.append_nil]
    rfl
  have ended : ((log.appended more).drop (log.start + log.tail.length +
      (stream ManifestRecord.frame more).length)).length < 4 := by
    rw [← List.drop_drop, parts, List.drop_left]
    exact Nat.zero_lt_succ 3
  have last := loop_last (DescriptorTable.applyAll ∅ log.earlier.flatten) (written more) kept enough
  rw [← appended, ManifestRecovery.loop, went] at last
  dsimp only at last
  rw [ManifestRecovery.loop_stream (fuel + 1) [] (fits_more fits) parts,
    ManifestRecovery.loop_end _ _ ended] at last
  rw [RecoversAppended, recovers_iff earlier last
    (by rw [← tables, applyAll_append]; rfl), if_pos success, greatest_append, greatest_append]
  rfl

end CrashedLog

/-- A crash leaves the fold of the whole records exactly when the log ends well, and records appended
behind the cut are recovered when it resumes. -/
theorem recovers_of_crash (log : CrashedLog) (more : List (ManifestRecord ColumnFamilyOptions))
    (fits : ∀ r ∈ log.records more, r.Fits) :
    (log.RecoversAfterCrash ↔ log.EndsWell) ∧ (log.Resumes more → log.RecoversAppended more) :=
  ⟨CrashedLog.recoversAfterCrash_iff (CrashedLog.fits_earlier fits) (CrashedLog.fits_last fits),
    CrashedLog.recoversAppended fits⟩

def cutSequence (cut : Nat) : CrashedLog :=
  ⟨[], (ManifestManager.logSequenceNumber { records := [] } 5).records, cut⟩

def nextSequence : List (ManifestRecord ColumnFamilyOptions) :=
  (ManifestManager.logSequenceNumber { records := [] } 6).records

theorem fits_cutSequence (cut : Nat) : ∀ r ∈ (cutSequence cut).records nextSequence, r.Fits := by
  intro r member
  obtain rfl | rfl : r = .sequenceNumber 5 ∨ r = .sequenceNumber 6 := by
    simpa [cutSequence, nextSequence, CrashedLog.records, ManifestManager.logSequenceNumber]
      using member
  · exact ⟨show 5 < uint64Limit by decide, show 17 ≤ maxRecordLength by decide⟩
  · exact ⟨show 6 < uint64Limit by decide, show 17 ≤ maxRecordLength by decide⟩

theorem recovers_of_crash_tenBytes :
    (∀ r ∈ (cutSequence 10).records nextSequence, r.Fits) ∧
      (cutSequence 10).RecoversAfterCrash ∧ (cutSequence 10).RecoversAppended nextSequence := by
  have recovers := recovers_of_crash (cutSequence 10) nextSequence (fits_cutSequence 10)
  have remains : (cutSequence 10).remains.length = 10 := by decide +kernel
  have start : (cutSequence 10).start = 0 := rfl
  refine ⟨fits_cutSequence 10, recovers.1.mpr (.inr ⟨?_, by decide⟩),
    recovers.2 (.inr (.inr ⟨?_, ?_, ?_, ?_⟩))⟩
  · intro i below
    by_cases inside : i < 6
    · have unreadable : ∀ i < 6,
          Unreadable (cutSequence 10).remains ((cutSequence 10).start + 1 + i) := by
        decide +kernel
      exact unreadable i inside
    · apply unreadable_end
      rw [List.length_drop, remains, start]
      omega
  · exact List.cons_ne_nil _ _
  · decide +kernel
  · decide +kernel
  · intro i below
    have tail : (cutSequence 10).tail.length = 10 := by decide +kernel
    have unreadable : ∀ i < 9, Unreadable ((cutSequence 10).appended nextSequence)
        ((cutSequence 10).start + 1 + i) := by decide +kernel
    exact unreadable i (by omega)

theorem recovers_fails_oneByte :
    ¬ ∀ (log : CrashedLog) (more : List (ManifestRecord ColumnFamilyOptions)),
      (∀ r ∈ log.records more, r.Fits) → log.RecoversAfterCrash ∧ log.RecoversAppended more := by
  intro always
  have recovers := (always (cutSequence 1) nextSequence (fits_cutSequence 1)).2
  have fails : (recoverColumnFamilies ((cutSequence 1).earlier.map written ++
      [(cutSequence 1).appended nextSequence])).any fun found => !found.1.isOk := by decide +kernel
  rw [show recoverColumnFamilies _ = _ from recovers] at fails
  cases fails

end ManifestFile
end Lrdb
