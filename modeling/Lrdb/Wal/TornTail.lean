import Lrdb.Wal.Recovery

/-!
# Recovery from a file that was cut

Whole records are replayed in order. What is left of a cut record ends the file only when it is
shorter than a length; any longer rest makes recovery fail or find records that nobody wrote.
-/

namespace Lrdb
open Frames WALReader

variable {cmp : Comparator} {options : MemTableOptions} {data : Bytes} {position fuel : Nat}
  {st st' : Recovery cmp}

theorem tryResync_some {start : Nat} (found : tryResync data start = some position) :
    start < position ∧ ∃ r, (standing data position).readNextRecord =
      (.ok r, standing data (position + r.frame.length)) ∧
        r.Readable ∧ position + r.frame.length ≤ data.length := by
  have later := List.mem_of_find?_eq_some found
  have reads := List.find?_some found
  obtain ⟨i, -, rfl⟩ := List.mem_map.mp later
  refine ⟨Nat.lt_add_of_pos_right i.succ_pos, ?_⟩
  rcases readNextRecord_cases data (start + (i + 1)) with read | ⟨status, reader, failed, -, -⟩
  · exact read
  · rw [opened_eq, seek_standing] at reads
    rw [failed] at reads
    cases reads

theorem seek_of_fail {reader : WALReader} (fail : reader.file.fail = true) (next : Nat) :
    ¬ (reader.seek next).1.isOk := by
  simp [seek, InputFile.seekg, fail, Status.isOk, Status.ioError]

theorem seek_of_good {reader : WALReader} (good : reader.file.fail = false) (next : Nat) :
    reader.seek next = (.ok, standing reader.file.data next) := by
  simp [seek, InputFile.seekg, good, standing]

namespace Recovery

/-! ## One round of the loop -/

section Rounds
variable {reader : WALReader} {r : WALRecord} {status : Status}

theorem loop_record {state : ReplayState cmp}
    (read : (standing data position).readNextRecord = (.ok r, reader))
    (next : st.state.next options r = .ok state) :
    loop options (fuel + 1) (standing data position) st =
      loop options fuel reader ⟨state, st.applied ++ [r]⟩ := by
  rw [loop, round, if_neg (by exact Bool.false_ne_true), read]
  simp [next, bind, Except.bind, pure, Except.pure]

theorem loop_refused (read : (standing data position).readNextRecord = (.ok r, reader))
    (next : st.state.next options r = .error status) :
    loop options (fuel + 1) (standing data position) st = some (.error status) := by
  rw [loop, round, if_neg (by exact Bool.false_ne_true), read]
  simp [next, bind, Except.bind]

variable (read : (standing data position).readNextRecord = (.error status, reader))
include read

theorem loop_ended (incomplete : status.isIncomplete) :
    loop options (fuel + 1) (standing data position) st = some (.ok st) := by
  have done : round options (standing data position) st = .ok (st, none) := by
    rw [round, if_neg (by exact Bool.false_ne_true), read]
    exact if_pos incomplete
  rw [loop, done]

variable (same : reader.file.data = data) (start : reader.readPosition = position)
  (broken : ¬ status.isIncomplete)
include same start broken

theorem loop_lost (lost : tryResync data position = none ∨ reader.file.fail = true) :
    ∃ failure, loop options (fuel + 1) (standing data position) st = some (.error failure) := by
  suffices failed : ∃ failure, round options (standing data position) st = .error failure by
    obtain ⟨failure, failed⟩ := failed
    exact ⟨failure, by rw [loop, failed]⟩
  rw [round, if_neg (by exact Bool.false_ne_true), read]
  cases found : tryResync data position with
  | none =>
      refine ⟨.corruption "WAL resync failed (file keeps remaining records)",
        (if_neg broken).trans ?_⟩
      rw [same, start, found]
  | some next =>
      have fail := lost.resolve_left (by simp [found])
      refine ⟨(reader.seek next).1, (if_neg broken).trans ?_⟩
      rw [same, start, found]
      exact if_neg (seek_of_fail fail next)

theorem loop_resynced {next : Nat} (found : tryResync data position = some next)
    (good : reader.file.fail = false) : loop options (fuel + 1) (standing data position) st =
      loop options fuel (standing data next) st := by
  have moved : round options (standing data position) st = .ok (st, some (standing data next)) := by
    rw [round, if_neg (by exact Bool.false_ne_true), read]
    refine (if_neg broken).trans ?_
    rw [same, start, found]
    dsimp only
    rw [seek_of_good good, same]
    rfl
  rw [loop, moved]

end Rounds

/-- One round, when the reader stands between two frames: a record, the end, a failure, or a later
position with a whole record. -/
theorem loop_cases (options : MemTableOptions) (fuel : Nat) (data : Bytes) (position : Nat)
    (st : Recovery cmp) :
    (∃ r, r.Readable ∧ position + r.frame.length ≤ data.length ∧
      ((∃ status, st.state.next options r = .error status ∧
          loop options (fuel + 1) (standing data position) st = some (.error status)) ∨
        ∃ state, st.state.next options r = .ok state ∧
          loop options (fuel + 1) (standing data position) st =
            loop options fuel (standing data (position + r.frame.length))
              ⟨state, st.applied ++ [r]⟩)) ∨
    loop options (fuel + 1) (standing data position) st = some (.ok st) ∨
    (∃ status, loop options (fuel + 1) (standing data position) st = some (.error status)) ∨
    ∃ next, position < next ∧ (∃ r, (standing data next).readNextRecord =
        (.ok r, standing data (next + r.frame.length)) ∧ r.Readable ∧
          next + r.frame.length ≤ data.length) ∧
      loop options (fuel + 1) (standing data position) st =
        loop options fuel (standing data next) st := by
  rcases readNextRecord_cases data position with ⟨r, read, readable, inside⟩ |
    ⟨status, reader, failed, same, start⟩
  · refine .inl ⟨r, readable, inside, ?_⟩
    cases applied : st.state.next options r with
    | error status => exact .inl ⟨status, rfl, loop_refused read applied⟩
    | ok state => exact .inr ⟨state, rfl, loop_record read applied⟩
  · apply Or.inr
    by_cases ended : status.isIncomplete
    · exact .inl (loop_ended failed ended)
    apply Or.inr
    cases found : tryResync data position with
    | none => exact .inl (loop_lost failed same start ended (.inl found))
    | some next =>
        obtain ⟨later, reads⟩ := tryResync_some found
        cases good : reader.file.fail with
        | true => exact .inl (loop_lost failed same start ended (.inr good))
        | false =>
            exact .inr ⟨next, later, reads, loop_resynced failed same start ended found good⟩

theorem loop_isSome (options : MemTableOptions) (st : Recovery cmp)
    (inside : position ≤ data.length) (enough : data.length - position < fuel) :
    (loop options fuel (standing data position) st).isSome := by
  induction fuel generalizing position st with
  | zero => exact absurd enough (Nat.not_lt_zero _)
  | succ fuel ih =>
      rcases loop_cases options fuel data position st with ⟨r, -, whole, outcome⟩ | ended |
        ⟨status, failed⟩ | ⟨next, later, ⟨r, -, -, whole⟩, moved⟩
      · rcases outcome with ⟨status, -, failed⟩ | ⟨state, -, moved⟩
        · rw [failed]
          rfl
        · rw [moved]
          have length := r.encodedLength_pos
          rw [WALRecord.length_frame] at whole ⊢
          apply ih
          · exact whole
          · omega
      · rw [ended]
        rfl
      · rw [failed]
        rfl
      · rw [moved]
        apply ih <;> omega

theorem file_eq_ok : st.file options data = .ok st' ↔
    loop options (data.length + 1) (standing data 0) st = some (.ok st') := by
  have total := loop_isSome options st (Nat.zero_le data.length) (Nat.lt_succ_self data.length)
  rw [file, opened_eq]
  cases result : loop options (data.length + 1) (standing data 0) st with
  | none =>
      rw [result] at total
      cases total
  | some outcome => simp

theorem loop_applied (looped : loop options fuel (standing data position) st = some (.ok st')) :
    st.applied <+: st'.applied ∧ ∀ r ∈ st'.applied, r ∈ st.applied ∨ r.Readable := by
  induction fuel generalizing position st with
  | zero => cases looped
  | succ fuel ih =>
      rcases loop_cases options fuel data position st with ⟨r, readable, -, outcome⟩ | ended |
        ⟨status, failed⟩ | ⟨next, -, -, moved⟩
      · rcases outcome with ⟨status, -, failed⟩ | ⟨state, -, moved⟩
        · rw [failed] at looped
          cases looped
        · rw [moved] at looped
          obtain ⟨extends', added⟩ := ih looped
          refine ⟨(List.prefix_append ..).trans extends', fun x member => ?_⟩
          rcases added x member with old | new
          · rcases List.mem_append.mp old with old | here
            · exact .inl old
            · exact .inr (List.mem_singleton.mp here ▸ readable)
          · exact .inr new
      · rw [ended] at looped
        cases looped
        exact ⟨List.prefix_rfl, fun x member => .inl member⟩
      · rw [failed] at looped
        cases looped
      · exact ih (moved ▸ looped)

theorem loop_stream (options : MemTableOptions) (fuel position : Nat) (st : Recovery cmp)
    {rs : List WALRecord} {rest : Bytes} (valid : ∀ r ∈ rs, r.Valid)
    (readable : ∀ r ∈ rs, r.Readable)
    (parts : data.drop position = stream WALRecord.frame rs ++ rest) :
    (∃ status, st.state.replay options rs = .error status ∧
      loop options (fuel + rs.length) (standing data position) st = some (.error status)) ∨
    ∃ state, st.state.replay options rs = .ok state ∧
      loop options (fuel + rs.length) (standing data position) st =
        loop options fuel (standing data (position + (stream WALRecord.frame rs).length))
          ⟨state, st.applied ++ rs⟩ := by
  induction rs generalizing position st with
  | nil => exact .inr ⟨st.state, rfl, by simp⟩
  | cons r rs ih =>
      obtain ⟨validHere, validRest⟩ := List.forall_mem_cons.mp valid
      obtain ⟨readableHere, readableRest⟩ := List.forall_mem_cons.mp readable
      rw [stream_cons, List.append_assoc] at parts
      have after : data.drop (position + r.frame.length) = stream WALRecord.frame rs ++ rest := by
        rw [← List.drop_drop, parts, List.drop_left]
      have read := readNextRecord_frame validHere.typed readableHere parts
      rw [List.length_cons, ← Nat.add_assoc]
      cases applied : st.state.next options r with
      | error status =>
          refine .inl ⟨status, ?_, loop_refused read applied⟩
          rw [ReplayState.replay, List.foldlM_cons, applied]
          rfl
      | ok state =>
          have whole : st.state.replay options (r :: rs) = state.replay options rs := by
            rw [ReplayState.replay, List.foldlM_cons, applied]
            rfl
          rw [whole, loop_record read applied, stream_cons, List.length_append, ← Nat.add_assoc]
          have rest := ih _ ⟨state, st.applied ++ [r]⟩ validRest readableRest after
          simp only [List.append_assoc, List.cons_append, List.nil_append] at rest
          exact rest

theorem loop_torn {r : WALRecord} (valid : r.Valid) {m : Nat} (long : 4 ≤ m)
    (cut : m < r.frame.length) (parts : data.drop position = r.frame.take m)
    (looped : loop options fuel (standing data position) st = some (.ok st')) :
    st'.applied ≠ st.applied := by
  have read := readNextRecord_torn valid long cut parts
  cases fuel with
  | zero => cases looped
  | succ fuel =>
      by_cases readable : r.Readable
      · -- The stream has failed, and no later position can be reached.
        rw [if_pos readable] at read
        obtain ⟨failure, lost⟩ := @loop_lost _ options data position fuel st _ _ read rfl rfl
          (by decide) (.inr rfl)
        rw [lost] at looped
        cases looped
      · rw [if_neg readable] at read
        cases found : tryResync data position with
        | none =>
            obtain ⟨failure, lost⟩ := @loop_lost _ options data position fuel st _ _ read rfl rfl
              (by decide) (.inl found)
            rw [lost] at looped
            cases looped
        | some next =>
            obtain ⟨-, other, reads, -, -⟩ := tryResync_some found
            rw [loop_resynced read rfl rfl (by decide) found rfl] at looped
            cases fuel with
            | zero => cases looped
            | succ fuel =>
                cases applied : st.state.next options other with
                | error status =>
                    rw [loop_refused reads applied] at looped
                    cases looped
                | ok state =>
                    rw [loop_record reads applied] at looped
                    intro same
                    have grown := (loop_applied looped).1.length_le
                    rw [same, List.length_append, List.length_singleton] at grown
                    exact absurd grown (Nat.not_succ_le_self _)

theorem frame_ne_nil (r : WALRecord) : r.frame ≠ [] := by
  apply List.ne_nil_of_length_pos
  rw [WALRecord.length_frame]
  exact Nat.add_pos_left (by decide) _

theorem file_cut (options : MemTableOptions) (st : Recovery cmp) {rs : List WALRecord}
    (valid : ∀ r ∈ rs, r.Valid) (cut : Nat)
    (readable : ∀ r ∈ contained WALRecord.frame cut rs, r.Readable) :
    (∃ status, st.state.replay options (contained WALRecord.frame cut rs) = .error status ∧
      st.file options ((stream WALRecord.frame rs).take cut) = .error status) ∨
    ∃ state, st.state.replay options (contained WALRecord.frame cut rs) = .ok state ∧
      if (torn WALRecord.frame cut rs).length < 4 then
        st.file options ((stream WALRecord.frame rs).take cut) =
          .ok ⟨state, st.applied ++ contained WALRecord.frame cut rs⟩
      else ∀ st', st.file options ((stream WALRecord.frame rs).take cut) = .ok st' →
        st'.applied ≠ st.applied ++ contained WALRecord.frame cut rs := by
  have validKept : ∀ r ∈ contained WALRecord.frame cut rs, r.Valid := fun r member =>
    valid r ((contained_isPrefix cut rs).subset member)
  have cutAt := @torn_cases _ _ WALRecord.frame cut rs
  rw [take_stream]
  revert cutAt
  generalize contained WALRecord.frame cut rs = kept at readable validKept
  generalize torn WALRecord.frame cut rs = tail
  intro cutAt
  have few : kept.length ≤ (stream WALRecord.frame kept ++ tail).length := by
    rw [List.length_append]
    exact (length_le_stream frame_ne_nil kept).trans (Nat.le_add_right ..)
  obtain ⟨fuel, enough⟩ := Nat.exists_eq_add_of_le' few
  have rounds : (stream WALRecord.frame kept ++ tail).length + 1 = (fuel + 1) + kept.length := by
    omega
  have after : (stream WALRecord.frame kept ++ tail).drop
      (0 + (stream WALRecord.frame kept).length) = tail := by rw [Nat.zero_add, List.drop_left]
  rcases loop_stream options (fuel + 1) 0 st validKept
    readable (List.drop_zero ..) with ⟨status, failed, looped⟩ | ⟨state, replays, looped⟩
  · refine .inl ⟨status, failed, ?_⟩
    rw [file, opened_eq, rounds, looped, Option.getD_some]
  · refine .inr ⟨state, replays, ?_⟩
    split
    · rename_i short
      rw [file, opened_eq, rounds, looped, loop_ended (readNextRecord_end (by rwa [after])) rfl]
      rfl
    · rename_i long
      intro st' result
      rw [file_eq_ok, rounds, looped] at result
      rcases cutAt with rfl | ⟨r, member, m, less, rfl⟩
      · exact absurd (by decide) long
      · rw [List.length_take_of_le less.le] at long
        exact loop_torn (valid r member) (Nat.le_of_not_lt long) less after result

theorem file_nil (options : MemTableOptions) (st : Recovery cmp) : st.file options [] = .ok st := by
  rcases @file_cut _ options st [] (by simp) 0 (by simp [contained]) with
    ⟨status, failed, -⟩ | ⟨state, replays, whole⟩
  · cases failed
  · cases replays
    simpa [contained, torn] using whole

theorem files_applied {contents : List Bytes} (recovered : st.files options contents = .ok st') :
    ∀ r ∈ st'.applied, r ∈ st.applied ∨ r.Readable := by
  induction contents generalizing st with
  | nil =>
      cases recovered
      exact fun r member => .inl member
  | cons data rest ih =>
      rw [files] at recovered
      cases here : st.file options data with
      | error status => simp [here] at recovered
      | ok next =>
          simp only [here] at recovered
          intro r member
          rcases ih recovered r member with old | new
          · exact (loop_applied (file_eq_ok.mp here)).2 r old
          · exact .inr new

theorem files_empty {contents : List Bytes} (empty : ∀ data ∈ contents, data = []) :
    st.files options contents = .ok st := by
  induction contents with
  | nil => rfl
  | cons data rest ih =>
      obtain ⟨rfl, emptyRest⟩ := List.forall_mem_cons.mp empty
      rw [files, file_nil options st]
      exact ih emptyRest

theorem files_whole (options : MemTableOptions) (st : Recovery cmp)
    {logs : List (List WALRecord)} (valid : ∀ r ∈ logs.flatten, r.Valid)
    (readable : ∀ r ∈ logs.flatten, r.Readable) (more : List Bytes) :
    (∃ status, st.state.replay options logs.flatten = .error status ∧
      ∃ other, st.files options (logs.map (stream WALRecord.frame) ++ more) = .error other) ∨
    ∃ state, st.state.replay options logs.flatten = .ok state ∧
      st.files options (logs.map (stream WALRecord.frame) ++ more) =
        files options ⟨state, st.applied ++ logs.flatten⟩ more := by
  induction logs generalizing st with
  | nil => exact .inr ⟨st.state, rfl, by simp⟩
  | cons log rest ih =>
      simp only [List.flatten_cons, List.forall_mem_append] at valid readable
      obtain ⟨kept, tail⟩ := @contained_whole _ _ WALRecord.frame _ log le_rfl
      have here := file_cut options st valid.1 (stream WALRecord.frame log).length
        (kept.symm ▸ readable.1)
      rw [kept, tail, List.take_length] at here
      rw [List.flatten_cons, ReplayState.replay_append, List.map_cons, List.cons_append, files]
      rcases here with ⟨status, failed, stops⟩ | ⟨state, replays, ends⟩
      · rw [failed, stops]
        exact .inl ⟨status, rfl, _, rfl⟩
      · rw [if_pos (by decide)] at ends
        rw [replays, ends]
        have later := ih ⟨state, st.applied ++ log⟩ valid.2 readable.2
        simpa only [List.append_assoc, Except.bind] using later

theorem files_cut (options : MemTableOptions) (st : Recovery cmp) {logs : List (List WALRecord)}
    {last : List WALRecord} (validLogs : ∀ r ∈ logs.flatten, r.Valid)
    (validLast : ∀ r ∈ last, r.Valid) (cut : Nat)
    (readable : ∀ r ∈ logs.flatten ++ contained WALRecord.frame cut last, r.Readable)
    {created : List Bytes} (empty : ∀ data ∈ created, data = []) :
    (∃ status, st.state.replay options (logs.flatten ++ contained WALRecord.frame cut last) =
        .error status ∧ ∃ other, st.files options (logs.map (stream WALRecord.frame) ++
          (stream WALRecord.frame last).take cut :: created) = .error other) ∨
    ∃ state, st.state.replay options (logs.flatten ++ contained WALRecord.frame cut last) =
        .ok state ∧
      if (torn WALRecord.frame cut last).length < 4 then
        st.files options (logs.map (stream WALRecord.frame) ++
            (stream WALRecord.frame last).take cut :: created) =
          .ok ⟨state, st.applied ++ (logs.flatten ++ contained WALRecord.frame cut last)⟩
      else ∀ st', st.files options (logs.map (stream WALRecord.frame) ++
          (stream WALRecord.frame last).take cut :: created) = .ok st' →
        st'.applied ≠ st.applied ++ (logs.flatten ++ contained WALRecord.frame cut last) := by
  obtain ⟨readableLogs, readableKept⟩ := List.forall_mem_append.mp readable
  rw [ReplayState.replay_append]
  rcases files_whole options st validLogs readableLogs
    ((stream WALRecord.frame last).take cut :: created) with ⟨status, failed, other, stops⟩ |
      ⟨state, replays, goesOn⟩
  · rw [failed]
    exact .inl ⟨status, rfl, other, stops⟩
  rw [replays, goesOn, files]
  rcases file_cut options ⟨state, st.applied ++ logs.flatten⟩ validLast cut readableKept with
    ⟨status, failed, stops⟩ | ⟨state', replays', outcome⟩
  · rw [stops]
    exact .inl ⟨status, failed, _, rfl⟩
  · refine .inr ⟨state', replays', ?_⟩
    split at outcome
    · rename_i short
      rw [outcome, if_pos short]
      dsimp only
      rw [files_empty empty, List.append_assoc]
    · rename_i long
      rw [if_neg long]
      intro st' result
      cases here : Recovery.file options ⟨state, st.applied ++ logs.flatten⟩
          ((stream WALRecord.frame last).take cut) with
      | error status => simp [here] at result
      | ok next =>
          simp only [here, files_empty empty] at result
          obtain rfl := Except.ok.inj result
          rw [← List.append_assoc]
          exact outcome next here

end Recovery

def RecoversExactly (cmp : Comparator) (options : LSMTreeOptions) (sstables : SSTableManager)
    (files : List Bytes) (records : List WALRecord) : Prop :=
  ∃ outcome : Recovery cmp × SSTableManager,
    recoverFromWAL options sstables files = .ok outcome ∧ outcome.1.applied = records

theorem recoverFromWAL_ok_iff {options : LSMTreeOptions} {sstables : SSTableManager}
    (fresh : sstables.Fresh) {files : List Bytes} : (∃ sstables',
        recoverFromWAL options sstables files = .ok (st, sstables')) ↔
      Recovery.files options.memtable ⟨.new options.memtable, []⟩ files = .ok st ∧
        (sortedEntries st.state.memtable.entries).IsChain fun a b =>
          cmp.compare a.1.encode b.1.encode = .lt := by
  unfold recoverFromWAL
  cases replayed : Recovery.files options.memtable ⟨.new options.memtable, []⟩ files with
  | error status => simp [bind, Except.bind]
  | ok other =>
      have finish := LSMTree.finishRecovery_isOk_iff options fresh other.state.memtable
      rcases result : LSMTree.finishRecovery options sstables other.state.memtable with
        ⟨status, sstables'⟩
      rw [result] at finish
      by_cases success : status.isOk
      · have ordered := finish.mp success
        simp only [bind, Except.bind, result, success, if_true, pure, Except.pure, Except.ok.injEq,
          Prod.mk.injEq]
        constructor
        · rintro ⟨-, rfl, -⟩
          exact ⟨rfl, ordered⟩
        · rintro ⟨rfl, -⟩
          exact ⟨sstables', rfl, rfl⟩
      · simp only [bind, Except.bind, result, success, Bool.false_eq_true, if_false, throw,
          throwThe, MonadExceptOf.throw, reduceCtorEq, exists_false, false_iff]
        rintro ⟨same, ordered⟩
        obtain rfl := Except.ok.inj same
        exact success (finish.mpr ordered)

/-- After any earlier files, recovery from a last file that was cut anywhere succeeds with exactly
the records wholly contained if and only if the cut left less than a length behind the last of them,
the records are of a size and of types that recovery takes, and they can be flushed. Files that were
created and not written do not matter. -/
theorem recoversExactly_cut_iff (options : LSMTreeOptions) {sstables : SSTableManager}
    (fresh : sstables.Fresh) (earlier : List (List WALRecord)) (last : List WALRecord)
    (valid : ∀ r ∈ earlier.flatten ++ last, r.Valid) (cut : Nat) (created : List Bytes)
    (empty : ∀ data ∈ created, data = []) :
    RecoversExactly cmp options sstables (earlier.map (stream WALRecord.frame) ++
        (stream WALRecord.frame last).take cut :: created)
        (earlier.flatten ++ contained WALRecord.frame cut last) ↔
      (torn WALRecord.frame cut last).length < 4 ∧
        (∀ r ∈ earlier.flatten ++ contained WALRecord.frame cut last, r.Readable) ∧
        Replayable (earlier.flatten ++ contained WALRecord.frame cut last) ∧
        FlushOrdered cmp options.memtable (earlier.flatten ++ contained WALRecord.frame cut last) := by
  obtain ⟨validEarlier, validLast⟩ := List.forall_mem_append.mp valid
  have replayable := @ReplayState.replay_ok_iff cmp options.memtable
    (earlier.flatten ++ contained WALRecord.frame cut last)
  constructor
  · rintro ⟨⟨st, sstables'⟩, recovered, applied⟩
    obtain ⟨replayed, ordered⟩ := (recoverFromWAL_ok_iff fresh).mp ⟨sstables', recovered⟩
    have readable : ∀ r ∈ earlier.flatten ++ contained WALRecord.frame cut last, r.Readable :=
      fun r member => (Recovery.files_applied replayed r (applied.symm ▸ member)).resolve_left
        List.not_mem_nil
    rcases Recovery.files_cut options.memtable ⟨.new options.memtable, []⟩ validEarlier validLast cut
      readable empty with ⟨-, -, other, stops⟩ | ⟨state, replays, outcome⟩
    · rw [stops] at replayed
      cases replayed
    split at outcome
    · rename_i short
      obtain rfl := Except.ok.inj (outcome.symm.trans replayed)
      refine ⟨short, readable, replayable.mp ⟨state, replays⟩, fun other replays' => ?_⟩
      obtain rfl := Except.ok.inj (replays.symm.trans replays')
      exact ordered
    · exact absurd applied (outcome st replayed)
  · rintro ⟨short, readable, supported, ordered⟩
    obtain ⟨state, replays⟩ := replayable.mpr supported
    rcases Recovery.files_cut options.memtable ⟨.new options.memtable, []⟩ validEarlier validLast cut
      readable empty with ⟨status, failed, -⟩ | ⟨other, replays', outcome⟩
    · exact absurd (failed.symm.trans replays) nofun
    obtain rfl := Except.ok.inj (replays.symm.trans replays')
    rw [if_pos short] at outcome
    obtain ⟨sstables', recovered⟩ := (recoverFromWAL_ok_iff fresh).mpr
      ⟨outcome, ordered state replays⟩
    exact ⟨_, recovered, rfl⟩

theorem recoversExactly_cut_inLength :
    RecoversExactly bytewiseComparator {} .new
      [(stream WALRecord.frame [.ofWrite 0 [107] 1 (some [1]), .ofWrite 0 [108] 2 none]).take 41, []]
      [.ofWrite 0 [107] 1 (some [1])] := by
  have valid : ∀ r ∈ ([] : List (List WALRecord)).flatten ++
      [.ofWrite 0 [107] 1 (some [1]), .ofWrite 0 [108] 2 none], r.Valid := by
    simp only [List.flatten_nil, List.nil_append, List.forall_mem_cons, List.not_mem_nil,
      false_imp_iff, implies_true, and_true]
    exact ⟨⟨rfl, by decide, by decide, by decide, by decide⟩,
      ⟨rfl, by decide, by decide, by decide, by decide⟩⟩
  have exact' := @recoversExactly_cut_iff bytewiseComparator {} .new
    SSTableManager.fresh_new [] _ valid 41 [[]] (by simp)
  have kept : contained WALRecord.frame 41
      [.ofWrite 0 [107] 1 (some [1]), .ofWrite 0 [108] 2 none] =
        [.ofWrite 0 [107] 1 (some [1])] := by decide
  have rest : (torn WALRecord.frame 41
      [.ofWrite 0 [107] 1 (some [1]), .ofWrite 0 [108] 2 none]).length < 4 := by decide
  rw [kept] at exact'
  exact exact'.mpr ⟨rest, by decide, by decide, flushOrdered_bytewise _ _⟩

theorem recoversExactly_not_cut_inHeader :
    ¬ ∀ (last : List WALRecord) (cut : Nat), (∀ r ∈ last, r.Valid) →
      RecoversExactly bytewiseComparator {} .new [(stream WALRecord.frame last).take cut, []]
        (contained WALRecord.frame cut last) := by
  intro always
  have valid : ∀ r ∈ [WALRecord.ofWrite 0 [107] 1 (some [1])], r.Valid := by
    simp only [List.forall_mem_cons, List.not_mem_nil, false_imp_iff, implies_true, and_true]
    exact ⟨rfl, by decide, by decide, by decide, by decide⟩
  obtain ⟨⟨st, sstables⟩, recovered, applied⟩ := always _ 14 valid
  obtain ⟨replayed, -⟩ := (recoverFromWAL_ok_iff SSTableManager.fresh_new).mp ⟨sstables, recovered⟩
  have kept : contained WALRecord.frame 14 [.ofWrite 0 [107] 1 (some [1])] = [] := by decide
  rcases @Recovery.files_cut _ ({} : LSMTreeOptions).memtable ⟨.new _, []⟩ [] _ (by simp) valid
    14 (by rw [kept]; simp) [[]] (by simp) with ⟨-, -, other, stops⟩ |
      ⟨state, -, outcome⟩
  · exact absurd (stops.symm.trans replayed) nofun
  · rw [if_neg (by decide)] at outcome
    exact outcome st replayed applied

end Lrdb
