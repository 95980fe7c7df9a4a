import Lrdb.Wal.TornTail

namespace Lrdb
open Frames WALReader

variable {cmp : Comparator} {options : MemTableOptions} {data : Bytes} {position : Nat}
  {st st' : Recovery cmp}

def Decodable (data : Bytes) (position : Nat) : Prop :=
  ((standing data position).readNextRecord.1.toOption).isSome = true

instance (data : Bytes) (position : Nat) : Decidable (Decodable data position) :=
  inferInstanceAs (Decidable (_ = true))

theorem decodable_iff : Decodable data position ↔ ∃ r, (standing data position).readNextRecord =
    (.ok r, standing data (position + r.frame.length)) ∧
      r.Readable ∧ position + r.frame.length ≤ data.length := by
  refine ⟨fun decodable => ?_, fun ⟨r, read, _⟩ => by rw [Decodable, read]; rfl⟩
  obtain found | ⟨status, reader, failed, -, -⟩ := readNextRecord_cases data position
  · exact found
  · rw [Decodable, failed] at decodable
    cases decodable

theorem tryResync_eq_some_iff {start next : Nat} : tryResync data start = some next ↔
    start < next ∧ next ≤ start + maxResyncBytes ∧ Decodable data next ∧
      ∀ q, start < q → q < next → ¬Decodable data q := by
  have decodes (q : Nat) : ((WALReader.opened data).seek q).2.readNextRecord.1.toOption.isSome =
      true ↔ Decodable data q := by
    rw [opened_eq, seek_standing]
    exact Iff.rfl
  rw [tryResync, List.find?_map, Option.map_eq_some_iff]
  simp only [Function.comp_def, List.find?_range_eq_some, List.mem_range]
  constructor
  · rintro ⟨i, ⟨found, inside, first⟩, rfl⟩
    refine ⟨by omega, by omega, (decodes _).mp found, fun q above below decodable => ?_⟩
    have earlier := first (q - start - 1) (by omega)
    have same : start + (q - start - 1 + 1) = q := by omega
    rw [same, Bool.not_eq_true'] at earlier
    exact Bool.false_ne_true (earlier.symm.trans ((decodes q).mpr decodable))
  · rintro ⟨above, below, found, first⟩
    refine ⟨next - start - 1, ⟨?_, by omega, fun j less => ?_⟩, by omega⟩
    · have same : start + (next - start - 1 + 1) = next := by omega
      rw [same]
      exact (decodes next).mpr found
    · rw [Bool.not_eq_true', ← Bool.not_eq_true, decodes]
      exact first _ (by omega) (by omega)

inductive Reads (options : MemTableOptions) (data : Bytes) :
    Nat → Recovery cmp → List (Nat × WALRecord) → Recovery cmp → Prop where
  | ended {position : Nat} {st : Recovery cmp} {status : Status} {reader : WALReader}
      (read : (standing data position).readNextRecord = (.error status, reader))
      (incomplete : status.isIncomplete = true) : Reads options data position st [] st
  | applied {position : Nat} {st st' : Recovery cmp} {r : WALRecord} {state : ReplayState cmp}
      {later : List (Nat × WALRecord)}
      (read : (standing data position).readNextRecord =
        (.ok r, standing data (position + r.frame.length)))
      (next : st.state.next options r = .ok state)
      (rest : Reads options data (position + r.frame.length) ⟨state, st.applied ++ [r]⟩ later st') :
      Reads options data position st ((position, r) :: later) st'
  | resynced {position next : Nat} {st st' : Recovery cmp} {status : Status} {reader : WALReader}
      {later : List (Nat × WALRecord)}
      (read : (standing data position).readNextRecord = (.error status, reader))
      (broken : status.isIncomplete = false) (found : tryResync data position = some next)
      (seekable : reader.file.fail = false) (rest : Reads options data next st later st') :
      Reads options data position st later st'

namespace Recovery

theorem reads_of_loop {fuel : Nat}
    (looped : loop options fuel (standing data position) st = some (.ok st')) :
    ∃ reads, Reads options data position st reads st' := by
  induction fuel generalizing position st with
  | zero => cases looped
  | succ fuel ih =>
      obtain ⟨r, read, -, -⟩ | ⟨status, reader, read, same, start⟩ :=
        readNextRecord_cases data position
      · cases next : st.state.next options r with
        | error status =>
            rw [loop_refused read next] at looped
            cases looped
        | ok state =>
            rw [loop_record read next] at looped
            obtain ⟨reads, rest⟩ := ih looped
            exact ⟨_, .applied read next rest⟩
      · by_cases incomplete : status.isIncomplete = true
        · rw [loop_ended read incomplete] at looped
          cases looped
          exact ⟨[], .ended read incomplete⟩
        by_cases lost : tryResync data position = none ∨ reader.file.fail = true
        · obtain ⟨failure, lost⟩ := @loop_lost _ options _ _ fuel st _ _ read same start incomplete lost
          rw [lost] at looped
          cases looped
        · obtain ⟨here, good⟩ := not_or.mp lost
          obtain ⟨next, found⟩ := Option.ne_none_iff_exists'.mp here
          rw [Bool.not_eq_true] at incomplete good
          rw [loop_resynced read same start (by simp [incomplete]) found good] at looped
          obtain ⟨reads, rest⟩ := ih looped
          exact ⟨reads, .resynced read incomplete found good rest⟩

theorem loop_of_reads {reads : List (Nat × WALRecord)} (trace : Reads options data position st reads st')
    {fuel : Nat} (enough : data.length - position < fuel + 1) :
    loop options (fuel + 1) (standing data position) st = some (.ok st') := by
  induction trace generalizing fuel with
  | ended read incomplete => exact loop_ended read incomplete
  | @applied position st st' r state later read next rest ih =>
      obtain found | ⟨_, _, failed, -, -⟩ := readNextRecord_cases data position
      · obtain ⟨r', same, -, inside⟩ := found
        rw [read] at same
        cases (Prod.mk.inj same).1
        have long := r.encodedLength_pos
        rw [WALRecord.length_frame] at inside
        obtain ⟨less, rfl⟩ : ∃ less, fuel = less + 1 := Nat.exists_eq_succ_of_ne_zero (by omega)
        rw [loop_record read next]
        apply ih
        rw [WALRecord.length_frame]
        omega
      · rw [read] at failed
        cases failed
  | @resynced position q st st' status reader later read broken found seekable rest ih =>
      obtain ⟨above, -, decodable, -⟩ := tryResync_eq_some_iff.mp found
      obtain ⟨r, -, -, inside⟩ := decodable_iff.mp decodable
      obtain ⟨_, ok, -, -⟩ | ⟨_, _, same, data', start⟩ := readNextRecord_cases data position
      · rw [read] at ok
        cases ok
      rw [read] at same
      cases same
      have long := r.encodedLength_pos
      rw [WALRecord.length_frame] at inside
      obtain ⟨less, rfl⟩ : ∃ less, fuel = less + 1 := Nat.exists_eq_succ_of_ne_zero (by omega)
      rw [loop_resynced read data' start (Bool.eq_false_iff.mp broken) found seekable]
      exact ih (by omega)

theorem file_eq_ok_iff : st.file options data = .ok st' ↔
    ∃ reads, Reads options data 0 st reads st' := by
  rw [file_eq_ok]
  exact ⟨reads_of_loop, fun ⟨reads, trace⟩ => loop_of_reads trace (by omega)⟩

end Recovery

/-! ## What a trace reads -/

namespace Reads
variable {reads : List (Nat × WALRecord)}

theorem position_le (trace : Reads options data position st reads st') :
    ∀ x ∈ reads, position ≤ x.1 := by
  induction trace with
  | ended => simp
  | applied read next rest ih =>
      rw [List.forall_mem_cons]
      exact ⟨le_rfl, fun x mem => (Nat.le_add_right ..).trans (ih x mem)⟩
  | resynced read broken found seekable rest ih =>
      exact fun x mem => (tryResync_eq_some_iff.mp found).1.le.trans (ih x mem)

theorem of_record (trace : Reads options data position st reads st') {r : WALRecord}
    (read : (standing data position).readNextRecord =
      (.ok r, standing data (position + r.frame.length))) :
    ∃ state later, reads = (position, r) :: later ∧ st.state.next options r = .ok state ∧
      Reads options data (position + r.frame.length) ⟨state, st.applied ++ [r]⟩ later st' := by
  cases trace with
  | ended failed => rw [read] at failed; cases failed
  | resynced failed => rw [read] at failed; cases failed
  | applied same next rest =>
      rw [read] at same
      cases (Prod.mk.inj same).1
      exact ⟨_, _, rfl, next, rest⟩

/-- A record that cannot be read here sends recovery to the first position behind it where one
can. -/
theorem of_broken (trace : Reads options data position st reads st') {status : Status}
    {reader : WALReader}
    (read : (standing data position).readNextRecord = (.error status, reader))
    (broken : status.isIncomplete = false) :
    ∃ next x later, tryResync data position = some next ∧ reader.file.fail = false ∧
      reads = (next, x) :: later ∧
      Reads options data next st reads st' := by
  cases trace with
  | applied ok => rw [read] at ok; cases ok
  | ended same incomplete =>
      rw [read] at same
      cases same
      exact absurd (broken.symm.trans incomplete) Bool.false_ne_true
  | @resynced _ next _ _ _ _ _ same _ found seekable rest =>
      rw [read] at same
      cases same
      obtain ⟨r, found', -, -⟩ := decodable_iff.mp (tryResync_eq_some_iff.mp found).2.2.1
      obtain ⟨_, later, here, -, -⟩ := rest.of_record found'
      exact ⟨next, r, later, found, seekable, here, rest⟩

end Reads
end Lrdb
