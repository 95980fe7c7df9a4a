import Lrdb.Wal.ReadTrace
import Lrdb.Wal.FileRoundTrip

namespace Lrdb
open Frames WALReader

variable {cmp : Comparator} {options : MemTableOptions} {data : Bytes} {position : Nat}
  {st st' : Recovery cmp} {reads : List (Nat × WALRecord)}

def placed (position : Nat) : List WALRecord → List (Nat × WALRecord)
  | [] => []
  | r :: rs => (position, r) :: placed (position + r.frame.length) rs

theorem placed_append (position : Nat) (rs more : List WALRecord) : placed position (rs ++ more) =
    placed position rs ++ placed (position + (stream WALRecord.frame rs).length) more := by
  induction rs generalizing position with
  | nil => rfl
  | cons r rs ih =>
      rw [List.cons_append, placed, placed, ih, List.cons_append, stream_cons, List.length_append,
        Nat.add_assoc]

theorem bounds_of_mem_placed {rs : List WALRecord} {x : Nat × WALRecord}
    (mem : x ∈ placed position rs) :
    position ≤ x.1 ∧ x.1 + x.2.frame.length ≤ position + (stream WALRecord.frame rs).length := by
  induction rs generalizing position with
  | nil => cases mem
  | cons r rs ih =>
      rw [stream_cons, List.length_append]
      obtain rfl | mem := List.mem_cons.mp mem
      · exact ⟨le_rfl, by dsimp only; omega⟩
      · obtain ⟨above, below⟩ := ih mem
        exact ⟨by omega, by omega⟩

namespace Reads

/-- Recovery gets over records at their places only by reading each of them. -/
theorem of_stream {rs : List WALRecord} {rest : Bytes}
    (written : ∀ r ∈ rs, r.Typed ∧ r.encodedLength ≤ WALRecord.maxEncodedLength)
    (parts : data.drop position = stream WALRecord.frame rs ++ rest)
    (genuine : ∀ x ∈ reads, x.1 < position + (stream WALRecord.frame rs).length →
      x ∈ placed position rs)
    (trace : Reads options data position st reads st') :
    (∀ r ∈ rs, r.Readable) ∧ ∃ state later, st.state.replay options rs = .ok state ∧
      reads = placed position rs ++ later ∧
      Reads options data (position + (stream WALRecord.frame rs).length)
        ⟨state, st.applied ++ rs⟩ later st' := by
  induction rs generalizing position st reads with
  | nil => exact ⟨by simp, st.state, reads, rfl, rfl, by simpa using trace⟩
  | cons r rs ih =>
      obtain ⟨⟨typed, short⟩, writtenRest⟩ := List.forall_mem_cons.mp written
      rw [stream_cons, List.append_assoc] at parts
      rw [stream_cons, List.length_append] at genuine
      have after : data.drop (position + r.frame.length) = stream WALRecord.frame rs ++ rest := by
        rw [← List.drop_drop, parts, List.drop_left]
      by_cases readable : r.Readable
      · obtain ⟨state, later, rfl, next, trace⟩ :=
          trace.of_record (readNextRecord_frame typed readable parts)
        have genuineRest : ∀ x ∈ later, x.1 < position + r.frame.length +
            (stream WALRecord.frame rs).length → x ∈ placed (position + r.frame.length) rs := by
          intro x mem below
          obtain rfl | there := List.mem_cons.mp
            (genuine x (List.mem_cons_of_mem _ mem) (by omega))
          · have beyond := trace.position_le _ mem
            rw [WALRecord.length_frame] at beyond
            exact absurd beyond (by dsimp only; omega)
          · exact there
        obtain ⟨readableRest, state', later', replays, rfl, ending⟩ :=
          ih writtenRest after genuineRest trace
        refine ⟨List.forall_mem_cons.mpr ⟨readable, readableRest⟩, state', later', ?_, rfl, ?_⟩
        · rw [ReplayState.replay, List.foldlM_cons, next]
          exact replays
        · rw [stream_cons, List.length_append, ← Nat.add_assoc]
          rwa [List.append_assoc] at ending
      · have read := readNextRecord_unreadable short readable parts
        obtain ⟨_, ok, -, -⟩ | ⟨status, reader, failed, -, -⟩ := readNextRecord_cases data position
        · rw [ok] at read
          cases read
        rw [failed] at read
        cases read
        obtain ⟨next, x, later, found, -, rfl, -⟩ := trace.of_broken failed rfl
        obtain ⟨above, below, -, -⟩ := tryResync_eq_some_iff.mp found
        have long : maxResyncBytes < r.frame.length := by
          rw [WALRecord.length_frame]
          exact (Nat.lt_trans (by decide) (Nat.lt_of_not_le readable)).trans_le
            (Nat.le_add_left _ _)
        obtain same | there := List.mem_cons.mp
          (genuine (next, x) (List.mem_cons_self ..) (by dsimp only; omega))
        · exact absurd (Prod.mk.inj same).1 above.ne'
        · have beyond := (bounds_of_mem_placed there).1
          exact absurd beyond (by dsimp only; omega)

theorem stream {rs : List WALRecord} {rest : Bytes} (typed : ∀ r ∈ rs, r.Typed)
    (readable : ∀ r ∈ rs, r.Readable)
    (parts : data.drop position = stream WALRecord.frame rs ++ rest) {state : ReplayState cmp}
    (replays : st.state.replay options rs = .ok state)
    (trace : Reads options data (position + (Frames.stream WALRecord.frame rs).length)
      ⟨state, st.applied ++ rs⟩ reads st') :
    Reads options data position st (placed position rs ++ reads) st' := by
  induction rs generalizing position st with
  | nil =>
      cases replays
      rw [stream_nil, List.length_nil, Nat.add_zero, List.append_nil] at trace
      exact trace
  | cons r rs ih =>
      obtain ⟨typedHere, typedRest⟩ := List.forall_mem_cons.mp typed
      obtain ⟨readableHere, readableRest⟩ := List.forall_mem_cons.mp readable
      rw [stream_cons, List.append_assoc] at parts
      rw [stream_cons, List.length_append, ← Nat.add_assoc] at trace
      have after : data.drop (position + r.frame.length) =
          Frames.stream WALRecord.frame rs ++ rest := by
        rw [← List.drop_drop, parts, List.drop_left]
      rw [ReplayState.replay, List.foldlM_cons] at replays
      cases next : st.state.next options r with
      | error status =>
          rw [next] at replays
          cases replays
      | ok state' =>
          rw [next] at replays
          refine .applied (readNextRecord_frame typedHere readableHere parts) next ?_
          exact ih typedRest readableRest after replays (by rwa [List.append_assoc])

theorem at_end (ended : data.drop position = []) :
    Reads options data position st reads st' ↔ reads = [] ∧ st' = st := by
  have short : (data.drop position).length < 4 := by
    rw [ended]
    decide
  have read := readNextRecord_end short
  constructor
  · intro trace
    cases trace with
    | ended => exact ⟨rfl, rfl⟩
    | applied ok => rw [read] at ok; cases ok
    | resynced failed broken =>
        rw [read] at failed
        cases failed
        cases broken
  · rintro ⟨rfl, rfl⟩
    exact .ended read rfl

end Reads
def FilesRead (options : MemTableOptions) : List Bytes → Recovery cmp →
    List (List (Nat × WALRecord)) → Recovery cmp → Prop
  | [], st, reads, st' => reads = [] ∧ st' = st
  | data :: rest, st, reads, st' => ∃ here later mid, reads = here :: later ∧
      Reads options data 0 st here mid ∧ FilesRead options rest mid later st'

theorem files_eq_ok_iff {contents : List Bytes} : st.files options contents = .ok st' ↔
    ∃ reads, FilesRead options contents st reads st' := by
  induction contents generalizing st with
  | nil =>
      constructor
      · intro same
        cases same
        exact ⟨[], rfl, rfl⟩
      · rintro ⟨reads, -, rfl⟩
        rfl
  | cons data rest ih =>
      rw [Recovery.files]
      constructor
      · intro recovered
        cases here : st.file options data with
        | error status => simp [here] at recovered
        | ok mid =>
            simp only [here] at recovered
            obtain ⟨reads, trace⟩ := Recovery.file_eq_ok_iff.mp here
            obtain ⟨later, traces⟩ := ih.mp recovered
            exact ⟨_, reads, later, mid, rfl, trace, traces⟩
      · rintro ⟨_, reads, later, mid, rfl, trace, traces⟩
        rw [Recovery.file_eq_ok_iff.mpr ⟨reads, trace⟩]
        exact ih.mpr ⟨later, traces⟩

theorem filesRead_append {contents more : List Bytes} {here later : List (List (Nat × WALRecord))}
    (lengths : here.length = contents.length) :
    FilesRead options (contents ++ more) st (here ++ later) st' ↔
      ∃ mid, FilesRead options contents st here mid ∧ FilesRead options more mid later st' := by
  induction contents generalizing here st with
  | nil =>
      cases List.length_eq_zero_iff.mp lengths
      simp [FilesRead]
  | cons data rest ih =>
      cases here with
      | nil => cases lengths
      | cons reads here =>
          have shorter : here.length = rest.length := Nat.succ.inj lengths
          rw [List.cons_append, List.cons_append]
          constructor
          · rintro ⟨_, _, first, same, trace, traces⟩
            obtain ⟨rfl, rfl⟩ := List.cons.inj same
            obtain ⟨mid, front, back⟩ := (ih shorter).mp traces
            exact ⟨mid, ⟨_, _, first, rfl, trace, front⟩, back⟩
          · rintro ⟨mid, ⟨_, _, first, same, trace, front⟩, back⟩
            obtain ⟨rfl, rfl⟩ := List.cons.inj same
            exact ⟨_, _, first, rfl, trace, (ih shorter).mpr ⟨mid, front, back⟩⟩

theorem FilesRead.of_whole {logs : List (List WALRecord)} {here : List (List (Nat × WALRecord))}
    (written : ∀ r ∈ logs.flatten, r.Typed ∧ r.encodedLength ≤ WALRecord.maxEncodedLength)
    (genuine : List.Forall₂ List.Sublist here (logs.map (placed 0)))
    (traces : FilesRead options (logs.map (stream WALRecord.frame)) st here st') :
    (∀ r ∈ logs.flatten, r.Readable) ∧ ∃ state, st.state.replay options logs.flatten = .ok state ∧
      st' = ⟨state, st.applied ++ logs.flatten⟩ := by
  induction logs generalizing here st with
  | nil =>
      obtain ⟨-, rfl⟩ := traces
      exact ⟨by simp, st'.state, rfl, by simp⟩
  | cons rs logs ih =>
      obtain ⟨reads, later, mid, rfl, trace, traces⟩ := traces
      obtain ⟨part, genuine⟩ := List.forall₂_cons.mp genuine
      rw [List.flatten_cons] at written ⊢
      obtain ⟨writtenHere, writtenRest⟩ := List.forall_mem_append.mp written
      have parts : (stream WALRecord.frame rs).drop 0 = stream WALRecord.frame rs ++ [] := by simp
      obtain ⟨readable, state, rest, replays, -, ending⟩ :=
        trace.of_stream writtenHere parts fun x mem _ => part.subset mem
      have last : (stream WALRecord.frame rs).drop (0 + (stream WALRecord.frame rs).length) = [] := by
        simp
      obtain ⟨-, rfl⟩ := (Reads.at_end last).mp ending
      obtain ⟨readableRest, state', replaysRest, rfl⟩ := ih writtenRest genuine traces
      refine ⟨List.forall_mem_append.mpr ⟨readable, readableRest⟩, state', ?_, ?_⟩
      · rw [ReplayState.replay_append, replays]
        exact replaysRest
      · rw [List.append_assoc]

theorem FilesRead.whole {logs : List (List WALRecord)} {state : ReplayState cmp}
    (typed : ∀ r ∈ logs.flatten, r.Typed) (readable : ∀ r ∈ logs.flatten, r.Readable)
    (replays : st.state.replay options logs.flatten = .ok state) :
    FilesRead options (logs.map (stream WALRecord.frame)) st (logs.map (placed 0))
      ⟨state, st.applied ++ logs.flatten⟩ := by
  induction logs generalizing st with
  | nil =>
      cases replays
      exact ⟨rfl, by simp⟩
  | cons rs logs ih =>
      rw [List.flatten_cons] at typed readable replays ⊢
      obtain ⟨typedHere, typedRest⟩ := List.forall_mem_append.mp typed
      obtain ⟨readableHere, readableRest⟩ := List.forall_mem_append.mp readable
      rw [ReplayState.replay_append] at replays
      cases here : st.state.replay options rs with
      | error status =>
          rw [here] at replays
          cases replays
      | ok mid =>
      rw [here] at replays
      have parts : (stream WALRecord.frame rs).drop 0 = stream WALRecord.frame rs ++ [] := by simp
      have last : (stream WALRecord.frame rs).drop (0 + (stream WALRecord.frame rs).length) = [] := by
        simp
      have trace := Reads.stream typedHere readableHere parts here
        ((Reads.at_end last).mpr ⟨rfl, rfl⟩)
      rw [List.append_nil] at trace
      rw [← List.append_assoc]
      exact ⟨_, _, _, rfl, trace, ih typedRest readableRest replays⟩

structure DamagedLog where
  earlier : List (List WALRecord)
  before : List WALRecord
  record : WALRecord
  damaged : Bytes
  after : List WALRecord
  later : List (List WALRecord)
  written : ∀ r ∈ earlier.flatten ++ (before ++ record :: after ++ later.flatten),
    r.Typed ∧ r.encodedLength ≤ WALRecord.maxEncodedLength
  length : damaged.length = record.frame.length
  /-- The check of the altered record fails. -/
  broken : ¬Decodable (stream WALRecord.frame before ++ (damaged ++ stream WALRecord.frame after))
    (stream WALRecord.frame before).length

namespace DamagedLog
variable (log : DamagedLog)

def contents : Bytes :=
  stream WALRecord.frame log.before ++ (log.damaged ++ stream WALRecord.frame log.after)

def files : List Bytes :=
  log.earlier.map (stream WALRecord.frame) ++ log.contents :: log.later.map (stream WALRecord.frame)

def start : Nat := (stream WALRecord.frame log.before).length

def behind : Nat := log.start + log.record.frame.length

def others : List WALRecord :=
  log.earlier.flatten ++ (log.before ++ (log.after ++ log.later.flatten))

/-- Recovery applies records that were written to the log, each where it was written and at most
once, in order, and all of those behind the damaged one. -/
def RecoversGenuine (cmp : Comparator) (options : MemTableOptions) : Prop :=
  ∃ front here, ∃ st' : Recovery cmp,
    FilesRead options log.files ⟨.new options, []⟩ (front ++ here :: log.later.map (placed 0)) st' ∧
    List.Forall₂ List.Sublist front (log.earlier.map (placed 0)) ∧
    here.Sublist (placed 0 (log.before ++ log.record :: log.after)) ∧
    ∀ x ∈ placed log.behind log.after, x ∈ here

/-- The altered length is refused, or its bytes are there. -/
def LengthStands : Prop :=
  decodeFixed (log.damaged.take 4) = 0 ∨ maxRecordLength < decodeFixed (log.damaged.take 4) ∨
    log.start + 4 + decodeFixed (log.damaged.take 4) ≤ log.contents.length

/-- Resynchronisation gets from the damaged record to the one behind it. -/
structure Resyncs : Prop where
  followed : log.after ≠ []
  window : log.record.frame.length ≤ maxResyncBytes
  /-- Nothing that begins inside the damaged record reads as a record. -/
  inside : ∀ q, log.start < q → q < log.behind → ¬Decodable log.contents q
  length : log.LengthStands

theorem drop_start :
    log.contents.drop log.start = log.damaged ++ stream WALRecord.frame log.after :=
  List.drop_left

theorem drop_behind : log.contents.drop log.behind = stream WALRecord.frame log.after := by
  rw [behind, ← List.drop_drop, drop_start, ← log.length, List.drop_left]

theorem length_contents :
    log.contents.length = log.behind + (stream WALRecord.frame log.after).length := by
  rw [contents, List.length_append, List.length_append, log.length, behind, start, Nat.add_assoc]

theorem read_start : ∃ status reader,
    (standing log.contents log.start).readNextRecord = (.error status, reader) ∧
      status.isIncomplete = false ∧ (reader.file.fail = false ↔ log.LengthStands) := by
  have four : (log.damaged.take 4).length = 4 := by
    apply List.length_take_of_le
    rw [log.length, WALRecord.length_frame]
    exact Nat.le_add_right ..
  have same : log.damaged.take 4 = putFixed32 (decodeFixed (log.damaged.take 4)) := by
    have back := putFixed_decodeFixed (log.damaged.take 4)
    rw [four] at back
    exact back.symm
  have fits : decodeFixed (log.damaged.take 4) < 256 ^ 4 := by
    have bound := decodeFixed_lt (log.damaged.take 4)
    rwa [four] at bound
  have parts : log.contents.drop log.start = putFixed32 (decodeFixed (log.damaged.take 4)) ++
      (log.damaged.drop 4 ++ stream WALRecord.frame log.after) := by
    rw [← same, ← List.append_assoc, List.take_append_drop, drop_start]
  have total : log.contents.length = log.start + 4 +
      (log.damaged.drop 4 ++ stream WALRecord.frame log.after).length := by
    have whole := congrArg List.length parts
    rw [List.length_drop, List.length_append, length_putFixed32] at whole
    have inside : log.start ≤ log.contents.length := by
      rw [length_contents, behind]
      omega
    omega
  have read := readNextRecord_of_length fits parts
  have broken : ¬Decodable log.contents log.start := log.broken
  rw [Decodable] at broken
  rw [LengthStands, total]
  by_cases refused : decodeFixed (log.damaged.take 4) = 0 ∨
      maxRecordLength < decodeFixed (log.damaged.take 4)
  · rw [if_pos refused] at read
    exact ⟨_, _, read, rfl, iff_of_true rfl (by omega)⟩
  rw [if_neg refused] at read
  split at read
  · rename_i short
    exact ⟨_, _, read, rfl, iff_of_false (by simp) (by omega)⟩
  · rename_i long
    cases decoded : WALRecord.decode ((log.damaged.drop 4 ++
        stream WALRecord.frame log.after).take (decodeFixed (log.damaged.take 4))) with
    | error status =>
        rw [decoded] at read
        exact ⟨_, _, read, WALRecord.decode_error decoded, iff_of_true rfl (by omega)⟩
    | ok r =>
        rw [decoded] at read
        rw [read] at broken
        exact absurd rfl broken

theorem decodable_behind {r : WALRecord} {rest : List WALRecord} (after : log.after = r :: rest)
    (readable : r.Readable) : Decodable log.contents log.behind := by
  have mem : r ∈ log.earlier.flatten ++ (log.before ++ log.record :: log.after ++
      log.later.flatten) := by
    simp [after]
  have parts := log.drop_behind
  rw [after, stream_cons] at parts
  rw [Decodable, readNextRecord_frame (log.written r mem).1 readable parts]
  rfl

theorem mem_placed {x : Nat × WALRecord}
    (mem : x ∈ placed 0 (log.before ++ log.record :: log.after)) :
    x ∈ placed 0 log.before ∧ x.1 < log.start ∨ x = (log.start, log.record) ∨
      x ∈ placed log.behind log.after ∧ log.behind ≤ x.1 := by
  rw [placed_append, List.mem_append, Nat.zero_add, placed, List.mem_cons] at mem
  obtain early | here | late := mem
  · have bound := (bounds_of_mem_placed early).2
    have long := x.2.encodedLength_pos
    rw [WALRecord.length_frame, Nat.zero_add] at bound
    change _ ≤ log.start at bound
    exact .inl ⟨early, by omega⟩
  · exact .inr (.inl here)
  · exact .inr (.inr ⟨late, (bounds_of_mem_placed late).1⟩)

theorem resyncs_of_reads {here : List (Nat × WALRecord)}
    (trace : Reads options log.contents log.start st here st')
    (genuine : ∀ x ∈ here, x ∈ placed 0 (log.before ++ log.record :: log.after))
    (complete : ∀ x ∈ placed log.behind log.after, x ∈ here) :
    log.Resyncs ∧ Reads options log.contents log.behind st here st' := by
  obtain ⟨status, reader, read, broken, stands⟩ := log.read_start
  obtain ⟨next, x, later, found, seekable, rfl, rest⟩ := trace.of_broken read broken
  obtain ⟨above, window, decodable, first⟩ := tryResync_eq_some_iff.mp found
  obtain ⟨r, read', -, inside⟩ := decodable_iff.mp decodable
  obtain ⟨_, _, same, -, ending⟩ := rest.of_record read'
  cases same
  have long := x.encodedLength_pos
  rw [WALRecord.length_frame] at inside ending
  have place : log.behind ≤ next := by
    obtain ⟨-, early⟩ | here | ⟨-, late⟩ := log.mem_placed (genuine _ (List.mem_cons_self ..))
    · exact absurd early above.le.not_gt
    · exact absurd (Prod.mk.inj here).1 above.ne'
    · exact late
  -- The record behind the damaged one is read, and nothing is read before it.
  cases after : log.after with
  | nil =>
      have total := log.length_contents
      rw [after, stream_nil, List.length_nil] at total
      omega
  | cons a more =>
      have first' : (log.behind, a) ∈ placed log.behind log.after := by
        rw [after, placed]
        exact List.mem_cons_self ..
      obtain same | late := List.mem_cons.mp (complete _ first')
      · obtain rfl := (Prod.mk.inj same).1
        refine ⟨⟨by simp [after], ?_, first, stands.mp seekable⟩, rest⟩
        rw [behind] at window
        omega
      · have beyond := ending.position_le _ late
        exact absurd beyond (by dsimp only; omega)

theorem reads_of_genuine {here : List (Nat × WALRecord)}
    (trace : Reads options log.contents 0 st here st')
    (genuine : ∀ x ∈ here, x ∈ placed 0 (log.before ++ log.record :: log.after))
    (complete : ∀ x ∈ placed log.behind log.after, x ∈ here) :
    log.Resyncs ∧ (∀ r ∈ log.before ++ log.after, r.Readable) ∧
      ∃ state, st.state.replay options (log.before ++ log.after) = .ok state ∧
        st' = ⟨state, st.applied ++ (log.before ++ log.after)⟩ := by
  have written (r : WALRecord) (mem : r ∈ log.before ++ log.after) :
      r.Typed ∧ r.encodedLength ≤ WALRecord.maxEncodedLength := by
    apply log.written
    simp only [List.mem_append, List.mem_cons] at mem ⊢
    tauto
  have genuineBefore : ∀ x ∈ here,
      x.1 < 0 + (stream WALRecord.frame log.before).length → x ∈ placed 0 log.before := by
    intro x mem early
    rw [Nat.zero_add] at early
    change x.1 < log.start at early
    obtain ⟨there, -⟩ | rfl | ⟨-, late⟩ := log.mem_placed (genuine x mem)
    · exact there
    · exact absurd early (lt_irrefl _)
    · rw [behind] at late
      omega
  obtain ⟨readable, state, tail, replays, rfl, fromStart⟩ := trace.of_stream
    (fun r mem => written r (List.mem_append_left _ mem)) rfl genuineBefore
  rw [Nat.zero_add] at fromStart
  have genuineTail : ∀ x ∈ tail, x ∈ placed 0 (log.before ++ log.record :: log.after) :=
    fun x mem => genuine x (List.mem_append_right _ mem)
  have completeTail : ∀ x ∈ placed log.behind log.after, x ∈ tail := by
    intro x mem
    obtain early | late := List.mem_append.mp (complete x mem)
    · have above := (bounds_of_mem_placed mem).1
      have below := (bounds_of_mem_placed early).2
      rw [Nat.zero_add] at below
      change _ ≤ log.start at below
      rw [WALRecord.length_frame] at below
      rw [behind] at above
      omega
    · exact late
  obtain ⟨resyncs, fromBehind⟩ := log.resyncs_of_reads fromStart genuineTail completeTail
  have genuineAfter : ∀ x ∈ tail,
      x.1 < log.behind + (stream WALRecord.frame log.after).length →
        x ∈ placed log.behind log.after := by
    intro x mem _
    have above := fromBehind.position_le x mem
    rw [behind] at above
    obtain ⟨-, early⟩ | rfl | ⟨there, -⟩ := log.mem_placed (genuineTail x mem)
    · omega
    · rw [WALRecord.length_frame] at above
      exact absurd above (by dsimp only; omega)
    · exact there
  obtain ⟨readableAfter, state', rest, replaysAfter, -, ending⟩ := fromBehind.of_stream
    (fun r mem => written r (List.mem_append_right _ mem))
    (log.drop_behind.trans (List.append_nil _).symm) genuineAfter
  have last : log.contents.drop (log.behind + (stream WALRecord.frame log.after).length) = [] := by
    rw [← log.length_contents, List.drop_length]
  obtain ⟨-, rfl⟩ := (Reads.at_end last).mp ending
  refine ⟨resyncs, List.forall_mem_append.mpr ⟨readable, readableAfter⟩, state', ?_, ?_⟩
  · rw [ReplayState.replay_append, replays]
    exact replaysAfter
  · rw [List.append_assoc]

theorem tryResync_start (resyncs : log.Resyncs) (readable : ∀ r ∈ log.after, r.Readable) :
    tryResync log.contents log.start = some log.behind := by
  obtain ⟨followed, window, inside, -⟩ := resyncs
  obtain ⟨r, rest, after⟩ := List.exists_cons_of_ne_nil followed
  refine tryResync_eq_some_iff.mpr ⟨?_, ?_, ?_, inside⟩
  · rw [behind, WALRecord.length_frame]
    omega
  · rw [behind]
    omega
  · refine log.decodable_behind after (readable r ?_)
    rw [after]
    exact List.mem_cons_self ..

theorem genuine_of_resyncs (resyncs : log.Resyncs)
    (readable : ∀ r ∈ log.before ++ log.after, r.Readable) {state : ReplayState cmp}
    (replays : st.state.replay options (log.before ++ log.after) = .ok state) :
    Reads options log.contents 0 st (placed 0 log.before ++ placed log.behind log.after)
      ⟨state, st.applied ++ (log.before ++ log.after)⟩ := by
  have typed (r : WALRecord) (mem : r ∈ log.before ++ log.after) : r.Typed := by
    refine (log.written r ?_).1
    simp only [List.mem_append, List.mem_cons] at mem ⊢
    tauto
  obtain ⟨readableBefore, readableAfter⟩ := List.forall_mem_append.mp readable
  obtain ⟨status, reader, read, broken, stands⟩ := log.read_start
  rw [ReplayState.replay_append] at replays
  cases front : st.state.replay options log.before with
  | error status =>
      rw [front] at replays
      cases replays
  | ok mid =>
  rw [front] at replays
  have last : log.contents.drop (log.behind + (stream WALRecord.frame log.after).length) = [] := by
    rw [← log.length_contents, List.drop_length]
  have fromBehind : Reads options log.contents log.behind ⟨mid, st.applied ++ log.before⟩
      (placed log.behind log.after) ⟨state, st.applied ++ (log.before ++ log.after)⟩ := by
    rw [← List.append_nil (placed log.behind log.after), ← List.append_assoc]
    exact .stream (fun r mem => typed r (List.mem_append_right _ mem)) readableAfter
      (log.drop_behind.trans (List.append_nil _).symm) replays
      ((Reads.at_end last).mpr ⟨rfl, rfl⟩)
  have fromStart := Reads.resynced read broken (log.tryResync_start resyncs readableAfter)
    (stands.mpr resyncs.length) fromBehind
  refine .stream (fun r mem => typed r (List.mem_append_left _ mem)) readableBefore rfl front ?_
  rw [Nat.zero_add]
  exact fromStart

theorem resyncs_of_genuine (genuine : log.RecoversGenuine cmp options) :
    log.Resyncs ∧ (∀ r ∈ log.others, r.Readable) ∧ Replayable log.others := by
  obtain ⟨front, here, st', traces, parts, inside, complete⟩ := genuine
  have lengths : front.length = (log.earlier.map (stream WALRecord.frame)).length := by
    rw [parts.length_eq, List.length_map, List.length_map]
  have writtenEarlier : ∀ r ∈ log.earlier.flatten,
      r.Typed ∧ r.encodedLength ≤ WALRecord.maxEncodedLength :=
    fun r mem => log.written r (List.mem_append_left _ mem)
  have writtenLater : ∀ r ∈ log.later.flatten,
      r.Typed ∧ r.encodedLength ≤ WALRecord.maxEncodedLength :=
    fun r mem => log.written r (List.mem_append_right _ (List.mem_append_right _ mem))
  obtain ⟨mid, tracesEarlier, _, _, mid', same, trace, tracesLater⟩ :=
    (filesRead_append lengths).mp traces
  obtain ⟨rfl, rfl⟩ := List.cons.inj same
  obtain ⟨readableEarlier, state, replays, rfl⟩ := tracesEarlier.of_whole writtenEarlier parts
  obtain ⟨resyncs, readable, state', replays', rfl⟩ :=
    log.reads_of_genuine trace inside.subset complete
  obtain ⟨readableLater, state'', replays'', -⟩ :=
    tracesLater.of_whole writtenLater (List.forall₂_same.mpr fun _ _ => .refl _)
  refine ⟨resyncs, ?_, (@ReplayState.replay_ok_iff cmp options _).mp ⟨state'', ?_⟩⟩
  · rw [others, ← List.append_assoc log.before]
    exact List.forall_mem_append.mpr ⟨readableEarlier,
      List.forall_mem_append.mpr ⟨readable, readableLater⟩⟩
  · rw [others, ReplayState.replay_append, replays, ← List.append_assoc]
    change state.replay options (log.before ++ log.after ++ log.later.flatten) = _
    rw [ReplayState.replay_append, replays']
    exact replays''

/-- Recovery of a log with one damaged record applies genuine records only, and all of those behind
the damaged one, if and only if resynchronisation gets from that record to the one behind it and
recovery takes every other record. -/
theorem recoversGenuine_iff (cmp : Comparator) (options : MemTableOptions) :
    log.RecoversGenuine cmp options ↔
      log.Resyncs ∧ (∀ r ∈ log.others, r.Readable) ∧ Replayable log.others := by
  refine ⟨log.resyncs_of_genuine, fun ⟨resyncs, readable, replayable⟩ => ?_⟩
  obtain ⟨state, replays⟩ := (@ReplayState.replay_ok_iff cmp options _).mpr replayable
  rw [others, ← List.append_assoc log.before] at readable
  obtain ⟨readableEarlier, readableRest⟩ := List.forall_mem_append.mp readable
  obtain ⟨readableHere, readableLater⟩ := List.forall_mem_append.mp readableRest
  rw [others, ← List.append_assoc log.before, ReplayState.replay_append] at replays
  cases front : (ReplayState.new options : ReplayState cmp).replay options log.earlier.flatten with
  | error status =>
      rw [front] at replays
      cases replays
  | ok first =>
  rw [front] at replays
  change first.replay options (log.before ++ log.after ++ log.later.flatten) = _ at replays
  rw [ReplayState.replay_append] at replays
  cases middle : first.replay options (log.before ++ log.after) with
  | error status =>
      rw [middle] at replays
      cases replays
  | ok second =>
  rw [middle] at replays
  have typedEarlier : ∀ r ∈ log.earlier.flatten, r.Typed :=
    fun r mem => (log.written r (List.mem_append_left _ mem)).1
  have typedLater : ∀ r ∈ log.later.flatten, r.Typed :=
    fun r mem => (log.written r (List.mem_append_right _ (List.mem_append_right _ mem))).1
  have tracesEarlier : FilesRead options _ ⟨.new options, []⟩ _ _ :=
    .whole typedEarlier readableEarlier front
  have trace : Reads options log.contents 0 ⟨first, [] ++ log.earlier.flatten⟩ _ _ :=
    log.genuine_of_resyncs resyncs readableHere middle
  have tracesLater : FilesRead options _
      ⟨second, [] ++ log.earlier.flatten ++ (log.before ++ log.after)⟩ _ _ :=
    .whole typedLater readableLater replays
  refine ⟨_, _, _, (filesRead_append (by simp)).mpr
    ⟨_, tracesEarlier, _, _, _, rfl, trace, tracesLater⟩, List.forall₂_same.mpr fun _ _ => .refl _, ?_, fun x mem =>
      List.mem_append_right _ mem⟩
  rw [placed_append, Nat.zero_add, placed]
  exact (List.sublist_cons_self ..).append_left _

end DamagedLog

def forgedRecord : WALRecord := .ofWrite 0 [120] 9 (some [1])

def carrierRecord : WALRecord := .ofWrite 0 [107] 1 (some forgedRecord.frame)

def carrierLog : DamagedLog where
  earlier := []
  before := []
  record := carrierRecord
  damaged := carrierRecord.frame.dropLast ++ [carrierRecord.frame.getLastD 0 + 1]
  after := [.ofWrite 0 [108] 2 none]
  later := []
  written := by
    simp only [List.flatten_nil, List.nil_append, List.append_nil, List.forall_mem_cons,
      List.not_mem_nil, false_imp_iff, implies_true, and_true]
    exact ⟨⟨⟨rfl, by decide, by decide, by decide⟩, by decide +kernel⟩,
      ⟨⟨rfl, by decide, by decide, by decide⟩, by decide⟩⟩
  length := by decide +kernel
  broken := by decide +kernel

theorem recoversGenuine_fails_carrier : ¬carrierLog.RecoversGenuine bytewiseComparator {} := by
  intro genuine
  have forged : Decodable carrierLog.contents 34 := by decide +kernel
  exact (carrierLog.resyncs_of_genuine genuine).1.inside 34 (by decide +kernel) (by decide +kernel)
    forged

end Lrdb
