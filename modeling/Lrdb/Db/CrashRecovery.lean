import Lrdb.Db.Logged
import Lrdb.Storage.Stamps

namespace Lrdb.Session
open Versions TxManager Runs ReplayState

variable {cmp : Comparator} {options : LSMTreeOptions} {st st' : Session cmp} {base : Nat}
  {lsm : LSMTree cmp}

def recover (memtable : MemTableOptions) (st : Session cmp) : Except Status (ReplayState cmp) :=
  (ReplayState.new memtable : ReplayState cmp).replay memtable st.wal

def SingleRecords (st : Session cmp) : Prop :=
  ∀ key sequence content other, st.Has key sequence content → st.Has key sequence other →
    content = other

theorem wal_step {action : SessionAction} (stepped : st.step options action = some st') :
    st'.columnFamilyId = st.columnFamilyId ∧ (st'.wal = st.wal ∨
      ∃ txn t sequence key rest content, st.manager.txns txn = some t ∧
        t.stage = .logging sequence (key :: rest) ∧
          st'.wal = st.wal ++ [.ofWrite st.columnFamilyId key sequence content]) := by
  cases action with
  | transaction a =>
      simp only [step] at stepped
      split at stepped <;> [cases stepped; skip]
      obtain ⟨manager, -, rfl⟩ := Option.map_eq_some_iff.mp stepped
      exact ⟨rfl, .inl rfl⟩
  | log txn fault =>
      obtain ⟨t, sequence, key, rest, found, stage, outcome⟩ := log_cases stepped
      rcases outcome with ⟨-, rfl⟩ | ⟨r, status, wal, -, result, rfl⟩
      · exact ⟨rfl, .inl rfl⟩
      · refine ⟨rfl, ?_⟩
        rcases Log.writeKey_cases result with ⟨-, grown⟩ | ⟨-, same | grown⟩
        · exact .inr ⟨txn, t, sequence, key, rest, r.written, found, stage, grown⟩
        · exact .inl same
        · exact .inr ⟨txn, t, sequence, key, rest, r.written, found, stage, grown⟩
  | flushWrite call =>
      simp only [step, flushWrite] at stepped
      split at stepped <;> [skip; cases stepped]
      obtain ⟨manager, -, rfl⟩ := Option.map_eq_some_iff.mp stepped
      exact ⟨rfl, .inl rfl⟩
  | switchMemTable =>
      obtain ⟨tree, -, rfl⟩ := Option.map_eq_some_iff.mp stepped
      exact ⟨rfl, .inl rfl⟩
  | flushOldestMemTable =>
      obtain rfl := Option.some.inj stepped
      exact ⟨rfl, .inl rfl⟩

theorem singleRecords_step (logged : Logged st) (single : st.SingleRecords) {action : SessionAction}
    (stepped : st.step options action = some st') : st'.SingleRecords := by
  obtain ⟨family, same | ⟨txn, t, sequence, key, rest, content, found, stage, grown⟩⟩ :=
    wal_step stepped
  · intro k s c d
    rw [Has, Has, same, family]
    exact single k s c d
  · have missing := logged.missing found stage
    intro k s c d
    rw [Has, Has, grown, family]
    simp only [List.mem_append, List.mem_singleton]
    rintro (first | first) (second | second)
    · exact single k s c d first second
    · obtain ⟨rfl, rfl, rfl⟩ := WALRecord.ofWrite_inj second
      exact absurd first (missing c)
    · obtain ⟨rfl, rfl, rfl⟩ := WALRecord.ofWrite_inj first
      exact absurd second (missing d)
    · exact (WALRecord.ofWrite_inj first).2.2.trans (WALRecord.ofWrite_inj second).2.2.symm

theorem singleRecords_of_run {guard : Session cmp → SessionAction → Prop} {nextSequence : Nat}
    (run : Run (step options) guard (opened lsm nextSequence) st) : st.SingleRecords :=
  (run.invariant
    (p := fun st => (st.manager.Coherent nextSequence ∧ Logged st) ∧ st.SingleRecords)
    (fun _ _ _ _ stepped all => ⟨⟨coherent_step stepped all.1.1, all.1.2.step all.1.1 stepped⟩,
      singleRecords_step all.1.2 all.2 stepped⟩)
    ⟨⟨TxManager.Coherent.initial nextSequence, logged_opened lsm nextSequence⟩,
      fun _ _ _ _ has => by simp [Has, opened] at has⟩).2

theorem recover_ok (logged : Logged st) (single : st.SingleRecords)
    (bounded : st.manager.nextSequence ≤ sequenceLimit) (memtable : MemTableOptions) :
    ∃ recovered, st.recover memtable = .ok recovered ∧ ∀ key w,
      w ∈ (recovered.memtable.versions key).map stampOf ↔ st.Has key w.1 w.2 := by
  have plain : ∀ r ∈ st.wal, Plain r := by
    intro r member
    obtain ⟨key, sequence, content, rfl, -⟩ := logged.records r member
    exact plain_ofWrite ..
  have small : ∀ r ∈ st.wal, r.sequenceNumber < sequenceLimit := by
    intro r member
    obtain ⟨key, sequence, content, rfl, less⟩ := logged.records r member
    cases content <;> exact less.trans_le bounded
  have consistent : Consistent ([] ++ st.wal) := by
    intro r hr r' hr' keys sequences
    obtain ⟨key, sequence, content, rfl, -⟩ := logged.records r hr
    obtain ⟨key', sequence', content', rfl, -⟩ := logged.records r' hr'
    obtain rfl : key = key' := by cases content <;> cases content' <;> exact keys
    obtain rfl : sequence = sequence' := by cases content <;> cases content' <;> exact sequences
    rw [single key sequence content content' hr hr']
  obtain ⟨recovered, replays, result⟩ :=
    @replay_plain _ memtable _ _ _ replayed_new plain small consistent
  refine ⟨recovered, replays, fun key w => ?_⟩
  obtain ⟨s, c⟩ := w
  simp only [List.mem_map, result.versions, List.nil_append]
  constructor
  · rintro ⟨version, ⟨r, member, rfl, rfl⟩, stamp⟩
    obtain ⟨key, sequence, content, rfl, -⟩ := logged.records r member
    have here : stampOf (versionOf (.ofWrite st.columnFamilyId key sequence content)) =
        (sequence, content) := by cases content <;> rfl
    obtain ⟨rfl, rfl⟩ := Prod.mk.inj (here.symm.trans stamp)
    cases content <;> exact member
  · intro has
    refine ⟨versionOf (.ofWrite st.columnFamilyId key s c), ⟨_, has, ?_, rfl⟩, ?_⟩ <;>
      cases c <;> rfl

end Lrdb.Session
