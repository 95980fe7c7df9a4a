import Lrdb.Db.Content
import Lrdb.Db.Logged

namespace Lrdb
open Versions

namespace TxManager
variable {m : TxManager} {base : Nat}

def lastWrites (m : TxManager) (key : Key) : List Stamp :=
  m.commits.flatMap fun c =>
    (writesTo key c.writes).head?.toList.map fun content => (c.sequence, content)

theorem mem_lastWrites {key : Key} {w : Stamp} : w ∈ m.lastWrites key ↔
    ∃ c ∈ m.commits, c.sequence = w.1 ∧ (writesTo key c.writes).head? = some w.2 := by
  obtain ⟨sequence, content⟩ := w
  simp only [lastWrites, List.mem_flatMap, List.mem_map, Option.mem_toList,
    Prod.mk.injEq]
  constructor
  · rintro ⟨c, member, _, head, rfl, rfl⟩
    exact ⟨c, member, rfl, head⟩
  · rintro ⟨c, member, rfl, head⟩
    exact ⟨c, member, content, head, rfl, rfl⟩

private theorem newestUpTo_commit (snapshot sequence : Nat) (written : List (Option Value)) :
    newestUpTo snapshot (written.map fun content => (sequence, content)) =
      newestUpTo snapshot (written.head?.toList.map fun content => (sequence, content)) := by
  cases written with
  | nil => rfl
  | cons first rest =>
      by_cases visible : sequence ≤ snapshot
      · rw [newestUpTo_of_le (by simp [visible]), newestUpTo_of_le (by simp [visible])]
        exact newest_of_descending (by simp)
      · simp [newestUpTo, visible, List.filter_map, Function.comp_def]

theorem newestUpTo_history (m : TxManager) (key : Key) (snapshot : Nat) :
    newestUpTo snapshot (m.history key) = newestUpTo snapshot (m.lastWrites key) := by
  rw [history, lastWrites]
  induction m.commits with
  | nil => rfl
  | cons c rest ih =>
      rw [List.flatMap_cons, List.flatMap_cons, newestUpTo_append, newestUpTo_append, ih,
        newestUpTo_commit]

theorem Coherent.functional_lastWrites (coherent : Coherent base m) (key : Key) :
    Functional (m.lastWrites key) := by
  intro x hx y hy same
  obtain ⟨c, hc, cx, headX⟩ := mem_lastWrites.mp hx
  obtain ⟨d, hd, dy, headY⟩ := mem_lastWrites.mp hy
  obtain rfl := coherent.commit_unique hc hd (cx.trans (same.trans dy.symm))
  exact Prod.ext same (Option.some.inj (headX.symm.trans headY))

end TxManager

namespace Session
open LSMTree Runs TxManager ReplayState

variable {cmp : Comparator} {options : LSMTreeOptions} {st : Session cmp} {lsm : LSMTree cmp}
  {base : Nat}

def AllFlushed (st : Session cmp) : Prop :=
  ∀ key, ∀ r ∈ st.manager.chain key, r.isCommitted → r.flushed

instance (st : Session cmp) : Decidable st.AllFlushed :=
  decidable_of_iff
    (∀ key ∈ st.manager.versions.keys, ∀ r ∈ st.manager.chain key, r.isCommitted → r.flushed) <| by
      refine ⟨fun present key r member => ?_, fun all key _ => all key⟩
      by_cases known : key ∈ st.manager.versions.keys
      · exact present key known r member
      · rw [TxManager.chain, st.manager.versions.absent key known] at member
        cases member

def commitRecords (st : Session cmp) : Log :=
  st.wal.filter fun r => st.manager.commits.any fun c => c.sequence == r.sequenceNumber

theorem Faithful.mem_stamps_iff (faithful : Faithful lsm base st) (flushed : st.AllFlushed)
    {key : Key} {w : Stamp} : w ∈ st.lsm.stamps key ↔ w ∈ known lsm st key := by
  refine ⟨fun member => List.mem_append.mpr (faithful.sound key w member).symm, fun member => ?_⟩
  rcases List.mem_append.mp member with inHistory | initial
  · rcases faithful.complete key w inHistory with chained | stored
    · obtain ⟨r, inChain, isCommitted, rfl⟩ := Chain.mem_committed.mp chained
      exact faithful.flushed key r inChain isCommitted (flushed key r inChain isCommitted)
    · exact stored
  · exact faithful.initial key w initial

theorem Logged.mem_commitRecords (logged : Logged st) {r : WALRecord} : r ∈ st.commitRecords ↔
    ∃ key, ∃ w ∈ st.manager.lastWrites key, r = .ofWrite st.columnFamilyId key w.1 w.2 := by
  simp only [commitRecords, List.mem_filter, List.any_eq_true, beq_iff_eq]
  constructor
  · rintro ⟨member, c, inCommits, same⟩
    obtain ⟨key, sequence, content, rfl, -⟩ := logged.records r member
    have here : c.sequence = sequence := by
      rw [same]
      cases content <;> rfl
    subst here
    exact ⟨key, (c.sequence, content),
      mem_lastWrites.mpr ⟨c, inCommits, rfl, (logged.commits c inCommits key content).mp member⟩, rfl⟩
  · rintro ⟨key, w, member, rfl⟩
    obtain ⟨c, inCommits, same, head⟩ := mem_lastWrites.mp member
    rw [← same]
    refine ⟨(logged.commits c inCommits key w.2).mpr head, c, inCommits, ?_⟩
    cases w.2 <;> rfl

theorem Logged.replay_commits (logged : Logged st) (coherent : st.manager.Coherent base)
    (bounded : ∀ key, ∀ w ∈ st.manager.history key, w.1 < sequenceLimit)
    (memtable : MemTableOptions) :
    ∃ replayed, (ReplayState.new memtable : ReplayState cmp).replay memtable st.commitRecords =
        .ok replayed ∧ ∀ key snapshot,
      newestUpTo snapshot ((replayed.memtable.versions key).map stampOf) =
        newestUpTo snapshot (st.manager.history key) := by
  have sequenceNumber (key : Key) (w : Stamp) :
      (WALRecord.ofWrite st.columnFamilyId key w.1 w.2).sequenceNumber = w.1 := by
    cases w.2 <;> rfl
  have keyOf (key : Key) (w : Stamp) :
      (WALRecord.ofWrite st.columnFamilyId key w.1 w.2).key = key := by
    cases w.2 <;> rfl
  have stamp (key : Key) (w : Stamp) :
      stampOf (versionOf (.ofWrite st.columnFamilyId key w.1 w.2)) = w := by
    obtain ⟨sequence, content⟩ := w
    cases content <;> rfl
  have plain : ∀ r ∈ st.commitRecords, Plain r := by
    intro r member
    obtain ⟨key, w, -, rfl⟩ := logged.mem_commitRecords.mp member
    exact plain_ofWrite ..
  have small : ∀ r ∈ st.commitRecords, r.sequenceNumber < sequenceLimit := by
    intro r member
    obtain ⟨key, w, last, rfl⟩ := logged.mem_commitRecords.mp member
    obtain ⟨c, inCommits, same, head⟩ := mem_lastWrites.mp last
    rw [sequenceNumber]
    exact bounded key w (mem_history.mpr ⟨c, inCommits, same, List.mem_of_head? head⟩)
  have consistent : Consistent st.commitRecords := by
    intro r hr r' hr' keys sequences
    obtain ⟨key, w, last, rfl⟩ := logged.mem_commitRecords.mp hr
    obtain ⟨key', w', last', rfl⟩ := logged.mem_commitRecords.mp hr'
    rw [keyOf, keyOf] at keys
    subst keys
    rw [sequenceNumber, sequenceNumber] at sequences
    rw [coherent.functional_lastWrites key w last w' last' sequences]
  obtain ⟨replayed, replays, result⟩ :=
    @replay_plain _ memtable _ _ _ replayed_new plain small consistent
  refine ⟨replayed, replays, fun key snapshot => ?_⟩
  rw [newestUpTo_history]
  refine newestUpTo_congr (coherent.functional_lastWrites key) fun w => ?_
  simp only [List.mem_map, result.versions, List.nil_append, logged.mem_commitRecords]
  constructor
  · rintro ⟨_, ⟨r, ⟨key', w', last, rfl⟩, same, rfl⟩, rfl⟩
    rw [keyOf] at same
    rw [stamp]
    exact same ▸ last
  · intro last
    exact ⟨_, ⟨_, ⟨key, w, last, rfl⟩, keyOf key w, rfl⟩, stamp key w⟩

/-- Tree, chain and log give the same newest write of a key not above the snapshot. -/
structure TellsSame (lsm : LSMTree cmp) (memtable : MemTableOptions) (st : Session cmp)
    (key : Key) (snapshot : Nat) : Prop where
  tree : newestUpTo snapshot (st.lsm.stamps key) =
    (newestUpTo snapshot (st.manager.history key)).or (newestUpTo snapshot (lsm.stamps key))
  chain : ∀ w ∈ newestUpTo snapshot (Chain.committed (st.manager.chain key)),
    newestUpTo snapshot (st.lsm.stamps key) = some w
  log : ∃ replayed, (ReplayState.new memtable : ReplayState cmp).replay memtable st.commitRecords =
    .ok replayed ∧ newestUpTo snapshot ((replayed.memtable.versions key).map stampOf) =
      newestUpTo snapshot (st.manager.history key)

/-- In every run whose flushes agree with what the tree has under their sequences, once all is
flushed the tree has the newest committed write of every key at every sequence, and so has a replay
of the log. -/
theorem tellsSame_of_run {nextSequence : Nat} (start : Start lsm nextSequence)
    (run : Run (step options) FlushAgrees (opened lsm nextSequence) st) (flushed : st.AllFlushed)
    (memtable : MemTableOptions) (key : Key) (snapshot : Nat) :
    TellsSame lsm memtable st key snapshot := by
  have faithful := faithful_of_run start run
  have coherent := faithful.coherent
  have functional : Functional (known lsm st key) :=
    (faithful.functional key).subset fun w => (faithful.mem_stamps_iff flushed).mpr
  have tree : newestUpTo snapshot (st.lsm.stamps key) = newestUpTo snapshot (known lsm st key) :=
    newestUpTo_congr functional fun w => faithful.mem_stamps_iff flushed
  have bounded : ∀ key, ∀ w ∈ st.manager.history key, w.1 < sequenceLimit := by
    intro key w inHistory
    obtain ⟨version, held, rfl⟩ := mem_stamps.mp
      ((faithful.mem_stamps_iff flushed).mpr (List.mem_append_left _ inHistory))
    exact below_sequenceLimit.holds held
  refine ⟨?_, fun w found => ?_, ?_⟩
  · rw [tree, known, newestUpTo_append_of_le (known_ordered start coherent key)]
  · rw [tree, faithful.newestUpTo_known start, Option.mem_def.mp found]
    rfl
  · obtain ⟨replayed, replays, same⟩ := (logged_of_run run).replay_commits coherent bounded memtable
    exact ⟨replayed, replays, same key snapshot⟩

def writeThenDelete : List SessionAction :=
  commitCall 1 [([107], some [1])] ++ commitCall 2 [([107], none)] ++ flushCall 0 2 [[107]]

theorem tellsSame_of_run_writeThenDelete :
    ∃ st, execute (step {}) (opened (.new {}) 1 : Session bytewiseComparator) writeThenDelete =
      some st ∧ TellsSame (.new {}) {} st [107] 1 := by
  obtain ⟨st, executed, flushed⟩ := Option.any_eq_true _ _ |>.mp
    (show (execute (step {}) (opened (.new {}) 1 : Session bytewiseComparator) writeThenDelete).any
      (fun st => decide st.AllFlushed) = true by decide +kernel)
  have allowed : Allowed (step {}) FlushAgrees (opened (.new {}) 1 : Session bytewiseComparator)
      writeThenDelete := by decide +kernel
  exact ⟨st, executed, tellsSame_of_run (start_new Nat.one_pos) (execute_run _ allowed executed)
    (of_decide_eq_true flushed) {} [107] 1⟩

def writeTwice : List SessionAction :=
  commitCall 1 [([107], some [1]), ([107], some [2])] ++ flushCall 0 2 [[107]]

theorem tellsSame_fails_writeTwice :
    ¬ ∀ st : Session bytewiseComparator, Run (step {}) free (opened (.new {}) 1) st →
      st.AllFlushed → ∀ key snapshot, TellsSame (.new {}) {} st key snapshot := by
  intro always
  have wrong : (execute (step {}) (opened (.new {}) 1 : Session bytewiseComparator)
      writeTwice).any fun st => st.AllFlushed ∧
        newestUpTo 1 (Chain.committed (st.manager.chain [107])) = some (1, some [2]) ∧
          newestUpTo 1 (st.lsm.stamps [107]) = some (1, some [1]) := by decide +kernel
  obtain ⟨st, executed, wrong⟩ := Option.any_eq_true _ _ |>.mp wrong
  obtain ⟨flushed, chain, tree⟩ := of_decide_eq_true wrong
  have run := execute_run writeTwice (allowed_free _ _ _) executed
  have same := (always st run flushed [107] 1).chain _ chain
  exact absurd (tree.symm.trans same) (by decide)

end Session
end Lrdb
