import Lrdb.Db.SyncedRecords

namespace Lrdb
open Versions LSMTree Runs TxManager

theorem WALDisk.logs_listed (files : WALDisk) : files.listed.logs.flatten.Perm files.logs.flatten := by
  have sorted : files.listed.Perm (files.create files.nextNumber) := List.perm_insertionSort ..
  refine (sorted.map LogFile.records).flatten.trans ?_
  unfold WALDisk.create
  split
  · exact .refl _
  · simp [WALDisk.logs]

namespace Disk
variable {cmp : Comparator} {options : LSMTreeOptions} {d : Disk}

def Covered (d : Disk) : Prop :=
  d.sstables.Below (max (greatestSequence d.logs) (d.lastSequence.getD 0) + 1)

theorem read_append_unread (d : Disk) : d.read ++ d.unreadFiles = d.files.listed := by
  unfold read unreadFiles
  split
  · rfl
  · exact List.take_append_drop ..

theorem logs_perm (d : Disk) : (d.replayed ++ d.unread).flatten.Perm d.logs.flatten := by
  have parts : d.replayed ++ d.unread = d.files.listed.logs := by
    rw [← read_append_unread]
    exact List.map_append.symm
  rw [parts]
  exact d.files.logs_listed

theorem greatestSequence_logs (d : Disk) : greatestSequence d.logs =
    max (greatestSequence d.replayed) (greatestSequence d.unread) := by
  rw [← greatestSequence_append]
  exact le_antisymm (greatestSequence_mono d.logs_perm.symm.subset)
    (greatestSequence_mono d.logs_perm.subset)

theorem recover_ok {order : List Nat} {st : ReplayState cmp} {sstables : SSTableManager}
    (recovered : d.recover cmp options order = .ok (st, sstables)) :
    st.maxSequence = greatestSequence d.replayed ∧
      ∀ bound, d.sstables.Below bound → greatestSequence d.replayed < bound →
        sstables.Below bound := by
  unfold recover at recovered
  cases replays : (ReplayState.new options.memtable : ReplayState cmp).replay options.memtable
      d.replayed.flatten with
  | error status => simp [replays, bind, Except.bind] at recovered
  | ok replayed =>
      simp only [replays, bind, Except.bind] at recovered
      split at recovered <;> [skip; cases recovered]
      obtain ⟨rfl, rfl⟩ := Prod.mk.inj (Except.ok.inj recovered)
      refine ⟨?_, fun bound below less => ?_⟩
      · rw [ReplayState.replay_maxSequence replays]
        simp [ReplayState.new, greatestSequence]
      · refine below_doFlush (below.load order) (ReplayState.replay_below ?_ replays)
        exact fun r member => (le_greatestSequence member).trans_lt less

theorem nextSequence_eq (d : Disk) (walSequence : Nat) (again : Bool) :
    d.nextSequence walSequence again =
      (if again ∧ walSequence ≠ 0 then walSequence
        else max walSequence (d.lastSequence.getD 0)) + 1 := by
  have set (start recovered : Nat) : recoverSetSnapshot start recovered =
      if recovered = 0 then start else recovered + 1 := rfl
  unfold nextSequence
  cases again with
  | false =>
      rw [if_neg (by simp), if_neg (by simp), set]
      split
      · rename_i none
        rw [none]
      · rfl
  | true =>
      by_cases none : walSequence = 0
      · simp [set, none]
      · simp [set, none]

theorem Covered.nextSequence (covered : d.Covered) {again : Bool} (sets : d.SetsCounter again) :
    d.sstables.Below (d.nextSequence (greatestSequence d.replayed) again) ∧
      greatestSequence d.logs < d.nextSequence (greatestSequence d.replayed) again := by
  rw [nextSequence_eq]
  unfold SetsCounter at sets
  have both := d.greatestSequence_logs
  split at sets
  · rename_i log
    obtain ⟨unread, below⟩ := sets
    rw [if_pos log]
    exact ⟨below, Nat.lt_succ_of_le (both.trans_le (max_le le_rfl unread))⟩
  · rename_i greater
    rw [if_neg greater]
    have reach : greatestSequence d.logs ≤
        max (greatestSequence d.replayed) (d.lastSequence.getD 0) :=
      both.trans_le (max_le (le_max_left ..) sets)
    exact ⟨covered.mono (Nat.succ_le_succ (max_le reach (le_max_right ..))), Nat.lt_succ_of_le reach⟩

theorem start_ok {f : OpenFamily cmp} {order : List Nat} {again : Bool} {left : WALDisk}
    (opens : d.start cmp options order again left = some f) : ∃ st sstables,
      d.recover cmp options order = .ok (st, sstables) ∧ d.Leaves left ∧
        f = { session := .opened (.reopened options sstables) (d.nextSequence st.maxSequence again)
              left := left
              base := d.nextSequence st.maxSequence again
              lastSequence := d.lastSequence } := by
  unfold start at opens
  split at opens <;> [cases opens; rename_i st sstables recovered]
  dsimp only at opens
  split at opens <;> [rename_i listed; cases opens]
  obtain rfl := Option.some.inj opens
  exact ⟨st, sstables, recovered, listed.2, rfl⟩

theorem interrupt_ok {d' : Disk} {order : List Nat} {left : WALDisk}
    (crashes : d.interrupt cmp options order left = some d') : ∃ st sstables,
      d.recover cmp options order = .ok (st, sstables) ∧ d.Leaves left ∧
        d' = { d with sstables := sstables, files := left } := by
  unfold interrupt at crashes
  split at crashes <;> [cases crashes; rename_i st sstables recovered]
  split at crashes <;> [rename_i listed; cases crashes]
  obtain rfl := Option.some.inj crashes
  exact ⟨st, sstables, recovered, listed.2, rfl⟩

theorem Covered.start (covered : d.Covered) {f : OpenFamily cmp} {order : List Nat} {again : Bool}
    {left : WALDisk} (sets : d.SetsCounter again)
    (opens : d.start cmp options order again left = some f) : f.Restorable ∧
      f.session.lsm.Below f.base ∧ d.sstables.Below f.base ∧ greatestSequence d.logs < f.base := by
  obtain ⟨st, sstables, recovered, -, rfl⟩ := start_ok opens
  obtain ⟨reported, flushed⟩ := recover_ok recovered
  obtain ⟨below, less⟩ := covered.nextSequence sets
  rw [← reported] at below less
  have tree : (.reopened options sstables : LSMTree cmp).Below
      (d.nextSequence st.maxSequence again) := by
    refine below_reopened (flushed _ below (lt_of_le_of_lt ?_ less))
    rw [greatestSequence_logs]
    exact le_max_left ..
  refine ⟨⟨Nat.pos_of_ne_zero ?_, .initial _, Session.logged_opened .., ?_, ?_, ?_⟩, tree, below, less⟩
  · exact (Nat.zero_le _).trans_lt less |>.ne'
  · intro txn t s found
    cases found
  · simp [Session.opened]
  · exact tree.mono (le_max_left ..)

theorem Covered.interrupt (covered : d.Covered) {d' : Disk} {order : List Nat} {left : WALDisk}
    (reaches : greatestSequence d.logs ≤ max (greatestSequence left.logs) (d.lastSequence.getD 0))
    (crashes : d.interrupt cmp options order left = some d') : d'.Covered := by
  obtain ⟨st, sstables, recovered, -, rfl⟩ := interrupt_ok crashes
  have grown := Nat.succ_le_succ (max_le reaches (le_max_right ..))
  apply (recover_ok recovered).2
  · exact covered.mono grown
  · refine Nat.lt_succ_of_le (le_trans ?_ reaches)
    rw [greatestSequence_logs]
    exact le_max_left ..

theorem Covered.create (covered : d.Covered) : Disk.Covered { d with files := d.files.listed } := by
  have same : greatestSequence d.files.listed.logs = greatestSequence d.logs :=
    le_antisymm (greatestSequence_mono d.files.logs_listed.subset)
      (greatestSequence_mono d.files.logs_listed.symm.subset)
  unfold Covered
  rw [show greatestSequence (Disk.logs { d with files := d.files.listed }) = _ from same]
  exact covered

end Disk

namespace OpenFamily
variable {cmp : Comparator} {options : LSMTreeOptions} {f : OpenFamily cmp}

theorem Restorable.covered (restorable : f.Restorable) {sstables : SSTableManager}
    {files : WALDisk} {lastSequence : Option Nat}
    (below : ∀ bound, f.session.lsm.Below bound → sstables.Below bound)
    (survives : f.Survives files.logs)
    (reaches : f.base ≤ max (greatestSequence files.logs) (lastSequence.getD 0) + 1) :
    Disk.Covered ⟨sstables, files, lastSequence⟩ := by
  apply below
  refine restorable.tree.mono (max_le reaches (Nat.succ_le_succ (le_max_of_le_left ?_)))
  refine greatestSequence_mono fun r member => survives.1.subset ?_
  exact List.mem_append_right _ (by simpa using member)

/-- LAST_SEQUENCE covers whatever the session has written. -/
theorem Restorable.closed (restorable : f.Restorable) (files : WALDisk) :
    Disk.Covered ⟨(f.session.lsm.close options).2, files, some f.session.manager.currentSequence⟩ := by
  have next : max f.base (greatestSequence [f.session.wal.take f.synced] + 1) ≤
      f.session.manager.currentSequence + 1 := by
    have positive := restorable.positive.trans_le restorable.coherent.advanced
    rw [TxManager.currentSequence, Nat.sub_add_cancel positive]
    refine max_le restorable.coherent.advanced ?_
    have small : greatestSequence [f.session.wal.take f.synced] ≤
        f.session.manager.nextSequence - 1 := by
      refine greatestSequence_le fun r member => Nat.le_sub_one_of_lt ?_
      have inWal : r ∈ f.session.wal := List.mem_of_mem_take (by simpa using member)
      obtain ⟨key, sequence, content, rfl, less⟩ := restorable.logged.records r inWal
      rwa [WALRecord.sequenceNumber_ofWrite]
    exact Nat.succ_le_of_lt (Nat.lt_of_le_sub_one positive small)
  exact (restorable.tree.mono (next.trans (Nat.succ_le_succ (le_max_right ..)))).close

end OpenFamily

namespace Lifetime
variable {cmp : Comparator} {options : LSMTreeOptions} {st st' : Lifetime cmp}

def Restorable : Lifetime cmp → Prop
  | .closed d => d.Covered
  | .opened f => f.Restorable

theorem Restorable.step (restorable : st.Restorable) {action : LifetimeAction}
    (keeps : KeepsCounter st action) (stepped : st.step options action = some st') :
    st'.Restorable := by
  cases st with
  | closed d =>
      cases action with
      | start order again left =>
          obtain ⟨f, opens, rfl⟩ := Option.map_eq_some_iff.mp stepped
          exact (Disk.Covered.start restorable keeps opens).1
      | interrupt order left =>
          obtain ⟨d', crashes, rfl⟩ := Option.map_eq_some_iff.mp stepped
          exact Disk.Covered.interrupt restorable keeps crashes
      | create =>
          obtain rfl := Option.some.inj stepped
          exact Disk.Covered.create restorable
      | session action | crash files | shutdown point => cases stepped
  | opened f =>
      cases action with
      | start order again left | create | interrupt order left => cases stepped
      | session action =>
          obtain ⟨f', moved, rfl⟩ := Option.map_eq_some_iff.mp stepped
          exact OpenFamily.Restorable.step restorable moved
      | crash files =>
          obtain ⟨d, crashes, rfl⟩ := Option.map_eq_some_iff.mp stepped
          unfold OpenFamily.crash at crashes
          split at crashes <;> [rename_i survives; cases crashes]
          obtain rfl := Option.some.inj crashes
          exact OpenFamily.Restorable.covered restorable (fun _ below => below.files) survives keeps
      | shutdown point =>
          obtain ⟨d, shuts, rfl⟩ := Option.map_eq_some_iff.mp stepped
          cases point with
          | treeClosed files =>
              simp only [OpenFamily.shutdown] at shuts
              split at shuts <;> [rename_i survives; cases shuts]
              obtain rfl := Option.some.inj shuts
              exact OpenFamily.Restorable.covered restorable (fun _ below => below.close) survives keeps
          | emptied files =>
              simp only [OpenFamily.shutdown] at shuts
              split at shuts <;> [rename_i survives; cases shuts]
              obtain rfl := Option.some.inj shuts
              refine OpenFamily.Restorable.covered restorable (fun _ below => below.close) survives ?_
              exact keeps.trans (Nat.succ_le_succ (le_max_left ..))
          | written files =>
              simp only [OpenFamily.shutdown] at shuts
              split at shuts <;> [skip; cases shuts]
              obtain rfl := Option.some.inj shuts
              exact OpenFamily.Restorable.closed restorable files

theorem restorable_of_run
    (run : Run (step options) KeepsCounter (.closed {} : Lifetime cmp) st) : st.Restorable :=
  run.invariant (fun _ _ _ keeps stepped restorable => restorable.step keeps stepped)
    (SSTableManager.below_new _)

def Persisted (d : Disk) (sequence : Nat) : Prop :=
  (∃ r ∈ d.logs.flatten, r.sequenceNumber = sequence) ∨
    ∃ files ∈ d.sstables.levelFiles, ∃ table ∈ files, ∃ entry ∈ table.entries,
      entry.1.sequence = sequence

/-- What a session owes to the disk it opens on. A read at its first sequence sees all that the tree
has. -/
structure Continues (options : LSMTreeOptions) (d : Disk) (session : Session cmp) : Prop where
  reached : ∀ s, Persisted d s → s ≤ session.manager.currentSequence
  unhidden : ∀ key value other answer,
    (session.lsm.get key session.manager.currentSequence value).Answers answer ↔
      (session.lsm.get key 0 other).Answers answer
  greater : ∀ later, Run (Session.step options) free session later → ∀ s, Persisted d s →
    (∀ c ∈ later.manager.commits, s < c.sequence) ∧
      ∀ txn t sequence, later.manager.txns txn = some t → t.stage.sequence = some sequence →
        s < sequence

/-- After every run of sessions whose ends keep the counter, a session that opens starts at or above
every sequence on the disk, and all the sequences it gives to commits are above them. -/
theorem continues_of_run {d : Disk} {f : OpenFamily cmp} {order : List Nat} {again : Bool}
    {left : WALDisk} (run : Run (step options) KeepsCounter (.closed {} : Lifetime cmp) (.closed d))
    (sets : d.SetsCounter again) (opens : d.start cmp options order again left = some f) :
    Continues options d f.session := by
  have covered : d.Covered := restorable_of_run run
  obtain ⟨restorable, tree, below, less⟩ := covered.start sets opens
  obtain ⟨st, sstables, -, -, rfl⟩ := Disk.start_ok opens
  dsimp only at restorable tree below less
  have persisted {s : Nat} (held : Persisted d s) : s < d.nextSequence st.maxSequence again := by
    rcases held with ⟨r, member, rfl⟩ | ⟨files, level, table, inside, entry, member, rfl⟩
    · exact (le_greatestSequence member).trans_lt less
    · exact below files level table inside entry member
  refine ⟨fun s held => Nat.le_sub_one_of_lt (persisted held), ?_, fun later run s held => ?_⟩
  · intro key value other answer
    exact get_answers_covered (tree.mono (Nat.le_add_of_sub_le le_rfl))
  · have coherent := Session.coherent_of_run run
    refine ⟨fun c member => ?_, fun txn t sequence found stage => ?_⟩
    · exact (persisted held).trans_le (coherent.recorded c member).1
    · exact (persisted held).trans_le (coherent.prepared txn t sequence found stage).1

def commitAndShutDown : List LifetimeAction :=
  [.start [] false [{ number := 1 }]] ++
    (Session.commitCall 1 [([107], some [1])] ++ Session.flushCall 0 1 [[107]]).map .session ++
    [.shutdown (.written [])]

theorem continues_of_run_commitAndShutDown :
    ∃ d f, execute (step {}) (.closed {} : Lifetime bytewiseComparator) commitAndShutDown =
        some (.closed d) ∧
      d.start bytewiseComparator {} [1] true [{ number := 1 }] = some f ∧ Continues {} d f.session := by
  have facts : (execute (step {}) (.closed {} : Lifetime bytewiseComparator)
      commitAndShutDown).any fun st => match st with
        | .closed d => decide (d.SetsCounter true) &&
            (d.start bytewiseComparator {} [1] true [{ number := 1 }]).isSome
        | .opened _ => false := by decide +kernel
  obtain ⟨st, executed, facts⟩ := Option.any_eq_true _ _ |>.mp facts
  cases st with
  | opened f => cases facts
  | closed d =>
      obtain ⟨sets, opens⟩ := Bool.and_eq_true _ _ |>.mp facts
      obtain ⟨f, opens⟩ := Option.isSome_iff_exists.mp opens
      have allowed : Allowed (step {}) KeepsCounter (.closed {} : Lifetime bytewiseComparator)
          commitAndShutDown := by decide +kernel
      exact ⟨d, f, executed, opens,
        continues_of_run (execute_run _ allowed executed) (of_decide_eq_true sets) opens⟩

def crashTwice : List LifetimeAction :=
  [.start [] false [{ number := 1 }]] ++ (Session.commitCall 1 [([107], some [1])]).map .session ++
    [.crash [{ number := 1, records := [.ofWrite 0 [107] 1 (some [1])] }],
      .start [] false [{ number := 2 }], .crash [{ number := 2 }]]

theorem continues_fails_crashTwice :
    ¬ ∀ (d : Disk) (f : OpenFamily bytewiseComparator) (order : List Nat) (again : Bool)
      (left : WALDisk), Run (step {}) free (.closed {} : Lifetime bytewiseComparator) (.closed d) →
        d.start bytewiseComparator {} order again left = some f → Continues {} d f.session := by
  intro always
  have wrong : (execute (step {}) (.closed {} : Lifetime bytewiseComparator) crashTwice).any
      fun st => match st with
        | .closed d => (d.start bytewiseComparator {} [1] false [{ number := 3 }]).any fun f =>
            decide (f.session.manager.currentSequence = 0) &&
              d.sstables.levelFiles.any fun files => files.any fun table =>
                table.entries.any fun entry => decide (entry.1.sequence = 1)
        | .opened _ => false := by decide +kernel
  obtain ⟨st, executed, wrong⟩ := Option.any_eq_true _ _ |>.mp wrong
  cases st with
  | opened f => cases wrong
  | closed d =>
      obtain ⟨f, opens, wrong⟩ := Option.any_eq_true _ _ |>.mp wrong
      obtain ⟨zero, held⟩ := Bool.and_eq_true _ _ |>.mp wrong
      simp only [List.any_eq_true, decide_eq_true_eq] at held
      have run := execute_run crashTwice (allowed_free _ _ _) executed
      have reached := (always d f [1] false [{ number := 3 }] run opens).reached 1 (.inr held)
      rw [of_decide_eq_true zero] at reached
      exact absurd reached (by decide)

end Lifetime
end Lrdb
