import Lrdb.Db.CrashRecovery

namespace Lrdb.Session
open Versions TxManager Runs ReplayState

variable {cmp : Comparator} {options : LSMTreeOptions} {st st' : Session cmp} {base : Nat}
  {lsm : LSMTree cmp} {txn : Nat} {t : Transaction}

/-- Recovery finds the last write of every key of the transaction under its sequence, or nothing
under that sequence. -/
def AllOrNone (memtable : MemTableOptions) (st : Session cmp) (t : Transaction) (sequence : Nat) :
    Prop :=
  ∃ recovered, st.recover memtable = .ok recovered ∧
    ((∀ key content, (writesTo key t.writes).head? = some content →
        (sequence, content) ∈ (recovered.memtable.versions key).map stampOf) ∨
      ∀ key, ∀ w ∈ (recovered.memtable.versions key).map stampOf, w.1 ≠ sequence)

def Refuses (st : Session cmp) (t : Transaction) (sequence : Nat) (key : Key) : Prop :=
  ∀ content, (writesTo key t.writes).head? = some content →
    ¬ (st.wal.writeKey none st.columnFamilyId key sequence content).1.isOk

theorem writes_step {action : SessionAction} (stepped : st.step options action = some st')
    {t' : Transaction} (found' : st'.manager.txns txn = some t') :
    (st.manager.nextTxn ≤ txn ∧ t'.writes = [] ∧ t'.touchedKeys = []) ∨
      ∃ t, st.manager.txns txn = some t ∧
        (t'.writes = t.writes ∧ t'.touchedKeys = t.touchedKeys ∨ ∃ key content,
          t'.writes = (key, content) :: t.writes ∧
            t'.touchedKeys = t.touchedKeys.insert key) := by
  have still (same : st'.manager.txns = st.manager.txns) : ∃ t, st.manager.txns txn = some t ∧
      (t'.writes = t.writes ∧ t'.touchedKeys = t.touchedKeys ∨ ∃ key content,
        t'.writes = (key, content) :: t.writes ∧ t'.touchedKeys = t.touchedKeys.insert key) :=
    ⟨t', same ▸ found', .inl ⟨rfl, rfl⟩⟩
  cases action with
  | transaction a =>
      simp only [step] at stepped
      split at stepped <;> [cases stepped; rename_i internal]
      obtain ⟨manager, moved, rfl⟩ := Option.map_eq_some_iff.mp stepped
      rcases step_extends moved (Bool.not_eq_true _ |>.mp internal) found' with
        ⟨allocated, writes, touchedKeys, -⟩ | ⟨t, found, extended⟩
      · exact .inl ⟨allocated, writes, touchedKeys⟩
      · exact .inr ⟨t, found, extended.writes.imp_right fun h => h.2⟩
  | log other fault =>
      obtain ⟨t, sequence, key, rest, found, stage, outcome⟩ := log_cases stepped
      apply Or.inr
      rcases outcome with ⟨-, rfl⟩ | ⟨r, status, wal, -, -, rfl⟩ <;>
        rcases txns_setTxn found' with ⟨rfl, rfl⟩ | ⟨-, old⟩
      · exact ⟨t, found, .inl ⟨rfl, rfl⟩⟩
      · exact ⟨t', old, .inl ⟨rfl, rfl⟩⟩
      · exact ⟨t, found, .inl ⟨rfl, rfl⟩⟩
      · exact ⟨t', old, .inl ⟨rfl, rfl⟩⟩
  | flushWrite call =>
      simp only [step, flushWrite] at stepped
      split at stepped <;> [skip; cases stepped]
      obtain ⟨manager, moved, rfl⟩ := Option.map_eq_some_iff.mp stepped
      obtain ⟨f, -, wrote⟩ := Option.bind_eq_some_iff.mp moved
      unfold TxManager.wrote at wrote
      split at wrote <;> [skip; cases wrote]
      obtain rfl := Option.some.inj wrote
      exact .inr (still rfl)
  | switchMemTable =>
      obtain ⟨tree, -, rfl⟩ := Option.map_eq_some_iff.mp stepped
      exact .inr (still rfl)
  | flushOldestMemTable =>
      obtain rfl := Option.some.inj stepped
      exact .inr (still rfl)

theorem touched_written {guard : Session cmp → SessionAction → Prop} {nextSequence : Nat}
    (run : Run (step options) guard (opened lsm nextSequence) st) :
    ∀ txn t, st.manager.txns txn = some t → ∀ key ∈ t.touchedKeys, writesTo key t.writes ≠ [] := by
  apply run.invariant
  · intro s action s' _ stepped written txn t' found' key member
    rcases writes_step stepped found' with ⟨-, -, touchedKeys⟩ | ⟨t, found, same | grown⟩
    · rw [touchedKeys] at member
      cases member
    · rw [same.2] at member
      rw [same.1]
      exact written txn t found key member
    · obtain ⟨other, content, writes, touchedKeys⟩ := grown
      rw [touchedKeys, List.mem_insert_iff] at member
      rw [writes, writesTo_cons]
      split
      · simp
      · rename_i different
        exact written txn t found key (member.resolve_left fun same => different same.symm)
  · intro txn t found
    cases found

theorem prepareCommit_cases {order : List Key} (found : st.manager.txns txn = some t)
    (prepared : st.step options (.transaction (.prepareCommit txn order)) = some st') :
    order.Perm t.touchedKeys ∧ st'.wal = st.wal ∧ st'.columnFamilyId = st.columnFamilyId ∧
      st'.manager.nextSequence = st.manager.nextSequence + 1 ∧ st'.manager.txns txn =
        some { t with stage := .logging st.manager.nextSequence order } := by
  obtain ⟨manager, moved, rfl⟩ := Option.map_eq_some_iff.mp prepared
  obtain ⟨u, found', moved⟩ := Option.bind_eq_some_iff.mp moved
  obtain rfl := Option.some.inj (found.symm.trans found')
  unfold prepareCommit at moved
  split at moved <;> [skip; cases moved]
  split at moved <;> [rename_i perm; cases moved]
  obtain rfl := Option.some.inj moved
  exact ⟨perm, rfl, rfl, rfl, txns_setTxn_self ..⟩

theorem log_logging {fault : Option WriteFault} (found : st.manager.txns txn = some t)
    (stepped : st.step options (.log txn fault) = some st') :
    ∃ sequence key rest, t.stage = .logging sequence (key :: rest) := by
  obtain ⟨u, sequence, key, rest, found', stage, -⟩ := log_cases stepped
  obtain rfl := Option.some.inj (found.symm.trans found')
  exact ⟨sequence, key, rest, stage⟩

theorem log_enabled (options : LSMTreeOptions) (fault : Option WriteFault)
    (found : st.manager.txns txn = some t)
    {sequence : Nat} {key : Key} {rest : List Key}
    (stage : t.stage = .logging sequence (key :: rest)) :
    ∃ st', st.step options (.log txn fault) = some st' := by
  simp only [step, log, found, Option.map_some, stage]
  split <;> simp only [TxManager.step, found, Option.bind_some, logged, stage] <;> split <;>
    exact ⟨_, rfl⟩

theorem log_faultless (coherent : st.manager.Coherent base) (found : st.manager.txns txn = some t)
    {sequence : Nat} {key : Key} {rest : List Key}
    (stage : t.stage = .logging sequence (key :: rest)) (written : writesTo key t.writes ≠ [])
    (stepped : st.step options (.log txn none) = some st') :
    st'.columnFamilyId = st.columnFamilyId ∧
      st'.manager.nextSequence = st.manager.nextSequence ∧
      ∃ content, (writesTo key t.writes).head? = some content ∧
        ((st.wal.writeKey none st.columnFamilyId key sequence content).1.isOk ∧
            st'.wal = st.wal ++ [.ofWrite st.columnFamilyId key sequence content] ∧
            st'.manager.txns txn = some { t with stage := .logging sequence rest } ∨
          ¬ (st.wal.writeKey none st.columnFamilyId key sequence content).1.isOk ∧
            st'.wal = st.wal ∧ st'.manager.txns txn = some { t with stage := .aborting }) := by
  obtain ⟨u, s, k, keys, found', stage', outcome⟩ := log_cases stepped
  obtain rfl := Option.some.inj (found.symm.trans found')
  obtain ⟨rfl, rfl, rfl⟩ : sequence = s ∧ key = k ∧ rest = keys := by
    rw [stage] at stage'
    cases stage'
    exact ⟨rfl, rfl, rfl⟩
  have last := head_writesTo coherent found (by rw [stage]; rfl) key
  rcases outcome with ⟨unwritten, -⟩ | ⟨r, status, wal, latest, result, rfl⟩
  · rw [unwritten] at last
    exact absurd (List.head?_eq_none_iff.mp last) written
  · rw [latest] at last
    refine ⟨rfl, rfl, r.written, last, ?_⟩
    rcases Log.writeKey_faultless result with ⟨success, grown⟩ | ⟨failed, same⟩
    · refine .inl ⟨by rwa [result], grown, ?_⟩
      rw [if_pos success]
      exact txns_setTxn_self ..
    · refine .inr ⟨by rwa [result], same, ?_⟩
      rw [if_neg failed]
      exact txns_setTxn_self ..

theorem allOrNone_iff (logged : Logged st) (single : st.SingleRecords)
    (bounded : st.manager.nextSequence ≤ sequenceLimit) (memtable : MemTableOptions)
    (sequence : Nat) : st.AllOrNone memtable t sequence ↔
      (∀ key content, (writesTo key t.writes).head? = some content →
        st.Has key sequence content) ∨ ∀ key content, ¬ st.Has key sequence content := by
  obtain ⟨recovered, replays, found⟩ := recover_ok logged single bounded memtable
  constructor
  · rintro ⟨other, replays', outcome⟩
    obtain rfl : recovered = other := Except.ok.inj (replays.symm.trans replays')
    apply outcome.imp
    · intro all key content last
      exact (found key (sequence, content)).mp (all key content last)
    · intro none key content has
      exact none key (sequence, content) ((found key (sequence, content)).mpr has) rfl
  · intro outcome
    refine ⟨recovered, replays, outcome.imp ?_ ?_⟩
    · intro all key content last
      exact (found key (sequence, content)).mpr (all key content last)
    · rintro none key ⟨s, content⟩ member rfl
      exact none key content ((found key (s, content)).mp member)

theorem execute_log_ended {n : Nat} (found : st.manager.txns txn = some t)
    (ended : ∀ sequence key rest, t.stage ≠ .logging sequence (key :: rest))
    (executed : execute (step options) st (List.replicate n (.log txn none)) = some st') :
    st' = st := by
  cases n with
  | zero => exact (Option.some.inj executed).symm
  | succ n =>
      obtain ⟨st'', stepped, -⟩ := Option.bind_eq_some_iff.mp executed
      obtain ⟨sequence, key, rest, stage⟩ := log_logging found stepped
      exact absurd stage (ended sequence key rest)

theorem split_of_waiting (logged : Logged st) {sequence : Nat} {rest : List Key}
    (found : st.manager.txns txn = some { t with stage := .logging sequence rest })
    {waiting : Key} (member : waiting ∈ rest) (written : writesTo waiting t.writes ≠ [])
    {key : Key} {content : Option Value} (has : st.Has key sequence content) :
    ¬ ((∀ key content, (writesTo key t.writes).head? = some content →
        st.Has key sequence content) ∨ ∀ key content, ¬ st.Has key sequence content) := by
  rintro (all | none)
  · obtain ⟨value, last⟩ :=
      Option.ne_none_iff_exists'.mp (mt List.head?_eq_none_iff.mp written)
    have position := (logged.prepared txn _ _ found rfl).2 waiting value
    exact (position.mp (all waiting value last)).1 member
  · exact none key content has

/-- Whatever came before it, a commit can crash at any point of its logging loop without leaving one
part of the transaction if and only if the transaction touched at most one key or the log refuses
its first record. -/
theorem commit_allOrNone_iff {nextSequence : Nat}
    (run : Run (step options) free (opened lsm nextSequence) st)
    (found : st.manager.txns txn = some t) {order : List Key} {st₁ : Session cmp}
    (prepared : st.step options (.transaction (.prepareCommit txn order)) = some st₁)
    (bounded : st.manager.nextSequence < sequenceLimit) (memtable : MemTableOptions) :
    (∀ n st₂, execute (step options) st₁ (List.replicate n (.log txn none)) = some st₂ →
        st₂.AllOrNone memtable t st.manager.nextSequence) ↔
      order.length ≤ 1 ∨ ∀ key ∈ order.head?, st.Refuses t st.manager.nextSequence key := by
  obtain ⟨perm, wal, family, next, found₁⟩ := prepareCommit_cases found prepared
  have run₁ : Run (step options) free (opened lsm nextSequence) st₁ :=
    run.tail ⟨_, trivial, prepared⟩
  have coherent := coherent_of_run run₁
  have written : ∀ key ∈ order, writesTo key t.writes ≠ [] := fun key member =>
    touched_written run txn t found key (perm.mem_iff.mp member)
  have fresh (key : Key) (content : Option Value) :
      ¬ st₁.Has key st.manager.nextSequence content := by
    intro has
    rw [Has, wal, family] at has
    exact Nat.lt_irrefl _ ((logged_of_run run).lt_next has)
  have judged {st₂ : Session cmp} (run₂ : Run (step options) free st₁ st₂)
      (same : st₂.manager.nextSequence = st₁.manager.nextSequence) :=
    have whole := run₁.trans run₂
    allOrNone_iff (t := t) (logged_of_run whole) (singleRecords_of_run whole)
      (by rw [same, next]; exact bounded) memtable st.manager.nextSequence
  constructor
  · intro atomic
    by_contra violated
    obtain ⟨long, accepted⟩ := not_or.mp violated
    obtain _ | ⟨key, _ | ⟨second, rest⟩⟩ := order
    · exact long (Nat.zero_le 1)
    · exact long le_rfl
    -- A crash after the first record.
    obtain ⟨st₂, stepped⟩ := log_enabled options none found₁ rfl
    obtain ⟨family₂, next₂, content, last, outcome⟩ :=
      log_faultless coherent found₁ rfl (written key (List.mem_cons_self ..)) stepped
    have executed : execute (step options) st₁ (List.replicate 1 (.log txn none)) = some st₂ := by
      simp only [List.replicate_one, execute, stepped, Option.bind_some]
    have run₂ : Run (step options) free st₁ st₂ := .single ⟨_, trivial, stepped⟩
    rcases outcome with ⟨-, grown, found₂⟩ | ⟨refused, -, -⟩
    · have has : st₂.Has key st.manager.nextSequence content := by
        rw [Has, grown, family₂]
        exact List.mem_append_right _ (List.mem_singleton_self _)
      exact split_of_waiting (logged_of_run (run₁.trans run₂)) found₂ (List.mem_cons_self ..)
        (written second (by simp)) has ((judged run₂ next₂).mp (atomic 1 st₂ executed))
    · apply accepted
      intro other member value last'
      obtain rfl := Option.some.inj member
      obtain rfl := Option.some.inj (last.symm.trans last')
      rwa [wal, family] at refused
  · intro condition n st₂ executed
    have start : st₁.AllOrNone memtable t st.manager.nextSequence :=
      (judged .refl rfl).mpr (.inr fresh)
    cases n with
    | zero => exact Option.some.inj executed ▸ start
    | succ n =>
        obtain ⟨st', stepped, rest'⟩ := Option.bind_eq_some_iff.mp executed
        have run' : Run (step options) free st₁ st' := .single ⟨_, trivial, stepped⟩
        obtain ⟨sequence, key, rest, stage⟩ := log_logging found₁ stepped
        cases stage
        obtain ⟨family', next', content, last, outcome⟩ :=
          log_faultless coherent found₁ rfl (written key (List.mem_cons_self ..)) stepped
        rcases outcome with ⟨success, grown, found'⟩ | ⟨-, same, found'⟩
        · have only : rest = [] := by
            rcases condition with short | refuses
            · exact List.length_eq_zero_iff.mp (Nat.le_zero.mp (Nat.succ_le_succ_iff.mp short))
            · rw [wal, family] at success
              exact absurd success (refuses key rfl content last)
          subst only
          obtain rfl := execute_log_ended found' (by intro _ _ _ logging; cases logging) rest'
          apply (judged run' next').mpr
          have position := ((logged_of_run (run₁.trans run')).prepared txn _ _ found' rfl).2
          exact .inl fun k value lastK => (position k value).mpr ⟨List.not_mem_nil, lastK⟩
        · obtain rfl := execute_log_ended found' (by intro _ _ _ logging; cases logging) rest'
          apply (judged run' next').mpr
          refine .inr fun k value has => fresh k value ?_
          rwa [Has, same, family'] at has

/-- A transaction that wrote, up to its call of `Commit`. -/
def writing (writes : List (Key × Option Value)) : List SessionAction :=
  beginCall 1 .kReadCommitted ++ writes.flatMap fun write => writeCall 1 write.1 write.2

theorem commit_allOrNone_oneKey :
    ∃ st t st₁, execute (step {}) (opened (.new {}) 1 : Session bytewiseComparator)
        (writing [([107], some [1]), ([107], none)]) = some st ∧
      st.manager.txns 1 = some t ∧
      st.step {} (.transaction (.prepareCommit 1 [[107]])) = some st₁ ∧
      ∀ n st₂, execute (step {}) st₁ (List.replicate n (.log 1 none)) = some st₂ →
        st₂.AllOrNone {} t st.manager.nextSequence := by
  have holds : (execute (step {}) (opened (.new {}) 1 : Session bytewiseComparator)
      (writing [([107], some [1]), ([107], none)])).any fun st => (st.manager.txns 1).any fun _ =>
        (st.step {} (.transaction (.prepareCommit 1 [[107]]))).any fun _ =>
          st.manager.nextSequence < sequenceLimit := by decide +kernel
  obtain ⟨st, executed, holds⟩ := Option.any_eq_true _ _ |>.mp holds
  obtain ⟨t, found, holds⟩ := Option.any_eq_true _ _ |>.mp holds
  obtain ⟨st₁, prepared, holds⟩ := Option.any_eq_true _ _ |>.mp holds
  have run := execute_run _ (allowed_free _ _ _) executed
  exact ⟨st, t, st₁, executed, found, prepared, (commit_allOrNone_iff run found prepared
    (of_decide_eq_true holds) {}).mpr (.inl le_rfl)⟩

theorem commit_partial_twoKeys :
    ¬ ∀ (st st₁ : Session bytewiseComparator) (txn : Nat) (t : Transaction) (order : List Key),
      Run (step {}) free (opened (.new {}) 1) st → st.manager.txns txn = some t →
        st.step {} (.transaction (.prepareCommit txn order)) = some st₁ →
          ∀ n st₂, execute (step {}) st₁ (List.replicate n (.log txn none)) = some st₂ →
            st₂.AllOrNone {} t st.manager.nextSequence := by
  intro always
  have wrong : (execute (step {}) (opened (.new {}) 1 : Session bytewiseComparator)
      (writing [([107], some [1]), ([108], some [2])])).any fun st =>
        (st.manager.txns 1).any fun t =>
          (st.step {} (.transaction (.prepareCommit 1 [[107], [108]]))).any fun st₁ =>
            (execute (step {}) st₁ [.log 1 none]).any fun st₂ =>
              st.manager.nextSequence = 1 ∧
                (writesTo [108] t.writes).head? = some (some [2]) ∧
                (st₂.recover {}).toOption.any fun recovered =>
                  (1, some [2]) ∉ (recovered.memtable.versions [108]).map stampOf ∧
                    (1, some [1]) ∈ (recovered.memtable.versions [107]).map stampOf := by
    decide +kernel
  obtain ⟨st, executed, wrong⟩ := Option.any_eq_true _ _ |>.mp wrong
  obtain ⟨t, found, wrong⟩ := Option.any_eq_true _ _ |>.mp wrong
  obtain ⟨st₁, prepared, wrong⟩ := Option.any_eq_true _ _ |>.mp wrong
  obtain ⟨st₂, crashed, wrong⟩ := Option.any_eq_true _ _ |>.mp wrong
  obtain ⟨sequence, last, wrong⟩ := of_decide_eq_true wrong
  obtain ⟨recovered, replays, wrong⟩ := Option.any_eq_true _ _ |>.mp wrong
  obtain ⟨missing, present⟩ := of_decide_eq_true wrong
  have run := execute_run _ (allowed_free _ _ _) executed
  obtain ⟨other, replays', outcome⟩ := always st st₁ 1 t _ run found prepared 1 st₂ crashed
  rw [replays'] at replays
  obtain rfl := Option.some.inj replays
  rcases outcome with all | none
  · exact missing (sequence ▸ all [108] (some [2]) last)
  · exact none [107] (1, some [1]) present sequence.symm

end Lrdb.Session
