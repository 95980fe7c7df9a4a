import Lrdb.Db.AtomicMap

namespace Lrdb

namespace TxManager
variable {m m' : TxManager} {base txn : Nat} {t t' : Transaction} {key : Key}

theorem heldBy_step {action : TxAction} (stepped : m.step action = some m')
    (held : (m.locks key).HeldBy txn) (found' : m'.txns txn = some t')
    (unmarked : t'.stage.unmarked) : (m'.locks key).HeldBy txn := by
  have other {k : Key} {entry : LockEntry} (kept : k = key → entry.HeldBy txn) :
      ((Function.update m.locks k entry) key).HeldBy txn := by
    by_cases same : key = k
    · subst same
      rw [Function.update_self]
      exact kept rfl
    · rwa [Function.update_of_ne same]
  cases action with
  | allocate isolation =>
      obtain rfl := Option.some.inj stepped
      exact held
  | acquire u k =>
      obtain ⟨u', found, stepped⟩ := Option.bind_eq_some_iff.mp stepped
      unfold acquire at stepped
      split at stepped <;> [skip; cases stepped]
      split at stepped <;> obtain rfl := Option.some.inj stepped
      · exact other fun same => LockEntry.heldBy_grant.mpr (.inl (same ▸ held))
      · exact other fun same => LockEntry.heldBy_enqueue.mpr (same ▸ held)
  | wake u =>
      obtain ⟨u', found, stepped⟩ := Option.bind_eq_some_iff.mp stepped
      unfold wake at stepped
      split at stepped <;> [skip; cases stepped]
      split at stepped <;> [skip; cases stepped]
      obtain rfl := Option.some.inj stepped
      exact other fun same => LockEntry.heldBy_wake.mpr (.inl (same ▸ held))
  | giveUp u =>
      obtain ⟨u', found, stepped⟩ := Option.bind_eq_some_iff.mp stepped
      unfold giveUp at stepped
      split at stepped <;> [skip; cases stepped]
      obtain rfl := Option.some.inj stepped
      exact other fun same => LockEntry.heldBy_removeWaiter.mpr (same ▸ held)
  | release u k =>
      obtain ⟨u', found, stepped⟩ := Option.bind_eq_some_iff.mp stepped
      unfold release at stepped
      split at stepped <;> [rename_i stage; cases stepped]
      obtain rfl := Option.some.inj stepped
      refine other fun same => LockEntry.heldBy_release.mpr ⟨same ▸ held, ?_⟩
      rintro rfl
      obtain rfl := Option.some.inj (found.symm.trans found')
      rw [stage] at unmarked
      cases unmarked
  | releaseAll u =>
      obtain ⟨u', found, stepped⟩ := Option.bind_eq_some_iff.mp stepped
      unfold releaseAll at stepped
      split at stepped <;> [skip; cases stepped]
      obtain rfl := Option.some.inj stepped
      refine LockEntry.heldBy_release.mpr ⟨held, ?_⟩
      rintro rfl
      rcases txns_setTxn (m := m) found' with ⟨-, rfl⟩ | ⟨different, -⟩
      · cases unmarked
      · exact different rfl
  | pick call maxItems order =>
      change m.pick call maxItems order = some m' at stepped
      unfold pick at stepped
      split at stepped <;> [skip; cases stepped]
      dsimp only at stepped
      split at stepped <;> obtain rfl := Option.some.inj stepped <;> exact held
  | wrote call success | markFlushed call =>
      obtain ⟨f, -, stepped⟩ := Option.bind_eq_some_iff.mp stepped
      simp only [wrote, markFlushed] at stepped
      split at stepped <;> [skip; cases stepped]
      obtain rfl := Option.some.inj stepped
      exact held
  | garbageCollect =>
      obtain rfl := Option.some.inj stepped
      exact held
  | prepareCommit u order | logged u success =>
      obtain ⟨u', -, stepped⟩ := Option.bind_eq_some_iff.mp stepped
      simp only [prepareCommit, logged] at stepped
      split at stepped <;> [skip; cases stepped]
      split at stepped <;> cases stepped <;> exact held
  | insertActive u | copyActive u | readUpLimit u | captureSequence u | keepLock u
  | write u content | synced u success | markCommitted u | onCommitted u | rollback u
  | markAborted u | onAborted u =>
      obtain ⟨u', -, stepped⟩ := Option.bind_eq_some_iff.mp stepped
      simp only [insertActive, copyActive, readUpLimit, captureSequence, keepLock, write, synced,
        markCommitted, onCommitted, rollback, markAborted, onAborted] at stepped
      split at stepped <;> [skip; cases stepped]
      obtain rfl := Option.some.inj stepped
      exact held

theorem history_step (coherent : m.Coherent base) (coherent' : m'.Coherent base)
    (effect : m.Effect m') (held : (m.locks key).HeldBy txn) (found' : m'.txns txn = some t')
    (unmarked : t'.stage.unmarked) : m'.history key = m.history key := by
  rcases effect.commits with same | ⟨other, u, sequence, found, stage, more⟩
  · rw [history, same]
    rfl
  · have unwritten : writesTo key u.writes = [] := by
      by_contra written
      have locked := coherent.locked other u found (by rw [stage]; rfl) key (.inl written)
      obtain rfl := coherent.exclusive key txn other held locked
      obtain ⟨-, -, v, here, marked⟩ := coherent'.recorded ⟨txn, sequence, u.writes⟩
        (more ▸ List.mem_cons_self ..)
      obtain rfl := Option.some.inj (found'.symm.trans here)
      rw [unmarked] at marked
      cases marked
    rw [history, more, List.flatMap_cons, unwritten]
    rfl

end TxManager

namespace Session
open Versions LSMTree Runs TxManager AtomicMaps

variable {cmp : Comparator} {options : LSMTreeOptions} {st st' : Session cmp} {lsm : LSMTree cmp}
  {base txn : Nat} {t u : Transaction} {key : Key}

theorem nextTxn_of_run {guard : Session cmp → SessionAction → Prop}
    (run : Run (step options) guard st st') : st.manager.nextTxn ≤ st'.manager.nextTxn :=
  run.invariant (p := fun s => st.manager.nextTxn ≤ s.manager.nextTxn)
    (fun _ _ _ _ stepped le => le.trans (session_effect stepped).nextTxn) le_rfl

theorem unmarked_of_run {guard : Session cmp → SessionAction → Prop}
    (run : Run (step options) guard st st') (allocated : txn < st.manager.nextTxn)
    (second : st'.manager.txns txn = some u) (unmarked : u.stage.unmarked) :
    ∃ t, st.manager.txns txn = some t ∧ t.stage.unmarked := by
  induction run generalizing u with
  | refl => exact ⟨u, second, unmarked⟩
  | tail earlier final ih =>
      obtain ⟨action, -, stepped⟩ := final
      rcases (session_effect stepped).origin txn u second with ⟨new, -⟩ | ⟨v, found, continues⟩
      · exact absurd (allocated.trans_le (nextTxn_of_run earlier)) new.not_gt
      · exact ih found (continues.unmarked unmarked)

theorem locked_of_run {guard : Session cmp → SessionAction → Prop}
    (coherent : st.manager.Coherent base) (run : Run (step options) guard st st')
    (held : (st.manager.locks key).HeldBy txn) (allocated : txn < st.manager.nextTxn)
    (second : st'.manager.txns txn = some u) (unmarked : u.stage.unmarked) :
    (st'.manager.locks key).HeldBy txn ∧ st'.manager.history key = st.manager.history key := by
  induction run generalizing u with
  | refl => exact ⟨held, rfl⟩
  | @tail mid last earlier final ih =>
      obtain ⟨action, -, stepped⟩ := final
      have coherentMid : mid.manager.Coherent base :=
        Run.invariant (fun _ _ _ _ stepped coherent => coherent_step stepped coherent) earlier coherent
      obtain ⟨v, found, before⟩ := unmarked_of_run (.single ⟨action, trivial, stepped⟩ :
        Run (step options) free mid last) (allocated.trans_le (nextTxn_of_run earlier)) second unmarked
      obtain ⟨heldMid, same⟩ := ih found before
      refine ⟨?_, (history_step coherentMid (coherent_step stepped coherentMid)
        (session_effect stepped) heldMid second unmarked).trans same⟩
      rcases step_manager stepped with still | ⟨a, moved⟩
      · rwa [still]
      · exact heldBy_step moved heldMid second unmarked

theorem visible_latest (coherent : st.manager.Coherent base) (found : st.manager.txns txn = some t)
    (unmarked : t.stage.unmarked) (own : t.ViewOf txn) (isolation : t.isolation = .kReadCommitted)
    (unwritten : writesTo key t.writes = []) {r : VersionRecord} (member : r ∈ st.manager.chain key) :
    r.visibleTo t.view = r.isCommitted := by
  obtain ⟨mine, policy⟩ := own
  have latest := policy.mpr isolation
  cases state : r.state with
  | kActive =>
      have active : r.isActive := by simp [VersionRecord.isActive, state]
      have other : r.txnId ≠ t.view.myTxn := by
        rw [mine]
        intro same
        have pending := (coherent.tracked key txn).trans (outstanding_eq found unmarked key)
        rw [unwritten, Chain.pending_eq_nil] at pending
        exact pending r member (by simp [VersionRecord.isActiveOf, same, active])
      simp [VersionRecord.visibleTo, ReadView.isVisible, other, latest, VersionRecord.isCommitted,
        VersionRecord.isAborted, state]
  | kCommitted | kAborted =>
      simp [VersionRecord.visibleTo, ReadView.isVisible, latest, VersionRecord.isCommitted,
        VersionRecord.isAborted, state]

theorem transactionGet_latest {nextSequence : Nat} (start : OrderedStart lsm nextSequence)
    (empty : ∀ mem ∈ lsm.memTables, mem.entries = [])
    (run : Run (step options) (Careful options) (opened lsm nextSequence) st)
    (found : st.manager.txns txn = some t) (unmarked : t.stage.unmarked)
    (isolation : t.isolation = .kReadCommitted) (unwritten : writesTo key t.writes = [])
    (value : Value) : (st.transactionGet t key value).Answers (map lsm st key) := by
  have readable := readable_of_run start run
  have coherent := readable.coherent
  have own := viewOf_of_run run txn t found
  have sequence : st.lsmReadSeq t = st.manager.currentSequence := by
    rw [lsmReadSeq, own.2.mpr isolation]
  have newest : ((st.manager.chain key).find? fun r => r.visibleTo t.view).map VersionRecord.stamp =
      newest (st.manager.history key) := by
    rw [coherent.newest_history, Chain.committed, List.head?_map, ← List.head?_filter]
    exact congrArg _ (congrArg _ (List.filter_congr fun r member =>
      visible_latest coherent found unmarked own isolation unwritten member))
  have read : st.transactionGet t key value =
      .chainFirst ⟨.notFound "Key was deleted", value⟩
        (st.lsm.get key st.manager.currentSequence value) (st.lastCommitted key) := by
    rw [transactionGet_eq, newest, sequence, lastCommitted]
  rw [map_eq coherent, read]
  cases committed : st.lastCommitted key with
  | some content =>
      cases content with
      | none => exact rfl
      | some stored => exact ⟨rfl, rfl⟩
  | none =>
      have covered : st.lsm.Below (st.manager.currentSequence + 1) :=
        readable.below.mono (Nat.le_add_of_sub_le le_rfl)
      exact (get_answers_covered covered).mpr (get_uncommitted readable.toFaithful start.toStart
        (memTablesOwn_of_run start.positive empty run) readable.searchable
        (readable.ordered.orderedAt key) committed value)

/-- In every careful run, what a read-committed transaction reads in a key it has locked and not
written is in the map as long as the transaction is not marked, whatever the others do. Its mark
applies its writes to that map. -/
theorem locked_read_current {nextSequence : Nat} (start : OrderedStart lsm nextSequence)
    (empty : ∀ mem ∈ lsm.memTables, mem.entries = [])
    (before : Run (step options) (Careful options) (opened lsm nextSequence) st)
    (after : Run (step options) (Careful options) st st')
    (first : st.manager.txns txn = some t) (second : st'.manager.txns txn = some u)
    (isolation : t.isolation = .kReadCommitted) (held : (st.manager.locks key).HeldBy txn)
    (unwritten : writesTo key t.writes = []) (unmarked : u.stage.unmarked) (value : Value) :
    (st.transactionGet t key value).Answers (map lsm st' key) ∧
      ∀ marked, st'.step options (.transaction (.markCommitted txn)) = some marked →
        map lsm marked = apply u.writes (map lsm st') := by
  have coherent := (readable_of_run start before).coherent
  have coherent' := (readable_of_run start (before.trans after)).coherent
  have allocated := (coherent.allocated txn t first).2
  obtain ⟨v, found, unmarked₀⟩ := unmarked_of_run after allocated second unmarked
  obtain rfl := Option.some.inj (first.symm.trans found)
  obtain ⟨-, same⟩ := locked_of_run coherent after held allocated second unmarked
  refine ⟨?_, fun marked stepped => ?_⟩
  · have reads := transactionGet_latest start empty before first unmarked₀ isolation unwritten value
    rw [map_eq coherent] at reads
    rwa [map_eq coherent', lastCommitted, same]
  · simp only [step] at stepped
    split at stepped <;> [cases stepped; skip]
    obtain ⟨manager, moved, rfl⟩ := Option.map_eq_some_iff.mp stepped
    obtain ⟨v, found, moved⟩ := Option.bind_eq_some_iff.mp moved
    obtain rfl := Option.some.inj (second.symm.trans found)
    unfold markCommitted at moved
    split at moved <;> [skip; cases moved]
    obtain rfl := Option.some.inj moved
    rfl

def lockForUpdate : List SessionAction :=
  commitCall 1 [([107], some [1])] ++ beginCall 2 .kReadCommitted ++
    [.transaction (.acquire 2 [107]), .transaction (.keepLock 2)]

def commitElsewhere : List SessionAction :=
  commitCall 3 [([108], some [2])] ++ beginCall 4 .kReadCommitted ++
    [.transaction (.acquire 4 [107])]

theorem locked_read_current_commitElsewhere :
    ∃ st st' : Session bytewiseComparator, ∃ t u,
      execute (step {}) (opened (.new {}) 1) lockForUpdate = some st ∧
        execute (step {}) st commitElsewhere = some st' ∧ st.manager.txns 2 = some t ∧
          st'.manager.txns 2 = some u ∧
        (st.transactionGet t [107] []).Answers (map (.new {}) st' [107]) ∧
          ∀ marked, st'.step {} (.transaction (.markCommitted 2)) = some marked →
            map (.new {}) marked = apply u.writes (map (.new {}) st') := by
  have holds : (execute (step {}) (opened (.new {}) 1 : Session bytewiseComparator)
      lockForUpdate).any fun st => Allowed (step {}) (Careful {}) st commitElsewhere ∧
        (∃ h ∈ (st.manager.locks [107]).holders, h.txnId = 2) ∧
        (execute (step {}) st commitElsewhere).any fun st' =>
          (st.manager.txns 2).any fun t => (st'.manager.txns 2).any fun u =>
            t.isolation = .kReadCommitted ∧ writesTo [107] t.writes = [] ∧ u.stage.unmarked := by
    decide +kernel
  obtain ⟨st, executed, holds⟩ := Option.any_eq_true _ _ |>.mp holds
  obtain ⟨allowed', held, holds⟩ := of_decide_eq_true holds
  obtain ⟨st', executed', holds⟩ := Option.any_eq_true _ _ |>.mp holds
  obtain ⟨t, first, holds⟩ := Option.any_eq_true _ _ |>.mp holds
  obtain ⟨u, second, holds⟩ := Option.any_eq_true _ _ |>.mp holds
  obtain ⟨isolation, unwritten, unmarked⟩ := of_decide_eq_true holds
  have allowed : Allowed (step {}) (Careful {}) (opened (.new {}) 1 : Session bytewiseComparator)
      lockForUpdate := by decide +kernel
  exact ⟨st, st', t, u, executed, executed', first, second,
    locked_read_current (orderedStart_new Nat.one_pos) (by simp [LSMTree.new, memTables])
      (execute_run _ allowed executed) (execute_run _ allowed' executed') first second isolation held
      unwritten unmarked []⟩

end Session
end Lrdb
