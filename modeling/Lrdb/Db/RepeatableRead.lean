import Lrdb.Db.SnapshotRead

namespace Lrdb.Session
open Versions LSMTree Runs TxManager

variable {cmp : Comparator} {options : LSMTreeOptions} {st st' : Session cmp}
  {lsm : LSMTree cmp} {base txn : Nat} {t : Transaction}

/-- A commit of the key is visible in the view exactly when its sequence was given out before the
transaction took its own. -/
def Aligned (st : Session cmp) (t : Transaction) (key : Key) : Prop :=
  ∀ c ∈ st.manager.commits, writesTo key c.writes ≠ [] →
    (c.txn < t.view.upLimit ∧ c.txn ∉ t.view.activeTxns ↔ c.sequence ≤ t.lsmReadSeq)

instance (st : Session cmp) (t : Transaction) (key : Key) : Decidable (st.Aligned t key) := by
  unfold Aligned; infer_instance

/-! ## Views in a run -/

theorem viewOf_of_run {guard : Session cmp → SessionAction → Prop} {nextSequence : Nat}
    (run : Run (step options) guard (opened lsm nextSequence) st) :
    ∀ txn t, st.manager.txns txn = some t → t.ViewOf txn := by
  refine run.invariant
    (p := fun st => ∀ txn t, st.manager.txns txn = some t → t.ViewOf txn) ?_ (by simp [opened])
  intro u action v _ stepped own txn t' found'
  rcases (session_effect stepped).origin txn t' found' with ⟨-, -, new⟩ | ⟨t, found, continues⟩
  · exact new
  · exact continues.own (own txn t found)

/-- The transaction of this identifier still reads as `t` did. -/
structure Frozen (txn : Nat) (t : Transaction) (st : Session cmp) : Prop where
  allocated : txn < st.manager.nextTxn
  same : ∀ u, st.manager.txns txn = some u →
    u.stage.begun ∧ u.view = t.view ∧ u.lsmReadSeq = t.lsmReadSeq

theorem frozen_of_run {guard : Session cmp → SessionAction → Prop}
    (coherent : st.manager.Coherent base) (found : st.manager.txns txn = some t)
    (begun : t.stage.begun) (run : Run (step options) guard st st') : Frozen txn t st' := by
  have initial : Frozen txn t st := by
    refine ⟨(coherent.allocated txn t found).2, fun u here => ?_⟩
    obtain rfl := Option.some.inj (found.symm.trans here)
    exact ⟨begun, rfl, rfl⟩
  refine run.invariant (fun u action v _ stepped frozen => ?_) initial
  have effect := session_effect stepped
  refine ⟨frozen.allocated.trans_le effect.nextTxn, fun t' found' => ?_⟩
  rcases effect.origin txn t' found' with ⟨new, -⟩ | ⟨old, here, continues⟩
  · exact absurd frozen.allocated (Nat.not_lt.mpr new)
  · obtain ⟨begunOld, view, sequence⟩ := frozen.same old here
    obtain ⟨begunNew, view', sequence'⟩ := continues.begun begunOld
    exact ⟨begunNew, view'.trans view, sequence'.trans sequence⟩

/-! ## What the transaction reads -/

theorem commit_of_version (coherent : st.manager.Coherent base) {key : Key} {r : VersionRecord}
    (member : r ∈ st.manager.chain key) (isCommitted : r.isCommitted) :
    ∃ c ∈ st.manager.commits, c.txn = r.txnId ∧ c.sequence = r.commitSnapshot ∧
      writesTo key c.writes ≠ [] := by
  obtain ⟨c, inCommits, creator, sequence⟩ := coherent.creators key r member isCommitted
  obtain ⟨d, inCommits', sequence', written⟩ :=
    mem_history.mp (coherent.committed_mem member isCommitted)
  obtain rfl := coherent.commit_unique inCommits inCommits' (sequence.trans sequence'.symm)
  exact ⟨c, inCommits, creator, sequence, List.ne_nil_of_mem written⟩

theorem visible_iff (coherent : st.manager.Coherent base) (found : st.manager.txns txn = some t)
    (unmarked : t.stage.unmarked) (own : t.ViewOf txn) (repeatable : t.isolation ≠ .kReadCommitted)
    {key : Key} (unwritten : writesTo key t.writes = []) (aligned : st.Aligned t key)
    {r : VersionRecord} (member : r ∈ st.manager.chain key) :
    r.visibleTo t.view = (r.isCommitted && decide (r.commitSnapshot ≤ t.lsmReadSeq)) := by
  obtain ⟨mine, policy⟩ := own
  have frozen : t.view.policy = .kRepeatableRead := by
    cases shape : t.view.policy with
    | kReadCommitted => exact absurd (policy.mp shape) repeatable
    | kRepeatableRead => rfl
  cases state : r.state with
  | kAborted =>
      simp [VersionRecord.visibleTo, ReadView.isVisible, VersionRecord.isAborted,
        VersionRecord.isCommitted, state]
  | kActive =>
      have active : r.isActive := by simp [VersionRecord.isActive, state]
      -- An active version of the reader would be one of its writes.
      have other : r.txnId ≠ t.view.myTxn := by
        rw [mine]
        intro same
        have pending := (coherent.tracked key txn).trans (outstanding_eq found unmarked key)
        rw [unwritten, Chain.pending_eq_nil] at pending
        exact pending r member (by simp [VersionRecord.isActiveOf, same, active])
      simp [VersionRecord.visibleTo, ReadView.isVisible, other, frozen, VersionRecord.isCommitted,
        VersionRecord.isAborted, state]
  | kCommitted =>
      have isCommitted : r.isCommitted := by simp [VersionRecord.isCommitted, state]
      have other : r.txnId ≠ t.view.myTxn :=
        mine ▸ coherent.not_creator found unmarked member isCommitted
      obtain ⟨c, inCommits, creator, sequence, written⟩ :=
        commit_of_version coherent member isCommitted
      have sides := aligned c inCommits written
      rw [creator, sequence] at sides
      have seen : r.visibleTo t.view =
          decide (r.txnId < t.view.upLimit ∧ r.txnId ∉ t.view.activeTxns) := by
        by_cases above : t.view.upLimit ≤ r.txnId
        · simp [VersionRecord.visibleTo, ReadView.isVisible, other, frozen,
            VersionRecord.isCommitted, VersionRecord.isAborted, state, above]
        · simp [VersionRecord.visibleTo, ReadView.isVisible, other, frozen,
            VersionRecord.isCommitted, VersionRecord.isAborted, state, above, Nat.not_le.mp above]
      rw [seen, isCommitted, Bool.true_and]
      exact decide_eq_decide.mpr sides

theorem transactionGet_answers (readable : Readable lsm base st) (start : Start lsm base)
    (found : st.manager.txns txn = some t) (unmarked : t.stage.unmarked) (own : t.ViewOf txn)
    (repeatable : t.isolation ≠ .kReadCommitted) {key : Key}
    (unwritten : writesTo key t.writes = []) (aligned : st.Aligned t key)
    (taken : t.lsmReadSeq ≠ 0) (clear : st.Clear key t.lsmReadSeq) (value : Value) :
    (st.transactionGet t key value).Answers (answerAt lsm st key t.lsmReadSeq) := by
  have coherent := readable.coherent
  have sequence : st.lsmReadSeq t = t.lsmReadSeq := by
    unfold lsmReadSeq
    split
    · rename_i policy
      exact absurd (own.2.mp policy) repeatable
    · rfl
  have same : (st.manager.chain key).find? (fun r => r.visibleTo t.view) =
      (st.manager.chain key).find? fun r =>
        r.isCommitted && decide (r.commitSnapshot ≤ t.lsmReadSeq) := by
    rw [← List.head?_filter, ← List.head?_filter]
    exact congrArg _ (List.filter_congr fun r member =>
      visible_iff coherent found unmarked own repeatable unwritten aligned member)
  have newest := Chain.find?_eq_newest (coherent.descending key) t.lsmReadSeq
  have read : st.transactionGet t key value =
      .chainFirst ⟨.notFound "Key was deleted", value⟩ (st.lsm.get key t.lsmReadSeq value)
        ((newestUpTo t.lsmReadSeq (Chain.committed (st.manager.chain key))).map Prod.snd) := by
    rw [newestUpTo, ← newest, transactionGet_eq, same, sequence]
  refine readable.answers start taken clear (fun w here => ?_) fun none => ⟨value, ?_⟩
  · rw [read, Option.mem_def.mp here]
    obtain ⟨sequence, content⟩ := w
    cases content with
    | none => exact rfl
    | some stored => exact ⟨rfl, rfl⟩
  · rw [read, none]
    rfl

/-- In every careful run, two reads of a key that a repeatable-read transaction has not written
give the same answer, if what has committed the key by the second read is visible in the view exactly
when its sequence is not above the one the transaction took, and was then committed by the first
read. -/
theorem transactionGet_repeats {nextSequence : Nat} (start : OrderedStart lsm nextSequence)
    (before : Run (step options) (Careful options) (opened lsm nextSequence) st)
    (after : Run (step options) (Careful options) st st') {u : Transaction}
    (first : st.manager.txns txn = some t) (second : st'.manager.txns txn = some u)
    (reading : t.stage = .running) (reading' : u.stage = .running)
    (repeatable : t.isolation ≠ .kReadCommitted) {key : Key}
    (unwritten : writesTo key t.writes = []) (unwritten' : writesTo key u.writes = [])
    (taken : t.lsmReadSeq ≠ 0) (aligned : st'.Aligned t key)
    (settled : st.Settled st' key t.lsmReadSeq) (clear : st.Clear key t.lsmReadSeq)
    (clear' : st'.Clear key t.lsmReadSeq) (value value' : Value) :
    ∃ answer, (st.transactionGet t key value).Answers answer ∧
      (st'.transactionGet u key value').Answers answer := by
  have readable := readable_of_run start before
  have readable' := readable_of_run start (before.trans after)
  have suffix := commits_suffix after
  obtain ⟨-, view, sequence⟩ :=
    (frozen_of_run readable.coherent first (by rw [reading]; rfl) after).same u second
  have own := viewOf_of_run before txn t first
  have own' := viewOf_of_run (before.trans after) txn u second
  have repeatable' : u.isolation ≠ .kReadCommitted := fun committed =>
    repeatable (own.2.mp (view ▸ own'.2.mpr committed))
  refine ⟨answerAt lsm st key t.lsmReadSeq, ?_, ?_⟩
  · exact transactionGet_answers readable start.toStart first (by rw [reading]; rfl) own repeatable
      unwritten (fun c member => aligned c (suffix.subset member)) taken clear value
  · rw [← answerAt_settled readable'.coherent suffix settled, ← sequence]
    refine transactionGet_answers readable' start.toStart second (by rw [reading']; rfl)
      own' repeatable' unwritten' ?_ ?_ ?_ value'
    · rw [Aligned, view, sequence]
      exact aligned
    · exact sequence ▸ taken
    · exact sequence ▸ clear'

def commitThenBegin : List SessionAction :=
  commitCall 1 [([107], some [1])] ++ beginCall 2 .kRepeatableRead

def overwriteWhileOpen : List SessionAction :=
  commitCall 3 [([107], some [2])] ++ flushCall 0 2 [[107]] ++ [.transaction .garbageCollect]

theorem transactionGet_repeats_overwriteWhileOpen :
    ∃ st st' t u, execute (step {}) (opened (.new {}) 1 : Session bytewiseComparator)
        commitThenBegin = some st ∧ execute (step {}) st overwriteWhileOpen = some st' ∧
      st.manager.txns 2 = some t ∧ st'.manager.txns 2 = some u ∧
        ∃ answer, (st.transactionGet t [107] []).Answers answer ∧
          (st'.transactionGet u [107] []).Answers answer := by
  have holds : (execute (step {}) (opened (.new {}) 1 : Session bytewiseComparator)
      commitThenBegin).any (fun st => Allowed (step {}) (Careful {}) st overwriteWhileOpen ∧
        (execute (step {}) st overwriteWhileOpen).any fun st' =>
          (st.manager.txns 2).any fun t => (st'.manager.txns 2).any fun u =>
            (t.stage = .running ∧ u.stage = .running ∧ t.isolation ≠ .kReadCommitted ∧
              writesTo [107] t.writes = [] ∧ writesTo [107] u.writes = [] ∧ t.lsmReadSeq ≠ 0) ∧
            st'.Aligned t [107] ∧ st.Settled st' [107] t.lsmReadSeq ∧
              st.Clear [107] t.lsmReadSeq ∧ st'.Clear [107] t.lsmReadSeq) := by decide +kernel
  obtain ⟨st, executed, holds⟩ := Option.any_eq_true _ _ |>.mp holds
  obtain ⟨allowed', holds⟩ := of_decide_eq_true holds
  obtain ⟨st', executed', holds⟩ := Option.any_eq_true _ _ |>.mp holds
  obtain ⟨t, first, holds⟩ := Option.any_eq_true _ _ |>.mp holds
  obtain ⟨u, second, holds⟩ := Option.any_eq_true _ _ |>.mp holds
  obtain ⟨⟨reading, reading', repeatable, unwritten, unwritten', taken⟩, aligned, settled, clear,
    clear'⟩ := of_decide_eq_true holds
  have allowed : Allowed (step {}) (Careful {}) (opened (.new {}) 1 : Session bytewiseComparator)
      commitThenBegin := by decide +kernel
  exact ⟨st, st', t, u, executed, executed', first, second,
    transactionGet_repeats (orderedStart_new Nat.one_pos) (execute_run _ allowed executed)
      (execute_run _ allowed' executed') first second reading reading' repeatable unwritten
      unwritten' taken aligned settled clear clear' [] []⟩

def beginBetween : List SessionAction :=
  [.transaction (.allocate .kReadCommitted)] ++ commitCall 2 [([108], some [9])] ++
    beginCall 3 .kRepeatableRead

def finishBegun : List SessionAction :=
  (beginCall 1 .kReadCommitted).tail ++ writeCall 1 [107] (some [1]) ++
    [.transaction (.prepareCommit 1 [[107]]), .log 1 none, .transaction (.synced 1 true),
      .transaction (.markCommitted 1)]

theorem transactionGet_changes_finishBegun :
    ¬ ∀ (st st' : Session bytewiseComparator) (txn : Nat) (t u : Transaction),
      Run (step {}) free (opened (.new {}) 1) st → Run (step {}) free st st' →
        st.manager.txns txn = some t → st'.manager.txns txn = some u →
          t.stage = .running → u.stage = .running → t.isolation = .kRepeatableRead →
            ∀ key, writesTo key t.writes = [] → writesTo key u.writes = [] →
              ∀ value answer, (st.transactionGet t key value).Answers answer →
                (st'.transactionGet u key value).Answers answer := by
  intro always
  have wrong : (execute (step {}) (opened (.new {}) 1 : Session bytewiseComparator)
      beginBetween).any fun st => (execute (step {}) st finishBegun).any fun st' =>
        (st.manager.txns 3).any fun t => (st'.manager.txns 3).any fun u =>
          (t.stage = .running ∧ u.stage = .running ∧ t.isolation = .kRepeatableRead ∧
            writesTo [107] t.writes = [] ∧ writesTo [107] u.writes = []) ∧
          (st.transactionGet t [107] []).Answers none ∧
            ¬ (st'.transactionGet u [107] []).Answers none := by decide +kernel
  obtain ⟨st, executed, wrong⟩ := Option.any_eq_true _ _ |>.mp wrong
  obtain ⟨st', executed', wrong⟩ := Option.any_eq_true _ _ |>.mp wrong
  obtain ⟨t, first, wrong⟩ := Option.any_eq_true _ _ |>.mp wrong
  obtain ⟨u, second, wrong⟩ := Option.any_eq_true _ _ |>.mp wrong
  obtain ⟨⟨reading, reading', isolation, unwritten, unwritten'⟩, missing, present⟩ :=
    of_decide_eq_true wrong
  have run := execute_run _ (allowed_free _ _ _) executed
  have run' := execute_run _ (allowed_free _ _ _) executed'
  exact present (always st st' 3 t u run run' first second reading reading' isolation [107]
    unwritten unwritten' [] none missing)

end Lrdb.Session
