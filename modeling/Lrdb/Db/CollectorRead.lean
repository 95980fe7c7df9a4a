import Lrdb.Concurrency.ChainOrder
import Lrdb.Concurrency.Collection
import Lrdb.Db.SnapshotRead

namespace Lrdb

def ReadResult.Agrees (before after : ReadResult) : Prop :=
  ∀ answer, before.Answers answer ↔ after.Answers answer

namespace Session
open Versions LSMTree Runs TxManager

variable {cmp : Comparator} {options : LSMTreeOptions} {st st' : Session cmp}
  {lsm : LSMTree cmp} {base txn : Nat} {t : Transaction}

inductive Reads (st : Session cmp) : (VersionRecord → Bool) → Nat → Prop where
  | snapshot (sequence : Nat) :
      Reads st (fun r => r.isCommitted && decide (r.commitSnapshot ≤ sequence)) sequence
  | transaction {txn : Nat} {t : Transaction} (found : st.manager.txns txn = some t)
      (running : t.stage = .running) : Reads st (fun r => r.visibleTo t.view) (st.lsmReadSeq t)

/-- Whoever stops at a version that a collection would drop is told its content by the tree. -/
def Recalled (st : Session cmp) : Prop :=
  ∀ sees sequence, st.Reads sees sequence → ∀ key, ∀ r ∈ (st.manager.chain key).find? sees,
    (st.manager.chain key).Superseded r → ∀ value, (st.lsm.get key sequence value).Answers r.written

/-- Latest reads, reads at any snapshot and reads of active transactions return the same before and
after a collection. -/
structure Undisturbed (st st' : Session cmp) : Prop where
  latest : ∀ key value, (st.get key value).Agrees (st'.get key value)
  snapshot : ∀ key sequence value,
    (st.getAt key sequence value).Agrees (st'.getAt key sequence value)
  transaction : ∀ txn t, st.manager.txns txn = some t → t.stage = .running → ∀ key value,
    (st.transactionGet t key value).Agrees (st'.transactionGet t key value)

def Invisible (options : LSMTreeOptions) (st : Session cmp) : Prop :=
  ∀ st', st.step options (.transaction .garbageCollect) = some st' → st.Undisturbed st'

/-! ## One read -/

theorem skipsAborted_visibleTo (view : ReadView) :
    Chain.SkipsAborted fun r => r.visibleTo view := by
  intro r aborted
  have notCommitted : r.isCommitted = false := by
    simp_all [VersionRecord.isAborted, VersionRecord.isCommitted]
  simp [VersionRecord.visibleTo, ReadView.isVisible, aborted]

theorem Reads.skipsAborted {sees : VersionRecord → Bool} {sequence : Nat}
    (reads : st.Reads sees sequence) : Chain.SkipsAborted sees := by
  cases reads with
  | snapshot sequence =>
      intro r aborted
      simp_all [VersionRecord.isAborted, VersionRecord.isCommitted]
  | transaction => exact skipsAborted_visibleTo _

theorem not_superseded {chain : Chain} {sees : VersionRecord → Bool} {r : VersionRecord}
    (all : ∀ a, a.isCommitted → sees a) (found : chain.find? sees = some r) :
    ¬ chain.Superseded r := by
  rintro ⟨committed, -, older⟩
  obtain ⟨seen, newer, rest, rfl, unseen⟩ := List.find?_eq_some_iff_append.mp found
  refine older (List.find?_eq_some_iff_append.mpr ⟨committed, newer, rest, rfl, fun a above => ?_⟩)
  have hidden := unseen a above
  cases isCommitted : a.isCommitted with
  | false => rfl
  | true =>
      rw [all a isCommitted] at hidden
      cases hidden

theorem readCommitted_all {view : ReadView} (policy : view.policy = .kReadCommitted)
    (r : VersionRecord) (isCommitted : r.isCommitted) : r.visibleTo view := by
  have notAborted : r.isAborted = false := by
    simp_all [VersionRecord.isAborted, VersionRecord.isCommitted]
  simp [VersionRecord.visibleTo, ReadView.isVisible, policy, isCommitted, notAborted]

theorem find?_collected (coherent : st.manager.Coherent base) {sees : VersionRecord → Bool}
    (skips : Chain.SkipsAborted sees) (key : Key) :
    (st.manager.garbageCollect.chain key).find? sees =
      ((st.manager.chain key).find? sees).filter
        fun r => !(st.manager.chain key).Superseded r :=
  Chain.find?_garbageCollect (coherent.top key) (coherent.descending key)
    (coherent.flushedBelow key) skips

theorem agrees_iff {deleted tree : ReadResult} (gone : deleted.status.code = .notFound)
    (found : Option VersionRecord) (superseded : VersionRecord → Bool) :
    (ReadResult.chainFirst deleted tree ((found.map VersionRecord.stamp).map Prod.snd)).Agrees
        (.chainFirst deleted tree
          (((found.filter fun r => !superseded r).map VersionRecord.stamp).map Prod.snd)) ↔
      ∀ r ∈ found, superseded r → tree.Answers r.written := by
  cases found with
  | none => simp [ReadResult.Agrees]
  | some r =>
      have held : (ReadResult.chainFirst deleted tree (some r.written)).Answers r.written := by
        cases content : r.written with
        | none => exact gone
        | some value => exact ⟨rfl, rfl⟩
      by_cases dropped : superseded r
      · have after : (some r).filter (fun r => !superseded r) = none := by
          simp [Option.filter_some, dropped]
        simp only [after, Option.mem_some_iff, forall_eq', dropped, forall_const]
        constructor
        · exact fun same => (same r.written).mp held
        · intro recalled answer
          exact ⟨fun here => held.unique here ▸ recalled, fun there =>
            recalled.unique there ▸ held⟩
      · have after : (some r).filter (fun r => !superseded r) = some r := by
          simp [Option.filter_some, dropped]
        simp [after, ReadResult.Agrees, dropped]

theorem find?_collected_eq (coherent : st.manager.Coherent base) {sees : VersionRecord → Bool}
    (skips : Chain.SkipsAborted sees) (all : ∀ a, a.isCommitted → sees a) (key : Key) :
    (st.manager.garbageCollect.chain key).find? sees = (st.manager.chain key).find? sees := by
  rw [find?_collected coherent skips key]
  cases found : (st.manager.chain key).find? sees with
  | none => rfl
  | some r => simp [Option.filter_some, not_superseded all found]

theorem get_collected (coherent : st.manager.Coherent base) (key : Key) (value : Value) :
    (st.setManager st.manager.garbageCollect).get key value = st.get key value := by
  have view : (st.setManager st.manager.garbageCollect).manager.readView .kReadCommitted 0 [] =
      st.manager.readView .kReadCommitted 0 [] := rfl
  have policy : (st.manager.readView .kReadCommitted 0 []).policy = .kReadCommitted := rfl
  have same := find?_collected_eq coherent (skipsAborted_visibleTo _) (readCommitted_all policy) key
  have read : (st.setManager st.manager.garbageCollect).managerGet key value =
      st.managerGet key value := by
    unfold managerGet Chain.getVisible
    rw [view]
    simp only [setManager, same]
    rfl
  unfold get
  rw [read]
  rfl

theorem getAt_collected (coherent : st.manager.Coherent base) (key : Key) (sequence : Nat)
    (value : Value) :
    (st.getAt key sequence value).Agrees
        ((st.setManager st.manager.garbageCollect).getAt key sequence value) ↔
      ∀ r ∈ (st.manager.chain key).find? (fun r =>
          r.isCommitted && decide (r.commitSnapshot ≤ sequence)),
        (st.manager.chain key).Superseded r → (st.lsm.get key sequence value).Answers r.written := by
  have reads : st.Reads _ sequence := .snapshot sequence
  have scan := find?_collected coherent reads.skipsAborted key
  rw [getAt_eq, getAt_eq, setManager, scan]
  refine (agrees_iff rfl _ _).trans ?_
  simp only [decide_eq_true_eq]

theorem transactionGet_collected (coherent : st.manager.Coherent base) (t : Transaction)
    (key : Key) (value : Value) :
    (st.transactionGet t key value).Agrees
        ((st.setManager st.manager.garbageCollect).transactionGet t key value) ↔
      ∀ r ∈ (st.manager.chain key).find? (fun r => r.visibleTo t.view),
        (st.manager.chain key).Superseded r →
          (st.lsm.get key (st.lsmReadSeq t) value).Answers r.written := by
  have scan := find?_collected coherent (skipsAborted_visibleTo t.view) key
  have sequence : (st.setManager st.manager.garbageCollect).lsmReadSeq t = st.lsmReadSeq t := rfl
  rw [transactionGet_eq, transactionGet_eq, sequence, setManager, scan]
  refine (agrees_iff rfl _ _).trans ?_
  simp only [decide_eq_true_eq]

theorem invisible_iff_recalled (coherent : st.manager.Coherent base) :
    st.Invisible options ↔ st.Recalled := by
  have stepped : st.step options (.transaction .garbageCollect) =
      some (st.setManager st.manager.garbageCollect) := rfl
  constructor
  · intro invisible sees sequence reads key r found superseded value
    have undisturbed := invisible _ stepped
    cases reads with
    | snapshot sequence =>
        exact (getAt_collected coherent key sequence value).mp
          (undisturbed.snapshot key sequence value) r found superseded
    | transaction here running =>
        exact (transactionGet_collected coherent _ key value).mp
          (undisturbed.transaction _ _ here running key value) r found superseded
  · intro recalled st' collected
    obtain rfl := Option.some.inj (stepped.symm.trans collected)
    refine ⟨fun key value answer => ?_, fun key sequence value => ?_,
      fun txn t here running key value => ?_⟩
    · rw [get_collected coherent]
    · exact (getAt_collected coherent key sequence value).mpr fun r found superseded =>
        recalled _ _ (.snapshot sequence) key r found superseded value
    · exact (transactionGet_collected coherent t key value).mpr fun r found superseded =>
        recalled _ _ (.transaction here running) key r found superseded value

/-! ## A tree that serves what was flushed -/

/-- The flushed versions are in the tree under their commit sequences, with one content each, and a
search there finds the newest version at or below its sequence. -/
structure Served (lsm : LSMTree cmp) (st : Session cmp) : Prop where
  flushed : ∀ key, ∀ r ∈ st.manager.chain key, r.isCommitted → r.flushed →
    r.stamp ∈ st.lsm.stamps key
  sound : ∀ key, ∀ w ∈ st.lsm.stamps key, w ∈ lsm.stamps key ∨ w ∈ st.manager.history key
  functional : ∀ key, Functional (st.lsm.stamps key)
  serves : ∀ key snapshot value, (st.lsm.get key snapshot value).Answers
    ((newest ((st.lsm.stamps key).filter fun w => Visible snapshot w.1)).bind Prod.snd)

/-- No repeatable-read view stops at a version that would be dropped, unless the newest version in
the tree at or below the sequence of the transaction has the same content. -/
def ViewsCovered (st : Session cmp) : Prop :=
  ∀ txn t, st.manager.txns txn = some t → t.stage = .running →
    t.view.policy = .kRepeatableRead → ∀ key,
      ∀ r ∈ (st.manager.chain key).find? (fun r => r.visibleTo t.view),
        (st.manager.chain key).Superseded r →
          (newest ((st.lsm.stamps key).filter fun w => Visible t.lsmReadSeq w.1)).bind Prod.snd =
            r.written

theorem served_of_readable (readable : Readable lsm base st)
    (unshadowed : ∀ key snapshot, st.lsm.Unshadowed key snapshot) : Served lsm st where
  flushed := readable.flushed
  sound := readable.sound
  functional := readable.functional
  serves key snapshot value := readable.lsm_get_visible (unshadowed key snapshot) value

theorem unshadowed_of_no_files {tree : LSMTree cmp}
    (none : ∀ files ∈ tree.sstables.levelFiles, files = []) (key : Key) (snapshot : Nat) :
    tree.Unshadowed key snapshot := by
  have noTable : tree.sstables.candidates cmp key = [] := by
    refine List.eq_nil_iff_forall_not_mem.mpr fun table member => ?_
    obtain ⟨files, level, inside⟩ := SSTableManager.mem_of_candidate member
    rw [none files level] at inside
    cases inside
  intro version _ _ older found
  simp [filePlaces, noTable, firstHit] at found

theorem Served.snapshot (served : Served lsm st) (coherent : st.manager.Coherent base)
    (positive : 0 < base) (below : lsm.Below base) {key : Key} {sequence : Nat} {r : VersionRecord}
    (found : (st.manager.chain key).find? (fun r =>
      r.isCommitted && decide (r.commitSnapshot ≤ sequence)) = some r)
    (superseded : (st.manager.chain key).Superseded r) (value : Value) :
    (st.lsm.get key sequence value).Answers r.written := by
  obtain ⟨committed, flushed, -⟩ := superseded
  have member : r ∈ st.manager.chain key := List.mem_of_find?_eq_some found
  have visible : r.commitSnapshot ≤ sequence := by
    have seen := List.find?_some found
    simp only [committed, Bool.true_and, decide_eq_true_eq] at seen
    exact seen
  have given := coherent.history_lt (coherent.committed_mem member committed)
  have bounded : sequence ≠ 0 := ((positive.trans_le given.1).trans_le visible).ne'
  have stops : newestUpTo sequence (Chain.committed (st.manager.chain key)) = some r.stamp := by
    rw [newestUpTo, ← Chain.find?_eq_newest (coherent.descending key), found]
    rfl
  have newestCommit := newestUpTo_of_prefix (coherent.kept key) (coherent.ascending key) stops
  have newestStamp : newest ((st.lsm.stamps key).filter fun w => Visible sequence w.1) =
      some r.stamp := by
    apply newest_eq_of_max ((served.functional key).subset fun w => List.mem_of_mem_filter)
    · exact List.mem_filter.mpr ⟨served.flushed key r member committed flushed,
        decide_eq_true (.inr visible)⟩
    · intro w inTree
      obtain ⟨held, seen⟩ := List.mem_filter.mp inTree
      have covered : w.1 ≤ sequence := (of_decide_eq_true seen).resolve_left bounded
      rcases served.sound key w held with initial | inHistory
      · obtain ⟨version, holds, rfl⟩ := mem_stamps.mp initial
        exact ((below.holds holds).trans_le given.1).le
      · exact newest_le newestCommit w (List.mem_filter.mpr ⟨inHistory, decide_eq_true covered⟩)
  have answers := served.serves key sequence value
  rw [newestStamp] at answers
  exact answers

theorem recalled_iff_covered (served : Served lsm st) (coherent : st.manager.Coherent base)
    (positive : 0 < base) (below : lsm.Below base) : st.Recalled ↔ st.ViewsCovered := by
  constructor
  · intro recalled txn t here running policy key r found superseded
    have sequence : st.lsmReadSeq t = t.lsmReadSeq := by rw [lsmReadSeq, policy]
    have read := recalled _ _ (.transaction here running) key r found superseded []
    rw [sequence] at read
    exact (served.serves key t.lsmReadSeq []).unique read
  · intro covered sees sequence reads key r found superseded value
    cases reads with
    | snapshot sequence => exact served.snapshot coherent positive below found superseded value
    | @transaction txn t here running =>
        cases policy : t.view.policy with
        | kReadCommitted => exact absurd superseded (not_superseded (readCommitted_all policy) found)
        | kRepeatableRead =>
            have sequence : st.lsmReadSeq t = t.lsmReadSeq := by rw [lsmReadSeq, policy]
            rw [sequence, ← covered txn t here running policy key r found superseded]
            exact served.serves key t.lsmReadSeq value

/-- In every state of a session a collection is invisible exactly when the tree recalls what it
drops to the readers that stop there. Where the tree serves what was flushed, on a tree that starts
below the first sequence, these are the repeatable-read transactions whose sequence covers a commit that
their view does not. -/
theorem garbageCollect_invisible_iff {nextSequence : Nat}
    (run : Run (step options) free (opened lsm nextSequence) st) :
    (st.Invisible options ↔ st.Recalled) ∧
      (0 < nextSequence → lsm.Below nextSequence → Served lsm st →
        (st.Invisible options ↔ st.ViewsCovered)) := by
  have coherent := coherent_of_run run
  refine ⟨invisible_iff_recalled coherent, fun positive below served => ?_⟩
  exact (invisible_iff_recalled coherent).trans
    (recalled_iff_covered served coherent positive below)

def markedAfterBegin : List SessionAction :=
  commitCall 1 [([107], some [1])] ++ beginCall 2 .kReadCommitted ++
    writeCall 2 [107] (some [2]) ++
    [.transaction (.prepareCommit 2 [[107]]), .log 2 none, .transaction (.synced 2 true)] ++
    beginCall 3 .kRepeatableRead ++
    [.transaction (.markCommitted 2), .transaction (.onCommitted 2), .transaction (.releaseAll 2)] ++
    flushCall 0 2 [[107]]

def markedBeforeBegin : List SessionAction :=
  commitCall 1 [([107], some [1])] ++ commitCall 2 [([107], some [2])] ++
    beginCall 3 .kRepeatableRead ++ flushCall 0 2 [[107]]

theorem served_of_execute {st : Session bytewiseComparator} {actions : List SessionAction}
    (executed : execute (step {}) (opened (.new {}) 1) actions = some st)
    (careful : Allowed (step {}) (Careful {}) (opened (.new {}) 1 : Session bytewiseComparator)
      actions) (none : ∀ files ∈ st.lsm.sstables.levelFiles, files = []) :
    Served (.new {}) st :=
  served_of_readable (readable_of_run (orderedStart_new Nat.one_pos)
    (execute_run _ careful executed)) fun key snapshot => unshadowed_of_no_files none key snapshot

theorem garbageCollect_invisible_iff_markedBeforeBegin :
    ∃ st : Session bytewiseComparator, execute (step {}) (opened (.new {}) 1)
        markedBeforeBegin = some st ∧ Served (.new {}) st ∧
      (∃ r ∈ st.manager.chain [107], (st.manager.chain [107]).Superseded r) ∧
        (st.Invisible {} ↔ st.ViewsCovered) := by
  have facts : (execute (step {}) (opened (.new {}) 1 : Session bytewiseComparator)
      markedBeforeBegin).any fun st => (∀ files ∈ st.lsm.sstables.levelFiles, files = []) ∧
        ∃ r ∈ st.manager.chain [107], (st.manager.chain [107]).Superseded r := by decide +kernel
  have careful : Allowed (step {}) (Careful {}) (opened (.new {}) 1 : Session bytewiseComparator)
      markedBeforeBegin := by decide +kernel
  obtain ⟨st, executed, facts⟩ := Option.any_eq_true _ _ |>.mp facts
  obtain ⟨none, dropped⟩ := of_decide_eq_true facts
  have served := served_of_execute executed careful none
  exact ⟨st, executed, served, dropped, (garbageCollect_invisible_iff
    (execute_run _ (allowed_free _ _ _) executed)).2 Nat.one_pos (below_new 1) served⟩

theorem garbageCollect_visible_markedAfterBegin :
    ¬ ∀ st : Session bytewiseComparator, Run (step {}) free (opened (.new {}) 1) st →
      Served (.new {}) st → st.Invisible {} := by
  intro always
  have facts : (execute (step {}) (opened (.new {}) 1 : Session bytewiseComparator)
      markedAfterBegin).any fun st => (∀ files ∈ st.lsm.sstables.levelFiles, files = []) ∧
        (st.manager.txns 3).any fun t => t.stage = .running ∧
          (st.transactionGet t [107] []).Answers (some [1]) ∧
            ¬ ((st.setManager st.manager.garbageCollect).transactionGet t [107] []).Answers
              (some [1]) := by decide +kernel
  have careful : Allowed (step {}) (Careful {}) (opened (.new {}) 1 : Session bytewiseComparator)
      markedAfterBegin := by decide +kernel
  obtain ⟨st, executed, facts⟩ := Option.any_eq_true _ _ |>.mp facts
  obtain ⟨none, facts⟩ := of_decide_eq_true facts
  obtain ⟨t, here, facts⟩ := Option.any_eq_true _ _ |>.mp facts
  obtain ⟨running, before, after⟩ := of_decide_eq_true facts
  have invisible := always st (execute_run _ (allowed_free _ _ _) executed)
    (served_of_execute executed careful none)
  exact after (((invisible _ rfl).transaction 3 t here running [107] [] (some [1])).mp before)

end Session
end Lrdb
