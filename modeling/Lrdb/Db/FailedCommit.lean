import Lrdb.Db.Content
import Lrdb.Db.CrashRecovery

namespace Lrdb

/-- The bytes of the record get into the file, whatever the call returns. -/
def WALRecord.Reaches (fault : Option WriteFault) (r : WALRecord) : Prop :=
  r.key ≠ [] ∧ r.sequenceNumber ≠ 0 ∧ r.encodedLength ≤ maxEncodedLength ∧
    fault ≠ some .noFile ∧ fault ≠ some .append

instance (fault : Option WriteFault) (r : WALRecord) : Decidable (r.Reaches fault) :=
  inferInstanceAs (Decidable (_ ∧ _))

namespace Log
variable {log log' : Log} {fault : Option WriteFault} {r : WALRecord} {status : Status}

theorem writeRecord_reaches (nonempty : r.key ≠ [])
    (written : log.writeRecord fault r = (status, log')) :
    log' = if r.Reaches fault then log ++ [r] else log := by
  unfold writeRecord at written
  split at written
  · rename_i noFile
    cases written
    exact (if_neg fun reaches => reaches.2.2.2.1 noFile).symm
  split at written
  · rename_i zero
    cases written
    exact (if_neg fun reaches => reaches.2.1 zero).symm
  split at written
  · rename_i refused
    cases written
    refine (if_neg fun reaches => ?_).symm
    exact refused.elim (Nat.not_lt.mpr reaches.2.2.1) reaches.2.2.2.2
  · rename_i file positive accepted
    obtain ⟨short, stream⟩ := not_or.mp accepted
    have reaches : r.Reaches fault := ⟨nonempty, positive, Nat.not_lt.mp short, file, stream⟩
    rw [if_pos reaches]
    split at written <;> cases written <;> rfl

theorem writeKey_reaches {columnFamilyId : Nat} {key : Key} {sequence : Nat}
    {content : Option Value}
    (written : log.writeKey fault columnFamilyId key sequence content = (status, log')) :
    log' = if (WALRecord.ofWrite columnFamilyId key sequence content).Reaches fault then
      log ++ [.ofWrite columnFamilyId key sequence content] else log := by
  cases content <;> simp only [writeKey, writePut, writeDelete] at written <;> split at written
  · rename_i empty
    cases written
    exact (if_neg fun reaches => reaches.1 (List.isEmpty_iff.mp empty)).symm
  · rename_i nonempty
    exact writeRecord_reaches (mt List.isEmpty_iff.mpr nonempty) written
  · rename_i empty
    cases written
    exact (if_neg fun reaches => reaches.1 (List.isEmpty_iff.mp empty)).symm
  · rename_i nonempty
    exact writeRecord_reaches (mt List.isEmpty_iff.mpr nonempty) written

end Log

namespace Session
open Versions LSMTree TxManager Runs ReplayState

variable {cmp : Comparator} {options : LSMTreeOptions} {st st' st₁ : Session cmp} {base : Nat}
  {lsm : LSMTree cmp} {txn s : Nat} {t : Transaction}

/-- The calls that `Commit` makes to the log. -/
def LogCall (txn : Nat) : SessionAction → Prop
  | .log other _ => other = txn
  | .transaction (.synced other _) => other = txn
  | _ => False

def Appends (st : Session cmp) (t : Transaction) (sequence : Nat) (action : SessionAction)
    (key : Key) (content : Option Value) : Prop :=
  ∃ txn fault, action = .log txn fault ∧ t.stage.remaining.head? = some key ∧
    (writesTo key t.writes).head? = some content ∧
      (WALRecord.ofWrite st.columnFamilyId key sequence content).Reaches fault

/-- Nothing was appended before the call, and the call appends nothing. -/
def Unlogged (st : Session cmp) (t : Transaction) (sequence : Nat) (action : SessionAction) :
    Prop :=
  (∀ key, writesTo key t.writes ≠ [] → key ∈ t.stage.remaining) ∧
    ∀ key content, ¬ st.Appends t sequence action key content

/-- What a transaction with the sequence `s` left neither for readers nor for recovery. A version of
it may be visible to its own view while its `Commit` is on the way out. -/
structure NoTrace (memtable : MemTableOptions) (lsm : LSMTree cmp) (txn s : Nat)
    (st : Session cmp) : Prop where
  chain : ∀ key, ∀ r ∈ st.manager.chain key, r.txnId = txn → ¬ r.isCommitted ∧
    ∀ view, r.visibleTo view → view.myTxn = txn ∧
      (st.manager.txns txn).map Transaction.stage = some .aborting
  tree : ∀ key, ∀ w ∈ st.lsm.stamps key, w.1 = s → w ∈ lsm.stamps key
  recovered : ∃ recovered, st.recover memtable = .ok recovered ∧
    ∀ key, ∀ w ∈ (recovered.memtable.versions key).map stampOf, w.1 ≠ s

structure Withdrawn (base txn s : Nat) (origin st : Session cmp) : Prop where
  coherent : st.manager.Coherent base
  stage : ∃ t, st.manager.txns txn = some t ∧ t.stage.withdrawn
  given : s < st.manager.nextSequence
  others : ∀ other u, st.manager.txns other = some u → u.stage.sequence ≠ some s
  commits : ∀ c ∈ st.manager.commits, c.txn ≠ txn ∧ c.sequence ≠ s
  records : ∀ key content, st.Has key s content ↔ origin.Has key s content

theorem Withdrawn.step {origin : Session cmp} (withdrawn : Withdrawn base txn s origin st)
    {action : SessionAction} (stepped : st.step options action = some st') :
    Withdrawn base txn s origin st' := by
  have effect := session_effect stepped
  obtain ⟨t, found, leaving⟩ := withdrawn.stage
  refine ⟨coherent_step stepped withdrawn.coherent, ?_,
    withdrawn.given.trans_le effect.nextSequence, ?_, ?_, ?_⟩
  · rcases step_manager stepped with same | ⟨a, moved⟩
    · exact ⟨t, same ▸ found, leaving⟩
    · exact withdrawn_step withdrawn.coherent moved found leaving
  · intro other u' found' sequence
    rcases effect.origin other u' found' with ⟨-, stage, -⟩ | ⟨u, before, continues⟩
    · rw [stage] at sequence
      cases sequence
    · rcases continues.sequence s sequence with old | new
      · exact withdrawn.others other u before old
      · exact withdrawn.given.ne new
  · intro c member
    rcases effect.commits with same | ⟨other, u, sequence, before, stage, more⟩
    · exact withdrawn.commits c (same ▸ member)
    rw [more] at member
    rcases List.mem_cons.mp member with rfl | old
    · constructor
      · rintro rfl
        obtain rfl := Option.some.inj (found.symm.trans before)
        rw [stage] at leaving
        cases leaving
      · rintro rfl
        exact withdrawn.others other u before (by rw [stage]; rfl)
    · exact withdrawn.commits c old
  · intro key content
    rw [← withdrawn.records]
    obtain ⟨family, same | ⟨other, u, sequence, k, rest, c, before, stage, grown⟩⟩ :=
      wal_step stepped
    · rw [Has, Has, same, family]
    · rw [Has, Has, grown, family, List.mem_append, List.mem_singleton]
      refine or_iff_left fun same => ?_
      obtain ⟨-, rfl, -⟩ := WALRecord.ofWrite_inj same
      exact withdrawn.others other u before (by rw [stage]; rfl)

theorem sound_of_run {nextSequence : Nat} (positive : 0 < nextSequence)
    (numbered : lsm.sstables.Numbered) {guard : Session cmp → SessionAction → Prop}
    (run : Run (step options) guard (opened lsm nextSequence) st)
    (bounded : st.manager.nextSequence ≤ sequenceLimit) :
    ∀ key, ∀ w ∈ st.lsm.stamps key, w ∈ lsm.stamps key ∨ w ∈ st.manager.history key := by
  refine (run.invariant (p := fun st => (st.manager.Coherent nextSequence ∧
    st.lsm.sstables.Numbered) ∧ (st.manager.nextSequence ≤ sequenceLimit → ∀ key,
      ∀ w ∈ st.lsm.stamps key, w ∈ lsm.stamps key ∨ w ∈ st.manager.history key)) ?_
    ⟨⟨TxManager.Coherent.initial nextSequence, numbered⟩, fun _ _ _ => .inl⟩).2 bounded
  rintro st action st' - stepped ⟨⟨coherent, numbered⟩, sound⟩
  have effect := session_effect stepped
  refine ⟨⟨coherent_step stepped coherent, numbered_step coherent positive numbered stepped⟩, ?_⟩
  intro small key w member
  have small := effect.nextSequence.trans small
  have old (member : w ∈ st.lsm.stamps key) :
      w ∈ lsm.stamps key ∨ w ∈ st'.manager.history key :=
    (sound small key w member).imp_right (history_mono effect)
  cases step_tree coherent positive stepped with
  | same tree => exact old (tree ▸ member)
  | switched tree =>
      rw [tree] at member
      exact old ((mem_stamps_congr fun version => holds_switched).mp member)
  | flushed _ status tree =>
      exact old ((mem_stamps_congr fun version => holds_flushOldest numbered tree).mp member)
  | written call taken item next tree =>
      obtain ⟨-, inHistory⟩ := item_committed coherent next
      have less : item.2.commitSnapshot < sequenceLimit :=
        (coherent.history_lt inHistory).2.trans_le small
      rw [tree] at member
      obtain ⟨version, held, rfl⟩ := mem_stamps.mp member
      rcases holds_store less held with ⟨rfl, rfl⟩ | before
      · rw [stampOf_item]
        exact .inr (history_mono effect inHistory)
      · exact old (mem_stamps.mpr ⟨version, holds_landing.mp before, rfl⟩)

theorem has_logCall (coherent : st.manager.Coherent base) {action : SessionAction}
    (call : LogCall txn action) (found : st.manager.txns txn = some t)
    (inCommit : t.stage.sequence = some s) (stepped : st.step options action = some st₁)
    (key : Key) (content : Option Value) :
    st₁.Has key s content ↔ st.Has key s content ∨ st.Appends t s action key content := by
  cases action with
  | log other fault =>
      obtain rfl : other = txn := call
      obtain ⟨u, sequence, k, rest, found', stage, outcome⟩ := log_cases stepped
      obtain rfl := Option.some.inj (found.symm.trans found')
      obtain rfl : sequence = s := by
        rw [stage] at inCommit
        exact Option.some.inj inCommit
      have last := head_writesTo coherent found (by rw [stage]; rfl) k
      have head : t.stage.remaining.head? = some k := by rw [stage]; rfl
      rcases outcome with ⟨unwritten, rfl⟩ | ⟨r, status, wal, latest, result, rfl⟩
      · refine (or_iff_left ?_).symm
        rintro ⟨_, _, -, head', some', -⟩
        obtain rfl := Option.some.inj (head.symm.trans head')
        rw [last, unwritten] at some'
        cases some'
      · rw [latest] at last
        have wal_eq := Log.writeKey_reaches result
        have appends : st.Appends t sequence (.log other fault) key content ↔
            (key = k ∧ content = r.written) ∧
              (WALRecord.ofWrite st.columnFamilyId k sequence r.written).Reaches fault := by
          constructor
          · rintro ⟨_, _, same, head', last', reaches⟩
            obtain ⟨rfl, rfl⟩ := SessionAction.log.inj same
            obtain rfl := Option.some.inj (head.symm.trans head')
            obtain rfl := Option.some.inj (last.symm.trans last')
            exact ⟨⟨rfl, rfl⟩, reaches⟩
          · rintro ⟨⟨rfl, rfl⟩, reaches⟩
            exact ⟨_, _, rfl, head, last, reaches⟩
        rw [appends, Has, Has]
        show _ ∈ wal ↔ _
        rw [wal_eq]
        split
        · rename_i reaches
          rw [List.mem_append, List.mem_singleton, and_iff_left reaches]
          refine or_congr_right ⟨fun same => ?_, ?_⟩
          · exact ⟨(WALRecord.ofWrite_inj same).1, (WALRecord.ofWrite_inj same).2.2⟩
          · rintro ⟨rfl, rfl⟩
            rfl
        · rename_i refused
          exact (or_iff_left fun both => refused both.2).symm
  | transaction a =>
      simp only [step] at stepped
      split at stepped <;> [cases stepped; skip]
      obtain ⟨manager, -, rfl⟩ := Option.map_eq_some_iff.mp stepped
      refine (or_iff_left ?_).symm
      rintro ⟨_, _, same, -⟩
      cases same
  | flushWrite _ | switchMemTable | flushOldestMemTable => exact False.elim call

theorem withdrawn_of_failed (coherent : st.manager.Coherent base) {action : SessionAction}
    (found : st.manager.txns txn = some t) (inCommit : t.stage.sequence = some s)
    (stepped : st.step options action = some st₁)
    (failed : (st₁.manager.txns txn).map Transaction.stage = some .aborting) :
    Withdrawn base txn s st₁ st₁ := by
  obtain ⟨-, given, uncommitted, -⟩ := coherent.prepared txn t s found inCommit
  obtain ⟨t₁, found₁, stage₁⟩ := Option.map_eq_some_iff.mp failed
  have effect := session_effect stepped
  have coherent₁ := coherent_step stepped coherent
  have unfinished : ∀ c ∈ st₁.manager.commits, c.txn ≠ txn := by
    rintro c member rfl
    obtain ⟨-, -, u, after, marked⟩ := coherent₁.recorded c member
    obtain rfl := Option.some.inj (found₁.symm.trans after)
    rw [stage₁] at marked
    cases marked
  refine ⟨coherent₁, ⟨t₁, found₁, by rw [stage₁]; rfl⟩, given.trans_le effect.nextSequence, ?_,
    fun c member => ⟨unfinished c member, ?_⟩, fun _ _ => Iff.rfl⟩
  · intro other u' found' sequence
    rcases effect.origin other u' found' with ⟨-, stage, -⟩ | ⟨u, before, continues⟩
    · rw [stage] at sequence
      cases sequence
    rcases continues.sequence s sequence with old | new
    · obtain rfl := coherent.distinct other txn u t s before found old inCommit
      obtain rfl := Option.some.inj (found₁.symm.trans found')
      rw [stage₁] at sequence
      cases sequence
    · exact given.ne new
  · rcases effect.commits with same | ⟨other, u, sequence, before, stage, more⟩
    · exact uncommitted c (same ▸ member)
    rw [more] at member
    rcases List.mem_cons.mp member with rfl | earlier
    · rintro rfl
      have inCommit' : u.stage.sequence = some sequence := by rw [stage]; rfl
      obtain rfl := coherent.distinct other txn u t sequence before found inCommit' inCommit
      exact unfinished _ (more ▸ List.mem_cons_self ..) rfl
    · exact uncommitted c earlier

theorem Withdrawn.noTrace {origin : Session cmp} (withdrawn : Withdrawn base txn s origin st)
    (sound : ∀ key, ∀ w ∈ st.lsm.stamps key, w ∈ lsm.stamps key ∨ w ∈ st.manager.history key)
    (logged : Logged st) (single : st.SingleRecords)
    (bounded : st.manager.nextSequence ≤ sequenceLimit) (memtable : MemTableOptions)
    (empty : ∀ key content, ¬ origin.Has key s content) : NoTrace memtable lsm txn s st where
  chain := by
    intro key r member own
    have uncommitted : ¬ r.isCommitted := by
      intro isCommitted
      obtain ⟨c, inCommits, creator, -⟩ := withdrawn.coherent.creators key r member isCommitted
      exact (withdrawn.commits c inCommits).1 (creator.trans own)
    refine ⟨uncommitted, fun view visible => ?_⟩
    have mine : r.txnId = view.myTxn ∧ ¬ r.isAborted := by
      unfold VersionRecord.visibleTo ReadView.isVisible at visible
      grind
    refine ⟨mine.1.symm.trans own, ?_⟩
    have active : r.isActiveOf txn := by
      unfold VersionRecord.isActiveOf VersionRecord.isActive
      unfold VersionRecord.isCommitted at uncommitted
      have := mine.2
      unfold VersionRecord.isAborted at this
      cases state : r.state <;> simp_all
    -- Only an unmarked transaction has active versions.
    obtain ⟨t, found, leaving⟩ := withdrawn.stage
    have outstanding : st.manager.outstanding txn key ≠ [] := by
      rw [← withdrawn.coherent.tracked key txn]
      exact fun none => Chain.pending_eq_nil.mp none r member active
    simp only [TxManager.outstanding, found] at outstanding
    rw [found, Option.map_some]
    cases stage : t.stage <;> simp_all [Stage.unmarked, Stage.withdrawn]
  tree := by
    rintro key w member rfl
    apply (sound key w member).resolve_right
    intro inHistory
    obtain ⟨c, inCommits, sequence, -⟩ := mem_history.mp inHistory
    exact (withdrawn.commits c inCommits).2 sequence
  recovered := by
    obtain ⟨recovered, replays, result⟩ := recover_ok logged single bounded memtable
    refine ⟨recovered, replays, ?_⟩
    rintro key w member rfl
    exact empty key w.2 ((withdrawn.records key w.2).mp ((result key w).mp member))

/-- Whatever came before and whatever comes after, a commit that fails in a call to the log leaves
no trace if and only if it had appended nothing and the failing call appends nothing. -/
theorem failedCommit_noTrace_iff {nextSequence : Nat} (positive : 0 < nextSequence)
    (numbered : lsm.sstables.Numbered) (run : Run (step options) free (opened lsm nextSequence) st)
    (found : st.manager.txns txn = some t) (inCommit : t.stage.sequence = some s)
    {action : SessionAction} (call : LogCall txn action)
    (stepped : st.step options action = some st₁)
    (failed : (st₁.manager.txns txn).map Transaction.stage = some .aborting)
    (bounded : st₁.manager.nextSequence ≤ sequenceLimit) (memtable : MemTableOptions) :
    (∀ st₂, Run (step options) free st₁ st₂ → st₂.manager.nextSequence ≤ sequenceLimit →
        NoTrace memtable lsm txn s st₂) ↔ st.Unlogged t s action := by
  have coherent := coherent_of_run run
  have logged := logged_of_run run
  have run₁ : Run (step options) free (opened lsm nextSequence) st₁ :=
    run.tail ⟨action, trivial, stepped⟩
  have has := has_logCall coherent call found inCommit stepped
  have position := (logged.prepared txn t s found inCommit).2
  constructor
  · intro untraced
    obtain ⟨recovered, replays, none⟩ := (untraced st₁ .refl bounded).recovered
    obtain ⟨other, replays', result⟩ :=
      recover_ok (logged_of_run run₁) (singleRecords_of_run run₁) bounded memtable
    obtain rfl := Except.ok.inj (replays.symm.trans replays')
    have empty (key : Key) (content : Option Value) : ¬ st₁.Has key s content :=
      fun present => none key (s, content) ((result key (s, content)).mpr present) rfl
    refine ⟨fun key written => ?_, fun key content appends => ?_⟩
    · by_contra passed
      obtain ⟨content, last⟩ := Option.ne_none_iff_exists'.mp (mt List.head?_eq_none_iff.mp written)
      exact empty key content ((has key content).mpr
        (.inl ((position key content).mpr ⟨passed, last⟩)))
    · exact empty key content ((has key content).mpr (.inr appends))
  · rintro ⟨unpassed, unappended⟩ st₂ run₂ small
    have empty (key : Key) (content : Option Value) : ¬ st₁.Has key s content := by
      intro present
      rcases (has key content).mp present with before | appends
      · obtain ⟨passed, last⟩ := (position key content).mp before
        refine passed (unpassed key fun none => ?_)
        rw [none] at last
        cases last
      · exact unappended key content appends
    have withdrawn : Withdrawn nextSequence txn s st₁ st₂ :=
      run₂.invariant (fun _ _ _ _ stepped withdrawn => withdrawn.step stepped)
        (withdrawn_of_failed coherent found inCommit stepped failed)
    have whole := run₁.trans run₂
    exact withdrawn.noTrace (sound_of_run positive numbered whole small) (logged_of_run whole)
      (singleRecords_of_run whole) small memtable empty

def committing (writes : List (Key × Option Value)) : List SessionAction :=
  beginCall 1 .kReadCommitted ++ writes.flatMap (fun write => writeCall 1 write.1 write.2) ++
    [.transaction (.prepareCommit 1 (writes.map Prod.fst))]

theorem failedCommit_noTrace_firstAppend :
    ∃ st st₁, execute (step {}) (opened (.new {}) 1 : Session bytewiseComparator)
        (committing [([107], some [1]), ([108], none)]) = some st ∧
      st.step {} (.log 1 (some .append)) = some st₁ ∧
      ∀ st₂, Run (step {}) free st₁ st₂ → st₂.manager.nextSequence ≤ sequenceLimit →
        NoTrace {} (.new {}) 1 1 st₂ := by
  have holds : (execute (step {}) (opened (.new {}) 1 : Session bytewiseComparator)
      (committing [([107], some [1]), ([108], none)])).any fun st =>
        (st.manager.txns 1).any fun t =>
          (st.step {} (.log 1 (some .append))).any fun st₁ =>
            t.stage = .logging 1 [[107], [108]] ∧
              t.writes = [([108], none), ([107], some [1])] ∧
              (st₁.manager.txns 1).map Transaction.stage = some .aborting ∧
              st₁.manager.nextSequence ≤ sequenceLimit := by decide +kernel
  obtain ⟨st, executed, holds⟩ := Option.any_eq_true _ _ |>.mp holds
  obtain ⟨t, found, holds⟩ := Option.any_eq_true _ _ |>.mp holds
  obtain ⟨st₁, stepped, holds⟩ := Option.any_eq_true _ _ |>.mp holds
  obtain ⟨stage, writes, failed, bounded⟩ := of_decide_eq_true holds
  have unlogged : st.Unlogged t 1 (.log 1 (some .append)) := by
    refine ⟨fun key written => ?_, ?_⟩
    · rw [stage]
      rw [writes] at written
      by_contra missing
      apply written
      simp only [Stage.remaining, List.mem_cons, List.not_mem_nil, or_false, not_or] at missing
      simp [writesTo, Ne.symm missing.1, Ne.symm missing.2]
    · rintro key content ⟨_, fault, same, -, -, reaches⟩
      obtain ⟨-, rfl⟩ := SessionAction.log.inj same
      exact reaches.2.2.2.2 rfl
  have run := execute_run _ (allowed_free _ _ _) executed
  exact ⟨st, st₁, executed, stepped, (failedCommit_noTrace_iff Nat.one_pos
    (start_new Nat.one_pos).numbered run found (by rw [stage]; rfl)
    (show LogCall 1 (.log 1 (some .append)) from rfl) stepped failed bounded {}).mpr unlogged⟩

theorem failedCommit_traced_emptyKey :
    ¬ ∀ (st st₁ : Session bytewiseComparator) (txn s : Nat) (t : Transaction)
      (action : SessionAction), Run (step {}) free (opened (.new {}) 1) st →
        st.manager.txns txn = some t → t.stage.sequence = some s → LogCall txn action →
          st.step {} action = some st₁ →
            (st₁.manager.txns txn).map Transaction.stage = some .aborting →
              ∀ st₂, Run (step {}) free st₁ st₂ → st₂.manager.nextSequence ≤ sequenceLimit →
                NoTrace {} (.new {}) txn s st₂ := by
  intro always
  have wrong : (execute (step {}) (opened (.new {}) 1 : Session bytewiseComparator)
      (committing [([107], some [1]), ([], some [2])] ++ [.log 1 none])).any fun st =>
        (st.manager.txns 1).any fun t => (st.step {} (.log 1 none)).any fun st₁ =>
          t.stage = .logging 1 [[]] ∧
            (st₁.manager.txns 1).map Transaction.stage = some .aborting ∧
            st₁.manager.nextSequence ≤ sequenceLimit ∧
            (st₁.recover {}).toOption.any fun recovered =>
              (1, some [1]) ∈ (recovered.memtable.versions [107]).map stampOf := by
    decide +kernel
  obtain ⟨st, executed, wrong⟩ := Option.any_eq_true _ _ |>.mp wrong
  obtain ⟨t, found, wrong⟩ := Option.any_eq_true _ _ |>.mp wrong
  obtain ⟨st₁, stepped, wrong⟩ := Option.any_eq_true _ _ |>.mp wrong
  obtain ⟨stage, failed, bounded, wrong⟩ := of_decide_eq_true wrong
  obtain ⟨recovered, replays, wrong⟩ := Option.any_eq_true _ _ |>.mp wrong
  have run := execute_run _ (allowed_free _ _ _) executed
  obtain ⟨other, replays', none⟩ := (always st st₁ 1 1 t (.log 1 none) run found
    (by rw [stage]; rfl) rfl stepped failed st₁ .refl bounded).recovered
  rw [replays'] at replays
  obtain rfl := Option.some.inj replays
  exact none [107] (1, some [1]) (of_decide_eq_true wrong) rfl

end Session
end Lrdb
