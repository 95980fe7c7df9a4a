import Lrdb.Db.Session
import Lrdb.Wal.Replay

namespace Lrdb

def Stage.remaining : Stage → List Key
  | .logging _ remaining => remaining
  | _ => []

namespace TxManager

structure Extends (m : TxManager) (t t' : Transaction) : Prop where
  writes : t'.writes = t.writes ∧ t'.touchedKeys = t.touchedKeys ∨
    t'.stage.sequence = none ∧ ∃ key content,
      t'.writes = (key, content) :: t.writes ∧ t'.touchedKeys = t.touchedKeys.insert key
  position : ∀ s, t'.stage.sequence = some s →
    t.stage.sequence = some s ∧ t'.stage.remaining = t.stage.remaining ∨
      s = m.nextSequence ∧ t'.stage.remaining.Perm t.touchedKeys ∧ t'.writes = t.writes ∧
        t'.touchedKeys = t.touchedKeys

theorem Extends.refl (m : TxManager) (t : Transaction) : Extends m t t :=
  ⟨.inl ⟨rfl, rfl⟩, fun _ prepared => .inl ⟨prepared, rfl⟩⟩

private theorem Extends.idle {m : TxManager} {t t' : Transaction} (writes : t'.writes = t.writes)
    (touchedKeys : t'.touchedKeys = t.touchedKeys) (idle : t'.stage.sequence = none) :
    Extends m t t' :=
  ⟨.inl ⟨writes, touchedKeys⟩, fun s prepared => by rw [idle] at prepared; cases prepared⟩

theorem step_extends {m m' : TxManager} {action : TxAction} (stepped : m.step action = some m')
    (outside : action.external = false) {txn : Nat} {t' : Transaction}
    (found' : m'.txns txn = some t') :
    (m.nextTxn ≤ txn ∧ t'.writes = [] ∧ t'.touchedKeys = [] ∧ t'.stage.sequence = none) ∨
      ∃ t, m.txns txn = some t ∧ Extends m t t' := by
  have still (same : m'.txns = m.txns) : (m.nextTxn ≤ txn ∧ t'.writes = [] ∧
      t'.touchedKeys = [] ∧ t'.stage.sequence = none) ∨
        ∃ t, m.txns txn = some t ∧ Extends m t t' :=
    .inr ⟨t', same ▸ found', .refl m t'⟩
  have moved {other : Nat} {u u' : Transaction} (found : m.txns other = some u)
      (same : m'.txns = (m.setTxn other u').txns) (extended : Extends m u u') :
      (m.nextTxn ≤ txn ∧ t'.writes = [] ∧ t'.touchedKeys = [] ∧
        t'.stage.sequence = none) ∨ ∃ t, m.txns txn = some t ∧ Extends m t t' := by
    rw [same] at found'
    rcases txns_setTxn found' with ⟨rfl, rfl⟩ | ⟨-, old⟩
    · exact .inr ⟨u, found, extended⟩
    · exact .inr ⟨t', old, .refl m t'⟩
  cases action with
  | allocate isolation =>
      obtain rfl := Option.some.inj stepped
      rcases txns_setTxn (m := m) found' with ⟨same, rfl⟩ | ⟨-, old⟩
      · exact .inl ⟨same.ge, rfl, rfl, rfl⟩
      · exact .inr ⟨t', old, .refl m t'⟩
  | write other content =>
      obtain ⟨t, found, stepped⟩ := Option.bind_eq_some_iff.mp stepped
      unfold write at stepped
      split at stepped <;> [rename_i key stage; cases stepped]
      obtain rfl := Option.some.inj stepped
      exact moved found rfl ⟨.inr ⟨rfl, key, content, rfl, rfl⟩, nofun⟩
  | prepareCommit other order =>
      obtain ⟨t, found, stepped⟩ := Option.bind_eq_some_iff.mp stepped
      unfold prepareCommit at stepped
      split at stepped <;> [skip; cases stepped]
      split at stepped <;> [rename_i perm; cases stepped]
      obtain rfl := Option.some.inj stepped
      exact moved found rfl ⟨.inl ⟨rfl, rfl⟩, fun s prepared =>
        .inr ⟨(Option.some.inj prepared).symm, perm, rfl, rfl⟩⟩
  | synced other success =>
      obtain ⟨t, found, stepped⟩ := Option.bind_eq_some_iff.mp stepped
      unfold synced at stepped
      split at stepped <;> [rename_i sequence stage; cases stepped]
      obtain rfl := Option.some.inj stepped
      refine moved found rfl ⟨.inl ⟨rfl, rfl⟩, fun s prepared => ?_⟩
      cases success with
      | false => cases prepared
      | true => exact .inl ⟨by rw [stage]; exact prepared, by rw [stage]; rfl⟩
  | logged other success => cases outside
  | wrote call success => cases outside
  | pick call maxItems order =>
      change m.pick call maxItems order = some m' at stepped
      unfold pick at stepped
      split at stepped <;> [skip; cases stepped]
      dsimp only at stepped
      split at stepped <;> obtain rfl := Option.some.inj stepped <;> exact still rfl
  | markFlushed call =>
      obtain ⟨f, flushing, stepped⟩ := Option.bind_eq_some_iff.mp stepped
      unfold markFlushed at stepped
      split at stepped <;> [skip; cases stepped]
      obtain rfl := Option.some.inj stepped
      exact still rfl
  | garbageCollect =>
      obtain rfl := Option.some.inj stepped
      exact still rfl
  | release other key =>
      obtain ⟨t, found, stepped⟩ := Option.bind_eq_some_iff.mp stepped
      unfold release at stepped
      split at stepped <;> [skip; cases stepped]
      obtain rfl := Option.some.inj stepped
      exact still rfl
  | insertActive other | copyActive other | readUpLimit other | captureSequence other
  | keepLock other | giveUp other | markCommitted other | onCommitted other | rollback other
  | markAborted other | onAborted other | releaseAll other =>
      obtain ⟨t, found, stepped⟩ := Option.bind_eq_some_iff.mp stepped
      simp only [insertActive, copyActive, readUpLimit, captureSequence, keepLock, giveUp,
        markCommitted, onCommitted, rollback, markAborted, onAborted, releaseAll] at stepped
      split at stepped <;> [skip; cases stepped]
      obtain rfl := Option.some.inj stepped
      exact moved found rfl (.idle rfl rfl rfl)
  | acquire other key | wake other =>
      obtain ⟨t, found, stepped⟩ := Option.bind_eq_some_iff.mp stepped
      simp only [acquire, wake] at stepped
      split at stepped <;> [skip; cases stepped]
      split at stepped <;> cases stepped <;> exact moved found rfl (.idle rfl rfl rfl)

end TxManager

theorem WALRecord.ofWrite_inj {columnFamilyId key key' sequence sequence'} {content content' : Option Value}
    (same : WALRecord.ofWrite columnFamilyId key sequence content =
      .ofWrite columnFamilyId key' sequence' content') :
    key = key' ∧ sequence = sequence' ∧ content = content' := by
  cases content <;> cases content' <;> simp_all [WALRecord.ofWrite]

namespace Session
open TxManager Runs Chain

variable {cmp : Comparator} {options : LSMTreeOptions} {st st' : Session cmp} {base : Nat}

def Has (st : Session cmp) (key : Key) (sequence : Nat) (content : Option Value) : Prop :=
  .ofWrite st.columnFamilyId key sequence content ∈ st.wal

structure Logged (st : Session cmp) : Prop where
  records : ∀ r ∈ st.wal, ∃ key sequence content,
    r = .ofWrite st.columnFamilyId key sequence content ∧ sequence < st.manager.nextSequence
  touched : ∀ txn t, st.manager.txns txn = some t → t.touchedKeys.Nodup ∧
    ∀ key, writesTo key t.writes ≠ [] → key ∈ t.touchedKeys
  prepared : ∀ txn t sequence, st.manager.txns txn = some t → t.stage.sequence = some sequence →
    t.stage.remaining.Nodup ∧ ∀ key content, st.Has key sequence content ↔
      key ∉ t.stage.remaining ∧ (writesTo key t.writes).head? = some content
  commits : ∀ c ∈ st.manager.commits, ∀ key content,
    st.Has key c.sequence content ↔ (writesTo key c.writes).head? = some content

theorem logged_opened (lsm : LSMTree cmp) (nextSequence : Nat) :
    Logged (opened lsm nextSequence) where
  records := by simp [opened]
  touched := by simp [opened]
  prepared := by simp [opened]
  commits := by simp [opened]

theorem Logged.lt_next (logged : Logged st) {key : Key} {sequence : Nat} {content : Option Value}
    (has : st.Has key sequence content) : sequence < st.manager.nextSequence := by
  obtain ⟨_, _, _, same, less⟩ := logged.records _ has
  exact (WALRecord.ofWrite_inj same).2.1 ▸ less

theorem Logged.quiet (logged : Logged st) (wal : st'.wal = st.wal)
    (family : st'.columnFamilyId = st.columnFamilyId) (effect : st.manager.Effect st'.manager)
    (origin : ∀ txn t', st'.manager.txns txn = some t' →
      (st.manager.nextTxn ≤ txn ∧ t'.writes = [] ∧ t'.touchedKeys = [] ∧
        t'.stage.sequence = none) ∨
          ∃ t, st.manager.txns txn = some t ∧ Extends st.manager t t') : Logged st' := by
  have has {key : Key} {sequence : Nat} {content : Option Value} :
      st'.Has key sequence content ↔ st.Has key sequence content := by
    rw [Has, Has, wal, family]
  refine ⟨?_, ?_, ?_, ?_⟩
  · rw [wal, family]
    intro r member
    obtain ⟨key, sequence, content, same, less⟩ := logged.records r member
    exact ⟨key, sequence, content, same, less.trans_le effect.nextSequence⟩
  · intro txn t' found'
    rcases origin txn t' found' with ⟨-, writes, touchedKeys, -⟩ | ⟨t, found, extended⟩
    · rw [writes, touchedKeys]
      exact ⟨.nil, fun key written => absurd rfl written⟩
    · obtain ⟨nodup, touched⟩ := logged.touched txn t found
      rcases extended.writes with ⟨writes, touchedKeys⟩ | ⟨-, key, content, writes, touchedKeys⟩
      · rw [writes, touchedKeys]
        exact ⟨nodup, touched⟩
      · rw [writes, touchedKeys]
        refine ⟨nodup.insert, fun other written => List.mem_insert_iff.mpr ?_⟩
        rw [writesTo_cons] at written
        by_cases same : key = other
        · exact .inl same.symm
        · rw [if_neg same] at written
          exact .inr (touched other written)
  · intro txn t' s found' prepared
    rcases origin txn t' found' with ⟨-, -, -, idle⟩ | ⟨t, found, extended⟩
    · rw [idle] at prepared
      cases prepared
    have writes : t'.writes = t.writes := by
      rcases extended.writes with ⟨same, -⟩ | ⟨idle, -⟩
      · exact same
      · rw [idle] at prepared
        cases prepared
    rcases extended.position s prepared with ⟨before, remaining⟩ | ⟨rfl, perm, -⟩
    · rw [remaining, writes]
      simp only [has]
      exact logged.prepared txn t s found before
    · -- The sequence is new, and every key written is still to be logged.
      obtain ⟨nodup, touched⟩ := logged.touched txn t found
      refine ⟨perm.nodup_iff.mpr nodup, fun key content => ⟨fun present => ?_, ?_⟩⟩
      · exact absurd (logged.lt_next (has.mp present)) (Nat.lt_irrefl _)
      · rintro ⟨passed, head⟩
        refine absurd (perm.mem_iff.mpr (touched key fun empty => ?_)) passed
        rw [writes, empty] at head
        cases head
  · intro c member key content
    rw [has]
    rcases effect.commits with same | ⟨txn, t, s, found, stage, more⟩
    · exact logged.commits c (same ▸ member) key content
    · rw [more] at member
      rcases List.mem_cons.mp member with rfl | old
      · have prepared := (logged.prepared txn t s found (by rw [stage]; rfl)).2 key content
        simpa [stage, Stage.remaining] using prepared
      · exact logged.commits c old key content

theorem Logged.passed (logged : Logged st) (coherent : st.manager.Coherent base) {txn : Nat}
    {t : Transaction} (found : st.manager.txns txn = some t) {sequence : Nat} {key : Key}
    {rest : List Key} (stage : t.stage = .logging sequence (key :: rest)) {wal : Log}
    {next : Stage} {content : Option Value}
    (grown : wal = st.wal ∨ wal = st.wal ++ [.ofWrite st.columnFamilyId key sequence content])
    (ended : next.sequence = none ∨ next = .logging sequence rest ∧ ∀ other,
      .ofWrite st.columnFamilyId key sequence other ∈ wal ↔
        (writesTo key t.writes).head? = some other) :
    Logged { st with manager := st.manager.setTxn txn { t with stage := next }, wal := wal } := by
  have inTxn : t.stage.sequence = some sequence := by rw [stage]; rfl
  obtain ⟨-, given, uncommitted, -⟩ := coherent.prepared txn t sequence found inTxn
  -- Records of other keys and of other sequences are untouched.
  have elsewhere {other : Key} {s : Nat} {c : Option Value} (different : other ≠ key ∨ s ≠ sequence) :
      .ofWrite st.columnFamilyId other s c ∈ wal ↔ st.Has other s c := by
    rcases grown with rfl | rfl
    · rfl
    · rw [List.mem_append, List.mem_singleton, Has]
      refine or_iff_left fun same => ?_
      obtain ⟨keys, sequences, -⟩ := WALRecord.ofWrite_inj same
      exact different.elim (absurd keys) (absurd sequences)
  refine ⟨?_, ?_, ?_, ?_⟩
  · intro r member
    have cases : r ∈ st.wal ∨ r = .ofWrite st.columnFamilyId key sequence content := by
      rcases grown with rfl | rfl
      · exact .inl member
      · simpa using member
    rcases cases with old | rfl
    · exact logged.records r old
    · exact ⟨key, sequence, content, rfl, given⟩
  · intro other u found'
    rcases txns_setTxn found' with ⟨rfl, rfl⟩ | ⟨-, old⟩
    · exact logged.touched _ t found
    · exact logged.touched other u old
  · intro other u s found' prepared
    rcases txns_setTxn found' with ⟨rfl, rfl⟩ | ⟨different, old⟩
    · rcases ended with idle | ⟨rfl, here⟩
      · exact absurd (idle.symm.trans prepared) nofun
      · obtain rfl : sequence = s := Option.some.inj prepared
        obtain ⟨nodup, before⟩ := logged.prepared _ t sequence found inTxn
        rw [stage] at nodup before
        refine ⟨(List.nodup_cons.mp nodup).2, fun k c => ?_⟩
        change .ofWrite st.columnFamilyId k sequence c ∈ wal ↔ k ∉ rest ∧ _
        by_cases same : k = key
        · subst same
          rw [here c, and_iff_right (List.nodup_cons.mp nodup).1]
        · rw [elsewhere (.inl same), before k c]
          simp [Stage.remaining, same]
    · obtain ⟨nodup, before⟩ := logged.prepared other u s old prepared
      refine ⟨nodup, fun k c => (elsewhere (.inr ?_)).trans (before k c)⟩
      rintro rfl
      exact different (coherent.distinct other txn u t s old found prepared inTxn)
  · intro c member k content
    exact (elsewhere (.inr (uncommitted c member))).trans (logged.commits c member k content)

theorem head_writesTo (coherent : st.manager.Coherent base) {txn : Nat} {t : Transaction}
    (found : st.manager.txns txn = some t) (unmarked : t.stage.unmarked) (key : Key) :
    (writesTo key t.writes).head? =
      ((st.manager.chain key).latestActive txn).map VersionRecord.written := by
  rw [← outstanding_eq found unmarked key, ← coherent.tracked key txn, pending, List.head?_map,
    List.head?_filter]
  rfl

theorem log_cases {txn : Nat} {fault : Option WriteFault} (stepped : st.log txn fault = some st') :
    ∃ t sequence key rest, st.manager.txns txn = some t ∧ t.stage = .logging sequence (key :: rest) ∧
      ((st.manager.chain key).latestActive txn = none ∧
          st' = { st with
            manager := st.manager.setTxn txn { t with stage := .logging sequence rest } } ∨
        ∃ r status wal, (st.manager.chain key).latestActive txn = some r ∧
          st.wal.writeKey fault st.columnFamilyId key sequence r.written = (status, wal) ∧
          st' = { st with
            manager := st.manager.setTxn txn { t with
              stage := if status.isOk then .logging sequence rest else .aborting }
            wal := wal }) := by
  unfold Session.log at stepped
  split at stepped <;> [rename_i sequence key rest position; cases stepped]
  obtain ⟨t, found, stage⟩ := Option.map_eq_some_iff.mp position
  refine ⟨t, sequence, key, rest, found, stage, ?_⟩
  split at stepped
  · rename_i unwritten
    obtain ⟨manager, moved, rfl⟩ := Option.map_eq_some_iff.mp stepped
    obtain ⟨u, found', moved⟩ := Option.bind_eq_some_iff.mp moved
    obtain rfl := Option.some.inj (found.symm.trans found')
    simp only [TxManager.logged, stage, unwritten, true_or, if_true] at moved
    obtain rfl := Option.some.inj moved
    exact .inl ⟨unwritten, rfl⟩
  · rename_i r latest
    rcases result : st.wal.writeKey fault st.columnFamilyId key sequence r.written with ⟨status, wal⟩
    simp only [result] at stepped
    obtain ⟨manager, moved, rfl⟩ := Option.map_eq_some_iff.mp stepped
    obtain ⟨u, found', moved⟩ := Option.bind_eq_some_iff.mp moved
    obtain rfl := Option.some.inj (found.symm.trans found')
    simp only [TxManager.logged, stage, latest, reduceCtorEq, false_or] at moved
    refine .inr ⟨r, status, wal, latest, result, ?_⟩
    by_cases success : status.isOk <;> simp only [success, if_true] at moved ⊢ <;>
      obtain rfl := Option.some.inj moved <;> rfl

theorem Logged.missing (logged : Logged st) {txn : Nat} {t : Transaction}
    (found : st.manager.txns txn = some t) {sequence : Nat} {key : Key} {rest : List Key}
    (stage : t.stage = .logging sequence (key :: rest)) (content : Option Value) :
    ¬ st.Has key sequence content := by
  intro present
  have inTxn : t.stage.sequence = some sequence := by rw [stage]; rfl
  have passed := (((logged.prepared txn t sequence found inTxn).2 key content).mp present).1
  exact passed (by rw [stage]; exact List.mem_cons_self ..)

theorem Logged.log (logged : Logged st) (coherent : st.manager.Coherent base) {txn : Nat}
    {fault : Option WriteFault} (stepped : st.log txn fault = some st') : Logged st' := by
  obtain ⟨t, sequence, key, rest, found, stage, outcome⟩ := log_cases stepped
  have last := head_writesTo coherent found (by rw [stage]; rfl) key
  have missing := logged.missing found stage
  rcases outcome with ⟨unwritten, rfl⟩ | ⟨r, status, wal, latest, result, rfl⟩
  · rw [unwritten] at last
    have same : st.wal = st.wal ∨ st.wal = st.wal ++
        [.ofWrite st.columnFamilyId key sequence none] := .inl rfl
    exact logged.passed coherent found stage same
      (.inr ⟨rfl, fun other => iff_of_false (missing other) (by simp [last])⟩)
  · rw [latest] at last
    rcases Log.writeKey_cases result with ⟨success, grown⟩ | ⟨failed, grown⟩
    · rw [if_pos success]
      refine logged.passed coherent found stage (.inr grown) (.inr ⟨rfl, fun other => ?_⟩)
      rw [grown, List.mem_append, List.mem_singleton, last]
      refine (or_iff_right (missing other)).trans ?_
      constructor
      · exact fun same => congrArg some (WALRecord.ofWrite_inj same).2.2.symm
      · intro same
        rw [← Option.some.inj same]
    · rw [if_neg failed]
      exact logged.passed coherent found stage grown (.inl rfl)

theorem Logged.step (logged : Logged st) (coherent : st.manager.Coherent base)
    {action : SessionAction} (stepped : st.step options action = some st') : Logged st' := by
  have effect := session_effect stepped
  cases action with
  | transaction a =>
      simp only [Session.step] at stepped
      split at stepped <;> [cases stepped; rename_i internal]
      obtain ⟨manager, moved, rfl⟩ := Option.map_eq_some_iff.mp stepped
      exact logged.quiet rfl rfl effect fun txn t' found =>
        step_extends moved (Bool.not_eq_true _ |>.mp internal) found
  | log txn fault => exact logged.log coherent stepped
  | flushWrite call =>
      simp only [Session.step, flushWrite] at stepped
      split at stepped <;> [skip; cases stepped]
      obtain ⟨manager, moved, rfl⟩ := Option.map_eq_some_iff.mp stepped
      obtain ⟨f, -, wrote⟩ := Option.bind_eq_some_iff.mp moved
      unfold TxManager.wrote at wrote
      split at wrote <;> [skip; cases wrote]
      obtain rfl := Option.some.inj wrote
      exact logged.quiet rfl rfl effect fun txn t found => .inr ⟨t, found, .refl _ t⟩
  | switchMemTable =>
      obtain ⟨lsm, -, rfl⟩ := Option.map_eq_some_iff.mp stepped
      exact logged.quiet rfl rfl effect fun txn t found => .inr ⟨t, found, .refl _ t⟩
  | flushOldestMemTable =>
      obtain rfl := Option.some.inj stepped
      exact logged.quiet rfl rfl effect fun txn t found => .inr ⟨t, found, .refl _ t⟩

theorem logged_of_run {guard : Session cmp → SessionAction → Prop} {lsm : LSMTree cmp}
    {nextSequence : Nat} (run : Run (step options) guard (opened lsm nextSequence) st) :
    Logged st :=
  (run.invariant (p := fun st => st.manager.Coherent nextSequence ∧ Logged st)
    (fun _ _ _ _ stepped both =>
      ⟨coherent_step stepped both.1, both.2.step both.1 stepped⟩)
    ⟨TxManager.Coherent.initial nextSequence, logged_opened lsm nextSequence⟩).2

end Session
end Lrdb
