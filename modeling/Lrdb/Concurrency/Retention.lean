import Lrdb.Concurrency.Effect

namespace Lrdb.TxManager
open Chain

def MarkedBy (m : TxManager) (f : FlushCall) (key : Key) (sequence : Nat) : Prop :=
  (∃ call, m.flushes call = some f) ∧ f.remaining = [] ∧ (key, sequence) ∈ f.marks

structure Retention (m m' : TxManager) : Prop where
  kept : ∀ key, ∀ w ∈ committed (m.chain key), w ∈ committed (m'.chain key) ∨
    ∃ a ∈ m.chain key, a.isCommitted ∧ a.flushed ∧ a.stamp = w
  flushed : ∀ key, ∀ r ∈ m'.chain key, r.isCommitted → r.flushed →
    ∃ a ∈ m.chain key, a.isCommitted ∧ a.stamp = r.stamp ∧
      (a.flushed ∨ ∃ f, m.MarkedBy f key r.commitSnapshot)
  fresh : ∀ key, ∀ w ∈ m'.history key, w ∈ m.history key ∨ w ∈ committed (m'.chain key)

theorem history_mono {m m' : TxManager} (effect : Effect m m') {key : Key}
    {w : Nat × Option Value} (member : w ∈ m.history key) : w ∈ m'.history key := by
  rcases effect.commits with same | ⟨txn, t, s, -, -, more⟩
  · simpa only [history, same] using member
  · simp only [history, more, List.flatMap_cons]
    exact List.mem_append_right _ member

theorem Retention.still {m m' : TxManager} (versions : m'.versions = m.versions)
    (commits : m'.commits = m.commits) : Retention m m' where
  kept key w member := .inl (by simpa only [chain, versions] using member)
  flushed key r member isCommitted flushed :=
    ⟨r, by simpa only [chain, versions] using member, isCommitted, rfl, .inl flushed⟩
  fresh key w member := .inl (by simpa only [history, commits] using member)

theorem Retention.recorded {m m' : TxManager}
    (same : ∀ key, committed (m'.chain key) = committed (m.chain key))
    (old : ∀ key, ∀ r ∈ m'.chain key, r.isCommitted → r ∈ m.chain key)
    (commits : m'.commits = m.commits) : Retention m m' where
  kept key w member := .inl (same key ▸ member)
  flushed key r member isCommitted flushed :=
    ⟨r, old key r member isCommitted, isCommitted, rfl, .inl flushed⟩
  fresh key w member := .inl (by simpa only [history, commits] using member)

private theorem mem_append {m : TxManager} {key other : Key} {r a : VersionRecord}
    (active : r.isActive) (member : a ∈ (m.versions.append key r).chain other)
    (isCommitted : a.isCommitted) : a ∈ m.chain other := by
  simp only [VersionChainManager.append] at member
  by_cases same : other = key
  · subst same
    rw [Function.update_self] at member
    rcases List.mem_cons.mp member with rfl | member
    · exact absurd isCommitted (not_isCommitted_of_isActive active)
    · exact member
  · rwa [Function.update_of_ne same] at member

private theorem committed_append_chain {m : TxManager} {key : Key} {r : VersionRecord}
    (active : r.isActive) (other : Key) :
    committed ((m.versions.append key r).chain other) = committed (m.chain other) := by
  simp only [VersionChainManager.append]
  by_cases same : other = key
  · rw [same, Function.update_self, committed_append active]
    rfl
  · rw [Function.update_of_ne same]
    rfl

theorem retention_markCommitted {m : TxManager} {base txn : Nat} {t : Transaction}
    (coherent : Coherent base m) (found : m.txns txn = some t) {sequence : Nat}
    (stage : t.stage = .synced sequence) : Retention m
      { m.setTxn txn { t with stage := .committed } with
        versions := m.versions.markTransactionCommitted txn sequence
        commits := ⟨txn, sequence, t.writes⟩ :: m.commits } := by
  have unmarked : t.stage.unmarked := by rw [stage]; rfl
  have pending (key : Key) : pending (m.chain key) txn = writesTo key t.writes :=
    (coherent.tracked key txn).trans (outstanding_eq found unmarked key)
  have committed (key : Key) : Chain.committed ((m.chain key).commit txn sequence) =
      (writesTo key t.writes).map (fun content => (sequence, content)) ++
        Chain.committed (m.chain key) := by
    rw [committed_commit (coherent.descending key)
      fun r member => coherent.not_creator found unmarked member, pending]
  refine ⟨fun key w member => .inl ?_, fun key r member isCommitted flushed => ?_,
    fun key w member => ?_⟩
  · exact (committed key).symm ▸ List.mem_append_right _ member
  · rcases mem_commit member isCommitted with old | ⟨a, held, own, -, -, same⟩
    · exact ⟨r, old, isCommitted, rfl, .inl flushed⟩
    · simp only [VersionRecord.isActiveOf, Bool.and_eq_true] at own
      rw [same, coherent.unflushed key a held own.2] at flushed
      cases flushed
  · rcases List.mem_append.mp member with new | old
    · exact .inr ((committed key).symm ▸ List.mem_append_left _ new)
    · exact .inl old

theorem step_retention {m m' : TxManager} {base : Nat} {action : TxAction}
    (coherent : Coherent base m) (stepped : m.step action = some m') : Retention m m' := by
  cases action with
  | allocate isolation =>
      obtain rfl := Option.some.inj stepped
      exact .still rfl rfl
  | write txn content =>
      obtain ⟨t, found, stepped⟩ := Option.bind_eq_some_iff.mp stepped
      unfold write at stepped
      split at stepped <;> [rename_i key stage; cases stepped]
      obtain rfl := Option.some.inj stepped
      cases content with
      | some value =>
          exact .recorded (fun other => committed_append_chain rfl other)
            (fun other r member isCommitted => mem_append rfl member isCommitted) rfl
      | none =>
          exact .recorded (fun other => committed_append_chain rfl other)
            (fun other r member isCommitted => mem_append rfl member isCommitted) rfl
  | markCommitted txn =>
      obtain ⟨t, found, stepped⟩ := Option.bind_eq_some_iff.mp stepped
      unfold markCommitted at stepped
      split at stepped <;> [rename_i sequence stage; cases stepped]
      obtain rfl := Option.some.inj stepped
      exact retention_markCommitted coherent found stage
  | markAborted txn =>
      obtain ⟨t, found, stepped⟩ := Option.bind_eq_some_iff.mp stepped
      unfold markAborted at stepped
      split at stepped <;> [rename_i stage; cases stepped]
      obtain rfl := Option.some.inj stepped
      exact .recorded (fun key => committed_abort)
        (fun key r member isCommitted => mem_abort member isCommitted) rfl
  | markFlushed call =>
      obtain ⟨f, flushing, stepped⟩ := Option.bind_eq_some_iff.mp stepped
      unfold markFlushed at stepped
      split at stepped <;> [rename_i finished; cases stepped]
      obtain rfl := Option.some.inj stepped
      refine ⟨fun key w member => .inl ?_, fun key r member isCommitted flushed => ?_,
        fun key w member => .inl member⟩
      · exact (committed_markFlushed _).symm ▸ member
      · obtain ⟨a, held, -, stamp, same, -, mark⟩ := mem_markFlushed member
        refine ⟨a, held, same ▸ isCommitted, stamp.symm, ?_⟩
        rcases mark.mp flushed with old | ⟨-, now⟩
        · exact .inl old
        · have sequence : r.commitSnapshot = a.commitSnapshot := congrArg Prod.fst stamp
          exact .inr ⟨f, ⟨call, flushing⟩, finished,
            sequence ▸ VersionChainManager.mem_sequencesOf.mp now⟩
  | garbageCollect =>
      obtain rfl := Option.some.inj stepped
      have old {key : Key} {r : VersionRecord} (member : r ∈ (m.chain key).garbageCollect) :
          r ∈ m.chain key := (garbageCollect_sublist _).subset member
      refine ⟨fun key w member => ?_, fun key r member isCommitted flushed =>
        ⟨r, old member, isCommitted, rfl, .inl flushed⟩, fun key w member => .inl member⟩
      obtain ⟨a, held, isCommitted, rfl⟩ := mem_committed.mp member
      by_cases flushed : a.flushed
      · exact .inr ⟨a, held, isCommitted, flushed, rfl⟩
      · refine .inl (mem_committed.mpr ⟨a, ?_, isCommitted, rfl⟩)
        exact mem_garbageCollect held (.inr ⟨isCommitted, by simpa using flushed⟩)
  | pick call maxItems order =>
      change m.pick call maxItems order = some m' at stepped
      unfold pick at stepped
      split at stepped <;> [skip; cases stepped]
      dsimp only at stepped
      split at stepped <;> obtain rfl := Option.some.inj stepped <;> exact .still rfl rfl
  | wrote call success =>
      obtain ⟨f, flushing, stepped⟩ := Option.bind_eq_some_iff.mp stepped
      unfold wrote at stepped
      split at stepped <;> [skip; cases stepped]
      obtain rfl := Option.some.inj stepped
      exact .still rfl rfl
  | insertActive txn | copyActive txn | readUpLimit txn | captureSequence txn | keepLock txn
  | giveUp txn | synced txn success | onCommitted txn | rollback txn | onAborted txn
  | release txn key | releaseAll txn =>
      obtain ⟨t, found, stepped⟩ := Option.bind_eq_some_iff.mp stepped
      simp only [insertActive, copyActive, readUpLimit, captureSequence, keepLock, giveUp, synced,
        onCommitted, rollback, onAborted, release, releaseAll] at stepped
      split at stepped <;> [skip; cases stepped]
      obtain rfl := Option.some.inj stepped
      exact .still rfl rfl
  | acquire txn key | wake txn | prepareCommit txn order | logged txn success =>
      obtain ⟨t, found, stepped⟩ := Option.bind_eq_some_iff.mp stepped
      simp only [acquire, wake, prepareCommit, logged] at stepped
      split at stepped <;> [skip; cases stepped]
      split at stepped <;> cases stepped <;> exact .still rfl rfl

theorem step_written {m m' : TxManager} {action : TxAction} (stepped : m.step action = some m')
    {call : Nat} {f' : FlushCall} (flushing : m'.flushes call = some f')
    {item : Key × VersionRecord} (written : item ∈ f'.written) :
    ∃ f, m.flushes call = some f ∧
      (item ∈ f.written ∨ action = .wrote call true ∧ f.remaining.head? = some item) := by
  have still (same : m'.flushes = m.flushes) : ∃ f, m.flushes call = some f ∧
      (item ∈ f.written ∨ action = .wrote call true ∧ f.remaining.head? = some item) :=
    ⟨f', same ▸ flushing, .inl written⟩
  cases action with
  | pick other maxItems order =>
      change m.pick other maxItems order = some m' at stepped
      unfold pick at stepped
      split at stepped <;> [skip; cases stepped]
      dsimp only at stepped
      split at stepped <;> obtain rfl := Option.some.inj stepped
      · exact still rfl
      · rcases flushes_setFlush flushing with ⟨-, picked⟩ | old
        · obtain rfl := Option.some.inj picked
          cases written
        · exact ⟨f', old, .inl written⟩
  | wrote other success =>
      obtain ⟨f, before, stepped⟩ := Option.bind_eq_some_iff.mp stepped
      unfold wrote at stepped
      split at stepped <;> [rename_i next rest remaining; cases stepped]
      obtain rfl := Option.some.inj stepped
      rcases flushes_setFlush flushing with ⟨rfl, result⟩ | old
      · cases success with
        | false => cases result
        | true =>
            obtain rfl := Option.some.inj result
            refine ⟨f, before, (List.mem_append.mp written).imp_right fun last => ⟨rfl, ?_⟩⟩
            rw [remaining, List.mem_singleton.mp last, List.head?_cons]
      · exact ⟨f', old, .inl written⟩
  | markFlushed other =>
      obtain ⟨f, before, stepped⟩ := Option.bind_eq_some_iff.mp stepped
      unfold markFlushed at stepped
      split at stepped <;> [skip; cases stepped]
      obtain rfl := Option.some.inj stepped
      rcases flushes_setFlush (m := m) flushing with ⟨-, none⟩ | old
      · cases none
      · exact ⟨f', old, .inl written⟩
  | allocate isolation | garbageCollect =>
      obtain rfl := Option.some.inj stepped
      exact still rfl
  | insertActive txn | copyActive txn | readUpLimit txn | captureSequence txn | keepLock txn
  | giveUp txn | write txn content | synced txn success | markCommitted txn | onCommitted txn
  | rollback txn | markAborted txn | onAborted txn | release txn key | releaseAll txn =>
      obtain ⟨t, found, stepped⟩ := Option.bind_eq_some_iff.mp stepped
      simp only [insertActive, copyActive, readUpLimit, captureSequence, keepLock, giveUp, write,
        synced, markCommitted, onCommitted, rollback, markAborted, onAborted, release, releaseAll]
        at stepped
      split at stepped <;> [skip; cases stepped]
      obtain rfl := Option.some.inj stepped
      exact still rfl
  | acquire txn key | wake txn | prepareCommit txn order | logged txn success =>
      obtain ⟨t, found, stepped⟩ := Option.bind_eq_some_iff.mp stepped
      simp only [acquire, wake, prepareCommit, logged] at stepped
      split at stepped <;> [skip; cases stepped]
      split at stepped <;> cases stepped <;> exact still rfl

end Lrdb.TxManager
