import Lrdb.Base.Runs
import Lrdb.Concurrency.Coherence
import Lrdb.Concurrency.TxSteps

namespace Lrdb.TxManager
open Chain Runs Versions

def ExclusiveLocks (m : TxManager) : Prop :=
  ∀ key, ∀ h ∈ (m.locks key).holders, h.type = .kExclusiveLock

theorem ExclusiveLocks.update {m m' : TxManager} {key : Key} {entry : LockEntry}
    (locks : m.ExclusiveLocks) (changed : m'.locks = Function.update m.locks key entry)
    (holders : ∀ h ∈ entry.holders, h ∈ (m.locks key).holders ∨ h.type = .kExclusiveLock) :
    m'.ExclusiveLocks := by
  unfold ExclusiveLocks
  rw [changed, Function.forall_update_iff m.locks
    (p := fun _ e => ∀ h ∈ e.holders, h.type = .kExclusiveLock)]
  exact ⟨fun h held => (holders h held).elim (locks key h) id, fun other _ => locks other⟩

theorem ExclusiveLocks.granted {m : TxManager} (locks : m.ExclusiveLocks) {key : Key} {txn : Nat}
    {t : Transaction} {entry : LockEntry}
    (holders : entry.holders = (m.locks key).holders ++ [⟨txn, .kExclusiveLock⟩]) :
    ((m.setTxn txn t).setLock key entry).ExclusiveLocks := by
  refine locks.update rfl fun h held => ?_
  rw [holders] at held
  rcases List.mem_append.mp held with old | new
  · exact .inl old
  · exact .inr (List.mem_singleton.mp new ▸ rfl)

theorem ExclusiveLocks.step {m m' : TxManager} (locks : m.ExclusiveLocks) {action : TxAction}
    (stepped : m.step action = some m') : m'.ExclusiveLocks := by
  cases action with
  | acquire txn key =>
      obtain ⟨t, -, stepped⟩ := Option.bind_eq_some_iff.mp stepped
      unfold TxManager.acquire at stepped
      split at stepped <;> [skip; cases stepped]
      split at stepped
      · obtain rfl := Option.some.inj stepped
        exact locks.granted rfl
      · obtain rfl := Option.some.inj stepped
        exact locks.update rfl fun h held => .inl held
  | wake txn =>
      obtain ⟨t, -, stepped⟩ := Option.bind_eq_some_iff.mp stepped
      unfold TxManager.wake at stepped
      split at stepped <;> [skip; cases stepped]
      split at stepped <;> [skip; cases stepped]
      obtain rfl := Option.some.inj stepped
      exact locks.granted (by unfold LockEntry.wake LockEntry.grant; rfl)
  | giveUp txn =>
      obtain ⟨t, -, stepped⟩ := Option.bind_eq_some_iff.mp stepped
      unfold TxManager.giveUp at stepped
      split at stepped <;> [skip; cases stepped]
      obtain rfl := Option.some.inj stepped
      exact locks.update rfl fun h held => .inl held
  | release txn key =>
      obtain ⟨t, -, stepped⟩ := Option.bind_eq_some_iff.mp stepped
      unfold TxManager.release at stepped
      split at stepped <;> [skip; cases stepped]
      obtain rfl := Option.some.inj stepped
      exact locks.update rfl fun h held => .inl (List.mem_filter.mp held).1
  | releaseAll txn =>
      obtain ⟨t, -, stepped⟩ := Option.bind_eq_some_iff.mp stepped
      unfold TxManager.releaseAll at stepped
      split at stepped <;> [skip; cases stepped]
      obtain rfl := Option.some.inj stepped
      exact fun key h held => locks key h (List.mem_filter.mp held).1
  | _ =>
      unfold ExclusiveLocks
      rw [(frame_of_step rfl stepped).locks]
      exact locks

structure ChainOrder (chain : Chain) (entry : LockEntry) : Prop where
  /-- The committed versions descend from the newest on. -/
  sequences : chain.Pairwise fun newer older =>
    newer.isCommitted → older.isCommitted → older.commitSnapshot ≤ newer.commitSnapshot
  /-- No committed version lies above an active one. -/
  top : chain.Pairwise fun newer older => older.isActive → ¬ newer.isCommitted
  oneWriter : ∀ a ∈ chain, ∀ b ∈ chain, a.isActive → b.isActive → a.txnId = b.txnId
  holder : ∀ r ∈ chain, r.isActive → ⟨r.txnId, .kExclusiveLock⟩ ∈ entry.holders

theorem Coherent.top {base : Nat} {m : TxManager} (coherent : Coherent base m) (key : Key) :
    (m.chain key).Pairwise fun newer older => older.isActive → ¬ newer.isCommitted := by
  refine (coherent.descending key).activeTop.imp_of_mem ?_
  intro newer older inChain below above active committed
  have same := above active
  have written : pending (m.chain key) older.txnId ≠ [] := fun empty =>
    pending_eq_nil.mp empty older below (by simp [VersionRecord.isActiveOf, active])
  rw [coherent.tracked] at written
  unfold outstanding at written
  split at written
  · rename_i t found
    split at written
    · rename_i unmarked
      exact coherent.not_creator found unmarked inChain committed same
    · exact written rfl
  · exact written rfl

theorem Coherent.chainOrder {base : Nat} {m : TxManager} (coherent : Coherent base m)
    (locks : m.ExclusiveLocks) (key : Key) : ChainOrder (m.chain key) (m.locks key) where
  sequences := (coherent.descending key).sequences
  top := coherent.top key
  oneWriter a inChain b inChain' activeA activeB :=
    coherent.exclusive key _ _ (coherent.active_holder inChain activeA)
      (coherent.active_holder inChain' activeB)
  holder r inChain active := by
    obtain ⟨h, held, owner⟩ := coherent.active_holder inChain active
    have exclusive := locks key h held
    obtain ⟨txn, type⟩ := h
    subst owner exclusive
    exact held

def answer (deleted : Status) (value : Value) : Option (Option Value) → Bool × ReadResult
  | none => (false, ⟨.ok, value⟩)
  | some none => (false, ⟨deleted, value⟩)
  | some (some content) => (true, ⟨.ok, content⟩)

theorem report_eq_answer (deleted : Status) (value : Value) (found : Option VersionRecord) :
    report deleted value found =
      answer deleted value ((found.map VersionRecord.stamp).map Prod.snd) := by
  rw [report_eq]
  rcases found.map VersionRecord.stamp with _ | ⟨sequence, _ | content⟩ <;> rfl

/-- In every state of a session the chains are in order, and a snapshot read reports the newest
version at or below its snapshot. -/
theorem chainOrder_of_run {nextSequence : Nat} {m : TxManager}
    (run : Run TxManager.step free { nextSequence := nextSequence } m) (key : Key) :
    ChainOrder (m.chain key) (m.locks key) ∧ ∀ snapshot value,
      (m.chain key).getVisibleBySnapshot snapshot value =
        answer (.notFound "Key deleted at snapshot") value
          ((newest ((committed (m.chain key)).filter fun v => v.1 ≤ snapshot)).map Prod.snd) := by
  obtain ⟨coherent, locks⟩ := run.invariant (p := fun m => Coherent nextSequence m ∧
      m.ExclusiveLocks) (fun _ _ _ _ stepped both => ⟨both.1.step stepped, both.2.step stepped⟩)
    ⟨.initial nextSequence, fun _ _ held => absurd held List.not_mem_nil⟩
  refine ⟨coherent.chainOrder locks key, fun snapshot value => ?_⟩
  rw [getVisibleBySnapshot, report_eq_answer, find?_eq_newest (coherent.descending key)]

def writtenTwice : List TxAction :=
  [.allocate .kReadCommitted, .insertActive 1, .copyActive 1, .readUpLimit 1, .captureSequence 1,
    .allocate .kReadCommitted, .insertActive 2, .copyActive 2, .readUpLimit 2, .captureSequence 2,
    .acquire 1 [107], .write 1 (some [97]), .prepareCommit 1 [[107]], .logged 1 true, .synced 1 true,
    .markCommitted 1, .onCommitted 1, .release 1 [107], .acquire 2 [107], .write 2 (some [98])]

theorem chainOrder_of_run_writtenTwice : ∃ m,
    execute TxManager.step { nextSequence := 1 } writtenTwice = some m ∧
    (m.chain [107]).length = 2 ∧ ChainOrder (m.chain [107]) (m.locks [107]) := by
  have facts : (execute TxManager.step { nextSequence := 1 } writtenTwice).map (fun m =>
      (m.chain [107]).length) = some 2 := by decide +kernel
  obtain ⟨m, executed, length⟩ := Option.map_eq_some_iff.mp facts
  exact ⟨m, executed, length,
    (chainOrder_of_run (execute_run _ (allowed_free _ _ _) executed) [107]).1⟩

end Lrdb.TxManager
