import Lrdb.Concurrency.TxManager

namespace Lrdb

def TxAction.locks : TxAction → Bool
  | .acquire .. | .wake _ | .giveUp _ | .release .. | .releaseAll _ => true
  | _ => false

def TxAction.thread : TxAction → Option Nat
  | .allocate _ | .pick .. | .wrote .. | .markFlushed _ | .garbageCollect => none
  | .insertActive txn | .copyActive txn | .readUpLimit txn | .captureSequence txn
  | .acquire txn _ | .wake txn | .giveUp txn | .keepLock txn | .write txn _
  | .prepareCommit txn _ | .logged txn _ | .synced txn _ | .markCommitted txn | .onCommitted txn
  | .rollback txn | .markAborted txn | .onAborted txn | .release txn _ | .releaseAll txn => some txn

namespace TxManager

structure Frame (m : TxManager) (thread : Option Nat) (m' : TxManager) : Prop where
  locks : m'.locks = m.locks
  txns : ∀ other, thread ≠ some other → other ≠ m.nextTxn → m'.txns other = m.txns other

variable {m m' : TxManager} {txn : Nat} {t : Transaction}

theorem Frame.moved (locks : m'.locks = m.locks) (txns : m'.txns = (m.setTxn txn t).txns) :
    Frame m (some txn) m' := by
  refine ⟨locks, fun other different _ => ?_⟩
  rw [txns]
  refine Function.update_of_ne ?_ ..
  rintro rfl
  exact different rfl

theorem frame_of_step {action : TxAction} (outside : action.locks = false)
    (stepped : m.step action = some m') : Frame m action.thread m' := by
  cases action with
  | acquire txn key | wake txn | giveUp txn | release txn key | releaseAll txn => cases outside
  | insertActive txn | copyActive txn | readUpLimit txn | captureSequence txn | keepLock txn
  | write txn content | synced txn success | markCommitted txn | onCommitted txn | rollback txn
  | markAborted txn | onAborted txn =>
      obtain ⟨t, -, stepped⟩ := Option.bind_eq_some_iff.mp stepped
      simp only [TxManager.insertActive, TxManager.copyActive, TxManager.readUpLimit,
        TxManager.captureSequence, TxManager.keepLock, TxManager.write, TxManager.synced,
        TxManager.markCommitted, TxManager.onCommitted, TxManager.rollback, TxManager.markAborted,
        TxManager.onAborted] at stepped
      split at stepped <;> [skip; cases stepped]
      obtain rfl := Option.some.inj stepped
      exact .moved rfl rfl
  | prepareCommit txn order =>
      obtain ⟨t, -, stepped⟩ := Option.bind_eq_some_iff.mp stepped
      unfold TxManager.prepareCommit at stepped
      split at stepped <;> [skip; cases stepped]
      split at stepped <;> [skip; cases stepped]
      obtain rfl := Option.some.inj stepped
      exact .moved rfl rfl
  | logged txn success =>
      obtain ⟨t, -, stepped⟩ := Option.bind_eq_some_iff.mp stepped
      unfold TxManager.logged at stepped
      split at stepped <;> [skip; cases stepped]
      split at stepped
      · obtain rfl := Option.some.inj stepped
        exact .moved rfl rfl
      · obtain rfl := Option.some.inj stepped
        exact .moved rfl rfl
  | allocate isolation =>
      obtain rfl := Option.some.inj stepped
      exact ⟨rfl, fun other _ different => Function.update_of_ne different ..⟩
  | garbageCollect =>
      obtain rfl := Option.some.inj stepped
      exact ⟨rfl, fun _ _ _ => rfl⟩
  | pick call maxItems order =>
      replace stepped : m.pick call maxItems order = some m' := stepped
      unfold TxManager.pick at stepped
      split at stepped <;> [skip; cases stepped]
      dsimp only at stepped
      split at stepped
      · obtain rfl := Option.some.inj stepped
        exact ⟨rfl, fun _ _ _ => rfl⟩
      · obtain rfl := Option.some.inj stepped
        exact ⟨rfl, fun _ _ _ => rfl⟩
  | wrote call success | markFlushed call =>
      obtain ⟨f, -, stepped⟩ := Option.bind_eq_some_iff.mp stepped
      simp only [TxManager.wrote, TxManager.markFlushed] at stepped
      split at stepped <;> [skip; cases stepped]
      obtain rfl := Option.some.inj stepped
      exact ⟨rfl, fun _ _ _ => rfl⟩

end TxManager
end Lrdb
