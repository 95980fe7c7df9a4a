import Lrdb.Concurrency.Coherence

namespace Lrdb

def Stage.begun : Stage → Bool
  | .allocated | .inserted | .copied _ | .viewed => false
  | _ => true

def Transaction.ViewOf (t : Transaction) (txn : Nat) : Prop :=
  t.view.myTxn = txn ∧ (t.view.policy = .kReadCommitted ↔ t.isolation = .kReadCommitted)

namespace TxManager

theorem readView_own (m : TxManager) (isolation : IsolationLevel) (txn : Nat) (active : List Nat) :
    (m.readView isolation txn active).myTxn = txn ∧
      ((m.readView isolation txn active).policy = .kReadCommitted ↔ isolation = .kReadCommitted) := by
  cases isolation <;> simp [readView]

structure Continues (m : TxManager) (txn : Nat) (t t' : Transaction) : Prop where
  unmarked : t'.stage.unmarked → t.stage.unmarked
  sequence : ∀ s, t'.stage.sequence = some s → t.stage.sequence = some s ∨ s = m.nextSequence
  begun : t.stage.begun → t'.stage.begun ∧ t'.view = t.view ∧ t'.lsmReadSeq = t.lsmReadSeq
  own : t.ViewOf txn → t'.ViewOf txn

structure Effect (m m' : TxManager) : Prop where
  nextTxn : m.nextTxn ≤ m'.nextTxn
  nextSequence : m.nextSequence ≤ m'.nextSequence
  commits : m'.commits = m.commits ∨ ∃ txn t s, m.txns txn = some t ∧ t.stage = .synced s ∧
    m'.commits = ⟨txn, s, t.writes⟩ :: m.commits
  origin : ∀ txn t', m'.txns txn = some t' →
    m.nextTxn ≤ txn ∧ t'.stage = .allocated ∧ t'.ViewOf txn ∨
      ∃ t, m.txns txn = some t ∧ Continues m txn t t'

theorem Continues.refl (m : TxManager) (txn : Nat) (t : Transaction) : Continues m txn t t :=
  ⟨id, fun _ => .inl, fun begun => ⟨begun, rfl, rfl⟩, id⟩

theorem Effect.refl (m : TxManager) : Effect m m :=
  ⟨le_rfl, le_rfl, .inl rfl, fun txn t found => .inr ⟨t, found, .refl m txn t⟩⟩

theorem Effect.still {m m' : TxManager} (nextTxn : m'.nextTxn = m.nextTxn)
    (nextSequence : m'.nextSequence = m.nextSequence) (commits : m'.commits = m.commits)
    (txns : m'.txns = m.txns) : Effect m m' :=
  ⟨nextTxn.ge, nextSequence.ge, .inl commits, fun txn t found =>
    .inr ⟨t, txns ▸ found, .refl m txn t⟩⟩

theorem Effect.move {m m' : TxManager} {txn : Nat} {t t' : Transaction}
    (found : m.txns txn = some t) (txns : m'.txns = (m.setTxn txn t').txns)
    (nextTxn : m'.nextTxn = m.nextTxn) (nextSequence : m.nextSequence ≤ m'.nextSequence)
    (commits : m'.commits = m.commits ∨ ∃ s, t.stage = .synced s ∧
      m'.commits = ⟨txn, s, t.writes⟩ :: m.commits) (continues : Continues m txn t t') :
    Effect m m' where
  nextTxn := nextTxn.ge
  nextSequence := nextSequence
  commits := commits.imp_right fun ⟨s, stage, marked⟩ => ⟨txn, t, s, found, stage, marked⟩
  origin := by
    intro other u here
    rw [txns] at here
    rcases txns_setTxn here with ⟨rfl, rfl⟩ | ⟨-, old⟩
    · exact .inr ⟨t, found, continues⟩
    · exact .inr ⟨u, old, .refl m other u⟩

private theorem continues_begin {m : TxManager} {txn : Nat} {t t' : Transaction}
    (before : t.stage.begun = false) (unmarked : t.stage.unmarked)
    (sequence : t'.stage.sequence = none) (own : t.ViewOf txn → t'.ViewOf txn) :
    Continues m txn t t' where
  unmarked _ := unmarked
  sequence s prepared := by
    rw [sequence] at prepared
    cases prepared
  begun begun := by
    rw [before] at begun
    cases begun
  own := own

private theorem continues_begun {m : TxManager} {txn : Nat} {t t' : Transaction}
    (begun : t'.stage.begun) (unmarked : t'.stage.unmarked → t.stage.unmarked)
    (sequence : ∀ s, t'.stage.sequence = some s → t.stage.sequence = some s ∨ s = m.nextSequence)
    (view : t'.view = t.view) (lsmReadSeq : t'.lsmReadSeq = t.lsmReadSeq)
    (isolation : t'.isolation = t.isolation) : Continues m txn t t' :=
  ⟨unmarked, sequence, fun _ => ⟨begun, view, lsmReadSeq⟩, fun own => by
    rwa [Transaction.ViewOf, view, isolation]⟩

theorem step_effect {m m' : TxManager} {action : TxAction} (stepped : m.step action = some m') :
    Effect m m' := by
  cases action with
  | allocate isolation =>
      obtain rfl := Option.some.inj stepped
      refine ⟨Nat.le_succ _, le_rfl, .inl rfl, fun txn t' found => ?_⟩
      rcases txns_setTxn (m := m) found with ⟨rfl, rfl⟩ | ⟨-, old⟩
      · exact .inl ⟨le_rfl, rfl, readView_own ..⟩
      · exact .inr ⟨t', old, .refl m txn t'⟩
  | insertActive txn | copyActive txn | captureSequence txn =>
      obtain ⟨t, found, stepped⟩ := Option.bind_eq_some_iff.mp stepped
      simp only [insertActive, copyActive, captureSequence] at stepped
      split at stepped <;> [rename_i stage; cases stepped]
      obtain rfl := Option.some.inj stepped
      exact .move found rfl rfl le_rfl (.inl rfl)
        (continues_begin (by rw [stage]; rfl) (by rw [stage]; rfl) rfl id)
  | readUpLimit txn =>
      obtain ⟨t, found, stepped⟩ := Option.bind_eq_some_iff.mp stepped
      unfold readUpLimit at stepped
      split at stepped <;> [rename_i active stage; cases stepped]
      obtain rfl := Option.some.inj stepped
      exact .move found rfl rfl le_rfl (.inl rfl)
        (continues_begin (by rw [stage]; rfl) (by rw [stage]; rfl) rfl fun _ => readView_own ..)
  | acquire txn key | wake txn =>
      obtain ⟨t, found, stepped⟩ := Option.bind_eq_some_iff.mp stepped
      simp only [acquire, wake] at stepped
      split at stepped <;> [rename_i stage; cases stepped]
      split at stepped <;> cases stepped <;>
        exact .move found rfl rfl le_rfl (.inl rfl)
          (continues_begun rfl (fun _ => by rw [stage]; rfl) nofun rfl rfl rfl)
  | giveUp txn | keepLock txn | write txn content | rollback txn =>
      obtain ⟨t, found, stepped⟩ := Option.bind_eq_some_iff.mp stepped
      simp only [giveUp, keepLock, write, rollback] at stepped
      split at stepped <;> [rename_i stage; cases stepped]
      obtain rfl := Option.some.inj stepped
      exact .move found rfl rfl le_rfl (.inl rfl)
        (continues_begun rfl (fun _ => by rw [stage]; rfl) nofun rfl rfl rfl)
  | prepareCommit txn order =>
      obtain ⟨t, found, stepped⟩ := Option.bind_eq_some_iff.mp stepped
      unfold prepareCommit at stepped
      split at stepped <;> [rename_i stage; cases stepped]
      split at stepped <;> [skip; cases stepped]
      obtain rfl := Option.some.inj stepped
      exact .move found rfl rfl (Nat.le_succ _) (.inl rfl) (continues_begun rfl
        (fun _ => by rw [stage]; rfl) (fun s prepared => .inr (Option.some.inj prepared).symm)
        rfl rfl rfl)
  | logged txn success =>
      obtain ⟨t, found, stepped⟩ := Option.bind_eq_some_iff.mp stepped
      unfold logged at stepped
      split at stepped <;> [rename_i sequence key rest stage; cases stepped]
      split at stepped <;> obtain rfl := Option.some.inj stepped
      · exact .move found rfl rfl le_rfl (.inl rfl) (continues_begun rfl
          (fun _ => by rw [stage]; rfl) (fun s prepared => .inl (by rw [stage]; exact prepared))
          rfl rfl rfl)
      · exact .move found rfl rfl le_rfl (.inl rfl)
          (continues_begun rfl (fun _ => by rw [stage]; rfl) nofun rfl rfl rfl)
  | synced txn success =>
      obtain ⟨t, found, stepped⟩ := Option.bind_eq_some_iff.mp stepped
      unfold synced at stepped
      split at stepped <;> [rename_i sequence stage; cases stepped]
      obtain rfl := Option.some.inj stepped
      refine .move found rfl rfl le_rfl (.inl rfl) (continues_begun ?_
        (fun _ => by rw [stage]; rfl) ?_ rfl rfl rfl)
      · cases success <;> rfl
      · cases success
        · exact nofun
        · exact fun s prepared => .inl (by rw [stage]; exact prepared)
  | markCommitted txn =>
      obtain ⟨t, found, stepped⟩ := Option.bind_eq_some_iff.mp stepped
      unfold markCommitted at stepped
      split at stepped <;> [rename_i sequence stage; cases stepped]
      obtain rfl := Option.some.inj stepped
      exact .move found rfl rfl le_rfl (.inr ⟨sequence, stage, rfl⟩)
        (continues_begun rfl nofun nofun rfl rfl rfl)
  | onCommitted txn | markAborted txn | onAborted txn | releaseAll txn =>
      obtain ⟨t, found, stepped⟩ := Option.bind_eq_some_iff.mp stepped
      simp only [onCommitted, markAborted, onAborted, releaseAll] at stepped
      split at stepped <;> [skip; cases stepped]
      obtain rfl := Option.some.inj stepped
      exact .move found rfl rfl le_rfl (.inl rfl) (continues_begun rfl nofun nofun rfl rfl rfl)
  | release txn key =>
      obtain ⟨t, found, stepped⟩ := Option.bind_eq_some_iff.mp stepped
      unfold release at stepped
      split at stepped <;> [skip; cases stepped]
      obtain rfl := Option.some.inj stepped
      exact .still rfl rfl rfl rfl
  | pick call maxItems order =>
      change m.pick call maxItems order = some m' at stepped
      unfold pick at stepped
      split at stepped <;> [skip; cases stepped]
      dsimp only at stepped
      split at stepped <;> obtain rfl := Option.some.inj stepped
      · exact .refl m
      · exact .still rfl rfl rfl rfl
  | wrote call success | markFlushed call =>
      obtain ⟨f, flushing, stepped⟩ := Option.bind_eq_some_iff.mp stepped
      simp only [wrote, markFlushed] at stepped
      split at stepped <;> [skip; cases stepped]
      obtain rfl := Option.some.inj stepped
      exact .still rfl rfl rfl rfl
  | garbageCollect =>
      obtain rfl := Option.some.inj stepped
      exact .still rfl rfl rfl rfl

end TxManager

/-! ## Transactions that end without a commit -/

def Stage.withdrawn : Stage → Bool
  | .aborting | .aborted | .leaving | .finished => true
  | _ => false

namespace TxManager

theorem withdrawn_step {base : Nat} {m m' : TxManager} (coherent : m.Coherent base)
    {action : TxAction} (stepped : m.step action = some m') {txn : Nat} {t : Transaction}
    (found : m.txns txn = some t) (withdrawn : t.stage.withdrawn) :
    ∃ t', m'.txns txn = some t' ∧ t'.stage.withdrawn := by
  have still (same : m'.txns = m.txns) : ∃ t', m'.txns txn = some t' ∧ t'.stage.withdrawn :=
    ⟨t, same ▸ found, withdrawn⟩
  have moved {other : Nat} {u u' : Transaction} (here : m.txns other = some u)
      (same : m'.txns = (m.setTxn other u').txns)
      (still : u.stage.withdrawn → u'.stage.withdrawn) :
      ∃ t', m'.txns txn = some t' ∧ t'.stage.withdrawn := by
    by_cases equal : txn = other
    · subst equal
      obtain rfl := Option.some.inj (found.symm.trans here)
      exact ⟨u', same ▸ txns_setTxn_self .., still withdrawn⟩
    · exact ⟨t, by rwa [same, txns_setTxn_of_ne m equal], withdrawn⟩
  cases action with
  | allocate isolation =>
      obtain rfl := Option.some.inj stepped
      have old : txn ≠ m.nextTxn := ((coherent.allocated txn t found).2).ne
      exact ⟨t, (txns_setTxn_of_ne m old _).trans found, withdrawn⟩
  | pick call maxItems order =>
      change m.pick call maxItems order = some m' at stepped
      unfold pick at stepped
      split at stepped <;> [skip; cases stepped]
      dsimp only at stepped
      split at stepped <;> obtain rfl := Option.some.inj stepped <;> exact still rfl
  | wrote call success | markFlushed call =>
      obtain ⟨f, flushing, stepped⟩ := Option.bind_eq_some_iff.mp stepped
      simp only [wrote, markFlushed] at stepped
      split at stepped <;> [skip; cases stepped]
      obtain rfl := Option.some.inj stepped
      exact still rfl
  | garbageCollect =>
      obtain rfl := Option.some.inj stepped
      exact still rfl
  | release other key =>
      obtain ⟨u, here, stepped⟩ := Option.bind_eq_some_iff.mp stepped
      unfold release at stepped
      split at stepped <;> [skip; cases stepped]
      obtain rfl := Option.some.inj stepped
      exact still rfl
  | onCommitted other | markAborted other | onAborted other | releaseAll other | rollback other =>
      obtain ⟨u, here, stepped⟩ := Option.bind_eq_some_iff.mp stepped
      simp only [onCommitted, markAborted, onAborted, releaseAll, rollback] at stepped
      split at stepped <;> [skip; cases stepped]
      obtain rfl := Option.some.inj stepped
      exact moved here rfl fun _ => rfl
  | insertActive other | copyActive other | readUpLimit other | captureSequence other
  | keepLock other | giveUp other | markCommitted other | write other content =>
      obtain ⟨u, here, stepped⟩ := Option.bind_eq_some_iff.mp stepped
      simp only [insertActive, copyActive, readUpLimit, captureSequence, keepLock, giveUp,
        markCommitted, write] at stepped
      split at stepped <;> [rename_i stage; cases stepped]
      obtain rfl := Option.some.inj stepped
      refine moved here rfl fun early => ?_
      rw [stage] at early
      cases early
  | acquire other key | wake other | prepareCommit other order | synced other success
  | logged other success =>
      obtain ⟨u, here, stepped⟩ := Option.bind_eq_some_iff.mp stepped
      simp only [acquire, wake, prepareCommit, synced, logged] at stepped
      split at stepped <;> [rename_i stage; cases stepped]
      try split at stepped
      all_goals
        first
        | cases stepped; done
        | obtain rfl := Option.some.inj stepped
          refine moved here rfl fun early => ?_
          rw [stage] at early
          cases early

end TxManager
end Lrdb
