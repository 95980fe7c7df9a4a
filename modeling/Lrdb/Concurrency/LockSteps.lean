import Lrdb.Concurrency.LockState

namespace Lrdb

def Call.sleeps : Call → Bool
  | .acquire _ .asleep => true
  | _ => false

/-- The call does not wait for a range lock, nor has it locked the mutex of the range locks as
`AcquireRange`. -/
def Call.rangeFree : Call → Bool
  | .acquire _ .lockRange | .acquire _ .recheckRange | .acquire _ .awaitRange
  | .acquire _ (.retakeRange _) => false
  | .acquireRange _ .lock => true
  | .acquireRange _ _ => false
  | _ => true

inductive Operation where
  | point (key : Key) (op : PointOp)
  | range (r : RangeRequest)
  | releaseAll
  deriving DecidableEq

def Call.operation : Call → Operation
  | .lookup key op | .create key op | .enter key op => .point key op
  | .acquire r _ => .point r.key (.acquire r.type r.timeout)
  | .tryAcquire key type _ => .point key (.tryAcquire type)
  | .acquireRange r _ => .range r
  | .releaseAll _ => .releaseAll

def LockAction.starts : LockAction → Option (Nat × Operation)
  | .point txn key op => some (txn, .point key op)
  | .acquireRange txn r => some (txn, .range r)
  | .releaseAll txn => some (txn, .releaseAll)
  | _ => none

namespace LockManager

/-- The call of the transaction goes on to `next`, or it returns. -/
structure Onward (m : LockManager) (txn : Nat) (call : Call) (next : Option Call)
    (m' : LockManager) : Prop where
  calls : m'.calls = Function.update m.calls txn next
  refused : ∀ r, next = some (.acquire r .asleep) →
    m'.entries = m.entries ∧ (m.entries r.key).canGrant txn r.type = false
  rangeFree : m.rangeLocks = [] → call.rangeFree → (∀ r, call ≠ .acquireRange r .lock) →
    ∀ after ∈ next, after.rangeFree
  operation : ∀ after ∈ next, after.operation = call.operation
  granted : ∀ r stage, call = .acquire r stage → next = none → m'.returned txn = some .ok →
    ⟨txn, r.type⟩ ∈ (m'.entries r.key).holders

variable {m m' : LockManager} {relock : Relock} {txn : Nat} {call : Call}

namespace Onward

theorem returns (calls : m'.calls = Function.update m.calls txn none)
    (granted : ∀ r stage, call = .acquire r stage → m'.returned txn = some .ok →
      ⟨txn, r.type⟩ ∈ (m'.entries r.key).holders) : ∃ next, Onward m txn call next m' := by
  refine ⟨none, calls, ?_, ?_, ?_, fun r stage same _ => granted r stage same⟩
  · rintro _ ⟨⟩
  · rintro - - - _ ⟨⟩
  · rintro _ ⟨⟩

theorem fails {status : Status} (calls : m'.calls = Function.update m.calls txn none)
    (returned : m'.returned txn = some status) (failed : status ≠ .ok) :
    ∃ next, Onward m txn call next m' :=
  returns calls fun _ _ _ ok => absurd (Option.some.inj (returned.symm.trans ok)) failed

theorem goes (next : Call) (calls : m'.calls = Function.update m.calls txn (some next))
    (awake : next.sleeps = false) (operation : next.operation = call.operation)
    (rangeFree : m.rangeLocks = [] → call.rangeFree → (∀ r, call ≠ .acquireRange r .lock) →
      next.rangeFree) : ∃ next, Onward m txn call next m' := by
  refine ⟨some next, calls, ?_, ?_, ?_, by rintro _ _ _ ⟨⟩⟩
  · rintro r same
    obtain rfl := Option.some.inj same
    cases awake
  · rintro none free other _ ⟨⟩
    exact rangeFree none free other
  · rintro _ ⟨⟩
    exact operation

theorem grantOrQueue (r : AcquireRequest) (stage : AcquireStage) :
    ∃ next, Onward m txn (.acquire r stage) next (m.grantOrQueue txn r) := by
  unfold LockManager.grantOrQueue
  split
  · refine returns rfl ?_
    rintro _ _ ⟨⟩ -
    simp [grant, setEntry, finish, LockEntry.grant]
  · exact goes _ rfl rfl rfl fun _ _ _ => rfl

theorem of_acquireStep (orderly : m.Orderly) {r : AcquireRequest} {stage : AcquireStage}
    (stepped : m.acquireStep relock txn r stage = some m') :
    ∃ next, Onward m txn (.acquire r stage) next m' := by
  cases stage with
  | marked =>
      obtain ⟨-, rfl⟩ := locking_eq_some.mp stepped
      rw [orderly.not_marked, if_neg Bool.false_ne_true]
      exact goes _ rfl rfl rfl fun _ _ _ => rfl
  | range =>
      obtain ⟨-, rfl⟩ := locking_eq_some.mp stepped
      split
      · rename_i conflict
        refine goes _ rfl rfl rfl fun none => ?_
        simp [rangeConflicts, none] at conflict
      · exact grantOrQueue r _
  | recheckRange =>
      obtain ⟨-, rfl⟩ := locking_eq_some.mp stepped
      split
      · exact grantOrQueue r _
      split
      · exact fails rfl (returned_finish ..) (by decide)
      · exact goes _ rfl rfl rfl (by rintro - ⟨⟩)
  | retakeRange expired =>
      obtain ⟨-, rfl⟩ := locking_eq_some.mp stepped
      split
      · exact fails rfl (returned_finish ..) (by decide)
      · exact goes _ rfl rfl rfl (by rintro - ⟨⟩)
  | lockRange =>
      obtain ⟨-, rfl⟩ := locking_eq_some.mp stepped
      exact goes _ rfl rfl rfl (by rintro - ⟨⟩)
  | awaitRange =>
      obtain rfl := Option.some.inj stepped
      exact goes _ rfl rfl rfl (by rintro - ⟨⟩)
  | retake expired | settle ok =>
      obtain ⟨-, rfl⟩ := locking_eq_some.mp stepped
      exact goes _ rfl rfl rfl fun _ _ _ => rfl
  | asleep =>
      obtain rfl := Option.some.inj stepped
      exact goes _ rfl rfl rfl fun _ _ _ => rfl
  | queue =>
      obtain ⟨-, rfl⟩ := locking_eq_some.mp stepped
      unfold queueStep
      dsimp only
      split
      · exact fails rfl (returned_finish ..) (by decide)
      · exact goes (.acquire r (.evaluate false)) rfl rfl rfl fun _ _ _ => rfl
  | evaluate expired =>
      obtain ⟨-, rfl⟩ := locking_eq_some.mp stepped
      unfold evaluateStep
      split
      · exact goes _ rfl rfl rfl fun _ _ _ => rfl
      rename_i refused
      split
      · exact goes _ rfl rfl rfl fun _ _ _ => rfl
      · refine ⟨some (.acquire r .asleep), rfl, ?_, ?_, ?_, by rintro _ _ _ ⟨⟩⟩
        · rintro _ ⟨⟩
          rw [orderly.not_marked, Bool.false_or, Bool.not_eq_true] at refused
          exact ⟨rfl, refused⟩
        · rintro - - - _ ⟨⟩
          rfl
        · rintro _ ⟨⟩
          rfl
  | leave result =>
      obtain ⟨-, rfl⟩ := locking_eq_some.mp stepped
      cases result with
      | victim | timedOut => exact fails rfl (returned_finish ..) (by decide)
      | granted =>
          refine returns rfl ?_
          rintro _ _ ⟨⟩ -
          simp [leaveStep, setEntry, setGraph, finish, LockEntry.wake, LockEntry.grant]

theorem of_callStep (orderly : m.Orderly) (stepped : m.callStep relock txn call = some m') :
    ∃ next, Onward m txn call next m' := by
  cases call with
  | lookup key op =>
      obtain rfl := Option.some.inj stepped
      split <;> exact goes _ rfl rfl rfl fun _ _ _ => rfl
  | create key op =>
      obtain ⟨-, rfl⟩ := locking_eq_some.mp stepped
      exact goes (.enter key op) rfl rfl rfl fun _ _ _ => rfl
  | enter key op =>
      cases op with
      | release =>
          obtain ⟨-, rfl⟩ := locking_eq_some.mp stepped
          exact returns rfl (by rintro _ _ ⟨⟩)
      | acquire type timeout | tryAcquire type =>
          obtain ⟨-, rfl⟩ := locking_eq_some.mp stepped
          exact goes _ rfl rfl rfl fun _ _ _ => rfl
  | acquire r stage => exact of_acquireStep orderly stepped
  | tryAcquire key type stage =>
      cases stage with
      | marked =>
          obtain ⟨-, rfl⟩ := locking_eq_some.mp stepped
          exact goes _ rfl rfl rfl fun _ _ _ => rfl
      | unmark =>
          obtain ⟨-, rfl⟩ := locking_eq_some.mp stepped
          exact returns rfl (by rintro _ _ ⟨⟩)
      | range =>
          obtain ⟨-, rfl⟩ := locking_eq_some.mp stepped
          split
          · exact returns rfl (by rintro _ _ ⟨⟩)
          split <;> exact returns rfl (by rintro _ _ ⟨⟩)
  | acquireRange r stage =>
      cases stage with
      | lock =>
          obtain ⟨-, rfl⟩ := locking_eq_some.mp stepped
          exact goes _ rfl rfl rfl fun _ _ other => absurd rfl (other r)
      | check =>
          obtain ⟨-, rfl⟩ := locking_eq_some.mp stepped
          split
          · exact returns rfl (by rintro _ _ ⟨⟩)
          split
          · exact returns rfl (by rintro _ _ ⟨⟩)
          · exact goes _ rfl rfl rfl (by rintro - ⟨⟩)
      | await =>
          obtain rfl := Option.some.inj stepped
          exact goes _ rfl rfl rfl (by rintro - ⟨⟩)
      | retake expired =>
          obtain ⟨-, rfl⟩ := locking_eq_some.mp stepped
          cases expired
          · exact goes _ rfl rfl rfl (by rintro - ⟨⟩)
          · exact returns rfl (by rintro _ _ ⟨⟩)
  | releaseAll stage =>
      cases stage with
      | gather => cases stepped
      | ranges =>
          obtain ⟨-, rfl⟩ := locking_eq_some.mp stepped
          exact returns rfl (by rintro _ _ ⟨⟩)
      | entries remaining =>
          cases remaining with
          | nil =>
              obtain ⟨-, rfl⟩ := locking_eq_some.mp stepped
              exact goes (.releaseAll .ranges) rfl rfl rfl fun _ _ _ => rfl
          | cons key rest =>
              obtain ⟨-, rfl⟩ := locking_eq_some.mp stepped
              exact goes (.releaseAll (.entries rest)) rfl rfl rfl fun _ _ _ => rfl

end Onward

inductive CallChange (m : LockManager) (action : LockAction) (m' : LockManager) : Prop
  | still (calls : m'.calls = m.calls)
  | onward (txn : Nat) (call : Call) (next : Option Call) (taken : action = .proceed txn)
      (here : m.calls txn = some call) (onward : Onward m txn call next m')
  | moved (txn : Nat) (call after : Call) (here : m.calls txn = some call)
      (calls : m'.calls = Function.update m.calls txn (some after)) (awake : after.sleeps = false)
      (rangeFree : call.rangeFree → after.rangeFree) (operation : after.operation = call.operation)
  | starts (txn : Nat) (first : Call) (idle : m.calls txn = none)
      (calls : m'.calls = Function.update m.calls txn (some first)) (awake : first.sleeps = false)
      (rangeFree : first.rangeFree) (starts : action.starts = some (txn, first.operation))

theorem callChange (orderly : m.Orderly) {action : LockAction}
    (stepped : m.step relock action = some m') : CallChange m action m' := by
  have begins {other : Nat} {first : Call} (awake : first.sleeps = false) (free : first.rangeFree)
      (starts : action.starts = some (other, first.operation))
      (started : m.start other first = some m') : CallChange m action m' := by
    unfold start at started
    split at started <;> [rename_i idle; cases started]
    obtain rfl := Option.some.inj started
    exact .starts other first idle rfl awake free starts
  cases action with
  | point other key op => exact begins rfl rfl rfl stepped
  | acquireRange other r => exact begins rfl rfl rfl stepped
  | releaseAll other => exact begins rfl rfl rfl stepped
  | proceed other =>
      obtain ⟨call, here, stepped⟩ := Option.bind_eq_some_iff.mp stepped
      obtain ⟨next, onward⟩ := Onward.of_callStep orderly stepped
      exact .onward other call next rfl here onward
  | expire other =>
      obtain ⟨call, here, stepped⟩ := Option.bind_eq_some_iff.mp stepped
      unfold expireStep at stepped
      split at stepped
      · obtain rfl := Option.some.inj stepped
        exact .moved other _ _ here rfl rfl (by rintro ⟨⟩) rfl
      · obtain rfl := Option.some.inj stepped
        exact .moved other _ _ here rfl rfl id rfl
      · obtain rfl := Option.some.inj stepped
        exact .moved other _ _ here rfl rfl (by rintro ⟨⟩) rfl
      · cases stepped
  | gather other order =>
      unfold step at stepped
      dsimp only at stepped
      split at stepped <;> [rename_i gathers; cases stepped]
      obtain rfl := Option.some.inj stepped
      exact .moved other _ _ gathers.1 rfl rfl id rfl
  | detect id =>
      unfold step at stepped
      dsimp only at stepped
      split at stepped <;> [skip; cases stepped]
      obtain rfl := Option.some.inj stepped
      exact .still rfl
  | resolve id =>
      obtain ⟨d, found, stepped⟩ := Option.bind_eq_some_iff.mp stepped
      obtain rfl := orderly.searching id d found
      obtain ⟨-, rfl⟩ := locking_eq_some.mp stepped
      rw [orderly.acyclic.detectCycle]
      exact .still rfl
  | gatherFor id order =>
      unfold step at stepped
      dsimp only at stepped
      split at stepped <;> [skip; cases stepped]
      obtain ⟨d, found, stepped⟩ := Option.bind_eq_some_iff.mp stepped
      obtain rfl := orderly.searching id d found
      cases stepped

end LockManager
end Lrdb
