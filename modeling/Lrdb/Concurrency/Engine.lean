import Lrdb.Concurrency.LockSteps
import Lrdb.Concurrency.TxSteps

/-!
# Transactions on the lock manager

A transaction takes its steps between its calls of the lock manager. `Put`, `Delete` and
`GetForUpdate` call `Acquire`, the iterator of a serializable transaction calls `AcquireRange`, and
the end of a transaction calls `ReleaseAll`; any thread may search for deadlocks meanwhile.
-/

namespace Lrdb

structure Engine where
  manager : TxManager
  lockManager : LockManager := {}

inductive EngineAction where
  | act (action : TxAction)
  | acquire (txn : Nat) (key : Key) (timeout : Nat)
  | scan (txn timeout : Nat)
  | releaseAll (txn : Nat)
  | proceed (txn : Nat)
  | expire (txn : Nat)
  | gather (txn : Nat) (order : List Key)
  | detect (id : Nat)
  | resolve (id : Nat)
  | gatherFor (id : Nat) (order : List Key)
  deriving DecidableEq, Repr

def Call.stageAfter (call : Call) (status : Option Status) (stage : Stage) : Stage :=
  match call with
  | .acquire r _ => if status = some .ok then .granted r.key else stage
  | .releaseAll _ => .finished
  | _ => stage

namespace Engine

def opened (nextSequence : Nat) : Engine := { manager := { nextSequence := nextSequence } }

def busy (e : Engine) (txn : Nat) : Bool := (e.lockManager.calls txn).isSome

def stage (e : Engine) (txn : Nat) : Option Stage := (e.manager.txns txn).map Transaction.stage

def lockStep (e : Engine) (relock : Relock) (action : LockAction) : Option Engine :=
  (e.lockManager.step relock action).map fun m =>
    { manager := { e.manager with locks := m.entries }, lockManager := m }

def returned (e : Engine) (txn : Nat) (call : Call) : Engine :=
  match e.manager.txns txn with
  | some t => { e with manager := e.manager.setTxn txn { t with
      stage := call.stageAfter (e.lockManager.returned txn) t.stage } }
  | none => e

def proceed (e : Engine) (relock : Relock) (txn : Nat) (call : Call) : Option Engine :=
  (e.lockStep relock (.proceed txn)).map fun e' => if e'.busy txn then e' else e'.returned txn call

def step (relock : Relock) (e : Engine) : EngineAction → Option Engine
  | .act action =>
      if action.locks || action.thread.any e.busy then none
      else (e.manager.step action).map fun m => { e with manager := m }
  | .acquire txn key timeout =>
      if e.stage txn = some .running then
        e.lockStep relock (.point txn key (.acquire .kExclusiveLock timeout))
      else none
  | .scan txn timeout =>
      if e.stage txn = some .running ∧
          (e.manager.txns txn).map Transaction.isolation = some .kSerializable then
        e.lockStep relock (.acquireRange txn ⟨[], [], false, timeout⟩)
      else none
  | .releaseAll txn =>
      if e.stage txn = some .leaving ∨ e.stage txn = some .finished then
        e.lockStep relock (.releaseAll txn)
      else none
  | .proceed txn => (e.lockManager.calls txn).bind (e.proceed relock txn)
  | .expire txn => e.lockStep relock (.expire txn)
  | .gather txn order => e.lockStep relock (.gather txn order)
  | .detect id => e.lockStep relock (.detect id)
  | .resolve id => e.lockStep relock (.resolve id)
  | .gatherFor id order => e.lockStep relock (.gatherFor id order)

end Engine
end Lrdb
