import Lrdb.Base.LockOrder
import Lrdb.Concurrency.LockSteps
import Lrdb.Concurrency.RangeLocks

namespace Lrdb
open Runs Relation

def Mutex.rank : Mutex → Nat
  | .table => 0
  | .entry _ => 1
  | .graph => 2
  | .range => 3

def Call.waits : Call → Bool
  | .acquire _ .awaitRange | .acquire _ .asleep | .acquireRange _ .await => true
  | _ => false

namespace LockManager

def requestedBy (m : LockManager) : Caller → Option Mutex
  | .transaction txn => (m.calls txn).bind Call.requests
  | .detector id => (m.detections id).bind Detection.requests

def mutexes (m : LockManager) : LockOrder.System Caller Mutex where
  holds caller mutex := mutex ∈ m.heldBy caller
  requests := m.requestedBy
  waits caller := ∃ txn call, caller = .transaction txn ∧ m.calls txn = some call ∧ call.waits

def Unblocked (m : LockManager) : Prop :=
  (∀ caller mutex, m.requestedBy caller = some mutex → mutex ∉ m.heldBy caller) ∧
    ∀ caller, ¬ TransGen m.mutexes.WaitsOn caller caller

/-- No call of `AcquireRange` locks the mutex of the range locks. -/
def NoRangeLock (m : LockManager) : LockAction → Prop
  | .proceed txn => ∀ r, m.calls txn ≠ some (.acquireRange r .lock)
  | _ => True

structure RangeFree (m : LockManager) : Prop where
  ranges : m.rangeLocks = []
  calls : ∀ txn, ∀ call ∈ m.calls txn, call.rangeFree

variable {m m' : LockManager} {relock : Relock} {txn : Nat}

theorem RangeFree.step (free : m.RangeFree) (orderly : m.Orderly) {action : LockAction}
    (allowed : m.NoRangeLock action) (stepped : m.step relock action = some m') : m'.RangeFree := by
  constructor
  · cases locksChange stepped with
    | fewer ranges holders =>
        rw [free.ranges] at ranges
        exact List.subset_nil.mp ranges
    | tested txn key type taken tests clear ranges entries => rw [ranges, free.ranges]
    | woken txn r taken call ranges entries => rw [ranges, free.ranges]
    | range txn r taken call clear ranges entries => cases free.calls txn _ call
  · have moved {txn : Nat} {next : Option Call} (calls : m'.calls = Function.update m.calls txn next)
        (rangeFree : ∀ call ∈ next, call.rangeFree) : ∀ txn, ∀ call ∈ m'.calls txn, call.rangeFree := by
      rw [calls, Function.forall_update_iff m.calls (p := fun _ c => ∀ call ∈ c, call.rangeFree)]
      exact ⟨rangeFree, fun other _ => free.calls other⟩
    cases callChange orderly stepped with
    | still calls =>
        rw [calls]
        exact free.calls
    | onward txn call next taken here onward =>
        subst taken
        refine moved onward.calls (onward.rangeFree free.ranges (free.calls txn call here) ?_)
        rintro r rfl
        exact allowed r here
    | moved txn call after here calls awake rangeFree =>
        refine moved calls ?_
        rintro _ ⟨⟩
        exact rangeFree (free.calls txn call here)
    | starts txn first idle calls awake rangeFree =>
        refine moved calls ?_
        rintro _ ⟨⟩
        exact rangeFree

theorem rank_lt_of_rangeFree {call : Call} (free : call.rangeFree) {mutex held : Mutex}
    (requested : call.requests = some mutex) (holds : held ∈ call.held) : held.rank < mutex.rank := by
  cases call with
  | lookup key op => cases holds
  | create key op => cases holds
  | enter key op => cases holds
  | acquire r stage =>
      cases stage with
      | marked | range | queue | evaluate expired | settle ok | leave result =>
          cases requested
          obtain rfl := List.mem_singleton.mp holds
          simp [Mutex.rank]
      | asleep | retake expired => cases holds
      | lockRange | recheckRange | awaitRange | retakeRange expired => cases free
  | tryAcquire key type stage =>
      obtain rfl := List.mem_singleton.mp holds
      cases stage <;> cases requested <;> simp [Mutex.rank]
  | acquireRange r stage =>
      cases stage with
      | lock => cases holds
      | check | await | retake expired => cases free
  | releaseAll stage =>
      cases stage with
      | gather | entries remaining => cases holds
      | ranges =>
          cases requested
          obtain rfl := List.mem_singleton.mp holds
          simp [Mutex.rank]

theorem RangeFree.ordered (free : m.RangeFree) (orderly : m.Orderly) :
    m.mutexes.Ordered Mutex.rank := by
  constructor
  · intro caller mutex requested held holds
    cases caller with
    | transaction txn =>
        obtain ⟨call, here, requested⟩ := Option.bind_eq_some_iff.mp requested
        refine rank_lt_of_rangeFree (free.calls txn call here) requested ?_
        rwa [← heldBy_transaction here]
    | detector id =>
        obtain ⟨d, found, -⟩ := Option.bind_eq_some_iff.mp requested
        obtain rfl := orderly.searching id d found
        obtain ⟨txn, same, -⟩ := orderly.calls_of_held holds
        cases same
  · rintro _ ⟨txn, call, rfl, here, waits⟩
    have kept := free.calls txn call here
    have asleep : ∃ r, call = .acquire r .asleep := by
      unfold Call.waits at waits
      split at waits
      · cases kept
      · exact ⟨_, rfl⟩
      · cases kept
      · cases waits
    obtain ⟨r, rfl⟩ := asleep
    constructor
    · show (m.calls txn).bind Call.requests = none
      rw [here]
      rfl
    · intro mutex holds
      have holds : mutex ∈ m.heldBy (.transaction txn) := holds
      rw [heldBy_transaction here] at holds
      cases holds

/-- In a run without a range lock no call ever blocks on the mutexes of the lock manager for good. -/
theorem unblocked_of_run (run : Run (step .blocks) NoRangeLock {} m) : m.Unblocked := by
  obtain ⟨orderly, free⟩ := run.invariant (p := fun m => m.Orderly ∧ m.RangeFree)
    (fun _ _ _ allowed stepped both =>
      ⟨(both.1.step stepped).1, both.2.step both.1 allowed stepped⟩)
    ⟨.initial, rfl, by rintro _ _ ⟨⟩⟩
  have ordered := free.ordered orderly
  exact ⟨fun caller mutex requested => ordered.not_self requested, ordered.acyclic⟩

/-- A call of `AcquireRange` that locks the mutex asks for it again. -/
theorem not_unblocked_of_rangeCall {r : RangeRequest}
    (here : m.calls txn = some (.acquireRange r .lock))
    (stepped : m.step relock (.proceed txn) = some m') : ¬ m'.Unblocked := by
  obtain ⟨call, found, stepped⟩ := Option.bind_eq_some_iff.mp stepped
  obtain rfl := Option.some.inj (here.symm.trans found)
  obtain ⟨-, rfl⟩ := locking_eq_some.mp stepped
  have now : (m.goto txn (.acquireRange r .check)).calls txn = some (.acquireRange r .check) :=
    calls_goto m txn _
  intro unblocked
  refine unblocked.1 (.transaction txn) .range ?_ ?_
  · simp only [requestedBy, now, Option.bind_some]
    rfl
  · rw [heldBy_transaction now]
    exact List.mem_singleton.mpr rfl

/-- A test for `NoRangeLock`. -/
def noRangeLockNow (m : LockManager) : LockAction → Bool
  | .proceed txn =>
      match m.calls txn with
      | some (.acquireRange _ .lock) => false
      | _ => true
  | _ => true

theorem noRangeLock_of_now {action : LockAction} (now : m.noRangeLockNow action) :
    m.NoRangeLock action := by
  cases action with
  | proceed txn =>
      intro r here
      simp [noRangeLockNow, here] at now
  | _ => trivial

def blockedRelease : List LockAction :=
  pointCall 1 [107] (.acquire .kExclusiveLock 10) 5 ++
    pointCall 2 [107] (.acquire .kExclusiveLock 10) 4 ++ [.releaseAll 1, .gather 1 [[107]]]

theorem unblocked_of_run_blockedRelease : ∃ m, execute (step .blocks) {} blockedRelease = some m ∧
    m.requestedBy (.transaction 1) = some (.entry [107]) ∧
    m.heldBy (.transaction 2) = [.entry [107]] ∧ m.Unblocked := by
  have facts : (execute (step .blocks) {} blockedRelease).map (fun m =>
      (m.requestedBy (.transaction 1), m.heldBy (.transaction 2))) =
      some (some (.entry [107]), [.entry [107]]) := by decide +kernel
  obtain ⟨m, executed, facts⟩ := Option.map_eq_some_iff.mp facts
  rw [Prod.mk.injEq] at facts
  have allowed : Allowed (step .blocks) (fun m a => m.noRangeLockNow a) {} blockedRelease := by
    decide +kernel
  exact ⟨m, executed, facts.1, facts.2, unblocked_of_run
    ((execute_run _ allowed executed).mono fun _ _ => noRangeLock_of_now)⟩

def firstRangeCall : List LockAction := [.acquireRange 1 ⟨[], [], false, 10⟩]

theorem unblocked_fails_firstRangeCall :
    ¬ ∀ m : LockManager, Run (step .blocks) free {} m → m.Unblocked := by
  intro always
  have facts : (execute (step .blocks) {} firstRangeCall).map (fun m =>
      (m.calls 1, (m.step .blocks (.proceed 1)).isSome)) =
      some (some (.acquireRange ⟨[], [], false, 10⟩ .lock), true) := by decide +kernel
  obtain ⟨m, executed, facts⟩ := Option.map_eq_some_iff.mp facts
  rw [Prod.mk.injEq] at facts
  obtain ⟨m', stepped⟩ := Option.isSome_iff_exists.mp facts.2
  have run : Run (step .blocks) free {} m := execute_run _ (allowed_free _ _ _) executed
  exact not_unblocked_of_rangeCall facts.1 stepped
    (always m' (run.tail ⟨.proceed 1, trivial, stepped⟩))

end LockManager
end Lrdb
