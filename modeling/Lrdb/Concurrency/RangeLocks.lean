import Lrdb.Concurrency.LockQueue

/-!
# Point locks and range locks

A range lock covers the keys from its start up to its end, an empty bound being none. The test that a
point request makes against the range locks, and what a step adds to the locks of both kinds.
-/

namespace Lrdb
open Runs

/-! ## The test of a key against a range -/

namespace RangeLock

def Contains (r : RangeLock) (key : Key) : Prop :=
  (r.start = [] ∨ r.start ≤ key) ∧ (r.stop = [] ∨ key < r.stop)

/-- One round of the loop of `RangeConflicts`. -/
def blocks (r : RangeLock) (key : Key) (type : LockType) (requester : Nat) : Bool :=
  r.txnId != requester && overlap key (key ++ cString [0]) r.start r.stop &&
    (r.exclusive || isX type)

def Excludes (r : RangeLock) (key : Key) (type : LockType) (requester : Nat) : Prop :=
  r.txnId ≠ requester ∧ r.Contains key ∧ (r.exclusive ∨ type = .kExclusiveLock)

def Aligned (r : RangeLock) (key : Key) : Prop :=
  if key = [] then r.start = []
  else r.start = key → r.stop ≠ [] ∧ ¬ key < r.stop

instance (r : RangeLock) (key : Key) : Decidable (r.Aligned key) := by
  unfold Aligned
  infer_instance

variable {r : RangeLock} {key : Key} {type : LockType} {requester : Nat}

theorem cString_zero : cString [0] = [] := rfl

theorem isX_iff : isX type ↔ type = .kExclusiveLock := by
  cases type <;> simp [isX]

theorem overlap_iff_contains :
    (overlap key (key ++ cString [0]) r.start r.stop ↔ r.Contains key) ↔ r.Aligned key := by
  have test : overlap key (key ++ cString [0]) r.start r.stop ↔
      (key = [] ∨ r.stop = [] ∨ key < r.stop) ∧ (r.start = [] ∨ key = [] ∨ r.start < key) := by
    simp [overlap, cString_zero, or_assoc]
  rw [test]
  unfold Contains Aligned
  by_cases empty : key = []
  · subst empty
    have before : r.stop = [] ∨ [] < r.stop := by
      cases r.stop with
      | nil => exact .inl rfl
      | cons b bs => exact .inr (List.nil_lt_cons b bs)
    have start : r.start ≤ [] ↔ r.start = [] := List.le_nil
    simp [before, start]
  · simp only [empty, false_or, if_false]
    by_cases same : r.start = key
    · have irreflexive : ¬ key < key := List.lt_irrefl key
      simp [same, empty, irreflexive]
    · have order : r.start ≤ key ↔ r.start < key := by
        rw [List.le_iff_lt_or_eq, or_iff_left same]
      simp [same, order, and_comm]

theorem blocks_iff : r.blocks key type requester ↔ r.txnId ≠ requester ∧
    overlap key (key ++ cString [0]) r.start r.stop ∧ (r.exclusive ∨ type = .kExclusiveLock) := by
  simp [blocks, isX_iff, and_assoc]

theorem blocks_iff_excludes
    (aligned : r.txnId ≠ requester → r.exclusive ∨ type = .kExclusiveLock → r.Aligned key) :
    r.blocks key type requester ↔ r.Excludes key type requester := by
  rw [blocks_iff, Excludes]
  constructor
  · rintro ⟨other, overlaps, modes⟩
    exact ⟨other, (overlap_iff_contains.mpr (aligned other modes)).mp overlaps, modes⟩
  · rintro ⟨other, contains, modes⟩
    exact ⟨other, (overlap_iff_contains.mpr (aligned other modes)).mpr contains, modes⟩

end RangeLock

namespace LockManager

def Tests (m : LockManager) (txn : Nat) (key : Key) (type : LockType) : Prop :=
  (∃ timeout, m.calls txn = some (.acquire ⟨key, type, timeout⟩ .range) ∨
    m.calls txn = some (.acquire ⟨key, type, timeout⟩ .recheckRange)) ∨
  m.calls txn = some (.tryAcquire key type .range)

/-! ## What a step adds to the locks -/

inductive LocksChange (m : LockManager) (action : LockAction) (m' : LockManager) : Prop
  | fewer (ranges : m'.rangeLocks ⊆ m.rangeLocks)
      (holders : ∀ key, (m'.entries key).holders ⊆ (m.entries key).holders)
  | tested (txn : Nat) (key : Key) (type : LockType) (taken : action = .proceed txn)
      (tests : m.Tests txn key type) (free : m.rangeConflicts key type txn = false)
      (ranges : m'.rangeLocks = m.rangeLocks)
      (entries : m'.entries = Function.update m.entries key ((m.entries key).grant txn type))
  | woken (txn : Nat) (r : AcquireRequest) (taken : action = .proceed txn)
      (call : m.calls txn = some (.acquire r (.leave .granted)))
      (ranges : m'.rangeLocks = m.rangeLocks)
      (entries : m'.entries = Function.update m.entries r.key ((m.entries r.key).wake txn r.type))
  | range (txn : Nat) (r : RangeRequest) (taken : action = .proceed txn)
      (call : m.calls txn = some (.acquireRange r .check))
      (free : m.rangeConflictsWithRange r.start r.stop r.exclusive txn = false)
      (ranges : m'.rangeLocks = m.rangeLocks ++ [⟨txn, r.start, r.stop, r.exclusive⟩])
      (entries : m'.entries = m.entries)

variable {m m' : LockManager} {relock : Relock} {txn : Nat}

namespace LocksChange
variable {action : LockAction}

theorem none (ranges : m'.rangeLocks = m.rangeLocks) (entries : m'.entries = m.entries) :
    LocksChange m action m' :=
  .fewer (ranges ▸ List.Subset.refl _) fun _ => entries ▸ List.Subset.refl _

theorem entry {key : Key} {entry : LockEntry} (ranges : m'.rangeLocks = m.rangeLocks)
    (entries : m'.entries = Function.update m.entries key entry)
    (holders : entry.holders ⊆ (m.entries key).holders) : LocksChange m action m' := by
  refine .fewer (ranges ▸ List.Subset.refl _) ?_
  rw [entries, Function.forall_update_iff m.entries
    (p := fun k e => e.holders ⊆ (m.entries k).holders)]
  exact ⟨holders, fun k _ => List.Subset.refl _⟩

theorem grantOrQueue {r : AcquireRequest} (tests : m.Tests txn r.key r.type)
    (free : m.rangeConflicts r.key r.type txn = false) :
    LocksChange m (.proceed txn) (m.grantOrQueue txn r) := by
  unfold LockManager.grantOrQueue
  split
  · exact .tested txn r.key r.type rfl tests free rfl rfl
  · exact .none rfl rfl

theorem of_acquireStep {r : AcquireRequest} {stage : AcquireStage}
    (here : m.calls txn = some (.acquire r stage))
    (stepped : m.acquireStep relock txn r stage = some m') : LocksChange m (.proceed txn) m' := by
  cases stage with
  | marked =>
      obtain ⟨-, rfl⟩ := locking_eq_some.mp stepped
      split <;> exact .none rfl rfl
  | range =>
      obtain ⟨-, rfl⟩ := locking_eq_some.mp stepped
      split
      · exact .none rfl rfl
      · rename_i free
        exact grantOrQueue (.inl ⟨_, .inl here⟩) (by simpa using free)
  | recheckRange =>
      obtain ⟨-, rfl⟩ := locking_eq_some.mp stepped
      split
      · rename_i free
        exact grantOrQueue (.inl ⟨_, .inr here⟩) (by simpa using free)
      split <;> exact .none rfl rfl
  | retakeRange expired =>
      obtain ⟨-, rfl⟩ := locking_eq_some.mp stepped
      split <;> exact .none rfl rfl
  | lockRange | retake expired | settle ok =>
      obtain ⟨-, rfl⟩ := locking_eq_some.mp stepped
      exact .none rfl rfl
  | awaitRange | asleep =>
      obtain rfl := Option.some.inj stepped
      exact .none rfl rfl
  | queue =>
      obtain ⟨-, rfl⟩ := locking_eq_some.mp stepped
      have enqueued : ∀ key, ((m.enqueued txn r).entries key).holders ⊆ (m.entries key).holders := by
        intro key
        by_cases same : key = r.key
        · subst same
          simp [enqueued, setEntry, setGraph, LockEntry.enqueue]
        · simp [enqueued, setEntry, setGraph, same]
      unfold queueStep
      dsimp only
      split
      · refine .fewer (List.Subset.refl _) fun key => List.Subset.trans ?_ (enqueued key)
        by_cases same : key = r.key
        · subst same
          simp [withdrawn, setEntry, setGraph, finish, LockEntry.removeWaiter]
        · simp [withdrawn, setEntry, setGraph, finish, same]
      · exact .fewer (List.Subset.refl _) enqueued
  | evaluate expired =>
      obtain ⟨-, rfl⟩ := locking_eq_some.mp stepped
      unfold evaluateStep
      split
      · exact .none rfl rfl
      split <;> exact .none rfl rfl
  | leave result =>
      obtain ⟨-, rfl⟩ := locking_eq_some.mp stepped
      cases result with
      | victim | timedOut => exact entry rfl rfl (List.Subset.refl _)
      | granted => exact .woken txn r rfl here rfl rfl

theorem released {key : Key} (ranges : m'.rangeLocks = m.rangeLocks)
    (entries : m'.entries = Function.update m.entries key ((m.entries key).release txn)) :
    LocksChange m action m' :=
  entry ranges entries (List.filter_subset_self _)

theorem of_callStep {call : Call} (here : m.calls txn = some call)
    (stepped : m.callStep relock txn call = some m') : LocksChange m (.proceed txn) m' := by
  cases call with
  | lookup key op =>
      obtain rfl := Option.some.inj stepped
      exact .none rfl rfl
  | create key op =>
      obtain ⟨-, rfl⟩ := locking_eq_some.mp stepped
      exact .none rfl rfl
  | enter key op =>
      cases op with
      | release =>
          obtain ⟨-, rfl⟩ := locking_eq_some.mp stepped
          exact released rfl rfl
      | acquire type timeout | tryAcquire type =>
          obtain ⟨-, rfl⟩ := locking_eq_some.mp stepped
          exact .none rfl rfl
  | acquire r stage => exact of_acquireStep here stepped
  | tryAcquire key type stage =>
      cases stage with
      | marked | unmark =>
          obtain ⟨-, rfl⟩ := locking_eq_some.mp stepped
          exact .none rfl rfl
      | range =>
          obtain ⟨-, rfl⟩ := locking_eq_some.mp stepped
          split
          · exact .none rfl rfl
          rename_i free
          split
          · exact .none rfl rfl
          · exact .tested txn key type rfl (.inr here) (by simpa using free) rfl rfl
  | acquireRange r stage =>
      cases stage with
      | lock =>
          obtain ⟨-, rfl⟩ := locking_eq_some.mp stepped
          exact .none rfl rfl
      | check =>
          obtain ⟨-, rfl⟩ := locking_eq_some.mp stepped
          split
          · rename_i free
            exact .range txn r rfl here (by simpa using free) rfl rfl
          split <;> exact .none rfl rfl
      | await =>
          obtain rfl := Option.some.inj stepped
          exact .none rfl rfl
      | retake expired =>
          obtain ⟨-, rfl⟩ := locking_eq_some.mp stepped
          split <;> exact .none rfl rfl
  | releaseAll stage =>
      cases stage with
      | gather => cases stepped
      | ranges =>
          obtain ⟨-, rfl⟩ := locking_eq_some.mp stepped
          exact .fewer (List.filter_subset_self _) fun _ => List.Subset.refl _
      | entries remaining =>
          cases remaining with
          | nil =>
              obtain ⟨-, rfl⟩ := locking_eq_some.mp stepped
              exact .none rfl rfl
          | cons key rest =>
              obtain ⟨-, rfl⟩ := locking_eq_some.mp stepped
              exact released rfl rfl

theorem of_start {call : Call} (started : m.start txn call = some m') :
    LocksChange m action m' := by
  unfold start at started
  split at started <;> [skip; cases started]
  obtain rfl := Option.some.inj started
  exact .none rfl rfl

theorem of_detectionStep {id : Nat} {d : Detection}
    (stepped : m.detectionStep relock id d = some m') : LocksChange m action m' := by
  cases d with
  | detect =>
      obtain ⟨-, rfl⟩ := locking_eq_some.mp stepped
      split <;> exact .none rfl rfl
  | release victim stage =>
      cases stage with
      | gather => cases stepped
      | ranges =>
          obtain ⟨-, rfl⟩ := locking_eq_some.mp stepped
          exact .fewer (List.filter_subset_self _) fun _ => List.Subset.refl _
      | entries remaining =>
          cases remaining with
          | nil =>
              obtain ⟨-, rfl⟩ := locking_eq_some.mp stepped
              exact .none rfl rfl
          | cons key rest =>
              obtain ⟨-, rfl⟩ := locking_eq_some.mp stepped
              exact released rfl rfl
  | gather victim => cases stepped
  | sweep victim remaining =>
      cases remaining with
      | nil =>
          obtain ⟨-, rfl⟩ := locking_eq_some.mp stepped
          exact .none rfl rfl
      | cons key rest =>
          obtain ⟨-, rfl⟩ := locking_eq_some.mp stepped
          exact entry rfl rfl (List.Subset.refl _)

end LocksChange

theorem locksChange {action : LockAction} (stepped : m.step relock action = some m') :
    LocksChange m action m' := by
  cases action with
  | point other key op => exact .of_start stepped
  | acquireRange other r => exact .of_start stepped
  | releaseAll other => exact .of_start stepped
  | proceed other =>
      obtain ⟨call, here, stepped⟩ := Option.bind_eq_some_iff.mp stepped
      exact .of_callStep here stepped
  | expire other =>
      obtain ⟨call, -, stepped⟩ := Option.bind_eq_some_iff.mp stepped
      unfold expireStep at stepped
      split at stepped <;> first
        | cases stepped; done
        | obtain rfl := Option.some.inj stepped; exact .none rfl rfl
  | gather other order =>
      unfold step at stepped
      dsimp only at stepped
      split at stepped <;> [skip; cases stepped]
      obtain rfl := Option.some.inj stepped
      exact .none rfl rfl
  | detect id =>
      unfold step at stepped
      dsimp only at stepped
      split at stepped <;> [skip; cases stepped]
      obtain rfl := Option.some.inj stepped
      exact .none rfl rfl
  | resolve id =>
      obtain ⟨d, -, stepped⟩ := Option.bind_eq_some_iff.mp stepped
      exact .of_detectionStep stepped
  | gatherFor id order =>
      unfold step at stepped
      dsimp only at stepped
      split at stepped <;> [skip; cases stepped]
      obtain ⟨d, -, stepped⟩ := Option.bind_eq_some_iff.mp stepped
      unfold gatherForStep at stepped
      split at stepped
      · obtain rfl := Option.some.inj stepped
        exact .none rfl rfl
      · obtain rfl := Option.some.inj stepped
        exact .none rfl rfl
      · cases stepped

end LockManager
end Lrdb
