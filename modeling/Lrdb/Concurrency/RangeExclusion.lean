import Lrdb.Concurrency.RangeLocks

namespace Lrdb.LockManager
open Runs

def Excluded (m : LockManager) : Prop :=
  ∀ key, ∀ h ∈ (m.entries key).holders, h.type = .kExclusiveLock →
    ∀ r ∈ m.rangeLocks, r.txnId ≠ h.txnId → ¬ r.Contains key

def BlockedByRange (m : LockManager) (txn : Nat) : Prop :=
  (∃ r, m.calls txn = some (.acquire r .lockRange) ∨ m.calls txn = some (.acquire r .awaitRange)) ∨
  m.calls txn = none ∧ m.returned txn = some (.timedOut "Range lock busy")

def ExactTest (m : LockManager) (txn : Nat) (m' : LockManager) : Prop :=
  ∀ key type, m.Tests txn key type →
    (m'.BlockedByRange txn ↔ ∃ r ∈ m.rangeLocks, r.Excludes key type txn)

variable {m m' : LockManager} {relock : Relock} {txn : Nat}

theorem rangeConflicts_iff {key : Key} {type : LockType} :
    m.rangeConflicts key type txn ↔ ∃ r ∈ m.rangeLocks, r.blocks key type txn :=
  List.any_eq_true

theorem rangeConflicts_iff_excludes {key : Key} {type : LockType}
    (aligned : ∀ r ∈ m.rangeLocks, r.txnId ≠ txn →
      r.exclusive ∨ type = .kExclusiveLock → r.Aligned key) :
    m.rangeConflicts key type txn ↔ ∃ r ∈ m.rangeLocks, r.Excludes key type txn := by
  rw [rangeConflicts_iff]
  exact exists_congr fun r => and_congr_right fun member =>
    RangeLock.blocks_iff_excludes (aligned r member)

theorem not_blocked_of_grantOrQueue {r : AcquireRequest} :
    ¬ (m.grantOrQueue txn r).BlockedByRange txn := by
  unfold grantOrQueue
  split <;> simp [BlockedByRange, grant, Status.ok, Status.timedOut]

theorem blockedByRange_iff {key : Key} {type : LockType} (tests : m.Tests txn key type)
    (stepped : m.step relock (.proceed txn) = some m') :
    m'.BlockedByRange txn ↔ m.rangeConflicts key type txn := by
  obtain ⟨call, found, stepped⟩ := Option.bind_eq_some_iff.mp stepped
  rcases tests with ⟨timeout, here | here⟩ | here
  · obtain rfl := Option.some.inj (here.symm.trans found)
    obtain ⟨-, rfl⟩ := locking_eq_some.mp stepped
    split
    · rename_i conflict
      simp [BlockedByRange, conflict]
    · rename_i free
      exact iff_of_false not_blocked_of_grantOrQueue free
  · obtain rfl := Option.some.inj (here.symm.trans found)
    obtain ⟨-, rfl⟩ := locking_eq_some.mp stepped
    split
    · rename_i free
      exact iff_of_false not_blocked_of_grantOrQueue (by simpa using free)
    · rename_i conflict
      split <;> simpa [BlockedByRange] using conflict
  · obtain rfl := Option.some.inj (here.symm.trans found)
    obtain ⟨-, rfl⟩ := locking_eq_some.mp stepped
    split
    · rename_i conflict
      simp [BlockedByRange, conflict]
    · rename_i free
      split <;> simp [BlockedByRange, grant, Status.ok, Status.timedOut, free]

theorem exactTest_of_aligned (stepped : m.step relock (.proceed txn) = some m')
    (aligned : ∀ key type, m.Tests txn key type → ∀ r ∈ m.rangeLocks, r.txnId ≠ txn →
      r.exclusive ∨ type = .kExclusiveLock → r.Aligned key) : m.ExactTest txn m' := by
  intro key type tests
  rw [blockedByRange_iff tests stepped]
  exact rangeConflicts_iff_excludes (aligned key type tests)

/-- `RangeConflictsWithRange` locks the mutex that `AcquireRange` has locked. -/
theorem Orderly.rangeTest_blocked (orderly : m.Orderly) {r : RangeRequest}
    (here : m.calls txn = some (.acquireRange r .check)) : m.step .blocks (.proceed txn) = none := by
  have held : Mutex.range ∈ m.heldBy (.transaction txn) := by
    rw [heldBy_transaction here]
    exact List.mem_singleton.mpr rfl
  have blocked : ¬ m.canLock .blocks (.transaction txn) .range := by
    intro free
    have test := List.all_eq_true.mp free _ (orderly.listed txn (by simp [here]))
    rw [List.contains_iff_mem.mpr held] at test
    simp at test
  show (m.calls txn).bind (m.callStep .blocks txn) = none
  rw [here]
  exact if_neg blocked

theorem noRangeLock_of_run (run : Run (step .blocks) free {} m) : m.rangeLocks = [] := by
  have both : m.Orderly ∧ m.rangeLocks = [] := by
    refine run.invariant (p := fun m => m.Orderly ∧ m.rangeLocks = []) ?_ ⟨.initial, rfl⟩
    rintro m action m' - stepped ⟨orderly, empty⟩
    refine ⟨(orderly.step stepped).1, ?_⟩
    cases locksChange stepped with
    | fewer ranges => exact List.subset_nil.mp (empty ▸ ranges)
    | tested txn key type _ _ _ ranges => exact ranges.trans empty
    | woken txn r _ _ ranges => exact ranges.trans empty
    | range txn r taken call =>
        subst taken
        rw [orderly.rangeTest_blocked call] at stepped
        cases stepped
  exact both.2

/-- No range lock is ever granted, so that the locks exclude each other and no point request is
blocked by a range lock. -/
theorem rangeExclusion_of_run (run : Run (step .blocks) free {} m) :
    m.rangeLocks = [] ∧ m.Excluded ∧
      ∀ txn m', m.step .blocks (.proceed txn) = some m' → m.ExactTest txn m' := by
  have none := noRangeLock_of_run run
  refine ⟨none, ?_, fun txn m' stepped => exactTest_of_aligned stepped ?_⟩
  · intro key h _ _ r member
    rw [none] at member
    cases member
  · intro key type _ r member
    rw [none] at member
    cases member

def aroundHeldKey : List LockAction :=
  pointCall 1 [108] (.acquire .kExclusiveLock 10) 5 ++ pointCall 2 [108] (.acquire .kExclusiveLock 10) 3 ++
    [.acquireRange 3 ⟨[107], [109], true, 10⟩]

theorem rangeExclusion_of_run_aroundHeldKey : ∃ m m' : LockManager,
    (m.entries [108]).holders = [⟨1, .kExclusiveLock⟩] ∧ m.Tests 2 [108] .kExclusiveLock ∧
    m.step .blocks (.proceed 2) = some m' ∧ m'.calls 2 = some (.acquire ⟨[108], .kExclusiveLock, 10⟩ .queue) ∧
    m.rangeLocks = [] ∧ m.Excluded ∧ m.ExactTest 2 m' := by
  have facts : (execute (step .blocks) {} aroundHeldKey).map (fun m =>
      ((m.entries [108]).holders, m.calls 2, (m.step .blocks (.proceed 2)).map fun m' => m'.calls 2)) =
        some ([⟨1, .kExclusiveLock⟩], some (.acquire ⟨[108], .kExclusiveLock, 10⟩ .range),
          some (some (.acquire ⟨[108], .kExclusiveLock, 10⟩ .queue))) := by decide +kernel
  obtain ⟨m, executed, facts⟩ := Option.map_eq_some_iff.mp facts
  rw [Prod.mk.injEq, Prod.mk.injEq] at facts
  obtain ⟨holders, call, next⟩ := facts
  obtain ⟨m', stepped, next⟩ := Option.map_eq_some_iff.mp next
  obtain ⟨none, excluded, tested⟩ :=
    rangeExclusion_of_run (execute_run _ (allowed_free _ _ _) executed)
  exact ⟨m, m', holders, .inl ⟨10, .inl call⟩, stepped, next, none, excluded, tested 2 m' stepped⟩

end Lrdb.LockManager
