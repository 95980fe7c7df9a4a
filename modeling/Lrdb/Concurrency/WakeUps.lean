import Lrdb.Concurrency.LockSteps
import Lrdb.Concurrency.LockQueue

namespace Lrdb.LockManager
open Runs LockEntry

def grantable (m : LockManager) (txn : Nat) : Bool :=
  match m.calls txn with
  | some (.acquire r .asleep) => (m.entries r.key).canGrant txn r.type
  | _ => false

/-- The step calls `notify_all` for the waiters of the key. -/
def notifies (m : LockManager) (action : LockAction) (key : Key) : Bool :=
  match action with
  | .proceed txn =>
      match m.calls txn with
      | some (.enter k .release) => k = key
      | some (.releaseAll (.entries (k :: _))) =>
          k = key && ((m.entries k).release txn).holders.length != (m.entries k).holders.length
      | _ => false
  | .resolve id =>
      match m.detections id with
      | some (.release victim (.entries (k :: _))) =>
          k = key && ((m.entries k).release victim).holders.length != (m.entries k).holders.length
      | some (.sweep victim (k :: _)) =>
          k = key && ((m.entries k).sweep victim).waiters.length != (m.entries k).waiters.length
      | _ => false
  | _ => false

def sleepsOn (m : LockManager) (txn : Nat) : Option Key :=
  match m.calls txn with
  | some (.acquire r .asleep) => some r.key
  | _ => none

structure Watched where
  manager : LockManager := {}
  /-- Who has become grantable and has not been notified at that step or later. -/
  unheard : Nat → Bool := fun _ => false

def watchStep (relock : Relock) (w : Watched) (action : LockAction) : Option Watched :=
  (w.manager.step relock action).map fun m =>
    { manager := m
      unheard := fun txn =>
        m.grantable txn && !((m.sleepsOn txn).any (w.manager.notifies action)) &&
          (!w.manager.grantable txn || w.unheard txn) }

/-- What the wait of `txn` leaves of its entry. -/
def leftBy (m : LockManager) (txn : Nat) (r : AcquireRequest) : WaitResult → LockEntry
  | .granted => (m.entries r.key).wake txn r.type
  | _ => (m.entries r.key).removeWaiter txn

/-- A request leaves the queue, granted or not, only when no other sleeping transaction can be
granted the key because of it. -/
def Alone (m : LockManager) : LockAction → Prop
  | .proceed txn => ∀ r result, m.calls txn = some (.acquire r (.leave result)) →
      ∀ other r', m.calls other = some (.acquire r' .asleep) → r'.key = r.key →
        (m.leftBy txn r result).canGrant other r'.type → (m.entries r.key).canGrant other r'.type
  | _ => True

variable {m m' : LockManager} {relock : Relock} {txn : Nat} {call : Call}

theorem slept_or_refused (orderly : m.Orderly) {action : LockAction}
    (stepped : m.step relock action = some m') {r : AcquireRequest}
    (asleep : m'.calls txn = some (.acquire r .asleep)) :
    m.calls txn = some (.acquire r .asleep) ∨ (m'.entries r.key).canGrant txn r.type = false := by
  have moved {other : Nat} {next : Option Call} (calls : m'.calls = Function.update m.calls other next)
      (falls : other = txn → next = some (.acquire r .asleep) →
        (m'.entries r.key).canGrant txn r.type = false) :
      m.calls txn = some (.acquire r .asleep) ∨ (m'.entries r.key).canGrant txn r.type = false := by
    rw [calls] at asleep
    by_cases same : txn = other
    · subst same
      rw [Function.update_self] at asleep
      exact .inr (falls rfl asleep)
    · rw [Function.update_of_ne same] at asleep
      exact .inl asleep
  have awake {call : Call} (awake : call.sleeps = false) :
      some call ≠ some (.acquire r .asleep) := by
    rintro ⟨⟩
    cases awake
  cases callChange orderly stepped with
  | still calls => exact .inl (calls ▸ asleep)
  | onward other call next taken here onward =>
      refine moved onward.calls ?_
      rintro rfl same
      obtain ⟨entries, refused⟩ := onward.refused r same
      exact entries ▸ refused
  | moved other call after here calls rested =>
      exact moved calls fun _ same => absurd same (awake rested)
  | starts other first idle calls rested =>
      exact moved calls fun _ same => absurd same (awake rested)

/-! ## Who becomes grantable -/

theorem grantable_iff : m.grantable txn ↔ ∃ r, m.calls txn = some (.acquire r .asleep) ∧
    (m.entries r.key).canGrant txn r.type := by
  unfold grantable
  constructor
  · intro granted
    split at granted
    · rename_i r here
      exact ⟨r, here, granted⟩
    · cases granted
  · rintro ⟨r, here, granted⟩
    simpa [here] using granted

theorem sleepsOn_eq {r : AcquireRequest} (asleep : m.calls txn = some (.acquire r .asleep)) :
    m.sleepsOn txn = some r.key := by
  simp [sleepsOn, asleep]

theorem entries_of_waits {r : AcquireRequest} {stage : AcquireStage} (waits : stage.waits)
    (stepped : m.acquireStep relock txn r stage = some m') :
    m'.entries = m.entries ∨ ∃ result, stage = .leave result ∧
      m'.entries = Function.update m.entries r.key (m.leftBy txn r result) := by
  cases stage with
  | leave result =>
      obtain ⟨-, rfl⟩ := locking_eq_some.mp stepped
      refine .inr ⟨result, rfl, ?_⟩
      cases result <;> rfl
  | evaluate expired =>
      obtain ⟨-, rfl⟩ := locking_eq_some.mp stepped
      refine .inl ?_
      unfold evaluateStep
      split
      · rfl
      split <;> rfl
  | asleep =>
      obtain rfl := Option.some.inj stepped
      exact .inl rfl
  | retake expired | settle ok =>
      obtain ⟨-, rfl⟩ := locking_eq_some.mp stepped
      exact .inl rfl
  | marked | range | lockRange | recheckRange | awaitRange | retakeRange expired | queue =>
      cases waits

theorem canGrant_of_grant {entry : LockEntry} {other : Nat} {type held : LockType}
    (granted : (entry.grant other held).canGrant txn type) : entry.canGrant txn type := by
  obtain ⟨holders, first⟩ := canGrant_iff.mp granted
  exact canGrant_iff.mpr ⟨fun h member => holders h (List.mem_append_left _ member), first⟩

theorem canGrant_of_enqueue {entry : LockEntry} {other : Nat} {type asked : LockType}
    (waiting : ⟨txn, type⟩ ∈ entry.waiters)
    (granted : (entry.enqueue other asked).canGrant txn type) : entry.canGrant txn type := by
  obtain ⟨holders, first⟩ := canGrant_iff.mp granted
  refine canGrant_iff.mpr ⟨holders, ?_⟩
  cases shape : entry.waiters with
  | nil =>
      rw [shape] at waiting
      cases waiting
  | cons w ws =>
      simp only [enqueue, shape, List.cons_append, List.head?_cons] at first
      exact .inr (first.resolve_left (List.cons_ne_nil _ _))

theorem release_eq_self {entry : LockEntry}
    (same : (entry.release txn).holders.length = entry.holders.length) :
    entry.release txn = entry := by
  have kept : entry.holders.filter (fun h => h.txnId != txn) = entry.holders :=
    List.filter_sublist.eq_of_length same
  unfold release
  rw [kept]

/-- Nobody who sleeps on becomes grantable without a notification. -/
theorem grantable_before (orderly : m.Orderly) (tidy : m.Tidy) {action : LockAction}
    (alone : m.Alone action) (stepped : m.step relock action = some m') (after : m'.grantable txn)
    (silent : (m'.sleepsOn txn).any (m.notifies action) = false) : m.grantable txn := by
  obtain ⟨r, asleep, granted⟩ := grantable_iff.mp after
  rw [sleepsOn_eq asleep, Option.any_some] at silent
  have before : m.calls txn = some (.acquire r .asleep) := by
    refine (slept_or_refused orderly stepped asleep).resolve_right fun refused => ?_
    rw [granted] at refused
    cases refused
  have waiting : ⟨txn, r.type⟩ ∈ (m.entries r.key).waiters :=
    tidy.present txn r.key r.type (phase_eq before)
  refine grantable_iff.mpr ⟨r, before, ?_⟩
  -- A step that changes one entry only matters when it is the entry of the sleeper.
  have here {key : Key} {entry : LockEntry} (entries : m'.entries = Function.update m.entries key entry)
      (own : key = r.key → entry.canGrant txn r.type → (m.entries r.key).canGrant txn r.type) :
      (m.entries r.key).canGrant txn r.type := by
    rw [entries] at granted
    by_cases same : r.key = key
    · rw [same, Function.update_self] at granted
      exact own same.symm granted
    · rwa [Function.update_of_ne same] at granted
  have departs {other : Nat} {key : Key} {type : LockType} (taken : action = .proceed other)
      (queued : m.phase other = .queued key type) : (m.entries r.key).canGrant txn r.type := by
    subst taken
    obtain ⟨asked, stage, call, waits, -⟩ := blockedIn_of_queued queued
    obtain ⟨found, same, stepped⟩ := Option.bind_eq_some_iff.mp stepped
    obtain rfl := Option.some.inj (call.symm.trans same)
    rcases entries_of_waits waits stepped with entries | ⟨result, rfl, entries⟩
    · rwa [entries] at granted
    · refine here entries fun equal allowed => ?_
      rw [← equal]
      exact equal ▸ alone asked result call txn r before equal.symm allowed
  cases (orderly.step stepped).2 with
  | quiet entries | releasing _ _ entries | forget _ _ entries => rwa [entries] at granted
  | grant other key type out allowed entries =>
      refine here entries ?_
      rintro rfl
      exact canGrant_of_grant
  | wait other asked taken call entries =>
      refine here entries ?_
      intro same
      rw [same]
      exact canGrant_of_enqueue waiting
  | refuse other asked taken call entries => rwa [entries, tidy.refused call] at granted
  | leave other key type taken queued => exact departs taken queued
  | wake other key type taken queued => exact departs taken queued
  | release other key taken caller entries =>
      subst taken
      refine here entries ?_
      rintro rfl
      rcases caller with ⟨rest, call⟩ | call
      · have same : ((m.entries r.key).release other).holders.length =
            (m.entries r.key).holders.length := by simpa [notifies, call] using silent
        rw [release_eq_self same]
        exact id
      · simp [notifies, call] at silent

/-! ## Runs -/

/-- Nobody sleeps who could be granted the lock and has not been notified. -/
def Heard (w : Watched) : Prop := ∀ txn, w.unheard txn = false

theorem heard_of_run {w : Watched}
    (run : Run (watchStep relock) (fun w action => w.manager.Alone action) {} w) : Heard w := by
  have all := run.invariant (p := fun w => (w.manager.Orderly ∧ w.manager.Tidy) ∧ Heard w) ?_
    ⟨⟨.initial, .initial⟩, fun _ => rfl⟩
  · exact all.2
  rintro w action w' alone stepped ⟨⟨orderly, tidy⟩, heard⟩
  obtain ⟨m, taken, rfl⟩ := Option.map_eq_some_iff.mp stepped
  obtain ⟨orderly', changed⟩ := orderly.step taken
  refine ⟨⟨orderly', tidy.change changed⟩, fun txn => ?_⟩
  dsimp only
  cases after : m.grantable txn
  · rfl
  cases silent : (m.sleepsOn txn).any (w.manager.notifies action)
  · rw [grantable_before orderly tidy alone taken after silent, heard txn]
    rfl
  · rfl

/-- A test for `Alone`: no call leaves a queue. -/
def staysQueued (m : LockManager) : LockAction → Bool
  | .proceed txn =>
      match m.calls txn with
      | some (.acquire _ (.leave _)) => false
      | _ => true
  | _ => true

theorem alone_of_staysQueued {action : LockAction} (stays : m.staysQueued action) :
    m.Alone action := by
  cases action with
  | proceed txn =>
      intro r result here
      simp [staysQueued, here] at stays
  | _ => trivial

def releasedToSleeper : List LockAction := oneWaiting ++ pointCall 1 [107] .release 2

theorem heard_of_run_releasedToSleeper : ∃ w,
    execute (watchStep .blocks) {} releasedToSleeper = some w ∧ w.manager.grantable 2 ∧
      Heard w := by
  obtain ⟨w, executed⟩ : ∃ w, execute (watchStep .blocks) {} releasedToSleeper = some w :=
    Option.isSome_iff_exists.mp (by decide +kernel)
  have allowed : Allowed (watchStep .blocks) (fun w a => w.manager.staysQueued a) {}
      releasedToSleeper := by decide +kernel
  have granted : (execute (watchStep .blocks) {} releasedToSleeper).map (fun w =>
      w.manager.grantable 2) = some true := by decide +kernel
  rw [executed, Option.map_some, Option.some.injEq] at granted
  exact ⟨w, executed, granted, heard_of_run
    ((execute_run _ allowed executed).mono fun _ _ => alone_of_staysQueued)⟩

def timedOutAhead : List LockAction :=
  pointCall 1 [107] (.acquire .kSharedLock 10) 5 ++
    pointCall 2 [107] (.acquire .kExclusiveLock 10) 6 ++
    pointCall 3 [107] (.acquire .kSharedLock 10) 6 ++
    .expire 2 :: List.replicate 4 (.proceed 2)

theorem heard_fails_timedOutAhead :
    ¬ ∀ w, Run (watchStep .blocks) free {} w → Heard w := by
  intro always
  obtain ⟨w, executed⟩ : ∃ w, execute (watchStep .blocks) {} timedOutAhead = some w :=
    Option.isSome_iff_exists.mp (by decide +kernel)
  have missed : (execute (watchStep .blocks) {} timedOutAhead).map (fun w => w.unheard 3) =
      some true := by decide +kernel
  rw [executed, Option.map_some, Option.some.injEq] at missed
  rw [always w (execute_run _ (allowed_free _ _ _) executed) 3] at missed
  cases missed

end Lrdb.LockManager
