import Lrdb.Concurrency.WaitCycles

namespace Lrdb.LockManager
open Runs Relation LockEntry

variable {m m' : LockManager} {txn : Nat}

def Real (m : LockManager) : Prop :=
  ∀ waiter other, m.graph.Edge waiter other →
    m.HeldUp waiter other ∨ m.phase other = .releasing

def Asks (m : LockManager) (txn : Nat) (key : Key) (type : LockType) : Prop :=
  (∃ timeout, m.calls txn = some (.acquire ⟨key, type, timeout⟩ .range)) ∨
    m.calls txn = some (.tryAcquire key type .range)

/-- A transaction joins a queue when the holders are others and all in conflict with it, a single
release leaves nobody waiting for it, and an exclusive holder asks again for its key when the queue
is empty and no range lock is in the way. -/
def Careful (m : LockManager) : LockAction → Prop
  | .proceed txn =>
      (∀ r, m.calls txn = some (.acquire r .queue) → ∀ h ∈ (m.entries r.key).holders,
        h.txnId ≠ txn ∧ ¬ compatible h.type r.type) ∧
      (∀ key, m.calls txn = some (.enter key .release) → ∀ w ∈ (m.entries key).waiters,
        ∀ h ∈ (m.entries key).holders, h.txnId = txn → compatible h.type w.type) ∧
      ∀ key type, m.Asks txn key type → ⟨txn, .kExclusiveLock⟩ ∈ (m.entries key).holders →
        (m.entries key).waiters = [] ∧ m.rangeConflicts key type txn = false
  | _ => True

theorem HeldUp.grow {waiter other : Nat} (heldUp : m.HeldUp waiter other)
    (waiters : ∀ key type, ⟨waiter, type⟩ ∈ (m.entries key).waiters →
      ⟨waiter, type⟩ ∈ (m'.entries key).waiters)
    (holders : ∀ key, ∀ h ∈ (m.entries key).holders, h.txnId = other →
      h ∈ (m'.entries key).holders) : m'.HeldUp waiter other := by
  obtain ⟨different, key, type, member, h, held, owner, conflict⟩ := heldUp
  exact ⟨different, key, type, waiters key type member, h, holders key h held owner, owner, conflict⟩

theorem HeldUp.update {waiter other : Nat} (heldUp : m.HeldUp waiter other) {key : Key}
    {entry : LockEntry} (entries : m'.entries = Function.update m.entries key entry)
    (waiters : ∀ type, ⟨waiter, type⟩ ∈ (m.entries key).waiters → ⟨waiter, type⟩ ∈ entry.waiters)
    (holders : ∀ h ∈ (m.entries key).holders, h.txnId = other → h ∈ entry.holders) :
    m'.HeldUp waiter other := by
  refine heldUp.grow ?_ ?_
  · rw [entries, Function.forall_update_iff m.entries (p := fun k e =>
      ∀ type, ⟨waiter, type⟩ ∈ (m.entries k).waiters → ⟨waiter, type⟩ ∈ e.waiters)]
    exact ⟨waiters, fun k _ type => id⟩
  · rw [entries, Function.forall_update_iff m.entries (p := fun k e =>
      ∀ h ∈ (m.entries k).holders, h.txnId = other → h ∈ e.holders)]
    exact ⟨holders, fun k _ h held _ => held⟩

theorem Real.departed (real : m.Real) {key : Key} {entry : LockEntry}
    (waiters : entry.waiters = (m.entries key).waiters.filter fun w => w.txnId != txn)
    (holders : ∀ h ∈ (m.entries key).holders, h ∈ entry.holders)
    (entries : m'.entries = Function.update m.entries key entry)
    (graph : m'.graph = m.graph.removeEdgesFor txn)
    (phase : m'.phase = Function.update m.phase txn .out) : m'.Real := by
  intro a b edge
  rw [graph] at edge
  obtain ⟨edge, notA, notB⟩ := WaitForGraph.edge_removeEdgesFor.mp edge
  rcases real a b edge with heldUp | releasing
  · refine .inl (heldUp.update entries ?_ fun h held _ => holders h held)
    intro type member
    rw [waiters, List.mem_filter]
    exact ⟨member, by simpa using notA⟩
  · exact .inr (by rwa [phase, Function.update_of_ne notB])

theorem Real.change (real : m.Real) (tidy : m.Tidy) {action : LockAction}
    (careful : m.Careful action) (changed : Change m action m') : m'.Real := by
  have unchanged (entries : m'.entries = m.entries) {a b : Nat} (heldUp : m.HeldUp a b) :
      m'.HeldUp a b :=
    heldUp.grow (fun key type member => by rwa [entries]) (fun key h held _ => by rwa [entries])
  intro a b edge
  cases changed with
  | quiet entries graph phase =>
      rw [graph] at edge
      exact (real a b edge).imp (unchanged entries) fun releasing => by rwa [phase]
  | releasing txn out entries graph phase =>
      rw [graph] at edge
      refine (real a b edge).imp (unchanged entries) fun releasing => ?_
      have different : b ≠ txn := by
        rintro rfl
        rw [out] at releasing
        cases releasing
      rwa [phase, Function.update_of_ne different]
  | grant txn key type out granted entries graph phase =>
      rw [graph] at edge
      refine (real a b edge).imp (fun heldUp => ?_) fun releasing => by rwa [phase]
      exact heldUp.update entries (fun type member => member)
        fun h held _ => List.mem_append_left _ held
  | wait txn r taken call entries graph phase =>
      subst taken
      rw [graph] at edge
      have entries : m'.entries =
          Function.update m.entries r.key ((m.entries r.key).enqueue txn r.type) := entries
      rcases WaitForGraph.edge_addEdges.mp edge with ⟨rfl, member⟩ | edge
      · obtain ⟨h, held, rfl⟩ := List.mem_map.mp member
        obtain ⟨different, conflict⟩ := careful.1 r call h held
        refine .inl ⟨different.symm, r.key, ?_⟩
        rw [entries, Function.update_self]
        exact ⟨r.type, List.mem_append_right _ (List.mem_singleton.mpr rfl), h, held, rfl, conflict⟩
      · refine (real a b edge).imp (fun heldUp => ?_) fun releasing => ?_
        · exact heldUp.update entries (fun type member => List.mem_append_left _ member)
            fun h held _ => held
        · have different : b ≠ txn := by
            rintro rfl
            rw [phase_eq call] at releasing
            cases releasing
          rwa [phase, Function.update_of_ne different]
  | refuse txn r taken call entries graph phase =>
      rw [tidy.refused call] at entries
      rw [graph] at edge
      obtain ⟨edge, notA, -⟩ := WaitForGraph.edge_removeEdgesFor.mp edge
      rcases WaitForGraph.edge_addEdges.mp edge with ⟨same, -⟩ | edge
      · exact absurd same notA
      · exact (real a b edge).imp (unchanged entries) fun releasing => by rwa [phase]
  | leave txn key type taken departs entries graph phase =>
      exact real.departed (tidy.once key).removeWaiter (fun h held => held) entries graph phase a b
        edge
  | wake txn key type taken departs granted entries graph phase =>
      exact real.departed ((tidy.once key).wake granted (tidy.present txn key type departs))
        (fun h held => List.mem_append_left _ held) entries graph phase a b edge
  | release txn key taken caller entries graph phase =>
      subst taken
      rw [graph] at edge
      rcases real a b edge with heldUp | releasing
      · by_cases own : b = txn
        · subst own
          rcases caller with ⟨rest, here⟩ | single
          · exact .inr (by rw [phase, phase_eq here]; rfl)
          · -- The one lock that goes is in conflict with nobody who waits for its key.
            obtain ⟨different, k, type, member, h, held, owner, conflict⟩ := heldUp
            refine .inl ⟨different, k, ?_⟩
            rw [entries]
            by_cases same : k = key
            · subst same
              exact absurd (careful.2.1 k single _ member h held owner) conflict
            · rw [Function.update_of_ne same]
              exact ⟨type, member, h, held, owner, conflict⟩
        · refine .inl (heldUp.update entries (fun type member => member) fun h held owner => ?_)
          exact List.mem_filter.mpr ⟨held, by simpa [owner] using own⟩
      · exact .inr (by rwa [phase])
  | forget txn releasing entries graph phase =>
      rw [graph] at edge
      obtain ⟨edge, -, notB⟩ := WaitForGraph.edge_removeEdgesFor.mp edge
      refine (real a b edge).imp (unchanged entries) fun before => ?_
      rwa [phase, Function.update_of_ne notB]

/-! ## The two properties -/

/-- A call of `Acquire` that returns an abort closes a cycle through two transactions. -/
def AbortSound (m : LockManager) (txn : Nat) (m' : LockManager) : Prop :=
  ∀ r stage text, m.calls txn = some (.acquire r stage) → m'.calls txn = none →
    m'.returned txn = some (.aborted text) → ∃ a b, a ≠ b ∧
      TransGen (m.enqueued txn r).WaitsFor a b ∧ TransGen (m.enqueued txn r).WaitsFor b a

def Reentrant (m : LockManager) (txn : Nat) (m' : LockManager) : Prop :=
  ∀ key type, m.Asks txn key type → ⟨txn, .kExclusiveLock⟩ ∈ (m.entries key).holders →
    m'.calls txn = none ∧ m'.returned txn = some .ok ∧
      ⟨txn, type⟩ ∈ (m'.entries key).holders

theorem queue_of_aborted (orderly : m.Orderly) {relock : Relock} {r : AcquireRequest}
    {stage : AcquireStage} {text : String} (here : m.calls txn = some (.acquire r stage))
    (stepped : m.acquireStep relock txn r stage = some m') (returned : m'.calls txn = none)
    (status : m'.returned txn = some (.aborted text)) :
    stage = .queue ∧ m' = m.queueStep txn r := by
  have granted : ¬ ((m.grantOrQueue txn r).calls txn = none ∧
      (m.grantOrQueue txn r).returned txn = some (.aborted text)) := by
    unfold grantOrQueue
    split <;> simp [grant, Status.ok, Status.aborted]
  cases stage with
  | queue =>
      obtain ⟨-, rfl⟩ := locking_eq_some.mp stepped
      exact ⟨rfl, rfl⟩
  | marked =>
      obtain ⟨-, rfl⟩ := locking_eq_some.mp stepped
      rw [orderly.not_marked, if_neg Bool.false_ne_true] at returned
      simp at returned
  | range =>
      obtain ⟨-, rfl⟩ := locking_eq_some.mp stepped
      split at returned
      · simp at returned
      · rename_i free
        rw [if_neg free] at status
        exact absurd ⟨returned, status⟩ granted
  | recheckRange =>
      obtain ⟨-, rfl⟩ := locking_eq_some.mp stepped
      split at returned
      · rename_i free
        rw [if_pos free] at status
        exact absurd ⟨returned, status⟩ granted
      · rename_i busy
        rw [if_neg busy] at status
        split at returned
        · rename_i instant
          rw [if_pos instant] at status
          simp [Status.timedOut, Status.aborted] at status
        · simp at returned
  | retakeRange expired =>
      obtain ⟨-, rfl⟩ := locking_eq_some.mp stepped
      cases expired
      · simp at returned
      · simp [Status.timedOut, Status.aborted] at status
  | lockRange | retake expired | settle ok =>
      obtain ⟨-, rfl⟩ := locking_eq_some.mp stepped
      simp at returned
  | awaitRange | asleep =>
      obtain rfl := Option.some.inj stepped
      simp at returned
  | evaluate expired =>
      obtain ⟨-, rfl⟩ := locking_eq_some.mp stepped
      unfold evaluateStep at returned
      split at returned
      · simp at returned
      split at returned <;> simp at returned
  | leave result =>
      obtain ⟨-, rfl⟩ := locking_eq_some.mp stepped
      cases result with
      | victim =>
          have spared := orderly.spared txn _ here
          cases spared
      | timedOut => simp [leaveStep, Status.timedOut, Status.aborted] at status
      | granted => simp [leaveStep, Status.ok, Status.aborted] at status

theorem Real.abortSound (real : m.Real) (orderly : m.Orderly) (tidy : m.Tidy) {relock : Relock}
    (careful : m.Careful (.proceed txn)) (stepped : m.step relock (.proceed txn) = some m') :
    m.AbortSound txn m' := by
  intro r stage text here returned status
  obtain ⟨call, found, stepped⟩ := Option.bind_eq_some_iff.mp stepped
  obtain rfl := Option.some.inj (here.symm.trans found)
  obtain ⟨rfl, rfl⟩ := queue_of_aborted orderly here stepped returned status
  have closes : (m.entries r.key).holders.any fun h =>
      (m.enqueued txn r).graph.wouldCreateCycle txn h.txnId := by
    by_contra passed
    unfold queueStep at returned
    dsimp only at returned
    rw [if_neg passed] at returned
    simp at returned
  obtain ⟨h, -, closes⟩ := List.any_eq_true.mp closes
  obtain ⟨c, -, cycle⟩ := WaitForGraph.wouldCreateCycle_iff.mp closes
  have outside : m.phase txn = .out := phase_eq here
  have waits (a b : Nat) (edge : (m.enqueued txn r).graph.Edge a b)
      (onward : ∃ c, (m.enqueued txn r).graph.Edge b c) : (m.enqueued txn r).WaitsFor a b := by
    have entries : (m.enqueued txn r).entries =
        Function.update m.entries r.key ((m.entries r.key).enqueue txn r.type) := rfl
    rcases WaitForGraph.edge_addEdges.mp edge with ⟨rfl, member⟩ | old
    · obtain ⟨h, held, rfl⟩ := List.mem_map.mp member
      obtain ⟨different, conflict⟩ := careful.1 r here h held
      refine HeldUp.waitsFor ⟨different.symm, r.key, ?_⟩
      rw [entries, Function.update_self]
      exact ⟨r.type, List.mem_append_right _ (List.mem_singleton.mpr rfl), h, held, rfl, conflict⟩
    · rcases real a b old with heldUp | releasing
      · exact (heldUp.update entries (fun type member => List.mem_append_left _ member)
          fun h held _ => held).waitsFor
      · -- Who is on its way out has no edge of its own.
        obtain ⟨c, edge⟩ := onward
        rcases WaitForGraph.edge_addEdges.mp edge with ⟨rfl, -⟩ | edge
        · rw [outside] at releasing
          cases releasing
        · obtain ⟨key, type, queued⟩ := tidy.sources b c edge
          rw [releasing] at queued
          cases queued
  have cycle := DepthFirst.cycle_lift waits cycle
  obtain ⟨d, first, back⟩ := TransGen.head'_iff.mp cycle
  exact ⟨c, d, first.1, .single first, TransGen.trans_right back cycle⟩

theorem canGrant_iff_of_held (tidy : m.Tidy) {key : Key} {type : LockType}
    (asks : m.Asks txn key type) (held : ⟨txn, .kExclusiveLock⟩ ∈ (m.entries key).holders) :
    (m.entries key).canGrant txn type ↔ (m.entries key).waiters = [] := by
  have outside : m.phase txn = .out := by
    rcases asks with ⟨timeout, here⟩ | here
    · exact phase_eq here
    · exact phase_eq here
  have absent : ∀ w ∈ (m.entries key).waiters, w.txnId ≠ txn := tidy.absent (by simp [outside])
  rw [canGrant_iff]
  constructor
  · rintro ⟨-, empty | first⟩
    · exact empty
    · exact absurd rfl (absent _ (List.mem_of_head? first))
  · intro empty
    refine ⟨fun h member => .inl ?_, .inl empty⟩
    exact tidy.exclusion key _ held rfl h member

theorem reentrant_iff (tidy : m.Tidy) {relock : Relock} {key : Key} {type : LockType}
    (asks : m.Asks txn key type) (held : ⟨txn, .kExclusiveLock⟩ ∈ (m.entries key).holders)
    (stepped : m.step relock (.proceed txn) = some m') :
    (m'.calls txn = none ∧ m'.returned txn = some .ok ∧
      ⟨txn, type⟩ ∈ (m'.entries key).holders) ↔
    (m.entries key).waiters = [] ∧ m.rangeConflicts key type txn = false := by
  rw [← canGrant_iff_of_held tidy asks held]
  have granted : ⟨txn, type⟩ ∈ ((m.grant txn key type).entries key).holders := by
    have entry : (m.grant txn key type).entries key = (m.entries key).grant txn type :=
      Function.update_self ..
    rw [entry]
    exact List.mem_append_right _ (List.mem_singleton.mpr rfl)
  rcases asks with ⟨timeout, here⟩ | here
  · obtain ⟨call, found, stepped⟩ := Option.bind_eq_some_iff.mp stepped
    obtain rfl := Option.some.inj (here.symm.trans found)
    obtain ⟨-, rfl⟩ := locking_eq_some.mp stepped
    unfold grantOrQueue
    cases conflict : m.rangeConflicts key type txn
    · cases can : (m.entries key).canGrant txn type
      · simp
      · simpa [grant] using granted
    · simp
  · obtain ⟨call, found, stepped⟩ := Option.bind_eq_some_iff.mp stepped
    obtain rfl := Option.some.inj (here.symm.trans found)
    obtain ⟨-, rfl⟩ := locking_eq_some.mp stepped
    cases conflict : m.rangeConflicts key type txn
    · cases can : (m.entries key).canGrant txn type
      · simp [Status.timedOut, Status.ok]
      · simpa [grant] using granted
    · simp [Status.timedOut, Status.ok]

variable {relock : Relock}

theorem real_of_run (run : Run (step relock) Careful {} m) : (m.Orderly ∧ m.Tidy) ∧ m.Real := by
  refine run.invariant (p := fun m => (m.Orderly ∧ m.Tidy) ∧ m.Real) ?_
    ⟨⟨.initial, .initial⟩, ?_⟩
  · rintro m action m' careful stepped ⟨⟨orderly, tidy⟩, real⟩
    obtain ⟨orderly', changed⟩ := orderly.step stepped
    exact ⟨⟨orderly', tidy.change changed⟩, real.change tidy careful changed⟩
  · intro waiter other edge
    cases edge

/-- In a run of careful steps an abort closes a cycle of transactions that wait for each other, and
an exclusive holder is granted its key again at once. -/
theorem abortSound_of_run (run : Run (step relock) Careful {} m)
    (careful : m.Careful (.proceed txn)) (stepped : m.step relock (.proceed txn) = some m') :
    m.AbortSound txn m' ∧ m.Reentrant txn m' := by
  obtain ⟨⟨orderly, tidy⟩, real⟩ := real_of_run run
  refine ⟨real.abortSound orderly tidy careful stepped, fun key type asks held => ?_⟩
  exact (reentrant_iff tidy asks held stepped).mpr (careful.2.2 key type asks held)

/-- A test for `Careful`. -/
def carefulNow (m : LockManager) : LockAction → Bool
  | .proceed txn =>
      match m.calls txn with
      | some (.acquire r .queue) => (m.entries r.key).holders.all fun h =>
          h.txnId != txn && !compatible h.type r.type
      | some (.enter key .release) => (m.entries key).waiters.all fun w =>
          (m.entries key).holders.all fun h => h.txnId != txn || compatible h.type w.type
      | some (.acquire r .range) => !(m.entries r.key).holders.contains ⟨txn, .kExclusiveLock⟩ ||
          ((m.entries r.key).waiters.isEmpty && !m.rangeConflicts r.key r.type txn)
      | some (.tryAcquire key type .range) =>
          !(m.entries key).holders.contains ⟨txn, .kExclusiveLock⟩ ||
            ((m.entries key).waiters.isEmpty && !m.rangeConflicts key type txn)
      | _ => true
  | _ => true

theorem careful_of_now {action : LockAction} (now : m.carefulNow action) : m.Careful action := by
  cases action with
  | proceed txn =>
      refine ⟨?_, ?_, ?_⟩
      · intro r here h held
        simp only [carefulNow, here, List.all_eq_true] at now
        simpa using now h held
      · intro key here w member h held owner
        simp only [carefulNow, here, List.all_eq_true] at now
        simpa [owner] using now w member h held
      · rintro key type (⟨timeout, here⟩ | here) held
        · simpa [carefulNow, here, held] using now
        · simpa [carefulNow, here, held] using now
  | _ => trivial

theorem abortSound_of_run_closingRequest : ∃ m m',
    execute (step .blocks) {} closingRequest = some m ∧ m.step .blocks (.proceed 1) = some m' ∧
      m'.returned 1 = some (.aborted "Deadlock detected") ∧ m.AbortSound 1 m' := by
  obtain ⟨m, executed⟩ : ∃ m, execute (step .blocks) {} closingRequest = some m :=
    Option.isSome_iff_exists.mp (by decide +kernel)
  have allowed : Allowed (step .blocks) (fun m a => m.carefulNow a) {} closingRequest := by
    decide +kernel
  have run : Run (step .blocks) Careful {} m :=
    (execute_run _ allowed executed).mono fun _ _ => careful_of_now
  have facts : (execute (step .blocks) {} closingRequest).map (fun m =>
      ((m.step .blocks (.proceed 1)).map fun m' => m'.returned 1, m.carefulNow (.proceed 1))) =
      some (some (some (.aborted "Deadlock detected")), true) := by decide +kernel
  rw [executed, Option.map_some, Option.some.injEq, Prod.mk.injEq] at facts
  obtain ⟨next, now⟩ := facts
  obtain ⟨m', stepped, returned⟩ := Option.map_eq_some_iff.mp next
  exact ⟨m, m', executed, stepped, returned,
    (abortSound_of_run run (careful_of_now now) stepped).1⟩

/-! ## Where they fail -/

def nobodyQueued (m : LockManager) : Bool :=
  m.callers.all fun caller =>
    match caller with
    | .transaction t => m.phase t = .out
    | .detector _ => true

theorem not_queued_of_nobody (orderly : m.Orderly) (nobody : m.nobodyQueued) : ¬ m.Queued txn := by
  rintro ⟨key, type, queued⟩
  have busy : m.calls txn ≠ none := fun none => by simp [phase, none] at queued
  have test := List.all_eq_true.mp nobody _ (orderly.listed txn busy)
  simp [queued] at test

def upgrade : List LockAction :=
  pointCall 1 [107] (.acquire .kSharedLock 10) 5 ++
    pointCall 2 [107] (.acquire .kSharedLock 10) 4 ++
    pointCall 1 [107] (.acquire .kExclusiveLock 10) 4

def askedAgain : List LockAction :=
  oneWaiting ++ pointCall 1 [107] (.acquire .kExclusiveLock 10) 3

theorem abortSound_fails_upgrade :
    (¬ ∀ (m m' : LockManager) (txn : Nat), Run (step .blocks) free {} m →
      m.step .blocks (.proceed txn) = some m' → m.AbortSound txn m') ∧
    ¬ ∀ (m m' : LockManager) (txn : Nat), Run (step .blocks) free {} m →
      m.step .blocks (.proceed txn) = some m' → m.Reentrant txn m' := by
  constructor
  · intro always
    obtain ⟨m, executed⟩ : ∃ m, execute (step .blocks) {} upgrade = some m :=
      Option.isSome_iff_exists.mp (by decide +kernel)
    have run := execute_run _ (allowed_free _ _ _) executed
    obtain ⟨orderly, tidy⟩ := tidy_of_run run
    have facts : (execute (step .blocks) {} upgrade).map (fun m => (m.calls 1, m.nobodyQueued,
        (m.step .blocks (.proceed 1)).map fun m' => (m'.calls 1, m'.returned 1))) =
        some (some (.acquire ⟨[107], .kExclusiveLock, 10⟩ .queue), true,
          some (none, some (.aborted "Deadlock detected"))) := by decide +kernel
    rw [executed, Option.map_some, Option.some.injEq, Prod.mk.injEq, Prod.mk.injEq] at facts
    obtain ⟨here, nobody, next⟩ := facts
    obtain ⟨m', stepped, next⟩ := Option.map_eq_some_iff.mp next
    rw [Prod.mk.injEq] at next
    obtain ⟨a, b, different, forth, back⟩ :=
      always m m' 1 run stepped _ _ _ here next.1 next.2
    have only {t u : Nat} (path : TransGen
        (m.enqueued 1 ⟨[107], .kExclusiveLock, 10⟩).WaitsFor t u) : t = 1 := by
      obtain ⟨v, waits, -⟩ := TransGen.head'_iff.mp path
      exact (WaitsFor.enqueued tidy waits).resolve_right (not_queued_of_nobody orderly nobody)
    exact different ((only forth).trans (only back).symm)
  · intro always
    obtain ⟨m, executed⟩ : ∃ m, execute (step .blocks) {} askedAgain = some m :=
      Option.isSome_iff_exists.mp (by decide +kernel)
    have run := execute_run _ (allowed_free _ _ _) executed
    have facts : (execute (step .blocks) {} askedAgain).map (fun m =>
        (m.calls 1, (m.entries [107]).holders, (m.step .blocks (.proceed 1)).map fun m' =>
          m'.calls 1)) =
        some (some (.acquire ⟨[107], .kExclusiveLock, 10⟩ .range), [⟨1, .kExclusiveLock⟩],
          some (some (.acquire ⟨[107], .kExclusiveLock, 10⟩ .queue))) := by decide +kernel
    rw [executed, Option.map_some, Option.some.injEq, Prod.mk.injEq, Prod.mk.injEq] at facts
    obtain ⟨here, held, next⟩ := facts
    obtain ⟨m', stepped, next⟩ := Option.map_eq_some_iff.mp next
    have granted := always m m' 1 run stepped [107] .kExclusiveLock (.inl ⟨10, here⟩)
      (held ▸ List.mem_singleton.mpr rfl)
    rw [next] at granted
    cases granted.1

end Lrdb.LockManager
