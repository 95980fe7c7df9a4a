import Lrdb.Background.TaskSteps

/-!
# What a successful `CancelTask` stops

The flag that a cancel sets belongs to one period of a task. It stops the task when that period is
still to be checked by a worker; a period that has passed the check runs, and the period after it
is a new object with a clear flag, which no identifier known to the caller reaches.
-/

namespace Lrdb.BackgroundTaskManager
open Runs

variable {s t : BackgroundTaskManager} {a : Action} {id : TaskId}

def Closed (s : BackgroundTaskManager) : Prop := s.shutdown = true ∧ .looking ∉ s.workers

/-- A worker at this stage starts no run of the task `id`, nor any worker after it, given that
`stopped` periods are found cancelled. -/
def QuietStage (s : BackgroundTaskManager) (stopped : TaskId → Bool) (id : TaskId) :
    WorkerStage → Prop
  | .idle | .looking | .removing _ => True
  | .holding j => s.originOf j = some id → stopped j = true
  | .ready j => s.originOf j ≠ some id
  | .running j => s.originOf j = some id → s.isPeriodic j = true → s.shutdown = true

/-- No period of the task `id` is on its way to a run, given that `stopped` periods are found
cancelled. -/
structure Quiet (s : BackgroundTaskManager) (stopped : TaskId → Bool) (id : TaskId) : Prop where
  workers : ∀ b ∈ s.workers, s.QuietStage stopped id b
  taskQueue : ∀ j ∈ s.taskQueue, s.originOf j = some id → stopped j = true ∨ s.Closed
  sleeping : ∀ j ∈ s.sleeping, s.originOf j = some id → s.shutdown = true
  moving : ∀ j ∈ s.submitting + s.woken, s.originOf j = some id → s.Closed

/-- What a cancel of `id` has to find: every period of the task that is not yet past its check is
the one that `id` names, or cancelled already. -/
def Stoppable (s : BackgroundTaskManager) (id : TaskId) : Prop :=
  s.Quiet (fun j => j = id || s.cancelRequested j) id

instance : Decidable s.Closed := inferInstanceAs (Decidable (_ ∧ _))

instance (stopped : TaskId → Bool) : (b : WorkerStage) → Decidable (s.QuietStage stopped id b)
  | .idle | .looking | .removing _ => inferInstanceAs (Decidable True)
  | .holding j => inferInstanceAs (Decidable (s.originOf j = some id → stopped j = true))
  | .ready j => inferInstanceAs (Decidable (s.originOf j ≠ some id))
  | .running j => inferInstanceAs
      (Decidable (s.originOf j = some id → s.isPeriodic j = true → s.shutdown = true))

instance : Decidable (s.Stoppable id) :=
  decidable_of_iff
    ((∀ b ∈ s.workers, s.QuietStage (fun j => j = id || s.cancelRequested j) id b) ∧
      (∀ j ∈ s.taskQueue, s.originOf j = some id →
        (j = id || s.cancelRequested j) = true ∨ s.Closed) ∧
      (∀ j ∈ s.sleeping, s.originOf j = some id → s.shutdown = true) ∧
      ∀ j ∈ s.submitting + s.woken, s.originOf j = some id → s.Closed)
    ⟨fun ⟨workers, taskQueue, sleeping, moving⟩ => ⟨workers, taskQueue, sleeping, moving⟩,
      fun ⟨workers, taskQueue, sleeping, moving⟩ => ⟨workers, taskQueue, sleeping, moving⟩⟩

theorem step_closed (h : step s a = some t) (fresh : Fresh s) (closed : s.Closed) : t.Closed := by
  refine ⟨(step_extends h fresh).1.shutdown closed.1, fun looking => ?_⟩
  obtain old | open' := (step_entered h).workers _ looking
  · exact closed.2 old
  · exact Bool.false_ne_true (open'.symm.trans closed.1)

theorem Extends.quietStage (e : Extends s t) {b : WorkerStage}
    (known : ∀ j ∈ b.task, (s.originOf j).isSome)
    (quiet : s.QuietStage s.cancelRequested id b) : t.QuietStage t.cancelRequested id b := by
  cases b with
  | idle | looking | removing => trivial
  | holding j =>
      intro origin
      rw [e.originOf (known j rfl)] at origin
      exact e.cancelRequested (quiet origin)
  | ready j =>
      rw [QuietStage, e.originOf (known j rfl)]
      exact quiet
  | running j =>
      intro origin periodic
      rw [e.originOf (known j rfl)] at origin
      rw [e.isPeriodic (known j rfl)] at periodic
      exact e.shutdown (quiet origin periodic)

theorem Quiet.reached (quiet : s.Quiet s.cancelRequested id) {b : WorkerStage}
    (reached : s.Reached b) : s.QuietStage s.cancelRequested id b := by
  cases b with
  | idle | looking | removing => trivial
  | holding j =>
      intro origin
      obtain flag | closed := quiet.taskQueue j reached.2 origin
      · exact flag
      · exact absurd reached.1 closed.2
  | ready j =>
      intro origin
      have flag : s.cancelRequested j = true := quiet.workers _ reached.1 origin
      exact Bool.false_ne_true (reached.2.symm.trans flag)
  | running j =>
      intro origin
      exact absurd origin (quiet.workers _ reached)

theorem step_quiet (h : step s a = some t) (fresh : Fresh s) (known : Known s)
    (old : id < s.nextTaskId) (quiet : s.Quiet s.cancelRequested id) :
    t.Quiet t.cancelRequested id := by
  have entered := step_entered h
  obtain ⟨kept, -⟩ := step_extends h fresh
  constructor
  · intro b mem
    obtain same | reached := entered.workers b mem
    · exact kept.quietStage (known.workers b same) (quiet.workers b same)
    · exact kept.quietStage (known.reached reached) (quiet.reached reached)
  · intro j mem origin
    obtain same | same | same := entered.taskQueue j mem
    · rw [kept.originOf (known.taskQueue j same)] at origin
      exact (quiet.taskQueue j same origin).imp kept.cancelRequested (step_closed h fresh)
    · rw [kept.originOf (known.submitting j same)] at origin
      exact .inr (step_closed h fresh (quiet.moving j (Multiset.mem_add.mpr (.inl same)) origin))
    · rw [kept.originOf (known.woken j same)] at origin
      exact .inr (step_closed h fresh (quiet.moving j (Multiset.mem_add.mpr (.inr same)) origin))
  · intro j mem origin
    obtain same | ⟨k, runs, periodic, same⟩ := entered.sleeping j mem
    · rw [kept.originOf (known.sleeping j same)] at origin
      exact kept.shutdown (quiet.sleeping j same origin)
    · have quietly := quiet.workers _ runs
      exact kept.shutdown (quietly (same ▸ origin) periodic)
  · intro j mem origin
    obtain mem | mem := Multiset.mem_add.mp mem
    · obtain same | ⟨rfl, self⟩ := entered.submitting j mem
      · rw [kept.originOf (known.submitting j same)] at origin
        exact step_closed h fresh (quiet.moving j (Multiset.mem_add.mpr (.inl same)) origin)
      · rw [self] at origin
        cases origin
        exact absurd old (lt_irrefl _)
    · obtain same | ⟨same, up⟩ := entered.woken j mem
      · rw [kept.originOf (known.woken j same)] at origin
        exact step_closed h fresh (quiet.moving j (Multiset.mem_add.mpr (.inr same)) origin)
      · rw [kept.originOf (known.sleeping j same)] at origin
        have down := quiet.sleeping j same origin
        exact absurd (up.symm.trans down) Bool.false_ne_true

theorem run_quiet (run : Run step free s t) (fresh : Fresh s) (known : Known s)
    (old : id < s.nextTaskId) (quiet : s.Quiet s.cancelRequested id) :
    t.Quiet t.cancelRequested id := by
  refine (Run.invariant (p := fun s => (Fresh s ∧ Known s) ∧ id < s.nextTaskId ∧
    s.Quiet s.cancelRequested id) ?_ run ⟨⟨fresh, known⟩, old, quiet⟩).2.2
  intro s a t _ h ⟨⟨fresh, known⟩, old, quiet⟩
  obtain ⟨kept, unused⟩ := step_extends h fresh
  exact ⟨⟨unused, step_known h fresh known⟩, old.trans_le kept.nextTaskId,
    step_quiet h fresh known old quiet⟩

theorem cancelRequested_requestCancel {j : TaskId} (known : (s.originOf j).isSome)
    (stop : (j = id || s.cancelRequested j) = true) :
    (s.requestCancel fun k _ => k = id).cancelRequested j = true := by
  obtain ⟨i, found⟩ := Option.isSome_iff_exists.mp (Option.isSome_map ▸ known)
  simp only [cancelRequested, found, Option.any_some, Bool.or_eq_true, decide_eq_true_eq] at stop
  simp only [cancelRequested, requestCancel, found, Option.map_some, Option.any_some,
    decide_eq_true_eq]
  split
  · rfl
  · rename_i other
    exact stop.resolve_left other

theorem quiet_requestCancel (known : Known s) (stoppable : s.Stoppable id) :
    (s.requestCancel fun k _ => k = id).Quiet
      (s.requestCancel fun k _ => k = id).cancelRequested id := by
  constructor
  · intro b mem
    have quiet := stoppable.workers b mem
    cases b with
    | idle | looking | removing => trivial
    | holding j =>
        intro origin
        rw [originOf_requestCancel] at origin
        exact cancelRequested_requestCancel (known.workers _ mem j rfl) (quiet origin)
    | ready j =>
        rw [QuietStage, originOf_requestCancel]
        exact quiet
    | running j =>
        rw [QuietStage, originOf_requestCancel, isPeriodic_requestCancel]
        exact quiet
  · intro j mem origin
    rw [originOf_requestCancel] at origin
    exact (stoppable.taskQueue j mem origin).imp_left
      (cancelRequested_requestCancel (known.taskQueue j mem))
  · intro j mem origin
    rw [originOf_requestCancel] at origin
    exact stoppable.sleeping j mem origin
  · intro j mem origin
    rw [originOf_requestCancel] at origin
    exact stoppable.moving j mem origin

/-- After a cancel that finds the task stoppable no worker starts a run of it, whatever happens
next. -/
theorem no_start_after_cancel {u v : BackgroundTaskManager} {w : Nat} {j : TaskId}
    (run : Run step free {} s) (cancelled : s.cancelTask id = (true, t))
    (stoppable : s.Stoppable id) (later : Run step free t u)
    (started : step u (.startTask w j) = some v) : u.originOf j ≠ some id := by
  obtain ⟨fresh, known⟩ := run_known run
  unfold cancelTask at cancelled
  split_ifs at cancelled with active
  case neg => cases cancelled
  cases cancelled
  have old : id < s.nextTaskId := by
    by_contra unused
    have none := fresh id (Nat.le_of_not_lt unused)
    have origin := known.activeTasks id active
    rw [originOf, none] at origin
    cases origin
  have cancel : step s (.cancelTask id) = some (s.requestCancel fun k _ => k = id) := by
    simp only [step, cancelTask, active, if_true]
  have quiet := run_quiet later (step_extends cancel fresh).2 (step_known cancel fresh known)
    old (quiet_requestCancel known stoppable)
  simp only [step] at started
  split_ifs at started with ready
  exact quiet.workers _ (List.mem_of_getElem? ready)

def flushTask : BackgroundTask := { type := .flush, interval := 100, name := "periodic_task" }

def beforeCheck : List Action :=
  [.start 2, .scheduleTask flushTask, .submit 1, .scheduleTask flushTask, .submit 2, .enterLoop 0,
    .getNextTask 0 1]

def startSecondTask : List Action := [.enterLoop 1, .getNextTask 1 2, .checkCancel 1 2]

def betweenPeriods : List Action :=
  [.start 1, .scheduleTask flushTask, .submit 1, .enterLoop 0, .getNextTask 0 1, .checkCancel 0 1,
    .startTask 0 1, .endTask 0 1 (.returned .ok) 100]

def startSecondPeriod : List Action :=
  [.tick 100, .wake 2, .deliver 2, .enterLoop 0, .getNextTask 0 2, .checkCancel 0 2]

theorem started_of_facts {before after : List Action} {w : Nat} {j : TaskId}
    {p q : BackgroundTaskManager → Bool}
    (facts : ((execute step {} before).any fun s => (s.cancelTask 1).1 && p s &&
      ((execute step (s.cancelTask 1).2 after).any fun u =>
        (step u (.startTask w j)).isSome && q u)) = true) :
    ∃ s t u v, Run step free {} s ∧ s.cancelTask 1 = (true, t) ∧ p s = true ∧
      Run step free t u ∧ step u (.startTask w j) = some v ∧ q u = true := by
  obtain ⟨s, reached, rest⟩ := Option.any_eq_true _ _ |>.mp facts
  obtain ⟨⟨cancelled, ps⟩, rest⟩ := Bool.and_eq_true_iff.mp rest |>.imp_left Bool.and_eq_true_iff.mp
  obtain ⟨u, later, rest⟩ := Option.any_eq_true _ _ |>.mp rest
  obtain ⟨started, qu⟩ := Bool.and_eq_true_iff.mp rest
  obtain ⟨v, started⟩ := Option.isSome_iff_exists.mp started
  exact ⟨s, _, u, v, execute_run before (allowed_free _ _ _) reached,
    Prod.ext cancelled rfl, ps, execute_run after (allowed_free _ _ _) later, started, qu⟩

theorem no_start_after_cancel_beforeCheck : ∃ s t u v,
    Run step free {} s ∧ s.cancelTask 1 = (true, t) ∧ Run step free t u ∧
      step u (.startTask 1 2) = some v ∧ u.originOf 2 ≠ some 1 := by
  have facts : ((execute step {} beforeCheck).any fun s => (s.cancelTask 1).1 &&
      decide (s.Stoppable 1) && ((execute step (s.cancelTask 1).2 startSecondTask).any fun u =>
        (step u (.startTask 1 2)).isSome && true)) = true := by
    decide +kernel
  obtain ⟨s, t, u, v, run, cancelled, stoppable, later, started, -⟩ :=
    @started_of_facts _ _ _ _ (fun s => decide (s.Stoppable 1)) (fun _ => true) facts
  exact ⟨s, t, u, v, run, cancelled, later, started,
    no_start_after_cancel run cancelled (of_decide_eq_true stoppable) later started⟩

theorem cancel_misses_betweenPeriods : ∃ s t u v,
    Run step free {} s ∧ s.cancelTask 1 = (true, t) ∧ Run step free t u ∧
      step u (.startTask 0 2) = some v ∧ u.originOf 2 = some 1 := by
  have facts : ((execute step {} betweenPeriods).any fun s => (s.cancelTask 1).1 && true &&
      ((execute step (s.cancelTask 1).2 startSecondPeriod).any fun u =>
        (step u (.startTask 0 2)).isSome && decide (u.originOf 2 = some 1))) = true := by
    decide +kernel
  obtain ⟨s, t, u, v, run, cancelled, -, later, started, origin⟩ :=
    @started_of_facts _ _ _ _ (fun _ => true) (fun u => decide (u.originOf 2 = some 1)) facts
  exact ⟨s, t, u, v, run, cancelled, later, started, of_decide_eq_true origin⟩

end Lrdb.BackgroundTaskManager
