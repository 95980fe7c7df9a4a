import Lrdb.Background.TaskManager

namespace Lrdb.BackgroundTaskManager
open Runs

variable {s t : BackgroundTaskManager} {a : Action}

/-- Every identifier from `nextTaskId` on is unused. -/
def Fresh (s : BackgroundTaskManager) : Prop := ∀ id, s.nextTaskId ≤ id → s.instances id = none

/-- The objects of `s` are still there in `t`. -/
structure Extends (s t : BackgroundTaskManager) : Prop where
  nextTaskId : s.nextTaskId ≤ t.nextTaskId
  shutdown : s.shutdown = true → t.shutdown = true
  instances : ∀ id i, s.instances id = some i → ∃ j, t.instances id = some j ∧
    j.origin = i.origin ∧ j.task.interval = i.task.interval ∧
    (i.task.cancelRequested = true → j.task.cancelRequested = true)

theorem Extends.of_instances (h : t.instances = s.instances) (n : s.nextTaskId ≤ t.nextTaskId)
    (d : s.shutdown = true → t.shutdown = true) : Extends s t := by
  refine ⟨n, d, fun id i found => ⟨i, ?_, rfl, rfl, fun h => h⟩⟩
  rw [h, found]

theorem Extends.trans {u : BackgroundTaskManager} (h : Extends s t) (g : Extends t u) :
    Extends s u := by
  refine ⟨h.nextTaskId.trans g.nextTaskId, g.shutdown ∘ h.shutdown, fun id i found => ?_⟩
  obtain ⟨j, found, origin, interval, flag⟩ := h.instances id i found
  obtain ⟨k, found, origin', interval', flag'⟩ := g.instances id j found
  exact ⟨k, found, origin'.trans origin, interval'.trans interval, flag' ∘ flag⟩

theorem extends_create (fresh : Fresh s) (i : TaskInstance) : Extends s (s.create i) := by
  refine ⟨Nat.le_succ _, id, fun id j found => ⟨j, ?_, rfl, rfl, fun h => h⟩⟩
  have other : id ≠ s.nextTaskId := by
    rintro rfl
    rw [fresh _ le_rfl] at found
    cases found
  simpa only [create, Function.update_of_ne other] using found

theorem extends_requestCancel (p : TaskId → TaskInstance → Bool) :
    Extends s (s.requestCancel p) := by
  refine ⟨le_rfl, id, fun id i found => ?_⟩
  simp only [requestCancel, found, Option.map_some, Option.some.injEq, exists_eq_left']
  split <;> simp

theorem originOf_requestCancel (p : TaskId → TaskInstance → Bool) (j : TaskId) :
    (s.requestCancel p).originOf j = s.originOf j := by
  cases found : s.instances j with
  | none => simp only [originOf, requestCancel, found, Option.map_none]
  | some i =>
      simp only [originOf, requestCancel, found, Option.map_some]
      split <;> rfl

theorem isPeriodic_requestCancel (p : TaskId → TaskInstance → Bool) (j : TaskId) :
    (s.requestCancel p).isPeriodic j = s.isPeriodic j := by
  cases found : s.instances j with
  | none => simp only [isPeriodic, requestCancel, found, Option.map_none]
  | some i =>
      simp only [isPeriodic, requestCancel, found, Option.map_some, Option.any_some]
      split <;> rfl

theorem settle_cases (w : Nat) (id : TaskId) (outcome : TaskOutcome) (n : Int) :
    s.settle w id outcome n = s ∨
    s.settle w id outcome n = s.setWorker w (.removing id) ∨
    ∃ i, s.instances id = some i ∧ i.task.interval ≠ 0 ∧ outcome.status.isOk ∧
      s.settle w id outcome n = (s.schedulePeriodicTaskInternal i n).setWorker w .idle := by
  unfold settle
  split
  · exact .inl rfl
  · rename_i i found
    split
    · exact .inr (.inl rfl)
    · rename_i again
      rw [not_or, not_not] at again
      exact .inr (.inr ⟨i, found, again.1, again.2, rfl⟩)

theorem fresh_create (fresh : Fresh s) (i : TaskInstance) : Fresh (s.create i) := by
  intro id above
  have other : id ≠ s.nextTaskId := Nat.ne_of_gt above
  simp only [create, Function.update_of_ne other]
  exact fresh id (Nat.le_of_succ_le above)

theorem fresh_requestCancel (fresh : Fresh s) (p : TaskId → TaskInstance → Bool) :
    Fresh (s.requestCancel p) := by
  intro id above
  simp only [requestCancel, fresh id above, Option.map_none]

theorem step_extends (h : step s a = some t) (fresh : Fresh s) : Extends s t ∧ Fresh t := by
  cases a with
  | start n =>
      cases h
      unfold start
      split
      · exact ⟨.of_instances rfl le_rfl id, fresh⟩
      · exact ⟨.of_instances rfl le_rfl id, fresh⟩
  | scheduleTask task =>
      cases h
      unfold scheduleTask
      split
      · exact ⟨.of_instances rfl le_rfl id, fresh⟩
      · exact ⟨(extends_create fresh _).trans (.of_instances rfl le_rfl id), fresh_create fresh _⟩
  | cancelTask id =>
      cases h
      unfold cancelTask
      split
      · exact ⟨extends_requestCancel _, fresh_requestCancel fresh _⟩
      · exact ⟨.of_instances rfl le_rfl fun h => h, fresh⟩
  | cancelAllTasks type =>
      cases h
      exact ⟨extends_requestCancel _, fresh_requestCancel fresh _⟩
  | endTask w id outcome n =>
      simp only [step] at h
      split_ifs at h
      cases h
      obtain same | same | ⟨i, -, -, -, same⟩ := s.settle_cases w id outcome n
      · rw [same]
        exact ⟨.of_instances rfl le_rfl fun h => h, fresh⟩
      · rw [same]
        exact ⟨.of_instances rfl le_rfl fun h => h, fresh⟩
      · rw [same]
        exact ⟨(extends_create fresh _).trans (.of_instances rfl le_rfl fun h => h),
          fresh_create fresh _⟩
  | shutdown =>
      simp only [step] at h
      split_ifs at h with down
      · cases h
        exact ⟨.of_instances rfl le_rfl id, fresh⟩
      · cases h
        exact ⟨.of_instances rfl le_rfl fun _ => rfl, fresh⟩
  | _ =>
      simp only [step] at h
      try split_ifs at h
      all_goals
        cases h
        exact ⟨.of_instances rfl le_rfl fun h => h, fresh⟩

def Reached (s : BackgroundTaskManager) : WorkerStage → Prop
  | .idle => True
  | .looking => s.shutdown = false
  | .holding id => .looking ∈ s.workers ∧ id ∈ s.taskQueue
  | .ready id => .holding id ∈ s.workers ∧ s.cancelRequested id = false
  | .running id => .ready id ∈ s.workers
  | .removing id => .holding id ∈ s.workers ∨ .running id ∈ s.workers

structure Entered (s t : BackgroundTaskManager) : Prop where
  workers : ∀ b ∈ t.workers, b ∈ s.workers ∨ s.Reached b
  taskQueue : ∀ id ∈ t.taskQueue, id ∈ s.taskQueue ∨ id ∈ s.submitting ∨ id ∈ s.woken
  submitting : ∀ id ∈ t.submitting, id ∈ s.submitting ∨
    id = s.nextTaskId ∧ t.originOf id = some id
  sleeping : ∀ id ∈ t.sleeping, id ∈ s.sleeping ∨
    ∃ k, .running k ∈ s.workers ∧ s.isPeriodic k ∧ t.originOf id = s.originOf k
  woken : ∀ id ∈ t.woken, id ∈ s.woken ∨ id ∈ s.sleeping ∧ s.shutdown = false
  activeTasks : ∀ id ∈ t.activeTasks, id ∈ s.activeTasks ∨ id ∈ s.submitting ∨ id ∈ s.woken

structure SameWaiting (s t : BackgroundTaskManager) : Prop where
  taskQueue : t.taskQueue ⊆ s.taskQueue := by exact fun _ h => h
  submitting : t.submitting = s.submitting := by rfl
  sleeping : t.sleeping ⊆ s.sleeping := by exact fun _ h => h
  woken : t.woken = s.woken := by rfl
  activeTasks : t.activeTasks ⊆ s.activeTasks := by exact fun _ h => h

theorem Entered.of_workers (waiting : SameWaiting s t)
    (workers : ∀ b ∈ t.workers, b ∈ s.workers ∨ s.Reached b) : Entered s t where
  workers := workers
  taskQueue _ mem := .inl (waiting.taskQueue mem)
  submitting _ mem := .inl (waiting.submitting ▸ mem)
  sleeping _ mem := .inl (waiting.sleeping mem)
  woken _ mem := .inl (waiting.woken ▸ mem)
  activeTasks _ mem := .inl (waiting.activeTasks mem)

theorem Entered.of_set (w : Nat) (b : WorkerStage) (waiting : SameWaiting s t)
    (workers : t.workers = s.workers.set w b) (reached : s.Reached b) : Entered s t := by
  refine .of_workers waiting fun c mem => ?_
  rw [workers] at mem
  obtain mem | rfl := List.mem_or_eq_of_mem_set mem
  · exact .inl mem
  · exact .inr reached

theorem settle_entered (w : Nat) (id : TaskId) (outcome : TaskOutcome) (n : Int)
    (runs : .running id ∈ s.workers) : Entered s (s.settle w id outcome n) := by
  obtain same | same | ⟨i, found, periodic, -, same⟩ := s.settle_cases w id outcome n
  · rw [same]
    exact .of_workers {} fun _ => .inl
  · rw [same]
    exact .of_set w (.removing id) {} rfl (.inr runs)
  · rw [same]
    refine ⟨?_, fun _ => .inl, fun _ => .inl, fun j mem => ?_, fun _ => .inl, fun _ => .inl⟩
    · intro c mem
      obtain mem | rfl := List.mem_or_eq_of_mem_set mem
      · exact .inl mem
      · exact .inr trivial
    · obtain rfl | mem := Multiset.mem_cons.mp mem
      · refine .inr ⟨id, runs, ?_, ?_⟩
        · simp [isPeriodic, found, periodic]
        · simp [originOf, setWorker, schedulePeriodicTaskInternal, create, found]
      · exact .inl mem

theorem push_entered {u : BackgroundTaskManager} (id : TaskId)
    (came : id ∈ s.submitting ∨ id ∈ s.woken) (workers : u.workers = s.workers)
    (taskQueue : u.taskQueue = s.taskQueue) (submitting : u.submitting ⊆ s.submitting)
    (sleeping : u.sleeping = s.sleeping) (woken : u.woken ⊆ s.woken)
    (activeTasks : u.activeTasks = s.activeTasks) : Entered s (u.push id) := by
  refine ⟨fun b mem => .inl (workers ▸ mem), fun j mem => ?_, fun j mem => .inl (submitting mem),
    fun j mem => .inl (sleeping ▸ mem), fun j mem => .inl (woken mem), fun j mem => ?_⟩
  · obtain rfl | mem := Multiset.mem_cons.mp mem
    · exact .inr came
    · exact .inl (taskQueue ▸ mem)
  · obtain rfl | mem := Finset.mem_insert.mp mem
    · exact .inr came
    · exact .inl (activeTasks ▸ mem)

theorem step_entered (h : step s a = some t) : Entered s t := by
  cases a with
  | start n =>
      cases h
      unfold start
      split
      · exact .of_workers {} fun _ => .inl
      · refine .of_workers {} fun b mem => ?_
        obtain old | new := List.mem_append.mp mem
        · exact .inl old
        · rw [List.eq_of_mem_replicate new]
          exact .inr trivial
  | scheduleTask task =>
      cases h
      unfold scheduleTask
      split
      · exact .of_workers {} fun _ => .inl
      · refine ⟨fun _ => .inl, fun _ => .inl, fun id mem => ?_, fun _ => .inl, fun _ => .inl,
          fun _ => .inl⟩
        obtain rfl | mem := Multiset.mem_cons.mp mem
        · exact .inr ⟨rfl, by simp [originOf, create]⟩
        · exact .inl mem
  | submit id =>
      simp only [step] at h
      split_ifs at h with mem
      cases h
      exact push_entered id (.inl mem) rfl rfl (Multiset.erase_subset _ _) rfl (fun _ h => h)
        rfl
  | deliver id =>
      simp only [step] at h
      split_ifs at h with mem
      cases h
      exact push_entered id (.inr mem) rfl rfl (fun _ h => h) rfl (Multiset.erase_subset _ _) rfl
  | cancelTask id =>
      cases h
      unfold cancelTask
      split <;> exact .of_workers {} fun _ => .inl
  | enterLoop w =>
      simp only [step] at h
      split_ifs at h with free
      cases h
      exact .of_set w .looking {} rfl free.2.1
  | getNextTask w id =>
      simp only [step] at h
      split_ifs at h with free
      cases h
      exact .of_set w (.holding id) { taskQueue := Multiset.erase_subset _ _ } rfl
        ⟨List.mem_of_getElem? free.1, free.2.1⟩
  | findNoTask w =>
      simp only [step] at h
      split_ifs at h
      cases h
      exact .of_set w .idle {} rfl trivial
  | checkCancel w id =>
      simp only [step] at h
      split_ifs at h with held flag
      · cases h
        exact .of_set w (.removing id) {} rfl (.inl (List.mem_of_getElem? held))
      · cases h
        exact .of_set w (.ready id) {} rfl
          ⟨List.mem_of_getElem? held, Bool.eq_false_iff.mpr flag⟩
  | removeTask w id =>
      simp only [step] at h
      split_ifs at h
      cases h
      exact .of_set w .idle { activeTasks := Finset.erase_subset _ _ } rfl trivial
  | startTask w id =>
      simp only [step] at h
      split_ifs at h with held
      cases h
      exact .of_set w (.running id) {} rfl (List.mem_of_getElem? held)
  | endTask w id outcome n =>
      simp only [step] at h
      split_ifs at h with held
      cases h
      exact settle_entered w id outcome n (List.mem_of_getElem? held)
  | wake id =>
      simp only [step] at h
      split_ifs at h with due stop
      · cases h
        exact .of_workers { sleeping := Multiset.erase_subset _ _ } fun _ => .inl
      · cases h
        refine ⟨fun _ => .inl, fun _ => .inl, fun _ => .inl,
          fun j left => .inl (Multiset.mem_of_mem_erase left), fun j mem => ?_, fun _ => .inl⟩
        obtain rfl | mem := Multiset.mem_cons.mp mem
        · exact .inr ⟨due.1, by simp_all⟩
        · exact .inl mem
  | shutdown =>
      simp only [step] at h
      split_ifs at h
      all_goals
        cases h
        exact .of_workers {} fun _ => .inl
  | join =>
      simp only [step] at h
      split_ifs at h
      cases h
      refine .of_workers {
        taskQueue := Multiset.zero_subset _, activeTasks := Finset.empty_subset _ } fun b mem => ?_
      cases mem
  | cancelAllTasks | pauseExecution | resumeExecution | tick =>
      cases h
      exact .of_workers {} fun _ => .inl

structure Known (s : BackgroundTaskManager) : Prop where
  workers : ∀ b ∈ s.workers, ∀ id ∈ b.task, (s.originOf id).isSome
  taskQueue : ∀ id ∈ s.taskQueue, (s.originOf id).isSome
  submitting : ∀ id ∈ s.submitting, (s.originOf id).isSome
  sleeping : ∀ id ∈ s.sleeping, (s.originOf id).isSome
  woken : ∀ id ∈ s.woken, (s.originOf id).isSome
  activeTasks : ∀ id ∈ s.activeTasks, (s.originOf id).isSome

theorem Extends.originOf (e : Extends s t) {id : TaskId} (known : (s.originOf id).isSome) :
    t.originOf id = s.originOf id := by
  obtain ⟨i, found⟩ := Option.isSome_iff_exists.mp (Option.isSome_map ▸ known)
  obtain ⟨j, later, origin, -⟩ := e.instances id i found
  simp only [BackgroundTaskManager.originOf, found, later, Option.map_some, origin]

theorem Extends.isSome (e : Extends s t) {id : TaskId} (known : (s.originOf id).isSome) :
    (t.originOf id).isSome := by
  rw [e.originOf known]
  exact known

theorem Extends.isPeriodic (e : Extends s t) {id : TaskId} (known : (s.originOf id).isSome) :
    t.isPeriodic id = s.isPeriodic id := by
  obtain ⟨i, found⟩ := Option.isSome_iff_exists.mp (Option.isSome_map ▸ known)
  obtain ⟨j, later, -, interval, -⟩ := e.instances id i found
  simp only [BackgroundTaskManager.isPeriodic, found, later, Option.any_some, interval]

theorem Extends.cancelRequested (e : Extends s t) {id : TaskId}
    (flag : s.cancelRequested id = true) : t.cancelRequested id = true := by
  obtain ⟨i, found, set⟩ := Option.any_eq_true _ _ |>.mp flag
  obtain ⟨j, later, -, -, kept⟩ := e.instances id i found
  simp only [BackgroundTaskManager.cancelRequested, later, Option.any_some, kept set]

theorem Known.reached (known : Known s) {b : WorkerStage} (reached : s.Reached b) :
    ∀ id ∈ b.task, (s.originOf id).isSome := by
  intro id mem
  cases b with
  | idle | looking => cases mem
  | holding j =>
      cases mem
      exact known.taskQueue id reached.2
  | ready j =>
      cases mem
      exact known.workers _ reached.1 id rfl
  | running j =>
      cases mem
      exact known.workers _ reached id rfl
  | removing j =>
      cases mem
      obtain held | held := reached
      · exact known.workers _ held id rfl
      · exact known.workers _ held id rfl

theorem step_known (h : step s a = some t) (fresh : Fresh s) (known : Known s) : Known t := by
  have entered := step_entered h
  obtain ⟨kept, -⟩ := step_extends h fresh
  constructor
  · intro b mem id task
    obtain old | reached := entered.workers b mem
    · exact kept.isSome (known.workers b old id task)
    · exact kept.isSome (known.reached reached id task)
  · intro id mem
    obtain old | old | old := entered.taskQueue id mem
    · exact kept.isSome (known.taskQueue id old)
    · exact kept.isSome (known.submitting id old)
    · exact kept.isSome (known.woken id old)
  · intro id mem
    obtain old | ⟨-, origin⟩ := entered.submitting id mem
    · exact kept.isSome (known.submitting id old)
    · rw [origin]
      rfl
  · intro id mem
    obtain old | ⟨k, runs, -, origin⟩ := entered.sleeping id mem
    · exact kept.isSome (known.sleeping id old)
    · rw [origin]
      exact known.workers _ runs k rfl
  · intro id mem
    obtain old | ⟨old, -⟩ := entered.woken id mem
    · exact kept.isSome (known.woken id old)
    · exact kept.isSome (known.sleeping id old)
  · intro id mem
    obtain old | old | old := entered.activeTasks id mem
    · exact kept.isSome (known.activeTasks id old)
    · exact kept.isSome (known.submitting id old)
    · exact kept.isSome (known.woken id old)

theorem known_initial : Known {} := by
  constructor <;> intro _ mem <;> simp at mem

theorem run_known (run : Run step free {} s) : Fresh s ∧ Known s := by
  refine Run.invariant (p := fun s => Fresh s ∧ Known s) ?_ run ⟨fun _ _ => rfl, known_initial⟩
  intro s a t _ h ⟨fresh, known⟩
  exact ⟨(step_extends h fresh).2, step_known h fresh known⟩

end Lrdb.BackgroundTaskManager
