import Mathlib.Algebra.BigOperators.Group.List.Basic
import Lrdb.Background.ActiveTable

namespace Lrdb.BackgroundTaskManager
open Runs

variable {s t u : BackgroundTaskManager} {a : Action} {id : TaskId}

structure Fades (f : WorkerStage → Multiset TaskId) : Prop where
  idle : f .idle = 0
  looking : f .looking = 0
  holding : ∀ id, f (.holding id) = {id}
  ready : ∀ id, f (.ready id) ≤ f (.holding id)
  running : ∀ id, f (.running id) ≤ f (.ready id)
  removing : ∀ id, f (.removing id) ≤ f (.running id)

def placesBy (f : WorkerStage → Multiset TaskId) (s : BackgroundTaskManager) : Multiset TaskId :=
  s.submitting + s.taskQueue + s.sleeping + s.woken + (s.workers.map f).sum

def waits : WorkerStage → Multiset TaskId
  | .holding id | .ready id => {id}
  | .idle | .looking | .running _ | .removing _ => 0

def handles : WorkerStage → Multiset TaskId
  | .holding id | .ready id | .running id | .removing id => {id}
  | .idle | .looking => 0

theorem fades_waits : Fades waits where
  idle := rfl
  looking := rfl
  holding _ := rfl
  ready _ := le_rfl
  running _ := Multiset.zero_le _
  removing _ := le_rfl

theorem fades_handles : Fades handles where
  idle := rfl
  looking := rfl
  holding _ := rfl
  ready _ := le_rfl
  running _ := le_rfl
  removing _ := le_rfl

theorem waits_subset (b : WorkerStage) : waits b ⊆ handles b := by
  cases b with
  | idle | looking | holding id | ready id => exact Multiset.Subset.refl _
  | running id | removing id => exact Multiset.zero_subset _

def Moves (f : WorkerStage → Multiset TaskId) (s t : BackgroundTaskManager) : Prop :=
  t.placesBy f ≤ s.placesBy f ∨
    t.nextTaskId = s.nextTaskId + 1 ∧ t.placesBy f ≤ s.nextTaskId ::ₘ s.placesBy f

variable {f : WorkerStage → Multiset TaskId}

theorem sum_set {workers : List WorkerStage} {w : Nat} {b : WorkerStage} (stage : workers[w]? = some b)
    (c : WorkerStage) : (workers.map f).sum = f b + ((workers.eraseIdx w).map f).sum ∧
      ((workers.set w c).map f).sum = f c + ((workers.eraseIdx w).map f).sum := by
  obtain ⟨inside, rfl⟩ := List.getElem?_eq_some_iff.mp stage
  constructor
  · rw [← List.sum_cons, ← List.map_cons]
    exact ((List.getElem_cons_eraseIdx_perm inside).symm.map f).sum_eq
  · rw [← List.sum_cons, ← List.map_cons]
    exact ((List.set_perm_cons_eraseIdx inside c).map f).sum_eq

theorem placesBy_setWorker {w : Nat} {b c : WorkerStage} (stage : s.workers[w]? = some b)
    (less : f c ≤ f b) : (s.setWorker w c).placesBy f ≤ s.placesBy f := by
  obtain ⟨before, after⟩ := @sum_set f _ _ _ stage c
  simp only [placesBy, setWorker, before, after]
  exact add_le_add_right (add_le_add_left less _) _

/-! One lemma for each action that moves a task. -/

theorem moves_start (fades : Fades f) (n : Nat) : Moves f s (s.start n) := by
  refine .inl (le_of_eq ?_)
  unfold start
  split
  · rfl
  · simp [placesBy, fades.idle]

theorem moves_scheduleTask (task : BackgroundTask) : Moves f s (s.scheduleTask task) := by
  unfold scheduleTask
  split
  · exact .inl le_rfl
  · exact .inr ⟨rfl, by simp [placesBy, create, Multiset.cons_add]⟩

theorem moves_submit (submitted : id ∈ s.submitting) :
    Moves f s ({ s with submitting := s.submitting.erase id }.push id) := by
  obtain ⟨rest, split⟩ := Multiset.exists_cons_of_mem submitted
  refine .inl (le_of_eq ?_)
  simp [placesBy, push, split, Multiset.cons_add]

theorem moves_deliver (due : id ∈ s.woken) :
    Moves f s ({ s with woken := s.woken.erase id }.push id) := by
  obtain ⟨rest, split⟩ := Multiset.exists_cons_of_mem due
  refine .inl (le_of_eq ?_)
  simp [placesBy, push, split, Multiset.cons_add]

theorem moves_getNextTask (fades : Fades f) {w : Nat} (stage : s.workers[w]? = some .looking)
    (queued : id ∈ s.taskQueue) :
    Moves f s ({ s with taskQueue := s.taskQueue.erase id }.setWorker w (.holding id)) := by
  obtain ⟨rest, split⟩ := Multiset.exists_cons_of_mem queued
  obtain ⟨before, after⟩ := @sum_set f _ _ _ stage (.holding id)
  refine .inl (le_of_eq ?_)
  simp only [placesBy, setWorker, split, before, after, fades.looking, fades.holding]
  simp [Multiset.cons_add]

theorem moves_checkCancel (fades : Fades f) {w : Nat} (stage : s.workers[w]? = some (.holding id)) :
    Moves f s (s.setWorker w (if s.cancelRequested id then .removing id else .ready id)) := by
  refine .inl (placesBy_setWorker stage ?_)
  split
  · exact (fades.removing id).trans ((fades.running id).trans (fades.ready id))
  · exact fades.ready id

theorem moves_removeTask (fades : Fades f) {w : Nat} (stage : s.workers[w]? = some (.removing id)) :
    Moves f s ((s.removeTask id).setWorker w .idle) := by
  have stage : (s.removeTask id).workers[w]? = some (.removing id) := stage
  exact .inl (placesBy_setWorker stage (by rw [fades.idle]; exact Multiset.zero_le _))

theorem moves_settle (fades : Fades f) {w : Nat} (stage : s.workers[w]? = some (.running id))
    (outcome : TaskOutcome) (n : Int) : Moves f s (s.settle w id outcome n) := by
  obtain same | same | ⟨i, _, _, _, same⟩ := s.settle_cases w id outcome n
  · exact .inl (le_of_eq (by rw [same]))
  · exact .inl (same ▸ placesBy_setWorker stage (fades.removing id))
  · have stage : (s.schedulePeriodicTaskInternal i n).workers[w]? = some (.running id) := stage
    refine .inr ⟨by rw [same]; rfl, same ▸ (placesBy_setWorker stage ?_).trans (le_of_eq ?_)⟩
    · rw [fades.idle]
      exact Multiset.zero_le _
    · simp [placesBy, schedulePeriodicTaskInternal, create, Multiset.cons_add]

theorem moves_wake (asleep : id ∈ s.sleeping) :
    Moves f s { s with sleeping := s.sleeping.erase id, woken := id ::ₘ s.woken } := by
  obtain ⟨rest, split⟩ := Multiset.exists_cons_of_mem asleep
  refine .inl (le_of_eq ?_)
  simp [placesBy, split, Multiset.cons_add]

theorem moves_erase : Moves f s { s with sleeping := s.sleeping.erase id } := by
  refine .inl ?_
  simp only [placesBy]
  gcongr
  exact Multiset.erase_le _ _

theorem moves_join : Moves f s { s with
    workers := [], taskQueue := 0, activeTasks := ∅, initialized := false, joining := false } := by
  refine .inl ?_
  simp only [placesBy]
  gcongr
  · exact Multiset.zero_le _
  · exact Multiset.zero_le _

theorem step_moves (fades : Fades f) (h : step s a = some t) : Moves f s t := by
  cases a with
  | start n =>
      cases h
      exact moves_start fades n
  | scheduleTask task =>
      cases h
      exact moves_scheduleTask task
  | submit id =>
      obtain ⟨submitted, same⟩ := Option.ite_none_right_eq_some.mp h
      cases same
      exact moves_submit submitted
  | deliver id =>
      obtain ⟨due, same⟩ := Option.ite_none_right_eq_some.mp h
      cases same
      exact moves_deliver due
  | cancelTask id =>
      cases h
      refine .inl (le_of_eq ?_)
      unfold cancelTask
      split <;> rfl
  | enterLoop w =>
      obtain ⟨free, same⟩ := Option.ite_none_right_eq_some.mp h
      cases same
      exact .inl (placesBy_setWorker free.1 (by rw [fades.idle, fades.looking]))
  | getNextTask w id =>
      obtain ⟨free, same⟩ := Option.ite_none_right_eq_some.mp h
      cases same
      exact moves_getNextTask fades free.1 free.2.1
  | findNoTask w =>
      obtain ⟨free, same⟩ := Option.ite_none_right_eq_some.mp h
      cases same
      exact .inl (placesBy_setWorker free.1 (by rw [fades.idle, fades.looking]))
  | checkCancel w id =>
      obtain ⟨stage, same⟩ := Option.ite_none_right_eq_some.mp h
      cases same
      exact moves_checkCancel fades stage
  | removeTask w id =>
      obtain ⟨stage, same⟩ := Option.ite_none_right_eq_some.mp h
      cases same
      exact moves_removeTask fades stage
  | startTask w id =>
      obtain ⟨stage, same⟩ := Option.ite_none_right_eq_some.mp h
      cases same
      exact .inl (placesBy_setWorker stage (fades.running id))
  | endTask w id outcome n =>
      obtain ⟨stage, same⟩ := Option.ite_none_right_eq_some.mp h
      cases same
      exact moves_settle fades stage outcome n
  | wake id =>
      simp only [step] at h
      split_ifs at h with due stop <;> cases h
      · exact moves_erase
      · exact moves_wake due.1
  | shutdown =>
      simp only [step] at h
      split_ifs at h <;> (cases h; exact .inl le_rfl)
  | join =>
      obtain ⟨-, same⟩ := Option.ite_none_right_eq_some.mp h
      cases same
      exact moves_join
  | cancelAllTasks | pauseExecution | resumeExecution | tick =>
      cases h
      exact .inl le_rfl

/-! ## One place at a time -/

structure Recorded (s : BackgroundTaskManager) : Prop where
  taskQueue : ∀ id ∈ s.taskQueue, id ∈ s.activeTasks
  workers : ∀ b ∈ s.workers, ∀ id ∈ handles b, id ∈ s.activeTasks

structure Placed (s : BackgroundTaskManager) : Prop where
  nodup : (s.placesBy handles).Nodup
  below : ∀ id ∈ s.placesBy handles, id < s.nextTaskId

theorem mem_sum {workers : List WorkerStage} :
    id ∈ (workers.map f).sum ↔ ∃ b ∈ workers, id ∈ f b := by
  induction workers with
  | nil => simp
  | cons b rest ih => simp [ih]

theorem Recorded.staged (recorded : s.Recorded) {w : Nat} {c : WorkerStage}
    (known : ∀ id ∈ handles c, id ∈ s.activeTasks) : (s.setWorker w c).Recorded := by
  refine ⟨recorded.taskQueue, fun b mem id handled => ?_⟩
  obtain mem | rfl := List.mem_or_eq_of_mem_set mem
  · exact recorded.workers b mem id handled
  · exact known id handled

theorem Recorded.pushed (recorded : s.Recorded) {v : BackgroundTaskManager} {j : TaskId}
    (taskQueue : v.taskQueue = s.taskQueue) (activeTasks : v.activeTasks = s.activeTasks)
    (workers : v.workers = s.workers) : (v.push j).Recorded := by
  refine ⟨fun id mem => ?_, fun b mem id handled => ?_⟩
  · obtain rfl | mem := Multiset.mem_cons.mp mem
    · exact Finset.mem_insert_self _ _
    · exact Finset.mem_insert_of_mem (activeTasks ▸ recorded.taskQueue id (taskQueue ▸ mem))
  · exact Finset.mem_insert_of_mem (activeTasks ▸ recorded.workers b (workers ▸ mem) id handled)

theorem Recorded.removed (recorded : s.Recorded) (placed : s.Placed) {w : Nat} {j : TaskId}
    (stage : s.workers[w]? = some (.removing j)) : ((s.removeTask j).setWorker w .idle).Recorded := by
  obtain ⟨before, after⟩ := @sum_set handles _ _ _ stage .idle
  have nodup := placed.nodup
  rw [placesBy, before, handles, Multiset.singleton_add, Multiset.add_cons, Multiset.nodup_cons] at nodup
  have absent := nodup.1
  simp only [Multiset.mem_add, not_or] at absent
  refine ⟨fun id mem => ?_, fun b mem id handled => ?_⟩
  · refine Finset.mem_erase.mpr ⟨?_, recorded.taskQueue id mem⟩
    rintro rfl
    exact absent.1.1.1.2 mem
  · have held : id ∈ ((s.workers.eraseIdx w).map handles).sum := by
      have counted : id ∈ ((s.workers.set w .idle).map handles).sum := mem_sum.mpr ⟨b, mem, handled⟩
      rw [after, handles, zero_add] at counted
      exact counted
    have old : id ∈ (s.workers.map handles).sum := by
      rw [before]
      exact Multiset.mem_add.mpr (.inr held)
    obtain ⟨c, inside, handled⟩ := mem_sum.mp old
    refine Finset.mem_erase.mpr ⟨?_, recorded.workers c inside id handled⟩
    rintro rfl
    exact absent.2 held

theorem step_recorded (h : step s a = some t) (placed : s.Placed) (recorded : s.Recorded) :
    t.Recorded := by
  have stay : ∀ {w : Nat} {b c : WorkerStage}, s.workers[w]? = some b → handles c ⊆ handles b →
      (s.setWorker w c).Recorded := fun stage sub => recorded.staged fun id mem =>
    recorded.workers _ (List.mem_of_getElem? stage) id (sub mem)
  cases a with
  | start n =>
      cases h
      unfold start
      split
      · exact recorded
      · refine ⟨recorded.taskQueue, fun b mem id handled => ?_⟩
        obtain old | new := List.mem_append.mp mem
        · exact recorded.workers b old id handled
        · rw [List.eq_of_mem_replicate new] at handled
          cases handled
  | scheduleTask task =>
      cases h
      unfold scheduleTask
      split
      · exact recorded
      · exact ⟨recorded.taskQueue, recorded.workers⟩
  | submit id | deliver id =>
      simp only [step] at h
      split_ifs at h with mem
      cases h
      exact recorded.pushed rfl rfl rfl
  | cancelTask id =>
      cases h
      unfold cancelTask
      split
      · exact ⟨recorded.taskQueue, recorded.workers⟩
      · exact recorded
  | enterLoop w | findNoTask w =>
      simp only [step] at h
      split_ifs at h with free
      cases h
      exact stay free.1 (Multiset.Subset.refl _)
  | getNextTask w id =>
      simp only [step] at h
      split_ifs at h with free
      cases h
      have recorded : ({ s with taskQueue := s.taskQueue.erase id } : BackgroundTaskManager).Recorded :=
        ⟨fun j mem => recorded.taskQueue j (Multiset.mem_of_mem_erase mem), recorded.workers⟩
      refine recorded.staged fun j mem => ?_
      obtain rfl := Multiset.mem_singleton.mp mem
      exact Recorded.taskQueue ‹s.Recorded› j free.2.1
  | checkCancel w id =>
      simp only [step] at h
      split_ifs at h with stage
      all_goals
        cases h
        exact stay stage (Multiset.Subset.refl _)
  | removeTask w id =>
      simp only [step] at h
      split_ifs at h with stage
      cases h
      exact recorded.removed placed stage
  | startTask w id =>
      simp only [step] at h
      split_ifs at h with stage
      cases h
      exact stay stage (Multiset.Subset.refl _)
  | endTask w id outcome n =>
      simp only [step] at h
      split_ifs at h with stage
      cases h
      obtain same | same | ⟨i, _, _, _, same⟩ := s.settle_cases w id outcome n
      · rw [same]
        exact recorded
      · exact same ▸ stay stage (Multiset.Subset.refl _)
      · have idle := stay (c := .idle) stage (Multiset.zero_subset _)
        exact same ▸ ⟨idle.taskQueue, idle.workers⟩
  | wake id | shutdown =>
      simp only [step] at h
      split_ifs at h
      all_goals
        cases h
        exact ⟨recorded.taskQueue, recorded.workers⟩
  | join =>
      simp only [step] at h
      split_ifs at h
      cases h
      exact ⟨by simp, by simp⟩
  | cancelAllTasks | pauseExecution | resumeExecution | tick =>
      cases h
      exact ⟨recorded.taskQueue, recorded.workers⟩

theorem step_placed (h : step s a = some t) (extends_ : s.nextTaskId ≤ t.nextTaskId)
    (placed : s.Placed) : t.Placed := by
  obtain less | ⟨next, less⟩ := step_moves fades_handles h
  · exact ⟨Multiset.nodup_of_le less placed.nodup,
      fun id mem => (placed.below id (Multiset.mem_of_le less mem)).trans_le extends_⟩
  · refine ⟨Multiset.nodup_of_le less (Multiset.nodup_cons.mpr ⟨fun mem => ?_, placed.nodup⟩),
      fun id mem => ?_⟩
    · exact Nat.lt_irrefl _ (placed.below _ mem)
    · rw [next]
      obtain rfl | mem := Multiset.mem_cons.mp (Multiset.mem_of_le less mem)
      · exact Nat.lt_succ_self _
      · exact (placed.below id mem).trans (Nat.lt_succ_self _)

theorem run_placed (run : Run step free {} s) : Fresh s ∧ s.Placed ∧ s.Recorded := by
  refine Run.invariant (p := fun s => Fresh s ∧ s.Placed ∧ s.Recorded) ?_ run
    ⟨fun _ _ => rfl, ⟨by simp [placesBy], by simp [placesBy]⟩, ⟨by simp, by simp⟩⟩
  rintro s a t - h ⟨fresh, placed, recorded⟩
  have grown := step_extends h fresh
  exact ⟨grown.2, step_placed h grown.1.nextTaskId placed, step_recorded h placed recorded⟩

/-! ## Once -/

def Taken (id : TaskId) (s : BackgroundTaskManager) : Prop :=
  id < s.nextTaskId ∧ id ∉ s.placesBy waits

theorem step_taken (h : step s a = some t) (grown : s.nextTaskId ≤ t.nextTaskId) (taken : s.Taken id) :
    t.Taken id := by
  refine ⟨taken.1.trans_le grown, fun mem => ?_⟩
  obtain less | ⟨next, less⟩ := step_moves fades_waits h
  · exact taken.2 (Multiset.mem_of_le less mem)
  · obtain rfl | mem := Multiset.mem_cons.mp (Multiset.mem_of_le less mem)
    · exact Nat.lt_irrefl _ taken.1
    · exact taken.2 mem

theorem taken_of_run (run : Run step free {} s) (taken : s.Taken id) (later : Run step free s t) :
    t.Taken id :=
  (Run.invariant (p := fun s => Fresh s ∧ s.Taken id)
    (fun _ _ _ _ h ⟨fresh, taken⟩ =>
      have grown := step_extends h fresh
      ⟨grown.2, step_taken h grown.1.nextTaskId taken⟩)
    later ⟨(run_placed run).1, taken⟩).2

theorem Taken.not_started (taken : s.Taken id) (w : Nat) : step s (.startTask w id) = none := by
  refine if_neg fun stage => taken.2 (Multiset.mem_add.mpr (.inr ?_))
  exact mem_sum.mpr ⟨.ready id, List.mem_of_getElem? stage, Multiset.mem_singleton_self id⟩

theorem taken_of_start (placed : s.Placed) {w : Nat} (starts : step s (.startTask w id) = some t) :
    t.Taken id := by
  simp only [step] at starts
  split_ifs at starts with stage
  cases starts
  have nodup := placed.nodup
  obtain ⟨before, _⟩ := @sum_set handles _ _ _ stage (.running id)
  obtain ⟨_, after⟩ := @sum_set waits _ _ _ stage (.running id)
  rw [placesBy, before, handles, Multiset.singleton_add, Multiset.add_cons, Multiset.nodup_cons] at nodup
  refine ⟨placed.below id ?_, fun mem => nodup.1 ?_⟩
  · rw [placesBy, before, handles]
    simp
  · rw [placesBy] at mem
    simp only [setWorker, after, waits, zero_add] at mem
    obtain elsewhere | handled := Multiset.mem_add.mp mem
    · exact Multiset.mem_add.mpr (.inl elsewhere)
    · obtain ⟨b, inside, waiting⟩ := mem_sum.mp handled
      exact Multiset.mem_add.mpr (.inr (mem_sum.mpr ⟨b, inside, waits_subset b waiting⟩))

/-- In no run is the function of a task object started twice. -/
theorem runs_once {w : Nat} (run : Run step free {} s) (starts : step s (.startTask w id) = some t)
    (later : Run step free t u) (v : Nat) : step u (.startTask v id) = none :=
  (taken_of_run (run.tail ⟨_, trivial, starts⟩) (taken_of_start (run_placed run).2.1 starts)
    later).not_started v

def checkFirst : List Action :=
  [.start 2, .scheduleTask {}, .submit 1, .scheduleTask {}, .submit 2, .enterLoop 0,
    .getNextTask 0 1, .checkCancel 0 1]

def endFirst : List Action :=
  [.enterLoop 1, .getNextTask 1 2, .checkCancel 1 2, .endTask 0 1 (.returned .ok) 0, .removeTask 0 1]

theorem runs_once_endFirst : ∃ s t u, execute step {} checkFirst = some s ∧
    step s (.startTask 0 1) = some t ∧ execute step t endFirst = some u ∧
      ∀ v, step u (.startTask v 1) = none := by
  have ran : ((execute step {} checkFirst).bind fun s =>
      (step s (.startTask 0 1)).bind fun t => execute step t endFirst).isSome := by decide +kernel
  obtain ⟨u, ran⟩ := Option.isSome_iff_exists.mp ran
  obtain ⟨s, reached, ran⟩ := Option.bind_eq_some_iff.mp ran
  obtain ⟨t, starts, later⟩ := Option.bind_eq_some_iff.mp ran
  exact ⟨s, t, u, reached, starts, later, runs_once (execute_run _ (allowed_free _ _ _) reached) starts
    (execute_run _ (allowed_free _ _ _) later)⟩

/-- What `WaitForAllTasks` waits for. -/
def allTasksDone (s : BackgroundTaskManager) : Bool := s.taskQueue = 0 ∧ s.activeTasks = ∅

/-- When `WaitForAllTasks` returns OK, no worker has a task, and no task that was queued before will
ever start, whatever happens next. -/
theorem waitForAllTasks_ok (run : Run step free {} s) (done : s.allTasksDone = true) :
    (∀ b ∈ s.workers, b.task = none) ∧ ∀ id < s.nextTaskId, id ∉ s.submitting → id ∉ s.sleeping →
      id ∉ s.woken → ∀ u, Run step free s u → ∀ w, step u (.startTask w id) = none := by
  obtain ⟨empty, inactive⟩ := of_decide_eq_true done
  have recorded := (run_placed run).2.2
  have unhandled : ∀ b ∈ s.workers, handles b = 0 := fun b mem =>
    Multiset.eq_zero_of_forall_notMem fun id handled => by
      simpa [inactive] using recorded.workers b mem id handled
  refine ⟨fun b mem => ?_, fun id below submitted asleep awake u later w => ?_⟩
  · have none := unhandled b mem
    cases b with
    | idle | looking => rfl
    | holding id | ready id | running id | removing id => cases Multiset.singleton_ne_zero id none
  · refine (taken_of_run run ⟨below, fun mem => ?_⟩ later).not_started w
    simp only [placesBy, empty, Multiset.mem_add, submitted, asleep, awake, Multiset.notMem_zero,
      or_self, false_or] at mem
    obtain ⟨b, inside, waiting⟩ := mem_sum.mp mem
    exact Multiset.notMem_zero id (unhandled b inside ▸ waits_subset b waiting)

theorem waitForAllTasks_ok_endTask : ∃ s, execute step {} (checkFirst ++ [.startTask 0 1] ++ endFirst ++
      [.startTask 1 2, .endTask 1 2 (.threw "full") 0, .removeTask 1 2]) = some s ∧
    (∀ b ∈ s.workers, b.task = none) ∧ ∀ id < s.nextTaskId, id ∉ s.submitting → id ∉ s.sleeping →
      id ∉ s.woken → ∀ u, Run step free s u → ∀ w, step u (.startTask w id) = none := by
  obtain ⟨s, executed, done⟩ : ∃ s, execute step {} (checkFirst ++ [.startTask 0 1] ++ endFirst ++
      [.startTask 1 2, .endTask 1 2 (.threw "full") 0, .removeTask 1 2]) = some s ∧
        s.allTasksDone = true := (Option.any_eq_true _ _).mp (by decide +kernel)
  exact ⟨s, executed, waitForAllTasks_ok (execute_run _ (allowed_free _ _ _) executed) done⟩

/-! ## After a shutdown -/

theorem step_joining (h : step s a = some t) (joining : s.joining = true → s.shutdown = true) :
    t.joining = true → t.shutdown = true := by
  cases a with
  | start n =>
      cases h
      unfold start
      split <;> exact joining
  | scheduleTask task =>
      cases h
      unfold scheduleTask
      split <;> exact joining
  | cancelTask id =>
      cases h
      unfold cancelTask
      split <;> exact joining
  | endTask w id outcome n =>
      simp only [step] at h
      split_ifs at h
      cases h
      obtain same | same | ⟨i, _, _, _, same⟩ := s.settle_cases w id outcome n
      all_goals
        rw [same]
        exact joining
  | shutdown =>
      simp only [step] at h
      split_ifs at h
      · cases h
        exact joining
      · cases h
        exact fun _ => rfl
  | join =>
      simp only [step] at h
      split_ifs at h
      cases h
      exact fun impossible => absurd impossible Bool.false_ne_true
  | _ =>
      simp only [step] at h
      try split_ifs at h
      all_goals
        cases h
        exact joining

def Stopped (s : BackgroundTaskManager) : Prop := s.shutdown = true ∧ ∀ b ∈ s.workers, b = .idle

theorem step_stopped (h : step s a = some t) (fresh : Fresh s) (stopped : s.Stopped) : t.Stopped := by
  refine ⟨(step_extends h fresh).1.shutdown stopped.1, fun b mem => ?_⟩
  obtain old | reached := (step_entered h).workers b mem
  · exact stopped.2 b old
  · cases b with
    | idle => rfl
    | looking => cases stopped.1.symm.trans reached
    | holding id => cases stopped.2 _ reached.1
    | ready id => cases stopped.2 _ reached.1
    | running id => cases stopped.2 _ reached
    | removing id => exact reached.elim (fun old => by cases stopped.2 _ old) fun old => by cases stopped.2 _ old

/-- After a completed shutdown no task starts any more, not even when the manager is initialized
again. -/
theorem nothing_starts_after_join (run : Run step free {} s) (joined : step s .join = some t)
    (later : Run step free t u) (w : Nat) (id : TaskId) : step u (.startTask w id) = none := by
  have joining : s.joining = true → s.shutdown = true :=
    Run.invariant (p := fun s => s.joining = true → s.shutdown = true)
      (fun _ _ _ _ h => step_joining h) run fun impossible => absurd impossible Bool.false_ne_true
  have fresh := (step_extends joined (run_placed run).1).2
  have stopped : t.Stopped := by
    simp only [step] at joined
    split_ifs at joined with done
    cases joined
    exact ⟨joining done.1, fun b mem => absurd mem List.not_mem_nil⟩
  have stopped : u.Stopped := (Run.invariant (p := fun s => Fresh s ∧ s.Stopped)
    (fun _ _ _ _ h both => ⟨(step_extends h both.1).2, step_stopped h both.1 both.2⟩)
    later ⟨fresh, stopped⟩).2
  refine if_neg fun stage => ?_
  cases stopped.2 _ (List.mem_of_getElem? stage)

theorem nothing_starts_after_join_start : ∃ s t u, execute step {} [.start 1, .shutdown] = some s ∧
    step s .join = some t ∧ execute step t [.start 1, .scheduleTask {}] = some u ∧
      ∀ w id, step u (.startTask w id) = none := by
  have ran : ((execute step {} [.start 1, .shutdown]).bind fun s =>
      (step s .join).bind fun t => execute step t [.start 1, .scheduleTask {}]).isSome := by decide +kernel
  obtain ⟨u, ran⟩ := Option.isSome_iff_exists.mp ran
  obtain ⟨s, reached, ran⟩ := Option.bind_eq_some_iff.mp ran
  obtain ⟨t, joined, later⟩ := Option.bind_eq_some_iff.mp ran
  exact ⟨s, t, u, reached, joined, later,
    nothing_starts_after_join (execute_run _ (allowed_free _ _ _) reached) joined
      (execute_run _ (allowed_free _ _ _) later)⟩

end Lrdb.BackgroundTaskManager
