import Lrdb.Background.TaskSteps
import Mathlib.Algebra.Order.Group.Multiset
import Mathlib.Data.Finset.Card
import Mathlib.Data.List.Perm.Basic

namespace Lrdb.BackgroundTaskManager
open Runs

variable {s t : BackgroundTaskManager} {a : Action} {id : TaskId}

def held (s : BackgroundTaskManager) : Multiset TaskId := s.workers.filterMap WorkerStage.task

def present (s : BackgroundTaskManager) : Multiset TaskId :=
  s.taskQueue + s.sleeping + s.woken + s.held

def periodsOf (s : BackgroundTaskManager) (id : TaskId) : Multiset TaskId :=
  s.present.filter fun j => s.originOf j = some id

def Cancelled (s : BackgroundTaskManager) (id : TaskId) : Prop :=
  ∃ j, s.originOf j = some id ∧ s.cancelRequested j = true

structure Exact (s : BackgroundTaskManager) : Prop where
  persists : s.shutdown = false → ∀ id, s.originOf id = some id → id ∉ s.submitting →
    s.isPeriodic id = true → ¬s.Cancelled id → (s.periodsOf id).card = 1
  activeTasks : ∀ id ∈ s.activeTasks, id ∈ s.present
  bounded : s.activeTasks.card ≤ s.present.card

/-- The run of a periodic task ends only as a failing one of a task that is to stop. -/
def EndsStopped (s : BackgroundTaskManager) : Action → Prop
  | .endTask _ id outcome _ => s.isPeriodic id = true →
      outcome.status.isOk = false ∧ (s.cancelRequested id = true ∨ s.shutdown = true)
  | _ => True

instance : (a : Action) → Decidable (s.EndsStopped a)
  | .endTask _ id outcome _ => inferInstanceAs (Decidable (s.isPeriodic id = true →
      outcome.status.isOk = false ∧ (s.cancelRequested id = true ∨ s.shutdown = true)))
  | .start _ | .scheduleTask _ | .submit _ | .cancelTask _ | .cancelAllTasks _ | .pauseExecution
  | .resumeExecution | .enterLoop _ | .getNextTask _ _ | .findNoTask _ | .checkCancel _ _
  | .removeTask _ _ | .startTask _ _ | .wake _ | .deliver _ | .shutdown | .join | .tick _ =>
      inferInstanceAs (Decidable True)

theorem held_set {w : Nat} {b : WorkerStage} (stage : s.workers[w]? = some b) (c : WorkerStage) :
    ∃ rest : Multiset TaskId, s.held = b.task.toList + rest ∧
      (s.setWorker w c).held = c.task.toList + rest := by
  have split (d : WorkerStage) (l : List WorkerStage) :
      (d :: l).filterMap WorkerStage.task = d.task.toList ++ l.filterMap WorkerStage.task := by
    rw [List.filterMap_cons]
    cases d.task <;> rfl
  obtain ⟨inside, rfl⟩ := List.getElem?_eq_some_iff.mp stage
  refine ⟨(s.workers.eraseIdx w).filterMap WorkerStage.task, ?_, ?_⟩
  · have moved := (List.getElem_cons_eraseIdx_perm inside).symm.filterMap WorkerStage.task
    rw [split] at moved
    exact Multiset.coe_eq_coe.mpr moved
  · have moved := (List.set_perm_cons_eraseIdx inside c).filterMap WorkerStage.task
    rw [split] at moved
    exact Multiset.coe_eq_coe.mpr moved

theorem held_keep {w : Nat} {b : WorkerStage} (stage : s.workers[w]? = some b) {c : WorkerStage}
    (same : c.task = b.task) : (s.setWorker w c).held = s.held := by
  obtain ⟨rest, before, after⟩ := held_set stage c
  rw [before, after, same]

theorem held_release {w : Nat} {b : WorkerStage} (stage : s.workers[w]? = some b)
    (task : b.task = some id) : s.held = id ::ₘ (s.setWorker w .idle).held := by
  obtain ⟨rest, before, after⟩ := held_set stage .idle
  rw [before, after, task]
  exact Multiset.cons_add id 0 rest

structure FirstPeriods (s : BackgroundTaskManager) : Prop where
  own : ∀ id j, s.originOf j = some id → j = id
  undelayed : s.sleeping = 0 ∧ s.woken = 0
  nodup : (s.submitting + s.taskQueue + s.held).Nodup
  persists : s.shutdown = false → ∀ id, s.isPeriodic id = true → s.cancelRequested id = false →
    id ∈ s.submitting + s.taskQueue + s.held
  activeTasks : ∀ id, id ∈ s.activeTasks ↔ id ∈ s.taskQueue + s.held
  removing : ∀ id, .removing id ∈ s.workers → s.isPeriodic id = true →
    s.cancelRequested id = true ∨ s.shutdown = true
  joining : s.joining = true → s.shutdown = true

theorem FirstPeriods.present_eq (first : FirstPeriods s) : s.present = s.taskQueue + s.held := by
  rw [present, first.undelayed.1, first.undelayed.2, add_zero, add_zero]

theorem FirstPeriods.exact (first : FirstPeriods s) : Exact s := by
  have nodup : s.present.Nodup := by
    rw [first.present_eq]
    have all := first.nodup
    rw [add_assoc] at all
    exact (Multiset.nodup_add.mp all).2.1
  refine ⟨fun up id origin submitted periodic live => ?_, ?_, ?_⟩
  · have clear : s.cancelRequested id = false := by
      rw [← Bool.not_eq_true]
      exact fun flag => live ⟨id, origin, flag⟩
    have mem : id ∈ s.present := by
      have found := first.persists up id periodic clear
      rw [add_assoc] at found
      rw [first.present_eq]
      exact (Multiset.mem_add.mp found).resolve_left submitted
    have only : s.periodsOf id = s.present.filter (id = ·) := by
      refine Multiset.filter_congr fun j _ => ⟨fun h => (first.own id j h).symm, ?_⟩
      rintro rfl
      exact origin
    rw [only, Multiset.filter_eq, Multiset.card_replicate]
    exact Multiset.count_eq_one_of_mem nodup mem
  · intro id mem
    rw [first.present_eq]
    exact (first.activeTasks id).mp mem
  · have inside : s.activeTasks ⊆ s.present.toFinset := by
      intro id mem
      rw [Multiset.mem_toFinset, first.present_eq]
      exact (first.activeTasks id).mp mem
    exact (Finset.card_le_card inside).trans (Multiset.toFinset_card_le _)

theorem FirstPeriods.moved (first : FirstPeriods s) (instances : t.instances = s.instances)
    (shutdown : s.shutdown = true → t.shutdown = true)
    (joining : t.joining = true → t.shutdown = true)
    (undelayed : t.sleeping = s.sleeping ∧ t.woken = s.woken)
    (same : t.submitting + t.taskQueue + t.held = s.submitting + s.taskQueue + s.held)
    (activeTasks : ∀ id, id ∈ t.activeTasks ↔ id ∈ t.taskQueue + t.held)
    (removing : ∀ id, .removing id ∈ t.workers → .removing id ∈ s.workers ∨
      (s.isPeriodic id = true → s.cancelRequested id = true ∨ s.shutdown = true)) :
    FirstPeriods t := by
  have flags : t.cancelRequested = s.cancelRequested := by
    funext id
    rw [cancelRequested, instances, cancelRequested]
  have periods : t.isPeriodic = s.isPeriodic := by
    funext id
    rw [isPeriodic, instances, isPeriodic]
  have origins : t.originOf = s.originOf := by
    funext id
    rw [originOf, instances, originOf]
  refine ⟨origins ▸ first.own, ?_, same ▸ first.nodup, ?_, activeTasks, ?_, joining⟩
  · rw [undelayed.1, undelayed.2]
    exact first.undelayed
  · intro up
    have earlier : s.shutdown = false := by
      rw [← Bool.not_eq_true]
      exact fun down => Bool.false_ne_true (up.symm.trans (shutdown down))
    rw [flags, periods, same]
    exact first.persists earlier
  · intro id mem
    rw [flags, periods]
    intro periodic
    refine Or.imp_right shutdown ?_
    obtain old | stop := removing id mem
    · exact first.removing id old periodic
    · exact stop periodic

theorem FirstPeriods.staged (first : FirstPeriods s) {w : Nat} {b c : WorkerStage}
    (stage : s.workers[w]? = some b) (same : c.task = b.task)
    (stop : ∀ id, c = .removing id → s.isPeriodic id = true →
      s.cancelRequested id = true ∨ s.shutdown = true) : FirstPeriods (s.setWorker w c) := by
  have held := held_keep stage same
  refine first.moved rfl id first.joining ⟨rfl, rfl⟩ (congrArg _ held) ?_ fun id mem => ?_
  · rw [held]
    exact first.activeTasks
  · obtain old | new := List.mem_or_eq_of_mem_set mem
    · exact .inl old
    · exact .inr (stop id new.symm)

theorem FirstPeriods.push (first : FirstPeriods s) (mem : id ∈ s.submitting) :
    FirstPeriods ({ s with submitting := s.submitting.erase id }.push id) := by
  refine first.moved rfl (fun h => h) first.joining ⟨rfl, rfl⟩ ?_ (fun j => ?_) fun _ => .inl
  · change s.submitting.erase id + (id ::ₘ s.taskQueue) + s.held = _
    rw [Multiset.add_cons, ← Multiset.cons_add, Multiset.cons_erase mem]
  · change j ∈ insert id s.activeTasks ↔ j ∈ id ::ₘ s.taskQueue + s.held
    rw [Multiset.cons_add, Multiset.mem_cons, ← first.activeTasks j]
    exact Finset.mem_insert

theorem FirstPeriods.requestCancel (first : FirstPeriods s)
    (p : TaskId → TaskInstance → Bool) : FirstPeriods (s.requestCancel p) := by
  have kept := extends_requestCancel (s := s) p
  refine ⟨fun id j origin => ?_, first.undelayed, first.nodup, fun up id periodic clear => ?_,
    first.activeTasks, fun id mem periodic => ?_, first.joining⟩
  · rw [originOf_requestCancel] at origin
    exact first.own id j origin
  · rw [isPeriodic_requestCancel] at periodic
    refine first.persists up id periodic ?_
    rw [← Bool.not_eq_true]
    exact fun flag => Bool.false_ne_true (clear.symm.trans (kept.cancelRequested flag))
  · rw [isPeriodic_requestCancel] at periodic
    exact (first.removing id mem periodic).imp_left kept.cancelRequested

theorem FirstPeriods.taken (first : FirstPeriods s) {w : Nat}
    (stage : s.workers[w]? = some .looking) (mem : id ∈ s.taskQueue) :
    FirstPeriods ({ s with taskQueue := s.taskQueue.erase id }.setWorker w (.holding id)) := by
  obtain ⟨rest, before, after⟩ := held_set stage (.holding id)
  have same : s.taskQueue.erase id + (s.setWorker w (.holding id)).held = s.taskQueue + s.held := by
    rw [before, after]
    change s.taskQueue.erase id + (id ::ₘ 0 + rest) = s.taskQueue + (0 + rest)
    rw [Multiset.cons_add, Multiset.add_cons, ← Multiset.cons_add, Multiset.cons_erase mem]
  refine first.moved rfl (fun h => h) first.joining ⟨rfl, rfl⟩ ?_ (fun j => ?_) fun j mem => ?_
  · change s.submitting + s.taskQueue.erase id + (s.setWorker w (.holding id)).held = _
    rw [add_assoc, same, add_assoc]
  · change j ∈ s.activeTasks ↔ j ∈ s.taskQueue.erase id + (s.setWorker w (.holding id)).held
    rw [same]
    exact first.activeTasks j
  · obtain old | new := List.mem_or_eq_of_mem_set mem
    · exact .inl old
    · cases new

theorem FirstPeriods.removed (first : FirstPeriods s) {w : Nat}
    (stage : s.workers[w]? = some (.removing id)) :
    FirstPeriods ((s.removeTask id).setWorker w .idle) := by
  have whole := held_release stage rfl
  have nodup := first.nodup
  rw [whole, Multiset.add_cons, Multiset.nodup_cons] at nodup
  refine ⟨first.own, first.undelayed, nodup.2, fun up j periodic clear => ?_, fun j => ?_,
    fun j mem => ?_, first.joining⟩
  · have mem := first.persists up j periodic clear
    rw [whole, Multiset.add_cons, Multiset.mem_cons] at mem
    refine mem.resolve_left ?_
    rintro rfl
    obtain flag | down := first.removing j (List.mem_of_getElem? stage) periodic
    · exact Bool.false_ne_true (clear.symm.trans flag)
    · exact Bool.false_ne_true (up.symm.trans down)
  · change j ∈ s.activeTasks.erase id ↔ j ∈ s.taskQueue + (s.setWorker w .idle).held
    rw [Finset.mem_erase, first.activeTasks j, whole, Multiset.add_cons, Multiset.mem_cons]
    refine ⟨fun ⟨other, mem⟩ => mem.resolve_left other, fun mem => ⟨?_, .inr mem⟩⟩
    rintro rfl
    refine nodup.1 ?_
    rw [add_assoc]
    exact Multiset.mem_add.mpr (.inr mem)
  · obtain old | new := List.mem_or_eq_of_mem_set mem
    · exact first.removing j old
    · cases new

theorem Known.live (known : Known s) (mem : id ∈ s.submitting + s.taskQueue + s.held) :
    (s.originOf id).isSome := by
  rw [Multiset.mem_add, Multiset.mem_add] at mem
  obtain (mem | mem) | mem := mem
  · exact known.submitting id mem
  · exact known.taskQueue id mem
  · obtain ⟨b, stage, task⟩ := List.mem_filterMap.mp mem
    exact known.workers b stage id task

theorem FirstPeriods.scheduled (first : FirstPeriods s) (fresh : Fresh s) (known : Known s)
    (task : BackgroundTask) : FirstPeriods (s.scheduleTask task) := by
  unfold scheduleTask
  split
  · exact first
  set i : TaskInstance := ⟨{ task with scheduleTime := s.now }, s.nextTaskId⟩
  have kept : Extends s (s.create i) := extends_create fresh i
  have absent : s.nextTaskId ∉ s.submitting + s.taskQueue + s.held := by
    intro mem
    have origin := known.live mem
    rw [originOf, fresh _ le_rfl] at origin
    cases origin
  have old {j : TaskId} (other : j ≠ s.nextTaskId) : (s.create i).instances j = s.instances j :=
    Function.update_of_ne other _ _
  have cons (m n : Multiset TaskId) :
      (s.nextTaskId ::ₘ s.submitting) + m + n = s.nextTaskId ::ₘ (s.submitting + m + n) := by
    rw [Multiset.cons_add, Multiset.cons_add]
  refine ⟨fun id j origin => ?_, first.undelayed, ?_, fun up j periodic clear => ?_,
    first.activeTasks, fun j mem periodic => ?_, first.joining⟩
  · change (s.create i).originOf j = some id at origin
    by_cases new : j = s.nextTaskId
    · simp only [new, originOf, create, Function.update_self, Option.map_some] at origin
      rw [new]
      exact Option.some.inj origin
    · rw [originOf, old new] at origin
      exact first.own id j origin
  · change ((s.nextTaskId ::ₘ s.submitting) + s.taskQueue + s.held).Nodup
    rw [cons]
    exact Multiset.nodup_cons.mpr ⟨absent, first.nodup⟩
  · change j ∈ (s.nextTaskId ::ₘ s.submitting) + s.taskQueue + s.held
    rw [cons, Multiset.mem_cons, or_iff_not_imp_left]
    intro other
    change (s.create i).isPeriodic j = true at periodic
    change (s.create i).cancelRequested j = false at clear
    rw [isPeriodic, old other] at periodic
    rw [cancelRequested, old other] at clear
    exact first.persists up j periodic clear
  · change (s.create i).isPeriodic j = true at periodic
    rw [kept.isPeriodic (known.workers _ mem j rfl)] at periodic
    exact (first.removing j mem periodic).imp_left kept.cancelRequested

theorem FirstPeriods.joined (first : FirstPeriods s) (joining : s.joining = true) :
    FirstPeriods { s with
      workers := [], taskQueue := 0, activeTasks := ∅, initialized := false, joining := false } where
  own := first.own
  undelayed := first.undelayed
  nodup := by
    have all := first.nodup
    rw [add_assoc] at all
    change (s.submitting + 0 + 0).Nodup
    rw [add_zero, add_zero]
    exact (Multiset.nodup_add.mp all).1
  persists up := absurd (up.symm.trans (first.joining joining)) Bool.false_ne_true
  activeTasks _ := iff_of_false (Finset.notMem_empty _) (Multiset.notMem_zero _)
  removing _ mem := by cases mem
  joining done := by cases done

theorem FirstPeriods.started (first : FirstPeriods s) (n : Nat) : FirstPeriods (s.start n) := by
  unfold start
  split
  · exact first
  have held : ({ s with workers := s.workers ++ List.replicate n .idle, initialized := true } :
      BackgroundTaskManager).held = s.held := by
    have idle : (List.replicate n WorkerStage.idle).filterMap WorkerStage.task = [] := by
      rw [List.filterMap_replicate_of_none rfl]
    rw [BackgroundTaskManager.held, List.filterMap_append, idle, List.append_nil]
    rfl
  refine first.moved rfl id first.joining ⟨rfl, rfl⟩ (congrArg _ held) ?_ fun j mem => ?_
  · rw [held]
    exact first.activeTasks
  · obtain old | new := List.mem_append.mp mem
    · exact .inl old
    · cases List.eq_of_mem_replicate new

theorem step_firstPeriods (h : step s a = some t) (fresh : Fresh s) (known : Known s)
    (ends : s.EndsStopped a) (first : FirstPeriods s) : FirstPeriods t := by
  cases a with
  | start n =>
      cases h
      exact first.started n
  | scheduleTask task =>
      cases h
      exact first.scheduled fresh known task
  | submit id =>
      simp only [step] at h
      split_ifs at h with mem
      cases h
      exact first.push mem
  | cancelTask id =>
      cases h
      unfold cancelTask
      split
      · exact first.requestCancel _
      · exact first
  | cancelAllTasks type =>
      cases h
      exact first.requestCancel _
  | enterLoop w =>
      simp only [step] at h
      split_ifs at h with free
      cases h
      exact first.staged free.1 rfl (by simp)
  | getNextTask w id =>
      simp only [step] at h
      split_ifs at h with free
      cases h
      exact first.taken free.1 free.2.1
  | findNoTask w =>
      simp only [step] at h
      split_ifs at h with free
      cases h
      exact first.staged free.1 rfl (by simp)
  | checkCancel w id =>
      simp only [step] at h
      split_ifs at h with stage flag
      · cases h
        refine first.staged stage rfl fun j same _ => .inl ?_
        cases same
        exact flag
      · cases h
        exact first.staged stage rfl (by simp)
  | removeTask w id =>
      simp only [step] at h
      split_ifs at h with stage
      cases h
      exact first.removed stage
  | startTask w id =>
      simp only [step] at h
      split_ifs at h with stage
      cases h
      exact first.staged stage rfl (by simp)
  | endTask w id outcome n =>
      simp only [step] at h
      split_ifs at h with stage
      cases h
      obtain same | same | ⟨i, found, interval, ok, same⟩ := s.settle_cases w id outcome n
      · rw [same]
        exact first
      · rw [same]
        refine first.staged stage rfl fun j removing periodic => ?_
        cases removing
        exact (ends periodic).2
      · have periodic : s.isPeriodic id = true := by
          simpa only [isPeriodic, found, Option.any_some, decide_eq_true_eq] using interval
        exact absurd ((ends periodic).1.symm.trans ok) Bool.false_ne_true
  | wake id =>
      simp only [step, first.undelayed.1] at h
      split_ifs at h with due <;> exact absurd due.1 (Multiset.notMem_zero id)
  | deliver id =>
      simp only [step, first.undelayed.2] at h
      split_ifs at h with mem
      exact absurd mem (Multiset.notMem_zero id)
  | shutdown =>
      simp only [step] at h
      split_ifs at h
      · cases h
        exact first
      · cases h
        exact first.moved rfl (fun _ => rfl) (fun _ => rfl) ⟨rfl, rfl⟩ rfl first.activeTasks
          fun _ => .inl
  | join =>
      simp only [step] at h
      split_ifs at h with done
      cases h
      exact first.joined done.1
  | pauseExecution | resumeExecution | tick =>
      cases h
      exact first.moved rfl id first.joining ⟨rfl, rfl⟩ rfl first.activeTasks fun _ => .inl

theorem firstPeriods_initial : FirstPeriods {} where
  own _ _ origin := by cases origin
  undelayed := ⟨rfl, rfl⟩
  nodup := Multiset.nodup_zero
  persists _ _ periodic := by cases periodic
  activeTasks _ := iff_of_false (Finset.notMem_empty _) (Multiset.notMem_zero _)
  removing _ mem := by cases mem
  joining joining := by cases joining

theorem run_firstPeriods (run : Run step EndsStopped {} s) :
    (Fresh s ∧ Known s) ∧ FirstPeriods s := by
  refine Run.invariant (p := fun s => (Fresh s ∧ Known s) ∧ FirstPeriods s) ?_ run
    ⟨⟨fun _ _ => rfl, known_initial⟩, firstPeriods_initial⟩
  intro s a t ends h ⟨⟨fresh, known⟩, first⟩
  exact ⟨⟨(step_extends h fresh).2, step_known h fresh known⟩,
    step_firstPeriods h fresh known ends first⟩

/-- In a run in which the run of a periodic task ends only as a failing one of a task that is to
stop, every state has one period for each task that goes on, and an exact active table. -/
theorem run_exact (run : Run step EndsStopped {} s) : Exact s :=
  (run_firstPeriods run).2.exact

theorem FirstPeriods.held_once (first : FirstPeriods s) {w : Nat} {b : WorkerStage}
    (stage : s.workers[w]? = some b) (task : b.task = some id) :
    id ∉ s.submitting ∧ id ∉ s.taskQueue + (s.setWorker w .idle).held := by
  have nodup := first.nodup
  rw [held_release stage task, Multiset.add_cons, Multiset.nodup_cons, add_assoc,
    Multiset.mem_add] at nodup
  exact ⟨fun mem => nodup.1 (.inl mem), fun mem => nodup.1 (.inr mem)⟩

theorem not_exact_of_success {w : Nat} {outcome : TaskOutcome} {n : Int}
    (fresh : Fresh s) (first : FirstPeriods s) (stage : s.workers[w]? = some (.running id))
    (periodic : s.isPeriodic id = true) (ok : outcome.status.isOk = true) :
    ¬Exact (s.settle w id outcome n) := by
  intro exact'
  obtain ⟨i, found, interval⟩ := Option.any_eq_true _ _ |>.mp periodic
  rw [decide_eq_true_eq] at interval
  have again : s.settle w id outcome n =
      (s.schedulePeriodicTaskInternal i n).setWorker w .idle := by
    simp only [settle, found, interval, ok, not_true, or_self, if_false]
  have listed : id ∈ s.activeTasks := by
    rw [first.activeTasks, held_release stage rfl, Multiset.add_cons]
    exact Multiset.mem_cons_self _ _
  have mem := exact'.activeTasks id (again ▸ listed)
  rw [again] at mem
  change id ∈ s.taskQueue + (s.nextTaskId ::ₘ s.sleeping) + s.woken +
    (s.setWorker w .idle).held at mem
  rw [first.undelayed.1, first.undelayed.2, add_zero, Multiset.add_cons, add_zero,
    Multiset.cons_add, Multiset.mem_cons] at mem
  obtain rfl | mem := mem
  · cases (fresh _ le_rfl).symm.trans found
  · exact (first.held_once stage rfl).2 mem

theorem not_exact_of_failure {w : Nat} {outcome : TaskOutcome} {n : Int}
    (known : Known s) (first : FirstPeriods s) (stage : s.workers[w]? = some (.running id))
    (periodic : s.isPeriodic id = true) (failed : outcome.status.isOk = false)
    (go : s.cancelRequested id = false) (up : s.shutdown = false) :
    ¬Exact (((s.settle w id outcome n).removeTask id).setWorker w .idle) := by
  intro exact'
  obtain ⟨i, found, -⟩ := Option.any_eq_true _ _ |>.mp periodic
  obtain ⟨unsubmitted, once⟩ := first.held_once stage rfl
  have ended : s.settle w id outcome n = s.setWorker w (.removing id) := by
    simp only [settle, found, failed, Bool.false_eq_true, not_false_eq_true, or_true, if_true]
  rw [ended] at exact'
  have released : (((s.setWorker w (.removing id)).removeTask id).setWorker w .idle).present =
      s.taskQueue + (s.setWorker w .idle).held := by
    have workers : (s.workers.set w (.removing id)).set w .idle = s.workers.set w .idle :=
      List.set_set _
    change s.taskQueue + s.sleeping + s.woken +
      (((s.workers.set w (.removing id)).set w .idle).filterMap WorkerStage.task : List TaskId) = _
    rw [workers, first.undelayed.1, first.undelayed.2, add_zero, add_zero]
    rfl
  have origin : s.originOf id = some id := by
    obtain ⟨o, same⟩ := Option.isSome_iff_exists.mp
      (known.workers _ (List.mem_of_getElem? stage) id rfl)
    rw [same, first.own o id same]
  have one := exact'.persists up id origin unsubmitted periodic fun ⟨j, same, flag⟩ => by
    cases first.own id j same
    exact Bool.false_ne_true (go.symm.trans flag)
  obtain ⟨j, mem⟩ := Multiset.card_pos_iff_exists_mem.mp (one ▸ Nat.one_pos)
  obtain ⟨mem, same⟩ := Multiset.mem_filter.mp mem
  cases first.own id j same
  exact once (released ▸ mem)

/-- Any other end of a periodic task's run makes the state inexact: a successful one at once, and a
failing one when the worker has taken the task out of the table. -/
theorem not_exact_of_end {w : Nat} {outcome : TaskOutcome} {n : Int}
    (run : Run step EndsStopped {} s) (stage : s.workers[w]? = some (.running id))
    (ends : ¬s.EndsStopped (.endTask w id outcome n)) :
    ¬Exact (s.settle w id outcome n) ∨
      ¬Exact (((s.settle w id outcome n).removeTask id).setWorker w .idle) := by
  obtain ⟨⟨fresh, known⟩, first⟩ := run_firstPeriods run
  obtain ⟨periodic, stops⟩ := Classical.not_imp.mp ends
  by_cases ok : outcome.status.isOk = true
  · exact .inl (not_exact_of_success fresh first stage periodic ok)
  · rw [Bool.not_eq_true] at ok
    have go : s.cancelRequested id = false ∧ s.shutdown = false := by
      rw [← Bool.not_eq_true, ← Bool.not_eq_true, ← not_or]
      exact fun stop => stops ⟨ok, stop⟩
    exact .inr (not_exact_of_failure known first stage periodic ok go.1 go.2)

def failsAfterCancel : List Action :=
  [.start 1, .scheduleTask { interval := 100 }, .submit 1, .enterLoop 0, .getNextTask 0 1,
    .checkCancel 0 1, .startTask 0 1, .cancelTask 1, .endTask 0 1 (.threw "disk full") 0]

theorem run_exact_failsAfterCancel :
    ∃ s, execute step {} failsAfterCancel = some s ∧ Exact s := by
  have allowed : Allowed step EndsStopped {} failsAfterCancel := by decide +kernel
  have runs : (execute step {} failsAfterCancel).isSome := by decide +kernel
  obtain ⟨s, reached⟩ := Option.isSome_iff_exists.mp runs
  exact ⟨s, reached, run_exact (execute_run _ allowed reached)⟩

def succeeds : List Action :=
  [.start 1, .scheduleTask { interval := 100 }, .submit 1, .enterLoop 0, .getNextTask 0 1,
    .checkCancel 0 1, .startTask 0 1, .endTask 0 1 (.returned .ok) 100]

theorem exact_fails_succeeds : ∃ s, Run step free {} s ∧ ¬Exact s := by
  have facts : ((execute step {} succeeds).any fun s =>
      decide (1 ∈ s.activeTasks ∧ 1 ∉ s.present)) = true := by
    decide +kernel
  obtain ⟨s, reached, listed⟩ := Option.any_eq_true _ _ |>.mp facts
  obtain ⟨listed, gone⟩ := of_decide_eq_true listed
  exact ⟨s, execute_run _ (allowed_free _ _ _) reached, fun e => gone (e.activeTasks 1 listed)⟩

end Lrdb.BackgroundTaskManager
