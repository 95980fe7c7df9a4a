import Lrdb.Base.Runs
import Lrdb.Core.Status
import Mathlib.Data.Multiset.AddSub
import Mathlib.Data.Multiset.Filter
import Mathlib.Data.Finset.Basic

/-!
# The background task manager

Callers, worker threads and delay threads take turns; every action below is one access to the
shared state, either a critical section of `queue_mutex_` or the reading of an atomic flag.
-/

namespace Lrdb

abbrev TaskId := Nat

inductive TaskPriority where
  | low | normal | high | critical
  deriving DecidableEq, Repr

namespace TaskPriority

def toNat : TaskPriority → Nat
  | low => 0
  | normal => 1
  | high => 2
  | critical => 3

end TaskPriority

inductive TaskType where
  | flush | compaction | wal | cleanup | maintenance | statistics | snapshot | recovery | custom
  deriving DecidableEq, Repr

/-- A task without its function: what a run of it returns is part of the action that ends it.
Times and intervals are in milliseconds; the interval of a one-shot task is zero. -/
structure BackgroundTask where
  type : TaskType := .custom
  priority : TaskPriority := .normal
  scheduleTime : Int := 0
  interval : Int := 0
  name : String := ""
  cancelRequested : Bool := false
  deriving DecidableEq, Repr

/-- The object behind a shared pointer. `origin` records the identifier that the caller was given
for the task of which this object is one period. -/
structure TaskInstance where
  task : BackgroundTask
  origin : TaskId
  deriving DecidableEq, Repr

inductive WorkerStage where
  | idle
  /-- It found the manager neither shut down nor paused. -/
  | looking
  | holding (id : TaskId)
  /-- It found the cancel flag clear. -/
  | ready (id : TaskId)
  | running (id : TaskId)
  /-- It is about to take the task out of the active table. -/
  | removing (id : TaskId)
  deriving DecidableEq, Repr

def WorkerStage.task : WorkerStage → Option TaskId
  | idle | looking => none
  | holding id | ready id | running id | removing id => some id

inductive TaskOutcome where
  | returned (status : Status)
  | threw (what : String)
  deriving DecidableEq, Repr

def TaskOutcome.status : TaskOutcome → Status
  | returned status => status
  | threw what => .ioError ("Task execution failed: " ++ what)

structure BackgroundTaskManager where
  nextTaskId : TaskId := 1
  initialized : Bool := false
  shutdown : Bool := false
  paused : Bool := false
  now : Int := 0
  instances : TaskId → Option TaskInstance := fun _ => none
  /-- Calls of `ScheduleTask` that have their identifier and wait for the queue's mutex. -/
  submitting : Multiset TaskId := 0
  taskQueue : Multiset TaskId := 0
  activeTasks : Finset TaskId := ∅
  workers : List WorkerStage := []
  /-- Delay threads that sleep, and those that found neither a shutdown nor a cancel. -/
  sleeping : Multiset TaskId := 0
  woken : Multiset TaskId := 0
  /-- A call of `Shutdown` waits for the threads. -/
  joining : Bool := false

namespace BackgroundTaskManager

/-- `TaskComparator`: the task `a` is served after the task `b`. -/
def taskComparator (a b : BackgroundTask) : Bool :=
  if a.priority ≠ b.priority then a.priority.toNat < b.priority.toNat
  else a.scheduleTime > b.scheduleTime

def servedAfter (s : BackgroundTaskManager) (a b : TaskId) : Bool :=
  match s.instances a, s.instances b with
  | some i, some j => taskComparator i.task j.task
  | _, _ => false

/-- What `top` may return: no queued task is to be served before it. -/
def IsTop (s : BackgroundTaskManager) (id : TaskId) : Prop :=
  id ∈ s.taskQueue ∧ ∀ other ∈ s.taskQueue, s.servedAfter id other = false

instance (s : BackgroundTaskManager) (id : TaskId) : Decidable (s.IsTop id) :=
  inferInstanceAs (Decidable (_ ∧ _))

def cancelRequested (s : BackgroundTaskManager) (id : TaskId) : Bool :=
  (s.instances id).any (·.task.cancelRequested)

def isPeriodic (s : BackgroundTaskManager) (id : TaskId) : Bool :=
  (s.instances id).any (·.task.interval ≠ 0)

def originOf (s : BackgroundTaskManager) (id : TaskId) : Option TaskId :=
  (s.instances id).map (·.origin)

def setWorker (s : BackgroundTaskManager) (w : Nat) (stage : WorkerStage) : BackgroundTaskManager :=
  { s with workers := s.workers.set w stage }

def create (s : BackgroundTaskManager) (i : TaskInstance) : BackgroundTaskManager :=
  { s with
    nextTaskId := s.nextTaskId + 1
    instances := Function.update s.instances s.nextTaskId (some i) }

def requestCancel (s : BackgroundTaskManager) (p : TaskId → TaskInstance → Bool) :
    BackgroundTaskManager :=
  { s with
    instances := fun id => (s.instances id).map fun i =>
      if p id i then { i with task := { i.task with cancelRequested := true } } else i }

/-- `Initialize`; a count of zero stands for the default, which the caller has resolved. -/
def start (s : BackgroundTaskManager) (workerThreadCount : Nat) : BackgroundTaskManager :=
  if s.initialized then s
  else { s with
    workers := s.workers ++ List.replicate workerThreadCount .idle, initialized := true }

/-- The part of `ScheduleTask` before its critical section. -/
def scheduleTask (s : BackgroundTaskManager) (task : BackgroundTask) : BackgroundTaskManager :=
  if !s.initialized || s.shutdown then s
  else
    { s.create ⟨{ task with scheduleTime := s.now }, s.nextTaskId⟩ with
      submitting := s.nextTaskId ::ₘ s.submitting }

/-- The critical section of `ScheduleTask` and of a delay thread. -/
def push (s : BackgroundTaskManager) (id : TaskId) : BackgroundTaskManager :=
  { s with taskQueue := id ::ₘ s.taskQueue, activeTasks := insert id s.activeTasks }

def cancelTask (s : BackgroundTaskManager) (id : TaskId) : Bool × BackgroundTaskManager :=
  if id ∈ s.activeTasks then (true, s.requestCancel fun j _ => j = id) else (false, s)

def cancelAllTasks (s : BackgroundTaskManager) (type : TaskType) : BackgroundTaskManager :=
  s.requestCancel fun id i => decide (id ∈ s.activeTasks) && i.task.type = type

def removeTask (s : BackgroundTaskManager) (id : TaskId) : BackgroundTaskManager :=
  { s with activeTasks := s.activeTasks.erase id }

/-- `SchedulePeriodicTaskInternal`: the next period is a new object with a clear cancel flag. -/
def schedulePeriodicTaskInternal (s : BackgroundTaskManager) (i : TaskInstance)
    (adjustedInterval : Int) : BackgroundTaskManager :=
  { s.create ⟨{ i.task with
      scheduleTime := s.now + adjustedInterval, cancelRequested := false }, i.origin⟩ with
    sleeping := s.nextTaskId ::ₘ s.sleeping }

/-- `ExecuteTask` after the task function. -/
def settle (s : BackgroundTaskManager) (w : Nat) (id : TaskId) (outcome : TaskOutcome)
    (adjustedInterval : Int) : BackgroundTaskManager :=
  match s.instances id with
  | none => s
  | some i =>
      if i.task.interval = 0 ∨ ¬outcome.status.isOk then s.setWorker w (.removing id)
      else (s.schedulePeriodicTaskInternal i adjustedInterval).setWorker w .idle

inductive Action where
  | start (workerThreadCount : Nat)
  | scheduleTask (task : BackgroundTask)
  | submit (id : TaskId)
  | cancelTask (id : TaskId)
  | cancelAllTasks (type : TaskType)
  | pauseExecution
  | resumeExecution
  | enterLoop (w : Nat)
  | getNextTask (w : Nat) (id : TaskId)
  | findNoTask (w : Nat)
  | checkCancel (w : Nat) (id : TaskId)
  | removeTask (w : Nat) (id : TaskId)
  | startTask (w : Nat) (id : TaskId)
  /-- The adaptive factor may be anything; the action names the interval that it leads to. -/
  | endTask (w : Nat) (id : TaskId) (outcome : TaskOutcome) (adjustedInterval : Int)
  | wake (id : TaskId)
  | deliver (id : TaskId)
  | shutdown
  | join
  | tick (milliseconds : Nat)
  deriving DecidableEq

def step (s : BackgroundTaskManager) : Action → Option BackgroundTaskManager
  | .start n => some (s.start n)
  | .scheduleTask task => some (s.scheduleTask task)
  | .submit id =>
      if id ∈ s.submitting then some ({ s with submitting := s.submitting.erase id }.push id)
      else none
  | .cancelTask id => some (s.cancelTask id).2
  | .cancelAllTasks type => some (s.cancelAllTasks type)
  | .pauseExecution => some { s with paused := true }
  | .resumeExecution => some { s with paused := false }
  | .enterLoop w =>
      if s.workers[w]? = some .idle ∧ s.shutdown = false ∧ s.paused = false then
        some (s.setWorker w .looking)
      else none
  | .getNextTask w id =>
      if s.workers[w]? = some .looking ∧ s.IsTop id then
        some ({ s with taskQueue := s.taskQueue.erase id }.setWorker w (.holding id))
      else none
  | .findNoTask w =>
      if s.workers[w]? = some .looking ∧ s.taskQueue = 0 then some (s.setWorker w .idle) else none
  | .checkCancel w id =>
      if s.workers[w]? = some (.holding id) then
        some (s.setWorker w (if s.cancelRequested id then .removing id else .ready id))
      else none
  | .removeTask w id =>
      if s.workers[w]? = some (.removing id) then some ((s.removeTask id).setWorker w .idle)
      else none
  | .startTask w id =>
      if s.workers[w]? = some (.ready id) then some (s.setWorker w (.running id)) else none
  | .endTask w id outcome adjustedInterval =>
      if s.workers[w]? = some (.running id) then some (s.settle w id outcome adjustedInterval)
      else none
  | .wake id =>
      if id ∈ s.sleeping ∧ (s.instances id).any (·.task.scheduleTime ≤ s.now) then
        if s.shutdown || s.cancelRequested id then some { s with sleeping := s.sleeping.erase id }
        else some { s with sleeping := s.sleeping.erase id, woken := id ::ₘ s.woken }
      else none
  | .deliver id =>
      if id ∈ s.woken then some ({ s with woken := s.woken.erase id }.push id) else none
  | .shutdown => if s.shutdown then some s else some { s with shutdown := true, joining := true }
  | .join =>
      if s.joining ∧ (∀ a ∈ s.workers, a = .idle) ∧ s.sleeping = 0 ∧ s.woken = 0 then
        some { s with
          workers := [], taskQueue := 0, activeTasks := ∅, initialized := false, joining := false }
      else none
  | .tick milliseconds => some { s with now := s.now + milliseconds }

end BackgroundTaskManager
end Lrdb
