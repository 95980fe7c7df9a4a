import Lrdb.Concurrency.LockManager
import Lrdb.Concurrency.WaitForGraph

/-!
# Calls of the lock manager

A call is cut at the mutexes it locks. While it stands between two of them it holds those of the
scopes it is in, and its next step is taken when the mutex it asks for is free. What a scope does
under a mutex that is released at once is one step. The data of an entry changes only under the
mutex of the entry, so a change is placed at the next mutex the call locks inside that scope.
-/

namespace Lrdb

/-- What happens to a thread that locks a mutex it holds: the behaviour of `std::mutex` is undefined
there, and the usual implementation blocks. -/
inductive Relock where
  | blocks | passes
  deriving DecidableEq, Repr

inductive Mutex where
  | table
  | entry (key : Key)
  | graph
  | range
  deriving DecidableEq, Repr

structure RangeLock where
  txnId : Nat
  start : Key
  stop : Key
  exclusive : Bool
  deriving DecidableEq, Repr

/-- A literal that is passed as a C string ends before its first zero. -/
def cString (bytes : Bytes) : Bytes := bytes.takeWhile (· != 0)

def isX (type : LockType) : Bool := type == .kExclusiveLock

def overlap (aStart aStop bStart bStop : Key) : Bool :=
  let leftOk := aStart.isEmpty || bStop.isEmpty || decide (aStart < bStop)
  let rightOk := bStart.isEmpty || aStop.isEmpty || decide (bStart < aStop)
  leftOk && rightOk

/-! ## Where a call stands -/

structure AcquireRequest where
  key : Key
  type : LockType
  timeout : Nat
  deriving DecidableEq, Repr

structure RangeRequest where
  start : Key
  stop : Key
  exclusive : Bool
  timeout : Nat
  deriving DecidableEq, Repr

/-- How the wait of an `Acquire` ends. -/
inductive WaitResult where
  | victim | timedOut | granted
  deriving DecidableEq, Repr

inductive AcquireStage where
  /-- The test of the mark of a victim. -/
  | marked
  | range
  /-- The wait for a range lock. -/
  | lockRange | recheckRange | awaitRange
  | retakeRange (expired : Bool)
  /-- The request joins the queue, and the graph is searched. -/
  | queue
  /-- The predicate of the wait, `expired` when it is evaluated for the last time. -/
  | evaluate (expired : Bool)
  | asleep
  | retake (expired : Bool)
  | settle (ok : Bool)
  | leave (result : WaitResult)
  deriving DecidableEq, Repr

inductive TryStage where
  | marked | unmark | range
  deriving DecidableEq, Repr

inductive RangeStage where
  | lock | check | await
  | retake (expired : Bool)
  deriving DecidableEq, Repr

inductive ReleaseStage where
  | gather
  | entries (remaining : List Key)
  | ranges
  deriving DecidableEq, Repr

inductive PointOp where
  | acquire (type : LockType) (timeout : Nat)
  | tryAcquire (type : LockType)
  | release
  deriving DecidableEq, Repr

inductive Call where
  /-- `GetOrCreate`, first with the shared and then with the exclusive lock of the table. -/
  | lookup (key : Key) (op : PointOp)
  | create (key : Key) (op : PointOp)
  | enter (key : Key) (op : PointOp)
  | acquire (r : AcquireRequest) (stage : AcquireStage)
  | tryAcquire (key : Key) (type : LockType) (stage : TryStage)
  | acquireRange (r : RangeRequest) (stage : RangeStage)
  | releaseAll (stage : ReleaseStage)
  deriving DecidableEq, Repr

/-- A call of `DetectAndResolveDeadlocks`. -/
inductive Detection where
  | detect
  | release (victim : Nat) (stage : ReleaseStage)
  | gather (victim : Nat)
  | sweep (victim : Nat) (remaining : List Key)
  deriving DecidableEq, Repr

def AcquireStage.held (key : Key) : AcquireStage → List Mutex
  | .recheckRange => [.entry key, .range]
  | .asleep | .retake _ => []
  | _ => [.entry key]

def AcquireStage.requests (key : Key) : AcquireStage → Option Mutex
  | .range | .lockRange | .recheckRange | .retakeRange _ => some .range
  | .awaitRange | .asleep => none
  | .retake _ => some (.entry key)
  | .marked | .queue | .evaluate _ | .settle _ | .leave _ => some .graph

def RangeStage.held : RangeStage → List Mutex
  | .check => [.range]
  | _ => []

def RangeStage.requests : RangeStage → Option Mutex
  | .await => none
  | _ => some .range

/-- `ReleaseAll` keeps the mutex of the graph to its end. -/
def ReleaseStage.held : ReleaseStage → List Mutex
  | .ranges => [.graph]
  | _ => []

def ReleaseStage.requests : ReleaseStage → Option Mutex
  | .gather => some .table
  | .entries (key :: _) => some (.entry key)
  | .entries [] => some .graph
  | .ranges => some .range

def Call.held : Call → List Mutex
  | .lookup .. | .create .. | .enter .. => []
  | .acquire r stage => stage.held r.key
  | .tryAcquire key _ _ => [.entry key]
  | .acquireRange _ stage => stage.held
  | .releaseAll stage => stage.held

def Call.requests : Call → Option Mutex
  | .lookup .. | .create .. => some .table
  | .enter key _ => some (.entry key)
  | .acquire r stage => stage.requests r.key
  | .tryAcquire _ _ .range => some .range
  | .tryAcquire .. => some .graph
  | .acquireRange _ stage => stage.requests
  | .releaseAll stage => stage.requests

def Detection.held : Detection → List Mutex
  | .detect | .gather _ => []
  | .release _ stage => stage.held
  | .sweep .. => [.table]

def Detection.requests : Detection → Option Mutex
  | .detect => some .graph
  | .release _ stage => stage.requests
  | .gather _ => some .table
  | .sweep _ (key :: _) => some (.entry key)
  | .sweep _ [] => some .range

/-! ## The state -/

inductive Caller where
  | transaction (txn : Nat)
  | detector (id : Nat)
  deriving DecidableEq, Repr

structure LockManager where
  /-- The keys of `table_`. -/
  keys : List Key := []
  entries : Key → LockEntry := fun _ => {}
  graph : WaitForGraph := {}
  rangeLocks : List RangeLock := []
  aborted : List Nat := []
  calls : Nat → Option Call := fun _ => none
  detections : Nat → Option Detection := fun _ => none
  /-- Everyone who has made a call. -/
  callers : List Caller := []
  /-- The status of the last call that returned. -/
  returned : Nat → Option Status := fun _ => none

inductive LockAction where
  | point (txn : Nat) (key : Key) (op : PointOp)
  | acquireRange (txn : Nat) (r : RangeRequest)
  | releaseAll (txn : Nat)
  /-- The thread of a transaction goes on, from a wait when it is woken. -/
  | proceed (txn : Nat)
  /-- The time of a wait is over. -/
  | expire (txn : Nat)
  /-- The entries are copied in the order of the hash table. -/
  | gather (txn : Nat) (order : List Key)
  | detect (id : Nat)
  | resolve (id : Nat)
  | gatherFor (id : Nat) (order : List Key)
  deriving DecidableEq, Repr

def LockEntry.sweep (entry : LockEntry) (txn : Nat) : LockEntry :=
  { entry with waiters := entry.waiters.filter fun w => w.txnId != txn }

namespace LockManager

def heldBy (m : LockManager) : Caller → List Mutex
  | .transaction txn => ((m.calls txn).map Call.held).getD []
  | .detector id => ((m.detections id).map Detection.held).getD []

/-- Nobody else holds the mutex, nor the caller itself unless a second lock passes. -/
def canLock (m : LockManager) (relock : Relock) (caller : Caller) (mutex : Mutex) : Bool :=
  m.callers.all fun other =>
    !(m.heldBy other).contains mutex || (other == caller && relock == .passes)

def locking (m : LockManager) (relock : Relock) (caller : Caller) (mutex : Mutex)
    (after : LockManager) : Option LockManager :=
  if m.canLock relock caller mutex then some after else none

def goto (m : LockManager) (txn : Nat) (call : Call) : LockManager :=
  { m with calls := Function.update m.calls txn (some call) }

def finish (m : LockManager) (txn : Nat) (status : Status) : LockManager :=
  { m with
    calls := Function.update m.calls txn none
    returned := Function.update m.returned txn (some status) }

def setEntry (m : LockManager) (key : Key) (entry : LockEntry) : LockManager :=
  { m with entries := Function.update m.entries key entry }

def setGraph (m : LockManager) (graph : WaitForGraph) : LockManager := { m with graph := graph }

def unmark (m : LockManager) (txn : Nat) : LockManager :=
  { m with aborted := m.aborted.erase txn }

def rangeConflicts (m : LockManager) (key : Key) (type : LockType) (requester : Nat) : Bool :=
  m.rangeLocks.any fun r =>
    r.txnId != requester && overlap key (key ++ cString [0]) r.start r.stop &&
      (r.exclusive || isX type)

def rangeConflictsWithRange (m : LockManager) (start stop : Key) (exclusive : Bool)
    (requester : Nat) : Bool :=
  m.rangeLocks.any fun r =>
    r.txnId != requester && overlap start stop r.start r.stop && (r.exclusive || exclusive)

/-! ## Acquire -/

def grant (m : LockManager) (txn : Nat) (key : Key) (type : LockType) : LockManager :=
  (m.setEntry key ((m.entries key).grant txn type)).finish txn .ok

def grantOrQueue (m : LockManager) (txn : Nat) (r : AcquireRequest) : LockManager :=
  if (m.entries r.key).canGrant txn r.type then m.grant txn r.key r.type
  else m.goto txn (.acquire r .queue)

def enqueued (m : LockManager) (txn : Nat) (r : AcquireRequest) : LockManager :=
  let entry := m.entries r.key
  (m.setEntry r.key (entry.enqueue txn r.type)).setGraph
    (m.graph.addEdges txn (entry.holders.map LockRequest.txnId))

def withdrawn (m : LockManager) (txn : Nat) (key : Key) : LockManager :=
  (m.setEntry key ((m.entries key).removeWaiter txn)).setGraph (m.graph.removeEdgesFor txn)

def queueStep (m : LockManager) (txn : Nat) (r : AcquireRequest) : LockManager :=
  let m' := m.enqueued txn r
  if (m.entries r.key).holders.any fun h => m'.graph.wouldCreateCycle txn h.txnId then
    (m'.withdrawn txn r.key).finish txn (.aborted "Deadlock detected")
  else m'.goto txn (.acquire r (.evaluate false))

def evaluateStep (m : LockManager) (txn : Nat) (r : AcquireRequest) (expired : Bool) :
    LockManager :=
  if m.aborted.contains txn || (m.entries r.key).canGrant txn r.type then
    m.goto txn (.acquire r (.settle true))
  else if expired then m.goto txn (.acquire r (.settle false))
  else m.goto txn (.acquire r .asleep)

def leaveStep (m : LockManager) (txn : Nat) (r : AcquireRequest) : WaitResult → LockManager
  | .victim => (m.withdrawn txn r.key).finish txn (.aborted "Deadlock victim")
  | .timedOut => (m.withdrawn txn r.key).finish txn (.timedOut "Lock wait timeout")
  | .granted =>
      ((m.setEntry r.key ((m.entries r.key).wake txn r.type)).setGraph
        (m.graph.removeEdgesFor txn)).finish txn .ok

def acquireStep (m : LockManager) (relock : Relock) (txn : Nat) (r : AcquireRequest) :
    AcquireStage → Option LockManager
  | .marked => m.locking relock (.transaction txn) .graph <|
      if m.aborted.contains txn then (m.unmark txn).finish txn (.aborted "Deadlock victim")
      else m.goto txn (.acquire r .range)
  | .range => m.locking relock (.transaction txn) .range <|
      if m.rangeConflicts r.key r.type txn then m.goto txn (.acquire r .lockRange)
      else m.grantOrQueue txn r
  | .lockRange => m.locking relock (.transaction txn) .range <|
      m.goto txn (.acquire r .recheckRange)
  | .recheckRange => m.locking relock (.transaction txn) .range <|
      if !m.rangeConflicts r.key r.type txn then m.grantOrQueue txn r
      else if r.timeout = 0 then m.finish txn (.timedOut "Range lock busy")
      else m.goto txn (.acquire r .awaitRange)
  | .awaitRange => some (m.goto txn (.acquire r (.retakeRange false)))
  | .retakeRange expired => m.locking relock (.transaction txn) .range <|
      if expired then m.finish txn (.timedOut "Range lock timeout")
      else m.goto txn (.acquire r .recheckRange)
  | .queue => m.locking relock (.transaction txn) .graph (m.queueStep txn r)
  | .evaluate expired => m.locking relock (.transaction txn) .graph (m.evaluateStep txn r expired)
  | .asleep => some (m.goto txn (.acquire r (.retake false)))
  | .retake expired => m.locking relock (.transaction txn) (.entry r.key) <|
      m.goto txn (.acquire r (.evaluate expired))
  | .settle ok => m.locking relock (.transaction txn) .graph <|
      m.goto txn (.acquire r (.leave
        (if m.aborted.contains txn then .victim else if ok then .granted else .timedOut)))
  | .leave result => m.locking relock (.transaction txn) .graph (m.leaveStep txn r result)

/-! ## The other calls -/

def tryStep (m : LockManager) (relock : Relock) (txn : Nat) (key : Key) (type : LockType) :
    TryStage → Option LockManager
  | .marked => m.locking relock (.transaction txn) .graph <|
      m.goto txn (.tryAcquire key type (if m.aborted.contains txn then .unmark else .range))
  | .unmark => m.locking relock (.transaction txn) .graph <|
      (m.unmark txn).finish txn (.aborted "Deadlock victim")
  | .range => m.locking relock (.transaction txn) .range <|
      if m.rangeConflicts key type txn then m.finish txn (.timedOut "Range lock busy")
      else if !(m.entries key).canGrant txn type then m.finish txn (.timedOut "Lock busy")
      else m.grant txn key type

def addRange (m : LockManager) (txn : Nat) (r : RangeRequest) : LockManager :=
  { m with rangeLocks := m.rangeLocks ++ [⟨txn, r.start, r.stop, r.exclusive⟩] }

def rangeStep (m : LockManager) (relock : Relock) (txn : Nat) (r : RangeRequest) :
    RangeStage → Option LockManager
  | .lock => m.locking relock (.transaction txn) .range (m.goto txn (.acquireRange r .check))
  | .check => m.locking relock (.transaction txn) .range <|
      if !m.rangeConflictsWithRange r.start r.stop r.exclusive txn then
        (m.addRange txn r).finish txn .ok
      else if r.timeout = 0 then m.finish txn (.timedOut "Range lock busy")
      else m.goto txn (.acquireRange r .await)
  | .await => some (m.goto txn (.acquireRange r (.retake false)))
  | .retake expired => m.locking relock (.transaction txn) .range <|
      if expired then m.finish txn (.timedOut "Range lock timeout")
      else m.goto txn (.acquireRange r .check)

/-- `Release`, and one round of the loop of `ReleaseAll`. -/
def releaseEntry (m : LockManager) (txn : Nat) (key : Key) : LockManager :=
  m.setEntry key ((m.entries key).release txn)

def releaseRanges (m : LockManager) (txn : Nat) : LockManager :=
  { m with rangeLocks := m.rangeLocks.filter fun r => r.txnId != txn }

def releaseStep (m : LockManager) (relock : Relock) (txn : Nat) :
    ReleaseStage → Option LockManager
  | .gather => none
  | .entries (key :: rest) => m.locking relock (.transaction txn) (.entry key) <|
      (m.releaseEntry txn key).goto txn (.releaseAll (.entries rest))
  | .entries [] => m.locking relock (.transaction txn) .graph <|
      (m.setGraph (m.graph.removeEdgesFor txn)).goto txn (.releaseAll .ranges)
  | .ranges => m.locking relock (.transaction txn) .range ((m.releaseRanges txn).finish txn .ok)

def enterStep (m : LockManager) (relock : Relock) (txn : Nat) (key : Key) :
    PointOp → Option LockManager
  | .acquire type timeout => m.locking relock (.transaction txn) (.entry key) <|
      m.goto txn (.acquire ⟨key, type, timeout⟩ .marked)
  | .tryAcquire type => m.locking relock (.transaction txn) (.entry key) <|
      m.goto txn (.tryAcquire key type .marked)
  | .release => m.locking relock (.transaction txn) (.entry key) <|
      (m.releaseEntry txn key).finish txn .ok

/-- A shared lock of the table is never refused: what is done under the exclusive one is done at
once. -/
def callStep (m : LockManager) (relock : Relock) (txn : Nat) : Call → Option LockManager
  | .lookup key op => some (m.goto txn (if m.keys.contains key then .enter key op else .create key op))
  | .create key op => m.locking relock (.transaction txn) .table <|
      { m with keys := m.keys.insert key }.goto txn (.enter key op)
  | .enter key op => m.enterStep relock txn key op
  | .acquire r stage => m.acquireStep relock txn r stage
  | .tryAcquire key type stage => m.tryStep relock txn key type stage
  | .acquireRange r stage => m.rangeStep relock txn r stage
  | .releaseAll stage => m.releaseStep relock txn stage

def expireStep (m : LockManager) (txn : Nat) : Call → Option LockManager
  | .acquire r .awaitRange => some (m.goto txn (.acquire r (.retakeRange true)))
  | .acquire r .asleep => some (m.goto txn (.acquire r (.retake true)))
  | .acquireRange r .await => some (m.goto txn (.acquireRange r (.retake true)))
  | _ => none

/-! ## DetectAndResolveDeadlocks -/

def setDetection (m : LockManager) (id : Nat) (d : Option Detection) : LockManager :=
  { m with detections := Function.update m.detections id d }

def detectionStep (m : LockManager) (relock : Relock) (id : Nat) : Detection → Option LockManager
  | .detect => m.locking relock (.detector id) .graph <|
      match m.graph.detectCycle with
      | some (victim + 1) =>
          { m with aborted := m.aborted.insert (victim + 1) }.setDetection id
            (some (.release (victim + 1) .gather))
      | _ => m.setDetection id none
  | .release victim (.entries (key :: rest)) => m.locking relock (.detector id) (.entry key) <|
      (m.releaseEntry victim key).setDetection id (some (.release victim (.entries rest)))
  | .release victim (.entries []) => m.locking relock (.detector id) .graph <|
      (m.setGraph (m.graph.removeEdgesFor victim)).setDetection id (some (.release victim .ranges))
  | .release victim .ranges => m.locking relock (.detector id) .range <|
      (m.releaseRanges victim).setDetection id (some (.gather victim))
  | .sweep victim (key :: rest) => m.locking relock (.detector id) (.entry key) <|
      (m.setEntry key ((m.entries key).sweep victim)).setDetection id (some (.sweep victim rest))
  | .sweep _ [] => m.locking relock (.detector id) .range (m.setDetection id none)
  | .release _ .gather | .gather _ => none

def gatherForStep (m : LockManager) (id : Nat) (order : List Key) :
    Detection → Option LockManager
  | .release victim .gather => some (m.setDetection id (some (.release victim (.entries order))))
  | .gather victim => some (m.setDetection id (some (.sweep victim order)))
  | _ => none

/-! ## Steps -/

def start (m : LockManager) (txn : Nat) (call : Call) : Option LockManager :=
  match m.calls txn with
  | none => some { m.goto txn call with callers := m.callers.insert (.transaction txn) }
  | some _ => none

def step (relock : Relock) (m : LockManager) : LockAction → Option LockManager
  | .point txn key op => m.start txn (.lookup key op)
  | .acquireRange txn r => m.start txn (.acquireRange r .lock)
  | .releaseAll txn => m.start txn (.releaseAll .gather)
  | .proceed txn => (m.calls txn).bind (m.callStep relock txn)
  | .expire txn => (m.calls txn).bind (m.expireStep txn)
  | .gather txn order =>
      if m.calls txn = some (.releaseAll .gather) ∧ order.Perm m.keys then
        some (m.goto txn (.releaseAll (.entries order)))
      else none
  | .detect id =>
      match m.detections id with
      | none => some { m.setDetection id (some .detect) with
          callers := m.callers.insert (.detector id) }
      | some _ => none
  | .resolve id => (m.detections id).bind (m.detectionStep relock id)
  | .gatherFor id order =>
      if order.Perm m.keys then (m.detections id).bind (m.gatherForStep id order) else none

end LockManager
end Lrdb
