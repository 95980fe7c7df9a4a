import Lrdb.Concurrency.VersionChainManager
import Lrdb.Concurrency.LockManager

/-!
# The transaction manager

Every call of a transaction is cut into the steps other threads can see between: the parts of
`Begin`, a lock request and what follows it, the parts of `Commit` and of an abort, and the parts of
a flush. A thread is somewhere in its call, and one step takes it further.
-/

namespace Lrdb

inductive Stage where
  /-- `Begin` took an identifier. -/
  | allocated
  | inserted
  | copied (active : List Nat)
  | viewed
  /-- Between two calls. -/
  | running
  | waiting (key : Key)
  | granted (key : Key)
  /-- `Commit` has its sequence, and these keys are still to be logged. -/
  | logging (sequence : Nat) (remaining : List Key)
  | synced (sequence : Nat)
  | committed
  | aborting
  | aborted
  /-- Out of the active set, with its locks. -/
  | leaving
  | finished
  deriving DecidableEq, Repr

def Stage.sequence : Stage → Option Nat
  | .logging sequence _ | .synced sequence => some sequence
  | _ => none

def Stage.unmarked : Stage → Bool
  | .committed | .aborted | .leaving | .finished => false
  | _ => true

structure Transaction where
  isolation : IsolationLevel
  stage : Stage := .allocated
  view : ReadView
  lsmReadSeq : Nat := 0
  touchedKeys : List Key := []
  /-- Everything written so far, the latest first. -/
  writes : List (Key × Option Value) := []
  deriving DecidableEq, Repr

def writesTo (key : Key) (writes : List (Key × Option Value)) : List (Option Value) :=
  (writes.filter fun write => write.1 = key).map Prod.snd

structure Commit where
  txn : Nat
  sequence : Nat
  writes : List (Key × Option Value)
  deriving DecidableEq, Repr

/-- A call of `FlushCommittedToLSM` that has picked its items. -/
structure FlushCall where
  written : List (Key × VersionRecord)
  remaining : List (Key × VersionRecord)
  deriving DecidableEq, Repr

def FlushCall.items (f : FlushCall) : List (Key × VersionRecord) := f.written ++ f.remaining

def FlushCall.marks (f : FlushCall) : List (Key × Nat) :=
  f.written.map fun item => (item.1, item.2.commitSnapshot)

structure TxManager where
  nextTxn : Nat := 1
  nextSequence : Nat := 1
  activeTxns : List Nat := []
  versions : VersionChainManager := .new
  locks : Key → LockEntry := fun _ => {}
  txns : Nat → Option Transaction := fun _ => none
  flushes : Nat → Option FlushCall := fun _ => none
  /-- The commits of the session, the latest marked first. -/
  commits : List Commit := []

inductive TxAction where
  | allocate (isolation : IsolationLevel)
  | insertActive (txn : Nat)
  | copyActive (txn : Nat)
  | readUpLimit (txn : Nat)
  | captureSequence (txn : Nat)
  | acquire (txn : Nat) (key : Key)
  | wake (txn : Nat)
  | giveUp (txn : Nat)
  | keepLock (txn : Nat)
  | write (txn : Nat) (content : Option Value)
  | prepareCommit (txn : Nat) (order : List Key)
  | logged (txn : Nat) (success : Bool)
  | synced (txn : Nat) (success : Bool)
  | markCommitted (txn : Nat)
  | onCommitted (txn : Nat)
  | rollback (txn : Nat)
  | markAborted (txn : Nat)
  | onAborted (txn : Nat)
  | release (txn : Nat) (key : Key)
  | releaseAll (txn : Nat)
  | pick (call maxItems : Nat) (order : List Key)
  | wrote (call : Nat) (success : Bool)
  | markFlushed (call : Nat)
  | garbageCollect
  deriving DecidableEq, Repr

namespace TxManager

def chain (m : TxManager) (key : Key) : Chain := m.versions.chain key

/-- `Current` of the two generators. -/
def currentTxn (m : TxManager) : Nat := m.nextTxn - 1
def currentSequence (m : TxManager) : Nat := m.nextSequence - 1

def setTxn (m : TxManager) (txn : Nat) (t : Transaction) : TxManager :=
  { m with txns := Function.update m.txns txn (some t) }

def setLock (m : TxManager) (key : Key) (entry : LockEntry) : TxManager :=
  { m with locks := Function.update m.locks key entry }

def setFlush (m : TxManager) (call : Nat) (f : Option FlushCall) : TxManager :=
  { m with flushes := Function.update m.flushes call f }

/-- `BuildReadView`, without the copy of the active set. -/
def readView (m : TxManager) (isolation : IsolationLevel) (txn : Nat) (active : List Nat) :
    ReadView :=
  match isolation with
  | .kReadCommitted => ⟨.kReadCommitted, txn, m.currentTxn + 1, []⟩
  | _ => ⟨.kRepeatableRead, txn, m.currentTxn + 1, active⟩

/-! ## Steps of a transaction -/

def allocate (m : TxManager) (isolation : IsolationLevel) : TxManager :=
  { m with
    nextTxn := m.nextTxn + 1
    txns := Function.update m.txns m.nextTxn
      (some { isolation := isolation, view := m.readView isolation m.nextTxn [] }) }

def insertActive (m : TxManager) (txn : Nat) (t : Transaction) : Option TxManager :=
  match t.stage with
  | .allocated =>
      some { m.setTxn txn { t with stage := .inserted } with activeTxns := m.activeTxns.insert txn }
  | _ => none

def copyActive (m : TxManager) (txn : Nat) (t : Transaction) : Option TxManager :=
  match t.stage with
  | .inserted => some (m.setTxn txn { t with stage := .copied m.activeTxns })
  | _ => none

def readUpLimit (m : TxManager) (txn : Nat) (t : Transaction) : Option TxManager :=
  match t.stage with
  | .copied active =>
      some (m.setTxn txn { t with stage := .viewed, view := m.readView t.isolation txn active })
  | _ => none

def captureSequence (m : TxManager) (txn : Nat) (t : Transaction) : Option TxManager :=
  match t.stage with
  | .viewed => some (m.setTxn txn { t with stage := .running, lsmReadSeq := m.currentSequence })
  | _ => none

/-- `Acquire` up to the grant or to the wait. -/
def acquire (m : TxManager) (txn : Nat) (key : Key) (t : Transaction) : Option TxManager :=
  match t.stage with
  | .running =>
      if (m.locks key).canGrant txn .kExclusiveLock then
        some ((m.setTxn txn { t with stage := .granted key }).setLock key
          ((m.locks key).grant txn .kExclusiveLock))
      else
        some ((m.setTxn txn { t with stage := .waiting key }).setLock key
          ((m.locks key).enqueue txn .kExclusiveLock))
  | _ => none

def wake (m : TxManager) (txn : Nat) (t : Transaction) : Option TxManager :=
  match t.stage with
  | .waiting key =>
      if (m.locks key).canGrant txn .kExclusiveLock then
        some ((m.setTxn txn { t with stage := .granted key }).setLock key
          ((m.locks key).wake txn .kExclusiveLock))
      else none
  | _ => none

def giveUp (m : TxManager) (txn : Nat) (t : Transaction) : Option TxManager :=
  match t.stage with
  | .waiting key =>
      some ((m.setTxn txn { t with stage := .running }).setLock key
        ((m.locks key).removeWaiter txn))
  | _ => none

/-- `GetForUpdate` takes the lock and writes nothing. -/
def keepLock (m : TxManager) (txn : Nat) (t : Transaction) : Option TxManager :=
  match t.stage with
  | .granted _ => some (m.setTxn txn { t with stage := .running })
  | _ => none

/-- `Put` and `Delete` after the lock is granted. -/
def write (m : TxManager) (txn : Nat) (content : Option Value) (t : Transaction) :
    Option TxManager :=
  match t.stage with
  | .granted key =>
      let versions :=
        match content with
        | some value => m.versions.putActive key value txn
        | none => m.versions.deleteActive key txn
      some { m.setTxn txn { t with
          stage := .running
          touchedKeys := t.touchedKeys.insert key
          writes := (key, content) :: t.writes } with versions := versions }
  | _ => none

/-- The touched keys are logged in the order of the hash table. -/
def prepareCommit (m : TxManager) (txn : Nat) (order : List Key) (t : Transaction) :
    Option TxManager :=
  match t.stage with
  | .running =>
      if order.Perm t.touchedKeys then
        some { m.setTxn txn { t with stage := .logging m.nextSequence order } with
          nextSequence := m.nextSequence + 1 }
      else none
  | _ => none

def logged (m : TxManager) (txn : Nat) (success : Bool) (t : Transaction) : Option TxManager :=
  match t.stage with
  | .logging sequence (key :: rest) =>
      if (m.chain key).latestActive txn = none ∨ success then
        some (m.setTxn txn { t with stage := .logging sequence rest })
      else some (m.setTxn txn { t with stage := .aborting })
  | _ => none

def synced (m : TxManager) (txn : Nat) (success : Bool) (t : Transaction) : Option TxManager :=
  match t.stage with
  | .logging sequence [] =>
      some (m.setTxn txn { t with stage := if success then .synced sequence else .aborting })
  | _ => none

def markCommitted (m : TxManager) (txn : Nat) (t : Transaction) : Option TxManager :=
  match t.stage with
  | .synced sequence =>
      some { m.setTxn txn { t with stage := .committed } with
        versions := m.versions.markTransactionCommitted txn sequence
        commits := ⟨txn, sequence, t.writes⟩ :: m.commits }
  | _ => none

def onCommitted (m : TxManager) (txn : Nat) (t : Transaction) : Option TxManager :=
  match t.stage with
  | .committed =>
      some { m.setTxn txn { t with stage := .leaving } with activeTxns := m.activeTxns.erase txn }
  | _ => none

/-- `Rollback`, or the end of an unfinished transaction object. -/
def rollback (m : TxManager) (txn : Nat) (t : Transaction) : Option TxManager :=
  match t.stage with
  | .running => some (m.setTxn txn { t with stage := .aborting })
  | _ => none

def markAborted (m : TxManager) (txn : Nat) (t : Transaction) : Option TxManager :=
  match t.stage with
  | .aborting =>
      some { m.setTxn txn { t with stage := .aborted } with
        versions := m.versions.markTransactionAborted txn }
  | _ => none

def onAborted (m : TxManager) (txn : Nat) (t : Transaction) : Option TxManager :=
  match t.stage with
  | .aborted =>
      some { m.setTxn txn { t with stage := .leaving } with activeTxns := m.activeTxns.erase txn }
  | _ => none

/-- One entry of the loop of `ReleaseAll`. -/
def release (m : TxManager) (txn : Nat) (key : Key) (t : Transaction) : Option TxManager :=
  match t.stage with
  | .leaving => some (m.setLock key ((m.locks key).release txn))
  | _ => none

/-- The end of `ReleaseAll`: no entry is left with the transaction as a holder. -/
def releaseAll (m : TxManager) (txn : Nat) (t : Transaction) : Option TxManager :=
  match t.stage with
  | .leaving =>
      some { m.setTxn txn { t with stage := .finished } with
        locks := fun key => (m.locks key).release txn }
  | _ => none

/-! ## Background steps -/

def pick (m : TxManager) (call maxItems : Nat) (order : List Key) : Option TxManager :=
  if m.flushes call = none ∧ order.Perm m.versions.keys then
    let items := m.versions.pickCommittedNotFlushed maxItems [] order
    if items.isEmpty then some m else some (m.setFlush call (some ⟨[], items⟩))
  else none

def wrote (m : TxManager) (call : Nat) (success : Bool) (f : FlushCall) : Option TxManager :=
  match f.remaining with
  | item :: rest =>
      some (m.setFlush call (if success then some ⟨f.written ++ [item], rest⟩ else none))
  | [] => none

def markFlushed (m : TxManager) (call : Nat) (f : FlushCall) : Option TxManager :=
  match f.remaining with
  | [] => some { m.setFlush call none with versions := m.versions.markFlushed f.marks }
  | _ :: _ => none

def garbageCollect (m : TxManager) : TxManager :=
  { m with versions := m.versions.garbageCollect }

def step (m : TxManager) : TxAction → Option TxManager
  | .allocate isolation => some (m.allocate isolation)
  | .insertActive txn => (m.txns txn).bind (m.insertActive txn)
  | .copyActive txn => (m.txns txn).bind (m.copyActive txn)
  | .readUpLimit txn => (m.txns txn).bind (m.readUpLimit txn)
  | .captureSequence txn => (m.txns txn).bind (m.captureSequence txn)
  | .acquire txn key => (m.txns txn).bind (m.acquire txn key)
  | .wake txn => (m.txns txn).bind (m.wake txn)
  | .giveUp txn => (m.txns txn).bind (m.giveUp txn)
  | .keepLock txn => (m.txns txn).bind (m.keepLock txn)
  | .write txn content => (m.txns txn).bind (m.write txn content)
  | .prepareCommit txn order => (m.txns txn).bind (m.prepareCommit txn order)
  | .logged txn success => (m.txns txn).bind (m.logged txn success)
  | .synced txn success => (m.txns txn).bind (m.synced txn success)
  | .markCommitted txn => (m.txns txn).bind (m.markCommitted txn)
  | .onCommitted txn => (m.txns txn).bind (m.onCommitted txn)
  | .rollback txn => (m.txns txn).bind (m.rollback txn)
  | .markAborted txn => (m.txns txn).bind (m.markAborted txn)
  | .onAborted txn => (m.txns txn).bind (m.onAborted txn)
  | .release txn key => (m.txns txn).bind (m.release txn key)
  | .releaseAll txn => (m.txns txn).bind (m.releaseAll txn)
  | .pick call maxItems order => m.pick call maxItems order
  | .wrote call success => (m.flushes call).bind (m.wrote call success)
  | .markFlushed call => (m.flushes call).bind (m.markFlushed call)
  | .garbageCollect => some m.garbageCollect

end TxManager
end Lrdb
