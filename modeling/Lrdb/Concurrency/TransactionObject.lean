import Mathlib.Data.Finset.Basic
import Lrdb.Concurrency.LockQueue
import Lrdb.Concurrency.VersionChainManager

/-!
# Transaction objects

A transaction object takes its calls in any order, after a commit or a rollback as well. Its end cleans
up by what the calls before it have noted: a finished object is taken to have no active version.
-/

namespace Lrdb
open Runs Chain

inductive LockedCall where
  | write (content : Option Value)
  | read
  deriving DecidableEq, Repr

structure TransactionImpl where
  finished : Bool := false
  touchedKeys : List Key := []
  waiting : Option (Key × LockedCall) := none
  deriving DecidableEq, Repr

inductive CommitOutcome where
  /-- The validation of the read set fails. -/
  | invalid
  /-- A record is not logged or the log is not synced. -/
  | failed
  | succeeds
  deriving DecidableEq, Repr

structure TransactionObjects where
  nextTxn : Nat := 1
  nextSequence : Nat := 1
  activeTxns : Finset Nat := ∅
  versions : VersionChainManager := .new
  locks : Key → LockEntry := fun _ => {}
  objects : Nat → Option TransactionImpl := fun _ => none

inductive ObjectCall where
  | begin
  /-- `Put`, `Delete` and `GetForUpdate` up to the lock; `refused` if `Acquire` fails before it queues. -/
  | acquire (txn : Nat) (key : Key) (call : LockedCall) (refused : Bool)
  | wake (txn : Nat)
  | giveUp (txn : Nat)
  | get (txn : Nat) (key : Key)
  | commit (txn : Nat) (outcome : CommitOutcome)
  | rollback (txn : Nat)
  | destroy (txn : Nat)
  | markFlushed (marks : List (Key × Nat))
  | garbageCollect
  deriving DecidableEq, Repr

namespace TransactionObjects

def setObject (st : TransactionObjects) (txn : Nat) (o : Option TransactionImpl) : TransactionObjects :=
  { st with objects := Function.update st.objects txn o }

def setLock (st : TransactionObjects) (key : Key) (entry : LockEntry) : TransactionObjects :=
  { st with locks := Function.update st.locks key entry }

def chain (st : TransactionObjects) (key : Key) : Chain := st.versions.chain key

def start (st : TransactionObjects) : TransactionObjects :=
  { st with
    nextTxn := st.nextTxn + 1
    activeTxns := insert st.nextTxn st.activeTxns
    objects := Function.update st.objects st.nextTxn (some {}) }

/-- `PutActive` or `DeleteActive`. -/
def writeActive (st : TransactionObjects) (txn : Nat) (key : Key) : Option Value → VersionChainManager
  | some value => st.versions.putActive key value txn
  | none => st.versions.deleteActive key txn

def granted (st : TransactionObjects) (txn : Nat) (o : TransactionImpl) (key : Key) :
    LockedCall → TransactionObjects
  | .write content =>
      { st.setObject txn (some
          { o with touchedKeys := o.touchedKeys.insert key, waiting := none }) with
        versions := st.writeActive txn key content }
  | .read => st.setObject txn (some { o with waiting := none })

def acquire (st : TransactionObjects) (txn : Nat) (o : TransactionImpl) (key : Key) (call : LockedCall)
    (refused : Bool) : TransactionObjects :=
  if refused then st
  else if (st.locks key).canGrant txn .kExclusiveLock then
    (st.setLock key ((st.locks key).grant txn .kExclusiveLock)).granted txn o key call
  else
    (st.setLock key ((st.locks key).enqueue txn .kExclusiveLock)).setObject txn
      (some { o with waiting := some (key, call) })

def wake (st : TransactionObjects) (txn : Nat) (o : TransactionImpl) : Option TransactionObjects :=
  match o.waiting with
  | some (key, call) =>
      if (st.locks key).canGrant txn .kExclusiveLock then
        some ((st.setLock key ((st.locks key).wake txn .kExclusiveLock)).granted txn o key call)
      else none
  | none => none

def giveUp (st : TransactionObjects) (txn : Nat) (o : TransactionImpl) : Option TransactionObjects :=
  match o.waiting with
  | some (key, _) =>
      some ((st.setLock key ((st.locks key).removeWaiter txn)).setObject txn
        (some { o with waiting := none }))
  | none => none

def releaseAll (st : TransactionObjects) (txn : Nat) : TransactionObjects :=
  { st with locks := fun key => (st.locks key).release txn }

/-- `MarkTransactionAborted` and `OnAborted`. -/
def markAborted (st : TransactionObjects) (txn : Nat) : TransactionObjects :=
  { st with
    versions := st.versions.markTransactionAborted txn
    activeTxns := st.activeTxns.erase txn }

/-- `MarkTransactionCommitted` and `OnCommitted`. -/
def markCommitted (st : TransactionObjects) (txn : Nat) : TransactionObjects :=
  { st with
    versions := st.versions.markTransactionCommitted txn st.nextSequence
    activeTxns := st.activeTxns.erase txn }

/-- How `Commit`, `Rollback` and `Abort` leave the object. -/
def ended : TransactionImpl := { finished := true }

def rollback (st : TransactionObjects) (txn : Nat) : TransactionObjects :=
  ((st.markAborted txn).releaseAll txn).setObject txn (some ended)

def commit (st : TransactionObjects) (txn : Nat) : CommitOutcome → TransactionObjects
  | .invalid => st
  | .failed => { st.rollback txn with nextSequence := st.nextSequence + 1 }
  | .succeeds =>
      { ((st.markCommitted txn).releaseAll txn).setObject txn (some ended) with
        nextSequence := st.nextSequence + 1 }

/-- The destructor. An object of `Begin` has an identifier other than zero. -/
def destroy (st : TransactionObjects) (txn : Nat) (o : TransactionImpl) : TransactionObjects :=
  ((if o.finished then st else st.markAborted txn).releaseAll txn).setObject txn none

def idle (st : TransactionObjects) (txn : Nat) : Option TransactionImpl :=
  (st.objects txn).filter fun o => o.waiting.isNone

def step (st : TransactionObjects) : ObjectCall → Option TransactionObjects
  | .begin => some st.start
  | .acquire txn key call refused => (st.idle txn).map fun o => st.acquire txn o key call refused
  | .wake txn => (st.objects txn).bind (st.wake txn)
  | .giveUp txn => (st.objects txn).bind (st.giveUp txn)
  | .get txn _ => (st.idle txn).map fun _ => st
  | .commit txn outcome => (st.idle txn).map fun _ => st.commit txn outcome
  | .rollback txn => (st.idle txn).map fun _ => st.rollback txn
  | .destroy txn => (st.idle txn).map (st.destroy txn)
  | .markFlushed marks => some { st with versions := st.versions.markFlushed marks }
  | .garbageCollect => some { st with versions := st.versions.garbageCollect }

structure NothingLeft (st : TransactionObjects) (txn : Nat) : Prop where
  versions : ∀ key, ∀ r ∈ st.chain key, ¬ r.isActiveOf txn
  held : ∀ key, ¬ (st.locks key).HeldBy txn
  queued : ∀ key, ∀ w ∈ (st.locks key).waiters, w.txnId ≠ txn
  active : txn ∉ st.activeTxns

/-! ## What holds in every state -/

structure Sound (st : TransactionObjects) : Prop where
  begun : ∀ txn, st.objects txn ≠ none → txn < st.nextTxn
  fresh : ∀ txn, st.nextTxn ≤ txn → ∀ key, pending (st.chain key) txn = []
  touched : ∀ txn o, st.objects txn = some o →
    ∀ key, key ∈ o.touchedKeys ↔ pending (st.chain key) txn ≠ []
  active : ∀ txn ∈ st.activeTxns, ∃ o, st.objects txn = some o ∧ o.finished = false
  queued : ∀ key, ∀ w ∈ (st.locks key).waiters,
    ∃ o call, st.objects w.txnId = some o ∧ o.waiting = some (key, call)
  once : ∀ key, (st.locks key).Once
  held : ∀ key txn, (st.locks key).HeldBy txn → st.objects txn ≠ none

theorem sound_initial : Sound {} where
  begun := by simp
  fresh _ _ _ := rfl
  touched := by simp
  active := by simp
  queued := by simp
  once := by simp [LockEntry.Once]
  held := by simp [LockEntry.HeldBy]

variable {st st' : TransactionObjects} {txn : Nat}

structure Own (txn : Nat) (st st' : TransactionObjects) (o : Option TransactionImpl) : Prop where
  nextTxn : st'.nextTxn = st.nextTxn
  objects : st'.objects = Function.update st.objects txn o
  others : ∀ other, other ≠ txn → ∀ key, pending (st'.chain key) other = pending (st.chain key) other
  touched : ∀ after ∈ o, ∀ key, key ∈ after.touchedKeys ↔ pending (st'.chain key) txn ≠ []
  active : ∀ other ∈ st'.activeTxns, other ∈ st.activeTxns ∧
    (other = txn → ∃ after ∈ o, after.finished = false)
  waiters : ∀ key, ∀ w ∈ (st'.locks key).waiters,
    w ∈ (st.locks key).waiters ∧ w.txnId ≠ txn ∨
      w.txnId = txn ∧ ∃ after ∈ o, ∃ call, after.waiting = some (key, call)
  once : ∀ key, (st'.locks key).Once
  held : ∀ key other, (st'.locks key).HeldBy other →
    (st.locks key).HeldBy other ∧ other ≠ txn ∨ other = txn ∧ o ≠ none

theorem Sound.own {o : Option TransactionImpl} (sound : Sound st) (own : Own txn st st' o)
    (begun : txn < st.nextTxn) : Sound st' where
  begun other some := by
    rw [own.objects] at some
    rw [own.nextTxn]
    by_cases same : other = txn
    · rwa [same]
    · rw [Function.update_of_ne same] at some
      exact sound.begun other some
  fresh other late key := by
    rw [own.nextTxn] at late
    have different : other ≠ txn := (begun.trans_le late).ne'
    rw [own.others other different]
    exact sound.fresh other late key
  touched other after here key := by
    rw [own.objects] at here
    by_cases same : other = txn
    · subst same
      rw [Function.update_self] at here
      exact own.touched after here key
    · rw [Function.update_of_ne same] at here
      rw [own.others other same]
      exact sound.touched other after here key
  active other member := by
    obtain ⟨old, self⟩ := own.active other member
    rw [own.objects]
    by_cases same : other = txn
    · obtain ⟨after, here, unfinished⟩ := self same
      rw [same, Function.update_self]
      exact ⟨after, here, unfinished⟩
    · rw [Function.update_of_ne same]
      exact sound.active other old
  queued key w member := by
    rw [own.objects]
    rcases own.waiters key w member with ⟨old, different⟩ | ⟨same, after, here, call, waits⟩
    · rw [Function.update_of_ne different]
      exact sound.queued key w old
    · rw [same, Function.update_self]
      exact ⟨after, call, here, waits⟩
  once := own.once
  held key other holds := by
    rw [own.objects]
    rcases own.held key other holds with ⟨old, different⟩ | ⟨same, some⟩
    · rw [Function.update_of_ne different]
      exact sound.held key other old
    · rwa [same, Function.update_self]

/-! ## What one step does -/

theorem pending_writeActive {other : Nat} (key : Key) (content : Option Value) (place : Key) :
    pending ((st.writeActive txn key content).chain place) other =
      if place = key ∧ other = txn then content :: pending (st.chain place) other
      else pending (st.chain place) other := by
  have appended {r : VersionRecord} (owner : r.txnId = txn) (active : r.state = .kActive)
      (written : r.written = content) : pending ((st.versions.append key r).chain place) other =
        if place = key ∧ other = txn then content :: pending (st.chain place) other
        else pending (st.chain place) other := by
    by_cases here : place = key
    · subst here
      have chain : (st.versions.append place r).chain place = r :: st.chain place := Function.update_self ..
      rw [chain, pending_cons, written]
      by_cases same : other = txn
      · have own : r.isActiveOf other := by
          simp [VersionRecord.isActiveOf, VersionRecord.isActive, owner, active, same]
        rw [if_pos own, if_pos ⟨rfl, same⟩]
      · have foreign : ¬ r.isActiveOf other := by
          simp [VersionRecord.isActiveOf, owner, Ne.symm same]
        rw [if_neg foreign, if_neg fun both => same both.2]
    · have chain : (st.versions.append key r).chain place = st.chain place := Function.update_of_ne here ..
      rw [chain, if_neg fun both => here both.1]
  cases content with
  | none => exact appended rfl rfl rfl
  | some value => exact appended rfl rfl rfl

theorem Sound.unfinished {o : TransactionImpl} (sound : Sound st) (here : st.objects txn = some o)
    (member : txn ∈ st.activeTxns) : o.finished = false := by
  obtain ⟨found, there, unfinished⟩ := sound.active txn member
  rw [here] at there
  exact Option.some.inj there ▸ unfinished

theorem own_granted {o : TransactionImpl} (sound : Sound st) (here : st.objects txn = some o)
    {key : Key} {entry : LockEntry}
    (waiters : ∀ w ∈ entry.waiters, w ∈ (st.locks key).waiters ∧ w.txnId ≠ txn)
    (once : entry.Once)
    (held : ∀ other, entry.HeldBy other → (st.locks key).HeldBy other ∨ other = txn)
    (elsewhere : ∀ other ≠ key, ∀ w ∈ (st.locks other).waiters, w.txnId ≠ txn) (call : LockedCall) :
    ∃ after, Own txn st ((st.setLock key entry).granted txn o key call) (some after) := by
  have lock (other : Key) : ((st.setLock key entry).granted txn o key call).locks other =
      if other = key then entry else st.locks other := by
    cases call <;> exact Function.update_apply ..
  have queues : ∀ other, ∀ w ∈ (((st.setLock key entry).granted txn o key call).locks other).waiters,
      w ∈ (st.locks other).waiters ∧ w.txnId ≠ txn := by
    intro other w member
    rw [lock] at member
    split at member
    · rename_i same
      exact same ▸ waiters w member
    · rename_i different
      exact ⟨member, elsewhere other different w member⟩
  have distinct : ∀ other,
      (((st.setLock key entry).granted txn o key call).locks other).Once := by
    intro other
    rw [lock]
    split
    · exact once
    · exact sound.once other
  have holders : ∀ other holder,
      (((st.setLock key entry).granted txn o key call).locks other).HeldBy holder →
        (st.locks other).HeldBy holder ∧ holder ≠ txn ∨ holder = txn := by
    intro other holder holds
    rw [lock] at holds
    by_cases same : holder = txn
    · exact .inr same
    · split at holds
      · rename_i place
        exact .inl ⟨place ▸ (held holder holds).resolve_right same, same⟩
      · exact .inl ⟨holds, same⟩
  have unfinished := sound.unfinished here
  cases call with
  | read =>
      refine ⟨{ o with waiting := none }, rfl, rfl, fun _ _ _ => rfl, ?_, ?_, ?_, distinct, ?_⟩
      · rintro after ⟨⟩ place
        exact sound.touched txn o here place
      · exact fun other member => ⟨member, fun same => ⟨_, rfl, unfinished (same ▸ member)⟩⟩
      · exact fun other w member => .inl (queues other w member)
      · exact fun other holder holds => (holders other holder holds).imp_right fun same => ⟨same, by simp⟩
  | write content =>
      refine ⟨{ o with touchedKeys := o.touchedKeys.insert key, waiting := none }, rfl, rfl, ?_, ?_,
        ?_, ?_, distinct, ?_⟩
      · intro other different place
        exact (pending_writeActive key content place).trans (if_neg fun both => different both.2)
      · rintro after ⟨⟩ place
        have touched := sound.touched txn o here place
        have written := @pending_writeActive st txn txn key content place
        show place ∈ o.touchedKeys.insert key ↔
          pending ((st.writeActive txn key content).chain place) txn ≠ []
        rw [List.mem_insert_iff, written, touched]
        by_cases same : place = key
        · simp [same]
        · simp [same]
      · exact fun other member => ⟨member, fun same => ⟨_, rfl, unfinished (same ▸ member)⟩⟩
      · exact fun other w member => .inl (queues other w member)
      · exact fun other holder holds => (holders other holder holds).imp_right fun same => ⟨same, by simp⟩

theorem Sound.not_waiting {o : TransactionImpl} (sound : Sound st) (here : st.objects txn = some o)
    {key : Key} (free : ∀ call, o.waiting ≠ some (key, call)) :
    ∀ w ∈ (st.locks key).waiters, w.txnId ≠ txn := by
  rintro w member rfl
  obtain ⟨found, call, there, waits⟩ := sound.queued key w member
  rw [here] at there
  obtain rfl := Option.some.inj there
  exact free call waits

theorem own_acquire {o : TransactionImpl} (sound : Sound st) (here : st.objects txn = some o)
    (idle : o.waiting = none) (key : Key) (call : LockedCall) (refused : Bool) :
    ∃ after, Own txn st (st.acquire txn o key call refused) (some after) := by
  have free (key : Key) := @Sound.not_waiting st txn o sound here key (by simp [idle])
  have unfinished := sound.unfinished here
  unfold acquire
  split
  · refine ⟨o, rfl, ?_, fun _ _ _ => rfl, ?_, ?_, ?_, sound.once, ?_⟩
    · rw [← here, Function.update_eq_self]
    · rintro after ⟨⟩ place
      exact sound.touched txn o here place
    · exact fun other member => ⟨member, fun same => ⟨o, rfl, unfinished (same ▸ member)⟩⟩
    · exact fun other w member => .inl ⟨member, free other w member⟩
    · intro other holder holds
      by_cases same : holder = txn
      · exact .inr ⟨same, by simp⟩
      · exact .inl ⟨holds, same⟩
  split
  · refine @own_granted st txn o sound here key ((st.locks key).grant txn .kExclusiveLock) ?_
      (sound.once key) ?_ (fun other _ => free other) call
    · exact fun w member => ⟨member, free key w member⟩
    · exact fun other holds => (LockEntry.heldBy_grant.mp holds).imp_right Eq.symm
  · refine ⟨{ o with waiting := some (key, call) }, rfl, rfl, fun _ _ _ => rfl, ?_, ?_, ?_, ?_, ?_⟩
    · rintro after ⟨⟩ place
      exact sound.touched txn o here place
    · exact fun other member => ⟨member, fun same => ⟨_, rfl, unfinished (same ▸ member)⟩⟩
    · intro other w member
      by_cases same : other = key
      · subst same
        have queue : w ∈ (st.locks other).waiters ++ [⟨txn, .kExclusiveLock⟩] := by
          simpa [setObject, setLock, LockEntry.enqueue] using member
        rcases List.mem_append.mp queue with old | new
        · exact .inl ⟨old, free other w old⟩
        · obtain rfl := List.mem_singleton.mp new
          exact .inr ⟨rfl, _, rfl, call, rfl⟩
      · have queue : w ∈ (st.locks other).waiters := by
          simpa [setObject, setLock, same] using member
        exact .inl ⟨queue, free other w queue⟩
    · intro other
      by_cases same : other = key
      · subst same
        have distinct : (((st.locks other).waiters ++ [LockRequest.mk txn .kExclusiveLock]).map
            LockRequest.txnId).Nodup := by
          rw [List.map_append, List.nodup_append]
          refine ⟨sound.once other, List.nodup_singleton _, ?_⟩
          intro a first b second
          obtain ⟨w, member, rfl⟩ := List.mem_map.mp first
          obtain rfl : b = txn := by simpa using second
          exact free other w member
        simpa [setObject, setLock, LockEntry.enqueue, LockEntry.Once] using distinct
      · simpa [setObject, setLock, same] using sound.once other
    · intro other holder holds
      have old : (st.locks other).HeldBy holder := by
        by_cases same : other = key
        · subst same
          simpa [setObject, setLock] using holds
        · simpa [setObject, setLock, same] using holds
      by_cases same : holder = txn
      · exact .inr ⟨same, by simp⟩
      · exact .inl ⟨old, same⟩

theorem own_wake {o : TransactionImpl} (sound : Sound st) (here : st.objects txn = some o)
    (woken : st.wake txn o = some st') : ∃ after, Own txn st st' (some after) := by
  unfold wake at woken
  split at woken <;> [skip; cases woken]
  rename_i key call waits
  split at woken <;> [skip; cases woken]
  rename_i grantable
  obtain rfl := Option.some.inj woken
  have left : ((st.locks key).wake txn .kExclusiveLock).waiters =
      (st.locks key).waiters.filter fun w => w.txnId != txn := by
    rcases (LockEntry.canGrant_iff.mp grantable).2 with none | first
    · simp [LockEntry.wake, LockEntry.grant, none]
    · exact (sound.once key).wake grantable (List.mem_of_head? first)
  have elsewhere : ∀ other ≠ key, ∀ w ∈ (st.locks other).waiters, w.txnId ≠ txn :=
    fun other different => sound.not_waiting here fun call' both =>
      different (Prod.ext_iff.mp (Option.some.inj (both.symm.trans waits))).1
  refine @own_granted st txn o sound here key ((st.locks key).wake txn .kExclusiveLock) ?_ ?_ ?_
    elsewhere call
  · intro w member
    rw [left] at member
    obtain ⟨old, different⟩ := List.mem_filter.mp member
    exact ⟨old, by simpa using different⟩
  · rw [LockEntry.Once, left]
    exact (sound.once key).sublist (List.filter_sublist.map _)
  · exact fun other holds => (LockEntry.heldBy_wake.mp holds).imp_right Eq.symm

theorem own_giveUp {o : TransactionImpl} (sound : Sound st) (here : st.objects txn = some o)
    (left : st.giveUp txn o = some st') : ∃ after, Own txn st st' (some after) := by
  unfold giveUp at left
  split at left <;> [skip; cases left]
  rename_i key call waits
  obtain rfl := Option.some.inj left
  have elsewhere : ∀ other ≠ key, ∀ w ∈ (st.locks other).waiters, w.txnId ≠ txn :=
    fun other different => sound.not_waiting here fun call' both =>
      different (Prod.ext_iff.mp (Option.some.inj (both.symm.trans waits))).1
  refine @own_granted st txn o sound here key ((st.locks key).removeWaiter txn) ?_ ?_ ?_
    elsewhere .read
  · intro w member
    rw [(sound.once key).removeWaiter] at member
    obtain ⟨old, different⟩ := List.mem_filter.mp member
    exact ⟨old, by simpa using different⟩
  · rw [LockEntry.Once, (sound.once key).removeWaiter]
    exact (sound.once key).sublist (List.filter_sublist.map _)
  · exact fun other holds => .inl (LockEntry.heldBy_removeWaiter.mp holds)

theorem own_releaseAll {o : Option TransactionImpl} {middle : TransactionObjects} (sound : Sound st)
    (free : ∀ key, ∀ w ∈ (st.locks key).waiters, w.txnId ≠ txn) (nextTxn : middle.nextTxn = st.nextTxn)
    (objects : middle.objects = st.objects) (locks : middle.locks = st.locks)
    (others : ∀ other, other ≠ txn → ∀ key,
      pending (middle.chain key) other = pending (st.chain key) other)
    (touched : ∀ after ∈ o, ∀ key, key ∈ after.touchedKeys ↔ pending (middle.chain key) txn ≠ [])
    (active : middle.activeTxns = st.activeTxns.erase txn ∨
      middle.activeTxns = st.activeTxns ∧ txn ∉ st.activeTxns) :
    Own txn st ((middle.releaseAll txn).setObject txn o) o := by
  refine ⟨nextTxn, ?_, others, touched, ?_, ?_, ?_, ?_⟩
  · show Function.update middle.objects txn o = _
    rw [objects]
  · intro other member
    have member : other ∈ middle.activeTxns := member
    rcases active with erased | ⟨same, gone⟩
    · rw [erased, Finset.mem_erase] at member
      exact ⟨member.2, fun same => absurd same member.1⟩
    · rw [same] at member
      exact ⟨member, fun same => absurd (same ▸ member) gone⟩
  · intro key w member
    have member : w ∈ (middle.locks key).waiters := member
    rw [locks] at member
    exact .inl ⟨member, free key w member⟩
  · intro key
    show (middle.locks key).Once
    rw [locks]
    exact sound.once key
  · intro key other holds
    obtain ⟨old, different⟩ := LockEntry.heldBy_release.mp holds
    rw [locks] at old
    exact .inl ⟨old, different⟩

theorem own_rollback {o : TransactionImpl} (sound : Sound st) (here : st.objects txn = some o)
    (idle : o.waiting = none) : Own txn st (st.rollback txn) (some ended) := by
  refine own_releaseAll sound (fun key => sound.not_waiting here (by simp [idle])) rfl rfl rfl
    (fun other different key => pending_abort_other different) ?_ (.inl rfl)
  rintro after ⟨⟩ key
  exact iff_of_false List.not_mem_nil (not_not_intro pending_abort_self)

theorem own_commit {o : TransactionImpl} (sound : Sound st) (here : st.objects txn = some o)
    (idle : o.waiting = none) (outcome : CommitOutcome) :
    ∃ after, Own txn st (st.commit txn outcome) (some after) := by
  cases outcome with
  | invalid => exact own_acquire sound here idle [] .read true
  | failed =>
      have own := own_rollback sound here idle
      exact ⟨ended, own.nextTxn, own.objects, own.others, own.touched, own.active, own.waiters,
        own.once, own.held⟩
  | succeeds =>
      have own : Own txn st (((st.markCommitted txn).releaseAll txn).setObject txn (some ended))
          (some ended) := by
        refine own_releaseAll sound (fun key => sound.not_waiting here (by simp [idle])) rfl rfl rfl
          (fun other different key => pending_commit_other different) ?_ (.inl rfl)
        rintro after ⟨⟩ key
        exact iff_of_false List.not_mem_nil (not_not_intro pending_commit_self)
      exact ⟨ended, own.nextTxn, own.objects, own.others, own.touched, own.active, own.waiters,
        own.once, own.held⟩

theorem own_destroy {o : TransactionImpl} (sound : Sound st) (here : st.objects txn = some o)
    (idle : o.waiting = none) : Own txn st (st.destroy txn o) none := by
  have free (key : Key) := @Sound.not_waiting st txn o sound here key (by simp [idle])
  unfold destroy
  split
  · rename_i finished
    refine own_releaseAll sound free rfl rfl rfl (fun _ _ _ => rfl) (by simp) (.inr ⟨rfl, ?_⟩)
    exact fun member => Bool.noConfusion (finished.symm.trans (sound.unfinished here member))
  · exact own_releaseAll sound free rfl rfl rfl (fun other different key =>
      pending_abort_other different) (by simp) (.inl rfl)

theorem idle_eq_some {o : TransactionImpl} (idle : st.idle txn = some o) :
    st.objects txn = some o ∧ o.waiting = none := by
  obtain ⟨here, none⟩ := Option.filter_eq_some_iff.mp idle
  exact ⟨here, Option.isNone_iff_eq_none.mp none⟩

theorem step_cases (sound : Sound st) {a : ObjectCall} (stepped : st.step a = some st') :
    st' = st.start ∨
      (∃ txn o after, st.objects txn = some o ∧ Own txn st st' after) ∨
      (∃ versions : VersionChainManager, st' = { st with versions := versions } ∧
        ∀ key txn, pending (versions.chain key) txn = pending (st.chain key) txn) := by
  cases a with
  | begin => exact .inl (Option.some.inj stepped).symm
  | acquire txn key call refused =>
      obtain ⟨o, idle, rfl⟩ := Option.map_eq_some_iff.mp stepped
      obtain ⟨here, idle⟩ := idle_eq_some idle
      obtain ⟨after, own⟩ := own_acquire sound here idle key call refused
      exact .inr (.inl ⟨txn, o, _, here, own⟩)
  | wake txn =>
      obtain ⟨o, here, woken⟩ := Option.bind_eq_some_iff.mp stepped
      obtain ⟨after, own⟩ := own_wake sound here woken
      exact .inr (.inl ⟨txn, o, _, here, own⟩)
  | giveUp txn =>
      obtain ⟨o, here, left⟩ := Option.bind_eq_some_iff.mp stepped
      obtain ⟨after, own⟩ := own_giveUp sound here left
      exact .inr (.inl ⟨txn, o, _, here, own⟩)
  | get txn key =>
      obtain ⟨o, idle, rfl⟩ := Option.map_eq_some_iff.mp stepped
      exact .inr (.inr ⟨st.versions, rfl, fun _ _ => rfl⟩)
  | commit txn outcome =>
      obtain ⟨o, idle, rfl⟩ := Option.map_eq_some_iff.mp stepped
      obtain ⟨here, idle⟩ := idle_eq_some idle
      obtain ⟨after, own⟩ := own_commit sound here idle outcome
      exact .inr (.inl ⟨txn, o, _, here, own⟩)
  | rollback txn =>
      obtain ⟨o, idle, rfl⟩ := Option.map_eq_some_iff.mp stepped
      obtain ⟨here, idle⟩ := idle_eq_some idle
      exact .inr (.inl ⟨txn, o, _, here, own_rollback sound here idle⟩)
  | destroy txn =>
      obtain ⟨o, idle, rfl⟩ := Option.map_eq_some_iff.mp stepped
      obtain ⟨here, idle⟩ := idle_eq_some idle
      exact .inr (.inl ⟨txn, o, _, here, own_destroy sound here idle⟩)
  | markFlushed marks =>
      exact .inr (.inr ⟨_, (Option.some.inj stepped).symm, fun _ _ => pending_markFlushed _⟩)
  | garbageCollect =>
      exact .inr (.inr ⟨_, (Option.some.inj stepped).symm, fun _ _ => pending_garbageCollect⟩)

theorem Sound.start (sound : Sound st) : Sound st.start := by
  have unused : st.objects st.nextTxn = none := by
    by_contra some
    exact (sound.begun _ some).false
  have self : st.start.objects st.nextTxn = some {} := Function.update_self ..
  have old {txn : Nat} (some : st.objects txn ≠ none) : st.start.objects txn = st.objects txn :=
    Function.update_of_ne (by rintro rfl; exact some unused) ..
  refine ⟨?_, ?_, ?_, ?_, ?_, sound.once, ?_⟩
  · intro txn some
    by_cases same : txn = st.nextTxn
    · rw [same]
      exact Nat.lt_succ_self _
    · refine (sound.begun txn ?_).trans (Nat.lt_succ_self _)
      rwa [show st.start.objects txn = _ from Function.update_of_ne same ..] at some
  · exact fun txn late => sound.fresh txn (Nat.le_of_succ_le late)
  · intro txn o here key
    by_cases same : txn = st.nextTxn
    · subst same
      rw [self] at here
      obtain rfl := Option.some.inj here
      exact iff_of_false List.not_mem_nil (not_not_intro (sound.fresh _ le_rfl key))
    · rw [show st.start.objects txn = _ from Function.update_of_ne same ..] at here
      exact sound.touched txn o here key
  · intro txn member
    rcases Finset.mem_insert.mp member with rfl | before
    · exact ⟨{}, self, rfl⟩
    · obtain ⟨o, here, unfinished⟩ := sound.active txn before
      exact ⟨o, (old (by simp [here])).trans here, unfinished⟩
  · intro key w member
    obtain ⟨o, call, here, waits⟩ := sound.queued key w member
    exact ⟨o, call, (old (by simp [here])).trans here, waits⟩
  · intro key txn holds
    have some := sound.held key txn holds
    rwa [old some]

theorem Sound.step (sound : Sound st) {a : ObjectCall} (stepped : st.step a = some st') :
    Sound st' := by
  rcases step_cases sound stepped with rfl | ⟨txn, o, after, here, own⟩ | ⟨versions, rfl, same⟩
  · exact sound.start
  · exact sound.own own (sound.begun txn (Option.ne_none_iff_exists'.mpr ⟨o, here⟩))
  · refine ⟨sound.begun, ?_, ?_, sound.active, sound.queued, sound.once, sound.held⟩
    · exact fun txn late key => (same key txn).trans (sound.fresh txn late key)
    · intro txn o here key
      show _ ↔ pending (versions.chain key) txn ≠ []
      rw [same]
      exact sound.touched txn o here key

theorem sound_of_run (run : Run step free {} st) : Sound st :=
  run.invariant (fun _ _ _ _ stepped sound => sound.step stepped) sound_initial

/-! ## After the end -/

structure Gone (txn : Nat) (left : Key → List (Option Value)) (st : TransactionObjects) : Prop where
  sound : Sound st
  begun : txn < st.nextTxn
  object : st.objects txn = none
  pending : ∀ key, pending (st.chain key) txn = left key

theorem Gone.step {left : Key → List (Option Value)} (gone : Gone txn left st) {a : ObjectCall}
    (stepped : st.step a = some st') : Gone txn left st' := by
  have sound := gone.sound.step stepped
  rcases step_cases gone.sound stepped with rfl | ⟨other, o, after, here, own⟩ | ⟨versions, rfl, same⟩
  · refine ⟨sound, gone.begun.trans (Nat.lt_succ_self _), ?_, gone.pending⟩
    exact (Function.update_of_ne gone.begun.ne ..).trans gone.object
  · have different : txn ≠ other := by
      rintro rfl
      rw [gone.object] at here
      cases here
    refine ⟨sound, own.nextTxn ▸ gone.begun, ?_, fun key => ?_⟩
    · rw [own.objects, Function.update_of_ne different]
      exact gone.object
    · exact (own.others txn different key).trans (gone.pending key)
  · exact ⟨sound, gone.begun, gone.object, fun key => (same key txn).trans (gone.pending key)⟩

theorem Gone.clean_iff {left : Key → List (Option Value)} (gone : Gone txn left st) :
    st.NothingLeft txn ↔ ∀ key, left key = [] := by
  constructor
  · exact fun nothing key => gone.pending key ▸ pending_eq_nil.mpr (nothing.versions key)
  · intro empty
    refine ⟨fun key => pending_eq_nil.mp ((gone.pending key).trans (empty key)), ?_, ?_, ?_⟩
    · exact fun key holds => gone.sound.held key txn holds gone.object
    · rintro key w member rfl
      obtain ⟨o, call, here, -⟩ := gone.sound.queued key w member
      rw [gone.object] at here
      cases here
    · intro member
      obtain ⟨o, here, -⟩ := gone.sound.active txn member
      rw [gone.object] at here
      cases here

/-- From the end of an object on, nothing of it is left if and only if it was unfinished or had noted no
key since it was finished. -/
theorem nothingLeft_iff {before after final : TransactionObjects} (run : Run step free {} before)
    {o : TransactionImpl} (here : before.idle txn = some o)
    (destroyed : before.step (.destroy txn) = some after) (later : Run step free after final) :
    final.NothingLeft txn ↔ (o.finished → o.touchedKeys = []) := by
  have sound := sound_of_run run
  obtain ⟨object, idle⟩ := idle_eq_some here
  obtain rfl : before.destroy txn o = after := by
    rw [step, here] at destroyed
    exact Option.some.inj destroyed
  have own := own_destroy sound object idle
  have begun := sound.begun txn (Option.ne_none_iff_exists'.mpr ⟨o, object⟩)
  have gone : Gone txn (fun key => pending ((before.destroy txn o).chain key) txn) final := by
    refine later.invariant (fun _ _ _ _ stepped gone => gone.step stepped) ?_
    exact ⟨sound.own own begun, own.nextTxn ▸ begun, by rw [own.objects, Function.update_self],
      fun _ => rfl⟩
  rw [gone.clean_iff]
  by_cases finished : o.finished
  · have same (key : Key) : (before.destroy txn o).chain key = before.chain key := by
      rw [destroy, if_pos finished]
      rfl
    simp only [same, finished, forall_const]
    have touched := sound.touched txn o object
    rw [List.eq_nil_iff_forall_not_mem]
    exact forall_congr' fun key => (not_congr (touched key)).trans not_not |>.symm
  · have clean (key : Key) : pending ((before.destroy txn o).chain key) txn = [] := by
      rw [destroy, if_neg finished]
      exact pending_abort_self
    simp [clean, finished]

def writeAfterCommit : List ObjectCall :=
  [.begin, .commit 1 .succeeds, .acquire 1 [107] (.write (some [1])) false]

def noted : TransactionImpl := { finished := true, touchedKeys := [[107]] }

theorem nothingLeft_iff_writeAfterCommit : ∃ before after : TransactionObjects,
    execute step {} writeAfterCommit = some before ∧ before.step (.destroy 1) = some after ∧
      (after.NothingLeft 1 ↔ (noted.finished → noted.touchedKeys = [])) := by
  have executed : (execute step {} writeAfterCommit).any fun st => st.idle 1 = some noted := by
    decide +kernel
  obtain ⟨before, executed, idle⟩ := (Option.any_eq_true _ _).mp executed
  have here : before.idle 1 = some noted := of_decide_eq_true idle
  have destroyed : before.step (.destroy 1) = some (before.destroy 1 noted) := by
    rw [step, here]
    rfl
  exact ⟨before, before.destroy 1 noted, executed, destroyed, nothingLeft_iff
    (execute_run writeAfterCommit (allowed_free _ _ _) executed) here destroyed .refl⟩

theorem nothingLeft_fails_writeAfterCommit : ¬ ∀ (txn : Nat) (before after final : TransactionObjects),
    Run step free {} before → before.step (.destroy txn) = some after → Run step free after final →
      final.NothingLeft txn := by
  intro always
  have executed : (execute step {} writeAfterCommit).any fun st =>
      (st.step (.destroy 1)).any fun after => (after.chain [107]).any fun r => r.isActiveOf 1 := by
    decide +kernel
  obtain ⟨before, executed, rest⟩ := (Option.any_eq_true _ _).mp executed
  obtain ⟨after, destroyed, active⟩ := (Option.any_eq_true _ _).mp rest
  obtain ⟨r, member, own⟩ := List.any_eq_true.mp active
  exact (always 1 before after after (execute_run writeAfterCommit (allowed_free _ _ _) executed)
    destroyed .refl).versions [107] r member own

end TransactionObjects
end Lrdb
