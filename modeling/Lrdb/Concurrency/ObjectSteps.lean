import Mathlib.Data.Finset.Dedup
import Lrdb.Concurrency.Coherence
import Lrdb.Concurrency.FlushRounds
import Lrdb.Concurrency.TransactionObject

/-!
# Calls of objects in steps

A call of a transaction object is a sequence of the steps that other threads can see. While objects that
are finished are only destroyed, every run of calls is a run of the transaction manager.
-/

namespace Lrdb
open Runs

/-! ## Sequences of steps -/

namespace TxManager
variable {m : TxManager} {txn : Nat} {t : Transaction}

theorem setTxn_setTxn (m : TxManager) (txn : Nat) (t t' : Transaction) :
    (m.setTxn txn t).setTxn txn t' = m.setTxn txn t' :=
  congrArg (fun txns => { m with txns := txns }) (Function.update_idem ..)

theorem run_single {a : TxAction} {next : TxManager} (stepped : m.step a = some next) :
    Run step free m next := .single ⟨a, trivial, stepped⟩

/-- `Begin`. -/
theorem run_begin (m : TxManager) : ∃ t : Transaction, t.stage = .running ∧ t.touchedKeys = [] ∧
    Run step free m { m with
      nextTxn := m.nextTxn + 1
      activeTxns := m.activeTxns.insert m.nextTxn
      txns := Function.update m.txns m.nextTxn (some t) } := by
  let actions : List TxAction := [.allocate .kReadCommitted, .insertActive m.nextTxn,
    .copyActive m.nextTxn, .readUpLimit m.nextTxn, .captureSequence m.nextTxn]
  have begun : ∃ t : Transaction, t.stage = .running ∧ t.touchedKeys = [] ∧
      execute step m actions = some { m with
        nextTxn := m.nextTxn + 1
        activeTxns := m.activeTxns.insert m.nextTxn
        txns := Function.update m.txns m.nextTxn (some t) } := by
    simp [actions, execute, step, allocate, insertActive, copyActive, readUpLimit, captureSequence, setTxn]
    exact ⟨_, rfl, rfl, rfl⟩
  obtain ⟨t, running, untouched, executed⟩ := begun
  exact ⟨t, running, untouched, execute_run actions (allowed_free _ _ _) executed⟩

theorem run_abort (here : m.txns txn = some t) (aborting : t.stage = .aborting) :
    Run step free m { m.setTxn txn { t with stage := .finished } with
      versions := m.versions.markTransactionAborted txn
      activeTxns := m.activeTxns.erase txn
      locks := fun key => (m.locks key).release txn } := by
  let actions : List TxAction := [.markAborted txn, .onAborted txn, .releaseAll txn]
  refine execute_run actions (allowed_free _ _ _) ?_
  simp [actions, execute, step, here, markAborted, aborting, onAborted, releaseAll, setTxn]

theorem run_rollback (here : m.txns txn = some t) (running : t.stage = .running) :
    Run step free m { m.setTxn txn { t with stage := .finished } with
      versions := m.versions.markTransactionAborted txn
      activeTxns := m.activeTxns.erase txn
      locks := fun key => (m.locks key).release txn } := by
  have first : m.step (.rollback txn) = some (m.setTxn txn { t with stage := .aborting }) := by
    simp [step, here, rollback, running]
  have rest := run_abort (m.txns_setTxn_self txn { t with stage := .aborting }) rfl
  rw [setTxn_setTxn] at rest
  exact (run_single first).trans rest

theorem run_logged {sequence : Nat} {keys : List Key} (here : m.txns txn = some t)
    (logging : t.stage = .logging sequence keys) :
    Run step free m (m.setTxn txn { t with stage := .logging sequence [] }) := by
  induction keys generalizing m t with
  | nil =>
      have same : m.setTxn txn { t with stage := .logging sequence [] } = m := by
        rw [← logging, setTxn, ← here, Function.update_eq_self]
      rw [same]
  | cons key rest ih =>
      have first : m.step (.logged txn true) =
          some (m.setTxn txn { t with stage := .logging sequence rest }) := by
        simp [step, here, logged, logging]
      have later := ih (m.txns_setTxn_self txn { t with stage := .logging sequence rest }) rfl
      rw [setTxn_setTxn] at later
      exact (run_single first).trans later

/-- `Commit` up to the synchronisation of the log. -/
theorem run_synced (here : m.txns txn = some t) (running : t.stage = .running) (success : Bool) :
    Run step free m { m.setTxn txn { t with
        stage := if success then .synced m.nextSequence else .aborting } with
      nextSequence := m.nextSequence + 1 } := by
  have first : m.step (.prepareCommit txn t.touchedKeys) = some
      { m.setTxn txn { t with stage := .logging m.nextSequence t.touchedKeys } with
        nextSequence := m.nextSequence + 1 } := by
    simp [step, here, prepareCommit, running]
  have logged := run_logged (m := { m.setTxn txn { t with
      stage := .logging m.nextSequence t.touchedKeys } with nextSequence := m.nextSequence + 1 })
    (txns_setTxn_self ..) rfl
  refine ((run_single first).trans logged).trans (run_single (a := .synced txn success) ?_)
  simp [step, synced, setTxn]

theorem run_commit (here : m.txns txn = some t) (running : t.stage = .running) :
    Run step free m { m.setTxn txn { t with stage := .finished } with
      nextSequence := m.nextSequence + 1
      versions := m.versions.markTransactionCommitted txn m.nextSequence
      activeTxns := m.activeTxns.erase txn
      locks := fun key => (m.locks key).release txn
      commits := ⟨txn, m.nextSequence, t.writes⟩ :: m.commits } := by
  refine (run_synced here running true).trans ?_
  let actions : List TxAction := [.markCommitted txn, .onCommitted txn, .releaseAll txn]
  refine execute_run actions (allowed_free _ _ _) ?_
  simp [actions, execute, step, markCommitted, onCommitted, releaseAll, setTxn]

theorem run_failedCommit (here : m.txns txn = some t) (running : t.stage = .running) :
    Run step free m { m.setTxn txn { t with stage := .finished } with
      nextSequence := m.nextSequence + 1
      versions := m.versions.markTransactionAborted txn
      activeTxns := m.activeTxns.erase txn
      locks := fun key => (m.locks key).release txn } := by
  refine (run_synced here running false).trans ?_
  let actions : List TxAction := [.markAborted txn, .onAborted txn, .releaseAll txn]
  refine execute_run actions (allowed_free _ _ _) ?_
  simp [actions, execute, step, markAborted, onAborted, releaseAll, setTxn]

def goOn (m : TxManager) (txn : Nat) (t : Transaction) (key : Key) : LockedCall → TxManager
  | .write content =>
      { m.setTxn txn { t with
          stage := .running
          touchedKeys := t.touchedKeys.insert key
          writes := (key, content) :: t.writes } with
        versions := match content with
          | some value => m.versions.putActive key value txn
          | none => m.versions.deleteActive key txn }
  | .read => m.setTxn txn { t with stage := .running }

theorem run_goOn {key : Key} (here : m.txns txn = some t) (granted : t.stage = .granted key)
    (call : LockedCall) : Run step free m (m.goOn txn t key call) := by
  cases call with
  | write content =>
      refine run_single (a := .write txn content) ?_
      cases content <;> simp [step, here, write, granted, goOn]
  | read =>
      refine run_single (a := .keepLock txn) ?_
      simp [step, here, keepLock, granted, goOn]

theorem run_granted {a : TxAction} {key : Key} {entry : LockEntry}
    (stepped : m.step a = some ((m.setTxn txn { t with stage := .granted key }).setLock key entry))
    (call : LockedCall) : Run step free m ((m.setLock key entry).goOn txn t key call) := by
  refine (run_single stepped).trans ?_
  have rest := run_goOn (m := (m.setTxn txn { t with stage := .granted key }).setLock key entry)
    (txns_setTxn_self m txn { t with stage := .granted key }) rfl call
  have same : ((m.setTxn txn { t with stage := .granted key }).setLock key entry).goOn txn
      { t with stage := .granted key } key call = (m.setLock key entry).goOn txn t key call := by
    cases call <;> simp [goOn, setLock, setTxn]
  rwa [same] at rest

theorem run_wrote {call : Nat} {written remaining : List (Key × VersionRecord)}
    (here : m.flushes call = some ⟨written, remaining⟩) :
    Run step free m (m.setFlush call (some ⟨written ++ remaining, []⟩)) := by
  induction remaining generalizing m written with
  | nil =>
      have same : m.setFlush call (some ⟨written ++ [], []⟩) = m := by
        rw [List.append_nil, setFlush, ← here, Function.update_eq_self]
      rw [same]
  | cons item rest ih =>
      have first : m.step (.wrote call true) = some (m.setFlush call (some ⟨written ++ [item], rest⟩)) := by
        simp [step, here, wrote]
      have later := ih (m := m.setFlush call (some ⟨written ++ [item], rest⟩)) (Function.update_self ..)
      refine (run_single first).trans ?_
      simpa [setFlush] using later

theorem run_flush (quiet : m.flushes = fun _ => none) {maxItems : Nat} {order : List Key}
    (perm : order.Perm m.versions.keys) : Run step free m { m with
      versions := m.versions.markFlushed ((m.versions.pickCommittedNotFlushed maxItems [] order).map
        fun item => (item.1, item.2.commitSnapshot)) } := by
  have picks : m.step (.pick 0 maxItems order) = some
      (if (m.versions.pickCommittedNotFlushed maxItems [] order).isEmpty then m
        else m.setFlush 0 (some ⟨[], m.versions.pickCommittedNotFlushed maxItems [] order⟩)) := by
    rw [step, pick, if_pos ⟨congrFun quiet 0, perm⟩]
    dsimp only
    split <;> rfl
  generalize m.versions.pickCommittedNotFlushed maxItems [] order = items at picks ⊢
  cases items with
  | nil =>
      have same : m.versions.markFlushed [] = m.versions := by
        simp [VersionChainManager.markFlushed, VersionChainManager.forEach,
          VersionChainManager.sequencesOf, Chain.markFlushed_nil]
      rw [List.map_nil, same]
  | cons item rest =>
      have wrote := run_wrote (m := m.setFlush 0 (some ⟨[], item :: rest⟩)) (Function.update_self ..)
      refine ((run_single picks).trans wrote).trans (run_single (a := .markFlushed 0) ?_)
      simp [step, setFlush, markFlushed, FlushCall.marks, quiet]

end TxManager

/-! ## Calls -/

def TransactionImpl.stage (o : TransactionImpl) : Stage :=
  if o.finished then .finished else o.waiting.elim .running fun waits => .waiting waits.1

theorem LockEntry.release_of_not_heldBy {entry : LockEntry} {txn : Nat} (free : ¬ entry.HeldBy txn) :
    entry.release txn = entry := by
  have kept : entry.holders.filter (fun h => h.txnId != txn) = entry.holders := by
    refine List.filter_eq_self.mpr fun h member => ?_
    simpa using fun same : h.txnId = txn => free ⟨h, member, same⟩
  rw [release, kept]

namespace TransactionObjects
open TxManager
variable {st st' : TransactionObjects} {m m' : TxManager} {txn : Nat} {o : TransactionImpl}

def Same (o : TransactionImpl) (t : Transaction) : Prop :=
  t.stage = o.stage ∧ (o.finished = false → t.touchedKeys = o.touchedKeys)

structure Mirrored (st : TransactionObjects) (m : TxManager) (txn : Nat) (o : TransactionImpl) : Prop where
  same : ∃ t, m.txns txn = some t ∧ Same o t
  closed : o.finished → o.waiting = none ∧ ∀ key, ¬ (st.locks key).HeldBy txn

structure Matches (st : TransactionObjects) (m : TxManager) : Prop where
  nextTxn : m.nextTxn = st.nextTxn
  nextSequence : m.nextSequence = st.nextSequence
  active : ∀ txn, txn ∈ m.activeTxns ↔ txn ∈ st.activeTxns
  nodup : m.activeTxns.Nodup
  versions : m.versions = st.versions
  locks : m.locks = st.locks
  quiet : m.flushes = fun _ => none
  objects : ∀ txn, ∀ o ∈ st.objects txn, Mirrored st m txn o

/-- Finished objects are only destroyed, and a flush marks what it has picked. -/
def Ordered (st : TransactionObjects) : ObjectCall → Prop
  | .acquire txn _ _ _ | .commit txn _ | .rollback txn => ∀ o ∈ st.objects txn, o.finished = false
  | .markFlushed marks => ∃ maxItems order, order.Perm st.versions.keys ∧
      marks = (st.versions.pickCommittedNotFlushed maxItems [] order).map
        fun item => (item.1, item.2.commitSnapshot)
  | _ => True

theorem Matches.change {before : TransactionObjects} {old : TxManager} (here : Matches before old)
    {after : Option TransactionImpl} {t : Transaction}
    (objects : st.objects = Function.update before.objects txn after)
    (txns : m.txns = Function.update old.txns txn (some t)) (same : ∀ o ∈ after, Same o t)
    (held : ∀ key other, (st.locks key).HeldBy other → (before.locks key).HeldBy other ∨ other = txn)
    (closed : ∀ o ∈ after, o.finished → o.waiting = none ∧ ∀ key, ¬ (st.locks key).HeldBy txn) :
    ∀ other, ∀ o ∈ st.objects other, Mirrored st m other o := by
  intro other o there
  rw [objects] at there
  by_cases self : other = txn
  · subst self
    rw [Function.update_self] at there
    exact ⟨⟨t, by rw [txns, Function.update_self], same o there⟩, closed o there⟩
  · rw [Function.update_of_ne self] at there
    obtain ⟨⟨u, found, like⟩, idle⟩ := here.objects other o there
    refine ⟨⟨u, by rw [txns, Function.update_of_ne self, found], like⟩, fun ended => ?_⟩
    exact ⟨(idle ended).1, fun key holds => (idle ended).2 key ((held key other holds).resolve_right self)⟩

theorem matches_initial : Matches {} {} :=
  ⟨rfl, rfl, by simp, .nil, rfl, rfl, rfl, nofun⟩

theorem heldBy_update {key : Key} {entry : LockEntry} (before : TransactionObjects)
    (held : ∀ other, entry.HeldBy other → (before.locks key).HeldBy other ∨ other = txn) (place : Key)
    (other : Nat) (holds : (Function.update before.locks key entry place).HeldBy other) :
    (before.locks place).HeldBy other ∨ other = txn := by
  by_cases same : place = key
  · subst same
    rw [Function.update_self] at holds
    exact held other holds
  · rw [Function.update_of_ne same] at holds
    exact .inl holds

variable (here : Matches st m)
include here

theorem Matches.start : ∃ m', Run TxManager.step free m m' ∧ Matches st.start m' := by
  obtain ⟨t, running, untouched, begun⟩ := run_begin m
  refine ⟨_, begun, congrArg (· + 1) here.nextTxn, here.nextSequence, fun txn => ?_, here.nodup.insert,
    here.versions, here.locks, here.quiet, here.change (t := t) rfl ?_ ?_ (fun _ _ => .inl) ?_⟩
  · change txn ∈ m.activeTxns.insert m.nextTxn ↔ txn ∈ insert st.nextTxn st.activeTxns
    rw [List.mem_insert_iff, Finset.mem_insert, here.active, here.nextTxn]
  · exact congrArg (Function.update m.txns · (some t)) here.nextTxn
  · rintro _ ⟨⟩
    exact ⟨running, fun _ => untouched⟩
  · rintro _ ⟨⟩ ⟨⟩

theorem Matches.granted {t : Transaction} (unfinished : o.finished = false)
    (touched : t.touchedKeys = o.touchedKeys) (key : Key) (entry : LockEntry)
    (held : ∀ other, entry.HeldBy other → (st.locks key).HeldBy other ∨ other = txn) (call : LockedCall) :
    Matches ((st.setLock key entry).granted txn o key call) ((m.setLock key entry).goOn txn t key call) := by
  have locks : Function.update m.locks key entry = Function.update st.locks key entry := by rw [here.locks]
  have stage (keys : List Key) : Stage.running = TransactionImpl.stage ⟨o.finished, keys, none⟩ := by
    rw [TransactionImpl.stage, unfinished]
    rfl
  have notClosed {p : Prop} : o.finished = true → p := fun ended => by
    rw [unfinished] at ended
    cases ended
  cases call with
  | write content =>
      refine ⟨here.nextTxn, here.nextSequence, here.active, here.nodup, ?_, locks, here.quiet,
        here.change rfl rfl ?_ (heldBy_update st held) ?_⟩
      · cases content with
        | none => exact congrArg (VersionChainManager.deleteActive · key txn) here.versions
        | some value => exact congrArg (VersionChainManager.putActive · key value txn) here.versions
      · rintro _ ⟨⟩
        exact ⟨stage _, fun _ => congrArg (List.insert key) touched⟩
      · rintro _ ⟨⟩
        exact notClosed
  | read =>
      refine ⟨here.nextTxn, here.nextSequence, here.active, here.nodup, here.versions, locks, here.quiet,
        here.change rfl rfl ?_ (heldBy_update st held) ?_⟩
      · rintro _ ⟨⟩
        exact ⟨stage _, fun _ => touched⟩
      · rintro _ ⟨⟩
        exact notClosed

theorem Matches.queued {t : Transaction} (txn : Nat) (unfinished : o.finished = false)
    (touched : t.touchedKeys = o.touchedKeys) (key : Key) (entry : LockEntry)
    (held : ∀ other, entry.HeldBy other → (st.locks key).HeldBy other)
    (waiting : Option (Key × LockedCall)) :
    Matches ((st.setLock key entry).setObject txn (some { o with waiting := waiting }))
      ((m.setTxn txn { t with stage := TransactionImpl.stage { o with waiting := waiting } }).setLock
        key entry) := by
  have locks : Function.update m.locks key entry = Function.update st.locks key entry := by rw [here.locks]
  refine ⟨here.nextTxn, here.nextSequence, here.active, here.nodup, here.versions, locks, here.quiet,
    here.change rfl rfl ?_ (heldBy_update st fun other holds => .inl (held other holds)) ?_⟩
  · rintro _ ⟨⟩
    exact ⟨rfl, fun _ => touched⟩
  · rintro _ ⟨⟩ ended
    rw [unfinished] at ended
    cases ended

theorem Matches.closes {t : Transaction} {sequence sequence' : Nat} {versions versions' : VersionChainManager}
    {commits : List Commit} {after : Option TransactionImpl} (counted : sequence' = sequence)
    (same : versions' = versions) (closed : ∀ o ∈ after, o = ended) :
    Matches { st with
        nextSequence := sequence
        versions := versions
        activeTxns := st.activeTxns.erase txn
        locks := fun key => (st.locks key).release txn
        objects := Function.update st.objects txn after }
      { m.setTxn txn { t with stage := .finished } with
        nextSequence := sequence'
        versions := versions'
        activeTxns := m.activeTxns.erase txn
        locks := fun key => (m.locks key).release txn
        commits := commits } := by
  refine ⟨here.nextTxn, counted, fun other => ?_, here.nodup.erase _, same,
    funext fun key => congrArg (fun locks => (locks key).release txn) here.locks, here.quiet,
    here.change rfl rfl (fun o member => ?_)
      (fun _ _ holds => .inl (LockEntry.heldBy_release.mp holds).1) fun o member _ => ?_⟩
  · change other ∈ m.activeTxns.erase txn ↔ other ∈ st.activeTxns.erase txn
    rw [here.nodup.mem_erase_iff, Finset.mem_erase, here.active]
  · rw [closed o member]
    exact ⟨rfl, nofun⟩
  · rw [closed o member]
    exact ⟨rfl, fun key holds => (LockEntry.heldBy_release.mp holds).2 rfl⟩

theorem Matches.acquire (there : st.objects txn = some o) (idle : o.waiting = none)
    (unfinished : o.finished = false) (key : Key) (call : LockedCall) (refused : Bool) :
    ∃ m', Run TxManager.step free m m' ∧ Matches (st.acquire txn o key call refused) m' := by
  obtain ⟨t, found, stage, touched⟩ := (here.objects txn o there).same
  rw [TransactionImpl.stage, unfinished, idle] at stage
  unfold TransactionObjects.acquire
  split
  · exact ⟨m, .refl, here⟩
  · split
    · rename_i grants
      refine ⟨_, run_granted (a := .acquire txn key) ?_ call, here.granted unfinished (touched unfinished)
        key _ (fun _ holds => (LockEntry.heldBy_grant.mp holds).imp_right Eq.symm) call⟩
      simp [TxManager.step, found, TxManager.acquire, stage, here.locks, grants]
    · rename_i refuses
      refine ⟨_, run_single (a := .acquire txn key) ?_, here.queued (t := t) txn unfinished
        (touched unfinished) key _ (fun _ => LockEntry.heldBy_enqueue.mp) (some (key, call))⟩
      simp [TxManager.step, found, TxManager.acquire, stage, here.locks, refuses, TransactionImpl.stage,
        unfinished]

theorem Matches.waits (there : st.objects txn = some o) {key : Key} {call : LockedCall}
    (waiting : o.waiting = some (key, call)) : o.finished = false ∧
      ∃ t, m.txns txn = some t ∧ t.stage = .waiting key ∧ t.touchedKeys = o.touchedKeys := by
  have unfinished : o.finished = false := by
    by_contra ended
    have idle := ((here.objects txn o there).closed (by simpa using ended)).1
    rw [waiting] at idle
    cases idle
  obtain ⟨t, found, stage, touched⟩ := (here.objects txn o there).same
  rw [TransactionImpl.stage, unfinished, waiting] at stage
  exact ⟨unfinished, t, found, stage, touched unfinished⟩

theorem Matches.wake (there : st.objects txn = some o) (stepped : st.wake txn o = some st') :
    ∃ m', Run TxManager.step free m m' ∧ Matches st' m' := by
  unfold TransactionObjects.wake at stepped
  split at stepped
  · rename_i key call waiting
    split at stepped
    · rename_i grants
      cases stepped
      obtain ⟨unfinished, t, found, stage, touched⟩ := here.waits there waiting
      refine ⟨_, run_granted (a := .wake txn) ?_ call, here.granted unfinished touched
        key _ (fun _ holds => (LockEntry.heldBy_wake.mp holds).imp_right Eq.symm) call⟩
      simp [TxManager.step, found, TxManager.wake, stage, here.locks, grants]
    · cases stepped
  · cases stepped

theorem Matches.giveUp (there : st.objects txn = some o) (stepped : st.giveUp txn o = some st') :
    ∃ m', Run TxManager.step free m m' ∧ Matches st' m' := by
  unfold TransactionObjects.giveUp at stepped
  split at stepped
  · rename_i key call waiting
    cases stepped
    obtain ⟨unfinished, t, found, stage, touched⟩ := here.waits there waiting
    refine ⟨_, run_single (a := .giveUp txn) ?_,
      here.queued (t := t) txn unfinished touched key _ (fun _ => LockEntry.heldBy_removeWaiter.mp) none⟩
    simp [TxManager.step, found, TxManager.giveUp, stage, here.locks, TransactionImpl.stage, unfinished]
  · cases stepped

theorem Matches.runs (there : st.objects txn = some o) (idle : o.waiting = none)
    (unfinished : o.finished = false) : ∃ t, m.txns txn = some t ∧ t.stage = .running := by
  obtain ⟨t, found, stage, -⟩ := (here.objects txn o there).same
  rw [TransactionImpl.stage, unfinished, idle] at stage
  exact ⟨t, found, stage⟩

theorem Matches.commit (there : st.objects txn = some o) (idle : o.waiting = none)
    (unfinished : o.finished = false) (outcome : CommitOutcome) :
    ∃ m', Run TxManager.step free m m' ∧ Matches (st.commit txn outcome) m' := by
  obtain ⟨t, found, running⟩ := here.runs there idle unfinished
  cases outcome with
  | invalid => exact ⟨m, .refl, here⟩
  | failed =>
      refine ⟨_, run_failedCommit found running, ?_⟩
      exact here.closes (congrArg (· + 1) here.nextSequence)
        (congrArg (·.markTransactionAborted txn) here.versions) fun _ member => (Option.some.inj member).symm
  | succeeds =>
      refine ⟨_, run_commit found running, ?_⟩
      rw [here.nextSequence]
      exact here.closes rfl (congrArg (·.markTransactionCommitted txn st.nextSequence) here.versions)
        fun _ member => (Option.some.inj member).symm

/-- `Rollback`, and the end of an object that is not finished. -/
theorem Matches.rollback (there : st.objects txn = some o) (idle : o.waiting = none)
    (unfinished : o.finished = false) {after : Option TransactionImpl} (closed : ∀ o ∈ after, o = ended) :
    ∃ m', Run TxManager.step free m m' ∧
      Matches (((st.markAborted txn).releaseAll txn).setObject txn after) m' := by
  obtain ⟨t, found, running⟩ := here.runs there idle unfinished
  refine ⟨_, run_rollback found running, ?_⟩
  exact here.closes here.nextSequence (congrArg (·.markTransactionAborted txn) here.versions) closed

theorem Matches.destroy (there : st.objects txn = some o) (idle : o.waiting = none) :
    ∃ m', Run TxManager.step free m m' ∧ Matches (st.destroy txn o) m' := by
  unfold TransactionObjects.destroy
  split
  · rename_i finished
    obtain ⟨⟨t, found, -⟩, closed⟩ := here.objects txn o there
    have kept : (fun key => (st.locks key).release txn) = st.locks :=
      funext fun key => LockEntry.release_of_not_heldBy ((closed finished).2 key)
    refine ⟨m, .refl, here.nextTxn, here.nextSequence, here.active, here.nodup, here.versions,
      here.locks.trans kept.symm, here.quiet, here.change (t := t) rfl ?_ nofun
        (fun _ _ holds => .inl (LockEntry.heldBy_release.mp holds).1) nofun⟩
    rw [← found, Function.update_eq_self]
  · rename_i unfinished
    exact here.rollback there idle (by simpa using unfinished) nofun

theorem Matches.markFlushed {maxItems : Nat} {order : List Key} (perm : order.Perm st.versions.keys) :
    ∃ m', Run TxManager.step free m m' ∧ Matches { st with
      versions := st.versions.markFlushed ((st.versions.pickCommittedNotFlushed maxItems [] order).map
        fun item => (item.1, item.2.commitSnapshot)) } m' := by
  rw [← here.versions] at perm ⊢
  refine ⟨_, run_flush here.quiet perm, here.nextTxn, here.nextSequence, here.active, here.nodup, rfl,
    here.locks, here.quiet, fun other o there => ?_⟩
  exact ⟨(here.objects other o there).same, (here.objects other o there).closed⟩

theorem Matches.garbageCollect : ∃ m', Run TxManager.step free m m' ∧
    Matches { st with versions := st.versions.garbageCollect } m' := by
  refine ⟨m.garbageCollect, run_single (a := .garbageCollect) rfl, here.nextTxn, here.nextSequence,
    here.active, here.nodup, congrArg (·.garbageCollect) here.versions, here.locks, here.quiet,
    fun other o there => ?_⟩
  exact ⟨(here.objects other o there).same, (here.objects other o there).closed⟩

theorem Matches.step {a : ObjectCall} (ordered : Ordered st a) (stepped : st.step a = some st') :
    ∃ m', Run TxManager.step free m m' ∧ Matches st' m' := by
  have idle {txn : Nat} {o : TransactionImpl} (found : st.idle txn = some o) :
      st.objects txn = some o ∧ o.waiting = none := by
    simpa [TransactionObjects.idle, Option.filter_eq_some_iff] using found
  cases a with
  | begin =>
      cases stepped
      exact here.start
  | acquire txn key call refused =>
      obtain ⟨o, found, rfl⟩ := Option.map_eq_some_iff.mp stepped
      obtain ⟨there, waits⟩ := idle found
      exact here.acquire there waits (ordered o there) key call refused
  | wake txn =>
      obtain ⟨o, there, woken⟩ := Option.bind_eq_some_iff.mp stepped
      exact here.wake there woken
  | giveUp txn =>
      obtain ⟨o, there, left⟩ := Option.bind_eq_some_iff.mp stepped
      exact here.giveUp there left
  | get txn key =>
      obtain ⟨o, -, rfl⟩ := Option.map_eq_some_iff.mp stepped
      exact ⟨m, .refl, here⟩
  | commit txn outcome =>
      obtain ⟨o, found, rfl⟩ := Option.map_eq_some_iff.mp stepped
      obtain ⟨there, waits⟩ := idle found
      exact here.commit there waits (ordered o there) outcome
  | rollback txn =>
      obtain ⟨o, found, rfl⟩ := Option.map_eq_some_iff.mp stepped
      obtain ⟨there, waits⟩ := idle found
      exact here.rollback there waits (ordered o there) fun _ member => (Option.some.inj member).symm
  | destroy txn =>
      obtain ⟨o, found, rfl⟩ := Option.map_eq_some_iff.mp stepped
      exact here.destroy (idle found).1 (idle found).2
  | markFlushed marks =>
      cases stepped
      obtain ⟨maxItems, order, perm, rfl⟩ := ordered
      exact here.markFlushed perm
  | garbageCollect =>
      cases stepped
      exact here.garbageCollect

omit here in
/-- Every run of calls is a run of the manager. -/
theorem steps_of_run (runs : Run TransactionObjects.step Ordered {} st) :
    ∃ m, Run TxManager.step free {} m ∧ Matches st m :=
  runs.followed (fun _ _ _ ordered stepped _ here => here.step ordered stepped) matches_initial

end TransactionObjects
end Lrdb
