import Lrdb.Concurrency.FlushRounds
import Lrdb.Db.LifetimeMap

/-!
# Closing a column family

`Close` empties the version chains into the tree, the tree into files, and removes the log only when
both have succeeded.
-/

namespace Lrdb
open Versions Runs TxManager VersionChainManager

namespace Session
variable {cmp : Comparator} (options : LSMTreeOptions)

/-- The writing loop of `FlushCommittedToLSM`. -/
def writeItems (lsm : LSMTree cmp) : List (Key × VersionRecord) → Status × LSMTree cmp
  | [] => (.ok, lsm)
  | item :: rest =>
      let (status, lsm) := writeItem options lsm item
      if status.isOk then writeItems lsm rest else (status, lsm)

def flushCommittedToLSM (st : Session cmp) (maxItems : Nat) (order : List Key) : Status × Session cmp :=
  let items := st.manager.versions.pickCommittedNotFlushed maxItems [] order
  if items.isEmpty then (.ok, st)
  else
    let (status, lsm) := writeItems options st.lsm items
    if status.isOk then
      (.ok, { st with
        lsm := lsm
        manager := { st.manager with versions := st.manager.versions.markFlushed (marksOf items) } })
    else (status, { st with lsm := lsm })

/-- The rounds of `SyncAllData`. -/
def flushRounds (maxItems : Nat) (order : List Key) : Nat → Session cmp → Status × Session cmp
  | 0, st => (.ok, st)
  | rounds + 1, st =>
      let (status, st) := st.flushCommittedToLSM options maxItems order
      if ¬ status.isOk then (status, st)
      else if (st.manager.versions.pickCommittedNotFlushed 1 [] order).isEmpty then (.ok, st)
      else flushRounds maxItems order rounds st

/-- `SyncAllData` on one family, when the log answers its sync with `synced`. -/
def syncAllData (st : Session cmp) (maxItems : Nat) (order : List Key) (synced : Status) :
    Status × Session cmp :=
  let (status, st) := flushRounds options maxItems order 10000 st
  if ¬ status.isOk then (status, st)
  else
    let (status, lsm) := st.lsm.flushAll options
    (if status.isOk then synced else status, { st with lsm := lsm })

/-- No transaction of the session has written a key twice. -/
def WritesOnce (st : Session cmp) : Prop :=
  ∀ c ∈ st.manager.commits, (c.writes.map Prod.fst).Nodup

instance (st : Session cmp) : Decidable st.WritesOnce := by
  unfold WritesOnce; infer_instance

def Flushing (st : Session cmp) (action : SessionAction) : Prop :=
  (match action with
    | .transaction (.pick ..) | .transaction (.markFlushed _) => true
    | .transaction _ | .log .. => false
    | .flushWrite _ | .switchMemTable | .flushOldestMemTable => true) = true ∧
  st.manager.nextSequence ≤ sequenceLimit ∧ st.FlushesLast action

variable {options} {st st' : Session cmp} {base : Nat}

theorem mem_lastWrites_of_once (once : st.WritesOnce) {key : Key} {w : Stamp}
    (member : w ∈ st.manager.history key) : w ∈ st.manager.lastWrites key := by
  obtain ⟨c, inCommits, same, written⟩ := mem_history.mp member
  refine mem_lastWrites.mpr ⟨c, inCommits, same, ?_⟩
  have distinct := once c inCommits
  rw [writesTo] at written ⊢
  obtain ⟨write, inside, content⟩ := List.mem_map.mp written
  have here : write.1 = key := by simpa using List.of_mem_filter inside
  cases found : c.writes.filter fun write => write.1 = key with
  | nil => simp [found] at inside
  | cons first others =>
      have firstIn : first ∈ c.writes.filter fun write => write.1 = key := found ▸ List.mem_cons_self
      have same : first = write := List.inj_on_of_nodup_map distinct (List.mem_of_mem_filter firstIn)
        (List.mem_of_mem_filter inside) ((by simpa using List.of_mem_filter firstIn : first.1 = key).trans here.symm)
      rw [same, List.map_cons, List.head?_cons, content]

structure Drains (base : Nat) (st : Session cmp) : Prop where
  coherent : st.manager.Coherent base
  bounded : st.manager.nextSequence ≤ sequenceLimit
  once : st.WritesOnce

theorem Drains.flushesLast (drains : Drains base st) (call : Nat) : st.FlushesLast (.flushWrite call) := by
  intro item next
  have inHistory := (item_committed drains.coherent next).2
  exact ⟨(drains.coherent.history_lt inHistory).2.trans_le drains.bounded,
    mem_lastWrites_of_once drains.once inHistory⟩

theorem Drains.of_same (drains : Drains base st) {action : SessionAction}
    (stepped : st.step options action = some st')
    (commits : st'.manager.commits = st.manager.commits)
    (sequence : st'.manager.nextSequence = st.manager.nextSequence) : Drains base st' where
  coherent := coherent_step stepped drains.coherent
  bounded := sequence ▸ drains.bounded
  once := by
    unfold WritesOnce
    rw [commits]
    exact drains.once

/-! ## Each call is a run -/

theorem step_pick {call maxItems : Nat} {order : List Key} (free : st.manager.flushes call = none)
    (walks : order.Perm st.manager.versions.keys)
    (some : st.manager.versions.pickCommittedNotFlushed maxItems [] order ≠ []) :
    st.step options (.transaction (.pick call maxItems order)) = .some (st.setManager
      (st.manager.setFlush call (.some ⟨[],
        st.manager.versions.pickCommittedNotFlushed maxItems [] order⟩))) := by
  simp [step, TxAction.external, TxManager.step, TxManager.pick, free, walks, some, setManager]

theorem run_writeItems {items written : List (Key × VersionRecord)} {call : Nat} (drains : Drains base st)
    (flushing : st.manager.flushes call = some ⟨written, items⟩) {status : Status} {lsm : LSMTree cmp}
    (wrote : writeItems options st.lsm items = (status, lsm)) :
    Run (step options) Flushing st { st with
      lsm := lsm
      manager := st.manager.setFlush call
        (if status.isOk then some ⟨written ++ items, []⟩ else none) } := by
  induction items generalizing st written with
  | nil =>
      obtain ⟨rfl, rfl⟩ := Prod.mk.inj wrote
      have same : Function.update st.manager.flushes call (some ⟨written, []⟩) = st.manager.flushes :=
        Function.update_eq_self_iff.mpr flushing.symm
      have success : (Status.ok : Status).isOk = true := rfl
      simp only [success, if_true, List.append_nil, setFlush, same]
      exact .refl
  | cons item rest ih =>
      rw [writeItems] at wrote
      rcases first : writeItem options st.lsm item with ⟨firstStatus, tree⟩
      rw [first] at wrote
      have next : st.nextItem call = some item := by rw [nextItem, flushing]; rfl
      let moved : Session cmp := { st with
        lsm := tree
        manager := st.manager.setFlush call
          (if firstStatus.isOk then some ⟨written ++ [item], rest⟩ else none) }
      have stepped : st.step options (.flushWrite call) = some moved := by
        simp only [step, flushWrite, next, first, TxManager.step, flushing, TxManager.wrote,
          Option.bind_some, Option.map_some]
        rfl
      have taken : Runs.Step (step options) Flushing st moved :=
        ⟨_, ⟨rfl, drains.bounded, drains.flushesLast call⟩, stepped⟩
      by_cases success : firstStatus.isOk
      · have drains' : Drains base moved := drains.of_same stepped rfl rfl
        have flushing' : moved.manager.flushes call = some ⟨written ++ [item], rest⟩ := by
          simp [moved, setFlush, success]
        simp only [success, if_true] at wrote
        refine .head taken ?_
        convert ih drains' flushing' wrote using 2
        simp only [moved, setFlush, Function.update_idem, List.append_assoc, List.singleton_append]
      · simp only [success, if_false, Bool.false_eq_true] at wrote
        obtain ⟨rfl, rfl⟩ := Prod.mk.inj wrote
        refine .single ?_
        convert taken using 1
        simp [moved, success]

theorem run_flushCommitted {maxItems call : Nat} {order : List Key} (drains : Drains base st)
    (free : st.manager.flushes call = none) (walks : order.Perm st.manager.versions.keys) :
    Run (step options) Flushing st (st.flushCommittedToLSM options maxItems order).2 := by
  unfold flushCommittedToLSM
  dsimp only
  split
  · exact .refl
  rename_i some
  have nonempty : st.manager.versions.pickCommittedNotFlushed maxItems [] order ≠ [] := by
    simpa using some
  have picks := @step_pick _ options st _ _ _ free walks nonempty
  rcases wrote : writeItems options st.lsm
    (st.manager.versions.pickCommittedNotFlushed maxItems [] order) with ⟨status, lsm⟩
  have drains' := drains.of_same picks rfl rfl
  have writes := @run_writeItems _ options _ _ _ [] call drains' (by simp [setManager, setFlush]) _ _ wrote
  have cleared (f : Option FlushCall) :
      Function.update (Function.update st.manager.flushes call f) call none = st.manager.flushes := by
    rw [Function.update_idem]
    exact Function.update_eq_self_iff.mpr free.symm
  have reached := Relation.ReflTransGen.head (⟨.transaction (.pick call maxItems order),
    ⟨rfl, drains.bounded, trivial⟩, picks⟩ : Runs.Step (step options) Flushing st _) writes
  by_cases success : status.isOk
  · simp only [success, if_true] at reached ⊢
    refine reached.tail ⟨.transaction (.markFlushed call), ⟨rfl, drains.bounded, trivial⟩, ?_⟩
    simp [step, TxAction.external, TxManager.step, setManager, setFlush, TxManager.markFlushed, cleared,
      FlushCall.marks, marksOf]
  · simp only [success, if_false, Bool.false_eq_true] at reached ⊢
    simpa [setManager, setFlush, cleared] using reached

structure Marked (st st' : Session cmp) : Prop where
  manager : ∃ versions, versions.keys = st.manager.versions.keys ∧
    st'.manager = { st.manager with versions := versions }
  wal : st'.wal = st.wal

theorem Marked.refl (st : Session cmp) : Marked st st := ⟨⟨_, rfl, rfl⟩, rfl⟩

theorem Marked.trans {st'' : Session cmp} (first : Marked st st') (second : Marked st' st'') :
    Marked st st'' := by
  obtain ⟨versions, keys, manager⟩ := first.manager
  obtain ⟨versions', keys', manager'⟩ := second.manager
  exact ⟨⟨versions', keys'.trans (by rw [manager, keys]), by rw [manager', manager]⟩,
    second.wal.trans first.wal⟩

theorem Marked.flushes (marked : Marked st st') : st'.manager.flushes = st.manager.flushes := by
  obtain ⟨versions, -, manager⟩ := marked.manager
  rw [manager]

theorem Marked.keys (marked : Marked st st') :
    st'.manager.versions.keys = st.manager.versions.keys := by
  obtain ⟨versions, keys, manager⟩ := marked.manager
  rw [manager, keys]

theorem Marked.commits (marked : Marked st st') : st'.manager.commits = st.manager.commits := by
  obtain ⟨versions, -, manager⟩ := marked.manager
  rw [manager]

theorem Marked.drains (marked : Marked st st') (drains : Drains base st)
    (run : Run (step options) Flushing st st') : Drains base st' where
  coherent := run.invariant (fun _ _ _ _ stepped coherent => coherent_step stepped coherent) drains.coherent
  bounded := by
    obtain ⟨versions, -, manager⟩ := marked.manager
    exact manager ▸ drains.bounded
  once := by
    unfold WritesOnce
    rw [marked.commits]
    exact drains.once

def unflushed (st : Session cmp) (order : List Key) : List (Key × VersionRecord) :=
  st.manager.versions.waiting order

theorem flushCommitted_spec {maxItems : Nat} (positive : 0 < maxItems) {order : List Key}
    (walks : order.Perm st.manager.versions.keys) :
    Marked st (st.flushCommittedToLSM options maxItems order).2 ∧
      ((st.flushCommittedToLSM options maxItems order).1.isOk →
        ((st.flushCommittedToLSM options maxItems order).2.unflushed order).length ≤
          (st.unflushed order).length - maxItems) := by
  have distinct : order.Nodup := walks.nodup_iff.mpr st.manager.versions.nodup
  unfold flushCommittedToLSM
  dsimp only
  split
  · rename_i empty
    have none := (pick_eq_nil_iff positive).mp (List.isEmpty_iff.mp empty)
    exact ⟨.refl st, fun _ => by simp [unflushed, none]⟩
  rcases writeItems options st.lsm
    (st.manager.versions.pickCommittedNotFlushed maxItems [] order) with ⟨status, lsm⟩
  by_cases success : status.isOk
  · simp only [success, if_true]
    exact ⟨⟨⟨st.manager.versions.markFlushed _, rfl, rfl⟩, rfl⟩, fun _ => length_waiting_markFlushed distinct⟩
  · simp only [success, if_false, Bool.false_eq_true]
    exact ⟨⟨⟨_, rfl, rfl⟩, rfl⟩, fun fine => fine.elim⟩

theorem flushRounds_spec {maxItems : Nat} (positive : 0 < maxItems) {order : List Key} (rounds : Nat)
    (drains : Drains base st) {call : Nat} (free : st.manager.flushes call = none)
    (walks : order.Perm st.manager.versions.keys) :
    Run (step options) Flushing st (flushRounds options maxItems order rounds st).2 ∧
      Marked st (flushRounds options maxItems order rounds st).2 ∧
      ((flushRounds options maxItems order rounds st).1.isOk →
        (st.unflushed order).length ≤ rounds * maxItems →
          (flushRounds options maxItems order rounds st).2.unflushed order = []) := by
  induction rounds generalizing st with
  | zero => exact ⟨.refl, .refl st, fun _ few => by simpa [flushRounds] using few⟩
  | succ rounds ih =>
      have run := @run_flushCommitted _ options st _ maxItems _ _ drains free walks
      obtain ⟨marked, fewer⟩ := @flushCommitted_spec _ options st _ positive order walks
      rw [flushRounds]
      rcases flushed : st.flushCommittedToLSM options maxItems order with ⟨status, next⟩
      rw [flushed] at run marked fewer
      dsimp only at run marked fewer ⊢
      by_cases success : status.isOk
      · simp only [success, not_true, if_false]
        split
        · rename_i empty
          exact ⟨run, marked, fun _ _ => (pick_eq_nil_iff Nat.one_pos).mp (List.isEmpty_iff.mp empty)⟩
        · obtain ⟨run', marked', drained⟩ :=
            ih (marked.drains drains run) (marked.flushes ▸ free) (marked.keys ▸ walks)
          refine ⟨run.trans run', marked.trans marked', fun fine few => drained fine ?_⟩
          have less := fewer success
          rw [Nat.add_mul, Nat.one_mul] at few
          omega
      · simp only [success, not_false_eq_true, if_true, Bool.false_eq_true]
        exact ⟨run, marked, fun fine => fine.elim⟩

theorem allFlushed_of_unflushed {order : List Key} (walks : order.Perm st.manager.versions.keys)
    (none : st.unflushed order = []) : st.AllFlushed := by
  intro key r member committed
  have known : key ∈ st.manager.versions.keys := by
    by_contra absent
    rw [TxManager.chain, st.manager.versions.absent key absent] at member
    cases member
  have empty := waiting_eq_nil.mp none key (walks.mem_iff.mpr known)
  by_contra unflushed
  have waits := List.filter_eq_nil_iff.mp empty r member
  simp [committed, unflushed] at waits

/-! ## The tree -/

theorem run_flushImmutables (n : Nat) (st : Session cmp) (bounded : st.manager.nextSequence ≤ sequenceLimit) :
    Run (step options) Flushing st { st with lsm := (st.lsm.flushImmutables options n).2 } := by
  induction n generalizing st with
  | zero => exact .refl
  | succ n ih =>
      have first : Runs.Step (step options) Flushing st
          { st with lsm := (st.lsm.flushOldestMemTable options).2 } :=
        ⟨.flushOldestMemTable, ⟨rfl, bounded, trivial⟩, rfl⟩
      rw [LSMTree.flushImmutables]
      dsimp only
      split
      · exact .head first (ih { st with lsm := (st.lsm.flushOldestMemTable options).2 } bounded)
      · exact .single first

theorem run_flushAll (st : Session cmp) (bounded : st.manager.nextSequence ≤ sequenceLimit) :
    Run (step options) Flushing st { st with lsm := (st.lsm.flushAll options).2 } := by
  unfold LSMTree.flushAll
  by_cases empty : st.lsm.mutableMemTable.isEmpty
  · simp only [empty, if_true]
    exact run_flushImmutables _ st bounded
  · simp only [empty, if_false, Bool.false_eq_true]
    cases switched : st.lsm.switchMemTable options with
    | error status => exact .refl
    | ok tree =>
        refine .head (b := { st with lsm := tree }) ⟨.switchMemTable, ⟨rfl, bounded, trivial⟩, ?_⟩
          (run_flushImmutables _ { st with lsm := tree } bounded)
        simp [step, switched, Except.toOption]

/-- A tree that `FlushAll` has emptied closes. -/
theorem close_of_flushAll {t : LSMTree cmp} (fresh : t.sstables.Fresh)
    (success : (t.flushAll options).1.isOk) : ((t.flushAll options).2.close options).1.isOk := by
  have emptied {t : LSMTree cmp} (fresh : t.sstables.Fresh) (none : t.mutableMemTable.isEmpty)
      (success : (t.flushImmutables options t.immutables.length).1.isOk) :
      ((t.flushImmutables options t.immutables.length).2.close options).1.isOk := by
    obtain ⟨sstables, after, -⟩ := (LSMTree.flushImmutables_spec fresh rfl).2 success
    rw [after]
    simp only [LSMTree.close, List.length_nil, LSMTree.flushImmutables, LSMTree.doFlushMemTable, none, if_true]
    rfl
  unfold LSMTree.flushAll at success ⊢
  by_cases empty : t.mutableMemTable.isEmpty
  · simp only [empty, if_true] at success ⊢
    exact emptied fresh empty success
  · simp only [empty, if_false, Bool.false_eq_true] at success ⊢
    cases switched : t.switchMemTable options with
    | error status =>
        rw [switched] at success
        unfold LSMTree.switchMemTable at switched
        split at switched <;> cases switched
        cases success
    | ok tree =>
        rw [switched] at success
        have tables := LSMTree.switchMemTable_sstables switched
        have same := LSMTree.switchMemTable_ok switched
        refine emptied (tables ▸ fresh) ?_ success
        rw [same]
        rfl

/-- `SyncAllData` is a run of flush steps. When it succeeds, the chains are flushed and the tree closes. -/
theorem syncAllData_spec {maxItems : Nat} (positive : 0 < maxItems) {order : List Key}
    (drains : Drains base st) (given : 0 < base) {call : Nat} (free : st.manager.flushes call = none)
    (walks : order.Perm st.manager.versions.keys) (fresh : st.lsm.sstables.Fresh) (few : (st.unflushed order).length ≤ 10000 * maxItems)
    (synced : Status) :
    Run (step options) Flushing st (st.syncAllData options maxItems order synced).2 ∧
      Marked st (st.syncAllData options maxItems order synced).2 ∧
      ((st.syncAllData options maxItems order synced).1.isOk →
        (st.syncAllData options maxItems order synced).2.AllFlushed ∧
          ((st.syncAllData options maxItems order synced).2.lsm.close options).1.isOk) := by
  obtain ⟨run, marked, drained⟩ := @flushRounds_spec _ options st _ _ positive _ 10000 drains _ free walks
  unfold syncAllData
  rcases rounds : flushRounds options maxItems order 10000 st with ⟨status, next⟩
  rw [rounds] at run marked drained
  dsimp only at run marked drained ⊢
  by_cases success : status.isOk
  · have drains' := marked.drains drains run
    have kept : next.lsm.sstables.Fresh :=
      (run.invariant (p := fun st => st.manager.Coherent base ∧ st.lsm.sstables.Fresh)
        (fun _ _ _ _ stepped both =>
          ⟨coherent_step stepped both.1, fresh_step both.1 given both.2 stepped⟩)
        ⟨drains.coherent, fresh⟩).2
    have flushes := @run_flushAll _ options next drains'.bounded
    simp only [success, not_true, if_false]
    refine ⟨run.trans flushes, marked.trans ⟨⟨_, rfl, rfl⟩, rfl⟩, fun fine => ⟨?_, close_of_flushAll kept ?_⟩⟩
    · exact allFlushed_of_unflushed (marked.keys ▸ walks) (drained success few)
    · by_contra failed
      simp only [failed, if_false] at fine
  · simp only [success, not_false_eq_true, if_true, Bool.false_eq_true]
    exact ⟨run, marked, fun fine => fine.elim⟩

end Session

/-! ## The family -/

namespace OpenFamily
variable {cmp : Comparator} (options : LSMTreeOptions)

/-- `Close` on one family. All log files go when everything was synced, and otherwise these are left. -/
def close (f : OpenFamily cmp) (maxItems : Nat) (order : List Key) (synced : Status)
    (files : WALDisk) : Option Disk :=
  let (status, session) := f.session.syncAllData options maxItems order synced
  { f with session := session }.shutdown options (.written (if status.isOk then [] else files))

variable {options} {f : OpenFamily cmp} {lsm : LSMTree cmp}

theorem syncedBy_flushing {action : SessionAction} (st : Session cmp)
    (flushing : f.session.Flushing action) : f.syncedBy action st = f.synced := by
  cases action with
  | transaction a =>
      cases a with
      | synced txn success => cases flushing.1
      | _ => rfl
  | _ => rfl

theorem flushing_run (sound : f.Sound lsm) {session : Session cmp}
    (run : Run (Session.step options) Session.Flushing f.session session) :
    OpenFamily.Sound lsm { f with session := session } ∧
      (∀ key w, f.session.lsm.sstables.Stores key w → session.lsm.sstables.Stores key w) ∧
        Run (Lifetime.step options) (Lifetime.KeepsMap options) (.opened f)
          (.opened { f with session := session }) := by
  refine run.invariant (p := fun st => OpenFamily.Sound lsm { f with session := st } ∧
    (∀ key w, f.session.lsm.sstables.Stores key w → st.lsm.sstables.Stores key w) ∧
      Run (Lifetime.step options) (Lifetime.KeepsMap options) (.opened f)
        (.opened { f with session := st })) ?_ ⟨sound, fun _ _ => id, .refl⟩
  rintro s action t flushing stepped ⟨sound, kept, reached⟩
  have moved : OpenFamily.step options { f with session := s } action =
      some { f with session := t } := by
    rw [OpenFamily.step, stepped, Option.map_some, @syncedBy_flushing _ { f with session := s } _ t flushing]
  obtain ⟨sound', more⟩ := sound.step flushing.2.1 flushing.2.2 moved
  refine ⟨sound', fun key w stored => more key w (kept key w stored), reached.tail ⟨.session action, ?_, ?_⟩⟩
  · exact ⟨⟨trivial, flushing.2⟩, fun r member => by cases member⟩
  · rw [Lifetime.step, moved, Option.map_some]

end OpenFamily

namespace Lifetime
variable {cmp : Comparator} {options : LSMTreeOptions} {f : OpenFamily cmp}

/-- A close from any reachable state leaves a disk that a run of the family
reaches and that has every committed write. What the family tells of any key stays as it was, unless the
sync fails and the log has records of a transaction that was not committed. -/
theorem close_keeps (reached : Run (step options) (KeepsAll options) (.closed {} : Lifetime cmp) (.opened f))
    (bounded : f.session.manager.nextSequence ≤ sequenceLimit) (once : f.session.WritesOnce) {call : Nat}
    (free : f.session.manager.flushes call = none) {maxItems : Nat} (positive : 0 < maxItems) {order : List Key}
    (walks : order.Perm f.session.manager.versions.keys)
    (few : (f.session.unflushed order).length ≤ 10000 * maxItems) (synced : Status) {files : WALDisk}
    (whole : files.logs.flatten.Perm (f.left.logs.flatten ++ f.session.wal)) :
    ∃ d, f.close options maxItems order synced files = some d ∧
      Run (step options) (KeepsAll options) (.opened f) (.closed d) ∧
      (∀ c ∈ f.session.manager.commits, ∀ key content, (writesTo key c.writes).head? = some content →
        Holds (.closed d : Lifetime cmp) key (c.sequence, content)) ∧
      (((f.session.syncAllData options maxItems order synced).1.isOk ∨
        ∀ r ∈ f.session.wal, ∃ c ∈ f.session.manager.commits, c.sequence = r.sequenceNumber) →
          contents options (.closed d : Lifetime cmp) = contents options (.opened f)) := by
  have before := sound_of_run reached
  obtain ⟨-, sound⟩ := id before
  obtain ⟨lsm, family⟩ := id sound
  obtain ⟨run, marked, emptied⟩ := Session.syncAllData_spec positive
    ⟨family.flushed.faithful.coherent, bounded, once⟩ family.flushed.start.positive free walks
    family.fresh few synced
  rcases syncs : f.session.syncAllData options maxItems order synced with ⟨status, session⟩
  rw [syncs] at run marked emptied
  obtain ⟨family', stores, flushes⟩ := OpenFamily.flushing_run family run
  have remains : OpenFamily.Remains { f with session := session }
      (WALDisk.logs (if status.isOk then [] else files)) := by
    rw [OpenFamily.Remains, marked.wal]
    split
    · exact List.nil_subperm
    · exact whole.subperm
  have stepped : step options (.opened { f with session := session })
      (.shutdown (.written (if status.isOk then [] else files))) = some (.closed _) :=
    congrArg (Option.map closed) (if_pos remains)
  have keeps : KeepsAll options (.opened { f with session := session })
      (.shutdown (.written (if status.isOk then [] else files))) := by
    refine ⟨trivial, ?_⟩
    by_cases success : status.isOk
    · exact .inr (emptied success)
    · refine .inl ⟨?_, remains⟩
      rw [if_neg success, marked.wal]
      exact (((List.take_sublist _ _).append_left _).subperm).trans whole.symm.subperm
  have closes := (flushes.mono fun _ _ keeps => keeps.1).tail ⟨_, keeps, stepped⟩
  refine ⟨_, ?_, closes, fun c member key content last => ?_, fun committed => ?_⟩
  · rw [OpenFamily.close, syncs]
    exact if_pos remains
  · exact holds_of_run before closes (.inr (mem_lastWrites.mpr ⟨c, member, rfl, last⟩))
  · have ends : EndsCommitted (.opened { f with session := session })
        (.shutdown (.written (if status.isOk then [] else files))) := by
      intro r member inWal
      rw [marked.wal] at inWal
      rcases committed with success | committed
      · rw [leftLogs, if_pos success] at member
        cases member
      · exact marked.commits ▸ committed r inWal
    have before := reached.trans (flushes.mono fun _ _ keeps => keeps.1)
    obtain ⟨restorable, sound'⟩ := sound_of_run before
    have same := contents_step restorable sound' ⟨keeps, ends⟩ stepped
    refine same.trans ?_
    funext key
    have last : session.manager.lastWrites key = f.session.manager.lastWrites key := by
      rw [lastWrites, lastWrites, marked.commits]
    refine contents_congr sound sound' fun w => ⟨?_, ?_⟩
    · exact held_session family family' fun v member => last ▸ member
    · exact fun held => held.imp (stores key w) fun member => last ▸ member

def commitTwo : List LifetimeAction :=
  .start [] false [{ number := 1 }] :: (Session.commitCall 1 [([107], some [1]), ([108], some [2])]).map .session

theorem close_keeps_commitTwo : ∃ f : OpenFamily bytewiseComparator,
    execute (step {}) (.closed {}) commitTwo = some (.opened f) ∧
      (f.session.syncAllData {} 1000 [[107], [108]] .ok).1.isOk ∧
      ∃ d, f.close {} 1000 [[107], [108]] .ok [{ number := 1, records := f.session.wal }] = some d ∧
        Run (step {}) (KeepsAll {}) (.opened f) (.closed d) ∧
        (∀ c ∈ f.session.manager.commits, ∀ key content, (writesTo key c.writes).head? = some content →
          Holds (.closed d : Lifetime bytewiseComparator) key (c.sequence, content)) ∧
        (((f.session.syncAllData {} 1000 [[107], [108]] .ok).1.isOk ∨
          ∀ r ∈ f.session.wal, ∃ c ∈ f.session.manager.commits, c.sequence = r.sequenceNumber) →
            contents {} (.closed d : Lifetime bytewiseComparator) = contents {} (.opened f)) := by
  have facts : (execute (step {}) (.closed {} : Lifetime bytewiseComparator) commitTwo).any
      fun last => match last with
        | .closed _ => false
        | .opened f => decide (f.session.manager.nextSequence ≤ sequenceLimit ∧ f.session.WritesOnce ∧
            f.session.manager.flushes 0 = none ∧ [[107], [108]].Perm f.session.manager.versions.keys ∧
            (f.session.unflushed [[107], [108]]).length ≤ 10000 * 1000 ∧ f.left = [{ number := 1 }] ∧
            (f.session.syncAllData {} 1000 [[107], [108]] .ok).1.isOk) := by decide +kernel
  obtain ⟨last, executed, facts⟩ := Option.any_eq_true _ _ |>.mp facts
  cases last with
  | closed d => cases facts
  | opened f =>
      obtain ⟨bounded, once, free, walks, few, left, success⟩ := of_decide_eq_true facts
      have allowed : Allowed (step {}) (KeepsAll {}) (.closed {} : Lifetime bytewiseComparator)
          commitTwo := by decide +kernel
      have reached := execute_run _ allowed executed
      exact ⟨f, executed, success, close_keeps reached bounded once free (by decide) walks few .ok
        (by rw [left]; simp [WALDisk.logs])⟩

end Lifetime
end Lrdb
