import Lrdb.Db.DBImpl
import Lrdb.Db.LatestRead
import Lrdb.Db.Logged
import Lrdb.Db.SequenceRestore
import Lrdb.Storage.IdleTree

namespace Lrdb
open Runs column_family_util

variable {cmp : Comparator} {options : LSMTreeOptions}

def TxAction.commits : TxAction → Bool
  | .prepareCommit .. => true
  | _ => false

theorem TxManager.nextSequence_step {m m' : TxManager} {action : TxAction}
    (plain : action.commits = false) (stepped : m.step action = some m') :
    m'.nextSequence = m.nextSequence := by
  cases action with
  | allocate isolation =>
      obtain rfl := Option.some.inj stepped
      rfl
  | garbageCollect =>
      obtain rfl := Option.some.inj stepped
      rfl
  | pick call maxItems order =>
      change m.pick call maxItems order = some m' at stepped
      unfold pick at stepped
      split at stepped <;> [skip; cases stepped]
      dsimp only at stepped
      split at stepped <;> obtain rfl := Option.some.inj stepped <;> rfl
  | prepareCommit => cases plain
  | wrote call success | markFlushed call =>
      obtain ⟨f, flushing, stepped⟩ := Option.bind_eq_some_iff.mp stepped
      simp only [wrote, markFlushed] at stepped
      split at stepped <;> [skip; cases stepped]
      obtain rfl := Option.some.inj stepped
      rfl
  | insertActive | copyActive | readUpLimit | captureSequence | acquire | wake | giveUp | keepLock
  | write | logged | synced | markCommitted | onCommitted | rollback | markAborted | onAborted | release
  | releaseAll =>
      obtain ⟨t, found, stepped⟩ := Option.bind_eq_some_iff.mp stepped
      simp only [insertActive, copyActive, readUpLimit, captureSequence, acquire, wake, giveUp, keepLock,
        write, logged, synced, markCommitted, onCommitted, rollback, markAborted, onAborted, release,
        releaseAll] at stepped
      split at stepped <;> [skip; cases stepped]
      first
        | (cases stepped; rfl)
        | (split at stepped <;> cases stepped <;> rfl)

structure Session.Quiet (start st : Session cmp) : Prop where
  coherent : st.manager.Coherent start.manager.nextSequence
  idle : st.lsm.Idle
  sstables : st.lsm.sstables = start.lsm.sstables
  wal : st.wal = []
  nextSequence : st.manager.nextSequence = start.manager.nextSequence
  commits : st.manager.commits = []
  uncommitted : ∀ txn t, st.manager.txns txn = some t → t.stage.sequence = none

namespace Session.Quiet
variable {start st st' : Session cmp}

theorem history (quiet : Quiet start st) (key : Key) : st.manager.history key = [] := by
  rw [TxManager.history, quiet.commits, List.flatMap_nil]

theorem manager (quiet : Quiet start st) {action : TxAction} (plain : action.commits = false)
    {m : TxManager} (stepped : st.manager.step action = some m) :
    m.Coherent start.manager.nextSequence ∧ m.nextSequence = start.manager.nextSequence ∧
      m.commits = [] ∧ ∀ txn t, m.txns txn = some t → t.stage.sequence = none := by
  have coherent := quiet.coherent.step stepped
  have same := TxManager.nextSequence_step plain stepped
  have effect := TxManager.step_effect stepped
  refine ⟨coherent, same.trans quiet.nextSequence, ?_, ?_⟩
  · rcases effect.commits with kept | ⟨txn, t, s, found, stage, -⟩
    · exact kept.trans quiet.commits
    · have none := quiet.uncommitted txn t found
      rw [stage] at none
      cases none
  · intro txn t' found
    cases prepared : t'.stage.sequence with
    | none => rfl
    | some s =>
        have below := (coherent.prepared txn t' s found prepared).2.1
        rcases effect.origin txn t' found with ⟨-, stage, -⟩ | ⟨t, old, continues⟩
        · rw [stage] at prepared
          cases prepared
        · rcases continues.sequence s prepared with before | rfl
          · exact absurd (quiet.uncommitted txn t old) (by rw [before]; simp)
          · exact absurd below (by rw [same]; exact lt_irrefl _)

theorem nextItem_none (quiet : Quiet start st) (call : Nat) : st.nextItem call = none := by
  cases next : st.nextItem call with
  | none => rfl
  | some item =>
      have committed := (Session.item_committed quiet.coherent next).2
      rw [quiet.history] at committed
      cases committed

theorem step (quiet : Quiet start st) {action : SessionAction}
    (plain : ∀ a, action = .transaction a → a.commits = false)
    (stepped : st.step options action = some st') : Quiet start st' := by
  cases action with
  | transaction a =>
      simp only [Session.step] at stepped
      split at stepped
      · cases stepped
      · obtain ⟨m, moved, rfl⟩ := Option.map_eq_some_iff.mp stepped
        obtain ⟨coherent, nextSequence, commits, uncommitted⟩ := quiet.manager (plain a rfl) moved
        exact ⟨coherent, quiet.idle, quiet.sstables, quiet.wal, nextSequence, commits, uncommitted⟩
  | log txn fault =>
      obtain ⟨t, sequence, key, rest, found, stage, -⟩ := log_cases stepped
      have none := quiet.uncommitted txn t found
      rw [stage] at none
      cases none
  | flushWrite call =>
      simp only [Session.step, flushWrite, quiet.nextItem_none call] at stepped
      cases stepped
  | switchMemTable =>
      obtain ⟨lsm, switched, rfl⟩ := Option.map_eq_some_iff.mp stepped
      cases result : st.lsm.switchMemTable options with
      | error status =>
          rw [result] at switched
          cases switched
      | ok tree =>
          rw [result] at switched
          obtain rfl := Option.some.inj switched
          obtain rfl := LSMTree.switchMemTable_ok result
          exact { quiet with idle := quiet.idle.switched, sstables := quiet.sstables }
  | flushOldestMemTable =>
      obtain rfl := Option.some.inj stepped
      obtain ⟨idle, same⟩ := quiet.idle.flushOldest options
      exact { quiet with idle := idle, sstables := same.trans quiet.sstables }

theorem lastCommitted_none (quiet : Quiet start st) (key : Key) : st.lastCommitted key = none := by
  rw [lastCommitted, quiet.history]
  rfl

theorem get_eq (quiet : Quiet start st) (first : Quiet start start) (key : Key) (value : Value) :
    st.get key value = start.get key value := by
  have tree := quiet.idle.get_eq first.idle quiet.sstables key
  have now := managerGet_eq quiet.coherent key value
  have before := managerGet_eq first.coherent key value
  rw [quiet.lastCommitted_none] at now
  rw [first.lastCommitted_none] at before
  have same : st.managerGet key value = start.managerGet key value := by
    rw [now, before, TxManager.currentSequence, TxManager.currentSequence, quiet.nextSequence]
    exact tree _ _
  simp only [Session.get, same, tree]

theorem getAt_eq (quiet : Quiet start st) (first : Quiet start start) (key : Key) (sequence : Nat)
    (value : Value) : st.getAt key sequence value = start.getAt key sequence value := by
  have missing {other : Session cmp} (calm : Quiet start other) :
      ((other.manager.chain key).find? fun r =>
        r.isCommitted && decide (r.commitSnapshot ≤ sequence)) = none := by
    refine List.find?_eq_none.mpr fun r member chosen => ?_
    obtain ⟨c, recorded, -⟩ :=
      calm.coherent.creators key r member (Bool.and_eq_true_iff.mp chosen).1
    rw [calm.commits] at recorded
    cases recorded
  rw [Session.getAt_eq, Session.getAt_eq, missing quiet, missing first]
  exact quiet.idle.get_eq first.idle quiet.sstables ..

end Session.Quiet

/-! ## Families -/

def FamilyAction.commits : FamilyAction cmp → Bool
  | .session (.transaction action) => action.commits
  | .autoCommit .. => true
  | _ => false

structure OpenFamily.Quiet (start f : OpenFamily cmp) : Prop where
  session : Session.Quiet start.session f.session
  left : f.left = start.left
  lastSequence : f.lastSequence = start.lastSequence

namespace OpenFamily.Quiet
variable {start f f' : OpenFamily cmp}

theorem setTree (quiet : Quiet start f) {lsm : LSMTree cmp}
    (kept : lsm.Idle ∧ lsm.sstables = f.session.lsm.sstables) : Quiet start (f.setTree lsm) :=
  { quiet with
    session := { quiet.session with
      idle := kept.1
      sstables := kept.2.trans quiet.session.sstables } }

theorem run (quiet : Quiet start f) {action : FamilyAction cmp} (plain : action.commits = false)
    (ran : f.run options action = some f') : Quiet start f' := by
  cases action with
  | session action =>
      obtain ⟨st, stepped, rfl⟩ := Option.map_eq_some_iff.mp ran
      refine ⟨quiet.session.step ?_ stepped, quiet.left, quiet.lastSequence⟩
      rintro a rfl
      exact plain
  | autoCommit => cases plain
  | flush =>
      obtain rfl := Option.some.inj ran
      exact quiet.setTree quiet.session.idle.flushAll
  | compactRange =>
      obtain rfl := Option.some.inj ran
      exact quiet.setTree ⟨quiet.session.idle, rfl⟩
  | backgroundFlush =>
      obtain rfl := Option.some.inj ran
      exact quiet.setTree (quiet.session.idle.flushOldest _)
  | backgroundCompaction triggers fileSize path disk =>
      obtain rfl := Option.some.inj ran
      rw [LSMTree.triggerCompaction_eq]
      exact quiet.setTree ⟨quiet.session.idle, rfl⟩

theorem crash_eq (quiet : Quiet start f) (first : Quiet start start) (files : WALDisk) :
    f.crash files = start.crash files := by
  simp only [crash, Survives, Remains, quiet.session.wal, first.session.wal, quiet.left,
    quiet.lastSequence, quiet.session.sstables, List.take_nil]

theorem shutdown_eq (quiet : Quiet start f) (first : Quiet start start) (point : ShutdownPoint) :
    f.shutdown options point = start.shutdown options point := by
  have closed : (f.session.lsm.close options).2 = (start.session.lsm.close options).2 :=
    quiet.session.idle.close.trans (quiet.session.sstables.trans first.session.idle.close.symm)
  cases point <;>
    simp only [shutdown, Survives, Remains, quiet.session.wal, first.session.wal, quiet.left,
      quiet.lastSequence, closed, List.take_nil, TxManager.currentSequence, quiet.session.nextSequence]

end OpenFamily.Quiet

theorem Disk.quiet_start {d : Disk} {f : OpenFamily cmp} {order : List Nat} {again : Bool}
    {left : WALDisk} (opens : d.start cmp options order again left = some f) (id : Nat) :
    OpenFamily.Quiet (f.identified id) (f.identified id) := by
  obtain ⟨st, sstables, -, -, rfl⟩ := d.start_ok opens
  exact
    { session :=
        { coherent := .initial _
          idle := LSMTree.idle_reopened sstables
          sstables := rfl
          wal := rfl
          nextSequence := rfl
          commits := rfl
          uncommitted := fun _ _ found => by cases found }
      left := rfl
      lastSequence := rfl }

inductive Lifetime.Quiet : Lifetime cmp → Lifetime cmp → Prop where
  | closed (disk : Disk) : Quiet (.closed disk) (.closed disk)
  | opened {start f : OpenFamily cmp} (first : OpenFamily.Quiet start start)
      (quiet : OpenFamily.Quiet start f) : Quiet (.opened start) (.opened f)

theorem Lifetime.Quiet.end_eq {before after : Lifetime cmp} (quiet : Quiet before after)
    (ends : FamilyEnd) : after.step options ends.action = before.step options ends.action := by
  cases quiet with
  | closed disk => rfl
  | opened first quiet =>
      cases ends with
      | crash files => exact congrArg (Option.map Lifetime.closed) (quiet.crash_eq first files)
      | shutdown point => exact congrArg (Option.map Lifetime.closed) (quiet.shutdown_eq first point)

/-! ## The database -/

namespace DBImpl
variable {O D : Type} [DecidableEq O] [DecidableEq D] {env : DBEnv O D} {db db' : DBImpl O D cmp}

def onDisk (records : List (ManifestRecord O)) (given : List (Nat × String)) (disks : D → Disk) :
    DBImpl O D cmp :=
  { database := .closed records, given := given, directories := fun d => .closed (disks d) }

def IsCall (_ : DBImpl O D cmp) : DBAction O cmp → Prop
  | .openWith .. | .interrupt .. | .endSession _ => False
  | _ => True

def KeepsReadOnly (db : DBImpl O D cmp) : DBAction O cmp → Prop
  | .put .. | .delete .. => True
  | .family _ action => action.commits = false
  | .createColumnFamily _ name _ => name.isEmpty ∨ (db.lookup name).isSome
  | .dropColumnFamily name _ => name = kDefaultColumnFamilyName ∨ db.lookup name = none
  | .openWith .. | .interrupt .. | .endSession _ => False

instance (db : DBImpl O D cmp) : (action : DBAction O cmp) → Decidable (IsCall db action)
  | .openWith .. | .interrupt .. | .endSession _ => inferInstanceAs (Decidable False)
  | .put .. | .delete .. | .family .. | .createColumnFamily .. | .dropColumnFamily .. =>
      inferInstanceAs (Decidable True)

instance (db : DBImpl O D cmp) : (action : DBAction O cmp) → Decidable (KeepsReadOnly db action)
  | .put .. | .delete .. => inferInstanceAs (Decidable True)
  | .family _ action => inferInstanceAs (Decidable (action.commits = false))
  | .createColumnFamily _ name _ => inferInstanceAs (Decidable (name.isEmpty ∨ (db.lookup name).isSome))
  | .dropColumnFamily name _ =>
      inferInstanceAs (Decidable (name = kDefaultColumnFamilyName ∨ db.lookup name = none))
  | .openWith .. | .interrupt .. | .endSession _ => inferInstanceAs (Decidable False)

structure Unchanged (env : DBEnv O D) (before after : DBImpl O D cmp) : Prop where
  families : after.listColumnFamilies = before.listColumnFamilies
  get : ∀ name key value, after.get env name key value = before.get env name key value
  getAt : ∀ name key sequence value,
    after.getAt env name key sequence value = before.getAt env name key sequence value
  ends : ∀ ends, after.endSession env ends = before.endSession env ends

structure Unmoved (env : DBEnv O D) (before after : DBImpl O D cmp) : Prop where
  readOnly : after.readOnly = true
  same : after = { before with directories := after.directories }
  directories : ∀ d, Lifetime.Quiet (before.directories d) (after.directories d)

omit [DecidableEq O] in
theorem endFamilies_eq {ends : ColumnFamily O → FamilyEnd} {fs : List (ColumnFamily O)}
    {before after : D → Lifetime cmp}
    (related : ∀ d, after d = before d ∨
      (∃ family ∈ fs, env.directoryOf family = d) ∧ Lifetime.Quiet (before d) (after d)) :
    fs.foldlM (fun directories family => endFamily env (ends family) family directories) after =
      fs.foldlM (fun directories family => endFamily env (ends family) family directories) before := by
  induction fs generalizing before after with
  | nil =>
      obtain rfl : after = before := by
        funext d
        rcases related d with same | ⟨⟨family, member, -⟩, -⟩
        · exact same
        · cases member
      rfl
  | cons family rest ih =>
      have here : (after (env.directoryOf family)).step (env.tree family.options) (ends family).action =
          (before (env.directoryOf family)).step (env.tree family.options) (ends family).action := by
        rcases related (env.directoryOf family) with same | ⟨-, quiet⟩
        · rw [same]
        · exact quiet.end_eq _
      simp only [List.foldlM_cons, endFamily, here]
      cases (before (env.directoryOf family)).step (env.tree family.options) (ends family).action with
      | none => rfl
      | some lifetime =>
          apply ih
          intro d
          by_cases same : d = env.directoryOf family
          · subst same
            exact .inl (by simp)
          · simp only [Function.update_of_ne same]
            refine (related d).imp_right ?_
            rintro ⟨⟨other, member, rfl⟩, quiet⟩
            rcases List.mem_cons.mp member with rfl | later
            · exact absurd rfl same
            · exact ⟨⟨other, later, rfl⟩, quiet⟩

omit [DecidableEq O] in
theorem started {starts : ColumnFamily O → FamilyStart} {fs : List (ColumnFamily O)}
    {all : List (ColumnFamily O)} (part : fs ⊆ all) {before after : D → Lifetime cmp}
    (calm : ∀ d, Lifetime.Quiet (before d) (before d) ∧
      ((∃ disk, before d = .closed disk) ∨ ∃ family ∈ all, env.directoryOf family = d))
    (ran : fs.foldlM (fun directories family =>
      startFamily env (starts family) family directories) before = some after) (d : D) :
    Lifetime.Quiet (after d) (after d) ∧
      ((∃ disk, after d = .closed disk) ∨ ∃ family ∈ all, env.directoryOf family = d) := by
  induction fs generalizing before with
  | nil =>
      obtain rfl := Option.some.inj ran
      exact calm d
  | cons family rest ih =>
      rw [List.foldlM_cons] at ran
      obtain ⟨middle, opened, ran⟩ := Option.bind_eq_some_iff.mp ran
      refine ih (fun _ member => part (List.mem_cons_of_mem _ member)) ?_ ran
      unfold startFamily at opened
      dsimp only at opened
      split at opened <;> [rename_i f started; cases opened]
      obtain rfl := Option.some.inj opened
      intro other
      by_cases same : other = env.directoryOf family
      · subst same
        rw [Function.update_self]
        refine ⟨?_, .inr ⟨family, part (List.mem_cons_self ..), rfl⟩⟩
        cases closed : before (env.directoryOf family) with
        | opened f => rw [closed] at started; cases started
        | closed disk =>
            rw [closed] at started
            obtain ⟨g, opens, same⟩ := Option.map_eq_some_iff.mp started
            obtain rfl := Lifetime.opened.inj same
            have quiet := Disk.quiet_start opens family.id
            exact .opened quiet quiet
      · rw [Function.update_of_ne same]
        exact calm other

theorem unmoved_open {records : List (ManifestRecord O)} {given : List (Nat × String)}
    {disks : D → Disk} {order : List (ColumnFamilyDescriptor O)}
    {starts : ColumnFamily O → FamilyStart}
    (opens : (onDisk records given disks).openWith env true order starts = some db) :
    Unmoved env db db ∧ ∃ m, db.database = .opened m ∧ ∀ d f, db.directories d = .opened f →
      ∃ family ∈ families m, env.directoryOf family = d := by
  unfold openWith onDisk at opens
  dsimp only at opens
  split at opens <;> [skip; cases opens]
  split at opens <;> [cases opens; rename_i m success]
  obtain ⟨directories, ran, rfl⟩ := Option.map_eq_some_iff.mp opens
  have all := started (List.Subset.refl _) (fun d => ⟨.closed _, .inl ⟨_, rfl⟩⟩) ran
  refine ⟨⟨rfl, rfl, fun d => (all d).1⟩, m, rfl, fun d f running => ?_⟩
  rcases (all d).2 with ⟨disk, closed⟩ | owner
  · cases closed.symm.trans running
  · exact owner

omit [DecidableEq O] in
theorem Unmoved.runFamily {before after after' : DBImpl O D cmp} (unmoved : Unmoved env before after)
    {family : ColumnFamily O} {action : FamilyAction cmp} (plain : action.commits = false)
    (ran : after.runFamily env family action = some after') : Unmoved env before after' := by
  unfold DBImpl.runFamily at ran
  dsimp only at ran
  split at ran <;> [cases ran; rename_i f running]
  obtain ⟨f', moved, rfl⟩ := Option.map_eq_some_iff.mp ran
  refine ⟨unmoved.readOnly, ?_, fun d => ?_⟩
  · rw [setDirectory, unmoved.same]
  · by_cases same : d = env.directoryOf family
    · subst same
      have related := unmoved.directories (env.directoryOf family)
      rw [running] at related
      simp only [setDirectory, Function.update_self]
      generalize before.directories (env.directoryOf family) = start at related ⊢
      cases related with
      | opened first quiet => exact .opened first (quiet.run plain moved)
    · simp only [setDirectory, Function.update_of_ne same]
      exact unmoved.directories d

theorem Unmoved.step {before after after' : DBImpl O D cmp} (unmoved : Unmoved env before after)
    {action : DBAction O cmp} (allowed : KeepsReadOnly after action)
    (stepped : after.step env action = some after') : Unmoved env before after' := by
  cases action with
  | openWith | interrupt | endSession => cases allowed
  | put name key value | delete name key =>
      change after.write env _ _ _ = some after' at stepped
      rw [write, writeTarget, if_pos unmoved.readOnly] at stepped
      obtain rfl := Option.some.inj stepped
      exact unmoved
  | family name action =>
      obtain ⟨family, -, ran⟩ := Option.bind_eq_some_iff.mp stepped
      exact unmoved.runFamily allowed ran
  | createColumnFamily options name start =>
      change after.createColumnFamily env options name start = some after' at stepped
      unfold DBImpl.createColumnFamily at stepped
      split at stepped <;> [cases stepped; rename_i m opened]
      split at stepped
      · obtain rfl := Option.some.inj stepped
        exact unmoved
      · rename_i family m' created
        have refused : name.isEmpty ∨ (m.columnFamiliesByName.lookup name).isSome := by
          rw [KeepsReadOnly, lookup, opened] at allowed
          exact allowed
        obtain ⟨status, error⟩ := ColumnFamilyManager.createColumnFamily_refused options refused
        cases created.symm.trans error
  | dropColumnFamily name point =>
      change after.dropColumnFamily env name point = some after' at stepped
      unfold DBImpl.dropColumnFamily at stepped
      split at stepped <;> [cases stepped; rename_i m opened]
      split at stepped
      · rename_i m' family dropped found
        obtain ⟨-, other, -⟩ := ColumnFamilyManager.dropColumnFamily_ok dropped
        rcases allowed with default | unknown
        · exact absurd default other
        · rw [lookup, opened] at unknown
          cases unknown.symm.trans found
      · obtain rfl := Option.some.inj stepped
        exact unmoved

omit [DecidableEq O] [DecidableEq D] in
theorem Unmoved.active {before after : DBImpl O D cmp} (unmoved : Unmoved env before after)
    (name : String) : after.active env name = none ∧ before.active env name = none ∨
      ∃ start f, after.active env name = some f ∧ before.active env name = some start ∧
        OpenFamily.Quiet start start ∧ OpenFamily.Quiet start f := by
  have same : after.lookup name = before.lookup name := by rw [unmoved.same]; rfl
  simp only [DBImpl.active, same]
  cases before.lookup name with
  | none => exact .inl ⟨rfl, rfl⟩
  | some family =>
      have related := unmoved.directories (env.directoryOf family)
      simp only [Option.bind_some]
      generalize before.directories (env.directoryOf family) = old,
        after.directories (env.directoryOf family) = now at related
      cases related with
      | closed disk => exact .inl ⟨rfl, rfl⟩
      | opened first quiet => exact .inr ⟨_, _, rfl, rfl, first, quiet⟩

omit [DecidableEq O] in
theorem Unmoved.unchanged {before after : DBImpl O D cmp} (unmoved : Unmoved env before after)
    {m : ColumnFamilyManager O} (opened : before.database = .opened m)
    (owned : ∀ d f, before.directories d = .opened f →
      ∃ family ∈ families m, env.directoryOf family = d) : Unchanged env before after := by
  refine ⟨by rw [unmoved.same]; rfl, fun name key value => ?_, fun name key sequence value => ?_,
    fun ends => ?_⟩
  · obtain ⟨now, old⟩ | ⟨start, f, now, old, first, quiet⟩ := unmoved.active name <;>
      rw [get, get, now, old]
    exact quiet.session.get_eq first.session key value
  · obtain ⟨now, old⟩ | ⟨start, f, now, old, first, quiet⟩ := unmoved.active name <;>
      rw [getAt, getAt, now, old]
    exact quiet.session.getAt_eq first.session key sequence value
  · have related (d : D) : after.directories d = before.directories d ∨
        (∃ family ∈ families m, env.directoryOf family = d) ∧
          Lifetime.Quiet (before.directories d) (after.directories d) := by
      have quiet := unmoved.directories d
      cases old : before.directories d with
      | closed disk =>
          rw [old] at quiet
          generalize after.directories d = now at quiet ⊢
          cases quiet
          exact .inl rfl
      | opened f => exact .inr ⟨owned d f old, old ▸ quiet⟩
    rw [unmoved.same]
    simp only [endSession, opened, endFamilies_eq related]

/-- Whatever calls come, in whatever order, a database opened for reading is unchanged as long as no
commit starts and no family is created or dropped. -/
theorem unchanged_of_run (records : List (ManifestRecord O)) (given : List (Nat × String))
    (disks : D → Disk) (order : List (ColumnFamilyDescriptor O))
    (starts : ColumnFamily O → FamilyStart)
    (opens : (onDisk records given disks).openWith env true order starts = some db)
    (run : Run (step env) KeepsReadOnly db db') : Unchanged env db db' := by
  obtain ⟨unmoved, m, opened, owned⟩ := unmoved_open opens
  exact (run.invariant (fun _ _ _ allowed stepped unmoved => unmoved.step allowed stepped)
    unmoved).unchanged opened owned

def plainEnv : DBEnv Unit String := ⟨Catalogue.unitOptions, id, fun _ => {}⟩

def calls (name : String) (actions : List SessionAction) : List (DBAction Unit bytewiseComparator) :=
  actions.map fun action => .family name (.session action)

def callsWithoutCommit : List (DBAction Unit bytewiseComparator) :=
  .put "default" [107] [1] :: calls "default" (Session.beginCall 1 .kReadCommitted ++
    Session.writeCall 1 [107] (some [1])) ++ [.family "default" .flush]

def callsWithCommit : List (DBAction Unit bytewiseComparator) :=
  calls "default" (Session.commitCall 1 [([107], some [1])])

def openedForReadOnly : Option (DBImpl Unit String bytewiseComparator) :=
  (onDisk [] [] fun _ => {}).openWith plainEnv true [] fun _ => {}

theorem unchanged_of_run_withoutCommit :
    ∃ db db', openedForReadOnly = some db ∧
      execute (step plainEnv) db callsWithoutCommit = some db' ∧ Unchanged plainEnv db db' := by
  have facts : openedForReadOnly.any fun db =>
      decide (Allowed (step plainEnv) KeepsReadOnly db callsWithoutCommit) &&
        (execute (step plainEnv) db callsWithoutCommit).isSome := by decide +kernel
  obtain ⟨db, opens, facts⟩ := Option.any_eq_true _ _ |>.mp facts
  obtain ⟨allowed, executed⟩ := Bool.and_eq_true_iff.mp facts
  obtain ⟨db', executed⟩ := Option.isSome_iff_exists.mp executed
  have run := execute_run _ (of_decide_eq_true allowed) executed
  exact ⟨db, db', opens, executed, unchanged_of_run [] [] (fun _ => {}) [] (fun _ => {}) opens run⟩

theorem unchanged_fails_withCommit :
    ¬ ∀ (records : List (ManifestRecord Unit)) (given : List (Nat × String)) (disks : String → Disk)
      (order : List (ColumnFamilyDescriptor Unit)) (starts : ColumnFamily Unit → FamilyStart)
      (db db' : DBImpl Unit String bytewiseComparator),
      (onDisk records given disks).openWith plainEnv true order starts = some db →
        Run (step plainEnv) IsCall db db' → Unchanged plainEnv db db' := by
  intro always
  have facts : openedForReadOnly.any fun db =>
      decide (Allowed (step plainEnv) IsCall db callsWithCommit) &&
        (execute (step plainEnv) db callsWithCommit).any fun db' =>
          decide ((db'.get plainEnv "default" [107] []).Answers (some [1]) ∧
            (db.get plainEnv "default" [107] []).Answers none) := by decide +kernel
  obtain ⟨db, opens, facts⟩ := Option.any_eq_true _ _ |>.mp facts
  obtain ⟨allowed, facts⟩ := Bool.and_eq_true_iff.mp facts
  obtain ⟨db', executed, facts⟩ := Option.any_eq_true _ _ |>.mp facts
  obtain ⟨now, before⟩ := of_decide_eq_true facts
  have unchanged := always [] [] (fun _ => {}) [] (fun _ => {}) db db' opens
    (execute_run _ (of_decide_eq_true allowed) executed)
  rw [unchanged.get] at now
  exact absurd (now.unique before) (by simp)

end DBImpl
end Lrdb
