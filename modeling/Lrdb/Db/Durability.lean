import Lrdb.Db.Fidelity
import Lrdb.Db.SequenceRestore
import Lrdb.Storage.FlatFiles

namespace Lrdb
open Versions LSMTree Runs TxManager SSTableManager

def OneContent (p : Key → Stamp → Prop) : Prop :=
  ∀ key v w, p key v → p key w → v.1 = w.1 → v = w

def Logs (logs : List Log) (key : Key) (w : Stamp) : Prop := .ofWrite 0 key w.1 w.2 ∈ logs.flatten

namespace Session
variable {cmp : Comparator} {options : LSMTreeOptions} {st st' : Session cmp} {lsm : LSMTree cmp}
  {base : Nat}

/-- A flush writes the last write of a commit to the key, and no other. -/
def FlushesLast (st : Session cmp) : SessionAction → Prop
  | .flushWrite call => ∀ item ∈ st.nextItem call, item.2.commitSnapshot < sequenceLimit ∧
      item.2.stamp ∈ st.manager.lastWrites item.1
  | _ => True

instance (st : Session cmp) : (action : SessionAction) → Decidable (st.FlushesLast action)
  | .flushWrite call => inferInstanceAs (Decidable (∀ item ∈ st.nextItem call,
      item.2.commitSnapshot < sequenceLimit ∧ item.2.stamp ∈ st.manager.lastWrites item.1))
  | .transaction _ | .log .. | .switchMemTable | .flushOldestMemTable =>
      inferInstanceAs (Decidable True)

theorem lastWrites_mono {m m' : TxManager} (effect : m.Effect m') {key : Key} {w : Stamp}
    (member : w ∈ m.lastWrites key) : w ∈ m'.lastWrites key := by
  obtain ⟨c, inCommits, last⟩ := mem_lastWrites.mp member
  refine mem_lastWrites.mpr ⟨c, ?_, last⟩
  rcases effect.commits with same | ⟨txn, t, s, -, -, more⟩
  · exact same ▸ inCommits
  · exact more ▸ List.mem_cons_of_mem _ inCommits

theorem lastWrites_sequence (coherent : st.manager.Coherent base) {key : Key} {w : Stamp}
    (member : w ∈ st.manager.lastWrites key) : base ≤ w.1 := by
  obtain ⟨c, inCommits, same, -⟩ := mem_lastWrites.mp member
  exact same ▸ (coherent.recorded c inCommits).1

theorem history_of_lastWrites {m : TxManager} {key : Key} {w : Stamp}
    (member : w ∈ m.lastWrites key) : w ∈ m.history key := by
  obtain ⟨c, inCommits, same, head⟩ := mem_lastWrites.mp member
  exact mem_history.mpr ⟨c, inCommits, same, List.mem_of_head? head⟩

/-- A session on the tree `lsm` that has flushed last writes only. -/
structure FlushedLast (lsm : LSMTree cmp) (base : Nat) (st : Session cmp) : Prop where
  start : Start lsm base
  faithful : Faithful lsm base st
  last : ∀ key, ∀ w ∈ st.lsm.stamps key, w ∈ lsm.stamps key ∨ w ∈ st.manager.lastWrites key

theorem FlushedLast.agrees (flushed : FlushedLast lsm base st) {action : SessionAction}
    (flushes : st.FlushesLast action) : st.FlushAgrees action := by
  cases action with
  | transaction _ | log _ _ | switchMemTable | flushOldestMemTable => trivial
  | flushWrite call =>
      intro item next
      obtain ⟨bounded, lastWrite⟩ := flushes item next
      refine ⟨bounded, fun version held same => ?_⟩
      have coherent := flushed.faithful.coherent
      have inTree : stampOf version ∈ st.lsm.stamps item.1 :=
        mem_stamps.mpr ⟨version, mem_versionsIn.mp held, rfl⟩
      rcases flushed.last item.1 _ inTree with initial | lastWrite'
      · obtain ⟨other, held', equal⟩ := mem_stamps.mp initial
        have low : other.1 < base := flushed.start.below.holds held'
        have high : base ≤ item.2.commitSnapshot := lastWrites_sequence coherent lastWrite
        have sequences : (stampOf other).1 = (stampOf version).1 := congrArg Prod.fst equal
        exact absurd (sequences.trans same) (low.trans_le high).ne
      · exact coherent.functional_lastWrites item.1 _ lastWrite' _ lastWrite same

theorem FlushedLast.step (flushed : FlushedLast lsm base st) {action : SessionAction}
    (flushes : st.FlushesLast action) (stepped : st.step options action = some st') :
    FlushedLast lsm base st' := by
  have agrees := flushed.agrees flushes
  have faithful := flushed.faithful
  have effect := session_effect stepped
  refine ⟨flushed.start, faithful.step flushed.start.positive agrees stepped, fun key w member => ?_⟩
  have old (held : w ∈ st.lsm.stamps key) :
      w ∈ lsm.stamps key ∨ w ∈ st'.manager.lastWrites key :=
    (flushed.last key w held).imp_right (lastWrites_mono effect)
  rcases stamps_step faithful.toGrounded flushed.start.positive faithful.numbered agrees stepped with
    same | ⟨call, item, rfl, next, -, more⟩
  · exact old ((same key w).mp member)
  · rcases (more key w).mp member with ⟨rfl, rfl⟩ | held
    · exact .inr (lastWrites_mono effect (flushes item next).2)
    · exact old held

theorem flat_step (coherent : st.manager.Coherent base) (positive : 0 < base)
    (flat : st.lsm.sstables.Flat) {action : SessionAction}
    (stepped : st.step options action = some st') : st'.lsm.sstables.Flat ∧
      ∀ key w, st.lsm.sstables.Stores key w → st'.lsm.sstables.Stores key w := by
  have landing : (st.lsm.landing options).sstables = st.lsm.sstables := by
    unfold LSMTree.landing
    split <;> rfl
  cases step_tree coherent positive stepped with
  | same tree =>
      rw [tree]
      exact ⟨flat, fun _ _ => id⟩
  | switched tree =>
      rw [tree]
      exact ⟨flat, fun _ _ => id⟩
  | flushed _ status tree =>
      have after : st'.lsm = (st.lsm.flushOldestMemTable options).2 := by rw [tree]
      rw [after]
      exact ⟨flat_flushOldest flat, fun _ _ => stores_flushOldest flat⟩
  | written call _ item next tree =>
      have same : st'.lsm.sstables = st.lsm.sstables := by rw [tree]; exact landing
      rw [same]
      exact ⟨flat, fun _ _ => id⟩

theorem fresh_step (coherent : st.manager.Coherent base) (positive : 0 < base)
    (fresh : st.lsm.sstables.Fresh) {action : SessionAction}
    (stepped : st.step options action = some st') : st'.lsm.sstables.Fresh := by
  cases step_tree coherent positive stepped with
  | same tree => exact tree ▸ fresh
  | switched tree => exact tree ▸ fresh
  | flushed _ status tree =>
      have after : st'.lsm = (st.lsm.flushOldestMemTable options).2 := by rw [tree]
      exact after ▸ fresh_flushOldest fresh
  | written call _ item next tree =>
      rw [tree]
      unfold LSMTree.landing
      split <;> exact fresh

end Session

/-! ## Disks and open families -/

theorem ReplayState.stampOf_versionOf (columnFamilyId : Nat) (key : Key) (w : Stamp) :
    stampOf (versionOf (.ofWrite columnFamilyId key w.1 w.2)) = w := by
  obtain ⟨sequence, content⟩ := w
  cases content <;> rfl

structure Disk.Sound (d : Disk) : Prop where
  flat : d.sstables.Flat
  plain : ∀ r ∈ d.logs.flatten, ∃ key, ∃ w : Stamp,
    r = .ofWrite 0 key w.1 w.2 ∧ w.1 < sequenceLimit
  single : OneContent fun key w => Logs d.logs key w ∨ d.sstables.Stores key w

structure OpenFamily.Sound {cmp : Comparator} (lsm : LSMTree cmp) (f : OpenFamily cmp) : Prop where
  flushed : f.session.FlushedLast lsm f.base
  /-- What the session found on the disk is still in the tables. -/
  stored : ∀ key, ∀ w ∈ lsm.stamps key, f.session.lsm.sstables.Stores key w
  logged : f.session.Logged
  singleRecords : f.session.SingleRecords
  family : f.session.columnFamilyId = 0
  given : ∀ r ∈ f.session.wal, f.base ≤ r.sequenceNumber ∧ r.sequenceNumber < sequenceLimit
  flat : f.session.lsm.sstables.Flat
  fresh : f.session.lsm.sstables.Fresh
  left : ∀ r ∈ f.left.logs.flatten, ∃ key, ∃ w : Stamp, r = .ofWrite 0 key w.1 w.2 ∧
    w.1 < sequenceLimit ∧ w ∈ lsm.stamps key

namespace Disk
variable {cmp : Comparator} {options : LSMTreeOptions} {d : Disk}

theorem Sound.recover (sound : d.Sound) (all : d.unread.flatten = []) (opens : d.sstables.Opens cmp)
    {order : List Nat} (lists : d.Lists order) {st : ReplayState cmp} {sstables : SSTableManager}
    (recovered : d.recover cmp options order = .ok (st, sstables)) :
    sstables.Flat ∧ sstables.Fresh ∧
      ∀ key w, sstables.Stores key w ↔ Logs d.logs key w ∨ d.sstables.Stores key w := by
  have perm : d.replayed.flatten.Perm d.logs.flatten := by
    have parts := d.logs_perm
    rwa [List.flatten_append, all, List.append_nil] at parts
  have plain : ∀ r ∈ d.replayed.flatten, ReplayState.Plain r := by
    intro r member
    obtain ⟨key, w, rfl, -⟩ := sound.plain r (perm.subset member)
    exact ReplayState.plain_ofWrite ..
  have small : ∀ r ∈ d.replayed.flatten, r.sequenceNumber < sequenceLimit := by
    intro r member
    obtain ⟨key, w, rfl, less⟩ := sound.plain r (perm.subset member)
    rwa [WALRecord.sequenceNumber_ofWrite]
  have consistent : ReplayState.Consistent ([] ++ d.replayed.flatten) := by
    intro r hr r' hr' keys sequences
    have inLogs := perm.subset hr
    have inLogs' := perm.subset hr'
    obtain ⟨key, w, rfl, -⟩ := sound.plain r inLogs
    obtain ⟨key', w', rfl, -⟩ := sound.plain r' inLogs'
    rw [WALRecord.key_ofWrite, WALRecord.key_ofWrite] at keys
    rw [WALRecord.sequenceNumber_ofWrite, WALRecord.sequenceNumber_ofWrite] at sequences
    subst keys
    rw [sound.single key w w' (.inl inLogs) (.inl inLogs') sequences]
  obtain ⟨replayed, replays, result⟩ := @ReplayState.replay_plain cmp options.memtable
    (.new options.memtable) [] _ ReplayState.replayed_new plain small consistent
  obtain ⟨flat, loaded⟩ := sound.flat.load opens lists
  unfold Disk.recover at recovered
  simp only [replays, bind, Except.bind] at recovered
  split at recovered <;> [rename_i success; cases recovered]
  obtain ⟨rfl, rfl⟩ := Prod.mk.inj (Except.ok.inj recovered)
  refine ⟨flat_doFlush flat replayed.memtable, fresh_doFlush (fresh_load ..) replayed.memtable, ?_⟩
  intro key w
  refine (stores_doFlush flat success).trans (or_congr ?_ ?_)
  · simp only [result.versions, List.nil_append]
    constructor
    · rintro ⟨_, ⟨r, member, rfl, rfl⟩, rfl⟩
      have inLogs := perm.subset member
      obtain ⟨key, v, rfl, -⟩ := sound.plain r inLogs
      rw [Logs, ReplayState.stampOf_versionOf, WALRecord.key_ofWrite]
      exact inLogs
    · intro member
      exact ⟨_, ⟨_, perm.symm.subset member, WALRecord.key_ofWrite .., rfl⟩,
        ReplayState.stampOf_versionOf ..⟩
  · simp only [Stores, loaded]

theorem lists_of_start {f : OpenFamily cmp} {order : List Nat} {again : Bool} {left : WALDisk}
    (opens : d.start cmp options order again left = some f) : d.Lists order := by
  unfold start at opens
  split at opens <;> [cases opens; skip]
  dsimp only at opens
  split at opens <;> [rename_i listed; cases opens]
  exact listed.1

theorem lists_of_interrupt {d' : Disk} {order : List Nat} {left : WALDisk}
    (crashes : d.interrupt cmp options order left = some d') : d.Lists order := by
  unfold interrupt at crashes
  split at crashes <;> [cases crashes; skip]
  split at crashes <;> [rename_i listed; cases crashes]
  exact listed.1

theorem logs_of_leaves {left : WALDisk} (leaves : d.Leaves left) {r : WALRecord}
    (member : r ∈ left.logs.flatten) : r ∈ d.logs.flatten := by
  refine d.files.logs_listed.subset ?_
  obtain ⟨log, inLeft, here⟩ := List.mem_flatten.mp member
  exact List.mem_flatten_of_mem ((leaves.2.1.map LogFile.records).subset inLeft) here

theorem Sound.start (sound : d.Sound) (covered : d.Covered) (all : d.unread.flatten = [])
    (opens : d.sstables.Opens cmp) {f : OpenFamily cmp} {order : List Nat} {again : Bool}
    {left : WALDisk} (sets : d.SetsCounter again)
    (started : d.start cmp options order again left = some f) :
    f.Sound f.session.lsm ∧ ∀ key w,
      f.session.lsm.sstables.Stores key w ↔ Logs d.logs key w ∨ d.sstables.Stores key w := by
  obtain ⟨restorable, tree, -, -⟩ := covered.start sets started
  have lists := lists_of_start started
  obtain ⟨st, sstables, recovered, leaves, rfl⟩ := start_ok started
  obtain ⟨flat, fresh, stores⟩ := sound.recover all opens lists recovered
  have stamps {key : Key} {w : Stamp} :
      w ∈ (reopened options sstables : LSMTree cmp).stamps key ↔ sstables.Stores key w :=
    stores_reopened flat
  have starts : Session.Start (reopened options sstables : LSMTree cmp)
      (d.nextSequence st.maxSequence again) := by
    refine ⟨restorable.positive, ⟨fresh.levels, flat.distinct, fun file member => ?_⟩, ?_, tree⟩
    · exact fresh.numbers file (flat.mem_flatten.mpr member)
    · intro key v first w second same
      exact sound.single key v w ((stores key v).mp (stamps.mp first))
        ((stores key w).mp (stamps.mp second)) same
  refine ⟨⟨⟨starts, Session.faithful_opened starts, fun key w member => .inl member⟩,
    fun key w => stamps.mp, restorable.logged, ?_, rfl, ?_, flat, fresh, ?_⟩, stores⟩
  · intro _ _ _ _ has
    simp [Session.Has, Session.opened] at has
  · simp [Session.opened]
  · intro r member
    have inLogs := logs_of_leaves leaves member
    obtain ⟨key, w, rfl, less⟩ := sound.plain r inLogs
    exact ⟨key, w, rfl, less, stamps.mpr ((stores key w).mpr (.inl inLogs))⟩

theorem Sound.interrupt (sound : d.Sound) (all : d.unread.flatten = [])
    (opens : d.sstables.Opens cmp) {d' : Disk} {order : List Nat} {left : WALDisk}
    (crashes : d.interrupt cmp options order left = some d') :
    d'.Sound ∧ ∀ key w,
      Logs d'.logs key w ∨ d'.sstables.Stores key w ↔ Logs d.logs key w ∨ d.sstables.Stores key w := by
  have lists := lists_of_interrupt crashes
  obtain ⟨st, sstables, recovered, leaves, rfl⟩ := interrupt_ok crashes
  obtain ⟨flat, -, stores⟩ := sound.recover all opens lists recovered
  have same (key : Key) (w : Stamp) : Logs left.logs key w ∨ sstables.Stores key w ↔
      Logs d.logs key w ∨ d.sstables.Stores key w := by
    rw [stores]
    exact or_iff_right_of_imp fun member => .inl (logs_of_leaves leaves member)
  refine ⟨⟨flat, fun r member => sound.plain r (logs_of_leaves leaves member), ?_⟩, same⟩
  intro key v w first second
  exact sound.single key v w ((same key v).mp first) ((same key w).mp second)

theorem Sound.create (sound : d.Sound) : Disk.Sound { d with files := d.files.listed } := by
  have inLogs {key : Key} {w : Stamp} : Logs d.files.listed.logs key w → Logs d.logs key w :=
    fun member => d.files.logs_listed.subset member
  refine ⟨sound.flat, fun r member => sound.plain r (d.files.logs_listed.subset member), ?_⟩
  intro key v w first second
  exact sound.single key v w (first.imp_left inLogs) (second.imp_left inLogs)

end Disk

namespace OpenFamily
variable {cmp : Comparator} {options : LSMTreeOptions} {f f' : OpenFamily cmp} {lsm : LSMTree cmp}

theorem Sound.step (sound : f.Sound lsm) {action : SessionAction}
    (bounded : f.session.manager.nextSequence ≤ sequenceLimit)
    (flushes : f.session.FlushesLast action) (stepped : f.step options action = some f') :
    f'.Sound lsm ∧ ∀ key w,
      f.session.lsm.sstables.Stores key w → f'.session.lsm.sstables.Stores key w := by
  have faithful := sound.flushed.faithful
  have coherent := faithful.coherent
  have positive := sound.flushed.start.positive
  obtain ⟨st, moved, rfl⟩ := Option.map_eq_some_iff.mp stepped
  obtain ⟨flat, kept⟩ := Session.flat_step coherent positive sound.flat moved
  obtain ⟨family, wal⟩ := Session.wal_step moved
  refine ⟨⟨sound.flushed.step flushes moved, fun key w member => kept key w (sound.stored key w member),
    sound.logged.step coherent moved, Session.singleRecords_step sound.logged sound.singleRecords moved,
    family.trans sound.family, ?_, flat, Session.fresh_step coherent positive sound.fresh moved,
    sound.left⟩, kept⟩
  rcases wal with same | ⟨txn, t, sequence, key, rest, content, found, stage, more⟩
  · exact same ▸ sound.given
  · intro r member
    rw [more] at member
    rcases List.mem_append.mp member with old | new
    · exact sound.given r old
    · obtain rfl := List.mem_singleton.mp new
      obtain ⟨low, high, -⟩ := coherent.prepared txn t sequence found (by rw [stage]; rfl)
      rw [WALRecord.sequenceNumber_ofWrite]
      exact ⟨low, high.trans_le bounded⟩

theorem Sound.single (sound : f.Sound lsm) : OneContent fun key w =>
    f.session.Has key w.1 w.2 ∨ w ∈ f.session.lsm.stamps key := by
  have mixed {key : Key} {v w : Stamp} (logged : f.session.Has key v.1 v.2)
      (stored : w ∈ f.session.lsm.stamps key) (same : v.1 = w.1) : v = w := by
    rcases sound.flushed.last key w stored with initial | last
    · obtain ⟨version, held, rfl⟩ := mem_stamps.mp initial
      have low := sound.flushed.start.below.holds held
      have high := (sound.given _ logged).1
      rw [WALRecord.sequenceNumber_ofWrite, same] at high
      exact absurd low high.not_gt
    · obtain ⟨c, inCommits, sequence, head⟩ := mem_lastWrites.mp last
      rw [same, ← sequence] at logged
      have head' := (sound.logged.commits c inCommits key v.2).mp logged
      exact Prod.ext same (Option.some.inj (head'.symm.trans head))
  rintro key v w (first | first) (second | second) same
  · refine Prod.ext same (sound.singleRecords key v.1 v.2 w.2 first ?_)
    rwa [same]
  · exact mixed first second same
  · exact (mixed second first same.symm).symm
  · exact sound.flushed.faithful.functional key v first w second same

theorem Sound.numbered (sound : f.Sound lsm) : f.session.lsm.sstables.Numbered :=
  sound.flushed.faithful.numbered

theorem Sound.leave (sound : f.Sound lsm) {sstables : SSTableManager} {files : WALDisk}
    {lastSequence : Option Nat} (flat : sstables.Flat)
    (stored : ∀ key w, sstables.Stores key w → w ∈ f.session.lsm.stamps key)
    (remains : f.Remains files.logs) : Disk.Sound ⟨sstables, files, lastSequence⟩ := by
  have origin {r : WALRecord} (member : r ∈ files.logs.flatten) : ∃ key, ∃ w : Stamp,
      r = .ofWrite 0 key w.1 w.2 ∧ w.1 < sequenceLimit ∧
        (f.session.Has key w.1 w.2 ∨ w ∈ f.session.lsm.stamps key) := by
    rcases List.mem_append.mp (remains.subset member) with left | inWal
    · obtain ⟨key, w, rfl, less, initial⟩ := sound.left r left
      exact ⟨key, w, rfl, less, .inr (sound.flushed.faithful.initial key w initial)⟩
    · obtain ⟨key, sequence, content, rfl, -⟩ := sound.logged.records r inWal
      have less := (sound.given _ inWal).2
      rw [WALRecord.sequenceNumber_ofWrite] at less
      refine ⟨key, (sequence, content), ?_, less, .inl inWal⟩
      rw [sound.family]
  refine ⟨flat, fun r member => ?_, fun key v w first second => ?_⟩
  · obtain ⟨key, w, same, less, -⟩ := origin member
    exact ⟨key, w, same, less⟩
  · have known {w : Stamp} (held : Logs files.logs key w ∨ sstables.Stores key w) :
        f.session.Has key w.1 w.2 ∨ w ∈ f.session.lsm.stamps key := by
      rcases held with member | held
      · obtain ⟨key', w', same, -, here⟩ := origin member
        obtain ⟨rfl, sequences, contents⟩ := WALRecord.ofWrite_inj same
        obtain rfl : w = w' := Prod.ext sequences contents
        exact here
      · exact .inr (stored key w held)
    exact sound.single key v w (known first) (known second)

end OpenFamily

/-! ## Runs -/

namespace Lifetime
variable {cmp : Comparator} (options : LSMTreeOptions)

/-- A recovery reads all log files with records and opens all tables; flushes write last writes only; and a
shutdown removes synced records of a session after everything in it is flushed. -/
def KeepsWrites : Lifetime cmp → LifetimeAction → Prop
  | .closed d, .start .. | .closed d, .interrupt .. =>
      d.unread.flatten = [] ∧ d.sstables.Opens cmp
  | .opened f, .session action =>
      f.session.manager.nextSequence ≤ sequenceLimit ∧ f.session.FlushesLast action
  | .opened f, .shutdown (.written files) =>
      f.Survives files.logs ∨ f.session.AllFlushed ∧ (f.session.lsm.close options).1.isOk
  | _, _ => True

instance : (st : Lifetime cmp) → (action : LifetimeAction) → Decidable (KeepsWrites options st action)
  | .closed d, .start .. | .closed d, .interrupt .. =>
      inferInstanceAs (Decidable (d.unread.flatten = [] ∧ d.sstables.Opens cmp))
  | .opened f, .session action => inferInstanceAs
      (Decidable (f.session.manager.nextSequence ≤ sequenceLimit ∧ f.session.FlushesLast action))
  | .opened f, .shutdown (.written files) => inferInstanceAs
      (Decidable (f.Survives files.logs ∨ f.session.AllFlushed ∧ (f.session.lsm.close options).1.isOk))
  | .closed _, .create | .closed _, .session _ | .closed _, .crash _ | .closed _, .shutdown _
  | .opened _, .start .. | .opened _, .create | .opened _, .interrupt .. | .opened _, .crash _
  | .opened _, .shutdown (.treeClosed _) | .opened _, .shutdown (.emptied _) =>
      inferInstanceAs (Decidable True)

def KeepsAll (st : Lifetime cmp) (action : LifetimeAction) : Prop :=
  KeepsCounter st action ∧ KeepsWrites options st action

instance (st : Lifetime cmp) (action : LifetimeAction) : Decidable (KeepsAll options st action) :=
  inferInstanceAs (Decidable (_ ∧ _))

def Sound : Lifetime cmp → Prop
  | .closed d => d.Sound
  | .opened f => ∃ lsm, f.Sound lsm

def Holds : Lifetime cmp → Key → Stamp → Prop
  | .closed d, key, w => Logs d.logs key w ∨ d.sstables.Stores key w
  | .opened f, key, w => f.session.lsm.sstables.Stores key w ∨ w ∈ f.session.manager.lastWrites key

variable {options} {st st' : Lifetime cmp}

theorem Sound.step (restorable : st.Restorable) (sound : st.Sound) {action : LifetimeAction}
    (keeps : KeepsAll options st action) (stepped : st.step options action = some st') :
    st'.Sound ∧ ∀ key w, st.Holds key w → st'.Holds key w := by
  obtain ⟨counter, writes⟩ := keeps
  cases st with
  | closed d =>
      cases action with
      | start order again left =>
          obtain ⟨f, opens, rfl⟩ := Option.map_eq_some_iff.mp stepped
          obtain ⟨sound', stores⟩ := Disk.Sound.start sound restorable writes.1 writes.2 counter opens
          exact ⟨⟨_, sound'⟩, fun key w held => .inl ((stores key w).mpr held)⟩
      | interrupt order left =>
          obtain ⟨d', crashes, rfl⟩ := Option.map_eq_some_iff.mp stepped
          obtain ⟨sound', same⟩ := Disk.Sound.interrupt sound writes.1 writes.2 crashes
          exact ⟨sound', fun key w => (same key w).mpr⟩
      | create =>
          obtain rfl := Option.some.inj stepped
          exact ⟨Disk.Sound.create sound, fun key w =>
            .imp_left (d.files.logs_listed.symm.subset ·)⟩
      | session action | crash files | shutdown point => cases stepped
  | opened f =>
      obtain ⟨lsm, sound⟩ := sound
      have logged {files : WALDisk} (survives : f.Survives files.logs) {key : Key} {w : Stamp}
          (last : w ∈ f.session.manager.lastWrites key) : Logs files.logs key w := by
        obtain ⟨c, inCommits, same, head⟩ := mem_lastWrites.mp last
        have has := (sound.logged.commits c inCommits key w.2).mpr head
        have synced := OpenFamily.Restorable.committed restorable c inCommits key w.2 has
        rw [sound.family, same] at synced
        exact survives.1.subset (List.mem_append_right _ synced)
      have closes : (f.session.lsm.close options).2.Flat ∧
          (∀ key w, (f.session.lsm.close options).2.Stores key w → w ∈ f.session.lsm.stamps key) ∧
            ∀ key w, f.session.lsm.sstables.Stores key w →
              (f.session.lsm.close options).2.Stores key w :=
        ⟨flat_close sound.flat sound.numbered,
          fun _ _ => stamps_of_stores_close sound.flat sound.numbered,
          fun _ _ => stores_close_of_stores sound.flat sound.numbered⟩
      have crashed {sstables : SSTableManager} {files : WALDisk} {lastSequence : Option Nat}
          (survives : f.Survives files.logs) (flat : sstables.Flat)
          (stamps : ∀ key w, sstables.Stores key w → w ∈ f.session.lsm.stamps key)
          (kept : ∀ key w, f.session.lsm.sstables.Stores key w → sstables.Stores key w) :
          Sound (.closed ⟨sstables, files, lastSequence⟩ : Lifetime cmp) ∧ ∀ key w,
            (Lifetime.opened f).Holds key w →
              Holds (.closed ⟨sstables, files, lastSequence⟩ : Lifetime cmp) key w :=
        ⟨sound.leave flat stamps survives.2, fun key w held =>
          held.elim (fun stored => .inr (kept key w stored)) fun last => .inl (logged survives last)⟩
      cases action with
      | start order again left | create | interrupt order left => cases stepped
      | session action =>
          obtain ⟨f', moved, rfl⟩ := Option.map_eq_some_iff.mp stepped
          obtain ⟨sound', kept⟩ := sound.step writes.1 writes.2 moved
          obtain ⟨session, managed, rfl⟩ := Option.map_eq_some_iff.mp moved
          exact ⟨⟨lsm, sound'⟩, fun key w =>
            .imp (kept key w) (Session.lastWrites_mono (Session.session_effect managed))⟩
      | crash files =>
          obtain ⟨d, crashes, rfl⟩ := Option.map_eq_some_iff.mp stepped
          unfold OpenFamily.crash at crashes
          split at crashes <;> [rename_i survives; cases crashes]
          obtain rfl := Option.some.inj crashes
          exact crashed survives sound.flat
            (fun key w stored => (mem_stamps_of_flat sound.flat).mpr (.inr stored)) fun _ _ => id
      | shutdown point =>
          obtain ⟨d, shuts, rfl⟩ := Option.map_eq_some_iff.mp stepped
          cases point with
          | treeClosed files | emptied files =>
              simp only [OpenFamily.shutdown] at shuts
              split at shuts <;> [rename_i survives; cases shuts]
              obtain rfl := Option.some.inj shuts
              exact crashed survives closes.1 closes.2.1 closes.2.2
          | written files =>
              simp only [OpenFamily.shutdown] at shuts
              split at shuts <;> [rename_i remains; cases shuts]
              obtain rfl := Option.some.inj shuts
              rcases writes with survives | ⟨flushed, success⟩
              · exact crashed survives closes.1 closes.2.1 closes.2.2
              refine ⟨sound.leave closes.1 closes.2.1 remains, fun key w held => .inr ?_⟩
              rcases held with stored | last
              · exact closes.2.2 key w stored
              · -- Everything committed has been flushed, and so the tree has it.
                refine stores_close_of_stamps sound.flat sound.fresh sound.numbered success ?_
                exact (sound.flushed.faithful.mem_stamps_iff flushed).mpr
                  (List.mem_append_left _ (Session.history_of_lastWrites last))

theorem sound_of_run
    (run : Run (step options) (KeepsAll options) (.closed {} : Lifetime cmp) st) :
    st.Restorable ∧ st.Sound := by
  refine run.invariant (p := fun st => st.Restorable ∧ st.Sound) ?_
    ⟨SSTableManager.below_new _, flat_new, by simp [Disk.logs, WALDisk.logs], fun key v w first => ?_⟩
  · exact fun _ _ _ keeps stepped both =>
      ⟨both.1.step keeps.1 stepped, (both.2.step both.1 keeps stepped).1⟩
  · simp [Logs, Disk.logs, WALDisk.logs, Stores, SSTableManager.new, SSTableManager.level] at first

theorem holds_of_run (sound : st.Restorable ∧ st.Sound)
    (run : Run (step options) (KeepsAll options) st st') {key : Key} {w : Stamp}
    (held : st.Holds key w) : st'.Holds key w :=
  (run.invariant (p := fun later => (later.Restorable ∧ later.Sound) ∧ later.Holds key w)
    (fun _ _ _ keeps stepped all =>
      have next := all.1.2.step all.1.1 keeps stepped
      ⟨⟨all.1.1.step keeps.1 stepped, next.1⟩, next.2 key w all.2⟩)
    ⟨sound, held⟩).2

/-- In every run of sessions, each ended by a crash at any of its steps or by a shutdown, what a
transaction committed is the newest write up to its sequence in the tree of every later session. -/
theorem durable_of_run {f g : OpenFamily cmp} {d : Disk}
    (before : Run (step options) (KeepsAll options) (.closed {} : Lifetime cmp) (.opened f))
    (after : Run (step options) (KeepsAll options) (.opened f) (.closed d)) {order : List Nat}
    {again : Bool} {left : WALDisk}
    (keeps : KeepsAll options (.closed d : Lifetime cmp) (.start order again left))
    (opens : d.start cmp options order again left = some g) {c : Commit}
    (committed : c ∈ f.session.manager.commits) {key : Key} {content : Option Value}
    (last : (writesTo key c.writes).head? = some content) :
    newestUpTo c.sequence (g.session.lsm.stamps key) = some (c.sequence, content) := by
  have reached := sound_of_run before
  have held : Holds (.opened f) key (c.sequence, content) :=
    .inr (mem_lastWrites.mpr ⟨c, committed, rfl, last⟩)
  have whole := before.trans after
  have kept := holds_of_run reached after held
  obtain ⟨restorable, sound⟩ := sound_of_run whole
  obtain ⟨sound', stores⟩ :=
    Disk.Sound.start sound restorable keeps.2.1 keeps.2.2 keeps.1 opens
  have stored := sound'.flushed.faithful
  have inTree : (c.sequence, content) ∈ g.session.lsm.stamps key :=
    (mem_stamps_of_flat sound'.flat).mpr (.inr ((stores key _).mpr kept))
  refine newest_eq_of_max ((stored.functional key).subset fun _ => List.mem_of_mem_filter) ?_ ?_
  · exact List.mem_filter.mpr ⟨inTree, by simp⟩
  · exact fun w member => of_decide_eq_true (List.mem_filter.mp member).2

def commitOnce : List LifetimeAction :=
  [.start [] false [{ number := 1 }]] ++ (Session.commitCall 1 [([107], some [1])]).map .session

def crashInRecovery : List LifetimeAction :=
  [.crash [{ number := 1, records := [.ofWrite 0 [107] 1 (some [1])] }],
    .interrupt [] [{ number := 1, records := [.ofWrite 0 [107] 1 (some [1])] }, { number := 2 }]]

theorem durable_of_run_crashInRecovery :
    ∃ f g : OpenFamily bytewiseComparator, ∃ d, execute (step {}) (.closed {}) commitOnce =
        some (.opened f) ∧ execute (step {}) (.opened f) crashInRecovery = some (.closed d) ∧
      d.start bytewiseComparator {} [1] false [{ number := 3 }] = some g ∧
        newestUpTo 1 (g.session.lsm.stamps [107]) = some (1, some [1]) := by
  have facts : (execute (step {}) (.closed {} : Lifetime bytewiseComparator) commitOnce).any
      fun first => match first with
        | .closed _ => false
        | .opened f => decide (Allowed (step {}) (KeepsAll {}) (.opened f) crashInRecovery) &&
            (f.session.manager.commits.map fun c => (c.sequence, c.writes)) ==
              [(1, [([107], some [1])])] &&
            (execute (step {}) (.opened f) crashInRecovery).any fun last => match last with
              | .opened _ => false
              | .closed d => decide (KeepsAll {} (.closed d : Lifetime bytewiseComparator)
                    (.start [1] false [{ number := 3 }])) &&
                  (d.start bytewiseComparator {} [1] false [{ number := 3 }]).isSome := by decide +kernel
  obtain ⟨first, executed, facts⟩ := Option.any_eq_true _ _ |>.mp facts
  cases first with
  | closed d => cases facts
  | opened f =>
      simp only [Bool.and_eq_true] at facts
      obtain ⟨⟨allowed, commits⟩, facts⟩ := facts
      obtain ⟨last, executed', facts⟩ := Option.any_eq_true _ _ |>.mp facts
      cases last with
      | opened g => cases facts
      | closed d =>
          obtain ⟨keeps, opens⟩ := Bool.and_eq_true _ _ |>.mp facts
          obtain ⟨g, opens⟩ := Option.isSome_iff_exists.mp opens
          obtain ⟨c, committed, same⟩ := List.mem_map.mp
            ((beq_iff_eq.mp commits).symm ▸ List.mem_singleton_self _)
          obtain ⟨sequence, writes⟩ := Prod.mk.inj same
          have allowed₁ : Allowed (step {}) (KeepsAll {})
              (.closed {} : Lifetime bytewiseComparator) commitOnce := by decide +kernel
          have durable := durable_of_run (execute_run _ allowed₁ executed)
            (execute_run _ (of_decide_eq_true allowed) executed') (of_decide_eq_true keeps) opens
            committed (show (writesTo [107] c.writes).head? = some (some [1]) by rw [writes]; rfl)
          exact ⟨f, g, d, executed, executed', opens, sequence ▸ durable⟩
end Lifetime
end Lrdb
