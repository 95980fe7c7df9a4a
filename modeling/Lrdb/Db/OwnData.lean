import Lrdb.Db.DBImpl
import Lrdb.Db.LatestRead
import Lrdb.Db.SequenceRestore
import Lrdb.Storage.IdleTree
import Lrdb.Storage.Stamps

namespace Lrdb
open Versions Runs

/-! ## Reads come from entries -/

namespace SSTable
variable {cmp : Comparator}

theorem mem_of_scanBlock {key : Key} {snapshot : Nat} {entries : List Entry} {best : Option Version}
    {version : Version} (found : scanBlock cmp key snapshot best entries = some version) :
    best = some version ∨ ∃ entry ∈ entries, entry.1.userKey = key ∧ entry.version = version := by
  induction entries generalizing best with
  | nil => exact .inl found
  | cons entry rest ih =>
      have later (tail : ∃ other ∈ rest, other.1.userKey = key ∧ other.version = version) :
          ∃ other ∈ entry :: rest, other.1.userKey = key ∧ other.version = version :=
        tail.imp fun _ => And.imp_left (List.mem_cons_of_mem _)
      rw [scanBlock] at found
      split at found
      · rename_i same
        split at found
        · rcases ih found with here | tail
          · exact .inr ⟨entry, List.mem_cons_self .., Comparator.compare_eq.mp same, Option.some.inj here⟩
          · exact .inr (later tail)
        · exact (ih found).imp_right later
      · exact .inl found
      · exact (ih found).imp_right later

theorem mem_of_choice {table : SSTable} {key : Key} {snapshot : Nat} {version : Version}
    (found : table.choice cmp key snapshot = some version) :
    ∃ entry ∈ table.entries, entry.1.userKey = key ∧ entry.version = version := by
  unfold choice at found
  split at found <;> [cases found; skip]
  split at found <;> [cases found; skip]
  split at found <;> [cases found; rename_i block picked]
  obtain ⟨i, -, here⟩ := Option.bind_eq_some_iff.mp picked
  rcases mem_of_scanBlock found with none | ⟨entry, member, same⟩
  · cases none
  · exact ⟨entry, List.mem_flatMap.mpr ⟨block, List.mem_of_getElem? here, member⟩, same⟩

end SSTable

namespace LSMTree
variable {cmp : Comparator} {options : LSMTreeOptions} {t : LSMTree cmp} {p : Entry → Prop}

theorem mem_of_choice {m : SSTableManager} {key : Key} {snapshot : Nat} {version : Version}
    (found : m.choice cmp key snapshot = some version) :
    ∃ files ∈ m.levelFiles, ∃ table ∈ files, ∃ entry ∈ table.entries,
      entry.1.userKey = key ∧ entry.version = version := by
  obtain ⟨table, candidate, found⟩ := List.exists_of_findSome?_eq_some found
  split at found <;> [skip; cases found]
  obtain ⟨files, level, inside⟩ := SSTableManager.mem_of_candidate candidate
  exact ⟨files, level, table, inside, SSTable.mem_of_choice found⟩

theorem mem_of_firstHit {key : Key} {snapshot : Nat} {version : Version}
    (found : firstHit (t.memPlaces key snapshot) = some version) :
    ∃ mem ∈ t.memTables, ∃ entry ∈ mem.entries, entry.1.userKey = key ∧ entry.version = version := by
  rw [memPlaces] at found
  generalize t.memTables = tables at found ⊢
  induction tables with
  | nil => cases found
  | cons mem older ih =>
      rw [List.map_cons, firstHit] at found
      rcases Option.or_eq_some_iff.mp found with here | ⟨-, later⟩
      · have held := (List.mem_filter.mp (newest_mem here)).1
        exact ⟨mem, List.mem_cons_self .., mem_versionsOf.mp held⟩
      · obtain ⟨other, member, entry⟩ := ih later
        exact ⟨other, List.mem_cons_of_mem _ member, entry⟩

theorem Every.of_get (every : t.Every p) {key : Key} {snapshot : Nat} {value v : Value}
    (answers : (t.get key snapshot value).Answers (some v)) :
    ∃ entry, p entry ∧ entry.1.userKey = key ∧ payload entry.version = some v := by
  have settled := (t.get_answers_choice key snapshot value).unique answers
  have ofFile {version : Version} (found : t.sstables.choice cmp key snapshot = some version)
      (held : payload version = some v) :
      ∃ entry, p entry ∧ entry.1.userKey = key ∧ payload entry.version = some v := by
    obtain ⟨files, level, table, inside, entry, member, keys, rfl⟩ := mem_of_choice found
    exact ⟨entry, every.files files level table inside entry member, keys, held⟩
  unfold outcome at settled
  split at settled
  · obtain ⟨version, found, held⟩ := Option.bind_eq_some_iff.mp settled
    exact ofFile found held
  · rename_i version hit
    obtain ⟨stored, held, settled⟩ := Option.bind_eq_some_iff.mp settled
    cases found : t.sstables.choice cmp key snapshot with
    | some older =>
        rw [found] at settled
        exact ofFile found settled
    | none =>
        rw [found] at settled
        obtain ⟨mem, member, entry, inside, keys, rfl⟩ := mem_of_firstHit hit
        exact ⟨entry, every.memTables mem member entry inside, keys, settled⟩

theorem Every.flushImmutables (every : t.Every p) (n : Nat) :
    (LSMTree.flushImmutables options n t).2.Every p := by
  induction n generalizing t with
  | zero => exact every
  | succ n ih =>
      have after : (t.flushOldestMemTable options).2.Every p := every.flushOldest Prod.mk.eta.symm
      rw [LSMTree.flushImmutables]
      rcases flushed : t.flushOldestMemTable options with ⟨status, rest⟩
      rw [flushed] at after
      dsimp only at after ⊢
      split
      · exact ih after
      · exact after

theorem Every.flushAll (every : t.Every p) : (t.flushAll options).2.Every p := by
  unfold LSMTree.flushAll
  dsimp only
  cases switched : (if t.mutableMemTable.isEmpty then Except.ok t else t.switchMemTable options) with
  | error status => exact every
  | ok u =>
      refine Every.flushImmutables ?_ _
      split at switched
      · obtain rfl := Except.ok.inj switched
        exact every
      · exact switchMemTable_ok switched ▸ every.switched

end LSMTree

/-! ## A session that started on nothing -/

variable {cmp : Comparator} {options : LSMTreeOptions}

def TxManager.Committed (m : TxManager) (key : Key) (content : Option Value) : Prop :=
  ∃ w ∈ m.history key, w.2 = content

structure Session.Own (base : Nat) (st : Session cmp) : Prop where
  positive : 0 < base
  coherent : st.manager.Coherent base
  every : st.lsm.Every fun entry =>
    st.manager.Committed entry.1.userKey (LSMTree.payload entry.version)

namespace Session.Own
variable {base : Nat} {st st' : Session cmp}

theorem committed_mono {m m' : TxManager} (effect : m.Effect m') {key : Key} {content : Option Value}
    (committed : m.Committed key content) : m'.Committed key content := by
  obtain ⟨w, member, same⟩ := committed
  refine ⟨w, ?_, same⟩
  rcases effect.commits with kept | ⟨txn, t, s, -, -, grown⟩
  · rwa [TxManager.history, kept]
  · rw [TxManager.history, grown, List.flatMap_cons]
    exact List.mem_append_right _ member

theorem step (own : Own base st) {action : SessionAction}
    (stepped : st.step options action = some st') : Own base st' := by
  have kept : st.lsm.Every fun entry =>
      st'.manager.Committed entry.1.userKey (LSMTree.payload entry.version) :=
    own.every.mono fun _ => committed_mono (session_effect stepped)
  refine ⟨own.positive, coherent_step stepped own.coherent, ?_⟩
  cases step_tree own.coherent own.positive stepped with
  | same tree => exact tree ▸ kept
  | switched tree => exact tree ▸ kept.switched
  | flushed _ status tree => exact kept.flushOldest tree
  | written call _ item next tree =>
      rw [tree]
      refine kept.landing.store (committed_mono (session_effect stepped) ?_)
      refine ⟨item.2.stamp, (item_committed own.coherent next).2, ?_⟩
      by_cases deletion : item.2.isDelete <;>
        simp [deletion, VersionRecord.stamp, VersionRecord.written, Entry.version, LSMTree.payload,
          InternalKey.make]

theorem get (own : Own base st) {key : Key} {value v : Value}
    (answers : (st.get key value).Answers (some v)) : st.manager.Committed key (some v) := by
  have tree {snapshot : Nat} {other : Value}
      (found : (st.lsm.get key snapshot other).Answers (some v)) :
      st.manager.Committed key (some v) := by
    obtain ⟨entry, committed, rfl, held⟩ := own.every.of_get found
    rwa [held] at committed
  have read := managerGet_eq own.coherent key value
  unfold Session.get at answers
  dsimp only at answers
  split at answers
  · rename_i success
    have first : (st.managerGet key value).Answers (some v) := ⟨beq_iff_eq.mp success, answers.2⟩
    rw [read] at first
    cases last : st.lastCommitted key with
    | none =>
        rw [last] at first
        exact tree first
    | some content =>
        rw [last] at first
        obtain ⟨w, found, same⟩ := Option.map_eq_some_iff.mp last
        cases content with
        | none => cases first.1
        | some stored => exact ⟨w, newest_mem found, same.trans (congrArg some first.2)⟩
  · rename_i failed
    split at answers
    · cases answers.1
    · split at answers
      · exact tree answers
      · exact absurd (beq_iff_eq.mpr answers.1) failed

theorem getAt (own : Own base st) {key : Key} {sequence : Nat} {value v : Value}
    (answers : (st.getAt key sequence value).Answers (some v)) :
    st.manager.Committed key (some v) := by
  rw [getAt_eq] at answers
  generalize found : (st.manager.chain key).find? _ = hit at answers
  cases hit with
  | none =>
      obtain ⟨entry, committed, rfl, held⟩ := own.every.of_get answers
      rwa [held] at committed
  | some r =>
      have member := List.mem_of_find?_eq_some found
      have chosen := List.find?_some found
      simp only [Bool.and_eq_true] at chosen
      refine ⟨r.stamp, own.coherent.committed_mem member chosen.1, ?_⟩
      simp only [Option.map_some] at answers
      cases stamp : r.stamp.2 with
      | none =>
          rw [stamp] at answers
          cases answers.1
      | some stored =>
          rw [stamp] at answers
          exact congrArg some answers.2

end Session.Own

/-! ## A family -/

namespace OpenFamily
variable {f f' : OpenFamily cmp}

structure Own (f : OpenFamily cmp) : Prop where
  session : f.session.Own f.base

theorem Own.setTree (own : f.Own) {lsm : LSMTree cmp}
    (every : lsm.Every fun entry =>
      f.session.manager.Committed entry.1.userKey (LSMTree.payload entry.version)) :
    (f.setTree lsm).Own :=
  ⟨{ own.session with every := every }⟩

theorem Own.step (own : f.Own) {action : SessionAction} (stepped : f.step options action = some f') :
    f'.Own := by
  obtain ⟨st, moved, rfl⟩ := Option.map_eq_some_iff.mp stepped
  exact ⟨own.session.step moved⟩

theorem Own.run (own : f.Own) {action : FamilyAction cmp} (ran : f.run options action = some f') :
    f'.Own := by
  cases action with
  | session action => exact own.step ran
  | autoCommit key content =>
      have run := execute_run _ (allowed_free _ _ _) ran
      exact run.invariant (fun _ _ _ _ stepped own => own.step stepped) own
  | flush =>
      obtain rfl := Option.some.inj ran
      exact own.setTree own.session.every.flushAll
  | compactRange =>
      obtain rfl := Option.some.inj ran
      exact own.setTree own.session.every
  | backgroundFlush =>
      obtain rfl := Option.some.inj ran
      exact own.setTree (own.session.every.flushOldest Prod.mk.eta.symm)
  | backgroundCompaction triggers fileSize path disk =>
      obtain rfl := Option.some.inj ran
      rw [LSMTree.triggerCompaction_eq]
      exact own.setTree own.session.every

end OpenFamily

theorem Disk.start_empty {f : OpenFamily cmp} {order : List Nat} {again : Bool} {left : WALDisk}
    (opens : ({} : Disk).start cmp options order again left = some f) (id : Nat) :
    (f.identified id).Own ∧ (f.identified id).session.manager.commits = [] := by
  obtain ⟨st, sstables, recovered, -, rfl⟩ := Disk.start_ok opens
  have nothing : SSTableManager.new.loadExistingSSTables cmp order = .new := by
    have listed : SSTableManager.new.listed order = [] := by
      refine List.filterMap_eq_nil_iff.mpr fun number _ => ?_
      rfl
    rw [SSTableManager.loadExistingSSTables, listed]
    rfl
  obtain rfl : sstables = .new := by
    have same : ({} : Disk).recover cmp options order = .ok (.new options.memtable, .new) := by
      unfold Disk.recover
      rw [show ({} : Disk).sstables.loadExistingSSTables cmp order = .new from nothing]
      rfl
    exact (Prod.mk.inj (Except.ok.inj (recovered.symm.trans same))).2
  have positive : 0 < ({} : Disk).nextSequence st.maxSequence again := by
    unfold Disk.nextSequence recoverSetSnapshot
    dsimp only
    split <;> split <;> (try split) <;> omega
  exact ⟨⟨positive, .initial _, LSMTree.every_new⟩, rfl⟩

end Lrdb
