import Lrdb.Concurrency.Retention
import Lrdb.Db.Session
import Lrdb.Storage.Stamps

namespace Lrdb.Session
open Versions LSMTree Runs TxManager

variable {cmp : Comparator} {options : LSMTreeOptions} {st st' : Session cmp}
  {lsm : LSMTree cmp} {base : Nat}

/-- A flush writes under its sequence what the tree already has there, if it has anything. -/
def FlushAgrees (st : Session cmp) : SessionAction → Prop
  | .flushWrite call => ∀ item ∈ st.nextItem call, item.2.commitSnapshot < sequenceLimit ∧
      ∀ version ∈ versionsIn st.lsm.sources item.1,
        version.1 = item.2.commitSnapshot → stampOf version = item.2.stamp
  | _ => True

instance (st : Session cmp) : (action : SessionAction) → Decidable (st.FlushAgrees action)
  | .flushWrite call => inferInstanceAs (Decidable (∀ item ∈ st.nextItem call,
      item.2.commitSnapshot < sequenceLimit ∧ ∀ version ∈ versionsIn st.lsm.sources item.1,
        version.1 = item.2.commitSnapshot → stampOf version = item.2.stamp))
  | .transaction _ | .log .. | .switchMemTable | .flushOldestMemTable =>
      inferInstanceAs (Decidable True)

/-- The tree a session starts with: numbered files, one content for each sequence of a key, and no
sequence the session will give out. -/
structure Start (lsm : LSMTree cmp) (nextSequence : Nat) : Prop where
  positive : 0 < nextSequence
  numbered : lsm.sstables.Numbered
  functional : ∀ key, Functional (lsm.stamps key)
  below : lsm.Below nextSequence

theorem start_new {nextSequence : Nat} (positive : 0 < nextSequence) :
    Start (.new options : LSMTree cmp) nextSequence where
  positive := positive
  numbered := (SSTableManager.searchable_new : SSTableManager.Searchable cmp _).toNumbered
  functional := fun key x member => by
    obtain ⟨version, held, -⟩ := mem_stamps.mp member
    exact absurd held not_holds_new
  below := below_new nextSequence

/-- A session that started with the tree `lsm`. -/
structure Faithful (lsm : LSMTree cmp) (base : Nat) (st : Session cmp) : Prop
    extends Grounded base st where
  numbered : st.lsm.sstables.Numbered
  initial : ∀ key, ∀ w ∈ lsm.stamps key, w ∈ st.lsm.stamps key
  sound : ∀ key, ∀ w ∈ st.lsm.stamps key, w ∈ lsm.stamps key ∨ w ∈ st.manager.history key
  functional : ∀ key, Functional (st.lsm.stamps key)
  flushed : ∀ key, ∀ r ∈ st.manager.chain key, r.isCommitted → r.flushed →
    r.stamp ∈ st.lsm.stamps key
  written : ∀ call f, st.manager.flushes call = some f → ∀ item ∈ f.written,
    item.2.stamp ∈ st.lsm.stamps item.1
  complete : ∀ key, ∀ w ∈ st.manager.history key,
    w ∈ Chain.committed (st.manager.chain key) ∨ w ∈ st.lsm.stamps key

theorem stampOf_item (item : Key × VersionRecord) :
    stampOf (item.2.commitSnapshot, if item.2.isDelete then .kDeletion else .kValue,
      if item.2.isDelete then [] else item.2.value) = item.2.stamp := by
  by_cases deletion : item.2.isDelete <;>
    simp [deletion, stampOf, content, VersionRecord.stamp, VersionRecord.written]

theorem stamps_step (grounded : Grounded base st) (positive : 0 < base)
    (numbered : st.lsm.sstables.Numbered) {action : SessionAction} (agrees : st.FlushAgrees action)
    (stepped : st.step options action = some st') :
    (∀ key w, w ∈ st'.lsm.stamps key ↔ w ∈ st.lsm.stamps key) ∨
      ∃ call item, action = .flushWrite call ∧ st.nextItem call = some item ∧
        (∀ v ∈ st.lsm.stamps item.1, v.1 = item.2.commitSnapshot → v = item.2.stamp) ∧
        ∀ key w, w ∈ st'.lsm.stamps key ↔
          item.1 = key ∧ w = item.2.stamp ∨ w ∈ st.lsm.stamps key := by
  cases step_tree grounded.coherent positive stepped with
  | same tree => exact .inl fun key w => tree ▸ Iff.rfl
  | switched tree => exact .inl fun key w => tree ▸ mem_stamps_congr fun version => holds_switched
  | flushed _ status tree =>
      exact .inl fun key w => mem_stamps_congr fun version => holds_flushOldest numbered tree
  | written call taken item next tree =>
      subst taken
      obtain ⟨bounded, same⟩ := agrees item next
      refine .inr ⟨call, item, rfl, next, fun v member equal => ?_, fun key w => ?_⟩
      · obtain ⟨version, held, rfl⟩ := mem_stamps.mp member
        exact same version (mem_versionsIn.mpr held) equal
      · rw [tree, mem_stamps_store bounded, stampOf_item]
        · exact or_congr_right (mem_stamps_congr fun version => holds_landing)
        · intro version held equal
          rw [stampOf_item]
          exact same version (mem_versionsIn.mpr (holds_landing.mp held)) equal

theorem written_step (grounded : Grounded base st) (positive : 0 < base) {action : SessionAction}
    (agrees : st.FlushAgrees action) (stepped : st.step options action = some st') {call : Nat}
    {f' : FlushCall} (flushing : st'.manager.flushes call = some f')
    {item : Key × VersionRecord} (written : item ∈ f'.written) :
    (∃ f, st.manager.flushes call = some f ∧ item ∈ f.written) ∨
      item.2.stamp ∈ st'.lsm.stamps item.1 := by
  cases action with
  | transaction a =>
      simp only [step] at stepped
      split at stepped <;> [cases stepped; rename_i internal]
      obtain ⟨manager, moved, rfl⟩ := Option.map_eq_some_iff.mp stepped
      obtain ⟨f, before, old | ⟨rfl, -⟩⟩ := step_written moved flushing written
      · exact .inl ⟨f, before, old⟩
      · exact absurd rfl internal
  | log txn fault =>
      simp only [step, log] at stepped
      split at stepped <;> [skip; cases stepped]
      split at stepped <;>
        obtain ⟨manager, moved, rfl⟩ := Option.map_eq_some_iff.mp stepped <;>
        obtain ⟨f, before, old | ⟨other, -⟩⟩ := step_written moved flushing written
      · exact .inl ⟨f, before, old⟩
      · cases other
      · exact .inl ⟨f, before, old⟩
      · cases other
  | switchMemTable =>
      obtain ⟨tree, -, rfl⟩ := Option.map_eq_some_iff.mp stepped
      exact .inl ⟨f', flushing, written⟩
  | flushOldestMemTable =>
      obtain rfl := Option.some.inj stepped
      exact .inl ⟨f', flushing, written⟩
  | flushWrite other =>
      simp only [step, flushWrite] at stepped
      split at stepped <;> [rename_i next nextFound; cases stepped]
      rcases result : writeItem options st.lsm next with ⟨status, tree⟩
      simp only [result] at stepped
      obtain ⟨manager, moved, rfl⟩ := Option.map_eq_some_iff.mp stepped
      obtain ⟨f, before, old | ⟨same, head⟩⟩ := step_written moved flushing written
      · exact .inl ⟨f, before, old⟩
      · obtain ⟨rfl, success⟩ := TxAction.wrote.inj same
        have item_eq : st.nextItem other = some item := by rw [nextItem, before]; exact head
        obtain rfl := Option.some.inj (nextFound.symm.trans item_eq)
        obtain ⟨bounded, agree⟩ := agrees next nextFound
        rcases writeItem_cases (item_positive grounded.coherent positive nextFound) result with
          ⟨failed, -⟩ | ⟨-, rfl⟩
        · exact absurd success failed
        · refine .inr ?_
          refine (mem_stamps_store bounded ?_).mpr (.inl ⟨rfl, (stampOf_item next).symm⟩)
          intro version held equal
          rw [stampOf_item]
          exact agree version (mem_versionsIn.mpr (holds_landing.mp held)) equal

theorem session_retention (coherent : st.manager.Coherent base) {action : SessionAction}
    (stepped : st.step options action = some st') : Retention st.manager st'.manager := by
  rcases step_manager stepped with same | ⟨a, moved⟩
  · exact .still (congrArg TxManager.versions same) (congrArg TxManager.commits same)
  · exact step_retention coherent moved

theorem Faithful.step (faithful : Faithful lsm base st) (positive : 0 < base)
    {action : SessionAction} (agrees : st.FlushAgrees action)
    (stepped : st.step options action = some st') : Faithful lsm base st' := by
  have grounded := faithful.toGrounded
  have effect := session_effect stepped
  have retention := session_retention grounded.coherent stepped
  have stamps := stamps_step grounded positive faithful.numbered agrees stepped
  have grown {key : Key} {w : Stamp} (member : w ∈ st.lsm.stamps key) :
      w ∈ st'.lsm.stamps key := by
    rcases stamps with same | ⟨call, item, -, -, -, more⟩
    · exact (same key w).mpr member
    · exact (more key w).mpr (.inr member)
  have flushed {key : Key} {a : VersionRecord} (member : a ∈ st.manager.chain key)
      (isCommitted : a.isCommitted) (mark : a.flushed) : a.stamp ∈ st'.lsm.stamps key :=
    grown (faithful.flushed key a member isCommitted mark)
  refine
    { toGrounded := grounded.step positive stepped
      numbered := numbered_step grounded.coherent positive faithful.numbered stepped
      initial := fun key w member => grown (faithful.initial key w member)
      sound := ?_
      functional := ?_
      flushed := ?_
      written := ?_
      complete := ?_ }
  · intro key w member
    rcases stamps with same | ⟨call, item, -, next, -, more⟩
    · exact (faithful.sound key w ((same key w).mp member)).imp_right (history_mono effect)
    · rcases (more key w).mp member with ⟨rfl, rfl⟩ | old
      · exact .inr (history_mono effect (item_committed grounded.coherent next).2)
      · exact (faithful.sound key w old).imp_right (history_mono effect)
  · intro key
    rcases stamps with same | ⟨call, item, -, next, agree, more⟩
    · exact (faithful.functional key).subset fun w member => (same key w).mp member
    · intro x hx y hy equal
      rcases (more key x).mp hx with ⟨rfl, rfl⟩ | oldX <;>
        rcases (more _ y).mp hy with ⟨here, rfl⟩ | oldY
      · rfl
      · exact (agree y oldY equal.symm).symm
      · exact agree x (here ▸ oldX) equal
      · exact faithful.functional _ x oldX y oldY equal
  · intro key r member isCommitted mark
    obtain ⟨a, held, committed, stamp, old | ⟨f, ⟨call, flushing⟩, finished, marked⟩⟩ :=
      retention.flushed key r member isCommitted mark
    · exact stamp ▸ flushed held committed old
    · -- The call has written whatever was unflushed under the sequence it marks.
      have all : f.items = f.written := by rw [FlushCall.items, finished, List.append_nil]
      obtain ⟨item, picked, same⟩ := List.mem_map.mp marked
      obtain ⟨rfl, sequence⟩ := Prod.mk.inj same
      obtain ⟨-, -, below⟩ := grounded.coherent.picked call f flushing item (all ▸ picked)
      have equal : a.commitSnapshot = item.2.commitSnapshot :=
        (congrArg Prod.fst stamp).trans sequence.symm
      rcases below a held committed equal.le with old | ⟨other, written, key, same⟩
      · exact stamp ▸ flushed held committed old
      · rw [← stamp, ← same, ← key]
        exact grown (faithful.written call f flushing other (all ▸ written))
  · intro call f' flushing item member
    rcases written_step grounded positive agrees stepped flushing member with
      ⟨f, before, old⟩ | new
    · exact grown (faithful.written call f before item old)
    · exact new
  · intro key w member
    rcases retention.fresh key w member with old | new
    · rcases faithful.complete key w old with chained | stored
      · rcases retention.kept key w chained with still | ⟨a, held, committed, mark, rfl⟩
        · exact .inl still
        · exact .inr (flushed held committed mark)
      · exact .inr (grown stored)
    · exact .inl new

theorem faithful_opened {nextSequence : Nat} (start : Start lsm nextSequence) :
    Faithful lsm nextSequence (opened lsm nextSequence) where
  coherent := TxManager.Coherent.initial nextSequence
  below := start.below
  numbered := start.numbered
  initial := fun _ _ => id
  sound := fun _ _ => .inl
  functional := start.functional
  flushed := by simp [opened, TxManager.chain, VersionChainManager.new]
  written := by simp [opened]
  complete := by simp [opened, TxManager.history]

theorem faithful_of_run {nextSequence : Nat} (start : Start lsm nextSequence)
    (run : Run (step options) FlushAgrees (opened lsm nextSequence) st) :
    Faithful lsm nextSequence st :=
  run.invariant (fun _ _ _ agrees stepped faithful =>
    faithful.step start.positive agrees stepped) (faithful_opened start)

/-! ## Reading chain and tree together -/

def known (lsm : LSMTree cmp) (st : Session cmp) (key : Key) : List Stamp :=
  st.manager.history key ++ lsm.stamps key

theorem known_ordered (start : Start lsm base) (coherent : st.manager.Coherent base) (key : Key) :
    ∀ x ∈ st.manager.history key, ∀ y ∈ lsm.stamps key, y.1 ≤ x.1 := by
  intro x inHistory y initial
  obtain ⟨version, held, rfl⟩ := mem_stamps.mp initial
  exact ((start.below.holds held).trans_le (coherent.history_lt inHistory).1).le

theorem Faithful.newestUpTo_known (faithful : Faithful lsm base st) (start : Start lsm base)
    (key : Key) (snapshot : Nat) : newestUpTo snapshot (known lsm st key) =
      (newestUpTo snapshot (Chain.committed (st.manager.chain key))).or
        (newestUpTo snapshot (st.lsm.stamps key)) := by
  have coherent := faithful.coherent
  have split : newestUpTo snapshot (st.manager.history key ++ lsm.stamps key) = _ :=
    newestUpTo_append_of_le (known_ordered start coherent key)
  rw [known]
  cases found : newestUpTo snapshot (Chain.committed (st.manager.chain key)) with
  | some w =>
      rw [split, newestUpTo_of_prefix (coherent.kept key) (coherent.ascending key) found]
      rfl
  | none =>
      have above : ∀ w ∈ Chain.committed (st.manager.chain key), ¬ w.1 ≤ snapshot := by
        simpa using newest_eq_none.mp found
      rw [Option.none_or]
      refine newest_congr ((faithful.functional key).subset fun w => List.mem_of_mem_filter) ?_
      intro w
      simp only [List.mem_filter, List.mem_append, decide_eq_true_eq]
      refine and_congr_left fun visible => ⟨?_, fun member => (faithful.sound key w member).symm⟩
      rintro (inHistory | initial)
      · exact (faithful.complete key w inHistory).resolve_left fun member => above w member visible
      · exact faithful.initial key w initial

end Lrdb.Session
