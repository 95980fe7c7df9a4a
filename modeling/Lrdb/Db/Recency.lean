import Lrdb.Db.Session

namespace Lrdb.Session
open Versions LSMTree Runs

variable {cmp : Comparator} {options : LSMTreeOptions} {st st' : Session cmp} {base : Nat}

/-- Where a flush writes, nothing newer of the key lies deeper. -/
def FlushAscends (options : LSMTreeOptions) (st : Session cmp) : SessionAction → Prop
  | .flushWrite call => ∀ item ∈ st.nextItem call, item.2.commitSnapshot < sequenceLimit ∧
      ∀ source ∈ (st.lsm.landing options).sources.tail, ∀ version ∈ source item.1,
        version.1 ≤ item.2.commitSnapshot
  | _ => True

instance (options : LSMTreeOptions) (st : Session cmp) :
    (action : SessionAction) → Decidable (st.FlushAscends options action)
  | .flushWrite call => inferInstanceAs (Decidable (∀ item ∈ st.nextItem call,
      item.2.commitSnapshot < sequenceLimit ∧
        ∀ source ∈ (st.lsm.landing options).sources.tail, ∀ version ∈ source item.1,
          version.1 ≤ item.2.commitSnapshot))
  | .transaction _ | .log .. | .switchMemTable | .flushOldestMemTable =>
      inferInstanceAs (Decidable True)

structure Recent (base : Nat) (st : Session cmp) : Prop where
  coherent : st.manager.Coherent base
  numbered : st.lsm.sstables.Numbered
  ordered : SearchOrdered st.lsm.sources

theorem Recent.step (recent : Recent base st) (positive : 0 < base) {action : SessionAction}
    (ascends : st.FlushAscends options action) (stepped : st.step options action = some st') :
    Recent base st' := by
  refine ⟨coherent_step stepped recent.coherent,
    numbered_step recent.coherent positive recent.numbered stepped, ?_⟩
  cases step_tree recent.coherent positive stepped with
  | same tree => exact tree ▸ recent.ordered
  | switched tree => exact tree ▸ searchOrdered_switched recent.ordered
  | flushed _ status tree => exact searchOrdered_flushOldest recent.numbered recent.ordered tree
  | written call taken item next tree =>
      subst taken
      obtain ⟨bounded, newest⟩ := ascends item next
      exact tree ▸ searchOrdered_store (searchOrdered_landing recent.ordered) bounded newest

/-- In every run whose flushes write in ascending order, what an earlier place holds of a key is at
least as new as what a later one holds, and the first place that holds a visible version has the
newest. -/
theorem searchOrdered_of_run {lsm : LSMTree cmp} {nextSequence : Nat} (positive : 0 < nextSequence)
    (numbered : lsm.sstables.Numbered) (ordered : SearchOrdered lsm.sources)
    (run : Run (step options) (FlushAscends options) (opened lsm nextSequence) st) :
    SearchOrdered st.lsm.sources ∧ ∀ key snapshot,
      firstHit (st.lsm.sources.map fun source => visibleVersions snapshot (source key)) =
        newest (visibleVersions snapshot (versionsIn st.lsm.sources key)) := by
  have recent : Recent nextSequence st :=
    run.invariant (fun _ _ _ ascends stepped recent => recent.step positive ascends stepped)
      ⟨TxManager.Coherent.initial nextSequence, numbered, ordered⟩
  exact ⟨recent.ordered, fun key => firstHit_sources (recent.ordered.orderedAt key)⟩

def flushEachCommit : List SessionAction :=
  commitCall 1 [([107], some [1])] ++ flushCall 0 1 [[107]] ++
    [.switchMemTable, .flushOldestMemTable] ++
    commitCall 2 [([107], some [2])] ++ flushCall 0 1 [[107]]

theorem searchOrdered_of_run_flushEachCommit :
    ∃ st, execute (step {}) (opened (.new {}) 1 : Session bytewiseComparator) flushEachCommit =
      some st ∧ SearchOrdered st.lsm.sources ∧ ∀ key snapshot,
        firstHit (st.lsm.sources.map fun source => visibleVersions snapshot (source key)) =
          newest (visibleVersions snapshot (versionsIn st.lsm.sources key)) := by
  obtain ⟨st, executed⟩ : ∃ st, execute (step {})
      (opened (.new {}) 1 : Session bytewiseComparator) flushEachCommit = some st :=
    Option.isSome_iff_exists.mp (by decide +kernel)
  have allowed : Allowed (step {}) (FlushAscends {})
      (opened (.new {}) 1 : Session bytewiseComparator) flushEachCommit := by decide +kernel
  have numbered : (.new {} : LSMTree bytewiseComparator).sstables.Numbered :=
    (SSTableManager.searchable_new : SSTableManager.Searchable bytewiseComparator _).toNumbered
  have ordered : SearchOrdered (.new {} : LSMTree bytewiseComparator).sources :=
    searchOrdered_new
  exact ⟨st, executed,
    searchOrdered_of_run Nat.one_pos numbered ordered (execute_run _ allowed executed)⟩

def oneEntry : LSMTreeOptions := { memtableSize := 580 }

def flushTwoCommits : List SessionAction :=
  commitCall 1 [([107], some [1])] ++ commitCall 2 [([107], some [2])] ++ flushCall 0 2 [[107]]

theorem searchOrdered_fails_flushTwoCommits :
    ¬ ∀ st : Session bytewiseComparator, Run (step oneEntry) free (opened (.new oneEntry) 1) st →
      SearchOrdered st.lsm.sources := by
  intro always
  have wrong : (execute (step oneEntry) (opened (.new oneEntry) 1 : Session bytewiseComparator)
      flushTwoCommits).any fun st =>
        ¬ OrderedAt st.lsm.sources [107] := by decide +kernel
  obtain ⟨st, executed, wrong⟩ := Option.any_eq_true _ _ |>.mp wrong
  have run := execute_run flushTwoCommits (allowed_free _ _ _) executed
  exact of_decide_eq_true wrong ((always st run).orderedAt [107])

end Lrdb.Session
