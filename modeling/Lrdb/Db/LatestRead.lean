import Lrdb.Db.Session

namespace Lrdb.Session
open Versions Chain Runs

variable {cmp : Comparator} {options : LSMTreeOptions} {st : Session cmp} {base : Nat}

/-- The value left by the last write to the key of the transaction that committed it with the
greatest sequence; `none` when no transaction of the session has committed the key. -/
def lastCommitted (st : Session cmp) (key : Key) : Option (Option Value) :=
  (newest (st.manager.history key)).map Prod.snd

/-- What a latest read of the key should return. -/
def ReadsLatest (st : Session cmp) (key : Key) (value : Value) : Prop :=
  match st.lastCommitted key with
  | some content => (st.get key value).Answers content
  | none => ∀ answer, (st.get key value).Answers answer ↔ (st.lsm.get key 0 value).Answers answer

theorem visible_committed (coherent : st.manager.Coherent base) {key : Key} {r : VersionRecord}
    (member : r ∈ st.manager.chain key) :
    r.visibleTo (st.manager.readView .kReadCommitted 0 []) = r.isCommitted := by
  cases state : r.state with
  | kActive =>
      have active : r.isActive := by simp [VersionRecord.isActive, state]
      have notMine := coherent.active_positive member active
      simp [VersionRecord.visibleTo, ReadView.isVisible, TxManager.readView, notMine,
        VersionRecord.isCommitted, VersionRecord.isAborted, state]
  | kCommitted =>
      have isCommitted : r.isCommitted := by simp [VersionRecord.isCommitted, state]
      have notMine := coherent.creator_positive member isCommitted
      simp [VersionRecord.visibleTo, ReadView.isVisible, TxManager.readView, notMine,
        VersionRecord.isCommitted, VersionRecord.isAborted, state]
  | kAborted =>
      simp [VersionRecord.visibleTo, ReadView.isVisible, TxManager.readView,
        VersionRecord.isCommitted, VersionRecord.isAborted, state]

theorem find?_committed (coherent : st.manager.Coherent base) (key : Key) :
    ((st.manager.chain key).find? fun r =>
        r.visibleTo (st.manager.readView .kReadCommitted 0 [])).map VersionRecord.stamp =
      newest (st.manager.history key) := by
  rw [coherent.newest_history, committed, List.head?_map, ← List.head?_filter]
  exact congrArg _ (congrArg _ (List.filter_congr fun r member => visible_committed coherent member))

theorem managerGet_eq (coherent : st.manager.Coherent base) (key : Key) (value : Value) :
    st.managerGet key value =
      .chainFirst ⟨.deleted "Key deleted at visible version", value⟩
        (st.lsm.get key st.manager.currentSequence value) (st.lastCommitted key) := by
  unfold managerGet getVisible lastCommitted
  simp only [report_eq, find?_committed coherent key]
  cases (newest (st.manager.history key)).map Prod.snd with
  | none => rfl
  | some content => cases content <;> rfl

theorem readsLatest_of_grounded (grounded : Grounded base st) (key : Key) (value : Value) :
    st.ReadsLatest key value := by
  have read := managerGet_eq grounded.coherent key value
  unfold ReadsLatest get
  cases last : st.lastCommitted key with
  | some content =>
      rw [last] at read
      rw [read]
      cases content with
      | none => exact rfl
      | some stored => exact ⟨rfl, rfl⟩
  | none =>
      rw [last] at read
      simp only [read, ReadResult.chainFirst]
      have covered : st.lsm.Below (st.manager.currentSequence + 1) :=
        grounded.below.mono (Nat.le_add_of_sub_le le_rfl)
      obtain ⟨found, now⟩ : ∃ found,
          (st.lsm.get key st.manager.currentSequence value).Answers found :=
        ⟨_, st.lsm.get_answers_choice key st.manager.currentSequence value⟩
      have latest (other : Value) : (st.lsm.get key 0 other).Answers found :=
        (LSMTree.get_answers_covered covered).mp now
      intro answer
      cases found with
      | some v =>
          obtain ⟨ok, same⟩ := now.isOk
          rw [if_pos ok, same]
          have here : ReadResult.Answers ⟨.ok, v⟩ (some v) := ⟨rfl, rfl⟩
          exact ⟨fun answers => here.unique answers ▸ latest value,
            fun answers => (latest value).unique answers ▸ here⟩
      | none =>
          obtain ⟨notOk, notDeleted, notFound⟩ := now.isNotFound
          rw [if_neg notOk, if_neg notDeleted, if_pos notFound]
          exact ⟨fun answers => (latest _).unique answers ▸ latest value,
            fun answers => (latest value).unique answers ▸ latest _⟩

/-- In every run of a session that opens with its counter above the sequences of the tree, whatever
the order of the steps, a latest read returns the last committed write or what the tree has. -/
theorem readsLatest_of_run {lsm : LSMTree cmp} {nextSequence : Nat} (positive : 0 < nextSequence)
    (below : lsm.Below nextSequence)
    (run : Run (step options) free (opened lsm nextSequence) st) (key : Key) (value : Value) :
    st.ReadsLatest key value :=
  readsLatest_of_grounded (grounded_of_run positive below run) key value

theorem readsLatest_of_run_commit :
    ∃ st, execute (step {}) (opened (.new {}) 1 : Session bytewiseComparator)
        (commitCall 1 [([107], some [1])]) = some st ∧ st.ReadsLatest [107] [] := by
  obtain ⟨st, executed⟩ : ∃ st, execute (step {})
      (opened (.new {}) 1 : Session bytewiseComparator) (commitCall 1 [([107], some [1])]) =
        some st := Option.isSome_iff_exists.mp (by decide +kernel)
  have run := execute_run _ (allowed_free _ _ _) executed
  exact ⟨st, executed, readsLatest_of_run Nat.one_pos (LSMTree.below_new 1) run [107] []⟩

def twoFiles : LSMTree bytewiseComparator :=
  let first := (((.new {} : LSMTree bytewiseComparator).put {} [107] [1] 1).2.flushAll {}).2
  ((first.put {} [107] [2] 2).2.flushAll {}).2

theorem readsLatest_fails_below_tree :
    ¬ ∀ (lsm : LSMTree bytewiseComparator) (nextSequence : Nat) (st : Session bytewiseComparator),
      0 < nextSequence → Run (step {}) free (opened lsm nextSequence) st →
        ∀ key value, st.ReadsLatest key value := by
  intro always
  have reads := always twoFiles 2 (opened twoFiles 2) (by decide) .refl [107] []
  have older : ((opened twoFiles 2).get [107] []).Answers (some [1]) := by decide +kernel
  have newer : (twoFiles.get [107] 0 []).Answers (some [2]) := by decide +kernel
  have same := ((reads (some [1])).mp older).unique newer
  exact absurd same (by decide)

end Lrdb.Session
