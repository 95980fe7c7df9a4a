import Lrdb.Db.Content
import Lrdb.Db.Recency

namespace Lrdb.Session
open Versions LSMTree Runs

variable {cmp : Comparator} {options : LSMTreeOptions} {st st' : Session cmp}
  {lsm : LSMTree cmp} {base : Nat}

/-- A memtable that goes to a file can be kept apart there. -/
def FlushesSafely (options : LSMTreeOptions) (st : Session cmp) : SessionAction → Prop
  | .flushOldestMemTable =>
      ∀ mem ∈ st.lsm.immutables.head?, FlushSafe cmp options.writer mem.entries
  | _ => True

instance (options : LSMTreeOptions) (st : Session cmp) :
    (action : SessionAction) → Decidable (st.FlushesSafely options action)
  | .flushOldestMemTable => inferInstanceAs (Decidable
      (∀ mem ∈ st.lsm.immutables.head?, FlushSafe cmp options.writer mem.entries))
  | .transaction _ | .log .. | .flushWrite _ | .switchMemTable => inferInstanceAs (Decidable True)

/-- The step loses no write in the tree and hides none. -/
structure Careful (options : LSMTreeOptions) (st : Session cmp) (action : SessionAction) :
    Prop where
  agrees : st.FlushAgrees action
  ascends : st.FlushAscends options action
  safe : st.FlushesSafely options action

instance (options : LSMTreeOptions) (st : Session cmp) (action : SessionAction) :
    Decidable (st.Careful options action) :=
  decidable_of_iff (_ ∧ _ ∧ _) ⟨fun ⟨a, b, c⟩ => ⟨a, b, c⟩, fun ⟨a, b, c⟩ => ⟨a, b, c⟩⟩

/-- A tree to start with in which a search finds what is newest. -/
structure OrderedStart (lsm : LSMTree cmp) (nextSequence : Nat) : Prop
    extends Start lsm nextSequence where
  searchable : lsm.sstables.Searchable cmp
  ordered : SearchOrdered lsm.sources

theorem orderedStart_new {nextSequence : Nat} (positive : 0 < nextSequence) :
    OrderedStart (.new options : LSMTree cmp) nextSequence where
  toStart := start_new positive
  searchable := SSTableManager.searchable_new
  ordered := searchOrdered_new

structure Readable (lsm : LSMTree cmp) (base : Nat) (st : Session cmp) : Prop
    extends Faithful lsm base st where
  searchable : st.lsm.sstables.Searchable cmp
  ordered : SearchOrdered st.lsm.sources

theorem searchable_step (coherent : st.manager.Coherent base) (positive : 0 < base)
    (searchable : st.lsm.sstables.Searchable cmp) {action : SessionAction}
    (safe : st.FlushesSafely options action) (stepped : st.step options action = some st') :
    st'.lsm.sstables.Searchable cmp := by
  cases step_tree coherent positive stepped with
  | same tree => exact tree ▸ searchable
  | switched tree => exact tree ▸ searchable
  | flushed taken status tree =>
      subst taken
      by_cases success : status.isOk
      · exact searchable_of_flush searchable safe success tree
      · have numbered := numbered_flushOldest searchable.toNumbered tree
        rw [flushOldestMemTable_failed success tree] at numbered ⊢
        exact ⟨numbered, searchable.laid⟩
  | written call _ item next tree =>
      rw [tree]
      unfold LSMTree.landing
      split <;> exact searchable

theorem Readable.step (readable : Readable lsm base st) (positive : 0 < base)
    {action : SessionAction} (careful : st.Careful options action)
    (stepped : st.step options action = some st') : Readable lsm base st' := by
  have recent : Recent base st := ⟨readable.coherent, readable.numbered, readable.ordered⟩
  exact
    { toFaithful := readable.toFaithful.step positive careful.agrees stepped
      searchable := searchable_step readable.coherent positive readable.searchable careful.safe stepped
      ordered := (recent.step positive careful.ascends stepped).ordered }

theorem readable_of_run {nextSequence : Nat} (start : OrderedStart lsm nextSequence)
    (run : Run (step options) (Careful options) (opened lsm nextSequence) st) :
    Readable lsm nextSequence st :=
  run.invariant (fun _ _ _ careful stepped readable =>
    readable.step start.positive careful stepped)
    { toFaithful := faithful_opened start.toStart
      searchable := start.searchable
      ordered := start.ordered }

/-! ## What a read answers -/

/-- What a read of the key at the sequence should return. -/
def answerAt (lsm : LSMTree cmp) (st : Session cmp) (key : Key) (snapshot : Nat) : Option Value :=
  (newestUpTo snapshot (known lsm st key)).bind Prod.snd

/-- When the chain has nothing to say, no file shadows what the memtables have. -/
def Clear (st : Session cmp) (key : Key) (snapshot : Nat) : Prop :=
  newestUpTo snapshot (Chain.committed (st.manager.chain key)) = none →
    st.lsm.Unshadowed key snapshot

instance (st : Session cmp) (key : Key) (snapshot : Nat) : Decidable (st.Clear key snapshot) := by
  unfold Clear; infer_instance

theorem Readable.lsm_get_visible (readable : Readable lsm base st) {key : Key} {snapshot : Nat}
    (unshadowed : st.lsm.Unshadowed key snapshot) (value : Value) :
    (st.lsm.get key snapshot value).Answers
      ((newest ((st.lsm.stamps key).filter fun w => Visible snapshot w.1)).bind Prod.snd) := by
  have answers := (get_answers_newest_iff readable.searchable (readable.ordered.orderedAt key)
    snapshot value).mpr unshadowed
  have contents : Prod.snd ∘ stampOf = payload := funext stampOf_snd
  rwa [newest_stamps, Option.bind_map, contents]

theorem Readable.lsm_get (readable : Readable lsm base st) {key : Key} {snapshot : Nat}
    (bounded : snapshot ≠ 0) (unshadowed : st.lsm.Unshadowed key snapshot) (value : Value) :
    (st.lsm.get key snapshot value).Answers
      ((newestUpTo snapshot (st.lsm.stamps key)).bind Prod.snd) := by
  have filtered : (st.lsm.stamps key).filter (fun w => w.1 ≤ snapshot) =
      (st.lsm.stamps key).filter fun w => Visible snapshot w.1 :=
    List.filter_congr fun w _ => decide_eq_decide.mpr (or_iff_right bounded).symm
  rw [newestUpTo, filtered]
  exact readable.lsm_get_visible unshadowed value

theorem Readable.answers (readable : Readable lsm base st) (start : Start lsm base) {key : Key}
    {snapshot : Nat} (bounded : snapshot ≠ 0) (clear : st.Clear key snapshot)
    {result : ReadResult}
    (hit : ∀ w ∈ newestUpTo snapshot (Chain.committed (st.manager.chain key)), result.Answers w.2)
    (miss : newestUpTo snapshot (Chain.committed (st.manager.chain key)) = none →
      ∃ value, result = st.lsm.get key snapshot value) :
    result.Answers (answerAt lsm st key snapshot) := by
  rw [answerAt, readable.newestUpTo_known start]
  cases found : newestUpTo snapshot (Chain.committed (st.manager.chain key)) with
  | some w => exact hit w found
  | none =>
      obtain ⟨value, rfl⟩ := miss found
      exact readable.lsm_get bounded (clear found) value

theorem getAt_answers (readable : Readable lsm base st) (start : Start lsm base) {key : Key}
    {snapshot : Nat} (bounded : snapshot ≠ 0) (clear : st.Clear key snapshot) (value : Value) :
    (st.getAt key snapshot value).Answers (answerAt lsm st key snapshot) := by
  have found := Chain.find?_eq_newest (readable.coherent.descending key) snapshot
  have read : st.getAt key snapshot value =
      .chainFirst ⟨.notFound "Key deleted at snapshot", value⟩ (st.lsm.get key snapshot value)
        ((newestUpTo snapshot (Chain.committed (st.manager.chain key))).map Prod.snd) := by
    rw [newestUpTo, ← found, getAt_eq]
  refine readable.answers start bounded clear (fun w here => ?_) fun none => ⟨value, ?_⟩
  · rw [read, Option.mem_def.mp here]
    obtain ⟨sequence, content⟩ := w
    cases content with
    | none => exact rfl
    | some stored => exact ⟨rfl, rfl⟩
  · rw [read, none]
    rfl

/-! ## Snapshots -/

/-- What has committed the key by the later state under a sequence that the snapshot covers had
committed it by the earlier one. -/
def Settled (st st' : Session cmp) (key : Key) (snapshot : Nat) : Prop :=
  ∀ c ∈ st'.manager.commits, writesTo key c.writes ≠ [] → c.sequence ≤ snapshot →
    c ∈ st.manager.commits

instance (st st' : Session cmp) (key : Key) (snapshot : Nat) :
    Decidable (st.Settled st' key snapshot) := by unfold Settled; infer_instance

theorem commits_suffix {guard : Session cmp → SessionAction → Prop}
    (run : Run (step options) guard st st') : st.manager.commits <:+ st'.manager.commits := by
  refine run.invariant (p := fun last => st.manager.commits <:+ last.manager.commits) ?_
    List.suffix_rfl
  intro u action v _ stepped suffix
  rcases (session_effect stepped).commits with same | ⟨txn, t, s, -, -, more⟩
  · exact same ▸ suffix
  · exact more ▸ suffix.trans (List.suffix_cons ..)

theorem answerAt_settled (coherent : st'.manager.Coherent base)
    (suffix : st.manager.commits <:+ st'.manager.commits) {key : Key} {snapshot : Nat}
    (settled : st.Settled st' key snapshot) :
    answerAt lsm st' key snapshot = answerAt lsm st key snapshot := by
  obtain ⟨later, whole⟩ := suffix
  have distinct := coherent.sequences
  rw [← whole] at distinct
  have history : st'.manager.history key = (later.flatMap fun c =>
      (writesTo key c.writes).map fun content => (c.sequence, content)) ++
        st.manager.history key := by
    rw [TxManager.history, ← whole, List.flatMap_append]
    rfl
  have nothing : newestUpTo snapshot (later.flatMap fun c =>
      (writesTo key c.writes).map fun content => (c.sequence, content)) = none := by
    refine newest_eq_none.mpr (List.filter_eq_nil_iff.mpr fun w member covered => ?_)
    obtain ⟨c, isLater, inWrites⟩ := List.mem_flatMap.mp member
    obtain ⟨content, written, rfl⟩ := List.mem_map.mp inWrites
    have inBefore := settled c (whole ▸ List.mem_append_left _ isLater)
      (List.ne_nil_of_mem written) (of_decide_eq_true covered)
    exact (List.pairwise_append.mp distinct).2.2 c isLater c inBefore rfl
  rw [answerAt, answerAt, known, known, history, List.append_assoc, newestUpTo_append, nothing,
    later_none_left]

/-- In every careful run, a read at a snapshot taken when the counter is not zero answers what the
snapshot covers, unless a commit that was under way when it was taken is marked later. -/
theorem getAt_stable {nextSequence : Nat} (start : OrderedStart lsm nextSequence)
    (before : Run (step options) (Careful options) (opened lsm nextSequence) st)
    (after : Run (step options) (Careful options) st st') (key : Key)
    (taken : st.manager.currentSequence ≠ 0)
    (settled : st.Settled st' key st.manager.currentSequence)
    (clear : st'.Clear key st.manager.currentSequence) (value : Value) :
    (st'.getAt key st.manager.currentSequence value).Answers
      (answerAt lsm st key st.manager.currentSequence) := by
  have readable := readable_of_run start (before.trans after)
  rw [← answerAt_settled readable.coherent (commits_suffix after) settled]
  exact getAt_answers readable start.toStart taken clear value

def overwriteAndFlush : List SessionAction :=
  commitCall 2 [([107], some [2])] ++ flushCall 0 2 [[107]] ++ [.transaction .garbageCollect]

theorem getAt_stable_overwriteAndFlush :
    ∃ st st', execute (step {}) (opened (.new {}) 1 : Session bytewiseComparator)
        (commitCall 1 [([107], some [1])]) = some st ∧
      execute (step {}) st overwriteAndFlush = some st' ∧
        (st'.getAt [107] st.manager.currentSequence []).Answers
          (answerAt (.new {}) st [107] st.manager.currentSequence) := by
  have holds : (execute (step {}) (opened (.new {}) 1 : Session bytewiseComparator)
      (commitCall 1 [([107], some [1])])).any (fun st =>
        Allowed (step {}) (Careful {}) st overwriteAndFlush ∧
          (execute (step {}) st overwriteAndFlush).any fun st' =>
            st.manager.currentSequence ≠ 0 ∧ st.Settled st' [107] st.manager.currentSequence ∧
              st'.Clear [107] st.manager.currentSequence) := by decide +kernel
  obtain ⟨st, executed, holds⟩ := Option.any_eq_true _ _ |>.mp holds
  obtain ⟨allowed', holds⟩ := of_decide_eq_true holds
  obtain ⟨st', executed', holds⟩ := Option.any_eq_true _ _ |>.mp holds
  obtain ⟨taken, settled, clear⟩ := of_decide_eq_true holds
  have allowed : Allowed (step {}) (Careful {}) (opened (.new {}) 1 : Session bytewiseComparator)
      (commitCall 1 [([107], some [1])]) := by decide +kernel
  exact ⟨st, st', executed, executed', getAt_stable (orderedStart_new Nat.one_pos)
    (execute_run _ allowed executed) (execute_run _ allowed' executed') [107] taken settled clear []⟩

def commitUnderWay : List SessionAction :=
  beginCall 1 .kReadCommitted ++ writeCall 1 [107] (some [1]) ++
    [.transaction (.prepareCommit 1 [[107]]), .log 1 none, .transaction (.synced 1 true)]

theorem getAt_changes_commitUnderWay :
    ¬ ∀ st first second : Session bytewiseComparator,
      Run (step {}) free (opened (.new {}) 1) st → Run (step {}) free st first →
        Run (step {}) free first second → ∀ key value answer,
          (first.getAt key st.manager.currentSequence value).Answers answer →
            (second.getAt key st.manager.currentSequence value).Answers answer := by
  intro always
  have wrong : (execute (step {}) (opened (.new {}) 1 : Session bytewiseComparator)
      commitUnderWay).any fun st =>
        (st.getAt [107] st.manager.currentSequence []).Answers none ∧
          (execute (step {}) st [.transaction (.markCommitted 1)]).any fun marked =>
            ¬ (marked.getAt [107] st.manager.currentSequence []).Answers none := by decide +kernel
  obtain ⟨st, executed, wrong⟩ := Option.any_eq_true _ _ |>.mp wrong
  obtain ⟨missing, wrong⟩ := of_decide_eq_true wrong
  obtain ⟨marked, executed', wrong⟩ := Option.any_eq_true _ _ |>.mp wrong
  have run := execute_run commitUnderWay (allowed_free _ _ _) executed
  have last := execute_run _ (allowed_free _ _ _) executed'
  exact of_decide_eq_true wrong (always st st marked run .refl last [107] [] none missing)

end Lrdb.Session
