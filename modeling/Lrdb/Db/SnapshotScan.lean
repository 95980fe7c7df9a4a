import Lrdb.Concurrency.TxnIterator
import Lrdb.Db.LatestRead
import Lrdb.Db.SnapshotRead
import Lrdb.Storage.PinnedCursor

namespace Lrdb.Session
open Versions Scans LSMTree Runs

variable {cmp : Comparator} {options : LSMTreeOptions} {st st' : Session cmp}
  {lsm : LSMTree cmp} {base : Nat}

/-- `BeginReadOnlyWithLSMSnapshot` with the default options. -/
def beginReadOnly (st : Session cmp) (sequence : Nat) : Transaction :=
  { isolation := .kReadCommitted
    stage := .running
    view := st.manager.readView .kReadCommitted 0 []
    lsmReadSeq := sequence }

/-- What the iterator of a transaction gives from `SeekToFirst` on. -/
def transactionScan (st : Session cmp) (t : Transaction) : List (Key × Value) :=
  TxnIterator.scan cmp (st.manager.versions.collectVisible t.view)
    (st.lsm.newIterator (st.lsmReadSeq t))

/-- `DefaultColumnFamily::NewIterator` at a sequence, driven to its end. -/
def newIterator (st : Session cmp) (sequence : Nat) : List (Key × Value) :=
  st.transactionScan (st.beginReadOnly sequence)

/-- The iterator of the tree uses no reader that the cache has destroyed. -/
def ReadersLast (around : Surroundings) (readers : Readers) (st : Session cmp) (sequence : Nat) : Prop :=
  ((PinnedCursor.scan around st.lsm (st.lsmReadSeq (st.beginReadOnly sequence))).run readers).2.lost =
    false

instance (around : Surroundings) (readers : Readers) (st : Session cmp) (sequence : Nat) :
    Decidable (ReadersLast around readers st sequence) := by unfold ReadersLast; infer_instance

/-- The iterator over the readers of the cache. What it gives after the use of a destroyed reader is not
known. -/
def runIterator (around : Surroundings) (readers : Readers) (st : Session cmp) (sequence : Nat) :
    Option (List (Key × Value)) :=
  let t := st.beginReadOnly sequence
  let scanned := (PinnedCursor.scan around st.lsm (st.lsmReadSeq t)).run readers
  if scanned.2.lost then none
  else scanned.1.map (TxnIterator.scan cmp (st.manager.versions.collectVisible t.view))

theorem runIterator_eq (around : Surroundings) (readers : Readers) (st : Session cmp) (sequence : Nat) :
    st.runIterator around readers sequence =
      if st.ReadersLast around readers sequence then some (st.newIterator sequence) else none := by
  have scanned := PinnedCursor.scan_run around st.lsm (st.lsmReadSeq (st.beginReadOnly sequence)) readers
  unfold runIterator
  dsimp only
  rw [scanned]
  by_cases last : st.ReadersLast around readers sequence
  · rw [if_pos last, if_neg (Bool.not_eq_true _ ▸ last)]
    rfl
  · rw [if_neg last, if_pos (Bool.of_not_eq_false last)]

theorem readersLast_of_room {around : Surroundings} {registered : List Nat} (roomy' : around.Roomy registered)
    (files : ∀ level ∈ st.lsm.sstables.levelFiles, ∀ file ∈ level, file.info.fileNumber ∈ registered)
    {readers : Readers} (fresh : (roomy registered).inv readers) (sequence : Nat) :
    st.ReadersLast around readers sequence :=
  PinnedCursor.scan_readersLast roomy' files fresh

/-- What a read of the key at the sequence should return; the tree takes zero for the latest. -/
def readAt (lsm : LSMTree cmp) (st : Session cmp) (key : Key) (sequence : Nat) : Option Value :=
  if sequence = 0 then (newest (st.lsm.stamps key)).bind Prod.snd else answerAt lsm st key sequence

def holdsNow (lsm : LSMTree cmp) (st : Session cmp) (key : Key) : Option Value :=
  (newest (known lsm st key)).bind Prod.snd

/-! ## Levels in a run -/

theorem leveled_step (coherent : st.manager.Coherent base) (positive : 0 < base)
    (leveled : st.lsm.sstables.Leveled cmp) {action : SessionAction}
    (stepped : st.step options action = some st') : st'.lsm.sstables.Leveled cmp := by
  cases step_tree coherent positive stepped with
  | same tree => exact tree ▸ leveled
  | switched tree => exact tree ▸ leveled
  | flushed _ status tree =>
      by_cases success : status.isOk
      · rcases flushOldestMemTable_ok success tree with ⟨-, same⟩ | ⟨mem, rest, -, ⟨-, same⟩ |
          ⟨-, table, -, same⟩⟩
        · exact same ▸ leveled
        · exact same ▸ leveled
        · rw [same]
          intro files deep
          apply leveled files
          unfold SSTableManager.addFile at deep
          cases levels : st.lsm.sstables.levelFiles <;> rw [levels] at deep <;> exact deep
      · rw [flushOldestMemTable_failed success tree]
        exact leveled
  | written call _ item next tree =>
      rw [tree]
      unfold LSMTree.landing
      split <;> exact leveled

theorem leveled_of_run {guard : Session cmp → SessionAction → Prop} {nextSequence : Nat}
    (positive : 0 < nextSequence) (leveled : lsm.sstables.Leveled cmp)
    (run : Run (step options) guard (opened lsm nextSequence) st) :
    st.lsm.sstables.Leveled cmp :=
  (run.invariant (p := fun st => st.manager.Coherent nextSequence ∧ st.lsm.sstables.Leveled cmp)
    (fun _ _ _ _ stepped both =>
      ⟨coherent_step stepped both.1, leveled_step both.1 positive both.2 stepped⟩)
    ⟨TxManager.Coherent.initial nextSequence, leveled⟩).2

/-! ## The scan -/

theorem keys_filterMap (found : Key → Option VersionRecord) (keys : List Key) :
    (keys.filterMap fun key => (found key).map fun r => (key, r)).map Prod.fst =
      keys.filter fun key => (found key).isSome := by
  induction keys with
  | nil => rfl
  | cons key rest ih =>
      cases here : found key with
      | none => simp [here, ih]
      | some r => simp [here, ih]

theorem lookup_filterMap (found : Key → Option VersionRecord) (keys : List Key) (key : Key) :
    (keys.filterMap fun key => (found key).map fun r => (key, r)).lookup key =
      if key ∈ keys then found key else none := by
  induction keys with
  | nil => rfl
  | cons other rest ih =>
      by_cases same : key = other
      · subst same
        cases here : found key with
        | none => simp [here, ih]
        | some r => simp [here]
      · cases here : found other with
        | none => simp [here, ih, same]
        | some r => simp [here, ih, same, List.lookup_cons, beq_false_of_ne same]

theorem nodup_collectVisible (m : VersionChainManager) (view : ReadView) :
    ((m.collectVisible view).map Prod.fst).Nodup := by
  rw [VersionChainManager.collectVisible, keys_filterMap]
  exact m.nodup.filter _

theorem lookup_collectVisible (m : VersionChainManager) (view : ReadView) (key : Key) :
    (m.collectVisible view).lookup key = (m.chain key).find? fun r => r.visibleTo view := by
  rw [VersionChainManager.collectVisible, lookup_filterMap]
  split
  · rfl
  · rename_i missing
    rw [m.absent key missing]
    rfl

theorem lists_newIterator (readable : Readable lsm base st) (start : Start lsm base)
    (leveled : st.lsm.sstables.Leveled cmp) (sequence : Nat) :
    Lists cmp.Before (holdsNow lsm st) (st.newIterator sequence) := by
  have coherent := readable.coherent
  have scanned := TxnIterator.lists_scan
    (nodup_collectVisible st.manager.versions (st.beginReadOnly sequence).view)
    (LSMTree.lists_newIterator readable.searchable leveled readable.functional
      (st.lsmReadSeq (st.beginReadOnly sequence)))
  apply scanned.iff.mpr
  intro key
  have chain := find?_committed coherent key
  rw [holdsNow, known, newest_append_of_le (known_ordered start coherent key), TxnIterator.decided,
    lookup_collectVisible]
  cases found : (st.manager.versions.chain key).find? fun r =>
      r.visibleTo (st.beginReadOnly sequence).view with
  | some r =>
      have latest : newest (st.manager.history key) = some r.stamp :=
        chain.symm.trans (congrArg _ found)
      rw [latest]
      rfl
  | none =>
      have latest : newest (st.manager.history key) = none := chain.symm.trans (congrArg _ found)
      have nothing := newest_eq_none.mp latest
      rw [latest, Option.none_or]
      -- The tree has what it started with, all of it below the current sequence.
      have same : newest ((st.lsm.stamps key).filter fun w =>
          Visible (st.lsmReadSeq (st.beginReadOnly sequence)) w.1) = newest (lsm.stamps key) := by
        apply newest_congr (start.functional key)
        intro w
        rw [List.mem_filter, decide_eq_true_iff]
        constructor
        · rintro ⟨member, -⟩
          apply (readable.sound key w member).resolve_right
          simp [nothing]
        · intro member
          have held := readable.initial key w member
          refine ⟨held, .inr ?_⟩
          obtain ⟨version, inTree, rfl⟩ := mem_stamps.mp held
          exact Nat.le_sub_one_of_lt (readable.below.holds inTree)
      rw [same]

theorem getAt_readAt (readable : Readable lsm base st) (start : Start lsm base) {key : Key}
    {sequence : Nat} (clear : st.Clear key sequence) (value : Value) :
    (st.getAt key sequence value).Answers (readAt lsm st key sequence) := by
  by_cases bounded : sequence = 0
  · subst bounded
    -- No commit has sequence zero, so that the tree answers.
    have nothing : newestUpTo 0 (Chain.committed (st.manager.chain key)) = none := by
      apply newest_eq_none.mpr
      apply List.filter_eq_nil_iff.mpr
      intro w member visible
      have given := (readable.coherent.history_lt ((readable.coherent.kept key).subset member)).1
      have low := of_decide_eq_true visible
      exact absurd (start.positive.trans_le given) (Nat.not_lt.mpr low)
    have found := Chain.find?_eq_newest (readable.coherent.descending key) 0
    have read : st.getAt key 0 value = st.lsm.get key 0 value := by
      rw [getAt, Chain.getVisibleBySnapshot, Chain.report_eq, found, ← newestUpTo, nothing]
      rfl
    have all : ((st.lsm.stamps key).filter fun w => Visible 0 w.1) = st.lsm.stamps key :=
      List.filter_eq_self.mpr fun w _ => decide_eq_true (.inl rfl)
    have answers := readable.lsm_get_visible (clear nothing) value
    rw [all] at answers
    rw [read, readAt, if_pos rfl]
    exact answers
  · rw [readAt, if_neg bounded]
    exact getAt_answers readable start bounded clear value

/-- The iterator gives in ascending order exactly the pairs that reads at the sequence give. -/
def Agrees (around : Surroundings) (readers : Readers) (st : Session cmp) (sequence : Nat) : Prop :=
  ∃ out, st.runIterator around readers sequence = some out ∧
    out.Pairwise (fun a b => cmp.Before a.1 b.1) ∧
      ∀ key value old, (key, value) ∈ out ↔ (st.getAt key sequence old).Answers (some value)

/-- In every careful run, the iterator at a sequence agrees with the reads at the sequence, if and only if
its readers last and every key holds now what it held at the sequence. -/
theorem newIterator_agrees_iff {nextSequence : Nat} (start : OrderedStart lsm nextSequence)
    (leveled : lsm.sstables.Leveled cmp)
    (run : Run (step options) (Careful options) (opened lsm nextSequence) st) (sequence : Nat)
    (clear : ∀ key, st.Clear key sequence) (around : Surroundings) (readers : Readers) :
    st.Agrees around readers sequence ↔ st.ReadersLast around readers sequence ∧
      ∀ key, readAt lsm st key sequence = holdsNow lsm st key := by
  have readable := readable_of_run start run
  have scanned := lists_newIterator readable start.toStart
    (leveled_of_run start.positive leveled run) sequence
  have reads (key : Key) (value out : Value) :
      (st.getAt key sequence out).Answers (some value) ↔ readAt lsm st key sequence = some value := by
    have answers := getAt_readAt readable start.toStart (clear key) out
    exact ⟨fun here => answers.unique here, fun same => same ▸ answers⟩
  rw [← scanned.iff, Agrees, runIterator_eq]
  constructor
  · rintro ⟨out, given, ascending, exact⟩
    obtain ⟨last, same⟩ := Option.ite_none_right_eq_some.mp given
    obtain rfl := Option.some.inj same
    exact ⟨last, ascending, fun key value => (exact key value []).trans (reads key value [])⟩
  · rintro ⟨last, lists⟩
    exact ⟨_, if_pos last, lists.ascending, fun key value out =>
      (lists.exact key value).trans (reads key value out).symm⟩

theorem unshadowed_of_empty {t : LSMTree cmp} (empty : ∀ mem ∈ t.memTables, mem.entries = [])
    (key : Key) (snapshot : Nat) : t.Unshadowed key snapshot := by
  have nothing : ∀ mem ∈ t.memTables, visibleVersions snapshot (mem.versions key) = [] := by
    intro mem member
    rw [MemTable.versions, empty mem member]
    rfl
  have missing : firstHit (t.memPlaces key snapshot) = none := by
    rw [memPlaces, List.map_congr_left nothing]
    induction t.memTables with
    | nil => rfl
    | cons mem rest ih => exact ih
  intro version found
  rw [missing] at found
  cases found

def oneInEach : List SessionAction :=
  commitCall 1 [([107], some [1])] ++ flushCall 0 1 [[107]] ++
    [.switchMemTable, .flushOldestMemTable, .transaction .garbageCollect] ++
      commitCall 2 [([108], some [2])]

theorem newIterator_agrees_iff_oneInEach :
    ∃ st, execute (step {}) (opened (.new {}) 1 : Session bytewiseComparator) oneInEach = some st ∧
      (st.Agrees PinnedCursor.alone {} 2 ↔ st.ReadersLast PinnedCursor.alone {} 2 ∧
        ∀ key, readAt (.new {}) st key 2 = holdsNow (.new {}) st key) := by
  have holds : (execute (step {}) (opened (.new {}) 1 : Session bytewiseComparator) oneInEach).any
      fun st => ∀ mem ∈ st.lsm.memTables, mem.entries = [] := by decide +kernel
  have allowed : Allowed (step {}) (Careful {}) (opened (.new {}) 1 : Session bytewiseComparator)
      oneInEach := by decide +kernel
  have leveled : (.new {} : LSMTree bytewiseComparator).sstables.Leveled bytewiseComparator := by
    intro files deep
    have empty : files = [] := List.eq_of_mem_replicate (List.mem_of_mem_tail deep)
    simp [empty]
  obtain ⟨st, executed, empty⟩ := Option.any_eq_true _ _ |>.mp holds
  exact ⟨st, executed, newIterator_agrees_iff (orderedStart_new Nat.one_pos) leveled
    (execute_run _ allowed executed) 2 (fun key _ =>
      unshadowed_of_empty (of_decide_eq_true empty) key 2) PinnedCursor.alone {}⟩

theorem newIterator_disagrees_overwrite :
    ¬ ∀ st : Session bytewiseComparator, Run (step {}) free (opened (.new {}) 1) st →
      ∀ around readers sequence, st.Agrees around readers sequence := by
  intro always
  have wrong : (execute (step {}) (opened (.new {}) 1 : Session bytewiseComparator)
      (commitCall 1 [([107], some [1])] ++ commitCall 2 [([107], some [2])])).any fun st =>
        ([107], [2]) ∈ st.newIterator 1 ∧ ¬ (st.getAt [107] 1 []).Answers (some [2]) := by
    decide +kernel
  obtain ⟨st, executed, wrong⟩ := Option.any_eq_true _ _ |>.mp wrong
  obtain ⟨given, missing⟩ := of_decide_eq_true wrong
  have run := execute_run _ (allowed_free _ _ _) executed
  obtain ⟨out, ran, -, exact⟩ := always st run PinnedCursor.alone {} 1
  rw [runIterator_eq] at ran
  obtain rfl := Option.some.inj (Option.ite_none_right_eq_some.mp ran).2
  exact missing ((exact [107] [2] []).mp given)

end Lrdb.Session
