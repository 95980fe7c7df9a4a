import Lrdb.Base.AtomicMaps
import Lrdb.Db.OwnData
import Lrdb.Db.RepeatableRead

namespace Lrdb.Session
open Versions LSMTree Runs TxManager AtomicMaps

variable {cmp : Comparator} {options : LSMTreeOptions} {st st' : Session cmp} {lsm : LSMTree cmp}
  {base : Nat}

def initialMap (lsm : LSMTree cmp) : Key → Option Value := fun key =>
  (newest (lsm.stamps key)).bind Prod.snd

def map (lsm : LSMTree cmp) (st : Session cmp) : Key → Option Value :=
  after (st.manager.commits.map Commit.writes) (initialMap lsm)

def mapAt (lsm : LSMTree cmp) (st : Session cmp) (snapshot : Nat) : Key → Option Value :=
  after ((st.manager.commits.filter fun c => c.sequence ≤ snapshot).map Commit.writes)
    (initialMap lsm)

/-! ## The map and the history of a key -/

def stampsOf (commits : List Commit) (key : Key) : List Stamp :=
  commits.flatMap fun c => (writesTo key c.writes).map fun content => (c.sequence, content)

theorem history_eq (m : TxManager) (key : Key) : m.history key = stampsOf m.commits key := rfl

theorem filter_stampsOf (commits : List Commit) (key : Key) (snapshot : Nat) :
    (stampsOf commits key).filter (fun w => w.1 ≤ snapshot) =
      stampsOf (commits.filter fun c => c.sequence ≤ snapshot) key := by
  induction commits with
  | nil => rfl
  | cons c rest ih =>
      rw [stampsOf, List.flatMap_cons, List.filter_append]
      by_cases covered : c.sequence ≤ snapshot
      · rw [List.filter_cons_of_pos (by simpa using covered), stampsOf, List.flatMap_cons]
        refine congrArg₂ (· ++ ·) (List.filter_eq_self.mpr fun w member => ?_) ih
        obtain ⟨content, -, rfl⟩ := List.mem_map.mp member
        simpa using covered
      · rw [List.filter_cons_of_neg (by simpa using covered)]
        refine (congrArg₂ (· ++ ·) (List.filter_eq_nil_iff.mpr fun w member => ?_) ih).trans
          (List.nil_append _)
        obtain ⟨content, -, rfl⟩ := List.mem_map.mp member
        simpa using covered

theorem after_commits (commits : List Commit) (initial : Key → Option Value) (key : Key) :
    after (commits.map Commit.writes) initial key =
      ((stampsOf commits key).head?.map Prod.snd).getD (initial key) := by
  rw [after_eq]
  congr 1
  induction commits with
  | nil => rfl
  | cons c rest ih =>
      rw [List.map_cons, List.flatten_cons, List.find?_append, stampsOf, List.flatMap_cons,
        List.head?_append, writesTo, ← List.head?_filter]
      cases c.writes.filter fun write => write.1 = key with
      | nil => simpa [stampsOf] using ih
      | cons write writes => rfl

theorem head?_eq_newest {xs : List Stamp} (ordered : xs.Pairwise fun newer older => older.1 ≤ newer.1) :
    xs.head? = newest xs := by
  cases xs with
  | nil => rfl
  | cons x rest => exact (newest_of_descending (List.pairwise_cons.mp ordered).1).symm

theorem map_eq (coherent : st.manager.Coherent base) (key : Key) :
    map lsm st key = (st.lastCommitted key).getD (initialMap lsm key) := by
  rw [map, after_commits, ← history_eq, head?_eq_newest (coherent.ascending key), lastCommitted]

theorem answerAt_eq (coherent : st.manager.Coherent base) (start : Start lsm base) {snapshot : Nat}
    (covers : base ≤ snapshot + 1) (key : Key) :
    answerAt lsm st key snapshot = mapAt lsm st snapshot key := by
  have initial : newestUpTo snapshot (lsm.stamps key) = newest (lsm.stamps key) := by
    refine newestUpTo_of_le fun w member => ?_
    obtain ⟨version, held, rfl⟩ := mem_stamps.mp member
    exact Nat.le_of_lt_succ ((start.below.holds held).trans_le covers)
  have ordered : ((st.manager.history key).filter fun w => w.1 ≤ snapshot).Pairwise
      fun newer older => older.1 ≤ newer.1 := (coherent.ascending key).filter _
  rw [mapAt, after_commits, ← filter_stampsOf, ← history_eq, head?_eq_newest ordered, answerAt, known,
    newestUpTo_append_of_le (known_ordered start coherent key), initial, initialMap, newestUpTo]
  cases newest ((st.manager.history key).filter fun w => w.1 ≤ snapshot) <;> rfl

/-! ## Commits of a run -/

theorem commits_of_run {guard : Session cmp → SessionAction → Prop} (run : Run (step options) guard st st') :
    ∃ more, st'.manager.commits = more ++ st.manager.commits := by
  induction run with
  | refl => exact ⟨[], rfl⟩
  | tail _ last ih =>
      obtain ⟨action, -, stepped⟩ := last
      obtain ⟨more, commits⟩ := ih
      rcases (session_effect stepped).commits with same | ⟨txn, t, sequence, -, -, next⟩
      · exact ⟨more, same.trans commits⟩
      · exact ⟨⟨txn, sequence, t.writes⟩ :: more, by rw [next, commits, List.cons_append]⟩

theorem map_of_commits {more : List Commit} (commits : st'.manager.commits = more ++ st.manager.commits) :
    map lsm st' = after (more.map Commit.writes) (map lsm st) := by
  rw [map, map, commits, List.map_append, after, List.foldr_append]
  rfl

/-! ## Memtables of a session -/

def MemTablesOwn (st : Session cmp) : Prop :=
  ∀ mem ∈ st.lsm.memTables, ∀ entry ∈ mem.entries, st.manager.history entry.1.userKey ≠ []

def memoryOf (t : LSMTree cmp) : LSMTree cmp := { t with sstables := .new }

theorem memTables_flushOldest {t t' : LSMTree cmp} {status : Status}
    (flushed : t.flushOldestMemTable options = (status, t')) :
    ∀ mem ∈ t'.memTables, mem ∈ t.memTables := by
  by_cases success : status.isOk
  · rcases flushOldestMemTable_ok success flushed with ⟨-, rfl⟩ | ⟨mem, rest, found, flushed⟩
    · exact fun mem => id
    have fewer : ∀ other ∈ t.mutableMemTable :: rest.reverse, other ∈ t.memTables := by
      intro other member
      rw [LSMTree.memTables, found, List.reverse_cons, ← List.cons_append]
      exact List.mem_append_left _ member
    rcases flushed with ⟨-, rfl⟩ | ⟨-, table, -, rfl⟩ <;> exact fewer
  · obtain rfl := flushOldestMemTable_failed success flushed
    exact fun mem => id

theorem memTablesOwn_step (coherent : st.manager.Coherent base) (positive : 0 < base)
    (own : st.MemTablesOwn) {action : SessionAction}
    (stepped : st.step options action = some st') : st'.MemTablesOwn := by
  have effect := session_effect stepped
  have grown {key : Key} (some : st.manager.history key ≠ []) : st'.manager.history key ≠ [] := by
    obtain ⟨w, member⟩ := List.exists_mem_of_ne_nil _ some
    exact List.ne_nil_of_mem (history_mono effect member)
  have before : (memoryOf st.lsm).Every fun entry => st'.manager.history entry.1.userKey ≠ [] :=
    ⟨fun mem member entry held => grown (own mem member entry held), by
      simp [memoryOf, SSTableManager.new]⟩
  cases step_tree coherent positive stepped with
  | same tree =>
      intro mem member
      exact before.memTables mem (tree ▸ member)
  | switched tree =>
      intro mem member
      exact before.switched.memTables mem (tree ▸ member)
  | flushed _ status tree =>
      intro mem member
      exact before.memTables mem (memTables_flushOldest tree mem member)
  | written call _ item next tree =>
      have written : st'.manager.history item.1 ≠ [] :=
        List.ne_nil_of_mem (history_mono effect (item_committed coherent next).2)
      have landed : (memoryOf st.lsm).landing options = memoryOf (st.lsm.landing options) := by
        by_cases full : st.lsm.mutableMemTable.shouldFlush options.memtable <;>
          simp [LSMTree.landing, memoryOf, LSMTree.switched, full]
      have stored : ((memoryOf st.lsm).landing options).Every _ := before.landing
      rw [landed] at stored
      intro mem member
      rw [tree] at member
      exact Every.memTables (t := (memoryOf (st.lsm.landing options)).store options _ item.1 _ _)
        (stored.store written) mem member

theorem memTablesOwn_of_run {guard : Session cmp → SessionAction → Prop} {nextSequence : Nat}
    (positive : 0 < nextSequence) (empty : ∀ mem ∈ lsm.memTables, mem.entries = [])
    (run : Run (step options) guard (opened lsm nextSequence) st) : st.MemTablesOwn := by
  refine (run.invariant (p := fun st => st.manager.Coherent nextSequence ∧ st.MemTablesOwn) ?_
    ⟨.initial nextSequence, fun mem member entry held => ?_⟩).2
  · exact fun _ _ _ _ stepped both =>
      ⟨coherent_step stepped both.1, memTablesOwn_step both.1 positive both.2 stepped⟩
  · rw [empty mem member] at held
    cases held

theorem unshadowed_of_uncommitted (own : st.MemTablesOwn) {key : Key}
    (uncommitted : st.manager.history key = []) (snapshot : Nat) :
    st.lsm.Unshadowed key snapshot := by
  intro version hit
  obtain ⟨mem, member, entry, inside, same, -⟩ := LSMTree.mem_of_firstHit hit
  exact absurd uncommitted (same ▸ own mem member entry inside)

/-! ## Reads -/

theorem get_uncommitted (faithful : Faithful lsm base st) (start : Start lsm base)
    (own : st.MemTablesOwn) {key : Key} (searchable : st.lsm.sstables.Searchable cmp)
    (ordered : OrderedAt st.lsm.sources key) (uncommitted : st.lastCommitted key = none)
    (value : Value) : (st.lsm.get key 0 value).Answers (initialMap lsm key) := by
  have none : st.manager.history key = [] := by
    rw [lastCommitted, Option.map_eq_none_iff] at uncommitted
    exact newest_eq_none.mp uncommitted
  have found := (get_answers_newest_iff searchable ordered 0 value).mpr
    (unshadowed_of_uncommitted own none 0)
  have contents : Prod.snd ∘ stampOf = payload := funext stampOf_snd
  have all : (st.lsm.stamps key).filter (fun w => Visible 0 w.1) = st.lsm.stamps key :=
    List.filter_eq_self.mpr fun w _ => decide_eq_true (.inl rfl)
  have same : newest (st.lsm.stamps key) = newest (lsm.stamps key) := by
    refine newest_congr (start.functional key) fun w => ⟨fun member => ?_, faithful.initial key w⟩
    exact (faithful.sound key w member).resolve_right (none ▸ List.not_mem_nil)
  rwa [← contents, ← Option.bind_map, ← newest_stamps, all, same] at found

/-- A latest read answers from the map; what the tree must find are the keys without commits. -/
theorem Faithful.get_answers_map (faithful : Faithful lsm base st) (start : Start lsm base)
    (own : st.MemTablesOwn) {key : Key} (finds : st.lastCommitted key = none →
      st.lsm.sstables.Searchable cmp ∧ OrderedAt st.lsm.sources key) (value : Value) :
    (st.get key value).Answers (map lsm st key) := by
  have latest := readsLatest_of_grounded faithful.toGrounded key value
  rw [map_eq faithful.coherent]
  unfold ReadsLatest at latest
  cases committed : st.lastCommitted key with
  | some content =>
      rw [committed] at latest
      exact latest
  | none =>
      rw [committed] at latest
      obtain ⟨searchable, ordered⟩ := finds committed
      exact (latest _).mpr (get_uncommitted faithful start own searchable ordered committed value)

/-- In every careful run on a tree without memtables, the map changes by the transactions committed,
one after another, and a latest read of any key answers from the map. -/
theorem refines_map {nextSequence : Nat} (start : OrderedStart lsm nextSequence)
    (empty : ∀ mem ∈ lsm.memTables, mem.entries = [])
    (before : Run (step options) (Careful options) (opened lsm nextSequence) st)
    (later : Run (step options) (Careful options) st st') :
    (∃ more, st'.manager.commits = more ++ st.manager.commits ∧
      map lsm st' = after (more.map Commit.writes) (map lsm st)) ∧
    ∀ key value, (st'.get key value).Answers (map lsm st' key) := by
  have whole := before.trans later
  obtain ⟨more, commits⟩ := commits_of_run later
  have readable := readable_of_run start whole
  refine ⟨⟨more, commits, map_of_commits commits⟩, fun key value => ?_⟩
  exact readable.toFaithful.get_answers_map start.toStart
    (memTablesOwn_of_run start.positive empty whole)
    (fun _ => ⟨readable.searchable, readable.ordered.orderedAt key⟩) value

def commitFlushOverwrite : List SessionAction :=
  commitCall 1 [([107], some [1]), ([108], some [2])] ++ flushCall 0 2 [[107], [108]] ++
    commitCall 2 [([107], none)]

theorem refines_map_commitFlushOverwrite :
    ∃ st : Session bytewiseComparator, execute (step {}) (opened (.new {}) 1) commitFlushOverwrite =
        some st ∧
      (∃ more, st.manager.commits = more ++ [] ∧
        map (.new {}) st = after (more.map Commit.writes)
          (map (.new {}) (opened (.new {}) 1 : Session bytewiseComparator))) ∧
      ∀ key value, (st.get key value).Answers (map (.new {}) st key) := by
  obtain ⟨st, executed⟩ : ∃ st, execute (step {}) (opened (.new {}) 1 : Session bytewiseComparator)
      commitFlushOverwrite = some st := Option.isSome_iff_exists.mp (by decide +kernel)
  have allowed : Allowed (step {}) (Careful {}) (opened (.new {}) 1 : Session bytewiseComparator)
      commitFlushOverwrite := by decide +kernel
  exact ⟨st, executed, refines_map (orderedStart_new Nat.one_pos) (by simp [LSMTree.new, memTables])
    .refl (execute_run _ allowed executed)⟩

/-! ## Snapshots -/

/-- In every careful run, all snapshot reads at a sequence and all repeatable-read transactions that
took it answer from one map, whatever the key: the one that exactly the transactions up to the
sequence have committed. -/
theorem snapshots_whole {nextSequence : Nat} (start : OrderedStart lsm nextSequence)
    (run : Run (step options) (Careful options) (opened lsm nextSequence) st) {snapshot : Nat}
    (positive : snapshot ≠ 0) (covers : nextSequence ≤ snapshot + 1) :
    (∀ key value, st.Clear key snapshot →
      (st.getAt key snapshot value).Answers (mapAt lsm st snapshot key)) ∧
    ∀ txn t, st.manager.txns txn = some t → t.stage = .running → t.isolation ≠ .kReadCommitted →
      t.lsmReadSeq = snapshot → ∀ key value, writesTo key t.writes = [] → st.Aligned t key →
        st.Clear key snapshot → (st.transactionGet t key value).Answers (mapAt lsm st snapshot key) := by
  have readable := readable_of_run start run
  have answers := @answerAt_eq _ st _ _ readable.coherent start.toStart _ covers
  refine ⟨fun key value clear => ?_, ?_⟩
  · exact answers key ▸ getAt_answers readable start.toStart positive clear value
  · rintro txn t found running repeatable rfl key value unwritten aligned clear
    exact answers key ▸ transactionGet_answers readable start.toStart found (by rw [running]; rfl)
      (viewOf_of_run run txn t found) repeatable unwritten aligned positive clear value

def commitTwoKeys : List SessionAction :=
  commitCall 1 [([107], some [1]), ([108], some [2])] ++ beginCall 2 .kRepeatableRead

theorem snapshots_whole_commitTwoKeys :
    ∃ st : Session bytewiseComparator, execute (step {}) (opened (.new {}) 1) commitTwoKeys =
        some st ∧
      (∀ key value, st.Clear key 1 → (st.getAt key 1 value).Answers (mapAt (.new {}) st 1 key)) ∧
      ∀ txn t, st.manager.txns txn = some t → t.stage = .running → t.isolation ≠ .kReadCommitted →
        t.lsmReadSeq = 1 → ∀ key value, writesTo key t.writes = [] → st.Aligned t key →
          st.Clear key 1 → (st.transactionGet t key value).Answers (mapAt (.new {}) st 1 key) := by
  obtain ⟨st, executed⟩ : ∃ st, execute (step {}) (opened (.new {}) 1 : Session bytewiseComparator)
      commitTwoKeys = some st := Option.isSome_iff_exists.mp (by decide +kernel)
  have allowed : Allowed (step {}) (Careful {}) (opened (.new {}) 1 : Session bytewiseComparator)
      commitTwoKeys := by decide +kernel
  exact ⟨st, executed, snapshots_whole (orderedStart_new Nat.one_pos)
    (execute_run _ allowed executed) (by decide) (by decide)⟩

end Lrdb.Session
