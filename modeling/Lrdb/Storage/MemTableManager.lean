import Lrdb.Base.Runs
import Lrdb.Storage.LSMTree
import Lrdb.Storage.WriteHistory

/-!
# The memtable manager

The memtables of a tree, the mutable one first. The manager has a read of its own beside the one the
tree makes.
-/

namespace Lrdb
open Versions

structure MemTableManager (cmp : Comparator) where
  mutableMemTable : MemTable cmp
  immutables : List (MemTable cmp)

def LSMTree.memtableManager {cmp : Comparator} (t : LSMTree cmp) : MemTableManager cmp :=
  ⟨t.mutableMemTable, t.immutables⟩

namespace MemTableManager
variable {cmp : Comparator} (options : MemTableOptions)

def new : MemTableManager cmp := ⟨.new options, []⟩

/-- `Put` and `Delete`. -/
def write (m : MemTableManager cmp) (w : MemTable.Write) : Except Status (MemTableManager cmp) :=
  (w.apply options m.mutableMemTable).map fun mem => { m with mutableMemTable := mem }

def switchMemTable (m : MemTableManager cmp) : Except Status (MemTableManager cmp) :=
  if options.maxWriteBufferNumber - 1 ≤ m.immutables.length then
    .error (.tryAgain "Too many immutable MemTables")
  else .ok ⟨.new options, m.immutables ++ [m.mutableMemTable.setImmutable]⟩

/-- `CompleteFlushedMemTable` of the memtable that `GetMemTableForFlush` names. -/
def completeFlushedMemTable (m : MemTableManager cmp) : MemTableManager cmp :=
  { m with immutables := m.immutables.tail }

def getLoop (key : Key) (snapshot : Nat) (status : Status) (value : Value) :
    List (MemTable cmp) → MemTable.GetResult
  | [] => (false, ⟨.notFound "Key not found", value⟩)
  | mem :: older =>
      let (hit, result) := mem.get key snapshot status value
      if hit then (true, result) else getLoop key snapshot result.status result.value older

def get (m : MemTableManager cmp) (key : Key) (snapshot : Nat) (status : Status) (value : Value) :
    MemTable.GetResult :=
  let (hit, result) := m.mutableMemTable.get key snapshot status value
  if hit ∧ ¬ result.status.isMergeInProgress then (true, result)
  else getLoop key snapshot result.status result.value m.immutables.reverse

def memTables (m : MemTableManager cmp) : List (MemTable cmp) :=
  m.mutableMemTable :: m.immutables.reverse

def versions (m : MemTableManager cmp) (key : Key) : List Version :=
  m.memTables.flatMap fun mem => mem.versions key

def newestVersion (m : MemTableManager cmp) (key : Key) (snapshot : Nat) : Option Version :=
  newest (visibleVersions snapshot (m.versions key))

def found : MemTable.GetResult → Option Value
  | (true, result) => some result.value
  | (false, _) => none

def ReadsAgree (t : LSMTree cmp) (key : Key) (snapshot : Nat) (value : Value) : Prop :=
  let expected := (t.memtableManager.newestVersion key snapshot).bind LSMTree.payload
  found (t.memtableManager.get key snapshot .ok value) = expected ∧
    found (t.getFromMemTables key snapshot value) = expected

/-- The newest version is a deletion and some memtable has a value for newest version of its own. -/
def ValueUnderTombstone (m : MemTableManager cmp) (key : Key) (snapshot : Nat) : Prop :=
  (∃ v ∈ m.newestVersion key snapshot, LSMTree.payload v = none) ∧
    ∃ mem ∈ m.memTables, ∃ v ∈ newest (visibleVersions snapshot (mem.versions key)),
      LSMTree.payload v ≠ none

instance (m : MemTableManager cmp) (key : Key) (snapshot : Nat) :
    Decidable (m.ValueUnderTombstone key snapshot) := by
  unfold ValueUnderTombstone; infer_instance

/-! ## Runs -/

structure State (cmp : Comparator) where
  manager : MemTableManager cmp
  /-- The greatest sequence written. -/
  last : Nat

inductive Call where
  | write (w : MemTable.Write)
  | switchMemTable
  | completeFlushedMemTable

def State.initial : State cmp := ⟨.new options, 0⟩

def State.step (st : State cmp) : Call → Option (State cmp)
  | .write w =>
      if st.last ≤ w.sequence ∧ 0 < w.sequence ∧ w.sequence < sequenceLimit then
        (st.manager.write options w).toOption.map fun manager => ⟨manager, w.sequence⟩
      else none
  | .switchMemTable =>
      (st.manager.switchMemTable options).toOption.map fun manager => { st with manager := manager }
  | .completeFlushedMemTable =>
      some { st with manager := st.manager.completeFlushedMemTable }

structure Filled (st : State cmp) : Prop where
  ordered : st.manager.memTables.Pairwise fun newer older =>
    ∀ x ∈ newer.entries, ∀ y ∈ older.entries, y.1.sequence ≤ x.1.sequence
  bounded : ∀ mem ∈ st.manager.memTables, ∀ entry ∈ mem.entries, entry.1.sequence ≤ st.last
  plain : ∀ mem ∈ st.manager.memTables, ∀ entry ∈ mem.entries, entry.1.type ≠ .kMerge

variable {options}

theorem filled_initial : Filled (State.initial options : State cmp) where
  ordered := List.pairwise_singleton ..
  bounded := by simp [State.initial, memTables, new]
  plain := by simp [State.initial, memTables, new]

theorem Filled.write {st : State cmp} (filled : Filled st) {w : MemTable.Write}
    (newer : st.last ≤ w.sequence) (limit : w.sequence < sequenceLimit) {m : MemTableManager cmp}
    (written : st.manager.write options w = .ok m) : Filled ⟨m, w.sequence⟩ := by
  obtain ⟨mem, applied, rfl⟩ : ∃ mem, w.apply options st.manager.mutableMemTable = .ok mem ∧
      { st.manager with mutableMemTable := mem } = m := by
    unfold MemTableManager.write at written
    cases applied : w.apply options st.manager.mutableMemTable with
    | error status => simp [applied, Except.map] at written
    | ok mem => exact ⟨mem, rfl, by simpa [applied, Except.map] using written⟩
  obtain ⟨-, rfl⟩ := MemTable.apply_ok applied
  have stored : w.internalKey.sequence = w.sequence := InternalKey.make_sequence limit ..
  have type : w.internalKey.type ≠ .kMerge := by
    cases w <;> simp [MemTable.Write.internalKey, MemTable.Write.type]
  obtain ⟨first, rest⟩ := List.pairwise_cons.mp filled.ordered
  obtain ⟨firstBound, restBound⟩ := List.forall_mem_cons.mp filled.bounded
  obtain ⟨firstPlain, restPlain⟩ := List.forall_mem_cons.mp filled.plain
  refine ⟨List.pairwise_cons.mpr ⟨fun older member x inside y below => ?_, rest⟩,
    List.forall_mem_cons.mpr ⟨fun x inside => ?_, fun mem member x inside => ?_⟩,
    List.forall_mem_cons.mpr ⟨fun x inside => ?_, restPlain⟩⟩
  · rcases MemTable.mem_entries_insert.mp inside with rfl | ⟨inside, -⟩
    · exact (restBound older member y below).trans (newer.trans stored.ge)
    · exact first older member x inside y below
  · rcases MemTable.mem_entries_insert.mp inside with rfl | ⟨inside, -⟩
    · exact stored.le
    · exact (firstBound x inside).trans newer
  · exact (restBound mem member x inside).trans newer
  · rcases MemTable.mem_entries_insert.mp inside with rfl | ⟨inside, -⟩
    · exact type
    · exact firstPlain x inside

theorem Filled.switch {st : State cmp} (filled : Filled st) : Filled
    { st with manager :=
      ⟨.new options, st.manager.immutables ++ [st.manager.mutableMemTable.setImmutable]⟩ } := by
  have tables : memTables ⟨.new options, st.manager.immutables ++
      [st.manager.mutableMemTable.setImmutable]⟩ =
      .new options :: st.manager.mutableMemTable.setImmutable :: st.manager.immutables.reverse := by
    simp [memTables]
  obtain ⟨first, rest⟩ := List.pairwise_cons.mp filled.ordered
  obtain ⟨firstBound, restBound⟩ := List.forall_mem_cons.mp filled.bounded
  obtain ⟨firstPlain, restPlain⟩ := List.forall_mem_cons.mp filled.plain
  refine ⟨tables ▸ ?_, tables ▸ ?_, tables ▸ ?_⟩
  · refine List.pairwise_cons.mpr ⟨fun older member x inside => (nomatch inside), ?_⟩
    exact List.pairwise_cons.mpr ⟨first, rest⟩
  · exact List.forall_mem_cons.mpr ⟨fun x inside => (nomatch inside),
      List.forall_mem_cons.mpr ⟨firstBound, restBound⟩⟩
  · exact List.forall_mem_cons.mpr ⟨fun x inside => (nomatch inside),
      List.forall_mem_cons.mpr ⟨firstPlain, restPlain⟩⟩

theorem Filled.complete {st : State cmp} (filled : Filled st) :
    Filled { st with manager := st.manager.completeFlushedMemTable } := by
  have fewer : (st.manager.completeFlushedMemTable.memTables).Sublist st.manager.memTables := by
    refine List.Sublist.cons_cons _ ?_
    rw [List.reverse_sublist]
    exact List.tail_sublist _
  exact ⟨filled.ordered.sublist fewer, fun mem member => filled.bounded mem (fewer.mem member),
    fun mem member => filled.plain mem (fewer.mem member)⟩

theorem Filled.step {st st' : State cmp} {call : Call} (filled : Filled st)
    (stepped : st.step options call = some st') : Filled st' := by
  cases call with
  | write w =>
      simp only [State.step] at stepped
      split at stepped
      · rename_i accepted
        obtain ⟨newer, -, limit⟩ := accepted
        cases written : st.manager.write options w with
        | error status => simp [written, Except.toOption] at stepped
        | ok m =>
            obtain rfl : ⟨m, w.sequence⟩ = st' := by simpa [written, Except.toOption] using stepped
            exact filled.write newer limit written
      · cases stepped
  | switchMemTable =>
      simp only [State.step, MemTableManager.switchMemTable] at stepped
      split at stepped
      · cases stepped
      · obtain rfl := Option.some.inj stepped
        exact filled.switch
  | completeFlushedMemTable =>
      obtain rfl := Option.some.inj stepped
      exact filled.complete

/-! ## The two reads -/

def firstValue (key : Key) (snapshot : Nat) (tables : List (MemTable cmp)) : Option Value :=
  tables.findSome? fun mem =>
    (newest (visibleVersions snapshot (mem.versions key))).bind LSMTree.payload

theorem get_of_plain {mem : MemTable cmp} (plain : ∀ entry ∈ mem.entries, entry.1.type ≠ .kMerge)
    (key : Key) (snapshot : Nat) {status : Status} (fresh : status.isMergeInProgress = false)
    (value : Value) :
    found (mem.get key snapshot status value) =
        (newest (visibleVersions snapshot (mem.versions key))).bind LSMTree.payload ∧
      (mem.get key snapshot status value).2.status.isMergeInProgress = false := by
  rw [MemTable.get_eq_answer, fresh]
  cases newest' : newest (visibleVersions snapshot (mem.versions key)) with
  | none => exact ⟨rfl, rfl⟩
  | some version =>
      obtain ⟨sequence, type, stored⟩ := version
      obtain ⟨entry, member, -, same⟩ := mem_versionsOf.mp
        (mem_visibleVersions.mp (newest_mem newest')).1
      have types : entry.1.type = type := congrArg (fun version => version.2.1) same
      cases type with
      | kValue => exact ⟨rfl, rfl⟩
      | kDeletion => exact ⟨rfl, rfl⟩
      | kMerge => exact absurd types (plain entry member)

theorem found_getLoop {tables : List (MemTable cmp)}
    (plain : ∀ mem ∈ tables, ∀ entry ∈ mem.entries, entry.1.type ≠ .kMerge) (key : Key)
    (snapshot : Nat) {status : Status} (fresh : status.isMergeInProgress = false) (value : Value) :
    found (getLoop key snapshot status value tables) = firstValue key snapshot tables := by
  induction tables generalizing status value with
  | nil => rfl
  | cons mem older ih =>
      obtain ⟨here, rest⟩ := List.forall_mem_cons.mp plain
      obtain ⟨reads, kept⟩ := get_of_plain here key snapshot fresh value
      rw [getLoop, firstValue, List.findSome?_cons, ← reads]
      revert kept
      rcases mem.get key snapshot status value with ⟨_ | _, result⟩
      · exact fun kept => ih rest kept result.value
      · exact fun _ => rfl

theorem found_get {st : State cmp} (filled : Filled st) (key : Key) (snapshot : Nat)
    (value : Value) : found (st.manager.get key snapshot .ok value) =
      firstValue key snapshot st.manager.memTables := by
  obtain ⟨here, rest⟩ := List.forall_mem_cons.mp filled.plain
  obtain ⟨reads, kept⟩ := @get_of_plain cmp _ here key snapshot .ok rfl value
  rw [get, memTables, firstValue, List.findSome?_cons, ← reads]
  revert kept
  rcases st.manager.mutableMemTable.get key snapshot .ok value with ⟨_ | _, result⟩
  · intro kept
    exact found_getLoop rest key snapshot kept result.value
  · intro kept
    simp only [kept, Bool.false_eq_true, not_false_eq_true, and_self, if_true]
    rfl

theorem getFromImmutables_deleted {key : Key} {snapshot : Nat} {value : Value}
    {tables : List (MemTable cmp)}
    (deleted : (LSMTree.getFromImmutables key snapshot value tables).2.status.isDeleted) :
    (LSMTree.getFromImmutables key snapshot value tables).1 = false := by
  induction tables generalizing value with
  | nil => rfl
  | cons mem older ih =>
      unfold LSMTree.getFromImmutables at deleted ⊢
      dsimp only at deleted ⊢
      split
      · rfl
      · rename_i live
        rw [if_neg live] at deleted
        split
        · rfl
        · rename_i passes
          rw [if_neg passes] at deleted
          split
          · rename_i hit
            rw [if_pos hit] at deleted
            exact absurd deleted live
          · rename_i missed
            rw [if_neg missed] at deleted
            exact ih deleted

theorem getFromMemTables_deleted {t : LSMTree cmp} {key : Key} {snapshot : Nat} {value : Value}
    (deleted : (t.getFromMemTables key snapshot value).2.status.isDeleted) :
    (t.getFromMemTables key snapshot value).1 = false := by
  unfold LSMTree.getFromMemTables at deleted ⊢
  dsimp only at deleted ⊢
  split
  · rfl
  · rename_i live
    rw [if_neg live] at deleted
    split
    · rfl
    · rename_i passes
      rw [if_neg passes] at deleted
      split
      · rename_i hit
        rw [if_pos hit] at deleted
        cases deleted
      · rename_i missed
        rw [if_neg missed] at deleted
        exact getFromImmutables_deleted deleted

theorem found_getFromMemTables (t : LSMTree cmp) (key : Key) (snapshot : Nat) (value : Value) :
    found (t.getFromMemTables key snapshot value) =
      (firstHit (t.memPlaces key snapshot)).bind LSMTree.payload := by
  have answer := t.getFromMemTables_answer key snapshot value
  have deleted := @getFromMemTables_deleted cmp t key snapshot value
  revert answer deleted
  rcases t.getFromMemTables key snapshot value with ⟨hit, result⟩
  intro answer deleted
  cases first : firstHit (t.memPlaces key snapshot) with
  | none =>
      rw [first] at answer
      obtain ⟨rfl, -⟩ := Prod.ext_iff.mp answer
      rfl
  | some version =>
      simp only [first, LSMTree.MemAnswer] at answer
      cases held : LSMTree.payload version with
      | none =>
          simp only [held] at answer
          obtain rfl : hit = false := deleted answer
          simp [found, held]
      | some stored =>
          simp only [held] at answer
          obtain ⟨here, value', -⟩ := answer
          obtain rfl : hit = true := here
          simpa [found, held] using value'

theorem firstHit_eq_newestVersion {st : State cmp} (filled : Filled st) (key : Key)
    (snapshot : Nat) : firstHit (st.manager.memTables.map fun mem =>
      visibleVersions snapshot (mem.versions key)) = st.manager.newestVersion key snapshot := by
  rw [firstHit_eq_newest, newestVersion, versions, visibleVersions, List.filter_flatMap,
    List.flatMap_def]
  · rfl
  · refine List.pairwise_map.mpr (filled.ordered.imp fun ordered x memberX y memberY => ?_)
    obtain ⟨a, insideA, -, rfl⟩ := mem_versionsOf.mp (mem_visibleVersions.mp memberX).1
    obtain ⟨b, insideB, -, rfl⟩ := mem_versionsOf.mp (mem_visibleVersions.mp memberY).1
    exact ordered a insideA b insideB

theorem firstValue_eq_none {key : Key} {snapshot : Nat} {tables : List (MemTable cmp)} :
    firstValue key snapshot tables = none ↔
      ∀ mem ∈ tables, ∀ v ∈ newest (visibleVersions snapshot (mem.versions key)),
        LSMTree.payload v = none := by
  simp only [firstValue, List.findSome?_eq_none_iff, Option.bind_eq_none_iff, Option.mem_def]

theorem firstValue_of_firstHit {key : Key} {snapshot : Nat} {tables : List (MemTable cmp)}
    (live : ∀ v ∈ firstHit (tables.map fun mem => visibleVersions snapshot (mem.versions key)),
      LSMTree.payload v ≠ none) :
    firstValue key snapshot tables =
      (firstHit (tables.map fun mem => visibleVersions snapshot (mem.versions key))).bind
        LSMTree.payload := by
  induction tables with
  | nil => rfl
  | cons mem older ih =>
      rw [firstValue, List.findSome?_cons]
      rw [List.map_cons, firstHit] at live ⊢
      cases here : newest (visibleVersions snapshot (mem.versions key)) with
      | none =>
          rw [here] at live
          exact ih live
      | some version =>
          rw [here] at live
          obtain ⟨stored, held⟩ := Option.ne_none_iff_exists'.mp (live version rfl)
          simp [held]

/-- The two reads agree if and only if no value lies under a tombstone. -/
theorem readsAgree_iff {options : MemTableOptions} {st : State cmp}
    (run : Runs.Run (State.step options) Runs.free (.initial options) st) {t : LSMTree cmp}
    (same : t.memtableManager = st.manager) (key : Key) (snapshot : Nat) (value : Value) :
    ReadsAgree t key snapshot value ↔ ¬ st.manager.ValueUnderTombstone key snapshot := by
  have filled : Filled st :=
    run.invariant (fun _ _ _ _ stepped filled => filled.step stepped) filled_initial
  have places : firstHit (t.memPlaces key snapshot) = st.manager.newestVersion key snapshot := by
    rw [← firstHit_eq_newestVersion filled, ← same]
    rfl
  unfold ReadsAgree
  rw [same, found_get filled, found_getFromMemTables, places, and_iff_left rfl,
    ← firstHit_eq_newestVersion filled, ValueUnderTombstone, ← firstHit_eq_newestVersion filled]
  constructor
  · rintro agree ⟨⟨v, found, none⟩, mem, member, version, here, some⟩
    rw [Option.mem_def.mp found, Option.bind_some, none] at agree
    exact some (firstValue_eq_none.mp agree mem member version here)
  · intro apart
    by_cases live : ∀ v ∈ firstHit (st.manager.memTables.map fun mem =>
        visibleVersions snapshot (mem.versions key)), LSMTree.payload v ≠ none
    · exact firstValue_of_firstHit live
    · push Not at live
      obtain ⟨v, found, none⟩ := live
      rw [Option.mem_def.mp found, Option.bind_some, none, firstValue_eq_none]
      intro mem member version here
      by_contra some
      exact apart ⟨⟨v, found, none⟩, mem, member, version, here, some⟩

def deletedLater : List Call :=
  [.write (.put [107] [1] 1), .switchMemTable, .write (.delete [107] 2)]

def State.tree (st : State cmp) : LSMTree cmp :=
  ⟨st.manager.mutableMemTable, st.manager.immutables, .new, 1, false⟩

theorem readsAgree_iff_deletedLater : ∃ st : State bytewiseComparator,
    Runs.execute (State.step {}) (.initial {}) deletedLater = some st ∧
      (ReadsAgree st.tree [107] 1 [] ↔ ¬ st.manager.ValueUnderTombstone [107] 1) := by
  obtain ⟨st, executed⟩ : ∃ st, Runs.execute (State.step {})
      (.initial {} : State bytewiseComparator) deletedLater = some st :=
    Option.isSome_iff_exists.mp (by decide +kernel)
  exact ⟨st, executed, readsAgree_iff
    (Runs.execute_run deletedLater (Runs.allowed_free _ _ _) executed) rfl [107] 1 []⟩

theorem readsAgree_fails_deletedLater : ¬ ∀ st : State bytewiseComparator,
    Runs.Run (State.step {}) Runs.free (.initial {}) st → ∀ t : LSMTree bytewiseComparator,
      t.memtableManager = st.manager → ∀ key snapshot value, ReadsAgree t key snapshot value := by
  intro always
  have wrong : (Runs.execute (State.step {}) (.initial {} : State bytewiseComparator)
      deletedLater).any fun st => found (st.manager.get [107] 0 .ok []) ≠
        found (st.tree.getFromMemTables [107] 0 []) := by decide +kernel
  obtain ⟨st, executed, wrong⟩ := Option.any_eq_true _ _ |>.mp wrong
  have run := Runs.execute_run deletedLater (Runs.allowed_free (State.step {}) _ _) executed
  obtain ⟨manager, tree⟩ := always st run st.tree rfl [107] 0 []
  exact of_decide_eq_true wrong (manager.trans tree.symm)

end MemTableManager
end Lrdb
