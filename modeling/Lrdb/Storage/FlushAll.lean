import Lrdb.Base.Runs
import Lrdb.Storage.IdleTree

/-!
# Flushing all memtables

The mutable memtable is switched first and then every immutable one is flushed. The switch is refused
while the list of immutable memtables is full, and a flush while its keys are out of order for the
comparator.
-/

namespace Lrdb.LSMTree
open Runs

variable {cmp : Comparator} (options : LSMTreeOptions)

/-! ## Trees over time -/

inductive Call (cmp : Comparator) where
  | write (type : ValueType) (key : Key) (value : Value) (sequence : Nat)
  | switchMemTable
  | flushOldestMemTable
  | flushAll
  | compactLevel (directory : List Char) (disk : Disk cmp) (level : Nat)
  | setWriteStop (stop : Bool)
  /-- `Close`, and `Open` on the files in the order the directory lists them. -/
  | reopen (order : List Nat)

def step (t : LSMTree cmp) : Call cmp → Option (LSMTree cmp)
  | .write type key value sequence => some (t.write options type key value sequence).2
  | .switchMemTable => some ((t.switchMemTable options).toOption.getD t)
  | .flushOldestMemTable => some (t.flushOldestMemTable options).2
  | .flushAll => some (t.flushAll options).2
  | .compactLevel directory disk level => some (t.compactLevel directory disk level).2
  | .setWriteStop stop => some { t with writeStop := stop }
  | .reopen order => some (reopened options ((t.close options).2.loadExistingSSTables cmp order))

/-- `FlushAll` returns OK, every memtable is empty, and what the memtables held is in the files. -/
def FlushesAll (t : LSMTree cmp) : Prop :=
  (t.flushAll options).1.isOk ∧ (∀ mem ∈ (t.flushAll options).2.memTables, mem.entries = []) ∧
    ∀ mem ∈ t.memTables, ∀ entry ∈ mem.entries,
      ∃ table ∈ (t.flushAll options).2.sstables.levelFiles.flatten, entry ∈ table.entries

def InByteOrder (mem : MemTable cmp) : Prop :=
  (sortedEntries mem.entries).IsChain fun a b => cmp.compare a.1.encode b.1.encode = .lt

instance (mem : MemTable cmp) : Decidable (InByteOrder mem) := by
  unfold InByteOrder; infer_instance

/-- The mutable memtable is empty or there is room for it among the immutable ones, and all of them
are in byte order. -/
structure Flushable (t : LSMTree cmp) : Prop where
  room : t.mutableMemTable.isEmpty ∨ t.immutables.length < options.memtable.maxWriteBufferNumber - 1
  ordered : ∀ mem ∈ t.memTables, InByteOrder mem

instance (t : LSMTree cmp) : Decidable (t.Flushable options) :=
  decidable_of_iff (_ ∧ _) ⟨fun ⟨a, b⟩ => ⟨a, b⟩, fun ⟨a, b⟩ => ⟨a, b⟩⟩

/-! ## Fresh file numbers -/

section Fresh
open SSTableManager

variable {options} {m m' : SSTableManager}

theorem fresh_register (fresh : Fresh m) {i : Nat} {table : SSTable}
    (registered : m.registerSSTable cmp i table = .ok m') : Fresh m' := by
  unfold registerSSTable at registered
  split at registered <;> [cases registered; skip]
  split at registered <;> [cases registered; skip]
  split at registered <;> [cases registered; skip]
  obtain rfl := Except.ok.inj registered
  have le : m.nextFileNumber ≤ if m.nextFileNumber ≤ table.info.fileNumber then
      table.info.fileNumber + 1 else m.nextFileNumber := by
    split <;> omega
  refine ⟨fresh.positive.trans_le le, fresh.levels.trans_eq (List.length_set ..).symm, ?_⟩
  intro file member
  obtain ⟨files, level, member⟩ := List.mem_flatten.mp member
  have old : ∀ files ∈ m.levelFiles, ∀ file ∈ files, file.info.fileNumber < m.nextFileNumber :=
    fun files level file member => fresh.numbers file (List.mem_flatten.mpr ⟨files, level, member⟩)
  rcases List.mem_or_eq_of_mem_set level with before | rfl
  · exact (old files before file member).trans_le le
  · rcases (List.mem_orderedInsert _).mp member with rfl | member
    · dsimp only
      split <;> omega
    · obtain ⟨others, inLevels, member⟩ := mem_of_level member
      exact (old others inLevels file member).trans_le le

theorem fresh_skip (fresh : Fresh m) :
    Fresh { m with nextFileNumber := m.nextFileNumber + 1 } :=
  ⟨Nat.succ_pos _, fresh.levels, fun file member =>
    (fresh.numbers file member).trans (Nat.lt_succ_self _)⟩

theorem fresh_flush (fresh : Fresh m) (mem : MemTable cmp) (writer : SSTableWriterOptions) :
    Fresh (m.flushMemTableToSSTable cmp writer mem 0).2 := by
  unfold flushMemTableToSSTable
  dsimp only
  split
  · exact fresh_skip fresh
  · split
    · exact fresh_skip fresh
    · rename_i registered
      exact fresh_register (fresh_skip fresh) registered

theorem fresh_doFlush (fresh : Fresh m) (mem : MemTable cmp) :
    Fresh (doFlushMemTable options m mem).2 := by
  unfold doFlushMemTable
  split
  · exact fresh
  · exact fresh_flush fresh mem options.writer

theorem fresh_flushOldest {t : LSMTree cmp} (fresh : Fresh t.sstables) :
    Fresh (t.flushOldestMemTable options).2.sstables := by
  unfold flushOldestMemTable
  split
  · exact fresh
  · rename_i mem rest found
    have flushed : Fresh (doFlushMemTable options t.sstables mem).2 := fresh_doFlush fresh mem
    dsimp only
    split <;> exact flushed

theorem fresh_flushImmutables (n : Nat) {t : LSMTree cmp} (fresh : Fresh t.sstables) :
    Fresh (t.flushImmutables options n).2.sstables := by
  induction n generalizing t with
  | zero => exact fresh
  | succ n ih =>
      have flushed : Fresh (t.flushOldestMemTable options).2.sstables := fresh_flushOldest fresh
      unfold flushImmutables
      dsimp only
      split
      · exact ih flushed
      · exact flushed

theorem switchMemTable_sstables {t t' : LSMTree cmp}
    (switched : t.switchMemTable options = .ok t') : t'.sstables = t.sstables := by
  unfold switchMemTable at switched
  split at switched
  · cases switched
  · obtain rfl := Except.ok.inj switched
    rfl

theorem write_sstables (t : LSMTree cmp) (type : ValueType) (key : Key) (value : Value)
    (sequence : Nat) : (t.write options type key value sequence).2.sstables = t.sstables := by
  have added (base : LSMTree cmp) (sequence : Nat) :
      (base.addEntry options type key value sequence).2.sstables = base.sstables := by
    unfold addEntry
    split <;> rfl
  unfold write writeLocked
  split
  · rfl
  · by_cases zero : sequence = 0
    all_goals
      simp only [zero, if_true, if_false]
      split
      · rfl
      · rename_i base found
        rw [added]
        split at found
        · have kept := switchMemTable_sstables found
          exact kept
        · obtain rfl := Except.ok.inj found
          rfl

theorem fresh_flushAll {t : LSMTree cmp} (fresh : Fresh t.sstables) :
    Fresh (t.flushAll options).2.sstables := by
  unfold flushAll
  dsimp only
  split
  · exact fresh
  · rename_i base found
    have same : base.sstables = t.sstables := by
      split at found
      · exact congrArg LSMTree.sstables (Except.ok.inj found).symm
      · exact switchMemTable_sstables found
    exact fresh_flushImmutables _ (same ▸ fresh)

theorem fresh_load (m : SSTableManager) (order : List Nat) :
    Fresh (m.loadExistingSSTables cmp order) := by
  unfold loadExistingSSTables
  suffices loaded : ∀ (files : List (Nat × SSTable)) (start : SSTableManager), Fresh start →
      Fresh (files.foldl (loadFile cmp) start) from loaded _ _ fresh_new
  intro files
  induction files with
  | nil => exact fun _ fresh => fresh
  | cons file rest ih =>
      intro start fresh
      apply ih
      unfold loadFile
      split <;> [skip; exact fresh]
      cases registered : start.registerSSTable cmp file.1 file.2 with
      | error status => exact fresh
      | ok next => exact fresh_register fresh registered

theorem compactLevel_same (directory : List Char) (disk : Disk cmp) (t : LSMTree cmp) (level : Nat) :
    (t.compactLevel directory disk level).2 = t := by
  by_cases files : t.sstables.level level = []
  · have none : (pickCompactionFiles cmp t.sstables level).1 = [] := by
      unfold pickCompactionFiles
      dsimp only
      split
      · rename_i top
        subst top
        simp [files, overlapping]
      · simp [files]
    unfold compactLevel doLevelCompaction
    rcases picked : pickCompactionFiles cmp t.sstables level with ⟨inputs, outputLevel⟩
    rw [picked] at none
    dsimp only at none ⊢
    rw [if_pos none]
  · exact (compactLevel_fails directory disk t files).2

theorem fresh_step {t t' : LSMTree cmp} {call : Call cmp} (fresh : Fresh t.sstables)
    (stepped : t.step options call = some t') : Fresh t'.sstables := by
  cases call with
  | write type key value sequence =>
      obtain rfl := Option.some.inj stepped
      rw [write_sstables]
      exact fresh
  | switchMemTable =>
      obtain rfl := Option.some.inj stepped
      cases switched : t.switchMemTable options with
      | error status => exact fresh
      | ok next =>
          have same := switchMemTable_sstables switched
          exact same ▸ fresh
  | flushOldestMemTable =>
      obtain rfl := Option.some.inj stepped
      exact fresh_flushOldest fresh
  | flushAll =>
      obtain rfl := Option.some.inj stepped
      exact fresh_flushAll fresh
  | compactLevel directory disk level =>
      obtain rfl := Option.some.inj stepped
      rw [compactLevel_same]
      exact fresh
  | setWriteStop stop =>
      obtain rfl := Option.some.inj stepped
      exact fresh
  | reopen order =>
      obtain rfl := Option.some.inj stepped
      exact fresh_load _ order

end Fresh

/-! ## Flushing -/

section Flushing
open SSTableManager

variable {options} {m : SSTableManager}

structure Absorbed (entries : List Entry) (before after : SSTableManager) : Prop where
  kept : ∀ table ∈ before.levelFiles.flatten, table ∈ after.levelFiles.flatten
  stored : ∀ entry ∈ entries, ∃ table ∈ after.levelFiles.flatten, entry ∈ table.entries

theorem absorbed_addFile (levels : 0 < m.levelFiles.length) (table : SSTable) :
    Absorbed table.entries m (m.addFile cmp table) := by
  have first : (m.level 0).orderedInsert (SmallestLE cmp) table ∈
      (m.addFile cmp table).levelFiles := List.mem_set levels _
  refine ⟨fun file member => ?_, fun entry held => ⟨table, ?_, held⟩⟩
  · obtain ⟨files, inLevels, member⟩ := List.mem_flatten.mp member
    obtain ⟨i, bound, rfl⟩ := List.mem_iff_getElem.mp inLevels
    rcases Nat.eq_zero_or_pos i with rfl | positive
    · refine List.mem_flatten.mpr ⟨_, first, (List.mem_orderedInsert _).mpr (.inr ?_)⟩
      rwa [level, List.getD_eq_getElem?_getD, List.getElem?_eq_getElem bound]
    · refine List.mem_flatten.mpr ⟨_, ?_, member⟩
      have bound' : i < (m.addFile cmp table).levelFiles.length := by simpa [addFile] using bound
      exact List.mem_iff_getElem.mpr ⟨i, bound', List.getElem_set_ne positive.ne bound'⟩
  · exact List.mem_flatten.mpr ⟨_, first, (List.mem_orderedInsert _).mpr (.inl rfl)⟩

theorem doFlush_isOk_iff (fresh : Fresh m) (mem : MemTable cmp) :
    (doFlushMemTable options m mem).1.isOk ↔ InByteOrder mem := by
  unfold doFlushMemTable
  split
  · rename_i empty
    refine iff_of_true rfl ?_
    rw [InByteOrder, MemTable.isEmpty_iff.mp empty]
    exact .nil
  · exact flush_isOk_iff fresh mem

theorem absorbed_doFlush (fresh : Fresh m) {mem : MemTable cmp}
    (success : (doFlushMemTable options m mem).1.isOk) :
    Absorbed mem.entries m (doFlushMemTable options m mem).2 := by
  unfold doFlushMemTable at success ⊢
  split
  · rename_i empty
    rw [MemTable.isEmpty_iff.mp empty]
    exact ⟨fun table member => member, by simp⟩
  · rename_i nonempty
    rw [if_neg nonempty] at success
    obtain ⟨table, written, after⟩ := flush_ok success Prod.mk.eta.symm
    have contents : ∀ entry ∈ mem.entries, entry ∈ table.entries := fun entry held =>
      (written_of_flush written).mem.mpr held
    have absorbed := @absorbed_addFile cmp m fresh.levels table
    rw [after]
    exact ⟨absorbed.kept, fun entry held => absorbed.stored entry (contents entry held)⟩

theorem Absorbed.trans {before middle after : SSTableManager} {xs ys : List Entry}
    (first : Absorbed xs before middle) (second : Absorbed ys middle after) :
    Absorbed (xs ++ ys) before after := by
  refine ⟨fun table member => second.kept table (first.kept table member), fun entry held => ?_⟩
  rcases List.mem_append.mp held with held | held
  · obtain ⟨table, member, inside⟩ := first.stored entry held
    exact ⟨table, second.kept table member, inside⟩
  · exact second.stored entry held

theorem flushOldest_spec {t : LSMTree cmp} (fresh : Fresh t.sstables) {mem : MemTable cmp}
    {rest : List (MemTable cmp)} (found : t.immutables = mem :: rest) :
    ((t.flushOldestMemTable options).1.isOk ↔ InByteOrder mem) ∧
      ((t.flushOldestMemTable options).1.isOk → ∃ sstables, Fresh sstables ∧
        (t.flushOldestMemTable options).2 = { t with immutables := rest, sstables := sstables } ∧
          Absorbed mem.entries t.sstables sstables) := by
  have isOk := @doFlush_isOk_iff cmp options t.sstables fresh mem
  have absorbed := @absorbed_doFlush cmp options t.sstables fresh mem
  have kept := @fresh_doFlush cmp options t.sstables fresh mem
  revert isOk absorbed kept
  rcases written : doFlushMemTable options t.sstables mem with ⟨status, sstables⟩
  intro isOk absorbed kept
  simp only [flushOldestMemTable, found, written]
  by_cases success : status.isOk
  · rw [if_pos success]
    exact ⟨isOk, fun _ => ⟨sstables, kept, rfl, absorbed success⟩⟩
  · rw [if_neg success]
    exact ⟨isOk, fun fine => absurd fine success⟩

theorem flushImmutables_spec {waiting : List (MemTable cmp)} {t : LSMTree cmp}
    (fresh : Fresh t.sstables) (found : t.immutables = waiting) :
    ((flushImmutables options waiting.length t).1.isOk ↔ ∀ mem ∈ waiting, InByteOrder mem) ∧
      ((flushImmutables options waiting.length t).1.isOk → ∃ sstables,
        (flushImmutables options waiting.length t).2 =
            { t with immutables := [], sstables := sstables } ∧
          Absorbed (waiting.flatMap MemTable.entries) t.sstables sstables) := by
  induction waiting generalizing t with
  | nil =>
      have same : t = { t with immutables := [] } := by rw [← found]
      exact ⟨iff_of_true rfl (by simp),
        fun _ => ⟨t.sstables, same, fun _ member => member, by simp⟩⟩
  | cons mem rest ih =>
      obtain ⟨isOk, absorbed⟩ := @flushOldest_spec cmp options t fresh mem rest found
      rw [List.length_cons, flushImmutables]
      revert isOk absorbed
      rcases flushed : t.flushOldestMemTable options with ⟨status, next⟩
      intro isOk absorbed
      dsimp only at isOk absorbed ⊢
      by_cases success : status.isOk
      · obtain ⟨sstables, fresh', rfl, first⟩ := absorbed success
        obtain ⟨later, others⟩ := ih (t := { t with immutables := rest, sstables := sstables })
          fresh' rfl
        rw [if_pos success]
        refine ⟨?_, fun fine => ?_⟩
        · rw [later, List.forall_mem_cons, and_iff_right (isOk.mp success)]
        · obtain ⟨final, after, absorbed⟩ := others fine
          exact ⟨final, after, List.flatMap_cons ▸ first.trans absorbed⟩
      · rw [if_neg success]
        refine ⟨iff_of_false success fun ordered => ?_, fun fine => absurd fine success⟩
        exact success (isOk.mpr (ordered mem (List.mem_cons_self ..)))

theorem drained_iff {t : LSMTree cmp} (fresh : Fresh t.sstables)
    (empty : t.mutableMemTable.entries = []) :
    ((flushImmutables options t.immutables.length t).1.isOk ∧
      (∀ mem ∈ (flushImmutables options t.immutables.length t).2.memTables, mem.entries = []) ∧
        ∀ mem ∈ t.immutables, ∀ entry ∈ mem.entries,
          ∃ table ∈ (flushImmutables options t.immutables.length t).2.sstables.levelFiles.flatten,
            entry ∈ table.entries) ↔
      ∀ mem ∈ t.immutables, InByteOrder mem := by
  obtain ⟨isOk, absorbed⟩ := @flushImmutables_spec cmp options t.immutables t fresh rfl
  refine ⟨fun complete => isOk.mp complete.1, fun ordered => ?_⟩
  have success := isOk.mpr ordered
  obtain ⟨sstables, after, absorbed⟩ := absorbed success
  refine ⟨success, ?_, fun mem member entry held => ?_⟩
  · rw [after]
    intro mem member
    obtain rfl : mem = t.mutableMemTable := by simpa [memTables] using member
    exact empty
  · rw [after]
    exact absorbed.stored entry (List.mem_flatMap.mpr ⟨mem, member, held⟩)

end Flushing

theorem inByteOrder_of_isEmpty {mem : MemTable cmp} (empty : mem.isEmpty) : InByteOrder mem := by
  rw [InByteOrder, MemTable.isEmpty_iff.mp empty]
  exact .nil

theorem forall_memTables {t : LSMTree cmp} {p : MemTable cmp → Prop} :
    (∀ mem ∈ t.memTables, p mem) ↔ p t.mutableMemTable ∧ ∀ mem ∈ t.immutables, p mem := by
  simp [memTables]

/-- From any tree that a run reaches, `FlushAll` is complete if and only if the mutable memtable is
empty or has room, and all memtables are in byte order. -/
theorem flushesAll_iff {options : LSMTreeOptions} {t : LSMTree cmp}
    (run : Run (step options) free (.new options) t) :
    t.FlushesAll options ↔ t.Flushable options := by
  have fresh : t.sstables.Fresh :=
    run.invariant (p := fun t => t.sstables.Fresh)
      (fun _ _ _ _ stepped fresh => fresh_step fresh stepped) SSTableManager.fresh_new
  unfold FlushesAll
  rw [forall_memTables (t := t)]
  by_cases empty : t.mutableMemTable.isEmpty
  · have none : t.mutableMemTable.entries = [] := MemTable.isEmpty_iff.mp empty
    have flushed : t.flushAll options = flushImmutables options t.immutables.length t := by
      simp only [flushAll, empty, if_true]
    rw [flushed]
    simp only [none, List.not_mem_nil, IsEmpty.forall_iff, implies_true, true_and]
    refine (drained_iff fresh none).trans ⟨fun ordered => ?_, fun flushable => ?_⟩
    · exact ⟨.inl empty, forall_memTables.mpr ⟨inByteOrder_of_isEmpty empty, ordered⟩⟩
    · exact (forall_memTables.mp flushable.ordered).2
  · by_cases room : t.immutables.length < options.memtable.maxWriteBufferNumber - 1
    · have flushed : t.flushAll options =
          flushImmutables options (t.switched options).immutables.length (t.switched options) := by
        simp only [flushAll, switchMemTable, empty, Bool.false_eq_true, if_false,
          if_neg (Nat.not_le.mpr room)]
        rfl
      have drained := @drained_iff cmp options (t.switched options) fresh rfl
      have tables {p : MemTable cmp → Prop} : (∀ mem ∈ (t.switched options).immutables, p mem) ↔
          p t.mutableMemTable.setImmutable ∧ ∀ mem ∈ t.immutables, p mem := by
        simp [switched, or_imp, forall_and, and_comm]
      rw [tables, tables] at drained
      rw [flushed]
      refine drained.trans ⟨fun ordered => ?_, fun flushable => ?_⟩
      · exact ⟨.inr room, forall_memTables.mpr ordered⟩
      · exact forall_memTables.mp flushable.ordered
    · have refused : t.flushAll options = (.tryAgain "Too many immutable MemTables", t) := by
        simp only [flushAll, switchMemTable, empty, Bool.false_eq_true, if_false,
          if_pos (Nat.not_lt.mp room)]
      rw [refused]
      refine iff_of_false (fun complete => by cases complete.1) fun flushable => ?_
      exact flushable.room.elim empty room

def fullOptions : LSMTreeOptions := { maxMemtables := 2 }

def fillBoth : List (Call bytewiseComparator) :=
  [.write .kValue [97] [1] 1, .switchMemTable, .write .kValue [98] [2] 2]

theorem flushesAll_iff_fillBoth : ∃ t : LSMTree bytewiseComparator,
    execute (step fullOptions) (.new fullOptions) fillBoth = some t ∧
      (t.FlushesAll fullOptions ↔ t.Flushable fullOptions) := by
  obtain ⟨t, executed⟩ : ∃ t, execute (step fullOptions) (.new fullOptions) fillBoth = some t :=
    Option.isSome_iff_exists.mp (by decide +kernel)
  exact ⟨t, executed, flushesAll_iff (execute_run fillBoth (allowed_free _ _ _) executed)⟩

theorem flushesAll_fails_fillBoth : ¬ ∀ (cmp : Comparator) (options : LSMTreeOptions)
    (t : LSMTree cmp), Run (step options) free (.new options) t → t.FlushesAll options := by
  intro always
  have wrong : (execute (step fullOptions) (.new fullOptions) fillBoth).any
      fun t => ¬ (t.flushAll fullOptions).1.isOk := by decide +kernel
  obtain ⟨t, executed, wrong⟩ := Option.any_eq_true _ _ |>.mp wrong
  have run := execute_run fillBoth (allowed_free (step fullOptions) _ _) executed
  exact of_decide_eq_true wrong (always bytewiseComparator fullOptions t run).1

end Lrdb.LSMTree
