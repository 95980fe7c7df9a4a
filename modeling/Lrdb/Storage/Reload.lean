import Lrdb.Storage.Coverage
import Lrdb.Wal.Recovery

namespace Lrdb

namespace SSTableManager
variable (cmp : Comparator)

def files (m : SSTableManager) : List (Nat × SSTable) :=
  m.levelFiles.zipIdx.flatMap fun (tables, i) => tables.map fun table => (i, table)

def listed (m : SSTableManager) (order : List Nat) : List (Nat × SSTable) :=
  order.filterMap fun number => m.files.find? fun file => file.2.info.fileNumber = number

/-- One file of `LoadExistingSSTables`; one that does not open or register is passed over. -/
def loadFile (m : SSTableManager) (file : Nat × SSTable) : SSTableManager :=
  if (file.2.readIndex cmp).isOk then (m.registerSSTable cmp file.1 file.2).toOption.getD m else m

/-- Registering the files leaves the next file number behind the greatest. -/
def loadExistingSSTables (m : SSTableManager) (order : List Nat) : SSTableManager :=
  (m.listed order).foldl (loadFile cmp) .new

def Below (m : SSTableManager) (bound : Nat) : Prop :=
  ∀ files ∈ m.levelFiles, ∀ table ∈ files, ∀ entry ∈ table.entries, entry.1.sequence < bound

instance (m : SSTableManager) (bound : Nat) : Decidable (m.Below bound) := by
  unfold Below
  infer_instance

variable {cmp} {m m' : SSTableManager} {bound : Nat}

theorem below_new (bound : Nat) : new.Below bound := by simp [new, Below]

theorem Below.mono (below : m.Below bound) {larger : Nat} (le : bound ≤ larger) :
    m.Below larger :=
  fun files level table member entry held => (below files level table member entry held).trans_le le

theorem registerSSTable_ok {i : Nat} {table : SSTable}
    (registered : m.registerSSTable cmp i table = .ok m') :
    m'.levelFiles = m.levelFiles.set i ((m.level i).orderedInsert (SmallestLE cmp) table) := by
  unfold registerSSTable at registered
  split at registered <;> [cases registered; skip]
  split at registered <;> [cases registered; skip]
  split at registered <;> [cases registered; skip]
  obtain rfl := Except.ok.inj registered
  rfl

theorem Below.register (below : m.Below bound) {i : Nat} {table : SSTable}
    (inside : ∀ entry ∈ table.entries, entry.1.sequence < bound)
    (registered : m.registerSSTable cmp i table = .ok m') : m'.Below bound := by
  intro files level file member entry held
  rw [registerSSTable_ok registered] at level
  rcases List.mem_or_eq_of_mem_set level with old | rfl
  · exact below files old file member entry held
  · rcases (List.mem_orderedInsert _).mp member with rfl | old
    · exact inside entry held
    · obtain ⟨others, level, inLevel⟩ := mem_of_level old
      exact below others level file inLevel entry held

theorem Below.loadFile (below : m.Below bound) {file : Nat × SSTable}
    (inside : ∀ entry ∈ file.2.entries, entry.1.sequence < bound) :
    (m.loadFile cmp file).Below bound := by
  unfold SSTableManager.loadFile
  split <;> [skip; exact below]
  cases registered : m.registerSSTable cmp file.1 file.2 with
  | error status => exact below
  | ok m' => exact below.register inside registered

theorem mem_of_listed {order : List Nat} {file : Nat × SSTable} (member : file ∈ m.listed order) :
    ∃ files ∈ m.levelFiles, file.2 ∈ files := by
  obtain ⟨number, -, found⟩ := List.mem_filterMap.mp member
  obtain ⟨⟨tables, i⟩, level, inside⟩ := List.mem_flatMap.mp (List.mem_of_find?_eq_some found)
  obtain ⟨table, inTables, rfl⟩ := List.mem_map.mp inside
  exact ⟨tables, List.fst_mem_of_mem_zipIdx level, inTables⟩

theorem Below.load (below : m.Below bound) (order : List Nat) :
    (m.loadExistingSSTables cmp order).Below bound := by
  have all : ∀ file ∈ m.listed order, ∀ entry ∈ file.2.entries, entry.1.sequence < bound := by
    intro file member entry held
    obtain ⟨files, level, inside⟩ := mem_of_listed member
    exact below files level file.2 inside entry held
  unfold loadExistingSSTables
  generalize m.listed order = listing at all ⊢
  suffices grown : ∀ start : SSTableManager, start.Below bound →
      (listing.foldl (SSTableManager.loadFile cmp) start).Below bound from
    grown .new (below_new bound)
  induction listing with
  | nil => exact fun _ start => start
  | cons file rest ih =>
      obtain ⟨here, later⟩ := List.forall_mem_cons.mp all
      intro start covered
      exact ih later _ (covered.loadFile here)

end SSTableManager

namespace LSMTree
variable {cmp : Comparator} (options : LSMTreeOptions)

/-- `Close`: the immutable memtables are flushed until a flush fails, then the mutable one. -/
def close (t : LSMTree cmp) : Status × SSTableManager :=
  let (status, t) := flushImmutables options t.immutables.length t
  let (last, sstables) := doFlushMemTable options t.sstables t.mutableMemTable
  (if last.isOk then status else last, sstables)

/-- `Open` on the files. The tree's own counter is for writes without a sequence, and a session makes
none. -/
def reopened (sstables : SSTableManager) : LSMTree cmp :=
  { (new options : LSMTree cmp) with sstables := sstables }

variable {options} {t : LSMTree cmp} {bound : Nat}

theorem Below.flushedOldest (below : t.Below bound) :
    (t.flushOldestMemTable options).2.Below bound := below.flushOldest Prod.mk.eta.symm

theorem sstables_flushOldest {mem : MemTable cmp} {rest : List (MemTable cmp)}
    (found : t.immutables = mem :: rest) : (t.flushOldestMemTable options).2.sstables =
      (doFlushMemTable options t.sstables mem).2 := by
  simp only [flushOldestMemTable, found]
  split <;> rfl

theorem below_doFlush {sstables : SSTableManager} {mem : MemTable cmp}
    (below : sstables.Below bound) (inside : ∀ entry ∈ mem.entries, entry.1.sequence < bound) :
    (doFlushMemTable options sstables mem).2.Below bound := by
  have tree : (⟨.new options.memtable, [mem], sstables, 1, false⟩ : LSMTree cmp).Below bound := by
    refine ⟨fun other member entry held => ?_, below⟩
    rcases List.mem_pair.mp member with rfl | rfl
    · simp at held
    · exact inside entry held
  have flushed : (flushOldestMemTable options _).2.sstables.Below bound := tree.flushedOldest.files
  rwa [sstables_flushOldest rfl] at flushed

theorem Below.flushImmutables (below : t.Below bound) (n : Nat) :
    (t.flushImmutables options n).2.Below bound := by
  induction n generalizing t with
  | zero => exact below
  | succ n ih =>
      have flushed : (t.flushOldestMemTable options).2.Below bound := below.flushedOldest
      unfold LSMTree.flushImmutables
      dsimp only
      split
      · exact ih flushed
      · exact flushed

theorem Below.close (below : t.Below bound) : (t.close options).2.Below bound := by
  have flushed : (t.flushImmutables options t.immutables.length).2.Below bound :=
    below.flushImmutables _
  exact below_doFlush flushed.files (flushed.memTables _ (List.mem_cons_self ..))

theorem below_reopened {sstables : SSTableManager} (below : sstables.Below bound) :
    (reopened options sstables : LSMTree cmp).Below bound :=
  ⟨(below_new bound).memTables, below⟩

end LSMTree
end Lrdb
