import Lrdb.Storage.FlushAll
import Lrdb.Storage.Stamps

namespace Lrdb
open Versions

namespace SSTableManager
variable {cmp : Comparator} {m m' : SSTableManager}

def Stores (m : SSTableManager) (key : Key) (w : Stamp) : Prop :=
  ∃ table ∈ m.level 0, ∃ entry ∈ table.entries, entry.1.userKey = key ∧ stampOf entry.version = w

structure Flat (m : SSTableManager) : Prop where
  levels : m.levelFiles = m.level 0 :: List.replicate 6 []
  distinct : (numbers (m.level 0)).Nodup
  positive : 0 ∉ numbers (m.level 0)

def Opens (cmp : Comparator) (m : SSTableManager) : Prop :=
  ∀ table ∈ m.level 0, (table.readIndex cmp).isOk

instance (m : SSTableManager) : Decidable (m.Opens cmp) := by
  unfold Opens; infer_instance

theorem flat_new : new.Flat := ⟨rfl, List.nodup_nil, List.not_mem_nil⟩

theorem Flat.mem_flatten (flat : m.Flat) {table : SSTable} :
    table ∈ m.levelFiles.flatten ↔ table ∈ m.level 0 := by
  rw [flat.levels]
  simp

theorem Flat.holds_iff (flat : m.Flat) {key : Key} {version : Version} :
    Holds (m.sources cmp) key version ↔
      ∃ table ∈ m.level 0, ∃ entry ∈ table.entries, entry.1.userKey = key ∧ entry.version = version := by
  have deeper : Holds (m.levelFiles.zipIdx.tail.map fun level => deepSource cmp level.1 level.2)
      key version ↔ False := by
    rw [flat.levels, iff_false]
    rintro ⟨source, member, held⟩
    obtain ⟨⟨files, i⟩, inTail, rfl⟩ := List.mem_map.mp member
    have empty : files = [] := by
      simp only [List.zipIdx_cons, List.tail_cons] at inTail
      exact List.eq_of_mem_replicate (List.fst_mem_of_mem_zipIdx inTail)
    subst empty
    obtain ⟨file, candidate, -⟩ := List.mem_flatMap.mp held
    exact absurd (mem_of_levelCandidate candidate) List.not_mem_nil
  rw [sources, holds_append, deeper, or_false]
  simp only [Holds, List.mem_map, byNumber, List.mem_insertionSort, exists_exists_and_eq_and,
    SSTable.versions, List.mem_reverse, mem_versionsOf]

theorem Flat.register (flat : m.Flat) {table : SSTable}
    (registered : m.registerSSTable cmp 0 table = .ok m') :
    m'.Flat ∧ (m'.level 0).Perm (table :: m.level 0) := by
  have levels := registerSSTable_ok registered
  have first : m'.level 0 = (m.level 0).orderedInsert (SmallestLE cmp) table := by
    rw [level, levels, flat.levels]
    rfl
  have perm : (m'.level 0).Perm (table :: m.level 0) :=
    first ▸ List.perm_orderedInsert (SmallestLE cmp) table (m.level 0)
  unfold registerSSTable at registered
  split at registered <;> [cases registered; rename_i nonzero]
  split at registered <;> [cases registered; skip]
  split at registered <;> [cases registered; rename_i fresh]
  refine ⟨⟨?_, ?_, ?_⟩, perm⟩
  · rw [levels, ← first, flat.levels]
    rfl
  · refine (perm.map _).nodup_iff.mpr (List.nodup_cons.mpr ⟨fun member => fresh ?_, flat.distinct⟩)
    obtain ⟨file, old, same⟩ := List.mem_map.mp member
    exact ⟨file, flat.mem_flatten.mpr old, same⟩
  · intro member
    rcases List.mem_cons.mp ((perm.map _).mem_iff.mp member) with zero | old
    · exact nonzero zero.symm
    · exact flat.positive old

theorem Flat.skip (flat : m.Flat) (next : Nat) : Flat { m with nextFileNumber := next } :=
  ⟨flat.levels, flat.distinct, flat.positive⟩

theorem Flat.flush (flat : m.Flat) (writer : SSTableWriterOptions) (mem : MemTable cmp) :
    (m.flushMemTableToSSTable cmp writer mem 0).2.Flat := by
  unfold flushMemTableToSSTable
  dsimp only
  split
  · exact flat.skip _
  · split
    · exact flat.skip _
    · rename_i registered
      exact ((flat.skip _).register registered).1

theorem Stores.of_perm {table : SSTable} (perm : (m'.level 0).Perm (table :: m.level 0)) {key : Key}
    {w : Stamp} : m'.Stores key w ↔ (∃ entry ∈ table.entries, entry.1.userKey = key ∧
      stampOf entry.version = w) ∨ m.Stores key w := by
  simp only [Stores, perm.mem_iff, List.mem_cons, or_and_right, exists_or, exists_eq_left]

/-! ## Reload -/

theorem Flat.files (flat : m.Flat) : m.files = (m.level 0).map fun table => (0, table) := by
  rw [SSTableManager.files, flat.levels]
  simp

theorem listed_eq_of_find? {number : Nat} {file : Nat × SSTable} {files : List (Nat × SSTable)}
    (found : files.find? (fun file => file.2.info.fileNumber = number) = some file) :
    file ∈ files ∧ file.2.info.fileNumber = number :=
  ⟨List.mem_of_find?_eq_some found, by simpa using List.find?_some found⟩

theorem Flat.find_file (flat : m.Flat) {table : SSTable} (inLevel : table ∈ m.level 0) :
    m.files.find? (fun file => file.2.info.fileNumber = table.info.fileNumber) = some (0, table) := by
  rw [flat.files]
  cases found : ((m.level 0).map fun table => (0, table)).find? fun file =>
      file.2.info.fileNumber = table.info.fileNumber with
  | none =>
      have missing := List.find?_eq_none.mp found (0, table) (List.mem_map_of_mem inLevel)
      exact absurd (decide_eq_true rfl) missing
  | some other =>
      obtain ⟨inside, same⟩ := listed_eq_of_find? found
      obtain ⟨file, inLevel', rfl⟩ := List.mem_map.mp inside
      rw [List.inj_on_of_nodup_map flat.distinct inLevel' inLevel same]

theorem mem_listed_of_flat (flat : m.Flat) {order : List Nat} {file : Nat × SSTable} :
    file ∈ m.listed order ↔
      file.1 = 0 ∧ file.2 ∈ m.level 0 ∧ file.2.info.fileNumber ∈ order := by
  simp only [listed, List.mem_filterMap]
  constructor
  · rintro ⟨number, member, found⟩
    obtain ⟨inside, same⟩ := listed_eq_of_find? found
    rw [flat.files] at inside
    obtain ⟨table, inLevel, rfl⟩ := List.mem_map.mp inside
    exact ⟨rfl, inLevel, same ▸ member⟩
  · obtain ⟨i, table⟩ := file
    rintro ⟨zero, inLevel, member⟩
    obtain rfl : i = 0 := zero
    exact ⟨table.info.fileNumber, member, flat.find_file inLevel⟩

theorem nodup_listed (m : SSTableManager) {order : List Nat} (once : order.Nodup) :
    ((m.listed order).map fun file => file.2.info.fileNumber).Nodup := by
  have sublist : ((m.listed order).map fun file => file.2.info.fileNumber).Sublist order := by
    clear once
    induction order with
    | nil => exact .slnil
    | cons number rest ih =>
        rw [listed, List.filterMap_cons]
        split
        · exact ih.cons _
        · rename_i file found
          exact (listed_eq_of_find? found).2 ▸ ih.cons_cons _
  exact once.sublist sublist

theorem foldl_loadFile {files : List (Nat × SSTable)} (flat : m.Flat)
    (level : ∀ file ∈ files, file.1 = 0 ∧ file.2.info.fileNumber ≠ 0 ∧ (file.2.readIndex cmp).isOk)
    (once : (files.map fun file => file.2.info.fileNumber).Nodup)
    (new : ∀ file ∈ files, file.2.info.fileNumber ∉ numbers (m.level 0)) :
    (files.foldl (loadFile cmp) m).Flat ∧
      ∀ table, table ∈ (files.foldl (loadFile cmp) m).level 0 ↔
        table ∈ m.level 0 ∨ ∃ file ∈ files, file.2 = table := by
  induction files generalizing m with
  | nil => exact ⟨flat, by simp⟩
  | cons file rest ih =>
      obtain ⟨i, table⟩ := file
      obtain ⟨⟨zero, nonzero, opens⟩, levelRest⟩ := List.forall_mem_cons.mp level
      obtain ⟨different, onceRest⟩ := List.nodup_cons.mp once
      obtain ⟨newHere, newRest⟩ := List.forall_mem_cons.mp new
      obtain rfl : i = 0 := zero
      obtain ⟨next, registered⟩ : ∃ next, m.registerSSTable cmp 0 table = .ok next := by
        unfold registerSSTable
        rw [if_neg nonzero, if_neg (by rw [flat.levels]; simp), if_neg]
        · exact ⟨_, rfl⟩
        · rintro ⟨file, member, same⟩
          exact newHere (List.mem_map.mpr ⟨file, flat.mem_flatten.mp member, same⟩)
      have loaded : m.loadFile cmp (0, table) = next := by
        rw [loadFile, if_pos opens, registered]
        rfl
      obtain ⟨flat', perm⟩ := flat.register registered
      rw [List.foldl_cons, loaded]
      obtain ⟨final, members⟩ := ih flat' levelRest onceRest fun file member known => by
        rcases List.mem_cons.mp ((perm.map _).mem_iff.mp known) with here | old
        · exact different (List.mem_map.mpr ⟨file, member, here⟩)
        · exact newRest file member old
      refine ⟨final, fun other => ?_⟩
      simp only [members other, perm.mem_iff, List.mem_cons, exists_eq_or_imp]
      grind

theorem Flat.load (flat : m.Flat) (opens : m.Opens cmp) {order : List Nat}
    (lists : order.Perm (m.files.map fun file => file.2.info.fileNumber)) :
    (m.loadExistingSSTables cmp order).Flat ∧
      ∀ table, table ∈ (m.loadExistingSSTables cmp order).level 0 ↔ table ∈ m.level 0 := by
  have numbered : order.Perm (numbers (m.level 0)) := by
    rw [flat.files, List.map_map] at lists
    exact lists
  obtain ⟨loaded, members⟩ := @foldl_loadFile cmp .new (m.listed order) flat_new
    (fun file member => by
      obtain ⟨zero, inLevel, -⟩ := (mem_listed_of_flat flat).mp member
      exact ⟨zero, fun none => flat.positive (List.mem_map.mpr ⟨file.2, inLevel, none⟩),
        opens file.2 inLevel⟩)
    (nodup_listed m (numbered.nodup_iff.mpr flat.distinct))
    (fun file _ => List.not_mem_nil)
  refine ⟨loaded, fun table => (members table).trans ?_⟩
  simp only [mem_listed_of_flat flat]
  constructor
  · rintro (none | ⟨file, ⟨-, inLevel, -⟩, rfl⟩)
    · exact absurd none List.not_mem_nil
    · exact inLevel
  · intro inLevel
    exact .inr ⟨(0, table),
      ⟨rfl, inLevel, numbered.mem_iff.mpr (List.mem_map_of_mem inLevel)⟩, rfl⟩

end SSTableManager

/-! ## Flushes -/

namespace LSMTree
open SSTableManager

variable {cmp : Comparator} {options : LSMTreeOptions} {m : SSTableManager} {t : LSMTree cmp}
  {key : Key} {w : Stamp}

theorem flat_doFlush (flat : m.Flat) (mem : MemTable cmp) : (doFlushMemTable options m mem).2.Flat := by
  unfold doFlushMemTable
  split
  · exact flat
  · exact flat.flush options.writer mem

theorem stores_doFlush (flat : m.Flat) {mem : MemTable cmp}
    (success : (doFlushMemTable options m mem).1.isOk) :
    (doFlushMemTable options m mem).2.Stores key w ↔
      (∃ version ∈ mem.versions key, stampOf version = w) ∨ m.Stores key w := by
  unfold doFlushMemTable at success ⊢
  split
  · rename_i empty
    simp [MemTable.versions, MemTable.isEmpty_iff.mp empty, versionsOf]
  · rename_i nonempty
    rw [if_neg nonempty] at success
    obtain ⟨table, written, after⟩ := flush_ok success Prod.mk.eta.symm
    have positive : 0 < m.levelFiles.length := by rw [flat.levels]; simp
    rw [after, Stores.of_perm ((level_zero_addFile positive table) ▸
      List.perm_orderedInsert (SmallestLE cmp) table (m.level 0))]
    refine or_congr_left ?_
    simp only [(written_of_flush written).mem, MemTable.versions, mem_versionsOf]
    grind

theorem level_doFlush_failed {mem : MemTable cmp}
    (failed : ¬ (doFlushMemTable options m mem).1.isOk) :
    (doFlushMemTable options m mem).2.level 0 = m.level 0 := by
  have flushed := @flushOldestMemTable_failed cmp options
    ⟨.new options.memtable, [mem], m, 1, false⟩ _ _ failed (by simp [flushOldestMemTable, failed]; rfl)
  exact congrArg (fun t : LSMTree cmp => t.sstables.level 0) flushed

theorem stores_of_doFlush (flat : m.Flat) {mem : MemTable cmp}
    (stored : (doFlushMemTable options m mem).2.Stores key w) :
    (∃ version ∈ mem.versions key, stampOf version = w) ∨ m.Stores key w := by
  by_cases success : (doFlushMemTable options m mem).1.isOk
  · exact (stores_doFlush flat success).mp stored
  · rw [Stores, level_doFlush_failed success] at stored
    exact .inr stored

theorem stores_doFlush_of_stores (flat : m.Flat) (mem : MemTable cmp) (stored : m.Stores key w) :
    (doFlushMemTable options m mem).2.Stores key w := by
  by_cases success : (doFlushMemTable options m mem).1.isOk
  · exact (stores_doFlush flat success).mpr (.inr stored)
  · rw [Stores, level_doFlush_failed success]
    exact stored

theorem mem_stamps_of_flat (flat : t.sstables.Flat) : w ∈ t.stamps key ↔
    (∃ mem ∈ t.memTables, ∃ version ∈ mem.versions key, stampOf version = w) ∨
      t.sstables.Stores key w := by
  simp only [mem_stamps, sources, holds_append, flat.holds_iff, or_and_right, exists_or]
  refine or_congr ?_ ?_
  · simp only [Holds, List.mem_map, exists_exists_and_eq_and]
    grind
  · unfold Stores
    grind

theorem stores_reopened (flat : m.Flat) :
    w ∈ (reopened options m : LSMTree cmp).stamps key ↔ m.Stores key w := by
  rw [@mem_stamps_of_flat cmp (reopened options m) key w flat]
  simp [reopened, new, memTables, MemTable.versions, versionsOf]

theorem flushOldest_files (t : LSMTree cmp) : (t.flushOldestMemTable options).2.sstables = t.sstables ∨
    ∃ mem : MemTable cmp, (t.flushOldestMemTable options).2.sstables = (doFlushMemTable options t.sstables mem).2 := by
  cases waiting : t.immutables with
  | nil => exact .inl (by simp [flushOldestMemTable, waiting])
  | cons mem rest => exact .inr ⟨mem, sstables_flushOldest waiting⟩

theorem flat_flushOldest (flat : t.sstables.Flat) :
    (t.flushOldestMemTable options).2.sstables.Flat := by
  rcases @flushOldest_files cmp options t with same | ⟨mem, flushed⟩
  · exact same ▸ flat
  · exact flushed ▸ flat_doFlush flat mem

theorem stores_flushOldest (flat : t.sstables.Flat) (stored : t.sstables.Stores key w) :
    (t.flushOldestMemTable options).2.sstables.Stores key w := by
  rcases @flushOldest_files cmp options t with same | ⟨mem, flushed⟩
  · exact same ▸ stored
  · exact flushed ▸ stores_doFlush_of_stores flat mem stored

/-- The loop of `Close` over the immutable memtables keeps what the tree has. -/
theorem flushImmutables_keeps (flat : t.sstables.Flat) (numbered : t.sstables.Numbered) (n : Nat) :
    (t.flushImmutables options n).2.sstables.Flat ∧
      (∀ key w, t.sstables.Stores key w → (t.flushImmutables options n).2.sstables.Stores key w) ∧
        ∀ key w, w ∈ (t.flushImmutables options n).2.stamps key ↔ w ∈ t.stamps key := by
  induction n generalizing t with
  | zero => exact ⟨flat, fun _ _ stored => stored, fun _ _ => .rfl⟩
  | succ n ih =>
      have flat' := @flat_flushOldest cmp options t flat
      have stores' {key : Key} {w : Stamp} (stored : t.sstables.Stores key w) :=
        @stores_flushOldest cmp options t key w flat stored
      have numbered' := numbered_flushOldest numbered
        (show t.flushOldestMemTable options = (_, _) from Prod.mk.eta.symm)
      have stamps' (key : Key) (w : Stamp) :
          w ∈ (t.flushOldestMemTable options).2.stamps key ↔ w ∈ t.stamps key :=
        mem_stamps_congr fun version => holds_flushOldest numbered Prod.mk.eta.symm
      rw [flushImmutables]
      dsimp only
      split
      · obtain ⟨flatAll, stores, stamps⟩ := ih flat' numbered'
        exact ⟨flatAll, fun key w stored => stores key w (stores' stored),
          fun key w => (stamps key w).trans (stamps' key w)⟩
      · exact ⟨flat', fun key w => stores', stamps'⟩

theorem flat_close (flat : t.sstables.Flat) (numbered : t.sstables.Numbered) :
    (t.close options).2.Flat :=
  flat_doFlush (flushImmutables_keeps flat numbered _).1 _

theorem stores_close_of_stores (flat : t.sstables.Flat) (numbered : t.sstables.Numbered)
    (stored : t.sstables.Stores key w) : (t.close options).2.Stores key w :=
  have kept := @flushImmutables_keeps cmp options t flat numbered t.immutables.length
  stores_doFlush_of_stores kept.1 _ (kept.2.1 key w stored)

theorem stamps_of_stores_close (flat : t.sstables.Flat) (numbered : t.sstables.Numbered)
    (stored : (t.close options).2.Stores key w) : w ∈ t.stamps key := by
  obtain ⟨flat', -, stamps⟩ :=
    @flushImmutables_keeps cmp options t flat numbered t.immutables.length
  refine (stamps key w).mp ((mem_stamps_of_flat flat').mpr ?_)
  refine (stores_of_doFlush flat' stored).imp_left fun held => ?_
  exact ⟨_, List.mem_cons_self .., held⟩

theorem stores_close_of_stamps (flat : t.sstables.Flat) (fresh : t.sstables.Fresh)
    (numbered : t.sstables.Numbered) (success : (t.close options).1.isOk) (member : w ∈ t.stamps key) :
    (t.close options).2.Stores key w := by
  obtain ⟨flat', -, stamps⟩ :=
    @flushImmutables_keeps cmp options t flat numbered t.immutables.length
  have drained := (@flushImmutables_spec cmp options t.immutables t fresh rfl).2
  unfold close at success ⊢
  revert flat' stamps drained success
  rcases flushImmutables options t.immutables.length t with ⟨status, after⟩
  intro success flat' stamps drained
  dsimp only at flat' stamps drained success ⊢
  have last : (doFlushMemTable options after.sstables after.mutableMemTable).1.isOk := by
    by_contra failed
    rw [if_neg failed] at success
    exact failed success
  rw [if_pos last] at success
  obtain ⟨sstables, rfl, -⟩ := drained success
  rw [stores_doFlush flat' last]
  refine ((mem_stamps_of_flat flat').mp ((stamps key w).mpr member)).imp_left ?_
  rintro ⟨mem, inMemory, held⟩
  obtain rfl : mem = t.mutableMemTable := by simpa [memTables] using inMemory
  exact held

end LSMTree
end Lrdb
