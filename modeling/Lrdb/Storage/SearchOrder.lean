import Mathlib.Data.List.Nodup
import Lrdb.Storage.LSMTree

namespace Lrdb
open Versions

abbrev Source := Key → List Version

namespace SSTableManager
variable {cmp : Comparator}

def numbers (files : List SSTable) : List Nat := files.map fun file => file.info.fileNumber

structure Numbered (m : SSTableManager) : Prop where
  levels : 0 < m.levelFiles.length
  distinct : (numbers (m.level 0)).Nodup
  numbered : ∀ file ∈ m.level 0, file.info.fileNumber < m.nextFileNumber

structure Searchable (cmp : Comparator) (m : SSTableManager) : Prop extends Numbered m where
  laid : ∀ files ∈ m.levelFiles, ∀ file ∈ files, SSTable.Laid cmp file

theorem searchable_new : Searchable cmp new where
  levels := by decide
  laid := by simp [new]
  distinct := List.nodup_nil
  numbered := by simp [new, level]

theorem level_zero_mem {m : SSTableManager} (levels : 0 < m.levelFiles.length) :
    m.level 0 ∈ m.levelFiles := by
  rw [level, List.getD_eq_getElem?_getD, List.getElem?_eq_getElem levels]
  exact List.getElem_mem levels

instance : Std.Total NumberGE where
  total a b := Nat.le_total b.info.fileNumber a.info.fileNumber

instance : IsTrans SSTable NumberGE where
  trans _ _ _ ab bc := Nat.le_trans bc ab

theorem byNumber_unique {files sorted : List SSTable} (distinct : (numbers files).Nodup)
    (perm : sorted.Perm files) (ordered : sorted.Pairwise NumberGE) : byNumber files = sorted := by
  refine List.Perm.eq_of_pairwise ?_ (List.pairwise_insertionSort _ _) ordered
    ((List.perm_insertionSort _ _).trans perm.symm)
  intro a b ha hb ge le
  exact List.inj_on_of_nodup_map distinct ((List.mem_insertionSort _).mp ha) (perm.mem_iff.mp hb)
    (Nat.le_antisymm le ge)

theorem byNumber_filter {files : List SSTable} (distinct : (numbers files).Nodup)
    (keep : SSTable → Bool) : byNumber (files.filter keep) = (byNumber files).filter keep :=
  byNumber_unique (distinct.sublist (List.filter_sublist.map _))
    ((List.perm_insertionSort _ _).filter keep)
    ((List.pairwise_insertionSort _ _).sublist List.filter_sublist)

theorem byNumber_orderedInsert {files : List SSTable} {table : SSTable}
    (distinct : (numbers files).Nodup)
    (newest : ∀ file ∈ files, file.info.fileNumber < table.info.fileNumber) :
    byNumber (files.orderedInsert (SmallestLE cmp) table) = table :: byNumber files := by
  have fresh : (numbers (table :: files)).Nodup := by
    refine List.nodup_cons.mpr ⟨fun member => ?_, distinct⟩
    obtain ⟨file, member, same⟩ := List.mem_map.mp member
    exact absurd same (newest file member).ne
  have perm := List.perm_orderedInsert (SmallestLE cmp) table files
  refine byNumber_unique ((perm.map _).nodup_iff.mpr fresh) ?_ ?_
  · exact ((List.perm_insertionSort _ _).cons table).trans perm.symm
  · refine List.pairwise_cons.mpr ⟨fun file member => ?_, List.pairwise_insertionSort _ _⟩
    exact (newest file ((List.mem_insertionSort _).mp member)).le

def deepSource (cmp : Comparator) (files : List SSTable) (i : Nat) : Source := fun key =>
  (levelCandidates cmp key i files).flatMap fun file => file.versions key

def sources (cmp : Comparator) (m : SSTableManager) : List Source :=
  (byNumber (m.level 0)).map SSTable.versions ++
    m.levelFiles.zipIdx.tail.map fun level => deepSource cmp level.1 level.2

theorem versions_eq_nil_of_out_of_range {table : SSTable} (laid : SSTable.Laid cmp table)
    {key : Key} (outside : ¬ table.info.keyInRange cmp key) : table.versions key = [] := by
  rw [SSTable.versions, SSTable.versionsOf_eq_nil.mpr, List.reverse_nil]
  rintro entry member rfl
  exact outside (laid.inRange entry member)

private theorem candidates_split {m : SSTableManager} (levels : 0 < m.levelFiles.length)
    (key : Key) : m.candidates cmp key = levelCandidates cmp key 0 (m.level 0) ++
      (m.levelFiles.zipIdx.tail.map fun (files, i) => levelCandidates cmp key i files).flatten := by
  unfold candidates level
  cases shape : m.levelFiles with
  | nil => simp [shape] at levels
  | cons first rest => simp

private theorem firstHit_levelCandidates (key : Key) (snapshot : Nat) (files : List SSTable)
    {i : Nat} (deep : 0 < i) :
    firstHit ((levelCandidates cmp key i files).map fun table =>
        visibleVersions snapshot (table.versions key)) =
      newest (visibleVersions snapshot (deepSource cmp files i key)) := by
  have few : levelCandidates cmp key i files = [] ∨
      ∃ file, levelCandidates cmp key i files = [file] := by
    obtain ⟨j, rfl⟩ := Nat.exists_eq_succ_of_ne_zero deep.ne'
    simp only [levelCandidates]
    split
    · split <;> simp
    · simp
  rcases few with none | ⟨file, one⟩
  · simp [deepSource, none, firstHit, visibleVersions]
  · simp [deepSource, one, firstHit]

private theorem firstHit_deep (key : Key) (snapshot : Nat) (levels : List (List SSTable))
    (start : Nat) (deep : 0 < start) :
    firstHit (((levels.zipIdx start).map fun (files, i) =>
        levelCandidates cmp key i files).flatten.map fun table =>
          visibleVersions snapshot (table.versions key)) =
      firstHit (((levels.zipIdx start).map fun level => deepSource cmp level.1 level.2).map
        fun source => visibleVersions snapshot (source key)) := by
  induction levels generalizing start with
  | nil => rfl
  | cons files rest ih =>
      simp only [List.zipIdx_cons, List.map_cons, List.flatten_cons, List.map_append,
        firstHit_append, firstHit]
      rw [firstHit_levelCandidates key snapshot files deep, ih (start + 1) (Nat.succ_pos _)]

theorem firstHit_candidates {m : SSTableManager} (searchable : Searchable cmp m) (key : Key)
    (snapshot : Nat) :
    firstHit ((m.candidates cmp key).map fun table =>
        visibleVersions snapshot (table.versions key)) =
      firstHit ((m.sources cmp).map fun source => visibleVersions snapshot (source key)) := by
  have tail : m.levelFiles.zipIdx.tail = m.levelFiles.tail.zipIdx 1 := by
    cases m.levelFiles <;> simp
  rw [candidates_split searchable.levels, sources, tail, List.map_append, List.map_append,
    firstHit_append, firstHit_append, firstHit_deep key snapshot _ 1 Nat.one_pos, levelCandidates,
    byNumber_filter searchable.distinct, firstHit_map_filter]
  · simp only [List.map_map, Function.comp_def]
  · intro table member outside
    have laid := searchable.laid _ (level_zero_mem searchable.levels) table
      ((List.mem_insertionSort _).mp member)
    rw [versions_eq_nil_of_out_of_range laid outside]
    rfl

theorem mem_of_levelCandidate {key : Key} {i : Nat} {files : List SSTable} {table : SSTable}
    (member : table ∈ levelCandidates cmp key i files) : table ∈ files := by
  cases i with
  | zero => exact (List.mem_filter.mp ((List.mem_insertionSort _).mp member)).1
  | succ i =>
      dsimp only [levelCandidates] at member
      split at member
      · rename_i file rest found
        split at member
        · obtain rfl := List.mem_singleton.mp member
          exact (List.dropWhile_sublist _).mem (found ▸ List.mem_cons_self ..)
        · simp at member
      · simp at member

theorem mem_of_candidate {m : SSTableManager} {key : Key} {table : SSTable}
    (member : table ∈ m.candidates cmp key) : ∃ files ∈ m.levelFiles, table ∈ files := by
  obtain ⟨tables, levelMember, member⟩ := List.mem_flatten.mp member
  obtain ⟨⟨files, i⟩, filesMember, rfl⟩ := List.mem_map.mp levelMember
  exact ⟨files, List.fst_mem_of_mem_zipIdx filesMember, mem_of_levelCandidate member⟩

theorem mem_of_level {m : SSTableManager} {i : Nat} {table : SSTable}
    (member : table ∈ m.level i) : ∃ files ∈ m.levelFiles, table ∈ files := by
  rw [level, List.getD_eq_getElem?_getD] at member
  cases found : m.levelFiles[i]? with
  | none => simp [found] at member
  | some files => exact ⟨files, List.mem_of_getElem? found, by simpa [found] using member⟩

theorem entry_of_source {m : SSTableManager} {source : Source} (member : source ∈ m.sources cmp)
    {key : Key} {version : Version} (held : version ∈ source key) :
    ∃ files ∈ m.levelFiles, ∃ table ∈ files, ∃ entry ∈ table.entries, entry.1.userKey = key ∧
      entry.version = version := by
  have ofTable {table : SSTable} (held : version ∈ table.versions key) :
      ∃ entry ∈ table.entries, entry.1.userKey = key ∧ entry.version = version :=
    mem_versionsOf.mp (List.mem_reverse.mp held)
  rcases List.mem_append.mp member with top | deep
  · obtain ⟨table, inLevel, rfl⟩ := List.mem_map.mp top
    obtain ⟨files, level, inFiles⟩ := mem_of_level ((List.mem_insertionSort _).mp inLevel)
    exact ⟨files, level, table, inFiles, ofTable held⟩
  · obtain ⟨⟨files, i⟩, inLevels, rfl⟩ := List.mem_map.mp deep
    obtain ⟨table, candidate, held⟩ := List.mem_flatMap.mp held
    exact ⟨files, List.fst_mem_of_mem_zipIdx (List.mem_of_mem_tail inLevels), table,
      mem_of_levelCandidate candidate, ofTable held⟩

theorem laid_of_candidate {m : SSTableManager} (searchable : Searchable cmp m) {key : Key}
    {table : SSTable} (member : table ∈ m.candidates cmp key) : SSTable.Laid cmp table := by
  obtain ⟨files, level, member⟩ := mem_of_candidate member
  exact searchable.laid files level table member

def addFile (cmp : Comparator) (m : SSTableManager) (table : SSTable) : SSTableManager :=
  { levelFiles := m.levelFiles.set 0 ((m.level 0).orderedInsert (SmallestLE cmp) table)
    nextFileNumber := table.info.fileNumber + 1 }

theorem level_zero_addFile {m : SSTableManager} (levels : 0 < m.levelFiles.length)
    (table : SSTable) :
    (m.addFile cmp table).level 0 = (m.level 0).orderedInsert (SmallestLE cmp) table := by
  rw [addFile, level, List.getD_eq_getElem?_getD, List.getElem?_set_self levels]
  rfl

theorem sources_addFile {m : SSTableManager} (numbered : Numbered m) {table : SSTable}
    (number : table.info.fileNumber = m.nextFileNumber) :
    (m.addFile cmp table).sources cmp = table.versions :: m.sources cmp := by
  have deeper : (m.addFile cmp table).levelFiles.zipIdx.tail = m.levelFiles.zipIdx.tail := by
    unfold addFile
    cases m.levelFiles <;> rfl
  rw [sources, level_zero_addFile numbered.levels,
    byNumber_orderedInsert numbered.distinct (number ▸ numbered.numbered), deeper]
  rfl

theorem numbered_addFile {m : SSTableManager} (numbered : Numbered m) {table : SSTable}
    (number : table.info.fileNumber = m.nextFileNumber) : Numbered (m.addFile cmp table) where
  levels := numbered.levels.trans_eq (List.length_set ..).symm
  distinct := by
    rw [level_zero_addFile numbered.levels]
    refine ((List.perm_orderedInsert _ table _).map _).nodup_iff.mpr ?_
    refine List.nodup_cons.mpr ⟨fun member => ?_, numbered.distinct⟩
    obtain ⟨file, old, same⟩ := List.mem_map.mp member
    exact absurd (same.trans number) (numbered.numbered file old).ne
  numbered := by
    rw [level_zero_addFile numbered.levels]
    intro file member
    rcases (List.mem_orderedInsert _).mp member with rfl | old
    · exact Nat.lt_succ_self _
    · exact (numbered.numbered file old).trans (number ▸ Nat.lt_succ_self _)

theorem searchable_addFile {m : SSTableManager} (searchable : Searchable cmp m) {table : SSTable}
    (number : table.info.fileNumber = m.nextFileNumber) (laid : SSTable.Laid cmp table) :
    Searchable cmp (m.addFile cmp table) where
  toNumbered := numbered_addFile searchable.toNumbered number
  laid := by
    intro files member file memberFile
    rcases List.mem_or_eq_of_mem_set member with old | rfl
    · exact searchable.laid files old file memberFile
    · rcases (List.mem_orderedInsert _).mp memberFile with rfl | old
      · exact laid
      · exact searchable.laid _ (level_zero_mem searchable.levels) file old

private theorem error_of_addAll {options : SSTableWriterOptions} {entries : List Entry}
    {w : SSTableWriter} {status : Status}
    (failed : SSTableWriter.addAll cmp options w entries = .error status) : ¬ status.isOk := by
  induction entries generalizing w with
  | nil => cases failed
  | cons entry rest ih =>
      rw [SSTableWriter.addAll] at failed
      cases added : SSTableWriter.add cmp options w entry with
      | ok next => exact ih (by simpa [added, Except.bind] using failed)
      | error reason =>
          obtain rfl : reason = status := by simpa [added, Except.bind] using failed
          unfold SSTableWriter.add at added
          split at added
          · obtain rfl := Except.error.inj added
            decide
          · cases added

private theorem error_of_registerSSTable {m : SSTableManager} {i : Nat} {table : SSTable}
    {status : Status} (failed : registerSSTable cmp m i table = .error status) :
    ¬ status.isOk := by
  unfold registerSSTable at failed
  split at failed
  · cases failed
    decide
  split at failed
  · cases failed
    decide
  split at failed
  · cases failed
    decide
  · cases failed

theorem flush_ok {options : SSTableWriterOptions} {m m' : SSTableManager} {mem : MemTable cmp}
    {status : Status} (success : status.isOk)
    (flushed : m.flushMemTableToSSTable cmp options mem 0 = (status, m')) :
    ∃ table, flushEntries cmp options mem.entries m.nextFileNumber = .ok table ∧
      m' = m.addFile cmp table := by
  unfold flushMemTableToSSTable at flushed
  dsimp only at flushed
  split at flushed
  · rename_i reason failed
    obtain ⟨rfl, -⟩ := Prod.ext_iff.mp flushed
    unfold flushEntries at failed
    cases added : SSTableWriter.addAll cmp options {} (sortedEntries mem.entries) with
    | ok w => simp [added, Except.map] at failed
    | error cause =>
        obtain rfl : cause = reason := by simpa [added, Except.map] using failed
        exact absurd success (error_of_addAll added)
  · rename_i table written
    refine ⟨table, written, ?_⟩
    split at flushed
    · rename_i reason failed
      obtain ⟨rfl, -⟩ := Prod.ext_iff.mp flushed
      exact absurd success (error_of_registerSSTable failed)
    · rename_i final registered
      obtain ⟨-, rfl⟩ := Prod.ext_iff.mp flushed
      have number := (written_of_flush written).number
      unfold registerSSTable at registered
      split at registered
      · cases registered
      split at registered
      · cases registered
      split at registered
      · cases registered
      · rw [← Except.ok.inj registered, addFile, number,
          if_neg (Nat.not_le.mpr (Nat.lt_succ_self _))]
        rfl

structure Fresh (m : SSTableManager) : Prop where
  positive : 0 < m.nextFileNumber
  levels : 0 < m.levelFiles.length
  numbers : ∀ file ∈ m.levelFiles.flatten, file.info.fileNumber < m.nextFileNumber

theorem fresh_new : Fresh new := ⟨by decide, by decide, by simp [new]⟩

theorem flush_isOk_iff {options : SSTableWriterOptions} {m : SSTableManager} (fresh : Fresh m)
    (mem : MemTable cmp) : (m.flushMemTableToSSTable cmp options mem 0).1.isOk ↔
      (sortedEntries mem.entries).IsChain fun a b => cmp.compare a.1.encode b.1.encode = .lt := by
  rw [← flushEntries_ok_iff options mem.entries m.nextFileNumber]
  constructor
  · intro success
    obtain ⟨table, written, -⟩ := flush_ok success rfl
    exact ⟨table, written⟩
  · rintro ⟨table, written⟩
    have number := (written_of_flush written).number
    have registered : ∃ m', registerSSTable cmp { m with nextFileNumber := m.nextFileNumber + 1 } 0
        table = .ok m' := by
      unfold registerSSTable
      rw [if_neg (number ▸ fresh.positive.ne'), if_neg (Nat.not_le.mpr fresh.levels), if_neg]
      · exact ⟨_, rfl⟩
      · rintro ⟨file, member, same⟩
        exact absurd (same.trans number) (fresh.numbers file member).ne
    obtain ⟨m', registered⟩ := registered
    unfold flushMemTableToSSTable
    simp only [written, registered]
    rfl

end SSTableManager

/-! ## Lists of sources -/

def Holds (sources : List Source) (key : Key) (version : Version) : Prop :=
  ∃ source ∈ sources, version ∈ source key

theorem holds_append {xs ys : List Source} {key : Key} {version : Version} :
    Holds (xs ++ ys) key version ↔ Holds xs key version ∨ Holds ys key version := by
  simp [Holds, or_and_right, exists_or]

theorem holds_cons {source : Source} {sources : List Source} {key : Key} {version : Version} :
    Holds (source :: sources) key version ↔
      version ∈ source key ∨ Holds sources key version := by
  simp [Holds]

/-- Everything in an earlier source is at least as new as everything in a later one. -/
def SearchOrdered (sources : List Source) : Prop :=
  sources.Pairwise fun earlier older =>
    ∀ key, ∀ x ∈ earlier key, ∀ y ∈ older key, y.1 ≤ x.1

inductive Moved : List Source → List Source → Prop where
  | replace {front back : List Source} {old new : Source}
      (same : ∀ key version, version ∈ new key ↔ version ∈ old key) :
      Moved (front ++ old :: back) (front ++ new :: back)
  | drop {front back : List Source} {old : Source} (empty : ∀ key, old key = []) :
      Moved (front ++ old :: back) (front ++ back)

theorem Moved.holds {before after : List Source} (moved : Moved before after) {key : Key}
    {version : Version} : Holds after key version ↔ Holds before key version := by
  cases moved with
  | replace same => simp only [holds_append, holds_cons, same]
  | drop empty => simp [holds_append, holds_cons, empty]

theorem Moved.searchOrdered {before after : List Source} (moved : Moved before after)
    (ordered : SearchOrdered before) : SearchOrdered after := by
  cases moved with
  | replace same =>
      rw [SearchOrdered, List.pairwise_append, List.pairwise_cons] at ordered ⊢
      obtain ⟨front, ⟨here, back⟩, across⟩ := ordered
      refine ⟨front, ⟨fun source member key x hx => ?_, back⟩, fun source member other tail => ?_⟩
      · exact here source member key x ((same key x).mp hx)
      · intro key x hx y hy
        rcases List.mem_cons.mp tail with rfl | tail
        · exact across source member _ (List.mem_cons_self ..) key x hx y ((same key y).mp hy)
        · exact across source member other (List.mem_cons_of_mem _ tail) key x hx y hy
  | drop empty =>
      exact ordered.sublist (List.Sublist.append_left (List.sublist_cons_self ..) _)

def OrderedAt (sources : List Source) (key : Key) : Prop :=
  PlacesOrdered (sources.map fun source => source key)

instance (sources : List Source) (key : Key) : Decidable (OrderedAt sources key) := by
  unfold OrderedAt PlacesOrdered; infer_instance

theorem SearchOrdered.orderedAt {sources : List Source} (ordered : SearchOrdered sources)
    (key : Key) : OrderedAt sources key :=
  List.pairwise_map.mpr (ordered.imp fun h => h key)

def versionsIn (sources : List Source) (key : Key) : List Version :=
  sources.flatMap fun source => source key

theorem mem_versionsIn {sources : List Source} {key : Key} {version : Version} :
    version ∈ versionsIn sources key ↔ Holds sources key version := List.mem_flatMap

theorem visibleVersions_versionsIn (sources : List Source) (key : Key) (snapshot : Nat) :
    visibleVersions snapshot (versionsIn sources key) =
      (sources.map fun source => visibleVersions snapshot (source key)).flatten := by
  rw [versionsIn, visibleVersions, List.filter_flatMap, List.flatMap_def]
  rfl

theorem firstHit_sources {sources : List Source} {key : Key} (ordered : OrderedAt sources key)
    (snapshot : Nat) :
    firstHit (sources.map fun source => visibleVersions snapshot (source key)) =
      newest (visibleVersions snapshot (versionsIn sources key)) := by
  rw [visibleVersions_versionsIn]
  refine firstHit_eq_newest (List.pairwise_map.mpr ?_)
  refine (List.pairwise_map.mp ordered).imp fun h x hx y hy => ?_
  exact h x (mem_visibleVersions.mp hx).1 y (mem_visibleVersions.mp hy).1

namespace LSMTree
variable {cmp : Comparator} {options : LSMTreeOptions}

def sources (t : LSMTree cmp) : List Source :=
  t.memTables.map MemTable.versions ++ t.sstables.sources cmp

/-- A read of an ordered tree finds the newest visible version exactly when nothing shadows it. -/
theorem get_answers_newest_iff {t : LSMTree cmp} (searchable : t.sstables.Searchable cmp)
    {key : Key} (ordered : OrderedAt t.sources key) (snapshot : Nat) (value : Value) :
    (t.get key snapshot value).Answers
        ((newest (visibleVersions snapshot (versionsIn t.sources key))).bind payload) ↔
      t.Unshadowed key snapshot := by
  have laid : ∀ table ∈ t.sstables.candidates cmp key, SSTable.Laid cmp table :=
    fun table member => SSTableManager.laid_of_candidate searchable member
  have files := SSTableManager.firstHit_candidates searchable key snapshot
  have places : firstHit (t.memPlaces key snapshot ++ t.filePlaces key snapshot) =
      newest (visibleVersions snapshot (versionsIn t.sources key)) := by
    rw [← firstHit_sources ordered, sources, List.map_append, firstHit_append, firstHit_append,
      filePlaces, files, List.map_map]
    rfl
  rw [← places]
  exact get_answers_iff laid snapshot value

/-! ## What writes and flushes do to the sources -/

def switched (options : LSMTreeOptions) (t : LSMTree cmp) : LSMTree cmp :=
  { t with
    mutableMemTable := .new options.memtable
    immutables := t.immutables ++ [t.mutableMemTable.setImmutable] }

def landing (options : LSMTreeOptions) (t : LSMTree cmp) : LSMTree cmp :=
  if t.mutableMemTable.shouldFlush options.memtable then t.switched options else t

def store (options : LSMTreeOptions) (t : LSMTree cmp) (type : ValueType) (key : Key)
    (value : Value) (sequence : Nat) : LSMTree cmp :=
  { t with mutableMemTable :=
      t.mutableMemTable.insert options.memtable (.make key sequence type) value }

theorem switchMemTable_ok {t t' : LSMTree cmp} (switched : t.switchMemTable options = .ok t') :
    t' = t.switched options := by
  unfold switchMemTable at switched
  split at switched
  · cases switched
  · exact (Except.ok.inj switched).symm

theorem writeLocked_ok {t t' : LSMTree cmp} {type : ValueType} {key : Key} {value : Value}
    {sequence : Nat} {status : Status} (positive : sequence ≠ 0) (success : status.isOk)
    (written : t.writeLocked options type key value sequence = (status, t')) :
    t' = (t.landing options).store options type key value sequence := by
  have stored {base : LSMTree cmp}
      (added : base.addEntry options type key value sequence = (status, t')) :
      t' = base.store options type key value sequence := by
    unfold addEntry at added
    split at added
    · rename_i reason failed
      obtain ⟨rfl, -⟩ := Prod.ext_iff.mp added
      unfold MemTable.add at failed
      split at failed
      · cases failed
        cases success
      · cases failed
    · rename_i mem inserted
      obtain ⟨-, rfl⟩ := Prod.ext_iff.mp added
      rw [store, (MemTable.add_eq_ok.mp inserted).2]
  unfold writeLocked at written
  simp only [positive, if_false] at written
  unfold landing
  split at written
  · rename_i reason failed
    obtain ⟨rfl, -⟩ := Prod.ext_iff.mp written
    split at failed
    · unfold switchMemTable at failed
      split at failed
      · cases failed
        cases success
      · cases failed
    · cases failed
  · rename_i base found
    split at found
    · rename_i full
      rw [if_pos full, ← switchMemTable_ok found]
      exact stored written
    · rename_i spare
      obtain rfl := Except.ok.inj found
      rw [if_neg spare]
      exact stored written

theorem write_ok {t t' : LSMTree cmp} {type : ValueType} {key : Key} {value : Value}
    {sequence : Nat} {status : Status} (positive : sequence ≠ 0) (success : status.isOk)
    (written : t.write options type key value sequence = (status, t')) :
    t' = (t.landing options).store options type key value sequence := by
  unfold write at written
  split at written
  · obtain ⟨rfl, -⟩ := Prod.ext_iff.mp written
    cases success
  · exact writeLocked_ok positive success written

theorem write_failed {t t' : LSMTree cmp} {type : ValueType} {key : Key} {value : Value}
    {sequence : Nat} {status : Status} (positive : sequence ≠ 0) (failed : ¬ status.isOk)
    (written : t.write options type key value sequence = (status, t')) : t' = t := by
  unfold write at written
  split at written
  · exact (Prod.mk.inj written).2.symm
  unfold writeLocked addEntry at written
  simp only [positive, if_false] at written
  split at written
  · exact (Prod.mk.inj written).2.symm
  · rename_i base found
    split at written
    · rename_i reason refused
      obtain ⟨-, rfl⟩ := Prod.mk.inj written
      split at found
      · -- A fresh memtable refuses nothing.
        rw [switchMemTable_ok found] at refused
        cases refused
      · exact (Except.ok.inj found).symm
    · obtain ⟨rfl, -⟩ := Prod.mk.inj written
      exact absurd rfl failed

theorem flushOldestMemTable_failed {t t' : LSMTree cmp} {status : Status} (failed : ¬ status.isOk)
    (flushed : t.flushOldestMemTable options = (status, t')) : t' =
      { t with sstables :=
          { t.sstables with nextFileNumber := t.sstables.nextFileNumber + 1 } } := by
  unfold flushOldestMemTable at flushed
  split at flushed
  · obtain ⟨rfl, -⟩ := Prod.mk.inj flushed
    exact absurd rfl failed
  · rename_i mem rest found
    rcases written : doFlushMemTable options t.sstables mem with ⟨reason, sstables⟩
    simp only [written] at flushed
    split at flushed
    · rename_i success
      obtain ⟨rfl, -⟩ := Prod.mk.inj flushed
      exact absurd success failed
    · obtain ⟨rfl, rfl⟩ := Prod.mk.inj flushed
      unfold doFlushMemTable at written
      split at written
      · obtain ⟨rfl, -⟩ := Prod.mk.inj written
        exact absurd rfl failed
      · unfold SSTableManager.flushMemTableToSSTable at written
        dsimp only at written
        split at written
        · obtain ⟨-, rfl⟩ := Prod.mk.inj written
          rfl
        · split at written
          · obtain ⟨-, rfl⟩ := Prod.mk.inj written
            rfl
          · obtain ⟨rfl, -⟩ := Prod.mk.inj written
            exact absurd rfl failed

theorem flushOldestMemTable_ok {t t' : LSMTree cmp} {status : Status} (success : status.isOk)
    (flushed : t.flushOldestMemTable options = (status, t')) :
    t.immutables = [] ∧ t' = t ∨ ∃ mem rest, t.immutables = mem :: rest ∧
      (mem.entries = [] ∧ t' = { t with immutables := rest } ∨
        mem.entries ≠ [] ∧ ∃ table, flushEntries cmp options.writer mem.entries
            t.sstables.nextFileNumber = .ok table ∧
          t' = { t with immutables := rest, sstables := t.sstables.addFile cmp table }) := by
  unfold flushOldestMemTable at flushed
  split at flushed
  · rename_i none
    obtain ⟨-, rfl⟩ := Prod.ext_iff.mp flushed
    exact .inl ⟨none, rfl⟩
  · rename_i mem rest found
    refine .inr ⟨mem, rest, found, ?_⟩
    rcases written : doFlushMemTable options t.sstables mem with ⟨reason, sstables⟩
    simp only [written] at flushed
    split at flushed
    · rename_i fine
      obtain ⟨rfl, rfl⟩ := Prod.ext_iff.mp flushed
      unfold doFlushMemTable at written
      split at written
      · rename_i empty
        obtain ⟨-, rfl⟩ := Prod.ext_iff.mp written
        exact .inl ⟨MemTable.isEmpty_iff.mp empty, rfl⟩
      · rename_i nonempty
        obtain ⟨table, entries, rfl⟩ := SSTableManager.flush_ok fine written
        exact .inr ⟨mt MemTable.isEmpty_iff.mpr nonempty, table, entries, rfl⟩
    · rename_i failed
      obtain ⟨rfl, -⟩ := Prod.ext_iff.mp flushed
      exact absurd success failed

theorem sources_switched (t : LSMTree cmp) :
    (t.switched options).sources = (fun _ => []) :: t.sources := by
  simp only [sources, switched, memTables, List.reverse_append, List.reverse_cons, List.reverse_nil,
    List.nil_append, List.cons_append, List.map_cons]
  rfl

theorem sources_store (t : LSMTree cmp) (type : ValueType) (key : Key) (value : Value)
    (sequence : Nat) : (t.store options type key value sequence).sources =
      (t.mutableMemTable.insert options.memtable (.make key sequence type) value).versions ::
        t.sources.tail := rfl

theorem sources_eq_cons (t : LSMTree cmp) :
    t.sources = t.mutableMemTable.versions :: t.sources.tail := rfl

theorem searchOrdered_switched {t : LSMTree cmp} (ordered : SearchOrdered t.sources) :
    SearchOrdered (t.switched options).sources := by
  rw [sources_switched]
  exact List.pairwise_cons.mpr ⟨by simp, ordered⟩

theorem searchOrdered_landing {t : LSMTree cmp} (ordered : SearchOrdered t.sources) :
    SearchOrdered (t.landing options).sources := by
  unfold landing
  split
  · exact searchOrdered_switched ordered
  · exact ordered

theorem searchOrdered_store {t : LSMTree cmp} (ordered : SearchOrdered t.sources)
    {type : ValueType} {key : Key} {value : Value} {sequence : Nat}
    (bounded : sequence < sequenceLimit)
    (newest : ∀ source ∈ t.sources.tail, ∀ version ∈ source key, version.1 ≤ sequence) :
    SearchOrdered (t.store options type key value sequence).sources := by
  rw [sources_eq_cons, SearchOrdered, List.pairwise_cons] at ordered
  rw [sources_store]
  refine List.pairwise_cons.mpr ⟨fun source member k x hx y hy => ?_, ordered.2⟩
  rcases MemTable.mem_versions_insert.mp hx with ⟨rfl, rfl⟩ | ⟨hx, -⟩
  · rw [InternalKey.make_sequence bounded]
    exact newest source member y hy
  · exact ordered.1 source member k x hx y hy

theorem moved_of_flush {t t' : LSMTree cmp} (numbered : t.sstables.Numbered)
    {status : Status} (success : status.isOk)
    (flushed : t.flushOldestMemTable options = (status, t')) :
    t' = t ∨ Moved t.sources t'.sources := by
  rcases flushOldestMemTable_ok success flushed with ⟨-, rfl⟩ | ⟨mem, rest, found, flushed⟩
  · exact .inl rfl
  have split : t.sources = (t.mutableMemTable.versions :: rest.reverse.map MemTable.versions) ++
      mem.versions :: t.sstables.sources cmp := by
    simp [sources, memTables, found]
  refine .inr ?_
  rcases flushed with ⟨empty, rfl⟩ | ⟨-, table, written, rfl⟩
  · rw [split]
    have nothing : ∀ key, mem.versions key = [] := by simp [MemTable.versions, empty, versionsOf]
    exact Moved.drop nothing
  · have number := (written_of_flush written).number
    have after : ({ t with immutables := rest, sstables := t.sstables.addFile cmp table } :
        LSMTree cmp).sources =
        (t.mutableMemTable.versions :: rest.reverse.map MemTable.versions) ++
          table.versions :: t.sstables.sources cmp := by
      simp [sources, memTables, SSTableManager.sources_addFile numbered number]
    rw [split, after]
    exact Moved.replace fun key version => mem_versions_of_flush written

theorem numbered_of_flush {t t' : LSMTree cmp} (numbered : t.sstables.Numbered) {status : Status}
    (success : status.isOk) (flushed : t.flushOldestMemTable options = (status, t')) :
    t'.sstables.Numbered := by
  rcases flushOldestMemTable_ok success flushed with ⟨-, rfl⟩ | ⟨mem, rest, found, flushed⟩
  · exact numbered
  rcases flushed with ⟨-, rfl⟩ | ⟨-, table, written, rfl⟩
  · exact numbered
  · exact SSTableManager.numbered_addFile numbered (written_of_flush written).number

theorem numbered_flushOldest {t t' : LSMTree cmp} (numbered : t.sstables.Numbered) {status : Status}
    (flushed : t.flushOldestMemTable options = (status, t')) : t'.sstables.Numbered := by
  by_cases success : status.isOk
  · exact numbered_of_flush numbered success flushed
  · obtain rfl := flushOldestMemTable_failed success flushed
    exact ⟨numbered.levels, numbered.distinct, fun file member =>
      (numbered.numbered file member).trans (Nat.lt_succ_self _)⟩

theorem numbered_landing {t : LSMTree cmp} (numbered : t.sstables.Numbered) :
    (t.landing options).sstables.Numbered := by
  unfold landing
  split <;> exact numbered

theorem searchOrdered_flushOldest {t t' : LSMTree cmp} (numbered : t.sstables.Numbered)
    (ordered : SearchOrdered t.sources) {status : Status}
    (flushed : t.flushOldestMemTable options = (status, t')) : SearchOrdered t'.sources := by
  by_cases success : status.isOk
  · rcases moved_of_flush numbered success flushed with rfl | moved
    · exact ordered
    · exact moved.searchOrdered ordered
  · obtain rfl := flushOldestMemTable_failed success flushed
    exact ordered

theorem searchable_of_flush {t t' : LSMTree cmp} (searchable : t.sstables.Searchable cmp)
    (safe : ∀ mem ∈ t.immutables.head?, FlushSafe cmp options.writer mem.entries)
    {status : Status} (success : status.isOk)
    (flushed : t.flushOldestMemTable options = (status, t')) : t'.sstables.Searchable cmp := by
  rcases flushOldestMemTable_ok success flushed with ⟨-, rfl⟩ | ⟨mem, rest, found, flushed⟩
  · exact searchable
  rcases flushed with ⟨-, rfl⟩ | ⟨nonempty, table, written, rfl⟩
  · exact searchable
  · have laid := laid_of_flush (safe mem (by simp [found])) nonempty written
    exact SSTableManager.searchable_addFile searchable (written_of_flush written).number laid

end LSMTree
end Lrdb
