import Lrdb.Storage.MergeIterator

/-!
# Iteration over a tree

Every memtable, every file of level zero and every deeper level is a child of the merge.
-/

namespace Lrdb
open Versions Scans SSTable LSMTree

namespace SSTableManager
variable {cmp : Comparator}

def levelEntries (cmp : Comparator) : List SSTable → List Entry
  | [] => []
  | table :: rest =>
      if (table.readIndex cmp).isOk ∧ table.entries ≠ [] then table.entries ++ levelEntries cmp rest
      else []

def Leveled (cmp : Comparator) (m : SSTableManager) : Prop :=
  ∀ files ∈ m.levelFiles.tail,
    (∀ file ∈ files, file.info.smallestKey ≠ [] ∧ file.info.largestKey ≠ []) ∧
      files.Pairwise fun a b => cmp.Before a.info.largestKey b.info.smallestKey

private theorem entries_ne_nil {table : SSTable} (laid : SSTable.Laid cmp table) :
    table.entries ≠ [] := by
  intro empty
  have opens := laid.opens
  cases blocks : table.blocks with
  | nil => simp [SSTable.readIndex, blocks] at opens; cases opens
  | cons block rest => simp [SSTable.entries, blocks, DataBlock.entries] at empty

theorem levelEntries_eq {files : List SSTable} (laid : ∀ file ∈ files, SSTable.Laid cmp file) :
    levelEntries cmp files = files.flatMap SSTable.entries := by
  induction files with
  | nil => rfl
  | cons table rest ih =>
      obtain ⟨here, later⟩ := List.forall_mem_cons.mp laid
      have readable : (table.readIndex cmp).isOk ∧ table.entries ≠ [] :=
        ⟨by simp [here.opens, Status.isOk, Status.ok], entries_ne_nil here⟩
      rw [levelEntries, if_pos readable, ih later, List.flatMap_cons]

theorem bounds_of_entry {table : SSTable} (laid : SSTable.Laid cmp table)
    (ranged : table.info.smallestKey ≠ [] ∧ table.info.largestKey ≠ []) {entry : Entry}
    (member : entry ∈ table.entries) : ¬ cmp.Before entry.1.userKey table.info.smallestKey ∧
      ¬ cmp.Before table.info.largestKey entry.1.userKey := by
  have inside := laid.inRange entry member
  unfold SSTableMeta.keyInRange at inside
  simp only [ranged.1, ranged.2, or_self, if_false, decide_eq_true_eq, ne_eq] at inside
  exact ⟨inside.1, fun before => inside.2 (Comparator.compare_gt.mpr before)⟩

theorem userSorted_level {files : List SSTable} (laid : ∀ file ∈ files, SSTable.Laid cmp file)
    (ranged : ∀ file ∈ files, file.info.smallestKey ≠ [] ∧ file.info.largestKey ≠ [])
    (apart : files.Pairwise fun a b => cmp.Before a.info.largestKey b.info.smallestKey) :
    SSTable.UserSorted cmp (files.flatMap SSTable.entries) := by
  refine List.pairwise_flatMap.mpr ⟨fun file member => (laid file member).sorted, ?_⟩
  refine List.Pairwise.imp_of_mem (fun {a b} ha hb gap x hx y hy before => ?_) apart
  have high := (bounds_of_entry (laid a ha) (ranged a ha) hx).2
  have low := (bounds_of_entry (laid b hb) (ranged b hb) hy).1
  rcases Comparator.not_before.mp low with same | above
  · exact high (gap.trans (same ▸ before))
  · exact high ((gap.trans above).trans before)

theorem mem_deepSource {files : List SSTable} (laid : ∀ file ∈ files, SSTable.Laid cmp file)
    (ranged : ∀ file ∈ files, file.info.smallestKey ≠ [] ∧ file.info.largestKey ≠ [])
    (apart : files.Pairwise fun a b => cmp.Before a.info.largestKey b.info.smallestKey) {i : Nat}
    (deep : 0 < i) {key : Key} {version : Version} : version ∈ deepSource cmp files i key ↔
      ∃ file ∈ files, version ∈ file.versions key := by
  refine ⟨fun member => ?_, fun ⟨file, member, held⟩ => ?_⟩
  · obtain ⟨file, candidate, held⟩ := List.mem_flatMap.mp member
    exact ⟨file, mem_of_levelCandidate candidate, held⟩
  · obtain ⟨front, back, rfl⟩ := List.append_of_mem member
    obtain ⟨entry, inside, rfl, -⟩ := mem_versionsOf.mp (List.mem_reverse.mp held)
    obtain ⟨low, high⟩ := bounds_of_entry (laid file member) (ranged file member) inside
    have passed : ∀ other ∈ front,
        cmp.compare other.info.largestKey entry.1.userKey = .lt := by
      intro other inFront
      have gap := (List.pairwise_append.mp apart).2.2 other inFront file (List.mem_cons_self ..)
      rcases Comparator.not_before.mp low with same | above
      · exact same ▸ gap
      · exact gap.trans above
    have stops : ¬ cmp.compare file.info.largestKey entry.1.userKey = .lt := high
    obtain ⟨j, rfl⟩ := Nat.exists_eq_succ_of_ne_zero deep.ne'
    have candidates : levelCandidates cmp entry.1.userKey (j + 1) (front ++ file :: back) = [file] := by
      rw [levelCandidates, List.dropWhile_append_of_pos (by simpa using passed),
        List.dropWhile_cons_of_neg (by simpa using stops)]
      exact if_pos ((laid file member).inRange entry inside)
    exact List.mem_flatMap.mpr ⟨file, candidates ▸ List.mem_singleton_self file, held⟩

end SSTableManager

namespace LSMTree
variable {cmp : Comparator}
open MergeIterator SSTableManager

def children (t : LSMTree cmp) : Children :=
  t.mutableMemTable.entries :: t.immutables.map MemTable.entries ++
    (t.sstables.level 0).reverse.map (fun file => levelEntries cmp [file]) ++
      t.sstables.levelFiles.tail.map (levelEntries cmp)

/-- `NewIterator` with `SeekToFirst` and `Next` until it is not valid. -/
def newIterator (t : LSMTree cmp) (snapshot : Nat) : List (Key × Value) :=
  scan cmp snapshot t.children

theorem userSorted_memTable (mem : MemTable cmp) : SSTable.UserSorted cmp mem.entries := by
  refine mem.table.ascending.imp fun less before => ?_
  rcases internalCompare_lt.mp less with after | ⟨same, -⟩
  · exact after.not_before before
  · exact before.ne same.symm

theorem sorted_children {t : LSMTree cmp} (searchable : t.sstables.Searchable cmp)
    (leveled : t.sstables.Leveled cmp) : Sorted cmp t.children := by
  intro child member
  rw [children] at member
  simp only [List.cons_append, List.mem_cons, List.mem_append, List.mem_map, List.mem_reverse]
    at member
  rcases member with rfl | (⟨mem, -, rfl⟩ | ⟨file, inLevel, rfl⟩) | ⟨files, deep, rfl⟩
  · exact userSorted_memTable _
  · exact userSorted_memTable mem
  · have laid := searchable.laid _ (level_zero_mem searchable.levels) file inLevel
    rw [levelEntries_eq (by simpa using laid), List.flatMap_singleton]
    exact laid.sorted
  · have laid := searchable.laid files (List.mem_of_mem_tail deep)
    rw [levelEntries_eq laid]
    exact userSorted_level laid (leveled files deep).1 (leveled files deep).2

theorem mem_versionsAt_children {t : LSMTree cmp} (searchable : t.sstables.Searchable cmp)
    (leveled : t.sstables.Leveled cmp) {key : Key} {version : Version} :
    version ∈ versionsAt t.children key ↔ Holds t.sources key version := by
  have memory : version ∈ versionsAt (t.mutableMemTable.entries :: t.immutables.map MemTable.entries)
      key ↔ Holds (t.memTables.map MemTable.versions) key version := by
    simp [versionsAt, Holds, memTables, MemTable.versions]
  have top : version ∈ versionsAt ((t.sstables.level 0).reverse.map
      fun file => levelEntries cmp [file]) key ↔
        Holds ((byNumber (t.sstables.level 0)).map SSTable.versions) key version := by
    have laid := searchable.laid _ (level_zero_mem searchable.levels)
    have files (file : SSTable) (inLevel : file ∈ t.sstables.level 0) :
        levelEntries cmp [file] = file.entries := by
      rw [levelEntries_eq (by simpa using laid file inLevel), List.flatMap_singleton]
    simp only [versionsAt, Holds, List.flatMap_map, List.mem_flatMap, List.mem_map, List.mem_reverse,
      exists_exists_and_eq_and, SSTable.versions, byNumber, List.mem_insertionSort]
    exact exists_congr fun file => and_congr_right fun inLevel => by rw [files file inLevel]
  have deep : version ∈ versionsAt (t.sstables.levelFiles.tail.map (levelEntries cmp)) key ↔
      Holds (t.sstables.levelFiles.zipIdx.tail.map fun level => deepSource cmp level.1 level.2) key
        version := by
    have shift : t.sstables.levelFiles.zipIdx.tail = t.sstables.levelFiles.tail.zipIdx 1 := by
      cases t.sstables.levelFiles <;> simp
    have level (files : List SSTable) (member : files ∈ t.sstables.levelFiles.tail) (i : Nat)
        (below : 0 < i) : version ∈ versionsOf key (levelEntries cmp files) ↔
          version ∈ deepSource cmp files i key := by
      have laid := searchable.laid files (List.mem_of_mem_tail member)
      rw [levelEntries_eq laid,
        mem_deepSource laid (leveled files member).1 (leveled files member).2 below, mem_versionsOf]
      simp only [List.mem_flatMap, SSTable.versions, List.mem_reverse, mem_versionsOf]
      constructor
      · rintro ⟨entry, ⟨file, inLevel, inside⟩, same, rfl⟩
        exact ⟨file, inLevel, entry, inside, same, rfl⟩
      · rintro ⟨file, inLevel, entry, inside, same, rfl⟩
        exact ⟨entry, ⟨file, inLevel, inside⟩, same, rfl⟩
    rw [shift]
    simp only [versionsAt, Holds, List.flatMap_map, List.mem_flatMap, List.mem_map,
      exists_exists_and_eq_and]
    constructor
    · rintro ⟨files, member, held⟩
      obtain ⟨j, inside, rfl⟩ := List.getElem_of_mem member
      exact ⟨(_, 1 + j), List.mk_mem_zipIdx_iff_le_and_getElem?_sub.mpr ⟨by omega, by simp⟩,
        (level _ member (1 + j) (by omega)).mp held⟩
    · rintro ⟨⟨files, i⟩, member, held⟩
      have inside := List.fst_mem_of_mem_zipIdx member
      have position := (List.mk_mem_zipIdx_iff_le_and_getElem?_sub.mp member).1
      exact ⟨files, inside, (level files inside i position).mpr held⟩
  rw [children, sources, SSTableManager.sources, holds_append, holds_append, ← memory, ← top, ← deep]
  simp only [versionsAt, List.flatMap_append, List.mem_append, or_assoc]

section Content
variable {t : LSMTree cmp} (searchable : t.sstables.Searchable cmp)
  (leveled : t.sstables.Leveled cmp) (functional : ∀ key, Functional (t.stamps key))
include searchable leveled functional

theorem agreeing_children : Agreeing t.children := by
  intro key
  refine (functional key).subset fun w member => ?_
  obtain ⟨version, held, rfl⟩ := List.mem_map.mp member
  refine List.mem_map_of_mem ?_
  exact mem_versionsIn.mpr ((mem_versionsAt_children searchable leveled).mp held)

theorem live_children (snapshot : Nat) (key : Key) :
    live snapshot (versionsAt t.children key) =
      (newest ((t.stamps key).filter fun w => Visible snapshot w.1)).bind Prod.snd := by
  have members (version : Version) :
      version ∈ versionsAt t.children key ↔ version ∈ versionsIn t.sources key :=
    (mem_versionsAt_children searchable leveled).trans mem_versionsIn.symm
  rw [live_congr (functional key) members, live_eq_stamps]
  rfl

theorem lists_newIterator (snapshot : Nat) : Lists cmp.Before (fun key =>
    (newest ((t.stamps key).filter fun w => Visible snapshot w.1)).bind Prod.snd)
      (t.newIterator snapshot) := by
  have lists : Lists cmp.Before (fun key => live snapshot (versionsAt t.children key)) _ :=
    lists_scan (sorted_children searchable leveled)
      (agreeing_children searchable leveled functional)
  simp only [live_children searchable leveled functional] at lists
  exact lists

end Content

end LSMTree
end Lrdb
