import Lrdb.Base.Simulations
import Lrdb.Storage.DiskFlush

namespace Lrdb
namespace TableFile
open Simulations

/-! ## Reads -/

namespace FileManager
variable {cmp : Comparator} {path : List Char → Bytes} {m : FileManager} {directory : Directory}
  {tables : List Char → Option SSTable} {files : List FileMeta} {file : FileMeta}

theorem levelCandidates_plain (agree : ∀ file ∈ files, (tableOf tables file).info = file.info) (key : Key)
    (i : Nat) : SSTableManager.levelCandidates cmp key i (files.map (tableOf tables)) =
      (levelCandidates cmp key i files).map (tableOf tables) := by
  cases i with
  | zero =>
      rw [levelCandidates, SSTableManager.levelCandidates, SSTableManager.byNumber, List.filter_map]
      have filtered : files.filter ((fun table => table.info.keyInRange cmp key) ∘ tableOf tables) =
          files.filter fun file => file.info.keyInRange cmp key :=
        List.filter_congr fun file member => by rw [Function.comp, agree file member]
      rw [filtered]
      refine (List.map_insertionSort _ _ _ _ fun a left b right => ?_).symm
      rw [SSTableManager.NumberGE, agree a (List.mem_of_mem_filter left),
        agree b (List.mem_of_mem_filter right)]
  | succ i =>
      have dropped : files.dropWhile ((fun table => decide (cmp.compare table.info.largestKey key = .lt)) ∘
          tableOf tables) = files.dropWhile fun file => cmp.compare file.info.largestKey key = .lt := by
        clear i
        induction files with
        | nil => rfl
        | cons file rest ih =>
            obtain ⟨here, later⟩ := List.forall_mem_cons.mp agree
            rw [List.dropWhile_cons, List.dropWhile_cons, Function.comp, here, ih later]
      rw [levelCandidates, SSTableManager.levelCandidates, List.dropWhile_map, dropped]
      cases found : files.dropWhile fun file => cmp.compare file.info.largestKey key = .lt with
      | nil => rfl
      | cons file rest =>
          have member : file ∈ files :=
            (List.dropWhile_sublist _).mem (found ▸ List.mem_cons_self)
          simp only [List.map_cons, agree file member]
          split <;> rfl

theorem mem_of_levelCandidates {key : Key} {i : Nat} (member : file ∈ levelCandidates cmp key i files) :
    file ∈ files := by
  cases i with
  | zero => exact List.mem_of_mem_filter ((List.mem_insertionSort _).mp member)
  | succ i =>
      rw [levelCandidates] at member
      cases found : files.dropWhile fun file => cmp.compare file.info.largestKey key = .lt with
      | nil => simp [found] at member
      | cons first rest =>
          simp only [found] at member
          split at member <;> [skip; cases member]
          obtain rfl := List.mem_singleton.mp member
          exact (List.dropWhile_sublist _).mem (found ▸ List.mem_cons_self)

theorem mem_of_candidates {key : Key} (member : file ∈ m.candidates cmp key) :
    file ∈ m.levelFiles.flatten := by
  obtain ⟨found, level, inside⟩ := List.mem_flatten.mp member
  obtain ⟨⟨files, i⟩, place, rfl⟩ := List.mem_map.mp level
  exact List.mem_flatten.mpr ⟨files, List.fst_mem_of_mem_zipIdx place, mem_of_levelCandidates inside⟩

theorem candidates_plain (registered : m.Registered tables) (key : Key) :
    (m.plain tables).candidates cmp key = (m.candidates cmp key).map (tableOf tables) := by
  rw [SSTableManager.candidates, candidates, plain, List.zipIdx_map, List.map_map, List.map_flatten,
    List.map_map]
  refine congrArg List.flatten (List.map_congr_left fun level member => ?_)
  obtain ⟨files, i⟩ := level
  exact levelCandidates_plain (fun file inside => registered.info_tableOf
    (List.mem_flatten.mpr ⟨files, List.fst_mem_of_mem_zipIdx member, inside⟩)) key i

theorem openTable_cases (mirrors : Mirrors cmp path m directory tables) (filename : List Char) :
    (∃ content table reader, directory filename = some content ∧ tables filename = some table ∧
        SSTableReader.openFile cmp.compare (path filename) content = .ok reader ∧
          Image cmp (path filename) content table ∧ (table.readIndex cmp).isOk ∧
            openTable cmp path directory filename = some reader) ∨
      openTable cmp path directory filename = none ∧
        ∀ table ∈ tables filename, ¬ (table.readIndex cmp).isOk := by
  have holds := mirrors.holds filename
  unfold openTable
  cases stored : directory filename with
  | none =>
      rw [stored] at holds
      refine .inr ⟨rfl, fun table found => ?_⟩
      rw [Option.mem_def.mp found] at holds
      cases holds
  | some content =>
      rw [stored] at holds
      simp only [Option.bind_some]
      cases opens : SSTableReader.openFile cmp.compare (path filename) content with
      | error status =>
          refine .inr ⟨rfl, fun table found passes => ?_⟩
          rw [Option.mem_def.mp found] at holds
          obtain ⟨reader, opened⟩ := holds.opens.mpr passes
          rw [opens] at opened
          cases opened
      | ok reader =>
          cases found : tables filename with
          | none =>
              rw [found] at holds
              exact absurd opens (holds reader)
          | some table =>
              rw [found] at holds
              exact .inl ⟨content, table, reader, rfl, rfl, opens, holds, holds.opens.mp ⟨reader, opens⟩, rfl⟩

theorem searchFile_plain (mirrors : Mirrors cmp path m directory tables)
    (member : file ∈ m.levelFiles.flatten) (key : Key) (snapshot : Nat) (value : Value) :
    searchFile cmp path directory file key snapshot value =
      SSTableManager.searchFile cmp (tableOf tables file) key snapshot value := by
  obtain ⟨table, found, -⟩ := mirrors.held file member
  rw [tableOf, found, Option.getD_some, searchFile, SSTableManager.searchFile]
  rcases openTable_cases mirrors file.filename with
    ⟨content, table', reader, -, found', opens, image, passes, opened⟩ | ⟨closed, fails⟩
  · obtain rfl : table = table' := Option.some.inj (found.symm.trans found')
    rw [opened, if_neg (not_not.mpr passes)]
    simp only [image.mayContain reader opens, image.get reader opens]
  · rw [closed, if_pos (fails table found)]

theorem get_plain (mirrors : Mirrors cmp path m directory tables) (key : Key) (snapshot : Nat)
    (value : Value) : m.get cmp path directory key snapshot value =
      (m.plain tables).get cmp key snapshot value := by
  rw [get, SSTableManager.get, candidates_plain mirrors.toRegistered]
  have inside : ∀ file ∈ m.candidates cmp key, file ∈ m.levelFiles.flatten := fun _ => mem_of_candidates
  generalize m.candidates cmp key = files at inside
  induction files with
  | nil => rfl
  | cons file rest ih =>
      obtain ⟨here, later⟩ := List.forall_mem_cons.mp inside
      rw [searchFiles, List.map_cons, SSTableManager.searchFiles, searchFile_plain mirrors here, ih later]

/-! ## Loading -/

def numberOf (filename : List Char) : Nat := ((TableName.parse filename).map Prod.fst).getD 0

theorem numberOf_make {n : Nat} (counted : n < 2 ^ 64) : numberOf (TableName.make n 0) = n := by
  rw [numberOf, TableName.parse_make counted (by decide)]
  rfl

def orderOf (m : FileManager) (listing : List (List Char)) : List Nat :=
  (listing.filter fun filename => ∃ file ∈ m.levelFiles.flatten, file.filename = filename).map numberOf

theorem Registered.mem_level (registered : m.Registered tables) (member : file ∈ m.levelFiles.flatten) :
    file ∈ m.level 0 := by
  have levels := registered.flat.levels
  unfold level
  cases files : m.levelFiles with
  | nil => simp [plain, files] at levels
  | cons top deeper =>
      simp only [plain, files, List.map_cons, List.cons.injEq] at levels
      rw [files, List.flatten_cons, List.mem_append] at member
      refine member.resolve_right fun deep => ?_
      obtain ⟨others, level, inside⟩ := List.mem_flatten.mp deep
      have none : others.map (tableOf tables) ∈ List.replicate 6 [] :=
        levels.2 ▸ List.mem_map_of_mem level
      rw [List.map_eq_nil_iff.mp (List.eq_of_mem_replicate none)] at inside
      cases inside

theorem Mirrors.number_lt (mirrors : Mirrors cmp path m directory tables)
    (member : file ∈ m.levelFiles.flatten) : file.info.fileNumber + 1 < 2 ^ 64 ∧
      (directory file.filename).isSome := by
  obtain ⟨table, found, -⟩ := mirrors.held file member
  have present : (directory file.filename).isSome := by
    have holds := mirrors.holds file.filename
    cases stored : directory file.filename with
    | none =>
        rw [stored, found] at holds
        cases holds
    | some content => rfl
  obtain ⟨n, counted, same, -⟩ := mirrors.numbered file.filename present
  rw [mirrors.named file member] at same
  exact ⟨TableName.make_injective same ▸ counted, present⟩

theorem Mirrors.numberOf_filename (mirrors : Mirrors cmp path m directory tables)
    (member : file ∈ m.levelFiles.flatten) : numberOf file.filename = file.info.fileNumber := by
  rw [mirrors.named file member]
  exact numberOf_make ((Nat.lt_succ_self _).trans (mirrors.number_lt member).1)

theorem Mirrors.orderOf_perm (mirrors : Mirrors cmp path m directory tables) {listing : List (List Char)}
    (once : listing.Nodup) (whole : ∀ filename, filename ∈ listing ↔ (directory filename).isSome) :
    (m.orderOf listing).Perm ((m.plain tables).files.map fun file => file.2.info.fileNumber) := by
  have agree : ∀ file ∈ m.level 0, (tableOf tables file).info = file.info := fun file member =>
    mirrors.info_tableOf (mem_flatten_of_level member)
  have numbers : (m.plain tables).files.map (fun file => file.2.info.fileNumber) =
      ((m.level 0).map FileMeta.filename).map numberOf := by
    rw [mirrors.flat.files, level_plain, List.map_map, List.map_map, List.map_map]
    refine List.map_congr_left fun file member => ?_
    simp only [Function.comp, agree file member]
    exact (mirrors.numberOf_filename (mem_flatten_of_level member)).symm
  have distinct : ((m.level 0).map FileMeta.filename).Nodup := by
    refine List.Nodup.of_map numberOf ?_
    rw [← numbers, mirrors.flat.files, List.map_map]
    exact mirrors.flat.distinct
  rw [numbers, orderOf]
  refine List.Perm.map _ ((List.perm_ext_iff_of_nodup (once.filter _) distinct).mpr fun filename => ?_)
  simp only [List.mem_filter, decide_eq_true_eq, List.mem_map]
  constructor
  · rintro ⟨-, file, member, named⟩
    exact ⟨file, mirrors.mem_level member, named⟩
  · rintro ⟨file, member, rfl⟩
    have inside := mem_flatten_of_level member
    exact ⟨(whole _).mpr (mirrors.number_lt inside).2, file, inside, rfl⟩

structure Loaded (cmp : Comparator) (tables : List Char → Option SSTable) (read : List (List Char))
    (loading : FileLoading) : Prop extends loading.manager.Registered tables where
  next : loading.manager.nextFileNumber = loading.maxFileNumber + 1
  small : loading.maxFileNumber + 1 < 2 ^ 64
  seen : ∀ file ∈ loading.manager.levelFiles.flatten, file.filename ∈ read
  complete : ∀ filename ∈ read, ∀ table ∈ tables filename, (table.readIndex cmp).isOk →
    ∃ file ∈ loading.manager.levelFiles.flatten, file.filename = filename

theorem loaded_start (tables : List Char → Option SSTable) : Loaded cmp tables [] {} where
  named := by simp
  behind := by simp
  held := by simp
  flat := SSTableManager.flat_new
  next := rfl
  small := by decide
  seen := by simp
  complete := by simp

theorem loadFile_of_closed {filename : List Char} (closed : openTable cmp path directory filename = none)
    (loading : FileLoading) : loadFile cmp path directory loading filename = loading := by
  unfold loadFile
  rw [closed]
  cases TableName.parse filename <;> rfl

variable {read : List (List Char)} {loading : FileLoading} {filename : List Char}

theorem Loaded.register (loaded : Loaded cmp tables read loading) (mirrors : Mirrors cmp path m directory tables)
    {table : SSTable} {n : Nat} (new : TableName.make n 0 ∉ read)
    (found : tables (TableName.make n 0) = some table) (number : table.info.fileNumber = n)
    (passes : (table.readIndex cmp).isOk) :
    ∃ m', loading.manager.registerSSTable cmp ⟨TableName.make n 0, 0, table.info⟩ = .ok m' := by
  have positive : table.info.fileNumber ≠ 0 := by
    intro zero
    obtain ⟨file, member, named⟩ := mirrors.complete _ table found passes
    obtain ⟨table', held, info⟩ := mirrors.held file member
    rw [named, found] at held
    obtain rfl := Option.some.inj held
    refine mirrors.flat.positive (List.mem_map.mpr ⟨tableOf tables file, ?_, ?_⟩)
    · rw [level_plain]
      exact List.mem_map_of_mem (mirrors.mem_level member)
    · rw [mirrors.info_tableOf member, ← info, zero]
  have seven : loading.manager.levelFiles.length = 7 := by
    have levels := congrArg List.length loaded.flat.levels
    simpa [plain] using levels
  unfold registerSSTable
  rw [if_neg (by simp [TableName.make_eq]), if_neg positive, if_neg (by simp [seven]), if_neg]
  · exact ⟨_, rfl⟩
  · rintro ⟨other, member, same⟩
    refine new (loaded.seen other member |> fun seen => ?_)
    rwa [loaded.named other member, same, number] at seen

theorem Loaded.step (loaded : Loaded cmp tables read loading) (mirrors : Mirrors cmp path m directory tables)
    (present : (directory filename).isSome) (new : filename ∉ read) :
    Loaded cmp tables (filename :: read) (loadFile cmp path directory loading filename) ∧
      (((∀ table ∈ tables filename, ¬ (table.readIndex cmp).isOk) ∧
          loadFile cmp path directory loading filename = loading) ∨
        ∃ table ∈ tables filename, (table.readIndex cmp).isOk ∧
          (loading.manager.plain tables).registerSSTable cmp 0 table =
            .ok ((loadFile cmp path directory loading filename).manager.plain tables)) := by
  rcases openTable_cases mirrors filename with
    ⟨content, table, reader, stored, found, opens, image, passes, opened⟩ | ⟨closed, fails⟩
  · obtain ⟨n, counted, rfl, number⟩ := mirrors.numbered filename present
    have number := number table found
    obtain ⟨m', success⟩ := loaded.register mirrors new found number passes
    obtain ⟨smallest, largest⟩ := image.range reader opens
    have info : (⟨n, reader.info.smallestKey, reader.info.largestKey⟩ : Lrdb.SSTableMeta) = table.info := by
      rw [smallest, largest, ← number]
    obtain ⟨old, kept, placed, next⟩ := registerSSTable_ok success
    have counter : m'.nextFileNumber = max loading.maxFileNumber n + 1 := by
      rw [next, loaded.next]
      dsimp only
      omega
    have small : max loading.maxFileNumber n + 1 < 2 ^ 64 := by
      have earlier := loaded.small
      omega
    have unwrapped : m'.wrapped = m' := by
      rw [wrapped, Nat.mod_eq_of_lt (counter ▸ small)]
    have result : loadFile cmp path directory loading (TableName.make n 0) =
        ⟨m', max loading.maxFileNumber n, loading.loaded + 1⟩ := by
      have parsed := @TableName.parse_make n 0 (by omega) (by decide)
      rw [loadFile, parsed, opened]
      dsimp only
      rw [if_neg (by simp), info]
      simp only [Int.toNat_natCast, success, unwrapped]
    obtain ⟨registered, plainly⟩ := @Registered.register cmp _ m' tables loaded.toRegistered
      ⟨TableName.make n 0, 0, table.info⟩ (by rw [number]) rfl ⟨table, found, rfl⟩ success
    rw [result]
    refine ⟨{ registered with next := counter, small := small, seen := ?_, complete := ?_ },
      .inr ⟨table, found, passes, ?_⟩⟩
    · intro file member
      rcases old file member with earlier | rfl
      · exact List.mem_cons_of_mem _ (loaded.seen file earlier)
      · exact List.mem_cons_self
    · intro other member table' found' passes'
      rcases List.mem_cons.mp member with rfl | earlier
      · exact ⟨_, placed, rfl⟩
      · obtain ⟨file, here, named⟩ := loaded.complete other earlier table' found' passes'
        exact ⟨file, kept file here, named⟩
    · rwa [tableOf, found, Option.getD_some] at plainly
  · rw [loadFile_of_closed closed]
    refine ⟨{ loaded with seen := ?_, complete := ?_ }, .inl ⟨fails, rfl⟩⟩
    · exact fun file member => List.mem_cons_of_mem _ (loaded.seen file member)
    · intro other member table found passes
      rcases List.mem_cons.mp member with rfl | earlier
      · exact absurd passes (fails table found)
      · exact loaded.complete other earlier table found passes

theorem orderOf_cons (m : FileManager) (filename : List Char) (rest : List (List Char)) :
    m.orderOf (filename :: rest) =
      if ∃ file ∈ m.levelFiles.flatten, file.filename = filename then
        numberOf filename :: m.orderOf rest
      else m.orderOf rest := by
  simp only [orderOf, List.filter_cons, decide_eq_true_eq]
  split <;> rfl

theorem Loaded.fold (mirrors : Mirrors cmp path m directory tables) {listing : List (List Char)}
    (loaded : Loaded cmp tables read loading) (present : ∀ filename ∈ listing, (directory filename).isSome)
    (once : listing.Nodup) (new : ∀ filename ∈ listing, filename ∉ read) :
    let final := listing.foldl (loadFile cmp path directory) loading
    Loaded cmp tables (listing.reverse ++ read) final ∧ final.manager.plain tables =
      ((m.plain tables).listed (m.orderOf listing)).foldl (SSTableManager.loadFile cmp)
        (loading.manager.plain tables) := by
  induction listing generalizing read loading with
  | nil => exact ⟨loaded, rfl⟩
  | cons filename rest ih =>
      obtain ⟨here, presentRest⟩ := List.forall_mem_cons.mp present
      obtain ⟨newHere, newRest⟩ := List.forall_mem_cons.mp new
      obtain ⟨apart, onceRest⟩ := List.nodup_cons.mp once
      obtain ⟨step, moved⟩ := loaded.step mirrors here newHere
      obtain ⟨final, same⟩ := ih step presentRest onceRest fun other member => by
        rintro (_ | ⟨_, earlier⟩)
        · exact apart member
        · exact newRest other member earlier
      refine ⟨by simpa using final, ?_⟩
      rw [List.foldl_cons, same, orderOf_cons]
      split
      · rename_i known
        obtain ⟨file, member, rfl⟩ := known
        obtain ⟨table, found, info⟩ := mirrors.held file member
        have placed : table ∈ (m.plain tables).level 0 := by
          rw [level_plain]
          refine List.mem_map.mpr ⟨file, mirrors.mem_level member, ?_⟩
          rw [tableOf, found, Option.getD_some]
        have first : (m.plain tables).listed (numberOf file.filename :: m.orderOf rest) =
            (0, table) :: (m.plain tables).listed (m.orderOf rest) := by
          rw [SSTableManager.listed, List.filterMap_cons, mirrors.numberOf_filename member, ← info,
            mirrors.flat.find_file placed]
          rfl
        rw [first, List.foldl_cons, SSTableManager.loadFile]
        rcases moved with ⟨fails, stays⟩ | ⟨table', found', passes, registered⟩
        · rw [if_neg (fails table found), stays]
        · obtain rfl : table = table' := Option.some.inj (found.symm.trans found')
          rw [if_pos passes, registered]
          rfl
      · rename_i unknown
        rcases moved with ⟨-, stays⟩ | ⟨table, found, passes, -⟩
        · rw [stays]
        · exact absurd (mirrors.complete filename table found passes) unknown

theorem Mirrors.load (mirrors : Mirrors cmp path m directory tables) {listing : List (List Char)}
    (once : listing.Nodup) (whole : ∀ filename, filename ∈ listing ↔ (directory filename).isSome) :
    Mirrors cmp path (loadExistingSSTables cmp path directory listing) directory tables ∧
      (loadExistingSSTables cmp path directory listing).plain tables =
        (m.plain tables).loadExistingSSTables cmp (m.orderOf listing) := by
  obtain ⟨loaded, same⟩ := Loaded.fold mirrors (loaded_start tables)
    (fun filename member => (whole filename).mp member) once (fun _ _ => List.not_mem_nil)
  have result : loadExistingSSTables cmp path directory listing =
      (listing.foldl (loadFile cmp path directory) {}).manager := by
    unfold loadExistingSSTables
    dsimp only
    split
    · rw [Nat.mod_eq_of_lt loaded.small, ← loaded.next]
    · rfl
  rw [result]
  refine ⟨{ loaded.toRegistered, mirrors with complete := fun filename table found passes => ?_ }, same⟩
  have holds := mirrors.holds filename
  refine loaded.complete filename ?_ table found passes
  rw [List.append_nil, List.mem_reverse, whole]
  cases stored : directory filename with
  | none =>
      rw [stored, Option.mem_def.mp found] at holds
      cases holds
  | some content => rfl

end FileManager
end TableFile

/-! ## Memory -/

namespace LSMTree
variable {cmp : Comparator} (options : LSMTreeOptions) (t : LSMTree cmp) (m : SSTableManager)

theorem switchMemTable_files : ({ t with sstables := m } : LSMTree cmp).switchMemTable options =
    (t.switchMemTable options).map fun t => { t with sstables := m } := by
  unfold switchMemTable
  split <;> rfl

theorem addEntry_files (type : ValueType) (key : Key) (value : Value) (sequence : Nat) :
    ({ t with sstables := m } : LSMTree cmp).addEntry options type key value sequence =
      ((t.addEntry options type key value sequence).1,
        { (t.addEntry options type key value sequence).2 with sstables := m }) := by
  unfold addEntry
  dsimp only
  cases t.mutableMemTable.add options.memtable type key value sequence <;> rfl

theorem writeLocked_files (type : ValueType) (key : Key) (value : Value) (sequence : Nat) :
    ({ t with sstables := m } : LSMTree cmp).writeLocked options type key value sequence =
      ((t.writeLocked options type key value sequence).1,
        { (t.writeLocked options type key value sequence).2 with sstables := m }) := by
  unfold writeLocked
  by_cases own : sequence = 0
  · simp only [own, if_true]
    by_cases full : t.mutableMemTable.shouldFlush options.memtable
    · have switched := switchMemTable_files options { t with nextSequenceNumber := t.nextSequenceNumber + 1 } m
      simp only [full, if_true, switched]
      cases switchMemTable options { t with nextSequenceNumber := t.nextSequenceNumber + 1 } with
      | error status => rfl
      | ok v => exact addEntry_files options v m type key value t.nextSequenceNumber
    · simp only [full]
      exact addEntry_files options { t with nextSequenceNumber := t.nextSequenceNumber + 1 } m type key value _
  · simp only [own, if_false]
    by_cases full : t.mutableMemTable.shouldFlush options.memtable
    · simp only [full, if_true, switchMemTable_files options t m]
      cases t.switchMemTable options with
      | error status => rfl
      | ok v => exact addEntry_files options v m type key value sequence
    · simp only [full]
      exact addEntry_files options t m type key value sequence

end LSMTree

/-! ## Steps -/

namespace TableFile
open Simulations

namespace DiskTree
variable {cmp : Comparator} {path : List Char → Bytes} {options : LSMTreeOptions} {d : DiskTree cmp}
  {tables : List Char → Option SSTable}

def toTree (d : DiskTree cmp) (tables : List Char → Option SSTable) : LSMTree cmp :=
  { d.memory with sstables := d.sstables.plain tables }

def Mirrored (path : List Char → Bytes) (d : DiskTree cmp) (t : LSMTree cmp) : Prop :=
  ∃ tables, FileManager.Mirrors cmp path d.sstables d.directory tables ∧ t = d.toTree tables

theorem mirrored_new (path : List Char → Bytes) (options : LSMTreeOptions) :
    Mirrored path (new options : DiskTree cmp) (.new options) :=
  ⟨fun _ => none, FileManager.mirrors_new, rfl⟩

theorem get_toTree (mirrors : FileManager.Mirrors cmp path d.sstables d.directory tables) (key : Key)
    (snapshot : Nat) (value : Value) :
    d.get path key snapshot value = (d.toTree tables).get key snapshot value := by
  unfold get LSMTree.get
  have same (value : Value) : d.sstables.get cmp path d.directory key snapshot value =
      (d.toTree tables).sstables.get cmp key snapshot value := FileManager.get_plain mirrors key snapshot value
  simp only [same]
  rfl

theorem writesStopped_toTree : (d.toTree tables).writesStopped options = d.writesStopped options := by
  unfold LSMTree.writesStopped writesStopped
  have level := congrArg List.length (@FileManager.level_plain tables d.sstables 0)
  rw [List.length_map] at level
  rw [← level]
  rfl

theorem mirrored_write {t : LSMTree cmp} (mirrored : Mirrored path d t) (type : ValueType) (key : Key)
    (value : Value) (sequence : Nat) :
    (d.write options type key value sequence).1 = (t.write options type key value sequence).1 ∧
      Mirrored path (d.write options type key value sequence).2 (t.write options type key value sequence).2 := by
  obtain ⟨tables, mirrors, rfl⟩ := mirrored
  have locked : (d.toTree tables).writeLocked options type key value sequence = _ :=
    LSMTree.writeLocked_files options d.memory (d.sstables.plain tables) type key value sequence
  unfold write LSMTree.write
  rw [writesStopped_toTree]
  split
  · exact ⟨rfl, tables, mirrors, rfl⟩
  · rw [locked]
    exact ⟨rfl, tables, mirrors, rfl⟩

theorem mirrored_switch {t : LSMTree cmp} (mirrored : Mirrored path d t) :
    (∃ t', t.switchMemTable options = .ok t' ∧ (d.switchMemTable options).1 = .ok ∧
        Mirrored path (d.switchMemTable options).2 t') ∨
      t.switchMemTable options = .error (d.switchMemTable options).1 ∧ (d.switchMemTable options).2 = d := by
  obtain ⟨tables, mirrors, rfl⟩ := mirrored
  have switched : (d.toTree tables).switchMemTable options = _ :=
    LSMTree.switchMemTable_files options d.memory (d.sstables.plain tables)
  unfold switchMemTable
  rw [switched]
  cases d.memory.switchMemTable options with
  | error status => exact .inr ⟨rfl, rfl⟩
  | ok u => exact .inl ⟨_, rfl, rfl, tables, mirrors, rfl⟩

theorem mirrored_doFlush (defaults : options.writer = {}) {t : LSMTree cmp} (mirrored : Mirrored path d t)
    {mem : MemTable cmp} {io : FlushIO} (fits : d.Fits path mem io) :
    ∃ sstables, Mirrored path (d.doFlushMemTable path mem io).2 { t with sstables := sstables } ∧
      (LSMTree.doFlushMemTable options t.sstables mem = ((d.doFlushMemTable path mem io).1, sstables) ∨
        ¬ mem.isEmpty ∧ (d.doFlushMemTable path mem io).1.code = .ioError ∧
          { t with sstables := sstables } = t.skipFile) := by
  obtain ⟨tables, mirrors, rfl⟩ := mirrored
  obtain ⟨counted, small, unreadable⟩ := fits
  unfold doFlushMemTable LSMTree.doFlushMemTable
  by_cases empty : mem.isEmpty
  · rw [if_pos empty, if_pos empty]
    exact ⟨d.sstables.plain tables, ⟨tables, mirrors, rfl⟩, .inl rfl⟩
  · obtain ⟨tables', after, flushed⟩ := mirrors.flush mem io counted small unreadable
    rw [if_neg empty, if_neg empty, defaults]
    refine ⟨_, ⟨tables', after, rfl⟩, ?_⟩
    rcases flushed with same | ⟨failed, skipped⟩
    · exact .inl same
    · refine .inr ⟨empty, failed, ?_⟩
      dsimp only
      rw [skipped]
      rfl

theorem Mirrored.setImmutables {t : LSMTree cmp} (mirrored : Mirrored path d t) (rest : List (MemTable cmp)) :
    Mirrored path { d with immutables := rest } { t with immutables := rest } := by
  obtain ⟨tables, mirrors, rfl⟩ := mirrored
  exact ⟨tables, mirrors, rfl⟩

theorem mirrored_flushOldest (defaults : options.writer = {}) {t : LSMTree cmp} (mirrored : Mirrored path d t)
    {io : FlushIO} (fits : ∀ mem ∈ d.immutables.head?, d.Fits path mem io) :
    ∃ t', LSMTree.Steps options t (.flushOldestMemTable io, .done (d.flushOldestMemTable path io).1) t' ∧
      Mirrored path (d.flushOldestMemTable path io).2 t' := by
  have oldest : t.immutables = d.immutables := by
    obtain ⟨tables, mirrors, rfl⟩ := mirrored
    rfl
  have step : LSMTree.Steps options t _ _ := .flushOldestMemTable t io
  unfold LSMTree.flushOldestMemTable at step
  unfold flushOldestMemTable
  cases waiting : d.immutables with
  | nil =>
      rw [oldest, waiting] at step
      exact ⟨t, step, mirrored⟩
  | cons mem rest =>
      rw [oldest, waiting] at step
      obtain ⟨sstables, after, flushed | ⟨filled, failed, skipped⟩⟩ :=
        mirrored_doFlush defaults mirrored (fits mem (by simp [waiting]))
      · dsimp only at step ⊢
        rw [flushed] at step
        dsimp only at step
        split at step
        · rename_i fine
          rw [if_pos fine]
          exact ⟨_, step, after.setImmutables rest⟩
        · rename_i bad
          rw [if_neg bad]
          rw [oldest.trans waiting] at after
          exact ⟨_, step, after⟩
      · have bad : ¬ (d.doFlushMemTable path mem io).1.isOk := by simp [Status.isOk, failed]
        dsimp only
        rw [if_neg bad]
        exact ⟨t.skipFile, .flushFails io (oldest.trans waiting) filled failed, skipped ▸ after⟩

theorem finishRecovery_eq (sstables : SSTableManager) (mem : MemTable cmp) :
    LSMTree.finishRecovery options sstables mem = LSMTree.doFlushMemTable options sstables mem := rfl

/-- Every step on the disk is a step on the tables with the same answer. -/
theorem simulates_tables (path : List Char → Bytes) (defaults : options.writer = {}) :
    Simulates (Steps path options : DiskTree cmp → _) (LSMTree.Steps options) (Mirrored path) := by
  intro d t event d' mirrored stepped
  obtain ⟨action, answer⟩ := event
  obtain ⟨careful, stepped⟩ := stepped
  cases action with
  | write type key value sequence =>
      obtain ⟨rfl, rfl⟩ := Prod.mk.inj stepped
      obtain ⟨same, after⟩ := @mirrored_write cmp path options d t mirrored type key value sequence
      exact ⟨_, same ▸ .write t type key value sequence, after⟩
  | switchMemTable =>
      obtain ⟨rfl, rfl⟩ := Prod.mk.inj stepped
      rcases @mirrored_switch cmp path options d t mirrored with ⟨t', switched, done, after⟩ | ⟨refused, same⟩
      · have step := LSMTree.Steps.switchMemTable switched
        rw [← done] at step
        exact ⟨t', step, after⟩
      · exact ⟨t, .stay refused, same.symm ▸ mirrored⟩
  | flushOldestMemTable io =>
      obtain ⟨rfl, rfl⟩ := Prod.mk.inj stepped
      obtain ⟨t', step, after⟩ := @mirrored_flushOldest cmp path options d defaults t mirrored io careful
      exact ⟨t', step, after⟩
  | finishRecovery mem io =>
      obtain ⟨rfl, rfl⟩ := Prod.mk.inj stepped
      obtain ⟨sstables, after, flushed | ⟨filled, failed, skipped⟩⟩ :=
        mirrored_doFlush defaults mirrored careful
      · have step : LSMTree.Steps options t _ _ := .finishRecovery t mem io
        rw [finishRecovery_eq, flushed] at step
        exact ⟨_, step, after⟩
      · exact ⟨t.skipFile, .recoveryFails t io filled failed, skipped ▸ after⟩
  | reopen listing =>
      obtain ⟨rfl, rfl⟩ := Prod.mk.inj stepped
      obtain ⟨tables, mirrors, rfl⟩ := mirrored
      obtain ⟨once, whole⟩ := careful
      obtain ⟨loaded, same⟩ := mirrors.load once whole
      exact ⟨_, .reopen _ listing (mirrors.orderOf_perm once whole), tables, loaded,
        congrArg (LSMTree.reopened options) same.symm⟩
  | get key snapshot value =>
      obtain ⟨rfl, rfl⟩ := Prod.mk.inj stepped
      obtain ⟨tables, mirrors, rfl⟩ := mirrored
      rw [get_toTree mirrors]
      exact ⟨_, .get _ key snapshot value, tables, mirrors, rfl⟩

/-- Whatever a tree does on the disk, its statuses and its reads are those of a tree that keeps tables in
place of the bytes, in which a flush may fail with an I/O error. -/
theorem answers_of_tables (path : List Char → Bytes) (options : LSMTreeOptions)
    (defaults : options.writer = {}) {events : List (DiskAction cmp × DiskAnswer)} {d : DiskTree cmp}
    (run : Trace (Steps path options) (.new options) events d) :
    ∃ t, Trace (LSMTree.Steps options) (.new options) events t ∧
      ∀ key snapshot value, d.get path key snapshot value = t.get key snapshot value := by
  obtain ⟨t, follows, tables, mirrors, rfl⟩ :=
    (simulates_tables path defaults).trace run (mirrored_new path options)
  exact ⟨_, follows, get_toTree mirrors⟩

section OneKey

def asciiPath (filename : List Char) : Bytes := filename.map fun c => UInt8.ofNat c.toNat

def oneWaiting : DiskTree bytewiseComparator :=
  ((((new {} : DiskTree bytewiseComparator).step asciiPath {} (.write .kValue [107] [1] 1)).2).step
    asciiPath {} .switchMemTable).2

def oneStored : DiskTree bytewiseComparator := (oneWaiting.step asciiPath {} (.flushOldestMemTable {})).2

def oneReopened : DiskTree bytewiseComparator :=
  (oneStored.step asciiPath {} (.reopen [TableName.make 1 0])).2

theorem Steps.next {action : DiskAction cmp} (careful : d.Careful path action) :
    Steps path options d (action, (d.step path options action).1) (d.step path options action).2 :=
  ⟨careful, rfl⟩

theorem directory_doFlush (d : DiskTree cmp) (mem : MemTable cmp) (io : FlushIO) {filename : List Char}
    (other : filename ≠ TableName.make d.sstables.nextFileNumber 0) :
    (d.doFlushMemTable path mem io).2.directory filename = d.directory filename := by
  unfold doFlushMemTable
  split
  · rfl
  · dsimp only
    unfold FileManager.flushMemTableToSSTable
    dsimp only
    split
    · rfl
    · exact Function.update_of_ne other ..
    · split <;> exact Function.update_of_ne other ..

theorem step_flushOldest (d : DiskTree cmp) (io : FlushIO) :
    (d.step path options (.flushOldestMemTable io)).2 = (d.flushOldestMemTable path io).2 := rfl

theorem directory_flushOldest (d : DiskTree cmp) (io : FlushIO) {filename : List Char}
    (other : filename ≠ TableName.make d.sstables.nextFileNumber 0) :
    (d.flushOldestMemTable path io).2.directory filename = d.directory filename := by
  unfold flushOldestMemTable
  split
  · rfl
  · rename_i mem rest waiting
    dsimp only
    split <;> exact directory_doFlush d mem io other

theorem directory_write (d : DiskTree cmp) (type : ValueType) (key : Key) (value : Value) (sequence : Nat) :
    (d.step path options (.write type key value sequence)).2.directory = d.directory := by
  change (d.write options type key value sequence).2.directory = d.directory
  unfold write
  split <;> rfl

theorem directory_switch (d : DiskTree cmp) :
    (d.step path options .switchMemTable).2.directory = d.directory := by
  change (d.switchMemTable options).2.directory = d.directory
  unfold switchMemTable
  split <;> rfl

theorem fits_oneWaiting : oneWaiting.Careful asciiPath (.flushOldestMemTable {}) := by
  intro mem oldest
  have small : oneWaiting.immutables.head?.all fun mem =>
      match writeTable bytewiseComparator.compare (asciiPath (TableName.make
          oneWaiting.sstables.nextFileNumber 0)) {} mem.entries with
      | .finished writer => writer.file.length < uint32Limit
      | _ => true := by decide +kernel
  refine ⟨by decide +kernel, fun writer written => ?_, fun content given => ?_⟩
  · rw [Option.mem_def.mp oldest] at small
    simpa [written] using small
  · cases given

theorem lists_oneStored : oneStored.Lists [TableName.make 1 0] := by
  refine ⟨List.nodup_singleton _, fun filename => ?_⟩
  rw [List.mem_singleton]
  constructor
  · rintro rfl
    decide +kernel
  · intro stored
    by_contra other
    have number : oneWaiting.sstables.nextFileNumber = 1 := by decide +kernel
    have flushed : oneStored = (oneWaiting.flushOldestMemTable asciiPath {}).2 := step_flushOldest ..
    have unseen : oneStored.directory filename = oneWaiting.directory filename := by
      rw [flushed]
      exact directory_flushOldest oneWaiting {} (by rwa [number])
    have empty : oneWaiting.directory = fun _ => none :=
      (directory_switch _).trans (directory_write ..)
    rw [unseen, empty] at stored
    cases stored

theorem answers_of_tables_oneReopened : ∃ events t,
    Trace (LSMTree.Steps {}) (.new {} : LSMTree bytewiseComparator) events t ∧
      events.map Prod.fst = [.write .kValue [107] [1] 1, .switchMemTable, .flushOldestMemTable {},
        .reopen [TableName.make 1 0]] ∧
      oneReopened.get asciiPath [107] 0 [] = ⟨.ok, [1]⟩ ∧ t.get [107] 0 [] = ⟨.ok, [1]⟩ := by
  let start : DiskTree bytewiseComparator := new {}
  have written : start.Careful asciiPath (.write .kValue [107] [1] 1) := trivial
  have switched : (start.step asciiPath {} (.write .kValue [107] [1] 1)).2.Careful asciiPath
      .switchMemTable := trivial
  have listed : oneStored.Careful asciiPath (.reopen [TableName.make 1 0]) := lists_oneStored
  have run : Trace (Steps asciiPath {}) start _ oneReopened :=
    .cons (Steps.next written) (.cons (Steps.next switched) (.cons (Steps.next fits_oneWaiting)
      (.cons (Steps.next listed) (.nil _))))
  obtain ⟨t, follows, same⟩ := answers_of_tables asciiPath {} rfl run
  have read : oneReopened.get asciiPath [107] 0 [] = ⟨.ok, [1]⟩ := by decide +kernel
  exact ⟨_, t, follows, rfl, read, (same [107] 0 []).symm.trans read⟩

end OneKey

end DiskTree
end TableFile
end Lrdb
