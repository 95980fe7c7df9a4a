import Lrdb.Storage.DiskTree
import Lrdb.Storage.FlatFiles

namespace Lrdb
namespace TableFile
open Parsing

/-! ## I/O errors -/

def IOFails {α : Type} (result : Except Status α) : Prop :=
  ∀ status, result = .error status → status.code = .ioError

section IOFails
variable {α β : Type}

theorem ioFails_ok (a : α) : IOFails (.ok a) := by
  intro status failed
  cases failed

theorem IOFails.bind {first : Except Status α} {next : α → Except Status β} (fails : IOFails first)
    (later : ∀ a, first = .ok a → IOFails (next a)) : IOFails (first >>= next) := by
  intro status failed
  cases result : first with
  | error status' =>
      rw [result] at failed
      obtain rfl := Except.error.inj failed
      exact fails _ result
  | ok a =>
      rw [result] at failed
      exact later a result status failed

theorem ioFails_append (file data : Bytes) : IOFails (append file data) := by
  intro status failed
  unfold append at failed
  split at failed <;> cases failed
  rfl

namespace SSTableWriter
variable {order : Bytes → Bytes → Ordering} {w w' : SSTableWriter} {v v' : Lrdb.SSTableWriter} {cmp : Comparator}
  {options : Lrdb.SSTableWriterOptions}

theorem ioFails_writeBlock (file : Bytes) (type : BlockType) (data : Bytes) :
    IOFails (writeBlock file type data) :=
  (ioFails_append _ _).bind fun _ _ => ioFails_append _ _

theorem ioFails_writeDataBlock (w : SSTableWriter) : IOFails w.writeDataBlock := by
  unfold writeDataBlock
  split
  · exact ioFails_ok _
  · exact (ioFails_writeBlock _ _ _).bind fun _ _ => ioFails_ok _

theorem ioFails_cutBlock (w : SSTableWriter) : IOFails w.cutBlock := by
  unfold cutBlock
  split
  · exact ioFails_writeDataBlock w
  · exact ioFails_ok _

theorem ioFails_writeTail (w : SSTableWriter) (type : BlockType) (data : Bytes)
    (setHandle : BlockHandle → Footer → Footer) : IOFails (w.writeTail type data setHandle) :=
  (ioFails_writeBlock _ _ _).bind fun _ _ => ioFails_ok _

theorem ioFails_finish {closing : Status} (unfinished : w.finished = false)
    (closes : closing.code = .ok ∨ closing.code = .ioError) : IOFails (w.finish closing) := by
  unfold finish
  rw [unfinished, if_neg Bool.false_ne_true]
  refine (ioFails_writeDataBlock _).bind fun data _ => IOFails.bind ?_ fun index _ =>
    IOFails.bind ?_ fun bloom _ => (ioFails_writeTail _ _ _ _).bind fun last _ =>
      (ioFails_append _ _).bind fun file _ => ?_
  · unfold writeIndexBlock
    split
    · exact ioFails_ok _
    · exact ioFails_writeTail _ _ _ _
  · unfold writeBloomFilterBlock
    split
    · split
      · exact ioFails_ok _
      · exact ioFails_writeTail _ _ _ _
    · exact ioFails_ok _
  · dsimp only
    split
    · exact ioFails_ok _
    · rename_i failed
      intro status same
      obtain rfl := Except.error.inj same
      exact closes.resolve_left fun fine => failed (by simp [Status.isOk, fine])

structure SameLast (w : SSTableWriter) (v : Lrdb.SSTableWriter) : Prop where
  unfinished : w.finished = false
  last : w.lastKey = (v.lastKey.map InternalKey.encode).getD []

theorem finished_writeDataBlock (success : w.writeDataBlock = .ok w') : w'.finished = w.finished := by
  unfold SSTableWriter.writeDataBlock at success
  split at success
  · obtain rfl := Except.ok.inj success
    rfl
  · obtain ⟨file, -, same⟩ := ok_of_bind success
    obtain rfl := Except.ok.inj same
    rfl

theorem finished_cutBlock (success : w.cutBlock = .ok w') : w'.finished = w.finished := by
  unfold SSTableWriter.cutBlock at success
  split at success
  · exact finished_writeDataBlock success
  · obtain rfl := Except.ok.inj success
    rfl

theorem finished_store (w : SSTableWriter) (key value : Bytes) :
    (w.store key value).finished = w.finished := by
  simp only [SSTableWriter.store, startBlock]
  split <;> rfl

theorem SameLast.refuses_iff (same : SameLast w v) (e : Entry) :
    (¬ w.lastKey.isEmpty ∧ cmp.compare w.lastKey e.1.encode ≠ .lt) ↔
      ∃ last ∈ v.lastKey, cmp.compare last.encode e.1.encode ≠ .lt := by
  rw [same.last]
  cases v.lastKey with
  | none => simp
  | some last =>
      have filled : last.encode ≠ [] := by
        intro none
        have length := last.length_encode
        rw [none] at length
        cases length
      simp [filled]

theorem SameLast.add (same : SameLast w v) (e : Entry) :
    match w.add cmp.compare e.1.encode e.2 with
    | .error status => status.code = .ioError ∨ v.add cmp options e = .error status
    | .ok w' => ∃ v', v.add cmp options e = .ok v' ∧ SameLast w' v' := by
  unfold SSTableWriter.add Lrdb.SSTableWriter.add
  rw [same.unfinished, if_neg Bool.false_ne_true]
  by_cases refused : ∃ last ∈ v.lastKey, cmp.compare last.encode e.1.encode ≠ .lt
  · rw [if_pos (same.refuses_iff e |>.mpr refused), if_pos refused]
    exact .inr rfl
  · rw [if_neg (fun both => refused ((same.refuses_iff e).mp both)), if_neg refused]
    cases cut : w.cutBlock with
    | error status => exact .inl (ioFails_cutBlock w status cut)
    | ok middle =>
        refine ⟨_, rfl, (finished_store ..).trans ((finished_cutBlock cut).trans same.unfinished), ?_⟩
        simp [SSTableWriter.store, Lrdb.SSTableWriter.append]

theorem SameLast.addAll (same : SameLast w v) (entries : List Entry) :
    match w.addAll cmp.compare (entries.map stored) with
    | .error status => status.code = .ioError ∨ v.addAll cmp options entries = .error status
    | .ok w' => w'.finished = false := by
  induction entries generalizing w v with
  | nil => exact same.unfinished
  | cons e rest ih =>
      have here := @SameLast.add w v cmp options same e
      rw [List.map_cons, stored, SSTableWriter.addAll, Lrdb.SSTableWriter.addAll]
      cases added : w.add cmp.compare e.1.encode e.2 with
      | error status =>
          rw [added] at here
          rcases here with failed | refused
          · exact .inl failed
          · rw [refused]
            exact .inr rfl
      | ok middle =>
          rw [added] at here
          obtain ⟨v', taken, same'⟩ := here
          rw [taken]
          exact ih same'

end SSTableWriter
end IOFails

theorem writeTable_spec (cmp : Comparator) (filename name : Bytes) (io : FlushIO) (entries : List Entry)
    (fileNumber : Nat) : match writeTable cmp.compare filename io entries with
    | .notCreated status => status.code = .ioError
    | .abandoned status => status.code = .ioError ∨ flushEntries cmp {} entries fileNumber = .error status
    | .finished writer => writer.file.length < uint32Limit →
        ∃ table, flushEntries cmp {} entries fileNumber = .ok table ∧ Image cmp name writer.file table ∧
          table.info = ⟨fileNumber, writer.info.smallestKey, writer.info.largestKey⟩ := by
  have fails {status : Status} (member : status ∈ [io.creating, io.adding, io.closing])
      (failed : ¬ status.isOk) : status.code = .ioError :=
    (io.failures status member).resolve_left fun fine => failed (by simp [Status.isOk, fine])
  unfold writeTable
  by_cases creates : io.creating.isOk
  case neg =>
    rw [if_pos creates]
    exact fails (by simp) creates
  rw [if_neg (not_not.mpr creates)]
  cases opened : SSTableWriter.openFile {} filename io.now with
  | error status =>
      unfold SSTableWriter.openFile at opened
      split at opened <;> cases opened
      rfl
  | ok start =>
      dsimp only
      by_cases adding : io.adding.isOk
      case neg =>
        rw [if_pos adding]
        exact .inl (fails (by simp) adding)
      rw [if_neg (not_not.mpr adding)]
      have same : SSTableWriter.SameLast start {} := by
        unfold SSTableWriter.openFile at opened
        split at opened <;> cases opened
        exact ⟨rfl, rfl⟩
      have both := @SSTableWriter.SameLast.addAll start {} cmp {} same (sortedEntries entries)
      cases adds : start.addAll cmp.compare ((sortedEntries entries).map stored) with
      | error status =>
          rw [adds] at both
          refine both.imp_right fun refused => ?_
          rw [flushEntries, refused]
          rfl
      | ok added =>
          rw [adds] at both
          dsimp only
          cases finishes : added.finish io.closing with
          | error status =>
              exact .inl (SSTableWriter.ioFails_finish both (io.failures _ (by simp)) status finishes)
          | ok finished =>
              exact fun small => SSTableWriter.image_of_finish small opened adds finishes name fileNumber

/-! ## The tables of a directory -/

def Holds (cmp : Comparator) (name : Bytes) : Option Bytes → Option SSTable → Prop
  | none, none => True
  | some content, some table => Image cmp name content table
  | some content, none => ∀ reader, SSTableReader.openFile cmp.compare name content ≠ .ok reader
  | none, some _ => False

namespace FileManager

def tableOf (tables : List Char → Option SSTable) (file : FileMeta) : SSTable :=
  (tables file.filename).getD ⟨file.info, [], none⟩

def plain (m : FileManager) (tables : List Char → Option SSTable) : SSTableManager :=
  ⟨m.levelFiles.map fun files => files.map (tableOf tables), m.nextFileNumber⟩

structure Registered (m : FileManager) (tables : List Char → Option SSTable) : Prop where
  named : ∀ file ∈ m.levelFiles.flatten, file.filename = TableName.make file.info.fileNumber 0
  behind : ∀ file ∈ m.levelFiles.flatten, file.info.fileNumber < m.nextFileNumber
  held : ∀ file ∈ m.levelFiles.flatten, ∃ table, tables file.filename = some table ∧ table.info = file.info
  flat : (m.plain tables).Flat

variable {cmp : Comparator} {m m' : FileManager} {tables : List Char → Option SSTable}

theorem Registered.info_tableOf (registered : m.Registered tables) {file : FileMeta}
    (member : file ∈ m.levelFiles.flatten) : (tableOf tables file).info = file.info := by
  obtain ⟨table, here, same⟩ := registered.held file member
  rw [tableOf, here]
  exact same

theorem mem_flatten_plain {table : SSTable} : table ∈ (m.plain tables).levelFiles.flatten ↔
    ∃ file ∈ m.levelFiles.flatten, tableOf tables file = table := by
  rw [plain, ← List.map_flatten, List.mem_map]

theorem level_plain (m : FileManager) (i : Nat) :
    (m.plain tables).level i = (m.level i).map (tableOf tables) :=
  List.getD_map _ [] (List.map (tableOf tables))

theorem mem_flatten_of_level {i : Nat} {file : FileMeta} (member : file ∈ m.level i) :
    file ∈ m.levelFiles.flatten := by
  rw [level, List.getD_eq_getElem?_getD] at member
  cases found : m.levelFiles[i]? with
  | none => simp [found] at member
  | some files =>
      rw [found] at member
      exact List.mem_flatten.mpr ⟨files, List.mem_of_getElem? found, member⟩

theorem registerSSTable_plain (registered : m.Registered tables) {file : FileMeta}
    (named : file.filename ≠ []) (info : (tableOf tables file).info = file.info) :
    (m.registerSSTable cmp file).map (fun m => m.plain tables) =
      (m.plain tables).registerSSTable cmp file.level (tableOf tables file) := by
  have known : (∃ other ∈ m.levelFiles.flatten, other.info.fileNumber = file.info.fileNumber) ↔
      ∃ other ∈ (m.plain tables).levelFiles.flatten, other.info.fileNumber = file.info.fileNumber := by
    simp only [mem_flatten_plain, exists_exists_and_eq_and]
    exact exists_congr fun other => and_congr_right fun member => by
      rw [registered.info_tableOf member]
  have length : (m.plain tables).levelFiles.length = m.levelFiles.length := List.length_map ..
  have inserted : ((m.level file.level).orderedInsert (CachingManager.SmallestLE cmp) file).map
      (tableOf tables) = ((m.plain tables).level file.level).orderedInsert
        (SSTableManager.SmallestLE cmp) (tableOf tables file) := by
    rw [level_plain]
    have agree {other : FileMeta} (member : other ∈ m.level file.level) :
        (tableOf tables other).info = other.info := registered.info_tableOf (mem_flatten_of_level member)
    apply List.map_orderedInsert <;> intro other member <;>
      rw [CachingManager.SmallestLE, SSTableManager.SmallestLE, agree member, info]
  unfold registerSSTable SSTableManager.registerSSTable
  rw [if_neg named, length, info]
  split
  · rfl
  split
  · rfl
  simp only [← known]
  split
  · rfl
  · simp only [Except.map, plain, List.map_set, inserted]
    rfl

theorem registerSSTable_ok {file : FileMeta} (success : m.registerSSTable cmp file = .ok m') :
    (∀ other, other ∈ m'.levelFiles.flatten → other ∈ m.levelFiles.flatten ∨ other = file) ∧
      (∀ other ∈ m.levelFiles.flatten, other ∈ m'.levelFiles.flatten) ∧
      file ∈ m'.levelFiles.flatten ∧ m'.nextFileNumber = max m.nextFileNumber (file.info.fileNumber + 1) := by
  unfold registerSSTable at success
  split at success <;> [cases success; skip]
  split at success <;> [cases success; skip]
  split at success <;> [cases success; rename_i shallow]
  split at success <;> [cases success; skip]
  obtain rfl := Except.ok.inj success
  have bound : file.level < m.levelFiles.length := Nat.lt_of_not_le shallow
  have here : m.levelFiles[file.level] = m.level file.level := by
    rw [level, List.getD_eq_getElem _ _ bound]
  have placed := List.mem_set bound
    ((m.level file.level).orderedInsert (CachingManager.SmallestLE cmp) file)
  refine ⟨fun other member => ?_, fun other member => ?_, ?_, ?_⟩
  · obtain ⟨files, level, inside⟩ := List.mem_flatten.mp member
    rcases List.mem_or_eq_of_mem_set level with old | rfl
    · exact .inl (List.mem_flatten.mpr ⟨files, old, inside⟩)
    · rcases (List.mem_orderedInsert _).mp inside with rfl | old
      · exact .inr rfl
      · exact .inl (mem_flatten_of_level old)
  · obtain ⟨files, level, inside⟩ := List.mem_flatten.mp member
    obtain ⟨i, within, rfl⟩ := List.getElem_of_mem level
    by_cases same : i = file.level
    · subst same
      exact List.mem_flatten.mpr ⟨_, placed, (List.mem_orderedInsert _).mpr (.inr (here ▸ inside))⟩
    · refine List.mem_flatten.mpr ⟨m.levelFiles[i], List.mem_of_getElem? (i := i) ?_, inside⟩
      rw [List.getElem?_set_ne (Ne.symm same), List.getElem?_eq_getElem within]
  · exact List.mem_flatten.mpr ⟨_, placed, (List.mem_orderedInsert _).mpr (.inl rfl)⟩
  · dsimp only
    split <;> omega

theorem Registered.register (registered : m.Registered tables) {file : FileMeta}
    (named : file.filename = TableName.make file.info.fileNumber 0) (top : file.level = 0)
    (held : ∃ table, tables file.filename = some table ∧ table.info = file.info)
    (success : m.registerSSTable cmp file = .ok m') : m'.Registered tables ∧
      (m.plain tables).registerSSTable cmp 0 (tableOf tables file) = .ok (m'.plain tables) := by
  obtain ⟨table, here, info⟩ := held
  have nonempty : file.filename ≠ [] := by
    rw [named, TableName.make_eq]
    simp
  have plainly := @registerSSTable_plain cmp _ _ registered _ nonempty (by rw [tableOf, here]; exact info)
  rw [success, top] at plainly
  obtain ⟨old, -, -, next⟩ := registerSSTable_ok success
  refine ⟨⟨fun f member => ?_, fun f member => ?_, fun f member => ?_,
    (registered.flat.register plainly.symm).1⟩, plainly.symm⟩
  · rcases old f member with earlier | rfl
    · exact registered.named f earlier
    · exact named
  · rw [next]
    rcases old f member with earlier | rfl
    · exact (registered.behind f earlier).trans_le (Nat.le_max_left ..)
    · exact Nat.lt_of_lt_of_le (Nat.lt_succ_self _) (Nat.le_max_right ..)
  · rcases old f member with earlier | rfl
    · exact registered.held f earlier
    · exact ⟨table, here, info⟩

/-- The directory has the files of the tables, and the manager all that can be opened. -/
structure Mirrors (cmp : Comparator) (path : List Char → Bytes) (m : FileManager) (directory : Directory)
    (tables : List Char → Option SSTable) : Prop extends m.Registered tables where
  holds : ∀ filename, Holds cmp (path filename) (directory filename) (tables filename)
  numbered : ∀ filename, (directory filename).isSome →
    ∃ n, n + 1 < 2 ^ 64 ∧ filename = TableName.make n 0 ∧ ∀ table ∈ tables filename, table.info.fileNumber = n
  complete : ∀ filename, ∀ table ∈ tables filename, (table.readIndex cmp).isOk →
    ∃ file ∈ m.levelFiles.flatten, file.filename = filename

variable {path : List Char → Bytes} {directory : Directory}

theorem mirrors_new : Mirrors cmp path {} (fun _ => none) fun _ => none where
  named := by simp
  behind := by simp
  held := by simp
  flat := SSTableManager.flat_new
  holds _ := trivial
  numbered := by simp
  complete := by simp

theorem Mirrors.filename_ne (mirrors : Mirrors cmp path m directory tables) {file : FileMeta}
    (member : file ∈ m.levelFiles.flatten) : file.filename ≠ TableName.make m.nextFileNumber 0 := by
  intro same
  rw [mirrors.named file member] at same
  exact (mirrors.behind file member).ne (TableName.make_injective same)

theorem Registered.update (registered : m.Registered tables) {filename : List Char}
    (new : ∀ file ∈ m.levelFiles.flatten, file.filename ≠ filename) (found : Option SSTable) {next : Nat}
    (behind : m.nextFileNumber ≤ next) :
    Registered { m with nextFileNumber := next } (Function.update tables filename found) ∧
      plain { m with nextFileNumber := next } (Function.update tables filename found) =
        { m.plain tables with nextFileNumber := next } := by
  have seen : ∀ file ∈ m.levelFiles.flatten, Function.update tables filename found file.filename =
      tables file.filename := fun file member => Function.update_of_ne (new file member) ..
  have same : plain { m with nextFileNumber := next } (Function.update tables filename found) =
      { m.plain tables with nextFileNumber := next } := by
    simp only [plain, SSTableManager.mk.injEq, and_true]
    refine List.map_congr_left fun files level => List.map_congr_left fun file inside => ?_
    rw [tableOf, tableOf, seen file (List.mem_flatten.mpr ⟨files, level, inside⟩)]
  refine ⟨⟨registered.named, fun file member => (registered.behind file member).trans_le behind,
    fun file member => ?_, same ▸ registered.flat.skip next⟩, same⟩
  rw [seen file member]
  exact registered.held file member

theorem Mirrors.lose (mirrors : Mirrors cmp path m directory tables) (counted : m.nextFileNumber + 1 < 2 ^ 64)
    {content : Option Bytes} (holds : Holds cmp (path (TableName.make m.nextFileNumber 0)) content none) :
    let filename := TableName.make m.nextFileNumber 0
    Mirrors cmp path { m with nextFileNumber := m.nextFileNumber + 1 }
      (Function.update directory filename content) (Function.update tables filename none) := by
  intro filename
  have registered := (mirrors.toRegistered.update (fun _ => mirrors.filename_ne) none
    (Nat.le_succ m.nextFileNumber)).1
  refine { registered with holds := fun other => ?_, numbered := fun other some => ?_, complete := ?_ }
  · by_cases same : other = filename
    · subst same
      simpa using holds
    · simpa [Function.update_of_ne same] using mirrors.holds other
  · by_cases same : other = filename
    · subst same
      exact ⟨m.nextFileNumber, counted, rfl, by simp⟩
    · simp only [Function.update_of_ne same] at some ⊢
      exact mirrors.numbered other some
  · intro other table found opens
    by_cases same : other = filename
    · subst same
      simp at found
    · rw [Function.update_of_ne same] at found
      exact mirrors.complete other table found opens

theorem Mirrors.gain (mirrors : Mirrors cmp path m directory tables) (counted : m.nextFileNumber + 1 < 2 ^ 64)
    {content : Bytes} {table : SSTable} {file : FileMeta}
    (image : Image cmp (path (TableName.make m.nextFileNumber 0)) content table)
    (named : file.filename = TableName.make m.nextFileNumber 0) (top : file.level = 0)
    (info : table.info = file.info) (number : file.info.fileNumber = m.nextFileNumber)
    (success : registerSSTable cmp { m with nextFileNumber := m.nextFileNumber + 1 } file = .ok m') :
    Mirrors cmp path m' (Function.update directory file.filename (some content))
      (Function.update tables file.filename (some table)) := by
  have new : ∀ other ∈ m.levelFiles.flatten, other.filename ≠ file.filename := fun _ member =>
    named ▸ mirrors.filename_ne member
  obtain ⟨before, -⟩ := mirrors.toRegistered.update new (some table) (Nat.le_succ m.nextFileNumber)
  obtain ⟨-, kept, placed, -⟩ := registerSSTable_ok success
  constructor
  case toRegistered =>
    exact (before.register (number.symm ▸ named) top ⟨table, Function.update_self .., info⟩ success).1
  case holds =>
    intro filename
    by_cases same : filename = file.filename
    · subst same
      simpa [named, Holds] using image
    · simpa [Function.update_of_ne same] using mirrors.holds filename
  case numbered =>
    intro filename some
    by_cases same : filename = file.filename
    · subst same
      exact ⟨m.nextFileNumber, counted, named, by simp [info, number]⟩
    · simp only [Function.update_of_ne same] at some ⊢
      exact mirrors.numbered filename some
  case complete =>
    intro filename other' found opens
    by_cases same : filename = file.filename
    · exact ⟨file, placed, same.symm⟩
    · rw [Function.update_of_ne same] at found
      obtain ⟨f, member, named'⟩ := mirrors.complete filename other' found opens
      exact ⟨f, kept f member, named'⟩

def FlushMirrored (cmp : Comparator) (path : List Char → Bytes) (m : FileManager)
    (tables : List Char → Option SSTable) (mem : MemTable cmp) (after : Status × FileManager × Directory) :
    Prop :=
  ∃ tables', Mirrors cmp path after.2.1 after.2.2 tables' ∧
    ((m.plain tables).flushMemTableToSSTable cmp {} mem 0 = (after.1, after.2.1.plain tables') ∨
      after.1.code = .ioError ∧
        after.2.1.plain tables' = { m.plain tables with nextFileNumber := m.nextFileNumber + 1 })

theorem Mirrors.flush (mirrors : Mirrors cmp path m directory tables) (mem : MemTable cmp) (io : FlushIO)
    (counted : m.nextFileNumber + 1 < 2 ^ 64)
    (small : ∀ writer, writeTable cmp.compare (path (TableName.make m.nextFileNumber 0)) io mem.entries =
      .finished writer → writer.file.length < uint32Limit)
    (unreadable : ∀ content ∈ io.left, ∀ reader,
      SSTableReader.openFile cmp.compare (path (TableName.make m.nextFileNumber 0)) content ≠ .ok reader) :
    FlushMirrored cmp path m tables mem (m.flushMemTableToSSTable cmp path directory mem io) := by
  obtain ⟨-, skipped⟩ := mirrors.toRegistered.update (fun _ => mirrors.filename_ne) none
    (Nat.le_succ m.nextFileNumber)
  have spec := writeTable_spec cmp (path (TableName.make m.nextFileNumber 0))
    (path (TableName.make m.nextFileNumber 0)) io mem.entries m.nextFileNumber
  unfold FlushMirrored flushMemTableToSSTable SSTableManager.flushMemTableToSSTable
  dsimp only
  -- What is left of a file that was given up is no table.
  have given : Holds cmp (path (TableName.make m.nextFileNumber 0)) io.left none := by
    cases left : io.left with
    | none => trivial
    | some content => exact unreadable content left
  have lost := mirrors.lose counted given
  cases written : writeTable cmp.compare (path (TableName.make m.nextFileNumber 0)) io mem.entries with
  | notCreated status =>
      rw [written] at spec
      have kept : Mirrors cmp path { m with nextFileNumber := m.nextFileNumber + 1 } directory tables :=
        { mirrors with
          behind := fun file member => (mirrors.behind file member).trans (Nat.lt_succ_self _)
          flat := mirrors.flat.skip _ }
      exact ⟨tables, kept, .inr ⟨spec, rfl⟩⟩
  | abandoned status =>
      rw [written] at spec
      refine ⟨_, lost, ?_⟩
      rcases spec with failed | refused
      · exact .inr ⟨failed, skipped⟩
      · have refused : flushEntries cmp {} mem.entries (m.plain tables).nextFileNumber = .error status :=
          refused
        rw [refused]
        exact .inl (congrArg (Prod.mk status) skipped.symm)
  | finished writer =>
      rw [written] at spec
      obtain ⟨table, flushed, image, info⟩ := spec (small writer written)
      obtain ⟨before, same⟩ := mirrors.toRegistered.update (fun _ => mirrors.filename_ne) (some table)
        (Nat.le_succ m.nextFileNumber)
      have nonempty : TableName.make m.nextFileNumber 0 ≠ [] := by simp [TableName.make_eq]
      have plainly := @registerSSTable_plain cmp _ _ before
        ⟨TableName.make m.nextFileNumber 0, 0, m.nextFileNumber, writer.info.smallestKey,
          writer.info.largestKey⟩ nonempty (by simpa [tableOf] using info)
      rw [same, tableOf, Function.update_self, Option.getD_some] at plainly
      have flushed : flushEntries cmp {} mem.entries (m.plain tables).nextFileNumber = .ok table := flushed
      have plainly : SSTableManager.registerSSTable cmp
          { m.plain tables with nextFileNumber := (m.plain tables).nextFileNumber + 1 } 0 table = _ :=
        plainly.symm
      rw [flushed]
      dsimp only
      rw [plainly]
      cases registered : registerSSTable cmp { m with nextFileNumber := m.nextFileNumber + 1 }
          ⟨TableName.make m.nextFileNumber 0, 0, m.nextFileNumber, writer.info.smallestKey,
            writer.info.largestKey⟩ with
      | error status => exact ⟨_, lost, .inl (congrArg (Prod.mk status) skipped.symm)⟩
      | ok m' => exact ⟨_, mirrors.gain counted image rfl rfl info rfl registered, .inl rfl⟩

end FileManager

end TableFile
end Lrdb
