import Lrdb.Storage.TreeIterator
import Lrdb.Storage.MergeComplete

/-!
# Compacting a level

The output of a merge comes with the file number zero, and no such file can be registered. So every
compaction of a level with files fails, before any input is given up.
-/

namespace Lrdb
open Versions

/-- The options of the tree that decide on compactions, as `ValidateOptions` lets them pass. -/
structure CompactionTriggers where
  l0CompactionTrigger : Nat := 4
  levelMultiplier : Nat := 10
  maxBytesForLevelBase : Nat := 256 * 1024 * 1024
  enableAutoCompaction : Bool := true
  triggerPositive : 0 < l0CompactionTrigger := by decide

namespace SSTableManager

def generateFileName (directory : List Char) (fileNumber level : Nat) : List Char :=
  directory ++ "/sst_".toList ++ Nat.toDigits 10 fileNumber ++ "_L".toList ++ Nat.toDigits 10 level ++
    ".sst".toList

def unregisterSSTable (m : SSTableManager) (fileNumber : Nat) : Except Status SSTableManager :=
  if ∃ file ∈ m.levelFiles.flatten, file.info.fileNumber = fileNumber then .ok
    { m with levelFiles := m.levelFiles.map fun files => files.filter fun file =>
        file.info.fileNumber ≠ fileNumber }
  else .error (.notFound "SSTable file not found")

/-- `DeleteObsoleteFiles`: a number that is not registered is passed over. -/
def deleteObsoleteFiles (m : SSTableManager) (fileNumbers : List Nat) : SSTableManager :=
  fileNumbers.foldl (fun m fileNumber => (m.unregisterSSTable fileNumber).toOption.getD m) m

def registerTables (cmp : Comparator) (m : SSTableManager) : List (SSTable × Nat) →
    Status × SSTableManager
  | [] => (.ok, m)
  | (table, level) :: rest =>
      match m.registerSSTable cmp level table with
      | .error status => (status, m)
      | .ok m => registerTables cmp m rest

/-- No output has a file number; for one with stray records that is all that is looked at. -/
def registerOutputs (cmp : Comparator) (m : SSTableManager) (result : CompactionResult) :
    Status × SSTableManager :=
  if result.strayOutputs = [] then m.registerTables cmp result.outputs
  else (.invalidArgument "Invalid file number", m)

end SSTableManager

namespace LSMTree
variable {cmp : Comparator}

/-- The name behind its first `sst_`. -/
def afterMark : List Char → Option (List Char)
  | [] => none
  | 's' :: 's' :: 't' :: '_' :: rest => some rest
  | _ :: rest => afterMark rest

def obsoleteNumber (filename : List Char) : Option Nat :=
  (afterMark filename).bind fun name =>
    let digits := (name.takeWhile (· ≠ '_')).takeWhile Char.isDigit
    if '_' ∉ name ∨ digits = [] then none else some (Nat.ofDigitChars 10 digits 0)

section Picking
variable (cmp)

def minKey (least : Key) (file : SSTable) : Key :=
  if least = [] ∨ cmp.compare file.info.smallestKey least = .lt then file.info.smallestKey else least

def maxKey (greatest : Key) (file : SSTable) : Key :=
  if greatest = [] ∨ cmp.compare file.info.largestKey greatest = .gt then file.info.largestKey
  else greatest

def overlapping (files others : List SSTable) : List SSTable :=
  let least := files.foldl (minKey cmp) []
  let greatest := files.foldl (maxKey cmp) []
  if least ≠ [] ∧ greatest ≠ [] then
    others.filter fun file => cmp.compare file.info.smallestKey greatest ≠ .gt ∧
      cmp.compare file.info.largestKey least ≠ .lt
  else []

/-- The input files, each with its level, and the output level. -/
def pickCompactionFiles (m : SSTableManager) (level : Nat) : List (SSTable × Nat) × Nat :=
  let files := m.level level
  if level = 0 then
    ((files.map fun file => (file, 0)) ++
      (overlapping cmp files (m.level 1)).map fun file => (file, 1), 1)
  else ((files.take 10).map fun file => (file, level), if level + 1 ≤ 6 then level + 1 else level)

end Picking

abbrev Disk (cmp : Comparator) := SSTable → CompactionInput cmp

/-- `DoLevelCompaction`: the compactor has its default options and configuration. -/
def doLevelCompaction (directory : List Char) (disk : Disk cmp) (t : LSMTree cmp) (level : Nat) :
    Status × LSMTree cmp :=
  let (inputs, outputLevel) := pickCompactionFiles cmp t.sstables level
  if inputs = [] then (.ok, t)
  else
    let (status, result) :=
      SSTableCompactor.compactFiles cmp {} {} (inputs.map fun input => disk input.1) outputLevel
    if ¬ status.isOk then (status, t)
    else
      let (status, sstables) := t.sstables.registerOutputs cmp result
      let t := { t with sstables := sstables }
      if ¬ status.isOk then (status, t)
      else
        let obsolete := inputs.filterMap fun (file, level) =>
          obsoleteNumber (SSTableManager.generateFileName directory file.info.fileNumber level)
        (.ok, { t with sstables := t.sstables.deleteObsoleteFiles obsolete })

def compactLevel (directory : List Char) (disk : Disk cmp) (t : LSMTree cmp) (level : Nat) :
    Status × LSMTree cmp :=
  t.doLevelCompaction directory disk level

def levelLimit (triggers : CompactionTriggers) (level : Nat) : Nat :=
  (List.range (level - 1)).foldl (fun limit _ => limit * triggers.levelMultiplier % 2 ^ 64)
    triggers.maxBytesForLevelBase

def needsCompaction (triggers : CompactionTriggers) (fileSize : SSTable → Nat) (m : SSTableManager)
    (level : Nat) : Bool :=
  if level = 0 then decide (triggers.l0CompactionTrigger ≤ (m.level 0).length)
  else decide (levelLimit triggers level < ((m.level level).map fileSize).sum)

/-- The level that `TriggerCompaction` compacts. -/
def chosenLevel (triggers : CompactionTriggers) (fileSize : SSTable → Nat) (m : SSTableManager) :
    Option Nat :=
  if triggers.enableAutoCompaction then (List.range 7).find? (needsCompaction triggers fileSize m)
  else none

def triggerCompaction (triggers : CompactionTriggers) (fileSize : SSTable → Nat)
    (directory : List Char) (disk : Disk cmp) (t : LSMTree cmp) : Status × LSMTree cmp :=
  match chosenLevel triggers fileSize t.sstables with
  | none => (.ok, t)
  | some level => t.compactLevel directory disk level

/-! ## No compaction of a level succeeds -/

theorem pick_ne_nil {m : SSTableManager} {level : Nat} (files : m.level level ≠ []) :
    (pickCompactionFiles cmp m level).1 ≠ [] := by
  unfold pickCompactionFiles
  dsimp only
  split
  · rename_i top
    subst top
    simpa using fun none => absurd none files
  · simpa using files

theorem level_ne_nil {triggers : CompactionTriggers} {fileSize : SSTable → Nat} {m : SSTableManager}
    {level : Nat} (chosen : chosenLevel triggers fileSize m = some level) : m.level level ≠ [] := by
  unfold chosenLevel at chosen
  split at chosen
  · have needed := List.find?_some chosen
    intro none
    unfold needsCompaction at needed
    split at needed
    · rename_i top
      subst top
      rw [none] at needed
      exact absurd (of_decide_eq_true needed) (Nat.not_le.mpr triggers.triggerPositive)
    · rw [none] at needed
      exact Nat.not_lt_zero _ (of_decide_eq_true needed)
  · cases chosen

theorem registerOutputs_compactFiles {files : List (CompactionInput cmp)} {outputLevel : Nat}
    (ok : (SSTableCompactor.compactFiles cmp {} {} files outputLevel).1.isOk) (m : SSTableManager) :
    m.registerOutputs cmp (SSTableCompactor.compactFiles cmp {} {} files outputLevel).2 =
      (.invalidArgument "Invalid file number", m) := by
  unfold SSTableCompactor.compactFiles at ok ⊢
  split at ok <;> [cases ok; rename_i some]
  rw [if_neg some]
  have outputs := @SSTableCompactor.outputs_writeRecords cmp {} {}
    (SSTableCompactor.mergedRecords cmp (SSTableCompactor.createMergeIterator cmp files)) (.entries {}) {}
  rcases written : SSTableCompactor.writeRecords cmp {} {} (SSTableCompactor.mergedRecords cmp
    (SSTableCompactor.createMergeIterator cmp files)) (.entries {}) {} with ⟨failure | w, after⟩
  · rw [SSTableCompactor.mergeInputFiles_of_error written] at ok
    exact absurd ok (SSTableCompactor.writeRecords_error (congrArg Prod.fst written))
  · rw [SSTableCompactor.mergeInputFiles_of_ok written] at ok ⊢
    rw [written] at outputs
    obtain ⟨outputs, stray⟩ : after.outputs = [] ∧ after.strayOutputs = [] := outputs
    split at ok
    · rename_i bad
      exact absurd ok bad
    · rename_i fine
      rw [if_neg fine]
      unfold SSTableManager.registerOutputs
      cases w with
      | entries w =>
          have one : (MergeWriter.finish outputLevel after (.entries w)).outputs =
              [(w.finish 0, outputLevel)] := congrArg (· ++ _) outputs
          rw [if_pos (show (MergeWriter.finish outputLevel after (.entries w)).strayOutputs = [] from
            stray), one, SSTableManager.registerTables, SSTableManager.registerSSTable,
            if_pos (show (w.finish 0).info.fileNumber = 0 from rfl)]
      | stray records =>
          have one : (MergeWriter.finish outputLevel after (.stray records)).strayOutputs ≠ [] := by
            simp [MergeWriter.finish]
          rw [if_neg one]

theorem compactLevel_fails (directory : List Char) (disk : Disk cmp) (t : LSMTree cmp) {level : Nat}
    (files : t.sstables.level level ≠ []) :
    ¬ (t.compactLevel directory disk level).1.isOk ∧ (t.compactLevel directory disk level).2 = t := by
  have some := @pick_ne_nil cmp t.sstables level files
  unfold compactLevel doLevelCompaction
  rcases picked : pickCompactionFiles cmp t.sstables level with ⟨inputs, outputLevel⟩
  rw [picked] at some
  dsimp only at some ⊢
  rw [if_neg some]
  by_cases ok : (SSTableCompactor.compactFiles cmp {} {} (inputs.map fun input => disk input.1)
      outputLevel).1.isOk
  · have failed : ¬ (Status.invalidArgument "Invalid file number").isOk := by decide
    rw [if_neg (not_not.mpr ok), registerOutputs_compactFiles ok]
    dsimp only
    rw [if_pos failed]
    exact ⟨failed, rfl⟩
  · rw [if_pos ok]
    exact ⟨ok, rfl⟩

/-- Compacting a level of readable files succeeds, puts one new file in place of the inputs and changes
no read from the oldest live snapshot on; if it fails, the tree is as it was. -/
def CompactionRefines (directory : List Char) (disk : Disk cmp) (oldestLive : Nat) (t : LSMTree cmp)
    (level : Nat) : Prop :=
  let (inputs, outputLevel) := pickCompactionFiles cmp t.sstables level
  let (status, after) := t.compactLevel directory disk level
  ((∀ input ∈ inputs, (disk input.1).table = input.1 ∧ (disk input.1).Readable) → status.isOk) ∧
    (status.isOk → ∃ output : SSTable, 0 < output.info.fileNumber ∧
      (∀ file ∈ t.sstables.levelFiles.flatten, file.info.fileNumber ≠ output.info.fileNumber) ∧
      (∀ i file, file ∈ after.sstables.level i ↔
        file ∈ t.sstables.level i ∧ (file, i) ∉ inputs ∨ i = outputLevel ∧ file = output) ∧
      after.sstables.Leveled cmp ∧
      ∀ key snapshot value, oldestLive ≤ snapshot ∨ snapshot = 0 →
        after.get key snapshot value = t.get key snapshot value) ∧
    (¬ status.isOk → after = t)

/-- Every compaction that the tree chooses fails, though its files can be read. -/
theorem not_compactionRefines (triggers : CompactionTriggers) (fileSize : SSTable → Nat)
    (directory : List Char) (disk : Disk cmp) (oldestLive : Nat) (t : LSMTree cmp) (level : Nat)
    (chosen : chosenLevel triggers fileSize t.sstables = some level)
    (readable : ∀ input ∈ (pickCompactionFiles cmp t.sstables level).1,
      (disk input.1).table = input.1 ∧ (disk input.1).Readable) :
    ¬ CompactionRefines directory disk oldestLive t level ∧
      (t.triggerCompaction triggers fileSize directory disk).2 = t := by
  obtain ⟨failed, same⟩ := compactLevel_fails directory disk t (level_ne_nil chosen)
  refine ⟨fun refines => failed (refines.1 readable), ?_⟩
  rw [triggerCompaction, chosen]
  exact same

def intact (cmp : Comparator) : Disk cmp := fun table =>
  if ordered : table.entries.Pairwise fun a b => cmp.compare a.1.encode b.1.encode = .lt then
    ⟨table, ordered, false, {}⟩
  else ⟨⟨table.info, [], none⟩, .nil, true, {}⟩

theorem readable_intact {table : SSTable} (sound : (table.entries.Pairwise fun a b =>
    cmp.compare a.1.encode b.1.encode = .lt) ∧ (table.readIndex cmp).isOk) :
    (intact cmp table).table = table ∧ (intact cmp table).Readable := by
  rw [intact, dif_pos sound.1]
  exact ⟨rfl, sound.2, fun _ _ => rfl⟩

def oneFlush : LSMTree bytewiseComparator :=
  (((new {}).put {} [107] [1] 1).2.flushAll {}).2

theorem readable_oneFlush : ∀ input ∈ (pickCompactionFiles bytewiseComparator oneFlush.sstables 0).1,
    (intact bytewiseComparator input.1).table = input.1 ∧
      (intact bytewiseComparator input.1).Readable := by
  have sound : ∀ input ∈ (pickCompactionFiles bytewiseComparator oneFlush.sstables 0).1,
      (input.1.entries.Pairwise fun a b =>
        bytewiseComparator.compare a.1.encode b.1.encode = .lt) ∧
          (input.1.readIndex bytewiseComparator).isOk := by decide +kernel
  exact fun input member => readable_intact (sound input member)

theorem not_compactionRefines_oneFlush :
    ¬ CompactionRefines [] (intact bytewiseComparator) 0 oneFlush 0 ∧
      (oneFlush.triggerCompaction { l0CompactionTrigger := 1 } (fun _ => 0) []
        (intact bytewiseComparator)).2 = oneFlush :=
  not_compactionRefines { l0CompactionTrigger := 1 } (fun _ => 0) [] (intact bytewiseComparator) 0
    oneFlush 0 (by decide +kernel) readable_oneFlush

theorem compactionRefines_not_always : ¬ ∀ (triggers : CompactionTriggers) (fileSize : SSTable → Nat)
    (directory : List Char) (disk : Disk bytewiseComparator) (oldestLive : Nat)
    (t : LSMTree bytewiseComparator) (level : Nat),
      chosenLevel triggers fileSize t.sstables = some level →
        CompactionRefines directory disk oldestLive t level := by
  intro always
  have refines := always { l0CompactionTrigger := 1 } (fun _ => 0) [] (intact bytewiseComparator) 0
    oneFlush 0 (by decide +kernel)
  have failed : ¬ (oneFlush.compactLevel [] (intact bytewiseComparator) 0).1.isOk := by
    decide +kernel
  exact failed (refines.1 readable_oneFlush)

end LSMTree
end Lrdb
