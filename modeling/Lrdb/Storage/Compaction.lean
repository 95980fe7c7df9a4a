import Lrdb.Base.Merging
import Lrdb.Storage.Flush
import Lrdb.Storage.StoredRecords

/-!
# Merging files

A compaction merges its input files in the order of their encoded keys and writes what the retention
rule keeps. A file that cannot be opened is left out.
-/

namespace Lrdb
open Versions SSTable
open TableFile (StoredRecord stored entryOf BlockFaults fileRecords)

/-! ## Inputs -/

/-- A file that a writer has finished, and what fails when it is read. -/
structure CompactionInput (cmp : Comparator) where
  table : SSTable
  ascending : table.entries.Pairwise fun a b => cmp.compare a.1.encode b.1.encode = .lt
  missing : Bool := false
  faults : BlockFaults := {}

structure IteratorWrapper where
  records : List StoredRecord
  status : Status

namespace CompactionInput
variable {cmp : Comparator}

/-- `SSTableReader::Open`. -/
def opens (file : CompactionInput cmp) : Bool := !file.missing && (file.table.readIndex cmp).isOk

def iterator (file : CompactionInput cmp) : IteratorWrapper :=
  let (records, status) := fileRecords file.faults file.table
  ⟨records, status⟩

def Readable (file : CompactionInput cmp) : Prop := file.opens ∧ file.faults.Whole file.table

instance (file : CompactionInput cmp) : Decidable file.Readable := by unfold Readable; infer_instance

end CompactionInput

/-! ## The merge -/

structure CompactionConfig where
  oldestSnapshotSequence : Nat := 0
  isBottommostLevel : Bool := false

/-- The outputs with their levels; those with a key of an unknown type are kept apart, as records. -/
structure CompactionResult where
  outputs : List (SSTable × Nat) := []
  strayOutputs : List (List StoredRecord × Nat) := []
  numInputRecords : Nat := 0
  numOutputRecords : Nat := 0

/-- The writer of a merge. From the first key of an unknown type on, which only a buffer that was not read
whole can hold, its records are no longer entries. -/
inductive MergeWriter where
  | entries (w : SSTableWriter)
  | stray (records : List StoredRecord)

namespace MergeWriter
variable (cmp : Comparator) (options : SSTableWriterOptions)

def records : MergeWriter → List StoredRecord
  | entries w => (w.blocks.flatMap DataBlock.entries ++ w.dataBuffer).map stored
  | stray records => records

def lastKey : MergeWriter → Bytes
  | entries w => (w.lastKey.map InternalKey.encode).getD []
  | stray records => (records.getLast?.map Prod.fst).getD []

def add (w : MergeWriter) (record : StoredRecord) : Except Status MergeWriter :=
  match w, entryOf record with
  | entries w, some entry => (w.add cmp options entry).map entries
  | w, _ =>
      if w.lastKey ≠ [] ∧ cmp.compare w.lastKey record.1 ≠ .lt then
        .error (.invalidArgument "Keys must be added in ascending order")
      else .ok (stray (w.records ++ [record]))

/-- The file number of an output is left zero. -/
def finish (outputLevel : Nat) (result : CompactionResult) : MergeWriter → CompactionResult
  | entries w => { result with outputs := result.outputs ++ [(w.finish 0, outputLevel)] }
  | stray records => { result with strayOutputs := result.strayOutputs ++ [(records, outputLevel)] }

end MergeWriter

namespace SSTableCompactor
variable (cmp : Comparator) (config : CompactionConfig) (options : SSTableWriterOptions)

def createMergeIterator (files : List (CompactionInput cmp)) : List IteratorWrapper :=
  (files.filter CompactionInput.opens).map CompactionInput.iterator

/-- The comparator is applied to the encoded keys. -/
def KeyLess (a b : StoredRecord) : Prop := cmp.Before a.1 b.1

instance (a b : StoredRecord) : Decidable (KeyLess cmp a b) := by unfold KeyLess; infer_instance

/-- What `SeekToFirst` and `Next` come to, until the iterator is not valid. -/
def mergedRecords (iters : List IteratorWrapper) : List StoredRecord :=
  let lists := iters.map IteratorWrapper.records
  Merging.merged (KeyLess cmp) lists.flatten.length lists

def status (iters : List IteratorWrapper) : Status :=
  ((iters.map IteratorWrapper.status).find? fun s => ¬ s.isOk).getD .ok

def shouldKeepKey (key : Bytes) : Bool :=
  match parseInternalKey key with
  | none => false
  | some (_, sequence, type) =>
      if config.oldestSnapshotSequence ≤ sequence then true
      else if type = ValueType.kDeletion.toNat ∧ config.isBottommostLevel then false
      else false

/-- The loop of `MergeInputFiles`. -/
def writeRecords : List StoredRecord → MergeWriter → CompactionResult →
    Except Status MergeWriter × CompactionResult
  | [], w, result => (.ok w, result)
  | record :: rest, w, result =>
      if (parseInternalKey record.1).isNone then
        (.error (.corruption "Failed to parse internal key"), result)
      else if shouldKeepKey config record.1 then
        match w.add cmp options record with
        | .error status => (.error status, result)
        | .ok w => writeRecords rest w
            { result with
              numInputRecords := result.numInputRecords + 1
              numOutputRecords := result.numOutputRecords + 1 }
      else writeRecords rest w { result with numInputRecords := result.numInputRecords + 1 }

def mergeInputFiles (files : List (CompactionInput cmp)) (outputLevel : Nat) (result : CompactionResult) :
    Status × CompactionResult :=
  let iters := createMergeIterator cmp files
  match writeRecords cmp config options (mergedRecords cmp iters) (.entries {}) result with
  | (.error status, result) => (status, result)
  | (.ok w, result) =>
      if ¬ (status iters).isOk then (status iters, result)
      else (.ok, w.finish outputLevel result)

def compactFiles (files : List (CompactionInput cmp)) (outputLevel : Nat) : Status × CompactionResult :=
  if files = [] then (.invalidArgument "No input files for compaction", {})
  else mergeInputFiles cmp config options files outputLevel {}

end SSTableCompactor
end Lrdb
