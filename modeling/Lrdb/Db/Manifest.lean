import Mathlib.Data.List.AList
import Lrdb.Core.Status

/-!
# The manifest

The log of the column families, one record for each call that creates or drops one. Recovery folds
the records of all files into a table of descriptors by identifier.
-/

namespace Lrdb

structure OptionsCodec (O : Type) where
  /-- The options of the default family. -/
  defaults : O
  /-- What reading back the written options gives. -/
  restore : O → O

structure ColumnFamilyDescriptor (O : Type) where
  id : Nat
  name : String
  options : O
  isDropped : Bool := false
  createSequence : Nat := 0
  dropSequence : Nat := 0
  deriving DecidableEq

inductive ManifestRecord (O : Type) where
  | createColumnFamily (sequence : Nat) (descriptor : ColumnFamilyDescriptor O)
  | dropColumnFamily (sequence id : Nat)
  | updateColumnFamilyOptions (sequence id : Nat) (options : O)
  | sequenceNumber (sequence : Nat)
  | checkpoint (sequence : Nat)

variable {O : Type}

def ManifestRecord.sequence : ManifestRecord O → Nat
  | .createColumnFamily sequence _ | .dropColumnFamily sequence _
  | .updateColumnFamilyOptions sequence _ _ | .sequenceNumber sequence | .checkpoint sequence =>
      sequence

abbrev DescriptorTable (O : Type) := AList fun _ : Nat => ColumnFamilyDescriptor O

namespace DescriptorTable

/-- One round of the loop of `RecoverFromManifestFile`. -/
def apply (codec : OptionsCodec O) (table : DescriptorTable O) :
    ManifestRecord O → DescriptorTable O
  | .createColumnFamily _ descriptor =>
      table.insert descriptor.id { descriptor with options := codec.restore descriptor.options }
  | .dropColumnFamily sequence id =>
      match table.lookup id with
      | some descriptor =>
          table.insert id { descriptor with isDropped := true, dropSequence := sequence }
      | none => table
  | .updateColumnFamilyOptions _ id options =>
      match table.lookup id with
      | some descriptor => table.insert id { descriptor with options := codec.restore options }
      | none => table
  | .sequenceNumber _ | .checkpoint _ => table

def Live (table : DescriptorTable O) (id : Nat) (name : String) : Prop :=
  ∃ descriptor ∈ table.lookup id, descriptor.isDropped = false ∧ descriptor.name = name

variable {codec : OptionsCodec O} {table : DescriptorTable O} {id : Nat} {name : String}

@[simp] theorem not_live_empty : ¬ Live (∅ : DescriptorTable O) id name := by
  simp [Live]

theorem live_insert {key : Nat} {descriptor : ColumnFamilyDescriptor O} :
    Live (table.insert key descriptor) id name ↔
      (id = key ∧ descriptor.isDropped = false ∧ descriptor.name = name) ∨
        id ≠ key ∧ Live table id name := by
  by_cases same : id = key
  · subst same
    simp [Live]
  · simp [Live, AList.lookup_insert_ne same, same]

theorem live_create {sequence : Nat} {descriptor : ColumnFamilyDescriptor O}
    (alive : descriptor.isDropped = false) :
    Live (table.apply codec (.createColumnFamily sequence descriptor)) id name ↔
      (id = descriptor.id ∧ descriptor.name = name) ∨ id ≠ descriptor.id ∧ Live table id name := by
  rw [apply, live_insert]
  simp [alive]

theorem live_drop {sequence dropped : Nat} :
    Live (table.apply codec (.dropColumnFamily sequence dropped)) id name ↔
      id ≠ dropped ∧ Live table id name := by
  rw [apply]
  cases found : table.lookup dropped with
  | none =>
      refine ⟨fun live => ⟨?_, live⟩, And.right⟩
      rintro rfl
      obtain ⟨descriptor, here, -⟩ := live
      rw [found] at here
      cases here
  | some descriptor => simp [live_insert]

def Keyed (table : DescriptorTable O) : Prop := ∀ id, ∀ descriptor ∈ table.lookup id, descriptor.id = id

theorem Keyed.insert (keyed : Keyed table) {descriptor : ColumnFamilyDescriptor O}
    (same : descriptor.id = id) : Keyed (table.insert id descriptor) := by
  intro other found here
  by_cases equal : other = id
  · subst equal
    rw [AList.lookup_insert] at here
    exact Option.mem_some_iff.mp here ▸ same
  · rw [AList.lookup_insert_ne equal] at here
    exact keyed other found here

theorem Keyed.apply (keyed : Keyed table) (record : ManifestRecord O) :
    Keyed (table.apply codec record) := by
  cases record with
  | createColumnFamily sequence descriptor => exact keyed.insert rfl
  | dropColumnFamily sequence id =>
      rw [DescriptorTable.apply]
      cases found : table.lookup id with
      | none => exact keyed
      | some descriptor => exact keyed.insert (keyed id descriptor found)
  | updateColumnFamilyOptions sequence id options =>
      rw [DescriptorTable.apply]
      cases found : table.lookup id with
      | none => exact keyed
      | some descriptor => exact keyed.insert (keyed id descriptor found)
  | sequenceNumber | checkpoint => exact keyed

end DescriptorTable

namespace ManifestManager

/-- `RecoverFromManifestFile`: the table and the greatest sequence after the records of a file. -/
def recoverFromManifestFile (codec : OptionsCodec O) (table : DescriptorTable O)
    (records : List (ManifestRecord O)) : DescriptorTable O × Nat :=
  (records.foldl (fun table record => table.apply codec record) table,
    (records.map ManifestRecord.sequence).foldl max 0)

/-- The loop of `RecoverColumnFamilies` over the files in the order of their names. -/
def recoverFiles (codec : OptionsCodec O) :
    DescriptorTable O × Nat → List (List (ManifestRecord O)) → DescriptorTable O × Nat
  | found, [] => found
  | (table, sequence), file :: files =>
      let (table, last) := recoverFromManifestFile codec table file
      recoverFiles codec (table, max sequence last) files

def live (table : DescriptorTable O) : List (ColumnFamilyDescriptor O) :=
  (table.entries.map Sigma.snd).filter fun descriptor => !descriptor.isDropped

/-- `ManifestManager::RecoverColumnFamilies`: the descriptors and the last sequence. -/
def recoverColumnFamilies (codec : OptionsCodec O) (files : List (List (ManifestRecord O))) :
    List (ColumnFamilyDescriptor O) × Nat :=
  let (table, sequence) := recoverFiles codec (∅, 0) files
  (live table, sequence)

theorem mem_live {table : DescriptorTable O} {descriptor : ColumnFamilyDescriptor O} :
    descriptor ∈ live table ↔
      (∃ id, descriptor ∈ table.lookup id) ∧ descriptor.isDropped = false := by
  simp only [live, List.mem_filter, List.mem_map, Bool.not_eq_true', AList.mem_lookup_iff]
  refine and_congr_left fun _ => ?_
  constructor
  · rintro ⟨⟨id, other⟩, member, rfl⟩
    exact ⟨id, member⟩
  · rintro ⟨id, member⟩
    exact ⟨⟨id, descriptor⟩, member, rfl⟩

end ManifestManager

structure ManifestManager (O : Type) where
  records : List (ManifestRecord O)
  lastSequence : Nat := 0

namespace ManifestManager

def logCreateColumnFamily (m : ManifestManager O) (descriptor : ColumnFamilyDescriptor O) :
    ManifestManager O :=
  let sequence := m.lastSequence + 1
  { records := m.records ++ [.createColumnFamily sequence descriptor], lastSequence := sequence }

def logDropColumnFamily (m : ManifestManager O) (id : Nat) : ManifestManager O :=
  let sequence := m.lastSequence + 1
  { records := m.records ++ [.dropColumnFamily sequence id], lastSequence := sequence }

def logSequenceNumber (m : ManifestManager O) (sequence : Nat) : ManifestManager O :=
  { records := m.records ++ [.sequenceNumber sequence], lastSequence := sequence }

end ManifestManager
end Lrdb
