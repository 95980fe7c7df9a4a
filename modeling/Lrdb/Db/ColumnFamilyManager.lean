import Lrdb.Db.Manifest

/-!
# The column family manager

The families of an open database by identifier and by name. Creating and dropping a family writes a
record to the manifest; opening the database rebuilds the families from it.
-/

namespace Lrdb

def columnFamilyIdLimit : Nat := 0x100000000

namespace column_family_util

def kDefaultColumnFamilyId : Nat := 0
def kDefaultColumnFamilyName : String := "default"

end column_family_util

open column_family_util

/-- A family, built with its own directory. `object` tells it from every other one that the manager
built. -/
structure ColumnFamily (O : Type) where
  object : Nat
  id : Nat
  name : String
  options : O
  deriving DecidableEq

structure ColumnFamilyManager (O : Type) where
  manifestManager : ManifestManager O
  nextColumnFamilyId : Nat := 1
  defaultColumnFamily : Option (ColumnFamily O) := none
  columnFamiliesById : AList fun _ : Nat => ColumnFamily O := ∅
  columnFamiliesByName : AList fun _ : String => ColumnFamily O := ∅
  droppedFamilies : List (ColumnFamily O) := []
  initialized : Bool := false
  /-- How many families were built. -/
  built : Nat := 0

namespace ColumnFamilyManager
variable {O : Type} [DecidableEq O]

def allocateColumnFamilyID (m : ColumnFamilyManager O) : Nat × ColumnFamilyManager O :=
  (m.nextColumnFamilyId,
    { m with nextColumnFamilyId := (m.nextColumnFamilyId + 1) % columnFamilyIdLimit })

def build (m : ColumnFamilyManager O) (id : Nat) (name : String) (options : O) :
    ColumnFamily O × ColumnFamilyManager O :=
  (⟨m.built, id, name, options⟩, { m with built := m.built + 1 })

def add (m : ColumnFamilyManager O) (family : ColumnFamily O) : ColumnFamilyManager O :=
  { m with
    columnFamiliesById := m.columnFamiliesById.insert family.id family
    columnFamiliesByName := m.columnFamiliesByName.insert family.name family }

def defaultDescriptor (codec : OptionsCodec O) : ColumnFamilyDescriptor O :=
  { id := kDefaultColumnFamilyId, name := kDefaultColumnFamilyName, options := codec.defaults }

def createDefaultColumnFamily (codec : OptionsCodec O) (m : ColumnFamilyManager O) :
    ColumnFamilyManager O :=
  let (family, m) := m.build kDefaultColumnFamilyId kDefaultColumnFamilyName codec.defaults
  { m.add family with
    defaultColumnFamily := some family
    manifestManager := m.manifestManager.logCreateColumnFamily (defaultDescriptor codec) }

def createColumnFamily (m : ColumnFamilyManager O) (options : O) (name : String) :
    Except Status (ColumnFamily O × ColumnFamilyManager O) :=
  if ¬ m.initialized then .error (.invalidArgument "ColumnFamilyManager not initialized")
  else if name.isEmpty then .error (.invalidArgument "Column family name cannot be empty")
  else if (m.columnFamiliesByName.lookup name).isSome then
    .error (.invalidArgument ("Column family already exists: " ++ name))
  else
    let (id, m) := m.allocateColumnFamilyID
    let (family, m) := m.build id name options
    let manifest := m.manifestManager.logCreateColumnFamily { id := id, name := name, options := options }
    .ok (family, { m.add family with manifestManager := manifest })

def dropColumnFamily (m : ColumnFamilyManager O) (name : String) :
    Except Status (ColumnFamilyManager O) :=
  if ¬ m.initialized then .error (.invalidArgument "ColumnFamilyManager not initialized")
  else if name = kDefaultColumnFamilyName then
    .error (.invalidArgument "Cannot drop default column family")
  else
    match m.columnFamiliesByName.lookup name with
    | none => .error (.notFound ("Column family not found: " ++ name))
    | some family =>
        .ok { m with
          manifestManager := m.manifestManager.logDropColumnFamily family.id
          columnFamiliesByName := m.columnFamiliesByName.erase name
          columnFamiliesById := m.columnFamiliesById.erase family.id
          droppedFamilies := m.droppedFamilies ++ (m.columnFamiliesById.lookup family.id).toList }

/-- `ValidateAllColumnFamilies`, for families that were just built and are consistent. -/
def validateAllColumnFamilies (m : ColumnFamilyManager O) : Status :=
  if m.defaultColumnFamily.isNone then .corruption "Default column family is missing"
  else if m.columnFamiliesById.entries.length ≠ m.columnFamiliesByName.entries.length then
    .corruption "Column family mappings are inconsistent"
  else
    match m.columnFamiliesByName.entries.find? fun entry =>
      m.columnFamiliesById.lookup entry.2.id ≠ some entry.2 with
    | some entry => .corruption ("Column family mapping inconsistency for " ++ entry.1)
    | none => .ok

def recoverColumnFamily (m : ColumnFamilyManager O) (descriptor : ColumnFamilyDescriptor O) :
    ColumnFamilyManager O :=
  if descriptor.isDropped then m
  else
    let (family, m) := m.build descriptor.id descriptor.name descriptor.options
    { m.add family with
      defaultColumnFamily :=
        if descriptor.name = kDefaultColumnFamilyName ∨ descriptor.id = kDefaultColumnFamilyId then
          some family
        else m.defaultColumnFamily
      nextColumnFamilyId :=
        max m.nextColumnFamilyId ((descriptor.id + 1) % columnFamilyIdLimit) }

/-- `RecoverColumnFamilies`, given what the manifest manager returns. -/
def recoverColumnFamilies (codec : OptionsCodec O) (m : ColumnFamilyManager O)
    (descriptors : List (ColumnFamilyDescriptor O)) (lastSequence : Nat) :
    Except Status (ColumnFamilyManager O) :=
  if ¬ m.columnFamiliesById.entries.isEmpty then .ok m
  else
    -- On the first start the manifest has nothing; the default family is built, not recorded.
    let descriptors := if descriptors.isEmpty then [defaultDescriptor codec] else descriptors
    let m := { m with manifestManager := { m.manifestManager with lastSequence := lastSequence } }
    let m := descriptors.foldl recoverColumnFamily m
    let status := m.validateAllColumnFamilies
    if status.isOk then .ok m else .error status

/-- `ColumnFamilyManager::Initialize`. -/
def initializeFamilies (codec : OptionsCodec O) (m : ColumnFamilyManager O)
    (descriptors : List (ColumnFamilyDescriptor O)) (lastSequence : Nat) :
    Except Status (ColumnFamilyManager O) :=
  if m.initialized then .ok m
  else
    (m.recoverColumnFamilies codec descriptors lastSequence).map fun m =>
      let m := if m.columnFamiliesById.entries.isEmpty then m.createDefaultColumnFamily codec else m
      { m with initialized := true }

/-- `DBImpl::SetupColumnFamilies`. -/
def setupColumnFamilies (codec : OptionsCodec O) (m : ColumnFamilyManager O) :
    ColumnFamilyManager O :=
  if (m.columnFamiliesByName.lookup kDefaultColumnFamilyName).isNone then
    m.createDefaultColumnFamily codec
  else m

/-- What `DB::Open` does with the manifest. The descriptors come in the order of a hash table; the
second call of `RecoverColumnFamilies` after a crash finds the families built. -/
def openDatabase (codec : OptionsCodec O) (records : List (ManifestRecord O))
    (descriptors : List (ColumnFamilyDescriptor O)) : Except Status (ColumnFamilyManager O) :=
  let lastSequence := (ManifestManager.recoverColumnFamilies codec [records]).2
  (initializeFamilies codec { manifestManager := { records := records } } descriptors lastSequence).map
    (setupColumnFamilies codec)

def families (m : ColumnFamilyManager O) : List (Nat × String) :=
  m.columnFamiliesById.entries.map fun entry => (entry.1, entry.2.name)

def listColumnFamilies (m : ColumnFamilyManager O) : List String := m.columnFamiliesByName.keys

/-! ## Calls that succeed -/

omit [DecidableEq O] in
theorem createColumnFamily_ok {m m' : ColumnFamilyManager O} {options : O} {name : String}
    {family : ColumnFamily O} (created : m.createColumnFamily options name = .ok (family, m')) :
    m.initialized ∧ m.columnFamiliesByName.lookup name = none ∧
      family = ⟨m.built, m.nextColumnFamilyId, name, options⟩ ∧
        m' = { m.add family with
          manifestManager := m.manifestManager.logCreateColumnFamily
            { id := m.nextColumnFamilyId, name := name, options := options }
          nextColumnFamilyId := (m.nextColumnFamilyId + 1) % columnFamilyIdLimit
          built := m.built + 1 } := by
  unfold createColumnFamily at created
  split at created
  · cases created
  rename_i started
  split at created
  · cases created
  split at created
  · cases created
  rename_i unknown
  obtain ⟨rfl, rfl⟩ := Prod.mk.inj (Except.ok.inj created)
  exact ⟨not_not.mp started, Option.not_isSome_iff_eq_none.mp unknown, rfl, rfl⟩

omit [DecidableEq O] in
theorem dropColumnFamily_ok {m m' : ColumnFamilyManager O} {name : String}
    (dropped : m.dropColumnFamily name = .ok m') :
    m.initialized ∧ name ≠ kDefaultColumnFamilyName ∧
      ∃ family ∈ m.columnFamiliesByName.lookup name,
        m' = { m with
          manifestManager := m.manifestManager.logDropColumnFamily family.id
          columnFamiliesByName := m.columnFamiliesByName.erase name
          columnFamiliesById := m.columnFamiliesById.erase family.id
          droppedFamilies :=
            m.droppedFamilies ++ (m.columnFamiliesById.lookup family.id).toList } := by
  unfold dropColumnFamily at dropped
  split at dropped
  · cases dropped
  rename_i started
  split at dropped
  · cases dropped
  rename_i other
  split at dropped
  · cases dropped
  · rename_i family found
    exact ⟨not_not.mp started, other, family, found, (Except.ok.inj dropped).symm⟩

end ColumnFamilyManager
end Lrdb
