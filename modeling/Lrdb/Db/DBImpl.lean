import Lrdb.Db.Catalogue
import Lrdb.Db.Lifetime
import Lrdb.Storage.LevelCompaction

/-!
# The database

The column family manager and the families it has built, each in a directory of its own. Calls go to
the family they name; only the direct writes look at the read-only flag.
-/

namespace Lrdb
open Runs column_family_util

def cfDataPath (id : Nat) (name : String) : String := "cf_" ++ toString id ++ "_" ++ name

structure DBEnv (O D : Type) where
  codec : OptionsCodec O
  /-- The directory a path leads to. -/
  place : String → D
  /-- The options of the tree of a family. -/
  tree : O → LSMTreeOptions

structure FamilyStart where
  order : List Nat := []
  again : Bool := false
  left : WALDisk := [{ number := 1 }]

inductive FamilyEnd where
  | crash (files : WALDisk)
  | shutdown (point : ShutdownPoint)

def FamilyEnd.action : FamilyEnd → LifetimeAction
  | .crash files => .crash files
  | .shutdown point => .shutdown point

namespace DBEnv
variable {O D : Type} (env : DBEnv O D)

def directory (id : Nat) (name : String) : D := env.place (cfDataPath id name)

def directoryOf (family : ColumnFamily O) : D := env.directory family.id family.name

end DBEnv

namespace LSMTree
variable {cmp : Comparator}

/-- `GetFilesInRange`, or all files when an end of the range is missing. -/
def filesInRange (t : LSMTree cmp) (first last : Option Key) (level : Nat) : List SSTable :=
  match first, last with
  | some first, some last => (t.sstables.level level).filter fun file =>
      cmp.compare file.info.largestKey first ≠ .lt ∧ cmp.compare file.info.smallestKey last ≠ .gt
  | _, _ => t.sstables.level level

/-- The loop of `CompactRange`. Nothing registers what a merge writes, and the inputs stay. -/
def compactLevels (disk : LSMTree.Disk cmp) (t : LSMTree cmp) (first last : Option Key) :
    List Nat → Status
  | [] => .ok
  | level :: deeper =>
      let files := t.filesInRange first last level
      if 1 < files.length then
        let status := (SSTableCompactor.compactFiles cmp {} {} (files.map disk)
          (if level = 6 then level else level + 1)).1
        if status.isOk then compactLevels disk t first last deeper else status
      else compactLevels disk t first last deeper

def compactRange (disk : LSMTree.Disk cmp) (t : LSMTree cmp) (first last : Option Key) :
    Status × LSMTree cmp :=
  (t.compactLevels disk first last (List.range 7), t)

end LSMTree

namespace OpenFamily
variable {cmp : Comparator}

def setTree (f : OpenFamily cmp) (lsm : LSMTree cmp) : OpenFamily cmp :=
  { f with session := { f.session with lsm := lsm } }

def identified (f : OpenFamily cmp) (id : Nat) : OpenFamily cmp :=
  { f with session := { f.session with columnFamilyId := id } }

end OpenFamily

inductive FamilyAction (cmp : Comparator) where
  | session (action : SessionAction)
  /-- `DefaultColumnFamily::Put` and `Delete`, when nothing stops the transaction. -/
  | autoCommit (key : Key) (content : Option Value)
  | flush
  | compactRange (disk : LSMTree.Disk cmp) (first last : Option Key)
  | backgroundFlush
  | backgroundCompaction (triggers : CompactionTriggers) (fileSize : SSTable → Nat)
      (path : List Char) (disk : LSMTree.Disk cmp)

namespace OpenFamily
variable {cmp : Comparator} (options : LSMTreeOptions)

def run (f : OpenFamily cmp) : FamilyAction cmp → Option (OpenFamily cmp)
  | .session action => f.step options action
  | .autoCommit key content =>
      execute (OpenFamily.step options) f (Session.commitCall f.session.manager.nextTxn [(key, content)])
  | .flush => some (f.setTree (f.session.lsm.flushAll options).2)
  | .compactRange disk first last => some (f.setTree (f.session.lsm.compactRange disk first last).2)
  | .backgroundFlush => some (f.setTree (f.session.lsm.flushOldestMemTable options).2)
  | .backgroundCompaction triggers fileSize path disk =>
      some (f.setTree (f.session.lsm.triggerCompaction triggers fileSize path disk).2)

end OpenFamily

theorem ColumnFamilyManager.createColumnFamily_refused {O : Type} {m : ColumnFamilyManager O}
    (options : O) {name : String}
    (refused : name.isEmpty ∨ (m.columnFamiliesByName.lookup name).isSome) :
    ∃ status, m.createColumnFamily options name = .error status := by
  unfold createColumnFamily
  split
  · exact ⟨_, rfl⟩
  · split
    · exact ⟨_, rfl⟩
    · rename_i named
      rw [if_pos (refused.resolve_left named)]
      exact ⟨_, rfl⟩

structure DBImpl (O D : Type) (cmp : Comparator) where
  database : Database O
  readOnly : Bool := false
  /-- The manifest as the session found it. -/
  found : List (ManifestRecord O) := []
  /-- Every family that was ever created. -/
  given : List (Nat × String) := []
  directories : D → Lifetime cmp := fun _ => .closed {}

inductive DBAction (O : Type) (cmp : Comparator) where
  /-- `DB::Open` or `DB::OpenForReadOnly`, with the descriptors in the order of a hash table. -/
  | openWith (readOnly : Bool) (order : List (ColumnFamilyDescriptor O))
      (starts : ColumnFamily O → FamilyStart)
  /-- An open that fails or crashes, with this family built. -/
  | interrupt (descriptor : ColumnFamilyDescriptor O) (start : FamilyStart)
  | put (name : String) (key : Key) (value : Value)
  | delete (name : String) (key : Key)
  /-- A step of a transaction, of a background task or of `SyncAllData`, or a call that goes straight
  to the family. -/
  | family (name : String) (action : FamilyAction cmp)
  | createColumnFamily (options : O) (name : String) (start : FamilyStart)
  | dropColumnFamily (name : String) (point : ShutdownPoint)
  /-- The end of `Close`, or a crash at any point. -/
  | endSession (ends : ColumnFamily O → FamilyEnd)

namespace DBImpl
variable {O D : Type} {cmp : Comparator} [DecidableEq O] [DecidableEq D] (env : DBEnv O D)

def fresh : DBImpl O D cmp := { database := .closed [] }

def setDirectory (db : DBImpl O D cmp) (d : D) (lifetime : Lifetime cmp) : DBImpl O D cmp :=
  { db with directories := Function.update db.directories d lifetime }

def lookup (db : DBImpl O D cmp) (name : String) : Option (ColumnFamily O) :=
  db.database.manager.bind fun m => m.columnFamiliesByName.lookup name

def startFamily (start : FamilyStart) (family : ColumnFamily O) (directories : D → Lifetime cmp) :
    Option (D → Lifetime cmp) :=
  let d := env.directoryOf family
  -- `DBImpl::RecoverFromWAL` asks the default family only.
  let again := start.again && decide (family.id = kDefaultColumnFamilyId)
  match (directories d).step (env.tree family.options) (.start start.order again start.left) with
  | some (.opened f) => some (Function.update directories d (.opened (f.identified family.id)))
  | _ => none

def endFamily (ends : FamilyEnd) (family : ColumnFamily O) (directories : D → Lifetime cmp) :
    Option (D → Lifetime cmp) :=
  let d := env.directoryOf family
  ((directories d).step (env.tree family.options) ends.action).map (Function.update directories d)

def families (m : ColumnFamilyManager O) : List (ColumnFamily O) :=
  m.columnFamiliesById.entries.map Sigma.snd

def openWith (db : DBImpl O D cmp) (readOnly : Bool) (order : List (ColumnFamilyDescriptor O))
    (starts : ColumnFamily O → FamilyStart) : Option (DBImpl O D cmp) :=
  match db.database with
  | .opened _ => none
  | .closed records =>
      if order.Perm (ManifestManager.recoverColumnFamilies env.codec [records]).1 then
        match ColumnFamilyManager.openDatabase env.codec records order with
        | .error _ => none
        | .ok m =>
            ((families m).foldlM (fun directories family =>
              startFamily env (starts family) family directories) db.directories).map
                fun directories =>
              { db with
                database := .opened m
                readOnly := readOnly
                found := records
                directories := directories }
      else none

def builds (records : List (ManifestRecord O)) : List (ColumnFamilyDescriptor O) :=
  let live := (ManifestManager.recoverColumnFamilies env.codec [records]).1
  if live.isEmpty then [ColumnFamilyManager.defaultDescriptor env.codec] else live

def interrupt (db : DBImpl O D cmp) (descriptor : ColumnFamilyDescriptor O) (start : FamilyStart) :
    Option (DBImpl O D cmp) :=
  match db.database with
  | .opened _ => none
  | .closed records =>
      let d := env.directory descriptor.id descriptor.name
      if descriptor ∈ builds env records then
        ((db.directories d).step (env.tree descriptor.options)
          (.interrupt start.order start.left)).map (db.setDirectory d)
      else none

/-- The checks of `DBImpl::Put` and `Delete`. -/
def writeTarget (db : DBImpl O D cmp) (name : String) : Except Status (ColumnFamily O) :=
  if db.readOnly then .error (.notSupported "Database opened in read-only mode")
  else
    match db.lookup name with
    | none => .error (.invalidArgument "Invalid column family")
    | some family => .ok family

def runFamily (db : DBImpl O D cmp) (family : ColumnFamily O) (action : FamilyAction cmp) :
    Option (DBImpl O D cmp) :=
  let d := env.directoryOf family
  match db.directories d with
  | .closed _ => none
  | .opened f => (f.run (env.tree family.options) action).map fun f => db.setDirectory d (.opened f)

def write (db : DBImpl O D cmp) (name : String) (key : Key) (content : Option Value) :
    Option (DBImpl O D cmp) :=
  match db.writeTarget name with
  | .error _ => some db
  | .ok family => db.runFamily env family (.autoCommit key content)

def createColumnFamily (db : DBImpl O D cmp) (options : O) (name : String) (start : FamilyStart) :
    Option (DBImpl O D cmp) :=
  match db.database with
  | .closed _ => none
  | .opened m =>
      match m.createColumnFamily options name with
      | .error _ => some db
      | .ok (family, m) =>
          (startFamily env start family db.directories).map fun directories =>
            { db with
              database := .opened m
              given := db.given ++ [(family.id, family.name)]
              directories := directories }

def dropColumnFamily (db : DBImpl O D cmp) (name : String) (point : ShutdownPoint) :
    Option (DBImpl O D cmp) :=
  match db.database with
  | .closed _ => none
  | .opened m =>
      match m.dropColumnFamily name, m.columnFamiliesByName.lookup name with
      | .ok m, some family =>
          (endFamily env (.shutdown point) family db.directories).map fun directories =>
            { db with database := .opened m, directories := directories }
      | _, _ => some db

def endSession (db : DBImpl O D cmp) (ends : ColumnFamily O → FamilyEnd) :
    Option (DBImpl O D cmp) :=
  match db.database with
  | .closed _ => none
  | .opened m =>
      ((families m).foldlM (fun directories family =>
        endFamily env (ends family) family directories) db.directories).map fun directories =>
          { db with database := .closed m.manifestManager.records, directories := directories }

def step (db : DBImpl O D cmp) : DBAction O cmp → Option (DBImpl O D cmp)
  | .openWith readOnly order starts => db.openWith env readOnly order starts
  | .interrupt descriptor start => db.interrupt env descriptor start
  | .put name key value => db.write env name key (some value)
  | .delete name key => db.write env name key none
  | .family name action => (db.lookup name).bind fun family => db.runFamily env family action
  | .createColumnFamily options name start => db.createColumnFamily env options name start
  | .dropColumnFamily name point => db.dropColumnFamily env name point
  | .endSession ends => db.endSession env ends

/-! ## Reading -/

def listColumnFamilies (db : DBImpl O D cmp) : List String :=
  (db.database.manager.map ColumnFamilyManager.listColumnFamilies).getD []

def active (db : DBImpl O D cmp) (name : String) : Option (OpenFamily cmp) :=
  (db.lookup name).bind fun family =>
    match db.directories (env.directoryOf family) with
    | .closed _ => none
    | .opened f => some f

/-- `DBImpl::Get` of the latest value. -/
def get (db : DBImpl O D cmp) (name : String) (key : Key) (value : Value) : ReadResult :=
  match db.active env name with
  | none => ⟨.invalidArgument "Invalid arguments", value⟩
  | some f => f.session.get key value

/-- `DBImpl::Get` at the sequence of a snapshot. -/
def getAt (db : DBImpl O D cmp) (name : String) (key : Key) (sequence : Nat) (value : Value) :
    ReadResult :=
  match db.active env name with
  | none => ⟨.invalidArgument "Invalid arguments", value⟩
  | some f => f.session.getAt key sequence value

end DBImpl
end Lrdb
