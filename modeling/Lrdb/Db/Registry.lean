import Lrdb.Base.Indexes
import Lrdb.Base.Runs
import Lrdb.Db.ColumnFamilyManager

/-!
# The registry of column families

Clients create, drop and look up families, and hold handles to them. The object of a dropped family
stays until its handle is destroyed. Identifiers are given out from a counter of 32 bits, and nobody
looks whether the next one is in use.
-/

namespace Lrdb
open Runs column_family_util Indexes

structure FamilyRegistry (O : Type) where
  manager : ColumnFamilyManager O
  handles : List (ColumnFamily O) := []

namespace ColumnFamilyManager
variable {O : Type}

/-- A write to the manifest. Its sequence is given out before the write can fail. -/
def writeManifest (m : ColumnFamilyManager O) (status : Status)
    (log : ManifestManager O → ManifestManager O) : Status × ColumnFamilyManager O :=
  if status.isOk then (status, { m with manifestManager := log m.manifestManager })
  else
    (status, { m with manifestManager :=
      { m.manifestManager with lastSequence := m.manifestManager.lastSequence + 1 } })

def getColumnFamily (m : ColumnFamilyManager O) (id : Nat) : Option (ColumnFamily O) :=
  m.columnFamiliesById.lookup id

def getColumnFamilyByName (m : ColumnFamilyManager O) (name : String) : Option (ColumnFamily O) :=
  m.columnFamiliesByName.lookup name

end ColumnFamilyManager

/-- The calls, those that log with what the write to the manifest returns. A null pointer is no
handle. -/
inductive RegistryCall (O : Type) where
  | createColumnFamily (options : O) (name : String) (manifest : Status)
  | dropColumnFamily (name : String) (manifest : Status)
  | dropHandle (handle : Option (ColumnFamily O)) (manifest : Status)
  | destroyColumnFamilyHandle (handle : Option (ColumnFamily O))
  | getColumnFamily (id : Nat)
  | getColumnFamilyByName (name : String)
  | getDefaultColumnFamily

namespace FamilyRegistry
variable {O : Type}

def createColumnFamily (r : FamilyRegistry O) (options : O) (name : String) (manifest : Status) :
    Status × FamilyRegistry O :=
  if ¬ r.manager.initialized then (.invalidArgument "ColumnFamilyManager not initialized", r)
  else if name.isEmpty then (.invalidArgument "Column family name cannot be empty", r)
  else if (r.manager.columnFamiliesByName.lookup name).isSome then
    (.invalidArgument ("Column family already exists: " ++ name), r)
  else
    let (id, m) := r.manager.allocateColumnFamilyID
    let (family, m) := m.build id name options
    let (status, m) := m.writeManifest manifest fun manifest =>
      manifest.logCreateColumnFamily { id := id, name := name, options := options }
    if ¬ status.isOk then (status, { r with manager := m })
    else (.ok, { manager := m.add family, handles := r.handles ++ [family] })

/-- `DropColumnFamily` of a name. The shutdown of the family can fail; the object stays all the same. -/
def dropColumnFamily (r : FamilyRegistry O) (name : String) (manifest : Status) :
    Status × FamilyRegistry O :=
  let m := r.manager
  if ¬ m.initialized then (.invalidArgument "ColumnFamilyManager not initialized", r)
  else if name = kDefaultColumnFamilyName then
    (.invalidArgument "Cannot drop default column family", r)
  else
    match m.columnFamiliesByName.lookup name with
    | none => (.notFound ("Column family not found: " ++ name), r)
    | some family =>
        let (status, m) := m.writeManifest manifest fun manifest => manifest.logDropColumnFamily family.id
        if ¬ status.isOk then (status, { r with manager := m })
        else
          (.ok, { r with manager := { m with
            columnFamiliesByName := m.columnFamiliesByName.erase name
            columnFamiliesById := m.columnFamiliesById.erase family.id
            droppedFamilies :=
              m.droppedFamilies ++ (m.columnFamiliesById.lookup family.id).toList } })

/-- `DropColumnFamily` of a handle. -/
def dropHandle (r : FamilyRegistry O) (handle : Option (ColumnFamily O)) (manifest : Status) :
    Status × FamilyRegistry O :=
  match handle with
  | none => (.invalidArgument "Column family is null", r)
  | some family => r.dropColumnFamily family.name manifest

def destroyColumnFamilyHandle (r : FamilyRegistry O) (handle : Option (ColumnFamily O)) :
    Status × FamilyRegistry O :=
  match handle with
  | none => (.invalidArgument "Column family is null", r)
  | some family =>
      if r.manager.droppedFamilies.any fun f => f.object = family.object then
        (.ok,
          { manager := { r.manager with
              droppedFamilies := r.manager.droppedFamilies.eraseP fun f => f.object = family.object }
            handles := r.handles.filter fun f => f.object ≠ family.object })
      else (.notFound "Column family is not dropped", r)

def hand (r : FamilyRegistry O) (found : Option (ColumnFamily O)) : Status × FamilyRegistry O :=
  (.ok, { r with handles := r.handles ++ found.toList })

def call (r : FamilyRegistry O) : RegistryCall O → Status × FamilyRegistry O
  | .createColumnFamily options name manifest => r.createColumnFamily options name manifest
  | .dropColumnFamily name manifest => r.dropColumnFamily name manifest
  | .dropHandle handle manifest => r.dropHandle handle manifest
  | .destroyColumnFamilyHandle handle => r.destroyColumnFamilyHandle handle
  | .getColumnFamily id => r.hand (r.manager.getColumnFamily id)
  | .getColumnFamilyByName name => r.hand (r.manager.getColumnFamilyByName name)
  | .getDefaultColumnFamily => r.hand r.manager.defaultColumnFamily

def step [DecidableEq O] (r : FamilyRegistry O) (c : RegistryCall O) : Option (FamilyRegistry O) :=
  match c with
  | .dropHandle (some family) _ => if family ∈ r.handles then some (r.call c).2 else none
  | _ => some (r.call c).2

end FamilyRegistry

def ColumnFamilyManager.Live {O : Type} (m : ColumnFamilyManager O) (f : ColumnFamily O) : Prop :=
  f ∈ m.columnFamiliesById.lookup f.id

namespace FamilyRegistry
variable {O : Type}

structure Consistent (r : FamilyRegistry O) : Prop where
  inverse : Inverse ColumnFamily.id ColumnFamily.name r.manager.columnFamiliesById
    r.manager.columnFamiliesByName
  apart : ∀ f ∈ r.manager.droppedFamilies, ∀ g, r.manager.Live g → g.object ≠ f.object
  default : ∃ f ∈ r.manager.defaultColumnFamily, r.manager.Live f
  reachable : ∀ f ∈ r.handles, r.manager.Live f ∨ f ∈ r.manager.droppedFamilies

structure SameFamilies (r r' : FamilyRegistry O) : Prop where
  byId : r'.manager.columnFamiliesById = r.manager.columnFamiliesById
  byName : r'.manager.columnFamiliesByName = r.manager.columnFamiliesByName
  dropped : r'.manager.droppedFamilies = r.manager.droppedFamilies

def SparesDefault (r : FamilyRegistry O) (name : String) (manifest : Status) : Prop :=
  name ≠ kDefaultColumnFamilyName → manifest.isOk →
    ∀ f ∈ r.manager.columnFamiliesByName.lookup name, r.manager.defaultColumnFamily ≠ some f

/-- The next identifier is in no use when a family is created, and the default family is not dropped. -/
def KeepsIndexes (r : FamilyRegistry O) : RegistryCall O → Prop
  | .createColumnFamily _ name manifest =>
      name.isEmpty = false → r.manager.columnFamiliesByName.lookup name = none → manifest.isOk →
        r.manager.columnFamiliesById.lookup r.manager.nextColumnFamilyId = none
  | .dropColumnFamily name manifest => r.SparesDefault name manifest
  | .dropHandle handle manifest => ∀ f ∈ handle, r.SparesDefault f.name manifest
  | _ => True

instance [DecidableEq O] (r : FamilyRegistry O) (name : String) (manifest : Status) :
    Decidable (r.SparesDefault name manifest) := by
  unfold SparesDefault
  infer_instance

instance [DecidableEq O] (r : FamilyRegistry O) : (c : RegistryCall O) → Decidable (KeepsIndexes r c)
  | .createColumnFamily _ name manifest => inferInstanceAs (Decidable (name.isEmpty = false →
      r.manager.columnFamiliesByName.lookup name = none → manifest.isOk →
        r.manager.columnFamiliesById.lookup r.manager.nextColumnFamilyId = none))
  | .dropColumnFamily name manifest => inferInstanceAs (Decidable (r.SparesDefault name manifest))
  | .dropHandle handle manifest =>
      inferInstanceAs (Decidable (∀ f ∈ handle, r.SparesDefault f.name manifest))
  | .destroyColumnFamilyHandle _ | .getColumnFamily _ | .getColumnFamilyByName _
  | .getDefaultColumnFamily => inferInstanceAs (Decidable True)

/-! ## What a call can do -/

structure Idle (m m' : ColumnFamilyManager O) : Prop where
  byId : m'.columnFamiliesById = m.columnFamiliesById
  byName : m'.columnFamiliesByName = m.columnFamiliesByName
  dropped : m'.droppedFamilies = m.droppedFamilies
  default : m'.defaultColumnFamily = m.defaultColumnFamily
  built : m.built ≤ m'.built
  initialized : m'.initialized = m.initialized

def nextFamily (m : ColumnFamilyManager O) (options : O) (name : String) : ColumnFamily O :=
  ⟨m.built, m.nextColumnFamilyId, name, options⟩

variable {r : FamilyRegistry O}

theorem idle_refl (m : ColumnFamilyManager O) : Idle m m := ⟨rfl, rfl, rfl, rfl, le_rfl, rfl⟩

theorem idle_writeManifest (m : ColumnFamilyManager O) (status : Status)
    (log : ManifestManager O → ManifestManager O) : Idle m (m.writeManifest status log).2 := by
  unfold ColumnFamilyManager.writeManifest
  split
  · exact ⟨rfl, rfl, rfl, rfl, le_rfl, rfl⟩
  · exact ⟨rfl, rfl, rfl, rfl, le_rfl, rfl⟩

theorem writeManifest_status (m : ColumnFamilyManager O) (status : Status)
    (log : ManifestManager O → ManifestManager O) : (m.writeManifest status log).1 = status := by
  unfold ColumnFamilyManager.writeManifest
  split
  · rfl
  · rfl

theorem createColumnFamily_cases (r : FamilyRegistry O) (options : O) (name : String) (manifest : Status) :
    (¬ (r.manager.initialized ∧ name.isEmpty = false ∧
        r.manager.columnFamiliesByName.lookup name = none ∧ manifest.isOk) ∧
      ∃ status m, r.createColumnFamily options name manifest = (status, { r with manager := m }) ∧
        status.isOk = false ∧ Idle r.manager m) ∨
    name.isEmpty = false ∧ r.manager.columnFamiliesByName.lookup name = none ∧ manifest.isOk ∧
      ∃ m, Idle r.manager m ∧ m.built = r.manager.built + 1 ∧
        r.createColumnFamily options name manifest =
          (.ok, { manager := m.add (nextFamily r.manager options name)
                  handles := r.handles ++ [nextFamily r.manager options name] }) := by
  unfold createColumnFamily
  split
  · rename_i closed
    exact .inl ⟨fun all => closed all.1, _, _, rfl, rfl, idle_refl _⟩
  split
  · rename_i empty
    exact .inl ⟨fun all => Bool.noConfusion (empty.symm.trans all.2.1), _, _, rfl, rfl, idle_refl _⟩
  rename_i named
  split
  · rename_i known
    refine .inl ⟨fun all => ?_, _, _, rfl, rfl, idle_refl _⟩
    rw [all.2.2.1] at known
    cases known
  rename_i unknown
  let m := ((r.manager.allocateColumnFamilyID).2.build r.manager.nextColumnFamilyId name options).2
  let log (manifest : ManifestManager O) := manifest.logCreateColumnFamily
    { id := r.manager.nextColumnFamilyId, name := name, options := options }
  have idle := idle_writeManifest m manifest log
  have status := writeManifest_status m manifest log
  dsimp only [ColumnFamilyManager.allocateColumnFamilyID, ColumnFamilyManager.build]
  split
  · rename_i failed
    have refused : ¬ (m.writeManifest manifest log).1.isOk := failed
    rw [status] at refused
    refine .inl ⟨fun all => refused all.2.2.2, _, _, rfl, Bool.eq_false_iff.mpr failed, ?_⟩
    exact { idle with built := Nat.le_of_succ_le idle.built }
  · rename_i logged
    refine .inr ⟨Bool.eq_false_iff.mpr named, Option.not_isSome_iff_eq_none.mp unknown, ?_, _, ?_, ?_, rfl⟩
    · rw [← status]
      exact not_not.mp logged
    · exact { idle with built := Nat.le_of_succ_le idle.built }
    · unfold ColumnFamilyManager.writeManifest
      split
      · rfl
      · rfl

theorem dropColumnFamily_cases (r : FamilyRegistry O) (name : String) (manifest : Status) :
    (¬ (r.manager.initialized ∧ name ≠ kDefaultColumnFamilyName ∧ manifest.isOk ∧
        r.manager.columnFamiliesByName.lookup name ≠ none) ∧
      ∃ status m, r.dropColumnFamily name manifest = (status, { r with manager := m }) ∧
        status.isOk = false ∧ Idle r.manager m) ∨
    name ≠ kDefaultColumnFamilyName ∧ manifest.isOk ∧
      ∃ family ∈ r.manager.columnFamiliesByName.lookup name, ∃ m, Idle r.manager m ∧
        r.dropColumnFamily name manifest = (.ok, { r with manager := { m with
          columnFamiliesByName := m.columnFamiliesByName.erase name
          columnFamiliesById := m.columnFamiliesById.erase family.id
          droppedFamilies :=
            m.droppedFamilies ++ (m.columnFamiliesById.lookup family.id).toList } }) := by
  unfold dropColumnFamily
  dsimp only
  split
  · rename_i closed
    exact .inl ⟨fun all => closed all.1, _, _, rfl, rfl, idle_refl _⟩
  split
  · rename_i default
    exact .inl ⟨fun all => all.2.1 default, _, _, rfl, rfl, idle_refl _⟩
  rename_i other
  split
  · rename_i unknown
    exact .inl ⟨fun all => all.2.2.2 unknown, _, _, rfl, rfl, idle_refl _⟩
  rename_i family found
  have idle := idle_writeManifest r.manager manifest fun manifest => manifest.logDropColumnFamily family.id
  have status := writeManifest_status r.manager manifest
    fun manifest => manifest.logDropColumnFamily family.id
  split
  · rename_i failed
    refine .inl ⟨fun all => ?_, _, _, rfl, Bool.eq_false_iff.mpr failed, idle⟩
    rw [status] at failed
    exact failed all.2.2.1
  · rename_i logged
    refine .inr ⟨other, ?_, family, found, _, idle, rfl⟩
    rw [← status]
    exact not_not.mp logged

theorem sameFamilies_refl (r : FamilyRegistry O) : SameFamilies r r := ⟨rfl, rfl, rfl⟩

theorem Idle.sameFamilies {m : ColumnFamilyManager O} (idle : Idle r.manager m) :
    SameFamilies r { r with manager := m } := ⟨idle.byId, idle.byName, idle.dropped⟩

theorem dropColumnFamily_failed {name : String} {manifest : Status}
    (failed : ¬ (r.dropColumnFamily name manifest).1.isOk) :
    SameFamilies r (r.dropColumnFamily name manifest).2 := by
  rcases dropColumnFamily_cases r name manifest with
    ⟨-, status, m, result, -, idle⟩ | ⟨-, -, f, -, m, -, dropped⟩
  · rw [result]
    exact idle.sameFamilies
  · rw [dropped] at failed
    exact absurd rfl failed

theorem unchanged_of_failed (r : FamilyRegistry O) (c : RegistryCall O) (failed : ¬ (r.call c).1.isOk) :
    SameFamilies r (r.call c).2 := by
  cases c with
  | createColumnFamily options name manifest =>
      have failed : ¬ (r.createColumnFamily options name manifest).1.isOk := failed
      show SameFamilies r (r.createColumnFamily options name manifest).2
      rcases createColumnFamily_cases r options name manifest with
        ⟨-, status, m, result, -, idle⟩ | ⟨-, -, -, m, -, -, created⟩
      · rw [result]
        exact idle.sameFamilies
      · rw [created] at failed
        exact absurd rfl failed
  | dropColumnFamily name manifest => exact dropColumnFamily_failed failed
  | dropHandle handle manifest =>
      cases handle with
      | none => exact sameFamilies_refl r
      | some family => exact dropColumnFamily_failed failed
  | destroyColumnFamilyHandle handle =>
      have failed : ¬ (r.destroyColumnFamilyHandle handle).1.isOk := failed
      show SameFamilies r (r.destroyColumnFamilyHandle handle).2
      unfold destroyColumnFamilyHandle at failed ⊢
      cases handle with
      | none => exact sameFamilies_refl r
      | some family =>
          dsimp only at failed ⊢
          split
          · rename_i waits
            rw [if_pos waits] at failed
            exact absurd rfl failed
          · exact sameFamilies_refl r
  | getColumnFamily id => exact absurd rfl failed
  | getColumnFamilyByName name => exact absurd rfl failed
  | getDefaultColumnFamily => exact absurd rfl failed

/-! ## What every call keeps -/

structure Numbered (m : ColumnFamilyManager O) : Prop where
  distinct : ∀ f g, m.Live f → m.Live g → f.object = g.object → f = g
  below : ∀ f, m.Live f ∨ f ∈ m.droppedFamilies → f.object < m.built

structure Kept (r : FamilyRegistry O) : Prop extends Consistent r where
  numbered : Numbered r.manager

theorem live_congr {m m' : ColumnFamilyManager O} (same : m'.columnFamiliesById = m.columnFamiliesById)
    (f : ColumnFamily O) : m'.Live f ↔ m.Live f := by
  rw [ColumnFamilyManager.Live, ColumnFamilyManager.Live, same]

theorem Numbered.mono {m m' : ColumnFamilyManager O} (numbered : Numbered m)
    (live : ∀ f, m'.Live f → m.Live f)
    (waiting : ∀ f ∈ m'.droppedFamilies, m.Live f ∨ f ∈ m.droppedFamilies) (built : m.built ≤ m'.built) :
    Numbered m' := by
  constructor
  · intro f g left right
    exact numbered.distinct f g (live f left) (live g right)
  · intro f known
    apply lt_of_lt_of_le _ built
    apply numbered.below f
    rcases known with found | waits
    · exact .inl (live f found)
    · exact waiting f waits

theorem Kept.idle (kept : Kept r) {m : ColumnFamilyManager O} (idle : Idle r.manager m) :
    Kept { r with manager := m } where
  inverse := by
    show Inverse _ _ m.columnFamiliesById m.columnFamiliesByName
    rw [idle.byId, idle.byName]
    exact kept.inverse
  apart f dropped g live :=
    kept.apart f (idle.dropped ▸ dropped) g ((live_congr idle.byId g).mp live)
  default := by
    obtain ⟨f, found, live⟩ := kept.default
    refine ⟨f, ?_, (live_congr idle.byId f).mpr live⟩
    rw [idle.default]
    exact found
  reachable f held := by
    rcases kept.reachable f held with live | dropped
    · exact .inl ((live_congr idle.byId f).mpr live)
    · exact .inr (idle.dropped ▸ dropped)
  numbered := by
    apply kept.numbered.mono
    · intro f live
      exact (live_congr idle.byId f).mp live
    · intro f waits
      exact .inr (idle.dropped ▸ waits)
    · exact idle.built

theorem Kept.hand (kept : Kept r) (found : Option (ColumnFamily O))
    (live : ∀ f ∈ found, r.manager.Live f) : Kept (r.hand found).2 where
  inverse := kept.inverse
  apart := kept.apart
  default := kept.default
  reachable f held := by
    rcases List.mem_append.mp held with old | new
    · exact kept.reachable f old
    · exact .inl (live f (Option.mem_toList.mp new))
  numbered := kept.numbered

theorem live_add {m m' : ColumnFamilyManager O} {f : ColumnFamily O} (idle : Idle m m')
    (free : m.columnFamiliesById.lookup f.id = none) (g : ColumnFamily O) :
    (m'.add f).Live g ↔ g = f ∨ m.Live g := by
  rw [ColumnFamilyManager.Live, ColumnFamilyManager.add]
  dsimp only
  rw [idle.byId]
  exact mem_insert free

theorem Numbered.add {m m' : ColumnFamilyManager O} (numbered : Numbered m) {f : ColumnFamily O}
    (idle : Idle m m') (new : f.object = m.built) (built : m'.built = m.built + 1)
    (free : m.columnFamiliesById.lookup f.id = none) : Numbered (m'.add f) := by
  have live := live_add idle free
  have other (g : ColumnFamily O) (known : m.Live g) : g.object ≠ f.object := by
    rw [new]
    exact Nat.ne_of_lt (numbered.below g (.inl known))
  constructor
  · intro g h left right same
    rcases (live g).mp left with rfl | older
    · rcases (live h).mp right with rfl | old
      · rfl
      · exact absurd same.symm (other h old)
    · rcases (live h).mp right with rfl | old
      · exact absurd same (other g older)
      · exact numbered.distinct g h older old same
  · intro g known
    show g.object < m'.built
    rw [built, Nat.lt_succ_iff]
    rcases known with found | waits
    · rcases (live g).mp found with rfl | old
      · exact Nat.le_of_eq new
      · exact Nat.le_of_lt (numbered.below g (.inl old))
    · have waits : g ∈ m'.droppedFamilies := waits
      exact Nat.le_of_lt (numbered.below g (.inr (idle.dropped ▸ waits)))

theorem Kept.add (kept : Kept r) {m : ColumnFamilyManager O} {f : ColumnFamily O}
    (idle : Idle r.manager m) (new : f.object = r.manager.built) (built : m.built = r.manager.built + 1)
    (free : r.manager.columnFamiliesById.lookup f.id = none)
    (unknown : r.manager.columnFamiliesByName.lookup f.name = none) :
    Kept { manager := m.add f, handles := r.handles } := by
  have live := live_add idle free
  have dropped : (m.add f).droppedFamilies = r.manager.droppedFamilies := idle.dropped
  constructor
  · constructor
    · show Inverse _ _ (m.columnFamiliesById.insert f.id f) (m.columnFamiliesByName.insert f.name f)
      rw [idle.byId, idle.byName]
      exact kept.inverse.insert free unknown
    · intro g waiting h found
      have waits : g ∈ r.manager.droppedFamilies := dropped ▸ waiting
      rcases (live h).mp found with rfl | old
      · rw [new]
        exact (Nat.ne_of_lt (kept.numbered.below g (.inr waits))).symm
      · exact kept.apart g waits h old
    · obtain ⟨g, default, found⟩ := kept.default
      refine ⟨g, ?_, (live g).mpr (.inr found)⟩
      show g ∈ m.defaultColumnFamily
      rw [idle.default]
      exact default
    · intro g held
      rcases kept.reachable g held with found | waits
      · exact .inl ((live g).mpr (.inr found))
      · exact .inr (dropped ▸ waits)
  · exact kept.numbered.add idle new built free

theorem Kept.drop (kept : Kept r) {m : ColumnFamilyManager O} {f : ColumnFamily O}
    (idle : Idle r.manager m) (live : r.manager.Live f) (spared : r.manager.defaultColumnFamily ≠ some f) :
    Kept { r with manager := { m with
      columnFamiliesByName := m.columnFamiliesByName.erase f.name
      columnFamiliesById := m.columnFamiliesById.erase f.id
      droppedFamilies := m.droppedFamilies ++ (m.columnFamiliesById.lookup f.id).toList } } := by
  have waiting : m.droppedFamilies ++ (m.columnFamiliesById.lookup f.id).toList =
      r.manager.droppedFamilies ++ [f] := by
    rw [idle.dropped, idle.byId, Option.mem_def.mp live]
    rfl
  rw [waiting, idle.byId, idle.byName]
  have remains (g : ColumnFamily O) :
      g ∈ (r.manager.columnFamiliesById.erase f.id).lookup g.id ↔ g ≠ f ∧ r.manager.Live g :=
    mem_erase live
  have member (g : ColumnFamily O) (known : g ∈ r.manager.droppedFamilies ++ [f]) :
      g ∈ r.manager.droppedFamilies ∨ g = f := by
    rcases List.mem_append.mp known with old | new
    · exact .inl old
    · exact .inr (List.mem_singleton.mp new)
  constructor
  · constructor
    · exact kept.inverse.erase live
    · intro g waits h found
      obtain ⟨different, old⟩ := (remains h).mp found
      rcases member g waits with waited | rfl
      · exact kept.apart g waited h old
      · intro same
        exact different (kept.numbered.distinct h g old live same)
    · obtain ⟨g, default, found⟩ := kept.default
      refine ⟨g, ?_, (remains g).mpr ⟨?_, found⟩⟩
      · show g ∈ m.defaultColumnFamily
        rw [idle.default]
        exact default
      · rintro rfl
        exact spared default
    · intro g held
      rcases kept.reachable g held with found | waits
      · by_cases same : g = f
        · exact .inr (List.mem_append_right _ (List.mem_singleton.mpr same))
        · exact .inl ((remains g).mpr ⟨same, found⟩)
      · exact .inr (List.mem_append_left _ waits)
  · apply kept.numbered.mono
    · intro g found
      exact ((remains g).mp found).2
    · intro g waits
      rcases member g waits with waited | rfl
      · exact .inr waited
      · exact .inl live
    · exact idle.built

theorem Kept.destroy (kept : Kept r) (object : Nat) :
    Kept
      { manager := { r.manager with
          droppedFamilies := r.manager.droppedFamilies.eraseP fun f => f.object = object }
        handles := r.handles.filter fun f => f.object ≠ object } where
  inverse := kept.inverse
  apart f waits := kept.apart f (List.mem_of_mem_eraseP waits)
  default := kept.default
  reachable f held := by
    obtain ⟨held, other⟩ := List.mem_filter.mp held
    rcases kept.reachable f held with live | waits
    · exact .inl live
    · apply Or.inr
      show f ∈ r.manager.droppedFamilies.eraseP fun f => f.object = object
      rw [List.mem_eraseP_of_neg]
      · exact waits
      · simpa using other
  numbered := by
    apply kept.numbered.mono
    · intro f live
      exact live
    · intro f waits
      exact .inr (List.mem_of_mem_eraseP waits)
    · exact le_rfl

theorem Kept.createColumnFamily (kept : Kept r) {options : O} {name : String} {manifest : Status}
    (allowed : KeepsIndexes r (.createColumnFamily options name manifest)) :
    Kept (r.createColumnFamily options name manifest).2 := by
  rcases createColumnFamily_cases r options name manifest with
    ⟨-, status, m, failed, -, idle⟩ | ⟨named, unknown, logged, m, idle, built, created⟩
  · rw [failed]
    exact kept.idle idle
  · rw [created]
    have added : Kept { manager := m.add (nextFamily r.manager options name), handles := r.handles } :=
      kept.add idle rfl built (allowed named unknown logged) unknown
    apply added.hand (some (nextFamily r.manager options name))
    rintro f ⟨⟩
    exact AList.lookup_insert _

theorem Kept.dropColumnFamily (kept : Kept r) {name : String} {manifest : Status}
    (spares : r.SparesDefault name manifest) : Kept (r.dropColumnFamily name manifest).2 := by
  rcases dropColumnFamily_cases r name manifest with
    ⟨-, status, m, failed, -, idle⟩ | ⟨other, logged, f, found, m, idle, dropped⟩
  · rw [failed]
    exact kept.idle idle
  · rw [dropped]
    obtain rfl := kept.inverse.named name f found
    exact kept.drop idle ((kept.inverse.same f).mpr found) (spares other logged f found)

theorem Kept.destroyColumnFamilyHandle (kept : Kept r) (handle : Option (ColumnFamily O)) :
    Kept (r.destroyColumnFamilyHandle handle).2 := by
  unfold FamilyRegistry.destroyColumnFamilyHandle
  cases handle with
  | none => exact kept
  | some family =>
      dsimp only
      split
      · exact kept.destroy family.object
      · exact kept

theorem Kept.call (kept : Kept r) {c : RegistryCall O} (allowed : KeepsIndexes r c) : Kept (r.call c).2 := by
  cases c with
  | createColumnFamily options name manifest => exact kept.createColumnFamily allowed
  | dropColumnFamily name manifest => exact kept.dropColumnFamily allowed
  | dropHandle handle manifest =>
      cases handle with
      | none => exact kept
      | some family => exact kept.dropColumnFamily (allowed family rfl)
  | destroyColumnFamilyHandle handle => exact kept.destroyColumnFamilyHandle handle
  | getColumnFamily id =>
      apply kept.hand
      intro f found
      rw [ColumnFamilyManager.Live, kept.inverse.keyed id f found]
      exact found
  | getColumnFamilyByName name =>
      apply kept.hand
      intro f found
      apply (kept.inverse.same f).mpr
      rw [kept.inverse.named name f found]
      exact found
  | getDefaultColumnFamily =>
      apply kept.hand
      intro f found
      obtain ⟨g, default, live⟩ := kept.default
      rw [Option.mem_unique found default]
      exact live

theorem dropColumnFamily_initialized (r : FamilyRegistry O) (name : String) (manifest : Status) :
    (r.dropColumnFamily name manifest).2.manager.initialized = r.manager.initialized := by
  rcases dropColumnFamily_cases r name manifest with
    ⟨-, status, m, failed, -, idle⟩ | ⟨-, -, f, -, m, idle, dropped⟩
  · rw [failed]
    exact idle.initialized
  · rw [dropped]
    exact idle.initialized

theorem call_initialized (r : FamilyRegistry O) (c : RegistryCall O) :
    (r.call c).2.manager.initialized = r.manager.initialized := by
  cases c with
  | createColumnFamily options name manifest =>
      show (r.createColumnFamily options name manifest).2.manager.initialized = _
      rcases createColumnFamily_cases r options name manifest with
        ⟨-, status, m, failed, -, idle⟩ | ⟨-, -, -, m, idle, -, created⟩
      · rw [failed]
        exact idle.initialized
      · rw [created]
        exact idle.initialized
  | dropColumnFamily name manifest => exact dropColumnFamily_initialized r name manifest
  | dropHandle handle manifest =>
      cases handle with
      | none => rfl
      | some family => exact dropColumnFamily_initialized r family.name manifest
  | destroyColumnFamilyHandle handle =>
      show (r.destroyColumnFamilyHandle handle).2.manager.initialized = _
      unfold destroyColumnFamilyHandle
      cases handle with
      | none => rfl
      | some family =>
          dsimp only
          split
          · rfl
          · rfl
  | getColumnFamily | getColumnFamilyByName | getDefaultColumnFamily => rfl

/-! ## When a call breaks the registry -/

theorem Kept.free_of_consistent (kept : Kept r) (initialized : r.manager.initialized) {options : O}
    {name : String} {manifest : Status}
    (consistent : Consistent (r.createColumnFamily options name manifest).2) :
    KeepsIndexes r (.createColumnFamily options name manifest) := by
  intro named unknown logged
  rcases createColumnFamily_cases r options name manifest with
    ⟨stopped, -⟩ | ⟨-, -, -, m, idle, -, created⟩
  · exact absurd ⟨initialized, named, unknown, logged⟩ stopped
  rw [created] at consistent
  have inverse := consistent.inverse
  simp only [ColumnFamilyManager.add, nextFamily, idle.byId, idle.byName] at inverse
  by_contra used
  obtain ⟨g, found⟩ := Option.ne_none_iff_exists'.mp used
  have id : g.id = r.manager.nextColumnFamilyId := kept.inverse.keyed _ g found
  have live : g ∈ r.manager.columnFamiliesByName.lookup g.name := by
    apply (kept.inverse.same g).mp
    rw [id]
    exact found
  -- The family under the identifier is still found by its name, which is not the new one.
  have other : g.name ≠ name := by
    intro same
    rw [same, unknown] at live
    cases live
  have again := inverse.same g
  rw [AList.lookup_insert_ne other, id, AList.lookup_insert, Option.mem_some_iff] at again
  exact other (congrArg ColumnFamily.name (again.mpr live)).symm

theorem spares_of_consistent (initialized : r.manager.initialized) {name : String} {manifest : Status}
    (consistent : Consistent (r.dropColumnFamily name manifest).2) : r.SparesDefault name manifest := by
  intro other logged f found default
  rcases dropColumnFamily_cases r name manifest with ⟨stopped, -⟩ | ⟨-, -, g, here, m, idle, dropped⟩
  · apply stopped ⟨initialized, other, logged, _⟩
    rw [Option.mem_def.mp found]
    exact Option.some_ne_none f
  obtain rfl := Option.mem_unique found here
  rw [dropped] at consistent
  obtain ⟨h, isDefault, live⟩ := consistent.default
  have isDefault : h ∈ m.defaultColumnFamily := isDefault
  rw [idle.default] at isDefault
  obtain rfl := Option.mem_unique isDefault default
  have live : h ∈ (m.columnFamiliesById.erase h.id).lookup h.id := live
  rw [AList.lookup_erase] at live
  cases live

theorem Kept.consistent_call_iff (kept : Kept r) (initialized : r.manager.initialized)
    (c : RegistryCall O) : Consistent (r.call c).2 ↔ KeepsIndexes r c := by
  constructor
  · intro consistent
    cases c with
    | createColumnFamily options name manifest => exact kept.free_of_consistent initialized consistent
    | dropColumnFamily name manifest => exact spares_of_consistent initialized consistent
    | dropHandle handle manifest =>
        cases handle with
        | none => simp [KeepsIndexes]
        | some family =>
            rintro f ⟨⟩
            exact spares_of_consistent initialized consistent
    | destroyColumnFamilyHandle | getColumnFamily | getColumnFamilyByName | getDefaultColumnFamily =>
        exact trivial
  · intro keeps
    exact (kept.call keeps).toConsistent

end FamilyRegistry
end Lrdb
