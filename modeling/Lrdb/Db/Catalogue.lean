import Lrdb.Base.Runs
import Lrdb.Db.ColumnFamilyManager

/-!
# The catalogue of the column families

Sessions of a database that create and drop families and end with a close or a crash. The default
family is built at an open that finds no family, and never recorded.
-/

namespace Lrdb
open Runs column_family_util

variable {O : Type}

inductive Database (O : Type) where
  | closed (records : List (ManifestRecord O))
  | opened (manager : ColumnFamilyManager O)

def Database.records : Database O → List (ManifestRecord O)
  | .closed records => records
  | .opened m => m.manifestManager.records

def Database.manager : Database O → Option (ColumnFamilyManager O)
  | .closed _ => none
  | .opened m => some m

/-- A database and the families that were created and not dropped since it came into being. -/
structure Catalogue (O : Type) where
  database : Database O
  created : List (Nat × String) := []

/-- The calls of a history; those that create and drop are the successful ones. -/
inductive CatalogueAction (O : Type) where
  | openWith (order : List (ColumnFamilyDescriptor O))
  | create (options : O) (name : String)
  | drop (name : String)
  | close
  | crash

namespace Catalogue
variable [DecidableEq O] (codec : OptionsCodec O)

def descriptors (st : Catalogue O) : List (ColumnFamilyDescriptor O) :=
  (ManifestManager.recoverColumnFamilies codec [st.database.records]).1

def step (st : Catalogue O) (action : CatalogueAction O) : Option (Catalogue O) :=
  match st.database, action with
  | .closed records, .openWith order =>
      if order.Perm (st.descriptors codec) then
        match ColumnFamilyManager.openDatabase codec records order with
        | .ok m => some { st with database := .opened m }
        | .error _ => some st
      else none
  | .opened m, .create options name =>
      match m.createColumnFamily options name with
      | .ok (family, m) => some ⟨.opened m, st.created ++ [(family.id, family.name)]⟩
      | .error _ => none
  | .opened m, .drop name =>
      match m.dropColumnFamily name with
      | .ok m => some ⟨.opened m, st.created.filter fun family => family.2 ≠ name⟩
      | .error _ => none
  | .opened m, .close => some { st with database := .closed m.manifestManager.records }
  | .opened m, .crash => some { st with database := .closed m.manifestManager.records }
  | _, _ => none

def fresh : Catalogue O := { database := .closed [] }

/-- An identifier is left for the family. -/
def HasIdentifier (st : Catalogue O) : CatalogueAction O → Prop
  | .create .. => ∀ m ∈ st.database.manager, m.nextColumnFamilyId + 1 < columnFamilyIdLimit
  | _ => True

instance (st : Catalogue O) : (action : CatalogueAction O) → Decidable (st.HasIdentifier action)
  | .create .. => inferInstanceAs (Decidable (∀ m ∈ st.database.manager, _))
  | .openWith _ | .drop _ | .close | .crash => inferInstanceAs (Decidable True)

/-- If the session ends now, the next open succeeds with the default family and the created ones. -/
def Survives (st : Catalogue O) : Prop :=
  ∀ order, order.Perm (st.descriptors codec) → ∃ m,
    ColumnFamilyManager.openDatabase codec st.database.records order = .ok m ∧
      m.families.Perm ((kDefaultColumnFamilyId, kDefaultColumnFamilyName) :: st.created) ∧
        m.listColumnFamilies.Perm (kDefaultColumnFamilyName :: st.created.map Prod.snd)

end Catalogue

/-! ## Opening -/

namespace ColumnFamilyManager
variable [DecidableEq O] {codec : OptionsCodec O}

def firstStart (codec : OptionsCodec O) (records : List (ManifestRecord O)) :
    ColumnFamilyManager O :=
  let family : ColumnFamily O := ⟨0, kDefaultColumnFamilyId, kDefaultColumnFamilyName, codec.defaults⟩
  { manifestManager :=
      { records := records
        lastSequence := (ManifestManager.recoverColumnFamilies codec [records]).2 }
    nextColumnFamilyId := 1
    defaultColumnFamily := some family
    columnFamiliesById := AList.insert kDefaultColumnFamilyId family ∅
    columnFamiliesByName := AList.insert kDefaultColumnFamilyName family ∅
    initialized := true
    built := 1 }

theorem openDatabase_nil (records : List (ManifestRecord O)) :
    openDatabase codec records [] = .ok (firstStart codec records) := by
  have valid : (firstStart codec records).validateAllColumnFamilies = .ok := by
    simp [validateAllColumnFamilies, firstStart, -AList.insert_empty, AList.lookup_insert]
  have recovered : recoverColumnFamilies codec { manifestManager := { records := records } } []
      (ManifestManager.recoverColumnFamilies codec [records]).2 =
        .ok { firstStart codec records with initialized := false } := by
    unfold recoverColumnFamilies
    change (if Status.isOk (firstStart codec records).validateAllColumnFamilies then
      Except.ok { firstStart codec records with initialized := false } else _) = _
    rw [valid]
    rfl
  rw [openDatabase, initializeFamilies, recovered]
  simp [Except.map, setupColumnFamilies, firstStart, -AList.insert_empty, AList.lookup_insert]

omit [DecidableEq O] in
theorem default_recovered {m : ColumnFamilyManager O} {order : List (ColumnFamilyDescriptor O)}
    (absent : ∀ d ∈ order, d.id ≠ kDefaultColumnFamilyId ∧ d.name ≠ kDefaultColumnFamilyName) :
    (order.foldl recoverColumnFamily m).defaultColumnFamily = m.defaultColumnFamily := by
  induction order generalizing m with
  | nil => rfl
  | cons d rest ih =>
      obtain ⟨⟨id, name⟩, later⟩ := List.forall_mem_cons.mp absent
      rw [List.foldl_cons, ih later, recoverColumnFamily]
      split
      · rfl
      · simp [id, name, build]

theorem openDatabase_without_default {records : List (ManifestRecord O)}
    {order : List (ColumnFamilyDescriptor O)} (some : order ≠ [])
    (absent : ∀ d ∈ order, d.id ≠ kDefaultColumnFamilyId ∧ d.name ≠ kDefaultColumnFamilyName) :
    openDatabase codec records order =
      .error (.corruption "Default column family is missing") := by
  have missing (m : ColumnFamilyManager O) (none : m.defaultColumnFamily = none) :
      (order.foldl recoverColumnFamily m).validateAllColumnFamilies =
        .corruption "Default column family is missing" := by
    rw [validateAllColumnFamilies, default_recovered absent, none]
    rfl
  have given : order.isEmpty = false := by simpa using some
  have recovered : recoverColumnFamilies codec { manifestManager := { records := records } } order
      (ManifestManager.recoverColumnFamilies codec [records]).2 =
        .error (.corruption "Default column family is missing") := by
    unfold recoverColumnFamilies
    simp only [given, Bool.false_eq_true, if_false]
    rw [missing _ rfl]
    rfl
  rw [openDatabase, initializeFamilies, recovered]
  rfl

end ColumnFamilyManager

namespace Catalogue
variable [DecidableEq O] {codec : OptionsCodec O} {st st' : Catalogue O}

/-! ## What the manifest and a session know -/

def table (codec : OptionsCodec O) (records : List (ManifestRecord O)) : DescriptorTable O :=
  records.foldl (fun table record => table.apply codec record) ∅

omit [DecidableEq O] in
theorem table_append (records : List (ManifestRecord O)) (record : ManifestRecord O) :
    table codec (records ++ [record]) = (table codec records).apply codec record :=
  List.foldl_append ..

structure InSession (m : ColumnFamilyManager O) (created : List (Nat × String)) : Prop where
  counted : 0 < m.nextColumnFamilyId
  below : ∀ family ∈ created, family.1 < m.nextColumnFamilyId
  default : (m.columnFamiliesByName.lookup kDefaultColumnFamilyName).isSome
  indexed : ∀ family ∈ created, (m.columnFamiliesByName.lookup family.2).isSome
  known : ∀ name, ∀ family ∈ m.columnFamiliesByName.lookup name,
    name = kDefaultColumnFamilyName ∨ (family.id, name) ∈ created

structure Recorded (codec : OptionsCodec O) (st : Catalogue O) : Prop where
  live : ∀ id name, (table codec st.database.records).Live id name ↔ (id, name) ∈ st.created
  keyed : (table codec st.database.records).Keyed
  ids : (st.created.map Prod.fst).Nodup
  names : (st.created.map Prod.snd).Nodup
  proper : ∀ family ∈ st.created,
    family.1 ≠ kDefaultColumnFamilyId ∧ family.2 ≠ kDefaultColumnFamilyName
  session : ∀ m, st.database = .opened m → InSession m st.created

omit [DecidableEq O] in
theorem inSession_firstStart (records : List (ManifestRecord O)) :
    InSession (ColumnFamilyManager.firstStart codec records) [] where
  counted := Nat.one_pos
  below := by simp
  default := by
    simp [ColumnFamilyManager.firstStart, -AList.insert_empty, AList.lookup_insert]
  indexed := by simp
  known name family found := by
    by_contra other
    simp only [not_or] at other
    simp [ColumnFamilyManager.firstStart, -AList.insert_empty, AList.lookup_insert_ne other.1]
      at found

omit [DecidableEq O] in
theorem recorded_fresh : Recorded codec (fresh : Catalogue O) where
  live := by simp [fresh, Database.records, table]
  keyed := fun id d found => by simp [fresh, Database.records, table] at found
  ids := .nil
  names := .nil
  proper := by simp [fresh]
  session := by simp [fresh]

omit [DecidableEq O] in
theorem Recorded.ended {m : ColumnFamilyManager O} {created : List (Nat × String)}
    (recorded : Recorded codec ⟨.opened m, created⟩) :
    Recorded codec ⟨.closed m.manifestManager.records, created⟩ where
  live := recorded.live
  keyed := recorded.keyed
  ids := recorded.ids
  names := recorded.names
  proper := recorded.proper
  session := by simp

omit [DecidableEq O] in
theorem Recorded.create {m m' : ColumnFamilyManager O} {created : List (Nat × String)}
    (recorded : Recorded codec ⟨.opened m, created⟩)
    (unwrapped : m.nextColumnFamilyId + 1 < columnFamilyIdLimit) {options : O} {name : String}
    {family : ColumnFamily O} (success : m.createColumnFamily options name = .ok (family, m')) :
    Recorded codec ⟨.opened m', created ++ [(family.id, family.name)]⟩ := by
  have session := recorded.session m rfl
  obtain ⟨-, unknown, rfl, rfl⟩ := ColumnFamilyManager.createColumnFamily_ok success
  have notDefault : name ≠ kDefaultColumnFamilyName := by
    rintro rfl
    simpa [unknown] using session.default
  have newName : ∀ other ∈ created, other.2 ≠ name := by
    rintro other member rfl
    simpa [unknown] using session.indexed other member
  have newId : ∀ other ∈ created, other.1 ≠ m.nextColumnFamilyId := fun other member =>
    Nat.ne_of_lt (session.below other member)
  have next : (m.nextColumnFamilyId + 1) % columnFamilyIdLimit = m.nextColumnFamilyId + 1 :=
    Nat.mod_eq_of_lt unwrapped
  refine
    { live := fun id other => ?_
      keyed := ?_
      ids := ?_
      names := ?_
      proper := ?_
      session := ?_ }
  · have before := recorded.live id other
    simp only [Database.records, ManifestManager.logCreateColumnFamily, table_append] at before ⊢
    rw [DescriptorTable.live_create rfl, before]
    simp only [List.mem_append, List.mem_singleton, Prod.mk.injEq]
    constructor
    · rintro (⟨same, named⟩ | ⟨-, old⟩)
      · exact .inr ⟨same, named.symm⟩
      · exact .inl old
    · rintro (old | ⟨same, named⟩)
      · exact .inr ⟨newId _ old, old⟩
      · exact .inl ⟨same, named.symm⟩
  · have before := recorded.keyed
    simp only [Database.records, ManifestManager.logCreateColumnFamily, table_append] at before ⊢
    exact before.apply _
  · rw [List.map_append]
    refine List.nodup_append.mpr ⟨recorded.ids, List.nodup_singleton _, ?_⟩
    rintro id old _ new rfl
    obtain ⟨other, member, rfl⟩ := List.mem_map.mp old
    exact newId other member (List.mem_singleton.mp new)
  · rw [List.map_append]
    refine List.nodup_append.mpr ⟨recorded.names, List.nodup_singleton _, ?_⟩
    rintro id old _ new rfl
    obtain ⟨other, member, rfl⟩ := List.mem_map.mp old
    exact newName other member (List.mem_singleton.mp new)
  · intro other member
    rcases List.mem_append.mp member with old | new
    · exact recorded.proper other old
    · obtain rfl := List.mem_singleton.mp new
      exact ⟨Nat.ne_of_gt session.counted, notDefault⟩
  · intro m' same
    obtain rfl := Database.opened.inj same
    refine ⟨?_, ?_, ?_, ?_, ?_⟩
    · simp only [next]
      exact Nat.succ_pos _
    · intro other member
      simp only [next]
      rcases List.mem_append.mp member with old | new
      · exact Nat.lt_succ_of_lt (session.below other old)
      · obtain rfl := List.mem_singleton.mp new
        exact Nat.lt_succ_self _
    · simp only [ColumnFamilyManager.add, AList.lookup_insert_ne notDefault.symm]
      exact session.default
    · intro other member
      rcases List.mem_append.mp member with old | new
      · simp only [ColumnFamilyManager.add, AList.lookup_insert_ne (newName other old)]
        exact session.indexed other old
      · obtain rfl := List.mem_singleton.mp new
        simp [ColumnFamilyManager.add, AList.lookup_insert]
    · intro other cf found
      by_cases same : other = name
      · subst same
        simp only [ColumnFamilyManager.add, AList.lookup_insert, Option.mem_some_iff] at found
        subst found
        exact .inr (List.mem_append_right _ (List.mem_singleton_self _))
      · simp only [ColumnFamilyManager.add, AList.lookup_insert_ne same] at found
        exact (session.known other cf found).imp_right (List.mem_append_left _)

omit [DecidableEq O] in
theorem Recorded.drop {m m' : ColumnFamilyManager O} {created : List (Nat × String)}
    (recorded : Recorded codec ⟨.opened m, created⟩) {name : String}
    (success : m.dropColumnFamily name = .ok m') :
    Recorded codec ⟨.opened m', created.filter fun family => family.2 ≠ name⟩ := by
  have session := recorded.session m rfl
  obtain ⟨-, notDefault, family, found, rfl⟩ := ColumnFamilyManager.dropColumnFamily_ok success
  have dropped : (family.id, name) ∈ created :=
    (session.known name family found).resolve_left notDefault
  have kept {other : Nat × String} : other ∈ created.filter (fun family => family.2 ≠ name) ↔
      other ∈ created ∧ other.2 ≠ name := by simp
  refine
    { live := fun id other => ?_
      keyed := ?_
      ids := recorded.ids.sublist (List.filter_sublist.map _)
      names := recorded.names.sublist (List.filter_sublist.map _)
      proper := fun other member => recorded.proper other (kept.mp member).1
      session := ?_ }
  · have before := recorded.live id other
    simp only [Database.records, ManifestManager.logDropColumnFamily, table_append] at before ⊢
    rw [DescriptorTable.live_drop, before, kept, and_comm]
    refine and_congr_right fun member => not_congr ⟨?_, ?_⟩
    · rintro rfl
      exact congrArg Prod.snd (List.inj_on_of_nodup_map recorded.ids member dropped rfl)
    · rintro rfl
      exact congrArg Prod.fst (List.inj_on_of_nodup_map recorded.names member dropped rfl)
  · have before := recorded.keyed
    simp only [Database.records, ManifestManager.logDropColumnFamily, table_append] at before ⊢
    exact before.apply _
  · intro m' same
    obtain rfl := Database.opened.inj same
    refine ⟨session.counted, fun other member => session.below other (kept.mp member).1, ?_, ?_, ?_⟩
    · simp only [AList.lookup_erase_ne notDefault.symm]
      exact session.default
    · intro other member
      simp only [AList.lookup_erase_ne (kept.mp member).2]
      exact session.indexed other (kept.mp member).1
    · intro other cf found
      by_cases same : other = name
      · subst same
        simp [AList.lookup_erase] at found
      · simp only [AList.lookup_erase_ne same] at found
        exact (session.known other cf found).imp_right fun member => kept.mpr ⟨member, same⟩

omit [DecidableEq O] in
theorem Recorded.mem_descriptors (recorded : Recorded codec st)
    {descriptor : ColumnFamilyDescriptor O} (member : descriptor ∈ st.descriptors codec) :
    (descriptor.id, descriptor.name) ∈ st.created := by
  obtain ⟨⟨id, found⟩, alive⟩ := ManifestManager.mem_live.mp member
  obtain rfl := recorded.keyed id descriptor found
  exact (recorded.live _ _).mp ⟨descriptor, found, alive, rfl⟩

omit [DecidableEq O] in
theorem Recorded.descriptors_eq_nil (recorded : Recorded codec st) :
    st.descriptors codec = [] ↔ st.created = [] := by
  constructor
  · intro none
    refine List.eq_nil_iff_forall_not_mem.mpr fun family member => ?_
    obtain ⟨descriptor, found, alive, -⟩ := (recorded.live family.1 family.2).mpr member
    have inside : descriptor ∈ st.descriptors codec :=
      ManifestManager.mem_live.mpr ⟨⟨family.1, found⟩, alive⟩
    rw [none] at inside
    cases inside
  · intro none
    refine List.eq_nil_iff_forall_not_mem.mpr fun descriptor member => ?_
    have inside := recorded.mem_descriptors member
    rw [none] at inside
    cases inside

theorem Recorded.open_fails (recorded : Recorded codec st) (some : st.created ≠ [])
    {order : List (ColumnFamilyDescriptor O)} (listed : order.Perm (st.descriptors codec)) :
    ColumnFamilyManager.openDatabase codec st.database.records order =
      .error (.corruption "Default column family is missing") := by
  apply ColumnFamilyManager.openDatabase_without_default
  · rintro rfl
    exact some (recorded.descriptors_eq_nil.mp listed.symm.eq_nil)
  · intro descriptor member
    exact recorded.proper _ (recorded.mem_descriptors (listed.subset member))

theorem Recorded.step (recorded : Recorded codec st) {action : CatalogueAction O}
    (identifier : st.HasIdentifier action) (stepped : st.step codec action = some st') :
    Recorded codec st' := by
  obtain ⟨database, created⟩ := st
  cases database with
  | closed records =>
      cases action with
      | openWith order =>
          simp only [Catalogue.step] at stepped
          split at stepped <;> [rename_i listed; cases stepped]
          split at stepped
          · rename_i m success
            obtain rfl := Option.some.inj stepped
            by_cases none : created = []
            · subst none
              obtain rfl : order = [] := by
                rw [recorded.descriptors_eq_nil.mpr rfl] at listed
                exact listed.eq_nil
              obtain rfl :=
                Except.ok.inj ((ColumnFamilyManager.openDatabase_nil records).symm.trans success)
              exact
                { live := recorded.live
                  keyed := recorded.keyed
                  ids := .nil
                  names := .nil
                  proper := by simp
                  session := fun m same => Database.opened.inj same ▸ inSession_firstStart records }
            · have fails := recorded.open_fails none listed
              cases success.symm.trans fails
          · obtain rfl := Option.some.inj stepped
            exact recorded
      | create | drop | close | crash => cases stepped
  | opened m =>
      cases action with
      | openWith => cases stepped
      | create options name =>
          simp only [Catalogue.step] at stepped
          split at stepped
          · rename_i family m' success
            obtain rfl := Option.some.inj stepped
            exact recorded.create (identifier m rfl) success
          · cases stepped
      | drop name =>
          simp only [Catalogue.step] at stepped
          split at stepped
          · rename_i m' success
            obtain rfl := Option.some.inj stepped
            exact recorded.drop success
          · cases stepped
      | close | crash =>
          obtain rfl := Option.some.inj stepped
          exact recorded.ended

/-- In every history that does not run out of identifiers, the catalogue survives the end of the
session exactly when no family besides the default one is left. -/
theorem survives_iff_of_run (run : Run (step codec) HasIdentifier fresh st) :
    st.Survives codec ↔ st.created = [] := by
  have recorded : Recorded codec st :=
    run.invariant (fun _ _ _ identifier stepped recorded => recorded.step identifier stepped)
      recorded_fresh
  constructor
  · intro survives
    by_contra some
    obtain ⟨m, success, -⟩ := survives (st.descriptors codec) (.refl _)
    cases success.symm.trans (recorded.open_fails some (.refl _))
  · intro none order listed
    rw [recorded.descriptors_eq_nil.mpr none] at listed
    obtain rfl := listed.eq_nil
    refine ⟨_, ColumnFamilyManager.openDatabase_nil _, ?_, ?_⟩
    · rw [none]
      exact .refl _
    · rw [none]
      exact .refl _

def unitOptions : OptionsCodec Unit := ⟨(), id⟩

def createAndDrop : List (CatalogueAction Unit) :=
  [.openWith [], .create () "extra", .drop "extra", .crash]

def createAndClose : List (CatalogueAction Unit) := [.openWith [], .create () "extra", .close]

theorem survives_iff_of_run_createAndDrop :
    ∃ st, execute (step unitOptions) fresh createAndDrop = some st ∧
      (st.Survives unitOptions ↔ st.created = []) ∧ st.database.records.length = 2 ∧
        st.created = [] := by
  have facts : (execute (step unitOptions) fresh createAndDrop).any fun st =>
      st.database.records.length = 2 ∧ st.created = [] := by decide +kernel
  have allowed : Allowed (step unitOptions) HasIdentifier fresh createAndDrop := by decide +kernel
  obtain ⟨st, executed, facts⟩ := Option.any_eq_true _ _ |>.mp facts
  exact ⟨st, executed, survives_iff_of_run (execute_run _ allowed executed), of_decide_eq_true facts⟩

theorem survives_fails_createAndClose :
    ¬ ∀ st : Catalogue Unit, Run (step unitOptions) HasIdentifier fresh st →
      st.Survives unitOptions := by
  intro always
  have facts : (execute (step unitOptions) fresh createAndClose).any fun st =>
      (ColumnFamilyManager.openDatabase unitOptions st.database.records
        (st.descriptors unitOptions)).toOption.isNone := by decide +kernel
  have allowed : Allowed (step unitOptions) HasIdentifier fresh createAndClose := by decide +kernel
  obtain ⟨st, executed, fails⟩ := Option.any_eq_true _ _ |>.mp facts
  obtain ⟨m, success, -⟩ := always st (execute_run _ allowed executed) _ (.refl _)
  rw [success] at fails
  cases fails

end Catalogue
end Lrdb
