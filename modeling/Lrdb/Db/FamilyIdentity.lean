import Lrdb.Db.OwnData
import Lrdb.Db.ReadOnly

namespace Lrdb
open Runs column_family_util

def OpenFamily.ReadsOwn {cmp : Comparator} (f : OpenFamily cmp) : Prop :=
  ∀ key value v sequence, (f.session.get key value).Answers (some v) ∨
    (f.session.getAt key sequence value).Answers (some v) →
      f.session.manager.Committed key (some v)

theorem OpenFamily.Own.reads {cmp : Comparator} {f : OpenFamily cmp} (own : f.Own) : f.ReadsOwn :=
  fun _ _ _ _ answers => answers.elim own.session.get own.session.getAt

namespace DBImpl
open Catalogue

variable {O D : Type} {cmp : Comparator} {env : DBEnv O D} {db db' : DBImpl O D cmp}
  {m : ColumnFamilyManager O}

def everyFamily (db : DBImpl O D cmp) : List (Nat × String) :=
  (kDefaultColumnFamilyId, kDefaultColumnFamilyName) :: db.given

/-- The calls after which the families stay apart: a family is created in a session that found an empty
manifest, with an identifier left, under a path that leads to no directory of another family. -/
def KeepsApart (env : DBEnv O D) (db : DBImpl O D cmp) : DBAction O cmp → Prop
  | .createColumnFamily _ name _ => ∀ m ∈ db.database.manager,
      ¬ name.isEmpty → m.columnFamiliesByName.lookup name = none →
        db.found = [] ∧ m.nextColumnFamilyId + 1 < columnFamilyIdLimit ∧
          ∀ old ∈ db.everyFamily,
            env.directory old.1 old.2 ≠ env.directory m.nextColumnFamilyId name
  | _ => True

instance [DecidableEq D] (db : DBImpl O D cmp) :
    (action : DBAction O cmp) → Decidable (KeepsApart env db action)
  | .createColumnFamily _ name _ => inferInstanceAs (Decidable (∀ m ∈ db.database.manager,
      ¬ name.isEmpty → m.columnFamiliesByName.lookup name = none →
        db.found = [] ∧ m.nextColumnFamilyId + 1 < columnFamilyIdLimit ∧
          ∀ old ∈ db.everyFamily,
            env.directory old.1 old.2 ≠ env.directory m.nextColumnFamilyId name))
  | .openWith .. | .interrupt .. | .put .. | .delete .. | .family .. | .dropColumnFamily ..
  | .endSession _ => inferInstanceAs (Decidable True)

/-- No identifier was given twice, a family reads its own data only, and one that is created next finds
nothing. -/
structure Separate [DecidableEq D] (env : DBEnv O D) (db : DBImpl O D cmp) : Prop where
  ids : (db.everyFamily.map Prod.fst).Nodup
  own : ∀ family ∈ db.given, ∀ f ∈ db.active env family.2, f.ReadsOwn
  created : ∀ options name start db',
    KeepsApart env db (.createColumnFamily options name start) →
      db.createColumnFamily env options name start = some db' → db'.given ≠ db.given →
        ∃ f ∈ db'.active env name, f.ReadsOwn ∧ f.session.manager.commits = []

/-! ## What is kept -/

def Untouched (env : DBEnv O D) (db : DBImpl O D cmp) : Prop :=
  ∀ d, (∀ old ∈ db.everyFamily, env.directory old.1 old.2 ≠ d) → db.directories d = .closed {}

def Known (db : DBImpl O D cmp) (family : ColumnFamily O) : Prop :=
  (family.id, family.name) = (kDefaultColumnFamilyId, kDefaultColumnFamilyName) ∨
    db.found = [] ∧ (family.id, family.name) ∈ db.given

theorem Known.mem {family : ColumnFamily O} (known : Known db family) :
    (family.id, family.name) ∈ db.everyFamily :=
  known.elim (fun same => same ▸ List.mem_cons_self ..) fun created =>
    List.mem_cons_of_mem _ created.2

structure KeptOpen (env : DBEnv O D) (db : DBImpl O D cmp) (m : ColumnFamilyManager O) : Prop where
  named : ∀ name, ∀ family ∈ m.columnFamiliesByName.lookup name, family.name = name ∧ Known db family
  indexed : ∀ family ∈ families m, Known db family
  default : (m.columnFamiliesByName.lookup kDefaultColumnFamilyName).isSome
  counted : db.found = [] → ∀ old ∈ db.everyFamily, old.1 < m.nextColumnFamilyId
  untouched : db.found = [] → Untouched env db
  recorded : db.found ≠ [] → m.manifestManager.records ≠ []

structure Kept (env : DBEnv O D) (db : DBImpl O D cmp) : Prop where
  recorded : ∃ created, Recorded env.codec ⟨db.database, created⟩
  empty : db.database.records = [] → db.given = []
  ids : (db.everyFamily.map Prod.fst).Nodup
  places : (db.everyFamily.map fun family => env.directory family.1 family.2).Nodup
  proper : ∀ old ∈ db.given, old.2 ≠ kDefaultColumnFamilyName
  own : ∀ d f, db.directories d = .opened f →
    d ≠ env.directory kDefaultColumnFamilyId kDefaultColumnFamilyName → f.Own
  closed : ∀ records, db.database = .closed records → records = [] → Untouched env db
  session : ∀ m, db.database = .opened m → KeptOpen env db m

theorem Kept.lookup_known (kept : Kept env db) {name : String} {family : ColumnFamily O}
    (found : db.lookup name = some family) : family.name = name ∧ Known db family := by
  rw [lookup] at found
  cases opened : db.database with
  | closed records => rw [opened] at found; cases found
  | opened m =>
      rw [opened] at found
      exact (kept.session m opened).named name family found

theorem kept_fresh : Kept env (fresh : DBImpl O D cmp) where
  recorded := ⟨[], recorded_fresh⟩
  empty _ := rfl
  ids := List.nodup_singleton _
  places := List.nodup_singleton _
  proper := by simp [fresh]
  own d f running := by cases running
  closed _ _ _ _ _ := rfl
  session m opened := by cases opened

variable [DecidableEq D]

theorem Kept.setDirectory (kept : Kept env db) {old : Nat × String} (member : old ∈ db.everyFamily)
    {lifetime : Lifetime cmp} (own : ∀ f, lifetime = .opened f →
      env.directory old.1 old.2 ≠
        env.directory kDefaultColumnFamilyId kDefaultColumnFamilyName → f.Own) :
    Kept env (db.setDirectory (env.directory old.1 old.2) lifetime) := by
  have elsewhere (untouched : Untouched env db) :
      Untouched env (db.setDirectory (env.directory old.1 old.2) lifetime) := by
    intro d free
    have other : d ≠ env.directory old.1 old.2 := (free old member).symm
    simp only [DBImpl.setDirectory, Function.update_of_ne other]
    exact untouched d free
  refine { kept with own := ?_, closed := ?_, session := ?_ }
  · intro d f running notDefault
    by_cases same : d = env.directory old.1 old.2
    · subst same
      simp only [DBImpl.setDirectory, Function.update_self] at running
      exact own f running notDefault
    · simp only [DBImpl.setDirectory, Function.update_of_ne same] at running
      exact kept.own d f running notDefault
  · exact fun records same none => elsewhere (kept.closed records same none)
  · intro m opened
    have session := kept.session m opened
    exact { session with untouched := fun none => elsewhere (session.untouched none) }

theorem Kept.setDefault (kept : Kept env db) (lifetime : Lifetime cmp) : Kept env
    (db.setDirectory (env.directory kDefaultColumnFamilyId kDefaultColumnFamilyName) lifetime) :=
  kept.setDirectory (List.mem_cons_self ..) fun _ _ notDefault => absurd rfl notDefault

theorem Kept.runFamily (kept : Kept env db) {family : ColumnFamily O} (known : Known db family)
    {action : FamilyAction cmp} (ran : db.runFamily env family action = some db') : Kept env db' := by
  unfold DBImpl.runFamily at ran
  dsimp only at ran
  split at ran <;> [cases ran; rename_i f running]
  obtain ⟨f', moved, rfl⟩ := Option.map_eq_some_iff.mp ran
  refine kept.setDirectory known.mem ?_
  rintro _ same notDefault
  obtain rfl := Lifetime.opened.inj same
  exact (kept.own _ f running notDefault).run moved

omit [DecidableEq D] in
theorem closed_of_end {options : LSMTreeOptions} {before after : Lifetime cmp} {ends : FamilyEnd}
    (ended : before.step options ends.action = some after) : ∃ disk, after = .closed disk := by
  cases before with
  | closed disk => cases ends <;> cases ended
  | opened f =>
      cases ends <;>
        obtain ⟨disk, -, rfl⟩ := Option.map_eq_some_iff.mp ended <;>
        exact ⟨disk, rfl⟩

theorem Kept.endFamilies {ends : ColumnFamily O → FamilyEnd} {fs : List (ColumnFamily O)}
    {before after : D → Lifetime cmp} (kept : Kept env { db with directories := before })
    (known : ∀ family ∈ fs, Known db family)
    (ran : fs.foldlM (fun directories family =>
      endFamily env (ends family) family directories) before = some after) :
    Kept env { db with directories := after } := by
  induction fs generalizing before with
  | nil =>
      obtain rfl := Option.some.inj ran
      exact kept
  | cons family rest ih =>
      obtain ⟨here, later⟩ := List.forall_mem_cons.mp known
      rw [List.foldlM_cons] at ran
      obtain ⟨middle, ended, ran⟩ := Option.bind_eq_some_iff.mp ran
      obtain ⟨lifetime, stepped, rfl⟩ := Option.map_eq_some_iff.mp ended
      refine ih (kept.setDirectory (Known.mem here) ?_) later ran
      obtain ⟨disk, rfl⟩ := closed_of_end stepped
      rintro f ⟨⟩

theorem Kept.endSession (kept : Kept env db) {ends : ColumnFamily O → FamilyEnd}
    (ended : db.endSession env ends = some db') : Kept env db' := by
  unfold DBImpl.endSession at ended
  split at ended <;> [cases ended; rename_i m opened]
  obtain ⟨directories, ran, rfl⟩ := Option.map_eq_some_iff.mp ended
  have session := kept.session m opened
  have start : Kept env { db with directories := db.directories } := kept
  have after := start.endFamilies session.indexed ran
  have running := after.session m opened
  obtain ⟨created, recorded⟩ := kept.recorded
  rw [opened] at recorded
  refine
    { after with
      recorded := ⟨created, recorded.ended⟩
      empty := fun none => after.empty (by rw [opened]; exact none)
      closed := ?_
      session := fun m' opened' => by cases opened' }
  rintro records same rfl
  have none : m.manifestManager.records = [] := Database.closed.inj same
  refine running.untouched ?_
  by_contra found
  exact running.recorded found none

variable [DecidableEq O]

theorem Kept.interrupt (kept : Kept env db) {descriptor : ColumnFamilyDescriptor O}
    {start : FamilyStart} (crashed : db.interrupt env descriptor start = some db') :
    Kept env db' := by
  unfold DBImpl.interrupt at crashed
  split at crashed <;> [cases crashed; rename_i records closed]
  dsimp only at crashed
  split at crashed <;> [rename_i built; cases crashed]
  obtain ⟨lifetime, stepped, rfl⟩ := Option.map_eq_some_iff.mp crashed
  have ends : ∃ disk, lifetime = .closed disk := by
    cases here : db.directories (env.directory descriptor.id descriptor.name) with
    | opened f => rw [here] at stepped; cases stepped
    | closed disk =>
        rw [here] at stepped
        obtain ⟨disk, -, rfl⟩ := Option.map_eq_some_iff.mp stepped
        exact ⟨disk, rfl⟩
  obtain ⟨disk, rfl⟩ := ends
  by_cases none : records = []
  · subst none
    obtain rfl := List.mem_singleton.mp built
    exact kept.setDefault _
  · refine { kept with own := ?_, closed := ?_, session := ?_ }
    · intro d f running notDefault
      by_cases same : d = env.directory descriptor.id descriptor.name
      · subst same
        simp only [DBImpl.setDirectory, Function.update_self] at running
        cases running
      · simp only [DBImpl.setDirectory, Function.update_of_ne same] at running
        exact kept.own d f running notDefault
    · intro others same empty
      exact absurd ((Database.closed.inj (closed.symm.trans same)).trans empty) none
    · intro m opened
      cases closed.symm.trans opened

omit [DecidableEq O] in
theorem families_firstStart (codec : OptionsCodec O) (records : List (ManifestRecord O)) :
    families (ColumnFamilyManager.firstStart codec records) =
      [⟨0, kDefaultColumnFamilyId, kDefaultColumnFamilyName, codec.defaults⟩] := by
  simp [families, ColumnFamilyManager.firstStart]

omit [DecidableEq O] [DecidableEq D] in
theorem keptOpen_firstStart {records : List (ManifestRecord O)}
    (db : DBImpl O D cmp) (empty : db.found = [] → db.given = [])
    (untouched : db.found = [] → Untouched env db) (found : db.found = records) :
    KeptOpen env db (ColumnFamilyManager.firstStart env.codec records) where
  named name family here := by
    by_cases same : name = kDefaultColumnFamilyName
    · subst same
      simp only [ColumnFamilyManager.firstStart, AList.lookup_insert, Option.mem_some_iff] at here
      subst here
      exact ⟨rfl, .inl rfl⟩
    · simp [ColumnFamilyManager.firstStart, -AList.insert_empty, AList.lookup_insert_ne same] at here
  indexed family member := by
    rw [families_firstStart] at member
    obtain rfl := List.mem_singleton.mp member
    exact .inl rfl
  default := by
    simp [ColumnFamilyManager.firstStart, -AList.insert_empty, AList.lookup_insert]
  counted none old member := by
    rw [everyFamily, empty none] at member
    obtain rfl := List.mem_singleton.mp member
    exact Nat.one_pos
  untouched := untouched
  recorded some := found ▸ some

theorem Kept.openWith (kept : Kept env db) {readOnly : Bool}
    {order : List (ColumnFamilyDescriptor O)} {starts : ColumnFamily O → FamilyStart}
    (opens : db.openWith env readOnly order starts = some db') : Kept env db' := by
  unfold DBImpl.openWith at opens
  split at opens <;> [cases opens; rename_i records closed]
  split at opens <;> [rename_i listed; cases opens]
  split at opens <;> [cases opens; rename_i m success]
  obtain ⟨directories, ran, rfl⟩ := Option.map_eq_some_iff.mp opens
  obtain ⟨created, recorded⟩ := kept.recorded
  rw [closed] at recorded
  -- With a live family the open would fail.
  have none : created = [] := by
    by_contra some
    cases success.symm.trans (recorded.open_fails some listed)
  subst none
  have empty : order = [] := by
    have listed : order.Perm (Catalogue.descriptors env.codec ⟨.closed records, []⟩) := listed
    rw [recorded.descriptors_eq_nil.mpr rfl] at listed
    exact listed.eq_nil
  subst empty
  obtain rfl := Except.ok.inj ((ColumnFamilyManager.openDatabase_nil records).symm.trans success)
  rw [families_firstStart, List.foldlM_cons] at ran
  obtain ⟨started, ran, same⟩ := Option.bind_eq_some_iff.mp ran
  obtain rfl := Option.some.inj same
  unfold startFamily at ran
  dsimp only at ran
  split at ran <;> [rename_i f _; cases ran]
  obtain rfl := Option.some.inj ran
  have after := kept.setDefault (.opened (f.identified kDefaultColumnFamilyId))
  refine
    { recorded := ⟨[], ?_⟩
      empty := fun none => kept.empty (by rw [closed]; exact none)
      ids := kept.ids
      places := kept.places
      proper := kept.proper
      own := after.own
      closed := fun _ opened => by cases opened
      session := ?_ }
  · exact
      { live := recorded.live
        keyed := recorded.keyed
        ids := .nil
        names := .nil
        proper := by simp
        session := fun m same => Database.opened.inj same ▸ inSession_firstStart records }
  · intro m opened
    obtain rfl := Database.opened.inj opened
    refine keptOpen_firstStart _ ?_ ?_ rfl
    · rintro rfl
      exact kept.empty (by rw [closed]; rfl)
    · rintro rfl
      exact after.closed [] closed rfl

omit [DecidableEq O] [DecidableEq D] in
theorem mem_families {family : ColumnFamily O} :
    family ∈ families m ↔ ∃ id, family ∈ m.columnFamiliesById.lookup id := by
  simp only [families, List.mem_map, AList.mem_lookup_iff]
  constructor
  · rintro ⟨⟨id, other⟩, member, rfl⟩
    exact ⟨id, member⟩
  · rintro ⟨id, member⟩
    exact ⟨_, member, rfl⟩

omit [DecidableEq O] in
theorem Kept.started (kept : Kept env db) (opened : db.database = .opened m) {name : String}
    {options : O} {start : FamilyStart} {directories : D → Lifetime cmp}
    (free : db.found = [] ∧ m.nextColumnFamilyId + 1 < columnFamilyIdLimit ∧
      ∀ old ∈ db.everyFamily, env.directory old.1 old.2 ≠ env.directory m.nextColumnFamilyId name)
    (ran : startFamily env start ⟨m.built, m.nextColumnFamilyId, name, options⟩ db.directories =
      some directories) : ∃ f : OpenFamily cmp, f.Own ∧ f.session.manager.commits = [] ∧
        directories = Function.update db.directories
          (env.directory m.nextColumnFamilyId name) (.opened f) := by
  have nothing := (kept.session m opened).untouched free.1 _ free.2.2
  unfold startFamily at ran
  dsimp only [DBEnv.directoryOf] at ran
  rw [nothing] at ran
  split at ran <;> [rename_i f started; cases ran]
  obtain ⟨g, opens, same⟩ := Option.map_eq_some_iff.mp started
  obtain rfl := Lifetime.opened.inj same
  obtain ⟨own, commits⟩ := Disk.start_empty opens m.nextColumnFamilyId
  exact ⟨_, own, commits, (Option.some.inj ran).symm⟩

omit [DecidableEq O] in
theorem Kept.create (kept : Kept env db) (opened : db.database = .opened m) {name : String}
    {options : O} {family : ColumnFamily O} {m' : ColumnFamilyManager O}
    (free : db.found = [] ∧ m.nextColumnFamilyId + 1 < columnFamilyIdLimit ∧
      ∀ old ∈ db.everyFamily, env.directory old.1 old.2 ≠ env.directory m.nextColumnFamilyId name)
    (success : m.createColumnFamily options name = .ok (family, m')) {f : OpenFamily cmp}
    (own : f.Own) : Kept env { db with
      database := .opened m'
      given := db.given ++ [(m.nextColumnFamilyId, name)]
      directories := Function.update db.directories
        (env.directory m.nextColumnFamilyId name) (.opened f) } := by
  have session := kept.session m opened
  obtain ⟨created, recorded⟩ := kept.recorded
  rw [opened] at recorded
  have recorded := recorded.create free.2.1 success
  obtain ⟨-, unknown, rfl, rfl⟩ := ColumnFamilyManager.createColumnFamily_ok success
  have counted := session.counted free.1
  have notDefault : name ≠ kDefaultColumnFamilyName := by
    rintro rfl
    simpa [unknown] using session.default
  have next : (m.nextColumnFamilyId + 1) % columnFamilyIdLimit = m.nextColumnFamilyId + 1 :=
    Nat.mod_eq_of_lt free.2.1
  refine
    { recorded := ⟨_, recorded⟩
      empty := fun none => by simp [Database.records, ManifestManager.logCreateColumnFamily] at none
      ids := ?_
      places := ?_
      proper := ?_
      own := ?_
      closed := fun _ same => by cases same
      session := ?_ }
  · rw [everyFamily, ← List.cons_append, List.map_append]
    refine List.nodup_append.mpr ⟨kept.ids, List.nodup_singleton _, ?_⟩
    rintro _ old _ new rfl
    obtain ⟨other, member, same⟩ := List.mem_map.mp old
    exact absurd (same.trans (List.mem_singleton.mp new)) (counted other member).ne
  · rw [everyFamily, ← List.cons_append, List.map_append]
    refine List.nodup_append.mpr ⟨kept.places, List.nodup_singleton _, ?_⟩
    rintro _ old _ new rfl
    obtain ⟨other, member, same⟩ := List.mem_map.mp old
    exact absurd (same.trans (List.mem_singleton.mp new)) (free.2.2 other member)
  · intro old member
    rcases List.mem_append.mp member with before | new
    · exact kept.proper old before
    · obtain rfl := List.mem_singleton.mp new
      exact notDefault
  · intro d g running other
    by_cases same : d = env.directory m.nextColumnFamilyId name
    · subst same
      simp only [Function.update_self] at running
      exact Lifetime.opened.inj running ▸ own
    · simp only [Function.update_of_ne same] at running
      exact kept.own d g running other
  · intro m' same
    obtain rfl := Database.opened.inj same
    refine
      { named := fun other family found => ?_
        indexed := fun family member => ?_
        default := ?_
        counted := fun _ old member => ?_
        untouched := fun _ d outside => ?_
        recorded := fun some => absurd free.1 some }
    · by_cases same : other = name
      · subst same
        simp only [ColumnFamilyManager.add, AList.lookup_insert, Option.mem_some_iff] at found
        subst found
        exact ⟨rfl, .inr ⟨free.1, List.mem_append_right _ (List.mem_singleton_self _)⟩⟩
      · simp only [ColumnFamilyManager.add, AList.lookup_insert_ne same] at found
        obtain ⟨named, known⟩ := session.named other family found
        exact ⟨named, known.imp_right (And.imp_right (List.mem_append_left _))⟩
    · obtain ⟨id, found⟩ := mem_families.mp member
      by_cases same : id = m.nextColumnFamilyId
      · subst same
        simp only [ColumnFamilyManager.add, AList.lookup_insert, Option.mem_some_iff] at found
        subst found
        exact .inr ⟨free.1, List.mem_append_right _ (List.mem_singleton_self _)⟩
      · simp only [ColumnFamilyManager.add, AList.lookup_insert_ne same] at found
        exact (session.indexed family (mem_families.mpr ⟨id, found⟩)).imp_right
          (And.imp_right (List.mem_append_left _))
    · simp only [ColumnFamilyManager.add, AList.lookup_insert_ne notDefault.symm]
      exact session.default
    · simp only [next]
      rw [everyFamily, ← List.cons_append] at member
      rcases List.mem_append.mp member with before | new
      · exact Nat.lt_succ_of_lt (counted old before)
      · obtain rfl := List.mem_singleton.mp new
        exact Nat.lt_succ_self _
    · have outside : ∀ old ∈ db.everyFamily ++ [(m.nextColumnFamilyId, name)],
          env.directory old.1 old.2 ≠ d := outside
      obtain ⟨before, new⟩ := List.forall_mem_append.mp outside
      simp only [Function.update_of_ne (new _ (List.mem_singleton_self _)).symm]
      exact session.untouched free.1 d before

omit [DecidableEq O] in
theorem Kept.drop (kept : Kept env db) {name : String} {point : ShutdownPoint}
    (dropped : db.dropColumnFamily env name point = some db') : Kept env db' := by
  unfold DBImpl.dropColumnFamily at dropped
  split at dropped <;> [cases dropped; rename_i m opened]
  split at dropped
  · rename_i m' family success found
    obtain ⟨directories, ended, rfl⟩ := Option.map_eq_some_iff.mp dropped
    obtain ⟨lifetime, stepped, rfl⟩ := Option.map_eq_some_iff.mp ended
    obtain ⟨disk, rfl⟩ := closed_of_end stepped
    obtain ⟨-, known⟩ := (kept.session m opened).named name family found
    have after : Kept env (db.setDirectory (env.directoryOf family) (.closed disk)) :=
      kept.setDirectory known.mem (by rintro f ⟨⟩)
    have session := after.session m opened
    obtain ⟨created, recorded⟩ := kept.recorded
    rw [opened] at recorded
    have recorded := recorded.drop success
    obtain ⟨-, notDefault, other, -, rfl⟩ := ColumnFamilyManager.dropColumnFamily_ok success
    refine
      { after with
        recorded := ⟨_, recorded⟩
        empty := fun none => by simp [Database.records, ManifestManager.logDropColumnFamily] at none
        closed := fun _ same => by cases same
        session := ?_ }
    intro m' same
    obtain rfl := Database.opened.inj same
    refine
      { session with
        named := fun other family found => ?_
        indexed := fun family member => ?_
        default := ?_
        recorded := fun _ => by simp [ManifestManager.logDropColumnFamily] }
    · by_cases same : other = name
      · subst same
        simp [AList.lookup_erase] at found
      · simp only [AList.lookup_erase_ne same] at found
        exact session.named other family found
    · obtain ⟨id, found⟩ := mem_families.mp member
      by_cases same : id = other.id
      · subst same
        simp [AList.lookup_erase] at found
      · simp only [AList.lookup_erase_ne same] at found
        exact session.indexed family (mem_families.mpr ⟨id, found⟩)
    · simp only [AList.lookup_erase_ne notDefault.symm]
      exact session.default
  · obtain rfl := Option.some.inj dropped
    exact kept

omit [DecidableEq O] [DecidableEq D] in
theorem KeepsApart.free {options : O} {name : String} {start : FamilyStart}
    (allowed : KeepsApart env db (.createColumnFamily options name start))
    (opened : db.database = .opened m) {family : ColumnFamily O} {m' : ColumnFamilyManager O}
    (success : m.createColumnFamily options name = .ok (family, m')) :
    db.found = [] ∧ m.nextColumnFamilyId + 1 < columnFamilyIdLimit ∧
      ∀ old ∈ db.everyFamily,
        env.directory old.1 old.2 ≠ env.directory m.nextColumnFamilyId name := by
  have named : ¬ name.isEmpty := by
    intro empty
    obtain ⟨status, error⟩ := ColumnFamilyManager.createColumnFamily_refused options (.inl empty)
    cases success.symm.trans error
  obtain ⟨-, unknown, -⟩ := ColumnFamilyManager.createColumnFamily_ok success
  have current : db.database.manager = some m := by
    rw [opened]
    rfl
  exact allowed m current named unknown

theorem Kept.step (kept : Kept env db) {action : DBAction O cmp} (allowed : KeepsApart env db action)
    (stepped : db.step env action = some db') : Kept env db' := by
  cases action with
  | openWith => exact kept.openWith stepped
  | interrupt => exact kept.interrupt stepped
  | put name key value | delete name key =>
      change db.write env _ _ _ = some db' at stepped
      rw [write, writeTarget] at stepped
      split at stepped <;> rename_i target
      · obtain rfl := Option.some.inj stepped
        exact kept
      · split at target <;> [cases target; skip]
        split at target <;> [cases target; rename_i found]
        obtain rfl := Except.ok.inj target
        exact kept.runFamily (kept.lookup_known found).2 stepped
  | family name action =>
      obtain ⟨family, found, ran⟩ := Option.bind_eq_some_iff.mp stepped
      exact kept.runFamily (kept.lookup_known found).2 ran
  | createColumnFamily options name start =>
      change db.createColumnFamily env options name start = some db' at stepped
      unfold DBImpl.createColumnFamily at stepped
      split at stepped <;> [cases stepped; rename_i m opened]
      split at stepped
      · obtain rfl := Option.some.inj stepped
        exact kept
      · rename_i family m' created
        obtain ⟨directories, ran, rfl⟩ := Option.map_eq_some_iff.mp stepped
        have free := allowed.free opened created
        obtain ⟨-, -, rfl, -⟩ := ColumnFamilyManager.createColumnFamily_ok created
        obtain ⟨f, own, -, rfl⟩ := kept.started opened free ran
        exact kept.create opened free created own
  | dropColumnFamily => exact kept.drop stepped
  | endSession => exact kept.endSession stepped

omit [DecidableEq O] in
theorem Kept.separate (kept : Kept env db) : Separate env db where
  ids := kept.ids
  own family member f active := by
    obtain ⟨found, looked, here⟩ := Option.bind_eq_some_iff.mp active
    have running : db.directories (env.directoryOf found) = .opened f := by
      generalize db.directories (env.directoryOf found) = lifetime at here ⊢
      cases lifetime with
      | closed disk => cases here
      | opened g => exact congrArg Lifetime.opened (Option.some.inj here)
    obtain ⟨named, same | ⟨-, created⟩⟩ := kept.lookup_known looked
    · exact absurd (named.symm.trans (congrArg Prod.snd same)) (kept.proper family member)
    · have apart := (List.nodup_cons.mp kept.places).1
      refine (kept.own _ f running fun same => apart ?_).reads
      exact List.mem_map.mpr ⟨_, created, same⟩
  created options name start db' allowed created grown := by
    unfold DBImpl.createColumnFamily at created
    split at created <;> [cases created; rename_i m opened]
    split at created
    · obtain rfl := Option.some.inj created
      exact absurd rfl grown
    · rename_i family m' success
      obtain ⟨directories, ran, rfl⟩ := Option.map_eq_some_iff.mp created
      have free := allowed.free opened success
      obtain ⟨-, -, rfl, rfl⟩ := ColumnFamilyManager.createColumnFamily_ok success
      obtain ⟨f, own, nothing, rfl⟩ := kept.started opened free ran
      refine ⟨f, ?_, own.reads, nothing⟩
      simp [DBImpl.active, lookup, Database.manager, ColumnFamilyManager.add, DBEnv.directoryOf]

/-- Whatever the calls, crashes and re-opens, the families stay apart as long as they are created by the
session that found an empty manifest, in directories of their own. -/
theorem separate_of_run (run : Run (step env) (KeepsApart env) fresh db) : Separate env db :=
  (run.invariant (fun _ _ _ allowed stepped kept => kept.step allowed stepped) kept_fresh).separate

def createTwice : List (DBAction Unit bytewiseComparator) :=
  [.openWith false [] fun _ => {}, .createColumnFamily () "a" {}, .put "a" [107] [1],
    .dropColumnFamily "a" (.written []), .createColumnFamily () "b" {}]

theorem separate_of_run_createTwice :
    ∃ db, execute (step plainEnv) fresh createTwice = some db ∧
      db.given = [(1, "a"), (2, "b")] ∧ Separate plainEnv db := by
  have facts : (execute (step plainEnv) fresh createTwice).any fun db =>
      decide (db.given = [(1, "a"), (2, "b")] ∧
        Allowed (step plainEnv) (KeepsApart plainEnv) fresh createTwice) := by decide +kernel
  obtain ⟨db, executed, facts⟩ := Option.any_eq_true _ _ |>.mp facts
  obtain ⟨given, allowed⟩ := of_decide_eq_true facts
  exact ⟨db, executed, given, separate_of_run (execute_run _ allowed executed)⟩

def createAgain : List (DBAction Unit bytewiseComparator) :=
  [.openWith false [] fun _ => {}, .createColumnFamily () "a" {}, .put "a" [107] [1]] ++
    calls "a" (Session.flushCall 1 1 [[107]]) ++
    [.family "a" .flush, .dropColumnFamily "a" (.written []),
      .endSession fun _ => .shutdown (.written []), .openWith false [] fun _ => {},
      .createColumnFamily () "a" { order := [1] }]

theorem separate_fails_createAgain :
    ∃ db : DBImpl Unit String bytewiseComparator, Run (step plainEnv) free fresh db ∧
      db.given = [(1, "a"), (1, "a")] ∧ (db.get plainEnv "a" [107] []).Answers (some [1]) ∧
        ∃ f ∈ db.active plainEnv "a", f.session.manager.commits = [] ∧ ¬ f.ReadsOwn := by
  have facts : (execute (step plainEnv) fresh createAgain).any fun db =>
      decide (db.given = [(1, "a"), (1, "a")] ∧
        (db.get plainEnv "a" [107] []).Answers (some [1])) &&
      (db.active plainEnv "a").any fun f => decide (f.session.manager.commits = [] ∧
        (f.session.get [107] []).Answers (some [1])) := by decide +kernel
  obtain ⟨db, executed, facts⟩ := Option.any_eq_true _ _ |>.mp facts
  obtain ⟨shared, facts⟩ := Bool.and_eq_true_iff.mp facts
  obtain ⟨given, read⟩ := of_decide_eq_true shared
  obtain ⟨f, active, facts⟩ := Option.any_eq_true _ _ |>.mp facts
  obtain ⟨nothing, found⟩ := of_decide_eq_true facts
  have run := execute_run _ (allowed_free _ _ _) executed
  refine ⟨db, run, given, read, f, active, nothing, fun own => ?_⟩
  obtain ⟨w, member, -⟩ := own [107] [] [1] 0 (.inl found)
  rw [TxManager.history, nothing] at member
  cases member

end DBImpl
end Lrdb
