import Lrdb.Db.Registry

namespace Lrdb
open Runs column_family_util Indexes

namespace FamilyRegistry
variable {O : Type} {r : FamilyRegistry O}

/-! ## The start -/

section Start
open ManifestManager DescriptorTable

variable {codec : OptionsCodec O}

theorem keyed_recoverFiles (files : List (List (ManifestRecord O))) {found : DescriptorTable O × Nat}
    (keyed : found.1.Keyed) : (recoverFiles codec found files).1.Keyed := by
  induction files generalizing found with
  | nil => exact keyed
  | cons file files ih =>
      apply ih
      show (file.foldl (fun table record => table.apply codec record) found.1).Keyed
      generalize found.1 = table at keyed
      induction file generalizing table with
      | nil => exact keyed
      | cons record rest ih => exact ih _ (keyed.apply record)

theorem nodup_recovered (files : List (List (ManifestRecord O))) :
    ((ManifestManager.recoverColumnFamilies codec files).1.map (·.id)).Nodup := by
  have keyed : (recoverFiles codec (∅, 0) files).1.Keyed := keyed_recoverFiles files keyed_empty
  have distinct := (recoverFiles codec (∅, 0) files).1.keys_nodup
  rw [← map_objects keyed] at distinct
  exact distinct.sublist (List.filter_sublist.map _)

structure Rebuilt (m : ColumnFamilyManager O) : Prop where
  keyed : Indexes.Keyed ColumnFamily.id m.columnFamiliesById
  named : Indexes.Keyed ColumnFamily.name m.columnFamiliesByName
  dropped : m.droppedFamilies = []
  default : ∀ f ∈ m.defaultColumnFamily, m.Live f
  numbered : Numbered m

theorem Rebuilt.recover {m : ColumnFamilyManager O} (rebuilt : Rebuilt m)
    {descriptor : ColumnFamilyDescriptor O} (free : m.columnFamiliesById.lookup descriptor.id = none) :
    Rebuilt (m.recoverColumnFamily descriptor) := by
  unfold ColumnFamilyManager.recoverColumnFamily
  split
  · exact rebuilt
  let f : ColumnFamily O := ⟨m.built, descriptor.id, descriptor.name, descriptor.options⟩
  let m' : ColumnFamilyManager O := { m with built := m.built + 1 }
  have idle : Idle m m' := ⟨rfl, rfl, rfl, rfl, Nat.le_succ _, rfl⟩
  have live := live_add idle (f := f) free
  have numbered : Numbered (m'.add f) := rebuilt.numbered.add idle rfl rfl free
  constructor
  · exact rebuilt.keyed.insert f
  · exact rebuilt.named.insert f
  · exact rebuilt.dropped
  · intro g found
    dsimp only at found
    split at found
    · obtain rfl := Option.mem_some_iff.mp found
      exact (live f).mpr (.inl rfl)
    · exact (live g).mpr (.inr (rebuilt.default g found))
  · exact ⟨numbered.distinct, numbered.below⟩

theorem Rebuilt.foldl {m : ColumnFamilyManager O} (rebuilt : Rebuilt m)
    {descriptors : List (ColumnFamilyDescriptor O)} (distinct : (descriptors.map (·.id)).Nodup)
    (free : ∀ d ∈ descriptors, m.columnFamiliesById.lookup d.id = none) :
    Rebuilt (descriptors.foldl ColumnFamilyManager.recoverColumnFamily m) := by
  induction descriptors generalizing m with
  | nil => exact rebuilt
  | cons d rest ih =>
      obtain ⟨first, later⟩ := List.nodup_cons.mp distinct
      apply ih (rebuilt.recover (free d List.mem_cons_self)) later
      intro e member
      have other : e.id ≠ d.id := by
        intro same
        apply first
        exact List.mem_map.mpr ⟨e, member, same⟩
      have old := free e (List.mem_cons_of_mem _ member)
      unfold ColumnFamilyManager.recoverColumnFamily
      split
      · exact old
      · exact (AList.lookup_insert_ne other).trans old

theorem rebuilt_new (manifest : ManifestManager O) : Rebuilt { manifestManager := manifest } where
  keyed := keyed_empty
  named := keyed_empty
  dropped := rfl
  default f found := by cases found
  numbered := by
    constructor
    · intro f g live
      cases live
    · intro f known
      rcases known with live | waits
      · cases live
      · cases waits

variable [DecidableEq O]

theorem validated {m : ColumnFamilyManager O} (valid : m.validateAllColumnFamilies.isOk) :
    m.defaultColumnFamily.isSome ∧
      m.columnFamiliesById.entries.length = m.columnFamiliesByName.entries.length ∧
        ∀ name, ∀ f ∈ m.columnFamiliesByName.lookup name, m.Live f := by
  unfold ColumnFamilyManager.validateAllColumnFamilies at valid
  split at valid
  · cases valid
  rename_i default
  split at valid
  · cases valid
  rename_i sizes
  split at valid
  · cases valid
  rename_i all
  refine ⟨Option.isSome_iff_ne_none.mpr (by simpa using default), not_not.mp sizes, ?_⟩
  intro name f found
  have entry := List.find?_eq_none.mp all ⟨name, f⟩ (AList.mem_lookup_iff.mp found)
  rw [ColumnFamilyManager.Live, Option.mem_def]
  simpa using entry

theorem Rebuilt.consistent {m : ColumnFamilyManager O} (rebuilt : Rebuilt m)
    (valid : m.validateAllColumnFamilies.isOk) : Kept { manager := m } := by
  obtain ⟨default, sizes, indexed⟩ := validated valid
  constructor
  · constructor
    · apply Inverse.of_length rebuilt.keyed rebuilt.named sizes
      intro f found
      exact indexed f.name f found
    · intro f waits
      rw [rebuilt.dropped] at waits
      cases waits
    · obtain ⟨f, found⟩ := Option.isSome_iff_exists.mp default
      exact ⟨f, found, rebuilt.default f found⟩
    · intro f held
      cases held
  · exact rebuilt.numbered

theorem recovered_ok {manifest : ManifestManager O} {descriptors : List (ColumnFamilyDescriptor O)}
    {lastSequence : Nat} {m : ColumnFamilyManager O} (distinct : (descriptors.map (·.id)).Nodup)
    (recovered : ColumnFamilyManager.recoverColumnFamilies codec { manifestManager := manifest }
      descriptors lastSequence = .ok m) : Rebuilt m ∧ m.validateAllColumnFamilies.isOk := by
  unfold ColumnFamilyManager.recoverColumnFamilies at recovered
  rw [if_neg (by simp)] at recovered
  dsimp only at recovered
  generalize listed : (if descriptors.isEmpty then [ColumnFamilyManager.defaultDescriptor codec]
    else descriptors) = order at recovered
  have apart : (order.map (·.id)).Nodup := by
    rw [← listed]
    split
    · exact List.nodup_singleton _
    · exact distinct
  split at recovered
  · rename_i valid
    obtain rfl := Except.ok.inj recovered
    exact ⟨(rebuilt_new _).foldl apart fun d member => rfl, valid⟩
  · cases recovered

theorem kept_of_initialize {files : List (List (ManifestRecord O))} {manifest : ManifestManager O}
    {descriptors : List (ColumnFamilyDescriptor O)} {lastSequence : Nat} {m : ColumnFamilyManager O}
    (listed : descriptors.Perm (ManifestManager.recoverColumnFamilies codec files).1)
    (initialized : ColumnFamilyManager.initializeFamilies codec { manifestManager := manifest }
      descriptors lastSequence = .ok m) : Kept { manager := m } ∧ m.initialized := by
  have distinct : (descriptors.map (·.id)).Nodup :=
    (listed.map (·.id)).nodup_iff.mpr (nodup_recovered files)
  rw [ColumnFamilyManager.initializeFamilies, if_neg Bool.false_ne_true] at initialized
  cases recovered : ColumnFamilyManager.recoverColumnFamilies codec
      { manifestManager := manifest } descriptors lastSequence with
  | error status =>
      rw [recovered] at initialized
      cases initialized
  | ok started =>
      obtain ⟨rebuilt, valid⟩ := recovered_ok distinct recovered
      have kept := rebuilt.consistent valid
      have some : ¬ started.columnFamiliesById.entries.isEmpty := by
        obtain ⟨f, -, live⟩ := kept.default
        have entry := AList.mem_lookup_iff.mp live
        intro empty
        rw [List.isEmpty_iff.mp empty] at entry
        cases entry
      rw [recovered] at initialized
      obtain rfl := Except.ok.inj initialized
      dsimp only
      rw [if_neg some]
      exact ⟨⟨⟨kept.inverse, kept.apart, kept.default, kept.reachable⟩,
        ⟨kept.numbered.distinct, kept.numbered.below⟩⟩, rfl⟩

end Start

/-! ## Runs -/

variable [DecidableEq O]

theorem step_eq {r' : FamilyRegistry O} {c : RegistryCall O} (stepped : r.step c = some r') :
    (r.call c).2 = r' := by
  unfold FamilyRegistry.step at stepped
  split at stepped
  · split at stepped
    · exact Option.some.inj stepped
    · cases stepped
  · exact Option.some.inj stepped

/-- In every run from a manager that was initialized, in which each new family gets an identifier that
is in no use and the default family is not dropped, the registry is consistent and a call that fails
leaves it as it is. The next call keeps it consistent if and only if it is of this kind. -/
theorem consistent_of_run {codec : OptionsCodec O} {files : List (List (ManifestRecord O))}
    {manifest : ManifestManager O} {descriptors : List (ColumnFamilyDescriptor O)} {lastSequence : Nat}
    {m : ColumnFamilyManager O}
    (listed : descriptors.Perm (ManifestManager.recoverColumnFamilies codec files).1)
    (initialized : ColumnFamilyManager.initializeFamilies codec { manifestManager := manifest }
      descriptors lastSequence = .ok m)
    (run : Run step KeepsIndexes { manager := m } r) :
    Consistent r ∧ ∀ c, (¬ (r.call c).1.isOk → SameFamilies r (r.call c).2) ∧
      (Consistent (r.call c).2 ↔ KeepsIndexes r c) := by
  have start := kept_of_initialize listed initialized
  obtain ⟨kept, initialized⟩ : Kept r ∧ r.manager.initialized := by
    apply Run.invariant (p := fun r => Kept r ∧ r.manager.initialized) _ run start
    rintro s c t allowed stepped ⟨kept, initialized⟩
    rw [← step_eq stepped, call_initialized]
    exact ⟨kept.call allowed, initialized⟩
  constructor
  · exact kept.toConsistent
  · intro c
    exact ⟨unchanged_of_failed r c, kept.consistent_call_iff initialized c⟩

def plainOptions : OptionsCodec Unit := ⟨(), id⟩

def almostFull : List (ManifestRecord Unit) :=
  [.createColumnFamily 1 { id := 0, name := "default", options := () },
    .createColumnFamily 2 { id := 0xFFFFFFFE, name := "last", options := () }]

def started : Except Status (ColumnFamilyManager Unit) :=
  ColumnFamilyManager.initializeFamilies plainOptions { manifestManager := { records := almostFull } }
    (ManifestManager.recoverColumnFamilies plainOptions [almostFull]).1 2

theorem exists_started {p : ColumnFamilyManager Unit → Bool} (holds : started.toOption.any p) :
    ∃ m, started = .ok m ∧ p m := by
  cases success : started with
  | error status =>
      rw [success] at holds
      cases holds
  | ok m =>
      rw [success] at holds
      exact ⟨m, rfl, holds⟩

def createAndDestroy : List (RegistryCall Unit) :=
  [.createColumnFamily () "lost" (.ioError "Failed to write manifest record"), .getDefaultColumnFamily,
    .getColumnFamilyByName "last", .dropHandle (some ⟨0, 0xFFFFFFFE, "last", ()⟩) .ok,
    .getColumnFamily 0xFFFFFFFE, .destroyColumnFamilyHandle (some ⟨0, 0xFFFFFFFE, "last", ()⟩)]

theorem consistent_of_run_createAndDestroy :
    ∃ m r, started = .ok m ∧ execute step { manager := m } createAndDestroy = some r ∧
      r.handles = [⟨1, 0, "default", ()⟩] ∧
        Consistent r ∧ ∀ c, (¬ (r.call c).1.isOk → SameFamilies r (r.call c).2) ∧
          (Consistent (r.call c).2 ↔ KeepsIndexes r c) := by
  have facts : started.toOption.any fun m => (execute step { manager := m } createAndDestroy).any fun r =>
      r.handles = [⟨1, 0, "default", ()⟩] ∧
        Allowed step KeepsIndexes { manager := m } createAndDestroy := by decide +kernel
  obtain ⟨m, success, facts⟩ := exists_started facts
  obtain ⟨r, executed, facts⟩ := Option.any_eq_true _ _ |>.mp facts
  obtain ⟨handles, allowed⟩ := of_decide_eq_true facts
  exact ⟨m, r, success, executed, handles,
    consistent_of_run (.refl _) success (execute_run _ allowed executed)⟩

def createPastLast : List (RegistryCall Unit) :=
  [.createColumnFamily () "a" .ok, .createColumnFamily () "b" .ok]

theorem not_consistent_createPastLast :
    ¬ ∀ (m : ColumnFamilyManager Unit) (r : FamilyRegistry Unit), started = .ok m →
      Run step free { manager := m } r → Consistent r := by
  intro always
  have facts : started.toOption.any fun m => (execute step { manager := m } createPastLast).any fun r =>
      (r.manager.columnFamiliesByName.lookup "default").any fun f =>
        f.name = "default" ∧ r.manager.columnFamiliesById.lookup f.id ≠ some f := by decide +kernel
  obtain ⟨m, success, facts⟩ := exists_started facts
  obtain ⟨r, executed, facts⟩ := Option.any_eq_true _ _ |>.mp facts
  obtain ⟨f, found, facts⟩ := Option.any_eq_true _ _ |>.mp facts
  obtain ⟨named, lost⟩ := of_decide_eq_true facts
  have consistent := always m r success (execute_run _ (allowed_free _ _ _) executed)
  rw [← named] at found
  exact lost ((consistent.inverse.same f).mpr found)

end FamilyRegistry
end Lrdb
