import Mathlib.Data.List.Flatten
import Lrdb.Wal.Sessions

/-!
# Clean-up of the archive

The clean-up is given a sequence up to which everything is in the tree. It removes every file of the
archive that it lists, without a look at the records. Those with later sequences are lost with it.
-/

namespace Lrdb

namespace LogFile

def fullPath (dbPath : List Char) (f : LogFile) : List Char := dbPath ++ '/' :: f.path

def InArchive (dbPath : List Char) (f : LogFile) : Prop := "/archive/".toList <:+: f.fullPath dbPath

instance (dbPath : List Char) (f : LogFile) : Decidable (f.InArchive dbPath) :=
  inferInstanceAs (Decidable (_ <:+: _))

end LogFile

/-- What a clean-up goes by: the directory, the number in the name of the current file, which
outlives the writer, and the files that cannot be removed. -/
structure CleanUp where
  dbPath : List Char
  currentFile : Option Nat
  stays : LogFile → Bool

/-- A file of the archive that is not the current one and can be removed. -/
def CleanUp.Removes (c : CleanUp) (f : LogFile) : Prop :=
  (c.currentFile.any fun n => f.Is false n) = false ∧ f.InArchive c.dbPath ∧ c.stays f = false

instance (c : CleanUp) (f : LogFile) : Decidable (c.Removes f) := inferInstanceAs (Decidable (_ ∧ _ ∧ _))

namespace WALManager

/-- The loop of `CleanupOldWALFiles`. -/
def removeArchived (c : CleanUp) (m : WALManager) : List LogFile → WALManager
  | [] => m
  | f :: rest =>
      if c.currentFile.any fun n => f.Is false n then removeArchived c m rest
      else if ¬ f.InArchive c.dbPath then removeArchived c m rest
      else if c.stays f then removeArchived c m rest
      else removeArchived c (m.change (.remove f.archived f.number) (m.disk.remove f.archived f.number)) rest

def cleanupOldWALFiles (c : CleanUp) (m : WALManager) (safeSequence : Nat) : Status × WALManager :=
  if safeSequence = 0 then (.ok, m) else (.ok, m.removeArchived c m.disk.walFiles)

/-- Only files without later records are removed, and recovery reads every later record that it has
read before, in the same order. -/
structure OnlyObsolete (safeSequence : Nat) (m m' : WALManager) : Prop where
  deleted : ∀ f ∈ m.disk, f ∉ m'.disk → ∀ r ∈ f.records, r.sequenceNumber ≤ safeSequence
  restored : List.Sublist
    ((m.disk.walFiles.flatMap (·.records)).filter fun r => safeSequence < r.sequenceNumber)
    ((m'.disk.walFiles.flatMap (·.records)).filter fun r => safeSequence < r.sequenceNumber)

variable {c : CleanUp} {m : WALManager}

theorem removeArchived_cons (m : WALManager) (f : LogFile) (rest : List LogFile) :
    m.removeArchived c (f :: rest) =
      if c.Removes f then
        (m.change (.remove f.archived f.number) (m.disk.remove f.archived f.number)).removeArchived c rest
      else m.removeArchived c rest := by
  rw [removeArchived]
  by_cases current : c.currentFile.any fun n => f.Is false n
  · rw [if_pos current, if_neg fun removes => Bool.noConfusion (current.symm.trans removes.1)]
  rw [if_neg current]
  by_cases archive : f.InArchive c.dbPath
  · rw [if_neg (not_not_intro archive)]
    by_cases remains : c.stays f
    · rw [if_pos remains, if_neg fun removes => Bool.noConfusion (remains.symm.trans removes.2.2)]
    · rw [if_neg remains, if_pos ⟨Bool.eq_false_iff.mpr current, archive, Bool.eq_false_iff.mpr remains⟩]
  · rw [if_pos archive, if_neg fun removes => archive removes.2.1]

theorem removeArchived_disk (m : WALManager) (files : List LogFile) :
    (m.removeArchived c files).disk =
      m.disk.filter fun g => ¬ ∃ f ∈ files, c.Removes f ∧ g.Is f.archived f.number := by
  induction files generalizing m with
  | nil => simp [removeArchived]
  | cons f rest ih =>
      rw [removeArchived_cons]
      split
      · rename_i removed
        rw [ih]
        show (m.disk.filter fun g => ¬ g.Is f.archived f.number).filter _ = _
        rw [List.filter_filter]
        apply List.filter_congr
        intro g _
        simp [removed, Bool.and_comm]
      · rename_i kept
        rw [ih]
        apply List.filter_congr
        intro g _
        simp [kept]

theorem is_iff {f g : LogFile} (distinct : m.disk.Pairwise fun f g => f.path ≠ g.path)
    (left : f ∈ m.disk) (right : g ∈ m.disk) : g.Is f.archived f.number ↔ g = f := by
  constructor
  · intro same
    have path : g.path = f.path := by rw [LogFile.path, LogFile.path, same.1, same.2]
    have nodup : (m.disk.map LogFile.path).Nodup := List.pairwise_map.mpr distinct
    exact List.inj_on_of_nodup_map nodup right left path
  · intro same
    rw [same]
    exact ⟨rfl, rfl⟩

theorem mem_of_walFiles {d : WALDisk} {f : LogFile} (listed : f ∈ d.walFiles) : f ∈ d :=
  Ranks.mem_sorted.mp (List.mem_of_mem_take listed)

theorem cleanUp_disk (distinct : m.disk.Pairwise fun f g => f.path ≠ g.path) {safeSequence : Nat}
    (safe : safeSequence ≠ 0) : (m.cleanupOldWALFiles c safeSequence).2.disk =
      m.disk.filter fun g => ¬ (g ∈ m.disk.walFiles ∧ c.Removes g) := by
  rw [cleanupOldWALFiles, if_neg safe, removeArchived_disk]
  apply List.filter_congr
  intro g member
  rw [decide_eq_decide, not_iff_not]
  constructor
  · rintro ⟨f, listed, removed, named⟩
    rw [(is_iff distinct (mem_of_walFiles listed) member).mp named]
    exact ⟨listed, removed⟩
  · rintro ⟨listed, removed⟩
    exact ⟨g, listed, removed, rfl, rfl⟩

theorem walFiles_filter {d : WALDisk} (distinct : d.Pairwise fun f g => f.path ≠ g.path)
    (kept : LogFile → Bool) : List.Sublist (d.walFiles.filter kept) (WALDisk.walFiles (d.filter kept)) := by
  rw [WALDisk.walFiles, WALDisk.walFiles, Ranks.sorted_filter distinct]
  exact (Ranks.filter_take_isPrefix kept _ _).sublist

theorem later_filter (kept : LogFile → Bool) {later : WALRecord → Bool} {files : List LogFile}
    (early : ∀ f ∈ files, kept f = false → ∀ r ∈ f.records, later r = false) :
    ((files.filter kept).flatMap (·.records)).filter later = (files.flatMap (·.records)).filter later := by
  induction files with
  | nil => rfl
  | cons f rest ih =>
      have tail := ih fun g inside => early g (List.mem_cons_of_mem _ inside)
      rw [List.flatMap_cons, List.filter_append]
      by_cases stays : kept f
      · rw [List.filter_cons, if_pos stays, List.flatMap_cons, List.filter_append, tail]
      · have none : f.records.filter later = [] := by
          apply List.filter_eq_nil_iff.mpr
          intro r inside
          rw [early f List.mem_cons_self (Bool.eq_false_iff.mpr stays) r inside]
          exact Bool.false_ne_true
        rw [List.filter_cons, if_neg stays, none, List.nil_append, tail]

/-- A clean-up removes only obsolete files if and only if each file that it lists, and can remove,
is without later records. -/
theorem cleanUp_onlyObsolete_iff {m : WALManager} (distinct : m.disk.Pairwise fun f g => f.path ≠ g.path)
    (c : CleanUp) (safeSequence : Nat) :
    OnlyObsolete safeSequence m (m.cleanupOldWALFiles c safeSequence).2 ↔
      safeSequence = 0 ∨ ∀ f ∈ m.disk.walFiles, c.Removes f →
        ∀ r ∈ f.records, r.sequenceNumber ≤ safeSequence := by
  by_cases unset : safeSequence = 0
  · apply iff_of_true _ (.inl unset)
    rw [cleanupOldWALFiles, if_pos unset]
    exact ⟨fun f member gone => absurd member gone, List.Sublist.refl _⟩
  rw [or_iff_right unset]
  have left := cleanUp_disk (c := c) distinct unset
  constructor
  · intro only f listed removed
    apply only.deleted f (mem_of_walFiles listed)
    rw [left]
    simp [listed, removed]
  · intro obsolete
    constructor
    · intro f member gone
      rw [left] at gone
      have chosen : f ∈ m.disk.walFiles ∧ c.Removes f := by simpa [member] using gone
      exact obsolete f chosen.1 chosen.2
    · rw [left, ← later_filter fun g => ¬ (g ∈ m.disk.walFiles ∧ c.Removes g)]
      · exact ((walFiles_filter distinct _).flatMap _).filter _
      · intro f listed gone r inside
        have chosen : f ∈ m.disk.walFiles ∧ c.Removes f := by simpa using gone
        exact decide_eq_false (Nat.not_lt.mpr (obsolete f listed chosen.2 r inside))

def rotated : WALManager where
  disk := [⟨true, 1, [{ type := .kPut, sequenceNumber := 4 }, { type := .kPut, sequenceNumber := 10 }], 2, 0⟩,
    ⟨false, 2, [{ type := .kPut, sequenceNumber := 11 }], 1, 0⟩]
  nextFileNumber := 3
  initialized := true

def rotatedCleanUp : CleanUp := ⟨"db".toList, some 2, fun _ => false⟩

theorem cleanUp_onlyObsolete_rotated :
    OnlyObsolete 10 rotated (rotated.cleanupOldWALFiles rotatedCleanUp 10).2 := by
  apply (cleanUp_onlyObsolete_iff (by decide) rotatedCleanUp 10).mpr
  decide

theorem not_onlyObsolete :
    ¬ OnlyObsolete 5 rotated (rotated.cleanupOldWALFiles rotatedCleanUp 5).2 := by
  intro only
  have late := only.deleted ⟨true, 1, [{ type := .kPut, sequenceNumber := 4 },
    { type := .kPut, sequenceNumber := 10 }], 2, 0⟩ (by decide) (by decide)
  revert late
  decide

end WALManager
end Lrdb
