import Lrdb.Storage.LSMTree
import Lrdb.Storage.MergeComplete

namespace Lrdb
open Versions SSTable LSMTree

section Retention
variable {oldest snapshot : Nat} {all kept : List Version} {answer : Option Value}

def MayAnswer (snapshot : Nat) (versions : List Version) (answer : Option Value) : Prop :=
  (∃ version ∈ visibleVersions snapshot versions,
    (∀ other ∈ visibleVersions snapshot versions, other.1 ≤ version.1) ∧ payload version = answer) ∨
    visibleVersions snapshot versions = [] ∧ answer = none

/-- Nothing that a snapshot reads is older than the oldest: there is a version of just that sequence,
or the newest ones before it are tombstones. -/
def Spared (oldest : Nat) (versions : List Version) : Prop :=
  (∃ version ∈ versions, version.1 = oldest) ∨
    ∀ version ∈ versions, version.1 < oldest →
      (∀ other ∈ versions, other.1 < oldest → other.1 ≤ version.1) → payload version = none

instance (oldest : Nat) (versions : List Version) : Decidable (Spared oldest versions) := by
  unfold Spared; infer_instance

theorem mayAnswer_congr (same : ∀ version, version ∈ kept ↔ version ∈ all ∧ oldest ≤ version.1)
    {visible : Version} (here : visible ∈ visibleVersions snapshot kept) :
    MayAnswer snapshot kept answer ↔ MayAnswer snapshot all answer := by
  have inside (version : Version) : version ∈ visibleVersions snapshot kept ↔
      version ∈ visibleVersions snapshot all ∧ oldest ≤ version.1 := by
    simp only [mem_visibleVersions, same]
    tauto
  constructor
  · rintro (⟨version, member, greatest, content⟩ | ⟨none, -⟩)
    · obtain ⟨member, above⟩ := (inside version).mp member
      refine .inl ⟨version, member, fun other seen => ?_, content⟩
      by_cases kept : oldest ≤ other.1
      · exact greatest other ((inside other).mpr ⟨seen, kept⟩)
      · omega
    · rw [none] at here
      cases here
  · rintro (⟨version, member, greatest, content⟩ | ⟨none, -⟩)
    · obtain ⟨seen, above⟩ := (inside visible).mp here
      have newer := greatest visible seen
      refine .inl ⟨version, (inside version).mpr ⟨member, above.trans newer⟩, fun other seen => ?_,
        content⟩
      exact greatest other ((inside other).mp seen).1
    · have seen := ((inside visible).mp here).1
      rw [none] at seen
      cases seen

theorem mayAnswer_iff (same : ∀ version, version ∈ kept ↔ version ∈ all ∧ oldest ≤ version.1) :
    (∀ snapshot, oldest ≤ snapshot ∨ snapshot = 0 → ∀ answer,
      MayAnswer snapshot kept answer ↔ MayAnswer snapshot all answer) ↔ Spared oldest all := by
  constructor
  · intro answers
    by_contra notSpared
    rw [Spared, not_or] at notSpared
    obtain ⟨noneAt, notNone⟩ := notSpared
    push Not at notNone
    obtain ⟨version, member, below, greatest, content⟩ := notNone
    have visible (other : Version) : other ∈ visibleVersions oldest all ↔
        other ∈ all ∧ other.1 < oldest := by
      rw [mem_visibleVersions]
      refine and_congr_right fun inside => ⟨fun seen => ?_, fun less => .inr less.le⟩
      have le := seen.resolve_left (by omega)
      exact lt_of_le_of_ne le fun at' => noneAt ⟨other, inside, at'⟩
    have reads : MayAnswer oldest all (payload version) :=
      .inl ⟨version, (visible version).mpr ⟨member, below⟩, fun other seen =>
        greatest other ((visible other).mp seen).1 ((visible other).mp seen).2, rfl⟩
    rcases (answers oldest (.inl le_rfl) _).mpr reads with ⟨other, seen, -⟩ | ⟨-, none⟩
    · obtain ⟨inside, seen⟩ := mem_visibleVersions.mp seen
      obtain ⟨inside, above⟩ := (same other).mp inside
      have less := ((visible other).mp (mem_visibleVersions.mpr ⟨inside, seen⟩)).2
      omega
    · exact content none
  · intro spared snapshot reader answer
    cases seen : visibleVersions snapshot kept with
    | cons visible rest =>
        exact mayAnswer_congr same (seen ▸ List.mem_cons_self ..)
    | nil =>
        have dropped (version : Version) (member : version ∈ visibleVersions snapshot all) :
            version.1 < oldest := by
          obtain ⟨inside, visible⟩ := mem_visibleVersions.mp member
          by_contra above
          have stays : version ∈ visibleVersions snapshot kept :=
            mem_visibleVersions.mpr ⟨(same version).mpr ⟨inside, not_lt.mp above⟩, visible⟩
          rw [seen] at stays
          cases stays
        have reaches {version : Version} (member : version ∈ all) (le : version.1 ≤ oldest) :
            version ∈ visibleVersions snapshot all := by
          refine mem_visibleVersions.mpr ⟨member, ?_⟩
          rcases reader with above | latest
          · exact .inr (le.trans above)
          · exact .inl latest
        have tombstone : ∀ version ∈ visibleVersions snapshot all,
            (∀ other ∈ visibleVersions snapshot all, other.1 ≤ version.1) → payload version = none := by
          intro version member greatest
          rcases spared with ⟨other, inside, at'⟩ | older
          · exact absurd (dropped other (reaches inside at'.le)) (by omega)
          · refine older version (mem_visibleVersions.mp member).1 (dropped version member) ?_
            exact fun other inside less => greatest other (reaches inside less.le)
        constructor
        · rintro (⟨version, member, -⟩ | ⟨-, rfl⟩)
          · rw [seen] at member
            cases member
          · cases found : newest (visibleVersions snapshot all) with
            | none => exact .inr ⟨newest_eq_none.mp found, rfl⟩
            | some version =>
                exact .inl ⟨version, newest_mem found, newest_le found,
                  tombstone version (newest_mem found) (newest_le found)⟩
        · rintro (⟨version, member, greatest, rfl⟩ | ⟨-, rfl⟩)
          · exact .inr ⟨seen, tombstone version member greatest⟩
          · exact .inr ⟨seen, rfl⟩

end Retention

namespace SSTableCompactor
variable {cmp : Comparator}

theorem shouldKeepKey_iff {config : CompactionConfig} {key : InternalKey} :
    shouldKeepKey config key.encode ↔ config.oldestSnapshotSequence ≤ key.sequence := by
  unfold shouldKeepKey
  rw [parse_encode]
  dsimp only
  split
  · rename_i above
    exact iff_of_true rfl above
  · rename_i below
    exact iff_of_false (by simp) below

theorem mem_versionsOf_kept {config : CompactionConfig} {files : List (CompactionInput cmp)} {key : Key}
    (version : Version) : version ∈ versionsOf key (kept config files) ↔
      version ∈ versionsOf key (storedEntries files) ∧
        config.oldestSnapshotSequence ≤ version.1 := by
  simp only [mem_versionsOf, kept, List.mem_filter, shouldKeepKey_iff]
  constructor
  · rintro ⟨entry, ⟨member, above⟩, same, rfl⟩
    exact ⟨⟨entry, member, same, rfl⟩, above⟩
  · rintro ⟨⟨entry, member, same, rfl⟩, above⟩
    exact ⟨entry, ⟨member, above⟩, same, rfl⟩

/-- The merge succeeds, and no reader from the oldest snapshot on, or of the latest state, can tell its
output from the inputs. -/
def KeepsSnapshots (config : CompactionConfig) (options : SSTableWriterOptions)
    (files : List (CompactionInput cmp)) (outputLevel : Nat) : Prop :=
  (mergeInputFiles cmp config options files outputLevel {}).1.isOk ∧
    ∃ output, (mergeInputFiles cmp config options files outputLevel {}).2.outputs =
      [(output, outputLevel)] ∧
    ∀ key snapshot, config.oldestSnapshotSequence ≤ snapshot ∨ snapshot = 0 → ∀ answer,
      MayAnswer snapshot (versionsOf key output.entries) answer ↔
        MayAnswer snapshot (versionsOf key (storedEntries files)) answer

/-- A compaction of readable files keeps every snapshot if and only if no internal key is kept twice and
the versions of every key are spared. -/
theorem keepsSnapshots_iff (config : CompactionConfig) (options : SSTableWriterOptions)
    (files : List (CompactionInput cmp)) (outputLevel : Nat)
    (readable : ∀ file ∈ files, file.Readable) :
    KeepsSnapshots config options files outputLevel ↔
      ((kept config files).map Prod.fst).Nodup ∧
        ∀ entry ∈ storedEntries files, Spared config.oldestSnapshotSequence
          (versionsOf entry.1.userKey (storedEntries files)) := by
  obtain ⟨ok_iff, complete⟩ :=
    @mergeInputFiles_readable cmp config options files outputLevel {} readable
  have answers {output : SSTable} (perm : output.entries.Perm (kept config files)) :
      (∀ key snapshot, config.oldestSnapshotSequence ≤ snapshot ∨ snapshot = 0 → ∀ answer,
        MayAnswer snapshot (versionsOf key output.entries) answer ↔
          MayAnswer snapshot (versionsOf key (storedEntries files)) answer) ↔
      ∀ entry ∈ storedEntries files, Spared config.oldestSnapshotSequence
        (versionsOf entry.1.userKey (storedEntries files)) := by
    have same (key : Key) (version : Version) : version ∈ versionsOf key output.entries ↔
        version ∈ versionsOf key (storedEntries files) ∧ config.oldestSnapshotSequence ≤ version.1 := by
      rw [← mem_versionsOf_kept]
      simp only [mem_versionsOf, perm.mem_iff]
    constructor
    · exact fun agree entry _ => (mayAnswer_iff (same entry.1.userKey)).mp (agree entry.1.userKey)
    · intro spared key
      refine (mayAnswer_iff (same key)).mpr ?_
      by_cases present : ∃ entry ∈ storedEntries files, entry.1.userKey = key
      · obtain ⟨entry, member, rfl⟩ := present
        exact spared entry member
      · refine .inr fun version member => ?_
        obtain ⟨entry, inside, here, -⟩ := mem_versionsOf.mp member
        exact absurd ⟨entry, inside, here⟩ present
  constructor
  · rintro ⟨ok, output, outputs, agree⟩
    obtain ⟨other, outputs', -, -, perm⟩ := complete ok
    have same : output = other := by
      rw [outputs, List.nil_append] at outputs'
      simpa using outputs'
    exact ⟨ok_iff.mp ok, (answers (same ▸ perm)).mp agree⟩
  · rintro ⟨distinct, spared⟩
    obtain ⟨output, outputs, -, -, perm⟩ := complete (ok_iff.mpr distinct)
    exact ⟨ok_iff.mpr distinct, output, outputs, (answers perm).mpr spared⟩

theorem keepsSnapshots_tombstone : KeepsSnapshots { oldestSnapshotSequence := 3 } {}
    [(inputOf (.make [107] 1 .kValue) [1] false : CompactionInput bytewiseComparator),
      inputOf (.make [107] 2 .kDeletion) [] false, inputOf (.make [107] 4 .kValue) [4] false] 1 :=
  (keepsSnapshots_iff _ _ _ _ (by decide +kernel)).mpr (by decide +kernel)

theorem keepsSnapshots_not_below : ¬ ∀ (config : CompactionConfig) (options : SSTableWriterOptions)
    (files : List (CompactionInput bytewiseComparator)) (outputLevel : Nat),
      (∀ file ∈ files, file.Readable) → KeepsSnapshots config options files outputLevel := by
  intro always
  obtain ⟨ok, output, outputs, agree⟩ := always { oldestSnapshotSequence := 2 } {}
    [inputOf (.make [107] 1 .kValue) [1] false] 1 (by decide +kernel)
  have empty : (mergeInputFiles bytewiseComparator { oldestSnapshotSequence := 2 } {}
      [inputOf (.make [107] 1 .kValue) [1] false] 1 {}).2.outputs.all
        fun output => output.1.entries = [] := by decide +kernel
  rw [outputs] at empty
  have none : output.entries = [] := by simpa using empty
  have reads : MayAnswer 2 (versionsOf [107] (storedEntries [(inputOf (.make [107] 1 .kValue) [1] false :
      CompactionInput bytewiseComparator)])) (some [1]) :=
    .inl (by decide +kernel)
  rcases (agree [107] 2 (.inl le_rfl) (some [1])).mpr reads with ⟨version, member, -⟩ | ⟨-, absent⟩
  · rw [none] at member
    cases member
  · cases absent

end SSTableCompactor
end Lrdb
