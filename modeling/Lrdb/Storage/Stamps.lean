import Lrdb.Storage.Coverage

namespace Lrdb
open Versions LSMTree

abbrev Stamp := Nat × Option Value

def content : ValueType × Value → Option Value
  | (.kDeletion, _) => none
  | (_, stored) => some stored

def stampOf (version : Version) : Stamp := Prod.map id content version

theorem stampOf_snd (version : Version) : (stampOf version).2 = payload version := by
  obtain ⟨sequence, type, stored⟩ := version
  cases type <;> rfl

namespace LSMTree
variable {cmp : Comparator} {options : LSMTreeOptions} {t t' : LSMTree cmp}

def stamps (t : LSMTree cmp) (key : Key) : List Stamp := (versionsIn t.sources key).map stampOf

theorem mem_stamps {key : Key} {w : Stamp} :
    w ∈ t.stamps key ↔ ∃ version, Holds t.sources key version ∧ stampOf version = w := by
  simp only [stamps, List.mem_map, mem_versionsIn]

theorem mem_stamps_congr {key : Key} {w : Stamp}
    (same : ∀ version, Holds t'.sources key version ↔ Holds t.sources key version) :
    w ∈ t'.stamps key ↔ w ∈ t.stamps key := by
  simp only [mem_stamps, same]

theorem holds_switched {key : Key} {version : Version} :
    Holds (t.switched options).sources key version ↔ Holds t.sources key version := by
  rw [sources_switched, holds_cons]
  simp

theorem holds_landing {key : Key} {version : Version} :
    Holds (t.landing options).sources key version ↔ Holds t.sources key version := by
  unfold landing
  split
  · exact holds_switched
  · rfl

theorem holds_flushOldest (numbered : t.sstables.Numbered) {status : Status}
    (flushed : t.flushOldestMemTable options = (status, t')) {key : Key} {version : Version} :
    Holds t'.sources key version ↔ Holds t.sources key version := by
  by_cases success : status.isOk
  · rcases moved_of_flush numbered success flushed with rfl | moved
    · rfl
    · exact moved.holds
  · obtain rfl := flushOldestMemTable_failed success flushed
    rfl

theorem holds_store {type : ValueType} {key : Key} {value : Value} {sequence : Nat}
    (bounded : sequence < sequenceLimit) {other : Key} {version : Version}
    (held : Holds (t.store options type key value sequence).sources other version) :
    key = other ∧ version = (sequence, type, value) ∨ Holds t.sources other version := by
  rw [sources_store, holds_cons, MemTable.mem_versions_insert, InternalKey.make_sequence bounded]
    at held
  rw [sources_eq_cons, holds_cons]
  rcases held with (new | ⟨old, -⟩) | old
  · exact .inl new
  · exact .inr (.inl old)
  · exact .inr (.inr old)

theorem mem_stamps_store {type : ValueType} {key : Key} {value : Value} {sequence : Nat}
    (bounded : sequence < sequenceLimit)
    (agrees : ∀ version, Holds t.sources key version → version.1 = sequence →
      stampOf version = stampOf (sequence, type, value)) {other : Key} {w : Stamp} :
    w ∈ (t.store options type key value sequence).stamps other ↔
      key = other ∧ w = stampOf (sequence, type, value) ∨ w ∈ t.stamps other := by
  have stored := InternalKey.make_sequence bounded key type
  have new : Holds (t.store options type key value sequence).sources key (sequence, type, value) := by
    rw [sources_store, holds_cons, MemTable.mem_versions_insert, stored]
    exact .inl (.inl ⟨rfl, rfl⟩)
  constructor
  · intro member
    obtain ⟨version, held, rfl⟩ := mem_stamps.mp member
    rcases holds_store bounded held with ⟨rfl, rfl⟩ | old
    · exact .inl ⟨rfl, rfl⟩
    · exact .inr (mem_stamps.mpr ⟨version, old, rfl⟩)
  · rintro (⟨rfl, rfl⟩ | member)
    · exact mem_stamps.mpr ⟨_, new, rfl⟩
    · obtain ⟨version, held, rfl⟩ := mem_stamps.mp member
      by_cases same : key = other ∧ version.1 = sequence
      · obtain ⟨rfl, same⟩ := same
        exact mem_stamps.mpr ⟨_, new, (agrees version held same).symm⟩
      · refine mem_stamps.mpr ⟨version, ?_, rfl⟩
        rw [sources_store, holds_cons, MemTable.mem_versions_insert, stored]
        rw [sources_eq_cons, holds_cons] at held
        exact held.imp_left fun first =>
          .inr ⟨first, fun ⟨keys, sequences, _⟩ => same ⟨keys, sequences⟩⟩

theorem newest_stamps (key : Key) (snapshot : Nat) :
    newest ((t.stamps key).filter fun w => Visible snapshot w.1) =
      (newest (visibleVersions snapshot (versionsIn t.sources key))).map stampOf := by
  have filtered : (t.stamps key).filter (fun w => Visible snapshot w.1) =
      (visibleVersions snapshot (versionsIn t.sources key)).map stampOf := by
    rw [stamps, List.filter_map, visibleVersions]
    rfl
  rw [filtered]
  exact newest_map content _

end LSMTree
end Lrdb
