import Lrdb.Storage.SearchOrder

namespace Lrdb.LSMTree
open Versions

variable {cmp : Comparator} {options : LSMTreeOptions}

structure Below (t : LSMTree cmp) (bound : Nat) : Prop where
  memTables : ∀ mem ∈ t.memTables, ∀ entry ∈ mem.entries, entry.1.sequence < bound
  files : ∀ files ∈ t.sstables.levelFiles, ∀ table ∈ files, ∀ entry ∈ table.entries,
    entry.1.sequence < bound

structure Every (p : Entry → Prop) (t : LSMTree cmp) : Prop where
  memTables : ∀ mem ∈ t.memTables, ∀ entry ∈ mem.entries, p entry
  files : ∀ files ∈ t.sstables.levelFiles, ∀ table ∈ files, ∀ entry ∈ table.entries, p entry

variable {t t' : LSMTree cmp} {bound : Nat} {p q : Entry → Prop}

theorem below_iff : t.Below bound ↔ t.Every fun entry => entry.1.sequence < bound :=
  ⟨fun below => ⟨below.memTables, below.files⟩, fun every => ⟨every.memTables, every.files⟩⟩

theorem every_new : (new options : LSMTree cmp).Every p where
  memTables := by simp [new, LSMTree.memTables]
  files := by simp [new, SSTableManager.new]

theorem Every.mono (every : t.Every p) (weaker : ∀ entry, p entry → q entry) : t.Every q where
  memTables mem member entry held := weaker entry (every.memTables mem member entry held)
  files files level table member entry held :=
    weaker entry (every.files files level table member entry held)

theorem Every.switched (every : t.Every p) : (t.switched options).Every p where
  memTables := by
    intro mem member entry held
    simp only [LSMTree.memTables, LSMTree.switched, List.reverse_append, List.reverse_cons,
      List.reverse_nil, List.nil_append, List.cons_append, List.mem_cons, List.mem_reverse] at member
    rcases member with rfl | rfl | old
    · simp at held
    · exact every.memTables _ (List.mem_cons_self ..) entry held
    · exact every.memTables mem (List.mem_cons_of_mem _ (List.mem_reverse.mpr old)) entry held
  files := every.files

theorem Every.landing (every : t.Every p) : (t.landing options).Every p := by
  unfold LSMTree.landing
  split
  · exact every.switched
  · exact every

theorem Every.store (every : t.Every p) {type : ValueType} {key : Key} {value : Value}
    {sequence : Nat} (stored : p (.make key sequence type, value)) :
    (t.store options type key value sequence).Every p where
  memTables := by
    intro mem member entry held
    rcases List.mem_cons.mp member with rfl | old
    · rcases MemTable.mem_entries_insert.mp held with rfl | ⟨held, -⟩
      · exact stored
      · exact every.memTables _ (List.mem_cons_self ..) entry held
    · exact every.memTables mem (List.mem_cons_of_mem _ old) entry held
  files := every.files

theorem Every.flushOldest (every : t.Every p) {status : Status}
    (flushed : t.flushOldestMemTable options = (status, t')) : t'.Every p := by
  by_cases success : status.isOk
  · rcases flushOldestMemTable_ok success flushed with ⟨-, rfl⟩ | ⟨mem, rest, found, flushed⟩
    · exact every
    have fewer : ∀ other ∈ t.mutableMemTable :: rest.reverse, ∀ entry ∈ other.entries, p entry := by
      intro other member
      refine every.memTables other ?_
      rw [LSMTree.memTables, found, List.reverse_cons, ← List.cons_append]
      exact List.mem_append_left _ member
    rcases flushed with ⟨-, rfl⟩ | ⟨-, table, written, rfl⟩
    · exact ⟨fewer, every.files⟩
    · refine ⟨fewer, fun files level file member entry held => ?_⟩
      rcases List.mem_or_eq_of_mem_set level with old | rfl
      · exact every.files files old file member entry held
      · rcases (List.mem_orderedInsert _).mp member with rfl | old
        · refine every.memTables mem ?_ entry ((written_of_flush written).mem.mp held)
          simp [LSMTree.memTables, found]
        · obtain ⟨others, level, inside⟩ := SSTableManager.mem_of_level old
          exact every.files others level file inside entry held
  · obtain rfl := flushOldestMemTable_failed success flushed
    exact ⟨every.memTables, every.files⟩

theorem Every.holds (every : t.Every p) {key : Key} {version : Version}
    (held : Holds t.sources key version) :
    ∃ entry, p entry ∧ entry.1.userKey = key ∧ entry.version = version := by
  rcases holds_append.mp held with ⟨source, inMemory, held⟩ | ⟨source, inFiles, held⟩
  · obtain ⟨mem, member, rfl⟩ := List.mem_map.mp inMemory
    obtain ⟨entry, inside, keys, same⟩ := mem_versionsOf.mp held
    exact ⟨entry, every.memTables mem member entry inside, keys, same⟩
  · obtain ⟨files, level, table, inside, entry, member, keys, same⟩ :=
      SSTableManager.entry_of_source inFiles held
    exact ⟨entry, every.files files level table inside entry member, keys, same⟩

theorem below_new (bound : Nat) : (new options : LSMTree cmp).Below bound := below_iff.mpr every_new

theorem below_sequenceLimit : t.Below sequenceLimit where
  memTables := fun _ _ entry _ => entry.1.bounded
  files := fun _ _ _ _ entry _ => entry.1.bounded

theorem Below.mono (below : t.Below bound) {larger : Nat} (le : bound ≤ larger) : t.Below larger :=
  below_iff.mpr ((below_iff.mp below).mono fun _ less => less.trans_le le)

theorem Below.switched (below : t.Below bound) : (t.switched options).Below bound :=
  below_iff.mpr (below_iff.mp below).switched

theorem Below.landing (below : t.Below bound) : (t.landing options).Below bound :=
  below_iff.mpr (below_iff.mp below).landing

theorem Below.store (below : t.Below bound) {type : ValueType} {key : Key} {value : Value}
    {sequence : Nat} (less : sequence < bound) :
    (t.store options type key value sequence).Below bound :=
  below_iff.mpr ((below_iff.mp below).store ((Nat.mod_le _ _).trans_lt less))

theorem Below.flushOldest (below : t.Below bound) {status : Status}
    (flushed : t.flushOldestMemTable options = (status, t')) : t'.Below bound :=
  below_iff.mpr ((below_iff.mp below).flushOldest flushed)

theorem Below.versions_lt (below : t.Below bound) {mem : MemTable cmp} (member : mem ∈ t.memTables)
    {key : Key} {version : Version} (held : version ∈ mem.versions key) : version.1 < bound := by
  obtain ⟨entry, inside, -, rfl⟩ := mem_versionsOf.mp held
  exact below.memTables mem member entry inside

theorem Below.holds (below : t.Below bound) {key : Key} {version : Version}
    (held : Holds t.sources key version) : version.1 < bound := by
  obtain ⟨entry, less, -, rfl⟩ := (below_iff.mp below).holds held
  exact less

theorem not_holds_new {key : Key} {version : Version} :
    ¬ Holds (new options : LSMTree cmp).sources key version :=
  fun held => Nat.not_lt_zero _ ((below_new 0).holds held)

theorem searchOrdered_new : SearchOrdered (new options : LSMTree cmp).sources := by
  refine List.pairwise_iff_getElem.mpr fun i j hi hj _ key x hx => ?_
  exact absurd ⟨_, List.getElem_mem hi, hx⟩ not_holds_new

theorem get_answers_covered {snapshot : Nat} (below : t.Below (snapshot + 1)) {key : Key}
    {value other : Value} {answer : Option Value} :
    (t.get key snapshot value).Answers answer ↔ (t.get key 0 other).Answers answer := by
  have visible {sequence : Nat} (less : sequence < snapshot + 1) :
      Visible snapshot sequence ↔ Visible 0 sequence :=
    ⟨fun _ => .inl rfl, fun _ => .inr (Nat.le_of_lt_succ less)⟩
  have places : t.memPlaces key snapshot = t.memPlaces key 0 := by
    refine List.map_congr_left fun mem member => List.filter_congr fun version held => ?_
    exact decide_eq_decide.mpr (visible (below.versions_lt member held))
  have files : t.sstables.choice cmp key snapshot = t.sstables.choice cmp key 0 := by
    refine SSTableManager.choice_congr fun table candidate entry member => ?_
    obtain ⟨files, level, inside⟩ := SSTableManager.mem_of_candidate candidate
    exact visible (below.files files level table inside entry member)
  have now := t.get_answers_choice key snapshot value
  have latest := t.get_answers_choice key 0 other
  rw [places, files] at now
  exact ⟨fun answers => now.unique answers ▸ latest, fun answers => latest.unique answers ▸ now⟩

end Lrdb.LSMTree
