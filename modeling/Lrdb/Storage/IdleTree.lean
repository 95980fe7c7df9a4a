import Lrdb.Storage.Reload
import Lrdb.Storage.LevelCompaction

namespace Lrdb.LSMTree
open Versions

variable {cmp : Comparator} {options : LSMTreeOptions} {t u : LSMTree cmp}

structure Idle (t : LSMTree cmp) : Prop where
  mutable : t.mutableMemTable.isEmpty
  immutables : ∀ mem ∈ t.immutables, mem.isEmpty

theorem isEmpty_new (options : MemTableOptions) : (MemTable.new options : MemTable cmp).isEmpty := rfl

theorem idle_reopened (sstables : SSTableManager) :
    (reopened options sstables : LSMTree cmp).Idle :=
  ⟨isEmpty_new _, by simp [reopened, new]⟩

theorem Idle.switched (idle : t.Idle) : (t.switched options).Idle := by
  refine ⟨isEmpty_new _, ?_⟩
  intro mem member
  rcases List.mem_append.mp member with old | last
  · exact idle.immutables mem old
  · obtain rfl := List.mem_singleton.mp last
    exact idle.mutable

variable (options) in
theorem Idle.flushOldest (idle : t.Idle) : (t.flushOldestMemTable options).2.Idle ∧
    (t.flushOldestMemTable options).2.sstables = t.sstables := by
  unfold flushOldestMemTable
  split
  · exact ⟨idle, rfl⟩
  · rename_i mem rest waiting
    have empty : mem.isEmpty := idle.immutables mem (waiting ▸ List.mem_cons_self ..)
    rw [doFlushMemTable, if_pos empty]
    exact ⟨⟨idle.mutable, fun other member =>
      idle.immutables other (waiting ▸ List.mem_cons_of_mem _ member)⟩, rfl⟩

variable (options) in
theorem Idle.flushImmutables (idle : t.Idle) (n : Nat) :
    (LSMTree.flushImmutables options n t).2.Idle ∧
      (LSMTree.flushImmutables options n t).2.sstables = t.sstables := by
  induction n generalizing t with
  | zero => exact ⟨idle, rfl⟩
  | succ n ih =>
      obtain ⟨after, same⟩ := idle.flushOldest options
      rw [LSMTree.flushImmutables]
      rcases flushed : t.flushOldestMemTable options with ⟨status, rest⟩
      rw [flushed] at after same
      dsimp only at after same ⊢
      split
      · exact ⟨(ih after).1, (ih after).2.trans same⟩
      · exact ⟨after, same⟩

theorem Idle.flushAll (idle : t.Idle) : (t.flushAll options).2.Idle ∧
    (t.flushAll options).2.sstables = t.sstables := by
  rw [LSMTree.flushAll, if_pos idle.mutable]
  exact idle.flushImmutables options _

theorem Idle.close (idle : t.Idle) : (t.close options).2 = t.sstables := by
  obtain ⟨after, same⟩ := idle.flushImmutables options t.immutables.length
  rw [LSMTree.close]
  rcases flushed : LSMTree.flushImmutables options t.immutables.length t with ⟨status, rest⟩
  rw [flushed] at after same
  dsimp only at after same ⊢
  rw [doFlushMemTable, if_pos after.mutable]
  exact same

theorem Idle.memPlaces (idle : t.Idle) (key : Key) (snapshot : Nat) :
    firstHit (t.memPlaces key snapshot) = none := by
  have none_held (mem : MemTable cmp) (member : mem ∈ t.memTables) : mem.versions key = [] := by
    have empty : mem.isEmpty := by
      rcases List.mem_cons.mp member with rfl | waiting
      · exact idle.mutable
      · exact idle.immutables mem (List.mem_reverse.mp waiting)
    rw [MemTable.versions, MemTable.isEmpty_iff.mp empty]
    rfl
  rw [LSMTree.memPlaces]
  generalize t.memTables = tables at none_held
  induction tables with
  | nil => rfl
  | cons mem older ih =>
      obtain ⟨here, rest⟩ := List.forall_mem_cons.mp none_held
      rw [List.map_cons, firstHit, here, ih rest]
      rfl

theorem Idle.get_eq (idle : t.Idle) (other : u.Idle) (same : t.sstables = u.sstables) (key : Key)
    (snapshot : Nat) (value : Value) : t.get key snapshot value = u.get key snapshot value := by
  have first := t.getFromMemTables_answer key snapshot value
  have second := u.getFromMemTables_answer key snapshot value
  rw [idle.memPlaces] at first
  rw [other.memPlaces] at second
  have first : t.getFromMemTables key snapshot value = (false, ⟨.ok, value⟩) := first
  have second : u.getFromMemTables key snapshot value = (false, ⟨.ok, value⟩) := second
  rw [LSMTree.get, LSMTree.get, first, second, same]

theorem triggerCompaction_eq (triggers : CompactionTriggers) (fileSize : SSTable → Nat)
    (directory : List Char) (disk : Disk cmp) (t : LSMTree cmp) :
    (t.triggerCompaction triggers fileSize directory disk).2 = t := by
  rw [triggerCompaction]
  cases chosen : chosenLevel triggers fileSize t.sstables with
  | none => rfl
  | some level => exact (compactLevel_fails directory disk t (level_ne_nil chosen)).2

end Lrdb.LSMTree
