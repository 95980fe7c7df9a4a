import Lrdb.Wal.Consecutive
import Lrdb.Wal.TornTail

namespace Lrdb
open Frames

variable {cmp : Comparator}

theorem recoversWhole_iff (options : LSMTreeOptions) {sstables : SSTableManager}
    (fresh : sstables.Fresh) {files : List LogFile}
    (valid : ∀ r ∈ files.flatMap (·.records), r.Valid) :
    (∃ outcome : Recovery cmp × SSTableManager,
      recoverFromWAL options sstables (files.map LogFile.content) = .ok outcome ∧
        outcome.1.applied = files.flatMap (·.records) ∧
        (effective (fun _ => []) (files.flatMap (·.records))).foldlM
          (ReplayState.applyRecord options.memtable) (MemTable.new options.memtable) =
            .ok outcome.1.state.memtable) ↔
      (∀ r ∈ files.flatMap (·.records), r.Readable) ∧ Replayable (files.flatMap (·.records)) ∧
        FlushOrdered cmp options.memtable (files.flatMap (·.records)) := by
  let logs := files.map (·.records)
  have same : logs.flatten = files.flatMap (·.records) := List.flatMap_def.symm
  have contents : files.map LogFile.content = logs.map (stream WALRecord.frame) ++ [] := by
    rw [List.append_nil, List.map_map]
    rfl
  rw [contents]
  rw [← same] at valid ⊢
  have whole (readable : ∀ r ∈ logs.flatten, r.Readable) := Recovery.files_whole options.memtable
    (⟨.new options.memtable, []⟩ : Recovery cmp) valid readable []
  have replayable := @ReplayState.replay_ok_iff cmp options.memtable logs.flatten
  have memtable := ReplayState.replay_memtable options.memtable (.new options.memtable :
    ReplayState cmp) logs.flatten
  constructor
  · rintro ⟨⟨st, sstables'⟩, recovered, applied, -⟩
    obtain ⟨replayed, ordered⟩ := (recoverFromWAL_ok_iff fresh).mp ⟨sstables', recovered⟩
    have readable : ∀ r ∈ logs.flatten, r.Readable := fun r member =>
      (Recovery.files_applied replayed r (applied.symm ▸ member)).resolve_left List.not_mem_nil
    rcases whole readable with ⟨-, -, other, stops⟩ | ⟨state, replays, ends⟩
    · rw [stops] at replayed
      cases replayed
    obtain rfl := Except.ok.inj (ends.symm.trans replayed)
    refine ⟨readable, replayable.mp ⟨state, replays⟩, fun other replays' => ?_⟩
    obtain rfl := Except.ok.inj (replays.symm.trans replays')
    exact ordered
  · rintro ⟨readable, supported, ordered⟩
    obtain ⟨state, replays⟩ := replayable.mpr supported
    rcases whole readable with ⟨status, failed, -⟩ | ⟨other, replays', ends⟩
    · rw [failed] at replays
      cases replays
    obtain rfl := Except.ok.inj (replays.symm.trans replays')
    obtain ⟨sstables', recovered⟩ := (recoverFromWAL_ok_iff fresh).mpr ⟨ends, ordered state replays⟩
    refine ⟨_, recovered, rfl, ?_⟩
    rw [replays] at memtable
    exact memtable.symm

end Lrdb
