import Lrdb.Base.Search
import Lrdb.Concurrency.TxnIterator

namespace Lrdb.TxnIterator
open Scans

variable (cmp : Comparator) (map : Visible)

def lowerBoundMVCC (keys : List Key) (target : Key) : Nat :=
  Search.lowerBound (fun i => keys[i]?.any fun key => cmp.Before key target) 0 keys.length

/-- Where the call leaves the iterator before it advances: `SeekToFirst`, or `Seek` to a target. The tree
iterator goes to its first key that is not before the target. -/
def position (lsm : List (Key × Value)) : Option Key → State
  | none => (mvccKeys cmp map, lsm)
  | some target =>
      let keys := mvccKeys cmp map
      (keys.drop (lowerBoundMVCC cmp keys target), lsm.dropWhile fun kv => cmp.Before kv.1 target)

/-- `Advance` returns. -/
abbrev Advances : State → Option ((Key × Value) × State) → Prop := Seeks (turn cmp map)

/-- Calls of `Next` until the iterator is not valid give the list and end. -/
abbrev ScansTo : State → List (Key × Value) → Prop := Drains (Advances cmp map)

def merged (lsm : List (Key × Value)) (key : Key) : Option Value :=
  decided map (fun key => lsm.lookup key) key

def startingAt (start : Option Key) (content : Key → Option Value) (key : Key) : Option Value :=
  if ∃ target ∈ start, cmp.Before key target then none else content key

variable {cmp} {map}

theorem dropWhile_before {lsm : List (Key × Value)}
    (ascending : lsm.Pairwise fun a b => cmp.Before a.1 b.1) (target : Key) :
    lsm.dropWhile (fun kv => cmp.Before kv.1 target) =
      lsm.filter fun kv => !decide (cmp.Before kv.1 target) := by
  induction lsm with
  | nil => rfl
  | cons kv rest ih =>
      obtain ⟨above, tail⟩ := List.pairwise_cons.mp ascending
      by_cases before : cmp.Before kv.1 target
      · rw [List.dropWhile_cons_of_pos (by simpa using before), ih tail,
          List.filter_cons_of_neg (by simpa using before)]
      · have all : rest.filter (fun other => !decide (cmp.Before other.1 target)) = rest :=
          List.filter_eq_self.mpr fun other member => by
            simpa using fun back => before ((above other member).trans back)
        rw [List.dropWhile_cons_of_neg (by simpa using before),
          List.filter_cons_of_pos (by simpa using before), all]

theorem drop_lowerBoundMVCC {keys : List Key} (ascending : keys.Pairwise cmp.Before) (target : Key) :
    keys.drop (lowerBoundMVCC cmp keys target) =
      keys.filter fun key => !decide (cmp.Before key target) :=
  Search.drop_lowerBound <| ascending.imp fun before later => by
    rw [decide_eq_true_eq] at later ⊢
    exact before.trans later

theorem position_some (nodup : (map.map Prod.fst).Nodup) {lsm : List (Key × Value)}
    (ascending : lsm.Pairwise fun a b => cmp.Before a.1 b.1) (target : Key) :
    position cmp map lsm (some target) =
      ((mvccKeys cmp map).filter fun key => !decide (cmp.Before key target),
        lsm.filter fun kv => !decide (cmp.Before kv.1 target)) :=
  congrArg₂ Prod.mk (drop_lowerBoundMVCC (ascending_mvccKeys nodup) target)
    (dropWhile_before ascending target)

theorem startingAt_congr {content other : Key → Option Value} {key : Key}
    (same : content key = other key) (start : Option Key) :
    startingAt cmp start content key = startingAt cmp start other key := by
  rw [startingAt, startingAt, same]

theorem merging_position (nodup : (map.map Prod.fst).Nodup) {lsm : List (Key × Value)}
    (ascending : lsm.Pairwise fun a b => cmp.Before a.1 b.1) (start : Option Key) :
    Merging cmp map (position cmp map lsm start) := by
  have keys : (mvccKeys cmp map).Pairwise cmp.Before := ascending_mvccKeys nodup
  cases start with
  | none =>
      exact ⟨keys, ascending, fun key => (mem_mvccKeys nodup).mp,
        fun kv _ => (mem_mvccKeys nodup).mpr⟩
  | some target =>
      rw [position_some nodup ascending]
      refine ⟨keys.filter _, ascending.filter _, fun key member => ?_, fun kv member known => ?_⟩
      · exact (mem_mvccKeys nodup).mp (List.mem_filter.mp member).1
      · exact List.mem_filter.mpr ⟨(mem_mvccKeys nodup).mpr known, (List.mem_filter.mp member).2⟩

theorem overlay_position (nodup : (map.map Prod.fst).Nodup) {lsm : List (Key × Value)}
    (ascending : lsm.Pairwise fun a b => cmp.Before a.1 b.1) (start : Option Key) (key : Key) :
    overlay map (position cmp map lsm start) key = startingAt cmp start (merged map lsm) key := by
  have whole : overlay map (mvccKeys cmp map, lsm) key = merged map lsm key := by
    rw [overlay, merged, decided, record]
    cases found : map.lookup key with
    | none => simp [mem_mvccKeys nodup, found]
    | some r => simp [mem_mvccKeys nodup, found]
  cases start with
  | none => exact whole.trans (if_neg (by simp)).symm
  | some target =>
      have looked := lookup_filter (p := fun k => !decide (cmp.Before k target)) lsm key
      rw [position_some nodup ascending, ← startingAt_congr whole]
      simp only [overlay, List.mem_filter, looked, startingAt]
      by_cases before : cmp.Before key target <;> simp [before]

/-- A scan ends, from the first key or from a target on, and gives each key that has a value once, in
ascending order. -/
theorem scan_enumerates (cmp : Comparator) (map : Visible) (nodup : (map.map Prod.fst).Nodup)
    (lsm : List (Key × Value)) (ascending : lsm.Pairwise fun a b => cmp.Before a.1 b.1)
    (start : Option Key) : ∃ out, ScansTo cmp map (position cmp map lsm start) out ∧
      Lists cmp.Before (startingAt cmp start (merged map lsm)) out := by
  have merging := merging_position nodup ascending start
  have enough := Nat.lt_add_one ((reading cmp map).size (position cmp map lsm start))
  refine ⟨_, drains_drain (fun s inv => ?_) yields_advance _ merging enough, ?_⟩
  · exact seeks_seek turns_turn _ inv (Nat.lt_add_one _)
  · refine (lists_drain (reading cmp map) yields_advance _ merging enough).iff.mpr fun key => ?_
    exact (overlay_position nodup ascending start key).symm

def threeRecords : Visible :=
  [([99], ⟨[], true, 2, .kCommitted, 2, false⟩), ([97], ⟨[9], false, 1, .kCommitted, 1, false⟩),
    ([98], ⟨[7], false, 1, .kCommitted, 1, false⟩)]

theorem scan_enumerates_threeRecords : ∃ out,
    ScansTo bytewiseComparator threeRecords (position bytewiseComparator threeRecords
      [([97], [1]), ([99], [3]), ([100], [4])] (some [98])) out ∧
      Lists bytewiseComparator.Before (startingAt bytewiseComparator (some [98])
        (merged threeRecords [([97], [1]), ([99], [3]), ([100], [4])])) out :=
  scan_enumerates bytewiseComparator threeRecords (by decide) _ (by decide) (some [98])

end Lrdb.TxnIterator
