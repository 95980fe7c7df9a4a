import Mathlib.Data.List.MinMax
import Mathlib.Order.Nat
import Lrdb.Wal.Recovery

namespace Lrdb

def greatestSequence (logs : List Log) : Nat :=
  (logs.flatten.map WALRecord.sequenceNumber).foldr max 0

section GreatestSequence
variable {logs other : List Log}

theorem le_greatestSequence {r : WALRecord} (member : r ∈ logs.flatten) :
    r.sequenceNumber ≤ greatestSequence logs :=
  List.le_max_of_le' 0 (List.mem_map_of_mem member) le_rfl

theorem greatestSequence_le {n : Nat} (bounded : ∀ r ∈ logs.flatten, r.sequenceNumber ≤ n) :
    greatestSequence logs ≤ n := by
  refine List.max_le_of_forall_le _ n fun s member => ?_
  obtain ⟨r, inside, rfl⟩ := List.mem_map.mp member
  exact bounded r inside

theorem greatestSequence_mono (subset : logs.flatten ⊆ other.flatten) :
    greatestSequence logs ≤ greatestSequence other :=
  greatestSequence_le fun _ member => le_greatestSequence (subset member)

theorem greatestSequence_append : greatestSequence (logs ++ other) =
    max (greatestSequence logs) (greatestSequence other) := by
  apply le_antisymm
  · refine greatestSequence_le fun r member => ?_
    rw [List.flatten_append] at member
    rcases List.mem_append.mp member with first | second
    · exact le_max_of_le_left (le_greatestSequence first)
    · exact le_max_of_le_right (le_greatestSequence second)
  · refine max_le (greatestSequence_mono ?_) (greatestSequence_mono ?_)
    · rw [List.flatten_append]
      exact List.subset_append_left ..
    · rw [List.flatten_append]
      exact List.subset_append_right ..

end GreatestSequence

namespace ReplayState
variable {cmp : Comparator} {options : MemTableOptions} {st st' : ReplayState cmp}

theorem applyRecovered_maxSequence {r : WALRecord} (applied : st.applyRecovered options r = .ok st') :
    st'.maxSequence = st.maxSequence := by
  unfold applyRecovered at applied
  split at applied
  · cases result : applyRecord options st.memtable r with
    | error status => simp [result, bind, Except.bind] at applied
    | ok mem =>
        rw [result] at applied
        obtain rfl := Except.ok.inj applied
        rfl
  split at applied
  · obtain rfl := Except.ok.inj applied
    rfl
  · cases result : (st.buffers r.transactionId).foldlM (applyRecord options) st.memtable with
    | error status => simp [result, bind, Except.bind] at applied
    | ok mem =>
        rw [result] at applied
        obtain rfl := Except.ok.inj applied
        rfl
  · obtain rfl := Except.ok.inj applied
    rfl
  · obtain rfl := Except.ok.inj applied
    rfl

theorem replay_maxSequence {log : Log} (replays : st.replay options log = .ok st') :
    st'.maxSequence = max st.maxSequence (greatestSequence [log]) := by
  induction log generalizing st with
  | nil =>
      obtain rfl := Except.ok.inj replays
      exact (Nat.max_zero _).symm
  | cons r rest ih =>
      have split : st.replay options (r :: rest) =
          (st.next options r).bind fun st => st.replay options rest := by
        rw [replay, List.foldlM_cons]
        rfl
      rw [split] at replays
      unfold next at replays
      cases applied : st.applyRecovered options r with
      | error status => simp [applied, bind, Except.bind] at replays
      | ok mid =>
          rw [applied] at replays
          rw [ih replays]
          change max (max mid.maxSequence r.sequenceNumber) _ = _
          rw [applyRecovered_maxSequence applied, max_assoc]
          simp [greatestSequence]

theorem mem_of_effective {log : Log} {buffers : Nat → List WALRecord} {r : WALRecord}
    (member : r ∈ effective buffers log) : r ∈ log ∨ ∃ txn, r ∈ buffers txn := by
  induction log generalizing buffers with
  | nil => cases member
  | cons first rest ih =>
      -- A record waits in the buffer of its transaction or not at all.
      have later {txn : Nat} {records : List WALRecord}
          (known : ∀ a ∈ records, a = first ∨ a ∈ buffers txn)
          (member : r ∈ effective (Function.update buffers txn records) rest) :
          r ∈ first :: rest ∨ ∃ txn, r ∈ buffers txn := by
        rcases ih member with inRest | ⟨other, buffered⟩
        · exact .inl (List.mem_cons_of_mem _ inRest)
        · by_cases same : other = txn
          · subst same
            rw [Function.update_self] at buffered
            rcases known r buffered with rfl | old
            · exact .inl (List.mem_cons_self ..)
            · exact .inr ⟨_, old⟩
          · rw [Function.update_of_ne same] at buffered
            exact .inr ⟨other, buffered⟩
      rw [effective] at member
      split at member
      · rcases List.mem_cons.mp member with rfl | inRest
        · exact .inl (List.mem_cons_self ..)
        · exact (ih inRest).imp_left (List.mem_cons_of_mem _)
      split at member
      · exact (ih member).imp_left (List.mem_cons_of_mem _)
      · rcases List.mem_append.mp member with buffered | inRest
        · exact .inr ⟨_, buffered⟩
        · exact later (fun a empty => absurd empty List.not_mem_nil) inRest
      · exact later (fun a empty => absurd empty List.not_mem_nil) member
      · refine later (fun a known => ?_) member
        rcases List.mem_append.mp known with old | new
        · exact .inr old
        · exact .inl (List.mem_singleton.mp new)

theorem applyRecord_below {mem mem' : MemTable cmp} {r : WALRecord} {bound : Nat}
    (below : ∀ entry ∈ mem.entries, entry.1.sequence < bound) (less : r.sequenceNumber < bound)
    (applied : applyRecord options mem r = .ok mem') :
    ∀ entry ∈ mem'.entries, entry.1.sequence < bound := by
  have inserted {key : Key} {type : ValueType} {value : Value}
      (added : mem.add options type key value r.sequenceNumber = .ok mem') :
      ∀ entry ∈ mem'.entries, entry.1.sequence < bound := by
    unfold MemTable.add at added
    split at added <;> [cases added; skip]
    obtain rfl := Except.ok.inj added
    intro entry member
    rcases MemTable.mem_entries_insert.mp member with rfl | ⟨old, -⟩
    · exact (Nat.mod_le _ _).trans_lt less
    · exact below entry old
  unfold applyRecord at applied
  split at applied
  · exact inserted applied
  · exact inserted applied
  · cases applied
  · cases applied
  · exact Except.ok.inj applied ▸ below

theorem replay_below {log : Log} {bound : Nat} (less : ∀ r ∈ log, r.sequenceNumber < bound)
    (replays : (new options : ReplayState cmp).replay options log = .ok st) :
    ∀ entry ∈ st.memtable.entries, entry.1.sequence < bound := by
  have applied := replay_memtable options (new options : ReplayState cmp) log
  rw [replays] at applied
  have small : ∀ r ∈ effective (fun _ => []) log, r.sequenceNumber < bound := by
    intro r member
    rcases mem_of_effective member with inLog | ⟨txn, buffered⟩
    · exact less r inLog
    · cases buffered
  suffices grown : ∀ mem : MemTable cmp, (∀ entry ∈ mem.entries, entry.1.sequence < bound) →
      .ok st.memtable = (effective (fun _ => []) log).foldlM (applyRecord options) mem →
      ∀ entry ∈ st.memtable.entries, entry.1.sequence < bound from
    grown (.new options) (by simp) applied
  generalize effective (fun _ => []) log = records at small
  induction records with
  | nil =>
      intro mem below same
      obtain same : st.memtable = mem := Except.ok.inj same
      exact same ▸ below
  | cons r rest ih =>
      obtain ⟨here, later⟩ := List.forall_mem_cons.mp small
      intro mem below same
      rw [List.foldlM_cons] at same
      cases result : applyRecord options mem r with
      | error status => simp [result, bind, Except.bind] at same
      | ok mem' =>
          rw [result] at same
          exact ih later mem' (applyRecord_below below here result) same

end ReplayState
end Lrdb
