import Mathlib.Logic.Function.Basic
import Lrdb.Wal.Record

/-!
# Replay of the log

Recovery reads the records in the order of the files. A record of transaction zero is applied at
once; other records wait for the commit record of their transaction. What is applied goes to one
recovery memtable.
-/

namespace Lrdb
open Versions

inductive TransactionState where
  | kActive | kCommitted | kAborted
  deriving DecidableEq, Repr

structure ReplayState (cmp : Comparator) where
  memtable : MemTable cmp
  transactionStates : Nat → Option TransactionState
  buffers : Nat → List WALRecord
  maxSequence : Nat

namespace ReplayState
variable {cmp : Comparator} (options : MemTableOptions)

def new : ReplayState cmp := ⟨.new options, fun _ => none, fun _ => [], 0⟩

/-- `LSMTree::RecoverFromWALRecord`. -/
def recoverRecord (mem : MemTable cmp) (key : Key) (value : Value) (sequence : Nat)
    (isDeletion : Bool) : Except Status (MemTable cmp) :=
  if isDeletion then mem.delete options key sequence else mem.put options key value sequence

/-- `ApplyWALRecord`: the records that carry no write change nothing here. -/
def applyRecord (mem : MemTable cmp) (r : WALRecord) : Except Status (MemTable cmp) :=
  match r.type with
  | .kPut => recoverRecord options mem r.key r.value r.sequenceNumber false
  | .kDelete => recoverRecord options mem r.key [] r.sequenceNumber true
  | .kMerge => .error (.notSupported "WAL replay of kMerge records is not supported")
  | .unknown byte => .error (.invalidArgument ("Unknown WAL record type: " ++ toString byte.toNat))
  | _ => .ok mem

/-- `ApplyRecoveredRecord`. -/
def applyRecovered (st : ReplayState cmp) (r : WALRecord) : Except Status (ReplayState cmp) :=
  if r.transactionId = 0 then do
    let mem ← applyRecord options st.memtable r
    return { st with memtable := mem }
  else
    match r.type with
    | .kBeginTransaction => .ok
        { st with transactionStates :=
            Function.update st.transactionStates r.transactionId (some .kActive) }
    | .kCommitTransaction => do
        let mem ← (st.buffers r.transactionId).foldlM (applyRecord options) st.memtable
        return { st with
          memtable := mem
          buffers := Function.update st.buffers r.transactionId []
          transactionStates :=
            Function.update st.transactionStates r.transactionId (some .kCommitted) }
    | .kAbortTransaction => .ok
        { st with
          buffers := Function.update st.buffers r.transactionId []
          transactionStates :=
            Function.update st.transactionStates r.transactionId (some .kAborted) }
    | _ => .ok
        { st with buffers :=
            Function.update st.buffers r.transactionId (st.buffers r.transactionId ++ [r]) }

/-- One round of the loop of `RecoverFromWALFile`. -/
def next (st : ReplayState cmp) (r : WALRecord) : Except Status (ReplayState cmp) := do
  let st ← st.applyRecovered options r
  return { st with maxSequence := max st.maxSequence r.sequenceNumber }

def replay (st : ReplayState cmp) (log : Log) : Except Status (ReplayState cmp) :=
  log.foldlM (next options) st

theorem replay_append {options : MemTableOptions} (st : ReplayState cmp) (log more : Log) :
    st.replay options (log ++ more) =
      (st.replay options log).bind fun st => st.replay options more := by
  rw [replay, List.foldlM_append]
  rfl

/-! ## Replay of committed writes -/

def Plain (r : WALRecord) : Prop :=
  r.transactionId = 0 ∧ (r.type = .kPut ∨ r.type = .kDelete)

def versionOf (r : WALRecord) : Version :=
  if r.type = .kDelete then (r.sequenceNumber, .kDeletion, [])
  else (r.sequenceNumber, .kValue, r.value)

theorem plain_ofWrite (columnFamilyId : Nat) (key : Key) (sequence : Nat)
    (content : Option Value) : Plain (.ofWrite columnFamilyId key sequence content) := by
  cases content
  · exact ⟨rfl, .inr rfl⟩
  · exact ⟨rfl, .inl rfl⟩

variable {options} {st : ReplayState cmp} {r : WALRecord}

theorem next_plain (plain : Plain r) (writable : st.memtable.immutable = false) :
    st.next options r = .ok
      { st with
        memtable := st.memtable.insert options
          (.make r.key r.sequenceNumber (versionOf r).2.1) (versionOf r).2.2
        maxSequence := max st.maxSequence r.sequenceNumber } := by
  obtain ⟨zero, type⟩ := plain
  rcases type with put | delete
  · simp [next, applyRecovered, zero, applyRecord, put, recoverRecord, MemTable.put, MemTable.add,
      writable, versionOf, bind, Except.bind, pure, Except.pure]
  · simp [next, applyRecovered, zero, applyRecord, delete, recoverRecord, MemTable.delete,
      MemTable.add, writable, versionOf, bind, Except.bind, pure, Except.pure]

def Consistent (log : Log) : Prop :=
  ∀ r ∈ log, ∀ r' ∈ log, r.key = r'.key → r.sequenceNumber = r'.sequenceNumber →
    versionOf r = versionOf r'

/-- The recovery memtable after the records of `log`. -/
structure Replayed (st : ReplayState cmp) (log : Log) : Prop where
  writable : st.memtable.immutable = false
  versions : ∀ key version, version ∈ st.memtable.versions key ↔
    ∃ r ∈ log, r.key = key ∧ versionOf r = version

theorem versionOf_sequence (r : WALRecord) : (versionOf r).1 = r.sequenceNumber := by
  unfold versionOf
  split <;> rfl

theorem replayed_new : Replayed (new options : ReplayState cmp) [] :=
  ⟨rfl, by simp [new, MemTable.versions, versionsOf]⟩

theorem Replayed.insert {log : Log} (replayed : Replayed st log) (options : MemTableOptions)
    (consistent : Consistent (log ++ [r])) (bounded : r.sequenceNumber < sequenceLimit) : Replayed
      { st with
        memtable := st.memtable.insert options
          (.make r.key r.sequenceNumber (versionOf r).2.1) (versionOf r).2.2
        maxSequence := max st.maxSequence r.sequenceNumber } (log ++ [r]) := by
  refine ⟨replayed.writable, fun key version => ?_⟩
  have last : r ∈ log ++ [r] := List.mem_append_right _ (List.mem_singleton_self r)
  simp only [MemTable.mem_versions_insert, InternalKey.make_userKey, InternalKey.make_type,
    InternalKey.make_sequence bounded, replayed.versions]
  constructor
  · rintro (⟨rfl, rfl⟩ | ⟨⟨a, member, rfl, rfl⟩, -⟩)
    · exact ⟨r, last, rfl, Prod.ext (versionOf_sequence r) rfl⟩
    · exact ⟨a, List.mem_append_left _ member, rfl, rfl⟩
  · rintro ⟨a, member, rfl, rfl⟩
    have here := List.mem_append.mp member
    by_cases same : r.key = a.key ∧ r.sequenceNumber = a.sequenceNumber
    · refine .inl ⟨same.1, ?_⟩
      rw [← consistent r last a member same.1 same.2]
      exact Prod.ext (versionOf_sequence r) rfl
    · refine .inr ⟨⟨a, here.resolve_right ?_, rfl, rfl⟩, fun ⟨keys, sequences, _⟩ =>
        same ⟨keys, ?_⟩⟩
      · intro new
        obtain rfl := List.mem_singleton.mp new
        exact same ⟨rfl, rfl⟩
      · exact sequences.symm.trans (versionOf_sequence a)

theorem replay_plain {done log : Log} (replayed : Replayed st done)
    (plain : ∀ r ∈ log, Plain r) (bounded : ∀ r ∈ log, r.sequenceNumber < sequenceLimit)
    (consistent : Consistent (done ++ log)) :
    ∃ st', st.replay options log = .ok st' ∧ Replayed st' (done ++ log) := by
  induction log generalizing st done with
  | nil => exact ⟨st, rfl, by rwa [List.append_nil]⟩
  | cons r rest ih =>
      obtain ⟨plainHere, plainRest⟩ := List.forall_mem_cons.mp plain
      obtain ⟨boundedHere, boundedRest⟩ := List.forall_mem_cons.mp bounded
      have split : done ++ r :: rest = (done ++ [r]) ++ rest := by simp
      rw [split] at consistent ⊢
      have inserted := replayed.insert options
        (fun a ha b hb => consistent a (List.mem_append_left _ ha) b (List.mem_append_left _ hb))
        boundedHere
      obtain ⟨st', replays, result⟩ := ih inserted plainRest boundedRest consistent
      refine ⟨st', ?_, result⟩
      rw [replay, List.foldlM_cons, next_plain plainHere replayed.writable]
      exact replays

end ReplayState
end Lrdb
