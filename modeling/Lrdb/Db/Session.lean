import Lrdb.Base.Runs
import Lrdb.Concurrency.Effect
import Lrdb.Storage.Coverage
import Lrdb.Wal.Record

/-!
# A session of a column family

The transaction manager, the tree it flushes to and the log it commits to, from the moment the
column family is open. Steps of all threads come in any order.
-/

namespace Lrdb
open Versions LSMTree Runs

structure Session (cmp : Comparator) where
  manager : TxManager
  lsm : LSMTree cmp
  /-- The records appended in the session. -/
  wal : Log := []
  columnFamilyId : Nat := 0

inductive SessionAction where
  /-- A step whose outcome neither the log nor the tree decides. -/
  | transaction (action : TxAction)
  | log (txn : Nat) (fault : Option WriteFault)
  | flushWrite (call : Nat)
  | switchMemTable
  | flushOldestMemTable
  deriving DecidableEq, Repr

def TxAction.external : TxAction → Bool
  | .logged .. | .wrote .. => true
  | _ => false

namespace Session
variable {cmp : Comparator}

def opened (lsm : LSMTree cmp) (nextSequence : Nat) : Session cmp :=
  { manager := { nextSequence := nextSequence }, lsm := lsm }

variable (options : LSMTreeOptions)

def setManager (st : Session cmp) (manager : TxManager) : Session cmp :=
  { st with manager := manager }

/-- One round of the logging loop of `Commit`. -/
def log (st : Session cmp) (txn : Nat) (fault : Option WriteFault) : Option (Session cmp) :=
  match (st.manager.txns txn).map Transaction.stage with
  | some (.logging sequence (key :: _)) =>
      match (st.manager.chain key).latestActive txn with
      | none => (st.manager.step (.logged txn true)).map st.setManager
      | some r =>
          let (status, wal) :=
            st.wal.writeKey fault st.columnFamilyId key sequence r.written
          (st.manager.step (.logged txn status.isOk)).map fun manager =>
            { st with manager := manager, wal := wal }
  | _ => none

def writeItem (lsm : LSMTree cmp) (item : Key × VersionRecord) : Status × LSMTree cmp :=
  if item.2.isDelete then lsm.delete options item.1 item.2.commitSnapshot
  else lsm.put options item.1 item.2.value item.2.commitSnapshot

def nextItem (st : Session cmp) (call : Nat) : Option (Key × VersionRecord) :=
  (st.manager.flushes call).bind fun f => f.remaining.head?

/-- One round of the writing loop of `FlushCommittedToLSM`. -/
def flushWrite (st : Session cmp) (call : Nat) : Option (Session cmp) :=
  match st.nextItem call with
  | some item =>
      let (status, lsm) := writeItem options st.lsm item
      (st.manager.step (.wrote call status.isOk)).map fun manager =>
        { st with manager := manager, lsm := lsm }
  | none => none

def step (st : Session cmp) : SessionAction → Option (Session cmp)
  | .transaction action =>
      if action.external then none else (st.manager.step action).map st.setManager
  | .log txn fault => st.log txn fault
  | .flushWrite call => st.flushWrite options call
  | .switchMemTable => (st.lsm.switchMemTable options).toOption.map fun lsm => { st with lsm := lsm }
  | .flushOldestMemTable => some { st with lsm := (st.lsm.flushOldestMemTable options).2 }

/-! ## Calls that nothing interrupts -/

def beginCall (txn : Nat) (isolation : IsolationLevel) : List SessionAction :=
  [.transaction (.allocate isolation), .transaction (.insertActive txn),
    .transaction (.copyActive txn), .transaction (.readUpLimit txn),
    .transaction (.captureSequence txn)]

def writeCall (txn : Nat) (key : Key) (content : Option Value) : List SessionAction :=
  [.transaction (.acquire txn key), .transaction (.write txn content)]

def commitCall (txn : Nat) (writes : List (Key × Option Value)) : List SessionAction :=
  let keys := (writes.map Prod.fst).dedup
  beginCall txn .kReadCommitted ++ writes.flatMap (fun write => writeCall txn write.1 write.2) ++
    [.transaction (.prepareCommit txn keys)] ++ keys.map (fun _ => .log txn none) ++
    [.transaction (.synced txn true), .transaction (.markCommitted txn),
      .transaction (.onCommitted txn), .transaction (.releaseAll txn)]

/-- `FlushCommittedToLSM` without a limit, when it writes `count` items. -/
def flushCall (call count : Nat) (order : List Key) : List SessionAction :=
  [.transaction (.pick call (count + 1) order)] ++ List.replicate count (.flushWrite call) ++
    [.transaction (.markFlushed call)]

/-! ## Reads -/

/-- `TxManager::Get`, a read outside any transaction. -/
def managerGet (st : Session cmp) (key : Key) (value : Value) : ReadResult :=
  let view := st.manager.readView .kReadCommitted 0 []
  let (found, chain) := (st.manager.chain key).getVisible view []
  if ¬ chain.status.isOk then ⟨chain.status, value⟩
  else if found then ⟨.ok, chain.value⟩
  else st.lsm.get key st.manager.currentSequence value

/-- `DefaultColumnFamily::Get` of the latest value. -/
def get (st : Session cmp) (key : Key) (value : Value) : ReadResult :=
  let result := st.managerGet key value
  if result.status.isOk then ⟨.ok, result.value⟩
  else if result.status.isDeleted then ⟨.notFound "Key was deleted", result.value⟩
  else if result.status.isNotFound then st.lsm.get key 0 result.value
  else result

/-- `DefaultColumnFamily::Get` at a sequence. -/
def getAt (st : Session cmp) (key : Key) (sequence : Nat) (value : Value) : ReadResult :=
  let (found, chain) := (st.manager.chain key).getVisibleBySnapshot sequence value
  if ¬ chain.status.isOk then chain
  else if found then ⟨.ok, chain.value⟩
  else st.lsm.get key sequence chain.value

def lsmReadSeq (st : Session cmp) (t : Transaction) : Nat :=
  match t.view.policy with
  | .kReadCommitted => st.manager.currentSequence
  | .kRepeatableRead => t.lsmReadSeq

/-- `TransactionImpl::Get`. -/
def transactionGet (st : Session cmp) (t : Transaction) (key : Key) (value : Value) :
    ReadResult :=
  let (found, chain) := (st.manager.chain key).getVisible t.view []
  if chain.status.isDeleted then ⟨.notFound "Key was deleted", value⟩
  else if ¬ chain.status.isOk then ⟨chain.status, value⟩
  else if found then ⟨.ok, chain.value⟩
  else st.lsm.get key (st.lsmReadSeq t) value

theorem getAt_eq (st : Session cmp) (key : Key) (sequence : Nat) (value : Value) :
    st.getAt key sequence value =
      .chainFirst ⟨.notFound "Key deleted at snapshot", value⟩ (st.lsm.get key sequence value)
        ((((st.manager.chain key).find? fun r =>
          r.isCommitted && decide (r.commitSnapshot ≤ sequence)).map VersionRecord.stamp).map
            Prod.snd) := by
  rw [getAt, Chain.getVisibleBySnapshot, Chain.report_eq]
  rcases (Option.map VersionRecord.stamp _).map Prod.snd with _ | _ | content <;> rfl

theorem transactionGet_eq (st : Session cmp) (t : Transaction) (key : Key) (value : Value) :
    st.transactionGet t key value =
      .chainFirst ⟨.notFound "Key was deleted", value⟩ (st.lsm.get key (st.lsmReadSeq t) value)
        ((((st.manager.chain key).find? fun r => r.visibleTo t.view).map VersionRecord.stamp).map
          Prod.snd) := by
  rw [transactionGet, Chain.getVisible, Chain.report_eq]
  rcases (Option.map VersionRecord.stamp _).map Prod.snd with _ | _ | content <;> rfl

/-! ## What one step does -/

variable {options} {st st' : Session cmp} {base : Nat}

theorem step_action {action : SessionAction} (stepped : st.step options action = some st') :
    st'.manager = st.manager ∨ ∃ a, (action = .transaction a ∨ a.external) ∧
      st.manager.step a = some st'.manager := by
  cases action with
  | transaction a =>
      simp only [step] at stepped
      split at stepped
      · cases stepped
      · obtain ⟨manager, moved, rfl⟩ := Option.map_eq_some_iff.mp stepped
        exact .inr ⟨a, .inl rfl, moved⟩
  | log txn fault =>
      simp only [step, log] at stepped
      split at stepped <;> [skip; cases stepped]
      split at stepped
      · obtain ⟨manager, moved, rfl⟩ := Option.map_eq_some_iff.mp stepped
        exact .inr ⟨_, .inr rfl, moved⟩
      · obtain ⟨manager, moved, rfl⟩ := Option.map_eq_some_iff.mp stepped
        exact .inr ⟨_, .inr rfl, moved⟩
  | flushWrite call =>
      simp only [step, flushWrite] at stepped
      split at stepped <;> [skip; cases stepped]
      obtain ⟨manager, moved, rfl⟩ := Option.map_eq_some_iff.mp stepped
      exact .inr ⟨_, .inr rfl, moved⟩
  | switchMemTable =>
      obtain ⟨lsm, -, rfl⟩ := Option.map_eq_some_iff.mp stepped
      exact .inl rfl
  | flushOldestMemTable =>
      obtain rfl := Option.some.inj stepped
      exact .inl rfl

theorem step_manager {action : SessionAction} (stepped : st.step options action = some st') :
    st'.manager = st.manager ∨ ∃ a, st.manager.step a = some st'.manager :=
  (step_action stepped).imp_right fun ⟨a, _, moved⟩ => ⟨a, moved⟩

/-- What a step does to the tree. -/
inductive TreeStep (options : LSMTreeOptions) (st st' : Session cmp) (action : SessionAction) :
    Prop where
  | same (tree : st'.lsm = st.lsm)
  | switched (tree : st'.lsm = st.lsm.switched options)
  | flushed (taken : action = .flushOldestMemTable) (status : Status)
      (tree : st.lsm.flushOldestMemTable options = (status, st'.lsm))
  | written (call : Nat) (taken : action = .flushWrite call) (item : Key × VersionRecord)
      (next : st.nextItem call = some item)
      (tree : st'.lsm = (st.lsm.landing options).store options
        (if item.2.isDelete then .kDeletion else .kValue) item.1
        (if item.2.isDelete then [] else item.2.value) item.2.commitSnapshot)

theorem writeItem_cases {lsm lsm' : LSMTree cmp} {item : Key × VersionRecord} {status : Status}
    (positive : item.2.commitSnapshot ≠ 0)
    (written : writeItem options lsm item = (status, lsm')) :
    ¬ status.isOk ∧ lsm' = lsm ∨ status.isOk ∧ lsm' = (lsm.landing options).store options
      (if item.2.isDelete then .kDeletion else .kValue) item.1
      (if item.2.isDelete then [] else item.2.value) item.2.commitSnapshot := by
  unfold writeItem at written
  by_cases success : status.isOk
  · refine .inr ⟨success, ?_⟩
    split at written
    · rename_i deletion
      simpa [deletion] using write_ok positive success written
    · rename_i live
      simpa [live] using write_ok positive success written
  · refine .inl ⟨success, ?_⟩
    split at written <;> exact write_failed positive success written

theorem mem_remaining {call : Nat} {item : Key × VersionRecord}
    (next : st.nextItem call = some item) :
    ∃ f, st.manager.flushes call = some f ∧ ∃ rest, f.remaining = item :: rest := by
  obtain ⟨f, flushing, head⟩ := Option.bind_eq_some_iff.mp next
  refine ⟨f, flushing, f.remaining.tail, ?_⟩
  exact (List.cons_head?_tail head).symm

theorem item_committed (coherent : st.manager.Coherent base) {call : Nat}
    {item : Key × VersionRecord} (next : st.nextItem call = some item) :
    item.2.isCommitted ∧ item.2.stamp ∈ st.manager.history item.1 := by
  obtain ⟨f, flushing, rest, remaining⟩ := mem_remaining next
  have member : item ∈ f.items := by simp [FlushCall.items, remaining]
  obtain ⟨isCommitted, stamp, -⟩ := coherent.picked call f flushing item member
  exact ⟨isCommitted, stamp⟩

theorem item_positive (coherent : st.manager.Coherent base) (positive : 0 < base) {call : Nat}
    {item : Key × VersionRecord} (next : st.nextItem call = some item) :
    item.2.commitSnapshot ≠ 0 :=
  (positive.trans_le (coherent.history_lt (item_committed coherent next).2).1).ne'

theorem step_tree (coherent : st.manager.Coherent base) (positive : 0 < base)
    {action : SessionAction} (stepped : st.step options action = some st') :
    TreeStep options st st' action := by
  cases action with
  | transaction a =>
      simp only [step] at stepped
      split at stepped
      · cases stepped
      · obtain ⟨manager, -, rfl⟩ := Option.map_eq_some_iff.mp stepped
        exact .same rfl
  | log txn fault =>
      simp only [step, log] at stepped
      split at stepped <;> [skip; cases stepped]
      split at stepped
      · obtain ⟨manager, -, rfl⟩ := Option.map_eq_some_iff.mp stepped
        exact .same rfl
      · obtain ⟨manager, -, rfl⟩ := Option.map_eq_some_iff.mp stepped
        exact .same rfl
  | flushWrite call =>
      simp only [step, flushWrite] at stepped
      split at stepped <;> [rename_i item next; cases stepped]
      obtain ⟨manager, -, rfl⟩ := Option.map_eq_some_iff.mp stepped
      rcases writeItem_cases (item_positive coherent positive next) rfl with
        ⟨-, tree⟩ | ⟨-, tree⟩
      · exact .same tree
      · exact .written call rfl item next tree
  | switchMemTable =>
      obtain ⟨lsm, switched, rfl⟩ := Option.map_eq_some_iff.mp stepped
      cases result : st.lsm.switchMemTable options with
      | error status => simp [result, Except.toOption] at switched
      | ok tree =>
          obtain rfl : tree = lsm := by simpa [result, Except.toOption] using switched
          exact .switched (switchMemTable_ok result)
  | flushOldestMemTable =>
      obtain rfl := Option.some.inj stepped
      exact .flushed rfl _ rfl

theorem numbered_step (coherent : st.manager.Coherent base) (positive : 0 < base)
    (numbered : st.lsm.sstables.Numbered) {action : SessionAction}
    (stepped : st.step options action = some st') : st'.lsm.sstables.Numbered := by
  cases step_tree coherent positive stepped with
  | same tree => exact tree ▸ numbered
  | switched tree => exact tree ▸ numbered
  | flushed _ status tree => exact numbered_flushOldest numbered tree
  | written call _ item next tree => exact tree ▸ numbered_landing numbered

theorem coherent_step {action : SessionAction} (stepped : st.step options action = some st')
    (coherent : st.manager.Coherent base) : st'.manager.Coherent base := by
  rcases step_manager stepped with same | ⟨a, moved⟩
  · exact same ▸ coherent
  · exact coherent.step moved

theorem coherent_of_run {guard : Session cmp → SessionAction → Prop} {lsm : LSMTree cmp}
    {nextSequence : Nat} (run : Run (step options) guard (opened lsm nextSequence) st) :
    st.manager.Coherent nextSequence :=
  run.invariant (fun _ _ _ _ stepped coherent => coherent_step stepped coherent)
    (TxManager.Coherent.initial nextSequence)

theorem session_effect {action : SessionAction} (stepped : st.step options action = some st') :
    st.manager.Effect st'.manager := by
  rcases step_manager stepped with same | ⟨a, moved⟩
  · exact same ▸ TxManager.Effect.refl _
  · exact TxManager.step_effect moved

structure Grounded (base : Nat) (st : Session cmp) : Prop where
  coherent : st.manager.Coherent base
  below : st.lsm.Below st.manager.nextSequence

theorem Grounded.step (grounded : Grounded base st) (positive : 0 < base)
    {action : SessionAction} (stepped : st.step options action = some st') : Grounded base st' := by
  refine ⟨coherent_step stepped grounded.coherent, ?_⟩
  have effect := session_effect stepped
  have grown := grounded.below.mono effect.nextSequence
  cases step_tree grounded.coherent positive stepped with
  | same tree => exact tree ▸ grown
  | switched tree => exact tree ▸ grown.switched
  | flushed _ status tree => exact grown.flushOldest tree
  | written call _ item next tree =>
      have given := (grounded.coherent.history_lt (item_committed grounded.coherent next).2).2
      exact tree ▸ grown.landing.store (given.trans_le effect.nextSequence)

theorem grounded_of_run {guard : Session cmp → SessionAction → Prop} {lsm : LSMTree cmp}
    {nextSequence : Nat} (positive : 0 < nextSequence) (below : lsm.Below nextSequence)
    (run : Run (step options) guard (opened lsm nextSequence) st) : Grounded nextSequence st :=
  run.invariant (fun _ _ _ _ stepped grounded => grounded.step positive stepped)
    ⟨TxManager.Coherent.initial nextSequence, below⟩

end Session
end Lrdb
