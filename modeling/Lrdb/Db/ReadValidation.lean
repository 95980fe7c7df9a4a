import Lrdb.Db.CommitCrash
import Lrdb.Db.RepeatableRead

/-!
# Read-set validation

A transaction with `enable_rr_validation` records what its reads found, and its commit compares the
records with what the chains show. A read looks into the tree as well, and it may answer with a
write of the transaction itself.
-/

namespace Lrdb
open Versions LSMTree Runs TxManager

structure ReadEntry where
  found : Bool
  value : Value := []
  deriving DecidableEq, Repr

namespace Session
variable {cmp : Comparator}

/-- `TransactionImpl::Get`, with what it puts into the read set. -/
def transactionRead (st : Session cmp) (t : Transaction) (key : Key) (value : Value) :
    ReadResult × Option ReadEntry :=
  let (found, chain) := (st.manager.chain key).getVisible t.view []
  if chain.status.isDeleted then (⟨.notFound "Key was deleted", value⟩, some { found := false })
  else if ¬ chain.status.isOk then (⟨chain.status, value⟩, none)
  else if found then (⟨.ok, chain.value⟩, some { found := true, value := chain.value })
  else
    let result := st.lsm.get key (st.lsmReadSeq t) value
    (result, if result.status.isOk then some { found := true, value := result.value } else none)

/-- The loop over the read set in `Commit`. -/
def validateReadSet (st : Session cmp) (t : Transaction) : List (Key × ReadEntry) → Status
  | [] => .ok
  | (key, entry) :: rest =>
      let (found, current) := (st.manager.chain key).getVisible t.view []
      if ¬ current.status.isDeleted ∧ ¬ current.status.isOk then current.status
      else if entry.found ≠ found then .aborted "RR validation failed"
      else if entry.found ∧ current.value ≠ entry.value then .aborted "RR validation failed"
      else st.validateReadSet t rest

def withoutVersions (st : Session cmp) (txn : Nat) : Session cmp :=
  st.setManager { st.manager with
    versions := st.manager.versions.forEach
      (fun _ chain => chain.filter fun r => r.txnId ≠ txn) fun _ => rfl }

end Session

structure ReadingSession (cmp : Comparator) where
  session : Session cmp
  readSets : Nat → List (Key × ReadEntry) := fun _ => []
  /-- The last read of every key that the transaction had not written, and its record. -/
  firstHand : Nat → List (Key × ReadResult × Option ReadEntry) := fun _ => []

inductive ReadingAction where
  | session (action : SessionAction)
  | get (txn : Nat) (key : Key) (value : Value)
  | commit (txn : Nat) (order : List Key)
  deriving DecidableEq, Repr

/-- The step is taken inside `Commit`, after the validation. -/
def SessionAction.prepares : SessionAction → Bool
  | .transaction (.prepareCommit ..) => true
  | _ => false

/-- `read_set_[key] = entry`. -/
def assign {α : Type} (key : Key) (entry : α) (entries : List (Key × α)) : List (Key × α) :=
  (key, entry) :: entries.filter fun other => other.1 ≠ key

def assignSome {α : Type} (key : Key) : Option α → List (Key × α) → List (Key × α)
  | none, entries => entries
  | some entry, entries => assign key entry entries

theorem mem_assign {α : Type} {key : Key} {entry : α} {entries : List (Key × α)}
    {other : Key × α} : other ∈ assign key entry entries ↔
      other = (key, entry) ∨ other ∈ entries ∧ other.1 ≠ key := by
  simp [assign]

theorem mem_assign_self {α : Type} {key : Key} {entry other : α} {entries : List (Key × α)} :
    (key, other) ∈ assign key entry entries ↔ other = entry := by
  simp [mem_assign]

theorem mem_assign_of_ne {α : Type} {key other : Key} (different : other ≠ key) {entry a : α}
    {entries : List (Key × α)} : (other, a) ∈ assign key entry entries ↔ (other, a) ∈ entries := by
  simp [mem_assign, different]

theorem exists_mem_assign {α : Type} {key other : Key} {entry : α} {entries : List (Key × α)}
    (present : ∃ a ∈ entries, a.1 = other) : ∃ a ∈ assign key entry entries, a.1 = other := by
  obtain ⟨⟨k, a⟩, member, rfl⟩ := present
  by_cases same : k = key
  · exact ⟨(key, entry), mem_assign_self.mpr rfl, same.symm⟩
  · exact ⟨(k, a), (mem_assign_of_ne same).mpr member, rfl⟩

namespace ReadingSession
variable {cmp : Comparator}

def opened (lsm : LSMTree cmp) (nextSequence : Nat) : ReadingSession cmp :=
  { session := .opened lsm nextSequence }

def setSession (st : ReadingSession cmp) (session : Session cmp) : ReadingSession cmp :=
  { st with session := session }

def get (st : ReadingSession cmp) (enableRrValidation : Nat → Bool) (txn : Nat) (key : Key)
    (value : Value) (t : Transaction) : Option (ReadingSession cmp) :=
  match t.stage with
  | .running =>
      let (result, entry) := st.session.transactionRead t key value
      some { st with
        readSets := Function.update st.readSets txn
          (if enableRrValidation txn then assignSome key entry (st.readSets txn)
          else st.readSets txn)
        firstHand := Function.update st.firstHand txn
          (if writesTo key t.writes = [] then assign key (result, entry) (st.firstHand txn)
          else st.firstHand txn) }
  | _ => none

/-- The validation at the head of `Commit`. -/
def validate (st : ReadingSession cmp) (enableRrValidation : Nat → Bool) (txn : Nat)
    (t : Transaction) : Status :=
  if enableRrValidation txn then st.session.validateReadSet t (st.readSets txn) else .ok

variable (options : LSMTreeOptions) (enableRrValidation : Nat → Bool)

def commit (st : ReadingSession cmp) (txn : Nat) (order : List Key) (t : Transaction) :
    Option (ReadingSession cmp) :=
  match t.stage with
  | .running =>
      if (st.validate enableRrValidation txn t).isOk then
        (st.session.step options (.transaction (.prepareCommit txn order))).map st.setSession
      else some st
  | _ => none

def step (st : ReadingSession cmp) : ReadingAction → Option (ReadingSession cmp)
  | .session action =>
      if action.prepares then none else (st.session.step options action).map st.setSession
  | .get txn key value =>
      (st.session.manager.txns txn).bind (st.get enableRrValidation txn key value)
  | .commit txn order =>
      (st.session.manager.txns txn).bind (st.commit options enableRrValidation txn order)

/-! ## What validation is for -/

def Same (a b : ReadResult) : Prop :=
  a.status.code = b.status.code ∧ (a.status.isOk → a.value = b.value)

instance (a b : ReadResult) : Decidable (Same a b) := by unfold Same; infer_instance

/-- What `Get` gives now without the writes of the transaction. -/
def recheck (st : ReadingSession cmp) (txn : Nat) (t : Transaction) (key : Key) : ReadResult :=
  (st.session.withoutVersions txn).transactionGet t key []

def Changed (st : ReadingSession cmp) (txn : Nat) (t : Transaction) : Prop :=
  ∃ seen ∈ st.firstHand txn, ¬ Same seen.2.1 (st.recheck txn t seen.1)

instance (st : ReadingSession cmp) (txn : Nat) (t : Transaction) :
    Decidable (st.Changed txn t) := by
  unfold Changed; infer_instance

def keysRead (st : ReadingSession cmp) (txn : Nat) : List Key :=
  (st.firstHand txn).map Prod.fst ++ (st.readSets txn).map Prod.fst

/-- The chain shows the transaction something of the key. -/
def Shown (st : ReadingSession cmp) (t : Transaction) (key : Key) : Prop :=
  ∃ r ∈ st.session.manager.chain key, r.visibleTo t.view

instance (st : ReadingSession cmp) (t : Transaction) (key : Key) : Decidable (st.Shown t key) := by
  unfold Shown; infer_instance

/-- Validation of the key looks where the reads of the key looked, and they left a record. -/
structure Watched (st : ReadingSession cmp) (txn : Nat) (t : Transaction) (key : Key) : Prop where
  unwritten : writesTo key t.writes = []
  recorded : ∀ seen ∈ st.firstHand txn, seen.1 = key → seen.2.2.isSome
  shown : st.Shown t key

instance (st : ReadingSession cmp) (txn : Nat) (t : Transaction) (key : Key) :
    Decidable (st.Watched txn t key) :=
  decidable_of_iff (_ ∧ _ ∧ _) ⟨fun ⟨a, b, c⟩ => ⟨a, b, c⟩, fun ⟨a, b, c⟩ => ⟨a, b, c⟩⟩

/-- Neither the reads of the key nor its record speak of a change. -/
structure Quiet (st : ReadingSession cmp) (txn : Nat) (t : Transaction) (key : Key) : Prop where
  unchanged : ∀ seen ∈ st.firstHand txn, seen.1 = key → Same seen.2.1 (st.recheck txn t key)
  own : ∀ content ∈ (writesTo key t.writes).head?, ∀ entry ∈ st.readSets txn, entry.1 = key →
    entry.2 = { found := content.isSome, value := content.getD [] }
  absent : writesTo key t.writes = [] → ∀ entry ∈ st.readSets txn, entry.1 = key →
    entry.2.found = false ∧ ¬ st.Shown t key

instance (st : ReadingSession cmp) (txn : Nat) (t : Transaction) (key : Key) :
    Decidable (st.Quiet txn t key) :=
  decidable_of_iff (_ ∧ _ ∧ _) ⟨fun ⟨a, b, c⟩ => ⟨a, b, c⟩, fun ⟨a, b, c⟩ => ⟨a, b, c⟩⟩

end ReadingSession

/-! ## What the read set and the chains say -/

structure ReadEntry.Records (entry : ReadEntry) (result : ReadResult) : Prop where
  found : entry.found = true → result.status.code = .ok ∧ entry.value = result.value
  missing : entry.found = false → result.status.code = .notFound

def ReadEntry.Holds (entry : ReadEntry) (content : Option Value) : Prop :=
  entry.found = content.isSome ∧ ∀ v ∈ content, entry.value = v

instance (entry : ReadEntry) (content : Option Value) : Decidable (entry.Holds content) := by
  unfold ReadEntry.Holds; infer_instance

namespace Session
variable {cmp : Comparator} {st : Session cmp} {base txn : Nat} {t : Transaction} {key : Key}

def shownContent (st : Session cmp) (t : Transaction) (key : Key) : Option Value :=
  ((st.manager.chain key).find? fun r => r.visibleTo t.view).bind VersionRecord.written

theorem validateReadSet_cons (st : Session cmp) (t : Transaction) (key : Key) (entry : ReadEntry)
    (rest : List (Key × ReadEntry)) : st.validateReadSet t ((key, entry) :: rest) =
      if entry.Holds (st.shownContent t key) then st.validateReadSet t rest
      else .aborted "RR validation failed" := by
  obtain ⟨found, value⟩ := entry
  rw [validateReadSet]
  unfold shownContent Chain.getVisible Chain.report
  cases (st.manager.chain key).find? fun r => r.visibleTo t.view with
  | none => cases found <;> simp [ReadEntry.Holds, Status.isOk, Status.ok]
  | some r =>
      by_cases deletion : r.isDelete
      · cases found <;>
          simp [ReadEntry.Holds, VersionRecord.written, deletion, Status.isDeleted, Status.deleted]
      · cases found with
        | false => simp [ReadEntry.Holds, VersionRecord.written, deletion, Status.isOk, Status.ok]
        | true =>
            by_cases same : r.value = value
            · simp [ReadEntry.Holds, VersionRecord.written, deletion, Status.isOk, Status.ok, same]
            · simp [ReadEntry.Holds, VersionRecord.written, deletion, Status.isOk, Status.ok, same,
                Ne.symm same]

theorem validateReadSet_aborted {entries : List (Key × ReadEntry)} :
    st.validateReadSet t entries = .aborted "RR validation failed" ↔
      ∃ entry ∈ entries, ¬ entry.2.Holds (st.shownContent t entry.1) := by
  induction entries with
  | nil => simp [validateReadSet, Status.ok, Status.aborted]
  | cons head rest ih =>
      rw [validateReadSet_cons, List.exists_mem_cons_iff]
      split
      · rename_i holds
        rw [ih, or_iff_right (not_not.mpr holds)]
      · rename_i differs
        exact iff_of_true rfl (.inl differs)

theorem transactionRead_records {value : Value} {result : ReadResult} {entry : ReadEntry}
    (read : st.transactionRead t key value = (result, some entry)) : entry.Records result := by
  unfold transactionRead at read
  dsimp only at read
  split at read
  · cases read
    exact ⟨nofun, fun _ => rfl⟩
  split at read <;> [cases read; skip]
  split at read
  · cases read
    exact ⟨fun _ => ⟨rfl, rfl⟩, nofun⟩
  obtain ⟨rfl, recorded⟩ := Prod.mk.inj read
  split at recorded <;> [rename_i answered; cases recorded]
  obtain rfl := Option.some.inj recorded
  exact ⟨fun _ => ⟨beq_iff_eq.mp answered, rfl⟩, nofun⟩

/-! ## Versions of the reader itself -/

section Own
variable (coherent : st.manager.Coherent base) (found : st.manager.txns txn = some t)
  (unmarked : t.stage.unmarked) (own : t.ViewOf txn)
include coherent found unmarked own

theorem active_of_own {r : VersionRecord} (member : r ∈ st.manager.chain key)
    (mine : r.txnId = txn) : r.visibleTo t.view ↔ r.isActive := by
  have creator : r.txnId = t.view.myTxn := mine.trans own.1.symm
  cases state : r.state with
  | kActive =>
      simp [VersionRecord.visibleTo, ReadView.isVisible, creator, VersionRecord.isAborted,
        VersionRecord.isActive, state]
  | kCommitted =>
      exact absurd mine (coherent.not_creator found unmarked member
        (by simp [VersionRecord.isCommitted, state]))
  | kAborted =>
      simp [VersionRecord.visibleTo, ReadView.isVisible, creator, VersionRecord.isAborted,
        VersionRecord.isActive, state]

theorem find?_withoutVersions (unwritten : writesTo key t.writes = []) :
    ((st.withoutVersions txn).manager.chain key).find? (fun r => r.visibleTo t.view) =
      (st.manager.chain key).find? fun r => r.visibleTo t.view := by
  have pending := (coherent.tracked key txn).trans (outstanding_eq found unmarked key)
  rw [unwritten, Chain.pending_eq_nil] at pending
  change ((st.manager.chain key).filter fun r => r.txnId ≠ txn).find? _ = _
  rw [← List.head?_filter, ← List.head?_filter, List.filter_filter]
  refine congrArg _ (List.filter_congr fun r member => ?_)
  by_cases mine : r.txnId = txn
  · have active := active_of_own coherent found unmarked own member mine
    have idle := pending r member
    simp_all [VersionRecord.isActiveOf]
  · simp [mine]

theorem shownContent_written {content : Option Value}
    (last : (writesTo key t.writes).head? = some content) : st.shownContent t key = content := by
  rw [head_writesTo coherent found unmarked] at last
  obtain ⟨r, latest, rfl⟩ := Option.map_eq_some_iff.mp last
  obtain ⟨active, above, below, split, passed⟩ := List.find?_eq_some_iff_append.mp latest
  have order := (coherent.descending key).activeTop
  have member : r ∈ st.manager.chain key := split ▸ List.mem_append_right _ List.mem_cons_self
  simp only [VersionRecord.isActiveOf, Bool.and_eq_true, beq_iff_eq] at active
  have stops : (st.manager.chain key).find? (fun r => r.visibleTo t.view) = some r := by
    refine List.find?_eq_some_iff_append.mpr ⟨?_, above, below, split, fun newer inAbove => ?_⟩
    · exact (active_of_own coherent found unmarked own member active.1).mpr active.2
    · -- Above an active version everything is of its transaction.
      rw [split, List.pairwise_append] at order
      have mine := (order.2.2 newer inAbove r List.mem_cons_self active.2).trans active.1
      have idle := passed newer inAbove
      have inChain : newer ∈ st.manager.chain key := split ▸ List.mem_append_left _ inAbove
      have seen := active_of_own coherent found unmarked own inChain mine
      simp_all [VersionRecord.isActiveOf]
  rw [shownContent, stops]
  rfl

end Own

end Session

/-! ## What a run keeps of the reads -/

namespace ReadingSession
variable {cmp : Comparator} {options : LSMTreeOptions} {enableRrValidation : Nat → Bool}
  {st st' : ReadingSession cmp} {lsm : LSMTree cmp} {base nextSequence txn : Nat} {t : Transaction}
  {key : Key}

theorem step_cases {action : ReadingAction}
    (stepped : st.step options enableRrValidation action = some st') :
    (∃ a session, st.session.step options a = some session ∧ st' = st.setSession session) ∨
      (∃ txn key value t, st.session.manager.txns txn = some t ∧
        st.get enableRrValidation txn key value t = some st') ∨ st' = st := by
  cases action with
  | session a =>
      simp only [step] at stepped
      split at stepped <;> [cases stepped; skip]
      obtain ⟨session, moved, rfl⟩ := Option.map_eq_some_iff.mp stepped
      exact .inl ⟨a, session, moved, rfl⟩
  | get txn key value =>
      obtain ⟨t, found, read⟩ := Option.bind_eq_some_iff.mp stepped
      exact .inr (.inl ⟨txn, key, value, t, found, read⟩)
  | commit txn order =>
      obtain ⟨t, -, stepped⟩ := Option.bind_eq_some_iff.mp stepped
      unfold commit at stepped
      split at stepped <;> [skip; cases stepped]
      split at stepped
      · obtain ⟨session, moved, rfl⟩ := Option.map_eq_some_iff.mp stepped
        exact .inl ⟨_, session, moved, rfl⟩
      · exact .inr (.inr (Option.some.inj stepped).symm)

theorem get_session {value : Value} (read : st.get enableRrValidation txn key value t = some st') :
    st'.session = st.session := by
  unfold get at read
  split at read <;> [skip; cases read]
  obtain rfl := Option.some.inj read
  rfl

theorem session_of_run {guard : ReadingSession cmp → ReadingAction → Prop}
    (run : Run (step options enableRrValidation) guard (opened lsm nextSequence) st) :
    Run (Session.step options) free (.opened lsm nextSequence) st.session := by
  refine run.invariant
    (p := fun st => Run (Session.step options) free (.opened lsm nextSequence) st.session) ?_ .refl
  intro u action v _ stepped before
  rcases step_cases stepped with ⟨a, session, moved, rfl⟩ | ⟨_, _, _, t, -, read⟩ | rfl
  · exact before.tail ⟨a, trivial, moved⟩
  · rw [get_session read]
    exact before
  · exact before

structure Kept (txn : Nat) (st : ReadingSession cmp) : Prop where
  fresh : st.session.manager.nextTxn ≤ txn → st.readSets txn = [] ∧ st.firstHand txn = []
  origin : ∀ t, st.session.manager.txns txn = some t → ∀ entry ∈ st.readSets txn,
    writesTo entry.1 t.writes = [] → ∃ seen ∈ st.firstHand txn, seen.1 = entry.1
  latest : ∀ t, st.session.manager.txns txn = some t → ∀ seen ∈ st.firstHand txn,
    writesTo seen.1 t.writes = [] → ∀ record ∈ seen.2.2, record.Records seen.2.1 ∧
      ∀ entry, (seen.1, entry) ∈ st.readSets txn ↔ entry = record

theorem unwritten_step {a : SessionAction} {session : Session cmp}
    (stepped : st.session.step options a = some session) {t' : Transaction}
    (found' : session.manager.txns txn = some t') : st.session.manager.nextTxn ≤ txn ∨
      ∃ t, st.session.manager.txns txn = some t ∧
        ∀ key, writesTo key t'.writes = [] → writesTo key t.writes = [] := by
  rcases Session.writes_step stepped found' with ⟨new, -⟩ | ⟨t, found, same | grown⟩
  · exact .inl new
  · exact .inr ⟨t, found, fun key unwritten => same.1 ▸ unwritten⟩
  · obtain ⟨other, content, writes, -⟩ := grown
    refine .inr ⟨t, found, fun key unwritten => ?_⟩
    rw [writes, writesTo_cons] at unwritten
    split at unwritten
    · cases unwritten
    · exact unwritten

theorem Kept.session {a : SessionAction} {session : Session cmp} (kept : Kept txn st)
    (stepped : st.session.step options a = some session) : Kept txn (st.setSession session) where
  fresh new := kept.fresh ((Session.session_effect stepped).nextTxn.trans new)
  origin t' found' entry member unwritten := by
    rcases unwritten_step stepped found' with new | ⟨t, found, before⟩
    · rw [setSession, (kept.fresh new).1] at member
      cases member
    · exact kept.origin t found entry member (before entry.1 unwritten)
  latest t' found' seen member unwritten := by
    rcases unwritten_step stepped found' with new | ⟨t, found, before⟩
    · rw [setSession, (kept.fresh new).2] at member
      cases member
    · exact kept.latest t found seen member (before seen.1 unwritten)

theorem Kept.read (kept : Kept txn st) (allocated : txn < st.session.manager.nextTxn)
    (found : st.session.manager.txns txn = some t) {value : Value} {result : ReadResult}
    {entry : Option ReadEntry} (read : st.session.transactionRead t key value = (result, entry))
    (session : st'.session = st.session)
    (readSet : st'.readSets txn = assignSome key entry (st.readSets txn))
    (firstHand : st'.firstHand txn =
      if writesTo key t.writes = [] then assign key (result, entry) (st.firstHand txn)
      else st.firstHand txn) : Kept txn st' where
  fresh new := absurd (session ▸ new) (Nat.not_le.mpr allocated)
  origin u here other member unwritten := by
    obtain rfl : t = u := Option.some.inj (found.symm.trans (session ▸ here))
    have older (old : other ∈ st.readSets txn) : ∃ seen ∈ st'.firstHand txn, seen.1 = other.1 := by
      have seen := kept.origin t found other old unwritten
      rw [firstHand]
      split
      · exact exists_mem_assign seen
      · exact seen
    rw [readSet] at member
    cases entry with
    | none => exact older member
    | some record =>
        rcases mem_assign.mp member with rfl | ⟨old, -⟩
        · rw [firstHand, if_pos unwritten]
          exact ⟨_, mem_assign_self.mpr rfl, rfl⟩
        · exact older old
  latest u here seen member unwritten record recorded := by
    obtain rfl : t = u := Option.some.inj (found.symm.trans (session ▸ here))
    have older (old : seen ∈ st.firstHand txn) (different : seen.1 ≠ key) :
        record.Records seen.2.1 ∧ ∀ other, (seen.1, other) ∈ st'.readSets txn ↔ other = record := by
      obtain ⟨records, unique⟩ := kept.latest t found seen old unwritten record recorded
      refine ⟨records, fun other => ?_⟩
      rw [readSet]
      cases entry with
      | none => exact unique other
      | some _ => exact (mem_assign_of_ne different).trans (unique other)
    rw [firstHand] at member
    split at member
    · rcases mem_assign.mp member with rfl | ⟨old, different⟩
      · obtain rfl : entry = some record := recorded
        refine ⟨Session.transactionRead_records read, fun other => ?_⟩
        rw [readSet]
        exact mem_assign_self
      · exact older old different
    · rename_i written
      refine older member ?_
      rintro rfl
      exact written unwritten

theorem Kept.get (kept : Kept txn st) (enabled : enableRrValidation txn)
    (coherent : st.session.manager.Coherent base) {other : Nat} {value : Value}
    (found : st.session.manager.txns other = some t)
    (read : st.get enableRrValidation other key value t = some st') : Kept txn st' := by
  unfold ReadingSession.get at read
  split at read <;> [skip; cases read]
  rcases shape : st.session.transactionRead t key value with ⟨result, entry⟩
  simp only [shape] at read
  obtain rfl := Option.some.inj read
  by_cases same : txn = other
  · subst same
    refine kept.read (coherent.allocated txn t found).2 found shape rfl ?_ (Function.update_self ..)
    exact (Function.update_self ..).trans (if_pos enabled)
  · constructor
    · exact fun new => by
        simpa only [Function.update_of_ne same] using kept.fresh new
    · exact fun u here => by
        simpa only [Function.update_of_ne same] using kept.origin u here
    · exact fun u here => by
        simpa only [Function.update_of_ne same] using kept.latest u here

theorem kept_of_run {guard : ReadingSession cmp → ReadingAction → Prop}
    (enabled : enableRrValidation txn)
    (run : Run (step options enableRrValidation) guard (opened lsm nextSequence) st) :
    Kept txn st := by
  refine (run.invariant
    (p := fun st => st.session.manager.Coherent nextSequence ∧ Kept txn st) ?_
    ⟨.initial nextSequence, by constructor <;> simp [opened, Session.opened]⟩).2
  rintro u action v - stepped ⟨coherent, kept⟩
  rcases step_cases stepped with ⟨a, session, moved, rfl⟩ | ⟨_, _, _, t, found, read⟩ | rfl
  · exact ⟨Session.coherent_step moved coherent, kept.session moved⟩
  · exact ⟨get_session read ▸ coherent, kept.get enabled coherent found read⟩
  · exact ⟨coherent, kept⟩

/-! ## When validation is right -/

theorem same_chainFirst {entry : ReadEntry} {result missing : ReadResult} {message : String}
    {value : Value} (records : entry.Records result) (content : Option Value) :
    Same result (.chainFirst ⟨.notFound message, value⟩ missing (some content)) ↔
      entry.Holds content := by
  cases recorded : entry.found with
  | true =>
      obtain ⟨code, same⟩ := records.found recorded
      cases content <;>
        simp [Same, ReadEntry.Holds, ReadResult.chainFirst, recorded, code, same, Status.isOk,
          Status.ok, Status.notFound]
  | false =>
      have code := records.missing recorded
      cases content <;>
        simp [Same, ReadEntry.Holds, ReadResult.chainFirst, recorded, code, Status.isOk,
          Status.ok, Status.notFound]

section Verdict
variable (coherent : st.session.manager.Coherent base)
  (found : st.session.manager.txns txn = some t) (unmarked : t.stage.unmarked)
  (own : t.ViewOf txn)
include coherent found unmarked own

/-- Of an unwritten key whose chain shows something, `Get` tells what the chain shows. -/
theorem same_recheck (unwritten : writesTo key t.writes = []) (shown : st.Shown t key)
    {entry : ReadEntry} {result : ReadResult} (records : entry.Records result) :
    Same result (st.recheck txn t key) ↔ entry.Holds (st.session.shownContent t key) := by
  obtain ⟨r, member, visible⟩ := shown
  obtain ⟨stop, stops⟩ := Option.isSome_iff_exists.mp
    (List.find?_isSome.mpr ⟨r, member, visible⟩)
  rw [recheck, Session.transactionGet_eq,
    Session.find?_withoutVersions coherent found unmarked own unwritten, stops,
    Session.shownContent, stops]
  exact same_chainFirst records stop.written

theorem Watched.verdict (watched : st.Watched txn t key) (kept : Kept txn st) :
    (∃ entry, (key, entry) ∈ st.readSets txn ∧ ¬ entry.Holds (st.session.shownContent t key)) ↔
      ∃ seen, (key, seen) ∈ st.firstHand txn ∧ ¬ Same seen.1 (st.recheck txn t key) := by
  have unwritten := watched.unwritten
  have recorded {seen : ReadResult × Option ReadEntry} (member : (key, seen) ∈ st.firstHand txn) :
      ∃ record, seen.2 = some record ∧ record.Records seen.1 ∧
        ∀ entry, (key, entry) ∈ st.readSets txn ↔ entry = record := by
    obtain ⟨record, shape⟩ := Option.isSome_iff_exists.mp (watched.recorded _ member rfl)
    exact ⟨record, shape, kept.latest t found _ member unwritten record shape⟩
  have same {entry : ReadEntry} {result : ReadResult} (records : entry.Records result) :=
    same_recheck coherent found unmarked own unwritten watched.shown records
  constructor
  · rintro ⟨entry, member, differs⟩
    obtain ⟨⟨_, seen⟩, inFirst, rfl⟩ := kept.origin t found _ member unwritten
    obtain ⟨record, -, records, unique⟩ := recorded inFirst
    obtain rfl := (unique entry).mp member
    exact ⟨seen, inFirst, mt (same records).mp differs⟩
  · rintro ⟨seen, member, differs⟩
    obtain ⟨record, -, records, unique⟩ := recorded member
    exact ⟨record, (unique record).mpr rfl, mt (same records).mpr differs⟩

theorem Quiet.holds (quiet : st.Quiet txn t key) {entry : ReadEntry}
    (member : (key, entry) ∈ st.readSets txn) :
    entry.Holds (st.session.shownContent t key) := by
  cases last : (writesTo key t.writes).head? with
  | some content =>
      have same : entry = { found := content.isSome, value := content.getD [] } :=
        quiet.own content last _ member rfl
      rw [Session.shownContent_written coherent found unmarked own last, same]
      refine ⟨rfl, fun v some => ?_⟩
      rw [Option.mem_def.mp some]
      rfl
  | none =>
      obtain ⟨missing, hidden⟩ := quiet.absent (List.head?_eq_none_iff.mp last) _ member rfl
      have nothing : st.session.shownContent t key = none := by
        rw [Session.shownContent, List.find?_eq_none.mpr fun r inChain visible =>
          hidden ⟨r, inChain, visible⟩]
        rfl
      rw [nothing]
      exact ⟨missing, nofun⟩

end Verdict

/-- In every run: when each key that a transaction has read is watched or quiet, the commit returns
the validation abort exactly when a read of a key before its first write would be answered otherwise
now, the writes of the transaction left aside. -/
theorem validates {guard : ReadingSession cmp → ReadingAction → Prop}
    (run : Run (step options enableRrValidation) guard (opened lsm nextSequence) st)
    (found : st.session.manager.txns txn = some t) (running : t.stage = .running)
    (enabled : enableRrValidation txn)
    (judged : ∀ key ∈ st.keysRead txn, st.Watched txn t key ∨ st.Quiet txn t key) :
    st.validate enableRrValidation txn t = .aborted "RR validation failed" ↔
      st.Changed txn t := by
  have session := session_of_run run
  have coherent := Session.coherent_of_run session
  have own := Session.viewOf_of_run session txn t found
  have kept := kept_of_run enabled run
  have unmarked : t.stage.unmarked := by rw [running]; rfl
  rw [validate, if_pos enabled, Session.validateReadSet_aborted]
  constructor
  · rintro ⟨⟨key, entry⟩, member, differs⟩
    have read : key ∈ st.keysRead txn :=
      List.mem_append_right _ (List.mem_map.mpr ⟨_, member, rfl⟩)
    rcases judged key read with watched | quiet
    · obtain ⟨seen, inFirst, changed⟩ :=
        (watched.verdict coherent found unmarked own kept).mp ⟨entry, member, differs⟩
      exact ⟨(key, seen), inFirst, changed⟩
    · exact absurd (quiet.holds coherent found unmarked own member) differs
  · rintro ⟨⟨key, seen⟩, member, changed⟩
    have read : key ∈ st.keysRead txn :=
      List.mem_append_left _ (List.mem_map.mpr ⟨_, member, rfl⟩)
    rcases judged key read with watched | quiet
    · obtain ⟨entry, inSet, differs⟩ :=
        (watched.verdict coherent found unmarked own kept).mpr ⟨seen, member, changed⟩
      exact ⟨(key, entry), inSet, differs⟩
    · exact absurd (quiet.unchanged _ member rfl) changed

def taking : SessionAction → ReadingAction
  | .transaction (.prepareCommit txn order) => .commit txn order
  | action => .session action

def overwriteAfterRead : List ReadingAction :=
  (Session.commitCall 1 [([107], some [1])] ++ Session.beginCall 2 .kReadCommitted).map taking ++
    [.get 2 [107] [], .get 2 [108] []] ++
      (Session.commitCall 3 [([107], some [2])]).map taking

theorem validates_overwriteAfterRead :
    ∃ (st : ReadingSession bytewiseComparator) (t : Transaction),
      execute (step {} fun _ => true) (opened (.new {}) 1) overwriteAfterRead = some st ∧
        st.session.manager.txns 2 = some t ∧
          st.validate (fun _ => true) 2 t = .aborted "RR validation failed" := by
  have holds : (execute (step {} fun _ => true)
      (opened (.new {}) 1 : ReadingSession bytewiseComparator) overwriteAfterRead).any fun st =>
        (st.session.manager.txns 2).any fun t => t.stage = .running ∧
          (∀ key ∈ st.keysRead 2, st.Watched 2 t key ∨ st.Quiet 2 t key) ∧ st.Changed 2 t := by
    decide +kernel
  obtain ⟨st, executed, holds⟩ := Option.any_eq_true _ _ |>.mp holds
  obtain ⟨t, found, holds⟩ := Option.any_eq_true _ _ |>.mp holds
  obtain ⟨running, judged, changed⟩ := of_decide_eq_true holds
  have run := execute_run _ (allowed_free _ _ _) executed
  exact ⟨st, t, executed, found, (validates run found running rfl judged).mpr changed⟩

def readFromTree : List ReadingAction :=
  (Session.beginCall 1 .kRepeatableRead).map taking ++ [.get 1 [107] []]

theorem validates_fails_readFromTree :
    ¬ ∀ (lsm : LSMTree bytewiseComparator) (nextSequence txn : Nat)
      (st : ReadingSession bytewiseComparator) (t : Transaction),
        Run (step {} fun _ => true) free (opened lsm nextSequence) st →
          st.session.manager.txns txn = some t → t.stage = .running →
            (st.validate (fun _ => true) txn t = .aborted "RR validation failed" ↔
              st.Changed txn t) := by
  intro always
  have wrong : (execute (step {} fun _ => true)
      (opened ((LSMTree.new {}).put {} [107] [1] 1).2 2 : ReadingSession bytewiseComparator)
      readFromTree).any fun st => (st.session.manager.txns 1).any fun t =>
        t.stage = .running ∧ st.validate (fun _ => true) 1 t = .aborted "RR validation failed" ∧
          ¬ st.Changed 1 t := by decide +kernel
  obtain ⟨st, executed, wrong⟩ := Option.any_eq_true _ _ |>.mp wrong
  obtain ⟨t, found, wrong⟩ := Option.any_eq_true _ _ |>.mp wrong
  obtain ⟨running, aborted, unchanged⟩ := of_decide_eq_true wrong
  have run := execute_run _ (allowed_free _ _ _) executed
  exact unchanged ((always _ _ 1 st t run found running).mp aborted)

end ReadingSession
end Lrdb
