import Lrdb.Base.Serial
import Lrdb.Db.LockedReads

namespace Lrdb
open Versions LSMTree Runs TxManager AtomicMaps Session

def ReadResult.told (r : ReadResult) : Option (Option Value) :=
  if r.status.isOk then some (some r.value)
  else if r.status.isNotFound then some none
  else none

theorem ReadResult.Answers.told {r : ReadResult} {content : Option Value} (answers : r.Answers content) :
    r.told = some content := by
  cases content with
  | none => simp [ReadResult.told, answers.isNotFound]
  | some value => simp [ReadResult.told, answers.isOk]

structure ObservedSession (cmp : Comparator) where
  session : Session cmp
  reads : List (Observation Nat Key Value) := []

inductive ObservedAction where
  | session (action : SessionAction)
  /-- The read at the end of `GetForUpdate`, or any later one of the key. -/
  | get (txn : Nat) (key : Key)

namespace ObservedSession
variable {cmp : Comparator}

instance (entry : LockEntry) (txn : Nat) : Decidable (entry.HeldBy txn) :=
  inferInstanceAs (Decidable (∃ h ∈ entry.holders, h.txnId = txn))

def get (o : ObservedSession cmp) (txn : Nat) (key : Key) : Option (ObservedSession cmp) := do
  let t ← o.session.manager.txns txn
  if t.stage = .running ∧ (o.session.manager.locks key).HeldBy txn then
    match (o.session.transactionGet t key []).told with
    | some content =>
        if writesTo key t.writes = [] then some { o with reads := ⟨txn, key, content⟩ :: o.reads } else some o
    | none => some o
  else none

def step (options : LSMTreeOptions) (o : ObservedSession cmp) : ObservedAction → Option (ObservedSession cmp)
  | .session action => (o.session.step options action).map fun session => { o with session := session }
  | .get txn key => o.get txn key

/-- The steps of the session are careful, and who reads under a lock reads committed data. -/
def Locking (options : LSMTreeOptions) (o : ObservedSession cmp) : ObservedAction → Prop
  | .session action => o.session.Careful options action
  | .get txn _ => ∀ t ∈ o.session.manager.txns txn, t.isolation = .kReadCommitted

variable {options : LSMTreeOptions} {o o' : ObservedSession cmp} {lsm : LSMTree cmp} {base : Nat}

def history (o : ObservedSession cmp) : List (Nat × List (Key × Option Value)) :=
  o.session.manager.commits.map fun c => (c.txn, c.writes)

theorem map_history (o : ObservedSession cmp) :
    after (o.history.map Prod.snd) (initialMap lsm) = map lsm o.session := by
  rw [history, List.map_map]
  rfl

theorem session_of_run (run : Run (step options) (Locking options) o o') :
    Run (Session.step options) (Careful options) o.session o'.session := by
  induction run with
  | refl => exact .refl
  | tail _ last ih =>
      obtain ⟨action, locking, stepped⟩ := last
      cases action with
      | session action =>
          obtain ⟨session, moved, rfl⟩ := Option.map_eq_some_iff.mp stepped
          exact ih.tail ⟨action, locking, moved⟩
      | get txn key =>
          obtain ⟨t, -, stepped⟩ := Option.bind_eq_some_iff.mp stepped
          split at stepped <;> [skip; cases stepped]
          split at stepped <;> [split at stepped; skip] <;> obtain rfl := Option.some.inj stepped <;> exact ih

structure InOrder (lsm : LSMTree cmp) (o : ObservedSession cmp) : Prop where
  allocated : ∀ r ∈ o.reads, r.txn < o.session.manager.nextTxn
  current : ∀ r ∈ o.reads, ∀ t, o.session.manager.txns r.txn = some t → t.stage.unmarked →
    (o.session.manager.locks r.key).HeldBy r.txn ∧ map lsm o.session r.key = r.content
  past : ObservesSerially o.reads (initialMap lsm) o.history

theorem InOrder.session (order : InOrder lsm o) (coherent : o.session.manager.Coherent base)
    {action : SessionAction} {session : Session cmp}
    (stepped : o.session.step options action = some session) :
    InOrder lsm { o with session := session } := by
  have run : Run (Session.step options) free o.session session := .single ⟨action, trivial, stepped⟩
  have coherent' := coherent_step stepped coherent
  have effect := session_effect stepped
  refine ⟨fun r member => ?_, fun r member u second unmarked => ?_, ?_⟩
  · exact (order.allocated r member).trans_le effect.nextTxn
  · have allocated := order.allocated r member
    obtain ⟨t, found, before⟩ := unmarked_of_run run allocated second unmarked
    obtain ⟨held, current⟩ := order.current r member t found before
    obtain ⟨still, same⟩ := locked_of_run coherent run held allocated second unmarked
    refine ⟨still, ?_⟩
    rw [map_eq coherent', lastCommitted, same, ← lastCommitted, ← map_eq coherent]
    exact current
  · rcases effect.commits with same | ⟨txn, t, sequence, found, stage, more⟩
    · rw [history, same]
      exact order.past
    · rw [history, more]
      refine ⟨fun r member here => ?_, order.past⟩
      subst here
      have unmarked : t.stage.unmarked := by rw [stage]; rfl
      have current := (order.current r member t found unmarked).2
      rwa [← map_history] at current

theorem InOrder.get (order : InOrder lsm o) {nextSequence : Nat} (start : OrderedStart lsm nextSequence)
    (empty : ∀ mem ∈ lsm.memTables, mem.entries = [])
    (run : Run (Session.step options) (Careful options) (opened lsm nextSequence) o.session)
    {txn : Nat} {key : Key} (committed : ∀ t ∈ o.session.manager.txns txn, t.isolation = .kReadCommitted)
    (stepped : o.get txn key = some o') : InOrder lsm o' := by
  have coherent := (readable_of_run start run).coherent
  obtain ⟨t, found, stepped⟩ := Option.bind_eq_some_iff.mp stepped
  split at stepped <;> [rename_i ready; cases stepped]
  obtain ⟨running, held⟩ := ready
  have unmarked : t.stage.unmarked := by rw [running]; rfl
  split at stepped <;> [rename_i content told; exact Option.some.inj stepped ▸ order]
  split at stepped <;> [rename_i unwritten; exact Option.some.inj stepped ▸ order]
  obtain rfl := Option.some.inj stepped
  have reads := transactionGet_latest start empty run found unmarked (committed t found) unwritten []
  have same : map lsm o.session key = content := Option.some.inj (reads.told.symm.trans told)
  refine ⟨?_, ?_, order.past.observe fun h member => ?_⟩
  · exact List.forall_mem_cons.mpr ⟨(coherent.allocated txn t found).2, order.allocated⟩
  · exact List.forall_mem_cons.mpr ⟨fun _ _ _ => ⟨held, same⟩, order.current⟩
  · rintro rfl
    obtain ⟨c, inCommits, rfl⟩ := List.mem_map.mp member
    obtain ⟨-, -, u, here, marked⟩ := coherent.recorded c inCommits
    obtain rfl := Option.some.inj (found.symm.trans here)
    rw [unmarked] at marked
    cases marked

theorem inOrder_of_run {nextSequence : Nat} (start : OrderedStart lsm nextSequence)
    (empty : ∀ mem ∈ lsm.memTables, mem.entries = [])
    (run : Run (step options) (Locking options) ⟨opened lsm nextSequence, []⟩ o) : InOrder lsm o := by
  induction run with
  | refl => exact ⟨by simp, by simp, observesSerially_nil ..⟩
  | tail earlier last ih =>
      obtain ⟨action, locking, stepped⟩ := last
      have before := session_of_run earlier
      cases action with
      | session action =>
          obtain ⟨session, moved, rfl⟩ := Option.map_eq_some_iff.mp stepped
          exact ih.session (readable_of_run start before).coherent moved
      | get txn key => exact ih.get start empty before locking stepped

/-! ## Serial execution -/

/-- In every careful run in which each committed transaction writes what follows from its reads under
locks, the map is the one after a serial execution of the transactions in the order of their commits,
each reading what those before it have left. A latest read of any key answers from it. -/
theorem serializable {nextSequence : Nat} (start : OrderedStart lsm nextSequence)
    (empty : ∀ mem ∈ lsm.memTables, mem.entries = [])
    (run : Run (step options) (Locking options) ⟨opened lsm nextSequence, []⟩ o)
    (bodies : Nat → (Key → Option Value) → List (Key × Option Value))
    (follows : ∀ c ∈ o.session.manager.commits, Follows o.reads c.txn (bodies c.txn) c.writes) :
    ObservesSerially o.reads (initialMap lsm) o.history ∧
      map lsm o.session = serial (o.session.manager.commits.map fun c => bodies c.txn) (initialMap lsm) ∧
        ∀ key value, (o.session.get key value).Answers
          (serial (o.session.manager.commits.map fun c => bodies c.txn) (initialMap lsm) key) := by
  have order := inOrder_of_run start empty run
  have before := session_of_run run
  have same : map lsm o.session =
      serial (o.session.manager.commits.map fun c => bodies c.txn) (initialMap lsm) := by
    rw [← map_history, after_eq_serial order.past, history, List.map_map]
    · rfl
    · intro h member
      obtain ⟨c, inCommits, rfl⟩ := List.mem_map.mp member
      exact follows c inCommits
  refine ⟨order.past, same, fun key value => ?_⟩
  have readable := readable_of_run start before
  rw [← same]
  exact readable.toFaithful.get_answers_map start.toStart (memTablesOwn_of_run start.positive empty before)
    (fun _ => ⟨readable.searchable, readable.ordered.orderedAt key⟩) value

instance (o : ObservedSession cmp) : (action : ObservedAction) → Decidable (Locking options o action)
  | .session action => inferInstanceAs (Decidable (o.session.Careful options action))
  | .get txn _ =>
      inferInstanceAs (Decidable (∀ t ∈ o.session.manager.txns txn, t.isolation = .kReadCommitted))

def increment (map : Key → Option Value) : List (Key × Option Value) :=
  [([107], some [((map [107]).getD [0]).headD 0 + 1])]

def replaceCall (txn : Nat) (content : Value) : List ObservedAction :=
  .session (.transaction (.keepLock txn)) :: .get txn [107] ::
    (writeCall txn [107] (some content)).map .session

def finishCall (txn : Nat) : List SessionAction :=
  [.transaction (.prepareCommit txn [[107]]), .log txn none, .transaction (.synced txn true),
    .transaction (.markCommitted txn), .transaction (.onCommitted txn), .transaction (.releaseAll txn)]

def lockFirst : List SessionAction :=
  beginCall 1 .kReadCommitted ++ beginCall 2 .kReadCommitted ++ [.transaction (.acquire 1 [107])]

def handOver : List SessionAction :=
  .transaction (.acquire 2 [107]) :: finishCall 1 ++ [.transaction (.wake 2)]

def incrementTwice : List ObservedAction :=
  lockFirst.map .session ++ replaceCall 1 [1] ++ handOver.map .session ++ replaceCall 2 [2] ++
    (finishCall 2).map .session

theorem serializable_incrementTwice : ∃ o : ObservedSession bytewiseComparator,
    execute (step {}) ⟨opened (.new {}) 1, []⟩ incrementTwice = some o ∧
      ObservesSerially o.reads (initialMap (.new {} : LSMTree bytewiseComparator)) o.history ∧
        map (.new {}) o.session =
            serial [increment, increment] (initialMap (.new {} : LSMTree bytewiseComparator)) ∧
          ∀ key value, (o.session.get key value).Answers
            (serial [increment, increment] (initialMap (.new {} : LSMTree bytewiseComparator)) key) := by
  have holds : (execute (step {}) (⟨opened (.new {}) 1, []⟩ : ObservedSession bytewiseComparator)
      incrementTwice).any fun o =>
        o.reads = [⟨2, [107], some [1]⟩, ⟨1, [107], none⟩] ∧ o.session.manager.commits =
          [⟨2, 2, [([107], some [2])]⟩, ⟨1, 1, [([107], some [1])]⟩] := by
    decide +kernel
  obtain ⟨o, executed, holds⟩ := Option.any_eq_true _ _ |>.mp holds
  obtain ⟨reads, commits⟩ := of_decide_eq_true holds
  have allowed : Allowed (step {}) (Locking {})
      (⟨opened (.new {}) 1, []⟩ : ObservedSession bytewiseComparator) incrementTwice := by
    decide +kernel
  have follows : ∀ c ∈ o.session.manager.commits, Follows o.reads c.txn increment c.writes := by
    rw [commits, reads]
    refine List.forall_mem_cons.mpr ⟨fun map agrees => ?_, List.forall_mem_singleton.mpr fun map agrees => ?_⟩
    · rw [increment, agrees ⟨2, [107], some [1]⟩ (by simp) rfl]
      rfl
    · rw [increment, agrees ⟨1, [107], none⟩ (by simp) rfl]
      rfl
  have serial := serializable (orderedStart_new Nat.one_pos) (by simp [LSMTree.new, memTables])
    (execute_run _ allowed executed) (fun _ => increment) follows
  rw [commits] at serial
  exact ⟨o, executed, serial⟩

end ObservedSession
end Lrdb
