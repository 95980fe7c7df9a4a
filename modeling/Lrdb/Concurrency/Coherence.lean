import Mathlib.Data.List.Nodup
import Lrdb.Concurrency.TxManager

namespace Lrdb

theorem Stage.unmarked_of_sequence {stage : Stage} {sequence : Nat}
    (prepared : stage.sequence = some sequence) : stage.unmarked := by
  cases stage <;> first | rfl | cases prepared

theorem writesTo_cons (key other : Key) (content : Option Value)
    (writes : List (Key × Option Value)) : writesTo key ((other, content) :: writes) =
      if other = key then content :: writesTo key writes else writesTo key writes := by
  by_cases same : other = key <;> simp [writesTo, same]

def Transaction.Needs (t : Transaction) (key : Key) : Prop :=
  writesTo key t.writes ≠ [] ∨ t.stage = .granted key

namespace TxManager
open Chain

def history (m : TxManager) (key : Key) : List (Nat × Option Value) :=
  m.commits.flatMap fun c => (writesTo key c.writes).map fun content => (c.sequence, content)

def outstanding (m : TxManager) (txn : Nat) (key : Key) : List (Option Value) :=
  match m.txns txn with
  | some t => if t.stage.unmarked then writesTo key t.writes else []
  | none => []

def Closed (m : TxManager) (f : FlushCall) : Prop :=
  ∀ item ∈ f.items, item.2.isCommitted ∧ item.2.stamp ∈ m.history item.1 ∧
    ∀ r ∈ m.chain item.1, r.isCommitted → r.commitSnapshot ≤ item.2.commitSnapshot →
      r.flushed ∨ ∃ other ∈ f.items, other.1 = item.1 ∧ other.2.stamp = r.stamp

structure Coherent (base : Nat) (m : TxManager) : Prop where
  counted : 0 < m.nextTxn
  advanced : base ≤ m.nextSequence
  allocated : ∀ txn t, m.txns txn = some t → 0 < txn ∧ txn < m.nextTxn
  exclusive : ∀ key, (m.locks key).Exclusive
  locked : ∀ txn t, m.txns txn = some t → t.stage.unmarked → ∀ key, t.Needs key →
    (m.locks key).HeldBy txn
  tracked : ∀ key txn, pending (m.chain key) txn = m.outstanding txn key
  unflushed : ∀ key, ∀ r ∈ m.chain key, r.isActive → r.flushed = false
  descending : ∀ key, Descending (m.chain key)
  flushedBelow : ∀ key, FlushedBelow (m.chain key)
  kept : ∀ key, committed (m.chain key) <+: m.history key
  latest : ∀ key, committed (m.chain key) = [] → m.history key = []
  creators : ∀ key, ∀ r ∈ m.chain key, r.isCommitted →
    ∃ c ∈ m.commits, c.txn = r.txnId ∧ c.sequence = r.commitSnapshot
  prepared : ∀ txn t sequence, m.txns txn = some t → t.stage.sequence = some sequence →
    base ≤ sequence ∧ sequence < m.nextSequence ∧ (∀ c ∈ m.commits, c.sequence ≠ sequence) ∧
      ∀ key, writesTo key t.writes ≠ [] → ∀ w ∈ m.history key, w.1 < sequence
  distinct : ∀ txn other t u sequence, m.txns txn = some t → m.txns other = some u →
    t.stage.sequence = some sequence → u.stage.sequence = some sequence → txn = other
  recorded : ∀ c ∈ m.commits, base ≤ c.sequence ∧ c.sequence < m.nextSequence ∧
    ∃ t, m.txns c.txn = some t ∧ t.stage.unmarked = false
  sequences : m.commits.Pairwise fun later earlier => later.sequence ≠ earlier.sequence
  ascending : ∀ key, (m.history key).Pairwise fun newer older => older.1 ≤ newer.1
  picked : ∀ call f, m.flushes call = some f → m.Closed f

theorem mem_history {m : TxManager} {key : Key} {w : Nat × Option Value} :
    w ∈ m.history key ↔ ∃ c ∈ m.commits, c.sequence = w.1 ∧ w.2 ∈ writesTo key c.writes := by
  obtain ⟨sequence, content⟩ := w
  simp only [history, List.mem_flatMap, List.mem_map, Prod.mk.injEq]
  constructor
  · rintro ⟨c, member, _, written, rfl, rfl⟩
    exact ⟨c, member, rfl, written⟩
  · rintro ⟨c, member, rfl, written⟩
    exact ⟨c, member, content, written, rfl, rfl⟩

@[simp] theorem txns_setTxn_self (m : TxManager) (txn : Nat) (t : Transaction) :
    (m.setTxn txn t).txns txn = some t := Function.update_self ..

theorem txns_setTxn_of_ne (m : TxManager) {txn other : Nat} (different : other ≠ txn)
    (t : Transaction) : (m.setTxn txn t).txns other = m.txns other :=
  Function.update_of_ne different ..

theorem txns_setTxn {m : TxManager} {txn other : Nat} {t u : Transaction}
    (found : (m.setTxn txn t).txns other = some u) :
    other = txn ∧ u = t ∨ other ≠ txn ∧ m.txns other = some u := by
  by_cases same : other = txn
  · subst same
    rw [txns_setTxn_self] at found
    exact .inl ⟨rfl, (Option.some.inj found).symm⟩
  · rw [txns_setTxn_of_ne m same] at found
    exact .inr ⟨same, found⟩

theorem flushes_setFlush {m : TxManager} {call other : Nat} {f : Option FlushCall} {g : FlushCall}
    (found : (m.setFlush call f).flushes other = some g) :
    other = call ∧ f = some g ∨ m.flushes other = some g := by
  unfold setFlush at found
  dsimp only at found
  by_cases same : other = call
  · rw [same, Function.update_self] at found
    exact .inl ⟨same, found⟩
  · rw [Function.update_of_ne same] at found
    exact .inr found

theorem outstanding_setTxn_self (m : TxManager) (txn : Nat) (t : Transaction) (key : Key) :
    (m.setTxn txn t).outstanding txn key =
      if t.stage.unmarked then writesTo key t.writes else [] := by
  simp [outstanding, setTxn]

theorem outstanding_setTxn_other (m : TxManager) {txn other : Nat} (different : other ≠ txn)
    (t : Transaction) (key : Key) :
    (m.setTxn txn t).outstanding other key = m.outstanding other key := by
  simp [outstanding, setTxn, Function.update_of_ne different]

theorem outstanding_eq {m : TxManager} {txn : Nat} {t : Transaction} (found : m.txns txn = some t)
    (unmarked : t.stage.unmarked) (key : Key) : m.outstanding txn key = writesTo key t.writes := by
  simp [outstanding, found, unmarked]

section Append
variable {m : TxManager} {key : Key} {r : VersionRecord}

theorem forall_chain_append {p : Key → Chain → Prop} (same : p key (r :: m.chain key))
    (rest : ∀ other, p other (m.chain other)) (other : Key) :
    p other ((m.versions.append key r).chain other) := by
  by_cases equal : other = key
  · rw [equal, show (m.versions.append key r).chain key = _ from Function.update_self ..]
    exact same
  · rw [show (m.versions.append key r).chain other = _ from Function.update_of_ne equal ..]
    exact rest other

theorem mem_chain_append (active : r.isActive) (other : Key) :
    ∀ a ∈ (m.versions.append key r).chain other, a.isCommitted → a ∈ m.chain other := by
  refine forall_chain_append (p := fun other c => ∀ a ∈ c, a.isCommitted → a ∈ m.chain other) ?_
    (fun _ _ member _ => member) other
  intro a member isCommitted
  rcases List.mem_cons.mp member with rfl | member
  · exact absurd isCommitted (not_isCommitted_of_isActive active)
  · exact member

theorem committed_chain_append (active : r.isActive) (other : Key) :
    committed ((m.versions.append key r).chain other) = committed (m.chain other) :=
  forall_chain_append (p := fun other c => committed c = committed (m.chain other)) (committed_append active)
    (fun _ => rfl) other

theorem pending_chain_append (active : r.isActive) (place : Key) (other : Nat) :
    pending ((m.versions.append key r).chain place) other =
      if key = place ∧ other = r.txnId then r.written :: pending (m.chain place) other
      else pending (m.chain place) other := by
  by_cases equal : key = place
  · subst equal
    rw [show (m.versions.append key r).chain key = r :: m.chain key from Function.update_self ..,
      pending_append other active]
    simp [eq_comm]
  · rw [show (m.versions.append key r).chain place = m.chain place from
      Function.update_of_ne (Ne.symm equal) .., if_neg fun both => equal both.1]

end Append

namespace Coherent
variable {base : Nat} {m : TxManager} {txn : Nat} {t : Transaction}

theorem committed_mem (coherent : Coherent base m) {key : Key} {r : VersionRecord}
    (member : r ∈ m.chain key) (isCommitted : r.isCommitted) : r.stamp ∈ m.history key :=
  (coherent.kept key).subset (mem_committed.mpr ⟨r, member, isCommitted, rfl⟩)

theorem active_holder (coherent : Coherent base m) {key : Key} {r : VersionRecord}
    (member : r ∈ m.chain key) (active : r.isActive) : (m.locks key).HeldBy r.txnId := by
  have pending : pending (m.chain key) r.txnId ≠ [] := by
    intro empty
    exact pending_eq_nil.mp empty r member (by simp [VersionRecord.isActiveOf, active])
  rw [coherent.tracked] at pending
  unfold outstanding at pending
  split at pending
  · rename_i u found
    split at pending
    · rename_i unmarked
      exact coherent.locked _ u found unmarked key (.inl pending)
    · exact absurd rfl pending
  · exact absurd rfl pending

theorem history_lt (coherent : Coherent base m) {key : Key} {w : Nat × Option Value}
    (member : w ∈ m.history key) : base ≤ w.1 ∧ w.1 < m.nextSequence := by
  obtain ⟨c, member, same, -⟩ := mem_history.mp member
  have recorded := coherent.recorded c member
  exact same ▸ ⟨recorded.1, recorded.2.1⟩

theorem commit_unique (coherent : Coherent base m) {c d : Commit} (hc : c ∈ m.commits)
    (hd : d ∈ m.commits) (same : c.sequence = d.sequence) : c = d := by
  have distinct : (m.commits.map Commit.sequence).Nodup :=
    List.pairwise_map.mpr coherent.sequences
  exact List.inj_on_of_nodup_map distinct hc hd same

theorem not_creator (coherent : Coherent base m) (found : m.txns txn = some t)
    (unmarked : t.stage.unmarked) {key : Key} {r : VersionRecord} (member : r ∈ m.chain key)
    (isCommitted : r.isCommitted) : r.txnId ≠ txn := by
  rintro rfl
  obtain ⟨c, commits, creator, -⟩ := coherent.creators key r member isCommitted
  obtain ⟨u, found', marked⟩ := (coherent.recorded c commits).2.2
  rw [creator, found] at found'
  obtain rfl := Option.some.inj found'
  rw [unmarked] at marked
  cases marked

theorem initial (nextSequence : Nat) : Coherent nextSequence { nextSequence := nextSequence } where
  counted := Nat.one_pos
  advanced := le_rfl
  allocated := by simp
  exclusive := by simp [LockEntry.Exclusive, LockEntry.HeldBy]
  locked := by simp
  tracked := by simp [outstanding, TxManager.chain, VersionChainManager.new, pending]
  unflushed := by simp [TxManager.chain, VersionChainManager.new]
  descending := fun _ => ⟨.nil, .nil⟩
  flushedBelow := fun _ _ member => by cases member
  kept := fun _ => List.nil_prefix
  latest := fun _ _ => rfl
  creators := by simp [TxManager.chain, VersionChainManager.new]
  prepared := by simp
  distinct := by simp
  recorded := by simp
  sequences := .nil
  ascending := fun _ => .nil
  picked := by simp

theorem active_positive (coherent : Coherent base m) {key : Key} {r : VersionRecord}
    (member : r ∈ m.chain key) (active : r.isActive) : r.txnId ≠ 0 := by
  have pending : pending (m.chain key) r.txnId ≠ [] := by
    intro empty
    exact pending_eq_nil.mp empty r member (by simp [VersionRecord.isActiveOf, active])
  rw [coherent.tracked] at pending
  unfold outstanding at pending
  split at pending
  · rename_i t found
    exact (coherent.allocated _ t found).1.ne'
  · exact absurd rfl pending

theorem creator_positive (coherent : Coherent base m) {key : Key} {r : VersionRecord}
    (member : r ∈ m.chain key) (isCommitted : r.isCommitted) : r.txnId ≠ 0 := by
  obtain ⟨c, inCommits, creator, -⟩ := coherent.creators key r member isCommitted
  obtain ⟨t, found, -⟩ := (coherent.recorded c inCommits).2.2
  exact creator ▸ (coherent.allocated _ t found).1.ne'

theorem newest_history (coherent : Coherent base m) (key : Key) :
    Versions.newest (m.history key) = (committed (m.chain key)).head? := by
  obtain ⟨rest, whole⟩ := coherent.kept key
  have ordered := coherent.ascending key
  cases shape : committed (m.chain key) with
  | nil => rw [coherent.latest key shape]; rfl
  | cons w ws =>
      rw [shape] at whole
      rw [← whole] at ordered ⊢
      exact Versions.newest_of_descending (List.pairwise_cons.mp ordered).1

/-! ## One transaction changes -/

theorem pending_own (coherent : Coherent base m) (found : m.txns txn = some t)
    (unmarked : t.stage.unmarked) (key : Key) : pending (m.chain key) txn = writesTo key t.writes :=
  (coherent.tracked key txn).trans (outstanding_eq found unmarked key)

theorem allocated_setTxn (coherent : Coherent base m) (found : m.txns txn = some t) (t' : Transaction)
    (other : Nat) (u : Transaction) (found' : (m.setTxn txn t').txns other = some u) :
    0 < other ∧ other < m.nextTxn := by
  rcases txns_setTxn found' with ⟨rfl, -⟩ | ⟨-, found'⟩
  · exact coherent.allocated _ t found
  · exact coherent.allocated other u found'

theorem locked_setTxn (coherent : Coherent base m) {t' : Transaction}
    (own : t'.stage.unmarked → ∀ key, t'.Needs key → (m.locks key).HeldBy txn) (other : Nat)
    (u : Transaction) (found' : (m.setTxn txn t').txns other = some u) (unmarked : u.stage.unmarked)
    (key : Key) (needs : u.Needs key) : (m.locks key).HeldBy other := by
  rcases txns_setTxn found' with ⟨rfl, rfl⟩ | ⟨-, found'⟩
  · exact own unmarked key needs
  · exact coherent.locked other u found' unmarked key needs

theorem prepared_setTxn (coherent : Coherent base m) {t' : Transaction}
    (none : t'.stage.sequence = none) (other : Nat) (u : Transaction) (s : Nat)
    (found' : (m.setTxn txn t').txns other = some u) (prepared : u.stage.sequence = some s) :
    base ≤ s ∧ s < m.nextSequence ∧ (∀ c ∈ m.commits, c.sequence ≠ s) ∧
      ∀ key, writesTo key u.writes ≠ [] → ∀ w ∈ m.history key, w.1 < s := by
  rcases txns_setTxn found' with ⟨-, rfl⟩ | ⟨-, found'⟩
  · rw [none] at prepared
    cases prepared
  · exact coherent.prepared other u s found' prepared

theorem distinct_setTxn (coherent : Coherent base m) {t' : Transaction}
    (none : t'.stage.sequence = none) (a b : Nat) (ta tb : Transaction) (s : Nat)
    (atA : (m.setTxn txn t').txns a = some ta) (atB : (m.setTxn txn t').txns b = some tb)
    (stageA : ta.stage.sequence = some s) (stageB : tb.stage.sequence = some s) : a = b := by
  rcases txns_setTxn atA with ⟨-, rfl⟩ | ⟨-, atA⟩
  · rw [none] at stageA
    cases stageA
  rcases txns_setTxn atB with ⟨-, rfl⟩ | ⟨-, atB⟩
  · rw [none] at stageB
    cases stageB
  exact coherent.distinct a b ta tb s atA atB stageA stageB

theorem recorded_setTxn (coherent : Coherent base m) (found : m.txns txn = some t)
    (unmarked : t.stage.unmarked) (t' : Transaction) {c : Commit} (member : c ∈ m.commits) :
    ∃ u, (m.setTxn txn t').txns c.txn = some u ∧ u.stage.unmarked = false := by
  obtain ⟨-, -, u, found', marked⟩ := coherent.recorded c member
  refine ⟨u, (txns_setTxn_of_ne m ?_ _).trans found', marked⟩
  intro same
  rw [same, found] at found'
  rw [← Option.some.inj found', unmarked] at marked
  cases marked

/-! ## One lemma for each kind of step -/

theorem advance (coherent : Coherent base m) (found : m.txns txn = some t) {t' : Transaction}
    (writes : t'.writes = t.writes) (mark : t'.stage.unmarked = t.stage.unmarked)
    (sequence : ∀ s, t'.stage.sequence = some s → t.stage.sequence = some s)
    (locks : Key → LockEntry) (activeTxns : List Nat)
    (exclusive : ∀ key, (locks key).Exclusive)
    (held : ∀ key other, (m.locks key).HeldBy other → other ≠ txn ∨ t.stage.unmarked →
      (locks key).HeldBy other)
    (granted : ∀ key, t'.stage = .granted key → (locks key).HeldBy txn) :
    Coherent base { m.setTxn txn t' with locks := locks, activeTxns := activeTxns } := by
  refine
    { coherent with
      allocated := coherent.allocated_setTxn found t'
      exclusive := exclusive
      locked := ?_
      tracked := ?_
      prepared := ?_
      distinct := ?_
      recorded := ?_ }
  · intro other u found' unmarked key needs
    rcases txns_setTxn found' with ⟨rfl, rfl⟩ | ⟨different, found'⟩
    · rw [mark] at unmarked
      rcases needs with written | grant
      · refine held key _ (coherent.locked _ t found unmarked key (.inl ?_)) (.inr unmarked)
        rwa [← writes]
      · exact granted key grant
    · exact held key other (coherent.locked other u found' unmarked key needs) (.inl different)
  · intro key other
    refine (coherent.tracked key other).trans ?_
    by_cases same : other = txn
    · subst same
      refine Eq.trans ?_ (outstanding_setTxn_self m _ t' key).symm
      rw [mark, writes, outstanding, found]
    · exact (outstanding_setTxn_other m same t' key).symm
  · intro other u s found' stage
    rcases txns_setTxn found' with ⟨rfl, rfl⟩ | ⟨-, found'⟩
    · rw [writes]
      exact coherent.prepared _ t s found (sequence s stage)
    · exact coherent.prepared other u s found' stage
  · intro a b ta tb s atA atB stageA stageB
    rcases txns_setTxn atA with ⟨rfl, rfl⟩ | ⟨-, oldA⟩ <;>
      rcases txns_setTxn atB with ⟨rfl, rfl⟩ | ⟨-, oldB⟩
    · rfl
    · exact coherent.distinct _ b t tb s found oldB (sequence s stageA) stageB
    · exact coherent.distinct a _ ta t s oldA found stageA (sequence s stageB)
    · exact coherent.distinct a b ta tb s oldA oldB stageA stageB
  · intro c member
    obtain ⟨low, high, u, found', marked⟩ := coherent.recorded c member
    refine ⟨low, high, ?_⟩
    by_cases same : c.txn = txn
    · rw [same, found] at found'
      obtain rfl := Option.some.inj found'
      exact ⟨t', same ▸ txns_setTxn_self m txn t', mark.trans marked⟩
    · exact ⟨u, (txns_setTxn_of_ne m same t').trans found', marked⟩

structure Moves (m : TxManager) (txn : Nat) (t : Transaction) (m' : TxManager) (t' : Transaction) : Prop where
  same : m' = { m.setTxn txn t' with activeTxns := m'.activeTxns }
  writes : t'.writes = t.writes
  mark : t'.stage.unmarked = t.stage.unmarked
  sequence : ∀ s, t'.stage.sequence = some s → t.stage.sequence = some s
  granted : ∀ key, t'.stage ≠ .granted key

theorem Moves.of_stage {stage : Stage} (before : t.stage = stage) {activeTxns : List Nat} {t' : Transaction}
    (writes : t'.writes = t.writes) (mark : t'.stage.unmarked = stage.unmarked)
    (sequence : t'.stage.sequence = none ∨ t'.stage.sequence = stage.sequence)
    (granted : ∀ key, t'.stage ≠ .granted key) :
    Moves m txn t { m.setTxn txn t' with activeTxns := activeTxns } t' where
  same := rfl
  writes := writes
  mark := by rw [mark, before]
  sequence s here := by
    rw [before]
    rcases sequence with none | same
    · rw [none] at here
      cases here
    · rwa [← same]
  granted := granted

theorem move (coherent : Coherent base m) (found : m.txns txn = some t) {m' : TxManager}
    {t' : Transaction} (moves : Moves m txn t m' t') : Coherent base m' := by
  rw [moves.same]
  exact coherent.advance found moves.writes moves.mark moves.sequence m.locks m'.activeTxns
    coherent.exclusive (fun _ _ held _ => held) fun key stage => absurd stage (moves.granted key)

theorem relock (coherent : Coherent base m) (found : m.txns txn = some t) {t' : Transaction}
    (writes : t'.writes = t.writes) (mark : t'.stage.unmarked = t.stage.unmarked)
    (sequence : ∀ s, t'.stage.sequence = some s → t.stage.sequence = some s) {key : Key}
    {entry : LockEntry} (exclusive : entry.Exclusive)
    (held : ∀ other, (m.locks key).HeldBy other → entry.HeldBy other)
    (granted : ∀ other, t'.stage = .granted other → other = key ∧ entry.HeldBy txn) :
    Coherent base ((m.setTxn txn t').setLock key entry) := by
  refine coherent.advance found writes mark sequence (Function.update m.locks key entry)
    m.activeTxns ?_ ?_ ?_
  · intro other
    by_cases same : other = key
    · rw [same, Function.update_self]
      exact exclusive
    · rw [Function.update_of_ne same]
      exact coherent.exclusive other
  · intro other holder before _
    by_cases same : other = key
    · subst same
      rw [Function.update_self]
      exact held holder before
    · rwa [Function.update_of_ne same]
  · intro other stage
    obtain ⟨rfl, mine⟩ := granted other stage
    rwa [Function.update_self]

theorem allocate (coherent : Coherent base m) (isolation : IsolationLevel) :
    Coherent base (m.allocate isolation) := by
  -- The new transaction has an identifier nobody has used.
  have unused : m.txns m.nextTxn = none := by
    cases found : m.txns m.nextTxn with
    | none => rfl
    | some t => exact absurd (coherent.allocated _ t found).2 (Nat.lt_irrefl _)
  refine
    { coherent with
      counted := Nat.succ_pos _
      allocated := ?_
      locked := coherent.locked_setTxn fun _ key needs => ?_
      tracked := ?_
      prepared := coherent.prepared_setTxn rfl
      distinct := coherent.distinct_setTxn rfl
      recorded := ?_ }
  · intro other u found
    rcases txns_setTxn (m := m) found with ⟨rfl, -⟩ | ⟨-, found⟩
    · exact ⟨coherent.counted, Nat.lt_succ_self _⟩
    · exact ⟨(coherent.allocated other u found).1,
        (coherent.allocated other u found).2.trans (Nat.lt_succ_self _)⟩
  · rcases needs with written | grant
    · exact absurd rfl written
    · cases grant
  · intro key other
    refine (coherent.tracked key other).trans ?_
    by_cases same : other = m.nextTxn
    · subst same
      refine Eq.trans ?_ (outstanding_setTxn_self m _ _ key).symm
      rw [outstanding, unused]
      rfl
    · exact (outstanding_setTxn_other m same _ key).symm
  · intro c member
    obtain ⟨low, high, u, found, marked⟩ := coherent.recorded c member
    refine ⟨low, high, u, (txns_setTxn_of_ne m ?_ _).trans found, marked⟩
    rintro same
    rw [same, unused] at found
    cases found

theorem append (coherent : Coherent base m) (found : m.txns txn = some t) {key : Key}
    (stage : t.stage = .granted key) {r : VersionRecord} (active : r.isActive)
    (fresh : r.flushed = false) (mine : r.txnId = txn) :
    Coherent base { m.setTxn txn { t with
        stage := .running
        touchedKeys := t.touchedKeys.insert key
        writes := (key, r.written) :: t.writes } with versions := m.versions.append key r } := by
  have unmarked : t.stage.unmarked := by rw [stage]; rfl
  have holder : (m.locks key).HeldBy txn := coherent.locked txn t found unmarked key (.inr stage)
  have alone : ∀ other ∈ m.chain key, other.isActive → other.txnId = r.txnId := by
    intro other member otherActive
    rw [mine]
    exact coherent.exclusive key _ _ (coherent.active_holder member otherActive) holder
  have old : ∀ other, ∀ a ∈ (m.versions.append key r).chain other, a.isCommitted → a ∈ m.chain other :=
    mem_chain_append active
  have committed (other : Key) :
      Chain.committed ((m.versions.append key r).chain other) = Chain.committed (m.chain other) :=
    committed_chain_append active other
  refine
    { coherent with
      allocated := coherent.allocated_setTxn found _
      locked := coherent.locked_setTxn ?_
      tracked := ?_
      unflushed := forall_chain_append (p := fun _ c => ∀ a ∈ c, a.isActive → a.flushed = false) ?_
        coherent.unflushed
      descending := forall_chain_append (p := fun _ => Descending)
        ((coherent.descending key).append active alone) coherent.descending
      flushedBelow := forall_chain_append (p := fun _ => FlushedBelow)
        ((coherent.flushedBelow key).append active) coherent.flushedBelow
      kept := fun other => (committed other).symm ▸ coherent.kept other
      latest := fun other empty => coherent.latest other (committed other ▸ empty)
      creators := fun other a member isCommitted =>
        coherent.creators other a (old other a member isCommitted) isCommitted
      prepared := coherent.prepared_setTxn rfl
      distinct := coherent.distinct_setTxn rfl
      recorded := fun c member => ⟨(coherent.recorded c member).1, (coherent.recorded c member).2.1,
        coherent.recorded_setTxn found unmarked _ member⟩
      picked := ?_ }
  · rintro - place (written | grant)
    · rw [writesTo_cons] at written
      split at written
      · rename_i same
        exact same ▸ holder
      · exact coherent.locked _ t found unmarked place (.inl written)
    · cases grant
  · intro place other
    refine (pending_chain_append active place other).trans ?_
    rw [mine, coherent.tracked place other]
    by_cases same : other = txn
    · subst same
      refine Eq.trans ?_ (outstanding_setTxn_self m other _ place).symm
      rw [outstanding_eq found unmarked, writesTo_cons]
      by_cases equal : key = place <;> simp [equal, Stage.unmarked]
    · rw [if_neg fun both => same both.2]
      exact (outstanding_setTxn_other m same _ place).symm
  · intro a member activeA
    rcases List.mem_cons.mp member with rfl | member
    · exact fresh
    · exact coherent.unflushed key a member activeA
  · intro call f flushing item member
    obtain ⟨isCommitted, stamp, below⟩ := coherent.picked call f flushing item member
    exact ⟨isCommitted, stamp, fun a held isCommitted' =>
      below a (old item.1 a held isCommitted') isCommitted'⟩

theorem prepare (coherent : Coherent base m) (found : m.txns txn = some t)
    (stage : t.stage = .running) (order : List Key) :
    Coherent base { m.setTxn txn { t with stage := .logging m.nextSequence order } with
      nextSequence := m.nextSequence + 1 } := by
  have unmarked : t.stage.unmarked := by rw [stage]; rfl
  refine
    { coherent with
      advanced := coherent.advanced.trans (Nat.le_succ _)
      allocated := coherent.allocated_setTxn found _
      locked := coherent.locked_setTxn ?_
      tracked := ?_
      prepared := ?_
      distinct := ?_
      recorded := fun c member => ⟨(coherent.recorded c member).1,
        (coherent.recorded c member).2.1.trans (Nat.lt_succ_self _),
        coherent.recorded_setTxn found unmarked _ member⟩ }
  · rintro - key (written | grant)
    · exact coherent.locked _ t found unmarked key (.inl written)
    · cases grant
  · intro key other
    refine (coherent.tracked key other).trans ?_
    by_cases same : other = txn
    · subst same
      rw [outstanding_eq found unmarked]
      refine Eq.trans ?_ (outstanding_setTxn_self m other _ key).symm
      rfl
    · exact (outstanding_setTxn_other m same _ key).symm
  · intro other u s found' prepared
    rcases txns_setTxn found' with ⟨-, rfl⟩ | ⟨-, found'⟩
    · -- The new sequence is above everything committed so far.
      obtain rfl := Option.some.inj prepared
      exact ⟨coherent.advanced, Nat.lt_succ_self _,
        fun c member => (coherent.recorded c member).2.1.ne,
        fun key _ w member => (coherent.history_lt member).2⟩
    · obtain ⟨low, high, rest⟩ := coherent.prepared other u s found' prepared
      exact ⟨low, high.trans (Nat.lt_succ_self _), rest⟩
  · intro a b ta tb s atA atB stageA stageB
    rcases txns_setTxn atA with ⟨rfl, rfl⟩ | ⟨-, oldA⟩ <;>
      rcases txns_setTxn atB with ⟨rfl, rfl⟩ | ⟨-, oldB⟩
    · rfl
    · obtain rfl := Option.some.inj stageA
      exact absurd (coherent.prepared b tb _ oldB stageB).2.1 (Nat.lt_irrefl _)
    · obtain rfl := Option.some.inj stageB
      exact absurd (coherent.prepared a ta _ oldA stageA).2.1 (Nat.lt_irrefl _)
    · exact coherent.distinct a b ta tb s oldA oldB stageA stageB

section Commit
variable (coherent : Coherent base m) (found : m.txns txn = some t) {sequence : Nat}
  (prepared : t.stage.sequence = some sequence)
include coherent found prepared

theorem committed_own (key : Key) : committed ((m.chain key).commit txn sequence) =
    (writesTo key t.writes).map (fun content => (sequence, content)) ++ committed (m.chain key) := by
  have unmarked := Stage.unmarked_of_sequence prepared
  rw [committed_commit (coherent.descending key) fun r member => coherent.not_creator found unmarked member,
    coherent.pending_own found unmarked]

theorem above_own (key : Key) : (m.chain key).commit txn sequence = m.chain key ∨
    ∀ r ∈ m.chain key, r.isCommitted → r.commitSnapshot < sequence := by
  have pending := coherent.pending_own found (Stage.unmarked_of_sequence prepared) key
  obtain ⟨-, -, -, newest⟩ := coherent.prepared txn t sequence found prepared
  by_cases none : writesTo key t.writes = []
  · exact .inl (commit_eq_self (pending.trans none))
  · exact .inr fun r member isCommitted =>
      newest key none r.stamp (coherent.committed_mem member isCommitted)

theorem mem_own {key : Key} {r : VersionRecord} (member : r ∈ (m.chain key).commit txn sequence)
    (isCommitted : r.isCommitted) : r ∈ m.chain key ∨
      r.commitSnapshot = sequence ∧ r.txnId = txn ∧ writesTo key t.writes ≠ [] := by
  have pending := coherent.pending_own found (Stage.unmarked_of_sequence prepared) key
  rcases mem_commit member isCommitted with old | ⟨a, held, own, stamp, owner, -⟩
  · exact .inl old
  · refine .inr ⟨congrArg Prod.fst stamp, owner, fun none => ?_⟩
    exact pending_eq_nil.mp (pending.trans none) a held own

theorem apart {other : Nat} {u : Transaction} {s : Nat} (found' : m.txns other = some u)
    (prepared' : u.stage.sequence = some s) (different : other ≠ txn) :
    sequence ≠ s ∧ ∀ key, writesTo key u.writes ≠ [] → writesTo key t.writes = [] := by
  constructor
  · rintro rfl
    exact different (coherent.distinct other txn u t _ found' found prepared' prepared)
  · intro key written
    by_contra own
    -- Both would hold the lock of the key.
    have holder := coherent.locked txn t found (Stage.unmarked_of_sequence prepared) key (.inl own)
    have otherHolder := coherent.locked other u found' (Stage.unmarked_of_sequence prepared') key
      (.inl written)
    exact different (coherent.exclusive key _ _ otherHolder holder)

end Commit

theorem commit (coherent : Coherent base m) (found : m.txns txn = some t) {sequence : Nat}
    (stage : t.stage = .synced sequence) :
    Coherent base { m.setTxn txn { t with stage := .committed } with
      versions := m.versions.markTransactionCommitted txn sequence
      commits := ⟨txn, sequence, t.writes⟩ :: m.commits } := by
  have unmarked : t.stage.unmarked := by rw [stage]; rfl
  have prepared : t.stage.sequence = some sequence := by rw [stage]; rfl
  obtain ⟨low, high, unused, newest⟩ := coherent.prepared txn t sequence found prepared
  have creator (key : Key) : ∀ r ∈ m.chain key, r.isCommitted → r.txnId ≠ txn :=
    fun r member => coherent.not_creator found unmarked member
  have history (key : Key) : TxManager.history
      { m.setTxn txn { t with stage := .committed } with
        versions := m.versions.markTransactionCommitted txn sequence
        commits := ⟨txn, sequence, t.writes⟩ :: m.commits } key =
      (writesTo key t.writes).map (fun content => (sequence, content)) ++ m.history key := rfl
  have committed := coherent.committed_own found prepared
  have above := coherent.above_own found prepared
  refine
    { coherent with
      allocated := coherent.allocated_setTxn found _
      locked := coherent.locked_setTxn nofun
      tracked := ?_
      unflushed := fun key => unflushed_commit (coherent.unflushed key)
      descending := ?_
      flushedBelow := ?_
      kept := ?_
      latest := ?_
      creators := ?_
      prepared := ?_
      distinct := coherent.distinct_setTxn rfl
      recorded := ?_
      sequences := List.pairwise_cons.mpr ⟨fun c member => (unused c member).symm,
        coherent.sequences⟩
      ascending := ?_
      picked := ?_ }
  · intro key other
    by_cases same : other = txn
    · subst same
      refine Eq.trans ?_ (outstanding_setTxn_self m other _ key).symm
      exact pending_commit_self
    · exact (pending_commit_other same).trans ((coherent.tracked key other).trans
        (outstanding_setTxn_other m same _ key).symm)
  · intro key
    rcases above key with same | above
    · change Descending ((m.chain key).commit txn sequence)
      rw [same]
      exact coherent.descending key
    · exact (coherent.descending key).commit (fun r member h => (above r member h).le) (creator key)
  · intro key
    rcases above key with same | above
    · change FlushedBelow ((m.chain key).commit txn sequence)
      rw [same]
      exact coherent.flushedBelow key
    · exact (coherent.flushedBelow key).commit (coherent.unflushed key) above
  · intro key
    refine (committed key).symm ▸ (history key).symm ▸ ?_
    exact (List.prefix_append_right_inj _).mpr (coherent.kept key)
  · intro key empty
    have both := List.append_eq_nil_iff.mp ((committed key).symm.trans empty)
    rw [history, both.1, coherent.latest key both.2]
    rfl
  · intro key r member isCommitted
    rcases coherent.mem_own found prepared member isCommitted with old | ⟨same, owner, -⟩
    · obtain ⟨c, inCommits, rest⟩ := coherent.creators key r old isCommitted
      exact ⟨c, List.mem_cons_of_mem _ inCommits, rest⟩
    · exact ⟨_, List.mem_cons_self .., owner.symm, same.symm⟩
  · intro other u s found' prepared'
    rcases txns_setTxn found' with ⟨-, rfl⟩ | ⟨different, found'⟩
    · cases prepared'
    obtain ⟨low', high', unused', newest'⟩ := coherent.prepared other u s found' prepared'
    obtain ⟨unequal, disjoint⟩ := coherent.apart found prepared found' prepared' different
    refine ⟨low', high', List.forall_mem_cons.mpr ⟨unequal, unused'⟩, fun key written w member => ?_⟩
    rw [history, disjoint key written] at member
    exact newest' key written w member
  · intro c member
    rcases List.mem_cons.mp member with rfl | member
    · exact ⟨low, high, _, txns_setTxn_self m txn _, rfl⟩
    · exact ⟨(coherent.recorded c member).1, (coherent.recorded c member).2.1,
        coherent.recorded_setTxn found unmarked _ member⟩
  · intro key
    rw [history, List.pairwise_append]
    refine ⟨List.pairwise_map.mpr (List.pairwise_of_forall fun _ _ => le_rfl),
      coherent.ascending key, fun w new v old => ?_⟩
    obtain ⟨content, member, rfl⟩ := List.mem_map.mp new
    exact (newest key (List.ne_nil_of_mem member) v old).le
  · intro call f flushing item member
    obtain ⟨isCommitted, stamp, below⟩ := coherent.picked call f flushing item member
    refine ⟨isCommitted, history item.1 ▸ List.mem_append_right _ stamp, fun r held h le => ?_⟩
    rcases coherent.mem_own found prepared held h with old | ⟨same, -, written⟩
    · exact below r old h le
    · exact absurd (same ▸ le) (Nat.not_le.mpr (newest item.1 written item.2.stamp stamp))

theorem rechain (coherent : Coherent base m) (versions : VersionChainManager)
    (flushes : Nat → Option FlushCall)
    (tracked : ∀ key txn, pending (versions.chain key) txn = pending (m.chain key) txn)
    (unflushed : ∀ key, ∀ r ∈ versions.chain key, r.isActive → r.flushed = false)
    (descending : ∀ key, Descending (versions.chain key))
    (below : ∀ key, FlushedBelow (versions.chain key))
    (kept : ∀ key, committed (versions.chain key) <+: committed (m.chain key))
    (latest : ∀ key, committed (versions.chain key) = [] → committed (m.chain key) = [])
    (origin : ∀ key, ∀ r ∈ versions.chain key, r.isCommitted → ∃ a ∈ m.chain key,
      a.isCommitted ∧ a.txnId = r.txnId ∧ a.stamp = r.stamp ∧ (a.flushed → r.flushed))
    (fewer : ∀ call f, flushes call = some f → m.flushes call = some f) :
    Coherent base { m with versions := versions, flushes := flushes } := by
  refine
    { coherent with
      tracked := fun key txn => (tracked key txn).trans (coherent.tracked key txn)
      unflushed := unflushed
      descending := descending
      flushedBelow := below
      kept := fun key => (kept key).trans (coherent.kept key)
      latest := fun key empty => coherent.latest key (latest key empty)
      creators := ?_
      picked := ?_ }
  · intro key r member isCommitted
    obtain ⟨a, held, committed, owner, stamp, -⟩ := origin key r member isCommitted
    obtain ⟨c, inCommits, creator, sequence⟩ := coherent.creators key a held committed
    exact ⟨c, inCommits, creator.trans owner, sequence.trans (congrArg Prod.fst stamp)⟩
  · intro call f flushing item member
    obtain ⟨isCommitted, stamp, below⟩ := coherent.picked call f (fewer call f flushing) item member
    refine ⟨isCommitted, stamp, fun r held committed le => ?_⟩
    obtain ⟨a, before, committedBefore, -, same, mark⟩ := origin item.1 r held committed
    have sequence : a.commitSnapshot = r.commitSnapshot := congrArg Prod.fst same
    rcases below a before committedBefore (sequence.trans_le le) with flushed | ⟨other, picked, rest⟩
    · exact .inl (mark flushed)
    · exact .inr ⟨other, picked, rest.1, rest.2.trans same⟩

theorem collected (coherent : Coherent base m) : Coherent base m.garbageCollect := by
  have old {key : Key} {r : VersionRecord} (member : r ∈ (m.chain key).garbageCollect) :
      r ∈ m.chain key := (garbageCollect_sublist _).subset member
  refine coherent.rechain m.versions.garbageCollect m.flushes (fun key txn => pending_garbageCollect)
    (fun key r member => coherent.unflushed key r (old member))
    (fun key => (coherent.descending key).sublist (garbageCollect_sublist _))
    (fun key a ha b hb => coherent.flushedBelow key a (old ha) b (old hb))
    (fun key => committed_garbageCollect_prefix (coherent.descending key)
      (coherent.flushedBelow key))
    (fun key => committed_garbageCollect_eq_nil)
    (fun key r member isCommitted => ⟨r, old member, isCommitted, rfl, rfl, id⟩)
    fun _ _ => id

theorem marked (coherent : Coherent base m) {call : Nat} {f : FlushCall}
    (flushing : m.flushes call = some f) (finished : f.remaining = []) :
    Coherent base { m.setFlush call none with versions := m.versions.markFlushed f.marks } := by
  have written : f.items = f.written := by rw [FlushCall.items, finished, List.append_nil]
  have same (key : Key) : committed ((m.versions.markFlushed f.marks).chain key) =
      committed (m.chain key) := committed_markFlushed _
  refine coherent.rechain (m.versions.markFlushed f.marks) (Function.update m.flushes call none)
    (fun key txn => pending_markFlushed _) ?_
    (fun key => (coherent.descending key).markFlushed _) ?_
    (fun key => (same key).symm ▸ List.prefix_rfl) (fun key => (same key).symm.trans) ?_ ?_
  · intro key r member active
    obtain ⟨a, held, -, -, -, same, mark⟩ := mem_markFlushed member
    have before := coherent.unflushed key a held (same ▸ active)
    have notCommitted := not_isCommitted_of_isActive (same ▸ active)
    refine Bool.eq_false_iff.mpr fun flushed => ?_
    rcases mark.mp flushed with old | new
    · rw [before] at old
      cases old
    · exact notCommitted new.1
  · intro key newer hn older ho committed flushed committedOlder le
    obtain ⟨a, heldA, -, stampA, sameA, -, markA⟩ := mem_markFlushed hn
    obtain ⟨b, heldB, -, stampB, sameB, -, markB⟩ := mem_markFlushed ho
    have sequenceA : newer.commitSnapshot = a.commitSnapshot := congrArg Prod.fst stampA
    have sequenceB : older.commitSnapshot = b.commitSnapshot := congrArg Prod.fst stampB
    rw [sequenceA, sequenceB] at le
    rw [sameA] at committed
    rw [sameB] at committedOlder
    refine markB.mpr ?_
    rcases markA.mp flushed with old | ⟨-, now⟩
    · exact .inl (coherent.flushedBelow key a heldA b heldB committed old committedOlder le)
    · -- The call picked everything not flushed below the version it marks.
      obtain ⟨item, picked, mark⟩ := List.mem_map.mp (VersionChainManager.mem_sequencesOf.mp now)
      obtain ⟨rfl, sequence⟩ := Prod.mk.inj mark
      obtain ⟨-, -, below⟩ := coherent.picked call f flushing item (written ▸ picked)
      rcases below b heldB committedOlder (sequence ▸ le) with flushed | ⟨other, picked, same, stamp⟩
      · exact .inl flushed
      · refine .inr ⟨committedOlder, VersionChainManager.mem_sequencesOf.mpr ?_⟩
        exact List.mem_map.mpr ⟨other, written ▸ picked, Prod.ext same (congrArg Prod.fst stamp)⟩
  · intro key r member isCommitted
    obtain ⟨a, held, owner, stamp, same, -, mark⟩ := mem_markFlushed member
    exact ⟨a, held, same ▸ isCommitted, owner.symm, stamp.symm, fun old => mark.mpr (.inl old)⟩
  · intro other g found
    by_cases same : other = call
    · simp [same] at found
    · rwa [Function.update_of_ne same] at found

theorem reflush (coherent : Coherent base m) {call : Nat} {f : Option FlushCall}
    (closed : ∀ g ∈ f, m.Closed g) : Coherent base (m.setFlush call f) := by
  refine { coherent with picked := fun other g found => ?_ }
  rcases flushes_setFlush found with ⟨rfl, rfl⟩ | old
  · exact closed g rfl
  · exact coherent.picked other g old

theorem closed_of_pick (coherent : Coherent base m) (maxItems : Nat) (order : List Key) :
    m.Closed ⟨[], m.versions.pickCommittedNotFlushed maxItems [] order⟩ := by
  intro item member
  rcases VersionChainManager.mem_pick member with none | ⟨held, isCommitted, -⟩
  · cases none
  refine ⟨isCommitted, coherent.committed_mem held isCommitted, fun r older committed _ => ?_⟩
  by_cases flushed : r.flushed
  · exact .inl flushed
  · refine .inr ⟨(item.1, r), ?_, rfl, rfl⟩
    refine VersionChainManager.pick_closed (by simp) item member r ?_
    exact List.mem_filter.mpr ⟨older, by simp [committed, flushed]⟩

theorem withdraw (coherent : Coherent base m) (found : m.txns txn = some t)
    (stage : t.stage = .aborting) :
    Coherent base { m.setTxn txn { t with stage := .aborted } with
      versions := m.versions.markTransactionAborted txn } := by
  have unmarked : t.stage.unmarked := by rw [stage]; rfl
  refine
    { coherent with
      allocated := coherent.allocated_setTxn found _
      locked := coherent.locked_setTxn nofun
      tracked := ?_
      unflushed := fun key => unflushed_abort (coherent.unflushed key)
      descending := fun key => (coherent.descending key).abort
      flushedBelow := fun key a ha b hb committed flushed older =>
        coherent.flushedBelow key a (mem_abort ha committed) b (mem_abort hb older) committed flushed
        older
      kept := fun key => committed_abort.symm ▸ coherent.kept key
      latest := fun key empty => coherent.latest key (committed_abort ▸ empty)
      creators := fun key r member isCommitted =>
        coherent.creators key r (mem_abort member isCommitted) isCommitted
      prepared := coherent.prepared_setTxn rfl
      distinct := coherent.distinct_setTxn rfl
      recorded := fun c member => ⟨(coherent.recorded c member).1, (coherent.recorded c member).2.1,
        coherent.recorded_setTxn found unmarked _ member⟩
      picked := ?_ }
  · intro key other
    by_cases same : other = txn
    · subst same
      refine Eq.trans ?_ (outstanding_setTxn_self m other _ key).symm
      exact pending_abort_self
    · exact (pending_abort_other same).trans ((coherent.tracked key other).trans
        (outstanding_setTxn_other m same _ key).symm)
  · intro call f flushing item member
    obtain ⟨isCommitted, stamp, below⟩ := coherent.picked call f flushing item member
    exact ⟨isCommitted, stamp, fun r held committed =>
      below r (mem_abort held committed) committed⟩

theorem unlock (coherent : Coherent base m) (found : m.txns txn = some t)
    (marked : t.stage.unmarked = false) (key : Key) :
    Coherent base (m.setLock key ((m.locks key).release txn)) := by
  have same : m.setTxn txn t = m := by
    rw [setTxn, ← found, Function.update_eq_self]
  have released (other : Key) : Function.update m.locks key ((m.locks key).release txn) other =
      if other = key then (m.locks other).release txn else m.locks other := by
    by_cases equal : other = key
    · rw [equal, Function.update_self, if_pos rfl]
    · rw [Function.update_of_ne equal, if_neg equal]
  have advanced := coherent.advance found rfl rfl (fun _ => id)
    (Function.update m.locks key ((m.locks key).release txn)) m.activeTxns ?_ ?_ ?_
  · rw [same] at advanced
    exact advanced
  · intro other
    refine (coherent.exclusive other).of_heldBy fun holder held => ?_
    rw [released] at held
    split at held
    · exact (LockEntry.heldBy_release.mp held).1
    · exact held
  · intro other holder held different
    rw [released]
    split
    · exact LockEntry.heldBy_release.mpr ⟨held, different.resolve_right (by simp [marked])⟩
    · exact held
  · intro other stage
    rw [stage] at marked
    cases marked

/-! ## One lemma for each action -/

section Actions
variable {m' : TxManager}

theorem moves_insertActive (stepped : m.insertActive txn t = some m') : ∃ t', Moves m txn t m' t' := by
  unfold TxManager.insertActive at stepped
  split at stepped <;> [rename_i stage; cases stepped]
  obtain rfl := Option.some.inj stepped
  exact ⟨_, .of_stage stage rfl rfl (.inl rfl) nofun⟩

theorem moves_copyActive (stepped : m.copyActive txn t = some m') : ∃ t', Moves m txn t m' t' := by
  unfold TxManager.copyActive at stepped
  split at stepped <;> [rename_i stage; cases stepped]
  obtain rfl := Option.some.inj stepped
  exact ⟨_, .of_stage stage rfl rfl (.inl rfl) nofun⟩

theorem moves_readUpLimit (stepped : m.readUpLimit txn t = some m') : ∃ t', Moves m txn t m' t' := by
  unfold TxManager.readUpLimit at stepped
  split at stepped <;> [rename_i stage; cases stepped]
  obtain rfl := Option.some.inj stepped
  exact ⟨_, .of_stage stage rfl rfl (.inl rfl) nofun⟩

theorem moves_captureSequence (stepped : m.captureSequence txn t = some m') :
    ∃ t', Moves m txn t m' t' := by
  unfold TxManager.captureSequence at stepped
  split at stepped <;> [rename_i stage; cases stepped]
  obtain rfl := Option.some.inj stepped
  exact ⟨_, .of_stage stage rfl rfl (.inl rfl) nofun⟩

theorem moves_keepLock (stepped : m.keepLock txn t = some m') : ∃ t', Moves m txn t m' t' := by
  unfold TxManager.keepLock at stepped
  split at stepped <;> [rename_i stage; cases stepped]
  obtain rfl := Option.some.inj stepped
  exact ⟨_, .of_stage stage rfl rfl (.inl rfl) nofun⟩

theorem moves_logged {success : Bool} (stepped : m.logged txn success t = some m') :
    ∃ t', Moves m txn t m' t' := by
  unfold TxManager.logged at stepped
  split at stepped <;> [rename_i stage; cases stepped]
  split at stepped <;> obtain rfl := Option.some.inj stepped
  · exact ⟨_, .of_stage stage rfl rfl (.inr rfl) nofun⟩
  · exact ⟨_, .of_stage stage rfl rfl (.inl rfl) nofun⟩

theorem moves_synced {success : Bool} (stepped : m.synced txn success t = some m') :
    ∃ t', Moves m txn t m' t' := by
  unfold TxManager.synced at stepped
  split at stepped <;> [rename_i stage; cases stepped]
  obtain rfl := Option.some.inj stepped
  cases success with
  | true => exact ⟨_, .of_stage stage rfl rfl (.inr rfl) nofun⟩
  | false => exact ⟨_, .of_stage stage rfl rfl (.inl rfl) nofun⟩

theorem moves_onCommitted (stepped : m.onCommitted txn t = some m') : ∃ t', Moves m txn t m' t' := by
  unfold TxManager.onCommitted at stepped
  split at stepped <;> [rename_i stage; cases stepped]
  obtain rfl := Option.some.inj stepped
  exact ⟨_, .of_stage stage rfl rfl (.inl rfl) nofun⟩

theorem moves_rollback (stepped : m.rollback txn t = some m') : ∃ t', Moves m txn t m' t' := by
  unfold TxManager.rollback at stepped
  split at stepped <;> [rename_i stage; cases stepped]
  obtain rfl := Option.some.inj stepped
  exact ⟨_, .of_stage stage rfl rfl (.inl rfl) nofun⟩

theorem moves_onAborted (stepped : m.onAborted txn t = some m') : ∃ t', Moves m txn t m' t' := by
  unfold TxManager.onAborted at stepped
  split at stepped <;> [rename_i stage; cases stepped]
  obtain rfl := Option.some.inj stepped
  exact ⟨_, .of_stage stage rfl rfl (.inl rfl) nofun⟩

theorem of_acquire {key : Key} (coherent : Coherent base m) (found : m.txns txn = some t)
    (stepped : m.acquire txn key t = some m') : Coherent base m' := by
  unfold TxManager.acquire at stepped
  split at stepped <;> [rename_i stage; cases stepped]
  split at stepped
  · rename_i grant
    obtain rfl := Option.some.inj stepped
    exact coherent.relock found (by rfl) (by rw [stage]; rfl) (by simp [Stage.sequence])
      (LockEntry.exclusive_grant grant) (by simp +contextual) (by simp)
  · obtain rfl := Option.some.inj stepped
    exact coherent.relock found (by rfl) (by rw [stage]; rfl) (by simp [Stage.sequence])
      (coherent.exclusive key) (by simp) (by simp)

theorem of_wake (coherent : Coherent base m) (found : m.txns txn = some t)
    (stepped : m.wake txn t = some m') : Coherent base m' := by
  unfold TxManager.wake at stepped
  split at stepped <;> [rename_i key stage; cases stepped]
  split at stepped <;> [rename_i grant; cases stepped]
  obtain rfl := Option.some.inj stepped
  exact coherent.relock found (by rfl) (by rw [stage]; rfl) (by simp [Stage.sequence])
    (LockEntry.exclusive_wake grant) (by simp +contextual) (by simp)

theorem of_giveUp (coherent : Coherent base m) (found : m.txns txn = some t)
    (stepped : m.giveUp txn t = some m') : Coherent base m' := by
  unfold TxManager.giveUp at stepped
  split at stepped <;> [rename_i key stage; cases stepped]
  obtain rfl := Option.some.inj stepped
  exact coherent.relock found (by rfl) (by rw [stage]; rfl) (by simp [Stage.sequence])
    (coherent.exclusive key) (by simp) (by simp)

theorem of_write {content : Option Value} (coherent : Coherent base m) (found : m.txns txn = some t)
    (stepped : m.write txn content t = some m') : Coherent base m' := by
  unfold TxManager.write at stepped
  split at stepped <;> [rename_i key stage; cases stepped]
  obtain rfl := Option.some.inj stepped
  cases content with
  | some value =>
      exact coherent.append (r := { value, isDelete := false, txnId := txn }) found stage rfl rfl rfl
  | none =>
      exact coherent.append (r := { value := [], isDelete := true, txnId := txn }) found stage rfl rfl rfl

theorem of_prepareCommit {order : List Key} (coherent : Coherent base m) (found : m.txns txn = some t)
    (stepped : m.prepareCommit txn order t = some m') : Coherent base m' := by
  unfold TxManager.prepareCommit at stepped
  split at stepped <;> [rename_i stage; cases stepped]
  split at stepped <;> [skip; cases stepped]
  obtain rfl := Option.some.inj stepped
  exact coherent.prepare found stage order

theorem of_markCommitted (coherent : Coherent base m) (found : m.txns txn = some t)
    (stepped : m.markCommitted txn t = some m') : Coherent base m' := by
  unfold TxManager.markCommitted at stepped
  split at stepped <;> [rename_i sequence stage; cases stepped]
  obtain rfl := Option.some.inj stepped
  exact coherent.commit found stage

theorem of_markAborted (coherent : Coherent base m) (found : m.txns txn = some t)
    (stepped : m.markAborted txn t = some m') : Coherent base m' := by
  unfold TxManager.markAborted at stepped
  split at stepped <;> [rename_i stage; cases stepped]
  obtain rfl := Option.some.inj stepped
  exact coherent.withdraw found stage

theorem of_release {key : Key} (coherent : Coherent base m) (found : m.txns txn = some t)
    (stepped : m.release txn key t = some m') : Coherent base m' := by
  unfold TxManager.release at stepped
  split at stepped <;> [rename_i stage; cases stepped]
  obtain rfl := Option.some.inj stepped
  exact coherent.unlock found (by rw [stage]; rfl) key

theorem of_releaseAll (coherent : Coherent base m) (found : m.txns txn = some t)
    (stepped : m.releaseAll txn t = some m') : Coherent base m' := by
  unfold TxManager.releaseAll at stepped
  split at stepped <;> [rename_i stage; cases stepped]
  obtain rfl := Option.some.inj stepped
  have marked : t.stage.unmarked = false := by rw [stage]; rfl
  refine coherent.advance found (by rfl) (by rw [marked]; rfl) (by simp [Stage.sequence])
    (fun key => (m.locks key).release txn) m.activeTxns ?_ ?_ (by simp)
  · exact fun key => (coherent.exclusive key).of_heldBy fun _ held =>
      (LockEntry.heldBy_release.mp held).1
  · intro key other held different
    exact LockEntry.heldBy_release.mpr ⟨held, different.resolve_right (by simp [marked])⟩

theorem of_pick (coherent : Coherent base m) {call maxItems : Nat} {order : List Key}
    (stepped : m.pick call maxItems order = some m') : Coherent base m' := by
  unfold TxManager.pick at stepped
  split at stepped <;> [skip; cases stepped]
  dsimp only at stepped
  split at stepped <;> obtain rfl := Option.some.inj stepped
  · exact coherent
  · refine coherent.reflush fun g picked => ?_
    obtain rfl := Option.some.inj picked
    exact coherent.closed_of_pick maxItems order

theorem of_wrote {call : Nat} {f : FlushCall} (coherent : Coherent base m)
    (flushing : m.flushes call = some f) {success : Bool}
    (stepped : m.wrote call success f = some m') : Coherent base m' := by
  unfold TxManager.wrote at stepped
  split at stepped <;> [rename_i item rest remaining; cases stepped]
  obtain rfl := Option.some.inj stepped
  refine coherent.reflush fun g written => ?_
  have same : (FlushCall.mk (f.written ++ [item]) rest).items = f.items := by
    simp [FlushCall.items, remaining]
  cases success with
  | false => cases written
  | true =>
      obtain rfl := Option.some.inj written
      unfold Closed
      rw [same]
      exact coherent.picked call f flushing

theorem of_markFlushed {call : Nat} {f : FlushCall} (coherent : Coherent base m)
    (flushing : m.flushes call = some f) (stepped : m.markFlushed call f = some m') :
    Coherent base m' := by
  unfold TxManager.markFlushed at stepped
  split at stepped <;> [rename_i finished; cases stepped]
  obtain rfl := Option.some.inj stepped
  exact coherent.marked flushing finished

end Actions

theorem step (coherent : Coherent base m) {action : TxAction} {m' : TxManager}
    (stepped : m.step action = some m') : Coherent base m' := by
  have taken {txn : Nat} {take : Transaction → Option TxManager}
      (one : ∀ t, m.txns txn = some t → take t = some m' → Coherent base m')
      (stepped : (m.txns txn).bind take = some m') : Coherent base m' := by
    obtain ⟨t, found, stepped⟩ := Option.bind_eq_some_iff.mp stepped
    exact one t found stepped
  have moved {txn : Nat} {move : Transaction → Option TxManager}
      (moves : ∀ t, move t = some m' → ∃ t', Moves m txn t m' t')
      (stepped : (m.txns txn).bind move = some m') : Coherent base m' :=
    taken (fun t found stepped => coherent.move found (moves t stepped).choose_spec) stepped
  cases action with
  | allocate isolation =>
      obtain rfl := Option.some.inj stepped
      exact coherent.allocate isolation
  | garbageCollect =>
      obtain rfl := Option.some.inj stepped
      exact coherent.collected
  | insertActive txn => exact moved (fun _ => moves_insertActive) stepped
  | copyActive txn => exact moved (fun _ => moves_copyActive) stepped
  | readUpLimit txn => exact moved (fun _ => moves_readUpLimit) stepped
  | captureSequence txn => exact moved (fun _ => moves_captureSequence) stepped
  | keepLock txn => exact moved (fun _ => moves_keepLock) stepped
  | logged txn success => exact moved (fun _ => moves_logged) stepped
  | synced txn success => exact moved (fun _ => moves_synced) stepped
  | onCommitted txn => exact moved (fun _ => moves_onCommitted) stepped
  | rollback txn => exact moved (fun _ => moves_rollback) stepped
  | onAborted txn => exact moved (fun _ => moves_onAborted) stepped
  | acquire txn key => exact taken (fun _ => coherent.of_acquire) stepped
  | wake txn => exact taken (fun _ => coherent.of_wake) stepped
  | giveUp txn => exact taken (fun _ => coherent.of_giveUp) stepped
  | write txn content => exact taken (fun _ => coherent.of_write) stepped
  | prepareCommit txn order => exact taken (fun _ => coherent.of_prepareCommit) stepped
  | markCommitted txn => exact taken (fun _ => coherent.of_markCommitted) stepped
  | markAborted txn => exact taken (fun _ => coherent.of_markAborted) stepped
  | release txn key => exact taken (fun _ => coherent.of_release) stepped
  | releaseAll txn => exact taken (fun _ => coherent.of_releaseAll) stepped
  | pick call maxItems order => exact coherent.of_pick stepped
  | wrote call success =>
      obtain ⟨f, flushing, stepped⟩ := Option.bind_eq_some_iff.mp stepped
      exact coherent.of_wrote flushing stepped
  | markFlushed call =>
      obtain ⟨f, flushing, stepped⟩ := Option.bind_eq_some_iff.mp stepped
      exact coherent.of_markFlushed flushing stepped

end Coherent
end TxManager
end Lrdb
