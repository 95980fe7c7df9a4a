import Mathlib.Order.Nat
import Lrdb.Base.Versions
import Lrdb.Core.Status

/-!
# Read views and version chains

Every key has a chain of versions. A transaction appends active versions; its commit stamps them
with one sequence. The head of a chain in this model is the back of the vector in the source, the
end every scan starts from.
-/

namespace Lrdb
open Versions

inductive IsolationLevel where
  | kReadUncommitted | kReadCommitted | kRepeatableRead | kSerializable
  deriving DecidableEq, Repr

inductive ReadViewPolicy where
  | kReadCommitted | kRepeatableRead
  deriving DecidableEq, Repr

structure ReadView where
  policy : ReadViewPolicy
  myTxn : Nat
  upLimit : Nat
  activeTxns : List Nat
  deriving DecidableEq, Repr

def ReadView.isVisible (view : ReadView) (creator : Nat) (isCommitted isAborted : Bool) : Bool :=
  if creator = view.myTxn then !isAborted
  else if isAborted then false
  else
    match view.policy with
    | .kReadCommitted => isCommitted
    | .kRepeatableRead =>
        if !isCommitted then false
        else if view.upLimit ≤ creator then false
        else !view.activeTxns.contains creator

inductive VersionState where
  | kActive | kCommitted | kAborted
  deriving DecidableEq, Repr

structure VersionRecord where
  value : Value
  isDelete : Bool
  txnId : Nat
  state : VersionState := .kActive
  commitSnapshot : Nat := 0
  flushed : Bool := false
  deriving DecidableEq, Repr

namespace VersionRecord

def isActive (r : VersionRecord) : Bool := r.state == .kActive
def isCommitted (r : VersionRecord) : Bool := r.state == .kCommitted
def isAborted (r : VersionRecord) : Bool := r.state == .kAborted

def isActiveOf (txn : Nat) (r : VersionRecord) : Bool := r.txnId == txn && r.isActive

def written (r : VersionRecord) : Option Value := if r.isDelete then none else some r.value

def visibleTo (view : ReadView) (r : VersionRecord) : Bool :=
  view.isVisible r.txnId r.isCommitted r.isAborted

def commit (txn sequence : Nat) (r : VersionRecord) : VersionRecord :=
  if r.isActiveOf txn then { r with state := .kCommitted, commitSnapshot := sequence } else r

def abort (txn : Nat) (r : VersionRecord) : VersionRecord :=
  if r.isActiveOf txn then { r with state := .kAborted } else r

end VersionRecord

abbrev Chain := List VersionRecord

namespace Chain

def report (deleted : Status) (value : Value) : Option VersionRecord → Bool × ReadResult
  | none => (false, ⟨.ok, value⟩)
  | some r => if r.isDelete then (false, ⟨deleted, value⟩) else (true, ⟨.ok, r.value⟩)

def getVisible (chain : Chain) (view : ReadView) (value : Value) : Bool × ReadResult :=
  report (.deleted "Key deleted at visible version") value
    (chain.find? fun r => r.visibleTo view)

def getVisibleBySnapshot (chain : Chain) (snapshot : Nat) (value : Value) : Bool × ReadResult :=
  report (.notFound "Key deleted at snapshot") value
    (chain.find? fun r => r.isCommitted && decide (r.commitSnapshot ≤ snapshot))

def latestActive (chain : Chain) (txn : Nat) : Option VersionRecord :=
  chain.find? fun r => r.isActiveOf txn

def unflushed (chain : Chain) : Chain := chain.filter fun r => r.isCommitted && !r.flushed

def markFlushed (sequences : List Nat) (chain : Chain) : Chain :=
  chain.map fun r =>
    if r.isCommitted && sequences.contains r.commitSnapshot then { r with flushed := true } else r

/-- The scan of `GarbageCollect`, from the newest version on. -/
def collect (keptLatest : Bool) : Chain → Chain
  | [] => []
  | r :: rs =>
      match r.state with
      | .kActive => r :: collect keptLatest rs
      | .kCommitted =>
          if !keptLatest || !r.flushed then r :: collect true rs else collect keptLatest rs
      | .kAborted => collect keptLatest rs

def garbageCollect (chain : Chain) : Chain :=
  collect false (chain.filter fun r => !r.isAborted)

/-! ## Committed versions of a chain -/

end Chain

def VersionRecord.stamp (r : VersionRecord) : Nat × Option Value := (r.commitSnapshot, r.written)

namespace Chain

def committed (chain : Chain) : List (Nat × Option Value) :=
  (chain.filter VersionRecord.isCommitted).map VersionRecord.stamp

def pending (chain : Chain) (txn : Nat) : List (Option Value) :=
  (chain.filter fun r => r.isActiveOf txn).map VersionRecord.written

structure Descending (chain : Chain) : Prop where
  sequences : chain.Pairwise fun newer older =>
    newer.isCommitted → older.isCommitted → older.commitSnapshot ≤ newer.commitSnapshot
  activeTop : chain.Pairwise fun newer older => older.isActive → newer.txnId = older.txnId

def FlushedBelow (chain : Chain) : Prop :=
  ∀ newer ∈ chain, ∀ older ∈ chain, newer.isCommitted → newer.flushed → older.isCommitted →
    older.commitSnapshot ≤ newer.commitSnapshot → older.flushed

theorem report_eq (deleted : Status) (value : Value) (found : Option VersionRecord) :
    report deleted value found =
      match (found.map VersionRecord.stamp).map Prod.snd with
      | none => (false, ⟨.ok, value⟩)
      | some none => (false, ⟨deleted, value⟩)
      | some (some content) => (true, ⟨.ok, content⟩) := by
  cases found with
  | none => rfl
  | some r =>
      by_cases deletion : r.isDelete <;>
        simp [report, VersionRecord.stamp, VersionRecord.written, deletion]

theorem Descending.sublist {chain kept : Chain} (descending : Descending chain)
    (sub : kept.Sublist chain) : Descending kept :=
  ⟨descending.sequences.sublist sub, descending.activeTop.sublist sub⟩

theorem mem_committed {chain : Chain} {version : Nat × Option Value} :
    version ∈ committed chain ↔ ∃ r ∈ chain, r.isCommitted ∧ r.stamp = version := by
  simp [committed, and_assoc]

theorem committed_cons (r : VersionRecord) (rs : Chain) :
    committed (r :: rs) = if r.isCommitted then r.stamp :: committed rs else committed rs := by
  by_cases h : r.isCommitted <;> simp [committed, h]

theorem pending_cons (r : VersionRecord) (rs : Chain) (txn : Nat) :
    pending (r :: rs) txn =
      if r.isActiveOf txn then r.written :: pending rs txn else pending rs txn := by
  by_cases h : r.isActiveOf txn <;> simp [pending, h]

theorem pending_eq_nil {chain : Chain} {txn : Nat} :
    pending chain txn = [] ↔ ∀ r ∈ chain, ¬ r.isActiveOf txn := by
  simp [pending]

theorem not_isCommitted_of_isActive {r : VersionRecord} (active : r.isActive) :
    ¬ r.isCommitted := by
  simp_all [VersionRecord.isActive, VersionRecord.isCommitted]

private theorem not_isActiveOf_of_isCommitted {r : VersionRecord} (h : r.isCommitted) (txn : Nat) :
    ¬ r.isActiveOf txn := by
  simp_all [VersionRecord.isCommitted, VersionRecord.isActiveOf, VersionRecord.isActive]

theorem Descending.committed {chain : Chain} (descending : Descending chain) :
    (committed chain).Pairwise fun newer older => older.1 ≤ newer.1 := by
  refine List.pairwise_map.mpr (List.Pairwise.imp_of_mem ?_
    (descending.sequences.sublist List.filter_sublist))
  intro a b ha hb ordered
  exact ordered (List.mem_filter.mp ha).2 (List.mem_filter.mp hb).2

theorem find?_eq_newest {chain : Chain} (descending : Descending chain) (snapshot : Nat) :
    (chain.find? fun r => r.isCommitted && decide (r.commitSnapshot ≤ snapshot)).map
        VersionRecord.stamp =
      newest ((committed chain).filter fun v => v.1 ≤ snapshot) := by
  induction chain with
  | nil => rfl
  | cons r rs ih =>
      have tail := descending.sublist (List.sublist_cons_self r rs)
      have ordered := descending.committed
      rw [committed_cons] at ordered ⊢
      by_cases isCommitted : r.isCommitted
      · rw [if_pos isCommitted] at ordered ⊢
        by_cases visible : r.commitSnapshot ≤ snapshot
        · have seen : decide (r.stamp.1 ≤ snapshot) = true := decide_eq_true visible
          rw [List.filter_cons, if_pos seen, newest_of_descending]
          · simp [isCommitted, visible]
          · intro v member
            exact (List.pairwise_cons.mp ordered).1 v (List.mem_filter.mp member).1
        · have unseen : ¬ decide (r.stamp.1 ≤ snapshot) = true := mt of_decide_eq_true visible
          rw [List.filter_cons, if_neg unseen, ← ih tail]
          simp [visible]
      · rw [if_neg isCommitted, ← ih tail]
        simp [isCommitted]

/-! ## What the operations do to a chain -/

section Append
variable {chain : Chain} {r : VersionRecord}

theorem committed_append (active : r.isActive) : committed (r :: chain) = committed chain := by
  rw [committed_cons, if_neg (not_isCommitted_of_isActive active)]

theorem Descending.append (descending : Descending chain) (active : r.isActive)
    (alone : ∀ other ∈ chain, other.isActive → other.txnId = r.txnId) : Descending (r :: chain) := by
  refine ⟨List.pairwise_cons.mpr ⟨fun other _ committed => ?_, descending.sequences⟩,
    List.pairwise_cons.mpr ⟨fun other member h => (alone other member h).symm,
      descending.activeTop⟩⟩
  exact absurd committed (not_isCommitted_of_isActive active)

theorem FlushedBelow.append (below : FlushedBelow chain) (active : r.isActive) :
    FlushedBelow (r :: chain) := by
  have notCommitted : ¬ r.isCommitted := not_isCommitted_of_isActive active
  intro a ha b hb committed flushed older le
  rcases List.mem_cons.mp ha with rfl | ha
  · exact absurd committed notCommitted
  rcases List.mem_cons.mp hb with rfl | hb
  · exact absurd older notCommitted
  · exact below a ha b hb committed flushed older le

theorem pending_append (txn : Nat) (active : r.isActive) : pending (r :: chain) txn =
    if r.txnId = txn then r.written :: pending chain txn else pending chain txn := by
  simp [pending_cons, VersionRecord.isActiveOf, active]

end Append

section Commit
variable {chain : Chain} {txn sequence : Nat}

def commit (txn sequence : Nat) (chain : Chain) : Chain :=
  chain.map (VersionRecord.commit txn sequence)

theorem commit_eq_self (none : pending chain txn = []) : chain.commit txn sequence = chain := by
  refine (List.map_congr_left fun r member => ?_).trans chain.map_id
  rw [VersionRecord.commit, if_neg (pending_eq_nil.mp none r member), id]

theorem committed_commit (descending : Descending chain)
    (fresh : ∀ r ∈ chain, r.isCommitted → r.txnId ≠ txn) :
    committed (chain.commit txn sequence) =
      (pending chain txn).map (fun written => (sequence, written)) ++ committed chain := by
  induction chain with
  | nil => rfl
  | cons r rs ih =>
      obtain ⟨here, fresh⟩ := List.forall_mem_cons.mp fresh
      have tail := ih (descending.sublist (List.sublist_cons_self r rs)) fresh
      rw [commit, List.map_cons, committed_cons, committed_cons, pending_cons]
      by_cases own : r.isActiveOf txn
      · have notCommitted : ¬ r.isCommitted := fun h => not_isActiveOf_of_isCommitted h txn own
        have stamped : (r.commit txn sequence).isCommitted := by
          simp [VersionRecord.commit, own, VersionRecord.isCommitted]
        have stamp : (r.commit txn sequence).stamp = (sequence, r.written) := by
          simp [VersionRecord.commit, own, VersionRecord.stamp, VersionRecord.written]
        rw [if_pos stamped, if_pos own, if_neg notCommitted, stamp, List.map_cons, List.cons_append]
        exact congrArg _ tail
      · have kept : r.commit txn sequence = r := by simp [VersionRecord.commit, own]
        rw [kept, if_neg own]
        by_cases isCommitted : r.isCommitted
        · -- Nothing of the transaction lies below a version it did not write.
          have none : pending rs txn = [] := by
            refine pending_eq_nil.mpr fun a member active => here isCommitted ?_
            simp only [VersionRecord.isActiveOf, Bool.and_eq_true, beq_iff_eq] at active
            exact ((List.pairwise_cons.mp descending.activeTop).1 a member active.2).trans active.1
          rw [none, List.map_nil, List.nil_append] at tail
          rw [if_pos isCommitted, none, List.map_nil, List.nil_append, if_pos isCommitted]
          exact congrArg _ tail
        · rw [if_neg isCommitted, if_neg isCommitted]
          exact tail

private theorem commit_txnId (r : VersionRecord) : (r.commit txn sequence).txnId = r.txnId := by
  unfold VersionRecord.commit
  split <;> rfl

private theorem commit_isActive {r : VersionRecord} (active : (r.commit txn sequence).isActive) :
    r.isActive := by
  unfold VersionRecord.commit at active
  split at active
  · simp [VersionRecord.isActive] at active
  · exact active

private theorem commit_isCommitted {r : VersionRecord}
    (h : (r.commit txn sequence).isCommitted) :
    r.isCommitted ∧ r.commit txn sequence = r ∨
      r.isActiveOf txn ∧ (r.commit txn sequence).commitSnapshot = sequence ∧
        (r.commit txn sequence).flushed = r.flushed := by
  unfold VersionRecord.commit at h ⊢
  split
  · rename_i own
    exact .inr ⟨own, rfl, rfl⟩
  · rename_i other
    rw [if_neg other] at h
    exact .inl ⟨h, rfl⟩

theorem Descending.commit (descending : Descending chain)
    (above : ∀ r ∈ chain, r.isCommitted → r.commitSnapshot ≤ sequence)
    (fresh : ∀ r ∈ chain, r.isCommitted → r.txnId ≠ txn) :
    Descending (chain.commit txn sequence) := by
  constructor
  · refine List.pairwise_map.mpr (List.Pairwise.imp_of_mem ?_
      (descending.sequences.and descending.activeTop))
    rintro a b ha hb ⟨ordered, top⟩ newer older
    rcases commit_isCommitted newer with ⟨newer, same⟩ | ⟨own, stamp, -⟩
    · rcases commit_isCommitted older with ⟨older, same'⟩ | ⟨own', -⟩
      · rw [same, same']
        exact ordered newer older
      · simp only [VersionRecord.isActiveOf, Bool.and_eq_true, beq_iff_eq] at own'
        exact absurd ((top own'.2).trans own'.1) (fresh a ha newer)
    · rw [stamp]
      rcases commit_isCommitted older with ⟨older, same'⟩ | ⟨-, stamp', -⟩
      · rw [same']
        exact above b hb older
      · exact stamp'.le
  · refine List.pairwise_map.mpr (descending.activeTop.imp fun top active => ?_)
    rw [commit_txnId, commit_txnId]
    exact top (commit_isActive active)

theorem mem_commit {r : VersionRecord} (member : r ∈ chain.commit txn sequence)
    (committed : r.isCommitted) : r ∈ chain ∨
      ∃ a ∈ chain, a.isActiveOf txn ∧ r.stamp = (sequence, a.written) ∧ r.txnId = txn ∧
        r.flushed = a.flushed := by
  obtain ⟨a, ha, rfl⟩ := List.mem_map.mp member
  by_cases own : a.isActiveOf txn
  · have owner : a.txnId = txn := by
      simp only [VersionRecord.isActiveOf, Bool.and_eq_true, beq_iff_eq] at own
      exact own.1
    refine .inr ⟨a, ha, own, ?_⟩
    simp [VersionRecord.commit, own, VersionRecord.stamp, VersionRecord.written, owner]
  · rw [VersionRecord.commit, if_neg own]
    exact .inl ha

theorem FlushedBelow.commit (below : FlushedBelow chain)
    (unflushed : ∀ r ∈ chain, r.isActive → r.flushed = false)
    (above : ∀ r ∈ chain, r.isCommitted → r.commitSnapshot < sequence) :
    FlushedBelow (chain.commit txn sequence) := by
  intro a ha b hb committed flushed older le
  rcases mem_commit ha committed with ha' | ⟨x, hx, own, -, -, same⟩
  · rcases mem_commit hb older with hb' | ⟨y, -, -, stamp, -⟩
    · exact below a ha' b hb' committed flushed older le
    · have stamped : b.commitSnapshot = sequence := congrArg Prod.fst stamp
      exact absurd (stamped ▸ le) (Nat.not_le.mpr (above a ha' committed))
  · simp only [VersionRecord.isActiveOf, Bool.and_eq_true] at own
    rw [same, unflushed x hx own.2] at flushed
    cases flushed

end Commit

section Relabel
variable {chain : Chain} {f : VersionRecord → VersionRecord}

theorem committed_map (kept : ∀ r ∈ chain, (f r).isCommitted = r.isCommitted ∧
    (r.isCommitted → (f r).stamp = r.stamp)) : committed (chain.map f) = committed chain := by
  induction chain with
  | nil => rfl
  | cons r rs ih =>
      obtain ⟨here, rest⟩ := List.forall_mem_cons.mp kept
      rw [List.map_cons, committed_cons, committed_cons, ih rest, here.1]
      split
      · rename_i isCommitted
        rw [here.2 isCommitted]
      · rfl

theorem pending_map {txn : Nat} (kept : ∀ r ∈ chain, (f r).isActiveOf txn = r.isActiveOf txn ∧
    (f r).written = r.written) : pending (chain.map f) txn = pending chain txn := by
  induction chain with
  | nil => rfl
  | cons r rs ih =>
      obtain ⟨here, rest⟩ := List.forall_mem_cons.mp kept
      rw [List.map_cons, pending_cons, pending_cons, ih rest, here.1, here.2]

theorem Descending.map (descending : Descending chain)
    (kept : ∀ r ∈ chain, (f r).txnId = r.txnId ∧ ((f r).isActive → r.isActive) ∧
      ((f r).isCommitted → r.isCommitted ∧ (f r).commitSnapshot = r.commitSnapshot)) :
    Descending (chain.map f) := by
  constructor
  · refine List.pairwise_map.mpr (List.Pairwise.imp_of_mem ?_ descending.sequences)
    intro a b ha hb ordered newer older
    obtain ⟨newer, same⟩ := (kept a ha).2.2 newer
    obtain ⟨older, same'⟩ := (kept b hb).2.2 older
    rw [same, same']
    exact ordered newer older
  · refine List.pairwise_map.mpr (List.Pairwise.imp_of_mem ?_ descending.activeTop)
    intro a b ha hb top active
    rw [(kept a ha).1, (kept b hb).1]
    exact top ((kept b hb).2.1 active)

end Relabel

end Chain
end Lrdb
