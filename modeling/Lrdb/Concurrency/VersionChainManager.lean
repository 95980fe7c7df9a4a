import Mathlib.Data.List.Nodup
import Mathlib.Logic.Function.Basic
import Lrdb.Concurrency.VersionChain

/-!
# The version chain manager

One chain for each key written in the session. Commits and aborts visit every chain; the flush picks
what is committed and not flushed; the collector drops flushed versions below the latest.
-/

namespace Lrdb

namespace Chain

def abort (txn : Nat) (chain : Chain) : Chain := chain.map (VersionRecord.abort txn)

private theorem abort_kept (txn : Nat) (r : VersionRecord) :
    (r.abort txn).txnId = r.txnId ∧ (r.abort txn).stamp = r.stamp ∧
      (r.abort txn).flushed = r.flushed ∧ (r.abort txn).isCommitted = r.isCommitted ∧
        (r.abort txn).isActive = (r.isActive && !r.isActiveOf txn) := by
  by_cases own : r.isActiveOf txn
  · have active : r.isActive := by simp_all [VersionRecord.isActiveOf]
    have notCommitted : r.isCommitted = false := by
      simpa using not_isCommitted_of_isActive active
    simp [VersionRecord.abort, own, VersionRecord.stamp, VersionRecord.written, notCommitted]
    simp [VersionRecord.isCommitted, VersionRecord.isActive]
  · simp [VersionRecord.abort, own]

section
variable {chain : Chain} {txn : Nat}

theorem committed_abort : committed (chain.abort txn) = committed chain :=
  committed_map fun r _ => ⟨(abort_kept txn r).2.2.2.1, fun _ => (abort_kept txn r).2.1⟩

theorem pending_abort_self : pending (chain.abort txn) txn = [] := by
  refine pending_eq_nil.mpr fun r member => ?_
  obtain ⟨a, -, rfl⟩ := List.mem_map.mp member
  have active := (abort_kept txn a).2.2.2.2
  have owner := (abort_kept txn a).1
  simp only [VersionRecord.isActiveOf, active, owner, Bool.and_eq_true, Bool.not_eq_true']
  rintro ⟨own, active, other⟩
  simp [own, active] at other

theorem pending_abort_other {other : Nat} (different : other ≠ txn) :
    pending (chain.abort txn) other = pending chain other := by
  refine pending_map fun r _ => ⟨?_, congrArg Prod.snd (abort_kept txn r).2.1⟩
  simp only [VersionRecord.isActiveOf, (abort_kept txn r).1, (abort_kept txn r).2.2.2.2]
  by_cases owner : r.txnId = other
  · simp [owner, different]
  · simp [beq_false_of_ne owner]

theorem Descending.abort (descending : Descending chain) : Descending (chain.abort txn) := by
  refine descending.map fun r _ => ⟨(abort_kept txn r).1, fun active => ?_, fun committed => ?_⟩
  · rw [(abort_kept txn r).2.2.2.2] at active
    exact (Bool.and_eq_true _ _ |>.mp active).1
  · exact ⟨(abort_kept txn r).2.2.2.1 ▸ committed, congrArg Prod.fst (abort_kept txn r).2.1⟩

theorem mem_abort {r : VersionRecord} (member : r ∈ chain.abort txn) (committed : r.isCommitted) :
    r ∈ chain := by
  obtain ⟨a, ha, rfl⟩ := List.mem_map.mp member
  by_cases own : a.isActiveOf txn
  · rw [(abort_kept txn a).2.2.2.1] at committed
    simp only [VersionRecord.isActiveOf, Bool.and_eq_true] at own
    exact absurd committed (not_isCommitted_of_isActive own.2)
  · rwa [VersionRecord.abort, if_neg own]

theorem unflushed_abort (unflushed : ∀ r ∈ chain, r.isActive → r.flushed = false) :
    ∀ r ∈ chain.abort txn, r.isActive → r.flushed = false := by
  intro r member active
  obtain ⟨a, ha, rfl⟩ := List.mem_map.mp member
  rw [(abort_kept txn a).2.2.1]
  rw [(abort_kept txn a).2.2.2.2] at active
  exact unflushed a ha (Bool.and_eq_true _ _ |>.mp active).1

theorem pending_commit_self {sequence : Nat} : pending (chain.commit txn sequence) txn = [] := by
  refine pending_eq_nil.mpr fun r member => ?_
  obtain ⟨a, -, rfl⟩ := List.mem_map.mp member
  by_cases own : a.isActiveOf txn
  · rw [VersionRecord.commit, if_pos own]
    simp [VersionRecord.isActiveOf, VersionRecord.isActive]
  · rwa [VersionRecord.commit, if_neg own]

theorem pending_commit_other {sequence other : Nat} (different : other ≠ txn) :
    pending (chain.commit txn sequence) other = pending chain other := by
  refine pending_map fun r _ => ?_
  by_cases own : r.isActiveOf txn
  · have owner : r.txnId = txn := by
      simp only [VersionRecord.isActiveOf, Bool.and_eq_true, beq_iff_eq] at own
      exact own.1
    rw [VersionRecord.commit, if_pos own]
    simp [VersionRecord.isActiveOf, VersionRecord.written, owner, beq_false_of_ne different.symm]
  · rw [VersionRecord.commit, if_neg own]
    exact ⟨rfl, rfl⟩

theorem unflushed_commit {sequence : Nat}
    (unflushed : ∀ r ∈ chain, r.isActive → r.flushed = false) :
    ∀ r ∈ chain.commit txn sequence, r.isActive → r.flushed = false := by
  intro r member active
  obtain ⟨a, ha, rfl⟩ := List.mem_map.mp member
  by_cases own : a.isActiveOf txn
  · simp [VersionRecord.commit, own, VersionRecord.isActive] at active
  · rw [VersionRecord.commit, if_neg own] at active ⊢
    exact unflushed a ha active

/-! ## Marking and collecting -/

private theorem mark_kept (sequences : List Nat) (r : VersionRecord) :
    let marked : VersionRecord :=
      if r.isCommitted && sequences.contains r.commitSnapshot then { r with flushed := true } else r
    marked.txnId = r.txnId ∧ marked.stamp = r.stamp ∧ marked.isCommitted = r.isCommitted ∧
      marked.isActive = r.isActive ∧
        marked.flushed = (r.flushed || r.isCommitted && sequences.contains r.commitSnapshot) := by
  dsimp only
  split
  · rename_i marked
    exact ⟨rfl, rfl, rfl, rfl, by rw [marked, Bool.or_true]⟩
  · rename_i unmarked
    exact ⟨rfl, rfl, rfl, rfl, by rw [Bool.not_eq_true _ |>.mp unmarked, Bool.or_false]⟩

theorem committed_markFlushed (sequences : List Nat) :
    committed (chain.markFlushed sequences) = committed chain :=
  committed_map fun r _ => ⟨(mark_kept sequences r).2.2.1, fun _ => (mark_kept sequences r).2.1⟩

theorem pending_markFlushed (sequences : List Nat) :
    pending (chain.markFlushed sequences) txn = pending chain txn := by
  refine pending_map fun r _ => ⟨?_, congrArg Prod.snd (mark_kept sequences r).2.1⟩
  simp only [VersionRecord.isActiveOf, (mark_kept sequences r).1, (mark_kept sequences r).2.2.2.1]

theorem Descending.markFlushed (descending : Descending chain) (sequences : List Nat) :
    Descending (chain.markFlushed sequences) := by
  refine descending.map fun r _ => ⟨(mark_kept sequences r).1, fun active => ?_, fun committed => ?_⟩
  · exact (mark_kept sequences r).2.2.2.1 ▸ active
  · exact ⟨(mark_kept sequences r).2.2.1 ▸ committed,
      congrArg Prod.fst (mark_kept sequences r).2.1⟩

theorem mem_markFlushed {sequences : List Nat} {r : VersionRecord}
    (member : r ∈ chain.markFlushed sequences) : ∃ a ∈ chain, r.txnId = a.txnId ∧
      r.stamp = a.stamp ∧ r.isCommitted = a.isCommitted ∧ r.isActive = a.isActive ∧
        (r.flushed ↔ a.flushed ∨ a.isCommitted ∧ a.commitSnapshot ∈ sequences) := by
  obtain ⟨a, ha, rfl⟩ := List.mem_map.mp member
  have kept := mark_kept sequences a
  refine ⟨a, ha, kept.1, kept.2.1, kept.2.2.1, kept.2.2.2.1, ?_⟩
  rw [kept.2.2.2.2]
  simp

theorem collect_sublist (keptLatest : Bool) (chain : Chain) :
    (collect keptLatest chain).Sublist chain := by
  induction chain generalizing keptLatest with
  | nil => exact .slnil
  | cons r rs ih =>
      rw [collect]
      split
      · exact (ih _).cons_cons r
      · split
        · exact (ih _).cons_cons r
        · exact (ih _).cons r
      · exact (ih _).cons r

theorem garbageCollect_sublist (chain : Chain) : (garbageCollect chain).Sublist chain :=
  (collect_sublist false _).trans List.filter_sublist

theorem mem_collect {keptLatest : Bool} {r : VersionRecord} (member : r ∈ chain)
    (needed : r.isActive ∨ r.isCommitted ∧ r.flushed = false) : r ∈ collect keptLatest chain := by
  induction chain generalizing keptLatest with
  | nil => cases member
  | cons a rest ih =>
      rw [collect]
      rcases List.mem_cons.mp member with rfl | member
      · cases state : r.state with
        | kActive => exact List.mem_cons_self ..
        | kCommitted =>
            have unflushed : r.flushed = false := by
              rcases needed with active | ⟨-, unflushed⟩
              · simp [VersionRecord.isActive, state] at active
              · exact unflushed
            simp [unflushed]
        | kAborted => simp [VersionRecord.isActive, VersionRecord.isCommitted, state] at needed
      · split
        · exact List.mem_cons_of_mem _ (ih member)
        · split
          · exact List.mem_cons_of_mem _ (ih member)
          · exact ih member
        · exact ih member

private theorem committed_collect_flushed
    (flushed : ∀ r ∈ chain, r.isCommitted → r.flushed) : committed (collect true chain) = [] := by
  induction chain with
  | nil => rfl
  | cons r rs ih =>
      obtain ⟨here, later⟩ := List.forall_mem_cons.mp flushed
      rw [collect]
      cases state : r.state with
      | kActive =>
          have notCommitted : ¬ r.isCommitted := by simp [VersionRecord.isCommitted, state]
          simp only [committed_cons, if_neg notCommitted]
          exact ih later
      | kCommitted =>
          have marked : r.flushed := here (by simp [VersionRecord.isCommitted, state])
          simp only [marked, Bool.not_true, Bool.or_false, Bool.false_eq_true, if_false]
          exact ih later
      | kAborted => exact ih later

private theorem committed_collect_prefix (keptLatest : Bool) (descending : Descending chain)
    (below : FlushedBelow chain) : committed (collect keptLatest chain) <+: committed chain := by
  induction chain generalizing keptLatest with
  | nil => exact List.nil_prefix
  | cons r rs ih =>
      have tail := descending.sublist (List.sublist_cons_self r rs)
      have tailBelow : FlushedBelow rs := fun a ha b hb =>
        below a (List.mem_cons_of_mem _ ha) b (List.mem_cons_of_mem _ hb)
      rw [collect]
      cases state : r.state with
      | kActive =>
          have notCommitted : ¬ r.isCommitted := by simp [VersionRecord.isCommitted, state]
          simp only [committed_cons, if_neg notCommitted]
          exact ih _ tail tailBelow
      | kCommitted =>
          have isCommitted : r.isCommitted := by simp [VersionRecord.isCommitted, state]
          by_cases kept : (!keptLatest || !r.flushed) = true
          · simp only [kept, if_true, committed_cons, if_pos isCommitted]
            exact List.prefix_cons_inj _ |>.mpr (ih true tail tailBelow)
          · -- From a flushed version on, everything older was flushed and goes.
            simp only [Bool.or_eq_true, Bool.not_eq_true', not_or, Bool.not_eq_false] at kept
            obtain ⟨rfl, flushed⟩ := kept
            have older : ∀ a ∈ rs, a.isCommitted → a.flushed := fun a member committed =>
              below r (List.mem_cons_self ..) a (List.mem_cons_of_mem _ member) isCommitted flushed
                committed ((List.pairwise_cons.mp descending.sequences).1 a member isCommitted
                  committed)
            simp only [flushed, Bool.not_true, Bool.or_false, Bool.false_eq_true, if_false]
            rw [committed_collect_flushed older]
            exact List.nil_prefix
      | kAborted =>
          have notCommitted : ¬ r.isCommitted := by simp [VersionRecord.isCommitted, state]
          simp only [committed_cons, if_neg notCommitted]
          exact ih _ tail tailBelow

private theorem committed_collect_eq_nil (empty : committed (collect false chain) = []) :
    committed chain = [] := by
  induction chain with
  | nil => rfl
  | cons r rs ih =>
      rw [collect] at empty
      rw [committed_cons]
      cases state : r.state with
      | kCommitted =>
          have isCommitted : r.isCommitted := by simp [VersionRecord.isCommitted, state]
          simp [state, committed_cons, isCommitted] at empty
      | kActive | kAborted =>
          have notCommitted : ¬ r.isCommitted := by simp [VersionRecord.isCommitted, state]
          simp only [state, committed_cons, if_neg notCommitted] at empty
          rw [if_neg notCommitted]
          exact ih empty

private theorem committed_filter_not_aborted :
    committed (chain.filter fun r => !r.isAborted) = committed chain := by
  rw [committed, committed, List.filter_filter]
  refine congrArg _ (List.filter_congr fun r _ => ?_)
  cases state : r.state <;> simp [VersionRecord.isCommitted, VersionRecord.isAborted, state]

theorem committed_garbageCollect_prefix (descending : Descending chain)
    (below : FlushedBelow chain) : committed (garbageCollect chain) <+: committed chain := by
  have kept : committed (chain.filter fun r => !r.isAborted) = committed chain :=
    committed_filter_not_aborted
  rw [← kept]
  refine committed_collect_prefix false (descending.sublist List.filter_sublist) ?_
  exact fun a ha b hb => below a (List.mem_of_mem_filter ha) b (List.mem_of_mem_filter hb)

theorem committed_garbageCollect_eq_nil (empty : committed (garbageCollect chain) = []) :
    committed chain = [] :=
  committed_filter_not_aborted.symm.trans (committed_collect_eq_nil empty)

theorem mem_garbageCollect {r : VersionRecord} (member : r ∈ chain)
    (needed : r.isActive ∨ r.isCommitted ∧ r.flushed = false) : r ∈ garbageCollect chain := by
  refine mem_collect (List.mem_filter.mpr ⟨member, ?_⟩) needed
  cases state : r.state <;>
    simp [VersionRecord.isActive, VersionRecord.isCommitted, VersionRecord.isAborted, state]
      at needed ⊢

private theorem pending_collect (keptLatest : Bool) :
    pending (collect keptLatest chain) txn = pending chain txn := by
  induction chain generalizing keptLatest with
  | nil => rfl
  | cons r rs ih =>
      rw [collect, pending_cons]
      cases state : r.state with
      | kActive => simp only [pending_cons, ih]
      | kCommitted =>
          have other : ¬ r.isActiveOf txn := by
            simp [VersionRecord.isActiveOf, VersionRecord.isActive, state]
          rw [if_neg other]
          dsimp only
          split
          · rw [pending_cons, if_neg other, ih]
          · exact ih _
      | kAborted =>
          have other : ¬ r.isActiveOf txn := by
            simp [VersionRecord.isActiveOf, VersionRecord.isActive, state]
          rw [if_neg other]
          exact ih _

theorem pending_garbageCollect : pending (garbageCollect chain) txn = pending chain txn := by
  rw [garbageCollect, pending_collect, pending, pending, List.filter_filter]
  refine congrArg _ (List.filter_congr fun r _ => ?_)
  cases state : r.state <;>
    simp [VersionRecord.isActiveOf, VersionRecord.isActive, VersionRecord.isAborted, state]

end
end Chain

structure VersionChainManager where
  keys : List Key
  nodup : keys.Nodup
  chain : Key → Chain
  absent : ∀ key, key ∉ keys → chain key = []

namespace VersionChainManager

def new : VersionChainManager := ⟨[], .nil, fun _ => [], fun _ _ => rfl⟩

def append (m : VersionChainManager) (key : Key) (r : VersionRecord) : VersionChainManager where
  keys := m.keys.insert key
  nodup := List.Nodup.insert m.nodup
  chain := Function.update m.chain key (r :: m.chain key)
  absent := by
    intro other missing
    simp only [List.mem_insert_iff, not_or] at missing
    rw [Function.update_of_ne missing.1]
    exact m.absent other missing.2

def putActive (m : VersionChainManager) (key : Key) (value : Value) (txn : Nat) :
    VersionChainManager :=
  m.append key { value := value, isDelete := false, txnId := txn }

def deleteActive (m : VersionChainManager) (key : Key) (txn : Nat) : VersionChainManager :=
  m.append key { value := [], isDelete := true, txnId := txn }

def forEach (m : VersionChainManager) (f : Key → Chain → Chain) (empty : ∀ key, f key [] = []) :
    VersionChainManager where
  keys := m.keys
  nodup := m.nodup
  chain key := f key (m.chain key)
  absent key missing := by rw [m.absent key missing, empty]

def markTransactionCommitted (m : VersionChainManager) (txn sequence : Nat) :
    VersionChainManager :=
  m.forEach (fun _ chain => chain.commit txn sequence) fun _ => rfl

def markTransactionAborted (m : VersionChainManager) (txn : Nat) : VersionChainManager :=
  m.forEach (fun _ chain => chain.abort txn) fun _ => rfl

def sequencesOf (key : Key) (marks : List (Key × Nat)) : List Nat :=
  (marks.filter fun mark => mark.1 = key).map Prod.snd

def markFlushed (m : VersionChainManager) (marks : List (Key × Nat)) : VersionChainManager :=
  m.forEach (fun key chain => chain.markFlushed (sequencesOf key marks)) fun _ => rfl

def garbageCollect (m : VersionChainManager) : VersionChainManager :=
  m.forEach (fun _ chain => chain.garbageCollect) fun _ => rfl

/-- The loop of `PickCommittedNotFlushed` over the keys in the order of the hash table. -/
def pickCommittedNotFlushed (m : VersionChainManager) (maxItems : Nat)
    (out : List (Key × VersionRecord)) : List Key → List (Key × VersionRecord)
  | [] => out
  | key :: rest =>
      let out := out ++ (m.chain key).unflushed.map fun r => (key, r)
      if maxItems ≤ out.length then out else pickCommittedNotFlushed m maxItems out rest

def collectVisible (m : VersionChainManager) (view : ReadView) : List (Key × VersionRecord) :=
  m.keys.filterMap fun key =>
    ((m.chain key).find? fun r => r.visibleTo view).map fun r => (key, r)

theorem mem_sequencesOf {key : Key} {marks : List (Key × Nat)} {sequence : Nat} :
    sequence ∈ sequencesOf key marks ↔ (key, sequence) ∈ marks := by
  simp [sequencesOf]

variable {m : VersionChainManager}

theorem mem_pick {maxItems : Nat} {out : List (Key × VersionRecord)} {keys : List Key}
    {item : Key × VersionRecord} (member : item ∈ m.pickCommittedNotFlushed maxItems out keys) :
    item ∈ out ∨ item.2 ∈ m.chain item.1 ∧ item.2.isCommitted ∧ item.2.flushed = false := by
  induction keys generalizing out with
  | nil => exact .inl member
  | cons key rest ih =>
      have added : item ∈ out ++ (m.chain key).unflushed.map (fun r => (key, r)) →
          item ∈ out ∨ item.2 ∈ m.chain item.1 ∧ item.2.isCommitted ∧ item.2.flushed = false := by
        intro found
        rcases List.mem_append.mp found with old | new
        · exact .inl old
        · obtain ⟨r, picked, rfl⟩ := List.mem_map.mp new
          exact .inr (by simpa [Chain.unflushed] using picked)
      rw [pickCommittedNotFlushed] at member
      split at member
      · exact added member
      · rcases ih member with found | found
        · exact added found
        · exact .inr found

theorem pick_closed {maxItems : Nat} {out : List (Key × VersionRecord)} {keys : List Key}
    (closed : ∀ item ∈ out, ∀ r ∈ (m.chain item.1).unflushed, (item.1, r) ∈ out) :
    ∀ item ∈ m.pickCommittedNotFlushed maxItems out keys, ∀ r ∈ (m.chain item.1).unflushed,
      (item.1, r) ∈ m.pickCommittedNotFlushed maxItems out keys := by
  induction keys generalizing out with
  | nil => exact closed
  | cons key rest ih =>
      have extended : ∀ item ∈ out ++ (m.chain key).unflushed.map (fun r => (key, r)),
          ∀ r ∈ (m.chain item.1).unflushed,
            (item.1, r) ∈ out ++ (m.chain key).unflushed.map (fun r => (key, r)) := by
        intro item found r member
        rcases List.mem_append.mp found with old | new
        · exact List.mem_append_left _ (closed item old r member)
        · obtain ⟨_, -, rfl⟩ := List.mem_map.mp new
          exact List.mem_append_right _ (List.mem_map.mpr ⟨r, member, rfl⟩)
      rw [pickCommittedNotFlushed]
      split
      · exact extended
      · exact ih extended

end VersionChainManager
end Lrdb
