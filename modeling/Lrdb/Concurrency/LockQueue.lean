import Lrdb.Concurrency.LockState

namespace Lrdb
open Runs

namespace LockEntry
variable {entry : LockEntry} {txn : Nat} {type : LockType}

def Exclusion (entry : LockEntry) : Prop :=
  ∀ h ∈ entry.holders, h.type = .kExclusiveLock → ∀ other ∈ entry.holders, other.txnId = h.txnId

def Once (entry : LockEntry) : Prop := (entry.waiters.map LockRequest.txnId).Nodup

theorem Exclusion.of_subset {after : LockEntry} (exclusion : entry.Exclusion)
    (fewer : after.holders ⊆ entry.holders) : after.Exclusion :=
  fun h held exclusive other member => exclusion h (fewer held) exclusive other (fewer member)

theorem compatible_iff {held requested : LockType} :
    compatible held requested ↔ held = .kSharedLock ∧ requested = .kSharedLock := by
  cases held <;> cases requested <;> simp [compatible]

theorem canGrant_iff : entry.canGrant txn type ↔
    (∀ h ∈ entry.holders, h.txnId = txn ∨ compatible h.type type) ∧
      (entry.waiters = [] ∨ entry.waiters.head? = some ⟨txn, type⟩) := by
  simp [canGrant]

theorem Exclusion.grant (exclusion : entry.Exclusion) (granted : entry.canGrant txn type) :
    (entry.grant txn type).Exclusion := by
  have fits := (canGrant_iff.mp granted).1
  intro h held exclusive other member
  rcases List.mem_append.mp held with held | new <;>
    rcases List.mem_append.mp member with member | last
  · exact exclusion h held exclusive other member
  · obtain rfl := List.mem_singleton.mp last
    rcases fits h held with same | both
    · exact same.symm
    · rw [compatible_iff, exclusive] at both
      cases both.1
  · obtain rfl := List.mem_singleton.mp new
    rcases fits other member with same | both
    · exact same
    · rw [compatible_iff] at both
      rw [both.2] at exclusive
      cases exclusive
  · obtain rfl := List.mem_singleton.mp new
    obtain rfl := List.mem_singleton.mp last
    rfl

theorem Once.removeWaiter (once : entry.Once) :
    (entry.removeWaiter txn).waiters = entry.waiters.filter fun w => w.txnId != txn := by
  have erased (ws : List LockRequest) (once : (ws.map LockRequest.txnId).Nodup) :
      (ws.eraseP fun w => w.txnId == txn) = ws.filter fun w => w.txnId != txn := by
    induction ws with
    | nil => rfl
    | cons w ws ih =>
        obtain ⟨new, once⟩ := List.nodup_cons.mp once
        by_cases same : w.txnId = txn
        · have others : ws.filter (fun w => w.txnId != txn) = ws := by
            refine List.filter_eq_self.mpr fun other member => ?_
            have different : other.txnId ≠ txn := fun equal =>
              new (List.mem_map.mpr ⟨other, member, equal.trans same.symm⟩)
            simpa using different
          simp [same, others]
        · simp [same, ih once]
  exact erased entry.waiters once

theorem Once.wake (once : entry.Once) (granted : entry.canGrant txn type)
    (waiting : ⟨txn, type⟩ ∈ entry.waiters) :
    (entry.wake txn type).waiters = entry.waiters.filter fun w => w.txnId != txn := by
  have first := (canGrant_iff.mp granted).2.resolve_left (List.ne_nil_of_mem waiting)
  rw [← once.removeWaiter]
  cases shape : entry.waiters with
  | nil => rw [shape] at waiting; cases waiting
  | cons w ws =>
      rw [shape, List.head?_cons] at first
      obtain rfl := Option.some.inj first
      simp [LockEntry.wake, LockEntry.grant, LockEntry.removeWaiter, shape]

theorem enqueue_removeWaiter (absent : ∀ w ∈ entry.waiters, w.txnId ≠ txn) :
    (entry.enqueue txn type).removeWaiter txn = entry := by
  have none : ∀ w ∈ entry.waiters, ¬ (w.txnId == txn) = true := by simpa using absent
  simp only [LockEntry.enqueue, LockEntry.removeWaiter, List.eraseP_append_right _ none]
  simp

end LockEntry

namespace LockManager

structure Tidy (m : LockManager) : Prop where
  exclusion : ∀ key, (m.entries key).Exclusion
  waiting : ∀ key, ∀ w ∈ (m.entries key).waiters, m.phase w.txnId = .queued key w.type
  present : ∀ txn key type, m.phase txn = .queued key type → ⟨txn, type⟩ ∈ (m.entries key).waiters
  once : ∀ key, (m.entries key).Once
  sources : ∀ waiter holder, m.graph.Edge waiter holder →
    ∃ key type, m.phase waiter = .queued key type

namespace Tidy
variable {m m' : LockManager} {txn : Nat}

theorem initial : Tidy {} where
  exclusion := by simp [LockEntry.Exclusion]
  waiting := by simp
  present := by simp [phase]
  once := fun _ => .nil
  sources := by simp [WaitForGraph.Edge]

theorem absent (tidy : m.Tidy) (outside : ∀ key type, m.phase txn ≠ .queued key type) {key : Key} :
    ∀ w ∈ (m.entries key).waiters, w.txnId ≠ txn := by
  rintro w member rfl
  exact outside key w.type (tidy.waiting key w member)

theorem refused (tidy : m.Tidy) {r : AcquireRequest}
    (here : m.calls txn = some (.acquire r .queue)) :
    ((m.enqueued txn r).withdrawn txn r.key).entries = m.entries := by
  have absent : ∀ w ∈ (m.entries r.key).waiters, w.txnId ≠ txn :=
    tidy.absent fun key type queued => by simp [phase_eq here, Call.phase, AcquireStage.waits] at queued
  have same : ((m.entries r.key).enqueue txn r.type).removeWaiter txn = m.entries r.key :=
    LockEntry.enqueue_removeWaiter absent
  simp only [withdrawn, enqueued, setEntry, setGraph, Function.update_idem, Function.update_self, same,
    Function.update_eq_self]

theorem still (tidy : m.Tidy) (waiters : ∀ key, (m'.entries key).waiters = (m.entries key).waiters)
    (exclusion : ∀ key, (m'.entries key).Exclusion)
    (queued : ∀ t key type, m'.phase t = .queued key type ↔ m.phase t = .queued key type)
    (edges : ∀ waiter holder, m'.graph.Edge waiter holder → m.graph.Edge waiter holder) :
    m'.Tidy where
  exclusion := exclusion
  waiting key w member := (queued _ key _).mpr (tidy.waiting key w (waiters key ▸ member))
  present t key type here := waiters key ▸ tidy.present t key type ((queued t key type).mp here)
  once key := by
    unfold LockEntry.Once
    rw [waiters]
    exact tidy.once key
  sources waiter holder edge := by
    obtain ⟨key, type, here⟩ := tidy.sources waiter holder (edges waiter holder edge)
    exact ⟨key, type, (queued waiter key type).mpr here⟩

theorem depart (tidy : m.Tidy) {key : Key} {type : LockType} {entry : LockEntry}
    (queued : m.phase txn = .queued key type)
    (waiters : entry.waiters = (m.entries key).waiters.filter fun w => w.txnId != txn)
    (exclusion : entry.Exclusion) (entries : m'.entries = Function.update m.entries key entry)
    (graph : m'.graph = m.graph.removeEdgesFor txn)
    (phase : m'.phase = Function.update m.phase txn .out) : m'.Tidy := by
  have others {t : Nat} (different : t ≠ txn) : m'.phase t = m.phase t := by
    rw [phase, Function.update_of_ne different]
  have left {t : Nat} {k : Key} {ty : LockType} (here : m'.phase t = .queued k ty) : t ≠ txn := by
    rintro rfl
    rw [phase, Function.update_self] at here
    cases here
  constructor
  · rw [entries, Function.forall_update_iff m.entries (p := fun _ e => e.Exclusion)]
    exact ⟨exclusion, fun k _ => tidy.exclusion k⟩
  · intro k w member
    rw [entries] at member
    by_cases same : k = key
    · subst same
      rw [Function.update_self, waiters, List.mem_filter] at member
      rw [others (by simpa using member.2)]
      exact tidy.waiting k w member.1
    · rw [Function.update_of_ne same] at member
      have away : w.txnId ≠ txn := by
        intro equal
        have here := tidy.waiting k w member
        rw [equal, queued] at here
        cases here
        exact same rfl
      rw [others away]
      exact tidy.waiting k w member
  · intro t k ty here
    have different := left here
    rw [others different] at here
    have member := tidy.present t k ty here
    rw [entries]
    by_cases same : k = key
    · subst same
      rw [Function.update_self, waiters, List.mem_filter]
      exact ⟨member, by simpa using different⟩
    · rwa [Function.update_of_ne same]
  · rw [entries, Function.forall_update_iff m.entries (p := fun _ e => e.Once)]
    refine ⟨?_, fun k _ => tidy.once k⟩
    unfold LockEntry.Once
    rw [waiters]
    exact (tidy.once key).sublist (List.filter_sublist.map _)
  · intro waiter holder edge
    rw [graph] at edge
    obtain ⟨edge, different, -⟩ := WaitForGraph.edge_removeEdgesFor.mp edge
    rw [others different]
    exact tidy.sources waiter holder edge

theorem join (tidy : m.Tidy) {r : AcquireRequest} (outside : m.phase txn = .out)
    (entries : m'.entries = (m.enqueued txn r).entries)
    (graph : m'.graph = (m.enqueued txn r).graph)
    (phase : m'.phase = Function.update m.phase txn (.queued r.key r.type)) : m'.Tidy := by
  have absent {key : Key} : ∀ w ∈ (m.entries key).waiters, w.txnId ≠ txn :=
    tidy.absent fun key type queued => by simp [outside] at queued
  have entries : m'.entries =
      Function.update m.entries r.key ((m.entries r.key).enqueue txn r.type) := entries
  have own : m'.phase txn = .queued r.key r.type := by rw [phase, Function.update_self]
  have others {t : Nat} (different : t ≠ txn) : m'.phase t = m.phase t := by
    rw [phase, Function.update_of_ne different]
  constructor
  · rw [entries, Function.forall_update_iff m.entries (p := fun _ e => e.Exclusion)]
    exact ⟨(tidy.exclusion r.key).of_subset (List.Subset.refl _), fun k _ => tidy.exclusion k⟩
  · intro key w member
    rw [entries] at member
    by_cases same : key = r.key
    · subst same
      rw [Function.update_self] at member
      rcases List.mem_append.mp member with old | new
      · rw [others (absent w old)]
        exact tidy.waiting r.key w old
      · obtain rfl := List.mem_singleton.mp new
        exact own
    · rw [Function.update_of_ne same] at member
      rw [others (absent w member)]
      exact tidy.waiting key w member
  · intro t key type here
    rw [entries]
    by_cases mine : t = txn
    · subst mine
      rw [own] at here
      cases here
      rw [Function.update_self]
      exact List.mem_append_right _ (List.mem_singleton.mpr rfl)
    · rw [others mine] at here
      have member := tidy.present t key type here
      by_cases same : key = r.key
      · subst same
        rw [Function.update_self]
        exact List.mem_append_left _ member
      · rwa [Function.update_of_ne same]
  · rw [entries, Function.forall_update_iff m.entries (p := fun _ e => e.Once)]
    refine ⟨?_, fun k _ => tidy.once k⟩
    have once := tidy.once r.key
    unfold LockEntry.Once at once ⊢
    rw [LockEntry.enqueue, List.map_append, List.map_singleton]
    refine List.nodup_append.mpr ⟨once, List.nodup_singleton _, ?_⟩
    intro a member b last
    obtain rfl := List.mem_singleton.mp last
    obtain ⟨w, held, rfl⟩ := List.mem_map.mp member
    exact absent w held
  · intro waiter holder edge
    rw [graph] at edge
    by_cases mine : waiter = txn
    · exact ⟨r.key, r.type, mine ▸ own⟩
    · rcases WaitForGraph.edge_addEdges.mp edge with ⟨same, -⟩ | old
      · exact absurd same mine
      · rw [others mine]
        exact tidy.sources waiter holder old

theorem change (tidy : m.Tidy) {action : LockAction} (changed : Change m action m') : m'.Tidy := by
  cases changed with
  | quiet entries graph phase =>
      refine tidy.still (fun key => by rw [entries]) (fun key => entries ▸ tidy.exclusion key)
        (fun t key type => by rw [phase]) (fun waiter holder edge => graph ▸ edge)
  | releasing txn out entries graph phase =>
      refine tidy.still (fun key => by rw [entries]) (fun key => entries ▸ tidy.exclusion key)
        (fun t key type => ?_) (fun waiter holder edge => graph ▸ edge)
      by_cases same : t = txn
      · simp [phase, same, out]
      · rw [phase, Function.update_of_ne same]
  | grant txn key type out granted entries graph phase =>
      refine tidy.still ?_ ?_ (fun t key type => by rw [phase])
        (fun waiter holder edge => graph ▸ edge)
      · intro k
        rw [entries]
        by_cases same : k = key
        · subst same
          rw [Function.update_self]
          rfl
        · rw [Function.update_of_ne same]
      · rw [entries, Function.forall_update_iff m.entries (p := fun _ e => e.Exclusion)]
        exact ⟨(tidy.exclusion key).grant granted, fun k _ => tidy.exclusion k⟩
  | wait txn r taken call entries graph phase =>
      exact tidy.join (phase_eq call) entries graph phase
  | refuse txn r taken call entries graph phase =>
      rw [tidy.refused call] at entries
      refine tidy.still (fun key => by rw [entries]) (fun key => entries ▸ tidy.exclusion key)
        (fun t key type => by rw [phase]) (fun waiter holder edge => ?_)
      rw [graph] at edge
      obtain ⟨edge, different, -⟩ := WaitForGraph.edge_removeEdgesFor.mp edge
      rcases WaitForGraph.edge_addEdges.mp edge with ⟨same, -⟩ | old
      · exact absurd same different
      · exact old
  | leave txn key type taken queued entries graph phase =>
      exact tidy.depart queued (tidy.once key).removeWaiter (tidy.exclusion key) entries graph phase
  | wake txn key type taken queued granted entries graph phase =>
      exact tidy.depart queued ((tidy.once key).wake granted (tidy.present txn key type queued))
        ((tidy.exclusion key).grant granted) entries graph phase
  | release txn key taken caller entries graph phase =>
      refine tidy.still ?_ ?_ (fun t key type => by rw [phase])
        (fun waiter holder edge => graph ▸ edge)
      · intro k
        rw [entries]
        by_cases same : k = key
        · subst same
          rw [Function.update_self]
          rfl
        · rw [Function.update_of_ne same]
      · rw [entries, Function.forall_update_iff m.entries (p := fun _ e => e.Exclusion)]
        exact ⟨(tidy.exclusion key).of_subset (List.filter_subset_self _), fun k _ => tidy.exclusion k⟩
  | forget txn releasing entries graph phase =>
      refine tidy.still (fun key => by rw [entries]) (fun key => entries ▸ tidy.exclusion key)
        (fun t key type => ?_) (fun waiter holder edge => ?_)
      · by_cases same : t = txn
        · simp [phase, same, releasing]
        · rw [phase, Function.update_of_ne same]
      · rw [graph] at edge
        exact (WaitForGraph.edge_removeEdgesFor.mp edge).1

end Tidy

variable {m : LockManager} {relock : Relock} {guard : LockManager → LockAction → Prop}

theorem tidy_of_run (run : Run (step relock) guard {} m) : m.Orderly ∧ m.Tidy :=
  run.invariant (p := fun m => m.Orderly ∧ m.Tidy)
    (fun _ _ _ _ stepped both =>
      ⟨(both.1.step stepped).1, both.2.change (both.1.step stepped).2⟩)
    ⟨.initial, .initial⟩

/-- The thread of the transaction is blocked in an `Acquire` of the key. -/
def BlockedIn (m : LockManager) (txn : Nat) (key : Key) : Prop :=
  ∃ r stage, m.calls txn = some (.acquire r stage) ∧ stage.waits ∧ r.key = key

theorem blockedIn_of_queued {txn : Nat} {key : Key} {type : LockType}
    (queued : m.phase txn = .queued key type) : m.BlockedIn txn key := by
  cases here : m.calls txn with
  | none => simp [phase, here] at queued
  | some call =>
      rw [phase_eq here] at queued
      unfold Call.phase at queued
      split at queued
      · rename_i r stage
        split at queued
        · rename_i waits
          cases queued
          exact ⟨r, stage, here, waits, rfl⟩
        · cases queued
      all_goals cases queued

/-- In every state, whatever the order of the steps: an exclusive lock has one holder, and the queue
of a key lists blocked transactions, each once. -/
theorem exclusion_of_run (run : Run (step relock) free {} m) (key : Key) :
    (∀ h ∈ (m.entries key).holders, h.type = .kExclusiveLock →
      ∀ other ∈ (m.entries key).holders, other.txnId = h.txnId) ∧
    (∀ w ∈ (m.entries key).waiters, m.BlockedIn w.txnId key) ∧
    ((m.entries key).waiters.map LockRequest.txnId).Nodup := by
  obtain ⟨-, tidy⟩ := tidy_of_run run
  refine ⟨tidy.exclusion key, ?_, tidy.once key⟩
  intro w member
  exact blockedIn_of_queued (tidy.waiting key w member)

def pointCall (txn : Nat) (key : Key) (op : PointOp) (steps : Nat) : List LockAction :=
  .point txn key op :: List.replicate steps (.proceed txn)

def oneWaiting : List LockAction :=
  pointCall 1 [107] (.acquire .kExclusiveLock 10) 5 ++
    pointCall 2 [107] (.acquire .kSharedLock 10) 6

theorem exclusion_of_run_oneWaiting : ∃ m, execute (step .blocks) {} oneWaiting = some m ∧
    m.entries [107] = ⟨[⟨1, .kExclusiveLock⟩], [⟨2, .kSharedLock⟩]⟩ ∧
    (∀ w ∈ (m.entries [107]).waiters, m.BlockedIn w.txnId [107]) := by
  obtain ⟨m, executed⟩ : ∃ m, execute (step .blocks) {} oneWaiting = some m :=
    Option.isSome_iff_exists.mp (by decide +kernel)
  have run := execute_run _ (allowed_free _ _ _) executed
  have shape : (execute (step .blocks) {} oneWaiting).map (fun m => m.entries [107]) =
      some ⟨[⟨1, .kExclusiveLock⟩], [⟨2, .kSharedLock⟩]⟩ := by decide +kernel
  rw [executed] at shape
  exact ⟨m, executed, Option.some.inj shape, (exclusion_of_run run [107]).2.1⟩

end LockManager
end Lrdb
