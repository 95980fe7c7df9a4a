import Lrdb.Concurrency.LockQueue

namespace Lrdb
open Runs Relation

namespace LockEntry

/-- The transaction `waiter` is queued and `other` holds a lock that conflicts with its request. -/
def HeldUp (entry : LockEntry) (waiter other : Nat) : Prop :=
  ∃ type, ⟨waiter, type⟩ ∈ entry.waiters ∧
    ∃ h ∈ entry.holders, h.txnId = other ∧ ¬ compatible h.type type

/-- The transaction `other` is queued ahead of `waiter`. -/
def Behind (entry : LockEntry) (waiter other : Nat) : Prop :=
  ∃ type type', [⟨other, type'⟩, ⟨waiter, type⟩].Sublist entry.waiters

variable {entry after : LockEntry} {waiter other : Nat}

theorem HeldUp.mono (heldUp : after.HeldUp waiter other) (waiters : after.waiters ⊆ entry.waiters)
    (holders : ∀ h ∈ after.holders, h.txnId = other → h ∈ entry.holders) :
    entry.HeldUp waiter other := by
  obtain ⟨type, member, h, held, owner, conflict⟩ := heldUp
  exact ⟨type, waiters member, h, holders h held owner, owner, conflict⟩

theorem Behind.mono (behind : after.Behind waiter other)
    (waiters : after.waiters.Sublist entry.waiters) : entry.Behind waiter other := by
  obtain ⟨type, type', sub⟩ := behind
  exact ⟨type, type', sub.trans waiters⟩

theorem HeldUp.queued (heldUp : entry.HeldUp waiter other) :
    ∃ type, ⟨waiter, type⟩ ∈ entry.waiters := by
  obtain ⟨type, member, -⟩ := heldUp
  exact ⟨type, member⟩

theorem Behind.queued (behind : entry.Behind waiter other) :
    (∃ type, ⟨waiter, type⟩ ∈ entry.waiters) ∧ ∃ type, ⟨other, type⟩ ∈ entry.waiters := by
  obtain ⟨type, type', sub⟩ := behind
  have both := sub.subset
  exact ⟨⟨type, both (by simp)⟩, ⟨type', both (by simp)⟩⟩

theorem Behind.enqueue {txn : Nat} {type : LockType}
    (behind : (entry.enqueue txn type).Behind waiter other) :
    entry.Behind waiter other ∨ waiter = txn ∧ ∃ type, ⟨other, type⟩ ∈ entry.waiters := by
  obtain ⟨type₁, type₂, sub⟩ := behind
  rw [LockEntry.enqueue, ← List.reverse_sublist, List.reverse_append] at sub
  simp only [List.reverse_cons, List.reverse_nil, List.nil_append, List.cons_append] at sub
  rcases List.sublist_cons_iff.mp sub with old | ⟨rest, shape, old⟩
  · refine .inl ⟨type₁, type₂, ?_⟩
    rw [← List.reverse_sublist]
    simpa using old
  · obtain ⟨first, rfl⟩ := List.cons.inj shape
    cases first
    exact .inr ⟨rfl, type₂, List.mem_reverse.mp (old.subset (by simp))⟩

end LockEntry

namespace LockManager

def HeldUp (m : LockManager) (waiter other : Nat) : Prop :=
  waiter ≠ other ∧ ∃ key, (m.entries key).HeldUp waiter other

def WaitsFor (m : LockManager) (waiter other : Nat) : Prop :=
  waiter ≠ other ∧ ∃ key,
    (m.entries key).HeldUp waiter other ∨ (m.entries key).Behind waiter other

def Queued (m : LockManager) (txn : Nat) : Prop := ∃ key type, m.phase txn = .queued key type

variable {m m' : LockManager} {txn waiter other : Nat}

theorem HeldUp.waitsFor (heldUp : m.HeldUp waiter other) : m.WaitsFor waiter other := by
  obtain ⟨different, key, here⟩ := heldUp
  exact ⟨different, key, .inl here⟩

theorem Tidy.queued (tidy : m.Tidy) {key : Key} {type : LockType}
    (member : ⟨txn, type⟩ ∈ (m.entries key).waiters) : m.Queued txn :=
  ⟨key, type, tidy.waiting key _ member⟩

theorem WaitsFor.queued (waits : m.WaitsFor waiter other) (tidy : m.Tidy) : m.Queued waiter := by
  obtain ⟨-, key, heldUp | behind⟩ := waits
  · obtain ⟨type, member⟩ := heldUp.queued
    exact tidy.queued member
  · obtain ⟨type, member⟩ := behind.queued.1
    exact tidy.queued member

theorem WaitsFor.enqueued (tidy : m.Tidy) {r : AcquireRequest}
    (waits : (m.enqueued txn r).WaitsFor waiter other) : waiter = txn ∨ m.Queued waiter := by
  obtain ⟨key, type, member⟩ : ∃ key type,
      ⟨waiter, type⟩ ∈ ((m.enqueued txn r).entries key).waiters := by
    obtain ⟨-, key, heldUp | behind⟩ := waits
    · exact ⟨key, heldUp.queued⟩
    · exact ⟨key, behind.queued.1⟩
  by_cases same : key = r.key
  · subst same
    have entry : (m.enqueued txn r).entries r.key = (m.entries r.key).enqueue txn r.type :=
      Function.update_self ..
    rw [entry] at member
    rcases List.mem_append.mp member with old | new
    · exact .inr (tidy.queued old)
    · cases List.mem_singleton.mp new
      exact .inl rfl
  · have entry : (m.enqueued txn r).entries key = m.entries key := Function.update_of_ne same ..
    rw [entry] at member
    exact .inr (tidy.queued member)

theorem not_queued (out : m.phase txn = .out) : ¬ m.Queued txn := by
  rintro ⟨key, type, queued⟩
  rw [out] at queued
  cases queued

theorem WaitsFor.mono (waits : m'.WaitsFor waiter other)
    (waiters : ∀ key, (m'.entries key).waiters.Sublist (m.entries key).waiters)
    (holders : ∀ key, ∀ h ∈ (m'.entries key).holders, h.txnId = other →
      h ∈ (m.entries key).holders) : m.WaitsFor waiter other := by
  obtain ⟨different, key, heldUp | behind⟩ := waits
  · exact ⟨different, key, .inl (heldUp.mono (waiters key).subset (holders key))⟩
  · exact ⟨different, key, .inr (behind.mono (waiters key))⟩

/-! ## Waits and edges -/

def Linked (m : LockManager) : Prop :=
  ∀ waiter other, m.WaitsFor waiter other → m.Queued other → m.graph.Edge waiter other

/-- A transaction joins a queue only behind holders of the key, and only while everyone who waits
for it is still linked to it. -/
def Detectable (m : LockManager) : LockAction → Prop
  | .proceed txn => ∀ r, m.calls txn = some (.acquire r .queue) →
      (∀ w ∈ (m.entries r.key).waiters, (m.entries r.key).HeldBy w.txnId) ∧
        ∀ waiter, m.WaitsFor waiter txn → m.graph.Edge waiter txn
  | _ => True

theorem Linked.enqueued (linked : m.Linked) (tidy : m.Tidy) {r : AcquireRequest}
    (here : m.calls txn = some (.acquire r .queue)) (detectable : m.Detectable (.proceed txn))
    (waits : (m.enqueued txn r).WaitsFor waiter other) (queued : other = txn ∨ m.Queued other) :
    (m.enqueued txn r).graph.Edge waiter other := by
  obtain ⟨holding, complete⟩ := detectable r here
  have out : ¬ m.Queued txn := not_queued (phase_eq here)
  have absent {key : Key} {type : LockType} : ⟨txn, type⟩ ∉ (m.entries key).waiters :=
    fun member => out (tidy.queued member)
  have held (h : (m.entries r.key).HeldBy other) :
      other ∈ (m.entries r.key).holders.map LockRequest.txnId :=
    List.mem_map.mpr h
  have ordinary (before : m.WaitsFor waiter other) : (m.enqueued txn r).graph.Edge waiter other := by
    refine WaitForGraph.edge_addEdges.mpr (.inr ?_)
    rcases queued with rfl | queued
    · exact complete waiter before
    · exact linked waiter other before queued
  obtain ⟨different, key, waits⟩ := waits
  by_cases same : key = r.key
  · subst same
    have entry : (m.enqueued txn r).entries r.key = (m.entries r.key).enqueue txn r.type :=
      Function.update_self ..
    rw [entry] at waits
    rcases waits with ⟨type, member, h, holds, rfl, conflict⟩ | behind
    · rcases List.mem_append.mp member with old | new
      · exact ordinary ⟨different, r.key, .inl ⟨type, old, h, holds, rfl, conflict⟩⟩
      · cases List.mem_singleton.mp new
        exact WaitForGraph.edge_addEdges.mpr (.inl ⟨rfl, held ⟨h, holds, rfl⟩⟩)
    · rcases behind.enqueue with behind | ⟨rfl, type, ahead⟩
      · exact ordinary ⟨different, r.key, .inr behind⟩
      · exact WaitForGraph.edge_addEdges.mpr (.inl ⟨rfl, held (holding _ ahead)⟩)
  · have entry : (m.enqueued txn r).entries key = m.entries key := Function.update_of_ne same ..
    rw [entry] at waits
    exact ordinary ⟨different, key, waits⟩

theorem Linked.of_fewer (linked : m.Linked) (tidy' : m'.Tidy)
    (waits : ∀ a b, m'.WaitsFor a b → m'.Queued b → m.WaitsFor a b)
    (queued : ∀ t, m'.Queued t → m.Queued t)
    (edges : ∀ a b, m'.Queued a → m'.Queued b → m.graph.Edge a b → m'.graph.Edge a b) :
    m'.Linked := by
  intro waiter other here stays
  have before := linked waiter other (waits waiter other here stays) (queued other stays)
  exact edges waiter other (here.queued tidy') stays before

theorem queued_update {p : Phase} (phase : m'.phase = Function.update m.phase txn p)
    (outside : ∀ key type, p ≠ .queued key type) {t : Nat} (queued : m'.Queued t) :
    t ≠ txn ∧ m.Queued t := by
  obtain ⟨key, type, here⟩ := queued
  by_cases same : t = txn
  · rw [same, phase, Function.update_self] at here
    exact absurd here (outside key type)
  · rw [phase, Function.update_of_ne same] at here
    exact ⟨same, key, type, here⟩

theorem WaitsFor.update (waits : m'.WaitsFor waiter other) {key : Key} {entry : LockEntry}
    (entries : m'.entries = Function.update m.entries key entry)
    (waiters : entry.waiters.Sublist (m.entries key).waiters)
    (holders : ∀ h ∈ entry.holders, h.txnId = other → h ∈ (m.entries key).holders) :
    m.WaitsFor waiter other := by
  refine waits.mono ?_ ?_
  · rw [entries, Function.forall_update_iff m.entries
      (p := fun k e => e.waiters.Sublist (m.entries k).waiters)]
    exact ⟨waiters, fun k _ => List.Sublist.refl _⟩
  · rw [entries, Function.forall_update_iff m.entries
      (p := fun k e => ∀ h ∈ e.holders, h.txnId = other → h ∈ (m.entries k).holders)]
    exact ⟨holders, fun k _ h held _ => held⟩

theorem Linked.departed (linked : m.Linked) (tidy' : m'.Tidy) {key : Key} {entry : LockEntry}
    (waiters : entry.waiters = (m.entries key).waiters.filter fun w => w.txnId != txn)
    (holders : ∀ h ∈ entry.holders, h.txnId ≠ txn → h ∈ (m.entries key).holders)
    (entries : m'.entries = Function.update m.entries key entry)
    (graph : m'.graph = m.graph.removeEdgesFor txn)
    (phase : m'.phase = Function.update m.phase txn .out) : m'.Linked := by
  have left {t : Nat} (queued : m'.Queued t) := queued_update phase (by rintro _ _ ⟨⟩) queued
  refine linked.of_fewer tidy' ?_ (fun t queued => (left queued).2) ?_
  · intro a b waits stays
    refine waits.update entries (waiters ▸ List.filter_sublist) fun h held owner => ?_
    exact holders h held (owner ▸ (left stays).1)
  · intro a b ha hb edge
    rw [graph]
    exact WaitForGraph.edge_removeEdgesFor.mpr ⟨edge, (left ha).1, (left hb).1⟩

theorem Linked.change (linked : m.Linked) (tidy : m.Tidy) {action : LockAction}
    (detectable : m.Detectable action) (changed : Change m action m') : m'.Linked := by
  have tidy' := tidy.change changed
  have unchanged (entries : m'.entries = m.entries) :
      ∀ a b, m'.WaitsFor a b → m'.Queued b → m.WaitsFor a b := by
    intro a b waits _
    exact waits.mono (fun key => entries ▸ List.Sublist.refl _) (fun key h held _ => entries ▸ held)
  cases changed with
  | quiet entries graph phase =>
      refine linked.of_fewer tidy' (unchanged entries) ?_ ?_
      · intro t queued
        rwa [Queued, phase] at queued
      · intro a b _ _ edge
        exact graph ▸ edge
  | releasing txn out entries graph phase =>
      refine linked.of_fewer tidy' (unchanged entries) ?_ ?_
      · intro t queued
        exact (queued_update phase (by rintro _ _ ⟨⟩) queued).2
      · intro a b _ _ edge
        exact graph ▸ edge
  | grant txn key type out granted entries graph phase =>
      have same {t : Nat} (queued : m'.Queued t) : m.Queued t := by rwa [Queued, phase] at queued
      refine linked.of_fewer tidy' ?_ (fun t => same) ?_
      · intro a b waits stays
        refine waits.update entries (List.Sublist.refl _) fun h held owner => ?_
        refine (List.mem_append.mp held).resolve_right fun new => not_queued out ?_
        obtain rfl := List.mem_singleton.mp new
        have granted : txn = b := owner
        exact granted ▸ same stays
      · intro a b _ _ edge
        exact graph ▸ edge
  | wait txn r taken call entries graph phase =>
      subst taken
      intro a b waits stays
      have waits : (m.enqueued txn r).WaitsFor a b := by rwa [WaitsFor, entries] at waits
      rw [graph]
      refine linked.enqueued tidy call detectable waits ?_
      by_cases mine : b = txn
      · exact .inl mine
      · obtain ⟨key, type, here⟩ := stays
        rw [phase, Function.update_of_ne mine] at here
        exact .inr ⟨key, type, here⟩
  | refuse txn r taken call entries graph phase =>
      rw [tidy.refused call] at entries
      have same {t : Nat} (queued : m'.Queued t) : m.Queued t := by rwa [Queued, phase] at queued
      have out : ¬ m.Queued txn := not_queued (phase_eq call)
      refine linked.of_fewer tidy' (unchanged entries) (fun t => same) ?_
      intro a b ha hb edge
      rw [graph]
      refine WaitForGraph.edge_removeEdgesFor.mpr ⟨WaitForGraph.edge_addEdges.mpr (.inr edge), ?_, ?_⟩
      · rintro rfl
        exact out (same ha)
      · rintro rfl
        exact out (same hb)
  | leave txn key type taken departs entries graph phase =>
      exact linked.departed tidy' (tidy.once key).removeWaiter (fun h held _ => held) entries graph
        phase
  | wake txn key type taken departs granted entries graph phase =>
      refine linked.departed tidy'
        ((tidy.once key).wake granted (tidy.present txn key type departs)) ?_ entries graph phase
      intro h held different
      exact (List.mem_append.mp held).resolve_right fun new =>
        different (List.mem_singleton.mp new ▸ rfl)
  | release txn key taken caller entries graph phase =>
      refine linked.of_fewer tidy' ?_ ?_ ?_
      · intro a b waits _
        refine waits.update entries (List.Sublist.refl _) fun h held _ => ?_
        exact (List.mem_filter.mp held).1
      · intro t queued
        rwa [Queued, phase] at queued
      · intro a b _ _ edge
        exact graph ▸ edge
  | forget txn releasing entries graph phase =>
      have left {t : Nat} (queued : m'.Queued t) := queued_update phase (by rintro _ _ ⟨⟩) queued
      refine linked.of_fewer tidy' (unchanged entries) (fun t queued => (left queued).2) ?_
      intro a b ha hb edge
      rw [graph]
      exact WaitForGraph.edge_removeEdgesFor.mpr ⟨edge, (left ha).1, (left hb).1⟩

/-! ## The request that closes a cycle -/

/-- The request closes no cycle, or its call returns the abort, or the next search of a detector
chooses a transaction of the cycle. -/
def CycleCaught (m : LockManager) (txn : Nat) (r : AcquireRequest) (m' : LockManager) : Prop :=
  TransGen (m.enqueued txn r).WaitsFor txn txn →
    m'.calls txn = none ∧ m'.returned txn = some (.aborted "Deadlock detected") ∨
      ∃ victim, m'.graph.detectCycle = some victim ∧ TransGen m'.WaitsFor txn victim ∧
        TransGen m'.WaitsFor victim txn

theorem queueStep_refuses (tidy : m.Tidy) {r : AcquireRequest}
    (here : m.calls txn = some (.acquire r .queue))
    (cycle : TransGen (m.enqueued txn r).graph.Edge txn txn) :
    (m.queueStep txn r).calls txn = none ∧
      (m.queueStep txn r).returned txn = some (.aborted "Deadlock detected") := by
  have found : (m.entries r.key).holders.any fun h =>
      (m.enqueued txn r).graph.wouldCreateCycle txn h.txnId := by
    obtain ⟨holder, edge, -⟩ := TransGen.head'_iff.mp cycle
    rcases WaitForGraph.edge_addEdges.mp edge with ⟨-, member⟩ | old
    · obtain ⟨h, held, -⟩ := List.mem_map.mp member
      refine List.any_eq_true.mpr ⟨h, held, ?_⟩
      exact WaitForGraph.wouldCreateCycle_iff.mpr ⟨txn, .refl, cycle⟩
    · exact absurd (tidy.sources txn holder old) (not_queued (phase_eq here))
  unfold queueStep
  dsimp only
  rw [if_pos found]
  exact ⟨Function.update_self .., Function.update_self ..⟩

variable {relock : Relock}

theorem linked_of_run (run : Run (step relock) Detectable {} m) :
    (m.Orderly ∧ m.Tidy) ∧ m.Linked := by
  refine run.invariant (p := fun m => (m.Orderly ∧ m.Tidy) ∧ m.Linked) ?_
    ⟨⟨.initial, .initial⟩, ?_⟩
  · rintro m action m' detectable stepped ⟨⟨orderly, tidy⟩, linked⟩
    obtain ⟨orderly', changed⟩ := orderly.step stepped
    exact ⟨⟨orderly', tidy.change changed⟩, linked.change tidy detectable changed⟩
  · rintro waiter other ⟨-, key, waits⟩ ⟨k, type, queued⟩
    cases queued

/-- Where transactions join a queue only behind holders, and nobody has lost the edges to it that
waits again, the request that closes a cycle is refused. -/
theorem cycleCaught_of_run (run : Run (step relock) Detectable {} m) {r : AcquireRequest}
    (here : m.calls txn = some (.acquire r .queue)) (detectable : m.Detectable (.proceed txn))
    (stepped : m.step relock (.proceed txn) = some m') : m.CycleCaught txn r m' := by
  obtain ⟨⟨-, tidy⟩, linked⟩ := linked_of_run run
  intro cycle
  obtain ⟨call, found, stepped⟩ := Option.bind_eq_some_iff.mp stepped
  obtain rfl := Option.some.inj (here.symm.trans found)
  obtain ⟨-, rfl⟩ := locking_eq_some.mp stepped
  refine .inl (queueStep_refuses tidy here ?_)
  refine DepthFirst.cycle_lift ?_ cycle
  rintro a b waits ⟨c, onward⟩
  exact linked.enqueued tidy here detectable waits (WaitsFor.enqueued tidy onward)

/-- A test for `Detectable` that asks for more: everyone who is queued is linked to the request. -/
def detectableNow (m : LockManager) : LockAction → Bool
  | .proceed txn =>
      match m.calls txn with
      | some (.acquire r .queue) =>
          (m.entries r.key).waiters.isEmpty && m.callers.all fun caller =>
            match caller with
            | .transaction t =>
                match m.phase t with
                | .queued _ _ => decide (m.graph.Edge t txn)
                | _ => true
            | .detector _ => true
      | _ => true
  | _ => true

theorem detectable_of_now (orderly : m.Orderly) (tidy : m.Tidy) {action : LockAction}
    (now : m.detectableNow action) : m.Detectable action := by
  cases action with
  | proceed txn =>
      intro r here
      simp only [detectableNow, here, Bool.and_eq_true, List.isEmpty_iff, List.all_eq_true] at now
      refine ⟨by simp [now.1], fun waiter waits => ?_⟩
      obtain ⟨key, type, queued⟩ := waits.queued tidy
      have busy : m.calls waiter ≠ none := fun none => by simp [phase, none] at queued
      have test := now.2 _ (orderly.listed waiter busy)
      simpa only [queued, decide_eq_true_eq] using test
  | _ => trivial

theorem detectable_run {actions : List LockAction} {relock : Relock}
    (allowed : Allowed (step relock) (fun m a => m.detectableNow a) {} actions)
    (executed : execute (step relock) {} actions = some m) : Run (step relock) Detectable {} m := by
  refine (execute_run actions allowed executed).guarded (p := fun m => m.Orderly ∧ m.Tidy) ?_
    (fun _ _ both now => detectable_of_now both.1 both.2 now) ⟨.initial, .initial⟩
  rintro m action m' - stepped ⟨orderly, tidy⟩
  obtain ⟨orderly', changed⟩ := orderly.step stepped
  exact ⟨orderly', tidy.change changed⟩

def waitingForFirst : List LockAction :=
  pointCall 1 [97] (.acquire .kExclusiveLock 10) 5 ++
    pointCall 2 [98] (.acquire .kExclusiveLock 10) 5 ++
    pointCall 2 [97] (.acquire .kExclusiveLock 10) 6

def closingRequest : List LockAction :=
  waitingForFirst ++ pointCall 1 [98] (.acquire .kExclusiveLock 10) 4

theorem cycleCaught_of_run_closingRequest : ∃ m m',
    execute (step .blocks) {} closingRequest = some m ∧ m.step .blocks (.proceed 1) = some m' ∧
      m.CycleCaught 1 ⟨[98], .kExclusiveLock, 10⟩ m' := by
  obtain ⟨m, executed⟩ : ∃ m, execute (step .blocks) {} closingRequest = some m :=
    Option.isSome_iff_exists.mp (by decide +kernel)
  have run : Run (step .blocks) Detectable {} m := detectable_run (by decide +kernel) executed
  have facts : (execute (step .blocks) {} closingRequest).map (fun m =>
      (m.calls 1, (m.step .blocks (.proceed 1)).isSome, m.detectableNow (.proceed 1))) =
      some (some (.acquire ⟨[98], .kExclusiveLock, 10⟩ .queue), true, true) := by decide +kernel
  rw [executed, Option.map_some, Option.some.injEq, Prod.mk.injEq, Prod.mk.injEq] at facts
  obtain ⟨here, enabled, now⟩ := facts
  obtain ⟨m', stepped⟩ := Option.isSome_iff_exists.mp enabled
  obtain ⟨⟨orderly, tidy⟩, -⟩ := linked_of_run run
  exact ⟨m, m', executed, stepped,
    cycleCaught_of_run run here (detectable_of_now orderly tidy now) stepped⟩

def forgottenWait : List LockAction :=
  waitingForFirst ++ pointCall 3 [99] (.acquire .kExclusiveLock 10) 5 ++
    pointCall 1 [99] (.acquire .kExclusiveLock 10) 6 ++ [.expire 1] ++
    List.replicate 4 (.proceed 1) ++ pointCall 1 [98] (.acquire .kExclusiveLock 10) 4

theorem cycleCaught_fails_forgottenWait :
    ¬ ∀ (m m' : LockManager) (txn : Nat) (r : AcquireRequest),
      Run (step .blocks) free {} m → m.calls txn = some (.acquire r .queue) →
        m.step .blocks (.proceed txn) = some m' → m.CycleCaught txn r m' := by
  intro always
  obtain ⟨m, executed⟩ : ∃ m, execute (step .blocks) {} forgottenWait = some m :=
    Option.isSome_iff_exists.mp (by decide +kernel)
  have run := execute_run _ (allowed_free _ _ _) executed
  have facts : (execute (step .blocks) {} forgottenWait).map (fun m =>
      (m.calls 1, (m.step .blocks (.proceed 1)).map fun m' =>
        (m'.calls 1, m'.graph.detectCycle))) =
      some (some (.acquire ⟨[98], .kExclusiveLock, 10⟩ .queue),
        some (some (.acquire ⟨[98], .kExclusiveLock, 10⟩ (.evaluate false)), none)) := by
    decide +kernel
  have shape : (execute (step .blocks) {} forgottenWait).map (fun m =>
      ((m.enqueued 1 ⟨[98], .kExclusiveLock, 10⟩).entries [97],
        (m.enqueued 1 ⟨[98], .kExclusiveLock, 10⟩).entries [98])) =
      some (⟨[⟨1, .kExclusiveLock⟩], [⟨2, .kExclusiveLock⟩]⟩,
        ⟨[⟨2, .kExclusiveLock⟩], [⟨1, .kExclusiveLock⟩]⟩) := by decide +kernel
  rw [executed, Option.map_some, Option.some.injEq, Prod.mk.injEq] at facts shape
  obtain ⟨here, next⟩ := facts
  obtain ⟨m', stepped, next⟩ := Option.map_eq_some_iff.mp next
  rw [Prod.mk.injEq] at next
  have first : (m.enqueued 1 ⟨[98], .kExclusiveLock, 10⟩).WaitsFor 1 2 := by
    refine HeldUp.waitsFor ⟨by decide, [98], ?_⟩
    rw [shape.2]
    exact ⟨.kExclusiveLock, by simp, ⟨2, .kExclusiveLock⟩, by simp, rfl, by decide⟩
  have second : (m.enqueued 1 ⟨[98], .kExclusiveLock, 10⟩).WaitsFor 2 1 := by
    refine HeldUp.waitsFor ⟨by decide, [97], ?_⟩
    rw [shape.1]
    exact ⟨.kExclusiveLock, by simp, ⟨1, .kExclusiveLock⟩, by simp, rfl, by decide⟩
  rcases always m m' 1 _ run here stepped (.tail (.single first) second) with
    ⟨returned, -⟩ | ⟨victim, found, -⟩
  · rw [next.1] at returned
    cases returned
  · rw [next.2] at found
    cases found

end LockManager
end Lrdb
