import Lrdb.Base.Runs
import Lrdb.Concurrency.LockCalls

namespace Lrdb

inductive Phase where
  | out
  | queued (key : Key) (type : LockType)
  | releasing
  deriving DecidableEq

def AcquireStage.waits : AcquireStage → Bool
  | .evaluate _ | .asleep | .retake _ | .settle _ | .leave _ => true
  | _ => false

def Call.phase : Call → Phase
  | .acquire r stage => if stage.waits then .queued r.key r.type else .out
  | .releaseAll .gather | .releaseAll (.entries _) => .releasing
  | _ => .out

def Call.granting : Call → Option AcquireRequest
  | .acquire r (.settle true) | .acquire r (.leave .granted) => some r
  | _ => none

def Call.spared : Call → Bool
  | .acquire _ (.leave .victim) | .tryAcquire _ _ .unmark => false
  | _ => true

namespace LockManager

def phase (m : LockManager) (txn : Nat) : Phase := ((m.calls txn).map Call.phase).getD .out

structure Orderly (m : LockManager) : Prop where
  listed : ∀ txn, m.calls txn ≠ none → .transaction txn ∈ m.callers
  apart : ∀ a b mutex, mutex ∈ m.heldBy a → mutex ∈ m.heldBy b → a = b
  searching : ∀ id d, m.detections id = some d → d = .detect
  unmarked : m.aborted = []
  spared : ∀ txn call, m.calls txn = some call → call.spared
  acyclic : m.graph.Acyclic
  ready : ∀ txn call r, m.calls txn = some call → call.granting = some r →
    .entry r.key ∈ call.held ∧ (m.entries r.key).canGrant txn r.type

variable {m m' : LockManager} {txn : Nat} {call : Call}

@[simp] theorem calls_goto (m : LockManager) (txn : Nat) (next : Call) :
    (m.goto txn next).calls txn = some next := Function.update_self ..

@[simp] theorem calls_finish (m : LockManager) (txn : Nat) (status : Status) :
    (m.finish txn status).calls txn = none := Function.update_self ..

@[simp] theorem returned_finish (m : LockManager) (txn : Nat) (status : Status) :
    (m.finish txn status).returned txn = some status := Function.update_self ..

theorem locking_eq_some {relock : Relock} {caller : Caller} {mutex : Mutex} {after : LockManager} :
    m.locking relock caller mutex after = some m' ↔
      m.canLock relock caller mutex ∧ after = m' := by
  unfold locking
  split <;> simp_all

theorem heldBy_transaction (here : m.calls txn = some call) :
    m.heldBy (.transaction txn) = call.held := by
  simp [heldBy, here]

theorem phase_eq (here : m.calls txn = some call) : m.phase txn = call.phase := by
  simp [phase, here]

namespace Orderly

theorem calls_of_held (orderly : m.Orderly) {caller : Caller} {mutex : Mutex}
    (held : mutex ∈ m.heldBy caller) : ∃ txn, caller = .transaction txn ∧ m.calls txn ≠ none := by
  cases caller with
  | transaction txn =>
      refine ⟨txn, rfl, fun none => ?_⟩
      simp [heldBy, none] at held
  | detector id =>
      cases here : m.detections id with
      | none => simp [heldBy, here] at held
      | some d =>
          obtain rfl := orderly.searching id d here
          simp [heldBy, here, Detection.held] at held

theorem eq_of_canLock (orderly : m.Orderly) {relock : Relock} {caller other : Caller} {mutex : Mutex}
    (free : m.canLock relock caller mutex) (held : mutex ∈ m.heldBy other) : other = caller := by
  obtain ⟨txn, rfl, busy⟩ := orderly.calls_of_held held
  have test := List.all_eq_true.mp free _ (orderly.listed txn busy)
  simp only [Bool.or_eq_true, Bool.not_eq_true', Bool.and_eq_true, beq_iff_eq] at test
  rcases test with notHeld | ⟨same, -⟩
  · rw [List.contains_iff_mem.mpr held] at notHeld
    cases notHeld
  · exact same

theorem initial : Orderly {} where
  listed := by simp
  apart := by
    intro a b mutex held
    cases a <;> simp [heldBy] at held
  searching := by simp
  unmarked := rfl
  spared := by simp
  acyclic := WaitForGraph.acyclic_nil
  ready := by simp

theorem change (orderly : m.Orderly) (relock : Relock) {next : Option Call}
    (calls : m'.calls = Function.update m.calls txn next) (detections : m'.detections = m.detections)
    (callers : ∀ caller, caller ∈ m.callers ∨ caller = .transaction txn ∧ next ≠ none →
      caller ∈ m'.callers)
    (unmarked : m'.aborted = []) (spared : ∀ after ∈ next, after.spared)
    (acyclic : m'.graph.Acyclic)
    (held : ∀ after ∈ next, ∀ mutex ∈ after.held,
      mutex ∈ m.heldBy (.transaction txn) ∨ m.canLock relock (.transaction txn) mutex)
    (entries : ∀ key, m'.entries key = m.entries key ∨
      .entry key ∈ m.heldBy (.transaction txn) ∨ m.canLock relock (.transaction txn) (.entry key))
    (ready : ∀ after ∈ next, ∀ r ∈ after.granting,
      .entry r.key ∈ after.held ∧ (m'.entries r.key).canGrant txn r.type) : m'.Orderly := by
  have old {other : Caller} (different : other ≠ .transaction txn) :
      m'.heldBy other = m.heldBy other := by
    cases other with
    | transaction other =>
        have apart : other ≠ txn := fun same => different (same ▸ rfl)
        simp only [heldBy, calls, Function.update_of_ne apart]
    | detector id => simp only [heldBy, detections]
  have own {mutex : Mutex} (member : mutex ∈ m'.heldBy (.transaction txn)) :
      mutex ∈ m.heldBy (.transaction txn) ∨ m.canLock relock (.transaction txn) mutex := by
    simp only [heldBy, calls, Function.update_self] at member
    cases next with
    | none => cases member
    | some after => exact held after rfl mutex member
  have alone {mutex : Mutex} {other : Caller} (different : other ≠ .transaction txn)
      (mine : mutex ∈ m.heldBy (.transaction txn) ∨ m.canLock relock (.transaction txn) mutex)
      (theirs : mutex ∈ m.heldBy other) : False := by
    rcases mine with before | locked
    · exact different (orderly.apart _ _ mutex theirs before)
    · exact different (orderly.eq_of_canLock locked theirs)
  refine ⟨?_, ?_, ?_, unmarked, ?_, acyclic, ?_⟩
  · intro other busy
    rw [calls] at busy
    by_cases same : other = txn
    · subst same
      rw [Function.update_self] at busy
      exact callers _ (.inr ⟨rfl, busy⟩)
    · rw [Function.update_of_ne same] at busy
      exact callers _ (.inl (orderly.listed other busy))
  · intro a b mutex ha hb
    by_cases first : a = .transaction txn <;> by_cases second : b = .transaction txn
    · rw [first, second]
    · rw [old second] at hb
      exact (alone second (own (first ▸ ha)) hb).elim
    · rw [old first] at ha
      exact (alone first (own (second ▸ hb)) ha).elim
    · rw [old first] at ha
      rw [old second] at hb
      exact orderly.apart a b mutex ha hb
  · intro id d found
    rw [detections] at found
    exact orderly.searching id d found
  · intro other after found
    by_cases same : other = txn
    · rw [same, calls, Function.update_self] at found
      exact spared after found
    · rw [calls, Function.update_of_ne same] at found
      exact orderly.spared other after found
  · intro other after r found granting
    by_cases same : other = txn
    · subst same
      rw [calls, Function.update_self] at found
      exact ready after found r granting
    · rw [calls, Function.update_of_ne same] at found
      obtain ⟨holds, granted⟩ := orderly.ready other after r found granting
      refine ⟨holds, ?_⟩
      rw [← heldBy_transaction found] at holds
      have different : Caller.transaction other ≠ .transaction txn := by simp [same]
      rcases entries r.key with kept | mine
      · rw [kept]
        exact granted
      · exact (alone different mine holds).elim

theorem update (orderly : m.Orderly) (relock : Relock) (here : m.calls txn = some call)
    {next : Option Call} (calls : m'.calls = Function.update m.calls txn next)
    (detections : m'.detections = m.detections) (callers : m'.callers = m.callers)
    (unmarked : m'.aborted = []) (spared : ∀ after ∈ next, after.spared)
    (acyclic : m'.graph.Acyclic)
    (held : ∀ after ∈ next, ∀ mutex ∈ after.held,
      mutex ∈ call.held ∨ m.canLock relock (.transaction txn) mutex)
    (entries : ∀ key, m'.entries key = m.entries key ∨ .entry key ∈ call.held ∨
      m.canLock relock (.transaction txn) (.entry key))
    (ready : ∀ after ∈ next, ∀ r ∈ after.granting,
      .entry r.key ∈ after.held ∧ (m'.entries r.key).canGrant txn r.type) : m'.Orderly := by
  rw [← heldBy_transaction here] at held entries
  refine orderly.change relock calls detections ?_ unmarked spared acyclic held entries ready
  rintro caller (old | ⟨rfl, -⟩)
  · exact callers ▸ old
  · exact callers ▸ orderly.listed txn (by simp [here])

end Orderly

/-! ## What one step does -/

inductive Change (m : LockManager) (action : LockAction) (m' : LockManager) : Prop
  | quiet (entries : m'.entries = m.entries) (graph : m'.graph = m.graph)
      (phase : m'.phase = m.phase)
  | releasing (txn : Nat) (out : m.phase txn = .out) (entries : m'.entries = m.entries)
      (graph : m'.graph = m.graph) (phase : m'.phase = Function.update m.phase txn .releasing)
  | grant (txn : Nat) (key : Key) (type : LockType) (out : m.phase txn = .out)
      (granted : (m.entries key).canGrant txn type)
      (entries : m'.entries = Function.update m.entries key ((m.entries key).grant txn type))
      (graph : m'.graph = m.graph) (phase : m'.phase = m.phase)
  | wait (txn : Nat) (r : AcquireRequest) (taken : action = .proceed txn)
      (call : m.calls txn = some (.acquire r .queue))
      (entries : m'.entries = (m.enqueued txn r).entries)
      (graph : m'.graph = (m.enqueued txn r).graph)
      (phase : m'.phase = Function.update m.phase txn (.queued r.key r.type))
  | refuse (txn : Nat) (r : AcquireRequest) (taken : action = .proceed txn)
      (call : m.calls txn = some (.acquire r .queue))
      (entries : m'.entries = ((m.enqueued txn r).withdrawn txn r.key).entries)
      (graph : m'.graph = (m.enqueued txn r).graph.removeEdgesFor txn) (phase : m'.phase = m.phase)
  | leave (txn : Nat) (key : Key) (type : LockType) (taken : action = .proceed txn)
      (queued : m.phase txn = .queued key type)
      (entries : m'.entries = Function.update m.entries key ((m.entries key).removeWaiter txn))
      (graph : m'.graph = m.graph.removeEdgesFor txn)
      (phase : m'.phase = Function.update m.phase txn .out)
  | wake (txn : Nat) (key : Key) (type : LockType) (taken : action = .proceed txn)
      (queued : m.phase txn = .queued key type) (granted : (m.entries key).canGrant txn type)
      (entries : m'.entries = Function.update m.entries key ((m.entries key).wake txn type))
      (graph : m'.graph = m.graph.removeEdgesFor txn)
      (phase : m'.phase = Function.update m.phase txn .out)
  | release (txn : Nat) (key : Key) (taken : action = .proceed txn)
      (caller : (∃ rest, m.calls txn = some (.releaseAll (.entries (key :: rest)))) ∨
        m.calls txn = some (.enter key .release))
      (entries : m'.entries = Function.update m.entries key ((m.entries key).release txn))
      (graph : m'.graph = m.graph) (phase : m'.phase = m.phase)
  | forget (txn : Nat) (releasing : m.phase txn = .releasing) (entries : m'.entries = m.entries)
      (graph : m'.graph = m.graph.removeEdgesFor txn)
      (phase : m'.phase = Function.update m.phase txn .out)

theorem phase_update {next : Option Call} (calls : m'.calls = Function.update m.calls txn next) :
    m'.phase = Function.update m.phase txn ((next.map Call.phase).getD .out) := by
  funext other
  by_cases same : other = txn
  · rw [same]
    simp only [phase, calls, Function.update_self]
  · simp only [phase, calls, Function.update_of_ne same]

theorem phase_goto (m : LockManager) (txn : Nat) (next : Call) :
    (m.goto txn next).phase = Function.update m.phase txn next.phase :=
  @phase_update m _ txn (some next) rfl

theorem phase_finish (m : LockManager) (txn : Nat) (status : Status) :
    (m.finish txn status).phase = Function.update m.phase txn .out :=
  @phase_update m _ txn none rfl

theorem phase_same (here : m.calls txn = some call) {next : Option Call}
    (calls : m'.calls = Function.update m.calls txn next)
    (same : (next.map Call.phase).getD .out = call.phase) : m'.phase = m.phase := by
  rw [phase_update calls, same, ← phase_eq here, Function.update_eq_self]

namespace Orderly
variable {action : LockAction}

theorem unmark_eq (orderly : m.Orderly) : m.unmark txn = m := by
  obtain ⟨keys, entries, graph, rangeLocks, aborted, calls⟩ := m
  have none := orderly.unmarked
  subst none
  rfl

theorem not_marked (orderly : m.Orderly) : m.aborted.contains txn = false := by
  rw [orderly.unmarked]
  rfl

theorem goes (orderly : m.Orderly) (relock : Relock) (here : m.calls txn = some call) {next : Call}
    (same : next.phase = call.phase ∧ next.spared)
    (held : ∀ mutex ∈ next.held, mutex ∈ call.held ∨ m.canLock relock (.transaction txn) mutex)
    (ready : ∀ r ∈ next.granting,
      .entry r.key ∈ next.held ∧ (m.entries r.key).canGrant txn r.type) :
    (m.goto txn next).Orderly ∧ Change m action (m.goto txn next) := by
  refine ⟨orderly.update relock here rfl rfl rfl orderly.unmarked ?_ orderly.acyclic ?_ ?_ ?_,
    .quiet rfl rfl (phase_same here rfl same.1)⟩
  · intro after equal
    rw [Option.mem_some_iff] at equal
    exact equal ▸ same.2
  · intro after equal
    rw [Option.mem_some_iff] at equal
    exact equal ▸ held
  · exact fun _ => .inl rfl
  · intro after equal
    rw [Option.mem_some_iff] at equal
    exact equal ▸ ready

theorem returns (orderly : m.Orderly) (here : m.calls txn = some call) (phase : call.phase = .out)
    (status : Status) : (m.finish txn status).Orderly ∧ Change m action (m.finish txn status) := by
  refine ⟨orderly.update .blocks here rfl rfl rfl orderly.unmarked (by rintro _ ⟨⟩) orderly.acyclic
    ?_ ?_ ?_, .quiet rfl rfl (phase_same here rfl phase.symm)⟩
  · intro after none
    cases none
  · exact fun _ => .inl rfl
  · intro after none
    cases none

theorem grants (orderly : m.Orderly) (here : m.calls txn = some call) (phase : call.phase = .out)
    {key : Key} {type : LockType} (held : .entry key ∈ call.held)
    (granted : (m.entries key).canGrant txn type) :
    (m.grant txn key type).Orderly ∧ Change m action (m.grant txn key type) := by
  refine ⟨orderly.update .blocks here rfl rfl rfl orderly.unmarked (by rintro _ ⟨⟩) orderly.acyclic
    ?_ ?_ ?_, .grant txn key type ((phase_eq here).trans phase) granted rfl rfl
      (phase_same here rfl phase.symm)⟩
  · intro after none
    cases none
  · intro other
    by_cases same : other = key
    · exact .inr (.inl (same ▸ held))
    · exact .inl (Function.update_of_ne same ..)
  · intro after none
    cases none

theorem grantOrQueue (orderly : m.Orderly) {r : AcquireRequest} {stage : AcquireStage}
    (here : m.calls txn = some (.acquire r stage)) (early : stage.waits = false)
    (held : .entry r.key ∈ stage.held r.key) :
    (m.grantOrQueue txn r).Orderly ∧ Change m action (m.grantOrQueue txn r) := by
  have out : (Call.acquire r stage).phase = .out := by simp [Call.phase, early]
  unfold LockManager.grantOrQueue
  split
  · rename_i granted
    exact orderly.grants here out held granted
  · refine orderly.goes .blocks here ⟨out ▸ rfl, rfl⟩ ?_ ?_
    · intro mutex member
      obtain rfl := List.mem_singleton.mp member
      exact .inl held
    · rintro _ ⟨⟩

theorem leaves (orderly : m.Orderly) (here : m.calls txn = some call) {key : Key}
    {entry : LockEntry} {graph : WaitForGraph} (held : .entry key ∈ call.held)
    (acyclic : graph.Acyclic) (status : Status) :
    (((m.setEntry key entry).setGraph graph).finish txn status).Orderly := by
  refine orderly.update .blocks here rfl rfl rfl orderly.unmarked (by rintro _ ⟨⟩) acyclic ?_ ?_ ?_
  · intro after none
    cases none
  · intro other
    by_cases same : other = key
    · exact .inr (.inl (same ▸ held))
    · exact .inl (Function.update_of_ne same ..)
  · intro after none
    cases none

theorem queueStep (orderly : m.Orderly) {r : AcquireRequest}
    (here : m.calls txn = some (.acquire r .queue)) :
    (m.queueStep txn r).Orderly ∧ Change m (.proceed txn) (m.queueStep txn r) := by
  unfold LockManager.queueStep
  dsimp only
  split
  · refine ⟨?_, .refuse txn r rfl here rfl rfl (phase_same here rfl rfl)⟩
    have same : (m.enqueued txn r).withdrawn txn r.key =
        (m.setEntry r.key (((m.enqueued txn r).entries r.key).removeWaiter txn)).setGraph
          ((m.enqueued txn r).graph.removeEdgesFor txn) := by
      simp only [withdrawn, enqueued, setEntry, setGraph, Function.update_idem]
    rw [same]
    exact orderly.leaves here (List.mem_singleton.mpr rfl) (orderly.acyclic.refuse _) _
  · rename_i passed
    refine ⟨orderly.update .blocks here rfl rfl rfl orderly.unmarked (by rintro _ ⟨⟩; rfl) ?_ ?_ ?_ ?_,
      .wait txn r rfl here rfl rfl (phase_goto (m.enqueued txn r) txn _)⟩
    · refine orderly.acyclic.wait fun holder member => ?_
      obtain ⟨h, held, rfl⟩ := List.mem_map.mp member
      simp only [List.any_eq_true, not_exists, not_and] at passed
      exact passed h held
    · rintro _ ⟨⟩ mutex member
      exact .inl member
    · intro other
      by_cases same : other = r.key
      · exact .inr (.inl (List.mem_singleton.mpr (same ▸ rfl)))
      · exact .inl (Function.update_of_ne same ..)
    · rintro _ ⟨⟩ _ ⟨⟩

theorem evaluateStep (orderly : m.Orderly) {r : AcquireRequest} {expired : Bool}
    (here : m.calls txn = some (.acquire r (.evaluate expired))) :
    (m.evaluateStep txn r expired).Orderly ∧
      Change m (.proceed txn) (m.evaluateStep txn r expired) := by
  unfold LockManager.evaluateStep
  rw [orderly.not_marked, Bool.false_or]
  split
  · rename_i granted
    refine orderly.goes .blocks here ⟨rfl, rfl⟩ (fun mutex member => .inl member) ?_
    rintro _ ⟨⟩
    exact ⟨List.mem_singleton.mpr rfl, granted⟩
  split
  · refine orderly.goes .blocks here ⟨rfl, rfl⟩ (fun mutex member => .inl member) ?_
    rintro _ ⟨⟩
  · refine orderly.goes .blocks here ⟨rfl, rfl⟩ (fun mutex member => ?_) ?_
    · cases member
    · rintro _ ⟨⟩

theorem leaveStep (orderly : m.Orderly) {r : AcquireRequest} {result : WaitResult}
    (here : m.calls txn = some (.acquire r (.leave result))) :
    (m.leaveStep txn r result).Orderly ∧ Change m (.proceed txn) (m.leaveStep txn r result) := by
  have held : .entry r.key ∈ (Call.acquire r (.leave result)).held := List.mem_singleton.mpr rfl
  have queued : m.phase txn = .queued r.key r.type := phase_eq here
  cases result with
  | victim =>
      exact ⟨orderly.leaves here held orderly.acyclic.removeEdgesFor _,
        .leave txn r.key r.type rfl queued rfl rfl (phase_finish _ txn _)⟩
  | timedOut =>
      exact ⟨orderly.leaves here held orderly.acyclic.removeEdgesFor _,
        .leave txn r.key r.type rfl queued rfl rfl (phase_finish _ txn _)⟩
  | granted =>
      have granted := (orderly.ready txn _ r here rfl).2
      exact ⟨orderly.leaves here held orderly.acyclic.removeEdgesFor _,
        .wake txn r.key r.type rfl queued granted rfl rfl (phase_finish _ txn _)⟩

theorem acquireStep (orderly : m.Orderly) {relock : Relock} {r : AcquireRequest}
    {stage : AcquireStage} (here : m.calls txn = some (.acquire r stage))
    (stepped : m.acquireStep relock txn r stage = some m') :
    m'.Orderly ∧ Change m (.proceed txn) m' := by
  cases stage with
  | marked =>
      obtain ⟨-, rfl⟩ := locking_eq_some.mp stepped
      rw [orderly.not_marked, if_neg Bool.false_ne_true]
      refine orderly.goes .blocks here ⟨rfl, rfl⟩ (fun mutex member => .inl member) ?_
      rintro _ ⟨⟩
  | range =>
      obtain ⟨-, rfl⟩ := locking_eq_some.mp stepped
      split
      · refine orderly.goes .blocks here ⟨rfl, rfl⟩ (fun mutex member => .inl member) ?_
        rintro _ ⟨⟩
      · exact orderly.grantOrQueue here rfl (List.mem_singleton.mpr rfl)
  | lockRange =>
      obtain ⟨free, rfl⟩ := locking_eq_some.mp stepped
      refine orderly.goes relock here ⟨rfl, rfl⟩ ?_ ?_
      · intro mutex member
        rcases List.mem_cons.mp member with rfl | member
        · exact .inl (List.mem_singleton.mpr rfl)
        · obtain rfl := List.mem_singleton.mp member
          exact .inr free
      · rintro _ ⟨⟩
  | recheckRange =>
      obtain ⟨-, rfl⟩ := locking_eq_some.mp stepped
      split
      · exact orderly.grantOrQueue here rfl List.mem_cons_self
      split
      · exact orderly.returns here rfl _
      · refine orderly.goes .blocks here ⟨rfl, rfl⟩ (fun mutex member => ?_) ?_
        · obtain rfl := List.mem_singleton.mp member
          exact .inl List.mem_cons_self
        · rintro _ ⟨⟩
  | awaitRange =>
      obtain rfl := Option.some.inj stepped
      refine orderly.goes .blocks here ⟨rfl, rfl⟩ (fun mutex member => .inl member) ?_
      rintro _ ⟨⟩
  | retakeRange expired =>
      obtain ⟨free, rfl⟩ := locking_eq_some.mp stepped
      split
      · exact orderly.returns here rfl _
      · refine orderly.goes relock here ⟨rfl, rfl⟩ ?_ ?_
        · intro mutex member
          rcases List.mem_cons.mp member with rfl | member
          · exact .inl (List.mem_singleton.mpr rfl)
          · obtain rfl := List.mem_singleton.mp member
            exact .inr free
        · rintro _ ⟨⟩
  | queue =>
      obtain ⟨-, rfl⟩ := locking_eq_some.mp stepped
      exact orderly.queueStep here
  | evaluate expired =>
      obtain ⟨-, rfl⟩ := locking_eq_some.mp stepped
      exact orderly.evaluateStep here
  | asleep =>
      obtain rfl := Option.some.inj stepped
      refine orderly.goes .blocks here ⟨rfl, rfl⟩ (fun mutex member => .inl member) ?_
      rintro _ ⟨⟩
  | retake expired =>
      obtain ⟨free, rfl⟩ := locking_eq_some.mp stepped
      refine orderly.goes relock here ⟨rfl, rfl⟩ ?_ ?_
      · intro mutex member
        obtain rfl := List.mem_singleton.mp member
        exact .inr free
      · rintro _ ⟨⟩
  | settle ok =>
      obtain ⟨-, rfl⟩ := locking_eq_some.mp stepped
      rw [orderly.not_marked, if_neg Bool.false_ne_true]
      refine orderly.goes .blocks here ⟨rfl, by cases ok <;> rfl⟩ (fun mutex member => .inl member) ?_
      cases ok with
      | true =>
          rintro _ ⟨⟩
          exact ⟨List.mem_singleton.mpr rfl, (orderly.ready txn _ r here rfl).2⟩
      | false => rintro _ ⟨⟩
  | leave result =>
      obtain ⟨-, rfl⟩ := locking_eq_some.mp stepped
      exact orderly.leaveStep here

theorem tryStep (orderly : m.Orderly) {relock : Relock} {key : Key} {type : LockType}
    {stage : TryStage} (here : m.calls txn = some (.tryAcquire key type stage))
    (stepped : m.tryStep relock txn key type stage = some m') :
    m'.Orderly ∧ Change m (.proceed txn) m' := by
  cases stage with
  | marked =>
      obtain ⟨-, rfl⟩ := locking_eq_some.mp stepped
      rw [orderly.not_marked, if_neg Bool.false_ne_true]
      refine orderly.goes .blocks here ⟨rfl, rfl⟩ (fun mutex member => .inl member) ?_
      rintro _ ⟨⟩
  | unmark =>
      obtain ⟨-, rfl⟩ := locking_eq_some.mp stepped
      rw [orderly.unmark_eq]
      exact orderly.returns here rfl _
  | range =>
      obtain ⟨-, rfl⟩ := locking_eq_some.mp stepped
      split
      · exact orderly.returns here rfl _
      split
      · exact orderly.returns here rfl _
      · rename_i granted
        rw [Bool.not_eq_true', Bool.not_eq_false] at granted
        exact orderly.grants here rfl (List.mem_singleton.mpr rfl) granted

theorem aside (orderly : m.Orderly) (here : m.calls txn = some call) (next : Option Call)
    (calls : m'.calls = Function.update m.calls txn next) (detections : m'.detections = m.detections)
    (callers : m'.callers = m.callers) (aborted : m'.aborted = m.aborted)
    (entries : m'.entries = m.entries) (graph : m'.graph = m.graph)
    (phase : (next.map Call.phase).getD .out = call.phase)
    (held : ∀ after ∈ next, after.held = [] ∧ after.granting = none ∧ after.spared) :
    m'.Orderly ∧ Change m action m' := by
  refine ⟨orderly.update .blocks here calls detections callers (aborted.trans orderly.unmarked)
    (fun after same => (held after same).2.2) (graph ▸ orderly.acyclic) ?_ ?_ ?_, .quiet entries graph (phase_same here calls phase)⟩
  · intro after same mutex member
    rw [(held after same).1] at member
    cases member
  · exact fun key => .inl (congrFun entries key)
  · intro after same r member
    rw [(held after same).2.1] at member
    cases member

theorem rangeStep (orderly : m.Orderly) {relock : Relock} {r : RangeRequest} {stage : RangeStage}
    (here : m.calls txn = some (.acquireRange r stage))
    (stepped : m.rangeStep relock txn r stage = some m') :
    m'.Orderly ∧ Change m (.proceed txn) m' := by
  cases stage with
  | lock =>
      obtain ⟨free, rfl⟩ := locking_eq_some.mp stepped
      refine orderly.goes relock here ⟨rfl, rfl⟩ (fun mutex member => ?_) (by rintro _ ⟨⟩)
      obtain rfl := List.mem_singleton.mp member
      exact .inr free
  | check =>
      obtain ⟨-, rfl⟩ := locking_eq_some.mp stepped
      split
      · exact orderly.aside here none rfl rfl rfl rfl rfl rfl rfl (by rintro _ ⟨⟩)
      split
      · exact orderly.returns here rfl _
      · exact orderly.goes .blocks here ⟨rfl, rfl⟩ (by rintro _ ⟨⟩) (by rintro _ ⟨⟩)
  | await =>
      obtain rfl := Option.some.inj stepped
      exact orderly.goes .blocks here ⟨rfl, rfl⟩ (by rintro _ ⟨⟩) (by rintro _ ⟨⟩)
  | retake expired =>
      obtain ⟨free, rfl⟩ := locking_eq_some.mp stepped
      split
      · exact orderly.returns here rfl _
      · refine orderly.goes relock here ⟨rfl, rfl⟩ (fun mutex member => ?_) (by rintro _ ⟨⟩)
        obtain rfl := List.mem_singleton.mp member
        exact .inr free

theorem releases (orderly : m.Orderly) {relock : Relock} {key : Key} {next : Option Call}
    (here : m.calls txn = some call) (free : m.canLock relock (.transaction txn) (.entry key))
    (calls : m'.calls = Function.update m.calls txn next) (detections : m'.detections = m.detections)
    (callers : m'.callers = m.callers) (aborted : m'.aborted = m.aborted)
    (entries : m'.entries = Function.update m.entries key ((m.entries key).release txn))
    (graph : m'.graph = m.graph)
    (held : ∀ after ∈ next, after.held = [] ∧ after.granting = none ∧ after.spared) :
    m'.Orderly := by
  refine orderly.update relock here calls detections callers (aborted.trans orderly.unmarked)
    (fun after same => (held after same).2.2) (graph ▸ orderly.acyclic) ?_ ?_ ?_
  · intro after same mutex member
    rw [(held after same).1] at member
    cases member
  · intro other
    rw [entries]
    by_cases same : other = key
    · exact .inr (.inr (same ▸ free))
    · exact .inl (Function.update_of_ne same ..)
  · intro after same r member
    rw [(held after same).2.1] at member
    cases member

theorem releaseStep (orderly : m.Orderly) {relock : Relock} {stage : ReleaseStage}
    (here : m.calls txn = some (.releaseAll stage))
    (stepped : m.releaseStep relock txn stage = some m') :
    m'.Orderly ∧ Change m (.proceed txn) m' := by
  cases stage with
  | gather => cases stepped
  | entries remaining =>
      cases remaining with
      | nil =>
          obtain ⟨free, rfl⟩ := locking_eq_some.mp stepped
          refine ⟨orderly.update relock here rfl rfl rfl orderly.unmarked (by rintro _ ⟨⟩; rfl)
            orderly.acyclic.removeEdgesFor ?_ (fun _ => .inl rfl) ?_,
            .forget txn (phase_eq here) rfl rfl (phase_goto _ txn _)⟩
          · rintro _ ⟨⟩ mutex member
            obtain rfl := List.mem_singleton.mp member
            exact .inr free
          · rintro _ ⟨⟩ _ ⟨⟩
      | cons key rest =>
          obtain ⟨free, rfl⟩ := locking_eq_some.mp stepped
          refine ⟨orderly.releases here free rfl rfl rfl rfl rfl rfl (by rintro _ ⟨⟩; exact ⟨rfl, rfl, rfl⟩),
            .release txn key rfl (.inl ⟨rest, here⟩) rfl rfl (phase_same here rfl rfl)⟩
  | ranges =>
      obtain ⟨-, rfl⟩ := locking_eq_some.mp stepped
      exact orderly.aside here none rfl rfl rfl rfl rfl rfl rfl (by rintro _ ⟨⟩)

theorem enterStep (orderly : m.Orderly) {relock : Relock} {key : Key} {op : PointOp}
    (here : m.calls txn = some (.enter key op)) (stepped : m.enterStep relock txn key op = some m') :
    m'.Orderly ∧ Change m (.proceed txn) m' := by
  cases op with
  | acquire type timeout =>
      obtain ⟨free, rfl⟩ := locking_eq_some.mp stepped
      refine orderly.goes relock here ⟨rfl, rfl⟩ (fun mutex member => ?_) (by rintro _ ⟨⟩)
      obtain rfl := List.mem_singleton.mp member
      exact .inr free
  | tryAcquire type =>
      obtain ⟨free, rfl⟩ := locking_eq_some.mp stepped
      refine orderly.goes relock here ⟨rfl, rfl⟩ (fun mutex member => ?_) (by rintro _ ⟨⟩)
      obtain rfl := List.mem_singleton.mp member
      exact .inr free
  | release =>
      obtain ⟨free, rfl⟩ := locking_eq_some.mp stepped
      exact ⟨orderly.releases here free rfl rfl rfl rfl rfl rfl (by rintro _ ⟨⟩),
        .release txn key rfl (.inr here) rfl rfl (phase_same here rfl rfl)⟩

theorem callStep (orderly : m.Orderly) {relock : Relock} (here : m.calls txn = some call)
    (stepped : m.callStep relock txn call = some m') : m'.Orderly ∧ Change m (.proceed txn) m' := by
  cases call with
  | lookup key op =>
      obtain rfl := Option.some.inj stepped
      split
      · exact orderly.goes .blocks here ⟨rfl, rfl⟩ (by rintro _ ⟨⟩) (by rintro _ ⟨⟩)
      · exact orderly.goes .blocks here ⟨rfl, rfl⟩ (by rintro _ ⟨⟩) (by rintro _ ⟨⟩)
  | create key op =>
      obtain ⟨-, rfl⟩ := locking_eq_some.mp stepped
      exact orderly.aside here (some (.enter key op)) rfl rfl rfl rfl rfl rfl rfl
        (by rintro _ ⟨⟩; exact ⟨rfl, rfl, rfl⟩)
  | enter key op => exact orderly.enterStep here stepped
  | acquire r stage => exact orderly.acquireStep here stepped
  | tryAcquire key type stage => exact orderly.tryStep here stepped
  | acquireRange r stage => exact orderly.rangeStep here stepped
  | releaseAll stage => exact orderly.releaseStep here stepped

theorem expireStep (orderly : m.Orderly) (here : m.calls txn = some call)
    (stepped : m.expireStep txn call = some m') : m'.Orderly ∧ Change m (.expire txn) m' := by
  unfold LockManager.expireStep at stepped
  split at stepped
  · obtain rfl := Option.some.inj stepped
    exact orderly.goes .blocks here ⟨rfl, rfl⟩ (fun mutex member => .inl member) (by rintro _ ⟨⟩)
  · obtain rfl := Option.some.inj stepped
    exact orderly.goes .blocks here ⟨rfl, rfl⟩ (fun mutex member => .inl member) (by rintro _ ⟨⟩)
  · obtain rfl := Option.some.inj stepped
    exact orderly.goes .blocks here ⟨rfl, rfl⟩ (fun mutex member => .inl member) (by rintro _ ⟨⟩)
  · cases stepped

theorem start (orderly : m.Orderly) (first : call.held = [] ∧ call.granting = none ∧ call.spared)
    (phase : call.phase = .out ∨ call.phase = .releasing)
    (stepped : m.start txn call = some m') : m'.Orderly ∧ Change m action m' := by
  unfold LockManager.start at stepped
  split at stepped <;> [rename_i idle; cases stepped]
  obtain rfl := Option.some.inj stepped
  have out : m.phase txn = .out := by simp [LockManager.phase, idle]
  constructor
  · refine orderly.change .blocks rfl rfl ?_ orderly.unmarked (by rintro _ ⟨⟩; exact first.2.2)
      orderly.acyclic ?_ (fun _ => .inl rfl) ?_
    · rintro caller (old | ⟨rfl, -⟩)
      · exact List.mem_insert_of_mem old
      · exact List.mem_insert_self
    · rintro _ ⟨⟩ mutex member
      rw [first.1] at member
      cases member
    · rintro _ ⟨⟩ r member
      rw [first.2.1] at member
      cases member
  · rcases phase with outside | releasing
    · refine .quiet rfl rfl ((phase_goto m txn call).trans ?_)
      rw [outside, ← out, Function.update_eq_self]
    · exact .releasing txn out rfl rfl ((phase_goto m txn call).trans (by rw [releasing]))

theorem detects (orderly : m.Orderly) {id : Nat} {d : Option Detection}
    (search : d = none ∨ d = some .detect) (calls : m'.calls = m.calls)
    (detections : m'.detections = Function.update m.detections id d)
    (callers : m.callers ⊆ m'.callers) (aborted : m'.aborted = m.aborted)
    (entries : m'.entries = m.entries) (graph : m'.graph = m.graph) :
    m'.Orderly ∧ Change m action m' := by
  have searching (other : Nat) (e : Detection) (found : m'.detections other = some e) :
      e = .detect := by
    rw [detections] at found
    by_cases same : other = id
    · rw [same, Function.update_self] at found
      rcases search with rfl | rfl <;> cases found
      rfl
    · rw [Function.update_of_ne same] at found
      exact orderly.searching other e found
  have transaction {caller : Caller} {mutex : Mutex} (held : mutex ∈ m'.heldBy caller) :
      mutex ∈ m.heldBy caller := by
    cases caller with
    | transaction txn => rwa [heldBy, calls] at held
    | detector other =>
        cases found : m'.detections other with
        | none => simp [heldBy, found] at held
        | some e =>
            obtain rfl := searching other e found
            simp [heldBy, found, Detection.held] at held
  refine ⟨⟨?_, ?_, searching, aborted.trans orderly.unmarked,
    fun txn call found => orderly.spared txn call (calls ▸ found), graph ▸ orderly.acyclic, ?_⟩,
    .quiet entries graph (by funext txn; simp only [LockManager.phase, calls])⟩
  · intro txn busy
    rw [calls] at busy
    exact callers (orderly.listed txn busy)
  · exact fun a b mutex ha hb => orderly.apart a b mutex (transaction ha) (transaction hb)
  · intro txn call r found granting
    rw [calls] at found
    rw [entries]
    exact orderly.ready txn call r found granting

theorem step (orderly : m.Orderly) {relock : Relock} (stepped : m.step relock action = some m') :
    m'.Orderly ∧ Change m action m' := by
  cases action with
  | point txn key op => exact orderly.start ⟨rfl, rfl, rfl⟩ (.inl rfl) stepped
  | acquireRange txn r => exact orderly.start ⟨rfl, rfl, rfl⟩ (.inl rfl) stepped
  | releaseAll txn => exact orderly.start ⟨rfl, rfl, rfl⟩ (.inr rfl) stepped
  | proceed txn =>
      obtain ⟨call, here, stepped⟩ := Option.bind_eq_some_iff.mp stepped
      exact orderly.callStep here stepped
  | expire txn =>
      obtain ⟨call, here, stepped⟩ := Option.bind_eq_some_iff.mp stepped
      exact orderly.expireStep here stepped
  | gather txn order =>
      unfold LockManager.step at stepped
      dsimp only at stepped
      split at stepped <;> [rename_i gathers; cases stepped]
      obtain rfl := Option.some.inj stepped
      exact orderly.goes .blocks gathers.1 ⟨rfl, rfl⟩ (by rintro _ ⟨⟩) (by rintro _ ⟨⟩)
  | detect id =>
      unfold LockManager.step at stepped
      dsimp only at stepped
      split at stepped
      · obtain rfl := Option.some.inj stepped
        exact orderly.detects (.inr rfl) rfl rfl (List.subset_insert _ _) rfl rfl rfl
      · cases stepped
  | resolve id =>
      obtain ⟨d, found, stepped⟩ := Option.bind_eq_some_iff.mp stepped
      obtain rfl := orderly.searching id d found
      obtain ⟨-, rfl⟩ := locking_eq_some.mp stepped
      rw [orderly.acyclic.detectCycle]
      exact orderly.detects (.inl rfl) rfl rfl (List.Subset.refl _) rfl rfl rfl
  | gatherFor id order =>
      unfold LockManager.step at stepped
      dsimp only at stepped
      split at stepped <;> [skip; cases stepped]
      obtain ⟨d, found, stepped⟩ := Option.bind_eq_some_iff.mp stepped
      obtain rfl := orderly.searching id d found
      cases stepped

end Orderly

theorem orderly_of_run {relock : Relock} {guard : LockManager → LockAction → Prop}
    (run : Runs.Run (step relock) guard {} m) : m.Orderly :=
  run.invariant (fun _ _ _ _ stepped orderly => (orderly.step stepped).1) .initial

end LockManager
end Lrdb
