import Lrdb.Concurrency.ChainOrder
import Lrdb.Concurrency.Engine
import Lrdb.Concurrency.LockQueue
import Lrdb.Concurrency.RangeLocks

namespace Lrdb
open Runs

/-! ## Who gives up a lock -/

namespace LockManager
variable {m m' : LockManager} {action : LockAction}

def GivesUp (m : LockManager) (txn : Nat) (key : Key) : Prop :=
  (∃ rest, m.calls txn = some (.releaseAll (.entries (key :: rest)))) ∨
    m.calls txn = some (.enter key .release)

theorem Change.heldBy (changed : Change m action m') (tidy : m.Tidy) {key : Key} {holder : Nat}
    (held : (m.entries key).HeldBy holder) (keeps : ¬ m.GivesUp holder key) :
    (m'.entries key).HeldBy holder := by
  have one {other : Key} {entry : LockEntry} (entries : m'.entries = Function.update m.entries other entry)
      (kept : key = other → (m.entries key).HeldBy holder → entry.HeldBy holder) :
      (m'.entries key).HeldBy holder := by
    rw [entries]
    by_cases same : key = other
    · subst same
      rw [Function.update_self]
      exact kept rfl held
    · rwa [Function.update_of_ne same]
  cases changed with
  | quiet entries | releasing _ _ entries | forget _ _ entries => rwa [entries]
  | grant txn other type out granted entries =>
      refine one entries ?_
      rintro rfl before
      exact LockEntry.heldBy_grant.mpr (.inl before)
  | wait txn r taken call entries =>
      refine one entries ?_
      rintro rfl before
      exact before
  | refuse txn r taken call entries => rwa [entries, tidy.refused call]
  | leave txn other type taken queued entries =>
      refine one entries ?_
      rintro rfl before
      exact before
  | wake txn other type taken queued granted entries =>
      refine one entries ?_
      rintro rfl before
      exact LockEntry.heldBy_wake.mpr (.inl before)
  | release txn other taken caller entries =>
      refine one entries ?_
      rintro rfl before
      refine LockEntry.heldBy_release.mpr ⟨before, ?_⟩
      rintro rfl
      exact keeps caller

def Victim (m : LockManager) (txn : Nat) : Prop :=
  txn ∈ m.aborted ∨ ∃ id, (∃ stage, m.detections id = some (.release txn stage)) ∨
    m.detections id = some (.gather txn) ∨ ∃ rest, m.detections id = some (.sweep txn rest)

theorem Orderly.not_victim (orderly : m.Orderly) (txn : Nat) : ¬ m.Victim txn := by
  rintro (marked | ⟨id, ⟨stage, found⟩ | found | ⟨rest, found⟩⟩)
  · rw [orderly.unmarked] at marked
    cases marked
  · cases orderly.searching id _ found
  · cases orderly.searching id _ found
  · cases orderly.searching id _ found

end LockManager

namespace TxManager.Coherent
variable {base : Nat} {m : TxManager} {txn : Nat} {t : Transaction}

theorem relocks (coherent : Coherent base m) {locks : Key → LockEntry}
    (exclusive : ∀ key, (locks key).Exclusive)
    (held : ∀ key other u, m.txns other = some u → u.stage.unmarked →
      (m.locks key).HeldBy other → (locks key).HeldBy other) :
    Coherent base { m with locks := locks } :=
  { coherent with
    exclusive := exclusive
    locked := fun other u found unmarked key needs =>
      held key other u found unmarked (coherent.locked other u found unmarked key needs) }

theorem restage (coherent : Coherent base m) (found : m.txns txn = some t) {stage : Stage}
    (mark : stage.unmarked = t.stage.unmarked) (unprepared : stage.sequence = none)
    (granted : ∀ key, stage = .granted key → (m.locks key).HeldBy txn) :
    Coherent base (m.setTxn txn { t with stage := stage }) := by
  show Coherent base { m.setTxn txn { t with stage := stage } with
    locks := m.locks, activeTxns := m.activeTxns }
  have fresh : ∀ s, stage.sequence = some s → t.stage.sequence = some s := by
    intro s sequence
    rw [unprepared] at sequence
    cases sequence
  exact coherent.advance found (by rfl) mark fresh m.locks m.activeTxns coherent.exclusive
    (fun _ _ held _ => held) granted

end TxManager.Coherent

namespace Engine
open LockManager

def Fits : Operation → Stage → Prop
  | .point _ (.acquire .kExclusiveLock _), stage => stage = .running
  | .range _, stage => stage = .running
  | .releaseAll, stage => stage.unmarked = false
  | _, _ => False

structure Sound (base : Nat) (e : Engine) : Prop where
  orderly : e.lockManager.Orderly
  tidy : e.lockManager.Tidy
  coherent : TxManager.Coherent base e.manager
  exclusive : e.manager.ExclusiveLocks
  synced : e.manager.locks = e.lockManager.entries
  calling : ∀ txn call, e.lockManager.calls txn = some call →
    ∃ t, e.manager.txns txn = some t ∧ Fits call.operation t.stage

namespace Sound
variable {base : Nat} {e e' : Engine} {relock : Relock}

theorem initial (nextSequence : Nat) : Sound nextSequence (opened nextSequence) where
  orderly := .initial
  tidy := .initial
  coherent := .initial nextSequence
  exclusive := fun _ _ held => absurd held List.not_mem_nil
  synced := rfl
  calling := by rintro _ _ ⟨⟩

theorem act (sound : Sound base e) {action : TxAction}
    (stepped : e.step relock (.act action) = some e') : Sound base e' := by
  unfold step at stepped
  dsimp only at stepped
  split at stepped <;> [cases stepped; rename_i outside]
  obtain ⟨m, moved, rfl⟩ := Option.map_eq_some_iff.mp stepped
  simp only [Bool.or_eq_true, not_or, Bool.not_eq_true] at outside
  have frame := TxManager.frame_of_step outside.1 moved
  refine ⟨sound.orderly, sound.tidy, sound.coherent.step moved, sound.exclusive.step moved,
    frame.locks.trans sound.synced, ?_⟩
  intro txn call here
  obtain ⟨t, found, fits⟩ := sound.calling txn call here
  refine ⟨t, (frame.txns txn ?_ ?_).trans found, fits⟩
  · intro same
    have idle := outside.2
    rw [same, Option.any_some, busy, here] at idle
    cases idle
  · exact (sound.coherent.allocated txn t found).2.ne

theorem not_givesUp (sound : Sound base e) {txn : Nat} {t : Transaction}
    (found : e.manager.txns txn = some t) (unmarked : t.stage.unmarked) (key : Key) :
    ¬ e.lockManager.GivesUp txn key := by
  rintro (⟨rest, here⟩ | here)
  · obtain ⟨u, found', fits⟩ := sound.calling txn _ here
    obtain rfl := Option.some.inj (found.symm.trans found')
    have fits : t.stage.unmarked = false := fits
    rw [unmarked] at fits
    cases fits
  · obtain ⟨u, -, fits⟩ := sound.calling txn _ here
    exact fits.elim

theorem type_eq (sound : Sound base e) {txn timeout : Nat} {key : Key} {type : LockType} {call : Call}
    (here : e.lockManager.calls txn = some call)
    (operation : call.operation = .point key (.acquire type timeout)) : type = .kExclusiveLock := by
  obtain ⟨t, -, fits⟩ := sound.calling txn call here
  rw [operation] at fits
  cases type with
  | kSharedLock => exact fits.elim
  | kExclusiveLock => rfl

theorem locks (sound : Sound base e) {action : LockAction} {m : LockManager}
    (stepped : e.lockManager.step relock action = some m) :
    m.Orderly ∧ m.Tidy ∧ TxManager.Coherent base { e.manager with locks := m.entries } ∧
      TxManager.ExclusiveLocks { e.manager with locks := m.entries } := by
  obtain ⟨orderly, changed⟩ := sound.orderly.step stepped
  have tidy := sound.tidy.change changed
  have exclusive : TxManager.ExclusiveLocks { e.manager with locks := m.entries } := by
    have before := sound.exclusive
    unfold TxManager.ExclusiveLocks at before ⊢
    rw [sound.synced] at before
    have grown {key : Key} {entry : LockEntry} {txn : Nat} {type : LockType}
        (entries : m.entries = Function.update e.lockManager.entries key entry)
        (holders : entry.holders = (e.lockManager.entries key).holders ++ [⟨txn, type⟩])
        (asked : type = .kExclusiveLock) :
        ∀ key, ∀ h ∈ (m.entries key).holders, h.type = .kExclusiveLock := by
      rw [entries, Function.forall_update_iff e.lockManager.entries
        (p := fun _ entry => ∀ h ∈ entry.holders, h.type = .kExclusiveLock)]
      refine ⟨fun h held => ?_, fun other _ => before other⟩
      rw [holders] at held
      rcases List.mem_append.mp held with old | new
      · exact before key h old
      · rw [List.mem_singleton.mp new]
        exact asked
    cases locksChange stepped with
    | fewer ranges holders => exact fun key h held => before key h (holders key held)
    | tested txn key type taken tests free ranges entries =>
        refine grown entries rfl ?_
        rcases tests with ⟨timeout, here | here⟩ | here
        · exact sound.type_eq here rfl
        · exact sound.type_eq here rfl
        · obtain ⟨t, -, fits⟩ := sound.calling txn _ here
          exact fits.elim
    | woken txn r taken here ranges entries =>
        exact grown entries (by unfold LockEntry.wake LockEntry.grant; rfl) (sound.type_eq here rfl)
    | range txn r taken here free ranges entries =>
        rw [entries]
        exact before
  refine ⟨orderly, tidy, sound.coherent.relocks ?_ ?_, exclusive⟩
  · rintro key _ _ ⟨h, held, rfl⟩ ⟨g, member, rfl⟩
    exact (tidy.exclusion key h held (exclusive key h held) g member).symm
  · intro key txn t found unmarked held
    rw [sound.synced] at held
    exact changed.heldBy sound.tidy held (sound.not_givesUp found unmarked key)

theorem lockStep (sound : Sound base e) {action : LockAction}
    (starts : ∀ txn operation, action.starts = some (txn, operation) →
      ∃ t, e.manager.txns txn = some t ∧ Fits operation t.stage)
    (stepped : e.lockStep relock action = some e') : Sound base e' := by
  obtain ⟨m, taken, rfl⟩ := Option.map_eq_some_iff.mp stepped
  obtain ⟨orderly, tidy, coherent, exclusive⟩ := sound.locks taken
  refine ⟨orderly, tidy, coherent, exclusive, rfl, ?_⟩
  have update {txn : Nat} {next : Option Call}
      (calls : m.calls = Function.update e.lockManager.calls txn next)
      (fits : ∀ after ∈ next, ∃ t, e.manager.txns txn = some t ∧ Fits after.operation t.stage) :
      ∀ txn call, m.calls txn = some call →
        ∃ t, e.manager.txns txn = some t ∧ Fits call.operation t.stage := by
    rw [calls, Function.forall_update_iff e.lockManager.calls (p := fun txn c => ∀ call,
      c = some call → ∃ t, e.manager.txns txn = some t ∧ Fits call.operation t.stage)]
    exact ⟨fits, fun other _ => sound.calling other⟩
  cases callChange sound.orderly taken with
  | still calls =>
      rw [calls]
      exact sound.calling
  | onward txn call next _ here onward =>
      refine update onward.calls fun after continues => ?_
      rw [onward.operation after continues]
      exact sound.calling txn call here
  | moved txn call after here calls awake rangeFree operation =>
      refine update calls ?_
      rintro _ ⟨⟩
      rw [operation]
      exact sound.calling txn call here
  | starts txn first idle calls awake rangeFree started =>
      refine update calls ?_
      rintro _ ⟨⟩
      exact starts txn first.operation started

theorem returned (sound : Sound base e) {txn : Nat} {call : Call} {t : Transaction}
    (found : e.manager.txns txn = some t) (fits : Fits call.operation t.stage)
    (idle : e.lockManager.calls txn = none)
    (granted : ∀ r stage, call = .acquire r stage → e.lockManager.returned txn = some .ok →
      (e.manager.locks r.key).HeldBy txn) : Sound base (e.returned txn call) := by
  have calling (stage : Stage) : ∀ other c, e.lockManager.calls other = some c →
      ∃ u, (e.manager.setTxn txn { t with stage := stage }).txns other = some u ∧
        Fits c.operation u.stage := by
    intro other c here
    have different : other ≠ txn := by
      rintro rfl
      rw [idle] at here
      cases here
    rw [TxManager.txns_setTxn_of_ne _ different]
    exact sound.calling other c here
  have moved {stage : Stage} (mark : stage.unmarked = t.stage.unmarked)
      (unprepared : stage.sequence = none)
      (held : ∀ key, stage = .granted key → (e.manager.locks key).HeldBy txn) :
      Sound base { e with manager := e.manager.setTxn txn { t with stage := stage } } :=
    ⟨sound.orderly, sound.tidy, sound.coherent.restage found mark unprepared held, sound.exclusive,
      sound.synced, calling stage⟩
  unfold Engine.returned
  rw [found]
  dsimp only
  unfold Call.stageAfter
  split
  · rename_i r stage
    have running : t.stage = .running := by
      have fits : Fits (.point r.key (.acquire r.type r.timeout)) t.stage := fits
      unfold Fits at fits
      split at fits
      · exact fits
      · rename_i none
        cases none
      · rename_i none
        cases none
      · exact fits.elim
    split
    · rename_i ok
      refine moved (by rw [running]; rfl) rfl ?_
      rintro _ ⟨⟩
      exact granted r stage rfl ok
    · exact moved rfl (by rw [running]; rfl) (by rw [running]; rintro _ ⟨⟩)
  · refine moved ?_ rfl (by rintro _ ⟨⟩)
    exact Eq.symm fits
  · have same : e.manager.setTxn txn t = e.manager := by
      rw [TxManager.setTxn, ← found, Function.update_eq_self]
    show Sound base { e with manager := e.manager.setTxn txn t }
    rw [same]
    exact sound

theorem proceed (sound : Sound base e) {txn : Nat} {call : Call}
    (here : e.lockManager.calls txn = some call) (stepped : e.proceed relock txn call = some e') :
    Sound base e' := by
  obtain ⟨after, taken, rfl⟩ := Option.map_eq_some_iff.mp stepped
  have sound' := sound.lockStep (by rintro _ _ ⟨⟩) taken
  split
  · exact sound'
  rename_i idle
  obtain ⟨m, went, rfl⟩ := Option.map_eq_some_iff.mp taken
  obtain ⟨found, same, moved⟩ := Option.bind_eq_some_iff.mp went
  obtain rfl := Option.some.inj (here.symm.trans same)
  obtain ⟨next, onward⟩ := Onward.of_callStep sound.orderly moved
  have gone : m.calls txn = none := by simpa [busy] using idle
  have last : next = none := by rw [← gone, onward.calls, Function.update_self]
  obtain ⟨t, found, fits⟩ := sound.calling txn call here
  refine sound'.returned found fits gone fun r stage acquires ok => ?_
  exact ⟨_, onward.granted r stage acquires last ok, rfl⟩

theorem step (sound : Sound base e) {action : EngineAction}
    (stepped : e.step relock action = some e') : Sound base e' := by
  have calls {txn : Nat} {stage : Stage} (there : e.stage txn = some stage) :
      ∃ t, e.manager.txns txn = some t ∧ t.stage = stage := Option.map_eq_some_iff.mp there
  cases action with
  | act action => exact sound.act stepped
  | acquire txn key timeout =>
      unfold Engine.step at stepped
      dsimp only at stepped
      split at stepped <;> [rename_i there; cases stepped]
      refine sound.lockStep ?_ stepped
      rintro _ _ ⟨⟩
      exact calls there
  | scan txn timeout =>
      unfold Engine.step at stepped
      dsimp only at stepped
      split at stepped <;> [rename_i there; cases stepped]
      refine sound.lockStep ?_ stepped
      rintro _ _ ⟨⟩
      exact calls there.1
  | releaseAll txn =>
      unfold Engine.step at stepped
      dsimp only at stepped
      split at stepped <;> [rename_i there; cases stepped]
      refine sound.lockStep ?_ stepped
      rintro _ _ ⟨⟩
      rcases there with there | there
      · obtain ⟨t, found, stage⟩ := calls there
        exact ⟨t, found, by rw [stage]; rfl⟩
      · obtain ⟨t, found, stage⟩ := calls there
        exact ⟨t, found, by rw [stage]; rfl⟩
  | proceed txn =>
      obtain ⟨call, here, stepped⟩ := Option.bind_eq_some_iff.mp stepped
      exact sound.proceed here stepped
  | expire txn | gather txn order | detect id | resolve id | gatherFor id order =>
      exact sound.lockStep (by rintro _ _ ⟨⟩) stepped

end Sound

variable {e : Engine} {relock : Relock} {nextSequence : Nat}

theorem sound_of_run (run : Run (step relock) free (opened nextSequence) e) :
    Sound nextSequence e :=
  run.invariant (p := Sound nextSequence) (fun _ _ _ _ stepped sound => sound.step stepped)
    (.initial nextSequence)

/-- In every state, whatever the order of the steps and of the searches for deadlocks: a transaction
holds the exclusive lock of every key it has written until its versions are marked, nobody has been
chosen as a victim, and the commits of a key were marked in the order of their sequences. -/
theorem twoPhase_of_run (run : Run (step relock) free (opened nextSequence) e) :
    (∀ txn t, e.manager.txns txn = some t → t.stage.unmarked → ∀ key,
      writesTo key t.writes ≠ [] →
        ⟨txn, .kExclusiveLock⟩ ∈ (e.lockManager.entries key).holders) ∧
    (∀ victim, ¬ e.lockManager.Victim victim) ∧
    ∀ key, (e.manager.history key).Pairwise fun newer older => older.1 ≤ newer.1 := by
  have sound := sound_of_run run
  refine ⟨?_, sound.orderly.not_victim, sound.coherent.ascending⟩
  intro txn t found unmarked key written
  rw [← sound.synced]
  obtain ⟨⟨owner, type⟩, held, rfl⟩ := sound.coherent.locked txn t found unmarked key (.inl written)
  obtain rfl := sound.exclusive key _ held
  exact held

def waitingBehindWriter : List EngineAction :=
  [.act (.allocate .kReadCommitted), .act (.insertActive 1), .act (.copyActive 1),
    .act (.readUpLimit 1), .act (.captureSequence 1), .act (.allocate .kReadCommitted),
    .act (.insertActive 2), .act (.copyActive 2), .act (.readUpLimit 2), .act (.captureSequence 2),
    .acquire 1 [107] 10] ++ List.replicate 5 (.proceed 1) ++
  [.act (.write 1 (some [97])), .acquire 2 [107] 10] ++ List.replicate 6 (.proceed 2) ++
  [.detect 1, .resolve 1, .act (.prepareCommit 1 [[107]])]

theorem twoPhase_of_run_waitingBehindWriter : ∃ e,
    execute (step .blocks) (opened 1) waitingBehindWriter = some e ∧
    ⟨1, .kExclusiveLock⟩ ∈ (e.lockManager.entries [107]).holders ∧ ¬ e.lockManager.Victim 2 := by
  have facts : (execute (step .blocks) (opened 1) waitingBehindWriter).map (fun e =>
      (e.manager.txns 1).map fun t => (t.stage.unmarked, writesTo [107] t.writes)) =
      some (some (true, [some [97]])) := by decide +kernel
  obtain ⟨e, executed, facts⟩ := Option.map_eq_some_iff.mp facts
  obtain ⟨t, found, facts⟩ := Option.map_eq_some_iff.mp facts
  rw [Prod.mk.injEq] at facts
  have run := execute_run _ (allowed_free _ _ _) executed
  obtain ⟨holds, victims, -⟩ := twoPhase_of_run run
  exact ⟨e, executed, holds 1 t found facts.1 [107] (by rw [facts.2]; simp), victims 2⟩

end Engine
end Lrdb
