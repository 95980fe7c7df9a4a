import Lrdb.Db.AtomicMap
import Lrdb.Db.Durability

namespace Lrdb
open Versions Runs

def logStamps (logs : List Log) (key : Key) : List Stamp :=
  (logs.flatten.filter fun r => r.key = key).map fun r => stampOf (ReplayState.versionOf r)

theorem mem_logStamps {logs : List Log} (plain : ∀ r ∈ logs.flatten, ∃ key, ∃ w : Stamp,
    r = .ofWrite 0 key w.1 w.2 ∧ w.1 < sequenceLimit) {key : Key} {w : Stamp} :
    w ∈ logStamps logs key ↔ Logs logs key w := by
  simp only [logStamps, List.mem_map, List.mem_filter, decide_eq_true_eq]
  constructor
  · rintro ⟨r, ⟨member, here⟩, rfl⟩
    obtain ⟨other, v, rfl, -⟩ := plain r member
    obtain rfl : other = key := by simpa using here
    rw [ReplayState.stampOf_versionOf]
    exact member
  · intro member
    exact ⟨_, ⟨member, by simp⟩, ReplayState.stampOf_versionOf 0 key w⟩

instance (cmp : Comparator) (entries : List Entry) : Decidable (SSTable.UserSorted cmp entries) := by
  unfold SSTable.UserSorted; infer_instance

instance (cmp : Comparator) (table : SSTable) : Decidable (SSTable.Laid cmp table) :=
  decidable_of_iff (_ ∧ _ ∧ _ ∧ _ ∧ _)
    ⟨fun ⟨a, b, c, d, e⟩ => ⟨a, b, c, d, e⟩, fun ⟨a, b, c, d, e⟩ => ⟨a, b, c, d, e⟩⟩

instance (cmp : Comparator) (m : SSTableManager) : Decidable (m.Searchable cmp) :=
  decidable_of_iff ((_ ∧ _ ∧ _) ∧ _)
    ⟨fun ⟨⟨a, b, c⟩, d⟩ => ⟨⟨a, b, c⟩, d⟩, fun ⟨⟨a, b, c⟩, d⟩ => ⟨⟨a, b, c⟩, d⟩⟩

namespace Lifetime
open AtomicMaps TxManager
variable {cmp : Comparator} (options : LSMTreeOptions)

def stamps : Lifetime cmp → Key → List Stamp
  | .closed d, key =>
      logStamps d.logs key ++ (LSMTree.reopened options d.sstables : LSMTree cmp).stamps key
  | .opened f, key => f.session.manager.lastWrites key ++ f.session.lsm.stamps key

def contents (st : Lifetime cmp) : Key → Option Value := fun key =>
  (newest (st.stamps options key)).bind Prod.snd

def newCommits : Lifetime cmp → Lifetime cmp → List Commit
  | .opened f, .opened g =>
      g.session.manager.commits.take
        (g.session.manager.commits.length - f.session.manager.commits.length)
  | _, _ => []

def commitsAlong (st : Lifetime cmp) : List LifetimeAction → List Commit
  | [] => []
  | action :: rest =>
      match step options st action with
      | some next => commitsAlong next rest ++ newCommits st next
      | none => []

def leftLogs : LifetimeAction → List Log
  | .crash files | .shutdown (.treeClosed files) | .shutdown (.emptied files)
  | .shutdown (.written files) => files.logs
  | .start .. | .create | .interrupt .. | .session _ => []

def EndsCommitted : Lifetime cmp → LifetimeAction → Prop
  | .opened f, action => ∀ r ∈ (leftLogs action).flatten, r ∈ f.session.wal →
      ∃ c ∈ f.session.manager.commits, c.sequence = r.sequenceNumber
  | .closed _, _ => True

instance : (st : Lifetime cmp) → (action : LifetimeAction) → Decidable (EndsCommitted st action)
  | .opened f, action => inferInstanceAs (Decidable (∀ r ∈ (leftLogs action).flatten,
      r ∈ f.session.wal → ∃ c ∈ f.session.manager.commits, c.sequence = r.sequenceNumber))
  | .closed _, _ => inferInstanceAs (Decidable True)

def KeepsMap (st : Lifetime cmp) (action : LifetimeAction) : Prop :=
  KeepsAll options st action ∧ EndsCommitted st action

instance (st : Lifetime cmp) (action : LifetimeAction) : Decidable (KeepsMap options st action) :=
  inferInstanceAs (Decidable (_ ∧ _))

variable {options} {st st' : Lifetime cmp}

theorem mem_stamps_iff (sound : st.Sound) {key : Key} {w : Stamp} :
    w ∈ st.stamps options key ↔ st.Holds key w := by
  cases st with
  | closed d =>
      rw [stamps, List.mem_append, mem_logStamps (Disk.Sound.plain sound),
        LSMTree.stores_reopened (Disk.Sound.flat sound), Holds]
  | opened f =>
      obtain ⟨lsm, sound⟩ := sound
      rw [stamps, List.mem_append, Holds]
      constructor
      · rintro (last | stored)
        · exact .inr last
        · exact (sound.flushed.last key w stored).imp_left (sound.stored key w)
      · rintro (stored | last)
        · exact .inr ((LSMTree.mem_stamps_of_flat sound.flat).mpr (.inr stored))
        · exact .inl last

theorem functional (sound : st.Sound) (key : Key) : Functional (st.stamps options key) := by
  have held {w : Stamp} (member : w ∈ st.stamps options key) : st.Holds key w :=
    (mem_stamps_iff sound).mp member
  intro v first w second same
  cases st with
  | closed d => exact Disk.Sound.single sound key v w (held first) (held second) same
  | opened f =>
      obtain ⟨lsm, sound⟩ := sound
      have known {w : Stamp} (held : Holds (.opened f) key w) :
          f.session.Has key w.1 w.2 ∨ w ∈ f.session.lsm.stamps key := by
        rcases held with stored | last
        · exact .inr ((LSMTree.mem_stamps_of_flat sound.flat).mpr (.inr stored))
        · obtain ⟨c, inCommits, sequence, head⟩ := mem_lastWrites.mp last
          exact .inl (sequence ▸ (sound.logged.commits c inCommits key w.2).mpr head)
      exact sound.single key v w (known (held first)) (known (held second)) same

theorem contents_congr (sound : st.Sound) (sound' : st'.Sound) {key : Key}
    (same : ∀ w, st'.Holds key w ↔ st.Holds key w) :
    st'.contents options key = st.contents options key := by
  rw [contents, contents, newest_congr (functional sound key) fun w =>
    ((mem_stamps_iff sound').trans (same w)).trans (mem_stamps_iff sound).symm]

/-! ## Steps -/

theorem apply_eq (writes : List (Key × Option Value)) (map : Key → Option Value) (key : Key) :
    apply writes map key = (writesTo key writes).head?.getD (map key) := by
  rw [apply, writesTo, List.head?_map, ← List.head?_filter]

theorem held_before {f : OpenFamily cmp} {lsm : LSMTree cmp} {d : Disk} (sound : f.Sound lsm)
    (committed : ∀ r ∈ d.logs.flatten, r ∈ f.session.wal →
      ∃ c ∈ f.session.manager.commits, c.sequence = r.sequenceNumber)
    (remains : f.Remains d.logs)
    (stored : ∀ key w, d.sstables.Stores key w → w ∈ f.session.lsm.stamps key) {key : Key} {w : Stamp}
    (held : Holds (.closed d : Lifetime cmp) key w) : Holds (.opened f) key w := by
  have inTree (member : w ∈ f.session.lsm.stamps key) : Holds (.opened f) key w :=
    (sound.flushed.last key w member).imp_left (sound.stored key w)
  rcases held with logged | held
  · rcases List.mem_append.mp (remains.subset logged) with left | inWal
    · obtain ⟨other, v, same, -, initial⟩ := sound.left _ left
      obtain ⟨rfl, sequences, contents⟩ := WALRecord.ofWrite_inj same
      obtain rfl : w = v := Prod.ext sequences contents
      exact .inl (sound.stored key w initial)
    · obtain ⟨c, inCommits, sequence⟩ := committed _ logged inWal
      rw [WALRecord.sequenceNumber_ofWrite] at sequence
      refine .inr (mem_lastWrites.mpr ⟨c, inCommits, sequence, ?_⟩)
      refine (sound.logged.commits c inCommits key w.2).mp ?_
      rw [sequence, Session.Has, sound.family]
      exact inWal
  · exact inTree (stored key w held)

theorem ends {f : OpenFamily cmp} {lsm : LSMTree cmp} (sound : f.Sound lsm) {action : LifetimeAction}
    {d : Disk} (stepped : step options (.opened f) action = some (.closed d)) :
    d.logs = leftLogs action ∧ f.Remains d.logs ∧ ∀ key w, d.sstables.Stores key w → w ∈ f.session.lsm.stamps key := by
  have closed : ∀ key w, (f.session.lsm.close options).2.Stores key w → w ∈ f.session.lsm.stamps key :=
    fun _ _ => LSMTree.stamps_of_stores_close sound.flat sound.numbered
  cases action with
  | start order again left | create | interrupt order left => cases stepped
  | session action =>
      obtain ⟨f', moved, same⟩ := Option.map_eq_some_iff.mp stepped
      cases same
  | crash files =>
      obtain ⟨d', crashes, same⟩ := Option.map_eq_some_iff.mp stepped
      cases same
      unfold OpenFamily.crash at crashes
      split at crashes <;> [rename_i survives; cases crashes]
      obtain rfl := Option.some.inj crashes
      exact ⟨rfl, survives.2, fun key w stored => (LSMTree.mem_stamps_of_flat sound.flat).mpr (.inr stored)⟩
  | shutdown point =>
      obtain ⟨d', shuts, same⟩ := Option.map_eq_some_iff.mp stepped
      cases same
      cases point with
      | treeClosed files | emptied files =>
          simp only [OpenFamily.shutdown] at shuts
          split at shuts <;> [rename_i survives; cases shuts]
          obtain rfl := Option.some.inj shuts
          exact ⟨rfl, survives.2, closed⟩
      | written files =>
          simp only [OpenFamily.shutdown] at shuts
          split at shuts <;> [rename_i remains; cases shuts]
          obtain rfl := Option.some.inj shuts
          exact ⟨rfl, remains, closed⟩

theorem held_session {f g : OpenFamily cmp} {lsm : LSMTree cmp} (sound : f.Sound lsm) (sound' : g.Sound lsm)
    {key : Key} (same : ∀ w, w ∈ g.session.manager.lastWrites key → w ∈ f.session.manager.lastWrites key)
    {w : Stamp} (held : Holds (.opened g) key w) : Holds (.opened f) key w := by
  rcases held with stored | last
  · have inTree : w ∈ g.session.lsm.stamps key :=
      (LSMTree.mem_stamps_of_flat sound'.flat).mpr (.inr stored)
    rcases sound'.flushed.last key w inTree with initial | last
    · exact .inl (sound.stored key w initial)
    · exact .inr (same w last)
  · exact .inr (same w last)

theorem lastWrites_of_head {m : TxManager} {key : Key} {w : Stamp}
    (head : (m.history key).head? = some w) : w ∈ m.lastWrites key := by
  rw [history] at head
  rw [mem_lastWrites]
  generalize m.commits = commits at head
  induction commits with
  | nil => cases head
  | cons c rest ih =>
      rw [List.flatMap_cons, List.head?_append, List.head?_map] at head
      cases last : (writesTo key c.writes).head? with
      | some content =>
          rw [last] at head
          cases head
          exact ⟨c, List.mem_cons_self, rfl, last⟩
      | none =>
          rw [last] at head
          obtain ⟨d, inRest, found⟩ := ih head
          exact ⟨d, List.mem_cons_of_mem c inRest, found⟩

theorem held_le {f : OpenFamily cmp} {lsm : LSMTree cmp} (sound : f.Sound lsm) {key : Key}
    {v w : Stamp} (head : (f.session.manager.history key).head? = some w)
    (held : Holds (.opened f) key v) : v.1 ≤ w.1 := by
  have coherent := sound.flushed.faithful.coherent
  have recorded := Session.lastWrites_sequence coherent (lastWrites_of_head head)
  have committed {v : Stamp} (last : v ∈ f.session.manager.lastWrites key) : v.1 ≤ w.1 := by
    have ascending := coherent.ascending key
    have member := Session.history_of_lastWrites last
    rw [List.eq_cons_of_mem_head? head] at ascending member
    rcases List.mem_cons.mp member with rfl | member
    · exact le_rfl
    · exact (List.pairwise_cons.mp ascending).1 v member
  rcases held with stored | last
  · have inTree : v ∈ f.session.lsm.stamps key :=
      (LSMTree.mem_stamps_of_flat sound.flat).mpr (.inr stored)
    rcases sound.flushed.last key v inTree with initial | last
    · obtain ⟨version, held, rfl⟩ := LSMTree.mem_stamps.mp initial
      exact (sound.flushed.start.below.holds held).le.trans recorded
    · exact committed last
  · exact committed last

theorem contents_of_head {f : OpenFamily cmp} {lsm : LSMTree cmp} (sound : f.Sound lsm) {key : Key}
    {w : Stamp} (head : (f.session.manager.history key).head? = some w) :
    contents options (.opened f) key = w.2 := by
  have whole : (Lifetime.opened f).Sound := ⟨lsm, sound⟩
  have member : w ∈ stamps options (.opened f) key :=
    (mem_stamps_iff whole).mpr (.inr (lastWrites_of_head head))
  have most := newest_eq_of_max (functional whole key) member fun v inside =>
    held_le sound head ((mem_stamps_iff whole).mp inside)
  rw [contents, most]
  rfl

theorem contents_session {f g : OpenFamily cmp} {lsm : LSMTree cmp} (sound : f.Sound lsm)
    (sound' : g.Sound lsm) (kept : ∀ key w, Holds (.opened f) key w → Holds (.opened g) key w)
    (effect : f.session.manager.Effect g.session.manager) :
    contents options (.opened g) =
      after ((newCommits (.opened f) (.opened g)).map Commit.writes) (contents options (.opened f)) := by
  have whole : (Lifetime.opened f).Sound := ⟨lsm, sound⟩
  have whole' : (Lifetime.opened g).Sound := ⟨lsm, sound'⟩
  have quiet {key : Key} (same : g.session.manager.lastWrites key = f.session.manager.lastWrites key) :
      contents options (.opened g) key = contents options (.opened f) key :=
    contents_congr whole whole' fun w =>
      ⟨held_session sound sound' fun v member => same ▸ member, kept key w⟩
  rcases effect.commits with same | ⟨txn, t, sequence, -, -, more⟩
  · funext key
    rw [quiet (by rw [lastWrites, lastWrites, same]), newCommits, same, Nat.sub_self]
    rfl
  · have gained : newCommits (.opened f) (.opened g) = [⟨txn, sequence, t.writes⟩] := by
      simp [newCommits, more]
    funext key
    rw [gained, List.map_singleton, after_cons, after_nil, apply_eq]
    cases last : (writesTo key t.writes).head? with
    | none =>
        refine quiet ?_
        rw [lastWrites, lastWrites, more, List.flatMap_cons, last]
        rfl
    | some content =>
        refine contents_of_head (w := (sequence, content)) sound' ?_
        rw [history, more, List.flatMap_cons, List.head?_append, List.head?_map, last]
        rfl

theorem contents_step (restorable : st.Restorable) (sound : st.Sound) {action : LifetimeAction}
    (keeps : KeepsMap options st action) (stepped : st.step options action = some st') :
    st'.contents options = after ((newCommits st st').map Commit.writes) (st.contents options) := by
  obtain ⟨all, committed⟩ := keeps
  obtain ⟨sound', kept⟩ := Sound.step restorable sound all stepped
  cases st with
  | closed d =>
      have held : ∀ key w, st'.Holds key w → Holds (.closed d : Lifetime cmp) key w := by
        intro key w held
        cases action with
        | start order again left =>
            obtain ⟨f, opens, rfl⟩ := Option.map_eq_some_iff.mp stepped
            obtain ⟨_, stores⟩ := Disk.Sound.start sound restorable all.2.1 all.2.2 all.1 opens
            obtain ⟨_, _, _, _, rfl⟩ := Disk.start_ok opens
            rcases held with stored | last
            · exact (stores key w).mp stored
            · cases last
        | interrupt order left =>
            obtain ⟨d', crashes, rfl⟩ := Option.map_eq_some_iff.mp stepped
            exact ((Disk.Sound.interrupt sound all.2.1 all.2.2 crashes).2 key w).mp held
        | create =>
            obtain rfl := Option.some.inj stepped
            exact held.imp_left (d.files.logs_listed.subset ·)
        | session action | crash files | shutdown point => cases stepped
      funext key
      exact contents_congr sound sound' fun w => ⟨held key w, kept key w⟩
  | opened f =>
      cases st' with
      | closed d =>
          obtain ⟨lsm, family⟩ := id sound
          obtain ⟨logs, remains, stored⟩ := ends family stepped
          funext key
          exact contents_congr sound sound' fun w =>
            ⟨held_before family (logs ▸ committed) remains stored, kept key w⟩
      | opened g =>
          cases action with
          | start order again left | create | interrupt order left => cases stepped
          | crash files | shutdown point =>
              obtain ⟨d, _, same⟩ := Option.map_eq_some_iff.mp stepped
              cases same
          | session action =>
              obtain ⟨lsm, family⟩ := id sound
              obtain ⟨g', moved, same⟩ := Option.map_eq_some_iff.mp stepped
              cases same
              have family' := (OpenFamily.Sound.step family all.2.1 all.2.2 moved).1
              obtain ⟨session, managed, rfl⟩ := Option.map_eq_some_iff.mp moved
              exact contents_session family family' kept (Session.session_effect managed)

/-! ## Runs -/

structure Lived (st : Lifetime cmp) : Prop where
  restorable : st.Restorable
  sound : st.Sound
  own : ∀ f, st = .opened f → f.session.MemTablesOwn

theorem Lived.step (lived : st.Lived) {action : LifetimeAction} (keeps : KeepsMap options st action)
    (stepped : st.step options action = some st') : st'.Lived where
  restorable := lived.restorable.step keeps.1.1 stepped
  sound := (lived.sound.step lived.restorable keeps.1 stepped).1
  own := by
    rintro g rfl
    cases st with
    | closed d =>
        cases action with
        | start order again left =>
            obtain ⟨f, opens, same⟩ := Option.map_eq_some_iff.mp stepped
            cases same
            obtain ⟨_, _, _, _, rfl⟩ := Disk.start_ok opens
            intro mem member entry held
            obtain rfl : mem = .new options.memtable := by
              simpa [Session.opened, LSMTree.reopened, LSMTree.memTables, LSMTree.new] using member
            cases held
        | interrupt order left =>
            obtain ⟨_, _, same⟩ := Option.map_eq_some_iff.mp stepped
            cases same
        | create => cases Option.some.inj stepped
        | session action | crash files | shutdown point => cases stepped
    | opened f =>
        cases action with
        | start order again left | create | interrupt order left => cases stepped
        | crash files | shutdown point =>
            obtain ⟨_, _, same⟩ := Option.map_eq_some_iff.mp stepped
            cases same
        | session action =>
            obtain ⟨lsm, family⟩ := lived.sound
            obtain ⟨_, moved, same⟩ := Option.map_eq_some_iff.mp stepped
            cases same
            obtain ⟨session, managed, rfl⟩ := Option.map_eq_some_iff.mp moved
            exact Session.memTablesOwn_step family.flushed.faithful.coherent
              family.flushed.start.positive (lived.own f rfl) managed

theorem lived_initial : (.closed {} : Lifetime cmp).Lived where
  restorable := (@sound_of_run _ {} _ .refl).1
  sound := (@sound_of_run _ {} _ .refl).2
  own := by
    intro f same
    cases same

theorem contents_execute (lived : st.Lived) {actions : List LifetimeAction}
    (allowed : Allowed (step options) (KeepsMap options) st actions)
    (executed : execute (step options) st actions = some st') : st'.Lived ∧
      st'.contents options =
        after ((commitsAlong options st actions).map Commit.writes) (st.contents options) := by
  induction actions generalizing st with
  | nil =>
      obtain rfl := Option.some.inj executed
      exact ⟨lived, rfl⟩
  | cons action rest ih =>
      obtain ⟨next, stepped, executed⟩ := Option.bind_eq_some_iff.mp executed
      have moved := contents_step lived.restorable lived.sound allowed.1 stepped
      obtain ⟨lived', later⟩ := ih (lived.step allowed.1 stepped) (allowed.2 next stepped) executed
      refine ⟨lived', later.trans ?_⟩
      rw [moved, commitsAlong, stepped, List.map_append, after, after, after, List.foldr_append]

theorem contents_eq_map {f : OpenFamily cmp} {lsm : LSMTree cmp} (sound : f.Sound lsm) :
    contents options (.opened f) = Session.map lsm f.session := by
  have coherent := sound.flushed.faithful.coherent
  funext key
  have newestEq := Session.head?_eq_newest (coherent.ascending key)
  rw [Session.map_eq coherent, Session.lastCommitted, ← newestEq]
  cases head : (f.session.manager.history key).head? with
  | some w => exact contents_of_head sound head
  | none =>
      have none : f.session.manager.history key = [] := List.head?_eq_none_iff.mp head
      have last : f.session.manager.lastWrites key = [] :=
        List.eq_nil_iff_forall_not_mem.mpr fun w member =>
          List.not_mem_nil (none ▸ Session.history_of_lastWrites member)
      have same : newest (f.session.lsm.stamps key) = newest (lsm.stamps key) := by
        refine newest_congr (sound.flushed.start.functional key) fun w => ⟨fun member => ?_, ?_⟩
        · exact (sound.flushed.last key w member).resolve_right (last ▸ List.not_mem_nil)
        · exact sound.flushed.faithful.initial key w
      rw [contents, stamps, last, List.nil_append, same]
      rfl

theorem contents_initial : contents options (.closed {} : Lifetime cmp) = fun _ => none := by
  funext key
  have nothing : stamps options (.closed {} : Lifetime cmp) key = [] := by
    refine List.eq_nil_iff_forall_not_mem.mpr fun w member => ?_
    rcases (mem_stamps_iff lived_initial.sound).mp member with logged | stored
    · cases logged
    · simp [SSTableManager.Stores, SSTableManager.new, SSTableManager.level] at stored
  rw [contents, nothing]
  rfl

/-- After any run of sessions that leave only committed records in the log, whether they end by a crash,
in a recovery or by a shutdown, the family has the map of all commits of all sessions in their order. A latest read answers from it, for a key that the last session has not committed when a search
of the tree meets its writes in their order. -/
theorem answers_of_run {actions : List LifetimeAction} {f : OpenFamily cmp}
    (allowed : Allowed (step options) (KeepsMap options) (.closed {} : Lifetime cmp) actions)
    (executed : execute (step options) (.closed {} : Lifetime cmp) actions = some (.opened f)) :
    (Lifetime.opened f).contents options = after
        ((commitsAlong options (.closed {} : Lifetime cmp) actions).map Commit.writes) (fun _ => none) ∧
      ∀ key, (f.session.lastCommitted key = none →
          f.session.lsm.sstables.Searchable cmp ∧ OrderedAt f.session.lsm.sources key) →
        ∀ value, (f.session.get key value).Answers ((Lifetime.opened f).contents options key) := by
  obtain ⟨lived, reached⟩ := contents_execute lived_initial allowed executed
  obtain ⟨lsm, family⟩ := lived.sound
  refine ⟨reached.trans (congrArg _ contents_initial), fun key finds value => ?_⟩
  rw [contents_eq_map family]
  exact family.flushed.faithful.get_answers_map family.flushed.start (lived.own f rfl) finds value

def deleteAfterCrash : List LifetimeAction :=
  [.start [] false [{ number := 1 }]] ++
    (Session.commitCall 1 [([107], some [1]), ([108], some [2])]).map .session ++
    [.crash [{ number := 1, records := [.ofWrite 0 [107] 1 (some [1]), .ofWrite 0 [108] 1 (some [2])] }],
      .interrupt [] [{ number := 1, records := [.ofWrite 0 [107] 1 (some [1]), .ofWrite 0 [108] 1 (some [2])] },
        { number := 2 }],
      .start [1] false [{ number := 3 }]] ++
    (Session.commitCall 1 [([107], none)]).map .session

theorem answers_of_run_deleteAfterCrash :
    ∃ f : OpenFamily bytewiseComparator,
      execute (step {}) (.closed {}) deleteAfterCrash = some (.opened f) ∧
        (Lifetime.opened f).contents {} =
          after [[([107], none)], [([108], some [2]), ([107], some [1])]] (fun _ => none) ∧
        (f.session.get [108] []).Answers ((Lifetime.opened f).contents {} [108]) := by
  have facts : (execute (step {}) (.closed {} : Lifetime bytewiseComparator) deleteAfterCrash).any
      fun last => match last with
        | .closed _ => false
        | .opened f => decide (f.session.lsm.sstables.Searchable bytewiseComparator ∧
            OrderedAt f.session.lsm.sources [108]) := by decide +kernel
  obtain ⟨last, executed, facts⟩ := Option.any_eq_true _ _ |>.mp facts
  cases last with
  | closed d => cases facts
  | opened f =>
      have allowed : Allowed (step {}) (KeepsMap {}) (.closed {} : Lifetime bytewiseComparator)
          deleteAfterCrash := by decide +kernel
      have commits : (commitsAlong {} (.closed {} : Lifetime bytewiseComparator)
          deleteAfterCrash).map Commit.writes =
            [[([107], none)], [([108], some [2]), ([107], some [1])]] := by decide +kernel
      obtain ⟨reached, answers⟩ := answers_of_run allowed executed
      exact ⟨f, executed, commits ▸ reached,
        answers [108] (fun _ => of_decide_eq_true facts) []⟩

end Lifetime
end Lrdb
