import Lrdb.Base.Runs
import Lrdb.Storage.Stamps

namespace Lrdb.PointRead
open Versions LSMTree Runs

variable {cmp : Comparator} (options : LSMTreeOptions)

structure State (cmp : Comparator) where
  tree : LSMTree cmp
  /-- The greatest sequence written. -/
  last : Nat
  /-- Every write, the latest first. -/
  writes : List (Key × Version)

inductive Call where
  | put (key : Key) (value : Value) (sequence : Nat)
  | delete (key : Key) (sequence : Nat)
  | switchMemTable
  | flushOldestMemTable
  | flushAll

namespace State

def initial : State cmp := ⟨.new options, 0, []⟩

def writesOf (st : State cmp) (key : Key) : List Version :=
  (st.writes.filter fun write => write.1 = key).map Prod.snd

def lastWrite (st : State cmp) (key : Key) (snapshot : Nat) : Option Value :=
  (newest (visibleVersions snapshot (st.writesOf key))).bind payload

def succeed (st : State cmp) (result : Status × LSMTree cmp) : Option (State cmp) :=
  if result.1.isOk then some { st with tree := result.2 } else none

def write (st : State cmp) (key : Key) (version : Version) (result : Status × LSMTree cmp) :
    Option (State cmp) :=
  if st.last < version.1 ∧ version.1 < sequenceLimit ∧ result.1.isOk then
    some ⟨result.2, version.1, (key, version) :: st.writes⟩
  else none

def step (st : State cmp) : Call → Option (State cmp)
  | .put key value sequence =>
      st.write key (sequence, .kValue, value) (st.tree.put options key value sequence)
  | .delete key sequence =>
      st.write key (sequence, .kDeletion, []) (st.tree.delete options key sequence)
  | .switchMemTable => do
      let tree ← (st.tree.switchMemTable options).toOption
      some { st with tree := tree }
  | .flushOldestMemTable => st.succeed (st.tree.flushOldestMemTable options)
  | .flushAll => st.succeed (st.tree.flushAll options)

def FlushesSafely (st : State cmp) : Call → Prop
  | .flushOldestMemTable =>
      ∀ mem ∈ st.tree.immutables.head?, FlushSafe cmp options.writer mem.entries
  | .flushAll => ∀ mem ∈ st.tree.memTables, FlushSafe cmp options.writer mem.entries
  | _ => True

instance (st : State cmp) : (call : Call) → Decidable (st.FlushesSafely options call)
  | .flushOldestMemTable => inferInstanceAs (Decidable
      (∀ mem ∈ st.tree.immutables.head?, FlushSafe cmp options.writer mem.entries))
  | .flushAll => inferInstanceAs (Decidable
      (∀ mem ∈ st.tree.memTables, FlushSafe cmp options.writer mem.entries))
  | .put .. | .delete .. | .switchMemTable => inferInstanceAs (Decidable True)

end State

structure Recorded (st : State cmp) : Prop where
  searchable : st.tree.sstables.Searchable cmp
  ordered : SearchOrdered st.tree.sources
  holds : ∀ key version, Holds st.tree.sources key version ↔ (key, version) ∈ st.writes
  bounded : ∀ write ∈ st.writes, write.2.1 ≤ st.last
  ascending : st.writes.Pairwise fun later earlier => earlier.2.1 < later.2.1

variable {options}

theorem recorded_initial : Recorded (State.initial options : State cmp) where
  searchable := SSTableManager.searchable_new
  ordered := searchOrdered_new
  holds := fun key version => by simpa [State.initial] using not_holds_new
  bounded := by simp [State.initial]
  ascending := .nil

theorem Recorded.moved {st : State cmp} (recorded : Recorded st) {tree : LSMTree cmp}
    (searchable : tree.sstables.Searchable cmp)
    (moved : Moved st.tree.sources tree.sources) : Recorded { st with tree := tree } where
  searchable := searchable
  ordered := moved.searchOrdered recorded.ordered
  holds := fun key version => moved.holds.trans (recorded.holds key version)
  bounded := recorded.bounded
  ascending := recorded.ascending

theorem Recorded.switched {st : State cmp} (recorded : Recorded st) :
    Recorded { st with tree := st.tree.switched options } where
  searchable := recorded.searchable
  ordered := searchOrdered_switched recorded.ordered
  holds := by
    intro key version
    rw [sources_switched, holds_cons]
    simpa using recorded.holds key version
  bounded := recorded.bounded
  ascending := recorded.ascending

theorem Recorded.landing {st : State cmp} (recorded : Recorded st) :
    Recorded { st with tree := st.tree.landing options } := by
  unfold LSMTree.landing
  split
  · exact recorded.switched
  · exact recorded

theorem Recorded.flushOldest {st : State cmp} (recorded : Recorded st)
    (safe : ∀ mem ∈ st.tree.immutables.head?, FlushSafe cmp options.writer mem.entries)
    {status : Status} {tree : LSMTree cmp} (success : status.isOk)
    (flushed : st.tree.flushOldestMemTable options = (status, tree)) :
    Recorded { st with tree := tree } := by
  rcases moved_of_flush recorded.searchable.toNumbered success flushed with rfl | moved
  · exact recorded
  · exact recorded.moved (searchable_of_flush recorded.searchable safe success flushed) moved

theorem Recorded.flushImmutables {st : State cmp} (recorded : Recorded st) (n : Nat)
    (safe : ∀ mem ∈ st.tree.immutables, FlushSafe cmp options.writer mem.entries)
    {status : Status} {tree : LSMTree cmp} (success : status.isOk)
    (flushed : flushImmutables options n st.tree = (status, tree)) :
    Recorded { st with tree := tree } := by
  induction n generalizing st with
  | zero =>
      obtain ⟨-, rfl⟩ := Prod.ext_iff.mp flushed
      exact recorded
  | succ n ih =>
      rw [LSMTree.flushImmutables] at flushed
      rcases first : st.tree.flushOldestMemTable options with ⟨reason, next⟩
      simp only [first] at flushed
      split at flushed
      · rename_i fine
        have kept := recorded.flushOldest
          (fun mem member => safe mem (List.mem_of_mem_head? member)) fine first
        refine @ih { st with tree := next } kept (fun mem member => safe mem ?_) flushed
        rcases flushOldestMemTable_ok fine first with ⟨-, rfl⟩ | ⟨oldest, rest, found, rest'⟩
        · exact member
        · rw [found]
          rcases rest' with ⟨-, rfl⟩ | ⟨-, table, -, rfl⟩ <;> exact List.mem_cons_of_mem _ member
      · rename_i failed
        obtain ⟨rfl, -⟩ := Prod.ext_iff.mp flushed
        exact absurd success failed

theorem Recorded.flushAll {st : State cmp} (recorded : Recorded st)
    (safe : ∀ mem ∈ st.tree.memTables, FlushSafe cmp options.writer mem.entries)
    {status : Status} {tree : LSMTree cmp} (success : status.isOk)
    (flushed : st.tree.flushAll options = (status, tree)) : Recorded { st with tree := tree } := by
  have older : ∀ mem ∈ st.tree.immutables, FlushSafe cmp options.writer mem.entries :=
    fun mem member => safe mem (List.mem_cons_of_mem _ (List.mem_reverse.mpr member))
  unfold LSMTree.flushAll at flushed
  dsimp only at flushed
  split at flushed
  · rename_i reason failed
    obtain ⟨rfl, -⟩ := Prod.ext_iff.mp flushed
    split at failed
    · cases failed
    · unfold LSMTree.switchMemTable at failed
      split at failed
      · cases failed
        cases success
      · cases failed
  · rename_i base found
    split at found
    · obtain rfl := Except.ok.inj found
      exact recorded.flushImmutables _ older success flushed
    · obtain rfl := switchMemTable_ok found
      refine recorded.switched.flushImmutables
        _ (fun mem member => ?_) success flushed
      rcases List.mem_append.mp member with old | new
      · exact older mem old
      · obtain rfl := List.mem_singleton.mp new
        exact safe st.tree.mutableMemTable (List.mem_cons_self ..)

theorem Recorded.store {st : State cmp} (recorded : Recorded st) {type : ValueType} {key : Key}
    {value : Value} {sequence : Nat} (newer : st.last < sequence)
    (bounded : sequence < sequenceLimit) :
    Recorded ⟨st.tree.store options type key value sequence, sequence,
      (key, (sequence, type, value)) :: st.writes⟩ := by
  have stored := InternalKey.make_sequence bounded key type
  have older : ∀ source ∈ st.tree.sources, ∀ k, ∀ v ∈ source k, v.1 < sequence := by
    intro source member k v held
    have written := (recorded.holds k v).mp ⟨source, member, held⟩
    exact (recorded.bounded _ written).trans_lt newer
  refine ⟨recorded.searchable, ?_, fun k v => ?_, ?_, ?_⟩
  · exact searchOrdered_store recorded.ordered bounded fun source member v held =>
      (older source (List.mem_of_mem_tail member) key v held).le
  · have before := recorded.holds k v
    rw [sources_eq_cons, holds_cons] at before
    rw [sources_store, holds_cons, MemTable.mem_versions_insert, List.mem_cons, ← before, stored]
    constructor
    · rintro ((⟨rfl, rfl⟩ | ⟨held, -⟩) | held)
      · exact .inl rfl
      · exact .inr (.inl held)
      · exact .inr (.inr held)
    · rintro (equal | held | held)
      · obtain ⟨rfl, rfl⟩ := Prod.mk.inj equal
        exact .inl (.inl ⟨rfl, rfl⟩)
      · refine .inl (.inr ⟨held, fun ⟨_, same, _⟩ => ?_⟩)
        exact absurd same (older _ (List.mem_cons_self ..) k v held).ne
      · exact .inr held
  · intro write member
    rcases List.mem_cons.mp member with rfl | old
    · exact le_rfl
    · exact ((recorded.bounded write old).trans_lt newer).le
  · exact List.pairwise_cons.mpr
      ⟨fun write member => (recorded.bounded write member).trans_lt newer, recorded.ascending⟩

theorem Recorded.write {st st' : State cmp} (recorded : Recorded st) {type : ValueType} {key : Key}
    {value : Value} {sequence : Nat}
    (written : st.write key (sequence, type, value)
      (st.tree.write options type key value sequence) = some st') : Recorded st' := by
  unfold State.write at written
  split at written
  · rename_i accepted
    obtain ⟨newer, bounded, success⟩ := accepted
    obtain rfl := Option.some.inj written
    have landed := write_ok (Nat.ne_zero_of_lt newer) success
      (Prod.mk.eta (p := st.tree.write options type key value sequence)).symm
    rw [landed]
    exact recorded.landing.store newer bounded
  · cases written

theorem Recorded.step {st st' : State cmp} {call : Call} (safe : st.FlushesSafely options call)
    (stepped : st.step options call = some st') (recorded : Recorded st) : Recorded st' := by
  cases call with
  | put key value sequence => exact recorded.write stepped
  | delete key sequence => exact recorded.write stepped
  | switchMemTable =>
      obtain ⟨tree, switched, kept⟩ := Option.bind_eq_some_iff.mp stepped
      obtain rfl := Option.some.inj kept
      cases result : st.tree.switchMemTable options with
      | error status => simp [result, Except.toOption] at switched
      | ok next =>
          obtain rfl : next = tree := by simpa [result, Except.toOption] using switched
          rw [switchMemTable_ok result]
          exact recorded.switched
  | flushOldestMemTable =>
      simp only [State.step, State.succeed] at stepped
      split at stepped
      · rename_i success
        obtain rfl := Option.some.inj stepped
        exact recorded.flushOldest safe success rfl
      · cases stepped
  | flushAll =>
      simp only [State.step, State.succeed] at stepped
      split at stepped
      · rename_i success
        obtain rfl := Option.some.inj stepped
        exact recorded.flushAll safe success rfl
      · cases stepped

theorem recorded_of_run {st : State cmp}
    (run : Run (State.step options) (State.FlushesSafely options) (.initial options) st) :
    Recorded st :=
  run.invariant (fun _ _ _ safe stepped recorded => recorded.step safe stepped) recorded_initial

theorem Recorded.versions_eq {st : State cmp} (recorded : Recorded st) (key : Key)
    (snapshot : Nat) :
    newest (visibleVersions snapshot (versionsIn st.tree.sources key)) =
      newest (visibleVersions snapshot (st.writesOf key)) := by
  have unique : ∀ x ∈ st.writes, ∀ y ∈ st.writes, x.2.1 = y.2.1 → x = y := by
    have distinct : (st.writes.map fun write => write.2.1).Nodup :=
      List.pairwise_map.mpr (recorded.ascending.imp fun less => less.ne')
    exact fun x hx y hy same => List.inj_on_of_nodup_map distinct hx hy same
  refine newest_congr ?_ fun version => ?_
  · intro x hx y hy same
    simp only [mem_visibleVersions, State.writesOf, List.mem_map, List.mem_filter,
      decide_eq_true_eq] at hx hy
    obtain ⟨⟨a, ⟨ha, -⟩, rfl⟩, -⟩ := hx
    obtain ⟨⟨b, ⟨hb, -⟩, rfl⟩, -⟩ := hy
    exact congrArg Prod.snd (unique a ha b hb same)
  · rw [mem_visibleVersions, mem_visibleVersions, mem_versionsIn, recorded.holds]
    simp [State.writesOf]

theorem Recorded.functional {st : State cmp} (recorded : Recorded st) (key : Key) :
    Functional (st.tree.stamps key) := by
  have distinct : (st.writes.map fun write => write.2.1).Nodup :=
    List.pairwise_map.mpr (recorded.ascending.imp Nat.ne_of_gt)
  intro x inX y inY same
  obtain ⟨v, heldV, rfl⟩ := mem_stamps.mp inX
  obtain ⟨w, heldW, rfl⟩ := mem_stamps.mp inY
  have writtenV := (recorded.holds key v).mp heldV
  have writtenW := (recorded.holds key w).mp heldW
  exact congrArg (fun write => stampOf write.2)
    (List.inj_on_of_nodup_map distinct writtenV writtenW same)

/-- After any run of safe flushes a read returns the last write not above the snapshot, exactly when
no file shadows what a memtable holds. -/
theorem get_answers_lastWrite_iff {st : State cmp}
    (run : Run (State.step options) (State.FlushesSafely options) (.initial options) st) (key : Key)
    (snapshot : Nat) (value : Value) :
    (st.tree.get key snapshot value).Answers (st.lastWrite key snapshot) ↔
      st.tree.Unshadowed key snapshot := by
  have recorded := recorded_of_run run
  rw [State.lastWrite, ← recorded.versions_eq]
  exact get_answers_newest_iff recorded.searchable (recorded.ordered.orderedAt key) snapshot value

def rewriteAfterFlush : List Call :=
  [.put [107] [1] 1, .flushAll, .put [107] [2] 2]

theorem get_answers_lastWrite_iff_rewriteAfterFlush :
    ∃ st, execute (State.step {}) (.initial {} : State bytewiseComparator) rewriteAfterFlush =
        some st ∧
      ((st.tree.get [107] 1 []).Answers (st.lastWrite [107] 1) ↔ st.tree.Unshadowed [107] 1) := by
  obtain ⟨st, executed⟩ : ∃ st, execute (State.step {})
      (.initial {} : State bytewiseComparator) rewriteAfterFlush = some st :=
    Option.isSome_iff_exists.mp (by decide +kernel)
  have safe : Allowed (State.step {}) (State.FlushesSafely {})
      (.initial {} : State bytewiseComparator) rewriteAfterFlush := by decide +kernel
  exact ⟨st, executed, get_answers_lastWrite_iff (execute_run _ safe executed) [107] 1 []⟩

theorem get_answers_older_write :
    ¬ ∀ st : State bytewiseComparator, Run (State.step {}) free (.initial {}) st →
      ∀ key snapshot value,
        (st.tree.get key snapshot value).Answers (st.lastWrite key snapshot) := by
  intro always
  have wrong : (execute (State.step {}) (.initial {} : State bytewiseComparator)
      rewriteAfterFlush).any fun st =>
        ¬ (st.tree.get [107] 0 []).Answers (st.lastWrite [107] 0) := by decide +kernel
  obtain ⟨st, executed, wrong⟩ := Option.any_eq_true _ _ |>.mp wrong
  have run := execute_run rewriteAfterFlush (allowed_free _ _ _) executed
  exact of_decide_eq_true wrong (always st run [107] 0 [])

end Lrdb.PointRead
