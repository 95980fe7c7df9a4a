import Lrdb.Storage.MemTable

namespace Lrdb.MemTable
open Versions

inductive Write where
  | put (key : Key) (value : Value) (sequence : Nat)
  | delete (key : Key) (sequence : Nat)
  deriving DecidableEq

namespace Write

def key : Write → Key
  | put key _ _ | delete key _ => key

def sequence : Write → Nat
  | put _ _ sequence | delete _ sequence => sequence

def type : Write → ValueType
  | put .. => .kValue
  | delete .. => .kDeletion

def stored : Write → Value
  | put _ value _ => value
  | delete .. => []

def internalKey (w : Write) : InternalKey := .make w.key w.sequence w.type

def apply {cmp : Comparator} (options : MemTableOptions) (mem : MemTable cmp) :
    Write → Except Status (MemTable cmp)
  | put key value sequence => mem.put options key value sequence
  | delete key sequence => mem.delete options key sequence

end Write

variable {cmp : Comparator} (options : MemTableOptions)

def writeAll (mem : MemTable cmp) : List Write → Except Status (MemTable cmp)
  | [] => .ok mem
  | w :: rest => (w.apply options mem).bind fun mem => writeAll mem rest

def visibleWrites (writes : List Write) (key : Key) (snapshot : Nat) : List (Nat × Write) :=
  (writes.reverse.filter fun w => w.key = key ∧ Visible snapshot w.sequence).map fun w =>
    (w.sequence, w)

def latestWrite (writes : List Write) (key : Key) (snapshot : Nat) : Option Write :=
  (newest (visibleWrites writes key snapshot)).map Prod.snd

def answerOf (value : Value) : Option Write → GetResult
  | none => (false, ⟨.notFound "Key not found", value⟩)
  | some (.put _ stored _) => (true, ⟨.ok, stored⟩)
  | some (.delete ..) => (false, ⟨.deleted "Key was deleted", value⟩)

/-- Writes of one key under one sequence are of one type. -/
def Consistent (writes : List Write) : Prop :=
  ∀ w ∈ writes, ∀ w' ∈ writes, w.key = w'.key → w.sequence = w'.sequence → w.type = w'.type

instance (writes : List Write) : Decidable (Consistent writes) := by
  unfold Consistent; infer_instance

variable {options}

theorem apply_ok {mem mem' : MemTable cmp} {w : Write} (applied : w.apply options mem = .ok mem') :
    mem.immutable = false ∧ mem' = mem.insert options w.internalKey w.stored := by
  cases w with
  | put key value sequence => exact add_eq_ok.mp applied
  | delete key sequence => exact add_eq_ok.mp applied

theorem apply_of_mutable {mem : MemTable cmp} (accepts : mem.immutable = false) (w : Write) :
    w.apply options mem = .ok (mem.insert options w.internalKey w.stored) := by
  cases w with
  | put key value sequence => exact add_eq_ok.mpr ⟨accepts, rfl⟩
  | delete key sequence => exact add_eq_ok.mpr ⟨accepts, rfl⟩

theorem writeAll_of_mutable {mem : MemTable cmp} (accepts : mem.immutable = false)
    (writes : List Write) : ∃ mem', writeAll options mem writes = .ok mem' := by
  induction writes generalizing mem with
  | nil => exact ⟨mem, rfl⟩
  | cons w rest ih =>
      obtain ⟨mem', written⟩ := @ih (mem.insert options w.internalKey w.stored) accepts
      refine ⟨mem', ?_⟩
      rw [writeAll, apply_of_mutable accepts w]
      exact written

theorem writeAll_ok (cmp : Comparator) (options : MemTableOptions) (writes : List Write) :
    ∃ mem : MemTable cmp, writeAll options (new options) writes = .ok mem :=
  writeAll_of_mutable rfl writes

private theorem induction_from {P : List Write → MemTable cmp → Prop}
    (step : ∀ history mem w, P history mem →
      P (history ++ [w]) (mem.insert options w.internalKey w.stored))
    {history writes : List Write} {mem mem' : MemTable cmp} (held : P history mem)
    (written : writeAll options mem writes = .ok mem') : P (history ++ writes) mem' := by
  induction writes generalizing history mem with
  | nil =>
      obtain rfl := Except.ok.inj written
      rwa [List.append_nil]
  | cons w rest ih =>
      rw [writeAll] at written
      cases applied : w.apply options mem with
      | error status =>
          rw [applied] at written
          cases written
      | ok next =>
          obtain ⟨-, rfl⟩ := apply_ok applied
          rw [applied] at written
          have kept := ih (step history mem w held) written
          rwa [List.append_assoc] at kept

theorem writeAll_induction {P : List Write → MemTable cmp → Prop} (initial : P [] (new options))
    (step : ∀ history mem w, P history mem →
      P (history ++ [w]) (mem.insert options w.internalKey w.stored))
    {writes : List Write} {mem : MemTable cmp}
    (written : writeAll options (new options) writes = .ok mem) : P writes mem :=
  induction_from step initial written

/-! ## Reading -/

def Write.version (w : Write) : Version := (w.sequence, w.type, w.stored)

def writtenVersions (writes : List Write) (key : Key) : List Version :=
  (writes.reverse.filter fun w => w.key = key).map Write.version

theorem writtenVersions_append (writes : List Write) (w : Write) (key : Key) :
    writtenVersions (writes ++ [w]) key =
      if w.key = key then w.version :: writtenVersions writes key
      else writtenVersions writes key := by
  by_cases same : w.key = key <;> simp [writtenVersions, same]

theorem newest_writtenVersions (writes : List Write) (key : Key) (snapshot : Nat) :
    newest (visibleVersions snapshot (writtenVersions writes key)) =
      (latestWrite writes key snapshot).map Write.version := by
  have versions : visibleVersions snapshot (writtenVersions writes key) =
      (visibleWrites writes key snapshot).map
        (Prod.map id fun w => (w.type, w.stored)) := by
    rw [visibleVersions, writtenVersions, visibleWrites, List.filter_map, List.filter_filter,
      List.map_map]
    refine congrArg₂ _ rfl (List.filter_congr fun w _ => ?_)
    rw [Bool.eq_iff_iff, Bool.and_eq_true, decide_eq_true_iff, Function.comp, decide_eq_true_iff,
      decide_eq_true_iff]
    exact and_comm
  rw [versions, newest_map, latestWrite, Option.map_map]
  cases found : newest (visibleWrites writes key snapshot) with
  | none => rfl
  | some pair =>
      obtain ⟨w, -, rfl⟩ := List.mem_map.mp (newest_mem found)
      rfl

theorem answer_version (value : Value) (write : Option Write) :
    answer false value (write.map Write.version) = answerOf value write := by
  rcases write with _ | (_ | _) <;> rfl

theorem newest_visible_cons_filter (snapshot : Nat) (v : Version) (versions : List Version) :
    newest (visibleVersions snapshot (v :: versions.filter fun x => x.1 ≠ v.1)) =
      newest (visibleVersions snapshot (v :: versions)) := by
  by_cases visible : Visible snapshot v.1
  · rw [visibleVersions, visibleVersions, List.filter_cons_of_pos (by simpa using visible),
      List.filter_cons_of_pos (by simpa using visible), List.filter_comm]
    exact newest_cons_filter v _
  · rw [visibleVersions, visibleVersions, List.filter_cons_of_neg (by simpa using visible),
      List.filter_cons_of_neg (by simpa using visible), List.filter_filter]
    congr 1
    refine List.filter_congr fun x _ => ?_
    by_cases same : x.1 = v.1 <;> simp [same, visible]

theorem functional_versions {mem : MemTable cmp} {history : List Write}
    (consistent : Consistent history)
    (written : ∀ key, ∀ v ∈ mem.versions key,
      ∃ w ∈ history, w.key = key ∧ w.sequence = v.1 ∧ w.type = v.2.1) (key : Key) :
    Functional (mem.versions key) := by
  intro a memberA b memberB same
  obtain ⟨w, inside, keyW, sequenceW, typeW⟩ := written key a memberA
  obtain ⟨w', inside', keyW', sequenceW', typeW'⟩ := written key b memberB
  have types : a.2.1 = b.2.1 := by
    rw [← typeW, ← typeW']
    exact consistent w inside w' inside' (keyW.trans keyW'.symm)
      (sequenceW.trans (same.trans sequenceW'.symm))
  obtain ⟨x, memberX, userX, rfl⟩ := mem_versionsOf.mp memberA
  obtain ⟨y, memberY, userY, rfl⟩ := mem_versionsOf.mp memberB
  have keys : x.1 = y.1 := by
    rw [← InternalKey.make_self x.1, ← InternalKey.make_self y.1, userX, userY]
    exact congrArg₂ _ same types
  rw [List.inj_on_of_nodup_map mem.nodup_keys memberX memberY keys]

structure Recorded (history : List Write) (mem : MemTable cmp) : Prop where
  written : ∀ key, ∀ v ∈ mem.versions key,
    ∃ w ∈ history, w.key = key ∧ w.sequence = v.1 ∧ w.type = v.2.1
  latest : ∀ key snapshot, newest (visibleVersions snapshot (mem.versions key)) =
    newest (visibleVersions snapshot (writtenVersions history key))

theorem Recorded.insert {history : List Write} {mem : MemTable cmp} (recorded : Recorded history mem)
    {w : Write} (consistent : Consistent (history ++ [w])) (bounded : w.sequence < sequenceLimit) :
    Recorded (history ++ [w]) (mem.insert options w.internalKey w.stored) := by
  have stored : w.internalKey.sequence = w.sequence := InternalKey.make_sequence bounded ..
  have written : ∀ key, ∀ v ∈ (mem.insert options w.internalKey w.stored).versions key,
      ∃ w' ∈ history ++ [w], w'.key = key ∧ w'.sequence = v.1 ∧ w'.type = v.2.1 := by
    intro key v member
    rcases mem_versions_insert.mp member with ⟨same, rfl⟩ | ⟨member, -⟩
    · exact ⟨w, by simp, same, stored.symm, rfl⟩
    · obtain ⟨w', inside, facts⟩ := recorded.written key v member
      exact ⟨w', List.mem_append_left _ inside, facts⟩
  refine ⟨written, fun key snapshot => ?_⟩
  have functional := functional_versions consistent written key
  rw [writtenVersions_append]
  split
  · rename_i same
    -- The versions under the sequence of the write are of its type, and give way to it.
    have replaced : ∀ v, v ∈ (mem.insert options w.internalKey w.stored).versions key ↔
        v ∈ w.version :: (mem.versions key).filter fun v => v.1 ≠ w.sequence := by
      intro v
      rw [mem_versions_insert, List.mem_cons, List.mem_filter, stored]
      refine or_congr (by simp [Write.internalKey, Write.version, same]) (and_congr_right fun held => ?_)
      rw [decide_eq_true_eq]
      refine not_congr ⟨fun ⟨_, equal, _⟩ => equal, fun equal => ⟨same, equal, ?_⟩⟩
      obtain ⟨w', inside, keys, sequences, types⟩ := recorded.written key v held
      rw [← types]
      exact consistent w' (List.mem_append_left _ inside) w (by simp) (keys.trans same.symm)
        (sequences.trans equal)
    have split (versions : List Version) : visibleVersions snapshot (w.version :: versions) =
        visibleVersions snapshot [w.version] ++ visibleVersions snapshot versions :=
      visibleVersions_append snapshot [w.version] versions
    calc newest (visibleVersions snapshot ((mem.insert options w.internalKey w.stored).versions key))
      _ = newest (visibleVersions snapshot
            (w.version :: (mem.versions key).filter fun v => v.1 ≠ w.sequence)) := by
          refine (newest_congr (functional.subset fun v member => ?_) fun v => ?_).symm
          · exact (mem_visibleVersions.mp member).1
          · rw [mem_visibleVersions, mem_visibleVersions, replaced]
      _ = newest (visibleVersions snapshot (w.version :: mem.versions key)) :=
          newest_visible_cons_filter snapshot w.version _
      _ = newest (visibleVersions snapshot (w.version :: writtenVersions history key)) := by
          rw [split (mem.versions key), split (writtenVersions history key), newest_append,
            newest_append, recorded.latest]
  · rename_i different
    rw [← recorded.latest]
    have same : ∀ v, v ∈ (mem.insert options w.internalKey w.stored).versions key ↔
        v ∈ mem.versions key := by
      intro v
      rw [mem_versions_insert]
      simp [Write.internalKey, different]
    refine (newest_congr (functional.subset fun v member => ?_) fun v => ?_).symm
    · exact (mem_visibleVersions.mp member).1
    · rw [mem_visibleVersions, mem_visibleVersions, same]

theorem recorded_of_writeAll {writes : List Write} {mem : MemTable cmp}
    (written : writeAll options (new options) writes = .ok mem) (consistent : Consistent writes)
    (bounded : ∀ w ∈ writes, w.sequence < sequenceLimit) : Recorded writes mem := by
  refine writeAll_induction (P := fun history mem => Consistent history →
    (∀ w ∈ history, w.sequence < sequenceLimit) → Recorded history mem)
    (fun _ _ => ?_) (fun history mem w kept consistent bounded => ?_) written consistent bounded
  · exact ⟨fun key v member => (nomatch member), fun key snapshot => rfl⟩
  · have recorded := kept
      (fun a memberA b memberB => consistent a (List.mem_append_left _ memberA) b
        (List.mem_append_left _ memberB))
      fun a member => bounded a (List.mem_append_left _ member)
    exact recorded.insert consistent (bounded w (by simp))

/-- Writes to a fresh memtable succeed, and every read answers from the write of greatest sequence
visible to it. -/
theorem get_answers_latestWrite (cmp : Comparator) (options : MemTableOptions)
    (writes : List Write) (consistent : Consistent writes)
    (bounded : ∀ w ∈ writes, w.sequence < sequenceLimit) :
    ∃ mem : MemTable cmp, writeAll options (new options) writes = .ok mem ∧
      ∀ key snapshot status value, status.isMergeInProgress = false →
        mem.get key snapshot status value = answerOf value (latestWrite writes key snapshot) := by
  obtain ⟨mem, written⟩ := writeAll_ok cmp options writes
  refine ⟨mem, written, fun key snapshot status value fresh => ?_⟩
  rw [get_eq_answer, (recorded_of_writeAll written consistent bounded).latest,
    newest_writtenVersions, fresh, answer_version]

def rewrites : List Write :=
  [.put [107] [1] 5, .delete [107] 9, .put [107, 0] [7] 6, .put [107] [2] 5]

theorem get_answers_latestWrite_rewrites : ∃ mem : MemTable bytewiseComparator,
    writeAll {} (new {}) rewrites = .ok mem ∧
      ∀ key snapshot status value, status.isMergeInProgress = false →
        mem.get key snapshot status value = answerOf value (latestWrite rewrites key snapshot) :=
  get_answers_latestWrite bytewiseComparator {} rewrites (by decide) (by decide)

end Lrdb.MemTable
