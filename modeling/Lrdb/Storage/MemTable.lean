import Lrdb.Base.Versions
import Lrdb.Core.InternalKey
import Lrdb.Util.SkipList

/-!
# MemTables

A skip list from internal keys to values, with the byte count that decides when it is full.
-/

namespace Lrdb
open Versions

abbrev Version := Nat × ValueType × Value

abbrev Entry := InternalKey × Value

/-- `snapshot` zero reads the latest data. -/
def Visible (snapshot sequence : Nat) : Prop := snapshot = 0 ∨ sequence ≤ snapshot

instance (snapshot sequence : Nat) : Decidable (Visible snapshot sequence) := by
  unfold Visible; infer_instance

def Entry.version (entry : Entry) : Version := (entry.1.sequence, entry.1.type, entry.2)

def versionsOf (key : Key) (entries : List Entry) : List Version :=
  (entries.filter fun entry => entry.1.userKey = key).map Entry.version

def visibleVersions (snapshot : Nat) (versions : List Version) : List Version :=
  versions.filter fun version => Visible snapshot version.1

theorem mem_versionsOf {key : Key} {entries : List Entry} {version : Version} :
    version ∈ versionsOf key entries ↔
      ∃ entry ∈ entries, entry.1.userKey = key ∧ entry.version = version := by
  simp [versionsOf, and_assoc]

@[simp] theorem mem_visibleVersions {snapshot : Nat} {versions : List Version}
    {version : Version} : version ∈ visibleVersions snapshot versions ↔
      version ∈ versions ∧ Visible snapshot version.1 := by
  simp [visibleVersions]

@[simp] theorem visibleVersions_append (snapshot : Nat) (xs ys : List Version) :
    visibleVersions snapshot (xs ++ ys) =
      visibleVersions snapshot xs ++ visibleVersions snapshot ys := by
  simp [visibleVersions]

@[simp] theorem versionsOf_append (key : Key) (xs ys : List Entry) :
    versionsOf key (xs ++ ys) = versionsOf key xs ++ versionsOf key ys := by
  simp [versionsOf]

structure MemTableOptions where
  writeBufferSize : Nat := 64 * 1024 * 1024
  maxWriteBufferNumber : Nat := 6
  /-- `sizeof(MemTable)` and `sizeof(MemTableEntry)` on the platform. -/
  tableBytes : Nat := 512
  entryBytes : Nat := 64

structure MemTable (cmp : Comparator) where
  table : SkipList InternalKey Value (internalCompare cmp)
  memoryUsage : Nat
  numEntries : Nat
  immutable : Bool
  counted : numEntries = 0 ↔ table.nodes = []

namespace MemTable
variable {cmp : Comparator}

def new (options : MemTableOptions) : MemTable cmp :=
  ⟨.empty, options.tableBytes, 0, false, by simp⟩

def entries (mem : MemTable cmp) : List Entry := mem.table.nodes

def versions (mem : MemTable cmp) (key : Key) : List Version := versionsOf key mem.entries

def isEmpty (mem : MemTable cmp) : Bool := mem.numEntries == 0

def shouldFlush (options : MemTableOptions) (mem : MemTable cmp) : Bool :=
  options.writeBufferSize ≤ mem.memoryUsage

def setImmutable (mem : MemTable cmp) : MemTable cmp := { mem with immutable := true }

/-- `MemTableEntry::MemoryUsage`. -/
def entryMemoryUsage (options : MemTableOptions) (key : InternalKey) (value : Value) : Nat :=
  options.entryBytes + key.encode.length + value.length

def insert (options : MemTableOptions) (mem : MemTable cmp) (key : InternalKey)
    (value : Value) : MemTable cmp :=
  { mem with
    table := mem.table.insert key value
    memoryUsage := mem.memoryUsage + entryMemoryUsage options key value
    numEntries := mem.numEntries + 1
    counted := by simp [SkipList.insert_nonempty] }

/-- `Put`, `Delete` and `Merge` differ in the type and in the value stored. -/
def add (options : MemTableOptions) (mem : MemTable cmp) (type : ValueType) (key : Key)
    (value : Value) (sequence : Nat) : Except Status (MemTable cmp) :=
  if mem.immutable then .error (.invalidArgument "Cannot write to immutable MemTable")
  else .ok (mem.insert options (.make key sequence type) value)

def put (options : MemTableOptions) (mem : MemTable cmp) (key : Key) (value : Value)
    (sequence : Nat) : Except Status (MemTable cmp) :=
  mem.add options .kValue key value sequence

def delete (options : MemTableOptions) (mem : MemTable cmp) (key : Key) (sequence : Nat) :
    Except Status (MemTable cmp) :=
  mem.add options .kDeletion key [] sequence

/-- The result of `Get`: whether it returned true, and what its out parameters hold. -/
abbrev GetResult := Bool × ReadResult

/-- What `Get` reports for the entry it stops at. A merge in progress appends to the value. -/
def report (merge : Bool) (value : Value) : ValueType → Value → GetResult
  | .kValue, stored => (true, ⟨.ok, if merge then value ++ stored else stored⟩)
  | .kDeletion, _ =>
      if merge then (true, ⟨.ok, value⟩) else (false, ⟨.deleted "Key was deleted", value⟩)
  | .kMerge, stored =>
      (true, ⟨.mergeInProgress, if merge then value ++ stored else stored⟩)

def miss (value : Value) : GetResult := (false, ⟨.notFound "Key not found", value⟩)

/-- The loop of `Get` over the nodes from the seek position on. -/
def getLoop (key : Key) (snapshot : Nat) (merge : Bool) (value : Value) : List Entry → GetResult
  | [] => miss value
  | (internalKey, stored) :: rest =>
      if internalKey.userKey ≠ key then miss value
      else if 0 < snapshot ∧ snapshot < internalKey.sequence then
        getLoop key snapshot merge value rest
      else report merge value internalKey.type stored

def seekKey (key : Key) : InternalKey := .make key (2 ^ 64 - 1) .kValue

/-- `status` and `value` are what the out parameters hold on entry. -/
def get (mem : MemTable cmp) (key : Key) (snapshot : Nat) (status : Status) (value : Value) :
    GetResult :=
  getLoop key snapshot status.isMergeInProgress value (mem.table.seek (seekKey key))

/-- What a reader reports when the newest visible version is `found`. -/
def answer (merge : Bool) (value : Value) : Option Version → GetResult
  | none => miss value
  | some (_, type, stored) => report merge value type stored

private theorem greatest_sequence : (2 ^ 64 - 1) % sequenceLimit = sequenceLimit - 1 := by decide

private theorem seekKey_sequence (key : Key) : (seekKey key).sequence = sequenceLimit - 1 := by
  refine Eq.trans ?_ greatest_sequence
  rw [seekKey, InternalKey.make]

private theorem seekKey_userKey (key : Key) : (seekKey key).userKey = key := rfl

private theorem seekKey_type (key : Key) : (seekKey key).type.toNat = 1 := rfl

private theorem not_lt_seekKey (cmp : Comparator) {k : InternalKey} {key : Key}
    (same : k.userKey = key) : internalCompare cmp k (seekKey key) ≠ .lt := by
  have least : 1 ≤ k.type.toNat := by cases k.type <;> decide
  rw [Ne, internalCompare_lt, seekKey_userKey, seekKey_sequence, seekKey_type, same]
  rintro (before | ⟨-, greater | ⟨-, less⟩⟩)
  · exact before.ne rfl
  · exact absurd k.bounded (Nat.not_lt.mpr (Nat.le_of_pred_lt greater))
  · exact absurd less (Nat.not_lt.mpr least)

private theorem before_of_not_lt_seekKey {k : InternalKey} {key : Key}
    (kept : internalCompare cmp k (seekKey key) ≠ .lt) : ¬ cmp.Before k.userKey key :=
  fun before => kept (internalCompare_lt.mpr (.inl before))

theorem seek_seekKey (mem : MemTable cmp) (key : Key) : mem.table.seek (seekKey key) =
    mem.entries.filter fun entry => ¬ cmp.Before entry.1.userKey key := by
  rw [SkipList.seek, seekNodes_eq_filter mem.table.ascending, entries]
  refine List.filter_congr fun entry _ => ?_
  rw [Bool.eq_iff_iff, bne_iff_ne, decide_eq_true_eq]
  refine ⟨before_of_not_lt_seekKey, fun notBefore => ?_⟩
  rcases Comparator.not_before.mp notBefore with same | later
  · exact not_lt_seekKey cmp same
  · intro less
    rcases internalCompare_lt.mp less with before | ⟨same, -⟩
    · exact later.not_before before
    · exact later.ne same.symm

theorem versionsOf_seek (mem : MemTable cmp) (key : Key) :
    versionsOf key (mem.table.seek (seekKey key)) = mem.versions key := by
  rw [SkipList.seek, seekNodes_eq_filter mem.table.ascending, versionsOf, versions, versionsOf,
    entries, List.filter_filter]
  congr 1
  refine List.filter_congr fun entry _ => ?_
  by_cases same : entry.1.userKey = key
  · simp [same, not_lt_seekKey cmp same]
  · simp [same]

theorem versionsOf_descending {entries : List Entry}
    (ascending : Ascending (internalCompare cmp) entries) (key : Key) :
    (versionsOf key entries).Pairwise fun a b => b.1 ≤ a.1 := by
  refine List.pairwise_map.mpr ?_
  refine List.Pairwise.imp_of_mem ?_ (ascending.sublist List.filter_sublist)
  intro a b ha hb less
  have sameA : a.1.userKey = key := by simpa using (List.mem_filter.mp ha).2
  have sameB : b.1.userKey = key := by simpa using (List.mem_filter.mp hb).2
  rcases internalCompare_lt.mp less with before | ⟨-, greater | ⟨equal, -⟩⟩
  · exact absurd (sameA.trans sameB.symm) before.ne
  · exact greater.le
  · exact equal.ge

private theorem getLoop_eq_answer (key : Key) (snapshot : Nat) (merge : Bool) (value : Value)
    {entries : List Entry} (ascending : Ascending (internalCompare cmp) entries)
    (above : ∀ entry ∈ entries, ¬ cmp.Before entry.1.userKey key) :
    getLoop key snapshot merge value entries =
      answer merge value (newest (visibleVersions snapshot (versionsOf key entries))) := by
  induction entries with
  | nil => rfl
  | cons entry rest ih =>
      obtain ⟨k, stored⟩ := entry
      obtain ⟨less, tail⟩ := List.pairwise_cons.mp ascending
      have descending := versionsOf_descending ascending key
      by_cases same : k.userKey = key
      · have first : versionsOf key ((k, stored) :: rest) =
            (k.sequence, k.type, stored) :: versionsOf key rest := by
          simp [versionsOf, same, Entry.version]
        rw [first, List.pairwise_cons] at descending
        by_cases hidden : 0 < snapshot ∧ snapshot < k.sequence
        · have invisible : ¬ Visible snapshot k.sequence := by
            simp only [Visible]
            omega
          rw [first, getLoop, if_neg (not_not.mpr same), if_pos hidden,
            ih tail fun x member => above x (List.mem_cons_of_mem _ member)]
          simp [visibleVersions, invisible]
        · have visible : Visible snapshot k.sequence := by
            simp only [Visible]
            omega
          have reads : newest (visibleVersions snapshot
              ((k.sequence, k.type, stored) :: versionsOf key rest)) =
              some (k.sequence, k.type, stored) := by
            rw [visibleVersions, List.filter_cons_of_pos (by simpa using visible)]
            refine newest_of_descending fun version member => ?_
            exact descending.1 version (List.mem_filter.mp member).1
          rw [first, getLoop, if_neg (not_not.mpr same), if_neg hidden, reads, answer]
      · -- The keys below are skipped by the seek, so all that follow are greater.
        have before : cmp.Before key k.userKey := by
          rcases Comparator.not_before.mp (above _ List.mem_cons_self) with equal | before
          · exact absurd equal same
          · exact before
        have absent : versionsOf key ((k, stored) :: rest) = [] := by
          rw [List.eq_nil_iff_forall_not_mem]
          intro version member
          obtain ⟨x, member, equal, -⟩ := mem_versionsOf.mp member
          rcases List.mem_cons.mp member with rfl | member
          · exact same equal
          · rcases internalCompare_lt.mp (less x member) with later | ⟨equal', -⟩
            · exact (before.trans later).ne equal.symm
            · exact same (equal'.trans equal)
        rw [absent, getLoop, if_pos same]
        rfl

/-- `MemTable::Get` answers with the newest version visible to the snapshot. -/
theorem get_eq_answer (mem : MemTable cmp) (key : Key) (snapshot : Nat) (status : Status)
    (value : Value) : mem.get key snapshot status value =
      answer status.isMergeInProgress value
        (newest (visibleVersions snapshot (mem.versions key))) := by
  have ascending : Ascending (internalCompare cmp) (mem.table.seek (seekKey key)) :=
    mem.table.ascending.sublist (List.dropWhile_sublist _)
  have above : ∀ entry ∈ mem.table.seek (seekKey key), ¬ cmp.Before entry.1.userKey key := by
    intro entry member
    rw [SkipList.seek, seekNodes_eq_filter mem.table.ascending] at member
    refine before_of_not_lt_seekKey ?_
    simpa using (List.mem_filter.mp member).2
  rw [get, getLoop_eq_answer key snapshot _ value ascending above, versionsOf_seek]

@[simp] theorem entries_new (options : MemTableOptions) :
    (new options : MemTable cmp).entries = [] := rfl

@[simp] theorem entries_setImmutable (mem : MemTable cmp) :
    mem.setImmutable.entries = mem.entries := rfl

theorem mem_entries_insert {options : MemTableOptions} {mem : MemTable cmp} {key : InternalKey}
    {value : Value} {entry : Entry} : entry ∈ (mem.insert options key value).entries ↔
      entry = (key, value) ∨ entry ∈ mem.entries ∧ entry.1 ≠ key :=
  SkipList.mem_insert

theorem isEmpty_iff {mem : MemTable cmp} : mem.isEmpty ↔ mem.entries = [] := by
  rw [isEmpty, beq_iff_eq, mem.counted, entries]

theorem mem_versions_insert {options : MemTableOptions} {mem : MemTable cmp} {k : InternalKey}
    {value : Value} {key : Key} {version : Version} :
    version ∈ (mem.insert options k value).versions key ↔
      k.userKey = key ∧ version = (k.sequence, k.type, value) ∨
        version ∈ mem.versions key ∧
          ¬ (k.userKey = key ∧ version.1 = k.sequence ∧ version.2.1 = k.type) := by
  simp only [versions, mem_versionsOf, mem_entries_insert]
  constructor
  · rintro ⟨entry, rfl | ⟨member, different⟩, rfl, rfl⟩
    · exact .inl ⟨rfl, rfl⟩
    · refine .inr ⟨⟨entry, member, rfl, rfl⟩, fun ⟨keys, sequences, types⟩ => different ?_⟩
      rw [← InternalKey.make_self entry.1, ← InternalKey.make_self k, keys]
      exact congrArg₂ _ sequences types
  · rintro (⟨rfl, rfl⟩ | ⟨⟨entry, member, rfl, rfl⟩, different⟩)
    · exact ⟨(k, value), .inl rfl, rfl, rfl⟩
    · refine ⟨entry, .inr ⟨member, ?_⟩, rfl, rfl⟩
      rintro rfl
      exact different ⟨rfl, rfl, rfl⟩

theorem nodup_keys (mem : MemTable cmp) : (mem.entries.map Prod.fst).Nodup := by
  apply List.pairwise_map.mpr
  apply mem.table.ascending.imp
  rintro a b before same
  rw [same] at before
  exact absurd (internalCompare_eq.mpr rfl) (by rw [before]; decide)

theorem add_eq_ok {options : MemTableOptions} {mem mem' : MemTable cmp} {type : ValueType}
    {key : Key} {value : Value} {sequence : Nat} :
    mem.add options type key value sequence = .ok mem' ↔
      mem.immutable = false ∧ mem' = mem.insert options (.make key sequence type) value := by
  cases frozen : mem.immutable <;> simp [add, frozen, eq_comm]

end MemTable
end Lrdb
