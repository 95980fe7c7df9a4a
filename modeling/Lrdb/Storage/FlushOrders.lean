import Mathlib.Data.List.Chain
import Lrdb.Storage.FlushRead
import Lrdb.Util.BuiltInComparators

namespace Lrdb
open Versions SSTable

def FindsNewest (cmp : Comparator) (table : SSTable) (key : Key) (versions : List Version) : Prop :=
  ∃ v ∈ versions, (∀ other ∈ versions, other.1 ≤ v.1) ∧
    ∀ value, outcome (table.get cmp key 0 value) = v.tells

def FlushFinds {cmp : Comparator} (options : SSTableWriterOptions) (mem : MemTable cmp)
    (fileNumber : Nat) : Prop :=
  ∃ table, flushEntries cmp options mem.entries fileNumber = .ok table ∧
    table.readIndex cmp = .ok ∧
      ∀ entry ∈ mem.entries, FindsNewest cmp table entry.1.userKey (mem.versions entry.1.userKey)

/-- The orders agree on the memtable: each internal key is after the one that precedes it in byte
order, the range of the file fits its first keys, and the newest version of a key that the search
reaches tells what a newest version tells. -/
structure OrdersAgree (order : BuiltIn) (options : SSTableWriterOptions)
    (mem : MemTable order.comparator) (fileNumber : Nat) : Prop where
  ascending : (sortedEntries mem.entries).IsChain fun a b =>
    order.compare a.1.encode b.1.encode = .lt
  range : (layout order.comparator options mem.entries fileNumber).RangeFits order.comparator
  newest : ∀ entry ∈ mem.entries, ∃ v ∈ mem.versions entry.1.userKey,
    (∀ other ∈ mem.versions entry.1.userKey, other.1 ≤ v.1) ∧
      ∃ r ∈ newest ((layout order.comparator options mem.entries fileNumber).reached
        order.comparator entry.1.userKey), Version.tells r = v.tells

instance (order : BuiltIn) (options : SSTableWriterOptions) (mem : MemTable order.comparator)
    (fileNumber : Nat) : Decidable (OrdersAgree order options mem fileNumber) :=
  decidable_of_iff (_ ∧ _ ∧ _) ⟨fun ⟨a, b, c⟩ => ⟨a, b, c⟩, fun ⟨a, b, c⟩ => ⟨a, b, c⟩⟩

theorem visibleVersions_zero (versions : List Version) : visibleVersions 0 versions = versions := by
  simp [visibleVersions, Visible]

theorem outcome_latest {cmp : Comparator} {table : SSTable}
    (filtered : ∀ entry ∈ table.entries, table.bloom.all fun f => f.mayContain entry.1.userKey)
    (key : Key) (value : Value) : outcome (table.get cmp key 0 value) =
      ((newest (table.reached cmp key)).map Version.tells).getD .absence := by
  rw [get_eq_choice, outcome_report, choice_eq_reached filtered, visibleVersions_zero]

theorem findsNewest_iff {cmp : Comparator} {table : SSTable}
    (filtered : ∀ entry ∈ table.entries, table.bloom.all fun f => f.mayContain entry.1.userKey)
    (key : Key) (versions : List Version) : FindsNewest cmp table key versions ↔
      ∃ v ∈ versions, (∀ other ∈ versions, other.1 ≤ v.1) ∧
        ∃ r ∈ newest (table.reached cmp key), Version.tells r = v.tells := by
  unfold FindsNewest
  refine exists_congr fun v => and_congr_right fun _ => and_congr_right fun _ => ?_
  simp only [outcome_latest filtered, forall_const]
  cases newest (table.reached cmp key) with
  | none => simp [(Version.tells_ne_absence v).symm]
  | some r => simp

theorem chain_compare_iff {order : BuiltIn} {entries : List Entry}
    (fits : ∀ entry ∈ entries, order.Fits entry.1.userKey) :
    ((sortedEntries entries).IsChain fun a b => order.comparator.compare a.1.encode b.1.encode = .lt) ↔
      (sortedEntries entries).IsChain fun a b => order.compare a.1.encode b.1.encode = .lt := by
  have wide {entry : Entry} (member : entry ∈ sortedEntries entries) :
      order.width ≤ entry.1.encode.length := by
    have user := (fits entry (mem_sortedEntries.mp member)).le
    rw [InternalKey.length_encode]
    omega
  refine List.IsChain.iff_of_mem_imp fun a b memberA memberB => ?_
  rw [BuiltIn.comparator_compare (wide memberA) (wide memberB)]

/-! ## When the orders agree -/

theorem ordersAgree_of_safe {order : BuiltIn} {options : SSTableWriterOptions}
    {mem : MemTable order.comparator} {fileNumber : Nat}
    (fits : ∀ entry ∈ mem.entries, order.Fits entry.1.userKey)
    (ascending : (sortedEntries mem.entries).IsChain fun a b =>
      order.compare a.1.encode b.1.encode = .lt)
    (safe : FlushSafe order.comparator options mem.entries) (nonempty : mem.entries ≠ []) :
    OrdersAgree order options mem fileNumber := by
  obtain ⟨table, flushed⟩ := (flushEntries_ok_iff options mem.entries fileNumber).mpr
    ((chain_compare_iff fits).mpr ascending)
  have written := written_of_flush flushed
  have laid := laid_of_flush safe nonempty flushed
  refine ⟨ascending, ?_, fun entry member => ?_⟩
  · rw [← written.eq_layout]
    exact (readIndex_ok_iff written.ascending).mp laid.opens
  rw [← written.eq_layout]
  apply (findsNewest_iff written.filtered _ _).mp
  have same (version : Version) : version ∈ table.versions entry.1.userKey ↔
      version ∈ mem.versions entry.1.userKey := mem_versions_of_flush flushed
  have some : newest (table.versions entry.1.userKey) ≠ none := by
    intro none
    have here := (same entry.version).mpr (mem_versionsOf.mpr ⟨entry, member, rfl, rfl⟩)
    rw [newest_eq_none.mp none] at here
    cases here
  obtain ⟨v, found⟩ := Option.ne_none_iff_exists'.mp some
  refine ⟨v, (same v).mp (newest_mem found), fun other inside => ?_, fun value => ?_⟩
  · exact newest_le found other ((same other).mpr inside)
  · rw [get_eq_report laid, outcome_report, visibleVersions_zero, found]
    rfl

theorem ordersAgree_reverseBytewise_iff {options : SSTableWriterOptions}
    {mem : MemTable BuiltIn.reverseBytewise.comparator} {fileNumber : Nat} :
    OrdersAgree .reverseBytewise options mem fileNumber ↔ mem.entries.length = 1 := by
  constructor
  · rintro ⟨ascending, range, -⟩
    have bytewise := isChain_sortedEntries mem.nodup_keys
    have perm := List.perm_insertionSort EncodedLE mem.entries
    rw [← perm.length_eq]
    change (sortedEntries mem.entries).length = 1
    cases sorted : sortedEntries mem.entries with
    | nil =>
        obtain ⟨front, first, -⟩ := range
        simp [layout, writtenBlocks, sorted, SSTableWriter.addAll, SSTableWriter.writeDataBlock] at first
    | cons a rest =>
        cases rest with
        | nil => rfl
        | cons b rest =>
            rw [sorted] at ascending bytewise
            have before : bytewiseCompare a.1.encode b.1.encode = .lt :=
              (List.isChain_cons_cons.mp bytewise).1
            have after : (bytewiseCompare a.1.encode b.1.encode).swap = .lt :=
              (List.isChain_cons_cons.mp ascending).1
            rw [before] at after
            cases after
  · intro single
    obtain ⟨e, entries⟩ := List.length_eq_one_iff.mp single
    have sorted : sortedEntries mem.entries = [e] := by rw [entries]; rfl
    refine ordersAgree_of_safe (fun _ _ => .inl rfl) (sorted ▸ List.isChain_singleton e) ?_ (by simp [entries])
    refine ⟨fun x memberX empty y memberY => ?_, fun x memberX y memberY before => ?_, ?_⟩
    · rw [entries, List.mem_singleton] at memberX memberY
      rw [memberY, ← memberX]
      exact empty
    · rw [entries, List.mem_singleton] at memberX memberY
      rw [memberX, memberY] at before
      exact absurd rfl before.ne
    · have blocks : writtenBlocks BuiltIn.reverseBytewise.comparator options mem.entries = [⟨e, []⟩] := by
        simp only [writtenBlocks, sorted, SSTableWriter.addAll, SSTableWriter.add]
        simp [Except.bind, SSTableWriter.append, SSTableWriter.writeDataBlock]
      rw [blocks]
      exact List.pairwise_singleton _ _

/-- A flush under a built-in comparator works if and only if its orders agree on the memtable. -/
theorem flushFinds_iff (order : BuiltIn) (options : SSTableWriterOptions)
    (mem : MemTable order.comparator) (fileNumber : Nat)
    (fits : ∀ entry ∈ mem.entries, order.Fits entry.1.userKey) :
    FlushFinds options mem fileNumber ↔ OrdersAgree order options mem fileNumber := by
  constructor
  · rintro ⟨table, flushed, opens, finds⟩
    have written := written_of_flush flushed
    have ascending := (flushEntries_ok_iff options mem.entries fileNumber).mp ⟨table, flushed⟩
    refine ⟨(chain_compare_iff fits).mp ascending, ?_, fun entry member => ?_⟩
    · rw [← written.eq_layout]
      exact (readIndex_ok_iff written.ascending).mp opens
    · rw [← written.eq_layout]
      exact (findsNewest_iff written.filtered _ _).mp (finds entry member)
  · rintro ⟨ascending, range, finds⟩
    obtain ⟨table, flushed⟩ := (flushEntries_ok_iff options mem.entries fileNumber).mpr
      ((chain_compare_iff fits).mpr ascending)
    have written := written_of_flush flushed
    rw [← written.eq_layout] at range finds
    refine ⟨table, flushed, (readIndex_ok_iff written.ascending).mpr range, fun entry member => ?_⟩
    exact (findsNewest_iff written.filtered _ _).mpr (finds entry member)

def twoNumbers : MemTable BuiltIn.numeric32.comparator :=
  ((MemTable.new {}).insert {} (.make [1, 0, 0, 0] 1 .kValue) [1]).insert {}
    (.make [2, 0, 0, 0] 2 .kValue) [2]

theorem flushFinds_twoNumbers : FlushFinds {} twoNumbers 1 :=
  (flushFinds_iff .numeric32 {} twoNumbers 1 (by decide)).mpr (by decide +kernel)

def twoReversed : MemTable BuiltIn.reverseBytewise.comparator :=
  ((MemTable.new {}).insert {} (.make [97] 1 .kValue) [1]).insert {} (.make [98] 2 .kValue) [2]

theorem flushFinds_not_twoReversed :
    ¬ ∀ (order : BuiltIn) (options : SSTableWriterOptions) (mem : MemTable order.comparator)
      (fileNumber : Nat), mem.entries ≠ [] → (∀ entry ∈ mem.entries, order.Fits entry.1.userKey) →
        FlushFinds options mem fileNumber := by
  intro always
  obtain ⟨table, flushed, -⟩ :=
    always .reverseBytewise {} twoReversed 1 (by decide) (by decide)
  have refused : (flushEntries BuiltIn.reverseBytewise.comparator {} twoReversed.entries 1).toOption =
      none := by decide +kernel
  rw [flushed] at refused
  cases refused

end Lrdb
