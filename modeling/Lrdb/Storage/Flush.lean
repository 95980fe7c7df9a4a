import Lrdb.Storage.SSTable

/-!
# Flushing a memtable

The writer keeps what it was given: the entries in their order, their key range, a filter over
their keys. A flush sorts by encoded bytes, which is the order of the user keys only when no key
continues another one with a small byte.
-/

namespace Lrdb
namespace SSTableWriter
variable {cmp : Comparator} {options : SSTableWriterOptions}

/-- The writer has taken the entries `es`. -/
structure Wrote (cmp : Comparator) (es : List Entry) (w : SSTableWriter) : Prop where
  entries : w.blocks.flatMap DataBlock.entries ++ w.dataBuffer = es
  lastKey : w.lastKey = es.getLast?.map fun e => e.1
  ascending : es.Pairwise fun a b => cmp.compare a.1.encode b.1.encode = .lt
  smallest : w.smallestKey = ((es.map fun e => e.1.userKey).find? (· ≠ [])).getD []
  largest : w.largestKey = (es.getLast?.map fun e => e.1.userKey).getD []
  bloomKeys : w.bloomKeys = es.map fun e => e.1.userKey

theorem wrote_empty : Wrote cmp [] {} := ⟨rfl, rfl, .nil, rfl, rfl, rfl⟩

theorem flatMap_writeDataBlock (w : SSTableWriter) :
    w.writeDataBlock.blocks.flatMap DataBlock.entries ++ w.writeDataBlock.dataBuffer =
      w.blocks.flatMap DataBlock.entries ++ w.dataBuffer := by
  cases buffer : w.dataBuffer with
  | nil => simp [writeDataBlock, buffer]
  | cons first rest => simp [writeDataBlock, buffer, DataBlock.entries]

theorem dataBuffer_writeDataBlock (w : SSTableWriter) : w.writeDataBlock.dataBuffer = [] := by
  cases buffer : w.dataBuffer <;> simp [writeDataBlock, buffer]

theorem Wrote.writeDataBlock {es : List Entry} {w : SSTableWriter} (wrote : Wrote cmp es w) :
    Wrote cmp es w.writeDataBlock := by
  have moved := flatMap_writeDataBlock w
  unfold SSTableWriter.writeDataBlock at moved ⊢
  split
  · exact wrote
  · rename_i first rest buffer
    simp only [buffer] at moved
    exact ⟨moved.trans (buffer ▸ wrote.entries), wrote.lastKey, wrote.ascending, wrote.smallest,
      wrote.largest, wrote.bloomKeys⟩

private theorem find?_append_getD (keys : List Key) (key : Key) :
    (if (keys.find? (· ≠ [])).getD [] = [] then key else (keys.find? (· ≠ [])).getD []) =
      ((keys ++ [key]).find? (· ≠ [])).getD [] := by
  rw [List.find?_append]
  cases found : keys.find? (· ≠ []) with
  | none => by_cases empty : key = [] <;> simp [empty]
  | some k =>
      have nonempty : k ≠ [] := by simpa using List.find?_some found
      simp [nonempty]

theorem Wrote.append {es : List Entry} {w : SSTableWriter} (wrote : Wrote cmp es w) {e : Entry}
    (after : ∀ a ∈ es, cmp.compare a.1.encode e.1.encode = .lt) :
    Wrote cmp (es ++ [e]) (w.append e) where
  entries := by rw [SSTableWriter.append, ← List.append_assoc, wrote.entries]
  lastKey := by simp [SSTableWriter.append]
  ascending := by
    refine List.pairwise_append.mpr ⟨wrote.ascending, List.pairwise_singleton .., ?_⟩
    simpa using after
  smallest := by
    rw [SSTableWriter.append, wrote.smallest, List.map_append, List.map_singleton]
    exact find?_append_getD _ _
  largest := by simp [SSTableWriter.append]
  bloomKeys := by simp [SSTableWriter.append, wrote.bloomKeys]

theorem wrote_add {es : List Entry} {w w' : SSTableWriter} (wrote : Wrote cmp es w) {e : Entry}
    (added : w.add cmp options e = .ok w') : Wrote cmp (es ++ [e]) w' := by
  unfold add at added
  split at added
  · cases added
  · rename_i inOrder
    obtain rfl := Except.ok.inj added
    have after : ∀ a ∈ es, cmp.compare a.1.encode e.1.encode = .lt := by
      intro a member
      obtain ⟨front, last, rfl⟩ : ∃ front last, es = front ++ [last] :=
        ⟨_, _, (List.dropLast_append_getLast (List.ne_nil_of_mem member)).symm⟩
      have lastBefore : cmp.compare last.1.encode e.1.encode = .lt := by
        by_contra notBefore
        exact inOrder ⟨last.1, by simp [wrote.lastKey], notBefore⟩
      rcases List.mem_append.mp member with earlier | final
      · have ordered := (List.pairwise_append.mp wrote.ascending).2.2 a earlier last (by simp)
        exact Comparator.Before.trans ordered lastBefore
      · rwa [List.mem_singleton.mp final]
    split
    · exact wrote.writeDataBlock.append after
    · exact wrote.append after

theorem wrote_addAll {es more : List Entry} {w w' : SSTableWriter} (wrote : Wrote cmp es w)
    (added : addAll cmp options w more = .ok w') : Wrote cmp (es ++ more) w' := by
  induction more generalizing es w with
  | nil =>
      obtain rfl := Except.ok.inj added
      simpa using wrote
  | cons e rest ih =>
      rw [addAll] at added
      cases first : add cmp options w e with
      | error status => simp [first, Except.bind] at added
      | ok next =>
          have rest := ih (wrote_add wrote first) (by simpa [first, Except.bind] using added)
          simpa using rest

theorem Wrote.entries_finish {es : List Entry} {w : SSTableWriter} (wrote : Wrote cmp es w)
    (fileNumber : Nat) : (w.finish fileNumber).entries = es := by
  have cut := wrote.writeDataBlock.entries
  rwa [dataBuffer_writeDataBlock, List.append_nil] at cut

theorem addAll_ok_iff (es : List Entry) (w : SSTableWriter) :
    (∃ w', addAll cmp options w es = .ok w') ↔
      (∀ last ∈ w.lastKey, ∀ e ∈ es.head?, cmp.compare last.encode e.1.encode = .lt) ∧
        es.IsChain fun a b => cmp.compare a.1.encode b.1.encode = .lt := by
  induction es generalizing w with
  | nil => simp [addAll]
  | cons e rest ih =>
      rw [addAll, add]
      split
      · rename_i outOfOrder
        obtain ⟨last, found, notBefore⟩ := outOfOrder
        refine iff_of_false (by rintro ⟨w', ok⟩; cases ok) ?_
        rintro ⟨first, -⟩
        exact notBefore (first last found e rfl)
      · rename_i inOrder
        have first : ∀ last ∈ w.lastKey, ∀ x ∈ (e :: rest).head?,
            cmp.compare last.encode x.1.encode = .lt := by
          rintro last found x head
          obtain rfl := Option.some.inj head
          by_contra notBefore
          exact inOrder ⟨last, found, notBefore⟩
        show (∃ w', addAll cmp options (SSTableWriter.append _ e) rest = .ok w') ↔ _
        rw [and_iff_right first, ih]
        cases rest with
        | nil => simp
        | cons next rest => simp [SSTableWriter.append]

end SSTableWriter

open SSTable SSTableWriter

theorem flushEntries_ok_iff {cmp : Comparator} (options : SSTableWriterOptions)
    (entries : List Entry) (fileNumber : Nat) :
    (∃ table, flushEntries cmp options entries fileNumber = .ok table) ↔
      (sortedEntries entries).IsChain fun a b => cmp.compare a.1.encode b.1.encode = .lt := by
  have added := @addAll_ok_iff cmp options (sortedEntries entries) {}
  rw [and_iff_right (by simp)] at added
  rw [← added, flushEntries]
  cases addAll cmp options {} (sortedEntries entries) with
  | ok w => simp [Except.map]
  | error status => simp [Except.map]

section Sorting

theorem encodedLE_iff {a b : Entry} :
    EncodedLE a b ↔ ¬ bytewiseComparator.Before b.1.encode a.1.encode := by
  rw [← Comparator.compare_gt]
  rfl

instance : Std.Total EncodedLE where
  total a b := by
    rw [encodedLE_iff, encodedLE_iff, ← not_and_or]
    exact fun both => both.1.not_before both.2

instance : IsTrans Entry EncodedLE where
  trans a b c ab bc := by
    rw [encodedLE_iff, Comparator.not_before] at *
    rcases ab with ab | ab
    · exact ab ▸ bc
    · rcases bc with bc | bc
      · exact .inr (bc ▸ ab)
      · exact .inr (ab.trans bc)

theorem encodedLE_antisymm {a b : Entry} (ab : EncodedLE a b) (ba : EncodedLE b a) : a.1 = b.1 := by
  rw [encodedLE_iff] at ab ba
  rcases Comparator.not_before.mp ab with equal | before
  · exact encode_injective equal.symm
  · exact absurd before ba

theorem isChain_sortedEntries {entries : List Entry} (distinct : (entries.map Prod.fst).Nodup) :
    (sortedEntries entries).IsChain fun a b =>
      bytewiseComparator.compare a.1.encode b.1.encode = .lt := by
  have sorted : (sortedEntries entries).Pairwise EncodedLE := List.pairwise_insertionSort _ _
  have apart : (sortedEntries entries).Pairwise fun a b => a.1 ≠ b.1 := by
    apply List.pairwise_map.mp
    exact ((List.perm_insertionSort EncodedLE entries).map Prod.fst).nodup_iff.mpr distinct
  apply List.Pairwise.isChain
  refine (sorted.and apart).imp ?_
  rintro a b ⟨le, different⟩
  rw [encodedLE_iff, Comparator.not_before] at le
  exact le.resolve_left fun same => different (encode_injective same.symm)

theorem mem_sortedEntries {entries : List Entry} {entry : Entry} :
    entry ∈ sortedEntries entries ↔ entry ∈ entries := List.mem_insertionSort _

theorem pairwise_sortedEntries (entries : List Entry) :
    (sortedEntries entries).Pairwise EncodedLE := List.pairwise_insertionSort _ _

end Sorting

def writtenBlocks (cmp : Comparator) (options : SSTableWriterOptions) (entries : List Entry) :
    List DataBlock :=
  match addAll cmp options {} (sortedEntries entries) with
  | .ok w => w.writeDataBlock.blocks
  | .error _ => []

structure FlushSafe (cmp : Comparator) (options : SSTableWriterOptions) (entries : List Entry) :
    Prop where
  emptyKeys : ∀ x ∈ entries, x.1.userKey = [] → ∀ y ∈ entries, y.1.userKey = []
  keyOrder : ∀ x ∈ entries, ∀ y ∈ entries, cmp.Before x.1.userKey y.1.userKey → EncodedLE x y
  oneBlock : Separated (writtenBlocks cmp options entries)

instance (cmp : Comparator) (options : SSTableWriterOptions) (entries : List Entry) :
    Decidable (FlushSafe cmp options entries) :=
  decidable_of_iff (_ ∧ _ ∧ _) ⟨fun ⟨a, b, c⟩ => ⟨a, b, c⟩, fun ⟨a, b, c⟩ => ⟨a, b, c⟩⟩

section Written
variable {cmp : Comparator} {options : SSTableWriterOptions} {entries : List Entry} {table : SSTable}
  {fileNumber : Nat}

structure Written (cmp : Comparator) (options : SSTableWriterOptions) (entries : List Entry)
    (fileNumber : Nat) (table : SSTable) : Prop where
  contents : table.entries = sortedEntries entries
  blocks : table.blocks = writtenBlocks cmp options entries
  number : table.info.fileNumber = fileNumber
  ascending : table.entries.Pairwise fun a b => cmp.compare a.1.encode b.1.encode = .lt
  smallest : table.info.smallestKey =
    ((table.entries.map fun e => e.1.userKey).find? (· ≠ [])).getD []
  largest : table.info.largestKey = (table.entries.getLast?.map fun e => e.1.userKey).getD []
  bloom : table.bloom = BloomFilter.build (table.entries.map fun e => e.1.userKey)

theorem written_of_flush (flushed : flushEntries cmp options entries fileNumber = .ok table) :
    Written cmp options entries fileNumber table := by
  unfold flushEntries at flushed
  cases added : addAll cmp options {} (sortedEntries entries) with
  | error status => simp [added, Except.map] at flushed
  | ok w =>
      obtain rfl : w.finish fileNumber = table := by simpa [added, Except.map] using flushed
      have wrote := wrote_addAll wrote_empty added
      rw [List.nil_append] at wrote
      have contents := wrote.entries_finish fileNumber
      refine ⟨contents, ?_, rfl, ?_, ?_, ?_, ?_⟩
      · simp only [writtenBlocks, added]
        rfl
      · exact contents ▸ wrote.ascending
      · exact contents ▸ wrote.smallest
      · exact contents ▸ wrote.largest
      · rw [contents, ← wrote.bloomKeys]
        rfl

theorem Written.mem (written : Written cmp options entries fileNumber table) {entry : Entry} :
    entry ∈ table.entries ↔ entry ∈ entries := by
  rw [written.contents, mem_sortedEntries]

theorem Written.sorted (written : Written cmp options entries fileNumber table)
    (safe : FlushSafe cmp options entries) : UserSorted cmp table.entries := by
  have ordered := pairwise_sortedEntries entries
  rw [← written.contents] at ordered
  refine List.Pairwise.imp_of_mem (fun {a b} ha hb le before => ?_) ordered
  have ge := safe.keyOrder b (written.mem.mp hb) a (written.mem.mp ha) before
  exact before.ne (congrArg InternalKey.userKey (encodedLE_antisymm ge le))

theorem Written.range (written : Written cmp options entries fileNumber table)
    (safe : FlushSafe cmp options entries) :
    (table.info.smallestKey = []) ∨
      ∃ first last : Entry, table.entries.head? = some first ∧ table.entries.getLast? = some last ∧
        table.info.smallestKey = first.1.userKey ∧ table.info.largestKey = last.1.userKey := by
  cases shape : table.entries with
  | nil => exact .inl (by rw [written.smallest, shape]; rfl)
  | cons first rest =>
      have last : (first :: rest).getLast? = some ((first :: rest).getLast (by simp)) :=
        List.getLast?_eq_some_getLast _
      have largest := written.largest
      rw [shape, last, Option.map_some, Option.getD_some] at largest
      by_cases empty : first.1.userKey = []
      · have all : ∀ e ∈ table.entries, e.1.userKey = [] := fun e member =>
          safe.emptyKeys first (written.mem.mp (by simp [shape])) empty e (written.mem.mp member)
        refine .inl ?_
        have none : (table.entries.map fun e => e.1.userKey).find? (· ≠ []) = none := by
          simpa using all
        rw [written.smallest, none]
        rfl
      · refine .inr ⟨first, _, rfl, last, ?_, largest⟩
        rw [written.smallest, shape]
        simp [empty]

theorem SSTable.UserSorted.head_not_after {entries : List Entry} (sorted : UserSorted cmp entries)
    {first : Entry} (head : entries.head? = some first) :
    ∀ entry ∈ entries, ¬ cmp.Before entry.1.userKey first.1.userKey := by
  obtain ⟨rest, rfl⟩ := List.head?_eq_some_iff.mp head
  intro entry member
  rcases List.mem_cons.mp member with rfl | member
  · exact fun before => before.ne rfl
  · exact (List.pairwise_cons.mp sorted).1 entry member

theorem SSTable.UserSorted.last_not_before {entries : List Entry} (sorted : UserSorted cmp entries)
    {last : Entry} (final : entries.getLast? = some last) :
    ∀ entry ∈ entries, ¬ cmp.Before last.1.userKey entry.1.userKey := by
  obtain ⟨front, rfl⟩ := List.getLast?_eq_some_iff.mp final
  intro entry member
  rcases List.mem_append.mp member with earlier | final
  · exact (List.pairwise_append.mp sorted).2.2 entry earlier last (by simp)
  · obtain rfl := List.mem_singleton.mp final
    exact fun before => before.ne rfl

theorem Written.inRange (written : Written cmp options entries fileNumber table)
    (safe : FlushSafe cmp options entries) :
    ∀ entry ∈ table.entries, table.info.keyInRange cmp entry.1.userKey := by
  intro entry member
  unfold SSTableMeta.keyInRange
  split
  · rfl
  · rename_i bounded
    rcases written.range safe with unset | ⟨first, last, head, final, smallest, largest⟩
    · exact absurd (.inl unset) bounded
    · have sorted := written.sorted safe
      rw [smallest, largest]
      have low := sorted.head_not_after head entry member
      have high := sorted.last_not_before final entry member
      simp only [ne_eq, decide_eq_true_eq, Comparator.compare_gt]
      exact ⟨low, high⟩

theorem Written.filtered (written : Written cmp options entries fileNumber table) :
    ∀ entry ∈ table.entries, table.bloom.all fun f => f.mayContain entry.1.userKey := by
  intro entry member
  rw [written.bloom]
  cases built : BloomFilter.build (table.entries.map fun e => e.1.userKey) with
  | none => rfl
  | some filter => exact BloomFilter.mayContain_build built (List.mem_map_of_mem member)

theorem Written.opens (written : Written cmp options entries fileNumber table)
    (safe : FlushSafe cmp options entries) (nonempty : entries ≠ []) :
    table.readIndex cmp = .ok := by
  have sorted := written.sorted safe
  have some : table.entries ≠ [] := by
    obtain ⟨e, member⟩ := List.exists_mem_of_ne_nil _ nonempty
    exact List.ne_nil_of_mem (written.mem.mpr member)
  have ascending : (table.blocks.map fun block => block.indexKey.encode).IsChain fun a b =>
      cmp.compare a b = .lt := by
    refine List.Pairwise.isChain (List.pairwise_map.mpr ?_)
    have apart := (List.pairwise_flatMap.mp written.ascending).2
    exact apart.imp fun h => h _ (List.mem_cons_self ..) _ (List.mem_cons_self ..)
  cases blocks : table.blocks with
  | nil => exact absurd (by simp [SSTable.entries, blocks]) some
  | cons front others =>
      have back : (front :: others).getLast? = Option.some ((front :: others).getLast (by simp)) :=
        List.getLast?_eq_some_getLast _
      have head : table.entries.head? = Option.some front.first := by
        simp [SSTable.entries, blocks, DataBlock.entries]
      have backFirst : ((front :: others).getLast (by simp)).first ∈ table.entries := by
        rw [SSTable.entries, blocks]
        exact List.mem_flatMap.mpr ⟨_, List.getLast_mem _, List.mem_cons_self ..⟩
      rw [blocks] at ascending
      have consistent : ¬ (table.info.smallestKey ≠ [] ∧ table.info.largestKey ≠ [] ∧
          (cmp.compare front.indexKey.userKey table.info.smallestKey ≠ .eq ∨
            cmp.compare ((front :: others).getLast (by simp)).indexKey.userKey
              table.info.largestKey = .gt)) := by
        rintro ⟨set, -, broken⟩
        rcases written.range safe with unset | ⟨first, last, head', final, smallest, largest⟩
        · exact set unset
        · obtain rfl : front.first = first := Option.some.inj (head.symm.trans head')
          rw [smallest, largest] at broken
          rcases broken with different | after
          · exact different Comparator.compare_self
          · exact sorted.last_not_before final _ backFirst (Comparator.compare_gt.mp after)
      unfold readIndex
      simp only [blocks, back]
      rw [if_neg (not_not.mpr ascending), if_neg consistent]

theorem laid_of_flush (safe : FlushSafe cmp options entries) (nonempty : entries ≠ [])
    (flushed : flushEntries cmp options entries fileNumber = .ok table) : Laid cmp table := by
  have written := written_of_flush flushed
  exact ⟨written.sorted safe, written.blocks ▸ safe.oneBlock, written.inRange safe,
    written.filtered, written.opens safe nonempty⟩

theorem mem_versions_of_flush (flushed : flushEntries cmp options entries fileNumber = .ok table)
    {key : Key} {version : Version} :
    version ∈ table.versions key ↔ version ∈ versionsOf key entries := by
  have written := written_of_flush flushed
  simp only [SSTable.versions, List.mem_reverse, mem_versionsOf, written.mem]

end Written
end Lrdb
