import Lrdb.Storage.TableRefinement

/-!
# Seeks and steps back

A seek looks into one block, there at every other entry, and compares stored keys with a user key. A
step back leaves the iterator where it is.
-/

namespace Lrdb
namespace TableFile
open Records SSTable

/-! ## The entries ahead -/

def ahead (table : SSTable) : Option TablePosition → List Entry
  | none => []
  | some p => p.current :: (p.pending ++ (table.blocks.drop (p.block + 1)).flatMap DataBlock.entries)

namespace SSTableIterator
variable {reader : SSTableReader} {table : SSTable} {it : SSTableIterator}
  {position : Option TablePosition}

theorem walks_of_refines (has : Represents reader table) (refines : Refines reader table it position) :
    Walks reader ((ahead table position).map stored) it := by
  cases position with
  | none => exact refines
  | some p =>
      obtain ⟨status, place, rest, stands⟩ := refines
      have walks := walks_of_standsIn has.contents has.holds stands status
        (reads_pending has place stands)
      have blocks : ((table.blocks.map storedBlock).drop (p.block + 1)).flatten =
          ((table.blocks.drop (p.block + 1)).flatMap DataBlock.entries).map stored := by
        rw [← List.map_drop, List.map_flatMap]
        rfl
      rw [blocks] at walks
      simpa [ahead] using walks.1

end SSTableIterator

/-! ## Where a seek stops -/

section Seek
variable {cmp : Comparator} {table : SSTable} {target : Key}

def everyOther {α : Type} : List α → List α
  | [] => []
  | [a] => [a]
  | a :: _ :: rest => a :: everyOther rest

theorem seekInBlock_eq_none_iff {entries : List Entry} : seekInBlock cmp target entries = none ↔
    ∀ e ∈ everyOther entries, cmp.compare e.1.encode target = .lt := by
  fun_induction seekInBlock cmp target entries with
  | case1 => simp [everyOther]
  | case2 e below | case3 e below => simp [everyOther, below]
  | case4 e e' rest below ih => simp [everyOther, below, ih]
  | case5 e e' rest below => simp [everyOther, below]

theorem seekInBlock_append {passed rest : List Entry} {e : Entry} (even : Even passed.length)
    (before : ∀ x ∈ everyOther passed, cmp.compare x.1.encode target = .lt)
    (reached : cmp.compare e.1.encode target ≠ .lt) :
    seekInBlock cmp target (passed ++ e :: rest) = some passed.length := by
  fun_induction everyOther passed with
  | case1 => cases rest <;> simp [seekInBlock, reached]
  | case2 a => exact absurd even (by simp)
  | case3 a b more ih =>
      obtain ⟨first, later⟩ := List.forall_mem_cons.mp before
      have evenMore : Even more.length := by
        rw [List.length_cons, List.length_cons] at even
        simpa [Nat.even_add_one] using even
      simp [seekInBlock, first, ih evenMore later]

theorem exists_of_seekInBlock {entries : List Entry} {i : Nat}
    (found : seekInBlock cmp target entries = some i) : ∃ passed e rest,
      entries = passed ++ e :: rest ∧ passed.length = i ∧ Even i ∧
        cmp.compare e.1.encode target ≠ .lt ∧
          ∀ x ∈ everyOther passed, cmp.compare x.1.encode target = .lt := by
  fun_induction seekInBlock cmp target entries generalizing i with
  | case1 | case2 => cases found
  | case3 e reached =>
      obtain rfl := Option.some.inj found
      exact ⟨[], e, [], rfl, rfl, Even.zero, reached, by simp [everyOther]⟩
  | case4 e e' rest below ih =>
      obtain ⟨j, here, rfl⟩ := Option.map_eq_some_iff.mp found
      obtain ⟨passed, x, more, rfl, rfl, even, reached, before⟩ := ih here
      refine ⟨e :: e' :: passed, x, more, rfl, rfl, even.add even_two, reached, ?_⟩
      simpa [everyOther, below] using before
  | case5 e e' rest reached =>
      obtain rfl := Option.some.inj found
      exact ⟨[], e, e' :: rest, rfl, rfl, Even.zero, reached, by simp [everyOther]⟩

/-! ## The block where it looks -/

structure LooksIn (cmp : Comparator) (table : SSTable) (target : Key) (before : List DataBlock)
    (block : DataBlock) (after : List DataBlock) : Prop where
  whole : table.blocks = before ++ block :: after
  starts : ¬ cmp.Before target block.indexKey.userKey
  ends : ∀ later ∈ after.head?, cmp.Before target later.indexKey.userKey

theorem firsts_sublist (blocks : List DataBlock) :
    (blocks.map DataBlock.first).Sublist (blocks.flatMap DataBlock.entries) := by
  induction blocks with
  | nil => exact List.Sublist.slnil
  | cons block more ih =>
      rw [List.map_cons, List.flatMap_cons, DataBlock.entries, List.cons_append]
      exact (ih.trans (List.sublist_append_right ..)).cons_cons _

theorem before_later (sorted : UserSorted cmp table.entries) {i j : Nat} {x y : DataBlock}
    (le : i ≤ j) (first : table.blocks[i]? = some x) (second : table.blocks[j]? = some y)
    (early : cmp.Before target x.indexKey.userKey) : cmp.Before target y.indexKey.userKey := by
  obtain ⟨insideX, rfl⟩ := List.getElem?_eq_some_iff.mp first
  obtain ⟨insideY, rfl⟩ := List.getElem?_eq_some_iff.mp second
  obtain rfl | less := le.eq_or_lt
  · exact early
  · have firsts := List.Pairwise.sublist (firsts_sublist table.blocks) sorted
    have order := List.pairwise_iff_getElem.mp firsts i j (by simpa using insideX)
      (by simpa using insideY) less
    simp only [List.getElem_map] at order
    obtain same | behind := Comparator.not_before.mp order
    · exact same ▸ early
    · exact early.trans behind

theorem findIndexEntry_of_looksIn (sorted : UserSorted cmp table.entries) {before after : List DataBlock}
    {block : DataBlock} (looks : LooksIn cmp table target before block after) :
    findIndexEntry cmp table target = some before.length := by
  have last := findIndexEntry_isLast sorted target
  have here : table.blocks[before.length]? = some block := by
    rw [looks.whole, List.getElem?_append_right le_rfl, Nat.sub_self]
    rfl
  have starts : cmp.compare block.indexKey.userKey target ≠ .gt := by
    rw [ne_eq, Comparator.compare_gt]
    exact looks.starts
  have inside : before.length < table.blocks.length := (List.getElem?_eq_some_iff.mp here).1
  cases found : findIndexEntry cmp table target with
  | none =>
      have fails := last.none found before.length inside
      rw [here] at fails
      exact absurd (by simpa using starts) fails
  | some b =>
      obtain ⟨less, holds, beyond⟩ := last.some b found
      rcases Nat.lt_trichotomy b before.length with early | rfl | late
      · have fails := beyond before.length early inside
        rw [here] at fails
        exact absurd (by simpa using starts) fails
      · rfl
      · have after' : table.blocks[before.length + 1]? = after.head? := by
          rw [looks.whole, List.getElem?_append_right (by omega), Nat.add_sub_cancel_left]
          cases after <;> rfl
        have inside' : before.length + 1 < table.blocks.length := Nat.lt_of_le_of_lt late less
        have later := List.getElem?_eq_getElem inside'
        have behind := looks.ends _ (after' ▸ later)
        have early := before_later sorted late later (List.getElem?_eq_getElem less) behind
        rw [List.getElem?_eq_getElem less] at holds
        exact absurd (Comparator.compare_gt.mpr early) (by simpa using holds)

theorem looksIn_of_findIndexEntry (sorted : UserSorted cmp table.entries) {b : Nat}
    (found : findIndexEntry cmp table target = some b) : ∃ block, table.blocks[b]? = some block ∧
      LooksIn cmp table target (table.blocks.take b) block (table.blocks.drop (b + 1)) := by
  obtain ⟨less, holds, beyond⟩ := (findIndexEntry_isLast sorted target).some b found
  have here := List.getElem?_eq_getElem less
  rw [here] at holds
  refine ⟨_, here, ⟨?_, ?_, ?_⟩⟩
  · rw [← List.drop_eq_getElem_cons less, List.take_append_drop]
  · rw [← Comparator.compare_gt]
    simpa using holds
  · intro later member
    rw [List.head?_drop] at member
    obtain ⟨inside, same⟩ := List.getElem?_eq_some_iff.mp member
    have fails := beyond (b + 1) (Nat.lt_succ_self b) inside
    rw [Option.mem_def.mp member] at fails
    exact Comparator.compare_gt.mp (by simpa using fails)

theorem before_of_findIndexEntry (sorted : UserSorted cmp table.entries)
    (missing : findIndexEntry cmp table target = none) {block : DataBlock} (member : block ∈ table.blocks) :
    cmp.Before target block.indexKey.userKey := by
  obtain ⟨i, inside, rfl⟩ := List.getElem_of_mem member
  have fails := (findIndexEntry_isLast sorted target).none missing i inside
  rw [List.getElem?_eq_getElem inside] at fails
  exact Comparator.compare_gt.mp (by simpa using fails)

/-! ## When a seek comes to the right entry -/

/-- The seek has a block to look into. The first entry that is not before the target lies in it, at an
even place, its stored key is not before the target, and those that are compared before it are. Or all
entries are before the target, and so are the stored keys that are compared in the last block. -/
def SeekMeets (cmp : Comparator) (table : SSTable) (target : Key) : Prop :=
  ∃ before block after, LooksIn cmp table target before block after ∧
    ((∃ passed e rest, block.entries = passed ++ e :: rest ∧
        (∀ x ∈ before.flatMap DataBlock.entries ++ passed, cmp.Before x.1.userKey target) ∧
          ¬ cmp.Before e.1.userKey target ∧ Even passed.length ∧
            cmp.compare e.1.encode target ≠ .lt ∧
              ∀ x ∈ everyOther passed, cmp.compare x.1.encode target = .lt) ∨
      (∀ x ∈ table.entries, cmp.Before x.1.userKey target) ∧
        ∀ x ∈ everyOther block.entries, cmp.compare x.1.encode target = .lt)

def entriesFrom (cmp : Comparator) (table : SSTable) (target : Key) : List Entry :=
  table.entries.dropWhile fun e => cmp.Before e.1.userKey target

theorem entriesFrom_eq_nil : entriesFrom cmp table target = [] ↔
    ∀ x ∈ table.entries, cmp.Before x.1.userKey target := by
  simp [entriesFrom]

theorem entriesFrom_eq_iff {passed rest : List Entry} {e : Entry}
    (whole : table.entries = passed ++ e :: rest) : entriesFrom cmp table target = e :: rest ↔
      (∀ x ∈ passed, cmp.Before x.1.userKey target) ∧ ¬ cmp.Before e.1.userKey target := by
  unfold entriesFrom
  rw [whole]
  constructor
  · intro same
    have parts := List.takeWhile_append_dropWhile (p := fun e : Entry => decide (cmp.Before e.1.userKey target))
      (l := passed ++ e :: rest)
    rw [same] at parts
    have front := List.append_cancel_right parts
    refine ⟨fun x member => ?_, ?_⟩
    · rw [← front] at member
      simpa using List.mem_takeWhile_imp member
    · have head := List.head?_dropWhile_not (fun e : Entry => decide (cmp.Before e.1.userKey target))
        (passed ++ e :: rest)
      rw [same] at head
      simpa using head
  · intro both
    rw [List.dropWhile_append_of_pos (by simpa using both.1),
      List.dropWhile_cons_of_neg (by simpa using both.2)]

theorem seek_of_looksIn (sorted : UserSorted cmp table.entries) {before after : List DataBlock}
    {block : DataBlock} (looks : LooksIn cmp table target before block after) :
    table.seek cmp target =
      (seekInBlock cmp target block.entries).bind (table.loadBlock before.length) := by
  have here : table.blocks[before.length]? = some block := by
    rw [looks.whole, List.getElem?_append_right le_rfl, Nat.sub_self]
    rfl
  rw [seek, findIndexEntry_of_looksIn sorted looks]
  simp only [Option.bind_eq_bind, Option.bind_some, here, Option.elim_some]

theorem ahead_loadBlock {before after : List DataBlock} {block : DataBlock}
    (whole : table.blocks = before ++ block :: after) {passed rest : List Entry} {e : Entry}
    (entries : block.entries = passed ++ e :: rest) :
    ahead table (table.loadBlock before.length passed.length) =
      e :: (rest ++ after.flatMap DataBlock.entries) := by
  have here : table.blocks[before.length]? = some block := by
    rw [whole, List.getElem?_append_right le_rfl, Nat.sub_self]
    rfl
  have behind : table.blocks.drop (before.length + 1) = after := by
    rw [whole, List.append_cons, List.drop_left' (by simp)]
  rw [loadBlock, here, Option.bind_some, TablePosition.parseEntry, entries, List.drop_left]
  simp only [ahead, behind]

theorem entries_of_looksIn {before after : List DataBlock} {block : DataBlock}
    (whole : table.blocks = before ++ block :: after) {passed rest : List Entry} {e : Entry}
    (entries : block.entries = passed ++ e :: rest) : table.entries =
      (before.flatMap DataBlock.entries ++ passed) ++ e :: (rest ++ after.flatMap DataBlock.entries) := by
  rw [SSTable.entries, whole, List.flatMap_append, List.flatMap_cons, entries]
  simp

theorem ahead_seek_iff (sorted : UserSorted cmp table.entries) (filled : table.blocks ≠ []) :
    ahead table (table.seek cmp target) = entriesFrom cmp table target ↔
      SeekMeets cmp table target := by
  constructor
  · intro same
    cases found : findIndexEntry cmp table target with
    | none =>
        exfalso
        obtain ⟨block, member⟩ := List.exists_mem_of_ne_nil _ filled
        have nowhere : table.seek cmp target = none := by
          rw [seek, found]
          rfl
        rw [nowhere] at same
        have first : block.first ∈ table.entries :=
          List.mem_flatMap.mpr ⟨block, member, List.mem_cons_self ..⟩
        have early := entriesFrom_eq_nil.mp same.symm block.first first
        exact early.not_before (before_of_findIndexEntry sorted found member)
    | some b =>
        obtain ⟨block, here, looks⟩ := looksIn_of_findIndexEntry sorted found
        rw [seek_of_looksIn sorted looks] at same
        refine ⟨_, block, _, looks, ?_⟩
        cases place : seekInBlock cmp target block.entries with
        | none =>
            rw [place] at same
            exact Or.inr ⟨entriesFrom_eq_nil.mp same.symm, seekInBlock_eq_none_iff.mp place⟩
        | some i =>
            obtain ⟨passed, e, rest, entries, rfl, even, reached, before⟩ :=
              exists_of_seekInBlock place
            rw [place, Option.bind_some, ahead_loadBlock looks.whole entries] at same
            obtain ⟨early, late⟩ :=
              (entriesFrom_eq_iff (entries_of_looksIn looks.whole entries)).mp same.symm
            exact Or.inl ⟨passed, e, rest, entries, early, late, even, reached, before⟩
  · intro meets
    obtain ⟨before, block, after, looks, lands | passes⟩ := meets
    · obtain ⟨passed, e, rest, entries, early, late, even, reached, below⟩ := lands
      rw [seek_of_looksIn sorted looks, entries, seekInBlock_append even below reached,
        Option.bind_some, ahead_loadBlock looks.whole entries]
      exact ((entriesFrom_eq_iff (entries_of_looksIn looks.whole entries)).mpr ⟨early, late⟩).symm
    · rw [seek_of_looksIn sorted looks, seekInBlock_eq_none_iff.mpr passes.2]
      exact (entriesFrom_eq_nil.mpr passes.1).symm

end Seek
/-! ## The iterator of a file -/

def twoStored : List Entry := [(InternalKey.make [1] 1 .kValue, [7]), (InternalKey.make [2] 2 .kDeletion, [])]

namespace SSTableIterator
variable {cmp : Comparator} {reader : SSTableReader} {table : SSTable} {it : SSTableIterator}

/-- From anywhere, the seek leaves the iterator at the first entry whose user key is not before the
target, or invalid if there is none, exactly under the condition. -/
theorem seek_walks_iff (has : Represents reader table) (filled : table.blocks ≠ [])
    (sorted : UserSorted cmp table.entries) (it : SSTableIterator) (target : Key) :
    Walks reader ((entriesFrom cmp table target).map stored) (it.seek reader cmp.compare target) ↔
      SeekMeets cmp table target := by
  rw [← ahead_seek_iff sorted filled]
  have walks := walks_of_refines has (@refines_seek _ _ it cmp has target)
  constructor
  · intro expected
    exact List.map_injective_iff.mpr stored_injective (walks.unique expected)
  · intro same
    rwa [← same]

theorem represents_twoStored : ∃ start added finished reader table,
    SSTableWriter.openFile {} [97] 0 = .ok start ∧
      start.addAll bytewiseCompare (twoStored.map stored) = .ok added ∧
        added.finish .ok = .ok finished ∧ finished.file.length < uint32Limit ∧
          SSTableReader.openFile bytewiseCompare [98] finished.file = .ok reader ∧
            Represents reader table ∧ table.entries = twoStored ∧ table.blocks ≠ [] := by
  obtain ⟨start, added, finished, reader, opened, adds, finishes, small, opens⟩ := opens_twoEntries
  have same : twoEntries = twoStored.map stored := by decide
  rw [same] at adds
  obtain ⟨table, has, entries, filled⟩ := represents_of_written opened adds finishes small opens
  exact ⟨start, added, finished, reader, table, opened, adds, finishes, small, opens, has, entries,
    filled⟩

theorem sorted_twoStored : UserSorted bytewiseComparator twoStored := by
  unfold UserSorted
  decide

theorem seek_walks_twoStored : ∃ reader table, Represents reader table ∧ table.entries = twoStored ∧
    ∀ target, Walks reader ((entriesFrom bytewiseComparator table target).map stored)
        (seek reader {} bytewiseComparator.compare target) ↔
      SeekMeets bytewiseComparator table target := by
  obtain ⟨start, added, finished, reader, table, -, -, -, -, -, has, entries, filled⟩ :=
    represents_twoStored
  have sorted : UserSorted bytewiseComparator table.entries := entries ▸ sorted_twoStored
  exact ⟨reader, table, has, entries, fun target => seek_walks_iff has filled sorted {} target⟩

theorem seek_misses_firstKey :
    ¬ ∀ (cmp : Comparator) (options : SSTableWriterOptions) (filename name : Bytes) (now : Nat)
      (entries : List Entry) (closing : Status) (start added finished : SSTableWriter)
      (reader : SSTableReader) (target : Key),
      SSTableWriter.openFile options filename now = .ok start →
        start.addAll cmp.compare (entries.map stored) = .ok added →
          added.finish closing = .ok finished → finished.file.length < uint32Limit →
            SSTableReader.openFile cmp.compare name finished.file = .ok reader →
              UserSorted cmp entries →
                Walks reader ((entries.dropWhile fun e => cmp.Before e.1.userKey target).map stored)
                  (seek reader {} cmp.compare target) := by
  intro always
  obtain ⟨start, added, finished, reader, table, opened, adds, finishes, small, opens, has, entries,
    filled⟩ := represents_twoStored
  have walks := always bytewiseComparator _ _ _ _ twoStored _ _ _ _ _ [] opened adds finishes small
    opens sorted_twoStored
  rw [← entries] at walks
  have sorted : UserSorted bytewiseComparator table.entries := entries ▸ sorted_twoStored
  have meets := (seek_walks_iff has filled sorted {} []).mp walks
  obtain ⟨before, block, after, looks, -⟩ := meets
  have member : block.first ∈ twoStored := by
    rw [← entries, SSTable.entries, looks.whole]
    simp [DataBlock.entries]
  have early : ∀ e ∈ twoStored, bytewiseComparator.Before [] e.1.userKey := by decide
  exact looks.starts (early block.first member)

/-! ## Steps back -/

theorem prev_eq (table : SSTable) (p : TablePosition) : table.prev p = some p := by
  rw [SSTable.prev, moveToPrevInBlock_eq]

theorem bind_prev (table : SSTable) (position : Option TablePosition) :
    position.bind table.prev = position := by
  cases position with
  | none => rfl
  | some p => exact prev_eq table p

theorem seekToLast_isSome (filled : table.blocks ≠ []) : table.seekToLast.isSome := by
  have positive := List.length_pos_iff.mpr filled
  rw [SSTable.seekToLast, SSTable.seekToLastInBlock,
    List.getElem?_eq_getElem (Nat.sub_lt positive Nat.one_pos), Option.bind_some,
    TablePosition.parseEntry]
  generalize table.blocks[table.blocks.length - 1] = block
  have inside : block.entries.length - 1 < block.entries.length :=
    Nat.sub_lt (Nat.succ_pos _) Nat.one_pos
  rw [List.drop_eq_getElem_cons inside]
  rfl

theorem walks_prev (has : Represents reader table) {position : Option TablePosition}
    (refines : Refines reader table it position) {entries : List (Bytes × Value)}
    (walks : Walks reader entries it) : Walks reader entries (it.prev reader) := by
  have back := refines_prev has refines
  rw [bind_prev] at back
  rw [walks.unique (walks_of_refines has refines)]
  exact walks_of_refines has back

theorem valid_iterate_prev (has : Represents reader table) {p : TablePosition}
    (refines : Refines reader table it (some p)) (n : Nat) :
    ((prev reader)^[n] it).isValid reader = true := by
  induction n generalizing it with
  | zero =>
      obtain ⟨-, -, rest, stands⟩ := refines
      exact stands.isValid has.contents
  | succ n ih =>
      have back := refines_prev has refines
      rw [Option.bind_some, prev_eq] at back
      exact ih back

/-- Whatever was called before: steps back from the last entry never end, a step forward and one back
never come to the same entry, and neither do a step back and one forward. -/
theorem never_steps_back (has : Represents reader table) (filled : table.blocks ≠ [])
    (calls : List Call) {it : SSTableIterator} (reached : it = calls.foldl (call reader cmp.compare) {}) :
    (∀ n, ((prev reader)^[n] (it.seekToLast reader)).isValid reader = true) ∧
      (∀ e later more, Walks reader (e :: later :: more) it →
        ¬ Walks reader (e :: later :: more) ((it.next reader).prev reader)) ∧
      ∀ e more, Walks reader (e :: more) it → ¬ Walks reader (e :: more) ((it.prev reader).next reader) := by
  have refines := @refines_run _ _ cmp has calls
  rw [← reached] at refines
  refine ⟨?_, ?_, ?_⟩
  · intro n
    obtain ⟨p, last⟩ := Option.isSome_iff_exists.mp (seekToLast_isSome filled)
    have stands := @refines_seekToLast _ _ it has
    rw [last] at stands
    exact valid_iterate_prev has stands n
  · intro e later more walks returned
    have back := walks_prev has (refines_next has refines) walks.2.2
    have lengths := congrArg List.length (back.unique returned)
    simp at lengths
  · intro e more walks returned
    have onward := (walks_prev has refines walks).2.2
    have lengths := congrArg List.length (onward.unique returned)
    simp at lengths

theorem never_steps_back_twoStored : ∃ reader table, Represents reader table ∧
    table.entries = twoStored ∧
      ∀ n, ((prev reader)^[n] (seekToLast reader {})).isValid reader = true := by
  obtain ⟨start, added, finished, reader, table, -, -, -, -, -, has, entries, filled⟩ :=
    represents_twoStored
  exact ⟨reader, table, has, entries,
    (@never_steps_back bytewiseComparator _ _ has filled [] _ rfl).1⟩

theorem steps_back_forever :
    ¬ ∀ (cmp : Comparator) (options : SSTableWriterOptions) (filename name : Bytes) (now : Nat)
      (entries : List Entry) (closing : Status) (start added finished : SSTableWriter)
      (reader : SSTableReader),
      SSTableWriter.openFile options filename now = .ok start →
        start.addAll cmp.compare (entries.map stored) = .ok added →
          added.finish closing = .ok finished → finished.file.length < uint32Limit →
            SSTableReader.openFile cmp.compare name finished.file = .ok reader →
              ∃ n, ((prev reader)^[n] (seekToLast reader {})).isValid reader = false := by
  intro always
  obtain ⟨start, added, finished, reader, table, opened, adds, finishes, small, opens, has, entries,
    filled⟩ := represents_twoStored
  obtain ⟨n, ended⟩ := always bytewiseComparator _ _ _ _ twoStored _ _ _ _ _ opened adds finishes small
    opens
  obtain ⟨p, last⟩ := Option.isSome_iff_exists.mp (seekToLast_isSome filled)
  have stands := @refines_seekToLast _ _ {} has
  rw [last] at stands
  rw [valid_iterate_prev has stands n] at ended
  cases ended

end SSTableIterator
end TableFile
end Lrdb
