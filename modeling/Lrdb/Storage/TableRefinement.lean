import Lrdb.Storage.StoredRecords
import Lrdb.Storage.TableIterator
import Lrdb.Storage.WrittenTable

namespace Lrdb
namespace TableFile
open Records

def tableContents (table : SSTable) : List Bytes :=
  table.blocks.map fun block => blockBytes (storedBlock block)

structure Represents (reader : SSTableReader) (table : SSTable) : Prop where
  contents : Contents reader (tableContents table)
  holds : SSTableIterator.Holds (tableContents table) (table.blocks.map storedBlock)
  keys : reader.index.map IndexEntry.key = table.blocks.map fun block => block.indexKey.encode

/-! ## Written tables -/

theorem exists_blocks {blocks : List (List (Bytes × Value))} {entries : List Entry}
    (same : blocks.flatten = entries.map stored) (filled : ∀ block ∈ blocks, block ≠ []) :
    ∃ cut : List DataBlock, cut.map storedBlock = blocks ∧
      cut.flatMap DataBlock.entries = entries := by
  induction blocks generalizing entries with
  | nil =>
      refine ⟨[], rfl, ?_⟩
      simpa using same.symm
  | cons block more ih =>
      obtain ⟨here, later⟩ := List.forall_mem_cons.mp filled
      rw [List.flatten_cons, eq_comm, List.map_eq_append_iff] at same
      obtain ⟨front, back, rfl, rfl, rest⟩ := same
      obtain ⟨cut, rfl, rfl⟩ := ih rest.symm later
      cases front with
      | nil => exact absurd rfl here
      | cons first front => exact ⟨⟨first, front⟩ :: cut, rfl, rfl⟩

theorem keys_of_written {file : Bytes} {index : List IndexEntry} {cut : List DataBlock}
    (written : List.Forall₂ (SSTableWriter.WrittenBlock file) index (cut.map storedBlock)) :
    index.map IndexEntry.key = cut.map fun block => block.indexKey.encode := by
  induction cut generalizing index with
  | nil =>
      cases written
      rfl
  | cons block cut ih =>
      cases written with
      | cons here later =>
          have key : block.indexKey.encode = _ := Option.some.inj here.first
          rw [List.map_cons, List.map_cons, ih later, ← key]

theorem represents_of_written {order : Bytes → Bytes → Ordering} {options : SSTableWriterOptions}
    {filename name : Bytes} {now : Nat} {entries : List Entry} {closing : Status}
    {start added finished : SSTableWriter} {reader : SSTableReader}
    (opened : SSTableWriter.openFile options filename now = .ok start)
    (adds : start.addAll order (entries.map stored) = .ok added)
    (finishes : added.finish closing = .ok finished) (small : finished.file.length < uint32Limit)
    (opens : SSTableReader.openFile order name finished.file = .ok reader) :
    ∃ table : SSTable, Represents reader table ∧ table.entries = entries ∧ table.blocks ≠ [] := by
  obtain ⟨blocks, flat, reads, filled, written⟩ :=
    SSTableReader.blocks_of_written opened adds finishes small opens
  have nonempty : ∀ block ∈ blocks, block ≠ [] := by
    intro block member empty
    obtain ⟨entry, here⟩ := SSTableReader.exists_entry_of_mem written member
    exact SSTableReader.block_ne_nil_of_written here (blockBytes_eq_nil.mpr empty)
  obtain ⟨cut, rfl, rfl⟩ := exists_blocks flat nonempty
  obtain ⟨has, holds⟩ := SSTableReader.contents_of_written reads small written
  have bytes : (cut.map storedBlock).map blockBytes =
      cut.map fun block => blockBytes (storedBlock block) := List.map_map ..
  rw [bytes] at has holds
  refine ⟨⟨⟨0, [], []⟩, cut, none⟩, ⟨has, holds, keys_of_written written⟩, rfl, ?_⟩
  intro empty
  have none : cut = [] := empty
  rw [none] at written
  exact filled (List.forall₂_nil_right_iff.mp written)

theorem takeWhile_range {n m : Nat} (le : n ≤ m) :
    (List.range m).takeWhile (fun i => i < n) = List.range n := by
  obtain ⟨k, rfl⟩ := Nat.exists_eq_add_of_le le
  rw [List.range_add, List.takeWhile_append_of_pos (by simp)]
  cases k <;> simp [List.range_succ_eq_map]

theorem moveToPrevInBlock_eq (p : TablePosition) : p.moveToPrevInBlock = some p := by
  have inside : p.passed.length + 1 ≤ p.blockData.length := by
    rw [TablePosition.blockData, List.length_append, List.length_cons]
    omega
  simp only [TablePosition.moveToPrevInBlock, takeWhile_range inside, List.length_range,
    Nat.succ_ne_zero, if_false, Nat.add_sub_cancel]
  simp [TablePosition.parseEntry, TablePosition.blockData]

namespace SSTableIterator
variable {reader : SSTableReader} {table : SSTable} {it : SSTableIterator} {cmp : Comparator}

def Refines (reader : SSTableReader) (table : SSTable) (it : SSTableIterator) :
    Option TablePosition → Prop
  | none => it.isValid reader = false
  | some p => it.status = .ok ∧ (table.blocks[p.block]?.map DataBlock.entries) = some p.blockData ∧
      ∃ rest, StandsIn reader (tableContents table) it p.block (p.passed.map stored)
        (stored p.current) rest

section Represents
variable (has : Represents reader table)
include has

theorem reads_block {b : Nat} {block : DataBlock} (here : table.blocks[b]? = some block) :
    (tableContents table)[b]? = some (blockBytes (storedBlock block)) ∧
      Reads getEntry (blockBytes (storedBlock block)) (storedBlock block) [] := by
  obtain ⟨inside, same⟩ := List.getElem?_eq_some_iff.mp here
  have place : (tableContents table)[b]? = some (blockBytes (storedBlock block)) := by
    rw [tableContents, List.getElem?_map, here]
    rfl
  have holds := has.holds
  unfold Holds tableContents at holds
  rw [List.forall₂_map_left_iff, List.forall₂_map_right_iff, List.forall₂_same] at holds
  exact ⟨place, holds block (List.mem_of_getElem? here)⟩

theorem reads_pending {p : TablePosition} {rest : Bytes}
    (place : (table.blocks[p.block]?.map DataBlock.entries) = some p.blockData)
    (stands : StandsIn reader (tableContents table) it p.block (p.passed.map stored)
      (stored p.current) rest) : Reads getEntry rest (p.pending.map stored) [] := by
  obtain ⟨block, here, entries⟩ := Option.map_eq_some_iff.mp place
  obtain ⟨data, reads⟩ := reads_block has here
  have same : it.blockData = blockBytes (storedBlock block) :=
    Option.some.inj (stands.data.symm.trans data)
  have whole : storedBlock block =
      p.passed.map stored ++ [stored p.current] ++ p.pending.map stored := by
    rw [storedBlock, entries, TablePosition.blockData]
    simp
  rw [whole, ← whole, ← same, whole] at reads
  obtain ⟨middle, first, later⟩ := reads.split
  exact first.left_unique stands.reads ▸ later

theorem refines_parseEntry {b i : Nat} {block : DataBlock} (here : table.blocks[b]? = some block)
    (status : it.status = .ok) (number : it.currentBlock = b)
    (data : it.blockData = blockBytes (storedBlock block))
    (stands : StandsAtPlace it (storedBlock block) i) :
    Refines reader table it (TablePosition.parseEntry b block.entries i) := by
  obtain ⟨current, rest, at', stands⟩ := stands
  rw [storedBlock, List.getElem?_map] at at'
  obtain ⟨entry, found, rfl⟩ := Option.map_eq_some_iff.mp at'
  obtain ⟨inside, same⟩ := List.getElem?_eq_some_iff.mp found
  have parsed : TablePosition.parseEntry b block.entries i =
      some ⟨b, block.entries.take i, entry, block.entries.drop (i + 1)⟩ := by
    rw [TablePosition.parseEntry, List.drop_eq_getElem_cons inside, same]
  rw [parsed]
  refine ⟨status, ?_, rest, ?_, number, ?_⟩
  · rw [here, TablePosition.blockData]
    simp only [Option.map_some, Option.some.injEq]
    rw [← same, ← List.drop_eq_getElem_cons inside, List.take_append_drop]
  · rw [List.map_take]
    exact stands
  · rw [data]
    exact (reads_block has here).1

theorem index_ne_nil (filled : table.blocks ≠ []) : ¬ reader.index.isEmpty := by
  have length := has.contents.length
  rw [tableContents, List.length_map] at length
  rw [List.isEmpty_iff, ← List.length_eq_zero_iff, ← length]
  exact (List.length_pos_iff.mpr filled).ne'

theorem index_eq_nil (empty : table.blocks = []) : reader.index.isEmpty := by
  have length := has.contents.length
  rw [tableContents, List.length_map, empty] at length
  rw [List.isEmpty_iff, ← List.length_eq_zero_iff, ← length]
  rfl

theorem data_of_standsIn {b : Nat} {block : DataBlock} {passed : List (Bytes × Value)}
    {current : Bytes × Value} {rest : Bytes} (here : table.blocks[b]? = some block)
    (stands : StandsIn reader (tableContents table) it b passed current rest) :
    it.blockData = blockBytes (storedBlock block) :=
  Option.some.inj (stands.data.symm.trans (reads_block has here).1)

theorem getEntry_first {b : Nat} {block : DataBlock} (here : table.blocks[b]? = some block) :
    ∃ rest, getEntry (blockBytes (storedBlock block)) = some (stored block.first, rest) := by
  have reads := (reads_block has here).2
  generalize blockBytes (storedBlock block) = bytes at reads ⊢
  have first : storedBlock block = stored block.first :: block.rest.map stored := rfl
  rw [first] at reads
  cases reads with
  | cons found later => exact ⟨_, found⟩

theorem refines_first {b : Nat} {block : DataBlock} {rest : Bytes}
    (here : table.blocks[b]? = some block) (status : it.status = .ok)
    (stands : StandsIn reader (tableContents table) it b [] (stored block.first) rest) :
    Refines reader table it (table.loadBlock b 0) := by
  have place : StandsAtPlace it (storedBlock block) 0 :=
    ⟨stored block.first, rest, rfl, stands.toStandsAt⟩
  rw [SSTable.loadBlock, here]
  exact refines_parseEntry has here status stands.block (data_of_standsIn has here stands) place

theorem refines_loadBlock {b : Nat} {block : DataBlock} (here : table.blocks[b]? = some block) :
    Refines reader table (it.loadAnd reader b parseCurrentEntry) (table.loadBlock b 0) := by
  obtain ⟨rest, found⟩ := getEntry_first has here
  obtain ⟨stands, status⟩ := standsIn_loaded has.contents (reads_block has here).1 found
  exact refines_first has here status stands

theorem refines_seekToFirst : Refines reader table (it.seekToFirst reader) table.seekToFirst := by
  rw [seekToFirst, SSTable.seekToFirst]
  cases blocks : table.blocks with
  | nil =>
      rw [if_pos (index_eq_nil has blocks), SSTable.loadBlock, blocks]
      rfl
  | cons block more =>
      rw [if_neg (index_ne_nil has (by simp [blocks]))]
      exact refines_loadBlock has (by rw [blocks]; rfl)

theorem refines_seekToLast : Refines reader table (it.seekToLast reader) table.seekToLast := by
  have length := has.contents.length
  rw [tableContents, List.length_map] at length
  rw [seekToLast, SSTable.seekToLast, SSTable.seekToLastInBlock]
  by_cases blocks : table.blocks = []
  · rw [if_pos (index_eq_nil has blocks), blocks]
    rfl
  · have positive := List.length_pos_iff.mpr blocks
    have last : (reader.index.length : Int) - 1 = ((table.blocks.length - 1 : Nat) : Int) := by omega
    rw [if_neg (index_ne_nil has blocks), last]
    obtain ⟨block, here⟩ : ∃ block, table.blocks[table.blocks.length - 1]? = some block :=
      ⟨_, List.getElem?_eq_getElem (by omega)⟩
    generalize table.blocks.length - 1 = b at here ⊢
    obtain ⟨data, reads⟩ := reads_block has here
    rw [loadAnd_eq has.contents data, here]
    obtain ⟨records, left⟩ := reads.records_eq advances_getEntry advances_getEntry.nil
    obtain ⟨passed, current, whole, stands, same, status⟩ :=
      @seekToLastInBlock_of_whole (it.loaded b (blockBytes (storedBlock block))) (Or.inl rfl)
        (has.contents.filled _ (List.mem_of_getElem? data)) left
    have entries : storedBlock block = passed ++ [current] := records.symm.trans whole
    have number : block.entries.length - 1 = passed.length := by
      have count := congrArg List.length entries
      rw [storedBlock, List.length_map, List.length_append, List.length_singleton] at count
      omega
    simp only [Option.bind_some, number]
    refine refines_parseEntry has here status same.currentBlock same.blockData ⟨current, [], ?_, ?_⟩
    · rw [entries, List.getElem?_concat_length]
    · have before : (storedBlock block).take passed.length = passed := by
        rw [entries, List.take_left]
      rw [before]
      exact stands

theorem refines_next {position : Option TablePosition} (refines : Refines reader table it position) :
    Refines reader table (it.next reader) (position.bind table.next) := by
  cases position with
  | none =>
      have invalid : it.isValid reader = false := refines
      rw [next, if_pos (by simp [invalid])]
      exact invalid
  | some p =>
      obtain ⟨status, place, rest, stands⟩ := refines
      have reads := reads_pending has place stands
      obtain ⟨block, here, entries⟩ := Option.map_eq_some_iff.mp place
      have behind : p.blockData.drop (p.passed.length + 1) = p.pending := by
        rw [TablePosition.blockData, List.append_cons, List.drop_left' (by simp)]
      cases pending : p.pending with
      | nil =>
          rw [pending] at reads behind
          cases reads
          have stuck : getEntry [] = none := advances_getEntry.nil
          have moved : p.moveToNextInBlock = none := by
            rw [TablePosition.moveToNextInBlock, TablePosition.parseEntry, behind]
          simp only [Option.bind_some, SSTable.next, moved]
          cases following : table.blocks[p.block + 1]? with
          | none =>
              have last : (tableContents table).length = p.block + 1 := by
                have past := List.getElem?_eq_none_iff.mp following
                obtain ⟨inside, -⟩ := List.getElem?_eq_some_iff.mp here
                rw [tableContents, List.length_map]
                omega
              rw [SSTable.loadBlock, following]
              exact (next_last has.contents stands stuck last).1
          | some block' =>
              obtain ⟨rest', found⟩ := getEntry_first has following
              obtain ⟨stands', status'⟩ :=
                next_block has.contents stands stuck (reads_block has following).1 found
              exact refines_first has following status' stands'
      | cons e more =>
          rw [pending] at reads
          cases reads with
          | @cons _ rest' _ _ _ found later =>
              obtain ⟨stands', same⟩ := next_in_block has.contents stands found
              have moved : p.moveToNextInBlock =
                  TablePosition.parseEntry p.block block.entries (p.passed.length + 1) := by
                rw [TablePosition.moveToNextInBlock, entries]
              have parsed : TablePosition.parseEntry p.block block.entries (p.passed.length + 1) =
                  some ⟨p.block, block.entries.take (p.passed.length + 1), e, more⟩ := by
                rw [TablePosition.parseEntry, entries, behind, pending]
              have whole : storedBlock block =
                  p.passed.map stored ++ [stored p.current] ++ stored e :: more.map stored := by
                rw [storedBlock, entries, TablePosition.blockData, pending]
                simp
              have length : p.passed.length + 1 = (p.passed.map stored ++ [stored p.current]).length := by
                simp
              have at' : StandsAtPlace (it.next reader) (storedBlock block) (p.passed.length + 1) := by
                refine ⟨stored e, rest', ?_, ?_⟩
                · rw [whole, length, List.getElem?_append_right le_rfl, Nat.sub_self]
                  rfl
                · have before : (storedBlock block).take (p.passed.length + 1) =
                      p.passed.map stored ++ [stored p.current] := by
                    rw [whole, length, List.take_left]
                  rw [before]
                  exact stands'.toStandsAt
              have refines := refines_parseEntry has here (same.trans status) stands'.block
                (data_of_standsIn has here stands') at'
              simp only [Option.bind_some, SSTable.next, moved, parsed]
              rwa [parsed] at refines

theorem refines_prev {position : Option TablePosition} (refines : Refines reader table it position) :
    Refines reader table (it.prev reader) (position.bind table.prev) := by
  cases position with
  | none =>
      have invalid : it.isValid reader = false := refines
      rw [prev, if_pos (by simp [invalid])]
      exact invalid
  | some p =>
      obtain ⟨status, place, rest, stands⟩ := refines
      obtain ⟨stands', moved, block, data, same⟩ := moveToPrevInBlock_standsAt stands.toStandsAt
      have stays : it.prev reader = it.moveToPrevInBlock.1 := by
        rw [prev, if_neg (by simp [stands.isValid has.contents]), if_pos moved]
      rw [stays]
      simp only [Option.bind_some, SSTable.prev, moveToPrevInBlock_eq]
      exact ⟨same.trans status, place, rest, stands', block.trans stands.block, data ▸ stands.data⟩

omit has in
theorem userKeyPart_encode (k : InternalKey) : SSTableReader.userKeyPart k.encode = k.userKey := by
  have length : k.encode.length = k.userKey.length + 8 := k.length_encode
  rw [SSTableReader.userKeyPart, if_neg (by omega), length, Nat.add_sub_cancel, InternalKey.encode,
    List.take_left]

theorem findIndexEntry_eq (target : Key) :
    reader.findIndexEntry cmp.compare target = SSTable.findIndexEntry cmp table target := by
  have length : reader.index.length = table.blocks.length := by
    rw [← has.contents.length, tableContents, List.length_map]
  have same (i : Nat) : (reader.index[i]?.any fun entry =>
        decide (cmp.compare (SSTableReader.userKeyPart entry.key) target ≠ .gt)) =
      table.blocks[i]?.any fun block => decide (cmp.compare block.indexKey.userKey target ≠ .gt) := by
    have keys := congrArg (·[i]?) has.keys
    simp only [List.getElem?_map] at keys
    cases index : reader.index[i]? with
    | none =>
        rw [index, Option.map_none] at keys
        rw [Option.map_eq_none_iff.mp keys.symm]
        rfl
    | some entry =>
        rw [index, Option.map_some] at keys
        obtain ⟨block, here, key⟩ := Option.map_eq_some_iff.mp keys.symm
        rw [here, Option.any_some, Option.any_some, ← key, userKeyPart_encode]
  rw [SSTableReader.findIndexEntry, SSTable.findIndexEntry, length]
  congr 1
  funext i
  exact same i

omit has in
theorem seekPlace_eq (target : Key) (entries : List Entry) :
    seekPlace cmp.compare target (entries.map stored) = SSTable.seekInBlock cmp target entries := by
  fun_induction SSTable.seekInBlock cmp target entries with
  | case1 => rfl
  | case2 e below | case3 e below => simp [seekPlace, stored, below]
  | case4 e e' rest below ih => simp [seekPlace, below, ih, stored]
  | case5 e e' rest below => simp [seekPlace, stored, below]

omit has in
theorem exists_block_of_found {target : Key} {b : Nat}
    (found : SSTable.findIndexEntry cmp table target = some b) :
    ∃ block, table.blocks[b]? = some block := by
  have holds : (table.blocks[b]?.any fun block =>
      decide (cmp.compare block.indexKey.userKey target ≠ .gt)) = true := by
    apply Search.findLast_some _ found
    intro j missing
    cases missing
  obtain ⟨block, here, -⟩ := Option.any_eq_true _ _ |>.mp holds
  exact ⟨block, here⟩

theorem refines_seek (target : Key) :
    Refines reader table (it.seek reader cmp.compare target) (table.seek cmp target) := by
  rw [seek, findIndexEntry_eq has, SSTable.seek]
  cases found : SSTable.findIndexEntry cmp table target with
  | none => rfl
  | some b =>
      obtain ⟨block, here⟩ := exists_block_of_found found
      obtain ⟨data, reads⟩ := reads_block has here
      obtain ⟨records, left⟩ := reads.records_eq advances_getEntry advances_getEntry.nil
      have sought := @seekInBlock_sought (it.loaded b (blockBytes (storedBlock block))) cmp.compare
        target (Or.inl rfl)
      rw [show (it.loaded b (blockBytes (storedBlock block))).blockData =
        blockBytes (storedBlock block) from rfl, records, left] at sought
      have same : seekPlace cmp.compare target (storedBlock block) =
          SSTable.seekInBlock cmp target block.entries := seekPlace_eq target block.entries
      rw [same] at sought
      simp only [Option.bind_eq_bind, Option.bind_some, here, Option.elim_some]
      rw [loadAnd_eq has.contents data]
      cases place : SSTable.seekInBlock cmp target block.entries with
      | none =>
          rw [place] at sought
          have invalid : ((it.loaded b (blockBytes (storedBlock block))).seekInBlock cmp.compare
              target).isValid reader = false := by
            unfold isValid
            rw [sought.valid]
            rfl
          exact invalid
      | some i =>
          rw [place] at sought
          obtain ⟨stands, same, status⟩ := sought
          simp only [Option.bind_some, SSTable.loadBlock, here]
          exact refines_parseEntry has here status same.currentBlock same.blockData stands

end Represents

/-! ## Runs -/

inductive Call where
  | seekToFirst | seekToLast
  | seek (target : Key)
  | next | prev
  deriving DecidableEq, Repr

def call (reader : SSTableReader) (order : Bytes → Bytes → Ordering) (it : SSTableIterator) :
    Call → SSTableIterator
  | .seekToFirst => it.seekToFirst reader
  | .seekToLast => it.seekToLast reader
  | .seek target => it.seek reader order target
  | .next => it.next reader
  | .prev => it.prev reader

def callEntries (cmp : Comparator) (table : SSTable) (position : Option TablePosition) :
    Call → Option TablePosition
  | .seekToFirst => table.seekToFirst
  | .seekToLast => table.seekToLast
  | .seek target => table.seek cmp target
  | .next => position.bind table.next
  | .prev => position.bind table.prev

theorem refines_call (has : Represents reader table) {position : Option TablePosition}
    (refines : Refines reader table it position) (c : Call) :
    Refines reader table (it.call reader cmp.compare c) (callEntries cmp table position c) := by
  cases c with
  | seekToFirst => exact refines_seekToFirst has
  | seekToLast => exact refines_seekToLast has
  | seek target => exact refines_seek has target
  | next => exact refines_next has refines
  | prev => exact refines_prev has refines

theorem refines_run (has : Represents reader table) (calls : List Call) :
    Refines reader table (calls.foldl (call reader cmp.compare) {})
      (calls.foldl (callEntries cmp table) none) := by
  induction calls using List.reverseRecOn with
  | nil => rfl
  | append_singleton calls c ih =>
      rw [List.foldl_append, List.foldl_append]
      exact refines_call has ih c

end SSTableIterator
end TableFile
end Lrdb
