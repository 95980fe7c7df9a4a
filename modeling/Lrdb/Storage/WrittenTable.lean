import Lrdb.Storage.FinishedTable
import Lrdb.Storage.TableReads
import Lrdb.Storage.TableWalk

namespace Lrdb
namespace TableFile
open Parsing Records

theorem putEntry_ne_nil (e : Bytes × Value) : putEntry e ≠ [] := by
  intro empty
  have positive := SSTableWriter.length_putLengthPrefixedSlice_pos e.1
  rw [(List.append_eq_nil_iff.mp empty).1, List.length_nil] at positive
  exact Nat.lt_irrefl 0 positive

theorem blockBytes_eq_nil {block : List (Bytes × Value)} : blockBytes block = [] ↔ block = [] := by
  cases block with
  | nil => simp [blockBytes]
  | cons e rest => simp [blockBytes, putEntry_ne_nil]

namespace SSTableWriter
variable {w w' : SSTableWriter} {blocks : List (List (Bytes × Value))}
  {pending : List (Bytes × Value)} {file file' : Bytes} {order : Bytes → Bytes → Ordering}

structure WrittenBlock (file : Bytes) (entry : IndexEntry) (block : List (Bytes × Value)) : Prop where
  first : block.head?.map Prod.fst = some entry.key
  inside : entry.blockOffset + (BlockHeader.kHeaderSize + (blockBytes block).length) ≤ file.length
  content : (file.drop (entry.blockOffset + BlockHeader.kHeaderSize)).take (blockBytes block).length =
    blockBytes block
  size : entry.blockSize = blockSize (blockBytes block)
  firstKeyOffset : entry.firstKeyOffset = 0

theorem WrittenBlock.append {entry : IndexEntry} {block : List (Bytes × Value)}
    (written : WrittenBlock file entry block) (more : Bytes) : WrittenBlock (file ++ more) entry block where
  first := written.first
  inside := by
    have inside := written.inside
    rw [List.length_append]
    omega
  content := by
    have inside := written.inside
    rw [List.drop_append_of_le_length (by omega), List.take_append_of_le_length, written.content]
    rw [List.length_drop]
    omega
  size := written.size
  firstKeyOffset := written.firstKeyOffset

structure Stores (w : SSTableWriter) (blocks : List (List (Bytes × Value)))
    (pending : List (Bytes × Value)) : Prop where
  buffer : w.dataBuffer = blockBytes pending
  offset : w.currentOffset = w.file.length
  index : ∃ written, List.Forall₂ (WrittenBlock w.file) written blocks ∧
    w.indexEntries = written ++ pending.head?.toList.map fun e => ⟨e.1, w.file.length, 0, 0⟩

theorem stores_openFile {options : SSTableWriterOptions} {filename : Bytes} {now : Nat}
    (opened : openFile options filename now = .ok w) : Stores w [] [] := by
  unfold openFile at opened
  split at opened <;> [skip; cases opened]
  obtain rfl := Except.ok.inj opened
  exact ⟨rfl, rfl, [], List.Forall₂.nil, rfl⟩

theorem sizeLast_append (size : Nat) (entries : List IndexEntry) (last : IndexEntry) :
    sizeLast size (entries ++ [last]) = entries ++ [{ last with blockSize := size }] := by
  simp [sizeLast]

theorem Stores.writeDataBlock (stores : Stores w blocks pending)
    (success : w.writeDataBlock = .ok w') :
    Stores w' (if pending = [] then blocks else blocks ++ [pending]) [] := by
  unfold SSTableWriter.writeDataBlock at success
  cases pending with
  | nil =>
      have empty : (blockBytes []).isEmpty := rfl
      rw [stores.buffer, if_pos empty] at success
      obtain rfl := Except.ok.inj success
      rwa [if_pos rfl]
  | cons e more =>
      have filled : ¬ (blockBytes (e :: more)).isEmpty := by
        rw [List.isEmpty_iff, blockBytes_eq_nil]
        simp
      rw [stores.buffer, if_neg filled] at success
      obtain ⟨file, written, same⟩ := ok_of_bind success
      obtain rfl := Except.ok.inj same
      obtain ⟨header, length, rfl, small⟩ := writeBlock_ok written
      obtain ⟨done, earlier, index⟩ := stores.index
      rw [if_neg (List.cons_ne_nil e more)]
      refine ⟨rfl, ?_, done ++ [⟨e.1, w.file.length, blockSize (blockBytes (e :: more)), 0⟩], ?_, ?_⟩
      · simp only [stores.offset, List.length_append, length]
      · apply List.rel_append
        · exact earlier.imp fun _ _ block => block.append _
        · refine List.Forall₂.cons ⟨rfl, ?_, ?_, rfl, rfl⟩ List.Forall₂.nil
          · simp [length]
          · simp only [← length]
            rw [← List.append_assoc, ← List.length_append, List.drop_left, List.take_length]
      · simp only [index, List.head?_cons, Option.toList_some, List.map_cons, List.map_nil,
          sizeLast_append, List.head?_nil, Option.toList_none, List.append_nil]

theorem Stores.store (stores : Stores w blocks pending) (key : Bytes) (value : Value) :
    Stores (w.store key value) blocks (pending ++ [(key, value)]) := by
  obtain ⟨done, earlier, index⟩ := stores.index
  refine ⟨?_, ?_, done, ?_, ?_⟩
  · simp [SSTableWriter.store, stores.buffer, blockBytes, putEntry]
  · simpa [SSTableWriter.store] using stores.offset
  · simpa [SSTableWriter.store] using earlier
  · cases pending with
    | nil =>
        have empty : w.dataBuffer.isEmpty := by rw [stores.buffer]; rfl
        simp [SSTableWriter.store, startBlock, empty, index, stores.offset]
    | cons e more =>
        have filled : ¬ w.dataBuffer.isEmpty := by
          rw [stores.buffer, List.isEmpty_iff, blockBytes_eq_nil]
          simp
        simp [SSTableWriter.store, startBlock, filled, index]

theorem Stores.add (stores : Stores w blocks pending) {key : Bytes} {value : Value}
    (added : w.add order key value = .ok w') : ∃ blocks' pending', Stores w' blocks' pending' ∧
      blocks'.flatten ++ pending' = blocks.flatten ++ pending ++ [(key, value)] := by
  unfold SSTableWriter.add at added
  split at added <;> [cases added; skip]
  split at added <;> [cases added; skip]
  obtain ⟨middle, cut, same⟩ := ok_of_bind added
  obtain rfl := Except.ok.inj same
  unfold cutBlock at cut
  split at cut
  · refine ⟨_, _, (stores.writeDataBlock cut).store key value, ?_⟩
    split
    · rename_i none
      simp [none]
    · simp
  · obtain rfl := Except.ok.inj cut
    exact ⟨blocks, pending ++ [(key, value)], stores.store key value, by simp⟩

theorem Stores.addAll (stores : Stores w blocks pending) {entries : List (Bytes × Value)}
    (added : w.addAll order entries = .ok w') : ∃ blocks' pending', Stores w' blocks' pending' ∧
      blocks'.flatten ++ pending' = blocks.flatten ++ pending ++ entries := by
  induction entries generalizing w blocks pending with
  | nil =>
      obtain rfl := Except.ok.inj added
      exact ⟨blocks, pending, stores, by simp⟩
  | cons e rest ih =>
      obtain ⟨middle, first, added⟩ := ok_of_bind added
      obtain ⟨blocks', pending', stores', same⟩ := stores.add first
      obtain ⟨blocks'', pending'', stores'', whole⟩ := ih stores' added
      exact ⟨blocks'', pending'', stores'', by rw [whole, same]; simp⟩

/-! ## The index of the finished table -/

theorem writeTail_extends {type : BlockType} {data : Bytes} {setHandle : BlockHandle → Footer → Footer}
    (success : w.writeTail type data setHandle = .ok w') : w.file <+: w'.file := by
  obtain ⟨file, written, same⟩ := ok_of_bind success
  obtain rfl := Except.ok.inj same
  obtain ⟨header, -, rfl, -⟩ := writeBlock_ok written
  exact List.prefix_append ..

theorem writeBloomFilterBlock_extends (success : w.writeBloomFilterBlock = .ok w') :
    w.file <+: w'.file := by
  unfold writeBloomFilterBlock at success
  split at success
  · split at success
    · obtain rfl := Except.ok.inj success
      exact List.prefix_rfl
    · exact writeTail_extends success
  · obtain rfl := Except.ok.inj success
    exact List.prefix_rfl

variable {count : Nat} {data index bloom last : SSTableWriter}

theorem extends_of_steps (steps : FinishSteps w w' data index bloom last) : index.file <+: w'.file := by
  rw [(append_ok steps.ended).1]
  exact (writeBloomFilterBlock_extends steps.filtered).trans
    ((writeTail_extends steps.described).trans (List.prefix_append ..))

theorem indexBlock_of_steps (kept : Kept count w) (steps : FinishSteps w w' data index bloom last) :
    last.footer.indexBlock = index.footer.indexBlock := by
  have toIndex := writeIndexBlock_ok (kept.laid steps.cut) steps.indexed
  obtain ⟨toBloom, same⟩ := writeBloomFilterBlock_ok toIndex.laid steps.filtered
  obtain ⟨-, footer, -⟩ := writeTail_ok toBloom.laid steps.described
    fun _ typed => { toBloom.laid.footer with metaBlock := typed }
  rw [footer]
  exact same

theorem index_of_steps (kept : Kept count w) (steps : FinishSteps w w' data index bloom last)
    (filled : data.indexEntries ≠ []) : ∃ header more : Bytes,
      header.length = BlockHeader.kHeaderSize ∧
        w'.file = data.file ++ (header ++ SSTableReader.indexData data.indexEntries) ++ more ∧
          last.footer.indexBlock =
            ⟨data.file.length, blockSize (SSTableReader.indexData data.indexEntries)⟩ := by
  have laid := kept.laid steps.cut
  have indexed := steps.indexed
  unfold writeIndexBlock at indexed
  rw [if_neg (by simpa using filled)] at indexed
  obtain ⟨-, footer, header, length, file⟩ :=
    writeTail_ok laid indexed fun _ typed => { laid.footer with indexBlock := typed }
  obtain ⟨more, whole⟩ := extends_of_steps steps
  refine ⟨header, more, length, ?_, ?_⟩
  · rw [← whole, file]
    rfl
  · rw [indexBlock_of_steps kept steps, footer]
    rfl

theorem noIndex_of_steps (kept : Kept count w) (steps : FinishSteps w w' data index bloom last)
    (empty : data.indexEntries = []) : last.footer.indexBlock.size = 0 := by
  have indexed := steps.indexed
  unfold writeIndexBlock at indexed
  rw [empty, List.isEmpty_nil, if_pos rfl] at indexed
  obtain rfl := Except.ok.inj indexed
  rw [indexBlock_of_steps kept steps, (kept.writeDataBlock steps.cut).1.footer]

end SSTableWriter
/-! ## Reading it back -/

namespace SSTableReader
open SSTableWriter
variable {order : Bytes → Bytes → Ordering} {reader : SSTableReader} {file name : Bytes}
  {entry : IndexEntry} {block : List (Bytes × Value)}

theorem length_putEntry (e : Bytes × Value) :
    e.1.length ≤ (putEntry e).length ∧ e.2.length ≤ (putEntry e).length := by
  simp only [putEntry, putLengthPrefixedSlice, List.length_append]
  omega

theorem length_le_flatMap {α : Type} {f : α → Bytes} {a : α} {as : List α} (member : a ∈ as) :
    (f a).length ≤ (as.flatMap f).length := by
  obtain ⟨before, after, rfl⟩ := List.append_of_mem member
  simp only [List.flatMap_append, List.flatMap_cons, List.length_append]
  omega

section Written
variable (written : WrittenBlock file entry block) (small : file.length < uint32Limit)
include written small

theorem shortEntry_of_written {e : Bytes × Value} (member : e ∈ block) : ShortEntry e := by
  have inside := written.inside
  have lengths := length_putEntry e
  have whole : (putEntry e).length ≤ (blockBytes block).length := length_le_flatMap member
  exact ⟨by omega, by omega⟩

theorem reads_of_written : Reads getEntry (blockBytes block) block [] := by
  have reads := reads_flatMap
    (fun e member => yields_getEntry (shortEntry_of_written written small member)) []
  rwa [List.append_nil] at reads

theorem size_of_written :
    entry.blockSize = BlockHeader.kHeaderSize + (blockBytes block).length := by
  have inside := written.inside
  rw [written.size, blockSize, Nat.mod_eq_of_lt (by omega)]

omit small in
theorem block_ne_nil_of_written : blockBytes block ≠ [] := by
  intro empty
  have first := written.first
  rw [blockBytes_eq_nil.mp empty] at first
  cases first

theorem lies_of_written : Lies file entry := by
  have inside := written.inside
  have positive := List.length_pos_iff.mpr (block_ne_nil_of_written written)
  have size := size_of_written written small
  exact ⟨by omega, by omega⟩

theorem readDataBlock_of_written (reads : reader.file = file) (result : Bytes) :
    reader.readDataBlock entry.blockOffset entry.blockSize result = (.ok, blockBytes block) := by
  subst reads
  have limits : uint32Limit ≤ maxFileSize := by decide
  have content : blockContent reader.file entry = blockBytes block := by
    rw [blockContent, size_of_written written small, Nat.add_sub_cancel_left, written.content]
  rw [readDataBlock_of_lies (lies_of_written written small) (by omega), content]

end Written

theorem exists_block_of_mem {entries : List IndexEntry} {blocks : List (List (Bytes × Value))}
    (written : List.Forall₂ (WrittenBlock file) entries blocks) (member : entry ∈ entries) :
    ∃ block, WrittenBlock file entry block := by
  induction written with
  | nil => cases member
  | cons here _ ih =>
      obtain rfl | later := List.mem_cons.mp member
      · exact ⟨_, here⟩
      · exact ih later

theorem fits_of_written (written : WrittenBlock file entry block) (small : file.length < uint32Limit)
    (encoded : entry.encode.length < uint32Limit) : Fits entry := by
  have inside := written.inside
  have limit : uint32Limit ≤ uint64Limit := by decide
  have key : entry.key.length < uint32Limit := by
    cases block with
    | nil => cases written.first
    | cons e more =>
        have same : e.1 = entry.key := Option.some.inj written.first
        exact same ▸ (shortEntry_of_written written small (List.mem_cons_self ..)).1
  refine ⟨⟨key, by omega, ?_, ?_⟩, encoded⟩
  · rw [size_of_written written small]
    omega
  · rw [written.firstKeyOffset]
    decide

theorem length_encode_le_indexData {entries : List IndexEntry} (member : entry ∈ entries) :
    entry.encode.length ≤ (indexData entries).length := by
  have prefixed : entry.encode.length ≤ (putLengthPrefixedSlice entry.encode).length := by
    rw [putLengthPrefixedSlice, List.length_append]
    exact Nat.le_add_left ..
  obtain ⟨before, after, rfl⟩ := List.append_of_mem member
  rw [indexData, List.flatMap_append, List.flatMap_cons, List.length_append, List.length_append]
  omega

theorem readIndex_of_written {entries found : List IndexEntry} {info : SSTableMeta}
    {header before more : Bytes} (length : header.length = BlockHeader.kHeaderSize)
    (whole : file = before ++ (header ++ indexData entries) ++ more)
    (small : file.length < uint32Limit) (fits : ∀ e ∈ entries, Fits e)
    (indexed : readIndex order info ⟨before.length, blockSize (indexData entries)⟩ file = .ok found) :
    found = entries := by
  obtain ⟨content, loop, block, read, rfl⟩ := readIndex_ok indexed
  have size : blockSize (indexData entries) = (header ++ indexData entries).length := by
    rw [whole, List.length_append, List.length_append] at small
    rw [blockSize, ← length, ← List.length_append, Nat.mod_eq_of_lt (by omega)]
  have contentIs : content = indexData entries := by
    rw [readBlock_ok block, size, whole, List.append_assoc, List.drop_left, List.take_left, ← length,
      List.drop_left]
  rw [contentIs] at read
  obtain ⟨rfl, -⟩ := (readEntries_eq_ok_iff fits).mp read
  exact List.reverse_reverse _

section Steps
variable {w finished data index bloom last : SSTableWriter} {count : Nat}
  {blocks : List (List (Bytes × Value))} {pending : List (Bytes × Value)}

theorem written_of_steps (stores : Stores w blocks pending)
    (steps : FinishSteps w finished data index bloom last) :
    List.Forall₂ (WrittenBlock data.file) data.indexEntries
      (if pending = [] then blocks else blocks ++ [pending]) := by
  obtain ⟨entries, written, indexEntries⟩ := (stores.writeDataBlock steps.cut).index
  simp only [List.head?_nil, Option.toList_none, List.map_nil, List.append_nil] at indexEntries
  rwa [indexEntries]

theorem index_eq_of_steps (kept : Kept count w) (stores : Stores w blocks pending)
    (steps : FinishSteps w finished data index bloom last)
    (small : finished.file.length < uint32Limit)
    (opens : openFile order name finished.file = .ok reader) :
    reader.file = finished.file ∧ reader.index = data.indexEntries ∧ data.indexEntries ≠ [] := by
  have written := written_of_steps stores steps
  have ends := kept.ends steps
  obtain ⟨footer, opening⟩ := openFile_eq_ok_iff.mp opens
  have indexed := opening.indexed
  obtain ⟨rfl, -⟩ := readMeta_ok ends opening.described
  by_cases empty : data.indexEntries = []
  · rw [readIndex, if_pos (noIndex_of_steps kept steps empty)] at indexed
    cases indexed
  obtain ⟨header, more, length, whole, handle⟩ := index_of_steps kept steps empty
  have lengths := congrArg List.length whole
  simp only [List.length_append] at lengths
  have fits : ∀ e ∈ data.indexEntries, Fits e := by
    intro e member
    obtain ⟨block, here⟩ := exists_block_of_mem written member
    apply fits_of_written here (by omega)
    have part := length_encode_le_indexData member
    omega
  rw [handle] at indexed
  exact ⟨opening.file, readIndex_of_written length whole small fits indexed, empty⟩

theorem index_of_written (kept : Kept count w) (stores : Stores w blocks pending) {closing : Status}
    (finishes : w.finish closing = .ok finished) (small : finished.file.length < uint32Limit)
    (opens : openFile order name finished.file = .ok reader) :
    reader.file = finished.file ∧ reader.index ≠ [] ∧
      List.Forall₂ (WrittenBlock finished.file) reader.index
        (if pending = [] then blocks else blocks ++ [pending]) := by
  obtain ⟨data, index, bloom, last, steps⟩ := finish_steps finishes
  obtain ⟨reads, same, filled⟩ := index_eq_of_steps kept stores steps small opens
  obtain ⟨header, more, -, whole, -⟩ := index_of_steps kept steps filled
  refine ⟨reads, same ▸ filled, ?_⟩
  rw [same, whole, List.append_assoc]
  exact (written_of_steps stores steps).imp fun _ _ block => block.append _

end Steps

theorem written_of_getElem? {entries : List IndexEntry} {blocks : List (List (Bytes × Value))}
    (written : List.Forall₂ (WrittenBlock file) entries blocks) {i : Nat}
    (here : entries[i]? = some entry) (there : blocks[i]? = some block) :
    WrittenBlock file entry block := by
  induction written generalizing i with
  | nil => cases here
  | cons first _ ih =>
      cases i with
      | zero =>
          obtain rfl := Option.some.inj here
          obtain rfl := Option.some.inj there
          exact first
      | succ i => exact ih here there

theorem exists_entry_of_mem {entries : List IndexEntry} {blocks : List (List (Bytes × Value))}
    (written : List.Forall₂ (WrittenBlock file) entries blocks) (member : block ∈ blocks) :
    ∃ entry, WrittenBlock file entry block := by
  induction written with
  | nil => cases member
  | cons here _ ih =>
      obtain rfl | later := List.mem_cons.mp member
      · exact ⟨_, here⟩
      · exact ih later

theorem contents_of_written {blocks : List (List (Bytes × Value))} (reads : reader.file = file)
    (small : file.length < uint32Limit)
    (written : List.Forall₂ (WrittenBlock file) reader.index blocks) :
    Contents reader (blocks.map blockBytes) ∧ SSTableIterator.Holds (blocks.map blockBytes) blocks := by
  refine ⟨⟨by rw [List.length_map, written.length_eq], ?_, ?_⟩, ?_⟩
  · intro data member
    obtain ⟨block, inside, rfl⟩ := List.mem_map.mp member
    obtain ⟨entry, here⟩ := exists_entry_of_mem written inside
    exact block_ne_nil_of_written here
  · intro i entry data here there
    rw [List.getElem?_map] at there
    obtain ⟨block, found, rfl⟩ := Option.map_eq_some_iff.mp there
    exact readDataBlock_of_written (written_of_getElem? written here found) small reads
  · rw [SSTableIterator.Holds, List.forall₂_map_left_iff, List.forall₂_same]
    intro block member
    obtain ⟨entry, here⟩ := exists_entry_of_mem written member
    exact reads_of_written here small

theorem blocks_of_written {options : SSTableWriterOptions} {filename : Bytes} {now : Nat}
    {entries : List (Bytes × Value)} {closing : Status} {start added finished : SSTableWriter}
    (opened : SSTableWriter.openFile options filename now = .ok start)
    (adds : start.addAll order entries = .ok added) (finishes : added.finish closing = .ok finished)
    (small : finished.file.length < uint32Limit)
    (opens : openFile order name finished.file = .ok reader) :
    ∃ blocks, blocks.flatten = entries ∧ reader.file = finished.file ∧ reader.index ≠ [] ∧
      List.Forall₂ (WrittenBlock finished.file) reader.index blocks := by
  have kept : Kept (0 + entries.length) added := (kept_openFile opened).addAll adds
  obtain ⟨blocks, pending, stores, whole⟩ := (stores_openFile opened).addAll adds
  refine ⟨_, ?_, index_of_written kept stores finishes small opens⟩
  rw [List.flatten_nil, List.nil_append, List.nil_append] at whole
  rw [← whole]
  split
  · rename_i none
    rw [none, List.append_nil]
  · simp

end SSTableReader

theorem opens_twoEntries : ∃ start added finished reader,
    SSTableWriter.openFile {} [97] 0 = .ok start ∧
      start.addAll bytewiseCompare twoEntries = .ok added ∧ added.finish .ok = .ok finished ∧
        finished.file.length < uint32Limit ∧
          SSTableReader.openFile bytewiseCompare [98] finished.file = .ok reader := by
  have facts : (tableOf twoEntries).toOption.any fun finished =>
      decide (finished.file.length < uint32Limit) &&
        (SSTableReader.openFile bytewiseCompare [98] finished.file).toBool := by decide +kernel
  cases written : tableOf twoEntries with
  | error status =>
      rw [written] at facts
      cases facts
  | ok finished =>
      rw [written] at facts
      obtain ⟨small, readable⟩ := Bool.and_eq_true_iff.mp facts
      cases opens : SSTableReader.openFile bytewiseCompare [98] finished.file with
      | error status =>
          rw [opens] at readable
          cases readable
      | ok reader =>
          obtain ⟨start, opened, adding⟩ := ok_of_bind written
          obtain ⟨added, adds, finishes⟩ := ok_of_bind adding
          exact ⟨start, added, finished, reader, opened, adds, finishes, of_decide_eq_true small,
            opens⟩

/-- A table of less than 2^32 bytes that opens gives the entries that were added, each once and in their
order, and ends with the status OK. -/
theorem forward_scan (order : Bytes → Bytes → Ordering) (options : SSTableWriterOptions)
    (filename name : Bytes) (now : Nat) (entries : List (Bytes × Value)) (closing : Status)
    {start added finished : SSTableWriter} {reader : SSTableReader}
    (opened : SSTableWriter.openFile options filename now = .ok start)
    (adds : start.addAll order entries = .ok added) (finishes : added.finish closing = .ok finished)
    (small : finished.file.length < uint32Limit)
    (opens : SSTableReader.openFile order name finished.file = .ok reader) (it : SSTableIterator) :
    SSTableIterator.WalksOk reader entries (it.seekToFirst reader) := by
  obtain ⟨blocks, flat, reads, filled, written⟩ :=
    SSTableReader.blocks_of_written opened adds finishes small opens
  obtain ⟨has, holds⟩ := SSTableReader.contents_of_written reads small written
  have nonempty : blocks.map blockBytes ≠ [] := by
    rw [ne_eq, List.map_eq_nil_iff]
    intro empty
    rw [empty] at written
    exact filled (List.forall₂_nil_right_iff.mp written)
  have walks := SSTableIterator.walks_seekToFirst has holds nonempty it
  rwa [flat] at walks

theorem forward_scan_twoEntries : ∃ finished reader, tableOf twoEntries = .ok finished ∧
    SSTableReader.openFile bytewiseCompare [98] finished.file = .ok reader ∧
      SSTableIterator.WalksOk reader twoEntries (SSTableIterator.seekToFirst reader {}) := by
  obtain ⟨start, added, finished, reader, opened, adds, finishes, small, opens⟩ := opens_twoEntries
  have written := (tableOf_eq_finish opened adds).trans finishes
  exact ⟨finished, reader, written, opens,
    forward_scan _ _ _ _ _ _ _ opened adds finishes small opens {}⟩

end TableFile
end Lrdb
