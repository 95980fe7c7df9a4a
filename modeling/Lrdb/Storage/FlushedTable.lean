import Mathlib.Data.List.Chain
import Lrdb.Storage.Flush
import Lrdb.Storage.OpenedTable
import Lrdb.Storage.TableSeek

namespace Lrdb
namespace TableFile
open Parsing Records

/-- `SSTableCompactor::FlushMemTable`, on bytes. -/
def flushMemTable (order : Bytes → Bytes → Ordering) (filename : Bytes) (now : Nat)
    (entries : List Entry) (closing : Status) : Except Status SSTableWriter := do
  let start ← SSTableWriter.openFile {} filename now
  let added ← start.addAll order ((sortedEntries entries).map stored)
  added.finish closing

/-! ## Both writers -/

namespace SSTableWriter
variable {cmp : Comparator} {options : Lrdb.SSTableWriterOptions} {w w' : SSTableWriter}
  {v : Lrdb.SSTableWriter}

structure Writes (options : Lrdb.SSTableWriterOptions) (w : SSTableWriter) (v : Lrdb.SSTableWriter) :
    Prop where
  stores : Stores w (v.blocks.map storedBlock) (v.dataBuffer.map stored)
  bytes : w.dataBuffer.length = v.bufferBytes
  last : w.lastKey = (v.lastKey.map InternalKey.encode).getD []
  keys : w.bloomKeys = v.bloomKeys
  unused : v.bloomKeys = [] → v.writeDataBlock.blocks = []
  smallest : w.info.smallestKey = v.smallestKey
  largest : w.info.largestKey = v.largestKey
  enabled : w.options.enableBloomFilter
  size : w.options.blockSize = options.blockSize

theorem writes_openFile {filename : Bytes} {now : Nat} (opened : openFile {} filename now = .ok w) :
    Writes {} w {} := by
  have stores := stores_openFile opened
  unfold openFile at opened
  split at opened <;> [skip; cases opened]
  obtain rfl := Except.ok.inj opened
  exact ⟨stores, rfl, rfl, rfl, fun _ => rfl, rfl, rfl, rfl, rfl⟩

theorem writeDataBlock_unchanged (success : w.writeDataBlock = .ok w') :
    w'.lastKey = w.lastKey ∧ w'.info = w.info ∧ w'.dataBuffer = [] := by
  unfold SSTableWriter.writeDataBlock at success
  split at success
  · rename_i empty
    obtain rfl := Except.ok.inj success
    exact ⟨rfl, rfl, List.isEmpty_iff.mp empty⟩
  · obtain ⟨file, -, same⟩ := ok_of_bind success
    obtain rfl := Except.ok.inj same
    exact ⟨rfl, rfl, rfl⟩

theorem blocks_writeDataBlock (v : Lrdb.SSTableWriter) :
    v.writeDataBlock.blocks.map storedBlock =
      if v.dataBuffer.map stored = [] then v.blocks.map storedBlock
      else v.blocks.map storedBlock ++ [v.dataBuffer.map stored] := by
  unfold Lrdb.SSTableWriter.writeDataBlock
  cases v.dataBuffer with
  | nil => rfl
  | cons first rest => simp [storedBlock, DataBlock.entries]

theorem writeDataBlock_of_empty (empty : v.dataBuffer = []) : v.writeDataBlock = v := by
  rw [Lrdb.SSTableWriter.writeDataBlock, empty]

theorem Writes.writeDataBlock (writes : Writes options w v) (success : w.writeDataBlock = .ok w') :
    Writes options w' v.writeDataBlock := by
  obtain ⟨last, info, buffer⟩ := writeDataBlock_unchanged success
  obtain ⟨same, keys⟩ := writeDataBlock_kept success
  have stores := writes.stores.writeDataBlock success
  rw [← blocks_writeDataBlock] at stores
  have bytes := writes.bytes
  have empty : v.writeDataBlock.dataBuffer = [] ∧ v.writeDataBlock.bufferBytes = 0 ∧
      v.writeDataBlock.lastKey = v.lastKey ∧ v.writeDataBlock.bloomKeys = v.bloomKeys ∧
        v.writeDataBlock.smallestKey = v.smallestKey ∧ v.writeDataBlock.largestKey = v.largestKey := by
    unfold Lrdb.SSTableWriter.writeDataBlock
    cases held : v.dataBuffer with
    | nil =>
        have none : w.dataBuffer = [] := by
          rw [writes.stores.buffer, held]
          rfl
        rw [none] at bytes
        exact ⟨held, bytes.symm, rfl, rfl, rfl, rfl⟩
    | cons first rest => exact ⟨rfl, rfl, rfl, rfl, rfl, rfl⟩
  obtain ⟨data, count, lastKey, bloom, smallest, largest⟩ := empty
  refine ⟨?_, ?_, ?_, ?_, ?_, ?_, ?_, ?_, ?_⟩
  · rw [data]
    exact stores
  · rw [buffer, count]
    rfl
  · rw [last, lastKey, writes.last]
  · rw [keys, bloom, writes.keys]
  · intro none
    rw [writeDataBlock_of_empty data]
    exact writes.unused (bloom ▸ none)
  · rw [info, smallest, writes.smallest]
  · rw [info, largest, writes.largest]
  · rw [same]
    exact writes.enabled
  · rw [same]
    exact writes.size

theorem length_putLengthPrefixedSlice {value : Bytes} (short : value.length < uint32Limit) :
    (putLengthPrefixedSlice value).length = varintLength value.length + value.length := by
  rw [putLengthPrefixedSlice, Nat.mod_eq_of_lt short, List.length_append, length_putVarint32]

theorem updateMeta_encode (m : SSTableMeta) (k : InternalKey) (value : Bytes) :
    (updateMeta m k.encode value).smallestKey =
        (if m.smallestKey = [] then k.userKey else m.smallestKey) ∧
      (updateMeta m k.encode value).largestKey = k.userKey := by
  simp [updateMeta, updateRange, parse_encode]

theorem bloomKey_encode (k : InternalKey) : bloomKey k.encode = k.userKey := by
  simp [bloomKey, parse_encode]

theorem startBlock_options (w : SSTableWriter) (key : Bytes) :
    (w.startBlock key).options = w.options := by
  unfold startBlock
  split <;> rfl

theorem Writes.store (writes : Writes options w v) {e : Entry} (short : ShortEntry (stored e)) :
    Writes options (w.store e.1.encode e.2) (v.append e) := by
  obtain ⟨smallest, largest⟩ := updateMeta_encode w.info e.1 e.2
  refine ⟨?_, ?_, rfl, ?_, ?_, ?_, ?_, ?_, ?_⟩
  · have stores := writes.stores.store e.1.encode e.2
    simpa [Lrdb.SSTableWriter.append, stored] using stores
  · have keyed := length_putLengthPrefixedSlice short.1
    have valued := length_putLengthPrefixedSlice short.2
    simp only [stored] at keyed valued
    simp only [SSTableWriter.store, Lrdb.SSTableWriter.append, List.length_append, writes.bytes, keyed,
      valued, Lrdb.SSTableWriter.entryBytes]
  · simp only [SSTableWriter.store, Lrdb.SSTableWriter.append, writes.enabled, if_true, writes.keys,
      bloomKey_encode]
  · intro none
    simp [Lrdb.SSTableWriter.append] at none
  · simp only [SSTableWriter.store, Lrdb.SSTableWriter.append, smallest, writes.smallest]
  · exact largest
  · simp only [SSTableWriter.store, startBlock_options]
    exact writes.enabled
  · simp only [SSTableWriter.store, startBlock_options]
    exact writes.size

theorem Writes.add (writes : Writes options w v) {e : Entry} (short : ShortEntry (stored e))
    (added : w.add cmp.compare e.1.encode e.2 = .ok w') :
    ∃ v', v.add cmp options e = .ok v' ∧ Writes options w' v' := by
  unfold SSTableWriter.add at added
  split at added <;> [cases added; skip]
  split at added <;> [cases added; rename_i ordered]
  obtain ⟨middle, cut, same⟩ := ok_of_bind added
  obtain rfl := Except.ok.inj same
  have ascends : ¬ ∃ last ∈ v.lastKey, cmp.compare last.encode e.1.encode ≠ .lt := by
    rintro ⟨last, here, above⟩
    have encoded : w.lastKey = last.encode := by
      rw [writes.last, Option.mem_def.mp here]
      rfl
    have filled : last.encode ≠ [] := by
      intro none
      have length := last.length_encode
      rw [none] at length
      cases length
    exact ordered ⟨by simpa [encoded] using filled, encoded ▸ above⟩
  have full : w.shouldStartNewBlock = Lrdb.SSTableWriter.shouldStartNewBlock options v := by
    rw [shouldStartNewBlock, Lrdb.SSTableWriter.shouldStartNewBlock, writes.size, writes.bytes]
  refine ⟨_, by rw [Lrdb.SSTableWriter.add, if_neg ascends], ?_⟩
  unfold cutBlock at cut
  rw [full] at cut
  split at cut
  · rename_i cuts
    rw [if_pos cuts]
    exact (writes.writeDataBlock cut).store short
  · rename_i more
    obtain rfl := Except.ok.inj cut
    rw [if_neg more]
    exact writes.store short

theorem Writes.addAll (writes : Writes options w v) {entries : List Entry}
    (short : ∀ e ∈ entries, ShortEntry (stored e))
    (added : w.addAll cmp.compare (entries.map stored) = .ok w') :
    ∃ v', v.addAll cmp options entries = .ok v' ∧ Writes options w' v' := by
  induction entries generalizing w v with
  | nil =>
      obtain rfl := Except.ok.inj added
      exact ⟨v, rfl, writes⟩
  | cons e rest ih =>
      obtain ⟨middle, first, added⟩ := ok_of_bind added
      obtain ⟨here, later⟩ := List.forall_mem_cons.mp short
      obtain ⟨v', first', writes'⟩ := writes.add here first
      obtain ⟨v'', more, writes''⟩ := ih writes' later added
      refine ⟨v'', ?_, writes''⟩
      rw [Lrdb.SSTableWriter.addAll, first']
      exact more

end SSTableWriter

/-! ## Opening -/

namespace Layout
open BloomFilterReader SSTableReader
variable {file name : Bytes} {footer : Footer} {info : SSTableMeta} {entries : List IndexEntry}
  {keys : List Key} {order : Bytes → Bytes → Ordering} {filter : BloomFilter}

theorem writable (layout : Layout file footer info entries keys) (small : file.length < uint32Limit)
    (built : BloomFilter.build keys = some filter) : Writable filter := by
  obtain ⟨some, size, count, bits⟩ := sizes_build built
  have block := layout.filtered filter built
  have inside := block.inside
  have sized := block.size
  have positive := List.length_pos_of_ne_nil some
  have bytes : (packBits filter.bits).length = (filter.bitArraySize + 7) / 8 := by
    rw [length_packBits, bits, Nat.mul_div_cancel _ (by decide)]
  have length : (serialize filter keys.length).length = 20 + (packBits filter.bits).length := by
    simp only [serialize, List.length_append, length_putFixed, putFixed64]
    omega
  have limits : uint32Limit = 0x100000000 ∧ uint64Limit = 0x10000000000000000 := by decide
  have seven : BloomFilter.hashCount = 7 := rfl
  have ten : BloomFilter.bitsPerKey = 10 := rfl
  exact ⟨by rw [size, ten]; omega, by omega, by omega, bits⟩

theorem readBloomFilter (layout : Layout file footer info entries keys) (small : file.length < uint32Limit)
    (built : BloomFilter.build keys = some filter) :
    SSTableReader.readBloomFilter footer.bloomBlock file = .ok (some (ofFilter filter)) := by
  have block := layout.filtered filter built
  have unset : ¬ footer.bloomBlock.size = 0 := by
    have positive : 0 < BlockHeader.kHeaderSize := by decide
    have size := block.size
    omega
  have made := new_ofFilter (layout.writable small built) keys.length
  rw [SSTableReader.readBloomFilter, if_neg unset]
  simp only [block.readBlock small, made, expect_some, bind, Except.bind]
  rfl

def fileReader (name file : Bytes) (info : SSTableMeta) (entries : List IndexEntry) (filter : BloomFilter) :
    SSTableReader :=
  ⟨file, { info with filename := name, fileSize := file.length }, entries, some (ofFilter filter)⟩

theorem opens_iff (layout : Layout file footer info entries keys) (small : file.length < uint32Limit)
    (typed : info.Typed) (named : info.filename.length < maxPath) (fits : ∀ e ∈ entries, Fits e)
    (built : BloomFilter.build keys = some filter) {opened : SSTableReader} :
    openFile order name file = .ok opened ↔ opened = fileReader name file info entries filter ∧
      Accepted order file.length entries ∧
        ∃ first ∈ entries.head?, ∃ last ∈ entries.getLast?, RangeAgrees order info first last := by
  have described := @Layout.readMeta file name footer info entries keys layout small typed named
  have filtered := layout.readBloomFilter small built
  rw [openFile_eq_ok_iff]
  constructor
  · rintro ⟨found, steps⟩
    obtain ⟨same, rfl⟩ := Prod.mk.inj (Except.ok.inj (steps.described.symm.trans described))
    have bloom := Except.ok.inj (steps.filtered.symm.trans filtered)
    have indexed := steps.indexed
    rw [same, layout.readIndex_iff small fits] at indexed
    obtain ⟨index, checks⟩ := indexed
    refine ⟨?_, checks⟩
    cases opened
    exact SSTableReader.mk.injEq .. ▸ ⟨steps.file, same, index, bloom⟩
  · rintro ⟨rfl, checks⟩
    have inside := layout.described.inside
    have size := layout.described.size
    obtain ⟨before, whole⟩ := layout.ends
    refine ⟨footer, ?_, described, (layout.readIndex_iff small fits).mpr ⟨rfl, checks⟩, filtered, rfl⟩
    rw [whole, List.length_append, Footer.length_encode]
    have sizes : BlockHeader.kHeaderSize = 16 ∧ footerSize = 48 := by decide
    omega

theorem not_opens (layout : Layout file footer info [] keys) (small : file.length < uint32Limit)
    (typed : info.Typed) (named : info.filename.length < maxPath) {opened : SSTableReader} :
    openFile order name file ≠ .ok opened := by
  intro opens
  obtain ⟨found, steps⟩ := openFile_eq_ok_iff.mp opens
  have described := @Layout.readMeta file name footer info [] keys layout small typed named
  obtain ⟨-, rfl⟩ := Prod.mk.inj (Except.ok.inj (steps.described.symm.trans described))
  obtain ⟨-, -, first, none, -⟩ := (layout.readIndex_iff small (by simp)).mp steps.indexed
  cases none

end Layout

theorem readIndex_isOk_iff {cmp : Comparator} {table : SSTable} : (table.readIndex cmp).isOk ↔
    ((table.blocks.map fun block => block.indexKey.encode).IsChain fun a b => cmp.compare a b = .lt) ∧
      ∃ front ∈ table.blocks.head?, ∃ back ∈ table.blocks.getLast?,
        ¬ (table.info.smallestKey ≠ [] ∧ table.info.largestKey ≠ [] ∧
          (cmp.compare front.indexKey.userKey table.info.smallestKey ≠ .eq ∨
            cmp.compare back.indexKey.userKey table.info.largestKey = .gt)) := by
  unfold SSTable.readIndex
  cases blocks : table.blocks with
  | nil => simp [Status.isOk, Status.corruption]
  | cons front rest =>
      rw [List.getLast?_eq_some_getLast (List.cons_ne_nil front rest)]
      simp only [List.head?_cons, Option.mem_def, Option.some.injEq, exists_eq_left']
      split
      · rename_i unordered
        exact ⟨fun success => absurd success (by simp [Status.isOk, Status.corruption]),
          fun both => absurd both.1 unordered⟩
      · rename_i ordered
        split
        · rename_i disagrees
          exact ⟨fun success => absurd success (by simp [Status.isOk, Status.corruption]),
            fun both => absurd disagrees both.2⟩
        · rename_i agrees
          exact ⟨fun _ => ⟨not_not.mp ordered, agrees⟩, fun _ => rfl⟩

/-! ## The file and the table -/

def SSTableReader.mayContainKey (reader : SSTableReader) (order : Bytes → Bytes → Ordering) (key : Key) :
    Bool :=
  reader.info.keyInRange order key && reader.bloomFilter.all fun filter => filter.mayContain key

structure Image (cmp : Comparator) (name content : Bytes) (table : SSTable) : Prop where
  opens : (∃ reader, SSTableReader.openFile cmp.compare name content = .ok reader) ↔
    (table.readIndex cmp).isOk
  range : ∀ reader, SSTableReader.openFile cmp.compare name content = .ok reader →
    reader.info.smallestKey = table.info.smallestKey ∧ reader.info.largestKey = table.info.largestKey
  mayContain : ∀ reader, SSTableReader.openFile cmp.compare name content = .ok reader → ∀ key,
    reader.mayContainKey cmp.compare key = table.mayContainKey cmp key
  get : ∀ reader, SSTableReader.openFile cmp.compare name content = .ok reader →
    ∀ key snapshot value, reader.get cmp.compare key snapshot value = table.get cmp key snapshot value
  walks : ∀ reader, SSTableReader.openFile cmp.compare name content = .ok reader →
    ∀ calls : List SSTableIterator.Call, SSTableIterator.Walks reader
      ((ahead table (calls.foldl (SSTableIterator.callEntries cmp table) none)).map stored)
      (calls.foldl (SSTableIterator.call reader cmp.compare) {})

theorem range_iff {entries : List IndexEntry} {blocks : List DataBlock} (agrees : Bytes → Bytes → Prop)
    (keys : entries.map IndexEntry.key = blocks.map fun block => block.indexKey.encode) :
    (∃ first ∈ entries.head?, ∃ last ∈ entries.getLast?, agrees first.key last.key) ↔
      ∃ front ∈ blocks.head?, ∃ back ∈ blocks.getLast?,
        agrees front.indexKey.encode back.indexKey.encode := by
  have head := congrArg List.head? keys
  have last := congrArg List.getLast? keys
  rw [List.head?_map, List.head?_map] at head
  rw [List.getLast?_map, List.getLast?_map] at last
  cases first : entries.head? <;> cases front : blocks.head? <;> simp [first, front] at head
  · simp
  cases final : entries.getLast? <;> cases back : blocks.getLast? <;> simp [final, back] at last
  · simp
  · simp [head, last]

namespace SSTableWriter
variable {cmp : Comparator} {w finished data index bloom last : SSTableWriter} {count : Nat}
  {v : Lrdb.SSTableWriter} {options : Lrdb.SSTableWriterOptions} {order : Bytes → Bytes → Ordering}
  {entries : List (Bytes × Value)}

theorem data_isPrefix (steps : FinishSteps w finished data index bloom last) :
    data.file <+: finished.file := by
  have indexed := steps.indexed
  have first : data.file <+: index.file := by
    unfold writeIndexBlock at indexed
    split at indexed
    · obtain rfl := Except.ok.inj indexed
      exact List.prefix_rfl
    · exact writeTail_extends indexed
  exact first.trans (extends_of_steps steps)

theorem WrittenBlock.of_isPrefix {file longer : Bytes} {entry : IndexEntry} {block : List (Bytes × Value)}
    (written : WrittenBlock file entry block) (extended : file <+: longer) :
    WrittenBlock longer entry block := by
  obtain ⟨more, rfl⟩ := extended
  exact written.append more

theorem short_of_finish {filename : Bytes} {now : Nat} {closing : Status} {start added : SSTableWriter}
    (opened : openFile {} filename now = .ok start) (adds : start.addAll order entries = .ok added)
    (finishes : added.finish closing = .ok finished) (small : finished.file.length < uint32Limit) :
    ∀ e ∈ entries, ShortEntry e := by
  obtain ⟨blocks, pending, stores, whole⟩ := (stores_openFile opened).addAll adds
  obtain ⟨data, index, bloom, last, steps⟩ := finish_steps finishes
  have written := SSTableReader.written_of_steps stores steps
  have smaller := (data_isPrefix steps).length_le.trans_lt small
  intro e member
  have inside : e ∈ (if pending = [] then blocks else blocks ++ [pending]).flatten := by
    have both : e ∈ blocks.flatten ++ pending := by
      rw [whole]
      simpa using member
    split
    · rename_i none
      rwa [none, List.append_nil] at both
    · simpa using both
  obtain ⟨block, place, here⟩ := List.mem_flatten.mp inside
  obtain ⟨entry, found⟩ := SSTableReader.exists_entry_of_mem written place
  exact SSTableReader.shortEntry_of_written found smaller here

theorem Writes.written (writes : Writes options w v) (steps : FinishSteps w finished data index bloom last) :
    List.Forall₂ (WrittenBlock finished.file) data.indexEntries
      (v.writeDataBlock.blocks.map storedBlock) := by
  have written := SSTableReader.written_of_steps writes.stores steps
  rw [← blocks_writeDataBlock] at written
  exact written.imp fun _ _ block => block.of_isPrefix (data_isPrefix steps)

theorem Writes.exists_filter (writes : Writes options w v) {fileNumber : Nat}
    (passes : ((v.finish fileNumber).readIndex cmp).isOk) :
    ∃ filter, BloomFilter.build v.bloomKeys = some filter := by
  obtain ⟨-, front, head, -⟩ := readIndex_isOk_iff.mp passes
  have used : v.bloomKeys ≠ [] := by
    intro none
    have head : front ∈ v.writeDataBlock.blocks.head? := head
    rw [writes.unused none] at head
    cases head
  exact ⟨_, by rw [BloomFilter.build, if_neg used]⟩

variable (kept : Kept count w) (writes : Writes options w v)
  (steps : FinishSteps w finished data index bloom last) (small : finished.file.length < uint32Limit)
include writes steps small

include kept in
theorem Writes.fits : ∀ e ∈ data.indexEntries, SSTableReader.Fits e := by
  intro e member
  have written := writes.written steps
  have layout := layout_of_steps kept steps writes.enabled small
  have block := layout.indexed (List.ne_nil_of_mem member)
  have inside := block.inside
  have size := block.size
  have part := SSTableReader.length_encode_le_indexData member
  obtain ⟨content, here⟩ := SSTableReader.exists_block_of_mem written member
  exact SSTableReader.fits_of_written here small (by omega)

theorem Writes.accepted_iff (fileNumber : Nat) :
    (SSTableReader.Accepted cmp.compare finished.file.length data.indexEntries ∧
      ∃ first ∈ data.indexEntries.head?, ∃ final ∈ data.indexEntries.getLast?,
        RangeAgrees cmp.compare w.info first final) ↔ ((v.finish fileNumber).readIndex cmp).isOk := by
  have written := writes.written steps
  have keys := keys_of_written written
  have inside : ∀ e ∈ data.indexEntries, (e.blockOffset + e.blockSize) % uint64Limit ≤
      finished.file.length := by
    intro e member
    obtain ⟨content, here⟩ := SSTableReader.exists_block_of_mem written member
    have lies := (SSTableReader.lies_of_written here small).inside
    have limits : uint32Limit ≤ uint64Limit := by decide
    rwa [Nat.mod_eq_of_lt (by omega)]
  rw [readIndex_isOk_iff]
  apply and_congr
  · change _ ↔ (v.writeDataBlock.blocks.map fun block => block.indexKey.encode).IsChain _
    rw [← keys, List.isChain_map]
    exact ⟨fun accepted => accepted.ascending, fun ascending => ⟨inside, ascending⟩⟩
  · have range := range_iff (fun first final => ¬ (¬ w.info.smallestKey.isEmpty ∧
      ¬ w.info.largestKey.isEmpty ∧
        (cmp.compare (SSTableReader.userKeyPart first) w.info.smallestKey ≠ .eq ∨
          cmp.compare (SSTableReader.userKeyPart final) w.info.largestKey = .gt))) keys
    simp only [SSTableIterator.userKeyPart_encode, writes.smallest, writes.largest,
      List.isEmpty_iff] at range
    simp only [RangeAgrees, writes.smallest, writes.largest, List.isEmpty_iff]
    exact range

include kept in
theorem Writes.opens_iff (name : Bytes) (fileNumber : Nat) {reader : SSTableReader} :
    SSTableReader.openFile cmp.compare name finished.file = .ok reader ↔
      ((v.finish fileNumber).readIndex cmp).isOk ∧ ∃ filter, BloomFilter.build v.bloomKeys = some filter ∧
        reader = Layout.fileReader name finished.file w.info data.indexEntries filter := by
  have layout := layout_of_steps kept steps writes.enabled small
  have written := writes.written steps
  rw [← writes.accepted_iff steps small]
  by_cases empty : data.indexEntries = []
  · rw [empty] at layout ⊢
    refine ⟨fun opens => absurd opens (layout.not_opens small kept.typed kept.filename), ?_⟩
    rintro ⟨⟨-, first, none, -⟩, -⟩
    cases none
  · have used : v.bloomKeys ≠ [] := by
      intro none
      rw [writes.unused none] at written
      exact empty (List.forall₂_nil_right_iff.mp written)
    obtain ⟨filter, built⟩ : ∃ filter, BloomFilter.build v.bloomKeys = Option.some filter := by
      rw [BloomFilter.build, if_neg used]
      exact ⟨_, rfl⟩
    rw [layout.opens_iff small kept.typed kept.filename (writes.fits kept steps small)
      (writes.keys ▸ built)]
    simp only [built, Option.some.injEq, exists_eq_left']
    exact and_comm

theorem Writes.represents {reader : SSTableReader} (reads : reader.file = finished.file)
    (index : reader.index = data.indexEntries) (fileNumber : Nat) :
    Represents reader (v.finish fileNumber) := by
  have written := writes.written steps
  rw [← index] at written
  obtain ⟨contents, holds⟩ := SSTableReader.contents_of_written reads small written
  have bytes : (v.writeDataBlock.blocks.map storedBlock).map blockBytes =
      tableContents (v.finish fileNumber) := List.map_map ..
  rw [bytes] at contents holds
  exact ⟨contents, holds, keys_of_written written⟩

include kept in
theorem Writes.image (name : Bytes) (fileNumber : Nat) :
    Image cmp name finished.file (v.finish fileNumber) := by
  have layout := layout_of_steps kept steps writes.enabled small
  -- An open reader is the one of the layout, with the filter of the writer's keys.
  have opened (reader : SSTableReader)
      (opens : SSTableReader.openFile cmp.compare name finished.file = .ok reader) :
      reader.info.smallestKey = v.smallestKey ∧ reader.info.largestKey = v.largestKey ∧
        (∀ key, (reader.bloomFilter.all fun filter => filter.mayContain key) =
          (BloomFilter.build v.bloomKeys).all fun filter => filter.mayContain key) ∧
        Represents reader (v.finish fileNumber) := by
    obtain ⟨-, filter, built, rfl⟩ := (writes.opens_iff kept steps small name fileNumber).mp opens
    have writable := layout.writable small (writes.keys ▸ built)
    refine ⟨writes.smallest, writes.largest, fun key => ?_, writes.represents steps small rfl rfl fileNumber⟩
    simp [Layout.fileReader, built, BloomFilterReader.mayContain_ofFilter writable]
  have inRange (reader : SSTableReader)
      (opens : SSTableReader.openFile cmp.compare name finished.file = .ok reader) (key : Key) :
      reader.info.keyInRange cmp.compare key = (v.finish fileNumber).info.keyInRange cmp key := by
    obtain ⟨smallest, largest, -⟩ := opened reader opens
    simp only [SSTableMeta.keyInRange, Lrdb.SSTableMeta.keyInRange, Lrdb.SSTableWriter.finish, smallest,
      largest, List.isEmpty_iff]
    congr
  constructor
  case opens =>
    constructor
    · rintro ⟨reader, opens⟩
      exact ((writes.opens_iff kept steps small name fileNumber).mp opens).1
    · intro passes
      obtain ⟨filter, built⟩ := writes.exists_filter passes
      exact ⟨_, (writes.opens_iff kept steps small name fileNumber).mpr ⟨passes, filter, built, rfl⟩⟩
  case range =>
    intro reader opens
    obtain ⟨smallest, largest, -⟩ := opened reader opens
    exact ⟨smallest, largest⟩
  case mayContain =>
    intro reader opens key
    obtain ⟨-, -, filtered, -⟩ := opened reader opens
    rw [SSTableReader.mayContainKey, SSTable.mayContainKey, inRange reader opens, filtered]
    rfl
  case get =>
    intro reader opens key snapshot value
    obtain ⟨-, -, filtered, has⟩ := opened reader opens
    refine SSTableReader.refines_get has (inRange reader opens key) ?_ value
    have both {α : Type} (found : Option α) (p : α → Bool) :
        (found.any fun a => ¬ p a) = !found.all p := by cases found <;> simp
    rw [both, both, filtered]
    rfl
  case walks =>
    intro reader opens calls
    obtain ⟨-, -, -, has⟩ := opened reader opens
    exact SSTableIterator.walks_of_refines has (SSTableIterator.refines_run has calls)

omit writes steps in
theorem image_of_finish {filename : Bytes} {now : Nat} {entries : List Entry} {closing : Status}
    {start : SSTableWriter} (opened : openFile {} filename now = .ok start)
    (adds : start.addAll cmp.compare ((sortedEntries entries).map stored) = .ok w)
    (finishes : w.finish closing = .ok finished) (name : Bytes) (fileNumber : Nat) :
    ∃ table, flushEntries cmp {} entries fileNumber = .ok table ∧ Image cmp name finished.file table ∧
      table.info = ⟨fileNumber, finished.info.smallestKey, finished.info.largestKey⟩ := by
  have short : ∀ e ∈ sortedEntries entries, ShortEntry (stored e) := fun e member =>
    short_of_finish opened adds finishes small _ (List.mem_map_of_mem member)
  have kept := (kept_openFile opened).addAll adds
  obtain ⟨v, added, writes⟩ := (writes_openFile opened).addAll short adds
  obtain ⟨data, index, bloom, last, steps⟩ := finish_steps finishes
  refine ⟨v.finish fileNumber, by rw [flushEntries, added]; rfl,
    writes.image kept steps small name fileNumber, ?_⟩
  obtain ⟨-, -, -, -, info, -⟩ := kept.finish finishes
  rw [info, Lrdb.SSTableWriter.finish, writes.smallest, writes.largest]

end SSTableWriter

/-- A flush that leaves a file of less than 2^32 bytes leaves the table of its entries: the file opens
exactly when the checks of the table pass, and every Get and every run of iterator calls on the bytes
find what they find in the table. -/
theorem flushMemTable_refines {cmp : Comparator} {filename : Bytes} {now : Nat} {entries : List Entry}
    {closing : Status} {finished : SSTableWriter}
    (flushed : flushMemTable cmp.compare filename now entries closing = .ok finished)
    (small : finished.file.length < uint32Limit) (name : Bytes) (fileNumber : Nat) :
    ∃ table, flushEntries cmp {} entries fileNumber = .ok table ∧
      ((∃ reader, SSTableReader.openFile cmp.compare name finished.file = .ok reader) ↔
        (table.readIndex cmp).isOk) ∧
      ∀ reader, SSTableReader.openFile cmp.compare name finished.file = .ok reader →
        (∀ key snapshot value,
          reader.get cmp.compare key snapshot value = table.get cmp key snapshot value) ∧
        ∀ calls : List SSTableIterator.Call, SSTableIterator.Walks reader
          ((ahead table (calls.foldl (SSTableIterator.callEntries cmp table) none)).map stored)
          (calls.foldl (SSTableIterator.call reader cmp.compare) {}) := by
  obtain ⟨start, opened, flushed⟩ := ok_of_bind flushed
  obtain ⟨added, adds, finishes⟩ := ok_of_bind flushed
  obtain ⟨table, written, image, -⟩ :=
    SSTableWriter.image_of_finish small opened adds finishes name fileNumber
  exact ⟨table, written, image.opens, fun reader opens =>
    ⟨image.get reader opens, image.walks reader opens⟩⟩

theorem flushMemTable_refines_twoStored : ∃ finished table reader,
    flushMemTable bytewiseComparator.compare [97] 0 twoStored .ok = .ok finished ∧
      flushEntries bytewiseComparator {} twoStored 1 = .ok table ∧
        SSTableReader.openFile bytewiseComparator.compare [98] finished.file = .ok reader ∧
          ∀ key snapshot value, reader.get bytewiseComparator.compare key snapshot value =
            table.get bytewiseComparator key snapshot value := by
  obtain ⟨start, added, finished, reader, opened, adds, finishes, small, opens⟩ := opens_twoEntries
  have same : twoEntries = (sortedEntries twoStored).map stored := by decide
  rw [same] at adds
  have flushed : flushMemTable bytewiseComparator.compare [97] 0 twoStored .ok = .ok finished := by
    have adds : start.addAll bytewiseComparator.compare ((sortedEntries twoStored).map stored) =
      .ok added := adds
    simp only [flushMemTable, opened, adds, finishes, bind, Except.bind]
  obtain ⟨table, written, -, reads⟩ := flushMemTable_refines flushed small [98] 1
  exact ⟨finished, table, reader, flushed, written, opens, (reads reader opens).1⟩

end TableFile
end Lrdb
