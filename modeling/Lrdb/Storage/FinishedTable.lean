import Lrdb.Storage.TableFile
import Lrdb.Util.Comparator

namespace Lrdb
namespace TableFile
open Parsing

theorem append_ok {file data file' : Bytes} (success : append file data = .ok file') :
    file' = file ++ data ∧ file'.length ≤ maxFileSize := by
  unfold append at success
  split at success <;> [rename_i fits; cases success]
  obtain rfl := Except.ok.inj success
  exact ⟨rfl, List.length_append.trans_le fits⟩

namespace SSTableWriter
variable {order : Bytes → Bytes → Ordering} {w w' : SSTableWriter} {count : Nat}

theorem writeBlock_ok {file data file' : Bytes} {type : BlockType}
    (success : writeBlock file type data = .ok file') :
    ∃ header : Bytes, header.length = BlockHeader.kHeaderSize ∧ file' = file ++ (header ++ data) ∧
      file'.length ≤ maxFileSize := by
  obtain ⟨middle, header, content⟩ := ok_of_bind success
  obtain ⟨rfl, -⟩ := append_ok header
  obtain ⟨rfl, small⟩ := append_ok content
  exact ⟨_, BlockHeader.length_encode _, List.append_assoc .., small⟩

structure Kept (count : Nat) (w : SSTableWriter) : Prop where
  filename : w.info.filename.length < maxPath
  typed : w.info.Typed
  unset : w.info.numEntries = 0
  counted : w.numEntries = count % uint64Limit
  room : 2 * count ≤ w.file.length + w.dataBuffer.length
  offset : w.currentOffset = w.file.length
  small : w.file.length ≤ maxFileSize
  footer : w.footer = {}

theorem Kept.writeDataBlock (kept : Kept count w) (success : w.writeDataBlock = .ok w') :
    Kept count w' ∧ w'.dataBuffer = [] ∧ w'.info = w.info := by
  unfold SSTableWriter.writeDataBlock at success
  split at success
  · rename_i empty
    obtain rfl := Except.ok.inj success
    exact ⟨kept, List.isEmpty_iff.mp empty, rfl⟩
  · obtain ⟨file, written, same⟩ := ok_of_bind success
    obtain rfl := Except.ok.inj same
    obtain ⟨header, length, rfl, small⟩ := writeBlock_ok written
    have room := kept.room
    have offset := kept.offset
    refine ⟨{ kept with room := ?_, offset := ?_, small := small }, rfl, rfl⟩ <;>
      simp only [List.length_append, List.length_nil, length] <;> omega

theorem sequence_lt {key : Bytes} {userKey : Key} {sequence type : Nat}
    (parsed : parseInternalKey key = some (userKey, sequence, type)) : sequence < uint64Limit := by
  unfold parseInternalKey at parsed
  split at parsed <;> [cases parsed; rename_i long]
  simp only [Option.some.injEq, Prod.mk.injEq] at parsed
  obtain ⟨-, rfl, -⟩ := parsed
  have tag := decodeFixed_lt (key.drop (key.length - 8))
  have eight : (key.drop (key.length - 8)).length = 8 := by
    rw [List.length_drop]
    omega
  rw [eight] at tag
  exact (Nat.div_le_self ..).trans_lt tag

theorem updateMeta_filename (m : SSTableMeta) (key value : Bytes) :
    (updateMeta m key value).filename = m.filename := by
  unfold updateMeta
  split <;> rfl

theorem updateMeta_numEntries (m : SSTableMeta) (key value : Bytes) :
    (updateMeta m key value).numEntries = m.numEntries := by
  unfold updateMeta
  split <;> rfl

theorem typed_updateMeta {m : SSTableMeta} (typed : m.Typed) (key value : Bytes) :
    (updateMeta m key value).Typed := by
  have positive : 0 < uint64Limit := by decide
  unfold updateMeta
  split
  · rename_i userKey sequence type parsed
    refine
      { typed with
        numDeletions := ?_
        rawKeySize := Nat.mod_lt _ positive
        rawValueSize := Nat.mod_lt _ positive
        oldestKeyTime := ?_ }
    · dsimp only
      split
      · exact Nat.mod_lt _ positive
      · exact typed.numDeletions
    · dsimp only
      split
      · exact sequence_lt parsed
      · exact typed.oldestKeyTime
  · exact
      { typed with
        rawKeySize := Nat.mod_lt _ positive
        rawValueSize := Nat.mod_lt _ positive }

@[simp] theorem startBlock_file (w : SSTableWriter) (key : Bytes) :
    (w.startBlock key).file = w.file := by
  unfold startBlock
  split <;> rfl

@[simp] theorem startBlock_offset (w : SSTableWriter) (key : Bytes) :
    (w.startBlock key).currentOffset = w.currentOffset := by
  unfold startBlock
  split <;> rfl

@[simp] theorem startBlock_footer (w : SSTableWriter) (key : Bytes) :
    (w.startBlock key).footer = w.footer := by
  unfold startBlock
  split <;> rfl

theorem length_putLengthPrefixedSlice_pos (value : Bytes) :
    0 < (putLengthPrefixedSlice value).length := by
  have prefixed : 0 < (putVarint32 (value.length % uint32Limit)).length := encodeVarint_pos ..
  rw [putLengthPrefixedSlice, List.length_append]
  omega

theorem Kept.store (kept : Kept count w) (key value : Bytes) :
    Kept (count + 1) (w.store key value) where
  filename := (congrArg List.length (updateMeta_filename ..)).trans_lt kept.filename
  typed := typed_updateMeta kept.typed key value
  unset := (updateMeta_numEntries ..).trans kept.unset
  counted := by simp [SSTableWriter.store, kept.counted]
  room := by
    have room := kept.room
    have keyed := length_putLengthPrefixedSlice_pos key
    have valued := length_putLengthPrefixedSlice_pos value
    simp only [SSTableWriter.store, startBlock_file, List.length_append]
    omega
  offset := by simpa [SSTableWriter.store] using kept.offset
  small := by simpa [SSTableWriter.store] using kept.small
  footer := by simpa [SSTableWriter.store] using kept.footer

theorem Kept.add (kept : Kept count w) {key value : Bytes} (added : w.add order key value = .ok w') :
    Kept (count + 1) w' := by
  unfold SSTableWriter.add at added
  split at added <;> [cases added; skip]
  split at added <;> [cases added; skip]
  obtain ⟨middle, cut, same⟩ := ok_of_bind added
  obtain rfl := Except.ok.inj same
  unfold cutBlock at cut
  split at cut
  · exact (kept.writeDataBlock cut).1.store key value
  · obtain rfl := Except.ok.inj cut
    exact kept.store key value

theorem Kept.addAll (kept : Kept count w) {entries : List (Bytes × Value)}
    (added : w.addAll order entries = .ok w') : Kept (count + entries.length) w' := by
  induction entries generalizing w count with
  | nil =>
      obtain rfl := Except.ok.inj added
      exact kept
  | cons entry rest ih =>
      obtain ⟨middle, first, added⟩ := ok_of_bind added
      have rest := ih (kept.add first) added
      rwa [Nat.add_right_comm] at rest

theorem kept_openFile {options : SSTableWriterOptions} {filename : Bytes} {now : Nat}
    (opened : openFile options filename now = .ok w) : Kept 0 w := by
  unfold openFile at opened
  split at opened <;> [rename_i fits; cases opened]
  obtain rfl := Except.ok.inj opened
  have positive : 0 < uint64Limit := by decide
  exact
    { filename := fits
      typed := ⟨positive, positive, Nat.two_pow_pos 32, positive, positive, positive, positive,
        Nat.mod_lt _ positive, positive⟩
      unset := rfl
      counted := rfl
      room := Nat.zero_le _
      offset := rfl
      small := Nat.zero_le _
      footer := rfl }

/-! ## The end of the file -/

structure Laid (w : SSTableWriter) : Prop where
  offset : w.currentOffset = w.file.length
  small : w.file.length ≤ maxFileSize
  footer : w.footer.Typed

structure Longer (w w' : SSTableWriter) : Prop where
  laid : w'.Laid
  info : w'.info = w.info
  numEntries : w'.numEntries = w.numEntries
  length : w.file.length ≤ w'.file.length

theorem typed_handle (laid : w.Laid) (data : Bytes) :
    BlockHandle.Typed ⟨w.currentOffset, blockSize data⟩ where
  offset := laid.offset.trans_lt (Nat.lt_succ_of_le laid.small)
  size := Nat.mod_lt _ (Nat.two_pow_pos 32)

theorem writeTail_ok (laid : w.Laid) {type : BlockType} {data : Bytes}
    {setHandle : BlockHandle → Footer → Footer} (success : w.writeTail type data setHandle = .ok w')
    (typed : ∀ handle, handle.Typed → (setHandle handle w.footer).Typed) :
    Longer w w' ∧ w'.footer = setHandle ⟨w.file.length, blockSize data⟩ w.footer ∧
      ∃ header : Bytes, header.length = BlockHeader.kHeaderSize ∧
        w'.file = w.file ++ (header ++ data) := by
  obtain ⟨file, written, same⟩ := ok_of_bind success
  obtain rfl := Except.ok.inj same
  obtain ⟨header, length, rfl, small⟩ := writeBlock_ok written
  refine ⟨⟨⟨?_, small, typed _ (typed_handle laid data)⟩, rfl, rfl, ?_⟩, ?_, header, length, rfl⟩
  · simp only [List.length_append, length, laid.offset]
  · simp only [List.length_append]
    omega
  · simp only [laid.offset]

theorem writeIndexBlock_ok (laid : w.Laid) (success : w.writeIndexBlock = .ok w') : Longer w w' := by
  unfold writeIndexBlock at success
  split at success
  · obtain rfl := Except.ok.inj success
    exact ⟨laid, rfl, rfl, le_rfl⟩
  · exact (writeTail_ok laid success fun _ typed => { laid.footer with indexBlock := typed }).1

theorem writeBloomFilterBlock_ok (laid : w.Laid) (success : w.writeBloomFilterBlock = .ok w') :
    Longer w w' ∧ w'.footer.indexBlock = w.footer.indexBlock := by
  have same : Longer w w := ⟨laid, rfl, rfl, le_rfl⟩
  unfold writeBloomFilterBlock at success
  split at success
  · split at success
    · obtain rfl := Except.ok.inj success
      exact ⟨same, rfl⟩
    · obtain ⟨longer, footer, -⟩ :=
        writeTail_ok laid success fun _ typed => { laid.footer with bloomBlock := typed }
      exact ⟨longer, by rw [footer]⟩
  · obtain rfl := Except.ok.inj success
    exact ⟨same, rfl⟩

structure Ends (file : Bytes) (m : SSTableMeta) (footer : Footer) : Prop where
  parts : ∃ before header : Bytes, header.length = BlockHeader.kHeaderSize ∧
    footer.metaBlock = ⟨before.length, blockSize m.encode⟩ ∧
      file = before ++ ((header ++ m.encode) ++ footer.encode)
  typed : footer.Typed

/-- What `Finish` does, one step after another. -/
structure FinishSteps (w w' data index bloom last : SSTableWriter) : Prop where
  cut : w.writeDataBlock = .ok data
  indexed : data.writeIndexBlock = .ok index
  filtered : index.writeBloomFilterBlock = .ok bloom
  described : bloom.writeMetaBlock = .ok last
  ended : append last.file last.footer.encode = .ok w'.file
  info : w'.info =
    { last.info with fileSize := last.currentOffset + footerSize, numEntries := last.numEntries }

theorem finish_steps {closing : Status} (finished : w.finish closing = .ok w') :
    ∃ data index bloom last, FinishSteps w w' data index bloom last := by
  unfold SSTableWriter.finish at finished
  split at finished <;> [cases finished; skip]
  obtain ⟨data, cut, finished⟩ := ok_of_bind finished
  obtain ⟨index, indexed, finished⟩ := ok_of_bind finished
  obtain ⟨bloom, filtered, finished⟩ := ok_of_bind finished
  obtain ⟨last, described, finished⟩ := ok_of_bind finished
  obtain ⟨file, ended, finished⟩ := ok_of_bind finished
  dsimp only at finished
  split at finished <;> [skip; cases finished]
  obtain rfl := Except.ok.inj finished
  exact ⟨data, index, bloom, last, cut, indexed, filtered, described, ended, rfl⟩

section Steps
variable {data index bloom last : SSTableWriter}

theorem Kept.laid (kept : Kept count w) (cut : w.writeDataBlock = .ok data) : data.Laid := by
  obtain ⟨keptData, -, -⟩ := kept.writeDataBlock cut
  have none : BlockHandle.Typed {} := ⟨by decide, by decide⟩
  exact ⟨keptData.offset, keptData.small, keptData.footer ▸ ⟨none, none, none⟩⟩

theorem Kept.ends (kept : Kept count w) (steps : FinishSteps w w' data index bloom last) :
    Ends w'.file w.info last.footer := by
  have toIndex := writeIndexBlock_ok (kept.laid steps.cut) steps.indexed
  obtain ⟨toBloom, -⟩ := writeBloomFilterBlock_ok toIndex.laid steps.filtered
  obtain ⟨toLast, footer, header, length, parts⟩ := writeTail_ok toBloom.laid steps.described
    fun _ typed => { toBloom.laid.footer with metaBlock := typed }
  have same : bloom.info = w.info :=
    toBloom.info.trans (toIndex.info.trans (kept.writeDataBlock steps.cut).2.2)
  refine ⟨⟨bloom.file, header, length, ?_, ?_⟩, toLast.laid.footer⟩
  · rw [footer, same]
  · rw [(append_ok steps.ended).1, parts, same, List.append_assoc]

theorem Kept.finish (kept : Kept count w) {closing : Status} (finished : w.finish closing = .ok w') :
    ∃ footer, Ends w'.file w.info footer ∧ 2 * count ≤ w'.file.length ∧
      w'.file.length ≤ maxFileSize ∧
      w'.info =
        { w.info with fileSize := w'.file.length, numEntries := count % uint64Limit } ∧
      (w.indexEntries = [] → w.dataBuffer = [] → footer.indexBlock.size = 0) := by
  obtain ⟨data, index, bloom, last, steps⟩ := finish_steps finished
  obtain ⟨keptData, empty, info⟩ := kept.writeDataBlock steps.cut
  have toIndex := writeIndexBlock_ok (kept.laid steps.cut) steps.indexed
  obtain ⟨toBloom, sameIndex⟩ := writeBloomFilterBlock_ok toIndex.laid steps.filtered
  obtain ⟨toLast, footer, -, -, -⟩ := writeTail_ok toBloom.laid steps.described
    fun _ typed => { toBloom.laid.footer with metaBlock := typed }
  obtain ⟨file, small⟩ := append_ok steps.ended
  have infoLast : last.info = w.info :=
    toLast.info.trans (toBloom.info.trans (toIndex.info.trans info))
  refine ⟨last.footer, kept.ends steps, ?_, small, ?_, ?_⟩
  · have room := keptData.room
    have index := toIndex.length
    have bloom := toBloom.length
    have last := toLast.length
    rw [empty, List.length_nil] at room
    rw [file, List.length_append]
    omega
  · have entries : last.numEntries = count % uint64Limit :=
      toLast.numEntries.trans (toBloom.numEntries.trans (toIndex.numEntries.trans keptData.counted))
    simp only [steps.info, file, infoLast, entries, toLast.laid.offset, List.length_append,
      Footer.length_encode]
  · intro noIndex noData
    have cut := steps.cut
    unfold SSTableWriter.writeDataBlock at cut
    rw [noData, List.isEmpty_nil, if_pos rfl] at cut
    obtain rfl := Except.ok.inj cut
    have indexed := steps.indexed
    unfold writeIndexBlock at indexed
    rw [noIndex, List.isEmpty_nil, if_pos rfl] at indexed
    obtain rfl := Except.ok.inj indexed
    rw [footer]
    dsimp only
    rw [sameIndex, kept.footer]

end Steps
end SSTableWriter

/-! ## Opening it -/

namespace SSTableReader
open SSTableWriter
variable {order : Bytes → Bytes → Ordering}

theorem read_ok {file data : Bytes} {offset n : Nat} (success : read file offset n = .ok data) :
    data = (file.drop offset).take n := by
  unfold read at success
  split at success <;> [cases success; exact (Except.ok.inj success).symm]

/-- What `Open` does, one step after another. -/
structure OpenSteps (order : Bytes → Bytes → Ordering) (filename file : Bytes) (reader : SSTableReader)
    (footer : Footer) : Prop where
  large : ¬ file.length < BlockHeader.kHeaderSize * 2
  described : readMeta filename file = .ok (reader.info, footer)
  indexed : readIndex order reader.info footer.indexBlock file = .ok reader.index
  filtered : readBloomFilter footer.bloomBlock file = .ok reader.bloomFilter
  file : reader.file = file

theorem openFile_eq_ok_iff {filename file : Bytes} {reader : SSTableReader} :
    openFile order filename file = .ok reader ↔ ∃ footer, OpenSteps order filename file reader footer := by
  constructor
  · intro opens
    unfold openFile at opens
    split at opens <;> [cases opens; rename_i large]
    obtain ⟨⟨info, footer⟩, described, opens⟩ := ok_of_bind opens
    obtain ⟨index, indexed, opens⟩ := ok_of_bind opens
    obtain ⟨bloomFilter, filtered, opens⟩ := ok_of_bind opens
    obtain rfl := Except.ok.inj opens
    exact ⟨footer, large, described, indexed, filtered, rfl⟩
  · rintro ⟨footer, large, described, indexed, filtered, same⟩
    subst same
    simp only [openFile, if_neg large, described, indexed, filtered, bind, Except.bind, pure,
      Except.pure]

theorem readBlock_ok {file content : Bytes} {capital name : String} {type : BlockType}
    {handle : BlockHandle} (success : readBlock file capital name type handle = .ok content) :
    content = ((file.drop handle.offset).take handle.size).drop BlockHeader.kHeaderSize := by
  unfold readBlock at success
  split at success <;> [cases success; skip]
  obtain ⟨data, found, success⟩ := ok_of_bind success
  split at success <;> [cases success; skip]
  obtain ⟨header, decoded, success⟩ := ok_of_bind success
  split at success <;> [cases success; skip]
  dsimp only at success
  split at success <;> [cases success; skip]
  obtain rfl := Except.ok.inj success
  rw [read_ok found]

theorem readIndex_ok {info : SSTableMeta} {handle : BlockHandle} {file : Bytes}
    {index : List IndexEntry} (success : readIndex order info handle file = .ok index) :
    ∃ content found, readBlock file "Index" "index" .kIndexBlock handle = .ok content ∧
      readEntries order info.fileSize content.length content [] = .ok found ∧ index = found.reverse := by
  unfold readIndex at success
  split at success <;> [cases success; skip]
  obtain ⟨content, block, success⟩ := ok_of_bind success
  obtain ⟨found, read, success⟩ := ok_of_bind success
  dsimp only at success
  split at success <;> [skip; cases success]
  split at success <;> [cases success; skip]
  exact ⟨content, found, block, read, (Except.ok.inj success).symm⟩

theorem readMeta_ok {filename file : Bytes} {m info : SSTableMeta} {footer found : Footer}
    (ends : Ends file m footer) (success : readMeta filename file = .ok (info, found)) :
    found = footer ∧ ∃ content decoded, content <+: m.encode ∧
      SSTableMeta.decode content = some decoded ∧
        info = { decoded with filename := filename, fileSize := file.length } := by
  obtain ⟨before, header, length, handle, rfl⟩ := ends.parts
  unfold readMeta at success
  split at success <;> [cases success; skip]
  obtain ⟨data, last, success⟩ := ok_of_bind success
  obtain ⟨other, decoded, success⟩ := ok_of_bind success
  obtain ⟨content, block, success⟩ := ok_of_bind success
  obtain ⟨m', parsed, success⟩ := ok_of_bind success
  obtain ⟨rfl, rfl⟩ := Prod.mk.inj (Except.ok.inj success)
  obtain rfl : data = footer.encode := by
    have position : (before ++ (header ++ m.encode ++ footer.encode)).length - footerSize =
        (before ++ (header ++ m.encode)).length := by
      simp only [List.length_append, Footer.length_encode]
      omega
    rw [read_ok last, position, ← List.append_assoc before (header ++ m.encode), List.drop_left,
      List.take_of_length_le (Footer.length_encode _).le]
  obtain rfl := Except.ok.inj (ends.typed.decode_encode.symm.trans decoded)
  refine ⟨rfl, content, m', ?_, expect_ok parsed, rfl⟩
  have inside : blockSize m.encode ≤ (header ++ m.encode).length := by
    rw [List.length_append, length]
    exact Nat.mod_le ..
  rw [readBlock_ok block, handle, List.drop_left, List.take_append_of_le_length inside,
    List.drop_take, ← length, List.drop_left]
  exact List.take_prefix ..

end SSTableReader

/-! ## The metadata that is reported and that is read -/

structure SameMeta (reported opened : SSTableMeta) : Prop where
  numEntries : opened.numEntries = reported.numEntries
  numDeletions : opened.numDeletions = reported.numDeletions
  smallestKey : opened.smallestKey = reported.smallestKey
  largestKey : opened.largestKey = reported.largestKey
  rawKeySize : opened.rawKeySize = reported.rawKeySize
  rawValueSize : opened.rawValueSize = reported.rawValueSize
  fileSize : opened.fileSize = reported.fileSize

open SSTableWriter SSTableReader in
/-- No finished table opens with the metadata its writer reports: without entries it does not open, and
with entries the file says that it has none. -/
theorem not_sameMeta (order : Bytes → Bytes → Ordering) (options : SSTableWriterOptions)
    (filename : Bytes) (now : Nat) (entries : List (Bytes × Value)) (closing : Status)
    {start added finished : SSTableWriter}
    (opened : SSTableWriter.openFile options filename now = .ok start)
    (adds : start.addAll order entries = .ok added)
    (finishes : added.finish closing = .ok finished) :
    ¬ ∃ reader, SSTableReader.openFile order filename finished.file = .ok reader ∧
      SameMeta finished.info reader.info := by
  rintro ⟨reader, opens, same⟩
  have kept : Kept (0 + entries.length) added := (kept_openFile opened).addAll adds
  rw [Nat.zero_add] at kept
  obtain ⟨footer, ends, room, small, reported, empty⟩ := kept.finish finishes
  obtain ⟨found, steps⟩ := openFile_eq_ok_iff.mp opens
  obtain ⟨rfl, content, decoded, part, parsed, described⟩ := readMeta_ok ends steps.described
  cases entries with
  | nil =>
      obtain rfl := Except.ok.inj adds
      unfold SSTableWriter.openFile at opened
      split at opened <;> [skip; cases opened]
      obtain rfl := Except.ok.inj opened
      have indexed := steps.indexed
      rw [readIndex, if_pos (empty rfl rfl)] at indexed
      cases indexed
  | cons entry rest =>
      have unsaid : decoded.numEntries = 0 := by
        have short : added.info.Short := by
          have found := SSTableMeta.short_of_decode parsed
          have smallest : decoded.smallestKey = added.info.smallestKey := by
            simpa [reported, described] using same.smallestKey
          have largest : decoded.largestKey = added.info.largestKey := by
            simpa [reported, described] using same.largestKey
          exact ⟨kept.filename.trans (by decide), smallest ▸ found.smallestKey,
            largest ▸ found.largestKey⟩
        rw [SSTableMeta.decode_of_prefix kept.typed short part parsed]
        exact kept.unset
      have counted : decoded.numEntries = (entry :: rest).length % uint64Limit := by
        simpa [reported, described] using same.numEntries
      have limit : maxFileSize < uint64Limit := by decide
      rw [unsaid, Nat.mod_eq_of_lt (by omega), List.length_cons] at counted
      omega

def tableOf (entries : List (Bytes × Value)) : Except Status SSTableWriter := do
  let start ← SSTableWriter.openFile {} [97] 0
  let added ← start.addAll bytewiseCompare entries
  added.finish .ok

theorem tableOf_eq_finish {entries : List (Bytes × Value)} {start added : SSTableWriter}
    (opened : SSTableWriter.openFile {} [97] 0 = .ok start)
    (adds : start.addAll bytewiseCompare entries = .ok added) : tableOf entries = added.finish .ok := by
  rw [tableOf, opened]
  change (start.addAll bytewiseCompare entries).bind _ = _
  rw [adds]
  rfl

def twoEntries : List (Bytes × Value) :=
  [((InternalKey.make [1] 1 .kValue).encode, [7]), ((InternalKey.make [2] 2 .kDeletion).encode, [])]

theorem not_sameMeta_twoEntries :
    ∃ finished, tableOf twoEntries = .ok finished ∧
      ¬ ∃ reader, SSTableReader.openFile bytewiseCompare [97] finished.file = .ok reader ∧
        SameMeta finished.info reader.info := by
  have facts : (tableOf twoEntries).toBool := by decide +kernel
  cases written : tableOf twoEntries with
  | error status =>
      rw [written] at facts
      cases facts
  | ok finished =>
      obtain ⟨start, opened, adding⟩ := ok_of_bind written
      obtain ⟨added, adds, finishes⟩ := ok_of_bind adding
      exact ⟨finished, rfl, not_sameMeta _ _ _ _ _ _ opened adds finishes⟩

theorem sameMeta_fails_twoEntries :
    ¬ ∀ (order : Bytes → Bytes → Ordering) (options : SSTableWriterOptions) (filename : Bytes)
      (now : Nat) (entries : List (Bytes × Value)) (closing : Status)
      (start added finished : SSTableWriter),
      SSTableWriter.openFile options filename now = .ok start →
        start.addAll order entries = .ok added → added.finish closing = .ok finished →
          ∃ reader, SSTableReader.openFile order filename finished.file = .ok reader ∧
            SameMeta finished.info reader.info := by
  intro always
  have facts : (tableOf twoEntries).toOption.any fun finished =>
      decide (finished.info.numEntries = 2) &&
        (SSTableReader.openFile bytewiseCompare [97] finished.file).toOption.any fun reader =>
          decide (reader.info.numEntries = 0) := by decide +kernel
  cases written : tableOf twoEntries with
  | error status =>
      rw [written] at facts
      cases facts
  | ok finished =>
      rw [written] at facts
      obtain ⟨start, opened, adding⟩ := ok_of_bind written
      obtain ⟨added, adds, finishes⟩ := ok_of_bind adding
      obtain ⟨reader, opens, same⟩ := always _ _ _ _ _ _ _ _ _ opened adds finishes
      obtain ⟨two, none⟩ := Bool.and_eq_true_iff.mp facts
      rw [opens] at none
      have counted := same.numEntries
      rw [of_decide_eq_true none, of_decide_eq_true two] at counted
      cases counted

end TableFile
end Lrdb
