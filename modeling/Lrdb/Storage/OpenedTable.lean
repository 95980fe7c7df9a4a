import Lrdb.Storage.TableGet
import Lrdb.Storage.WrittenTable

namespace Lrdb
namespace TableFile
open Parsing Records

/-! ## Blocks with their headers -/

def headerOf (type : BlockType) (content : Bytes) : BlockHeader :=
  ⟨type.toNat, content.length % uint32Limit, (crc32 content).toNat, 0⟩

theorem BlockType.toNat_lt (type : BlockType) : type.toNat < 256 := by
  cases type <;> decide

theorem typed_headerOf (type : BlockType) (content : Bytes) : (headerOf type content).Typed where
  type := type.toNat_lt
  size := Nat.mod_lt _ (by decide)
  crc32 := (crc32 content).toNat_lt
  compression := (by decide : 0 < uint32Limit)

theorem decode_headerOf (type : BlockType) (content : Bytes) :
    BlockHeader.decode (headerOf type content).encode = some (headerOf type content) :=
  parse_of_yields (typed_headerOf type content).yields

structure BlockAt (file : Bytes) (type : BlockType) (handle : BlockHandle) (content : Bytes) : Prop where
  size : handle.size = BlockHeader.kHeaderSize + content.length
  bytes : (file.drop handle.offset).take handle.size = (headerOf type content).encode ++ content

namespace BlockAt
variable {file content : Bytes} {type : BlockType} {handle : BlockHandle}

theorem inside (block : BlockAt file type handle content) : handle.offset + handle.size ≤ file.length := by
  have lengths := congrArg List.length block.bytes
  have size := block.size
  simp only [List.length_take, List.length_drop, List.length_append, BlockHeader.length_encode] at lengths
  have positive : 0 < BlockHeader.kHeaderSize := by decide
  omega

theorem append (block : BlockAt file type handle content) (more : Bytes) :
    BlockAt (file ++ more) type handle content where
  size := block.size
  bytes := by
    have inside := block.inside
    rw [List.drop_append_of_le_length (by omega), List.take_append_of_le_length, block.bytes]
    rw [List.length_drop]
    omega

theorem of_isPrefix (block : BlockAt file type handle content) {longer : Bytes}
    (extended : file <+: longer) : BlockAt longer type handle content := by
  obtain ⟨more, rfl⟩ := extended
  exact block.append more

theorem readBlock (block : BlockAt file type handle content) (small : file.length < uint32Limit)
    (capital name : String) : SSTableReader.readBlock file capital name type handle = .ok content := by
  have inside := block.inside
  have size := block.size
  have limits : uint32Limit ≤ uint64Limit ∧ uint32Limit ≤ maxFileSize := by decide
  have bounded : ¬ (handle.offset + handle.size) % uint64Limit > file.length := by
    rw [Nat.mod_eq_of_lt (by omega)]
    omega
  have found : read file handle.offset handle.size = .ok ((headerOf type content).encode ++ content) := by
    rw [read, if_neg (by omega), block.bytes]
  have length : ((headerOf type content).encode ++ content).length = handle.size := by
    rw [List.length_append, BlockHeader.length_encode, size]
  have header : ((headerOf type content).encode ++ content).take BlockHeader.kHeaderSize =
      (headerOf type content).encode := by
    rw [← BlockHeader.length_encode (headerOf type content), List.take_left]
  have rest : ((headerOf type content).encode ++ content).drop BlockHeader.kHeaderSize = content := by
    rw [← BlockHeader.length_encode (headerOf type content), List.drop_left]
  simp only [SSTableReader.readBlock, if_neg bounded, found, bind, Except.bind, length, header, rest,
    decode_headerOf, expect_some]
  rw [if_neg (by omega), if_neg (fun different => different rfl), if_neg (fun different => different rfl)]
  rfl

end BlockAt

namespace SSTableWriter
variable {w w' : SSTableWriter} {type : BlockType} {content : Bytes}

theorem writeBlock_file {file file' : Bytes} (success : writeBlock file type content = .ok file') :
    file' = file ++ ((headerOf type content).encode ++ content) := by
  obtain ⟨middle, header, written⟩ := ok_of_bind success
  rw [(append_ok written).1, (append_ok header).1, List.append_assoc]
  rfl

theorem blockAt_writeTail (laid : w.Laid) {setHandle : BlockHandle → Footer → Footer}
    (success : w.writeTail type content setHandle = .ok w') (small : w'.file.length < uint32Limit) :
    BlockAt w'.file type ⟨w.currentOffset, blockSize content⟩ content := by
  obtain ⟨file, written, same⟩ := ok_of_bind success
  obtain rfl := Except.ok.inj same
  obtain rfl := writeBlock_file written
  dsimp only at small ⊢
  simp only [List.length_append, BlockHeader.length_encode] at small
  have size : blockSize content = BlockHeader.kHeaderSize + content.length := by
    rw [blockSize, Nat.mod_eq_of_lt (by omega)]
  refine ⟨size, ?_⟩
  rw [laid.offset, List.drop_left, List.take_of_length_le]
  simp [size]

theorem footer_writeTail {setHandle : BlockHandle → Footer → Footer}
    (success : w.writeTail type content setHandle = .ok w') :
    w'.footer = setHandle ⟨w.currentOffset, blockSize content⟩ w.footer := by
  obtain ⟨file, -, same⟩ := ok_of_bind success
  obtain rfl := Except.ok.inj same
  rfl

end SSTableWriter

/-! ## The file that `Finish` leaves -/

structure Layout (file : Bytes) (footer : Footer) (info : SSTableMeta) (entries : List IndexEntry)
    (keys : List Key) : Prop where
  ends : ∃ before, file = before ++ footer.encode
  typed : footer.Typed
  described : BlockAt file .kMetaBlock footer.metaBlock info.encode
  indexed : entries ≠ [] → BlockAt file .kIndexBlock footer.indexBlock (SSTableReader.indexData entries)
  unindexed : entries = [] → footer.indexBlock.size = 0
  filtered : ∀ filter, BloomFilter.build keys = some filter →
    BlockAt file .kBloomBlock footer.bloomBlock (serialize filter keys.length)

namespace SSTableWriter
variable {w w' data index bloom last : SSTableWriter} {count : Nat}

theorem writeDataBlock_kept (success : w.writeDataBlock = .ok w') :
    w'.options = w.options ∧ w'.bloomKeys = w.bloomKeys := by
  unfold SSTableWriter.writeDataBlock at success
  split at success
  · obtain rfl := Except.ok.inj success
    exact ⟨rfl, rfl⟩
  · obtain ⟨file, -, same⟩ := ok_of_bind success
    obtain rfl := Except.ok.inj same
    exact ⟨rfl, rfl⟩

theorem writeIndexBlock_kept (success : w.writeIndexBlock = .ok w') :
    w'.options = w.options ∧ w'.bloomKeys = w.bloomKeys := by
  unfold writeIndexBlock at success
  split at success
  · obtain rfl := Except.ok.inj success
    exact ⟨rfl, rfl⟩
  · obtain ⟨file, -, same⟩ := ok_of_bind success
    obtain rfl := Except.ok.inj same
    exact ⟨rfl, rfl⟩

theorem layout_of_steps (kept : Kept count w) (steps : FinishSteps w w' data index bloom last)
    (enabled : w.options.enableBloomFilter) (small : w'.file.length < uint32Limit) :
    Layout w'.file last.footer w.info data.indexEntries w.bloomKeys := by
  have laid := kept.laid steps.cut
  have toIndex := writeIndexBlock_ok laid steps.indexed
  obtain ⟨toBloom, sameIndex⟩ := writeBloomFilterBlock_ok toIndex.laid steps.filtered
  have info : bloom.info = w.info :=
    toBloom.info.trans (toIndex.info.trans (kept.writeDataBlock steps.cut).2.2)
  have ended : w'.file = last.file ++ last.footer.encode := (append_ok steps.ended).1
  have lastEnds : last.file <+: w'.file := ended ▸ List.prefix_append ..
  have bloomLast : bloom.file <+: last.file := writeTail_extends steps.described
  have indexBloom : index.file <+: bloom.file := writeBloomFilterBlock_extends steps.filtered
  have lastSmall := lastEnds.length_le.trans_lt small
  have bloomSmall := bloomLast.length_le.trans_lt lastSmall
  have footer := footer_writeTail steps.described
  have described := blockAt_writeTail toBloom.laid steps.described lastSmall
  have filtered := steps.filtered
  have indexed := steps.indexed
  refine ⟨⟨_, ended⟩, (kept.ends steps).typed, ?_, fun some => ?_, noIndex_of_steps kept steps, ?_⟩
  · rw [footer, ← info]
    exact described.of_isPrefix lastEnds
  · rw [indexBlock_of_steps kept steps]
    unfold writeIndexBlock at indexed
    rw [if_neg (by simpa using some)] at indexed
    rw [footer_writeTail indexed]
    exact (blockAt_writeTail laid indexed (indexBloom.length_le.trans_lt bloomSmall)).of_isPrefix
      (indexBloom.trans (bloomLast.trans lastEnds))
  · intro filter built
    obtain ⟨options, keys⟩ := writeDataBlock_kept steps.cut
    obtain ⟨options', keys'⟩ := writeIndexBlock_kept steps.indexed
    unfold writeBloomFilterBlock at filtered
    rw [if_pos (by rw [options', options]; exact enabled), keys', keys, built] at filtered
    rw [footer]
    dsimp only
    rw [footer_writeTail filtered]
    exact (blockAt_writeTail toIndex.laid filtered bloomSmall).of_isPrefix (bloomLast.trans lastEnds)

end SSTableWriter

/-! ## Opening it -/

/-- The checks of `ReadIndex` on the range of the keys. -/
def RangeAgrees (order : Bytes → Bytes → Ordering) (info : SSTableMeta) (first last : IndexEntry) : Prop :=
  ¬ (¬ info.smallestKey.isEmpty ∧ ¬ info.largestKey.isEmpty ∧
    (order (SSTableReader.userKeyPart first.key) info.smallestKey ≠ .eq ∨
      order (SSTableReader.userKeyPart last.key) info.largestKey = .gt))

namespace Layout
variable {file name : Bytes} {footer : Footer} {info : SSTableMeta} {entries : List IndexEntry}
  {keys : List Key} {order : Bytes → Bytes → Ordering}

theorem length_le_encode (m : SSTableMeta) : m.smallestKey.length ≤ m.encode.length ∧
    m.largestKey.length ≤ m.encode.length := by
  simp only [SSTableMeta.encode, putLengthPrefixedSlice, List.length_append]
  omega

theorem readMeta (layout : Layout file footer info entries keys) (small : file.length < uint32Limit)
    (typed : info.Typed) (named : info.filename.length < maxPath) : SSTableReader.readMeta name file =
      .ok ({ info with filename := name, fileSize := file.length }, footer) := by
  obtain ⟨before, whole⟩ := layout.ends
  have inside := layout.described.inside
  have size := layout.described.size
  have lengths := length_le_encode info
  have short : info.Short := by
    have limit : maxPath ≤ uint32Limit := by decide
    exact ⟨by omega, by omega, by omega⟩
  have length : file.length = before.length + footerSize := by
    rw [whole, List.length_append, Footer.length_encode]
  have limits : uint32Limit ≤ maxFileSize := by decide
  have found : read file (file.length - footerSize) footerSize = .ok footer.encode := by
    rw [read, if_neg (by omega), length, Nat.add_sub_cancel, whole, List.drop_left,
      List.take_of_length_le (Footer.length_encode _).le]
  have decoded : SSTableMeta.decode info.encode = some info :=
    parse_of_yields (SSTableMeta.parser_yields typed short)
  rw [SSTableReader.readMeta, if_neg (by omega)]
  simp only [found, layout.typed.decode_encode, layout.described.readBlock small, decoded, bind,
    Except.bind, expect_some]
  rfl

theorem readIndex_iff (layout : Layout file footer info entries keys) (small : file.length < uint32Limit)
    (fits : ∀ e ∈ entries, SSTableReader.Fits e) {opened : SSTableMeta} {index : List IndexEntry} :
    SSTableReader.readIndex order opened footer.indexBlock file = .ok index ↔
      index = entries ∧ SSTableReader.Accepted order opened.fileSize entries ∧
        ∃ first ∈ entries.head?, ∃ last ∈ entries.getLast?, RangeAgrees order opened first last := by
  by_cases empty : entries = []
  · rw [SSTableReader.readIndex, if_pos (layout.unindexed empty)]
    simp [empty, throw, throwThe, MonadExceptOf.throw, bind, Except.bind]
  have block := layout.indexed empty
  have unset : ¬ footer.indexBlock.size = 0 := by
    have positive : 0 < BlockHeader.kHeaderSize := by decide
    have size := block.size
    omega
  rw [SSTableReader.readIndex, if_neg unset]
  simp only [block.readBlock small, bind, Except.bind, pure, Except.pure]
  cases loop : SSTableReader.readEntries order opened.fileSize
      (SSTableReader.indexData entries).length (SSTableReader.indexData entries) [] with
  | error status =>
      simp only [reduceCtorEq, false_iff]
      rintro ⟨-, accepted, -⟩
      rw [(SSTableReader.readEntries_eq_ok_iff fits).mpr ⟨rfl, accepted⟩] at loop
      cases loop
  | ok found =>
      obtain ⟨rfl, accepted⟩ := (SSTableReader.readEntries_eq_ok_iff fits).mp loop
      have head := List.head?_eq_some_head empty
      have last := List.getLast?_eq_some_getLast empty
      dsimp only
      rw [List.reverse_reverse, head, last]
      dsimp only
      split
      · rename_i disagrees
        have refused : ¬ RangeAgrees order opened (entries.head empty) (entries.getLast empty) :=
          fun agrees => agrees disagrees
        simp [refused, throw, throwThe, MonadExceptOf.throw]
      · rename_i agrees
        refine ⟨fun same => ⟨(Except.ok.inj same).symm, accepted, _, rfl, _, rfl, agrees⟩, fun all => ?_⟩
        rw [all.1]

end Layout

/-! ## The filter -/

namespace BloomFilterReader
open BloomFilter

theorem testBit_bitsToNat (bits : List Bool) (i : Nat) : (bitsToNat bits).testBit i = bits.getD i false := by
  induction bits generalizing i with
  | nil => simp [bitsToNat]
  | cons bit rest ih =>
      cases i with
      | zero => cases bit <;> simp [bitsToNat, Nat.testBit_zero, Nat.add_mod]
      | succ i =>
          have half : bitsToNat (bit :: rest) / 2 = bitsToNat rest := by
            cases bit <;> simp only [bitsToNat, if_true, Bool.false_eq_true, if_false] <;> omega
          rw [Nat.testBit_succ, half, ih, List.getD_cons_succ]

theorem bitsToNat_lt (bits : List Bool) : bitsToNat bits < 2 ^ bits.length := by
  induction bits with
  | nil => simp [bitsToNat]
  | cons bit rest ih =>
      rw [List.length_cons, Nat.pow_succ]
      cases bit <;> simp only [bitsToNat, if_true, Bool.false_eq_true, if_false] <;> omega

theorem getD_packBits {bits : List Bool} {index : Nat} (inside : index < bits.length / 8 * 8) :
    ((packBits bits).getD (index / 8) 0).toNat.testBit (index % 8) = BloomFilter.getBit bits index := by
  have byte : index / 8 < bits.length / 8 := by omega
  have within : bitsToNat ((bits.drop (8 * (index / 8))).take 8) < 2 ^ 8 :=
    (bitsToNat_lt _).trans_le (Nat.pow_le_pow_right (by decide) (List.length_take_le ..))
  have bit : index % 8 < 8 := Nat.mod_lt _ (by decide)
  rw [packBits, List.getD_eq_getElem?_getD, List.getElem?_map, List.getElem?_range byte, Option.map_some,
    Option.getD_some, UInt8.toNat_ofNat', Nat.mod_eq_of_lt within, testBit_bitsToNat, BloomFilter.getBit,
    List.getD_eq_getElem?_getD, List.getElem?_take_of_lt bit, List.getElem?_drop, Nat.div_add_mod,
    List.getD_eq_getElem?_getD]

def ofFilter (filter : BloomFilter) : BloomFilterReader :=
  ⟨filter.bitArraySize, filter.hashFunctionCount, packBits filter.bits⟩

structure Writable (filter : BloomFilter) : Prop where
  positive : 0 < filter.bitArraySize
  size : filter.bitArraySize + 7 < uint64Limit
  count : filter.hashFunctionCount < uint32Limit
  bits : filter.bits.length = (filter.bitArraySize + 7) / 8 * 8

variable {filter : BloomFilter}

theorem length_packBits (bits : List Bool) : (packBits bits).length = bits.length / 8 := by
  simp [packBits]

theorem new_ofFilter (writable : Writable filter) (elementCount : Nat) :
    BloomFilterReader.new (serialize filter elementCount) = some (ofFilter filter) := by
  have size := writable.size
  have bytes : (packBits filter.bits).length = (filter.bitArraySize + 7) / 8 := by
    rw [length_packBits, writable.bits, Nat.mul_div_cancel _ (by decide)]
  have eight : (putFixed64 filter.bitArraySize).length = 8 := length_putFixed ..
  have length : (serialize filter elementCount).length = 20 + (filter.bitArraySize + 7) / 8 := by
    simp only [serialize, List.length_append, length_putFixed, putFixed64, bytes]
    omega
  have first : decodeFixed ((serialize filter elementCount).take 8) = filter.bitArraySize := by
    rw [serialize, List.take_left' eight, putFixed64, decodeFixed_putFixed,
      Nat.mod_eq_of_lt (by simpa [uint64Limit] using (Nat.le_add_right ..).trans_lt size)]
  have second : decodeFixed (((serialize filter elementCount).drop 8).take 4) =
      filter.hashFunctionCount := by
    rw [serialize, List.drop_left' eight, List.take_left' (length_putFixed 4 _), decodeFixed_putFixed,
      Nat.mod_eq_of_lt (by simpa [uint32Limit] using writable.count)]
  have third : (serialize filter elementCount).drop 20 = packBits filter.bits := by
    rw [serialize, ← List.append_assoc, ← List.append_assoc]
    exact List.drop_left' (by simp [putFixed64])
  have limit : uint64Limit = 0x10000000000000000 := by decide
  rw [BloomFilterReader.new, if_neg (by omega)]
  simp only [first, second, third, length]
  rw [if_neg]
  · rfl
  · rw [not_not, Nat.mod_eq_of_lt size, Nat.mod_eq_of_lt (by omega)]

theorem mayContain_ofFilter (writable : Writable filter) (key : Key) :
    (ofFilter filter).mayContain key = filter.mayContain key := by
  rw [mayContain, BloomFilter.mayContain, BloomFilter.positions, List.all_map]
  congr 1
  funext hash
  have inside := Nat.mod_lt hash.toNat writable.positive
  have bits := writable.bits
  have covered : hash.toNat % filter.bitArraySize < filter.bits.length / 8 * 8 := by omega
  have bounded : hash.toNat % (ofFilter filter).bitArraySize / 8 <
      ((ofFilter filter).bitArraySize + 7) % uint64Limit / 8 := by
    rw [Nat.mod_eq_of_lt (show (ofFilter filter).bitArraySize + 7 < uint64Limit from writable.size)]
    change hash.toNat % filter.bitArraySize / 8 < (filter.bitArraySize + 7) / 8
    omega
  rw [getBit, if_pos bounded]
  exact getD_packBits covered

theorem length_foldl_setBit (indices : List Nat) (bits : List Bool) :
    (indices.foldl BloomFilter.setBit bits).length = bits.length := by
  induction indices generalizing bits with
  | nil => rfl
  | cons i is ih => rw [List.foldl_cons, ih, BloomFilter.setBit, List.length_set]

theorem sizes_add (filter : BloomFilter) (key : Key) :
    (filter.add key).bitArraySize = filter.bitArraySize ∧
      (filter.add key).hashFunctionCount = filter.hashFunctionCount ∧
        (filter.add key).bits.length = filter.bits.length := by
  unfold BloomFilter.add
  split
  · exact ⟨rfl, rfl, rfl⟩
  · exact ⟨rfl, rfl, length_foldl_setBit ..⟩

theorem sizes_build {keys : List Key} (built : BloomFilter.build keys = some filter) : keys ≠ [] ∧
    filter.bitArraySize = keys.length * bitsPerKey ∧ filter.hashFunctionCount = hashCount ∧
      filter.bits.length = (filter.bitArraySize + 7) / 8 * 8 := by
  unfold BloomFilter.build at built
  split at built <;> [cases built; rename_i some]
  obtain rfl := Option.some.inj built
  have kept (more : List Key) (start : BloomFilter) :
      (more.foldl BloomFilter.add start).bitArraySize = start.bitArraySize ∧
        (more.foldl BloomFilter.add start).hashFunctionCount = start.hashFunctionCount ∧
          (more.foldl BloomFilter.add start).bits.length = start.bits.length := by
    induction more generalizing start with
    | nil => exact ⟨rfl, rfl, rfl⟩
    | cons key rest ih =>
        obtain ⟨size, count, bits⟩ := sizes_add start key
        obtain ⟨size', count', bits'⟩ := ih (start.add key)
        exact ⟨size'.trans size, count'.trans count, bits'.trans bits⟩
  obtain ⟨size, count, bits⟩ := kept keys (BloomFilter.new (keys.length * bitsPerKey) hashCount)
  refine ⟨some, size, count, ?_⟩
  rw [bits, size]
  simp [BloomFilter.new]

end BloomFilterReader
end TableFile
end Lrdb
