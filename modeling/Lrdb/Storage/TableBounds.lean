import Lrdb.Base.Traces
import Lrdb.Storage.BlockEntries
import Lrdb.Storage.TableCursor
import Lrdb.Storage.TableReads

/-!
# The bounds of the blocks

The places of the blocks are what the file says they are. Open compares the end of a block with the
size of the file, and adds in 64 bits.
-/

namespace Lrdb
namespace TableFile
open Parsing Records Traces
open Loads (Piece)

namespace SSTableReader
variable {order : Bytes → Bytes → Ordering} {filename file : Bytes} {reader : SSTableReader}

/-! ## Opening with its reads -/

section Traced
open Traced

def tracedRead (file : Bytes) (offset n : Nat) : Traced Piece Status Bytes :=
  event ⟨offset, n⟩ (read file offset n)

def tracedBlock (file : Bytes) (capital name : String) (type : BlockType) (handle : BlockHandle) :
    Traced Piece Status Bytes :=
  if (handle.offset + handle.size) % uint64Limit > file.length then
    lift (.error (.corruption (capital ++ " block extends beyond file")))
  else do
    let data ← tracedRead file handle.offset handle.size
    if data.length < BlockHeader.kHeaderSize then
      lift (.error (.corruption (capital ++ " block too small")))
    else do
      let header ← lift (expect ("Invalid " ++ name ++ " block header")
        (BlockHeader.decode (data.take BlockHeader.kHeaderSize)))
      let content := data.drop BlockHeader.kHeaderSize
      if header.type ≠ type.toNat then
        lift (.error (.corruption ("Expected " ++ name ++ " block type")))
      else if (crc32 content).toNat ≠ header.crc32 then
        lift (.error (.corruption "Block checksum mismatch"))
      else pure content

def tracedMeta (filename file : Bytes) : Traced Piece Status (SSTableMeta × Footer) :=
  if file.length < footerSize then lift (.error (.corruption "File too small for footer"))
  else do
    let data ← tracedRead file (file.length - footerSize) footerSize
    let footer ← lift (Footer.decode data)
    let content ← tracedBlock file "Meta" "meta" .kMetaBlock footer.metaBlock
    let info ← lift (expect "Failed to decode meta data" (SSTableMeta.decode content))
    return ({ info with filename := filename, fileSize := file.length }, footer)

/-- The checks of `ReadIndex` behind the read of its block. -/
def parseIndex (order : Bytes → Bytes → Ordering) (info : SSTableMeta) (content : Bytes) :
    Except Status (List IndexEntry) := do
  let index := (← readEntries order info.fileSize content.length content []).reverse
  match index.head?, index.getLast? with
  | some first, some last =>
      if ¬ info.smallestKey.isEmpty ∧ ¬ info.largestKey.isEmpty ∧
          (order (userKeyPart first.key) info.smallestKey ≠ .eq ∨
            order (userKeyPart last.key) info.largestKey = .gt) then
        throw (.corruption "Index key range inconsistent with meta data")
      return index
  | _, _ => throw (.corruption "Empty index block")

def tracedIndex (order : Bytes → Bytes → Ordering) (info : SSTableMeta) (handle : BlockHandle)
    (file : Bytes) : Traced Piece Status (List IndexEntry) :=
  if handle.size = 0 then lift (.error (.corruption "Invalid index block size"))
  else do
    let content ← tracedBlock file "Index" "index" .kIndexBlock handle
    lift (parseIndex order info content)

def tracedBloomFilter (handle : BlockHandle) (file : Bytes) :
    Traced Piece Status (Option BloomFilterReader) :=
  if handle.size = 0 then pure none
  else do
    let content ← tracedBlock file "Bloom filter" "bloom filter" .kBloomBlock handle
    let filter ← lift (expect "Failed to initialize bloom filter from data"
      (BloomFilterReader.new content))
    return some filter

/-- `Open` with the reads that it asks the file for. -/
def tracedOpen (order : Bytes → Bytes → Ordering) (filename file : Bytes) :
    Traced Piece Status SSTableReader :=
  if file.length < BlockHeader.kHeaderSize * 2 then
    lift (.error (.corruption "SSTable file too small"))
  else do
    let (info, footer) ← tracedMeta filename file
    let index ← tracedIndex order info footer.indexBlock file
    let bloomFilter ← tracedBloomFilter footer.bloomBlock file
    return { file, info, index, bloomFilter }

theorem result_tracedBlock (capital name : String) (type : BlockType) (handle : BlockHandle) :
    (tracedBlock file capital name type handle).result = readBlock file capital name type handle := by
  rw [tracedBlock, readBlock]
  split
  · rfl
  simp only [result_bind]
  congr 1
  funext data
  split
  · rfl
  simp only [result_bind]
  congr 1
  funext header
  split
  · rfl
  split <;> rfl

theorem result_tracedMeta : (tracedMeta filename file).result = readMeta filename file := by
  rw [tracedMeta, readMeta]
  split
  · rfl
  · simp only [result_bind, result_tracedBlock]
    rfl

theorem result_tracedIndex (info : SSTableMeta) (handle : BlockHandle) :
    (tracedIndex order info handle file).result = readIndex order info handle file := by
  rw [tracedIndex, readIndex]
  split
  · rfl
  · simp only [result_bind, result_tracedBlock]
    rfl

theorem result_tracedBloomFilter (handle : BlockHandle) :
    (tracedBloomFilter handle file).result = readBloomFilter handle file := by
  rw [tracedBloomFilter, readBloomFilter]
  split
  · rfl
  · simp only [result_bind, result_tracedBlock]
    rfl

theorem result_tracedOpen : (tracedOpen order filename file).result = openFile order filename file := by
  rw [tracedOpen, openFile]
  split
  · rfl
  · simp only [result_bind, result_tracedMeta, result_tracedIndex, result_tracedBloomFilter]
    rfl

/-! ## The reads of Open -/

def Passes (file : Bytes) (handle : BlockHandle) : Prop :=
  (handle.offset + handle.size) % uint64Limit ≤ file.length

def pieceOf (handle : BlockHandle) : Piece := ⟨handle.offset, handle.size⟩

variable {piece : Piece} {handle : BlockHandle}

theorem mem_tracedBlock {capital name : String} {type : BlockType} :
    piece ∈ (tracedBlock file capital name type handle).events ↔
      Passes file handle ∧ piece = pieceOf handle := by
  rw [tracedBlock, Passes]
  split
  · rename_i beyond
    simp only [events_lift, List.not_mem_nil, false_iff]
    exact fun both => absurd both.1 (Nat.not_le.mpr beyond)
  rename_i inside
  simp only [mem_bind, tracedRead, mem_event, Nat.not_lt.mp inside, true_and, pieceOf]
  apply or_iff_left
  rintro ⟨data, -, later⟩
  split at later
  · cases later
  simp only [mem_bind, events_lift, List.not_mem_nil, false_or] at later
  obtain ⟨header, -, later⟩ := later
  split at later
  · cases later
  split at later <;> cases later

structure FooterOf (file : Bytes) (footer : Footer) : Prop where
  long : footerSize ≤ file.length
  found : ∃ data, read file (file.length - footerSize) footerSize = .ok data ∧
    Footer.decode data = .ok footer

theorem readMeta_parts {info : SSTableMeta} {footer : Footer}
    (described : readMeta filename file = .ok (info, footer)) : FooterOf file footer ∧
      info.fileSize = file.length ∧
        ∃ content, readBlock file "Meta" "meta" .kMetaBlock footer.metaBlock = .ok content := by
  unfold readMeta at described
  split at described <;> [cases described; rename_i long]
  obtain ⟨data, last, described⟩ := ok_of_bind described
  obtain ⟨other, decoded, described⟩ := ok_of_bind described
  obtain ⟨content, block, described⟩ := ok_of_bind described
  obtain ⟨m, -, described⟩ := ok_of_bind described
  obtain ⟨rfl, rfl⟩ := Prod.mk.inj (Except.ok.inj described)
  exact ⟨⟨Nat.not_lt.mp long, data, last, decoded⟩, rfl, content, block⟩

theorem mem_tracedMeta : piece ∈ (tracedMeta filename file).events ↔ footerSize ≤ file.length ∧
    (piece = ⟨file.length - footerSize, footerSize⟩ ∨
      ∃ footer, FooterOf file footer ∧ Passes file footer.metaBlock ∧ piece = pieceOf footer.metaBlock) := by
  rw [tracedMeta]
  split
  · rename_i short
    simp only [events_lift, List.not_mem_nil, false_iff]
    exact fun both => absurd both.1 (Nat.not_le.mpr short)
  rename_i long
  simp only [mem_bind, tracedRead, mem_event, result_event, events_lift, List.not_mem_nil, false_or,
    result_lift, mem_tracedBlock, events_pure, and_false, exists_false, or_false, Nat.not_lt.mp long,
    true_and]
  apply or_congr_right
  constructor
  · rintro ⟨data, last, footer, decoded, read⟩
    exact ⟨footer, ⟨Nat.not_lt.mp long, data, last, decoded⟩, read⟩
  · rintro ⟨footer, ⟨-, data, last, decoded⟩, read⟩
    exact ⟨data, last, footer, decoded, read⟩

theorem mem_tracedIndex {info : SSTableMeta} : piece ∈ (tracedIndex order info handle file).events ↔
    handle.size ≠ 0 ∧ Passes file handle ∧ piece = pieceOf handle := by
  rw [tracedIndex]
  split
  · rename_i none
    simp [none]
  · rename_i named
    simp [mem_tracedBlock, named]

theorem mem_tracedBloomFilter : piece ∈ (tracedBloomFilter handle file).events ↔
    handle.size ≠ 0 ∧ Passes file handle ∧ piece = pieceOf handle := by
  rw [tracedBloomFilter]
  split
  · rename_i none
    simp [none]
  · rename_i named
    simp [mem_tracedBlock, named]

inductive Named (order : Bytes → Bytes → Ordering) (filename file : Bytes) : BlockHandle → Prop
  | metaBlock {footer : Footer} (found : FooterOf file footer) : Named order filename file footer.metaBlock
  | indexBlock {info : SSTableMeta} {footer : Footer}
      (described : readMeta filename file = .ok (info, footer)) (named : footer.indexBlock.size ≠ 0) :
      Named order filename file footer.indexBlock
  | bloomBlock {info : SSTableMeta} {footer : Footer} {index : List IndexEntry}
      (described : readMeta filename file = .ok (info, footer))
      (indexed : readIndex order info footer.indexBlock file = .ok index)
      (named : footer.bloomBlock.size ≠ 0) : Named order filename file footer.bloomBlock

theorem mem_tracedOpen : piece ∈ (tracedOpen order filename file).events ↔
    footerSize ≤ file.length ∧ (piece = ⟨file.length - footerSize, footerSize⟩ ∨
      ∃ handle, Named order filename file handle ∧ Passes file handle ∧ piece = pieceOf handle) := by
  have sizes : BlockHeader.kHeaderSize * 2 ≤ footerSize := by decide
  rw [tracedOpen]
  split
  · rename_i small
    simp only [events_lift, List.not_mem_nil, false_iff]
    exact fun both => by omega
  simp only [mem_bind, result_tracedMeta, result_tracedIndex, result_tracedBloomFilter,
    mem_tracedMeta, mem_tracedIndex, mem_tracedBloomFilter, events_pure, List.not_mem_nil, and_false,
    exists_false, or_false]
  constructor
  · rintro (⟨long, footer | ⟨footer, found, passes, rfl⟩⟩ |
      ⟨⟨info, footer⟩, described, ⟨named, passes, rfl⟩ | ⟨index, indexed, named, passes, rfl⟩⟩)
    · exact ⟨long, Or.inl footer⟩
    · exact ⟨long, Or.inr ⟨_, .metaBlock found, passes, rfl⟩⟩
    · exact ⟨(readMeta_parts described).1.long, Or.inr ⟨_, .indexBlock described named, passes, rfl⟩⟩
    · exact ⟨(readMeta_parts described).1.long,
        Or.inr ⟨_, .bloomBlock described indexed named, passes, rfl⟩⟩
  · rintro ⟨long, footer | ⟨handle, named, passes, rfl⟩⟩
    · exact Or.inl ⟨long, Or.inl footer⟩
    · cases named with
      | metaBlock found => exact Or.inl ⟨long, Or.inr ⟨_, found, passes, rfl⟩⟩
      | indexBlock described named => exact Or.inr ⟨_, described, Or.inl ⟨named, passes, rfl⟩⟩
      | bloomBlock described indexed named =>
          exact Or.inr ⟨_, described, Or.inr ⟨_, indexed, named, passes, rfl⟩⟩

end Traced

/-! ## The loop over the index -/

variable {fileSize n m : Nat} {input : Bytes} {index found : List IndexEntry}

theorem readEntries_enough (enough : input.length ≤ n) (more : input.length ≤ m) :
    readEntries order fileSize n input index = readEntries order fileSize m input index := by
  induction n generalizing m input index with
  | zero =>
      obtain rfl := List.length_eq_zero_iff.mp (Nat.le_zero.mp enough)
      cases m <;> rfl
  | succ n ih =>
      cases m with
      | zero =>
          obtain rfl := List.length_eq_zero_iff.mp (Nat.le_zero.mp more)
          rfl
      | succ m =>
          rw [readEntries, readEntries]
          cases taken : getLengthPrefixedSlice input with
          | none => rfl
          | some pair =>
              obtain ⟨data, rest⟩ := pair
              have less := advances_getLengthPrefixedSlice.length_lt taken
              have same (index : List IndexEntry) := @ih m rest index (by omega) (by omega)
              simp only [same]

theorem inside_of_readEntries (read : readEntries order fileSize n input index = .ok found)
    (before : ∀ entry ∈ index, (entry.blockOffset + entry.blockSize) % uint64Limit ≤ fileSize) :
    ∀ entry ∈ found, (entry.blockOffset + entry.blockSize) % uint64Limit ≤ fileSize := by
  induction n generalizing input index with
  | zero =>
      obtain rfl := Except.ok.inj read
      exact before
  | succ n ih =>
      rw [readEntries] at read
      split at read
      · obtain rfl := Except.ok.inj read
        exact before
      split at read
      · obtain rfl := Except.ok.inj read
        exact before
      split at read
      · obtain rfl := Except.ok.inj read
        exact before
      split at read <;> [cases read; rename_i inside]
      split at read <;> [cases read; skip]
      exact ih read (List.forall_mem_cons.mpr ⟨Nat.not_lt.mp inside, before⟩)

def getIndexEntry : Parser UInt8 IndexEntry := fun input =>
  (getLengthPrefixedSlice input).bind fun taken =>
    (IndexEntry.decode taken.1).map fun entry => (entry, taken.2)

theorem advances_getIndexEntry : Advances getIndexEntry := by
  intro input entry rest parsed
  obtain ⟨⟨data, rest'⟩, taken, decoded⟩ := Option.bind_eq_some_iff.mp parsed
  obtain ⟨_, -, same⟩ := Option.map_eq_some_iff.mp decoded
  obtain ⟨-, rfl⟩ := Prod.mk.inj same
  exact advances_getLengthPrefixedSlice _ _ _ taken

theorem reads_of_readEntries (read : readEntries order fileSize n input index = .ok found)
    (enough : input.length ≤ n) : ∃ entries left, Reads getIndexEntry input entries left ∧
      getIndexEntry left = none ∧ found = entries.reverse ++ index := by
  induction n generalizing input index with
  | zero =>
      obtain rfl := List.length_eq_zero_iff.mp (Nat.le_zero.mp enough)
      obtain rfl := Except.ok.inj read
      exact ⟨[], [], Reads.nil _, rfl, rfl⟩
  | succ n ih =>
      rw [readEntries] at read
      split at read
      · rename_i empty
        obtain rfl := Except.ok.inj read
        rw [List.isEmpty_iff.mp empty]
        exact ⟨[], [], Reads.nil _, rfl, rfl⟩
      split at read
      · rename_i stuck
        obtain rfl := Except.ok.inj read
        exact ⟨[], input, Reads.nil _, by rw [getIndexEntry, stuck]; rfl, rfl⟩
      rename_i data rest taken
      split at read
      · rename_i undecoded
        obtain rfl := Except.ok.inj read
        refine ⟨[], input, Reads.nil _, ?_, rfl⟩
        rw [getIndexEntry, taken, Option.bind_some, undecoded]
        rfl
      rename_i entry decoded
      split at read <;> [cases read; skip]
      split at read <;> [cases read; skip]
      have less := advances_getLengthPrefixedSlice.length_lt taken
      have here : getIndexEntry input = some (entry, rest) := by
        rw [getIndexEntry, taken, Option.bind_some, decoded]
        rfl
      obtain ⟨entries, left, later, stuck, rfl⟩ := ih read (by omega)
      exact ⟨entry :: entries, left, Reads.cons here later, stuck, by simp⟩

def indexEntries (file : Bytes) (footer : Footer) : List IndexEntry :=
  records getIndexEntry
    (((file.drop footer.indexBlock.offset).take footer.indexBlock.size).drop BlockHeader.kHeaderSize)

theorem inside_of_readIndex {info : SSTableMeta} {handle : BlockHandle}
    (indexed : readIndex order info handle file = .ok found) :
    ∀ entry ∈ found, (entry.blockOffset + entry.blockSize) % uint64Limit ≤ info.fileSize := by
  obtain ⟨content, loop, -, read, rfl⟩ := readIndex_ok indexed
  have inside := inside_of_readEntries read fun _ member => absurd member List.not_mem_nil
  intro entry member
  exact inside entry (List.mem_reverse.mp member)

theorem index_of_readIndex {info : SSTableMeta} {footer : Footer}
    (indexed : readIndex order info footer.indexBlock file = .ok found) :
    found = indexEntries file footer := by
  obtain ⟨content, loop, block, read, rfl⟩ := readIndex_ok indexed
  obtain ⟨entries, left, reads, stuck, rfl⟩ := reads_of_readEntries read le_rfl
  obtain ⟨same, -⟩ := reads.records_eq advances_getIndexEntry stuck
  rw [indexEntries, ← readBlock_ok block, same, List.append_nil, List.reverse_reverse]

def dataHandle (entry : IndexEntry) : BlockHandle := ⟨entry.blockOffset, entry.blockSize⟩

theorem passes_of_mem_index (opens : openFile order filename file = .ok reader) {entry : IndexEntry}
    (member : entry ∈ reader.index) : Passes file (dataHandle entry) := by
  obtain ⟨footer, steps⟩ := openFile_eq_ok_iff.mp opens
  have inside := inside_of_readIndex steps.indexed entry member
  rwa [(readMeta_parts steps.described).2.1] at inside

/-! ## Blocks that are not in the file -/

/-- The blocks that the file names: those of the footer as far as Open comes, and the data blocks of the
index when Open accepts it. -/
inductive Checked (order : Bytes → Bytes → Ordering) (filename file : Bytes) : BlockHandle → Prop
  | named {handle : BlockHandle} (named : Named order filename file handle) :
      Checked order filename file handle
  | dataBlock {footer : Footer} {entry : IndexEntry} (found : FooterOf file footer)
      (accepted : ∃ reader, openFile order filename file = .ok reader)
      (member : entry ∈ indexEntries file footer) : Checked order filename file (dataHandle entry)

theorem FooterOf.unique {footer other : Footer} (one : FooterOf file footer) (two : FooterOf file other) :
    footer = other := by
  obtain ⟨data, last, decoded⟩ := one.found
  obtain ⟨data', last', decoded'⟩ := two.found
  obtain rfl := Except.ok.inj (last.symm.trans last')
  exact Except.ok.inj (decoded.symm.trans decoded')

theorem index_of_opens (opens : openFile order filename file = .ok reader) :
    ∃ footer, FooterOf file footer ∧ reader.index = indexEntries file footer := by
  obtain ⟨footer, steps⟩ := openFile_eq_ok_iff.mp opens
  exact ⟨footer, (readMeta_parts steps.described).1, index_of_readIndex steps.indexed⟩

structure StaysInside (order : Bytes → Bytes → Ordering) (filename file : Bytes) : Prop where
  opening : ∀ piece ∈ (tracedOpen order filename file).events,
    piece.offset + piece.length ≤ file.length
  dataBlocks : ∀ reader, openFile order filename file = .ok reader → ∀ entry ∈ reader.index,
    entry.blockOffset + entry.blockSize ≤ file.length

/-- The end of the block is not below 2^64, and what is left of it there lies in the file. -/
def WrapsInto (file : Bytes) (handle : BlockHandle) : Prop :=
  uint64Limit ≤ handle.offset + handle.size ∧
    (handle.offset + handle.size) % uint64Limit ≤ file.length

theorem inside_of_passes {handle : BlockHandle} (passes : Passes file handle)
    (straight : ¬ WrapsInto file handle) : handle.offset + handle.size ≤ file.length := by
  have below : handle.offset + handle.size < uint64Limit := by
    by_contra wraps
    exact straight ⟨Nat.not_lt.mp wraps, passes⟩
  rw [Passes, Nat.mod_eq_of_lt below] at passes
  exact passes

theorem staysInside_iff (sized : file.length < uint64Limit) : StaysInside order filename file ↔
    ∀ handle, Checked order filename file handle → ¬ WrapsInto file handle := by
  constructor
  · intro inside handle checked wraps
    have exact' : handle.offset + handle.size ≤ file.length := by
      cases checked with
      | named named =>
          apply inside.opening (pieceOf handle)
          refine mem_tracedOpen.mpr ⟨?_, Or.inr ⟨handle, named, wraps.2, rfl⟩⟩
          cases named with
          | metaBlock found => exact found.long
          | indexBlock described => exact (readMeta_parts described).1.long
          | bloomBlock described => exact (readMeta_parts described).1.long
      | dataBlock found accepted member =>
          obtain ⟨reader, opens⟩ := accepted
          obtain ⟨footer, again, same⟩ := index_of_opens opens
          obtain rfl := found.unique again
          exact inside.dataBlocks reader opens _ (same ▸ member)
    have beyond := wraps.1
    omega
  · intro straight
    refine ⟨?_, ?_⟩
    · intro piece read
      obtain ⟨long, rfl | ⟨handle, named, passes, rfl⟩⟩ := mem_tracedOpen.mp read
      · exact (Nat.sub_add_cancel long).le
      · exact inside_of_passes passes (straight handle (.named named))
    · intro reader opens entry member
      obtain ⟨footer, found, same⟩ := index_of_opens opens
      exact inside_of_passes (passes_of_mem_index opens member)
        (straight _ (.dataBlock found ⟨reader, opens⟩ (same ▸ member)))

/-! ## Tables that open -/

theorem inside_of_readBlock {capital name : String} {type : BlockType} {handle : BlockHandle}
    {content : Bytes} (small : handle.size < uint32Limit)
    (read : readBlock file capital name type handle = .ok content) :
    handle.offset + handle.size ≤ file.length := by
  have limits : maxFileSize + uint32Limit < uint64Limit := by decide
  unfold readBlock at read
  split at read <;> [cases read; rename_i passes]
  obtain ⟨data, found, read⟩ := ok_of_bind read
  split at read <;> [cases read; rename_i filled]
  -- A read from 2^63 on fails, and a block with a header is not empty.
  have near : handle.offset ≤ maxFileSize := by
    by_contra far
    unfold TableFile.read at found
    split at found <;> [cases found; rename_i fails]
    obtain rfl := Except.ok.inj found
    have header : 0 < BlockHeader.kHeaderSize := by decide
    rw [List.length_take] at filled
    exact fails ⟨by omega, by omega⟩
  rw [Nat.mod_eq_of_lt (by omega)] at passes
  exact Nat.not_lt.mp passes

theorem size_of_handle {input rest : Bytes} {handle : BlockHandle}
    (parsed : BlockHandle.parser input = some (handle, rest)) : handle.size < uint32Limit := by
  obtain ⟨offset, _, -, parsed⟩ := bind_some parsed
  obtain ⟨size, _, found, parsed⟩ := bind_some parsed
  obtain ⟨rfl, -⟩ := pure_some parsed
  exact getVarint32_lt found

theorem sizes_of_footer {data : Bytes} {footer : Footer} (decoded : Footer.decode data = .ok footer) :
    footer.metaBlock.size < uint32Limit ∧ footer.indexBlock.size < uint32Limit ∧
      footer.bloomBlock.size < uint32Limit := by
  obtain ⟨⟨metaBlock, input⟩, first, decoded⟩ := ok_of_bind decoded
  obtain ⟨⟨indexBlock, input'⟩, second, decoded⟩ := ok_of_bind decoded
  obtain ⟨⟨bloomBlock, input''⟩, third, decoded⟩ := ok_of_bind decoded
  obtain ⟨⟨⟨version, magic⟩, _⟩, -, decoded⟩ := ok_of_bind decoded
  dsimp only at decoded
  split at decoded <;> [cases decoded; skip]
  split at decoded <;> [cases decoded; skip]
  obtain rfl := Except.ok.inj decoded
  exact ⟨size_of_handle (expect_ok first), size_of_handle (expect_ok second),
    size_of_handle (expect_ok third)⟩

theorem inside_of_opens (opens : openFile order filename file = .ok reader) {handle : BlockHandle}
    (named : Named order filename file handle) : handle.offset + handle.size ≤ file.length := by
  obtain ⟨footer, steps⟩ := openFile_eq_ok_iff.mp opens
  obtain ⟨found, -, content, block⟩ := readMeta_parts steps.described
  obtain ⟨data, -, decoded⟩ := found.found
  obtain ⟨metaSmall, indexSmall, bloomSmall⟩ := sizes_of_footer decoded
  cases named with
  | metaBlock other =>
      obtain rfl := found.unique other
      exact inside_of_readBlock metaSmall block
  | indexBlock again =>
      obtain rfl := found.unique (readMeta_parts again).1
      obtain ⟨content, loop, block, -⟩ := readIndex_ok steps.indexed
      exact inside_of_readBlock indexSmall block
  | bloomBlock again indexed sized =>
      obtain rfl := found.unique (readMeta_parts again).1
      have filtered := steps.filtered
      unfold readBloomFilter at filtered
      rw [if_neg sized] at filtered
      obtain ⟨content, block, -⟩ := ok_of_bind filtered
      exact inside_of_readBlock bloomSmall block

end SSTableReader

/-! ## Any file -/

/-- The loop over the index ends, and Open stays inside the file unless the end of a block that it
accepts wraps around. -/
theorem openFile_bounded_iff (order : Bytes → Bytes → Ordering) (filename : Bytes) {file : Bytes}
    (sized : file.length < uint64Limit) :
    (∀ (info : SSTableMeta) (content : Bytes) (n : Nat), content.length ≤ n →
      SSTableReader.readEntries order info.fileSize n content [] =
        SSTableReader.readEntries order info.fileSize content.length content []) ∧
      (SSTableReader.StaysInside order filename file ↔
        ∀ handle, SSTableReader.Checked order filename file handle →
          ¬ SSTableReader.WrapsInto file handle) :=
  ⟨fun _ _ _ enough => SSTableReader.readEntries_enough enough le_rfl,
    SSTableReader.staysInside_iff sized⟩

def blockOf (type : BlockType) (content : Bytes) : Bytes :=
  BlockHeader.encode ⟨type.toNat, content.length, (crc32 content).toNat, 0⟩ ++ content

def wrappedEntry : IndexEntry := ⟨[97, 1, 0, 0, 0, 0, 0, 0, 0], uint64Limit - 16, 32, 0⟩

def wrappedIndex : Bytes := blockOf .kIndexBlock (SSTableReader.indexData [wrappedEntry])

def wrappedMeta : Bytes := blockOf .kMetaBlock (SSTableMeta.encode {})

def wrappedFile : Bytes :=
  wrappedIndex ++ (wrappedMeta ++
    Footer.encode ⟨⟨wrappedIndex.length, wrappedMeta.length⟩, ⟨0, wrappedIndex.length⟩, {}⟩)

theorem opens_wrappedFile : ∃ reader,
    SSTableReader.openFile bytewiseCompare [97] wrappedFile = .ok reader ∧
      wrappedEntry ∈ reader.index ∧
        reader.readDataBlock wrappedEntry.blockOffset wrappedEntry.blockSize [] =
          (.ok, wrappedFile.take 16) := by
  have facts : (SSTableReader.openFile bytewiseCompare [97] wrappedFile).toOption.any fun reader =>
      decide (wrappedEntry ∈ reader.index ∧
        reader.readDataBlock wrappedEntry.blockOffset wrappedEntry.blockSize [] =
          (.ok, wrappedFile.take 16)) := by decide +kernel
  cases opens : SSTableReader.openFile bytewiseCompare [97] wrappedFile with
  | error status =>
      rw [opens] at facts
      cases facts
  | ok reader =>
      rw [opens] at facts
      exact ⟨reader, rfl, of_decide_eq_true facts⟩

theorem length_wrappedFile : wrappedFile.length < uint64Limit := by decide +kernel

theorem openFile_bounded_wrappedFile :
    ¬ SSTableReader.StaysInside bytewiseCompare [97] wrappedFile := by
  obtain ⟨reader, opens, member, -⟩ := opens_wrappedFile
  have bounded := (openFile_bounded_iff bytewiseCompare [97] length_wrappedFile).2
  rw [bounded]
  intro straight
  have wraps : SSTableReader.WrapsInto wrappedFile (SSTableReader.dataHandle wrappedEntry) :=
    ⟨by decide, by decide +kernel⟩
  obtain ⟨footer, found, same⟩ := SSTableReader.index_of_opens opens
  exact straight _ (.dataBlock found ⟨reader, opens⟩ (same ▸ member)) wraps

theorem wrappedFile_reads_outside :
    ¬ ∀ (order : Bytes → Bytes → Ordering) (filename file : Bytes) (reader : SSTableReader)
      (entry : IndexEntry) (data : Bytes), file.length < uint64Limit →
        SSTableReader.openFile order filename file = .ok reader → entry ∈ reader.index →
          reader.readDataBlock entry.blockOffset entry.blockSize [] = (.ok, data) →
            entry.blockOffset + entry.blockSize ≤ file.length := by
  intro always
  obtain ⟨reader, opens, member, read⟩ := opens_wrappedFile
  have inside := always _ _ _ _ _ _ length_wrappedFile opens member read
  revert inside
  decide +kernel

end TableFile
end Lrdb
