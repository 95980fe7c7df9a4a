import Lrdb.Storage.TableCodec
import Lrdb.Util.BloomFilter

/-!
# Table files

The writer and the opening of a table file, on its bytes. Keys are compared as the comparator of the
column family compares byte strings, whatever order it makes of them.
-/

namespace Lrdb
namespace TableFile
open Parsing

/-! ## The file system -/

/-- No file is longer; a write beyond fails. -/
def maxFileSize : Nat := 0x7FFFFFFFFFFFFFFF

/-- No path is longer, with its terminator. -/
def maxPath : Nat := 4096

def append (file data : Bytes) : Except Status Bytes :=
  if file.length + data.length ≤ maxFileSize then .ok (file ++ data)
  else .error (.ioError "Cannot write file")

/-- A read is short only at the end of the file; an offset is a signed number. -/
def read (file : Bytes) (offset n : Nat) : Except Status Bytes :=
  if 0 < n ∧ maxFileSize < offset then .error (.ioError "Cannot read file")
  else .ok ((file.drop offset).take n)

/-! ## Bloom blocks -/

/-- The first bit is the lowest. -/
def bitsToNat : List Bool → Nat
  | [] => 0
  | bit :: bits => (if bit then 1 else 0) + 2 * bitsToNat bits

def packBits (bits : List Bool) : Bytes :=
  (List.range (bits.length / 8)).map fun i => UInt8.ofNat (bitsToNat ((bits.drop (8 * i)).take 8))

def serialize (filter : BloomFilter) (elementCount : Nat) : Bytes :=
  putFixed64 filter.bitArraySize ++ (putFixed 4 filter.hashFunctionCount ++
    (putFixed64 elementCount ++ packBits filter.bits))

structure BloomFilterReader where
  bitArraySize : Nat
  hashFunctionCount : Nat
  bitArray : Bytes
  deriving DecidableEq, Repr

/-- The count of elements is read for a warning only. -/
def BloomFilterReader.new (data : Bytes) : Option BloomFilterReader :=
  if data.length < 20 then none
  else
    let bitArraySize := decodeFixed (data.take 8)
    let expected := (20 + (bitArraySize + 7) % uint64Limit / 8) % uint64Limit
    if data.length ≠ expected then none
    else some ⟨bitArraySize, decodeFixed ((data.drop 8).take 4), data.drop 20⟩

/-! ## Writing -/

structure SSTableWriterOptions where
  blockSize : Nat := 64 * 1024
  enableBloomFilter : Bool := true
  deriving DecidableEq, Repr

structure SSTableWriter where
  options : SSTableWriterOptions
  file : Bytes := []
  dataBuffer : Bytes := []
  indexEntries : List IndexEntry := []
  bloomKeys : List Key := []
  info : SSTableMeta
  numEntries : Nat := 0
  currentOffset : Nat := 0
  lastKey : Bytes := []
  footer : Footer := {}
  finished : Bool := false

namespace SSTableWriter

def openFile (options : SSTableWriterOptions) (filename : Bytes) (now : Nat) :
    Except Status SSTableWriter :=
  if filename.length < maxPath then
    .ok { options := options, info := { filename := filename, creationTime := now % uint64Limit } }
  else .error (.ioError "Cannot create file")

def writeBlock (file : Bytes) (type : BlockType) (data : Bytes) : Except Status Bytes := do
  let header : BlockHeader := ⟨type.toNat, data.length % uint32Limit, (crc32 data).toNat, 0⟩
  let file ← append file header.encode
  append file data

/-- The size of a block as the index and the footer have it. -/
def blockSize (data : Bytes) : Nat := (BlockHeader.kHeaderSize + data.length) % uint32Limit

/-- `index_entries_.back().block_size` is set. -/
def sizeLast (size : Nat) (entries : List IndexEntry) : List IndexEntry :=
  match entries.getLast? with
  | none => []
  | some last => entries.dropLast ++ [{ last with blockSize := size }]

/-- The offset counts the bytes of the file, which the file system keeps below 2^63. -/
def writeDataBlock (w : SSTableWriter) : Except Status SSTableWriter :=
  if w.dataBuffer.isEmpty then .ok w
  else do
    let file ← writeBlock w.file .kDataBlock w.dataBuffer
    return { w with
      file := file
      indexEntries := sizeLast (blockSize w.dataBuffer) w.indexEntries
      currentOffset := w.currentOffset + (BlockHeader.kHeaderSize + w.dataBuffer.length)
      dataBuffer := [] }

def shouldStartNewBlock (w : SSTableWriter) : Bool := w.options.blockSize ≤ w.dataBuffer.length

def cutBlock (w : SSTableWriter) : Except Status SSTableWriter :=
  if w.shouldStartNewBlock then w.writeDataBlock else .ok w

def updateRange (m : SSTableMeta) (key : Bytes) : SSTableMeta :=
  { m with
    smallestKey := if m.smallestKey.isEmpty then key else m.smallestKey
    largestKey := key }

def updateMeta (m : SSTableMeta) (key value : Bytes) : SSTableMeta :=
  let m :=
    match parseInternalKey key with
    | some (userKey, sequence, type) =>
        { updateRange m userKey with
          numDeletions :=
            if type = ValueType.kDeletion.toNat then (m.numDeletions + 1) % uint64Limit
            else m.numDeletions
          oldestKeyTime :=
            if m.oldestKeyTime = 0 ∨ sequence < m.oldestKeyTime then sequence else m.oldestKeyTime }
    | none => updateRange m key
  { m with
    rawKeySize := (m.rawKeySize + key.length) % uint64Limit
    rawValueSize := (m.rawValueSize + value.length) % uint64Limit }

/-- A key that cannot be parsed goes to the filter as it is. -/
def bloomKey (key : Bytes) : Key := ((parseInternalKey key).map Prod.fst).getD key

def startBlock (w : SSTableWriter) (key : Bytes) : SSTableWriter :=
  if w.dataBuffer.isEmpty then
    { w with indexEntries := w.indexEntries ++ [⟨key, w.currentOffset, 0, 0⟩] }
  else w

/-- `Add` after the order check and the cut of a full block. -/
def store (w : SSTableWriter) (key value : Bytes) : SSTableWriter :=
  { w.startBlock key with
    dataBuffer := w.dataBuffer ++ (putLengthPrefixedSlice key ++ putLengthPrefixedSlice value)
    bloomKeys := if w.options.enableBloomFilter then w.bloomKeys ++ [bloomKey key] else w.bloomKeys
    info := updateMeta w.info key value
    lastKey := key
    numEntries := (w.numEntries + 1) % uint64Limit }

def add (order : Bytes → Bytes → Ordering) (w : SSTableWriter) (key value : Bytes) :
    Except Status SSTableWriter :=
  if w.finished then .error (.invalidArgument "SSTable writer already finished")
  else if ¬ w.lastKey.isEmpty ∧ order w.lastKey key ≠ .lt then
    .error (.invalidArgument "Keys must be added in ascending order")
  else do
    let w ← w.cutBlock
    return w.store key value

def addAll (order : Bytes → Bytes → Ordering) (w : SSTableWriter) :
    List (Bytes × Value) → Except Status SSTableWriter
  | [] => .ok w
  | (key, value) :: rest => do
      let w ← w.add order key value
      w.addAll order rest

def writeTail (w : SSTableWriter) (type : BlockType) (data : Bytes)
    (setHandle : BlockHandle → Footer → Footer) : Except Status SSTableWriter := do
  let file ← writeBlock w.file type data
  return { w with
    file := file
    footer := setHandle ⟨w.currentOffset, blockSize data⟩ w.footer
    currentOffset := w.currentOffset + (BlockHeader.kHeaderSize + data.length) }

def writeIndexBlock (w : SSTableWriter) : Except Status SSTableWriter :=
  if w.indexEntries.isEmpty then .ok w
  else
    w.writeTail .kIndexBlock
      (w.indexEntries.flatMap fun entry => putLengthPrefixedSlice entry.encode)
      fun handle footer => { footer with indexBlock := handle }

/-- Without keys there is no filter block. -/
def writeBloomFilterBlock (w : SSTableWriter) : Except Status SSTableWriter :=
  if w.options.enableBloomFilter then
    match BloomFilter.build w.bloomKeys with
    | none => .ok w
    | some filter =>
        w.writeTail .kBloomBlock (serialize filter w.bloomKeys.length)
          fun handle footer => { footer with bloomBlock := handle }
  else .ok w

def writeMetaBlock (w : SSTableWriter) : Except Status SSTableWriter :=
  w.writeTail .kMetaBlock w.info.encode fun handle footer => { footer with metaBlock := handle }

/-- `closing` is the first status that is not OK of the calls that sync and close the file. -/
def finish (w : SSTableWriter) (closing : Status) : Except Status SSTableWriter :=
  if w.finished then .error (.invalidArgument "SSTable writer already finished")
  else do
    let w ← w.writeDataBlock
    let w ← w.writeIndexBlock
    let w ← w.writeBloomFilterBlock
    let w ← w.writeMetaBlock
    let file ← append w.file w.footer.encode
    let currentOffset := w.currentOffset + footerSize
    if closing.isOk then
      return { w with
        file := file
        currentOffset := currentOffset
        info := { w.info with fileSize := currentOffset, numEntries := w.numEntries }
        finished := true }
    else throw closing

end SSTableWriter

/-! ## Opening -/

structure SSTableReader where
  file : Bytes
  info : SSTableMeta
  index : List IndexEntry
  bloomFilter : Option BloomFilterReader
  deriving DecidableEq, Repr

namespace SSTableReader

/-- A block that is read whole: its bounds, its header, its type and its checksum are checked. The
errors name it, with a capital letter or without. -/
def readBlock (file : Bytes) (capital name : String) (type : BlockType) (handle : BlockHandle) :
    Except Status Bytes := do
  if (handle.offset + handle.size) % uint64Limit > file.length then
    throw (.corruption (capital ++ " block extends beyond file"))
  let data ← read file handle.offset handle.size
  if data.length < BlockHeader.kHeaderSize then
    throw (.corruption (capital ++ " block too small"))
  let header ← expect ("Invalid " ++ name ++ " block header")
    (BlockHeader.decode (data.take BlockHeader.kHeaderSize))
  if header.type ≠ type.toNat then throw (.corruption ("Expected " ++ name ++ " block type"))
  let content := data.drop BlockHeader.kHeaderSize
  if (crc32 content).toNat ≠ header.crc32 then throw (.corruption "Block checksum mismatch")
  return content

def readMeta (filename file : Bytes) : Except Status (SSTableMeta × Footer) := do
  if file.length < footerSize then throw (.corruption "File too small for footer")
  let data ← read file (file.length - footerSize) footerSize
  let footer ← Footer.decode data
  let content ← readBlock file "Meta" "meta" .kMetaBlock footer.metaBlock
  let info ← expect "Failed to decode meta data" (SSTableMeta.decode content)
  return ({ info with filename := filename, fileSize := file.length }, footer)

/-- The loop over the entries. It stops at the first that does not parse; the index keeps the last
entry first. -/
def readEntries (order : Bytes → Bytes → Ordering) (fileSize : Nat) :
    Nat → Bytes → List IndexEntry → Except Status (List IndexEntry)
  | 0, _, index => .ok index
  | n + 1, input, index =>
      if input.isEmpty then .ok index
      else
        match getLengthPrefixedSlice input with
        | none => .ok index
        | some (data, rest) =>
            match IndexEntry.decode data with
            | none => .ok index
            | some entry =>
                if (entry.blockOffset + entry.blockSize) % uint64Limit > fileSize then
                  .error (.corruption "Index entry points beyond file")
                else if index.head?.any fun last => order last.key entry.key ≠ .lt then
                  .error (.corruption "Index keys not in sorted order")
                else readEntries order fileSize n rest (entry :: index)

def userKeyPart (key : Bytes) : Bytes := if key.length < 8 then key else key.take (key.length - 8)

def readIndex (order : Bytes → Bytes → Ordering) (info : SSTableMeta) (handle : BlockHandle)
    (file : Bytes) : Except Status (List IndexEntry) := do
  if handle.size = 0 then throw (.corruption "Invalid index block size")
  let content ← readBlock file "Index" "index" .kIndexBlock handle
  -- An entry takes at least one byte of the input.
  let index := (← readEntries order info.fileSize content.length content []).reverse
  match index.head?, index.getLast? with
  | some first, some last =>
      if ¬ info.smallestKey.isEmpty ∧ ¬ info.largestKey.isEmpty ∧
          (order (userKeyPart first.key) info.smallestKey ≠ .eq ∨
            order (userKeyPart last.key) info.largestKey = .gt) then
        throw (.corruption "Index key range inconsistent with meta data")
      return index
  | _, _ => throw (.corruption "Empty index block")

def readBloomFilter (handle : BlockHandle) (file : Bytes) :
    Except Status (Option BloomFilterReader) :=
  if handle.size = 0 then .ok none
  else do
    let content ← readBlock file "Bloom filter" "bloom filter" .kBloomBlock handle
    let filter ← expect "Failed to initialize bloom filter from data" (BloomFilterReader.new content)
    return some filter

def openFile (order : Bytes → Bytes → Ordering) (filename file : Bytes) :
    Except Status SSTableReader := do
  if file.length < BlockHeader.kHeaderSize * 2 then throw (.corruption "SSTable file too small")
  let (info, footer) ← readMeta filename file
  let index ← readIndex order info footer.indexBlock file
  let bloomFilter ← readBloomFilter footer.bloomBlock file
  return { file, info, index, bloomFilter }

end SSTableReader
end TableFile
end Lrdb
