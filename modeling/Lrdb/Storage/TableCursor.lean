import Lrdb.Base.Records
import Lrdb.Base.Search
import Lrdb.Storage.TableFile

/-!
# The iterator of a table file

The iterator loads one block after another and parses its entries one after another. A block is not
compared with the checksum of its header.
-/

namespace Lrdb
namespace TableFile
open Parsing Records

namespace SSTableReader
variable (reader : SSTableReader)

/-- `std::string::resize`. -/
def resize (bytes : Bytes) (n : Nat) : Bytes := bytes.take n ++ List.replicate (n - bytes.length) 0

/-- `ReadDataBlock`, with what it leaves in the buffer. -/
def readDataBlock (offset size : Nat) (result : Bytes) : Status × Bytes :=
  if size = 0 then (.ok, [])
  else if size ≤ BlockHeader.kHeaderSize then (.corruption "Data block too small", result)
  else
    let dataOffset := (offset + BlockHeader.kHeaderSize) % uint64Limit
    let dataSize := size - BlockHeader.kHeaderSize
    let result := resize result dataSize
    match read reader.file dataOffset dataSize with
    | .error status => (status, result)
    | .ok data =>
        if data.length ≠ dataSize then (.ioError "Short read", data ++ result.drop data.length)
        else (.ok, data)

def findIndexEntry (order : Bytes → Bytes → Ordering) (key : Key) : Option Nat :=
  Search.findLast
    (fun i => reader.index[i]?.any fun entry => order (userKeyPart entry.key) key ≠ .gt)
    reader.index.length 0 reader.index.length none

end SSTableReader

def getEntry : Parser UInt8 (Bytes × Value) := do
  let key ← getLengthPrefixedSlice
  let value ← getLengthPrefixedSlice
  return (key, value)

/-- The keys point into the block data; while the iterator is valid they are read again before the data
changes. The offset in the block has no value before the first block. -/
structure SSTableIterator where
  valid : Bool := false
  currentBlock : Int := -1
  blockData : Bytes := []
  blockOffset : Nat := 0
  currentKey : Bytes := []
  currentValue : Value := []
  status : Status := .ok
  offsetCache : List Nat := []
  deriving DecidableEq, Repr

namespace SSTableIterator

/-! ## Inside a block -/

section Block
variable (it : SSTableIterator)

def parseCurrentEntry : SSTableIterator :=
  if it.blockData.length ≤ it.blockOffset then { it with valid := false }
  else
    let input := it.blockData.drop it.blockOffset
    match getLengthPrefixedSlice input with
    | none => { it with valid := false, status := .corruption "Failed to parse key" }
    | some (key, input') =>
        match getLengthPrefixedSlice input' with
        | none => { it with valid := false, status := .corruption "Failed to parse value" }
        | some (value, rest) =>
            { it with
              currentKey := key
              currentValue := value
              valid := true
              blockOffset := it.blockOffset + (input.length - rest.length) }

def moveToNextInBlock : SSTableIterator × Bool :=
  let moved := it.parseCurrentEntry
  (moved, moved.valid && it.blockOffset < moved.blockOffset)

/-- The loop of `BuildOffsetCache`. An entry takes at least two bytes. -/
def offsetsFrom (blockData : Bytes) : Nat → Nat → List Nat
  | 0, _ => []
  | n + 1, offset =>
      if offset < blockData.length then
        offset ::
          match getEntry (blockData.drop offset) with
          | none => []
          | some (_, rest) =>
              let consumed := blockData.length - offset - rest.length
              if consumed = 0 then [] else offsetsFrom blockData n (offset + consumed)
      else []

def buildOffsetCache : SSTableIterator :=
  { it with offsetCache := offsetsFrom it.blockData it.blockData.length 0 }

def moveToPrevInBlock : SSTableIterator × Bool :=
  if it.blockOffset = 0 then (it, false)
  else
    let it := if it.offsetCache.isEmpty then it.buildOffsetCache else it
    -- `std::lower_bound` of the ascending offsets.
    let place := (it.offsetCache.takeWhile fun offset => offset < it.blockOffset).length
    if place = 0 then (it, false)
    else
      let moved := { it with blockOffset := it.offsetCache.getD (place - 1) 0 }.parseCurrentEntry
      (moved, moved.valid)

/-- The loop of `SeekInBlock`. Behind an entry before the target it parses one that it does not look
at. -/
def seekLoop (order : Bytes → Bytes → Ordering) (target : Key) :
    Nat → SSTableIterator → SSTableIterator
  | 0, it => { it with valid := false }
  | n + 1, it =>
      if it.blockOffset < it.blockData.length then
        let it := it.parseCurrentEntry
        if ¬ it.valid then it
        else if order it.currentKey target ≠ .lt then it
        else
          let moved := it.moveToNextInBlock
          if moved.2 then seekLoop order target n moved.1 else { moved.1 with valid := false }
      else { it with valid := false }

def seekInBlock (order : Bytes → Bytes → Ordering) (target : Key) : SSTableIterator :=
  seekLoop order target (it.blockData.length + 1) { it with blockOffset := 0 }

/-- The loop of `SeekToLastInBlock`, with the last offset from which it tried to move on. -/
def lastLoop : Nat → Nat → SSTableIterator → Nat × SSTableIterator
  | 0, last, it => (last, it)
  | n + 1, last, it =>
      if it.blockOffset < it.blockData.length then
        let moved := it.moveToNextInBlock
        if moved.2 then lastLoop n it.blockOffset moved.1 else (it.blockOffset, moved.1)
      else (last, it)

def seekToLastInBlock : SSTableIterator :=
  let found := lastLoop it.blockData.length 0 { it with blockOffset := 0 }
  { found.2 with blockOffset := found.1 }.parseCurrentEntry

end Block

/-! ## Over the blocks -/

section Blocks
variable (reader : SSTableReader) (it : SSTableIterator)

def isValid : Bool :=
  it.valid && decide (0 ≤ it.currentBlock ∧ it.currentBlock < reader.index.length)

def entryAt (block : Int) : Option IndexEntry :=
  if 0 ≤ block then reader.index[block.toNat]? else none

def loadCurrentBlock : SSTableIterator :=
  match entryAt reader it.currentBlock with
  | none => { it with status := .invalidArgument "Invalid block index" }
  | some entry =>
      let loaded := reader.readDataBlock entry.blockOffset entry.blockSize it.blockData
      let it := { it with status := loaded.1, blockData := loaded.2 }
      if loaded.1.isOk then { it with blockOffset := 0, offsetCache := [] }
      else { it with valid := false }

def loadAnd (block : Int) (place : SSTableIterator → SSTableIterator) : SSTableIterator :=
  let it := { it with currentBlock := block }.loadCurrentBlock reader
  if it.blockData.isEmpty then { it with valid := false } else place it

def seekToFirst : SSTableIterator :=
  if reader.index.isEmpty then { it with valid := false }
  else it.loadAnd reader 0 parseCurrentEntry

def seekToLast : SSTableIterator :=
  if reader.index.isEmpty then { it with valid := false }
  else it.loadAnd reader (reader.index.length - 1) seekToLastInBlock

def seek (order : Bytes → Bytes → Ordering) (target : Key) : SSTableIterator :=
  match reader.findIndexEntry order target with
  | none => { it with valid := false }
  | some block => it.loadAnd reader block fun it => it.seekInBlock order target

def next : SSTableIterator :=
  if ¬ it.isValid reader then it
  else
    let moved := it.moveToNextInBlock
    if moved.2 then moved.1
    else if reader.index.length ≤ moved.1.currentBlock + 1 then
      { moved.1 with currentBlock := moved.1.currentBlock + 1, valid := false }
    else moved.1.loadAnd reader (moved.1.currentBlock + 1) parseCurrentEntry

def prev : SSTableIterator :=
  if ¬ it.isValid reader then it
  else
    let moved := it.moveToPrevInBlock
    if moved.2 then moved.1
    else if moved.1.currentBlock - 1 < 0 then
      { moved.1 with currentBlock := moved.1.currentBlock - 1, valid := false }
    else moved.1.loadAnd reader (moved.1.currentBlock - 1) seekToLastInBlock

def key : Bytes := if it.isValid reader then it.currentKey else []

def value : Value := if it.isValid reader then it.currentValue else []

end Blocks
end SSTableIterator
end TableFile
end Lrdb
