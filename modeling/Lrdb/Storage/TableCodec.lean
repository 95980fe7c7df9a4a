import Lrdb.Util.Coding

/-!
# The records of a table file

The metadata, the header of a block, an entry of the index and the footer, with their bytes.
-/

namespace Lrdb
namespace TableFile
open Parsing

structure SSTableMeta where
  filename : Bytes := []
  fileNumber : Nat := 0
  fileSize : Nat := 0
  level : Nat := 0
  smallestKey : Key := []
  largestKey : Key := []
  numEntries : Nat := 0
  numDeletions : Nat := 0
  rawKeySize : Nat := 0
  rawValueSize : Nat := 0
  creationTime : Nat := 0
  oldestKeyTime : Nat := 0
  deriving DecidableEq, Repr

namespace SSTableMeta

def encode (m : SSTableMeta) : Bytes :=
  putLengthPrefixedSlice m.filename ++ (putVarint64 m.fileNumber ++ (putVarint64 m.fileSize ++
    (putFixed 4 m.level ++ (putLengthPrefixedSlice m.smallestKey ++
      (putLengthPrefixedSlice m.largestKey ++ (putVarint64 m.numEntries ++
        (putVarint64 m.numDeletions ++ (putVarint64 m.rawKeySize ++ (putVarint64 m.rawValueSize ++
          (putVarint64 m.creationTime ++ putVarint64 m.oldestKeyTime))))))))))

def parser : Parser UInt8 SSTableMeta := do
  let filename ← getLengthPrefixedSlice
  let fileNumber ← getVarint64
  let fileSize ← getVarint64
  let level ← getFixed32
  let smallestKey ← getLengthPrefixedSlice
  let largestKey ← getLengthPrefixedSlice
  let numEntries ← getVarint64
  let numDeletions ← getVarint64
  let rawKeySize ← getVarint64
  let rawValueSize ← getVarint64
  let creationTime ← getVarint64
  let oldestKeyTime ← getVarint64
  return { filename, fileNumber, fileSize, level, smallestKey, largestKey, numEntries, numDeletions,
           rawKeySize, rawValueSize, creationTime, oldestKeyTime }

def decode (data : Bytes) : Option SSTableMeta := parser.parse data

structure Typed (m : SSTableMeta) : Prop where
  fileNumber : m.fileNumber < uint64Limit
  fileSize : m.fileSize < uint64Limit
  level : m.level < uint32Limit
  numEntries : m.numEntries < uint64Limit
  numDeletions : m.numDeletions < uint64Limit
  rawKeySize : m.rawKeySize < uint64Limit
  rawValueSize : m.rawValueSize < uint64Limit
  creationTime : m.creationTime < uint64Limit
  oldestKeyTime : m.oldestKeyTime < uint64Limit

structure Short (m : SSTableMeta) : Prop where
  filename : m.filename.length < uint32Limit
  smallestKey : m.smallestKey.length < uint32Limit
  largestKey : m.largestKey.length < uint32Limit

theorem parser_yields {m : SSTableMeta} (typed : m.Typed) (short : m.Short) :
    Yields parser m.encode m := by
  rw [encode, parser]
  refine (yields_getLengthPrefixedSlice short.filename).bind ?_
  refine (yields_getVarint64 typed.fileNumber).bind ?_
  refine (yields_getVarint64 typed.fileSize).bind ?_
  refine (yields_getFixed32 typed.level).bind ?_
  refine (yields_getLengthPrefixedSlice short.smallestKey).bind ?_
  refine (yields_getLengthPrefixedSlice short.largestKey).bind ?_
  refine (yields_getVarint64 typed.numEntries).bind ?_
  refine (yields_getVarint64 typed.numDeletions).bind ?_
  refine (yields_getVarint64 typed.rawKeySize).bind ?_
  refine (yields_getVarint64 typed.rawValueSize).bind ?_
  refine (yields_getVarint64 typed.creationTime).bind ?_
  rw [← List.append_nil (putVarint64 m.oldestKeyTime)]
  exact (yields_getVarint64 typed.oldestKeyTime).bind (Yields.pure _)

theorem parser_isLocal : Local parser := by
  refine local_getLengthPrefixedSlice.bind fun _ => ?_
  refine local_getVarint64.bind fun _ => ?_
  refine local_getVarint64.bind fun _ => ?_
  refine local_getFixed32.bind fun _ => ?_
  refine local_getLengthPrefixedSlice.bind fun _ => ?_
  refine local_getLengthPrefixedSlice.bind fun _ => ?_
  refine local_getVarint64.bind fun _ => ?_
  refine local_getVarint64.bind fun _ => ?_
  refine local_getVarint64.bind fun _ => ?_
  refine local_getVarint64.bind fun _ => ?_
  refine local_getVarint64.bind fun _ => ?_
  exact local_getVarint64.bind fun _ => Local.pure _

theorem short_of_decode {data : Bytes} {m : SSTableMeta} (decoded : decode data = some m) :
    m.Short := by
  obtain ⟨⟨_, rest⟩, parsed, rfl⟩ := Option.map_eq_some_iff.mp decoded
  obtain ⟨filename, _, name, parsed⟩ := bind_some parsed
  obtain ⟨_, _, -, parsed⟩ := bind_some parsed
  obtain ⟨_, _, -, parsed⟩ := bind_some parsed
  obtain ⟨_, _, -, parsed⟩ := bind_some parsed
  obtain ⟨smallestKey, _, smallest, parsed⟩ := bind_some parsed
  obtain ⟨largestKey, _, largest, parsed⟩ := bind_some parsed
  obtain ⟨_, _, -, parsed⟩ := bind_some parsed
  obtain ⟨_, _, -, parsed⟩ := bind_some parsed
  obtain ⟨_, _, -, parsed⟩ := bind_some parsed
  obtain ⟨_, _, -, parsed⟩ := bind_some parsed
  obtain ⟨_, _, -, parsed⟩ := bind_some parsed
  obtain ⟨_, _, -, parsed⟩ := bind_some parsed
  obtain ⟨rfl, -⟩ := pure_some parsed
  exact ⟨getLengthPrefixedSlice_lt name, getLengthPrefixedSlice_lt smallest,
    getLengthPrefixedSlice_lt largest⟩

theorem decode_of_prefix {m found : SSTableMeta} {data : Bytes} (typed : m.Typed) (short : m.Short)
    (part : data <+: m.encode) (decoded : decode data = some found) : found = m :=
  parser_isLocal.of_prefix (parser_yields typed short) part decoded

end SSTableMeta

/-! ## Blocks -/

inductive BlockType where
  | kDataBlock | kIndexBlock | kBloomBlock | kMetaBlock | kCompressionDict
  deriving DecidableEq, Repr

def BlockType.toNat : BlockType → Nat
  | kDataBlock => 1
  | kIndexBlock => 2
  | kBloomBlock => 3
  | kMetaBlock => 4
  | kCompressionDict => 5

structure BlockHeader where
  /-- The cast of the number that was read, which need not be a member of the enumeration. -/
  type : Nat
  size : Nat
  crc32 : Nat
  compression : Nat
  deriving DecidableEq, Repr

namespace BlockHeader

def kHeaderSize : Nat := 16

def encode (h : BlockHeader) : Bytes :=
  putFixed 4 h.type ++ (putFixed 4 h.size ++ (putFixed 4 h.crc32 ++ putFixed 4 h.compression))

def parser : Parser UInt8 BlockHeader := do
  let type ← getFixed32
  let size ← getFixed32
  let crc32 ← getFixed32
  let compression ← getFixed32
  return ⟨type % 256, size, crc32, compression⟩

def decode (data : Bytes) : Option BlockHeader := parser.parse data

@[simp] theorem length_encode (h : BlockHeader) : h.encode.length = kHeaderSize := by
  simp [encode, kHeaderSize]

end BlockHeader

structure IndexEntry where
  key : Bytes
  blockOffset : Nat
  blockSize : Nat
  firstKeyOffset : Nat
  deriving DecidableEq, Repr

namespace IndexEntry

def encode (e : IndexEntry) : Bytes :=
  putLengthPrefixedSlice e.key ++ (putVarint64 e.blockOffset ++
    (putFixed 4 e.blockSize ++ putFixed 4 e.firstKeyOffset))

def parser : Parser UInt8 IndexEntry := do
  let key ← getLengthPrefixedSlice
  let blockOffset ← getVarint64
  let blockSize ← getFixed32
  let firstKeyOffset ← getFixed32
  return ⟨key, blockOffset, blockSize, firstKeyOffset⟩

def decode (data : Bytes) : Option IndexEntry := parser.parse data

end IndexEntry

/-! ## The footer -/

def kSSTableMagic : Nat := 0x57A7AB1E

def footerSize : Nat := 48

structure BlockHandle where
  offset : Nat := 0
  size : Nat := 0
  deriving DecidableEq, Repr

namespace BlockHandle

def encode (h : BlockHandle) : Bytes := putVarint64 h.offset ++ putVarint32 h.size

def parser : Parser UInt8 BlockHandle := do
  let offset ← getVarint64
  let size ← getVarint32
  return ⟨offset, size⟩

structure Typed (h : BlockHandle) : Prop where
  offset : h.offset < 0x8000000000000000
  size : h.size < uint32Limit

theorem Typed.length_encode {h : BlockHandle} (typed : h.Typed) : h.encode.length ≤ 14 := by
  have offset : (putVarint64 h.offset).length ≤ 9 :=
    length_encodeVarint_of_lt (typed.offset.trans_le (by decide))
  have size : (putVarint32 h.size).length ≤ 5 := length_encodeVarint_le 4 h.size
  rw [encode, List.length_append]
  omega

theorem Typed.yields {h : BlockHandle} (typed : h.Typed) : Yields parser h.encode h := by
  rw [encode, parser]
  refine (yields_getVarint64 (typed.offset.trans (by decide))).bind ?_
  rw [← List.append_nil (putVarint32 h.size)]
  exact (yields_getVarint32 typed.size).bind (Yields.pure _)

end BlockHandle

structure Footer where
  metaBlock : BlockHandle := {}
  indexBlock : BlockHandle := {}
  bloomBlock : BlockHandle := {}
  deriving DecidableEq, Repr

def expect {α : Type} (message : String) : Option α → Except Status α
  | none => .error (.corruption message)
  | some found => .ok found

theorem ok_of_bind {α β : Type} {first : Except Status α} {next : α → Except Status β} {result : β}
    (success : (first >>= next) = .ok result) : ∃ a, first = .ok a ∧ next a = .ok result := by
  cases first with
  | error status => cases success
  | ok a => exact ⟨a, rfl, success⟩

theorem expect_ok {α : Type} {message : String} {step : Option α} {found : α}
    (success : expect message step = .ok found) : step = some found := by
  cases step with
  | none => cases success
  | some a => exact congrArg some (Except.ok.inj success)

theorem expect_some {α : Type} (message : String) (found : α) :
    expect message (some found) = .ok found := rfl

namespace Footer

def fields (f : Footer) : Bytes :=
  f.metaBlock.encode ++ (f.indexBlock.encode ++ (f.bloomBlock.encode ++
    (putVarint32 1 ++ putVarint32 kSSTableMagic)))

def encode (f : Footer) : Bytes := (f.fields ++ List.replicate footerSize 0).take footerSize

def versionAndMagic : Parser UInt8 (Nat × Nat) := do
  let version ← getVarint32
  let magic ← getVarint32
  return (version, magic)

/-- The second step of `ReadMeta`. -/
def decode (data : Bytes) : Except Status Footer := do
  let (metaBlock, input) ← expect "Invalid footer: meta block info" (BlockHandle.parser data)
  let (indexBlock, input) ← expect "Invalid footer: index block info" (BlockHandle.parser input)
  let (bloomBlock, input) ← expect "Invalid footer: bloom block info" (BlockHandle.parser input)
  let ((version, magic), _) ← expect "Invalid footer: version/magic" (versionAndMagic input)
  if magic ≠ kSSTableMagic then throw (.corruption "Invalid SSTable magic number")
  if version ≠ 1 then
    throw (.notSupported ("Unsupported SSTable version: " ++ toString version))
  return { metaBlock, indexBlock, bloomBlock }

structure Typed (f : Footer) : Prop where
  metaBlock : f.metaBlock.Typed
  indexBlock : f.indexBlock.Typed
  bloomBlock : f.bloomBlock.Typed

@[simp] theorem length_encode (f : Footer) : f.encode.length = footerSize := by
  simp [encode]

theorem Typed.length_fields {f : Footer} (typed : f.Typed) : f.fields.length ≤ footerSize := by
  have metaBlock := typed.metaBlock.length_encode
  have indexBlock := typed.indexBlock.length_encode
  have bloomBlock := typed.bloomBlock.length_encode
  have version : (putVarint32 1).length = 1 := rfl
  have magic : (putVarint32 kSSTableMagic).length ≤ 5 := length_encodeVarint_le ..
  simp only [fields, List.length_append, footerSize]
  omega

theorem Typed.decode_encode {f : Footer} (typed : f.Typed) : decode f.encode = .ok f := by
  have whole : f.encode =
      f.fields ++ (List.replicate footerSize 0).take (footerSize - f.fields.length) := by
    rw [encode, List.take_append, List.take_of_length_le typed.length_fields]
  have last (rest : Bytes) : versionAndMagic (putVarint32 1 ++ (putVarint32 kSSTableMagic ++ rest)) =
      some ((1, kSSTableMagic), rest) := by
    have version : 1 < uint32Limit := by decide
    have magic : kSSTableMagic < uint32Limit := by decide
    have yields : Yields versionAndMagic (putVarint32 1 ++ (putVarint32 kSSTableMagic ++ []))
        (1, kSSTableMagic) :=
      (yields_getVarint32 version).bind ((yields_getVarint32 magic).bind (Yields.pure _))
    simpa using yields rest
  rw [whole]
  simp only [fields, List.append_assoc, decode, typed.metaBlock.yields _, typed.indexBlock.yields _,
    typed.bloomBlock.yields _, last, expect_some, bind, Except.bind]
  rfl

end Footer
end TableFile
end Lrdb
