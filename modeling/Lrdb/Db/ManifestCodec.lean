import Lrdb.Db.Manifest
import Lrdb.Util.Coding
import Lrdb.Wal.Codec

/-!
# The bytes of a manifest record

A type, a sequence, a payload after its length, and a checksum. The payload of a record is decoded only
when the record is applied. Lengths are added in 32 bits, so a decoder can pass its own check and read
outside its bytes; it then returns nothing.
-/

namespace Lrdb
open Parsing

def stringBytes (s : String) : Bytes := s.toList.map fun c => UInt8.ofNat c.toNat

def stringOfBytes (bytes : Bytes) : String := String.ofList (bytes.map fun b => Char.ofNat b.toNat)

def Narrow (s : String) : Prop := ∀ c ∈ s.toList, c.toNat < 256

instance (s : String) : Decidable (Narrow s) := inferInstanceAs (Decidable (∀ c ∈ s.toList, _))

theorem Narrow.stringOfBytes {s : String} (narrow : Narrow s) :
    stringOfBytes (stringBytes s) = s := by
  rw [Lrdb.stringOfBytes, stringBytes, List.map_map]
  have same : s.toList.map ((fun b : UInt8 => Char.ofNat b.toNat) ∘ fun c => UInt8.ofNat c.toNat) =
      s.toList.map id := by
    apply List.map_congr_left
    intro c member
    rw [Function.comp_apply, UInt8.toNat_ofNat', Nat.mod_eq_of_lt (narrow c member), id]
    exact Char.ofNat_toNat c
  rw [same, List.map_id, String.ofList_toList]

/-! ## Options -/

structure ColumnFamilyOptions where
  comparator : Option Bytes := none
  maxWriteBufferNumber : Int32 := 2
  level0FileNumCompactionTrigger : Int32 := 4
  level0SlowdownWritesTrigger : Int32 := 20
  level0StopWritesTrigger : Int32 := 36
  targetFileSizeBase : UInt64 := 0x4000000
  maxBytesForLevelBase : UInt64 := 0x10000000
  compression : UInt8 := 1
  deriving DecidableEq, Repr

namespace ColumnFamilyOptions

def bytewiseName : Bytes := stringBytes "lrdb.BytewiseComparator"
def reverseBytewiseName : Bytes := stringBytes "lrdb.ReverseBytewiseComparator"

def fixedFields (o : ColumnFamilyOptions) : Bytes :=
  putFixed32 (64 * 1024 * 1024) ++ (putFixed32 o.maxWriteBufferNumber.toUInt32.toNat ++
    (putFixed32 o.level0FileNumCompactionTrigger.toUInt32.toNat ++
      (putFixed32 o.level0SlowdownWritesTrigger.toUInt32.toNat ++
        (putFixed32 o.level0StopWritesTrigger.toUInt32.toNat ++
          (putFixed64 o.targetFileSizeBase.toNat ++
            (putFixed64 o.maxBytesForLevelBase.toNat ++ [o.compression]))))))

def writtenName (o : ColumnFamilyOptions) : Bytes := (o.comparator.getD []).take 255

/-- `EncodeColumnFamilyOptions`. -/
def encode (o : ColumnFamilyOptions) : Bytes :=
  o.fixedFields ++ ([UInt8.ofNat o.writtenName.length] ++ o.writtenName)

def fixedParser (options : ColumnFamilyOptions) : Parser UInt8 ColumnFamilyOptions := do
  let _ ← getFixed32
  let maxWriteBufferNumber ← getFixed32
  let fileNumTrigger ← getFixed32
  let slowdownTrigger ← getFixed32
  let stopTrigger ← getFixed32
  let targetFileSizeBase ← getFixed64
  let maxBytesForLevelBase ← getFixed64
  let compression ← Parser.item
  return { options with
    maxWriteBufferNumber := (UInt32.ofNat maxWriteBufferNumber).toInt32
    level0FileNumCompactionTrigger := (UInt32.ofNat fileNumTrigger).toInt32
    level0SlowdownWritesTrigger := (UInt32.ofNat slowdownTrigger).toInt32
    level0StopWritesTrigger := (UInt32.ofNat stopTrigger).toInt32
    targetFileSizeBase := UInt64.ofNat targetFileSizeBase
    maxBytesForLevelBase := UInt64.ofNat maxBytesForLevelBase
    compression := compression }

def comparatorNamed (name : Bytes) : Bytes :=
  if name = reverseBytewiseName then reverseBytewiseName else bytewiseName

/-- `DecodeColumnFamilyOptions` of the first `size` bytes of what can be read. The fixed fields take
four bytes more than the check asks for. -/
def decode (memory : Bytes) (size : Nat) (options : ColumnFamilyOptions) :
    Option (Except Status ColumnFamilyOptions) :=
  if size < 33 then some (.error (.corruption "ColumnFamilyOptions data too short"))
  else do
    let (options, p) ← fixedParser options memory
    if 37 < size then
      let (nameLength, p) ← Parser.item p
      if 38 + nameLength.toNat ≤ size then
        let (name, _) ← Parser.take nameLength.toNat p
        return .ok { options with comparator := some (comparatorNamed name) }
      else return .ok options
    else return .ok options

def restore (o : ColumnFamilyOptions) : ColumnFamilyOptions :=
  { o with comparator := some (comparatorNamed (o.comparator.getD [])) }

@[simp] theorem length_fixedFields (o : ColumnFamilyOptions) : o.fixedFields.length = 37 := by
  simp [fixedFields, putFixed32, putFixed64]

theorem length_writtenName (o : ColumnFamilyOptions) : o.writtenName.length ≤ 255 :=
  List.length_take_le ..

@[simp] theorem length_encode (o : ColumnFamilyOptions) :
    o.encode.length = 38 + o.writtenName.length := by
  rw [encode, List.length_append, List.length_append, length_fixedFields, List.length_singleton]
  omega

theorem yields_fixedFields (o options : ColumnFamilyOptions) :
    Yields (fixedParser options) o.fixedFields { o with comparator := options.comparator } := by
  have int (i : Int32) : i.toUInt32.toNat < uint32Limit := i.toUInt32.toNat_lt
  have long (i : UInt64) : i.toNat < uint64Limit := i.toNat_lt
  have whole : ({ o with comparator := options.comparator } : ColumnFamilyOptions) =
      { options with
        maxWriteBufferNumber := (UInt32.ofNat o.maxWriteBufferNumber.toUInt32.toNat).toInt32
        level0FileNumCompactionTrigger :=
          (UInt32.ofNat o.level0FileNumCompactionTrigger.toUInt32.toNat).toInt32
        level0SlowdownWritesTrigger :=
          (UInt32.ofNat o.level0SlowdownWritesTrigger.toUInt32.toNat).toInt32
        level0StopWritesTrigger := (UInt32.ofNat o.level0StopWritesTrigger.toUInt32.toNat).toInt32
        targetFileSizeBase := UInt64.ofNat o.targetFileSizeBase.toNat
        maxBytesForLevelBase := UInt64.ofNat o.maxBytesForLevelBase.toNat
        compression := o.compression } := by
    simp
  rw [whole, fixedFields, fixedParser]
  refine (yields_getFixed32 (by decide)).bind ?_
  refine (yields_getFixed32 (int _)).bind ?_
  refine (yields_getFixed32 (int _)).bind ?_
  refine (yields_getFixed32 (int _)).bind ?_
  refine (yields_getFixed32 (int _)).bind ?_
  refine (yields_getFixed64 (long _)).bind ?_
  refine (yields_getFixed64 (long _)).bind ?_
  rw [← List.append_nil [o.compression]]
  exact (Yields.item _).bind (Yields.pure _)

theorem comparatorNamed_writtenName (o : ColumnFamilyOptions) :
    comparatorNamed o.writtenName = comparatorNamed (o.comparator.getD []) := by
  rw [writtenName, comparatorNamed, comparatorNamed]
  by_cases short : (o.comparator.getD []).length ≤ 255
  · rw [List.take_of_length_le short]
  · have cut : (o.comparator.getD []).take 255 ≠ reverseBytewiseName := by
      intro same
      have lengths := congrArg List.length same
      rw [List.length_take_of_le (Nat.le_of_not_le short)] at lengths
      exact absurd lengths (by decide)
    have long : o.comparator.getD [] ≠ reverseBytewiseName := by
      intro same
      rw [same] at short
      exact short (by decide)
    rw [if_neg cut, if_neg long]

theorem decode_encode (o options : ColumnFamilyOptions) (rest : Bytes) :
    decode (o.encode ++ rest) o.encode.length options = some (.ok o.restore) := by
  have fixed := yields_fixedFields o options
    ([UInt8.ofNat o.writtenName.length] ++ (o.writtenName ++ rest))
  have byte : (UInt8.ofNat o.writtenName.length).toNat = o.writtenName.length := by
    rw [UInt8.toNat_ofNat', Nat.mod_eq_of_lt]
    exact Nat.lt_of_le_of_lt o.length_writtenName (by decide)
  have name := Yields.take (B := UInt8) (rfl : o.writtenName.length = _) rest
  have parts : o.encode ++ rest =
      o.fixedFields ++ ([UInt8.ofNat o.writtenName.length] ++ (o.writtenName ++ rest)) := by
    simp only [encode, List.append_assoc]
  rw [decode, length_encode, if_neg (by omega), parts, fixed]
  simp only [Option.bind_eq_bind, Option.bind_some, List.singleton_append, Parser.item]
  rw [if_pos (by omega), byte, if_pos le_rfl, name]
  simp only [Option.bind_some, comparatorNamed_writtenName]
  rfl

def codec : OptionsCodec ColumnFamilyOptions where
  defaults := {}
  restore := restore

end ColumnFamilyOptions

/-! ## Descriptors -/

namespace ColumnFamilyDescriptor

def head (d : ColumnFamilyDescriptor ColumnFamilyOptions) : Bytes :=
  putFixed32 d.id ++ putFixed32 (stringBytes d.name).length

def middle (d : ColumnFamilyDescriptor ColumnFamilyOptions) : Bytes :=
  stringBytes d.name ++ ([if d.isDropped then 1 else 0] ++
    (putFixed64 d.createSequence ++ putFixed64 d.dropSequence))

def encode (d : ColumnFamilyDescriptor ColumnFamilyOptions) : Bytes :=
  d.head ++ (d.middle ++ (putFixed32 d.options.encode.length ++ d.options.encode))

def headParser : Parser UInt8 (Nat × Nat) := do
  let id ← getFixed32
  let nameLength ← getFixed32
  return (id, nameLength)

def middleParser (id nameLength : Nat) :
    Parser UInt8 (ColumnFamilyDescriptor ColumnFamilyOptions) := do
  let name ← Parser.take nameLength
  let dropped ← Parser.item
  let createSequence ← getFixed64
  let dropSequence ← getFixed64
  return { id := id, name := stringOfBytes name, options := {}, isDropped := dropped != 0,
           createSequence := createSequence, dropSequence := dropSequence }

/-- `ColumnFamilyDescriptor::Decode` of a string, behind whose bytes a zero can be read. -/
def decode (data : Bytes) : Option (Except Status (ColumnFamilyDescriptor ColumnFamilyOptions)) :=
  if data.length < 25 then some (.error (.corruption "ColumnFamilyDescriptor data too short"))
  else do
    let ((id, nameLength), p) ← headParser data
    if data.length < (25 + nameLength) % uint32Limit then
      return .error (.corruption "ColumnFamilyDescriptor name length invalid")
    else
      let (descriptor, p) ← middleParser id nameLength p
      if p.length < 4 then
        return .error (.corruption "ColumnFamilyDescriptor options length missing")
      else
        let (optionsLength, p) ← getFixed32 p
        if p.length < optionsLength then
          return .error (.corruption "ColumnFamilyDescriptor options data truncated")
        else
          let found ← ColumnFamilyOptions.decode (p ++ [0]) optionsLength descriptor.options
          return found.map fun options => { descriptor with options := options }

structure Typed (d : ColumnFamilyDescriptor ColumnFamilyOptions) : Prop where
  id : d.id < uint32Limit
  name : Narrow d.name
  createSequence : d.createSequence < uint64Limit
  dropSequence : d.dropSequence < uint64Limit

theorem length_encode_options_lt (o : ColumnFamilyOptions) : o.encode.length < uint32Limit := by
  rw [ColumnFamilyOptions.length_encode]
  have short := o.length_writtenName
  exact Nat.lt_of_le_of_lt (by omega : _ ≤ 293) (by decide)

theorem yields_head {d : ColumnFamilyDescriptor ColumnFamilyOptions} (typed : Typed d)
    (short : (stringBytes d.name).length < uint32Limit) :
    Yields headParser d.head (d.id, (stringBytes d.name).length) := by
  rw [headParser, head]
  refine (yields_getFixed32 typed.id).bind ?_
  rw [← List.append_nil (putFixed32 _)]
  exact (yields_getFixed32 short).bind (Yields.pure _)

theorem yields_middle {d : ColumnFamilyDescriptor ColumnFamilyOptions} (typed : Typed d) :
    Yields (middleParser d.id (stringBytes d.name).length) d.middle { d with options := {} } := by
  have whole : ({ d with options := {} } : ColumnFamilyDescriptor ColumnFamilyOptions) =
      { id := d.id, name := stringOfBytes (stringBytes d.name), options := {},
        isDropped := (if d.isDropped then 1 else 0 : UInt8) != 0,
        createSequence := d.createSequence, dropSequence := d.dropSequence } := by
    rw [typed.name.stringOfBytes]
    cases d.isDropped <;> rfl
  rw [whole, middle, middleParser]
  refine (Yields.take rfl).bind ?_
  refine (Yields.item _).bind ?_
  refine (yields_getFixed64 typed.createSequence).bind ?_
  rw [← List.append_nil (putFixed64 d.dropSequence)]
  exact (yields_getFixed64 typed.dropSequence).bind (Yields.pure _)

@[simp] theorem length_head (d : ColumnFamilyDescriptor ColumnFamilyOptions) : d.head.length = 8 := by
  simp [head, putFixed32]

@[simp] theorem length_middle (d : ColumnFamilyDescriptor ColumnFamilyOptions) :
    d.middle.length = (stringBytes d.name).length + 17 := by
  simp [middle, putFixed64]

theorem length_encode (d : ColumnFamilyDescriptor ColumnFamilyOptions) :
    d.encode.length = 29 + (stringBytes d.name).length + d.options.encode.length := by
  simp only [encode, List.length_append, length_head, length_middle, length_putFixed32]
  omega

theorem decode_encode {d : ColumnFamilyDescriptor ColumnFamilyOptions} (typed : Typed d)
    (short : d.encode.length < uint32Limit) :
    decode d.encode = some (.ok { d with options := d.options.restore }) := by
  have length := d.length_encode
  have nameShort : 25 + (stringBytes d.name).length < uint32Limit := by omega
  have headRead := yields_head typed (by omega)
    (d.middle ++ (putFixed32 d.options.encode.length ++ d.options.encode))
  have middleRead := yields_middle typed (putFixed32 d.options.encode.length ++ d.options.encode)
  have lengthRead := yields_getFixed32 (length_encode_options_lt d.options) d.options.encode
  rw [decode, if_neg (by omega)]
  have parts : d.encode =
      d.head ++ (d.middle ++ (putFixed 4 d.options.encode.length ++ d.options.encode)) := rfl
  have fits : ¬ d.encode.length < (25 + (stringBytes d.name).length) % uint32Limit := by
    rw [Nat.mod_eq_of_lt nameShort]
    omega
  have lengthThere :
      ¬ (putFixed32 d.options.encode.length ++ d.options.encode).length < 4 := by
    rw [List.length_append, length_putFixed32]
    omega
  rw [show headParser d.encode = _ from headRead]
  simp only [Option.bind_eq_bind, Option.bind_some]
  rw [if_neg fits, middleRead]
  simp only [Option.bind_some]
  rw [if_neg lengthThere, show getFixed32 (putFixed32 _ ++ _) = _ from lengthRead]
  simp only [Option.bind_some]
  rw [if_neg (Nat.lt_irrefl _), ColumnFamilyOptions.decode_encode]
  rfl

end ColumnFamilyDescriptor

/-! ## Records -/

structure RawRecord where
  type : UInt8
  sequenceNumber : Nat
  payload : Bytes
  deriving DecidableEq, Repr

namespace RawRecord

def calculateCRC (r : RawRecord) : UInt32 :=
  crc32 (r.type :: putFixed64 r.sequenceNumber ++ r.payload)

def header (r : RawRecord) : Bytes :=
  [r.type] ++ (putFixed64 r.sequenceNumber ++ putFixed32 r.payload.length)

/-- `ManifestRecord::Encode`. -/
def encode (r : RawRecord) : Bytes :=
  r.header ++ (r.payload ++ putFixed32 r.calculateCRC.toNat)

def headerParser : Parser UInt8 (UInt8 × Nat × Nat) := do
  let type ← Parser.item
  let sequenceNumber ← getFixed64
  let payloadLength ← getFixed32
  return (type, sequenceNumber, payloadLength)

def bodyParser (payloadLength : Nat) : Parser UInt8 (Bytes × Nat) := do
  let payload ← Parser.take payloadLength
  let crc ← getFixed32
  return (payload, crc)

/-- `ManifestRecord::Decode`. -/
def decode (data : Bytes) : Option (Except Status RawRecord) :=
  if data.length < 17 then some (.error (.corruption "Manifest record too short"))
  else do
    let ((type, sequenceNumber, payloadLength), p) ← headerParser data
    if p.length < (payloadLength + 4) % uint32Limit then
      return .error (.corruption "Manifest record data truncated")
    else
      let ((payload, crc), _) ← bodyParser payloadLength p
      let r : RawRecord := ⟨type, sequenceNumber, payload⟩
      if crc ≠ r.calculateCRC.toNat then
        return .error (.corruption "Manifest record CRC mismatch")
      else return .ok r

def encodedLength (r : RawRecord) : Nat := 17 + r.payload.length

@[simp] theorem length_header (r : RawRecord) : r.header.length = 13 := by
  simp [header, putFixed32, putFixed64]

@[simp] theorem length_encode (r : RawRecord) : r.encode.length = r.encodedLength := by
  simp [encode, encodedLength, putFixed32]
  omega

theorem yields_header {r : RawRecord} (sequence : r.sequenceNumber < uint64Limit)
    (short : r.payload.length < uint32Limit) :
    Yields headerParser r.header (r.type, r.sequenceNumber, r.payload.length) := by
  rw [headerParser, header]
  refine (Yields.item _).bind ?_
  refine (yields_getFixed64 sequence).bind ?_
  rw [← List.append_nil (putFixed32 _)]
  exact (yields_getFixed32 short).bind (Yields.pure _)

theorem yields_body (r : RawRecord) :
    Yields (bodyParser r.payload.length) (r.payload ++ putFixed32 r.calculateCRC.toNat)
      (r.payload, r.calculateCRC.toNat) := by
  have fits : r.calculateCRC.toNat < uint32Limit := r.calculateCRC.toNat_lt
  rw [bodyParser]
  refine (Yields.take rfl).bind ?_
  rw [← List.append_nil (putFixed32 _)]
  exact (yields_getFixed32 fits).bind (Yields.pure _)

theorem decode_encode {r : RawRecord} (sequence : r.sequenceNumber < uint64Limit)
    (short : r.encodedLength < uint32Limit) : decode r.encode = some (.ok r) := by
  have length := r.length_encode
  unfold encodedLength at short length
  have headerRead := yields_header sequence (by omega)
    (r.payload ++ putFixed32 r.calculateCRC.toNat)
  have bodyRead := yields_body r []
  have fits : ¬ (r.payload ++ putFixed32 r.calculateCRC.toNat).length <
      (r.payload.length + 4) % uint32Limit := by
    rw [Nat.mod_eq_of_lt (by omega), List.length_append, length_putFixed32]
    omega
  rw [List.append_nil] at bodyRead
  rw [decode, if_neg (by omega), show headerParser r.encode = _ from headerRead]
  simp only [Option.bind_eq_bind, Option.bind_some]
  rw [if_neg fits, bodyRead]
  simp only [Option.bind_some]
  rw [if_neg (not_not.mpr rfl)]
  rfl

end RawRecord

namespace ManifestRecord

def raw : ManifestRecord ColumnFamilyOptions → RawRecord
  | createColumnFamily sequence descriptor => ⟨1, sequence, descriptor.encode⟩
  | dropColumnFamily sequence id => ⟨2, sequence, putFixed32 id⟩
  | updateColumnFamilyOptions sequence id options =>
      ⟨3, sequence, putFixed32 id ++ (putFixed32 options.encode.length ++ options.encode)⟩
  | sequenceNumber sequence => ⟨5, sequence, []⟩
  | checkpoint sequence => ⟨6, sequence, []⟩

@[simp] theorem raw_sequence (r : ManifestRecord ColumnFamilyOptions) :
    r.raw.sequenceNumber = r.sequence := by
  cases r <;> rfl

def Typed : ManifestRecord ColumnFamilyOptions → Prop
  | createColumnFamily sequence descriptor => sequence < uint64Limit ∧ descriptor.Typed
  | dropColumnFamily sequence id | updateColumnFamilyOptions sequence id _ =>
      sequence < uint64Limit ∧ id < uint32Limit
  | sequenceNumber sequence | checkpoint sequence => sequence < uint64Limit

theorem Typed.sequence {r : ManifestRecord ColumnFamilyOptions} (typed : r.Typed) :
    r.sequence < uint64Limit := by
  cases r with
  | createColumnFamily | dropColumnFamily | updateColumnFamilyOptions => exact typed.1
  | sequenceNumber | checkpoint => exact typed

end ManifestRecord

namespace DescriptorTable

def applyCreate (table : DescriptorTable ColumnFamilyOptions) (payload : Bytes) :
    Option (DescriptorTable ColumnFamilyOptions) := do
  match ← ColumnFamilyDescriptor.decode payload with
  | .ok descriptor => return table.insert descriptor.id descriptor
  | .error _ => return table

def applyDrop (table : DescriptorTable ColumnFamilyOptions) (sequence : Nat) (payload : Bytes) :
    Option (DescriptorTable ColumnFamilyOptions) := do
  if payload.length < 4 then return table
  else
    let (id, _) ← getFixed32 payload
    match table.lookup id with
    | some descriptor =>
        return table.insert id { descriptor with isDropped := true, dropSequence := sequence }
    | none => return table

def applyUpdate (table : DescriptorTable ColumnFamilyOptions) (payload : Bytes) :
    Option (DescriptorTable ColumnFamilyOptions) := do
  if payload.length < 8 then return table
  else
    let ((id, optionsLength), p) ← ColumnFamilyDescriptor.headParser payload
    if payload.length < (8 + optionsLength) % uint32Limit then return table
    else
      match table.lookup id with
      | some descriptor =>
          match ← ColumnFamilyOptions.decode (p ++ [0]) optionsLength descriptor.options with
          | .ok options => return table.insert id { descriptor with options := options }
          | .error _ => return table
      | none => return table

/-- The switch of `RecoverFromManifestFile`. A payload that does not decode changes nothing. -/
def applyRaw (table : DescriptorTable ColumnFamilyOptions) (r : RawRecord) :
    Option (DescriptorTable ColumnFamilyOptions) :=
  match r.type.toNat with
  | 1 => table.applyCreate r.payload
  | 2 => table.applyDrop r.sequenceNumber r.payload
  | 3 => table.applyUpdate r.payload
  | _ => some table

theorem applyCreate_encode (table : DescriptorTable ColumnFamilyOptions) (sequence : Nat)
    {d : ColumnFamilyDescriptor ColumnFamilyOptions} (typed : d.Typed)
    (short : d.encode.length < uint32Limit) : table.applyCreate d.encode =
      some (table.apply ColumnFamilyOptions.codec (.createColumnFamily sequence d)) := by
  rw [applyCreate, ColumnFamilyDescriptor.decode_encode typed short]
  rfl

theorem applyDrop_putFixed32 (table : DescriptorTable ColumnFamilyOptions) (sequence : Nat) {id : Nat}
    (fits : id < uint32Limit) : table.applyDrop sequence (putFixed32 id) =
      some (table.apply ColumnFamilyOptions.codec (.dropColumnFamily sequence id)) := by
  have read := yields_getFixed32 fits []
  rw [List.append_nil] at read
  rw [applyDrop, length_putFixed32, if_neg (Nat.lt_irrefl _),
    show getFixed32 (putFixed32 id) = _ from read, apply]
  simp only [Option.bind_eq_bind, Option.bind_some]
  cases table.lookup id <;> rfl

theorem applyUpdate_encode (table : DescriptorTable ColumnFamilyOptions) (sequence : Nat) {id : Nat}
    (fits : id < uint32Limit) (o : ColumnFamilyOptions) :
    table.applyUpdate (putFixed32 id ++ (putFixed32 o.encode.length ++ o.encode)) =
      some (table.apply ColumnFamilyOptions.codec (.updateColumnFamilyOptions sequence id o)) := by
  have head : Yields ColumnFamilyDescriptor.headParser
      (putFixed32 id ++ (putFixed32 o.encode.length ++ [])) (id, o.encode.length) :=
    (yields_getFixed32 fits).bind
      ((yields_getFixed32 (ColumnFamilyDescriptor.length_encode_options_lt o)).bind (Yields.pure _))
  have read := head o.encode
  have bound := o.length_writtenName
  have whole : ¬ (putFixed32 id ++ (putFixed32 o.encode.length ++ o.encode)).length <
      (8 + o.encode.length) % uint32Limit := by
    have small : 8 + o.encode.length < uint32Limit := by
      rw [ColumnFamilyOptions.length_encode]
      exact Nat.lt_of_le_of_lt (by omega : _ ≤ 301) (by decide)
    rw [Nat.mod_eq_of_lt small, List.length_append, List.length_append, length_putFixed32,
      length_putFixed32]
    omega
  have long : ¬ (putFixed32 id ++ (putFixed32 o.encode.length ++ o.encode)).length < 8 := by
    rw [List.length_append, List.length_append, length_putFixed32, length_putFixed32]
    omega
  rw [List.append_nil, List.append_assoc] at read
  rw [applyUpdate, if_neg long, read, apply]
  simp only [Option.bind_eq_bind, Option.bind_some]
  rw [if_neg whole]
  cases table.lookup id with
  | none => rfl
  | some descriptor =>
      dsimp only
      rw [ColumnFamilyOptions.decode_encode]
      rfl

theorem applyRaw_raw (table : DescriptorTable ColumnFamilyOptions)
    {r : ManifestRecord ColumnFamilyOptions} (typed : r.Typed)
    (short : r.raw.encodedLength < uint32Limit) :
    table.applyRaw r.raw = some (table.apply ColumnFamilyOptions.codec r) := by
  cases r with
  | createColumnFamily sequence descriptor =>
      have payload : descriptor.encode.length < uint32Limit :=
        Nat.lt_of_le_of_lt (Nat.le_add_left ..) short
      exact table.applyCreate_encode sequence typed.2 payload
  | dropColumnFamily sequence id => exact table.applyDrop_putFixed32 sequence typed.2
  | updateColumnFamilyOptions sequence id options =>
      exact table.applyUpdate_encode sequence typed.2 options
  | sequenceNumber sequence => rfl
  | checkpoint sequence => rfl

end DescriptorTable
end Lrdb
