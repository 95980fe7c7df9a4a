import Lrdb.Core.InternalKey
import Lrdb.Util.Hash
import Lrdb.Wal.Record

/-!
# The bytes of a log record

A header of fixed fields, key and value, and a checksum over everything but the two lengths. In the
file four bytes of length precede the record.
-/

namespace Lrdb

namespace WALRecordType

def toByte : WALRecordType → UInt8
  | kPut => 1
  | kDelete => 2
  | kMerge => 3
  | kBeginTransaction => 4
  | kCommitTransaction => 5
  | kAbortTransaction => 6
  | kCheckpoint => 7
  | kFlushMemTable => 8
  | kCreateColumnFamily => 9
  | kDropColumnFamily => 10
  | kUpdateColumnFamilyOptions => 11
  | unknown byte => byte

def ofByte (byte : UInt8) : WALRecordType :=
  match byte.toNat with
  | 1 => kPut
  | 2 => kDelete
  | 3 => kMerge
  | 4 => kBeginTransaction
  | 5 => kCommitTransaction
  | 6 => kAbortTransaction
  | 7 => kCheckpoint
  | 8 => kFlushMemTable
  | 9 => kCreateColumnFamily
  | 10 => kDropColumnFamily
  | 11 => kUpdateColumnFamilyOptions
  | _ => unknown byte

def known : WALRecordType → Bool
  | unknown _ => false
  | _ => true

theorem ofByte_toByte {type : WALRecordType} (known : type.known) : ofByte type.toByte = type := by
  cases type <;> first | rfl | cases known

end WALRecordType

def putFixed32 (value : Nat) : Bytes := putFixed 4 value

@[simp] theorem length_putFixed32 (value : Nat) : (putFixed32 value).length = 4 :=
  length_putFixed ..

namespace WALRecord

def calculateCRC (r : WALRecord) : UInt32 :=
  crc32 (r.type.toByte :: putFixed64 r.sequenceNumber ++ putFixed32 r.columnFamilyId ++
    putFixed64 r.transactionId ++ r.key ++ r.value)

def header (r : WALRecord) : Bytes :=
  r.type.toByte :: putFixed64 r.sequenceNumber ++ putFixed32 r.columnFamilyId ++
    putFixed64 r.transactionId ++ putFixed32 r.key.length ++ putFixed32 r.value.length

def encode (r : WALRecord) : Bytes :=
  r.header ++ r.key ++ r.value ++ putFixed32 r.calculateCRC.toNat

def headerLength : Nat := 1 + 8 + 4 + 8 + 4 + 4

/-- The `n` bytes at an offset. -/
def field (data : Bytes) (offset n : Nat) : Bytes := (data.drop offset).take n

def decode (data : Bytes) : Except Status WALRecord :=
  if data.length < 33 then .error (.corruption "WAL record too short")
  else
    let keyLength := decodeFixed (field data 21 4)
    let valueLength := decodeFixed (field data 25 4)
    if data.length ≠ headerLength + keyLength + valueLength + 4 then
      .error (.corruption "WAL record length mismatch")
    else if data.length < keyLength ∨ data.length - keyLength < valueLength then
      .error (.corruption "WAL record data truncated")
    else
      let r : WALRecord :=
        { type := .ofByte (data.headD 0)
          sequenceNumber := decodeFixed (field data 1 8)
          columnFamilyId := decodeFixed (field data 9 4)
          key := field data headerLength keyLength
          value := field data (headerLength + keyLength) valueLength
          transactionId := decodeFixed (field data 13 8) }
      if decodeFixed (field data (headerLength + keyLength + valueLength) 4) ≠
          r.calculateCRC.toNat then
        .error (.corruption "WAL record CRC mismatch")
      else .ok r

structure Typed (r : WALRecord) : Prop where
  type : WALRecordType.ofByte r.type.toByte = r.type
  sequence : r.sequenceNumber < 2 ^ 64
  columnFamily : r.columnFamilyId < 2 ^ 32
  transaction : r.transactionId < 2 ^ 64

/-- What the writer accepts: fields of the widths the record has, a sequence, and a length within
its limit. -/
structure Valid (r : WALRecord) : Prop where
  type : r.type.known
  sequence : 0 < r.sequenceNumber ∧ r.sequenceNumber < 2 ^ 64
  columnFamily : r.columnFamilyId < 2 ^ 32
  transaction : r.transactionId < 2 ^ 64
  short : r.encodedLength ≤ maxEncodedLength

theorem Valid.typed {r : WALRecord} (valid : r.Valid) : r.Typed where
  type := WALRecordType.ofByte_toByte valid.type
  sequence := valid.sequence.2
  columnFamily := valid.columnFamily
  transaction := valid.transaction

@[simp] theorem length_header (r : WALRecord) : r.header.length = headerLength := by
  simp [header, headerLength, putFixed32, putFixed64]

@[simp] theorem length_encode (r : WALRecord) : r.encode.length = r.encodedLength := by
  simp [encode, encodedLength, headerLength, putFixed32]
  omega

theorem field_at (before here after : Bytes) {data : Bytes} {offset n : Nat}
    (parts : data = before ++ (here ++ after)) (starts : before.length = offset)
    (length : here.length = n) : field data offset n = here := by
  subst parts starts length
  rw [field, List.drop_left, List.take_left]

structure Short (r : WALRecord) : Prop where
  key : r.key.length < 2 ^ 32
  value : r.value.length < 2 ^ 32

theorem short_of_encodedLength {r : WALRecord} (short : r.encodedLength ≤ maxEncodedLength) :
    r.Short := by
  unfold encodedLength maxEncodedLength at short
  exact ⟨by omega, by omega⟩

theorem decode_encode {r : WALRecord} (typed : r.Typed) (short : r.Short) :
    decode r.encode = .ok r := by
  obtain ⟨type, sequence, columnFamily, transaction⟩ := typed
  obtain ⟨keyLimit, valueLimit⟩ := short
  have fixed (n : Nat) {value : Nat} (fits : value < 256 ^ n) :
      decodeFixed (putFixed n value) = value := by
    rw [decodeFixed_putFixed, Nat.mod_eq_of_lt fits]
  let seq := putFixed64 r.sequenceNumber
  let family := putFixed32 r.columnFamilyId
  let txn := putFixed64 r.transactionId
  let keyLength := putFixed32 r.key.length
  let valueLength := putFixed32 r.value.length
  let crc := putFixed32 r.calculateCRC.toNat
  have parts : r.encode = [r.type.toByte] ++ (seq ++ (family ++ (txn ++ (keyLength ++
      (valueLength ++ (r.key ++ (r.value ++ crc))))))) := by
    simp only [encode, header, seq, family, txn, keyLength, valueLength, crc, List.append_assoc,
      List.cons_append, List.nil_append]
  have sequenceField : field r.encode 1 8 = seq := field_at _ _ _ parts rfl (length_putFixed ..)
  have familyField : field r.encode 9 4 = family := field_at ([r.type.toByte] ++ seq) _ _
    (by simp only [parts, List.append_assoc]; rfl) (by simp [seq, putFixed64]) (length_putFixed ..)
  have txnField : field r.encode 13 8 = txn := field_at ([r.type.toByte] ++ seq ++ family) _ _
    (by simp only [parts, List.append_assoc]; rfl) (by simp [seq, family, putFixed64, putFixed32])
    (length_putFixed ..)
  have keyLengthField : field r.encode 21 4 = keyLength :=
    field_at ([r.type.toByte] ++ seq ++ family ++ txn) _ _
      (by simp only [parts, List.append_assoc]; rfl)
      (by simp [seq, family, txn, putFixed64, putFixed32]) (length_putFixed ..)
  have valueLengthField : field r.encode 25 4 = valueLength :=
    field_at ([r.type.toByte] ++ seq ++ family ++ txn ++ keyLength) _ _
      (by simp only [parts, List.append_assoc]; rfl)
      (by simp [seq, family, txn, keyLength, putFixed64, putFixed32]) (length_putFixed ..)
  have keyField : field r.encode headerLength r.key.length = r.key :=
    field_at r.header _ _ (by simp only [encode, List.append_assoc]; rfl) (length_header r) rfl
  have valueField : field r.encode (headerLength + r.key.length) r.value.length = r.value :=
    field_at (r.header ++ r.key) _ _ (by simp only [encode, List.append_assoc]; rfl) (by simp) rfl
  have crcField : field r.encode (headerLength + r.key.length + r.value.length) 4 = crc :=
    field_at (r.header ++ r.key ++ r.value) _ [] (by simp [encode, crc]) (by simp [Nat.add_assoc])
      (length_putFixed ..)
  have typeField : r.encode.headD 0 = r.type.toByte := by rw [parts]; rfl
  have length : r.encode.length = headerLength + r.key.length + r.value.length + 4 := by
    rw [length_encode, encodedLength, headerLength]
  have crcFits : r.calculateCRC.toNat < 256 ^ 4 := r.calculateCRC.toNat_lt
  have keyLengthValue : decodeFixed keyLength = r.key.length := fixed 4 keyLimit
  have valueLengthValue : decodeFixed valueLength = r.value.length := fixed 4 valueLimit
  have sequenceValue : decodeFixed seq = r.sequenceNumber := fixed 8 sequence
  have familyValue : decodeFixed family = r.columnFamilyId := fixed 4 columnFamily
  have txnValue : decodeFixed txn = r.transactionId := fixed 8 transaction
  have crcValue : decodeFixed crc = r.calculateCRC.toNat := fixed 4 crcFits
  have long : ¬ r.encode.length < 33 := by
    rw [length, headerLength]
    omega
  have within : ¬ (r.encode.length < r.key.length ∨
      r.encode.length - r.key.length < r.value.length) := by
    rw [length, headerLength]
    omega
  unfold decode
  rw [if_neg long, keyLengthField, valueLengthField, keyLengthValue, valueLengthValue]
  dsimp only
  rw [if_neg (not_not.mpr length), if_neg within, typeField, sequenceField, familyField, txnField,
    keyField, valueField, crcField, sequenceValue, familyValue, txnValue, crcValue,
    type, if_neg (not_not.mpr rfl)]

theorem decode_error {data : Bytes} {status : Status} (failed : decode data = .error status) :
    status.isIncomplete = false := by
  unfold decode at failed
  dsimp only at failed
  split_ifs at failed <;> cases failed <;> rfl

theorem decode_length {data : Bytes} {r : WALRecord} (decoded : decode data = .ok r) :
    r.encodedLength = data.length := by
  unfold decode at decoded
  split at decoded
  · cases decoded
  dsimp only at decoded
  split at decoded
  · cases decoded
  split at decoded
  · cases decoded
  split at decoded
  · cases decoded
  · rename_i whole _ _
    cases decoded
    have length := not_not.mp whole
    simp only [encodedLength, field, List.length_take, List.length_drop, headerLength] at length ⊢
    omega

end WALRecord
end Lrdb
