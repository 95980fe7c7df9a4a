import Lrdb.Util.Crc32
import Lrdb.Wal.ExactCodec

namespace Lrdb

structure WALHeader where
  type : UInt8
  sequenceNumber : Nat
  columnFamilyId : Nat
  transactionId : Nat
  keyLength : Nat
  valueLength : Nat
  deriving DecidableEq, Repr

inductive HeaderField where
  | type | sequenceNumber | columnFamilyId | transactionId | keyLength | valueLength
  deriving DecidableEq, Repr

def HeaderField.size : HeaderField → Nat
  | type => 1
  | sequenceNumber => 8
  | columnFamilyId => 4
  | transactionId => 8
  | keyLength => 4
  | valueLength => 4

namespace WALHeader

def get (h : WALHeader) : HeaderField → Nat
  | .type => h.type.toNat
  | .sequenceNumber => h.sequenceNumber
  | .columnFamilyId => h.columnFamilyId
  | .transactionId => h.transactionId
  | .keyLength => h.keyLength
  | .valueLength => h.valueLength

def set (h : WALHeader) (field : HeaderField) (value : Nat) : WALHeader :=
  match field with
  | .type => { h with type := UInt8.ofNat value }
  | .sequenceNumber => { h with sequenceNumber := value }
  | .columnFamilyId => { h with columnFamilyId := value }
  | .transactionId => { h with transactionId := value }
  | .keyLength => { h with keyLength := value }
  | .valueLength => { h with valueLength := value }

def bytes (h : WALHeader) : Bytes :=
  h.type :: putFixed64 h.sequenceNumber ++ putFixed32 h.columnFamilyId ++
    putFixed64 h.transactionId ++ putFixed32 h.keyLength ++ putFixed32 h.valueLength

structure Fits (h : WALHeader) : Prop where
  sequenceNumber : h.sequenceNumber < 256 ^ 8
  columnFamilyId : h.columnFamilyId < 256 ^ 4
  transactionId : h.transactionId < 256 ^ 8
  keyLength : h.keyLength < 256 ^ 4
  valueLength : h.valueLength < 256 ^ 4

def covered (h : WALHeader) (body : Bytes) : Bytes :=
  putFixed 1 h.type.toNat ++ (putFixed 8 h.sequenceNumber ++ (putFixed 4 h.columnFamilyId ++
    (putFixed 8 h.transactionId ++ body)))

/-- A change of at most 32 consecutive bits of a field, or of the boundary between key and value. -/
inductive Change (h : WALHeader) : WALHeader → Prop
  | burst (field : HeaderField) {value : Nat} (fits : value < 256 ^ field.size)
      (different : h.get field ≠ value)
      (window : ∃ s, ∀ i, (h.get field).testBit i ≠ value.testBit i → s ≤ i ∧ i < s + 32) :
      Change h (h.set field value)
  | boundary {keyLength valueLength : Nat} (keyFits : keyLength < 256 ^ 4)
      (valueFits : valueLength < 256 ^ 4) (different : keyLength ≠ h.keyLength)
      (total : keyLength + valueLength = h.keyLength + h.valueLength) :
      Change h { h with keyLength := keyLength, valueLength := valueLength }

end WALHeader

/-! ## Bits of a number -/

theorem putFixed_injective {n a b : Nat} (aFits : a < 256 ^ n) (bFits : b < 256 ^ n)
    (same : putFixed n a = putFixed n b) : a = b := by
  have numbers := congrArg decodeFixed same
  rwa [decodeFixed_putFixed, decodeFixed_putFixed, Nat.mod_eq_of_lt aFits,
    Nat.mod_eq_of_lt bFits] at numbers

theorem bytesBits_putFixed (n value : Nat) :
    bytesBits (putFixed n value) = (List.range (8 * n)).map value.testBit := by
  induction n generalizing value with
  | zero => rfl
  | succ n ih =>
      have low : byteBits (UInt8.ofNat value) = (List.range 8).map value.testBit := by
        apply List.map_congr_left
        intro i small
        have mod : (UInt8.ofNat value).toNat = value % 2 ^ 8 := UInt8.toNat_ofNat'
        rw [mod, Nat.testBit_mod_two_pow, decide_eq_true (List.mem_range.mp small), Bool.true_and]
      have high (i : Nat) : (value / 256).testBit i = value.testBit (8 + i) := by
        have whole : (value / 2 ^ 8).testBit i = value.testBit (i + 8) := Nat.testBit_div_two_pow ..
        rw [Nat.add_comm]
        exact whole
      have split : 8 * (n + 1) = 8 + 8 * n := by omega
      rw [putFixed, bytesBits, List.flatMap_cons, split, List.range_add, List.map_append, low]
      congr 1
      refine (ih (value / 256)).trans ?_
      rw [List.map_map]
      exact List.map_congr_left fun i _ => high i

theorem burst_putFixed {n a b : Nat} (aFits : a < 256 ^ n) (bFits : b < 256 ^ n) (different : a ≠ b)
    (window : ∃ s, ∀ i, a.testBit i ≠ b.testBit i → s ≤ i ∧ i < s + 32) :
    Burst (putFixed n a) (putFixed n b) where
  length := by rw [length_putFixed, length_putFixed]
  different same := different (putFixed_injective aFits bFits same)
  window := by
    obtain ⟨s, inside⟩ := window
    refine ⟨s, fun i bits => inside i fun same => bits ?_⟩
    rw [bytesBits_putFixed, bytesBits_putFixed, List.getElem?_map, List.getElem?_map]
    cases here : (List.range (8 * n))[i]? with
    | none => rfl
    | some j =>
        obtain ⟨small, rfl⟩ := List.getElem?_eq_some_iff.mp here
        simpa using same

/-! ## What the decoder says to a change -/

namespace WALHeader

theorem bytes_injective {h h' : WALHeader} (fits : h.Fits) (fits' : h'.Fits)
    (same : h.bytes = h'.bytes) : h = h' := by
  simp only [bytes, putFixed64, putFixed32, List.cons_append, List.append_assoc,
    List.cons.injEq] at same
  obtain ⟨type, same⟩ := same
  obtain ⟨sequence, same⟩ := List.append_inj same (by simp)
  obtain ⟨family, same⟩ := List.append_inj same (by simp)
  obtain ⟨transaction, same⟩ := List.append_inj same (by simp)
  obtain ⟨key, value⟩ := List.append_inj same (by simp)
  have sequence := putFixed_injective fits.sequenceNumber fits'.sequenceNumber sequence
  have family := putFixed_injective fits.columnFamilyId fits'.columnFamilyId family
  have transaction := putFixed_injective fits.transactionId fits'.transactionId transaction
  have key := putFixed_injective fits.keyLength fits'.keyLength key
  have value := putFixed_injective fits.valueLength fits'.valueLength value
  cases h
  cases h'
  simp_all only

theorem length_bytes (h : WALHeader) : h.bytes.length = WALRecord.headerLength := by
  simp [bytes, putFixed64, putFixed32, WALRecord.headerLength]

theorem crc32_covered_ne {h : WALHeader} (fits : h.Fits) {field : HeaderField} {value : Nat}
    (valueFits : value < 256 ^ field.size) (different : h.get field ≠ value)
    (window : ∃ s, ∀ i, (h.get field).testBit i ≠ value.testBit i → s ≤ i ∧ i < s + 32)
    (key : field ≠ .keyLength) (length : field ≠ .valueLength) (body : Bytes) :
    crc32 (h.covered body) ≠ crc32 ((h.set field value).covered body) := by
  cases field with
  | keyLength => exact absurd rfl key
  | valueLength => exact absurd rfl length
  | type =>
      have byte : (UInt8.ofNat value).toNat = value := by
        rw [UInt8.toNat_ofNat']
        exact Nat.mod_eq_of_lt valueFits
      have burst := burst_putFixed (h.type.toNat_lt) valueFits different window
      simp only [covered, set, byte]
      exact crc32_ne_of_burst burst [] _
  | sequenceNumber =>
      have burst := burst_putFixed fits.sequenceNumber valueFits different window
      exact crc32_ne_of_burst burst _ _
  | columnFamilyId =>
      have burst := burst_putFixed fits.columnFamilyId valueFits different window
      simp only [covered, set, ← List.append_assoc (putFixed 1 _)]
      exact crc32_ne_of_burst burst _ _
  | transactionId =>
      have burst := burst_putFixed fits.transactionId valueFits different window
      simp only [covered, set, ← List.append_assoc (putFixed 1 _), ← List.append_assoc (_ ++ putFixed 8 _)]
      exact crc32_ne_of_burst burst _ _

end WALHeader

namespace WALRecord
variable {r r' : WALRecord} {h : WALHeader}

def walHeader (r : WALRecord) : WALHeader :=
  { type := r.type.toByte, sequenceNumber := r.sequenceNumber, columnFamilyId := r.columnFamilyId,
    transactionId := r.transactionId, keyLength := r.key.length, valueLength := r.value.length }

def altered (r : WALRecord) (h : WALHeader) : Bytes :=
  h.bytes ++ ((r.key ++ r.value) ++ putFixed32 r.calculateCRC.toNat)

theorem fits_walHeader (typed : r.Typed) (short : r.Short) : r.walHeader.Fits where
  sequenceNumber := typed.sequence
  columnFamilyId := typed.columnFamily
  transactionId := typed.transaction
  keyLength := short.key
  valueLength := short.value

theorem encode_eq_altered (r : WALRecord) : r.encode = r.altered r.walHeader := by
  simp only [encode, altered, List.append_assoc]
  rfl

theorem calculateCRC_eq (r : WALRecord) :
    r.calculateCRC = crc32 (r.walHeader.covered (r.key ++ r.value)) := by
  have byte : putFixed 1 r.type.toByte.toNat = [r.type.toByte] := by simp [putFixed]
  rw [calculateCRC, WALHeader.covered]
  congr 1
  simp only [walHeader, byte, putFixed64, putFixed32, List.cons_append, List.nil_append,
    List.append_assoc]

structure Reread (r : WALRecord) (h : WALHeader) (r' : WALRecord) : Prop where
  header : r'.walHeader = h
  body : r'.key ++ r'.value = r.key ++ r.value
  crc : r'.calculateCRC = r.calculateCRC

theorem reread_of_decode (fits : h.Fits) (decoded : decode (r.altered h) = .ok r') :
    Reread r h r' := by
  obtain ⟨encoded, typed, short⟩ := decode_ok decoded
  rw [encode_eq_altered, altered, altered] at encoded
  obtain ⟨headers, rest⟩ := List.append_inj encoded (by simp [WALHeader.length_bytes])
  obtain ⟨bodies, sums⟩ := List.append_inj' rest (by simp)
  have crc := putFixed_injective r.calculateCRC.toNat_lt r'.calculateCRC.toNat_lt sums
  exact ⟨(WALHeader.bytes_injective fits (fits_walHeader typed short) headers).symm, bodies.symm,
    (UInt32.toNat_inj.mp crc).symm⟩

theorem fits_of_change (fits : r.walHeader.Fits) (change : r.walHeader.Change h) : h.Fits := by
  cases change with
  | burst field valueFits =>
      cases field with
      | type => exact { fits with }
      | sequenceNumber => exact { fits with sequenceNumber := valueFits }
      | columnFamilyId => exact { fits with columnFamilyId := valueFits }
      | transactionId => exact { fits with transactionId := valueFits }
      | keyLength => exact { fits with keyLength := valueFits }
      | valueLength => exact { fits with valueLength := valueFits }
  | boundary keyFits valueFits => exact { fits with keyLength := keyFits, valueLength := valueFits }

theorem Reread.total (reread : Reread r h r') :
    h.keyLength + h.valueLength = r.key.length + r.value.length := by
  have lengths := congrArg List.length reread.body
  rw [List.length_append, List.length_append] at lengths
  rw [← reread.header]
  exact lengths

theorem not_reread_burst (typed : r.Typed) (short : r.Short) {field : HeaderField} {value : Nat}
    (valueFits : value < 256 ^ field.size) (different : r.walHeader.get field ≠ value)
    (window : ∃ s, ∀ i, (r.walHeader.get field).testBit i ≠ value.testBit i → s ≤ i ∧ i < s + 32) :
    ¬ Reread r (r.walHeader.set field value) r' := by
  intro reread
  have total := reread.total
  by_cases key : field = .keyLength
  · subst key
    have same : value = r.key.length := Nat.add_right_cancel total
    exact different same.symm
  by_cases length : field = .valueLength
  · subst length
    have same : value = r.value.length := Nat.add_left_cancel total
    exact different same.symm
  have sums := WALHeader.crc32_covered_ne (fits_walHeader typed short) valueFits different window
    key length (r.key ++ r.value)
  apply sums
  rw [← calculateCRC_eq, ← reread.crc, calculateCRC_eq r', reread.header, reread.body]

def splitAt (r : WALRecord) (keyLength : Nat) : WALRecord :=
  { r with
    key := (r.key ++ r.value).take keyLength
    value := (r.key ++ r.value).drop keyLength }

theorem decode_boundary (typed : r.Typed) {keyLength valueLength : Nat}
    (keyFits : keyLength < 256 ^ 4) (valueFits : valueLength < 256 ^ 4)
    (total : keyLength + valueLength = r.key.length + r.value.length) :
    decode (r.altered { r.walHeader with keyLength := keyLength, valueLength := valueLength }) =
      .ok (r.splitAt keyLength) := by
  have body : (r.splitAt keyLength).key ++ (r.splitAt keyLength).value = r.key ++ r.value :=
    List.take_append_drop ..
  have key : (r.splitAt keyLength).key.length = keyLength := by
    rw [splitAt, List.length_take, List.length_append]
    omega
  have value : (r.splitAt keyLength).value.length = valueLength := by
    rw [splitAt, List.length_drop, List.length_append]
    omega
  have header : (r.splitAt keyLength).walHeader =
      { r.walHeader with keyLength := keyLength, valueLength := valueLength } := by
    rw [walHeader, key, value]
    rfl
  have crc : (r.splitAt keyLength).calculateCRC = r.calculateCRC := by
    rw [calculateCRC_eq, calculateCRC_eq r, body]
    rfl
  have same : r.altered { r.walHeader with keyLength := keyLength, valueLength := valueLength } =
      (r.splitAt keyLength).encode := by
    rw [encode_eq_altered, altered, altered, header, body, crc]
  rw [same]
  exact decode_encode ⟨typed.type, typed.sequence, typed.columnFamily, typed.transaction⟩
    ⟨key.trans_lt keyFits, value.trans_lt valueFits⟩

/-- The key has another length, and the value makes up for it. -/
def BoundaryMoved (r : WALRecord) (h : WALHeader) : Prop :=
  h.keyLength ≠ r.key.length ∧ h.keyLength + h.valueLength = r.key.length + r.value.length

instance (r : WALRecord) (h : WALHeader) : Decidable (r.BoundaryMoved h) := by
  unfold BoundaryMoved; infer_instance

theorem not_boundaryMoved_set {field : HeaderField} {value : Nat}
    (different : r.walHeader.get field ≠ value) :
    ¬ r.BoundaryMoved (r.walHeader.set field value) := by
  intro moved
  cases field with
  | keyLength => exact different (Nat.add_right_cancel moved.2).symm
  | type | sequenceNumber | columnFamilyId | transactionId | valueLength => exact moved.1 rfl

/-- A change of the header is refused exactly if it does not move the boundary. -/
theorem change_refused_iff (typed : r.Typed) (short : r.Short) (change : r.walHeader.Change h) :
    (∃ status, decode (r.altered h) = .error status) ↔ ¬ r.BoundaryMoved h := by
  have changed := fits_of_change (fits_walHeader typed short) change
  cases change with
  | @burst field value valueFits different window =>
      refine iff_of_true ?_ (not_boundaryMoved_set different)
      cases decoded : decode (r.altered (r.walHeader.set field value)) with
      | error status => exact ⟨status, rfl⟩
      | ok r' =>
          exact absurd (reread_of_decode changed decoded)
            (not_reread_burst typed short valueFits different window)
  | boundary keyFits valueFits different total =>
      refine iff_of_false ?_ (not_not.mpr ⟨different, total⟩)
      intro refused
      obtain ⟨status, refused⟩ := refused
      rw [decode_boundary typed keyFits valueFits total] at refused
      cases refused

/-- Puts the value `3` under the key `1 2`. -/
def twoByteKey : WALRecord := { sequenceNumber := 1, key := [1, 2], value := [3] }

theorem typed_twoByteKey : twoByteKey.Typed := ⟨rfl, by decide, by decide, by decide⟩

theorem short_twoByteKey : twoByteKey.Short := ⟨by decide, by decide⟩

theorem change_refused_otherFamily :
    ∃ status, decode (twoByteKey.altered (twoByteKey.walHeader.set .columnFamilyId 1)) = .error status := by
  have window : ∃ s, ∀ i, (twoByteKey.walHeader.get .columnFamilyId).testBit i ≠ (1 : Nat).testBit i →
      s ≤ i ∧ i < s + 32 := by
    refine ⟨0, fun i bits => ⟨Nat.zero_le i, ?_⟩⟩
    by_contra past
    apply bits
    have large : 1 < 2 ^ i := Nat.one_lt_two_pow (by omega)
    rw [Nat.testBit_lt_two_pow large]
    exact Nat.zero_testBit i
  exact (change_refused_iff typed_twoByteKey short_twoByteKey
    (.burst .columnFamilyId (by decide) (by decide) window)).mpr (by decide)

/-- The record is replayed with the key `1` and the value `2 3`. -/
theorem change_accepted_shorterKey :
    ¬ ∀ (r : WALRecord) (h : WALHeader), r.Typed → r.Short → r.walHeader.Change h →
      ∃ status, decode (r.altered h) = .error status := by
  intro always
  have total : 1 + 2 = twoByteKey.key.length + twoByteKey.value.length := rfl
  obtain ⟨status, refused⟩ := always twoByteKey _ typed_twoByteKey short_twoByteKey
    (.boundary (by decide) (by decide) (by decide) total)
  rw [decode_boundary typed_twoByteKey (by decide) (by decide) total] at refused
  cases refused

end WALRecord
end Lrdb
