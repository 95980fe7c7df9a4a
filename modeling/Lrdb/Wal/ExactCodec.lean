import Lrdb.Base.Loads
import Lrdb.Wal.Codec

namespace Lrdb
open Loads

/-- `DecodeFixed32` and `DecodeFixed64` of a pointer. -/
def decodeFixedAt (offset n : Nat) : Loading UInt8 Nat := do
  return decodeFixed (← Loading.items offset n)

theorem decodeFixedAt_within {data : Bytes} {offset n : Nat} (inside : offset + n ≤ data.length) :
    (decodeFixedAt offset n).within data = some (decodeFixed ((data.drop offset).take n)) := by
  rw [decodeFixedAt, Loading.within_bind, Loading.within_items inside]
  rfl

theorem staysInside_decodeFixedAt {α : Type} {data : Bytes} {offset n : Nat}
    {g : Nat → Loading UInt8 α} : (decodeFixedAt offset n >>= g).StaysInside data ↔
      offset + n ≤ data.length ∧
        (g (decodeFixed ((data.drop offset).take n))).StaysInside data := by
  rw [Loading.staysInside_bind]
  by_cases inside : offset + n ≤ data.length
  · simp [decodeFixedAt_within inside, inside]
  · have outside : (decodeFixedAt offset n).within data = none := by
      rw [decodeFixedAt, Loading.within_bind, Loading.within_items_outside (Nat.not_le.mp inside)]
      rfl
    simp [outside, inside]

namespace WALRecord
variable {r : WALRecord} {data : Bytes}

/-- `WALRecord::Decode` on an input of this size, load by load. -/
def loading (size : Nat) : Loading UInt8 (Except Status WALRecord) :=
  if size < 33 then return .error (.corruption "WAL record too short")
  else do
    let type ← Loading.items 0 1
    let sequenceNumber ← decodeFixedAt 1 8
    let columnFamilyId ← decodeFixedAt 9 4
    let transactionId ← decodeFixedAt 13 8
    let keyLength ← decodeFixedAt 21 4
    let valueLength ← decodeFixedAt 25 4
    if size ≠ headerLength + keyLength + valueLength + 4 then
      return .error (.corruption "WAL record length mismatch")
    else if size < keyLength ∨ size - keyLength < valueLength then
      return .error (.corruption "WAL record data truncated")
    else
      let key ← Loading.items headerLength keyLength
      let value ← Loading.items (headerLength + keyLength) valueLength
      let crc ← decodeFixedAt (headerLength + keyLength + valueLength) 4
      let r : WALRecord :=
        { type := .ofByte (type.headD 0), sequenceNumber, columnFamilyId, key, value, transactionId }
      if crc ≠ r.calculateCRC.toNat then return .error (.corruption "WAL record CRC mismatch")
      else return .ok r

/-- Every load of the decoder lies in the input, and it finds there what `decode` says. -/
theorem loading_within (data : Bytes) : (loading data.length).within data = some (decode data) := by
  unfold loading decode
  by_cases small : data.length < 33
  · rw [if_pos small, if_pos small]
    rfl
  rw [if_neg small, if_neg small]
  have fixed (offset n : Nat) (fits : offset + n ≤ 33) :
      (decodeFixedAt offset n).within data = some (decodeFixed (field data offset n)) :=
    decodeFixedAt_within (by omega)
  have type : (Loading.items 0 1).within data = some (field data 0 1) :=
    Loading.within_items (by omega)
  simp only [Loading.within_bind, type, fixed 1 8 (by decide), fixed 9 4 (by decide),
    fixed 13 8 (by decide), fixed 21 4 (by decide), fixed 25 4 (by decide), Option.bind_some]
  split
  · rfl
  rename_i whole
  split
  · rfl
  have whole := not_not.mp whole
  have key : (Loading.items headerLength (decodeFixed (field data 21 4))).within data =
      some (field data headerLength (decodeFixed (field data 21 4))) := Loading.within_items (by omega)
  have value : (Loading.items (headerLength + decodeFixed (field data 21 4))
      (decodeFixed (field data 25 4))).within data = some (field data
        (headerLength + decodeFixed (field data 21 4)) (decodeFixed (field data 25 4))) :=
    Loading.within_items (by omega)
  have crc : (decodeFixedAt (headerLength + decodeFixed (field data 21 4) +
      decodeFixed (field data 25 4)) 4).within data = some (decodeFixed (field data
        (headerLength + decodeFixed (field data 21 4) + decodeFixed (field data 25 4)) 4)) :=
    decodeFixedAt_within (by omega)
  simp only [Loading.within_bind, key, value, crc, Option.bind_some]
  have head : (field data 0 1).headD 0 = data.headD 0 := by
    cases data <;> rfl
  rw [head, apply_ite (Loading.within data), apply_ite some]
  rfl

/-! ## What is accepted -/

theorem toByte_ofByte (byte : UInt8) : (WALRecordType.ofByte byte).toByte = byte := by
  unfold WALRecordType.ofByte
  split
  all_goals first
    | rfl
    | rename_i same
      exact UInt8.toNat_inj.mp same.symm

theorem putFixed_field {offset n : Nat} (inside : offset + n ≤ data.length) :
    putFixed n (decodeFixed (field data offset n)) = field data offset n := by
  have length : (field data offset n).length = n := by
    rw [field, List.length_take, List.length_drop]
    omega
  have whole := putFixed_decodeFixed (field data offset n)
  rwa [length] at whole

theorem decodeFixed_field_lt {offset n : Nat} (inside : offset + n ≤ data.length) :
    decodeFixed (field data offset n) < 256 ^ n := by
  have length : (field data offset n).length = n := by
    rw [field, List.length_take, List.length_drop]
    omega
  have bound := decodeFixed_lt (field data offset n)
  rwa [length] at bound

theorem drop_eq_field (offset n : Nat) : data.drop offset = field data offset n ++ data.drop (offset + n) := by
  rw [field, ← List.drop_drop, List.take_append_drop]

theorem decode_ok (decoded : decode data = .ok r) : data = r.encode ∧ r.Typed ∧ r.Short := by
  unfold decode at decoded
  split at decoded
  · cases decoded
  rename_i long
  dsimp only at decoded
  split at decoded
  · cases decoded
  rename_i whole
  split at decoded
  · cases decoded
  split at decoded
  · cases decoded
  rename_i checked
  have whole := not_not.mp whole
  have checked := not_not.mp checked
  have found := Except.ok.inj decoded
  generalize keyLengthIs : decodeFixed (field data 21 4) = keyLength at *
  generalize valueLengthIs : decodeFixed (field data 25 4) = valueLength at *
  have headerIs : headerLength = 29 := rfl
  have key : (field data headerLength keyLength).length = keyLength := by
    rw [field, List.length_take, List.length_drop]
    omega
  have value : (field data (headerLength + keyLength) valueLength).length = valueLength := by
    rw [field, List.length_take, List.length_drop]
    omega
  have keyFits : keyLength < 256 ^ 4 := keyLengthIs ▸ decodeFixed_field_lt (by omega)
  have valueFits : valueLength < 256 ^ 4 := valueLengthIs ▸ decodeFixed_field_lt (by omega)
  have sequence : decodeFixed (field data 1 8) < 256 ^ 8 := decodeFixed_field_lt (by omega)
  have family : decodeFixed (field data 9 4) < 256 ^ 4 := decodeFixed_field_lt (by omega)
  have transaction : decodeFixed (field data 13 8) < 256 ^ 8 := decodeFixed_field_lt (by omega)
  subst found
  refine ⟨?_, ⟨congrArg _ (toByte_ofByte _), sequence, family, transaction⟩,
    ⟨key.trans_lt keyFits, value.trans_lt valueFits⟩⟩
  have first : data = data.headD 0 :: data.drop 1 := by
    cases data with
    | nil => exact absurd (Nat.zero_lt_succ 32) long
    | cons byte rest => rfl
  have last : data.drop (headerLength + keyLength + valueLength) =
      field data (headerLength + keyLength + valueLength) 4 := by
    rw [drop_eq_field _ 4, List.drop_eq_nil_of_le whole.le, List.append_nil]
  have parts : data = data.headD 0 :: (field data 1 8 ++ (field data 9 4 ++ (field data 13 8 ++
      (field data 21 4 ++ (field data 25 4 ++ (field data headerLength keyLength ++
        (field data (headerLength + keyLength) valueLength ++
          field data (headerLength + keyLength + valueLength) 4))))))) := by
    have one : data.drop 1 = field data 1 8 ++ data.drop 9 := drop_eq_field 1 8
    have two : data.drop 9 = field data 9 4 ++ data.drop 13 := drop_eq_field 9 4
    have three : data.drop 13 = field data 13 8 ++ data.drop 21 := drop_eq_field 13 8
    have four : data.drop 21 = field data 21 4 ++ data.drop 25 := drop_eq_field 21 4
    have five : data.drop 25 = field data 25 4 ++ data.drop headerLength := drop_eq_field 25 4
    rw [← last, ← drop_eq_field, ← drop_eq_field, ← five, ← four, ← three, ← two, ← one]
    exact first
  have sequenceBytes : putFixed 8 (decodeFixed (field data 1 8)) = field data 1 8 :=
    putFixed_field (by omega)
  have familyBytes : putFixed 4 (decodeFixed (field data 9 4)) = field data 9 4 :=
    putFixed_field (by omega)
  have transactionBytes : putFixed 8 (decodeFixed (field data 13 8)) = field data 13 8 :=
    putFixed_field (by omega)
  have keyBytes : putFixed 4 keyLength = field data 21 4 := keyLengthIs ▸ putFixed_field (by omega)
  have valueBytes : putFixed 4 valueLength = field data 25 4 :=
    valueLengthIs ▸ putFixed_field (by omega)
  have crcBytes : putFixed 4 (decodeFixed (field data (headerLength + keyLength + valueLength) 4)) =
      field data (headerLength + keyLength + valueLength) 4 := putFixed_field (by omega)
  rw [checked] at crcBytes
  simp only [encode, header, putFixed32, putFixed64, toByte_ofByte, key, value, sequenceBytes,
    familyBytes, transactionBytes, keyBytes, valueBytes, crcBytes, List.append_assoc,
    List.cons_append]
  exact parts

/-- The bytes that decode to a record are its encoding, and all others are refused without a load
outside them. -/
theorem codec_exact (data : Bytes) (r : WALRecord) :
    (decode data = .ok r ↔ data = r.encode ∧ r.Typed ∧ r.Short) ∧
      (loading data.length).StaysInside data ∧
        ∀ memory, Loading.Holds memory data → (loading data.length).run memory = decode data := by
  have within := loading_within data
  refine ⟨⟨decode_ok, ?_⟩, Loading.staysInside_iff.mpr (within ▸ rfl), ?_⟩
  · intro encoded
    rw [encoded.1]
    exact decode_encode encoded.2.1 encoded.2.2
  · intro memory holds
    exact ((Loading.within_eq_some_iff holds).mp within).1

end WALRecord
end Lrdb
