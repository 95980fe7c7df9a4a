import Lrdb.Db.ManifestCodec
import Lrdb.Wal.ExactCodec

/-!
# What the manifest decoders read

The decoders of the manifest load their fields from pointers. They add constants to lengths of 32 bits,
and the sum can be smaller than the length; and the options are asked for four bytes less than they
take.
-/

namespace Lrdb
open Loads

def numberAt (data : Bytes) (offset n : Nat) : Nat := decodeFixed ((data.drop offset).take n)

theorem numberAt_lt (data : Bytes) (offset n : Nat) : numberAt data offset n < 256 ^ n := by
  have bound := decodeFixed_lt ((data.drop offset).take n)
  exact bound.trans_le (Nat.pow_le_pow_right (by decide) (List.length_take_le ..))

theorem numberAt_one (data : Bytes) (offset : Nat) :
    numberAt data offset 1 = (((data.drop offset).take 1).headD 0).toNat := by
  unfold numberAt
  cases data.drop offset with
  | nil => rfl
  | cons byte rest => simp [decodeFixed]

theorem decodeFixedAt_numberAt {data : Bytes} {offset n : Nat} (inside : offset + n ≤ data.length) :
    (decodeFixedAt offset n).within data = some (numberAt data offset n) :=
  decodeFixedAt_within inside

theorem decodeFixedAt_outside {data : Bytes} {offset n : Nat} (outside : data.length < offset + n) :
    (decodeFixedAt offset n).within data = none := by
  rw [decodeFixedAt, Loading.within_bind, Loading.within_items_outside outside]
  rfl

/-! ## Parsers behind an offset -/

section Parsers
open Parsing
variable {data : Bytes} {offset n : Nat}

theorem parser_bind {α β : Type} (p : Parser UInt8 α) (f : α → Parser UInt8 β) (input : Bytes) :
    (p >>= f) input = (p input).bind fun found => f found.1 found.2 := rfl

theorem parser_bind_some {α β : Type} {p : Parser UInt8 α} {f : α → Parser UInt8 β}
    {input rest : Bytes} {a : α} (found : p input = some (a, rest)) : (p >>= f) input = f a rest := by
  rw [parser_bind, found]
  rfl

theorem within_bind_some {α β : Type} {c : Loading UInt8 α} {f : α → Loading UInt8 β} {a : α}
    (found : c.within data = some a) : (c >>= f).within data = (f a).within data := by
  rw [Loading.within_bind, found]
  rfl

theorem parser_pure {α : Type} (a : α) (input : Bytes) :
    (pure a : Parser UInt8 α) input = some (a, input) := rfl

theorem take_drop (inside : offset + n ≤ data.length) : Parser.take n (data.drop offset) =
    some ((data.drop offset).take n, data.drop (offset + n)) := by
  rw [Parser.take, if_pos (by rw [List.length_drop]; omega), List.drop_drop]

theorem take_drop_outside (outside : data.length < offset + n) (start : offset ≤ data.length) :
    Parser.take n (data.drop offset) = none := by
  rw [Parser.take, if_neg (by rw [List.length_drop]; omega)]

theorem getFixed32_drop (inside : offset + 4 ≤ data.length) : getFixed32 (data.drop offset) =
    some (numberAt data offset 4, data.drop (offset + 4)) := by
  simp only [getFixed32, parser_bind, take_drop inside, Option.bind_some, parser_pure, numberAt]

theorem getFixed32_drop_outside (outside : data.length < offset + 4) (start : offset ≤ data.length) :
    getFixed32 (data.drop offset) = none := by
  simp only [getFixed32, parser_bind, take_drop_outside outside start, Option.bind_none]

theorem getFixed64_drop (inside : offset + 8 ≤ data.length) : getFixed64 (data.drop offset) =
    some (numberAt data offset 8, data.drop (offset + 8)) := by
  simp only [getFixed64, parser_bind, take_drop inside, Option.bind_some, parser_pure, numberAt]

theorem item_drop (inside : offset + 1 ≤ data.length) : Parser.item (data.drop offset) =
    some (((data.drop offset).take 1).headD 0, data.drop (offset + 1)) := by
  rw [← List.drop_drop]
  cases here : data.drop offset with
  | nil =>
      have length := congrArg List.length here
      rw [List.length_drop, List.length_nil] at length
      omega
  | cons b rest => rfl

end Parsers

namespace RawRecord

/-- `ManifestRecord::Decode` on an input of this size, load by load. -/
def loading (size : Nat) : Loading UInt8 (Except Status RawRecord) :=
  if size < 17 then return .error (.corruption "Manifest record too short")
  else do
    let type ← Loading.items 0 1
    let sequenceNumber ← decodeFixedAt 1 8
    let payloadLength ← decodeFixedAt 9 4
    if size - 13 < (payloadLength + 4) % uint32Limit then
      return .error (.corruption "Manifest record data truncated")
    else
      let payload ← Loading.items 13 payloadLength
      let crc ← decodeFixedAt (13 + payloadLength) 4
      let r : RawRecord := ⟨type.headD 0, sequenceNumber, payload⟩
      if crc ≠ r.calculateCRC.toNat then
        return .error (.corruption "Manifest record CRC mismatch")
      else return .ok r

/-- The length of the payload and four more do not overflow, or the payload is there. -/
def LengthFits (data : Bytes) : Prop :=
  data.length < 17 ∨ numberAt data 9 4 + 4 < uint32Limit ∨ 17 + numberAt data 9 4 ≤ data.length

theorem loading_staysInside_iff (data : Bytes) :
    (loading data.length).StaysInside data ↔ LengthFits data := by
  have limit := numberAt_lt data 9 4
  unfold loading LengthFits
  simp only [Loading.staysInside_ite, Loading.staysInside_items, staysInside_decodeFixedAt,
    Loading.staysInside_pure]
  rw [← numberAt]
  simp only [implies_true, true_and, and_true]
  unfold uint32Limit
  omega

theorem headerParser_eq {data : Bytes} (long : 17 ≤ data.length) : headerParser (data.drop 0) =
    some (((((data.drop 0).take 1).headD 0, numberAt data 1 8, numberAt data 9 4)), data.drop 13) := by
  simp (disch := omega) only [headerParser, parser_bind, item_drop, getFixed64_drop, getFixed32_drop,
    Option.bind_some, parser_pure]

theorem bodyParser_eq {data : Bytes} {n : Nat} (long : 13 ≤ data.length) :
    bodyParser n (data.drop 13) = if 13 + n + 4 ≤ data.length then
      some (((data.drop 13).take n, numberAt data (13 + n) 4), data.drop (13 + n + 4)) else none := by
  split
  · simp (disch := omega) only [bodyParser, parser_bind, take_drop, getFixed32_drop, Option.bind_some,
      parser_pure]
  · by_cases payload : 13 + n ≤ data.length
    · simp (disch := omega) only [bodyParser, parser_bind, take_drop, getFixed32_drop_outside,
        Option.bind_some, Option.bind_none]
    · simp (disch := omega) only [bodyParser, parser_bind, take_drop_outside, Option.bind_none]

theorem decode_eq_within (data : Bytes) : decode data = (loading data.length).within data := by
  unfold decode loading
  by_cases small : data.length < 17
  · rw [if_pos small, if_pos small]
    rfl
  have header : headerParser data = some ((((data.drop 0).take 1).headD 0, numberAt data 1 8,
      numberAt data 9 4), data.drop 13) := headerParser_eq (Nat.not_lt.mp small)
  rw [if_neg small, if_neg small, header]
  simp (disch := omega) only [Option.bind_eq_bind, Option.bind_some, Loading.within_bind,
    Loading.within_items, decodeFixedAt_numberAt, List.length_drop, List.drop_zero]
  split
  · rfl
  rw [bodyParser_eq (by omega)]
  split
  · simp (disch := omega) only [Option.bind_some, Loading.within_bind, Loading.within_items,
      decodeFixedAt_numberAt]
    rw [apply_ite (Loading.within data)]
    rfl
  · by_cases payload : 13 + numberAt data 9 4 ≤ data.length
    · simp (disch := omega) only [Option.bind_some, Option.bind_none, Loading.within_bind,
        Loading.within_items, decodeFixedAt_outside]
    · simp (disch := omega) only [Option.bind_none, Loading.within_bind, Loading.within_items_outside]

end RawRecord

namespace ColumnFamilyOptions

def withFields (options : ColumnFamilyOptions) (maxWriteBufferNumber fileNumTrigger slowdownTrigger
    stopTrigger targetFileSizeBase maxBytesForLevelBase : Nat) (compression : UInt8) :
    ColumnFamilyOptions :=
  { options with
    maxWriteBufferNumber := (UInt32.ofNat maxWriteBufferNumber).toInt32
    level0FileNumCompactionTrigger := (UInt32.ofNat fileNumTrigger).toInt32
    level0SlowdownWritesTrigger := (UInt32.ofNat slowdownTrigger).toInt32
    level0StopWritesTrigger := (UInt32.ofNat stopTrigger).toInt32
    targetFileSizeBase := UInt64.ofNat targetFileSizeBase
    maxBytesForLevelBase := UInt64.ofNat maxBytesForLevelBase
    compression := compression }

def fixedLoading (offset : Nat) (options : ColumnFamilyOptions) :
    Loading UInt8 ColumnFamilyOptions := do
  let _ ← decodeFixedAt offset 4
  let maxWriteBufferNumber ← decodeFixedAt (offset + 4) 4
  let fileNumTrigger ← decodeFixedAt (offset + 8) 4
  let slowdownTrigger ← decodeFixedAt (offset + 12) 4
  let stopTrigger ← decodeFixedAt (offset + 16) 4
  let targetFileSizeBase ← decodeFixedAt (offset + 20) 8
  let maxBytesForLevelBase ← decodeFixedAt (offset + 28) 8
  let compression ← Loading.items (offset + 36) 1
  return options.withFields maxWriteBufferNumber fileNumTrigger slowdownTrigger stopTrigger
    targetFileSizeBase maxBytesForLevelBase (compression.headD 0)

/-- `DecodeColumnFamilyOptions` of the slice at this offset, load by load. -/
def loading (offset size : Nat) (options : ColumnFamilyOptions) :
    Loading UInt8 (Except Status ColumnFamilyOptions) :=
  if size < 33 then return .error (.corruption "ColumnFamilyOptions data too short")
  else do
    let options ← fixedLoading offset options
    if 37 < size then
      let nameLength ← decodeFixedAt (offset + 37) 1
      if 38 + nameLength ≤ size then
        let name ← Loading.items (offset + 38) nameLength
        return .ok { options with comparator := some (comparatorNamed name) }
      else return .ok options
    else return .ok options

def Fits (data : Bytes) (offset size : Nat) : Prop :=
  size < 33 ∨ offset + 37 ≤ data.length ∧ (size ≤ 37 ∨ offset + 38 ≤ data.length ∧
    (size < 38 + numberAt data (offset + 37) 1 ∨
      offset + 38 + numberAt data (offset + 37) 1 ≤ data.length))

def fixedFieldsAt (data : Bytes) (offset : Nat) (options : ColumnFamilyOptions) :
    ColumnFamilyOptions :=
  options.withFields (numberAt data (offset + 4) 4) (numberAt data (offset + 8) 4)
    (numberAt data (offset + 12) 4) (numberAt data (offset + 16) 4) (numberAt data (offset + 20) 8)
    (numberAt data (offset + 28) 8) (((data.drop (offset + 36)).take 1).headD 0)

theorem fixedParser_drop {data : Bytes} {offset : Nat} (options : ColumnFamilyOptions)
    (inside : offset + 37 ≤ data.length) : fixedParser options (data.drop offset) =
      some (fixedFieldsAt data offset options, data.drop (offset + 37)) := by
  unfold fixedParser
  rw [parser_bind_some (getFixed32_drop (by omega)), parser_bind_some (getFixed32_drop (by omega)),
    parser_bind_some (getFixed32_drop (by omega)), parser_bind_some (getFixed32_drop (by omega)),
    parser_bind_some (getFixed32_drop (by omega)), parser_bind_some (getFixed64_drop (by omega)),
    parser_bind_some (getFixed64_drop (by omega)), parser_bind_some (item_drop (by omega))]
  rfl

theorem fixedLoading_within {data : Bytes} {offset : Nat} (options : ColumnFamilyOptions)
    (inside : offset + 37 ≤ data.length) :
    (fixedLoading offset options).within data = some (fixedFieldsAt data offset options) := by
  unfold fixedLoading
  rw [within_bind_some (decodeFixedAt_within (by omega)), within_bind_some (decodeFixedAt_within (by omega)),
    within_bind_some (decodeFixedAt_within (by omega)), within_bind_some (decodeFixedAt_within (by omega)),
    within_bind_some (decodeFixedAt_within (by omega)), within_bind_some (decodeFixedAt_within (by omega)),
    within_bind_some (decodeFixedAt_within (by omega)),
    within_bind_some (Loading.within_items (by omega))]
  rfl

theorem staysInside_fixedLoading {α : Type} {data : Bytes} {offset : Nat}
    {options : ColumnFamilyOptions} {g : ColumnFamilyOptions → Loading UInt8 α} :
    (fixedLoading offset options >>= g).StaysInside data ↔ offset + 37 ≤ data.length ∧
      (g (fixedFieldsAt data offset options)).StaysInside data := by
  by_cases inside : offset + 37 ≤ data.length
  · rw [Loading.staysInside_bind, fixedLoading_within options inside]
    simp [inside]
  · have outside : (fixedLoading offset options).within data = none := by
      rw [← Option.not_isSome_iff_eq_none, ← Loading.staysInside_iff]
      unfold fixedLoading
      simp only [staysInside_decodeFixedAt, Loading.staysInside_items]
      omega
    simp [Loading.staysInside_bind, outside, inside]

theorem loading_staysInside_iff (data : Bytes) (offset size : Nat) (options : ColumnFamilyOptions) :
    (loading offset size options).StaysInside data ↔ Fits data offset size := by
  have number (offset n : Nat) : decodeFixed ((data.drop offset).take n) = numberAt data offset n := rfl
  unfold loading Fits
  simp only [Loading.staysInside_ite, Loading.staysInside_items, staysInside_decodeFixedAt,
    staysInside_fixedLoading, Loading.staysInside_pure, number, implies_true, true_and, and_true]
  omega

theorem fits_iff_of_inside {data : Bytes} {offset size : Nat} (inside : offset + size ≤ data.length) :
    Fits data offset size ↔ size < 33 ∨ 37 ≤ size ∨ offset + 37 ≤ data.length := by
  unfold Fits
  omega

theorem fixedParser_isLocal (options : ColumnFamilyOptions) : Parsing.Local (fixedParser options) := by
  apply local_getFixed32.bind
  intro memtableSize
  apply local_getFixed32.bind
  intro maxWriteBufferNumber
  apply local_getFixed32.bind
  intro fileNumTrigger
  apply local_getFixed32.bind
  intro slowdownTrigger
  apply local_getFixed32.bind
  intro stopTrigger
  apply ((Parsing.Local.take 8).bind fun _ => Parsing.Local.pure _).bind
  intro targetFileSizeBase
  apply ((Parsing.Local.take 8).bind fun _ => Parsing.Local.pure _).bind
  intro maxBytesForLevelBase
  exact Parsing.Local.item.bind fun _ => Parsing.Local.pure _

theorem decode_append {memory more : Bytes} {size : Nat} {options : ColumnFamilyOptions}
    {result : Except Status ColumnFamilyOptions} (found : decode memory size options = some result) :
    decode (memory ++ more) size options = some result := by
  unfold decode at found ⊢
  split at found
  · rename_i short
    rw [if_pos short]
    exact found
  · rename_i long
    rw [if_neg long]
    obtain ⟨⟨fixed, p⟩, parsed, found⟩ := Option.bind_eq_some_iff.mp found
    rw [fixedParser_isLocal options _ _ _ more parsed]
    simp only [Option.bind_eq_bind, Option.bind_some] at found ⊢
    split at found
    · rename_i named
      obtain ⟨⟨nameLength, p'⟩, parsed', found⟩ := Option.bind_eq_some_iff.mp found
      rw [if_pos named, Parsing.Local.item _ _ _ more parsed']
      simp only [Option.bind_some]
      split at found
      · rename_i whole
        obtain ⟨⟨name, p''⟩, parsed'', found⟩ := Option.bind_eq_some_iff.mp found
        rw [if_pos whole, Parsing.Local.take _ _ _ _ more parsed'']
        exact found
      · rename_i cut
        rw [if_neg cut]
        exact found
    · rename_i unnamed
      rw [if_neg unnamed]
      exact found

theorem decode_eq_within (data : Bytes) (offset size : Nat) (options : ColumnFamilyOptions)
    (fits : Fits data offset size) :
    decode (data.drop offset) size options = (loading offset size options).within data := by
  unfold decode loading
  unfold Fits at fits
  by_cases short : size < 33
  · rw [if_pos short, if_pos short]
    rfl
  have inside : offset + 37 ≤ data.length := by omega
  rw [if_neg short, if_neg short, fixedParser_drop options inside,
    within_bind_some (fixedLoading_within options inside)]
  simp only [Option.bind_eq_bind, Option.bind_some]
  split
  · have length : Parsing.Parser.item (data.drop (offset + 37)) =
        some (((data.drop (offset + 37)).take 1).headD 0, data.drop (offset + 38)) :=
      item_drop (by omega)
    rw [numberAt_one] at fits
    rw [length, within_bind_some (decodeFixedAt_numberAt (by omega)), numberAt_one]
    simp only [Option.bind_some]
    split
    · rw [within_bind_some (Loading.within_items (by omega)), take_drop (by omega)]
      rfl
    · rfl
  · rfl

theorem loading_found {data : Bytes} {offset size : Nat} (options : ColumnFamilyOptions)
    (fits : Fits data offset size) : ∃ found, decode (data.drop offset) size options = some found ∧
      (loading offset size options).within data = some found := by
  have inside := (loading_staysInside_iff data offset size options).mpr fits
  obtain ⟨found, read⟩ := Option.isSome_iff_exists.mp (Loading.staysInside_iff.mp inside)
  exact ⟨found, (decode_eq_within data offset size options fits).trans read, read⟩

end ColumnFamilyOptions

namespace ColumnFamilyDescriptor

/-- `ColumnFamilyDescriptor::Decode` on an input of this size, load by load. -/
def loading (size : Nat) :
    Loading UInt8 (Except Status (ColumnFamilyDescriptor ColumnFamilyOptions)) :=
  if size < 25 then return .error (.corruption "ColumnFamilyDescriptor data too short")
  else do
    let id ← decodeFixedAt 0 4
    let nameLength ← decodeFixedAt 4 4
    if size < (25 + nameLength) % uint32Limit then
      return .error (.corruption "ColumnFamilyDescriptor name length invalid")
    else
      let name ← Loading.items 8 nameLength
      let dropped ← Loading.items (8 + nameLength) 1
      let createSequence ← decodeFixedAt (9 + nameLength) 8
      let dropSequence ← decodeFixedAt (17 + nameLength) 8
      if size < 25 + nameLength + 4 then
        return .error (.corruption "ColumnFamilyDescriptor options length missing")
      else
        let optionsLength ← decodeFixedAt (25 + nameLength) 4
        if size < 29 + nameLength + optionsLength then
          return .error (.corruption "ColumnFamilyDescriptor options data truncated")
        else
          let found ← ColumnFamilyOptions.loading (29 + nameLength) optionsLength {}
          return found.map fun options =>
            { id := id, name := stringOfBytes name, options := options, isDropped := dropped.headD 0 != 0,
              createSequence := createSequence, dropSequence := dropSequence }

/-- The length of the name and the constant do not overflow, or the name is there; and the options, if
they are there, are not of the lengths that the check lets pass too early. -/
def LengthsFit (data : Bytes) : Prop :=
  data.length < 25 ∨
    (25 + numberAt data 4 4 < uint32Limit ∨ 25 + numberAt data 4 4 ≤ data.length) ∧
      (29 + numberAt data 4 4 + numberAt data (25 + numberAt data 4 4) 4 ≤ data.length →
        numberAt data (25 + numberAt data 4 4) 4 < 33 ∨
          37 ≤ numberAt data (25 + numberAt data 4 4) 4 ∨
            29 + numberAt data 4 4 + 37 ≤ data.length)

theorem loading_staysInside_iff (data : Bytes) :
    (loading data.length).StaysInside data ↔ LengthsFit data := by
  have limit := numberAt_lt data 4 4
  have inner (length n : Nat) (inside : 29 + length + n ≤ data.length)
      (g : Except Status ColumnFamilyOptions →
        Except Status (ColumnFamilyDescriptor ColumnFamilyOptions)) :
      (ColumnFamilyOptions.loading (29 + length) n {} >>= fun found => pure (g found)).StaysInside data ↔
        n < 33 ∨ 37 ≤ n ∨ 29 + length + 37 ≤ data.length := by
    rw [← ColumnFamilyOptions.fits_iff_of_inside inside,
      ← ColumnFamilyOptions.loading_staysInside_iff data (29 + length) n {}, Loading.staysInside_bind,
      Loading.staysInside_iff, Option.isSome_iff_exists]
    simp only [Loading.staysInside_pure, and_true]
  unfold loading LengthsFit
  simp only [Loading.staysInside_ite, Loading.staysInside_items, staysInside_decodeFixedAt,
    Loading.staysInside_pure]
  have number (offset n : Nat) : decodeFixed ((data.drop offset).take n) = numberAt data offset n := rfl
  simp only [number]
  generalize numberAt data 4 4 = nameLength at *
  generalize numberAt data (25 + nameLength) 4 = optionsLength at *
  by_cases inside : 29 + nameLength + optionsLength ≤ data.length
  · rw [inner nameLength optionsLength inside]
    unfold uint32Limit
    omega
  · have missing : data.length < 29 + nameLength + optionsLength := Nat.not_le.mp inside
    simp only [missing, inside, not_true_eq_false, false_implies, implies_true, and_true, true_and]
    unfold uint32Limit
    omega

theorem headParser_drop {data : Bytes} (long : 8 ≤ data.length) :
    headParser data = some ((numberAt data 0 4, numberAt data 4 4), data.drop 8) := by
  have first : getFixed32 data = some (numberAt data 0 4, data.drop 4) :=
    getFixed32_drop (by omega : 0 + 4 ≤ data.length)
  unfold headParser
  rw [parser_bind_some first, parser_bind_some (getFixed32_drop (by omega))]
  rfl

theorem middleParser_drop {data : Bytes} {nameLength : Nat} (id : Nat)
    (inside : 25 + nameLength ≤ data.length) : middleParser id nameLength (data.drop 8) =
      some ({ id := id, name := stringOfBytes ((data.drop 8).take nameLength), options := {},
              isDropped := ((data.drop (8 + nameLength)).take 1).headD 0 != 0,
              createSequence := numberAt data (9 + nameLength) 8,
              dropSequence := numberAt data (17 + nameLength) 8 }, data.drop (25 + nameLength)) := by
  unfold middleParser
  rw [parser_bind_some (take_drop (by omega)), parser_bind_some (item_drop (by omega)),
    show 8 + nameLength + 1 = 9 + nameLength by omega,
    parser_bind_some (getFixed64_drop (by omega)),
    show 9 + nameLength + 8 = 17 + nameLength by omega,
    parser_bind_some (getFixed64_drop (by omega)),
    show 17 + nameLength + 8 = 25 + nameLength by omega]
  rfl

theorem decode_eq_within {data : Bytes} (fit : LengthsFit data) :
    decode data = (loading data.length).within data := by
  unfold LengthsFit at fit
  unfold decode loading
  by_cases short : data.length < 25
  · rw [if_pos short, if_pos short]
    rfl
  rw [if_neg short, if_neg short, headParser_drop (by omega),
    within_bind_some (decodeFixedAt_numberAt (by omega)),
    within_bind_some (decodeFixedAt_numberAt (by omega))]
  obtain ⟨named, optioned⟩ := fit.resolve_left short
  simp only [Option.bind_eq_bind, Option.bind_some]
  split
  · rfl
  rename_i checked
  have inside : 25 + numberAt data 4 4 ≤ data.length := by
    unfold uint32Limit at *
    omega
  generalize numberAt data 4 4 = nameLength at *
  rw [middleParser_drop _ inside, within_bind_some (Loading.within_items (by omega)),
    within_bind_some (Loading.within_items (by omega)),
    within_bind_some (decodeFixedAt_numberAt (by omega)),
    within_bind_some (decodeFixedAt_numberAt (by omega))]
  simp only [Option.bind_some, List.length_drop]
  by_cases missing : data.length < 25 + nameLength + 4
  · rw [if_pos missing, if_pos (by omega)]
    rfl
  rw [if_neg missing, if_neg (by omega), getFixed32_drop (by omega),
    within_bind_some (decodeFixedAt_numberAt (by omega))]
  simp only [Option.bind_some, List.length_drop]
  generalize numberAt data (25 + nameLength) 4 = optionsLength at *
  by_cases truncated : data.length < 29 + nameLength + optionsLength
  · rw [if_pos truncated, if_pos (by omega)]
    rfl
  rw [if_neg truncated, if_neg (by omega), show 25 + nameLength + 4 = 29 + nameLength by omega]
  have fits := (ColumnFamilyOptions.fits_iff_of_inside (Nat.not_lt.mp truncated)).mpr
    (optioned (Nat.not_lt.mp truncated))
  obtain ⟨found, read⟩ := ColumnFamilyOptions.loading_found {} fits
  rw [within_bind_some read.2, ColumnFamilyOptions.decode_append read.1]
  rfl

end ColumnFamilyDescriptor

namespace DescriptorTable

/-- The case of a changed option in `RecoverFromManifestFile`, load by load. -/
def loadUpdate (table : DescriptorTable ColumnFamilyOptions) (size : Nat) :
    Loading UInt8 (DescriptorTable ColumnFamilyOptions) :=
  if size < 8 then return table
  else do
    let id ← decodeFixedAt 0 4
    let optionsLength ← decodeFixedAt 4 4
    if size < (8 + optionsLength) % uint32Limit then return table
    else
      match table.lookup id with
      | some descriptor =>
          let found ← ColumnFamilyOptions.loading 8 optionsLength descriptor.options
          return (match found with
            | .ok options => table.insert id { descriptor with options := options }
            | .error _ => table)
      | none => return table

/-- The family is not known; or the length of the options and the constant do not overflow, and the
options are not of the lengths that the check lets pass too early; or all that is taken is there. -/
def UpdateFits (table : DescriptorTable ColumnFamilyOptions) (data : Bytes) : Prop :=
  data.length < 8 ∨ table.lookup (numberAt data 0 4) = none ∨
    8 + numberAt data 4 4 < uint32Limit ∧ (data.length < 8 + numberAt data 4 4 ∨
      numberAt data 4 4 < 33 ∨ 37 ≤ numberAt data 4 4 ∨ 45 ≤ data.length) ∨
    uint32Limit ≤ 8 + numberAt data 4 4 ∧ 46 + numberAt data 45 1 ≤ data.length

theorem fits_iff_of_checked {data : Bytes} (long : 8 ≤ data.length)
    (checked : (8 + numberAt data 4 4) % uint32Limit ≤ data.length) :
    ColumnFamilyOptions.Fits data 8 (numberAt data 4 4) ↔
      8 + numberAt data 4 4 < uint32Limit ∧ (data.length < 8 + numberAt data 4 4 ∨
        numberAt data 4 4 < 33 ∨ 37 ≤ numberAt data 4 4 ∨ 45 ≤ data.length) ∨
      uint32Limit ≤ 8 + numberAt data 4 4 ∧ 46 + numberAt data 45 1 ≤ data.length := by
  have limit := numberAt_lt data 4 4
  have byte := numberAt_lt data 45 1
  unfold ColumnFamilyOptions.Fits uint32Limit
  unfold uint32Limit at checked
  simp only [Nat.reduceAdd]
  omega

theorem loadUpdate_staysInside_iff (table : DescriptorTable ColumnFamilyOptions) (data : Bytes) :
    (table.loadUpdate data.length).StaysInside data ↔ table.UpdateFits data := by
  have number (offset n : Nat) : decodeFixed ((data.drop offset).take n) = numberAt data offset n := rfl
  have inner (options : ColumnFamilyOptions)
      (g : Except Status ColumnFamilyOptions → DescriptorTable ColumnFamilyOptions) :
      (ColumnFamilyOptions.loading 8 (numberAt data 4 4) options >>= fun found =>
        pure (g found)).StaysInside data ↔ ColumnFamilyOptions.Fits data 8 (numberAt data 4 4) := by
    rw [← ColumnFamilyOptions.loading_staysInside_iff data 8 (numberAt data 4 4) options,
      Loading.staysInside_bind, Loading.staysInside_iff, Option.isSome_iff_exists]
    simp only [Loading.staysInside_pure, and_true]
  unfold loadUpdate UpdateFits
  rw [← number 0 4]
  simp only [Loading.staysInside_ite, staysInside_decodeFixedAt, Loading.staysInside_pure]
  cases table.lookup (decodeFixed ((data.drop 0).take 4)) with
  | none =>
      simp only [Loading.staysInside_pure, number, implies_true, true_or, or_true, true_and,
        and_true, iff_true]
      omega
  | some descriptor =>
      simp only [number, inner, implies_true, true_and, reduceCtorEq, false_or, Nat.not_lt]
      by_cases short : data.length < 8
      · simp only [short, true_or, Nat.not_le.mpr short, false_implies]
      · have long := Nat.not_lt.mp short
        have limit := numberAt_lt data 4 4
        by_cases checked : (8 + numberAt data 4 4) % uint32Limit ≤ data.length
        · rw [fits_iff_of_checked long checked]
          simp only [short, long, checked, false_or, true_implies, true_and]
          exact and_iff_right (by omega)
        · simp only [short, long, checked, false_or, true_implies, false_implies, and_true]
          unfold uint32Limit at *
          omega

theorem applyUpdate_eq_within {table : DescriptorTable ColumnFamilyOptions} {data : Bytes}
    (fits : table.UpdateFits data) :
    table.applyUpdate data = (table.loadUpdate data.length).within data := by
  have inside := (loadUpdate_staysInside_iff table data).mpr fits
  unfold UpdateFits at fits
  unfold applyUpdate loadUpdate
  by_cases short : data.length < 8
  · rw [if_pos short, if_pos short]
    rfl
  have long := Nat.not_lt.mp short
  rw [if_neg short, if_neg short, ColumnFamilyDescriptor.headParser_drop long,
    within_bind_some (decodeFixedAt_numberAt (by omega)),
    within_bind_some (decodeFixedAt_numberAt (by omega))]
  simp only [Option.bind_eq_bind, Option.bind_some]
  split
  · rfl
  rename_i checked
  cases here : table.lookup (numberAt data 0 4) with
  | none => rfl
  | some descriptor =>
      rw [here] at fits
      have optioned := (fits.resolve_left short).resolve_left (Option.some_ne_none descriptor)
      obtain ⟨found, read⟩ := ColumnFamilyOptions.loading_found descriptor.options
        ((fits_iff_of_checked long (Nat.not_lt.mp checked)).mpr optioned)
      simp only []
      rw [within_bind_some read.2, ColumnFamilyOptions.decode_append read.1]
      cases found <;> rfl

/-- The decoders of the manifest load nothing outside their input exactly where the lengths fit. -/
theorem manifest_inside_iff (table : DescriptorTable ColumnFamilyOptions) (data : Bytes) :
    ((RawRecord.loading data.length).StaysInside data ↔ RawRecord.LengthFits data) ∧
      ((ColumnFamilyDescriptor.loading data.length).StaysInside data ↔
        ColumnFamilyDescriptor.LengthsFit data) ∧
      ((table.loadUpdate data.length).StaysInside data ↔ table.UpdateFits data) :=
  ⟨RawRecord.loading_staysInside_iff data, ColumnFamilyDescriptor.loading_staysInside_iff data,
    loadUpdate_staysInside_iff table data⟩

theorem manifest_outside_longest :
    (¬ ∀ data, (RawRecord.loading data.length).StaysInside data) ∧
      (¬ ∀ data, (ColumnFamilyDescriptor.loading data.length).StaysInside data) ∧
      ¬ ∀ (table : DescriptorTable ColumnFamilyOptions) (data : Bytes),
        (table.loadUpdate data.length).StaysInside data := by
  constructor
  · intro always
    have fits := (RawRecord.loading_staysInside_iff _).mp
      (always (List.replicate 9 0 ++ List.replicate 4 255 ++ List.replicate 4 0))
    revert fits
    unfold RawRecord.LengthFits
    decide
  constructor
  · intro always
    have fits := (ColumnFamilyDescriptor.loading_staysInside_iff _).mp
      (always (List.replicate 4 0 ++ List.replicate 4 255 ++ List.replicate 17 0))
    have named := (fits.resolve_left (by decide)).1
    revert named
    decide
  · intro always
    have fits := (loadUpdate_staysInside_iff _ _).mp
      (always (AList.insert 0 ⟨0, "default", {}, false, 0, 0⟩ ∅)
        (List.replicate 4 0 ++ [33, 0, 0, 0] ++ List.replicate 33 0))
    revert fits
    unfold UpdateFits
    rw [show numberAt (List.replicate 4 0 ++ [33, 0, 0, 0] ++ List.replicate 33 0) 0 4 = 0 by decide,
      AList.lookup_insert]
    decide

end DescriptorTable
end Lrdb
