import Lrdb.Base.Loads
import Lrdb.Storage.FinishedTable

/-!
# Reading the records of a table file

The decoders move a slice of their input and load what they read. They compare the size of the slice
with what they take, so they load nothing outside it. What they read of an encoding is what was
encoded, and the loop over the index comes to every entry that was written.
-/

namespace Lrdb
open Parsing Loads

/-! ## Numbers and byte strings in a slice -/

namespace Slices

def decodeVarint : Nat → Decoder UInt8 Nat
  | 0 => Decoder.failure
  | n + 1 => do
      let byte ← Decoder.require 1 >>= fun _ => Decoder.item
      if byte.toNat < 128 then return byte.toNat
      else
        let rest ← decodeVarint n
        return byte.toNat % 128 + 128 * rest

def getVarint32 : Decoder UInt8 Nat := do return (← decodeVarint 5) % uint32Limit
def getVarint64 : Decoder UInt8 Nat := do return (← decodeVarint 10) % uint64Limit

/-- `DecodeFixed32` looks at no size. -/
def decodeFixed32 : Decoder UInt8 Nat := do return decodeFixed (← Decoder.next 4)

def getLengthPrefixedSlice : Decoder UInt8 Bytes := do
  let length ← getVarint32
  Decoder.require length >>= fun _ => Decoder.next length

theorem follows_decodeVarint (n : Nat) :
    Follows 0 (Lrdb.decodeVarint n) (Slices.decodeVarint n) := by
  induction n with
  | zero => exact Follows.failure
  | succ n ih =>
      apply (Follows.item.require Takes.item).bind
      intro byte
      split
      · exact Follows.pure _
      · exact ih.bind fun _ => Follows.pure _

theorem follows_getVarint32 : Follows 0 Lrdb.getVarint32 Slices.getVarint32 :=
  (follows_decodeVarint 5).bind fun _ => Follows.pure _

theorem follows_getVarint64 : Follows 0 Lrdb.getVarint64 Slices.getVarint64 :=
  (follows_decodeVarint 10).bind fun _ => Follows.pure _

theorem follows_getLengthPrefixedSlice :
    Follows 0 Lrdb.getLengthPrefixedSlice Slices.getLengthPrefixedSlice :=
  follows_getVarint32.bind fun n => Follows.take n

theorem follows_decodeFixed32 : Follows 4 getFixed32 decodeFixed32 :=
  (Follows.next 4).bind fun _ => Follows.pure _

theorem takes_getFixed32 : Takes 4 getFixed32 :=
  (Takes.take 4).bind fun _ => Takes.pure _

end Slices

namespace TableFile
def SSTableMeta.decoder : Decoder UInt8 SSTableMeta := do
  let filename ← Slices.getLengthPrefixedSlice
  let fileNumber ← Slices.getVarint64
  let fileSize ← Slices.getVarint64
  let level ← Decoder.require 4 >>= fun _ => Slices.decodeFixed32
  let smallestKey ← Slices.getLengthPrefixedSlice
  let largestKey ← Slices.getLengthPrefixedSlice
  let numEntries ← Slices.getVarint64
  let numDeletions ← Slices.getVarint64
  let rawKeySize ← Slices.getVarint64
  let rawValueSize ← Slices.getVarint64
  let creationTime ← Slices.getVarint64
  let oldestKeyTime ← Slices.getVarint64
  return { filename, fileNumber, fileSize, level, smallestKey, largestKey, numEntries, numDeletions,
           rawKeySize, rawValueSize, creationTime, oldestKeyTime }

/-- The size is compared once, for the four numbers. -/
def BlockHeader.decoder : Decoder UInt8 BlockHeader := do
  Decoder.require kHeaderSize >>= fun _ => do
    let type ← Slices.decodeFixed32
    let size ← Slices.decodeFixed32
    let crc32 ← Slices.decodeFixed32
    let compression ← Slices.decodeFixed32
    return ⟨type % 256, size, crc32, compression⟩

def IndexEntry.decoder : Decoder UInt8 IndexEntry := do
  let key ← Slices.getLengthPrefixedSlice
  let blockOffset ← Slices.getVarint64
  Decoder.require 8 >>= fun _ => do
    let blockSize ← Slices.decodeFixed32
    let firstKeyOffset ← Slices.decodeFixed32
    return ⟨key, blockOffset, blockSize, firstKeyOffset⟩

theorem SSTableMeta.decoder_follows : Follows 0 SSTableMeta.parser SSTableMeta.decoder := by
  apply Slices.follows_getLengthPrefixedSlice.bind
  intro filename
  apply Slices.follows_getVarint64.bind
  intro fileNumber
  apply Slices.follows_getVarint64.bind
  intro fileSize
  apply (Slices.follows_decodeFixed32.require Slices.takes_getFixed32).bind
  intro level
  apply Slices.follows_getLengthPrefixedSlice.bind
  intro smallestKey
  apply Slices.follows_getLengthPrefixedSlice.bind
  intro largestKey
  apply Slices.follows_getVarint64.bind
  intro numEntries
  apply Slices.follows_getVarint64.bind
  intro numDeletions
  apply Slices.follows_getVarint64.bind
  intro rawKeySize
  apply Slices.follows_getVarint64.bind
  intro rawValueSize
  apply Slices.follows_getVarint64.bind
  intro creationTime
  apply Slices.follows_getVarint64.bind
  intro oldestKeyTime
  exact Follows.pure _

theorem BlockHeader.decoder_follows : Follows 0 BlockHeader.parser BlockHeader.decoder := by
  have takes : Takes kHeaderSize BlockHeader.parser :=
    Slices.takes_getFixed32.bind fun _ => Slices.takes_getFixed32.bind fun _ =>
      Slices.takes_getFixed32.bind fun _ => Slices.takes_getFixed32.bind fun _ => Takes.pure _
  apply Follows.require _ takes
  have four : kHeaderSize = 4 + (4 + (4 + (4 + 0))) := rfl
  rw [four, BlockHeader.parser]
  apply Slices.follows_decodeFixed32.bind_takes Slices.takes_getFixed32
  intro type
  apply Slices.follows_decodeFixed32.bind_takes Slices.takes_getFixed32
  intro size
  apply Slices.follows_decodeFixed32.bind_takes Slices.takes_getFixed32
  intro crc32
  apply Slices.follows_decodeFixed32.bind_takes Slices.takes_getFixed32
  intro compression
  exact Follows.pure _

theorem IndexEntry.decoder_follows : Follows 0 IndexEntry.parser IndexEntry.decoder := by
  apply Slices.follows_getLengthPrefixedSlice.bind
  intro key
  apply Slices.follows_getVarint64.bind
  intro blockOffset
  have takes (result : Nat → Nat → IndexEntry) : Takes 8 (do
      let blockSize ← getFixed32
      let firstKeyOffset ← getFixed32
      return result blockSize firstKeyOffset) :=
    Slices.takes_getFixed32.bind fun _ => Slices.takes_getFixed32.bind fun _ => Takes.pure _
  apply Follows.require _ (takes (IndexEntry.mk key blockOffset))
  have two : 8 = 4 + (4 + 0) := rfl
  rw [two]
  apply Slices.follows_decodeFixed32.bind_takes Slices.takes_getFixed32
  intro blockSize
  apply Slices.follows_decodeFixed32.bind_takes Slices.takes_getFixed32
  intro firstKeyOffset
  exact Follows.pure _

/-! ## What was encoded is read back -/

structure BlockHeader.Typed (h : BlockHeader) : Prop where
  type : h.type < 256
  size : h.size < uint32Limit
  crc32 : h.crc32 < uint32Limit
  compression : h.compression < uint32Limit

theorem BlockHeader.Typed.yields {h : BlockHeader} (typed : h.Typed) : Yields parser h.encode h := by
  have type : h.type < uint32Limit := typed.type.trans (by decide)
  have same : (⟨h.type % 256, h.size, h.crc32, h.compression⟩ : BlockHeader) = h := by
    rw [Nat.mod_eq_of_lt typed.type]
  rw [encode, parser]
  apply (yields_getFixed32 type).bind
  apply (yields_getFixed32 typed.size).bind
  apply (yields_getFixed32 typed.crc32).bind
  rw [← List.append_nil (putFixed 4 h.compression)]
  apply (yields_getFixed32 typed.compression).bind
  rw [same]
  exact Yields.pure h

structure IndexEntry.Typed (e : IndexEntry) : Prop where
  key : e.key.length < uint32Limit
  blockOffset : e.blockOffset < uint64Limit
  blockSize : e.blockSize < uint32Limit
  firstKeyOffset : e.firstKeyOffset < uint32Limit

theorem IndexEntry.Typed.yields {e : IndexEntry} (typed : e.Typed) : Yields parser e.encode e := by
  rw [encode, parser]
  apply (yields_getLengthPrefixedSlice typed.key).bind
  apply (yields_getVarint64 typed.blockOffset).bind
  apply (yields_getFixed32 typed.blockSize).bind
  rw [← List.append_nil (putFixed 4 e.firstKeyOffset)]
  exact (yields_getFixed32 typed.firstKeyOffset).bind (Yields.pure e)

theorem parse_of_yields {α : Type} {p : Parser UInt8 α} {bytes : Bytes} {value : α}
    (yields : Yields p bytes value) : p.parse bytes = some value := by
  have whole := yields []
  rw [List.append_nil] at whole
  rw [Parser.parse, whole]
  rfl

/-! ## The loop over the index -/

namespace SSTableReader
variable {order : Bytes → Bytes → Ordering} {fileSize n : Nat} {entries index found : List IndexEntry}

def indexData (entries : List IndexEntry) : Bytes :=
  entries.flatMap fun entry => putLengthPrefixedSlice entry.encode

structure Fits (e : IndexEntry) : Prop extends IndexEntry.Typed e where
  encoded : e.encode.length < uint32Limit

structure Accepted (order : Bytes → Bytes → Ordering) (fileSize : Nat) (entries : List IndexEntry) :
    Prop where
  inside : ∀ e ∈ entries, (e.blockOffset + e.blockSize) % uint64Limit ≤ fileSize
  ascending : entries.IsChain fun a b => order a.key b.key = .lt

def checkEntries (order : Bytes → Bytes → Ordering) (fileSize : Nat) :
    List IndexEntry → List IndexEntry → Except Status (List IndexEntry)
  | [], index => .ok index
  | entry :: rest, index =>
      if (entry.blockOffset + entry.blockSize) % uint64Limit > fileSize then
        .error (.corruption "Index entry points beyond file")
      else if index.head?.any fun last => order last.key entry.key ≠ .lt then
        .error (.corruption "Index keys not in sorted order")
      else checkEntries order fileSize rest (entry :: index)

theorem readEntries_indexData (fits : ∀ e ∈ entries, Fits e) (enough : entries.length ≤ n) :
    readEntries order fileSize n (indexData entries) index =
      checkEntries order fileSize entries index := by
  induction entries generalizing n index with
  | nil => cases n <;> rfl
  | cons entry rest ih =>
      obtain ⟨here, later⟩ := List.forall_mem_cons.mp fits
      cases n with
      | zero => exact absurd enough (Nat.not_succ_le_zero _)
      | succ n =>
          have content : indexData (entry :: rest) =
              putLengthPrefixedSlice entry.encode ++ indexData rest := List.flatMap_cons ..
          have taken := yields_getLengthPrefixedSlice here.encoded (indexData rest)
          have filled : ¬ (putLengthPrefixedSlice entry.encode ++ indexData rest).isEmpty := by
            have positive := SSTableWriter.length_putLengthPrefixedSlice_pos entry.encode
            rw [List.isEmpty_iff, List.append_eq_nil_iff]
            intro empty
            rw [empty.1, List.length_nil] at positive
            exact Nat.lt_irrefl 0 positive
          have decoded : IndexEntry.decode entry.encode = some entry :=
            parse_of_yields here.toTyped.yields
          have rest := @ih n (entry :: index) later (Nat.le_of_succ_le_succ enough)
          rw [readEntries, content, if_neg filled, taken]
          simp only [decoded, checkEntries, rest]

theorem checkEntries_eq_ok_iff : checkEntries order fileSize entries index = .ok found ↔
    found = entries.reverse ++ index ∧
      (∀ e ∈ entries, (e.blockOffset + e.blockSize) % uint64Limit ≤ fileSize) ∧
        (index.head?.toList ++ entries).IsChain fun a b => order a.key b.key = .lt := by
  induction entries generalizing index with
  | nil =>
      have single : index.head?.toList.IsChain fun a b => order a.key b.key = .lt := by
        cases index <;> simp
      rw [checkEntries, Except.ok.injEq, List.reverse_nil, List.nil_append, List.append_nil]
      exact ⟨fun same => ⟨same.symm, fun _ member => absurd member List.not_mem_nil, single⟩,
        fun all => all.1.symm⟩
  | cons entry rest ih =>
      rw [checkEntries]
      split
      · rename_i beyond
        simp only [reduceCtorEq, false_iff]
        intro all
        exact absurd (all.2.1 entry (List.mem_cons_self ..)) (Nat.not_le.mpr beyond)
      split
      · rename_i inside unordered
        obtain ⟨last, here, later⟩ := Option.any_eq_true _ _ |>.mp unordered
        rw [here]
        simp only [reduceCtorEq, false_iff, Option.toList_some, List.singleton_append]
        intro all
        exact of_decide_eq_true later (List.isChain_cons_cons.mp all.2.2).1
      · rename_i inside ordered
        rw [ih]
        have head : (index.head?.toList ++ entry :: rest).IsChain (fun a b => order a.key b.key = .lt) ↔
            (entry :: rest).IsChain fun a b => order a.key b.key = .lt := by
          cases index with
          | nil => rfl
          | cons last _ => 
              have before : order last.key entry.key = .lt := by simpa using ordered
              simp [List.isChain_cons_cons, before]
        rw [head]
        simp only [List.reverse_cons, List.append_assoc, List.singleton_append, List.head?_cons,
          Option.toList_some, List.forall_mem_cons, Nat.not_lt.mp inside, true_and]

theorem length_le_indexData (entries : List IndexEntry) :
    entries.length ≤ (indexData entries).length := by
  induction entries with
  | nil => exact le_rfl
  | cons entry rest ih =>
      have positive := SSTableWriter.length_putLengthPrefixedSlice_pos entry.encode
      rw [indexData, List.flatMap_cons, List.length_append, List.length_cons]
      rw [indexData] at ih
      omega

/-- The loop of `ReadIndex` over written entries: the entries themselves, if they pass its checks. -/
theorem readEntries_eq_ok_iff (fits : ∀ e ∈ entries, Fits e) :
    readEntries order fileSize (indexData entries).length (indexData entries) [] = .ok found ↔
      found = entries.reverse ∧ Accepted order fileSize entries := by
  rw [readEntries_indexData fits (length_le_indexData entries), checkEntries_eq_ok_iff,
    List.append_nil]
  exact and_congr_right fun _ => ⟨fun both => ⟨both.1, both.2⟩, fun both => ⟨both.1, both.2⟩⟩

end SSTableReader

/-! ## The footer -/

/-- The resize only pads, and the padded bytes lead to the same blocks. -/
theorem footer_layout {f : Footer} (typed : f.Typed) :
    f.fields.length ≤ footerSize ∧
      f.encode = f.fields ++ List.replicate (footerSize - f.fields.length) 0 ∧
        Footer.decode f.encode = .ok f := by
  have fits := typed.length_fields
  refine ⟨fits, ?_, typed.decode_encode⟩
  rw [Footer.encode, List.take_append, List.take_of_length_le fits, List.take_replicate,
    Nat.min_eq_left (Nat.sub_le ..)]

def lastHandle : BlockHandle := ⟨0x7FFFFFFFFFFFFFFF, 0xFFFFFFFF⟩

def lastFooter : Footer := ⟨lastHandle, lastHandle, lastHandle⟩

theorem footer_layout_lastFooter : lastFooter.fields.length = footerSize ∧
    lastFooter.encode = lastFooter.fields ∧ Footer.decode lastFooter.encode = .ok lastFooter := by
  have typed : lastHandle.Typed := ⟨by decide, by decide⟩
  obtain ⟨-, padded, decoded⟩ := footer_layout (f := lastFooter) ⟨typed, typed, typed⟩
  have length : lastFooter.fields.length = footerSize := by decide
  refine ⟨length, ?_, decoded⟩
  rw [padded, length, Nat.sub_self, List.replicate_zero, List.append_nil]

/-! ## The three codecs and the loop -/

/-- The decoder reads only the data, and finds there what `decode` says. -/
def DecodesInside {α : Type} (decoder : Decoder UInt8 α) (decode : Bytes → Option α)
    (data : Bytes) : Prop :=
  (decoder ⟨0, data.length⟩).StaysInside data ∧
    ∀ memory, Loading.Holds memory data →
      ((decoder ⟨0, data.length⟩).run memory).map Prod.fst = decode data

/-- What was encoded is read back, the index as far as its checks go; of any bytes the decoders read
no more than there are. -/
theorem codecs_exact {m : SSTableMeta} (metaTyped : m.Typed) (short : m.Short) {h : BlockHeader}
    (headerTyped : h.Typed) {e : IndexEntry} (entryTyped : e.Typed) {entries : List IndexEntry}
    (fits : ∀ e ∈ entries, SSTableReader.Fits e) (order : Bytes → Bytes → Ordering) (fileSize : Nat)
    (found : List IndexEntry) (data : Bytes) :
    SSTableMeta.decode m.encode = some m ∧ BlockHeader.decode h.encode = some h ∧
      IndexEntry.decode e.encode = some e ∧
        (SSTableReader.readEntries order fileSize (SSTableReader.indexData entries).length
            (SSTableReader.indexData entries) [] = .ok found ↔
          found = entries.reverse ∧ SSTableReader.Accepted order fileSize entries) ∧
          DecodesInside SSTableMeta.decoder SSTableMeta.decode data ∧
            DecodesInside BlockHeader.decoder BlockHeader.decode data ∧
              DecodesInside IndexEntry.decoder IndexEntry.decode data :=
  ⟨parse_of_yields (SSTableMeta.parser_yields metaTyped short), parse_of_yields headerTyped.yields,
    parse_of_yields entryTyped.yields, SSTableReader.readEntries_eq_ok_iff fits,
    SSTableMeta.decoder_follows.whole data, BlockHeader.decoder_follows.whole data,
    IndexEntry.decoder_follows.whole data⟩

def firstEntry : IndexEntry := ⟨[97, 1, 0, 0, 0, 0, 0, 0, 0], 0, 20, 0⟩
def secondEntry : IndexEntry := ⟨[98, 1, 0, 0, 0, 0, 0, 0, 0], 20, 30, 0⟩

theorem fits_twoEntries : ∀ e ∈ [firstEntry, secondEntry], SSTableReader.Fits e := by
  have small : 9 < uint32Limit ∧ 20 < uint64Limit ∧ 30 < uint32Limit ∧ 0 < uint32Limit := by decide
  intro e member
  obtain rfl | rfl : e = firstEntry ∨ e = secondEntry := by simpa using member
  · exact ⟨⟨small.1, by decide, by decide, by decide⟩, by decide⟩
  · exact ⟨⟨small.1, by decide, by decide, by decide⟩, by decide⟩

theorem codecs_exact_twoEntries :
    SSTableMeta.decode (SSTableMeta.encode {}) = some {} ∧
      BlockHeader.decode (BlockHeader.encode ⟨1, 4096, 0xDEADBEEF, 0⟩) = some ⟨1, 4096, 0xDEADBEEF, 0⟩ ∧
        IndexEntry.decode firstEntry.encode = some firstEntry ∧
          SSTableReader.readEntries bytewiseCompare 100
              (SSTableReader.indexData [firstEntry, secondEntry]).length
              (SSTableReader.indexData [firstEntry, secondEntry]) [] =
            .ok [secondEntry, firstEntry] := by
  have positive : 0 < uint64Limit := by decide
  have typed : SSTableMeta.Typed {} :=
    ⟨positive, positive, by decide, positive, positive, positive, positive, positive, positive⟩
  have short : SSTableMeta.Short {} := ⟨by decide, by decide, by decide⟩
  have header : BlockHeader.Typed ⟨1, 4096, 0xDEADBEEF, 0⟩ :=
    ⟨by decide, by decide, by decide, by decide⟩
  have both := codecs_exact typed short header (fits_twoEntries firstEntry (by simp)).toTyped
    fits_twoEntries bytewiseCompare 100 [secondEntry, firstEntry] []
  exact ⟨both.1, both.2.1, both.2.2.1, both.2.2.2.1.mpr ⟨rfl, by decide, by simp; decide⟩⟩

theorem readEntries_fails_descending :
    ¬ ∀ (order : Bytes → Bytes → Ordering) (fileSize : Nat) (entries : List IndexEntry),
      (∀ e ∈ entries, e.Typed) →
        SSTableReader.readEntries order fileSize (SSTableReader.indexData entries).length
          (SSTableReader.indexData entries) [] = .ok entries.reverse := by
  intro always
  have parsed := always bytewiseCompare 100 [secondEntry, firstEntry] fun e member =>
    (fits_twoEntries e (by simpa [or_comm] using member)).toTyped
  revert parsed
  decide

end TableFile
end Lrdb
