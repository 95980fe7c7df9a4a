import Lrdb.Base.Loads
import Lrdb.Storage.TableGet
import Lrdb.Util.BloomBatch

/-!
# The block of a Bloom filter

The writer serializes a filter with the keys of its table, the reader takes the sizes from the header
and looks at the bits in the block. It stays in the bit array whatever the block is, but where the
block has no bits it takes a remainder by zero: the writer makes such a block when there are too few
bits for its keys.
-/

namespace Lrdb
open Loads

namespace BloomFilterBuilder
open StandardBloomFilter

/-- `Finish`, with the size of the bit array and the number of hash functions it has computed. -/
def finish (keys : List Key) (bitArraySize : UInt64) (hashFunctionCount : Int32) :
    Except BloomFault Bytes :=
  if keys = [] then .ok []
  else do
    let filter ← keys.foldlM add (StandardBloomFilter.new bitArraySize hashFunctionCount)
    return filter.serialize

end BloomFilterBuilder

namespace TableFile.BloomFilterReader
variable (filter : BloomFilterReader)

/-- The count of the block as an `int`. -/
def signedCount : Int32 := (UInt32.ofNat filter.hashFunctionCount).toInt32

/-- `GetBit`, of the bit array behind the header. -/
def getBitLoading (index : Nat) : Loading UInt8 Bool :=
  if index / 8 < (filter.bitArraySize + 7) % uint64Limit / 8 then do
    return (← Loading.item (index / 8)).toNat.testBit (index % 8)
  else pure false

/-- The loop of `MayContain`. -/
def testLoop : List UInt32 → Loading UInt8 (Except BloomFault Bool)
  | [] => pure (.ok true)
  | hash :: hashes =>
      if filter.bitArraySize = 0 then pure (.error .remainderByZero)
      else do
        if ← filter.getBitLoading (hash.toNat % filter.bitArraySize) then testLoop hashes
        else return .ok false

/-- `MayContain`, load by load from the bit array. -/
def mayContainLoading (key : Key) : Loading UInt8 (Except BloomFault Bool) :=
  match StandardBloomFilter.computeHashes filter.signedCount key with
  | .error fault => pure (.error fault)
  | .ok hashes => filter.testLoop hashes

variable {filter} {data : Bytes} {key : Key}

/-- What `Initialize` accepts has the bits that its header says. -/
structure Accepted (filter : BloomFilterReader) : Prop where
  size : filter.bitArraySize < uint64Limit
  count : filter.hashFunctionCount < uint32Limit
  room : filter.bitArray.length = (filter.bitArraySize + 7) % uint64Limit / 8

theorem accepted_of_new (accepted : new data = some filter) : filter.Accepted := by
  unfold new at accepted
  split at accepted
  · cases accepted
  rename_i long
  dsimp only at accepted
  split at accepted
  · cases accepted
  rename_i size
  cases accepted
  have small : decodeFixed (data.take 8) < 256 ^ 8 := by
    have bound := decodeFixed_lt (data.take 8)
    rwa [List.length_take, Nat.min_eq_left (by omega)] at bound
  have count : decodeFixed ((data.drop 8).take 4) < 256 ^ 4 := by
    have bound := decodeFixed_lt ((data.drop 8).take 4)
    rwa [List.length_take, List.length_drop, Nat.min_eq_left (by omega)] at bound
  refine ⟨small, count, ?_⟩
  unfold uint64Limit at size ⊢
  dsimp only at size ⊢
  rw [List.length_drop]
  omega

theorem getBitLoading_within (accepted : filter.Accepted) (index : Nat) :
    (filter.getBitLoading index).within filter.bitArray = some (filter.getBit index) := by
  rw [getBitLoading, getBit, ← accepted.room]
  by_cases inside : index / 8 < filter.bitArray.length
  · rw [if_pos inside, if_pos inside, Loading.within_bind, Loading.within_item inside]
    simp [inside]
  · rw [if_neg inside, if_neg inside]
    rfl

theorem testLoop_within (accepted : filter.Accepted) (nonzero : filter.bitArraySize ≠ 0)
    (hashes : List UInt32) : (filter.testLoop hashes).within filter.bitArray =
      some (.ok (hashes.all fun hash => filter.getBit (hash.toNat % filter.bitArraySize))) := by
  induction hashes with
  | nil => rfl
  | cons hash hashes ih =>
      rw [testLoop, if_neg nonzero, Loading.within_bind, getBitLoading_within accepted, Option.bind_some,
        List.all_cons]
      cases filter.getBit (hash.toNat % filter.bitArraySize) with
      | true => exact ih
      | false => rfl

theorem signedCount_nonneg (accepted : filter.Accepted) (nonneg : 0 ≤ filter.signedCount.toInt) :
    filter.signedCount.toInt.toNat = filter.hashFunctionCount := by
  have count := accepted.count
  have value : filter.signedCount.toInt = (filter.hashFunctionCount : Int).bmod (2 ^ 32) := by
    exact BitVec.toInt_ofNat' ..
  unfold uint32Limit at count
  rw [value, Int.bmod_def] at nonneg ⊢
  omega

theorem mayContainLoading_within (accepted : filter.Accepted) (key : Key) :
    (filter.mayContainLoading key).within filter.bitArray = some (
      if filter.signedCount.toInt < 0 then .error .lengthError
      else if filter.bitArraySize = 0 ∧ filter.signedCount.toInt ≠ 0 then .error .remainderByZero
      else .ok (filter.mayContain key)) := by
  rw [mayContainLoading]
  by_cases neg : filter.signedCount.toInt < 0
  · rw [if_pos neg, StandardBloomFilter.computeHashes_of_neg neg]
    rfl
  have nonneg := Int.not_lt.mp neg
  have count := signedCount_nonneg accepted nonneg
  rw [if_neg neg, StandardBloomFilter.computeHashes_of_nonneg nonneg, count]
  show (filter.testLoop _).within _ = _
  by_cases zero : filter.bitArraySize = 0
  · rw [mayContain]
    cases hashes : BloomFilter.computeHashes filter.hashFunctionCount key with
    | nil =>
        have none : filter.hashFunctionCount = 0 := by
          rw [← StandardBloomFilter.length_computeHashes filter.hashFunctionCount key, hashes]
          rfl
        rw [if_neg (by omega)]
        rfl
    | cons hash rest =>
        have some : filter.hashFunctionCount ≠ 0 := by
          rw [← StandardBloomFilter.length_computeHashes filter.hashFunctionCount key, hashes]
          exact Nat.succ_ne_zero _
        rw [if_pos ⟨zero, by omega⟩, testLoop, if_pos zero]
        rfl
  · rw [if_neg fun both => zero both.1, testLoop_within accepted zero, mayContain]

/-! ## The block that is written -/

def readerOf (filter : StandardBloomFilter) : BloomFilterReader :=
  ⟨filter.bitArraySize.toNat, filter.hashFunctionCount.toUInt32.toNat, filter.bitArray⟩

section written
variable {filter : StandardBloomFilter}

theorem byteSize_eq (size : UInt64) :
    StandardBloomFilter.byteSize size = (size.toNat + 7) % uint64Limit / 8 := by
  rw [StandardBloomFilter.byteSize, UInt64.toNat_add]
  rfl

theorem new_serialize (room : filter.bitArray.length = StandardBloomFilter.byteSize filter.bitArraySize) :
    new filter.serialize = some (readerOf filter) := by
  have size : (putFixed64 filter.bitArraySize.toNat).length = 8 := length_putFixed 8 _
  have count : (putFixed 4 filter.hashFunctionCount.toUInt32.toNat).length = 4 := length_putFixed 4 _
  have elements : (putFixed64 filter.elementCount.toNat).length = 8 := length_putFixed 8 _
  have length : filter.serialize.length = 20 + (filter.bitArraySize.toNat + 7) % uint64Limit / 8 := by
    rw [StandardBloomFilter.serialize, List.length_append, List.length_append, List.length_append, size,
      count, elements, room, byteSize_eq]
    omega
  have first : decodeFixed (filter.serialize.take 8) = filter.bitArraySize.toNat := by
    rw [StandardBloomFilter.serialize, List.take_left' size, putFixed64, decodeFixed_putFixed]
    exact Nat.mod_eq_of_lt filter.bitArraySize.toNat_lt
  have second : decodeFixed ((filter.serialize.drop 8).take 4) =
      filter.hashFunctionCount.toUInt32.toNat := by
    rw [StandardBloomFilter.serialize, List.drop_left' size, List.take_left' count, decodeFixed_putFixed]
    exact Nat.mod_eq_of_lt filter.hashFunctionCount.toUInt32.toNat_lt
  have third : filter.serialize.drop 20 = filter.bitArray := by
    rw [StandardBloomFilter.serialize, ← List.append_assoc, ← List.append_assoc]
    apply List.drop_left'
    rw [List.length_append, List.length_append, size, count, elements]
  have inside : 20 + (filter.bitArraySize.toNat + 7) % uint64Limit / 8 < uint64Limit := by
    unfold uint64Limit
    omega
  rw [new, if_neg (by omega)]
  dsimp only
  rw [first, second, third, length, Nat.mod_eq_of_lt inside, if_neg (not_not_intro rfl)]
  rfl

theorem signedCount_readerOf (filter : StandardBloomFilter) :
    (readerOf filter).signedCount = filter.hashFunctionCount := by
  show (UInt32.ofNat filter.hashFunctionCount.toUInt32.toNat).toInt32 = _
  rw [UInt32.ofNat_toNat, Int32.toInt32_toUInt32]

theorem accepted_readerOf
    (room : filter.bitArray.length = StandardBloomFilter.byteSize filter.bitArraySize) :
    (readerOf filter).Accepted := accepted_of_new (new_serialize room)

theorem mayContain_readerOf
    (room : filter.bitArray.length = StandardBloomFilter.byteSize filter.bitArraySize)
    (nonneg : 0 ≤ filter.hashFunctionCount.toInt) (key : Key) :
    (readerOf filter).mayContain key = filter.toFilter.mayContain key := by
  have accepted := accepted_readerOf room
  have count := signedCount_nonneg accepted (by rwa [signedCount_readerOf])
  have bits : ∀ index, (readerOf filter).getBit index =
      BloomFilter.getBit (bytesBits filter.bitArray) index := by
    intro index
    rw [← StandardBloomFilter.getBit_eq, getBit, ← accepted.room]
    rfl
  rw [signedCount_readerOf] at count
  rw [mayContain, BloomFilter.mayContain, BloomFilter.positions, List.all_map, ← count]
  exact congrArg (List.all _) (funext fun hash => bits _)

theorem answer_readerOf (room : filter.bitArray.length = StandardBloomFilter.byteSize filter.bitArraySize)
    (key : Key) : ((readerOf filter).mayContainLoading key).within filter.bitArray = some (
      if filter.hashFunctionCount.toInt < 0 then .error .lengthError
      else if filter.bitArraySize = 0 ∧ filter.hashFunctionCount.toInt ≠ 0 then .error .remainderByZero
      else .ok (filter.toFilter.mayContain key)) := by
  have found := mayContainLoading_within (accepted_readerOf room) key
  have zero : (readerOf filter).bitArraySize = 0 ↔ filter.bitArraySize = 0 :=
    ⟨fun same => UInt64.toNat_inj.mp same, fun same => congrArg UInt64.toNat same⟩
  simp only [signedCount_readerOf, zero] at found
  refine found.trans ?_
  by_cases neg : filter.hashFunctionCount.toInt < 0
  · rw [if_pos neg, if_pos neg]
  · rw [mayContain_readerOf room (Int.not_lt.mp neg)]

end written

end TableFile.BloomFilterReader

namespace BloomFilterBuilder
open StandardBloomFilter TableFile.BloomFilterReader

def FindsKeys (keys : List Key) (bitArraySize : UInt64) (hashFunctionCount : Int32) : Prop :=
  ∃ block, finish keys bitArraySize hashFunctionCount = .ok block ∧ ∀ key ∈ keys, ∃ reader,
    TableFile.BloomFilterReader.new block = some reader ∧
      (reader.mayContainLoading key).within reader.bitArray = some (.ok true)

/-- About every key the reader of an accepted block gives an answer, from the bit array alone. -/
def Answers (block : Bytes) (key : Key) : Prop :=
  ∀ reader, TableFile.BloomFilterReader.new block = some reader →
    (reader.mayContainLoading key).StaysInside reader.bitArray ∧
      ∃ answer, (reader.mayContainLoading key).within reader.bitArray = some (.ok answer)

variable {keys : List Key} {size : UInt64} {count : Int32} {key : Key}

def filled (keys : List Key) (size : UInt64) (count : Int32) : StandardBloomFilter :=
  { StandardBloomFilter.new size count with
    bitArray := ((StandardBloomFilter.new size count).positions keys).foldl setBit
      (StandardBloomFilter.new size count).bitArray
    elementCount := 0 + UInt64.ofNat keys.length }

theorem room_new (size : UInt64) (count : Int32) :
    (StandardBloomFilter.new size count).bitArray.length = byteSize size := List.length_replicate

theorem room_filled : (filled keys size count).bitArray.length = byteSize size := by
  rw [filled, StandardBloomFilter.length_foldl_setBit]
  exact room_new size count

theorem finish_of_nonneg (nonempty : keys ≠ []) (nonzero : size ≠ 0) (nonneg : 0 ≤ count.toInt) :
    finish keys size count = .ok (filled keys size count).serialize := by
  rw [finish, if_neg nonempty, @foldlM_add_ok (StandardBloomFilter.new size count) nonzero nonneg]
  rfl

theorem finish_of_zero (nonempty : keys ≠ []) (count : Int32) :
    finish keys 0 count = .ok (StandardBloomFilter.new 0 count).serialize := by
  rw [finish, if_neg nonempty, foldlM_add_zero rfl]
  rfl

theorem finish_of_neg (nonempty : keys ≠ []) (nonzero : size ≠ 0) (neg : count.toInt < 0) :
    finish keys size count = .error .lengthError := by
  have failed := (@single_error (StandardBloomFilter.new size count) nonzero neg _ nonempty).1
  rw [finish, if_neg nonempty, failed]
  rfl

theorem mayContain_filled (nonzero : size ≠ 0) (fits : size.toNat + 7 < uint64Limit)
    (member : key ∈ keys) : (filled keys size count).toFilter.mayContain key := by
  have positive : 0 < size.toNat := Nat.pos_of_ne_zero fun same => nonzero (UInt64.toNat_inj.mp same)
  have sized : BloomFilter.Sized size.toNat count.toInt.toNat
      (StandardBloomFilter.new size count).toFilter := by
    refine ⟨rfl, rfl, ?_⟩
    show size.toNat ≤ (bytesBits _).length
    rw [length_bytesBits, room_new, byteSize_eq, Nat.mod_eq_of_lt fits]
    omega
  have bits : (filled keys size count).toFilter =
      keys.foldl BloomFilter.add (StandardBloomFilter.new size count).toFilter :=
    @toFilter_foldl (StandardBloomFilter.new size count) nonzero keys _
  rw [bits]
  exact BloomFilter.mayContain_foldl_add positive keys sized (.inr member)

theorem not_mayContain_filled (wraps : ¬ size.toNat + 7 < uint64Limit) (positive : 0 < count.toInt)
    (key : Key) : (filled keys size count).toFilter.mayContain key = false := by
  have none : (filled keys size count).bitArray = [] := by
    apply List.eq_nil_of_length_eq_zero
    have below : size.toNat < uint64Limit := size.toNat_lt
    unfold uint64Limit at wraps below
    rw [room_filled, byteSize_eq]
    unfold uint64Limit
    omega
  have clear : (filled keys size count).toFilter.bits = [] := congrArg bytesBits none
  have length := length_computeHashes count.toInt.toNat key
  rw [BloomFilter.mayContain, clear, BloomFilter.positions]
  show ((BloomFilter.computeHashes count.toInt.toNat key).map _).all _ = false
  cases hashes : BloomFilter.computeHashes count.toInt.toNat key with
  | nil =>
      rw [hashes, List.length_nil] at length
      omega
  | cons hash rest => rfl

theorem mayContain_of_no_hashes (none : count.toInt = 0) (filter : StandardBloomFilter)
    (same : filter.hashFunctionCount = count) (key : Key) : filter.toFilter.mayContain key = true := by
  have noHashes : filter.toFilter.hashFunctionCount = 0 := by
    show filter.hashFunctionCount.toInt.toNat = 0
    rw [same, none]
    rfl
  rw [BloomFilter.mayContain, BloomFilter.positions, noHashes]
  rfl

theorem findsKeys_written {filter : StandardBloomFilter}
    (room : filter.bitArray.length = byteSize filter.bitArraySize)
    (made : finish keys size count = .ok filter.serialize) : FindsKeys keys size count ↔
      ∀ key ∈ keys, ((readerOf filter).mayContainLoading key).within filter.bitArray =
        some (.ok true) := by
  rw [FindsKeys, made]
  constructor
  · rintro ⟨_, ⟨⟩, all⟩ key member
    obtain ⟨reader, accepted, answer⟩ := all key member
    cases (new_serialize room).symm.trans accepted
    exact answer
  · intro all
    exact ⟨_, rfl, fun key member => ⟨_, new_serialize room, all key member⟩⟩

theorem findsKeys_zero (nonempty : keys ≠ []) (count : Int32) :
    FindsKeys keys 0 count ↔ count.toInt = 0 := by
  rw [findsKeys_written (room_new 0 count) (finish_of_zero nonempty count)]
  have answer := answer_readerOf (room_new 0 count)
  change ∀ key, _ = some (if count.toInt < 0 then _ else if 0 = 0 ∧ count.toInt ≠ 0 then _ else _)
    at answer
  constructor
  · intro all
    obtain ⟨key, member⟩ := List.exists_mem_of_ne_nil keys nonempty
    have here := (answer key).symm.trans (all key member)
    by_cases neg : count.toInt < 0
    · rw [if_pos neg] at here
      cases here
    by_contra some
    rw [if_neg neg, if_pos ⟨rfl, some⟩] at here
    cases here
  · intro none key _
    rw [answer, if_neg (by omega), if_neg fun both => both.2 none, mayContain_of_no_hashes none _ rfl]

theorem findsKeys_nonzero (nonempty : keys ≠ []) (nonzero : size ≠ 0) (nonneg : 0 ≤ count.toInt) :
    FindsKeys keys size count ↔ count.toInt = 0 ∨ size.toNat + 7 < uint64Limit := by
  rw [findsKeys_written room_filled (finish_of_nonneg nonempty nonzero nonneg)]
  have answer := answer_readerOf (@room_filled keys size count)
  change ∀ key, _ = some (if count.toInt < 0 then _ else if size = 0 ∧ count.toInt ≠ 0 then _ else _)
    at answer
  constructor
  · intro all
    obtain ⟨key, member⟩ := List.exists_mem_of_ne_nil keys nonempty
    have here := (answer key).symm.trans (all key member)
    rw [if_neg (by omega), if_neg fun both => nonzero both.1] at here
    by_cases none : count.toInt = 0
    · exact .inl none
    apply Or.inr
    by_contra wraps
    rw [not_mayContain_filled wraps (by omega)] at here
    cases here
  · intro allowed key member
    rw [answer, if_neg (by omega), if_neg fun both => nonzero both.1]
    rcases allowed with none | fits
    · rw [mayContain_of_no_hashes none _ rfl]
    · rw [mayContain_filled nonzero fits member]

theorem findsKeys_iff (keys : List Key) (size : UInt64) (count : Int32) : FindsKeys keys size count ↔
    keys = [] ∨ count.toInt = 0 ∨
      0 < count.toInt ∧ size ≠ 0 ∧ size.toNat + 7 < uint64Limit := by
  by_cases nonempty : keys = []
  · subst nonempty
    exact iff_of_true ⟨[], rfl, nofun⟩ (.inl rfl)
  rw [or_iff_right nonempty]
  by_cases zero : size = 0
  · subst zero
    rw [findsKeys_zero nonempty]
    simp
  rcases lt_or_ge count.toInt 0 with neg | nonneg
  · apply iff_of_false
    · rintro ⟨block, made, _⟩
      rw [finish_of_neg nonempty zero neg] at made
      cases made
    · rintro (none | ⟨positive, _⟩) <;> omega
  · rw [findsKeys_nonzero nonempty zero nonneg]
    by_cases none : count.toInt = 0
    · simp [none]
    · have positive : 0 < count.toInt := by omega
      simp [none, positive, zero]

theorem answers_iff {block : Bytes} {reader : TableFile.BloomFilterReader}
    (accepted : TableFile.BloomFilterReader.new block = some reader) (key : Key) :
    Answers block key ↔ reader.signedCount.toInt = 0 ∨
      0 < reader.signedCount.toInt ∧ reader.bitArraySize ≠ 0 := by
  have answer := mayContainLoading_within (accepted_of_new accepted) key
  constructor
  · intro all
    obtain ⟨_, value, found⟩ := all reader accepted
    rw [answer] at found
    by_cases neg : reader.signedCount.toInt < 0
    · rw [if_pos neg] at found
      cases found
    by_cases none : reader.signedCount.toInt = 0
    · exact .inl none
    refine .inr ⟨by omega, ?_⟩
    intro zero
    rw [if_neg neg, if_pos ⟨zero, none⟩] at found
    cases found
  · intro allowed other same
    obtain rfl := Option.some.inj (accepted.symm.trans same)
    have nonneg : ¬ reader.signedCount.toInt < 0 := by
      rcases allowed with none | ⟨positive, _⟩ <;> omega
    have bits : ¬ (reader.bitArraySize = 0 ∧ reader.signedCount.toInt ≠ 0) := by
      rintro ⟨zero, nonzero⟩
      rcases allowed with none | ⟨_, some⟩
      · exact nonzero none
      · exact some zero
    rw [if_neg nonneg, if_neg bits] at answer
    constructor
    · rw [Loading.staysInside_iff, answer]
      rfl
    · exact ⟨_, answer⟩

/-- No added key is hidden and every question is answered exactly under these conditions on the sizes:
those of the builder, and those in the header of the block. -/
theorem bloom_block_sound (keys : List Key) (size : UInt64) (count : Int32) (block : Bytes) (key : Key) :
    (FindsKeys keys size count ↔ keys = [] ∨ count.toInt = 0 ∨
      0 < count.toInt ∧ size ≠ 0 ∧ size.toNat + 7 < uint64Limit) ∧
    (Answers block key ↔ ∀ reader, TableFile.BloomFilterReader.new block = some reader →
      reader.signedCount.toInt = 0 ∨ 0 < reader.signedCount.toInt ∧ reader.bitArraySize ≠ 0) := by
  refine ⟨findsKeys_iff keys size count, ?_⟩
  constructor
  · intro answers reader accepted
    exact (answers_iff accepted key).mp answers
  · intro allowed reader accepted
    exact (answers_iff accepted key).mpr (allowed reader accepted) reader accepted

theorem not_findsKeys : ¬ ∀ (keys : List Key) (size : UInt64) (count : Int32) (block : Bytes) (key : Key),
    FindsKeys keys size count ∧ Answers block key := by
  intro all
  obtain ⟨block, made, found⟩ := (all [[1]] 0 1 [] []).1
  rw [finish_of_zero (List.cons_ne_nil _ _)] at made
  cases made
  obtain ⟨reader, accepted, answer⟩ := found [1] List.mem_cons_self
  cases (new_serialize (room_new 0 1)).symm.trans accepted
  exact absurd ((answer_readerOf (room_new 0 1) [1]).symm.trans answer) (by decide)

end BloomFilterBuilder
end Lrdb
