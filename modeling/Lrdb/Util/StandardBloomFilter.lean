import Lrdb.Core.InternalKey
import Lrdb.Util.BloomFilter
import Lrdb.Util.Crc32

/-!
# The Bloom filter on its bytes

Sizes and counts are those of the machine, and the number of hash functions is signed. The single
operations look whether the filter has any bits before they take a remainder, those on a batch of
keys do not.
-/

namespace Lrdb

inductive BloomFault where
  | remainderByZero | lengthError
  deriving DecidableEq, Repr

structure StandardBloomFilter where
  bitArraySize : UInt64
  hashFunctionCount : Int32
  elementCount : UInt64
  bitArray : Bytes
  deriving DecidableEq, Repr

namespace StandardBloomFilter

/-- `max_size` of a vector of 32 bit numbers. -/
def maxHashes : Nat := 0x1FFFFFFFFFFFFFFF

/-- An `int` as a `size_t`. -/
def toSize (count : Int32) : Nat := (count.toInt % 0x10000000000000000).toNat

def reserve (n : Nat) : Except BloomFault Unit :=
  if maxHashes < n then .error .lengthError else .ok ()

def byteSize (bitArraySize : UInt64) : Nat := (bitArraySize + 7).toNat / 8

def new (bitArraySize : UInt64) (hashFunctionCount : Int32) : StandardBloomFilter :=
  ⟨bitArraySize, hashFunctionCount, 0, List.replicate (byteSize bitArraySize) 0⟩

/-- `SetBitOptimized`. -/
def setBit (bits : Bytes) (index : Nat) : Bytes :=
  if index / 8 < bits.length then
    bits.set (index / 8) (bits.getD (index / 8) 0 ||| UInt8.ofNat (1 <<< (index % 8)))
  else bits

/-- `GetBitOptimized`. -/
def getBit (bits : Bytes) (index : Nat) : Bool :=
  if index / 8 < bits.length then (bits.getD (index / 8) 0).toNat.testBit (index % 8) else false

def computeHashes (count : Int32) (key : Key) : Except BloomFault (List UInt32) := do
  reserve (toSize count)
  return BloomFilter.computeHashes count.toInt.toNat key

def bitIndex (size : UInt64) (hash : UInt32) : Except BloomFault Nat :=
  if size = 0 then .error .remainderByZero else .ok (hash.toNat % size.toNat)

def setBits (size : UInt64) : List UInt32 → Bytes → Except BloomFault Bytes
  | [], bits => .ok bits
  | hash :: hashes, bits => do
      let index ← bitIndex size hash
      setBits size hashes (setBit bits index)

def testBits (size : UInt64) (bits : Bytes) : List UInt32 → Except BloomFault Bool
  | [] => .ok true
  | hash :: hashes => do
      let index ← bitIndex size hash
      if getBit bits index then testBits size bits hashes else return false

variable (filter : StandardBloomFilter)

def add (key : Key) : Except BloomFault StandardBloomFilter :=
  if filter.bitArraySize = 0 then .ok filter
  else do
    let hashes ← computeHashes filter.hashFunctionCount key
    let bits ← setBits filter.bitArraySize hashes filter.bitArray
    return { filter with bitArray := bits, elementCount := filter.elementCount + 1 }

def mayContain (key : Key) : Except BloomFault Bool :=
  if filter.bitArraySize = 0 then .ok true
  else do
    let hashes ← computeHashes filter.hashFunctionCount key
    testBits filter.bitArraySize filter.bitArray hashes

/-- The first loop of `AddBatch`. -/
def collectHashes (count : Int32) : List Key → List UInt32 → Except BloomFault (List UInt32)
  | [], allHashes => .ok allHashes
  | key :: keys, allHashes => do
      let hashes ← computeHashes count key
      reserve (allHashes.length + hashes.length)
      collectHashes count keys (allHashes ++ hashes)

def addBatch (keys : List Key) : Except BloomFault StandardBloomFilter :=
  if keys = [] then .ok filter
  else do
    reserve (keys.length * toSize filter.hashFunctionCount % 0x10000000000000000)
    let allHashes ← collectHashes filter.hashFunctionCount keys []
    let bits ← setBits filter.bitArraySize allHashes filter.bitArray
    return { filter with
      bitArray := bits
      elementCount := filter.elementCount + UInt64.ofNat keys.length }

/-- The body of the loop of `MayContainBatch`. -/
def batchAnswer (key : Key) : Except BloomFault Bool := do
  let hashes ← computeHashes filter.hashFunctionCount key
  testBits filter.bitArraySize filter.bitArray hashes

/-- `MayContainBatch` into these results; of no keys it says that it has done nothing. -/
def mayContainBatch (keys : List Key) (results : List Bool) : Except BloomFault (Bool × List Bool) :=
  if keys = [] then .ok (false, results)
  else do
    let results ← keys.mapM filter.batchAnswer
    return (true, results)

def serialize : Bytes :=
  putFixed64 filter.bitArraySize.toNat ++ (putFixed 4 filter.hashFunctionCount.toUInt32.toNat ++
    (putFixed64 filter.elementCount.toNat ++ filter.bitArray))

/-- `Deserialize`; the fields of the header are taken before the size is compared. -/
def deserialize (data : Bytes) : Bool × StandardBloomFilter :=
  if data.length < 20 then (false, filter)
  else
    let bitArraySize := UInt64.ofNat (decodeFixed (data.take 8))
    let header : StandardBloomFilter :=
      { bitArraySize
        hashFunctionCount := (UInt32.ofNat (decodeFixed ((data.drop 8).take 4))).toInt32
        elementCount := UInt64.ofNat (decodeFixed ((data.drop 12).take 8))
        bitArray := filter.bitArray }
    if data.length ≠ 20 + byteSize bitArraySize then (false, header)
    else (true, { header with bitArray := data.drop 20 })

/-! ## Counts -/

theorem toSize_of_nonneg {count : Int32} (nonneg : 0 ≤ count.toInt) :
    toSize count = count.toInt.toNat ∧ count.toInt.toNat ≤ maxHashes := by
  have below := count.toInt_lt
  rw [toSize, maxHashes]
  omega

theorem toSize_of_neg {count : Int32} (neg : count.toInt < 0) : maxHashes < toSize count := by
  have above := count.le_toInt
  rw [toSize, maxHashes]
  omega

theorem reserve_ok {n : Nat} (fits : n ≤ maxHashes) : reserve n = .ok () := if_neg (Nat.not_lt.mpr fits)

theorem reserve_error {n : Nat} (long : maxHashes < n) : reserve n = .error .lengthError := if_pos long

theorem computeHashes_of_nonneg {count : Int32} (nonneg : 0 ≤ count.toInt) (key : Key) :
    computeHashes count key = .ok (BloomFilter.computeHashes count.toInt.toNat key) := by
  obtain ⟨value, fits⟩ := toSize_of_nonneg nonneg
  rw [computeHashes, value, reserve_ok fits]
  rfl

theorem computeHashes_of_neg {count : Int32} (neg : count.toInt < 0) (key : Key) :
    computeHashes count key = .error .lengthError := by
  rw [computeHashes, reserve_error (toSize_of_neg neg)]
  rfl

theorem length_computeHashes (count : Nat) (key : Key) :
    (BloomFilter.computeHashes count key).length = count := by
  simp [BloomFilter.computeHashes]

/-! ## Bits -/

def indices (size : UInt64) (hashes : List UInt32) : List Nat :=
  hashes.map fun hash => hash.toNat % size.toNat

theorem bitIndex_ok {size : UInt64} (nonzero : size ≠ 0) (hash : UInt32) :
    bitIndex size hash = .ok (hash.toNat % size.toNat) := if_neg nonzero

theorem setBits_ok {size : UInt64} (nonzero : size ≠ 0) (hashes : List UInt32) (bits : Bytes) :
    setBits size hashes bits = .ok ((indices size hashes).foldl setBit bits) := by
  induction hashes generalizing bits with
  | nil => rfl
  | cons hash hashes ih =>
      rw [setBits, bitIndex_ok nonzero]
      exact ih _

theorem testBits_ok {size : UInt64} (nonzero : size ≠ 0) (bits : Bytes) (hashes : List UInt32) :
    testBits size bits hashes = .ok ((indices size hashes).all (getBit bits)) := by
  induction hashes with
  | nil => rfl
  | cons hash hashes ih =>
      rw [testBits, bitIndex_ok nonzero]
      show (if getBit bits (hash.toNat % size.toNat) then _ else _) = _
      rw [indices, List.map_cons, List.all_cons]
      cases getBit bits (hash.toNat % size.toNat) with
      | true => exact ih
      | false => rfl

@[simp] theorem length_setBit (bits : Bytes) (index : Nat) : (setBit bits index).length = bits.length := by
  rw [setBit]
  split
  · exact List.length_set
  · rfl

theorem getElem?_bytesBits (bits : Bytes) (index : Nat) :
    (bytesBits bits)[index]? = bits[index / 8]?.map fun b => b.toNat.testBit (index % 8) := by
  induction bits generalizing index with
  | nil => rfl
  | cons b bits ih =>
      have eight : (byteBits b).length = 8 := by simp [byteBits]
      rw [bytesBits, List.flatMap_cons]
      by_cases first : index < 8
      · rw [List.getElem?_append_left (by omega), Nat.div_eq_of_lt first, Nat.mod_eq_of_lt first,
          byteBits, List.getElem?_map, List.getElem?_range first]
        rfl
      · have later := ih (index - 8)
        rw [bytesBits] at later
        rw [List.getElem?_append_right (by omega), eight, later]
        have place : index / 8 = (index - 8) / 8 + 1 := by omega
        have offset : index % 8 = (index - 8) % 8 := by omega
        rw [place, offset, List.getElem?_cons_succ]

theorem getBit_eq (bits : Bytes) (index : Nat) :
    getBit bits index = BloomFilter.getBit (bytesBits bits) index := by
  rw [getBit, BloomFilter.getBit]
  simp only [List.getD_eq_getElem?_getD, getElem?_bytesBits]
  by_cases inside : index / 8 < bits.length
  · simp [inside]
  · simp [inside]

theorem testBit_mark (b : UInt8) {offset : Nat} (small : offset < 8) (i : Nat) :
    (b ||| UInt8.ofNat (1 <<< offset)).toNat.testBit i = (b.toNat.testBit i || decide (offset = i)) := by
  have byte : 2 ^ offset < 2 ^ 8 := Nat.pow_lt_pow_right (by decide) small
  rw [UInt8.toNat_or, Nat.testBit_or, UInt8.toNat_ofNat', Nat.one_shiftLeft, Nat.mod_eq_of_lt byte,
    Nat.testBit_two_pow]

theorem bytesBits_setBit (bits : Bytes) (index : Nat) :
    bytesBits (setBit bits index) = BloomFilter.setBit (bytesBits bits) index := by
  apply List.ext_getElem?
  intro i
  rw [BloomFilter.setBit, getElem?_bytesBits, List.getElem?_set, length_bytesBits, getElem?_bytesBits,
    setBit]
  by_cases inside : index / 8 < bits.length
  · rw [if_pos inside, List.getElem?_set]
    by_cases sameByte : index / 8 = i / 8
    · rw [if_pos sameByte, if_pos inside]
      have found : bits[i / 8]? = some (bits.getD (index / 8) 0) := by
        rw [← sameByte]
        simp [inside]
      rw [found, Option.map_some, Option.map_some, testBit_mark _ (Nat.mod_lt _ (by decide))]
      by_cases same : index = i
      · subst same
        rw [if_pos rfl, if_pos (by omega)]
        simp
      · have offsets : index % 8 ≠ i % 8 := by omega
        rw [if_neg same]
        simp [offsets]
    · have different : index ≠ i := fun same => sameByte (congrArg (· / 8) same)
      rw [if_neg sameByte, if_neg different]
  · rw [if_neg inside]
    by_cases same : index = i
    · subst same
      rw [if_pos rfl, if_neg (by omega), List.getElem?_eq_none (Nat.not_lt.mp inside)]
      rfl
    · rw [if_neg same]

theorem bytesBits_foldl (places : List Nat) (bits : Bytes) :
    bytesBits (places.foldl setBit bits) = places.foldl BloomFilter.setBit (bytesBits bits) := by
  induction places generalizing bits with
  | nil => rfl
  | cons place places ih => rw [List.foldl_cons, ih, bytesBits_setBit, List.foldl_cons]

theorem length_foldl_setBit (places : List Nat) (bits : Bytes) :
    (places.foldl setBit bits).length = bits.length := by
  induction places generalizing bits with
  | nil => rfl
  | cons place places ih => rw [List.foldl_cons, ih, length_setBit]

/-! ## The filter and its bits -/

section refinement
variable {filter : StandardBloomFilter} {key : Key}

def toFilter (filter : StandardBloomFilter) : BloomFilter :=
  ⟨filter.bitArraySize.toNat, filter.hashFunctionCount.toInt.toNat, bytesBits filter.bitArray⟩

def added (filter : StandardBloomFilter) (key : Key) : StandardBloomFilter :=
  { filter with
    bitArray := (filter.toFilter.positions key).foldl setBit filter.bitArray
    elementCount := filter.elementCount + 1 }

theorem toFilter_size_ne_zero (nonzero : filter.bitArraySize ≠ 0) : filter.toFilter.bitArraySize ≠ 0 :=
  fun same => nonzero (UInt64.toNat_inj.mp same)

theorem add_ok (nonzero : filter.bitArraySize ≠ 0) (nonneg : 0 ≤ filter.hashFunctionCount.toInt)
    (key : Key) : filter.add key = .ok (filter.added key) := by
  rw [add, if_neg nonzero, computeHashes_of_nonneg nonneg]
  show (setBits _ _ _ >>= _) = _
  rw [setBits_ok nonzero]
  rfl

theorem add_error (nonzero : filter.bitArraySize ≠ 0) (neg : filter.hashFunctionCount.toInt < 0)
    (key : Key) : filter.add key = .error .lengthError := by
  rw [add, if_neg nonzero, computeHashes_of_neg neg]
  rfl

theorem toFilter_added (nonzero : filter.bitArraySize ≠ 0) (key : Key) :
    (filter.added key).toFilter = filter.toFilter.add key := by
  rw [BloomFilter.add, if_neg (toFilter_size_ne_zero nonzero)]
  show BloomFilter.mk _ _ (bytesBits _) = _
  rw [added, bytesBits_foldl]
  rfl

theorem mayContain_ok (nonzero : filter.bitArraySize ≠ 0) (nonneg : 0 ≤ filter.hashFunctionCount.toInt)
    (key : Key) : filter.mayContain key = .ok (filter.toFilter.mayContain key) := by
  have bits : getBit filter.bitArray = BloomFilter.getBit (bytesBits filter.bitArray) :=
    funext fun index => getBit_eq filter.bitArray index
  rw [mayContain, if_neg nonzero, computeHashes_of_nonneg nonneg]
  show testBits _ _ _ = _
  rw [testBits_ok nonzero, bits]
  rfl

end refinement

end StandardBloomFilter
end Lrdb
