import Mathlib.Order.Nat
import Mathlib.Data.List.Basic
import Lrdb.Util.Hash

/-!
# Bloom filters

The filter of an SSTable: the writer sets the bits of every user key, the reader rules out a key
one of whose bits is clear.
-/

namespace Lrdb

structure BloomFilter where
  bitArraySize : Nat
  hashFunctionCount : Nat
  bits : List Bool

namespace BloomFilter

/-- Ten bits for each key and `round (10 * log 2)` hash functions. -/
def bitsPerKey : Nat := 10
def hashCount : Nat := 7

def new (bitArraySize hashFunctionCount : Nat) : BloomFilter :=
  ⟨bitArraySize, hashFunctionCount, List.replicate ((bitArraySize + 7) / 8 * 8) false⟩

def secondHash (key : Key) : UInt32 :=
  let h2 := fnvHash32 key
  if h2 = 0 then
    let h2 := crc32 key
    if h2 = 0 then 0x9e3779b9 else h2
  else h2

def computeHashes (hashFunctionCount : Nat) (key : Key) : List UInt32 :=
  let h1 := murmurHash3 key 0xbc9f1d34
  let h2 := secondHash key
  (List.range hashFunctionCount).map fun i =>
    let hash := h1 + UInt32.ofNat i * h2
    let hash := (hash ^^^ (hash >>> 16)) * 0x9e3779b9
    hash ^^^ (hash >>> 13)

def positions (filter : BloomFilter) (key : Key) : List Nat :=
  (computeHashes filter.hashFunctionCount key).map fun hash => hash.toNat % filter.bitArraySize

def setBit (bits : List Bool) (index : Nat) : List Bool := bits.set index true

def getBit (bits : List Bool) (index : Nat) : Bool := bits.getD index false

def add (filter : BloomFilter) (key : Key) : BloomFilter :=
  if filter.bitArraySize = 0 then filter
  else { filter with bits := (filter.positions key).foldl setBit filter.bits }

def mayContain (filter : BloomFilter) (key : Key) : Bool :=
  (filter.positions key).all (getBit filter.bits)

/-- `BloomFilterBuilder::Finish`; without keys there is no filter block. -/
def build (keys : List Key) : Option BloomFilter :=
  if keys = [] then none
  else some (keys.foldl add (new (keys.length * bitsPerKey) hashCount))

private theorem getBit_foldl_setBit (indices : List Nat) (bits : List Bool) (index : Nat) :
    getBit (indices.foldl setBit bits) index = true ↔
      getBit bits index = true ∨ index ∈ indices ∧ index < bits.length := by
  induction indices generalizing bits with
  | nil => simp
  | cons i is ih =>
      rw [List.foldl_cons, ih]
      simp only [setBit, getBit, List.length_set, List.getD_eq_getElem?_getD, List.getElem?_set,
        List.mem_cons]
      grind

private theorem length_foldl_setBit (indices : List Nat) (bits : List Bool) :
    (indices.foldl setBit bits).length = bits.length := by
  induction indices generalizing bits with
  | nil => rfl
  | cons i is ih => rw [List.foldl_cons, ih, setBit, List.length_set]

structure Sized (size count : Nat) (filter : BloomFilter) : Prop where
  sameSize : filter.bitArraySize = size
  sameCount : filter.hashFunctionCount = count
  room : size ≤ filter.bits.length

theorem sized_new (size count : Nat) : Sized size count (new size count) := by
  refine ⟨rfl, rfl, ?_⟩
  simp only [new, List.length_replicate]
  omega

theorem Sized.add {size count : Nat} {filter : BloomFilter} (sized : Sized size count filter)
    (key : Key) : Sized size count (filter.add key) := by
  unfold BloomFilter.add
  split
  · exact sized
  · exact ⟨sized.sameSize, sized.sameCount, sized.room.trans_eq (length_foldl_setBit _ _).symm⟩

theorem Sized.positions_add {size count : Nat} {filter : BloomFilter}
    (sized : Sized size count filter) (key other : Key) :
    (filter.add key).positions other = filter.positions other := by
  have kept := sized.add key
  simp only [positions, kept.sameSize, kept.sameCount, sized.sameSize, sized.sameCount]

theorem mayContain_add_of_mayContain {size count : Nat} {filter : BloomFilter} {key other : Key}
    (sized : Sized size count filter) (contained : filter.mayContain other) :
    (filter.add key).mayContain other := by
  rw [mayContain, sized.positions_add, List.all_eq_true]
  intro index member
  have set : getBit filter.bits index = true := List.all_eq_true.mp contained index member
  unfold BloomFilter.add
  split
  · exact set
  · exact (getBit_foldl_setBit _ _ _).mpr (.inl set)

theorem mayContain_add {size count : Nat} {filter : BloomFilter} {key : Key}
    (sized : Sized size count filter) (positive : 0 < size) : (filter.add key).mayContain key := by
  have nonzero : filter.bitArraySize ≠ 0 := sized.sameSize ▸ positive.ne'
  rw [mayContain, sized.positions_add, List.all_eq_true]
  intro index member
  rw [BloomFilter.add, if_neg nonzero]
  refine (getBit_foldl_setBit _ _ _).mpr (.inr ⟨member, ?_⟩)
  obtain ⟨hash, -, rfl⟩ := List.mem_map.mp member
  have inside := Nat.mod_lt hash.toNat (Nat.pos_of_ne_zero nonzero)
  exact inside.trans_le (sized.sameSize.trans_le sized.room)

theorem mayContain_foldl_add {size count : Nat} (positive : 0 < size) (keys : List Key)
    {filter : BloomFilter} (sized : Sized size count filter) {key : Key}
    (contained : filter.mayContain key ∨ key ∈ keys) : (keys.foldl add filter).mayContain key := by
  induction keys generalizing filter with
  | nil => simpa using contained
  | cons first rest ih =>
      refine ih (sized.add first) ?_
      rcases contained with contained | member
      · exact .inl (mayContain_add_of_mayContain sized contained)
      · rcases List.mem_cons.mp member with rfl | member
        · exact .inl (mayContain_add sized positive)
        · exact .inr member

theorem mayContain_build {keys : List Key} {filter : BloomFilter} (built : build keys = some filter)
    {key : Key} (member : key ∈ keys) : filter.mayContain key := by
  unfold build at built
  split at built
  · cases built
  · rename_i nonempty
    obtain rfl := Option.some.inj built
    have positive : 0 < keys.length * bitsPerKey := by
      have := List.length_pos_of_ne_nil nonempty
      simp only [bitsPerKey]
      omega
    exact mayContain_foldl_add positive keys (sized_new _ _) (.inr member)

end BloomFilter
end Lrdb
