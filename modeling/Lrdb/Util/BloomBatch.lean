import Lrdb.Util.StandardBloomFilter

namespace Lrdb
namespace StandardBloomFilter
variable {filter : StandardBloomFilter}

def positions (filter : StandardBloomFilter) (keys : List Key) : List Nat :=
  keys.flatMap filter.toFilter.positions

theorem foldlM_add_ok (nonzero : filter.bitArraySize ≠ 0) (nonneg : 0 ≤ filter.hashFunctionCount.toInt)
    (keys : List Key) : keys.foldlM add filter = .ok { filter with
      bitArray := (filter.positions keys).foldl setBit filter.bitArray
      elementCount := filter.elementCount + UInt64.ofNat keys.length } := by
  induction keys generalizing filter with
  | nil =>
      have none : filter.elementCount + UInt64.ofNat 0 = filter.elementCount := UInt64.add_zero _
      rw [List.foldlM_nil, positions, List.flatMap_nil, List.foldl_nil, List.length_nil, none]
      rfl
  | cons key keys ih =>
      have same : (filter.added key).positions keys = filter.positions keys := rfl
      have count : filter.elementCount + 1 + UInt64.ofNat keys.length =
          filter.elementCount + UInt64.ofNat (key :: keys).length := by
        rw [List.length_cons, UInt64.ofNat_add, UInt64.add_assoc, UInt64.add_comm 1]
        rfl
      rw [List.foldlM_cons, add_ok nonzero nonneg]
      refine (@ih (filter.added key) nonzero nonneg).trans ?_
      rw [same, ← count, positions, positions, List.flatMap_cons, List.foldl_append]
      rfl

theorem toFilter_foldl (nonzero : filter.bitArraySize ≠ 0) (keys : List Key) {count : UInt64} :
    toFilter { filter with
      bitArray := (filter.positions keys).foldl setBit filter.bitArray, elementCount := count } =
      keys.foldl BloomFilter.add filter.toFilter := by
  induction keys generalizing filter with
  | nil => rfl
  | cons key keys ih =>
      rw [List.foldl_cons, ← toFilter_added nonzero, ← @ih (filter.added key) nonzero,
        positions, List.flatMap_cons, List.foldl_append]
      rfl

theorem foldlM_add_zero (zero : filter.bitArraySize = 0) (keys : List Key) :
    keys.foldlM add filter = .ok filter := by
  induction keys with
  | nil => rfl
  | cons key keys ih =>
      rw [List.foldlM_cons, add, if_pos zero]
      exact ih

theorem collectHashes_eq {count : Int32} (nonneg : 0 ≤ count.toInt) (keys : List Key)
    {all : List UInt32} (fits : all.length ≤ maxHashes) : collectHashes count keys all =
      if all.length + keys.length * count.toInt.toNat ≤ maxHashes then
        .ok (all ++ keys.flatMap (BloomFilter.computeHashes count.toInt.toNat))
      else .error .lengthError := by
  induction keys generalizing all with
  | nil => simp [collectHashes, fits]
  | cons key keys ih =>
      have total : all.length + (key :: keys).length * count.toInt.toNat =
          (all ++ BloomFilter.computeHashes count.toInt.toNat key).length +
            keys.length * count.toInt.toNat := by
        rw [List.length_append, length_computeHashes, List.length_cons, Nat.succ_mul]
        omega
      rw [collectHashes, computeHashes_of_nonneg nonneg]
      show (reserve _ >>= fun _ => _) = _
      rw [← List.length_append, total]
      by_cases here : (all ++ BloomFilter.computeHashes count.toInt.toNat key).length ≤ maxHashes
      · rw [reserve_ok here]
        refine (ih here).trans ?_
        rw [List.append_assoc, List.flatMap_cons]
      · rw [reserve_error (Nat.not_le.mp here), if_neg (by omega)]
        rfl

theorem addBatch_eq (nonzero : filter.bitArraySize ≠ 0) (nonneg : 0 ≤ filter.hashFunctionCount.toInt)
    {keys : List Key} (nonempty : keys ≠ []) : filter.addBatch keys =
      if keys.length * filter.hashFunctionCount.toInt.toNat ≤ maxHashes then keys.foldlM add filter
      else .error .lengthError := by
  have collected := @collectHashes_eq _ nonneg keys [] (Nat.zero_le _)
  rw [List.length_nil, Nat.zero_add, List.nil_append] at collected
  rw [addBatch, if_neg nonempty, collected, (toSize_of_nonneg nonneg).1]
  by_cases fits : keys.length * filter.hashFunctionCount.toInt.toNat ≤ maxHashes
  · have small : keys.length * filter.hashFunctionCount.toInt.toNat < 0x10000000000000000 :=
      Nat.lt_of_le_of_lt fits (by decide)
    have places : indices filter.bitArraySize
        (keys.flatMap (BloomFilter.computeHashes filter.hashFunctionCount.toInt.toNat)) =
          filter.positions keys := List.map_flatMap ..
    rw [Nat.mod_eq_of_lt small, reserve_ok fits, if_pos fits, if_pos fits,
      foldlM_add_ok nonzero nonneg, ← places]
    show (setBits _ _ _ >>= _) = _
    rw [setBits_ok nonzero]
    rfl
  · rw [if_neg fits, if_neg fits, reserve]
    split <;> rfl

theorem addBatch_neg (neg : filter.hashFunctionCount.toInt < 0) {keys : List Key} (nonempty : keys ≠ []) :
    filter.addBatch keys = .error .lengthError := by
  cases keys with
  | nil => exact absurd rfl nonempty
  | cons key keys =>
      rw [addBatch, if_neg nonempty, collectHashes, computeHashes_of_neg neg, reserve]
      split <;> rfl

theorem addBatch_count {filter' : StandardBloomFilter} {keys : List Key}
    (done : filter.addBatch keys = .ok filter') :
    filter'.elementCount = filter.elementCount + UInt64.ofNat keys.length := by
  rw [addBatch] at done
  split at done
  · rename_i empty
    cases done
    rw [empty]
    exact (UInt64.add_zero _).symm
  · cases reserved : reserve (keys.length * toSize filter.hashFunctionCount % 0x10000000000000000) with
    | error fault => rw [reserved] at done; cases done
    | ok _ =>
        cases collected : collectHashes filter.hashFunctionCount keys [] with
        | error fault => rw [reserved, collected] at done; cases done
        | ok all =>
            cases set : setBits filter.bitArraySize all filter.bitArray with
            | error fault =>
                rw [reserved, collected] at done
                change (setBits _ _ _ >>= _) = _ at done
                rw [set] at done
                cases done
            | ok bits =>
                rw [reserved, collected] at done
                change (setBits _ _ _ >>= _) = _ at done
                rw [set] at done
                cases done
                rfl

structure BatchAgrees (filter : StandardBloomFilter) (keys : List Key) (results : List Bool) : Prop where
  adds : filter.addBatch keys = keys.foldlM add filter
  answers : filter.mayContainBatch keys results =
    if keys = [] then .ok (false, results) else (keys.mapM filter.mayContain).map (Prod.mk true)
  adds_remainder : filter.addBatch keys ≠ .error .remainderByZero
  answers_remainder : filter.mayContainBatch keys results ≠ .error .remainderByZero

theorem mayContainBatch_eq (nonzero : filter.bitArraySize ≠ 0) (keys : List Key) (results : List Bool) :
    filter.mayContainBatch keys results =
      if keys = [] then .ok (false, results) else (keys.mapM filter.mayContain).map (Prod.mk true) := by
  have same : filter.mayContain = filter.batchAnswer := by
    funext key
    exact if_neg nonzero
  rw [same]
  rfl

theorem mapM_mayContain_ok (nonzero : filter.bitArraySize ≠ 0)
    (nonneg : 0 ≤ filter.hashFunctionCount.toInt) (keys : List Key) :
    keys.mapM filter.mayContain = .ok (keys.map filter.toFilter.mayContain) := by
  induction keys with
  | nil => rfl
  | cons key keys ih =>
      rw [List.mapM_cons, mayContain_ok nonzero nonneg, ih]
      rfl

theorem single_error (nonzero : filter.bitArraySize ≠ 0) (neg : filter.hashFunctionCount.toInt < 0)
    {keys : List Key} (nonempty : keys ≠ []) : keys.foldlM add filter = .error .lengthError ∧
      keys.mapM filter.mayContain = .error .lengthError := by
  cases keys with
  | nil => exact absurd rfl nonempty
  | cons key keys =>
      constructor
      · rw [List.foldlM_cons, add_error nonzero neg]
        rfl
      · rw [List.mapM_cons, mayContain, if_neg nonzero, computeHashes_of_neg neg]
        rfl

theorem not_agrees_of_zero (zero : filter.bitArraySize = 0) {keys : List Key} (nonempty : keys ≠ [])
    (few : keys.length < 0x10000000000000000) (results : List Bool) : ¬ BatchAgrees filter keys results := by
  intro agrees
  have counted := addBatch_count (agrees.adds.trans (foldlM_add_zero zero keys))
  have none : UInt64.ofNat keys.length = 0 := by simpa using counted.symm
  have length : keys.length = 0 := by
    have value := congrArg UInt64.toNat none
    rwa [UInt64.toNat_ofNat', Nat.mod_eq_of_lt few] at value
  exact nonempty (List.length_eq_zero_iff.mp length)

theorem agrees_of_neg (nonzero : filter.bitArraySize ≠ 0) (neg : filter.hashFunctionCount.toInt < 0)
    {keys : List Key} (nonempty : keys ≠ []) (results : List Bool) : BatchAgrees filter keys results := by
  obtain ⟨adding, asking⟩ := single_error nonzero neg nonempty
  have batch := addBatch_neg neg nonempty
  have answers := mayContainBatch_eq nonzero keys results
  refine ⟨batch.trans adding.symm, answers, ?_, ?_⟩
  · rw [batch]
    nofun
  · rw [answers, if_neg nonempty, asking]
    nofun

theorem agrees_of_nonneg_iff (nonzero : filter.bitArraySize ≠ 0)
    (nonneg : 0 ≤ filter.hashFunctionCount.toInt) {keys : List Key} (nonempty : keys ≠ [])
    (results : List Bool) : BatchAgrees filter keys results ↔
      keys.length * filter.hashFunctionCount.toInt.toNat ≤ maxHashes := by
  have batch := addBatch_eq nonzero nonneg nonempty
  have single := foldlM_add_ok nonzero nonneg keys
  constructor
  · intro agrees
    by_contra large
    have same := agrees.adds
    rw [batch, if_neg large, single] at same
    cases same
  · intro fits
    have answers := mayContainBatch_eq nonzero keys results
    rw [if_pos fits] at batch
    refine ⟨batch, answers, ?_, ?_⟩
    · rw [batch, single]
      nofun
    · rw [answers, if_neg nonempty, mapM_mayContain_ok nonzero nonneg]
      nofun

/-- A batch does what the single operations do exactly when there is nothing to do, or the filter has
bits and the hashes of the keys fit in a vector. -/
theorem batchAgrees_iff (filter : StandardBloomFilter) {keys : List Key} (results : List Bool)
    (few : keys.length < 0x10000000000000000) : BatchAgrees filter keys results ↔
      keys = [] ∨ filter.bitArraySize ≠ 0 ∧ (0 ≤ filter.hashFunctionCount.toInt →
        keys.length * filter.hashFunctionCount.toInt.toNat ≤ maxHashes) := by
  by_cases nonempty : keys = []
  · subst nonempty
    exact iff_of_true ⟨rfl, rfl, nofun, nofun⟩ (.inl rfl)
  rw [or_iff_right nonempty]
  by_cases zero : filter.bitArraySize = 0
  · exact iff_of_false (not_agrees_of_zero zero nonempty few results) fun both => both.1 zero
  rw [and_iff_right zero]
  rcases lt_or_ge filter.hashFunctionCount.toInt 0 with neg | nonneg
  · exact iff_of_true (agrees_of_neg zero neg nonempty results) fun nonneg => absurd nonneg (by omega)
  · rw [agrees_of_nonneg_iff zero nonneg nonempty]
    constructor
    · intro fits _
      exact fits
    · intro fits
      exact fits nonneg

theorem batchAgrees_two : BatchAgrees (new 20 7) [[1], [2]] [] :=
  (batchAgrees_iff (new 20 7) [] (by decide)).mpr (.inr ⟨by decide, fun _ => by decide⟩)

theorem not_batchAgrees : ¬ ∀ (filter : StandardBloomFilter) (data : Bytes) (keys : List Key)
    (results : List Bool), (filter.deserialize data).1 = true →
      BatchAgrees (filter.deserialize data).2 keys results := by
  intro all
  have agrees := all (new 0 1) (new 0 1).serialize [[1]] [] (by decide)
  exact agrees.adds_remainder (by decide)

end StandardBloomFilter
end Lrdb
