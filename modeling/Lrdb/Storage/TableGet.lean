import Lrdb.Storage.TableRefinement

/-!
# Get on the bytes of a table

Get reads one block and scans its entries. It skips an entry whose key is no internal key, and stops
behind the key it looks for.
-/

namespace Lrdb
namespace TableFile
open Parsing Records

/-! ## The filter and the key range -/

namespace BloomFilterReader
variable (filter : BloomFilterReader)

def getBit (index : Nat) : Bool :=
  if index / 8 < (filter.bitArraySize + 7) % uint64Limit / 8 then
    (filter.bitArray.getD (index / 8) 0).toNat.testBit (index % 8)
  else false

/-- A filter that was written has bits, and fewer than 2^31 hash functions. -/
def mayContain (key : Key) : Bool :=
  (BloomFilter.computeHashes filter.hashFunctionCount key).all fun hash =>
    filter.getBit (hash.toNat % filter.bitArraySize)

end BloomFilterReader

def SSTableMeta.keyInRange (order : Bytes → Bytes → Ordering) (m : SSTableMeta) (key : Key) : Bool :=
  if m.smallestKey.isEmpty ∨ m.largestKey.isEmpty then true
  else order key m.smallestKey ≠ .lt ∧ order key m.largestKey ≠ .gt

/-! ## The scan of a block -/

structure BestVersion where
  sequence : Nat
  isDelete : Bool
  value : Value
  deriving DecidableEq, Repr

namespace SSTableReader
variable (order : Bytes → Bytes → Ordering) (key : Key) (snapshot : Nat)

def better (best : Option BestVersion) (sequence type : Nat) (value : Value) : Option BestVersion :=
  if (snapshot = 0 ∨ sequence ≤ snapshot) ∧ ∀ found ∈ best, found.sequence ≤ sequence then
    some ⟨sequence, type = ValueType.kDeletion.toNat, value⟩
  else best

/-- The loop of `Get` over a block. An entry takes at least two bytes. -/
def scanBlock : Nat → Bytes → Option BestVersion → Except Status (Option BestVersion)
  | 0, _, best => .ok best
  | n + 1, input, best =>
      if input.isEmpty then .ok best
      else
        match getLengthPrefixedSlice input with
        | none => .error (.corruption "Failed to parse key in data block")
        | some (storedInternalKey, input) =>
            match getLengthPrefixedSlice input with
            | none => .error (.corruption "Failed to parse value in data block")
            | some (storedValue, input) =>
                match parseInternalKey storedInternalKey with
                | none => scanBlock n input best
                | some (userKey, sequence, type) =>
                    match order userKey key with
                    | .eq => scanBlock n input (better snapshot best sequence type storedValue)
                    | .gt => .ok best
                    | .lt => scanBlock n input best

def answer (value : Value) : Except Status (Option BestVersion) → MemTable.GetResult
  | .error status => (false, ⟨status, value⟩)
  | .ok none => (false, ⟨.ok, value⟩)
  | .ok (some best) =>
      if best.isDelete then (false, ⟨.deleted "Key was deleted", value⟩) else (true, ⟨.ok, best.value⟩)

/-- The block that `Get` reads, if the key range and the filter let it read one. -/
def locate (reader : SSTableReader) : Option Nat :=
  if ¬ reader.info.keyInRange order key then none
  else if reader.bloomFilter.any fun filter => ¬ filter.mayContain key then none
  else reader.findIndexEntry order key

/-- `SSTableReader::Get` of an open table. -/
def get (reader : SSTableReader) (value : Value) : MemTable.GetResult :=
  match (reader.locate order key).bind fun block => reader.index[block]? with
  | none => answer value (.ok none)
  | some entry =>
      let block := reader.readDataBlock entry.blockOffset entry.blockSize []
      if block.1.isOk then answer value (scanBlock order key snapshot block.2.length block.2 none)
      else answer value (.error block.1)

/-! ## What the scan finds -/

def beyond (e : Bytes × Value) : Bool :=
  (parseInternalKey e.1).any fun parsed => order parsed.1 key = .gt

def bestBehind (best : Option BestVersion) (e : Bytes × Value) : Option BestVersion :=
  match parseInternalKey e.1 with
  | none => best
  | some (userKey, sequence, type) =>
      if order userKey key = .eq then better snapshot best sequence type e.2 else best

def bestOf (entries : List (Bytes × Value)) (best : Option BestVersion) : Option BestVersion :=
  (entries.takeWhile fun e => ¬ beyond order key e).foldl (bestBehind order key snapshot) best

variable {order key snapshot} {entries : List (Bytes × Value)} {input left rest : Bytes}
  {best : Option BestVersion} {e : Bytes × Value} {n : Nat}

theorem scanBlock_end : scanBlock order key snapshot n [] best = .ok best := by
  cases n <;> rfl

theorem scanBlock_entry (found : getEntry input = some (e, rest)) :
    scanBlock order key snapshot (n + 1) input best =
      if beyond order key e then .ok best
      else scanBlock order key snapshot n rest (bestBehind order key snapshot best e) := by
  obtain ⟨middle, first, second⟩ := getEntry_eq_some found
  have filled : ¬ input.isEmpty := by
    intro empty
    rw [List.isEmpty_iff.mp empty, advances_getEntry.nil] at found
    cases found
  rw [scanBlock, if_neg filled]
  simp only [first, second]
  obtain parsed | ⟨⟨userKey, sequence, type⟩, parsed⟩ :=
    Option.eq_none_or_eq_some (parseInternalKey e.1)
  · simp [beyond, bestBehind, parsed]
  · cases compared : order userKey key <;> simp [beyond, bestBehind, parsed, compared]

theorem scanBlock_stuck (stuck : getEntry input = none) (filled : input ≠ []) :
    ∃ message, scanBlock order key snapshot (n + 1) input best = .error (.corruption message) := by
  rw [scanBlock, if_neg (by simpa using filled)]
  cases first : getLengthPrefixedSlice input with
  | none => exact ⟨_, rfl⟩
  | some pair =>
      obtain ⟨storedKey, middle⟩ := pair
      cases second : getLengthPrefixedSlice middle with
      | none => exact ⟨_, by simp only [second]; rfl⟩
      | some more => 
          rw [getEntry_of_slices first second] at stuck
          cases stuck

theorem scanBlock_of_reads (reads : Reads getEntry input entries left) (stuck : getEntry left = none)
    (enough : input.length ≤ n) (stops : left = [] ∨ ∃ e ∈ entries, beyond order key e) :
    scanBlock order key snapshot n input best = .ok (bestOf order key snapshot entries best) := by
  induction reads generalizing n best with
  | nil input =>
      obtain rfl : input = [] := by simpa using stops
      exact scanBlock_end
  | @cons input middle _ e later here reads ih =>
      have less := advances_getEntry.length_lt here
      obtain ⟨m, rfl⟩ : ∃ m, n = m + 1 := ⟨n - 1, by omega⟩
      rw [scanBlock_entry here, bestOf]
      split
      · rename_i behind
        rw [List.takeWhile_cons_of_neg (by simp [behind])]
        rfl
      · rename_i before
        rw [List.takeWhile_cons_of_pos (by simp [before]), List.foldl_cons]
        apply ih stuck (by omega)
        simpa [before] using stops

theorem scanBlock_of_damaged (reads : Reads getEntry input entries left) (stuck : getEntry left = none)
    (enough : input.length ≤ n) (damaged : left ≠ []) (goes : ∀ e ∈ entries, ¬ beyond order key e) :
    ∃ message, scanBlock order key snapshot n input best = .error (.corruption message) := by
  induction reads generalizing n best with
  | nil input =>
      have positive := List.length_pos_iff.mpr damaged
      obtain ⟨m, rfl⟩ : ∃ m, n = m + 1 := ⟨n - 1, by omega⟩
      exact scanBlock_stuck stuck damaged
  | @cons input middle _ e later here reads ih =>
      obtain ⟨before, after⟩ := List.forall_mem_cons.mp goes
      have less := advances_getEntry.length_lt here
      obtain ⟨m, rfl⟩ : ∃ m, n = m + 1 := ⟨n - 1, by omega⟩
      rw [scanBlock_entry here, if_neg before]
      exact ih stuck (by omega) damaged after

theorem get_of_block {reader : SSTableReader} {b : Nat} {entry : IndexEntry} {data : Bytes}
    (located : reader.locate order key = some b) (here : reader.index[b]? = some entry)
    (loaded : reader.readDataBlock entry.blockOffset entry.blockSize [] = (.ok, data)) (value : Value) :
    reader.get order key snapshot value =
      answer value (scanBlock order key snapshot data.length data none) := by
  rw [get, located, Option.bind_some, here]
  simp only [loaded]
  rw [if_pos (show Status.ok.isOk = true from rfl)]

/-! ## Get on the entries of a table -/

section Represents
variable {reader : SSTableReader} {table : SSTable} {cmp : Comparator} {b : Nat} {block : DataBlock}

def ofVersion (version : Version) : BestVersion :=
  ⟨version.1, version.2.1 = .kDeletion, version.2.2⟩

theorem answer_ofVersion (value : Value) (best : Option Version) :
    answer value (.ok (best.map ofVersion)) = SSTable.report value best := by
  cases best with
  | none => rfl
  | some version => simp [answer, ofVersion, SSTable.report]

theorem better_ofVersion (best : Option Version) (e : Entry) :
    better snapshot (best.map ofVersion) e.1.sequence e.1.type.toNat e.2 =
      (if Visible snapshot e.1.sequence ∧ ∀ found ∈ best, found.1 ≤ e.1.sequence then some e.version
        else best).map ofVersion := by
  have kind : e.1.type.toNat = ValueType.kDeletion.toNat ↔ e.1.type = .kDeletion :=
    ⟨ValueType.toNat_injective, congrArg _⟩
  have newest : (∀ found ∈ best.map ofVersion, found.sequence ≤ e.1.sequence) ↔
      ∀ found ∈ best, found.1 ≤ e.1.sequence := by
    cases best <;> simp [ofVersion]
  rw [better]
  simp only [newest, kind]
  by_cases chosen : (snapshot = 0 ∨ e.1.sequence ≤ snapshot) ∧ ∀ found ∈ best, found.1 ≤ e.1.sequence
  · rw [if_pos chosen, if_pos (show Visible snapshot e.1.sequence ∧ _ from chosen)]
    rfl
  · rw [if_neg chosen, if_neg (show ¬ (Visible snapshot e.1.sequence ∧ _) from chosen)]

theorem bestOf_stored (entries : List Entry) (best : Option Version) :
    bestOf cmp.compare key snapshot (entries.map stored) (best.map ofVersion) =
      (SSTable.scanBlock cmp key snapshot best entries).map ofVersion := by
  induction entries generalizing best with
  | nil => rfl
  | cons e rest ih =>
      have parsed : parseInternalKey (stored e).1 = some (e.1.userKey, e.1.sequence, e.1.type.toNat) :=
        parse_encode e.1
      rw [List.map_cons, bestOf, SSTable.scanBlock]
      cases compared : cmp.compare e.1.userKey key with
      | lt =>
          rw [List.takeWhile_cons_of_pos (by simp [beyond, parsed, compared]), List.foldl_cons,
            bestBehind, parsed]
          simp only [compared, reduceCtorEq, if_false]
          exact ih best
      | eq =>
          rw [List.takeWhile_cons_of_pos (by simp [beyond, parsed, compared]), List.foldl_cons,
            bestBehind, parsed]
          simp only [compared, if_true]
          rw [show (stored e).2 = e.2 from rfl, better_ofVersion]
          split
          · exact ih (some e.version)
          · exact ih best
      | gt =>
          rw [List.takeWhile_cons_of_neg (by simp [beyond, parsed, compared])]
          rfl

theorem refines_get (has : Represents reader table)
    (inRange : reader.info.keyInRange cmp.compare key = table.info.keyInRange cmp key)
    (filtered : (reader.bloomFilter.any fun filter => ¬ filter.mayContain key) =
      table.bloom.any fun filter => ¬ filter.mayContain key) (value : Value) :
    reader.get cmp.compare key snapshot value = table.get cmp key snapshot value := by
  have located : reader.locate cmp.compare key =
      if ¬ table.info.keyInRange cmp key then none
      else if table.bloom.any fun filter => ¬ filter.mayContain key then none
      else table.findIndexEntry cmp key := by
    rw [locate, inRange, filtered, SSTableIterator.findIndexEntry_eq has]
  rw [SSTable.get]
  split
  · rename_i outside
    rw [get, located, if_pos outside]
    rfl
  split
  · rename_i inside excluded
    rw [get, located, if_neg inside, if_pos excluded]
    rfl
  rename_i inside passes
  rw [if_neg inside, if_neg passes] at located
  cases found : table.findIndexEntry cmp key with
  | none =>
      rw [get, located, found]
      rfl
  | some b =>
      obtain ⟨block, here⟩ := SSTableIterator.exists_block_of_found found
      obtain ⟨data, reads⟩ := SSTableIterator.reads_block has here
      obtain ⟨entry, index, loaded⟩ := (has.contents.block data).read
      rw [get_of_block (located.trans found) index (loaded []),
        scanBlock_of_reads reads advances_getEntry.nil le_rfl (Or.inl rfl)]
      simp only [Option.bind_some, here]
      rw [← answer_ofVersion, ← bestOf_stored]
      rfl

end Represents

end SSTableReader
end TableFile
end Lrdb
