import Lrdb.Storage.BlockEntries

namespace Lrdb
namespace TableFile
open Records

structure Contents (reader : SSTableReader) (contents : List Bytes) : Prop where
  length : contents.length = reader.index.length
  filled : ∀ data ∈ contents, data ≠ []
  read : ∀ (i : Nat) (entry : IndexEntry) (data : Bytes), reader.index[i]? = some entry →
    contents[i]? = some data →
      ∀ result, reader.readDataBlock entry.blockOffset entry.blockSize result = (.ok, data)

structure HasBlock (reader : SSTableReader) (b : Nat) (data : Bytes) : Prop where
  filled : data ≠ []
  read : ∃ entry, reader.index[b]? = some entry ∧
    ∀ result, reader.readDataBlock entry.blockOffset entry.blockSize result = (.ok, data)

theorem HasBlock.inside {reader : SSTableReader} {b : Nat} {data : Bytes}
    (block : HasBlock reader b data) : b < reader.index.length := by
  obtain ⟨entry, index, -⟩ := block.read
  exact (List.getElem?_eq_some_iff.mp index).1

theorem Contents.block {reader : SSTableReader} {contents : List Bytes} {b : Nat} {data : Bytes}
    (has : Contents reader contents) (here : contents[b]? = some data) : HasBlock reader b data := by
  obtain ⟨inside, -⟩ := List.getElem?_eq_some_iff.mp here
  rw [has.length] at inside
  have entry := List.getElem?_eq_getElem inside
  exact ⟨has.filled data (List.mem_of_getElem? here), _, entry, has.read b _ _ entry here⟩

/-! ## Blocks inside the file -/

structure Lies (file : Bytes) (entry : IndexEntry) : Prop where
  filled : BlockHeader.kHeaderSize < entry.blockSize
  inside : entry.blockOffset + entry.blockSize ≤ file.length

def blockContent (file : Bytes) (entry : IndexEntry) : Bytes :=
  (file.drop (entry.blockOffset + BlockHeader.kHeaderSize)).take
    (entry.blockSize - BlockHeader.kHeaderSize)

section Lies
variable {reader : SSTableReader} {entry : IndexEntry} {b : Nat}

theorem Lies.length_blockContent {file : Bytes} (lies : Lies file entry) :
    (blockContent file entry).length = entry.blockSize - BlockHeader.kHeaderSize := by
  have filled := lies.filled
  have inside := lies.inside
  rw [blockContent, List.length_take, List.length_drop]
  omega

theorem readDataBlock_of_lies (lies : Lies reader.file entry) (sized : reader.file.length ≤ maxFileSize)
    (result : Bytes) : reader.readDataBlock entry.blockOffset entry.blockSize result =
      (.ok, blockContent reader.file entry) := by
  have filled := lies.filled
  have inside := lies.inside
  have length := lies.length_blockContent
  have limits : maxFileSize < uint64Limit := by decide
  have place : (entry.blockOffset + BlockHeader.kHeaderSize) % uint64Limit =
      entry.blockOffset + BlockHeader.kHeaderSize := Nat.mod_eq_of_lt (by omega)
  have found : read reader.file (entry.blockOffset + BlockHeader.kHeaderSize)
      (entry.blockSize - BlockHeader.kHeaderSize) = .ok (blockContent reader.file entry) := by
    rw [read, if_neg (by omega)]
    rfl
  rw [SSTableReader.readDataBlock, if_neg (by omega), if_neg (by omega)]
  simp only [place, found, length, ne_eq, not_true_eq_false, if_false]

theorem hasBlock_of_lies (here : reader.index[b]? = some entry) (lies : Lies reader.file entry)
    (sized : reader.file.length ≤ maxFileSize) :
    HasBlock reader b (blockContent reader.file entry) := by
  refine ⟨?_, entry, here, readDataBlock_of_lies lies sized⟩
  have filled := lies.filled
  rw [← List.length_pos_iff, lies.length_blockContent]
  omega

theorem contents_of_lies (lies : ∀ entry ∈ reader.index, Lies reader.file entry)
    (sized : reader.file.length ≤ maxFileSize) :
    Contents reader (reader.index.map (blockContent reader.file)) where
  length := List.length_map ..
  filled := by
    intro data member
    obtain ⟨entry, inside, rfl⟩ := List.mem_map.mp member
    obtain ⟨i, here⟩ := List.getElem?_of_mem inside
    exact (hasBlock_of_lies here (lies entry inside) sized).filled
  read := by
    intro i entry data here there
    rw [List.getElem?_map, here] at there
    obtain rfl := Option.some.inj there
    exact readDataBlock_of_lies (lies entry (List.mem_of_getElem? here)) sized

end Lies

namespace SSTableIterator
variable {reader : SSTableReader} {contents : List Bytes} {it : SSTableIterator} {b : Nat}
  {passed : List (Bytes × Value)} {current : Bytes × Value} {rest data : Bytes}

/-! ## Loading a block -/

def loaded (it : SSTableIterator) (b : Nat) (data : Bytes) : SSTableIterator :=
  { it with currentBlock := b, status := .ok, blockData := data, blockOffset := 0, offsetCache := [] }

theorem behind_loaded (it : SSTableIterator) (b : Nat) (data : Bytes) :
    Behind (it.loaded b data) [] data := ⟨Reads.nil _, Nat.zero_add _⟩

theorem loadAnd_of_block (block : HasBlock reader b data) (place : SSTableIterator → SSTableIterator) :
    it.loadAnd reader b place = place (it.loaded b data) := by
  obtain ⟨entry, index, loaded⟩ := block.read
  have found : entryAt reader (b : Int) = some entry := by
    rw [entryAt, if_pos (Int.natCast_nonneg b), Int.toNat_natCast, index]
  have read := loaded it.blockData
  rw [loadAnd, loadCurrentBlock, found]
  simp only [read]
  rw [if_pos (show Status.ok.isOk = true from rfl), if_neg (by simpa using block.filled)]
  rfl

theorem loadAnd_eq (has : Contents reader contents) (here : contents[b]? = some data)
    (place : SSTableIterator → SSTableIterator) :
    it.loadAnd reader b place = place (it.loaded b data) := loadAnd_of_block (has.block here) place

structure StandsIn (reader : SSTableReader) (contents : List Bytes) (it : SSTableIterator) (b : Nat)
    (passed : List (Bytes × Value)) (current : Bytes × Value) (rest : Bytes) : Prop
    extends StandsAt it passed current rest where
  block : it.currentBlock = b
  data : contents[b]? = some it.blockData

namespace StandsIn
variable (stands : StandsIn reader contents it b passed current rest)
include stands

theorem isValid (has : Contents reader contents) : it.isValid reader = true := by
  obtain ⟨inside, -⟩ := List.getElem?_eq_some_iff.mp stands.data
  rw [has.length] at inside
  rw [SSTableIterator.isValid, stands.valid, stands.block]
  simpa using inside

theorem entry (has : Contents reader contents) : (it.key reader, it.value reader) = current := by
  rw [SSTableIterator.key, SSTableIterator.value, if_pos (stands.isValid has),
    if_pos (stands.isValid has), stands.key, stands.value]

end StandsIn

theorem standsIn_loaded (has : Contents reader contents) (here : contents[b]? = some data)
    (found : getEntry data = some (current, rest)) :
    StandsIn reader contents (it.loadAnd reader b parseCurrentEntry) b [] current rest ∧
      (it.loadAnd reader b parseCurrentEntry).status = .ok := by
  rw [loadAnd_eq has here, parse_taken (behind_loaded it b data) found]
  exact ⟨⟨standsAt_taken (behind_loaded it b data) (Or.inl rfl) found, rfl, here⟩, rfl⟩

/-! ## Next -/

theorem next_in_block (has : Contents reader contents)
    (stands : StandsIn reader contents it b passed current rest) {e : Bytes × Value} {rest' : Bytes}
    (found : getEntry rest = some (e, rest')) :
    StandsIn reader contents (it.next reader) b (passed ++ [current]) e rest' ∧
      (it.next reader).status = it.status := by
  have moved := next_taken stands.toBehind found
  rw [next, if_neg (by simp [stands.isValid has]), moved]
  exact ⟨⟨standsAt_taken stands.toBehind stands.cache found, stands.block, stands.data⟩, rfl⟩

theorem next_loads (valid : it.isValid reader = true) (behind : Behind it passed rest)
    (stuck : getEntry rest = none) (number : it.currentBlock = b) (more : b + 1 < reader.index.length) :
    ∃ moved : SSTableIterator,
      it.next reader = moved.loadAnd reader ((b + 1 : Nat) : Int) parseCurrentEntry := by
  obtain ⟨ended, stays, -⟩ := ended_of_left behind stuck
  have further : it.moveToNextInBlock.1.currentBlock + 1 = ((b + 1 : Nat) : Int) := by
    rw [ended.currentBlock, number]
    rfl
  refine ⟨it.moveToNextInBlock.1, ?_⟩
  rw [next, if_neg (by simp [valid])]
  simp only [stays, Bool.false_eq_true, if_false, further]
  rw [if_neg (by omega)]

theorem next_stops (valid : it.isValid reader = true) (behind : Behind it passed rest)
    (stuck : getEntry rest = none) (number : it.currentBlock = b) (last : b + 1 = reader.index.length) :
    (it.next reader).isValid reader = false ∧ (rest = [] → (it.next reader).status = it.status) ∧
      (rest ≠ [] → (it.next reader).status.isCorruption) := by
  obtain ⟨ended, stays, -⟩ := ended_of_left behind stuck
  have further : it.moveToNextInBlock.1.currentBlock + 1 = ((b + 1 : Nat) : Int) := by
    rw [ended.currentBlock, number]
    rfl
  rw [next, if_neg (by simp [valid])]
  simp only [stays, Bool.false_eq_true, if_false, further]
  rw [if_pos (by omega)]
  exact ⟨rfl, ended.ended, ended.damaged⟩

theorem next_block (has : Contents reader contents)
    (stands : StandsIn reader contents it b passed current rest) (stuck : getEntry rest = none)
    (here : contents[b + 1]? = some data) {e : Bytes × Value} {rest' : Bytes}
    (found : getEntry data = some (e, rest')) :
    StandsIn reader contents (it.next reader) (b + 1) [] e rest' ∧ (it.next reader).status = .ok := by
  obtain ⟨moved, loads⟩ := next_loads (stands.isValid has) stands.toBehind stuck stands.block
    (has.block here).inside
  rw [loads]
  exact standsIn_loaded has here found

theorem next_last (has : Contents reader contents)
    (stands : StandsIn reader contents it b passed current rest) (stuck : getEntry rest = none)
    (last : contents.length = b + 1) : (it.next reader).isValid reader = false ∧
      (rest = [] → (it.next reader).status = it.status) ∧
        (rest ≠ [] → (it.next reader).status.isCorruption) :=
  next_stops (stands.isValid has) stands.toBehind stuck stands.block (last.symm.trans has.length)

/-! ## Walks -/

/-- From here `Next` gives these entries, and then the iterator is no longer valid. -/
def Walks (reader : SSTableReader) : List (Bytes × Value) → SSTableIterator → Prop
  | [], it => it.isValid reader = false
  | e :: more, it => it.isValid reader = true ∧ (it.key reader, it.value reader) = e ∧
      Walks reader more (it.next reader)

theorem Walks.unique {entries others : List (Bytes × Value)} (walks : Walks reader entries it)
    (other : Walks reader others it) : entries = others := by
  induction entries generalizing others it with
  | nil =>
      cases others with
      | nil => rfl
      | cons e more =>
          have valid : it.isValid reader = false := walks
          rw [other.1] at valid
          cases valid
  | cons e more ih =>
      cases others with
      | nil =>
          have valid : it.isValid reader = false := other
          rw [walks.1] at valid
          cases valid
      | cons e' more' =>
          obtain ⟨-, here, later⟩ := walks
          obtain ⟨-, here', later'⟩ := other
          rw [← here, ← here', ih later later']

def Holds (contents : List Bytes) (blocks : List (List (Bytes × Value))) : Prop :=
  List.Forall₂ (fun data entries => Reads getEntry data entries []) contents blocks

def WalksOk (reader : SSTableReader) (entries : List (Bytes × Value)) (it : SSTableIterator) : Prop :=
  Walks reader entries it ∧ ((next reader)^[entries.length] it).status = .ok

theorem walksOk_cons {more : List (Bytes × Value)} (has : Contents reader contents)
    (stands : StandsIn reader contents it b passed current rest)
    (later : WalksOk reader more (it.next reader)) : WalksOk reader (current :: more) it :=
  ⟨⟨stands.isValid has, stands.entry has, later.1⟩, later.2⟩

theorem walks_of_standsIn (has : Contents reader contents) {blocks : List (List (Bytes × Value))}
    (holds : Holds contents blocks) {pending : List (Bytes × Value)}
    (stands : StandsIn reader contents it b passed current rest) (status : it.status = .ok)
    (reads : Reads getEntry rest pending []) :
    WalksOk reader (current :: (pending ++ (blocks.drop (b + 1)).flatten)) it := by
  have ahead : b + (contents.length - b) = contents.length := by
    obtain ⟨inside, -⟩ := List.getElem?_eq_some_iff.mp stands.data
    omega
  generalize contents.length - b = n at ahead
  induction n generalizing it b passed current rest pending with
  | zero =>
      obtain ⟨inside, -⟩ := List.getElem?_eq_some_iff.mp stands.data
      omega
  | succ n blocksIh =>
      induction pending generalizing it passed current rest with
      | nil =>
          cases reads
          have stuck : getEntry [] = none := advances_getEntry.nil
          apply walksOk_cons has stands
          cases here : contents[b + 1]? with
          | none =>
              have past := List.getElem?_eq_none_iff.mp here
              obtain ⟨inside, -⟩ := List.getElem?_eq_some_iff.mp stands.data
              have none : blocks.drop (b + 1) = [] :=
                List.drop_eq_nil_of_le (holds.length_eq ▸ past)
              obtain ⟨invalid, same, -⟩ := next_last has stands stuck (by omega)
              rw [none]
              exact ⟨invalid, (same rfl).trans status⟩
          | some data =>
              obtain ⟨inside, same⟩ := List.getElem?_eq_some_iff.mp here
              have inside' : b + 1 < blocks.length := holds.length_eq ▸ inside
              have block := List.forall₂_iff_get.mp holds |>.2 (b + 1) inside inside'
              rw [List.drop_eq_getElem_cons inside', List.flatten_cons, List.nil_append]
              have filled := has.filled data (List.mem_of_getElem? here)
              simp only [List.get_eq_getElem, same] at block
              generalize blocks[b + 1] = entries at block ⊢
              cases block with
              | nil => exact absurd rfl filled
              | cons found later =>
                  obtain ⟨stands, status⟩ := next_block has stands stuck here found
                  exact blocksIh stands status later (by omega)
      | cons e more ih =>
          cases reads with
          | cons found later =>
              obtain ⟨stands', same⟩ := next_in_block has stands found
              exact walksOk_cons has stands (ih stands' (same.trans status) later)

theorem walks_seekToFirst (has : Contents reader contents) {blocks : List (List (Bytes × Value))}
    (holds : Holds contents blocks) (filled : contents ≠ []) (it : SSTableIterator) :
    WalksOk reader blocks.flatten (it.seekToFirst reader) := by
  have index : ¬ reader.index.isEmpty := by
    rw [List.isEmpty_iff, ← List.length_eq_zero_iff, ← has.length]
    exact (List.length_pos_iff.mpr filled).ne'
  rw [seekToFirst, if_neg index]
  cases holds with
  | nil => exact absurd rfl filled
  | @cons data entries contents blocks block later =>
      have nonempty := has.filled data (List.mem_cons_self ..)
      cases block with
      | nil => exact absurd rfl nonempty
      | cons found more =>
          obtain ⟨stands, status⟩ := @standsIn_loaded _ _ it 0 _ _ _ has rfl found
          exact walks_of_standsIn has (List.Forall₂.cons (.cons found more) later) stands status more

end SSTableIterator
end TableFile
end Lrdb
