import Lrdb.Storage.BlockEntries
import Lrdb.Storage.SSTable

/-!
# The records of a file

An iterator takes one block after another into its buffer. When a block cannot be read it keeps its
offset and parses on, in what the read has left of the new block and of the old one; the next block that
is read resets its status.
-/

namespace Lrdb

def ValueType.ofByte : Nat → Option ValueType
  | 1 => some kValue
  | 2 => some kDeletion
  | 3 => some kMerge
  | _ => none

namespace TableFile
open Records

abbrev StoredRecord := Bytes × Value

def stored (e : Entry) : StoredRecord := (e.1.encode, e.2)

theorem stored_injective : Function.Injective stored := by
  intro a b same
  obtain ⟨keys, values⟩ := Prod.mk.inj same
  exact Prod.ext (encode_injective keys) values

def storedBlock (block : DataBlock) : List StoredRecord := block.entries.map stored

def entryOf (record : StoredRecord) : Option Entry := do
  let (userKey, sequence, type) ← parseInternalKey record.1
  let type ← ValueType.ofByte type
  return (.make userKey sequence type, record.2)

@[simp] theorem entryOf_stored (e : Entry) : entryOf (stored e) = some e := by
  have known : ValueType.ofByte e.1.type.toNat = some e.1.type := by cases e.1.type <;> rfl
  have same : InternalKey.make e.1.userKey e.1.sequence e.1.type = e.1 := InternalKey.make_self e.1
  simp [entryOf, stored, parse_encode, known, same]

theorem parseInternalKey_eq_some {key userKey : Bytes} {sequence type : Nat}
    (parsed : parseInternalKey key = some (userKey, sequence, type)) :
    sequence < sequenceLimit ∧ key = userKey ++ putFixed64 (sequence * 256 + type) := by
  unfold parseInternalKey at parsed
  split at parsed <;> [cases parsed; rename_i long]
  simp only [Option.some.injEq, Prod.mk.injEq] at parsed
  obtain ⟨rfl, rfl, rfl⟩ := parsed
  have eight : (key.drop (key.length - 8)).length = 8 := by
    rw [List.length_drop]
    omega
  have tag := decodeFixed_lt (key.drop (key.length - 8))
  have encoded := putFixed_decodeFixed (key.drop (key.length - 8))
  rw [eight] at tag encoded
  refine ⟨?_, ?_⟩
  · rw [sequenceLimit]
    omega
  · rw [Nat.div_add_mod', putFixed64, encoded, List.take_append_drop]

theorem toNat_of_ofByte {n : Nat} {type : ValueType} (known : ValueType.ofByte n = some type) :
    type.toNat = n := by
  unfold ValueType.ofByte at known
  split at known <;> cases known <;> rfl

theorem stored_of_entryOf {record : StoredRecord} {e : Entry} (found : entryOf record = some e) :
    stored e = record := by
  obtain ⟨⟨userKey, sequence, type⟩, parsed, found⟩ := Option.bind_eq_some_iff.mp found
  obtain ⟨type', known, same⟩ := Option.bind_eq_some_iff.mp found
  obtain rfl := Option.some.inj same
  obtain ⟨bound, key⟩ := parseInternalKey_eq_some parsed
  obtain rfl := toNat_of_ofByte known
  refine Prod.ext ?_ rfl
  rw [key, stored, InternalKey.encode, InternalKey.tag, InternalKey.make_sequence bound]
  rfl

/-! ## Reads that fail -/

/-- A read of a block that fails, or ends early, when it has put so many bytes into the buffer. -/
structure FailedRead where
  got : Nat
  short : Bool := false
  deriving DecidableEq, Repr

namespace FailedRead
variable (f : FailedRead)

def status : Status := .ioError (if f.short then "Short read" else "Cannot read file")

/-- `ReadDataBlock` resizes the buffer before it reads. -/
def buffer (buffer content : Bytes) : Bytes :=
  content.take f.got ++ (SSTableReader.resize buffer content.length).drop f.got

end FailedRead

/-- The reads that fail as the blocks of a file are loaded one after the other. An iterator that has loaded
none has an offset that nothing has set. -/
structure BlockFaults where
  failed : Nat → Option FailedRead := fun _ => none
  offset : Nat := 0

structure BlockBuffer where
  data : Bytes := []
  offset : Nat := 0
  status : Status := .ok
  deriving DecidableEq, Repr

/-- The records that `ParseCurrentEntry` comes to from the offset on, and how it leaves the iterator. -/
def BlockBuffer.parse (b : BlockBuffer) : List StoredRecord × BlockBuffer :=
  let left := leftOver getEntry (b.data.drop b.offset)
  (records getEntry (b.data.drop b.offset),
    if left = [] then { b with offset := max b.offset b.data.length }
    else
      { b with
        offset := b.data.length - left.length
        status := .corruption (if (getLengthPrefixedSlice left).isNone then "Failed to parse key"
          else "Failed to parse value") })

/-- What `SeekToFirst` and `Next` come to from a block on, until the iterator is not valid, and its status
then. It stops at a block in which it finds nothing to parse. -/
def walk (faults : BlockFaults) : Nat → BlockBuffer → List DataBlock → List StoredRecord × Status
  | _, buffer, [] => ([], buffer.status)
  | i, buffer, block :: rest =>
      let content := blockBytes (storedBlock block)
      match faults.failed i with
      | none =>
          let (records, status) := walk faults (i + 1) ⟨content, content.length, .ok⟩ rest
          (storedBlock block ++ records, status)
      | some failed =>
          match BlockBuffer.parse ⟨failed.buffer buffer.data content, buffer.offset, failed.status⟩ with
          | ([], buffer) => ([], buffer.status)
          | (records, buffer) =>
              let (more, status) := walk faults (i + 1) buffer rest
              (records ++ more, status)

def fileRecords (faults : BlockFaults) (table : SSTable) : List StoredRecord × Status :=
  walk faults 0 { offset := faults.offset } table.blocks

def BlockFaults.Whole (faults : BlockFaults) (table : SSTable) : Prop :=
  ∀ i < table.blocks.length, faults.failed i = none

instance (faults : BlockFaults) (table : SSTable) : Decidable (faults.Whole table) := by
  unfold BlockFaults.Whole; infer_instance

theorem walk_whole {faults : BlockFaults} (blocks : List DataBlock) (start : Nat) {buffer : BlockBuffer}
    (fine : buffer.status = .ok) (whole : ∀ i < blocks.length, faults.failed (start + i) = none) :
    walk faults start buffer blocks = ((blocks.flatMap DataBlock.entries).map stored, .ok) := by
  induction blocks generalizing start buffer with
  | nil => rw [walk, fine]; rfl
  | cons block rest ih =>
      have later : ∀ i < rest.length, faults.failed (start + 1 + i) = none := by
        intro i less
        rw [Nat.add_assoc, Nat.add_comm 1 i]
        exact whole (i + 1) (Nat.succ_lt_succ less)
      have here : faults.failed start = none := whole 0 (Nat.succ_pos _)
      rw [walk, here, ih (start + 1) rfl later, List.flatMap_cons, List.map_append]
      rfl

theorem fileRecords_whole {faults : BlockFaults} {table : SSTable} (whole : faults.Whole table) :
    fileRecords faults table = (table.entries.map stored, .ok) :=
  walk_whole table.blocks 0 rfl fun i less => (Nat.zero_add i).symm ▸ whole i less

end TableFile
end Lrdb
