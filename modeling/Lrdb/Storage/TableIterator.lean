import Lrdb.Storage.TreeIterator

/-!
# The iterators under a merge

A memtable is iterated node by node; a level file after file, and a file block after block. A seek in
a block looks at every other entry only, and a step back in a block parses the same entry again.
-/

namespace Lrdb
open Versions SSTable

structure TablePosition where
  block : Nat
  passed : List Entry
  current : Entry
  pending : List Entry

namespace TablePosition

def blockData (p : TablePosition) : List Entry := p.passed ++ p.current :: p.pending

/-- `ParseCurrentEntry` at the offset of the entry with this number. -/
def parseEntry (block : Nat) (blockData : List Entry) (i : Nat) : Option TablePosition :=
  match blockData.drop i with
  | [] => none
  | entry :: pending => some ⟨block, blockData.take i, entry, pending⟩

def moveToNextInBlock (p : TablePosition) : Option TablePosition :=
  parseEntry p.block p.blockData (p.passed.length + 1)

/-- The offset is behind the current entry, and the last start before it is that of this entry. -/
def moveToPrevInBlock (p : TablePosition) : Option TablePosition :=
  let offset := p.passed.length + 1
  let place := ((List.range p.blockData.length).takeWhile fun start => start < offset).length
  if place = 0 then none else parseEntry p.block p.blockData (place - 1)

end TablePosition

namespace SSTable
variable (cmp : Comparator) (table : SSTable)

/-- `LoadCurrentBlock` and an entry of the block. -/
def loadBlock (block i : Nat) : Option TablePosition :=
  table.blocks[block]?.bind fun b => TablePosition.parseEntry block b.entries i

def seekToLastInBlock (block : Nat) : Option TablePosition :=
  table.blocks[block]?.bind fun b => TablePosition.parseEntry block b.entries (b.entries.length - 1)

def seekToFirst : Option TablePosition := table.loadBlock 0 0

def seekToLast : Option TablePosition := table.seekToLastInBlock (table.blocks.length - 1)

/-- The number of the entry at which `SeekInBlock` stops. Behind an entry before the target it parses
one that it does not look at. -/
def seekInBlock (target : Key) : List Entry → Option Nat
  | [] => none
  | [entry] => if cmp.compare entry.1.encode target = .lt then none else some 0
  | entry :: _ :: rest =>
      if cmp.compare entry.1.encode target = .lt then (seekInBlock target rest).map (· + 2) else some 0

/-- `SSTableIterator::Seek`. -/
def seek (target : Key) : Option TablePosition := do
  let block ← findIndexEntry cmp table target
  let i ← seekInBlock cmp target (table.blocks[block]?.elim [] DataBlock.entries)
  table.loadBlock block i

/-- `SSTableIterator::Next`. -/
def next (p : TablePosition) : Option TablePosition :=
  match p.moveToNextInBlock with
  | some p => some p
  | none => table.loadBlock (p.block + 1) 0

/-- `SSTableIterator::Prev`. -/
def prev (p : TablePosition) : Option TablePosition :=
  match p.moveToPrevInBlock with
  | some p => some p
  | none => if p.block = 0 then none else table.seekToLastInBlock (p.block - 1)

end SSTable

/-- `SSTableManager::LevelIterator` over the files of a level. -/
structure LevelIterator where
  /-- Not level zero. -/
  deep : Bool
  files : List SSTable
  position : Option (Nat × SSTable × TablePosition) := none

namespace LevelIterator
variable (cmp : Comparator) (it : LevelIterator)

/-- `LoadCurrentIterator`, and a place in the file if it can be opened. -/
def load (file : Nat) (place : SSTable → Option TablePosition) : LevelIterator :=
  { it with position := do
      let table ← it.files[file]?
      if (table.readIndex cmp).isOk then
        let p ← place table
        return (file, table, p)
      else none }

def seekToFirst : LevelIterator := it.load cmp 0 SSTable.seekToFirst

def seekToLast : LevelIterator := it.load cmp (it.files.length - 1) SSTable.seekToLast

/-- Level zero has one file here; the file of a deeper level is the first that does not end before the
target. -/
def seek (target : Key) : LevelIterator :=
  if it.deep then
    let file := (it.files.takeWhile fun table =>
      cmp.compare table.info.largestKey target = .lt).length
    it.load cmp file fun table => table.seek cmp target
  else it.load cmp 0 fun table => table.seek cmp target

def next : LevelIterator :=
  match it.position with
  | none => it
  | some (file, table, p) =>
      match table.next p with
      | some p => { it with position := some (file, table, p) }
      | none => it.load cmp (file + 1) SSTable.seekToFirst

def prev : LevelIterator :=
  match it.position with
  | none => it
  | some (file, table, p) =>
      match table.prev p with
      | some p => { it with position := some (file, table, p) }
      | none =>
          if file = 0 then { it with position := none }
          else it.load cmp (file - 1) SSTable.seekToLast

def remaining : List Entry :=
  match it.position with
  | none => []
  | some (file, table, p) =>
      p.current :: p.pending ++ (table.blocks.drop (p.block + 1)).flatMap DataBlock.entries ++
        SSTableManager.levelEntries cmp (it.files.drop (file + 1))

end LevelIterator

/-- `MemTableIterator`: the nodes from the current one on. -/
structure MemTableIterator (cmp : Comparator) where
  mem : MemTable cmp
  rest : List Entry := []

namespace MemTableIterator
variable {cmp : Comparator} (it : MemTableIterator cmp)

def seekToFirst : MemTableIterator cmp := { it with rest := it.mem.entries }

def seekToLast : MemTableIterator cmp :=
  { it with rest := it.mem.entries.drop (it.mem.entries.length - 1) }

def seek (target : Key) : MemTableIterator cmp :=
  { it with rest := it.mem.table.seek (MemTable.seekKey target) }

def next : MemTableIterator cmp := { it with rest := it.rest.tail }

def prev : MemTableIterator cmp :=
  match it.rest with
  | [] => it
  | node :: _ =>
      let less := it.mem.entries.takeWhile fun other => internalCompare cmp other.1 node.1 = .lt
      { it with rest := if less = [] then [] else it.mem.entries.drop (less.length - 1) }

end MemTableIterator

inductive ChildIterator (cmp : Comparator) where
  | memTable (it : MemTableIterator cmp)
  | level (it : LevelIterator)

namespace ChildIterator
variable {cmp : Comparator}

def seekToFirst : ChildIterator cmp → ChildIterator cmp
  | memTable it => memTable it.seekToFirst
  | level it => level (it.seekToFirst cmp)

def seekToLast : ChildIterator cmp → ChildIterator cmp
  | memTable it => memTable it.seekToLast
  | level it => level (it.seekToLast cmp)

def seek (target : Key) : ChildIterator cmp → ChildIterator cmp
  | memTable it => memTable (it.seek target)
  | level it => level (it.seek cmp target)

def next : ChildIterator cmp → ChildIterator cmp
  | memTable it => memTable it.next
  | level it => level (it.next cmp)

def prev : ChildIterator cmp → ChildIterator cmp
  | memTable it => memTable it.prev
  | level it => level (it.prev cmp)

def entry : ChildIterator cmp → Option Entry
  | memTable it => it.rest.head?
  | level it => it.position.map fun place => place.2.2.current

def remaining : ChildIterator cmp → List Entry
  | memTable it => it.rest
  | level it => it.remaining cmp

def unplaced : ChildIterator cmp → ChildIterator cmp
  | memTable it => memTable { it with rest := [] }
  | level it => level { it with position := none }

def entries : ChildIterator cmp → List Entry
  | memTable it => it.mem.entries
  | level it => SSTableManager.levelEntries cmp it.files

end ChildIterator

/-! ## The entries of a child, one after the other -/

open SSTableManager

theorem SSTable.loadBlock_eq (table : SSTable) (block : Nat) : table.loadBlock block 0 =
    table.blocks[block]?.map fun b => ⟨block, [], b.first, b.rest⟩ := by
  unfold SSTable.loadBlock
  cases table.blocks[block]? <;> rfl

namespace LevelIterator
variable {cmp : Comparator} (it : LevelIterator)

theorem remaining_load_first (file : Nat) :
    (it.load cmp file SSTable.seekToFirst).remaining cmp = levelEntries cmp (it.files.drop file) := by
  cases here : it.files[file]? with
  | none =>
      have past : it.files.drop file = [] := List.drop_eq_nil_of_le (List.getElem?_eq_none_iff.mp here)
      simp [load, remaining, here, past, levelEntries]
  | some table =>
      obtain ⟨inside, same⟩ := List.getElem?_eq_some_iff.mp here
      rw [List.drop_eq_getElem_cons inside, same, levelEntries]
      by_cases opens : (table.readIndex cmp).isOk
      · have entries := SSTable.entries_ne_nil_of_readIndex opens
        rw [if_pos ⟨opens, entries⟩]
        cases blocks : table.blocks with
        | nil => simp [SSTable.entries, blocks] at entries
        | cons block rest =>
            simp [load, remaining, here, opens, SSTable.seekToFirst, SSTable.loadBlock_eq, blocks,
              SSTable.entries, DataBlock.entries]
      · rw [if_neg fun both => opens both.1]
        simp [load, remaining, here, opens]

theorem remaining_next : (it.next cmp).remaining cmp = (it.remaining cmp).tail := by
  unfold next
  rcases place : it.position with _ | ⟨file, table, ⟨block, passed, current, pending⟩⟩
  · simp [remaining, place]
  · cases pending with
    | cons entry pending =>
        simp [SSTable.next, TablePosition.moveToNextInBlock, TablePosition.parseEntry,
          TablePosition.blockData, remaining, place]
    | nil =>
        have last : (TablePosition.mk block passed current []).moveToNextInBlock = none := by
          simp [TablePosition.moveToNextInBlock, TablePosition.parseEntry, TablePosition.blockData]
        simp only [SSTable.next, last, SSTable.loadBlock_eq]
        cases here : table.blocks[block + 1]? with
        | none =>
            have past : table.blocks.drop (block + 1) = [] :=
              List.drop_eq_nil_of_le (List.getElem?_eq_none_iff.mp here)
            refine (it.remaining_load_first (file + 1)).trans ?_
            simp [remaining, place, past]
        | some next =>
            obtain ⟨inside, same⟩ := List.getElem?_eq_some_iff.mp here
            simp [remaining, place, List.drop_eq_getElem_cons inside, same, DataBlock.entries]

theorem entry_eq : it.position.map (fun place => place.2.2.current) = (it.remaining cmp).head? := by
  unfold remaining
  cases it.position <;> rfl

end LevelIterator

namespace ChildIterator
variable {cmp : Comparator} (it : ChildIterator cmp)

theorem entry_eq : it.entry = it.remaining.head? := by
  cases it with
  | memTable it => rfl
  | level it => exact it.entry_eq

@[simp] theorem remaining_next : it.next.remaining = it.remaining.tail := by
  cases it with
  | memTable it => rfl
  | level it => exact it.remaining_next

@[simp] theorem remaining_seekToFirst : it.seekToFirst.remaining = it.entries := by
  cases it with
  | memTable it => rfl
  | level it => exact it.remaining_load_first 0

@[simp] theorem seek_unplaced (target : Key) : it.unplaced.seek target = it.seek target := by
  cases it <;> rfl

@[simp] theorem entries_unplaced : it.unplaced.entries = it.entries := by
  cases it <;> rfl

@[simp] theorem unplaced_seekToFirst : it.seekToFirst.unplaced = it.unplaced := by
  cases it <;> rfl

@[simp] theorem unplaced_seekToLast : it.seekToLast.unplaced = it.unplaced := by
  cases it <;> rfl

@[simp] theorem unplaced_seek (target : Key) : (it.seek target).unplaced = it.unplaced := by
  cases it with
  | memTable it => rfl
  | level it =>
      simp only [seek, LevelIterator.seek]
      split <;> rfl

@[simp] theorem unplaced_next : it.next.unplaced = it.unplaced := by
  cases it with
  | memTable it => rfl
  | level it =>
      simp only [next, LevelIterator.next]
      split
      · rfl
      · split <;> rfl

@[simp] theorem unplaced_prev : it.prev.unplaced = it.unplaced := by
  cases it with
  | memTable it =>
      simp only [prev, MemTableIterator.prev]
      split <;> rfl
  | level it =>
      simp only [prev, LevelIterator.prev]
      split
      · rfl
      · split
        · rfl
        · split <;> rfl

def SeeksTo (target : Key) : Prop :=
  (it.seek target).remaining = it.entries.filter fun entry => ¬ cmp.Before entry.1.userKey target

instance (target : Key) : Decidable (it.SeeksTo target) := by unfold SeeksTo; infer_instance

theorem seeksTo_memTable (it : MemTableIterator cmp) (target : Key) :
    (memTable it).SeeksTo target := it.mem.seek_seekKey target

end ChildIterator
end Lrdb
