import Mathlib.Data.List.Sort
import Lrdb.Base.Search
import Lrdb.Storage.MemTable
import Lrdb.Util.BloomFilter

/-!
# SSTables

A file is a list of data blocks, the index of their first keys, a bloom filter over the user keys
and the key range. The writer takes entries in ascending byte order of their internal keys; the
reader looks for a user key in one block.
-/

namespace Lrdb
open Versions

structure DataBlock where
  first : Entry
  rest : List Entry

namespace DataBlock

def entries (block : DataBlock) : List Entry := block.first :: block.rest

def indexKey (block : DataBlock) : InternalKey := block.first.1

end DataBlock

structure SSTableMeta where
  fileNumber : Nat
  smallestKey : Key
  largestKey : Key

def SSTableMeta.keyInRange (cmp : Comparator) (info : SSTableMeta) (key : Key) : Bool :=
  if info.smallestKey = [] ∨ info.largestKey = [] then true
  else cmp.compare key info.smallestKey ≠ .lt ∧ cmp.compare key info.largestKey ≠ .gt

structure SSTable where
  info : SSTableMeta
  blocks : List DataBlock
  bloom : Option BloomFilter

namespace SSTable

def entries (table : SSTable) : List Entry := table.blocks.flatMap DataBlock.entries

def versions (table : SSTable) (key : Key) : List Version :=
  (versionsOf key table.entries).reverse

end SSTable

/-! ## Writing -/

structure SSTableWriterOptions where
  blockSize : Nat := 64 * 1024

structure SSTableWriter where
  blocks : List DataBlock := []
  dataBuffer : List Entry := []
  bufferBytes : Nat := 0
  lastKey : Option InternalKey := none
  smallestKey : Key := []
  largestKey : Key := []
  bloomKeys : List Key := []

namespace SSTableWriter
variable (cmp : Comparator) (options : SSTableWriterOptions)

def entryBytes (entry : Entry) : Nat :=
  varintLength entry.1.encode.length + entry.1.encode.length +
    (varintLength entry.2.length + entry.2.length)

def writeDataBlock (w : SSTableWriter) : SSTableWriter :=
  match w.dataBuffer with
  | [] => w
  | first :: rest => { w with blocks := w.blocks ++ [⟨first, rest⟩], dataBuffer := [], bufferBytes := 0 }

def shouldStartNewBlock (w : SSTableWriter) : Bool := options.blockSize ≤ w.bufferBytes

/-- The part of `Add` after the order check and the cut of a full block. -/
def append (w : SSTableWriter) (entry : Entry) : SSTableWriter :=
  { w with
    dataBuffer := w.dataBuffer ++ [entry]
    bufferBytes := w.bufferBytes + entryBytes entry
    lastKey := some entry.1
    smallestKey := if w.smallestKey = [] then entry.1.userKey else w.smallestKey
    largestKey := entry.1.userKey
    bloomKeys := w.bloomKeys ++ [entry.1.userKey] }

def add (w : SSTableWriter) (entry : Entry) : Except Status SSTableWriter :=
  if ∃ last ∈ w.lastKey, cmp.compare last.encode entry.1.encode ≠ .lt then
    .error (.invalidArgument "Keys must be added in ascending order")
  else .ok ((if shouldStartNewBlock options w then w.writeDataBlock else w).append entry)

def addAll (w : SSTableWriter) : List Entry → Except Status SSTableWriter
  | [] => .ok w
  | entry :: rest => (add cmp options w entry).bind fun w => addAll w rest

def finish (w : SSTableWriter) (fileNumber : Nat) : SSTable :=
  ⟨⟨fileNumber, w.smallestKey, w.largestKey⟩, w.writeDataBlock.blocks,
    BloomFilter.build w.bloomKeys⟩

end SSTableWriter

def EncodedLE (a b : Entry) : Prop := bytewiseCompare a.1.encode b.1.encode ≠ .gt

instance (a b : Entry) : Decidable (EncodedLE a b) := by unfold EncodedLE; infer_instance

def sortedEntries (entries : List Entry) : List Entry := entries.insertionSort EncodedLE

/-- `SSTableCompactor::FlushMemTable`. -/
def flushEntries (cmp : Comparator) (options : SSTableWriterOptions) (entries : List Entry)
    (fileNumber : Nat) : Except Status SSTable :=
  (SSTableWriter.addAll cmp options {} (sortedEntries entries)).map fun w => w.finish fileNumber

/-! ## Reading -/

namespace SSTable
variable (cmp : Comparator)

/-- The checks of `ReadIndex`; a file that fails them cannot be opened. -/
def readIndex (table : SSTable) : Status :=
  match table.blocks, table.blocks.getLast? with
  | front :: _, some back =>
      if ¬ (table.blocks.map fun block => block.indexKey.encode).IsChain fun a b =>
          cmp.compare a b = .lt then
        .corruption "Index keys not in sorted order"
      else if table.info.smallestKey ≠ [] ∧ table.info.largestKey ≠ [] ∧
          (cmp.compare front.indexKey.userKey table.info.smallestKey ≠ .eq ∨
            cmp.compare back.indexKey.userKey table.info.largestKey = .gt) then
        .corruption "Index key range inconsistent with meta data"
      else .ok
  | _, _ => .corruption "Empty index block"

def findIndexEntry (table : SSTable) (key : Key) : Option Nat :=
  Search.findLast
    (fun i => table.blocks[i]?.any fun block => cmp.compare block.indexKey.userKey key ≠ .gt)
    table.blocks.length 0 table.blocks.length none

def scanBlock (key : Key) (snapshot : Nat) (best : Option Version) : List Entry → Option Version
  | [] => best
  | entry :: rest =>
      match cmp.compare entry.1.userKey key with
      | .eq =>
          if Visible snapshot entry.1.sequence ∧ ∀ found ∈ best, found.1 ≤ entry.1.sequence then
            scanBlock key snapshot (some entry.version) rest
          else scanBlock key snapshot best rest
      | .gt => best
      | .lt => scanBlock key snapshot best rest

def report (value : Value) : Option Version → MemTable.GetResult
  | none => (false, ⟨.ok, value⟩)
  | some (_, type, stored) =>
      if type = .kDeletion then (false, ⟨.deleted "Key was deleted", value⟩)
      else (true, ⟨.ok, stored⟩)

def mayContainKey (table : SSTable) (key : Key) : Bool :=
  table.info.keyInRange cmp key && table.bloom.all fun filter => filter.mayContain key

/-- `SSTableReader::Get` of an open file. -/
def get (table : SSTable) (key : Key) (snapshot : Nat) (value : Value) : MemTable.GetResult :=
  if ¬ table.info.keyInRange cmp key then report value none
  else if table.bloom.any fun filter => ¬ filter.mayContain key then report value none
  else
    match (findIndexEntry cmp table key).bind fun i => table.blocks[i]? with
    | none => report value none
    | some block => report value (scanBlock cmp key snapshot none block.entries)

/-! ## The reader finds the newest version -/

def UserSorted (entries : List Entry) : Prop :=
  entries.Pairwise fun a b => ¬ cmp.Before b.1.userKey a.1.userKey

/-- No user key has versions in two blocks. -/
def Separated (blocks : List DataBlock) : Prop :=
  blocks.Pairwise fun b c => ∀ x ∈ b.entries, ∀ y ∈ c.entries, x.1.userKey ≠ y.1.userKey

instance (blocks : List DataBlock) : Decidable (Separated blocks) := by
  unfold Separated; infer_instance

variable {cmp}

theorem entries_ne_nil_of_readIndex {table : SSTable} (opens : (table.readIndex cmp).isOk) :
    table.entries ≠ [] := by
  intro empty
  cases blocks : table.blocks with
  | nil =>
      simp only [readIndex, blocks] at opens
      cases opens
  | cons block rest => simp [entries, blocks, DataBlock.entries] at empty

theorem versionsOf_cons_of_ne {key : Key} {entry : Entry} {rest : List Entry}
    (different : entry.1.userKey ≠ key) : versionsOf key (entry :: rest) = versionsOf key rest := by
  simp [versionsOf, different]

theorem versionsOf_cons_of_eq {key : Key} {entry : Entry} {rest : List Entry}
    (same : entry.1.userKey = key) :
    versionsOf key (entry :: rest) = entry.version :: versionsOf key rest := by
  simp [versionsOf, same]

theorem versionsOf_eq_nil {key : Key} {entries : List Entry} :
    versionsOf key entries = [] ↔ ∀ entry ∈ entries, entry.1.userKey ≠ key := by
  simp [versionsOf]

private theorem later_best (version : Version) (best : Option Version) :
    (if ∀ found ∈ best, found.1 ≤ version.1 then some version else best) =
      later (some version) best := by
  cases best with
  | none => simp
  | some found =>
      by_cases less : version.1 < found.1
      · simp [later, less]
      · simp [later, less, not_lt.mp less]

def scanned (cmp : Comparator) (key : Key) (entries : List Entry) : List Entry :=
  entries.takeWhile fun entry => cmp.compare entry.1.userKey key ≠ .gt

theorem scanBlock_eq_scanned (entries : List Entry) (key : Key) (snapshot : Nat)
    (best : Option Version) : scanBlock cmp key snapshot best entries =
      later (newest (visibleVersions snapshot (versionsOf key (scanned cmp key entries)).reverse))
        best := by
  induction entries generalizing best with
  | nil => rfl
  | cons entry rest ih =>
      cases compared : cmp.compare entry.1.userKey key with
      | lt =>
          have different : entry.1.userKey ≠ key := Comparator.Before.ne compared
          rw [scanBlock, compared, scanned, List.takeWhile_cons_of_pos (by simp [compared]),
            versionsOf_cons_of_ne different]
          exact ih best
      | eq =>
          have same := Comparator.compare_eq.mp compared
          rw [scanBlock, compared, scanned, List.takeWhile_cons_of_pos (by simp [compared]),
            versionsOf_cons_of_eq same, List.reverse_cons, visibleVersions_append, newest_append,
            later_assoc]
          by_cases visible : Visible snapshot entry.1.sequence
          · have one : visibleVersions snapshot [entry.version] = [entry.version] := by
              simp [visibleVersions, Entry.version, visible]
            have single : newest [entry.version] = some entry.version := rfl
            rw [one, single, ← later_best entry.version best]
            simp only [visible, true_and]
            split
            · rename_i least
              exact (ih _).trans (congrArg _ (if_pos least).symm)
            · rename_i greater
              exact (ih _).trans (congrArg _ (if_neg greater).symm)
          · have none : visibleVersions snapshot [entry.version] = [] := by
              simp [visibleVersions, Entry.version, visible]
            rw [none, newest_nil, later_none_left]
            simp only [visible, false_and, if_false]
            exact ih best
      | gt =>
          rw [scanBlock, compared, scanned, List.takeWhile_cons_of_neg (by simp [compared])]
          rfl

theorem versionsOf_scanned {entries : List Entry} (sorted : UserSorted cmp entries) (key : Key) :
    versionsOf key (scanned cmp key entries) = versionsOf key entries := by
  induction entries with
  | nil => rfl
  | cons entry rest ih =>
      obtain ⟨above, tail⟩ := List.pairwise_cons.mp sorted
      by_cases beyond : cmp.compare entry.1.userKey key = .gt
      · have before := Comparator.compare_gt.mp beyond
        rw [scanned, List.takeWhile_cons_of_neg (by simp [beyond])]
        refine (versionsOf_eq_nil.mpr fun x member equal => ?_).symm
        rcases List.mem_cons.mp member with rfl | member
        · exact before.ne equal.symm
        · exact above x member (equal ▸ before)
      · rw [scanned, List.takeWhile_cons_of_pos (by simpa using beyond)]
        by_cases same : entry.1.userKey = key
        · rw [versionsOf_cons_of_eq same, versionsOf_cons_of_eq same]
          exact congrArg _ (ih tail)
        · rw [versionsOf_cons_of_ne same, versionsOf_cons_of_ne same]
          exact ih tail

theorem scanBlock_eq {entries : List Entry} (sorted : UserSorted cmp entries) (key : Key)
    (snapshot : Nat) (best : Option Version) :
    scanBlock cmp key snapshot best entries =
      later (newest (visibleVersions snapshot (versionsOf key entries).reverse)) best := by
  rw [scanBlock_eq_scanned, versionsOf_scanned sorted]

structure Laid (cmp : Comparator) (table : SSTable) : Prop where
  sorted : UserSorted cmp table.entries
  separated : Separated table.blocks
  inRange : ∀ entry ∈ table.entries, table.info.keyInRange cmp entry.1.userKey
  filtered : ∀ entry ∈ table.entries, table.bloom.all fun f => f.mayContain entry.1.userKey
  opens : table.readIndex cmp = .ok

private theorem sorted_blocks {blocks : List DataBlock}
    (sorted : UserSorted cmp (blocks.flatMap DataBlock.entries)) :
    (∀ b ∈ blocks, UserSorted cmp b.entries) ∧
      blocks.Pairwise fun b c =>
        ∀ x ∈ b.entries, ∀ y ∈ c.entries, ¬ cmp.Before y.1.userKey x.1.userKey := by
  rw [UserSorted, List.pairwise_flatMap] at sorted
  exact sorted

private theorem first_not_before {block : DataBlock} (sorted : UserSorted cmp block.entries) :
    ∀ x ∈ block.entries, ¬ cmp.Before x.1.userKey block.indexKey.userKey := by
  intro x member
  rcases List.mem_cons.mp member with rfl | member
  · exact fun before => before.ne rfl
  · exact (List.pairwise_cons.mp sorted).1 x member

private def startsBy (cmp : Comparator) (key : Key) (block : DataBlock) : Prop :=
  ¬ cmp.Before key block.indexKey.userKey

private theorem startsBy_iff {key : Key} {block : DataBlock} :
    startsBy cmp key block ↔ cmp.compare block.indexKey.userKey key ≠ .gt := by
  rw [startsBy, Ne, Comparator.compare_gt]

private theorem probe_iff {table : SSTable} {key : Key} {i : Nat} {block : DataBlock}
    (found : table.blocks[i]? = some block) :
    (table.blocks[i]?.any fun block => cmp.compare block.indexKey.userKey key ≠ .gt) ↔
      startsBy cmp key block := by
  simp [found, startsBy_iff]

theorem findIndexEntry_isLast {table : SSTable} (sorted : UserSorted cmp table.entries)
    (key : Key) : Search.IsLast
      (fun i => table.blocks[i]?.any fun block => cmp.compare block.indexKey.userKey key ≠ .gt)
      table.blocks.length (findIndexEntry cmp table key) := by
  have ordered := (sorted_blocks sorted).2
  refine Search.findLast_isLast ?_ _ (Nat.sub_le _ _) (Nat.zero_le _)
    ⟨le_rfl, fun j above less => absurd less (Nat.not_lt.mpr above), by simp, by simp⟩
  intro i j le less holds
  rcases Nat.lt_or_eq_of_le le with less' | rfl
  · have before := less'.trans less
    have atI : table.blocks[i]? = some table.blocks[i] := List.getElem?_eq_getElem before
    have atJ : table.blocks[j]? = some table.blocks[j] := List.getElem?_eq_getElem less
    refine (probe_iff atI).mpr fun late => ?_
    have later := List.pairwise_iff_getElem.mp ordered i j before less less'
      table.blocks[i].first (List.mem_cons_self ..) table.blocks[j].first (List.mem_cons_self ..)
    refine (probe_iff atJ).mp holds ?_
    rcases Comparator.not_before.mp later with equal | beyond
    · exact (congrArg (cmp.Before key) equal.symm).mp late
    · exact late.trans beyond
  · exact holds

private theorem absent_of_late {block : DataBlock} (sorted : UserSorted cmp block.entries)
    {key : Key} (late : cmp.Before key block.indexKey.userKey) :
    versionsOf key block.entries = [] := by
  refine versionsOf_eq_nil.mpr fun x member equal => ?_
  exact first_not_before sorted x member (equal ▸ late)

private theorem versionsOf_flatMap (key : Key) (blocks : List DataBlock) :
    versionsOf key (blocks.flatMap DataBlock.entries) =
      blocks.flatMap fun block => versionsOf key block.entries := by
  simp [versionsOf, List.filter_flatMap, List.map_flatMap]

private theorem flatMap_eq_of_only {α β : Type} {f : α → List β} {l : List α} {i : Nat}
    (inside : i < l.length) (others : ∀ j, (h : j < l.length) → j ≠ i → f l[j] = []) :
    l.flatMap f = f l[i] := by
  induction l generalizing i with
  | nil => simp at inside
  | cons a as ih =>
      cases i with
      | zero =>
          have rest : as.flatMap f = [] := by
            refine List.flatMap_eq_nil_iff.mpr fun x member => ?_
            obtain ⟨j, less, rfl⟩ := List.mem_iff_getElem.mp member
            exact others (j + 1) (by simpa using less) (by omega)
          simp [rest]
      | succ i =>
          have first : f a = [] := others 0 (by simp) (by omega)
          have rest := ih (i := i) (by simpa using inside) fun j less other =>
            others (j + 1) (by simpa using less) (by omega)
          simpa [first] using rest

theorem versions_of_block {table : SSTable} (laid : Laid cmp table) {key : Key} {i : Nat}
    {block : DataBlock} (located : findIndexEntry cmp table key = some i)
    (found : table.blocks[i]? = some block) :
    versionsOf key block.entries = versionsOf key table.entries := by
  obtain ⟨sorted, ordered⟩ := sorted_blocks laid.sorted
  have last := findIndexEntry_isLast laid.sorted key
  obtain ⟨inside, holds, beyond⟩ := last.some i located
  have starts := (probe_iff found).mp holds
  obtain ⟨_, rfl⟩ := List.getElem?_eq_some_iff.mp found
  rw [entries, versionsOf_flatMap]
  refine (flatMap_eq_of_only (f := fun block => versionsOf key block.entries) inside
    fun j inside' other => ?_).symm
  rw [versionsOf_eq_nil]
  rcases Nat.lt_or_gt_of_ne other with less | greater
  · intro x member equal
    have apart := List.pairwise_iff_getElem.mp laid.separated j i inside' inside less x member
      table.blocks[i].first (List.mem_cons_self ..)
    have order := List.pairwise_iff_getElem.mp ordered j i inside' inside less x member
      table.blocks[i].first (List.mem_cons_self ..)
    rcases Comparator.not_before.mp order with same | before
    · exact apart same.symm
    · exact starts (equal ▸ before)
  · have fails := beyond j greater inside'
    rw [probe_iff (List.getElem?_eq_getElem inside')] at fails
    exact versionsOf_eq_nil.mp
      (absent_of_late (sorted _ (List.getElem_mem inside')) (not_not.mp fails))

theorem versions_eq_nil_of_not_located {table : SSTable} (laid : Laid cmp table) {key : Key}
    (missing : findIndexEntry cmp table key = none) : versionsOf key table.entries = [] := by
  obtain ⟨sorted, -⟩ := sorted_blocks laid.sorted
  have last := findIndexEntry_isLast laid.sorted key
  rw [entries, versionsOf_flatMap, List.flatMap_eq_nil_iff]
  intro block member
  obtain ⟨i, inside, rfl⟩ := List.mem_iff_getElem.mp member
  have fails := last.none missing i inside
  rw [probe_iff (List.getElem?_eq_getElem inside)] at fails
  exact absent_of_late (sorted _ member) (not_not.mp fails)

/-- `SSTableReader::Get` reports the newest version visible to the snapshot. -/
theorem get_eq_report {table : SSTable} (laid : Laid cmp table) (key : Key) (snapshot : Nat)
    (value : Value) : table.get cmp key snapshot value =
      report value (newest (visibleVersions snapshot (table.versions key))) := by
  have absent (reason : ∀ entry ∈ table.entries, entry.1.userKey ≠ key) :
      newest (visibleVersions snapshot (table.versions key)) = none := by
    rw [versions, versionsOf_eq_nil.mpr reason]
    rfl
  unfold get
  split
  · rename_i outside
    rw [absent fun entry member same => outside (same ▸ laid.inRange entry member)]
  split
  · rename_i ruledOut
    rw [absent]
    rintro entry member rfl
    have passes := laid.filtered entry member
    cases filter : table.bloom <;> simp_all
  split
  · rename_i missing
    have unlocated : findIndexEntry cmp table key = none := by
      cases located : findIndexEntry cmp table key with
      | none => rfl
      | some i =>
          have inside := ((findIndexEntry_isLast laid.sorted key).some i located).1
          simp [located, List.getElem?_eq_getElem inside] at missing
    rw [absent (versionsOf_eq_nil.mp (versions_eq_nil_of_not_located laid unlocated))]
  · rename_i block found
    obtain ⟨i, located, found⟩ := Option.bind_eq_some_iff.mp found
    have member := List.mem_of_getElem? found
    rw [scanBlock_eq ((sorted_blocks laid.sorted).1 block member), later_none_right,
      versions_of_block laid located found, versions]

/-! ## What the reader settles on -/

def choice (cmp : Comparator) (table : SSTable) (key : Key) (snapshot : Nat) : Option Version :=
  if ¬ table.info.keyInRange cmp key then none
  else if table.bloom.any fun filter => ¬ filter.mayContain key then none
  else
    match (findIndexEntry cmp table key).bind fun i => table.blocks[i]? with
    | none => none
    | some block => scanBlock cmp key snapshot none block.entries

theorem get_eq_choice (table : SSTable) (key : Key) (snapshot : Nat) (value : Value) :
    table.get cmp key snapshot value = report value (table.choice cmp key snapshot) := by
  unfold get choice
  split
  · rfl
  split
  · rfl
  split <;> rfl

theorem scanBlock_congr {entries : List Entry} {snapshot other : Nat}
    (same : ∀ entry ∈ entries, Visible snapshot entry.1.sequence ↔ Visible other entry.1.sequence)
    (key : Key) (best : Option Version) :
    scanBlock cmp key snapshot best entries = scanBlock cmp key other best entries := by
  induction entries generalizing best with
  | nil => rfl
  | cons entry rest ih =>
      obtain ⟨here, later⟩ := List.forall_mem_cons.mp same
      simp only [scanBlock, here, ih later]

theorem choice_congr {table : SSTable} {snapshot other : Nat}
    (same : ∀ entry ∈ table.entries,
      Visible snapshot entry.1.sequence ↔ Visible other entry.1.sequence) (key : Key) :
    table.choice cmp key snapshot = table.choice cmp key other := by
  unfold choice
  split
  · rfl
  split
  · rfl
  split
  · rfl
  · rename_i block found
    obtain ⟨i, -, found⟩ := Option.bind_eq_some_iff.mp found
    refine scanBlock_congr (fun entry member => same entry ?_) key none
    exact List.mem_flatMap.mpr ⟨block, List.mem_of_getElem? found, member⟩

end SSTable
end Lrdb
