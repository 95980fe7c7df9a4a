import Lrdb.Storage.FlushAll

/-!
# The names of table files

A flush names its file after the counter of the manager. Opening a tree sets the counter behind the
greatest number that it read off the names of the files it could load. A compaction gives its output a
fixed name in the working directory.
-/

namespace Lrdb
open SSTableManager

/-! ## Reading a name -/

namespace TableName

def isSpace (c : Char) : Bool := c = ' ' || ('\t' ≤ c && c ≤ '\r')

def readNumber (text : List Char) : Option (Bool × Nat) :=
  let text := text.dropWhile isSpace
  let negative := text.head? = some '-'
  let digits := (if negative ∨ text.head? = some '+' then text.tail else text).takeWhile Char.isDigit
  if digits = [] then none else some (negative, Nat.ofDigitChars 10 digits 0)

/-- `std::stoull`: a negative number comes out modulo 2^64. -/
def stoull (text : List Char) : Option Nat :=
  match readNumber text with
  | none => none
  | some (negative, n) =>
      if 2 ^ 64 ≤ n then none else some (if negative then (2 ^ 64 - n) % 2 ^ 64 else n)

/-- `std::stoi`. -/
def stoi (text : List Char) : Option Int :=
  match readNumber text with
  | none => none
  | some (negative, n) =>
      let value : Int := if negative then -n else n
      if value < -2 ^ 31 ∨ 2 ^ 31 ≤ value then none else some value

/-- The text behind the first `_L`. -/
def behindMark : List Char → Option (List Char)
  | [] => none
  | '_' :: 'L' :: rest => some rest
  | _ :: rest => behindMark rest

def parse (filename : List Char) : Option (Nat × Int) :=
  let rest := filename.drop 4
  if ¬ "sst_".toList <+: filename ∨ '_' ∉ rest then none
  else
    match behindMark (rest.dropWhile (· ≠ '_')) with
    | none => none
    | some tail =>
        if ¬ ".sst".toList <:+ filename then none
        else
          match stoull (rest.takeWhile (· ≠ '_')), stoi (tail.take (tail.length - 4)) with
          | some number, some level => some (number, level)
          | _, _ => none

def make (fileNumber level : Nat) : List Char :=
  "sst_".toList ++ Nat.toDigits 10 fileNumber ++ "_L".toList ++ Nat.toDigits 10 level ++ ".sst".toList

end TableName

/-! ## Loading a directory -/

structure DirectoryEntry where
  filename : List Char
  isRegularFile : Bool := true
  table : Option SSTable

namespace SSTableManager
variable (cmp : Comparator)

def wrapped (m : SSTableManager) : SSTableManager :=
  { m with nextFileNumber := m.nextFileNumber % 2 ^ 64 }

structure Loading where
  manager : SSTableManager := .new
  maxFileNumber : Nat := 0
  loaded : Nat := 0

/-- One turn of the loop of `LoadExistingSSTables`. A negative level is none of the manager's. -/
def loadEntry (loading : Loading) (entry : DirectoryEntry) : Loading :=
  if ¬ entry.isRegularFile then loading
  else
    match TableName.parse entry.filename, entry.table with
    | some (fileNumber, level), some table =>
        if ¬ (table.readIndex cmp).isOk ∨ level < 0 then loading
        else
          let table := { table with info := { table.info with fileNumber := fileNumber } }
          match loading.manager.registerSSTable cmp level.toNat table with
          | .error _ => loading
          | .ok m => ⟨m.wrapped, max loading.maxFileNumber fileNumber, loading.loaded + 1⟩
    | _, _ => loading

def loadDirectory (entries : List DirectoryEntry) : SSTableManager :=
  let loading := entries.foldl (loadEntry cmp) {}
  if 0 < loading.loaded then
    { loading.manager with nextFileNumber := (loading.maxFileNumber + 1) % 2 ^ 64 }
  else loading.manager

end SSTableManager

/-! ## A session -/

inductive FileOutcome where
  | succeeds
  | openFails
  | finishFails
  deriving DecidableEq

structure TableFiles where
  manager : SSTableManager
  tables : List (List Char)
  working : List (List Char) := []

namespace TableFiles
variable {cmp : Comparator} (options : SSTableWriterOptions) (directory : List Char) (disk : LSMTree.Disk cmp)

inductive Call (cmp : Comparator) where
  | flush (mem : MemTable cmp) (outcome : FileOutcome)
  | compactLevel (level : Nat)

def compactionOutput (level inputs : Nat) : List Char :=
  "compact_L".toList ++ Nat.toDigits 10 level ++ (if inputs = 1 then "_0.sst" else "_merged.sst").toList

def newName (st : TableFiles) : Call cmp → Option (List Char × List (List Char))
  | .flush mem _ =>
      if mem.isEmpty then none
      else some (generateFileName directory st.manager.nextFileNumber 0, st.tables)
  | .compactLevel level =>
      let inputs := (LSMTree.pickCompactionFiles cmp st.manager level).1
      if inputs = [] then none else some (compactionOutput level inputs.length, st.working)

/-- A file that is not finished stays; one that is given up is deleted. -/
def doFlushMemTable (st : TableFiles) (mem : MemTable cmp) (outcome : FileOutcome) : TableFiles :=
  if mem.isEmpty then st
  else
    let name := generateFileName directory st.manager.nextFileNumber 0
    let numbered := { st.manager with nextFileNumber := st.manager.nextFileNumber + 1 }.wrapped
    let written := flushEntries cmp options mem.entries st.manager.nextFileNumber
    match outcome with
    | .openFails => { st with manager := numbered }
    | .finishFails =>
        { st with
          manager := numbered
          tables := if written.isOk then st.tables.insert name else st.tables.filter (· ≠ name) }
    | .succeeds =>
        let (status, manager) := st.manager.flushMemTableToSSTable cmp options mem 0
        { st with
          manager := manager.wrapped
          tables := if status.isOk then st.tables.insert name else st.tables.filter (· ≠ name) }

/-- The output stays in the working directory, registered or not; that of a failed merge is deleted. -/
def compactLevel (st : TableFiles) (level : Nat) : TableFiles :=
  let (inputs, outputLevel) := LSMTree.pickCompactionFiles cmp st.manager level
  if inputs = [] then st
  else
    let name := compactionOutput level inputs.length
    let merged :=
      SSTableCompactor.compactFiles cmp {} {} (inputs.map fun input => disk input.1) outputLevel
    let (status, t) :=
      (LSMTree.reopened {} st.manager : LSMTree cmp).compactLevel directory disk level
    let obsolete := inputs.map fun (file, level) =>
      generateFileName directory file.info.fileNumber level
    { manager := t.sstables
      tables := if status.isOk then st.tables.filter (· ∉ obsolete) else st.tables
      working := if merged.1.isOk then st.working.insert name else st.working.filter (· ≠ name) }

def step (st : TableFiles) : Call cmp → Option TableFiles
  | .flush mem outcome => some (st.doFlushMemTable options directory mem outcome)
  | .compactLevel level => some (st.compactLevel directory disk level)

def opened (cmp : Comparator) (entries : List DirectoryEntry) (working : List (List Char)) :
    TableFiles :=
  ⟨loadDirectory cmp entries, entries.map fun entry => directory ++ "/".toList ++ entry.filename,
    working⟩

def Fresh (st : TableFiles) (call : Call cmp) : Prop :=
  ∀ new ∈ st.newName directory call, new.1 ∉ new.2

/-- A flush has a number left, and a compaction that has inputs finds no output of an earlier one of its
kind in the working directory. -/
def Permitted (st : TableFiles) : Call cmp → Prop
  | .flush _ _ => st.manager.nextFileNumber + 1 < 2 ^ 64
  | .compactLevel level =>
      let inputs := (LSMTree.pickCompactionFiles cmp st.manager level).1
      inputs ≠ [] → compactionOutput level inputs.length ∉ st.working

end TableFiles

/-! ## What loading makes of the counter -/

def DirectoryEntry.fileNumber (cmp : Comparator) (entry : DirectoryEntry) : Option Nat :=
  match TableName.parse entry.filename, entry.table with
  | some (fileNumber, level), some table =>
      if entry.isRegularFile ∧ (table.readIndex cmp).isOk ∧ fileNumber ≠ 0 ∧ 0 ≤ level ∧ level ≤ 6 then
        some fileNumber
      else none
  | _, _ => none

namespace SSTableManager
variable {cmp : Comparator} {numbers : List Nat} {loading : Loading}

structure Loaded (numbers : List Nat) (loading : Loading) : Prop where
  levels : loading.manager.levelFiles.length = 7
  registered : ∀ file ∈ loading.manager.levelFiles.flatten, file.info.fileNumber ∈ numbers
  counted : loading.loaded = 0 ↔ numbers = []
  nothing : numbers = [] → loading = {}
  bound : ∀ number ∈ numbers, number ≤ loading.maxFileNumber
  attained : numbers ≠ [] → loading.maxFileNumber ∈ numbers

theorem loaded_empty : Loaded [] {} where
  levels := rfl
  registered := by simp [new]
  counted := by simp
  nothing := fun _ => rfl
  bound := by simp
  attained := by simp

theorem Loaded.known (loaded : Loaded numbers loading) {number : Nat} (known : number ∈ numbers) :
    Loaded (numbers ++ [number]) loading where
  levels := loaded.levels
  registered file member := List.mem_append_left _ (loaded.registered file member)
  counted := by
    rw [loaded.counted]
    exact iff_of_false (List.ne_nil_of_mem known) (by simp)
  nothing none := by simp at none
  bound other member := by
    rcases List.mem_append.mp member with old | here
    · exact loaded.bound other old
    · rw [List.mem_singleton.mp here]
      exact loaded.bound number known
  attained _ := List.mem_append_left _ (loaded.attained (List.ne_nil_of_mem known))

theorem Loaded.register (loaded : Loaded numbers loading) {i : Nat} {table : SSTable}
    {m : SSTableManager} (registered : loading.manager.registerSSTable cmp i table = .ok m) :
    Loaded (numbers ++ [table.info.fileNumber]) ⟨m.wrapped,
      max loading.maxFileNumber table.info.fileNumber, loading.loaded + 1⟩ where
  levels := by
    show m.levelFiles.length = 7
    rw [registerSSTable_ok registered, List.length_set, loaded.levels]
  registered file member := by
    have levels := registerSSTable_ok registered
    rw [show m.wrapped.levelFiles = m.levelFiles from rfl, levels] at member
    obtain ⟨files, inLevels, inside⟩ := List.mem_flatten.mp member
    rcases List.mem_or_eq_of_mem_set inLevels with old | rfl
    · exact List.mem_append_left _ (loaded.registered file (List.mem_flatten_of_mem old inside))
    · rcases (List.mem_orderedInsert _).mp inside with rfl | old
      · exact List.mem_append_right _ (List.mem_singleton_self _)
      · obtain ⟨others, level, inLevel⟩ := mem_of_level old
        exact List.mem_append_left _ (loaded.registered file (List.mem_flatten_of_mem level inLevel))
  counted := by simp
  nothing none := by simp at none
  bound other member := by
    rcases List.mem_append.mp member with old | here
    · exact (loaded.bound other old).trans (le_max_left ..)
    · rw [List.mem_singleton.mp here]
      exact le_max_right ..
  attained _ := by
    show max loading.maxFileNumber table.info.fileNumber ∈ _
    by_cases none : numbers = []
    · rw [loaded.nothing none, Nat.zero_max]
      exact List.mem_append_right _ (List.mem_singleton_self _)
    · rcases max_choice loading.maxFileNumber table.info.fileNumber with old | here
      · rw [old]
        exact List.mem_append_left _ (loaded.attained none)
      · rw [here]
        exact List.mem_append_right _ (List.mem_singleton_self _)

theorem Loaded.entry (loaded : Loaded numbers loading) (entry : DirectoryEntry) :
    Loaded (numbers ++ (entry.fileNumber cmp).toList)
      (SSTableManager.loadEntry cmp loading entry) := by
  have passed : Loaded (numbers ++ []) loading := by rwa [List.append_nil]
  unfold SSTableManager.loadEntry DirectoryEntry.fileNumber
  rcases TableName.parse entry.filename with _ | ⟨fileNumber, level⟩
  · simpa using loaded
  rcases entry.table with _ | table
  · simpa using loaded
  by_cases regular : entry.isRegularFile = true
  swap
  · simpa [regular] using loaded
  by_cases opens : (table.readIndex cmp).isOk = true
  swap
  · simpa [regular, opens] using loaded
  by_cases negative : level < 0
  · simpa [regular, opens, negative, not_le.mpr negative] using loaded
  simp only [regular, opens, negative, not_true_eq_false, or_self, if_false, true_and,
    not_lt.mp negative]
  by_cases accepted : fileNumber ≠ 0 ∧ level ≤ 6
  · rw [if_pos accepted]
    cases registered : loading.manager.registerSSTable cmp level.toNat
        { table with info := { table.info with fileNumber := fileNumber } } with
    | ok m => exact loaded.register registered
    | error status =>
        -- Only a number that is registered already can be in the way.
        unfold registerSSTable at registered
        rw [if_neg accepted.1, loaded.levels, if_neg (by omega)] at registered
        split at registered
        · rename_i known
          obtain ⟨file, member, same⟩ := known
          have number : file.info.fileNumber = fileNumber := same
          exact loaded.known (number ▸ loaded.registered file member)
        · cases registered
  · rw [if_neg accepted]
    cases registered : loading.manager.registerSSTable cmp level.toNat
        { table with info := { table.info with fileNumber := fileNumber } } with
    | error status => exact passed
    | ok m =>
        unfold registerSSTable at registered
        rw [loaded.levels] at registered
        split at registered <;> [cases registered; skip]
        rename_i positive
        rw [if_pos (by have := not_and.mp accepted positive; omega)] at registered
        cases registered

theorem Loaded.entries (loaded : Loaded numbers loading) (entries : List DirectoryEntry) :
    Loaded (numbers ++ entries.filterMap (DirectoryEntry.fileNumber cmp))
      (entries.foldl (SSTableManager.loadEntry cmp) loading) := by
  induction entries generalizing numbers loading with
  | nil => rwa [List.filterMap_nil, List.append_nil]
  | cons entry rest ih =>
      have later := ih (@Loaded.entry cmp numbers loading loaded entry)
      rw [List.append_assoc] at later
      rw [List.foldl_cons, List.filterMap_cons]
      cases read : entry.fileNumber cmp with
      | none => rwa [read] at later
      | some number => rwa [read] at later

theorem nextFileNumber_loadDirectory (cmp : Comparator) (entries : List DirectoryEntry) :
    let numbers := entries.filterMap (DirectoryEntry.fileNumber cmp)
    (numbers = [] ∧ (loadDirectory cmp entries).nextFileNumber = 1) ∨
      ∃ greatest ∈ numbers, (∀ number ∈ numbers, number ≤ greatest) ∧
        (loadDirectory cmp entries).nextFileNumber = (greatest + 1) % 2 ^ 64 := by
  intro numbers
  have loaded : Loaded numbers (entries.foldl (SSTableManager.loadEntry cmp) {}) :=
    loaded_empty.entries entries
  unfold loadDirectory
  by_cases none : numbers = []
  · left
    rw [loaded.nothing none]
    exact ⟨none, rfl⟩
  · right
    have some := Nat.pos_of_ne_zero (loaded.counted.not.mpr none)
    refine ⟨_, loaded.attained none, loaded.bound, ?_⟩
    dsimp only
    rw [if_pos some]

end SSTableManager

namespace TableName

theorem of_isDigit {c : Char} (digit : c.isDigit) :
    isSpace c = false ∧ c ≠ '-' ∧ c ≠ '+' ∧ c ≠ '_' := by
  refine ⟨?_, ?_, ?_, ?_⟩
  · have low : 48 ≤ c.val := by
      rw [Char.isDigit, Bool.and_eq_true] at digit
      exact of_decide_eq_true digit.1
    rw [isSpace, Bool.or_eq_false_iff, Bool.and_eq_false_iff]
    refine ⟨decide_eq_false ?_, .inr (decide_eq_false ?_)⟩
    · rintro rfl
      exact absurd low (by decide)
    · exact fun le => absurd (UInt32.le_trans low le) (by decide)
  all_goals
    rintro rfl
    exact absurd digit (by decide)

theorem isDigit_of_mem {n : Nat} {c : Char} (member : c ∈ Nat.toDigits 10 n) : c.isDigit :=
  Nat.isDigit_of_mem_toDigits (by decide) (by decide) member

theorem readNumber_toDigits (n : Nat) : readNumber (Nat.toDigits 10 n) = some (false, n) := by
  have all : (Nat.toDigits 10 n).takeWhile Char.isDigit = Nat.toDigits 10 n :=
    List.takeWhile_eq_self_iff.mpr fun c member => isDigit_of_mem member
  have value := Nat.ofDigitChars_ten_toDigits (n := n)
  have digit {c : Char} := @isDigit_of_mem n c
  cases digits : Nat.toDigits 10 n with
  | nil => exact absurd digits Nat.toDigits_ne_nil
  | cons c rest =>
      rw [digits] at all value digit
      obtain ⟨space, minus, plus, -⟩ := of_isDigit (digit (List.mem_cons_self ..))
      rw [readNumber, List.dropWhile_cons_of_neg (by simp [space])]
      simp [minus, plus, all, value]

theorem make_eq (n level : Nat) : make n level =
    "sst_".toList ++ Nat.toDigits 10 n ++ "_L".toList ++ Nat.toDigits 10 level ++ ".sst".toList :=
  rfl

theorem parse_make {n level : Nat} (numbered : n < 2 ^ 64) (shallow : level < 2 ^ 31) :
    parse (make n level) = some (n, (level : Int)) := by
  have inside : ∀ c ∈ Nat.toDigits 10 n, c ≠ '_' := fun c member => (of_isDigit (isDigit_of_mem member)).2.2.2
  have rest : (make n level).drop 4 =
      Nat.toDigits 10 n ++ '_' :: 'L' :: (Nat.toDigits 10 level ++ ".sst".toList) := by
    simp [make_eq]
  have front : "sst_".toList <+: make n level := by simp [make_eq]
  have back : ".sst".toList <:+ make n level := List.suffix_append _ _
  have stem : (Nat.toDigits 10 n ++ '_' :: 'L' :: (Nat.toDigits 10 level ++ ".sst".toList)).takeWhile
      (· ≠ '_') = Nat.toDigits 10 n := by
    rw [List.takeWhile_append_of_pos (by simpa using inside), List.takeWhile_cons_of_neg (by simp),
      List.append_nil]
  have tail : (Nat.toDigits 10 n ++ '_' :: 'L' :: (Nat.toDigits 10 level ++ ".sst".toList)).dropWhile
      (· ≠ '_') = '_' :: 'L' :: (Nat.toDigits 10 level ++ ".sst".toList) := by
    rw [List.dropWhile_append_of_pos (by simpa using inside), List.dropWhile_cons_of_neg (by simp)]
  have levelText : (Nat.toDigits 10 level ++ ".sst".toList).take
      ((Nat.toDigits 10 level ++ ".sst".toList).length - 4) = Nat.toDigits 10 level := by
    apply List.take_left'
    rw [List.length_append]
    rfl
  have number : stoull (Nat.toDigits 10 n) = some n := by
    rw [stoull, readNumber_toDigits]
    exact if_neg (Nat.not_le.mpr numbered)
  have depth : stoi (Nat.toDigits 10 level) = some (level : Int) := by
    rw [stoi, readNumber_toDigits]
    exact if_neg (by simp; omega)
  rw [parse, rest, stem, tail, behindMark]
  dsimp only
  rw [levelText, number, depth, if_neg (not_or.mpr ⟨not_not_intro front, by simp⟩),
    if_neg (not_not_intro back)]

theorem stoull_lt {text : List Char} {n : Nat} (read : stoull text = some n) : n < 2 ^ 64 := by
  unfold stoull at read
  split at read
  · cases read
  · split at read
    · cases read
    · rename_i small
      obtain rfl := Option.some.inj read
      split
      · exact Nat.mod_lt _ (by decide)
      · exact Nat.not_le.mp small

theorem parse_lt {filename : List Char} {n : Nat} {level : Int}
    (read : parse filename = some (n, level)) : n < 2 ^ 64 := by
  unfold parse at read
  dsimp only at read
  split at read <;> [cases read; skip]
  split at read <;> [cases read; skip]
  split at read <;> [cases read; skip]
  split at read
  · rename_i number level' readNumber readLevel
    obtain ⟨rfl, -⟩ := Prod.ext_iff.mp (Option.some.inj read)
    exact stoull_lt readNumber
  · cases read

theorem make_injective {n m level : Nat} (same : make n level = make m level) : n = m := by
  have digits : Nat.toDigits 10 n = Nat.toDigits 10 m := by
    simpa [make_eq] using same
  have read := congrArg (fun digits => Nat.ofDigitChars 10 digits 0) digits
  simpa only [Nat.ofDigitChars_ten_toDigits] using read

theorem generateFileName_eq (directory : List Char) (n level : Nat) :
    generateFileName directory n level = directory ++ "/".toList ++ make n level := by
  simp [generateFileName, make_eq]

end TableName

/-! ## When the names stay new -/

/-- Every file that carries the name of a coming flush has a loaded file at its number or behind, and
no loaded file has the last number there is. -/
def NumbersSeen (cmp : Comparator) (entries : List DirectoryEntry) : Prop :=
  ∀ entry ∈ entries, ∀ n, n + 1 < 2 ^ 64 → entry.filename = TableName.make n 0 →
    (n = 0 ∨ ∃ other ∈ entries, ∃ number ∈ other.fileNumber cmp, n ≤ number) ∧
      ∀ other ∈ entries, other.fileNumber cmp ≠ some (2 ^ 64 - 1)

theorem DirectoryEntry.fileNumber_lt {cmp : Comparator} {entry : DirectoryEntry} {n : Nat}
    (read : entry.fileNumber cmp = some n) : n < 2 ^ 64 := by
  unfold DirectoryEntry.fileNumber at read
  split at read
  · rename_i parsed _
    split at read
    · obtain rfl := Option.some.inj read
      exact TableName.parse_lt parsed
    · cases read
  · cases read

structure DirectoryEntry.Sound (cmp : Comparator) (entry : DirectoryEntry) (n level : Nat) : Prop where
  regular : entry.isRegularFile = true
  named : entry.filename = TableName.make n level
  numbered : 0 < n ∧ n + 1 < 2 ^ 64
  leveled : level ≤ 6
  opens : ∃ table ∈ entry.table, (table.readIndex cmp).isOk

theorem DirectoryEntry.Sound.fileNumber {cmp : Comparator} {entry : DirectoryEntry} {n level : Nat}
    (sound : entry.Sound cmp n level) : entry.fileNumber cmp = some n := by
  obtain ⟨table, held, opens⟩ := sound.opens
  have parsed : TableName.parse entry.filename = some (n, (level : Int)) := by
    rw [sound.named, TableName.parse_make (by have := sound.numbered; omega)
      (by have := sound.leveled; omega)]
  rw [DirectoryEntry.fileNumber, parsed, Option.mem_def.mp held]
  refine if_pos ⟨sound.regular, opens, sound.numbered.1.ne', ?_, ?_⟩
  · exact Int.natCast_nonneg level
  · exact_mod_cast sound.leveled

theorem numbersSeen_of_sound {cmp : Comparator} {entries : List DirectoryEntry}
    (sound : ∀ entry ∈ entries, ∃ n level, entry.Sound cmp n level) : NumbersSeen cmp entries := by
  intro entry member n bound named
  refine ⟨.inr ⟨entry, member, ?_⟩, fun other inside last => ?_⟩
  · obtain ⟨m, level, here⟩ := sound entry member
    have same : some (m, (level : Int)) = some (n, ((0 : Nat) : Int)) := by
      rw [← TableName.parse_make (by have := here.numbered; omega) (by have := here.leveled; omega),
        ← TableName.parse_make (by omega) (by decide), ← here.named, named]
    obtain rfl := (Prod.ext_iff.mp (Option.some.inj same)).1
    exact ⟨m, here.fileNumber, le_rfl⟩
  · obtain ⟨m, level, here⟩ := sound other inside
    rw [here.fileNumber] at last
    have last := Option.some.inj last
    have := here.numbered
    omega

theorem lt_nextFileNumber_iff {cmp : Comparator} {entries : List DirectoryEntry} {n : Nat} :
    n < (loadDirectory cmp entries).nextFileNumber ↔
      (n = 0 ∨ ∃ other ∈ entries, ∃ number ∈ other.fileNumber cmp, n ≤ number) ∧
        ∀ other ∈ entries, other.fileNumber cmp ≠ some (2 ^ 64 - 1) := by
  have mem (number : Nat) : number ∈ entries.filterMap (DirectoryEntry.fileNumber cmp) ↔
      ∃ other ∈ entries, other.fileNumber cmp = some number := List.mem_filterMap
  rcases nextFileNumber_loadDirectory cmp entries with ⟨none, next⟩ | ⟨greatest, member, bound, next⟩
  · rw [none] at mem
    simp only [List.not_mem_nil, false_iff, not_exists, not_and] at mem
    rw [next, Nat.lt_one_iff]
    constructor
    · exact fun zero => ⟨.inl zero, fun other inside => mem _ other inside⟩
    · rintro ⟨zero | ⟨other, inside, number, read, -⟩, -⟩
      · exact zero
      · exact absurd read (mem number other inside)
  · obtain ⟨last, inside, read⟩ := (mem greatest).mp member
    have small := DirectoryEntry.fileNumber_lt read
    rw [next]
    by_cases full : greatest = 2 ^ 64 - 1
    · subst full
      refine iff_of_false (by simp) fun seen => seen.2 last inside read
    · rw [Nat.mod_eq_of_lt (by omega), Nat.lt_succ_iff]
      constructor
      · intro le
        refine ⟨.inr ⟨last, inside, greatest, read, le⟩, fun other member same => ?_⟩
        have := bound _ ((mem _).mpr ⟨other, member, same⟩)
        omega
      · rintro ⟨rfl | ⟨other, member, number, found, le⟩, -⟩
        · exact Nat.zero_le _
        · exact le.trans (bound number ((mem number).mpr ⟨other, member, found⟩))

theorem SSTableManager.nextFileNumber_flush {cmp : Comparator} (options : SSTableWriterOptions)
    (m : SSTableManager) (mem : MemTable cmp) :
    (m.flushMemTableToSSTable cmp options mem 0).2.nextFileNumber = m.nextFileNumber + 1 := by
  unfold flushMemTableToSSTable
  cases written : flushEntries cmp options mem.entries m.nextFileNumber with
  | error status => simp only [written]
  | ok table =>
      have number := (written_of_flush written).number
      simp only [written]
      cases registered : registerSSTable cmp { m with nextFileNumber := m.nextFileNumber + 1 } 0 table with
      | error status => rfl
      | ok after =>
          show after.nextFileNumber = _
          unfold registerSSTable at registered
          split at registered <;> [cases registered; skip]
          split at registered <;> [cases registered; skip]
          split at registered <;> [cases registered; skip]
          rw [← Except.ok.inj registered, number]
          exact if_neg (Nat.not_le.mpr (Nat.lt_succ_self _))

theorem LSMTree.pick_nil {cmp : Comparator} {m : SSTableManager} {level : Nat}
    (none : m.level level = []) : (LSMTree.pickCompactionFiles cmp m level).1 = [] := by
  unfold LSMTree.pickCompactionFiles
  dsimp only
  split
  · rename_i top
    subst top
    simp [none, LSMTree.overlapping]
  · simp [none]

namespace TableFiles
open Runs
variable {cmp : Comparator} {options : SSTableWriterOptions} {directory : List Char}
variable {disk : LSMTree.Disk cmp} {st : TableFiles}

theorem newName_flush {mem : MemTable cmp} (some : ¬ mem.isEmpty) (outcome : FileOutcome) :
    st.newName directory (.flush mem outcome) =
      .some (generateFileName directory st.manager.nextFileNumber 0, st.tables) := if_neg some

theorem doFlushMemTable_spec {mem : MemTable cmp} (some : ¬ mem.isEmpty) (outcome : FileOutcome) :
    (st.doFlushMemTable options directory mem outcome).manager.nextFileNumber =
        (st.manager.nextFileNumber + 1) % 2 ^ 64 ∧
      ∀ name ∈ (st.doFlushMemTable options directory mem outcome).tables,
        name ∈ st.tables ∨ name = generateFileName directory st.manager.nextFileNumber 0 := by
  have stays {fine : Prop} [Decidable fine] {new : List Char} :
      ∀ name ∈ if fine then st.tables.insert new else st.tables.filter (· ≠ new),
        name ∈ st.tables ∨ name = new := by
    intro name member
    split at member
    · exact (List.mem_insert_iff.mp member).symm
    · exact .inl (List.mem_filter.mp member).1
  rw [doFlushMemTable, if_neg some]
  cases outcome with
  | openFails => exact ⟨rfl, fun name member => .inl member⟩
  | finishFails => exact ⟨rfl, stays⟩
  | succeeds =>
      refine ⟨?_, stays⟩
      show (st.manager.flushMemTableToSSTable cmp options mem 0).2.nextFileNumber % 2 ^ 64 = _
      rw [nextFileNumber_flush]

theorem compactLevel_spec (level : Nat) :
    (st.compactLevel directory disk level).manager = st.manager ∧
      (st.compactLevel directory disk level).tables = st.tables := by
  unfold compactLevel
  rcases picked : LSMTree.pickCompactionFiles cmp st.manager level with ⟨inputs, outputLevel⟩
  dsimp only
  split
  · exact ⟨rfl, rfl⟩
  · rename_i some
    have files : st.manager.level level ≠ [] := by
      intro none
      have nothing := @LSMTree.pick_nil cmp st.manager level none
      rw [picked] at nothing
      exact some nothing
    obtain ⟨failed, same⟩ := LSMTree.compactLevel_fails directory disk
      (LSMTree.reopened {} st.manager : LSMTree cmp) files
    exact ⟨congrArg LSMTree.sstables same, if_neg failed⟩

def Behind (directory : List Char) (st : TableFiles) : Prop :=
  ∀ n, n + 1 < 2 ^ 64 → generateFileName directory n 0 ∈ st.tables → n < st.manager.nextFileNumber

theorem Behind.step (behind : st.Behind directory) {call : Call cmp} {next : TableFiles}
    (permitted : st.Permitted call) (stepped : st.step options directory disk call = some next) :
    next.Behind directory := by
  cases call with
  | flush mem outcome =>
      obtain rfl := Option.some.inj stepped
      by_cases none : mem.isEmpty
      · rw [doFlushMemTable, if_pos none]
        exact behind
      · obtain ⟨counter, tables⟩ := @doFlushMemTable_spec cmp options directory st mem none outcome
        have small : st.manager.nextFileNumber + 1 < 2 ^ 64 := permitted
        intro n bound member
        rw [counter, Nat.mod_eq_of_lt small]
        rcases tables _ member with old | new
        · exact (behind n bound old).trans (Nat.lt_succ_self _)
        · rw [TableName.generateFileName_eq, TableName.generateFileName_eq] at new
          have same := TableName.make_injective (List.append_cancel_left new)
          omega
  | compactLevel level =>
      obtain rfl := Option.some.inj stepped
      obtain ⟨manager, tables⟩ := @compactLevel_spec cmp directory disk st level
      intro n bound member
      rw [manager]
      exact behind n bound (tables ▸ member)

theorem behind_opened_iff {entries : List DirectoryEntry} {working : List (List Char)} :
    (opened directory cmp entries working).Behind directory ↔ NumbersSeen cmp entries := by
  unfold Behind NumbersSeen
  simp only [← lt_nextFileNumber_iff]
  constructor
  · intro behind entry member n bound named
    refine behind n bound (List.mem_map.mpr ⟨entry, member, ?_⟩)
    rw [TableName.generateFileName_eq, named]
  · intro seen n bound member
    obtain ⟨entry, inside, path⟩ := List.mem_map.mp member
    rw [TableName.generateFileName_eq] at path
    exact seen entry inside n bound (List.append_cancel_left path)

theorem run_openFails {mem : MemTable cmp} (some : ¬ mem.isEmpty) {n : Nat}
    (le : st.manager.nextFileNumber ≤ n) (bound : n < 2 ^ 64) :
    ∃ next, Run (step options directory disk) Permitted st next ∧
      next.manager.nextFileNumber = n ∧ next.tables = st.tables := by
  induction n, le using Nat.le_induction with
  | base => exact ⟨st, .refl, rfl, rfl⟩
  | succ n le ih =>
      obtain ⟨next, run, counter, tables⟩ := ih (by omega)
      refine ⟨next.doFlushMemTable options directory mem .openFails,
        run.tail ⟨.flush mem .openFails, ?_, rfl⟩, ?_, ?_⟩
      · show next.manager.nextFileNumber + 1 < 2 ^ 64
        rw [counter]
        exact bound
      · rw [(doFlushMemTable_spec some .openFails).1, counter, Nat.mod_eq_of_lt bound]
      · rw [doFlushMemTable, if_neg some]
        exact tables

def oneEntry (cmp : Comparator) : MemTable cmp :=
  (MemTable.new {}).insert {} (.make [107] 1 .kValue) [1]

theorem not_isEmpty_oneEntry (cmp : Comparator) : ¬ (oneEntry cmp).isEmpty := by
  simp [oneEntry, MemTable.isEmpty, MemTable.insert, MemTable.new]

/-- The names are new in every run if and only if every file of a coming name was seen at the open. -/
theorem fresh_iff (options : SSTableWriterOptions) (directory : List Char) (disk : LSMTree.Disk cmp)
    (entries : List DirectoryEntry) (working : List (List Char)) :
    (∀ st, Run (step options directory disk) (Permitted : TableFiles → Call cmp → Prop)
        (opened directory cmp entries working) st →
      ∀ call : Call cmp, st.Permitted call → st.Fresh directory call) ↔
    NumbersSeen cmp entries := by
  rw [← @behind_opened_iff cmp directory entries working]
  constructor
  · intro fresh n bound member
    by_contra le
    obtain ⟨st, run, counter, tables⟩ := @run_openFails cmp options directory disk _ _
      (not_isEmpty_oneEntry cmp) n (Nat.not_lt.mp le) (by omega)
    refine fresh st run (.flush (oneEntry cmp) .succeeds) ?_ _
      (newName_flush (not_isEmpty_oneEntry cmp) _) ?_
    · show st.manager.nextFileNumber + 1 < 2 ^ 64
      rw [counter]
      exact bound
    · rw [counter, tables]
      exact member
  · intro initial st run call permitted
    have behind : st.Behind directory :=
      run.invariant (fun _ _ _ permitted stepped behind => behind.step permitted stepped) initial
    cases call with
    | compactLevel level =>
        intro new named
        unfold newName at named
        dsimp only at named
        split at named
        · cases named
        · rename_i some
          obtain rfl := Option.some.inj named
          exact permitted some
    | flush mem outcome =>
        intro new named member
        by_cases none : mem.isEmpty
        · rw [newName, if_pos none] at named
          cases named
        · rw [newName_flush none] at named
          obtain rfl := Option.some.inj named
          exact (behind _ permitted member).false

def damaged : List DirectoryEntry := [{ filename := "sst_1_L0.sst".toList, table := none }]

theorem fresh_fails_damaged : ¬ ∀ (options : SSTableWriterOptions) (directory : List Char)
    (disk : LSMTree.Disk bytewiseComparator) (entries : List DirectoryEntry)
    (working : List (List Char)) (st : TableFiles),
      Run (step options directory disk) free
        (opened directory bytewiseComparator entries working) st →
      ∀ call : Call bytewiseComparator, st.Fresh directory call := by
  intro always
  refine always {} [] (LSMTree.intact bytewiseComparator) damaged [] _ .refl
    (.flush (oneEntry bytewiseComparator) .succeeds) _ (newName_flush (not_isEmpty_oneEntry _) _) ?_
  decide +kernel

end TableFiles
end Lrdb
