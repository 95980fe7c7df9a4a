import Lrdb.Storage.Flush

/-!
# The SSTable manager

Files by level. Files of level zero may overlap and are searched by descending file number; a
deeper level is searched in the one file its largest keys point to.
-/

namespace Lrdb
open Versions

structure SSTableManager where
  levelFiles : List (List SSTable)
  nextFileNumber : Nat

namespace SSTableManager

/-- `kMaxLevel` is six. -/
def new : SSTableManager := ⟨List.replicate 7 [], 1⟩

def level (m : SSTableManager) (i : Nat) : List SSTable := m.levelFiles.getD i []

def NumberGE (a b : SSTable) : Prop := b.info.fileNumber ≤ a.info.fileNumber

instance (a b : SSTable) : Decidable (NumberGE a b) := by unfold NumberGE; infer_instance

def byNumber (files : List SSTable) : List SSTable := files.insertionSort NumberGE

variable (cmp : Comparator)

/-- Where `lower_bound` puts a file among the smallest keys of a level. -/
def SmallestLE (a b : SSTable) : Prop := ¬ cmp.Before b.info.smallestKey a.info.smallestKey

instance (a b : SSTable) : Decidable (SmallestLE cmp a b) := by unfold SmallestLE; infer_instance

def registerSSTable (m : SSTableManager) (i : Nat) (table : SSTable) :
    Except Status SSTableManager :=
  if table.info.fileNumber = 0 then .error (.invalidArgument "Invalid file number")
  else if m.levelFiles.length ≤ i then .error (.invalidArgument "Invalid level")
  else if ∃ file ∈ m.levelFiles.flatten, file.info.fileNumber = table.info.fileNumber then
    .error (.invalidArgument "SSTable file already registered")
  else .ok
    { levelFiles := m.levelFiles.set i ((m.level i).orderedInsert (SmallestLE cmp) table)
      nextFileNumber :=
        if m.nextFileNumber ≤ table.info.fileNumber then table.info.fileNumber + 1
        else m.nextFileNumber }

def flushMemTableToSSTable (options : SSTableWriterOptions) (m : SSTableManager)
    (mem : MemTable cmp) (i : Nat) : Status × SSTableManager :=
  let fileNumber := m.nextFileNumber
  let m := { m with nextFileNumber := fileNumber + 1 }
  match flushEntries cmp options mem.entries fileNumber with
  | .error status => (status, m)
  | .ok table =>
      match registerSSTable cmp m i table with
      | .error status => (status, m)
      | .ok m => (.ok, m)

def levelCandidates (key : Key) : Nat → List SSTable → List SSTable
  | 0, files => byNumber (files.filter fun file => file.info.keyInRange cmp key)
  | _ + 1, files =>
      match files.dropWhile fun file => cmp.compare file.info.largestKey key = .lt with
      | file :: _ => if file.info.keyInRange cmp key then [file] else []
      | [] => []

/-- The files `Get` may open, in the order it tries them. -/
def candidates (m : SSTableManager) (key : Key) : List SSTable :=
  (m.levelFiles.zipIdx.map fun (files, i) => levelCandidates cmp key i files).flatten

/-- One turn of the loop of `Get`: `none` goes on to the next file. A file that cannot be opened
is passed over. -/
def searchFile (table : SSTable) (key : Key) (snapshot : Nat) (value : Value) :
    Option MemTable.GetResult :=
  if ¬ (table.readIndex cmp).isOk then none
  else if ¬ table.mayContainKey cmp key then none
  else
    let result := table.get cmp key snapshot value
    if ¬ result.2.status.isOk then some (false, result.2)
    else if result.1 then some (true, result.2)
    else none

def searchFiles (key : Key) (snapshot : Nat) (value : Value) : List SSTable → MemTable.GetResult
  | [] => (false, ⟨.ok, value⟩)
  | table :: rest => (searchFile cmp table key snapshot value).getD (searchFiles key snapshot value rest)

def get (m : SSTableManager) (key : Key) (snapshot : Nat) (value : Value) : MemTable.GetResult :=
  searchFiles cmp key snapshot value (m.candidates cmp key)

variable {cmp}

theorem searchFile_eq {table : SSTable} (laid : SSTable.Laid cmp table) (key : Key)
    (snapshot : Nat) (value : Value) : searchFile cmp table key snapshot value =
      (newest (visibleVersions snapshot (table.versions key))).map fun version =>
        SSTable.report value (some version) := by
  have opens : (table.readIndex cmp).isOk = true := by simp [laid.opens, Status.isOk, Status.ok]
  rw [searchFile, if_neg (not_not.mpr opens)]
  split
  · rename_i ruledOut
    have absent : table.versions key = [] := by
      rw [SSTable.versions, SSTable.versionsOf_eq_nil.mpr, List.reverse_nil]
      rintro entry member rfl
      have inRange := laid.inRange entry member
      have filtered := laid.filtered entry member
      simp [SSTable.mayContainKey, inRange, filtered] at ruledOut
    rw [absent]
    rfl
  · rw [SSTable.get_eq_report laid]
    cases newest (visibleVersions snapshot (table.versions key)) with
    | none => rfl
    | some version =>
        obtain ⟨sequence, type, stored⟩ := version
        by_cases deletion : type = .kDeletion <;>
          simp [SSTable.report, deletion, Status.isOk, Status.ok, Status.deleted]

theorem searchFiles_eq {tables : List SSTable} (laid : ∀ table ∈ tables, SSTable.Laid cmp table)
    (key : Key) (snapshot : Nat) (value : Value) :
    searchFiles cmp key snapshot value tables = SSTable.report value
      (firstHit (tables.map fun table => visibleVersions snapshot (table.versions key))) := by
  induction tables with
  | nil => rfl
  | cons table rest ih =>
      obtain ⟨here, others⟩ := List.forall_mem_cons.mp laid
      rw [searchFiles, searchFile_eq here, ih others, List.map_cons, firstHit]
      cases newest (visibleVersions snapshot (table.versions key)) <;> rfl

def choice (cmp : Comparator) (m : SSTableManager) (key : Key) (snapshot : Nat) :
    Option Version :=
  (m.candidates cmp key).findSome? fun table =>
    if (table.readIndex cmp).isOk ∧ table.mayContainKey cmp key then
      table.choice cmp key snapshot
    else none

theorem searchFile_eq_choice (table : SSTable) (key : Key) (snapshot : Nat) (value : Value) :
    searchFile cmp table key snapshot value =
      (if (table.readIndex cmp).isOk ∧ table.mayContainKey cmp key then
        table.choice cmp key snapshot else none).map fun version =>
          SSTable.report value (some version) := by
  unfold searchFile
  by_cases opens : (table.readIndex cmp).isOk
  · by_cases passes : table.mayContainKey cmp key
    · simp only [opens, passes, not_true_eq_false, if_false, and_self, if_true,
        SSTable.get_eq_choice]
      cases table.choice cmp key snapshot with
      | none => rfl
      | some version =>
          obtain ⟨sequence, type, stored⟩ := version
          by_cases deletion : type = .kDeletion <;>
            simp [SSTable.report, deletion, Status.isOk, Status.ok, Status.deleted]
    · simp [opens, passes]
  · simp [opens]

theorem get_eq_choice (m : SSTableManager) (key : Key) (snapshot : Nat) (value : Value) :
    m.get cmp key snapshot value = SSTable.report value (m.choice cmp key snapshot) := by
  unfold get choice
  induction m.candidates cmp key with
  | nil => rfl
  | cons table rest ih =>
      rw [searchFiles, searchFile_eq_choice, ih, List.findSome?_cons]
      generalize (if (table.readIndex cmp).isOk ∧ table.mayContainKey cmp key then
        table.choice cmp key snapshot else none) = picked
      cases picked <;> rfl

theorem choice_congr {m : SSTableManager} {snapshot other : Nat} {key : Key}
    (same : ∀ table ∈ m.candidates cmp key, ∀ entry ∈ table.entries,
      Visible snapshot entry.1.sequence ↔ Visible other entry.1.sequence) :
    m.choice cmp key snapshot = m.choice cmp key other := by
  unfold choice
  revert same
  induction m.candidates cmp key with
  | nil => exact fun _ => rfl
  | cons table rest ih =>
      intro same
      obtain ⟨here, later⟩ := List.forall_mem_cons.mp same
      rw [List.findSome?_cons, List.findSome?_cons, SSTable.choice_congr here, ih later]

end SSTableManager
end Lrdb
