import Mathlib.Data.List.GetD
import Lrdb.Base.Caches
import Lrdb.Base.Runs
import Lrdb.Storage.LevelCompaction

/-!
# The reader cache

The manager keeps the metadata of its files twice, by level and by number, and the readers it has
opened. `Get` collects file numbers under the lock and asks for one reader after the other, and other
calls come in between. What it answers does not depend on the cache.
-/

namespace Lrdb
open Versions Runs

structure FileMeta where
  filename : List Char
  level : Nat
  info : SSTableMeta

structure CacheMark where
  lastAccessTime : Nat
  accessCount : Nat

abbrev CacheEntry := Caches.Slot Nat SSTable CacheMark

/-- A call of `Get` between two readers. -/
structure PendingGet where
  key : Key
  snapshot : Nat
  value : Value
  candidates : List Nat
  result : Option MemTable.GetResult := none

/-- The tables of `SSTableManager`, the files they speak of and the reads under way. -/
structure CachingManager where
  levelFiles : List (List FileMeta) := List.replicate 7 []
  fileMetaMap : Nat → Option FileMeta := fun _ => none
  nextFileNumber : Nat := 1
  readerCache : List CacheEntry := []
  disk : List Char → Option SSTable := fun _ => none
  gets : Nat → Option PendingGet := fun _ => none

inductive TableEvent where
  | fetchFileNumber
  | writeFile (filename : List Char) (table : SSTable)
  | deleteFile (filename : List Char)
  | registerSSTable (file : FileMeta)
  | unregisterSSTable (fileNumber : Nat)
  | getReader (fileNumber now : Nat)
  | evictFromCache (fileNumber : Nat)
  | clearCache
  | rehash (order : List Nat)
  | beginGet (id : Nat) (key : Key) (snapshot : Nat) (value : Value)
  | probe (id now : Nat)

/-! ## Eviction -/

/-- The entry `EvictLRUReader` has its eyes on. -/
structure Oldest where
  fileNumber : Option Nat := none
  time : Nat := 2 ^ 64 - 1
  count : Nat := 2 ^ 64 - 1

def Oldest.visit {V : Type} (oldest : Oldest) (entry : Caches.Slot Nat V CacheMark) : Oldest :=
  if entry.mark.accessCount < oldest.count ∨
      entry.mark.accessCount = oldest.count ∧ entry.mark.lastAccessTime < oldest.time then
    ⟨some entry.key, entry.mark.lastAccessTime, entry.mark.accessCount⟩
  else oldest

def evictLRUReader {V : Type} (cache : List (Caches.Slot Nat V CacheMark)) :
    List (Caches.Slot Nat V CacheMark) :=
  match (cache.foldl Oldest.visit {}).fileNumber with
  | some fileNumber => Caches.erase cache fileNumber
  | none => cache

def CacheMark.touch (now : Nat) (mark : CacheMark) : CacheMark :=
  ⟨now, (mark.accessCount + 1) % 2 ^ 64⟩

namespace CachingManager
variable (cmp : Comparator) (maxOpenFiles : Nat)

def level (st : CachingManager) (i : Nat) : List FileMeta := st.levelFiles.getD i []

def SmallestLE (a b : FileMeta) : Prop := ¬ cmp.Before b.info.smallestKey a.info.smallestKey

instance (a b : FileMeta) : Decidable (SmallestLE cmp a b) := by unfold SmallestLE; infer_instance

/-- `ValidateFileMeta`, then the two tables. -/
def registerSSTable (st : CachingManager) (file : FileMeta) : Except Status CachingManager :=
  if file.filename = [] then .error (.invalidArgument "Empty filename")
  else if file.info.fileNumber = 0 then .error (.invalidArgument "Invalid file number")
  else if st.levelFiles.length ≤ file.level then .error (.invalidArgument "Invalid level")
  else if (st.fileMetaMap file.info.fileNumber).isSome then
    .error (.invalidArgument "SSTable file already registered")
  else .ok
    { st with
      levelFiles :=
        st.levelFiles.set file.level ((st.level file.level).orderedInsert (SmallestLE cmp) file)
      fileMetaMap := Function.update st.fileMetaMap file.info.fileNumber (some file)
      nextFileNumber :=
        if st.nextFileNumber ≤ file.info.fileNumber then file.info.fileNumber + 1
        else st.nextFileNumber }

def unregisterSSTable (st : CachingManager) (fileNumber : Nat) : Except Status CachingManager :=
  match st.fileMetaMap fileNumber with
  | none => .error (.notFound "SSTable file not found")
  | some file => .ok
    { st with
      levelFiles := st.levelFiles.set file.level
        ((st.level file.level).filter fun other => other.info.fileNumber ≠ fileNumber)
      fileMetaMap := Function.update st.fileMetaMap fileNumber none
      readerCache := Caches.erase st.readerCache fileNumber }

/-- `SSTableReader::Open`. The file stays as it was when it was opened. -/
def openFile (st : CachingManager) (filename : List Char) : Option SSTable :=
  (st.disk filename).filter fun table => (table.readIndex cmp).isOk

def loadReader (st : CachingManager) (fileNumber : Nat) : Option SSTable :=
  (st.fileMetaMap fileNumber).bind fun file => st.openFile cmp file.filename

def getReader (st : CachingManager) (fileNumber now : Nat) : Option SSTable × CachingManager :=
  let fetched := Caches.fetch evictLRUReader maxOpenFiles (CacheMark.touch now) ⟨now, 1⟩
    (st.loadReader cmp) st.readerCache fileNumber
  (fetched.1, { st with readerCache := fetched.2 })

/-! ## Reads -/

def levelCandidates (key : Key) : Nat → List FileMeta → List Nat
  | 0, files =>
      ((files.filter fun file => file.info.keyInRange cmp key).map fun file =>
        file.info.fileNumber).insertionSort (· ≥ ·)
  | _ + 1, files =>
      match files.dropWhile fun file => cmp.compare file.info.largestKey key = .lt with
      | file :: _ => if file.info.keyInRange cmp key then [file.info.fileNumber] else []
      | [] => []

/-- The file numbers `Get` collects under the lock. -/
def candidates (st : CachingManager) (key : Key) : List Nat :=
  (st.levelFiles.zipIdx.map fun (files, i) => levelCandidates cmp key i files).flatten

/-- One turn of the loop of `Get` with a reader: `none` goes on to the next one. -/
def searchReader (reader : SSTable) (key : Key) (snapshot : Nat) (value : Value) :
    Option MemTable.GetResult :=
  if ¬ reader.mayContainKey cmp key then none
  else
    let result := reader.get cmp key snapshot value
    if ¬ result.2.status.isOk then some (false, result.2)
    else if result.1 then some (true, result.2)
    else none

def beginGet (st : CachingManager) (id : Nat) (key : Key) (snapshot : Nat) (value : Value) :
    CachingManager :=
  { st with gets := Function.update st.gets id (some ⟨key, snapshot, value, st.candidates cmp key, none⟩) }

def probe (st : CachingManager) (id now : Nat) (get : PendingGet) : CachingManager :=
  match get.candidates with
  | [] =>
      { st with gets := Function.update st.gets id (some { get with result := some (false, ⟨.ok, get.value⟩) }) }
  | fileNumber :: rest =>
      let (reader, st) := st.getReader cmp maxOpenFiles fileNumber now
      let answer := reader.bind fun reader => searchReader cmp reader get.key get.snapshot get.value
      { st with gets := Function.update st.gets id (some { get with candidates := rest, result := answer }) }

def step (st : CachingManager) : TableEvent → Option CachingManager
  | .fetchFileNumber => some { st with nextFileNumber := st.nextFileNumber + 1 }
  | .writeFile filename table => some { st with disk := Function.update st.disk filename (some table) }
  | .deleteFile filename => some { st with disk := Function.update st.disk filename none }
  | .registerSSTable file => (st.registerSSTable cmp file).toOption
  | .unregisterSSTable fileNumber => (st.unregisterSSTable fileNumber).toOption
  | .getReader fileNumber now => some (st.getReader cmp maxOpenFiles fileNumber now).2
  | .evictFromCache fileNumber =>
      some { st with readerCache := Caches.erase st.readerCache fileNumber }
  | .clearCache => some { st with readerCache := [] }
  | .rehash order =>
      if order.Perm (st.readerCache.map Caches.Slot.key) then
        some { st with readerCache := order.filterMap (Caches.find st.readerCache) }
      else none
  | .beginGet id key snapshot value =>
      if (st.gets id).isNone then some (st.beginGet cmp id key snapshot value) else none
  | .probe id now =>
      match st.gets id with
      | some get => if get.result.isNone then some (st.probe cmp maxOpenFiles id now get) else none
      | none => none

/-- No file operation touches a registered file, and a file is registered with the metadata it
holds. The clock has not run for 2^63 ticks. -/
def Careful (st : CachingManager) : TableEvent → Prop
  | .writeFile filename _ | .deleteFile filename => ∀ file ∈ st.levelFiles.flatten, file.filename ≠ filename
  | .registerSSTable file => ∀ table ∈ st.disk file.filename, table.info = file.info
  | .getReader _ now | .probe _ now => now < 2 ^ 63
  | _ => True

/-- Besides, no file is unregistered that the call of `Get` still has to look into. -/
def Undisturbed (id : Nat) (st : CachingManager) (event : TableEvent) : Prop :=
  st.Careful event ∧ ∀ get ∈ st.gets id, get.result = none → ∀ fileNumber ∈ get.candidates,
    event ≠ .unregisterSSTable fileNumber

deriving instance DecidableEq for SSTableMeta

instance (st : CachingManager) : (event : TableEvent) → Decidable (st.Careful event)
  | .writeFile filename _ | .deleteFile filename =>
      inferInstanceAs (Decidable (∀ file ∈ st.levelFiles.flatten, file.filename ≠ filename))
  | .registerSSTable file => inferInstanceAs (Decidable (∀ table ∈ st.disk file.filename, table.info = file.info))
  | .getReader _ now | .probe _ now => inferInstanceAs (Decidable (now < 2 ^ 63))
  | .fetchFileNumber | .unregisterSSTable _ | .evictFromCache _ | .clearCache | .rehash _
  | .beginGet _ _ _ _ => inferInstanceAs (Decidable True)

instance (fileNumber : Nat) : (event : TableEvent) → Decidable (event ≠ .unregisterSSTable fileNumber)
  | .unregisterSSTable other => decidable_of_iff (other ≠ fileNumber) (by simp)
  | .fetchFileNumber | .writeFile _ _ | .deleteFile _ | .registerSSTable _ | .getReader _ _
  | .evictFromCache _ | .clearCache | .rehash _ | .beginGet _ _ _ _ | .probe _ _ => isTrue nofun

instance (id : Nat) (st : CachingManager) (event : TableEvent) : Decidable (st.Undisturbed id event) := by
  unfold Undisturbed; infer_instance

/-! ## The plain manager -/

def tableOf (st : CachingManager) (file : FileMeta) : SSTable :=
  (st.disk file.filename).getD ⟨file.info, [], none⟩

def plain (st : CachingManager) : SSTableManager :=
  ⟨st.levelFiles.map fun files => files.map st.tableOf, st.nextFileNumber⟩

end CachingManager

inductive TableChange where
  | fetchFileNumber
  | registerSSTable (level : Nat) (table : SSTable)
  | unregisterSSTable (fileNumber : Nat)

def SSTableManager.change (cmp : Comparator) (m : SSTableManager) : TableChange → Option SSTableManager
  | .fetchFileNumber => some { m with nextFileNumber := m.nextFileNumber + 1 }
  | .registerSSTable level table => (m.registerSSTable cmp level table).toOption
  | .unregisterSSTable fileNumber => (m.unregisterSSTable fileNumber).toOption

namespace CachingManager
variable {cmp : Comparator} {maxOpenFiles : Nat} {st next : CachingManager}

structure Listed (cmp : Comparator) (st : CachingManager) : Prop where
  levels : st.levelFiles.length = 7
  registered : ∀ i, ∀ file ∈ st.level i,
    file.level = i ∧ st.fileMetaMap file.info.fileNumber = some file
  mapped : ∀ fileNumber file, st.fileMetaMap fileNumber = some file →
    file.info.fileNumber = fileNumber ∧ fileNumber ≠ 0 ∧ file ∈ st.level file.level
  distinct : ∀ i, ((st.level i).map fun file => file.info.fileNumber).Nodup
  sorted : ∀ i, (st.level i).Pairwise (SmallestLE cmp)
  behind : ∀ i, ∀ file ∈ st.level i, file.info.fileNumber < st.nextFileNumber
  held : ∀ i, ∀ file ∈ st.level i, ∀ table ∈ st.disk file.filename, table.info = file.info

structure Cached (cmp : Comparator) (maxOpenFiles : Nat) (st : CachingManager) : Prop where
  coherent : Caches.Coherent (st.loadReader cmp) st.readerCache
  counted : ∀ entry ∈ st.readerCache, entry.mark.lastAccessTime < 2 ^ 63 ∧ entry.mark.accessCount < 2 ^ 64
  bounded : st.readerCache.length ≤ max 1 maxOpenFiles

/-! ## Eviction -/

theorem oldest_of_foldl {V : Type} (cache : List (Caches.Slot Nat V CacheMark)) (oldest : Oldest) :
    (cache.foldl Oldest.visit oldest).fileNumber = oldest.fileNumber ∨
      ∃ entry ∈ cache, (cache.foldl Oldest.visit oldest).fileNumber = some entry.key := by
  induction cache generalizing oldest with
  | nil => exact .inl rfl
  | cons entry rest ih =>
      rcases ih (oldest.visit entry) with same | ⟨other, member, picked⟩
      · rw [List.foldl_cons, same, Oldest.visit]
        split
        · exact .inr ⟨entry, List.mem_cons_self, rfl⟩
        · exact .inl rfl
      · exact .inr ⟨other, List.mem_cons_of_mem _ member, picked⟩

theorem policy_evictLRUReader {V : Type} {cache : List (Caches.Slot Nat V CacheMark)}
    (counted : ∀ entry ∈ cache, entry.mark.lastAccessTime < 2 ^ 63 ∧ entry.mark.accessCount < 2 ^ 64) :
    Caches.Policy evictLRUReader cache := by
  constructor
  · unfold evictLRUReader
    split
    · exact List.filter_sublist
    · exact List.Sublist.refl _
  · intro some
    obtain ⟨first, rest, rfl⟩ := List.exists_cons_of_ne_nil some
    have seen : Oldest.visit {} first =
        ⟨.some first.key, first.mark.lastAccessTime, first.mark.accessCount⟩ := by
      have := counted first List.mem_cons_self
      rw [Oldest.visit, if_pos (by dsimp only; omega)]
    obtain ⟨entry, member, picked⟩ : ∃ entry ∈ first :: rest,
        ((first :: rest).foldl Oldest.visit {}).fileNumber = .some entry.key := by
      rw [List.foldl_cons, seen]
      rcases oldest_of_foldl rest ⟨.some first.key, _, _⟩ with same | ⟨entry, member, picked⟩
      · exact ⟨first, List.mem_cons_self, same⟩
      · exact ⟨entry, List.mem_cons_of_mem _ member, picked⟩
    rw [evictLRUReader, picked]
    exact List.length_filter_lt_length_iff_exists.mpr ⟨entry, member, by simp⟩

/-! ## Levels -/

theorem mem_flatten {file : FileMeta} : file ∈ st.levelFiles.flatten ↔ ∃ i, file ∈ st.level i := by
  simp only [List.mem_flatten, level, List.getD_eq_getElem?_getD]
  constructor
  · rintro ⟨files, member, inside⟩
    obtain ⟨i, bound, rfl⟩ := List.getElem_of_mem member
    exact ⟨i, by simpa [bound] using inside⟩
  · rintro ⟨i, inside⟩
    by_cases bound : i < st.levelFiles.length
    · exact ⟨st.levelFiles[i], List.getElem_mem bound, by simpa [bound] using inside⟩
    · simp [Nat.le_of_not_lt bound] at inside

theorem level_set (files : List (List FileMeta)) {i : Nat} (bound : i < files.length)
    (new : List FileMeta) (j : Nat) :
    (files.set i new).getD j [] = if j = i then new else files.getD j [] := by
  simp only [List.getD_eq_getElem?_getD, List.getElem?_set]
  by_cases same : j = i
  · simp [same, bound]
  · simp [same, Ne.symm same]

@[simp] theorem plain_level (st : CachingManager) (i : Nat) :
    st.plain.level i = (st.level i).map st.tableOf :=
  List.getD_map _ [] (List.map st.tableOf)

theorem Listed.info_tableOf (listed : st.Listed cmp) {i : Nat} {file : FileMeta}
    (member : file ∈ st.level i) : (st.tableOf file).info = file.info := by
  unfold tableOf
  cases found : st.disk file.filename with
  | none => rfl
  | some table => exact listed.held i file member table found

theorem Listed.known_iff (listed : st.Listed cmp) (fileNumber : Nat) :
    (∃ file ∈ st.plain.levelFiles.flatten, file.info.fileNumber = fileNumber) ↔
      (st.fileMetaMap fileNumber).isSome := by
  simp only [plain, ← List.map_flatten, List.mem_map, mem_flatten, exists_exists_and_eq_and]
  constructor
  · rintro ⟨file, ⟨i, member⟩, same⟩
    rw [listed.info_tableOf member] at same
    rw [← same, (listed.registered i file member).2]
    rfl
  · intro known
    obtain ⟨file, mapped⟩ := Option.isSome_iff_exists.mp known
    obtain ⟨same, _, member⟩ := listed.mapped fileNumber file mapped
    exact ⟨file, ⟨file.level, member⟩, by rw [listed.info_tableOf member, same]⟩

/-! ## Registering and unregistering -/

instance : Std.Total (SmallestLE cmp) where
  total a b := by
    by_cases before : cmp.Before b.info.smallestKey a.info.smallestKey
    · exact .inr before.not_before
    · exact .inl before

instance : IsTrans FileMeta (SmallestLE cmp) where
  trans a b c ab bc := by
    intro ca
    rcases Comparator.not_before.mp ab with same | before
    · exact bc (same ▸ ca)
    · exact bc (ca.trans before)

theorem registerSSTable_ok {file : FileMeta} (registered : st.registerSSTable cmp file = .ok next) :
    file.info.fileNumber ≠ 0 ∧ file.level < st.levelFiles.length ∧
      st.fileMetaMap file.info.fileNumber = none ∧ next = { st with
        levelFiles :=
          st.levelFiles.set file.level ((st.level file.level).orderedInsert (SmallestLE cmp) file)
        fileMetaMap := Function.update st.fileMetaMap file.info.fileNumber (some file)
        nextFileNumber :=
          if st.nextFileNumber ≤ file.info.fileNumber then file.info.fileNumber + 1
          else st.nextFileNumber } := by
  unfold registerSSTable at registered
  split at registered <;> [cases registered; skip]
  split at registered <;> [cases registered; rename_i nonzero]
  split at registered <;> [cases registered; rename_i shallow]
  split at registered <;> [cases registered; rename_i fresh]
  cases registered
  exact ⟨nonzero, Nat.lt_of_not_le shallow, by simpa using fresh, rfl⟩

theorem Listed.register (listed : st.Listed cmp) {file : FileMeta}
    (holds : ∀ table ∈ st.disk file.filename, table.info = file.info)
    (registered : st.registerSSTable cmp file = .ok next) : next.Listed cmp := by
  obtain ⟨nonzero, shallow, fresh, rfl⟩ := registerSSTable_ok registered
  have other : ∀ i, ∀ old ∈ st.level i, old.info.fileNumber ≠ file.info.fileNumber := by
    intro i old member same
    have known := (listed.registered i old member).2
    rw [same, fresh] at known
    cases known
  have mem : ∀ i f, f ∈ (st.levelFiles.set file.level
      ((st.level file.level).orderedInsert (SmallestLE cmp) file)).getD i [] ↔
        (i = file.level ∧ f = file) ∨ f ∈ st.level i := by
    intro i f
    rw [level_set _ shallow]
    by_cases here : i = file.level
    · simp [here, List.mem_orderedInsert]
    · simp [here, level]
  constructor
  case levels => simpa using listed.levels
  case registered =>
    intro i f member
    rcases (mem i f).mp member with ⟨rfl, rfl⟩ | old
    · exact ⟨rfl, Function.update_self _ _ _⟩
    · exact ⟨(listed.registered i f old).1,
        (Function.update_of_ne (other i f old) _ _).trans (listed.registered i f old).2⟩
  case mapped =>
    intro fileNumber f found
    by_cases same : fileNumber = file.info.fileNumber
    · subst same
      obtain rfl : file = f := by simpa using found
      exact ⟨rfl, nonzero, (mem _ _).mpr (.inl ⟨rfl, rfl⟩)⟩
    · obtain ⟨number, positive, member⟩ :=
        listed.mapped fileNumber f (by simpa [Function.update_of_ne same] using found)
      exact ⟨number, positive, (mem _ _).mpr (.inr member)⟩
  case distinct =>
    intro i
    dsimp only [level]
    rw [level_set _ shallow]
    split
    · refine ((List.perm_orderedInsert _ _ _).map _).nodup_iff.mpr
        (List.nodup_cons.mpr ⟨fun member => ?_, listed.distinct _⟩)
      obtain ⟨old, inside, same⟩ := List.mem_map.mp member
      exact other _ old inside same
    · exact listed.distinct i
  case sorted =>
    intro i
    dsimp only [level]
    rw [level_set _ shallow]
    split
    · exact List.Pairwise.orderedInsert _ _ (listed.sorted _)
    · exact listed.sorted i
  case behind =>
    intro i f member
    dsimp only
    rcases (mem i f).mp member with ⟨rfl, rfl⟩ | old
    · split <;> omega
    · have := listed.behind i f old
      split <;> omega
  case held =>
    intro i f member
    rcases (mem i f).mp member with ⟨rfl, rfl⟩ | old
    · exact holds
    · exact listed.held i f old

theorem unregisterSSTable_ok {fileNumber : Nat}
    (unregistered : st.unregisterSSTable fileNumber = .ok next) :
    ∃ file, st.fileMetaMap fileNumber = some file ∧ next = { st with
      levelFiles := st.levelFiles.set file.level
        ((st.level file.level).filter fun other => other.info.fileNumber ≠ fileNumber)
      fileMetaMap := Function.update st.fileMetaMap fileNumber none
      readerCache := Caches.erase st.readerCache fileNumber } := by
  unfold unregisterSSTable at unregistered
  split at unregistered
  · cases unregistered
  · rename_i file found
    cases unregistered
    exact ⟨file, found, rfl⟩

theorem Listed.level_unregister (listed : st.Listed cmp) {fileNumber : Nat}
    (unregistered : st.unregisterSSTable fileNumber = .ok next) (i : Nat) :
    next.level i = (st.level i).filter fun other => other.info.fileNumber ≠ fileNumber := by
  obtain ⟨file, found, rfl⟩ := unregisterSSTable_ok unregistered
  obtain ⟨same, _, member⟩ := listed.mapped fileNumber file found
  have shallow : file.level < st.levelFiles.length := by
    by_contra deep
    simp [level, Nat.le_of_not_lt deep] at member
  refine (level_set _ shallow _ i).trans ?_
  split
  · rename_i here
    rw [here]
  · rename_i elsewhere
    refine (List.filter_eq_self.mpr fun other inside => ?_).symm
    have known := listed.registered i other inside
    simp only [ne_eq, decide_not, Bool.not_eq_true', decide_eq_false_iff_not]
    rintro rfl
    rw [found] at known
    obtain rfl : file = other := by simpa using known.2
    exact elsewhere known.1.symm

theorem Listed.unregister (listed : st.Listed cmp) {fileNumber : Nat}
    (unregistered : st.unregisterSSTable fileNumber = .ok next) : next.Listed cmp := by
  have levels := listed.level_unregister unregistered
  have mem : ∀ i f, f ∈ next.level i ↔ f ∈ st.level i ∧ f.info.fileNumber ≠ fileNumber := by
    simp [levels]
  obtain ⟨file, found, rfl⟩ := unregisterSSTable_ok unregistered
  constructor
  case levels => simpa using listed.levels
  case registered =>
    intro i f member
    obtain ⟨old, kept⟩ := (mem i f).mp member
    exact ⟨(listed.registered i f old).1,
      (Function.update_of_ne kept _ _).trans (listed.registered i f old).2⟩
  case mapped =>
    intro number f known
    by_cases same : number = fileNumber
    · simp [same] at known
    · obtain ⟨rfl, positive, member⟩ :=
        listed.mapped number f (by simpa [Function.update_of_ne same] using known)
      exact ⟨rfl, positive, (mem _ _).mpr ⟨member, same⟩⟩
  case distinct =>
    intro i
    rw [levels]
    exact (listed.distinct i).sublist (List.filter_sublist.map _)
  case sorted =>
    intro i
    rw [levels]
    exact (listed.sorted i).filter _
  case behind => exact fun i f member => listed.behind i f ((mem i f).mp member).1
  case held => exact fun i f member => listed.held i f ((mem i f).mp member).1

/-! ## What a reader shows -/

theorem Listed.loadReader_writeFile (listed : st.Listed cmp) {filename : List Char}
    (untouched : ∀ file ∈ st.levelFiles.flatten, file.filename ≠ filename) (content : Option SSTable) :
    loadReader cmp { st with disk := Function.update st.disk filename content } = st.loadReader cmp := by
  funext fileNumber
  simp only [loadReader, openFile]
  cases found : st.fileMetaMap fileNumber with
  | none => rfl
  | some file =>
      have member := mem_flatten.mpr ⟨_, (listed.mapped fileNumber file found).2.2⟩
      simp [Function.update_of_ne (untouched file member)]

theorem Listed.loadReader_eq (listed : st.Listed cmp) {i : Nat} {file : FileMeta}
    (member : file ∈ st.level i) : st.loadReader cmp file.info.fileNumber =
      if ((st.tableOf file).readIndex cmp).isOk then some (st.tableOf file) else none := by
  rw [loadReader, (listed.registered i file member).2, Option.bind_some, openFile, tableOf]
  cases st.disk file.filename with
  | none => simp [SSTable.readIndex, Status.isOk, Status.corruption]
  | some table => simp [Option.filter]

theorem loadReader_register {file : FileMeta} (registered : st.registerSSTable cmp file = .ok next)
    {fileNumber : Nat} {reader : SSTable} (loaded : st.loadReader cmp fileNumber = some reader) :
    next.loadReader cmp fileNumber = some reader := by
  obtain ⟨_, _, fresh, rfl⟩ := registerSSTable_ok registered
  obtain ⟨old, found, opened⟩ := Option.bind_eq_some_iff.mp loaded
  have other : fileNumber ≠ file.info.fileNumber := by
    rintro rfl
    rw [fresh] at found
    cases found
  exact Option.bind_eq_some_iff.mpr ⟨old, (Function.update_of_ne other _ _).trans found, opened⟩

theorem loadReader_unregister {fileNumber number : Nat}
    (unregistered : st.unregisterSSTable fileNumber = .ok next) (other : number ≠ fileNumber) :
    next.loadReader cmp number = st.loadReader cmp number := by
  obtain ⟨file, _, rfl⟩ := unregisterSSTable_ok unregistered
  simp [loadReader, openFile, Function.update_of_ne other]

/-! ## Steps -/

theorem Cached.answer (cached : st.Cached cmp maxOpenFiles) (fileNumber now : Nat) :
    (st.getReader cmp maxOpenFiles fileNumber now).1 = st.loadReader cmp fileNumber :=
  cached.coherent.fetch_answer fileNumber

theorem Cached.getReader (cached : st.Cached cmp maxOpenFiles) {now : Nat} (early : now < 2 ^ 63)
    (fileNumber : Nat) : (st.getReader cmp maxOpenFiles fileNumber now).2.Cached cmp maxOpenFiles := by
  have policy := policy_evictLRUReader cached.counted
  refine ⟨cached.coherent.fetch policy fileNumber, ?_, Caches.length_fetch_le policy cached.bounded _⟩
  intro entry member
  simp only [CachingManager.getReader, Caches.fetch] at member
  split at member
  · obtain ⟨old, inside, rfl⟩ := List.mem_map.mp member
    split
    · exact ⟨early, Nat.mod_lt _ (by decide)⟩
    · exact cached.counted old inside
  · split at member
    · exact cached.counted entry member
    · rcases List.mem_cons.mp member with rfl | old
      · exact ⟨early, Nat.one_lt_two_pow (by decide)⟩
      · refine cached.counted entry ?_
        split at old
        · exact policy.sublist.subset old
        · exact old

theorem Cached.sublist (cached : st.Cached cmp maxOpenFiles) {cache : List CacheEntry}
    (sub : cache.Sublist st.readerCache) :
    Cached cmp maxOpenFiles { st with readerCache := cache } :=
  ⟨cached.coherent.sublist sub, fun entry member => cached.counted entry (sub.subset member),
    sub.length_le.trans cached.bounded⟩

theorem Cached.perm (cached : st.Cached cmp maxOpenFiles) {cache : List CacheEntry}
    (perm : cache.Perm st.readerCache) : Cached cmp maxOpenFiles { st with readerCache := cache } :=
  ⟨cached.coherent.perm perm, fun entry member => cached.counted entry (perm.mem_iff.mp member),
    perm.length_eq.trans_le cached.bounded⟩

inductive Effect (cmp : Comparator) (maxOpenFiles : Nat) (st : CachingManager) (event : TableEvent) :
    CachingManager → Prop
  | cache (cache : List CacheEntry) (gets : Nat → Option PendingGet)
      (keeps : st.Cached cmp maxOpenFiles → Cached cmp maxOpenFiles { st with readerCache := cache }) :
      Effect cmp maxOpenFiles st event { st with readerCache := cache, gets := gets }
  | number : Effect cmp maxOpenFiles st event { st with nextFileNumber := st.nextFileNumber + 1 }
  | file (filename : List Char) (content : Option SSTable)
      (untouched : ∀ file ∈ st.levelFiles.flatten, file.filename ≠ filename) :
      Effect cmp maxOpenFiles st event { st with disk := Function.update st.disk filename content }
  | register {next : CachingManager} (file : FileMeta)
      (holds : ∀ table ∈ st.disk file.filename, table.info = file.info)
      (registered : st.registerSSTable cmp file = .ok next) : Effect cmp maxOpenFiles st event next
  | unregister {next : CachingManager} (fileNumber : Nat) (named : event = .unregisterSSTable fileNumber)
      (unregistered : st.unregisterSSTable fileNumber = .ok next) : Effect cmp maxOpenFiles st event next

variable {event : TableEvent}

theorem ok_of_toOption {result : Except Status CachingManager} (some : result.toOption = .some next) :
    result = .ok next := by
  cases result with
  | error status => cases some
  | ok st => exact congrArg Except.ok (Option.some.inj some)

theorem effect_of_step (careful : st.Careful event)
    (stepped : st.step cmp maxOpenFiles event = some next) : st.Effect cmp maxOpenFiles event next := by
  cases event with
  | fetchFileNumber => cases stepped; exact .number
  | writeFile filename table => cases stepped; exact .file filename (some table) careful
  | deleteFile filename => cases stepped; exact .file filename none careful
  | registerSSTable file => exact .register file careful (ok_of_toOption stepped)
  | unregisterSSTable fileNumber => exact .unregister fileNumber rfl (ok_of_toOption stepped)
  | getReader fileNumber now =>
      cases stepped
      exact .cache _ _ fun cached => cached.getReader careful fileNumber
  | evictFromCache fileNumber =>
      cases stepped
      exact .cache _ _ fun cached => cached.sublist List.filter_sublist
  | clearCache => cases stepped; exact .cache _ _ fun cached => cached.sublist (List.nil_sublist _)
  | rehash order =>
      obtain ⟨perm, reordered⟩ := Option.ite_none_right_eq_some.mp stepped
      cases reordered
      exact .cache _ _ fun cached => cached.perm (Caches.perm_reorder cached.coherent.distinct perm)
  | beginGet id key snapshot value =>
      obtain ⟨_, begun⟩ := Option.ite_none_right_eq_some.mp stepped
      cases begun
      exact .cache _ _ fun cached => cached
  | probe id now =>
      simp only [CachingManager.step] at stepped
      split at stepped
      · rename_i get _
        obtain ⟨_, probed⟩ := Option.ite_none_right_eq_some.mp stepped
        cases probed
        unfold CachingManager.probe
        split
        · exact .cache _ _ fun cached => cached
        · rename_i fileNumber rest _
          exact .cache _ _ fun cached => cached.getReader careful fileNumber
      · cases stepped

theorem Listed.step (listed : st.Listed cmp) (effect : st.Effect cmp maxOpenFiles event next) :
    next.Listed cmp := by
  cases effect with
  | cache cache gets =>
      exact ⟨listed.levels, listed.registered, listed.mapped, listed.distinct, listed.sorted,
        listed.behind, listed.held⟩
  | number =>
      exact ⟨listed.levels, listed.registered, listed.mapped, listed.distinct, listed.sorted,
        fun i file member => (listed.behind i file member).trans (Nat.lt_succ_self _), listed.held⟩
  | file filename content untouched =>
      refine ⟨listed.levels, listed.registered, listed.mapped, listed.distinct, listed.sorted,
        listed.behind, fun i file member => ?_⟩
      dsimp only
      rw [Function.update_of_ne (untouched file (mem_flatten.mpr ⟨i, member⟩))]
      exact listed.held i file member
  | register file holds registered => exact listed.register holds registered
  | unregister fileNumber _ unregistered => exact listed.unregister unregistered

theorem Cached.step (listed : st.Listed cmp) (cached : st.Cached cmp maxOpenFiles)
    (effect : st.Effect cmp maxOpenFiles event next) : next.Cached cmp maxOpenFiles := by
  obtain ⟨coherent, counted, bounded⟩ := id cached
  cases effect with
  | cache cache gets keeps => exact ⟨(keeps cached).coherent, (keeps cached).counted, (keeps cached).bounded⟩
  | number => exact ⟨coherent, counted, bounded⟩
  | file filename content untouched =>
      exact ⟨listed.loadReader_writeFile untouched content ▸ coherent, counted, bounded⟩
  | register file holds registered =>
      have same : next.readerCache = st.readerCache := by
        obtain ⟨_, _, _, rfl⟩ := registerSSTable_ok registered
        rfl
      rw [← same] at coherent counted bounded
      exact ⟨⟨fun entry member => loadReader_register registered (coherent.loaded entry member),
        coherent.distinct⟩, counted, bounded⟩
  | unregister fileNumber _ unregistered =>
      have erased : next.readerCache = Caches.erase st.readerCache fileNumber := by
        obtain ⟨file, _, rfl⟩ := unregisterSSTable_ok unregistered
        rfl
      have sub : next.readerCache.Sublist st.readerCache := erased ▸ List.filter_sublist
      refine ⟨(coherent.sublist sub).change fun entry member => loadReader_unregister unregistered ?_,
        fun entry member => counted entry (sub.subset member), sub.length_le.trans bounded⟩
      rw [erased] at member
      simpa using (List.mem_filter.mp member).2

/-! ## Runs -/

@[simp] theorem level_new (i : Nat) : ({} : CachingManager).level i = [] := by
  simp only [level, List.getD_eq_getElem?_getD, List.getElem?_replicate]
  split <;> rfl

theorem listed_new : Listed cmp {} where
  levels := rfl
  registered i := by rw [level_new]; simp
  mapped := by simp
  distinct i := by rw [level_new]; exact List.nodup_nil
  sorted i := by rw [level_new]; exact List.Pairwise.nil
  behind i := by rw [level_new]; simp
  held i := by rw [level_new]; simp

theorem cached_new : Cached cmp maxOpenFiles {} := ⟨Caches.coherent_nil, by simp, by simp⟩

theorem smallestLE_of_info {a b : FileMeta} {s t : SSTable} (left : s.info = a.info)
    (right : t.info = b.info) : SSTableManager.SmallestLE cmp s t ↔ SmallestLE cmp a b := by
  rw [SSTableManager.SmallestLE, SmallestLE, left, right]

theorem Listed.plain_register (listed : st.Listed cmp) {file : FileMeta}
    (holds : ∀ table ∈ st.disk file.filename, table.info = file.info)
    (registered : st.registerSSTable cmp file = .ok next) :
    st.plain.registerSSTable cmp file.level (st.tableOf file) = .ok next.plain := by
  obtain ⟨nonzero, shallow, fresh, rfl⟩ := registerSSTable_ok registered
  have info : (st.tableOf file).info = file.info := by
    unfold tableOf
    cases found : st.disk file.filename with
    | none => rfl
    | some table => exact holds table found
  have unknown : ¬ ∃ other ∈ st.plain.levelFiles.flatten,
      other.info.fileNumber = (st.tableOf file).info.fileNumber := by
    rw [info, listed.known_iff, fresh]
    simp
  have inserted : ((st.level file.level).orderedInsert (SmallestLE cmp) file).map st.tableOf =
      (st.plain.level file.level).orderedInsert (SSTableManager.SmallestLE cmp) (st.tableOf file) := by
    rw [plain_level]
    refine List.map_orderedInsert _ _ _ _ _ (fun other member => ?_) (fun other member => ?_)
    · exact (smallestLE_of_info (listed.info_tableOf member) info).symm
    · exact (smallestLE_of_info info (listed.info_tableOf member)).symm
  have short : ¬ st.plain.levelFiles.length ≤ file.level := by simpa [plain] using shallow
  rw [SSTableManager.registerSSTable, if_neg (info ▸ nonzero), if_neg short, if_neg unknown, ← inserted,
    info]
  simp only [plain, List.map_set]
  rfl

theorem levelFiles_ext {files others : List (List SSTable)} (length : files.length = others.length)
    (levels : ∀ i, files.getD i [] = others.getD i []) : files = others := by
  refine List.ext_getElem length fun i left right => ?_
  simpa [List.getD_eq_getElem?_getD, left, right] using levels i

theorem Listed.plain_unregister (listed : st.Listed cmp) {fileNumber : Nat}
    (unregistered : st.unregisterSSTable fileNumber = .ok next) :
    st.plain.unregisterSSTable fileNumber = .ok next.plain := by
  have levels := listed.level_unregister unregistered
  obtain ⟨file, found, eq⟩ := unregisterSSTable_ok unregistered
  have known : ∃ file ∈ st.plain.levelFiles.flatten, file.info.fileNumber = fileNumber :=
    (listed.known_iff fileNumber).mpr (by simp [found])
  have number : next.nextFileNumber = st.nextFileNumber := by rw [eq]
  have tables : next.tableOf = st.tableOf := by rw [eq]; rfl
  have files : next.plain.levelFiles = st.plain.levelFiles.map fun files =>
      files.filter fun file => file.info.fileNumber ≠ fileNumber := by
    refine levelFiles_ext (by simp [plain, eq]) fun i => ?_
    calc next.plain.level i
        = ((st.level i).filter fun file => file.info.fileNumber ≠ fileNumber).map st.tableOf := by
          rw [plain_level, levels, tables]
      _ = ((st.level i).map st.tableOf).filter fun file => file.info.fileNumber ≠ fileNumber := by
          rw [List.filter_map]
          refine congrArg _ (List.filter_congr fun file member => ?_)
          simp [listed.info_tableOf member]
      _ = _ := by rw [← plain_level]; exact (List.getD_map _ [] _).symm
  rw [SSTableManager.unregisterSSTable, if_pos known]
  exact congrArg Except.ok (congr (congrArg SSTableManager.mk files.symm) number.symm)

theorem Listed.plain_step (listed : st.Listed cmp) (effect : st.Effect cmp maxOpenFiles event next) :
    next.plain = st.plain ∨ ∃ change, st.plain.change cmp change = some next.plain := by
  cases effect with
  | cache cache gets => exact .inl rfl
  | number => exact .inr ⟨.fetchFileNumber, rfl⟩
  | file filename content untouched =>
      refine .inl (congrArg (SSTableManager.mk · st.nextFileNumber) ?_)
      refine List.map_congr_left fun files inside => List.map_congr_left fun file member => ?_
      have other := untouched file (List.mem_flatten.mpr ⟨files, inside, member⟩)
      simp [tableOf, Function.update_of_ne other]
  | register file holds registered =>
      refine .inr ⟨.registerSSTable file.level (st.tableOf file), ?_⟩
      rw [SSTableManager.change, listed.plain_register holds registered]
      rfl
  | unregister fileNumber _ unregistered =>
      refine .inr ⟨.unregisterSSTable fileNumber, ?_⟩
      rw [SSTableManager.change, listed.plain_unregister unregistered]
      rfl

theorem run_listed_cached (run : Run (step cmp maxOpenFiles) Careful {} st) :
    st.Listed cmp ∧ st.Cached cmp maxOpenFiles :=
  Run.invariant (p := fun st => st.Listed cmp ∧ st.Cached cmp maxOpenFiles)
    (fun _ _ _ careful stepped ⟨listed, cached⟩ =>
      have effect := effect_of_step careful stepped
      ⟨listed.step effect, cached.step listed effect⟩)
    run ⟨listed_new, cached_new⟩

/-- In every careful run the manager with its two tables and its cache is the plain manager: the
tables agree, the cache stays within its bound, and a reader shows the file as it is on disk. -/
theorem refines_plain (run : Run (step cmp maxOpenFiles) Careful {} st) :
    Run (SSTableManager.change cmp) free .new st.plain ∧ st.Listed cmp ∧ st.Cached cmp maxOpenFiles ∧
      ∀ fileNumber now, (st.getReader cmp maxOpenFiles fileNumber now).1 = st.loadReader cmp fileNumber := by
  obtain ⟨listed, cached⟩ := run_listed_cached run
  refine ⟨?_, listed, cached, fun fileNumber now => cached.answer fileNumber now⟩
  induction run with
  | refl => exact .refl
  | tail earlier last ih =>
      obtain ⟨event, careful, stepped⟩ := last
      obtain ⟨listed, cached⟩ := run_listed_cached earlier
      rcases listed.plain_step (effect_of_step careful stepped) with same | ⟨change, changed⟩
      · exact same ▸ ih listed cached
      · exact (ih listed cached).tail ⟨change, trivial, changed⟩

def flushed (fileNumber : Nat) (first last : Key) (value : Value) : List TableEvent :=
  let table : SSTable := ⟨⟨fileNumber, first, last⟩,
    [⟨(.make first fileNumber .kValue, value), [(.make last fileNumber .kValue, value)]⟩], none⟩
  let filename := SSTableManager.generateFileName [] fileNumber 0
  [.fetchFileNumber, .writeFile filename table, .registerSSTable ⟨filename, 0, table.info⟩]

def flushReadDelete : List TableEvent :=
  flushed 1 [97] [107] [1] ++ flushed 2 [98] [122] [2] ++
    [.getReader 1 10, .getReader 2 20, .rehash [2], .unregisterSSTable 2,
      .deleteFile (SSTableManager.generateFileName [] 2 0), .getReader 2 30]

theorem refines_plain_flushReadDelete :
    ∃ st, execute (step bytewiseComparator 1) {} flushReadDelete = some st ∧
      Run (SSTableManager.change bytewiseComparator) free .new st.plain ∧
      st.Listed bytewiseComparator ∧ st.Cached bytewiseComparator 1 ∧
      ∀ fileNumber now, (st.getReader bytewiseComparator 1 fileNumber now).1 =
        st.loadReader bytewiseComparator fileNumber := by
  obtain ⟨st, executed⟩ : ∃ st, execute (step bytewiseComparator 1) {} flushReadDelete = some st :=
    Option.isSome_iff_exists.mp (by decide +kernel)
  have allowed : Allowed (step bytewiseComparator 1) Careful {} flushReadDelete := by decide +kernel
  exact ⟨st, executed, refines_plain (execute_run _ allowed executed)⟩

end CachingManager
end Lrdb
