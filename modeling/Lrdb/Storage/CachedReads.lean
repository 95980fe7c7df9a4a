import Lrdb.Storage.ReaderCache

namespace Lrdb
open Versions Runs

namespace CachingManager
variable {cmp : Comparator} {maxOpenFiles : Nat} {st next : CachingManager} {event : TableEvent}

theorem map_levelCandidates {files : List FileMeta}
    (info : ∀ file ∈ files, (st.tableOf file).info = file.info) (key : Key) (i : Nat) :
    (SSTableManager.levelCandidates cmp key i (files.map st.tableOf)).map
      (fun table => table.info.fileNumber) = levelCandidates cmp key i files := by
  cases i with
  | zero =>
      have sorted := List.map_insertionSort SSTableManager.NumberGE (· ≥ ·)
        (fun table : SSTable => table.info.fileNumber)
        ((files.map st.tableOf).filter fun table => table.info.keyInRange cmp key)
        (fun _ _ _ _ => Iff.rfl)
      refine sorted.trans (congrArg (List.insertionSort (· ≥ ·)) ?_)
      rw [List.filter_map, List.map_map]
      calc _ = (files.filter fun file => file.info.keyInRange cmp key).map
              ((fun table => table.info.fileNumber) ∘ st.tableOf) :=
            congrArg _ (List.filter_congr fun file member => by simp [info file member])
        _ = _ := List.map_congr_left fun file member => by
            simp [info file (List.mem_filter.mp member).1]
  | succ i =>
      induction files with
      | nil => rfl
      | cons file rest ih =>
          have here := info file List.mem_cons_self
          have ih := ih fun other member => info other (List.mem_cons_of_mem _ member)
          simp only [SSTableManager.levelCandidates, levelCandidates, List.map_cons, List.dropWhile_cons,
            here] at ih ⊢
          by_cases below : cmp.compare file.info.largestKey key = .lt
          · simpa only [below, decide_true, if_true] using ih
          · simp only [below, decide_false, Bool.false_eq_true, if_false, here]
            split <;> simp [here]

/-- `Get` collects the numbers of the files that the plain manager searches. -/
theorem Listed.map_candidates (listed : st.Listed cmp) (key : Key) :
    (st.plain.candidates cmp key).map (fun table => table.info.fileNumber) = st.candidates cmp key := by
  rw [SSTableManager.candidates, candidates, List.map_flatten, List.map_map, plain, List.zipIdx_map,
    List.map_map]
  refine congrArg List.flatten (List.map_congr_left fun entry member => ?_)
  obtain ⟨files, i⟩ := entry
  obtain ⟨bound, found⟩ := List.mem_zipIdx' member
  refine map_levelCandidates (fun file inside => ?_) key i
  obtain ⟨j, listing⟩ := mem_flatten.mp (List.mem_flatten.mpr ⟨files, found ▸ List.getElem_mem _, inside⟩)
  exact listed.info_tableOf listing

theorem mem_levelCandidates {key : Key} {i : Nat} {files : List SSTable} {table : SSTable}
    (member : table ∈ SSTableManager.levelCandidates cmp key i files) : table ∈ files := by
  cases i with
  | zero =>
      simp only [SSTableManager.levelCandidates, SSTableManager.byNumber, List.mem_insertionSort] at member
      exact (List.mem_filter.mp member).1
  | succ i =>
      rw [SSTableManager.levelCandidates] at member
      split at member
      · rename_i file rest found
        have inside : file ∈ files :=
          (List.dropWhile_sublist _).subset (found ▸ List.mem_cons_self)
        split at member
        · exact List.mem_singleton.mp member ▸ inside
        · cases member
      · cases member

theorem mem_candidates {m : SSTableManager} {key : Key} {table : SSTable}
    (member : table ∈ m.candidates cmp key) : table ∈ m.levelFiles.flatten := by
  obtain ⟨files, listing, inside⟩ := List.mem_flatten.mp member
  obtain ⟨⟨level, i⟩, entry, rfl⟩ := List.mem_map.mp listing
  exact List.mem_flatten.mpr ⟨level, List.fst_mem_of_mem_zipIdx entry, mem_levelCandidates inside⟩

/-- What the loop of `Get` comes to, if nothing changes. -/
def searchNumbers (cmp : Comparator) (st : CachingManager) (key : Key) (snapshot : Nat) (value : Value) :
    List Nat → MemTable.GetResult
  | [] => (false, ⟨.ok, value⟩)
  | fileNumber :: rest =>
      ((st.loadReader cmp fileNumber).bind fun reader => searchReader cmp reader key snapshot value).getD
        (searchNumbers cmp st key snapshot value rest)

theorem searchNumbers_congr {numbers : List Nat}
    (same : ∀ fileNumber ∈ numbers, next.loadReader cmp fileNumber = st.loadReader cmp fileNumber)
    (key : Key) (snapshot : Nat) (value : Value) :
    next.searchNumbers cmp key snapshot value numbers = st.searchNumbers cmp key snapshot value numbers := by
  induction numbers with
  | nil => rfl
  | cons fileNumber rest ih =>
      obtain ⟨here, others⟩ := List.forall_mem_cons.mp same
      rw [searchNumbers, searchNumbers, here, ih others]

theorem searchFile_eq_bind (table : SSTable) (key : Key) (snapshot : Nat) (value : Value) :
    SSTableManager.searchFile cmp table key snapshot value =
      (if (table.readIndex cmp).isOk then some table else none).bind fun reader =>
        searchReader cmp reader key snapshot value := by
  rw [SSTableManager.searchFile]
  by_cases opens : (table.readIndex cmp).isOk
  · simp only [opens, not_true_eq_false, if_false, if_true, Option.bind_some, searchReader]
  · simp only [opens, not_false_eq_true, if_true, if_false, Option.bind_none, Bool.false_eq_true]

theorem Listed.get_plain (listed : st.Listed cmp) (key : Key) (snapshot : Nat) (value : Value) :
    st.plain.get cmp key snapshot value =
      st.searchNumbers cmp key snapshot value (st.candidates cmp key) := by
  rw [SSTableManager.get, ← listed.map_candidates]
  have inside : ∀ table ∈ st.plain.candidates cmp key, table ∈ st.plain.levelFiles.flatten :=
    fun table => mem_candidates
  revert inside
  induction st.plain.candidates cmp key with
  | nil => exact fun _ => rfl
  | cons table rest ih =>
      intro inside
      obtain ⟨here, others⟩ := List.forall_mem_cons.mp inside
      rw [plain, ← List.map_flatten] at here
      obtain ⟨file, member, rfl⟩ := List.mem_map.mp here
      obtain ⟨i, member⟩ := mem_flatten.mp member
      rw [SSTableManager.searchFiles, ih others, searchFile_eq_bind, List.map_cons, searchNumbers,
        listed.info_tableOf member, listed.loadReader_eq member]

theorem Listed.loadReader_step (listed : st.Listed cmp) (effect : st.Effect cmp maxOpenFiles event next)
    {fileNumber : Nat} (known : (st.fileMetaMap fileNumber).isSome)
    (kept : event ≠ .unregisterSSTable fileNumber) :
    next.loadReader cmp fileNumber = st.loadReader cmp fileNumber ∧
      (next.fileMetaMap fileNumber).isSome := by
  cases effect with
  | cache cache gets => exact ⟨rfl, known⟩
  | number => exact ⟨rfl, known⟩
  | file filename content untouched =>
      exact ⟨congrFun (listed.loadReader_writeFile untouched content) fileNumber, known⟩
  | register file holds registered =>
      obtain ⟨_, _, fresh, rfl⟩ := registerSSTable_ok registered
      have other : fileNumber ≠ file.info.fileNumber := by
        rintro rfl
        simp [fresh] at known
      simp [loadReader, openFile, Function.update_of_ne other, known]
  | unregister number named unregistered =>
      have other : fileNumber ≠ number := by
        rintro rfl
        exact kept named
      refine ⟨loadReader_unregister unregistered other, ?_⟩
      obtain ⟨file, _, rfl⟩ := unregisterSSTable_ok unregistered
      simpa [Function.update_of_ne other] using known

/-- The call of `Get` is going to answer, or has answered. -/
def Bound (cmp : Comparator) (id : Nat) (answer : MemTable.GetResult) (st : CachingManager) : Prop :=
  ∃ get, st.gets id = some get ∧
    (get.result = none → ∀ fileNumber ∈ get.candidates, (st.fileMetaMap fileNumber).isSome) ∧
    get.result.getD (st.searchNumbers cmp get.key get.snapshot get.value get.candidates) = answer

theorem gets_of_step {id : Nat} {get : PendingGet} (begun : st.gets id = some get)
    (stepped : st.step cmp maxOpenFiles event = some next) :
    next.gets id = some get ∨ ∃ now, event = .probe id now ∧ get.result = none ∧
      next = st.probe cmp maxOpenFiles id now get := by
  cases event with
  | fetchFileNumber | writeFile filename table | deleteFile filename | getReader fileNumber now
  | evictFromCache fileNumber | clearCache => cases stepped; exact .inl begun
  | registerSSTable file =>
      obtain ⟨_, _, _, rfl⟩ := registerSSTable_ok (ok_of_toOption stepped)
      exact .inl begun
  | unregisterSSTable fileNumber =>
      obtain ⟨_, _, rfl⟩ := unregisterSSTable_ok (ok_of_toOption stepped)
      exact .inl begun
  | rehash order =>
      obtain ⟨_, reordered⟩ := Option.ite_none_right_eq_some.mp stepped
      cases reordered
      exact .inl begun
  | beginGet other key snapshot value =>
      obtain ⟨unused, other⟩ := Option.ite_none_right_eq_some.mp stepped
      cases other
      refine .inl ((Function.update_of_ne ?_ _ _).trans begun)
      rintro rfl
      simp [begun] at unused
  | probe other now =>
      simp only [CachingManager.step] at stepped
      split at stepped
      · rename_i pending found
        obtain ⟨waiting, probed⟩ := Option.ite_none_right_eq_some.mp stepped
        cases probed
        by_cases same : other = id
        · subst same
          obtain rfl : pending = get := by simpa [found] using begun
          exact .inr ⟨now, rfl, by simpa using waiting, rfl⟩
        · refine .inl (Eq.trans ?_ begun)
          unfold CachingManager.probe
          split <;> exact Function.update_of_ne (Ne.symm same) _ _
      · cases stepped

theorem bound_step {id : Nat} {answer : MemTable.GetResult} (listed : st.Listed cmp)
    (cached : st.Cached cmp maxOpenFiles) (undisturbed : st.Undisturbed id event)
    (stepped : st.step cmp maxOpenFiles event = some next) (bound : st.Bound cmp id answer) :
    next.Bound cmp id answer := by
  obtain ⟨get, begun, known, comes⟩ := bound
  rcases gets_of_step begun stepped with kept | ⟨now, rfl, waiting, rfl⟩
  · have effect := effect_of_step undisturbed.1 stepped
    have same : get.result = none → ∀ fileNumber ∈ get.candidates,
        next.loadReader cmp fileNumber = st.loadReader cmp fileNumber ∧
          (next.fileMetaMap fileNumber).isSome := fun waiting fileNumber member =>
      listed.loadReader_step effect (known waiting fileNumber member)
        (undisturbed.2 get begun waiting fileNumber member)
    refine ⟨get, kept, fun waiting fileNumber member => (same waiting fileNumber member).2, ?_⟩
    cases result : get.result with
    | some answered => simpa [result] using comes
    | none =>
        rw [searchNumbers_congr fun fileNumber member => (same result fileNumber member).1]
        simpa [result] using comes
  · rw [waiting, Option.getD_none] at comes
    cases pending : get.candidates with
    | nil =>
        rw [pending, searchNumbers] at comes
        refine ⟨{ get with result := some (false, ⟨.ok, get.value⟩) }, ?_, by simp, comes⟩
        simp only [CachingManager.probe, pending, Function.update_self]
    | cons fileNumber rest =>
        rw [pending, searchNumbers, ← cached.answer fileNumber now] at comes
        refine ⟨{ get with
          candidates := rest
          result := (st.getReader cmp maxOpenFiles fileNumber now).1.bind fun reader =>
            searchReader cmp reader get.key get.snapshot get.value }, ?_, fun _ number member => ?_, ?_⟩
        · simp only [CachingManager.probe, pending, Function.update_self]
        · simp only [CachingManager.probe, pending]
          exact known waiting number (pending ▸ List.mem_cons_of_mem _ member)
        · rw [← comes]
          refine congrArg _ (searchNumbers_congr (fun number _ => ?_) _ _ _)
          simp only [CachingManager.probe, pending]
          rfl

theorem bound_of_run {id : Nat} {answer : MemTable.GetResult} (listed : st.Listed cmp)
    (cached : st.Cached cmp maxOpenFiles) (bound : st.Bound cmp id answer)
    (run : Run (step cmp maxOpenFiles) (Undisturbed id) st next) : next.Bound cmp id answer :=
  (Run.invariant (p := fun st => (st.Listed cmp ∧ st.Cached cmp maxOpenFiles) ∧ st.Bound cmp id answer)
    (fun _ _ _ undisturbed stepped ⟨⟨listed, cached⟩, bound⟩ =>
      have effect := effect_of_step undisturbed.1 stepped
      ⟨⟨listed.step effect, cached.step listed effect⟩,
        bound_step listed cached undisturbed stepped bound⟩)
    run ⟨⟨listed, cached⟩, bound⟩).2

/-- Whatever is opened, evicted, registered or read between the readers that a call of `Get` asks for,
it answers as the plain manager does at its beginning, if no file it still has to look into is
unregistered. -/
theorem get_answers_plain {begun : CachingManager} {id : Nat} {key : Key} {snapshot : Nat} {value : Value}
    {get : PendingGet} {answer : MemTable.GetResult}
    (before : Run (step cmp maxOpenFiles) Careful {} st)
    (begins : st.step cmp maxOpenFiles (.beginGet id key snapshot value) = some begun)
    (during : Run (step cmp maxOpenFiles) (Undisturbed id) begun next)
    (found : next.gets id = some get) (answered : get.result = some answer) :
    answer = st.plain.get cmp key snapshot value := by
  obtain ⟨listed, cached⟩ := run_listed_cached before
  have effect : st.Effect cmp maxOpenFiles (.beginGet id key snapshot value) begun :=
    effect_of_step trivial begins
  obtain ⟨_, rfl⟩ : (st.gets id).isNone ∧ st.beginGet cmp id key snapshot value = begun := by
    obtain ⟨unused, same⟩ := Option.ite_none_right_eq_some.mp begins
    exact ⟨unused, Option.some.inj same⟩
  have bound : (st.beginGet cmp id key snapshot value).Bound cmp id
      (st.plain.get cmp key snapshot value) := by
    refine ⟨_, Function.update_self _ _ _, fun _ fileNumber member => ?_, ?_⟩
    · dsimp only at member
      rw [← listed.map_candidates] at member
      obtain ⟨table, inside, same⟩ := List.mem_map.mp member
      exact (listed.known_iff fileNumber).mp ⟨table, mem_candidates inside, same⟩
    · calc searchNumbers cmp (st.beginGet cmp id key snapshot value) key snapshot value (st.candidates cmp key)
          = st.searchNumbers cmp key snapshot value (st.candidates cmp key) := by
            refine searchNumbers_congr (fun _ _ => ?_) key snapshot value
            rfl
        _ = st.plain.get cmp key snapshot value := (listed.get_plain key snapshot value).symm
  obtain ⟨last, same, _, comes⟩ :=
    bound_of_run (listed.step effect) (cached.step listed effect) bound during
  obtain rfl : last = get := by simpa [found] using same.symm
  simpa [answered] using comes

def registerMeanwhile : List TableEvent :=
  [.probe 0 10, .clearCache] ++ flushed 3 [107] [108] [3] ++ [.getReader 3 20, .probe 0 30]

def twoFlushed : List TableEvent := flushed 1 [97] [107] [1] ++ flushed 2 [98] [122] [2]

theorem get_answers_plain_registerMeanwhile :
    ∃ st begun next get answer, execute (step bytewiseComparator 1) {} twoFlushed = some st ∧
      st.step bytewiseComparator 1 (.beginGet 0 [107] 0 []) = some begun ∧
      execute (step bytewiseComparator 1) begun registerMeanwhile = some next ∧
      next.gets 0 = some get ∧ get.result = some answer ∧
        answer = st.plain.get bytewiseComparator [107] 0 [] := by
  have ran : ((execute (step bytewiseComparator 1) {} twoFlushed).bind fun st =>
      (st.step bytewiseComparator 1 (.beginGet 0 [107] 0 [])).bind fun begun =>
        (execute (step bytewiseComparator 1) begun registerMeanwhile).bind fun next =>
          (next.gets 0).bind PendingGet.result).isSome := by decide +kernel
  obtain ⟨answer, ran⟩ := Option.isSome_iff_exists.mp ran
  obtain ⟨st, executed, ran⟩ := Option.bind_eq_some_iff.mp ran
  obtain ⟨begun, begins, ran⟩ := Option.bind_eq_some_iff.mp ran
  obtain ⟨next, continued, ran⟩ := Option.bind_eq_some_iff.mp ran
  obtain ⟨get, found, answered⟩ := Option.bind_eq_some_iff.mp ran
  have allowed : Allowed (step bytewiseComparator 1) Careful {} twoFlushed := by decide +kernel
  have undisturbed : ∀ st ∈ execute (step bytewiseComparator 1) {} twoFlushed,
      ∀ begun ∈ st.step bytewiseComparator 1 (.beginGet 0 [107] 0 []),
        Allowed (step bytewiseComparator 1) (Undisturbed 0) begun registerMeanwhile := by decide +kernel
  exact ⟨st, begun, next, get, answer, executed, begins, continued, found, answered,
    get_answers_plain (execute_run _ allowed executed) begins
      (execute_run _ (undisturbed st executed begun begins) continued) found answered⟩

end CachingManager
end Lrdb
