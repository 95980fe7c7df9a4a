import Lrdb.Storage.Compaction

namespace Lrdb
open Versions SSTable
open TableFile (StoredRecord stored entryOf entryOf_stored stored_of_entryOf fileRecords_whole)

namespace MergeWriter
variable {cmp : Comparator} {options : SSTableWriterOptions}

theorem add_stored (w : SSTableWriter) (entry : Entry) :
    MergeWriter.add cmp options (.entries w) (stored entry) = (w.add cmp options entry).map .entries := by
  unfold add
  rw [entryOf_stored]

theorem lastKey_of_add {w w' : MergeWriter} {record : StoredRecord}
    (added : w.add cmp options record = .ok w') : w'.lastKey = record.1 := by
  unfold add at added
  split at added
  · rename_i w entry decoded
    unfold SSTableWriter.add at added
    split at added <;> [cases added; skip]
    obtain rfl := Except.ok.inj added
    rw [← stored_of_entryOf decoded]
    rfl
  · split at added <;> [cases added; skip]
    obtain rfl := Except.ok.inj added
    simp [lastKey]

theorem add_error {w : MergeWriter} {record : StoredRecord} {failure : Status}
    (refused : w.add cmp options record = .error failure) : ¬ failure.isOk := by
  unfold add at refused
  split at refused
  · unfold SSTableWriter.add at refused
    split at refused <;> [skip; cases refused]
    obtain rfl := Except.error.inj refused
    decide
  · split at refused <;> [skip; cases refused]
    obtain rfl := Except.error.inj refused
    decide

theorem add_ok_iff (w : MergeWriter) (record : StoredRecord) :
    (∃ w', w.add cmp options record = .ok w') ↔ w.lastKey = [] ∨ cmp.Before w.lastKey record.1 := by
  unfold add
  split
  · rename_i w entry decoded
    rw [← stored_of_entryOf decoded, SSTableWriter.add]
    cases last : w.lastKey with
    | none => simp [lastKey, last, Except.map]
    | some key =>
        have long : key.encode ≠ [] := by
          rw [ne_eq, ← List.length_eq_zero_iff, InternalKey.length_encode]
          exact Nat.succ_ne_zero _
        simp only [lastKey, last, Option.map_some, Option.getD_some, long, false_or, Option.mem_some_iff,
          exists_eq_left', stored]
        split
        · rename_i unordered
          exact iff_of_false (by simp [Except.map]) unordered
        · rename_i ordered
          exact iff_of_true ⟨_, rfl⟩ (not_not.mp ordered)
  · split
    · rename_i unordered
      refine iff_of_false (by simp) ?_
      rintro (none | before)
      · exact unordered.1 none
      · exact unordered.2 before
    · rename_i ordered
      rw [not_and_or, not_not, not_not] at ordered
      exact iff_of_true ⟨_, rfl⟩ ordered

end MergeWriter

namespace SSTableCompactor
variable {cmp : Comparator} {config : CompactionConfig} {options : SSTableWriterOptions}

/-! ## The order of the records -/

theorem keyLess_asymm (a b : StoredRecord) (less : KeyLess cmp a b) : ¬ KeyLess cmp b a :=
  less.not_before

theorem keyLess_trans (a b c : StoredRecord) (ab : ¬ KeyLess cmp b a) (bc : ¬ KeyLess cmp c b) :
    ¬ KeyLess cmp c a := by
  unfold KeyLess at ab bc ⊢
  rw [Comparator.not_before] at ab bc ⊢
  rcases ab with same | before
  · rwa [← same]
  · rcases bc with same | before'
    · exact .inr (same ▸ before)
    · exact .inr (before.trans before')

theorem mergedRecords_perm (iters : List IteratorWrapper) :
    (mergedRecords cmp iters).Perm (iters.flatMap IteratorWrapper.records) := by
  rw [List.flatMap_def]
  exact Merging.merged_perm keyLess_asymm keyLess_trans le_rfl

theorem iterator_whole {file : CompactionInput cmp} (whole : file.faults.Whole file.table) :
    file.iterator = ⟨file.table.entries.map stored, .ok⟩ := by
  rw [CompactionInput.iterator, fileRecords_whole whole]

def storedEntries (files : List (CompactionInput cmp)) : List Entry :=
  files.flatMap fun file => file.table.entries

def kept (config : CompactionConfig) (files : List (CompactionInput cmp)) : List Entry :=
  (storedEntries files).filter fun entry => shouldKeepKey config entry.1.encode

theorem mergedRecords_readable {files : List (CompactionInput cmp)}
    (readable : ∀ file ∈ files, file.Readable) : ∃ entries : List Entry,
      mergedRecords cmp (createMergeIterator cmp files) = entries.map stored ∧
        entries.Perm (storedEntries files) ∧
          entries.Pairwise fun a b => ¬ cmp.Before b.1.encode a.1.encode := by
  have all : files.filter CompactionInput.opens = files :=
    List.filter_eq_self.mpr fun file member => (readable file member).1
  have perm := @mergedRecords_perm cmp (createMergeIterator cmp files)
  have records : (createMergeIterator cmp files).flatMap IteratorWrapper.records =
      (storedEntries files).map stored := by
    rw [createMergeIterator, all, storedEntries, List.flatMap_map, List.map_flatMap]
    exact List.flatMap_congr fun file member => by rw [iterator_whole (readable file member).2]
  rw [records] at perm
  have ordered : (mergedRecords cmp (createMergeIterator cmp files)).Pairwise fun a b =>
      ¬ KeyLess cmp b a := by
    apply Merging.merged_pairwise keyLess_asymm keyLess_trans
    · intro list member
      obtain ⟨iter, here, rfl⟩ := List.mem_map.mp member
      obtain ⟨file, inside, rfl⟩ := List.mem_map.mp here
      rw [iterator_whole (readable file (List.mem_filter.mp inside).1).2]
      exact List.pairwise_map.mpr (file.ascending.imp Comparator.Before.not_before)
    · exact le_rfl
  have split := congrFun (congrFun (List.eq_map_comp_perm stored)
    (mergedRecords cmp (createMergeIterator cmp files))) (storedEntries files)
  obtain ⟨entries, same, perm'⟩ := split.mpr perm
  rw [same] at ordered
  exact ⟨entries, same, perm', List.pairwise_map.mp ordered⟩

/-! ## Writing the records -/

theorem outputs_writeRecords (records : List StoredRecord) (w : MergeWriter)
    (result : CompactionResult) :
    (writeRecords cmp config options records w result).2.outputs = result.outputs ∧
      (writeRecords cmp config options records w result).2.strayOutputs = result.strayOutputs := by
  induction records generalizing w result with
  | nil => exact ⟨rfl, rfl⟩
  | cons record rest ih =>
      rw [writeRecords]
      split
      · exact ⟨rfl, rfl⟩
      split
      · split
        · exact ⟨rfl, rfl⟩
        · exact ih _ _
      · exact ih _ _

theorem writeRecords_error {records : List StoredRecord} {w : MergeWriter}
    {result : CompactionResult} {failure : Status}
    (failed : (writeRecords cmp config options records w result).1 = .error failure) :
    ¬ failure.isOk := by
  induction records generalizing w result with
  | nil => cases failed
  | cons record rest ih =>
      rw [writeRecords] at failed
      split at failed
      · obtain rfl := Except.error.inj failed
        decide
      split at failed
      · split at failed
        · rename_i added
          obtain rfl := Except.error.inj failed
          exact MergeWriter.add_error added
        · exact ih failed
      · exact ih failed

theorem writeRecords_ok_iff (records : List StoredRecord) (w : MergeWriter) (result : CompactionResult) :
    (∃ w', (writeRecords cmp config options records w result).1 = .ok w') ↔
      (∀ record ∈ records, (parseInternalKey record.1).isSome) ∧
        (w.lastKey ≠ [] → ∀ first ∈ (records.filter fun record => shouldKeepKey config record.1).head?,
          cmp.Before w.lastKey first.1) ∧
        (records.filter fun record => shouldKeepKey config record.1).IsChain (KeyLess cmp) := by
  induction records generalizing w result with
  | nil => simp [writeRecords]
  | cons record rest ih =>
      rw [writeRecords, List.forall_mem_cons]
      cases parsed : parseInternalKey record.1 with
      | none => simp
      | some parts =>
          have long : record.1 ≠ [] := by
            intro empty
            rw [empty] at parsed
            cases parsed
          simp only [Option.isNone_some, Bool.false_eq_true, if_false, Option.isSome_some, true_and]
          by_cases keep : shouldKeepKey config record.1
          · rw [if_pos keep, @List.filter_cons_of_pos _ _ record rest keep]
            have added := @MergeWriter.add_ok_iff cmp options w record
            cases step : w.add cmp options record with
            | error status =>
                have refused : ¬ (w.lastKey = [] ∨ cmp.Before w.lastKey record.1) := by
                  rw [← added, step]
                  simp
                rw [not_or] at refused
                refine iff_of_false (by simp) fun all => refused.2 ?_
                exact all.2.1 refused.1 record (by simp)
            | ok next =>
                have allowed := added.mp ⟨next, step⟩
                have last := MergeWriter.lastKey_of_add step
                dsimp only
                have chain : (record :: rest.filter fun record => shouldKeepKey config record.1).IsChain
                    (KeyLess cmp) ↔ (∀ first ∈ (rest.filter fun record =>
                        shouldKeepKey config record.1).head?, cmp.Before record.1 first.1) ∧
                      (rest.filter fun record => shouldKeepKey config record.1).IsChain (KeyLess cmp) := by
                  cases rest.filter fun record => shouldKeepKey config record.1 <;> simp [KeyLess]
                rw [ih, last, chain]
                simp only [ne_eq, long, not_false_eq_true, true_imp_iff, List.head?_cons,
                  Option.mem_some_iff, forall_eq']
                have first : w.lastKey ≠ [] → cmp.Before w.lastKey record.1 := allowed.resolve_left
                exact and_congr_right fun _ => ⟨fun both => ⟨first, both⟩, fun all => all.2⟩
          · rw [if_neg keep, @List.filter_cons_of_neg _ _ record rest keep, ih]

theorem writeRecords_stored (entries : List Entry) (w : SSTableWriter) (result : CompactionResult) :
    (writeRecords cmp config options (entries.map stored) (.entries w) result).1 =
      (SSTableWriter.addAll cmp options w
        (entries.filter fun entry => shouldKeepKey config entry.1.encode)).map .entries := by
  induction entries generalizing w result with
  | nil => rfl
  | cons entry rest ih =>
      have parsed : (parseInternalKey (stored entry).1).isNone = false := by
        rw [stored, parse_encode]
        rfl
      rw [List.map_cons, writeRecords, parsed, if_neg Bool.false_ne_true]
      split
      · rename_i keep
        rw [@List.filter_cons_of_pos _ _ entry rest keep, SSTableWriter.addAll, MergeWriter.add_stored]
        cases w.add cmp options entry with
        | error status => rfl
        | ok next => exact ih _ _
      · rename_i drop
        rw [@List.filter_cons_of_neg _ _ entry rest drop, ih]

/-! ## The result of a merge -/

theorem status_isOk_iff (iters : List IteratorWrapper) :
    (status iters).isOk ↔ ∀ iter ∈ iters, iter.status.isOk := by
  rw [status]
  cases found : (iters.map IteratorWrapper.status).find? fun s => ¬ s.isOk with
  | none =>
      have all := List.find?_eq_none.mp found
      refine iff_of_true rfl fun iter member => ?_
      simpa using all iter.status (List.mem_map_of_mem member)
  | some s =>
      obtain ⟨iter, member, same⟩ := List.mem_map.mp (List.mem_of_find?_eq_some found)
      have bad : ¬ s.isOk := by simpa using List.find?_some found
      exact iff_of_false bad fun all => bad (same ▸ all iter member)

variable {files : List (CompactionInput cmp)} {outputLevel : Nat} {result : CompactionResult}

theorem mergeInputFiles_of_error {failure : Status} {after : CompactionResult}
    (written : writeRecords cmp config options (mergedRecords cmp (createMergeIterator cmp files))
      (.entries {}) result = (.error failure, after)) :
    mergeInputFiles cmp config options files outputLevel result = (failure, after) := by
  unfold mergeInputFiles
  dsimp only
  rw [written]

theorem mergeInputFiles_of_ok {w : MergeWriter} {after : CompactionResult}
    (written : writeRecords cmp config options (mergedRecords cmp (createMergeIterator cmp files))
      (.entries {}) result = (.ok w, after)) :
    mergeInputFiles cmp config options files outputLevel result =
      if ¬ (status (createMergeIterator cmp files)).isOk then
        (status (createMergeIterator cmp files), after)
      else (.ok, w.finish outputLevel after) := by
  unfold mergeInputFiles
  dsimp only
  rw [written]

theorem outputs_of_failed
    (failed : ¬ (mergeInputFiles cmp config options files outputLevel result).1.isOk) :
    (mergeInputFiles cmp config options files outputLevel result).2.outputs = result.outputs ∧
      (mergeInputFiles cmp config options files outputLevel result).2.strayOutputs =
        result.strayOutputs := by
  have outputs := @outputs_writeRecords cmp config options
    (mergedRecords cmp (createMergeIterator cmp files)) (.entries {}) result
  rcases written : writeRecords cmp config options (mergedRecords cmp (createMergeIterator cmp files))
    (.entries {}) result with ⟨failure | w, after⟩
  · rw [mergeInputFiles_of_error written]
    rw [written] at outputs
    exact outputs
  · rw [mergeInputFiles_of_ok written] at failed ⊢
    rw [written] at outputs
    split
    · exact outputs
    · rename_i fine
      rw [if_neg fine] at failed
      exact absurd rfl failed

theorem mem_mergedRecords {record : StoredRecord} :
    record ∈ mergedRecords cmp (createMergeIterator cmp files) ↔
      ∃ file ∈ files, file.opens ∧ record ∈ file.iterator.records := by
  rw [(mergedRecords_perm _).mem_iff, List.mem_flatMap]
  constructor
  · rintro ⟨iter, here, inside⟩
    obtain ⟨file, member, rfl⟩ := List.mem_map.mp here
    obtain ⟨member, opens⟩ := List.mem_filter.mp member
    exact ⟨file, member, opens, inside⟩
  · rintro ⟨file, member, opens, inside⟩
    exact ⟨file.iterator, List.mem_map_of_mem (List.mem_filter.mpr ⟨member, opens⟩), inside⟩

theorem status_createMergeIterator : (status (createMergeIterator cmp files)).isOk ↔
    ∀ file ∈ files, file.opens → file.iterator.status.isOk := by
  rw [status_isOk_iff, createMergeIterator, List.forall_mem_map]
  simp only [List.mem_filter, and_imp]

/-- What stops a merge: the iterator of a file that opens ends with a failure or gives a key that is no
internal key, or of two kept keys in a row the second is not greater. -/
def Refused (config : CompactionConfig) (files : List (CompactionInput cmp)) : Prop :=
  (∃ file ∈ files, file.opens ∧ (¬ file.iterator.status.isOk ∨
      ∃ record ∈ file.iterator.records, (parseInternalKey record.1).isNone)) ∨
    ¬ ((mergedRecords cmp (createMergeIterator cmp files)).filter fun record =>
      shouldKeepKey config record.1).IsChain (KeyLess cmp)

theorem not_refused_iff : ¬ Refused config files ↔
    (status (createMergeIterator cmp files)).isOk ∧
      ∃ w, (writeRecords cmp config options (mergedRecords cmp (createMergeIterator cmp files))
        (.entries {}) result).1 = .ok w := by
  have first : (MergeWriter.entries {}).lastKey = [] := rfl
  rw [writeRecords_ok_iff, status_createMergeIterator, first, Refused, not_or, not_not]
  simp only [mem_mergedRecords]
  constructor
  · rintro ⟨none, chain⟩
    refine ⟨fun file member opens => ?_, fun record inside => ?_, fun filled => absurd rfl filled, chain⟩
    · by_contra failed
      exact none ⟨file, member, opens, .inl failed⟩
    · obtain ⟨file, member, opens, inside⟩ := inside
      rw [Option.isSome_iff_ne_none]
      exact fun unparsed => none ⟨file, member, opens, .inr ⟨record, inside, by rw [unparsed]; rfl⟩⟩
  · rintro ⟨fine, parses, -, chain⟩
    refine ⟨?_, chain⟩
    rintro ⟨file, member, opens, failed | ⟨record, inside, unparsed⟩⟩
    · exact failed (fine file member opens)
    · have parsed := parses record ⟨file, member, opens, inside⟩
      rw [Option.isNone_iff_eq_none.mp unparsed] at parsed
      cases parsed

theorem mergeInputFiles_isOk_iff :
    (mergeInputFiles cmp config options files outputLevel result).1.isOk ↔ ¬ Refused config files := by
  rw [@not_refused_iff cmp config options files result]
  rcases written : writeRecords cmp config options (mergedRecords cmp (createMergeIterator cmp files))
    (.entries {}) result with ⟨failure | w, after⟩
  · rw [mergeInputFiles_of_error written]
    refine iff_of_false (writeRecords_error (congrArg Prod.fst written)) ?_
    rintro ⟨-, w, written⟩
    cases written
  · rw [mergeInputFiles_of_ok written]
    split
    · rename_i failed
      exact iff_of_false failed fun both => failed both.1
    · rename_i fine
      exact iff_of_true rfl ⟨not_not.mp fine, w, rfl⟩

/-- Without faults a merge succeeds if and only if no internal key is kept twice, and then the output has
what was kept, in order. -/
theorem mergeInputFiles_readable (readable : ∀ file ∈ files, file.Readable) :
    ((mergeInputFiles cmp config options files outputLevel result).1.isOk ↔
      ((kept config files).map Prod.fst).Nodup) ∧
    ((mergeInputFiles cmp config options files outputLevel result).1.isOk → ∃ output,
      (mergeInputFiles cmp config options files outputLevel result).2.outputs =
        result.outputs ++ [(output, outputLevel)] ∧
      (mergeInputFiles cmp config options files outputLevel result).2.strayOutputs =
        result.strayOutputs ∧
      output.entries.Pairwise (fun a b => cmp.compare a.1.encode b.1.encode = .lt) ∧
      output.entries.Perm (kept config files)) := by
  obtain ⟨entries, merged, perm, ordered⟩ := mergedRecords_readable readable
  have fine : (status (createMergeIterator cmp files)).isOk := by
    rw [status_createMergeIterator]
    intro file member _
    rw [iterator_whole (readable file member).2]
    rfl
  have keptPerm := perm.filter fun entry => shouldKeepKey config entry.1.encode
  have chain : ((entries.filter fun entry => shouldKeepKey config entry.1.encode).IsChain fun a b =>
      cmp.Before a.1.encode b.1.encode) ↔ ((kept config files).map Prod.fst).Nodup := by
    have weak := ordered.filter fun entry => shouldKeepKey config entry.1.encode
    rw [← (show List.Perm _ (kept config _) from keptPerm).map Prod.fst |>.nodup_iff, List.Nodup,
      List.pairwise_map, List.isChain_iff_pairwise]
    constructor
    · exact fun strict => strict.imp fun before same => before.ne (congrArg InternalKey.encode same)
    · intro distinct
      refine (weak.and distinct).imp fun {a b} both => ?_
      exact (Comparator.not_before.mp both.1).resolve_left fun same =>
        both.2 (encode_injective same).symm
  have written := @writeRecords_stored cmp config options entries {} result
  have outputs := @outputs_writeRecords cmp config options (entries.map stored) (.entries {}) result
  have added := @SSTableWriter.addAll_ok_iff cmp options
    (entries.filter fun entry => shouldKeepKey config entry.1.encode) {}
  rw [and_iff_right (by simp)] at added
  rcases taken : SSTableWriter.addAll cmp options {}
    (entries.filter fun entry => shouldKeepKey config entry.1.encode) with failure | w
  · rw [taken] at written added
    rcases step : writeRecords cmp config options (entries.map stored) (.entries {}) result with
      ⟨failure' | w', after⟩
    · rw [mergeInputFiles_of_error (merged.symm ▸ step)]
      have refused : ¬ failure'.isOk := writeRecords_error (congrArg Prod.fst step)
      refine ⟨iff_of_false refused fun distinct => ?_, fun ok => absurd ok refused⟩
      obtain ⟨w, taken⟩ := added.mpr (chain.mpr distinct)
      cases taken
    · rw [step] at written
      cases written
  · rw [taken] at written added
    rcases step : writeRecords cmp config options (entries.map stored) (.entries {}) result with
      ⟨failure' | w', after⟩
    · rw [step] at written
      cases written
    · rw [step] at written outputs
      obtain rfl : w' = .entries w := Except.ok.inj written
      obtain ⟨outputs, stray⟩ : after.outputs = result.outputs ∧
        after.strayOutputs = result.strayOutputs := outputs
      rw [mergeInputFiles_of_ok (merged.symm ▸ step), if_neg (not_not.mpr fine)]
      have wrote := SSTableWriter.wrote_addAll SSTableWriter.wrote_empty taken
      rw [List.nil_append] at wrote
      refine ⟨iff_of_true rfl (chain.mp (added.mp ⟨w, rfl⟩)), fun _ => ⟨w.finish 0, ?_, stray, ?_, ?_⟩⟩
      · exact congrArg (· ++ _) outputs
      · exact wrote.entries_finish 0 ▸ wrote.ascending
      · exact wrote.entries_finish 0 ▸ keptPerm

/-- The merge either fails and gives no output, or its output has every kept record of every input once,
in order; and it fails only for an input that cannot be read. -/
def MergesAll (config : CompactionConfig) (options : SSTableWriterOptions)
    (files : List (CompactionInput cmp)) (outputLevel : Nat) (result : CompactionResult) : Prop :=
  let (status, after) := mergeInputFiles cmp config options files outputLevel result
  if status.isOk then
    (∀ file ∈ files, file.Readable) ∧ ∃ output, after.outputs = result.outputs ++ [(output, outputLevel)] ∧
      after.strayOutputs = result.strayOutputs ∧
      output.entries.Pairwise (fun a b => cmp.compare a.1.encode b.1.encode = .lt) ∧
      (∀ entry ∈ output.entries, entry ∈ kept config files) ∧
      ∀ entry ∈ kept config files, ∃ written ∈ output.entries, written.1 = entry.1
  else
    after.outputs = result.outputs ∧ after.strayOutputs = result.strayOutputs ∧
      ∃ file ∈ files, ¬ file.Readable

/-- The merge is complete if and only if, with inputs that can all be read, no internal key is kept twice,
and with any other inputs something stops it. -/
theorem mergesAll_iff (config : CompactionConfig) (options : SSTableWriterOptions)
    (files : List (CompactionInput cmp)) (outputLevel : Nat) (result : CompactionResult) :
    MergesAll config options files outputLevel result ↔
      if ∀ file ∈ files, file.Readable then ((kept config files).map Prod.fst).Nodup
      else Refused config files := by
  unfold MergesAll
  dsimp only
  by_cases readable : ∀ file ∈ files, file.Readable
  · rw [if_pos readable]
    obtain ⟨ok_iff, complete⟩ :=
      @mergeInputFiles_readable cmp config options files outputLevel result readable
    rw [← ok_iff]
    split
    · rename_i ok
      obtain ⟨output, outputs, stray, ordered, perm⟩ := complete ok
      exact iff_of_true ⟨readable, output, outputs, stray, ordered, fun entry => perm.mem_iff.mp,
        fun entry member => ⟨entry, perm.mem_iff.mpr member, rfl⟩⟩ ok
    · rename_i failed
      refine iff_of_false ?_ failed
      rintro ⟨-, -, file, member, unread⟩
      exact unread (readable file member)
  · rw [if_neg readable]
    split
    · rename_i ok
      exact iff_of_false (fun all => readable all.1) (mergeInputFiles_isOk_iff.mp ok)
    · rename_i failed
      obtain ⟨outputs, stray⟩ := outputs_of_failed failed
      push Not at readable
      refine iff_of_true ⟨outputs, stray, readable⟩ ?_
      by_contra accepted
      exact failed (mergeInputFiles_isOk_iff.mpr accepted)

def oneRecord (key : InternalKey) (value : Value) : SSTable :=
  ⟨⟨1, key.userKey, key.userKey⟩, [⟨(key, value), []⟩], none⟩

def inputOf (key : InternalKey) (value : Value) (missing : Bool) : CompactionInput cmp :=
  ⟨oneRecord key value, List.pairwise_singleton .., missing, {}⟩

theorem mergesAll_not_missing : ¬ ∀ (config : CompactionConfig) (options : SSTableWriterOptions)
    (files : List (CompactionInput bytewiseComparator)) (outputLevel : Nat) (result : CompactionResult),
      MergesAll config options files outputLevel result := by
  intro always
  have all := always {} {} [inputOf (.make [107] 1 .kValue) [1] true] 1 {}
  have ok : (mergeInputFiles bytewiseComparator {} {} [inputOf (.make [107] 1 .kValue) [1] true] 1
      {}).1.isOk := by decide +kernel
  unfold MergesAll at all
  dsimp only at all
  rw [if_pos ok] at all
  exact absurd (all.1 _ (List.mem_singleton_self _)) (by decide +kernel)

end SSTableCompactor
end Lrdb
