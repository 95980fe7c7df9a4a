import Lrdb.Storage.Compaction
import Lrdb.Storage.TableCodec

/-!
# Splitting a file

`CompactWithSplit` copies a file into outputs that are closed once they have reached a target size. An
output counts the blocks it has written, and a target of zero is reached before the first entry.
-/

namespace Lrdb
open SSTable

namespace SSTableWriter

def blockBytes (block : DataBlock) : Nat :=
  TableFile.BlockHeader.kHeaderSize + (block.entries.map entryBytes).sum

/-- `FileSize` before `Finish`: the offset behind the last block. -/
def fileSize (w : SSTableWriter) : Nat := (w.blocks.map blockBytes).sum

end SSTableWriter

structure SplitOutput where
  filename : List Char
  table : SSTable
  level : Nat

structure SplitResult where
  outputs : List SplitOutput := []
  numInputRecords : Nat := 0
  numOutputRecords : Nat := 0

namespace SSTableCompactor
variable (cmp : Comparator) (options : SSTableWriterOptions)

def fillOutput (target : Nat) : SSTableWriter → List Entry → Except Status SSTableWriter × List Entry
  | w, [] => (.ok w, [])
  | w, entry :: rest =>
      if w.fileSize < target then
        match w.add cmp options entry with
        | .error status => (.error status, entry :: rest)
        | .ok w => fillOutput target w rest
      else (.ok w, entry :: rest)

def outputName (outputPrefix : List Char) (fileIndex : Nat) : List Char :=
  outputPrefix ++ "_".toList ++ Nat.toDigits 10 fileIndex ++ ".sst".toList

/-- The loop over the outputs; `none` if it has not returned after so many rounds. -/
def splitLoop (outputPrefix : List Char) (target level : Nat) :
    Nat → Nat → List Entry → SplitResult → Option (Status × SplitResult)
  | 0, _, _, _ => none
  | _ + 1, _, [], result => some (.ok, result)
  | rounds + 1, fileIndex, entry :: rest, result =>
      let (filled, left) := fillOutput cmp options target {} (entry :: rest)
      let taken := (entry :: rest).length - left.length
      let result := { result with numInputRecords := result.numInputRecords + taken }
      match filled with
      | .error status => some (status, result)
      | .ok w =>
          splitLoop outputPrefix target level rounds (fileIndex + 1) left
            { result with
              outputs := result.outputs ++ [⟨outputName outputPrefix fileIndex, w.finish 0, level⟩]
              numOutputRecords := result.numOutputRecords + taken }

/-- `CompactWithSplit` of a file whose blocks can be read. -/
def compactWithSplit (outputPrefix : List Char) (target level rounds : Nat) (table : SSTable) :
    Option (Status × SplitResult) :=
  if ¬ (table.readIndex cmp).isOk then some (table.readIndex cmp, {})
  else splitLoop cmp options outputPrefix target level rounds 0 table.entries {}

def KeysBefore (front back : List Entry) : Prop :=
  ∀ a ∈ front, ∀ b ∈ back, cmp.Before a.1.userKey b.1.userKey

instance (front back : List Entry) : Decidable (KeysBefore cmp front back) := by
  unfold KeysBefore; infer_instance

/-- The call returns OK, its outputs hold the entries of the input one after the other, none is empty,
and each has its own range of user keys. -/
def Splits (outputPrefix : List Char) (target level : Nat) (table : SSTable) : Prop :=
  ∃ rounds result,
    compactWithSplit cmp options outputPrefix target level rounds table = some (.ok, result) ∧
      (result.outputs.flatMap fun output => output.table.entries) = table.entries ∧
      (∀ output ∈ result.outputs, output.table.entries ≠ []) ∧
      result.outputs.Pairwise fun a b => KeysBefore cmp a.table.entries b.table.entries

/-! ## Where the outputs are cut -/

def outputLength (target : Nat) : Nat → Nat → List Nat → Nat
  | _, _, [] => 0
  | written, buffered, size :: rest =>
      if written < target then
        if 0 < buffered ∧ options.blockSize ≤ buffered then
          outputLength target (written + (TableFile.BlockHeader.kHeaderSize + buffered)) size rest + 1
        else outputLength target written (buffered + size) rest + 1
      else 0

/-- At every cut that the sizes of the entries make, the user keys of the output lie before those that
are still to come. -/
def CutsApart (target : Nat) : Nat → List Entry → Prop
  | 0, _ => True
  | n + 1, entries =>
      let length := outputLength options target 0 0 (entries.map SSTableWriter.entryBytes)
      KeysBefore cmp (entries.take length) (entries.drop length) ∧
        CutsApart target n (entries.drop length)

instance decidableCutsApart (target : Nat) :
    (n : Nat) → (entries : List Entry) → Decidable (CutsApart cmp options target n entries)
  | 0, _ => inferInstanceAs (Decidable True)
  | n + 1, entries =>
      have := decidableCutsApart target n (entries.drop
        (outputLength options target 0 0 (entries.map SSTableWriter.entryBytes)))
      inferInstanceAs (Decidable (KeysBefore cmp _ _ ∧ CutsApart cmp options target n _))

/-! ## One output -/

section Output
open SSTableWriter
variable {cmp} {options} {target : Nat}

structure Sized (w : SSTableWriter) (written buffered : Nat) : Prop where
  written : w.fileSize = written
  counted : w.bufferBytes = buffered
  buffered : (w.dataBuffer.map entryBytes).sum = buffered

theorem sized_empty : Sized {} 0 0 := ⟨rfl, rfl, rfl⟩

theorem entryBytes_pos (entry : Entry) : 0 < entryBytes entry := by
  have encoded := InternalKey.length_encode entry.1
  rw [entryBytes]
  omega

theorem Sized.append {w : SSTableWriter} {written buffered : Nat} (sized : Sized w written buffered)
    (entry : Entry) : Sized (w.append entry) written (buffered + entryBytes entry) where
  written := sized.written
  counted := congrArg (· + entryBytes entry) sized.counted
  buffered := by simp [SSTableWriter.append, sized.buffered]

theorem Sized.writeDataBlock {w : SSTableWriter} {written buffered : Nat}
    (sized : Sized w written buffered) (some : 0 < buffered) :
    Sized w.writeDataBlock (written + (TableFile.BlockHeader.kHeaderSize + buffered)) 0 := by
  have held := sized.buffered
  cases buffer : w.dataBuffer with
  | nil =>
      rw [buffer] at held
      exact absurd held some.ne
  | cons first rest =>
      have cut : w.writeDataBlock =
          { w with blocks := w.blocks ++ [⟨first, rest⟩], dataBuffer := [], bufferBytes := 0 } := by
        simp only [SSTableWriter.writeDataBlock, buffer]
      have block : blockBytes ⟨first, rest⟩ = TableFile.BlockHeader.kHeaderSize + buffered := by
        rw [blockBytes, DataBlock.entries, ← buffer, held]
      rw [cut]
      refine ⟨?_, rfl, rfl⟩
      rw [fileSize, List.map_append, List.sum_append, List.map_singleton, List.sum_singleton, block]
      exact congrArg (· + _) sized.written

theorem Sized.add {w w' : SSTableWriter} {written buffered : Nat} (sized : Sized w written buffered)
    {entry : Entry} (added : w.add cmp options entry = .ok w') :
    if 0 < buffered ∧ options.blockSize ≤ buffered then
      Sized w' (written + (TableFile.BlockHeader.kHeaderSize + buffered)) (entryBytes entry)
    else Sized w' written (buffered + entryBytes entry) := by
  unfold SSTableWriter.add at added
  split at added <;> [cases added; skip]
  obtain rfl := Except.ok.inj added
  have full : shouldStartNewBlock options w = decide (options.blockSize ≤ buffered) := by
    rw [shouldStartNewBlock, sized.counted]
  rw [full]
  split
  · rename_i due
    rw [if_pos (decide_eq_true due.2)]
    have appended := (sized.writeDataBlock due.1).append entry
    rwa [Nat.zero_add] at appended
  · rename_i notDue
    by_cases large : options.blockSize ≤ buffered
    · -- An empty buffer makes no block.
      have zero : buffered = 0 := Nat.eq_zero_of_not_pos fun some => notDue ⟨some, large⟩
      subst zero
      have empty : w.dataBuffer = [] := by
        have held := sized.buffered
        cases buffer : w.dataBuffer with
        | nil => rfl
        | cons first rest =>
            have positive := entryBytes_pos first
            rw [buffer, List.map_cons, List.sum_cons] at held
            omega
      have same : w.writeDataBlock = w := by simp only [SSTableWriter.writeDataBlock, empty]
      rw [if_pos (decide_eq_true large), same]
      exact sized.append entry
    · rw [if_neg (by simpa using large)]
      exact sized.append entry

theorem outputLength_pos (options : SSTableWriterOptions) (positive : 0 < target) (size : Nat)
    (rest : List Nat) : 0 < outputLength options target 0 0 (size :: rest) := by
  rw [outputLength, if_pos positive, if_neg fun due => absurd due.1 (lt_irrefl 0)]
  exact Nat.succ_pos _

theorem fillOutput_spec {w : SSTableWriter} {written buffered : Nat} {es entries : List Entry}
    (wrote : Wrote cmp es w) (sized : Sized w written buffered)
    (ascending : (es ++ entries).Pairwise fun a b => cmp.compare a.1.encode b.1.encode = .lt) :
    let length := outputLength options target written buffered (entries.map entryBytes)
    ∃ w', fillOutput cmp options target w entries = (.ok w', entries.drop length) ∧
      Wrote cmp (es ++ entries.take length) w' := by
  induction entries generalizing w written buffered es with
  | nil => exact ⟨w, rfl, by rwa [List.take_nil, List.append_nil]⟩
  | cons entry rest ih =>
      have size := sized.written
      dsimp only
      rw [fillOutput, List.map_cons, outputLength, size]
      split
      · have inOrder : ¬ ∃ last ∈ w.lastKey, cmp.compare last.encode entry.1.encode ≠ .lt := by
          rintro ⟨last, found, notBefore⟩
          rw [wrote.lastKey] at found
          obtain ⟨e, final, rfl⟩ := Option.map_eq_some_iff.mp found
          exact notBefore ((List.pairwise_append.mp ascending).2.2 e
            (List.mem_of_getLast? final) entry (List.mem_cons_self ..))
        obtain ⟨next, added⟩ : ∃ next, w.add cmp options entry = .ok next := by
          rw [SSTableWriter.add, if_neg inOrder]
          exact ⟨_, rfl⟩
        have wrote' := wrote_add wrote added
        have sized' := sized.add added
        rw [added]
        rw [List.append_cons] at ascending
        split at sized'
        · rename_i due
          obtain ⟨w', filled, wrote''⟩ := ih wrote' sized' ascending
          rw [if_pos due, List.drop_succ_cons, List.take_succ_cons]
          exact ⟨w', filled, by rwa [List.append_assoc] at wrote''⟩
        · rename_i notDue
          obtain ⟨w', filled, wrote''⟩ := ih wrote' sized' ascending
          rw [if_neg notDue, List.drop_succ_cons, List.take_succ_cons]
          exact ⟨w', filled, by rwa [List.append_assoc] at wrote''⟩
      · exact ⟨w, rfl, by rwa [List.take_zero, List.append_nil]⟩

end Output

/-! ## All outputs -/

section Outputs
variable {cmp} {options} {target : Nat}

theorem cutsApart_nil (n : Nat) : CutsApart cmp options target n [] := by
  induction n with
  | zero => trivial
  | succ n ih => exact ⟨fun _ member => absurd member List.not_mem_nil, ih⟩

theorem keysBefore_flatMap {front : List Entry} {outputs : List SplitOutput} :
    KeysBefore cmp front (outputs.flatMap fun output => output.table.entries) ↔
      ∀ output ∈ outputs, KeysBefore cmp front output.table.entries := by
  unfold KeysBefore
  simp only [List.mem_flatMap]
  exact ⟨fun before output member a front b back => before a front b ⟨output, member, back⟩,
    fun before a front b ⟨output, member, back⟩ => before output member a front b back⟩

theorem splitLoop_spec (positive : 0 < target) (outputPrefix : List Char) (level : Nat) {n : Nat}
    {entries : List Entry} (bound : entries.length ≤ n)
    (ascending : entries.Pairwise fun a b => cmp.compare a.1.encode b.1.encode = .lt)
    (fileIndex : Nat) (result : SplitResult) :
    ∃ after more,
      splitLoop cmp options outputPrefix target level (n + 1) fileIndex entries result =
          some (.ok, after) ∧
        after.outputs = result.outputs ++ more ∧
        (more.flatMap fun output => output.table.entries) = entries ∧
        (∀ output ∈ more, output.table.entries ≠ []) ∧
        ((more.Pairwise fun a b => KeysBefore cmp a.table.entries b.table.entries) ↔
          CutsApart cmp options target n entries) := by
  induction n generalizing entries fileIndex result with
  | zero =>
      obtain rfl := List.eq_nil_of_length_eq_zero (Nat.le_zero.mp bound)
      exact ⟨result, [], rfl, (List.append_nil _).symm, rfl, by simp, by simp [CutsApart]⟩
  | succ n ih =>
      cases entries with
      | nil =>
          refine ⟨result, [], rfl, (List.append_nil _).symm, rfl, by simp, ?_⟩
          exact iff_of_true .nil (cutsApart_nil _)
      | cons entry rest =>
          have some := outputLength_pos options positive (SSTableWriter.entryBytes entry)
            (rest.map SSTableWriter.entryBytes)
          obtain ⟨w, filled, wrote⟩ := @fillOutput_spec cmp options target {} 0 0 [] (entry :: rest)
            SSTableWriter.wrote_empty sized_empty ascending
          rw [← List.map_cons] at some
          rw [CutsApart]
          revert some filled wrote
          generalize outputLength options target 0 0
            ((entry :: rest).map SSTableWriter.entryBytes) = length
          intro some filled wrote
          rw [List.nil_append] at wrote
          have shorter : ((entry :: rest).drop length).length ≤ n := by
            rw [List.length_drop]
            omega
          obtain ⟨after, more, returned, outputs, contents, nonempty, apart⟩ :=
            ih shorter (ascending.drop) (fileIndex + 1)
              { outputs := result.outputs ++ [⟨outputName outputPrefix fileIndex, w.finish 0, level⟩]
                numInputRecords :=
                  result.numInputRecords + ((entry :: rest).length - ((entry :: rest).drop length).length)
                numOutputRecords :=
                  result.numOutputRecords + ((entry :: rest).length - ((entry :: rest).drop length).length) }
          refine ⟨after, ⟨outputName outputPrefix fileIndex, w.finish 0, level⟩ :: more,
            ?_, ?_, ?_, ?_, ?_⟩
          · rw [splitLoop, filled]
            exact returned
          · rw [outputs, List.append_assoc, List.singleton_append]
          · rw [List.flatMap_cons, wrote.entries_finish, contents, List.take_append_drop]
          · refine List.forall_mem_cons.mpr ⟨?_, nonempty⟩
            rw [wrote.entries_finish]
            exact List.take_eq_nil_iff.not.mpr (by simp [some.ne'])
          · rw [List.pairwise_cons, apart, ← keysBefore_flatMap, contents, wrote.entries_finish]

theorem splitLoop_zero (outputPrefix : List Char) (level rounds fileIndex : Nat) (entry : Entry)
    (rest : List Entry) (result : SplitResult) :
    splitLoop cmp options outputPrefix 0 level rounds fileIndex (entry :: rest) result = none := by
  induction rounds generalizing fileIndex result with
  | zero => rfl
  | succ rounds ih => exact ih ..

theorem splitLoop_succ {outputPrefix : List Char} {level rounds fileIndex : Nat}
    {entries : List Entry} {result : SplitResult} {returned : Status × SplitResult}
    (ended : splitLoop cmp options outputPrefix target level rounds fileIndex entries result =
      some returned) :
    splitLoop cmp options outputPrefix target level (rounds + 1) fileIndex entries result =
      some returned := by
  induction rounds generalizing fileIndex entries result with
  | zero => cases ended
  | succ rounds ih =>
      cases entries with
      | nil => exact ended
      | cons entry rest =>
          rw [splitLoop] at ended ⊢
          revert ended
          rcases fillOutput cmp options target {} (entry :: rest) with ⟨_ | w, left⟩
          · exact id
          · exact fun ended => ih ended

theorem splitLoop_mono {outputPrefix : List Char} {level rounds fileIndex : Nat}
    {entries : List Entry} {result : SplitResult} {returned : Status × SplitResult}
    (ended : splitLoop cmp options outputPrefix target level rounds fileIndex entries result =
      some returned) (more : Nat) :
    splitLoop cmp options outputPrefix target level (rounds + more) fileIndex entries result =
      some returned := by
  induction more with
  | zero => exact ended
  | succ more ih => exact splitLoop_succ ih

end Outputs

/-- The split is right if and only if the target is positive and every cut is between user keys. -/
theorem splits_iff (outputPrefix : List Char) (target level : Nat) (input : CompactionInput cmp)
    (readable : input.Readable) :
    Splits cmp options outputPrefix target level input.table ↔
      0 < target ∧
        CutsApart cmp options target input.table.entries.length input.table.entries := by
  have opens : (input.table.readIndex cmp).isOk := by
    have opens := readable.1
    rw [CompactionInput.opens, Bool.and_eq_true] at opens
    exact opens.2
  have reads (rounds : Nat) :
      compactWithSplit cmp options outputPrefix target level rounds input.table =
        splitLoop cmp options outputPrefix target level rounds 0 input.table.entries {} := by
    rw [compactWithSplit, if_neg (not_not_intro opens)]
  unfold Splits
  simp only [reads]
  rcases Nat.eq_zero_or_pos target with rfl | positive
  · obtain ⟨entry, rest, some⟩ := List.exists_cons_of_ne_nil (entries_ne_nil_of_readIndex opens)
    rw [some]
    simp [splitLoop_zero]
  · obtain ⟨after, more, returned, outputs, contents, nonempty, apart⟩ :=
      @splitLoop_spec cmp options target positive outputPrefix level _ _ le_rfl input.ascending 0 {}
    rw [List.nil_append] at outputs
    rw [and_iff_right positive, ← apart, ← outputs]
    constructor
    · rintro ⟨rounds, result, ended, -, -, inOrder⟩
      have same := (splitLoop_mono ended (input.table.entries.length + 1)).symm.trans
        (Nat.add_comm .. ▸ splitLoop_mono returned rounds)
      obtain rfl : result = after := by simpa using same
      exact inOrder
    · intro inOrder
      rw [← outputs] at contents nonempty
      exact ⟨_, after, returned, contents, nonempty, inOrder⟩

def threeVersions : CompactionInput bytewiseComparator where
  table :=
    ⟨⟨1, [107], [107]⟩,
      [⟨(.make [107] 1 .kValue, [1]), [(.make [107] 2 .kValue, [2]), (.make [107] 3 .kValue, [3])]⟩],
      none⟩
  ascending := by decide +kernel

theorem splits_iff_threeVersions :
    Splits bytewiseComparator {} [] 1 0 threeVersions.table ↔
      0 < 1 ∧ CutsApart bytewiseComparator {} 1 threeVersions.table.entries.length
        threeVersions.table.entries :=
  splits_iff bytewiseComparator {} [] 1 0 threeVersions (by decide +kernel)

theorem splits_fails_targetZero : ¬ ∀ (cmp : Comparator) (outputPrefix : List Char) (target level : Nat)
    (input : CompactionInput cmp), input.Readable → Splits cmp {} outputPrefix target level input.table := by
  intro always
  obtain ⟨rounds, result, ended, -⟩ := always bytewiseComparator [] 0 0 threeVersions (by decide +kernel)
  rw [compactWithSplit, if_neg (by decide +kernel)] at ended
  have never := @splitLoop_zero bytewiseComparator {} [] 0 rounds 0 (.make [107] 1 .kValue, [1])
    [(.make [107] 2 .kValue, [2]), (.make [107] 3 .kValue, [3])] {}
  cases never.symm.trans ended

end SSTableCompactor
end Lrdb
