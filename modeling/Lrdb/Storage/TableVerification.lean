import Lrdb.Storage.DamagedTable
import Lrdb.Storage.OpenedTable
import Lrdb.Util.Crc32

/-!
# Verifying a table

`VerifyChecksum` is the only reader of a data block that compares it with the checksum in its header.
It accepts what the writer has written, and refuses every block that a burst has changed.
-/

namespace Lrdb
namespace TableFile
open Parsing Records

namespace SSTableReader
variable (reader : SSTableReader)

/-- One round of `VerifyChecksum`. -/
def verifyBlock (entry : IndexEntry) : Status :=
  let (status, data) := reader.readDataBlock entry.blockOffset entry.blockSize []
  if ¬ status.isOk then status
  else if entry.blockSize < BlockHeader.kHeaderSize then .corruption "Block too small"
  else
    match read reader.file entry.blockOffset BlockHeader.kHeaderSize with
    | .error status => status
    | .ok bytes =>
        match BlockHeader.decode bytes with
        | none => .corruption "Failed to decode block header"
        | some header =>
            if (crc32 data).toNat ≠ header.crc32 then .corruption "Block checksum mismatch" else .ok

def verifyBlocks : List IndexEntry → Status
  | [] => .ok
  | entry :: rest =>
      let status := reader.verifyBlock entry
      if status.isOk then verifyBlocks rest else status

def verifyChecksum : Status := reader.verifyBlocks reader.index

/-- The rounds of `VerifyCompactionResult` over one file, and what they say when the keys are out of
order. -/
def verifyKeys (order : Bytes → Bytes → Ordering) (complaint : Status) :
    Nat → SSTableIterator → Bytes → Option Status
  | 0, _, _ => none
  | rounds + 1, it, lastKey =>
      if it.isValid reader then
        if ¬ lastKey.isEmpty ∧ order lastKey (it.key reader) ≠ .lt then some complaint
        else verifyKeys order complaint rounds (it.next reader) (it.key reader)
      else some it.status

end SSTableReader

/-- `VerifyCompactionResult` on the files that a compaction names. A scan takes as many rounds as the
file has entries, and one. -/
def verifyOutputs (order : Bytes → Bytes → Ordering) (rounds : Nat) : List (String × Bytes) → Option Status
  | [] => some .ok
  | (name, file) :: rest =>
      match SSTableReader.openFile order name.toUTF8.toList file with
      | .error _ => some (.corruption ("Failed to open output file: " ++ name))
      | .ok reader =>
          if ¬ reader.verifyChecksum.isOk then
            some (.corruption ("Checksum verification failed: " ++ name))
          else
            match reader.verifyKeys order (.corruption ("Keys not in order in file: " ++ name)) rounds
              (SSTableIterator.seekToFirst reader {}) [] with
            | none => none
            | some status => if status.isOk then verifyOutputs order rounds rest else some status

def verifyCompactionResult (order : Bytes → Bytes → Ordering) (rounds : Nat) (result : Status)
    (outputs : List (String × Bytes)) : Option Status :=
  if result.isOk then verifyOutputs order rounds outputs else some result

/-! ## Headers of written blocks -/

structure HeaderOf (file : Bytes) (entry : IndexEntry) (data : Bytes) : Prop where
  inside : entry.blockOffset + BlockHeader.kHeaderSize ≤ file.length
  header : (file.drop entry.blockOffset).take BlockHeader.kHeaderSize = (headerOf .kDataBlock data).encode

theorem HeaderOf.append {file data : Bytes} {entry : IndexEntry} (has : HeaderOf file entry data)
    (more : Bytes) : HeaderOf (file ++ more) entry data where
  inside := has.inside.trans (by simp)
  header := by
    have inside := has.inside
    rw [List.drop_append_of_le_length (by omega), List.take_append_of_le_length, has.header]
    rw [List.length_drop]
    omega

namespace SSTableWriter
variable {w w' : SSTableWriter} {blocks : List (List (Bytes × Value))}
  {pending : List (Bytes × Value)} {order : Bytes → Bytes → Ordering}

def Headed (w : SSTableWriter) (blocks : List (List (Bytes × Value))) : Prop :=
  List.Forall₂ (fun entry block => HeaderOf w.file entry (blockBytes block))
    (w.indexEntries.take blocks.length) blocks

theorem Headed.writeDataBlock (stores : Stores w blocks pending) (headed : Headed w blocks)
    (success : w.writeDataBlock = .ok w') :
    Headed w' (if pending = [] then blocks else blocks ++ [pending]) := by
  unfold SSTableWriter.writeDataBlock at success
  cases pending with
  | nil =>
      have empty : (blockBytes []).isEmpty := rfl
      rw [stores.buffer, if_pos empty] at success
      obtain rfl := Except.ok.inj success
      rwa [if_pos rfl]
  | cons e more =>
      have filled : ¬ (blockBytes (e :: more)).isEmpty := by
        rw [List.isEmpty_iff, blockBytes_eq_nil]
        simp
      rw [stores.buffer, if_neg filled] at success
      obtain ⟨file, written, same⟩ := ok_of_bind success
      obtain rfl := Except.ok.inj same
      obtain rfl := writeBlock_file written
      obtain ⟨done, earlier, index⟩ := stores.index
      have count := earlier.length_eq
      rw [Headed, index, ← count, List.take_left] at headed
      rw [if_neg (List.cons_ne_nil e more), Headed]
      simp only [index, List.head?_cons, Option.toList_some, List.map_cons, List.map_nil, sizeLast_append,
        List.length_append, List.length_singleton, ← count]
      rw [List.take_of_length_le (by simp)]
      apply List.rel_append
      · exact headed.imp fun _ _ block => block.append _
      · refine List.Forall₂.cons ⟨?_, ?_⟩ List.Forall₂.nil
        · simp
        · simp only [List.drop_left]
          rw [← BlockHeader.length_encode (headerOf .kDataBlock (blockBytes (e :: more))), List.take_left]

theorem Headed.store (stores : Stores w blocks pending) (headed : Headed w blocks) (key : Bytes)
    (value : Value) : Headed (w.store key value) blocks := by
  obtain ⟨done, earlier, index⟩ := stores.index
  have enough : blocks.length ≤ w.indexEntries.length := by
    rw [index, List.length_append, ← earlier.length_eq]
    exact Nat.le_add_right ..
  have same : (w.store key value).indexEntries.take blocks.length = w.indexEntries.take blocks.length := by
    simp only [SSTableWriter.store, startBlock]
    split
    · exact List.take_append_of_le_length enough
    · rfl
  have file : (w.store key value).file = w.file := by
    simp only [SSTableWriter.store, startBlock]
    split <;> rfl
  rwa [Headed, same, file]

theorem Headed.add (stores : Stores w blocks pending) (headed : Headed w blocks) {key : Bytes}
    {value : Value} (added : w.add order key value = .ok w') :
    ∃ blocks' pending', Stores w' blocks' pending' ∧ Headed w' blocks' := by
  unfold SSTableWriter.add at added
  split at added <;> [cases added; skip]
  split at added <;> [cases added; skip]
  obtain ⟨middle, cut, same⟩ := ok_of_bind added
  obtain rfl := Except.ok.inj same
  unfold cutBlock at cut
  split at cut
  · have stored := stores.writeDataBlock cut
    exact ⟨_, _, stored.store key value, (headed.writeDataBlock stores cut).store stored key value⟩
  · obtain rfl := Except.ok.inj cut
    exact ⟨_, _, stores.store key value, headed.store stores key value⟩

theorem Headed.addAll (stores : Stores w blocks pending) (headed : Headed w blocks)
    {entries : List (Bytes × Value)} (added : w.addAll order entries = .ok w') :
    ∃ blocks' pending', Stores w' blocks' pending' ∧ Headed w' blocks' := by
  induction entries generalizing w blocks pending with
  | nil =>
      obtain rfl := Except.ok.inj added
      exact ⟨_, _, stores, headed⟩
  | cons e rest ih =>
      obtain ⟨middle, first, added⟩ := ok_of_bind added
      obtain ⟨blocks', pending', stores', headed'⟩ := headed.add stores first
      exact ih stores' headed' added

def Ascends (order : Bytes → Bytes → Ordering) : Bytes → List (Bytes × Value) → Prop
  | _, [] => True
  | last, e :: rest => (last ≠ [] → order last e.1 = .lt) ∧ Ascends order e.1 rest

theorem ascends_of_addAll {entries : List (Bytes × Value)} (added : w.addAll order entries = .ok w') :
    Ascends order w.lastKey entries := by
  induction entries generalizing w with
  | nil => trivial
  | cons e rest ih =>
      obtain ⟨middle, first, added⟩ := ok_of_bind added
      have later := ih added
      unfold SSTableWriter.add at first
      split at first <;> [cases first; skip]
      split at first <;> [cases first; rename_i ordered]
      obtain ⟨cut, _, same⟩ := ok_of_bind first
      obtain rfl := Except.ok.inj same
      refine ⟨fun nonempty => ?_, later⟩
      by_contra notBelow
      exact ordered ⟨by simpa using nonempty, notBelow⟩

end SSTableWriter

/-! ## Verifying -/

structure Sealed (file : Bytes) (entry : IndexEntry) : Prop where
  lies : Lies file entry
  header : HeaderOf file entry (blockContent file entry)

open TableFile.SSTableWriter

namespace SSTableReader
variable {reader : SSTableReader} {entry : IndexEntry} {data name : Bytes}
  {order : Bytes → Bytes → Ordering}

theorem verifyBlock_of_header (lies : Lies reader.file entry) (sized : reader.file.length ≤ maxFileSize)
    (header : HeaderOf reader.file entry data) : reader.verifyBlock entry =
      if crc32 (blockContent reader.file entry) = crc32 data then .ok
      else .corruption "Block checksum mismatch" := by
  have filled := lies.filled
  have inside := header.inside
  have found : read reader.file entry.blockOffset BlockHeader.kHeaderSize =
      .ok (headerOf .kDataBlock data).encode := by
    rw [read, if_neg (by omega), header.header]
  have checked : (crc32 (blockContent reader.file entry)).toNat ≠ (headerOf .kDataBlock data).crc32 ↔
      ¬ crc32 (blockContent reader.file entry) = crc32 data := not_congr UInt32.toNat_inj
  rw [verifyBlock, readDataBlock_of_lies lies sized]
  dsimp only
  rw [if_neg (by simp [Status.isOk, Status.ok]), if_neg (by omega), found]
  simp only [decode_headerOf, checked, ite_not]

theorem verifyBlock_cases (lies : Lies reader.file entry) (sized : reader.file.length ≤ maxFileSize) :
    (reader.verifyBlock entry).isOk ∨ (reader.verifyBlock entry).isCorruption := by
  have filled := lies.filled
  have inside := lies.inside
  have found : read reader.file entry.blockOffset BlockHeader.kHeaderSize =
      .ok ((reader.file.drop entry.blockOffset).take BlockHeader.kHeaderSize) := by
    rw [read, if_neg (by omega)]
  rw [verifyBlock, readDataBlock_of_lies lies sized]
  dsimp only
  rw [if_neg (by simp [Status.isOk, Status.ok]), if_neg (by omega), found]
  dsimp only
  split
  · exact .inr rfl
  · split
    · exact .inr rfl
    · exact .inl rfl

theorem verifyBlocks_isOk {entries : List IndexEntry} (fine : ∀ e ∈ entries, (reader.verifyBlock e).isOk) :
    (reader.verifyBlocks entries).isOk := by
  induction entries with
  | nil => rfl
  | cons e rest ih =>
      obtain ⟨first, later⟩ := List.forall_mem_cons.mp fine
      rw [verifyBlocks, if_pos first]
      exact ih later

theorem verifyBlocks_isCorruption {entries : List IndexEntry}
    (cases : ∀ e ∈ entries, (reader.verifyBlock e).isOk ∨ (reader.verifyBlock e).isCorruption)
    (member : entry ∈ entries) (bad : ¬ (reader.verifyBlock entry).isOk) :
    (reader.verifyBlocks entries).isCorruption := by
  induction entries with
  | nil => cases member
  | cons e rest ih =>
      obtain ⟨first, later⟩ := List.forall_mem_cons.mp cases
      rw [verifyBlocks]
      by_cases fine : (reader.verifyBlock e).isOk
      · rw [if_pos fine]
        rcases List.mem_cons.mp member with rfl | member
        · exact absurd fine bad
        · exact ih later member
      · rw [if_neg fine]
        exact first.resolve_left fine

/-! ### Written tables -/

theorem exists_headed_of_mem {file : Bytes} {entries : List IndexEntry}
    {blocks : List (List (Bytes × Value))} (written : List.Forall₂ (WrittenBlock file) entries blocks)
    (headers : List.Forall₂ (fun entry block => HeaderOf file entry (blockBytes block)) entries blocks)
    (member : entry ∈ entries) :
    ∃ block, WrittenBlock file entry block ∧ HeaderOf file entry (blockBytes block) := by
  induction written with
  | nil => cases member
  | cons here _ ih =>
      obtain ⟨header, later⟩ := List.forall₂_cons.mp headers
      rcases List.mem_cons.mp member with rfl | member
      · exact ⟨_, here, header⟩
      · exact ih later member

theorem sealed_of_written {options : SSTableWriterOptions} {filename : Bytes} {now : Nat}
    {entries : List (Bytes × Value)} {closing : Status} {start added finished : SSTableWriter}
    (opened : SSTableWriter.openFile options filename now = .ok start)
    (adds : start.addAll order entries = .ok added) (finishes : added.finish closing = .ok finished)
    (small : finished.file.length < uint32Limit)
    (opens : openFile order name finished.file = .ok reader) :
    reader.file.length ≤ maxFileSize ∧ ∀ entry ∈ reader.index, Sealed reader.file entry := by
  have kept : Kept (0 + entries.length) added := (kept_openFile opened).addAll adds
  obtain ⟨blocks, pending, stores, headed⟩ :=
    Headed.addAll (stores_openFile opened) (List.Forall₂.nil : Headed start []) adds
  obtain ⟨data, index, bloom, last, steps⟩ := finish_steps finishes
  obtain ⟨reads, same, filled⟩ := index_eq_of_steps kept stores steps small opens
  obtain ⟨header, more, -, whole, -⟩ := index_of_steps kept steps filled
  have written := written_of_steps stores steps
  have headers := headed.writeDataBlock stores steps.cut
  rw [Headed, List.take_of_length_le written.length_eq.le] at headers
  have limits : uint32Limit ≤ maxFileSize := by decide
  refine ⟨by rw [reads]; omega, fun entry member => ?_⟩
  obtain ⟨block, inFile, header'⟩ := exists_headed_of_mem written headers (same ▸ member)
  have longer : reader.file = data.file ++ (header ++ indexData data.indexEntries ++ more) := by
    rw [reads, whole, List.append_assoc]
  have inFile : WrittenBlock reader.file entry block := longer ▸ inFile.append _
  have content : blockContent reader.file entry = blockBytes block := by
    rw [blockContent, size_of_written inFile (reads ▸ small), Nat.add_sub_cancel_left, inFile.content]
  refine ⟨lies_of_written inFile (reads ▸ small), ?_⟩
  rw [content, longer]
  exact header'.append _

/-! ### Damage -/

theorem header_damaged (entry : IndexEntry) (sealed : Sealed reader.file entry)
    (fits : BlockHeader.kHeaderSize + data.length = entry.blockSize) :
    HeaderOf (reader.damaged entry data).file entry (blockContent reader.file entry) := by
  have inside := sealed.lies.inside
  refine ⟨?_, ?_⟩
  · rw [length_damaged sealed.lies fits]
    exact sealed.header.inside
  · have room : (reader.file.take (entry.blockOffset + BlockHeader.kHeaderSize)).length =
        entry.blockOffset + BlockHeader.kHeaderSize := List.length_take_of_le sealed.header.inside
    rw [damaged, overwrite, List.append_assoc, List.drop_append_of_le_length (by omega),
      List.take_append_of_le_length (by rw [List.length_drop]; omega), List.drop_take,
      Nat.add_sub_cancel_left, List.take_take, Nat.min_self]
    exact sealed.header.header

theorem verifyChecksum_damaged (sized : reader.file.length ≤ maxFileSize)
    (intact : ∀ entry ∈ reader.index, Sealed reader.file entry) (member : entry ∈ reader.index)
    (fits : BlockHeader.kHeaderSize + data.length = entry.blockSize)
    (changed : crc32 data ≠ crc32 (blockContent reader.file entry)) :
    (reader.damaged entry data).verifyChecksum.isCorruption := by
  have sealed := intact entry member
  have sized' := (length_damaged sealed.lies fits).trans_le sized
  have lies (other : IndexEntry) (inside : other ∈ reader.index) :
      Lies (reader.damaged entry data).file other :=
    lies_damaged sealed.lies fits (intact other inside).lies
  have content : blockContent (reader.damaged entry data).file entry = data := by
    have inside := sealed.lies.inside
    rw [blockContent, ← fits, Nat.add_sub_cancel_left]
    exact take_overwrite (by omega)
  refine verifyBlocks_isCorruption (fun other inside => verifyBlock_cases (lies other inside) sized') member ?_
  rw [verifyBlock_of_header (lies entry member) sized' (header_damaged entry sealed fits), content,
    if_neg changed]
  simp [Status.isOk, Status.corruption]

section
variable {options : SSTableWriterOptions} {filename : Bytes} {now : Nat} {entries : List (Bytes × Value)}
  {closing : Status} {start added finished : SSTableWriter}

theorem verifyChecksum_written (opened : SSTableWriter.openFile options filename now = .ok start)
    (adds : start.addAll order entries = .ok added) (finishes : added.finish closing = .ok finished)
    (small : finished.file.length < uint32Limit)
    (opens : openFile order name finished.file = .ok reader) : reader.verifyChecksum.isOk := by
  obtain ⟨sized, intact⟩ := sealed_of_written opened adds finishes small opens
  apply verifyBlocks_isOk
  intro entry member
  have sealed := intact entry member
  rw [verifyBlock_of_header sealed.lies sized sealed.header, if_pos rfl]
  rfl

theorem verifyChecksum_damage (opened : SSTableWriter.openFile options filename now = .ok start)
    (adds : start.addAll order entries = .ok added) (finishes : added.finish closing = .ok finished)
    (small : finished.file.length < uint32Limit)
    (opens : openFile order name finished.file = .ok reader) (member : entry ∈ reader.index)
    (length : data.length = (blockContent reader.file entry).length)
    (change : Burst data (blockContent reader.file entry) ∨
      crc32 data ≠ crc32 (blockContent reader.file entry)) :
    openFile order name (reader.damaged entry data).file = .ok (reader.damaged entry data) ∧
      (reader.damaged entry data).verifyChecksum.isCorruption := by
  obtain ⟨sized, intact⟩ := sealed_of_written opened adds finishes small opens
  have sealed := intact entry member
  have filled := sealed.lies.filled
  have fits : BlockHeader.kHeaderSize + data.length = entry.blockSize := by
    rw [length, sealed.lies.length_blockContent]
    omega
  have changed : crc32 data ≠ crc32 (blockContent reader.file entry) := by
    rcases change with burst | changed
    · have tells := crc32_ne_of_burst burst [] []
      simpa using tells
    · exact changed
  obtain ⟨b, here⟩ := List.getElem?_of_mem member
  exact ⟨(opens_damaged opened adds finishes small opens here fits).2.2,
    verifyChecksum_damaged sized intact member fits changed⟩

end

/-- A table of less than 2^32 bytes that was written and opens passes. With a burst of up to 32 bits in a
block, or any change that the checksum of the block shows, it opens as before and is reported. -/
theorem verifyChecksum_tells {options : SSTableWriterOptions} {filename : Bytes} {now : Nat}
    {entries : List (Bytes × Value)} {closing : Status} {start added finished : SSTableWriter}
    (opened : SSTableWriter.openFile options filename now = .ok start)
    (adds : start.addAll order entries = .ok added) (finishes : added.finish closing = .ok finished)
    (small : finished.file.length < uint32Limit)
    (opens : openFile order name finished.file = .ok reader) :
    reader.verifyChecksum.isOk ∧ ∀ entry ∈ reader.index, ∀ data : Bytes,
      data.length = (blockContent reader.file entry).length →
        Burst data (blockContent reader.file entry) ∨ crc32 data ≠ crc32 (blockContent reader.file entry) →
          openFile order name (reader.damaged entry data).file = .ok (reader.damaged entry data) ∧
            (reader.damaged entry data).verifyChecksum.isCorruption := by
  refine ⟨verifyChecksum_written opened adds finishes small opens, ?_⟩
  intro entry member data length change
  exact verifyChecksum_damage opened adds finishes small opens member length change

theorem verifyChecksum_tells_twoEntries : ∃ finished reader entry,
    tableOf twoEntries = .ok finished ∧
      openFile bytewiseCompare [98] finished.file = .ok reader ∧ reader.verifyChecksum.isOk ∧
        (reader.damaged entry flippedBlock).verifyChecksum.isCorruption := by
  obtain ⟨start, added, finished, reader, entry, opened, adds, finishes, small, opens, here, content,
    fits, changed, -⟩ := damage_twoEntries
  obtain ⟨passes, reports⟩ := verifyChecksum_tells opened adds finishes small opens
  refine ⟨finished, reader, entry, (tableOf_eq_finish opened adds).trans finishes, opens, passes, ?_⟩
  refine (reports entry (List.mem_of_getElem? here) flippedBlock ?_ (.inr (content ▸ changed))).2
  rw [content]
  simp [flippedBlock]

/-! ## Compactions -/

theorem verifyKeys_of_walks {complaint : Status} {entries : List (Bytes × Value)} {it : SSTableIterator}
    {last : Bytes} (walks : SSTableIterator.Walks reader entries it)
    (ascends : SSTableWriter.Ascends order last entries) {rounds : Nat} (enough : entries.length < rounds) :
    reader.verifyKeys order complaint rounds it last =
      some ((SSTableIterator.next reader)^[entries.length] it).status := by
  induction entries generalizing it last rounds with
  | nil =>
      obtain ⟨rounds, rfl⟩ := Nat.exists_eq_succ_of_ne_zero enough.ne'
      have invalid : it.isValid reader = false := walks
      simp [verifyKeys, invalid]
  | cons e rest ih =>
      obtain ⟨rounds, rfl⟩ := Nat.exists_eq_succ_of_ne_zero (Nat.ne_zero_of_lt enough)
      obtain ⟨valid, here, later⟩ := walks
      have key : it.key reader = e.1 := congrArg Prod.fst here
      have ordered : ¬ (¬ last.isEmpty ∧ order last (it.key reader) ≠ .lt) := by
        rintro ⟨nonempty, above⟩
        exact above (key ▸ ascends.1 (by simpa using nonempty))
      rw [verifyKeys, if_pos valid, if_neg ordered, key]
      exact ih later ascends.2 (Nat.lt_of_succ_lt_succ enough)

theorem walks_of_verifyKeys {complaint : Status} (refuses : ¬ complaint.isOk) {rounds : Nat}
    {it : SSTableIterator} {last : Bytes} {status : Status}
    (verified : reader.verifyKeys order complaint rounds it last = some status) (fine : status.isOk) :
    ∃ entries, SSTableIterator.Walks reader entries it ∧ SSTableWriter.Ascends order last entries ∧
      ((SSTableIterator.next reader)^[entries.length] it).status = status := by
  induction rounds generalizing it last with
  | zero => cases verified
  | succ rounds ih =>
      rw [verifyKeys] at verified
      split at verified
      · rename_i valid
        split at verified
        · obtain rfl := Option.some.inj verified
          exact absurd fine refuses
        · rename_i ordered
          obtain ⟨entries, walks, ascends, ends⟩ := ih verified
          refine ⟨(it.key reader, it.value reader) :: entries, ⟨valid, rfl, walks⟩, ⟨?_, ascends⟩, ends⟩
          intro nonempty
          by_contra above
          exact ordered ⟨by simpa using nonempty, above⟩
      · rename_i invalid
        exact ⟨[], by simpa [SSTableIterator.Walks] using invalid, trivial, Option.some.inj verified⟩

end SSTableReader

def Verified (order : Bytes → Bytes → Ordering) (name : String) (file : Bytes) : Prop :=
  ∃ reader, SSTableReader.openFile order name.toUTF8.toList file = .ok reader ∧
    reader.verifyChecksum.isOk ∧ ∃ entries, SSTableWriter.Ascends order [] entries ∧
      SSTableIterator.Walks reader entries (SSTableIterator.seekToFirst reader {}) ∧
      ((SSTableIterator.next reader)^[entries.length] (SSTableIterator.seekToFirst reader {})).status.isOk

theorem verifyOutputs_of_verified {order : Bytes → Bytes → Ordering} {outputs : List (String × Bytes)}
    (verified : ∀ output ∈ outputs, Verified order output.1 output.2) :
    ∃ enough, ∀ rounds, enough ≤ rounds → verifyOutputs order rounds outputs = some .ok := by
  induction outputs with
  | nil => exact ⟨0, fun _ _ => rfl⟩
  | cons output rest ih =>
      obtain ⟨first, later⟩ := List.forall_mem_cons.mp verified
      obtain ⟨reader, opens, checked, entries, ascends, walks, ends⟩ := first
      obtain ⟨enough, passes⟩ := ih later
      refine ⟨max enough (entries.length + 1), fun rounds le => ?_⟩
      have more : entries.length < rounds := Nat.lt_of_succ_le ((Nat.le_max_right ..).trans le)
      rw [verifyOutputs, opens]
      dsimp only
      rw [if_neg (not_not.mpr checked), SSTableReader.verifyKeys_of_walks walks ascends more]
      dsimp only
      rw [if_pos ends]
      exact passes rounds ((Nat.le_max_left ..).trans le)

theorem verified_of_verifyOutputs {order : Bytes → Bytes → Ordering} {rounds : Nat}
    {outputs : List (String × Bytes)} {status : Status}
    (passes : verifyOutputs order rounds outputs = some status) (fine : status.isOk) :
    ∀ output ∈ outputs, Verified order output.1 output.2 := by
  have refuses (text : String) : ¬ (Status.corruption text).isOk := by
    simp [Status.isOk, Status.corruption]
  induction outputs with
  | nil => simp
  | cons output rest ih =>
      rw [verifyOutputs] at passes
      split at passes
      · obtain rfl := Option.some.inj passes
        exact absurd fine (refuses _)
      · rename_i reader opens
        split at passes
        · obtain rfl := Option.some.inj passes
          exact absurd fine (refuses _)
        · rename_i checked
          split at passes
          · cases passes
          · rename_i result scanned
            split at passes
            · rename_i ends
              obtain ⟨entries, walks, ascends, same⟩ :=
                SSTableReader.walks_of_verifyKeys (refuses _) scanned ends
              refine List.forall_mem_cons.mpr ⟨?_, ih passes⟩
              exact ⟨reader, opens, not_not.mp checked, entries, ascends, walks, same ▸ ends⟩
            · rename_i ends
              obtain rfl := Option.some.inj passes
              exact absurd fine ends

/-- `VerifyCompactionResult` returns OK for exactly the results that are OK and name verified files. -/
theorem verifyCompactionResult_isOk_iff (order : Bytes → Bytes → Ordering) (result : Status)
    (outputs : List (String × Bytes)) :
    (∃ rounds status, verifyCompactionResult order rounds result outputs = some status ∧ status.isOk) ↔
      result.isOk ∧ ∀ output ∈ outputs, Verified order output.1 output.2 := by
  unfold verifyCompactionResult
  by_cases success : result.isOk
  · simp only [success, if_true, true_and]
    refine ⟨fun ⟨rounds, status, passes, fine⟩ => verified_of_verifyOutputs passes fine, fun verified => ?_⟩
    obtain ⟨enough, passes⟩ := verifyOutputs_of_verified verified
    exact ⟨enough, .ok, passes enough le_rfl, rfl⟩
  · simp only [success, if_false, false_and, iff_false, Bool.false_eq_true]
    rintro ⟨rounds, status, same, fine⟩
    obtain rfl := Option.some.inj same
    exact success fine

theorem verified_of_written {order : Bytes → Bytes → Ordering} {options : SSTableWriterOptions}
    {filename : Bytes} {now : Nat} {entries : List (Bytes × Value)} {closing : Status}
    {start added finished : SSTableWriter} {name : String} {reader : SSTableReader}
    (opened : SSTableWriter.openFile options filename now = .ok start)
    (adds : start.addAll order entries = .ok added) (finishes : added.finish closing = .ok finished)
    (small : finished.file.length < uint32Limit)
    (opens : SSTableReader.openFile order name.toUTF8.toList finished.file = .ok reader) :
    Verified order name finished.file := by
  have lastKey : start.lastKey = [] := by
    unfold SSTableWriter.openFile at opened
    split at opened <;> [skip; cases opened]
    obtain rfl := Except.ok.inj opened
    rfl
  obtain ⟨blocks, flat, reads, filled, written⟩ :=
    SSTableReader.blocks_of_written opened adds finishes small opens
  obtain ⟨has, holds⟩ := SSTableReader.contents_of_written reads small written
  have nonempty : blocks.map blockBytes ≠ [] := by
    rw [ne_eq, List.map_eq_nil_iff]
    intro empty
    rw [empty] at written
    exact filled (List.forall₂_nil_right_iff.mp written)
  obtain ⟨walks, ends⟩ := SSTableIterator.walks_seekToFirst has holds nonempty {}
  rw [flat] at walks ends
  exact ⟨reader, opens, SSTableReader.verifyChecksum_written opened adds finishes small opens, entries,
    lastKey ▸ SSTableWriter.ascends_of_addAll adds, walks, congrArg Status.isOk ends⟩

def Produced (order : Bytes → Bytes → Ordering) (name : String) (file : Bytes)
    (reader : SSTableReader) : Prop :=
  ∃ (options : SSTableWriterOptions) (filename : Bytes) (now : Nat) (entries : List (Bytes × Value))
    (closing : Status) (start added finished : SSTableWriter),
    SSTableWriter.openFile options filename now = .ok start ∧ start.addAll order entries = .ok added ∧
      added.finish closing = .ok finished ∧ finished.file.length < uint32Limit ∧ finished.file = file ∧
        SSTableReader.openFile order name.toUTF8.toList file = .ok reader

theorem Produced.verified {order : Bytes → Bytes → Ordering} {name : String} {file : Bytes}
    {reader : SSTableReader} (whole : Produced order name file reader) : Verified order name file := by
  obtain ⟨options, filename, now, entries, closing, start, added, finished, opened, adds, finishes, small,
    rfl, opens⟩ := whole
  exact verified_of_written opened adds finishes small opens

/-- Files from the writer that open are accepted, however many a compaction has named. With a burst of up
to 32 bits, or any change that the checksum shows, in a block of one of them the result is refused. -/
theorem verifyCompactionResult_tells {order : Bytes → Bytes → Ordering} {outputs : List (String × Bytes)}
    (produced : ∀ output ∈ outputs, ∃ reader, Produced order output.1 output.2 reader) :
    (∃ rounds status, verifyCompactionResult order rounds .ok outputs = some status ∧ status.isOk) ∧
      ∀ (before after : List (String × Bytes)) (name : String) (file : Bytes) (reader : SSTableReader),
        outputs = before ++ (name, file) :: after → Produced order name file reader →
          ∀ entry ∈ reader.index, ∀ data : Bytes,
            data.length = (blockContent reader.file entry).length →
              Burst data (blockContent reader.file entry) ∨
                crc32 data ≠ crc32 (blockContent reader.file entry) →
                ¬ ∃ rounds status, verifyCompactionResult order rounds .ok
                    (before ++ (name, (reader.damaged entry data).file) :: after) = some status ∧
                  status.isOk := by
  refine ⟨(verifyCompactionResult_isOk_iff ..).mpr ⟨rfl, fun output member => ?_⟩, ?_⟩
  · obtain ⟨reader, whole⟩ := produced output member
    exact whole.verified
  · intro before after name file reader _ whole entry member data length change accepted
    obtain ⟨options, filename, now, entries, closing, start, added, finished, opened, adds, finishes,
      small, rfl, opens⟩ := whole
    have tells := SSTableReader.verifyChecksum_damage opened adds finishes small opens member length change
    obtain ⟨-, verified⟩ := (verifyCompactionResult_isOk_iff ..).mp accepted
    obtain ⟨again, opens', checked, -⟩ := verified (name, (reader.damaged entry data).file) (by simp)
    obtain rfl := Except.ok.inj (tells.1.symm.trans opens')
    have both := (beq_iff_eq.mp checked).symm.trans (beq_iff_eq.mp tells.2)
    cases both

theorem produced_twoEntries : ∃ file reader entry, Produced bytewiseCompare "b" file reader ∧
    entry ∈ reader.index ∧ blockContent reader.file entry = twoEntriesBlock := by
  obtain ⟨start, added, finished, reader, entry, opened, adds, finishes, small, opens, here, content, -⟩ :=
    damage_twoEntries
  have name : "b".toUTF8.toList = [98] := by decide +kernel
  rw [← name] at opens
  exact ⟨finished.file, reader, entry, ⟨_, _, _, _, _, _, _, _, opened, adds, finishes, small, rfl, opens⟩,
    List.mem_of_getElem? here, content⟩

theorem verifyCompactionResult_tells_twoEntries : ∃ file reader entry,
    Produced bytewiseCompare "b" file reader ∧
      (∃ rounds status, verifyCompactionResult bytewiseCompare rounds .ok [("b", file), ("b", file)] =
        some status ∧ status.isOk) ∧
      ¬ ∃ rounds status, verifyCompactionResult bytewiseCompare rounds .ok
        [("b", file), ("b", (reader.damaged entry flippedBlock).file)] = some status ∧ status.isOk := by
  obtain ⟨file, reader, entry, produced, member, content⟩ := produced_twoEntries
  have changed : crc32 flippedBlock ≠ crc32 twoEntriesBlock := by decide +kernel
  obtain ⟨passes, refuses⟩ := @verifyCompactionResult_tells bytewiseCompare
    [("b", file), ("b", file)] (by simpa using ⟨reader, produced⟩)
  refine ⟨file, reader, entry, produced, passes, ?_⟩
  refine refuses [("b", file)] [] "b" file reader rfl produced entry member flippedBlock ?_
    (.inr (content ▸ changed))
  rw [content]
  simp [flippedBlock]

end TableFile
end Lrdb
