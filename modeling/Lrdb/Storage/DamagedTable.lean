import Lrdb.Storage.BlockDamage

namespace Lrdb
namespace TableFile
open Records

/-! ## Replacing a part of a file -/

def overwrite (file : Bytes) (place : Nat) (data : Bytes) : Bytes :=
  file.take place ++ data ++ file.drop (place + data.length)

section Overwrite
variable {file data : Bytes} {place : Nat} (inside : place + data.length ≤ file.length)
include inside

theorem length_overwrite : (overwrite file place data).length = file.length := by
  simp only [overwrite, List.length_append, List.length_take, List.length_drop]
  omega

theorem take_overwrite : ((overwrite file place data).drop place).take data.length = data := by
  have length : (file.take place).length = place := by
    rw [List.length_take]
    omega
  rw [overwrite, List.append_assoc, List.drop_left' length, List.take_left]

theorem drop_overwrite : (overwrite file place data).drop (place + data.length) =
    file.drop (place + data.length) := by
  apply List.drop_left'
  rw [List.length_append, List.length_take]
  omega

end Overwrite

structure SameFrom (cut : Nat) (file file' : Bytes) : Prop where
  length : file'.length = file.length
  drop : file'.drop cut = file.drop cut

theorem SameFrom.drop_of_le {cut n : Nat} {file file' : Bytes} (same : SameFrom cut file file')
    (le : cut ≤ n) : file'.drop n = file.drop n := by
  obtain ⟨k, rfl⟩ := Nat.exists_eq_add_of_le le
  rw [← List.drop_drop, same.drop, List.drop_drop]

/-! ## Opening again -/

structure Follows (cut : Nat) (footer : Footer) : Prop where
  metaBlock : cut ≤ footer.metaBlock.offset
  indexBlock : footer.indexBlock.size = 0 ∨ cut ≤ footer.indexBlock.offset
  bloomBlock : footer.bloomBlock.size = 0 ∨ cut ≤ footer.bloomBlock.offset

namespace SSTableReader
variable {order : Bytes → Bytes → Ordering} {name file file' : Bytes} {cut : Nat}
  {reader : SSTableReader} {handle : BlockHandle} {info : SSTableMeta} {footer : Footer}

section SameFrom
variable (same : SameFrom cut file file')
include same

theorem read_congr {offset : Nat} (le : cut ≤ offset) (n : Nat) :
    read file' offset n = read file offset n := by
  rw [read, read, same.drop_of_le le]

theorem readBlock_congr (capital name : String) (type : BlockType) (le : cut ≤ handle.offset) :
    readBlock file' capital name type handle = readBlock file capital name type handle := by
  rw [readBlock, readBlock, same.length, read_congr same le]

theorem readMeta_congr (tail : cut ≤ file.length - footerSize) (le : cut ≤ footer.metaBlock.offset)
    (described : readMeta name file = .ok (info, footer)) :
    readMeta name file' = .ok (info, footer) := by
  unfold readMeta at described ⊢
  rw [same.length, read_congr same tail]
  split at described <;> [cases described; rename_i large]
  obtain ⟨data, last, described⟩ := ok_of_bind described
  obtain ⟨other, decoded, described⟩ := ok_of_bind described
  obtain ⟨content, block, described⟩ := ok_of_bind described
  obtain ⟨m, parsed, described⟩ := ok_of_bind described
  obtain ⟨rfl, rfl⟩ := Prod.mk.inj (Except.ok.inj described)
  simp only [if_neg large, last, decoded, readBlock_congr same _ _ _ le, block, parsed, bind,
    Except.bind, pure, Except.pure]

theorem readIndex_congr (place : handle.size = 0 ∨ cut ≤ handle.offset) :
    readIndex order info handle file' = readIndex order info handle file := by
  rw [readIndex, readIndex]
  obtain none | le := place
  · rw [if_pos none, if_pos none]
    rfl
  · rw [readBlock_congr same _ _ _ le]

theorem readBloomFilter_congr (place : handle.size = 0 ∨ cut ≤ handle.offset) :
    readBloomFilter handle file' = readBloomFilter handle file := by
  rw [readBloomFilter, readBloomFilter]
  obtain none | le := place
  · rw [if_pos none, if_pos none]
  · rw [readBlock_congr same _ _ _ le]

theorem openFile_congr (opening : OpenSteps order name file reader footer)
    (tail : cut ≤ file.length - footerSize) (follows : Follows cut footer) :
    openFile order name file' = .ok { reader with file := file' } :=
  openFile_eq_ok_iff.mpr ⟨footer,
    { large := same.length ▸ opening.large
      described := readMeta_congr same tail follows.metaBlock opening.described
      indexed := (readIndex_congr same follows.indexBlock).trans opening.indexed
      filtered := (readBloomFilter_congr same follows.bloomBlock).trans opening.filtered
      file := rfl }⟩

end SameFrom
end SSTableReader

open SSTableReader

namespace SSTableWriter
variable {w finished data index bloom last : SSTableWriter} {count : Nat}

theorem follows_of_steps (kept : Kept count w)
    (steps : FinishSteps w finished data index bloom last) :
    Follows data.file.length last.footer ∧ data.file.length ≤ finished.file.length - footerSize := by
  have laid := kept.laid steps.cut
  have toIndex := writeIndexBlock_ok laid steps.indexed
  obtain ⟨toBloom, sameIndex⟩ := writeBloomFilterBlock_ok toIndex.laid steps.filtered
  obtain ⟨toLast, footer, -⟩ := writeTail_ok toBloom.laid steps.described
    fun _ typed => { toBloom.laid.footer with metaBlock := typed }
  have none : data.footer = {} := (kept.writeDataBlock steps.cut).1.footer
  refine ⟨⟨?_, ?_, ?_⟩, ?_⟩
  · rw [footer]
    exact toIndex.length.trans toBloom.length
  · rw [indexBlock_of_steps kept steps]
    by_cases empty : data.indexEntries = []
    · left
      rw [← indexBlock_of_steps kept steps]
      exact noIndex_of_steps kept steps empty
    · right
      obtain ⟨-, -, -, -, handle⟩ := index_of_steps kept steps empty
      rw [← indexBlock_of_steps kept steps, handle]
  · have filtered := steps.filtered
    have indexed := steps.indexed
    rw [footer]
    dsimp only
    have noBloom : index.footer.bloomBlock.size = 0 := by
      unfold writeIndexBlock at indexed
      split at indexed
      · obtain rfl := Except.ok.inj indexed
        rw [none]
      · obtain ⟨-, footer, -⟩ :=
          writeTail_ok laid indexed fun _ typed => { laid.footer with indexBlock := typed }
        rw [footer, none]
    unfold writeBloomFilterBlock at filtered
    split at filtered
    · split at filtered
      · obtain rfl := Except.ok.inj filtered
        exact Or.inl noBloom
      · obtain ⟨-, footer, -⟩ :=
          writeTail_ok toIndex.laid filtered fun _ typed => { toIndex.laid.footer with bloomBlock := typed }
        rw [footer]
        exact Or.inr toIndex.length
    · obtain rfl := Except.ok.inj filtered
      exact Or.inl noBloom
  · rw [(append_ok steps.ended).1, List.length_append, Footer.length_encode, Nat.add_sub_cancel]
    exact toIndex.length.trans (toBloom.length.trans toLast.length)

end SSTableWriter

/-! ## Damage -/

def SSTableReader.damaged (reader : SSTableReader) (entry : IndexEntry) (data : Bytes) : SSTableReader :=
  { reader with file := overwrite reader.file (entry.blockOffset + BlockHeader.kHeaderSize) data }

section Damaged
variable {reader : SSTableReader} {b : Nat} {entry : IndexEntry} {data : Bytes}
  {order : Bytes → Bytes → Ordering}

theorem length_damaged (lies : Lies reader.file entry)
    (fits : BlockHeader.kHeaderSize + data.length = entry.blockSize) :
    (reader.damaged entry data).file.length = reader.file.length := by
  have inside := lies.inside
  exact length_overwrite (by omega)

theorem lies_damaged {other : IndexEntry} (lies : Lies reader.file entry)
    (fits : BlockHeader.kHeaderSize + data.length = entry.blockSize) (also : Lies reader.file other) :
    Lies (reader.damaged entry data).file other :=
  ⟨also.filled, (length_damaged lies fits).symm ▸ also.inside⟩

theorem hasBlock_damaged (here : reader.index[b]? = some entry) (lies : Lies reader.file entry)
    (sized : reader.file.length ≤ maxFileSize)
    (fits : BlockHeader.kHeaderSize + data.length = entry.blockSize) :
    HasBlock (reader.damaged entry data) b data := by
  have inside := lies.inside
  have content : blockContent (reader.damaged entry data).file entry = data := by
    rw [blockContent, ← fits, Nat.add_sub_cancel_left]
    exact take_overwrite (by omega)
  have block : HasBlock (reader.damaged entry data) b _ :=
    hasBlock_of_lies here (lies_damaged lies fits lies) ((length_damaged lies fits).trans_le sized)
  rwa [content] at block

/-- When the steps that read a block with these bytes report corruption. A step to the next entry reads
the next block when none is left of its own. -/
structure DamageReported (order : Bytes → Bytes → Ordering) (reader : SSTableReader) (b : Nat)
    (data : Bytes) : Prop where
  get : ∀ key snapshot value, reader.locate order key = some b →
    ((reader.get order key snapshot value).2.status.isCorruption ↔
      leftOver getEntry data ≠ [] ∧ ∀ e ∈ records getEntry data, ¬ beyond order key e)
  seekToFirst : ∀ it : SSTableIterator, b = 0 →
    (SSTableIterator.Reports reader (it.seekToFirst reader) ↔ getEntry data = none)
  seekToLast : ∀ it : SSTableIterator, b + 1 = reader.index.length →
    (SSTableIterator.Reports reader (it.seekToLast reader) ↔ leftOver getEntry data ≠ [])
  seek : ∀ (it : SSTableIterator) target, reader.findIndexEntry order target = some b →
    (SSTableIterator.Reports reader (it.seek reader order target) ↔ leftOver getEntry data ≠ [] ∧
      ∀ e ∈ everyOther (records getEntry data), order e.1 target = .lt)
  nextBlock : ∀ (it : SSTableIterator) passed current, it.StandsAt passed current [] →
    it.currentBlock + 1 = b → 0 ≤ it.currentBlock →
      (SSTableIterator.Reports reader (it.next reader) ↔ getEntry data = none)
  next : ∀ (it : SSTableIterator) passed current rest, it.StandsAt passed current rest →
    it.currentBlock = b → it.blockData = data → rest ≠ [] →
      (b + 1 = reader.index.length →
        (SSTableIterator.Reports reader (it.next reader) ↔ getEntry rest = none)) ∧
      ∀ following, HasBlock reader (b + 1) following → getEntry following ≠ none →
        ¬ SSTableIterator.Reports reader (it.next reader)
  prev : ∀ (it : SSTableIterator) passed current rest, it.StandsAt passed current rest →
    it.currentBlock = b → it.blockData = data → ¬ SSTableIterator.Reports reader (it.prev reader)

theorem damageReported_of_block (block : HasBlock reader b data) : DamageReported order reader b data where
  get _ snapshot value located := isCorruption_get_iff block located snapshot value
  seekToFirst _ first := by
    subst first
    exact SSTableIterator.reports_seekToFirst_iff block
  seekToLast _ last := SSTableIterator.reports_seekToLast_iff block last
  seek _ _ found := SSTableIterator.reports_seek_iff block found
  nextBlock it _ _ stands before nonneg :=
    SSTableIterator.reports_next_into_iff block (a := it.currentBlock.toNat) (by omega) stands (by omega)
  next _ _ _ _ stands number _ more :=
    ⟨fun last => SSTableIterator.reports_next_last_iff stands number last more,
      fun _ following begins => SSTableIterator.not_reports_next stands number following begins⟩
  prev _ _ _ _ stands number _ := SSTableIterator.not_reports_prev stands number block.inside

/-- Any table that is open, any block of it and any other content of the block. -/
theorem damage_reported_iff (order : Bytes → Bytes → Ordering) (here : reader.index[b]? = some entry)
    (lies : Lies reader.file entry) (sized : reader.file.length ≤ maxFileSize)
    (fits : BlockHeader.kHeaderSize + data.length = entry.blockSize) :
    DamageReported order (reader.damaged entry data) b data :=
  damageReported_of_block (hasBlock_damaged here lies sized fits)

end Damaged

/-! ## Damage to a written table -/

section Written
open TableFile.SSTableWriter
variable {order : Bytes → Bytes → Ordering} {options : SSTableWriterOptions} {filename name : Bytes}
  {now : Nat} {entries : List (Bytes × Value)} {closing : Status}
  {start added finished : SSTableWriter} {reader : SSTableReader} {b : Nat} {entry : IndexEntry}
  {data : Bytes}

theorem opens_damaged (opened : SSTableWriter.openFile options filename now = .ok start)
    (adds : start.addAll order entries = .ok added) (finishes : added.finish closing = .ok finished)
    (small : finished.file.length < uint32Limit)
    (opens : SSTableReader.openFile order name finished.file = .ok reader)
    (here : reader.index[b]? = some entry)
    (fits : BlockHeader.kHeaderSize + data.length = entry.blockSize) :
    (∀ other ∈ reader.index, Lies reader.file other) ∧ reader.file.length ≤ maxFileSize ∧
      SSTableReader.openFile order name (reader.damaged entry data).file =
        .ok (reader.damaged entry data) := by
  have kept : Kept (0 + entries.length) added := (kept_openFile opened).addAll adds
  obtain ⟨blocks, pending, stores, -⟩ := (stores_openFile opened).addAll adds
  obtain ⟨data', index, bloom, last, steps⟩ := finish_steps finishes
  obtain ⟨reads, same, -⟩ := index_eq_of_steps kept stores steps small opens
  obtain ⟨follows, tail⟩ := follows_of_steps kept steps
  have written := written_of_steps stores steps
  have lies : ∀ other ∈ reader.index, Lies data'.file other := by
    intro other member
    rw [same] at member
    obtain ⟨block, here⟩ := exists_block_of_mem written member
    exact lies_of_written here (by omega)
  have liesIn : ∀ other ∈ reader.index, Lies reader.file other := fun other member =>
    ⟨(lies other member).filled, reads ▸ (lies other member).inside.trans (by omega)⟩
  have limits : uint32Limit ≤ maxFileSize := by decide
  have inside := (lies entry (List.mem_of_getElem? here)).inside
  have room : entry.blockOffset + BlockHeader.kHeaderSize + data.length ≤ reader.file.length := by
    rw [reads]
    omega
  have replaced : SameFrom (entry.blockOffset + BlockHeader.kHeaderSize + data.length) reader.file
      (reader.damaged entry data).file := ⟨length_overwrite room, drop_overwrite room⟩
  have behind : SameFrom data'.file.length reader.file (reader.damaged entry data).file :=
    ⟨replaced.length, replaced.drop_of_le (by omega)⟩
  refine ⟨liesIn, by rw [reads]; omega, ?_⟩
  obtain ⟨footer, opening⟩ := openFile_eq_ok_iff.mp opens
  obtain ⟨rfl, -⟩ := readMeta_ok (kept.ends steps) opening.described
  rw [← reads] at opening tail
  exact openFile_congr behind opening tail follows

theorem placed_damaged (lies : ∀ other ∈ reader.index, Lies reader.file other)
    (sized : reader.file.length ≤ maxFileSize) (here : reader.index[b]? = some entry)
    (fits : BlockHeader.kHeaderSize + data.length = entry.blockSize)
    (calls : List SSTableIterator.Call) :
    SSTableIterator.Placed (reader.damaged entry data)
      (reader.index.map (blockContent (reader.damaged entry data).file))
      (calls.foldl (SSTableIterator.call (reader.damaged entry data) order) {}) := by
  have blockLies := lies entry (List.mem_of_getElem? here)
  have has : Contents (reader.damaged entry data)
      (reader.index.map (blockContent (reader.damaged entry data).file)) :=
    contents_of_lies (fun other member => lies_damaged blockLies fits (lies other member))
      ((length_damaged blockLies fits).trans_le sized)
  exact SSTableIterator.placed_run has calls

end Written

def twoEntriesBlock : Bytes := blockBytes twoEntries

def flippedBlock : Bytes := twoEntriesBlock.set 11 6

theorem damage_twoEntries : ∃ start added finished reader entry,
    SSTableWriter.openFile {} [97] 0 = .ok start ∧
      start.addAll bytewiseCompare twoEntries = .ok added ∧ added.finish .ok = .ok finished ∧
        finished.file.length < uint32Limit ∧
          SSTableReader.openFile bytewiseCompare [98] finished.file = .ok reader ∧
            reader.index[0]? = some entry ∧ blockContent reader.file entry = twoEntriesBlock ∧
              BlockHeader.kHeaderSize + flippedBlock.length = entry.blockSize ∧
                crc32 flippedBlock ≠ crc32 twoEntriesBlock ∧
                  (reader.damaged entry flippedBlock).locate bytewiseCompare [1] = some 0 ∧
                    (reader.damaged entry flippedBlock).get bytewiseCompare [1] 0 [] =
                      (true, ⟨.ok, [6]⟩) := by
  have facts : (tableOf twoEntries).toOption.any fun finished =>
      (SSTableReader.openFile bytewiseCompare [98] finished.file).toOption.any fun reader =>
        reader.index[0]?.any fun entry =>
          decide (blockContent reader.file entry = twoEntriesBlock ∧
            BlockHeader.kHeaderSize + flippedBlock.length = entry.blockSize ∧
              crc32 flippedBlock ≠ crc32 twoEntriesBlock ∧
                (reader.damaged entry flippedBlock).locate bytewiseCompare [1] = some 0 ∧
                  (reader.damaged entry flippedBlock).get bytewiseCompare [1] 0 [] =
                    (true, ⟨.ok, [6]⟩)) := by decide +kernel
  obtain ⟨start, added, finished, reader, opened, adds, finishes, small, opens⟩ := opens_twoEntries
  rw [(tableOf_eq_finish opened adds).trans finishes] at facts
  change (SSTableReader.openFile bytewiseCompare [98] finished.file).toOption.any _ = true at facts
  rw [opens] at facts
  change reader.index[0]?.any _ = true at facts
  obtain ⟨entry, here, all⟩ := Option.any_eq_true _ _ |>.mp facts
  exact ⟨start, added, finished, reader, entry, opened, adds, finishes, small, opens, here,
    of_decide_eq_true all⟩

theorem damage_reported_twoEntries : ∃ finished reader entry, tableOf twoEntries = .ok finished ∧
    SSTableReader.openFile bytewiseCompare [98] finished.file = .ok reader ∧
      DamageReported bytewiseCompare (reader.damaged entry flippedBlock) 0 flippedBlock := by
  obtain ⟨start, added, finished, reader, entry, opened, adds, finishes, small, opens, here, -, fits, -⟩ :=
    damage_twoEntries
  obtain ⟨lies, sized, -⟩ := opens_damaged opened adds finishes small opens here fits
  exact ⟨finished, reader, entry, (tableOf_eq_finish opened adds).trans finishes, opens,
    damage_reported_iff _ here (lies entry (List.mem_of_getElem? here)) sized fits⟩

theorem damage_passes_twoEntries :
    ¬ ∀ (order : Bytes → Bytes → Ordering) (options : SSTableWriterOptions) (filename name : Bytes)
      (now : Nat) (entries : List (Bytes × Value)) (closing : Status)
      (start added finished : SSTableWriter) (reader damaged : SSTableReader) (b : Nat)
      (entry : IndexEntry) (data : Bytes) (key : Key) (snapshot : Nat) (value : Value),
      SSTableWriter.openFile options filename now = .ok start →
        start.addAll order entries = .ok added → added.finish closing = .ok finished →
          SSTableReader.openFile order name finished.file = .ok reader →
            reader.index[b]? = some entry →
              BlockHeader.kHeaderSize + data.length = entry.blockSize →
                crc32 data ≠ crc32 (blockContent reader.file entry) →
                  SSTableReader.openFile order name (reader.damaged entry data).file = .ok damaged →
                    damaged.locate order key = some b →
                      (damaged.get order key snapshot value).2.status.isCorruption := by
  intro always
  obtain ⟨start, added, finished, reader, entry, opened, adds, finishes, small, opens, here, content,
    fits, changed, located, found⟩ := damage_twoEntries
  obtain ⟨-, -, again⟩ := opens_damaged opened adds finishes small opens here fits
  rw [← content] at changed
  have reported := always _ _ _ _ _ _ _ _ _ _ _ _ _ _ _ _ 0 [] opened adds finishes opens here fits
    changed again located
  rw [found] at reported
  cases reported

end TableFile
end Lrdb
