import Lrdb.Storage.TableCursor

namespace Lrdb
namespace TableFile
open Parsing Records

/-! ## The entries of a block -/

theorem leaves_decodeVarint (n : Nat) : Leaves (decodeVarint n) := by
  induction n with
  | zero =>
      intro input value rest found
      cases found
  | succ n ih =>
      apply Advances.item.leaves.bind
      intro byte
      split
      · exact Leaves.pure _
      · exact ih.bind fun _ => Leaves.pure _

theorem advances_decodeVarint (n : Nat) : Advances (decodeVarint n) := by
  cases n with
  | zero =>
      intro input value rest found
      cases found
  | succ n =>
      apply Advances.item.bind
      intro byte
      split
      · exact Leaves.pure _
      · exact (leaves_decodeVarint n).bind fun _ => Leaves.pure _

theorem advances_getLengthPrefixedSlice : Advances getLengthPrefixedSlice :=
  ((advances_decodeVarint 5).bind fun _ => Leaves.pure _).bind fun n => Leaves.take n

theorem advances_getEntry : Advances getEntry :=
  advances_getLengthPrefixedSlice.bind fun _ =>
    advances_getLengthPrefixedSlice.leaves.bind fun _ => Leaves.pure _

theorem getEntry_eq_some {input rest : Bytes} {e : Bytes × Value}
    (found : getEntry input = some (e, rest)) : ∃ middle,
      getLengthPrefixedSlice input = some (e.1, middle) ∧
        getLengthPrefixedSlice middle = some (e.2, rest) := by
  obtain ⟨key, middle, first, later⟩ := bind_some found
  obtain ⟨value, _, second, same⟩ := bind_some later
  obtain ⟨rfl, rfl⟩ := pure_some same
  exact ⟨middle, first, second⟩

theorem getEntry_of_slices {input middle rest : Bytes} {key : Bytes} {value : Value}
    (first : getLengthPrefixedSlice input = some (key, middle))
    (second : getLengthPrefixedSlice middle = some (value, rest)) :
    getEntry input = some ((key, value), rest) := by
  change (getLengthPrefixedSlice input).bind _ = _
  rw [first]
  change (getLengthPrefixedSlice middle).bind _ = _
  rw [second]
  rfl

/-- An entry as `Add` puts it into the block. -/
def putEntry (e : Bytes × Value) : Bytes := putLengthPrefixedSlice e.1 ++ putLengthPrefixedSlice e.2

def blockBytes (block : List (Bytes × Value)) : Bytes := block.flatMap putEntry

def ShortEntry (e : Bytes × Value) : Prop := e.1.length < uint32Limit ∧ e.2.length < uint32Limit

theorem yields_getEntry {e : Bytes × Value} (short : ShortEntry e) : Yields getEntry (putEntry e) e := by
  apply (yields_getLengthPrefixedSlice short.1).bind
  rw [← List.append_nil (putLengthPrefixedSlice e.2)]
  exact (yields_getLengthPrefixedSlice short.2).bind (Yields.pure _)

namespace SSTableIterator
variable {it : SSTableIterator} {passed entries : List (Bytes × Value)} {current e : Bytes × Value}
  {rest left rest' : Bytes} {n : Nat} {it' : SSTableIterator}

/-! ## One entry -/

structure Behind (it : SSTableIterator) (passed : List (Bytes × Value)) (rest : Bytes) : Prop where
  reads : Reads getEntry it.blockData passed rest
  offset : it.blockOffset + rest.length = it.blockData.length

theorem Behind.drop (behind : Behind it passed rest) : it.blockData.drop it.blockOffset = rest := by
  obtain ⟨first, -, whole⟩ := behind.reads.suffix advances_getEntry
  have offset := behind.offset
  rw [whole, List.length_append] at offset
  rw [whole, List.drop_left' (by omega)]

def taken (it : SSTableIterator) (e : Bytes × Value) (rest : Bytes) : SSTableIterator :=
  { it with
    currentKey := e.1
    currentValue := e.2
    valid := true
    blockOffset := it.blockData.length - rest.length }

theorem Behind.taken (behind : Behind it passed rest) (found : getEntry rest = some (e, rest')) :
    Behind (it.taken e rest') (passed ++ [e]) rest' where
  reads := behind.reads.append (Reads.one found)
  offset := by
    have less := advances_getEntry.length_lt found
    have offset := behind.offset
    simp only [SSTableIterator.taken]
    omega

theorem parse_taken (behind : Behind it passed rest) (found : getEntry rest = some (e, rest')) :
    it.parseCurrentEntry = it.taken e rest' := by
  obtain ⟨middle, first, second⟩ := getEntry_eq_some found
  have less := advances_getEntry.length_lt found
  have offset := behind.offset
  have inside : ¬ it.blockData.length ≤ it.blockOffset := by omega
  have place : it.blockOffset + (rest.length - rest'.length) = it.blockData.length - rest'.length := by
    omega
  simp only [parseCurrentEntry, if_neg inside, behind.drop, first, second, place]
  rfl

theorem parse_end (behind : Behind it passed []) : it.parseCurrentEntry = { it with valid := false } := by
  have offset : it.blockOffset = it.blockData.length := behind.offset
  rw [parseCurrentEntry, if_pos offset.ge]

theorem parse_stuck (behind : Behind it passed rest) (stuck : getEntry rest = none)
    (filled : rest ≠ []) : ∃ message,
      it.parseCurrentEntry = { it with valid := false, status := .corruption message } := by
  have positive := List.length_pos_iff.mpr filled
  have offset := behind.offset
  have inside : ¬ it.blockData.length ≤ it.blockOffset := by omega
  cases first : getLengthPrefixedSlice rest with
  | none =>
      exact ⟨_, by simp only [parseCurrentEntry, if_neg inside, behind.drop, first]; rfl⟩
  | some pair =>
      cases second : getLengthPrefixedSlice pair.2 with
      | none =>
          exact ⟨_, by simp only [parseCurrentEntry, if_neg inside, behind.drop, first, second]; rfl⟩
      | some more =>
          rw [getEntry_of_slices first second] at stuck
          cases stuck

theorem next_taken (behind : Behind it passed rest) (found : getEntry rest = some (e, rest')) :
    it.moveToNextInBlock = (it.taken e rest', true) := by
  have less := advances_getEntry.length_lt found
  have offset := behind.offset
  have further : it.blockOffset < (it.taken e rest').blockOffset := by
    simp only [taken]
    omega
  rw [moveToNextInBlock, parse_taken behind found]
  simp only [further, decide_true, Bool.and_true]
  rfl

theorem next_end (behind : Behind it passed []) :
    it.moveToNextInBlock = ({ it with valid := false }, false) := by
  rw [moveToNextInBlock, parse_end behind]
  rfl

theorem next_stuck (behind : Behind it passed rest) (stuck : getEntry rest = none)
    (filled : rest ≠ []) : ∃ message,
      it.moveToNextInBlock = ({ it with valid := false, status := .corruption message }, false) := by
  obtain ⟨message, parsed⟩ := parse_stuck behind stuck filled
  refine ⟨message, ?_⟩
  rw [moveToNextInBlock, parsed]
  rfl

/-! ## The place of the iterator -/

structure StandsAt (it : SSTableIterator) (passed : List (Bytes × Value)) (current : Bytes × Value)
    (rest : Bytes) : Prop extends Behind it (passed ++ [current]) rest where
  valid : it.valid = true
  key : it.currentKey = current.1
  value : it.currentValue = current.2
  cache : it.offsetCache = [] ∨ it.offsetCache = offsetsFrom it.blockData it.blockData.length 0

structure SameBlock (it it' : SSTableIterator) : Prop where
  currentBlock : it'.currentBlock = it.currentBlock
  blockData : it'.blockData = it.blockData
  offsetCache : it'.offsetCache = it.offsetCache

structure Ended (it it' : SSTableIterator) (left : Bytes) : Prop extends SameBlock it it' where
  valid : it'.valid = false
  ended : left = [] → it'.status = it.status
  damaged : left ≠ [] → it'.status.isCorruption

def Cached (it : SSTableIterator) : Prop :=
  it.offsetCache = [] ∨ it.offsetCache = offsetsFrom it.blockData it.blockData.length 0

theorem sameBlock_taken (it : SSTableIterator) (e : Bytes × Value) (rest : Bytes) :
    SameBlock it (it.taken e rest) := ⟨rfl, rfl, rfl⟩

theorem SameBlock.trans {a b c : SSTableIterator} (first : SameBlock a b) (second : SameBlock b c) :
    SameBlock a c :=
  ⟨second.currentBlock.trans first.currentBlock, second.blockData.trans first.blockData,
    second.offsetCache.trans first.offsetCache⟩

theorem standsAt_taken (behind : Behind it passed rest) (cached : it.Cached)
    (found : getEntry rest = some (e, rest')) : StandsAt (it.taken e rest') passed e rest' where
  toBehind := behind.taken found
  valid := rfl
  key := rfl
  value := rfl
  cache := cached

theorem ended_of_left (behind : Behind it passed left) (stuck : getEntry left = none) :
    Ended it it.moveToNextInBlock.1 left ∧ it.moveToNextInBlock.2 = false ∧
      it.parseCurrentEntry = it.moveToNextInBlock.1 := by
  by_cases empty : left = []
  · subst empty
    rw [next_end behind]
    exact ⟨⟨⟨rfl, rfl, rfl⟩, rfl, fun _ => rfl, fun filled => absurd rfl filled⟩, rfl,
      parse_end behind⟩
  · obtain ⟨message, moved⟩ := next_stuck behind stuck empty
    refine ⟨?_, by rw [moved], by rw [moveToNextInBlock]⟩
    rw [moved]
    exact ⟨⟨rfl, rfl, rfl⟩, rfl, fun none => absurd none empty, fun _ => rfl⟩

/-! ## Seeking in the block -/

def seekPlace (order : Bytes → Bytes → Ordering) (target : Key) : List (Bytes × Value) → Option Nat
  | [] => none
  | [e] => if order e.1 target = .lt then none else some 0
  | e :: _ :: rest =>
      if order e.1 target = .lt then (seekPlace order target rest).map (· + 2) else some 0

def StandsAtPlace (it : SSTableIterator) (entries : List (Bytes × Value)) (i : Nat) : Prop :=
  ∃ current rest, entries[i]? = some current ∧ StandsAt it (entries.take i) current rest

/-- What a seek from `it` that stops at this entry, if it does, leaves. -/
def Sought (it it' : SSTableIterator) (entries : List (Bytes × Value)) (left : Bytes) :
    Option Nat → Prop
  | none => Ended it it' left
  | some i => StandsAtPlace it' entries i ∧ SameBlock it it' ∧ it'.status = it.status

theorem Sought.of_same {it it₁ it' : SSTableIterator} {found : Option Nat} (same : SameBlock it it₁)
    (status : it₁.status = it.status) (sought : Sought it₁ it' entries left found) :
    Sought it it' entries left found := by
  cases found with
  | none =>
      exact ⟨same.trans sought.toSameBlock, sought.valid, fun empty => (sought.ended empty).trans status,
        sought.damaged⟩
  | some i => exact ⟨sought.1, same.trans sought.2.1, sought.2.2.trans status⟩

theorem Ended.invalid (ended : Ended it it' left) : Ended it { it' with valid := false } left :=
  ⟨⟨ended.currentBlock, ended.blockData, ended.offsetCache⟩, rfl, ended.ended, ended.damaged⟩

theorem Ended.of_taken (ended : Ended (it.taken e rest) it' left) : Ended it it' left where
  toSameBlock := (sameBlock_taken it e rest).trans ended.toSameBlock
  valid := ended.valid
  ended := ended.ended
  damaged := ended.damaged

theorem seekLoop_sought (order : Bytes → Bytes → Ordering) (target : Key)
    (behind : Behind it passed rest) (cached : it.Cached) (reads : Reads getEntry rest entries left)
    (stuck : getEntry left = none) (enough : rest.length < n) :
    Sought it (seekLoop order target n it) (passed ++ entries) left
      ((seekPlace order target entries).map (passed.length + ·)) := by
  induction n generalizing it passed rest entries with
  | zero => exact absurd enough (Nat.not_lt_zero _)
  | succ n ih =>
      have offset := behind.offset
      rw [seekLoop]
      cases reads with
      | nil =>
          obtain ⟨ended, -, parsed⟩ := ended_of_left behind stuck
          split
          · simp only [parsed, ended.valid, Bool.false_eq_true, not_false_eq_true, if_true]
            exact ended
          · have empty : left = [] := List.length_eq_zero_iff.mp (by omega)
            exact ⟨⟨rfl, rfl, rfl⟩, rfl, fun _ => rfl, fun filled => absurd empty filled⟩
      | @cons _ middle _ e later here reads =>
          have less := advances_getEntry.length_lt here
          have behind₁ := behind.taken here
          have cached₁ : (it.taken e middle).Cached := cached
          rw [if_pos (by omega), parse_taken behind here]
          simp only [show (it.taken e middle).valid = true from rfl, not_true_eq_false, if_false,
            show (it.taken e middle).currentKey = e.1 from rfl]
          have stands : StandsAtPlace (it.taken e middle) (passed ++ e :: later) (passed.length + 0) := by
            refine ⟨e, middle, by simp, ?_⟩
            simpa using standsAt_taken behind cached here
          by_cases below : order e.1 target = .lt
          · rw [if_neg (not_not.mpr below)]
            cases reads with
            | nil =>
                obtain ⟨ended, stays, -⟩ := ended_of_left behind₁ stuck
                simp only [stays, Bool.false_eq_true, if_false, seekPlace, below, if_true,
                  Option.map_none]
                exact (ended.invalid).of_taken
            | @cons _ middle₂ _ e₂ later₂ here₂ reads₂ =>
                have less₂ := advances_getEntry.length_lt here₂
                rw [next_taken behind₁ here₂]
                simp only [if_true, seekPlace, below]
                have sought := ih (behind₁.taken here₂) cached₁ reads₂ (by omega)
                have place : ((seekPlace order target later₂).map (· + 2)).map (passed.length + ·) =
                    (seekPlace order target later₂).map ((passed ++ [e] ++ [e₂]).length + ·) := by
                  rw [Option.map_map]
                  congr 1
                  funext i
                  simp
                  omega
                rw [place, List.append_cons passed e, List.append_cons _ e₂]
                have same : SameBlock it ((it.taken e middle).taken e₂ middle₂) := ⟨rfl, rfl, rfl⟩
                exact sought.of_same same rfl
          · have found : seekPlace order target (e :: later) = some 0 := by
              cases later <;> simp [seekPlace, below]
            rw [if_pos below, found]
            exact ⟨stands, ⟨rfl, rfl, rfl⟩, rfl⟩

theorem behind_start (it : SSTableIterator) : Behind { it with blockOffset := 0 } [] it.blockData :=
  ⟨Reads.nil _, Nat.zero_add _⟩

theorem seekInBlock_sought (order : Bytes → Bytes → Ordering) (target : Key) (cached : it.Cached) :
    Sought it (it.seekInBlock order target) (records getEntry it.blockData)
      (leftOver getEntry it.blockData) (seekPlace order target (records getEntry it.blockData)) := by
  have sought := seekLoop_sought order target (behind_start it) cached (reads_records ..)
    (leftOver_stuck advances_getEntry _) (Nat.lt_succ_self _)
  have same : SameBlock it { it with blockOffset := 0 } := ⟨rfl, rfl, rfl⟩
  simp only [List.length_nil, Nat.zero_add, List.nil_append, Option.map_id'] at sought
  exact sought.of_same same rfl

/-! ## The last entry of the block -/

theorem lastLoop_behind (behind : Behind it passed rest) (reads : Reads getEntry rest entries left)
    (stuck : getEntry left = none) (filled : rest ≠ []) (enough : rest.length ≤ n) (last : Nat) :
    ∃ passed' middle, SameBlock it (lastLoop n last it).2 ∧
      Behind { (lastLoop n last it).2 with blockOffset := (lastLoop n last it).1 } passed' middle ∧
        (left ≠ [] → middle = left) ∧
          (left = [] → (lastLoop n last it).2.status = it.status ∧
            ∃ e, passed ++ entries = passed' ++ [e] ∧ getEntry middle = some (e, [])) := by
  induction n generalizing it passed rest entries last with
  | zero => exact absurd (List.length_eq_zero_iff.mp (Nat.le_zero.mp enough)) filled
  | succ n ih =>
      have offset := behind.offset
      have positive := List.length_pos_iff.mpr filled
      rw [lastLoop, if_pos (by omega)]
      cases reads with
      | nil =>
          obtain ⟨ended, stays, -⟩ := ended_of_left behind stuck
          simp only [stays, Bool.false_eq_true, if_false]
          refine ⟨passed, left, ended.toSameBlock, ⟨?_, ?_⟩, fun _ => rfl, fun empty => absurd empty filled⟩
          · simpa only [ended.blockData] using behind.reads
          · simpa only [ended.blockData] using behind.offset
      | @cons _ middle _ e later here reads =>
          have less := advances_getEntry.length_lt here
          have behind₁ := behind.taken here
          rw [next_taken behind here]
          simp only [if_true]
          by_cases more : middle = []
          · subst more
            have whole : later = [] ∧ left = [] := by
              cases reads with
              | nil => exact ⟨rfl, rfl⟩
              | cons next _ =>
                  rw [advances_getEntry.nil] at next
                  cases next
            obtain ⟨rfl, rfl⟩ := whole
            have stops (m : Nat) :
                lastLoop m it.blockOffset (it.taken e []) = (it.blockOffset, it.taken e []) := by
              cases m with
              | zero => rfl
              | succ m =>
                  have past := behind₁.offset
                  rw [List.length_nil, Nat.add_zero] at past
                  rw [lastLoop, if_neg past.not_lt]
            rw [stops]
            refine ⟨passed, rest, sameBlock_taken it e [], ⟨behind.reads, offset⟩,
              fun none => absurd rfl none, fun _ => ⟨rfl, e, rfl, here⟩⟩
          · obtain ⟨passed', start, same, at', damaged, ends⟩ :=
              ih behind₁ reads more (by omega) it.blockOffset
            refine ⟨passed', start, (sameBlock_taken it e middle).trans same, at', damaged, ?_⟩
            intro empty
            obtain ⟨status, e', whole, parsed⟩ := ends empty
            exact ⟨status, e', by rw [← whole, List.append_assoc]; rfl, parsed⟩

theorem seekToLastInBlock_of_whole (cached : it.Cached) (filled : it.blockData ≠ [])
    (whole : leftOver getEntry it.blockData = []) :
    ∃ passed current, records getEntry it.blockData = passed ++ [current] ∧
      StandsAt it.seekToLastInBlock passed current [] ∧ SameBlock it it.seekToLastInBlock ∧
        it.seekToLastInBlock.status = it.status := by
  obtain ⟨passed, middle, same, behind, -, ends⟩ := lastLoop_behind (behind_start it)
    (reads_records ..) (leftOver_stuck advances_getEntry _) filled le_rfl 0
  obtain ⟨status, current, entries, parsed⟩ := ends whole
  rw [List.nil_append] at entries
  have cached' : Cached { (lastLoop it.blockData.length 0 { it with blockOffset := 0 }).2 with
      blockOffset := (lastLoop it.blockData.length 0 { it with blockOffset := 0 }).1 } := by
    unfold Cached
    rw [same.offsetCache, same.blockData]
    exact cached
  refine ⟨passed, current, entries, ?_⟩
  rw [seekToLastInBlock, parse_taken behind parsed]
  exact ⟨standsAt_taken behind cached' parsed, ⟨same.currentBlock, same.blockData, same.offsetCache⟩,
    status⟩

theorem seekToLastInBlock_of_damaged (filled : it.blockData ≠ [])
    (damaged : leftOver getEntry it.blockData ≠ []) :
    it.seekToLastInBlock.valid = false ∧ it.seekToLastInBlock.status.isCorruption := by
  have stuck := leftOver_stuck advances_getEntry it.blockData
  obtain ⟨passed, middle, -, behind, there, -⟩ := lastLoop_behind (behind_start it)
    (reads_records ..) stuck filled le_rfl 0
  obtain ⟨message, parsed⟩ := parse_stuck behind (there damaged ▸ stuck) (there damaged ▸ damaged)
  rw [seekToLastInBlock, parsed]
  exact ⟨rfl, rfl⟩

/-! ## The entry before -/

theorem offsetsFrom_eq (data : Bytes) (n offset : Nat) :
    offsetsFrom data n offset = [] ∨ ∃ more, offsetsFrom data n offset = offset :: more := by
  cases n with
  | zero => exact Or.inl rfl
  | succ n =>
      rw [offsetsFrom]
      split
      · exact Or.inr ⟨_, rfl⟩
      · exact Or.inl rfl

theorem offsetsFrom_of_entry {data : Bytes} {offset : Nat}
    (found : getEntry (data.drop offset) = some (e, rest)) :
    offsetsFrom data (n + 1) offset = offset :: offsetsFrom data n (data.length - rest.length) ∧
      offset < data.length - rest.length ∧ rest = data.drop (data.length - rest.length) := by
  have less := advances_getEntry.length_lt found
  obtain ⟨first, filled, whole⟩ := advances_getEntry _ _ _ found
  have length := congrArg List.length whole
  have positive := List.length_pos_iff.mpr filled
  rw [List.length_append, List.length_drop] at length
  have next : offset + (data.length - offset - rest.length) = data.length - rest.length := by omega
  refine ⟨?_, by omega, ?_⟩
  · rw [offsetsFrom, if_pos (by omega), found]
    simp only [next]
    rw [if_neg (by omega)]
  · have place : data.length - rest.length = offset + first.length := by omega
    rw [place, ← List.drop_drop, whole, List.drop_left]

theorem takeWhile_offsetsFrom {data : Bytes} {offset limit : Nat} {entries : List (Bytes × Value)}
    (reads : Reads getEntry (data.drop offset) (entries ++ [current]) rest)
    (place : limit + rest.length = data.length) (enough : data.length ≤ offset + n) :
    ((offsetsFrom data n offset).takeWhile fun start => start < limit).length = entries.length + 1 ∧
      Reads getEntry (data.drop offset) entries
        (data.drop ((offsetsFrom data n offset).getD entries.length 0)) ∧
          (offsetsFrom data n offset).getD entries.length 0 < data.length := by
  induction entries generalizing offset n with
  | nil =>
      cases reads with
      | cons here later =>
          cases later
          have inside := advances_getEntry.length_lt here
          rw [List.length_drop] at inside
          obtain ⟨m, rfl⟩ : ∃ m, n = m + 1 := ⟨n - 1, by omega⟩
          obtain ⟨starts, before, -⟩ := offsetsFrom_of_entry here (n := m)
          have limitIs : data.length - rest.length = limit := by omega
          rw [limitIs] at starts before
          rw [starts, List.takeWhile_cons_of_pos (by simpa using before)]
          refine ⟨?_, Reads.nil _, by simpa using by omega⟩
          obtain none | ⟨more, some⟩ := offsetsFrom_eq data m limit
          · simp [none]
          · simp [some]
  | cons e es ih =>
      cases reads with
      | @cons _ middle _ _ _ here later =>
          have inside := advances_getEntry.length_lt here
          have shorter : (es ++ [current]).length + rest.length ≤ middle.length :=
            later.length_le advances_getEntry
          rw [List.length_append, List.length_singleton] at shorter
          rw [List.length_drop] at inside
          obtain ⟨m, rfl⟩ : ∃ m, n = m + 1 := ⟨n - 1, by omega⟩
          obtain ⟨starts, before, next⟩ := offsetsFrom_of_entry here (n := m)
          rw [next] at later
          obtain ⟨count, reads, inside'⟩ := @ih m _ later (by omega)
          rw [starts, List.takeWhile_cons_of_pos (by simpa using by omega)]
          rw [next] at here
          refine ⟨by simp [count], ?_, by simpa using inside'⟩
          exact Reads.cons here (by simpa using reads)

theorem moveToPrevInBlock_standsAt (stands : StandsAt it passed current rest) :
    StandsAt it.moveToPrevInBlock.1 passed current rest ∧ it.moveToPrevInBlock.2 = true ∧
      it.moveToPrevInBlock.1.currentBlock = it.currentBlock ∧
        it.moveToPrevInBlock.1.blockData = it.blockData ∧
          it.moveToPrevInBlock.1.status = it.status := by
  have offset := stands.offset
  have whole : Reads getEntry (it.blockData.drop 0) (passed ++ [current]) rest := stands.reads
  obtain ⟨count, reads, inside⟩ := takeWhile_offsetsFrom whole offset (Nat.zero_add _).ge
  obtain ⟨middle, first, last⟩ := whole.split
  obtain rfl := first.left_unique reads
  have cached : (if it.offsetCache.isEmpty then it.buildOffsetCache else it) = it.buildOffsetCache := by
    obtain empty | same := stands.cache
    · rw [empty, List.isEmpty_nil, if_pos rfl]
    · split
      · rfl
      · unfold buildOffsetCache
        rw [← same]
  have further : it.blockOffset ≠ 0 := by
    have shorter := stands.reads.length_le advances_getEntry
    rw [List.length_append, List.length_singleton] at shorter
    omega
  generalize startIs : (offsetsFrom it.blockData it.blockData.length 0).getD passed.length 0 = start at *
  let placed : SSTableIterator := { it.buildOffsetCache with blockOffset := start }
  have behind : Behind placed passed (it.blockData.drop start) := by
    refine ⟨reads, ?_⟩
    rw [List.length_drop]
    exact Nat.add_sub_of_le inside.le
  cases last with
  | cons here later =>
      cases later
      have moved : it.moveToPrevInBlock = (placed.parseCurrentEntry, placed.parseCurrentEntry.valid) := by
        rw [moveToPrevInBlock, if_neg further, cached]
        simp only [show it.buildOffsetCache.offsetCache =
          offsetsFrom it.blockData it.blockData.length 0 from rfl,
          show it.buildOffsetCache.blockOffset = it.blockOffset from rfl, count, Nat.add_sub_cancel,
          Nat.succ_ne_zero, if_false, startIs]
        rfl
      rw [moved, parse_taken behind here]
      exact ⟨standsAt_taken behind (Or.inr rfl) here, rfl, rfl, rfl, rfl⟩

end SSTableIterator
end TableFile
end Lrdb
