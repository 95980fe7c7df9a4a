import Lrdb.Db.ConcatenatingIterator

/-!
# The two-level iterator

An index leads from separator keys to blocks. To stand at an entry the iterator opens the block the index
stands at; a block that has just been opened is not positioned. The calls that go to an end of the list do
not position it, take it for an exhausted one and skip it.
-/

namespace Lrdb
open Cursors

/-- A block function opens a block: a cursor that is not positioned, or a null pointer. -/
structure BlockFunction (cmp : Comparator) where
  opened : Value → Option (EntryIterator cmp)
  fresh : ∀ handle, ∀ it ∈ opened handle, it.current = none

namespace BlockFunction
variable {cmp : Comparator} (blocks : BlockFunction cmp)

def block (handle : Value) : List (Key × Value) := ((blocks.opened handle).map ListCursor.entries).getD []

def contents (index : List (Key × Value)) : List (Key × Value) := index.flatMap fun x => blocks.block x.2

end BlockFunction

structure TwoLevelIterator (cmp : Comparator) where
  indexIter : EntryIterator cmp
  dataIter : Option (EntryIterator cmp)

namespace TwoLevelIterator
variable {cmp : Comparator}

section Calls
variable (blocks : BlockFunction cmp)

def valid (it : TwoLevelIterator cmp) : Bool := it.dataIter.any ListCursor.valid

/-- It asserts that it is valid. -/
def key (it : TwoLevelIterator cmp) : Key := (it.dataIter.map ListCursor.key).getD []

def value (it : TwoLevelIterator cmp) : Value := (it.dataIter.map ListCursor.value).getD []

def callIndex (it : TwoLevelIterator cmp) (a : CursorMove Key) : TwoLevelIterator cmp :=
  { it with indexIter := it.indexIter.call a }

def callData (it : TwoLevelIterator cmp) (a : CursorMove Key) : TwoLevelIterator cmp :=
  { it with dataIter := it.dataIter.map fun data => data.call a }

def initDataBlock (it : TwoLevelIterator cmp) : TwoLevelIterator cmp :=
  if ¬ it.indexIter.valid then { it with dataIter := none }
  else { it with dataIter := blocks.opened it.indexIter.value }

def make (index : EntryIterator cmp) : TwoLevelIterator cmp := initDataBlock blocks ⟨index, none⟩

/-- Rounds of the loop of `SkipEmptyDataBlocksForward`, if they are enough for it to return. -/
def skipForward : Nat → TwoLevelIterator cmp → Option (TwoLevelIterator cmp)
  | 0, _ => none
  | rounds + 1, it =>
      if it.valid then some it
      else if ¬ it.indexIter.valid then some { it with dataIter := none }
      else skipForward rounds ((initDataBlock blocks (it.callIndex .next)).callData .seekToFirst)

def skipBackward : Nat → TwoLevelIterator cmp → Option (TwoLevelIterator cmp)
  | 0, _ => none
  | rounds + 1, it =>
      if it.valid then some it
      else if ¬ it.indexIter.valid then some { it with dataIter := none }
      else skipBackward rounds ((initDataBlock blocks (it.callIndex .prev)).callData .seekToLast)

def skipEmptyDataBlocksForward (it : TwoLevelIterator cmp) : Option (TwoLevelIterator cmp) :=
  skipForward blocks (it.indexIter.entries.length + 2) it

def skipEmptyDataBlocksBackward (it : TwoLevelIterator cmp) : Option (TwoLevelIterator cmp) :=
  skipBackward blocks (it.indexIter.entries.length + 2) it

/-- A call, if it returns; `Next` and `Prev` assert that the iterator is valid. -/
def call (it : TwoLevelIterator cmp) : CursorMove Key → Option (TwoLevelIterator cmp)
  | .seekToFirst => skipEmptyDataBlocksForward blocks (initDataBlock blocks (it.callIndex .seekToFirst))
  | .seekToLast => skipEmptyDataBlocksBackward blocks (initDataBlock blocks (it.callIndex .seekToLast))
  | .seek target => skipEmptyDataBlocksForward blocks
      ((initDataBlock blocks (it.callIndex (.seek target))).callData (.seek target))
  | .seekForPrev target => skipEmptyDataBlocksBackward blocks
      ((initDataBlock blocks (it.callIndex (.seekForPrev target))).callData (.seekForPrev target))
  | .next => if it.valid then skipEmptyDataBlocksForward blocks (it.callData .next) else none
  | .prev => if it.valid then skipEmptyDataBlocksBackward blocks (it.callData .prev) else none

end Calls

def entry (it : TwoLevelIterator cmp) : Option (Key × Value) := it.dataIter.bind ListCursor.current

/-! ## The loops -/

variable {blocks : BlockFunction cmp} {it : TwoLevelIterator cmp} {index front back : List (Key × Value)}
  {x : Key × Value}

/-- The index stands at `x`. -/
def IndexAt (it : TwoLevelIterator cmp) (front : List (Key × Value)) (x : Key × Value)
    (back : List (Key × Value)) : Prop :=
  it.indexIter.entries = front ++ x :: back ∧ it.indexIter.current = some x

def Placed (blocks : BlockFunction cmp) (it : TwoLevelIterator cmp) : Prop :=
  ∀ e, it.entry = some e → ∃ front x back data, it.IndexAt front x back ∧ it.dataIter = some data ∧
    data.entries = blocks.block x.2

def Leaves (blocks : BlockFunction cmp) (result : Option (TwoLevelIterator cmp))
    (e : Option (Key × Value)) (index : List (Key × Value)) : Prop :=
  ∃ it, result = some it ∧ it.entry = e ∧ it.indexIter.entries = index ∧ Placed blocks it

theorem valid_eq (it : TwoLevelIterator cmp) : it.valid = it.entry.isSome := by
  unfold valid entry
  cases it.dataIter <;> rfl

theorem indexIter_callData (it : TwoLevelIterator cmp) (a : CursorMove Key) :
    (it.callData a).indexIter = it.indexIter := rfl

@[simp] theorem indexIter_initDataBlock (it : TwoLevelIterator cmp) :
    (initDataBlock blocks it).indexIter = it.indexIter := by
  unfold initDataBlock
  split <;> rfl

theorem IndexAt.valid (standsAt : it.IndexAt front x back) : it.indexIter.valid := by
  simp [ListCursor.valid, standsAt.2]

theorem IndexAt.current_next (standsAt : it.IndexAt front x back) :
    (it.callIndex .next).indexIter.current = first back := by
  obtain ⟨entries, here⟩ := standsAt
  have ascending := it.indexIter.ascending
  rw [entries] at ascending
  simp only [callIndex, ListCursor.call, move, here, entries, Option.bind_some]
  exact next_at ascending

theorem IndexAt.current_prev (standsAt : it.IndexAt front x back) :
    (it.callIndex .prev).indexIter.current = last front := by
  obtain ⟨entries, here⟩ := standsAt
  have ascending := it.indexIter.ascending
  rw [entries] at ascending
  simp only [callIndex, ListCursor.call, move, here, entries, Option.bind_some]
  exact prev_at ascending

theorem initDataBlock_at (standsAt : it.IndexAt front x back) :
    initDataBlock blocks it = ⟨it.indexIter, blocks.opened x.2⟩ := by
  have handle : it.indexIter.value = x.2 := by simp [ListCursor.value, standsAt.2]
  rw [initDataBlock, if_neg (not_not.mpr standsAt.valid), handle]

theorem initDataBlock_nowhere (nowhere : it.indexIter.current = none) :
    initDataBlock blocks it = ⟨it.indexIter, none⟩ := by
  have notValid : ¬ it.indexIter.valid := by simp [ListCursor.valid, nowhere]
  rw [initDataBlock, if_pos notValid]

theorem entry_opened (standsAt : it.IndexAt front x back) (a : CursorMove Key) :
    ((initDataBlock blocks it).callData a).entry = move cmp.Before (blocks.block x.2) none a := by
  rw [initDataBlock_at standsAt, entry, callData, BlockFunction.block]
  cases shape : blocks.opened x.2 with
  | none => cases a <;> rfl
  | some data =>
      have unplaced := blocks.fresh x.2 data shape
      simp [ListCursor.call, unplaced]

theorem placed_opened (standsAt : it.IndexAt front x back) (a : CursorMove Key) :
    Placed blocks ((initDataBlock blocks it).callData a) := by
  intro e found
  obtain ⟨data, here, -⟩ := Option.bind_eq_some_iff.mp found
  rw [initDataBlock_at standsAt] at here ⊢
  refine ⟨front, x, back, data, standsAt, here, ?_⟩
  obtain ⟨first, shape, rfl⟩ := Option.map_eq_some_iff.mp here
  change blocks.opened x.2 = some first at shape
  rw [BlockFunction.block, shape]
  rfl

theorem placed_of_nowhere (nowhere : it.entry = none) : Placed blocks it := by
  intro e found
  rw [nowhere] at found
  cases found

theorem valid_of_entry {e : Key × Value} (stands : it.entry = some e) : it.valid := by
  rw [valid_eq, stands]
  rfl

theorem not_valid_of_entry (nowhere : it.entry = none) : ¬ it.valid := by
  rw [valid_eq, nowhere]
  exact Bool.false_ne_true

theorem indexAt_next {y : Key × Value} (standsAt : it.IndexAt front x (y :: back)) :
    (it.callIndex .next).IndexAt (front ++ [x]) y back :=
  ⟨by rw [callIndex, ListCursor.call_entries, standsAt.1, List.append_assoc]; rfl, standsAt.current_next⟩

theorem indexAt_prev {y : Key × Value} (standsAt : it.IndexAt (front ++ [y]) x back) :
    (it.callIndex .prev).IndexAt front y (x :: back) := by
  constructor
  · rw [callIndex, ListCursor.call_entries, standsAt.1, List.append_assoc]
    rfl
  · rw [standsAt.current_prev]
    exact List.getLast?_concat

theorem skipForward_leaves {rounds : Nat} {e : Key × Value} (stands : it.entry = some e)
    (placed : Placed blocks it) :
    Leaves blocks (skipForward blocks (rounds + 1) it) (some e) it.indexIter.entries := by
  rw [skipForward, if_pos (valid_of_entry stands)]
  exact ⟨it, rfl, stands, rfl, placed⟩

theorem skipBackward_leaves {rounds : Nat} {e : Key × Value} (stands : it.entry = some e)
    (placed : Placed blocks it) :
    Leaves blocks (skipBackward blocks (rounds + 1) it) (some e) it.indexIter.entries := by
  rw [skipBackward, if_pos (valid_of_entry stands)]
  exact ⟨it, rfl, stands, rfl, placed⟩

theorem skipForward_ended {rounds : Nat} (nowhere : it.entry = none) (ended : it.indexIter.current = none) :
    Leaves blocks (skipForward blocks (rounds + 1) it) none it.indexIter.entries := by
  have notValid : ¬ it.indexIter.valid := by simp [ListCursor.valid, ended]
  rw [skipForward, if_neg (not_valid_of_entry nowhere), if_pos notValid]
  exact ⟨_, rfl, rfl, rfl, placed_of_nowhere rfl⟩

theorem skipBackward_ended {rounds : Nat} (nowhere : it.entry = none) (ended : it.indexIter.current = none) :
    Leaves blocks (skipBackward blocks (rounds + 1) it) none it.indexIter.entries := by
  have notValid : ¬ it.indexIter.valid := by simp [ListCursor.valid, ended]
  rw [skipBackward, if_neg (not_valid_of_entry nowhere), if_pos notValid]
  exact ⟨_, rfl, rfl, rfl, placed_of_nowhere rfl⟩

theorem entry_unopened (nowhere : it.indexIter.current = none) (a : CursorMove Key) :
    ((initDataBlock blocks it).callData a).entry = none := by
  rw [initDataBlock_nowhere nowhere]
  rfl

def entered (blocks : BlockFunction cmp) (it : TwoLevelIterator cmp) (a b : CursorMove Key) : TwoLevelIterator cmp :=
  (initDataBlock blocks (it.callIndex a)).callData b

theorem indexIter_entered (a b : CursorMove Key) : (entered blocks it a b).indexIter = it.indexIter.call a := by
  rw [entered, indexIter_callData, indexIter_initDataBlock]
  rfl

theorem skipForward_round {rounds : Nat} (standsAt : it.IndexAt front x back) (nowhere : it.entry = none) :
    skipForward blocks (rounds + 1) it = skipForward blocks rounds (entered blocks it .next .seekToFirst) := by
  rw [skipForward, if_neg (not_valid_of_entry nowhere), if_neg (not_not.mpr standsAt.valid)]
  rfl

theorem skipBackward_round {rounds : Nat} (standsAt : it.IndexAt front x back) (nowhere : it.entry = none) :
    skipBackward blocks (rounds + 1) it = skipBackward blocks rounds (entered blocks it .prev .seekToLast) := by
  rw [skipBackward, if_neg (not_valid_of_entry nowhere), if_neg (not_not.mpr standsAt.valid)]
  rfl

theorem skipForward_exhausted {rounds : Nat} (enough : back.length + 2 ≤ rounds)
    (standsAt : it.IndexAt front x back) (nowhere : it.entry = none) :
    Leaves blocks (skipForward blocks rounds it) (first (blocks.contents back)) it.indexIter.entries := by
  induction back generalizing it front x rounds with
  | nil =>
      obtain ⟨rounds, rfl⟩ : ∃ n, rounds = n + 2 := Nat.exists_eq_add_of_le' enough
      have ended : (it.callIndex .next).indexIter.current = none := standsAt.current_next
      have left := @skipForward_ended _ blocks (entered blocks it .next .seekToFirst) rounds
        (entry_unopened ended .seekToFirst) (by rw [indexIter_entered]; exact ended)
      rw [indexIter_entered] at left
      rw [skipForward_round standsAt nowhere]
      exact left
  | cons y rest ih =>
      obtain ⟨rounds, rfl⟩ := Nat.exists_eq_succ_of_ne_zero (Nat.ne_of_gt (Nat.zero_lt_of_lt enough))
      have standsNext := indexAt_next standsAt
      have opened : (entered blocks it .next .seekToFirst).entry = first (blocks.block y.2) :=
        entry_opened standsNext .seekToFirst
      have placed : Placed blocks (entered blocks it .next .seekToFirst) :=
        placed_opened standsNext .seekToFirst
      have whole : blocks.contents (y :: rest) = blocks.block y.2 ++ blocks.contents rest := List.flatMap_cons
      have sameIndex : (entered blocks it .next .seekToFirst).indexIter.entries = it.indexIter.entries := by
        rw [indexIter_entered, ListCursor.call_entries]
      have fewer : rest.length + 2 ≤ rounds := Nat.le_of_succ_le_succ enough
      rw [Nat.succ_eq_add_one, skipForward_round standsAt nowhere, whole, first_append, ← sameIndex]
      -- The next block ends the loop, or it is empty and exhausted as well.
      cases here : first (blocks.block y.2) with
      | some e =>
          obtain ⟨rounds, rfl⟩ := Nat.exists_eq_succ_of_ne_zero (Nat.ne_of_gt (Nat.zero_lt_of_lt fewer))
          exact skipForward_leaves (opened.trans here) placed
      | none =>
          have standsEntered : (entered blocks it .next .seekToFirst).IndexAt (front ++ [x]) y rest := by
            rw [IndexAt, indexIter_entered]
            exact standsNext
          exact ih fewer standsEntered (opened.trans here)

theorem skipBackward_exhausted {rounds : Nat} (enough : front.length + 2 ≤ rounds)
    (standsAt : it.IndexAt front x back) (nowhere : it.entry = none) :
    Leaves blocks (skipBackward blocks rounds it) (last (blocks.contents front)) it.indexIter.entries := by
  induction front using List.reverseRecOn generalizing it x back rounds with
  | nil =>
      obtain ⟨rounds, rfl⟩ : ∃ n, rounds = n + 2 := Nat.exists_eq_add_of_le' enough
      have ended : (it.callIndex .prev).indexIter.current = none := standsAt.current_prev
      have left := @skipBackward_ended _ blocks (entered blocks it .prev .seekToLast) rounds
        (entry_unopened ended .seekToLast) (by rw [indexIter_entered]; exact ended)
      rw [indexIter_entered] at left
      rw [skipBackward_round standsAt nowhere]
      exact left
  | append_singleton rest y ih =>
      obtain ⟨rounds, rfl⟩ := Nat.exists_eq_succ_of_ne_zero (Nat.ne_of_gt (Nat.zero_lt_of_lt enough))
      have standsPrev := indexAt_prev standsAt
      have opened : (entered blocks it .prev .seekToLast).entry = last (blocks.block y.2) :=
        entry_opened standsPrev .seekToLast
      have placed : Placed blocks (entered blocks it .prev .seekToLast) :=
        placed_opened standsPrev .seekToLast
      have whole : blocks.contents (rest ++ [y]) = blocks.contents rest ++ blocks.block y.2 := by
        simp [BlockFunction.contents]
      have sameIndex : (entered blocks it .prev .seekToLast).indexIter.entries = it.indexIter.entries := by
        rw [indexIter_entered, ListCursor.call_entries]
      rw [List.length_append] at enough
      have fewer : rest.length + 2 ≤ rounds := Nat.le_of_succ_le_succ enough
      rw [Nat.succ_eq_add_one, skipBackward_round standsAt nowhere, whole, last_append, ← sameIndex]
      cases here : last (blocks.block y.2) with
      | some e =>
          obtain ⟨rounds, rfl⟩ := Nat.exists_eq_succ_of_ne_zero (Nat.ne_of_gt (Nat.zero_lt_of_lt fewer))
          exact skipBackward_leaves (opened.trans here) placed
      | none =>
          have standsEntered : (entered blocks it .prev .seekToLast).IndexAt rest y (x :: back) := by
            rw [IndexAt, indexIter_entered]
            exact standsPrev
          exact ih fewer standsEntered (opened.trans here)

/-! ## The calls -/

theorem skipForward_from (standsAt : it.IndexAt front x back) (placed : Placed blocks it) :
    Leaves blocks (skipEmptyDataBlocksForward blocks it) (it.entry.or (first (blocks.contents back)))
      it.indexIter.entries := by
  have enough : back.length + 2 ≤ it.indexIter.entries.length + 2 := by
    rw [standsAt.1, List.length_append, List.length_cons]
    omega
  cases stands : it.entry with
  | none => exact skipForward_exhausted enough standsAt stands
  | some e => exact skipForward_leaves stands placed

theorem skipBackward_from (standsAt : it.IndexAt front x back) (placed : Placed blocks it) :
    Leaves blocks (skipEmptyDataBlocksBackward blocks it) (it.entry.or (last (blocks.contents front)))
      it.indexIter.entries := by
  have enough : front.length + 2 ≤ it.indexIter.entries.length + 2 := by
    rw [standsAt.1, List.length_append, List.length_cons]
    omega
  cases stands : it.entry with
  | none => exact skipBackward_exhausted enough standsAt stands
  | some e => exact skipBackward_leaves stands placed

theorem skipForward_nowhere (nowhere : it.entry = none) (ended : it.indexIter.current = none) :
    Leaves blocks (skipEmptyDataBlocksForward blocks it) none it.indexIter.entries :=
  skipForward_ended nowhere ended

theorem skipBackward_nowhere (nowhere : it.entry = none) (ended : it.indexIter.current = none) :
    Leaves blocks (skipEmptyDataBlocksBackward blocks it) none it.indexIter.entries :=
  skipBackward_ended nowhere ended

theorem entry_initDataBlock (it : TwoLevelIterator cmp) : (initDataBlock blocks it).entry = none := by
  rw [initDataBlock]
  split
  · rfl
  · cases shape : blocks.opened it.indexIter.value with
    | none => rfl
    | some data => exact blocks.fresh _ data shape

theorem leaves_seekToFirst (it : TwoLevelIterator cmp) : Leaves blocks (call blocks it .seekToFirst)
    (first (blocks.contents it.indexIter.entries.tail)) it.indexIter.entries := by
  -- The block that has been opened is at no entry, which the loop takes for its end.
  have unplaced := @entry_initDataBlock _ blocks (it.callIndex .seekToFirst)
  have sameIndex : (initDataBlock blocks (it.callIndex .seekToFirst)).indexIter =
      it.indexIter.call .seekToFirst := indexIter_initDataBlock _
  have stands : (initDataBlock blocks (it.callIndex .seekToFirst)).indexIter.current =
      first it.indexIter.entries := by
    rw [sameIndex]
    rfl
  have entries : (initDataBlock blocks (it.callIndex .seekToFirst)).indexIter.entries =
      it.indexIter.entries := by rw [sameIndex, ListCursor.call_entries]
  cases shape : it.indexIter.entries with
  | nil =>
      rw [shape] at stands entries
      have left := @skipForward_nowhere _ blocks _ unplaced stands
      rw [entries] at left
      exact left
  | cons x rest =>
      rw [shape] at stands entries
      have left := @skipForward_from _ blocks _ [] rest x ⟨entries, stands⟩ (placed_of_nowhere unplaced)
      rw [unplaced, entries] at left
      exact left

theorem leaves_seekToLast (it : TwoLevelIterator cmp) : Leaves blocks (call blocks it .seekToLast)
    (last (blocks.contents it.indexIter.entries.dropLast)) it.indexIter.entries := by
  have unplaced := @entry_initDataBlock _ blocks (it.callIndex .seekToLast)
  have sameIndex : (initDataBlock blocks (it.callIndex .seekToLast)).indexIter =
      it.indexIter.call .seekToLast := indexIter_initDataBlock _
  have stands : (initDataBlock blocks (it.callIndex .seekToLast)).indexIter.current =
      last it.indexIter.entries := by
    rw [sameIndex]
    rfl
  have entries : (initDataBlock blocks (it.callIndex .seekToLast)).indexIter.entries =
      it.indexIter.entries := by rw [sameIndex, ListCursor.call_entries]
  cases shape : it.indexIter.entries using List.reverseRecOn with
  | nil =>
      rw [shape] at stands entries
      have left := @skipBackward_nowhere _ blocks _ unplaced stands
      rw [entries] at left
      exact left
  | append_singleton front x =>
      rw [shape] at stands entries
      have here : last (front ++ [x]) = some x := List.getLast?_concat
      have left := @skipBackward_from _ blocks _ front [] x ⟨entries, stands.trans here⟩
        (placed_of_nowhere unplaced)
      rw [unplaced, entries] at left
      rw [List.dropLast_concat]
      exact left

section Search
variable {target : Key}

theorem leaves_seek (entries : it.indexIter.entries = front ++ x :: back)
    (passed : ∀ y ∈ front, cmp.Before y.1 target) (reached : ¬ cmp.Before x.1 target) :
    Leaves blocks (call blocks it (.seek target))
      ((seek cmp.Before (blocks.block x.2) target).or (first (blocks.contents back)))
      it.indexIter.entries := by
  have found : seek cmp.Before it.indexIter.entries target = some x := by
    rw [entries]
    apply List.find?_eq_some_iff_append.mpr
    refine ⟨decide_eq_true reached, front, back, rfl, ?_⟩
    intro y member
    simp [passed y member]
  have standsAt : (it.callIndex (.seek target)).IndexAt front x back := ⟨entries, found⟩
  have standsEntered : (entered blocks it (.seek target) (.seek target)).IndexAt front x back := by
    rw [IndexAt, indexIter_entered]
    exact standsAt
  have left := skipForward_from standsEntered (placed_opened standsAt (.seek target))
  have opened : (entered blocks it (.seek target) (.seek target)).entry =
      seek cmp.Before (blocks.block x.2) target := entry_opened standsAt (.seek target)
  rw [opened, indexIter_entered, ListCursor.call_entries] at left
  exact left

theorem leaves_seek_none (passed : ∀ y ∈ it.indexIter.entries, cmp.Before y.1 target) :
    Leaves blocks (call blocks it (.seek target)) none it.indexIter.entries := by
  have nowhere : (it.callIndex (.seek target)).indexIter.current = none := by
    apply List.find?_eq_none.mpr
    intro y member
    simp [passed y member]
  have left := @skipForward_nowhere _ blocks (entered blocks it (.seek target) (.seek target))
    (entry_unopened nowhere _) (by rw [indexIter_entered]; exact nowhere)
  rw [indexIter_entered, ListCursor.call_entries] at left
  exact left

theorem leaves_seekForPrev (entries : it.indexIter.entries = front ++ x :: back)
    (passed : ∀ y ∈ back, cmp.Before target y.1) (reached : ¬ cmp.Before target x.1) :
    Leaves blocks (call blocks it (.seekForPrev target))
      ((seekForPrev cmp.Before (blocks.block x.2) target).or (last (blocks.contents front)))
      it.indexIter.entries := by
  have found : seekForPrev cmp.Before it.indexIter.entries target = some x := by
    rw [entries, seekForPrev, List.reverse_append, List.reverse_cons, List.append_assoc]
    apply List.find?_eq_some_iff_append.mpr
    refine ⟨decide_eq_true reached, back.reverse, front.reverse, rfl, ?_⟩
    intro y member
    simp [passed y (List.mem_reverse.mp member)]
  have standsAt : (it.callIndex (.seekForPrev target)).IndexAt front x back := ⟨entries, found⟩
  have standsEntered : (entered blocks it (.seekForPrev target) (.seekForPrev target)).IndexAt front x back := by
    rw [IndexAt, indexIter_entered]
    exact standsAt
  have left := skipBackward_from standsEntered (placed_opened standsAt (.seekForPrev target))
  have opened : (entered blocks it (.seekForPrev target) (.seekForPrev target)).entry =
      seekForPrev cmp.Before (blocks.block x.2) target := entry_opened standsAt (.seekForPrev target)
  rw [opened, indexIter_entered, ListCursor.call_entries] at left
  exact left

theorem leaves_seekForPrev_none (passed : ∀ y ∈ it.indexIter.entries, cmp.Before target y.1) :
    Leaves blocks (call blocks it (.seekForPrev target)) none it.indexIter.entries := by
  have nowhere : (it.callIndex (.seekForPrev target)).indexIter.current = none := by
    apply List.find?_eq_none.mpr
    intro y member
    simp [passed y (List.mem_reverse.mp member)]
  have left := @skipBackward_nowhere _ blocks (entered blocks it (.seekForPrev target) (.seekForPrev target))
    (entry_unopened nowhere _) (by rw [indexIter_entered]; exact nowhere)
  rw [indexIter_entered, ListCursor.call_entries] at left
  exact left

end Search

theorem leaves_next {e : Key × Value} (stands : it.entry = some e) (placed : Placed blocks it) :
    ∃ front x back, it.indexIter.entries = front ++ x :: back ∧ e ∈ blocks.block x.2 ∧
      Leaves blocks (call blocks it .next)
        ((next cmp.Before (blocks.block x.2) e.1).or (first (blocks.contents back)))
        it.indexIter.entries := by
  obtain ⟨front, x, back, data, standsAt, here, entries⟩ := placed e stands
  have current : data.current = some e := by
    rw [entry, here] at stands
    exact stands
  have stepped : (it.callData .next).entry = next cmp.Before (blocks.block x.2) e.1 := by
    rw [callData, entry, here, ← entries]
    simp [ListCursor.call, move, current]
  have still : Placed blocks (it.callData .next) := by
    intro d _
    refine ⟨front, x, back, data.call .next, standsAt, ?_, entries⟩
    rw [callData, here]
    rfl
  refine ⟨front, x, back, standsAt.1, entries ▸ data.inside e current, ?_⟩
  rw [call, if_pos (valid_of_entry stands), ← stepped]
  exact @skipForward_from _ blocks (it.callData .next) front back x standsAt still

theorem leaves_prev {e : Key × Value} (stands : it.entry = some e) (placed : Placed blocks it) :
    ∃ front x back, it.indexIter.entries = front ++ x :: back ∧ e ∈ blocks.block x.2 ∧
      Leaves blocks (call blocks it .prev)
        ((prev cmp.Before (blocks.block x.2) e.1).or (last (blocks.contents front)))
        it.indexIter.entries := by
  obtain ⟨front, x, back, data, standsAt, here, entries⟩ := placed e stands
  have current : data.current = some e := by
    rw [entry, here] at stands
    exact stands
  have stepped : (it.callData .prev).entry = prev cmp.Before (blocks.block x.2) e.1 := by
    rw [callData, entry, here, ← entries]
    simp [ListCursor.call, move, current]
  have still : Placed blocks (it.callData .prev) := by
    intro d _
    refine ⟨front, x, back, data.call .prev, standsAt, ?_, entries⟩
    rw [callData, here]
    rfl
  refine ⟨front, x, back, standsAt.1, entries ▸ data.inside e current, ?_⟩
  rw [call, if_pos (valid_of_entry stands), ← stepped]
  exact @skipBackward_from _ blocks (it.callData .prev) front back x standsAt still

/-! ## Against a cursor on the concatenation -/

theorem contents_append (a b : List (Key × Value)) :
    blocks.contents (a ++ b) = blocks.contents a ++ blocks.contents b := List.flatMap_append

theorem contents_cons (x : Key × Value) (rest : List (Key × Value)) :
    blocks.contents (x :: rest) = blocks.block x.2 ++ blocks.contents rest := List.flatMap_cons

def Separated (blocks : BlockFunction cmp) (index : List (Key × Value)) : Prop :=
  ∀ x ∈ index, ∀ e ∈ blocks.block x.2, ¬ cmp.Before x.1 e.1

/-- When a call comes to where it should: the block an end of the list is taken from is empty, or the
separators tell on which side of the target the entries of the blocks are. -/
def Positions (blocks : BlockFunction cmp) (index : List (Key × Value)) : CursorMove Key → Prop
  | .seekToFirst => ∀ x ∈ index.head?, blocks.block x.2 = []
  | .seekToLast => ∀ x ∈ index.getLast?, blocks.block x.2 = []
  | .seek target => index.Pairwise fun x y =>
      ¬ cmp.Before x.1 target → ∀ e ∈ blocks.block y.2, ¬ cmp.Before e.1 target
  | .seekForPrev target => ∀ x ∈ index, cmp.Before target x.1 → ∀ e ∈ blocks.block x.2, cmp.Before target e.1
  | .next => True
  | .prev => True

section Ascending
variable {a b : List (Key × Value)} {target : Key}

theorem not_in_both (ascending : (a ++ b).Pairwise fun x y => cmp.Before x.1 y.1) {e : Key × Value}
    (left : e ∈ a) : e ∉ b := fun right =>
  ((List.pairwise_append.mp ascending).2.2 e left e right).ne rfl

theorem first_iff (ascending : (a ++ b).Pairwise fun x y => cmp.Before x.1 y.1) :
    first b = first (a ++ b) ↔ a = [] := by
  constructor
  · intro same
    cases a with
    | nil => rfl
    | cons e rest =>
        have found : first b = some e := same
        exact absurd (List.mem_of_head? found) (not_in_both ascending (List.mem_cons_self ..))
  · rintro rfl
    rfl

theorem last_iff (ascending : (a ++ b).Pairwise fun x y => cmp.Before x.1 y.1) :
    last a = last (a ++ b) ↔ b = [] := by
  constructor
  · intro same
    cases b using List.reverseRecOn with
    | nil => rfl
    | append_singleton rest e =>
        have found : last a = some e := by
          rw [same, ← List.append_assoc]
          exact List.getLast?_concat
        exact absurd (List.mem_append_right rest (List.mem_singleton.mpr rfl))
          (not_in_both ascending (List.mem_of_getLast? found))
  · rintro rfl
    rw [List.append_nil]

theorem seek_iff (ascending : (a ++ b).Pairwise fun x y => cmp.Before x.1 y.1) :
    (seek cmp.Before a target).or (first b) = seek cmp.Before (a ++ b) target ↔
      ∀ e ∈ b, ¬ cmp.Before e.1 target := by
  rw [seek_append]
  constructor
  · intro same e member before
    obtain ⟨-, later, earlier⟩ := List.pairwise_append.mp ascending
    -- A key of `b` before the target has all of `a` before it.
    have passed : seek cmp.Before a target = none := by
      apply seek_eq_none
      exact fun c left => (earlier c left e member).trans before
    rw [passed, Option.none_or, Option.none_or] at same
    cases b with
    | nil => cases member
    | cons head rest =>
        have found : seek cmp.Before (head :: rest) target = some head := same.symm
        have holds := List.find?_some found
        have reached : ¬ cmp.Before head.1 target := of_decide_eq_true holds
        rcases List.mem_cons.mp member with rfl | behind
        · exact reached before
        · exact reached (((List.pairwise_cons.mp later).1 e behind).trans before)
  · intro reached
    rw [seek_eq_first reached]

theorem seekForPrev_iff (ascending : (a ++ b).Pairwise fun x y => cmp.Before x.1 y.1) :
    seekForPrev cmp.Before a target = seekForPrev cmp.Before (a ++ b) target ↔
      ∀ e ∈ b, cmp.Before target e.1 := by
  rw [seekForPrev_append]
  constructor
  · intro same e member
    by_contra notBefore
    cases found : seekForPrev cmp.Before b target with
    | none =>
        have passed := List.find?_eq_none.mp found e (List.mem_reverse.mpr member)
        exact passed (decide_eq_true notBefore)
    | some d =>
        rw [found, Option.some_or] at same
        exact absurd (List.mem_reverse.mp (List.mem_of_find?_eq_some found))
          (not_in_both ascending (List.mem_reverse.mp (List.mem_of_find?_eq_some same)))
  · intro passed
    rw [seekForPrev_eq_none passed, Option.none_or]

end Ascending

section Contents
variable {target : Key}

theorem contents_before (separated : Separated blocks index) (passed : ∀ y ∈ index, cmp.Before y.1 target) :
    ∀ e ∈ blocks.contents index, cmp.Before e.1 target := by
  intro e member
  obtain ⟨y, inIndex, inBlock⟩ := List.mem_flatMap.mp member
  rcases Comparator.not_before.mp (separated y inIndex e inBlock) with same | before
  · exact same ▸ passed y inIndex
  · exact before.trans (passed y inIndex)

theorem contents_not_behind (separated : Separated blocks index)
    (reached : ∀ y ∈ index, ¬ cmp.Before target y.1) :
    ∀ e ∈ blocks.contents index, ¬ cmp.Before target e.1 := by
  intro e member behind
  obtain ⟨y, inIndex, inBlock⟩ := List.mem_flatMap.mp member
  rcases Comparator.not_before.mp (separated y inIndex e inBlock) with same | before
  · exact reached y inIndex (same ▸ behind)
  · exact reached y inIndex (behind.trans before)

theorem positions_seek (passed : ∀ y ∈ front, cmp.Before y.1 target) (reached : ¬ cmp.Before x.1 target) :
    Positions blocks (front ++ x :: back) (.seek target) ↔
      ∀ e ∈ blocks.contents back, ¬ cmp.Before e.1 target := by
  constructor
  · intro positions e member
    obtain ⟨y, inIndex, inBlock⟩ := List.mem_flatMap.mp member
    obtain ⟨-, later, -⟩ := List.pairwise_append.mp positions
    exact (List.pairwise_cons.mp later).1 y inIndex reached e inBlock
  · intro ahead
    have behind : ∀ y ∈ back, ∀ e ∈ blocks.block y.2, ¬ cmp.Before e.1 target := fun y inIndex e inBlock =>
      ahead e (List.mem_flatMap.mpr ⟨y, inIndex, inBlock⟩)
    apply List.pairwise_append.mpr
    refine ⟨?_, List.pairwise_cons.mpr ⟨fun y inIndex _ => behind y inIndex, ?_⟩, ?_⟩
    · exact List.pairwise_of_forall_mem_list fun y inFront _ _ notBefore =>
        absurd (passed y inFront) notBefore
    · exact List.pairwise_of_forall_mem_list fun _ _ y inBack _ => behind y inBack
    · exact fun y inFront _ _ notBefore => absurd (passed y inFront) notBefore

theorem positions_seekForPrev (ascending : (front ++ x :: back).Pairwise fun a b => cmp.Before a.1 b.1)
    (passed : ∀ y ∈ back, cmp.Before target y.1) (reached : ¬ cmp.Before target x.1) :
    Positions blocks (front ++ x :: back) (.seekForPrev target) ↔
      ∀ e ∈ blocks.contents back, cmp.Before target e.1 := by
  constructor
  · intro positions e member
    obtain ⟨y, inIndex, inBlock⟩ := List.mem_flatMap.mp member
    exact positions y (List.mem_append_right _ (List.mem_cons_of_mem _ inIndex)) (passed y inIndex) e inBlock
  · intro ahead y member beyond
    rcases List.mem_append.mp member with inFront | rest
    · have before := (List.pairwise_append.mp ascending).2.2 y inFront x (List.mem_cons_self ..)
      exact absurd (beyond.trans before) reached
    · rcases List.mem_cons.mp rest with rfl | inBack
      · exact absurd beyond reached
      · exact fun e inBlock => ahead e (List.mem_flatMap.mpr ⟨y, inBack, inBlock⟩)

end Contents

section Calls
variable (separated : Separated blocks it.indexIter.entries)
  (ascending : (blocks.contents it.indexIter.entries).Pairwise fun a b => cmp.Before a.1 b.1)
include separated ascending

theorem leaves_seek_iff (target : Key) : ∃ e, Leaves blocks (call blocks it (.seek target)) e
    it.indexIter.entries ∧ (e = seek cmp.Before (blocks.contents it.indexIter.entries) target ↔
      Positions blocks it.indexIter.entries (.seek target)) := by
  cases found : seek cmp.Before it.indexIter.entries target with
  | none =>
      have passed : ∀ y ∈ it.indexIter.entries, cmp.Before y.1 target := by
        intro y member
        by_contra notBefore
        exact List.find?_eq_none.mp found y member (decide_eq_true notBefore)
      refine ⟨none, leaves_seek_none passed, ?_⟩
      rw [seek_eq_none (contents_before separated passed)]
      apply iff_of_true rfl
      exact List.pairwise_of_forall_mem_list fun y inIndex _ _ notBefore =>
        absurd (passed y inIndex) notBefore
  | some x =>
      obtain ⟨reached, front, back, entries, passed⟩ := List.find?_eq_some_iff_append.mp found
      have passed : ∀ y ∈ front, cmp.Before y.1 target := by
        intro y member
        have before := passed y member
        simpa using before
      have left := @leaves_seek _ blocks _ _ _ _ target entries passed (of_decide_eq_true reached)
      refine ⟨_, left, ?_⟩
      rw [entries] at ascending separated ⊢
      rw [contents_append, contents_cons] at ascending ⊢
      have earlier : ∀ e ∈ blocks.contents front, cmp.Before e.1 target := by
        apply contents_before _ passed
        exact fun y inFront => separated y (List.mem_append_left _ inFront)
      rw [seek_append, seek_eq_none earlier, Option.none_or,
        seek_iff (List.pairwise_append.mp ascending).2.1, positions_seek passed (of_decide_eq_true reached)]

theorem leaves_seekForPrev_iff (target : Key) : ∃ e, Leaves blocks (call blocks it (.seekForPrev target)) e
    it.indexIter.entries ∧ (e = seekForPrev cmp.Before (blocks.contents it.indexIter.entries) target ↔
      Positions blocks it.indexIter.entries (.seekForPrev target)) := by
  cases found : seekForPrev cmp.Before it.indexIter.entries target with
  | none =>
      have passed : ∀ y ∈ it.indexIter.entries, cmp.Before target y.1 := by
        intro y member
        by_contra notBefore
        exact List.find?_eq_none.mp found y (List.mem_reverse.mpr member) (decide_eq_true notBefore)
      refine ⟨none, leaves_seekForPrev_none passed, ?_⟩
      have none_iff := @seekForPrev_iff _ [] (blocks.contents it.indexIter.entries) target ascending
      rw [List.nil_append] at none_iff
      refine none_iff.trans ⟨?_, ?_⟩
      · exact fun ahead y inIndex _ e inBlock => ahead e (List.mem_flatMap.mpr ⟨y, inIndex, inBlock⟩)
      · intro positions e member
        obtain ⟨y, inIndex, inBlock⟩ := List.mem_flatMap.mp member
        exact positions y inIndex (passed y inIndex) e inBlock
  | some x =>
      obtain ⟨reached, first, rest, reversed, passed⟩ := List.find?_eq_some_iff_append.mp found
      have entries : it.indexIter.entries = rest.reverse ++ x :: first.reverse := by
        rw [← List.reverse_reverse it.indexIter.entries, reversed]
        simp
      have reached : ¬ cmp.Before target x.1 := of_decide_eq_true reached
      have passed : ∀ y ∈ first.reverse, cmp.Before target y.1 := by
        intro y member
        have before := passed y (List.mem_reverse.mp member)
        simpa using before
      have indexAscending := it.indexIter.ascending
      have left := @leaves_seekForPrev _ blocks _ _ _ _ target entries passed reached
      refine ⟨_, left, ?_⟩
      rw [entries] at ascending separated indexAscending ⊢
      rw [positions_seekForPrev indexAscending passed reached]
      rw [contents_append, contents_cons] at ascending ⊢
      have notBehind : ∀ e ∈ blocks.contents rest.reverse, ¬ cmp.Before target e.1 := by
        apply contents_not_behind
        · exact fun y inFront => separated y (List.mem_append_left _ inFront)
        · intro y inFront beyond
          have before := (List.pairwise_append.mp indexAscending).2.2 y inFront x (List.mem_cons_self ..)
          exact reached (beyond.trans before)
      rw [← List.append_assoc] at ascending ⊢
      rw [← seekForPrev_eq_end notBehind, ← seekForPrev_append]
      exact seekForPrev_iff ascending

omit separated in
theorem leaves_seekToFirst_iff : ∃ e, Leaves blocks (call blocks it .seekToFirst) e it.indexIter.entries ∧
    (e = first (blocks.contents it.indexIter.entries) ↔
      Positions blocks it.indexIter.entries .seekToFirst) := by
  refine ⟨_, leaves_seekToFirst it, ?_⟩
  cases entries : it.indexIter.entries with
  | nil => exact iff_of_true rfl nofun
  | cons x rest =>
      rw [entries, contents_cons] at ascending
      rw [contents_cons, List.tail_cons, first_iff ascending]
      simp [Positions]

omit separated in
theorem leaves_seekToLast_iff : ∃ e, Leaves blocks (call blocks it .seekToLast) e it.indexIter.entries ∧
    (e = last (blocks.contents it.indexIter.entries) ↔
      Positions blocks it.indexIter.entries .seekToLast) := by
  refine ⟨_, leaves_seekToLast it, ?_⟩
  cases entries : it.indexIter.entries using List.reverseRecOn with
  | nil => exact iff_of_true rfl nofun
  | append_singleton front x =>
      have single : blocks.contents [x] = blocks.block x.2 := by simp [BlockFunction.contents]
      rw [entries, contents_append, single] at ascending
      rw [contents_append, single, List.dropLast_concat, last_iff ascending]
      simp [Positions]

omit separated in
theorem around_entry {e : Key × Value} (entries : it.indexIter.entries = front ++ x :: back)
    (member : e ∈ blocks.block x.2) :
    (∀ d ∈ blocks.contents front, cmp.Before d.1 e.1) ∧ ∀ d ∈ blocks.contents back, cmp.Before e.1 d.1 := by
  rw [entries, contents_append, contents_cons] at ascending
  obtain ⟨-, rest, earlier⟩ := List.pairwise_append.mp ascending
  exact ⟨fun d inFront => earlier d inFront e (List.mem_append_left _ member),
    (List.pairwise_append.mp rest).2.2 e member⟩

omit separated in
theorem leaves_next_eq {e : Key × Value} (stands : it.entry = some e) (placed : Placed blocks it) :
    Leaves blocks (call blocks it .next) (next cmp.Before (blocks.contents it.indexIter.entries) e.1)
      it.indexIter.entries := by
  obtain ⟨front, x, back, entries, member, left⟩ := leaves_next stands placed
  obtain ⟨earlier, later⟩ := around_entry ascending entries member
  have target : next cmp.Before (blocks.contents it.indexIter.entries) e.1 =
      (next cmp.Before (blocks.block x.2) e.1).or (first (blocks.contents back)) := by
    rw [entries, contents_append, contents_cons, next_append, next_append, next_eq_first later,
      next_eq_none fun d inFront => (earlier d inFront).not_before, Option.none_or]
  rw [target]
  exact left

omit separated in
theorem leaves_prev_eq {e : Key × Value} (stands : it.entry = some e) (placed : Placed blocks it) :
    Leaves blocks (call blocks it .prev) (prev cmp.Before (blocks.contents it.indexIter.entries) e.1)
      it.indexIter.entries := by
  obtain ⟨front, x, back, entries, member, left⟩ := leaves_prev stands placed
  obtain ⟨earlier, later⟩ := around_entry ascending entries member
  have target : prev cmp.Before (blocks.contents it.indexIter.entries) e.1 =
      (prev cmp.Before (blocks.block x.2) e.1).or (last (blocks.contents front)) := by
    rw [entries, contents_append, contents_cons, prev_append, prev_append, prev_eq_last earlier,
      prev_eq_none fun d inBack => (later d inBack).not_before, Option.none_or]
  rw [target]
  exact left

theorem leaves_call (placed : Placed blocks it) {a : CursorMove Key} (enabled : a.isMove → it.valid) :
    ∃ e, Leaves blocks (call blocks it a) e it.indexIter.entries ∧
      (e = move cmp.Before (blocks.contents it.indexIter.entries) it.entry a ↔
        Positions blocks it.indexIter.entries a) := by
  cases a with
  | seekToFirst => exact leaves_seekToFirst_iff ascending
  | seekToLast => exact leaves_seekToLast_iff ascending
  | seek target => exact leaves_seek_iff separated ascending target
  | seekForPrev target => exact leaves_seekForPrev_iff separated ascending target
  | next =>
      obtain ⟨e, stands⟩ := Option.isSome_iff_exists.mp (it.valid_eq ▸ enabled rfl)
      refine ⟨_, leaves_next_eq ascending stands placed, iff_of_true ?_ trivial⟩
      rw [stands]
      rfl
  | prev =>
      obtain ⟨e, stands⟩ := Option.isSome_iff_exists.mp (it.valid_eq ▸ enabled rfl)
      refine ⟨_, leaves_prev_eq ascending stands placed, iff_of_true ?_ trivial⟩
      rw [stands]
      rfl

end Calls

/-! ## Runs -/

def step (blocks : BlockFunction cmp) (s : TwoLevelIterator cmp × EntryIterator cmp) (a : CursorMove Key) :
    Option (TwoLevelIterator cmp × EntryIterator cmp) :=
  if a.isMove ∧ ¬ s.1.valid then none
  else (call blocks s.1 a).map fun it => (it, s.2.call a)

def Agrees (it : TwoLevelIterator cmp) (cursor : EntryIterator cmp) : Prop :=
  it.valid = cursor.valid ∧ it.key = cursor.key ∧ it.value = cursor.value

instance (it : TwoLevelIterator cmp) (cursor : EntryIterator cmp) : Decidable (it.Agrees cursor) := by
  unfold Agrees; infer_instance

/-- The call finds its place among the blocks. -/
def InPlace (blocks : BlockFunction cmp) (s : TwoLevelIterator cmp × EntryIterator cmp) (a : CursorMove Key) : Prop :=
  Positions blocks s.1.indexIter.entries a

instance (s : TwoLevelIterator cmp × EntryIterator cmp) : (a : CursorMove Key) → Decidable (InPlace blocks s a)
  | .seekToFirst => inferInstanceAs (Decidable (∀ x ∈ s.1.indexIter.entries.head?, blocks.block x.2 = []))
  | .seekToLast => inferInstanceAs (Decidable (∀ x ∈ s.1.indexIter.entries.getLast?, blocks.block x.2 = []))
  | .seek target => inferInstanceAs (Decidable (s.1.indexIter.entries.Pairwise fun x y =>
      ¬ cmp.Before x.1 target → ∀ e ∈ blocks.block y.2, ¬ cmp.Before e.1 target))
  | .seekForPrev target => inferInstanceAs (Decidable (∀ x ∈ s.1.indexIter.entries,
      cmp.Before target x.1 → ∀ e ∈ blocks.block x.2, cmp.Before target e.1))
  | .next => .isTrue trivial
  | .prev => .isTrue trivial

theorem key_eq (it : TwoLevelIterator cmp) : it.key = (it.entry.map Prod.fst).getD [] := by
  unfold key entry
  cases it.dataIter <;> rfl

theorem value_eq (it : TwoLevelIterator cmp) : it.value = (it.entry.map Prod.snd).getD [] := by
  unfold value entry
  cases it.dataIter <;> rfl

theorem agrees_of_entry {cursor : EntryIterator cmp} (here : it.entry = cursor.current) :
    it.Agrees cursor :=
  ListCursor.told_of_current (valid_eq it) (key_eq it) (value_eq it) here

theorem agrees_iff {cursor : EntryIterator cmp} (placed : Placed blocks it)
    (lists : blocks.contents it.indexIter.entries = cursor.entries) :
    it.Agrees cursor ↔ it.entry = cursor.current := by
  apply ListCursor.told_iff (valid_eq it) (key_eq it) (value_eq it)
  intro e stands
  obtain ⟨front, x, back, data, standsAt, here, entries⟩ := placed e stands
  have current : data.current = some e := by
    rw [entry, here] at stands
    exact stands
  rw [← lists, standsAt.1, contents_append, contents_cons]
  exact List.mem_append_right _ (List.mem_append_left _ (entries ▸ data.inside e current))

structure Follows (blocks : BlockFunction cmp) (s : TwoLevelIterator cmp × EntryIterator cmp) : Prop where
  here : s.1.entry = s.2.current
  placed : Placed blocks s.1
  lists : blocks.contents s.1.indexIter.entries = s.2.entries
  separated : Separated blocks s.1.indexIter.entries

theorem Follows.call {s : TwoLevelIterator cmp × EntryIterator cmp} (follows : Follows blocks s) {a : CursorMove Key}
    (enabled : a.isMove → s.1.valid) : ∃ it, call blocks s.1 a = some it ∧ Placed blocks it ∧
      it.indexIter.entries = s.1.indexIter.entries ∧
        (it.entry = (s.2.call a).current ↔ InPlace blocks s a) := by
  have ascending := s.2.ascending
  rw [← follows.lists] at ascending
  obtain ⟨_, ⟨it, returned, rfl, same, placed⟩, exactly⟩ :=
    leaves_call follows.separated ascending follows.placed enabled
  refine ⟨it, returned, placed, same, ?_⟩
  rw [follows.lists, follows.here] at exactly
  exact exactly

/-- In every run whose positioning calls find their place, the iterator is at the entry of a cursor on the
concatenation of the blocks; every call returns, and departs from the cursor when it does not. -/
theorem twoLevel_runs (index cursor : EntryIterator cmp) (separated : Separated blocks index.entries)
    (lists : blocks.contents index.entries = cursor.entries) (start : (make blocks index).Agrees cursor)
    {s : TwoLevelIterator cmp × EntryIterator cmp}
    (run : Runs.Run (step blocks) (InPlace blocks) (make blocks index, cursor) s) :
    s.1.Agrees s.2 ∧ ∀ a : CursorMove Key, (a.isMove → s.1.valid) →
      ∃ it, call blocks s.1 a = some it ∧ (it.Agrees (s.2.call a) ↔ InPlace blocks s a) := by
  have sameIndex : (make blocks index).indexIter = index := indexIter_initDataBlock _
  have placed : Placed blocks (make blocks index) := placed_of_nowhere (entry_initDataBlock _)
  have made : blocks.contents (make blocks index).indexIter.entries = cursor.entries := by
    rw [sameIndex]
    exact lists
  have initial : Follows blocks (make blocks index, cursor) := by
    constructor
    case here => exact (agrees_iff placed made).mp start
    case placed => exact placed
    case lists => exact made
    case separated =>
        simp only [sameIndex]
        exact separated
  have follows : Follows blocks s := by
    apply Runs.Run.invariant _ run initial
    intro s a t inPlace stepped follows
    rw [step] at stepped
    split at stepped <;> [cases stepped; rename_i enabled]
    obtain ⟨it, returned, placed, same, exactly⟩ :=
      follows.call fun moves => of_not_not fun notValid => enabled ⟨moves, notValid⟩
    rw [returned] at stepped
    obtain rfl := Option.some.inj stepped
    exact ⟨exactly.mpr inPlace, placed, same ▸ follows.lists, same ▸ follows.separated⟩
  refine ⟨agrees_of_entry follows.here, fun a enabled => ?_⟩
  obtain ⟨it, returned, placed, same, exactly⟩ := follows.call enabled
  exact ⟨it, returned, (agrees_iff placed (same ▸ follows.lists)).trans exactly⟩

theorem oneTwo_ascending : [(([1] : Key), ([] : Value)), ([2], [])].Pairwise fun a b =>
    bytewiseComparator.Before a.1 b.1 := by decide +kernel

def oneTwo : EntryIterator bytewiseComparator := ListCursor.fresh _ oneTwo_ascending

def fewBlocks : BlockFunction bytewiseComparator where
  opened handle :=
    if handle = [1] then some oneTwo
    else if handle = [2] then some (ConcatenatingIterator.single 5)
    else if handle = [3] then none
    else some ConcatenatingIterator.noEntries
  fresh handle it found := by
    split at found
    · cases found
      rfl
    · split at found
      · cases found
        rfl
      · split at found <;> cases found
        rfl

def padded : EntryIterator bytewiseComparator :=
  ListCursor.fresh [([0], [0]), ([3], [1]), ([4], [3]), ([6], [2]), ([9], [0])] (by decide +kernel)

def threeKeys : EntryIterator bytewiseComparator :=
  ListCursor.fresh [([1], []), ([2], []), ([5], [])] (by decide +kernel)

def acrossBlocks : List (CursorMove Key) :=
  [.seekToFirst, .next, .next, .prev, .seek [3], .next, .seekToLast, .prev, .seekForPrev [4]]

theorem twoLevel_runs_across : ∃ s,
    Runs.execute (step fewBlocks) (make fewBlocks padded, threeKeys) acrossBlocks = some s ∧
      s.1.Agrees s.2 ∧ ∀ a : CursorMove Key, (a.isMove → s.1.valid) →
        ∃ it, call fewBlocks s.1 a = some it ∧ (it.Agrees (s.2.call a) ↔ InPlace fewBlocks s a) := by
  have facts : (Runs.execute (step fewBlocks) (make fewBlocks padded, threeKeys) acrossBlocks).any fun _ =>
      (∀ x ∈ padded.entries, ∀ e ∈ fewBlocks.block x.2, ¬ bytewiseComparator.Before x.1 e.1) ∧
        (make fewBlocks padded).Agrees threeKeys ∧ Runs.Allowed (step fewBlocks) (InPlace fewBlocks)
          (make fewBlocks padded, threeKeys) acrossBlocks := by decide +kernel
  obtain ⟨s, executed, facts⟩ := Option.any_eq_true _ _ |>.mp facts
  obtain ⟨separated, start, allowed⟩ := of_decide_eq_true facts
  exact ⟨s, executed, twoLevel_runs padded threeKeys separated (by decide +kernel) start
    (Runs.execute_run _ allowed executed)⟩

def twoEntries : EntryIterator bytewiseComparator :=
  ListCursor.fresh [([1], []), ([2], [])] (by decide +kernel)

def oneBlock : EntryIterator bytewiseComparator := ListCursor.fresh [([3], [1])] (List.pairwise_singleton _ _)

theorem twoLevel_skips : ¬ ∀ (index cursor : EntryIterator bytewiseComparator),
    Separated fewBlocks index.entries → fewBlocks.contents index.entries = cursor.entries →
      (make fewBlocks index).Agrees cursor →
        ∀ s, Runs.Run (step fewBlocks) Runs.free (make fewBlocks index, cursor) s → s.1.Agrees s.2 := by
  intro always
  have facts : (Runs.execute (step fewBlocks) (make fewBlocks oneBlock, twoEntries) [.seekToFirst]).any fun s =>
      (∀ x ∈ oneBlock.entries, ∀ e ∈ fewBlocks.block x.2, ¬ bytewiseComparator.Before x.1 e.1) ∧
        (make fewBlocks oneBlock).Agrees twoEntries ∧ ¬ s.1.Agrees s.2 := by decide +kernel
  obtain ⟨s, executed, facts⟩ := Option.any_eq_true _ _ |>.mp facts
  obtain ⟨separated, start, differs⟩ := of_decide_eq_true facts
  exact differs (always oneBlock twoEntries separated (by decide +kernel) start s
    (Runs.execute_run _ (Runs.allowed_free _ _ _) executed))

end TwoLevelIterator
end Lrdb
