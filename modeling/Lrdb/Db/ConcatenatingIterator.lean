import Lrdb.Base.ListCursors
import Lrdb.Base.Runs
import Lrdb.Util.Comparator

/-!
# The concatenating iterator

Its children lie one behind the other, and it stands in one of them. It is a cursor on the concatenation,
up to one call: a search backwards first looks for a key that is not before the target, and gives up when
there is none.
-/

namespace Lrdb
open Cursors

abbrev EntryIterator (cmp : Comparator) := ListCursor cmp.Before Value

structure ConcatenatingIterator (cmp : Comparator) where
  children : List (EntryIterator cmp)
  current : Int

namespace ConcatenatingIterator
variable {cmp : Comparator}

def make (iterators : List (Option (EntryIterator cmp))) : ConcatenatingIterator cmp :=
  let children := iterators.filterMap id
  ⟨children, if children.isEmpty then -1 else 0⟩

/-- `children_[current_]`, when `current_` is in bounds. -/
def child (it : ConcatenatingIterator cmp) : Option (EntryIterator cmp) :=
  if 0 ≤ it.current then it.children[it.current.toNat]? else none

def valid (it : ConcatenatingIterator cmp) : Bool := it.child.any ListCursor.valid

def key (it : ConcatenatingIterator cmp) : Key :=
  if it.valid then (it.child.map ListCursor.key).getD [] else []

def value (it : ConcatenatingIterator cmp) : Value :=
  if it.valid then (it.child.map ListCursor.value).getD [] else []

/-- The number of children, as the `int` that `current_` is compared with. -/
def size (it : ConcatenatingIterator cmp) : Int := it.children.length

def callCurrent (it : ConcatenatingIterator cmp) (a : CursorMove Key) : ConcatenatingIterator cmp :=
  { it with children := it.children.modify it.current.toNat fun child => child.call a }

/-- An assignment to `current_`. -/
def moveTo (it : ConcatenatingIterator cmp) (current : Int) : ConcatenatingIterator cmp :=
  { it with current := current }

/-- Rounds of the loop of `SkipEmptyChildren`. -/
def skipForward : Nat → ConcatenatingIterator cmp → ConcatenatingIterator cmp
  | 0, it => it
  | rounds + 1, it =>
      if it.current < it.size ∧ ¬ it.valid then
        if it.current + 1 < it.size then
          skipForward rounds ((it.moveTo (it.current + 1)).callCurrent .seekToFirst)
        else skipForward rounds (it.moveTo (it.current + 1))
      else it

def skipEmptyChildren (it : ConcatenatingIterator cmp) : ConcatenatingIterator cmp :=
  let skipped := skipForward it.children.length it
  if skipped.size ≤ skipped.current then skipped.moveTo (-1) else skipped

/-- Rounds of the loop of `SkipEmptyChildrenReverse`. -/
def skipBackward : Nat → ConcatenatingIterator cmp → ConcatenatingIterator cmp
  | 0, it => it
  | rounds + 1, it =>
      if 0 ≤ it.current ∧ ¬ it.valid then
        if 0 ≤ it.current - 1 then
          skipBackward rounds ((it.moveTo (it.current - 1)).callCurrent .seekToLast)
        else skipBackward rounds (it.moveTo (it.current - 1))
      else it

def skipEmptyChildrenReverse (it : ConcatenatingIterator cmp) : ConcatenatingIterator cmp :=
  skipBackward it.children.length it

def seekToFirst (it : ConcatenatingIterator cmp) : ConcatenatingIterator cmp :=
  if it.children.isEmpty then it.moveTo 0
  else ((it.moveTo 0).callCurrent .seekToFirst).skipEmptyChildren

def seekToLast (it : ConcatenatingIterator cmp) : ConcatenatingIterator cmp :=
  if 0 ≤ it.size - 1 then ((it.moveTo (it.size - 1)).callCurrent .seekToLast).skipEmptyChildrenReverse
  else it.moveTo (it.size - 1)

def next (it : ConcatenatingIterator cmp) : ConcatenatingIterator cmp :=
  if ¬ it.valid then it
  else
    let stepped := it.callCurrent .next
    if stepped.valid then stepped
    else if stepped.current + 1 < stepped.size then
      ((stepped.moveTo (stepped.current + 1)).callCurrent .seekToFirst).skipEmptyChildren
    else stepped.moveTo (stepped.current + 1)

def prev (it : ConcatenatingIterator cmp) : ConcatenatingIterator cmp :=
  if ¬ it.valid then it
  else
    let stepped := it.callCurrent .prev
    if stepped.valid then stepped
    else if 0 ≤ stepped.current - 1 then
      ((stepped.moveTo (stepped.current - 1)).callCurrent .seekToLast).skipEmptyChildrenReverse
    else stepped.moveTo (stepped.current - 1)

/-- `FindChild` from the child at `i`: every child it comes to is moved to the target. -/
def findChild (target : Key) : Nat → List (EntryIterator cmp) → Int × List (EntryIterator cmp)
  | _, [] => (-1, [])
  | i, child :: rest =>
      let moved := child.call (.seek target)
      if moved.valid then (i, moved :: rest)
      else
        let (found, children) := findChild target (i + 1) rest
        (found, moved :: children)

/-- `current_ = FindChild(target)`. -/
def placeAt (it : ConcatenatingIterator cmp) (target : Key) : ConcatenatingIterator cmp :=
  let (found, children) := findChild target 0 it.children
  ⟨children, found⟩

def seek (it : ConcatenatingIterator cmp) (target : Key) : ConcatenatingIterator cmp :=
  let placed := it.placeAt target
  if 0 ≤ placed.current ∧ placed.current < placed.size then
    let moved := placed.callCurrent (.seek target)
    if moved.valid then moved else moved.next
  else placed

def seekForPrev (it : ConcatenatingIterator cmp) (target : Key) : ConcatenatingIterator cmp :=
  let found := it.seek target
  if found.valid ∧ cmp.compare found.key target = .gt then found.prev else found

def call (it : ConcatenatingIterator cmp) : CursorMove Key → ConcatenatingIterator cmp
  | .seekToFirst => it.seekToFirst
  | .seekToLast => it.seekToLast
  | .seek target => it.seek target
  | .seekForPrev target => it.seekForPrev target
  | .next => it.next
  | .prev => it.prev

def entry (it : ConcatenatingIterator cmp) : Option (Key × Value) := it.child.bind ListCursor.current

def concatenation (it : ConcatenatingIterator cmp) : List (Key × Value) :=
  it.children.flatMap ListCursor.entries

/-! ## A state by its parts -/

def standing (before : List (EntryIterator cmp)) (child : EntryIterator cmp)
    (after : List (EntryIterator cmp)) : ConcatenatingIterator cmp :=
  ⟨before ++ child :: after, before.length⟩

variable {before after : List (EntryIterator cmp)} {c : EntryIterator cmp} {it : ConcatenatingIterator cmp}

@[simp] theorem child_standing : (standing before c after).child = some c := by
  simp [child, standing]

@[simp] theorem valid_standing : (standing before c after).valid = c.valid := by
  simp [valid]

@[simp] theorem entry_standing : (standing before c after).entry = c.current := by
  simp [entry]

@[simp] theorem callCurrent_standing (a : CursorMove Key) :
    (standing before c after).callCurrent a = standing before (c.call a) after := by
  have place : ((before.length : Int)).toNat = before.length := Int.toNat_natCast _
  rw [callCurrent, standing, standing]
  simp only [place, List.modify_eq_take_drop, List.take_left, List.drop_left]
  rfl

theorem concatenation_standing : (standing before c after).concatenation =
    before.flatMap ListCursor.entries ++ (c.entries ++ after.flatMap ListCursor.entries) := by
  simp [concatenation, standing]

theorem standing_of_entry {e : Key × Value} (stands : it.entry = some e) :
    ∃ before c after, it = standing before c after ∧ c.current = some e := by
  obtain ⟨c, here, found⟩ := Option.bind_eq_some_iff.mp stands
  unfold child at here
  split at here <;> [rename_i bound; cases here]
  obtain ⟨inside, value⟩ := List.getElem?_eq_some_iff.mp here
  refine ⟨it.children.take it.current.toNat, c, it.children.drop (it.current.toNat + 1), ?_, found⟩
  have whole : it.children.take it.current.toNat ++ c :: it.children.drop (it.current.toNat + 1) =
      it.children := by
    rw [← value, ← List.drop_eq_getElem_cons inside, List.take_append_drop]
  have place : ((it.children.take it.current.toNat).length : Int) = it.current := by
    rw [List.length_take, Nat.min_eq_left inside.le, Int.toNat_of_nonneg bound]
  rw [standing, whole, place]

theorem valid_eq (it : ConcatenatingIterator cmp) : it.valid = it.entry.isSome := by
  unfold valid entry
  cases it.child <;> rfl

theorem key_eq (it : ConcatenatingIterator cmp) : it.key = (it.entry.map Prod.fst).getD [] := by
  unfold key valid entry
  cases it.child with
  | none => rfl
  | some c => cases shape : c.current <;> simp [ListCursor.valid, ListCursor.key, shape]

theorem value_eq (it : ConcatenatingIterator cmp) : it.value = (it.entry.map Prod.snd).getD [] := by
  unfold value valid entry
  cases it.child with
  | none => rfl
  | some c => cases shape : c.current <;> simp [ListCursor.valid, ListCursor.value, shape]

/-! ## The loops -/

def StandsAt (it : ConcatenatingIterator cmp) (e : Option (Key × Value)) (out : List (Key × Value)) : Prop :=
  it.entry = e ∧ it.concatenation = out

theorem first_entries (c : EntryIterator cmp) : (c.call .seekToFirst).current = first c.entries := rfl

theorem last_entries (c : EntryIterator cmp) : (c.call .seekToLast).current = last c.entries := rfl

theorem moveTo_next (before : List (EntryIterator cmp)) (c d : EntryIterator cmp)
    (after : List (EntryIterator cmp)) :
    (standing before c (d :: after)).moveTo ((standing before c (d :: after)).current + 1) =
      standing (before ++ [c]) d after := by
  simp [moveTo, standing]

theorem moveTo_prev (before : List (EntryIterator cmp)) (c d : EntryIterator cmp)
    (after : List (EntryIterator cmp)) :
    (standing (before ++ [d]) c after).moveTo ((standing (before ++ [d]) c after).current - 1) =
      standing before d (c :: after) := by
  simp [moveTo, standing]

theorem room_next (before : List (EntryIterator cmp)) (c d : EntryIterator cmp)
    (after : List (EntryIterator cmp)) :
    (standing before c (d :: after)).current + 1 < (standing before c (d :: after)).size := by
  simp only [standing, size, List.length_append, List.length_cons]
  omega

theorem no_room_next (before : List (EntryIterator cmp)) (c : EntryIterator cmp) :
    (standing before c []).size ≤ (standing before c []).current + 1 := by
  simp [standing, size]

theorem current_lt_size : (standing before c after).current < (standing before c after).size := by
  simp only [standing, size, List.length_append, List.length_cons]
  omega

theorem entry_beyond (out : it.size ≤ it.current) : it.entry = none := by
  have none : it.child = none := by
    unfold child
    split
    · apply List.getElem?_eq_none
      unfold size at out
      omega
    · rfl
  rw [entry, none]
  rfl

theorem entry_negative (out : it.current < 0) : it.entry = none := by
  rw [entry, child, if_neg (Int.not_le.mpr out)]
  rfl

theorem current_of_valid {c : EntryIterator cmp} (isValid : c.valid) : ∃ e, c.current = some e :=
  Option.isSome_iff_exists.mp isValid

theorem current_of_not_valid {c : EntryIterator cmp} (notValid : ¬ c.valid) : c.current = none :=
  Option.not_isSome_iff_eq_none.mp notValid

theorem skipForward_of_valid {rounds : Nat} (stop : it.valid) : skipForward rounds it = it := by
  cases rounds with
  | zero => rfl
  | succ rounds => rw [skipForward, if_neg fun more => more.2 stop]

theorem skipForward_beyond {rounds : Nat} (stop : it.size ≤ it.current) : skipForward rounds it = it := by
  cases rounds with
  | zero => rfl
  | succ rounds => rw [skipForward, if_neg fun more => absurd more.1 (Int.not_lt.mpr stop)]

theorem skipForward_nil {rounds : Nat} (more : ¬ c.valid) : skipForward (rounds + 1) (standing before c []) =
    (standing before c []).moveTo ((standing before c []).current + 1) := by
  rw [skipForward, if_pos ⟨current_lt_size, by rwa [valid_standing]⟩,
    if_neg (Int.not_lt.mpr (no_room_next before c))]
  exact skipForward_beyond (no_room_next before c)

theorem skipForward_cons {rounds : Nat} {d : EntryIterator cmp} (more : ¬ c.valid) :
    skipForward (rounds + 1) (standing before c (d :: after)) =
      skipForward rounds (standing (before ++ [c]) (d.call .seekToFirst) after) := by
  rw [skipForward, if_pos ⟨current_lt_size, by rwa [valid_standing]⟩, if_pos (room_next before c d after),
    moveTo_next, callCurrent_standing]

theorem standsAt_skipForward {rounds : Nat} (enough : after.length < rounds) :
    StandsAt (skipForward rounds (standing before c after))
      (c.current.or (first (after.flatMap ListCursor.entries))) (standing before c after).concatenation := by
  induction after generalizing before c rounds with
  | nil =>
      obtain ⟨rounds, rfl⟩ := Nat.exists_eq_succ_of_ne_zero (Nat.ne_of_gt enough)
      by_cases stop : c.valid
      · obtain ⟨e, here⟩ := current_of_valid stop
        rw [skipForward_of_valid (by rwa [valid_standing])]
        exact ⟨by rw [entry_standing, here]; rfl, rfl⟩
      · rw [skipForward_nil stop, current_of_not_valid stop]
        exact ⟨entry_beyond (no_room_next before c), rfl⟩
  | cons d rest ih =>
      obtain ⟨rounds, rfl⟩ := Nat.exists_eq_succ_of_ne_zero (Nat.ne_of_gt (Nat.zero_lt_of_lt enough))
      by_cases stop : c.valid
      · obtain ⟨e, here⟩ := current_of_valid stop
        rw [skipForward_of_valid (by rwa [valid_standing])]
        exact ⟨by rw [entry_standing, here]; rfl, rfl⟩
      · obtain ⟨here, lists⟩ := @ih (before ++ [c]) (d.call .seekToFirst) rounds (Nat.lt_of_succ_lt_succ enough)
        rw [skipForward_cons stop, current_of_not_valid stop]
        constructor
        · rw [here, first_entries, List.flatMap_cons, first_append]
          rfl
        · rw [lists, concatenation_standing, concatenation_standing]
          simp

theorem skipBackward_of_valid {rounds : Nat} (stop : it.valid) : skipBackward rounds it = it := by
  cases rounds with
  | zero => rfl
  | succ rounds => rw [skipBackward, if_neg fun more => more.2 stop]

theorem skipBackward_negative {rounds : Nat} (stop : it.current < 0) : skipBackward rounds it = it := by
  cases rounds with
  | zero => rfl
  | succ rounds => rw [skipBackward, if_neg fun more => absurd more.1 (Int.not_le.mpr stop)]

theorem skipBackward_nil {rounds : Nat} (more : ¬ c.valid) : skipBackward (rounds + 1) (standing [] c after) =
    (standing [] c after).moveTo ((standing [] c after).current - 1) := by
  rw [skipBackward, if_pos ⟨le_rfl, by rwa [valid_standing]⟩, if_neg (by simp [standing])]
  exact skipBackward_negative (by simp [standing, moveTo])

theorem skipBackward_concat {rounds : Nat} {d : EntryIterator cmp} (more : ¬ c.valid) :
    skipBackward (rounds + 1) (standing (before ++ [d]) c after) =
      skipBackward rounds (standing before (d.call .seekToLast) (c :: after)) := by
  have inside : 0 ≤ (standing (before ++ [d]) c after).current := Int.natCast_nonneg _
  have room : 0 ≤ (standing (before ++ [d]) c after).current - 1 := by simp [standing]
  rw [skipBackward, if_pos ⟨inside, by rwa [valid_standing]⟩, if_pos room, moveTo_prev, callCurrent_standing]

theorem standsAt_skipBackward {rounds : Nat} (enough : before.length < rounds) :
    StandsAt (skipBackward rounds (standing before c after))
      (c.current.or (last (before.flatMap ListCursor.entries))) (standing before c after).concatenation := by
  induction before using List.reverseRecOn generalizing c after rounds with
  | nil =>
      obtain ⟨rounds, rfl⟩ := Nat.exists_eq_succ_of_ne_zero (Nat.ne_of_gt enough)
      by_cases stop : c.valid
      · obtain ⟨e, here⟩ := current_of_valid stop
        rw [skipBackward_of_valid (by rwa [valid_standing])]
        exact ⟨by rw [entry_standing, here]; rfl, rfl⟩
      · rw [skipBackward_nil stop, current_of_not_valid stop]
        exact ⟨entry_negative (by simp [standing, moveTo]), rfl⟩
  | append_singleton rest d ih =>
      obtain ⟨rounds, rfl⟩ := Nat.exists_eq_succ_of_ne_zero (Nat.ne_of_gt (Nat.zero_lt_of_lt enough))
      by_cases stop : c.valid
      · obtain ⟨e, here⟩ := current_of_valid stop
        rw [skipBackward_of_valid (by rwa [valid_standing])]
        exact ⟨by rw [entry_standing, here]; rfl, rfl⟩
      · rw [List.length_append] at enough
        obtain ⟨here, lists⟩ := @ih (c :: after) (d.call .seekToLast) rounds (Nat.lt_of_succ_lt_succ enough)
        rw [skipBackward_concat stop, current_of_not_valid stop]
        constructor
        · rw [here, last_entries, List.flatMap_append, last_append]
          simp
        · rw [lists, concatenation_standing, concatenation_standing]
          simp

theorem standsAt_skipEmptyChildren (before : List (EntryIterator cmp)) (c : EntryIterator cmp)
    (after : List (EntryIterator cmp)) : StandsAt (standing before c after).skipEmptyChildren
      (c.current.or (first (after.flatMap ListCursor.entries))) (standing before c after).concatenation := by
  have enough : after.length < (standing before c after).children.length := by
    simp only [standing, List.length_append, List.length_cons]
    omega
  have skipped := @standsAt_skipForward cmp before after c _ enough
  unfold skipEmptyChildren
  dsimp only
  split
  · rename_i beyond
    rw [StandsAt, entry_beyond beyond] at skipped
    exact ⟨(entry_negative (by simp [moveTo])).trans skipped.1, skipped.2⟩
  · exact skipped

theorem standsAt_skipEmptyChildrenReverse (before : List (EntryIterator cmp)) (c : EntryIterator cmp)
    (after : List (EntryIterator cmp)) : StandsAt (standing before c after).skipEmptyChildrenReverse
      (c.current.or (last (before.flatMap ListCursor.entries))) (standing before c after).concatenation := by
  have enough : before.length < (standing before c after).children.length := by
    simp only [standing, List.length_append, List.length_cons]
    omega
  exact standsAt_skipBackward enough

/-! ## The calls -/

theorem concatenation_call (a : CursorMove Key) :
    (standing before (c.call a) after).concatenation = (standing before c after).concatenation := by
  rw [concatenation_standing, concatenation_standing]
  rfl

theorem standsAt_seekToFirst (it : ConcatenatingIterator cmp) :
    StandsAt it.seekToFirst (first it.concatenation) it.concatenation := by
  obtain ⟨children, current⟩ := it
  cases children with
  | nil => exact ⟨rfl, rfl⟩
  | cons c after =>
      have start : (⟨c :: after, current⟩ : ConcatenatingIterator cmp).moveTo 0 = standing [] c after := rfl
      obtain ⟨here, lists⟩ := standsAt_skipEmptyChildren [] (c.call .seekToFirst) after
      have whole : (⟨c :: after, current⟩ : ConcatenatingIterator cmp).concatenation =
          (standing [] c after).concatenation := rfl
      rw [seekToFirst, if_neg (by simp), start, callCurrent_standing, whole]
      refine ⟨here.trans ?_, lists.trans (concatenation_call .seekToFirst)⟩
      rw [first_entries, concatenation_standing, List.flatMap_nil, List.nil_append, first_append]

theorem standsAt_seekToLast (it : ConcatenatingIterator cmp) :
    StandsAt it.seekToLast (last it.concatenation) it.concatenation := by
  obtain ⟨children, current⟩ := it
  cases children using List.reverseRecOn with
  | nil => exact ⟨rfl, rfl⟩
  | append_singleton before c =>
      have start : (⟨before ++ [c], current⟩ : ConcatenatingIterator cmp).moveTo
          ((⟨before ++ [c], current⟩ : ConcatenatingIterator cmp).size - 1) = standing before c [] := by
        simp [moveTo, size, standing]
      obtain ⟨here, lists⟩ := standsAt_skipEmptyChildrenReverse before (c.call .seekToLast) []
      have whole : (⟨before ++ [c], current⟩ : ConcatenatingIterator cmp).concatenation =
          (standing before c []).concatenation := rfl
      rw [seekToLast, if_pos (by simp [size]), start, callCurrent_standing, whole]
      refine ⟨here.trans ?_, lists.trans (concatenation_call .seekToLast)⟩
      rw [last_entries, concatenation_standing, List.flatMap_nil, List.append_nil, last_append]

theorem parts_apart (ascending : (standing before c after).concatenation.Pairwise
    fun a b => cmp.Before a.1 b.1) {e : Key × Value} (member : e ∈ c.entries) :
    (∀ d ∈ before.flatMap ListCursor.entries, cmp.Before d.1 e.1) ∧
      ∀ d ∈ after.flatMap ListCursor.entries, cmp.Before e.1 d.1 := by
  rw [concatenation_standing] at ascending
  obtain ⟨-, rest, earlier⟩ := List.pairwise_append.mp ascending
  obtain ⟨-, -, later⟩ := List.pairwise_append.mp rest
  exact ⟨fun d front => earlier d front e (List.mem_append_left _ member), later e member⟩

theorem standsAt_next (ascending : it.concatenation.Pairwise fun a b => cmp.Before a.1 b.1)
    {e : Key × Value} (stands : it.entry = some e) :
    StandsAt it.next (Cursors.next cmp.Before it.concatenation e.1) it.concatenation := by
  obtain ⟨before, c, after, rfl, here⟩ := standing_of_entry stands
  obtain ⟨earlier, later⟩ := parts_apart ascending (c.inside e here)
  have isValid : (standing before c after).valid := by simp [ListCursor.valid, here]
  have stepped : (c.call .next).current = Cursors.next cmp.Before c.entries e.1 := by
    simp [ListCursor.call, move, here]
  have target : Cursors.next cmp.Before (standing before c after).concatenation e.1 =
      (c.call .next).current.or (first (after.flatMap ListCursor.entries)) := by
    rw [concatenation_standing, next_append, next_append, stepped, next_eq_none fun d front =>
      (earlier d front).not_before, next_eq_first later, Option.none_or]
  rw [next, if_neg (not_not.mpr isValid), callCurrent_standing, target]
  dsimp only
  by_cases stop : (c.call .next).valid
  · obtain ⟨d, found⟩ := current_of_valid stop
    rw [if_pos (by rwa [valid_standing])]
    exact ⟨by rw [entry_standing, found]; rfl, concatenation_call .next⟩
  · rw [if_neg (by rwa [valid_standing]), current_of_not_valid stop, Option.none_or]
    cases after with
    | nil =>
        rw [if_neg (Int.not_lt.mpr (no_room_next before _))]
        exact ⟨entry_beyond (no_room_next before _), concatenation_call .next⟩
    | cons d rest =>
        obtain ⟨found, lists⟩ := standsAt_skipEmptyChildren (before ++ [c.call .next]) (d.call .seekToFirst) rest
        rw [if_pos (room_next before _ d rest), moveTo_next, callCurrent_standing]
        constructor
        · rw [found, first_entries, List.flatMap_cons, first_append]
        · rw [lists, concatenation_standing, concatenation_standing]
          simp

theorem standsAt_prev (ascending : it.concatenation.Pairwise fun a b => cmp.Before a.1 b.1)
    {e : Key × Value} (stands : it.entry = some e) :
    StandsAt it.prev (Cursors.prev cmp.Before it.concatenation e.1) it.concatenation := by
  obtain ⟨before, c, after, rfl, here⟩ := standing_of_entry stands
  obtain ⟨earlier, later⟩ := parts_apart ascending (c.inside e here)
  have isValid : (standing before c after).valid := by simp [ListCursor.valid, here]
  have stepped : (c.call .prev).current = Cursors.prev cmp.Before c.entries e.1 := by
    simp [ListCursor.call, move, here]
  have target : Cursors.prev cmp.Before (standing before c after).concatenation e.1 =
      (c.call .prev).current.or (last (before.flatMap ListCursor.entries)) := by
    rw [concatenation_standing, prev_append, prev_append, stepped, prev_eq_none fun d back =>
      (later d back).not_before, prev_eq_last earlier, Option.none_or]
  rw [prev, if_neg (not_not.mpr isValid), callCurrent_standing, target]
  dsimp only
  by_cases stop : (c.call .prev).valid
  · obtain ⟨d, found⟩ := current_of_valid stop
    rw [if_pos (by rwa [valid_standing])]
    exact ⟨by rw [entry_standing, found]; rfl, concatenation_call .prev⟩
  · rw [if_neg (by rwa [valid_standing]), current_of_not_valid stop, Option.none_or]
    cases before using List.reverseRecOn with
    | nil =>
        rw [if_neg (by simp [standing])]
        exact ⟨entry_negative (by simp [standing, moveTo]), concatenation_call .prev⟩
    | append_singleton rest d =>
        obtain ⟨found, lists⟩ := standsAt_skipEmptyChildrenReverse rest (d.call .seekToLast) (c.call .prev :: after)
        rw [if_pos (by simp [standing]), moveTo_prev, callCurrent_standing]
        constructor
        · rw [found, last_entries, List.flatMap_append, last_append]
          simp
        · rw [lists, concatenation_standing, concatenation_standing]
          simp

theorem findChild_cases (target : Key) (i : Nat) (children : List (EntryIterator cmp)) :
    (findChild target i children = (-1, children.map fun c => c.call (.seek target)) ∧
        ∀ c ∈ children, Cursors.seek cmp.Before c.entries target = none) ∨
      ∃ before c after, children = before ++ c :: after ∧ (c.call (.seek target)).valid ∧
        (∀ d ∈ before, Cursors.seek cmp.Before d.entries target = none) ∧
          findChild target i children =
            ((i : Int) + before.length,
              before.map (fun d => d.call (.seek target)) ++ c.call (.seek target) :: after) := by
  induction children generalizing i with
  | nil => exact .inl ⟨rfl, nofun⟩
  | cons c rest ih =>
      rw [findChild]
      by_cases stop : (c.call (.seek target)).valid
      · right
        exact ⟨[], c, rest, rfl, stop, nofun, by simp [stop]⟩
      · have passed : Cursors.seek cmp.Before c.entries target = none := current_of_not_valid stop
        simp only [stop]
        rcases ih (i + 1) with ⟨found, all⟩ | ⟨before, d, after, rfl, isValid, all, found⟩
        · left
          rw [found]
          exact ⟨rfl, List.forall_mem_cons.mpr ⟨passed, all⟩⟩
        · right
          refine ⟨c :: before, d, after, rfl, isValid, List.forall_mem_cons.mpr ⟨passed, all⟩, ?_⟩
          rw [found]
          simp
          omega

theorem seek_none {children : List (EntryIterator cmp)} {target : Key}
    (all : ∀ c ∈ children, Cursors.seek cmp.Before c.entries target = none) :
    Cursors.seek cmp.Before (children.flatMap ListCursor.entries) target = none := by
  induction children with
  | nil => rfl
  | cons c rest ih =>
      obtain ⟨here, later⟩ := List.forall_mem_cons.mp all
      rw [List.flatMap_cons, seek_append, here, ih later]
      rfl

theorem flatMap_call (children : List (EntryIterator cmp)) (a : CursorMove Key) :
    (children.map fun c => c.call a).flatMap ListCursor.entries = children.flatMap ListCursor.entries := by
  rw [List.flatMap_map]
  rfl

theorem standsAt_seek (it : ConcatenatingIterator cmp) (target : Key) :
    StandsAt (it.seek target) (Cursors.seek cmp.Before it.concatenation target) it.concatenation := by
  rcases findChild_cases target 0 it.children with ⟨found, all⟩ | ⟨before, c, after, whole, isValid, all, found⟩
  · have place : it.placeAt target = ⟨it.children.map fun c => c.call (.seek target), -1⟩ := by
      rw [placeAt, found]
    rw [seek, place, if_neg (by simp)]
    exact ⟨(entry_negative (by simp)).trans (seek_none all).symm, flatMap_call _ _⟩
  · have place : it.placeAt target =
        standing (before.map fun d => d.call (.seek target)) (c.call (.seek target)) after := by
      rw [placeAt, found]
      simp [standing]
    have lists : it.concatenation = (standing before c after).concatenation :=
      congrArg (fun children => children.flatMap ListCursor.entries) whole
    obtain ⟨e, here⟩ := current_of_valid isValid
    have sought : Cursors.seek cmp.Before c.entries target = some e := here
    -- A second search leaves the child where `FindChild` has put it.
    rw [seek, place, if_pos ⟨Int.natCast_nonneg _, current_lt_size⟩, callCurrent_standing, lists]
    dsimp only
    rw [if_pos (by rw [valid_standing]; exact isValid)]
    constructor
    · rw [entry_standing, concatenation_standing, seek_append, seek_append, seek_none all, sought]
      exact here
    · rw [concatenation_standing, concatenation_standing, flatMap_call]
      rfl

theorem standsAt_seekForPrev (ascending : it.concatenation.Pairwise fun a b => cmp.Before a.1 b.1)
    (target : Key) : StandsAt (it.seekForPrev target)
      (if Cursors.seek cmp.Before it.concatenation target = none then none
        else Cursors.seekForPrev cmp.Before it.concatenation target) it.concatenation := by
  obtain ⟨here, lists⟩ := standsAt_seek it target
  rw [seekForPrev]
  cases sought : Cursors.seek cmp.Before it.concatenation target with
  | none =>
      rw [sought] at here
      have notValid : ¬ (it.seek target).valid := by simp [valid_eq, here]
      rw [if_neg fun both => notValid both.1, if_pos rfl]
      exact ⟨here, lists⟩
  | some e =>
      rw [sought] at here
      have isValid : (it.seek target).valid := by simp [valid_eq, here]
      have at_key : (it.seek target).key = e.1 := by simp [key_eq, here]
      rw [if_neg (Option.some_ne_none e), seekForPrev_of_seek ascending sought, at_key]
      by_cases beyond : cmp.Before target e.1
      · have stepped := standsAt_prev (lists ▸ ascending) here
        rw [if_pos ⟨isValid, Comparator.compare_gt.mpr beyond⟩, if_pos beyond]
        rwa [lists] at stepped
      · rw [if_neg fun both => beyond (Comparator.compare_gt.mp both.2), if_neg beyond]
        exact ⟨here, lists⟩

/-! ## Runs -/

def step (s : ConcatenatingIterator cmp × EntryIterator cmp) (a : CursorMove Key) :
    Option (ConcatenatingIterator cmp × EntryIterator cmp) :=
  some (s.1.call a, s.2.call a)

def Agrees (it : ConcatenatingIterator cmp) (cursor : EntryIterator cmp) : Prop :=
  it.valid = cursor.valid ∧ it.key = cursor.key ∧ it.value = cursor.value

instance (it : ConcatenatingIterator cmp) (cursor : EntryIterator cmp) : Decidable (it.Agrees cursor) := by
  unfold Agrees; infer_instance

/-- A search backwards has a key that is not before its target, or nothing to find. -/
def Reached (s : ConcatenatingIterator cmp × EntryIterator cmp) : CursorMove Key → Prop
  | .seekForPrev target => s.2.entries = [] ∨ ∃ e ∈ s.2.entries, ¬ cmp.Before e.1 target
  | _ => True

instance (s : ConcatenatingIterator cmp × EntryIterator cmp) (a : CursorMove Key) : Decidable (Reached s a) := by
  cases a <;> unfold Reached <;> infer_instance

def Follows (s : ConcatenatingIterator cmp × EntryIterator cmp) : Prop :=
  StandsAt s.1 s.2.current s.2.entries

theorem agrees_of_entry {cursor : EntryIterator cmp} (here : it.entry = cursor.current) :
    it.Agrees cursor :=
  ListCursor.told_of_current (valid_eq it) (key_eq it) (value_eq it) here

theorem agrees_iff {cursor : EntryIterator cmp} (lists : it.concatenation = cursor.entries) :
    it.Agrees cursor ↔ it.entry = cursor.current := by
  apply ListCursor.told_iff (valid_eq it) (key_eq it) (value_eq it)
  intro e stands
  obtain ⟨before, c, after, rfl, found⟩ := standing_of_entry stands
  rw [← lists, concatenation_standing]
  exact List.mem_append_right _ (List.mem_append_left _ (c.inside e found))

theorem follows_call {s : ConcatenatingIterator cmp × EntryIterator cmp} (follows : Follows s)
    {a : CursorMove Key} (reached : Reached s a) : Follows (s.1.call a, s.2.call a) := by
  obtain ⟨it, cursor⟩ := s
  obtain ⟨here, lists⟩ := follows
  have ascending := cursor.ascending
  simp only at here lists
  rw [← lists] at ascending
  have target (b : CursorMove Key) : (cursor.call b).current = move cmp.Before it.concatenation it.entry b := by
    rw [here, lists]
    rfl
  rw [Follows, target, ListCursor.call_entries, ← lists]
  cases a with
  | seekToFirst => exact standsAt_seekToFirst it
  | seekToLast => exact standsAt_seekToLast it
  | seek t => exact standsAt_seek it t
  | seekForPrev t =>
      have stands := standsAt_seekForPrev ascending t
      -- With no key from the target on the code stops; a cursor goes to the last entry.
      split at stands
      · rename_i sought
        rw [show move cmp.Before it.concatenation it.entry (.seekForPrev t) =
          Cursors.seekForPrev cmp.Before it.concatenation t from rfl, seekForPrev_eq_last sought]
        rcases reached with empty | ⟨e, member, notBefore⟩
        · simp only at empty
          rw [lists, empty] at stands ⊢
          exact stands
        · simp only at member
          rw [← lists] at member
          exact absurd (decide_eq_true notBefore) (List.find?_eq_none.mp sought e member)
      · exact stands
  | next =>
      cases stands : it.entry with
      | none =>
          have stays : it.next = it := by rw [next, if_pos (by simp [valid_eq, stands])]
          exact ⟨(congrArg entry stays).trans stands, congrArg concatenation stays⟩
      | some e => exact standsAt_next ascending stands
  | prev =>
      cases stands : it.entry with
      | none =>
          have stays : it.prev = it := by rw [prev, if_pos (by simp [valid_eq, stands])]
          exact ⟨(congrArg entry stays).trans stands, congrArg concatenation stays⟩
      | some e => exact standsAt_prev ascending stands

theorem reached_of_agrees {s : ConcatenatingIterator cmp × EntryIterator cmp} (follows : Follows s)
    {a : CursorMove Key} (agrees : (s.1.call a).Agrees (s.2.call a)) : Reached s a := by
  obtain ⟨it, cursor⟩ := s
  obtain ⟨here, lists⟩ := follows
  cases a with
  | seekForPrev t =>
      simp only at lists agrees
      have ascending := cursor.ascending
      rw [← lists] at ascending
      obtain ⟨found, same⟩ := standsAt_seekForPrev ascending t
      have entries := (@agrees_iff cmp (it.seekForPrev t) (cursor.call (.seekForPrev t))
        (same.trans lists)).mp agrees
      by_cases sought : Cursors.seek cmp.Before it.concatenation t = none
      · left
        have target : (cursor.call (.seekForPrev t)).current = last cursor.entries := by
          rw [← lists, ← seekForPrev_eq_last sought, lists]
          rfl
        rw [target] at entries
        have nowhere : last cursor.entries = none := by
          rw [← entries, found, if_pos sought]
        exact List.getLast?_eq_none_iff.mp nowhere
      · right
        obtain ⟨e, sought⟩ := Option.ne_none_iff_exists'.mp sought
        have holds := List.find?_some sought
        exact ⟨e, lists ▸ List.mem_of_find?_eq_some sought, of_decide_eq_true holds⟩
  | seekToFirst => trivial
  | seekToLast => trivial
  | seek t => trivial
  | next => trivial
  | prev => trivial

/-- In every run whose backward searches have a key that is not before their target, the iterator is a
cursor on the concatenation; and a search with no such key in a list that is not empty departs from it. -/
theorem concatenating_runs (iterators : List (Option (EntryIterator cmp))) (cursor : EntryIterator cmp)
    (lists : (make iterators).concatenation = cursor.entries) (start : (make iterators).Agrees cursor)
    {s : ConcatenatingIterator cmp × EntryIterator cmp}
    (run : Runs.Run step Reached (make iterators, cursor) s) :
    s.1.Agrees s.2 ∧ ∀ a, (s.1.call a).Agrees (s.2.call a) ↔ Reached s a := by
  have initial : Follows (make iterators, cursor) := ⟨(agrees_iff lists).mp start, lists⟩
  have follows : Follows s := by
    apply Runs.Run.invariant _ run initial
    intro s a t reached stepped follows
    obtain rfl := Option.some.inj stepped
    exact follows_call follows reached
  refine ⟨agrees_of_entry follows.1, fun a => ⟨reached_of_agrees follows, ?_⟩⟩
  intro reached
  exact agrees_of_entry (follows_call follows reached).1

def noEntries : EntryIterator cmp := ListCursor.fresh [] List.Pairwise.nil

theorem single_ascending (key : UInt8) : [(([key] : Key), ([] : Value))].Pairwise fun a b =>
    bytewiseComparator.Before a.1 b.1 := List.pairwise_singleton _ _

def single (key : UInt8) : EntryIterator bytewiseComparator := ListCursor.fresh _ (single_ascending key)

theorem twoKeys_ascending : [(([1] : Key), ([] : Value)), ([3], [])].Pairwise fun a b =>
    bytewiseComparator.Before a.1 b.1 := by decide +kernel

def twoKeys : EntryIterator bytewiseComparator := ListCursor.fresh _ twoKeys_ascending

def spread : List (Option (EntryIterator bytewiseComparator)) :=
  [some (single 1), none, some noEntries, some (single 3)]

def acrossTheGap : List (CursorMove Key) :=
  [.seekForPrev [2], .next, .prev, .seek [2], .seekToLast, .next, .next, .seekToFirst, .prev]

theorem concatenating_runs_across : ∃ s, Runs.execute step (make spread, twoKeys) acrossTheGap = some s ∧
    s.1.Agrees s.2 ∧ ∀ a, (s.1.call a).Agrees (s.2.call a) ↔ Reached s a := by
  have facts : (Runs.execute step (make spread, twoKeys) acrossTheGap).any fun _ =>
      (make spread).Agrees twoKeys ∧
        Runs.Allowed step Reached (make spread, twoKeys) acrossTheGap := by decide +kernel
  obtain ⟨s, executed, facts⟩ := Option.any_eq_true _ _ |>.mp facts
  obtain ⟨start, allowed⟩ := of_decide_eq_true facts
  exact ⟨s, executed, concatenating_runs spread twoKeys rfl start (Runs.execute_run _ allowed executed)⟩

theorem concatenating_misses : ¬ ∀ (iterators : List (Option (EntryIterator bytewiseComparator)))
    (cursor : EntryIterator bytewiseComparator), (make iterators).concatenation = cursor.entries →
      (make iterators).Agrees cursor → ∀ s, Runs.Run step Runs.free (make iterators, cursor) s →
        s.1.Agrees s.2 := by
  intro always
  have facts : (Runs.execute step (make [some (single 1)], single 1) [.seekForPrev [2]]).any fun s =>
      (make [some (single 1)]).Agrees (single 1) ∧ ¬ s.1.Agrees s.2 := by decide +kernel
  obtain ⟨s, executed, facts⟩ := Option.any_eq_true _ _ |>.mp facts
  obtain ⟨start, differs⟩ := of_decide_eq_true facts
  exact differs (always _ _ rfl start s (Runs.execute_run _ (Runs.allowed_free _ _ _) executed))

end ConcatenatingIterator
end Lrdb
