import Lrdb.Db.ConcatenatingIterator

/-!
# The merging iterator of the database

Every positioning call moves all children and takes the least of their entries, or the greatest. `Next` and
`Prev` move only the child that gave the current entry: the others must already stand where they would be
needed.
-/

namespace Lrdb.DbIterator
open Cursors

structure IteratorState (cmp : Comparator) where
  iter : EntryIterator cmp
  valid : Bool
  fresh : valid = iter.valid

structure MergeIterator (cmp : Comparator) where
  children : List (IteratorState cmp)
  current : Int

namespace MergeIterator
variable {cmp : Comparator}

def load (iter : EntryIterator cmp) : IteratorState cmp := ⟨iter, iter.valid, rfl⟩

def callChild (a : CursorMove Key) (state : IteratorState cmp) : IteratorState cmp := load (state.iter.call a)

def make (children : List (Option (EntryIterator cmp))) : MergeIterator cmp :=
  match (children.filterMap id).map load with
  | [] => ⟨[], -1⟩
  | first :: rest => ⟨callChild .seekToFirst first :: rest, 0⟩

/-- `children_[current_]`, when `current_` is in bounds. -/
def child (it : MergeIterator cmp) : Option (IteratorState cmp) :=
  if 0 ≤ it.current then it.children[it.current.toNat]? else none

def valid (it : MergeIterator cmp) : Bool := it.child.any IteratorState.valid

def key (it : MergeIterator cmp) : Key :=
  if it.valid then (it.child.map fun state => state.iter.key).getD [] else []

def value (it : MergeIterator cmp) : Value :=
  if it.valid then (it.child.map fun state => state.iter.value).getD [] else []

/-- The test of the loops: `Compare(..) < 0` in `FindSmallest`, `Compare(..) > 0` in `FindLargest`. -/
def better (wanted : Ordering) (children : List (IteratorState cmp)) (current i : Nat) : Bool :=
  match children[i]?, children[current]? with
  | some state, some best =>
      state.valid && (!best.valid || cmp.compare state.iter.key best.iter.key == wanted)
  | _, _ => false

def pick (wanted : Ordering) (children : List (IteratorState cmp)) : Nat → Nat
  | 0 => 0
  | i + 1 =>
      let current := pick wanted children i
      if better wanted children current (i + 1) then i + 1 else current

def find (wanted : Ordering) (it : MergeIterator cmp) : MergeIterator cmp :=
  if it.children.isEmpty then { it with current := -1 }
  else { it with current := pick wanted it.children (it.children.length - 1) }

def findSmallest (it : MergeIterator cmp) : MergeIterator cmp := find .lt it

def findLargest (it : MergeIterator cmp) : MergeIterator cmp := find .gt it

def callAll (it : MergeIterator cmp) (a : CursorMove Key) : MergeIterator cmp :=
  ⟨it.children.map (callChild a), 0⟩

def callCurrent (it : MergeIterator cmp) (a : CursorMove Key) : MergeIterator cmp :=
  { it with children := it.children.modify it.current.toNat (callChild a) }

def call (it : MergeIterator cmp) : CursorMove Key → MergeIterator cmp
  | .seekToFirst => (it.callAll .seekToFirst).findSmallest
  | .seekToLast => (it.callAll .seekToLast).findLargest
  | .seek target => (it.callAll (.seek target)).findSmallest
  | .seekForPrev target => (it.callAll (.seekForPrev target)).findLargest
  | .next => if ¬ it.valid then it else (it.callCurrent .next).findSmallest
  | .prev => if ¬ it.valid then it else (it.callCurrent .prev).findLargest

def entry (it : MergeIterator cmp) : Option (Key × Value) := it.child.bind fun state => state.iter.current

def entries (it : MergeIterator cmp) : List (Key × Value) := it.children.flatMap fun state => state.iter.entries

/-! ## The loop -/

def wantedBy (a : CursorMove Key) : Ordering := if a.isForward then .lt else .gt

theorem along_iff {a : CursorMove Key} {x y : Key} : along cmp.Before a x y ↔ cmp.compare x y = wantedBy a := by
  unfold along wantedBy
  cases a.isForward with
  | true => rfl
  | false => exact Comparator.compare_gt.symm

def headAt (children : List (IteratorState cmp)) (i : Nat) : Option (Key × Value) :=
  children[i]?.bind fun state => state.iter.current

def heads (children : List (IteratorState cmp)) : Set (Key × Value) :=
  {e | ∃ i, headAt children i = some e}

variable {children : List (IteratorState cmp)} {it : MergeIterator cmp} {a : CursorMove Key} {i : Nat}

theorem headAt_eq {state : IteratorState cmp} (here : children[i]? = some state) :
    headAt children i = state.iter.current := by
  rw [headAt, here]
  rfl

theorem better_eq {current : Nat} (hc : current < children.length) (hi : i < children.length) :
    better (wantedBy a) children current i = true ↔ ∃ e ∈ headAt children i,
      ∀ best ∈ headAt children current, along cmp.Before a e.1 best.1 := by
  obtain ⟨state, here⟩ : ∃ state, children[i]? = some state := ⟨_, List.getElem?_eq_getElem hi⟩
  obtain ⟨best, there⟩ : ∃ best, children[current]? = some best := ⟨_, List.getElem?_eq_getElem hc⟩
  rw [headAt_eq here, headAt_eq there, better, here, there]
  simp only [state.fresh, best.fresh, ListCursor.valid, ListCursor.key, along_iff]
  cases state.iter.current with
  | none => simp
  | some e => cases best.iter.current <;> simp

/-- The entries of the children up to `i`. -/
def headsTo (children : List (IteratorState cmp)) (i : Nat) : Set (Key × Value) :=
  {e | ∃ j ≤ i, headAt children j = some e}

theorem headsTo_zero : headsTo children 0 = {e | headAt children 0 = some e} := by
  simp [headsTo]

theorem headsTo_succ : headsTo children (i + 1) =
    {e | headAt children (i + 1) = some e} ∪ headsTo children i := by
  ext e
  constructor
  · rintro ⟨j, within, found⟩
    rcases Nat.le_succ_iff.mp within with earlier | rfl
    · exact .inr ⟨j, earlier, found⟩
    · exact .inl found
  · rintro (found | ⟨j, within, found⟩)
    · exact ⟨i + 1, le_rfl, found⟩
    · exact ⟨j, Nat.le_succ_of_le within, found⟩

theorem single_head {e : Key × Value} (here : headAt children i = some e) :
    {d | headAt children i = some d} = {e} := by
  ext d
  show headAt children i = some d ↔ d = e
  rw [here, Option.some_inj]
  exact eq_comm

theorem leastIn_pick (inside : i < children.length) : pick (wantedBy a) children i ≤ i ∧
    LeastIn (along cmp.Before a) (headsTo children i)
      (headAt children (pick (wantedBy a) children i)) := by
  induction i with
  | zero =>
      refine ⟨le_rfl, ?_⟩
      rw [pick, headsTo_zero]
      cases here : headAt children 0 with
      | none => exact fun e found => by cases found
      | some e => exact ⟨rfl, fun d found => Option.some.inj found ▸ irrefl_of _ _⟩
  | succ i ih =>
      obtain ⟨bound, least⟩ := ih (Nat.lt_of_succ_lt inside)
      have test := @better_eq _ children a (i + 1) _ (bound.trans_lt (Nat.lt_of_succ_lt inside)) inside
      rw [pick, headsTo_succ]
      split
      · rename_i isBetter
        obtain ⟨e, here, before⟩ := test.mp isBetter
        refine ⟨le_rfl, ?_⟩
        rw [single_head here, here]
        exact least.replaced (fun _ _ => asymm_of _) (fun _ _ _ => trans_of _) before
      · rename_i notBetter
        refine ⟨Nat.le_succ_of_le bound, ?_⟩
        cases here : headAt children (i + 1) with
        | none =>
            apply least.congr
            exact fun d => (or_iff_right fun found => by cases found).symm
        | some e =>
            rw [← here, single_head here]
            cases there : headAt children (pick (wantedBy a) children i) with
            | none => exact absurd (test.mpr ⟨e, here, by simp [there]⟩) notBetter
            | some best =>
                rw [there] at least
                apply least.kept
                intro before
                apply notBetter (test.mpr ⟨e, here, ?_⟩)
                rintro _ found
                obtain rfl := Option.some.inj (there.symm.trans found)
                exact before

theorem headAt_beyond (out : children.length ≤ i) : headAt children i = none := by
  rw [headAt, List.getElem?_eq_none out]
  rfl

theorem entry_eq (it : MergeIterator cmp) (inBounds : 0 ≤ it.current) :
    it.entry = headAt it.children it.current.toNat := by
  rw [entry, child, if_pos inBounds]
  rfl

theorem leastIn_find (it : MergeIterator cmp) (a : CursorMove Key) :
    LeastIn (along cmp.Before a) (heads it.children) (find (wantedBy a) it).entry := by
  rw [find]
  split
  · rename_i empty
    rintro e ⟨i, found⟩
    rw [List.isEmpty_iff.mp empty, headAt_beyond (Nat.zero_le i)] at found
    cases found
  · rename_i nonempty
    have present : 0 < it.children.length := List.length_pos_of_ne_nil fun nil =>
      nonempty (List.isEmpty_iff.mpr nil)
    have least := (@leastIn_pick _ it.children a _ (Nat.sub_lt present Nat.one_pos)).2
    rw [entry_eq _ (Int.natCast_nonneg _)]
    apply least.congr
    intro e
    constructor
    · rintro ⟨j, -, found⟩
      exact ⟨j, found⟩
    · rintro ⟨j, found⟩
      refine ⟨j, ?_, found⟩
      by_contra far
      rw [headAt_beyond (by omega)] at found
      cases found

/-! ## Positioning -/

variable {cursor : EntryIterator cmp} {state : IteratorState cmp} {e d : Key × Value}

theorem call_of_not_move (it : MergeIterator cmp) (positions : ¬ a.isMove) :
    it.call a = find (wantedBy a) (it.callAll a) := by
  cases a with
  | next => exact absurd rfl positions
  | prev => exact absurd rfl positions
  | seekToFirst => rfl
  | seekToLast => rfl
  | seek t => rfl
  | seekForPrev t => rfl

theorem call_of_move (it : MergeIterator cmp) (moves : a.isMove) (isValid : it.valid) :
    it.call a = find (wantedBy a) (it.callCurrent a) := by
  cases a with
  | next => exact if_neg (not_not.mpr isValid)
  | prev => exact if_neg (not_not.mpr isValid)
  | seekToFirst => cases moves
  | seekToLast => cases moves
  | seek t => cases moves
  | seekForPrev t => cases moves

theorem call_of_not_valid (it : MergeIterator cmp) (moves : a.isMove) (notValid : ¬ it.valid) :
    it.call a = it := by
  cases a with
  | next => exact if_pos notValid
  | prev => exact if_pos notValid
  | seekToFirst => cases moves
  | seekToLast => cases moves
  | seek t => cases moves
  | seekForPrev t => cases moves

theorem soughtIn_of_not_move {out : List (Key × Value)} (positions : ¬ a.isMove)
    (p q : Option (Key × Value)) : soughtIn cmp.Before out p a = soughtIn cmp.Before out q a := by
  cases a with
  | next => exact absurd rfl positions
  | prev => exact absurd rfl positions
  | seekToFirst => rfl
  | seekToLast => rfl
  | seek t => rfl
  | seekForPrev t => rfl

theorem mem_entries : e ∈ it.entries ↔ ∃ (i : Nat) (state : IteratorState cmp),
    it.children[i]? = some state ∧ e ∈ state.iter.entries := by
  unfold entries
  rw [List.mem_flatMap]
  constructor
  · rintro ⟨state, member, inside⟩
    obtain ⟨i, here⟩ := List.mem_iff_getElem?.mp member
    exact ⟨i, state, here, inside⟩
  · rintro ⟨i, state, here, inside⟩
    exact ⟨state, List.mem_of_getElem? here, inside⟩

theorem leastIn_find_entries {p : Key → Prop}
    (each : ∀ (i : Nat) (state : IteratorState cmp), it.children[i]? = some state →
      LeastIn (along cmp.Before a) {x | x ∈ state.iter.entries ∧ p x.1} state.iter.current) :
    LeastIn (along cmp.Before a) {x | x ∈ it.entries ∧ p x.1} (find (wantedBy a) it).entry := by
  have parts (i : Nat) : LeastIn (along cmp.Before a)
      {x | ∃ state, it.children[i]? = some state ∧ x ∈ state.iter.entries ∧ p x.1}
      (headAt it.children i) := by
    cases here : it.children[i]? with
    | none =>
        rw [headAt, here]
        rintro x ⟨state, absent, -⟩
        cases absent
    | some state =>
        rw [headAt_eq here]
        apply (each i state here).congr
        intro x
        constructor
        · exact fun holds => ⟨state, rfl, holds⟩
        · rintro ⟨_, same, holds⟩
          obtain rfl := Option.some.inj same
          exact holds
  apply (LeastIn.union parts (leastIn_find it a)).congr
  intro x
  constructor
  · rintro ⟨i, state, here, inside, holds⟩
    exact ⟨mem_entries.mpr ⟨i, state, here, inside⟩, holds⟩
  · rintro ⟨member, holds⟩
    obtain ⟨i, state, here, inside⟩ := mem_entries.mp member
    exact ⟨i, state, here, inside, holds⟩

theorem entries_callAll (it : MergeIterator cmp) (a : CursorMove Key) : (it.callAll a).entries = it.entries := by
  rw [entries, entries, callAll, List.flatMap_map]
  rfl

theorem callAll_each (positions : ¬ a.isMove) (i : Nat) (state : IteratorState cmp)
    (here : (it.callAll a).children[i]? = some state) : LeastIn (along cmp.Before a)
      (soughtIn cmp.Before state.iter.entries none a) state.iter.current := by
  rw [callAll, List.getElem?_map] at here
  obtain ⟨before, -, rfl⟩ := Option.map_eq_some_iff.mp here
  have least := before.iter.leastIn_call a
  rw [soughtIn_of_not_move positions _ none] at least
  exact least

theorem leastIn_callAll (merges : ∀ e, e ∈ cursor.entries ↔ e ∈ it.entries) (positions : ¬ a.isMove) :
    LeastIn (along cmp.Before a) (soughtIn cmp.Before cursor.entries cursor.current a)
      (find (wantedBy a) (it.callAll a)).entry := by
  rw [soughtIn_of_not_move positions _ none]
  apply (leastIn_find_entries (callAll_each positions)).congr
  intro x
  apply and_congr_left
  intro _
  rw [entries_callAll]
  exact (merges x).symm

/-! ## Moving -/

/-- Where the other children must be before a move: beyond the current entry, and at the entry that comes
next if it is theirs. -/
def Ready (s : MergeIterator cmp × EntryIterator cmp) (a : CursorMove Key) : Prop :=
  a.isMove → ∀ e ∈ s.1.entry, ∀ other ∈ s.1.children.zipIdx, (other.2 : Int) ≠ s.1.current →
    (∀ d ∈ other.1.iter.current, along cmp.Before a e.1 d.1) ∧
      ∀ d ∈ (s.2.call a).current, d ∈ other.1.iter.entries → other.1.iter.current = some d

theorem sought_of_move {p : Option (Key × Value)} (moves : a.isMove) (stands : p = some e) {key : Key} :
    Sought cmp.Before p a key ↔ along cmp.Before a e.1 key := by
  subst stands
  cases a with
  | next => simp [Sought, along, CursorMove.isForward]
  | prev => simp [Sought, along, CursorMove.isForward]
  | seekToFirst => cases moves
  | seekToLast => cases moves
  | seek t => cases moves
  | seekForPrev t => cases moves

theorem same_child (once : it.entries.Nodup) {i j : Nat} {x y : IteratorState cmp}
    (hx : it.children[i]? = some x) (hy : it.children[j]? = some y) (inX : e ∈ x.iter.entries)
    (inY : e ∈ y.iter.entries) : i = j := by
  obtain ⟨-, apart⟩ := List.nodup_flatMap.mp once
  have ordered := List.pairwise_iff_getElem.mp apart
  obtain ⟨hi, rfl⟩ := List.getElem?_eq_some_iff.mp hx
  obtain ⟨hj, rfl⟩ := List.getElem?_eq_some_iff.mp hy
  rcases Nat.lt_trichotomy i j with less | same | more
  · exact absurd inY (ordered i j hi hj less inX)
  · exact same
  · exact absurd inX (ordered j i hj hi more inY)

theorem current_of_entry (stands : it.entry = some e) : ∃ (k : Nat) (state : IteratorState cmp),
    it.current = k ∧ it.children[k]? = some state ∧ state.iter.current = some e := by
  obtain ⟨state, here, found⟩ := Option.bind_eq_some_iff.mp stands
  unfold child at here
  split at here <;> [rename_i bound; cases here]
  exact ⟨it.current.toNat, state, (Int.toNat_of_nonneg bound).symm, here, found⟩

theorem headAt_callCurrent {k : Nat} (current : it.current = k) (here : it.children[k]? = some state) (i : Nat) :
    headAt (it.callCurrent a).children i =
      if i = k then (state.iter.call a).current else headAt it.children i := by
  have place : it.current.toNat = k := by rw [current, Int.toNat_natCast]
  rw [headAt, callCurrent, List.getElem?_modify, place]
  by_cases same : i = k
  · subst same
    rw [here, if_pos rfl]
    simp [callChild, load]
  · rw [if_neg same, headAt]
    have other : k ≠ i := fun equal => same equal.symm
    cases it.children[i]? <;> simp [other]

section Move
variable (merges : ∀ e, e ∈ cursor.entries ↔ e ∈ it.entries) (moves : a.isMove)
  (same : cursor.current = some e)
include merges moves same

theorem sought_part {k : Nat} (here : it.children[k]? = some state) (there : state.iter.current = some e) :
    ∀ d ∈ soughtIn cmp.Before state.iter.entries state.iter.current a,
      d ∈ soughtIn cmp.Before cursor.entries cursor.current a := by
  rintro d ⟨mine, sought⟩
  refine ⟨(merges d).mpr (mem_entries.mpr ⟨k, state, here, mine⟩), ?_⟩
  exact (sought_of_move moves same).mpr ((sought_of_move moves there).mp sought)

variable (stands : it.entry = some e)
include stands

theorem find_of_ready (ready : Ready (it, cursor) a) :
    (find (wantedBy a) (it.callCurrent a)).entry = (cursor.call a).current := by
  obtain ⟨k, state, current, here, there⟩ := current_of_entry stands
  have heads_at := @headAt_callCurrent _ it a state k current here
  have part := sought_part merges moves same here there
  have target := cursor.leastIn_call a
  have others {i : Nat} {other : IteratorState cmp} (at_i : it.children[i]? = some other) (apart : i ≠ k) :=
    ready moves e stands (other, i) (List.mk_mem_zipIdx_iff_getElem?.mpr at_i) fun equal =>
      apart (Int.ofNat_inj.mp (equal.trans current))
  -- The entries the children stand at are all beyond the current one.
  have inside : ∀ d ∈ heads (it.callCurrent a).children,
      d ∈ soughtIn cmp.Before cursor.entries cursor.current a := by
    rintro d ⟨i, found⟩
    rw [heads_at] at found
    split at found
    · exact part d ((state.iter.leastIn_call a).mem d found)
    · rename_i apart
      obtain ⟨other, at_i, found⟩ := Option.bind_eq_some_iff.mp found
      refine ⟨(merges d).mpr (mem_entries.mpr ⟨i, other, at_i, other.iter.inside d found⟩), ?_⟩
      exact (sought_of_move moves same).mpr ((others at_i apart).1 d found)
  -- The child that has the next entry stands at it.
  have reached : ∀ d, (cursor.call a).current = some d → d ∈ heads (it.callCurrent a).children := by
    intro d comes
    rw [comes] at target
    obtain ⟨i, other, at_i, mine⟩ := mem_entries.mp ((merges d).mp target.1.1)
    refine ⟨i, ?_⟩
    rw [heads_at]
    split
    · rename_i equal
      subst equal
      obtain rfl := Option.some.inj (here.symm.trans at_i)
      have own : d ∈ soughtIn cmp.Before state.iter.entries state.iter.current a :=
        ⟨mine, (sought_of_move moves there).mpr ((sought_of_move moves same).mp target.1.2)⟩
      have least := target.mono part fun x found => Option.some.inj found ▸ own
      exact (state.iter.leastIn_call a).unique cursor.ascending (fun x member => (part x member).1) least
    · rename_i apart
      rw [headAt_eq at_i]
      exact (others at_i apart).2 d comes mine
  have least := target.mono inside reached
  exact (leastIn_find (it.callCurrent a) a).unique cursor.ascending (fun x member => (inside x member).1) least

omit merges in
/-- The loop takes what comes next only when the others are ready. -/
theorem ready_of_find (once : it.entries.Nodup)
    (found : (find (wantedBy a) (it.callCurrent a)).entry = (cursor.call a).current) :
    Ready (it, cursor) a := by
  obtain ⟨k, state, current, here, there⟩ := current_of_entry stands
  have heads_at := @headAt_callCurrent _ it a state k current here
  have least := leastIn_find (it.callCurrent a) a
  have target := cursor.leastIn_call a
  rw [found] at least
  intro _ e' stands' ⟨other, i⟩ member apart
  obtain rfl : e = e' := Option.some.inj (stands.symm.trans stands')
  have at_i := List.mk_mem_zipIdx_iff_getElem?.mp member
  have apart : i ≠ k := fun equal => apart (by rw [equal]; exact current.symm)
  have unmoved : headAt (it.callCurrent a).children i = other.iter.current := by
    rw [heads_at, if_neg apart, headAt_eq at_i]
  constructor
  · intro d stands_d
    have head : d ∈ heads (it.callCurrent a).children := ⟨i, unmoved.trans stands_d⟩
    -- Another child stands no nearer than the entry the loop has taken.
    cases comes : (cursor.call a).current with
    | none =>
        rw [comes] at least
        exact absurd head (least d)
    | some f =>
        rw [comes] at least target
        have beyond := (sought_of_move moves same).mp target.1.2
        rcases trichotomous_of (along cmp.Before a) f.1 d.1 with less | equal | more
        · exact trans_of _ beyond less
        · exact equal ▸ beyond
        · exact absurd more (least.2 d head)
  · intro d comes mine
    rw [Option.mem_def] at comes
    rw [comes] at least
    -- No other child has the entry the loop has taken.
    obtain ⟨j, stands_j⟩ := least.1
    rw [heads_at] at stands_j
    split at stands_j
    · rename_i equal
      subst equal
      have inState := ((state.iter.leastIn_call a).mem d stands_j).1
      exact absurd (same_child once at_i here mine inState) apart
    · obtain ⟨second, at_j, stands_second⟩ := Option.bind_eq_some_iff.mp stands_j
      obtain rfl := same_child once at_i at_j mine (second.iter.inside d stands_second)
      obtain rfl := Option.some.inj (at_i.symm.trans at_j)
      exact stands_second

end Move

/-! ## Runs -/

def step (s : MergeIterator cmp × EntryIterator cmp) (a : CursorMove Key) :
    Option (MergeIterator cmp × EntryIterator cmp) :=
  some (s.1.call a, s.2.call a)

def Agrees (it : MergeIterator cmp) (cursor : EntryIterator cmp) : Prop :=
  it.valid = cursor.valid ∧ it.key = cursor.key ∧ it.value = cursor.value

instance (it : MergeIterator cmp) (cursor : EntryIterator cmp) : Decidable (it.Agrees cursor) := by
  unfold Agrees; infer_instance

instance (a : CursorMove Key) (x y : Key) : Decidable (along cmp.Before a x y) := by
  unfold along; infer_instance

instance (s : MergeIterator cmp × EntryIterator cmp) (a : CursorMove Key) : Decidable (Ready s a) := by
  unfold Ready; infer_instance

theorem valid_eq (it : MergeIterator cmp) : it.valid = it.entry.isSome := by
  unfold valid entry
  cases it.child with
  | none => rfl
  | some state => exact state.fresh

theorem key_eq (it : MergeIterator cmp) : it.key = (it.entry.map Prod.fst).getD [] := by
  rw [key, valid_eq]
  unfold entry
  cases it.child with
  | none => rfl
  | some state => cases shape : state.iter.current <;> simp [ListCursor.key, shape]

theorem value_eq (it : MergeIterator cmp) : it.value = (it.entry.map Prod.snd).getD [] := by
  rw [value, valid_eq]
  unfold entry
  cases it.child with
  | none => rfl
  | some state => cases shape : state.iter.current <;> simp [ListCursor.value, shape]

theorem agrees_of_entry (here : it.entry = cursor.current) : it.Agrees cursor :=
  ListCursor.told_of_current (valid_eq it) (key_eq it) (value_eq it) here

theorem agrees_iff (merge : cursor.entries.Perm it.entries) : it.Agrees cursor ↔ it.entry = cursor.current := by
  apply ListCursor.told_iff (valid_eq it) (key_eq it) (value_eq it)
  intro e stands
  obtain ⟨k, state, -, here, there⟩ := current_of_entry stands
  exact merge.mem_iff.mpr (mem_entries.mpr ⟨k, state, here, state.iter.inside e there⟩)

theorem entries_callCurrent (it : MergeIterator cmp) (a : CursorMove Key) :
    (it.callCurrent a).entries = it.entries := by
  have kept : (it.children.modify it.current.toNat (callChild a)).map (fun state => state.iter.entries) =
      it.children.map fun state => state.iter.entries := by
    apply List.ext_getElem?
    intro i
    rw [List.getElem?_map, List.getElem?_map, List.getElem?_modify]
    cases it.children[i]? with
    | none => rfl
    | some state => by_cases same : it.current.toNat = i <;> simp [same, callChild, load]
  rw [entries, entries, callCurrent, List.flatMap_def, List.flatMap_def, kept]

theorem entries_find (wanted : Ordering) (it : MergeIterator cmp) : (find wanted it).entries = it.entries := by
  unfold find
  split <;> rfl

theorem entries_call (it : MergeIterator cmp) (a : CursorMove Key) : (it.call a).entries = it.entries := by
  by_cases moves : a.isMove
  · by_cases isValid : it.valid
    · rw [call_of_move it moves isValid, entries_find, entries_callCurrent]
    · rw [call_of_not_valid it moves isValid]
  · rw [call_of_not_move it moves, entries_find, entries_callAll]

structure Follows (s : MergeIterator cmp × EntryIterator cmp) : Prop where
  here : s.1.entry = s.2.current
  merge : s.2.entries.Perm s.1.entries

theorem nodup_entries (cursor : EntryIterator cmp) : cursor.entries.Nodup := by
  apply cursor.ascending.imp
  intro x y before same
  rw [same] at before
  exact before.ne rfl

theorem Follows.once {s : MergeIterator cmp × EntryIterator cmp} (follows : Follows s) : s.1.entries.Nodup :=
  follows.merge.nodup_iff.mp (nodup_entries s.2)

theorem Follows.call_iff {s : MergeIterator cmp × EntryIterator cmp} (follows : Follows s) (a : CursorMove Key) :
    (s.1.call a).entry = (s.2.call a).current ↔ Ready s a := by
  obtain ⟨it, cursor⟩ := s
  have merges (e : Key × Value) : e ∈ cursor.entries ↔ e ∈ it.entries := follows.merge.mem_iff
  have here : it.entry = cursor.current := follows.here
  by_cases moves : a.isMove
  · cases stands : it.entry with
    | none =>
        have notValid : ¬ it.valid := by simp [valid_eq, stands]
        have stays := ListCursor.call_of_nowhere moves (here.symm.trans stands)
        show (it.call a).entry = (cursor.call a).current ↔ _
        rw [call_of_not_valid it moves notValid, stands, stays]
        apply iff_of_true rfl
        intro _ e found
        rw [stands] at found
        cases found
    | some e =>
        have isValid : it.valid := by simp [valid_eq, stands]
        have same : cursor.current = some e := here.symm.trans stands
        show (it.call a).entry = (cursor.call a).current ↔ _
        rw [call_of_move it moves isValid]
        exact ⟨ready_of_find moves same stands follows.once, find_of_ready merges moves same stands⟩
  · apply iff_of_true _ fun move => absurd move moves
    show (it.call a).entry = (cursor.call a).current
    rw [call_of_not_move it moves]
    exact move_eq cursor.ascending (leastIn_callAll merges moves)

theorem Follows.call {s : MergeIterator cmp × EntryIterator cmp} (follows : Follows s) {a : CursorMove Key}
    (ready : Ready s a) : Follows (s.1.call a, s.2.call a) where
  here := (follows.call_iff a).mpr ready
  merge := by
    show s.2.entries.Perm (s.1.call a).entries
    rw [entries_call]
    exact follows.merge

def listsOf (children : List (Option (EntryIterator cmp))) : List (Key × Value) :=
  (children.filterMap id).flatMap ListCursor.entries

theorem entries_make (children : List (Option (EntryIterator cmp))) :
    (make children).entries = listsOf children := by
  rw [make, listsOf]
  cases children.filterMap id with
  | nil => rfl
  | cons first rest =>
      simp only [List.map_cons, entries, List.flatMap_cons, List.flatMap_map]
      rfl

theorem follows_make {children : List (Option (EntryIterator cmp))}
    (merge : cursor.entries.Perm (listsOf children)) (start : (make children).Agrees cursor) :
    Follows (make children, cursor) := by
  rw [← entries_make] at merge
  exact ⟨(agrees_iff merge).mp start, merge⟩

/-- In every run whose moves find the other children ready, the iterator is a cursor on the merge of the
lists; and a move that does not find them ready departs from it. -/
theorem merge_runs (children : List (Option (EntryIterator cmp))) (cursor : EntryIterator cmp)
    (merge : cursor.entries.Perm (listsOf children)) (start : (make children).Agrees cursor)
    {s : MergeIterator cmp × EntryIterator cmp}
    (run : Runs.Run step Ready (make children, cursor) s) :
    s.1.Agrees s.2 ∧ ∀ a, (s.1.call a).Agrees (s.2.call a) ↔ Ready s a := by
  have follows : Follows s := by
    apply Runs.Run.invariant _ run (follows_make merge start)
    intro s a t ready stepped follows
    obtain rfl := Option.some.inj stepped
    exact follows.call ready
  refine ⟨agrees_of_entry follows.here, fun a => ?_⟩
  have kept : (s.2.call a).entries.Perm (s.1.call a).entries := by
    rw [entries_call]
    exact follows.merge
  exact (agrees_iff kept).trans (follows.call_iff a)

/-! ## One direction -/

def Aligned (a : CursorMove Key) (it : MergeIterator cmp) : Prop :=
  ∀ e, it.entry = some e → ∀ (i : Nat) (state : IteratorState cmp), it.children[i]? = some state →
    (i : Int) ≠ it.current →
      LeastIn (along cmp.Before a) {x | x ∈ state.iter.entries ∧ along cmp.Before a e.1 x.1} state.iter.current

theorem aligned_find {p : Key → Prop} (merge : cursor.entries.Perm it.entries)
    (upward : ∀ x y, p x → along cmp.Before a x y → p y)
    (each : ∀ (i : Nat) (state : IteratorState cmp), it.children[i]? = some state →
      LeastIn (along cmp.Before a) {x | x ∈ state.iter.entries ∧ p x.1} state.iter.current) :
    Aligned a (find (wantedBy a) it) := by
  intro e stands i state at_i apart
  have sameChildren : (find (wantedBy a) it).children = it.children := by
    unfold find
    split <;> rfl
  have first := leastIn_find_entries each
  rw [stands] at first
  obtain ⟨k, best, current, at_k, there⟩ := current_of_entry stands
  rw [sameChildren] at at_i at_k
  apply (each i state at_i).congr
  intro x
  apply and_congr_right
  intro mine
  have inList := mem_entries.mpr ⟨i, state, at_i, mine⟩
  constructor
  · intro holds
    rcases trichotomous_of (along cmp.Before a) e.1 x.1 with beyond | same | before
    · exact beyond
    -- At the same key it is the entry the loop has taken, and that is in one child only.
    · have equal := Cursors.entry_eq cursor.ascending (merge.mem_iff.mpr first.1.1)
        (merge.mem_iff.mpr inList) same
      subst equal
      have once : it.entries.Nodup := merge.nodup_iff.mp (nodup_entries cursor)
      exact absurd (same_child once at_i at_k mine (best.iter.inside e there)) fun equal => apart (by
        rw [equal]
        exact current.symm)
    · exact absurd before (first.2 x ⟨inList, holds⟩)
  · exact upward e.1 x.1 first.1.2

theorem aligned_congr {b : CursorMove Key} (same : a.isForward = b.isForward) (aligned : Aligned a it) :
    Aligned b it := by
  have order : along cmp.Before a = along cmp.Before b := by
    funext x y
    rw [along, along, same]
  unfold Aligned at aligned
  rw [order] at aligned
  exact aligned

theorem sought_upward (positions : ¬ a.isMove) {x y : Key} {p : Option (Key × Value)}
    (sought : Sought cmp.Before p a x) (beyond : along cmp.Before a x y) : Sought cmp.Before p a y := by
  cases a with
  | next => exact absurd rfl positions
  | prev => exact absurd rfl positions
  | seekToFirst => trivial
  | seekToLast => trivial
  | seek t => exact fun before => sought (Comparator.Before.trans beyond before)
  | seekForPrev t => exact fun behind => sought (Comparator.Before.trans behind beyond)

theorem aligned_callAll (merge : cursor.entries.Perm it.entries) (positions : ¬ a.isMove) :
    Aligned a (it.call a) := by
  rw [call_of_not_move it positions]
  apply aligned_find (p := Sought cmp.Before (none : Option (Key × Value)) a)
  · rw [entries_callAll]
    exact merge
  · exact fun x y => sought_upward positions
  · exact callAll_each positions

theorem aligned_callCurrent (merge : cursor.entries.Perm it.entries) (moves : a.isMove)
    (aligned : Aligned a it) : Aligned a (it.call a) := by
  cases stands : it.entry with
  | none =>
      rw [call_of_not_valid it moves (by simp [valid_eq, stands])]
      exact aligned
  | some e =>
      obtain ⟨k, state, current, here, there⟩ := current_of_entry stands
      rw [call_of_move it moves (by simp [valid_eq, stands])]
      apply aligned_find (p := along cmp.Before a e.1)
      · rw [entries_callCurrent]
        exact merge
      · exact fun x y => trans_of _
      · intro i child at_i
        have place : it.current.toNat = k := by rw [current, Int.toNat_natCast]
        rw [callCurrent, List.getElem?_modify, place] at at_i
        by_cases same : k = i
        · subst same
          rw [here] at at_i
          obtain rfl : callChild a state = child := by simpa using at_i
          apply (state.iter.leastIn_call a).congr
          exact fun x => and_congr_right fun _ => sought_of_move moves there
        · have kept : it.children[i]? = some child := by simpa [same] using at_i
          apply aligned e stands i child kept
          rw [current]
          exact fun equal => same (Int.ofNat_inj.mp equal).symm

theorem ready_of_aligned {s : MergeIterator cmp × EntryIterator cmp} (follows : Follows s)
    (aligned : Aligned a s.1) : Ready s a := by
  obtain ⟨it, cursor⟩ := s
  intro moves e stands ⟨other, i⟩ member apart
  have at_i := List.mk_mem_zipIdx_iff_getElem?.mp member
  have least := aligned e stands i other at_i apart
  have same : cursor.current = some e := follows.here.symm.trans stands
  constructor
  · exact fun d found => (least.mem d found).2
  · intro d comes mine
    rw [Option.mem_def] at comes
    have target := cursor.leastIn_call a
    rw [comes] at target
    have beyond := (sought_of_move moves same).mp target.1.2
    have part : ∀ x ∈ {x | x ∈ other.iter.entries ∧ along cmp.Before a e.1 x.1},
        x ∈ soughtIn cmp.Before cursor.entries cursor.current a := by
      rintro x ⟨inside, further⟩
      refine ⟨follows.merge.mem_iff.mpr (mem_entries.mpr ⟨i, other, at_i, inside⟩), ?_⟩
      exact (sought_of_move moves same).mpr further
    have first := target.mono part fun x found => Option.some.inj found ▸ ⟨mine, beyond⟩
    exact least.unique cursor.ascending (fun x member => (part x member).1) first

def stepFacing (s : (MergeIterator cmp × EntryIterator cmp) × Option Bool) (a : CursorMove Key) :
    Option ((MergeIterator cmp × EntryIterator cmp) × Option Bool) :=
  (step s.1 a).map fun t => (t, if a.isMove then s.2 else some a.isForward)

def OneWay (s : (MergeIterator cmp × EntryIterator cmp) × Option Bool) (a : CursorMove Key) : Prop :=
  a.isMove → s.2 = some a.isForward

theorem oneWay_runs (children : List (Option (EntryIterator cmp))) (cursor : EntryIterator cmp)
    (merge : cursor.entries.Perm (listsOf children)) (start : (make children).Agrees cursor)
    {s : (MergeIterator cmp × EntryIterator cmp) × Option Bool}
    (run : Runs.Run stepFacing OneWay ((make children, cursor), none) s) :
    s.1.1.Agrees s.1.2 ∧ ∀ a, OneWay s a → Ready s.1 a := by
  have kept : Follows s.1 ∧ ∀ a : CursorMove Key, s.2 = some a.isForward → Aligned a s.1.1 := by
    apply Runs.Run.invariant _ run
    · exact ⟨follows_make merge start, nofun⟩
    rintro ⟨s, facing⟩ a _ oneWay stepped ⟨follows, aligned⟩
    obtain rfl := Option.some.inj stepped
    have ready : Ready s a := fun moves => ready_of_aligned follows (aligned a (oneWay moves)) moves
    refine ⟨follows.call ready, fun b same => ?_⟩
    by_cases moves : a.isMove
    -- A move keeps the direction it was made in.
    · have direction : a.isForward = b.isForward := by
        have facingA := oneWay moves
        simp only [moves, if_true] at same
        exact Option.some.inj (facingA.symm.trans same)
      apply aligned_congr direction
      exact aligned_callCurrent follows.merge moves (aligned a (oneWay moves))
    · simp only [moves] at same
      apply aligned_congr (Option.some.inj same)
      exact aligned_callAll follows.merge moves
  refine ⟨agrees_of_entry kept.1.here, fun a oneWay moves => ?_⟩
  exact ready_of_aligned kept.1 (kept.2 a (oneWay moves)) moves

theorem exists_cursor {children : List (Option (EntryIterator cmp))}
    (different : (listsOf children).Pairwise fun x y => x.1 ≠ y.1) :
    ∃ cursor : EntryIterator cmp, cursor.entries.Perm (listsOf children) ∧
      (make children).Agrees cursor := by
  let le (x y : Key × Value) : Bool := decide ¬ cmp.Before y.1 x.1
  have permuted := List.mergeSort_perm (listsOf children) le
  have sorted : ((listsOf children).mergeSort le).Pairwise fun x y => le x y := by
    apply List.pairwise_mergeSort
    · intro x y z xy yz
      simp only [le, decide_eq_true_eq] at xy yz ⊢
      intro before
      rcases Comparator.not_before.mp xy with same | less
      · exact yz (same ▸ before)
      · exact yz (before.trans less)
    · intro x y
      simp only [le, Bool.or_eq_true, decide_eq_true_eq]
      by_cases before : cmp.Before y.1 x.1
      · exact .inr before.not_before
      · exact .inl before
  have apart : ((listsOf children).mergeSort le).Pairwise fun x y => x.1 ≠ y.1 :=
    (permuted.pairwise_iff fun different => different.symm).mpr different
  have ascending : ((listsOf children).mergeSort le).Pairwise fun x y => cmp.Before x.1 y.1 := by
    apply (sorted.and apart).imp
    intro x y both
    have notBefore := of_decide_eq_true both.1
    exact (Comparator.not_before.mp notBefore).resolve_left both.2.symm
  have inside : ∀ e ∈ (make children).entry, e ∈ (listsOf children).mergeSort le := by
    intro e stands
    obtain ⟨k, state, -, here, there⟩ := current_of_entry stands
    apply permuted.mem_iff.mpr
    rw [← entries_make]
    exact mem_entries.mpr ⟨k, state, here, state.iter.inside e there⟩
  exact ⟨⟨_, ascending, (make children).entry, inside⟩, permuted, agrees_of_entry rfl⟩

def oneTwoThree : EntryIterator bytewiseComparator where
  entries := [([1], []), ([2], []), ([3], [])]
  ascending := by decide +kernel
  current := some ([1], [])
  inside := by decide +kernel

def interleaved : List (Option (EntryIterator bytewiseComparator)) :=
  [some ConcatenatingIterator.twoKeys, none, some ConcatenatingIterator.noEntries,
    some (ConcatenatingIterator.single 2)]

def backAndForth : List (CursorMove Key) :=
  [.seekToFirst, .next, .next, .next, .prev, .seekForPrev [2], .prev, .seek [2], .next]

theorem merge_runs_interleaved : ∃ s,
    Runs.execute step (make interleaved, oneTwoThree) backAndForth = some s ∧
      s.1.Agrees s.2 ∧ ∀ a, (s.1.call a).Agrees (s.2.call a) ↔ Ready s a := by
  have facts : (Runs.execute step (make interleaved, oneTwoThree) backAndForth).any fun _ =>
      oneTwoThree.entries.Perm (listsOf interleaved) ∧ (make interleaved).Agrees oneTwoThree ∧
        Runs.Allowed step Ready (make interleaved, oneTwoThree) backAndForth := by decide +kernel
  obtain ⟨s, executed, facts⟩ := Option.any_eq_true _ _ |>.mp facts
  obtain ⟨merge, start, allowed⟩ := of_decide_eq_true facts
  exact ⟨s, executed, merge_runs interleaved oneTwoThree merge start (Runs.execute_run _ allowed executed)⟩

theorem merge_turns_wrong : ¬ ∀ (children : List (Option (EntryIterator bytewiseComparator)))
    (cursor : EntryIterator bytewiseComparator), cursor.entries.Perm (listsOf children) →
      (make children).Agrees cursor → ∀ s, Runs.Run step Runs.free (make children, cursor) s →
        s.1.Agrees s.2 := by
  intro always
  have facts : (Runs.execute step (make interleaved, oneTwoThree) [.seekToFirst, .next, .prev]).any fun s =>
      oneTwoThree.entries.Perm (listsOf interleaved) ∧ (make interleaved).Agrees oneTwoThree ∧
        ¬ s.1.Agrees s.2 := by decide +kernel
  obtain ⟨s, executed, facts⟩ := Option.any_eq_true _ _ |>.mp facts
  obtain ⟨merge, start, differs⟩ := of_decide_eq_true facts
  exact differs (always _ _ merge start s (Runs.execute_run _ (Runs.allowed_free _ _ _) executed))

end MergeIterator
end Lrdb.DbIterator
