import Lrdb.Base.Cursors
import Lrdb.Base.Runs
import Lrdb.Storage.PointRead
import Lrdb.Storage.TableIterator

/-!
# The merge as a cursor

The merging iterator moves both ways. After every call that finds a key its children stand behind that
key; a step back has to seek them again.
-/

namespace Lrdb
open Versions Scans Cursors SSTable LSMTree MergeIterator

inductive Direction where
  | kForward | kReverse
  deriving DecidableEq, Repr

/-- `LSMTreeMergeIterator`, with the key and value it shows while it is valid. -/
structure MergeCursor (cmp : Comparator) where
  children : List (ChildIterator cmp)
  direction : Direction := .kForward
  current : Option (Key × Value) := none

inductive CursorCall where
  | seekToFirst
  | seekToLast
  | seek (target : Key)
  | next
  | prev
  deriving DecidableEq, Repr

namespace MergeCursor
variable {cmp : Comparator}

def Preferred (cmp : Comparator) (preferNewest : Bool) (a b : Entry) : Prop :=
  internalCompare cmp a.1 b.1 = if preferNewest then .lt else .gt

instance (preferNewest : Bool) (a b : Entry) : Decidable (Preferred cmp preferNewest a b) := by
  unfold Preferred; infer_instance

/-- `PickChild`: the newest version of the least key, or a version of the greatest key. -/
def pickChild (preferNewest : Bool) (children : List (ChildIterator cmp)) : Option (Nat × Entry) :=
  Merging.findMin (Preferred cmp preferNewest) (children.map fun child => child.entry.toList)

def consumeLoop (key : Key) : Nat → ChildIterator cmp → List Version × ChildIterator cmp
  | 0, child => ([], child)
  | fuel + 1, child =>
      match child.entry with
      | none => ([], child)
      | some entry =>
          if isKey cmp key entry then
            let (versions, rest) := consumeLoop key fuel child.next
            (entry.version :: versions, rest)
          else ([], child)

def consume (key : Key) (child : ChildIterator cmp) : List Version × ChildIterator cmp :=
  consumeLoop key child.remaining.length child

variable (snapshot : Nat)

/-- A round of `FindSmallest`: the versions of the picked child come first. -/
def smallest (children : List (ChildIterator cmp)) :
    Option (Key × Option Value × List (ChildIterator cmp)) :=
  match pickChild true children with
  | none => none
  | some (i, entry) =>
      let consumed := children.map (consume entry.1.userKey)
      let versions := consumed[i]?.elim [] Prod.fst ++ (consumed.eraseIdx i).flatMap Prod.fst
      some (entry.1.userKey, (versions.foldl (considerVersion snapshot) none).bind payload,
        consumed.map Prod.snd)

/-- A round of `FindLargest`: every child is sought to the picked key before its versions are
consumed. -/
def largest (children : List (ChildIterator cmp)) :
    Option (Key × Option Value × List (ChildIterator cmp)) :=
  match pickChild false children with
  | none => none
  | some (_, entry) =>
      let key := entry.1.userKey
      let consumed := children.map fun child => consume key (child.seek key)
      some (key, ((consumed.flatMap Prod.fst).foldl (considerVersion snapshot) none).bind payload,
        consumed.map Prod.snd)

def findSmallest (fuel : Nat) (children : List (ChildIterator cmp)) :
    Option (Option ((Key × Value) × List (ChildIterator cmp))) :=
  rounds (smallest snapshot) fuel children

def findLargest (fuel : Nat) (children : List (ChildIterator cmp)) :
    Option (Option ((Key × Value) × List (ChildIterator cmp))) :=
  rounds (largest snapshot) fuel children

/-- The end of a call. An iterator that is not valid waits for a seek, which places every child. -/
def settle (it : MergeCursor cmp) :
    Option ((Key × Value) × List (ChildIterator cmp)) → MergeCursor cmp
  | none => { it with current := none }
  | some (entry, children) => { it with children := children, current := some entry }

def seekToFirst (fuel : Nat) (it : MergeCursor cmp) : Option (MergeCursor cmp) :=
  let it := { it with children := it.children.map ChildIterator.seekToFirst }
  (findSmallest snapshot fuel it.children).map it.settle

def seekToLast (fuel : Nat) (it : MergeCursor cmp) : Option (MergeCursor cmp) :=
  let it := { it with children := it.children.map ChildIterator.seekToLast }
  (findLargest snapshot fuel it.children).map it.settle

def seek (fuel : Nat) (it : MergeCursor cmp) (target : Key) : Option (MergeCursor cmp) :=
  let it := { it with
    children := it.children.map (ChildIterator.seek target)
    direction := .kForward }
  (findSmallest snapshot fuel it.children).map it.settle

def forwards (it : MergeCursor cmp) (last : Key) : MergeCursor cmp :=
  if it.direction = .kForward then it else
    { it with children := it.children.map (ChildIterator.seek last), direction := .kForward }

def next (fuel : Nat) (it : MergeCursor cmp) : Option (MergeCursor cmp) :=
  match it.current with
  | none => some it
  | some (last, _) =>
      let it := it.forwards last
      (calls (fun key => cmp.compare key last = .gt) (findSmallest snapshot fuel) fuel
        it.children).map it.settle

def stepBack (last : Key) (child : ChildIterator cmp) : ChildIterator cmp :=
  let child := child.seek last
  if child.entry.isSome then child.prev else child

def backwards (it : MergeCursor cmp) (last : Key) : MergeCursor cmp :=
  if it.direction = .kReverse then it else
    { it with children := it.children.map (stepBack last), direction := .kReverse }

def prev (fuel : Nat) (it : MergeCursor cmp) : Option (MergeCursor cmp) :=
  match it.current with
  | none => some it
  | some (last, _) =>
      let it := it.backwards last
      (calls (fun key => cmp.compare key last = .lt) (findLargest snapshot fuel) fuel
        it.children).map it.settle

def call (fuel : Nat) (it : MergeCursor cmp) : CursorCall → Option (MergeCursor cmp)
  | .seekToFirst => it.seekToFirst snapshot fuel
  | .seekToLast => it.seekToLast snapshot fuel
  | .seek target => it.seek snapshot fuel target
  | .next => it.next snapshot fuel
  | .prev => it.prev snapshot fuel

end MergeCursor

def CursorCall.move (cmp : Comparator) (out : List (Key × Value)) (position : Option (Key × Value)) :
    CursorCall → Option (Key × Value)
  | .seekToFirst => Cursors.first out
  | .seekToLast => Cursors.last out
  | .seek target => Cursors.seek cmp.Before out target
  | .next => position.bind fun entry => Cursors.next cmp.Before out entry.1
  | .prev => position.bind fun entry => Cursors.prev cmp.Before out entry.1

namespace LSMTree
variable {cmp : Comparator}

/-- `NewIterator`. -/
def newMergeCursor (t : LSMTree cmp) : MergeCursor cmp where
  children := .memTable ⟨t.mutableMemTable, []⟩ ::
    t.immutables.map (fun mem => .memTable ⟨mem, []⟩) ++
      (t.sstables.level 0).reverse.map (fun file => .level ⟨false, [file], none⟩) ++
        t.sstables.levelFiles.tail.map fun files => .level ⟨true, files, none⟩

theorem entries_newMergeCursor (t : LSMTree cmp) :
    t.newMergeCursor.children.map ChildIterator.entries = t.children := by
  simp [newMergeCursor, children, ChildIterator.entries, Function.comp_def]

end LSMTree

namespace MergeCursor
variable {cmp : Comparator} {snapshot : Nat}

/-! ## Rounds of the children and rounds of what they have left -/

def left (children : List (ChildIterator cmp)) : Children := children.map ChildIterator.remaining

theorem consumeLoop_eq {key : Key} {fuel : Nat} {child : ChildIterator cmp}
    (enough : child.remaining.length ≤ fuel) :
    (consumeLoop key fuel child).1 = front cmp key child.remaining ∧
      (consumeLoop key fuel child).2.remaining = child.remaining.dropWhile (isKey cmp key) ∧
        (consumeLoop key fuel child).2.unplaced = child.unplaced := by
  induction fuel generalizing child with
  | zero =>
      have empty : child.remaining = [] := List.eq_nil_of_length_eq_zero (Nat.le_zero.mp enough)
      simp [consumeLoop, empty, front]
  | succ fuel ih =>
      rw [consumeLoop, child.entry_eq]
      cases shape : child.remaining with
      | nil => simp [front, shape]
      | cons entry rest =>
          rw [List.head?_cons]
          dsimp only
          by_cases here : isKey cmp key entry
          · have shorter : child.next.remaining.length ≤ fuel := by
              rw [child.remaining_next, shape]
              simpa [shape] using enough
            obtain ⟨versions, left, same⟩ := ih shorter
            rw [child.remaining_next, shape, List.tail_cons] at versions left
            rw [child.unplaced_next] at same
            simp only [if_pos here]
            refine ⟨?_, ?_, same⟩
            · rw [versions, front, front, List.takeWhile_cons_of_pos here, List.map_cons]
            · rw [left, List.dropWhile_cons_of_pos here]
          · simp [here, front, shape]

theorem consume_eq (key : Key) (child : ChildIterator cmp) :
    (consume key child).1 = front cmp key child.remaining ∧
      (consume key child).2.remaining = child.remaining.dropWhile (isKey cmp key) ∧
        (consume key child).2.unplaced = child.unplaced :=
  consumeLoop_eq le_rfl

theorem pickChild_eq (preferNewest : Bool) (children : List (ChildIterator cmp)) :
    pickChild preferNewest children =
      Merging.findMin (Preferred cmp preferNewest) (left children) := by
  have fronts : (children.map fun child => child.entry.toList) =
      (left children).map fun list => list.head?.toList := by
    rw [left, List.map_map]
    exact List.map_congr_left fun child _ => congrArg Option.toList child.entry_eq
  rw [pickChild, fronts, Merging.findMin_heads]

theorem turn_left (children : List (ChildIterator cmp)) : turn cmp snapshot (left children) =
    (smallest snapshot children).map (Prod.map id (Prod.map id left)) := by
  have picked : MergeIterator.pickChild cmp (left children) = pickChild true children := by
    rw [pickChild_eq_findMin, pickChild_eq]
    rfl
  rw [turn, smallest, picked]
  rcases pickChild true children with _ | ⟨i, entry⟩
  · rfl
  · have fronts : (children.map (consume entry.1.userKey)).map Prod.fst =
        (left children).map (front cmp entry.1.userKey) := by
      rw [left, List.map_map, List.map_map]
      exact List.map_congr_left fun child _ => (consume_eq entry.1.userKey child).1
    have rests : left ((children.map (consume entry.1.userKey)).map Prod.snd) =
        (left children).map fun list => list.dropWhile (isKey cmp entry.1.userKey) := by
      rw [left, left, List.map_map, List.map_map, List.map_map]
      exact List.map_congr_left fun child _ => (consume_eq entry.1.userKey child).2.1
    have first : front cmp entry.1.userKey ((left children).getD i []) =
        (children.map (consume entry.1.userKey))[i]?.elim [] Prod.fst := by
      rw [List.getD_eq_getElem?_getD, left, List.getElem?_map, List.getElem?_map]
      cases children[i]? with
      | none => rfl
      | some child => exact (consume_eq entry.1.userKey child).1.symm
    have others : ((left children).eraseIdx i).flatMap (front cmp entry.1.userKey) =
        ((children.map (consume entry.1.userKey)).eraseIdx i).flatMap Prod.fst := by
      rw [List.flatMap_def, List.flatMap_def, ← List.eraseIdx_map, ← List.eraseIdx_map, fronts]
    simp only [Option.map_some, Prod.map_apply, id, rests, first, others]

theorem unplaced_consumed (children : List (ChildIterator cmp)) (key : Key)
    (place : ChildIterator cmp → ChildIterator cmp)
    (same : ∀ child, (place child).unplaced = child.unplaced) :
    ((children.map fun child => consume key (place child)).map Prod.snd).map
        ChildIterator.unplaced = children.map ChildIterator.unplaced := by
  rw [List.map_map, List.map_map]
  exact List.map_congr_left fun child _ => (consume_eq key (place child)).2.2.trans (same child)

def standing (base : List (ChildIterator cmp)) (snapshot : Nat) :
    Reading Key Value (List (ChildIterator cmp)) where
  inv children := children.map ChildIterator.unplaced = base ∧
    (reading cmp snapshot).inv (left children)
  content children := (reading cmp snapshot).content (left children)
  size children := size (left children)

variable {base : List (ChildIterator cmp)}

theorem turns_smallest (children : List (ChildIterator cmp))
    (inv : (standing base snapshot).inv children) :
    Turns cmp.Before (standing base snapshot) children (smallest snapshot children) := by
  have turns : Turns cmp.Before (reading cmp snapshot) (left children) _ :=
    turns_turn (left children) inv.2
  rw [turn_left] at turns
  cases shape : smallest snapshot children with
  | none =>
      rw [shape] at turns
      exact turns
  | some round =>
      obtain ⟨key, value, rest⟩ := round
      rw [shape] at turns
      obtain ⟨inv', smaller, alive, behind⟩ := turns
      refine ⟨⟨?_, inv'⟩, smaller, alive, behind⟩
      rw [← inv.1]
      unfold smallest at shape
      split at shape
      · cases shape
      · cases shape
        exact unplaced_consumed children _ id fun _ => rfl

/-! ## A round of `FindLargest` -/

def whole (children : List (ChildIterator cmp)) : Children := children.map ChildIterator.entries

def Seekable (children : List (ChildIterator cmp)) (key : Key) : Prop :=
  ∀ child ∈ children, child.SeeksTo key

instance (children : List (ChildIterator cmp)) (key : Key) : Decidable (Seekable children key) := by
  unfold Seekable; infer_instance

def content (snapshot : Nat) (children : List (ChildIterator cmp)) (key : Key) : Option Value :=
  live snapshot (versionsAt (whole children) key)

variable {children : List (ChildIterator cmp)}

theorem whole_of_unplaced (same : children.map ChildIterator.unplaced = base) :
    whole base = whole children := by
  rw [whole, whole, ← same, List.map_map]
  exact List.map_congr_left fun child _ => child.entries_unplaced

theorem seekable_of_unplaced (same : children.map ChildIterator.unplaced = base) (key : Key) :
    Seekable base key ↔ Seekable children key := by
  rw [Seekable, Seekable, ← same, List.forall_mem_map]
  refine forall_congr' fun child => forall_congr' fun _ => ?_
  rw [ChildIterator.SeeksTo, ChildIterator.SeeksTo, child.seek_unplaced, child.entries_unplaced]

theorem left_seek {key : Key} (seekable : Seekable children key) :
    left (children.map (ChildIterator.seek key)) =
      keeping (fun other => ¬ cmp.Before other key) (whole children) := by
  rw [left, whole, keeping, List.map_map, List.map_map]
  exact List.map_congr_left fun child member => seekable child member

theorem largest_eq (snapshot : Nat) (sorted : Sorted cmp (whole children)) {i : Nat} {entry : Entry}
    (picked : pickChild false children = some (i, entry))
    (seekable : Seekable children entry.1.userKey) : ∃ rest,
      largest snapshot children =
          some (entry.1.userKey, content snapshot children entry.1.userKey, rest) ∧
        rest.map ChildIterator.unplaced = children.map ChildIterator.unplaced ∧
          left rest = after cmp entry.1.userKey (whole children) := by
  obtain ⟨key, here⟩ : ∃ key, key = entry.1.userKey := ⟨_, rfl⟩
  rw [← here] at seekable ⊢
  -- Each child stands at the first of its entries that are not before the key.
  have each : ∀ child ∈ children,
      (consume key (child.seek key)).1 = versionsOf key child.entries ∧
        (consume key (child.seek key)).2.remaining =
          child.entries.filter fun e => cmp.Before key e.1.userKey := by
    intro child member
    obtain ⟨versions, rest, -⟩ := consume_eq key (child.seek key)
    have place : (child.seek key).remaining = _ := seekable child member
    have ordered : UserSorted cmp (child.seek key).remaining := by
      rw [place]
      exact (sorted _ (List.mem_map_of_mem member)).sublist List.filter_sublist
    have least : ∀ e ∈ (child.seek key).remaining, ¬ cmp.Before e.1.userKey key := by
      rw [place]
      exact fun e inside => of_decide_eq_true (List.mem_filter.mp inside).2
    obtain ⟨fronts, behind⟩ := MergeIterator.consume ordered least
    rw [versions, rest, fronts, behind, place]
    constructor
    · have kept : versionsAt (keeping (fun other => ¬ cmp.Before other key) [child.entries]) key =
          versionsAt [child.entries] key :=
        (versionsAt_keeping key).trans (if_pos fun before => before.ne rfl)
      simpa only [versionsAt, keeping, List.map_cons, List.map_nil, List.flatMap_cons,
        List.flatMap_nil, List.append_nil] using kept
    · rw [List.filter_filter]
      refine List.filter_congr fun e _ => ?_
      by_cases beyond : cmp.Before key e.1.userKey
      · simp [beyond, beyond.not_before]
      · simp [beyond]
  have versions : (children.map fun child => consume key (child.seek key)).flatMap Prod.fst =
      versionsAt (whole children) key := by
    rw [List.flatMap_map, versionsAt, whole, List.flatMap_map]
    exact List.flatMap_congr fun child member => (each child member).1
  refine ⟨_, ?_, unplaced_consumed children key (ChildIterator.seek key) fun child =>
    child.unplaced_seek key, ?_⟩
  · rw [largest, picked]
    simp only [← here, foldl_considerVersion, later_none_left, versions]
    rfl
  · rw [left, List.map_map, List.map_map, after, whole, List.map_map]
    exact List.map_congr_left fun child member => (each child member).2

/-! ## When a call is right -/

def Lands (snapshot : Nat) (p : Key → Prop) (children : List (ChildIterator cmp)) : Prop :=
  ∃ child ∈ children, ∃ entry ∈ child.entry,
    (∀ other ∈ children, ∀ e ∈ other.entry, ¬ cmp.Before entry.1.userKey e.1.userKey) ∧
      p entry.1.userKey ∧ Seekable children entry.1.userKey ∧
        content snapshot children entry.1.userKey ≠ none ∧
          ∀ e ∈ (whole children).flatten, p e.1.userKey →
            cmp.Before entry.1.userKey e.1.userKey → content snapshot children e.1.userKey = none

structure Barren (snapshot : Nat) (p : Key → Prop) (children : List (ChildIterator cmp)) : Prop where
  dead : ∀ e ∈ (whole children).flatten, p e.1.userKey →
    content snapshot children e.1.userKey = none
  seekable : ∀ e ∈ (whole children).flatten, Seekable children e.1.userKey
  standing : ∀ child ∈ children, ∀ e ∈ child.entry, Seekable children e.1.userKey

section Conditions
variable {p : Key → Prop} [DecidablePred p]

instance : Decidable (Lands snapshot p children) := by unfold Lands; infer_instance

instance : Decidable (Barren snapshot p children) :=
  decidable_of_iff (_ ∧ _ ∧ _) ⟨fun ⟨a, b, c⟩ => ⟨a, b, c⟩, fun ⟨a, b, c⟩ => ⟨a, b, c⟩⟩

end Conditions

def Sound (snapshot : Nat) (it : MergeCursor cmp) : CursorCall → Prop
  | .seekToFirst => True
  | .seekToLast =>
      Lands snapshot (fun _ => True) (it.children.map ChildIterator.seekToLast) ∨
        Barren snapshot (fun _ => True) (it.children.map ChildIterator.seekToLast)
  | .seek target => Seekable it.children target
  | .next => ∃ last ∈ it.current, it.direction = .kForward ∨ Seekable it.children last.1
  | .prev => ∃ last ∈ it.current,
      Lands snapshot (fun key => cmp.Before key last.1) (it.backwards last.1).children ∨
        Barren snapshot (fun key => cmp.Before key last.1) (it.backwards last.1).children

instance (it : MergeCursor cmp) : (call : CursorCall) → Decidable (it.Sound snapshot call)
  | .seekToFirst => inferInstanceAs (Decidable True)
  | .seekToLast => inferInstanceAs (Decidable (_ ∨ _))
  | .seek target => inferInstanceAs (Decidable (Seekable it.children target))
  | .next => inferInstanceAs (Decidable (∃ last ∈ it.current, _))
  | .prev => inferInstanceAs (Decidable (∃ last ∈ it.current, _))

/-! ## What a call leaves -/

structure Tracks (base : List (ChildIterator cmp)) (snapshot : Nat) (it : MergeCursor cmp)
    (position : Option (Key × Value)) : Prop where
  sources : it.children.map ChildIterator.unplaced = base
  shown : it.current = position
  behind : ∀ last ∈ it.current, (reading cmp snapshot).inv (left it.children) ∧
    ∀ key, (standing base snapshot).content it.children key =
      if cmp.Before last.1 key then content snapshot base key else none

variable {it it' : MergeCursor cmp} {fuel : Nat}

theorem tracks_settle {result : Option ((Key × Value) × List (ChildIterator cmp))}
    (sources : it.children.map ChildIterator.unplaced = base)
    (behind : ∀ entry rest, result = some (entry, rest) →
      rest.map ChildIterator.unplaced = base ∧ (reading cmp snapshot).inv (left rest) ∧
        ∀ key, (standing base snapshot).content rest key =
          if cmp.Before entry.1 key then content snapshot base key else none) :
    Tracks base snapshot (it.settle result) (result.map Prod.fst) := by
  rcases result with _ | ⟨entry, rest⟩
  · exact ⟨sources, rfl, nofun⟩
  · obtain ⟨same, inv, left⟩ := behind entry rest rfl
    refine ⟨same, rfl, fun last here => ?_⟩
    obtain rfl := Option.some.inj here
    exact ⟨inv, left⟩

theorem tracks_forward {p : Key → Prop} (upward : ∀ a b, p a → cmp.Before a b → p b)
    (sources : it.children.map ChildIterator.unplaced = base)
    (same : ∀ key, p key → (standing base snapshot).content children key = content snapshot base key)
    {result : Option ((Key × Value) × List (ChildIterator cmp))}
    (yields : YieldsFrom cmp.Before (standing base snapshot) p children result)
    {position : Option (Key × Value)}
    (moves : ∀ found, Least cmp.Before p (content snapshot base) found → position = found) :
    Tracks base snapshot (it.settle result) position := by
  rw [moves _ (yields.least same)]
  refine tracks_settle sources fun entry rest found => ?_
  subst found
  obtain ⟨holds, inv, -, -, -, later, gone⟩ := yields
  refine ⟨inv.1, inv.2, fun key => ?_⟩
  split
  · rename_i beyond
    exact (later key beyond).trans (same key (upward entry.1 key holds beyond))
  · rename_i within
    exact gone key within

theorem mem_whole_of_content (snapshot : Nat) {key : Key}
    (alive : content snapshot children key ≠ none) :
    ∃ e ∈ (whole children).flatten, e.1.userKey = key := by
  have held : versionsAt (whole children) key ≠ [] := by
    intro empty
    rw [content, empty] at alive
    exact alive rfl
  obtain ⟨version, member⟩ := List.exists_mem_of_ne_nil _ held
  obtain ⟨list, inWhole, inside⟩ := List.mem_flatMap.mp member
  obtain ⟨e, inList, same, -⟩ := mem_versionsOf.mp inside
  exact ⟨e, List.mem_flatten_of_mem inWhole inList, same⟩

theorem preferred_flip (a b : Entry) : Preferred cmp false a b ↔ Earlier cmp b a :=
  Std.OrientedCmp.gt_iff_lt

theorem least_pickChild (preferNewest : Bool) (children : List (ChildIterator cmp)) :
    Merging.Least (Preferred cmp preferNewest) (left children)
      (pickChild preferNewest children) := by
  rw [pickChild_eq]
  cases preferNewest with
  | true => exact Merging.least_findMin earlier_asymm not_earlier_trans _
  | false =>
      refine Merging.least_findMin (fun a b => ?_) (fun a b c => ?_) _
      · rw [preferred_flip, preferred_flip]
        exact earlier_asymm b a
      · rw [preferred_flip, preferred_flip, preferred_flip]
        exact fun ab bc => not_earlier_trans c b a bc ab

theorem mem_left {entry : Entry} : (∃ child ∈ children, child.entry = some entry) ↔
    ∃ list ∈ left children, list.head? = some entry := by
  simp only [left, List.mem_map, exists_exists_and_eq_and, ChildIterator.entry_eq]

theorem pickChild_greatest {child : ChildIterator cmp} (member : child ∈ children) {entry : Entry}
    (stands : child.entry = some entry)
    (greatest : ∀ other ∈ children, ∀ e ∈ other.entry, ¬ cmp.Before entry.1.userKey e.1.userKey) :
    ∃ i picked, pickChild false children = some (i, picked) ∧
      picked.1.userKey = entry.1.userKey := by
  have least := least_pickChild false children
  obtain ⟨list, inLeft, head⟩ := mem_left.mp ⟨child, member, stands⟩
  rcases shape : pickChild false children with _ | ⟨i, picked⟩ <;> rw [shape] at least
  · rw [least list inLeft] at head
    cases head
  · obtain ⟨⟨rest, here⟩, best⟩ := least
    refine ⟨i, picked, rfl, ?_⟩
    obtain ⟨other, inChildren, stood⟩ := mem_left.mpr ⟨_, List.mem_of_getElem? here, List.head?_cons⟩
    have notAbove := greatest other inChildren picked stood
    have notBelow : ¬ cmp.Before picked.1.userKey entry.1.userKey := by
      intro before
      refine best list inLeft entry head ?_
      rw [preferred_flip]
      exact internalCompare_lt.mpr (.inl before)
    exact ((Comparator.not_before.mp notAbove).resolve_right notBelow).symm

def Found (base : List (ChildIterator cmp)) (key : Key) (rest : List (ChildIterator cmp)) : Prop :=
  rest.map ChildIterator.unplaced = base ∧ left rest = after cmp key (whole base)

theorem largest_found (snapshot : Nat) (sorted : Sorted cmp (whole base))
    (sources : children.map ChildIterator.unplaced = base) {i : Nat} {entry : Entry}
    (picked : pickChild false children = some (i, entry))
    (seekable : Seekable base entry.1.userKey) : ∃ rest,
      largest snapshot children =
          some (entry.1.userKey, content snapshot base entry.1.userKey, rest) ∧
        Found base entry.1.userKey rest := by
  have whole := whole_of_unplaced sources
  rw [seekable_of_unplaced sources] at seekable
  obtain ⟨rest, round, unplaced, behind⟩ :=
    largest_eq snapshot (whole ▸ sorted) picked seekable
  refine ⟨rest, ?_, unplaced.trans sources, whole ▸ behind⟩
  rw [round, content, content, whole]

theorem findLargest_of_lands (sorted : Sorted cmp (whole base))
    (sources : children.map ChildIterator.unplaced = base) {p : Key → Prop}
    (lands : Lands snapshot p children) : ∃ key value rest, p key ∧
      content snapshot base key = some value ∧ Found base key rest ∧
        (∀ other, p other → cmp.Before key other → content snapshot base other = none) ∧
          ∀ fuel, findLargest snapshot (fuel + 1) children = some (some ((key, value), rest)) := by
  have whole := whole_of_unplaced sources
  have same (key : Key) : content snapshot base key = content snapshot children key := by
    rw [content, content, whole]
  obtain ⟨child, member, entry, stands, greatest, holds, seekable, alive, last⟩ := lands
  obtain ⟨i, picked, shape, here⟩ := pickChild_greatest member stands greatest
  rw [← here] at holds seekable alive last
  obtain ⟨rest, round, found⟩ := largest_found snapshot sorted sources shape
    ((seekable_of_unplaced sources _).mpr seekable)
  obtain ⟨value, live⟩ := Option.ne_none_iff_exists'.mp alive
  rw [← same] at live
  refine ⟨_, value, rest, holds, live, found, fun other also beyond => ?_, fun fuel => ?_⟩
  · by_contra there
    rw [same] at there
    obtain ⟨e, inWhole, rfl⟩ := mem_whole_of_content snapshot there
    exact there (last e inWhole also beyond)
  · rw [findLargest, rounds, round, live]

def Placed (base children : List (ChildIterator cmp)) : Prop :=
  children.map ChildIterator.unplaced = base ∧
    ∀ child ∈ children, ∀ e ∈ child.entry, Seekable base e.1.userKey

section Barren
variable (sorted : Sorted cmp (whole base))
  (seekable : ∀ e ∈ (whole base).flatten, Seekable base e.1.userKey)
include sorted seekable

theorem placed_largest {key : Key} {value : Option Value} {rest : List (ChildIterator cmp)}
    (placed : Placed base children) (round : largest snapshot children = some (key, value, rest)) :
    (∃ child ∈ children, ∃ e ∈ child.entry, e.1.userKey = key) ∧ Placed base rest ∧
      left rest = after cmp key (whole base) ∧ content snapshot base key = value := by
  have least := least_pickChild false children
  rcases shape : pickChild false children with _ | ⟨i, entry⟩ <;> rw [shape] at least
  · rw [largest, shape] at round
    cases round
  · obtain ⟨⟨tail, here⟩, -⟩ := least
    obtain ⟨child, member, stands⟩ := mem_left.mpr ⟨_, List.mem_of_getElem? here, List.head?_cons⟩
    obtain ⟨rest', round', sources, behind⟩ := largest_found snapshot sorted placed.1
      shape (placed.2 child member entry stands)
    rw [round] at round'
    obtain ⟨rfl, rfl, rfl⟩ : key = entry.1.userKey ∧
        value = content snapshot base entry.1.userKey ∧ rest = rest' := by
      simpa [Prod.ext_iff] using round'
    refine ⟨⟨child, member, entry, stands, rfl⟩, ⟨sources, fun other inRest e standsAt => ?_⟩,
      behind, rfl⟩
    obtain ⟨list, inLeft, head⟩ := mem_left.mp ⟨other, inRest, standsAt⟩
    rw [behind] at inLeft
    obtain ⟨all, inWhole, rfl⟩ := List.mem_map.mp inLeft
    have inside := List.mem_of_mem_filter (List.mem_of_mem_head? head)
    exact seekable e (List.mem_flatten_of_mem inWhole inside)

theorem size_largest_lt {key last : Key} {value : Option Value} {rest : List (ChildIterator cmp)}
    (placed : Placed base children) (behind : left children = after cmp last (whole base))
    (round : largest snapshot children = some (key, value, rest)) :
    size (left rest) < size (left children) := by
  obtain ⟨⟨child, member, e, stands, same⟩, -, left', -⟩ :=
    placed_largest sorted seekable placed round
  obtain ⟨list, inLeft, head⟩ := mem_left.mp ⟨child, member, stands⟩
  have inside := List.mem_of_mem_head? head
  have beyond : cmp.Before last key := by
    rw [behind] at inLeft
    obtain ⟨all, -, rfl⟩ := List.mem_map.mp inLeft
    exact same ▸ of_decide_eq_true (List.mem_filter.mp inside).2
  have again : after cmp key (left children) = left rest := by
    rw [left', behind, after, after, after, List.map_map]
    refine List.map_congr_left fun all _ => ?_
    rw [Function.comp, List.filter_filter]
    refine List.filter_congr fun other _ => ?_
    by_cases above : cmp.Before key other.1.userKey
    · simp [above, beyond.trans above]
    · simp [above]
  rw [← again]
  have held : e.version ∈ versionsAt (left children) key :=
    List.mem_flatMap.mpr ⟨list, inLeft, mem_versionsOf.mpr ⟨e, inside, same, rfl⟩⟩
  exact size_after_lt cmp (List.ne_nil_of_mem held)

open Classical in
noncomputable def climb (base children : List (ChildIterator cmp)) : Nat :=
  if ∃ last, left children = after cmp last (whole base) then size (left children)
  else size (whole base) + 1

theorem climb_largest {key : Key} {value : Option Value} {rest : List (ChildIterator cmp)}
    (placed : Placed base children) (round : largest snapshot children = some (key, value, rest)) :
    Placed base rest ∧ climb base rest < climb base children := by
  obtain ⟨-, placed', behind, -⟩ := placed_largest sorted seekable placed round
  refine ⟨placed', ?_⟩
  have here : climb base rest = size (left rest) := if_pos ⟨key, behind⟩
  by_cases stood : ∃ last, left children = after cmp last (whole base)
  · obtain ⟨last, before⟩ := stood
    have there : climb base children = size (left children) := if_pos ⟨last, before⟩
    rw [here, there]
    exact size_largest_lt sorted seekable placed before round
  · have there : climb base children = size (whole base) + 1 := if_neg stood
    rw [there, here, behind, size, after, ← List.filter_flatten]
    exact Nat.lt_succ_of_le (List.length_filter_le _ _)

theorem content_of_findLargest {key : Key} {value : Value} {rest : List (ChildIterator cmp)}
    (placed : Placed base children)
    (returned : findLargest snapshot fuel children = some (some ((key, value), rest))) :
    Placed base rest ∧ content snapshot base key = some value :=
  content_of_rounds (fun _ _ _ _ placed round =>
    have found := placed_largest sorted seekable placed round
    ⟨found.2.1, found.2.2.2⟩) fuel placed returned

theorem findLargest_returns (placed : Placed base children) (enough : climb base children < fuel) :
    ∃ result, findLargest snapshot fuel children = some result :=
  rounds_return (fun _ _ _ _ => climb_largest sorted seekable) fuel placed enough

end Barren

/-! ## One call -/

theorem sources_map {place : ChildIterator cmp → ChildIterator cmp}
    (same : ∀ child, (place child).unplaced = child.unplaced) (children : List (ChildIterator cmp)) :
    (children.map place).map ChildIterator.unplaced = children.map ChildIterator.unplaced :=
  List.map_map.trans (List.map_congr_left fun child _ => same child)

theorem unplaced_stepBack (last : Key) (child : ChildIterator cmp) :
    (stepBack last child).unplaced = child.unplaced := by
  rw [stepBack]
  split
  · exact (child.seek last).unplaced_prev.trans (child.unplaced_seek last)
  · exact child.unplaced_seek last

theorem sources_forwards (it : MergeCursor cmp) (last : Key) :
    (it.forwards last).children.map ChildIterator.unplaced =
      it.children.map ChildIterator.unplaced := by
  unfold forwards
  split
  · rfl
  · exact sources_map (fun child => child.unplaced_seek last) it.children

theorem sources_backwards (it : MergeCursor cmp) (last : Key) :
    (it.backwards last).children.map ChildIterator.unplaced =
      it.children.map ChildIterator.unplaced := by
  unfold backwards
  split
  · rfl
  · exact sources_map (unplaced_stepBack last) it.children

section Calls
variable {out : List (Key × Value)} {position : Option (Key × Value)}
  (sorted : Sorted cmp (whole base)) (agreeing : Agreeing (whole base))
include sorted agreeing

theorem standing_of_keeping (snapshot : Nat) {p : Key → Prop} [DecidablePred p]
    (sources : children.map ChildIterator.unplaced = base)
    (here : left children = keeping p (whole base)) :
    (standing base snapshot).inv children ∧ ∀ key, (standing base snapshot).content children key =
      if p key then content snapshot base key else none := by
  refine ⟨⟨sources, ?_⟩, fun key => ?_⟩
  · rw [here]
    exact ⟨sorted.keeping, agreeing.keeping⟩
  · change live snapshot (versionsAt (left children) key) = _
    rw [here, versionsAt_keeping]
    split <;> rfl

theorem standing_seek (snapshot : Nat)
    (sources : it.children.map ChildIterator.unplaced = base) {target : Key}
    (seekable : Seekable it.children target) :
    (standing base snapshot).inv (it.children.map (ChildIterator.seek target)) ∧
      ∀ key, (standing base snapshot).content (it.children.map (ChildIterator.seek target)) key =
        if ¬ cmp.Before key target then content snapshot base key else none := by
  refine standing_of_keeping sorted agreeing snapshot
    (p := fun key => ¬ cmp.Before key target) ?_ ?_
  · rw [List.map_map, ← sources]
    exact List.map_congr_left fun child _ => child.unplaced_seek target
  · rw [whole_of_unplaced sources]
    exact left_seek seekable

theorem standing_forwards (tracks : Tracks base snapshot it position) {last : Key × Value}
    (current : last ∈ it.current)
    (sound : it.direction = .kForward ∨ Seekable it.children last.1) :
    (standing base snapshot).inv (it.forwards last.1).children ∧ ∀ key, cmp.Before last.1 key →
      (standing base snapshot).content (it.forwards last.1).children key =
        content snapshot base key := by
  unfold forwards
  split
  · obtain ⟨inv, left⟩ := tracks.behind last current
    exact ⟨⟨tracks.sources, inv⟩, fun key beyond => (left key).trans (if_pos beyond)⟩
  · rename_i reverse
    obtain ⟨inv, left⟩ := standing_seek sorted agreeing snapshot tracks.sources
      (sound.resolve_left reverse)
    exact ⟨inv, fun key beyond => (left key).trans (if_pos beyond.not_before)⟩

theorem tracks_backward {p : Key → Prop} (sources : it.children.map ChildIterator.unplaced = base)
    {result : Option ((Key × Value) × List (ChildIterator cmp))}
    (found : ∀ key value rest, result = some ((key, value), rest) → p key ∧
      content snapshot base key = some value ∧ Found base key rest ∧
        ∀ other, p other → cmp.Before key other → content snapshot base other = none)
    (nothing : result = none → ∀ key, p key → content snapshot base key = none)
    (moves : ∀ found, Least (fun a b => cmp.Before b a) p (content snapshot base) found →
      position = found) : Tracks base snapshot (it.settle result) position := by
  have least : Least (fun a b => cmp.Before b a) p (content snapshot base)
      (result.map Prod.fst) := by
    rcases result with _ | ⟨⟨key, value⟩, rest⟩
    · exact nothing rfl
    · obtain ⟨holds, alive, -, last⟩ := found key value rest rfl
      exact ⟨holds, alive, last⟩
  rw [moves _ least]
  refine tracks_settle sources fun entry rest shape => ?_
  obtain ⟨-, -, ⟨same, behind⟩, -⟩ := found entry.1 entry.2 rest shape
  obtain ⟨inv, left⟩ := standing_of_keeping sorted agreeing snapshot
    (p := fun key => cmp.Before entry.1 key) same behind
  exact ⟨same, inv.2, left⟩

omit sorted agreeing in
theorem dead_of_barren {p : Key → Prop} (sources : children.map ChildIterator.unplaced = base)
    (barren : Barren snapshot p children) : (∀ key, p key → content snapshot base key = none) ∧
      (∀ e ∈ (whole base).flatten, Seekable base e.1.userKey) ∧ Placed base children := by
  have whole := whole_of_unplaced sources
  refine ⟨fun key holds => ?_, fun e member => ?_, sources, fun child member e stands => ?_⟩
  · by_contra alive
    rw [content, whole] at alive
    obtain ⟨e, inWhole, rfl⟩ := mem_whole_of_content snapshot alive
    exact alive (barren.dead e inWhole holds)
  · exact (seekable_of_unplaced sources _).mpr (barren.seekable e (whole ▸ member))
  · exact (seekable_of_unplaced sources _).mpr (barren.standing child member e stands)

omit agreeing in
theorem found_of_calls {accept : Key → Bool}
    (sources : children.map ChildIterator.unplaced = base)
    (sound : Lands snapshot (fun key => accept key) children ∨
      Barren snapshot (fun key => accept key) children)
    {turns : Nat} {result : Option ((Key × Value) × List (ChildIterator cmp))}
    (returned : calls accept (findLargest snapshot fuel) turns children = some result) :
    (∀ key value rest, result = some ((key, value), rest) → accept key ∧
      content snapshot base key = some value ∧ Found base key rest ∧
        ∀ other, accept other → cmp.Before key other → content snapshot base other = none) ∧
      (result = none → ∀ key, accept key → content snapshot base key = none) := by
  rcases sound with lands | barren
  · obtain ⟨key, value, rest, holds, alive, found, last, round⟩ :=
      findLargest_of_lands sorted sources lands
    have here : result = some ((key, value), rest) := by
      cases turns with
      | zero => cases returned
      | succ turns =>
          cases fuel with
          | zero => cases returned
          | succ fuel =>
              rw [calls, round fuel] at returned
              dsimp only at returned
              rw [if_pos holds] at returned
              exact (Option.some.inj returned).symm
    subst here
    refine ⟨fun other w u same => ?_, fun none => absurd none (Option.some_ne_none _)⟩
    obtain ⟨⟨rfl, rfl⟩, rfl⟩ : (key = other ∧ value = w) ∧ rest = u := by
      simpa [Prod.ext_iff] using same
    exact ⟨holds, alive, found, last⟩
  · obtain ⟨dead, seekable, placed⟩ := dead_of_barren sources barren
    obtain rfl := calls_exhaust dead
      (fun _ _ _ _ => content_of_findLargest sorted seekable) turns placed returned
    refine ⟨fun key value rest found => ?_, fun _ => dead⟩
    cases found

theorem standing_seekToFirst (snapshot : Nat)
    (sources : it.children.map ChildIterator.unplaced = base) :
    (standing base snapshot).inv (it.children.map ChildIterator.seekToFirst) ∧
      ∀ key, (standing base snapshot).content (it.children.map ChildIterator.seekToFirst) key =
        content snapshot base key := by
  have placed := (sources_map ChildIterator.unplaced_seekToFirst it.children).trans sources
  have left : left (it.children.map ChildIterator.seekToFirst) =
      keeping (fun _ => True) (whole base) := by
    rw [whole_of_unplaced sources]
    simp [left, whole, keeping, Function.comp_def]
  obtain ⟨inv, same⟩ := standing_of_keeping sorted agreeing snapshot placed left
  exact ⟨inv, fun key => (same key).trans (if_pos trivial)⟩

theorem tracks_seekToFirst (lists : Lists cmp.Before (content snapshot base) out)
    (sources : it.children.map ChildIterator.unplaced = base)
    (returned : it.seekToFirst snapshot fuel = some it') :
    Tracks base snapshot it' (Cursors.first out) := by
  obtain ⟨result, found, rfl⟩ := Option.map_eq_some_iff.mp returned
  have placed := (sources_map ChildIterator.unplaced_seekToFirst it.children).trans sources
  obtain ⟨inv, same⟩ := standing_seekToFirst sorted agreeing snapshot sources
  have yields : YieldsFrom cmp.Before (standing base snapshot) (fun _ => True) _ result :=
    yieldsFrom_of_yields (yields_rounds turns_smallest fuel inv found) fun _ fails =>
      absurd trivial fails
  exact tracks_forward (fun _ _ _ _ => trivial) placed (fun key _ => same key) yields
    fun _ => first_of_least lists

theorem tracks_seek (lists : Lists cmp.Before (content snapshot base) out)
    (sources : it.children.map ChildIterator.unplaced = base) {target : Key}
    (seekable : Seekable it.children target)
    (returned : it.seek snapshot fuel target = some it') :
    Tracks base snapshot it' (Cursors.seek cmp.Before out target) := by
  obtain ⟨result, found, rfl⟩ := Option.map_eq_some_iff.mp returned
  have placed := (sources_map (fun child => child.unplaced_seek target) it.children).trans sources
  obtain ⟨inv, same⟩ := standing_seek sorted agreeing snapshot sources seekable
  have yields : YieldsFrom cmp.Before (standing base snapshot)
      (fun key => ¬ cmp.Before key target) _ result :=
    yieldsFrom_of_yields (yields_rounds turns_smallest fuel inv found) fun key before =>
      (same key).trans (if_neg before)
  have upward (a b : Key) (reached : ¬ cmp.Before a target) (ab : cmp.Before a b) :
      ¬ cmp.Before b target := fun before => reached (ab.trans before)
  exact tracks_forward upward placed (fun key holds => (same key).trans (if_pos holds)) yields
    fun _ => seek_of_least lists

theorem tracks_next (lists : Lists cmp.Before (content snapshot base) out)
    (tracks : Tracks base snapshot it position) {last : Key × Value} (current : it.current = some last)
    (sound : it.direction = .kForward ∨ Seekable it.children last.1)
    (returned : it.next snapshot fuel = some it') :
    Tracks base snapshot it' (Cursors.next cmp.Before out last.1) := by
  rw [MergeCursor.next, current] at returned
  obtain ⟨result, found, rfl⟩ := Option.map_eq_some_iff.mp returned
  have placed := (sources_forwards it last.1).trans tracks.sources
  obtain ⟨inv, same⟩ := standing_forwards sorted agreeing tracks current sound
  have accepted (key : Key) : decide (cmp.compare key last.1 = .gt) = true ↔
      cmp.Before last.1 key := decide_eq_true_iff.trans Comparator.compare_gt
  have yields := yieldsFrom_calls
    (fun a b above ab => (accepted b).mpr (((accepted a).mp above).trans ab))
    (fun s result inv => yields_rounds turns_smallest fuel (s := s) inv) fuel inv found
  simp only [accepted] at yields
  exact tracks_forward (fun _ _ above ab => above.trans ab) placed same yields
    fun _ => next_of_least lists

theorem tracks_seekToLast (lists : Lists cmp.Before (content snapshot base) out)
    (sources : it.children.map ChildIterator.unplaced = base)
    (sound : it.Sound snapshot .seekToLast) (returned : it.seekToLast snapshot fuel = some it') :
    Tracks base snapshot it' (Cursors.last out) := by
  obtain ⟨result, found, rfl⟩ := Option.map_eq_some_iff.mp returned
  have placed := (sources_map ChildIterator.unplaced_seekToLast it.children).trans sources
  -- One call is the whole loop when every key is accepted.
  have once : calls (fun _ => true) (findLargest snapshot fuel) 1
      (it.children.map ChildIterator.seekToLast) = some result := by
    rw [calls, found]
    rcases result with _ | ⟨⟨key, value⟩, rest⟩ <;> rfl
  have all : (fun _ : Key => true = true) = fun _ => True := funext fun _ => eq_self true
  obtain ⟨finds, nothing⟩ := found_of_calls sorted placed (by rw [all]; exact sound) once
  simp only [eq_self] at finds nothing
  exact tracks_backward sorted agreeing placed finds nothing fun _ => last_of_greatest lists

theorem tracks_prev (lists : Lists cmp.Before (content snapshot base) out)
    (tracks : Tracks base snapshot it position) {last : Key × Value} (current : it.current = some last)
    (sound : Lands snapshot (fun key => cmp.Before key last.1) (it.backwards last.1).children ∨
      Barren snapshot (fun key => cmp.Before key last.1) (it.backwards last.1).children)
    (returned : it.prev snapshot fuel = some it') :
    Tracks base snapshot it' (Cursors.prev cmp.Before out last.1) := by
  rw [MergeCursor.prev, current] at returned
  obtain ⟨result, found, rfl⟩ := Option.map_eq_some_iff.mp returned
  have placed := (sources_backwards it last.1).trans tracks.sources
  have accepted (key : Key) : decide (cmp.compare key last.1 = .lt) = true ↔
      cmp.Before key last.1 := decide_eq_true_iff
  obtain ⟨finds, nothing⟩ := found_of_calls sorted placed (by simpa only [accepted] using sound) found
  simp only [accepted] at finds nothing
  exact tracks_backward sorted agreeing placed finds nothing fun _ => prev_of_greatest lists

theorem tracks_call (lists : Lists cmp.Before (content snapshot base) out)
    (tracks : Tracks base snapshot it position) {request : CursorCall}
    (sound : it.Sound snapshot request) (returned : it.call snapshot fuel request = some it') :
    Tracks base snapshot it' (request.move cmp out position) := by
  cases request with
  | seekToFirst => exact tracks_seekToFirst sorted agreeing lists tracks.sources returned
  | seekToLast => exact tracks_seekToLast sorted agreeing lists tracks.sources sound returned
  | seek target => exact tracks_seek sorted agreeing lists tracks.sources sound returned
  | next =>
      obtain ⟨last, current, sound⟩ := sound
      rw [CursorCall.move, ← tracks.shown, Option.mem_def.mp current]
      exact tracks_next sorted agreeing lists tracks current sound returned
  | prev =>
      obtain ⟨last, current, sound⟩ := sound
      rw [CursorCall.move, ← tracks.shown, Option.mem_def.mp current]
      exact tracks_prev sorted agreeing lists tracks current sound returned

/-! ## A sound call returns -/

omit sorted agreeing

theorem smallest_smaller (s : List (ChildIterator cmp)) (key : Key) (value : Option Value)
    (t : List (ChildIterator cmp)) (inv : (standing base snapshot).inv s)
    (round : smallest snapshot s = some (key, value, t)) :
    (standing base snapshot).inv t ∧
      (standing base snapshot).size t < (standing base snapshot).size s := by
  have turns := turns_smallest s inv
  rw [round] at turns
  exact ⟨turns.1, turns.2.1⟩

theorem findSmallest_returns (inv : (standing base snapshot).inv children)
    (enough : (standing base snapshot).size children < fuel) :
    ∃ result, findSmallest snapshot fuel children = some result :=
  rounds_return smallest_smaller fuel inv enough

theorem next_returns (accept : Key → Bool) (inv : (standing base snapshot).inv children)
    (enough : (standing base snapshot).size children < fuel) :
    ∃ result, calls accept (findSmallest snapshot fuel) fuel children = some result :=
  calls_return (fun _ _ _ _ => rounds_smaller smallest_smaller fuel)
    (fun _ => findSmallest_returns) fuel inv enough enough

include sorted agreeing

omit agreeing in
theorem calls_findLargest_return (snapshot : Nat) (accept : Key → Bool)
    (sources : children.map ChildIterator.unplaced = base)
    (sound : Lands snapshot (fun key => accept key) children ∨
      Barren snapshot (fun key => accept key) children) :
    ∃ fuel result, calls accept (findLargest snapshot fuel) fuel children = some result := by
  rcases sound with lands | barren
  · obtain ⟨key, value, rest, holds, -, -, -, round⟩ := findLargest_of_lands sorted sources lands
    refine ⟨1, some ((key, value), rest), ?_⟩
    rw [calls, round 0]
    exact if_pos holds
  · obtain ⟨-, seekable, placed⟩ := dead_of_barren sources barren
    refine ⟨climb base children + 1, ?_⟩
    refine calls_return (fun _ _ _ _ => rounds_smaller
      (fun _ _ _ _ => climb_largest sorted seekable) _) (fun _ =>
        findLargest_returns sorted seekable) _ placed (Nat.lt_succ_self _) (Nat.lt_succ_self _)

omit agreeing in
theorem seekToLast_returns (sources : it.children.map ChildIterator.unplaced = base)
    (sound : it.Sound snapshot .seekToLast) :
    ∃ fuel it', it.seekToLast snapshot fuel = some it' := by
  have placed := (sources_map ChildIterator.unplaced_seekToLast it.children).trans sources
  have all : (fun _ : Key => true = true) = fun _ => True := funext fun _ => eq_self true
  obtain ⟨fuel, result, returned⟩ := calls_findLargest_return sorted snapshot (fun _ => true)
    placed (by rw [all]; exact sound)
  cases fuel with
  | zero => cases returned
  | succ fuel =>
      rw [calls] at returned
      cases found : findLargest snapshot (fuel + 1) (it.children.map ChildIterator.seekToLast) with
      | none =>
          rw [found] at returned
          cases returned
      | some largest => exact ⟨fuel + 1, _, Option.map_eq_some_iff.mpr ⟨largest, found, rfl⟩⟩

theorem call_returns (tracks : Tracks base snapshot it position) {request : CursorCall}
    (sound : it.Sound snapshot request) : ∃ fuel it', it.call snapshot fuel request = some it' := by
  have sources := tracks.sources
  cases request with
  | seekToFirst =>
      obtain ⟨inv, -⟩ := standing_seekToFirst sorted agreeing snapshot sources
      obtain ⟨result, found⟩ := findSmallest_returns inv (Nat.lt_succ_self _)
      exact ⟨_, _, Option.map_eq_some_iff.mpr ⟨result, found, rfl⟩⟩
  | seekToLast => exact seekToLast_returns sorted sources sound
  | seek target =>
      obtain ⟨inv, -⟩ := standing_seek sorted agreeing snapshot sources sound
      obtain ⟨result, found⟩ := findSmallest_returns inv (Nat.lt_succ_self _)
      exact ⟨_, _, Option.map_eq_some_iff.mpr ⟨result, found, rfl⟩⟩
  | next =>
      obtain ⟨last, current, sound⟩ := sound
      obtain ⟨inv, -⟩ := standing_forwards sorted agreeing tracks current sound
      obtain ⟨result, found⟩ := next_returns (fun key => cmp.compare key last.1 = .gt) inv
        (Nat.lt_succ_self _)
      refine ⟨(standing base snapshot).size (it.forwards last.1).children + 1,
        (it.forwards last.1).settle result, ?_⟩
      rw [call, MergeCursor.next, Option.mem_def.mp current]
      exact Option.map_eq_some_iff.mpr ⟨result, found, rfl⟩
  | prev =>
      obtain ⟨last, current, sound⟩ := sound
      have placed := (sources_backwards it last.1).trans sources
      have accepted (key : Key) : decide (cmp.compare key last.1 = .lt) = true ↔
          cmp.Before key last.1 := decide_eq_true_iff
      obtain ⟨fuel, result, found⟩ := calls_findLargest_return sorted snapshot
        (fun key => decide (cmp.compare key last.1 = .lt)) placed
        (by simpa only [accepted] using sound)
      refine ⟨fuel, (it.backwards last.1).settle result, ?_⟩
      rw [call, MergeCursor.prev, Option.mem_def.mp current]
      exact Option.map_eq_some_iff.mpr ⟨result, found, rfl⟩

end Calls

/-! ## Runs -/

def step (snapshot : Nat) (out : List (Key × Value))
    (s : MergeCursor cmp × Option (Key × Value)) (request : CursorCall × Nat) :
    Option (MergeCursor cmp × Option (Key × Value)) :=
  (s.1.call snapshot request.2 request.1).map fun it => (it, request.1.move cmp out s.2)

/-- Only sound calls are made. -/
def Careful (snapshot : Nat) (s : MergeCursor cmp × Option (Key × Value))
    (request : CursorCall × Nat) : Prop :=
  s.1.Sound snapshot request.1

section Trees
variable {t : LSMTree cmp}

theorem whole_newMergeCursor (t : LSMTree cmp) : whole t.newMergeCursor.children = t.children :=
  entries_newMergeCursor t

theorem unplaced_newMergeCursor (t : LSMTree cmp) :
    t.newMergeCursor.children.map ChildIterator.unplaced = t.newMergeCursor.children := by
  simp [newMergeCursor, ChildIterator.unplaced, Function.comp_def]

/-- After any run of sound calls from a new iterator, the iterator shows what a cursor on the list of
live keys shows, and a further sound call returns. -/
theorem shows_of_run (searchable : t.sstables.Searchable cmp)
    (leveled : t.sstables.Leveled cmp) (functional : ∀ key, Functional (t.stamps key))
    {snapshot : Nat} {out : List (Key × Value)} (lists : Lists cmp.Before (fun key =>
      (newest ((t.stamps key).filter fun w => Visible snapshot w.1)).bind Prod.snd) out)
    {it : MergeCursor cmp} {position : Option (Key × Value)}
    (run : Runs.Run (step snapshot out) (Careful snapshot) (t.newMergeCursor, none)
      (it, position)) : it.current = position ∧
        ∀ request, it.Sound snapshot request → ∃ fuel it', it.call snapshot fuel request = some it' := by
  have sorted := sorted_children searchable leveled
  have agreeing := agreeing_children searchable leveled functional
  rw [← whole_newMergeCursor] at sorted agreeing
  have same (key : Key) : content snapshot t.newMergeCursor.children key =
      (newest ((t.stamps key).filter fun w => Visible snapshot w.1)).bind Prod.snd := by
    rw [content, whole_newMergeCursor]
    exact live_children searchable leveled functional snapshot key
  simp only [← same] at lists
  have tracks : Tracks t.newMergeCursor.children snapshot it position := by
    refine Runs.Run.invariant (p := fun s => Tracks t.newMergeCursor.children snapshot s.1 s.2) ?_
      run ⟨unplaced_newMergeCursor t, rfl, nofun⟩
    intro s request s' sound stepped tracks
    obtain ⟨it', returned, rfl⟩ := Option.map_eq_some_iff.mp stepped
    exact tracks_call sorted agreeing lists tracks sound returned
  exact ⟨tracks.shown, fun _ => call_returns sorted agreeing tracks⟩

end Trees

end MergeCursor
end Lrdb
