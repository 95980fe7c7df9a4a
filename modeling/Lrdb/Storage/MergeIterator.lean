import Lrdb.Base.Merging
import Lrdb.Base.Scans
import Lrdb.Storage.Stamps

/-!
# The merging iterator

The merge takes the least user key at the front of a child, consumes its versions from all children
and yields the newest visible one, unless that is a tombstone.
-/

namespace Lrdb
open Versions Scans SSTable LSMTree

namespace MergeIterator
variable (cmp : Comparator) (snapshot : Nat)

abbrev Children := List (List Entry)

def size (children : Children) : Nat := children.flatten.length

/-- The turn of `PickChild` for one child. -/
def consider (best : Option (Nat × Entry)) (child : List Entry × Nat) : Option (Nat × Entry) :=
  match child.1, best with
  | [], best => best
  | entry :: _, none => some (child.2, entry)
  | entry :: _, some (i, least) =>
      if internalCompare cmp entry.1 least.1 = .lt then some (child.2, entry) else some (i, least)

def pickChild (children : Children) : Option (Nat × Entry) :=
  children.zipIdx.foldl (consider cmp) none

def isKey (key : Key) (entry : Entry) : Bool := cmp.compare entry.1.userKey key == .eq

def front (key : Key) (child : List Entry) : List Version :=
  (child.takeWhile (isKey cmp key)).map Entry.version

/-- The lambda `consider_version`. -/
def considerVersion (best : Option Version) (version : Version) : Option Version :=
  if snapshot ≠ 0 ∧ snapshot < version.1 then best
  else
    match best with
    | none => some version
    | some newer => if newer.1 < version.1 then some version else some newer

def turn (children : Children) : Option (Key × Option Value × Children) :=
  match pickChild cmp children with
  | none => none
  | some (i, entry) =>
      let key := entry.1.userKey
      let versions := front cmp key (children.getD i []) ++
        (children.eraseIdx i).flatMap (front cmp key)
      some (key, (versions.foldl (considerVersion snapshot) none).bind payload,
        children.map fun child => child.dropWhile (isKey cmp key))

def findSmallest (children : Children) : Option ((Key × Value) × Children) :=
  seek (turn cmp snapshot) (size children + 1) children

/-- `Next`: on to a key after the last one. -/
def next (last : Key) : Nat → Children → Option ((Key × Value) × Children)
  | 0, _ => none
  | fuel + 1, children =>
      match findSmallest cmp snapshot children with
      | none => none
      | some ((key, value), rest) =>
          if cmp.compare key last = .gt then some ((key, value), rest) else next last fuel rest

/-- `SeekToFirst` when there is no last key, `Next` otherwise. -/
def step (position : Option Key × Children) : Option ((Key × Value) × Option Key × Children) :=
  let found :=
    match position with
    | (none, children) => findSmallest cmp snapshot children
    | (some last, children) => next cmp snapshot last (size children + 1) children
  found.map fun (entry, rest) => (entry, some entry.1, rest)

/-- `SeekToFirst`, then `Next` as long as the iterator is valid. -/
def scan (children : Children) : List (Key × Value) :=
  drain (step cmp snapshot) (size children + 1) (none, children)

/-! ## Picking a child -/

variable {cmp} {snapshot}

def Sorted (cmp : Comparator) (children : Children) : Prop :=
  ∀ child ∈ children, UserSorted cmp child

def versionsAt (children : Children) (key : Key) : List Version :=
  children.flatMap (versionsOf key)

def Earlier (cmp : Comparator) (a b : Entry) : Prop := internalCompare cmp a.1 b.1 = .lt

instance (a b : Entry) : Decidable (Earlier cmp a b) := by unfold Earlier; infer_instance

theorem pickChild_eq_findMin (children : Children) :
    pickChild cmp children = Merging.findMin (Earlier cmp) children := by
  have same : consider cmp = Merging.consider (Earlier cmp) := by
    funext best child
    obtain ⟨list, i⟩ := child
    cases list <;> cases best <;> rfl
  rw [pickChild, Merging.findMin, same]

def Picked (cmp : Comparator) (children : Children) : Option (Nat × Entry) → Prop
  | none => ∀ child ∈ children, child = []
  | some (i, entry) => (∃ rest, children[i]? = some (entry :: rest)) ∧
      ∀ child ∈ children, ∀ first ∈ child.head?, internalCompare cmp first.1 entry.1 ≠ .lt

private theorem not_lt_iff {o : Ordering} : ¬ o = .lt ↔ o.isGE := by cases o <;> decide

theorem earlier_asymm (a b : Entry) (before : Earlier cmp a b) : ¬ Earlier cmp b a := by
  unfold Earlier at before ⊢
  exact Std.OrientedCmp.not_lt_of_lt before

theorem not_earlier_trans (a b c : Entry) (ab : ¬ Earlier cmp b a) (bc : ¬ Earlier cmp c b) :
    ¬ Earlier cmp c a :=
  not_lt_iff.mpr (Std.TransCmp.isGE_trans (not_lt_iff.mp bc) (not_lt_iff.mp ab))

theorem picked_pickChild (cmp : Comparator) (children : Children) :
    Picked cmp children (pickChild cmp children) := by
  have least : Merging.Least (Earlier cmp) children (Merging.findMin (Earlier cmp) children) :=
    Merging.least_findMin earlier_asymm not_earlier_trans children
  rw [pickChild_eq_findMin]
  cases found : Merging.findMin (Earlier cmp) children with
  | none =>
      rw [found] at least
      exact least
  | some best =>
      rw [found] at least
      exact least

theorem Picked.least {children : Children} (sorted : Sorted cmp children) {i : Nat} {entry : Entry}
    (picked : Picked cmp children (some (i, entry))) :
    ∀ child ∈ children, ∀ other ∈ child, ¬ cmp.Before other.1.userKey entry.1.userKey := by
  intro child member other inside before
  cases child with
  | nil => cases inside
  | cons first rest =>
      have head := picked.2 _ member first rfl
      rw [ne_eq, internalCompare_lt, not_or] at head
      have above := (sorted _ member).head_not_after rfl other inside
      rcases Comparator.not_before.mp above with same | after
      · exact head.1 (same ▸ before)
      · exact head.1 (after.trans before)

/-! ## Consuming a key -/

theorem isKey_iff {key : Key} {entry : Entry} : isKey cmp key entry ↔ entry.1.userKey = key := by
  rw [isKey, beq_iff_eq, Comparator.compare_eq]

theorem consume {child : List Entry} (sorted : UserSorted cmp child) {key : Key}
    (least : ∀ entry ∈ child, ¬ cmp.Before entry.1.userKey key) :
    front cmp key child = versionsOf key child ∧
      child.dropWhile (isKey cmp key) = child.filter fun entry => cmp.Before key entry.1.userKey := by
  induction child with
  | nil => exact ⟨rfl, rfl⟩
  | cons entry rest ih =>
      obtain ⟨above, tail⟩ := List.pairwise_cons.mp sorted
      obtain ⟨here, later⟩ := List.forall_mem_cons.mp least
      by_cases same : entry.1.userKey = key
      · obtain ⟨taken, dropped⟩ := ih tail later
        have isHere : isKey cmp key entry = true := isKey_iff.mpr same
        have notAfter : ¬ cmp.Before key entry.1.userKey := fun before => before.ne same.symm
        rw [front] at taken
        refine ⟨by simp [front, versionsOf, isHere, same, taken], ?_⟩
        rw [List.dropWhile_cons_of_pos isHere, dropped,
          List.filter_cons_of_neg (by simpa using notAfter)]
      · -- The key is behind the child.
        have after : cmp.Before key entry.1.userKey :=
          (Comparator.not_before.mp here).resolve_left fun equal => same equal
        have afterAll : ∀ x ∈ rest, cmp.Before key x.1.userKey := by
          intro x member
          rcases Comparator.not_before.mp (above x member) with equal | before
          · exact equal ▸ after
          · exact after.trans before
        have notHere : ¬ isKey cmp key entry := fun isHere => same (isKey_iff.mp isHere)
        have none : rest.filter (fun x => x.1.userKey = key) = [] :=
          List.filter_eq_nil_iff.mpr fun x member equal =>
            (afterAll x member).ne (of_decide_eq_true equal).symm
        have all : rest.filter (fun x => cmp.Before key x.1.userKey) = rest :=
          List.filter_eq_self.mpr fun x member => decide_eq_true (afterAll x member)
        simp [front, versionsOf, notHere, same, after, none, all]

theorem foldl_considerVersion (versions : List Version) (best : Option Version) :
    versions.foldl (considerVersion snapshot) best =
      later best (newest (visibleVersions snapshot versions)) := by
  induction versions generalizing best with
  | nil => rw [visibleVersions, List.filter_nil, newest_nil, later_none_right]; rfl
  | cons version rest ih =>
      rw [List.foldl_cons, ih]
      unfold considerVersion
      by_cases visible : Visible snapshot version.1
      · have seen : ¬ (snapshot ≠ 0 ∧ snapshot < version.1) := by
          rintro ⟨bounded, above⟩
          exact visible.elim bounded (Nat.not_le.mpr above)
        have cons : visibleVersions snapshot (version :: rest) =
            version :: visibleVersions snapshot rest := by simp [visibleVersions, visible]
        rw [if_neg seen, cons, newest_cons, ← later_assoc]
        cases best <;> rfl
      · have unseen : snapshot ≠ 0 ∧ snapshot < version.1 := by
          rw [Visible, not_or, Nat.not_le] at visible
          exact visible
        have skip : visibleVersions snapshot (version :: rest) = visibleVersions snapshot rest := by
          simp [visibleVersions, visible]
        rw [if_pos unseen, skip]

/-! ## What the merge gives -/

def live (snapshot : Nat) (versions : List Version) : Option Value :=
  (newest (visibleVersions snapshot versions)).bind payload

def Agreeing (children : Children) : Prop :=
  ∀ key, Functional ((versionsAt children key).map stampOf)

theorem live_eq_stamps (snapshot : Nat) (versions : List Version) : live snapshot versions =
    (newest ((versions.map stampOf).filter fun w => Visible snapshot w.1)).bind Prod.snd := by
  have filtered : (versions.map stampOf).filter (fun w => Visible snapshot w.1) =
      (visibleVersions snapshot versions).map stampOf := by
    rw [List.filter_map, visibleVersions]
    rfl
  have contents : Prod.snd ∘ stampOf = payload := funext stampOf_snd
  rw [filtered, show stampOf = Prod.map id content from rfl, newest_map, Option.bind_map]
  change _ = (newest (visibleVersions snapshot versions)).bind (Prod.snd ∘ stampOf)
  rw [contents, live]

theorem live_congr {xs ys : List Version} (functional : Functional (ys.map stampOf))
    (same : ∀ version, version ∈ xs ↔ version ∈ ys) : live snapshot xs = live snapshot ys := by
  rw [live_eq_stamps, live_eq_stamps]
  refine congrArg (Option.bind · Prod.snd) (newest_congr
    (functional.subset fun w => List.mem_of_mem_filter) fun w => ?_)
  simp only [List.mem_filter, List.mem_map, same]

def keeping (p : Key → Prop) [DecidablePred p] (children : Children) : Children :=
  children.map fun child => child.filter fun entry => p entry.1.userKey

def after (cmp : Comparator) (key : Key) (children : Children) : Children :=
  children.map fun child => child.filter fun entry => cmp.Before key entry.1.userKey

section Keeping
variable {p : Key → Prop} [DecidablePred p] {children : Children}

theorem versionsAt_keeping (other : Key) :
    versionsAt (keeping p children) other = if p other then versionsAt children other else [] := by
  have one (child : List Entry) : versionsOf other (child.filter fun entry => p entry.1.userKey) =
      if p other then versionsOf other child else [] := by
    rw [versionsOf, List.filter_filter]
    split
    · rename_i holds
      refine congrArg _ (List.filter_congr fun entry _ => ?_)
      by_cases same : entry.1.userKey = other <;> simp [same, holds]
    · rename_i fails
      rw [List.map_eq_nil_iff, List.filter_eq_nil_iff]
      intro entry _ both
      simp only [Bool.and_eq_true, decide_eq_true_eq] at both
      exact fails (both.1 ▸ both.2)
  rw [versionsAt, keeping, List.flatMap_map]
  simp only [one]
  split
  · rfl
  · simp

theorem Sorted.keeping (sorted : Sorted cmp children) : Sorted cmp (keeping p children) := by
  intro child member
  obtain ⟨whole, inChildren, rfl⟩ := List.mem_map.mp member
  exact (sorted whole inChildren).sublist List.filter_sublist

theorem Agreeing.keeping (agreeing : Agreeing children) : Agreeing (keeping p children) := by
  intro other
  rw [versionsAt_keeping]
  split
  · exact agreeing other
  · exact fun x member => absurd member (by simp)

end Keeping

theorem versionsAt_after (children : Children) (key other : Key) :
    versionsAt (after cmp key children) other =
      if cmp.Before key other then versionsAt children other else [] :=
  versionsAt_keeping other

theorem size_after_lt (cmp : Comparator) {children : Children} {key : Key}
    (present : versionsAt children key ≠ []) : size (after cmp key children) < size children := by
  obtain ⟨version, member⟩ := List.exists_mem_of_ne_nil _ present
  obtain ⟨child, inChildren, held⟩ := List.mem_flatMap.mp member
  obtain ⟨entry, inside, rfl, -⟩ := mem_versionsOf.mp held
  rw [size, after, ← List.filter_flatten, size]
  refine List.length_filter_lt_length_iff_exists.mpr
    ⟨entry, List.mem_flatten_of_mem inChildren inside, ?_⟩
  simpa using fun before : cmp.Before entry.1.userKey entry.1.userKey => before.ne rfl

theorem Sorted.after {children : Children} (sorted : Sorted cmp children) (key : Key) :
    Sorted cmp (after cmp key children) := sorted.keeping

theorem Agreeing.after {children : Children} (agreeing : Agreeing children) (key : Key) :
    Agreeing (after cmp key children) := agreeing.keeping

def reading (cmp : Comparator) (snapshot : Nat) : Reading Key Value Children where
  inv children := Sorted cmp children ∧ Agreeing children
  content children key := live snapshot (versionsAt children key)
  size := size

theorem turns_turn (children : Children) (inv : (reading cmp snapshot).inv children) :
    Turns cmp.Before (reading cmp snapshot) children (turn cmp snapshot children) := by
  obtain ⟨sorted, agreeing⟩ := inv
  have choice := picked_pickChild cmp children
  rw [turn]
  cases picked : pickChild cmp children with
  | none =>
      rw [picked] at choice
      intro key
      have empty : versionsAt children key = [] := by
        refine List.flatMap_eq_nil_iff.mpr fun child member => ?_
        rw [choice child member]
        rfl
      exact congrArg (live snapshot) empty
  | some best =>
      obtain ⟨i, entry⟩ := best
      rw [picked] at choice
      have least := choice.least sorted
      obtain ⟨⟨rest, here⟩, -⟩ := choice
      obtain ⟨inside, child⟩ := List.getElem?_eq_some_iff.mp here
      have fronts : ∀ child ∈ children,
          front cmp entry.1.userKey child = versionsOf entry.1.userKey child :=
        fun child member => (consume (sorted child member) (least child member)).1
      have behind : (children.map fun child => child.dropWhile (isKey cmp entry.1.userKey)) =
          after cmp entry.1.userKey children :=
        List.map_congr_left fun child member =>
          (consume (sorted child member) (least child member)).2
      -- The picked child comes first; the set of versions is the same.
      have perm : (children.getD i [] :: children.eraseIdx i).Perm children := by
        rw [List.getD_eq_getElem?_getD, here, Option.getD_some, ← child]
        exact List.getElem_cons_eraseIdx_perm inside
      have members (version : Version) :
          version ∈ front cmp entry.1.userKey (children.getD i []) ++
              (children.eraseIdx i).flatMap (front cmp entry.1.userKey) ↔
            version ∈ versionsAt children entry.1.userKey := by
        rw [← List.flatMap_cons, (perm.flatMap_right _).mem_iff, versionsAt, List.mem_flatMap,
          List.mem_flatMap]
        refine exists_congr fun child => and_congr_right fun member => ?_
        rw [fronts child member]
      have present : versionsAt children entry.1.userKey ≠ [] :=
        List.ne_nil_of_mem (List.mem_flatMap.mpr
          ⟨_, List.mem_of_getElem? here, mem_versionsOf.mpr ⟨entry, List.mem_cons_self .., rfl, rfl⟩⟩)
      simp only [foldl_considerVersion, later_none_left, behind]
      refine ⟨⟨sorted.after _, agreeing.after _⟩, size_after_lt cmp present,
        (live_congr (agreeing entry.1.userKey) members).symm, ?_⟩
      refine ⟨fun other before => ?_, fun other later => ?_, fun other notLater => ?_⟩
      · -- No child has anything of a smaller key.
        have empty : versionsAt children other = [] := by
          refine List.eq_nil_iff_forall_not_mem.mpr fun version member => ?_
          obtain ⟨child, inside, held⟩ := List.mem_flatMap.mp member
          obtain ⟨e, inChild, rfl, -⟩ := mem_versionsOf.mp held
          exact least child inside e inChild before
        exact congrArg (live snapshot) empty
      · exact congrArg (live snapshot) ((versionsAt_after ..).trans (if_pos later))
      · exact congrArg (live snapshot) ((versionsAt_after ..).trans (if_neg notLater))

theorem yields_findSmallest {children : Children} (inv : (reading cmp snapshot).inv children) :
    Yields cmp.Before (reading cmp snapshot) children (findSmallest cmp snapshot children) :=
  yields_seek turns_turn _ inv (Nat.lt_add_one _)

theorem next_eq_findSmallest {children : Children} (inv : (reading cmp snapshot).inv children)
    {last : Key} (behind : ∀ key, ¬ cmp.Before last key →
      (reading cmp snapshot).content children key = none) (fuel : Nat) :
    next cmp snapshot last (fuel + 1) children = findSmallest cmp snapshot children := by
  have found := yields_findSmallest inv
  rw [next]
  rcases result : findSmallest cmp snapshot children with _ | ⟨⟨key, value⟩, rest⟩
  · rfl
  · rw [result] at found
    refine if_pos (Comparator.compare_gt.mpr ?_)
    by_contra notLater
    have alive := found.2.2.1
    rw [behind key notLater] at alive
    cases alive

def positions (cmp : Comparator) (snapshot : Nat) : Reading Key Value (Option Key × Children) where
  inv position := (reading cmp snapshot).inv position.2 ∧ ∀ last ∈ position.1, ∀ key,
    ¬ cmp.Before last key → (reading cmp snapshot).content position.2 key = none
  content position := (reading cmp snapshot).content position.2
  size position := size position.2

theorem yields_step (position : Option Key × Children) (inv : (positions cmp snapshot).inv position) :
    Yields cmp.Before (positions cmp snapshot) position (step cmp snapshot position) := by
  obtain ⟨last, children⟩ := position
  obtain ⟨inv, behind⟩ := inv
  have step_eq : step cmp snapshot (last, children) = (findSmallest cmp snapshot children).map
      fun (entry, rest) => (entry, some entry.1, rest) := by
    cases last with
    | none => rfl
    | some last => rw [step, next_eq_findSmallest inv (behind last rfl)]
  have found := yields_findSmallest inv
  rw [step_eq]
  rcases result : findSmallest cmp snapshot children with _ | ⟨⟨key, value⟩, rest⟩ <;>
    rw [result] at found
  · exact found
  · obtain ⟨inv', smaller, alive, left⟩ := found
    refine ⟨⟨inv', fun here same => ?_⟩, smaller, alive, left⟩
    obtain rfl := Option.some.inj same
    exact left.gone

/-- A scan of sorted children gives every live key once, in order. -/
theorem lists_scan {children : Children} (sorted : Sorted cmp children)
    (agreeing : Agreeing children) :
    Lists cmp.Before (fun key => live snapshot (versionsAt children key))
      (scan cmp snapshot children) :=
  lists_drain (positions cmp snapshot) yields_step (size children + 1) (s := (none, children))
    ⟨⟨sorted, agreeing⟩, nofun⟩ (Nat.lt_add_one _)

end MergeIterator
end Lrdb
