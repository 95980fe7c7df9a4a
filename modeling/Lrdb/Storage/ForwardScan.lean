import Lrdb.Storage.MergeIterator

namespace Lrdb.MergeIterator
open Versions Scans SSTable

variable (cmp : Comparator) (snapshot : Nat)

/-- `FindSmallest` returns. -/
abbrev FindsSmallest : Children → Option ((Key × Value) × Children) → Prop :=
  Seeks (turn cmp snapshot)

/-- The loop of `Next` returns: on to a key after the last one. -/
inductive FindsNext (last : Key) : Children → Option ((Key × Value) × Children) → Prop where
  | exhausted {children : Children} (found : FindsSmallest cmp snapshot children none) :
      FindsNext last children none
  | later {children rest : Children} {key : Key} {value : Value}
      (found : FindsSmallest cmp snapshot children (some ((key, value), rest)))
      (greater : cmp.compare key last = .gt) :
      FindsNext last children (some ((key, value), rest))
  | again {children rest : Children} {key : Key} {value : Value}
      {result : Option ((Key × Value) × Children)}
      (found : FindsSmallest cmp snapshot children (some ((key, value), rest)))
      (notGreater : cmp.compare key last ≠ .gt) (loop : FindsNext last rest result) :
      FindsNext last children result

/-- A call returns: `SeekToFirst` of a fresh iterator, `Next` behind a key. -/
inductive Returns : Option Key × Children → Option ((Key × Value) × Option Key × Children) → Prop where
  | seekToFirst {children : Children} {found : Option ((Key × Value) × Children)}
      (returned : FindsSmallest cmp snapshot children found) :
      Returns (none, children) (found.map fun (entry, rest) => (entry, some entry.1, rest))
  | next {last : Key} {children : Children} {found : Option ((Key × Value) × Children)}
      (returned : FindsNext cmp snapshot last children found) :
      Returns (some last, children) (found.map fun (entry, rest) => (entry, some entry.1, rest))

/-- `SeekToFirst`, then `Next` until the iterator is not valid, gives the list and ends. -/
def ScansTo (children : Children) (out : List (Key × Value)) : Prop :=
  Drains (Returns cmp snapshot) (none, children) out

variable {cmp} {snapshot}

theorem finds_findSmallest {children : Children} (inv : (reading cmp snapshot).inv children) :
    FindsSmallest cmp snapshot children (findSmallest cmp snapshot children) :=
  seeks_seek turns_turn _ inv (Nat.lt_add_one _)

theorem finds_next {children : Children} (inv : (reading cmp snapshot).inv children) {last : Key}
    (behind : ∀ key, ¬ cmp.Before last key → (reading cmp snapshot).content children key = none) :
    FindsNext cmp snapshot last children
      (next cmp snapshot last (size children + 1) children) := by
  have returned := finds_findSmallest inv
  have yields := yields_findSmallest inv
  rw [next_eq_findSmallest inv behind]
  rcases result : findSmallest cmp snapshot children with _ | ⟨⟨key, value⟩, rest⟩ <;>
    rw [result] at returned yields
  · exact .exhausted returned
  · apply FindsNext.later returned
    apply Comparator.compare_gt.mpr
    by_contra notLater
    have alive := yields.2.2.1
    rw [behind key notLater] at alive
    cases alive

theorem returns_step (position : Option Key × Children) (inv : (positions cmp snapshot).inv position) :
    Returns cmp snapshot position (step cmp snapshot position) := by
  obtain ⟨_ | last, children⟩ := position
  · exact .seekToFirst (finds_findSmallest inv.1)
  · exact .next (finds_next inv.1 (inv.2 last rfl))

theorem scansTo_scan {children : Children} (sorted : Sorted cmp children)
    (agreeing : Agreeing children) : ScansTo cmp snapshot children (scan cmp snapshot children) :=
  drains_drain returns_step yields_step (size children + 1) (s := (none, children))
    ⟨⟨sorted, agreeing⟩, nofun⟩ (Nat.lt_add_one _)

def Distinct (children : Children) : Prop := ∀ key, Functional (versionsAt children key)

theorem Distinct.agreeing {children : Children} (distinct : Distinct children) :
    Agreeing children := by
  intro key x memberX y memberY same
  obtain ⟨v, insideV, rfl⟩ := List.mem_map.mp memberX
  obtain ⟨w, insideW, rfl⟩ := List.mem_map.mp memberY
  rw [distinct key v insideV w insideW same]

/-- A scan of any children ends, and gives each key whose newest visible version is no deletion once,
in ascending order, with that version's value. -/
theorem scan_ends (cmp : Comparator) (snapshot : Nat) (children : Children)
    (sorted : Sorted cmp children) (distinct : Distinct children) :
    ∃ out, ScansTo cmp snapshot children out ∧
      Lists cmp.Before (fun key => live snapshot (versionsAt children key)) out :=
  ⟨scan cmp snapshot children, scansTo_scan sorted distinct.agreeing,
    lists_scan sorted distinct.agreeing⟩

theorem distinct_of_entries {children : Children} (unique : ∀ x ∈ children.flatten,
    ∀ y ∈ children.flatten, x.1.userKey = y.1.userKey → x.1.sequence = y.1.sequence → x = y) :
    Distinct children := by
  intro key v memberV w memberW same
  obtain ⟨child, inside, held⟩ := List.mem_flatMap.mp memberV
  obtain ⟨x, inChild, keyX, rfl⟩ := mem_versionsOf.mp held
  obtain ⟨child', inside', held'⟩ := List.mem_flatMap.mp memberW
  obtain ⟨y, inChild', keyY, rfl⟩ := mem_versionsOf.mp held'
  rw [unique x (List.mem_flatten_of_mem inside inChild) y (List.mem_flatten_of_mem inside' inChild')
    (keyX.trans keyY.symm) same]

def twoChildren : Children :=
  [[(.make [97] 2 .kValue, [2]), (.make [97] 5 .kValue, [5]), (.make [98] 7 .kDeletion, [])],
    [(.make [97] 9 .kValue, [9]), (.make [98] 1 .kValue, [1]), (.make [99] 3 .kValue, [3])]]

theorem scan_ends_twoChildren : ∃ out, ScansTo bytewiseComparator 6 twoChildren out ∧
    Lists bytewiseComparator.Before (fun key => live 6 (versionsAt twoChildren key)) out :=
  scan_ends bytewiseComparator 6 twoChildren (by unfold Sorted UserSorted; decide +kernel)
    (distinct_of_entries (by decide +kernel))

end Lrdb.MergeIterator
