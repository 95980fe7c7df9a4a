import Mathlib.Logic.Function.Basic
import Lrdb.Base.LinkedLists
import Lrdb.Base.ListCursors
import Lrdb.Base.Runs
import Lrdb.Util.SkipList

/-!
# Skip lists in memory

Every node stores a pointer for each level it is part of, the head one for every level there can be. A read
through a pointer that leads nowhere, or above the height of a node, fails; so does a loop that has not
ended after as many rounds as the list allows for.
-/

namespace Lrdb

/-- `Node`: `next_` has as many pointers as the node is high. -/
structure LinkedSkipList.Node (κ ν : Type) where
  key : κ
  value : ν
  next : List (Option Nat)

/-- `allocated` is the address the next node gets. -/
structure LinkedSkipList (κ ν : Type) where
  memory : Nat → Option (LinkedSkipList.Node κ ν)
  allocated : Nat
  maxHeight : Nat
  count : Nat

namespace LinkedSkipList
open LinkedLists
variable {κ ν : Type}

def kMaxHeight : Nat := 12

def kBranching : Nat := 4

/-- `head_`, the first node that is allocated. -/
def head : Nat := 0

/-! ## Nodes -/

section Nodes
variable (list : LinkedSkipList κ ν)

def allocateNode (key : κ) (value : ν) (height : Nat) : Nat × LinkedSkipList κ ν :=
  (list.allocated,
    { list with
      memory := Function.update list.memory list.allocated (some ⟨key, value, .replicate height none⟩)
      allocated := list.allocated + 1 })

def deallocateNode (x : Nat) : LinkedSkipList κ ν :=
  { list with memory := Function.update list.memory x none }

def next (level x : Nat) : Option (Option Nat) := (list.memory x).bind fun node => node.next[level]?

def setNext (level x : Nat) (target : Option Nat) : Option (LinkedSkipList κ ν) :=
  (list.memory x).bind fun node =>
    if level < node.next.length then
      some { list with
        memory := Function.update list.memory x (some { node with next := node.next.set level target }) }
    else none

def setValue (x : Nat) (value : ν) : Option (LinkedSkipList κ ν) :=
  (list.memory x).map fun node =>
    { list with memory := Function.update list.memory x (some { node with value }) }

def checked (condition : κ → Bool) : Option Nat → Option (Option Nat)
  | none => some none
  | some n => (list.memory n).map fun node => if condition node.key then some n else none

end Nodes

def empty [Inhabited κ] [Inhabited ν] : LinkedSkipList κ ν :=
  (allocateNode ⟨fun _ => none, head, 1, 0⟩ default default kMaxHeight).2

/-! ## Searches -/

def below (cmp : κ → κ → Ordering) (target key : κ) : Bool := cmp key target == .lt

def equals (cmp : κ → κ → Ordering) (target key : κ) : Bool := cmp key target == .eq

section Searches
variable (cmp : κ → κ → Ordering) (list : LinkedSkipList κ ν)

/-- The loop of the three searches: on while the next key is ahead, down where it is not. At the lowest level
it gives the node it stands at, the next one, and the node it left every level at. -/
def search (ahead : κ → Bool) : Nat → Nat → Nat → (Nat → Option Nat) →
    Option (Nat × Option Nat × (Nat → Option Nat))
  | 0, _, _, _ => none
  | fuel + 1, level, x, prev => do
      let next ← list.next level x
      match ← list.checked ahead next with
      | some n => search ahead fuel level n prev
      | none =>
          let prev := Function.update prev level (some x)
          match level with
          | 0 => some (x, next, prev)
          | level + 1 => search ahead fuel level x prev

def rounds : Nat := list.maxHeight * (list.count + 1)

def findGreaterOrEqual (key : κ) (prev : Nat → Option Nat) : Option (Option Nat × (Nat → Option Nat)) := do
  let (_, next, prev) ← list.search (below cmp key) list.rounds (list.maxHeight - 1)
    head prev
  some (next, prev)

-- No array of predecessors: `nullptr`, or one that was not written.
def unset : Nat → Option Nat := fun _ => none

def findLessThan (key : κ) : Option Nat := do
  let (x, _, _) ← list.search (below cmp key) list.rounds (list.maxHeight - 1) head unset
  some x

def findLast : Option Nat := do
  let (x, _, _) ← list.search (fun _ => true) list.rounds (list.maxHeight - 1) head unset
  some x

end Searches

/-! ## Changes -/

section Changes
variable (cmp : κ → κ → Ordering) (list : LinkedSkipList κ ν)

def raised (draws : Nat → Nat) : Nat → Nat → Nat
  | 0, height => height
  | left + 1, height =>
      if draws (height - 1) % kBranching = 0 then raised draws left (height + 1) else height

/-- The draws are what the generator gives from here on. -/
def getRandomHeight (draws : Nat → Nat) : Nat := raised draws (kMaxHeight - 1) 1

def link (prev : Nat → Option Nat) (x i : Nat) : Option (LinkedSkipList κ ν) := do
  let before ← prev i
  let after ← list.next i before
  let list ← list.setNext i x after
  list.setNext i before (some x)

/-- The lines that `Insert` and `Merge` share. The array of predecessors starts unset. -/
def put (key : κ) (value : ν) (draws : Nat → Nat) : Option (LinkedSkipList κ ν) := do
  let (found, prev) ← list.findGreaterOrEqual cmp key unset
  match ← list.checked (equals cmp key) found with
  | some x => list.setValue x value
  | none =>
      let height := getRandomHeight draws
      -- Above the height of the list the head is the predecessor.
      let prev := fun i => if list.maxHeight ≤ i ∧ i < height then some head else prev i
      let list := { list with maxHeight := max list.maxHeight height }
      let (x, list) := list.allocateNode key value height
      let list ← (List.range height).foldlM (fun list i => list.link prev x i) list
      some { list with count := list.count + 1 }

def insert (key : κ) (value : ν) (draws : Nat → Nat) : Option (LinkedSkipList κ ν) :=
  list.put cmp key value draws

/-- A value that is there already is overwritten, whatever its type. -/
def merge (key : κ) (value : ν) (draws : Nat → Nat) : Option (LinkedSkipList κ ν) :=
  list.put cmp key value draws

def unlink (prev : Nat → Option Nat) (x i : Nat) : Option (LinkedSkipList κ ν) := do
  let before ← prev i
  let after ← list.next i before
  if after = some x then
    let behind ← list.next i x
    list.setNext i before behind
  else some list

def lowered : Nat → Option Nat
  | 0 => some 0
  | 1 => some 1
  | height + 2 => do
      let first ← list.next (height + 1) head
      if first = none then lowered (height + 1) else some (height + 2)

def delete (key : κ) : Option (Bool × LinkedSkipList κ ν) := do
  let (found, prev) ← list.findGreaterOrEqual cmp key fun i => if i < kMaxHeight then some head else none
  match ← list.checked (equals cmp key) found with
  | none => some (false, list)
  | some x =>
      let list ← (List.range kMaxHeight).foldlM (fun list i => list.unlink prev x i) list
      -- The pointers of the node have been read by now.
      let list := list.deallocateNode x
      let list := { list with count := list.count - 1 }
      let maxHeight ← list.lowered list.maxHeight
      some (true, { list with maxHeight })

/-- The loop of `Clear` that frees the nodes of the lowest level. -/
def freed : Nat → Option Nat → LinkedSkipList κ ν → Option (LinkedSkipList κ ν)
  | _, none, list => some list
  | 0, some _, _ => none
  | fuel + 1, some x, list => do
      let next ← list.next 0 x
      freed fuel next (list.deallocateNode x)

def clear : Option (LinkedSkipList κ ν) := do
  let first ← list.next 0 head
  let list ← freed list.count first list
  let list ← (List.range kMaxHeight).foldlM (fun list i => list.setNext i head none) list
  some { list with maxHeight := 1, count := 0 }

end Changes

/-! ## Reads -/

section Reads
variable (cmp : κ → κ → Ordering) (list : LinkedSkipList κ ν)

def contains (key : κ) : Option Bool := do
  let (found, _) ← list.findGreaterOrEqual cmp key unset
  let equal ← list.checked (equals cmp key) found
  some equal.isSome

def get (key : κ) : Option (Option ν) := do
  let (found, _) ← list.findGreaterOrEqual cmp key unset
  match ← list.checked (equals cmp key) found with
  | none => some none
  | some x => (list.memory x).map fun node => some node.value

/-- The loop of `RangeQuery`: what the callback is given. -/
def visited (last : κ) : Nat → Option Nat → Option (List (κ × ν))
  | _, none => some []
  | 0, some _ => none
  | fuel + 1, some x => do
      let node ← list.memory x
      if cmp node.key last != .gt then
        let next ← list.next 0 x
        let rest ← visited last fuel next
        some ((node.key, node.value) :: rest)
      else some []

def rangeQuery (first last : κ) : Option (List (κ × ν)) := do
  let (current, _) ← list.findGreaterOrEqual cmp first unset
  list.visited cmp last list.count current

end Reads

/-! ## Iterators -/

structure Iterator where
  node : Option Nat
  deriving DecidableEq, Repr

namespace Iterator
variable (cmp : κ → κ → Ordering) (list : LinkedSkipList κ ν) (it : Iterator)

def valid : Option Nat := it.node.filter fun x => x != head

def seek (target : κ) : Option Iterator := do
  let (found, _) ← list.findGreaterOrEqual cmp target unset
  some ⟨found⟩

def seekToFirst : Option Iterator := do
  let first ← list.next 0 head
  some ⟨first⟩

def seekToLast : Option Iterator := do
  let x ← list.findLast
  some ⟨if x = head then none else some x⟩

def next : Option Iterator := do
  let x ← it.valid
  let behind ← list.next 0 x
  some ⟨behind⟩

def prev : Option Iterator := do
  let x ← it.valid
  let node ← list.memory x
  let y ← list.findLessThan cmp node.key
  some ⟨if y = head then none else some y⟩

end Iterator
end LinkedSkipList
end Lrdb
