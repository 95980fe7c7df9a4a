import Mathlib.Data.List.InsertIdx
import Mathlib.Algebra.Order.BigOperators.Group.List
import Lrdb.Storage.PinnedMerge

namespace Lrdb
open Versions Scans LSMTree MergeIterator Stateful

/-! ## What a scan does to the children -/

namespace Merge
variable {C R : Type} {cmp : Comparator} {snapshot : Nat} {records : RecordKind R} {kind : ChildKind C R}

def Advanced (kind : ChildKind C R) : C → C → Prop :=
  Relation.ReflTransGen fun a b => (kind.entry a).isSome ∧ b = kind.next.go a

def Shrinks (kind : ChildKind C R) : Prop :=
  ∀ child, (kind.entry child).isSome → kind.size (kind.next.go child) < kind.size child

def total (kind : ChildKind C R) (children : List C) : Nat := (children.map kind.size).sum

theorem Advanced.size_le (shrinks : Shrinks kind) {a b : C} (advanced : Advanced kind a b) :
    kind.size b ≤ kind.size a := by
  induction advanced with
  | refl => exact le_rfl
  | tail _ last ih =>
      obtain ⟨valid, rfl⟩ := last
      exact (shrinks _ valid).le.trans ih

theorem advanced_consumeLoop (key : Key) (fuel : Nat) (child : C) :
    Advanced kind child (consumeLoop cmp records kind.owned key fuel child).2 := by
  induction fuel generalizing child with
  | zero => exact .refl
  | succ fuel ih =>
      rw [consumeLoop_succ]
      cases found : (kind.entry child).bind records.entryOf with
      | none => exact .refl
      | some entry =>
          dsimp only
          split
          · have valid : (kind.entry child).isSome := by
              cases stands : kind.entry child with
              | none => rw [stands] at found; cases found
              | some _ => rfl
            exact .head ⟨valid, rfl⟩ (ih _)
          · exact .refl

theorem size_consume (shrinks : Shrinks kind) {child : C} {record : R} {entry : Entry}
    (stands : kind.entry child = some record) (parsed : records.entryOf record = some entry) :
    kind.size (consume cmp records kind.owned entry.1.userKey child).2 < kind.size child := by
  have valid : (kind.entry child).isSome := by rw [stands]; rfl
  have smaller := shrinks child valid
  change kind.size (consumeLoop cmp records kind.owned _ (kind.size child) child).2 < _
  obtain ⟨fuel, same⟩ := Nat.exists_eq_succ_of_ne_zero (Nat.ne_of_gt (Nat.zero_lt_of_lt smaller))
  have here : isKey cmp entry.1.userKey entry := by simp [isKey, Std.ReflCmp.compare_self]
  rw [same, consumeLoop_succ, stands, Option.bind_some, parsed]
  dsimp only
  rw [if_pos here, ← same]
  exact (Advanced.size_le shrinks (advanced_consumeLoop _ _ _)).trans_lt smaller

theorem insertIdx_eraseIdx {α : Type} {l : List α} {i : Nat} {a : α} (found : l[i]? = some a) :
    (l.eraseIdx i).insertIdx i a = l := by
  obtain ⟨bound, rfl⟩ := List.getElem?_eq_some_iff.mp found
  exact List.insertIdx_eraseIdx_getElem bound

theorem stands_of_pickChild {preferNewest : Bool} {children : List C} {i : Nat} {record : R}
    (picked : pickChild records kind.owned preferNewest children = some (i, record)) :
    ∃ child, children[i]? = some child ∧ kind.entry child = some record := by
  obtain ⟨rest, here⟩ := Merging.getElem_of_findMin (fun a b => records.preferred preferNewest a b)
    picked
  rw [List.getElem?_map] at here
  obtain ⟨child, found, front⟩ := Option.map_eq_some_iff.mp here
  refine ⟨child, found, ?_⟩
  change (kind.entry child).toList = record :: rest at front
  cases stands : kind.entry child with
  | none => rw [stands] at front; cases front
  | some other => rw [stands] at front; cases front; rfl

theorem smallest_advances (shrinks : Shrinks kind) {children rest : List C} {key : Key}
    {value : Option Value}
    (round : smallest cmp snapshot records kind.owned children = some (key, value, rest)) :
    ∃ i child, ∃ moved : C, ∃ g : C → C, children[i]? = some child ∧
      rest = ((children.eraseIdx i).map g).insertIdx i moved ∧ Advanced kind child moved ∧
        kind.size moved < kind.size child ∧ ∀ c, Advanced kind c (g c) := by
  rw [smallest_owned] at round
  rcases shape : pickChild records kind.owned true children with _ | ⟨i, record⟩
  · rw [shape] at round
    cases round
  obtain ⟨child, found, stands⟩ := stands_of_pickChild shape
  have valid : (kind.entry child).isSome := by rw [stands]; rfl
  rw [shape] at round
  dsimp only at round
  rw [found] at round
  cases parsed : records.entryOf record with
  | none =>
      rw [parsed] at round
      cases round
      refine ⟨i, child, kind.next.go child, id, found, ?_, .single ⟨valid, rfl⟩, shrinks child valid,
        fun _ => .refl⟩
      obtain ⟨bound, -⟩ := List.getElem?_eq_some_iff.mp found
      rw [List.map_id, List.insertIdx_eraseIdx_self bound.ne]
  | some entry =>
      rw [parsed] at round
      dsimp only at round
      cases round
      have ahead (c : C) : Advanced kind c (consume cmp records kind.owned entry.1.userKey c).2 :=
        advanced_consumeLoop _ _ c
      refine ⟨i, child, (consume cmp records kind.owned entry.1.userKey child).2,
        fun c => (consume cmp records kind.owned entry.1.userKey c).2, found, ?_, ahead child,
        size_consume shrinks stands parsed, ahead⟩
      rw [List.map_map]
      rfl

/-- When no round is left no child stands at a record. -/
theorem ended_of_smallest {children : List C}
    (ended : smallest cmp snapshot records kind.owned children = none) :
    ∀ child ∈ children, kind.entry child = none := by
  rw [smallest_owned] at ended
  rcases shape : pickChild records kind.owned true children with _ | ⟨i, record⟩
  · intro child member
    have empty := Merging.nil_of_findMin (fun a b => records.preferred true a b) shape _
      (List.mem_map_of_mem member)
    cases stands : kind.entry child with
    | none => rfl
    | some record =>
        rw [show kind.owned.entry child = some record from stands] at empty
        cases empty
  · obtain ⟨child, found, -⟩ := stands_of_pickChild shape
    rw [shape] at ended
    dsimp only at ended
    rw [found] at ended
    cases parsed : records.entryOf record <;> rw [parsed] at ended <;> cases ended

def Constant {β : Type} (kind : ChildKind C R) (f : C → β) : Prop :=
  ∀ child, (kind.entry child).isSome → f (kind.next.go child) = f child

theorem Advanced.constant {β : Type} {f : C → β} (constant : Constant kind f) {a b : C}
    (advanced : Advanced kind a b) : f b = f a := by
  induction advanced with
  | refl => rfl
  | tail _ last ih =>
      obtain ⟨valid, rfl⟩ := last
      exact (constant _ valid).trans ih

theorem smallest_constant (shrinks : Shrinks kind) {β : Type} {f : C → β} (constant : Constant kind f)
    {children rest : List C} {key : Key} {value : Option Value}
    (round : smallest cmp snapshot records kind.owned children = some (key, value, rest)) :
    rest.map f = children.map f := by
  obtain ⟨i, child, moved, g, found, rfl, ahead, -, others⟩ := smallest_advances shrinks round
  have back := congrArg (List.map f) (insertIdx_eraseIdx found)
  rw [List.map_insertIdx] at back
  rw [List.map_insertIdx, ahead.constant constant, List.map_map, ← back]
  exact congrArg (List.insertIdx · i (f child))
    (List.map_congr_left fun c _ => (others c).constant constant)

theorem smallest_total (shrinks : Shrinks kind) {children rest : List C} {key : Key}
    {value : Option Value}
    (round : smallest cmp snapshot records kind.owned children = some (key, value, rest)) :
    total kind rest < total kind children := by
  obtain ⟨i, child, moved, g, found, rfl, -, smaller, others⟩ := smallest_advances shrinks round
  obtain ⟨bound, -⟩ := List.getElem?_eq_some_iff.mp found
  have room : i ≤ (children.eraseIdx i).length := by
    rw [List.length_eraseIdx_of_lt bound]
    omega
  have whole (l : List C) (c : C) (fits : i ≤ l.length) :
      total kind (l.insertIdx i c) = kind.size c + total kind l := by
    have perm := (List.perm_insertIdx c l fits).map kind.size
    rw [total, perm.sum_eq]
    rfl
  have rest : total kind ((children.eraseIdx i).map g) ≤ total kind (children.eraseIdx i) := by
    rw [total, List.map_map]
    exact List.sum_le_sum fun c _ => (others c).size_le shrinks
  calc total kind (((children.eraseIdx i).map g).insertIdx i moved)
      = kind.size moved + total kind ((children.eraseIdx i).map g) :=
        whole _ _ (by rwa [List.length_map])
    _ < kind.size child + total kind (children.eraseIdx i) := by omega
    _ = total kind children := by rw [← whole _ _ room, insertIdx_eraseIdx found]

variable (snapshot) in
theorem shows_constant (shrinks : Shrinks kind) {β : Type} {f : C → β} (constant : Constant kind f)
    (base : List β) : Shows cmp snapshot records kind (fun children => children.map f = base) id
      (smallest cmp snapshot records kind.owned) where
  same _ _ := congrFun Option.map_id _
  keeps _ _ _ _ same round := (smallest_constant shrinks constant round).trans same

theorem scanned_returns {T : Type} {turn : T → Option (Key × Option Value × T)} {measure : T → Nat}
    (smaller : ∀ s key value t, turn s = some (key, value, t) → measure t < measure s) {fuel : Nat} {t : T}
    (enough : measure t < fuel) : ∃ out, scanned cmp turn fuel t = some out := by
  have each : ∀ s key value t, True → turn s = some (key, value, t) → True ∧ measure t < measure s :=
    fun s key value t _ round => ⟨trivial, smaller s key value t round⟩
  have finds : ∀ s key value t, True → Cursors.rounds turn fuel s = some (some ((key, value), t)) →
      True ∧ measure t < measure s :=
    fun _ _ _ _ inv => Cursors.rounds_smaller each fuel inv
  obtain ⟨result, found⟩ := Cursors.rounds_return each fuel trivial enough
  rw [scanned, found]
  rcases result with _ | ⟨entry, rest⟩
  · exact ⟨[], rfl⟩
  · have less := (finds t entry.1 entry.2 rest trivial found).2
    exact Cursors.follow_return (fun _ _ _ _ _ => Cursors.calls_smaller finds fuel)
      (fun _ _ _ inside => Cursors.calls_return finds (fun _ _ => Cursors.rounds_return each fuel
        trivial) fuel trivial inside inside) fuel entry trivial (by omega) (by omega)

end Merge

/-! ## Scans over entries -/

namespace MergeIterator
variable {cmp : Comparator} {snapshot : Nat}

theorem size_turn {children rest : Children} {key : Key} {value : Option Value}
    (round : turn cmp snapshot children = some (key, value, rest)) : size rest < size children := by
  have picked := picked_pickChild cmp children
  rw [turn] at round
  rcases shape : pickChild cmp children with _ | ⟨i, entry⟩ <;> rw [shape] at round picked
  · cases round
  obtain ⟨⟨tail, here⟩, -⟩ := picked
  obtain ⟨-, -, rfl⟩ : _ ∧ _ ∧ (children.map fun child =>
      child.dropWhile (isKey cmp entry.1.userKey)) = rest := by simpa using round
  have own : isKey cmp entry.1.userKey entry := by simp [isKey, Std.ReflCmp.compare_self]
  have shorter (child : List Entry) :
      (child.dropWhile (isKey cmp entry.1.userKey)).length ≤ child.length :=
    (List.dropWhile_sublist _).length_le
  rw [size, size, List.length_flatten, List.length_flatten, List.map_map]
  refine List.sum_lt_sum _ _ (fun child _ => shorter child) ⟨_, List.mem_of_getElem? here, ?_⟩
  rw [Function.comp, List.dropWhile_cons_of_pos own, List.length_cons]
  exact Nat.lt_succ_of_le (shorter tail)

variable (snapshot) in
theorem turn_smaller (children : Children) (key : Key) (value : Option Value) (rest : Children)
    (_ : True) (round : turn cmp snapshot children = some (key, value, rest)) :
    True ∧ size rest < size children :=
  ⟨trivial, size_turn round⟩

theorem rounds_eq_findSmallest {bound : Nat} {children : Children} (inside : size children < bound) :
    Cursors.rounds (turn cmp snapshot) bound children = some (findSmallest cmp snapshot children) :=
  Cursors.rounds_eq_seek (turn_smaller snapshot) bound _ trivial inside (Nat.lt_succ_self _)

theorem size_findSmallest {children rest : Children} {entry : Key × Value}
    (found : findSmallest cmp snapshot children = some (entry, rest)) : size rest < size children := by
  have same : Cursors.rounds (turn cmp snapshot) (size children + 1) children = _ :=
    rounds_eq_findSmallest (Nat.lt_succ_self _)
  rw [found] at same
  exact (Cursors.rounds_smaller (turn_smaller snapshot) _ trivial same).2

variable (cmp snapshot) in
theorem calls_eq_next {bound : Nat} (last : Key) (fuel other : Nat) {children : Children}
    (inside : size children < bound) (enough : size children < fuel) (also : size children < other) :
    Cursors.calls (fun key => cmp.compare key last = .gt) (Cursors.rounds (turn cmp snapshot) bound) fuel
      children = some (next cmp snapshot last other children) := by
  induction fuel generalizing other children with
  | zero => exact absurd enough (Nat.not_lt_zero _)
  | succ fuel ih =>
      obtain ⟨other, rfl⟩ := Nat.exists_eq_succ_of_ne_zero (Nat.ne_of_gt (Nat.zero_lt_of_lt also))
      rw [Cursors.calls, rounds_eq_findSmallest inside, MergeIterator.next]
      cases found : findSmallest cmp snapshot children with
      | none => rfl
      | some result =>
          obtain ⟨⟨key, value⟩, rest⟩ := result
          have less := size_findSmallest found
          by_cases after : cmp.compare key last = .gt
          · simp [after]
          · simp only [after, decide_false, Bool.false_eq_true, if_false]
            exact ih other (by omega) (by omega) (by omega)

theorem size_next {last : Key} {fuel : Nat} {children rest : Children} {entry : Key × Value}
    (enough : size children < fuel) (found : next cmp snapshot last fuel children = some (entry, rest)) :
    size rest < size children := by
  have same := calls_eq_next cmp snapshot last fuel fuel enough enough enough
  rw [found] at same
  have finds : ∀ s key value t, True → Cursors.rounds (turn cmp snapshot) fuel s = some (some ((key, value), t)) →
      True ∧ size t < size s :=
    fun _ _ _ _ inv => Cursors.rounds_smaller (turn_smaller snapshot) fuel inv
  exact (Cursors.calls_smaller finds fuel trivial same).2

theorem follow_eq_drain {bound : Nat} (fuel other : Nat) (entry : Key × Value) {children : Children}
    (inside : size children < bound) (enough : size children < fuel) (also : size children < other) :
    Cursors.follow (fun last => Cursors.calls (fun key => cmp.compare key last = .gt)
        (Cursors.rounds (turn cmp snapshot) bound) bound) fuel entry children =
      some (entry :: drain (step cmp snapshot) other (some entry.1, children)) := by
  induction fuel generalizing other entry children with
  | zero => exact absurd enough (Nat.not_lt_zero _)
  | succ fuel ih =>
      obtain ⟨other, rfl⟩ := Nat.exists_eq_succ_of_ne_zero (Nat.ne_of_gt (Nat.zero_lt_of_lt also))
      have call := calls_eq_next cmp snapshot entry.1 bound (size children + 1)
        inside inside (Nat.lt_succ_self _)
      rw [Cursors.follow, call, drain, step]
      cases found : next cmp snapshot entry.1 (size children + 1) children with
      | none => rfl
      | some result =>
          obtain ⟨later, rest⟩ := result
          have less := size_next (Nat.lt_succ_self _) found
          dsimp only [Option.map_some]
          rw [ih other later (by omega) (by omega) (by omega)]
          rfl

variable (cmp snapshot) in
theorem scanned_turn {fuel : Nat} {children : Children} (enough : size children < fuel) :
    Merge.scanned cmp (turn cmp snapshot) fuel children = some (scan cmp snapshot children) := by
  rw [Merge.scanned, rounds_eq_findSmallest enough, scan, drain, step]
  cases found : findSmallest cmp snapshot children with
  | none => rfl
  | some result =>
      obtain ⟨entry, rest⟩ := result
      have less := size_findSmallest found
      dsimp only [Option.map_some]
      exact follow_eq_drain fuel (size children) entry (by omega) (by omega) less

end MergeIterator

/-! ## Children that give entries -/

namespace Merge
variable {C R : Type} {cmp : Comparator} {snapshot : Nat} {records : RecordKind R} {kind : ChildKind C R}
  {rest : C → List R} {emb : Entry → R}

structure Listing (cmp : Comparator) (records : RecordKind R) (kind : ChildKind C R) (rest : C → List R)
    (emb : Entry → R) : Prop where
  entry : ∀ child, kind.entry child = (rest child).head?
  next : ∀ child, rest (kind.next.go child) = (rest child).tail
  size : ∀ child, kind.size child = (rest child).length
  parsed : ∀ e, records.entryOf (emb e) = some e
  preferred : ∀ a b, records.preferred true (emb a) (emb b) = true ↔ Earlier cmp a b

def entriesLeft (records : RecordKind R) (rest : C → List R) (child : C) : List Entry :=
  (rest child).filterMap records.entryOf

def Entire (records : RecordKind R) (rest : C → List R) (emb : Entry → R) (child : C) : Prop :=
  rest child = (entriesLeft records rest child).map emb

variable (listing : Listing cmp records kind rest emb)
include listing

theorem Listing.entire_iff {child : C} {entries : List Entry} (given : rest child = entries.map emb) :
    Entire records rest emb child ∧ entriesLeft records rest child = entries := by
  have same : entriesLeft records rest child = entries := by
    rw [entriesLeft, given, List.filterMap_map]
    exact (List.filterMap_congr fun e _ => listing.parsed e).trans (List.filterMap_some ..)
  exact ⟨by rw [Entire, same, given], same⟩

theorem Listing.shrinks : Shrinks kind := by
  intro child valid
  rw [listing.entry] at valid
  rw [listing.size, listing.size, listing.next]
  cases shape : rest child with
  | nil => rw [shape] at valid; cases valid
  | cons record tail => exact Nat.lt_succ_self _

theorem Listing.entire_next {child : C} (entire : Entire records rest emb child) :
    Entire records rest emb (kind.next.go child) := by
  have given : rest (kind.next.go child) = (entriesLeft records rest child).tail.map emb := by
    rw [listing.next, entire, List.map_tail]
  exact (listing.entire_iff given).1

theorem Listing.entire_advanced {a b : C} (advanced : Advanced kind a b)
    (entire : Entire records rest emb a) : Entire records rest emb b := by
  induction advanced with
  | refl => exact entire
  | tail _ last ih =>
      obtain ⟨-, rfl⟩ := last
      exact listing.entire_next ih

theorem Listing.consumeLoop_eq (key : Key) {fuel : Nat} {child : C} {entries : List Entry}
    (given : rest child = entries.map emb) (enough : entries.length ≤ fuel) :
    (consumeLoop cmp records kind.owned key fuel child).1 = front cmp key entries ∧
      rest (consumeLoop cmp records kind.owned key fuel child).2 =
        (entries.dropWhile (isKey cmp key)).map emb := by
  induction fuel generalizing child entries with
  | zero =>
      obtain rfl := List.eq_nil_of_length_eq_zero (Nat.le_zero.mp enough)
      exact ⟨rfl, given⟩
  | succ fuel ih =>
      rw [consumeLoop_succ, listing.entry, given]
      cases entries with
      | nil => exact ⟨rfl, given⟩
      | cons entry entries =>
          rw [List.map_cons, List.head?_cons, Option.bind_some, listing.parsed]
          dsimp only
          by_cases here : isKey cmp key entry
          · have later : rest (kind.next.go child) = entries.map emb := by
              rw [listing.next, given]
              rfl
            obtain ⟨versions, left⟩ := ih later (Nat.le_of_succ_le_succ enough)
            rw [if_pos here]
            refine ⟨?_, ?_⟩
            · rw [front, List.takeWhile_cons_of_pos here, List.map_cons]
              exact congrArg _ versions
            · rw [List.dropWhile_cons_of_pos here]
              exact left
          · rw [if_neg here]
            refine ⟨?_, ?_⟩
            · rw [front, List.takeWhile_cons_of_neg here]
              rfl
            · rw [List.dropWhile_cons_of_neg here]
              exact given

theorem Listing.consume_eq (key : Key) {child : C} (entire : Entire records rest emb child) :
    (consume cmp records kind.owned key child).1 = front cmp key (entriesLeft records rest child) ∧
      entriesLeft records rest (consume cmp records kind.owned key child).2 =
        (entriesLeft records rest child).dropWhile (isKey cmp key) := by
  have enough : (entriesLeft records rest child).length ≤ kind.size child := by
    rw [listing.size, entire, List.length_map]
  obtain ⟨versions, left⟩ := listing.consumeLoop_eq key entire enough
  exact ⟨versions, (listing.entire_iff left).2⟩

theorem Listing.pickChild_eq {children : List C} (entire : ∀ child ∈ children, Entire records rest emb child) :
    pickChild records kind.owned true children =
      (MergeIterator.pickChild cmp (children.map (entriesLeft records rest))).map (Prod.map id emb) := by
  have fronts : (children.map fun child => (kind.entry child).toList) =
      ((children.map (entriesLeft records rest)).map (List.map emb)).map fun list => list.head?.toList := by
    rw [List.map_map, List.map_map]
    refine List.map_congr_left fun child member => ?_
    rw [listing.entry, entire child member]
    rfl
  have chosen := Merging.findMin_map (Earlier cmp) (fun a b => records.preferred true a b = true) emb
    listing.preferred
    (children.map (entriesLeft records rest))
  rw [pickChild_eq_findMin, ← chosen, ← Merging.findMin_heads, ← fronts]
  rfl

theorem Listing.same_consumed {children : List C}
    (entire : ∀ child ∈ children, Entire records rest emb child) {i : Nat} {child : C}
    (found : children[i]? = some child) (key : Key) :
    let consumed := consume cmp records kind.owned key child
    let others := (children.eraseIdx i).map (consume cmp records kind.owned key)
    let lists := children.map (entriesLeft records rest)
    consumed.1 ++ others.flatMap Prod.fst =
        front cmp key (lists.getD i []) ++ (lists.eraseIdx i).flatMap (front cmp key) ∧
      ((others.map Prod.snd).insertIdx i consumed.2).map (entriesLeft records rest) =
        lists.map fun list => list.dropWhile (isKey cmp key) := by
  intro consumed others lists
  have inside := List.mem_of_getElem? found
  have first := listing.consume_eq key (entire child inside)
  have each : ∀ c ∈ children.eraseIdx i, _ := fun c member =>
    listing.consume_eq key (entire c (List.mem_of_mem_eraseIdx member))
  have place : lists.getD i [] = entriesLeft records rest child := by
    rw [List.getD_eq_getElem?_getD, List.getElem?_map, found]
    rfl
  have erased : lists.eraseIdx i = (children.eraseIdx i).map (entriesLeft records rest) :=
    List.eraseIdx_map ..
  constructor
  · rw [place, ← first.1, erased, List.flatMap_map, List.flatMap_map]
    exact congrArg _ (List.flatMap_congr fun c member => (each c member).1)
  · have back := congrArg (List.map fun c => (entriesLeft records rest c).dropWhile (isKey cmp key))
      (insertIdx_eraseIdx found)
    rw [List.map_insertIdx] at back
    rw [List.map_insertIdx, first.2, List.map_map, List.map_map, List.map_map]
    refine Eq.trans (congrArg (List.insertIdx · i _) (List.map_congr_left fun c member => ?_)) back
    exact (each c member).2

variable (snapshot) in
theorem Listing.shows_turn : Shows cmp snapshot records kind
    (fun children => ∀ child ∈ children, Entire records rest emb child)
    (List.map (entriesLeft records rest)) (turn cmp snapshot) where
  same children entire := by
    rw [smallest_owned, listing.pickChild_eq entire, turn]
    cases shape : MergeIterator.pickChild cmp (children.map (entriesLeft records rest)) with
    | none => rfl
    | some best =>
        obtain ⟨i, entry⟩ := best
        have picked := picked_pickChild cmp (children.map (entriesLeft records rest))
        rw [shape] at picked
        obtain ⟨⟨tail, here⟩, -⟩ := picked
        rw [List.getElem?_map] at here
        obtain ⟨child, found, -⟩ := Option.map_eq_some_iff.mp here
        obtain ⟨versions, left⟩ := listing.same_consumed entire found entry.1.userKey
        have parsed : records.entryOf (emb entry) = some entry := listing.parsed entry
        simp only [Option.map_some, Prod.map_apply, id, found, parsed, versions, left]
  keeps children key value left entire round := by
    obtain ⟨i, child, moved, g, found, rfl, ahead, -, others⟩ := smallest_advances listing.shrinks round
    intro other member
    rcases List.eq_or_mem_of_mem_insertIdx member with rfl | old
    · exact listing.entire_advanced ahead (entire child (List.mem_of_getElem? found))
    · obtain ⟨before, inside, rfl⟩ := List.mem_map.mp old
      exact listing.entire_advanced (others before) (entire before (List.mem_of_mem_eraseIdx inside))

end Merge
end Lrdb
