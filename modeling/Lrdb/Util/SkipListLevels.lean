import Lrdb.Util.LinkedSkipList

namespace Lrdb.LinkedSkipList
open LinkedLists
variable {κ ν : Type} [Inhabited κ] [Inhabited ν]

def entry (list : LinkedSkipList κ ν) (x : Nat) : κ × ν :=
  match list.memory x with
  | none => default
  | some node => (node.key, node.value)

structure Levels (cmp : κ → κ → Ordering) (list : LinkedSkipList κ ν) (levels : Nat → List Nat) : Prop where
  chained : ∀ i < kMaxHeight, Linked (list.next i) head (levels i)
  sorted : ∀ i, (levels i).Pairwise fun a b => cmp (list.entry a).1 (list.entry b).1 = .lt
  sublist : ∀ i, List.Sublist (levels (i + 1)) (levels i)
  empty : ∀ i, list.maxHeight ≤ i → levels i = []
  counted : list.count = (levels 0).length
  positive : 0 < list.maxHeight
  bounded : list.maxHeight ≤ kMaxHeight
  fresh : ∀ a, list.allocated ≤ a → list.memory a = none

/-! ## Reads and writes of memory -/

section Memory
variable {list : LinkedSkipList κ ν} {i x : Nat}

omit [Inhabited κ] [Inhabited ν] in
theorem memory_of_next {stored : Option Nat} (read : list.next i x = some stored) :
    ∃ node, list.memory x = some node ∧ node.next[i]? = some stored :=
  Option.bind_eq_some_iff.mp read

theorem entry_of_memory {node : Node κ ν} (here : list.memory x = some node) :
    list.entry x = (node.key, node.value) := by
  simp [entry, here]

theorem checked_readable {condition : κ → Bool} {target : Option Nat}
    (read : ∀ x ∈ target, ∃ stored, list.next i x = some stored) :
    list.checked condition target = some (target.filter fun x => condition (list.entry x).1) := by
  cases target with
  | none => rfl
  | some x =>
      obtain ⟨stored, pointer⟩ := read x rfl
      obtain ⟨node, here, -⟩ := memory_of_next pointer
      simp [checked, here, entry_of_memory here, Option.filter_some]

structure SameNodes (before after : LinkedSkipList κ ν) : Prop where
  entry : ∀ y, after.entry y = before.entry y
  live : ∀ y, after.memory y = none ↔ before.memory y = none
  allocated : after.allocated = before.allocated
  maxHeight : after.maxHeight = before.maxHeight
  count : after.count = before.count

theorem SameNodes.refl (list : LinkedSkipList κ ν) : SameNodes list list :=
  ⟨fun _ => rfl, fun _ => Iff.rfl, rfl, rfl, rfl⟩

theorem SameNodes.trans {a b c : LinkedSkipList κ ν} (ab : SameNodes a b) (bc : SameNodes b c) :
    SameNodes a c where
  entry y := (bc.entry y).trans (ab.entry y)
  live y := (bc.live y).trans (ab.live y)
  allocated := bc.allocated.trans ab.allocated
  maxHeight := bc.maxHeight.trans ab.maxHeight
  count := bc.count.trans ab.count

theorem setNext_spec {stored : Option Nat} (target : Option Nat) (read : list.next i x = some stored) :
    ∃ after, list.setNext i x target = some after ∧ SameNodes list after ∧
      ∀ j y, after.next j y = if y = x ∧ j = i then some target else list.next j y := by
  obtain ⟨node, here, pointer⟩ := memory_of_next read
  have inside : i < node.next.length := (List.getElem?_eq_some_iff.mp pointer).1
  have written : list.setNext i x target = some { list with
      memory := Function.update list.memory x (some { node with next := node.next.set i target }) } := by
    simp [setNext, here, inside]
  refine ⟨_, written, ?_, ?_⟩
  · refine ⟨fun y => ?_, fun y => ?_, rfl, rfl, rfl⟩
    · by_cases same : y = x
      · simp [entry, same, here]
      · simp [entry, Function.update_of_ne same]
    · by_cases same : y = x
      · simp [same, here]
      · simp [Function.update_of_ne same]
  · intro j y
    by_cases same : y = x
    · rw [same]
      by_cases level : j = i
      · simp [next, level, inside]
      · simp [next, here, level, List.getElem?_set_ne (Ne.symm level)]
    · simp [next, same]

end Memory

/-! ## Searches -/

section Searches
variable {cmp : κ → κ → Ordering} {list : LinkedSkipList κ ν} {levels : Nat → List Nat}
  {ahead : κ → Bool}

def isAhead (list : LinkedSkipList κ ν) (ahead : κ → Bool) (x : Nat) : Bool := ahead (list.entry x).1

def passed (list : LinkedSkipList κ ν) (ahead : κ → Bool) (levels : Nat → List Nat) (i : Nat) : List Nat :=
  (levels i).takeWhile (list.isAhead ahead)

def left (list : LinkedSkipList κ ν) (ahead : κ → Bool) (levels : Nat → List Nat) (i : Nat) : List Nat :=
  (levels i).dropWhile (list.isAhead ahead)

def predecessor (list : LinkedSkipList κ ν) (ahead : κ → Bool) (levels : Nat → List Nat) (i : Nat) : Nat :=
  (list.passed ahead levels i).getLastD head

theorem passed_append_left (list : LinkedSkipList κ ν) (ahead : κ → Bool) (levels : Nat → List Nat)
    (i : Nat) : list.passed ahead levels i ++ list.left ahead levels i = levels i :=
  List.takeWhile_append_dropWhile

def Downward (cmp : κ → κ → Ordering) (ahead : κ → Bool) : Prop :=
  ∀ a b, cmp a b = .lt → ahead b = true → ahead a = true

omit [Inhabited κ] in
theorem downward_all : Downward cmp fun _ => true := fun _ _ _ _ => rfl

theorem Levels.sublist_zero (inv : Levels cmp list levels) (i : Nat) :
    List.Sublist (levels i) (levels 0) := by
  induction i with
  | zero => exact List.Sublist.refl _
  | succ i ih => exact (inv.sublist i).trans ih

theorem Levels.length_le (inv : Levels cmp list levels) (i : Nat) : (levels i).length ≤ list.count := by
  rw [inv.counted]
  exact (inv.sublist_zero i).length_le

theorem Levels.readable (inv : Levels cmp list levels) {i x : Nat} (inside : i < kMaxHeight)
    (member : x ∈ head :: levels i) : ∃ stored, list.next i x = some stored :=
  (inv.chained i inside).readable member

theorem Levels.live (inv : Levels cmp list levels) {i x : Nat} (member : x ∈ head :: levels i) :
    list.memory x ≠ none := by
  have lowest : x ∈ head :: levels 0 := (inv.sublist_zero i).cons_cons head |>.subset member
  obtain ⟨stored, read⟩ := inv.readable (Nat.zero_lt_succ _) lowest
  obtain ⟨node, here, -⟩ := memory_of_next read
  simp [here]

theorem Levels.split_below (inv : Levels cmp list levels) (lower : Downward cmp ahead) {i : Nat}
    {a b : List Nat} (split : levels (i + 1) = a ++ b) (all : ∀ n ∈ a, list.isAhead ahead n) :
    ∃ a' b', levels i = a' ++ b' ∧ a'.getLastD head = a.getLastD head ∧
      ∀ n ∈ a', list.isAhead ahead n := by
  cases List.eq_nil_or_concat a with
  | inl none =>
      refine ⟨[], levels i, rfl, by rw [none], ?_⟩
      intro n member
      cases member
  | inr some =>
      obtain ⟨front, x, rfl⟩ := some
      have member : x ∈ levels i := by
        apply (inv.sublist i).subset
        rw [split]
        simp
      obtain ⟨before, after, shape⟩ := List.append_of_mem member
      refine ⟨before ++ [x], after, by simp [shape], by simp, ?_⟩
      intro n earlier
      cases List.mem_append.mp earlier with
      | inl earlier =>
          have sorted := inv.sorted i
          rw [shape] at sorted
          have less := (List.pairwise_append.mp sorted).2.2 n earlier x (List.mem_cons_self ..)
          exact lower _ _ less (all x (by simp))
      | inr last =>
          rw [List.mem_singleton.mp last]
          exact all x (by simp)

theorem Levels.search_spec (inv : Levels cmp list levels) (lower : Downward cmp ahead) (fuel : Nat)
    (prev : Nat → Option Nat) {level x : Nat} {a b : List Nat} (inside : level < kMaxHeight)
    (split : levels level = a ++ b) (here : x = a.getLastD head) (all : ∀ n ∈ a, list.isAhead ahead n)
    (enough : level * (list.count + 1) + b.length < fuel) :
    ∃ prev', list.search ahead fuel level x prev =
        some (list.predecessor ahead levels 0, (list.left ahead levels 0).head?, prev') ∧
      ∀ i, prev' i = if i ≤ level then some (list.predecessor ahead levels i) else prev i := by
  -- A round starts at the last node of `a`, the part of its level that is passed.
  induction fuel generalizing prev level x a b with
  | zero => exact absurd enough (Nat.not_lt_zero _)
  | succ fuel ih =>
      have chain := inv.chained level inside
      rw [split] at chain
      have read : list.next level x = some b.head? := by
        rw [here]
        exact chain.behind.first
      have looked : list.checked ahead b.head? = some (b.head?.filter (list.isAhead ahead)) := by
        apply checked_readable
        intro n first
        apply inv.readable inside
        rw [split]
        exact List.mem_cons_of_mem _ (List.mem_append_right a (List.mem_of_head? first))
      rw [search, read]
      simp only [Option.bind_eq_bind, Option.bind_some, looked]
      cases turn : b.head?.filter (list.isAhead ahead) with
      | some n =>
          obtain ⟨first, holds⟩ := Option.filter_eq_some_iff.mp turn
          obtain ⟨rest, rfl⟩ := List.head?_eq_some_iff.mp first
          apply ih prev inside (a := a ++ [n]) (b := rest)
          · rw [split, List.append_assoc, List.singleton_append]
          · simp
          · intro m member
            cases List.mem_append.mp member with
            | inl earlier => exact all m earlier
            | inr last =>
                rw [List.mem_singleton.mp last]
                exact holds
          · rw [List.length_cons] at enough
            omega
      | none =>
          obtain ⟨cut, rest⟩ := cut_at split all (Option.filter_eq_none_iff.mp turn)
          cases level with
          | zero =>
              refine ⟨_, by rw [predecessor, passed, cut, left, rest, here], ?_⟩
              intro i
              by_cases same : i = 0
              · rw [same, predecessor, passed, cut]
                simp
              · simp [same]
          | succ level =>
              -- The node is part of the level below, where the search goes on from it.
              obtain ⟨a', b', below, last, all'⟩ := inv.split_below lower split all
              have bound : b'.length ≤ list.count := by
                apply Nat.le_trans _ (inv.length_le level)
                simp [below]
              have budget : level * (list.count + 1) + b'.length < fuel := by
                rw [Nat.succ_mul] at enough
                omega
              obtain ⟨prev', found, filled⟩ := ih (Function.update prev (level + 1) (some x))
                (Nat.lt_of_succ_lt inside) below (here.trans last.symm) all' budget
              refine ⟨prev', found, ?_⟩
              intro i
              rw [filled]
              by_cases same : i = level + 1
              · rw [same, predecessor, passed, cut, here]
                simp
              · rw [Function.update_of_ne same]
                have levels_le : i ≤ level + 1 ↔ i ≤ level := by omega
                simp only [levels_le]

theorem Levels.search_from_top (inv : Levels cmp list levels) (lower : Downward cmp ahead)
    (prev : Nat → Option Nat) :
    ∃ prev', list.search ahead list.rounds (list.maxHeight - 1) head prev =
        some (list.predecessor ahead levels 0, (list.left ahead levels 0).head?, prev') ∧
      ∀ i, prev' i = if i < list.maxHeight then some (list.predecessor ahead levels i) else prev i := by
  have positive := inv.positive
  have bounded := inv.bounded
  have enough : (list.maxHeight - 1) * (list.count + 1) + (levels (list.maxHeight - 1)).length <
      list.rounds := by
    obtain ⟨top, high⟩ := Nat.exists_eq_add_of_lt positive
    have short := inv.length_le (list.maxHeight - 1)
    rw [rounds, high]
    simp only [Nat.zero_add, Nat.add_sub_cancel, Nat.succ_mul]
    rw [high] at short
    simp only [Nat.zero_add, Nat.add_sub_cancel] at short
    omega
  obtain ⟨prev', found, filled⟩ := inv.search_spec lower list.rounds prev
    (by omega) (List.nil_append _).symm rfl (by simp) enough
  refine ⟨prev', found, ?_⟩
  intro i
  rw [filled]
  have levels_le : i ≤ list.maxHeight - 1 ↔ i < list.maxHeight := by omega
  simp only [levels_le]

theorem Levels.predecessor_above (inv : Levels cmp list levels) {i : Nat} (above : list.maxHeight ≤ i) :
    list.predecessor ahead levels i = head := by
  simp [predecessor, passed, inv.empty i above]

theorem Levels.chained_cut (inv : Levels cmp list levels) (ahead : κ → Bool) {i : Nat} (inside : i < kMaxHeight) :
    Linked (list.next i) head (list.passed ahead levels i ++ list.left ahead levels i) := by
  rw [passed_append_left]
  exact inv.chained i inside

theorem Levels.predecessor_next (inv : Levels cmp list levels) {i : Nat} (inside : i < kMaxHeight) :
    list.next i (list.predecessor ahead levels i) = some (list.left ahead levels i).head? :=
  (inv.chained_cut ahead inside).behind.first

theorem predecessor_mem (i : Nat) : list.predecessor ahead levels i ∈ head :: levels i := by
  have member : list.predecessor ahead levels i ∈ head :: list.passed ahead levels i :=
    List.getLastD_mem_cons
  cases List.mem_cons.mp member with
  | inl here => simp [here]
  | inr earlier => exact List.mem_cons_of_mem _ (List.takeWhile_subset _ earlier)

end Searches

section Keys
variable {cmp : κ → κ → Ordering} [Std.TransCmp cmp] {list : LinkedSkipList κ ν} {levels : Nat → List Nat}

omit [Inhabited κ] in
theorem downward_below (key : κ) : Downward cmp (below cmp key) := by
  intro a b less before
  have before : cmp b key = .lt := by simpa [below] using before
  simp [below, Std.TransCmp.lt_trans less before]

theorem Levels.findGreaterOrEqual_spec (inv : Levels cmp list levels) (key : κ) (prev : Nat → Option Nat) :
    ∃ prev', list.findGreaterOrEqual cmp key prev =
        some ((list.left (below cmp key) levels 0).head?, prev') ∧
      ∀ i, prev' i = if i < list.maxHeight then some (list.predecessor (below cmp key) levels i)
        else prev i := by
  obtain ⟨prev', found, filled⟩ := inv.search_from_top (downward_below key) prev
  exact ⟨prev', by rw [findGreaterOrEqual, found]; rfl, filled⟩

theorem Levels.findLessThan_spec (inv : Levels cmp list levels) (key : κ) :
    list.findLessThan cmp key = some (list.predecessor (below cmp key) levels 0) := by
  obtain ⟨prev', found, -⟩ := inv.search_from_top (downward_below key) unset
  rw [findLessThan, found]
  rfl

omit [Std.TransCmp cmp] in
theorem Levels.findLast_spec (inv : Levels cmp list levels) :
    list.findLast = some ((levels 0).getLastD head) := by
  obtain ⟨prev', found, -⟩ := inv.search_from_top downward_all unset
  have all : list.passed (fun _ => true) levels 0 = levels 0 := by
    simp [passed, isAhead]
  rw [findLast, found, predecessor, all]
  rfl

def holder (cmp : κ → κ → Ordering) (list : LinkedSkipList κ ν) (key : κ) (levels : Nat → List Nat) :
    Option Nat :=
  (list.left (below cmp key) levels 0).head?.filter fun x => equals cmp key (list.entry x).1

omit [Std.TransCmp cmp] in
theorem Levels.checked_left (inv : Levels cmp list levels) (key : κ) :
    list.checked (equals cmp key) (list.left (below cmp key) levels 0).head? =
      some (holder cmp list key levels) := by
  apply checked_readable
  intro x first
  apply inv.readable (Nat.zero_lt_succ _)
  exact List.mem_cons_of_mem _ (List.dropWhile_subset _ (List.mem_of_head? first))

omit [Std.TransCmp cmp] in
theorem holder_eq_some {key : κ} {x : Nat} (held : holder cmp list key levels = some x) :
    (∃ rest, list.left (below cmp key) levels 0 = x :: rest) ∧ cmp (list.entry x).1 key = .eq := by
  obtain ⟨first, equal⟩ := Option.filter_eq_some_iff.mp held
  exact ⟨List.head?_eq_some_iff.mp first, by simpa [equals] using equal⟩

omit [Std.TransCmp cmp] in
theorem holder_eq_none {key : κ} (none : holder cmp list key levels = none) :
    ∀ x ∈ (list.left (below cmp key) levels 0).head?, cmp (list.entry x).1 key ≠ .eq := by
  intro x first
  simpa [equals] using Option.filter_eq_none_iff.mp none x first

end Keys
end Lrdb.LinkedSkipList
