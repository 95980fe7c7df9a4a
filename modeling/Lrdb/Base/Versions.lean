import Mathlib.Order.Lattice
import Mathlib.Data.List.Basic

/-!
# Newest versions

A multi-version store keeps, for one key, a list of versions `(sequence, payload)` in the order in
which a reader would meet them. The newest version is the one of greatest sequence, and the one met
first among several of the same sequence.
-/

namespace Versions
variable {σ β : Type*} [LinearOrder σ]

def later : Option (σ × β) → Option (σ × β) → Option (σ × β)
  | none, y => y
  | some x, none => some x
  | some x, some y => if x.1 < y.1 then some y else some x

def newest : List (σ × β) → Option (σ × β)
  | [] => none
  | x :: xs => later (some x) (newest xs)

@[simp] theorem later_none_left (y : Option (σ × β)) : later none y = y := rfl

@[simp] theorem later_none_right (x : Option (σ × β)) : later x none = x := by
  cases x <;> rfl

theorem later_assoc (x y z : Option (σ × β)) : later (later x y) z = later x (later y z) := by
  rcases x with _ | x
  · rfl
  rcases y with _ | y
  · rfl
  rcases z with _ | z
  · simp
  by_cases xy : x.1 < y.1
  · by_cases yz : y.1 < z.1
    · simp [later, xy, yz, xy.trans yz]
    · simp [later, xy, yz]
  · by_cases yz : y.1 < z.1
    · simp [later, xy, yz]
    · simp [later, xy, yz, not_lt.mpr ((not_lt.mp yz).trans (not_lt.mp xy))]

@[simp] theorem newest_nil : newest ([] : List (σ × β)) = none := rfl

theorem newest_cons (x : σ × β) (xs : List (σ × β)) :
    newest (x :: xs) = later (some x) (newest xs) := rfl

theorem newest_append (xs ys : List (σ × β)) :
    newest (xs ++ ys) = later (newest xs) (newest ys) := by
  induction xs with
  | nil => simp
  | cons x xs ih => rw [List.cons_append, newest_cons, newest_cons, ih, later_assoc]

theorem newest_eq_none {xs : List (σ × β)} : newest xs = none ↔ xs = [] := by
  cases xs with
  | nil => simp
  | cons x xs =>
      simp only [newest_cons, reduceCtorEq, iff_false]
      cases newest xs with
      | none => simp [later]
      | some y => simp only [later]; split <;> simp

theorem newest_mem {xs : List (σ × β)} {x : σ × β} (found : newest xs = some x) : x ∈ xs := by
  induction xs generalizing x with
  | nil => simp at found
  | cons y ys ih =>
      rw [newest_cons] at found
      cases rest : newest ys with
      | none => simp_all [later]
      | some z =>
          simp only [rest, later] at found
          split at found
          · exact List.mem_cons_of_mem _ (ih (rest.trans found))
          · simp_all

theorem newest_le {xs : List (σ × β)} {x : σ × β} (found : newest xs = some x) :
    ∀ y ∈ xs, y.1 ≤ x.1 := by
  induction xs generalizing x with
  | nil => simp
  | cons z zs ih =>
      rw [newest_cons] at found
      cases rest : newest zs with
      | none =>
          have empty := newest_eq_none.mp rest
          simp_all [later]
      | some w =>
          simp only [rest, later] at found
          intro y member
          split at found
          · rename_i less
            obtain rfl := Option.some.inj found
            rcases List.mem_cons.mp member with rfl | member
            · exact less.le
            · exact ih rest y member
          · rename_i notLess
            obtain rfl := Option.some.inj found
            rcases List.mem_cons.mp member with rfl | member
            · exact le_rfl
            · exact (ih rest y member).trans (not_lt.mp notLess)

theorem exists_newest {xs : List (σ × β)} {y : σ × β} (member : y ∈ xs) :
    ∃ x, newest xs = some x := by
  cases found : newest xs with
  | some x => exact ⟨x, rfl⟩
  | none => simp [newest_eq_none.mp found] at member

theorem newest_cons_filter (x : σ × β) (xs : List (σ × β)) :
    newest (x :: xs.filter fun y => y.1 ≠ x.1) = newest (x :: xs) := by
  simp only [newest_cons]
  induction xs with
  | nil => rfl
  | cons y ys ih =>
      rcases lt_trichotomy x.1 y.1 with less | same | greater
      · have covered : later (some y) (some x) = some y := if_neg less.not_gt
        rw [List.filter_cons_of_pos (by simpa using less.ne'), newest_cons, newest_cons, ← covered,
          later_assoc, later_assoc, ih]
      · have kept : later (some x) (some y) = some x := if_neg same.not_lt
        rw [List.filter_cons_of_neg (by simp [same]), ih, newest_cons, ← later_assoc, kept]
      · have kept : later (some x) (some y) = some x := if_neg greater.not_gt
        rw [List.filter_cons_of_pos (by simpa using greater.ne), newest_cons, newest_cons,
          ← later_assoc, ← later_assoc, kept, ih]

theorem newest_map {γ : Type*} (f : β → γ) (xs : List (σ × β)) :
    newest (xs.map (Prod.map id f)) = (newest xs).map (Prod.map id f) := by
  induction xs with
  | nil => rfl
  | cons x xs ih =>
      rw [List.map_cons, newest_cons, newest_cons, ih]
      cases newest xs with
      | none => rfl
      | some y => simp only [Option.map_some, later, Prod.map_fst, id]; split <;> rfl

def Functional (xs : List (σ × β)) : Prop :=
  ∀ x ∈ xs, ∀ y ∈ xs, x.1 = y.1 → x = y

omit [LinearOrder σ] in
theorem Functional.subset {xs ys : List (σ × β)} (functional : Functional ys)
    (subset : ∀ x ∈ xs, x ∈ ys) : Functional xs :=
  fun x hx y hy same => functional x (subset x hx) y (subset y hy) same

theorem newest_eq_of_max {xs : List (σ × β)} {x : σ × β} (functional : Functional xs)
    (member : x ∈ xs) (max : ∀ y ∈ xs, y.1 ≤ x.1) : newest xs = some x := by
  obtain ⟨z, found⟩ := exists_newest member
  rw [found]
  have same : z.1 = x.1 :=
    le_antisymm (max z (newest_mem found)) (newest_le found x member)
  exact congrArg some (functional z (newest_mem found) x member same)

theorem newest_congr {xs ys : List (σ × β)} (functional : Functional ys)
    (same : ∀ x, x ∈ xs ↔ x ∈ ys) : newest xs = newest ys := by
  cases found : newest ys with
  | none =>
      obtain rfl := newest_eq_none.mp found
      exact newest_eq_none.mpr (List.eq_nil_iff_forall_not_mem.mpr (by simpa using same))
  | some x =>
      refine newest_eq_of_max (functional.subset fun y hy => (same y).mp hy)
        ((same x).mpr (newest_mem found)) fun y hy => ?_
      exact newest_le found y ((same y).mp hy)

/-- A reader that meets newer versions first need not look further. -/
theorem later_of_le {xs ys : List (σ × β)} (ordered : ∀ x ∈ xs, ∀ y ∈ ys, y.1 ≤ x.1) :
    later (newest xs) (newest ys) = (newest xs).or (newest ys) := by
  cases hx : newest xs with
  | none => simp
  | some x =>
      cases hy : newest ys with
      | none => simp
      | some y => simp [later, not_lt.mpr (ordered x (newest_mem hx) y (newest_mem hy))]

theorem newest_append_of_le {xs ys : List (σ × β)}
    (ordered : ∀ x ∈ xs, ∀ y ∈ ys, y.1 ≤ x.1) :
    newest (xs ++ ys) = (newest xs).or (newest ys) := by
  rw [newest_append, later_of_le ordered]

theorem newest_of_descending {x : σ × β} {xs : List (σ × β)}
    (sorted : ∀ y ∈ xs, y.1 ≤ x.1) : newest (x :: xs) = some x := by
  rw [newest_cons]
  cases found : newest xs with
  | none => rfl
  | some y => simp [later, not_lt.mpr (sorted y (newest_mem found))]

def newestUpTo (snapshot : σ) (xs : List (σ × β)) : Option (σ × β) :=
  newest (xs.filter fun x => x.1 ≤ snapshot)

theorem newestUpTo_append (snapshot : σ) (xs ys : List (σ × β)) :
    newestUpTo snapshot (xs ++ ys) = later (newestUpTo snapshot xs) (newestUpTo snapshot ys) := by
  rw [newestUpTo, List.filter_append, newest_append]
  rfl

theorem newestUpTo_append_of_le {snapshot : σ} {xs ys : List (σ × β)}
    (ordered : ∀ x ∈ xs, ∀ y ∈ ys, y.1 ≤ x.1) :
    newestUpTo snapshot (xs ++ ys) = (newestUpTo snapshot xs).or (newestUpTo snapshot ys) := by
  rw [newestUpTo_append]
  exact later_of_le fun x hx y hy =>
    ordered x (List.mem_of_mem_filter hx) y (List.mem_of_mem_filter hy)

theorem newestUpTo_congr {snapshot : σ} {xs ys : List (σ × β)} (functional : Functional ys)
    (same : ∀ x, x ∈ xs ↔ x ∈ ys) : newestUpTo snapshot xs = newestUpTo snapshot ys := by
  refine newest_congr (functional.subset fun x => List.mem_of_mem_filter) fun x => ?_
  simp only [List.mem_filter, same]

theorem newestUpTo_of_prefix {snapshot : σ} {xs ys : List (σ × β)} (isPrefix : xs <+: ys)
    (descending : ys.Pairwise fun newer older => older.1 ≤ newer.1) {x : σ × β}
    (found : newestUpTo snapshot xs = some x) : newestUpTo snapshot ys = some x := by
  obtain ⟨rest, rfl⟩ := isPrefix
  rw [newestUpTo_append_of_le (List.pairwise_append.mp descending).2.2, found, Option.some_or]

theorem newestUpTo_of_le {snapshot : σ} {xs : List (σ × β)} (covered : ∀ x ∈ xs, x.1 ≤ snapshot) :
    newestUpTo snapshot xs = newest xs := by
  rw [newestUpTo, List.filter_eq_self.mpr fun x member => decide_eq_true (covered x member)]

def firstHit : List (List (σ × β)) → Option (σ × β)
  | [] => none
  | place :: places => (newest place).or (firstHit places)

theorem firstHit_append (xs ys : List (List (σ × β))) :
    firstHit (xs ++ ys) = (firstHit xs).or (firstHit ys) := by
  induction xs with
  | nil => simp [firstHit]
  | cons x xs ih => simp [firstHit, ih, Option.or_assoc]

theorem firstHit_map_filter {α : Type*} {places : List α} {keep : α → Bool}
    {held : α → List (σ × β)} (empty : ∀ a ∈ places, ¬ keep a → held a = []) :
    firstHit ((places.filter keep).map held) = firstHit (places.map held) := by
  induction places with
  | nil => rfl
  | cons a as ih =>
      obtain ⟨here, rest⟩ := List.forall_mem_cons.mp empty
      by_cases kept : keep a
      · simp [kept, firstHit, ih rest]
      · simp [kept, firstHit, ih rest, here kept]

def PlacesOrdered (places : List (List (σ × β))) : Prop :=
  places.Pairwise fun earlier older => ∀ x ∈ earlier, ∀ y ∈ older, y.1 ≤ x.1

theorem firstHit_eq_newest {places : List (List (σ × β))} (ordered : PlacesOrdered places) :
    firstHit places = newest places.flatten := by
  induction places with
  | nil => rfl
  | cons place places ih =>
      obtain ⟨here, rest⟩ := List.pairwise_cons.mp ordered
      rw [firstHit, ih rest, List.flatten_cons, newest_append_of_le]
      intro x hx y hy
      obtain ⟨older, member, hy⟩ := List.mem_flatten.mp hy
      exact here older member x hx y hy

end Versions
