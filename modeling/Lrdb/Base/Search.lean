import Mathlib.Order.Nat
import Mathlib.Data.List.Basic

namespace Search

/-- Halves the window `fuel` times at most, remembering the last index that satisfied `p`. -/
def findLast (p : Nat → Bool) : Nat → Nat → Nat → Option Nat → Option Nat
  | 0, _, _, result => result
  | fuel + 1, left, right, result =>
      if left < right then
        let mid := left + (right - 1 - left) / 2
        if p mid then findLast p fuel (mid + 1) right (some mid)
        else findLast p fuel left mid result
      else result

/-- The last index below `size` that satisfies `p`, if there is one. -/
structure IsLast (p : Nat → Bool) (size : Nat) (result : Option Nat) : Prop where
  some : ∀ i, result = some i → i < size ∧ p i ∧ ∀ j, i < j → j < size → ¬ p j
  none : result = none → ∀ j, j < size → ¬ p j

structure Window (p : Nat → Bool) (size left right : Nat) (result : Option Nat) : Prop where
  inside : right ≤ size
  above : ∀ j, right ≤ j → j < size → ¬ p j
  found : ∀ i, result = some i → i + 1 = left ∧ p i
  missing : result = none → left = 0

private theorem isLast_of_window {p : Nat → Bool} {size left right : Nat} {result : Option Nat}
    (window : Window p size left right result) (closed : right ≤ left) (bound : left ≤ size) :
    IsLast p size result := by
  refine ⟨fun i found => ?_, fun missing j less => ?_⟩
  · obtain ⟨rfl, holds⟩ := window.found i found
    exact ⟨by omega, holds, fun j after less => window.above j (by omega) less⟩
  · have := window.missing missing
    exact window.above j (by omega) less

theorem findLast_isLast {p : Nat → Bool} {size : Nat}
    (initial : ∀ i j, i ≤ j → j < size → p j → p i) (fuel : Nat) {left right : Nat}
    {result : Option Nat} (enough : right - left ≤ fuel) (bound : left ≤ size)
    (window : Window p size left right result) :
    IsLast p size (findLast p fuel left right result) := by
  induction fuel generalizing left right result with
  | zero => exact isLast_of_window window (by omega) bound
  | succ fuel ih =>
      have inside := window.inside
      rw [findLast]
      split
      · rename_i less
        have middle : left + (right - 1 - left) / 2 < right := by omega
        dsimp only
        split
        · rename_i holds
          refine ih (by omega) (by omega) ⟨inside, window.above, ?_, by simp⟩
          rintro i found
          obtain rfl := Option.some.inj found
          exact ⟨rfl, holds⟩
        · rename_i fails
          refine ih (by omega) bound ⟨by omega, ?_, window.found, window.missing⟩
          intro j after below holds
          exact fails (initial _ j after below holds)
      · exact isLast_of_window window (by omega) bound

theorem findLast_some {p : Nat → Bool} {fuel left right i : Nat} {result : Option Nat}
    (before : ∀ j, result = some j → p j) (found : findLast p fuel left right result = some i) :
    p i := by
  induction fuel generalizing left right result with
  | zero => exact before i found
  | succ fuel ih =>
      rw [findLast] at found
      split at found
      · dsimp only at found
        split at found
        · rename_i holds
          apply ih _ found
          intro j same
          exact Option.some.inj same ▸ holds
        · exact ih before found
      · exact before i found

/-! ## The first index behind the segment -/

/-- Halves the window down to the first index that does not satisfy `p`. -/
def lowerBound (p : Nat → Bool) (left right : Nat) : Nat :=
  if left < right then
    if p ((left + right) / 2) then lowerBound p ((left + right) / 2 + 1) right
    else lowerBound p left ((left + right) / 2)
  else left
termination_by right - left

theorem lowerBound_spec {p : Nat → Bool} {size : Nat}
    (initial : ∀ i j, i ≤ j → j < size → p j → p i) {left right : Nat} (le : left ≤ right)
    (inside : right ≤ size) :
    (left ≤ lowerBound p left right ∧ lowerBound p left right ≤ right) ∧
      (∀ j, left ≤ j → j < lowerBound p left right → p j) ∧
      ∀ j, lowerBound p left right ≤ j → j < right → ¬ p j := by
  induction left, right using lowerBound.induct p with
  | case1 left right less holds ih =>
      obtain ⟨⟨low, high⟩, before, behind⟩ := ih (by omega) inside
      rw [lowerBound, if_pos less, if_pos holds]
      refine ⟨⟨by omega, high⟩, fun j after below => ?_, behind⟩
      by_cases reached : (left + right) / 2 + 1 ≤ j
      · exact before j reached below
      · exact initial j _ (by omega) (by omega) holds
  | case2 left right less fails ih =>
      obtain ⟨⟨low, high⟩, before, behind⟩ := ih (by omega) (by omega)
      rw [lowerBound, if_pos less, if_neg fails]
      refine ⟨⟨low, by omega⟩, before, fun j after below holds => ?_⟩
      by_cases reached : j < (left + right) / 2
      · exact behind j after reached holds
      · exact fails (initial _ j (by omega) (by omega) holds)
  | case3 left right notLess =>
      rw [lowerBound, if_neg notLess]
      exact ⟨⟨le_rfl, le⟩, fun j after below => by omega, fun j after below => by omega⟩

theorem drop_lowerBound {α : Type*} {keys : List α} {q : α → Bool}
    (initial : keys.Pairwise fun a b => q b → q a) :
    keys.drop (lowerBound (fun i => keys[i]?.any q) 0 keys.length) = keys.filter fun k => !q k := by
  have ordered : ∀ i j, i ≤ j → j < keys.length → keys[j]?.any q → keys[i]?.any q := by
    intro i j le less holds
    rcases Nat.lt_or_eq_of_le le with before | rfl
    · rw [List.getElem?_eq_getElem less] at holds
      rw [List.getElem?_eq_getElem (before.trans less)]
      exact List.pairwise_iff_getElem.mp initial i j (before.trans less) less before holds
    · exact holds
  obtain ⟨⟨-, high⟩, before, behind⟩ := lowerBound_spec ordered (Nat.zero_le _) le_rfl
  generalize lowerBound (fun i => keys[i]?.any q) 0 keys.length = n at high before behind
  have none : (keys.take n).filter (fun k => !q k) = [] := by
    refine List.filter_eq_nil_iff.mpr fun k member => ?_
    obtain ⟨i, less, rfl⟩ := List.mem_iff_getElem.mp member
    rw [List.length_take] at less
    have holds := before i (Nat.zero_le _) (by omega)
    rw [List.getElem?_eq_getElem (by omega)] at holds
    simpa using holds
  have all : (keys.drop n).filter (fun k => !q k) = keys.drop n := by
    refine List.filter_eq_self.mpr fun k member => ?_
    obtain ⟨i, less, rfl⟩ := List.mem_iff_getElem.mp member
    rw [List.length_drop] at less
    have fails := behind (n + i) (by omega) (by omega)
    rw [List.getElem?_eq_getElem (by omega)] at fails
    simpa using fails
  conv_rhs => rw [← List.take_append_drop n keys]
  rw [List.filter_append, none, all, List.nil_append]

end Search
