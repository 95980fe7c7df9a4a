import Lrdb.Base.Parsing

namespace Records
open Parsing
variable {B α β : Type} {p : Parser B α} {input middle rest last : List B} {as bs : List α} {a : α}

def Advances (p : Parser B α) : Prop :=
  ∀ input a rest, p input = some (a, rest) → ∃ first, first ≠ [] ∧ input = first ++ rest

def Leaves (p : Parser B α) : Prop :=
  ∀ input a rest, p input = some (a, rest) → ∃ first, input = first ++ rest

namespace Leaves

theorem pure (a : α) : Leaves (pure a : Parser B α) := by
  intro input found rest same
  obtain ⟨-, rfl⟩ := pure_some same
  exact ⟨[], rfl⟩

theorem take (n : Nat) : Leaves (Parser.take n : Parser B (List B)) := by
  intro input found rest taken
  rw [Parser.take] at taken
  split at taken <;> [skip; cases taken]
  obtain ⟨rfl, rfl⟩ := Prod.mk.inj (Option.some.inj taken)
  exact ⟨input.take n, (List.take_append_drop ..).symm⟩

theorem bind {f : α → Parser B β} (here : Leaves p) (later : ∀ a, Leaves (f a)) :
    Leaves (p >>= f) := by
  intro input b rest found
  obtain ⟨a, middle, first, second⟩ := bind_some found
  obtain ⟨front, rfl⟩ := here _ _ _ first
  obtain ⟨back, rfl⟩ := later a _ _ _ second
  exact ⟨front ++ back, by simp⟩

end Leaves

inductive Reads (p : Parser B α) : List B → List α → List B → Prop
  | nil (input : List B) : Reads p input [] input
  | cons {input middle rest : List B} {a : α} {as : List α} (here : p input = some (a, middle))
      (later : Reads p middle as rest) : Reads p input (a :: as) rest

def readAll (p : Parser B α) : Nat → List B → List α × List B
  | 0, input => ([], input)
  | n + 1, input =>
      match p input with
      | none => ([], input)
      | some (a, rest) => (a :: (readAll p n rest).1, (readAll p n rest).2)

def records (p : Parser B α) (input : List B) : List α := (readAll p input.length input).1

def leftOver (p : Parser B α) (input : List B) : List B := (readAll p input.length input).2

namespace Advances

theorem length_lt (advances : Advances p) (found : p input = some (a, rest)) :
    rest.length < input.length := by
  obtain ⟨first, filled, rfl⟩ := advances _ _ _ found
  have positive := List.length_pos_iff.mpr filled
  rw [List.length_append]
  omega

theorem nil (advances : Advances p) : p [] = none := by
  cases found : p [] with
  | none => rfl
  | some pair =>
      obtain ⟨a, rest⟩ := pair
      exact absurd (advances.length_lt found) (Nat.not_lt_zero _)

theorem leaves (advances : Advances p) : Leaves p := by
  intro input a rest found
  obtain ⟨first, -, whole⟩ := advances _ _ _ found
  exact ⟨first, whole⟩

theorem bind {f : α → Parser B β} (here : Advances p) (later : ∀ a, Leaves (f a)) :
    Advances (p >>= f) := by
  intro input b rest found
  obtain ⟨a, middle, first, second⟩ := bind_some found
  obtain ⟨front, filled, rfl⟩ := here _ _ _ first
  obtain ⟨back, rfl⟩ := later a _ _ _ second
  exact ⟨front ++ back, by simp [filled], by simp⟩

theorem item : Advances (Parser.item : Parser B B) := by
  intro input b rest found
  cases input with
  | nil => cases found
  | cons c tail =>
      obtain ⟨rfl, rfl⟩ := Prod.mk.inj (Option.some.inj found)
      exact ⟨[c], by simp, rfl⟩

end Advances

namespace Reads

theorem one (found : p input = some (a, rest)) : Reads p input [a] rest := cons found (nil rest)

theorem append (first : Reads p input as middle) (second : Reads p middle bs rest) :
    Reads p input (as ++ bs) rest := by
  induction first with
  | nil => exact second
  | cons here _ ih => exact cons here (ih second)

theorem split (reads : Reads p input (as ++ bs) rest) :
    ∃ middle, Reads p input as middle ∧ Reads p middle bs rest := by
  induction as generalizing input with
  | nil => exact ⟨input, nil input, reads⟩
  | cons a as ih =>
      cases reads with
      | cons here later =>
          obtain ⟨middle, first, second⟩ := ih later
          exact ⟨middle, cons here first, second⟩

theorem suffix (advances : Advances p) (reads : Reads p input as rest) :
    ∃ first, as.length ≤ first.length ∧ input = first ++ rest := by
  induction reads with
  | nil input => exact ⟨[], le_rfl, rfl⟩
  | cons here _ ih =>
      obtain ⟨front, filled, rfl⟩ := advances _ _ _ here
      obtain ⟨back, long, rfl⟩ := ih
      have positive := List.length_pos_iff.mpr filled
      refine ⟨front ++ back, ?_, by simp⟩
      rw [List.length_append, List.length_cons]
      omega

theorem length_le (advances : Advances p) (reads : Reads p input as rest) :
    as.length + rest.length ≤ input.length := by
  obtain ⟨first, long, rfl⟩ := reads.suffix advances
  rw [List.length_append]
  omega

theorem left_unique (one : Reads p input as rest) (other : Reads p input as last) : rest = last := by
  induction one with
  | nil input =>
      cases other
      rfl
  | cons here _ ih =>
      cases other with
      | cons here' later =>
          obtain ⟨-, rfl⟩ := Prod.mk.inj (Option.some.inj (here.symm.trans here'))
          exact ih later

theorem readAll_eq (reads : Reads p input as rest) (stuck : p rest = none) {n : Nat}
    (enough : as.length ≤ n) : readAll p n input = (as, rest) := by
  induction reads generalizing n with
  | nil input => cases n <;> simp [readAll, stuck]
  | cons here _ ih =>
      cases n with
      | zero => exact absurd enough (Nat.not_succ_le_zero _)
      | succ n =>
          have later := ih stuck (Nat.le_of_succ_le_succ enough)
          simp [readAll, here, later]

theorem records_eq (advances : Advances p) (reads : Reads p input as rest) (stuck : p rest = none) :
    records p input = as ∧ leftOver p input = rest := by
  have enough := reads.length_le advances
  have whole := reads.readAll_eq stuck (Nat.le_of_add_right_le enough)
  exact ⟨congrArg Prod.fst whole, congrArg Prod.snd whole⟩

end Reads

theorem reads_readAll (p : Parser B α) (n : Nat) (input : List B) :
    Reads p input (readAll p n input).1 (readAll p n input).2 := by
  induction n generalizing input with
  | zero => exact Reads.nil input
  | succ n ih =>
      rw [readAll]
      cases found : p input with
      | none => exact Reads.nil input
      | some pair => exact Reads.cons found (ih pair.2)

theorem reads_records (p : Parser B α) (input : List B) :
    Reads p input (records p input) (leftOver p input) := reads_readAll p _ input

theorem readAll_stuck (advances : Advances p) {n : Nat} (enough : input.length ≤ n) :
    p (readAll p n input).2 = none := by
  induction n generalizing input with
  | zero =>
      obtain rfl := List.length_eq_zero_iff.mp (Nat.le_zero.mp enough)
      exact advances.nil
  | succ n ih =>
      rw [readAll]
      cases found : p input with
      | none => exact found
      | some pair =>
          obtain ⟨a, rest⟩ := pair
          have less := advances.length_lt found
          exact ih (by omega)

theorem leftOver_stuck (advances : Advances p) (input : List B) : p (leftOver p input) = none :=
  readAll_stuck advances le_rfl

theorem reads_flatMap {encode : α → List B} (yields : ∀ a ∈ as, Yields p (encode a) a) (rest : List B) :
    Reads p (as.flatMap encode ++ rest) as rest := by
  induction as with
  | nil => exact Reads.nil rest
  | cons a as ih =>
      obtain ⟨here, later⟩ := List.forall_mem_cons.mp yields
      rw [List.flatMap_cons, List.append_assoc]
      exact Reads.cons (here _) (ih later)

end Records
