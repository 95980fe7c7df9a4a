import Mathlib.Data.List.Nodup
import Mathlib.Data.List.TakeWhile

namespace LinkedLists
variable {α : Type*} {f g : α → Option (Option α)} {x y n : α} {a b c : List α}

def Linked (f : α → Option (Option α)) : α → List α → Prop
  | x, [] => f x = some none
  | x, n :: rest => f x = some (some n) ∧ Linked f n rest

theorem Linked.first (chain : Linked f x a) : f x = some a.head? := by
  cases a with
  | nil => exact chain
  | cons n rest => exact chain.1

theorem Linked.behind (chain : Linked f x (a ++ b)) : Linked f (a.getLastD x) b := by
  induction a generalizing x with
  | nil => exact chain
  | cons n rest ih =>
      rw [List.getLastD_cons]
      exact ih chain.2

def Leads (f : α → Option (Option α)) : List α → Prop
  | [] => True
  | n :: rest => Linked f n rest

theorem Linked.leads (chain : Linked f x a) : Leads f a := by
  cases a with
  | nil => trivial
  | cons n rest => exact chain.2

theorem Linked.readable (chain : Linked f x a) (member : n ∈ x :: a) : ∃ next, f n = some next := by
  induction a generalizing x with
  | nil =>
      obtain rfl := List.mem_singleton.mp member
      exact ⟨none, chain⟩
  | cons m rest ih =>
      cases List.mem_cons.mp member with
      | inl here =>
          rw [here]
          exact ⟨some m, chain.1⟩
      | inr later => exact ih chain.2 later

theorem Linked.unique (first : Linked f x a) (second : Linked f x b) : a = b := by
  induction a generalizing x b with
  | nil =>
      have ends := second.first
      rw [show f x = some none from first] at ends
      exact (List.head?_eq_none_iff.mp (Option.some.inj ends).symm).symm
  | cons n rest ih =>
      have same := second.first
      rw [first.1] at same
      cases b with
      | nil => cases same
      | cons m tail =>
          obtain rfl : n = m := by simpa using same
          rw [ih first.2 second.2]

theorem Linked.nodup (chain : Linked f x a) : (x :: a).Nodup := by
  induction a generalizing x with
  | nil => exact List.nodup_singleton x
  | cons n rest ih =>
      apply List.nodup_cons.mpr
      constructor
      · intro member
        obtain ⟨before, after, shape⟩ := List.append_of_mem member
        have again : Linked f x after := by
          have whole : Linked f x ((before ++ [x]) ++ after) := by
            rw [List.append_assoc, List.singleton_append, ← shape]
            exact chain
          simpa using whole.behind
        have same := chain.unique again
        rw [shape] at same
        have lengths := congrArg List.length same
        simp at lengths
        omega
      · exact ih chain.2

theorem Linked.congr (chain : Linked f x a) (same : ∀ y ∈ x :: a, g y = f y) : Linked g x a := by
  induction a generalizing x with
  | nil => exact (same x (List.mem_singleton_self x)).trans chain
  | cons n rest ih =>
      constructor
      · exact (same x (List.mem_cons_self ..)).trans chain.1
      · apply ih chain.2
        intro y member
        exact same y (List.mem_cons_of_mem _ member)

theorem Linked.relink (chain : Linked f x (a ++ b)) (same : ∀ y ∈ (x :: a).dropLast, g y = f y)
    (tail : Linked g (a.getLastD x) c) : Linked g x (a ++ c) := by
  induction a generalizing x with
  | nil => exact tail
  | cons n rest ih =>
      rw [List.getLastD_cons] at tail
      rw [List.dropLast_cons_cons] at same
      constructor
      · exact (same x (List.mem_cons_self ..)).trans chain.1
      · apply ih chain.2 _ tail
        intro y member
        exact same y (List.mem_cons_of_mem _ member)

theorem ne_last (distinct : (x :: a).Nodup) (member : y ∈ (x :: a).dropLast) : y ≠ a.getLastD x := by
  have whole : (x :: a).dropLast ++ [a.getLastD x] = x :: a := by
    apply List.dropLast_append_getLast?
    simp [List.getLast?_cons]
  rw [← whole] at distinct
  intro equal
  exact (List.nodup_append.mp distinct).2.2 y member (a.getLastD x) (List.mem_singleton_self _) equal

theorem Linked.insert (chain : Linked f x (a ++ b)) (new : n ∉ x :: (a ++ b))
    (here : g (a.getLastD x) = some (some n)) (there : g n = some b.head?)
    (same : ∀ y, y ≠ a.getLastD x → y ≠ n → g y = f y) : Linked g x (a ++ n :: b) := by
  have distinct : ((x :: a) ++ b).Nodup := chain.nodup
  obtain ⟨front, -, apart⟩ := List.nodup_append.mp distinct
  apply chain.relink
  · intro y member
    apply same y (ne_last front member)
    rintro rfl
    exact new (List.mem_append_left b (List.dropLast_subset _ member))
  · refine ⟨here, ?_⟩
    cases b with
    | nil => exact there
    | cons m rest =>
        refine ⟨there, ?_⟩
        apply chain.behind.2.congr
        intro y member
        apply same
        · exact (apart (a.getLastD x) List.getLastD_mem_cons y member).symm
        · rintro rfl
          exact new (List.mem_append_right (x :: a) member)

theorem Linked.unlink (chain : Linked f x (a ++ n :: b)) (here : g (a.getLastD x) = f n)
    (same : ∀ y, y ≠ a.getLastD x → g y = f y) : Linked g x (a ++ b) := by
  have distinct : ((x :: a) ++ n :: b).Nodup := chain.nodup
  obtain ⟨front, -, apart⟩ := List.nodup_append.mp distinct
  have behind : Linked f n b := chain.behind.2
  apply chain.relink
  · intro y member
    exact same y (ne_last front member)
  · cases b with
    | nil => exact here.trans behind
    | cons m rest =>
        refine ⟨here.trans behind.1, ?_⟩
        apply behind.2.congr
        intro y member
        exact same y (apart (a.getLastD x) List.getLastD_mem_cons y (List.mem_cons_of_mem n member)).symm

/-! ## Lists in two parts -/

section Parts
variable {p : α → Bool} {l : List α}

theorem cut_at (split : l = a ++ b) (all : ∀ n ∈ a, p n) (stop : ∀ n ∈ b.head?, ¬ p n) :
    l.takeWhile p = a ∧ l.dropWhile p = b := by
  rw [split, List.takeWhile_append_of_pos all, List.dropWhile_append_of_pos all]
  cases b with
  | nil => simp
  | cons n rest =>
      have no : ¬ p n := stop n rfl
      simp [no]

theorem parts_eq_filter (down : l.Pairwise fun a b => p b → p a) :
    l.takeWhile p = l.filter p ∧ l.dropWhile p = l.filter fun n => !p n := by
  induction l with
  | nil => exact ⟨rfl, rfl⟩
  | cons n rest ih =>
      obtain ⟨first, later⟩ := List.pairwise_cons.mp down
      by_cases holds : p n
      · simp [holds, ih later]
      · have none : ∀ m ∈ rest, ¬ p m := fun m member also => holds (first m member also)
        have some : rest.filter (fun m => !p m) = rest :=
          List.filter_eq_self.mpr fun m member => by simp [none m member]
        simpa [holds, some] using none

end Parts
end LinkedLists
