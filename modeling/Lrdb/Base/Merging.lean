import Mathlib.Data.List.Induction
import Mathlib.Data.List.Perm.Basic

namespace Merging
variable {α : Type*} (less : α → α → Prop) [DecidableRel less]

def consider (best : Option (Nat × α)) (list : List α × Nat) : Option (Nat × α) :=
  match list.1, best with
  | [], best => best
  | a :: _, none => some (list.2, a)
  | a :: _, some (i, least) => if less a least then some (list.2, a) else some (i, least)

def findMin (lists : List (List α)) : Option (Nat × α) := lists.zipIdx.foldl (consider less) none

def merged : Nat → List (List α) → List α
  | 0, _ => []
  | fuel + 1, lists =>
      match findMin less lists with
      | none => []
      | some (i, a) => a :: merged fuel (lists.modify i List.tail)

def Least (lists : List (List α)) : Option (Nat × α) → Prop
  | none => ∀ list ∈ lists, list = []
  | some (i, a) => (∃ rest, lists[i]? = some (a :: rest)) ∧
      ∀ list ∈ lists, ∀ first ∈ list.head?, ¬ less first a

theorem findMin_concat (lists : List (List α)) (list : List α) :
    findMin less (lists ++ [list]) = consider less (findMin less lists) (list, lists.length) := by
  rw [findMin, List.zipIdx_append, List.foldl_append, findMin]
  simp

theorem getElem_of_findMin (less : α → α → Prop) [DecidableRel less] {lists : List (List α)} {i : Nat} {a : α}
    (found : findMin less lists = some (i, a)) : ∃ rest, lists[i]? = some (a :: rest) := by
  induction lists using List.reverseRecOn with
  | nil => cases found
  | append_singleton lists list ih =>
      have old (there : findMin less lists = some (i, a)) :
          ∃ rest, (lists ++ [list])[i]? = some (a :: rest) := by
        obtain ⟨rest, here⟩ := ih there
        have bound := (List.getElem?_eq_some_iff.mp here).1
        exact ⟨rest, (List.getElem?_append_left bound).trans here⟩
      have new {front : α} {rest : List α} (shape : list = front :: rest)
          (same : (lists.length, front) = (i, a)) : ∃ rest, (lists ++ [list])[i]? = some (a :: rest) := by
        obtain ⟨rfl, rfl⟩ := Prod.mk.inj same
        exact ⟨rest, by simp [shape]⟩
      rw [findMin_concat] at found
      unfold consider at found
      split at found
      · exact old found
      · exact new ‹_› (Option.some.inj found)
      · split at found
        · exact new ‹_› (Option.some.inj found)
        · exact old (by rw [‹findMin less lists = _›]; exact found)

theorem nil_of_findMin (less : α → α → Prop) [DecidableRel less] {lists : List (List α)}
    (none : findMin less lists = none) : ∀ list ∈ lists, list = [] := by
  induction lists using List.reverseRecOn with
  | nil => exact nofun
  | append_singleton lists list ih =>
      rw [findMin_concat] at none
      unfold consider at none
      split at none
      · rename_i empty
        rw [List.forall_mem_append]
        exact ⟨ih none, List.forall_mem_singleton.mpr empty⟩
      · cases none
      · split at none <;> cases none

theorem findMin_heads (lists : List (List α)) :
    findMin less (lists.map fun list => list.head?.toList) = findMin less lists := by
  induction lists using List.reverseRecOn with
  | nil => rfl
  | append_singleton lists list ih =>
      rw [List.map_append, List.map_singleton, findMin_concat, findMin_concat, ih, List.length_map]
      cases list with
      | nil => rfl
      | cons a rest => cases findMin less lists <;> rfl

variable {less}

omit [DecidableRel less] in
theorem Least.getElem {lists : List (List α)} {i : Nat} {a : α}
    (least : Least less lists (some (i, a))) : ∃ front rest back,
      lists = front ++ (a :: rest) :: back ∧ lists.modify i List.tail = front ++ rest :: back := by
  obtain ⟨⟨rest, here⟩, -⟩ := least
  obtain ⟨bound, value⟩ := List.getElem?_eq_some_iff.mp here
  refine ⟨lists.take i, rest, lists.drop (i + 1), ?_, ?_⟩
  · rw [← value, ← List.drop_eq_getElem_cons bound, List.take_append_drop]
  · rw [List.modify_eq_take_drop, List.drop_eq_getElem_cons bound, value]
    rfl

section Order
variable (asymm : ∀ a b, less a b → ¬ less b a) (trans : ∀ a b c, ¬ less b a → ¬ less c b → ¬ less c a)
include asymm trans

theorem least_findMin (lists : List (List α)) : Least less lists (findMin less lists) := by
  induction lists using List.reverseRecOn with
  | nil => exact nofun
  | append_singleton lists list ih =>
      rw [findMin_concat]
      cases found : findMin less lists with
      | none =>
          rw [found] at ih
          cases list with
          | nil =>
              intro other member
              rcases List.mem_append.mp member with old | new
              · exact ih other old
              · exact List.mem_singleton.mp new
          | cons a rest =>
              refine ⟨⟨rest, by simp⟩, fun other member first head => ?_⟩
              rcases List.mem_append.mp member with old | new
              · rw [ih other old] at head
                cases head
              · obtain rfl := List.mem_singleton.mp new
                obtain rfl := Option.some.inj head
                exact fun itself => asymm a a itself itself
      | some best =>
          obtain ⟨i, least⟩ := best
          rw [found] at ih
          obtain ⟨⟨tail, here⟩, smallest⟩ := ih
          have kept : (lists ++ [list])[i]? = some (least :: tail) := by
            rw [List.getElem?_append_left (List.getElem?_eq_some_iff.mp here).1, here]
          cases list with
          | nil =>
              refine ⟨⟨tail, kept⟩, fun other member first head => ?_⟩
              rcases List.mem_append.mp member with old | new
              · exact smallest other old first head
              · rw [List.mem_singleton.mp new] at head
                cases head
          | cons a rest =>
              unfold consider
              dsimp only
              split
              · rename_i smaller
                refine ⟨⟨rest, by simp⟩, fun other member first head => ?_⟩
                rcases List.mem_append.mp member with old | new
                · exact trans a least first (asymm a least smaller) (smallest other old first head)
                · obtain rfl := List.mem_singleton.mp new
                  obtain rfl := Option.some.inj head
                  exact fun itself => asymm a a itself itself
              · rename_i notSmaller
                refine ⟨⟨tail, kept⟩, fun other member first head => ?_⟩
                rcases List.mem_append.mp member with old | new
                · exact smallest other old first head
                · obtain rfl := List.mem_singleton.mp new
                  obtain rfl := Option.some.inj head
                  exact notSmaller

theorem merged_perm {fuel : Nat} {lists : List (List α)} (enough : lists.flatten.length ≤ fuel) :
    (merged less fuel lists).Perm lists.flatten := by
  induction fuel generalizing lists with
  | zero =>
      rw [List.eq_nil_of_length_eq_zero (Nat.le_zero.mp enough)]
      rfl
  | succ fuel ih =>
      have least := least_findMin asymm trans lists
      rw [merged]
      cases found : findMin less lists with
      | none =>
          rw [found] at least
          rw [List.flatten_eq_nil_iff.mpr least]
      | some best =>
          obtain ⟨i, a⟩ := best
          rw [found] at least
          obtain ⟨front, rest, back, whole, popped⟩ := least.getElem
          have fewer : (front ++ rest :: back).flatten.length ≤ fuel := by
            rw [whole] at enough
            simp only [List.flatten_append, List.flatten_cons, List.length_append,
              List.length_cons] at enough ⊢
            omega
          show (a :: merged less fuel (lists.modify i List.tail)).Perm lists.flatten
          rw [popped, whole]
          refine ((ih fewer).cons a).trans ?_
          simp only [List.flatten_append, List.flatten_cons, List.cons_append]
          exact List.perm_middle.symm

theorem merged_pairwise {fuel : Nat} {lists : List (List α)}
    (ordered : ∀ list ∈ lists, list.Pairwise fun a b => ¬ less b a)
    (enough : lists.flatten.length ≤ fuel) :
    (merged less fuel lists).Pairwise fun a b => ¬ less b a := by
  induction fuel generalizing lists with
  | zero => exact .nil
  | succ fuel ih =>
      have least := least_findMin asymm trans lists
      rw [merged]
      cases found : findMin less lists with
      | none => exact .nil
      | some best =>
          obtain ⟨i, a⟩ := best
          rw [found] at least
          obtain ⟨front, rest, back, whole, popped⟩ := least.getElem
          have smallest : ∀ list ∈ lists, ∀ b ∈ list, ¬ less b a := by
            intro list member b inside
            cases list with
            | nil => cases inside
            | cons first tail =>
                have head := least.2 _ member first rfl
                rcases List.mem_cons.mp inside with rfl | later
                · exact head
                · exact trans a first b head ((List.pairwise_cons.mp (ordered _ member)).1 b later)
          have fewer : (lists.modify i List.tail).flatten.length ≤ fuel := by
            rw [popped]
            rw [whole] at enough
            simp only [List.flatten_append, List.flatten_cons, List.length_append,
              List.length_cons] at enough ⊢
            omega
          have inside : ∀ list ∈ lists.modify i List.tail, ∃ other ∈ lists, list.Sublist other := by
            rw [popped, whole]
            intro list member
            rcases List.mem_append.mp member with early | late
            · exact ⟨list, List.mem_append_left _ early, .refl list⟩
            · rcases List.mem_cons.mp late with rfl | late
              · exact ⟨a :: list, by simp, List.sublist_cons_self a list⟩
              · exact ⟨list, by simp [late], .refl list⟩
          refine List.pairwise_cons.mpr ⟨fun b member => ?_, ih (fun list member => ?_) fewer⟩
          · obtain ⟨list, here, held⟩ :=
              List.mem_flatten.mp ((merged_perm asymm trans fewer).mem_iff.mp member)
            obtain ⟨other, whole, sublist⟩ := inside list here
            exact smallest other whole b (sublist.subset held)
          · obtain ⟨other, whole, sublist⟩ := inside list member
            exact (ordered other whole).sublist sublist

end Order

theorem findMin_map {β : Type*} (less : α → α → Prop) [DecidableRel less] (smaller : β → β → Prop)
    [DecidableRel smaller] (f : α → β)
    (same : ∀ a b, smaller (f a) (f b) ↔ less a b) (lists : List (List α)) :
    findMin smaller (lists.map (List.map f)) = (findMin less lists).map (Prod.map id f) := by
  induction lists using List.reverseRecOn with
  | nil => rfl
  | append_singleton lists list ih =>
      rw [List.map_append, List.map_singleton, findMin_concat, findMin_concat, ih, List.length_map]
      cases findMin less lists with
      | none => cases list <;> rfl
      | some best =>
          cases list with
          | nil => rfl
          | cons a rest =>
              obtain ⟨i, least⟩ := best
              simp only [consider, List.map_cons, Option.map_some, Prod.map_apply, id, same]
              split <;> rfl

end Merging
