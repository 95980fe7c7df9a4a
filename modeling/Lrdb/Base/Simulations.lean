import Mathlib.Data.List.Basic

namespace Simulations
variable {S C A L : Type}

inductive Trace (step : S → L → S → Prop) : S → List L → S → Prop where
  | nil (s : S) : Trace step s [] s
  | cons {s t u : S} {label : L} {labels : List L} (first : step s label t)
      (rest : Trace step t labels u) : Trace step s (label :: labels) u

def Simulates (concrete : C → L → C → Prop) (abstract : A → L → A → Prop) (related : C → A → Prop) : Prop :=
  ∀ c a label c', related c a → concrete c label c' → ∃ a', abstract a label a' ∧ related c' a'

theorem Simulates.trace {concrete : C → L → C → Prop} {abstract : A → L → A → Prop}
    {related : C → A → Prop} (simulates : Simulates concrete abstract related) {c c' : C} {a : A}
    {labels : List L} (run : Trace concrete c labels c') (here : related c a) :
    ∃ a', Trace abstract a labels a' ∧ related c' a' := by
  induction run generalizing a with
  | nil c => exact ⟨a, .nil a, here⟩
  | cons first rest ih =>
      obtain ⟨b, stepped, middle⟩ := simulates _ _ _ _ here first
      obtain ⟨a', later, final⟩ := ih middle
      exact ⟨a', .cons stepped later, final⟩

end Simulations
