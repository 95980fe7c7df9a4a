import Mathlib.Logic.Relation

/-!
# Guarded runs of a state machine

A machine is a partial step function. A guard restricts which steps a run may take; the invariant
rule turns a fact about one guarded step into a fact about every state of a guarded run.
-/

namespace Runs
variable {S A : Type*}

def Step (step : S → A → Option S) (guard : S → A → Prop) (s t : S) : Prop :=
  ∃ a, guard s a ∧ step s a = some t

abbrev Run (step : S → A → Option S) (guard : S → A → Prop) : S → S → Prop :=
  Relation.ReflTransGen (Step step guard)

def free : S → A → Prop := fun _ _ => True

theorem Run.invariant {step : S → A → Option S} {guard : S → A → Prop} {p : S → Prop}
    (preserved : ∀ s a t, guard s a → step s a = some t → p s → p t)
    {s t : S} (run : Run step guard s t) (initial : p s) : p t := by
  induction run with
  | refl => exact initial
  | tail _ last ih =>
      obtain ⟨a, allowed, stepped⟩ := last
      exact preserved _ a _ allowed stepped ih

theorem Run.mono {step : S → A → Option S} {strong weak : S → A → Prop}
    (weaker : ∀ s a, strong s a → weak s a) {s t : S} (run : Run step strong s t) :
    Run step weak s t := by
  refine Relation.ReflTransGen.mono ?_ _ _ run
  rintro u v ⟨a, allowed, stepped⟩
  exact ⟨a, weaker u a allowed, stepped⟩

/-- A run of one machine is a run under any guard that an invariant gives with the old one. -/
theorem Run.guarded {step : S → A → Option S} {strong weak : S → A → Prop} {p : S → Prop}
    (preserved : ∀ s a t, strong s a → step s a = some t → p s → p t)
    (weaker : ∀ s a, p s → strong s a → weak s a) {s t : S} (run : Run step strong s t)
    (initial : p s) : Run step weak s t := by
  induction run with
  | refl => exact .refl
  | tail earlier last ih =>
      obtain ⟨a, allowed, stepped⟩ := last
      exact ih.tail ⟨a, weaker _ a (Run.invariant preserved earlier initial) allowed, stepped⟩

/-- Where another machine can follow every step by a run of its own, it can follow every run. -/
theorem Run.followed {T B : Type*} {step : S → A → Option S} {guard : S → A → Prop}
    {step' : T → B → Option T} {guard' : T → B → Prop} {related : S → T → Prop}
    (follows : ∀ s a s', guard s a → step s a = some s' → ∀ t, related s t →
      ∃ t', Run step' guard' t t' ∧ related s' t')
    {s s' : S} (run : Run step guard s s') {t : T} (initial : related s t) :
    ∃ t', Run step' guard' t t' ∧ related s' t' := by
  induction run with
  | refl => exact ⟨t, .refl, initial⟩
  | tail _ last ih =>
      obtain ⟨a, allowed, stepped⟩ := last
      obtain ⟨middle, before, here⟩ := ih
      obtain ⟨t', after, there⟩ := follows _ a _ allowed stepped middle here
      exact ⟨t', before.trans after, there⟩

def execute (step : S → A → Option S) (s : S) : List A → Option S
  | [] => some s
  | a :: as => (step s a).bind fun t => execute step t as

def Allowed (step : S → A → Option S) (guard : S → A → Prop) (s : S) : List A → Prop
  | [] => True
  | a :: as => guard s a ∧ ∀ t ∈ step s a, Allowed step guard t as

instance decidableAllowed (step : S → A → Option S) (guard : S → A → Prop)
    [∀ s a, Decidable (guard s a)] : (s : S) → (as : List A) → Decidable (Allowed step guard s as)
  | _, [] => inferInstanceAs (Decidable True)
  | s, a :: as =>
      have := fun t => decidableAllowed step guard t as
      inferInstanceAs (Decidable (guard s a ∧ ∀ t ∈ step s a, Allowed step guard t as))

theorem execute_run {step : S → A → Option S} {guard : S → A → Prop} (as : List A) {s t : S}
    (allowed : Allowed step guard s as) (executed : execute step s as = some t) :
    Run step guard s t := by
  induction as generalizing s with
  | nil => cases executed; exact .refl
  | cons a as ih =>
      obtain ⟨u, stepped, rest⟩ := Option.bind_eq_some_iff.mp executed
      exact .head ⟨a, allowed.1, stepped⟩ (ih (allowed.2 u stepped) rest)

theorem allowed_free (step : S → A → Option S) (as : List A) (s : S) :
    Allowed step free s as := by
  induction as generalizing s with
  | nil => trivial
  | cons a as ih => exact ⟨trivial, fun t _ => ih t⟩

theorem exists_foldlM_range {round : S → Nat → Option S} {p : Nat → S → Prop} {n : Nat} {s : S}
    (initial : p 0 s) (enabled : ∀ i < n, ∀ s, p i s → ∃ t, round s i = some t ∧ p (i + 1) t) :
    ∃ t, (List.range n).foldlM round s = some t ∧ p n t := by
  induction n with
  | zero => exact ⟨s, rfl, initial⟩
  | succ n ih =>
      obtain ⟨u, looped, here⟩ := ih fun i below => enabled i (Nat.lt_succ_of_lt below)
      obtain ⟨t, last, after⟩ := enabled n (Nat.lt_succ_self n) u here
      refine ⟨t, ?_, after⟩
      rw [List.range_succ, List.foldlM_append, looped]
      simpa using last

end Runs
