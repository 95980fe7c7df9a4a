import Mathlib.Data.Set.Image
import Mathlib.Order.Compare

namespace Orders
variable {α : Type*}

structure Laws (f : α → α → Ordering) (s : Set α) : Prop where
  antisymmetric : ∀ a ∈ s, ∀ b ∈ s, f a b = (f b a).swap
  transitive : ∀ a ∈ s, ∀ b ∈ s, ∀ c ∈ s, f a b = .lt → f b c = .lt → f a c = .lt
  equal_refl : ∀ a ∈ s, f a a = .eq
  equal_symm : ∀ a ∈ s, ∀ b ∈ s, f a b = .eq → f b a = .eq
  equal_trans : ∀ a ∈ s, ∀ b ∈ s, ∀ c ∈ s, f a b = .eq → f b c = .eq → f a c = .eq
  equal_compatible : ∀ a ∈ s, ∀ b ∈ s, f a b = .eq → ∀ c ∈ s, f a c = f b c

def Acyclic (f : α → α → Ordering) (s : Set α) : Prop :=
  ∀ a ∈ s, ∀ b ∈ s, ∀ c ∈ s, f a b = .lt → f b c = .lt → f c a ≠ .lt

variable {f : α → α → Ordering} {s : Set α}

theorem laws_of_transCmp [Std.TransCmp f] : Laws f s where
  antisymmetric _ _ _ _ := Std.OrientedCmp.eq_swap
  transitive _ _ _ _ _ _ := Std.TransCmp.lt_trans
  equal_refl _ _ := Std.ReflCmp.compare_self
  equal_symm _ _ _ _ := Std.OrientedCmp.eq_symm
  equal_trans _ _ _ _ _ _ := Std.TransCmp.eq_trans
  equal_compatible _ _ _ _ equal _ _ := Std.TransCmp.congr_left equal

theorem laws_range {β : Type*} {g : β → α} {r : β → β → Ordering} [Std.TransCmp r]
    (same : ∀ a b, f (g a) (g b) = r a b) : Laws f (Set.range g) := by
  have laws : Laws r Set.univ := laws_of_transCmp
  constructor
  case antisymmetric =>
      rintro _ ⟨a, rfl⟩ _ ⟨b, rfl⟩
      rw [same, same]
      exact laws.antisymmetric a trivial b trivial
  case transitive =>
      rintro _ ⟨a, rfl⟩ _ ⟨b, rfl⟩ _ ⟨c, rfl⟩
      rw [same, same, same]
      exact laws.transitive a trivial b trivial c trivial
  case equal_refl =>
      rintro _ ⟨a, rfl⟩
      rw [same]
      exact laws.equal_refl a trivial
  case equal_symm =>
      rintro _ ⟨a, rfl⟩ _ ⟨b, rfl⟩
      rw [same, same]
      exact laws.equal_symm a trivial b trivial
  case equal_trans =>
      rintro _ ⟨a, rfl⟩ _ ⟨b, rfl⟩ _ ⟨c, rfl⟩
      rw [same, same, same]
      exact laws.equal_trans a trivial b trivial c trivial
  case equal_compatible =>
      rintro _ ⟨a, rfl⟩ _ ⟨b, rfl⟩ equal _ ⟨c, rfl⟩
      rw [same] at equal
      rw [same, same]
      exact laws.equal_compatible a trivial b trivial equal c trivial

theorem Laws.acyclic (laws : Laws f s) : Acyclic f s := by
  intro a ha b hb c hc ab bc ca
  have around := laws.antisymmetric a ha c hc
  rw [laws.transitive a ha b hb c hc ab bc, ca] at around
  cases around

theorem laws_iff_acyclic (swap : ∀ a b, f a b = (f b a).swap) (equal : ∀ {a b}, f a b = .eq ↔ a = b) :
    Laws f s ↔ Acyclic f s := by
  constructor
  · exact Laws.acyclic
  intro acyclic
  constructor
  case antisymmetric => exact fun a _ b _ => swap a b
  case transitive =>
      intro a ha b hb c hc ab bc
      cases ac : f a c with
      | lt => rfl
      | eq =>
          have same := equal.mp ac
          rw [← same, swap, ab] at bc
          cases bc
      | gt =>
          have ca : f c a = .lt := by rw [swap, ac]; rfl
          exact absurd ca (acyclic a ha b hb c hc ab bc)
  case equal_refl => exact fun a _ => equal.mpr rfl
  case equal_symm => exact fun a _ b _ same => equal.mpr (equal.mp same).symm
  case equal_trans => exact fun a _ b _ c _ ab bc => equal.mpr ((equal.mp ab).trans (equal.mp bc))
  case equal_compatible =>
      intro a _ b _ same c _
      rw [equal.mp same]

theorem Laws.congr {g : α → α → Ordering} (laws : Laws f s) (same : ∀ a ∈ s, ∀ b ∈ s, g a b = f a b) :
    Laws g s where
  antisymmetric a ha b hb := by
    rw [same a ha b hb, same b hb a ha]
    exact laws.antisymmetric a ha b hb
  transitive a ha b hb c hc := by
    rw [same a ha b hb, same b hb c hc, same a ha c hc]
    exact laws.transitive a ha b hb c hc
  equal_refl a ha := by
    rw [same a ha a ha]
    exact laws.equal_refl a ha
  equal_symm a ha b hb := by
    rw [same a ha b hb, same b hb a ha]
    exact laws.equal_symm a ha b hb
  equal_trans a ha b hb c hc := by
    rw [same a ha b hb, same b hb c hc, same a ha c hc]
    exact laws.equal_trans a ha b hb c hc
  equal_compatible a ha b hb equal c hc := by
    rw [same a ha b hb] at equal
    rw [same a ha c hc, same b hb c hc]
    exact laws.equal_compatible a ha b hb equal c hc

theorem Laws.subset {t : Set α} (laws : Laws f s) (fewer : t ⊆ s) : Laws f t where
  antisymmetric a ha b hb := laws.antisymmetric a (fewer ha) b (fewer hb)
  transitive a ha b hb c hc := laws.transitive a (fewer ha) b (fewer hb) c (fewer hc)
  equal_refl a ha := laws.equal_refl a (fewer ha)
  equal_symm a ha b hb := laws.equal_symm a (fewer ha) b (fewer hb)
  equal_trans a ha b hb c hc := laws.equal_trans a (fewer ha) b (fewer hb) c (fewer hc)
  equal_compatible a ha b hb equal c hc :=
    laws.equal_compatible a (fewer ha) b (fewer hb) equal c (fewer hc)

theorem Laws.comap {β : Type*} (laws : Laws f s) (g : β → α) :
    Laws (fun a b => f (g a) (g b)) {b | g b ∈ s} where
  antisymmetric _ ha _ hb := laws.antisymmetric _ ha _ hb
  transitive _ ha _ hb _ hc := laws.transitive _ ha _ hb _ hc
  equal_refl _ ha := laws.equal_refl _ ha
  equal_symm _ ha _ hb := laws.equal_symm _ ha _ hb
  equal_trans _ ha _ hb _ hc := laws.equal_trans _ ha _ hb _ hc
  equal_compatible _ ha _ hb equal _ hc := laws.equal_compatible _ ha _ hb equal _ hc

theorem Laws.lex {g : α → α → Ordering} (first : Laws f s) (second : Laws g s) :
    Laws (compareLex f g) s where
  antisymmetric a ha b hb := by
    rw [compareLex, compareLex, Ordering.swap_then, ← first.antisymmetric a ha b hb,
      ← second.antisymmetric a ha b hb]
  transitive a ha b hb c hc ab bc := by
    rcases Ordering.then_eq_lt.mp ab with ab | ⟨abEqual, ab⟩
    · refine Ordering.then_eq_lt.mpr (.inl ?_)
      rcases Ordering.then_eq_lt.mp bc with bc | ⟨bc, -⟩
      · exact first.transitive a ha b hb c hc ab bc
      · have back := first.equal_compatible c hc b hb (first.equal_symm b hb c hc bc) a ha
        rw [first.antisymmetric a ha c hc, back, ← first.antisymmetric a ha b hb, ab]
    · refine Ordering.then_eq_lt.mpr ?_
      rw [first.equal_compatible a ha b hb abEqual c hc]
      rcases Ordering.then_eq_lt.mp bc with bc | ⟨bcEqual, bc⟩
      · exact .inl bc
      · exact .inr ⟨bcEqual, second.transitive a ha b hb c hc ab bc⟩
  equal_refl a ha := Ordering.then_eq_eq.mpr ⟨first.equal_refl a ha, second.equal_refl a ha⟩
  equal_symm a ha b hb equal := by
    obtain ⟨equal, equal'⟩ := Ordering.then_eq_eq.mp equal
    exact Ordering.then_eq_eq.mpr ⟨first.equal_symm a ha b hb equal, second.equal_symm a ha b hb equal'⟩
  equal_trans a ha b hb c hc ab bc := by
    obtain ⟨ab, ab'⟩ := Ordering.then_eq_eq.mp ab
    obtain ⟨bc, bc'⟩ := Ordering.then_eq_eq.mp bc
    exact Ordering.then_eq_eq.mpr
      ⟨first.equal_trans a ha b hb c hc ab bc, second.equal_trans a ha b hb c hc ab' bc'⟩
  equal_compatible a ha b hb equal c hc := by
    obtain ⟨equal, equal'⟩ := Ordering.then_eq_eq.mp equal
    rw [compareLex, compareLex, first.equal_compatible a ha b hb equal c hc,
      second.equal_compatible a ha b hb equal' c hc]

end Orders
