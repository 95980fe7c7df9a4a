import Lrdb.Base.Orders
import Lrdb.Util.BuiltInComparators

namespace Lrdb
open Orders

/-- `PrefixComparatorImpl::Compare`. -/
def prefixCompare (length : Nat) (a b : Bytes) : Ordering :=
  bytewiseCompare (a.take length) (b.take length)

inductive ComparatorImpl where
  | builtIn (order : BuiltIn)
  | prefixed (length : Nat)
  deriving DecidableEq, Repr

namespace ComparatorImpl

/-- `Compare` of the comparator. -/
def compare : ComparatorImpl → Bytes → Bytes → Ordering
  | builtIn order => order.compare
  | prefixed length => prefixCompare length

def width : ComparatorImpl → Nat
  | builtIn order => order.width
  | prefixed _ => 0

end ComparatorImpl

theorem bytewiseCompare_self (a : Bytes) : bytewiseCompare a a = .eq :=
  bytewiseComparator.compare_self

theorem bytewiseCompare_append (front a b : Bytes) :
    bytewiseCompare (front ++ a) (front ++ b) = bytewiseCompare a b := by
  induction front with
  | nil => rfl
  | cons x front ih =>
      rw [List.cons_append, List.cons_append, bytewiseCompare_cons_cons, ih]
      simp

section numeric
variable {width : Nat} {a b : Bytes}

theorem numericCompare_short (short : a.length < width ∨ b.length < width) :
    numericCompare width a b = bytewiseCompare a b := if_pos short

theorem numericCompare_pair (width : Nat) (a b : Bytes) : ∃ cmp : Comparator,
    numericCompare width a b = cmp.compare a b ∧ numericCompare width b a = cmp.compare b a := by
  by_cases short : a.length < width ∨ b.length < width
  · exact ⟨bytewiseComparator, numericCompare_short short, numericCompare_short short.symm⟩
  · rw [not_or, Nat.not_lt, Nat.not_lt] at short
    exact ⟨numericComparator width, (numericComparator_compare short.1 short.2).symm,
      (numericComparator_compare short.2 short.1).symm⟩

theorem numericCompare_swap (a b : Bytes) : numericCompare width a b = (numericCompare width b a).swap := by
  obtain ⟨cmp, here, back⟩ := numericCompare_pair width a b
  rw [here, back, Comparator.compare_swap]

theorem numericCompare_eq : numericCompare width a b = .eq ↔ a = b := by
  obtain ⟨cmp, here, _⟩ := numericCompare_pair width a b
  rw [here, Comparator.compare_eq]

theorem numericCompare_of_number (hasA : width ≤ a.length) (hasB : width ≤ b.length)
    (same : leadingNumber width a = leadingNumber width b) :
    numericCompare width a b = bytewiseCompare a b := by
  have lengths : (a.take width).length = (b.take width).length := by
    rw [List.length_take, List.length_take, Nat.min_eq_left hasA, Nat.min_eq_left hasB]
  have front : a.take width = b.take width := by
    have bytes := putFixed_decodeFixed (a.take width)
    unfold leadingNumber at same
    rw [same, lengths, putFixed_decodeFixed] at bytes
    exact bytes.symm
  have parts : bytewiseCompare a b = bytewiseCompare (a.drop width) (b.drop width) := by
    conv_lhs => rw [← List.take_append_drop width a, ← List.take_append_drop width b, front]
    exact bytewiseCompare_append _ _ _
  rw [numericCompare, if_neg (by omega), if_neg (by omega), if_neg (by omega), parts]
  split
  · rename_i exactly
    rw [List.drop_of_length_le exactly.1.le, List.drop_of_length_le exactly.2.le]
    rfl
  · rfl

theorem number_le_of_before (hasA : width ≤ a.length) (hasB : width ≤ b.length)
    (before : numericCompare width a b = .lt) : leadingNumber width a ≤ leadingNumber width b := by
  apply Nat.le_of_not_lt
  intro greater
  rw [numericCompare, if_neg (by omega), if_neg (by omega), if_pos greater] at before
  cases before

/-- No short key stands bytewise between two keys whose numbers are the other way about. -/
def NumbersInOrder (width : Nat) (keys : Set Bytes) : Prop :=
  ∀ x ∈ keys, ∀ short ∈ keys, ∀ y ∈ keys, width ≤ x.length → short.length < width →
    width ≤ y.length → bytewiseCompare x short = .lt → bytewiseCompare short y = .lt →
    leadingNumber width x ≤ leadingNumber width y

variable {keys : Set Bytes}

theorem NumbersInOrder.around (inOrder : NumbersInOrder width keys) {x short y : Bytes}
    (hx : x ∈ keys) (hs : short ∈ keys) (hy : y ∈ keys) (hasX : width ≤ x.length)
    (isShort : short.length < width) (hasY : width ≤ y.length)
    (left : numericCompare width x short = .lt) (right : numericCompare width short y = .lt) :
    numericCompare width x y = .lt := by
  rw [numericCompare_short (.inr isShort)] at left
  rw [numericCompare_short (.inl isShort)] at right
  have through : bytewiseCompare x y = .lt :=
    @Comparator.Before.trans bytewiseComparator _ _ _ left right
  rcases (inOrder x hx short hs y hy hasX isShort hasY left right).lt_or_eq with less | same
  · rw [numericCompare, if_neg (by omega), if_pos less]
  · rw [numericCompare_of_number hasX hasY same, through]

theorem numbersInOrder_of_acyclic (acyclic : Acyclic (numericCompare width) keys) :
    NumbersInOrder width keys := by
  intro x hx short hs y hy hasX isShort hasY left right
  rw [← numericCompare_short (.inr isShort)] at left
  rw [← numericCompare_short (.inl isShort)] at right
  apply number_le_of_before hasX hasY
  have notBack := acyclic x hx short hs y hy left right
  cases compared : numericCompare width x y with
  | lt => rfl
  | eq =>
      rw [numericCompare_eq.mp compared, numericCompare_swap, right] at left
      cases left
  | gt =>
      rw [numericCompare_swap, compared] at notBack
      exact absurd rfl notBack

theorem numericCompare_not_back {x y : Bytes} (xy : numericCompare width x y = .lt)
    (yx : numericCompare width y x = .lt) : False := by
  rw [numericCompare_swap, xy] at yx
  cases yx

theorem Comparator.no_round (cmp : Comparator) {a b c : Bytes} (ab : cmp.compare a b = .lt)
    (bc : cmp.compare b c = .lt) (ca : cmp.compare c a = .lt) : False :=
  Comparator.Before.not_before (Comparator.Before.trans ab bc) ca

/-- A round of three keys has a short one between two that are not, or only keys of one kind. -/
theorem NumbersInOrder.acyclic (inOrder : NumbersInOrder width keys) :
    Acyclic (numericCompare width) keys := by
  intro a ha b hb c hc ab bc ca
  -- with two short keys every pair of them is compared by its bytes
  have bytes (atAB : a.length < width ∨ b.length < width) (atBC : b.length < width ∨ c.length < width)
      (atCA : c.length < width ∨ a.length < width) : False := by
    rw [numericCompare_short atAB] at ab
    rw [numericCompare_short atBC] at bc
    rw [numericCompare_short atCA] at ca
    exact bytewiseComparator.no_round ab bc ca
  rcases lt_or_ge a.length width with shortA | longA
  · rcases lt_or_ge b.length width with shortB | longB
    · exact bytes (.inl shortA) (.inl shortB) (.inr shortA)
    rcases lt_or_ge c.length width with shortC | longC
    · exact bytes (.inl shortA) (.inr shortC) (.inr shortA)
    exact numericCompare_not_back (inOrder.around hc ha hb longC shortA longB ca ab) bc
  rcases lt_or_ge b.length width with shortB | longB
  · rcases lt_or_ge c.length width with shortC | longC
    · exact bytes (.inr shortB) (.inl shortB) (.inl shortC)
    exact numericCompare_not_back (inOrder.around ha hb hc longA shortB longC ab bc) ca
  rcases lt_or_ge c.length width with shortC | longC
  · exact numericCompare_not_back (inOrder.around hb hc ha longB shortC longA bc ca) ab
  rw [← numericComparator_compare longA longB] at ab
  rw [← numericComparator_compare longB longC] at bc
  rw [← numericComparator_compare longC longA] at ca
  exact (numericComparator width).no_round ab bc ca

theorem numericCompare_laws : Laws (numericCompare width) keys ↔ NumbersInOrder width keys := by
  rw [laws_iff_acyclic numericCompare_swap numericCompare_eq]
  exact ⟨numbersInOrder_of_acyclic, NumbersInOrder.acyclic⟩

end numeric

namespace ComparatorImpl

theorem prefixCompare_transCmp (length : Nat) : Std.TransCmp (prefixCompare length) where
  eq_swap := bytewiseComparator.trans.eq_swap
  isLE_trans := bytewiseComparator.trans.isLE_trans

/-- A comparator keeps the laws on a set of keys exactly when no key too short for a number stands
between two keys whose numbers are the other way about. -/
theorem laws_iff (order : ComparatorImpl) (keys : Set Bytes) :
    Laws order.compare keys ↔ NumbersInOrder order.width keys := by
  have no_width : ∀ order : ComparatorImpl, order.width = 0 → NumbersInOrder order.width keys := by
    intro order none x _ short _ y _ _ isShort
    rw [none] at isShort
    exact absurd isShort (Nat.not_lt_zero _)
  have total (cmp : Bytes → Bytes → Ordering) (trans : Std.TransCmp cmp) : Laws cmp keys :=
    laws_of_transCmp
  cases order with
  | prefixed length => exact iff_of_true (total _ (prefixCompare_transCmp length)) (no_width _ rfl)
  | builtIn order =>
      cases order with
      | bytewise => exact iff_of_true (total _ bytewiseComparator.trans) (no_width (builtIn .bytewise) rfl)
      | reverseBytewise =>
          exact iff_of_true (total _ reverseBytewiseComparator.trans)
            (no_width (builtIn .reverseBytewise) rfl)
      | numeric32 => exact numericCompare_laws
      | numeric64 => exact numericCompare_laws

theorem not_laws_of_short : ¬ ∀ order : ComparatorImpl, Laws order.compare Set.univ := by
  intro laws
  have round := (laws (builtIn .numeric32)).acyclic [0, 1, 0, 0] trivial [0, 2] trivial [1, 0, 0, 0] trivial
  exact round (by decide) (by decide) (by decide)

end ComparatorImpl
end Lrdb
