import Lrdb.Core.InternalKey

/-!
# The built-in comparators

Bytewise, reverse bytewise, and by a number at the front of the key. The last is a total order on the
keys that have the width of the number.
-/

namespace Lrdb

/-- `ReverseBytewiseComparatorImpl::Compare`. -/
def reverseBytewiseCompare (a b : Bytes) : Ordering := (bytewiseCompare a b).swap

def leadingNumber (width : Nat) (key : Bytes) : Nat := decodeFixed (key.take width)

/-- `NumericComparatorImpl::Compare` of a type of this width. -/
def numericCompare (width : Nat) (a b : Bytes) : Ordering :=
  if a.length < width ∨ b.length < width then bytewiseCompare a b
  else if leadingNumber width a < leadingNumber width b then .lt
  else if leadingNumber width b < leadingNumber width a then .gt
  else if a.length = width ∧ b.length = width then .eq
  else bytewiseCompare (a.drop width) (b.drop width)

theorem reverseBytewiseCompare_eq (a b : Bytes) : reverseBytewiseCompare a b = bytewiseCompare b a :=
  bytewiseComparator.trans.eq_swap.symm

def reverseBytewiseComparator : Comparator where
  compare := reverseBytewiseCompare
  trans :=
    { eq_swap := fun {a b} => by
        rw [reverseBytewiseCompare_eq, reverseBytewiseCompare_eq]
        exact bytewiseComparator.trans.eq_swap
      isLE_trans := fun {a b c} ab bc => by
        rw [reverseBytewiseCompare_eq] at *
        exact bytewiseComparator.trans.isLE_trans bc ab }
  lawful :=
    { compare_self := fun {a} => by
        rw [reverseBytewiseCompare_eq]
        exact bytewiseComparator.lawful.compare_self
      eq_of_compare := fun {a b} equal => by
        rw [reverseBytewiseCompare_eq] at equal
        exact (bytewiseComparator.lawful.eq_of_compare equal).symm }

def numberOf (width : Nat) (key : Bytes) : Nat :=
  if key.length < width then 0 else leadingNumber width key

def restOf (width : Nat) (key : Bytes) : Bytes :=
  if key.length < width then key else key.drop width

def numericOrder (width : Nat) : Bytes → Bytes → Ordering :=
  compareLex (fun a b => compare (decide (width ≤ a.length)) (decide (width ≤ b.length)))
    (compareLex (fun a b => compare (numberOf width a) (numberOf width b))
      fun a b => bytewiseCompare (restOf width a) (restOf width b))

theorem eq_of_parts {width : Nat} {a b : Bytes}
    (long : decide (width ≤ a.length) = decide (width ≤ b.length))
    (number : numberOf width a = numberOf width b) (rest : restOf width a = restOf width b) :
    a = b := by
  unfold numberOf leadingNumber at number
  unfold restOf at rest
  have same : width ≤ a.length ↔ width ≤ b.length := decide_eq_decide.mp long
  by_cases short : a.length < width
  · rwa [if_pos short, if_pos (by omega)] at rest
  · rw [if_neg short, if_neg (by omega)] at rest number
    have lengths : (a.take width).length = (b.take width).length := by
      rw [List.length_take, List.length_take]
      omega
    have front := putFixed_decodeFixed (a.take width)
    rw [number, lengths, putFixed_decodeFixed] at front
    rw [← List.take_append_drop width a, ← List.take_append_drop width b, front, rest]

/-- The order of `NumericComparatorImpl` on keys that have a number, extended to all keys. -/
def numericComparator (width : Nat) : Comparator where
  compare := numericOrder width
  trans := by
    have long : Std.TransCmp fun a b : Bytes =>
        compare (decide (width ≤ a.length)) (decide (width ≤ b.length)) :=
      inferInstanceAs (Std.TransCmp (compareOn fun a : Bytes => decide (width ≤ a.length)))
    have number : Std.TransCmp fun a b : Bytes => compare (numberOf width a) (numberOf width b) :=
      inferInstanceAs (Std.TransCmp (compareOn (numberOf width)))
    have rest : Std.TransCmp fun a b : Bytes => bytewiseCompare (restOf width a) (restOf width b) :=
      { eq_swap := bytewiseComparator.trans.eq_swap
        isLE_trans := bytewiseComparator.trans.isLE_trans }
    exact inferInstanceAs (Std.TransCmp (compareLex _ (compareLex _ _)))
  lawful :=
    { compare_self := fun {a} => by
        have rest : bytewiseCompare (restOf width a) (restOf width a) = .eq :=
          bytewiseComparator.lawful.compare_self
        simp [numericOrder, compareLex, rest]
      eq_of_compare := fun {a b} equal => by
        simp only [numericOrder, compareLex, Ordering.then_eq_eq, Std.LawfulEqCmp.compare_eq_iff_eq]
          at equal
        exact eq_of_parts equal.1 equal.2.1 (bytewiseComparator.lawful.eq_of_compare equal.2.2) }

theorem numericComparator_compare {width : Nat} {a b : Bytes} (hasA : width ≤ a.length)
    (hasB : width ≤ b.length) : (numericComparator width).compare a b = numericCompare width a b := by
  have shortA : ¬ a.length < width := Nat.not_lt.mpr hasA
  have shortB : ¬ b.length < width := Nat.not_lt.mpr hasB
  have shape : (numericComparator width).compare a b =
      (compare (leadingNumber width a) (leadingNumber width b)).then
        (bytewiseCompare (a.drop width) (b.drop width)) := by
    show numericOrder width a b = _
    simp [numericOrder, compareLex, numberOf, restOf, hasA, hasB, shortA, shortB]
  rw [shape, numericCompare, if_neg (by omega)]
  rcases lt_trichotomy (leadingNumber width a) (leadingNumber width b) with less | same | greater
  · rw [if_pos less, Nat.compare_eq_lt.mpr less]
    rfl
  · rw [if_neg (by omega), if_neg (by omega), Nat.compare_eq_eq.mpr same]
    split
    · rename_i exactly
      rw [List.drop_of_length_le exactly.1.le, List.drop_of_length_le exactly.2.le]
      rfl
    · rfl
  · rw [if_neg (by omega), if_pos greater, Nat.compare_eq_gt.mpr greater]
    rfl

/-! ## The comparators a column family can be given -/

inductive BuiltIn where
  | bytewise | reverseBytewise | numeric32 | numeric64
  deriving DecidableEq, Repr

namespace BuiltIn

/-- `Compare` of the comparator. -/
def compare : BuiltIn → Bytes → Bytes → Ordering
  | bytewise => bytewiseCompare
  | reverseBytewise => reverseBytewiseCompare
  | numeric32 => numericCompare 4
  | numeric64 => numericCompare 8

def width : BuiltIn → Nat
  | bytewise | reverseBytewise => 0
  | numeric32 => 4
  | numeric64 => 8

def Fits (order : BuiltIn) (key : Key) : Prop := order.width = 0 ∨ key.length = order.width

instance (order : BuiltIn) (key : Key) : Decidable (order.Fits key) :=
  inferInstanceAs (Decidable (_ ∨ _))

def comparator : BuiltIn → Comparator
  | bytewise => bytewiseComparator
  | reverseBytewise => reverseBytewiseComparator
  | numeric32 => numericComparator 4
  | numeric64 => numericComparator 8

theorem comparator_compare {order : BuiltIn} {a b : Bytes} (hasA : order.width ≤ a.length)
    (hasB : order.width ≤ b.length) : order.comparator.compare a b = order.compare a b := by
  cases order with
  | bytewise | reverseBytewise => rfl
  | numeric32 | numeric64 => exact numericComparator_compare hasA hasB

theorem Fits.le {order : BuiltIn} {key : Key} (fits : order.Fits key) : order.width ≤ key.length := by
  rcases fits with none | same <;> omega

end BuiltIn
end Lrdb
