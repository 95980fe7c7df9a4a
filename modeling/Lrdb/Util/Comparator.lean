import Mathlib.Order.Compare
import Mathlib.Order.Defs.Unbundled
import Mathlib.Data.UInt
import Lrdb.Core.Status

/-!
# Comparators

A comparator is a total order on byte strings. `Compare` returns a negative, zero or positive
number in the source, an `Ordering` here.
-/

namespace Lrdb

structure Comparator where
  compare : Bytes → Bytes → Ordering
  trans : Std.TransCmp compare
  lawful : Std.LawfulEqCmp compare

attribute [instance] Comparator.trans Comparator.lawful

namespace Comparator
variable (cmp : Comparator)

/-- The key `a` sorts before the key `b`. -/
def Before (a b : Bytes) : Prop := cmp.compare a b = .lt

instance (a b : Bytes) : Decidable (cmp.Before a b) := by
  unfold Before; infer_instance

variable {cmp} {a b c : Bytes}

theorem compare_eq : cmp.compare a b = .eq ↔ a = b := Std.LawfulEqCmp.compare_eq_iff_eq

@[simp] theorem compare_self : cmp.compare a a = .eq := compare_eq.mpr rfl

theorem compare_swap : cmp.compare a b = (cmp.compare b a).swap := Std.OrientedCmp.eq_swap

theorem compare_gt : cmp.compare a b = .gt ↔ cmp.Before b a := by
  rw [compare_swap, Before, Ordering.swap_eq_gt]

theorem Before.trans (ab : cmp.Before a b) (bc : cmp.Before b c) : cmp.Before a c :=
  Std.TransCmp.lt_trans ab bc

theorem Before.ne (ab : cmp.Before a b) : a ≠ b := by
  rintro rfl
  simp [Before] at ab

theorem Before.not_before (ab : cmp.Before a b) : ¬ cmp.Before b a :=
  fun ba => (ab.trans ba).ne rfl

theorem before_or_eq_or_before (cmp : Comparator) (a b : Bytes) :
    cmp.Before a b ∨ a = b ∨ cmp.Before b a := by
  cases compared : cmp.compare a b with
  | lt => exact .inl compared
  | eq => exact .inr (.inl (compare_eq.mp compared))
  | gt => exact .inr (.inr (compare_gt.mp compared))

theorem not_before : ¬ cmp.Before a b ↔ a = b ∨ cmp.Before b a := by
  constructor
  · intro notBefore
    exact (before_or_eq_or_before cmp a b).resolve_left notBefore
  · rintro (rfl | ba)
    · exact fun ab => ab.ne rfl
    · exact ba.not_before

instance (cmp : Comparator) : IsStrictTotalOrder Bytes cmp.Before where
  trichotomous a b := by
    intro notBefore notAfter
    exact (not_before.mp notBefore).resolve_right notAfter
  irrefl a before := before.ne rfl
  trans a b c := Before.trans

end Comparator

/-- The first `n` bytes compared as unsigned numbers. -/
def memcmp : Nat → Bytes → Bytes → Ordering
  | n + 1, a :: as, b :: bs => (compare a b).then (memcmp n as bs)
  | _, _, _ => .eq

def bytewiseCompare (a b : Bytes) : Ordering :=
  (memcmp (min a.length b.length) a b).then (compare a.length b.length)

@[simp] theorem bytewiseCompare_nil_nil : bytewiseCompare [] [] = .eq := rfl

@[simp] theorem bytewiseCompare_nil_cons (b : UInt8) (bs : Bytes) :
    bytewiseCompare [] (b :: bs) = .lt := by
  simp [bytewiseCompare, memcmp, compare, compareOfLessAndEq]

@[simp] theorem bytewiseCompare_cons_nil (a : UInt8) (as : Bytes) :
    bytewiseCompare (a :: as) [] = .gt := by
  simp [bytewiseCompare, memcmp, compare, compareOfLessAndEq]

@[simp] theorem bytewiseCompare_cons_cons (a b : UInt8) (as bs : Bytes) :
    bytewiseCompare (a :: as) (b :: bs) = (compare a b).then (bytewiseCompare as bs) := by
  have lengths : compare (as.length + 1) (bs.length + 1) = compare as.length bs.length := by
    simp [compare, compareOfLessAndEq]
  simp only [bytewiseCompare, List.length_cons, Nat.add_min_add_right, memcmp, lengths,
    Ordering.then_assoc]

theorem bytewiseCompare_eq_compare (a b : Bytes) : bytewiseCompare a b = compare a b := by
  induction a generalizing b with
  | nil => cases b <;> simp
  | cons a as ih =>
      cases b with
      | nil => simp
      | cons b bs =>
          rw [bytewiseCompare_cons_cons, ih, List.compare_eq_compareLex,
            List.compareLex_cons_cons, ← List.compare_eq_compareLex]

theorem bytewiseCompare_eq : bytewiseCompare = compare :=
  funext fun a => funext fun b => bytewiseCompare_eq_compare a b

def bytewiseComparator : Comparator where
  compare := bytewiseCompare
  trans := by rw [bytewiseCompare_eq]; infer_instance
  lawful := by rw [bytewiseCompare_eq]; infer_instance

end Lrdb
