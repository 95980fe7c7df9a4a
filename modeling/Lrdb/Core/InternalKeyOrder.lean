import Lrdb.Core.InternalKey
import Lrdb.Base.Orders

/-!
# The order of internal keys

Three functions of the source compare internal keys as bytes, each with an unpacking of its own. On keys
that were put together from a user key, a sequence of 56 bits and a type they agree in sign: the user key
ascending, then the sequence descending, then the type ascending.
-/

namespace Lrdb
open Orders

/-- What an `int` returned by a comparison says. -/
def signOf (result : Int) : Ordering := compare result 0

@[simp] theorem signOf_eq {result : Int} : signOf result = .eq ↔ result = 0 := by
  unfold signOf
  exact Std.LawfulEqCmp.compare_eq_iff_eq

@[simp] theorem signOf_zero : signOf 0 = .eq := rfl
@[simp] theorem signOf_neg_one : signOf (-1) = .lt := rfl
@[simp] theorem signOf_one : signOf 1 = .gt := rfl

theorem signOf_then (first rest : Int) :
    signOf (if first ≠ 0 then first else rest) = (signOf first).then (signOf rest) := by
  by_cases zero : first = 0
  · simp [zero]
  · rw [if_pos zero]
    cases sign : signOf first with
    | lt => rfl
    | eq => exact absurd (signOf_eq.mp sign) zero
    | gt => rfl

theorem signOf_descending (a b : Nat) (rest : Int) :
    signOf (if b < a then -1 else if a < b then 1 else rest) = (compare b a).then (signOf rest) := by
  rcases Nat.lt_trichotomy b a with less | rfl | greater
  · rw [if_pos less, Nat.compare_eq_lt.mpr less]
    rfl
  · simp
  · rw [if_neg (Nat.lt_asymm greater), if_pos greater, Nat.compare_eq_gt.mpr greater]
    rfl

theorem signOf_sub (a b : Nat) : signOf ((a : Int) - b) = compare a b := by
  rcases Nat.lt_trichotomy a b with less | rfl | greater
  · rw [Nat.compare_eq_lt.mpr less]
    exact compare_lt_iff_lt.mpr (by omega)
  · simp
  · rw [Nat.compare_eq_gt.mpr greater]
    exact compare_gt_iff_gt.mpr (by omega)

/-- A comparator of user keys with the `int` it returns. -/
structure UserComparator where
  compare : Bytes → Bytes → Int
  ordered : Std.TransCmp fun a b => signOf (compare a b)

attribute [instance] UserComparator.ordered

/-- `Slice::compare`. -/
def sliceCompare (a b : Bytes) : Int :=
  match memcmp (min a.length b.length) a b with
  | .lt => -1
  | .gt => 1
  | .eq => if a.length < b.length then -1 else if b.length < a.length then 1 else 0

def putInternalKey (dst userKey : Bytes) (sequence : UInt64) (type : UInt8) : Bytes :=
  dst ++ userKey ++ putFixed64 ((sequence <<< 8) ||| type.toUInt64).toNat

section comparisons
variable (user : UserComparator)

/-- `InternalKeyComparator::Compare`. -/
def internalKeyComparator (a b : Bytes) : Int :=
  match parseInternalKey a, parseInternalKey b with
  | some (userKeyA, seqA, typeA), some (userKeyB, seqB, typeB) =>
      let userCmp := user.compare userKeyA userKeyB
      if userCmp ≠ 0 then userCmp
      else if seqB < seqA then -1
      else if seqA < seqB then 1
      else (typeA : Int) - typeB
  | _, _ => sliceCompare a b

/-- `LSMTreeMergeIterator::CompareInternalKeys`. -/
def compareInternalKeys (a b : Bytes) : Int :=
  match parseInternalKey a, parseInternalKey b with
  | some (ua, sa, ta), some (ub, sb, tb) =>
      let cmp := user.compare ua ub
      if cmp ≠ 0 then cmp
      else if sa ≠ sb then (if sb < sa then -1 else 1)
      else if ta ≠ tb then (if ta < tb then -1 else 1)
      else 0
  | _, _ => sliceCompare a b

/-! An `InternalKey` of the source is its bytes; what it says of itself is parsed out of them. -/

def encodedUserKey (data : Bytes) : Bytes :=
  match parseInternalKey data with
  | some (userKey, _, _) => userKey
  | none => []

def encodedSequence (data : Bytes) : Nat :=
  match parseInternalKey data with
  | some (_, sequence, _) => sequence
  | none => 0

def encodedType (data : Bytes) : Nat :=
  match parseInternalKey data with
  | some (_, _, type) => type
  | none => ValueType.kValue.toNat

/-- `InternalKey::Compare`. -/
def internalKeyCompare (data other : Bytes) : Int :=
  let userCmp := user.compare (encodedUserKey data) (encodedUserKey other)
  if userCmp ≠ 0 then userCmp
  else
    let seq1 := encodedSequence data
    let seq2 := encodedSequence other
    if seq2 < seq1 then -1
    else if seq1 < seq2 then 1
    else (encodedType data : Int) - encodedType other

end comparisons

/-! ## Well-formed keys -/

structure KeyParts where
  userKey : Key
  sequence : UInt64
  type : UInt8
  bounded : sequence.toNat < sequenceLimit

namespace KeyParts

def put (k : KeyParts) : Bytes := putInternalKey [] k.userKey k.sequence k.type

theorem tag_eq (k : KeyParts) :
    ((k.sequence <<< 8) ||| k.type.toUInt64).toNat = k.sequence.toNat * 256 + k.type.toNat := by
  have bounded : k.sequence.toNat < 2 ^ 56 := k.bounded
  have byte : k.type.toNat < 2 ^ 8 := k.type.toNat_lt
  have shifted : (k.sequence <<< 8).toNat = 2 ^ 8 * k.sequence.toNat := by
    rw [UInt64.toNat_shiftLeft, Nat.shiftLeft_eq, Nat.mod_eq_of_lt, Nat.mul_comm]
    · rfl
    · change k.sequence.toNat * 2 ^ 8 < 2 ^ 64
      omega
  rw [UInt64.toNat_or, shifted, UInt8.toNat_toUInt64, ← Nat.two_pow_add_eq_or_of_lt byte]
  omega

theorem parse_put (k : KeyParts) :
    parseInternalKey k.put = some (k.userKey, k.sequence.toNat, k.type.toNat) := by
  have bounded : k.sequence.toNat < 2 ^ 56 := k.bounded
  have byte : k.type.toNat < 256 := k.type.toNat_lt
  have fits : k.sequence.toNat * 256 + k.type.toNat < 256 ^ 8 := by omega
  have length : k.put.length = k.userKey.length + 8 := by simp [put, putInternalKey, putFixed64]
  have tag : k.put.drop k.userKey.length = putFixed 8 (k.sequence.toNat * 256 + k.type.toNat) := by
    rw [put, putInternalKey, tag_eq, List.nil_append, List.drop_left, putFixed64]
  have key : k.put.take k.userKey.length = k.userKey := by
    rw [put, putInternalKey, List.nil_append, List.take_left]
  have high : (k.sequence.toNat * 256 + k.type.toNat) / 256 = k.sequence.toNat := by omega
  have low : (k.sequence.toNat * 256 + k.type.toNat) % 256 = k.type.toNat := by omega
  rw [parseInternalKey, if_neg (by omega), length, Nat.add_sub_cancel, tag, key]
  simp only [decodeFixed_putFixed, Nat.mod_eq_of_lt fits, high, low]

def order (user : UserComparator) (a b : KeyParts) : Ordering :=
  (signOf (user.compare a.userKey b.userKey)).then
    ((compare b.sequence.toNat a.sequence.toNat).then (compare a.type.toNat b.type.toNat))

instance (user : UserComparator) : Std.TransCmp (order user) := by
  have numbers : Std.TransCmp (compare : Nat → Nat → Ordering) := inferInstance
  have keys : Std.TransCmp fun a b : KeyParts => signOf (user.compare a.userKey b.userKey) :=
    { eq_swap := user.ordered.eq_swap
      isLE_trans := user.ordered.isLE_trans }
  have sequences : Std.TransCmp fun a b : KeyParts => compare b.sequence.toNat a.sequence.toNat :=
    { eq_swap := numbers.eq_swap
      isLE_trans := fun ab bc => numbers.isLE_trans bc ab }
  have types : Std.TransCmp fun a b : KeyParts => compare a.type.toNat b.type.toNat :=
    { eq_swap := numbers.eq_swap
      isLE_trans := numbers.isLE_trans }
  have inner : Std.TransCmp (compareLex
      (fun a b : KeyParts => compare b.sequence.toNat a.sequence.toNat)
      fun a b => compare a.type.toNat b.type.toNat) := inferInstance
  exact inferInstanceAs (Std.TransCmp (compareLex
    (fun a b : KeyParts => signOf (user.compare a.userKey b.userKey)) (compareLex
      (fun a b => compare b.sequence.toNat a.sequence.toNat)
      fun a b => compare a.type.toNat b.type.toNat)))

variable {user : UserComparator} {a b : KeyParts}

theorem order_eq : order user a b = .eq ↔
    user.compare a.userKey b.userKey = 0 ∧ a.sequence = b.sequence ∧ a.type = b.type := by
  simp only [order, Ordering.then_eq_eq, signOf_eq, Nat.compare_eq_eq, UInt64.toNat_inj,
    UInt8.toNat_inj, eq_comm (a := b.sequence)]

theorem signOf_internalKeyComparator (user : UserComparator) (a b : KeyParts) :
    signOf (internalKeyComparator user a.put b.put) = order user a b := by
  rw [internalKeyComparator, parse_put, parse_put]
  simp only
  rw [signOf_then, signOf_descending, signOf_sub]
  rfl

theorem internalKeyCompare_eq (user : UserComparator) (a b : KeyParts) :
    internalKeyCompare user a.put b.put = internalKeyComparator user a.put b.put := by
  simp only [internalKeyCompare, internalKeyComparator, encodedUserKey, encodedSequence, encodedType,
    parse_put]

theorem signOf_compareInternalKeys (user : UserComparator) (a b : KeyParts) :
    signOf (compareInternalKeys user a.put b.put) = order user a b := by
  have sequences (sa sb : Nat) (rest : Int) :
      (if sa ≠ sb then (if sb < sa then -1 else 1) else rest) =
        if sb < sa then -1 else if sa < sb then 1 else rest := by
    rcases Nat.lt_trichotomy sa sb with less | rfl | greater
    · rw [if_pos less.ne, if_neg less.not_gt, if_neg less.not_gt, if_pos less]
    · simp
    · rw [if_pos greater.ne', if_pos greater, if_pos greater]
  have types (ta tb : Nat) : signOf (if ta ≠ tb then (if ta < tb then -1 else 1) else 0) =
      compare ta tb := by
    rcases Nat.lt_trichotomy ta tb with less | rfl | greater
    · rw [if_pos less.ne, if_pos less, Nat.compare_eq_lt.mpr less]
      rfl
    · simp
    · rw [if_pos greater.ne', if_neg greater.not_gt, Nat.compare_eq_gt.mpr greater]
      rfl
  rw [compareInternalKeys, parse_put, parse_put]
  simp only
  rw [signOf_then, sequences, signOf_descending, types]
  rfl

end KeyParts

/-! ## The keys of the stores -/

/-- An `int` that says the same. -/
def orderingInt : Ordering → Int
  | .lt => -1
  | .eq => 0
  | .gt => 1

@[simp] theorem signOf_orderingInt (o : Ordering) : signOf (orderingInt o) = o := by cases o <;> rfl

def Comparator.toUser (cmp : Comparator) : UserComparator where
  compare a b := orderingInt (cmp.compare a b)
  ordered := by
    simp only [signOf_orderingInt]
    exact cmp.trans

theorem signOf_toUser (cmp : Comparator) (a b : Bytes) :
    signOf (cmp.toUser.compare a b) = cmp.compare a b := signOf_orderingInt _

def InternalKey.parts (k : InternalKey) : KeyParts where
  userKey := k.userKey
  sequence := UInt64.ofNat k.sequence
  type := UInt8.ofNat k.type.toNat
  bounded := by
    have bounded : k.sequence < 2 ^ 56 := k.bounded
    rw [UInt64.toNat_ofNat', Nat.mod_eq_of_lt (by omega)]
    exact k.bounded

theorem InternalKey.parts_sequence (k : InternalKey) : k.parts.sequence.toNat = k.sequence := by
  have bounded : k.sequence < 2 ^ 56 := k.bounded
  exact UInt64.toNat_ofNat_of_lt (bounded.trans (by decide))

theorem InternalKey.parts_type (k : InternalKey) : k.parts.type.toNat = k.type.toNat := by
  rw [parts]
  cases k.type <;> rfl

theorem InternalKey.put_parts (k : InternalKey) : k.parts.put = k.encode := by
  rw [KeyParts.put, putInternalKey, KeyParts.tag_eq, parts_sequence, parts_type]
  rfl

theorem signOf_internalKeyComparator_encode (cmp : Comparator) (a b : InternalKey) :
    signOf (internalKeyComparator cmp.toUser a.encode b.encode) = internalCompare cmp a b := by
  rw [← a.put_parts, ← b.put_parts, KeyParts.signOf_internalKeyComparator, KeyParts.order, signOf_toUser,
    a.parts_sequence, b.parts_sequence, a.parts_type, b.parts_type]
  rfl

theorem internal_key_order (user : UserComparator) :
    (∀ k : KeyParts, parseInternalKey k.put = some (k.userKey, k.sequence.toNat, k.type.toNat)) ∧
      Laws (fun a b => signOf (internalKeyComparator user a b)) (Set.range KeyParts.put) ∧
      ∀ a b : KeyParts,
        signOf (internalKeyComparator user a.put b.put) = KeyParts.order user a b ∧
        (internalKeyComparator user a.put b.put = 0 ↔
          user.compare a.userKey b.userKey = 0 ∧ a.sequence = b.sequence ∧ a.type = b.type) ∧
        signOf (compareInternalKeys user a.put b.put) = signOf (internalKeyComparator user a.put b.put) ∧
        signOf (internalKeyCompare user a.put b.put) = signOf (internalKeyComparator user a.put b.put) := by
  refine ⟨KeyParts.parse_put, ?_, ?_⟩
  · exact laws_range (KeyParts.signOf_internalKeyComparator user)
  · intro a b
    have sign := KeyParts.signOf_internalKeyComparator user a b
    refine ⟨sign, ?_, ?_, ?_⟩
    · rw [← signOf_eq, sign, KeyParts.order_eq]
    · rw [sign, KeyParts.signOf_compareInternalKeys]
    · rw [KeyParts.internalKeyCompare_eq]

end Lrdb
