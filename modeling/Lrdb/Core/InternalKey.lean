import Mathlib.Tactic.Ring
import Lrdb.Util.Comparator

/-!
# Internal keys

A version of a user key is stored under the internal key made of the user key, a 56 bit sequence
and the kind of write. Its encoding is the user key followed by eight little-endian bytes.
-/

namespace Lrdb

/-- Little-endian encoding in `n` bytes. -/
def putFixed : Nat → Nat → Bytes
  | 0, _ => []
  | n + 1, value => UInt8.ofNat value :: putFixed n (value / 256)

def putFixed64 (value : Nat) : Bytes := putFixed 8 value

def decodeFixed : Bytes → Nat
  | [] => 0
  | b :: bs => b.toNat + 256 * decodeFixed bs

@[simp] theorem length_putFixed (n value : Nat) : (putFixed n value).length = n := by
  induction n generalizing value with
  | zero => rfl
  | succ n ih => simp [putFixed, ih]

theorem decodeFixed_putFixed (n value : Nat) : decodeFixed (putFixed n value) = value % 256 ^ n := by
  induction n generalizing value with
  | zero => simp [putFixed, decodeFixed, Nat.mod_one]
  | succ n ih =>
      rw [putFixed, decodeFixed, ih, pow_succ', Nat.mod_mul]
      simp

theorem decodeFixed_lt (bytes : Bytes) : decodeFixed bytes < 256 ^ bytes.length := by
  induction bytes with
  | nil => exact Nat.one_pos
  | cons b bs ih =>
      have byte := b.toNat_lt
      rw [decodeFixed, List.length_cons, pow_succ']
      omega

theorem putFixed_decodeFixed (bytes : Bytes) : putFixed bytes.length (decodeFixed bytes) = bytes := by
  induction bytes with
  | nil => rfl
  | cons b bs ih =>
      have byte := b.toNat_lt
      have rest : (b.toNat + 256 * decodeFixed bs) / 256 = decodeFixed bs := by omega
      rw [List.length_cons, decodeFixed, putFixed, rest, ih]
      congr 1
      apply UInt8.toNat_inj.mp
      rw [UInt8.toNat_ofNat']
      omega

def varintLength (value : Nat) : Nat :=
  if value < 2 ^ 7 then 1
  else if value < 2 ^ 14 then 2
  else if value < 2 ^ 21 then 3
  else if value < 2 ^ 28 then 4
  else 5

inductive ValueType where
  | kValue | kDeletion | kMerge
  deriving DecidableEq, Repr

def ValueType.toNat : ValueType → Nat
  | kValue => 1
  | kDeletion => 2
  | kMerge => 3

theorem ValueType.toNat_injective {a b : ValueType} (same : a.toNat = b.toNat) : a = b := by
  cases a <;> cases b <;> first | rfl | cases same

def sequenceLimit : Nat := 2 ^ 56

structure InternalKey where
  userKey : Key
  sequence : Nat
  type : ValueType
  bounded : sequence < sequenceLimit
  deriving DecidableEq

namespace InternalKey

/-- The constructor shifts the sequence left by eight bits and loses its upper byte. -/
def make (userKey : Key) (sequence : Nat) (type : ValueType) : InternalKey :=
  ⟨userKey, sequence % sequenceLimit, type, Nat.mod_lt _ (Nat.two_pow_pos _)⟩

@[simp] theorem make_userKey (k : Key) (s : Nat) (t : ValueType) :
    (make k s t).userKey = k := rfl

@[simp] theorem make_type (k : Key) (s : Nat) (t : ValueType) :
    (make k s t).type = t := rfl

theorem make_sequence {s : Nat} (bounded : s < sequenceLimit) (k : Key)
    (t : ValueType) : (make k s t).sequence = s := Nat.mod_eq_of_lt bounded

theorem make_self (k : InternalKey) : make k.userKey k.sequence k.type = k := by
  simp only [make, Nat.mod_eq_of_lt k.bounded]

def tag (k : InternalKey) : Nat := k.sequence * 256 + k.type.toNat

def encode (k : InternalKey) : Bytes := k.userKey ++ putFixed64 k.tag

@[simp] theorem length_encode (k : InternalKey) : k.encode.length = k.userKey.length + 8 := by
  simp [encode, putFixed64]

end InternalKey

/-- `coding::ParseInternalKey`: user key, sequence and type byte. -/
def parseInternalKey (internalKey : Bytes) : Option (Key × Nat × Nat) :=
  if internalKey.length < 8 then none
  else
    let tag := decodeFixed (internalKey.drop (internalKey.length - 8))
    some (internalKey.take (internalKey.length - 8), tag / 256, tag % 256)

private theorem tag_lt (k : InternalKey) : k.tag < 256 ^ 8 := by
  have sequence : k.sequence < 2 ^ 56 := k.bounded
  have type : k.type.toNat < 256 := by cases k.type <;> decide
  rw [InternalKey.tag]
  omega

theorem parse_encode (k : InternalKey) :
    parseInternalKey k.encode = some (k.userKey, k.sequence, k.type.toNat) := by
  have decoded : decodeFixed (putFixed64 k.tag) = k.tag := by
    rw [putFixed64, decodeFixed_putFixed, Nat.mod_eq_of_lt (tag_lt k)]
  have long : ¬ k.encode.length < 8 := by simp
  have split : k.encode.length - 8 = k.userKey.length := by simp
  have type : k.type.toNat < 256 := by cases k.type <;> decide
  have high : k.tag / 256 = k.sequence := by rw [InternalKey.tag]; omega
  have low : k.tag % 256 = k.type.toNat := by rw [InternalKey.tag]; omega
  rw [parseInternalKey, if_neg long, split, InternalKey.encode, List.drop_left, List.take_left,
    decoded]
  simp only [high, low]

theorem encode_injective {a b : InternalKey} (same : a.encode = b.encode) : a = b := by
  have parsed := congrArg parseInternalKey same
  rw [parse_encode, parse_encode] at parsed
  obtain ⟨keys, sequences, types⟩ : a.userKey = b.userKey ∧ a.sequence = b.sequence ∧
      a.type.toNat = b.type.toNat := by simpa using parsed
  cases a
  cases b
  simp only at keys sequences types
  subst keys sequences
  cases ValueType.toNat_injective types
  rfl

/-- User key ascending, then sequence descending, then type ascending. -/
def internalCompare (cmp : Comparator) (a b : InternalKey) : Ordering :=
  (cmp.compare a.userKey b.userKey).then
    ((compare b.sequence a.sequence).then (compare a.type.toNat b.type.toNat))

instance (cmp : Comparator) : Std.TransCmp (internalCompare cmp) := by
  have numbers : Std.TransCmp (compare : Nat → Nat → Ordering) := inferInstance
  have keys : Std.TransCmp fun a b : InternalKey => cmp.compare a.userKey b.userKey :=
    { eq_swap := cmp.trans.eq_swap
      isLE_trans := cmp.trans.isLE_trans }
  have sequences : Std.TransCmp fun a b : InternalKey => compare b.sequence a.sequence :=
    { eq_swap := numbers.eq_swap
      isLE_trans := fun ab bc => numbers.isLE_trans bc ab }
  have types : Std.TransCmp fun a b : InternalKey => compare a.type.toNat b.type.toNat :=
    { eq_swap := numbers.eq_swap
      isLE_trans := numbers.isLE_trans }
  have inner : Std.TransCmp (compareLex (fun a b : InternalKey => compare b.sequence a.sequence)
      fun a b => compare a.type.toNat b.type.toNat) := inferInstance
  exact inferInstanceAs (Std.TransCmp (compareLex
    (fun a b : InternalKey => cmp.compare a.userKey b.userKey) (compareLex
      (fun a b => compare b.sequence a.sequence) fun a b => compare a.type.toNat b.type.toNat)))

theorem internalCompare_eq {cmp : Comparator} {a b : InternalKey} :
    internalCompare cmp a b = .eq ↔ a = b := by
  constructor
  · intro equal
    simp only [internalCompare, Ordering.then_eq_eq, Nat.compare_eq_eq, Comparator.compare_eq]
      at equal
    obtain ⟨keys, sequences, types⟩ := equal
    cases a
    cases b
    simp only at keys sequences types
    subst keys sequences
    cases ValueType.toNat_injective types
    rfl
  · rintro rfl
    simp [internalCompare]

instance (cmp : Comparator) : Std.LawfulEqCmp (internalCompare cmp) where
  compare_self := internalCompare_eq.mpr rfl
  eq_of_compare := internalCompare_eq.mp

theorem internalCompare_lt {cmp : Comparator} {a b : InternalKey} :
    internalCompare cmp a b = .lt ↔ cmp.Before a.userKey b.userKey ∨
      a.userKey = b.userKey ∧ (b.sequence < a.sequence ∨
        a.sequence = b.sequence ∧ a.type.toNat < b.type.toNat) := by
  simp only [internalCompare, Ordering.then_eq_lt, Nat.compare_eq_lt, Nat.compare_eq_eq,
    Comparator.compare_eq, Comparator.Before, eq_comm (a := b.sequence)]

end Lrdb
