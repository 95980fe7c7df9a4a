import Lrdb.Util.ComparatorLaws

/-!
# Separators and successors

A key between two keys, and a key not before a key, that are no longer than the given one. The
reverse comparator takes its separator from the bytewise one with the keys exchanged, which leaves
its second key as it is when there is no byte between: that is the limit, and no separator.
-/

namespace Lrdb

/-- `BytewiseComparatorImpl::FindShortestSeparator`. The recursion is over the equal bytes in front. -/
def bytewiseSeparator : Bytes → Bytes → Bytes
  | a :: start, b :: limit =>
      if a = b then a :: bytewiseSeparator start limit
      else if a < 0xff ∧ a.toNat + 1 < b.toNat then [a + 1]
      else a :: start
  | start, _ => start

/-- `BytewiseComparatorImpl::FindShortSuccessor`. -/
def bytewiseSuccessor : Bytes → Bytes
  | [] => []
  | b :: key => if b ≠ 0xff then [b + 1] else b :: bytewiseSuccessor key

/-- The second loop of `ReverseBytewiseComparatorImpl::FindShortSuccessor`. -/
def predecessor : Bytes → Bytes
  | [] => []
  | b :: key => if 0 < b then (b - 1) :: key.map fun _ => 0xff else b :: predecessor key

/-- `NumericComparatorImpl::FindShortestSeparator`. -/
def numericSeparator (width : Nat) (start limit : Bytes) : Bytes :=
  if width ≤ start.length ∧ width ≤ limit.length ∧
      leadingNumber width start < leadingNumber width limit ∧
      leadingNumber width start + 1 < leadingNumber width limit then
    putFixed width (leadingNumber width start + 1)
  else bytewiseSeparator start limit

/-- `NumericComparatorImpl::FindShortSuccessor`. -/
def numericSuccessor (width : Nat) (key : Bytes) : Bytes :=
  if width ≤ key.length ∧ leadingNumber width key < 256 ^ width - 1 then
    putFixed width (leadingNumber width key + 1)
  else bytewiseSuccessor key

namespace ComparatorImpl

/-- `FindShortestSeparator` of the comparator. -/
def findShortestSeparator : ComparatorImpl → Bytes → Bytes → Bytes
  | builtIn .bytewise, start, limit => bytewiseSeparator start limit
  | builtIn .reverseBytewise, start, limit => bytewiseSeparator limit start
  | builtIn .numeric32, start, limit => numericSeparator 4 start limit
  | builtIn .numeric64, start, limit => numericSeparator 8 start limit
  | prefixed length, start, limit => bytewiseSeparator (start.take length) (limit.take length)

/-- `FindShortSuccessor` of the comparator. -/
def findShortSuccessor : ComparatorImpl → Bytes → Bytes
  | builtIn .bytewise, key => bytewiseSuccessor key
  | builtIn .reverseBytewise, key => predecessor (bytewiseSuccessor key)
  | builtIn .numeric32, key => numericSuccessor 4 key
  | builtIn .numeric64, key => numericSuccessor 8 key
  | prefixed length, key => bytewiseSuccessor (key.take length)

def Fits : ComparatorImpl → Key → Prop
  | builtIn order => order.Fits
  | prefixed _ => fun _ => True

end ComparatorImpl

/-! ## Bytewise -/

def Spaced : Bytes → Bytes → Prop
  | a :: start, b :: limit => if a = b then Spaced start limit else a.toNat + 1 < b.toNat
  | _, _ => False

instance decidableSpaced : (a b : Bytes) → Decidable (Spaced a b)
  | a :: start, b :: limit =>
      have := decidableSpaced start limit
      inferInstanceAs (Decidable (if a = b then Spaced start limit else a.toNat + 1 < b.toNat))
  | [], _ => inferInstanceAs (Decidable False)
  | _ :: _, [] => inferInstanceAs (Decidable False)

theorem toNat_succ {b : UInt8} (small : b ≠ 0xff) : (b + 1).toNat = b.toNat + 1 := by
  have inside := b.toNat_lt
  have notLast : b.toNat ≠ 255 := fun same => small (UInt8.toNat_inj.mp same)
  rw [UInt8.toNat_add]
  show (b.toNat + 1) % 256 = b.toNat + 1
  omega

theorem bytewiseCompare_lt_of_byte {a b : UInt8} (less : a.toNat < b.toNat) (as bs : Bytes) :
    bytewiseCompare (a :: as) (b :: bs) = .lt := by
  have first : compare a b = .lt := compareOfLessAndEq_eq_lt.mpr (UInt8.lt_iff_toNat_lt.mpr less)
  rw [bytewiseCompare_cons_cons, first]
  rfl

theorem bytewiseCompare_cons (a : UInt8) (as bs : Bytes) :
    bytewiseCompare (a :: as) (a :: bs) = bytewiseCompare as bs := bytewiseCompare_append [a] as bs

theorem bytewiseSeparator_of_not_spaced {start limit : Bytes} (dense : ¬ Spaced start limit) :
    bytewiseSeparator start limit = start := by
  induction start generalizing limit with
  | nil => rfl
  | cons a start ih =>
      cases limit with
      | nil => rfl
      | cons b limit =>
          rw [Spaced] at dense
          rw [bytewiseSeparator]
          by_cases same : a = b
          · rw [if_pos same] at dense ⊢
            rw [ih dense]
          · rw [if_neg same] at dense ⊢
            exact if_neg fun both => dense both.2

theorem bytewiseSeparator_of_spaced {start limit : Bytes} (spaced : Spaced start limit) :
    bytewiseCompare start (bytewiseSeparator start limit) = .lt ∧
      bytewiseCompare (bytewiseSeparator start limit) limit = .lt := by
  induction start generalizing limit with
  | nil => exact spaced.elim
  | cons a start ih =>
      cases limit with
      | nil => exact spaced.elim
      | cons b limit =>
          rw [Spaced] at spaced
          rw [bytewiseSeparator]
          by_cases same : a = b
          · subst same
            rw [if_pos rfl] at spaced ⊢
            rw [bytewiseCompare_cons, bytewiseCompare_cons]
            exact ih spaced
          · rw [if_neg same] at spaced ⊢
            have inside := b.toNat_lt
            have small : a < 0xff := by
              rw [UInt8.lt_iff_toNat_lt]
              show a.toNat < 255
              omega
            have value := toNat_succ (UInt8.ne_of_lt small)
            rw [if_pos ⟨small, spaced⟩]
            constructor
            · exact bytewiseCompare_lt_of_byte (by omega) _ _
            · exact bytewiseCompare_lt_of_byte (by omega) _ _

theorem bytewiseSeparator_between {start limit : Bytes} (before : bytewiseCompare start limit = .lt) :
    bytewiseCompare start (bytewiseSeparator start limit) ≠ .gt ∧
      bytewiseCompare (bytewiseSeparator start limit) limit = .lt := by
  by_cases spaced : Spaced start limit
  · obtain ⟨above, below⟩ := bytewiseSeparator_of_spaced spaced
    rw [above]
    exact ⟨by simp, below⟩
  · rw [bytewiseSeparator_of_not_spaced spaced, bytewiseCompare_self]
    exact ⟨by simp, before⟩

theorem bytewiseSuccessor_not_before (key : Bytes) :
    bytewiseCompare key (bytewiseSuccessor key) ≠ .gt := by
  induction key with
  | nil => simp [bytewiseSuccessor]
  | cons b key ih =>
      rw [bytewiseSuccessor]
      by_cases last : b = 0xff
      · rw [if_neg (not_not_intro last), bytewiseCompare_cons]
        exact ih
      · have less : b.toNat < (b + 1).toNat := by
          rw [toNat_succ last]
          exact Nat.lt_succ_self _
        rw [if_pos last, bytewiseCompare_lt_of_byte less]
        simp

theorem predecessor_successor_not_after (key : Bytes) :
    bytewiseCompare (predecessor (bytewiseSuccessor key)) key ≠ .gt := by
  cases key with
  | nil => simp [bytewiseSuccessor, predecessor]
  | cons b key =>
      rw [bytewiseSuccessor]
      by_cases last : b = 0xff
      · subst last
        rw [if_neg (by simp), predecessor, if_pos (by decide), bytewiseCompare_lt_of_byte (by decide)]
        simp
      · have positive : 0 < b + 1 := by
          rw [UInt8.lt_iff_toNat_lt, toNat_succ last]
          exact Nat.succ_pos _
        rw [if_pos last, predecessor, if_pos positive, UInt8.add_sub_cancel, bytewiseCompare_cons]
        cases key <;> simp

/-! ## By a number -/

section numeric
variable {width : Nat} {a b : Bytes}

theorem leadingNumber_of_width (exactly : a.length = width) : leadingNumber width a = decodeFixed a := by
  rw [leadingNumber, List.take_of_length_le exactly.le]

theorem numericCompare_of_width (exactA : a.length = width) (exactB : b.length = width) :
    numericCompare width a b = .lt ↔ decodeFixed a < decodeFixed b := by
  have both : a.length = width ∧ b.length = width := ⟨exactA, exactB⟩
  rw [numericCompare, if_neg (by omega), leadingNumber_of_width exactA, leadingNumber_of_width exactB]
  by_cases less : decodeFixed a < decodeFixed b
  · simp [less]
  · rw [if_neg less, if_pos both]
    split <;> simp [less]

theorem decodeFixed_putFixed_succ (inside : decodeFixed a < 256 ^ width - 1) :
    decodeFixed (putFixed width (decodeFixed a + 1)) = decodeFixed a + 1 := by
  rw [decodeFixed_putFixed]
  apply Nat.mod_eq_of_lt
  omega

theorem numericCompare_succ (exactly : a.length = width) (inside : decodeFixed a < 256 ^ width - 1) :
    numericCompare width a (putFixed width (decodeFixed a + 1)) = .lt := by
  rw [numericCompare_of_width exactly (length_putFixed width _), decodeFixed_putFixed_succ inside]
  exact Nat.lt_succ_self _

theorem not_spaced_of_succ (lengths : a.length = b.length) (next : decodeFixed b = decodeFixed a + 1) :
    ¬ Spaced a b := by
  induction a generalizing b with
  | nil => exact id
  | cons x a ih =>
      cases b with
      | nil => exact id
      | cons y b =>
          rw [decodeFixed, decodeFixed] at next
          rw [Spaced]
          have smallX := x.toNat_lt
          have smallY := y.toNat_lt
          split
          · rename_i same
            subst same
            omega
          · omega

theorem bytewiseSuccessor_of_greatest (greatest : decodeFixed a = 256 ^ a.length - 1) :
    bytewiseSuccessor a = a := by
  induction a with
  | nil => rfl
  | cons x a ih =>
      rw [decodeFixed, List.length_cons, Nat.pow_succ] at greatest
      have positive : 0 < 256 ^ a.length := Nat.pow_pos (by decide)
      have inside := decodeFixed_lt a
      have small := x.toNat_lt
      have last : x = 0xff := by
        apply UInt8.toNat_inj.mp
        show x.toNat = 255
        omega
      rw [bytewiseSuccessor, if_neg (not_not_intro last), ih (by omega)]

theorem numericSeparator_between (exactA : a.length = width) (exactB : b.length = width)
    (before : numericCompare width a b = .lt) :
    numericCompare width a (numericSeparator width a b) ≠ .gt ∧
      numericCompare width (numericSeparator width a b) b = .lt := by
  have less := (numericCompare_of_width exactA exactB).mp before
  have limit := decodeFixed_lt b
  rw [numericSeparator, leadingNumber_of_width exactA, leadingNumber_of_width exactB]
  by_cases between : decodeFixed a + 1 < decodeFixed b
  · have inside : decodeFixed a < 256 ^ width - 1 := by
      rw [← exactB]
      omega
    rw [if_pos ⟨exactA.ge, exactB.ge, less, between⟩, numericCompare_succ exactA inside,
      numericCompare_of_width (length_putFixed width _) exactB, decodeFixed_putFixed_succ inside]
    exact ⟨by simp, between⟩
  · have dense : ¬ Spaced a b := not_spaced_of_succ (exactA.trans exactB.symm) (by omega)
    rw [if_neg fun all => between all.2.2.2, bytewiseSeparator_of_not_spaced dense,
      numericCompare_eq.mpr rfl]
    exact ⟨by simp, before⟩

theorem numericSuccessor_not_before (exactly : a.length = width) :
    numericCompare width a (numericSuccessor width a) ≠ .gt := by
  rw [numericSuccessor, leadingNumber_of_width exactly]
  by_cases inside : decodeFixed a < 256 ^ width - 1
  · rw [if_pos ⟨exactly.ge, inside⟩, numericCompare_succ exactly inside]
    simp
  · have limit := decodeFixed_lt a
    have greatest : decodeFixed a = 256 ^ a.length - 1 := by
      rw [exactly] at limit ⊢
      omega
    rw [if_neg fun all => inside all.2, bytewiseSuccessor_of_greatest greatest, numericCompare_eq.mpr rfl]
    simp

end numeric

/-! ## A prefix -/

theorem bytewiseSeparator_length (start limit : Bytes) :
    (bytewiseSeparator start limit).length ≤ start.length := by
  induction start generalizing limit with
  | nil => simp [bytewiseSeparator]
  | cons a start ih =>
      cases limit with
      | nil => simp [bytewiseSeparator]
      | cons b limit =>
          have shorter := ih limit
          rw [bytewiseSeparator]
          split
          · simpa using shorter
          · split <;> simp

theorem bytewiseSuccessor_length (key : Bytes) : (bytewiseSuccessor key).length ≤ key.length := by
  induction key with
  | nil => simp [bytewiseSuccessor]
  | cons b key ih =>
      rw [bytewiseSuccessor]
      split
      · simp
      · simpa using ih

theorem take_bytewiseSeparator (length : Nat) (start limit : Bytes) :
    (bytewiseSeparator (start.take length) limit).take length =
      bytewiseSeparator (start.take length) limit := by
  apply List.take_of_length_le
  exact (bytewiseSeparator_length _ _).trans (List.length_take_le _ _)

theorem take_bytewiseSuccessor (length : Nat) (key : Bytes) :
    (bytewiseSuccessor (key.take length)).take length = bytewiseSuccessor (key.take length) := by
  apply List.take_of_length_le
  exact (bytewiseSuccessor_length _).trans (List.length_take_le _ _)

/-! ## The comparators -/

namespace ComparatorImpl

/-- The key that separates `start` from `limit` is not before `start`, and before `limit`. -/
def Separates (order : ComparatorImpl) (start limit : Bytes) : Prop :=
  order.compare start (order.findShortestSeparator start limit) ≠ .gt ∧
    order.compare (order.findShortestSeparator start limit) limit = .lt

def Succeeds (order : ComparatorImpl) (key : Bytes) : Prop :=
  order.compare key (order.findShortSuccessor key) ≠ .gt

theorem reverse_separates_iff {start limit : Bytes} :
    (builtIn .reverseBytewise).Separates start limit ↔ Spaced limit start := by
  show reverseBytewiseCompare start (bytewiseSeparator limit start) ≠ .gt ∧
    reverseBytewiseCompare (bytewiseSeparator limit start) limit = .lt ↔ _
  rw [reverseBytewiseCompare_eq, reverseBytewiseCompare_eq]
  by_cases spaced : Spaced limit start
  · obtain ⟨above, below⟩ := bytewiseSeparator_of_spaced spaced
    rw [above, below]
    simp [spaced]
  · rw [bytewiseSeparator_of_not_spaced spaced, bytewiseCompare_self]
    simp [spaced]

theorem separates {order : ComparatorImpl} {start limit : Bytes} (fitsStart : order.Fits start)
    (fitsLimit : order.Fits limit) (forwards : order ≠ builtIn .reverseBytewise)
    (before : order.compare start limit = .lt) : order.Separates start limit := by
  cases order with
  | prefixed length =>
      show prefixCompare length start _ ≠ .gt ∧ prefixCompare length _ limit = .lt
      rw [prefixCompare, prefixCompare]
      show bytewiseCompare _ ((bytewiseSeparator _ _).take length) ≠ .gt ∧
        bytewiseCompare ((bytewiseSeparator _ _).take length) _ = .lt
      rw [take_bytewiseSeparator]
      exact bytewiseSeparator_between before
  | builtIn order =>
      cases order with
      | bytewise => exact bytewiseSeparator_between before
      | reverseBytewise => exact absurd rfl forwards
      | numeric32 =>
          exact numericSeparator_between (fitsStart.resolve_left (by decide))
            (fitsLimit.resolve_left (by decide)) before
      | numeric64 =>
          exact numericSeparator_between (fitsStart.resolve_left (by decide))
            (fitsLimit.resolve_left (by decide)) before

theorem succeeds {order : ComparatorImpl} {key : Bytes} (fits : order.Fits key) : order.Succeeds key := by
  cases order with
  | prefixed length =>
      show bytewiseCompare _ ((bytewiseSuccessor _).take length) ≠ .gt
      rw [take_bytewiseSuccessor]
      exact bytewiseSuccessor_not_before _
  | builtIn order =>
      cases order with
      | bytewise => exact bytewiseSuccessor_not_before key
      | reverseBytewise =>
          show reverseBytewiseCompare _ _ ≠ .gt
          rw [reverseBytewiseCompare_eq]
          exact predecessor_successor_not_after key
      | numeric32 => exact numericSuccessor_not_before (fits.resolve_left (by decide))
      | numeric64 => exact numericSuccessor_not_before (fits.resolve_left (by decide))

/-- A separator separates and a successor succeeds, but for the separators of the reverse comparator
between keys that leave no byte between. -/
theorem separator_successor_iff (order : ComparatorImpl) (start limit key : Bytes)
    (fitsStart : order.Fits start) (fitsLimit : order.Fits limit) (fits : order.Fits key) :
    ((order.compare start limit = .lt → order.Separates start limit) ∧ order.Succeeds key) ↔
      (order = builtIn .reverseBytewise → order.compare start limit = .lt → Spaced limit start) := by
  constructor
  · rintro ⟨separating, _⟩ rfl before
    exact reverse_separates_iff.mp (separating before)
  intro spaced
  constructor
  · intro before
    by_cases backwards : order = builtIn .reverseBytewise
    · subst backwards
      exact reverse_separates_iff.mpr (spaced rfl before)
    · exact separates fitsStart fitsLimit backwards before
  · exact succeeds fits

theorem separator_successor_iff_neighbours : (builtIn .numeric32).Fits [0xff, 0, 0, 0] ∧
    (((builtIn .numeric32).compare [0xff, 0, 0, 0] [0, 1, 0, 0] = .lt →
        (builtIn .numeric32).Separates [0xff, 0, 0, 0] [0, 1, 0, 0]) ∧
      (builtIn .numeric32).Succeeds [0xff, 0xff, 0xff, 0xff]) :=
  ⟨.inr rfl, (separator_successor_iff (builtIn .numeric32) [0xff, 0, 0, 0] [0, 1, 0, 0]
    [0xff, 0xff, 0xff, 0xff] (.inr rfl) (.inr rfl) (.inr rfl)).mpr (fun same => nomatch same)⟩

theorem reverse_not_separates : ¬ ∀ (order : ComparatorImpl) (start limit key : Bytes),
    order.Fits start → order.Fits limit → order.Fits key →
      (order.compare start limit = .lt → order.Separates start limit) ∧ order.Succeeds key := by
  intro all
  have between := (all (builtIn .reverseBytewise) [3] [2] [] (.inl rfl) (.inl rfl) (.inl rfl)).1 (by decide)
  exact absurd between.2 (by decide)

end ComparatorImpl
end Lrdb
