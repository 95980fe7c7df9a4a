import Lrdb.Db.ManifestCodec
import Lrdb.Util.ComparatorLaws

namespace Lrdb

namespace ComparatorImpl

/-- `Name` of the comparator. -/
def name : ComparatorImpl → Bytes
  | builtIn .bytewise => stringBytes "lrdb.BytewiseComparator"
  | builtIn .reverseBytewise => stringBytes "lrdb.ReverseBytewiseComparator"
  | builtIn .numeric32 => stringBytes "lrdb.Numeric32Comparator"
  | builtIn .numeric64 => stringBytes "lrdb.Numeric64Comparator"
  | prefixed length => stringBytes "lrdb.PrefixComparator." ++ stringBytes (toString length)

theorem prefixed_name_ne (length : Nat) : (prefixed length).name ≠ ColumnFamilyOptions.bytewiseName ∧
    (prefixed length).name ≠ ColumnFamilyOptions.reverseBytewiseName := by
  have letter : (prefixed length).name[5]? = some 80 := by
    have front : 5 < (stringBytes "lrdb.PrefixComparator.").length := by decide
    rw [name, List.getElem?_append_left front]
    decide
  constructor
  · intro same
    rw [same] at letter
    exact absurd letter (by decide)
  · intro same
    rw [same] at letter
    exact absurd letter (by decide)

theorem name_eq_bytewise {c : ComparatorImpl} :
    c.name = ColumnFamilyOptions.bytewiseName ↔ c = builtIn .bytewise := by
  cases c with
  | prefixed length => exact iff_of_false (prefixed_name_ne length).1 (by simp)
  | builtIn order => cases order <;> decide

theorem name_eq_reverse {c : ComparatorImpl} :
    c.name = ColumnFamilyOptions.reverseBytewiseName ↔ c = builtIn .reverseBytewise := by
  cases c with
  | prefixed length => exact iff_of_false (prefixed_name_ne length).2 (by simp)
  | builtIn order => cases order <;> decide

def SameOrder (c d : ComparatorImpl) : Prop := ∀ a b, c.compare a b = d.compare a b

theorem sameOrder_bytewise {c : ComparatorImpl} :
    (builtIn .bytewise).SameOrder c ↔ c = builtIn .bytewise := by
  constructor
  · intro same
    cases c with
    | prefixed length =>
        have apart := same (List.replicate length 0) (List.replicate length 0 ++ [0])
        have shorter : bytewiseCompare (List.replicate length 0 ++ []) (List.replicate length 0 ++ [0]) =
            .lt := by
          rw [bytewiseCompare_append]
          rfl
        change bytewiseCompare _ _ = prefixCompare length _ _ at apart
        rw [List.append_nil] at shorter
        rw [shorter, prefixCompare, List.take_left' List.length_replicate,
          List.take_of_length_le List.length_replicate.le, bytewiseCompare_self] at apart
        cases apart
    | builtIn order =>
        cases order with
        | bytewise => rfl
        | reverseBytewise => exact absurd (same [0] [1]) (by decide)
        | numeric32 => exact absurd (same [0, 1, 0, 0] [1, 0, 0, 0]) (by decide)
        | numeric64 => exact absurd (same [0, 1, 0, 0, 0, 0, 0, 0] [1, 0, 0, 0, 0, 0, 0, 0]) (by decide)
  · rintro rfl a b
    rfl

end ComparatorImpl

structure FamilyOptions extends ColumnFamilyOptions where
  writeBufferSize : UInt64 := 0x4000000
  deriving DecidableEq, Repr

namespace FamilyOptions
open ColumnFamilyOptions

/-- `EncodeColumnFamilyOptions`: in the place of the write buffer size stands 64 MB. -/
def encode (o : FamilyOptions) : Bytes := o.toColumnFamilyOptions.encode

/-- `DecodeColumnFamilyOptions` into options that are there: that place is skipped. -/
def decode (memory : Bytes) (size : Nat) (options : FamilyOptions) :
    Option (Except Status FamilyOptions) := do
  let found ← ColumnFamilyOptions.decode memory size options.toColumnFamilyOptions
  return found.map fun fields => { options with toColumnFamilyOptions := fields }

def SameFields (o p : ColumnFamilyOptions) : Prop :=
  { o with comparator := none } = { p with comparator := none }

def Survives (o : FamilyOptions) (comparator : ComparatorImpl) (options : FamilyOptions) : Prop :=
  ∃ decoded, decode o.encode o.encode.length options = some (.ok decoded) ∧
    SameFields decoded.toColumnFamilyOptions o.toColumnFamilyOptions ∧
    decoded.writeBufferSize = o.writeBufferSize ∧
    ∃ found : ComparatorImpl, decoded.comparator = some found.name ∧ found.SameOrder comparator

theorem decode_encode (o options : FamilyOptions) : decode o.encode o.encode.length options =
    some (.ok { toColumnFamilyOptions := o.restore, writeBufferSize := options.writeBufferSize }) := by
  have fields := ColumnFamilyOptions.decode_encode o.toColumnFamilyOptions
    options.toColumnFamilyOptions []
  rw [List.append_nil] at fields
  rw [decode, encode, fields]
  rfl

def foundComparator (c : ComparatorImpl) : ComparatorImpl :=
  if c = .builtIn .reverseBytewise then .builtIn .reverseBytewise else .builtIn .bytewise

theorem comparatorNamed_name (c : ComparatorImpl) : comparatorNamed c.name = (foundComparator c).name := by
  rw [comparatorNamed, foundComparator]
  by_cases reverse : c = .builtIn .reverseBytewise
  · rw [if_pos reverse, if_pos (ComparatorImpl.name_eq_reverse.mpr reverse)]
    rfl
  · rw [if_neg reverse, if_neg (mt ComparatorImpl.name_eq_reverse.mp reverse)]
    rfl

theorem name_eq_found {c found : ComparatorImpl} :
    (foundComparator c).name = found.name ↔ found = foundComparator c := by
  rw [eq_comm, foundComparator]
  split
  · exact ComparatorImpl.name_eq_reverse
  · exact ComparatorImpl.name_eq_bytewise

theorem foundComparator_sameOrder {c : ComparatorImpl} : (foundComparator c).SameOrder c ↔
    c = .builtIn .bytewise ∨ c = .builtIn .reverseBytewise := by
  rw [foundComparator]
  by_cases reverse : c = .builtIn .reverseBytewise
  · rw [if_pos reverse, reverse]
    exact iff_of_true (fun _ _ => rfl) (.inr rfl)
  · rw [if_neg reverse, ComparatorImpl.sameOrder_bytewise, or_iff_left reverse]

theorem survives_found {o : FamilyOptions} {comparator : ComparatorImpl} (options : FamilyOptions)
    (named : o.comparator = some comparator.name) : o.Survives comparator options ↔
      options.writeBufferSize = o.writeBufferSize ∧ (foundComparator comparator).SameOrder comparator := by
  have restored : o.restore.comparator = some (foundComparator comparator).name := by
    rw [restore, named]
    exact congrArg some (comparatorNamed_name comparator)
  constructor
  · rintro ⟨decoded, read, _, sameSize, found, sameName, order⟩
    rw [decode_encode] at read
    cases read
    have isFound := name_eq_found.mp (Option.some.inj (restored.symm.trans sameName))
    rw [isFound] at order
    exact ⟨sameSize, order⟩
  · rintro ⟨sameSize, order⟩
    exact ⟨_, decode_encode o options, rfl, sameSize, foundComparator comparator, restored, order⟩

/-- Options survive a restart exactly with the write buffer size of the options they are read into
and one of the two comparators that are found again. -/
theorem survives_iff {o : FamilyOptions} {comparator : ComparatorImpl} (options : FamilyOptions)
    (named : o.comparator = some comparator.name) : o.Survives comparator options ↔
      options.writeBufferSize = o.writeBufferSize ∧
        (comparator = .builtIn .bytewise ∨ comparator = .builtIn .reverseBytewise) := by
  rw [survives_found options named, foundComparator_sameOrder]

theorem survives_reverse : FamilyOptions.Survives
    { comparator := some (ComparatorImpl.builtIn .reverseBytewise).name } (.builtIn .reverseBytewise) {} :=
  (survives_iff {} rfl).mpr ⟨rfl, .inr rfl⟩

theorem not_survives_numeric : ¬ ∀ (o : FamilyOptions) (comparator : ComparatorImpl),
    o.comparator = some comparator.name → o.Survives comparator {} := by
  intro all
  have survives := all { comparator := some (ComparatorImpl.builtIn .numeric32).name }
    (.builtIn .numeric32) rfl
  have order := ((survives_found {} rfl).mp survives).2
  exact absurd (order [0, 1, 0, 0] [1, 0, 0, 0]) (by decide)

end FamilyOptions
end Lrdb
