import Lrdb.Base.Checksums
import Lrdb.Util.Hash

/-!
# The checksum of the files

The table of the checksum holds eight shifts of every byte, so a byte of the input is taken in as its
bits are, one after the other: it is the bitwise CRC-32. Byte strings of one length that differ in a
burst of at most 32 bits have different checksums.
-/

namespace Lrdb
open Checksums

def crc32Polynomial : BitVec 32 := 0xEDB88320#32

def byteBits (b : UInt8) : List Bool := (List.range 8).map b.toNat.testBit

def bytesBits (data : Bytes) : List Bool := data.flatMap byteBits

theorem crc32Table_toList : crc32Table.toList = (List.range 256).map fun i =>
    UInt32.ofBitVec (take crc32Polynomial (BitVec.ofNat 32 i) (List.replicate 8 false)) := by
  decide +kernel

theorem crc32Table_entry {i : Nat} (small : i < 256) : (crc32Table.getD i 0).toBitVec =
    take crc32Polynomial (BitVec.ofNat 32 i) (List.replicate 8 false) := by
  have entry : crc32Table[i]? = some (UInt32.ofBitVec
      (take crc32Polynomial (BitVec.ofNat 32 i) (List.replicate 8 false))) := by
    rw [← Array.getElem?_toList, crc32Table_toList, List.getElem?_map, List.getElem?_range small]
    rfl
  rw [Array.getD_eq_getD_getElem?, entry]
  rfl

theorem byteBits_eq (b : UInt8) : byteBits b = bitsOf 8 (BitVec.ofNat 32 b.toNat) := by
  rw [byteBits, bitsOf]
  apply List.map_congr_left
  intro i small
  have inside : i < 32 := (List.mem_range.mp small).trans (by decide)
  rw [BitVec.getLsbD_ofNat, decide_eq_true inside, Bool.true_and]

theorem mask_bit (i : Nat) : (255#32).getLsbD i = decide (i < 8) := by
  have ones : (255 : Nat).testBit i = decide (i < 8) := Nat.testBit_two_pow_sub_one 8 i
  rw [BitVec.getLsbD_ofNat, ones]
  by_cases small : i < 8
  · simp [small, small.trans (by decide : 8 < 32)]
  · simp [small]

theorem signExtend_low (crc : UInt32) (b : UInt8) :
    ((crc ^^^ signExtend b) &&& 0xff).toBitVec =
      (crc.toBitVec ^^^ BitVec.ofNat 32 b.toNat) &&& 255#32 := by
  have byte : b.toUInt32.toBitVec = BitVec.ofNat 32 b.toNat := by
    apply BitVec.eq_of_toNat_eq
    simp
  unfold signExtend
  split
  · rw [UInt32.toBitVec_and, UInt32.toBitVec_xor, byte]
    rfl
  · apply BitVec.eq_of_getLsbD_eq
    intro i _
    have sign : i < 8 → (0xffffff00#32).getLsbD i = false :=
      fun small => (by decide : ∀ i : Fin 8, (0xffffff00#32).getLsbD i.val = false) ⟨i, small⟩
    simp only [UInt32.toBitVec_and, UInt32.toBitVec_xor, UInt32.toBitVec_or, byte,
      BitVec.getLsbD_and, BitVec.getLsbD_xor, BitVec.getLsbD_or]
    by_cases small : i < 8
    · have none : UInt32.toBitVec 0xffffff00 = 0xffffff00#32 := rfl
      rw [none, sign small, Bool.or_false]
      rfl
    · have outside : (UInt32.toBitVec 0xff).getLsbD i = false := by
        exact (mask_bit i).trans (decide_eq_false small)
      rw [outside, Bool.and_false, mask_bit, decide_eq_false small, Bool.and_false]

theorem byte_shift (b : UInt8) : BitVec.ofNat 32 b.toNat >>> 8 = 0#32 := by
  have small : b.toNat < 256 := b.toNat_lt
  apply BitVec.eq_of_toNat_eq
  simp only [BitVec.toNat_ushiftRight, BitVec.toNat_ofNat]
  omega

theorem low_xor_high (x : BitVec 32) : (x &&& 255#32) ^^^ (x &&& ~~~255#32) = x := by
  apply BitVec.eq_of_getLsbD_eq
  intro i inside
  simp only [BitVec.getLsbD_xor, BitVec.getLsbD_and, BitVec.getLsbD_not, inside, decide_true,
    Bool.true_and]
  cases x.getLsbD i <;> cases (255#32).getLsbD i <;> rfl

theorem take_low (x : BitVec 32) : take crc32Polynomial (x &&& 255#32) (List.replicate 8 false) =
    (crc32Table.getD (x &&& 255#32).toNat 0).toBitVec := by
  have small : (x &&& 255#32).toNat < 256 := by
    rw [BitVec.toNat_and]
    exact Nat.lt_of_le_of_lt Nat.and_le_right (by decide)
  have entry := crc32Table_entry small
  rw [BitVec.ofNat_toNat, BitVec.setWidth_eq] at entry
  exact entry.symm

theorem take_high (crc : BitVec 32) (b : UInt8) :
    take crc32Polynomial ((crc ^^^ BitVec.ofNat 32 b.toNat) &&& ~~~255#32) (List.replicate 8 false) =
      crc >>> 8 := by
  have clear (i : Nat) (small : i < 8) :
      ((crc ^^^ BitVec.ofNat 32 b.toNat) &&& ~~~255#32).getLsbD i = false := by
    rw [BitVec.getLsbD_and, BitVec.getLsbD_not, mask_bit, decide_eq_true small]
    simp
  rw [take_zeros_of_low clear]
  apply BitVec.eq_of_getLsbD_eq
  intro i _
  have past : (BitVec.ofNat 32 b.toNat).getLsbD (8 + i) = false := by
    have none := congrArg (fun v => v.getLsbD i) (byte_shift b)
    simpa using none
  have mask : ¬ 8 + i < 8 := by omega
  rw [BitVec.getLsbD_ushiftRight, BitVec.getLsbD_ushiftRight, BitVec.getLsbD_and,
    BitVec.getLsbD_xor, past, Bool.xor_false, BitVec.getLsbD_not, mask_bit, decide_eq_false mask]
  by_cases inside : 8 + i < 32
  · simp [inside]
  · rw [BitVec.getLsbD_of_ge _ _ (Nat.not_lt.mp inside)]
    rfl

theorem crc32Step_eq (crc : UInt32) (b : UInt8) :
    (crc32Step crc b).toBitVec = take crc32Polynomial crc.toBitVec (byteBits b) := by
  have index : ((crc ^^^ signExtend b) &&& 0xff).toNat =
      ((crc.toBitVec ^^^ BitVec.ofNat 32 b.toNat) &&& 255#32).toNat := by
    rw [← signExtend_low]
    rfl
  rw [byteBits_eq, take_bitsOf (byte_shift b), ← low_xor_high (crc.toBitVec ^^^ _), take_zeros_xor,
    take_low, take_high, crc32Step, UInt32.toBitVec_xor, index]
  rfl

/-! ## Bursts -/

theorem crc32_foldl (crc : UInt32) (data : Bytes) :
    (data.foldl crc32Step crc).toBitVec = take crc32Polynomial crc.toBitVec (bytesBits data) := by
  induction data generalizing crc with
  | nil => rfl
  | cons b data ih =>
      rw [List.foldl_cons, ih, crc32Step_eq, ← take_append]
      rfl

theorem crc32Polynomial_top : crc32Polynomial.getLsbD (32 - 1) := by decide

theorem length_bytesBits (data : Bytes) : (bytesBits data).length = 8 * data.length := by
  induction data with
  | nil => rfl
  | cons b data ih =>
      rw [bytesBits] at ih
      simp only [bytesBits, List.flatMap_cons, List.length_append, ih, byteBits, List.length_map,
        List.length_range, List.length_cons]
      omega

theorem byteBits_injective {b c : UInt8} (same : byteBits b = byteBits c) : b = c := by
  apply UInt8.toNat_inj.mp
  apply Nat.eq_of_testBit_eq
  intro i
  by_cases small : i < 8
  · have bits := congrArg (fun l => l[i]?) same
    simpa [byteBits, small] using bits
  · have large : 2 ^ 8 ≤ 2 ^ i := Nat.pow_le_pow_right (by decide) (Nat.not_lt.mp small)
    rw [Nat.testBit_lt_two_pow (b.toNat_lt.trans_le large),
      Nat.testBit_lt_two_pow (c.toNat_lt.trans_le large)]

theorem bytesBits_injective {a b : Bytes} (length : a.length = b.length)
    (same : bytesBits a = bytesBits b) : a = b := by
  induction a generalizing b with
  | nil => exact (List.length_eq_zero_iff.mp length.symm).symm
  | cons x a ih =>
      cases b with
      | nil => cases length
      | cons y b =>
          have sizes : (byteBits x).length = (byteBits y).length := by simp [byteBits]
          obtain ⟨first, rest⟩ := List.append_inj same sizes
          rw [byteBits_injective first, ih (Nat.succ.inj length) rest]

structure Burst (a b : Bytes) : Prop where
  length : a.length = b.length
  different : a ≠ b
  window : ∃ s, ∀ i, (bytesBits a)[i]? ≠ (bytesBits b)[i]? → s ≤ i ∧ i < s + 32

theorem crc32_ne_of_burst {a b : Bytes} (burst : Burst a b) (before after : Bytes) :
    crc32 (before ++ (a ++ after)) ≠ crc32 (before ++ (b ++ after)) := by
  obtain ⟨s, window⟩ := burst.window
  have lengths : (bytesBits a).length = (bytesBits b).length := by
    rw [length_bytesBits, length_bytesBits, burst.length]
  have bits : bytesBits a ≠ bytesBits b :=
    fun same => burst.different (bytesBits_injective burst.length same)
  intro same
  have registers := congrArg UInt32.toBitVec ((UInt32.xor_left_inj _).mp same)
  rw [crc32_foldl, crc32_foldl] at registers
  simp only [bytesBits, List.flatMap_append, take_append] at registers
  exact take_injective crc32Polynomial_top
    (take_ne_of_window crc32Polynomial_top lengths bits window) _ registers

/-! ## The bitwise checksum -/

def shiftStep (crc : UInt32) : UInt32 :=
  if crc &&& 1 = 1 then (crc >>> 1) ^^^ 0xEDB88320 else crc >>> 1

def bitwiseStep (crc : UInt32) (b : UInt8) : UInt32 := shiftStep^[8] (crc ^^^ b.toUInt32)

def bitwiseCrc32 (data : Bytes) : UInt32 := data.foldl bitwiseStep 0xffffffff ^^^ 0xffffffff

theorem shiftStep_eq (crc : UInt32) :
    (shiftStep crc).toBitVec = takeBit crc32Polynomial crc.toBitVec false := by
  have low : crc &&& 1 = 1 ↔ crc.toBitVec.getLsbD 0 = true := by
    rw [← UInt32.toBitVec_inj, UInt32.toBitVec_and]
    constructor
    · intro one
      have bit := congrArg (fun v => v.getLsbD 0) one
      simpa using bit
    · intro set
      apply BitVec.eq_of_getLsbD_eq
      intro i inside
      cases i with
      | zero => simpa using set
      | succ i => simp
  rw [takeBit, Bool.xor_false, shiftStep]
  by_cases odd : crc &&& 1 = 1
  · rw [if_pos odd, low.mp odd]
    rfl
  · rw [if_neg odd, Bool.eq_false_iff.mpr (mt low.mpr odd), fed, if_neg (by simp), BitVec.xor_zero]
    rfl

theorem iterate_shiftStep (n : Nat) (crc : UInt32) : (shiftStep^[n] crc).toBitVec =
    take crc32Polynomial crc.toBitVec (List.replicate n false) := by
  induction n generalizing crc with
  | zero => rfl
  | succ n ih =>
      rw [Function.iterate_succ_apply, ih, shiftStep_eq, List.replicate_succ]
      rfl

theorem crc32Step_eq_bitwiseStep (crc : UInt32) (b : UInt8) : crc32Step crc b = bitwiseStep crc b := by
  apply UInt32.toBitVec_inj.mp
  have byte : b.toUInt32.toBitVec = BitVec.ofNat 32 b.toNat := by
    apply BitVec.eq_of_toNat_eq
    simp
  rw [crc32Step_eq, byteBits_eq, take_bitsOf (byte_shift b), bitwiseStep, iterate_shiftStep,
    UInt32.toBitVec_xor, byte]

theorem crc32_eq_bitwise (data : Bytes) : crc32 data = bitwiseCrc32 data := by
  have same : crc32Step = bitwiseStep := by
    funext crc b
    exact crc32Step_eq_bitwiseStep crc b
  rw [crc32, bitwiseCrc32, same]

/-- The checksum is CRC-32, and tells a byte string from every other one of its length that differs
from it in a burst of at most 32 bits. -/
theorem crc32_standard (data : Bytes) : crc32 data = bitwiseCrc32 data ∧
    ∀ other, Burst data other → crc32 data ≠ crc32 other := by
  refine ⟨crc32_eq_bitwise data, ?_⟩
  intro other burst
  have apart := crc32_ne_of_burst burst [] []
  simpa using apart

/-- The check value of the catalogues, of the digits from 1 to 9. -/
example : bitwiseCrc32 [49, 50, 51, 52, 53, 54, 55, 56, 57] = 0xCBF43926 := by decide +kernel

end Lrdb
