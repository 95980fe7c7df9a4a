import Lrdb.Base.Parsing
import Lrdb.Core.InternalKey

/-!
# Varints and length prefixes

Numbers in groups of seven bits, the lowest first, every byte but the last with its upper bit set; and
byte strings after their length.
-/

namespace Lrdb
open Parsing

def uint32Limit : Nat := 0x100000000
def uint64Limit : Nat := 0x10000000000000000

/-- At most `n + 1` groups. -/
def encodeVarint : Nat → Nat → Bytes
  | 0, value => [UInt8.ofNat value]
  | n + 1, value =>
      if value < 128 then [UInt8.ofNat value]
      else UInt8.ofNat (value % 128 + 128) :: encodeVarint n (value / 128)

def putVarint32 (value : Nat) : Bytes := encodeVarint 4 value
def putVarint64 (value : Nat) : Bytes := encodeVarint 9 value

/-- At most `n` groups; the last one that is allowed must end the number. -/
def decodeVarint : Nat → Parser UInt8 Nat
  | 0 => fun _ => none
  | n + 1 => do
      let byte ← Parser.item
      if byte.toNat < 128 then return byte.toNat
      else
        let rest ← decodeVarint n
        return byte.toNat % 128 + 128 * rest

/-- The upper bits of the last group are lost. -/
def getVarint32 : Parser UInt8 Nat := do return (← decodeVarint 5) % uint32Limit
def getVarint64 : Parser UInt8 Nat := do return (← decodeVarint 10) % uint64Limit

def getFixed32 : Parser UInt8 Nat := do return decodeFixed (← Parser.take 4)
def getFixed64 : Parser UInt8 Nat := do return decodeFixed (← Parser.take 8)

/-- The length is cast to 32 bits. -/
def putLengthPrefixedSlice (value : Bytes) : Bytes :=
  putVarint32 (value.length % uint32Limit) ++ value

def getLengthPrefixedSlice : Parser UInt8 Bytes := do Parser.take (← getVarint32)

/-! ## Lengths -/

theorem length_encodeVarint_le (n value : Nat) : (encodeVarint n value).length ≤ n + 1 := by
  induction n generalizing value with
  | zero => exact le_rfl
  | succ n ih =>
      rw [encodeVarint]
      split
      · exact Nat.succ_le_succ (Nat.zero_le _)
      · exact Nat.succ_le_succ (ih _)

theorem length_encodeVarint_of_lt {k n value : Nat} (small : value < 128 ^ (k + 1)) :
    (encodeVarint n value).length ≤ k + 1 := by
  induction n generalizing k value with
  | zero => exact Nat.succ_le_succ (Nat.zero_le _)
  | succ n ih =>
      rw [encodeVarint]
      split
      · exact Nat.succ_le_succ (Nat.zero_le _)
      · rename_i large
        cases k with
        | zero => exact absurd small large
        | succ k =>
            rw [pow_succ] at small
            exact Nat.succ_le_succ (ih (Nat.div_lt_of_lt_mul (by omega)))

theorem encodeVarint_pos (n value : Nat) : 0 < (encodeVarint n value).length := by
  cases n with
  | zero => exact Nat.one_pos
  | succ n =>
      rw [encodeVarint]
      split <;> exact Nat.succ_pos _

theorem length_putVarint32 (value : Nat) : (putVarint32 value).length = varintLength value := by
  unfold putVarint32 varintLength
  simp only [encodeVarint]
  split <;> simp <;> grind

/-! ## Round trips -/

theorem yields_decodeVarint {n value : Nat} (fits : value < 128 ^ (n + 1)) :
    Yields (decodeVarint (n + 1)) (encodeVarint n value) value := by
  induction n generalizing value with
  | zero =>
      have small : value < 128 := fits
      have byte : (UInt8.ofNat value).toNat = value := by
        rw [UInt8.toNat_ofNat']
        omega
      rw [encodeVarint, decodeVarint, ← List.append_nil [UInt8.ofNat value]]
      refine (Yields.item _).bind ?_
      rw [byte, if_pos small]
      exact Yields.pure _
  | succ n ih =>
      rw [encodeVarint, decodeVarint]
      split
      · rename_i small
        have byte : (UInt8.ofNat value).toNat = value := by
          rw [UInt8.toNat_ofNat']
          omega
        rw [← List.append_nil [UInt8.ofNat value]]
        refine (Yields.item _).bind ?_
        rw [byte, if_pos small]
        exact Yields.pure _
      · have byte : (UInt8.ofNat (value % 128 + 128)).toNat = value % 128 + 128 := by
          rw [UInt8.toNat_ofNat']
          omega
        have rest : value / 128 < 128 ^ (n + 1) := by
          rw [pow_succ] at fits
          exact Nat.div_lt_of_lt_mul (by omega)
        refine (Yields.item _).bind ?_
        rw [byte, if_neg (by omega), ← List.append_nil (encodeVarint n (value / 128))]
        refine (ih rest).bind ?_
        have same : (value % 128 + 128) % 128 + 128 * (value / 128) = value := by omega
        rw [same]
        exact Yields.pure _

theorem yields_getVarint32 {value : Nat} (fits : value < uint32Limit) :
    Yields getVarint32 (putVarint32 value) value := by
  have groups : value < 128 ^ (4 + 1) := fits.trans (by decide)
  rw [getVarint32, ← List.append_nil (putVarint32 value)]
  refine (yields_decodeVarint groups).bind ?_
  rw [Nat.mod_eq_of_lt fits]
  exact Yields.pure _

theorem yields_getVarint64 {value : Nat} (fits : value < uint64Limit) :
    Yields getVarint64 (putVarint64 value) value := by
  have groups : value < 128 ^ (9 + 1) := fits.trans (by decide)
  rw [getVarint64, ← List.append_nil (putVarint64 value)]
  refine (yields_decodeVarint groups).bind ?_
  rw [Nat.mod_eq_of_lt fits]
  exact Yields.pure _

theorem yields_getFixed32 {value : Nat} (fits : value < uint32Limit) :
    Yields getFixed32 (putFixed 4 value) value := by
  have bytes : value < 256 ^ 4 := fits
  rw [getFixed32, ← List.append_nil (putFixed 4 value)]
  refine (Yields.take (length_putFixed ..)).bind ?_
  rw [decodeFixed_putFixed, Nat.mod_eq_of_lt bytes]
  exact Yields.pure _

theorem yields_getFixed64 {value : Nat} (fits : value < uint64Limit) :
    Yields getFixed64 (putFixed64 value) value := by
  have bytes : value < 256 ^ 8 := fits
  rw [getFixed64, ← List.append_nil (putFixed64 value)]
  refine (Yields.take (length_putFixed ..)).bind ?_
  rw [decodeFixed_putFixed, Nat.mod_eq_of_lt bytes]
  exact Yields.pure _

theorem yields_getLengthPrefixedSlice {value : Bytes} (fits : value.length < uint32Limit) :
    Yields getLengthPrefixedSlice (putLengthPrefixedSlice value) value := by
  rw [getLengthPrefixedSlice, putLengthPrefixedSlice, Nat.mod_eq_of_lt fits]
  exact (yields_getVarint32 fits).bind (Yields.take rfl)

/-! ## Nothing looks ahead -/

theorem local_decodeVarint (n : Nat) : Local (decodeVarint n) := by
  induction n with
  | zero => exact Local.failure
  | succ n ih =>
      rw [decodeVarint]
      refine Local.item.bind fun byte => ?_
      split
      · exact Local.pure _
      · exact ih.bind fun _ => Local.pure _

theorem local_getVarint32 : Local getVarint32 := (local_decodeVarint 5).bind fun _ => Local.pure _

theorem local_getVarint64 : Local getVarint64 := (local_decodeVarint 10).bind fun _ => Local.pure _

theorem local_getFixed32 : Local getFixed32 := (Local.take 4).bind fun _ => Local.pure _

theorem local_getLengthPrefixedSlice : Local getLengthPrefixedSlice :=
  local_getVarint32.bind fun n => Local.take n

theorem getVarint32_lt {input rest : Bytes} {value : Nat}
    (found : getVarint32 input = some (value, rest)) : value < uint32Limit := by
  obtain ⟨number, middle, -, same⟩ := bind_some found
  obtain ⟨rfl, -⟩ := pure_some same
  exact Nat.mod_lt _ (by decide)

theorem getLengthPrefixedSlice_lt {input rest value : Bytes}
    (found : getLengthPrefixedSlice input = some (value, rest)) : value.length < uint32Limit := by
  obtain ⟨n, middle, here, taken⟩ := bind_some found
  rw [Parser.take] at taken
  split at taken <;> [rename_i fits; cases taken]
  obtain ⟨rfl, -⟩ := Prod.mk.inj (Option.some.inj taken)
  exact (List.length_take_le ..).trans_lt (getVarint32_lt here)

end Lrdb
