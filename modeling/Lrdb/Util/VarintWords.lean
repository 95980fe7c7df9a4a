import Lrdb.Util.Coding

/-!
# Varints on machine words

The codec on words, with the shifts and masks of the source, and the number it stands for. The shift of
the last group that is allowed can drop bits, and only there is a number read that was not written.
-/

namespace Lrdb
open Parsing

def varintMeaning : Bytes → Nat
  | [] => 0
  | b :: rest => b.toNat % 128 + 128 * varintMeaning rest

theorem decodeVarint_cons (n : Nat) (b : UInt8) (rest : Bytes) : decodeVarint (n + 1) (b :: rest) =
    if b.toNat < 128 then some (b.toNat, rest)
    else (decodeVarint n rest).map fun found => (b.toNat % 128 + 128 * found.1, found.2) := by
  rw [decodeVarint]
  change (if b.toNat < 128 then _ else _ : Parser UInt8 Nat) rest = _
  split
  · rfl
  · change (decodeVarint n rest).bind _ = _
    cases decodeVarint n rest <;> rfl

theorem decodeVarint_meaning {n number : Nat} {input rest : Bytes}
    (found : decodeVarint n input = some (number, rest)) :
    ∃ consumed, input = consumed ++ rest ∧ number = varintMeaning consumed := by
  induction n generalizing input number with
  | zero => cases found
  | succ n ih =>
      cases input with
      | nil => cases found
      | cons b tail =>
          rw [decodeVarint_cons] at found
          split at found
          · rename_i last
            cases found
            exact ⟨[b], rfl, by simp [varintMeaning, Nat.mod_eq_of_lt last]⟩
          · obtain ⟨⟨higher, left⟩, later, same⟩ := Option.map_eq_some_iff.mp found
            cases same
            obtain ⟨consumed, rfl, rfl⟩ := ih later
            exact ⟨b :: consumed, rfl, rfl⟩

/-- After `groups` bytes that continue the number stands its last one, from `bound` on. -/
def TooWide (bound : Nat) : Nat → Bytes → Prop
  | _, [] => False
  | 0, last :: _ => bound ≤ last.toNat ∧ last.toNat < 128
  | groups + 1, b :: rest => 128 ≤ b.toNat ∧ TooWide bound groups rest

theorem decodeVarint_of_tooWide {bound n : Nat} {input : Bytes} (wide : TooWide bound n input) :
    ∃ number rest, decodeVarint (n + 1) input = some (number, rest) ∧ 128 ^ n * bound ≤ number := by
  induction n generalizing input with
  | zero =>
      cases input with
      | nil => cases wide
      | cons last rest => exact ⟨last.toNat, rest, by rw [decodeVarint_cons, if_pos wide.2], by simpa using wide.1⟩
  | succ n ih =>
      cases input with
      | nil => cases wide
      | cons b rest =>
          obtain ⟨more, later⟩ := wide
          obtain ⟨number, left, found, large⟩ := ih later
          refine ⟨b.toNat % 128 + 128 * number, left, ?_, ?_⟩
          · rw [decodeVarint_cons, if_neg (Nat.not_lt.mpr more), found]
            rfl
          · calc 128 ^ (n + 1) * bound = 128 * (128 ^ n * bound) := by ring
              _ ≤ 128 * number := Nat.mul_le_mul_left _ large
              _ ≤ b.toNat % 128 + 128 * number := Nat.le_add_left ..

theorem decodeVarint_lt {bound n number : Nat} (positive : 0 < bound) {input rest : Bytes}
    (narrow : ¬ TooWide bound n input) (found : decodeVarint (n + 1) input = some (number, rest)) :
    number < 128 ^ n * bound := by
  induction n generalizing input number with
  | zero =>
      cases input with
      | nil => cases found
      | cons last tail =>
          rw [decodeVarint_cons] at found
          split at found <;> [rename_i small; cases found]
          cases found
          have below : last.toNat < bound := Nat.lt_of_not_le fun large => narrow ⟨large, small⟩
          simpa using below
  | succ n ih =>
      have room : 128 ≤ 128 ^ (n + 1) * bound := by
        calc 128 = 128 ^ 1 * 1 := rfl
          _ ≤ 128 ^ (n + 1) * bound :=
              Nat.mul_le_mul (Nat.pow_le_pow_right (by decide) (Nat.succ_pos n)) positive
      cases input with
      | nil => cases found
      | cons b tail =>
          rw [decodeVarint_cons] at found
          split at found
          · rename_i small
            cases found
            exact small.trans_le room
          · rename_i more
            obtain ⟨⟨higher, left⟩, later, same⟩ := Option.map_eq_some_iff.mp found
            cases same
            have below := ih (fun wide => narrow ⟨Nat.le_of_not_lt more, wide⟩) later
            have power : 128 ^ (n + 1) * bound = 128 * (128 ^ n * bound) := by ring
            rw [power]
            omega

def ReadsMeaning {W : Type} (toNat : W → Nat) (get : Bytes → Option (W × Bytes)) (input : Bytes) : Prop :=
  ∀ value rest, get input = some (value, rest) →
    ∃ consumed, input = consumed ++ rest ∧ toNat value = varintMeaning consumed

theorem readsMeaning_iff {W : Type} {toNat : W → Nat} {ofNat : Nat → W} {bound n : Nat}
    (positive : 0 < bound) (truncates : ∀ number, toNat (ofNat number) = number % (128 ^ n * bound))
    {get : Bytes → Option (W × Bytes)} {input : Bytes}
    (reads : get input = (decodeVarint (n + 1) input).map fun found => (ofNat found.1, found.2)) :
    ReadsMeaning toNat get input ↔ ¬ TooWide bound n input := by
  have limit : 0 < 128 ^ n * bound := Nat.mul_pos (Nat.pow_pos (by decide)) positive
  constructor
  · intro exactly wide
    obtain ⟨number, rest, found, large⟩ := decodeVarint_of_tooWide wide
    obtain ⟨consumed, same, meaning⟩ := decodeVarint_meaning found
    rw [found] at reads
    obtain ⟨taken, again, value⟩ := exactly _ rest reads
    rw [List.append_cancel_right (again.symm.trans same), truncates, ← meaning] at value
    have kept : number % (128 ^ n * bound) < 128 ^ n * bound := Nat.mod_lt number limit
    change number % (128 ^ n * bound) = number at value
    omega
  · intro narrow value rest here
    rw [reads] at here
    obtain ⟨⟨number, left⟩, found, kept⟩ := Option.map_eq_some_iff.mp here
    cases kept
    obtain ⟨consumed, same, rfl⟩ := decodeVarint_meaning found
    have bounded := decodeVarint_lt positive narrow found
    exact ⟨consumed, same, by rw [truncates, Nat.mod_eq_of_lt bounded]⟩

namespace Words

def encodeVarint32 (value : UInt32) : Bytes :=
  if value < (1 : UInt32) <<< 7 then [value.toUInt8]
  else if value < (1 : UInt32) <<< 14 then [(value ||| 128).toUInt8, (value >>> 7).toUInt8]
  else if value < (1 : UInt32) <<< 21 then
    [(value ||| 128).toUInt8, ((value >>> 7) ||| 128).toUInt8, (value >>> 14).toUInt8]
  else if value < (1 : UInt32) <<< 28 then
    [(value ||| 128).toUInt8, ((value >>> 7) ||| 128).toUInt8, ((value >>> 14) ||| 128).toUInt8,
      (value >>> 21).toUInt8]
  else
    [(value ||| 128).toUInt8, ((value >>> 7) ||| 128).toUInt8, ((value >>> 14) ||| 128).toUInt8,
      ((value >>> 21) ||| 128).toUInt8, (value >>> 28).toUInt8]

theorem toNat_shiftRight_7 (value : UInt64) : (value >>> 7).toNat = value.toNat / 128 := by
  rw [UInt64.toNat_shiftRight]
  exact Nat.shiftRight_eq_div_pow _ 7

theorem le_toNat (value : UInt64) : 128 ≤ value ↔ 128 ≤ value.toNat := UInt64.le_iff_toNat_le

theorem shifted_lt {value : UInt64} (large : 128 ≤ value) : (value >>> 7).toNat < value.toNat := by
  have number : 128 ≤ value.toNat := (le_toNat value).mp large
  rw [toNat_shiftRight_7]
  omega

def encodeVarint64 (value : UInt64) : Bytes :=
  if _large : 128 ≤ value then (value ||| 128).toUInt8 :: encodeVarint64 (value >>> 7)
  else [value.toUInt8]
termination_by value.toNat
decreasing_by exact shifted_lt _large

def putVarint32 (dst : Bytes) (value : UInt32) : Bytes := dst ++ encodeVarint32 value
def putVarint64 (dst : Bytes) (value : UInt64) : Bytes := dst ++ encodeVarint64 value

/-- `static_cast<uint64_t>(*q)`: a `char` is signed, and keeps its sign. -/
def widenChar (q : UInt8) : UInt64 := q.toInt8.toInt64.toUInt64

/-- The loop at a shift, after the groups in `result`. -/
def getVarint32Loop (shift : Nat) (result : UInt64) : Bytes → Option (UInt32 × Bytes)
  | [] => none
  | q :: rest =>
      if shift ≤ 28 then
        let byte := widenChar q
        if byte &&& 0x80 ≠ 0 then
          getVarint32Loop (shift + 7) (result ||| ((byte &&& 0x7f) <<< UInt64.ofNat shift)) rest
        else some ((result ||| (byte <<< UInt64.ofNat shift)).toUInt32, rest)
      else none

def getVarint32 (input : Bytes) : Option (UInt32 × Bytes) := getVarint32Loop 0 0 input

def getVarint64Loop (shift : Nat) (result : UInt64) : Bytes → Option (UInt64 × Bytes)
  | [] => none
  | q :: rest =>
      if shift ≤ 63 then
        let byte := q.toUInt64
        if byte &&& 0x80 ≠ 0 then
          if 63 ≤ shift then none
          else getVarint64Loop (shift + 7) (result ||| ((byte &&& 0x7f) <<< UInt64.ofNat shift)) rest
        else some (result ||| (byte <<< UInt64.ofNat shift), rest)
      else none

def getVarint64 (input : Bytes) : Option (UInt64 × Bytes) := getVarint64Loop 0 0 input

/-! ## Words as numbers -/

theorem forall_byte {p : UInt8 → Prop} (each : ∀ n : Fin 256, p (UInt8.ofNat n)) (q : UInt8) : p q := by
  have here := each ⟨q.toNat, q.toNat_lt⟩
  rwa [UInt8.ofNat_toNat] at here

theorem widenChar_continues : ∀ q : UInt8, widenChar q &&& 0x80 ≠ 0 ↔ 128 ≤ q.toNat :=
  forall_byte (by decide +kernel)

theorem widenChar_group : ∀ q : UInt8, (widenChar q &&& 0x7f).toNat = q.toNat % 128 :=
  forall_byte (by decide +kernel)

theorem widenChar_last : ∀ q : UInt8, q.toNat < 128 → (widenChar q).toNat = q.toNat :=
  forall_byte (by decide +kernel)

theorem toUInt64_continues : ∀ q : UInt8, q.toUInt64 &&& 0x80 ≠ 0 ↔ 128 ≤ q.toNat :=
  forall_byte (by decide +kernel)

theorem toUInt64_group : ∀ q : UInt8, (q.toUInt64 &&& 0x7f).toNat = q.toNat % 128 :=
  forall_byte (by decide +kernel)

theorem toNat_or_shift {result group : UInt64} {shift : Nat} (low : result.toNat < 2 ^ shift)
    (fits : shift < 64) : (result ||| (group <<< UInt64.ofNat shift)).toNat =
      (result.toNat + 2 ^ shift * group.toNat) % uint64Limit := by
  have amount : (UInt64.ofNat shift).toNat % 64 = shift := by
    rw [UInt64.toNat_ofNat']
    omega
  have word : 2 ^ 64 = 2 ^ shift * 2 ^ (64 - shift) := by
    rw [← pow_add]
    congr 1
    omega
  have kept : group.toNat % 2 ^ (64 - shift) < 2 ^ (64 - shift) := Nat.mod_lt _ (Nat.two_pow_pos _)
  rw [UInt64.toNat_or, UInt64.toNat_shiftLeft, amount, Nat.shiftLeft_eq, Nat.mul_comm, word,
    Nat.mul_mod_mul_left, Nat.or_comm, ← Nat.two_pow_add_eq_or_of_lt low, Nat.add_comm]
  have small : result.toNat + 2 ^ shift * (group.toNat % 2 ^ (64 - shift)) <
      2 ^ shift * 2 ^ (64 - shift) := by
    calc result.toNat + 2 ^ shift * (group.toNat % 2 ^ (64 - shift))
        < 2 ^ shift * 1 + 2 ^ shift * (group.toNat % 2 ^ (64 - shift)) := by omega
      _ = 2 ^ shift * (1 + group.toNat % 2 ^ (64 - shift)) := by ring
      _ ≤ 2 ^ shift * 2 ^ (64 - shift) := Nat.mul_le_mul_left _ (by omega)
  have limit : uint64Limit = 2 ^ shift * 2 ^ (64 - shift) := word
  rw [limit, Nat.add_mod, Nat.mul_mod_mul_left, Nat.mod_add_mod, Nat.mod_eq_of_lt small]

theorem or_128 (value : Nat) : (value ||| 128) % 256 = value % 128 + 128 := by
  have last : (value ||| 128) % 2 ^ 8 = value % 2 ^ 8 ||| 128 % 2 ^ 8 := Nat.or_mod_two_pow
  have byte : ∀ n : Fin 256, (n.val ||| 128) = n.val % 128 + 128 := by decide +kernel
  have here := byte ⟨value % 256, Nat.mod_lt _ (by decide)⟩
  have low : value % 256 % 128 = value % 128 := Nat.mod_mod_of_dvd _ (by decide)
  exact last.trans (here.trans (by rw [low]))

theorem continued (value : Nat) : UInt8.ofNat (value ||| 128) = UInt8.ofNat (value % 128 + 128) := by
  apply UInt8.toNat_inj.mp
  rw [UInt8.toNat_ofNat', UInt8.toNat_ofNat', Nat.mod_eq_of_lt (by omega : value % 128 + 128 < 2 ^ 8)]
  exact or_128 value

theorem continued32 (value : UInt32) :
    (value ||| 128).toUInt8 = UInt8.ofNat (value.toNat % 128 + 128) := by
  rw [← continued, ← UInt8.toNat_inj, UInt32.toNat_toUInt8, UInt32.toNat_or, UInt8.toNat_ofNat']
  rfl

theorem ended32 (value : UInt32) : value.toUInt8 = UInt8.ofNat value.toNat := by
  rw [← UInt8.toNat_inj, UInt32.toNat_toUInt8, UInt8.toNat_ofNat']

theorem continued64 (value : UInt64) :
    (value ||| 128).toUInt8 = UInt8.ofNat (value.toNat % 128 + 128) := by
  rw [← continued, ← UInt8.toNat_inj, UInt64.toNat_toUInt8, UInt64.toNat_or, UInt8.toNat_ofNat']
  rfl

theorem ended64 (value : UInt64) : value.toUInt8 = UInt8.ofNat value.toNat := by
  rw [← UInt8.toNat_inj, UInt64.toNat_toUInt8, UInt8.toNat_ofNat']

theorem toNat_or_group {i : Nat} {result group : UInt64} (low : result.toNat < 2 ^ (7 * i)) (room : i ≤ 8)
    (small : group.toNat < 128) :
    (result ||| (group <<< UInt64.ofNat (7 * i))).toNat = result.toNat + 2 ^ (7 * i) * group.toNat ∧
      (result ||| (group <<< UInt64.ofNat (7 * i))).toNat < 2 ^ (7 * (i + 1)) := by
  have next : 2 ^ (7 * (i + 1)) = 2 ^ (7 * i) * 128 := by
    rw [Nat.mul_succ, pow_add]
    rfl
  have sum : result.toNat + 2 ^ (7 * i) * group.toNat < 2 ^ (7 * (i + 1)) := by
    rw [next]
    calc result.toNat + 2 ^ (7 * i) * group.toNat
        < 2 ^ (7 * i) * 1 + 2 ^ (7 * i) * group.toNat := by omega
      _ = 2 ^ (7 * i) * (1 + group.toNat) := by ring
      _ ≤ 2 ^ (7 * i) * 128 := Nat.mul_le_mul_left _ (by omega)
  have word : 2 ^ (7 * (i + 1)) ≤ uint64Limit :=
    (Nat.pow_le_pow_right (by decide) (by omega)).trans (show 2 ^ 63 ≤ uint64Limit by decide)
  have kept := @toNat_or_shift result group (7 * i) low (by omega)
  rw [Nat.mod_eq_of_lt (sum.trans_le word)] at kept
  exact ⟨kept, kept ▸ sum⟩

/-! ## Encoding -/

theorem encodeVarint32_eq (value : UInt32) : encodeVarint32 value = Lrdb.putVarint32 value.toNat := by
  have shift (n : UInt32) (small : n.toNat < 32) : (value >>> n).toNat = value.toNat / 2 ^ n.toNat := by
    rw [UInt32.toNat_shiftRight, Nat.mod_eq_of_lt small, Nat.shiftRight_eq_div_pow]
  have s7 : (value >>> 7).toNat = value.toNat / 128 := shift 7 (by decide)
  have s14 : (value >>> 14).toNat = value.toNat / 128 / 128 := by
    rw [Nat.div_div_eq_div_mul]
    exact shift 14 (by decide)
  have s21 : (value >>> 21).toNat = value.toNat / 128 / 128 / 128 := by
    rw [Nat.div_div_eq_div_mul, Nat.div_div_eq_div_mul]
    exact shift 21 (by decide)
  have s28 : (value >>> 28).toNat = value.toNat / 128 / 128 / 128 / 128 := by
    rw [Nat.div_div_eq_div_mul, Nat.div_div_eq_div_mul, Nat.div_div_eq_div_mul]
    exact shift 28 (by decide)
  have l7 : value < (1 : UInt32) <<< 7 ↔ value.toNat < 128 := UInt32.lt_iff_toNat_lt
  have l14 : value < (1 : UInt32) <<< 14 ↔ value.toNat / 128 < 128 := by
    rw [Nat.div_lt_iff_lt_mul (by decide)]
    exact UInt32.lt_iff_toNat_lt
  have l21 : value < (1 : UInt32) <<< 21 ↔ value.toNat / 128 / 128 < 128 := by
    rw [Nat.div_lt_iff_lt_mul (by decide), Nat.div_lt_iff_lt_mul (by decide)]
    exact UInt32.lt_iff_toNat_lt
  have l28 : value < (1 : UInt32) <<< 28 ↔ value.toNat / 128 / 128 / 128 < 128 := by
    rw [Nat.div_lt_iff_lt_mul (by decide), Nat.div_lt_iff_lt_mul (by decide),
      Nat.div_lt_iff_lt_mul (by decide)]
    exact UInt32.lt_iff_toNat_lt
  simp only [encodeVarint32, Lrdb.putVarint32, encodeVarint, l7, l14, l21, l28]
  simp only [continued32]
  simp only [ended32, s7, s14, s21, s28]
  by_cases one : value.toNat < 128
  · simp only [one, if_true]
  by_cases two : value.toNat / 128 < 128
  · simp only [one, two, if_true, if_false]
  by_cases three : value.toNat / 128 / 128 < 128
  · simp only [one, two, three, if_true, if_false]
  by_cases four : value.toNat / 128 / 128 / 128 < 128
  · simp only [one, two, three, four, if_true, if_false]
  · simp only [one, two, three, four, if_false]

theorem encodeVarint64_eq {n : Nat} {value : UInt64} (fits : value.toNat < 128 ^ (n + 1)) :
    encodeVarint64 value = encodeVarint n value.toNat := by
  induction n generalizing value with
  | zero =>
      have small : ¬ 128 ≤ value := fun large =>
        absurd fits (Nat.not_lt.mpr ((le_toNat value).mp large))
      rw [encodeVarint64, dif_neg small, encodeVarint, ended64]
  | succ n ih =>
      rw [encodeVarint64, encodeVarint]
      by_cases large : 128 ≤ value.toNat
      · have rest : (value >>> 7).toNat < 128 ^ (n + 1) := by
          rw [toNat_shiftRight_7]
          exact Nat.div_lt_of_lt_mul (by rwa [pow_succ'] at fits)
        rw [dif_pos ((le_toNat value).mpr large), if_neg (Nat.not_lt.mpr large), continued64,
          ih rest, toNat_shiftRight_7]
      · rw [dif_neg fun le => large ((le_toNat value).mp le), if_pos (Nat.lt_of_not_le large),
          ended64]

/-! ## Decoding -/

theorem next_group (i n group rest : Nat) :
    n + 2 ^ (7 * i) * group + 2 ^ (7 * (i + 1)) * rest = n + 2 ^ (7 * i) * (group + 128 * rest) := by
  rw [Nat.mul_succ, pow_add]
  ring

theorem getVarint32Loop_eq {i k : Nat} (groups : i + k = 5) {result : UInt64}
    (low : result.toNat < 2 ^ (7 * i)) (input : Bytes) : getVarint32Loop (7 * i) result input =
      (decodeVarint k input).map fun found =>
        (UInt32.ofNat (result.toNat + 2 ^ (7 * i) * found.1), found.2) := by
  -- After `i` groups there is room for `k` more.
  induction input generalizing i k result with
  | nil => cases k <;> rfl
  | cons q rest ih =>
      cases k with
      | zero =>
          have tooFar : ¬ 7 * i ≤ 28 := by omega
          rw [getVarint32Loop, if_neg tooFar]
          rfl
      | succ k =>
          have inside : 7 * i ≤ 28 := by omega
          rw [getVarint32Loop, if_pos inside, decodeVarint_cons]
          simp only [widenChar_continues]
          by_cases more : 128 ≤ q.toNat
          · have group := widenChar_group q
            obtain ⟨sum, bounded⟩ := @toNat_or_group i result (widenChar q &&& 0x7f) low (by omega)
              (group ▸ Nat.mod_lt _ (by decide))
            rw [if_pos more, if_neg (Nat.not_lt.mpr more), Option.map_map]
            have later := @ih (i + 1) k (by omega) _ bounded
            rw [Nat.mul_succ] at later
            rw [later]
            congr 1
            funext found
            rw [sum, group, Function.comp_apply, ← Nat.mul_succ, next_group]
          · have last : q.toNat < 128 := Nat.lt_of_not_le more
            have sum := (@toNat_or_group i result (widenChar q) low (by omega)
              (widenChar_last q last ▸ last)).1
            rw [widenChar_last q last] at sum
            rw [if_neg more, if_pos last, Option.map_some, ← sum]
            congr 2

theorem getVarint64Loop_eq {i k : Nat} (groups : i + k = 10) {result : UInt64}
    (low : result.toNat < 2 ^ (7 * i)) (input : Bytes) : getVarint64Loop (7 * i) result input =
      (decodeVarint k input).map fun found =>
        (UInt64.ofNat (result.toNat + 2 ^ (7 * i) * found.1), found.2) := by
  induction input generalizing i k result with
  | nil => cases k <;> rfl
  | cons q rest ih =>
      cases k with
      | zero =>
          have tooFar : ¬ 7 * i ≤ 63 := by omega
          rw [getVarint64Loop, if_neg tooFar]
          rfl
      | succ k =>
          have inside : 7 * i ≤ 63 := by omega
          rw [getVarint64Loop, if_pos inside, decodeVarint_cons]
          simp only [toUInt64_continues]
          by_cases more : 128 ≤ q.toNat
          · rw [if_pos more, if_neg (Nat.not_lt.mpr more), Option.map_map]
            by_cases tenth : 63 ≤ 7 * i
            · -- the parser has no group left either
              obtain rfl : k = 0 := by omega
              rw [if_pos tenth]
              rfl
            have group := toUInt64_group q
            obtain ⟨sum, bounded⟩ := @toNat_or_group i result (q.toUInt64 &&& 0x7f) low (by omega)
              (group ▸ Nat.mod_lt _ (by decide))
            have later := @ih (i + 1) k (by omega) _ bounded
            rw [Nat.mul_succ] at later
            rw [if_neg tenth, later]
            congr 1
            funext found
            rw [sum, group, Function.comp_apply, ← Nat.mul_succ, next_group]
          · have last : q.toNat < 128 := Nat.lt_of_not_le more
            rw [if_neg more, if_pos last, Option.map_some]
            congr 2
            apply UInt64.toNat_inj.mp
            rw [toNat_or_shift low (by omega), UInt64.toNat_ofNat', UInt8.toNat_toUInt64]
            rfl

theorem getVarint32_eq (input : Bytes) : getVarint32 input =
    (decodeVarint 5 input).map fun found => (UInt32.ofNat found.1, found.2) := by
  have loop := @getVarint32Loop_eq 0 5 rfl 0 Nat.one_pos input
  rw [getVarint32]
  simpa using loop

theorem getVarint64_eq (input : Bytes) : getVarint64 input =
    (decodeVarint 10 input).map fun found => (UInt64.ofNat found.1, found.2) := by
  have loop := @getVarint64Loop_eq 0 10 rfl 0 Nat.one_pos input
  rw [getVarint64]
  simpa using loop

theorem toNat_getVarint32 (input : Bytes) :
    (getVarint32 input).map (fun found => (found.1.toNat, found.2)) = Lrdb.getVarint32 input := by
  rw [getVarint32_eq, Option.map_map]
  change _ = (decodeVarint 5 input).bind _
  cases decodeVarint 5 input with
  | none => rfl
  | some found => exact congrArg some (Prod.ext UInt32.toNat_ofNat' rfl)

theorem toNat_getVarint64 (input : Bytes) :
    (getVarint64 input).map (fun found => (found.1.toNat, found.2)) = Lrdb.getVarint64 input := by
  rw [getVarint64_eq, Option.map_map]
  change _ = (decodeVarint 10 input).bind _
  cases decodeVarint 10 input with
  | none => rfl
  | some found => exact congrArg some (Prod.ext UInt64.toNat_ofNat' rfl)

theorem getVarint32_putVarint32 (value : UInt32) (suffix : Bytes) :
    getVarint32 (putVarint32 [] value ++ suffix) = some (value, suffix) := by
  have groups : value.toNat < 128 ^ (4 + 1) := value.toNat_lt.trans (by decide)
  have read : decodeVarint 5 (encodeVarint 4 value.toNat ++ suffix) = some (value.toNat, suffix) :=
    yields_decodeVarint groups suffix
  rw [getVarint32_eq, putVarint32, List.nil_append, encodeVarint32_eq, Lrdb.putVarint32, read,
    Option.map_some, UInt32.ofNat_toNat]

theorem getVarint64_putVarint64 (value : UInt64) (suffix : Bytes) :
    getVarint64 (putVarint64 [] value ++ suffix) = some (value, suffix) := by
  have groups : value.toNat < 128 ^ (9 + 1) := value.toNat_lt.trans (by decide)
  have read : decodeVarint 10 (encodeVarint 9 value.toNat ++ suffix) = some (value.toNat, suffix) :=
    yields_decodeVarint groups suffix
  rw [getVarint64_eq, putVarint64, List.nil_append, encodeVarint64_eq groups, read,
    Option.map_some, UInt64.ofNat_toNat]

/-- The codec loses no number it wrote; a number read is the one that was meant exactly when the last
group of the width has no bit too many. -/
theorem varint_exact_iff (small : UInt32) (large : UInt64) (suffix input : Bytes) :
    (getVarint32 (putVarint32 [] small ++ suffix) = some (small, suffix) ∧
      getVarint64 (putVarint64 [] large ++ suffix) = some (large, suffix)) ∧
    (ReadsMeaning UInt32.toNat getVarint32 input ↔ ¬ TooWide 16 4 input) ∧
      (ReadsMeaning UInt64.toNat getVarint64 input ↔ ¬ TooWide 2 9 input) := by
  constructor
  · exact ⟨getVarint32_putVarint32 small suffix, getVarint64_putVarint64 large suffix⟩
  constructor
  · exact readsMeaning_iff (by decide) (fun number => UInt32.toNat_ofNat') (getVarint32_eq input)
  · exact readsMeaning_iff (by decide) (fun number => UInt64.toNat_ofNat') (getVarint64_eq input)

/-- Five bytes that mean `0x1fffffff0` and are read as `0xfffffff0`. -/
theorem varint_truncated : ¬ ((∀ value suffix,
      getVarint32 (putVarint32 [] value ++ suffix) = some (value, suffix)) ∧
    (∀ value suffix, getVarint64 (putVarint64 [] value ++ suffix) = some (value, suffix)) ∧
    ∀ input, ReadsMeaning UInt32.toNat getVarint32 input ∧ ReadsMeaning UInt64.toNat getVarint64 input) := by
  intro codec
  obtain ⟨consumed, same, read⟩ := (codec.2.2 [0xf0, 0xff, 0xff, 0xff, 0x1f]).1 0xfffffff0 [] (by decide)
  rw [List.append_nil] at same
  rw [← same] at read
  exact absurd read (by decide)

end Words

end Lrdb
