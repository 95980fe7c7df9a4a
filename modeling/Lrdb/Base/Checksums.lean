import Mathlib.Data.BitVec
import Mathlib.Data.List.Basic

/-!
# Cyclic checksums

A register takes in bits at its lower end, and a polynomial is added whenever a one falls out. What
becomes of two registers is what becomes of their sum. If the polynomial has its upper bit, inputs that
differ in a burst no longer than the register leave different registers.
-/

namespace Checksums
variable {w : Nat} (poly : BitVec w)

def fed (bit : Bool) : BitVec w := if bit then poly else 0#w

def takeBit (register : BitVec w) (bit : Bool) : BitVec w :=
  (register >>> 1) ^^^ fed poly (register.getLsbD 0 ^^ bit)

def take (register : BitVec w) (bits : List Bool) : BitVec w := bits.foldl (takeBit poly) register

def differences (xs ys : List Bool) : List Bool := List.zipWith Bool.xor xs ys

variable {poly} {x y : BitVec w} {xs ys bits : List Bool}

theorem fed_xor (a b : Bool) : fed poly (a ^^ b) = fed poly a ^^^ fed poly b := by
  cases a <;> cases b <;> simp [fed]

theorem takeBit_xor (a b : Bool) :
    takeBit poly (x ^^^ y) (a ^^ b) = takeBit poly x a ^^^ takeBit poly y b := by
  have bits : ((x ^^^ y).getLsbD 0 ^^ (a ^^ b)) = ((x.getLsbD 0 ^^ a) ^^ (y.getLsbD 0 ^^ b)) := by
    rw [BitVec.getLsbD_xor]
    cases x.getLsbD 0 <;> cases y.getLsbD 0 <;> cases a <;> cases b <;> rfl
  rw [takeBit, takeBit, takeBit, bits, fed_xor, BitVec.ushiftRight_xor_distrib]
  ac_rfl

theorem take_append (xs ys : List Bool) :
    take poly x (xs ++ ys) = take poly (take poly x xs) ys := List.foldl_append ..

theorem take_xor (same : xs.length = ys.length) :
    take poly (x ^^^ y) (differences xs ys) = take poly x xs ^^^ take poly y ys := by
  induction xs generalizing x y ys with
  | nil =>
      cases ys with
      | nil => rfl
      | cons b ys => cases same
  | cons a xs ih =>
      cases ys with
      | nil => cases same
      | cons b ys =>
          change take poly (takeBit poly (x ^^^ y) (a ^^ b)) (differences xs ys) = _
          rw [takeBit_xor]
          exact ih (Nat.succ.inj same)

theorem differences_self (bits : List Bool) :
    differences bits bits = List.replicate bits.length false := by
  induction bits with
  | nil => rfl
  | cons b bits ih =>
      rw [differences] at ih
      rw [differences, List.zipWith_cons_cons, ih, Bool.xor_self, List.length_cons,
        List.replicate_succ]

/-! ## Bits taken in at once -/

def bitsOf (n : Nat) (v : BitVec w) : List Bool := (List.range n).map v.getLsbD

theorem bitsOf_succ (n : Nat) (v : BitVec w) :
    bitsOf (n + 1) v = v.getLsbD 0 :: bitsOf n (v >>> 1) := by
  rw [bitsOf, bitsOf, List.range_succ_eq_map, List.map_cons, List.map_map]
  congr 1
  apply List.map_congr_left
  intro i _
  rw [Function.comp_apply, BitVec.getLsbD_ushiftRight, Nat.succ_eq_add_one, Nat.add_comm]

/-- To take in bits is to add them first and then to take in zeros. -/
theorem take_bitsOf {n : Nat} {v : BitVec w} (whole : v >>> n = 0#w) :
    take poly x (bitsOf n v) = take poly (x ^^^ v) (List.replicate n false) := by
  induction n generalizing x v with
  | zero =>
      rw [BitVec.ushiftRight_zero] at whole
      rw [whole, BitVec.xor_zero]
      rfl
  | succ n ih =>
      have rest : (v >>> 1) >>> n = 0#w := by rw [← BitVec.shiftRight_add, Nat.add_comm, whole]
      have step : takeBit poly (x ^^^ v) false = takeBit poly x (v.getLsbD 0) ^^^ (v >>> 1) := by
        rw [takeBit, takeBit, Bool.xor_false, BitVec.getLsbD_xor, BitVec.ushiftRight_xor_distrib]
        ac_rfl
      rw [bitsOf_succ, List.replicate_succ]
      change take poly (takeBit poly x (v.getLsbD 0)) (bitsOf n (v >>> 1)) =
        take poly (takeBit poly (x ^^^ v) false) (List.replicate n false)
      rw [ih rest, step]

theorem take_zeros_of_low {n : Nat} (low : ∀ i < n, x.getLsbD i = false) :
    take poly x (List.replicate n false) = x >>> n := by
  induction n generalizing x with
  | zero => exact (BitVec.ushiftRight_zero x).symm
  | succ n ih =>
      have step : takeBit poly x false = x >>> 1 := by
        rw [takeBit, low 0 (Nat.succ_pos n)]
        simp [fed]
      rw [List.replicate_succ]
      change take poly (takeBit poly x false) (List.replicate n false) = _
      rw [step, ih, ← BitVec.shiftRight_add, Nat.add_comm]
      intro i small
      rw [BitVec.getLsbD_ushiftRight]
      exact low (1 + i) (by omega)

theorem take_zeros_xor (n : Nat) : take poly (x ^^^ y) (List.replicate n false) =
    take poly x (List.replicate n false) ^^^ take poly y (List.replicate n false) := by
  have sum : take poly (x ^^^ y) (differences (List.replicate n false) (List.replicate n false)) =
      take poly x (List.replicate n false) ^^^ take poly y (List.replicate n false) := take_xor rfl
  rwa [differences_self, List.length_replicate] at sum

/-! ## Bursts -/

def High (k : Nat) (register : BitVec w) : Prop := ∃ i, k ≤ i ∧ register.getLsbD i

theorem getLsbD_takeBit (bit : Bool) (i : Nat) : (takeBit poly x bit).getLsbD i =
    (x.getLsbD (i + 1) ^^ ((x.getLsbD 0 ^^ bit) && poly.getLsbD i)) := by
  rw [takeBit, BitVec.getLsbD_xor, BitVec.getLsbD_ushiftRight, Nat.add_comm 1 i]
  congr 1
  unfold fed
  split <;> rename_i bit <;> simp [bit]

theorem takeBit_zero : takeBit poly 0#w false = 0#w := by simp [takeBit, fed]

section Bursts
variable (top : poly.getLsbD (w - 1))
include top

theorem pos_of_top : 0 < w := by
  cases w with
  | zero => simp at top
  | succ w => exact Nat.succ_pos w

theorem getLsbD_top {bit : Bool} (fallen : (x.getLsbD 0 ^^ bit) = true) :
    (takeBit poly x bit).getLsbD (w - 1) := by
  have positive := pos_of_top top
  rw [getLsbD_takeBit, fallen, top, Nat.sub_add_cancel positive,
    BitVec.getLsbD_of_ge x w le_rfl]
  rfl

theorem high_takeBit {k : Nat} {bit : Bool} (high : High (k + 1) x) : High k (takeBit poly x bit) := by
  obtain ⟨i, above, set⟩ := high
  have inside : i < w := BitVec.lt_of_getLsbD set
  cases fallen : x.getLsbD 0 ^^ bit with
  | true => exact ⟨w - 1, by omega, getLsbD_top top fallen⟩
  | false =>
      refine ⟨i - 1, by omega, ?_⟩
      rw [getLsbD_takeBit, fallen, Nat.sub_add_cancel (by omega), set]
      rfl

theorem high_take {k : Nat} (high : High (k + bits.length) x) : High k (take poly x bits) := by
  induction bits generalizing x with
  | nil => exact high
  | cons bit bits ih => exact ih (high_takeBit top high)

theorem takeBit_ne_zero (some : x ≠ 0#w) : takeBit poly x false ≠ 0#w := by
  intro zero
  have bits (i : Nat) : (takeBit poly x false).getLsbD i = false := by
    rw [zero, BitVec.getLsbD_zero]
  cases low : x.getLsbD 0 with
  | true =>
      have set : (takeBit poly x false).getLsbD (w - 1) := getLsbD_top top (by rw [low]; rfl)
      rw [bits] at set
      cases set
  | false =>
      apply some
      apply BitVec.eq_of_getLsbD_eq
      intro i _
      rw [BitVec.getLsbD_zero]
      cases i with
      | zero => exact low
      | succ i =>
          have here := bits i
          rw [getLsbD_takeBit, low] at here
          simpa using here

theorem take_zeros_ne_zero (n : Nat) (some : x ≠ 0#w) : take poly x (List.replicate n false) ≠ 0#w := by
  induction n generalizing x with
  | zero => exact some
  | succ n ih => exact ih (takeBit_ne_zero top some)

theorem take_injective (different : x ≠ y) (bits : List Bool) : take poly x bits ≠ take poly y bits := by
  intro same
  have sum : take poly (x ^^^ y) (differences bits bits) = take poly x bits ^^^ take poly y bits :=
    take_xor rfl
  rw [differences_self, same, BitVec.xor_self] at sum
  exact take_zeros_ne_zero top _ (fun zero => different (BitVec.xor_eq_zero_iff.mp zero)) sum

/-- A one, and after no more bits than the register has left only zeros. -/
theorem take_burst_ne_zero {middle : List Bool} (short : middle.length < w) (m : Nat) :
    take poly 0#w (true :: (middle ++ List.replicate m false)) ≠ 0#w := by
  have first : takeBit poly 0#w true = poly := by simp [takeBit, fed]
  have high : High 0 (take poly poly middle) := high_take top ⟨w - 1, by omega, top⟩
  have some : take poly poly middle ≠ 0#w := by
    intro zero
    obtain ⟨i, -, set⟩ := high
    rw [zero, BitVec.getLsbD_zero] at set
    cases set
  change take poly (takeBit poly 0#w true) _ ≠ 0#w
  rw [first, take_append]
  exact take_zeros_ne_zero top m some

theorem take_window_ne_zero {s : Nat} (one : true ∈ bits)
    (window : ∀ i, bits[i]? = some true → s ≤ i ∧ i < s + w) : take poly 0#w bits ≠ 0#w := by
  induction bits generalizing s with
  | nil => cases one
  | cons bit rest ih =>
      cases bit with
      | false =>
          change take poly (takeBit poly 0#w false) rest ≠ 0#w
          rw [takeBit_zero]
          apply ih (s := s - 1) (by simpa using one)
          intro i set
          have here := window (i + 1) set
          omega
      | true =>
          have start : s = 0 := Nat.le_zero.mp (window 0 rfl).1
          have positive := pos_of_top top
          have tail : rest.drop (w - 1) = List.replicate (rest.drop (w - 1)).length false := by
            apply List.eq_replicate_iff.mpr
            refine ⟨rfl, fun bit member => ?_⟩
            obtain ⟨j, here⟩ := List.mem_iff_getElem?.mp member
            cases bit with
            | false => rfl
            | true =>
                rw [List.getElem?_drop] at here
                have inside := window (w - 1 + j + 1) here
                omega
          have short : (rest.take (w - 1)).length < w := by
            rw [List.length_take]
            omega
          have burst := take_burst_ne_zero top short (rest.drop (w - 1)).length
          rwa [← tail, List.take_append_drop] at burst

theorem take_ne_of_window {s : Nat} (same : xs.length = ys.length) (different : xs ≠ ys)
    (window : ∀ i, xs[i]? ≠ ys[i]? → s ≤ i ∧ i < s + w) : take poly x xs ≠ take poly x ys := by
  have entry (i : Nat) : (differences xs ys)[i]? = some true → xs[i]? ≠ ys[i]? := by
    intro set equal
    rw [differences, List.getElem?_zipWith, equal] at set
    cases here : ys[i]? <;> rw [here] at set <;> simp at set
  have one : true ∈ differences xs ys := by
    by_contra none
    apply different
    apply List.ext_getElem same
    intro i here there
    have inside : i < (differences xs ys).length := by
      rw [differences, List.length_zipWith]
      omega
    have unset : (differences xs ys)[i] ≠ true := fun set => none (set ▸ List.getElem_mem inside)
    simpa [differences] using unset
  have sum := take_window_ne_zero top one fun i set => window i (entry i set)
  intro equal
  apply sum
  have both : take poly (x ^^^ x) (differences xs ys) = take poly x xs ^^^ take poly x ys :=
    take_xor same
  rwa [BitVec.xor_self, equal, BitVec.xor_self] at both

end Bursts
end Checksums
