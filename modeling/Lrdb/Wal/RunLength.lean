import Lrdb.Base.Loads
import Lrdb.Util.Hash

/-!
# Run-length compression of log files

A compressed file is a row of packets, of one byte repeated or of bytes as they are. The compressor
ends a packet of bytes at 128 of them or where three equal ones begin, so a packet that is longer than
what it stands for is full, or the last one, or has a shorter one behind it.
-/

namespace Lrdb
open Loads

/-- The inner loops over the bytes equal to the first: `run_end - i`. -/
def runLoop (first : UInt8) : Nat → Bytes → Nat
  | count, b :: rest => if b = first ∧ count < 130 then runLoop first (count + 1) rest else count
  | count, [] => count

def runLength : Bytes → Nat
  | [] => 0
  | first :: rest => runLoop first 1 rest

/-- The loop that collects the bytes of a literal packet: `literal_end - literal_start`. -/
def literalLoop : Nat → Bytes → Nat
  | count, b :: rest =>
      if 3 ≤ runLength (b :: rest) then count
      else if count + 1 = 128 then count + 1
      else literalLoop (count + 1) rest
  | count, [] => count

def literalLength (data : Bytes) : Nat :=
  if literalLoop 0 data = 0 then 1 else literalLoop 0 data

/-- The loop of `RLECompress` over what is left of the data. -/
def rleCompressLoop : Nat → Bytes → Bytes → Option Bytes
  | _, [], out => some out
  | 0, _ :: _, _ => none
  | fuel + 1, first :: rest, out =>
      let run := runLength (first :: rest)
      if 3 ≤ run then
        rleCompressLoop fuel ((first :: rest).drop run) (out ++ [UInt8.ofNat ((run - 3) ||| 0x80), first])
      else
        let literal := literalLength (first :: rest)
        rleCompressLoop fuel ((first :: rest).drop literal)
          (out ++ UInt8.ofNat (literal - 1) :: (first :: rest).take literal)

def rleCompress (fuel : Nat) (data : Bytes) : Option Bytes := rleCompressLoop fuel data []

/-- The loop of `RLEDecompress` from the offset `i` on. -/
def rleDecompressLoop (n : Nat) : Nat → Nat → Bytes → Loading UInt8 (Option (Bool × Bytes))
  | 0, i, out => pure (if i < n then none else some (true, out))
  | fuel + 1, i, out =>
      if i < n then do
        let ctrl ← Loading.item i
        if ctrl ≤ 127 then
          if i + 1 + (ctrl.toNat + 1) > n then return some (false, out)
          else
            let bytes ← Loading.items (i + 1) (ctrl.toNat + 1)
            rleDecompressLoop n fuel (i + 1 + (ctrl.toNat + 1)) (out ++ bytes)
        else if i + 1 ≥ n then return some (false, out)
        else
          let b ← Loading.item (i + 1)
          rleDecompressLoop n fuel (i + 1 + 1) (out ++ List.replicate (ctrl.toNat - 125) b)
      else pure (some (true, out))

/-- `RLEDecompress` of an input of this size: its result and what is in `out`. -/
def rleDecompress (fuel n : Nat) : Loading UInt8 (Option (Bool × Bytes)) := rleDecompressLoop n fuel 0 []

/-! ## Packets -/

inductive Packet where
  | run (count : Nat) (b : UInt8)
  | literal (bytes : Bytes)

namespace Packet

def expand : Packet → Bytes
  | run count b => List.replicate count b
  | literal bytes => bytes

def encode : Packet → Bytes
  | run count b => [UInt8.ofNat ((count - 3) ||| 0x80), b]
  | literal bytes => UInt8.ofNat (bytes.length - 1) :: bytes

def Fits : Packet → Prop
  | run count _ => 3 ≤ count ∧ count ≤ 130
  | literal bytes => 1 ≤ bytes.length ∧ bytes.length ≤ 128

theorem Fits.expand_pos {p : Packet} (fits : p.Fits) : 0 < p.expand.length := by
  cases p with
  | run count b =>
      rw [expand, List.length_replicate]
      exact Nat.lt_of_lt_of_le (by decide) fits.1
  | literal bytes => exact fits.1

theorem literal_control {n : Nat} (least : 1 ≤ n) (few : n ≤ 128) :
    UInt8.ofNat (n - 1) ≤ 127 ∧ (UInt8.ofNat (n - 1)).toNat + 1 = n := by
  have value : (UInt8.ofNat (n - 1)).toNat = n - 1 := by
    rw [UInt8.toNat_ofNat']
    apply Nat.mod_eq_of_lt
    omega
  rw [UInt8.le_iff_toNat_le, value]
  exact ⟨Nat.sub_le_of_le_add few, Nat.sub_add_cancel least⟩

theorem run_control {n : Nat} (many : 3 ≤ n) (few : n ≤ 130) :
    ¬ UInt8.ofNat ((n - 3) ||| 0x80) ≤ 127 ∧ (UInt8.ofNat ((n - 3) ||| 0x80)).toNat - 125 = n := by
  have high : (n - 3) ||| 0x80 = n + 125 := by
    have low : n - 3 < 2 ^ 7 := by omega
    have apart : 0x80 + (n - 3) = 0x80 ||| (n - 3) := Nat.two_pow_add_eq_or_of_lt low 1
    rw [Nat.or_comm, ← apart]
    omega
  have value : (UInt8.ofNat ((n - 3) ||| 0x80)).toNat = n + 125 := by
    rw [UInt8.toNat_ofNat', high]
    apply Nat.mod_eq_of_lt
    omega
  rw [UInt8.le_iff_toNat_le, value]
  refine ⟨?_, Nat.add_sub_cancel n 125⟩
  show ¬ n + 125 ≤ 127
  omega

theorem length_le_encode (packets : List Packet) :
    packets.length ≤ (packets.flatMap encode).length := by
  induction packets with
  | nil => exact Nat.zero_le _
  | cons p packets ih =>
      have control : 1 ≤ p.encode.length := by cases p <;> simp [encode]
      rw [List.flatMap_cons, List.length_append, List.length_cons]
      omega

end Packet

/-! ## The decompressor -/

def unpack : Nat → Bytes → Bytes → Option (Bool × Bytes)
  | _, [], out => some (true, out)
  | 0, _ :: _, _ => none
  | fuel + 1, ctrl :: rest, out =>
      if ctrl ≤ 127 then
        if rest.length < ctrl.toNat + 1 then some (false, out)
        else unpack fuel (rest.drop (ctrl.toNat + 1)) (out ++ rest.take (ctrl.toNat + 1))
      else if rest = [] then some (false, out)
      else unpack fuel rest.tail (out ++ List.replicate (ctrl.toNat - 125) (rest.headD 0))

theorem unpack_nil (fuel : Nat) (out : Bytes) : unpack fuel [] out = some (true, out) := by
  cases fuel <;> rfl

theorem rleDecompressLoop_within (input : Bytes) (fuel i : Nat) (out : Bytes) :
    (rleDecompressLoop input.length fuel i out).within input = some (unpack fuel (input.drop i) out) := by
  induction fuel generalizing i out with
  | zero =>
      rw [rleDecompressLoop, Loading.within_pure]
      by_cases inside : i < input.length
      · rw [if_pos inside, List.drop_eq_getElem_cons inside, unpack]
      · rw [if_neg inside, List.drop_of_length_le (Nat.not_lt.mp inside), unpack_nil]
  | succ fuel ih =>
      rw [rleDecompressLoop]
      by_cases inside : i < input.length
      · rw [if_pos inside, List.drop_eq_getElem_cons inside, unpack, Loading.within_bind,
          Loading.within_item inside, Option.bind_some]
        by_cases literal : input[i] ≤ 127
        · rw [if_pos literal, if_pos literal, List.length_drop]
          by_cases long : i + 1 + (input[i].toNat + 1) > input.length
          · rw [if_pos long, if_pos (by omega)]
            rfl
          · rw [if_neg long, if_neg (by omega), Loading.within_bind,
              Loading.within_items (Nat.not_lt.mp long), Option.bind_some, ih, List.drop_drop]
        · rw [if_neg literal, if_neg literal]
          by_cases last : i + 1 < input.length
          · rw [if_neg (Nat.not_le.mpr last), Loading.within_bind, Loading.within_item last,
              Option.bind_some, List.drop_eq_getElem_cons last, if_neg (List.cons_ne_nil _ _)]
            exact ih _ _
          · rw [if_pos (Nat.not_lt.mp last), List.drop_of_length_le (Nat.not_lt.mp last), if_pos rfl]
            rfl
      · rw [if_neg inside, List.drop_of_length_le (Nat.not_lt.mp inside), unpack_nil]
        rfl

theorem unpack_ends (input out : Bytes) : ∃ answer, ∀ fuel, input.length ≤ fuel →
    unpack fuel input out = some answer := by
  induction size : input.length using Nat.strong_induction_on generalizing input out with
  | _ n ih =>
    cases input with
    | nil =>
        refine ⟨(true, out), ?_⟩
        intro fuel _
        exact unpack_nil fuel out
    | cons ctrl rest =>
        have step {rest' : Bytes} (out' : Bytes) (shorter : rest'.length < n) : ∃ answer, ∀ fuel,
            n ≤ fuel + 1 → unpack fuel rest' out' = some answer := by
          obtain ⟨answer, ends⟩ := ih _ shorter rest' out' rfl
          exact ⟨answer, fun fuel enough => ends fuel (by omega)⟩
        rw [List.length_cons] at size
        suffices ends : ∃ answer, ∀ fuel, n ≤ fuel + 1 →
            unpack (fuel + 1) (ctrl :: rest) out = some answer by
          obtain ⟨answer, ends⟩ := ends
          refine ⟨answer, ?_⟩
          intro fuel enough
          obtain ⟨fuel, rfl⟩ : ∃ k, fuel = k + 1 := Nat.exists_eq_add_one.mpr (by omega)
          exact ends fuel enough
        simp only [unpack]
        by_cases literal : ctrl ≤ 127
        · simp only [if_pos literal]
          by_cases long : rest.length < ctrl.toNat + 1
          · simp only [if_pos long]
            exact ⟨_, fun _ _ => rfl⟩
          · simp only [if_neg long]
            apply step
            rw [List.length_drop]
            omega
        · simp only [if_neg literal]
          by_cases last : rest = []
          · simp only [if_pos last]
            exact ⟨_, fun _ _ => rfl⟩
          · simp only [if_neg last]
            apply step
            rw [List.length_tail]
            omega

theorem unpack_packet {p : Packet} (fits : p.Fits) (fuel : Nat) (rest out : Bytes) :
    unpack (fuel + 1) (p.encode ++ rest) out = unpack fuel rest (out ++ p.expand) := by
  cases p with
  | run count b =>
      obtain ⟨isRun, length⟩ := Packet.run_control fits.1 fits.2
      show unpack (fuel + 1) (_ :: b :: rest) out = _
      rw [unpack, if_neg isRun, length, if_neg (List.cons_ne_nil _ _)]
      rfl
  | literal bytes =>
      obtain ⟨isLiteral, length⟩ := Packet.literal_control fits.1 fits.2
      show unpack (fuel + 1) (_ :: (bytes ++ rest)) out = _
      rw [unpack, if_pos isLiteral, length, List.length_append, if_neg (by omega), List.drop_left,
        List.take_left]
      rfl

theorem unpack_packets {packets : List Packet} (fits : ∀ p ∈ packets, p.Fits) {fuel : Nat}
    (enough : packets.length ≤ fuel) (out : Bytes) :
    unpack fuel (packets.flatMap Packet.encode) out = some (true, out ++ packets.flatMap Packet.expand) := by
  induction packets generalizing fuel out with
  | nil => rw [List.flatMap_nil, List.flatMap_nil, List.append_nil, unpack_nil]
  | cons p packets ih =>
      obtain ⟨fuel, rfl⟩ : ∃ k, fuel = k + 1 := Nat.exists_eq_add_one.mpr (Nat.zero_lt_of_lt enough)
      rw [List.flatMap_cons, List.flatMap_cons, unpack_packet (fits p List.mem_cons_self),
        ih (fun q member => fits q (List.mem_cons_of_mem p member)) (Nat.le_of_succ_le_succ enough),
        List.append_assoc]

/-! ## The compressor -/

theorem runLoop_spec (first : UInt8) {count : Nat} (few : count ≤ 130) (rest : Bytes) :
    ∃ k, runLoop first count rest = count + k ∧ count + k ≤ 130 ∧ k ≤ rest.length ∧
      rest.take k = List.replicate k first := by
  induction rest generalizing count with
  | nil => exact ⟨0, rfl, few, Nat.zero_le _, rfl⟩
  | cons b rest ih =>
      rw [runLoop]
      by_cases same : b = first ∧ count < 130
      · obtain ⟨k, found, bound, inside, equal⟩ := ih (Nat.succ_le_of_lt same.2)
        rw [if_pos same]
        refine ⟨k + 1, ?_, ?_, ?_, ?_⟩
        · rw [found]
          exact Nat.succ_add count k
        · omega
        · exact Nat.succ_le_succ inside
        · rw [List.take_succ_cons, equal, same.1, List.replicate_succ]
      · rw [if_neg same]
        exact ⟨0, rfl, few, Nat.zero_le _, rfl⟩

theorem runLength_spec (data : Bytes) : runLength data ≤ 130 ∧ runLength data ≤ data.length ∧
    ∀ first rest, data = first :: rest →
      data.take (runLength data) = List.replicate (runLength data) first := by
  cases data with
  | nil => exact ⟨Nat.zero_le _, Nat.zero_le _, fun _ _ same => nomatch same⟩
  | cons first rest =>
      obtain ⟨k, found, bound, inside, equal⟩ := runLoop_spec first (by decide : 1 ≤ 130) rest
      rw [runLength, found]
      refine ⟨bound, ?_, ?_⟩
      · rw [List.length_cons]
        omega
      · rintro _ _ ⟨⟩
        rw [Nat.add_comm, List.take_succ_cons, equal, List.replicate_succ]

theorem literalLoop_spec {count : Nat} (few : count < 128) (data : Bytes) :
    ∃ k, literalLoop count data = count + k ∧ count + k ≤ 128 ∧ k ≤ data.length ∧
      (count + k = 128 ∨ data.drop k = [] ∨ 3 ≤ runLength (data.drop k)) := by
  induction data generalizing count with
  | nil => exact ⟨0, rfl, few.le, Nat.zero_le _, .inr (.inl rfl)⟩
  | cons b rest ih =>
      rw [literalLoop]
      by_cases run : 3 ≤ runLength (b :: rest)
      · rw [if_pos run]
        exact ⟨0, rfl, few.le, Nat.zero_le _, .inr (.inr run)⟩
      rw [if_neg run]
      by_cases full : count + 1 = 128
      · rw [if_pos full]
        exact ⟨1, rfl, full.le, Nat.succ_le_succ (Nat.zero_le _), .inl full⟩
      · obtain ⟨k, found, bound, inside, stop⟩ := ih (by omega : count + 1 < 128)
        rw [if_neg full]
        refine ⟨k + 1, ?_, ?_, ?_, ?_⟩
        · rw [found, Nat.add_right_comm, Nat.add_assoc]
        · omega
        · exact Nat.succ_le_succ inside
        · rw [List.drop_succ_cons]
          rcases stop with full | stop
          · exact .inl (by omega)
          · exact .inr stop

theorem literalLength_spec {first : UInt8} {rest : Bytes} (noRun : ¬ 3 ≤ runLength (first :: rest)) :
    1 ≤ literalLength (first :: rest) ∧ literalLength (first :: rest) ≤ 128 ∧
      literalLength (first :: rest) ≤ (first :: rest).length ∧
      (literalLength (first :: rest) = 128 ∨ (first :: rest).drop (literalLength (first :: rest)) = [] ∨
        3 ≤ runLength ((first :: rest).drop (literalLength (first :: rest)))) := by
  obtain ⟨k, found, bound, inside, stop⟩ := literalLoop_spec (by decide : 0 < 128) (first :: rest)
  rw [Nat.zero_add] at found bound stop
  have nonzero : k ≠ 0 := by
    rintro rfl
    rcases stop with full | none | run
    · cases full
    · cases none
    · exact noRun run
  have length : literalLength (first :: rest) = k := by
    rw [literalLength, found, if_neg nonzero]
  rw [length]
  exact ⟨Nat.one_le_iff_ne_zero.mpr nonzero, bound, inside, stop⟩

/-- What the compressor does with data that is not empty: one packet, and the rest. The packet is
shorter than what it stands for, or full, or at the end, or before a run. -/
theorem rleCompressLoop_step {data : Bytes} (nonempty : data ≠ []) : ∃ p : Packet, p.Fits ∧
    ∃ rest, data = p.expand ++ rest ∧
      (∀ fuel out, rleCompressLoop (fuel + 1) data out = rleCompressLoop fuel rest (out ++ p.encode)) ∧
      (p.encode.length + 1 ≤ p.expand.length ∨
        ¬ 3 ≤ runLength data ∧ p.encode.length = p.expand.length + 1 ∧
          (p.expand.length = 128 ∨ rest = [] ∨ 3 ≤ runLength rest)) := by
  cases data with
  | nil => exact absurd rfl nonempty
  | cons first bytes =>
      by_cases run : 3 ≤ runLength (first :: bytes)
      · obtain ⟨bound, inside, equal⟩ := runLength_spec (first :: bytes)
        refine ⟨.run (runLength (first :: bytes)) first, ⟨run, bound⟩,
          (first :: bytes).drop (runLength (first :: bytes)), ?_, ?_, .inl ?_⟩
        · rw [Packet.expand, ← equal first bytes rfl, List.take_append_drop]
        · intro fuel out
          rw [rleCompressLoop]
          exact if_pos run
        · rw [Packet.expand, List.length_replicate]
          exact run
      · obtain ⟨least, bound, inside, stop⟩ := literalLength_spec run
        have length : ((first :: bytes).take (literalLength (first :: bytes))).length =
            literalLength (first :: bytes) := by
          rw [List.length_take, Nat.min_eq_left inside]
        refine ⟨.literal ((first :: bytes).take (literalLength (first :: bytes))), ?_,
          (first :: bytes).drop (literalLength (first :: bytes)), ?_, ?_, .inr ⟨run, rfl, ?_⟩⟩
        · rw [Packet.Fits, length]
          exact ⟨least, bound⟩
        · rw [Packet.expand, List.take_append_drop]
        · intro fuel out
          rw [rleCompressLoop, Packet.encode, length]
          exact if_neg run
        · rw [Packet.expand, length]
          exact stop

theorem rleCompressLoop_packets (data : Bytes) : ∃ packets : List Packet, (∀ p ∈ packets, p.Fits) ∧
    packets.flatMap Packet.expand = data ∧
    (∀ fuel out, data.length ≤ fuel →
      rleCompressLoop fuel data out = some (out ++ packets.flatMap Packet.encode)) ∧
    (packets.flatMap Packet.encode).length ≤ data.length + (data.length + 127) / 128 ∧
    (3 ≤ runLength data →
      (packets.flatMap Packet.encode).length + 1 ≤ data.length + (data.length + 127) / 128) := by
  induction size : data.length using Nat.strong_induction_on generalizing data with
  | _ n ih =>
    by_cases empty : data = []
    · subst empty
      refine ⟨[], ?_, rfl, ?_, Nat.zero_le _, ?_⟩
      · simp
      · intro fuel out _
        cases fuel <;> simp [rleCompressLoop]
      · intro run
        exact absurd run (by decide)
    obtain ⟨p, fits, rest, parts, step, cost⟩ := rleCompressLoop_step empty
    have positive := fits.expand_pos
    have lengths : n = p.expand.length + rest.length := by
      rw [← size, parts, List.length_append]
    obtain ⟨packets, allFit, expands, runs, bound, boundRun⟩ := ih rest.length (by omega) rest rfl
    refine ⟨p :: packets, ?_, ?_, ?_, ?_, ?_⟩
    · exact List.forall_mem_cons.mpr ⟨fits, allFit⟩
    · rw [List.flatMap_cons, expands, parts]
    · intro fuel out enough
      obtain ⟨fuel, rfl⟩ : ∃ k, fuel = k + 1 := Nat.exists_eq_add_one.mpr (by omega)
      rw [step, runs fuel _ (by omega), List.flatMap_cons, List.append_assoc]
    · rw [List.flatMap_cons, List.length_append]
      rcases cost with shorter | ⟨_, longer, full | last | run⟩
      · omega
      · omega
      · subst last
        simp only [List.length_nil] at bound lengths
        omega
      · have better := boundRun run
        omega
    · intro run
      rw [List.flatMap_cons, List.length_append]
      rcases cost with shorter | ⟨noRun, _⟩
      · omega
      · exact absurd run noRun

/-! ## Round trip -/

/-- Compressed data is decompressed to the data. It is at most one byte in 128 longer, both loops end,
and the decompressor loads nothing outside its input, whatever that is. -/
theorem rle_round_trip (data : Bytes) :
    (∃ packed, (∀ fuel, data.length ≤ fuel → rleCompress fuel data = some packed) ∧
      packed.length ≤ data.length + (data.length + 127) / 128 ∧
      ∀ fuel, packed.length ≤ fuel →
        (rleDecompress fuel packed.length).within packed = some (some (true, data))) ∧
    ∀ input : Bytes, (∀ fuel, (rleDecompress fuel input.length).StaysInside input) ∧
      ∃ answer, ∀ fuel, input.length ≤ fuel →
        (rleDecompress fuel input.length).within input = some (some answer) := by
  have loop (input : Bytes) (fuel : Nat) :
      (rleDecompress fuel input.length).within input = some (unpack fuel input []) :=
    rleDecompressLoop_within input fuel 0 []
  constructor
  · obtain ⟨packets, fits, expands, runs, bound, _⟩ := rleCompressLoop_packets data
    refine ⟨packets.flatMap Packet.encode, ?_, bound, ?_⟩
    · intro fuel enough
      exact runs fuel [] enough
    · intro fuel enough
      have few := Packet.length_le_encode packets
      rw [loop, unpack_packets fits (few.trans enough), expands]
      rfl
  · intro input
    constructor
    · intro fuel
      rw [Loading.staysInside_iff, loop]
      rfl
    · obtain ⟨answer, ends⟩ := unpack_ends input []
      refine ⟨answer, ?_⟩
      intro fuel enough
      rw [loop, ends fuel enough]

/-- A run of three behind two bytes, and the longest run with one byte behind it. -/
example : rleCompress 5 [1, 2, 7, 7, 7] = some [1, 1, 2, 0x80, 7] := by decide
example : rleCompress 131 (List.replicate 131 9) = some [0xff, 9, 0, 9] := by decide +kernel

end Lrdb
