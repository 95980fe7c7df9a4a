import Mathlib.Data.List.TakeWhile

/-!
# Streams of frames cut at a position

Items are written one after another, each as a nonempty block of bytes. A cut of the stream leaves
the items wholly before it and a part of the next one.
-/

namespace Frames
variable {R B : Type*} (encode : R → List B)

def stream (rs : List R) : List B := rs.flatMap encode

/-- The items wholly contained in the first `n` bytes. -/
def contained : Nat → List R → List R
  | _, [] => []
  | n, r :: rs =>
      if (encode r).length ≤ n then r :: contained (n - (encode r).length) rs else []

def torn : Nat → List R → List B
  | _, [] => []
  | n, r :: rs =>
      if (encode r).length ≤ n then torn (n - (encode r).length) rs else (encode r).take n

variable {encode}

@[simp] theorem stream_nil : stream encode [] = [] := rfl

@[simp] theorem stream_cons (r : R) (rs : List R) :
    stream encode (r :: rs) = encode r ++ stream encode rs := rfl

theorem stream_append (rs more : List R) :
    stream encode (rs ++ more) = stream encode rs ++ stream encode more := List.flatMap_append

theorem take_stream (n : Nat) (rs : List R) :
    (stream encode rs).take n = stream encode (contained encode n rs) ++ torn encode n rs := by
  induction rs generalizing n with
  | nil => simp [contained, torn]
  | cons r rs ih =>
      rw [stream_cons, List.take_append, contained, torn]
      split
      · rename_i whole
        rw [List.take_of_length_le whole, ih, stream_cons, List.append_assoc]
      · rename_i cut
        rw [Nat.sub_eq_zero_of_le (Nat.le_of_not_le cut), List.take_zero, List.append_nil]
        rfl

theorem torn_cases (n : Nat) (rs : List R) :
    torn encode n rs = [] ∨ ∃ r ∈ rs, ∃ m < (encode r).length, torn encode n rs = (encode r).take m := by
  induction rs generalizing n with
  | nil => exact .inl rfl
  | cons r rs ih =>
      rw [torn]
      split
      · apply (ih (n - (encode r).length)).imp_right
        rintro ⟨other, member, rest⟩
        exact ⟨other, List.mem_cons_of_mem r member, rest⟩
      · rename_i cut
        exact .inr ⟨r, List.mem_cons_self .., n, Nat.lt_of_not_le cut, rfl⟩

theorem contained_isPrefix (n : Nat) (rs : List R) : contained encode n rs <+: rs := by
  induction rs generalizing n with
  | nil => exact List.prefix_rfl
  | cons r rs ih =>
      rw [contained]
      split
      · exact (List.prefix_cons_inj r).mpr (ih _)
      · exact List.nil_prefix

theorem contained_whole {n : Nat} {rs : List R} (whole : (stream encode rs).length ≤ n) :
    contained encode n rs = rs ∧ torn encode n rs = [] := by
  induction rs generalizing n with
  | nil => exact ⟨rfl, rfl⟩
  | cons r rs ih =>
      rw [stream_cons, List.length_append] at whole
      obtain ⟨kept, rest⟩ := ih (n := n - (encode r).length) (by omega)
      have fits : (encode r).length ≤ n := by omega
      exact ⟨by rw [contained, if_pos fits, kept], by rw [torn, if_pos fits, rest]⟩

theorem length_le_stream (nonempty : ∀ r, encode r ≠ []) (rs : List R) :
    rs.length ≤ (stream encode rs).length := by
  induction rs with
  | nil => exact Nat.zero_le _
  | cons r rs ih =>
      have here := List.length_pos_iff.mpr (nonempty r)
      rw [stream_cons, List.length_append, List.length_cons]
      omega

end Frames
