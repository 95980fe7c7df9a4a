import Lrdb.Base.Parsing

/-!
# Loads from memory

A computation that loads pieces of memory one after another. It stays inside a buffer when all of them
lie in it, whatever is behind the buffer; it can then be run over the buffer alone. A decoder is given
a slice of the buffer and moves it forward.
-/

namespace Loads
open Parsing
variable {B α β : Type}

/-- `n` items of the memory from an offset on. -/
structure Piece where
  offset : Nat
  length : Nat
  deriving DecidableEq, Repr

inductive Loading (B α : Type) where
  | done (a : α)
  | load (piece : Piece) (next : List B → Loading B α)

namespace Loading

def bind : Loading B α → (α → Loading B β) → Loading B β
  | done a, f => f a
  | load piece next, f => load piece fun items => (next items).bind f

instance : Monad (Loading B) where
  pure := done
  bind := bind

def items (offset n : Nat) : Loading B (List B) := load ⟨offset, n⟩ done

def item [Inhabited B] (offset : Nat) : Loading B B := do return (← items offset 1).headD default

def itemsOf (memory : Nat → B) (piece : Piece) : List B :=
  (List.range piece.length).map fun i => memory (piece.offset + i)

def run (memory : Nat → B) : Loading B α → α
  | done a => a
  | load piece next => (next (itemsOf memory piece)).run memory

def pieces (memory : Nat → B) : Loading B α → List Piece
  | done _ => []
  | load piece next => piece :: (next (itemsOf memory piece)).pieces memory

def within (buffer : List B) : Loading B α → Option α
  | done a => some a
  | load piece next =>
      if piece.offset + piece.length ≤ buffer.length then
        (next ((buffer.drop piece.offset).take piece.length)).within buffer
      else none

def Holds (memory : Nat → B) (buffer : List B) : Prop :=
  ∀ i item, buffer[i]? = some item → memory i = item

def StaysInside (buffer : List B) (c : Loading B α) : Prop :=
  ∀ memory, Holds memory buffer →
    ∀ piece ∈ c.pieces memory, piece.offset + piece.length ≤ buffer.length

variable {memory : Nat → B} {buffer : List B} {c : Loading B α} {f : α → Loading B β}

theorem itemsOf_inside (holds : Holds memory buffer) {piece : Piece}
    (inside : piece.offset + piece.length ≤ buffer.length) :
    itemsOf memory piece = (buffer.drop piece.offset).take piece.length := by
  have lengths : (itemsOf memory piece).length = ((buffer.drop piece.offset).take piece.length).length := by
    simp only [itemsOf, List.length_map, List.length_range, List.length_take, List.length_drop]
    omega
  apply List.ext_getElem lengths
  intro i here _
  simp only [itemsOf, List.length_map, List.length_range] at here
  rw [List.getElem_take, List.getElem_drop]
  simp only [itemsOf, List.getElem_map, List.getElem_range]
  exact holds _ _ (List.getElem?_eq_getElem (by omega))

theorem within_eq_some_iff (holds : Holds memory buffer) {a : α} :
    c.within buffer = some a ↔ c.run memory = a ∧
      ∀ piece ∈ c.pieces memory, piece.offset + piece.length ≤ buffer.length := by
  induction c with
  | done b => simp [within, run, pieces]
  | load piece next ih =>
      simp only [within, run, pieces, List.forall_mem_cons]
      by_cases inside : piece.offset + piece.length ≤ buffer.length
      · rw [if_pos inside, itemsOf_inside holds inside, ih]
        simp only [inside, true_and]
      · simp only [inside, if_false, false_and, and_false, reduceCtorEq]

theorem exists_holds [Inhabited B] (buffer : List B) : ∃ memory, Holds memory buffer :=
  ⟨fun i => buffer[i]?.getD default, fun i item here => by simp only [here, Option.getD_some]⟩

theorem staysInside_iff [Inhabited B] : c.StaysInside buffer ↔ (c.within buffer).isSome := by
  constructor
  · intro inside
    obtain ⟨memory, holds⟩ := exists_holds buffer
    exact Option.isSome_iff_exists.mpr
      ⟨c.run memory, (within_eq_some_iff holds).mpr ⟨rfl, inside memory holds⟩⟩
  · intro found memory holds
    obtain ⟨a, found⟩ := Option.isSome_iff_exists.mp found
    exact ((within_eq_some_iff holds).mp found).2

@[simp] theorem within_pure (a : α) : (pure a : Loading B α).within buffer = some a := rfl

@[simp] theorem within_bind :
    (c >>= f).within buffer = (c.within buffer).bind fun a => (f a).within buffer := by
  change (c.bind f).within buffer = _
  induction c with
  | done a => rfl
  | load piece next ih =>
      simp only [bind, within]
      split
      · exact ih _
      · rfl

theorem within_items {offset n : Nat} (inside : offset + n ≤ buffer.length) :
    (items offset n).within buffer = some ((buffer.drop offset).take n) := if_pos inside

theorem within_item [Inhabited B] {offset : Nat} (inside : offset < buffer.length) :
    (item offset).within buffer = some buffer[offset] := by
  rw [item, within_bind, within_items (Nat.succ_le_of_lt inside), List.drop_eq_getElem_cons inside]
  rfl

theorem within_items_outside {offset n : Nat} (outside : buffer.length < offset + n) :
    (items offset n).within buffer = none := if_neg (Nat.not_le.mpr outside)

theorem staysInside_ite {p : Prop} [Decidable p] {d : Loading B α} :
    (if p then c else d).StaysInside buffer ↔
      (p → c.StaysInside buffer) ∧ (¬ p → d.StaysInside buffer) := by
  by_cases holds : p
  · simp [holds]
  · simp [holds]

section StaysInside
variable [Inhabited B]

@[simp] theorem staysInside_pure (a : α) : (pure a : Loading B α).StaysInside buffer :=
  staysInside_iff.mpr rfl

theorem staysInside_bind : (c >>= f).StaysInside buffer ↔
    ∃ a, c.within buffer = some a ∧ (f a).StaysInside buffer := by
  rw [staysInside_iff, within_bind]
  cases c.within buffer with
  | none => simp
  | some a => simp [staysInside_iff]

theorem staysInside_items {offset n : Nat} {g : List B → Loading B α} :
    (items offset n >>= g).StaysInside buffer ↔ offset + n ≤ buffer.length ∧
      (g ((buffer.drop offset).take n)).StaysInside buffer := by
  rw [staysInside_bind]
  by_cases inside : offset + n ≤ buffer.length
  · simp [within_items inside, inside]
  · simp [within_items_outside (Nat.not_le.mp inside), inside]

end StaysInside
end Loading

/-! ## Slices -/

structure Slice where
  offset : Nat
  size : Nat

namespace Slice

def content (s : Slice) (buffer : List B) : List B := (buffer.drop s.offset).take s.size

def removePrefix (s : Slice) (n : Nat) : Slice := ⟨s.offset + n, s.size - n⟩

def Inside (s : Slice) (buffer : List B) : Prop := s.offset + s.size ≤ buffer.length

variable {s : Slice} {buffer : List B} {n : Nat}

theorem length_content (inside : s.Inside buffer) : (s.content buffer).length = s.size := by
  unfold Inside at inside
  rw [content, List.length_take, List.length_drop]
  omega

theorem content_removePrefix : (s.removePrefix n).content buffer = (s.content buffer).drop n := by
  rw [content, content, removePrefix, List.drop_take, List.drop_drop]

theorem Inside.removePrefix (inside : s.Inside buffer) (enough : n ≤ s.size) :
    (s.removePrefix n).Inside buffer := by
  unfold Inside at inside ⊢
  simp only [Slice.removePrefix]
  omega

end Slice

def Decoder (B α : Type) := Slice → Loading B (Option (α × Slice))

namespace Decoder

instance : Monad (Decoder B) where
  pure a := fun s => pure (some (a, s))
  bind d f := fun s => do
    match ← d s with
    | none => pure none
    | some (a, s) => f a s

def require (n : Nat) : Decoder B Unit := fun s => pure (if s.size < n then none else some ((), s))

def next (n : Nat) : Decoder B (List B) := fun s => do
  let items ← Loading.items s.offset n
  return some (items, s.removePrefix n)

def failure : Decoder B α := fun _ => pure none

def firstOf : List B → Decoder B B
  | b :: _ => pure b
  | [] => failure

def item : Decoder B B := next 1 >>= firstOf

variable {buffer : List B} {s t : Slice} {d : Decoder B α} {g : α → Decoder B β} {a : α}

theorem within_bind_none (ran : (d s).within buffer = some none) :
    ((d >>= g) s).within buffer = some none := by
  refine Loading.within_bind.trans ?_
  rw [ran]
  rfl

theorem within_bind_some (ran : (d s).within buffer = some (some (a, t))) :
    ((d >>= g) s).within buffer = (g a t).within buffer := by
  refine Loading.within_bind.trans ?_
  rw [ran]
  rfl

end Decoder

def Same (buffer : List B) : Option (α × List B) → Option (α × Slice) → Prop
  | none, none => True
  | some (value, rest), some (value', s) => value' = value ∧ s.Inside buffer ∧ s.content buffer = rest
  | _, _ => False

def Follows (need : Nat) (p : Parser B α) (d : Decoder B α) : Prop :=
  ∀ buffer s, s.Inside buffer → need ≤ s.size →
    ∃ found, (d s).within buffer = some found ∧ Same buffer (p (s.content buffer)) found

structure Takes (n : Nat) (p : Parser B α) : Prop where
  long : ∀ input, n ≤ input.length → ∃ value, p input = some (value, input.drop n)
  short : ∀ input, input.length < n → p input = none

namespace Takes
variable {n m : Nat} {p : Parser B α} {f : α → Parser B β}

theorem take (n : Nat) : Takes n (Parser.take n : Parser B (List B)) where
  long input enough := ⟨input.take n, if_pos enough⟩
  short _ few := if_neg (Nat.not_le.mpr few)

theorem item : Takes 1 (Parser.item : Parser B B) where
  long input enough := by
    cases input with
    | nil => exact absurd enough (Nat.not_succ_le_zero 0)
    | cons b rest => exact ⟨b, rfl⟩
  short input few := by
    cases input with
    | nil => rfl
    | cons b rest => exact absurd few (Nat.not_lt.mpr (Nat.succ_le_succ (Nat.zero_le _)))

theorem pure (value : α) : Takes 0 (pure value : Parser B α) where
  long _ _ := ⟨value, rfl⟩
  short _ few := absurd few (Nat.not_lt_zero _)

theorem bind (here : Takes n p) (later : ∀ value, Takes m (f value)) : Takes (n + m) (p >>= f) where
  long input enough := by
    obtain ⟨value, first⟩ := here.long input (by omega)
    obtain ⟨result, second⟩ := (later value).long (input.drop n) (by rw [List.length_drop]; omega)
    refine ⟨result, ?_⟩
    change (p input).bind _ = _
    rw [List.drop_drop] at second
    rw [first]
    exact second
  short input few := by
    change (p input).bind _ = none
    by_cases enough : n ≤ input.length
    · obtain ⟨value, first⟩ := here.long input enough
      rw [first]
      exact (later value).short (input.drop n) (by rw [List.length_drop]; omega)
    · rw [here.short input (Nat.not_le.mp enough)]
      rfl

end Takes

namespace Follows
variable {need n : Nat} {p : Parser B α} {d : Decoder B α} {f : α → Parser B β}
  {g : α → Decoder B β}

theorem pure (value : α) : Follows 0 (pure value : Parser B α) (pure value) := by
  intro buffer s inside _
  exact ⟨some (value, s), rfl, rfl, inside, rfl⟩

theorem failure : Follows 0 (fun _ => none : Parser B α) Decoder.failure := by
  intro buffer s _ _
  exact ⟨none, rfl, trivial⟩

theorem bind (here : Follows need p d) (later : ∀ value, Follows 0 (f value) (g value)) :
    Follows need (p >>= f) (d >>= g) := by
  intro buffer s inside enough
  obtain ⟨found, ran, same⟩ := here buffer s inside enough
  have parsed : (p >>= f) (s.content buffer) =
      (p (s.content buffer)).bind fun found => f found.1 found.2 := rfl
  rw [parsed]
  rcases first : p (s.content buffer) with _ | ⟨value, rest⟩ <;> rw [first] at same <;>
    rcases found with _ | ⟨value', t⟩
  · exact ⟨none, Decoder.within_bind_none ran, trivial⟩
  · exact same.elim
  · exact same.elim
  · obtain ⟨rfl, inside', rfl⟩ := same
    rw [Decoder.within_bind_some ran]
    exact later value' buffer t inside' (Nat.zero_le _)

theorem bind_takes (here : Follows n p d) (takes : Takes n p)
    (later : ∀ value, Follows need (f value) (g value)) :
    Follows (n + need) (p >>= f) (d >>= g) := by
  intro buffer s inside enough
  have length := Slice.length_content inside
  obtain ⟨value, first⟩ := takes.long (s.content buffer) (by omega)
  obtain ⟨found, ran, same⟩ := here buffer s inside (by omega)
  rw [first] at same
  rcases found with _ | ⟨value', t⟩
  · exact same.elim
  obtain ⟨rfl, inside', rest⟩ := same
  have size : need ≤ t.size := by
    rw [← Slice.length_content inside', rest, List.length_drop]
    omega
  obtain ⟨found, ran', same⟩ := later value' buffer t inside' size
  refine ⟨found, ?_, ?_⟩
  · rw [Decoder.within_bind_some ran]
    exact ran'
  · change Same buffer ((p (s.content buffer)).bind _) found
    rw [first]
    simpa only [Option.bind_some, rest] using same

theorem require (here : Follows n p d) (takes : Takes n p) :
    Follows 0 p (Decoder.require n >>= fun _ => d) := by
  intro buffer s inside _
  have length := Slice.length_content inside
  by_cases enough : n ≤ s.size
  · obtain ⟨found, ran, same⟩ := here buffer s inside enough
    refine ⟨found, ?_, same⟩
    rw [← ran]
    have passed : Decoder.require n s = (Pure.pure (some ((), s)) : Loading B _) := by
      rw [Decoder.require, if_neg (Nat.not_lt.mpr enough)]
    change ((Decoder.require n s) >>= _).within buffer = _
    rw [passed]
    rfl
  · have refused : Decoder.require n s = (Pure.pure none : Loading B _) := by
      rw [Decoder.require, if_pos (Nat.not_le.mp enough)]
    refine ⟨none, ?_, ?_⟩
    · change ((Decoder.require n s) >>= _).within buffer = _
      rw [refused]
      rfl
    · rw [takes.short _ (by omega)]
      trivial

theorem next (n : Nat) : Follows n (Parser.take n : Parser B (List B)) (Decoder.next n) := by
  intro buffer s inside enough
  have length := Slice.length_content inside
  have fits : s.offset + n ≤ buffer.length := by
    unfold Slice.Inside at inside
    omega
  refine ⟨some ((buffer.drop s.offset).take n, s.removePrefix n), ?_, ?_⟩
  · simp only [Decoder.next, Loading.within_bind, Loading.within_items fits]
    rfl
  · rw [Parser.take, if_pos (by omega)]
    refine ⟨?_, inside.removePrefix enough, Slice.content_removePrefix⟩
    rw [Slice.content, List.take_take, Nat.min_eq_left enough]

theorem item : Follows 1 (Parser.item : Parser B B) Decoder.item := by
  intro buffer s inside enough
  have length := Slice.length_content inside
  obtain ⟨found, ran, same⟩ := next 1 buffer s inside enough
  rw [Parser.take, if_pos (by omega)] at same
  rcases found with _ | ⟨items, t⟩
  · exact same.elim
  obtain ⟨rfl, inside', rest⟩ := same
  cases content : s.content buffer with
  | nil =>
      rw [content, List.length_nil] at length
      omega
  | cons b more =>
      rw [content] at ran rest
      refine ⟨some (b, t), ?_, rfl, inside', rest⟩
      exact Decoder.within_bind_some ran

theorem take (n : Nat) : Follows 0 (Parser.take n : Parser B (List B))
    (Decoder.require n >>= fun _ => Decoder.next n) := (next n).require (Takes.take n)

theorem whole [Inhabited B] (follows : Follows 0 p d) (buffer : List B) :
    (d ⟨0, buffer.length⟩).StaysInside buffer ∧
      ∀ memory, Loading.Holds memory buffer →
        ((d ⟨0, buffer.length⟩).run memory).map Prod.fst = p.parse buffer := by
  have inside : Slice.Inside ⟨0, buffer.length⟩ buffer := (Nat.zero_add _).le
  have content : Slice.content ⟨0, buffer.length⟩ buffer = buffer := by
    rw [Slice.content, List.drop_zero, List.take_length]
  obtain ⟨found, ran, same⟩ := follows buffer _ inside (Nat.zero_le _)
  refine ⟨Loading.staysInside_iff.mpr (ran ▸ rfl), fun memory holds => ?_⟩
  rw [((Loading.within_eq_some_iff holds).mp ran).1, Parser.parse]
  rw [content] at same
  rcases parsed : p buffer with _ | ⟨value, rest⟩ <;> rw [parsed] at same <;>
    rcases found with _ | ⟨value', t⟩
  · rfl
  · exact same.elim
  · exact same.elim
  · exact congrArg some same.1

end Follows
end Loads
