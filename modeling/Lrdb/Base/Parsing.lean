import Mathlib.Data.List.TakeWhile

/-!
# Parsers

A parser takes a value off the front of its input, or fails. Two properties compose over its steps: it
yields a value from given bytes whatever follows them, and it is local, what follows its input does
not change what it finds.
-/

namespace Parsing
variable {B α β : Type}

abbrev Parser (B α : Type) := StateT (List B) Option α

namespace Parser

def item : Parser B B
  | [] => none
  | b :: rest => some (b, rest)

def take (n : Nat) : Parser B (List B) := fun input =>
  if n ≤ input.length then some (input.take n, input.drop n) else none

def parse (p : Parser B α) (input : List B) : Option α := (p input).map Prod.fst

end Parser

def Yields (p : Parser B α) (bytes : List B) (value : α) : Prop :=
  ∀ rest, p (bytes ++ rest) = some (value, rest)

def Local (p : Parser B α) : Prop :=
  ∀ input value rest more, p input = some (value, rest) → p (input ++ more) = some (value, rest ++ more)

theorem bind_some {p : Parser B α} {f : α → Parser B β} {input rest : List B} {value : β}
    (found : (p >>= f) input = some (value, rest)) :
    ∃ first middle, p input = some (first, middle) ∧ f first middle = some (value, rest) := by
  obtain ⟨⟨first, middle⟩, here, next⟩ := Option.bind_eq_some_iff.mp found
  exact ⟨first, middle, here, next⟩

theorem pure_some {value found : α} {input rest : List B}
    (same : (pure value : Parser B α) input = some (found, rest)) : value = found ∧ input = rest :=
  Prod.mk.inj (Option.some.inj same)

/-! ## What is yielded -/

namespace Yields

theorem pure (value : α) : Yields (pure value : Parser B α) [] value := fun _ => rfl

theorem bind {p : Parser B α} {f : α → Parser B β} {first later : List B} {value : α} {result : β}
    (here : Yields p first value) (next : Yields (f value) later result) :
    Yields (p >>= f) (first ++ later) result := by
  intro rest
  have taken : p (first ++ (later ++ rest)) = some (value, later ++ rest) := here (later ++ rest)
  change (p (first ++ later ++ rest)).bind (fun found => f found.1 found.2) = some (result, rest)
  rw [List.append_assoc, taken]
  exact next rest

theorem item (b : B) : Yields Parser.item [b] b := fun _ => rfl

theorem take {n : Nat} {bytes : List B} (length : bytes.length = n) :
    Yields (Parser.take n) bytes bytes := by
  intro rest
  have fits : n ≤ (bytes ++ rest).length := by rw [List.length_append]; omega
  rw [Parser.take, if_pos fits, ← length, List.take_left, List.drop_left]

end Yields

/-! ## Local parsers -/

namespace Local

theorem pure (value : α) : Local (pure value : Parser B α) := by
  intro input found rest more same
  obtain ⟨rfl, rfl⟩ := pure_some same
  rfl

theorem bind {p : Parser B α} {f : α → Parser B β} (here : Local p) (next : ∀ value, Local (f value)) :
    Local (p >>= f) := by
  intro input value rest more found
  obtain ⟨first, middle, taken, later⟩ := bind_some found
  change (p (input ++ more)).bind (fun found => f found.1 found.2) = _
  rw [here _ _ _ more taken]
  exact next first _ _ _ more later

theorem failure : Local (fun _ => none : Parser B α) := by
  intro input value rest more found
  cases found

theorem item : Local (Parser.item : Parser B B) := by
  intro input value rest more found
  cases input with
  | nil => cases found
  | cons b tail =>
      obtain ⟨rfl, rfl⟩ := Prod.mk.inj (Option.some.inj found)
      rfl

theorem take (n : Nat) : Local (Parser.take n : Parser B (List B)) := by
  intro input value rest more found
  rw [Parser.take] at found
  split at found <;> [rename_i fits; cases found]
  obtain ⟨rfl, rfl⟩ := Prod.mk.inj (Option.some.inj found)
  have still : n ≤ (input ++ more).length := by rw [List.length_append]; omega
  rw [Parser.take, if_pos still, List.take_append_of_le_length fits, List.drop_append_of_le_length fits]

theorem of_prefix {p : Parser B α} {input bytes : List B} {value found : α} (isLocal : Local p)
    (yields : Yields p bytes value) (part : input <+: bytes) (parsed : p.parse input = some found) :
    found = value := by
  obtain ⟨more, rfl⟩ := part
  obtain ⟨⟨_, rest⟩, here, rfl⟩ := Option.map_eq_some_iff.mp parsed
  have whole := yields []
  rw [List.append_nil, isLocal _ _ _ more here] at whole
  exact (Prod.mk.inj (Option.some.inj whole)).1

end Local
end Parsing
