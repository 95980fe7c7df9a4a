import Mathlib.Data.List.Basic

namespace Traces
variable {E ε α β : Type}

structure Traced (E ε α : Type) where
  events : List E
  result : Except ε α

namespace Traced

def bind (x : Traced E ε α) (f : α → Traced E ε β) : Traced E ε β :=
  match x.result with
  | .error e => ⟨x.events, .error e⟩
  | .ok a => ⟨x.events ++ (f a).events, (f a).result⟩

instance : Monad (Traced E ε) where
  pure a := ⟨[], .ok a⟩
  bind := bind

def lift (result : Except ε α) : Traced E ε α := ⟨[], result⟩

def event (e : E) (result : Except ε α) : Traced E ε α := ⟨[e], result⟩

variable {x : Traced E ε α} {f : α → Traced E ε β} {e : E}

@[simp] theorem result_pure (a : α) : (pure a : Traced E ε α).result = .ok a := rfl

@[simp] theorem result_lift (result : Except ε α) : (lift result : Traced E ε α).result = result := rfl

@[simp] theorem result_event (result : Except ε α) : (event e result).result = result := rfl

@[simp] theorem result_bind : (x >>= f).result = x.result >>= fun a => (f a).result := by
  change (x.bind f).result = x.result.bind _
  rw [bind]
  cases x.result <;> rfl

@[simp] theorem events_pure (a : α) : (pure a : Traced E ε α).events = [] := rfl

@[simp] theorem events_lift (result : Except ε α) : (lift result : Traced E ε α).events = [] := rfl

@[simp] theorem mem_event {e' : E} {result : Except ε α} : e' ∈ (event e result).events ↔ e' = e :=
  List.mem_singleton

@[simp] theorem mem_bind :
    e ∈ (x >>= f).events ↔ e ∈ x.events ∨ ∃ a, x.result = .ok a ∧ e ∈ (f a).events := by
  change e ∈ (x.bind f).events ↔ _
  rw [bind]
  cases x.result <;> simp

end Traced
end Traces
