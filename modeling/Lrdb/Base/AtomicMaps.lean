import Mathlib.Data.List.Basic

namespace AtomicMaps
variable {K V : Type*} [DecidableEq K]

def apply (writes : List (K × Option V)) (map : K → Option V) : K → Option V := fun key =>
  ((writes.find? fun write => write.1 = key).map Prod.snd).getD (map key)

def after (history : List (List (K × Option V))) (map : K → Option V) : K → Option V :=
  history.foldr apply map

variable {writes : List (K × Option V)} {history : List (List (K × Option V))} {map : K → Option V}

@[simp] theorem after_nil : after [] map = map := rfl

@[simp] theorem after_cons : after (writes :: history) map = apply writes (after history map) := rfl

theorem after_eq (history : List (List (K × Option V))) (map : K → Option V) (key : K) :
    after history map key =
      ((history.flatten.find? fun write => write.1 = key).map Prod.snd).getD (map key) := by
  induction history with
  | nil => rfl
  | cons writes rest ih =>
      rw [after_cons, apply, ih, List.flatten_cons, List.find?_append]
      cases writes.find? fun write => write.1 = key <;> rfl

end AtomicMaps
