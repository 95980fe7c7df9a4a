import Lrdb.Base.AtomicMaps

/-!
# Transactions one after another

A transaction that depends on the map only through what it has read writes the same in a serial
execution, when what it has read is what the transactions before it have left.
-/

namespace AtomicMaps
variable {K V T : Type*} [DecidableEq K]

structure Observation (T K V : Type*) where
  txn : T
  key : K
  content : Option V
  deriving DecidableEq

def serial (bodies : List ((K → Option V) → List (K × Option V))) (map : K → Option V) : K → Option V :=
  bodies.foldr (fun body map => apply (body map) map) map

def Follows (observed : List (Observation T K V)) (txn : T)
    (body : (K → Option V) → List (K × Option V)) (writes : List (K × Option V)) : Prop :=
  ∀ map, (∀ o ∈ observed, o.txn = txn → map o.key = o.content) → body map = writes

def ObservesSerially (observed : List (Observation T K V)) (initial : K → Option V) :
    List (T × List (K × Option V)) → Prop
  | [] => True
  | (txn, _) :: older =>
      (∀ o ∈ observed, o.txn = txn → after (older.map Prod.snd) initial o.key = o.content) ∧
        ObservesSerially observed initial older

variable {observed : List (Observation T K V)} {initial : K → Option V}
  {history : List (T × List (K × Option V))}

@[simp] theorem serial_cons (body : (K → Option V) → List (K × Option V))
    (bodies : List ((K → Option V) → List (K × Option V))) :
    serial (body :: bodies) initial = apply (body (serial bodies initial)) (serial bodies initial) := rfl

theorem observesSerially_nil (initial : K → Option V) (history : List (T × List (K × Option V))) :
    ObservesSerially [] initial history := by
  induction history with
  | nil => trivial
  | cons _ _ ih => exact ⟨by simp, ih⟩

theorem ObservesSerially.observe (observes : ObservesSerially observed initial history)
    {o : Observation T K V} (outside : ∀ h ∈ history, h.1 ≠ o.txn) :
    ObservesSerially (o :: observed) initial history := by
  induction history with
  | nil => trivial
  | cons h older ih =>
      obtain ⟨here, before⟩ := observes
      obtain ⟨different, others⟩ := List.forall_mem_cons.mp outside
      refine ⟨fun p member same => ?_, ih before others⟩
      rcases List.mem_cons.mp member with rfl | member
      · exact absurd same.symm different
      · exact here p member same

theorem after_eq_serial (observes : ObservesSerially observed initial history)
    {bodies : T → (K → Option V) → List (K × Option V)}
    (follows : ∀ h ∈ history, Follows observed h.1 (bodies h.1) h.2) :
    after (history.map Prod.snd) initial = serial (history.map fun h => bodies h.1) initial := by
  induction history with
  | nil => rfl
  | cons h older ih =>
      obtain ⟨here, before⟩ := observes
      obtain ⟨first, others⟩ := List.forall_mem_cons.mp follows
      have same := ih before others
      rw [List.map_cons, List.map_cons, after_cons, serial_cons, ← same, first _ here]

end AtomicMaps
