import Lrdb.Base.DepthFirst

/-!
# An order of mutexes

Threads hold mutexes, ask for one at a time, and wait on conditions. When every thread asks for a
mutex above those it holds, and a waiting thread holds none, no thread waits for itself.
-/

namespace LockOrder
open Relation
variable {C M : Type*}

structure System (C M : Type*) where
  holds : C → M → Prop
  requests : C → Option M
  /-- The thread waits on a condition. -/
  waits : C → Prop

variable {s : System C M}

def System.Blocked (s : System C M) (c : C) : Prop := ∃ mutex ∈ s.requests c, ∃ d, s.holds d mutex

/-- One thread waits for another: for a mutex the other one holds, or on a condition which the other
one, blocked itself, might have to signal. -/
def System.WaitsOn (s : System C M) (c d : C) : Prop :=
  (∃ mutex ∈ s.requests c, s.holds d mutex) ∨ s.waits c ∧ s.Blocked d

structure System.Ordered (s : System C M) (rank : M → Nat) : Prop where
  above : ∀ c, ∀ mutex ∈ s.requests c, ∀ held, s.holds c held → rank held < rank mutex
  empty : ∀ c, s.waits c → s.requests c = none ∧ ∀ mutex, ¬ s.holds c mutex

namespace System.Ordered
variable {rank : M → Nat}

theorem not_self (ordered : s.Ordered rank) {c : C} {mutex : M} (requested : mutex ∈ s.requests c) :
    ¬ s.holds c mutex :=
  fun held => lt_irrefl _ (ordered.above c mutex requested mutex held)

def height (s : System C M) (rank : M → Nat) (c : C) : Nat := ((s.requests c).map (rank · + 1)).getD 0

theorem height_lt (ordered : s.Ordered rank) {c d : C} (edge : s.WaitsOn c d)
    (onward : ∃ e, s.WaitsOn d e) : height s rank c < height s rank d := by
  rcases edge with ⟨mutex, requested, held⟩ | ⟨waits, last, requested, -⟩
  · obtain ⟨e, ⟨next, asked, -⟩ | ⟨waits, -⟩⟩ := onward
    · have rises := ordered.above d next asked mutex held
      rw [Option.mem_def] at requested asked
      simpa [height, requested, asked] using rises
    · exact absurd held ((ordered.empty d waits).2 mutex)
  · rw [Option.mem_def] at requested
    simp [height, (ordered.empty c waits).1, requested]

theorem acyclic (ordered : s.Ordered rank) (c : C) : ¬ TransGen s.WaitsOn c c := by
  intro cycle
  have rising : TransGen (fun a b => height s rank a < height s rank b) c c :=
    DepthFirst.cycle_lift (fun a b => ordered.height_lt) cycle
  have less : TransGen (· < ·) (height s rank c) (height s rank c) :=
    rising.lift (height s rank) fun _ _ => id
  rw [transGen_eq_self (r := fun a b : Nat => a < b)] at less
  exact lt_irrefl _ less

end System.Ordered
end LockOrder
