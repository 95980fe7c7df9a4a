import Lrdb.Base.DepthFirst

/-!
# The wait-for graph

An edge leads from a transaction that waits to one that holds what it waits for. Before a
transaction waits, a search from it looks for a cycle.
-/

namespace Lrdb
open DepthFirst Relation

/-- The rows of `g_` as pairs of a waiter and a holder. -/
structure WaitForGraph where
  edges : List (Nat × Nat) := []
  deriving DecidableEq, Repr

namespace WaitForGraph

def addEdge (g : WaitForGraph) (waiter holder : Nat) : WaitForGraph :=
  ⟨g.edges.insert (waiter, holder)⟩

def removeEdgesFor (g : WaitForGraph) (txn : Nat) : WaitForGraph :=
  ⟨g.edges.filter fun e => e.1 != txn && e.2 != txn⟩

def next (g : WaitForGraph) (txn : Nat) : List Nat :=
  (g.edges.filter fun e => e.1 == txn).map Prod.snd

def nodes (g : WaitForGraph) : List Nat := g.edges.flatMap fun e => [e.1, e.2]

def dfs (g : WaitForGraph) (start : Nat) : Except (List Nat) (List Nat) :=
  search g.next (g.nodes.length + 2) [] [] start

/-- The edge goes into a copy, and the search is of the graph itself. -/
def wouldCreateCycle (g : WaitForGraph) (waiter holder : Nat) : Bool :=
  let _copy := g.addEdge waiter holder
  match g.dfs waiter with
  | .error _ => true
  | .ok _ => false

/-- The victim is the greatest transaction on the path of the search. -/
def detectCycle (g : WaitForGraph) : Option Nat :=
  g.nodes.findSome? fun txn =>
    match g.dfs txn with
    | .error path => some (path.foldl max 0)
    | .ok _ => none

def addEdges (g : WaitForGraph) (waiter : Nat) (holders : List Nat) : WaitForGraph :=
  holders.foldl (fun g holder => g.addEdge waiter holder) g

def Edge (g : WaitForGraph) (waiter holder : Nat) : Prop := (waiter, holder) ∈ g.edges

instance (g : WaitForGraph) (waiter holder : Nat) : Decidable (g.Edge waiter holder) :=
  inferInstanceAs (Decidable (_ ∈ _))

def Acyclic (g : WaitForGraph) : Prop := DepthFirst.Acyclic g.next

variable {g : WaitForGraph} {txn waiter holder : Nat}

theorem edge_next : DepthFirst.Edge g.next waiter holder ↔ g.Edge waiter holder := by
  simp [DepthFirst.Edge, next, Edge]

@[simp] theorem edge_addEdge {a b : Nat} :
    (g.addEdge waiter holder).Edge a b ↔ (a = waiter ∧ b = holder) ∨ g.Edge a b := by
  simp [addEdge, Edge]

@[simp] theorem edge_removeEdgesFor {a b : Nat} :
    (g.removeEdgesFor txn).Edge a b ↔ g.Edge a b ∧ a ≠ txn ∧ b ≠ txn := by
  simp [removeEdgesFor, Edge]

@[simp] theorem edge_addEdges {holders : List Nat} {a b : Nat} :
    (g.addEdges waiter holders).Edge a b ↔ (a = waiter ∧ b ∈ holders) ∨ g.Edge a b := by
  induction holders generalizing g with
  | nil => simp [addEdges]
  | cons holder holders ih =>
      change ((g.addEdge waiter holder).addEdges waiter holders).Edge a b ↔ _
      rw [ih, edge_addEdge, List.mem_cons]
      tauto

theorem edge_next_eq : DepthFirst.Edge g.next = g.Edge := by
  funext a b
  exact propext edge_next

theorem mem_nodes_of_edge (edge : g.Edge waiter holder) :
    waiter ∈ g.nodes ∧ holder ∈ g.nodes := by
  constructor <;> exact List.mem_flatMap.mpr ⟨_, edge, by simp⟩

theorem dfs_error_iff : (∃ path, g.dfs txn = .error path) ↔
    ∃ c, ReflTransGen g.Edge txn c ∧ TransGen g.Edge c c := by
  rw [← edge_next_eq]
  have inside : ∀ v, ∀ w ∈ g.next v, w ∈ insert txn g.nodes.toFinset := by
    intro v w edge
    have member := (mem_nodes_of_edge (edge_next.mp edge)).2
    exact Finset.mem_insert_of_mem (List.mem_toFinset.mpr member)
  have bound := (Finset.card_insert_le txn g.nodes.toFinset).trans
    (Nat.succ_le_succ (List.toFinset_card_le g.nodes))
  exact search_error_iff inside (Nat.lt_succ_of_le bound) (Finset.mem_insert_self ..)

theorem wouldCreateCycle_iff : g.wouldCreateCycle waiter holder ↔
    ∃ c, ReflTransGen g.Edge waiter c ∧ TransGen g.Edge c c := by
  rw [← dfs_error_iff, wouldCreateCycle]
  cases g.dfs waiter <;> simp

theorem acyclic_iff : g.Acyclic ↔ ∀ v, ¬ TransGen g.Edge v v := by
  rw [Acyclic, DepthFirst.Acyclic, edge_next_eq]

theorem Acyclic.detectCycle (acyclic : g.Acyclic) : g.detectCycle = none := by
  rw [WaitForGraph.detectCycle, List.findSome?_eq_none_iff]
  intro txn _
  cases result : g.dfs txn with
  | ok _ => rfl
  | error path =>
      obtain ⟨c, -, cycle⟩ := dfs_error_iff.mp ⟨path, result⟩
      exact absurd cycle (acyclic_iff.mp acyclic c)

theorem acyclic_nil : Acyclic {} := by
  rw [acyclic_iff]
  intro v cycle
  obtain ⟨w, edge, -⟩ := TransGen.head'_iff.mp cycle
  cases edge

theorem Acyclic.removeEdgesFor (acyclic : g.Acyclic) : (g.removeEdgesFor txn).Acyclic := by
  apply DepthFirst.Acyclic.mono acyclic
  intro v w edge
  exact edge_next.mpr (edge_removeEdgesFor.mp (edge_next.mp edge)).1

theorem Acyclic.addEdges (acyclic : g.Acyclic) {holders : List Nat}
    (passed : ¬ (g.addEdges waiter holders).wouldCreateCycle waiter holder) :
    (g.addEdges waiter holders).Acyclic := by
  rw [wouldCreateCycle_iff] at passed
  push Not at passed
  have new : ∀ v w, DepthFirst.Edge (g.addEdges waiter holders).next v w →
      DepthFirst.Edge g.next v w ∨ v = waiter := by
    intro v w edge
    rcases edge_addEdges.mp (edge_next.mp edge) with ⟨rfl, -⟩ | old
    · exact .inr rfl
    · exact .inl (edge_next.mpr old)
  apply DepthFirst.Acyclic.extend acyclic new
  intro c reached cycle
  rw [edge_next_eq] at reached cycle
  exact passed c reached cycle

theorem Acyclic.wait (acyclic : g.Acyclic) {holders : List Nat}
    (passed : ∀ holder ∈ holders, ¬ (g.addEdges waiter holders).wouldCreateCycle waiter holder) :
    (g.addEdges waiter holders).Acyclic := by
  cases holders with
  | nil => exact acyclic
  | cons holder _ => exact acyclic.addEdges (passed holder List.mem_cons_self)

theorem Acyclic.refuse (acyclic : g.Acyclic) (holders : List Nat) :
    ((g.addEdges waiter holders).removeEdgesFor waiter).Acyclic := by
  apply DepthFirst.Acyclic.mono acyclic
  intro v w edge
  obtain ⟨edge, different, -⟩ := edge_removeEdgesFor.mp (edge_next.mp edge)
  rcases edge_addEdges.mp edge with ⟨same, -⟩ | old
  · exact absurd same different
  · exact edge_next.mpr old

end WaitForGraph
end Lrdb
