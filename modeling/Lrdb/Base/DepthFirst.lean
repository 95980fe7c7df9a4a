import Mathlib.Data.Finset.Card
import Mathlib.Data.Finset.SDiff
import Mathlib.Logic.Relation

/-!
# Depth-first search for a cycle

The search marks every vertex it enters and fails when it meets the path it stands on. It fails
exactly when a cycle can be reached from where it starts.
-/

namespace DepthFirst
open Relation
variable {V : Type*}

def Edge (next : V → List V) (v w : V) : Prop := w ∈ next v

def Acyclic (next : V → List V) : Prop := ∀ v, ¬ TransGen (Edge next) v v

theorem Acyclic.mono {next fewer : V → List V} (acyclic : Acyclic next)
    (kept : ∀ v w, Edge fewer v w → Edge next v w) : Acyclic fewer :=
  fun v cycle => acyclic v (TransGen.mono kept _ _ cycle)

theorem cycle_lift {r s : V → V → Prop} (step : ∀ a b, r a b → (∃ c, r b c) → s a b) {v : V}
    (cycle : TransGen r v v) : TransGen s v v := by
  have onward {a b : V} (path : TransGen r a b) (more : ∃ c, r b c) : TransGen s a b := by
    induction path with
    | single edge => exact .single (step _ _ edge more)
    | tail _ edge ih => exact (ih ⟨_, edge⟩).tail (step _ _ edge more)
  obtain ⟨c, edge, -⟩ := TransGen.head'_iff.mp cycle
  exact onward cycle ⟨c, edge⟩

theorem Acyclic.extend {next more : V → List V} {root : V} (acyclic : Acyclic next)
    (new : ∀ v w, Edge more v w → Edge next v w ∨ v = root)
    (clear : ∀ c, ReflTransGen (Edge more) root c → ¬ TransGen (Edge more) c c) :
    Acyclic more := by
  have old_or_reached {v w : V} (path : TransGen (Edge more) v w) :
      TransGen (Edge next) v w ∨ ReflTransGen (Edge more) root w := by
    induction path with
    | single edge =>
        rcases new _ _ edge with old | rfl
        · exact .inl (.single old)
        · exact .inr (.single edge)
    | tail _ edge ih =>
        rcases ih with before | reached
        · rcases new _ _ edge with old | rfl
          · exact .inl (before.tail old)
          · exact .inr (.single edge)
        · exact .inr (reached.tail edge)
  intro v cycle
  rcases old_or_reached cycle with old | reached
  · exact acyclic v old
  · exact clear v reached cycle

section Search
variable [DecidableEq V] {next : V → List V}

def search (next : V → List V) : Nat → List V → List V → V → Except (List V) (List V)
  | 0, _, marked, _ => .ok marked
  | fuel + 1, path, marked, v =>
      if v ∈ path then .error path
      else if v ∈ marked then .ok marked
      else (next v).foldlM (search next fuel (v :: path)) (v :: marked)

theorem exists_of_foldlM_error {ε α β : Type*} {f : β → α → Except ε β} {xs : List α} {b : β}
    {e : ε} (failed : xs.foldlM f b = .error e) : ∃ x ∈ xs, ∃ c, f c x = .error e := by
  induction xs generalizing b with
  | nil => cases failed
  | cons x xs ih =>
      rw [List.foldlM_cons] at failed
      cases first : f b x with
      | error e' =>
          rw [first] at failed
          obtain rfl : e' = e := Except.error.inj failed
          exact ⟨x, List.mem_cons_self, b, first⟩
      | ok c =>
          rw [first] at failed
          obtain ⟨y, member, d, found⟩ := ih failed
          exact ⟨y, List.mem_cons_of_mem x member, d, found⟩

/-! ## A failure is a cycle -/

theorem cycle_of_search {fuel : Nat} {path marked found : List V} {v : V}
    (behind : ∀ u ∈ path, TransGen (Edge next) u v)
    (failed : search next fuel path marked v = .error found) :
    ∃ c, ReflTransGen (Edge next) v c ∧ TransGen (Edge next) c c := by
  induction fuel generalizing path marked v with
  | zero => cases failed
  | succ fuel ih =>
      rw [search] at failed
      split at failed
      · rename_i onPath
        exact ⟨v, .refl, behind v onPath⟩
      split at failed
      · cases failed
      obtain ⟨w, edge, marked', failed⟩ := exists_of_foldlM_error failed
      have further : ∀ u ∈ v :: path, TransGen (Edge next) u w := by
        intro u member
        rcases List.mem_cons.mp member with rfl | member
        · exact .single edge
        · exact (behind u member).tail edge
      obtain ⟨c, reached, cycle⟩ := ih further failed
      exact ⟨c, .head edge reached, cycle⟩

end Search

/-! ## A success leaves no cycle behind -/

section Done
variable {next : V → List V}

structure Done (next : V → List V) (path marked : List V) : Prop where
  closed : ∀ v ∈ marked, v ∉ path → ∀ w ∈ next v, w ∈ marked ∧ w ∉ path
  acyclic : ∀ v ∈ marked, v ∉ path → ¬ TransGen (Edge next) v v

private theorem notMem_cons {u v : V} {path : List V} : u ∉ v :: path ↔ u ≠ v ∧ u ∉ path := by
  rw [List.mem_cons, not_or]

theorem Done.reach {path marked : List V} (done : Done next path marked) {v w : V}
    (reached : ReflTransGen (Edge next) v w) (member : v ∈ marked) (off : v ∉ path) :
    w ∈ marked ∧ w ∉ path := by
  induction reached with
  | refl => exact ⟨member, off⟩
  | tail _ edge ih => exact done.closed _ ih.1 ih.2 _ edge

theorem Done.enter {path marked : List V} (done : Done next path marked) {v : V}
    (new : v ∉ marked) : Done next (v :: path) (v :: marked) := by
  have old {u : V} (member : u ∈ v :: marked) (off : u ∉ v :: path) : u ∈ marked ∧ u ∉ path := by
    obtain ⟨different, off⟩ := notMem_cons.mp off
    exact ⟨(List.mem_cons.mp member).resolve_left different, off⟩
  constructor
  · intro u member off w edge
    obtain ⟨member, off⟩ := old member off
    obtain ⟨inside, away⟩ := done.closed u member off w edge
    exact ⟨List.mem_cons_of_mem v inside,
      notMem_cons.mpr ⟨fun same => new (same ▸ inside), away⟩⟩
  · intro u member off
    obtain ⟨member, off⟩ := old member off
    exact done.acyclic u member off

theorem Done.leave {path marked : List V} {v : V} (done : Done next (v :: path) marked)
    (successors : ∀ w ∈ next v, w ∈ marked ∧ w ∉ v :: path) : Done next path marked := by
  have split {u : V} (off : u ∉ path) : u = v ∨ u ∉ v :: path := by
    by_cases same : u = v
    · exact .inl same
    · exact .inr (notMem_cons.mpr ⟨same, off⟩)
  have fewer {w : V} (off : w ∉ v :: path) : w ∉ path := (notMem_cons.mp off).2
  constructor
  · intro u member off w edge
    rcases split off with rfl | off
    · exact (successors w edge).imp_right fewer
    · exact (done.closed u member off w edge).imp_right fewer
  · intro u member off cycle
    rcases split off with rfl | off
    · obtain ⟨w, edge, back⟩ := TransGen.head'_iff.mp cycle
      obtain ⟨inside, away⟩ := successors w edge
      exact (done.reach back inside away).2 List.mem_cons_self
    · exact done.acyclic u member off cycle

end Done

section Complete
variable [DecidableEq V] {next : V → List V}

private theorem unmarked_lt {vertices : Finset V} {marked : List V} {v : V} (inside : v ∈ vertices)
    (new : v ∉ marked) :
    (vertices \ (v :: marked).toFinset).card < (vertices \ marked.toFinset).card := by
  apply Finset.card_lt_card
  rw [Finset.ssubset_iff_of_subset]
  · exact ⟨v, by simp [inside, new], by simp⟩
  · exact Finset.sdiff_subset_sdiff subset_rfl (by simp)

private theorem unmarked_le {vertices : Finset V} {marked more : List V} (grown : marked ⊆ more) :
    (vertices \ more.toFinset).card ≤ (vertices \ marked.toFinset).card := by
  apply Finset.card_le_card
  apply Finset.sdiff_subset_sdiff subset_rfl
  intro u member
  exact List.mem_toFinset.mpr (grown (List.mem_toFinset.mp member))

theorem done_of_foldlM {vertices : Finset V} {fuel : Nat} {path : List V}
    (visit : ∀ {marked after : List V} {w : V}, w ∈ vertices → Done next path marked →
      (vertices \ marked.toFinset).card < fuel → search next fuel path marked w = .ok after →
      Done next path after ∧ marked ⊆ after ∧ w ∈ after ∧ w ∉ path)
    {ws : List V} (inside : ∀ w ∈ ws, w ∈ vertices) {marked after : List V}
    (done : Done next path marked) (fueled : (vertices \ marked.toFinset).card < fuel)
    (succeeded : ws.foldlM (search next fuel path) marked = .ok after) :
    Done next path after ∧ marked ⊆ after ∧ ∀ w ∈ ws, w ∈ after ∧ w ∉ path := by
  induction ws generalizing marked with
  | nil =>
      obtain rfl : marked = after := Except.ok.inj succeeded
      exact ⟨done, List.Subset.refl marked, by simp⟩
  | cons w ws ih =>
      rw [List.foldlM_cons] at succeeded
      cases first : search next fuel path marked w with
      | error found => rw [first] at succeeded; cases succeeded
      | ok between =>
          rw [first] at succeeded
          obtain ⟨head, tail⟩ := List.forall_mem_cons.mp inside
          obtain ⟨done, grown, here, off⟩ := visit head done fueled first
          obtain ⟨done, grown', rest⟩ := ih tail done ((unmarked_le grown).trans_lt fueled) succeeded
          refine ⟨done, List.Subset.trans grown grown', ?_⟩
          intro u member
          rcases List.mem_cons.mp member with rfl | member
          · exact ⟨grown' here, off⟩
          · exact rest u member

theorem done_of_search {vertices : Finset V} (inside : ∀ v, ∀ w ∈ next v, w ∈ vertices)
    {fuel : Nat} {path marked after : List V} {v : V} (here : v ∈ vertices)
    (done : Done next path marked) (fueled : (vertices \ marked.toFinset).card < fuel)
    (succeeded : search next fuel path marked v = .ok after) :
    Done next path after ∧ marked ⊆ after ∧ v ∈ after ∧ v ∉ path := by
  induction fuel generalizing path marked after v with
  | zero => exact absurd fueled (Nat.not_lt_zero _)
  | succ fuel ih =>
      rw [search] at succeeded
      split at succeeded
      · cases succeeded
      rename_i off
      split at succeeded
      · rename_i old
        obtain rfl : marked = after := Except.ok.inj succeeded
        exact ⟨done, List.Subset.refl marked, old, off⟩
      rename_i new
      have enough : (vertices \ (v :: marked).toFinset).card < fuel :=
        (unmarked_lt here new).trans_le (Nat.lt_succ_iff.mp fueled)
      obtain ⟨finished, grown, successors⟩ :=
        done_of_foldlM ih (inside v) (done.enter new) enough succeeded
      refine ⟨finished.leave successors, ?_, grown List.mem_cons_self, off⟩
      exact List.Subset.trans (List.subset_cons_self v marked) grown

theorem search_error_iff {vertices : Finset V} (inside : ∀ v, ∀ w ∈ next v, w ∈ vertices)
    {fuel : Nat} (fueled : vertices.card < fuel) {v : V} (here : v ∈ vertices) :
    (∃ path, search next fuel [] [] v = .error path) ↔
      ∃ c, ReflTransGen (Edge next) v c ∧ TransGen (Edge next) c c := by
  constructor
  · rintro ⟨path, failed⟩
    exact cycle_of_search (by simp) failed
  · rintro ⟨c, reached, cycle⟩
    cases result : search next fuel [] [] v with
    | error path => exact ⟨path, rfl⟩
    | ok after =>
        have start : Done next [] [] := ⟨by simp, by simp⟩
        obtain ⟨done, -, member, off⟩ := done_of_search inside here start (by simpa) result
        obtain ⟨marked, away⟩ := done.reach reached member off
        exact absurd cycle (done.acyclic c marked away)

end Complete
end DepthFirst
