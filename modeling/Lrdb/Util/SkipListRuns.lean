import Lrdb.Util.SkipListRemovals

namespace Lrdb.LinkedSkipList
open LinkedLists
variable {κ ν : Type} {cmp : κ → κ → Ordering}

/-! ## Operations -/

inductive Operation (κ ν : Type) where
  | insert (key : κ) (value : ν) (draws : Nat → Nat)
  | merge (key : κ) (value : ν) (draws : Nat → Nat)
  | delete (key : κ)
  | clear

def operate (cmp : κ → κ → Ordering) (list : LinkedSkipList κ ν) :
    Operation κ ν → Option (LinkedSkipList κ ν)
  | .insert key value draws => list.insert cmp key value draws
  | .merge key value draws => list.merge cmp key value draws
  | .delete key => (list.delete cmp key).map Prod.snd
  | .clear => list.clear

def contentAfter (cmp : κ → κ → Ordering) (content : κ → Option ν) : Operation κ ν → κ → Option ν
  | .insert key value _, other => if cmp key other = .eq then some value else content other
  | .merge key value _, other => if cmp key other = .eq then some value else content other
  | .delete key, other => if cmp key other = .eq then none else content other
  | .clear, _ => none

def contentOf (cmp : κ → κ → Ordering) (operations : List (Operation κ ν)) : κ → Option ν :=
  operations.foldl (contentAfter cmp) fun _ => none

structure Enumerates (cmp : κ → κ → Ordering) (content : κ → Option ν) (entries : List (κ × ν)) : Prop where
  ascending : Ascending cmp entries
  exact : ∀ key value, content key = some value ↔ ∃ node ∈ entries, cmp node.1 key = .eq ∧ node.2 = value

/-! ## Entries and the map -/

section Lookup
variable [Std.TransCmp cmp] {nodes : List (κ × ν)} {key other : κ} {value : ν}

def lookupNode (cmp : κ → κ → Ordering) (key : κ) (nodes : List (κ × ν)) : Option ν :=
  (nodes.find? fun node => equals cmp key node.1).map Prod.snd

theorem lookupNode_insertNode : lookupNode cmp other (insertNode cmp key value nodes) =
    if cmp key other = .eq then some value else lookupNode cmp other nodes := by
  induction nodes with
  | nil =>
      by_cases equal : cmp key other = .eq
      · simp [lookupNode, insertNode, equals, equal]
      · simp [lookupNode, insertNode, equals, equal]
  | cons node rest ih =>
      cases compared : cmp node.1 key with
      | lt =>
          by_cases equal : cmp key other = .eq
          · have before : cmp node.1 other = .lt := Std.TransCmp.lt_of_lt_of_eq compared equal
            rw [if_pos equal] at ih ⊢
            simpa [lookupNode, insertNode, compared, equals, before] using ih
          · rw [if_neg equal] at ih ⊢
            by_cases here : cmp node.1 other = .eq
            · simp [lookupNode, insertNode, compared, equals, here]
            · simpa [lookupNode, insertNode, compared, equals, here] using ih
      | eq =>
          have same : cmp node.1 other = cmp key other := Std.TransCmp.congr_left compared
          by_cases equal : cmp key other = .eq
          · simp [lookupNode, insertNode, compared, equals, same, equal]
          · simp [lookupNode, insertNode, compared, equals, same, equal]
      | gt =>
          by_cases equal : cmp key other = .eq
          · simp [lookupNode, insertNode, compared, equals, equal]
          · simp [lookupNode, insertNode, compared, equals, equal]

theorem lookupNode_filter :
    lookupNode cmp other (nodes.filter fun node => !equals cmp key node.1) =
      if cmp key other = .eq then none else lookupNode cmp other nodes := by
  induction nodes with
  | nil => simp [lookupNode]
  | cons node rest ih =>
      by_cases removed : cmp node.1 key = .eq
      · rw [List.filter_cons_of_neg (by simp [equals, removed]), ih]
        have same : cmp node.1 other = cmp key other := Std.TransCmp.congr_left removed
        by_cases equal : cmp key other = .eq
        · simp [equal]
        · simp [lookupNode, equals, same, equal]
      · rw [List.filter_cons_of_pos (by simp [equals, removed])]
        by_cases here : cmp node.1 other = .eq
        · have different : cmp key other ≠ .eq := by
            intro equal
            exact removed (Std.TransCmp.eq_trans here (Std.OrientedCmp.eq_symm equal))
          simp [lookupNode, equals, here, different]
        · simpa [lookupNode, equals, here] using ih

theorem lookupNode_eq_some (ascending : Ascending cmp nodes) :
    lookupNode cmp key nodes = some value ↔ ∃ node ∈ nodes, cmp node.1 key = .eq ∧ node.2 = value := by
  constructor
  · intro found
    obtain ⟨node, first, rfl⟩ := Option.map_eq_some_iff.mp found
    refine ⟨node, List.mem_of_find?_eq_some first, ?_, rfl⟩
    simpa [equals] using List.find?_some first
  · rintro ⟨node, member, equal, rfl⟩
    obtain ⟨before, after, rfl⟩ := List.append_of_mem member
    have earlier : before.find? (fun node => equals cmp key node.1) = none := by
      apply List.find?_eq_none.mpr
      intro m first
      have less := (List.pairwise_append.mp ascending).2.2 m first node (List.mem_cons_self ..)
      simp [equals, Std.TransCmp.lt_of_lt_of_eq less equal]
    rw [lookupNode, List.find?_append, earlier, Option.none_or,
      List.find?_cons_of_pos (by simp [equals, equal]), Option.map_some]

end Lookup

/-! ## Runs -/

section Operations
variable [Inhabited κ] [Inhabited ν] {list : LinkedSkipList κ ν} {levels : Nat → List Nat}

theorem levels_empty : Levels cmp (empty : LinkedSkipList κ ν) fun _ => [] where
  chained i inside := by
    show next _ i head = some none
    exact (next_allocateNode kMaxHeight i head).trans ((if_pos rfl).trans (if_pos inside))
  sorted _ := .nil
  sublist _ := List.Sublist.refl _
  empty _ _ := rfl
  counted := rfl
  positive := Nat.one_pos
  bounded := Nat.le_add_left 1 11
  fresh a high := Function.update_of_ne (Nat.ne_of_gt high) ..

theorem Levels.ascending (inv : Levels cmp list levels) : Ascending cmp (list.entries levels) :=
  List.pairwise_map.mpr (inv.sorted 0)

variable [Std.TransCmp cmp]

theorem Levels.operate_spec (inv : Levels cmp list levels) (operation : Operation κ ν) :
    ∃ after levels', operate cmp list operation = some after ∧ Levels cmp after levels' ∧
      ∀ key, lookupNode cmp key (after.entries levels') =
        contentAfter cmp (fun other => lookupNode cmp other (list.entries levels)) operation key := by
  cases operation with
  | insert key value draws =>
      obtain ⟨after, levels', ran, inv', nodes⟩ := inv.put_spec key value draws
      refine ⟨after, levels', ran, inv', ?_⟩
      intro other
      rw [nodes]
      exact lookupNode_insertNode
  | merge key value draws =>
      obtain ⟨after, levels', ran, inv', nodes⟩ := inv.put_spec key value draws
      refine ⟨after, levels', ran, inv', ?_⟩
      intro other
      rw [nodes]
      exact lookupNode_insertNode
  | delete key =>
      obtain ⟨after, levels', ran, inv', nodes⟩ := inv.delete_spec key
      refine ⟨after, levels', by simp [operate, ran], inv', ?_⟩
      intro other
      rw [nodes]
      exact lookupNode_filter
  | clear =>
      obtain ⟨after, ran, inv'⟩ := inv.clear_spec
      refine ⟨after, fun _ => [], ran, inv', ?_⟩
      intro other
      rfl

theorem Levels.operations_spec (inv : Levels cmp list levels) (operations : List (Operation κ ν)) :
    ∃ after levels', Runs.execute (operate cmp) list operations = some after ∧ Levels cmp after levels' ∧
      ∀ key, lookupNode cmp key (after.entries levels') =
        operations.foldl (contentAfter cmp)
          (fun other => lookupNode cmp other (list.entries levels)) key := by
  induction operations generalizing list levels with
  | nil => exact ⟨list, levels, rfl, inv, fun _ => rfl⟩
  | cons operation rest ih =>
      obtain ⟨first, levels₁, stepped, inv₁, content⟩ := inv.operate_spec operation
      obtain ⟨after, levels', ran, inv', found⟩ := ih inv₁
      refine ⟨after, levels', ?_, inv', ?_⟩
      · rw [Runs.execute, stepped]
        exact ran
      · rw [funext content] at found
        exact found

end Operations
end Lrdb.LinkedSkipList
