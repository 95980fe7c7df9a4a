import Mathlib.Order.Compare
import Mathlib.Data.List.Basic
import Lrdb.Base.Orders

/-!
# Skip lists

The bottom level of a skip list: nodes in ascending key order, one for each key. The upper levels
only speed the search up.
-/

namespace Lrdb
variable {κ ν : Type} (cmp : κ → κ → Ordering)

/-- Nodes from the first key not less than `key` on. -/
def seekNodes (key : κ) (nodes : List (κ × ν)) : List (κ × ν) :=
  nodes.dropWhile fun node => cmp node.1 key == .lt

def insertNode (key : κ) (value : ν) : List (κ × ν) → List (κ × ν)
  | [] => [(key, value)]
  | node :: rest =>
      match cmp node.1 key with
      | .lt => node :: insertNode key value rest
      | .eq => (node.1, value) :: rest
      | .gt => (key, value) :: node :: rest

def Ascending (nodes : List (κ × ν)) : Prop := nodes.Pairwise fun a b => cmp a.1 b.1 = .lt

structure SkipList (κ ν : Type) (cmp : κ → κ → Ordering) where
  nodes : List (κ × ν)
  ascending : Ascending cmp nodes

section Nodes
variable {cmp} [Std.TransCmp cmp] [Std.LawfulEqCmp cmp] {key : κ} {value : ν}

omit [Std.LawfulEqCmp cmp] in
private theorem compare_self_ne_lt (a : κ) : cmp a a ≠ .lt := by
  simp [@Std.ReflCmp.compare_self _ cmp]

theorem mem_insertNode {nodes : List (κ × ν)} (ascending : Ascending cmp nodes) (node : κ × ν) :
    node ∈ insertNode cmp key value nodes ↔
      node = (key, value) ∨ node ∈ nodes ∧ node.1 ≠ key := by
  induction nodes with
  | nil => simp [insertNode]
  | cons first rest ih =>
      obtain ⟨above, ascending⟩ := List.pairwise_cons.mp ascending
      cases compared : cmp first.1 key with
      | lt =>
          have different : first.1 ≠ key := by
            rintro rfl
            exact compare_self_ne_lt _ compared
          simp only [insertNode, compared, List.mem_cons, ih ascending]
          grind
      | eq =>
          have same : first.1 = key := Std.LawfulEqCmp.eq_of_compare compared
          have others : ∀ x ∈ rest, x.1 ≠ key := by
            rintro x member equal
            have less := above x member
            rw [equal, same] at less
            exact compare_self_ne_lt _ less
          simp only [insertNode, List.mem_cons, same]
          grind
      | gt =>
          have less : cmp key first.1 = .lt := Std.OrientedCmp.lt_of_gt compared
          have different : ∀ x ∈ first :: rest, x.1 ≠ key := by
            rintro x member rfl
            rcases List.mem_cons.mp member with rfl | member
            · exact compare_self_ne_lt _ less
            · exact compare_self_ne_lt _ (Std.TransCmp.lt_trans less (above x member))
          simp only [insertNode, compared, List.mem_cons]
          grind

theorem ascending_insertNode {nodes : List (κ × ν)} (ascending : Ascending cmp nodes) :
    Ascending cmp (insertNode cmp key value nodes) := by
  induction nodes with
  | nil => simp [insertNode, Ascending]
  | cons first rest ih =>
      obtain ⟨above, tail⟩ := List.pairwise_cons.mp ascending
      cases compared : cmp first.1 key with
      | lt =>
          simp only [insertNode, compared]
          refine List.pairwise_cons.mpr ⟨fun x member => ?_, ih tail⟩
          rcases (mem_insertNode tail x).mp member with rfl | ⟨member, -⟩
          · exact compared
          · exact above x member
      | eq =>
          simp only [insertNode, compared]
          exact List.pairwise_cons.mpr ⟨above, tail⟩
      | gt =>
          have less : cmp key first.1 = .lt := Std.OrientedCmp.lt_of_gt compared
          simp only [insertNode, compared]
          refine List.pairwise_cons.mpr ⟨fun x member => ?_, ascending⟩
          rcases List.mem_cons.mp member with rfl | member
          · exact less
          · exact Std.TransCmp.lt_trans less (above x member)

omit [Std.LawfulEqCmp cmp] in
theorem seekNodes_eq_filter {nodes : List (κ × ν)} (ascending : Ascending cmp nodes) :
    seekNodes cmp key nodes = nodes.filter fun node => cmp node.1 key != .lt := by
  induction nodes with
  | nil => rfl
  | cons first rest ih =>
      obtain ⟨above, tail⟩ := List.pairwise_cons.mp ascending
      cases compared : cmp first.1 key with
      | lt => simpa [seekNodes, compared] using ih tail
      | eq | gt =>
          have kept : ∀ x ∈ rest, cmp x.1 key ≠ .lt := by
            intro x member less
            have below := Std.TransCmp.lt_trans (above x member) less
            simp [compared] at below
          have all : rest.filter (fun node => cmp node.1 key != .lt) = rest :=
            List.filter_eq_self.mpr fun x member => by simpa using kept x member
          simp [seekNodes, compared, all]

end Nodes

/-! ## Under any order of the keys -/

/-- `SkipList::Get`. -/
def getNode (key : κ) (nodes : List (κ × ν)) : Option ν :=
  ((seekNodes cmp key nodes).head?.filter fun node => cmp node.1 key == .eq).map Prod.snd

section Laws
open Orders
variable {cmp} {s : Set κ} {key : κ} {nodes : List (κ × ν)}

theorem insertNode_spec (laws : Laws cmp s) (value : ν) (new : key ∈ s)
    (inside : ∀ node ∈ nodes, node.1 ∈ s) (ascending : Ascending cmp nodes) :
    (∃ node ∈ nodes, cmp node.1 key = .eq) ∧
        (insertNode cmp key value nodes).map Prod.fst = nodes.map Prod.fst ∨
      (∀ node ∈ nodes, cmp node.1 key ≠ .eq) ∧
        (insertNode cmp key value nodes).Perm ((key, value) :: nodes) ∧
        Ascending cmp (insertNode cmp key value nodes) := by
  induction nodes with
  | nil => exact .inr ⟨by simp, by simp [insertNode], by simp [insertNode, Ascending]⟩
  | cons first rest ih =>
      obtain ⟨above, tail⟩ := List.pairwise_cons.mp ascending
      obtain ⟨here, below⟩ := List.forall_mem_cons.mp inside
      cases compared : cmp first.1 key with
      | lt =>
          simp only [insertNode, compared]
          rcases ih below tail with ⟨⟨node, member, equal⟩, same⟩ | ⟨different, perm, sorted⟩
          · exact .inl ⟨⟨node, List.mem_cons_of_mem _ member, equal⟩, by simp [same]⟩
          · refine .inr ⟨?_, (perm.cons first).trans (List.Perm.swap ..), ?_⟩
            · exact List.forall_mem_cons.mpr ⟨by simp [compared], different⟩
            · refine List.pairwise_cons.mpr ⟨fun node member => ?_, sorted⟩
              rcases List.mem_cons.mp (perm.subset member) with rfl | member
              · exact compared
              · exact above node member
      | eq =>
          simp only [insertNode, compared]
          exact .inl ⟨⟨first, List.mem_cons_self, compared⟩, rfl⟩
      | gt =>
          have less : cmp key first.1 = .lt := by
            rw [laws.antisymmetric key new first.1 here, compared]
            rfl
          have before : ∀ node ∈ first :: rest, cmp key node.1 = .lt := by
            refine List.forall_mem_cons.mpr ⟨less, fun node member => ?_⟩
            exact laws.transitive key new first.1 here node.1 (below node member) less
              (above node member)
          simp only [insertNode, compared]
          refine .inr ⟨fun node member equal => ?_, .refl _, List.pairwise_cons.mpr ⟨before, ascending⟩⟩
          have back := laws.equal_symm node.1 (inside node member) key new equal
          rw [before node member] at back
          cases back

theorem getNode_self (ascending : Ascending cmp nodes)
    (same : ∀ node ∈ nodes, cmp node.1 node.1 = .eq) {node : κ × ν} (member : node ∈ nodes) :
    getNode cmp node.1 nodes = some node.2 := by
  induction nodes with
  | nil => cases member
  | cons first rest ih =>
      obtain ⟨above, tail⟩ := List.pairwise_cons.mp ascending
      rcases List.mem_cons.mp member with rfl | later
      · obtain ⟨key, value⟩ := node
        simp [getNode, seekNodes, same (key, value) member]
      · have found := ih tail (fun x inside => same x (List.mem_cons_of_mem _ inside)) later
        simpa [getNode, seekNodes, above node later] using found

end Laws

namespace SkipList
variable {cmp}

def empty : SkipList κ ν cmp := ⟨[], List.Pairwise.nil⟩

def insert [Std.TransCmp cmp] [Std.LawfulEqCmp cmp] (list : SkipList κ ν cmp) (key : κ)
    (value : ν) : SkipList κ ν cmp :=
  ⟨insertNode cmp key value list.nodes, ascending_insertNode list.ascending⟩

/-- Where `Iterator::Seek` leaves the iterator: the remaining nodes. -/
def seek (list : SkipList κ ν cmp) (key : κ) : List (κ × ν) := seekNodes cmp key list.nodes

@[simp] theorem nodes_empty : (empty : SkipList κ ν cmp).nodes = [] := rfl

theorem mem_insert [Std.TransCmp cmp] [Std.LawfulEqCmp cmp] {list : SkipList κ ν cmp} {key : κ}
    {value : ν} {node : κ × ν} : node ∈ (list.insert key value).nodes ↔
      node = (key, value) ∨ node ∈ list.nodes ∧ node.1 ≠ key :=
  mem_insertNode list.ascending node

theorem insert_nonempty [Std.TransCmp cmp] [Std.LawfulEqCmp cmp] (list : SkipList κ ν cmp)
    (key : κ) (value : ν) : (list.insert key value).nodes ≠ [] :=
  List.ne_nil_of_mem (mem_insert.mpr (.inl rfl))

end SkipList
end Lrdb
