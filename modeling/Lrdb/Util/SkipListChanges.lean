import Lrdb.Util.SkipListLevels

namespace Lrdb.LinkedSkipList
open LinkedLists
variable {κ ν : Type} [Inhabited κ] [Inhabited ν] {cmp : κ → κ → Ordering} {list : LinkedSkipList κ ν}
  {levels : Nat → List Nat}

theorem raised_bounds (draws : Nat → Nat) (left height : Nat) :
    height ≤ raised draws left height ∧ raised draws left height ≤ height + left := by
  induction left generalizing height with
  | zero => exact ⟨Nat.le_refl _, Nat.le_refl _⟩
  | succ left ih =>
      rw [raised]
      split
      · have higher := ih (height + 1)
        omega
      · omega

theorem getRandomHeight_bounds (draws : Nat → Nat) :
    0 < getRandomHeight draws ∧ getRandomHeight draws ≤ kMaxHeight :=
  raised_bounds draws (kMaxHeight - 1) 1

/-! ## The loops -/

section Loops
variable {ahead : κ → Bool} {base : LinkedSkipList κ ν} {height x : Nat} {prev : Nat → Option Nat}

theorem Levels.link_all (inv : Levels cmp list levels) (high : height ≤ kMaxHeight)
    (new : ∀ i, x ∉ head :: levels i) (kept : ∀ j y, y ≠ x → base.next j y = list.next j y)
    (room : ∀ j < height, ∃ stored, base.next j x = some stored)
    (filled : ∀ i < height, prev i = some (list.predecessor ahead levels i)) :
    ∃ after, (List.range height).foldlM (fun s i => s.link prev x i) base = some after ∧
      SameNodes base after ∧ ∀ j y, after.next j y =
        if j < height ∧ y = list.predecessor ahead levels j then some (some x)
        else if j < height ∧ y = x then some (list.left ahead levels j).head? else base.next j y := by
  apply Runs.exists_foldlM_range (p := fun i s => SameNodes base s ∧ ∀ j y, s.next j y =
    if j < i ∧ y = list.predecessor ahead levels j then some (some x)
    else if j < i ∧ y = x then some (list.left ahead levels j).head? else base.next j y)
  · refine ⟨.refl base, ?_⟩
    intro j y
    simp
  · rintro i inside s ⟨same, pointers⟩
    have other : list.predecessor ahead levels i ≠ x := by
      intro equal
      apply new i
      rw [← equal]
      exact predecessor_mem i
    have here : s.next i (list.predecessor ahead levels i) = some (list.left ahead levels i).head? := by
      rw [pointers, ← inv.predecessor_next (Nat.lt_of_lt_of_le inside high), ← kept i _ other]
      simp
    obtain ⟨stored, own⟩ := room i inside
    have there : s.next i x = some stored := by
      rw [pointers, ← own]
      simp
    obtain ⟨u, first, same', pointers'⟩ := setNext_spec (list.left ahead levels i).head? there
    have again : u.next i (list.predecessor ahead levels i) = some (list.left ahead levels i).head? := by
      rw [pointers', if_neg (fun both => other both.1), here]
    obtain ⟨t, second, same'', pointers''⟩ := setNext_spec (some x) again
    refine ⟨t, ?_, (same.trans same').trans same'', ?_⟩
    · simp [link, filled i inside, here, first, second]
    · intro j y
      rw [pointers'', pointers', pointers]
      by_cases level : j = i
      · rw [level]
        simp [and_comm]
      · have lower : j < i + 1 ↔ j < i := by omega
        simp [level, lower]

theorem Levels.unlink_all (inv : Levels cmp list levels) (x : Nat)
    (filled : ∀ i < kMaxHeight, prev i = some (list.predecessor ahead levels i)) :
    ∃ after, (List.range kMaxHeight).foldlM (fun s i => s.unlink prev x i) list = some after ∧
      SameNodes list after ∧ ∀ j y, after.next j y =
        if j < kMaxHeight ∧ y = list.predecessor ahead levels j ∧
          (list.left ahead levels j).head? = some x then list.next j x else list.next j y := by
  apply Runs.exists_foldlM_range (p := fun i s => SameNodes list s ∧ ∀ j y, s.next j y =
    if j < i ∧ y = list.predecessor ahead levels j ∧ (list.left ahead levels j).head? = some x then
      list.next j x else list.next j y)
  · refine ⟨.refl list, ?_⟩
    intro j y
    simp
  · rintro i inside s ⟨same, pointers⟩
    have here : s.next i (list.predecessor ahead levels i) = some (list.left ahead levels i).head? := by
      rw [pointers, ← inv.predecessor_next inside]
      simp
    by_cases reached : (list.left ahead levels i).head? = some x
    · have member : x ∈ levels i := List.dropWhile_subset _ (List.mem_of_head? reached)
      obtain ⟨stored, own⟩ := inv.readable inside (List.mem_cons_of_mem _ member)
      have there : s.next i x = some stored := by
        rw [pointers, ← own]
        simp
      obtain ⟨t, done, same', pointers'⟩ := setNext_spec stored here
      refine ⟨t, ?_, same.trans same', ?_⟩
      · simp [unlink, filled i inside, here, reached, there, done]
      · intro j y
        rw [pointers', pointers]
        by_cases level : j = i
        · rw [level]
          simp [reached, own]
        · have lower : j < i + 1 ↔ j < i := by omega
          simp [level, lower]
    · refine ⟨s, ?_, same, ?_⟩
      · simp [unlink, filled i inside, here, reached]
      · intro j y
        rw [pointers]
        by_cases level : j = i
        · rw [level]
          simp [reached]
        · have lower : j < i + 1 ↔ j < i := by omega
          simp [lower]

end Loops

/-! ## Levels cut at a key -/

section Cut
variable {ahead : κ → Bool} {key : κ}

theorem Levels.parts (inv : Levels cmp list levels) (lower : Downward cmp ahead) (i : Nat) :
    list.passed ahead levels i = (levels i).filter (list.isAhead ahead) ∧
      list.left ahead levels i = (levels i).filter fun n => !list.isAhead ahead n := by
  apply parts_eq_filter
  apply (inv.sorted i).imp
  intro a b less
  exact lower _ _ less

theorem Levels.mem_left (inv : Levels cmp list levels) (lower : Downward cmp ahead) {i n : Nat} :
    n ∈ list.left ahead levels i ↔ n ∈ levels i ∧ list.isAhead ahead n = false := by
  rw [(inv.parts lower i).2, List.mem_filter, Bool.not_eq_true']

theorem Levels.mem_passed (inv : Levels cmp list levels) (lower : Downward cmp ahead) {i n : Nat} :
    n ∈ list.passed ahead levels i ↔ n ∈ levels i ∧ list.isAhead ahead n = true := by
  rw [(inv.parts lower i).1, List.mem_filter]

theorem Levels.passed_sublist (inv : Levels cmp list levels) (lower : Downward cmp ahead) (i : Nat) :
    List.Sublist (list.passed ahead levels (i + 1)) (list.passed ahead levels i) := by
  rw [(inv.parts lower _).1, (inv.parts lower _).1]
  exact (inv.sublist i).filter _

theorem Levels.left_sublist (inv : Levels cmp list levels) (lower : Downward cmp ahead) (i : Nat) :
    List.Sublist (list.left ahead levels (i + 1)) (list.left ahead levels i) := by
  rw [(inv.parts lower _).2, (inv.parts lower _).2]
  exact (inv.sublist i).filter _

variable [Std.TransCmp cmp]

theorem Levels.behind_key (inv : Levels cmp list levels)
    (different : ∀ n ∈ (list.left (below cmp key) levels 0).head?, cmp (list.entry n).1 key ≠ .eq)
    {i n : Nat} (member : n ∈ list.left (below cmp key) levels i) : cmp key (list.entry n).1 = .lt := by
  have lower : Downward cmp (below cmp key) := downward_below key
  obtain ⟨here, later⟩ := (inv.mem_left lower).mp member
  have lowest : n ∈ list.left (below cmp key) levels 0 :=
    (inv.mem_left lower).mpr ⟨(inv.sublist_zero i).subset here, later⟩
  have sorted : (list.left (below cmp key) levels 0).Pairwise
      fun a b => cmp (list.entry a).1 (list.entry b).1 = .lt :=
    (inv.sorted 0).sublist (List.dropWhile_sublist _)
  cases shape : list.left (below cmp key) levels 0 with
  | nil =>
      rw [shape] at lowest
      cases lowest
  | cons m rest =>
      rw [shape] at lowest sorted different
      have first : m ∈ list.left (below cmp key) levels 0 := by simp [shape]
      have notBelow := ((inv.mem_left lower).mp first).2
      have greater : cmp key (list.entry m).1 = .lt := by
        apply Std.OrientedCmp.lt_of_gt
        have notEqual := different m rfl
        cases compared : cmp (list.entry m).1 key with
        | lt => simp [isAhead, below, compared] at notBelow
        | eq => exact absurd compared notEqual
        | gt => rfl
      cases List.mem_cons.mp lowest with
      | inl same =>
          rw [same]
          exact greater
      | inr rest => exact Std.TransCmp.lt_trans greater ((List.pairwise_cons.mp sorted).1 n rest)

theorem Levels.before_key (inv : Levels cmp list levels) {i n : Nat}
    (member : n ∈ list.passed (below cmp key) levels i) : cmp (list.entry n).1 key = .lt := by
  have holds := ((inv.mem_passed (downward_below key)).mp member).2
  simpa [isAhead, below] using holds

theorem Levels.entries_before (inv : Levels cmp list levels) {i : Nat} :
    ∀ node ∈ (list.passed (below cmp key) levels i).map list.entry, cmp node.1 key = .lt := by
  intro node member
  obtain ⟨n, here, rfl⟩ := List.mem_map.mp member
  exact inv.before_key here

end Cut

/-! ## A new node -/

def inserted (list : LinkedSkipList κ ν) (ahead : κ → Bool) (levels : Nat → List Nat) (height x i : Nat) :
    List Nat :=
  if i < height then list.passed ahead levels i ++ x :: list.left ahead levels i else levels i

section Inserted
variable {ahead : κ → Bool} {after : LinkedSkipList κ ν} {height x : Nat} {key : κ} {value : ν}

theorem Levels.inserted_chained (inv : Levels cmp list levels) (new : ∀ i, x ∉ head :: levels i)
    (pointers : ∀ j y, after.next j y =
      if j < height ∧ y = list.predecessor ahead levels j then some (some x)
      else if j < height ∧ y = x then some (list.left ahead levels j).head?
      else if y = x then none else list.next j y) {i : Nat} (inside : i < kMaxHeight) :
    Linked (after.next i) head (list.inserted ahead levels height x i) := by
  rw [inserted]
  split
  · rename_i lower
    have other : x ≠ list.predecessor ahead levels i := by
      intro equal
      apply new i
      rw [equal]
      exact predecessor_mem i
    apply (inv.chained_cut ahead inside).insert
    · rw [passed_append_left]
      exact new i
    · exact (pointers i _).trans (if_pos ⟨lower, rfl⟩)
    · rw [pointers, if_neg (fun both => other both.2), if_pos ⟨lower, rfl⟩]
    · intro y notLast notNew
      rw [pointers, if_neg (fun both => notLast both.2), if_neg (fun both => notNew both.2),
        if_neg notNew]
  · rename_i higher
    apply (inv.chained i inside).congr
    intro y member
    have notNew : y ≠ x := by
      rintro rfl
      exact new i member
    rw [pointers, if_neg (fun both => higher both.1), if_neg (fun both => higher both.1), if_neg notNew]

theorem Levels.inserted_sublist (inv : Levels cmp list levels) (lower : Downward cmp ahead) (i : Nat) :
    List.Sublist (list.inserted ahead levels height x (i + 1)) (list.inserted ahead levels height x i) := by
  rw [inserted, inserted]
  by_cases above : i + 1 < height
  · rw [if_pos above, if_pos (Nat.lt_of_succ_lt above)]
    exact (inv.passed_sublist lower i).append ((inv.left_sublist lower i).cons_cons x)
  · rw [if_neg above]
    apply (inv.sublist i).trans
    split
    · conv => lhs; rw [← passed_append_left list ahead levels i]
      exact (List.Sublist.refl _).append (List.sublist_cons_self x _)
    · exact List.Sublist.refl _

variable [Std.TransCmp cmp]

theorem Levels.inserted_sorted (inv : Levels cmp list levels) (new : ∀ i, x ∉ head :: levels i)
    (different : ∀ n ∈ (list.left (below cmp key) levels 0).head?, cmp (list.entry n).1 key ≠ .eq)
    (entries : ∀ y, after.entry y = if y = x then (key, value) else list.entry y) (i : Nat) :
    (list.inserted (below cmp key) levels height x i).Pairwise
      fun a b => cmp (after.entry a).1 (after.entry b).1 = .lt := by
  have kept : ∀ n ∈ levels i, after.entry n = list.entry n := by
    intro n member
    apply (entries n).trans (if_neg _)
    rintro rfl
    exact new i (List.mem_cons_of_mem _ member)
  have sorted : (levels i).Pairwise fun a b => cmp (after.entry a).1 (after.entry b).1 = .lt := by
    apply (inv.sorted i).imp_of_mem
    intro a b first second less
    rw [kept a first, kept b second]
    exact less
  have own : after.entry x = (key, value) := (entries x).trans (if_pos rfl)
  rw [inserted]
  split
  · rw [← passed_append_left list (below cmp key) levels i] at sorted kept
    obtain ⟨front, back, across⟩ := List.pairwise_append.mp sorted
    apply List.pairwise_append.mpr
    refine ⟨front, List.pairwise_cons.mpr ⟨?_, back⟩, ?_⟩
    · intro n member
      rw [own, kept n (List.mem_append_right _ member)]
      exact inv.behind_key different member
    · intro m earlier n member
      cases List.mem_cons.mp member with
      | inl here =>
          rw [here, own, kept m (List.mem_append_left _ earlier)]
          exact inv.before_key earlier
      | inr later => exact across m earlier n later
  · exact sorted

end Inserted

/-! ## Put -/

omit [Inhabited κ] [Inhabited ν] in
theorem insertNode_append {key : κ} {value : ν} {front back : List (κ × ν)}
    (before : ∀ node ∈ front, cmp node.1 key = .lt) :
    insertNode cmp key value (front ++ back) = front ++ insertNode cmp key value back := by
  induction front with
  | nil => rfl
  | cons node rest ih =>
      rw [List.cons_append, insertNode, before node (List.mem_cons_self ..)]
      rw [ih fun other member => before other (List.mem_cons_of_mem _ member)]
      rfl

omit [Inhabited κ] [Inhabited ν] in
theorem insertNode_first {key : κ} {value : ν} {nodes : List (κ × ν)}
    (behind : ∀ node ∈ nodes.head?, cmp node.1 key = .gt) :
    insertNode cmp key value nodes = (key, value) :: nodes := by
  cases nodes with
  | nil => rfl
  | cons node rest => rw [insertNode, behind node rfl]

def entries (list : LinkedSkipList κ ν) (levels : Nat → List Nat) : List (κ × ν) :=
  (levels 0).map list.entry

section Put
variable {key : κ} {value : ν}

theorem setValue_spec {x i : Nat} {stored : Option Nat} (read : list.next i x = some stored) (value : ν) :
    ∃ after, list.setValue x value = some after ∧ (∀ j y, after.next j y = list.next j y) ∧
      (∀ y, after.entry y = if y = x then ((list.entry x).1, value) else list.entry y) ∧
      (∀ y, after.memory y = none ↔ list.memory y = none) ∧ after.allocated = list.allocated ∧
      after.maxHeight = list.maxHeight ∧ after.count = list.count := by
  obtain ⟨node, here, -⟩ := memory_of_next read
  have written : list.setValue x value = some { list with
      memory := Function.update list.memory x (some { node with value }) } := by
    simp [setValue, here]
  refine ⟨_, written, ?_, ?_, ?_, rfl, rfl, rfl⟩
  · intro j y
    by_cases same : y = x
    · simp [next, same, here]
    · simp [next, same]
  · intro y
    by_cases same : y = x
    · simp [entry, same, here]
    · simp [entry, same]
  · intro y
    by_cases same : y = x
    · simp [same, here]
    · simp [same]

variable [Std.TransCmp cmp]

theorem Levels.overwrite_spec (inv : Levels cmp list levels) {x : Nat}
    (held : holder cmp list key levels = some x) (value : ν) :
    ∃ after, list.setValue x value = some after ∧ Levels cmp after levels ∧
      after.entries levels = insertNode cmp key value (list.entries levels) := by
  obtain ⟨⟨rest, reached⟩, equal⟩ := holder_eq_some held
  have cut := passed_append_left list (below cmp key) levels 0
  rw [reached] at cut
  have member : x ∈ levels 0 := by simp [← cut]
  obtain ⟨stored, read⟩ := inv.readable (Nat.zero_lt_succ _) (List.mem_cons_of_mem _ member)
  obtain ⟨after, written, pointers, nodes, live, allocated, maxHeight, count⟩ := setValue_spec read value
  have keys (y : Nat) : (after.entry y).1 = (list.entry y).1 := by
    rw [nodes]
    split
    · rename_i same
      rw [same]
    · rfl
  refine ⟨after, written, ?_, ?_⟩
  · constructor
    · intro i inside
      exact (inv.chained i inside).congr fun y _ => pointers i y
    · intro i
      simp only [keys]
      exact inv.sorted i
    · exact inv.sublist
    · rw [maxHeight]
      exact inv.empty
    · rw [count]
      exact inv.counted
    · rw [maxHeight]
      exact inv.positive
    · rw [maxHeight]
      exact inv.bounded
    · intro a high
      rw [allocated] at high
      exact (live a).mpr (inv.fresh a high)
  -- The node is on the level once, so that no other entry changes.
  · have distinct := (List.nodup_cons.mp (inv.chained 0 (Nat.zero_lt_succ _)).nodup).2
    rw [← cut] at distinct
    obtain ⟨-, back, apart⟩ := List.nodup_append.mp distinct
    have front : (list.passed (below cmp key) levels 0).map after.entry =
        (list.passed (below cmp key) levels 0).map list.entry := by
      apply List.map_congr_left
      intro y earlier
      rw [nodes, if_neg (apart y earlier x (List.mem_cons_self ..))]
    have tail : rest.map after.entry = rest.map list.entry := by
      apply List.map_congr_left
      intro y later
      rw [nodes, if_neg]
      rintro rfl
      exact (List.nodup_cons.mp back).1 later
    have own : after.entry x = ((list.entry x).1, value) := (nodes x).trans (if_pos rfl)
    rw [entries, entries, ← cut, List.map_append, List.map_append, insertNode_append inv.entries_before, front]
    simp [insertNode, equal, own, tail]

omit [Inhabited κ] [Inhabited ν] [Std.TransCmp cmp] in
theorem next_allocateNode (height j y : Nat) : (list.allocateNode key value height).2.next j y =
    if y = list.allocated then (if j < height then some none else none) else list.next j y := by
  by_cases same : y = list.allocated
  · simp [allocateNode, next, same, List.getElem?_replicate]
  · simp [allocateNode, next, same]

omit [Std.TransCmp cmp] in
theorem entry_allocateNode (height y : Nat) : (list.allocateNode key value height).2.entry y =
    if y = list.allocated then (key, value) else list.entry y := by
  by_cases same : y = list.allocated
  · simp [allocateNode, entry, same]
  · simp [allocateNode, entry, same]

theorem Levels.new_spec (inv : Levels cmp list levels) (none : holder cmp list key levels = none)
    (value : ν) {height : Nat} (positive : 0 < height) (high : height ≤ kMaxHeight)
    {prev : Nat → Option Nat} (filled : ∀ i < height,
      prev i = some (list.predecessor (below cmp key) levels i)) :
    ∃ after, (List.range height).foldlM (fun s i => s.link prev list.allocated i)
        ({ list with maxHeight := max list.maxHeight height }.allocateNode key value height).2 = some after ∧
      Levels cmp { after with count := after.count + 1 }
        (list.inserted (below cmp key) levels height list.allocated) ∧
      after.entries (list.inserted (below cmp key) levels height list.allocated) =
        insertNode cmp key value (list.entries levels) := by
  set raised : LinkedSkipList κ ν := { list with maxHeight := max list.maxHeight height } with higher
  -- No node of the list has the new address.
  have new : ∀ i, list.allocated ∉ head :: levels i := by
    intro i member
    exact inv.live member (inv.fresh _ (Nat.le_refl _))
  have kept : ∀ j y, y ≠ list.allocated →
      (raised.allocateNode key value height).2.next j y = list.next j y := by
    intro j y other
    exact (next_allocateNode height j y).trans (if_neg other)
  have room : ∀ j < height, ∃ stored,
      (raised.allocateNode key value height).2.next j list.allocated = some stored := by
    intro j inside
    refine ⟨Option.none, ?_⟩
    exact (next_allocateNode height j _).trans ((if_pos rfl).trans (if_pos inside))
  obtain ⟨after, looped, same, pointers⟩ := inv.link_all high new kept room filled
  have pointers' (j y : Nat) : after.next j y =
      if j < height ∧ y = list.predecessor (below cmp key) levels j then some (some list.allocated)
      else if j < height ∧ y = list.allocated then some (list.left (below cmp key) levels j).head?
      else if y = list.allocated then Option.none else list.next j y := by
    rw [pointers, next_allocateNode]
    by_cases own : y = list.allocated
    · by_cases inside : j < height
      · simp [own, inside]
      · simp [own, inside, raised]
    · simp only [own, and_false, if_false, raised]
      rfl
  have nodes (y : Nat) : after.entry y = if y = list.allocated then (key, value) else list.entry y :=
    (same.entry y).trans (entry_allocateNode height y)
  have different := holder_eq_none none
  refine ⟨after, looped, ?_, ?_⟩
  · constructor
    · intro i inside
      exact inv.inserted_chained new pointers' inside
    · exact inv.inserted_sorted new different nodes
    · exact inv.inserted_sublist (downward_below key)
    · intro i above
      rw [same.maxHeight] at above
      have notInside : ¬ i < height := Nat.not_lt.mpr (Nat.le_trans (Nat.le_max_right ..) above)
      rw [inserted, if_neg notInside]
      exact inv.empty i (Nat.le_trans (Nat.le_max_left ..) above)
    · have lengths := congrArg List.length (passed_append_left list (below cmp key) levels 0)
      have counted := inv.counted
      have count : after.count = list.count := same.count
      rw [List.length_append] at lengths
      simp only [inserted, if_pos positive, List.length_append, List.length_cons, count]
      omega
    · rw [same.maxHeight]
      exact Nat.lt_of_lt_of_le positive (Nat.le_max_right ..)
    · rw [same.maxHeight]
      exact Nat.max_le.mpr ⟨inv.bounded, high⟩
    · intro a beyond
      rw [same.allocated] at beyond
      have other : a ≠ list.allocated := Nat.ne_of_gt beyond
      apply (same.live a).mpr
      exact (Function.update_of_ne other ..).trans (inv.fresh a (Nat.le_of_succ_le beyond))
  · have own : after.entry list.allocated = (key, value) := (nodes _).trans (if_pos rfl)
    have old : ∀ n ∈ levels 0, after.entry n = list.entry n := by
      intro n member
      apply (nodes n).trans (if_neg _)
      rintro rfl
      exact new 0 (List.mem_cons_of_mem _ member)
    have front : (list.passed (below cmp key) levels 0).map after.entry =
        (list.passed (below cmp key) levels 0).map list.entry :=
      List.map_congr_left fun n member => old n (List.takeWhile_subset _ member)
    have back : (list.left (below cmp key) levels 0).map after.entry =
        (list.left (below cmp key) levels 0).map list.entry :=
      List.map_congr_left fun n member => old n (List.dropWhile_subset _ member)
    have behind : ∀ node ∈ ((list.left (below cmp key) levels 0).map list.entry).head?,
        cmp node.1 key = .gt := by
      intro node first
      obtain ⟨y, here, rfl⟩ := List.mem_map.mp (List.mem_of_head? first)
      exact Std.OrientedCmp.gt_of_lt (inv.behind_key different here)
    rw [entries, entries, inserted, if_pos positive, List.map_append, List.map_cons, front, back, own]
    rw [← passed_append_left list (below cmp key) levels 0, List.map_append, insertNode_append inv.entries_before,
      insertNode_first behind]

theorem Levels.put_spec (inv : Levels cmp list levels) (key : κ) (value : ν) (draws : Nat → Nat) :
    ∃ after levels', list.put cmp key value draws = some after ∧ Levels cmp after levels' ∧
      after.entries levels' = insertNode cmp key value (list.entries levels) := by
  obtain ⟨prev, found, filled⟩ := inv.findGreaterOrEqual_spec key unset
  have looked := inv.checked_left key
  cases turn : holder cmp list key levels with
  | some x =>
      obtain ⟨after, written, inv', same⟩ := inv.overwrite_spec turn value
      refine ⟨after, levels, ?_, inv', same⟩
      simp [put, found, looked, turn, written]
  | none =>
      obtain ⟨positive, high⟩ := getRandomHeight_bounds draws
      -- Above the old height the search has left nothing, and the loop has filled in the head.
      have reset : ∀ i < getRandomHeight draws,
          (if list.maxHeight ≤ i ∧ i < getRandomHeight draws then some head else prev i) =
            some (list.predecessor (below cmp key) levels i) := by
        intro i inside
        by_cases above : list.maxHeight ≤ i
        · rw [if_pos ⟨above, inside⟩, inv.predecessor_above above]
        · rw [if_neg (fun both => above both.1), filled, if_pos (Nat.lt_of_not_le above)]
      obtain ⟨after, looped, inv', same⟩ := inv.new_spec turn value positive high reset
      refine ⟨_, _, ?_, inv', same⟩
      simp only [put, found, looked, turn, Option.bind_eq_bind, Option.bind_some]
      exact congrArg (Option.bind · _) looped

end Put
end Lrdb.LinkedSkipList
