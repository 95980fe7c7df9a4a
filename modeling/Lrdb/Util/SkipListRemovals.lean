import Lrdb.Util.SkipListChanges

namespace Lrdb.LinkedSkipList
open LinkedLists
variable {κ ν : Type} [Inhabited κ] [Inhabited ν] {cmp : κ → κ → Ordering} {list : LinkedSkipList κ ν}
  {levels : Nat → List Nat}

omit [Inhabited κ] [Inhabited ν] in
theorem lowered_spec (chained : ∀ i < kMaxHeight, Linked (list.next i) head (levels i)) {height : Nat}
    (positive : 0 < height) (bounded : height ≤ kMaxHeight) :
    ∃ maxHeight, list.lowered height = some maxHeight ∧ 0 < maxHeight ∧ maxHeight ≤ height ∧
      ∀ i, maxHeight ≤ i → i < height → levels i = [] := by
  induction height with
  | zero => exact absurd positive (Nat.lt_irrefl 0)
  | succ top ih =>
      cases top with
      | zero =>
          refine ⟨1, rfl, Nat.one_pos, Nat.le_refl _, ?_⟩
          intro i above inside
          omega
      | succ lower =>
          have first := (chained (lower + 1) bounded).first
          cases shape : levels (lower + 1) with
          | nil =>
              obtain ⟨maxHeight, found, positive', below, empty⟩ :=
                ih (Nat.succ_pos lower) (Nat.le_of_succ_le bounded)
              refine ⟨maxHeight, ?_, positive', Nat.le_succ_of_le below, ?_⟩
              · simp [lowered, first, shape, found]
              · intro i above inside
                by_cases same : i = lower + 1
                · rw [same, shape]
                · exact empty i above (by omega)
          | cons n rest =>
              refine ⟨lower + 2, ?_, by omega, Nat.le_refl _, ?_⟩
              · simp [lowered, first, shape]
              · intro i above inside
                omega

/-! ## Delete -/

section Delete
variable [Std.TransCmp cmp] {key : κ} {x : Nat}

theorem Levels.left_of_mem (inv : Levels cmp list levels) (equal : cmp (list.entry x).1 key = .eq) {i : Nat}
    (member : x ∈ levels i) : (list.left (below cmp key) levels i).head? = some x := by
  have lower : Downward cmp (below cmp key) := downward_below key
  have reached : x ∈ list.left (below cmp key) levels i := by
    apply (inv.mem_left lower).mpr
    simp [member, isAhead, below, equal]
  cases shape : list.left (below cmp key) levels i with
  | nil =>
      rw [shape] at reached
      cases reached
  | cons m rest =>
      rw [shape] at reached
      cases List.mem_cons.mp reached with
      | inl same => rw [same, List.head?_cons]
      | inr later =>
          -- A node before the one with the key would have been passed.
          have sorted : (m :: rest).Pairwise fun a b => cmp (list.entry a).1 (list.entry b).1 = .lt := by
            rw [← shape]
            exact (inv.sorted i).sublist (List.dropWhile_sublist _)
          have less := (List.pairwise_cons.mp sorted).1 x later
          have passed : cmp (list.entry m).1 key = .lt := Std.TransCmp.lt_of_lt_of_eq less equal
          have stays : m ∈ list.left (below cmp key) levels i := by simp [shape]
          have notBelow := ((inv.mem_left lower).mp stays).2
          simp [isAhead, below, passed] at notBelow

omit [Std.TransCmp cmp] in
theorem Levels.nodup (inv : Levels cmp list levels) (i : Nat) : (head :: levels i).Nodup :=
  (inv.chained 0 (Nat.zero_lt_succ _)).nodup.sublist ((inv.sublist_zero i).cons_cons head)

omit [Std.TransCmp cmp] in
theorem erase_of_left {ahead : κ → Bool} {i : Nat} {rest : List Nat} (distinct : (levels i).Nodup)
    (reached : list.left ahead levels i = x :: rest) :
    (levels i).erase x = list.passed ahead levels i ++ rest := by
  have cut := passed_append_left list ahead levels i
  rw [reached] at cut
  rw [← cut] at distinct ⊢
  have notBefore : x ∉ list.passed ahead levels i := by
    intro earlier
    exact (List.nodup_append.mp distinct).2.2 x earlier x (List.mem_cons_self ..) rfl
  rw [List.erase_append_right _ notBefore, List.erase_cons_head]

theorem Levels.erased_chained (inv : Levels cmp list levels) (equal : cmp (list.entry x).1 key = .eq)
    {after : LinkedSkipList κ ν} (pointers : ∀ j y, after.next j y =
      if j < kMaxHeight ∧ y = list.predecessor (below cmp key) levels j ∧
        (list.left (below cmp key) levels j).head? = some x then list.next j x else list.next j y)
    {i : Nat} (inside : i < kMaxHeight) : Linked (after.next i) head ((levels i).erase x) := by
  by_cases member : x ∈ levels i
  · have first := inv.left_of_mem equal member
    obtain ⟨rest, reached⟩ := List.head?_eq_some_iff.mp first
    have chain := inv.chained_cut (below cmp key) inside
    rw [reached] at chain
    rw [erase_of_left (List.nodup_cons.mp (inv.nodup i)).2 reached]
    apply chain.unlink
    · exact (pointers i _).trans (if_pos ⟨inside, rfl, first⟩)
    · intro y other
      exact (pointers i y).trans (if_neg fun all => other all.2.1)
  · rw [List.erase_of_not_mem member]
    apply (inv.chained i inside).congr
    intro y _
    apply (pointers i y).trans (if_neg _)
    rintro ⟨-, -, reached⟩
    exact member (List.dropWhile_subset _ (List.mem_of_head? reached))

theorem Levels.entries_erase (inv : Levels cmp list levels) (held : holder cmp list key levels = some x) :
    ((levels 0).erase x).map list.entry =
      (list.entries levels).filter fun node => !equals cmp key node.1 := by
  obtain ⟨⟨rest, reached⟩, equal⟩ := holder_eq_some held
  have sorted := inv.sorted 0
  have cut := passed_append_left list (below cmp key) levels 0
  rw [erase_of_left (List.nodup_cons.mp (inv.nodup 0)).2 reached, entries, ← cut, reached]
  rw [← cut, reached] at sorted
  have front : ((list.passed (below cmp key) levels 0).map list.entry).filter
      (fun node => !equals cmp key node.1) = (list.passed (below cmp key) levels 0).map list.entry := by
    apply List.filter_eq_self.mpr
    intro node member
    simp [equals, inv.entries_before node member]
  have back : (rest.map list.entry).filter (fun node => !equals cmp key node.1) = rest.map list.entry := by
    apply List.filter_eq_self.mpr
    intro node member
    obtain ⟨n, later, rfl⟩ := List.mem_map.mp member
    have less := (List.pairwise_cons.mp (List.pairwise_append.mp sorted).2.1).1 n later
    have behind : cmp (list.entry n).1 key = .gt :=
      Std.OrientedCmp.gt_of_lt (Std.TransCmp.lt_of_eq_of_lt (Std.OrientedCmp.eq_symm equal) less)
    simp [equals, behind]
  have own : equals cmp key (list.entry x).1 = true := by simp [equals, equal]
  rw [List.map_append, List.map_append, List.filter_append, front, List.map_cons,
    List.filter_cons_of_neg (by simp [own]), back]

theorem Levels.entries_of_none (inv : Levels cmp list levels) (none : holder cmp list key levels = none) :
    (list.entries levels).filter (fun node => !equals cmp key node.1) = list.entries levels := by
  apply List.filter_eq_self.mpr
  intro node member
  obtain ⟨n, here, rfl⟩ := List.mem_map.mp member
  rw [← passed_append_left list (below cmp key) levels 0] at here
  cases List.mem_append.mp here with
  | inl earlier => simp [equals, inv.before_key earlier]
  | inr later =>
      have behind := Std.OrientedCmp.gt_of_lt (inv.behind_key (holder_eq_none none) later)
      simp [equals, behind]

theorem Levels.erased_spec (inv : Levels cmp list levels) (held : holder cmp list key levels = some x)
    {prev : Nat → Option Nat}
    (filled : ∀ i < kMaxHeight, prev i = some (list.predecessor (below cmp key) levels i)) :
    ∃ after maxHeight, (List.range kMaxHeight).foldlM (fun s i => s.unlink prev x i) list = some after ∧
      { after.deallocateNode x with count := after.count - 1 }.lowered after.maxHeight = some maxHeight ∧
      Levels cmp { after.deallocateNode x with count := after.count - 1, maxHeight }
        (fun i => (levels i).erase x) ∧
      (after.deallocateNode x).entries (fun i => (levels i).erase x) =
        (list.entries levels).filter fun node => !equals cmp key node.1 := by
  obtain ⟨⟨rest, reached⟩, equal⟩ := holder_eq_some held
  have member : x ∈ levels 0 := by
    apply List.dropWhile_subset
    exact reached ▸ List.mem_cons_self ..
  obtain ⟨after, looped, same, pointers⟩ := inv.unlink_all x filled
  -- Nothing leads to the node any more when it is freed.
  have gone (i : Nat) : x ∉ head :: (levels i).erase x := by
    apply List.not_mem_cons_of_ne_of_not_mem
    · rintro rfl
      exact (List.nodup_cons.mp (inv.nodup 0)).1 member
    · exact (List.nodup_cons.mp (inv.nodup i)).2.not_mem_erase
  have freed (j y : Nat) (other : y ≠ x) : (after.deallocateNode x).next j y = after.next j y := by
    simp [deallocateNode, next, other]
  have chained : ∀ i < kMaxHeight, Linked ((after.deallocateNode x).next i) head ((levels i).erase x) := by
    intro i inside
    apply (inv.erased_chained equal pointers inside).congr
    intro y here
    apply freed
    rintro rfl
    exact gone i here
  have lists : ∀ i < kMaxHeight,
      Linked ({ after.deallocateNode x with count := after.count - 1 }.next i) head ((levels i).erase x) := chained
  obtain ⟨maxHeight, found, positive, less, empty⟩ := lowered_spec lists inv.positive inv.bounded
  refine ⟨after, maxHeight, looped, by rw [same.maxHeight]; exact found, ?_⟩
  have kept : ∀ i, ∀ n ∈ (levels i).erase x, (after.deallocateNode x).entry n = list.entry n := by
    intro i n here
    have other : n ≠ x := by
      rintro rfl
      exact gone i (List.mem_cons_of_mem _ here)
    rw [← same.entry n]
    simp [deallocateNode, entry, other]
  refine ⟨?_, by rw [entries, List.map_congr_left (kept 0), inv.entries_erase held]⟩
  constructor
  · exact chained
  · intro i
    apply ((inv.sorted i).sublist List.erase_sublist).imp_of_mem
    intro a b first second before
    rw [← kept i a first, ← kept i b second] at before
    exact before
  · intro i
    exact (inv.sublist i).erase x
  · intro i above
    by_cases inside : i < list.maxHeight
    · exact empty i above inside
    · simp [inv.empty i (Nat.le_of_not_lt inside)]
  · have count := same.count
    have counted := inv.counted
    simp only [List.length_erase_of_mem member, count, counted]
  · exact positive
  · exact Nat.le_trans less inv.bounded
  · intro a high
    have beyond : list.allocated ≤ a := same.allocated ▸ high
    by_cases here : a = x
    · simp [here, deallocateNode]
    · have empty := (same.live a).mpr (inv.fresh a beyond)
      simpa [deallocateNode, here] using empty

theorem Levels.delete_spec (inv : Levels cmp list levels) (key : κ) :
    ∃ after levels', list.delete cmp key = some ((holder cmp list key levels).isSome, after) ∧
      Levels cmp after levels' ∧
      after.entries levels' = (list.entries levels).filter fun node => !equals cmp key node.1 := by
  obtain ⟨prev, found, filled⟩ :=
    inv.findGreaterOrEqual_spec key fun i => if i < kMaxHeight then some head else none
  have looked := inv.checked_left key
  cases turn : holder cmp list key levels with
  | none =>
      refine ⟨list, levels, ?_, inv, (inv.entries_of_none turn).symm⟩
      simp [delete, found, looked, turn]
  | some x =>
      have all : ∀ i < kMaxHeight, prev i = some (list.predecessor (below cmp key) levels i) := by
        intro i inside
        rw [filled]
        by_cases above : list.maxHeight ≤ i
        · rw [if_neg (Nat.not_lt.mpr above), if_pos inside, inv.predecessor_above above]
        · rw [if_pos (Nat.lt_of_not_le above)]
      obtain ⟨after, maxHeight, looped, low, inv', same⟩ := inv.erased_spec turn all
      refine ⟨_, _, ?_, inv', same⟩
      simp only [delete, found, looked, turn, Option.bind_eq_bind, Option.bind_some, looped]
      exact congrArg (Option.bind · _) low

end Delete

/-! ## Clear -/

section Clear

omit [Inhabited κ] [Inhabited ν] in
theorem freed_spec {nodes : List Nat} {fuel : Nat} (enough : nodes.length ≤ fuel)
    (leads : Leads (list.next 0) nodes) :
    ∃ after, freed fuel nodes.head? list = some after ∧ after.allocated = list.allocated ∧
      ∀ y, y ∉ nodes → after.memory y = list.memory y := by
  induction nodes generalizing fuel list with
  | nil => exact ⟨list, by cases fuel <;> rfl, rfl, fun _ _ => rfl⟩
  | cons n rest ih =>
      cases fuel with
      | zero => exact absurd enough (Nat.not_succ_le_zero _)
      | succ fuel =>
          have chain : Linked (list.next 0) n rest := leads
          -- The rest of the list does not come back to the node that was freed.
          have behind : Leads ((list.deallocateNode n).next 0) rest := by
            cases rest with
            | nil => trivial
            | cons m tail =>
                apply chain.2.congr
                intro y member
                have other : y ≠ n := by
                  rintro rfl
                  exact (List.nodup_cons.mp chain.nodup).1 member
                simp [deallocateNode, next, other]
          obtain ⟨after, done, allocated, kept⟩ := ih (Nat.le_of_succ_le_succ enough) behind
          refine ⟨after, ?_, allocated, ?_⟩
          · simp [freed, chain.first, done]
          · intro y outside
            rw [kept y fun later => outside (List.mem_cons_of_mem n later)]
            have other : y ≠ n := by
              rintro rfl
              exact outside (List.mem_cons_self ..)
            simp [deallocateNode, other]

theorem emptied_spec (pointed : ∀ i < kMaxHeight, ∃ stored, list.next i head = some stored) :
    ∃ after, (List.range kMaxHeight).foldlM (fun s i => s.setNext i head none) list = some after ∧
      SameNodes list after ∧
      ∀ j, after.next j head = if j < kMaxHeight then some none else list.next j head := by
  apply Runs.exists_foldlM_range (p := fun i s => SameNodes list s ∧
    ∀ j, s.next j head = if j < i then some none else list.next j head)
  · refine ⟨.refl list, ?_⟩
    intro j
    simp
  · rintro i inside s ⟨same, pointers⟩
    obtain ⟨stored, here⟩ := pointed i inside
    have read : s.next i head = some stored := by
      rw [pointers, ← here]
      simp
    obtain ⟨t, written, same', pointers'⟩ := setNext_spec none read
    refine ⟨t, written, same.trans same', ?_⟩
    intro j
    rw [pointers', pointers]
    by_cases level : j = i
    · simp [level]
    · have lower : j < i + 1 ↔ j < i := by omega
      simp [level, lower]

theorem Levels.clear_spec (inv : Levels cmp list levels) :
    ∃ after, list.clear = some after ∧ Levels cmp after fun _ => [] := by
  have chain := inv.chained 0 (Nat.zero_lt_succ _)
  obtain ⟨bare, released, allocated, kept⟩ := freed_spec (Nat.le_of_eq inv.counted.symm) chain.leads
  have start (j : Nat) : bare.next j head = list.next j head := by
    rw [next, kept head (List.nodup_cons.mp (inv.nodup 0)).1]
    rfl
  have pointed : ∀ i < kMaxHeight, ∃ stored, bare.next i head = some stored := by
    intro i inside
    obtain ⟨stored, here⟩ := inv.readable inside (List.mem_cons_self ..)
    exact ⟨stored, (start i).trans here⟩
  obtain ⟨after, looped, same, pointers⟩ := emptied_spec pointed
  refine ⟨{ after with maxHeight := 1, count := 0 }, ?_, ?_⟩
  · simp [clear, chain.first, released, looped]
  · constructor
    · intro i inside
      exact (pointers i).trans (if_pos inside)
    · intro i
      exact .nil
    · intro i
      exact List.Sublist.refl _
    · intro i _
      rfl
    · rfl
    · exact Nat.one_pos
    · exact Nat.le_add_left 1 11
    · intro a high
      have beyond : list.allocated ≤ a := by
        rw [← allocated, ← same.allocated]
        exact high
      have dead := inv.fresh a beyond
      apply (same.live a).mpr
      rw [kept a, dead]
      intro member
      exact inv.live (List.mem_cons_of_mem _ member) dead

end Clear
end Lrdb.LinkedSkipList
