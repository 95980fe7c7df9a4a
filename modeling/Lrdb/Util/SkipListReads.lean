import Lrdb.Util.SkipListRuns

namespace Lrdb.LinkedSkipList
open LinkedLists
variable {κ ν : Type} [Inhabited κ] [Inhabited ν] {cmp : κ → κ → Ordering} {list : LinkedSkipList κ ν}
  {levels : Nat → List Nat}

/-! ## Point reads -/

section Points
variable [Std.TransCmp cmp] {key : κ}

theorem Levels.lookup_holder (inv : Levels cmp list levels) :
    lookupNode cmp key (list.entries levels) =
      (holder cmp list key levels).map fun x => (list.entry x).2 := by
  cases turn : holder cmp list key levels with
  | some x =>
      obtain ⟨⟨rest, reached⟩, equal⟩ := holder_eq_some turn
      apply (lookupNode_eq_some inv.ascending).mpr
      refine ⟨list.entry x, List.mem_map_of_mem ?_, equal, rfl⟩
      apply List.dropWhile_subset
      exact reached ▸ List.mem_cons_self ..
  | none =>
      have nothing : (list.entries levels).find? (fun node => equals cmp key node.1) = none := by
        apply List.find?_eq_none.mpr
        rw [← inv.entries_of_none turn]
        intro node member
        simpa using (List.mem_filter.mp member).2
      rw [lookupNode, nothing]
      rfl

theorem Levels.get_spec (inv : Levels cmp list levels) (key : κ) :
    list.get cmp key = some (lookupNode cmp key (list.entries levels)) := by
  obtain ⟨prev, found, -⟩ := inv.findGreaterOrEqual_spec key unset
  have looked := inv.checked_left key
  rw [inv.lookup_holder]
  cases turn : holder cmp list key levels with
  | none => simp [get, found, looked, turn]
  | some x =>
      obtain ⟨⟨rest, reached⟩, -⟩ := holder_eq_some turn
      have member : x ∈ levels 0 := by
        apply List.dropWhile_subset
        exact reached ▸ List.mem_cons_self ..
      obtain ⟨stored, read⟩ := inv.readable (Nat.zero_lt_succ _) (List.mem_cons_of_mem _ member)
      obtain ⟨node, here, -⟩ := memory_of_next read
      simp [get, found, looked, turn, here, entry_of_memory here]

theorem Levels.contains_spec (inv : Levels cmp list levels) (key : κ) :
    list.contains cmp key = some (lookupNode cmp key (list.entries levels)).isSome := by
  obtain ⟨prev, found, -⟩ := inv.findGreaterOrEqual_spec key unset
  rw [inv.lookup_holder, Option.isSome_map]
  simp [contains, found, inv.checked_left key]

end Points

/-! ## Range queries -/

section Ranges

def between (cmp : κ → κ → Ordering) (first last : κ) (entries : List (κ × ν)) : List (κ × ν) :=
  entries.filter fun node => cmp node.1 first != .lt && cmp node.1 last != .gt

theorem visited_spec {last : κ} {nodes : List Nat} {fuel : Nat} (enough : nodes.length ≤ fuel)
    (leads : Leads (list.next 0) nodes) : list.visited cmp last fuel nodes.head? =
      some ((nodes.map list.entry).takeWhile fun node => cmp node.1 last != .gt) := by
  induction nodes generalizing fuel with
  | nil => cases fuel <;> rfl
  | cons n rest ih =>
      cases fuel with
      | zero => exact absurd enough (Nat.not_succ_le_zero _)
      | succ fuel =>
          have chain : Linked (list.next 0) n rest := leads
          obtain ⟨node, here, -⟩ := memory_of_next chain.first
          have later := ih (Nat.le_of_succ_le_succ enough) chain.leads
          by_cases inside : cmp node.key last = .gt
          · simp [visited, here, inside, entry_of_memory here]
          · simp [visited, here, inside, entry_of_memory here, chain.first, later]

variable [Std.TransCmp cmp]

theorem Levels.entries_left (inv : Levels cmp list levels) (key : κ) :
    (list.left (below cmp key) levels 0).map list.entry =
      (list.entries levels).filter fun node => cmp node.1 key != .lt := by
  rw [(inv.parts (downward_below key) 0).2, entries, List.filter_map]
  rfl

theorem Levels.rangeQuery_spec (inv : Levels cmp list levels) (first last : κ) :
    list.rangeQuery cmp first last = some (between cmp first last (list.entries levels)) := by
  obtain ⟨prev, found, -⟩ := inv.findGreaterOrEqual_spec first unset
  have short : (list.left (below cmp first) levels 0).length ≤ list.count := by
    rw [inv.counted]
    exact (List.dropWhile_sublist _).length_le
  have leads : Leads (list.next 0) (list.left (below cmp first) levels 0) :=
    (inv.chained_cut (below cmp first) (Nat.zero_lt_succ _)).behind.leads
  -- What is not above the upper end comes before all that is.
  have down : (list.entries levels |>.filter fun node => cmp node.1 first != .lt).Pairwise
      fun a b => (cmp b.1 last != .gt) = true → (cmp a.1 last != .gt) = true := by
    apply (inv.ascending.sublist List.filter_sublist).imp
    intro a b less inside
    have inside : cmp b.1 last ≠ .gt := by simpa using inside
    have upTo : cmp a.1 last ≠ .gt := by
      intro beyond
      have back : cmp b.1 a.1 = .gt := Std.OrientedCmp.gt_of_lt less
      exact inside (Std.TransCmp.gt_trans back beyond)
    simpa using upTo
  rw [rangeQuery, found]
  simp only [Option.bind_eq_bind, Option.bind_some, visited_spec short leads]
  rw [inv.entries_left, (parts_eq_filter down).1, List.filter_filter, between]
  simp only [Bool.and_comm]

end Ranges

/-! ## Iterators -/

inductive IteratorCall (κ : Type) where
  | seek (target : κ)
  | seekToFirst
  | seekToLast
  | next
  | prev

def Iterator.call (cmp : κ → κ → Ordering) (list : LinkedSkipList κ ν) (it : Iterator) :
    IteratorCall κ → Option Iterator
  | .seek target => seek cmp list target
  | .seekToFirst => seekToFirst list
  | .seekToLast => seekToLast list
  | .next => it.next list
  | .prev => it.prev cmp list

def Iterator.position (list : LinkedSkipList κ ν) (it : Iterator) : Option (κ × ν) := it.node.map list.entry

def Precedes (cmp : κ → κ → Ordering) (a b : κ) : Prop := cmp a b = .lt

instance (cmp : κ → κ → Ordering) : DecidableRel (Precedes cmp) := fun a b =>
  inferInstanceAs (Decidable (cmp a b = .lt))

/-- The same calls of a cursor on a list. Where the iterator would not be valid, `Next` and `Prev` fail. -/
def cursorCall (cmp : κ → κ → Ordering) (entries : List (κ × ν)) (position : Option (κ × ν)) :
    IteratorCall κ → Option (Option (κ × ν))
  | .seek target => some (Cursors.seek (Precedes cmp) entries target)
  | .seekToFirst => some (Cursors.first entries)
  | .seekToLast => some (Cursors.last entries)
  | .next => position.map fun entry => Cursors.next (Precedes cmp) entries entry.1
  | .prev => position.map fun entry => Cursors.prev (Precedes cmp) entries entry.1

section Iterators

def Stands (levels : Nat → List Nat) (it : Iterator) : Prop := ∀ x ∈ it.node, x ∈ levels 0

omit [Inhabited κ] in
theorem precedes_strict [Std.TransCmp cmp] : IsStrictOrder κ (Precedes cmp) where
  irrefl a less := by
    have self : cmp a a = .eq := Std.ReflCmp.compare_self
    exact absurd (less.symm.trans self) (by decide)
  trans a b c := Std.TransCmp.lt_trans

omit [Inhabited κ] [Inhabited ν] in
theorem find_not_below (nodes : List (κ × ν)) (target : κ) :
    nodes.find? (fun node => cmp node.1 target != .lt) = Cursors.seek (Precedes cmp) nodes target := by
  unfold Cursors.seek
  congr 1
  funext node
  by_cases less : cmp node.1 target = .lt
  · simp [Precedes, less]
  · simp [Precedes, less]

theorem last_or_head {nodes : List Nat} (apart : head ∉ nodes) :
    (if nodes.getLastD head = head then none else some (nodes.getLastD head)) = nodes.getLast? := by
  cases List.eq_nil_or_concat nodes with
  | inl empty => simp [empty]
  | inr last =>
      obtain ⟨front, x, rfl⟩ := last
      have other : x ≠ head := by
        rintro rfl
        exact apart (by simp)
      simp [other]

theorem Levels.head_apart (inv : Levels cmp list levels) : head ∉ levels 0 :=
  (List.nodup_cons.mp (inv.nodup 0)).1

theorem Iterator.valid_of_mem (inv : Levels cmp list levels) {x : Nat} (member : x ∈ levels 0) :
    (Iterator.mk (some x)).valid = some x := by
  have other : x ≠ head := by
    rintro rfl
    exact inv.head_apart member
  simp [valid, other]

variable [Std.TransCmp cmp]

theorem Levels.seek_spec (inv : Levels cmp list levels) (target : κ) :
    ∃ it, Iterator.seek cmp list target = some it ∧ Stands levels it ∧
      it.position list = Cursors.seek (Precedes cmp) (list.entries levels) target := by
  obtain ⟨prev, found, -⟩ := inv.findGreaterOrEqual_spec target unset
  refine ⟨⟨(list.left (below cmp target) levels 0).head?⟩, by simp [Iterator.seek, found], ?_, ?_⟩
  · intro x first
    exact List.dropWhile_subset _ (List.mem_of_head? first)
  · rw [Iterator.position, ← List.head?_map, inv.entries_left, List.head?_filter, find_not_below]

theorem Levels.next_spec (inv : Levels cmp list levels) {x : Nat} (member : x ∈ levels 0) :
    ∃ it, (Iterator.mk (some x)).next list = some it ∧ Stands levels it ∧
      it.position list = Cursors.next (Precedes cmp) (list.entries levels) (list.entry x).1 := by
  have order : IsStrictOrder κ (Precedes cmp) := precedes_strict
  obtain ⟨front, back, shape⟩ := List.append_of_mem member
  have chain := inv.chained 0 (Nat.zero_lt_succ _)
  have ascending : (list.entries levels).Pairwise fun a b => Precedes cmp a.1 b.1 := inv.ascending
  rw [shape] at chain
  rw [entries, shape, List.map_append, List.map_cons] at ascending
  have read : list.next 0 x = some back.head? := chain.behind.2.first
  refine ⟨⟨back.head?⟩, ?_, ?_, ?_⟩
  · simp [Iterator.next, Iterator.valid_of_mem inv member, read]
  · intro y first
    rw [shape]
    exact List.mem_append_right _ (List.mem_cons_of_mem _ (List.mem_of_head? first))
  · rw [entries, shape, List.map_append, List.map_cons]
    rw [Cursors.next_at ascending, Cursors.first, Iterator.position, List.head?_map]

theorem Levels.prev_spec (inv : Levels cmp list levels) {x : Nat} (member : x ∈ levels 0) :
    ∃ it, (Iterator.mk (some x)).prev cmp list = some it ∧ Stands levels it ∧
      it.position list = Cursors.prev (Precedes cmp) (list.entries levels) (list.entry x).1 := by
  have order : IsStrictOrder κ (Precedes cmp) := precedes_strict
  obtain ⟨front, back, shape⟩ := List.append_of_mem member
  obtain ⟨stored, read⟩ := inv.readable (Nat.zero_lt_succ _) (List.mem_cons_of_mem _ member)
  obtain ⟨node, here, -⟩ := memory_of_next read
  have key : node.key = (list.entry x).1 := by rw [entry_of_memory here]
  have ascending : (list.entries levels).Pairwise fun a b => Precedes cmp a.1 b.1 := inv.ascending
  have sorted := inv.sorted 0
  rw [entries, shape, List.map_append, List.map_cons] at ascending
  rw [shape] at sorted
  -- A search for the key of the node passes exactly what is before it.
  have cut : list.passed (below cmp (list.entry x).1) levels 0 = front := by
    apply (cut_at shape _ _).1
    · intro n earlier
      have less := (List.pairwise_append.mp sorted).2.2 n earlier x (List.mem_cons_self ..)
      simp [isAhead, below, less]
    · intro n first
      obtain rfl : x = n := by simpa using first
      simp [isAhead, below, @Std.ReflCmp.compare_self _ cmp]
  have apart : head ∉ front := by
    intro earlier
    apply inv.head_apart
    rw [shape]
    exact List.mem_append_left _ earlier
  refine ⟨⟨front.getLast?⟩, ?_, ?_, ?_⟩
  · rw [← last_or_head apart, ← cut]
    simp [Iterator.prev, Iterator.valid_of_mem inv member, here, key, inv.findLessThan_spec, predecessor]
  · intro y last
    rw [shape]
    exact List.mem_append_left _ (List.mem_of_getLast? last)
  · rw [entries, shape, List.map_append, List.map_cons]
    rw [Cursors.prev_at ascending, Cursors.last, Iterator.position, List.getLast?_map]

omit [Std.TransCmp cmp] in
theorem Levels.seekToFirst_spec (inv : Levels cmp list levels) :
    ∃ it, Iterator.seekToFirst list = some it ∧ Stands levels it ∧
      it.position list = Cursors.first (list.entries levels) := by
  have first := (inv.chained 0 (Nat.zero_lt_succ _)).first
  refine ⟨⟨(levels 0).head?⟩, by simp [Iterator.seekToFirst, first], ?_, ?_⟩
  · intro x here
    exact List.mem_of_head? here
  · rw [Iterator.position, Cursors.first, entries, List.head?_map]

omit [Std.TransCmp cmp] in
theorem Levels.seekToLast_spec (inv : Levels cmp list levels) :
    ∃ it, Iterator.seekToLast list = some it ∧ Stands levels it ∧
      it.position list = Cursors.last (list.entries levels) := by
  refine ⟨⟨(levels 0).getLast?⟩, ?_, ?_, ?_⟩
  · rw [← last_or_head inv.head_apart, Iterator.seekToLast, inv.findLast_spec]
    rfl
  · intro x here
    exact List.mem_of_getLast? here
  · rw [Iterator.position, Cursors.last, entries, List.getLast?_map]

theorem Levels.call_spec (inv : Levels cmp list levels) {it : Iterator} (stands : Stands levels it)
    (call : IteratorCall κ) : (it.call cmp list call).map (Iterator.position list) =
        cursorCall cmp (list.entries levels) (it.position list) call ∧
      ∀ after ∈ it.call cmp list call, Stands levels after := by
  cases call with
  | seek target =>
      obtain ⟨after, done, there, same⟩ := inv.seek_spec target
      simp [Iterator.call, cursorCall, done, there, same]
  | seekToFirst =>
      obtain ⟨after, done, there, same⟩ := inv.seekToFirst_spec
      simp [Iterator.call, cursorCall, done, there, same]
  | seekToLast =>
      obtain ⟨after, done, there, same⟩ := inv.seekToLast_spec
      simp [Iterator.call, cursorCall, done, there, same]
  | next =>
      rcases it with ⟨_ | x⟩
      · simp [Iterator.call, Iterator.next, Iterator.valid, cursorCall, Iterator.position]
      · obtain ⟨after, done, there, same⟩ := inv.next_spec (stands x rfl)
        simp only [Iterator.call, done, cursorCall, Option.map_some, same]
        exact ⟨rfl, fun other equal => Option.some.inj equal ▸ there⟩
  | prev =>
      rcases it with ⟨_ | x⟩
      · simp [Iterator.call, Iterator.prev, Iterator.valid, cursorCall, Iterator.position]
      · obtain ⟨after, done, there, same⟩ := inv.prev_spec (stands x rfl)
        simp only [Iterator.call, done, cursorCall, Option.map_some, same]
        exact ⟨rfl, fun other equal => Option.some.inj equal ▸ there⟩

theorem Levels.calls_spec (inv : Levels cmp list levels) (calls : List (IteratorCall κ)) {it : Iterator}
    (stands : Stands levels it) :
    (Runs.execute (Iterator.call cmp list) it calls).map (Iterator.position list) =
      Runs.execute (cursorCall cmp (list.entries levels)) (it.position list) calls := by
  induction calls generalizing it with
  | nil => rfl
  | cons call rest ih =>
      obtain ⟨same, standing⟩ := inv.call_spec stands call
      rw [Runs.execute, Runs.execute, ← same]
      cases stepped : it.call cmp list call with
      | none => rfl
      | some after => exact ih (standing after stepped)

end Iterators

/-! ## The map of a run -/

structure Agrees (cmp : κ → κ → Ordering) (list : LinkedSkipList κ ν) (levels : Nat → List Nat)
    (content : κ → Option ν) : Prop where
  enumerates : Enumerates cmp content (list.entries levels)
  get : ∀ key, list.get cmp key = some (content key)
  contains : ∀ key, list.contains cmp key = some (content key).isSome
  rangeQuery : ∀ first last,
    list.rangeQuery cmp first last = some (between cmp first last (list.entries levels))
  iterator : ∀ it calls, Stands levels it →
    (Runs.execute (Iterator.call cmp list) it calls).map (Iterator.position list) =
      Runs.execute (cursorCall cmp (list.entries levels)) (it.position list) calls

section Maps
variable [Std.TransCmp cmp]

theorem Levels.agrees (inv : Levels cmp list levels) {content : κ → Option ν}
    (same : ∀ key, lookupNode cmp key (list.entries levels) = content key) :
    Agrees cmp list levels content where
  enumerates := by
    refine ⟨inv.ascending, ?_⟩
    intro key value
    rw [← same]
    exact lookupNode_eq_some inv.ascending
  get key := by rw [inv.get_spec, same]
  contains key := by rw [inv.contains_spec, same]
  rangeQuery := inv.rangeQuery_spec
  iterator _ calls stands := inv.calls_spec calls stands

theorem Levels.insert_refines [Std.LawfulEqCmp cmp] (inv : Levels cmp list levels)
    {lowest : SkipList κ ν cmp} (same : list.entries levels = lowest.nodes) (key : κ) (value : ν)
    (draws : Nat → Nat) : ∃ after levels', list.insert cmp key value draws = some after ∧
      Levels cmp after levels' ∧ after.entries levels' = (lowest.insert key value).nodes := by
  obtain ⟨after, levels', ran, inv', nodes⟩ := inv.put_spec key value draws
  refine ⟨after, levels', ran, inv', ?_⟩
  rw [nodes, same]
  rfl

theorem Levels.seek_refines (inv : Levels cmp list levels) {lowest : SkipList κ ν cmp}
    (same : list.entries levels = lowest.nodes) (target : κ) :
    ∃ it, Iterator.seek cmp list target = some it ∧ Stands levels it ∧
      it.position list = (lowest.seek target).head? := by
  obtain ⟨it, done, there, found⟩ := inv.seek_spec target
  refine ⟨it, done, there, ?_⟩
  rw [found, same, SkipList.seek, seekNodes_eq_filter lowest.ascending, List.head?_filter, find_not_below]

end Maps

/-- Every run of operations ends, with the levels in order and all reads those of the map it leaves. -/
theorem skipList_sorted_map (cmp : κ → κ → Ordering) [Std.TransCmp cmp]
    (operations : List (Operation κ ν)) :
    ∃ list levels, Runs.execute (operate cmp) empty operations = some list ∧ Levels cmp list levels ∧
      Agrees cmp list levels (contentOf cmp operations) := by
  have start : Levels cmp (empty : LinkedSkipList κ ν) fun _ => [] := levels_empty
  obtain ⟨list, levels, ran, inv, same⟩ := start.operations_spec operations
  exact ⟨list, levels, ran, inv, inv.agrees same⟩

theorem skipList_sorted_map_overwritten :
    contentOf compare [.insert 5 50 fun _ => 0, .insert 3 30 fun _ => 1, .merge 5 51 fun _ => 1, .delete 3] 5 =
        some 51 ∧
      ∃ (list : LinkedSkipList Nat Nat) (levels : Nat → List Nat),
        Runs.execute (operate compare) empty
          [.insert 5 50 fun _ => 0, .insert 3 30 fun _ => 1, .merge 5 51 fun _ => 1, .delete 3] = some list ∧
        Levels compare list levels ∧
        Agrees compare list levels (contentOf compare
          [.insert 5 50 fun _ => 0, .insert 3 30 fun _ => 1, .merge 5 51 fun _ => 1, .delete 3]) :=
  ⟨rfl, skipList_sorted_map compare _⟩

example : ((Runs.execute (operate compare) (empty : LinkedSkipList Nat Nat)
    [.insert 5 50 fun _ => 1, .insert 3 30 fun draw => draw, .merge 5 51 fun _ => 1, .insert 9 90 fun _ => 1,
      .delete 9]).bind fun list => list.rangeQuery compare 2 9) = some [(3, 30), (5, 51)] := by
  decide

end Lrdb.LinkedSkipList
