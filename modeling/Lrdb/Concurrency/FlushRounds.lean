import Lrdb.Concurrency.VersionChainManager

namespace Lrdb

namespace Chain

theorem unflushed_markFlushed {sequences : List Nat} {chain : Chain}
    (covered : ∀ r ∈ chain.unflushed, r.commitSnapshot ∈ sequences) :
    (chain.markFlushed sequences).unflushed = [] := by
  refine List.filter_eq_nil_iff.mpr fun r member => ?_
  obtain ⟨a, held, -, stamp, committed, -, flushed⟩ := mem_markFlushed member
  simp only [Bool.and_eq_true, Bool.not_eq_true', not_and, Bool.not_eq_false]
  intro isCommitted
  rw [committed] at isCommitted
  by_cases already : a.flushed
  · exact flushed.mpr (.inl already)
  · refine flushed.mpr (.inr ⟨isCommitted, covered a ?_⟩)
    simp [unflushed, held, isCommitted, already]

theorem markFlushed_nil (chain : Chain) : chain.markFlushed [] = chain := by
  simp [markFlushed]

end Chain

namespace VersionChainManager
variable (m : VersionChainManager)

/-- What `PickCommittedNotFlushed` finds at these keys without a limit. -/
def waiting (order : List Key) : List (Key × VersionRecord) :=
  order.flatMap fun key => (m.chain key).unflushed.map fun r => (key, r)

@[simp] theorem waiting_nil : m.waiting [] = [] := rfl

theorem waiting_cons (key : Key) (rest : List Key) :
    m.waiting (key :: rest) = (m.chain key).unflushed.map (fun r => (key, r)) ++ m.waiting rest :=
  List.flatMap_cons

theorem waiting_append (first last : List Key) :
    m.waiting (first ++ last) = m.waiting first ++ m.waiting last := List.flatMap_append

variable {m}

theorem waiting_eq_nil {order : List Key} :
    m.waiting order = [] ↔ ∀ key ∈ order, (m.chain key).unflushed = [] := by
  simp [waiting]

theorem pick_split (maxItems : Nat) (out : List (Key × VersionRecord)) (order : List Key) :
    ∃ visited rest, order = visited ++ rest ∧
      m.pickCommittedNotFlushed maxItems out order = out ++ m.waiting visited ∧
        (rest = [] ∨ maxItems ≤ (out ++ m.waiting visited).length) := by
  induction order generalizing out with
  | nil => exact ⟨[], [], rfl, by simp [pickCommittedNotFlushed], .inl rfl⟩
  | cons key order ih =>
      rw [pickCommittedNotFlushed]
      split
      · rename_i enough
        refine ⟨[key], order, rfl, ?_, .inr ?_⟩
        · simp [waiting]
        · simpa [waiting] using enough
      · obtain ⟨visited, rest, rfl, picked, ends⟩ :=
          ih (out ++ (m.chain key).unflushed.map fun r => (key, r))
        rw [List.append_assoc, ← waiting_cons] at picked ends
        exact ⟨key :: visited, rest, rfl, picked, ends⟩

theorem pick_eq_nil_iff {maxItems : Nat} (positive : 0 < maxItems) {order : List Key} :
    m.pickCommittedNotFlushed maxItems [] order = [] ↔ m.waiting order = [] := by
  obtain ⟨visited, rest, rfl, picked, ends⟩ := @pick_split m maxItems [] order
  rw [picked, List.nil_append, waiting_append, List.append_eq_nil_iff]
  refine ⟨fun none => ⟨none, ?_⟩, And.left⟩
  rcases ends with rfl | enough
  · exact waiting_nil m
  · rw [List.nil_append, none] at enough
    exact absurd enough (Nat.not_le.mpr positive)

def marksOf (items : List (Key × VersionRecord)) : List (Key × Nat) :=
  items.map fun item => (item.1, item.2.commitSnapshot)

theorem sequencesOf_absent {key : Key} {visited : List Key} (absent : key ∉ visited) :
    sequencesOf key (marksOf (m.waiting visited)) = [] := by
  refine List.eq_nil_iff_forall_not_mem.mpr fun sequence member => ?_
  obtain ⟨item, picked, same⟩ := List.mem_map.mp (mem_sequencesOf.mp member)
  obtain ⟨other, visits, here⟩ := List.mem_flatMap.mp picked
  obtain ⟨r, -, rfl⟩ := List.mem_map.mp here
  obtain rfl : other = key := congrArg Prod.fst same
  exact absent visits

theorem waiting_markFlushed {visited rest : List Key} (distinct : (visited ++ rest).Nodup) :
    (m.markFlushed (marksOf (m.waiting visited))).waiting (visited ++ rest) = m.waiting rest := by
  have done : (m.markFlushed (marksOf (m.waiting visited))).waiting visited = [] := by
    refine waiting_eq_nil.mpr fun key visits => Chain.unflushed_markFlushed fun r unflushed => ?_
    refine mem_sequencesOf.mpr (List.mem_map.mpr ⟨(key, r), ?_, rfl⟩)
    exact List.mem_flatMap.mpr ⟨key, visits, List.mem_map_of_mem unflushed⟩
  rw [waiting_append, done, List.nil_append]
  refine List.flatMap_congr fun key member => ?_
  have absent : key ∉ visited := fun visits => List.disjoint_of_nodup_append distinct visits member
  have same : (m.markFlushed (marksOf (m.waiting visited))).chain key = m.chain key := by
    simp only [markFlushed, forEach, sequencesOf_absent absent, Chain.markFlushed_nil]
  rw [same]

theorem length_waiting_markFlushed {maxItems : Nat} {order : List Key} (distinct : order.Nodup) :
    ((m.markFlushed (marksOf (m.pickCommittedNotFlushed maxItems [] order))).waiting order).length ≤
      (m.waiting order).length - maxItems := by
  obtain ⟨visited, rest, rfl, picked, ends⟩ := @pick_split m maxItems [] order
  rw [picked, List.nil_append, waiting_markFlushed distinct, waiting_append, List.length_append]
  rcases ends with rfl | enough
  · simp
  · rw [List.nil_append] at enough
    omega

end VersionChainManager
end Lrdb
