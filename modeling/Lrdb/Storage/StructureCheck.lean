import Lrdb.Storage.WriteHistory
import Lrdb.Util.ComparatorLaws

/-!
# The structure check of a memtable

A family can be given any comparator of user keys, also one that takes different keys for equal. The
nodes of a memtable and their entries are kept apart here: a write that meets an equal key gives its
entry to the node that is there, and leaves the key of the node.
-/

namespace Lrdb
open Orders

def versionCompare (a b : InternalKey) : Ordering :=
  (compare b.sequence a.sequence).then (compare a.type.toNat b.type.toNat)

/-- `InternalKeyComparator::Compare` over any comparison of user keys. -/
def internalCompareUnder (compare : Bytes → Bytes → Ordering) (a b : InternalKey) : Ordering :=
  (compare a.userKey b.userKey).then (versionCompare a b)

theorem laws_versionCompare (s : Set InternalKey) : Laws versionCompare s := by
  have numbers : Std.TransCmp (compare : Nat → Nat → Ordering) := inferInstance
  have sequences : Laws (fun a b : InternalKey => compare b.sequence a.sequence) s :=
    @laws_of_transCmp _ _ s
      { eq_swap := numbers.eq_swap
        isLE_trans := fun ab bc => numbers.isLE_trans bc ab }
  have types : Laws (fun a b : InternalKey => compare a.type.toNat b.type.toNat) s :=
    @laws_of_transCmp _ _ s
      { eq_swap := numbers.eq_swap
        isLE_trans := numbers.isLE_trans }
  exact sequences.lex types

theorem internalCompareUnder_swap {compare : Bytes → Bytes → Ordering} {a b : InternalKey}
    (swap : compare a.userKey b.userKey = (compare b.userKey a.userKey).swap) :
    internalCompareUnder compare a b = (internalCompareUnder compare b a).swap := by
  rw [internalCompareUnder, internalCompareUnder, Ordering.swap_then, ← swap,
    ← (laws_versionCompare Set.univ).antisymmetric a trivial b trivial]

theorem laws_internalCompareUnder {compare : Bytes → Bytes → Ordering} {keys : Set Key}
    (laws : Laws compare keys) :
    Laws (internalCompareUnder compare) {k | k.userKey ∈ keys} :=
  (laws.comap InternalKey.userKey).lex (laws_versionCompare _)

namespace MemTable

/-- The nodes of the skip list with the entries they point to, and `num_entries_`. -/
structure Structure where
  nodes : List (InternalKey × Entry) := []
  numEntries : Nat := 0

namespace Structure
variable (compare : Bytes → Bytes → Ordering)

def insert (s : Structure) (w : Write) : Structure where
  nodes := insertNode (internalCompareUnder compare) w.internalKey (w.internalKey, w.stored) s.nodes
  numEntries := s.numEntries + 1

def written (writes : List Write) : Structure := writes.foldl (insert compare) {}

/-- `UpdateCurrentEntry` looks the key of the node up again. -/
def currentEntry (s : Structure) (node : InternalKey × Entry) : Option Entry :=
  getNode (internalCompareUnder compare) node.1 s.nodes

/-- The loop of `ValidateStructure` over the entries of the iterator: their count, unless a user key is
below the one before it in byte order. The iterator ends where a key is not found again. -/
def validateLoop : Option Key → Nat → List (Option Entry) → Option Nat
  | _, count, [] | _, count, none :: _ => some count
  | last, count, some entry :: rest =>
      if ∃ key ∈ last, bytewiseCompare entry.1.userKey key = .lt then none
      else validateLoop (some entry.1.userKey) (count + 1) rest

def validateStructure (s : Structure) : Bool :=
  validateLoop none 0 (s.nodes.map (currentEntry compare s)) == some s.numEntries

/-- No two writes compare equal, and the keys come in byte order. -/
structure FollowsBytes (writes : List Write) : Prop where
  swaps : ∀ a ∈ writes, ∀ b ∈ writes, compare a.key b.key = (compare b.key a.key).swap
  distinct : (writes.map Write.internalKey).Pairwise fun a b => internalCompareUnder compare a b ≠ .eq
  follows : ∀ a ∈ writes, ∀ b ∈ writes, bytewiseComparator.Before a.key b.key →
    internalCompareUnder compare a.internalKey b.internalKey = .lt

variable {compare} {writes history : List Write} {s : Structure}

theorem validateLoop_eq_some {last : Option Key} {count n : Nat} {entries : List Entry} :
    validateLoop last count (entries.map some) = some n ↔
      (last.toList ++ entries.map fun entry => entry.1.userKey).IsChain
          (fun a b => ¬ bytewiseComparator.Before b a) ∧ n = count + entries.length := by
  induction entries generalizing last count with
  | nil => cases last <;> simp [validateLoop, eq_comm]
  | cons entry rest ih =>
      rw [List.map_cons, validateLoop]
      split
      · rename_i below
        obtain ⟨key, found, less⟩ := below
        obtain rfl := Option.mem_def.mp found
        refine iff_of_false (by simp) fun ⟨chain, _⟩ => ?_
        exact (List.isChain_cons_cons.mp chain).1 less
      · rename_i fine
        rw [ih, List.length_cons, Nat.add_right_comm, Nat.add_assoc]
        refine and_congr_left fun _ => ?_
        cases last with
        | none => rfl
        | some key =>
            refine (List.isChain_cons_cons.trans (and_iff_right fun less => fine ?_)).symm
            exact ⟨key, rfl, less⟩

/-! ## What the writes leave -/

structure Holds (compare : Bytes → Bytes → Ordering) (history : List Write) (s : Structure) : Prop where
  ascending : Ascending (internalCompareUnder compare) s.nodes
  counted : s.numEntries = history.length
  fewer : s.nodes.length ≤ history.length
  keys : ∀ node ∈ s.nodes, node.1 ∈ history.map Write.internalKey
  all : s.nodes.length = history.length ↔
    (history.map Write.internalKey).Pairwise fun a b => internalCompareUnder compare a b ≠ .eq
  own : (history.map Write.internalKey).Pairwise (fun a b => internalCompareUnder compare a b ≠ .eq) →
    (s.nodes.map Prod.fst).Perm (history.map Write.internalKey) ∧ ∀ node ∈ s.nodes, node.2.1 = node.1

theorem Holds.insert {keys : Set InternalKey} (laws : Laws (internalCompareUnder compare) keys)
    (holds : Holds compare history s) {w : Write}
    (inside : ∀ a ∈ history ++ [w], a.internalKey ∈ keys) :
    Holds compare (history ++ [w]) (s.insert compare w) := by
  have inNodes : ∀ node ∈ s.nodes, node.1 ∈ keys := by
    intro node member
    obtain ⟨a, written, same⟩ := List.mem_map.mp (holds.keys node member)
    exact same ▸ inside a (List.mem_append_left _ written)
  have distinct : ((history ++ [w]).map Write.internalKey).Pairwise
        (fun a b => internalCompareUnder compare a b ≠ .eq) ↔
      (history.map Write.internalKey).Pairwise (fun a b => internalCompareUnder compare a b ≠ .eq) ∧
        ∀ a ∈ history.map Write.internalKey, internalCompareUnder compare a w.internalKey ≠ .eq := by
    simp [List.pairwise_append]
  have length : (history ++ [w]).length = history.length + 1 := by simp
  obtain ⟨⟨node, member, equal⟩, same⟩ | ⟨different, perm, ascending⟩ :=
    insertNode_spec laws (w.internalKey, w.stored) (inside w (by simp)) inNodes holds.ascending
  · -- The entry of an older node is replaced.
    have count : (s.insert compare w).nodes.length = s.nodes.length := by
      have lengths := congrArg List.length same
      rwa [List.length_map, List.length_map] at lengths
    have clash : ¬ ((history ++ [w]).map Write.internalKey).Pairwise
        (fun a b => internalCompareUnder compare a b ≠ .eq) := by
      intro apart
      exact (distinct.mp apart).2 node.1 (holds.keys node member) equal
    refine ⟨?_, ?_, ?_, ?_, ?_, fun apart => absurd apart clash⟩
    · have sorted : (s.nodes.map Prod.fst).Pairwise fun a b => internalCompareUnder compare a b = .lt :=
        List.pairwise_map.mpr holds.ascending
      rw [← same] at sorted
      exact List.pairwise_map.mp sorted
    · rw [length, ← holds.counted]
      rfl
    · rw [count, length]
      exact Nat.le_succ_of_le holds.fewer
    · intro new written
      have old : new.1 ∈ s.nodes.map Prod.fst := same ▸ List.mem_map_of_mem written
      obtain ⟨node, member, equal⟩ := List.mem_map.mp old
      rw [← equal, List.map_append]
      exact List.mem_append_left _ (holds.keys node member)
    · refine iff_of_false ?_ clash
      rw [count, length]
      exact (Nat.lt_succ_of_le holds.fewer).ne
  · -- A new node.
    have count : (s.insert compare w).nodes.length = s.nodes.length + 1 := perm.length_eq
    refine ⟨ascending, ?_, ?_, ?_, ?_, ?_⟩
    · rw [length, ← holds.counted]
      rfl
    · rw [count, length]
      exact Nat.succ_le_succ holds.fewer
    · intro new written
      rw [List.map_append]
      rcases List.mem_cons.mp (perm.subset written) with rfl | old
      · exact List.mem_append_right _ (List.mem_singleton.mpr rfl)
      · exact List.mem_append_left _ (holds.keys new old)
    · rw [count, length, Nat.add_right_cancel_iff, holds.all, distinct]
      refine ⟨fun apart => ⟨apart, fun a written => ?_⟩, And.left⟩
      obtain ⟨node, member, rfl⟩ := List.mem_map.mp ((holds.own apart).1.mem_iff.mpr written)
      exact different node member
    · intro apart
      obtain ⟨kept, own⟩ := holds.own (distinct.mp apart).1
      refine ⟨?_, fun new written => ?_⟩
      · rw [List.map_append]
        exact ((perm.map Prod.fst).trans (kept.cons _)).trans
          (List.perm_append_singleton ..).symm
      · rcases List.mem_cons.mp (perm.subset written) with rfl | old
        · rfl
        · exact own new old

theorem holds_written {keys : Set InternalKey} (laws : Laws (internalCompareUnder compare) keys)
    (inside : ∀ w ∈ writes, w.internalKey ∈ keys) : Holds compare writes (written compare writes) := by
  induction writes using List.reverseRecOn with
  | nil => exact ⟨List.Pairwise.nil, rfl, le_rfl, by simp [written], by simp [written], by simp [written]⟩
  | append_singleton history w ih =>
      rw [written, List.foldl_append]
      exact (ih fun a member => inside a (List.mem_append_left _ member)).insert laws inside

/-! ## The check -/

theorem accepts_iff {keys : Set InternalKey} (laws : Laws (internalCompareUnder compare) keys)
    (inside : ∀ w ∈ writes, w.internalKey ∈ keys) (holds : Holds compare writes s) :
    s.validateStructure compare ↔
      (s.nodes.map fun node => node.2.1.userKey).Pairwise (fun a b => ¬ bytewiseComparator.Before b a) ∧
        s.nodes.length = writes.length := by
  have shown : s.nodes.map (currentEntry compare s) = (s.nodes.map Prod.snd).map some := by
    rw [List.map_map]
    refine List.map_congr_left fun node member => getNode_self holds.ascending (fun x here => ?_) member
    obtain ⟨a, written, same⟩ := List.mem_map.mp (holds.keys x here)
    exact laws.equal_refl _ (same ▸ inside a written)
  have order : Trans (fun a b : Key => ¬ bytewiseComparator.Before b a)
      (fun a b => ¬ bytewiseComparator.Before b a) fun a b => ¬ bytewiseComparator.Before b a := by
    refine ⟨fun {a b c} ab bc => ?_⟩
    rcases Comparator.not_before.mp ab with rfl | ab
    · exact bc
    · rcases Comparator.not_before.mp bc with rfl | bc
      · exact ab.not_before
      · exact (ab.trans bc).not_before
  rw [validateStructure, beq_iff_eq, shown, validateLoop_eq_some, holds.counted, Nat.zero_add, List.length_map,
    List.map_map, Option.toList_none, List.nil_append, List.isChain_iff_pairwise]
  exact and_congr_right fun _ => eq_comm

theorem pairwise_iff_follows {keys : Set InternalKey} (laws : Laws (internalCompareUnder compare) keys)
    (inside : ∀ w ∈ writes, w.internalKey ∈ keys) (holds : Holds compare writes s)
    (distinct : (writes.map Write.internalKey).Pairwise fun a b => internalCompareUnder compare a b ≠ .eq) :
    (s.nodes.map fun node => node.2.1.userKey).Pairwise (fun a b => ¬ bytewiseComparator.Before b a) ↔
      ∀ a ∈ writes, ∀ b ∈ writes, bytewiseComparator.Before a.key b.key →
        internalCompareUnder compare a.internalKey b.internalKey = .lt := by
  obtain ⟨perm, own⟩ := holds.own distinct
  rw [List.pairwise_map]
  constructor
  · intro ordered a writtenA b writtenB before
    obtain ⟨x, memberX, keyX⟩ := List.mem_map.mp (perm.mem_iff.mpr (List.mem_map_of_mem writtenA))
    obtain ⟨y, memberY, keyY⟩ := List.mem_map.mp (perm.mem_iff.mpr (List.mem_map_of_mem writtenB))
    have userX : x.2.1.userKey = a.key := by rw [own x memberX, keyX]; rfl
    have userY : y.2.1.userKey = b.key := by rw [own y memberY, keyY]; rfl
    rw [← keyX, ← keyY]
    rw [← userX, ← userY] at before
    obtain ⟨i, boundI, rfl⟩ := List.mem_iff_getElem.mp memberX
    obtain ⟨j, boundJ, rfl⟩ := List.mem_iff_getElem.mp memberY
    rcases Nat.lt_trichotomy i j with less | rfl | greater
    · exact List.pairwise_iff_getElem.mp holds.ascending i j boundI boundJ less
    · exact absurd rfl before.ne
    · exact absurd before (List.pairwise_iff_getElem.mp ordered j i boundJ boundI greater)
  · intro follows
    refine List.Pairwise.imp_of_mem (fun {x y} memberX memberY less before => ?_) holds.ascending
    obtain ⟨a, writtenA, keyA⟩ := List.mem_map.mp (holds.keys x memberX)
    obtain ⟨b, writtenB, keyB⟩ := List.mem_map.mp (holds.keys y memberY)
    rw [own x memberX, own y memberY, ← keyA, ← keyB] at before
    have back := follows b writtenB a writtenA before
    rw [keyA, keyB, laws.antisymmetric _ (keyB ▸ inside b writtenB) _ (keyA ▸ inside a writtenA), less]
      at back
    cases back

theorem FollowsBytes.compare_self (follows : FollowsBytes compare writes) {w : Write} (written : w ∈ writes) :
    compare w.key w.key = .eq := by
  have swaps := follows.swaps w written w written
  cases compared : compare w.key w.key with
  | eq => rfl
  | lt | gt =>
      rw [compared] at swaps
      cases swaps

theorem FollowsBytes.internalCompareUnder_eq (follows : FollowsBytes compare writes) {a b : Write}
    (writtenA : a ∈ writes) (writtenB : b ∈ writes) :
    internalCompareUnder compare a.internalKey b.internalKey =
      internalCompare bytewiseComparator a.internalKey b.internalKey := by
  have bytes {a b : Write} (writtenA : a ∈ writes) (writtenB : b ∈ writes)
      (before : bytewiseComparator.Before a.key b.key) :
      internalCompareUnder compare a.internalKey b.internalKey =
        internalCompare bytewiseComparator a.internalKey b.internalKey := by
    rw [follows.follows a writtenA b writtenB before, internalCompare_lt.mpr (.inl before)]
  rcases Comparator.before_or_eq_or_before bytewiseComparator a.key b.key with before | same | after
  · exact bytes writtenA writtenB before
  · have equal : compare a.key b.key = .eq := by
      rw [← same]
      exact follows.compare_self writtenA
    have equal' : bytewiseComparator.compare a.key b.key = .eq := Comparator.compare_eq.mpr same
    show (compare a.key b.key).then _ = (bytewiseComparator.compare a.key b.key).then _
    rw [equal, equal']
    rfl
  · have back := bytes writtenB writtenA after
    rw [internalCompareUnder_swap (follows.swaps a writtenA b writtenB), back,
      ← (laws_of_transCmp (s := Set.univ)).antisymmetric a.internalKey trivial b.internalKey trivial]

theorem FollowsBytes.laws (follows : FollowsBytes compare writes) :
    Laws (internalCompareUnder compare) {k | k ∈ writes.map Write.internalKey} := by
  refine (laws_of_transCmp (f := internalCompare bytewiseComparator)).congr fun k hk l hl => ?_
  obtain ⟨a, writtenA, rfl⟩ := List.mem_map.mp hk
  obtain ⟨b, writtenB, rfl⟩ := List.mem_map.mp hl
  exact follows.internalCompareUnder_eq writtenA writtenB

end Structure
open Structure

theorem accepts_written_iff {compare : Bytes → Bytes → Ordering} {writes : List Write}
    (laws : Laws (internalCompareUnder compare) {k | k ∈ writes.map Write.internalKey}) :
    (written compare writes).validateStructure compare ↔
      (writes.map Write.internalKey).Pairwise (fun a b => internalCompareUnder compare a b ≠ .eq) ∧
        ∀ a ∈ writes, ∀ b ∈ writes, bytewiseComparator.Before a.key b.key →
          internalCompareUnder compare a.internalKey b.internalKey = .lt := by
  have inside : ∀ w ∈ writes, w.internalKey ∈ {k | k ∈ writes.map Write.internalKey} :=
    fun w member => List.mem_map_of_mem member
  have holds := holds_written laws inside
  rw [accepts_iff laws inside holds, holds.all, and_comm]
  exact and_congr_right (pairwise_iff_follows laws inside holds)

/-- The check accepts what writes leave if no two of them compare equal and the keys come in byte
order, whatever the comparator is; and only then, if the comparator is an order on the written keys. -/
theorem validateStructure_iff (compare : Bytes → Bytes → Ordering) (writes : List Write) :
    (FollowsBytes compare writes → (written compare writes).validateStructure compare) ∧
      (Laws compare {key | key ∈ writes.map Write.key} →
        ((written compare writes).validateStructure compare ↔ FollowsBytes compare writes)) := by
  refine ⟨fun follows => ?_, fun laws => ?_⟩
  · exact (accepts_written_iff follows.laws).mpr ⟨follows.distinct, follows.follows⟩
  · have keys (w : Write) (member : w ∈ writes) : w.key ∈ {key | key ∈ writes.map Write.key} :=
      List.mem_map_of_mem member
    have internal : Laws (internalCompareUnder compare) {k | k ∈ writes.map Write.internalKey} := by
      refine (laws_internalCompareUnder laws).subset fun k member => ?_
      obtain ⟨w, written, rfl⟩ := List.mem_map.mp member
      exact keys w written
    rw [accepts_written_iff internal]
    constructor
    · rintro ⟨distinct, follows⟩
      exact ⟨fun a ha b hb => laws.antisymmetric a.key (keys a ha) b.key (keys b hb), distinct, follows⟩
    · exact fun follows => ⟨follows.distinct, follows.follows⟩

theorem validateStructure_fails_rewrite :
    (¬ ∀ (compare : Bytes → Bytes → Ordering) (writes : List Write),
      (written compare writes).validateStructure compare) ∧
    (written bytewiseCompare [.put [107] [1] 1, .put [107] [1] 1]).validateStructure bytewiseCompare = false ∧
    (written (prefixCompare 1) [.put [97, 97] [1] 1, .put [97, 98] [2] 2]).validateStructure (prefixCompare 1) =
      false := by
  have wrong : (written bytewiseCompare [.put [107] [1] 1, .put [107] [1] 1]).validateStructure bytewiseCompare =
    false := by decide +kernel
  refine ⟨fun always => ?_, wrong, by decide +kernel⟩
  rw [always] at wrong
  cases wrong

/-! ## Under a comparator that tells all keys apart -/

theorem insertNode_own (cmp : Comparator) (w : Write) {nodes : List (InternalKey × Entry)}
    (own : ∀ node ∈ nodes, node.2.1 = node.1) :
    (insertNode (internalCompare cmp) w.internalKey (w.internalKey, w.stored) nodes).map Prod.snd =
        insertNode (internalCompare cmp) w.internalKey w.stored (nodes.map Prod.snd) ∧
      ∀ node ∈ insertNode (internalCompare cmp) w.internalKey (w.internalKey, w.stored) nodes,
        node.2.1 = node.1 := by
  induction nodes with
  | nil => simp [insertNode]
  | cons first rest ih =>
      obtain ⟨here, below⟩ := List.forall_mem_cons.mp own
      obtain ⟨same, kept⟩ := ih below
      cases compared : internalCompare cmp first.1 w.internalKey with
      | lt => simpa [insertNode, here, compared, same] using kept
      | eq =>
          have equal := internalCompare_eq.mp compared
          simp only [insertNode, here, compared, List.map_cons]
          refine ⟨by rw [equal], fun node member => ?_⟩
          rcases List.mem_cons.mp member with rfl | later
          · exact equal.symm
          · exact below node later
      | gt => simpa [insertNode, here, compared] using below

theorem written_eq_entries {cmp : Comparator} {options : MemTableOptions} {writes : List Write}
    {mem : MemTable cmp} (ends : writeAll options (new options) writes = .ok mem) :
    (written cmp.compare writes).nodes.map Prod.snd = mem.entries ∧
      (written cmp.compare writes).numEntries = mem.numEntries := by
  have all : ((written cmp.compare writes).nodes.map Prod.snd = mem.entries ∧
      (written cmp.compare writes).numEntries = mem.numEntries) ∧
      ∀ node ∈ (written cmp.compare writes).nodes, node.2.1 = node.1 := by
    refine writeAll_induction (P := fun history mem =>
      ((written cmp.compare history).nodes.map Prod.snd = mem.entries ∧
        (written cmp.compare history).numEntries = mem.numEntries) ∧
        ∀ node ∈ (written cmp.compare history).nodes, node.2.1 = node.1)
      ⟨⟨rfl, rfl⟩, by simp [written]⟩ (fun history mem w same => ?_) ends
    obtain ⟨⟨entries, count⟩, own⟩ := same
    rw [written, List.foldl_append]
    obtain ⟨inserted, own⟩ := insertNode_own cmp w own
    rw [entries] at inserted
    exact ⟨⟨inserted, congrArg (· + 1) count⟩, own⟩
  exact all.1

end MemTable
end Lrdb
