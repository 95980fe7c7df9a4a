import Mathlib.Data.List.Destutter
import Lrdb.Base.Scans
import Lrdb.Concurrency.VersionChainManager
import Lrdb.Util.Comparator

/-!
# The iterator of a transaction

It merges the keys of the version chains, in order, with what the tree iterator gives. The chain
decides for every key it knows.
-/

namespace Lrdb
open Scans

namespace TxnIterator
variable (cmp : Comparator)

abbrev State := List Key × List (Key × Value)

abbrev Visible := List (Key × VersionRecord)

/-- `mvcc_map_[key]`, which makes an empty record for a key it does not have. -/
def record (map : Visible) (key : Key) : VersionRecord :=
  (map.lookup key).getD { value := [], isDelete := false, txnId := 0 }

def KeyLE (a b : Key) : Prop := ¬ cmp.Before b a

instance (a b : Key) : Decidable (KeyLE cmp a b) := by unfold KeyLE; infer_instance

instance : Std.Total (KeyLE cmp) :=
  ⟨fun _ _ => or_iff_not_imp_left.mpr fun after => (not_not.mp after).not_before⟩

instance : IsTrans Key (KeyLE cmp) where
  trans a b c ab bc ca := by
    rcases Comparator.not_before.mp ab with rfl | before
    · exact bc ca
    · exact bc (ca.trans before)

def mvccKeys (map : Visible) : List Key :=
  ((map.map Prod.fst).insertionSort (KeyLE cmp)).destutter (· ≠ ·)

def prefersChain (key : Key) : List (Key × Value) → Bool
  | [] => true
  | (other, _) :: _ => cmp.compare key other ≠ .gt

def passKey (key : Key) : List (Key × Value) → List (Key × Value)
  | [] => []
  | (other, value) :: rest => if cmp.compare key other = .eq then rest else (other, value) :: rest

def fromTree (map : Visible) (keys : List Key) :
    List (Key × Value) → Option (Key × Option Value × State)
  | [] => none
  | (key, value) :: rest =>
      match map.lookup key with
      | some r => some (key, r.written, keys, rest)
      | none => some (key, some value, keys, rest)

/-- One round of the loop of `Advance`. -/
def turn (map : Visible) : State → Option (Key × Option Value × State)
  | (key :: keys, lsm) =>
      if prefersChain cmp key lsm then some (key, (record map key).written, keys, passKey cmp key lsm)
      else fromTree map (key :: keys) lsm
  | ([], lsm) => fromTree map [] lsm

def size (state : State) : Nat := state.1.length + state.2.length

def advance (map : Visible) (state : State) : Option ((Key × Value) × State) :=
  seek (turn cmp map) (size state + 1) state

/-- `SeekToFirst`, then `Next` as long as the iterator is valid. -/
def scan (map : Visible) (lsm : List (Key × Value)) : List (Key × Value) :=
  let keys := mvccKeys cmp map
  drain (advance cmp map) (size (keys, lsm) + 1) (keys, lsm)

/-! ## What the merge stands for -/

variable {cmp} {map : Visible}

def overlay (map : Visible) (state : State) (key : Key) : Option Value :=
  if key ∈ state.1 then (record map key).written else state.2.lookup key

structure Merging (cmp : Comparator) (map : Visible) (state : State) : Prop where
  keys : state.1.Pairwise cmp.Before
  lsm : state.2.Pairwise fun a b => cmp.Before a.1 b.1
  known : ∀ key ∈ state.1, (map.lookup key).isSome
  together : ∀ kv ∈ state.2, (map.lookup kv.1).isSome → kv.1 ∈ state.1

def reading (cmp : Comparator) (map : Visible) : Reading Key Value State where
  inv := Merging cmp map
  content := overlay map
  size := size

theorem lookup_absent {lsm : List (Key × Value)} {key : Key} (absent : ∀ kv ∈ lsm, kv.1 ≠ key) :
    lsm.lookup key = none := by
  rw [List.lookup_eq_none_iff]
  intro kv member
  simpa [bne_iff_ne] using (absent kv member).symm

theorem lookup_tail {lsm : List (Key × Value)} {key other : Key} {value : Value}
    (different : other ≠ key) : ((key, value) :: lsm).lookup other = lsm.lookup other := by
  simp [List.lookup_cons, beq_false_of_ne different]

theorem turns_fromTree {keys : List Key} {key : Key} {value : Value} {rest : List (Key × Value)}
    (merging : Merging cmp map (keys, (key, value) :: rest))
    (first : ∀ other ∈ keys, cmp.Before key other) :
    Turns cmp.Before (reading cmp map) (keys, (key, value) :: rest)
      (fromTree map keys ((key, value) :: rest)) := by
  obtain ⟨above, ascending⟩ := List.pairwise_cons.mp merging.lsm
  have missing : key ∉ keys := fun member => (first key member).ne rfl
  have unknown : map.lookup key = none := by
    have together := merging.together _ (List.mem_cons_self ..)
    cases found : map.lookup key with
    | none => rfl
    | some r => exact absurd (together (by rw [found]; rfl)) missing
  rw [fromTree, unknown]
  refine ⟨⟨merging.keys, ascending, merging.known, fun kv member =>
    merging.together kv (List.mem_cons_of_mem _ member)⟩, ?_, ?_, ?_, ?_, ?_⟩
  · show keys.length + rest.length < keys.length + (rest.length + 1)
    omega
  · show overlay map (keys, (key, value) :: rest) key = some value
    simp [overlay, missing]
  · intro other before
    have notKey : other ∉ keys := fun member => (first other member).not_before before
    show overlay map (keys, (key, value) :: rest) other = none
    rw [overlay, if_neg notKey, lookup_tail before.ne]
    exact lookup_absent fun kv member equal => (above kv member).not_before (equal ▸ before)
  · intro other later
    show overlay map (keys, rest) other = overlay map (keys, (key, value) :: rest) other
    simp only [overlay, lookup_tail later.ne.symm]
  · intro other notLater
    have notKey : other ∉ keys := fun member => notLater (first other member)
    show overlay map (keys, rest) other = none
    rw [overlay, if_neg notKey]
    exact lookup_absent fun kv member equal => notLater (equal ▸ above kv member)

theorem mem_passKey {lsm : List (Key × Value)} (ascending : lsm.Pairwise fun a b => cmp.Before a.1 b.1)
    {key : Key} (reached : ∀ kv ∈ lsm, ¬ cmp.Before kv.1 key) :
    passKey cmp key lsm = lsm.filter fun kv => cmp.Before key kv.1 := by
  cases lsm with
  | nil => rfl
  | cons kv rest =>
      obtain ⟨above, -⟩ := List.pairwise_cons.mp ascending
      obtain ⟨here, later⟩ := List.forall_mem_cons.mp reached
      rcases Comparator.not_before.mp here with same | after
      · have all : rest.filter (fun other => cmp.Before key other.1) = rest :=
          List.filter_eq_self.mpr fun other member => decide_eq_true (same ▸ above other member)
        have notAfter : ¬ cmp.Before key kv.1 := fun before => before.ne same.symm
        rw [passKey, if_pos (Comparator.compare_eq.mpr same.symm),
          List.filter_cons_of_neg (by simpa using notAfter), all]
      · have all : rest.filter (fun other => cmp.Before key other.1) = rest :=
          List.filter_eq_self.mpr fun other member => decide_eq_true (after.trans (above other member))
        have different : ¬ cmp.compare key kv.1 = .eq := fun same =>
          after.ne (Comparator.compare_eq.mp same)
        rw [passKey, if_neg different, List.filter_cons_of_pos (by simpa using after), all]

theorem lookup_filter {p : Key → Bool} (lsm : List (Key × Value)) (key : Key) :
    (lsm.filter fun kv => p kv.1).lookup key = if p key then lsm.lookup key else none := by
  induction lsm with
  | nil => simp
  | cons kv rest ih =>
      obtain ⟨first, value⟩ := kv
      by_cases same : key = first
      · subst same
        cases holds : p key
        · rw [List.filter_cons_of_neg (by simp [holds]), ih, holds]
          rfl
        · simp [holds]
      · cases holds : p first
        · rw [List.filter_cons_of_neg (by simp [holds]), ih, lookup_tail same]
        · rw [List.filter_cons_of_pos (by simp [holds]), lookup_tail same, ih, lookup_tail same]

theorem lookup_filter_before (lsm : List (Key × Value)) (key other : Key) :
    (lsm.filter fun kv => cmp.Before key kv.1).lookup other =
      if cmp.Before key other then lsm.lookup other else none := by
  simpa using lookup_filter (p := fun k => cmp.Before key k) lsm other

theorem turns_chain {keys : List Key} {key : Key} {lsm : List (Key × Value)}
    (merging : Merging cmp map (key :: keys, lsm)) (reached : ∀ kv ∈ lsm, ¬ cmp.Before kv.1 key) :
    Turns cmp.Before (reading cmp map) (key :: keys, lsm)
      (some (key, (record map key).written, keys, passKey cmp key lsm)) := by
  obtain ⟨above, ascending⟩ := List.pairwise_cons.mp merging.keys
  have missing : key ∉ keys := fun member => (above key member).ne rfl
  rw [mem_passKey merging.lsm reached]
  refine ⟨⟨ascending, merging.lsm.filter _, fun other member =>
    merging.known other (List.mem_cons_of_mem _ member), fun kv member isKnown => ?_⟩, ?_, ?_, ?_, ?_, ?_⟩
  · obtain ⟨inside, later⟩ := List.mem_filter.mp member
    rcases List.mem_cons.mp (merging.together kv inside isKnown) with same | there
    · exact absurd same.symm (of_decide_eq_true later).ne
    · exact there
  · have fewer := List.length_filter_le (fun kv => decide (cmp.Before key kv.1)) lsm
    show keys.length + (lsm.filter _).length < keys.length + 1 + lsm.length
    omega
  · show overlay map (key :: keys, lsm) key = (record map key).written
    simp [overlay]
  · intro other before
    have notKey : other ∉ key :: keys := by
      rintro (_ | ⟨_, member⟩)
      · exact before.ne rfl
      · exact (above other member).not_before before
    show overlay map (key :: keys, lsm) other = none
    rw [overlay, if_neg notKey]
    exact lookup_absent fun kv member equal => reached kv member (equal ▸ before)
  · intro other later
    show overlay map (keys, lsm.filter _) other = overlay map (key :: keys, lsm) other
    simp only [overlay, List.mem_cons, later.ne.symm, false_or, lookup_filter_before, later, if_true]
  · intro other notLater
    have notKey : other ∉ keys := fun member => notLater (above other member)
    show overlay map (keys, lsm.filter _) other = none
    rw [overlay, if_neg notKey, lookup_filter_before, if_neg notLater]

theorem turns_turn (state : State) (merging : Merging cmp map state) :
    Turns cmp.Before (reading cmp map) state (turn cmp map state) := by
  obtain ⟨keys, lsm⟩ := state
  cases keys with
  | nil =>
      cases lsm with
      | nil => exact fun key => rfl
      | cons kv rest => exact turns_fromTree merging (by simp)
  | cons key keys =>
      cases lsm with
      | nil => exact turns_chain merging (by simp)
      | cons kv rest =>
          obtain ⟨above, -⟩ := List.pairwise_cons.mp merging.lsm
          obtain ⟨later, -⟩ := List.pairwise_cons.mp merging.keys
          rw [turn]
          by_cases preferred : cmp.compare key kv.1 ≠ .gt
          · rw [if_pos (by simpa [prefersChain] using preferred)]
            apply turns_chain merging
            intro other member before
            rcases List.mem_cons.mp member with rfl | behind
            · exact preferred (Comparator.compare_gt.mpr before)
            · exact preferred (Comparator.compare_gt.mpr ((above other behind).trans before))
          · rw [if_neg (by simpa [prefersChain] using preferred)]
            have before := Comparator.compare_gt.mp (not_not.mp preferred)
            apply turns_fromTree merging
            intro other member
            rcases List.mem_cons.mp member with rfl | behind
            · exact before
            · exact before.trans (later other behind)

theorem yields_advance (state : State) (merging : Merging cmp map state) :
    Yields cmp.Before (reading cmp map) state (advance cmp map state) :=
  yields_seek turns_turn _ merging (Nat.lt_add_one _)

/-! ## The keys of the chains -/

/-- The keys of a table are distinct, so that `unique` keeps them all. -/
theorem mvccKeys_eq (nodup : (map.map Prod.fst).Nodup) :
    mvccKeys cmp map = (map.map Prod.fst).insertionSort (KeyLE cmp) := by
  apply List.destutter_of_isChain
  exact ((List.perm_insertionSort _ _).nodup_iff.mpr nodup).isChain

theorem mem_mvccKeys (nodup : (map.map Prod.fst).Nodup) {key : Key} :
    key ∈ mvccKeys cmp map ↔ (map.lookup key).isSome := by
  rw [mvccKeys_eq nodup, List.mem_insertionSort, List.lookup_isSome_iff, List.mem_map]
  exact exists_congr fun kv => and_congr_right fun _ => eq_comm.trans beq_iff_eq.symm

theorem ascending_mvccKeys (nodup : (map.map Prod.fst).Nodup) :
    (mvccKeys cmp map).Pairwise cmp.Before := by
  rw [mvccKeys_eq nodup]
  have distinct := (List.perm_insertionSort (KeyLE cmp) (map.map Prod.fst)).nodup_iff.mpr nodup
  refine (List.Pairwise.and (List.pairwise_insertionSort _ _) distinct).imp fun both => ?_
  exact (Comparator.not_before.mp both.1).resolve_left both.2.symm

def decided (map : Visible) (content : Key → Option Value) (key : Key) : Option Value :=
  match map.lookup key with
  | some r => r.written
  | none => content key

theorem lists_scan {content : Key → Option Value} {lsm : List (Key × Value)}
    (nodup : (map.map Prod.fst).Nodup) (lists : Lists cmp.Before content lsm) :
    Lists cmp.Before (decided map content) (scan cmp map lsm) := by
  have merging : Merging cmp map (mvccKeys cmp map, lsm) :=
    ⟨ascending_mvccKeys nodup, lists.ascending, fun key => (mem_mvccKeys nodup).mp,
      fun kv _ => (mem_mvccKeys nodup).mpr⟩
  have scanned : Lists cmp.Before (overlay map (mvccKeys cmp map, lsm)) (scan cmp map lsm) :=
    lists_drain (reading cmp map) yields_advance _ merging (Nat.lt_add_one _)
  apply scanned.iff.mpr
  intro key
  show decided map content key = overlay map (mvccKeys cmp map, lsm) key
  rw [decided, overlay, record]
  cases found : map.lookup key with
  | none =>
      have missing : key ∉ mvccKeys cmp map := by simp [mem_mvccKeys nodup, found]
      rw [if_neg missing, lists.lookup]
  | some r =>
      have present : key ∈ mvccKeys cmp map := by simp [mem_mvccKeys nodup, found]
      rw [if_pos present, Option.getD_some]

end TxnIterator
end Lrdb
