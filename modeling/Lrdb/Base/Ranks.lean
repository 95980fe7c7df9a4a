import Mathlib.Data.List.Sort
import Mathlib.Order.RelClasses

namespace Ranks
variable {α κ : Type*} [LinearOrder κ] (key : α → κ)

def Ascending : List α → Prop := List.Pairwise fun a b => key a < key b

def sorted (l : List α) : List α := l.insertionSort fun a b => key a ≤ key b

def rank (l : List α) (a : α) : Nat := (l.filter fun b => key b < key a).length

variable {key} {l l' : List α}

theorem ascending_sorted (distinct : l.Pairwise fun a b => key a ≠ key b) :
    Ascending key (sorted key l) := by
  have total : Std.Total fun a b : α => key a ≤ key b := ⟨fun a b => le_total (key a) (key b)⟩
  have trans : IsTrans α fun a b => key a ≤ key b := ⟨fun _ _ _ => le_trans⟩
  have ordered : (sorted key l).Pairwise fun a b => key a ≤ key b :=
    List.pairwise_insertionSort _ l
  have apart : (sorted key l).Pairwise fun a b => key a ≠ key b :=
    (List.Perm.pairwise_iff (fun different => different.symm) (List.perm_insertionSort _ l)).mpr distinct
  apply (ordered.and apart).imp
  rintro a b ⟨le, ne⟩
  exact lt_of_le_of_ne le ne

theorem Ascending.inj (ascending : Ascending key l) {a b : α} (left : a ∈ l) (right : b ∈ l)
    (same : key a = key b) : a = b := by
  have distinct : (l.map key).Nodup := by
    apply List.pairwise_map.mpr
    exact List.Pairwise.imp ne_of_lt ascending
  exact List.inj_on_of_nodup_map distinct left right same

theorem Ascending.pairwise_iff (ascending : Ascending key l) {R : α → α → Prop} :
    l.Pairwise R ↔ ∀ a ∈ l, ∀ b ∈ l, key a < key b → R a b := by
  induction l with
  | nil => simp
  | cons a rest ih =>
      obtain ⟨first, later⟩ := List.pairwise_cons.mp ascending
      rw [List.pairwise_cons, ih later]
      constructor
      · rintro ⟨here, there⟩ x hx y hy less
        rcases List.mem_cons.mp hx with rfl | left
        · rcases List.mem_cons.mp hy with rfl | right
          · exact absurd less (lt_irrefl _)
          · exact here y right
        · rcases List.mem_cons.mp hy with rfl | right
          · exact absurd less (first x left).asymm
          · exact there x left y right less
      · intro all
        refine ⟨fun b member => ?_, fun x hx y hy less => ?_⟩
        · exact all a List.mem_cons_self b (List.mem_cons_of_mem _ member) (first b member)
        · exact all x (List.mem_cons_of_mem _ hx) y (List.mem_cons_of_mem _ hy) less

theorem mem_sorted {a : α} : a ∈ sorted key l ↔ a ∈ l := (List.perm_insertionSort _ l).mem_iff

theorem rank_sorted (a : α) : rank key (sorted key l) a = rank key l a :=
  ((List.perm_insertionSort _ l).filter _).length_eq

theorem mem_take_iff (ascending : Ascending key l) {a : α} (member : a ∈ l) (n : Nat) :
    a ∈ l.take n ↔ rank key l a < n := by
  induction l generalizing n with
  | nil => cases member
  | cons b rest ih =>
      obtain ⟨first, later⟩ := List.pairwise_cons.mp ascending
      cases n with
      | zero => simp
      | succ n =>
          rw [List.take_succ_cons, List.mem_cons]
          rcases List.mem_cons.mp member with rfl | inside
          · have none : (a :: rest).filter (fun b => key b < key a) = [] := by
              apply List.filter_eq_nil_iff.mpr
              intro c hc
              rw [decide_eq_true_eq, not_lt]
              rcases List.mem_cons.mp hc with rfl | hc
              · exact le_rfl
              · exact (first c hc).le
            rw [rank, none]
            exact iff_of_true (.inl rfl) n.succ_pos
          · have smaller := first a inside
            have other : a ≠ b := fun same => absurd smaller (same ▸ lt_irrefl _)
            have counted : rank key (b :: rest) a = rank key rest a + 1 := by
              rw [rank, List.filter_cons, if_pos (decide_eq_true smaller)]
              rfl
            rw [or_iff_right other, ih later inside, counted, Nat.succ_lt_succ_iff]

theorem Ascending.eq_of_mem_iff (left : Ascending key l) (right : Ascending key l')
    (same : ∀ a, a ∈ l ↔ a ∈ l') : l = l' := by
  have asymm : Std.Asymm fun a b : α => key a < key b := ⟨fun _ _ less => less.asymm⟩
  have irrefl : Std.Irrefl fun a b : α => key a < key b := ⟨fun _ => lt_irrefl _⟩
  exact List.Pairwise.eq_of_mem_iff left right same

/-- The chosen items are among the first `n`, and in order there, if and only if they were in order
before and each has fewer than `n` smaller keys. -/
theorem filter_take_sorted_eq_iff (distinct : l.Pairwise fun a b => key a ≠ key b)
    (chosen : α → Bool) (n : Nat) : ((sorted key l).take n).filter chosen = l.filter chosen ↔
      Ascending key (l.filter chosen) ∧ ∀ a ∈ l, chosen a → rank key l a < n := by
  have ascending := ascending_sorted distinct
  have among (a : α) (member : a ∈ l) : a ∈ (sorted key l).take n ↔ rank key l a < n := by
    rw [mem_take_iff ascending (mem_sorted.mpr member), rank_sorted]
  have inOrder : Ascending key (((sorted key l).take n).filter chosen) :=
    ascending.sublist ((List.filter_sublist ..).trans (List.take_sublist ..))
  constructor
  · intro same
    refine ⟨same ▸ inOrder, fun a member wanted => (among a member).mp ?_⟩
    have here : a ∈ l.filter chosen := List.mem_filter.mpr ⟨member, wanted⟩
    rw [← same] at here
    exact List.mem_of_mem_filter here
  · rintro ⟨before, few⟩
    apply inOrder.eq_of_mem_iff before
    intro a
    rw [List.mem_filter, List.mem_filter, and_congr_left_iff]
    intro wanted
    constructor
    · exact fun first => mem_sorted.mp (List.mem_of_mem_take first)
    · exact fun member => (among a member).mpr (few a member wanted)

theorem filter_take_isPrefix (kept : α → Bool) (l : List α) (n : Nat) :
    (l.take n).filter kept <+: (l.filter kept).take n := by
  have parts : l.filter kept = (l.take n).filter kept ++ (l.drop n).filter kept := by
    rw [← List.filter_append, List.take_append_drop]
  have few : ((l.take n).filter kept).length ≤ n := (List.length_filter_le ..).trans (List.length_take_le ..)
  rw [parts, List.take_append, List.take_of_length_le few]
  exact List.prefix_append _ _

theorem sorted_filter (distinct : l.Pairwise fun a b => key a ≠ key b) (kept : α → Bool) :
    sorted key (l.filter kept) = (sorted key l).filter kept := by
  have left := ascending_sorted (distinct.sublist (List.filter_sublist (p := kept)))
  have right : Ascending key ((sorted key l).filter kept) :=
    (ascending_sorted distinct).sublist List.filter_sublist
  apply left.eq_of_mem_iff right
  intro a
  rw [mem_sorted, List.mem_filter, List.mem_filter, mem_sorted]

end Ranks
