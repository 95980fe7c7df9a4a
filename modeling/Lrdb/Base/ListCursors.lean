import Mathlib.Data.Set.Basic
import Lrdb.Base.Cursors

/-!
# Cursors that move

A list cursor keeps its list and stands at one of its entries or nowhere. Every call takes it to the entry
that is least, in the direction of the call, among those the call looks for. Cursors that are made of
others are compared with it through the sets of entries.
-/

namespace Cursors
variable {κ ν : Type*}

inductive CursorMove (κ : Type*) where
  | seekToFirst
  | seekToLast
  | seek (target : κ)
  | seekForPrev (target : κ)
  | next
  | prev
  deriving DecidableEq, Repr

namespace CursorMove

def isForward : CursorMove κ → Bool
  | seekToFirst | seek _ | next => true
  | seekToLast | seekForPrev _ | prev => false

def isMove : CursorMove κ → Bool
  | next | prev => true
  | _ => false

end CursorMove

def along (r : κ → κ → Prop) (call : CursorMove κ) (a b : κ) : Prop :=
  if call.isForward then r a b else r b a

def Sought (r : κ → κ → Prop) (position : Option (κ × ν)) : CursorMove κ → κ → Prop
  | .seekToFirst, _ => True
  | .seekToLast, _ => True
  | .seek target, key => ¬ r key target
  | .seekForPrev target, key => ¬ r target key
  | .next, key => ∃ entry ∈ position, r entry.1 key
  | .prev, key => ∃ entry ∈ position, r key entry.1

section Moves
variable (r : κ → κ → Prop) [DecidableRel r] (out : List (κ × ν))

def seekForPrev (target : κ) : Option (κ × ν) := out.reverse.find? fun entry => ¬ r target entry.1

def move (position : Option (κ × ν)) : CursorMove κ → Option (κ × ν)
  | .seekToFirst => first out
  | .seekToLast => last out
  | .seek target => seek r out target
  | .seekForPrev target => seekForPrev r out target
  | .next => position.bind fun entry => next r out entry.1
  | .prev => position.bind fun entry => prev r out entry.1

end Moves

def LeastIn (r : κ → κ → Prop) (s : Set (κ × ν)) : Option (κ × ν) → Prop
  | none => ∀ entry, entry ∉ s
  | some least => least ∈ s ∧ ∀ entry ∈ s, ¬ r entry.1 least.1

def soughtIn (r : κ → κ → Prop) (out : List (κ × ν)) (position : Option (κ × ν)) (call : CursorMove κ) :
    Set (κ × ν) :=
  {entry | entry ∈ out ∧ Sought r position call entry.1}

/-! ## Lists in parts -/

section Parts
variable {r : κ → κ → Prop} {front back : List (κ × ν)} {key : κ}

theorem first_append : first (front ++ back) = (first front).or (first back) := by
  unfold first
  exact List.head?_append

theorem last_append : last (front ++ back) = (last back).or (last front) := by
  unfold last
  exact List.getLast?_append

variable [DecidableRel r]

theorem seek_append : seek r (front ++ back) key = (seek r front key).or (seek r back key) :=
  List.find?_append

theorem next_append : next r (front ++ back) key = (next r front key).or (next r back key) :=
  List.find?_append

theorem prev_append : prev r (front ++ back) key = (prev r back key).or (prev r front key) := by
  unfold prev
  rw [List.reverse_append]
  exact List.find?_append

theorem next_eq_none (reached : ∀ entry ∈ front, ¬ r key entry.1) : next r front key = none := by
  apply List.find?_eq_none.mpr
  intro entry member holds
  exact reached entry member (of_decide_eq_true holds)

theorem prev_eq_none (reached : ∀ entry ∈ back, ¬ r entry.1 key) : prev r back key = none := by
  apply List.find?_eq_none.mpr
  intro entry member holds
  exact reached entry (List.mem_reverse.mp member) (of_decide_eq_true holds)

theorem next_eq_first (ahead : ∀ entry ∈ back, r key entry.1) : next r back key = first back := by
  cases back with
  | nil => rfl
  | cons head rest => exact List.find?_cons_of_pos (decide_eq_true (ahead head (List.mem_cons_self ..)))

theorem prev_eq_last (ahead : ∀ entry ∈ front, r entry.1 key) : prev r front key = last front := by
  rw [last, ← List.head?_reverse, prev]
  have all : ∀ entry ∈ front.reverse, r entry.1 key := fun entry member =>
    ahead entry (List.mem_reverse.mp member)
  cases shape : front.reverse with
  | nil => rfl
  | cons head rest =>
      rw [shape] at all
      exact List.find?_cons_of_pos (decide_eq_true (all head (List.mem_cons_self ..)))

theorem seekForPrev_append :
    seekForPrev r (front ++ back) key = (seekForPrev r back key).or (seekForPrev r front key) := by
  unfold seekForPrev
  rw [List.reverse_append]
  exact List.find?_append

theorem seek_eq_none (passed : ∀ entry ∈ front, r entry.1 key) : seek r front key = none := by
  apply List.find?_eq_none.mpr
  intro entry member
  simp [passed entry member]

theorem seekForPrev_eq_none (passed : ∀ entry ∈ back, r key entry.1) : seekForPrev r back key = none := by
  apply List.find?_eq_none.mpr
  intro entry member
  simp [passed entry (List.mem_reverse.mp member)]

theorem seek_eq_first (reached : ∀ entry ∈ back, ¬ r entry.1 key) : seek r back key = first back := by
  cases back with
  | nil => rfl
  | cons head rest => exact List.find?_cons_of_pos (decide_eq_true (reached head (List.mem_cons_self ..)))

theorem seekForPrev_eq_end (reached : ∀ entry ∈ front, ¬ r key entry.1) :
    seekForPrev r front key = last front := by
  rw [last, ← List.head?_reverse, seekForPrev]
  have all : ∀ entry ∈ front.reverse, ¬ r key entry.1 := fun entry member =>
    reached entry (List.mem_reverse.mp member)
  cases shape : front.reverse with
  | nil => rfl
  | cons head rest =>
      rw [shape] at all
      exact List.find?_cons_of_pos (decide_eq_true (all head (List.mem_cons_self ..)))

end Parts

/-! ## Least entries -/

variable {r : κ → κ → Prop} {out : List (κ × ν)} {s t : Set (κ × ν)} {found : Option (κ × ν)}

theorem LeastIn.mem (least : LeastIn r s found) : ∀ entry ∈ found, entry ∈ s := by
  rintro entry rfl
  exact least.1

theorem LeastIn.congr (least : LeastIn r s found) (same : ∀ entry, entry ∈ s ↔ entry ∈ t) :
    LeastIn r t found := by
  have equal : s = t := Set.ext same
  rwa [← equal]

theorem LeastIn.mono (least : LeastIn r s found) (part : ∀ entry ∈ t, entry ∈ s)
    (inside : ∀ entry ∈ found, entry ∈ t) : LeastIn r t found := by
  cases found with
  | none => exact fun entry member => least entry (part entry member)
  | some best => exact ⟨inside best rfl, fun entry member => least.2 entry (part entry member)⟩

theorem LeastIn.replaced (least : LeastIn r s found) (asymm : ∀ a b, r a b → ¬ r b a)
    (trans : ∀ a b c, r a b → r b c → r a c) {e : κ × ν} (before : ∀ best ∈ found, r e.1 best.1) :
    LeastIn r ({e} ∪ s) (some e) := by
  refine ⟨.inl rfl, ?_⟩
  rintro d (rfl | member) less
  · exact asymm _ _ less less
  · cases found with
    | none => exact least d member
    | some best => exact least.2 d member (trans _ _ _ less (before best rfl))

theorem LeastIn.kept {best e : κ × ν} (least : LeastIn r s (some best)) (notBefore : ¬ r e.1 best.1) :
    LeastIn r ({e} ∪ s) (some best) := by
  refine ⟨.inr least.1, ?_⟩
  rintro d (rfl | member)
  · exact notBefore
  · exact least.2 d member

theorem leastIn_find {p : κ × ν → Bool} (ascending : out.Pairwise fun a b => r a.1 b.1)
    (asymm : ∀ a b, r a b → ¬ r b a) : LeastIn r {entry | entry ∈ out ∧ p entry} (out.find? p) := by
  have irrefl (a : κ) : ¬ r a a := fun itself => asymm a a itself itself
  induction out with
  | nil => exact fun entry member => absurd member.1 List.not_mem_nil
  | cons head rest ih =>
      obtain ⟨before, tail⟩ := List.pairwise_cons.mp ascending
      by_cases here : p head
      · rw [List.find?_cons_of_pos here]
        refine ⟨⟨List.mem_cons_self .., here⟩, ?_⟩
        rintro entry ⟨member, -⟩
        rcases List.mem_cons.mp member with rfl | later
        · exact irrefl _
        · exact asymm _ _ (before entry later)
      · rw [List.find?_cons_of_neg here]
        apply (ih tail).congr
        intro entry
        constructor
        · exact fun ⟨member, holds⟩ => ⟨List.mem_cons_of_mem _ member, holds⟩
        · rintro ⟨member, holds⟩
          rcases List.mem_cons.mp member with rfl | later
          · exact absurd holds here
          · exact ⟨later, holds⟩

theorem leastIn_first (ascending : out.Pairwise fun a b => r a.1 b.1) (asymm : ∀ a b, r a b → ¬ r b a) :
    LeastIn r {entry | entry ∈ out} (first out) := by
  have found := @leastIn_find _ _ r out (fun _ => true) ascending asymm
  have whole : out.find? (fun _ => true) = first out := by cases out <;> rfl
  rw [whole] at found
  exact found.congr fun entry => and_iff_left rfl

section Order
variable [IsStrictTotalOrder κ r]

theorem entry_eq (ascending : out.Pairwise fun a b => r a.1 b.1) {a b : κ × ν} (ha : a ∈ out)
    (hb : b ∈ out) (same : a.1 = b.1) : a = b := by
  obtain ⟨before, after, rfl⟩ := List.append_of_mem ha
  obtain ⟨-, later, earlier⟩ := List.pairwise_append.mp ascending
  rcases List.mem_append.mp hb with front | back
  · have less := earlier b front a (List.mem_cons_self ..)
    rw [same] at less
    exact absurd less (irrefl_of r _)
  · rcases List.mem_cons.mp back with rfl | back
    · rfl
    · have less := (List.pairwise_cons.mp later).1 b back
      rw [same] at less
      exact absurd less (irrefl_of r _)

theorem LeastIn.unique (ascending : out.Pairwise fun a b => r a.1 b.1) {order : κ → κ → Prop}
    [IsStrictTotalOrder κ order] (inside : ∀ entry ∈ s, entry ∈ out) {other : Option (κ × ν)}
    (least : LeastIn order s found) (also : LeastIn order s other) : found = other := by
  cases found with
  | none =>
      cases other with
      | none => rfl
      | some entry => exact absurd also.1 (least entry)
  | some entry =>
      cases other with
      | none => exact absurd least.1 (also entry)
      | some second =>
          have keys : entry.1 = second.1 := by
            rcases trichotomous_of order entry.1 second.1 with before | same | after
            · exact absurd before (also.2 entry least.1)
            · exact same
            · exact absurd after (least.2 second also.1)
          rw [entry_eq ascending (inside _ least.1) (inside _ also.1) keys]

theorem LeastIn.union {ι : Type*} {parts : ι → Set (κ × ν)} {heads : ι → Option (κ × ν)}
    (each : ∀ i, LeastIn r (parts i) (heads i)) (least : LeastIn r {e | ∃ i, heads i = some e} found) :
    LeastIn r {e | ∃ i, e ∈ parts i} found := by
  have reached {d : κ × ν} (member : ∃ i, d ∈ parts i) :
      ∃ head, (∃ i, heads i = some head) ∧ ¬ r d.1 head.1 := by
    obtain ⟨i, inside⟩ := member
    have smallest := each i
    cases here : heads i with
    | none =>
        rw [here] at smallest
        exact absurd inside (smallest d)
    | some head =>
        rw [here] at smallest
        exact ⟨head, ⟨i, here⟩, smallest.2 d inside⟩
  cases found with
  | none =>
      intro d member
      obtain ⟨head, isHead, -⟩ := reached member
      exact least head isHead
  | some best =>
      obtain ⟨⟨i, here⟩, smallest⟩ := least
      refine ⟨⟨i, (each i).mem best here⟩, ?_⟩
      intro d member before
      obtain ⟨head, isHead, notBefore⟩ := reached member
      rcases trichotomous_of r best.1 head.1 with less | same | more
      · exact notBefore (trans_of r before less)
      · exact notBefore (same ▸ before)
      · exact smallest head isHead more

instance (call : CursorMove κ) : IsStrictTotalOrder κ (along r call) := by
  unfold along
  cases call.isForward with
  | true => exact inferInstanceAs (IsStrictTotalOrder κ r)
  | false => exact inferInstanceAs (IsStrictTotalOrder κ (Function.swap r))

theorem leastIn_last {p : κ × ν → Bool} (ascending : out.Pairwise fun a b => r a.1 b.1) :
    LeastIn (fun a b => r b a) {entry | entry ∈ out ∧ p entry} (out.reverse.find? p) := by
  have descending : out.reverse.Pairwise fun a b => r b.1 a.1 := List.pairwise_reverse.mpr ascending
  apply (leastIn_find descending fun a b less => asymm_of r less).congr
  intro entry
  show entry ∈ out.reverse ∧ _ ↔ _
  rw [List.mem_reverse]
  rfl

theorem leastIn_end (ascending : out.Pairwise fun a b => r a.1 b.1) :
    LeastIn (fun a b => r b a) {entry | entry ∈ out} (last out) := by
  have descending : out.reverse.Pairwise fun a b => r b.1 a.1 := List.pairwise_reverse.mpr ascending
  have found := @leastIn_first _ _ (fun a b => r b a) _ descending fun a b less => asymm_of r less
  rw [first, List.head?_reverse] at found
  exact found.congr fun entry => List.mem_reverse

theorem leastIn_move [DecidableRel r] (ascending : out.Pairwise fun a b => r a.1 b.1)
    (position : Option (κ × ν)) (call : CursorMove κ) :
    LeastIn (along r call) (soughtIn r out position call) (move r out position call) := by
  have asymm (a b : κ) (less : r a b) : ¬ r b a := asymm_of r less
  cases call with
  | seekToFirst => exact (leastIn_first ascending asymm).congr fun entry => (and_iff_left trivial).symm
  | seekToLast => exact (leastIn_end ascending).congr fun entry => (and_iff_left trivial).symm
  | seek target =>
      apply (leastIn_find ascending asymm).congr
      exact fun entry => and_congr_right fun _ => decide_eq_true_iff
  | seekForPrev target =>
      apply (leastIn_last ascending).congr
      exact fun entry => and_congr_right fun _ => decide_eq_true_iff
  | next =>
      cases position with
      | none => exact fun entry ⟨_, _, absent, _⟩ => by cases absent
      | some here =>
          apply (leastIn_find ascending asymm).congr
          intro entry
          apply and_congr_right
          intro _
          simp [Sought]
  | prev =>
      cases position with
      | none => exact fun entry ⟨_, _, absent, _⟩ => by cases absent
      | some here =>
          apply (leastIn_last ascending).congr
          intro entry
          apply and_congr_right
          intro _
          simp [Sought]

theorem move_eq [DecidableRel r] (ascending : out.Pairwise fun a b => r a.1 b.1)
    {position : Option (κ × ν)} {call : CursorMove κ}
    (least : LeastIn (along r call) (soughtIn r out position call) found) :
    found = move r out position call :=
  least.unique ascending (fun _ member => member.1) (leastIn_move ascending position call)

omit [IsStrictTotalOrder κ r] in
theorem next_at [IsStrictOrder κ r] [DecidableRel r] {front back : List (κ × ν)} {x : κ × ν}
    (ascending : (front ++ x :: back).Pairwise fun a b => r a.1 b.1) :
    next r (front ++ x :: back) x.1 = first back := by
  obtain ⟨-, later, earlier⟩ := List.pairwise_append.mp ascending
  have passed : ∀ entry ∈ front, ¬ r x.1 entry.1 := fun entry member =>
    asymm_of r (earlier entry member x (List.mem_cons_self ..))
  have ahead : next r back x.1 = first back := next_eq_first (List.pairwise_cons.mp later).1
  rw [next_append, next_eq_none passed, Option.none_or, ← ahead]
  exact List.find?_cons_of_neg fun itself => irrefl_of r _ (of_decide_eq_true itself)

omit [IsStrictTotalOrder κ r] in
theorem prev_at [IsStrictOrder κ r] [DecidableRel r] {front back : List (κ × ν)} {x : κ × ν}
    (ascending : (front ++ x :: back).Pairwise fun a b => r a.1 b.1) :
    prev r (front ++ x :: back) x.1 = last front := by
  obtain ⟨-, later, earlier⟩ := List.pairwise_append.mp ascending
  have passed : ∀ entry ∈ x :: back, ¬ r entry.1 x.1 := by
    intro entry member
    rcases List.mem_cons.mp member with rfl | behind
    · exact irrefl_of r _
    · exact asymm_of r ((List.pairwise_cons.mp later).1 entry behind)
  rw [prev_append, prev_eq_none passed, Option.none_or]
  exact prev_eq_last fun entry member => earlier entry member x (List.mem_cons_self ..)

/-- A search backwards by a search forwards: one step back when it went past the target. -/
theorem seekForPrev_of_seek [DecidableRel r] (ascending : out.Pairwise fun a b => r a.1 b.1) {target : κ}
    {entry : κ × ν} (sought : seek r out target = some entry) :
    seekForPrev r out target = if r target entry.1 then prev r out entry.1 else some entry := by
  have least := leastIn_move ascending none (.seek target)
  change LeastIn r _ (seek r out target) at least
  rw [sought] at least
  obtain ⟨⟨member, notBefore⟩, smallest⟩ := least
  symm
  apply @move_eq _ _ r out _ _ _ ascending none (.seekForPrev target)
  split
  · rename_i beyond
    apply (leastIn_move ascending (some entry) .prev).congr
    intro other
    apply and_congr_right
    intro inList
    constructor
    · rintro ⟨here, found, before⟩ behind
      rw [← Option.some.inj found] at before
      exact smallest other ⟨inList, asymm_of r behind⟩ before
    · intro notBehind
      refine ⟨entry, rfl, ?_⟩
      rcases trichotomous_of r other.1 target with before | same | behind
      · exact trans_of r before beyond
      · rw [same]
        exact beyond
      · exact absurd behind notBehind
  · rename_i notBeyond
    refine ⟨⟨member, notBeyond⟩, ?_⟩
    rintro other ⟨inList, notBehind⟩ after
    rcases trichotomous_of r entry.1 target with before | same | behind
    · exact notBefore before
    · rw [same] at after
      exact notBehind after
    · exact notBeyond behind

theorem seekForPrev_eq_last [DecidableRel r] {target : κ} (sought : seek r out target = none) :
    seekForPrev r out target = last out := by
  apply seekForPrev_eq_end
  intro entry member
  have passed := List.find?_eq_none.mp sought entry member
  exact asymm_of r (of_not_not fun notBefore => passed (decide_eq_true notBefore))

end Order

/-! ## The cursor -/

structure ListCursor (r : κ → κ → Prop) (ν : Type*) where
  entries : List (κ × ν)
  ascending : entries.Pairwise fun a b => r a.1 b.1
  current : Option (κ × ν)
  inside : ∀ entry ∈ current, entry ∈ entries

namespace ListCursor
variable [IsStrictTotalOrder κ r]

def valid (c : ListCursor r ν) : Bool := c.current.isSome

def key [Inhabited κ] (c : ListCursor r ν) : κ := (c.current.map Prod.fst).getD default

def value [Inhabited ν] (c : ListCursor r ν) : ν := (c.current.map Prod.snd).getD default

theorem eq_current [Inhabited κ] (c : ListCursor r ν) {e : Option (κ × ν)} (inside : ∀ x ∈ e, x ∈ c.entries)
    (isValid : e.isSome = c.valid) (keys : (e.map Prod.fst).getD default = c.key) : e = c.current := by
  cases e with
  | none =>
      have nowhere : ¬ c.current.isSome := by
        change ¬ c.valid
        rw [← isValid]
        exact Bool.false_ne_true
      exact (Option.not_isSome_iff_eq_none.mp nowhere).symm
  | some x =>
      obtain ⟨d, there⟩ := Option.isSome_iff_exists.mp isValid.symm
      have same : x.1 = d.1 := by simpa [key, there] using keys
      rw [there, entry_eq c.ascending (inside x rfl) (c.inside d there) same]

section Told
variable [Inhabited κ] [Inhabited ν] {c : ListCursor r ν} {e : Option (κ × ν)} {isValid : Bool} {here : κ}
  {held : ν}

omit [IsStrictTotalOrder κ r] in
theorem told_of_current (validity : isValid = e.isSome) (keys : here = (e.map Prod.fst).getD default)
    (values : held = (e.map Prod.snd).getD default) (same : e = c.current) :
    isValid = c.valid ∧ here = c.key ∧ held = c.value := by
  rw [validity, keys, values, same]
  exact ⟨rfl, rfl, rfl⟩

theorem told_iff (validity : isValid = e.isSome) (keys : here = (e.map Prod.fst).getD default)
    (values : held = (e.map Prod.snd).getD default) (inside : ∀ x ∈ e, x ∈ c.entries) :
    (isValid = c.valid ∧ here = c.key ∧ held = c.value) ↔ e = c.current := by
  constructor
  · rintro ⟨sameValid, sameKey, -⟩
    rw [validity] at sameValid
    rw [keys] at sameKey
    exact c.eq_current inside sameValid sameKey
  · exact told_of_current validity keys values

end Told

variable [DecidableRel r]

def call (c : ListCursor r ν) (a : CursorMove κ) : ListCursor r ν where
  entries := c.entries
  ascending := c.ascending
  current := move r c.entries c.current a
  inside entry found := ((leastIn_move c.ascending c.current a).mem entry found).1

@[simp] theorem call_entries (c : ListCursor r ν) (a : CursorMove κ) : (c.call a).entries = c.entries := rfl

theorem call_of_nowhere {c : ListCursor r ν} {a : CursorMove κ} (moves : a.isMove) (nowhere : c.current = none) :
    (c.call a).current = none := by
  cases a with
  | next => simp [call, move, nowhere]
  | prev => simp [call, move, nowhere]
  | seekToFirst => cases moves
  | seekToLast => cases moves
  | seek t => cases moves
  | seekForPrev t => cases moves

theorem leastIn_call (c : ListCursor r ν) (a : CursorMove κ) :
    LeastIn (along r a) (soughtIn r c.entries c.current a) (c.call a).current :=
  leastIn_move c.ascending c.current a

def fresh (entries : List (κ × ν)) (ascending : entries.Pairwise fun a b => r a.1 b.1) :
    ListCursor r ν :=
  ⟨entries, ascending, none, nofun⟩

end ListCursor
end Cursors
