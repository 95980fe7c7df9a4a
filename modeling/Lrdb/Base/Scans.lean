import Mathlib.Order.Defs.Unbundled
import Mathlib.Order.Nat
import Mathlib.Data.List.Basic
import Mathlib.Data.List.Sort

/-!
# Ordered scans

An iterator works in rounds. A round comes to the least key that is left, with or without a value,
and leaves what is behind it. Driven until nothing is left, the iterator lists every key with a
value once, in ascending order.
-/

namespace Scans
variable {κ ν S A : Type*}

def seek (turn : S → Option (κ × Option ν × S)) : Nat → S → Option ((κ × ν) × S)
  | 0, _ => none
  | fuel + 1, s =>
      match turn s with
      | none => none
      | some (_, none, t) => seek turn fuel t
      | some (key, some value, t) => some ((key, value), t)

def drain (next : S → Option (A × S)) : Nat → S → List A
  | 0, _ => []
  | fuel + 1, s =>
      match next s with
      | none => []
      | some (a, t) => a :: drain next fuel t

variable (r : κ → κ → Prop)

structure Lists (content : κ → Option ν) (out : List (κ × ν)) : Prop where
  ascending : out.Pairwise fun a b => r a.1 b.1
  exact : ∀ key value, (key, value) ∈ out ↔ content key = some value

structure Behind (key : κ) (before after : κ → Option ν) : Prop where
  first : ∀ other, r other key → before other = none
  same : ∀ other, r key other → after other = before other
  gone : ∀ other, ¬ r key other → after other = none

variable {r} {content : κ → Option ν} {out : List (κ × ν)}

theorem lists_nil (empty : ∀ key, content key = none) : Lists r content [] :=
  ⟨.nil, fun key value => iff_of_false (by simp) (by simp [empty key])⟩

theorem Lists.cons [IsStrictTotalOrder κ r] {key : κ} {value : ν} {rest : κ → Option ν}
    (here : content key = some value) (behind : Behind r key content rest)
    (tail : Lists r rest out) : Lists r content ((key, value) :: out) := by
  have later : ∀ kv ∈ out, r key kv.1 := by
    intro kv member
    by_contra notLater
    have alive := (tail.exact kv.1 kv.2).mp member
    rw [behind.gone kv.1 notLater] at alive
    cases alive
  refine ⟨List.pairwise_cons.mpr ⟨later, tail.ascending⟩, fun other v => ?_⟩
  rw [List.mem_cons, tail.exact, Prod.mk.injEq]
  rcases trichotomous_of r other key with before | rfl | after
  · have ne : other ≠ key := fun equal => irrefl_of r key (equal ▸ before)
    simp [behind.first other before, behind.gone other (asymm_of r before), ne]
  · simp [behind.gone other (irrefl_of r other), here, eq_comm]
  · have ne : other ≠ key := fun equal => irrefl_of r key (equal ▸ after)
    simp [behind.same other after, ne]

theorem Lists.iff {other : κ → Option ν} (lists : Lists r content out) :
    Lists r other out ↔ ∀ key, other key = content key := by
  constructor
  · intro again key
    refine Option.ext fun value => ?_
    rw [← again.exact, lists.exact]
  · intro same
    exact ⟨lists.ascending, fun key value => by rw [lists.exact, same]⟩

theorem Lists.unique [IsStrictTotalOrder κ r] {other : List (κ × ν)} (lists : Lists r content out)
    (again : Lists r content other) : out = other := by
  have irrefl : Std.Irrefl fun a b : κ × ν => r a.1 b.1 := ⟨fun a => irrefl_of r a.1⟩
  have antisymm : Std.Antisymm fun a b : κ × ν => r a.1 b.1 :=
    ⟨fun _ _ before after => absurd after (asymm_of r before)⟩
  exact lists.ascending.eq_of_mem_iff again.ascending fun entry =>
    (lists.exact entry.1 entry.2).trans (again.exact entry.1 entry.2).symm

theorem mem_of_lookup [BEq κ] [LawfulBEq κ] {entries : List (κ × ν)} {key : κ} {value : ν}
    (found : entries.lookup key = some value) : (key, value) ∈ entries := by
  obtain ⟨before, after, rfl, -⟩ := List.lookup_eq_some_iff.mp found
  exact List.mem_append_right _ (List.mem_cons_self ..)

theorem Lists.lookup [BEq κ] [LawfulBEq κ] (lists : Lists r content out) (key : κ) :
    out.lookup key = content key := by
  refine Option.ext fun value => ⟨fun found => ?_, fun here => ?_⟩
  · exact (lists.exact key value).mp (mem_of_lookup found)
  · have member := (lists.exact key value).mpr here
    cases found : out.lookup key with
    | none => simpa using List.lookup_eq_none_iff.mp found _ member
    | some other =>
        have other_here := (lists.exact key other).mp (mem_of_lookup found)
        rw [← other_here, here]

/-! ## Contracts -/

structure Reading (κ ν S : Type*) where
  inv : S → Prop
  content : S → κ → Option ν
  size : S → Nat

variable (r) (reading : Reading κ ν S)

def Turns (s : S) : Option (κ × Option ν × S) → Prop
  | none => ∀ key, reading.content s key = none
  | some (key, value, t) => reading.inv t ∧ reading.size t < reading.size s ∧
      reading.content s key = value ∧ Behind r key (reading.content s) (reading.content t)

def Yields (s : S) : Option ((κ × ν) × S) → Prop
  | none => ∀ key, reading.content s key = none
  | some ((key, value), t) => reading.inv t ∧ reading.size t < reading.size s ∧
      reading.content s key = some value ∧ Behind r key (reading.content s) (reading.content t)

variable {r} {reading}

theorem content_of_dead [IsStrictTotalOrder κ r] {key : κ} {before after : κ → Option ν}
    (dead : before key = none) (behind : Behind r key before after) (other : κ) :
    before other = after other := by
  rcases trichotomous_of r other key with earlier | rfl | later
  · rw [behind.first other earlier, behind.gone other (asymm_of r earlier)]
  · rw [dead, behind.gone other (irrefl_of r other)]
  · exact (behind.same other later).symm

theorem yields_seek [IsStrictTotalOrder κ r] {turn : S → Option (κ × Option ν × S)}
    (turns : ∀ s, reading.inv s → Turns r reading s (turn s)) (fuel : Nat) {s : S}
    (inv : reading.inv s) (enough : reading.size s < fuel) :
    Yields r reading s (seek turn fuel s) := by
  induction fuel generalizing s with
  | zero => exact absurd enough (Nat.not_lt_zero _)
  | succ fuel ih =>
      have here := turns s inv
      rw [seek]
      rcases result : turn s with _ | ⟨key, _ | value, t⟩ <;> rw [result] at here
      · exact here
      · obtain ⟨inv', smaller, dead, behind⟩ := here
        have same : reading.content s = reading.content t :=
          funext (content_of_dead dead behind)
        have later := ih inv' (by omega)
        dsimp only
        rcases found : seek turn fuel t with _ | ⟨⟨other, value⟩, u⟩ <;> rw [found] at later
        · exact fun other => (congrFun same other).trans (later other)
        · obtain ⟨inv'', smaller', alive, behind'⟩ := later
          rw [← same] at alive behind'
          exact ⟨inv'', smaller'.trans smaller, alive, behind'⟩
      · exact here

theorem lists_drain [IsStrictTotalOrder κ r] (reading : Reading κ ν S)
    {next : S → Option ((κ × ν) × S)}
    (yields : ∀ s, reading.inv s → Yields r reading s (next s)) (fuel : Nat) {s : S}
    (inv : reading.inv s) (enough : reading.size s < fuel) :
    Lists r (reading.content s) (drain next fuel s) := by
  induction fuel generalizing s with
  | zero => exact absurd enough (Nat.not_lt_zero _)
  | succ fuel ih =>
      have here := yields s inv
      rw [drain]
      rcases result : next s with _ | ⟨⟨key, value⟩, t⟩ <;> rw [result] at here
      · exact lists_nil here
      · obtain ⟨inv', smaller, alive, behind⟩ := here
        exact (ih inv' (by omega)).cons alive behind

/-! ## Loops that return -/

section Returning
variable {r : κ → κ → Prop} {reading : Reading κ ν S}

inductive Seeks (turn : S → Option (κ × Option ν × S)) : S → Option ((κ × ν) × S) → Prop where
  | exhausted {s : S} (last : turn s = none) : Seeks turn s none
  | dead {s t : S} {key : κ} {result : Option ((κ × ν) × S)} (here : turn s = some (key, none, t))
      (later : Seeks turn t result) : Seeks turn s result
  | found {s t : S} {key : κ} {value : ν} (here : turn s = some (key, some value, t)) :
      Seeks turn s (some ((key, value), t))

inductive Drains (call : S → Option (A × S) → Prop) : S → List A → Prop where
  | invalid {s : S} (last : call s none) : Drains call s []
  | valid {s t : S} {a : A} {out : List A} (here : call s (some (a, t)))
      (later : Drains call t out) : Drains call s (a :: out)

theorem seeks_seek {turn : S → Option (κ × Option ν × S)}
    (turns : ∀ s, reading.inv s → Turns r reading s (turn s)) (fuel : Nat) {s : S}
    (inv : reading.inv s) (enough : reading.size s < fuel) : Seeks turn s (seek turn fuel s) := by
  induction fuel generalizing s with
  | zero => exact absurd enough (Nat.not_lt_zero _)
  | succ fuel ih =>
      have here := turns s inv
      rw [seek]
      rcases result : turn s with _ | ⟨key, _ | value, t⟩ <;> rw [result] at here
      · exact .exhausted result
      · obtain ⟨inv', smaller, -⟩ := here
        exact .dead result (ih inv' (by omega))
      · exact .found result

theorem drains_drain {call : S → Option ((κ × ν) × S) → Prop} {next : S → Option ((κ × ν) × S)}
    (returns : ∀ s, reading.inv s → call s (next s))
    (yields : ∀ s, reading.inv s → Yields r reading s (next s)) (fuel : Nat) {s : S}
    (inv : reading.inv s) (enough : reading.size s < fuel) :
    Drains call s (drain next fuel s) := by
  induction fuel generalizing s with
  | zero => exact absurd enough (Nat.not_lt_zero _)
  | succ fuel ih =>
      have here := yields s inv
      have returned := returns s inv
      rw [drain]
      rcases result : next s with _ | ⟨⟨key, value⟩, t⟩ <;> rw [result] at here returned
      · exact .invalid returned
      · obtain ⟨inv', smaller, -⟩ := here
        exact .valid returned (ih inv' (by omega))

end Returning

end Scans
