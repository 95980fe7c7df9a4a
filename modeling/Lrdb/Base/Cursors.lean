import Lrdb.Base.Scans

/-!
# Cursors

A cursor on a list in ascending order of its keys stands at an entry or nowhere. Each of its moves goes
to the first entry, from one end of the list, whose key meets a condition.
-/

namespace Cursors
open Scans
variable {κ ν : Type*}

section Moves
variable (r : κ → κ → Prop) [DecidableRel r] (out : List (κ × ν))

def first : Option (κ × ν) := out.head?

def last : Option (κ × ν) := out.getLast?

def seek (target : κ) : Option (κ × ν) := out.find? fun entry => ¬ r entry.1 target

def next (key : κ) : Option (κ × ν) := out.find? fun entry => r key entry.1

def prev (key : κ) : Option (κ × ν) := out.reverse.find? fun entry => r entry.1 key

end Moves

variable {r : κ → κ → Prop} {content : κ → Option ν} {out : List (κ × ν)} {p : κ → Prop}

def Least (r : κ → κ → Prop) (p : κ → Prop) (content : κ → Option ν) : Option (κ × ν) → Prop
  | none => ∀ key, p key → content key = none
  | some (key, value) => p key ∧ content key = some value ∧
      ∀ other, p other → r other key → content other = none

theorem find_of_least [DecidablePred p] (lists : Lists r content out) {found : Option (κ × ν)}
    (least : Least r p content found) : out.find? (fun entry => p entry.1) = found := by
  cases found with
  | none =>
      refine List.find?_eq_none.mpr fun entry member holds => ?_
      have alive := (lists.exact entry.1 entry.2).mp member
      rw [least entry.1 (of_decide_eq_true holds)] at alive
      cases alive
  | some entry =>
      obtain ⟨holds, alive, first⟩ := least
      obtain ⟨before, after, rfl⟩ := List.append_of_mem ((lists.exact entry.1 entry.2).mpr alive)
      refine List.find?_eq_some_iff_append.mpr ⟨decide_eq_true holds, before, after, rfl, ?_⟩
      intro other member
      rw [Bool.not_eq_true', decide_eq_false_iff_not]
      intro also
      have earlier := (List.pairwise_append.mp lists.ascending).2.2 other member entry
        (List.mem_cons_self ..)
      have there := (lists.exact other.1 other.2).mp (List.mem_append_left _ member)
      rw [first other.1 also earlier] at there
      cases there

theorem lists_reverse (lists : Lists r content out) :
    Lists (fun a b => r b a) content out.reverse :=
  ⟨List.pairwise_reverse.mpr lists.ascending, fun key value => by
    rw [List.mem_reverse, lists.exact]⟩

theorem first_of_least (lists : Lists r content out) {found : Option (κ × ν)}
    (least : Least r (fun _ => True) content found) : first out = found := by
  have whole := find_of_least lists least
  cases out with
  | nil => exact whole
  | cons entry rest => exact whole

theorem last_of_greatest (lists : Lists r content out) {found : Option (κ × ν)}
    (greatest : Least (fun a b => r b a) (fun _ => True) content found) : last out = found := by
  have whole := first_of_least (lists_reverse lists) greatest
  rwa [first, List.head?_reverse] at whole

section Search
variable [DecidableRel r] {key : κ} {found : Option (κ × ν)}

theorem seek_of_least (lists : Lists r content out)
    (least : Least r (fun other => ¬ r other key) content found) : seek r out key = found :=
  find_of_least lists least

theorem next_of_least (lists : Lists r content out)
    (least : Least r (fun other => r key other) content found) : next r out key = found :=
  find_of_least lists least

theorem prev_of_greatest (lists : Lists r content out)
    (greatest : Least (fun a b => r b a) (fun other => r other key) content found) :
    prev r out key = found :=
  find_of_least (lists_reverse lists) greatest

end Search

/-! ## Loops that may run out of fuel -/

section Loops
variable {S : Type*}

def rounds (turn : S → Option (κ × Option ν × S)) : Nat → S → Option (Option ((κ × ν) × S))
  | 0, _ => none
  | fuel + 1, s =>
      match turn s with
      | none => some none
      | some (_, none, t) => rounds turn fuel t
      | some (key, some value, t) => some (some ((key, value), t))

def calls (accept : κ → Bool) (call : S → Option (Option ((κ × ν) × S))) :
    Nat → S → Option (Option ((κ × ν) × S))
  | 0, _ => none
  | fuel + 1, s =>
      match call s with
      | none => none
      | some none => some none
      | some (some ((key, value), t)) =>
          if accept key then some (some ((key, value), t)) else calls accept call fuel t

def follow (call : κ → S → Option (Option ((κ × ν) × S))) : Nat → κ × ν → S → Option (List (κ × ν))
  | 0, _, _ => none
  | fuel + 1, entry, s =>
      match call entry.1 s with
      | none => none
      | some none => some [entry]
      | some (some (later, t)) => (follow call fuel later t).map (entry :: ·)

variable {turn : S → Option (κ × Option ν × S)} {call : S → Option (Option ((κ × ν) × S))}
  {accept : κ → Bool} {reading : Reading κ ν S} {s : S} {result : Option ((κ × ν) × S)}

def YieldsFrom (r : κ → κ → Prop) (reading : Reading κ ν S) (p : κ → Prop) (s : S) :
    Option ((κ × ν) × S) → Prop
  | none => ∀ key, p key → reading.content s key = none
  | some ((key, value), t) => p key ∧ reading.inv t ∧ reading.size t < reading.size s ∧
      reading.content s key = some value ∧
        (∀ other, p other → r other key → reading.content s other = none) ∧
          (∀ other, r key other → reading.content t other = reading.content s other) ∧
            ∀ other, ¬ r key other → reading.content t other = none

theorem YieldsFrom.least (yields : YieldsFrom r reading p s result)
    (same : ∀ key, p key → reading.content s key = content key) :
    Least r p content (result.map Prod.fst) := by
  rcases result with _ | ⟨⟨key, value⟩, t⟩
  · exact fun key holds => (same key holds).symm.trans (yields key holds)
  · obtain ⟨holds, -, -, alive, first, -⟩ := yields
    refine ⟨holds, (same key holds).symm.trans alive, fun other also earlier => ?_⟩
    exact (same other also).symm.trans (first other also earlier)

theorem yieldsFrom_of_yields (yields : Yields r reading s result)
    (outside : ∀ key, ¬ p key → reading.content s key = none) :
    YieldsFrom r reading p s result := by
  rcases result with _ | ⟨⟨key, value⟩, t⟩
  · exact fun key _ => yields key
  · obtain ⟨inv, smaller, alive, behind⟩ := yields
    have holds : p key := by
      by_contra fails
      rw [outside key fails] at alive
      cases alive
    exact ⟨holds, inv, smaller, alive, fun other _ => behind.first other, behind.same,
      behind.gone⟩

/-! ### Enough fuel -/

section Return
variable {ok : S → Prop} {measure : S → Nat}

theorem rounds_return (smaller : ∀ s key value t, ok s → turn s = some (key, value, t) →
    ok t ∧ measure t < measure s) (fuel : Nat) (inv : ok s) (enough : measure s < fuel) :
    ∃ result, rounds turn fuel s = some result := by
  induction fuel generalizing s with
  | zero => exact absurd enough (Nat.not_lt_zero _)
  | succ fuel ih =>
      rw [rounds]
      rcases shape : turn s with _ | ⟨key, _ | value, t⟩
      · exact ⟨none, rfl⟩
      · obtain ⟨inv', less⟩ := smaller s _ _ _ inv shape
        exact ih inv' (by omega)
      · exact ⟨_, rfl⟩

theorem rounds_smaller (smaller : ∀ s key value t, ok s → turn s = some (key, value, t) →
    ok t ∧ measure t < measure s) (fuel : Nat) {key : κ} {value : ν} {t : S} (inv : ok s)
    (returned : rounds turn fuel s = some (some ((key, value), t))) :
    ok t ∧ measure t < measure s := by
  induction fuel generalizing s with
  | zero => cases returned
  | succ fuel ih =>
      rw [rounds] at returned
      rcases shape : turn s with _ | ⟨other, _ | w, u⟩ <;> rw [shape] at returned
      · cases returned
      · obtain ⟨inv', less⟩ := smaller s _ _ _ inv shape
        exact (ih inv' returned).imp_right less.trans'
      · cases returned
        exact smaller s _ _ _ inv shape

theorem rounds_eq_seek (smaller : ∀ s key value t, ok s → turn s = some (key, value, t) →
    ok t ∧ measure t < measure s) (fuel other : Nat) (inv : ok s) (enough : measure s < fuel)
    (also : measure s < other) : rounds turn fuel s = some (Scans.seek turn other s) := by
  induction fuel generalizing s other with
  | zero => exact absurd enough (Nat.not_lt_zero _)
  | succ fuel ih =>
      obtain ⟨other, rfl⟩ := Nat.exists_eq_succ_of_ne_zero (Nat.ne_of_gt (Nat.zero_lt_of_lt also))
      rw [rounds, Scans.seek]
      rcases shape : turn s with _ | ⟨key, _ | value, t⟩
      · rfl
      · obtain ⟨inv', less⟩ := smaller s _ _ _ inv shape
        exact ih other inv' (by omega) (by omega)
      · rfl

theorem calls_return (smaller : ∀ s key value t, ok s → call s = some (some ((key, value), t)) →
    ok t ∧ measure t < measure s) {bound : Nat} (returns : ∀ s, ok s → measure s < bound →
      ∃ result, call s = some result) (fuel : Nat) (inv : ok s) (enough : measure s < fuel)
    (inside : measure s < bound) : ∃ result, calls accept call fuel s = some result := by
  induction fuel generalizing s with
  | zero => exact absurd enough (Nat.not_lt_zero _)
  | succ fuel ih =>
      obtain ⟨result, shape⟩ := returns s inv inside
      rw [calls, shape]
      rcases result with _ | ⟨⟨key, value⟩, t⟩
      · exact ⟨none, rfl⟩
      · obtain ⟨inv', less⟩ := smaller s _ _ _ inv shape
        dsimp only
        split
        · exact ⟨_, rfl⟩
        · exact ih inv' (by omega) (by omega)

theorem calls_smaller (smaller : ∀ s key value t, ok s → call s = some (some ((key, value), t)) →
    ok t ∧ measure t < measure s) (fuel : Nat) {key : κ} {value : ν} {t : S} (inv : ok s)
    (returned : calls accept call fuel s = some (some ((key, value), t))) :
    ok t ∧ measure t < measure s := by
  induction fuel generalizing s with
  | zero => cases returned
  | succ fuel ih =>
      rw [calls] at returned
      rcases shape : call s with _ | _ | ⟨⟨other, w⟩, u⟩ <;> rw [shape] at returned
      · cases returned
      · cases returned
      · have here := smaller s _ _ _ inv shape
        dsimp only at returned
        split at returned
        · cases returned
          exact here
        · exact (ih here.1 returned).imp_right here.2.trans'

theorem follow_return {call : κ → S → Option (Option ((κ × ν) × S))} (smaller : ∀ last s key value t,
      ok s → call last s = some (some ((key, value), t)) → ok t ∧ measure t < measure s)
    {bound : Nat} (returns : ∀ last s, ok s → measure s < bound → ∃ result, call last s = some result)
    (fuel : Nat) (entry : κ × ν) (inv : ok s) (enough : measure s < fuel) (inside : measure s < bound) :
    ∃ entries, follow call fuel entry s = some entries := by
  induction fuel generalizing s entry with
  | zero => exact absurd enough (Nat.not_lt_zero _)
  | succ fuel ih =>
      obtain ⟨result, shape⟩ := returns entry.1 s inv inside
      rw [follow, shape]
      rcases result with _ | ⟨later, t⟩
      · exact ⟨_, rfl⟩
      · obtain ⟨inv', less⟩ := smaller _ s _ _ _ inv shape
        obtain ⟨entries, rest⟩ := ih later inv' (by omega) (by omega)
        exact ⟨entry :: entries, by dsimp only; rw [rest]; rfl⟩

end Return

/-! ### Rounds in ascending order -/

theorem yields_rounds [IsStrictTotalOrder κ r]
    (turns : ∀ s, reading.inv s → Turns r reading s (turn s)) (fuel : Nat) (inv : reading.inv s)
    (returned : rounds turn fuel s = some result) : Yields r reading s result := by
  induction fuel generalizing s with
  | zero => cases returned
  | succ fuel ih =>
      have here := turns s inv
      rw [rounds] at returned
      rcases shape : turn s with _ | ⟨key, _ | value, t⟩ <;> rw [shape] at here returned
      · obtain rfl := Option.some.inj returned
        exact here
      · obtain ⟨inv', smaller, dead, behind⟩ := here
        have same : reading.content s = reading.content t := funext (content_of_dead dead behind)
        have later := ih inv' returned
        rcases result with _ | ⟨⟨other, value⟩, u⟩
        · exact fun other => (congrFun same other).trans (later other)
        · obtain ⟨inv'', smaller', alive, behind'⟩ := later
          rw [← same] at alive behind'
          exact ⟨inv'', smaller'.trans smaller, alive, behind'⟩
      · obtain rfl := Option.some.inj returned
        exact here

section Accepting
variable [IsStrictTotalOrder κ r] (upward : ∀ a b, accept a → r a b → accept b)
  (yields : ∀ s result, reading.inv s → call s = some result → Yields r reading s result)
include upward yields

theorem yieldsFrom_calls (fuel : Nat) (inv : reading.inv s)
    (returned : calls accept call fuel s = some result) :
    YieldsFrom r reading (fun key => accept key) s result := by
  induction fuel generalizing s with
  | zero => cases returned
  | succ fuel ih =>
      rw [calls] at returned
      rcases shape : call s with _ | _ | ⟨⟨key, value⟩, t⟩ <;> rw [shape] at returned
      · cases returned
      · obtain rfl := Option.some.inj returned
        exact fun key _ => yields s none inv shape key
      · obtain ⟨inv', smaller, alive, behind⟩ := yields s _ inv shape
        dsimp only at returned
        split at returned
        · rename_i accepted
          obtain rfl := Option.some.inj returned
          exact ⟨accepted, inv', smaller, alive, fun other _ => behind.first other, behind.same,
            behind.gone⟩
        · -- What is accepted lies behind the key that was passed.
          rename_i passed
          have after {other : κ} (accepted : accept other) : r key other := by
            rcases trichotomous_of r other key with before | rfl | after
            · exact absurd (upward other key accepted before) passed
            · exact absurd accepted passed
            · exact after
          have later := ih inv' returned
          rcases result with _ | ⟨⟨found, w⟩, u⟩
          · exact fun other accepted =>
              (behind.same other (after accepted)).symm.trans (later other accepted)
          · obtain ⟨accepted, inv'', smaller', here, first, same, gone⟩ := later
            refine ⟨accepted, inv'', smaller'.trans smaller,
              (behind.same found (after accepted)).symm.trans here, ?_, ?_, gone⟩
            · exact fun other also earlier =>
                (behind.same other (after also)).symm.trans (first other also earlier)
            · exact fun other beyond => (same other beyond).trans
                (behind.same other (trans_of r (after accepted) beyond))

end Accepting

/-! ### Rounds in any order -/

section AnyOrder
variable {ok : S → Prop}

theorem content_of_rounds (turns : ∀ s key value t, ok s → turn s = some (key, value, t) →
    ok t ∧ content key = value) (fuel : Nat) (inv : ok s) {key : κ} {value : ν} {t : S}
    (returned : rounds turn fuel s = some (some ((key, value), t))) :
    ok t ∧ content key = some value := by
  induction fuel generalizing s with
  | zero => cases returned
  | succ fuel ih =>
      rw [rounds] at returned
      rcases shape : turn s with _ | ⟨other, _ | w, u⟩ <;> rw [shape] at returned
      · cases returned
      · exact ih (turns s _ _ _ inv shape).1 returned
      · cases returned
        exact turns s _ _ _ inv shape

theorem calls_exhaust (dead : ∀ key, accept key → content key = none)
    (finds : ∀ s key value t, ok s → call s = some (some ((key, value), t)) →
      ok t ∧ content key = some value) (fuel : Nat) (inv : ok s)
    (returned : calls accept call fuel s = some result) : result = none := by
  induction fuel generalizing s with
  | zero => cases returned
  | succ fuel ih =>
      rw [calls] at returned
      rcases shape : call s with _ | _ | ⟨⟨key, value⟩, t⟩ <;> rw [shape] at returned
      · cases returned
      · exact (Option.some.inj returned).symm
      · obtain ⟨inv', alive⟩ := finds s _ _ _ inv shape
        have passed : ¬ accept key := fun accepted => by
          rw [dead key accepted] at alive
          cases alive
        dsimp only at returned
        rw [if_neg passed] at returned
        exact ih inv' returned

end AnyOrder
end Loops
end Cursors
