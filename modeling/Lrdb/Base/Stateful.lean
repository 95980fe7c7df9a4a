import Lrdb.Base.Cursors

/-!
# Calls over a shared state

A call reads and changes a state that others see. A discipline is an invariant of the state and an order
in which the state only grows; what is good in a state stays good in every later one.
-/

namespace Stateful
variable {σ α β κ ν S T : Type}

structure Discipline (σ : Type) where
  inv : σ → Prop
  le : σ → σ → Prop
  refl : ∀ s, le s s
  trans : ∀ {s t u}, le s t → le t u → le s u

def anarchy (σ : Type) : Discipline σ where
  inv _ := True
  le _ _ := True
  refl _ := trivial
  trans _ _ := trivial

def Ensures (d : Discipline σ) (s : σ) (call : StateM σ α) (good : α → σ → Prop) : Prop :=
  ∀ t, d.le s t → d.inv t →
    d.inv (call.run t).2 ∧ d.le t (call.run t).2 ∧ good (call.run t).1 (call.run t).2

def Lasting (d : Discipline σ) (good : α → σ → Prop) : Prop :=
  ∀ a s t, d.le s t → good a s → good a t

variable {d : Discipline σ} {s t : σ} {call : StateM σ α} {good mid : α → σ → Prop}

namespace Ensures

theorem pure {a : α} (holds : ∀ t, d.le s t → good a t) : Ensures d s (Pure.pure a) good :=
  fun t later inv => ⟨inv, d.refl t, holds t later⟩

theorem bind {next : α → StateM σ β} {good : β → σ → Prop} (first : Ensures d s call mid)
    (second : ∀ a t, d.le s t → mid a t → Ensures d t (next a) good) :
    Ensures d s (call >>= next) good := by
  intro t later inv
  obtain ⟨inv', grown, middle⟩ := first t later inv
  obtain ⟨inv'', grown', holds⟩ := second _ _ (d.trans later grown) middle _ (d.refl _) inv'
  exact ⟨inv'', d.trans grown grown', holds⟩

theorem mono (ensures : Ensures d s call mid) (weaker : ∀ a t, d.le s t → mid a t → good a t) :
    Ensures d s call good := by
  intro t later inv
  obtain ⟨inv', grown, holds⟩ := ensures t later inv
  exact ⟨inv', grown, weaker _ _ (d.trans later grown) holds⟩

theorem later (ensures : Ensures d s call good) (grown : d.le s t) : Ensures d t call good :=
  fun u more inv => ensures u (d.trans grown more) inv

theorem forM {l : List α} {f : α → StateM σ PUnit}
    (each : ∀ a ∈ l, Ensures d s (f a) fun _ _ => True) : Ensures d s (l.forM f) fun _ _ => True := by
  induction l with
  | nil => exact pure fun _ _ => trivial
  | cons a l ih =>
      obtain ⟨here, rest⟩ := List.forall_mem_cons.mp each
      exact here.bind fun _ t grown _ => (ih rest).later grown

theorem mapM {l : List α} {f : α → StateM σ β} {view : β → κ} {g : α → κ} {kept : β → σ → Prop}
    (lasting : Lasting d kept)
    (each : ∀ a ∈ l, Ensures d s (f a) fun b t => view b = g a ∧ kept b t) :
    Ensures d s (l.mapM f) fun bs t => bs.map view = l.map g ∧ ∀ b ∈ bs, kept b t := by
  induction l with
  | nil => exact pure fun _ _ => ⟨rfl, nofun⟩
  | cons a l ih =>
      obtain ⟨here, rest⟩ := List.forall_mem_cons.mp each
      rw [List.mapM_cons]
      refine here.bind fun b t grown ⟨first, stays⟩ => ((ih rest).later grown).bind
        fun bs u more ⟨others, stay⟩ => pure fun v last => ⟨?_, ?_⟩
      · rw [List.map_cons, List.map_cons, first, others]
      · exact List.forall_mem_cons.mpr ⟨lasting b t v (d.trans more last) stays,
          fun b' member => lasting b' u v last (stay b' member)⟩

end Ensures

/-! ## Loops that may run out of fuel -/

section Loops
variable {m : Type → Type} [Monad m]

def rounds (turn : S → m (Option (κ × Option ν × S))) : Nat → S → m (Option (Option (κ × ν) × S))
  | 0, _ => pure none
  | fuel + 1, s => do
      match ← turn s with
      | none => pure (some (none, s))
      | some (_, none, t) => rounds turn fuel t
      | some (key, some value, t) => pure (some (some (key, value), t))

def calls (accept : κ → Bool) (call : S → m (Option (Option (κ × ν) × S))) :
    Nat → S → m (Option (Option (κ × ν) × S))
  | 0, _ => pure none
  | fuel + 1, s => do
      match ← call s with
      | none => pure none
      | some (none, t) => pure (some (none, t))
      | some (some (key, value), t) =>
          if accept key then pure (some (some (key, value), t)) else calls accept call fuel t

def follow (call : κ → S → m (Option (Option (κ × ν) × S))) :
    Nat → κ × ν → S → m (Option (List (κ × ν) × S))
  | 0, _, _ => pure none
  | fuel + 1, entry, s => do
      match ← call entry.1 s with
      | none => pure none
      | some (none, t) => pure (some ([entry], t))
      | some (some later, t) => do
          let rest ← follow call fuel later t
          pure (rest.map (Prod.map (entry :: ·) id))

end Loops

section Views
variable (view : S → T) (kept : S → σ → Prop) (done : T → Prop)

def SameTurn (round : Option (κ × Option ν × T)) (r : Option (κ × Option ν × S)) (t : σ) : Prop :=
  r.map (Prod.map id (Prod.map id view)) = round ∧ ∀ x ∈ r, kept x.2.2 t

def SameResult (result : Option (Option ((κ × ν) × T))) (r : Option (Option (κ × ν) × S)) (t : σ) :
    Prop :=
  r.map (fun x => x.1.map fun entry => (entry, view x.2)) = result ∧
    ∀ x ∈ r, kept x.2 t ∧ (x.1 = none → done (view x.2))

variable {view kept done} (lasting : Lasting d kept)
include lasting

theorem SameResult.pure {x : Option (κ × ν) × S} (here : kept x.2 s)
    (ended : x.1 = none → done (view x.2)) : Ensures d s (Pure.pure (some x))
      (SameResult view kept done (some (x.1.map fun entry => (entry, view x.2)))) := by
  refine .pure fun t grown => ⟨rfl, fun y shown => ?_⟩
  obtain rfl := Option.some.inj shown
  exact ⟨lasting _ s t grown here, ended⟩

omit lasting in
theorem SameResult.out : Ensures d s (Pure.pure (none : Option (Option (κ × ν) × S)))
    (SameResult view kept done none) :=
  .pure fun _ _ => ⟨rfl, fun x shown => absurd shown (Option.not_mem_none x)⟩

theorem Ensures.rounds {turn : S → StateM σ (Option (κ × Option ν × S))}
    {turn' : T → Option (κ × Option ν × T)} (ends : ∀ a, turn' a = none → done a)
    (turns : ∀ a s, kept a s → Ensures d s (turn a) (SameTurn view kept (turn' (view a))))
    (fuel : Nat) {a : S} (here : kept a s) : Ensures d s (rounds turn fuel a)
      (SameResult view kept done (Cursors.rounds turn' fuel (view a))) := by
  induction fuel generalizing a s with
  | zero => exact SameResult.out
  | succ fuel ih =>
      refine (turns a s here).bind fun r t grown shows => ?_
      obtain ⟨same, stays⟩ := shows
      rw [Cursors.rounds, ← same]
      rcases r with _ | ⟨key, _ | value, b⟩
      · exact SameResult.pure (x := (none, a)) lasting (lasting a s t grown here) fun _ =>
          ends _ same.symm
      · exact ih (stays _ rfl)
      · exact SameResult.pure (x := (some (key, value), b)) lasting (stays _ rfl) fun no => absurd no
          (Option.some_ne_none _)

theorem Ensures.calls {accept : κ → Bool} {call : S → StateM σ (Option (Option (κ × ν) × S))}
    {call' : T → Option (Option ((κ × ν) × T))}
    (each : ∀ a s, kept a s → Ensures d s (call a) (SameResult view kept done (call' (view a))))
    (fuel : Nat) {a : S} (here : kept a s) : Ensures d s (calls accept call fuel a)
      (SameResult view kept done (Cursors.calls accept call' fuel (view a))) := by
  induction fuel generalizing a s with
  | zero => exact SameResult.out
  | succ fuel ih =>
      refine (each a s here).bind fun r t _ shows => ?_
      obtain ⟨same, stays⟩ := shows
      rw [Cursors.calls, ← same]
      rcases r with _ | ⟨_ | ⟨key, value⟩, b⟩
      · exact SameResult.out
      · exact SameResult.pure (x := (none, b)) lasting (stays _ rfl).1 (stays _ rfl).2
      · simp only [Option.map_some]
        split
        · exact SameResult.pure (x := (some (key, value), b)) lasting (stays _ rfl).1 fun no => absurd no
            (Option.some_ne_none _)
        · exact ih (stays _ rfl).1

theorem Ensures.follow {call : κ → S → StateM σ (Option (Option (κ × ν) × S))}
    {call' : κ → T → Option (Option ((κ × ν) × T))}
    (each : ∀ last a s, kept a s →
      Ensures d s (call last a) (SameResult view kept done (call' last (view a))))
    (fuel : Nat) (entry : κ × ν) {a : S} (here : kept a s) : Ensures d s (follow call fuel entry a)
      fun r t => r.map Prod.fst = Cursors.follow call' fuel entry (view a) ∧
        ∀ x ∈ r, kept x.2 t ∧ done (view x.2) := by
  induction fuel generalizing a s entry with
  | zero => exact .pure fun _ _ => ⟨rfl, fun x shown => absurd shown (Option.not_mem_none x)⟩
  | succ fuel ih =>
      refine (each entry.1 a s here).bind fun r t _ shows => ?_
      obtain ⟨same, stays⟩ := shows
      rw [Cursors.follow, ← same]
      rcases r with _ | ⟨_ | later, b⟩
      · exact .pure fun _ _ => ⟨rfl, fun x shown => absurd shown (Option.not_mem_none x)⟩
      · obtain ⟨stays, ended⟩ := stays _ rfl
        refine .pure fun u grown => ⟨rfl, fun x shown => ?_⟩
        obtain rfl := Option.some.inj shown
        exact ⟨lasting b t u grown stays, ended rfl⟩
      · refine (ih later (stays _ rfl).1).bind fun rest u _ shows => ?_
        obtain ⟨all, left⟩ := shows
        simp only [Option.map_some]
        rw [← all]
        refine .pure fun v grown => ⟨?_, fun x shown => ?_⟩
        · cases rest <;> rfl
        · obtain ⟨y, inside, rfl⟩ := Option.map_eq_some_iff.mp shown
          exact ⟨lasting y.2 u v grown (left y inside).1, (left y inside).2⟩

end Views
end Stateful
