import Lrdb.Base.Stateful
import Lrdb.Storage.ReaderCache

/-!
# The readers under a merge

The iterator of a file uses a reader that it does not own. The cache may give the reader up for another
one and so destroy it, while a child of a merge stands in the file.
-/

namespace Lrdb
open Stateful

inductive CacheRequest where
  | getReader (fileNumber : Nat) (opens : Bool)
  | evictFromCache (fileNumber : Nat)
  | clearCache
  | rehash (order : List Nat)

structure Surroundings where
  maxOpenFiles : Nat := 1000
  now : Nat → Nat := id
  others : Nat → List CacheRequest := fun _ => []

structure Readers where
  cache : List (Caches.Slot Nat Nat CacheMark) := []
  opened : Nat := 0
  steps : Nat := 0
  /-- A reader was used after it had been destroyed. -/
  lost : Bool := false

namespace Readers
variable (around : Surroundings) (readers : Readers)

def Alive (reader : Nat) : Prop := ∃ slot ∈ readers.cache, slot.payload = reader

instance (reader : Nat) : Decidable (readers.Alive reader) := by unfold Alive; infer_instance

def getReader (now fileNumber : Nat) (opens : Bool) : Option Nat × Readers :=
  if opens then
    let fetched := Caches.fetch evictLRUReader around.maxOpenFiles (CacheMark.touch now) ⟨now, 1⟩
      (fun _ => some readers.opened) readers.cache fileNumber
    (fetched.1, { readers with cache := fetched.2, opened := readers.opened + 1 })
  else (none, readers)

def serve (now : Nat) (readers : Readers) : CacheRequest → Readers
  | .getReader fileNumber opens => (readers.getReader around now fileNumber opens).2
  | .evictFromCache fileNumber => { readers with cache := Caches.erase readers.cache fileNumber }
  | .clearCache => { readers with cache := [] }
  | .rehash order =>
      if order.Perm (readers.cache.map Caches.Slot.key) then
        { readers with cache := order.filterMap (Caches.find readers.cache) }
      else readers

def pass : Readers :=
  { (around.others readers.steps).foldl (serve around (around.now readers.steps)) readers with
    steps := readers.steps + 1 }

end Readers

/-! ## Children -/

structure Move (C : Type) where
  asks : C → Option (Nat × Bool)
  go : C → C

/-- A child of a forward merge. -/
structure ChildKind (C R : Type) where
  entry : C → Option R
  size : C → Nat
  first : Move C
  next : Move C

structure CursorKind (C R : Type) extends ChildKind C R where
  last : Move C
  seek : Key → Move C
  prev : Move C

structure RecordKind (R : Type) where
  /-- `ParseInternalKey`. -/
  entryOf : R → Option Entry
  /-- `CompareInternalKeys`, with the sign that `PickChild` takes. -/
  preferred : Bool → R → R → Bool

structure PinnedChild (C : Type) where
  child : C
  reader : Option Nat := none

namespace PinnedChild
variable {C R : Type} (around : Surroundings)

/-- `Valid` looks at the index of the reader if the iterator stands at an entry. -/
def use (kind : ChildKind C R) (child : PinnedChild C) : StateM Readers PUnit :=
  modify fun readers =>
    let readers := readers.pass around
    if (kind.entry child.child).isSome ∧ ∃ reader ∈ child.reader, ¬ readers.Alive reader then
      { readers with lost := true }
    else readers

def request (fileNumber : Nat) (opens : Bool) : StateM Readers (Option Nat) :=
  modifyGet fun readers =>
    (readers.pass around).getReader around (around.now readers.steps) fileNumber opens

def move (move : Move C) (child : PinnedChild C) : StateM Readers (PinnedChild C) :=
  match move.asks child.child with
  | none => pure { child with child := move.go child.child }
  | some (fileNumber, opens) => do
      let reader ← request around fileNumber opens
      pure ⟨move.go child.child, reader⟩

/-- `Next` and `Prev` use the reader first. -/
def step (kind : ChildKind C R) (step : Move C) (child : PinnedChild C) :
    StateM Readers (PinnedChild C) := do
  child.use around kind
  child.move around step

end PinnedChild

structure ChildOps (m : Type → Type) (C R : Type) where
  entry : C → Option R
  size : C → Nat
  use : C → m PUnit
  first : C → m C
  next : C → m C

structure CursorOps (m : Type → Type) (C R : Type) extends ChildOps m C R where
  last : C → m C
  seek : Key → C → m C
  prev : C → m C

section Ops
variable {C R : Type}

def ChildKind.owned (kind : ChildKind C R) : ChildOps Id C R where
  entry := kind.entry
  size := kind.size
  use _ := ⟨⟩
  first := kind.first.go
  next := kind.next.go

def ChildKind.pinned (around : Surroundings) (kind : ChildKind C R) :
    ChildOps (StateM Readers) (PinnedChild C) R where
  entry child := kind.entry child.child
  size child := kind.size child.child
  use child := child.use around kind
  first child := child.move around kind.first
  next child := child.step around kind kind.next

def CursorKind.owned (kind : CursorKind C R) : CursorOps Id C R where
  toChildOps := kind.toChildKind.owned
  last := kind.last.go
  seek target := (kind.seek target).go
  prev := kind.prev.go

def CursorKind.pinned (around : Surroundings) (kind : CursorKind C R) :
    CursorOps (StateM Readers) (PinnedChild C) R where
  toChildOps := kind.toChildKind.pinned around
  last child := child.move around kind.last
  seek target child := child.move around (kind.seek target)
  prev child := child.step around kind.toChildKind kind.prev

end Ops

/-! ## Keeping to a discipline -/

section Refinement
variable {C R : Type} {around : Surroundings} {d : Discipline Readers}
  {good : PinnedChild C → Readers → Prop}

def Retraces (d : Discipline Readers) (good : PinnedChild C → Readers → Prop)
    (pinned : PinnedChild C → StateM Readers (PinnedChild C)) (go : C → C) : Prop :=
  ∀ child s, good child s →
    Ensures d s (pinned child) fun next t => next.child = go child.child ∧ good next t

structure Tended (around : Surroundings) (d : Discipline Readers)
    (good : PinnedChild C → Readers → Prop) (kind : ChildKind C R) : Prop where
  lasting : Lasting d good
  use : ∀ child s, good child s → Ensures d s (child.use around kind) fun _ _ => True
  first : Retraces d good (kind.pinned around).first kind.first.go
  next : Retraces d good (kind.pinned around).next kind.next.go

structure CursorTended (around : Surroundings) (d : Discipline Readers)
    (good : PinnedChild C → Readers → Prop) (kind : CursorKind C R) : Prop extends
    Tended around d good kind.toChildKind where
  last : Retraces d good (kind.pinned around).last kind.last.go
  seek : ∀ target, Retraces d good ((kind.pinned around).seek target) (kind.seek target).go
  prev : Retraces d good (kind.pinned around).prev kind.prev.go

/-! ## Whatever the cache does -/

theorem ensures_anarchy {α : Type} {s : Readers} (call : StateM Readers α) :
    Ensures (anarchy Readers) s call fun _ _ => True :=
  fun _ _ _ => ⟨trivial, trivial, trivial⟩

theorem retraces_anarchy (mv : Move C) :
    Retraces (anarchy Readers) (fun _ _ => True) (PinnedChild.move around mv) mv.go := by
  intro child s _
  unfold PinnedChild.move
  split
  · exact .pure fun _ _ => ⟨rfl, trivial⟩
  · exact (ensures_anarchy _).bind
      fun _ _ _ _ => .pure fun _ _ => ⟨rfl, trivial⟩

theorem retraces_step_anarchy (kind : ChildKind C R) (mv : Move C) :
    Retraces (anarchy Readers) (fun _ _ => True) (PinnedChild.step around kind mv) mv.go :=
  fun child _ _ => (ensures_anarchy _).bind
    fun _ t _ _ => retraces_anarchy mv child t trivial

variable (around) in
theorem tended_anarchy (kind : ChildKind C R) :
    Tended around (anarchy Readers) (fun _ _ => True) kind where
  lasting _ _ _ _ _ := trivial
  use _ _ _ := ensures_anarchy _
  first := retraces_anarchy kind.first
  next := retraces_step_anarchy kind kind.next

variable (around) in
theorem cursorTended_anarchy (kind : CursorKind C R) :
    CursorTended around (anarchy Readers) (fun _ _ => True) kind where
  toTended := tended_anarchy around kind.toChildKind
  last := retraces_anarchy kind.last
  seek target := retraces_anarchy (kind.seek target)
  prev := retraces_step_anarchy kind.toChildKind kind.prev

/-! ## With room for every registered file -/

def roomy (registered : List Nat) : Discipline Readers where
  inv readers := (∀ slot ∈ readers.cache, slot.key ∈ registered) ∧
    (readers.cache.map Caches.Slot.key).Nodup ∧ readers.lost = false
  le s t := ∀ reader, s.Alive reader → t.Alive reader
  refl _ _ := id
  trans first second reader alive := second reader (first reader alive)

/-- Others ask for registered files only, and close none. -/
def CacheRequest.Within (registered : List Nat) : CacheRequest → Prop
  | .getReader fileNumber _ => fileNumber ∈ registered
  | .rehash _ => True
  | .evictFromCache _ | .clearCache => False

structure Surroundings.Roomy (around : Surroundings) (registered : List Nat) : Prop where
  room : registered.length ≤ around.maxOpenFiles
  others : ∀ n, ∀ request ∈ around.others n, request.Within registered

variable {registered : List Nat} {readers : Readers}

theorem getReader_roomy (room : registered.length ≤ around.maxOpenFiles)
    (inv : (roomy registered).inv readers) (now : Nat) {fileNumber : Nat}
    (inside : fileNumber ∈ registered) (opens : Bool) :
    (roomy registered).inv (readers.getReader around now fileNumber opens).2 ∧
      (roomy registered).le readers (readers.getReader around now fileNumber opens).2 ∧
        ∀ reader ∈ (readers.getReader around now fileNumber opens).1,
          (readers.getReader around now fileNumber opens).2.Alive reader := by
  obtain ⟨known, nodup, fine⟩ := inv
  unfold Readers.getReader
  cases opens with
  | false => exact ⟨⟨known, nodup, fine⟩, fun _ => id, nofun⟩
  | true =>
      simp only [if_true, Caches.fetch]
      cases found : Caches.find readers.cache fileNumber with
      | some slot =>
          obtain ⟨member, rfl⟩ := Caches.find_eq_some found
          have keys : (readers.cache.map fun other : Caches.Slot Nat Nat CacheMark =>
              if other.key = slot.key then { other with mark := other.mark.touch now } else other).map
                Caches.Slot.key = readers.cache.map Caches.Slot.key := by
            rw [List.map_map]
            refine List.map_congr_left fun other _ => ?_
            dsimp only [Function.comp]
            split <;> rfl
          have stays (reader : Nat) (alive : readers.Alive reader) : ∃ other ∈ readers.cache.map
              fun other : Caches.Slot Nat Nat CacheMark =>
                if other.key = slot.key then { other with mark := other.mark.touch now } else other,
              other.payload = reader := by
            obtain ⟨other, inside, rfl⟩ := alive
            exact ⟨_, List.mem_map_of_mem inside, by split <;> rfl⟩
          refine ⟨⟨fun other inCache => ?_, keys ▸ nodup, fine⟩, stays, fun reader named => ?_⟩
          · have key := List.mem_map_of_mem (f := Caches.Slot.key) inCache
            rw [keys] at key
            obtain ⟨old, here, same⟩ := List.mem_map.mp key
            exact same ▸ known old here
          · obtain rfl := Option.some.inj named
            exact stays _ ⟨slot, member, rfl⟩
      | none =>
          have new : ∀ slot ∈ readers.cache, slot.key ≠ fileNumber := by
            simpa [Caches.find] using found
          have distinct : (fileNumber :: readers.cache.map Caches.Slot.key).Nodup :=
            List.nodup_cons.mpr ⟨by simpa using new, nodup⟩
          have within : fileNumber :: readers.cache.map Caches.Slot.key ⊆ registered :=
            List.cons_subset.mpr ⟨inside, fun key member => by
              obtain ⟨slot, here, rfl⟩ := List.mem_map.mp member
              exact known slot here⟩
          have fits : readers.cache.length < around.maxOpenFiles := by
            have shorter := (List.subperm_of_subset distinct within).length_le
            rw [List.length_cons, List.length_map] at shorter
            omega
          rw [if_neg (Nat.not_le.mpr fits)]
          refine ⟨⟨List.forall_mem_cons.mpr ⟨inside, known⟩, distinct, fine⟩, ?_, fun reader named => ?_⟩
          · rintro reader ⟨slot, member, same⟩
            exact ⟨slot, List.mem_cons_of_mem _ member, same⟩
          · exact ⟨_, List.mem_cons_self, Option.some.inj named⟩

theorem serve_roomy (room : registered.length ≤ around.maxOpenFiles)
    (inv : (roomy registered).inv readers) (now : Nat) {request : CacheRequest}
    (within : request.Within registered) : (roomy registered).inv (readers.serve around now request) ∧
      (roomy registered).le readers (readers.serve around now request) := by
  cases request with
  | getReader fileNumber opens =>
      obtain ⟨inv', grown, -⟩ := getReader_roomy room inv now within opens
      exact ⟨inv', grown⟩
  | evictFromCache fileNumber => exact within.elim
  | clearCache => exact within.elim
  | rehash order =>
      unfold Readers.serve
      dsimp only
      split
      · rename_i perm
        obtain ⟨known, nodup, fine⟩ := inv
        have same := Caches.perm_reorder nodup perm
        exact ⟨⟨fun slot member => known slot (same.mem_iff.mp member),
          (same.map Caches.Slot.key).nodup_iff.mpr nodup, fine⟩,
          fun reader ⟨slot, member, payload⟩ => ⟨slot, same.mem_iff.mpr member, payload⟩⟩
      · exact ⟨inv, fun _ => id⟩

theorem pass_roomy (roomy' : around.Roomy registered) (inv : (roomy registered).inv readers) :
    (roomy registered).inv (readers.pass around) ∧ (roomy registered).le readers (readers.pass around) := by
  have each : ∀ requests : List CacheRequest, (∀ request ∈ requests, request.Within registered) →
      ∀ start, (roomy registered).inv start →
        (roomy registered).inv (requests.foldl (Readers.serve around (around.now readers.steps)) start) ∧
          (roomy registered).le start
            (requests.foldl (Readers.serve around (around.now readers.steps)) start) := by
    intro requests within
    induction requests with
    | nil => exact fun start inv => ⟨inv, fun _ => id⟩
    | cons request rest ih =>
        intro start inv
        obtain ⟨here, later⟩ := List.forall_mem_cons.mp within
        obtain ⟨inv', grown⟩ := serve_roomy roomy'.room inv (around.now readers.steps) here
        obtain ⟨inv'', grown'⟩ := ih later _ inv'
        exact ⟨inv'', (roomy registered).trans grown grown'⟩
  exact each _ (roomy'.others readers.steps) readers inv

def Move.Within (registered : List Nat) (p : C → Prop) (mv : Move C) : Prop :=
  ∀ child, p child → (∀ file ∈ mv.asks child, file.1 ∈ registered) ∧ p (mv.go child)

def Held (p : C → Prop) (child : PinnedChild C) (readers : Readers) : Prop :=
  p child.child ∧ ∀ reader ∈ child.reader, readers.Alive reader

variable {p : C → Prop}

theorem lasting_held : Lasting (roomy registered) (Held p) :=
  fun _ _ _ grown held => ⟨held.1, fun reader named => grown reader (held.2 reader named)⟩

variable (roomy' : around.Roomy registered)
include roomy'

theorem retraces_roomy {mv : Move C} (within : mv.Within registered p) :
    Retraces (roomy registered) (Held p) (PinnedChild.move around mv) mv.go := by
  intro child s held
  obtain ⟨asks, stays⟩ := within child.child held.1
  unfold PinnedChild.move
  cases asked : mv.asks child.child with
  | none =>
      exact .pure fun t grown => ⟨rfl, stays, fun reader named => grown reader (held.2 reader named)⟩
  | some file =>
      have opened : Ensures (roomy registered) s (PinnedChild.request around file.1 file.2)
          fun reader t => ∀ r ∈ reader, t.Alive r := fun t _ inv => ?_
      exact opened.bind fun reader t _ alive => .pure fun u grown =>
        ⟨rfl, stays, fun r named => grown r (alive r named)⟩
      obtain ⟨inv', grown⟩ := pass_roomy roomy' inv
      obtain ⟨inv'', grown', alive⟩ := getReader_roomy roomy'.room inv' (around.now t.steps)
        (asks file asked) file.2
      exact ⟨inv'', (roomy registered).trans grown grown', alive⟩

theorem use_roomy (kind : ChildKind C R) {child : PinnedChild C} {s : Readers} (held : Held p child s) :
    Ensures (roomy registered) s (child.use around kind) fun _ _ => True := by
  intro t later inv
  obtain ⟨inv', grown⟩ := pass_roomy roomy' inv
  have alive : ∀ reader ∈ child.reader, (t.pass around).Alive reader := fun reader named =>
    grown reader (later reader (held.2 reader named))
  have same : ((child.use around kind).run t).2 = t.pass around := by
    change (if _ then _ else _) = _
    rw [if_neg]
    rintro ⟨-, reader, named, dead⟩
    exact dead (alive reader named)
  rw [same]
  exact ⟨inv', grown, trivial⟩

theorem tended_roomy {kind : ChildKind C R} (first : kind.first.Within registered p)
    (next : kind.next.Within registered p) : Tended around (roomy registered) (Held p) kind where
  lasting := lasting_held
  use _ _ held := use_roomy roomy' kind held
  first := retraces_roomy roomy' first
  next child s held := (use_roomy roomy' kind held).bind fun _ t grown _ =>
    retraces_roomy roomy' next child t (lasting_held child s t grown held)

theorem cursorTended_roomy {kind : CursorKind C R} (first : kind.first.Within registered p)
    (next : kind.next.Within registered p) (last : kind.last.Within registered p)
    (seek : ∀ target, (kind.seek target).Within registered p) (prev : kind.prev.Within registered p) :
    CursorTended around (roomy registered) (Held p) kind where
  toTended := tended_roomy roomy' first next
  last := retraces_roomy roomy' last
  seek target := retraces_roomy roomy' (seek target)
  prev child s held := (use_roomy roomy' kind.toChildKind held).bind fun _ t grown _ =>
    retraces_roomy roomy' prev child t (lasting_held child s t grown held)

end Refinement
end Lrdb
