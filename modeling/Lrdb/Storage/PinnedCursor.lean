import Lrdb.Storage.PinnedScan

/-!
# The merge as a cursor over pinned readers

The calls of the merging iterator come to what they come to over tables of their own, and ask the cache
for readers on the way. With room for every registered file in the cache no reader is lost.
-/

namespace Lrdb
open Versions Scans Cursors LSMTree MergeIterator Stateful

/-! ## What a child asks for -/

namespace LevelIterator
variable (cmp : Comparator) (it : LevelIterator)

/-- `LoadCurrentIterator`: the file at the place, and whether its reader can be opened. -/
def askFor (file : Nat) : Option (Nat × Bool) :=
  it.files[file]?.map fun table => (table.info.fileNumber, (table.readIndex cmp).isOk)

def askSeek (target : Key) : Option (Nat × Bool) :=
  if it.deep then
    it.askFor cmp (it.files.takeWhile fun table =>
      cmp.compare table.info.largestKey target = .lt).length
  else it.askFor cmp 0

def askNext : Option (Nat × Bool) :=
  match it.position with
  | none => none
  | some (file, table, p) => if (table.next p).isSome then none else it.askFor cmp (file + 1)

def askPrev : Option (Nat × Bool) :=
  match it.position with
  | none => none
  | some (file, table, p) =>
      if (table.prev p).isSome ∨ file = 0 then none else it.askFor cmp (file - 1)

end LevelIterator

namespace ChildIterator
variable {cmp : Comparator}

def asks (ask : LevelIterator → Option (Nat × Bool)) : ChildIterator cmp → Option (Nat × Bool)
  | memTable _ => none
  | level it => ask it

def kind (cmp : Comparator) : CursorKind (ChildIterator cmp) Entry where
  entry := ChildIterator.entry
  size child := child.remaining.length
  first := ⟨asks fun it => it.askFor cmp 0, ChildIterator.seekToFirst⟩
  next := ⟨asks fun it => it.askNext cmp, ChildIterator.next⟩
  last := ⟨asks fun it => it.askFor cmp (it.files.length - 1), ChildIterator.seekToLast⟩
  seek target := ⟨asks fun it => it.askSeek cmp target, ChildIterator.seek target⟩
  prev := ⟨asks fun it => it.askPrev cmp, ChildIterator.prev⟩

end ChildIterator

def entryKind (cmp : Comparator) : RecordKind Entry where
  entryOf := some
  preferred preferNewest a b := MergeCursor.Preferred cmp preferNewest a b

abbrev PinnedCursor (cmp : Comparator) := MergeState (PinnedChild (ChildIterator cmp))

/-- `NewIterator`. -/
def LSMTree.newPinnedCursor {cmp : Comparator} (t : LSMTree cmp) : PinnedCursor cmp where
  children := t.newMergeCursor.children.map fun child => ⟨child, none⟩

namespace Merge
variable {cmp : Comparator} {snapshot : Nat}

theorem consumeLoop_owned (key : Key) (fuel : Nat) (child : ChildIterator cmp) :
    consumeLoop cmp (entryKind cmp) (ChildIterator.kind cmp).toChildKind.owned key fuel child =
      MergeCursor.consumeLoop key fuel child := by
  induction fuel generalizing child with
  | zero => rfl
  | succ fuel ih =>
      rw [consumeLoop_succ, MergeCursor.consumeLoop]
      have stands : ((ChildIterator.kind cmp).entry child).bind (entryKind cmp).entryOf = child.entry :=
        Option.bind_fun_some _
      rw [stands]
      cases child.entry with
      | none => rfl
      | some entry =>
          rw [ih]
          rfl

theorem consume_owned (key : Key) :
    consume cmp (entryKind cmp) (ChildIterator.kind cmp).toChildKind.owned key =
      (MergeCursor.consume key : ChildIterator cmp → _) :=
  funext fun child => consumeLoop_owned key _ child

theorem pickChild_owned (preferNewest : Bool) (children : List (ChildIterator cmp)) :
    pickChild (entryKind cmp) (ChildIterator.kind cmp).toChildKind.owned preferNewest children =
      MergeCursor.pickChild preferNewest children := by
  have same := Merging.findMin_map (MergeCursor.Preferred cmp preferNewest)
    (fun a b => decide (MergeCursor.Preferred cmp preferNewest a b) = true) id
    (fun _ _ => decide_eq_true_iff) (children.map fun child => child.entry.toList)
  simp only [List.map_id, List.map_id_fun, Prod.map_id, Option.map_id, id] at same
  exact same

theorem smallest_owned_eq (children : List (ChildIterator cmp)) :
    smallest cmp snapshot (entryKind cmp) (ChildIterator.kind cmp).toChildKind.owned children =
      MergeCursor.smallest snapshot children := by
  have least := MergeCursor.least_pickChild true children
  rw [smallest_owned, pickChild_owned, MergeCursor.smallest]
  rcases shape : MergeCursor.pickChild true children with _ | ⟨i, entry⟩
  · rfl
  · rw [shape] at least
    obtain ⟨⟨rest, here⟩, -⟩ := least
    rw [MergeCursor.left, List.getElem?_map] at here
    obtain ⟨picked, found, -⟩ := Option.map_eq_some_iff.mp here
    have consumed : (children.map (MergeCursor.consume entry.1.userKey))[i]? =
        some (MergeCursor.consume entry.1.userKey picked) := by rw [List.getElem?_map, found]; rfl
    have others : (children.map (MergeCursor.consume entry.1.userKey)).eraseIdx i =
        (children.eraseIdx i).map (MergeCursor.consume entry.1.userKey) := List.eraseIdx_map ..
    have back := congrArg (List.map Prod.snd) (insertIdx_eraseIdx consumed)
    rw [List.map_insertIdx, others] at back
    have parsed : (entryKind cmp).entryOf entry = some entry := rfl
    dsimp only
    rw [found, parsed]
    dsimp only
    rw [consume_owned, consumed, others, back]
    rfl

theorem largest_owned_eq (children : List (ChildIterator cmp)) :
    largest cmp snapshot (entryKind cmp) (ChildIterator.kind cmp).owned children =
      MergeCursor.largest snapshot children := by
  have least := MergeCursor.least_pickChild false children
  have picks : pickChild (entryKind cmp) (ChildIterator.kind cmp).owned.toChildOps false children =
      MergeCursor.pickChild false children := pickChild_owned false children
  rw [largest_owned, picks, MergeCursor.largest]
  rcases shape : MergeCursor.pickChild false children with _ | ⟨i, entry⟩
  · rfl
  · rw [shape] at least
    obtain ⟨⟨rest, here⟩, -⟩ := least
    rw [MergeCursor.left, List.getElem?_map] at here
    obtain ⟨picked, found, -⟩ := Option.map_eq_some_iff.mp here
    have consumes : consume cmp (entryKind cmp) (ChildIterator.kind cmp).owned.toChildOps
        entry.1.userKey = MergeCursor.consume entry.1.userKey := consume_owned entry.1.userKey
    have parsed : (entryKind cmp).entryOf entry = some entry := rfl
    dsimp only
    rw [found, parsed]
    dsimp only
    rw [consumes, List.map_map]
    rfl

end Merge

/-! ## Calls -/

namespace PinnedCursor
variable {cmp : Comparator} {snapshot : Nat} {around : Surroundings} {d : Discipline Readers}
  {good : PinnedChild (ChildIterator cmp) → Readers → Prop}

def unpinned (it : PinnedCursor cmp) : MergeCursor cmp := ⟨unpin it.children, it.direction, it.current⟩

def call (around : Surroundings) (snapshot fuel : Nat) (it : PinnedCursor cmp) (request : CursorCall) :
    StateM Readers (Option (PinnedCursor cmp)) :=
  MergeState.call cmp snapshot (entryKind cmp) ((ChildIterator.kind cmp).pinned around) fuel it request

variable (tended : CursorTended around d good (ChildIterator.kind cmp)) {s : Readers}
include tended

variable (snapshot) in
theorem ensures_findSmallest (fuel : Nat) {children : List (PinnedChild (ChildIterator cmp))}
    (here : AllGood good children s) :
    Ensures d s (Merge.findSmallest cmp snapshot (entryKind cmp)
        ((ChildIterator.kind cmp).pinned around).toChildOps fuel children)
      (SameResult unpin (AllGood good) (fun _ => True)
        (MergeCursor.findSmallest snapshot fuel (unpin children))) := by
  refine Ensures.rounds (lasting_allGood tended.lasting) (fun _ _ => trivial)
    (fun children s here => ?_) fuel here
  rw [← Merge.smallest_owned_eq]
  exact Merge.ensures_smallest tended.toTended here

variable (snapshot) in
theorem ensures_findLargest (fuel : Nat) {children : List (PinnedChild (ChildIterator cmp))}
    (here : AllGood good children s) :
    Ensures d s (Merge.findLargest cmp snapshot (entryKind cmp)
        ((ChildIterator.kind cmp).pinned around) fuel children)
      (SameResult unpin (AllGood good) (fun _ => True)
        (MergeCursor.findLargest snapshot fuel (unpin children))) := by
  refine Ensures.rounds (lasting_allGood tended.lasting) (fun _ _ => trivial)
    (fun children s here => ?_) fuel here
  rw [← Merge.largest_owned_eq]
  exact Merge.ensures_largest tended here

def SameCursor (good : PinnedChild (ChildIterator cmp) → Readers → Prop) (it' : Option (MergeCursor cmp))
    (r : Option (PinnedCursor cmp)) (t : Readers) : Prop :=
  r.map unpinned = it' ∧ ∀ it ∈ r, AllGood good it.children t

theorem ensures_settle {found : StateM Readers (Option (Option (Key × Value) ×
      List (PinnedChild (ChildIterator cmp))))}
    {found' : Option (Option ((Key × Value) × List (ChildIterator cmp)))} (it : PinnedCursor cmp)
    (here : AllGood good it.children s)
    (finds : Ensures d s found (SameResult unpin (AllGood good) (fun _ => True) found')) :
    Ensures d s (do
        let found ← found
        pure (found.map it.settle))
      (SameCursor good (found'.map it.unpinned.settle)) := by
  refine finds.bind fun r t grown ⟨same, kept⟩ => .pure fun u more => ⟨?_, fun next shown => ?_⟩
  · rw [← same, Option.map_map, Option.map_map]
    refine Option.map_congr fun x _ => ?_
    obtain ⟨_ | entry, children⟩ := x <;> rfl
  · obtain ⟨x, inside, rfl⟩ := Option.map_eq_some_iff.mp shown
    obtain ⟨_ | entry, children⟩ := x
    · exact lasting_allGood tended.lasting _ s u (d.trans grown more) here
    · exact lasting_allGood tended.lasting _ t u more (kept _ inside).1

variable {it : PinnedCursor cmp} (here : AllGood good it.children s)
include here

theorem ensures_seekToFirst (fuel : Nat) : Ensures d s (call around snapshot fuel it .seekToFirst)
    (SameCursor good (it.unpinned.seekToFirst snapshot fuel)) := by
  refine (ensures_mapM tended.lasting tended.first here).bind fun children t _ ⟨placed, all⟩ => ?_
  have ends := ensures_settle tended { it with children := children } all
    (ensures_findSmallest snapshot tended fuel all)
  rw [placed, unpinned, placed] at ends
  exact ends

theorem ensures_seekToLast (fuel : Nat) : Ensures d s (call around snapshot fuel it .seekToLast)
    (SameCursor good (it.unpinned.seekToLast snapshot fuel)) := by
  refine (ensures_mapM tended.lasting tended.last here).bind fun children t _ ⟨placed, all⟩ => ?_
  have ends := ensures_settle tended { it with children := children } all
    (ensures_findLargest snapshot tended fuel all)
  rw [placed, unpinned, placed] at ends
  exact ends

theorem ensures_seek (fuel : Nat) (target : Key) :
    Ensures d s (call around snapshot fuel it (.seek target))
      (SameCursor good (it.unpinned.seek snapshot fuel target)) := by
  refine (ensures_mapM tended.lasting (tended.seek target) here).bind
    fun children t _ ⟨placed, all⟩ => ?_
  have ends := ensures_settle tended { it with children := children, direction := .kForward } all
    (ensures_findSmallest snapshot tended fuel all)
  rw [placed, unpinned, placed] at ends
  exact ends

theorem ensures_forwards (last : Key) :
    Ensures d s (MergeState.forwards ((ChildIterator.kind cmp).pinned around) it last) fun it' t =>
      unpinned it' = it.unpinned.forwards last ∧ AllGood good it'.children t := by
  have direction : it.unpinned.direction = it.direction := rfl
  unfold MergeState.forwards MergeCursor.forwards
  rw [direction]
  split
  · exact .pure fun t grown => ⟨rfl, lasting_allGood tended.lasting _ s t grown here⟩
  · refine (ensures_mapM tended.lasting (tended.seek last) here).bind
      fun children t _ ⟨placed, all⟩ => .pure fun u grown => ⟨?_, ?_⟩
    · rw [unpinned, placed]
      rfl
    · exact lasting_allGood tended.lasting _ t u grown all

omit here

theorem retraces_stepBack (last : Key) : Retraces d good
    (MergeState.stepBack ((ChildIterator.kind cmp).pinned around) last)
      (MergeCursor.stepBack last) := by
  intro child s here
  refine (tended.seek last child s here).bind fun sought t _ ⟨placed, goes⟩ => ?_
  refine (tended.use sought t goes).bind fun _ u grown _ => ?_
  have goes := tended.lasting sought t u grown goes
  change Ensures d u (if (ChildIterator.entry sought.child).isSome then _ else _) _
  unfold MergeCursor.stepBack
  rw [← show sought.child = child.child.seek last from placed]
  dsimp only
  by_cases stands : sought.child.entry.isSome
  · rw [if_pos stands, if_pos stands]
    exact tended.prev sought u goes
  · rw [if_neg stands, if_neg stands]
    exact .pure fun v more => ⟨rfl, tended.lasting sought u v more goes⟩

include here

theorem ensures_backwards (last : Key) :
    Ensures d s (MergeState.backwards ((ChildIterator.kind cmp).pinned around) it last) fun it' t =>
      unpinned it' = it.unpinned.backwards last ∧ AllGood good it'.children t := by
  have direction : it.unpinned.direction = it.direction := rfl
  unfold MergeState.backwards MergeCursor.backwards
  rw [direction]
  split
  · exact .pure fun t grown => ⟨rfl, lasting_allGood tended.lasting _ s t grown here⟩
  · refine (ensures_mapM tended.lasting (retraces_stepBack tended last) here).bind
      fun children t _ ⟨placed, all⟩ => .pure fun u grown => ⟨?_, ?_⟩
    · rw [unpinned, placed]
      rfl
    · exact lasting_allGood tended.lasting _ t u grown all

theorem ensures_next (fuel : Nat) : Ensures d s (call around snapshot fuel it .next)
    (SameCursor good (it.unpinned.next snapshot fuel)) := by
  change Ensures d s (MergeState.next cmp snapshot (entryKind cmp) _ fuel it) _
  have same : it.unpinned.current = it.current := rfl
  unfold MergeState.next MergeCursor.next
  rw [same]
  rcases it.current with _ | ⟨last, value⟩
  · refine .pure fun t grown => ⟨rfl, fun it' shown => ?_⟩
    obtain rfl := Option.some.inj shown
    exact lasting_allGood tended.lasting _ s t grown here
  · refine (ensures_forwards tended here last).bind fun it' t _ ⟨same, all⟩ => ?_
    dsimp only
    rw [← same]
    exact ensures_settle tended it' all (Ensures.calls (lasting_allGood tended.lasting)
      (fun children s all => ensures_findSmallest snapshot tended fuel all) fuel all)

theorem ensures_prev (fuel : Nat) : Ensures d s (call around snapshot fuel it .prev)
    (SameCursor good (it.unpinned.prev snapshot fuel)) := by
  change Ensures d s (MergeState.prev cmp snapshot (entryKind cmp) _ fuel it) _
  have same : it.unpinned.current = it.current := rfl
  unfold MergeState.prev MergeCursor.prev
  rw [same]
  rcases it.current with _ | ⟨last, value⟩
  · refine .pure fun t grown => ⟨rfl, fun it' shown => ?_⟩
    obtain rfl := Option.some.inj shown
    exact lasting_allGood tended.lasting _ s t grown here
  · refine (ensures_backwards tended here last).bind fun it' t _ ⟨same, all⟩ => ?_
    dsimp only
    rw [← same]
    exact ensures_settle tended it' all (Ensures.calls (lasting_allGood tended.lasting)
      (fun children s all => ensures_findLargest snapshot tended fuel all) fuel all)

theorem ensures_call (fuel : Nat) (request : CursorCall) :
    Ensures d s (call around snapshot fuel it request)
      (SameCursor good (it.unpinned.call snapshot fuel request)) := by
  cases request with
  | seekToFirst => exact ensures_seekToFirst tended here fuel
  | seekToLast => exact ensures_seekToLast tended here fuel
  | seek target => exact ensures_seek tended here fuel target
  | next => exact ensures_next tended here fuel
  | prev => exact ensures_prev tended here fuel

omit tended here

variable (around snapshot) in
theorem call_unpinned (fuel : Nat) (it : PinnedCursor cmp) (request : CursorCall) (readers : Readers) :
    ((call around snapshot fuel it request).run readers).1.map unpinned =
      it.unpinned.call snapshot fuel request :=
  (ensures_call (s := readers) (cursorTended_anarchy around (ChildIterator.kind cmp))
    (fun _ _ => trivial) fuel request readers trivial trivial).2.2.1

/-! ## Runs -/

structure Watched (cmp : Comparator) where
  it : PinnedCursor cmp
  readers : Readers
  position : Option (Key × Value) := none

def step (around : Surroundings) (snapshot : Nat) (out : List (Key × Value)) (s : Watched cmp)
    (request : CursorCall × Nat) : Option (Watched cmp) :=
  let (returned, readers) := (call around snapshot request.2 s.it request.1).run s.readers
  returned.map fun it => ⟨it, readers, request.1.move cmp out s.position⟩

/-- `Next` and `Prev` are called while the iterator is valid. -/
def WhileValid (s : Watched cmp) (request : CursorCall × Nat) : Prop :=
  request.1 = .next ∨ request.1 = .prev → s.it.current.isSome

def ReadersLast (around : Surroundings) (snapshot : Nat) (s : Watched cmp)
    (request : CursorCall × Nat) : Prop :=
  ((call around snapshot request.2 s.it request.1).run s.readers).2.lost = false

def Careful (around : Surroundings) (snapshot : Nat) (s : Watched cmp) (request : CursorCall × Nat) :
    Prop :=
  s.it.unpinned.Sound snapshot request.1 ∧ ReadersLast around snapshot s request

instance (s : Watched cmp) (request : CursorCall × Nat) : Decidable (WhileValid s request) := by
  unfold WhileValid; infer_instance

instance (s : Watched cmp) (request : CursorCall × Nat) :
    Decidable (Careful around snapshot s request) := by
  unfold Careful ReadersLast; infer_instance

variable {out : List (Key × Value)} {start w w' : Watched cmp}

theorem unpinned_new (t : LSMTree cmp) : t.newPinnedCursor.unpinned = t.newMergeCursor := by
  unfold unpinned LSMTree.newPinnedCursor unpin
  rw [List.map_map]
  exact congrArg (MergeCursor.mk · _ _) (List.map_id _)

def Watched.plain (w : Watched cmp) : MergeCursor cmp × Option (Key × Value) :=
  (w.it.unpinned, w.position)

theorem plain_step {request : CursorCall × Nat}
    (stepped : step around snapshot out w request = some w') :
    MergeCursor.step snapshot out w.plain request = some w'.plain := by
  obtain ⟨it, returned, rfl⟩ := Option.map_eq_some_iff.mp stepped
  have same := call_unpinned snapshot around request.2 w.it request.1 w.readers
  rw [show ((call around snapshot request.2 w.it request.1).run w.readers).1 = some it from returned]
    at same
  rw [MergeCursor.step, Watched.plain, ← same]
  rfl

theorem plain_run {guard : Watched cmp → CursorCall × Nat → Prop}
    (sound : ∀ w request, guard w request → w.it.unpinned.Sound snapshot request.1)
    (run : Runs.Run (step around snapshot out) guard start w) :
    Runs.Run (MergeCursor.step snapshot out) (MergeCursor.Careful snapshot) start.plain w.plain := by
  induction run with
  | refl => exact .refl
  | tail _ last ih =>
      obtain ⟨request, careful, stepped⟩ := last
      exact ih.tail ⟨request, sound _ request careful, plain_step stepped⟩

/-- After any run of careful calls from a new iterator, the iterator shows what a cursor on the list of
live keys shows, and a further call that finds what it is for returns. -/
theorem shows_cursor_of_run {t : LSMTree cmp} (searchable : t.sstables.Searchable cmp)
    (leveled : t.sstables.Leveled cmp) (functional : ∀ key, Functional (t.stamps key))
    {snapshot : Nat} {out : List (Key × Value)} (lists : Lists cmp.Before (fun key =>
      (newest ((t.stamps key).filter fun w => Visible snapshot w.1)).bind Prod.snd) out)
    {readers : Readers} (fresh : readers.lost = false) {w : Watched cmp}
    (run : Runs.Run (step around snapshot out) (Careful around snapshot) ⟨t.newPinnedCursor, readers, none⟩ w) :
    w.it.current = w.position ∧ w.readers.lost = false ∧
      ∀ request, w.it.unpinned.Sound snapshot request →
        ∃ fuel it', ((call around snapshot fuel w.it request).run w.readers).1 = some it' := by
  have plain := plain_run (fun _ _ careful => careful.1) run
  rw [Watched.plain, unpinned_new] at plain
  obtain ⟨shown, returns⟩ := MergeCursor.shows_of_run searchable leveled functional lists plain
  refine ⟨shown, ?_, fun request sound => ?_⟩
  · refine run.invariant (p := fun w => w.readers.lost = false) ?_ fresh
    rintro w request w' ⟨-, last⟩ stepped -
    obtain ⟨it, -, rfl⟩ := Option.map_eq_some_iff.mp stepped
    exact last
  · obtain ⟨fuel, it', returned⟩ := returns request sound
    have same := call_unpinned snapshot around fuel w.it request w.readers
    obtain ⟨it, found, -⟩ := Option.map_eq_some_iff.mp (same.trans returned)
    exact ⟨fuel, it, found⟩

/-! ## Readers that last -/

end PinnedCursor

namespace ChildIterator
variable {cmp : Comparator} {registered : List Nat} {child : ChildIterator cmp}

def Over (registered : List Nat) : ChildIterator cmp → Prop
  | memTable _ => True
  | level it => ∀ file ∈ it.files, file.info.fileNumber ∈ registered

theorem over_unplaced : child.unplaced.Over registered ↔ child.Over registered := by
  cases child <;> exact Iff.rfl

theorem over_of_unplaced {other : ChildIterator cmp} (same : other.unplaced = child.unplaced)
    (known : child.Over registered) : other.Over registered :=
  over_unplaced.mp (same ▸ over_unplaced.mpr known)

theorem within_asks {ask : LevelIterator → Option (Nat × Bool)} {go : ChildIterator cmp → ChildIterator cmp}
    (named : ∀ it, ∀ file ∈ ask it, ∃ i, some file = it.askFor cmp i)
    (same : ∀ child, (go child).unplaced = child.unplaced) :
    Move.Within registered (Over registered) ⟨asks ask, go⟩ := by
  intro child known
  refine ⟨fun file asked => ?_, over_of_unplaced (same child) known⟩
  cases child with
  | memTable it => cases asked
  | level it =>
      obtain ⟨i, there⟩ := named it file asked
      obtain ⟨table, here, rfl⟩ := Option.map_eq_some_iff.mp there.symm
      exact known table (List.mem_of_getElem? here)

variable {around : Surroundings}

theorem cursorTended_kind (cmp : Comparator) (roomy' : around.Roomy registered) :
    CursorTended around (roomy registered) (Held (Over registered)) (kind cmp) := by
  refine cursorTended_roomy roomy' ?_ ?_ ?_ (fun target => ?_) ?_
  · exact within_asks (fun it file asked => ⟨_, asked.symm⟩) unplaced_seekToFirst
  · refine within_asks (fun it file asked => ?_) unplaced_next
    unfold LevelIterator.askNext at asked
    split at asked
    · cases asked
    · split at asked
      · cases asked
      · exact ⟨_, asked.symm⟩
  · exact within_asks (fun it file asked => ⟨_, asked.symm⟩) unplaced_seekToLast
  · refine within_asks (fun it file asked => ?_) fun child => unplaced_seek child target
    unfold LevelIterator.askSeek at asked
    split at asked <;> exact ⟨_, asked.symm⟩
  · refine within_asks (fun it file asked => ?_) unplaced_prev
    unfold LevelIterator.askPrev at asked
    split at asked
    · cases asked
    · split at asked
      · cases asked
      · exact ⟨_, asked.symm⟩

theorem over_new {t : LSMTree cmp} (files : ∀ level ∈ t.sstables.levelFiles, ∀ file ∈ level,
    file.info.fileNumber ∈ registered) : ∀ child ∈ t.newMergeCursor.children, child.Over registered := by
  intro child member
  simp only [LSMTree.newMergeCursor, List.cons_append, List.mem_cons, List.mem_append, List.mem_map,
    List.mem_reverse] at member
  rcases member with rfl | (⟨mem, -, rfl⟩ | ⟨file, inLevel, rfl⟩) | ⟨level, deep, rfl⟩
  · trivial
  · trivial
  · obtain ⟨level, here, inside⟩ := SSTableManager.mem_of_level inLevel
    exact List.forall_mem_singleton.mpr (files level here file inside)
  · exact files level (List.mem_of_mem_tail deep)

end ChildIterator

namespace PinnedCursor
variable {cmp : Comparator} {snapshot : Nat} {around : Surroundings} {registered : List Nat}
  {out : List (Key × Value)} {readers : Readers} {w : Watched cmp}

theorem held_new {t : LSMTree cmp} (files : ∀ level ∈ t.sstables.levelFiles, ∀ file ∈ level,
      file.info.fileNumber ∈ registered) (readers : Readers) :
    AllGood (Held (ChildIterator.Over registered)) t.newPinnedCursor.children readers := by
  intro child member
  obtain ⟨plain, inside, rfl⟩ := List.mem_map.mp member
  exact ⟨ChildIterator.over_new files plain inside, nofun⟩

theorem readersLast_of_room (roomy' : around.Roomy registered) {t : LSMTree cmp}
    (files : ∀ level ∈ t.sstables.levelFiles, ∀ file ∈ level, file.info.fileNumber ∈ registered)
    (fresh : (roomy registered).inv readers)
    (run : Runs.Run (step around snapshot out) Runs.free ⟨t.newPinnedCursor, readers, none⟩ w)
    (request : CursorCall × Nat) : ReadersLast around snapshot w request := by
  have tended := ChildIterator.cursorTended_kind cmp roomy'
  have kept : (roomy registered).inv w.readers ∧
      AllGood (Held (ChildIterator.Over registered)) w.it.children w.readers := by
    refine run.invariant (p := fun w => (roomy registered).inv w.readers ∧
      AllGood (Held (ChildIterator.Over registered)) w.it.children w.readers) ?_ ⟨fresh, ?_⟩
    · rintro w request w' - stepped ⟨inv, all⟩
      obtain ⟨inv', -, -, stays⟩ := ensures_call tended all request.2 request.1
        w.readers (Discipline.refl _ _) inv
      obtain ⟨it, returned, rfl⟩ := Option.map_eq_some_iff.mp stepped
      exact ⟨inv', stays it returned⟩
    · exact held_new files readers
  exact (ensures_call tended kept.2 request.2 request.1 w.readers
    (Discipline.refl _ _) kept.1).1.2.2

/-- A cache for one reader loses one of two files at once. -/
example : ((call { maxOpenFiles := 1 } 0 4
    (⟨[⟨.level ⟨false, [⟨⟨1, [97], [97]⟩, [⟨(.make [97] 1 .kValue, []), []⟩], none⟩], none⟩, none⟩,
      ⟨.level ⟨false, [⟨⟨2, [98], [98]⟩, [⟨(.make [98] 2 .kValue, []), []⟩], none⟩], none⟩, none⟩],
      .kForward, none⟩ : PinnedCursor bytewiseComparator) .seekToFirst).run {}).2.lost = true := by decide +kernel

/-! ## Full scans -/

/-- `SeekToFirst`, then `Next` until the iterator of the tree is not valid. -/
def scan (around : Surroundings) (t : LSMTree cmp) (snapshot : Nat) :
    StateM Readers (Option (List (Key × Value))) := do
  let scanned ← Merge.scan cmp snapshot (entryKind cmp) ((ChildIterator.kind cmp).toChildKind.pinned around)
    (size t.children + 1) t.newPinnedCursor.children
  pure (scanned.map Prod.fst)

theorem listing_kind : Merge.Listing cmp (entryKind cmp) (ChildIterator.kind cmp).toChildKind
    ChildIterator.remaining id where
  entry := ChildIterator.entry_eq
  next := ChildIterator.remaining_next
  size _ := rfl
  parsed _ := rfl
  preferred _ _ := decide_eq_true_iff

variable {d : Discipline Readers} {good : PinnedChild (ChildIterator cmp) → Readers → Prop}

theorem ensures_treeScan (snapshot : Nat) (tended : CursorTended around d good (ChildIterator.kind cmp)) {t : LSMTree cmp}
    {s : Readers} (here : AllGood good t.newPinnedCursor.children s) :
    Ensures d s (scan around t snapshot) fun r _ => r = some (t.newIterator snapshot) := by
  have unpinned : unpin t.newPinnedCursor.children = t.newMergeCursor.children :=
    congrArg MergeCursor.children (unpinned_new t)
  have entire (child : ChildIterator cmp) : Merge.Entire (entryKind cmp) ChildIterator.remaining id child ∧
      Merge.entriesLeft (entryKind cmp) ChildIterator.remaining child = child.remaining :=
    listing_kind.entire_iff (List.map_id child.remaining).symm
  have left : ((unpin t.newPinnedCursor.children).map ChildIterator.seekToFirst).map
      (Merge.entriesLeft (entryKind cmp) ChildIterator.remaining) = t.children := by
    rw [unpinned, ← entries_newMergeCursor, List.map_map]
    refine List.map_congr_left fun child _ => (entire _).2.trans ?_
    exact ChildIterator.remaining_seekToFirst child
  refine (Merge.ensures_scan (listing_kind.shows_turn snapshot) tended.toTended here
    (fun child _ => (entire child).1) _).bind fun r t' _ ⟨same, _⟩ => .pure fun _ _ => ?_
  rw [same]
  change Merge.scanned cmp _ _ (((unpin t.newPinnedCursor.children).map ChildIterator.seekToFirst).map _) = _
  rw [left]
  exact scanned_turn cmp snapshot (Nat.lt_succ_self _)

theorem scan_run (around : Surroundings) (t : LSMTree cmp) (snapshot : Nat) (readers : Readers) :
    ((scan around t snapshot).run readers).1 = some (t.newIterator snapshot) :=
  (ensures_treeScan (s := readers) snapshot (cursorTended_anarchy around (ChildIterator.kind cmp))
    (fun _ _ => trivial) readers trivial trivial).2.2

theorem scan_readersLast (roomy' : around.Roomy registered) {t : LSMTree cmp}
    (files : ∀ level ∈ t.sstables.levelFiles, ∀ file ∈ level, file.info.fileNumber ∈ registered)
    (fresh : (roomy registered).inv readers) :
    ((scan around t snapshot).run readers).2.lost = false :=
  (ensures_treeScan snapshot (ChildIterator.cursorTended_kind cmp roomy')
    (held_new files readers) readers (Discipline.refl _ _) fresh).1.2.2

open PointRead Runs

theorem leveled_of_top {m : SSTableManager} (top : ∀ files ∈ m.levelFiles.tail, files = []) :
    m.Leveled cmp := by
  intro files deep
  simp [top files deep]

def fileAndMemTable : List PointRead.Call :=
  [.put [98] [1] 1, .flushAll, .put [97] [2] 2, .put [98] [3] 3, .put [99] [4] 4]

def bothWays : List (CursorCall × Nat) :=
  [(.seekToFirst, 4), (.next, 4), (.next, 4), (.prev, 4), (.next, 4), (.seekToLast, 4)]

def alone : Surroundings := {}

theorem shows_cursor_of_run_bothWays :
    ∃ st, execute (State.step {}) (.initial {} : State bytewiseComparator) fileAndMemTable =
        some st ∧
      ∃ w, execute (step alone 0 (st.tree.newIterator 0)) ⟨st.tree.newPinnedCursor, {}, none⟩ bothWays =
          some w ∧ w.it.current = w.position ∧ w.readers.lost = false ∧
        ∀ request, w.it.unpinned.Sound 0 request →
          ∃ fuel it', ((call alone 0 fuel w.it request).run w.readers).1 = some it' := by
  have safe : Allowed (State.step {}) (State.FlushesSafely {})
      (.initial {} : State bytewiseComparator) fileAndMemTable := by decide +kernel
  have facts : (execute (State.step {}) (.initial {} : State bytewiseComparator)
      fileAndMemTable).any fun st => (∀ files ∈ st.tree.sstables.levelFiles.tail, files = []) ∧
        Allowed (step alone 0 (st.tree.newIterator 0)) (Careful alone 0)
            ⟨st.tree.newPinnedCursor, {}, none⟩ bothWays ∧
          (execute (step alone 0 (st.tree.newIterator 0)) ⟨st.tree.newPinnedCursor, {}, none⟩
            bothWays).isSome := by decide +kernel
  obtain ⟨st, executed, facts⟩ := Option.any_eq_true _ _ |>.mp facts
  obtain ⟨top, careful, returns⟩ := of_decide_eq_true facts
  obtain ⟨w, moved⟩ := Option.isSome_iff_exists.mp returns
  have recorded := recorded_of_run (execute_run _ safe executed)
  have leveled : st.tree.sstables.Leveled bytewiseComparator := leveled_of_top top
  have lists := lists_newIterator recorded.searchable leveled recorded.functional 0
  exact ⟨st, executed, w, moved, shows_cursor_of_run recorded.searchable leveled recorded.functional
    lists rfl (execute_run _ careful moved)⟩

def threeKeys : List PointRead.Call :=
  [.put [97] [1] 1, .put [98] [2] 2, .put [99] [3] 3]

theorem shows_cursor_fails_secondPrev :
    ¬ ∀ st : State bytewiseComparator, Run (State.step {}) free (.initial {}) st →
      ∀ snapshot out, Lists bytewiseComparator.Before (fun key => (newest ((st.tree.stamps key).filter
          fun w => Visible snapshot w.1)).bind Prod.snd) out →
        ∀ around w, Run (step around snapshot out) WhileValid ⟨st.tree.newPinnedCursor, {}, none⟩ w →
          w.it.current = w.position := by
  intro always
  have safe : Allowed (State.step {}) (State.FlushesSafely {})
      (.initial {} : State bytewiseComparator) threeKeys := by decide +kernel
  have facts : (execute (State.step {}) (.initial {} : State bytewiseComparator)
      threeKeys).any fun st => (∀ files ∈ st.tree.sstables.levelFiles.tail, files = []) ∧
        Allowed (step alone 0 (st.tree.newIterator 0)) WhileValid ⟨st.tree.newPinnedCursor, {}, none⟩
            [(.seekToLast, 4), (.prev, 4), (.prev, 4)] ∧
          (execute (step alone 0 (st.tree.newIterator 0)) ⟨st.tree.newPinnedCursor, {}, none⟩
            [(.seekToLast, 4), (.prev, 4), (.prev, 4)]).any fun w => w.it.current ≠ w.position := by
    decide +kernel
  obtain ⟨st, executed, facts⟩ := Option.any_eq_true _ _ |>.mp facts
  obtain ⟨top, valid, wrong⟩ := of_decide_eq_true facts
  obtain ⟨w, moved, apart⟩ := Option.any_eq_true _ _ |>.mp wrong
  have recorded := recorded_of_run (execute_run _ safe executed)
  have lists := lists_newIterator recorded.searchable (leveled_of_top top) recorded.functional 0
  exact of_decide_eq_true apart (always st (execute_run _ (allowed_free _ _ _) executed) 0 _ lists
    alone w (execute_run _ valid moved))

end PinnedCursor
end Lrdb
