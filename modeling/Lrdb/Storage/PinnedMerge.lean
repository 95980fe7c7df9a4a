import Lrdb.Storage.MergeCursor
import Lrdb.Storage.PinnedReaders

namespace Lrdb
open Versions LSMTree MergeIterator Stateful

/-! ## The merge -/

namespace Merge
variable {m : Type → Type} [Monad m] {C R : Type} (cmp : Comparator) (snapshot : Nat)
  (records : RecordKind R)

section Forward
variable (ops : ChildOps m C R)

/-- `PickChild`. -/
def pickChild (preferNewest : Bool) (children : List C) : m (Option (Nat × R)) := do
  children.forM ops.use
  pure (Merging.findMin (fun a b => records.preferred preferNewest a b)
    (children.map fun child => (ops.entry child).toList))

def consumeLoop (key : Key) : Nat → C → m (List Version × C)
  | 0, child => pure ([], child)
  | fuel + 1, child => do
      ops.use child
      match (ops.entry child).bind records.entryOf with
      | none => pure ([], child)
      | some entry =>
          if isKey cmp key entry then do
            let next ← ops.next child
            let (versions, rest) ← consumeLoop key fuel next
            pure (entry.version :: versions, rest)
          else pure ([], child)

def consume (key : Key) (child : C) : m (List Version × C) :=
  consumeLoop cmp records ops key (ops.size child) child

/-- A round of `FindSmallest`. The picked child comes first; one at a key that cannot be parsed is moved
on alone. -/
def smallest (children : List C) : m (Option (Key × Option Value × List C)) := do
  let best ← pickChild records ops true children
  match best with
  | none => pure none
  | some (i, record) =>
      match children[i]?, records.entryOf record with
      | none, _ => pure none
      | some picked, none => do
          let picked ← ops.next picked
          pure (some ([], none, children.set i picked))
      | some picked, some entry => do
          let key := entry.1.userKey
          let (versions, picked) ← consume cmp records ops key picked
          let others ← (children.eraseIdx i).mapM (consume cmp records ops key)
          let best := (versions ++ others.flatMap Prod.fst).foldl (considerVersion snapshot) none
          pure (some (key, best.bind payload, (others.map Prod.snd).insertIdx i picked))

def findSmallest (fuel : Nat) (children : List C) : m (Option (Option (Key × Value) × List C)) :=
  rounds (smallest cmp snapshot records ops) fuel children

/-- `Next` in the forward direction. -/
def findNext (fuel : Nat) (last : Key) (children : List C) :
    m (Option (Option (Key × Value) × List C)) :=
  calls (fun key => cmp.compare key last = .gt) (findSmallest cmp snapshot records ops fuel) fuel children

/-- `SeekToFirst`, then `Next` until the iterator is not valid. -/
def scan (fuel : Nat) (children : List C) : m (Option (List (Key × Value) × List C)) := do
  let children ← children.mapM ops.first
  let found ← findSmallest cmp snapshot records ops fuel children
  match found with
  | none => pure none
  | some (none, children) => pure (some ([], children))
  | some (some entry, children) =>
      follow (findNext cmp snapshot records ops fuel) fuel entry children

end Forward

section Cursor
variable (ops : CursorOps m C R)

/-- A round of `FindLargest`: every child is sought to the picked key before its versions are
consumed. -/
def largest (children : List C) : m (Option (Key × Option Value × List C)) := do
  let best ← pickChild records ops.toChildOps false children
  match best with
  | none => pure none
  | some (i, record) =>
      match children[i]?, records.entryOf record with
      | none, _ => pure none
      | some picked, none => do
          let picked ← ops.next picked
          pure (some ([], none, children.set i picked))
      | some _, some entry => do
          let key := entry.1.userKey
          let sought ← children.mapM (ops.seek key)
          let consumed ← sought.mapM (consume cmp records ops.toChildOps key)
          let best := (consumed.flatMap Prod.fst).foldl (considerVersion snapshot) none
          pure (some (key, best.bind payload, consumed.map Prod.snd))

def findLargest (fuel : Nat) (children : List C) : m (Option (Option (Key × Value) × List C)) :=
  rounds (largest cmp snapshot records ops) fuel children

end Cursor
end Merge

/-- `LSMTreeMergeIterator` over children of any kind. -/
structure MergeState (C : Type) where
  children : List C
  direction : Direction := .kForward
  current : Option (Key × Value) := none

namespace MergeState
open Merge
variable {m : Type → Type} [Monad m] {C R : Type} (cmp : Comparator) (snapshot : Nat)
  (records : RecordKind R) (ops : CursorOps m C R) (fuel : Nat) (it : MergeState C)

def settle : Option (Key × Value) × List C → MergeState C
  | (none, _) => { it with current := none }
  | (some entry, children) => { it with children := children, current := some entry }

def seekToFirst : m (Option (MergeState C)) := do
  let children ← it.children.mapM ops.first
  let found ← findSmallest cmp snapshot records ops.toChildOps fuel children
  pure (found.map { it with children := children }.settle)

def seekToLast : m (Option (MergeState C)) := do
  let children ← it.children.mapM ops.last
  let found ← findLargest cmp snapshot records ops fuel children
  pure (found.map { it with children := children }.settle)

def seek (target : Key) : m (Option (MergeState C)) := do
  let children ← it.children.mapM (ops.seek target)
  let found ← findSmallest cmp snapshot records ops.toChildOps fuel children
  pure (found.map { it with children := children, direction := .kForward }.settle)

def forwards (last : Key) : m (MergeState C) :=
  if it.direction = .kForward then pure it
  else do
    let children ← it.children.mapM (ops.seek last)
    pure { it with children := children, direction := .kForward }

def next : m (Option (MergeState C)) :=
  match it.current with
  | none => pure (some it)
  | some (last, _) => do
      let it ← it.forwards ops last
      let found ← findNext cmp snapshot records ops.toChildOps fuel last it.children
      pure (found.map it.settle)

def stepBack (last : Key) (child : C) : m C := do
  let child ← ops.seek last child
  ops.use child
  if (ops.entry child).isSome then ops.prev child else pure child

def backwards (last : Key) : m (MergeState C) :=
  if it.direction = .kReverse then pure it
  else do
    let children ← it.children.mapM (stepBack ops last)
    pure { it with children := children, direction := .kReverse }

def prev : m (Option (MergeState C)) :=
  match it.current with
  | none => pure (some it)
  | some (last, _) => do
      let it ← it.backwards ops last
      let found ← calls (fun key => cmp.compare key last = .lt)
        (findLargest cmp snapshot records ops fuel) fuel it.children
      pure (found.map it.settle)

def call : CursorCall → m (Option (MergeState C))
  | .seekToFirst => it.seekToFirst cmp snapshot records ops fuel
  | .seekToLast => it.seekToLast cmp snapshot records ops fuel
  | .seek target => it.seek cmp snapshot records ops fuel target
  | .next => it.next cmp snapshot records ops fuel
  | .prev => it.prev cmp snapshot records ops fuel

end MergeState

/-! ## The merge does not depend on who owns the readers -/

section Refinement
variable {C R : Type} {around : Surroundings} {d : Discipline Readers}
  {good : PinnedChild C → Readers → Prop}

def unpin (children : List (PinnedChild C)) : List C := children.map PinnedChild.child

def AllGood (good : PinnedChild C → Readers → Prop) (children : List (PinnedChild C))
    (s : Readers) : Prop :=
  ∀ child ∈ children, good child s

theorem lasting_allGood (lasting : Lasting d good) : Lasting d (AllGood good) :=
  fun _ s t grown all child member => lasting child s t grown (all child member)

theorem ensures_mapM {pinned : PinnedChild C → StateM Readers (PinnedChild C)} {go : C → C}
    (lasting : Lasting d good) (follows : Retraces d good pinned go) {children : List (PinnedChild C)}
    {s : Readers} (here : AllGood good children s) :
    Ensures d s (children.mapM pinned) fun rest t =>
      unpin rest = (unpin children).map go ∧ AllGood good rest t := by
  refine (Ensures.mapM lasting fun child member => follows child s (here child member)).mono
    fun rest t _ ⟨same, all⟩ => ⟨same.trans ?_, all⟩
  rw [unpin, List.map_map]
  rfl

namespace Merge
variable {cmp : Comparator} {snapshot : Nat} {records : RecordKind R} {kind : ChildKind C R}
  (tended : Tended around d good kind) {s : Readers}
include tended

omit tended in
theorem consumeLoop_succ (key : Key) (fuel : Nat) (child : C) :
    consumeLoop cmp records kind.owned key (fuel + 1) child =
      match (kind.entry child).bind records.entryOf with
      | none => ([], child)
      | some entry =>
          if isKey cmp key entry then
            let r := consumeLoop cmp records kind.owned key fuel (kind.next.go child)
            (entry.version :: r.1, r.2)
          else ([], child) := rfl

theorem ensures_consumeLoop (key : Key) (fuel : Nat) {child : PinnedChild C} (here : good child s) :
    Ensures d s (consumeLoop cmp records (kind.pinned around) key fuel child) fun r t =>
      (r.1, r.2.child) = consumeLoop cmp records kind.owned key fuel child.child ∧ good r.2 t := by
  have stay (t : Readers) (grown : d.le s t) : good child t := tended.lasting child s t grown here
  induction fuel generalizing child s with
  | zero => exact .pure fun t grown => ⟨rfl, stay t grown⟩
  | succ fuel ih =>
      rw [consumeLoop_succ]
      refine (tended.use child s here).bind fun _ t grown _ => ?_
      change Ensures d t (match (kind.entry child.child).bind records.entryOf with | none => _ | some _ => _) _
      cases (kind.entry child.child).bind records.entryOf with
      | none => exact .pure fun u more => ⟨rfl, stay u (d.trans grown more)⟩
      | some entry =>
          dsimp only
          split
          · refine (tended.next child t (stay t grown)).bind fun next u _ ⟨moved, good⟩ => ?_
            refine (ih good fun v more => tended.lasting next u v more good).bind
              fun r v _ ⟨same, good⟩ => ?_
            rw [← moved, ← same]
            exact .pure fun w more => ⟨rfl, tended.lasting r.2 v w more good⟩
          · exact .pure fun u more => ⟨rfl, stay u (d.trans grown more)⟩

theorem ensures_consume (key : Key) {child : PinnedChild C} (here : good child s) :
    Ensures d s (consume cmp records (kind.pinned around) key child) fun r t =>
      (r.1, r.2.child) = consume cmp records kind.owned key child.child ∧ good r.2 t :=
  ensures_consumeLoop tended key _ here

theorem ensures_pickChild (preferNewest : Bool) {children : List (PinnedChild C)}
    (here : AllGood good children s) :
    Ensures d s (pickChild records (kind.pinned around) preferNewest children) fun r _ =>
      r = pickChild records kind.owned preferNewest (unpin children) := by
  refine (Ensures.forM fun child member => tended.use child s (here child member)).bind
    fun _ _ _ _ => .pure fun _ _ => ?_
  change Merging.findMin _ _ = Merging.findMin _ ((unpin children).map _)
  rw [unpin, List.map_map]
  rfl

theorem ensures_consumeAll (key : Key) {children : List (PinnedChild C)}
    (here : AllGood good children s) :
    Ensures d s (children.mapM (consume cmp records (kind.pinned around) key)) fun rs t =>
      rs.map (fun r => (r.1, r.2.child)) = (unpin children).map (consume cmp records kind.owned key) ∧
        AllGood good (rs.map Prod.snd) t := by
  refine (Ensures.mapM (fun r t u grown => tended.lasting r.2 t u grown) fun child member =>
    ensures_consume tended key (here child member)).mono fun rs t _ ⟨same, all⟩ =>
      ⟨same.trans ?_, List.forall_mem_map.mpr all⟩
  rw [unpin, List.map_map]
  rfl

theorem ensures_pass {children : List (PinnedChild C)} (here : AllGood good children s)
    {picked : PinnedChild C} (inside : picked ∈ children) (i : Nat) :
    Ensures d s (do
        let picked ← (kind.pinned around).next picked
        pure (some (([] : Key), (none : Option Value), children.set i picked)))
      (SameTurn unpin (AllGood good)
        (some ([], none, (unpin children).set i (kind.next.go picked.child)))) := by
  refine (tended.next picked s (here picked inside)).bind fun next t grown ⟨moved, goes⟩ => ?_
  refine .pure fun u more => ⟨?_, fun x shown => ?_⟩
  · rw [← moved]
    simp [unpin, List.map_set]
  · obtain rfl := Option.some.inj shown
    intro child member
    rcases List.mem_or_eq_of_mem_set member with old | rfl
    · exact tended.lasting child s u (d.trans grown more) (here child old)
    · exact tended.lasting child t u more goes

omit tended

theorem smallest_owned (children : List C) : smallest cmp snapshot records kind.owned children =
    match pickChild records kind.owned true children with
    | none => none
    | some (i, record) =>
        match children[i]?, records.entryOf record with
        | none, _ => none
        | some picked, none => some ([], none, children.set i (kind.next.go picked))
        | some picked, some entry =>
            let consumed := consume cmp records kind.owned entry.1.userKey picked
            let others := (children.eraseIdx i).map (consume cmp records kind.owned entry.1.userKey)
            let best := (consumed.1 ++ others.flatMap Prod.fst).foldl (considerVersion snapshot) none
            some (entry.1.userKey, best.bind payload,
              (others.map Prod.snd).insertIdx i consumed.2) := by
  unfold smallest
  change (match pickChild records kind.owned true children with | none => _ | some (_, _) => _) = _
  rcases pickChild records kind.owned true children with _ | ⟨i, record⟩
  · rfl
  · dsimp only
    cases children[i]? with
    | none => rfl
    | some picked =>
        cases records.entryOf record with
        | none => rfl
        | some entry =>
            have others : (children.eraseIdx i).mapM (consume cmp records kind.owned entry.1.userKey) =
                (children.eraseIdx i).map (consume cmp records kind.owned entry.1.userKey) :=
              List.idRun_mapM
            dsimp only
            rw [← others]
            rfl

include tended

theorem ensures_smallest {children : List (PinnedChild C)} (here : AllGood good children s) :
    Ensures d s (smallest cmp snapshot records (kind.pinned around) children)
      (SameTurn unpin (AllGood good) (smallest cmp snapshot records kind.owned (unpin children))) := by
  have stay (t : Readers) (grown : d.le s t) : AllGood good children t :=
    lasting_allGood tended.lasting children s t grown here
  rw [smallest_owned]
  refine (ensures_pickChild tended true here).bind fun r t grown same => ?_
  rw [← same]
  rcases r with _ | ⟨i, record⟩
  · exact .pure fun _ _ => ⟨rfl, nofun⟩
  have place : (unpin children)[i]? = children[i]?.map PinnedChild.child := List.getElem?_map
  dsimp only
  rw [place]
  cases found : children[i]? with
  | none => exact .pure fun _ _ => ⟨rfl, nofun⟩
  | some picked =>
      have inside : picked ∈ children := List.mem_of_getElem? found
      cases records.entryOf record with
      | none =>
          exact ensures_pass tended (stay t grown) inside i
      | some entry =>
          refine (ensures_consume tended entry.1.userKey (stay t grown picked inside)).bind
            fun r u more ⟨first, goes⟩ => ?_
          have left : AllGood good (children.eraseIdx i) u := fun child member =>
            stay u (d.trans grown more) child (List.mem_of_mem_eraseIdx member)
          refine (ensures_consumeAll tended entry.1.userKey left).bind fun rs v later ⟨rest, good⟩ => ?_
          refine .pure fun w last => ⟨?_, fun x shown => ?_⟩
          · have erased : (unpin children).eraseIdx i = unpin (children.eraseIdx i) := by
              rw [unpin, unpin, List.eraseIdx_map]
            simp only [Option.map_some, erased, ← rest, ← first]
            simp [unpin, List.map_insertIdx, List.flatMap_map, Function.comp_def]
          · obtain rfl := Option.some.inj shown
            intro child member
            rcases List.eq_or_mem_of_mem_insertIdx member with rfl | old
            · exact tended.lasting r.2 u w (d.trans later last) goes
            · exact tended.lasting child v w last (good child old)

end Merge

namespace Merge
variable {cmp : Comparator} {snapshot : Nat} {records : RecordKind R} {kind : CursorKind C R}

theorem largest_owned (children : List C) : largest cmp snapshot records kind.owned children =
    match pickChild records kind.owned.toChildOps false children with
    | none => none
    | some (i, record) =>
        match children[i]?, records.entryOf record with
        | none, _ => none
        | some picked, none => some ([], none, children.set i (kind.next.go picked))
        | some _, some entry =>
            let consumed := (children.map (kind.seek entry.1.userKey).go).map
              (consume cmp records kind.owned.toChildOps entry.1.userKey)
            let best := (consumed.flatMap Prod.fst).foldl (considerVersion snapshot) none
            some (entry.1.userKey, best.bind payload, consumed.map Prod.snd) := by
  unfold largest
  change (match pickChild records kind.owned.toChildOps false children with
    | none => _ | some (_, _) => _) = _
  rcases pickChild records kind.owned.toChildOps false children with _ | ⟨i, record⟩
  · rfl
  · dsimp only
    cases children[i]? with
    | none => rfl
    | some picked =>
        cases records.entryOf record with
        | none => rfl
        | some entry =>
            have sought : children.mapM (kind.owned.seek entry.1.userKey) =
                children.map (kind.seek entry.1.userKey).go := List.idRun_mapM
            have consumed (l : List C) :
                l.mapM (consume cmp records kind.owned.toChildOps entry.1.userKey) =
                  l.map (consume cmp records kind.owned.toChildOps entry.1.userKey) :=
              List.idRun_mapM
            dsimp only
            rw [← sought, ← consumed]
            rfl

variable (tended : CursorTended around d good kind) {s : Readers}
include tended

theorem ensures_largest {children : List (PinnedChild C)} (here : AllGood good children s) :
    Ensures d s (largest cmp snapshot records (kind.pinned around) children)
      (SameTurn unpin (AllGood good) (largest cmp snapshot records kind.owned (unpin children))) := by
  have stay (t : Readers) (grown : d.le s t) : AllGood good children t :=
    lasting_allGood tended.lasting children s t grown here
  rw [largest_owned]
  refine (ensures_pickChild tended.toTended false here).bind fun r t grown same => ?_
  change r = pickChild records kind.owned.toChildOps false (unpin children) at same
  rw [← same]
  rcases r with _ | ⟨i, record⟩
  · exact .pure fun _ _ => ⟨rfl, nofun⟩
  have place : (unpin children)[i]? = children[i]?.map PinnedChild.child := List.getElem?_map
  dsimp only
  rw [place]
  cases found : children[i]? with
  | none => exact .pure fun _ _ => ⟨rfl, nofun⟩
  | some picked =>
      have inside : picked ∈ children := List.mem_of_getElem? found
      cases records.entryOf record with
      | none =>
          exact ensures_pass tended.toTended (stay t grown) inside i
      | some entry =>
          refine (ensures_mapM tended.lasting (tended.seek entry.1.userKey) (stay t grown)).bind
            fun sought u _ ⟨placed, goes⟩ => ?_
          refine (ensures_consumeAll tended.toTended entry.1.userKey goes).bind
            fun rs v _ ⟨rest, good⟩ => ?_
          refine .pure fun w last => ⟨?_, fun x shown => ?_⟩
          · have all : _ = (unpin sought).map
                (consume cmp records kind.owned.toChildOps entry.1.userKey) := rest
            simp only [Option.map_some, ← placed, ← all]
            simp [unpin, List.flatMap_map, Function.comp_def]
          · obtain rfl := Option.some.inj shown
            exact lasting_allGood tended.lasting _ v w last good

end Merge

/-! ## Forward scans -/

namespace Merge
variable {cmp : Comparator} {snapshot : Nat} {records : RecordKind R} {kind : ChildKind C R} {T : Type}

def scanned (cmp : Comparator) (turn : T → Option (Key × Option Value × T)) (fuel : Nat) (t : T) :
    Option (List (Key × Value)) :=
  match Cursors.rounds turn fuel t with
  | none => none
  | some none => some []
  | some (some (entry, t)) =>
      Cursors.follow (fun last => Cursors.calls (fun key => cmp.compare key last = .gt)
        (Cursors.rounds turn fuel) fuel) fuel entry t

structure Shows (cmp : Comparator) (snapshot : Nat) (records : RecordKind R) (kind : ChildKind C R)
    (p : List C → Prop) (view : List C → T) (turn : T → Option (Key × Option Value × T)) : Prop where
  same : ∀ children, p children → (smallest cmp snapshot records kind.owned children).map
    (Prod.map id (Prod.map id view)) = turn (view children)
  keeps : ∀ children key value rest, p children →
    smallest cmp snapshot records kind.owned children = some (key, value, rest) → p rest

variable {p : List C → Prop} {view : List C → T} {turn : T → Option (Key × Option Value × T)}
  (shows' : Shows cmp snapshot records kind p view turn) (tended : Tended around d good kind)
  {s : Readers}
include shows' tended

omit shows' in
theorem lasting_kept : Lasting d fun children t => AllGood good children t ∧ p (unpin children) :=
  fun children s t grown ⟨all, holds⟩ => ⟨lasting_allGood tended.lasting children s t grown all, holds⟩

theorem ensures_shown {children : List (PinnedChild C)} (here : AllGood good children s)
    (holds : p (unpin children)) : Ensures d s (smallest cmp snapshot records (kind.pinned around) children)
      (SameTurn (view ∘ unpin) (fun children t => AllGood good children t ∧ p (unpin children))
        (turn (view (unpin children)))) := by
  refine (ensures_smallest tended here).mono fun r t _ ⟨same, all⟩ => ⟨?_, fun x inside => ⟨all x inside, ?_⟩⟩
  · rw [← shows'.same _ holds, ← same, Option.map_map]
    rfl
  · obtain ⟨key, value, rest⟩ := x
    refine shows'.keeps _ key value (unpin rest) holds ?_
    rw [← same, Option.mem_def.mp inside]
    rfl

theorem ensures_scan {children : List (PinnedChild C)} (here : AllGood good children s)
    (holds : p ((unpin children).map kind.first.go)) (fuel : Nat) :
    Ensures d s (scan cmp snapshot records (kind.pinned around) fuel children) fun r t =>
      r.map Prod.fst = scanned cmp turn fuel (view ((unpin children).map kind.first.go)) ∧
        ∀ x ∈ r, AllGood good x.2 t ∧ p (unpin x.2) ∧ turn (view (unpin x.2)) = none := by
  have lasting := lasting_kept (p := p) tended
  have rounds (children : List (PinnedChild C)) (s : Readers)
      (kept : AllGood good children s ∧ p (unpin children)) :
      Ensures d s (findSmallest cmp snapshot records (kind.pinned around) fuel children) _ :=
    Ensures.rounds lasting (fun (t : T) (ended : turn t = none) => ended)
      (fun children s kept => ensures_shown shows' tended kept.1 kept.2) fuel kept
  refine (ensures_mapM tended.lasting tended.first here).bind fun first t _ ⟨placed, all⟩ => ?_
  rw [← placed] at holds ⊢
  refine (rounds first t ⟨all, holds⟩).bind fun r u _ ⟨same, kept⟩ => ?_
  change _ = Cursors.rounds turn fuel (view (unpin first)) at same
  rw [scanned, ← same]
  rcases r with _ | ⟨_ | entry, rest⟩
  · exact .pure fun _ _ => ⟨rfl, nofun⟩
  · obtain ⟨⟨all, holds⟩, ended⟩ := kept _ rfl
    refine .pure fun v more => ⟨rfl, fun x shown => ?_⟩
    obtain rfl := Option.some.inj shown
    exact ⟨lasting_allGood tended.lasting _ u v more all, holds, ended rfl⟩
  · have next (last : Key) (children : List (PinnedChild C)) (s : Readers)
        (kept : AllGood good children s ∧ p (unpin children)) :
        Ensures d s (findNext cmp snapshot records (kind.pinned around) fuel last children) _ :=
      Ensures.calls lasting rounds fuel kept
    have followed := Ensures.follow lasting next fuel entry (kept _ rfl).1
    exact followed.mono fun r v _ ⟨same, kept⟩ => ⟨same, fun x inside =>
      ⟨(kept x inside).1.1, (kept x inside).1.2, (kept x inside).2⟩⟩

end Merge

end Refinement
end Lrdb
