import Lrdb.Concurrency.VersionChainManager

namespace Lrdb.Chain

def Superseded (chain : Chain) (r : VersionRecord) : Prop :=
  r.isCommitted ∧ r.flushed ∧ chain.find? VersionRecord.isCommitted ≠ some r

instance (chain : Chain) (r : VersionRecord) : Decidable (Superseded chain r) := by
  unfold Superseded; infer_instance

theorem superseded_cons {chain : Chain} {newer : VersionRecord}
    (notCommitted : newer.isCommitted = false) (r : VersionRecord) :
    Superseded (newer :: chain) r ↔ Superseded chain r := by
  simp [Superseded, notCommitted]

theorem of_mem_collect_true {chain : Chain} {r : VersionRecord} (member : r ∈ collect true chain) :
    r.isActive ∨ r.isCommitted ∧ r.flushed = false := by
  induction chain with
  | nil => cases member
  | cons a rest ih =>
      rw [collect] at member
      cases state : a.state with
      | kActive =>
          simp only [state] at member
          rcases List.mem_cons.mp member with rfl | later
          · exact .inl (by simp [VersionRecord.isActive, state])
          · exact ih later
      | kCommitted =>
          simp only [state] at member
          split at member
          · rename_i kept
            rcases List.mem_cons.mp member with rfl | later
            · exact .inr ⟨by simp [VersionRecord.isCommitted, state], by simpa using kept⟩
            · exact ih later
          · exact ih member
      | kAborted =>
          simp only [state] at member
          exact ih member

section
variable {chain : Chain} {sees : VersionRecord → Bool}

def SkipsAborted (sees : VersionRecord → Bool) : Prop := ∀ r, r.isAborted → sees r = false

theorem find?_collect_true
    (top : chain.Pairwise fun newer older => older.isActive → ¬ newer.isCommitted)
    (descending : Descending chain) (below : FlushedBelow chain) (skips : SkipsAborted sees) :
    (collect true chain).find? sees =
      (chain.find? sees).filter fun r => !(r.isCommitted && r.flushed) := by
  induction chain with
  | nil => rfl
  | cons r rs ih =>
      have tail := descending.sublist (List.sublist_cons_self r rs)
      have tailBelow : FlushedBelow rs := fun a ha b hb =>
        below a (List.mem_cons_of_mem _ ha) b (List.mem_cons_of_mem _ hb)
      obtain ⟨here, tailTop⟩ := List.pairwise_cons.mp top
      have later := ih tailTop tail tailBelow
      rw [collect]
      cases state : r.state with
      | kActive =>
          have notCommitted : r.isCommitted = false := by simp [VersionRecord.isCommitted, state]
          by_cases seen : sees r
          · simp [seen, notCommitted, Option.filter_some]
          · simp [seen, later]
      | kCommitted =>
          have isCommitted : r.isCommitted := by simp [VersionRecord.isCommitted, state]
          by_cases flushed : r.flushed
          · simp only [flushed, Bool.not_true, Bool.or_false, Bool.false_eq_true, if_false]
            by_cases seen : sees r
            · -- Everything below is committed and flushed, so nothing of it is kept.
              have nothing : (collect true rs).find? sees = none := by
                refine List.find?_eq_none.mpr fun a kept _ => ?_
                have inside := (collect_sublist true rs).subset kept
                rcases of_mem_collect_true kept with active | ⟨committed, unflushed⟩
                · exact here a inside active isCommitted
                · have older := (List.pairwise_cons.mp descending.sequences).1 a inside isCommitted
                    committed
                  have marked := below r (List.mem_cons_self ..) a (List.mem_cons_of_mem _ inside)
                    isCommitted flushed committed older
                  rw [unflushed] at marked
                  cases marked
              simp [nothing, seen, isCommitted, flushed, Option.filter_some]
            · simp [seen, later]
          · by_cases seen : sees r
            · simp [flushed, seen, Option.filter_some]
            · simp [flushed, seen, later]
      | kAborted =>
          have unseen : sees r = false := skips r (by simp [VersionRecord.isAborted, state])
          simp [unseen, later]

theorem find?_collect_false
    (top : chain.Pairwise fun newer older => older.isActive → ¬ newer.isCommitted)
    (descending : Descending chain) (below : FlushedBelow chain) (skips : SkipsAborted sees) :
    (collect false chain).find? sees = (chain.find? sees).filter fun r => !Superseded chain r := by
  induction chain with
  | nil => rfl
  | cons r rs ih =>
      have tail := descending.sublist (List.sublist_cons_self r rs)
      have tailBelow : FlushedBelow rs := fun a ha b hb =>
        below a (List.mem_cons_of_mem _ ha) b (List.mem_cons_of_mem _ hb)
      have tailTop := (List.pairwise_cons.mp top).2
      rw [collect]
      cases state : r.state with
      | kActive =>
          have notCommitted : r.isCommitted = false := by simp [VersionRecord.isCommitted, state]
          by_cases seen : sees r
          · simp [seen, Superseded, notCommitted, Option.filter_some]
          · simp only [List.find?_cons, seen, ih tailTop tail tailBelow,
              superseded_cons notCommitted]
      | kCommitted =>
          have isCommitted : r.isCommitted := by simp [VersionRecord.isCommitted, state]
          by_cases seen : sees r
          · simp [seen, Superseded, isCommitted, Option.filter_some]
          · -- The scan goes on to an older version, which is not the newest committed one.
            have other : ∀ a ∈ rs.find? sees, r ≠ a := by
              rintro a found rfl
              exact seen (List.find?_some found)
            simp only [Bool.not_false, Bool.true_or, if_true, List.find?_cons,
              Bool.not_eq_true _ |>.mp seen, find?_collect_true tailTop tail tailBelow skips]
            cases found : rs.find? sees with
            | none => rfl
            | some a => simp [Superseded, isCommitted, other a found, Option.filter]
      | kAborted =>
          have unseen : sees r = false := skips r (by simp [VersionRecord.isAborted, state])
          have notCommitted : r.isCommitted = false := by simp [VersionRecord.isCommitted, state]
          simp only [List.find?_cons, unseen, ih tailTop tail tailBelow,
            superseded_cons notCommitted]

theorem find?_garbageCollect
    (top : chain.Pairwise fun newer older => older.isActive → ¬ newer.isCommitted)
    (descending : Descending chain) (below : FlushedBelow chain) (skips : SkipsAborted sees) :
    (garbageCollect chain).find? sees = (chain.find? sees).filter fun r => !Superseded chain r := by
  have skipping {p : VersionRecord → Bool} (skips : SkipsAborted p) :
      (chain.filter fun r => !r.isAborted).find? p = chain.find? p := by
    rw [List.find?_filter]
    refine congrArg (fun q => chain.find? q) (funext fun r => ?_)
    by_cases aborted : r.isAborted
    · simp [aborted, skips r aborted]
    · simp [aborted]
  have newest : (chain.filter fun r => !r.isAborted).find? VersionRecord.isCommitted =
      chain.find? VersionRecord.isCommitted :=
    skipping fun r aborted => by
      simp_all [VersionRecord.isAborted, VersionRecord.isCommitted]
  rw [garbageCollect, find?_collect_false (top.sublist List.filter_sublist)
    (descending.sublist List.filter_sublist) _ skips, skipping skips]
  · simp only [Superseded, newest]
  · exact fun a ha b hb => below a (List.mem_of_mem_filter ha) b (List.mem_of_mem_filter hb)

end
end Lrdb.Chain
