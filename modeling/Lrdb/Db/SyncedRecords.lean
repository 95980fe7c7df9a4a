import Lrdb.Db.Lifetime

namespace Lrdb
open Versions LSMTree Runs TxManager

namespace TxManager

theorem synced_of_step {m m' : TxManager} {action : TxAction} (stepped : m.step action = some m')
    {txn : Nat} {t' : Transaction} {s : Nat} (found' : m'.txns txn = some t')
    (stage' : t'.stage = .synced s) :
    (∃ t, m.txns txn = some t ∧ t.stage = .synced s) ∨ action = .synced txn true := by
  have still (same : m'.txns = m.txns) : (∃ t, m.txns txn = some t ∧ t.stage = .synced s) ∨
      action = .synced txn true := .inl ⟨t', same ▸ found', stage'⟩
  have moved {other : Nat} {u : Transaction} (same : m'.txns = (m.setTxn other u).txns)
      (elsewhere : u.stage ≠ .synced s) : (∃ t, m.txns txn = some t ∧ t.stage = .synced s) ∨
        action = .synced txn true := by
    rw [same] at found'
    rcases txns_setTxn found' with ⟨-, rfl⟩ | ⟨-, old⟩
    · exact absurd stage' elsewhere
    · exact .inl ⟨t', old, stage'⟩
  cases action with
  | allocate isolation =>
      obtain rfl := Option.some.inj stepped
      exact moved rfl (by simp)
  | synced other success =>
      obtain ⟨t, found, stepped⟩ := Option.bind_eq_some_iff.mp stepped
      unfold synced at stepped
      split at stepped <;> [skip; cases stepped]
      obtain rfl := Option.some.inj stepped
      cases success with
      | false => exact moved rfl (by simp)
      | true =>
          rcases txns_setTxn found' with ⟨rfl, -⟩ | ⟨-, old⟩
          · exact .inr rfl
          · exact .inl ⟨t', old, stage'⟩
  | prepareCommit other order =>
      obtain ⟨t, found, stepped⟩ := Option.bind_eq_some_iff.mp stepped
      unfold prepareCommit at stepped
      split at stepped <;> [skip; cases stepped]
      split at stepped <;> [skip; cases stepped]
      obtain rfl := Option.some.inj stepped
      exact moved rfl (by simp)
  | pick call maxItems order =>
      change m.pick call maxItems order = some m' at stepped
      unfold pick at stepped
      split at stepped <;> [skip; cases stepped]
      dsimp only at stepped
      split at stepped <;> obtain rfl := Option.some.inj stepped <;> exact still rfl
  | wrote call success | markFlushed call =>
      obtain ⟨f, -, stepped⟩ := Option.bind_eq_some_iff.mp stepped
      simp only [wrote, markFlushed] at stepped
      split at stepped <;> [skip; cases stepped]
      obtain rfl := Option.some.inj stepped
      exact still rfl
  | garbageCollect =>
      obtain rfl := Option.some.inj stepped
      exact still rfl
  | release other key =>
      obtain ⟨t, found, stepped⟩ := Option.bind_eq_some_iff.mp stepped
      unfold release at stepped
      split at stepped <;> [skip; cases stepped]
      obtain rfl := Option.some.inj stepped
      exact still rfl
  | insertActive other | copyActive other | readUpLimit other | captureSequence other
  | giveUp other | keepLock other | write other content | markCommitted other | onCommitted other
  | rollback other | markAborted other | onAborted other | releaseAll other =>
      obtain ⟨t, found, stepped⟩ := Option.bind_eq_some_iff.mp stepped
      simp only [insertActive, copyActive, readUpLimit, captureSequence, giveUp, keepLock, write,
        markCommitted, onCommitted, rollback, markAborted, onAborted, releaseAll] at stepped
      split at stepped <;> [skip; cases stepped]
      obtain rfl := Option.some.inj stepped
      exact moved rfl (by simp)
  | acquire other key | wake other | logged other success =>
      obtain ⟨t, found, stepped⟩ := Option.bind_eq_some_iff.mp stepped
      simp only [acquire, wake, logged] at stepped
      split at stepped <;> [skip; cases stepped]
      split at stepped <;> cases stepped <;> exact moved rfl (by simp)

end TxManager

namespace OpenFamily
variable {cmp : Comparator} {options : LSMTreeOptions} {f f' : OpenFamily cmp}

def Synced (f : OpenFamily cmp) (sequence : Nat) : Prop :=
  ∀ key content, f.session.Has key sequence content →
    .ofWrite f.session.columnFamilyId key sequence content ∈ f.session.wal.take f.synced

/-- The tables have nothing beyond the start of the session and its synced records. -/
structure Restorable (f : OpenFamily cmp) : Prop where
  positive : 0 < f.base
  coherent : f.session.manager.Coherent f.base
  logged : f.session.Logged
  prepared : ∀ txn t s, f.session.manager.txns txn = some t → t.stage = .synced s → f.Synced s
  committed : ∀ c ∈ f.session.manager.commits, f.Synced c.sequence
  tree : f.session.lsm.Below
    (max f.base (greatestSequence [f.session.wal.take f.synced] + 1))

theorem take_prefix_of_step {action : SessionAction} (stepped : f.step options action = some f') :
    f.session.wal.take f.synced <+: f'.session.wal.take f'.synced := by
  obtain ⟨session, moved, rfl⟩ := Option.map_eq_some_iff.mp stepped
  have grown : f.session.wal <+: session.wal := by
    obtain ⟨-, same | ⟨_, _, _, _, _, _, -, -, more⟩⟩ := Session.wal_step moved
    · exact same ▸ List.prefix_rfl
    · exact more ▸ List.prefix_append ..
  have whole : f.session.wal.take f.synced <+: session.wal := (List.take_prefix ..).trans grown
  refine List.prefix_take_iff.mpr ⟨whole, ?_⟩
  show _ ≤ f.syncedBy action session
  unfold syncedBy
  split
  · exact whole.length_le
  · exact List.length_take_le ..

theorem Synced.step {sequence : Nat} (synced : f.Synced sequence) {action : SessionAction}
    (stepped : f.step options action = some f')
    (idle : ∀ txn t rest, f.session.manager.txns txn = some t → t.stage ≠ .logging sequence rest) :
    f'.Synced sequence := by
  have kept := (take_prefix_of_step stepped).subset
  obtain ⟨session, moved, rfl⟩ := Option.map_eq_some_iff.mp stepped
  obtain ⟨family, outcome⟩ := Session.wal_step moved
  intro key content has
  have before : f.session.Has key sequence content := by
    rw [Session.Has] at has ⊢
    rw [family] at has
    rcases outcome with same | ⟨txn, t, s, other, rest, written, found, stage, more⟩
    · exact same ▸ has
    · rw [more] at has
      refine (List.mem_append.mp has).resolve_right fun last => ?_
      obtain ⟨-, rfl, -⟩ := WALRecord.ofWrite_inj (List.mem_singleton.mp last)
      exact idle txn t _ found stage
  show _ ∈ session.wal.take (f.syncedBy action session)
  rw [family]
  exact kept (synced key content before)

theorem synced_of_sync {txn sequence : Nat}
    (stepped : f.step options (.transaction (.synced txn true)) = some f') : f'.Synced sequence := by
  obtain ⟨session, moved, rfl⟩ := Option.map_eq_some_iff.mp stepped
  intro key content has
  show _ ∈ session.wal.take session.wal.length
  rwa [List.take_length]

theorem Restorable.step (restorable : f.Restorable) {action : SessionAction}
    (stepped : f.step options action = some f') : f'.Restorable := by
  have coherent := restorable.coherent
  have kept := take_prefix_of_step stepped
  have prepared {txn : Nat} {t : Transaction} {s : Nat} (found : f.session.manager.txns txn = some t)
      (stage : t.stage = .synced s) : f'.Synced s := by
    refine (restorable.prepared txn t s found stage).step stepped ?_
    intro other u rest found' stage'
    obtain rfl := coherent.distinct txn other t u s found found' (by rw [stage]; rfl)
      (by rw [stage']; rfl)
    obtain rfl := Option.some.inj (found.symm.trans found')
    cases stage.symm.trans stage'
  have committed {c : Commit} (member : c ∈ f.session.manager.commits) : f'.Synced c.sequence := by
    refine (restorable.committed c member).step stepped ?_
    intro other u rest found' stage'
    obtain ⟨-, -, fresh, -⟩ := coherent.prepared other u c.sequence found' (by rw [stage']; rfl)
    exact fresh c member rfl
  have base : f'.base = f.base := by
    obtain ⟨session, -, rfl⟩ := Option.map_eq_some_iff.mp stepped
    rfl
  obtain ⟨session, moved, session_eq⟩ :
      ∃ session, f.session.step options action = some session ∧ f'.session = session := by
    obtain ⟨session, moved, rfl⟩ := Option.map_eq_some_iff.mp stepped
    exact ⟨session, moved, rfl⟩
  have grown : greatestSequence [f.session.wal.take f.synced] ≤
      greatestSequence [f'.session.wal.take f'.synced] :=
    greatestSequence_mono (by simpa using kept.subset)
  have tree := restorable.tree.mono
    (max_le_max_left f.base (Nat.add_le_add_right grown 1))
  refine ⟨base ▸ restorable.positive, ?_, ?_, ?_, ?_, ?_⟩
  · rw [base, session_eq]
    exact Session.coherent_step moved coherent
  · rw [session_eq]
    exact restorable.logged.step coherent moved
  · intro txn t' s found' stage'
    rw [session_eq] at found'
    rcases Session.step_action moved with same | ⟨a, origin, managed⟩
    · exact prepared (same ▸ found') stage'
    rcases synced_of_step managed found' stage' with ⟨t, found, stage⟩ | rfl
    · exact prepared found stage
    · rcases origin with rfl | external
      · exact synced_of_sync stepped
      · cases external
  · intro c member
    rw [session_eq] at member
    rcases (Session.session_effect moved).commits with same | ⟨txn, t, s, found, stage, more⟩
    · exact committed (same ▸ member)
    · rw [more] at member
      rcases List.mem_cons.mp member with rfl | old
      · exact prepared found stage
      · exact committed old
  · rw [base, session_eq]
    rw [session_eq] at tree
    cases Session.step_tree coherent restorable.positive moved with
    | same lsm => exact lsm ▸ tree
    | switched lsm => exact lsm ▸ tree.switched
    | flushed _ status lsm => exact tree.flushOldest lsm
    | written call _ item next lsm =>
        -- A flush writes what is committed, and so synced.
        refine lsm ▸ tree.landing.store (lt_max_of_lt_right (Nat.lt_succ_of_le ?_))
        obtain ⟨c, member, sequence, content⟩ :=
          mem_history.mp (Session.item_committed coherent next).2
        obtain ⟨last, head⟩ := Option.ne_none_iff_exists'.mp
          (mt List.head?_eq_none_iff.mp (List.ne_nil_of_mem content))
        have has := (restorable.logged.commits c member item.1 last).mpr head
        have synced := kept.subset (restorable.committed c member item.1 last has)
        have le := le_greatestSequence (List.mem_flatten_of_mem (List.mem_singleton_self _) synced)
        rw [WALRecord.sequenceNumber_ofWrite, sequence, session_eq] at le
        exact le

end OpenFamily

end Lrdb
