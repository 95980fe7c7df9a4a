import Lrdb.Wal.WholeFiles

namespace Lrdb
open Frames Ranks Runs

/-! ## Explicit transactions -/

def WALRecord.IsData (r : WALRecord) : Prop :=
  r.type ≠ .kBeginTransaction ∧ r.type ≠ .kCommitTransaction ∧ r.type ≠ .kAbortTransaction

instance (r : WALRecord) : Decidable r.IsData := inferInstanceAs (Decidable (_ ∧ _))

def Explicit (txn : Nat) (log : Log) (data ends : List WALRecord) : Prop :=
  ∃ first, log.filter (·.transactionId = txn) = first :: (data ++ ends) ∧
    first.type = .kBeginTransaction ∧ (∀ r ∈ data, r.IsData) ∧
    (ends = [] ∨ ∃ last, ends = [last] ∧
      (last.type = .kCommitTransaction ∨ last.type = .kAbortTransaction))

def Committed (ends : List WALRecord) : Prop := ∃ r ∈ ends, r.type = .kCommitTransaction

instance (ends : List WALRecord) : Decidable (Committed ends) := by unfold Committed; infer_instance

def own (held : List WALRecord) : List WALRecord → List WALRecord
  | [] => []
  | r :: rest =>
      match r.type with
      | .kBeginTransaction => own held rest
      | .kCommitTransaction => held ++ own [] rest
      | .kAbortTransaction => own [] rest
      | _ => own (held ++ [r]) rest

theorem effective_filter {txn : Nat} (explicit : txn ≠ 0) (log : Log) {buffers : Nat → List WALRecord}
    (owned : ∀ t, ∀ r ∈ buffers t, r.transactionId = t) :
    (effective buffers log).filter (·.transactionId = txn) =
      own (buffers txn) (log.filter (·.transactionId = txn)) := by
  induction log generalizing buffers with
  | nil => rfl
  | cons r rest ih =>
      have ownedUpdate (held : List WALRecord) (all : ∀ x ∈ held, x.transactionId = r.transactionId)
          (t : Nat) : ∀ x ∈ Function.update buffers r.transactionId held t, x.transactionId = t := by
        rcases eq_or_ne t r.transactionId with rfl | other
        · rwa [Function.update_self]
        · rw [Function.update_of_ne other]
          exact owned t
      have dropped := ownedUpdate [] (List.forall_mem_nil _)
      have grown := ownedUpdate (buffers r.transactionId ++ [r])
        (List.forall_mem_append.mpr ⟨owned r.transactionId, by simp⟩)
      rw [effective]
      by_cases plain : r.transactionId = 0
      · have other : r.transactionId ≠ txn := fun same => explicit (same.symm.trans plain)
        rw [if_pos plain, List.filter_cons_of_neg (by simpa using other),
          List.filter_cons_of_neg (by simpa using other)]
        exact ih owned
      rw [if_neg plain]
      rcases eq_or_ne r.transactionId txn with rfl | other
      · rw [List.filter_cons_of_pos (by simp), own]
        have all : (buffers r.transactionId).filter (·.transactionId = r.transactionId) =
            buffers r.transactionId :=
          List.filter_eq_self.mpr fun x member => by simpa using owned _ x member
        cases r.type with
        | kBeginTransaction => exact ih owned
        | kCommitTransaction =>
            dsimp only
            rw [List.filter_append, all, ih dropped, Function.update_self]
        | kAbortTransaction =>
            dsimp only
            rw [ih dropped, Function.update_self]
        | kPut | kDelete | kMerge | kCheckpoint | kFlushMemTable | kCreateColumnFamily
        | kDropColumnFamily | kUpdateColumnFamilyOptions | unknown byte =>
            dsimp only
            rw [ih grown, Function.update_self]
      · rw [List.filter_cons_of_neg (by simpa using other)]
        have none : (buffers r.transactionId).filter (·.transactionId = txn) = [] := by
          apply List.filter_eq_nil_iff.mpr
          intro x member
          rw [owned _ x member]
          simpa using other
        cases r.type with
        | kBeginTransaction => exact ih owned
        | kCommitTransaction =>
            dsimp only
            rw [List.filter_append, none, ih dropped, Function.update_of_ne other.symm]
            rfl
        | kAbortTransaction =>
            dsimp only
            rw [ih dropped, Function.update_of_ne other.symm]
        | kPut | kDelete | kMerge | kCheckpoint | kFlushMemTable | kCreateColumnFamily
        | kDropColumnFamily | kUpdateColumnFamilyOptions | unknown byte =>
            dsimp only
            rw [ih grown, Function.update_of_ne other.symm]

theorem own_data {data : List WALRecord} (all : ∀ r ∈ data, r.IsData) (held ends : List WALRecord) :
    own held (data ++ ends) = own (held ++ data) ends := by
  induction data generalizing held with
  | nil => simp
  | cons r rest ih =>
      obtain ⟨⟨notBegin, notCommit, notAbort⟩, later⟩ := List.forall_mem_cons.mp all
      have next := ih later (held ++ [r])
      rw [List.append_assoc, List.singleton_append] at next
      rw [List.cons_append, own]
      cases type : r.type with
      | kBeginTransaction => exact absurd type notBegin
      | kCommitTransaction => exact absurd type notCommit
      | kAbortTransaction => exact absurd type notAbort
      | kPut | kDelete | kMerge | kCheckpoint | kFlushMemTable | kCreateColumnFamily
      | kDropColumnFamily | kUpdateColumnFamilyOptions | unknown byte => exact next

theorem effective_explicit {txn : Nat} (nonzero : txn ≠ 0) {log : Log} {data ends : List WALRecord}
    (explicit : Explicit txn log data ends) :
    (effective (fun _ => []) log).filter (·.transactionId = txn) =
      if Committed ends then data else [] := by
  obtain ⟨first, records, begins, all, ending⟩ := explicit
  rw [effective_filter nonzero log (fun _ _ member => absurd member List.not_mem_nil), records, own,
    begins]
  dsimp only
  rw [own_data all, List.nil_append]
  rcases ending with rfl | ⟨last, rfl, commit | abort⟩
  · rw [if_neg (by simp [Committed])]
    rfl
  · rw [if_pos (by simp [Committed, commit]), own, commit]
    exact List.append_nil _
  · rw [if_neg (by simp [Committed, abort]), own, abort]
    rfl

/-! ## The files -/

namespace WALDisk

/-- Of two files with records the later one has the greater path, and fewer than a thousand paths
come before each of them. -/
def PathsFollow (d : WALDisk) : Prop :=
  (∀ f ∈ d, ∀ g ∈ d, f.records ≠ [] → g.records ≠ [] → f.number < g.number → f.path < g.path) ∧
    ∀ f ∈ d, f.records ≠ [] → rank LogFile.path d f < 1000

instance (d : WALDisk) : Decidable d.PathsFollow := by unfold PathsFollow; infer_instance

def filled (f : LogFile) : Bool := f.records ≠ []

theorem map_numbered (fs : List LogFile) :
    (fs.flatMap LogFile.numbered).map Prod.snd = fs.flatMap (·.records) := by
  induction fs with
  | nil => rfl
  | cons f rest ih => simp [LogFile.numbered, ih]

theorem flatMap_numbered_filter (fs : List LogFile) :
    (fs.filter filled).flatMap LogFile.numbered = fs.flatMap LogFile.numbered := by
  induction fs with
  | nil => rfl
  | cons f rest ih =>
      by_cases empty : f.records = []
      · rw [List.filter_cons_of_neg (by simp [filled, empty]), List.flatMap_cons, ih]
        simp [LogFile.numbered, empty]
      · rw [List.filter_cons_of_pos (by simpa [filled] using empty), List.flatMap_cons,
          List.flatMap_cons, ih]

theorem flatMap_numbered_inj {d fs gs : List LogFile}
    (apart : ∀ f ∈ d, ∀ g ∈ d, f.number = g.number → f = g)
    (left : ∀ f ∈ fs, f ∈ d ∧ f.records ≠ []) (right : ∀ g ∈ gs, g ∈ d ∧ g.records ≠ [])
    (same : fs.flatMap LogFile.numbered = gs.flatMap LogFile.numbered) : fs = gs := by
  have starts {f : LogFile} (written : f.records ≠ []) :
      ∃ r more, f.numbered = (f.number, r) :: more := by
    obtain ⟨r, more, parts⟩ := List.exists_cons_of_ne_nil written
    exact ⟨r, more.map (f.number, ·), by rw [LogFile.numbered, parts]; rfl⟩
  induction fs generalizing gs with
  | nil =>
      cases gs with
      | nil => rfl
      | cons g gs =>
          obtain ⟨r, more, first⟩ := starts (right g List.mem_cons_self).2
          rw [List.flatMap_cons, first] at same
          cases same
  | cons f fs ih =>
      obtain ⟨⟨member, written⟩, later⟩ := List.forall_mem_cons.mp left
      obtain ⟨r, more, first⟩ := starts written
      cases gs with
      | nil =>
          rw [List.flatMap_cons, first] at same
          cases same
      | cons g gs =>
          obtain ⟨⟨member', written'⟩, later'⟩ := List.forall_mem_cons.mp right
          obtain ⟨r', more', first'⟩ := starts written'
          have number : f.number = g.number := by
            rw [List.flatMap_cons, List.flatMap_cons, first, first'] at same
            exact congrArg Prod.fst (List.cons.inj same).1
          obtain rfl := apart f member g member' number
          rw [List.flatMap_cons, List.flatMap_cons, List.append_cancel_left_eq] at same
          rw [ih later later' same]

/-- Replay meets the records in the order of their files' numbers. -/
theorem walFiles_eq_iff {d : WALDisk} (ascending : Ranks.Ascending LogFile.number d) :
    d.walFiles.flatMap LogFile.numbered = d.flatMap LogFile.numbered ↔ d.PathsFollow := by
  have distinct : d.Pairwise fun f g => f.path ≠ g.path :=
    List.Pairwise.imp (fun less same => absurd (LogFile.number_eq_of_path same).2 less.ne) ascending
  have whole : d.walFiles.flatMap LogFile.numbered = d.flatMap LogFile.numbered ↔
      d.walFiles.filter filled = d.filter filled := by
    rw [← flatMap_numbered_filter d, ← flatMap_numbered_filter d.walFiles]
    constructor
    · apply flatMap_numbered_inj (d := d) (fun f left g right => ascending.inj left right)
      · intro f member
        obtain ⟨here, written⟩ := List.mem_filter.mp member
        exact ⟨mem_sorted.mp (List.mem_of_mem_take here), of_decide_eq_true written⟩
      · intro f member
        obtain ⟨here, written⟩ := List.mem_filter.mp member
        exact ⟨here, of_decide_eq_true written⟩
    · exact fun same => by rw [same]
  have numbers : Ranks.Ascending LogFile.number (d.filter filled) :=
    List.Pairwise.sublist List.filter_sublist ascending
  rw [whole, walFiles, filter_take_sorted_eq_iff distinct, PathsFollow, Ranks.Ascending,
    numbers.pairwise_iff]
  apply and_congr
  · constructor
    · intro follow f left g right written written' less
      exact follow f (List.mem_filter.mpr ⟨left, decide_eq_true written⟩) g
        (List.mem_filter.mpr ⟨right, decide_eq_true written'⟩) less
    · intro follow f left g right less
      obtain ⟨left, written⟩ := List.mem_filter.mp left
      obtain ⟨right, written'⟩ := List.mem_filter.mp right
      exact follow f left g right (of_decide_eq_true written) (of_decide_eq_true written') less
  · simp [filled]

end WALDisk

namespace WALManager
variable {cmp : Comparator}

def log (m : WALManager) : Log := m.written.map Prod.snd

/-- Recovery replays every record where it was written, in the order of writing, and of explicit
transactions it applies the data exactly when the commit was logged. -/
structure ReplaysInOrder (cmp : Comparator) (options : LSMTreeOptions) (sstables : SSTableManager)
    (m : WALManager) : Prop where
  order : m.disk.walFiles.flatMap LogFile.numbered = m.written
  recovers : ∃ outcome : Recovery cmp × SSTableManager,
    recoverFromWAL options sstables (m.disk.walFiles.map LogFile.content) = .ok outcome ∧
      outcome.1.applied = m.log ∧
      (effective (fun _ => []) m.log).foldlM (ReplayState.applyRecord options.memtable)
        (MemTable.new options.memtable) = .ok outcome.1.state.memtable
  transactions : ∀ txn ≠ 0, ∀ data ends, Explicit txn m.log data ends →
    (effective (fun _ => []) m.log).filter (·.transactionId = txn) =
      if Committed ends then data else []

/-- After any run of one session, recovery replays the log in the order of writing if and only if
the paths follow that order and the log has nothing that recovery refuses. -/
theorem replaysInOrder_iff (number : Nat) (options : LSMTreeOptions) {sstables : SSTableManager}
    (fresh : sstables.Fresh) {m : WALManager} (run : Run step free (opened number) m) :
    ReplaysInOrder cmp options sstables m ↔
      m.disk.PathsFollow ∧ (∀ r ∈ m.log, r.Readable) ∧ Replayable m.log ∧
        FlushOrdered cmp options.memtable m.log := by
  have consecutive : m.Consecutive :=
    Run.invariant (fun _ _ _ _ stepped ordered => ordered.step stepped) run
      (consecutive_opened number)
  have followed := WALDisk.walFiles_eq_iff consecutive.ascending
  rw [← consecutive.written] at followed
  have valid : ∀ r ∈ m.disk.walFiles.flatMap (·.records), r.Valid := by
    intro r member
    obtain ⟨f, listed, here⟩ := List.mem_flatMap.mp member
    exact consecutive.valid f (mem_sorted.mp (List.mem_of_mem_take listed)) r here
  have recovers := @recoversWhole_iff cmp options _ fresh _ valid
  rw [← followed]
  constructor
  · rintro ⟨order, outcome, -⟩
    rw [← WALDisk.map_numbered, order] at recovers
    exact ⟨order, recovers.mp outcome⟩
  · rintro ⟨order, conditions⟩
    rw [← WALDisk.map_numbered, order] at recovers
    exact ⟨order, recovers.mpr conditions, fun _ nonzero _ _ explicit =>
      effective_explicit nonzero explicit⟩

theorem replaysInOrder_oneFile :
    ∃ m, execute step (opened 1) [.write (.ofWrite 0 [107] 1 (some [1])) {},
        .write (.ofWrite 0 [107] 2 none) {}] = some m ∧
      ReplaysInOrder bytewiseComparator {} .new m := by
  have holds : (execute step (opened 1) [.write (.ofWrite 0 [107] 1 (some [1])) {},
      .write (.ofWrite 0 [107] 2 none) {}]).any fun m => decide (m.disk.PathsFollow ∧
        (∀ r ∈ m.log, r.Readable) ∧ Replayable m.log) := by decide +kernel
  obtain ⟨m, executed, holds⟩ := Option.any_eq_true _ _ |>.mp holds
  obtain ⟨follow, readable, replayable⟩ := of_decide_eq_true holds
  have run := execute_run _ (allowed_free _ _ _) executed
  exact ⟨m, executed, (replaysInOrder_iff 1 {} SSTableManager.fresh_new run).mpr
    ⟨follow, readable, replayable, flushOrdered_bytewise _ _⟩⟩

theorem replaysInOrder_not_archived :
    ¬ ∀ (number : Nat) (m : WALManager), Run step free (opened number) m →
      ReplaysInOrder bytewiseComparator {} .new m := by
  intro always
  have wrong : (execute step (opened 1) [.setMaxWALSize 39,
      .write (.ofWrite 0 [107] 1 (some [1])) {}, .write (.ofWrite 0 [107] 2 none) {}]).any
        fun m => decide (m.disk.walFiles.flatMap LogFile.numbered ≠ m.written) := by decide +kernel
  obtain ⟨m, executed, wrong⟩ := Option.any_eq_true _ _ |>.mp wrong
  have run := execute_run _ (allowed_free _ _ _) executed
  exact absurd (always 1 m run).order (of_decide_eq_true wrong)

end WALManager
end Lrdb
