import Lrdb.Storage.Flush

namespace Lrdb
open Versions SSTable

inductive Outcome where
  | value (value : Value)
  | deletion
  | absence
  deriving DecidableEq, Repr

def outcome : MemTable.GetResult → Outcome
  | (true, result) => .value result.value
  | (false, result) => if result.status.isDeleted then .deletion else .absence

def Version.tells (version : Version) : Outcome :=
  if version.2.1 = .kDeletion then .deletion else .value version.2.2

theorem outcome_report (value : Value) (found : Option Version) :
    outcome (SSTable.report value found) = (found.map Version.tells).getD .absence := by
  cases found with
  | none => rfl
  | some version =>
      by_cases deleted : version.2.1 = .kDeletion
      · have status : (Status.deleted "Key was deleted").isDeleted := rfl
        simp [SSTable.report, outcome, Version.tells, deleted, status]
      · simp [SSTable.report, outcome, Version.tells, deleted]

/-! ## Versions that stand for others -/

section Covers
variable {reached all : List Version}

def Legible (all : List Version) (version : Version) : Prop :=
  0 < version.1 ∨ ∀ other ∈ all, other.1 ≠ 1

instance (all : List Version) (version : Version) : Decidable (Legible all version) :=
  inferInstanceAs (Decidable (_ ∨ _))

def Covered (reached : List Version) (version : Version) : Prop :=
  ∃ r ∈ reached, r.1 ≤ version.1 ∧ r.tells = version.tells ∧
    ∀ other ∈ reached, other.1 ≤ version.1 → other.1 ≤ r.1

instance (reached : List Version) (version : Version) : Decidable (Covered reached version) := by
  unfold Covered; infer_instance

theorem newest_of_visible (functional : Functional all) {snapshot : Nat} {version : Version}
    (member : version ∈ all) (visible : Visible snapshot version.1)
    (greatest : ∀ other ∈ all, Visible snapshot other.1 → other.1 ≤ version.1) :
    newest (visibleVersions snapshot all) = some version := by
  apply newest_eq_of_max
  · exact functional.subset fun x inside => (mem_visibleVersions.mp inside).1
  · exact mem_visibleVersions.mpr ⟨member, visible⟩
  · intro other inside
    obtain ⟨here, seen⟩ := mem_visibleVersions.mp inside
    exact greatest other here seen

theorem Legible.snapshot (functional : Functional all) {version : Version}
    (legible : Legible all version) (member : version ∈ all) : ∃ snapshot,
      newest (visibleVersions snapshot all) = some version ∧
        ∀ sequence, sequence ≤ version.1 → Visible snapshot sequence := by
  rcases Nat.eq_zero_or_pos version.1 with zero | positive
  · refine ⟨1, newest_of_visible functional member (.inr (by omega)) fun other inside seen => ?_,
      fun sequence le => .inr (by omega)⟩
    have notOne := (legible.resolve_left (by omega)) other inside
    rcases seen with none | le
    · cases none
    · omega
  · refine ⟨version.1, newest_of_visible functional member (.inr le_rfl) fun other inside seen => ?_,
      fun sequence le => .inr le⟩
    exact seen.resolve_left positive.ne'

theorem tells_congr_iff (functional : Functional all) (subset : ∀ r ∈ reached, r ∈ all) :
    (∀ snapshot, (newest (visibleVersions snapshot reached)).map Version.tells =
      (newest (visibleVersions snapshot all)).map Version.tells) ↔
      ∀ version ∈ all, Legible all version → Covered reached version := by
  have functionalReached := functional.subset subset
  constructor
  · intro same version member legible
    obtain ⟨snapshot, found, visible⟩ := legible.snapshot functional member
    have agree := same snapshot
    rw [found, Option.map_some] at agree
    obtain ⟨r, foundR, tells⟩ := Option.map_eq_some_iff.mp agree
    obtain ⟨inside, seen⟩ := mem_visibleVersions.mp (newest_mem foundR)
    refine ⟨r, inside, ?_, tells, fun other here le => ?_⟩
    · exact newest_le found _ (mem_visibleVersions.mpr ⟨subset r inside, seen⟩)
    · exact newest_le foundR _ (mem_visibleVersions.mpr ⟨here, visible _ le⟩)
  · intro covered snapshot
    cases found : newest (visibleVersions snapshot all) with
    | none =>
        have empty : visibleVersions snapshot reached = [] := by
          rw [List.eq_nil_iff_forall_not_mem]
          intro r inside
          obtain ⟨here, seen⟩ := mem_visibleVersions.mp inside
          have visible := mem_visibleVersions.mpr ⟨subset r here, seen⟩
          rw [newest_eq_none.mp found] at visible
          cases visible
        rw [empty]
        rfl
    | some version =>
        obtain ⟨member, seen⟩ := mem_visibleVersions.mp (newest_mem found)
        have above (other : Version) (inside : other ∈ all) (visible : Visible snapshot other.1) :
            other.1 ≤ version.1 := newest_le found _ (mem_visibleVersions.mpr ⟨inside, visible⟩)
        have legible : Legible all version := by
          rcases Nat.eq_zero_or_pos version.1 with zero | positive
          · refine .inr fun other inside one => ?_
            have le := above other inside (by rw [one]; exact (Nat.eq_zero_or_pos snapshot).imp_right id)
            omega
          · exact .inl positive
        obtain ⟨r, inside, le, tells, greatest⟩ := covered version member legible
        have visible : Visible snapshot r.1 := seen.imp_right fun less => le.trans less
        have foundR := newest_of_visible functionalReached inside visible fun other here seen' =>
          greatest other here (above other (subset other here) seen')
        rw [foundR, Option.map_some, Option.map_some, tells]

end Covers

/-! ## What the reader reaches -/

namespace SSTable
variable {cmp : Comparator} {table : SSTable}

def reached (cmp : Comparator) (table : SSTable) (key : Key) : List Version :=
  if table.info.keyInRange cmp key then
    (((findIndexEntry cmp table key).bind fun i => table.blocks[i]?).elim [] fun block =>
      versionsOf key (scanned cmp key block.entries)).reverse
  else []

theorem mem_of_reached {key : Key} {version : Version} (found : version ∈ table.reached cmp key) :
    version ∈ versionsOf key table.entries := by
  unfold reached at found
  split at found
  · cases located : (findIndexEntry cmp table key).bind fun i => table.blocks[i]? with
    | none =>
        rw [located] at found
        cases found
    | some block =>
        rw [located, Option.elim_some, List.mem_reverse] at found
        obtain ⟨entry, inside, rest⟩ := mem_versionsOf.mp found
        obtain ⟨i, -, here⟩ := Option.bind_eq_some_iff.mp located
        refine mem_versionsOf.mpr ⟨entry, List.mem_flatMap.mpr ⟨block, List.mem_of_getElem? here, ?_⟩,
          rest⟩
        exact (List.takeWhile_sublist _).subset inside
  · cases found

theorem choice_eq_reached
    (filtered : ∀ entry ∈ table.entries, table.bloom.all fun f => f.mayContain entry.1.userKey)
    (key : Key) (snapshot : Nat) : table.choice cmp key snapshot =
      newest (visibleVersions snapshot (table.reached cmp key)) := by
  unfold choice
  split
  · rename_i outside
    rw [reached, if_neg outside]
    rfl
  rename_i inside
  split
  · rename_i ruledOut
    have empty : table.reached cmp key = [] := by
      rw [List.eq_nil_iff_forall_not_mem]
      intro version found
      obtain ⟨entry, member, rfl, -⟩ := mem_versionsOf.mp (mem_of_reached found)
      have passes := filtered entry member
      cases filter : table.bloom <;> simp_all
    rw [empty]
    rfl
  · rw [reached, if_pos (not_not.mp inside)]
    cases (findIndexEntry cmp table key).bind fun i => table.blocks[i]? with
    | none => rfl
    | some block =>
        dsimp only
        rw [Option.elim_some, scanBlock_eq_scanned, later_none_right]

def RangeFits (cmp : Comparator) (table : SSTable) : Prop :=
  ∃ front ∈ table.blocks.head?, ∃ back ∈ table.blocks.getLast?,
    table.info.smallestKey = [] ∨ table.info.largestKey = [] ∨
      front.indexKey.userKey = table.info.smallestKey ∧
        ¬ cmp.Before table.info.largestKey back.indexKey.userKey

instance (cmp : Comparator) (table : SSTable) : Decidable (table.RangeFits cmp) := by
  unfold RangeFits; infer_instance

theorem readIndex_ok_iff
    (ascending : table.entries.Pairwise fun a b => cmp.compare a.1.encode b.1.encode = .lt) :
    table.readIndex cmp = .ok ↔ table.RangeFits cmp := by
  have chain : (table.blocks.map fun block => block.indexKey.encode).IsChain fun a b =>
      cmp.compare a b = .lt := by
    refine List.Pairwise.isChain (List.pairwise_map.mpr ?_)
    have apart := (List.pairwise_flatMap.mp ascending).2
    exact apart.imp fun h => h _ (List.mem_cons_self ..) _ (List.mem_cons_self ..)
  unfold readIndex RangeFits
  cases blocks : table.blocks with
  | nil =>
      refine iff_of_false nofun ?_
      rintro ⟨front, first, -⟩
      cases first
  | cons front others =>
      have back : (front :: others).getLast? = some ((front :: others).getLast (by simp)) :=
        List.getLast?_eq_some_getLast _
      rw [blocks] at chain
      simp only [back, List.head?_cons, Option.mem_def, Option.some.injEq, exists_eq_left']
      rw [if_neg (not_not.mpr chain)]
      split
      · rename_i broken
        obtain ⟨smallest, largest, inconsistent⟩ := broken
        refine iff_of_false nofun ?_
        rintro (unset | unset | ⟨starts, ends⟩)
        · exact smallest unset
        · exact largest unset
        · rcases inconsistent with different | after
          · exact different (Comparator.compare_eq.mpr starts)
          · exact ends (Comparator.compare_gt.mp after)
      · rename_i consistent
        refine iff_of_true rfl ?_
        by_contra broken
        simp only [not_or, not_and, not_not] at broken
        refine consistent ⟨broken.1, broken.2.1, ?_⟩
        by_cases starts : front.indexKey.userKey = table.info.smallestKey
        · exact .inr (Comparator.compare_gt.mpr (broken.2.2 starts))
        · exact .inl fun equal => starts (Comparator.compare_eq.mp equal)

end SSTable

def layout (cmp : Comparator) (options : SSTableWriterOptions) (entries : List Entry)
    (fileNumber : Nat) : SSTable :=
  let keys := (sortedEntries entries).map fun entry => entry.1.userKey
  { info := ⟨fileNumber, (keys.find? (· ≠ [])).getD [], keys.getLast?.getD []⟩
    blocks := writtenBlocks cmp options entries
    bloom := BloomFilter.build keys }

theorem Written.eq_layout {cmp : Comparator} {options : SSTableWriterOptions}
    {entries : List Entry} {fileNumber : Nat} {table : SSTable}
    (written : Written cmp options entries fileNumber table) :
    table = layout cmp options entries fileNumber := by
  obtain ⟨contents, blocks, number, -, smallest, largest, bloom⟩ := written
  obtain ⟨⟨fileNumber', smallestKey, largestKey⟩, blocks', bloom'⟩ := table
  dsimp only at number blocks smallest largest bloom
  rw [contents] at smallest largest bloom
  rw [layout, number, blocks, smallest, largest, bloom, List.getLast?_map]

theorem Version.tells_ne_absence (version : Version) : version.tells ≠ .absence := by
  unfold tells
  split <;> exact nofun

theorem tells_getD_inj {a b : Option Version} :
    (a.map Version.tells).getD .absence = (b.map Version.tells).getD .absence ↔
      a.map Version.tells = b.map Version.tells := by
  cases a with
  | none =>
      cases b with
      | none => simp
      | some w => simp [(Version.tells_ne_absence w).symm]
  | some v =>
      cases b with
      | none => simp [Version.tells_ne_absence]
      | some w => simp

theorem outcome_get {cmp : Comparator} (mem : MemTable cmp)
    (plain : ∀ entry ∈ mem.entries, entry.1.type ≠ .kMerge) (key : Key) (snapshot : Nat)
    (value : Value) : outcome (mem.get key snapshot .ok value) =
      ((newest (visibleVersions snapshot (mem.versions key))).map Version.tells).getD .absence := by
  rw [MemTable.get_eq_answer]
  cases found : newest (visibleVersions snapshot (mem.versions key)) with
  | none => rfl
  | some version =>
      obtain ⟨inside, -⟩ := mem_visibleVersions.mp (newest_mem found)
      obtain ⟨entry, member, -, rfl⟩ := mem_versionsOf.mp inside
      have type := plain entry member
      rw [Option.map_some, Option.getD_some, MemTable.answer, Entry.version, Version.tells]
      cases kind : entry.1.type with
      | kValue => rfl
      | kDeletion => rfl
      | kMerge => exact absurd kind type

def FlushRefines (options : SSTableWriterOptions) (mem : MemTable bytewiseComparator)
    (fileNumber : Nat) : Prop :=
  ∃ table, flushEntries bytewiseComparator options mem.entries fileNumber = .ok table ∧
    table.readIndex bytewiseComparator = .ok ∧
    ∀ key snapshot value, outcome (table.get bytewiseComparator key snapshot value) =
      outcome (mem.get key snapshot .ok value)

def Distinct (entries : List Entry) : Prop :=
  ∀ a ∈ entries, ∀ b ∈ entries, a.1.userKey = b.1.userKey → a.1.sequence = b.1.sequence → a = b

instance (entries : List Entry) : Decidable (Distinct entries) := by
  unfold Distinct; infer_instance

theorem Distinct.functional {entries : List Entry} (distinct : Distinct entries) (key : Key) :
    Functional (versionsOf key entries) := by
  intro v hv w hw same
  obtain ⟨a, inside, keyA, rfl⟩ := mem_versionsOf.mp hv
  obtain ⟨b, inside', keyB, rfl⟩ := mem_versionsOf.mp hw
  rw [distinct a inside b inside' (keyA.trans keyB.symm) same]

/-- The file answers as the memtable if and only if its range fits and every version that can be read
is reached, or a version that is reached stands for it. -/
theorem flushRefines_iff (options : SSTableWriterOptions) (mem : MemTable bytewiseComparator)
    (fileNumber : Nat) (plain : ∀ entry ∈ mem.entries, entry.1.type ≠ .kMerge)
    (distinct : Distinct mem.entries) :
    FlushRefines options mem fileNumber ↔
      (layout bytewiseComparator options mem.entries fileNumber).RangeFits bytewiseComparator ∧
        ∀ entry ∈ mem.entries, Legible (mem.versions entry.1.userKey) entry.version →
          Covered ((layout bytewiseComparator options mem.entries fileNumber).reached
            bytewiseComparator entry.1.userKey) entry.version := by
  obtain ⟨table, flushed⟩ := (flushEntries_ok_iff options mem.entries fileNumber).mpr
    (isChain_sortedEntries mem.nodup_keys)
  have written := written_of_flush flushed
  rw [← written.eq_layout]
  have reads (key : Key) : (∀ snapshot value,
      outcome (table.get bytewiseComparator key snapshot value) =
        outcome (mem.get key snapshot .ok value)) ↔
      ∀ version ∈ mem.versions key, Legible (mem.versions key) version →
        Covered (table.reached bytewiseComparator key) version := by
    have subset : ∀ r ∈ table.reached bytewiseComparator key, r ∈ mem.versions key := by
      intro r found
      obtain ⟨entry, member, rest⟩ := mem_versionsOf.mp (mem_of_reached found)
      exact mem_versionsOf.mpr ⟨entry, written.mem.mp member, rest⟩
    have functional : Functional (mem.versions key) := distinct.functional key
    rw [← tells_congr_iff functional subset]
    simp only [get_eq_choice, outcome_report, choice_eq_reached written.filtered, outcome_get mem plain,
      tells_getD_inj]
    exact ⟨fun all snapshot => all snapshot [], fun all snapshot _ => all snapshot⟩
  rw [← readIndex_ok_iff written.ascending]
  constructor
  · rintro ⟨other, flushed', opens, agree⟩
    obtain rfl := Except.ok.inj (flushed.symm.trans flushed')
    refine ⟨opens, fun entry member legible => ?_⟩
    exact (reads entry.1.userKey).mp (agree entry.1.userKey) entry.version
      (mem_versionsOf.mpr ⟨entry, member, rfl, rfl⟩) legible
  · rintro ⟨opens, covered⟩
    refine ⟨table, flushed, opens, fun key => (reads key).mpr ?_⟩
    intro version member legible
    obtain ⟨entry, inside, rfl, rfl⟩ := mem_versionsOf.mp member
    exact covered entry inside legible

def twoKeys : MemTable bytewiseComparator :=
  (((MemTable.new {}).insert {} (.make [107] 1 .kValue) [1]).insert {} (.make [107] 2 .kDeletion)
    []).insert {} (.make [108] 3 .kValue) [3]

theorem flushRefines_twoKeys : FlushRefines {} twoKeys 1 :=
  (flushRefines_iff {} twoKeys 1 (by decide) (by decide)).mpr (by decide +kernel)

def continuedKey : MemTable bytewiseComparator :=
  ((MemTable.new {}).insert {} (.make [97] 1 .kValue) [1]).insert {} (.make [97, 0] 2 .kValue) [2]

theorem flushRefines_not_continuedKey :
    ¬ ∀ (options : SSTableWriterOptions) (mem : MemTable bytewiseComparator) (fileNumber : Nat),
      0 < options.blockSize → (∀ entry ∈ mem.entries, entry.1.type ≠ .kMerge) →
        Distinct mem.entries → FlushRefines options mem fileNumber := by
  intro always
  obtain ⟨table, flushed, opens, -⟩ :=
    always {} continuedKey 1 (by decide) (by decide) (by decide)
  have refused : (flushEntries bytewiseComparator {} continuedKey.entries 1).toOption.any
      fun table => table.readIndex bytewiseComparator ≠ .ok := by decide +kernel
  rw [flushed] at refused
  exact of_decide_eq_true refused opens

end Lrdb
