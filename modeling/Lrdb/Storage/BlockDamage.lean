import Lrdb.Storage.TableGet
import Lrdb.Storage.TableSeek

namespace Lrdb
namespace TableFile
open Records SSTableReader

namespace SSTableIterator
variable {reader : SSTableReader} {it it' : SSTableIterator} {b : Nat} {data rest left : Bytes}
  {passed : List (Bytes × Value)} {current : Bytes × Value} {order : Bytes → Bytes → Ordering}
  {target : Key}

def Reports (reader : SSTableReader) (it : SSTableIterator) : Prop :=
  it.isValid reader = false ∧ it.status.isCorruption

theorem isValid_eq_false (invalid : it.valid = false) : it.isValid reader = false := by
  rw [isValid, invalid, Bool.false_and]

theorem isValid_in (inside : b < reader.index.length) (stands : StandsAt it passed current rest)
    (block : it.currentBlock = b) : it.isValid reader = true := by
  rw [isValid, stands.valid, block]
  simpa using inside

theorem not_reports_of_valid (valid : it.isValid reader = true) : ¬ Reports reader it := by
  intro reports
  rw [reports.1] at valid
  cases valid

theorem Ended.reports (ended : Ended it it' left) (damaged : left ≠ []) : Reports reader it' :=
  ⟨isValid_eq_false ended.valid, ended.damaged damaged⟩

/-! ## Seeks -/

theorem reports_first_iff (block : HasBlock reader b data) :
    Reports reader (it.loadAnd reader b parseCurrentEntry) ↔ getEntry data = none := by
  rw [loadAnd_of_block block]
  have behind := behind_loaded it b data
  cases found : getEntry data with
  | none =>
      obtain ⟨ended, -, parsed⟩ := ended_of_left behind found
      rw [parsed]
      exact ⟨fun _ => rfl, fun _ => ended.reports block.filled⟩
  | some pair =>
      obtain ⟨e, rest⟩ := pair
      rw [parse_taken behind found]
      have stands := standsAt_taken behind (Or.inl rfl) found
      simp only [reduceCtorEq, iff_false]
      exact not_reports_of_valid (isValid_in block.inside stands rfl)

theorem index_filled (block : HasBlock reader b data) : ¬ reader.index.isEmpty := by
  have inside := block.inside
  rw [List.isEmpty_iff]
  intro empty
  rw [empty] at inside
  exact Nat.not_lt_zero _ inside

theorem reports_seekToFirst_iff (block : HasBlock reader 0 data) :
    Reports reader (it.seekToFirst reader) ↔ getEntry data = none := by
  rw [seekToFirst, if_neg (index_filled block)]
  exact reports_first_iff block

theorem reports_seekToLast_iff (block : HasBlock reader b data) (last : b + 1 = reader.index.length) :
    Reports reader (it.seekToLast reader) ↔ leftOver getEntry data ≠ [] := by
  have number : (reader.index.length : Int) - 1 = (b : Int) := by omega
  rw [seekToLast, if_neg (index_filled block), number, loadAnd_of_block block]
  have filled : (it.loaded b data).blockData ≠ [] := block.filled
  by_cases whole : leftOver getEntry data = []
  · obtain ⟨passed, current, -, stands, same, -⟩ :=
      @seekToLastInBlock_of_whole (it.loaded b data) (Or.inl rfl) filled whole
    simp only [whole, ne_eq, not_true_eq_false, iff_false]
    exact not_reports_of_valid (isValid_in block.inside stands same.currentBlock)
  · obtain ⟨invalid, status⟩ := seekToLastInBlock_of_damaged filled whole
    exact ⟨fun _ => whole, fun _ => ⟨isValid_eq_false invalid, status⟩⟩

theorem seekPlace_eq_none_iff {entries : List (Bytes × Value)} :
    seekPlace order target entries = none ↔ ∀ e ∈ everyOther entries, order e.1 target = .lt := by
  fun_induction seekPlace order target entries with
  | case1 => simp [everyOther]
  | case2 e below | case3 e below => simp [everyOther, below]
  | case4 e e' rest below ih => simp [everyOther, below, ih]
  | case5 e e' rest below => simp [everyOther, below]

theorem reports_seek_iff (block : HasBlock reader b data)
    (found : reader.findIndexEntry order target = some b) :
    Reports reader (it.seek reader order target) ↔ leftOver getEntry data ≠ [] ∧
      ∀ e ∈ everyOther (records getEntry data), order e.1 target = .lt := by
  rw [seek, found]
  dsimp only
  rw [loadAnd_of_block block]
  have sought := @seekInBlock_sought (it.loaded b data) order target (Or.inl rfl)
  rw [show (it.loaded b data).blockData = data from rfl] at sought
  rw [← seekPlace_eq_none_iff]
  cases place : seekPlace order target (records getEntry data) with
  | none =>
      rw [place] at sought
      by_cases whole : leftOver getEntry data = []
      · have status := sought.ended whole
        simp only [whole, ne_eq, not_true_eq_false, false_and, iff_false]
        intro reports
        have bad := reports.2
        rw [status] at bad
        cases bad
      · exact ⟨fun _ => ⟨whole, rfl⟩, fun _ => sought.reports whole⟩
  | some i =>
      rw [place] at sought
      obtain ⟨⟨current, rest, -, stands⟩, same, -⟩ := sought
      simp only [reduceCtorEq, and_false, iff_false]
      exact not_reports_of_valid (isValid_in block.inside stands same.currentBlock)

/-! ## Steps -/

theorem reports_next_into_iff (block : HasBlock reader b data) {a : Nat} (before : a + 1 = b)
    (stands : StandsAt it passed current []) (number : it.currentBlock = a) :
    Reports reader (it.next reader) ↔ getEntry data = none := by
  subst before
  have inside := block.inside
  have valid : it.isValid reader = true := isValid_in (Nat.lt_of_succ_lt inside) stands number
  obtain ⟨moved, loads⟩ := next_loads valid stands.toBehind advances_getEntry.nil number inside
  rw [loads]
  exact reports_first_iff block

theorem reports_next_last_iff (stands : StandsAt it passed current rest) (number : it.currentBlock = b)
    (last : b + 1 = reader.index.length) (more : rest ≠ []) :
    Reports reader (it.next reader) ↔ getEntry rest = none := by
  have inside : b < reader.index.length := last ▸ Nat.lt_succ_self b
  have valid : it.isValid reader = true := isValid_in inside stands number
  cases found : getEntry rest with
  | none =>
      obtain ⟨invalid, -, damaged⟩ := next_stops valid stands.toBehind found number last
      exact iff_of_true ⟨invalid, damaged more⟩ rfl
  | some pair =>
      obtain ⟨e, rest'⟩ := pair
      rw [next, if_neg (by simp [valid]), next_taken stands.toBehind found]
      simp only [if_true, reduceCtorEq, iff_false]
      have stands' := standsAt_taken stands.toBehind stands.cache found
      exact not_reports_of_valid (isValid_in inside stands' number)

theorem not_reports_next (stands : StandsAt it passed current rest) (number : it.currentBlock = b)
    (block : HasBlock reader (b + 1) data) (begins : getEntry data ≠ none) :
    ¬ Reports reader (it.next reader) := by
  have inside : b < reader.index.length := Nat.lt_of_succ_lt block.inside
  have valid : it.isValid reader = true := isValid_in inside stands number
  cases found : getEntry rest with
  | none =>
      obtain ⟨moved, loads⟩ := next_loads valid stands.toBehind found number block.inside
      rw [loads, reports_first_iff block]
      exact begins
  | some pair =>
      obtain ⟨e, rest'⟩ := pair
      rw [next, if_neg (by simp [valid]), next_taken stands.toBehind found]
      have stands' := standsAt_taken stands.toBehind stands.cache found
      exact not_reports_of_valid (isValid_in inside stands' number)

theorem not_reports_prev (stands : StandsAt it passed current rest) (number : it.currentBlock = b)
    (inside : b < reader.index.length) : ¬ Reports reader (it.prev reader) := by
  obtain ⟨stands', moved, same, -⟩ := moveToPrevInBlock_standsAt stands
  rw [prev, if_neg (by simp [isValid_in inside stands number]), if_pos moved]
  exact not_reports_of_valid (isValid_in inside stands' (same.trans number))

/-! ## Runs -/

variable {contents : List Bytes}

def Placed (reader : SSTableReader) (contents : List Bytes) (it : SSTableIterator) : Prop :=
  it.isValid reader = false ∨ ∃ b passed current rest, StandsIn reader contents it b passed current rest

theorem placed_first (has : Contents reader contents) (here : contents[b]? = some data) :
    Placed reader contents (it.loadAnd reader b parseCurrentEntry) := by
  cases found : getEntry data with
  | none =>
      obtain ⟨ended, -, parsed⟩ := ended_of_left (behind_loaded it b data) found
      rw [loadAnd_eq has here, parsed]
      exact Or.inl (isValid_eq_false ended.valid)
  | some pair => exact Or.inr ⟨b, [], pair.1, pair.2, (standsIn_loaded has here found).1⟩

theorem placed_seekToFirst (has : Contents reader contents) :
    Placed reader contents (it.seekToFirst reader) := by
  rw [seekToFirst]
  split
  · exact Or.inl (isValid_eq_false rfl)
  · rename_i filled
    have positive := List.length_pos_iff.mpr (mt List.isEmpty_iff.mpr filled)
    rw [← has.length] at positive
    exact placed_first has (List.getElem?_eq_getElem positive)

theorem placed_seekToLast (has : Contents reader contents) :
    Placed reader contents (it.seekToLast reader) := by
  rw [seekToLast]
  split
  · exact Or.inl (isValid_eq_false rfl)
  rename_i filled
  have positive := List.length_pos_iff.mpr (mt List.isEmpty_iff.mpr filled)
  have number : (reader.index.length : Int) - 1 = ((reader.index.length - 1 : Nat) : Int) := by omega
  obtain ⟨data, here⟩ : ∃ data, contents[reader.index.length - 1]? = some data :=
    ⟨_, List.getElem?_eq_getElem (by rw [has.length]; omega)⟩
  rw [number, loadAnd_eq has here]
  generalize reader.index.length - 1 = b at here ⊢
  have filled : (it.loaded b data).blockData ≠ [] := has.filled data (List.mem_of_getElem? here)
  by_cases whole : leftOver getEntry data = []
  · obtain ⟨passed, current, -, stands, same, -⟩ :=
      @seekToLastInBlock_of_whole (it.loaded b data) (Or.inl rfl) filled whole
    exact Or.inr ⟨b, passed, current, [], stands, same.currentBlock, same.blockData ▸ here⟩
  · exact Or.inl (isValid_eq_false (seekToLastInBlock_of_damaged filled whole).1)

theorem placed_seek (has : Contents reader contents) :
    Placed reader contents (it.seek reader order target) := by
  rw [seek]
  cases found : reader.findIndexEntry order target with
  | none => exact Or.inl (isValid_eq_false rfl)
  | some b =>
      have inside : b < contents.length := by
        have holds := Search.findLast_some (fun j missing => by cases missing) found
        rw [has.length]
        by_contra past
        rw [List.getElem?_eq_none (Nat.not_lt.mp past)] at holds
        cases holds
      have here := List.getElem?_eq_getElem inside
      dsimp only
      rw [loadAnd_eq has here]
      have sought := @seekInBlock_sought (it.loaded b contents[b]) order target (Or.inl rfl)
      cases place : seekPlace order target (records getEntry (it.loaded b contents[b]).blockData) with
      | none =>
          rw [place] at sought
          exact Or.inl (isValid_eq_false sought.valid)
      | some i =>
          rw [place] at sought
          obtain ⟨⟨current, rest, -, stands⟩, same, -⟩ := sought
          exact Or.inr ⟨b, _, current, rest, stands, same.currentBlock, same.blockData ▸ here⟩

theorem placed_next (has : Contents reader contents) (placed : Placed reader contents it) :
    Placed reader contents (it.next reader) := by
  obtain invalid | ⟨b, passed, current, rest, stands⟩ := placed
  · rw [next, if_pos (by simp [invalid])]
    exact Or.inl invalid
  cases found : getEntry rest with
  | some pair =>
      exact Or.inr ⟨b, _, pair.1, pair.2, (next_in_block has stands found).1⟩
  | none =>
      cases here : contents[b + 1]? with
      | none =>
          obtain ⟨inside, -⟩ := List.getElem?_eq_some_iff.mp stands.data
          have past := List.getElem?_eq_none_iff.mp here
          exact Or.inl (next_last has stands found (by omega)).1
      | some data =>
          obtain ⟨moved, loads⟩ := next_loads (stands.isValid has) stands.toBehind found stands.block
            (has.block here).inside
          rw [loads]
          exact placed_first has here

theorem placed_prev (has : Contents reader contents) (placed : Placed reader contents it) :
    Placed reader contents (it.prev reader) := by
  obtain invalid | ⟨b, passed, current, rest, stands⟩ := placed
  · rw [prev, if_pos (by simp [invalid])]
    exact Or.inl invalid
  · obtain ⟨stands', moved, block, data, -⟩ := moveToPrevInBlock_standsAt stands.toStandsAt
    rw [prev, if_neg (by simp [stands.isValid has]), if_pos moved]
    exact Or.inr ⟨b, passed, current, rest, stands', block.trans stands.block, data ▸ stands.data⟩

theorem placed_run (has : Contents reader contents) (calls : List Call) :
    Placed reader contents (calls.foldl (call reader order) {}) := by
  induction calls using List.reverseRecOn with
  | nil => exact Or.inl (isValid_eq_false rfl)
  | append_singleton calls c ih =>
      rw [List.foldl_append]
      cases c with
      | seekToFirst => exact placed_seekToFirst has
      | seekToLast => exact placed_seekToLast has
      | seek target => exact placed_seek has
      | next => exact placed_next has ih
      | prev => exact placed_prev has ih

end SSTableIterator

/-! ## Get -/

theorem isCorruption_get_iff {reader : SSTableReader} {b : Nat} {data : Bytes}
    (block : HasBlock reader b data) {order : Bytes → Bytes → Ordering} {key : Key}
    (located : reader.locate order key = some b) (snapshot : Nat) (value : Value) :
    (reader.get order key snapshot value).2.status.isCorruption ↔ leftOver getEntry data ≠ [] ∧
      ∀ e ∈ records getEntry data, ¬ beyond order key e := by
  obtain ⟨entry, here, loaded⟩ := block.read
  have reads := reads_records getEntry data
  have stuck := leftOver_stuck advances_getEntry data
  rw [get_of_block located here (loaded [])]
  by_cases damaged : leftOver getEntry data ≠ [] ∧ ∀ e ∈ records getEntry data, ¬ beyond order key e
  · obtain ⟨message, scanned⟩ := scanBlock_of_damaged reads stuck le_rfl damaged.1 damaged.2
    rw [scanned]
    exact iff_of_true rfl damaged
  · have stops : leftOver getEntry data = [] ∨ ∃ e ∈ records getEntry data, beyond order key e := by
      by_contra goes
      push Not at goes
      exact damaged ⟨goes.1, by simpa using goes.2⟩
    rw [scanBlock_of_reads reads stuck le_rfl stops]
    apply iff_of_false _ damaged
    cases bestOf order key snapshot (records getEntry data) none with
    | none => simp [answer, Status.ok, Status.isCorruption]
    | some best =>
        rw [answer]
        split <;> simp [Status.ok, Status.deleted, Status.isCorruption]

end TableFile
end Lrdb
