import Mathlib.Data.List.Basic

/-!
# Bytes and status values

Keys and values are byte strings. Two statuses are compared by their code alone; the message is
what `ToString` shows.
-/

namespace Lrdb

abbrev Bytes := List UInt8
abbrev Key := Bytes
abbrev Value := Bytes

inductive StatusCode where
  | ok | notFound | corruption | notSupported | invalidArgument | ioError | mergeInProgress
  | incomplete | shutdownInProgress | timedOut | aborted | busy | expired | tryAgain
  | compactionTooLarge | columnFamilyDropped
  /-- Internal signal: a visible tombstone was met and older places must not be searched. -/
  | deleted
  deriving DecidableEq, Repr

structure Status where
  code : StatusCode
  message : String := ""
  deriving DecidableEq, Repr

namespace Status

def ok : Status := ⟨.ok, ""⟩
def notFound (message : String) : Status := ⟨.notFound, message⟩
def corruption (message : String) : Status := ⟨.corruption, message⟩
def notSupported (message : String) : Status := ⟨.notSupported, message⟩
def invalidArgument (message : String) : Status := ⟨.invalidArgument, message⟩
def ioError (message : String) : Status := ⟨.ioError, message⟩
def mergeInProgress : Status := ⟨.mergeInProgress, ""⟩
def incomplete (message : String) : Status := ⟨.incomplete, message⟩
def timedOut (message : String) : Status := ⟨.timedOut, message⟩
def aborted (message : String) : Status := ⟨.aborted, message⟩
def tryAgain (message : String) : Status := ⟨.tryAgain, message⟩
def deleted (message : String) : Status := ⟨.deleted, message⟩

def isOk (s : Status) : Bool := s.code == .ok
def isNotFound (s : Status) : Bool := s.code == .notFound
def isCorruption (s : Status) : Bool := s.code == .corruption
def isMergeInProgress (s : Status) : Bool := s.code == .mergeInProgress
def isIncomplete (s : Status) : Bool := s.code == .incomplete
def isDeleted (s : Status) : Bool := s.code == .deleted

end Status

structure ReadResult where
  status : Status
  value : Value
  deriving DecidableEq, Repr

/-- The read reports `some v` as OK with the value `v`, and `none` as NotFound. -/
def ReadResult.Answers (r : ReadResult) : Option Value → Prop
  | some v => r.status.code = .ok ∧ r.value = v
  | none => r.status.code = .notFound

instance (r : ReadResult) : (a : Option Value) → Decidable (r.Answers a)
  | some v => inferInstanceAs (Decidable (r.status.code = .ok ∧ r.value = v))
  | none => inferInstanceAs (Decidable (r.status.code = .notFound))

theorem ReadResult.Answers.unique {r : ReadResult} {a b : Option Value}
    (left : r.Answers a) (right : r.Answers b) : a = b := by
  cases a <;> cases b <;> simp_all [ReadResult.Answers]

theorem ReadResult.Answers.isOk {r : ReadResult} {v : Value} (answers : r.Answers (some v)) :
    r.status.isOk ∧ r.value = v :=
  ⟨beq_iff_eq.mpr answers.1, answers.2⟩

theorem ReadResult.Answers.isNotFound {r : ReadResult} (answers : r.Answers none) :
    ¬ r.status.isOk ∧ ¬ r.status.isDeleted ∧ r.status.isNotFound := by
  have code : r.status.code = .notFound := answers
  simp [Status.isOk, Status.isDeleted, Status.isNotFound, code]

def ReadResult.chainFirst (deleted missing : ReadResult) : Option (Option Value) → ReadResult
  | none => missing
  | some none => deleted
  | some (some content) => ⟨.ok, content⟩

end Lrdb
