import Mathlib.Data.List.Basic
import Lrdb.Core.Status

/-!
# Point locks

A key is locked in shared or exclusive mode. A request that cannot be granted waits in a queue; it
leaves the queue with the lock, or without it when it times out or would close a cycle of waiters.
-/

namespace Lrdb

inductive LockType where
  | kSharedLock | kExclusiveLock
  deriving DecidableEq, Repr

structure LockRequest where
  txnId : Nat
  type : LockType
  deriving DecidableEq, Repr

structure LockEntry where
  holders : List LockRequest := []
  waiters : List LockRequest := []
  deriving DecidableEq, Repr

namespace LockEntry

def compatible : LockType → LockType → Bool
  | .kSharedLock, .kSharedLock => true
  | _, _ => false

def canGrant (entry : LockEntry) (requester : Nat) (type : LockType) : Bool :=
  (entry.holders.all fun h => h.txnId == requester || compatible h.type type) &&
    (entry.waiters.isEmpty || entry.waiters.head? == some ⟨requester, type⟩)

def grant (entry : LockEntry) (requester : Nat) (type : LockType) : LockEntry :=
  { entry with holders := entry.holders ++ [⟨requester, type⟩] }

def enqueue (entry : LockEntry) (requester : Nat) (type : LockType) : LockEntry :=
  { entry with waiters := entry.waiters ++ [⟨requester, type⟩] }

def wake (entry : LockEntry) (requester : Nat) (type : LockType) : LockEntry :=
  let waiters :=
    if (entry.waiters.head?.map LockRequest.txnId) = some requester then entry.waiters.tail
    else entry.waiters
  { entry with waiters := waiters }.grant requester type

def removeWaiter (entry : LockEntry) (txn : Nat) : LockEntry :=
  { entry with waiters := entry.waiters.eraseP fun w => w.txnId == txn }

def release (entry : LockEntry) (txn : Nat) : LockEntry :=
  { entry with holders := entry.holders.filter fun h => h.txnId != txn }

/-! ## Exclusion -/

def HeldBy (entry : LockEntry) (txn : Nat) : Prop := ∃ h ∈ entry.holders, h.txnId = txn

def Exclusive (entry : LockEntry) : Prop :=
  ∀ txn other, entry.HeldBy txn → entry.HeldBy other → txn = other

variable {entry : LockEntry} {txn : Nat}

@[simp] theorem heldBy_grant {requester : Nat} {type : LockType} :
    (entry.grant requester type).HeldBy txn ↔ entry.HeldBy txn ∨ requester = txn := by
  simp [HeldBy, grant, or_and_right, exists_or]

@[simp] theorem heldBy_enqueue {requester : Nat} {type : LockType} :
    (entry.enqueue requester type).HeldBy txn ↔ entry.HeldBy txn := Iff.rfl

@[simp] theorem heldBy_wake {requester : Nat} {type : LockType} :
    (entry.wake requester type).HeldBy txn ↔ entry.HeldBy txn ∨ requester = txn := heldBy_grant

@[simp] theorem heldBy_removeWaiter {other : Nat} :
    (entry.removeWaiter other).HeldBy txn ↔ entry.HeldBy txn := Iff.rfl

@[simp] theorem heldBy_release {other : Nat} :
    (entry.release other).HeldBy txn ↔ entry.HeldBy txn ∧ txn ≠ other := by
  constructor
  · rintro ⟨h, member, rfl⟩
    obtain ⟨member, different⟩ := List.mem_filter.mp member
    exact ⟨⟨h, member, rfl⟩, by simpa using different⟩
  · rintro ⟨⟨h, member, rfl⟩, different⟩
    exact ⟨h, List.mem_filter.mpr ⟨member, by simpa using different⟩, rfl⟩

theorem holder_of_canGrant {requester : Nat} (granted : entry.canGrant requester .kExclusiveLock)
    (held : entry.HeldBy txn) : txn = requester := by
  obtain ⟨h, member, rfl⟩ := held
  simp only [canGrant, Bool.and_eq_true, List.all_eq_true] at granted
  have fits := granted.1 h member
  cases type : h.type <;> simpa [compatible, type] using fits

theorem exclusive_grant {requester : Nat} (granted : entry.canGrant requester .kExclusiveLock) :
    (entry.grant requester .kExclusiveLock).Exclusive := by
  have only {holder : Nat} (held : (entry.grant requester .kExclusiveLock).HeldBy holder) :
      holder = requester := by
    rcases heldBy_grant.mp held with held | rfl
    · exact holder_of_canGrant granted held
    · rfl
  exact fun a b ha hb => (only ha).trans (only hb).symm

theorem Exclusive.of_heldBy {after : LockEntry} (exclusive : entry.Exclusive)
    (fewer : ∀ txn, after.HeldBy txn → entry.HeldBy txn) : after.Exclusive :=
  fun a b ha hb => exclusive a b (fewer a ha) (fewer b hb)

theorem exclusive_wake {requester : Nat} (granted : entry.canGrant requester .kExclusiveLock) :
    (entry.wake requester .kExclusiveLock).Exclusive :=
  (exclusive_grant granted).of_heldBy fun _ held => heldBy_grant.mpr (heldBy_wake.mp held)

end LockEntry
end Lrdb
