import LockManager.Event

/-! The scheduling handle of a transaction: whether it is marked as blocked, and how often it was
told to suspend. -/
namespace LockManager

structure Handle where
  blocked : Bool := false
  suspensions : Nat := 0
  deriving DecidableEq, Repr

namespace Handle

/-- Mark as about to block. -/
def prepare (handle : Handle) : Handle := { handle with blocked := true }

def wake (handle : Handle) : Handle := { handle with blocked := false }

def suspend (handle : Handle) : Handle := { handle with suspensions := handle.suspensions + 1 }

/-- Suspending a blocked handle parks it until it is woken; otherwise it returns at once. Tells
whether it parked, and the handle after it returned. -/
def suspendUntilWoken (handle : Handle) : Bool × Handle := (handle.blocked, handle.suspend.wake)

def debugText (handle : Handle) (txn : Txn) : String :=
  "ThreadTransaction \x7b id: " ++ txn.debugText ++ ", blocked: " ++ toString handle.blocked ++
    " \x7d"

end Handle

/-- What an event tells one of the handles. -/
def Event.signal? : Event → Option (Txn × (Handle → Handle))
  | prepared txn => some (txn, .prepare)
  | woken txn => some (txn, .wake)
  | suspended txn => some (txn, .suspend)
  | _ => none

end LockManager
