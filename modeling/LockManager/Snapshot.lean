import LockManager.Table.Basic

/-! A copy of one resource's granted locks and waiting requests, as it stood when it was taken. -/
namespace LockManager

namespace Snapshot

/-- A waiting request without the handle of its transaction. -/
structure Waiting where
  lock : Lock
  releases : List Lock := []
  deriving DecidableEq

namespace Waiting

def ofRequest (request : Request) : Waiting := ⟨request.lock, request.releases⟩

def text (waiting : Waiting) : String :=
  let wanted := "Request for " ++ waiting.lock.text
  match waiting.releases with
  | [] => wanted
  | releases => wanted ++ " (releasing " ++ Lock.listText releases ++ ")"

end Waiting
end Snapshot

structure Snapshot where
  resource : Resource
  active : List Lock
  queued : List Snapshot.Waiting
  deriving DecidableEq

namespace Snapshot

def isEmpty (snapshot : Snapshot) : Bool := snapshot.active.isEmpty && snapshot.queued.isEmpty

def text (snapshot : Snapshot) : String :=
  "Active Locks: [" ++ String.intercalate ", " (snapshot.active.map Lock.text) ++ "], Queue: [" ++
    String.intercalate ", " (snapshot.queued.map Waiting.text) ++ "]"

end Snapshot

/-- The state of a resource now. -/
def Table.snapshot (table : Table) (resource : Resource) : Snapshot :=
  ⟨resource, table.locksOn resource, (table.queueOf resource).map .ofRequest⟩

end LockManager
