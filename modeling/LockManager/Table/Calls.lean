import LockManager.Rejection
import LockManager.Table.Cascade

/-! The calls a transaction makes on the lock table. Each one is refused without any effect, or
takes effect at once, or leaves a request in the queue of the wanted resource. -/
namespace LockManager

inductive Call
  | acquire (resource : Resource) (mode : Mode)
  /-- Take a lock and give up others in one step. -/
  | exchange (resource : Resource) (mode : Mode) (releases : List Resource)
  | release (resource : Resource)
  | promote (resource : Resource) (mode : Mode)
  deriving DecidableEq

namespace Table

/-- The lock that keeps this one from being granted now, as the journal notes it. -/
def noteConflict (table : Table) (lock : Lock) : Journal :=
  ((table.entry lock.resource).conflict? lock.mode lock.owner).toList.map (.conflict lock.mode)

def admits (table : Table) (lock : Lock) : Bool :=
  (table.entry lock.resource).admits lock.mode lock.owner

/-- A new lock waits for conflicting holders and for everyone already in the queue. -/
def mustQueue (table : Table) (lock : Lock) : Bool :=
  !table.admits lock || !(table.queueOf lock.resource).isEmpty

/-- Marks the transaction as about to wait and puts its request in the queue. -/
def wait (table : Table) (request : Request) (place : Place) : Outcome :=
  let after := table.enqueue request place
  { table := after
    events := [.prepared request.caller,
      .queued request place (after.queueOf request.lock.resource).length] }

def acquire (table : Table) (txn : Txn) (resource : Resource) (mode : Mode) :
    Except Rejection Outcome :=
  if (table.heldLock? txn resource).isSome then .error (.alreadyHolds txn resource)
  else
    let lock : Lock := ⟨resource, mode, txn⟩
    if table.mustQueue lock then
      let waiting := table.wait ⟨txn, lock, []⟩ .back
      .ok { table := waiting.table
            events := table.noteConflict lock ++ waiting.events ++ [.suspended txn] }
    else .ok { table := table.grant lock, events := [table.grantEvent lock] }

/-- The locks that a list of resources names for release: each held, none named twice. The first
argument has the resources named before. -/
def locksToRelease (table : Table) (txn : Txn) :
    List Resource → List Resource → Except Rejection (List Lock)
  | _, [] => .ok []
  | earlier, resource :: later =>
      if resource ∈ earlier then .error (.listedTwice txn resource)
      else
        match table.heldLock? txn resource with
        | none => .error (.notHeld txn resource)
        | some lock => (lock :: ·) <$> table.locksToRelease txn (resource :: earlier) later

/-- A blocked exchange is first in line and keeps its old locks until it is granted. If only the
queue was in the way, it is granted at once from the front. -/
def exchange (table : Table) (txn : Txn) (resource : Resource) (mode : Mode)
    (releases : List Resource) : Except Rejection Outcome :=
  if (table.heldLock? txn resource).isSome then .error (.alreadyHolds txn resource)
  else
    match table.locksToRelease txn [] releases with
    | .error rejection => .error rejection
    | .ok locks =>
        let lock : Lock := ⟨resource, mode, txn⟩
        if table.mustQueue lock then
          let waiting := table.wait ⟨txn, lock, locks⟩ .front
          let settled := waiting.table.settle [.drain resource]
          .ok { table := settled.table
                events := table.noteConflict lock ++ waiting.events ++ settled.events ++
                  [.suspended txn] }
        else
          let settled := (table.grant lock).settle
            (locks.map fun held => .release txn held.resource)
          .ok { table := settled.table, events := table.grantEvent lock :: settled.events }

def release (table : Table) (txn : Txn) (resource : Resource) : Except Rejection Outcome :=
  if (table.heldLock? txn resource).isSome then .ok (table.settle [.release txn resource])
  else .error (.notHeld txn resource)

/-- A promotion does not queue behind others: it only waits for conflicting holders. -/
def promote (table : Table) (txn : Txn) (resource : Resource) (mode : Mode) :
    Except Rejection Outcome :=
  match table.heldLock? txn resource with
  | none => .error (.notHeld txn resource)
  | some current =>
      if current.mode = mode then .error (.alreadyInMode txn mode resource)
      else if !mode.covers current.mode then .error (.notStronger mode current.mode resource)
      else
        let lock : Lock := ⟨resource, mode, txn⟩
        if table.admits lock then
          .ok { table := table.grant lock, events := [table.grantEvent lock] }
        else
          let waiting := table.wait ⟨txn, lock, []⟩ .front
          .ok { table := waiting.table
                events := table.noteConflict lock ++ waiting.events ++ [.suspended txn] }

def call (table : Table) (txn : Txn) : Call → Except Rejection Outcome
  | .acquire resource mode => table.acquire txn resource mode
  | .exchange resource mode releases => table.exchange txn resource mode releases
  | .release resource => table.release txn resource
  | .promote resource mode => table.promote txn resource mode

end Table
end LockManager
