import LockManager.Request

/-! The state of one resource: the locks granted on it, oldest first, and the requests that wait
for it, next in line first. -/
namespace LockManager

/-- Where a request joins the queue. -/
inductive Place
  | front
  | back
  deriving DecidableEq, Repr

def Place.text : Place → String
  | front => "Front"
  | back => "Back"

structure Entry where
  active : List Lock := []
  queue : List Request := []
  deriving DecidableEq

namespace Entry

instance : Inhabited Entry := ⟨⟨[], []⟩⟩

/-- Nothing is held and nobody waits. -/
def isIdle (entry : Entry) : Bool := entry.active.isEmpty && entry.queue.isEmpty

/-- The oldest lock that keeps `txn` from being granted `mode`; its own lock never does. -/
def conflict? (entry : Entry) (mode : Mode) (txn : Txn) : Option Lock :=
  entry.active.find? fun held => held.owner ≠ txn && !mode.compatible held.mode

def admits (entry : Entry) (mode : Mode) (txn : Txn) : Bool := (entry.conflict? mode txn).isNone

def lockOf? (entry : Entry) (txn : Txn) : Option Lock :=
  entry.active.find? fun held => held.owner = txn

/-- The mode `txn` holds here; to hold nothing reads as `noLock`. -/
def modeOf (entry : Entry) (txn : Txn) : Mode :=
  ((entry.lockOf? txn).map Lock.mode).getD .noLock

/-- Records a grant. The owner's earlier lock keeps its position and only changes its mode. -/
def grant (entry : Entry) (lock : Lock) : Entry :=
  if (entry.lockOf? lock.owner).isSome then
    { entry with
      active := Lock.switchFirst lock.mode (fun held => held.owner = lock.owner) entry.active }
  else { entry with active := entry.active ++ [lock] }

/-- Takes out the oldest lock of the transaction. -/
def remove (entry : Entry) (txn : Txn) : Entry :=
  { entry with active := entry.active.eraseP fun held => held.owner = txn }

def enqueue (entry : Entry) (request : Request) : Place → Entry
  | .front => { entry with queue := request :: entry.queue }
  | .back => { entry with queue := entry.queue ++ [request] }

def isWaiting (entry : Entry) (txn : Txn) : Bool :=
  entry.queue.any fun request => request.owner = txn

def text (entry : Entry) : String :=
  "Active Locks: [" ++ Lock.listText entry.active ++ "], Queue: [" ++
    String.intercalate ", " (entry.queue.map Request.text) ++ "]"

end Entry
end LockManager
