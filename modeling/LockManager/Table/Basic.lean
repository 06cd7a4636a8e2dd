import Std.Data.ExtTreeMap
import LockManager.Event

/-! The lock table: what is held and awaited on each resource, and what each transaction holds.
The same grants are kept in both maps, so that either question is one look-up. Equal contents make
equal tables. -/
namespace LockManager
open Std

structure Table where
  entries : ExtTreeMap Resource Entry := ∅
  holdings : ExtTreeMap Txn (List Lock) := ∅

namespace Table

def empty : Table := {}

instance : Inhabited Table := ⟨empty⟩

/-- A resource nobody uses has an idle entry. -/
def entry (table : Table) (resource : Resource) : Entry := table.entries.getD resource {}

/-- Locks granted on a resource, oldest first. -/
def locksOn (table : Table) (resource : Resource) : List Lock := (table.entry resource).active

/-- Requests waiting for a resource, next in line first. -/
def queueOf (table : Table) (resource : Resource) : List Request := (table.entry resource).queue

/-- Locks held by a transaction, oldest first. -/
def locksHeldBy (table : Table) (txn : Txn) : List Lock := table.holdings.getD txn []

def heldLock? (table : Table) (txn : Txn) (resource : Resource) : Option Lock :=
  (table.locksHeldBy txn).find? fun held => held.resource = resource

/-- The mode `txn` holds on the resource, read from the resource's side. -/
def modeOf (table : Table) (txn : Txn) (resource : Resource) : Mode :=
  (table.entry resource).modeOf txn

/-- Whether `txn` has a request in any queue. -/
def isWaiting (table : Table) (txn : Txn) : Bool :=
  table.entries.toList.any fun item => item.2.isWaiting txn

/-- Transactions with a request in some queue. -/
def waiters (table : Table) : List Txn :=
  table.entries.toList.flatMap fun item => item.2.queue.map Request.owner

/-- Gives the lock to its owner in both maps. A lock the owner already has on the resource is
replaced where it stands. -/
def grant (table : Table) (lock : Lock) : Table :=
  let entry := table.entry lock.resource
  { entries := table.entries.insert lock.resource (entry.grant lock)
    holdings :=
      if (entry.lockOf? lock.owner).isSome then
        table.holdings.modify lock.owner
          (Lock.switchFirst lock.mode fun held => held.resource = lock.resource)
      else table.holdings.insert lock.owner (table.locksHeldBy lock.owner ++ [lock]) }

/-- How a grant is recorded: as a new lock or as a change of mode. -/
def grantEvent (table : Table) (lock : Lock) : Event :=
  match (table.entry lock.resource).lockOf? lock.owner with
  | none => .granted lock
  | some earlier => .replaced lock earlier.mode

/-- Takes the transaction's lock on the resource out of both maps. A transaction that holds
nothing more leaves the second map; the entry stays until it is pruned. -/
def remove (table : Table) (txn : Txn) (resource : Resource) : Table :=
  ⟨table.entries.modify resource (·.remove txn),
    table.holdings.alter txn fun held? =>
      match (held?.getD []).filter fun held => held.resource ≠ resource with
      | [] => none
      | held => some held⟩

def enqueue (table : Table) (request : Request) (place : Place) : Table :=
  let resource := request.lock.resource
  { table with
    entries := table.entries.insert resource ((table.entry resource).enqueue request place) }

/-- Takes the next request in line off the queue. -/
def dequeue (table : Table) (resource : Resource) : Table :=
  { table with
    entries := table.entries.modify resource fun entry => { entry with queue := entry.queue.tail } }

/-- Forgets the resource if nothing is held or awaited on it. -/
def prune (table : Table) (resource : Resource) : Table :=
  if (table.entry resource).isIdle then { table with entries := table.entries.erase resource }
  else table

end Table
end LockManager
