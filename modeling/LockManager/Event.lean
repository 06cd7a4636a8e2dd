import LockManager.Entry

/-! What a call on the lock table did, step by step. A journal of events tells the grants, releases
and queue changes in order, and what the transactions' handles were told. -/
namespace LockManager

inductive Event
  /-- A compatibility check failed because of a lock that another transaction holds. -/
  | conflict (requested : Mode) (held : Lock)
  | granted (lock : Lock)
  /-- The owner already held the resource; its lock changed mode and kept its position. -/
  | replaced (lock : Lock) (previous : Mode)
  | released (lock : Lock)
  /-- The request joined its queue, which then had the given length. -/
  | queued (request : Request) (place : Place) (length : Nat)
  /-- A request taken from a queue has been granted and its deferred releases are done. -/
  | committed (request : Request)
  /-- A deferred release found that the lock was no longer held. -/
  | staleRelease (request : Request) (lock : Lock)
  | prepared (txn : Txn)
  | woken (txn : Txn)
  | suspended (txn : Txn)
  deriving DecidableEq

abbrev Journal := List Event

end LockManager
