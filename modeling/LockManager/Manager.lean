import LockManager.Handle
import LockManager.Table.Calls

/-! A lock table together with the handles of its transactions. The journal of a call is told to
the handles as it goes. -/
namespace LockManager
open Std

structure Manager where
  table : Table := {}
  handles : ExtTreeMap Txn Handle := ∅

namespace Manager

instance : Inhabited Manager := ⟨{}⟩

def handle (manager : Manager) (txn : Txn) : Handle := manager.handles.getD txn {}

def isBlocked (manager : Manager) (txn : Txn) : Bool := (manager.handle txn).blocked

def notify (handles : ExtTreeMap Txn Handle) (event : Event) : ExtTreeMap Txn Handle :=
  match event.signal? with
  | none => handles
  | some (txn, signal) => handles.insert txn (signal (handles.getD txn {}))

/-- An event that says nothing to the handles leaves them. -/
theorem foldl_notify_quiet (handles : ExtTreeMap Txn Handle) {events : Journal}
    (quiet : ∀ event ∈ events, event.signal? = none) : events.foldl notify handles = handles := by
  induction events with
  | nil => rfl
  | cons event later ih =>
    have same : notify handles event = handles := by
      rw [notify, quiet event List.mem_cons_self]
    rw [List.foldl_cons, same]
    exact ih fun event member => quiet event (List.mem_cons_of_mem _ member)

/-- An event changes the handle that it speaks to. -/
theorem handle_notify (table : Table) (handles : ExtTreeMap Txn Handle) {event : Event} {txn : Txn}
    {change : Handle → Handle} (signal : event.signal? = some (txn, change)) (other : Txn) :
    handle ⟨table, notify handles event⟩ other =
      if other = txn then change (handle ⟨table, handles⟩ other) else handle ⟨table, handles⟩ other := by
  simp only [handle, notify, signal, ExtTreeMap.getD_insert, LawfulEqOrd.compare_eq_iff_eq]
  by_cases same : other = txn
  · rw [if_pos same.symm, if_pos same, same]
  · rw [if_neg (Ne.symm same), if_neg same]

theorem isBlocked_prepared (table : Table) (handles : ExtTreeMap Txn Handle) (txn other : Txn) :
    isBlocked ⟨table, notify handles (.prepared txn)⟩ other =
      if other = txn then true else isBlocked ⟨table, handles⟩ other := by
  rw [isBlocked, handle_notify table handles rfl]
  split <;> rfl

theorem isBlocked_woken (table : Table) (handles : ExtTreeMap Txn Handle) (txn other : Txn) :
    isBlocked ⟨table, notify handles (.woken txn)⟩ other =
      if other = txn then false else isBlocked ⟨table, handles⟩ other := by
  rw [isBlocked, handle_notify table handles rfl]
  split <;> rfl

theorem isBlocked_suspended (table : Table) (handles : ExtTreeMap Txn Handle) (txn other : Txn) :
    isBlocked ⟨table, notify handles (.suspended txn)⟩ other =
      isBlocked ⟨table, handles⟩ other := by
  rw [isBlocked, handle_notify table handles rfl]
  split <;> rfl

/-- A refused call leaves the manager as it was. -/
def call (manager : Manager) (txn : Txn) (call : Call) :
    Except Rejection (Manager × Journal) :=
  match manager.table.call txn call with
  | .error rejection => .error rejection
  | .ok outcome =>
      .ok (⟨outcome.table, outcome.events.foldl notify manager.handles⟩, outcome.events)

end Manager
end LockManager
