import LockManager.Table.Basic

/-! What each change of a table does to its two views: the entry of a resource, and the locks of a
transaction. -/
namespace LockManager
open Std

namespace Entry

theorem eq_empty_of_isIdle {entry : Entry} (idle : entry.isIdle) : entry = {} := by
  cases entry
  simpa [isIdle] using idle

@[simp] theorem queue_grant (entry : Entry) (lock : Lock) :
    (entry.grant lock).queue = entry.queue := by
  unfold grant; split <;> rfl

@[simp] theorem queue_remove (entry : Entry) (txn : Txn) :
    (entry.remove txn).queue = entry.queue := rfl

@[simp] theorem active_enqueue (entry : Entry) (request : Request) (place : Place) :
    (entry.enqueue request place).active = entry.active := by
  cases place <;> rfl

end Entry

namespace Table

theorem entry_eq (table : Table) (resource : Resource) :
    table.entry resource = (table.entries[resource]?).getD {} :=
  ExtTreeMap.getD_eq_getD_getElem?

theorem locksHeldBy_eq (table : Table) (txn : Txn) :
    table.locksHeldBy txn = (table.holdings[txn]?).getD [] :=
  ExtTreeMap.getD_eq_getD_getElem?

@[simp] theorem entry_empty (resource : Resource) : empty.entry resource = {} := by
  simp [empty, entry_eq]

@[simp] theorem locksHeldBy_empty (txn : Txn) : empty.locksHeldBy txn = [] := by
  simp [empty, locksHeldBy_eq]

theorem entry_grant (table : Table) (lock : Lock) (resource : Resource) :
    (table.grant lock).entry resource =
      if resource = lock.resource then (table.entry resource).grant lock
      else table.entry resource := by
  simp only [grant, entry_eq, ExtTreeMap.getElem?_insert, LawfulEqOrd.compare_eq_iff_eq]
  by_cases same : resource = lock.resource
  · simp [same]
  · simp [same, Ne.symm same]

theorem locksHeldBy_grant (table : Table) (lock : Lock) (txn : Txn) :
    (table.grant lock).locksHeldBy txn =
      if txn ≠ lock.owner then table.locksHeldBy txn
      else if ((table.entry lock.resource).lockOf? txn).isSome then
        Lock.switchFirst lock.mode (fun held => held.resource = lock.resource)
          (table.locksHeldBy txn)
      else table.locksHeldBy txn ++ [lock] := by
  simp only [grant, locksHeldBy_eq]
  by_cases same : txn = lock.owner
  · subst same
    split
    · simp only [ExtTreeMap.getElem?_modify_self, ne_eq, not_true_eq_false, if_false, *]
      cases table.holdings[lock.owner]? <;> simp
    · simp [*]
  · rw [if_pos same]
    split <;>
      simp [ExtTreeMap.getElem?_modify, ExtTreeMap.getElem?_insert, Ne.symm same]

theorem entry_remove (table : Table) (txn : Txn) (resource other : Resource) :
    (table.remove txn resource).entry other =
      if other = resource then (table.entry other).remove txn else table.entry other := by
  simp only [remove, entry_eq, ExtTreeMap.getElem?_modify, LawfulEqOrd.compare_eq_iff_eq]
  by_cases same : other = resource
  · subst same
    cases table.entries[other]? <;> simp [Entry.remove]
  · simp [same, Ne.symm same]

theorem locksHeldBy_remove (table : Table) (txn other : Txn) (resource : Resource) :
    (table.remove txn resource).locksHeldBy other =
      if other = txn then (table.locksHeldBy other).filter fun held => held.resource ≠ resource
      else table.locksHeldBy other := by
  simp only [remove, locksHeldBy_eq, ExtTreeMap.getElem?_alter, LawfulEqOrd.compare_eq_iff_eq]
  by_cases same : other = txn
  · subst same
    simp only [if_true]
    split <;> simp_all
  · simp [same, Ne.symm same]

theorem entry_enqueue (table : Table) (request : Request) (place : Place) (resource : Resource) :
    (table.enqueue request place).entry resource =
      if resource = request.lock.resource then (table.entry resource).enqueue request place
      else table.entry resource := by
  simp only [enqueue, entry_eq, ExtTreeMap.getElem?_insert, LawfulEqOrd.compare_eq_iff_eq]
  by_cases same : resource = request.lock.resource
  · simp [same]
  · simp [same, Ne.symm same]

@[simp] theorem locksHeldBy_enqueue (table : Table) (request : Request) (place : Place)
    (txn : Txn) : (table.enqueue request place).locksHeldBy txn = table.locksHeldBy txn := rfl

theorem entry_dequeue (table : Table) (resource other : Resource) :
    (table.dequeue resource).entry other =
      if other = resource then { table.entry other with queue := (table.entry other).queue.tail }
      else table.entry other := by
  simp only [dequeue, entry_eq, ExtTreeMap.getElem?_modify, LawfulEqOrd.compare_eq_iff_eq]
  by_cases same : other = resource
  · subst same
    cases table.entries[other]? <;> simp
  · simp [same, Ne.symm same]

@[simp] theorem locksHeldBy_dequeue (table : Table) (resource : Resource) (txn : Txn) :
    (table.dequeue resource).locksHeldBy txn = table.locksHeldBy txn := rfl

/-- Pruning forgets nothing that can be seen. -/
@[simp] theorem entry_prune (table : Table) (resource other : Resource) :
    (table.prune resource).entry other = table.entry other := by
  unfold prune
  split
  · next idle =>
    simp only [entry_eq, ExtTreeMap.getElem?_erase, LawfulEqOrd.compare_eq_iff_eq] at *
    split
    · next same => subst same; simp [Entry.eq_empty_of_isIdle idle]
    · rfl
  · rfl

@[simp] theorem locksHeldBy_prune (table : Table) (resource : Resource) (txn : Txn) :
    (table.prune resource).locksHeldBy txn = table.locksHeldBy txn := by
  unfold prune; split <;> rfl

/-! ### The two parts of an entry -/

theorem locksOn_grant_of_ne (table : Table) {lock : Lock} {resource : Resource}
    (other : resource ≠ lock.resource) :
    (table.grant lock).locksOn resource = table.locksOn resource := by
  rw [locksOn, entry_grant, if_neg other]; rfl

theorem locksOn_remove_of_ne (table : Table) (txn : Txn) {resource other : Resource}
    (different : other ≠ resource) :
    (table.remove txn resource).locksOn other = table.locksOn other := by
  rw [locksOn, entry_remove, if_neg different]; rfl

@[simp] theorem locksOn_enqueue (table : Table) (request : Request) (place : Place)
    (resource : Resource) : (table.enqueue request place).locksOn resource =
      table.locksOn resource := by
  rw [locksOn, entry_enqueue]
  split
  · exact Entry.active_enqueue _ request place
  · rfl

@[simp] theorem locksOn_dequeue (table : Table) (resource other : Resource) :
    (table.dequeue resource).locksOn other = table.locksOn other := by
  rw [locksOn, entry_dequeue]; split <;> rfl

@[simp] theorem locksOn_prune (table : Table) (resource other : Resource) :
    (table.prune resource).locksOn other = table.locksOn other := by
  rw [locksOn, entry_prune]; rfl

@[simp] theorem queueOf_grant (table : Table) (lock : Lock) (resource : Resource) :
    (table.grant lock).queueOf resource = table.queueOf resource := by
  rw [queueOf, entry_grant]
  split
  · exact Entry.queue_grant _ lock
  · rfl

@[simp] theorem queueOf_remove (table : Table) (txn : Txn) (resource other : Resource) :
    (table.remove txn resource).queueOf other = table.queueOf other := by
  rw [queueOf, entry_remove]; split <;> rfl

@[simp] theorem queueOf_prune (table : Table) (resource other : Resource) :
    (table.prune resource).queueOf other = table.queueOf other := by
  rw [queueOf, entry_prune]; rfl

theorem queueOf_enqueue (table : Table) (request : Request) (place : Place)
    (resource : Resource) : (table.enqueue request place).queueOf resource =
      if resource = request.lock.resource then
        match place with
        | .front => request :: table.queueOf resource
        | .back => table.queueOf resource ++ [request]
      else table.queueOf resource := by
  rw [queueOf, entry_enqueue]
  split <;> cases place <;> rfl

/-- Wherever it joins, the request is the only new one. -/
theorem mem_queueOf_enqueue {table : Table} {request waiting : Request} {place : Place}
    {resource : Resource} : waiting ∈ (table.enqueue request place).queueOf resource ↔
      waiting ∈ table.queueOf resource ∨ waiting = request ∧ resource = request.lock.resource := by
  rw [queueOf_enqueue]
  by_cases same : resource = request.lock.resource
  · cases place <;> simp [same, or_comm]
  · simp [same]

theorem queueOf_dequeue (table : Table) (resource other : Resource) :
    (table.dequeue resource).queueOf other =
      if other = resource then (table.queueOf other).tail else table.queueOf other := by
  rw [queueOf, entry_dequeue]; split <;> rfl

/-- A transaction waits if one of the queues has a request of its own. -/
theorem isWaiting_iff {table : Table} {txn : Txn} :
    table.isWaiting txn ↔ ∃ resource, ∃ request ∈ table.queueOf resource, request.owner = txn := by
  simp only [isWaiting, List.any_eq_true, Entry.isWaiting, decide_eq_true_eq, queueOf, Prod.exists,
    ExtTreeMap.mem_toList_iff_getElem?_eq_some, entry_eq]
  constructor
  · rintro ⟨resource, entry, present, waiting⟩
    exact ⟨resource, by simpa [present] using waiting⟩
  · rintro ⟨resource, request, queued, owned⟩
    cases present : table.entries[resource]? with
    | none => simp [present] at queued
    | some entry =>
      exact ⟨resource, entry, present, request, by simpa [present] using queued, owned⟩

/-- A transaction that is not waiting owns no queued request. -/
theorem isWaiting_eq_false_iff {table : Table} {txn : Txn} : table.isWaiting txn = false ↔
    ∀ resource, ∀ request ∈ table.queueOf resource, request.owner ≠ txn := by
  simp [← Bool.not_eq_true, isWaiting_iff]

@[simp] theorem isWaiting_grant (table : Table) (lock : Lock) (txn : Txn) :
    (table.grant lock).isWaiting txn = table.isWaiting txn := by
  rw [Bool.eq_iff_iff]
  simp only [isWaiting_iff, queueOf_grant]

theorem isWaiting_enqueue {table : Table} {request : Request} {place : Place} {txn : Txn} :
    (table.enqueue request place).isWaiting txn ↔ table.isWaiting txn ∨ request.owner = txn := by
  simp only [isWaiting_iff, mem_queueOf_enqueue]
  constructor
  · rintro ⟨resource, waiting, earlier | ⟨rfl, -⟩, owned⟩
    · exact .inl ⟨resource, waiting, earlier, owned⟩
    · exact .inr owned
  · rintro (⟨resource, waiting, earlier, owned⟩ | owned)
    · exact ⟨resource, waiting, .inl earlier, owned⟩
    · exact ⟨_, request, .inr ⟨rfl, rfl⟩, owned⟩

end Table
end LockManager
