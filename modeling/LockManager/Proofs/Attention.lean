import LockManager.Proofs.Regular

/-! No request that could be granted is left waiting. Whenever a lock goes away, its resource is
marked to be looked at, and the mark stays until the next in line there has been found to wait for
a lock of another transaction. A stronger mode only keeps more requests waiting. -/
namespace LockManager

/-- A mode that stands beside the stronger one stands beside the weaker one too. -/
theorem Mode.compatible_of_covers {wanted stronger weaker : Mode}
    (covers : stronger.covers weaker = true) (beside : wanted.compatible stronger = true) :
    wanted.compatible weaker = true := by
  revert covers beside
  cases wanted <;> cases stronger <;> cases weaker <;> decide

namespace Table

variable {table : Table} {tasks : List Task}

/-- Every queue is at rest, or still to be looked at. -/
def Attended (table : Table) (tasks : List Task) : Prop :=
  ∀ resource, .drain resource ∈ tasks ∨ table.Rests resource

/-- Whether a queue rests depends on that queue and the locks there. -/
theorem Rests.congr {before after : Table} {resource : Resource} (rests : before.Rests resource)
    (locks : after.locksOn resource = before.locksOn resource)
    (queue : after.queueOf resource = before.queueOf resource) : after.Rests resource := by
  rw [Rests, locks, queue]
  exact rests

/-- A queue rests on while the locks that others hold there stay or become stronger. -/
theorem Rests.grant (rests : table.Rests resource) (regular : table.Regular) {lock : Lock}
    (stronger : ∀ held, table.heldLock? lock.owner lock.resource = some held →
      lock.mode.covers held.mode = true) : (table.grant lock).Rests resource := by
  obtain ⟨ledger, books⟩ := regular.books
  intro request next
  rw [queueOf_grant] at next
  obtain ⟨held, here, other, conflict⟩ := rests request next
  rw [books.locksOn_grant]
  split
  · by_cases same : held.sameGrant lock = true
    · refine ⟨lock, Ledger.lock_mem_put _ lock, ?_, ?_⟩
      · rw [← (Lock.sameGrant_iff.mp same).1]
        exact other
      · have current : table.heldLock? lock.owner lock.resource = some held := by
          obtain ⟨owner, resource⟩ := Lock.sameGrant_iff.mp same
          rw [← owner, ← resource, books.heldLock?_of_mem (books.mem_locksOn.mp here).1]
        rw [Bool.eq_false_iff] at conflict ⊢
        exact fun beside => conflict (Mode.compatible_of_covers (stronger held current) beside)
    · exact ⟨held, Ledger.mem_put_of_mem here (by simpa using same), other, conflict⟩
  · exact ⟨held, here, other, conflict⟩

/-- A queue rests once a request that has to wait joins it. -/
theorem rests_enqueue_front {request : Request} (busy : table.admits request.lock = false) :
    (table.enqueue request .front).Rests request.lock.resource := by
  intro first next
  rw [queueOf_enqueue, if_pos rfl, List.head?_cons, Option.mem_some_iff] at next
  subst next
  rw [locksOn_enqueue]
  exact exists_conflict busy

theorem Rests.enqueue_back {request : Request} (rests : table.Rests request.lock.resource)
    (busy : table.mustQueue request.lock = true) :
    (table.enqueue request .back).Rests request.lock.resource := by
  intro first next
  rw [queueOf_enqueue, if_pos rfl] at next
  rw [locksOn_enqueue]
  cases queue : table.queueOf request.lock.resource with
  | nil =>
    rw [queue, List.nil_append, List.head?_cons, Option.mem_some_iff] at next
    subst next
    have refused : table.admits request.lock = false := by
      simpa [mustQueue, queue] using busy
    exact exists_conflict refused
  | cons head rest =>
    refine rests first ?_
    simpa [queue] using next

namespace Attended

theorem empty : Table.empty.Attended [] :=
  fun _ => .inr (rests_of_queueOf_eq_nil (by simp [queueOf]))

theorem moves {task : Task} {done : Step} (attended : table.Attended (task :: tasks))
    (regular : table.Regular) (move : table.Moves task done) :
    done.table.Attended (done.next ++ tasks) := by
  intro resource
  have earlier := attended resource
  cases move with
  | @rests drained events blocked quiet =>
    by_cases same : resource = drained
    · subst same
      exact .inr (blocked.congr (by simp) (by simp))
    · rcases earlier with member | rests
      · refine .inl ?_
        simpa [same] using member
      · exact .inr (rests.congr (by simp) (by simp))
  | @serves drained request rest head fits =>
    by_cases same : resource = drained
    · refine .inl ?_
      simp [same, Task.afterGrant]
    · rcases earlier with member | rests
      · refine .inl (List.mem_append_right _ ?_)
        simpa [same] using member
      · have other : resource ≠ request.lock.resource := by
          rwa [(regular.filed_head head).here]
        refine .inr (rests.congr ?_ ?_)
        · rw [locksOn_grant_of_ne _ other, locksOn_dequeue]
        · rw [queueOf_grant, queueOf_dequeue, if_neg same]
  | @gives txn released =>
    by_cases same : resource = released
    · exact .inl (by simp [same])
    · rcases earlier with member | rests
      · refine .inl (List.mem_append_right _ ?_)
        simpa using member
      · exact .inr (rests.congr (locksOn_remove_of_ne table txn same) (by simp))
  | defers | skips | completes =>
    rcases earlier with member | rests
    · exact .inl (by simpa using member)
    · exact .inr rests

theorem rests (attended : table.Attended []) (resource : Resource) : table.Rests resource :=
  (attended resource).resolve_left List.not_mem_nil

theorem grant (attended : table.Attended []) (regular : table.Regular) {lock : Lock}
    (stronger : ∀ held, table.heldLock? lock.owner lock.resource = some held →
      lock.mode.covers held.mode = true) : (table.grant lock).Attended tasks :=
  fun resource => .inr ((attended.rests resource).grant regular stronger)

/-- Only the queue that a request joins needs to be looked at. -/
theorem enqueue (attended : table.Attended []) {request : Request} {place : Place}
    (here : .drain request.lock.resource ∈ tasks ∨
      (table.enqueue request place).Rests request.lock.resource) :
    (table.enqueue request place).Attended tasks := by
  intro resource
  by_cases same : resource = request.lock.resource
  · rw [same]
    exact here
  · refine .inr ((attended.rests resource).congr (locksOn_enqueue table request place resource) ?_)
    rw [queueOf_enqueue, if_neg same]

theorem opens {txn : Txn} {call : Call} {stage : Stage} {closing : Journal}
    (attended : table.Attended []) (regular : table.Regular)
    (opens : table.Opens txn call stage closing) : stage.table.Attended stage.tasks := by
  cases opens with
  | acquireGranted free | exchangeGranted free =>
    exact attended.grant regular fun held found => by simp [free] at found
  | promoteGranted current differs stronger =>
    apply attended.grant regular
    intro held found
    rw [current, Option.some.injEq] at found
    exact found ▸ stronger
  | acquireQueued free busy => exact attended.enqueue (.inr ((attended.rests _).enqueue_back busy))
  | promoteQueued current differs stronger busy =>
    exact attended.enqueue (.inr (rests_enqueue_front busy))
  | exchangeQueued => exact attended.enqueue (.inl List.mem_cons_self)
  | releaseStarted => exact fun resource => .inr (attended.rests resource)

theorem leads {stage now : Stage} (attended : stage.table.Attended stage.tasks)
    (regular : stage.table.Regular) (path : stage.Leads now) :
    now.table.Attended now.tasks :=
  regular.leads_keeps (fun regular before move => before.moves regular move) attended path

theorem run (turns : List Turn) : (Table.empty.run turns).Attended [] :=
  Regular.run_keeps (fun regular before move => before.moves regular move)
    (fun regular before started => before.opens regular started) empty turns

end Attended
end Table

/-- Between calls, whoever is next in line waits for a lock that another transaction holds there.
So nobody waits for a resource that nobody holds. -/
theorem next_in_line_waits_for_holder (turns : List Turn) (resource : Resource) :
    (∀ request rest, (Table.empty.run turns).queueOf resource = request :: rest →
      ∃ held ∈ (Table.empty.run turns).locksOn resource,
        held.owner ≠ request.owner ∧ request.lock.mode.compatible held.mode = false) ∧
    ((Table.empty.run turns).locksOn resource = [] →
      (Table.empty.run turns).queueOf resource = []) := by
  have rests := (Table.Attended.run turns).rests resource
  constructor
  · intro request rest head
    exact rests request (by simp [head])
  · intro free
    cases queue : (Table.empty.run turns).queueOf resource with
    | nil => rfl
    | cons request rest =>
      obtain ⟨held, here, -⟩ := rests request (by simp [queue])
      rw [free] at here
      exact absurd here List.not_mem_nil

end LockManager
