import LockManager.Table.Pending

/-! What follows from giving up a lock: the queue of its resource moves, a request let through may
give up further locks, and so on until nothing is left to do. The work is a stack of tasks, so
whatever a request sets off is finished before the request's next deferred release. -/
namespace LockManager
open Std

inductive Task
  /-- Let requests through from the front of a queue until the next one has to wait. -/
  | drain (resource : Resource)
  /-- Give up a lock and drain its resource. -/
  | release (txn : Txn) (resource : Resource)
  /-- Give up a lock on behalf of a granted request, if it is still held. -/
  | deferred (request : Request) (lock : Lock)
  /-- The grant of a request is complete: wake its transaction. -/
  | commit (request : Request)
  deriving DecidableEq

namespace Task

def share : Task → Nat
  | drain _ | commit _ => 1
  | release _ _ => 2
  | deferred _ _ => 3

/-- What is left to do once a request from the queue of `resource` has been granted. -/
def afterGrant (request : Request) (resource : Resource) : List Task :=
  request.releases.map (deferred request) ++ [commit request, drain resource]

def total (tasks : List Task) : Nat := (tasks.map share).foldr (· + ·) 0

@[simp] theorem total_nil : total [] = 0 := rfl

@[simp] theorem total_cons (task : Task) (tasks : List Task) :
    total (task :: tasks) = task.share + total tasks := rfl

@[simp] theorem total_append (before after : List Task) :
    total (before ++ after) = total before + total after := by
  simp only [total, ← List.sum_eq_foldr, List.map_append, List.sum_append]

theorem total_deferred (request : Request) (locks : List Lock) :
    total (locks.map (deferred request)) = 3 * locks.length := by
  induction locks with
  | nil => rfl
  | cons lock locks ih => simp [ih, share]; omega

theorem total_afterGrant (request : Request) (resource : Resource) :
    total (afterGrant request resource) = request.share := by
  rw [afterGrant, total_append, total_deferred]; rfl

end Task

/-- One task done: the table it leaves, what happened, and the tasks to do next. -/
structure Step where
  table : Table
  events : Journal := []
  next : List Task := []

/-- A table and what happened on the way to it. -/
structure Outcome where
  table : Table
  events : Journal := []

namespace Table

def step (table : Table) : Task → Step
  | .drain resource =>
      match table.queueOf resource with
      | [] => { table := table.prune resource }
      | request :: _ =>
          match (table.entry resource).conflict? request.lock.mode request.owner with
          | some held =>
              { table := table.prune resource, events := [.conflict request.lock.mode held] }
          | none =>
              let taken := table.dequeue resource
              { table := taken.grant request.lock
                events := [taken.grantEvent request.lock]
                next := Task.afterGrant request resource }
  | .release txn resource =>
      { table := table.remove txn resource
        events := ((table.entry resource).lockOf? txn).toList.map .released
        next := [.drain resource] }
  | .deferred request lock =>
      if (table.heldLock? lock.owner lock.resource).isSome then
        { table, next := [.release lock.owner lock.resource] }
      else { table, events := [.staleRelease request lock] }
  | .commit request => { table, events := [.committed request, .woken request.caller] }

/-- Every step uses up work. -/
theorem step_decreases (table : Table) (task : Task) :
    (table.step task).table.pending + Task.total (table.step task).next <
      table.pending + task.share := by
  cases task with
  | drain resource =>
    simp only [step]
    split
    · simp [Task.total, Task.share]
    · next request rest head =>
      split
      · simp [Task.total, Task.share]
      · have taken := pending_dequeue table head
        simp only [pending_grant, Task.total_afterGrant, Task.share]
        omega
  | release txn resource => simp [step, Task.total, Task.share]
  | deferred request lock =>
    simp only [step]
    split <;> simp [Task.total, Task.share]
  | commit request => simp [step, Task.total, Task.share]

/-- Does the tasks in order, and what each of them sets off before the next one. -/
def settle (table : Table) : List Task → Outcome
  | [] => { table }
  | task :: later =>
      let done := table.step task
      let rest := settle done.table (done.next ++ later)
      { table := rest.table, events := done.events ++ rest.events }
termination_by tasks => table.pending + Task.total tasks
decreasing_by
  have := step_decreases table task
  simp only [Task.total_append, Task.total_cons]
  omega

@[simp] theorem settle_nil (table : Table) : table.settle [] = { table } := by
  rw [settle]

theorem settle_cons (table : Table) (task : Task) (later : List Task) :
    table.settle (task :: later) =
      ⟨((table.step task).table.settle ((table.step task).next ++ later)).table,
        (table.step task).events ++
          ((table.step task).table.settle ((table.step task).next ++ later)).events⟩ := by
  rw [settle]

/-- Tasks are done one after another, each with all that it sets off. -/
theorem settle_append (table : Table) (first second : List Task) :
    table.settle (first ++ second) =
      ⟨((table.settle first).table.settle second).table,
        (table.settle first).events ++ ((table.settle first).table.settle second).events⟩ := by
  fun_induction settle table first with
  | case1 table => simp
  | case2 table task later done rest ih =>
    rw [List.cons_append, settle_cons, ← List.append_assoc, ih, List.append_assoc]

end Table
end LockManager
