import LockManager.Proofs.Regular

/-! Mutual exclusion. Whatever calls are made and wherever a call has got to, locks that different
transactions hold on one resource are compatible: every grant is checked against the others' locks
as they are when it is made, and nothing else adds a lock or changes a mode. -/
namespace LockManager

/-- Every table there is to see in a run: between calls, and at each stage of a call, so right
after each grant. -/
inductive Occurs : Table → Prop
  | between (turns : List Turn) : Occurs (Table.empty.run turns)
  | within {turns : List Turn} {txn : Txn} {call : Call} {stage now : Stage} {closing : Journal}
      (opens : (Table.empty.run turns).Opens txn call stage closing) (path : stage.Leads now) :
      Occurs now.table

namespace Table

variable {table : Table}

def Exclusive (table : Table) : Prop :=
  ∀ resource, ∀ first ∈ table.locksOn resource, ∀ second ∈ table.locksOn resource,
    first.owner ≠ second.owner → first.mode.compatible second.mode = true

namespace Exclusive

theorem empty : Table.empty.Exclusive := fun _ _ member => by simp [locksOn] at member

/-- With fewer locks on each resource there is less to conflict. -/
theorem of_subset {after : Table} (exclusive : table.Exclusive)
    (fewer : ∀ resource, after.locksOn resource ⊆ table.locksOn resource) : after.Exclusive :=
  fun resource first here second there =>
    exclusive resource first (fewer resource here) second (fewer resource there)

theorem grant (exclusive : table.Exclusive) (regular : table.Regular) {lock : Lock}
    (fits : table.Fits lock.resource lock) : (table.grant lock).Exclusive := by
  obtain ⟨ledger, books⟩ := regular.books
  intro resource first here second there differ
  rw [books.locksOn_grant] at here there
  by_cases same : resource = lock.resource
  · rw [if_pos same] at here there
    subst same
    rcases Ledger.mem_put here with rfl | ⟨here, -⟩ <;>
      rcases Ledger.mem_put there with rfl | ⟨there, -⟩
    · exact absurd rfl differ
    · exact fits second there (Ne.symm differ)
    · rw [Mode.compatible_comm]
      exact fits first here differ
    · exact exclusive _ first here second there differ
  · rw [if_neg same] at here there
    exact exclusive resource first here second there differ

theorem remove (exclusive : table.Exclusive) (txn : Txn) (resource : Resource) :
    (table.remove txn resource).Exclusive := by
  apply exclusive.of_subset
  intro other lock member
  by_cases same : other = resource
  · rw [locksOn, entry_remove, if_pos same] at member
    exact List.mem_of_mem_eraseP member
  · rwa [locksOn_remove_of_ne table txn same] at member

theorem moves {task : Task} {done : Step} (exclusive : table.Exclusive)
    (regular : table.Regular) (move : table.Moves task done) : done.table.Exclusive := by
  cases move with
  | rests => exact exclusive.of_subset fun _ => by simp
  | @serves resource request rest head fits =>
    have taken : (table.dequeue resource).Exclusive := exclusive.of_subset fun _ => by simp
    have room : (table.dequeue resource).Fits request.lock.resource request.lock := by
      rw [(regular.filed_head head).here]
      intro held member
      rw [locksOn_dequeue] at member
      exact fits held member
    exact taken.grant (regular.dequeue resource) room
  | gives => exact exclusive.remove _ _
  | defers | skips | completes => exact exclusive

theorem opens {txn : Txn} {call : Call} {stage : Stage} {closing : Journal}
    (exclusive : table.Exclusive) (regular : table.Regular)
    (opens : table.Opens txn call stage closing) : stage.table.Exclusive := by
  cases opens with
  | acquireGranted free room | exchangeGranted free listed room =>
    exact exclusive.grant regular (mustQueue_eq_false_iff.mp room).1
  | promoteGranted held differs stronger room =>
    exact exclusive.grant regular (admits_iff.mp room)
  | acquireQueued | exchangeQueued | promoteQueued => exact exclusive.of_subset fun _ => by simp
  | releaseStarted => exact exclusive

theorem leads {stage now : Stage} (exclusive : stage.table.Exclusive)
    (regular : stage.table.Regular) (path : stage.Leads now) : now.table.Exclusive :=
  regular.leads_keeps (motive := fun table _ => table.Exclusive)
    (fun regular before move => before.moves regular move) exclusive path

theorem run (turns : List Turn) : (Table.empty.run turns).Exclusive :=
  Regular.run_keeps (motive := fun table _ => table.Exclusive)
    (fun regular before move => before.moves regular move)
    (fun regular before started => before.opens regular started) empty turns

end Exclusive
end Table

/-- In whatever is there to see of a run, two transactions hold compatible modes on a resource. -/
theorem compatible_of_occurs {table : Table} (occurs : Occurs table) {resource : Resource}
    {first second : Lock} (here : first ∈ table.locksOn resource)
    (there : second ∈ table.locksOn resource) (differ : first.owner ≠ second.owner) :
    first.mode.compatible second.mode = true := by
  cases occurs with
  | between turns => exact Table.Exclusive.run turns resource first here second there differ
  | @within turns txn call stage now closing opens path =>
    have regular := Table.Regular.run turns
    have start := (Table.Exclusive.run turns).opens regular opens
    exact start.leads (regular.opens opens) path resource first here second there differ

/-- A release lets in two readers of the orders. -/
theorem queuedExchange_compatible :
    let cascade : Stage :=
      ⟨Table.empty.run Sample.queuedExchange, [], [.release ⟨1⟩ Sample.orders]⟩
    let second : Lock := ⟨Sample.orders, .shared, ⟨2⟩⟩
    let fourth : Lock := ⟨Sample.orders, .shared, ⟨4⟩⟩
    cascade.settled.table.locksOn Sample.orders = [second, fourth] ∧
      second.mode.compatible fourth.mode = true := by
  intro cascade second fourth
  have held : ((Table.empty.run Sample.queuedExchange).heldLock? ⟨1⟩ Sample.orders).isSome := by
    decide +kernel
  have occurs : Occurs cascade.settled.table := .within (.releaseStarted held) cascade.leads_settled
  have both : cascade.settled.table.locksOn Sample.orders = [second, fourth] := by
    decide +kernel
  have here : second ∈ cascade.settled.table.locksOn Sample.orders := by
    rw [both]
    exact List.mem_cons_self
  have there : fourth ∈ cascade.settled.table.locksOn Sample.orders := by
    rw [both]
    exact List.mem_cons_of_mem _ List.mem_cons_self
  exact ⟨both, compatible_of_occurs occurs here there (by decide)⟩

end LockManager
