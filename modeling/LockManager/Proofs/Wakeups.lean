import LockManager.Proofs.Discipline

/-! Wakeups. Whoever is marked as blocked has a request in a queue, or one that was granted and
still has its commit among the tasks. In a disciplined run the marks tell exactly who waits: a
commit wakes a transaction whose only request has left its queue. -/
namespace LockManager
open Std

/-- The transaction that a task wakes. -/
def Task.woken? : Task → Option Txn
  | .commit request => some request.caller
  | .drain _ | .release _ _ | .deferred _ _ => none

theorem Task.woken?_eq_some {task : Task} {txn : Txn} (wakes : task.woken? = some txn) :
    ∃ request, task = .commit request ∧ request.caller = txn := by
  cases task with
  | commit request => exact ⟨request, rfl, Option.some.inj wakes⟩
  | drain | release | deferred => cases wakes

namespace Table

variable {table : Table} {handles : ExtTreeMap Txn Handle}

theorem Moves.isBlocked {task : Task} {done : Step} (move : table.Moves task done) (txn : Txn) :
    Manager.isBlocked ⟨done.table, done.events.foldl Manager.notify handles⟩ txn =
      if task.woken? = some txn then false else Manager.isBlocked ⟨table, handles⟩ txn := by
  have quiet (other : ∀ request, task ≠ .commit request) :
      Manager.isBlocked ⟨done.table, done.events.foldl Manager.notify handles⟩ txn =
        Manager.isBlocked ⟨table, handles⟩ txn := by
    rw [Manager.foldl_notify_quiet handles (move.quiet other)]
    rfl
  cases task with
  | drain | release | deferred => exact quiet (by simp)
  | commit request =>
    cases move
    change Manager.isBlocked ⟨table, Manager.notify handles (.woken request.caller)⟩ txn = _
    rw [Manager.isBlocked_woken]
    simp only [Task.woken?, Option.some.injEq, eq_comm]

theorem Moves.isWaiting {task : Task} {done : Step} (move : table.Moves task done) {txn : Txn}
    (waiting : done.table.isWaiting txn = true) : table.isWaiting txn = true := by
  obtain ⟨resource, request, queued, owned⟩ := isWaiting_iff.mp waiting
  exact isWaiting_iff.mpr ⟨resource, request, (move.queueOf_sublist resource).subset queued, owned⟩

/-- Nobody comes to wait by a move. -/
theorem Moves.idle {task : Task} {done : Step} (move : table.Moves task done) {txn : Txn}
    (idle : table.isWaiting txn = false) : done.table.isWaiting txn = false := by
  rw [Bool.eq_false_iff] at idle ⊢
  exact fun waiting => idle (move.isWaiting waiting)

/-- A request that leaves its queue leaves its commit to be done. -/
theorem Moves.waits_or_commits {task : Task} {done : Step} (move : table.Moves task done)
    (regular : table.Regular) {txn : Txn} (waiting : table.isWaiting txn = true) :
    done.table.isWaiting txn = true ∨
      ∃ request, Task.commit request ∈ done.next ∧ request.caller = txn := by
  obtain ⟨resource, waiter, queued, owned⟩ := isWaiting_iff.mp waiting
  have still (same : done.table.queueOf resource = table.queueOf resource) :
      done.table.isWaiting txn = true :=
    isWaiting_iff.mpr ⟨resource, waiter, same ▸ queued, owned⟩
  cases move with
  | @serves drained request rest head fits =>
    by_cases same : resource = drained
    · subst same
      rw [head] at queued
      rcases List.mem_cons.mp queued with rfl | behind
      · refine .inr ⟨waiter, by simp [Task.afterGrant], ?_⟩
        rw [(regular.filed_head head).caller]
        exact owned
      · refine .inl (isWaiting_iff.mpr ⟨resource, waiter, ?_, owned⟩)
        rwa [queueOf_grant, queueOf_dequeue, if_pos rfl, head, List.tail_cons]
    · exact .inl (still (by rw [queueOf_grant, queueOf_dequeue, if_neg same]))
  | rests | gives | defers | skips | completes => exact .inl (still (by simp))

/-- A call that has to wait marks its transaction. -/
theorem isBlocked_wait (table after : Table) (request : Request) (place : Place) (txn : Txn) :
    Manager.isBlocked ⟨after, (table.noteConflict request.lock ++
        (table.wait request place).events).foldl Manager.notify handles⟩ txn =
      if txn = request.caller then true else Manager.isBlocked ⟨table, handles⟩ txn := by
  have noted : ∀ event ∈ table.noteConflict request.lock, event.signal? = none := by
    intro event member
    obtain ⟨held, -, rfl⟩ := List.mem_map.mp member
    rfl
  rw [List.foldl_append, Manager.foldl_notify_quiet handles noted]
  exact Manager.isBlocked_prepared table handles request.caller txn

theorem isBlocked_grant (table after : Table) (lock : Lock) (txn : Txn) :
    Manager.isBlocked ⟨after, [table.grantEvent lock].foldl Manager.notify handles⟩ txn =
      Manager.isBlocked ⟨table, handles⟩ txn := by
  rw [foldl_notify_grantEvent]
  rfl

/-- Suspending, the last thing a call does, sets no mark. -/
theorem Opens.isBlocked_closing {txn : Txn} {call : Call} {stage : Stage} {closing : Journal}
    (opens : table.Opens txn call stage closing) (after : Table) (other : Txn) :
    Manager.isBlocked ⟨after, closing.foldl Manager.notify handles⟩ other =
      Manager.isBlocked ⟨after, handles⟩ other := by
  cases opens with
  | acquireGranted | exchangeGranted | releaseStarted | promoteGranted => rfl
  | acquireQueued | exchangeQueued | promoteQueued =>
    exact Manager.isBlocked_suspended after handles txn other

end Table

namespace Manager

variable {manager : Manager} {tasks : List Task}

/-- Whoever is marked as blocked has a request in a queue, or a grant still to be completed. -/
def Accounted (manager : Manager) (tasks : List Task) : Prop :=
  ∀ txn, manager.isBlocked txn = true → manager.table.isWaiting txn = true ∨
    ∃ request, Task.commit request ∈ tasks ∧ request.caller = txn

namespace Accounted

theorem empty : Accounted {} [] := fun txn blocked => by simp [isBlocked, handle] at blocked

theorem moves {task : Task} {done : Step} (accounted : manager.Accounted (task :: tasks))
    (regular : manager.table.Regular) (move : manager.table.Moves task done) :
    Accounted ⟨done.table, done.events.foldl notify manager.handles⟩ (done.next ++ tasks) := by
  intro txn blocked
  rw [move.isBlocked] at blocked
  split at blocked
  · contradiction
  · next asleep =>
    rcases accounted txn blocked with waiting | ⟨request, due, caller⟩
    · rcases move.waits_or_commits regular waiting with still | ⟨request, new, caller⟩
      · exact .inl still
      · exact .inr ⟨request, List.mem_append_left _ new, caller⟩
    · rcases List.mem_cons.mp due with rfl | later
      · exact absurd (congrArg some caller) asleep
      · exact .inr ⟨request, List.mem_append_right _ later, caller⟩

theorem opens {txn : Txn} {call : Call} {stage : Stage} {closing : Journal}
    (accounted : manager.Accounted []) (opens : manager.table.Opens txn call stage closing) :
    Accounted ⟨stage.table, stage.journal.foldl notify manager.handles⟩ stage.tasks := by
  intro other blocked
  have waited (earlier : manager.isBlocked other = true) :
      manager.table.isWaiting other = true := by
    rcases accounted other earlier with waiting | ⟨request, due, -⟩
    · exact waiting
    · cases due
  cases opens with
  | acquireGranted | exchangeGranted | promoteGranted =>
    rw [Table.isBlocked_grant] at blocked
    exact .inl ((Table.isWaiting_grant _ _ other).trans (waited blocked))
  | acquireQueued | exchangeQueued | promoteQueued =>
    refine .inl (Table.isWaiting_enqueue.mpr ?_)
    rw [Table.isBlocked_wait manager.table _ ⟨txn, ⟨_, _, txn⟩, _⟩] at blocked
    split at blocked
    · next mine => exact .inr mine.symm
    · exact .inl (waited blocked)
  | releaseStarted => exact .inl (waited blocked)

theorem run (turns : List Turn) : (Manager.run {} turns).Accounted [] := by
  have both : (Manager.run {} turns).table.Regular ∧ (Manager.run {} turns).Accounted [] := by
    refine run_invariant (motive := fun manager => manager.table.Regular ∧ manager.Accounted [])
      (fun manager turn before => ?_) ⟨Table.Regular.empty, empty⟩ turns
    refine take_keeps (motive := fun manager tasks => manager.table.Regular ∧ manager.Accounted tasks)
      before (fun started => ⟨before.1.opens started, before.2.opens started⟩)
      (fun earlier move => ⟨earlier.1.moves move, earlier.2.moves earlier.1 move⟩)
      fun started ended => ⟨ended.1, fun txn blocked => ended.2 txn ?_⟩
    rwa [started.isBlocked_closing] at blocked
  exact both.2

end Accounted

/-- Whoever has a request in a queue is marked as blocked, and nobody is to be woken who has. -/
structure Asleep (manager : Manager) (tasks : List Task) : Prop where
  marked : ∀ txn, manager.table.isWaiting txn = true → manager.isBlocked txn = true
  finished : ∀ request, Task.commit request ∈ tasks →
    manager.table.isWaiting request.caller = false

namespace Asleep

theorem empty : Asleep {} [] where
  marked txn waiting := by
    obtain ⟨resource, request, queued, -⟩ := Table.isWaiting_iff.mp waiting
    have nobody : request ∉ Table.empty.queueOf resource := by simp [Table.queueOf]
    exact absurd queued nobody
  finished request due := by cases due

theorem moves {task : Task} {done : Step} (asleep : manager.Asleep (task :: tasks))
    (regular : manager.table.Regular) (one : OneRequestEach manager.table.queueOf)
    (move : manager.table.Moves task done) :
    Asleep ⟨done.table, done.events.foldl notify manager.handles⟩ (done.next ++ tasks) where
  marked txn waiting := by
    have before := move.isWaiting waiting
    rw [move.isBlocked]
    split
    · next wakes =>
      obtain ⟨request, rfl, rfl⟩ := Task.woken?_eq_some wakes
      rw [asleep.finished request List.mem_cons_self] at before
      contradiction
    · exact asleep.marked txn before
  finished request due := by
    rw [Bool.eq_false_iff]
    intro waiting
    rcases List.mem_append.mp due with new | later
    · cases move with
      | @serves resource served rest head fits =>
        obtain rfl : request = served := by simpa [Task.afterGrant] using new
        obtain ⟨other, waiter, queued, owned⟩ := Table.isWaiting_iff.mp waiting
        rw [Table.queueOf_grant] at queued
        rw [(regular.filed_head head).caller] at owned
        exact one.gone_of_head head other waiter queued owned
      | gives | defers => simp at new
      | rests | skips | completes => cases new
    · have idle := asleep.finished request (List.mem_cons_of_mem _ later)
      rw [move.isWaiting waiting] at idle
      contradiction

theorem opens {txn : Txn} {call : Call} {stage : Stage} {closing : Journal}
    (asleep : manager.Asleep []) (opens : manager.table.Opens txn call stage closing) :
    Asleep ⟨stage.table, stage.journal.foldl notify manager.handles⟩ stage.tasks where
  marked other waiting := by
    cases opens with
    | acquireGranted | exchangeGranted | promoteGranted =>
      rw [Table.isBlocked_grant]
      exact asleep.marked other (by simpa using waiting)
    | acquireQueued | exchangeQueued | promoteQueued =>
      rw [Table.isBlocked_wait manager.table _ ⟨txn, ⟨_, _, txn⟩, _⟩]
      split
      · rfl
      · next different =>
        rcases Table.isWaiting_enqueue.mp waiting with earlier | mine
        · exact asleep.marked other earlier
        · exact absurd mine.symm different
    | releaseStarted => exact asleep.marked other waiting
  finished request due := by
    cases opens <;> simp at due

theorem run {turns : List Turn} (disciplined : Table.empty.Disciplined turns) :
    (Manager.run {} turns).Asleep [] := by
  have all : (Manager.run {} turns).table.Regular ∧
      OneRequestEach (Manager.run {} turns).table.queueOf ∧ (Manager.run {} turns).Asleep [] := by
    refine disciplined_invariant (motive := fun manager => manager.table.Regular ∧
        OneRequestEach manager.table.queueOf ∧ manager.Asleep [])
      (fun manager turn before idle => ?_) ⟨Table.Regular.empty, OneRequestEach.empty, empty⟩
      disciplined
    obtain ⟨regular, one, asleep⟩ := before
    refine take_keeps (motive := fun manager tasks => manager.table.Regular ∧
        OneRequestEach manager.table.queueOf ∧ manager.Asleep tasks) ⟨regular, one, asleep⟩
      (fun started => ⟨regular.opens started, one.opens idle started, asleep.opens started⟩)
      (fun earlier move => ⟨earlier.1.moves move, earlier.2.1.moves move,
        earlier.2.2.moves earlier.1 earlier.2.1 move⟩)
      fun started ended => ⟨ended.1, ended.2.1, fun txn waiting => ?_, ended.2.2.finished⟩
    rw [started.isBlocked_closing]
    exact ended.2.2.marked txn waiting
  exact all.2.2

end Asleep
end Manager

/-- No wakeup is lost: between calls, whoever is marked as blocked has a request in some queue. In
a disciplined run none comes too early either: the marks are set for those who wait. -/
theorem blocked_iff_waiting (turns : List Turn) :
    (∀ txn, (Manager.run {} turns).isBlocked txn = true →
      ∃ resource, ∃ request ∈ (Manager.run {} turns).table.queueOf resource,
        request.owner = txn) ∧
    (Table.empty.Disciplined turns → ∀ txn,
      (Manager.run {} turns).isBlocked txn = true ↔
        (Manager.run {} turns).table.isWaiting txn = true) := by
  have waits : ∀ txn, (Manager.run {} turns).isBlocked txn = true →
      (Manager.run {} turns).table.isWaiting txn = true := by
    intro txn blocked
    rcases Manager.Accounted.run turns txn blocked with waiting | ⟨request, due, -⟩
    · exact waiting
    · cases due
  constructor
  · intro txn blocked
    exact Table.isWaiting_iff.mp (waits txn blocked)
  · intro disciplined txn
    exact ⟨waits txn, (Manager.Asleep.run disciplined).marked txn⟩

end LockManager
