import LockManager.Proofs.Tidy

/-! Requests wait where they belong: in the queue of the resource they want, made by the owner of
the wanted lock, with only the owner's locks to give back. Moves take requests off queues and never
add or change one, so every table on the way is as regular as the one it started from. -/
namespace LockManager

structure Request.Filed (request : Request) (resource : Resource) : Prop where
  here : request.lock.resource = resource
  caller : request.caller = request.owner
  own : ∀ lock ∈ request.releases, lock.owner = request.owner

namespace Table

variable {table : Table}

/-- The table keeps books, and its queues hold requests that belong there. -/
structure Regular (table : Table) : Prop where
  books : ∃ ledger, Books ledger table
  filed : ∀ resource, ∀ request ∈ table.queueOf resource, request.Filed resource

/-- A move takes at most the next in line off a queue. -/
theorem Moves.queueOf_sublist {task : Task} {done : Step} (move : table.Moves task done)
    (resource : Resource) :
    (done.table.queueOf resource).Sublist (table.queueOf resource) := by
  cases move with
  | rests | gives => simp
  | serves =>
    rw [queueOf_grant, queueOf_dequeue]
    split
    · exact List.tail_sublist _
    · exact List.Sublist.refl _
  | defers | skips | completes => exact List.Sublist.refl _

/-- A list of names for release starts with one that is held. -/
theorem locksToRelease_cons_ok {txn : Txn} {name : Resource} {earlier later : List Resource}
    {locks : List Lock} (listed : table.locksToRelease txn earlier (name :: later) = .ok locks) :
    ∃ lock others, table.heldLock? txn name = some lock ∧
      table.locksToRelease txn (name :: earlier) later = .ok others ∧ locks = lock :: others := by
  simp only [locksToRelease] at listed
  split at listed
  · contradiction
  · split at listed
    · contradiction
    · next lock found =>
      cases rest : table.locksToRelease txn (name :: earlier) later with
      | error rejection => simp [rest, Functor.map, Except.map] at listed
      | ok others =>
        simp only [rest, Functor.map, Except.map, Except.ok.injEq] at listed
        exact ⟨lock, others, found, rfl, listed.symm⟩

/-- The locks found for release are those listed, as they are held. -/
theorem locksToRelease_ok {txn : Txn} {earlier names : List Resource} {locks : List Lock}
    (listed : table.locksToRelease txn earlier names = .ok locks) :
    locks.map Lock.resource = names ∧ ∀ lock ∈ locks, lock ∈ table.locksHeldBy txn := by
  induction names generalizing earlier locks with
  | nil =>
    cases listed
    simp
  | cons name later ih =>
    obtain ⟨lock, others, found, rest, rfl⟩ := locksToRelease_cons_ok listed
    obtain ⟨named, held⟩ := ih rest
    have placed : lock.resource = name := by simpa using List.find?_some found
    refine ⟨by rw [List.map_cons, placed, named], List.forall_mem_cons.mpr ⟨?_, held⟩⟩
    exact List.mem_of_find?_eq_some found

/-- They are found name by name. -/
theorem eq_of_locksToRelease {txn : Txn} {earlier names : List Resource} {locks : List Lock}
    (listed : table.locksToRelease txn earlier names = .ok locks) :
    locks = names.filterMap (table.heldLock? txn) := by
  induction names generalizing earlier locks with
  | nil =>
    cases listed
    rfl
  | cons name later ih =>
    obtain ⟨lock, others, found, rest, rfl⟩ := locksToRelease_cons_ok listed
    rw [List.filterMap_cons_some found, ← ih rest]

/-- The locks found for release are the transaction's own. -/
theorem owner_of_locksToRelease (regular : table.Regular) {txn : Txn} {names : List Resource}
    {earlier : List Resource} {locks : List Lock}
    (listed : table.locksToRelease txn earlier names = .ok locks) :
    ∀ lock ∈ locks, lock.owner = txn := by
  obtain ⟨ledger, books⟩ := regular.books
  intro lock member
  exact (books.mem_locksHeldBy.mp ((locksToRelease_ok listed).2 lock member)).2

namespace Regular

theorem empty : Table.empty.Regular :=
  ⟨⟨[], Books.empty⟩, fun _ _ member => by simp [queueOf] at member⟩

theorem grant (regular : table.Regular) (lock : Lock) : (table.grant lock).Regular := by
  obtain ⟨ledger, books⟩ := regular.books
  constructor
  · exact ⟨_, books.grant lock⟩
  · intro resource request member
    rw [queueOf_grant] at member
    exact regular.filed resource request member

theorem enqueue (regular : table.Regular) {request : Request} (place : Place)
    (filed : request.Filed request.lock.resource) : (table.enqueue request place).Regular := by
  obtain ⟨ledger, books⟩ := regular.books
  constructor
  · exact ⟨ledger, books.enqueue request place⟩
  · intro resource other member
    rcases mem_queueOf_enqueue.mp member with earlier | ⟨rfl, rfl⟩
    · exact regular.filed resource other earlier
    · exact filed

theorem dequeue (regular : table.Regular) (resource : Resource) :
    (table.dequeue resource).Regular := by
  obtain ⟨ledger, books⟩ := regular.books
  constructor
  · exact ⟨ledger, books.dequeue resource⟩
  · intro other request member
    rw [queueOf_dequeue] at member
    split at member
    · exact regular.filed other request (List.mem_of_mem_tail member)
    · exact regular.filed other request member

theorem filed_head (regular : table.Regular) {resource : Resource} {request : Request}
    {rest : List Request} (head : table.queueOf resource = request :: rest) :
    request.Filed resource :=
  regular.filed resource request (head ▸ List.mem_cons_self)

theorem moves {task : Task} {done : Step} (regular : table.Regular)
    (move : table.Moves task done) : done.table.Regular := by
  obtain ⟨ledger, books⟩ := regular.books
  constructor
  · exact ⟨_, (Records.moves books move).books⟩
  · intro resource request member
    exact regular.filed resource request ((move.queueOf_sublist resource).subset member)

theorem opens {txn : Txn} {call : Call} {stage : Stage} {closing : Journal}
    (regular : table.Regular) (opens : table.Opens txn call stage closing) :
    stage.table.Regular := by
  cases opens with
  | acquireGranted | exchangeGranted | promoteGranted => exact regular.grant _
  | acquireQueued | promoteQueued =>
    exact regular.enqueue _ ⟨rfl, rfl, fun _ member => by simp at member⟩
  | exchangeQueued free listed =>
    exact regular.enqueue _ ⟨rfl, rfl, owner_of_locksToRelease regular listed⟩
  | releaseStarted => exact regular

theorem leads {stage now : Stage} (regular : stage.table.Regular) (path : stage.Leads now) :
    now.table.Regular :=
  path.invariant (motive := fun table _ _ => table.Regular) (fun before move => before.moves move)
    regular

theorem take (regular : table.Regular) (turn : Turn) : (table.take turn).table.Regular :=
  take_cases (motive := fun after => after.table.Regular) table turn regular
    fun stage _ started => (regular.opens started).leads stage.leads_settled

theorem run (turns : List Turn) : (Table.empty.run turns).Regular :=
  run_invariant (fun _ turn regular => regular.take turn) empty turns

section
variable {motive : Table → List Task → Prop}
  (moves : ∀ {table : Table} {task : Task} {later : List Task} {done : Step},
    table.Regular → motive table (task :: later) → table.Moves task done →
      motive done.table (done.next ++ later))
include moves

/-- What moves keep on regular tables holds at every stage of a call that starts with it. -/
theorem leads_keeps {stage now : Stage} (regular : stage.table.Regular)
    (initial : motive stage.table stage.tasks) (path : stage.Leads now) :
    motive now.table now.tasks := by
  have both : now.table.Regular ∧ motive now.table now.tasks :=
    path.invariant (motive := fun table _ tasks => table.Regular ∧ motive table tasks)
      (fun before move => ⟨before.1.moves move, moves before.1 before.2 move⟩)
      ⟨regular, initial⟩
  exact both.2

/-- What openings and moves keep on regular tables holds after every run. -/
theorem run_keeps
    (opens : ∀ {table : Table} {txn : Txn} {call : Call} {stage : Stage} {closing : Journal},
      table.Regular → motive table [] → table.Opens txn call stage closing →
        motive stage.table stage.tasks)
    (initial : motive Table.empty []) (turns : List Turn) : motive (Table.empty.run turns) [] := by
  have both : (Table.empty.run turns).Regular ∧ motive (Table.empty.run turns) [] := by
    refine run_invariant (motive := fun table => table.Regular ∧ motive table [])
      (fun table turn before => ⟨before.1.take turn, ?_⟩) ⟨empty, initial⟩ turns
    obtain ⟨regular, known⟩ := before
    exact take_cases (motive := fun after => motive after.table []) table turn known
      fun stage _ started => leads_keeps moves (regular.opens started)
        (opens regular known started) stage.leads_settled
  exact both.2

end

end Regular
end Table
end LockManager
