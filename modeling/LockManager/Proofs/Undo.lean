import LockManager.Proofs.Releases
import LockManager.Proofs.Termination

/-! A lock given back at once leaves no trace. A lock that is granted on request is the last of its
resource and the last of its owner, and nobody is in line for the resource. So the release strikes
out what the grant has added, finds an empty queue, and prunes what the grant has made. -/
namespace LockManager
open Std

/-- Striking out the entry that came last takes the ledger back. -/
theorem Ledger.strike_put {ledger : Ledger} {lock : Lock}
    (fresh : ∀ held ∈ ledger, held.sameGrant lock = false) :
    (ledger.put lock).strike lock.owner lock.resource = ledger := by
  have absent : ∀ held ∈ ledger, held.owner = lock.owner → held.resource ≠ lock.resource :=
    fun held known => by simpa [Lock.sameGrant] using fresh held known
  have last : Ledger.strike [lock] lock.owner lock.resource = [] := by simp [strike]
  rw [put_of_fresh fresh, strike, List.filter_append, ← strike, ← strike, last, List.append_nil,
    strike_of_absent absent]

/-- Tables that show the same ledger and have the same queues are the same. -/
theorem Tidy.eq_of_books {table other : Table} {ledger : Ledger} (tidy : Tidy table [])
    (neat : Tidy other []) (books : Books ledger table) (same : Books ledger other)
    (queues : ∀ resource, table.queueOf resource = other.queueOf resource) : table = other :=
  tidy.table_eq neat (fun resource => (books.active resource).trans (same.active resource).symm)
    queues fun txn => (books.held txn).trans (same.held txn).symm

namespace Table

variable {table : Table} {lock : Lock} {txn : Txn} {resource : Resource} {mode : Mode}

/-- The entry and the index that a grant has made are pruned again, and others are as before. -/
theorem Regular.prune_remove_grant (regular : table.Regular) (tidy : Tidy table [])
    (free : table.heldLock? lock.owner lock.resource = none) :
    ((table.grant lock).remove lock.owner lock.resource).prune lock.resource = table := by
  obtain ⟨ledger, books⟩ := regular.books
  have fresh : ∀ held ∈ ledger, held.sameGrant lock = false := fun held known => by
    simpa [Lock.sameGrant] using books.absent_of_heldLock? free held known
  have struck := ((books.grant lock).remove lock.owner lock.resource).prune lock.resource
  rw [Ledger.strike_put fresh] at struck
  have pruned := ((tidy.grant lock).remove lock.owner lock.resource).prune
  exact pruned.eq_of_books tidy struck books fun resource => by simp

theorem Regular.lockOf?_grant (regular : table.Regular) (lock : Lock) :
    ((table.grant lock).entry lock.resource).lockOf? lock.owner = some lock := by
  obtain ⟨ledger, books⟩ := regular.books
  exact (books.grant lock).lockOf?_of_mem (Ledger.lock_mem_put ledger lock)
    (Lock.sameGrant_iff.mpr ⟨rfl, rfl⟩)

/-- Where nobody is in line, the release of a lock that was just granted lets nobody in. -/
theorem Regular.settle_release_grant (regular : table.Regular) (tidy : Tidy table [])
    (free : table.heldLock? lock.owner lock.resource = none)
    (nobody : table.queueOf lock.resource = []) :
    (table.grant lock).settle [.release lock.owner lock.resource] = ⟨table, [.released lock]⟩ := by
  have empty : ((table.grant lock).remove lock.owner lock.resource).queueOf lock.resource = [] := by
    rw [queueOf_remove, queueOf_grant, nobody]
  rw [settle_release, settle_drain_idle empty, regular.lockOf?_grant,
    regular.prune_remove_grant tidy free]
  rfl

/-- An acquired lock that is there after the call was granted by it. One that waits is not there,
as its owner had none on the resource. -/
theorem Opens.granted_of_mem {stage : Stage} {closing : Journal}
    (opens : table.Opens txn (.acquire resource mode) stage closing) (regular : table.Regular)
    (there : ⟨resource, mode, txn⟩ ∈ stage.settled.table.locksOn resource) :
    table.heldLock? txn resource = none ∧ table.queueOf resource = [] ∧
      stage.settled.table = table.grant ⟨resource, mode, txn⟩ ∧
      stage.settled.events ++ closing = [table.grantEvent ⟨resource, mode, txn⟩] := by
  cases opens with
  | acquireGranted free room =>
    refine ⟨free, (mustQueue_eq_false_iff.mp room).2, ?_, ?_⟩ <;> simp [Stage.settled]
  | acquireQueued free busy =>
    obtain ⟨ledger, books⟩ := regular.books
    simp only [Stage.settled, settle_nil, locksOn_enqueue] at there
    exact absurd rfl (books.absent_of_heldLock? free _ (books.mem_locksOn.mp there).1 rfl)

end Table

/-- The release tells the handles nothing, so they are left as the grant has found them. -/
theorem Manager.release_granted {manager : Manager} {lock : Lock} (regular : manager.table.Regular)
    (tidy : Tidy manager.table [])
    (free : manager.table.heldLock? lock.owner lock.resource = none)
    (nobody : manager.table.queueOf lock.resource = []) :
    call ⟨manager.table.grant lock, manager.handles⟩ lock.owner (.release lock.resource) =
      .ok (manager, [.released lock]) := by
  obtain ⟨ledger, books⟩ := regular.books
  have held : (manager.table.grant lock).heldLock? lock.owner lock.resource = some lock :=
    (books.grant lock).heldLock?_of_mem (Ledger.lock_mem_put ledger lock)
  have released : (manager.table.grant lock).call lock.owner (.release lock.resource) =
      .ok ⟨manager.table, [.released lock]⟩ := by
    rw [Table.call, Table.release, held, Option.isSome_some, if_pos rfl,
      regular.settle_release_grant tidy free nobody]
  simp only [call, released]
  rfl

/-- After any run, a transaction that acquires a lock and has it at once can give it back, and then
everything is as it was: both maps with their keys, all locks and queues in their order, and the
handles. The release tells of nothing but the lock, so nobody is granted anything or woken. -/
theorem release_undoes_acquire (turns : List Turn) {txn : Txn} {resource : Resource} {mode : Mode}
    {after : Manager} {journal : Journal}
    (accepted : (Manager.run {} turns).call txn (.acquire resource mode) = .ok (after, journal))
    (granted : ⟨resource, mode, txn⟩ ∈ after.table.locksOn resource) :
    after.call txn (.release resource) =
      .ok (Manager.run {} turns, [.released ⟨resource, mode, txn⟩]) := by
  have regular : (Manager.run {} turns).table.Regular := by
    rw [Manager.table_run]
    exact .run turns
  have tidy : Tidy (Manager.run {} turns).table [] := by
    rw [Manager.table_run]
    exact Tidy.run turns
  obtain ⟨stage, closing, opens, rfl⟩ := Manager.opens_of_accepted accepted
  obtain ⟨free, nobody, settled, events⟩ := opens.granted_of_mem regular granted
  rw [settled, events, Table.foldl_notify_grantEvent]
  exact Manager.release_granted regular tidy free nobody

namespace Sample

/-- The first transaction reads the orders, and the second waits for the stock, which the third
has. -/
def besideReader : List Turn :=
  [⟨⟨1⟩, .acquire orders .shared⟩, ⟨⟨3⟩, .acquire stock .exclusive⟩,
    ⟨⟨2⟩, .acquire stock .shared⟩]

end Sample

/-- Even while it waits for the stock, the second transaction can read the orders for a moment. -/
theorem besideReader_undone :
    let before := Manager.run {} Sample.besideReader
    let after := before.take ⟨⟨2⟩, .acquire Sample.orders .shared⟩
    after.table.locksHeldBy ⟨2⟩ = [⟨Sample.orders, .shared, ⟨2⟩⟩] ∧
      after.call ⟨2⟩ (.release Sample.orders) =
        .ok (before, [.released ⟨Sample.orders, .shared, ⟨2⟩⟩]) := by
  intro before after
  have taken : after.table.locksHeldBy ⟨2⟩ = [⟨Sample.orders, .shared, ⟨2⟩⟩] := by
    decide +kernel
  have granted : ⟨Sample.orders, .shared, ⟨2⟩⟩ ∈ after.table.locksOn Sample.orders := by
    decide +kernel
  have succeeds : before.failure? ⟨2⟩ (.acquire Sample.orders .shared) = none := by
    decide +kernel
  obtain ⟨journal, accepted⟩ := Manager.accepted_of_failure? succeeds
  exact ⟨taken, release_undoes_acquire Sample.besideReader accepted granted⟩

end LockManager
