import LockManager.Proofs.Locality
import LockManager.Proofs.Termination

/-! The two ways of an exchange. One that is granted at once takes its lock and then gives back the
others. One that finds others waiting goes to the front of the queue, and if nobody holds a
conflicting lock, draining the queue grants it there. Both ways lead to the same table. An exchange
with a conflict only leaves its request at the front. -/
namespace LockManager
open Std

namespace Table

variable {table : Table} {txn : Txn}

/-- The locks of a transaction on these resources, given back one after another, each with all that
follows from it. -/
def releaseInOrder (table : Table) (txn : Txn) (names : List Resource) : Table :=
  names.foldl (fun table name => (table.settle [.release txn name]).table) table

theorem settle_releases (table : Table) (txn : Txn) (names : List Resource) :
    (table.settle (names.map (.release txn))).table = table.releaseInOrder txn names := by
  induction names generalizing table with
  | nil => simp [releaseInOrder]
  | cons name later ih =>
    have split : (name :: later).map (Task.release txn) =
        [.release txn name] ++ later.map (.release txn) := rfl
    rw [split, settle_append, ih]
    rfl

/-- The deferred releases of a request do what its owner's releases would have done, as they find
every lock still held. -/
theorem Sound.settle_deferred {request : Request} {locks : List Lock} {below : List Task}
    (sound : table.Sound (locks.map (.deferred request) ++ below))
    (own : ∀ lock ∈ locks, lock.owner = txn) :
    (table.settle (locks.map (.deferred request))).table =
      table.releaseInOrder txn (locks.map Lock.resource) := by
  induction locks generalizing table with
  | nil => simp [releaseInOrder]
  | cons lock later ih =>
    obtain rfl := own lock List.mem_cons_self
    have held : (table.heldLock? lock.owner lock.resource).isSome :=
      isSome_heldLock?_iff.mpr (sound.backed lock.key List.mem_cons_self)
    let released : List Task := [.release lock.owner lock.resource]
    let stage : Stage := ⟨table, [], released ++ (later.map (.deferred request) ++ below)⟩
    have next : stage.table.Sound stage.tasks := sound.moves (.defers held)
    have rest := next.leads (Stage.leads_settle table [] released _)
    rw [List.map_cons, settle_deferred_held _ held, ih rest fun other member =>
      own other (List.mem_cons_of_mem _ member)]
    rfl

/-- A request that joins at the front of a queue and is taken off it leaves no trace. -/
theorem dequeue_enqueue {request : Request} (busy : table.queueOf request.lock.resource ≠ []) :
    (table.enqueue request .front).dequeue request.lock.resource = table := by
  have entries : ((table.enqueue request .front).dequeue request.lock.resource).entries =
      table.entries := ExtTreeMap.ext_getElem? fun key => by
    by_cases same : key = request.lock.resource
    · subst same
      cases found : table.entries[request.lock.resource]? with
      | none =>
        rw [queueOf, entry_eq, found] at busy
        exact absurd rfl busy
      | some entry => simp [dequeue, enqueue, entry_eq, found, Entry.enqueue]
    · simp [dequeue, enqueue, ExtTreeMap.getElem?_modify, ExtTreeMap.getElem?_insert, Ne.symm same]
  obtain ⟨_, _⟩ := table
  exact congrArg₂ mk entries rfl

end Table

/-- Between calls there is nothing to forget. -/
theorem Tidy.prune_eq {table : Table} (tidy : Tidy table []) (resource : Resource) :
    table.prune resource = table := by
  have marked : Tidy table [.drain resource] := tidy.mono fun _ member => by cases member
  exact (marked.prune resource).table_eq tidy (table.locksOn_prune resource)
    (table.queueOf_prune resource) (table.locksHeldBy_prune resource)

namespace Table

variable {table : Table} {txn : Txn} {resource : Resource}

/-- A queue at rest is left as it is. -/
theorem Rests.step_drain (rests : table.Rests resource) : ∃ events,
    table.step (.drain resource) = { table := table.prune resource, events } ∧
      ∀ event ∈ events, event.signal? = none := by
  have move := table.moves_step (.drain resource)
  have quiet := move.quiet (by simp)
  generalize table.step (.drain resource) = done at move quiet ⊢
  cases move with
  | rests => exact ⟨_, rfl, quiet⟩
  | serves head fits => exact absurd fits (rests.not_fits (by simp [head]))

/-- Draining a queue at rest does nothing between calls. -/
theorem Rests.settle_drain (rests : table.Rests resource) (tidy : Tidy table []) : ∃ events,
    table.settle [.drain resource] = ⟨table, events⟩ ∧ ∀ event ∈ events, event.signal? = none := by
  obtain ⟨events, drained, quiet⟩ := rests.step_drain
  refine ⟨events, ?_, quiet⟩
  simp only [settle_cons, drained, tidy.prune_eq, List.append_nil, settle_nil]

/-! ### What releases keep -/

theorem Attended.releaseInOrder (attended : table.Attended []) (regular : table.Regular)
    (txn : Txn) (names : List Resource) : (table.releaseInOrder txn names).Attended [] := by
  let stage : Stage := ⟨table, [], names.map (.release txn)⟩
  have start : stage.table.Attended stage.tasks := fun name => .inr (attended.rests name)
  rw [← settle_releases]
  exact start.leads regular stage.leads_settled

theorem tidy_releaseInOrder (tidy : Tidy table []) (txn : Txn) (names : List Resource) :
    Tidy (table.releaseInOrder txn names) [] := by
  have start : Tidy table (names.map (.release txn)) := tidy.mono fun _ member => by cases member
  rw [← settle_releases]
  exact (Stage.leads_settled ⟨table, [], _⟩).invariant
    (motive := fun table _ tasks => Tidy table tasks) (fun before move => before.moves move) start

theorem isWaiting_releaseInOrder (idle : table.isWaiting txn = false) (names : List Resource) :
    (table.releaseInOrder txn names).isWaiting txn = false := by
  rw [← settle_releases]
  exact (Stage.leads_settled ⟨table, [], names.map (.release txn)⟩).invariant
    (motive := fun table _ _ => table.isWaiting txn = false) (fun before move => move.idle before) idle

/-! ### Both ways of an exchange -/

variable {mode : Mode} {names : List Resource} {stage : Stage} {closing : Journal}

/-- An exchange that passes its checks takes one of the two ways. -/
theorem exists_opens_exchange (free : ¬ table.Holds txn resource)
    (releasable : table.Releasable txn names) (mode : Mode) :
    ∃ stage closing, table.Opens txn (.exchange resource mode names) stage closing := by
  obtain ⟨locks, listed⟩ := (exists_locksToRelease_iff Releasable.nil).mpr
    (by simpa [Releasable.reverse_iff] using releasable)
  have free := heldLock?_eq_none_iff.mpr free
  cases room : table.mustQueue ⟨resource, mode, txn⟩ with
  | false => exact ⟨_, _, .exchangeGranted free listed room⟩
  | true => exact ⟨_, _, .exchangeQueued free listed room⟩

/-- If nobody holds a conflicting lock, both ways come to the table of the direct one. What is left
of the queue after the exchange was at rest before, and nothing has happened to it since that the
releases have not looked after. -/
theorem Opens.settled_exchange (opens : table.Opens txn (.exchange resource mode names) stage closing)
    (sound : table.Sound []) (idle : table.isWaiting txn = false) (attended : table.Attended [])
    (tidy : Tidy table []) (fits : table.Fits resource ⟨resource, mode, txn⟩) :
    stage.settled.table = (table.grant ⟨resource, mode, txn⟩).releaseInOrder txn names := by
  have start := sound.opens idle opens
  cases opens with
  | exchangeGranted free listed room =>
    rw [← (locksToRelease_ok listed).1, ← settle_releases, List.map_map]
    rfl
  | @exchangeQueued _ _ _ locks free listed busy =>
    let request : Request := ⟨txn, ⟨resource, mode, txn⟩, locks⟩
    have some : table.queueOf resource ≠ [] := by
      intro empty
      rw [mustQueue_eq_false_iff.mpr ⟨fits, empty⟩] at busy
      contradiction
    have head : (table.enqueue request .front).queueOf resource =
        request :: table.queueOf resource := by
      rw [queueOf_enqueue, if_pos rfl]
    have fits' : (table.enqueue request .front).Fits resource request.lock := by
      rw [Fits, locksOn_enqueue]
      exact fits
    have served := start.moves (.serves head fits')
    have back : (table.enqueue request .front).dequeue resource = table := dequeue_enqueue some
    rw [back, Task.afterGrant, List.append_assoc] at served
    have given : ((table.enqueue request .front).givingBack resource request).table =
        (table.grant request.lock).releaseInOrder txn names := by
      rw [givingBack, back, served.settle_deferred (owner_of_locksToRelease sound.regular listed),
        (locksToRelease_ok listed).1]
    have stronger : ∀ held, table.heldLock? txn resource = .some held →
        mode.covers held.mode = true := fun held found => by simp [free] at found
    have attended : (table.grant request.lock).Attended [] := attended.grant sound.regular stronger
    have rests := (attended.releaseInOrder (sound.regular.grant _) txn names).rests resource
    obtain ⟨events, drained, -⟩ := rests.settle_drain (tidy_releaseInOrder (tidy.grant _) txn names)
    have settled := settle_drain_served head (Entry.conflict?_eq_none_iff.mpr fits')
    rw [given, drained] at settled
    exact congrArg Outcome.table settled

/-- An exchange with a conflict leaves its request at the front of the queue. -/
theorem Opens.settled_conflict (opens : table.Opens txn (.exchange resource mode names) stage closing)
    (tidy : Tidy table []) (conflict : ¬ table.Fits resource ⟨resource, mode, txn⟩) :
    ∃ locks events, table.locksToRelease txn [] names = .ok locks ∧
      stage.settled.table = table.enqueue ⟨txn, ⟨resource, mode, txn⟩, locks⟩ .front ∧
      stage.settled.events ++ closing = table.noteConflict ⟨resource, mode, txn⟩ ++
        (table.wait ⟨txn, ⟨resource, mode, txn⟩, locks⟩ .front).events ++ events ++ [.suspended txn] ∧
      ∀ event ∈ events, event.signal? = none := by
  cases opens with
  | exchangeGranted free listed room => exact absurd (mustQueue_eq_false_iff.mp room).1 conflict
  | @exchangeQueued _ _ _ locks free listed busy =>
    have refused : table.admits ⟨resource, mode, txn⟩ = false := by
      rw [Bool.eq_false_iff, ne_eq, admits_iff]
      exact conflict
    have rests : (table.enqueue ⟨txn, ⟨resource, mode, txn⟩, locks⟩ .front).Rests resource :=
      rests_enqueue_front refused
    obtain ⟨events, drained, quiet⟩ := rests.settle_drain (tidy.enqueue _ _)
    refine ⟨locks, events, listed, ?_, ?_, quiet⟩ <;> simp only [Stage.settled, drained]

end Table

namespace Manager

variable {manager : Manager} {txn : Txn}

/-- The outcome of a call on the table is told to the transactions. -/
theorem call_of_opens {call : Call} {stage : Stage} {closing : Journal}
    (opens : manager.table.Opens txn call stage closing) :
    manager.call txn call = .ok (⟨stage.settled.table,
      (stage.settled.events ++ closing).foldl notify manager.handles⟩,
        stage.settled.events ++ closing) := by
  rw [Manager.call, Table.call_ok_iff.mpr ⟨stage, closing, opens, rfl⟩]

/-- After a call, whoever does not wait is not marked as blocked. -/
theorem isBlocked_of_idle {turns : List Turn} (idle : (run {} turns).table.isWaiting txn = false) :
    (run {} turns).isBlocked txn = false := by
  rw [Bool.eq_false_iff]
  intro blocked
  rcases Accounted.run turns txn blocked with waiting | ⟨request, due, -⟩
  · rw [idle] at waiting
    contradiction
  · cases due

/-- An accepted call leads to a longer run. -/
theorem run_accepted {turns : List Turn} {call : Call} {after : Manager} {journal : Journal}
    (accepted : (manager.run turns).call txn call = .ok (after, journal)) :
    manager.run (turns ++ [⟨txn, call⟩]) = after := by
  have last : manager.run (turns ++ [⟨txn, call⟩]) = (manager.run turns).take ⟨txn, call⟩ :=
    List.foldl_append
  rw [last, take, accepted]

/-- Whoever comes to wait is told so, and suspended at the end of the call; nobody else hears of it. -/
theorem handle_of_wait {after : Table} {place : Place} {events : Journal} (request : Request)
    (quiet : ∀ event ∈ events, event.signal? = none) (other : Txn) :
    handle ⟨after, (manager.table.noteConflict request.lock ++
        (manager.table.wait request place).events ++ events ++
          [Event.suspended request.caller]).foldl notify manager.handles⟩ other =
      if other = request.caller then (manager.handle other).prepare.suspend
      else manager.handle other := by
  have noted : ∀ event ∈ manager.table.noteConflict request.lock, event.signal? = none := by
    intro event member
    obtain ⟨held, -, rfl⟩ := List.mem_map.mp member
    rfl
  rw [List.foldl_append, List.foldl_append, List.foldl_append, foldl_notify_quiet _ noted,
    foldl_notify_quiet _ quiet]
  change handle ⟨after, notify (notify manager.handles (.prepared request.caller))
    (.suspended request.caller)⟩ other = _
  rw [handle_notify after _ rfl, handle_notify after _ rfl]
  split <;> rfl

end Manager

/-- In a disciplined run, an exchange that passes its checks has one outcome on either way. If its
lock fits beside those of the others, the table is that of the grant and the releases in order, and
the transaction neither waits nor is marked as blocked. If not, the request with the locks to
release stands at the front of the queue, the transaction is marked, and nothing else has changed. -/
theorem exchange_ways_agree {turns : List Turn} (disciplined : Table.empty.Disciplined turns)
    {txn : Txn} {resource : Resource} {mode : Mode} {names : List Resource}
    (idle : (Table.empty.run turns).isWaiting txn = false)
    (free : ¬ (Table.empty.run turns).Holds txn resource)
    (releasable : (Table.empty.run turns).Releasable txn names) :
    ∃ after journal,
      (Manager.run {} turns).call txn (.exchange resource mode names) = .ok (after, journal) ∧
      ((Table.empty.run turns).Fits resource ⟨resource, mode, txn⟩ →
        after.table =
          ((Table.empty.run turns).grant ⟨resource, mode, txn⟩).releaseInOrder txn names ∧
        after.table.isWaiting txn = false ∧ after.isBlocked txn = false) ∧
      (¬ (Table.empty.run turns).Fits resource ⟨resource, mode, txn⟩ →
        ∃ locks : List Lock, locks.map Lock.resource = names ∧
          (∀ lock ∈ locks, lock ∈ (Table.empty.run turns).locksHeldBy txn) ∧
          after.table =
            (Table.empty.run turns).enqueue ⟨txn, ⟨resource, mode, txn⟩, locks⟩ .front ∧
          after.isBlocked txn = true ∧
          ∀ other, other ≠ txn → after.handle other = (Manager.run {} turns).handle other) := by
  have table : (Manager.run {} turns).table = Table.empty.run turns := Manager.table_run {} turns
  have sound := Table.Sound.run disciplined
  have tidy := Tidy.run turns
  obtain ⟨stage, closing, opens⟩ := Table.exists_opens_exchange free releasable mode
  have accepted := @Manager.call_of_opens (Manager.run {} turns) _ _ _ _ (table ▸ opens)
  refine ⟨_, _, accepted, ?_, ?_⟩
  · intro fits
    have same := opens.settled_exchange sound idle (.run turns) tidy fits
    have settled : stage.settled.table.isWaiting txn = false := by
      rw [same]
      exact Table.isWaiting_releaseInOrder (by simpa using idle) names
    refine ⟨same, settled, ?_⟩
    rw [← Manager.run_accepted accepted]
    apply Manager.isBlocked_of_idle
    rwa [Manager.run_accepted accepted]
  · intro conflict
    obtain ⟨locks, events, listed, same, noted, quiet⟩ := opens.settled_conflict tidy conflict
    obtain ⟨named, held⟩ := Table.locksToRelease_ok listed
    have handles (other : Txn) := @Manager.handle_of_wait (Manager.run {} turns) stage.settled.table
      .front events ⟨txn, ⟨resource, mode, txn⟩, locks⟩ quiet other
    rw [table, ← noted] at handles
    refine ⟨locks, named, held, same, ?_, ?_⟩
    · rw [Manager.isBlocked, handles, if_pos rfl]
      rfl
    · intro other different
      rw [handles, if_neg different]

namespace Sample

/-- The first transaction reads the orders, and the second waits to write them. The third has the
stock, which the fourth waits for. -/
def behindWriter : List Turn :=
  [⟨⟨1⟩, .acquire orders .shared⟩, ⟨⟨2⟩, .acquire orders .exclusive⟩,
    ⟨⟨3⟩, .acquire stock .exclusive⟩, ⟨⟨4⟩, .acquire stock .shared⟩]

end Sample

/-- Only the second transaction's request is in the way of the third, which shares the orders at
once. To write them it has to wait for the first. -/
theorem behindWriter_exchanges :
    let table := Table.empty.run Sample.behindWriter
    table.queueOf Sample.orders ≠ [] ∧
    (∃ after journal,
      (Manager.run {} Sample.behindWriter).call ⟨3⟩
        (.exchange Sample.orders .shared [Sample.stock]) = .ok (after, journal) ∧
      after.table =
        (table.grant ⟨Sample.orders, .shared, ⟨3⟩⟩).releaseInOrder ⟨3⟩ [Sample.stock] ∧
      after.table.isWaiting ⟨3⟩ = false ∧ after.isBlocked ⟨3⟩ = false) ∧
    ∃ after journal,
      (Manager.run {} Sample.behindWriter).call ⟨3⟩
        (.exchange Sample.orders .exclusive [Sample.stock]) = .ok (after, journal) ∧
      ∃ locks, after.table =
        table.enqueue ⟨⟨3⟩, ⟨Sample.orders, .exclusive, ⟨3⟩⟩, locks⟩ .front ∧
      after.isBlocked ⟨3⟩ = true := by
  intro table
  have disciplined : Table.empty.Disciplined Sample.behindWriter := by
    decide +kernel
  have idle : table.isWaiting ⟨3⟩ = false := by
    decide +kernel
  have free : ¬ table.Holds ⟨3⟩ Sample.orders := by
    decide +kernel
  have held : table.Holds ⟨3⟩ Sample.stock := by
    decide +kernel
  have releasable : table.Releasable ⟨3⟩ [Sample.stock] :=
    ⟨List.nodup_singleton _, by simpa using held⟩
  have fits : table.Fits Sample.orders ⟨Sample.orders, .shared, ⟨3⟩⟩ := by
    decide +kernel
  have conflict : ¬ table.Fits Sample.orders ⟨Sample.orders, .exclusive, ⟨3⟩⟩ := by
    decide +kernel
  obtain ⟨shared, told, accepted, atOnce, -⟩ := exchange_ways_agree disciplined idle free releasable
  obtain ⟨waiting, noted, queued, -, later⟩ := exchange_ways_agree disciplined idle free releasable
  obtain ⟨locks, -, -, same, blocked, -⟩ := later conflict
  exact ⟨by decide +kernel, ⟨shared, told, accepted, atOnce fits⟩, waiting, noted, queued, locks,
    same, blocked⟩

end LockManager
