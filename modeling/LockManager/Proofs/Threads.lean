import LockManager.Proofs.Pledges
import LockManager.Proofs.Tickets

/-! Threads that share a table, one for each transaction. A call has the table to itself until it
has done all its work there; if it has to wait, its thread then stays suspended while its handle is
marked as blocked, and other threads go on. Whenever a call returns, its effect is in place: nobody
else can take away what it was granted. -/
namespace LockManager

/-- Where the thread of a transaction is. -/
inductive Phase
  | running
  /-- In a call that has let go of the table, until it is woken. -/
  | suspended (call : Call)
  deriving DecidableEq

structure Threads where
  manager : Manager := {}
  phase : Txn → Phase := fun _ => .running

namespace Threads

/-- What comes of a thread's step. -/
inductive Result
  | refused (rejection : Rejection)
  /-- The call has to wait: its thread is about to suspend. -/
  | waits
  | returned
  deriving DecidableEq

def enter (threads : Threads) (txn : Txn) (phase : Phase) : Txn → Phase :=
  fun other => if other = txn then phase else threads.phase other

/-- A step of the thread of the turn's transaction. A running thread makes the call. One that is
suspended in it goes on once its handle is not marked any more. -/
def step? (threads : Threads) (turn : Turn) : Option (Result × Threads) :=
  match threads.phase turn.txn with
  | .running =>
      match threads.manager.call turn.txn turn.call with
      | .error rejection => some (.refused rejection, threads)
      | .ok (manager, journal) =>
          if .suspended turn.txn ∈ journal then
            some (.waits, { manager, phase := threads.enter turn.txn (.suspended turn.call) })
          else some (.returned, { threads with manager })
  | .suspended call =>
      if call = turn.call ∧ threads.manager.isBlocked turn.txn = false then
        some (.returned, { threads with phase := threads.enter turn.txn .running })
      else none

/-- What the threads come to when they take their steps in the given order. -/
def run? (threads : Threads) : List Turn → Option Threads
  | [] => some threads
  | turn :: later => (threads.step? turn).bind fun stepped => stepped.2.run? later

end Threads

namespace Turn

variable {turn : Turn} {table : Table} {task : Task} {tasks : List Task} {done : Step}

/-- The request of the turn is in a queue. -/
def Waits (turn : Turn) (table : Table) : Prop :=
  ∃ resource, ∃ request ∈ table.queueOf resource, turn.wanted? = some request.lock ∧
    request.releases.map Lock.resource = turn.call.gives

/-- The turn has the lock it asked for, and what it gives up is gone or about to go. -/
structure Served (turn : Turn) (table : Table) (tasks : List Task) : Prop where
  idle : table.isWaiting turn.txn = false
  holds : ∀ lock, turn.wanted? = some lock →
    lock ∈ table.locksHeldBy turn.txn ∧ (turn.txn, lock.resource) ∉ Task.pledges tasks
  gone : ∀ name ∈ turn.call.gives, table.Holds turn.txn name →
    (turn.txn, name) ∈ Task.pledges tasks

/-- Only its own pledges take something away from a turn that has been served. -/
theorem Served.moves (served : turn.Served table (task :: tasks))
    (sound : table.Sound (task :: tasks)) (move : table.Moves task done) :
    turn.Served done.table (done.next ++ tasks) := by
  have unserved : ∀ {resource : Resource} {request : Request} {rest : List Request},
      table.queueOf resource = request :: rest → request.owner ≠ turn.txn := by
    intro resource request rest head
    exact Table.isWaiting_eq_false_iff.mp served.idle resource request (head ▸ List.mem_cons_self)
  have locks := move.locksHeldBy turn.txn
  constructor
  · exact move.idle served.idle
  · intro lock wanted
    obtain ⟨held, unpledged⟩ := served.holds lock wanted
    constructor
    · rcases locks with same | ⟨resource, rfl, after⟩ | ⟨_, _, _, -, head, mine, -⟩
      · rwa [same]
      · rw [after, Table.mem_locksHeldBy_remove]
        refine ⟨held, fun _ same => unpledged ?_⟩
        rw [same]
        exact List.mem_cons_self
      · exact absurd mine (unserved head)
    · intro pledged
      rcases move.mem_pledges pledged with earlier | ⟨_, request, _, -, head, new, -⟩
      · exact unpledged earlier
      · obtain ⟨released, member, key⟩ := List.mem_map.mp new
        have own := (sound.regular.filed_head head).own released member
        exact unserved head (own.symm.trans (congrArg Prod.fst key))
  · intro name given held
    have before : table.Holds turn.txn name := by
      rcases locks with same | ⟨_, -, after⟩ | ⟨_, _, _, -, head, mine, -⟩
      · rwa [Table.Holds, same] at held
      · rw [after] at held
        exact (Table.holds_remove.mp held).1
      · exact absurd mine (unserved head)
    rcases sound.pledge_kept_or_gone move (served.gone name given before) with kept | gone
    · exact kept
    · exact absurd held gone

/-- A turn is served with its request, which leaves what the turn gives up to be released next. -/
theorem served_of_head {resource : Resource} (sound : table.Sound (.drain resource :: tasks))
    {request : Request} {rest : List Request} (head : table.queueOf resource = request :: rest)
    (wanted : turn.wanted? = some request.lock)
    (named : request.releases.map Lock.resource = turn.call.gives) :
    turn.Served ((table.dequeue resource).grant request.lock)
      (Task.afterGrant request resource ++ tasks) := by
  have owner : request.owner = turn.txn := owner_of_wanted? wanted
  have filed := sound.regular.filed_head head
  have inQueue : request ∈ table.queueOf resource := head ▸ List.mem_cons_self
  have stands := sound.stands resource request inQueue
  obtain ⟨ledger, books⟩ := (sound.regular.dequeue resource).books
  constructor
  · rw [Bool.eq_false_iff, ne_eq, Table.isWaiting_iff]
    rintro ⟨other, waiter, waiting, owned⟩
    rw [Table.queueOf_grant] at waiting
    exact sound.one.gone_of_head head other waiter waiting (owned.trans owner.symm)
  · intro lock asked
    rw [wanted, Option.some.injEq] at asked
    subst asked
    constructor
    · rw [← owner, (books.grant request.lock).mem_locksHeldBy]
      exact ⟨Ledger.lock_mem_put ledger request.lock, rfl⟩
    · rw [Task.pledges_append, Task.pledges_afterGrant, List.mem_append, not_or]
      constructor
      · intro new
        obtain ⟨released, member, key⟩ := List.mem_map.mp new
        exact (stands.of_mem member).2 ((congrArg Prod.snd key).trans filed.here)
      · intro old
        have idle : table.isWaiting turn.txn = false := sound.idle_of_pledge old
        exact Table.isWaiting_eq_false_iff.mp idle resource request inQueue owner
  · intro name given held
    rw [← named] at given
    obtain ⟨released, member, rfl⟩ := List.mem_map.mp given
    rw [Task.pledges_append, Task.pledges_afterGrant]
    refine List.mem_append_left _ (List.mem_map.mpr ⟨released, member, ?_⟩)
    rw [Lock.key, filed.own released member, owner]

/-- A turn whose request waits keeps waiting, or is served. -/
theorem Waits.moves (waits : turn.Waits table) (sound : table.Sound (task :: tasks))
    (move : table.Moves task done) :
    turn.Waits done.table ∨ turn.Served done.table (done.next ++ tasks) := by
  obtain ⟨resource, request, queued, wanted, named⟩ := waits
  have still (same : request ∈ done.table.queueOf resource) : turn.Waits done.table :=
    ⟨resource, request, same, wanted, named⟩
  cases move with
  | rests => exact .inl (still (by simpa using queued))
  | gives => exact .inl (still (by simpa using queued))
  | defers | skips | completes => exact .inl (still queued)
  | @serves drained served rest head fits =>
    by_cases same : request = served
    · subst same
      exact .inr (served_of_head sound head wanted named)
    · refine .inl (still ?_)
      rw [Table.queueOf_grant, Table.queueOf_dequeue]
      split
      · next here =>
        rw [here, head] at queued
        rw [here, head]
        exact (List.mem_cons.mp queued).resolve_left same
      · exact queued

variable {txn : Txn} {call : Call} {stage : Stage} {closing : Journal}

/-- A call either leaves its request and suspends, or it is served at once. -/
theorem waits_or_served_opens (sound : table.Sound []) (idle : table.isWaiting turn.txn = false)
    (opens : table.Opens turn.txn turn.call stage closing) :
    turn.Waits stage.table ∧ closing = [.suspended turn.txn] ∨
      turn.Served stage.table stage.tasks := by
  have joined (request : Request) (place : Place) : request ∈
      (table.enqueue request place).queueOf request.lock.resource :=
    Table.mem_queueOf_enqueue.mpr (.inr ⟨rfl, rfl⟩)
  have granted (lock : Lock) (mine : lock.owner = turn.txn) :
      (table.grant lock).isWaiting turn.txn = false ∧
        lock ∈ (table.grant lock).locksHeldBy turn.txn := by
    obtain ⟨ledger, books⟩ := sound.regular.books
    rw [Table.isWaiting_grant, (books.grant lock).mem_locksHeldBy]
    exact ⟨idle, Ledger.lock_mem_put ledger lock, mine⟩
  obtain ⟨txn, call⟩ := turn
  cases opens with
  | @acquireGranted resource mode | @promoteGranted resource mode =>
    obtain ⟨idle, held⟩ := granted ⟨resource, mode, txn⟩ rfl
    refine .inr ⟨idle, fun lock wanted => ?_, fun name given => absurd given List.not_mem_nil⟩
    cases wanted
    exact ⟨held, List.not_mem_nil⟩
  | @exchangeGranted resource mode names locks free listed =>
    obtain ⟨idle, held⟩ := granted ⟨resource, mode, txn⟩ rfl
    obtain ⟨named, present⟩ := Table.locksToRelease_ok listed
    have pledged (name : Resource) : (txn, name) ∈
        Task.pledges (locks.map fun held => .release txn held.resource) ↔ name ∈ names := by
      rw [← named, Task.pledges, List.filterMap_map]
      simp [Task.pledge?]
    refine .inr ⟨idle, fun lock wanted => ?_, fun name given _ => (pledged name).mpr given⟩
    cases wanted
    refine ⟨held, fun given => ?_⟩
    rw [pledged, ← named] at given
    obtain ⟨lock, member, here⟩ := List.mem_map.mp given
    exact Table.heldLock?_eq_none_iff.mp free ⟨lock, present lock member, here⟩
  | acquireQueued | promoteQueued => exact .inl ⟨⟨_, _, joined _ _, rfl, rfl⟩, rfl⟩
  | exchangeQueued free listed =>
    exact .inl ⟨⟨_, _, joined _ _, rfl, (Table.locksToRelease_ok listed).1⟩, rfl⟩
  | @releaseStarted resource held =>
    have nothing (lock : Lock) : wanted? ⟨txn, .release resource⟩ ≠ some lock := by simp [wanted?]
    refine .inr ⟨idle, fun lock wanted => absurd wanted (nothing lock), fun name given _ => ?_⟩
    rw [List.mem_singleton.mp given]
    exact List.mem_cons_self

/-- A call of another transaction leaves the turn as it is when it opens. -/
theorem Waits.opens (waits : turn.Waits table) (opens : table.Opens txn call stage closing) :
    turn.Waits stage.table := by
  obtain ⟨resource, request, queued, wanted, named⟩ := waits
  exact ⟨resource, request, opens.mem_queueOf queued, wanted, named⟩

theorem Served.opens (served : turn.Served table []) (different : turn.txn ≠ txn)
    (opens : table.Opens txn call stage closing) : turn.Served stage.table stage.tasks where
  idle := opens.isWaiting_of_ne different served.idle
  holds lock wanted := by
    rw [opens.locksHeldBy_of_ne different]
    refine ⟨(served.holds lock wanted).1, fun pledged => different (opens.own_pledges pledged)⟩
  gone name given held := by
    rw [Table.Holds, opens.locksHeldBy_of_ne different] at held
    cases served.gone name given held

/-- Once it is served, a turn stays so to the end of the call, and one that waits may be served. -/
theorem Served.leads (served : turn.Served stage.table stage.tasks)
    (sound : stage.table.Sound stage.tasks) : turn.Served stage.settled.table [] := by
  have both := stage.leads_settled.invariant
    (motive := fun table _ tasks => table.Sound tasks ∧ turn.Served table tasks)
    (fun before move => ⟨before.1.moves move, before.2.moves before.1 move⟩) ⟨sound, served⟩
  exact both.2

theorem Waits.leads (waits : turn.Waits stage.table) (sound : stage.table.Sound stage.tasks) :
    turn.Waits stage.settled.table ∨ turn.Served stage.settled.table [] := by
  have both := stage.leads_settled.invariant
    (motive := fun table _ tasks =>
      table.Sound tasks ∧ (turn.Waits table ∨ turn.Served table tasks))
    (fun before move => ⟨before.1.moves move, before.2.elim (fun waits => waits.moves before.1 move)
      fun served => .inr (served.moves before.1 move)⟩) ⟨sound, .inl waits⟩
  exact both.2

/-- Other transactions do not take away what a turn has come to. -/
theorem waits_or_served_take (sound : table.Sound []) {taken : Turn}
    (idle : table.isWaiting taken.txn = false) (different : turn.txn ≠ taken.txn)
    (before : turn.Waits table ∨ turn.Served table []) :
    turn.Waits (table.take taken).table ∨ turn.Served (table.take taken).table [] := by
  refine Table.take_cases
    (motive := fun after => turn.Waits after.table ∨ turn.Served after.table []) table taken before
    fun stage closing started => ?_
  have opened := sound.opens idle started
  rcases before with waits | served
  · exact (waits.opens started).leads opened
  · exact .inr ((served.opens different started).leads opened)

end Turn

namespace Threads

variable {threads after : Threads} {turn : Turn} {result : Result}

/-- What a step of a thread can be. -/
theorem step?_cases (stepped : threads.step? turn = some (result, after)) :
    (∃ rejection, result = .refused rejection ∧ after = threads) ∨
    (∃ outcome, threads.phase turn.txn = .running ∧
      threads.manager.table.call turn.txn turn.call = .ok outcome ∧
      after.manager = threads.manager.take turn ∧
      (.suspended turn.txn ∈ outcome.events ∧ result = .waits ∧
          after.phase = threads.enter turn.txn (.suspended turn.call) ∨
        .suspended turn.txn ∉ outcome.events ∧ result = .returned ∧
          after.phase = threads.phase)) ∨
    (threads.phase turn.txn = .suspended turn.call ∧
      threads.manager.isBlocked turn.txn = false ∧ result = .returned ∧
      after = { threads with phase := threads.enter turn.txn .running }) := by
  unfold step? at stepped
  split at stepped
  · next running =>
    split at stepped
    · next rejection refused =>
      cases stepped
      exact .inl ⟨rejection, rfl, rfl⟩
    · next manager journal accepted =>
      have taken : threads.manager.take turn = manager := by rw [Manager.take, accepted]
      unfold Manager.call at accepted
      split at accepted
      · contradiction
      · next outcome answer =>
        cases accepted
        refine .inr (.inl ⟨outcome, running, answer, ?_⟩)
        split at stepped <;> cases stepped
        · next suspends => exact ⟨taken.symm, .inl ⟨suspends, rfl, rfl⟩⟩
        · next passes => exact ⟨taken.symm, .inr ⟨passes, rfl, rfl⟩⟩
  · next call suspended =>
    split at stepped
    · next awake =>
      cases stepped
      exact .inr (.inr ⟨awake.1 ▸ suspended, awake.2, rfl, rfl⟩)
    · contradiction

/-- Running threads have no request in a queue, and a call that had to wait still does, or has been
served. -/
structure Steady (threads : Threads) : Prop where
  run : ∃ turns, Table.empty.Disciplined turns ∧ threads.manager = Manager.run {} turns
  running : ∀ txn, threads.phase txn = .running → threads.manager.table.isWaiting txn = false
  suspended : ∀ txn call, threads.phase txn = .suspended call →
    Turn.Waits ⟨txn, call⟩ threads.manager.table ∨ Turn.Served ⟨txn, call⟩ threads.manager.table []

namespace Steady

theorem start : Steady {} where
  run := ⟨[], trivial, rfl⟩
  running txn _ := by
    rw [Bool.eq_false_iff, ne_eq, Table.isWaiting_iff]
    rintro ⟨resource, request, queued, -⟩
    have nobody : request ∉ Table.empty.queueOf resource := by simp [Table.queueOf]
    exact nobody queued
  suspended txn call asleep := by cases asleep

theorem sound (steady : threads.Steady) : threads.manager.table.Sound [] := by
  obtain ⟨turns, disciplined, run⟩ := steady.run
  rw [run, Manager.table_run]
  exact Table.Sound.run disciplined

/-- A handle that is not marked belongs to a transaction that does not wait. -/
theorem idle_of_awake (steady : threads.Steady) {txn : Txn}
    (awake : threads.manager.isBlocked txn = false) :
    threads.manager.table.isWaiting txn = false := by
  obtain ⟨turns, disciplined, run⟩ := steady.run
  rw [Bool.eq_false_iff]
  intro waiting
  rw [run] at awake waiting
  rw [(Manager.Asleep.run disciplined).marked txn waiting] at awake
  contradiction

/-- A thread that goes on has been served. -/
theorem served_of_awake (steady : threads.Steady)
    (suspended : threads.phase turn.txn = .suspended turn.call)
    (awake : threads.manager.isBlocked turn.txn = false) :
    turn.Served threads.manager.table [] := by
  rcases steady.suspended turn.txn turn.call suspended with
    ⟨resource, request, queued, wanted, -⟩ | served
  · have others := Table.isWaiting_eq_false_iff.mp (steady.idle_of_awake awake)
    exact absurd (Turn.owner_of_wanted? wanted) (others resource request queued)
  · exact served

/-- A call that passes has its effect at once, and one that waits has left its request, unless it
was served from there. -/
theorem call_leads (steady : threads.Steady) {outcome : Outcome}
    (idle : threads.manager.table.isWaiting turn.txn = false)
    (accepted : threads.manager.table.call turn.txn turn.call = .ok outcome) :
    (turn.Waits outcome.table ∨ turn.Served outcome.table []) ∧
      (.suspended turn.txn ∉ outcome.events → turn.Served outcome.table []) := by
  obtain ⟨stage, closing, opens, rfl⟩ := Table.call_ok_iff.mp accepted
  have opened := steady.sound.opens idle opens
  rcases Turn.waits_or_served_opens steady.sound idle opens with ⟨waits, rfl⟩ | served
  · exact ⟨waits.leads opened, fun passes => absurd (by simp) passes⟩
  · exact ⟨.inr (served.leads opened), fun _ => served.leads opened⟩

theorem call (steady : threads.Steady) (idle : threads.manager.table.isWaiting turn.txn = false)
    (taken : after.manager = threads.manager.take turn)
    (own : after.phase turn.txn = .running ∧ after.manager.table.isWaiting turn.txn = false ∨
      after.phase turn.txn = .suspended turn.call ∧
        (turn.Waits after.manager.table ∨ turn.Served after.manager.table []))
    (others : ∀ txn, txn ≠ turn.txn → after.phase txn = threads.phase txn) : after.Steady where
  run := by
    obtain ⟨turns, disciplined, run⟩ := steady.run
    refine ⟨turns ++ [turn], disciplined.append ⟨?_, trivial⟩, ?_⟩
    · rwa [run, Manager.table_run] at idle
    · rw [taken, run, Manager.run, Manager.run, List.foldl_append]
      rfl
  running txn running := by
    by_cases mine : txn = turn.txn
    · subst mine
      rcases own with ⟨-, idle⟩ | ⟨suspended, -⟩
      · exact idle
      · rw [suspended] at running
        contradiction
    · rw [others txn mine] at running
      rw [taken, Manager.take_eq]
      exact Table.isWaiting_take_of_ne mine (steady.running txn running)
  suspended txn call suspended := by
    by_cases mine : txn = turn.txn
    · subst mine
      rcases own with ⟨running, -⟩ | ⟨same, come⟩
      · rw [running] at suspended
        contradiction
      · rw [same, Phase.suspended.injEq] at suspended
        exact suspended ▸ come
    · rw [others txn mine] at suspended
      rw [taken, Manager.take_eq]
      exact Turn.waits_or_served_take steady.sound idle mine (steady.suspended txn call suspended)

theorem resume (steady : threads.Steady) (idle : threads.manager.table.isWaiting turn.txn = false) :
    Steady { threads with phase := threads.enter turn.txn .running } where
  run := steady.run
  running txn running := by
    by_cases mine : txn = turn.txn
    · rwa [mine]
    · exact steady.running txn (by simpa only [enter, if_neg mine] using running)
  suspended txn call suspended := by
    by_cases mine : txn = turn.txn
    · simp only [enter, if_pos mine] at suspended
      contradiction
    · exact steady.suspended txn call (by simpa only [enter, if_neg mine] using suspended)

/-- What a call has done when it returns, and that every step leaves the threads steady. -/
theorem step (steady : threads.Steady) (stepped : threads.step? turn = some (result, after)) :
    after.Steady ∧ (result = .returned → turn.Served after.manager.table []) := by
  rcases step?_cases stepped with ⟨rejection, rfl, rfl⟩ |
    ⟨outcome, running, accepted, taken, come⟩ | ⟨suspended, awake, rfl, rfl⟩
  · exact ⟨steady, fun returned => by cases returned⟩
  · have idle := steady.running turn.txn running
    obtain ⟨waitsOrServed, passes⟩ := steady.call_leads idle accepted
    have table : after.manager.table = outcome.table := by
      rw [taken, Manager.take_eq, Table.take, accepted]
    rw [← table] at waitsOrServed passes
    rcases come with ⟨-, rfl, phase⟩ | ⟨passed, rfl, phase⟩
    · refine ⟨steady.call idle taken (.inr ⟨?_, waitsOrServed⟩) fun txn other => ?_, ?_⟩
      · rw [phase, enter, if_pos rfl]
      · rw [phase, enter, if_neg other]
      · intro returned
        cases returned
    · have served := passes passed
      refine ⟨steady.call idle taken (.inl ⟨?_, served.idle⟩) fun txn _ => ?_, fun _ => served⟩
      · rw [phase, running]
      · rw [phase]
  · have served := steady.served_of_awake suspended awake
    exact ⟨steady.resume served.idle, fun _ => served⟩

theorem schedule (steady : threads.Steady) {turns : List Turn}
    (reached : threads.run? turns = some after) : after.Steady := by
  induction turns generalizing threads with
  | nil =>
    cases reached
    exact steady
  | cons turn later ih =>
    obtain ⟨⟨result, middle⟩, stepped, rest⟩ := Option.bind_eq_some_iff.mp reached
    exact ih (steady.step stepped).1 rest

end Steady
end Threads

/-- Whatever steps the threads have taken, in whatever order: whenever a call returns, at once or
after its thread was suspended, its transaction holds the lock it asked for in the mode it asked
for, has no request in a queue, and holds nothing that it was to give up. -/
theorem returned_with_effect {schedule : List Turn} {threads after : Threads} {turn : Turn}
    (reached : Threads.run? {} schedule = some threads)
    (returned : threads.step? turn = some (.returned, after)) :
    (∀ lock, turn.wanted? = some lock →
      after.manager.table.heldLock? turn.txn lock.resource = some lock) ∧
    after.manager.table.isWaiting turn.txn = false ∧
    ∀ name ∈ turn.call.gives, ¬ after.manager.table.Holds turn.txn name := by
  obtain ⟨steady, effect⟩ := (Threads.Steady.start.schedule reached).step returned
  have served := effect rfl
  obtain ⟨ledger, books⟩ := steady.sound.regular.books
  refine ⟨fun lock wanted => ?_, served.idle, fun name given held => ?_⟩
  · obtain ⟨known, owned⟩ := books.mem_locksHeldBy.mp (served.holds lock wanted).1
    rw [← owned]
    exact books.heldLock?_of_mem known
  · cases served.gone name given held

/-- The exchange cannot go on before the orders are released, and then it returns. -/
theorem queuedExchange_returns :
    let exchange : Turn := ⟨⟨2⟩, .exchange Sample.orders .shared [Sample.stock]⟩
    let schedule := Sample.queuedExchange ++ [⟨⟨1⟩, .release Sample.orders⟩]
    (Threads.run? {} (Sample.queuedExchange ++ [exchange])).isNone ∧
      ∃ threads after, Threads.run? {} schedule = some threads ∧
        threads.step? exchange = some (.returned, after) ∧
        after.manager.table.heldLock? ⟨2⟩ Sample.orders = some ⟨Sample.orders, .shared, ⟨2⟩⟩ ∧
        after.manager.table.isWaiting ⟨2⟩ = false ∧ ¬ after.manager.table.Holds ⟨2⟩ Sample.stock := by
  intro exchange schedule
  have suspended : (Threads.run? {} (Sample.queuedExchange ++ [exchange])).isNone := by
    decide +kernel
  have goesOn : ((Threads.run? {} schedule).bind fun threads =>
      (threads.step? exchange).map Prod.fst) = some .returned := by
    decide +kernel
  obtain ⟨threads, reached, stepped⟩ := Option.bind_eq_some_iff.mp goesOn
  obtain ⟨⟨result, after⟩, returned, rfl⟩ := Option.map_eq_some_iff.mp stepped
  obtain ⟨holds, idle, gone⟩ := returned_with_effect reached returned
  exact ⟨suspended, threads, after, reached, returned, holds _ rfl, idle,
    gone _ List.mem_cons_self⟩

end LockManager
