import LockManager.Proofs.Regular

/-! How the work of granted requests nests. What a task sets off is done before the tasks below
it, so a request that was granted commits before the queue it came from is looked at again on its
behalf. Only a lock that its own deferred releases bring back to that resource lets the queue move
in between. -/
namespace LockManager

namespace Table

variable {table : Table}

instance Fits.decidable (table : Table) (resource : Resource) (lock : Lock) :
    Decidable (table.Fits resource lock) :=
  inferInstanceAs (Decidable (∀ held ∈ table.locksOn resource, held.owner ≠ lock.owner →
    lock.mode.compatible held.mode = true))

/-- What serving the next in line does. -/
theorem step_drain {resource : Resource} {request : Request} {rest : List Request}
    (head : table.queueOf resource = request :: rest) (fits : table.Fits resource request.lock) :
    table.step (.drain resource) =
      { table := (table.dequeue resource).grant request.lock
        events := [(table.dequeue resource).grantEvent request.lock]
        next := Task.afterGrant request resource } := by
  have free : (table.entry resource).conflict? request.lock.mode request.owner = none :=
    Entry.conflict?_eq_none_iff.mpr fits
  simp only [step, head, free]

/-- The deferred releases of a request from this queue, with all they set off. -/
def givingBack (table : Table) (resource : Resource) (request : Request) : Outcome :=
  ((table.dequeue resource).grant request.lock).settle (request.releases.map (.deferred request))

/-- All that happens from the grant of a request to its wake. -/
def span (table : Table) (resource : Resource) (request : Request) : Journal :=
  (table.dequeue resource).grantEvent request.lock :: (table.givingBack resource request).events ++
    [.committed request, .woken request.caller]

end Table

namespace Stage

/-- The first task is done; a call that has come to its end stays there. -/
def proceed (stage : Stage) : Stage :=
  match stage.tasks with
  | [] => stage
  | task :: later =>
      { table := (stage.table.step task).table
        journal := stage.journal ++ (stage.table.step task).events
        tasks := (stage.table.step task).next ++ later }

/-- The stage a number of tasks later. -/
def after (stage : Stage) : Nat → Stage
  | 0 => stage
  | count + 1 => (stage.after count).proceed

/-- The first task takes the request off the queue of the resource and grants it. -/
structure Serves (stage : Stage) (resource : Resource) (request : Request) : Prop where
  task : stage.tasks.head? = some (.drain resource)
  head : (stage.table.queueOf resource).head? = some request
  fits : stage.table.Fits resource request.lock

instance Serves.decidable (stage : Stage) (resource : Resource) (request : Request) :
    Decidable (stage.Serves resource request) :=
  decidable_of_iff (stage.tasks.head? = some (.drain resource) ∧
      (stage.table.queueOf resource).head? = some request ∧
        stage.table.Fits resource request.lock)
    ⟨fun ⟨task, head, fits⟩ => ⟨task, head, fits⟩, fun serves => ⟨serves.1, serves.2, serves.3⟩⟩

variable {stage now : Stage}

theorem leads_proceed (stage : Stage) : stage.Leads stage.proceed := by
  obtain ⟨table, journal, tasks⟩ := stage
  cases tasks with
  | nil => exact .refl
  | cons task later => exact .single (.task table journal task later)

theorem leads_after (stage : Stage) {earlier later : Nat} (order : earlier ≤ later) :
    (stage.after earlier).Leads (stage.after later) := by
  induction order with
  | refl => exact .refl
  | step _ ih => exact ih.trans (leads_proceed _)

/-- All stages of a call come to the same end. -/
theorem Leads.settled_eq (path : stage.Leads now) : now.settled = stage.settled := by
  induction path with
  | refl => rfl
  | tail _ last ih =>
    cases last with
    | task table journal task later => rw [← settled_cons, ih]

theorem Leads.journal_append (path : stage.Leads now) :
    ∃ between, now.journal = stage.journal ++ between := by
  induction path with
  | refl => exact ⟨[], (List.append_nil _).symm⟩
  | tail _ last ih =>
    cases last with
    | task table journal task later =>
      obtain ⟨between, extended⟩ := ih
      exact ⟨between ++ (table.step task).events, by
        rw [← List.append_assoc, ← extended]⟩

/-- The journal of the whole call goes on from what has been noted. -/
theorem Leads.settled_events (path : stage.Leads now) :
    ∃ rest, stage.settled.events = now.journal ++ rest :=
  ⟨(now.table.settle now.tasks).events, congrArg Outcome.events path.settled_eq.symm⟩

/-- With the first tasks done, a call is where these alone would have led it. -/
theorem Leads.eq_settled {table : Table} {journal : Journal}
    (path : stage.Leads ⟨table, journal, []⟩) :
    table = stage.settled.table ∧ journal = stage.settled.events := by
  have same := path.settled_eq
  simp only [settled, Table.settle_nil, List.append_nil] at same
  exact ⟨congrArg Outcome.table same, congrArg Outcome.events same⟩

/-- The tasks below wait: either what the first tasks set off is under way, just as it would be
without the others, or all of it has been done. -/
theorem Leads.within_or_past {table : Table} {journal : Journal} {first below : List Task}
    (path : Leads ⟨table, journal, first ++ below⟩ now) :
    (∃ rest, rest ≠ [] ∧ now.tasks = rest ++ below ∧
      Leads ⟨table, journal, first⟩ ⟨now.table, now.journal, rest⟩) ∨
    Leads ⟨(table.settle first).table, journal ++ (table.settle first).events, below⟩ now := by
  induction path with
  | refl =>
    cases first with
    | nil => exact .inr (by simpa using .refl)
    | cons task later => exact .inl ⟨task :: later, List.cons_ne_nil _ _, rfl, .refl⟩
  | tail _ last ih =>
    rcases ih with ⟨rest, unfinished, tasks, inner⟩ | outer
    · cases last with
      | task current noted task later =>
        obtain ⟨head, others, rfl⟩ := List.exists_cons_of_ne_nil unfinished
        obtain ⟨rfl, rfl⟩ := List.cons.inj tasks
        have further : Leads ⟨table, journal, first⟩ ⟨(current.step task).table,
            noted ++ (current.step task).events, (current.step task).next ++ others⟩ :=
          inner.tail (.task current noted task others)
        have tasks : (current.step task).next ++ (others ++ below) =
            (current.step task).next ++ others ++ below := (List.append_assoc _ _ _).symm
        cases left : (current.step task).next ++ others with
        | nil =>
          rw [left] at further tasks
          obtain ⟨ended, journaled⟩ := further.eq_settled
          refine .inr ?_
          change Leads _ ⟨(current.step task).table, noted ++ (current.step task).events,
            (current.step task).next ++ (others ++ below)⟩
          rw [tasks, ended, journaled]
          exact .refl
        | cons next remaining =>
          rw [left] at further tasks
          exact .inl ⟨next :: remaining, List.cons_ne_nil _ _, tasks, further⟩
    · exact .inr (outer.tail last)

end Stage

namespace Table

variable {table : Table}

/-- The tasks do not look at the queue of this resource. They give a lock on it back at once, if at
all, and only one that is held. -/
structure Shuns (table : Table) (resource : Resource) (tasks : List Task) : Prop where
  drains : .drain resource ∉ tasks
  gives : ∀ txn, .release txn resource ∈ tasks → tasks.head? = some (.release txn resource) ∧
    ((table.entry resource).lockOf? txn).isSome

/-- A queue that was left alone is looked at only after a lock there was released. -/
theorem Shuns.moves {resource : Resource} {task : Task} {later : List Task} {done : Step}
    (shuns : table.Shuns resource (task :: later)) (regular : table.Regular)
    (move : table.Moves task done) :
    (∃ lock, .released lock ∈ done.events ∧ lock.resource = resource) ∨
      done.table.Shuns resource (done.next ++ later) := by
  obtain ⟨ledger, books⟩ := regular.books
  have drains : .drain resource ∉ later := fun member =>
    shuns.drains (List.mem_cons_of_mem _ member)
  have alone (other : ∀ txn, task ≠ .release txn resource) :
      ∀ txn, .release txn resource ∉ later := by
    intro txn member
    have first := (shuns.gives txn (List.mem_cons_of_mem _ member)).1
    exact other txn (Option.some.inj first)
  have quiet {next : List Task} {after : Table} (noDrain : .drain resource ∉ next)
      (noRelease : ∀ txn, .release txn resource ∉ next)
      (other : ∀ txn, task ≠ .release txn resource) : after.Shuns resource (next ++ later) := by
    refine ⟨fun member => ?_, fun txn member => ?_⟩
    · rcases List.mem_append.mp member with new | old
      · exact noDrain new
      · exact drains old
    · rcases List.mem_append.mp member with new | old
      · exact absurd new (noRelease txn)
      · exact absurd old (alone other txn)
  cases move with
  | rests | skips | completes => exact .inr (quiet (by simp) (by simp) (by simp))
  | @serves drained request rest head fits =>
    have elsewhere : resource ≠ drained := by
      rintro rfl
      exact shuns.drains List.mem_cons_self
    exact .inr (quiet (by simp [Task.afterGrant, elsewhere]) (by simp [Task.afterGrant]) (by simp))
  | @gives txn released =>
    by_cases same : released = resource
    · subst same
      obtain ⟨-, held⟩ := shuns.gives txn List.mem_cons_self
      obtain ⟨lock, found⟩ := Option.isSome_iff_exists.mp held
      refine .inl ⟨lock, by simp [found], ?_⟩
      rw [books.lockOf?] at found
      have matched := List.find?_some found
      simp only [decide_eq_true_eq] at matched
      exact matched.2
    · refine .inr (quiet (by simpa using Ne.symm same) (by simp) fun other equal => ?_)
      cases equal
      exact same rfl
  | @defers request lock held =>
    by_cases same : lock.resource = resource
    · subst same
      rw [books.heldLock?, ← books.lockOf?] at held
      refine .inr ⟨by simpa using drains, fun txn member => ?_⟩
      rcases List.mem_cons.mp member with new | old
      · cases new
        exact ⟨rfl, held⟩
      · exact absurd old (alone (by simp) txn)
    · refine .inr (quiet (by simp) (fun txn member => ?_) (by simp))
      cases List.mem_singleton.mp member
      exact same rfl

end Table

namespace Stage

/-- A queue that was left alone is looked at only after a lock there was released. -/
theorem Leads.released_before_drain {table : Table} {journal : Journal} {tasks : List Task}
    {resource : Resource} {now : Stage} (path : Leads ⟨table, journal, tasks⟩ now)
    (regular : table.Regular) (shuns : table.Shuns resource tasks)
    (drains : .drain resource ∈ now.tasks) :
    ∃ between lock, now.journal = journal ++ between ∧ .released lock ∈ between ∧
      lock.resource = resource := by
  have reached : now.table.Regular ∧ ∃ between, now.journal = journal ++ between ∧
      ((∃ lock, .released lock ∈ between ∧ lock.resource = resource) ∨
        now.table.Shuns resource now.tasks) := by
    refine path.invariant (motive := fun current noted left => current.Regular ∧
      ∃ between, noted = journal ++ between ∧
        ((∃ lock, .released lock ∈ between ∧ lock.resource = resource) ∨
          current.Shuns resource left))
      (fun {current noted task later done} before move => ?_)
      ⟨regular, [], by simp, .inr shuns⟩
    obtain ⟨regular, between, rfl, known⟩ := before
    refine ⟨regular.moves move, between ++ done.events, by simp, ?_⟩
    rcases known with ⟨lock, member, here⟩ | shuns
    · exact .inl ⟨lock, List.mem_append_left _ member, here⟩
    · rcases shuns.moves regular move with ⟨lock, member, here⟩ | still
      · exact .inl ⟨lock, List.mem_append_right _ member, here⟩
      · exact .inr still
  obtain ⟨-, between, extended, ⟨lock, member, here⟩ | shuns⟩ := reached
  · exact ⟨between, lock, extended, member, here⟩
  · exact absurd drains shuns.drains

/-- Once a request is served, its own tasks come first, and the queue is looked at after them. -/
theorem Serves.proceed_eq {stage : Stage} {resource : Resource} {request : Request}
    (serves : stage.Serves resource request) : stage.proceed =
      { table := (stage.table.dequeue resource).grant request.lock
        journal := stage.journal ++ [(stage.table.dequeue resource).grantEvent request.lock]
        tasks := (request.releases.map (.deferred request) ++ [.commit request]) ++
          stage.tasks } := by
  obtain ⟨table, journal, tasks⟩ := stage
  obtain ⟨task, head, fits⟩ := serves
  obtain ⟨later, rfl⟩ := List.head?_eq_some_iff.mp task
  obtain ⟨rest, queue⟩ := List.head?_eq_some_iff.mp head
  simp only [proceed, Table.step_drain queue fits, Task.afterGrant, List.append_assoc]
  rfl

/-- A request is done with its commit. -/
theorem settle_served (table : Table) (resource : Resource) (request : Request) :
    ((table.dequeue resource).grant request.lock).settle
        (request.releases.map (.deferred request) ++ [.commit request]) =
      ⟨(table.givingBack resource request).table,
        (table.givingBack resource request).events ++
          [.committed request, .woken request.caller]⟩ := by
  rw [Table.settle_append, Table.settle_cons]
  simp only [Table.step, Table.settle_nil, List.append_nil]
  rfl

theorem settled_append (table : Table) (journal : Journal) (first below : List Task) :
    settled ⟨table, journal, first ++ below⟩ =
      settled ⟨(table.settle first).table, journal ++ (table.settle first).events, below⟩ := by
  simp only [settled, Table.settle_append, List.append_assoc]

/-- The call goes on with the same tasks, as its span leaves the table. -/
theorem Serves.settled_eq {stage : Stage} {resource : Resource} {request : Request}
    (serves : stage.Serves resource request) : stage.settled =
      settled ⟨(stage.table.givingBack resource request).table,
        stage.journal ++ stage.table.span resource request, stage.tasks⟩ := by
  have same := (leads_proceed stage).settled_eq
  rw [serves.proceed_eq, settled_append, settle_served] at same
  simpa only [Table.span, List.append_assoc, List.cons_append, List.nil_append] using same.symm

theorem Serves.settled_events {stage : Stage} {resource : Resource} {request : Request}
    (serves : stage.Serves resource request) :
    ∃ rest, stage.settled.events = stage.journal ++ stage.table.span resource request ++ rest :=
  ⟨_, congrArg Outcome.events serves.settled_eq⟩

/-- The queue is looked at again only after the commit, unless a lock on its resource was released
in the meantime. -/
theorem Serves.commits_first {first second : Stage} {resource : Resource} {request : Request}
    (serves : first.Serves resource request) (regular : first.table.Regular)
    (elsewhere : ∀ lock, .released lock ∈ (first.table.givingBack resource request).events →
      lock.resource ≠ resource)
    (onward : first.proceed.Leads second) (again : second.tasks.head? = some (.drain resource)) :
    ∃ between,
      second.journal = first.journal ++ first.table.span resource request ++ between := by
  have granted : ((first.table.dequeue resource).grant request.lock).Regular :=
    (regular.dequeue resource).grant request.lock
  have shuns : ((first.table.dequeue resource).grant request.lock).Shuns resource
      (request.releases.map (.deferred request) ++ [.commit request]) := by
    constructor <;> simp
  rw [serves.proceed_eq] at onward
  rcases onward.within_or_past with ⟨rest, unfinished, tasks, inner⟩ | outer
  · -- The queue is being looked at from within, so a lock came back to the resource.
    obtain ⟨task, others, rfl⟩ := List.exists_cons_of_ne_nil unfinished
    rw [tasks, List.cons_append, List.head?_cons, Option.some.injEq] at again
    subst again
    obtain ⟨between, lock, extended, released, here⟩ :=
      inner.released_before_drain granted shuns List.mem_cons_self
    have noted : second.journal = _ := extended
    obtain ⟨rest, total⟩ := inner.settled_events
    simp only [settled, settle_served, noted, List.append_assoc,
      List.append_cancel_left_eq] at total
    have within : .released lock ∈ (first.table.givingBack resource request).events ++
        [.committed request, .woken request.caller] := by
      rw [total]
      exact List.mem_append_left rest released
    refine absurd here (elsewhere lock ?_)
    simpa using within
  · obtain ⟨between, extended⟩ := outer.journal_append
    refine ⟨between, ?_⟩
    rw [extended, settle_served]
    simp [Table.span]

end Stage

/-- A request is granted, has all its deferred releases done, commits and wakes its transaction
before the next request is taken from the same queue in the same call, as long as these releases
bring no lock back to that queue's resource. So the wakes there come in the order of the queue. -/
theorem commits_before_next_served {turns : List Turn} {txn : Txn} {call : Call} {stage : Stage}
    {closing : Journal} (opens : (Table.empty.run turns).Opens txn call stage closing)
    {earlier later : Nat} (order : earlier < later) {resource : Resource} {first second : Request}
    (serves : (stage.after earlier).Serves resource first)
    (next : (stage.after later).Serves resource second)
    (elsewhere : ∀ lock,
      .released lock ∈ ((stage.after earlier).table.givingBack resource first).events →
        lock.resource ≠ resource) :
    ∃ between rest,
      (stage.after later).journal = (stage.after earlier).journal ++
        (stage.after earlier).table.span resource first ++ between ∧
      stage.settled.events = (stage.after later).journal ++
        (stage.after later).table.span resource second ++ rest := by
  have reached : stage.Leads (stage.after earlier) := stage.leads_after (Nat.zero_le _)
  have regular := ((Table.Regular.run turns).opens opens).leads reached
  have onward : (stage.after earlier).proceed.Leads (stage.after later) := stage.leads_after order
  obtain ⟨between, journal⟩ := serves.commits_first regular elsewhere onward next.task
  obtain ⟨rest, total⟩ := next.settled_events
  have same := (stage.leads_after (Nat.zero_le later)).settled_eq
  rw [same] at total
  exact ⟨between, rest, journal, total⟩

/-- The exchange gives back only the stock, so it commits before the fourth transaction, which waits
behind it, has its turn. -/
theorem queuedExchange_commits_first :
    let opening : Stage := ⟨Table.empty.run Sample.queuedExchange, [], [.release ⟨1⟩ Sample.orders]⟩
    let exchange : Request := ⟨⟨2⟩, ⟨Sample.orders, .shared, ⟨2⟩⟩, [⟨Sample.stock, .exclusive, ⟨2⟩⟩]⟩
    let acquire : Request := ⟨⟨4⟩, ⟨Sample.orders, .shared, ⟨4⟩⟩, []⟩
    (opening.after 1).Serves Sample.orders exchange ∧
      (opening.after 8).Serves Sample.orders acquire ∧
      ∃ between rest,
        (opening.after 8).journal = (opening.after 1).journal ++
          (opening.after 1).table.span Sample.orders exchange ++ between ∧
        opening.settled.events = (opening.after 8).journal ++
          (opening.after 8).table.span Sample.orders acquire ++ rest := by
  intro opening exchange acquire
  have held : ((Table.empty.run Sample.queuedExchange).heldLock? ⟨1⟩ Sample.orders).isSome := by
    decide +kernel
  have first : (opening.after 1).Serves Sample.orders exchange := by
    decide +kernel
  have second : (opening.after 8).Serves Sample.orders acquire := by
    decide +kernel
  have given : ((opening.after 1).table.givingBack Sample.orders exchange).events =
      [.released ⟨Sample.stock, .exclusive, ⟨2⟩⟩, .granted ⟨Sample.stock, .shared, ⟨3⟩⟩,
        .committed ⟨⟨3⟩, ⟨Sample.stock, .shared, ⟨3⟩⟩, []⟩, .woken ⟨3⟩] := by
    decide +kernel
  refine ⟨first, second, commits_before_next_served (.releaseStarted held) (by decide) first second
    fun lock released => ?_⟩
  rw [given] at released
  obtain rfl : lock = ⟨Sample.stock, .exclusive, ⟨2⟩⟩ := by simpa using released
  decide

namespace Sample

/-- The first transaction waits to exchange the orders for the stock, which the third has. The
fourth waits for the orders. -/
def crossedExchanges : List Turn :=
  [⟨⟨3⟩, .acquire stock .intentExclusive⟩, ⟨⟨1⟩, .acquire orders .shared⟩,
    ⟨⟨1⟩, .exchange stock .shared [orders]⟩, ⟨⟨4⟩, .exchange orders .intentExclusive []⟩]

end Sample

/-- A request may be taken from a queue before the one ahead of it has committed. The third
transaction exchanges the stock for the orders, ahead of the fourth. Its release of the stock lets
the first transaction give the orders back, and with them the fourth is served, while the third
still has its commit to come. -/
theorem served_before_earlier_commit :
    ¬ ∀ (turns : List Turn) (txn : Txn) (call : Call) (stage : Stage) (closing : Journal)
      (earlier later : Nat) (resource : Resource) (first second : Request),
      Table.empty.Disciplined (turns ++ [⟨txn, call⟩]) →
      (Table.empty.run turns).Opens txn call stage closing →
      earlier < later → (stage.after earlier).Serves resource first →
      second ∈ ((stage.after earlier).table.queueOf resource).tail →
      (stage.after later).Serves resource second →
        .committed first ∈ (stage.after later).journal := by
  intro claimed
  let table := Table.empty.run Sample.crossedExchanges
  let exchange : Request :=
    ⟨⟨3⟩, ⟨Sample.orders, .intentShared, ⟨3⟩⟩, [⟨Sample.stock, .intentExclusive, ⟨3⟩⟩]⟩
  let behind : Request := ⟨⟨4⟩, ⟨Sample.orders, .intentExclusive, ⟨4⟩⟩, []⟩
  have disciplined : Table.empty.Disciplined (Sample.crossedExchanges ++
      [⟨⟨3⟩, .exchange Sample.orders .intentShared [Sample.stock]⟩]) := by
    decide +kernel
  have free : table.heldLock? ⟨3⟩ Sample.orders = none := by
    decide +kernel
  have listed : table.locksToRelease ⟨3⟩ [] [Sample.stock] =
      .ok [⟨Sample.stock, .intentExclusive, ⟨3⟩⟩] := by
    have held : table.heldLock? ⟨3⟩ Sample.stock = some ⟨Sample.stock, .intentExclusive, ⟨3⟩⟩ := by
      decide +kernel
    rw [Table.locksToRelease, if_neg List.not_mem_nil, held]
    rfl
  have busy : table.mustQueue ⟨Sample.orders, .intentShared, ⟨3⟩⟩ = true := by
    decide +kernel
  let opening : Stage := ⟨table.enqueue exchange .front,
    table.noteConflict exchange.lock ++ (table.wait exchange .front).events, [.drain Sample.orders]⟩
  have serves : (opening.after 0).Serves Sample.orders exchange := by
    decide +kernel
  have waits : behind ∈ ((opening.after 0).table.queueOf Sample.orders).tail := by
    decide +kernel
  have next : (opening.after 6).Serves Sample.orders behind := by
    decide +kernel
  have committed := claimed Sample.crossedExchanges ⟨3⟩ _ opening _ 0 6 Sample.orders exchange behind
    disciplined (.exchangeQueued free listed busy) (by decide) serves waits next
  exact absurd committed (by decide +kernel)

end LockManager
