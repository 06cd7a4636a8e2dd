import LockManager.Proofs.Nesting
import LockManager.Proofs.Pledges
import LockManager.Proofs.Tickets

/-! How far a call reaches. Beyond the lock it asks for and the locks it names, a call does only
what queued requests ask for that it lets through, and it lets nobody through before a lock on the
resource in question was released. Whoever is not let through keeps all locks as they are. -/
namespace LockManager

/-- The resource that the call is made for. -/
def Call.target : Call → Resource
  | .acquire resource _ | .exchange resource _ _ => resource
  | .release resource | .promote resource _ => resource

/-- The resource that the task has to do with. -/
def Task.place? : Task → Option Resource
  | .drain resource | .release _ resource => some resource
  | .deferred _ lock => some lock.resource
  | .commit _ => none

namespace Table

/-- A request that the turn lets through, when it has noted so much. -/
inductive Lets (table : Table) (turn : Turn) : Journal → Resource → Request → Prop
  | serves {stage now : Stage} {closing : Journal} {resource : Resource} {request : Request}
      (opens : table.Opens turn.txn turn.call stage closing) (path : stage.Leads now)
      (serves : now.Serves resource request) : Lets table turn now.journal resource request

/-- The resources that a turn has to do with: those it names itself, and those of the requests it
lets through. -/
inductive Touches (table : Table) (turn : Turn) : Resource → Prop
  | target : Touches table turn turn.call.target
  | named {resource : Resource} (member : resource ∈ turn.call.gives) : Touches table turn resource
  | served {noted : Journal} {resource : Resource} {request : Request}
      (lets : table.Lets turn noted resource request) : Touches table turn resource
  | released {noted : Journal} {resource : Resource} {request : Request} {lock : Lock}
      (lets : table.Lets turn noted resource request) (member : lock ∈ request.releases) :
      Touches table turn lock.resource

/-- The locks that a turn gives up: those it names itself, and those that the requests it lets
through name, each for its own transaction. -/
inductive GivesUp (table : Table) (turn : Turn) : Txn × Resource → Prop
  | named {resource : Resource} (member : resource ∈ turn.call.gives) :
      GivesUp table turn (turn.txn, resource)
  | released {noted : Journal} {resource : Resource} {request : Request} {lock : Lock}
      (lets : table.Lets turn noted resource request) (owned : lock.owner = request.owner)
      (member : lock ∈ request.releases) : GivesUp table turn lock.key

variable {table now : Table} {turn : Turn} {stage later : Stage} {closing journal : Journal}
  {task : Task} {tasks : List Task} {done : Step} {resource : Resource} {request : Request}

theorem serves_of_head {rest : List Request} (head : table.queueOf resource = request :: rest)
    (fits : table.Fits resource request.lock) :
    Stage.Serves ⟨table, journal, .drain resource :: tasks⟩ resource request :=
  ⟨rfl, by simp [head], fits⟩

/-- What an opening establishes and every move keeps, in view of the requests let through so far,
holds at each stage of the call. -/
theorem Opens.invariant {motive : Table → Journal → List Task → Prop}
    (opens : table.Opens turn.txn turn.call stage closing) (regular : table.Regular)
    (initial : motive stage.table stage.journal stage.tasks)
    (moves : ∀ {now : Table} {journal : Journal} {task : Task} {tasks : List Task} {done : Step},
      now.Regular → motive now journal (task :: tasks) → now.Moves task done →
        (∀ resource request, Stage.Serves ⟨now, journal, task :: tasks⟩ resource request →
          table.Lets turn journal resource request) →
        motive done.table (journal ++ done.events) (done.next ++ tasks))
    (path : stage.Leads later) : motive later.table later.journal later.tasks := by
  induction path with
  | refl => exact initial
  | tail before last ih =>
    cases last with
    | task now journal task tasks =>
      have reached := (regular.opens opens).leads before
      exact moves reached ih (now.moves_step task) fun _ _ serves => .serves opens before serves

/-! ### Openings -/

section
variable {txn : Txn} {call : Call}

/-- A call opens with a look at the queue of its target, or with releases that it names. -/
theorem Opens.mem_tasks (opens : table.Opens txn call stage closing) (member : task ∈ stage.tasks) :
    task = .drain call.target ∨ ∃ resource ∈ call.gives, task = .release txn resource := by
  cases opens with
  | acquireGranted | acquireQueued | promoteGranted | promoteQueued => cases member
  | exchangeGranted free listed =>
    obtain ⟨held, released, rfl⟩ := List.mem_map.mp member
    refine .inr ⟨held.resource, ?_, rfl⟩
    rw [Call.gives, ← (locksToRelease_ok listed).1]
    exact List.mem_map_of_mem released
  | exchangeQueued => exact .inl (List.mem_singleton.mp member)
  | releaseStarted => exact .inr ⟨_, List.mem_cons_self, List.mem_singleton.mp member⟩

/-- The tasks are on resources that the call names. -/
theorem Opens.place (opens : table.Opens txn call stage closing) (member : task ∈ stage.tasks)
    (place : resource ∈ task.place?) : resource = call.target ∨ resource ∈ call.gives := by
  rcases opens.mem_tasks member with rfl | ⟨named, gives, rfl⟩ <;> cases place
  · exact .inl rfl
  · exact .inr gives

/-- The locks that a call is to give back are those of its own transaction that it names. -/
theorem Opens.pledge (opens : table.Opens txn call stage closing) {key : Txn × Resource}
    (pledged : key ∈ Task.pledges stage.tasks) : key.1 = txn ∧ key.2 ∈ call.gives := by
  obtain ⟨task, member, pledge⟩ := List.mem_filterMap.mp pledged
  rcases opens.mem_tasks member with rfl | ⟨named, gives, rfl⟩ <;> cases pledge
  exact ⟨rfl, gives⟩

/-- A call opens on one resource. -/
theorem Opens.elsewhere (opens : table.Opens txn call stage closing)
    (other : resource ≠ call.target) :
    stage.table.locksOn resource = table.locksOn resource ∧
      stage.table.queueOf resource = table.queueOf resource := by
  cases opens with
  | acquireGranted | exchangeGranted | promoteGranted =>
    exact ⟨table.locksOn_grant_of_ne other, table.queueOf_grant _ resource⟩
  | acquireQueued | exchangeQueued | promoteQueued =>
    exact ⟨table.locksOn_enqueue _ _ resource,
      (table.queueOf_enqueue _ _ resource).trans (if_neg other)⟩
  | releaseStarted => exact ⟨rfl, rfl⟩

theorem Opens.holds (opens : table.Opens txn call stage closing) (regular : table.Regular)
    {key : Txn × Resource} (holds : table.Holds key.1 key.2) : stage.table.Holds key.1 key.2 := by
  cases opens with
  | acquireGranted | exchangeGranted | promoteGranted => exact regular.holds_grant _ holds
  | acquireQueued | exchangeQueued | promoteQueued | releaseStarted => exact holds

/-- Nothing is released when a call opens. -/
theorem Opens.not_released (opens : table.Opens txn call stage closing) (lock : Lock) :
    .released lock ∉ stage.journal ++ closing := by
  have granted (new : Lock) : .released lock ∉ [table.grantEvent new] := by
    rw [List.mem_singleton, grantEvent]
    split <;> exact Event.noConfusion
  cases opens with
  | acquireGranted | exchangeGranted | promoteGranted => simpa using granted _
  | acquireQueued | exchangeQueued | promoteQueued => simp [noteConflict, wait]
  | releaseStarted => simp

end

/-! ### Resources that a call leaves alone -/

/-- The work under way is on resources that the turn has to do with, and nothing has happened to
the others. -/
structure Within (table : Table) (turn : Turn) (now : Table) (tasks : List Task) : Prop where
  places : ∀ task ∈ tasks, ∀ resource ∈ task.place?, table.Touches turn resource
  locks : ∀ resource, ¬ table.Touches turn resource → now.locksOn resource = table.locksOn resource
  queues : ∀ resource, ¬ table.Touches turn resource → now.queueOf resource = table.queueOf resource

namespace Within

theorem opens (opens : table.Opens turn.txn turn.call stage closing) :
    table.Within turn stage.table stage.tasks where
  places task member resource place := by
    rcases opens.place member place with rfl | named
    · exact .target
    · exact .named named
  locks resource untouched := by
    refine (opens.elsewhere ?_).1
    rintro rfl
    exact untouched .target
  queues resource untouched := by
    refine (opens.elsewhere ?_).2
    rintro rfl
    exact untouched .target

theorem moves (within : table.Within turn now (task :: tasks)) (regular : now.Regular)
    (move : now.Moves task done)
    (lets : ∀ resource request, Stage.Serves ⟨now, journal, task :: tasks⟩ resource request →
      table.Lets turn journal resource request) :
    table.Within turn done.table (done.next ++ tasks) := by
  obtain ⟨places, locks, queues⟩ := within
  have others : ∀ task ∈ tasks, ∀ resource ∈ task.place?, table.Touches turn resource :=
    fun task member => places task (List.mem_cons_of_mem _ member)
  cases move with
  | rests =>
    refine ⟨others, fun resource untouched => ?_, fun resource untouched => ?_⟩
    · rw [locksOn_prune, locks resource untouched]
    · rw [queueOf_prune, queues resource untouched]
  | @serves drained request rest head fits =>
    have served := lets drained request (serves_of_head head fits)
    have elsewhere {resource : Resource} (untouched : ¬ table.Touches turn resource) :
        resource ≠ drained := by
      rintro rfl
      exact untouched (.served served)
    refine ⟨fun task member resource place => ?_, fun resource untouched => ?_,
      fun resource untouched => ?_⟩
    · rcases List.mem_append.mp member with new | old
      · rcases List.mem_append.mp new with deferred | last
        · obtain ⟨lock, released, rfl⟩ := List.mem_map.mp deferred
          cases place
          exact .released served released
        · simp only [List.mem_cons, List.not_mem_nil, or_false] at last
          rcases last with rfl | rfl <;> cases place
          exact .served served
      · exact others task old resource place
    · have other : resource ≠ request.lock.resource := by
        rw [(regular.filed_head head).here]
        exact elsewhere untouched
      rw [locksOn_grant_of_ne _ other, locksOn_dequeue, locks resource untouched]
    · rw [queueOf_grant, queueOf_dequeue, if_neg (elsewhere untouched), queues resource untouched]
  | @gives txn released =>
    have touched : table.Touches turn released := places _ List.mem_cons_self released rfl
    refine ⟨fun task member resource place => ?_, fun resource untouched => ?_,
      fun resource untouched => ?_⟩
    · rcases List.mem_cons.mp member with rfl | old
      · cases place
        exact touched
      · exact others task old resource place
    · have other : resource ≠ released := by
        rintro rfl
        exact untouched touched
      rw [locksOn_remove_of_ne now txn other, locks resource untouched]
    · rw [queueOf_remove, queues resource untouched]
  | @defers request lock held =>
    refine ⟨fun task member resource place => ?_, locks, queues⟩
    rcases List.mem_cons.mp member with rfl | old
    · exact places _ List.mem_cons_self resource place
    · exact others task old resource place
  | skips | completes => exact ⟨others, locks, queues⟩

theorem take (regular : table.Regular) (turn : Turn) :
    table.Within turn (table.take turn).table [] := by
  refine take_cases (motive := fun after => table.Within turn after.table []) table turn
    ⟨by simp, fun _ _ => rfl, fun _ _ => rfl⟩ fun stage closing started => ?_
  exact started.invariant (motive := fun now _ tasks => table.Within turn now tasks) regular
    (opens started) (fun reached before move lets => before.moves reached move lets)
    stage.leads_settled

end Within

/-! ### Transactions that a call leaves alone -/

/-- Another transaction gives a lock up when a request of its own is let through. -/
theorem GivesUp.of_ne {key : Txn × Resource} (gives : table.GivesUp turn key)
    (different : key.1 ≠ turn.txn) :
    ∃ noted resource request, table.Lets turn noted resource request ∧ request.owner = key.1 ∧
      key.2 ∈ request.releases.map Lock.resource := by
  cases gives with
  | named => exact absurd rfl different
  | released lets owned member => exact ⟨_, _, _, lets, owned.symm, List.mem_map_of_mem member⟩

/-- What the turn has done to the locks of the transactions, and is still to do. -/
structure Spares (table : Table) (turn : Turn) (now : Table) (journal : Journal)
    (tasks : List Task) : Prop where
  pledged : ∀ key ∈ Task.pledges tasks, table.GivesUp turn key
  released : ∀ lock, .released lock ∈ journal → table.GivesUp turn lock.key
  lost : ∀ key, table.Holds key.1 key.2 → now.Holds key.1 key.2 ∨ table.GivesUp turn key
  held : ∀ other, other ≠ turn.txn → now.locksHeldBy other = table.locksHeldBy other ∨
    ∃ noted resource request, table.Lets turn noted resource request ∧ request.owner = other

namespace Spares

theorem opens (opens : table.Opens turn.txn turn.call stage closing) (regular : table.Regular) :
    table.Spares turn stage.table stage.journal stage.tasks where
  pledged key pledged := by
    obtain ⟨owner, named⟩ := opens.pledge pledged
    obtain ⟨txn, resource⟩ := key
    subst owner
    exact .named named
  released lock noted := absurd (List.mem_append_left closing noted) (opens.not_released lock)
  lost _ holds := .inl (opens.holds regular holds)
  held _ different := .inl (opens.locksHeldBy_of_ne different)

/-- An event of a release tells that a lock was to be given back. -/
theorem released_moves (move : table.Moves task done) (regular : table.Regular) {lock : Lock}
    (noted : .released lock ∈ done.events) : lock.key ∈ Task.pledges [task] := by
  cases move with
  | rests blocked conflicts =>
    obtain ⟨mode, held, same⟩ := conflicts _ noted
    cases same
  | serves =>
    rw [List.mem_singleton, grantEvent] at noted
    split at noted <;> cases noted
  | @gives txn resource =>
    obtain ⟨ledger, books⟩ := regular.books
    obtain ⟨held, found, same⟩ := List.mem_map.mp noted
    cases same
    rw [Option.mem_toList, books.lockOf?, ← books.heldLock?] at found
    obtain ⟨-, rfl, rfl⟩ := books.mem_of_heldLock? found
    exact List.mem_cons_self
  | defers => cases noted
  | skips | completes => simp at noted

theorem moves (spares : table.Spares turn now journal (task :: tasks)) (regular : now.Regular)
    (move : now.Moves task done)
    (lets : ∀ resource request, Stage.Serves ⟨now, journal, task :: tasks⟩ resource request →
      table.Lets turn journal resource request) :
    table.Spares turn done.table (journal ++ done.events) (done.next ++ tasks) where
  pledged key pledged := by
    cases move with
    | rests | defers | completes => exact spares.pledged key pledged
    | gives | skips => exact spares.pledged key (List.mem_cons_of_mem _ pledged)
    | @serves resource request rest head fits =>
      rw [Task.pledges_append, Task.pledges_afterGrant] at pledged
      rcases List.mem_append.mp pledged with new | old
      · obtain ⟨lock, released, rfl⟩ := List.mem_map.mp new
        have own := (regular.filed_head head).own lock released
        exact .released (lets resource request (serves_of_head head fits)) own released
      · exact spares.pledged key old
  released lock noted := by
    rcases List.mem_append.mp noted with earlier | new
    · exact spares.released lock earlier
    · refine spares.pledged lock.key ?_
      change lock.key ∈ Task.pledges ([task] ++ tasks)
      rw [Task.pledges_append]
      exact List.mem_append_left _ (released_moves move regular new)
  lost key holds := by
    rcases spares.lost key holds with still | given
    · cases move with
      | rests =>
        refine .inl ?_
        rwa [Holds, locksHeldBy_prune]
      | @serves resource => exact .inl ((regular.dequeue resource).holds_grant _ still)
      | @gives giver released =>
        by_cases same : key = (giver, released)
        · exact .inr (same ▸ spares.pledged _ List.mem_cons_self)
        · exact .inl (holds_remove.mpr ⟨still, same⟩)
      | defers | skips | completes => exact .inl still
    · exact .inr given
  held other different := by
    rcases spares.held other different with same | served
    · cases move with
      | rests => exact .inl ((locksHeldBy_prune now _ other).trans same)
      | @serves resource request rest head fits =>
        by_cases mine : request.owner = other
        · exact .inr ⟨_, _, _, lets resource request (serves_of_head head fits), mine⟩
        · exact .inl ((locksHeldBy_grant_of_ne (now.dequeue resource) (Ne.symm mine)).trans same)
      | @gives giver resource =>
        by_cases mine : giver = other
        · subst mine
          have given : table.GivesUp turn (giver, resource) :=
            spares.pledged _ List.mem_cons_self
          obtain ⟨noted, place, request, served, owner, -⟩ := given.of_ne different
          exact .inr ⟨noted, place, request, served, owner⟩
        · exact .inl ((locksHeldBy_remove_of_ne now resource (Ne.symm mine)).trans same)
      | defers | skips | completes => exact .inl same
    · exact .inr served

theorem take (regular : table.Regular) (turn : Turn) :
    table.Spares turn (table.take turn).table (table.take turn).events [] := by
  refine take_cases (motive := fun after => table.Spares turn after.table after.events []) table
    turn ⟨by simp [Task.pledges], by simp, fun _ holds => .inl holds, fun _ _ => .inl rfl⟩
    fun stage closing started => ?_
  have ended := started.invariant (motive := table.Spares turn) regular (opens started regular)
    (fun reached before move lets => before.moves reached move lets) stage.leads_settled
  refine ⟨ended.pledged, fun lock noted => ?_, ended.lost, ended.held⟩
  rcases List.mem_append.mp noted with during | closed
  · exact ended.released lock during
  · exact absurd (List.mem_append_right stage.journal closed) (started.not_released lock)

end Spares

/-! ### What lets a request through -/

/-- A lock on the resource was released, or the queue there is still at rest. -/
def Unmoved (journal : Journal) (table : Table) (resource : Resource) : Prop :=
  (∃ lock, .released lock ∈ journal ∧ lock.resource = resource) ∨ table.Rests resource

/-- A queue at rest is not served. -/
theorem Rests.not_fits (rests : table.Rests resource)
    (head : (table.queueOf resource).head? = some request) :
    ¬ table.Fits resource request.lock := by
  intro fits
  obtain ⟨held, here, other, conflict⟩ := rests request head
  rw [fits held here other] at conflict
  contradiction

theorem Unmoved.moves (unmoved : Unmoved journal table resource) (regular : table.Regular)
    (move : table.Moves task done) : Unmoved (journal ++ done.events) done.table resource := by
  rcases unmoved with ⟨lock, noted, here⟩ | rests
  · exact .inl ⟨lock, List.mem_append_left _ noted, here⟩
  · cases move with
    | rests => exact .inr (rests.congr (by simp) (by simp))
    | @serves drained request rest head fits =>
      have elsewhere : resource ≠ drained := by
        rintro rfl
        exact rests.not_fits (by simp [head]) fits
      have other : resource ≠ request.lock.resource := by
        rwa [(regular.filed_head head).here]
      refine .inr (rests.congr ?_ ?_)
      · rw [locksOn_grant_of_ne _ other, locksOn_dequeue]
      · rw [queueOf_grant, queueOf_dequeue, if_neg elsewhere]
    | @gives txn released =>
      by_cases same : resource = released
      · subst same
        cases found : (table.entry resource).lockOf? txn with
        | some lock =>
          obtain ⟨ledger, books⟩ := regular.books
          have matched := found
          rw [books.lockOf?, ← books.heldLock?] at matched
          obtain ⟨-, -, here⟩ := books.mem_of_heldLock? matched
          exact .inl ⟨lock, by simp, here⟩
        | none =>
          -- The transaction has no lock here, so none goes.
          have absent : ∀ held ∈ table.locksOn resource, held.owner ≠ txn := by
            simpa [Entry.lockOf?, locksOn] using found
          refine .inr (rests.congr ?_ (table.queueOf_remove _ _ _))
          rw [locksOn, entry_remove, if_pos rfl]
          exact List.eraseP_of_forall_not fun held member => by simpa using absent held member
      · exact .inr (rests.congr (locksOn_remove_of_ne table txn same) (by simp))
    | defers | skips | completes => exact .inr rests

theorem Unmoved.leads {start later : Stage} (path : start.Leads later)
    (regular : start.table.Regular) (unmoved : Unmoved start.journal start.table resource) :
    Unmoved later.journal later.table resource := by
  have both : later.table.Regular ∧ Unmoved later.journal later.table resource :=
    path.invariant (motive := fun table journal _ =>
        table.Regular ∧ Unmoved journal table resource)
      (fun before move => ⟨before.1.moves move, before.2.moves before.1 move⟩) ⟨regular, unmoved⟩
  exact both.2

/-- Once the queue of the exchange's resource has been looked at for the first time, all queues are
at rest as before: the exchange has left it or waits, and its lock lets nobody else through. -/
theorem Moves.rests_behind (regular : (table.enqueue request .front).Regular)
    (rests : ∀ resource, table.Rests resource)
    (free : table.heldLock? request.lock.owner request.lock.resource = none)
    (move : (table.enqueue request .front).Moves (.drain request.lock.resource) done)
    (resource : Resource) : done.table.Rests resource := by
  cases move with
  | rests blocked =>
    by_cases here : resource = request.lock.resource
    · subst here
      exact blocked.congr (by simp) (by simp)
    · refine (rests resource).congr (by simp) ?_
      rw [queueOf_prune, queueOf_enqueue, if_neg here]
  | @serves _ first rest head fits =>
    rw [queueOf_enqueue, if_pos rfl, List.cons.injEq] at head
    obtain ⟨rfl, -⟩ := head
    have taken : ((table.enqueue request .front).dequeue request.lock.resource).Rests resource := by
      refine (rests resource).congr (by simp) ?_
      rw [queueOf_dequeue, queueOf_enqueue]
      split <;> rfl
    refine taken.grant (regular.dequeue _) fun held found => ?_
    have same : table.heldLock? request.lock.owner request.lock.resource = some held := found
    rw [free] at same
    cases same

/-- Before a request is let through that is not the caller's, a lock on its resource was released:
the caller's own request leaves the queue behind it at rest. -/
theorem Lets.released {noted : Journal} (lets : table.Lets turn noted resource request)
    (regular : table.Regular) (attended : table.Attended [])
    (different : request.owner ≠ turn.txn) : ∃ lock, .released lock ∈ noted ∧ lock.resource = resource := by
  cases lets with
  | @serves stage later closing _ _ opens path serves =>
    have found {start : Stage} (path : start.Leads later) (regular : start.table.Regular)
        (rests : start.table.Rests resource) :
        ∃ lock, .released lock ∈ later.journal ∧ lock.resource = resource := by
      rcases Unmoved.leads path regular (.inr rests) with earlier | still
      · exact earlier
      · exact absurd serves.fits (still.not_fits serves.head)
    have started := regular.opens opens
    have looked := attended.opens regular opens resource
    generalize turn.txn = txn, turn.call = call at opens different
    cases opens with
    | acquireGranted | acquireQueued | exchangeGranted | releaseStarted | promoteGranted |
        promoteQueued => exact found path started (looked.resolve_left (by simp))
    | @exchangeQueued wanted mode names locks free listed busy =>
      let own : Request := ⟨txn, ⟨wanted, mode, txn⟩, locks⟩
      rcases path.cases_head with rfl | ⟨next, first, onward⟩
      · obtain rfl : wanted = resource := by simpa using serves.task
        have head := serves.head
        rw [queueOf_enqueue, if_pos rfl, List.head?_cons, Option.some.injEq] at head
        exact absurd (head ▸ rfl) different
      · cases first with
        | task =>
          have move := moves_step (table.enqueue own .front) (.drain own.lock.resource)
          have rests := move.rests_behind started attended.rests free resource
          exact found onward (started.moves move) rests

/-- Whoever is let through has waited before, or asks for the lock that the turn asks for. -/
theorem Lets.mem_queueOf {noted : Journal} (lets : table.Lets turn noted resource request) :
    request ∈ table.queueOf resource ∨ turn.wanted? = some request.lock := by
  cases lets with
  | @serves stage later closing _ _ opens path serves =>
    have fewer : (later.table.queueOf resource).Sublist (stage.table.queueOf resource) :=
      path.invariant
        (motive := fun now _ _ => (now.queueOf resource).Sublist (stage.table.queueOf resource))
        (fun before move => (move.queueOf_sublist resource).trans before) (.refl _)
    have queued := fewer.subset (List.mem_of_head? serves.head)
    obtain ⟨txn, call⟩ := turn
    cases opens with
    | acquireGranted | exchangeGranted | promoteGranted =>
      rw [queueOf_grant] at queued
      exact .inl queued
    | acquireQueued | exchangeQueued | promoteQueued =>
      rcases mem_queueOf_enqueue.mp queued with earlier | ⟨rfl, -⟩
      · exact .inl earlier
      · exact .inr rfl
    | releaseStarted => exact .inl queued

end Table

/-! ### Calls that let nobody through -/

/-- A plain acquire or a promotion. -/
inductive Call.Plain : Call → Prop
  | acquire (resource : Resource) (mode : Mode) : Plain (.acquire resource mode)
  | promote (resource : Resource) (mode : Mode) : Plain (.promote resource mode)

namespace Table

variable {table : Table} {txn other : Txn} {call : Call} {stage : Stage} {closing : Journal}

/-- The requests of a transaction in a queue, in order. -/
def requestsOf (table : Table) (txn : Txn) (resource : Resource) : List Request :=
  (table.queueOf resource).filter fun request => request.owner = txn

theorem Opens.requestsOf_of_ne (opens : table.Opens txn call stage closing)
    (different : other ≠ txn) (resource : Resource) :
    stage.table.requestsOf other resource = table.requestsOf other resource := by
  have queued (request : Request) (place : Place) (mine : request.owner = txn) :
      (table.enqueue request place).requestsOf other resource =
        table.requestsOf other resource := by
    have hidden : request.owner ≠ other := mine ▸ different.symm
    rw [requestsOf, queueOf_enqueue]
    split
    · cases place <;> simp [requestsOf, hidden]
    · rfl
  cases opens with
  | acquireGranted | exchangeGranted | promoteGranted => rw [requestsOf, queueOf_grant]; rfl
  | acquireQueued | exchangeQueued | promoteQueued => exact queued _ _ rfl
  | releaseStarted => rfl

theorem Opens.tasks_of_plain (opens : table.Opens txn call stage closing) (plain : call.Plain) :
    stage.tasks = [] := by
  cases plain <;> cases opens <;> rfl

/-- A call that opens marks nobody but its own transaction. -/
theorem Opens.isBlocked_of_ne {handles : Std.ExtTreeMap Txn Handle}
    (opens : table.Opens txn call stage closing) (different : other ≠ txn) (after : Table) :
    Manager.isBlocked ⟨after, stage.journal.foldl Manager.notify handles⟩ other =
      Manager.isBlocked ⟨after, handles⟩ other := by
  cases opens with
  | acquireGranted | exchangeGranted | promoteGranted => exact isBlocked_grant table after _ other
  | acquireQueued | exchangeQueued | promoteQueued =>
    exact (isBlocked_wait table after ⟨txn, ⟨_, _, txn⟩, _⟩ _ other).trans (if_neg different)
  | releaseStarted => rfl

end Table

namespace Manager

/-- What a turn does to the locks and requests of other transactions, and to resources that it does
not name, it does by letting queued requests through. -/
structure StaysLocal (manager : Manager) (turn : Turn) : Prop where
  /-- The locks of another transaction change only if a request of its own is let through. -/
  changed : ∀ other, other ≠ turn.txn →
    (manager.take turn).table.locksHeldBy other ≠ manager.table.locksHeldBy other →
      ∃ noted resource request, manager.table.Lets turn noted resource request ∧
        request.owner = other
  /-- Such a request waited before the call, and is let through after a lock on its resource was
  released. -/
  caused : ∀ noted resource request, manager.table.Lets turn noted resource request →
    request.owner ≠ turn.txn → request ∈ manager.table.queueOf resource ∧
      ∃ lock, .released lock ∈ noted ∧ lock.resource = resource
  /-- Another transaction loses a lock only if a request of its own that names it is let through. -/
  lost : ∀ other resource, other ≠ turn.txn → manager.table.Holds other resource →
    ¬ (manager.take turn).table.Holds other resource →
      ∃ noted waited request, manager.table.Lets turn noted waited request ∧
        request.owner = other ∧ resource ∈ request.releases.map Lock.resource
  /-- So it is with every release on the way, also of locks that are granted again. -/
  released : ∀ lock, .released lock ∈ (manager.table.take turn).events →
    lock.owner ≠ turn.txn →
      ∃ noted waited request, manager.table.Lets turn noted waited request ∧
        request.owner = lock.owner ∧ lock.resource ∈ request.releases.map Lock.resource
  /-- A resource that neither the call nor a request let through names stays as it is. -/
  untouched : ∀ resource, ¬ manager.table.Touches turn resource →
    (manager.take turn).table.locksOn resource = manager.table.locksOn resource ∧
      (manager.take turn).table.queueOf resource = manager.table.queueOf resource
  /-- Plain acquires and promotions concern nobody else. -/
  plain : turn.call.Plain → ∀ other, other ≠ turn.txn →
    (manager.take turn).table.locksHeldBy other = manager.table.locksHeldBy other ∧
      (∀ resource, (manager.take turn).table.requestsOf other resource =
        manager.table.requestsOf other resource) ∧
      (manager.take turn).isBlocked other = manager.isBlocked other

theorem StaysLocal.plain_take (manager : Manager) {turn : Turn} (plain : turn.call.Plain)
    {other : Txn} (different : other ≠ turn.txn) :
    (manager.take turn).table.locksHeldBy other = manager.table.locksHeldBy other ∧
      (∀ resource, (manager.take turn).table.requestsOf other resource =
        manager.table.requestsOf other resource) ∧
      (manager.take turn).isBlocked other = manager.isBlocked other := by
  rw [take_eq]
  refine Table.take_cases (motive := fun after =>
    after.table.locksHeldBy other = manager.table.locksHeldBy other ∧
      (∀ resource, after.table.requestsOf other resource =
        manager.table.requestsOf other resource) ∧
      isBlocked ⟨after.table, after.events.foldl notify manager.handles⟩ other =
        manager.isBlocked other) manager.table turn ⟨rfl, fun _ => rfl, rfl⟩
    fun stage closing started => ?_
  have ended : stage.settled = ⟨stage.table, stage.journal⟩ := by
    rw [Stage.settled, started.tasks_of_plain plain, Table.settle_nil, List.append_nil]
  rw [ended]
  refine ⟨started.locksHeldBy_of_ne different, started.requestsOf_of_ne different, ?_⟩
  rw [List.foldl_append, started.isBlocked_closing]
  exact started.isBlocked_of_ne different stage.table

end Manager

/-- After any run, a call has its effects in one place: it changes what it names, and beyond that
only what is named by requests that it lets through after releases. -/
theorem effects_stay_local (turns : List Turn) (turn : Turn) :
    (Manager.run {} turns).StaysLocal turn := by
  have same : (Manager.run {} turns).table = Table.empty.run turns := Manager.table_run {} turns
  have regular : (Manager.run {} turns).table.Regular := same ▸ Table.Regular.run turns
  have attended : (Manager.run {} turns).table.Attended [] := same ▸ Table.Attended.run turns
  generalize Manager.run {} turns = manager at regular attended
  have within := Table.Within.take regular turn
  have spares := Table.Spares.take regular turn
  constructor
  · intro other different changed
    rw [Manager.table_take] at changed
    exact (spares.held other different).resolve_left changed
  · intro noted resource request lets different
    refine ⟨lets.mem_queueOf.resolve_right fun asked => ?_,
      lets.released regular attended different⟩
    exact different (Turn.owner_of_wanted? asked)
  · intro other resource different held gone
    rw [Manager.table_take] at gone
    have given := (spares.lost (other, resource) held).resolve_left gone
    exact given.of_ne different
  · intro lock noted different
    exact (spares.released lock noted).of_ne different
  · intro resource untouched
    rw [Manager.table_take]
    exact ⟨within.locks resource untouched, within.queues resource untouched⟩
  · intro plain other different
    exact Manager.StaysLocal.plain_take manager plain different

end LockManager
