import LockManager.Proofs.Deadlock
import LockManager.Proofs.Nesting

/-! Cascades come to an end. To release a lock is to drain the queue of its resource, and draining a
queue releases the locks that a served request gives back, elsewhere or on the same resource. On any
table, whatever its queues say, this recursion is finite. It only takes requests off queues, each one
once, and grants and wakes as many as it takes. -/
namespace LockManager

/-- The procedures of a cascade. -/
inductive Procedure
  | release (txn : Txn) (resource : Resource)
  | drain (resource : Resource)
  /-- The deferred releases of a served request, one after another. -/
  | giveBack (request : Request) (locks : List Lock)

def Procedure.tasks : Procedure → List Task
  | release txn resource => [.release txn resource]
  | drain resource => [.drain resource]
  | giveBack request locks => locks.map (.deferred request)

namespace Event

/-- The lock that the event tells was granted, anew or by a change of mode. -/
def grant? : Event → Option Lock
  | granted lock | replaced lock _ => some lock
  | _ => none

def commit? : Event → Option Request
  | committed request => some request
  | _ => none

def wake? : Event → Option Txn
  | woken txn => some txn
  | _ => none

end Event

namespace Table

/-- A procedure called on the table comes to its end. The procedures that it calls do so first. -/
inductive Returns : Table → Procedure → Outcome → Prop
  | release {table : Table} {txn : Txn} {resource : Resource} {drained : Outcome}
      (drain : Returns (table.remove txn resource) (.drain resource) drained) :
      Returns table (.release txn resource)
        ⟨drained.table, ((table.entry resource).lockOf? txn).toList.map .released ++ drained.events⟩
  | idle {table : Table} {resource : Resource} (empty : table.queueOf resource = []) :
      Returns table (.drain resource) { table := table.prune resource }
  | blocked {table : Table} {resource : Resource} {request : Request} {rest : List Request}
      {held : Lock} (head : table.queueOf resource = request :: rest)
      (conflict : (table.entry resource).conflict? request.lock.mode request.owner = some held) :
      Returns table (.drain resource)
        { table := table.prune resource, events := [.conflict request.lock.mode held] }
  /-- The next in line is served to the end before the queue is looked at again. -/
  | serves {table : Table} {resource : Resource} {request : Request} {rest : List Request}
      {given drained : Outcome} (head : table.queueOf resource = request :: rest)
      (free : (table.entry resource).conflict? request.lock.mode request.owner = none)
      (giveBack : Returns ((table.dequeue resource).grant request.lock)
        (.giveBack request request.releases) given)
      (drain : Returns given.table (.drain resource) drained) :
      Returns table (.drain resource)
        ⟨drained.table, (table.dequeue resource).grantEvent request.lock :: given.events ++
          .committed request :: .woken request.caller :: drained.events⟩
  | done {table : Table} {request : Request} : Returns table (.giveBack request []) { table }
  | stale {table : Table} {request : Request} {lock : Lock} {later : List Lock} {given : Outcome}
      (gone : table.heldLock? lock.owner lock.resource = none)
      (giveBack : Returns table (.giveBack request later) given) :
      Returns table (.giveBack request (lock :: later))
        ⟨given.table, .staleRelease request lock :: given.events⟩
  | gives {table : Table} {request : Request} {lock : Lock} {later : List Lock}
      {released given : Outcome} (held : (table.heldLock? lock.owner lock.resource).isSome)
      (release : Returns table (.release lock.owner lock.resource) released)
      (giveBack : Returns released.table (.giveBack request later) given) :
      Returns table (.giveBack request (lock :: later))
        ⟨given.table, released.events ++ given.events⟩

variable {table : Table}

/-! ### The recursion and the tasks -/

theorem settle_release (table : Table) (txn : Txn) (resource : Resource) :
    table.settle [.release txn resource] =
      ⟨((table.remove txn resource).settle [.drain resource]).table,
        ((table.entry resource).lockOf? txn).toList.map .released ++
          ((table.remove txn resource).settle [.drain resource]).events⟩ :=
  settle_cons table (.release txn resource) []

theorem settle_drain_idle {resource : Resource} (empty : table.queueOf resource = []) :
    table.settle [.drain resource] = { table := table.prune resource } := by
  simp only [settle_cons, step, empty, settle_nil, List.append_nil]

theorem settle_drain_blocked {resource : Resource} {request : Request} {rest : List Request}
    {held : Lock} (head : table.queueOf resource = request :: rest)
    (conflict : (table.entry resource).conflict? request.lock.mode request.owner = some held) :
    table.settle [.drain resource] =
      { table := table.prune resource, events := [.conflict request.lock.mode held] } := by
  simp only [settle_cons, step, head, conflict, settle_nil, List.append_nil]

theorem settle_drain_served {resource : Resource} {request : Request} {rest : List Request}
    (head : table.queueOf resource = request :: rest)
    (free : (table.entry resource).conflict? request.lock.mode request.owner = none) :
    table.settle [.drain resource] =
      ⟨((table.givingBack resource request).table.settle [.drain resource]).table,
        table.span resource request ++
          ((table.givingBack resource request).table.settle [.drain resource]).events⟩ := by
  have tasks : Task.afterGrant request resource ++ [] =
      (request.releases.map (.deferred request) ++ [.commit request]) ++ [.drain resource] := by
    simp [Task.afterGrant]
  rw [settle_cons, step_drain head (Entry.conflict?_eq_none_iff.mp free), tasks, settle_append,
    Stage.settle_served]
  rfl

theorem settle_deferred_stale {request : Request} {lock : Lock} (later : List Task)
    (gone : table.heldLock? lock.owner lock.resource = none) :
    table.settle (.deferred request lock :: later) =
      ⟨(table.settle later).table, .staleRelease request lock :: (table.settle later).events⟩ := by
  simp [settle_cons, step, gone]

theorem settle_deferred_held {request : Request} {lock : Lock} (later : List Task)
    (held : (table.heldLock? lock.owner lock.resource).isSome) :
    table.settle (.deferred request lock :: later) =
      ⟨((table.settle [.release lock.owner lock.resource]).table.settle later).table,
        (table.settle [.release lock.owner lock.resource]).events ++
          ((table.settle [.release lock.owner lock.resource]).table.settle later).events⟩ := by
  rw [settle_cons, ← settle_append]
  simp only [step, if_pos held, List.nil_append]

/-- What the recursion comes to, the tasks come to. -/
theorem Returns.eq_settle {procedure : Procedure} {outcome : Outcome}
    (returns : table.Returns procedure outcome) : outcome = table.settle procedure.tasks := by
  induction returns with
  | release _ drained =>
    rw [Procedure.tasks, settle_release, drained]
    rfl
  | idle empty => exact (settle_drain_idle empty).symm
  | blocked head conflict => exact (settle_drain_blocked head conflict).symm
  | serves head free _ _ given drained =>
    rw [Procedure.tasks, settle_drain_served head free, span, givingBack, drained, given]
    simp [Procedure.tasks]
  | done => exact (settle_nil _).symm
  | stale gone _ given =>
    rw [Procedure.tasks, List.map_cons, settle_deferred_stale _ gone, given]
    rfl
  | gives held _ _ released given =>
    rw [Procedure.tasks, List.map_cons, settle_deferred_held _ held, given, released]
    rfl

/-! ### The recursion is finite -/

theorem Moves.pending_le {task : Task} {done : Step} (move : table.Moves task done) :
    done.table.pending ≤ table.pending := by
  cases move with
  | rests => exact (pending_prune table _).le
  | serves head =>
    have taken := pending_dequeue table head
    rw [pending_grant]
    omega
  | gives => exact (pending_remove table _ _).le
  | defers | skips | completes => exact Nat.le_refl _

theorem pending_settle_le (table : Table) (tasks : List Task) :
    (table.settle tasks).table.pending ≤ table.pending :=
  (Stage.leads_settled ⟨table, [], tasks⟩).invariant
    (motive := fun now _ _ => now.pending ≤ table.pending)
    (fun before move => move.pending_le.trans before) (Nat.le_refl _)

/-- The recursion comes to an end. A request that is served has paid for its deferred releases and
for the next look at the queue, and nothing that happens on the way adds to what is pending. -/
theorem returns_settle (table : Table) (procedure : Procedure) :
    table.Returns procedure (table.settle procedure.tasks) := by
  cases procedure with
  | release txn resource =>
    rw [Procedure.tasks, settle_release]
    exact .release (returns_settle (table.remove txn resource) (.drain resource))
  | drain resource =>
    rw [Procedure.tasks]
    cases head : table.queueOf resource with
    | nil =>
      rw [settle_drain_idle head]
      exact .idle head
    | cons request rest =>
      cases found : (table.entry resource).conflict? request.lock.mode request.owner with
      | some held =>
        rw [settle_drain_blocked head found]
        exact .blocked head found
      | none =>
        have taken := pending_dequeue table head
        have less : (table.givingBack resource request).table.pending ≤
            ((table.dequeue resource).grant request.lock).pending := pending_settle_le _ _
        rw [pending_grant] at less
        have given := returns_settle ((table.dequeue resource).grant request.lock)
          (.giveBack request request.releases)
        have drained := returns_settle (table.givingBack resource request).table (.drain resource)
        rw [settle_drain_served head found, span]
        simpa [Procedure.tasks, givingBack] using Returns.serves head found given drained
  | giveBack request locks =>
    cases locks with
    | nil =>
      rw [Procedure.tasks, List.map_nil, settle_nil]
      exact .done
    | cons lock later =>
      rw [Procedure.tasks, List.map_cons]
      cases found : table.heldLock? lock.owner lock.resource with
      | none =>
        rw [settle_deferred_stale _ found]
        exact .stale found (returns_settle table (.giveBack request later))
      | some held =>
        have held : (table.heldLock? lock.owner lock.resource).isSome := by simp [found]
        have less := pending_settle_le table [.release lock.owner lock.resource]
        rw [settle_deferred_held _ held]
        exact .gives held (returns_settle table (.release lock.owner lock.resource))
          (returns_settle _ (.giveBack request later))
termination_by table.pending + Task.total procedure.tasks
decreasing_by
  all_goals
    simp only [Procedure.tasks, List.map_cons, Task.total_cons, Task.total_nil, Task.total_deferred,
      Task.share, pending_remove, pending_grant, Request.share] at *
    omega

/-! ### What a cascade takes off the queues -/

@[simp] theorem queuedCount_grant (table : Table) (lock : Lock) :
    (table.grant lock).queuedCount = table.queuedCount :=
  tally_grant rfl table lock fun entry => congrArg List.length (entry.queue_grant lock)

@[simp] theorem queuedCount_remove (table : Table) (txn : Txn) (resource : Resource) :
    (table.remove txn resource).queuedCount = table.queuedCount :=
  tally_remove rfl table txn resource fun _ => rfl

@[simp] theorem queuedCount_prune (table : Table) (resource : Resource) :
    (table.prune resource).queuedCount = table.queuedCount :=
  tally_prune rfl table resource

theorem queuedCount_dequeue {resource : Resource} {request : Request} {rest : List Request}
    (head : table.queueOf resource = request :: rest) :
    (table.dequeue resource).queuedCount + 1 = table.queuedCount := by
  have moved := @tally_dequeue (fun entry => entry.queue.length) rfl table resource
  rw [queueOf] at head
  simp only [head, List.tail_cons, List.length_cons] at moved
  simp only [queuedCount]
  omega

/-- The requests served from one queue. -/
def servedFrom (resource : Resource) (served : List (Resource × Request)) : List Request :=
  (served.filter fun item => item.1 = resource).map Prod.snd

theorem servedFrom_append (resource : Resource) (first second : List (Resource × Request)) :
    servedFrom resource (first ++ second) =
      servedFrom resource first ++ servedFrom resource second := by
  simp [servedFrom]

/-- These requests, each with its queue, were taken and granted in this order. Nothing else happened
to the queues, and each of the requests was committed and its transaction woken. -/
structure Serving (table : Table) (outcome : Outcome) (served : List (Resource × Request)) :
    Prop where
  queues : ∀ resource,
    table.queueOf resource = servedFrom resource served ++ outcome.table.queueOf resource
  count : outcome.table.queuedCount + served.length = table.queuedCount
  grants : outcome.events.filterMap Event.grant? = served.map fun item => item.2.lock
  commits : (outcome.events.filterMap Event.commit?).Perm (served.map Prod.snd)
  wakes : outcome.events.filterMap Event.wake? =
    (outcome.events.filterMap Event.commit?).map Request.caller

namespace Serving

variable {first second : Outcome} {served later : List (Resource × Request)}

theorem append (serving : table.Serving first served) (rest : first.table.Serving second later) :
    table.Serving ⟨second.table, first.events ++ second.events⟩ (served ++ later) where
  queues resource := by
    rw [serving.queues, rest.queues, servedFrom_append, List.append_assoc]
  count := by
    rw [List.length_append, Nat.add_comm served.length, ← Nat.add_assoc, rest.count, serving.count]
  grants := by
    rw [List.filterMap_append, serving.grants, rest.grants, List.map_append]
  commits := by
    rw [List.filterMap_append, List.map_append]
    exact serving.commits.append rest.commits
  wakes := by
    simp only [List.filterMap_append, List.map_append, serving.wakes, rest.wakes]

/-- Nobody is served while the queues stay as they are. -/
theorem nobody {after : Table} {events : Journal}
    (queues : ∀ resource, after.queueOf resource = table.queueOf resource)
    (count : after.queuedCount = table.queuedCount)
    (quiet : ∀ event ∈ events, event.grant? = none ∧ event.commit? = none ∧ event.wake? = none) :
    table.Serving ⟨after, events⟩ [] := by
  have grants : events.filterMap Event.grant? = [] :=
    List.filterMap_eq_nil_iff.mpr fun event member => (quiet event member).1
  have commits : events.filterMap Event.commit? = [] :=
    List.filterMap_eq_nil_iff.mpr fun event member => (quiet event member).2.1
  have wakes : events.filterMap Event.wake? = [] :=
    List.filterMap_eq_nil_iff.mpr fun event member => (quiet event member).2.2
  exact ⟨fun resource => (queues resource).symm, count, grants, by rw [commits]; exact .nil,
    by rw [wakes, commits]; rfl⟩

theorem remove (table : Table) (txn : Txn) (resource : Resource) :
    table.Serving ⟨table.remove txn resource,
      ((table.entry resource).lockOf? txn).toList.map .released⟩ [] := by
  refine nobody (by simp) (by simp) fun event member => ?_
  obtain ⟨lock, -, rfl⟩ := List.mem_map.mp member
  exact ⟨rfl, rfl, rfl⟩

theorem grant?_grantEvent (table : Table) (lock : Lock) :
    (table.grantEvent lock).grant? = lock ∧ (table.grantEvent lock).commit? = none ∧
      (table.grantEvent lock).wake? = none := by
  rw [grantEvent]
  split <;> exact ⟨rfl, rfl, rfl⟩

/-- A request comes first among those that are served on its behalf, and commits after them. -/
theorem serve {resource : Resource} {request : Request} {rest : List Request}
    (head : table.queueOf resource = request :: rest)
    (given : ((table.dequeue resource).grant request.lock).Serving first served) :
    table.Serving ⟨first.table, (table.dequeue resource).grantEvent request.lock :: first.events ++
      [.committed request, .woken request.caller]⟩ ((resource, request) :: served) := by
  obtain ⟨grant, commit, wake⟩ := grant?_grantEvent (table.dequeue resource) request.lock
  refine ⟨fun other => ?_, ?_, ?_, ?_, ?_⟩
  · have left := given.queues other
    rw [queueOf_grant, queueOf_dequeue] at left
    by_cases same : other = resource
    · subst same
      rw [if_pos rfl, head, List.tail_cons] at left
      simpa [servedFrom, head] using left
    · rw [if_neg same] at left
      simpa [servedFrom, Ne.symm same] using left
  · rw [List.length_cons, ← Nat.add_assoc, given.count, queuedCount_grant]
    exact queuedCount_dequeue head
  · rw [List.cons_append, List.filterMap_cons_some grant, List.filterMap_append, given.grants]
    simp [Event.grant?]
  · rw [List.cons_append, List.filterMap_cons_none commit, List.filterMap_append]
    exact (given.commits.append_right [request]).trans (List.perm_append_singleton _ _)
  · rw [List.cons_append, List.filterMap_cons_none commit, List.filterMap_cons_none wake,
      List.filterMap_append, List.filterMap_append, List.map_append, given.wakes]
    rfl

end Serving

/-- Whatever comes to its end has only served requests. -/
theorem Returns.serving {procedure : Procedure} {outcome : Outcome}
    (returns : table.Returns procedure outcome) : ∃ served, table.Serving outcome served := by
  induction returns with
  | @release table txn resource drained _ ih =>
    obtain ⟨served, serving⟩ := ih
    exact ⟨served, (Serving.remove table txn resource).append serving⟩
  | idle => exact ⟨[], .nobody (by simp) (by simp) (by simp)⟩
  | blocked =>
    refine ⟨[], .nobody (by simp) (by simp) fun event member => ?_⟩
    rw [List.mem_singleton.mp member]
    exact ⟨rfl, rfl, rfl⟩
  | @serves table resource request rest given drained head _ _ _ before after =>
    obtain ⟨served, first⟩ := before
    obtain ⟨later, second⟩ := after
    refine ⟨(resource, request) :: served ++ later, ?_⟩
    simpa using (Serving.serve head first).append second
  | done => exact ⟨[], .nobody (by simp) rfl (by simp)⟩
  | @stale table request lock _ _ _ _ ih =>
    obtain ⟨served, serving⟩ := ih
    have noted : table.Serving ⟨table, [.staleRelease request lock]⟩ [] := by
      refine .nobody (by simp) rfl fun event member => ?_
      rw [List.mem_singleton.mp member]
      exact ⟨rfl, rfl, rfl⟩
    exact ⟨served, noted.append serving⟩
  | gives _ _ _ before after =>
    obtain ⟨served, first⟩ := before
    obtain ⟨later, second⟩ := after
    exact ⟨served ++ later, first.append second⟩

end Table

namespace Stage

/-- What the waiting requests and the tasks that are left can still cause. -/
def work (stage : Stage) : Nat := stage.table.pending + Task.total stage.tasks

theorem work_proceed (stage : Stage) (unfinished : stage.tasks ≠ []) :
    stage.proceed.work < stage.work := by
  obtain ⟨table, journal, tasks⟩ := stage
  obtain ⟨task, later, rfl⟩ := List.exists_cons_of_ne_nil unfinished
  have less := table.step_decreases task
  simp only [proceed, work, Task.total_append, Task.total_cons]
  omega

theorem work_after (stage : Stage) (count : Nat) :
    (stage.after count).tasks = [] ∨ (stage.after count).work + count ≤ stage.work := by
  induction count with
  | zero => exact .inr (Nat.le_refl _)
  | succ count ih =>
    by_cases ended : (stage.after count).tasks = []
    · refine .inl ?_
      rwa [after, proceed, ended]
    · have less := work_proceed _ ended
      have earlier := ih.resolve_left ended
      refine .inr ?_
      rw [after]
      omega

/-- A call comes to its end within the number of tasks that its work allows. -/
theorem after_work (stage : Stage) :
    stage.after stage.work = ⟨stage.settled.table, stage.settled.events, []⟩ := by
  have ended : (stage.after stage.work).tasks = [] := by
    rcases stage.work_after stage.work with ended | less
    · exact ended
    · by_contra unfinished
      have fewer := work_proceed _ unfinished
      omega
  have path := stage.leads_after (Nat.zero_le stage.work)
  cases reached : stage.after stage.work with
  | mk table journal tasks =>
    rw [reached] at ended path
    obtain rfl : tasks = [] := ended
    obtain ⟨rfl, rfl⟩ := path.eq_settled
    rfl

end Stage

/-- On any table, releasing a lock, draining a queue and the deferred releases of a request come to
an end, in a number of steps that the queues bound. No request joins a queue. Those that leave do
so from the front, each once, and there are as many of them as grants and as many as wakes. -/
theorem cascade_ends (table : Table) (procedure : Procedure) : ∃ outcome served,
    (∀ other, table.Returns procedure other ↔ other = outcome) ∧
    table.settle procedure.tasks = outcome ∧
    Stage.after ⟨table, [], procedure.tasks⟩ (table.pending + Task.total procedure.tasks) =
      ⟨outcome.table, outcome.events, []⟩ ∧
    table.Serving outcome served ∧
    outcome.table.queuedCount + (outcome.events.filterMap Event.grant?).length =
      table.queuedCount ∧
    (outcome.events.filterMap Event.wake?).length =
      (outcome.events.filterMap Event.grant?).length := by
  have returns := table.returns_settle procedure
  obtain ⟨served, serving⟩ := returns.serving
  have granted : ((table.settle procedure.tasks).events.filterMap Event.grant?).length =
      served.length := by
    rw [serving.grants, List.length_map]
  refine ⟨table.settle procedure.tasks, served, ?_, rfl,
    Stage.after_work ⟨table, [], procedure.tasks⟩, serving, ?_, ?_⟩
  · intro other
    constructor
    · exact Table.Returns.eq_settle
    · rintro rfl
      exact returns
  · rw [granted]
    exact serving.count
  · rw [serving.wakes, List.length_map, serving.commits.length_eq, List.length_map, granted]

end LockManager
