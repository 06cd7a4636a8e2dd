import LockManager.Proofs.Attention
import LockManager.Proofs.Commit

/-! The cascade of a release ends where commits end. Seen with everything already done that its
tasks have named, a cascade makes one commit at each grant and otherwise stands still, and it stops
only when no commit is left. As commits commute in disciplined runs, no order of them leads
elsewhere. -/
namespace LockManager
open Std

/-- The transaction whose lock the task gives back. -/
def Task.giver? : Task → Option Txn
  | .release txn _ => some txn
  | .deferred _ lock => some lock.owner
  | .drain _ | .commit _ => none

theorem Task.giver_afterGrant {request : Request} {resource : Resource} {task : Task} {txn : Txn}
    (member : task ∈ afterGrant request resource) (giver : txn ∈ task.giver?) :
    ∃ lock ∈ request.releases, lock.owner = txn := by
  rcases List.mem_append.mp member with deferred | last
  · obtain ⟨lock, released, rfl⟩ := List.mem_map.mp deferred
    exact ⟨lock, released, Option.some.inj giver⟩
  · simp only [List.mem_cons, List.not_mem_nil, or_false] at last
    rcases last with rfl | rfl <;> cases giver

namespace Ledger

theorem strike_eq_without (ledger : Ledger) (txn : Txn) (resource : Resource) :
    ledger.strike txn resource = ledger.without [(txn, resource)] :=
  List.filter_congr fun held _ => by simp [Lock.key]

theorem filter_without (ledger : Ledger) (keys : List (Txn × Resource)) (keep : Lock → Bool) :
    (ledger.without keys).filter keep = without (ledger.filter keep) keys := by
  rw [without, without, List.filter_filter, List.filter_filter]
  exact List.filter_congr fun held _ => Bool.and_comm _ _

theorem without_eq_self {ledger : Ledger} {keys : List (Txn × Resource)}
    (absent : ∀ held ∈ ledger, held.key ∉ keys) : ledger.without keys = ledger :=
  List.filter_eq_self.mpr fun held member => by simpa using absent held member

end Ledger

namespace Manager

def picture (manager : Manager) : Picture :=
  ⟨manager.table.locksOn, manager.table.locksHeldBy, manager.table.queueOf, manager.isBlocked⟩

/-! ### What a change of the table does to the picture -/

variable {ledger : Ledger} {table : Table}

theorem picture_prune (table : Table) (handles : ExtTreeMap Txn Handle) (resource : Resource) :
    picture ⟨table.prune resource, handles⟩ = picture ⟨table, handles⟩ := by
  ext1
  · funext other
    exact Table.locksOn_prune table resource other
  · funext txn
    exact Table.locksHeldBy_prune table resource txn
  · funext other
    exact Table.queueOf_prune table resource other
  · rfl

theorem picture_remove (books : Books ledger table) (handles : ExtTreeMap Txn Handle) (txn : Txn)
    (resource : Resource) :
    picture ⟨table.remove txn resource, handles⟩ =
      (picture ⟨table, handles⟩).without [(txn, resource)] := by
  have after := books.remove txn resource
  ext1
  · funext other
    simp only [picture, Picture.without]
    rw [after.active, books.active, Ledger.strike_eq_without, Ledger.filter_without]
  · funext other
    simp only [picture, Picture.without]
    rw [after.held, books.held, Ledger.strike_eq_without, Ledger.filter_without]
  · funext other
    exact Table.queueOf_remove table txn resource other
  · rfl

/-- Giving back what nobody holds changes nothing. -/
theorem picture_without (books : Books ledger table) (handles : ExtTreeMap Txn Handle)
    {keys : List (Txn × Resource)} (absent : ∀ held ∈ ledger, held.key ∉ keys) :
    (picture ⟨table, handles⟩).without keys = picture ⟨table, handles⟩ := by
  ext1
  · funext resource
    exact Ledger.without_eq_self fun held member => absent held (books.mem_locksOn.mp member).1
  · funext txn
    exact Ledger.without_eq_self fun held member => absent held (books.mem_locksHeldBy.mp member).1
  · rfl
  · rfl

theorem picture_grant (books : Books ledger table) (handles : ExtTreeMap Txn Handle) (lock : Lock) :
    picture ⟨table.grant lock, handles⟩ = (picture ⟨table, handles⟩).grant lock := by
  ext1
  · funext resource
    exact books.locksOn_grant lock resource
  · funext txn
    exact books.locksHeldBy_grant lock txn
  · funext resource
    exact Table.queueOf_grant table lock resource
  · rfl

theorem picture_dequeue (table : Table) (handles : ExtTreeMap Txn Handle) (resource : Resource) :
    picture ⟨table.dequeue resource, handles⟩ = (picture ⟨table, handles⟩).dequeue resource := by
  ext1
  · funext other
    exact Table.locksOn_dequeue table resource other
  · rfl
  · funext other
    exact Table.queueOf_dequeue table resource other
  · rfl

theorem picture_serve (books : Books ledger table) (handles : ExtTreeMap Txn Handle)
    (resource : Resource) (lock : Lock) :
    picture ⟨(table.dequeue resource).grant lock, handles⟩ =
      ((picture ⟨table, handles⟩).dequeue resource).grant lock := by
  rw [picture_grant (books.dequeue resource), picture_dequeue]

theorem picture_woken (table : Table) (handles : ExtTreeMap Txn Handle) (txn : Txn) :
    picture ⟨table, notify handles (.woken txn)⟩ = (picture ⟨table, handles⟩).wake txn := by
  ext1
  · rfl
  · rfl
  · rfl
  · funext other
    exact isBlocked_woken table handles txn other

end Manager

namespace Picture

/-! ### Looking ahead of the tasks -/

/-- What the task itself does, as far as it is known beforehand. -/
def after (picture : Picture) : Task → Picture
  | .release txn resource => picture.without [(txn, resource)]
  | .deferred _ lock => picture.without [lock.key]
  | .commit request => picture.wake request.caller
  | .drain _ => picture

def ahead (picture : Picture) (tasks : List Task) : Picture := tasks.foldl after picture

variable {picture : Picture}

theorem without_without (picture : Picture) (first second : List (Txn × Resource)) :
    (picture.without first).without second = picture.without (first ++ second) := by
  simp only [without, Ledger.without_without]

theorem without_nil (picture : Picture) : picture.without [] = picture := by
  have same (ledger : Ledger) : ledger.without [] = ledger :=
    Ledger.without_eq_self fun _ _ => List.not_mem_nil
  simp only [without, same]

/-- With tasks ahead that give back one lock each, all of these are gone. -/
theorem ahead_map (picture : Picture) (locks : List Lock) (task : Lock → Task)
    (key : Lock → Txn × Resource)
    (gives : ∀ (picture : Picture) lock, picture.after (task lock) = picture.without [key lock]) :
    picture.ahead (locks.map task) = picture.without (locks.map key) := by
  induction locks generalizing picture with
  | nil => exact picture.without_nil.symm
  | cons lock later ih =>
    have rest := ih (picture.without [key lock])
    rw [without_without, ← gives] at rest
    exact rest

theorem ahead_append (picture : Picture) (first second : List Task) :
    picture.ahead (first ++ second) = (picture.ahead first).ahead second :=
  List.foldl_append

theorem ahead_afterGrant (picture : Picture) (request : Request) (resource : Resource) :
    picture.ahead (Task.afterGrant request resource) =
      (picture.without (request.releases.map Lock.key)).wake request.caller := by
  rw [Task.afterGrant, ahead_append, picture.ahead_map _ _ Lock.key fun _ _ => rfl]
  rfl

/-- Locks are given back and transactions woken, but nobody joins or leaves a queue. -/
theorem queue_ahead (picture : Picture) (tasks : List Task) :
    (picture.ahead tasks).queue = picture.queue := by
  induction tasks generalizing picture with
  | nil => rfl
  | cons task later ih =>
    have step : (picture.after task).queue = picture.queue := by
      cases task <;> rfl
    exact (ih (picture.after task)).trans step

theorem active_ahead_subset (picture : Picture) (tasks : List Task) (resource : Resource) :
    (picture.ahead tasks).active resource ⊆ picture.active resource := by
  induction tasks generalizing picture with
  | nil => exact List.Subset.refl _
  | cons task later ih =>
    have step : (picture.after task).active resource ⊆ picture.active resource := by
      intro held member
      cases task with
      | release | deferred => exact (Ledger.mem_without.mp member).1
      | drain | commit => exact member
    exact fun held member => step (ih (picture.after task) member)

/-- A request may be served before the tasks of others or after them. -/
theorem serve_ahead {tasks : List Task} {resource : Resource} {request : Request}
    (others : ∀ task ∈ tasks, ∀ txn ∈ task.giver?, request.owner ≠ txn) :
    (picture.ahead tasks).serve resource request =
      (picture.serve resource request).ahead tasks := by
  induction tasks generalizing picture with
  | nil => rfl
  | cons task later ih =>
    have rest : ((picture.after task).ahead later).serve resource request =
        ((picture.after task).serve resource request).ahead later :=
      ih fun next member => others next (List.mem_cons_of_mem _ member)
    have step : (picture.after task).serve resource request =
        (picture.serve resource request).after task := by
      have other := others task List.mem_cons_self
      cases task with
      | release txn released =>
        apply serve_without
        intro member
        apply other txn rfl
        exact congrArg Prod.fst (List.mem_singleton.mp member)
      | deferred waiting lock =>
        apply serve_without
        intro member
        apply other lock.owner rfl
        exact congrArg Prod.fst (List.mem_singleton.mp member)
      | commit => exact serve_wake
      | drain => rfl
    rw [step] at rest
    exact rest

end Picture

namespace Table

/-! ### What a move of the cascade is in the picture -/

variable {table : Table} {tasks : List Task}

/-- A move does just what was known beforehand, or serves the next in line. -/
theorem Moves.seen {task : Task} {done : Step} (move : table.Moves task done)
    (regular : table.Regular) (handles : ExtTreeMap Txn Handle) :
    (Manager.picture ⟨done.table, done.events.foldl Manager.notify handles⟩).ahead done.next =
        (Manager.picture ⟨table, handles⟩).after task ∨
      ∃ resource request rest, task = .drain resource ∧
        table.queueOf resource = request :: rest ∧ table.Fits resource request.lock ∧
        (Manager.picture ⟨done.table, done.events.foldl Manager.notify handles⟩).ahead done.next =
          (Manager.picture ⟨table, handles⟩).serve resource request := by
  obtain ⟨ledger, books⟩ := regular.books
  have quiet := move.quiet
  cases move with
  | @rests resource events blocked noted =>
    refine .inl ?_
    rw [Manager.foldl_notify_quiet _ (quiet (by simp)), Manager.picture_prune]
    rfl
  | @serves resource request rest head fits =>
    refine .inr ⟨resource, request, rest, rfl, head, fits, ?_⟩
    rw [Manager.foldl_notify_quiet _ (quiet (by simp)), Manager.picture_serve books,
      Picture.ahead_afterGrant, (regular.filed_head head).caller]
    rfl
  | @gives txn resource =>
    refine .inl ?_
    rw [Manager.foldl_notify_quiet _ (quiet (by simp)), Manager.picture_remove books]
    rfl
  | defers held => exact .inl rfl
  | @skips request lock gone =>
    refine .inl (Manager.picture_without books handles ?_).symm
    intro held known member
    rw [List.mem_singleton, Lock.key, Lock.key, Prod.mk.injEq] at member
    exact books.absent_of_heldLock? gone held known member.1 member.2
  | @completes request =>
    refine .inl ?_
    exact Manager.picture_woken table handles request.caller

/-- Whoever gives a lock back has no request in any queue. -/
def Apart (table : Table) (tasks : List Task) : Prop :=
  ∀ task ∈ tasks, ∀ txn ∈ task.giver?, ∀ resource, ∀ request ∈ table.queueOf resource,
    request.owner ≠ txn

/-- Once it is served, a transaction has no request left. -/
theorem Apart.moves {task : Task} {done : Step} (apart : table.Apart (task :: tasks))
    (regular : table.Regular) (one : OneRequestEach table.queueOf)
    (move : table.Moves task done) : done.table.Apart (done.next ++ tasks) := by
  intro due member txn giver resource waiting queued
  have before := (move.queueOf_sublist resource).subset queued
  rcases List.mem_append.mp member with new | later
  · cases move with
    | @serves drained request rest head fits =>
      obtain ⟨lock, released, rfl⟩ := Task.giver_afterGrant new giver
      rw [queueOf_grant] at queued
      rw [(regular.filed_head head).own lock released]
      exact one.gone_of_head head resource waiting queued
    | @gives txn released =>
      rw [List.mem_singleton.mp new] at giver
      cases giver
    | @defers request lock held =>
      rw [List.mem_singleton.mp new] at giver
      exact apart _ List.mem_cons_self txn giver resource waiting before
    | rests | skips | completes => cases new
  · exact apart due (List.mem_cons_of_mem _ later) txn giver resource waiting before

end Table

/-- The commits that a stage of a cascade has made since the first picture. -/
structure Stage.Tracks (start : Picture) (handles : ExtTreeMap Txn Handle) (table : Table)
    (journal : Journal) (tasks : List Task) : Prop where
  regular : table.Regular
  one : OneRequestEach table.queueOf
  apart : table.Apart tasks
  path : ∃ count, Steps Picture.Commits count start
    ((Manager.picture ⟨table, journal.foldl Manager.notify handles⟩).ahead tasks)

theorem Stage.Tracks.moves {start : Picture} {handles : ExtTreeMap Txn Handle} {table : Table}
    {journal : Journal} {task : Task} {tasks : List Task} {done : Step}
    (tracks : Stage.Tracks start handles table journal (task :: tasks))
    (move : table.Moves task done) :
    Stage.Tracks start handles done.table (journal ++ done.events) (done.next ++ tasks) where
  regular := tracks.regular.moves move
  one := tracks.one.moves move
  apart := tracks.apart.moves tracks.regular tracks.one move
  path := by
    obtain ⟨count, path⟩ := tracks.path
    rw [List.foldl_append, Picture.ahead_append]
    rcases move.seen tracks.regular (journal.foldl Manager.notify handles) with
      seen | ⟨resource, request, rest, rfl, head, fits, seen⟩
    · rw [seen]
      exact ⟨count, path⟩
    · rw [seen, ← Picture.serve_ahead]
      · have commit : Picture.Commits _ _ := @Picture.Commits.commit
          ((Manager.picture ⟨table, journal.foldl Manager.notify handles⟩).ahead tasks)
          resource request rest (by rw [Picture.queue_ahead]; exact head)
          (fun held member => fits held (Picture.active_ahead_subset _ _ _ member))
        exact ⟨count + 1, path.append (.next commit (.refl _))⟩
      · intro due member txn giver
        exact tracks.apart due (List.mem_cons_of_mem _ member) txn giver resource request
          (head ▸ List.mem_cons_self)

/-- No commit is left where every queue rests. -/
theorem final_of_attended {table : Table} (attended : table.Attended [])
    (handles : ExtTreeMap Txn Handle) :
    Final Picture.Commits (Manager.picture ⟨table, handles⟩) := by
  intro next commits
  cases commits with
  | @commit resource request rest head fits =>
    have first : (table.queueOf resource).head? = some request := by
      rw [show table.queueOf resource = request :: rest from head]
      rfl
    obtain ⟨held, here, other, conflict⟩ := attended.rests resource request first
    rw [fits held here other] at conflict
    contradiction

/-- Once all tasks are done, the picture is where commits end that start ahead of them. -/
theorem Stage.settles (stage : Stage) (handles : ExtTreeMap Txn Handle)
    (regular : stage.table.Regular) (one : OneRequestEach stage.table.queueOf)
    (apart : stage.table.Apart stage.tasks) (attended : stage.table.Attended stage.tasks) :
    SettlesTo Picture.Commits
      ((Manager.picture ⟨stage.table, stage.journal.foldl Manager.notify handles⟩).ahead
        stage.tasks)
      (Manager.picture
        ⟨stage.settled.table, stage.settled.events.foldl Manager.notify handles⟩) := by
  have path := stage.leads_settled
  have start : Tracks _ handles stage.table stage.journal stage.tasks :=
    ⟨regular, one, apart, 0, .refl _⟩
  have ended := path.invariant (motive := Tracks _ handles) (fun tracks => tracks.moves) start
  have final := final_of_attended (attended.leads regular path)
    (stage.settled.events.foldl Manager.notify handles)
  have orderly : Picture.Orderly ((Manager.picture
      ⟨stage.table, stage.journal.foldl Manager.notify handles⟩).ahead stage.tasks) := by
    constructor
    · rw [Picture.queue_ahead]
      exact regular.filed
    · rw [Picture.queue_ahead]
      exact one
  obtain ⟨count, commits⟩ := ended.path
  exact orderly.settlesTo commits final

namespace Manager

variable {manager after : Manager} {txn : Txn} {resource : Resource} {journal : Journal}

/-- An accepted call opens and goes on to its end, and the handles follow the journal. -/
theorem opens_of_accepted {call : Call} (accepted : manager.call txn call = .ok (after, journal)) :
    ∃ stage closing, manager.table.Opens txn call stage closing ∧
      after = ⟨stage.settled.table, (stage.settled.events ++ closing).foldl notify manager.handles⟩ := by
  unfold Manager.call at accepted
  split at accepted
  · contradiction
  · next outcome result =>
    cases accepted
    obtain ⟨stage, closing, opens, rfl⟩ := Table.call_ok_iff.mp result
    exact ⟨stage, closing, opens, rfl⟩

/-- A release takes the lock out, and goes on with the queue of its resource. -/
theorem release_starts (accepted : manager.call txn (.release resource) = .ok (after, journal)) :
    ∃ stage : Stage, stage.table = manager.table.remove txn resource ∧
      (∀ event ∈ stage.journal, event.signal? = none) ∧ stage.tasks = [.drain resource] ∧
      after = ⟨stage.settled.table, stage.settled.events.foldl notify manager.handles⟩ := by
  obtain ⟨stage, closing, opens, rfl⟩ := opens_of_accepted accepted
  cases opens with
  | releaseStarted held =>
    simp only [Stage.settled_cons, List.append_nil]
    refine ⟨_, rfl, ?_, rfl, rfl⟩
    intro event member
    obtain ⟨lock, -, rfl⟩ := List.mem_map.mp member
    rfl

theorem release_settles (regular : manager.table.Regular) (attended : manager.table.Attended [])
    (one : OneRequestEach manager.table.queueOf)
    (accepted : manager.call txn (.release resource) = .ok (after, journal)) :
    SettlesTo Picture.Commits (manager.picture.without [(txn, resource)]) after.picture := by
  -- The caller may have a request in a queue itself, so nothing is looked ahead of before its lock
  -- is out.
  obtain ⟨⟨table, events, tasks⟩, rfl, quiet, rfl, rfl⟩ := release_starts accepted
  have given : manager.table.Moves (.release txn resource) _ := .gives
  have apart : (manager.table.remove txn resource).Apart [.drain resource] := by
    intro task member giver gives
    rw [List.mem_singleton.mp member] at gives
    cases gives
  have unlooked : manager.table.Attended [.release txn resource] :=
    fun other => .inr (attended.rests other)
  have start : picture ⟨manager.table.remove txn resource, events.foldl notify manager.handles⟩ =
      manager.picture.without [(txn, resource)] := by
    obtain ⟨ledger, books⟩ := regular.books
    rw [foldl_notify_quiet manager.handles quiet, picture_remove books]
  rw [← start]
  exact Stage.settles ⟨_, events, [.drain resource]⟩ manager.handles (regular.moves given)
    (one.moves given) apart (unlooked.moves regular given)

end Manager

/-- In a disciplined run, a release leaves what every order of commits comes to once the lock is
gone; and every order comes to an end. -/
theorem release_settles_in_any_order {turns : List Turn}
    (disciplined : Table.empty.Disciplined turns) {txn : Txn} {resource : Resource}
    {after : Manager} {journal : Journal}
    (accepted : (Manager.run {} turns).call txn (.release resource) = .ok (after, journal)) :
    SettlesTo Picture.Commits ((Manager.run {} turns).picture.without [(txn, resource)])
      after.picture := by
  have table : (Manager.run {} turns).table = Table.empty.run turns := Manager.table_run {} turns
  refine Manager.release_settles ?_ ?_ ?_ accepted
  · rw [table]
    exact Table.Regular.run turns
  · rw [table]
    exact Table.Attended.run turns
  · rw [table]
    exact OneRequestEach.run disciplined

/-- The release serves the exchange, whose own release serves the third transaction. -/
theorem queuedExchange_settles :
    ∃ after journal,
      (Manager.run {} Sample.queuedExchange).call ⟨1⟩ (.release Sample.orders) =
        .ok (after, journal) ∧
      after.table.locksOn Sample.stock = [⟨Sample.stock, .shared, ⟨3⟩⟩] ∧
      SettlesTo Picture.Commits
        ((Manager.run {} Sample.queuedExchange).picture.without [(⟨1⟩, Sample.orders)])
        after.picture := by
  have granted : (((Manager.run {} Sample.queuedExchange).call ⟨1⟩
      (.release Sample.orders)).map (·.1.table.locksOn Sample.stock)).toOption =
      some [⟨Sample.stock, .shared, ⟨3⟩⟩] := by
    decide +kernel
  have disciplined : Table.empty.Disciplined Sample.queuedExchange := by
    decide +kernel
  cases accepted : (Manager.run {} Sample.queuedExchange).call ⟨1⟩ (.release Sample.orders) with
  | error rejection =>
    rw [accepted] at granted
    contradiction
  | ok result =>
    rw [accepted] at granted
    exact ⟨result.1, result.2, rfl, Option.some.inj granted,
      release_settles_in_any_order disciplined accepted⟩

end LockManager
