import LockManager.Proofs.Pledges
import LockManager.Proofs.Termination

/-! The spans of requests that are served. In a disciplined run a call tells of a transaction that
it serves just the grant, the deferred releases in the order of the list, the commit and the wake.
From the grant to the wake other requests may be served, each with its whole span. -/
namespace LockManager

/-- The transaction whose grant, release, commit or wake the event tells of. -/
def Event.about? : Event → Option Txn
  | granted lock | replaced lock _ | released lock => some lock.owner
  | committed request | staleRelease request _ => some request.owner
  | woken txn => some txn
  | conflict _ _ | queued _ _ _ | prepared _ | suspended _ => none

namespace Journal

/-- What the journal tells of one transaction. -/
def about (journal : Journal) (txn : Txn) : Journal :=
  journal.filter fun event => event.about? = some txn

variable {journal : Journal} {txn : Txn}

theorem about_append (first second : Journal) (txn : Txn) :
    about (first ++ second) txn = about first txn ++ about second txn :=
  List.filter_append _ _

theorem about_eq_nil_iff : about journal txn = [] ↔ ∀ event ∈ journal, event.about? ≠ some txn := by
  simp [about]

theorem about_eq_self (all : ∀ event ∈ journal, event.about? = some txn) :
    about journal txn = journal :=
  List.filter_eq_self.mpr fun event member => decide_eq_true (all event member)

end Journal

/-- What the task does may be told of the transaction. -/
def Task.Concerns : Task → Txn → Prop
  | .release giver _, txn => giver = txn
  | .deferred request lock, txn => request.owner = txn ∨ lock.owner = txn
  | .commit request, txn => request.owner = txn ∨ request.caller = txn
  | .drain _, _ => False

namespace Table

variable {table after : Table} {task : Task} {tasks : List Task} {done : Step} {txn : Txn}

/-- What the journal tells of a request that is served, with each lock of its list given back. -/
def account (table : Table) (resource : Resource) (request : Request) : Journal :=
  (table.dequeue resource).grantEvent request.lock :: request.releases.map .released ++
    [.committed request, .woken request.caller]

theorem about?_grantEvent (table : Table) (lock : Lock) :
    (table.grantEvent lock).about? = some lock.owner := by
  rw [grantEvent]
  split <;> rfl

/-! ### Whom a move concerns -/

/-- The next request in some queue is the transaction's own, and it is granted. -/
def LetsIn (table : Table) (txn : Txn) (after : Table) : Prop :=
  ∃ resource request rest, table.queueOf resource = request :: rest ∧ request.owner = txn ∧
    after = (table.dequeue resource).grant request.lock

theorem LetsIn.waiting (served : table.LetsIn txn after) : table.isWaiting txn = true := by
  obtain ⟨resource, request, rest, head, mine, -⟩ := served
  exact isWaiting_iff.mpr ⟨resource, request, head ▸ List.mem_cons_self, mine⟩

theorem LetsIn.idle (served : table.LetsIn txn after) (one : OneRequestEach table.queueOf) :
    after.isWaiting txn = false := by
  obtain ⟨resource, request, rest, head, mine, rfl⟩ := served
  rw [isWaiting_grant, ← mine]
  exact isWaiting_eq_false_iff.mpr (one.gone_of_head head)

/-- A move tells of a transaction that its task concerns, or that it serves. -/
theorem Moves.about (move : table.Moves task done) {event : Event} (noted : event ∈ done.events)
    (tells : event.about? = some txn) : task.Concerns txn ∨ table.LetsIn txn done.table := by
  cases move with
  | rests blocked conflicts =>
    obtain ⟨mode, held, rfl⟩ := conflicts event noted
    cases tells
  | @serves resource request rest head =>
    rw [List.mem_singleton.mp noted, about?_grantEvent, Option.some.injEq] at tells
    exact .inr ⟨resource, request, rest, head, tells, rfl⟩
  | gives =>
    obtain ⟨lock, found, rfl⟩ := List.mem_map.mp noted
    have owner := List.find?_some (Option.mem_toList.mp found)
    rw [decide_eq_true_eq] at owner
    exact .inl (owner.symm.trans (Option.some.inj tells))
  | defers => cases noted
  | skips =>
    rw [List.mem_singleton.mp noted] at tells
    exact .inl (.inl (Option.some.inj tells))
  | completes =>
    simp only [List.mem_cons, List.not_mem_nil, or_false] at noted
    rcases noted with rfl | rfl
    · exact .inl (.inl (Option.some.inj tells))
    · exact .inl (.inr (Option.some.inj tells))

/-- What a task sets off concerns whom it concerns itself, or whom it serves. -/
theorem Moves.concerns (move : table.Moves task done) (regular : table.Regular) {next : Task}
    (new : next ∈ done.next) (concerns : next.Concerns txn) :
    task.Concerns txn ∨ table.LetsIn txn done.table := by
  cases move with
  | rests | skips | completes => cases new
  | @serves resource request rest head =>
    have filed := regular.filed_head head
    have mine : request.owner = txn := by
      rcases List.mem_append.mp new with deferred | last
      · obtain ⟨lock, released, rfl⟩ := List.mem_map.mp deferred
        rcases concerns with mine | mine
        · exact mine
        · exact (filed.own lock released).symm.trans mine
      · simp only [List.mem_cons, List.not_mem_nil, or_false] at last
        rcases last with rfl | rfl
        · rcases concerns with mine | mine
          · exact mine
          · exact filed.caller.symm.trans mine
        · cases concerns
    exact .inr ⟨resource, request, rest, head, mine, rfl⟩
  | gives =>
    rw [List.mem_singleton.mp new] at concerns
    cases concerns
  | defers =>
    rw [List.mem_singleton.mp new] at concerns
    exact .inl (.inr concerns)

/-! ### Those who are done -/

/-- The transaction waits for nothing, and nothing that is left to do concerns it. -/
structure Uninvolved (table : Table) (tasks : List Task) (txn : Txn) : Prop where
  idle : table.isWaiting txn = false
  apart : ∀ task ∈ tasks, ¬ task.Concerns txn

namespace Uninvolved

theorem not_served (uninvolved : table.Uninvolved tasks txn) : ¬ table.LetsIn txn after := by
  intro served
  have waiting := served.waiting
  rw [uninvolved.idle] at waiting
  contradiction

theorem moves (uninvolved : table.Uninvolved (task :: tasks) txn) (regular : table.Regular)
    (move : table.Moves task done) : done.table.Uninvolved (done.next ++ tasks) txn where
  idle := move.idle uninvolved.idle
  apart next member concerns := by
    rcases List.mem_append.mp member with new | later
    · rcases move.concerns regular new concerns with own | served
      · exact uninvolved.apart task List.mem_cons_self own
      · exact uninvolved.not_served served
    · exact uninvolved.apart next (List.mem_cons_of_mem _ later) concerns

theorem quiet (uninvolved : table.Uninvolved (task :: tasks) txn) (move : table.Moves task done) :
    Journal.about done.events txn = [] := by
  refine Journal.about_eq_nil_iff.mpr fun event noted tells => ?_
  rcases move.about noted tells with own | served
  · exact uninvolved.apart task List.mem_cons_self own
  · exact uninvolved.not_served served

theorem locksHeldBy (uninvolved : table.Uninvolved (task :: tasks) txn)
    (move : table.Moves task done) : done.table.locksHeldBy txn = table.locksHeldBy txn := by
  rcases move.locksHeldBy txn with same | ⟨resource, rfl, -⟩ | ⟨resource, request, rest, -, head, mine, after⟩
  · exact same
  · exact absurd rfl (uninvolved.apart _ List.mem_cons_self)
  · exact absurd ⟨resource, request, rest, head, mine, after⟩ uninvolved.not_served

/-- Work that does not concern a transaction leaves it alone to the end. -/
theorem settle (uninvolved : table.Uninvolved tasks txn) (regular : table.Regular) :
    (table.settle tasks).table.Regular ∧ (table.settle tasks).table.isWaiting txn = false ∧
      Journal.about (table.settle tasks).events txn = [] ∧
        (table.settle tasks).table.locksHeldBy txn = table.locksHeldBy txn := by
  have ended := (Stage.leads_settled ⟨table, [], tasks⟩).invariant
    (motive := fun now noted left => now.Regular ∧ now.Uninvolved left txn ∧
      Journal.about noted txn = [] ∧ now.locksHeldBy txn = table.locksHeldBy txn)
    (fun before move => ?_) ⟨regular, uninvolved, rfl, rfl⟩
  · exact ⟨ended.1, ended.2.1.idle, ended.2.2.1, ended.2.2.2⟩
  · obtain ⟨regular, uninvolved, quiet, locks⟩ := before
    refine ⟨regular.moves move, uninvolved.moves regular move, ?_, ?_⟩
    · rw [Journal.about_append, quiet, uninvolved.quiet move]
      rfl
    · rw [uninvolved.locksHeldBy move, locks]

end Uninvolved

/-! ### Those who are to be served -/

/-- Whoever is concerned by what is left to do has no request in a queue. -/
def Engaged (table : Table) (tasks : List Task) : Prop :=
  ∀ task ∈ tasks, ∀ txn, task.Concerns txn → table.isWaiting txn = false

namespace Engaged

theorem moves (engaged : table.Engaged (task :: tasks)) (regular : table.Regular)
    (one : OneRequestEach table.queueOf) (move : table.Moves task done) :
    done.table.Engaged (done.next ++ tasks) := by
  intro next member txn concerns
  rcases List.mem_append.mp member with new | later
  · rcases move.concerns regular new concerns with own | served
    · exact move.idle (engaged task List.mem_cons_self txn own)
    · exact served.idle one
  · exact move.idle (engaged next (List.mem_cons_of_mem _ later) txn concerns)

theorem opens {call : Call} {stage : Stage} {closing : Journal}
    (idle : table.isWaiting txn = false) (opens : table.Opens txn call stage closing) :
    stage.table.Engaged stage.tasks := by
  intro next member other concerns
  cases opens with
  | acquireGranted | acquireQueued | promoteGranted | promoteQueued => cases member
  | exchangeGranted =>
    obtain ⟨lock, -, rfl⟩ := List.mem_map.mp member
    obtain rfl : txn = other := concerns
    rwa [isWaiting_grant]
  | exchangeQueued =>
    rw [List.mem_singleton.mp member] at concerns
    cases concerns
  | releaseStarted =>
    rw [List.mem_singleton.mp member] at concerns
    obtain rfl : txn = other := concerns
    exact idle

/-- Nothing is told of a transaction that goes on waiting. -/
theorem quiet (engaged : table.Engaged (task :: tasks)) (one : OneRequestEach table.queueOf)
    (move : table.Moves task done) (waiting : done.table.isWaiting txn = true) :
    Journal.about done.events txn = [] := by
  refine Journal.about_eq_nil_iff.mpr fun event noted tells => ?_
  rcases move.about noted tells with own | served
  · rw [move.idle (engaged task List.mem_cons_self txn own)] at waiting
    contradiction
  · rw [served.idle one] at waiting
    contradiction

end Engaged

/-- What has been told when a call opens is not about those who wait then. -/
theorem Opens.about {caller : Txn} {call : Call} {stage : Stage} {closing : Journal}
    (opens : table.Opens caller call stage closing) (idle : table.isWaiting caller = false)
    (waiting : stage.table.isWaiting txn = true) : Journal.about stage.journal txn = [] := by
  have granted (resource : Resource) (mode : Mode)
      (waiting : (table.grant ⟨resource, mode, caller⟩).isWaiting txn = true) :
      Journal.about [table.grantEvent ⟨resource, mode, caller⟩] txn = [] := by
    rw [isWaiting_grant] at waiting
    refine Journal.about_eq_nil_iff.mpr fun event member tells => ?_
    rw [List.mem_singleton.mp member, about?_grantEvent, Option.some.injEq] at tells
    obtain rfl : caller = txn := tells
    rw [idle] at waiting
    contradiction
  have queued (request : Request) (place : Place) :
      Journal.about (table.noteConflict request.lock ++ (table.wait request place).events) txn = [] := by
    simp [Journal.about_eq_nil_iff, noteConflict, wait, or_imp, forall_and, Event.about?]
  cases opens with
  | acquireGranted | exchangeGranted | promoteGranted => exact granted _ _ waiting
  | acquireQueued | exchangeQueued | promoteQueued => exact queued ⟨caller, ⟨_, _, caller⟩, _⟩ _
  | releaseStarted => rfl

/-- A transaction that gives back what it holds is told of each lock in turn. What the releases set
off does not concern it. -/
theorem settle_own_releases {request : Request} {locks : List Lock} (regular : table.Regular)
    (idle : table.isWaiting txn = false) (distinct : (locks.map Lock.resource).Nodup)
    (held : ∀ lock ∈ locks, lock ∈ table.locksHeldBy txn) :
    (table.settle (locks.map (.deferred request))).table.Regular ∧
      (table.settle (locks.map (.deferred request))).table.isWaiting txn = false ∧
        Journal.about (table.settle (locks.map (.deferred request))).events txn =
          locks.map .released := by
  induction locks generalizing table with
  | nil => exact ⟨by simpa using regular, by simpa using idle, by simp [Journal.about]⟩
  | cons lock later ih =>
    obtain ⟨ledger, books⟩ := regular.books
    obtain ⟨known, rfl⟩ := books.mem_locksHeldBy.mp (held lock List.mem_cons_self)
    obtain ⟨once, distinct⟩ := List.nodup_cons.mp distinct
    have found := books.heldLock?_of_mem known
    have shown : (table.entry lock.resource).lockOf? lock.owner = some lock := by
      rw [books.lockOf?, ← books.heldLock?, found]
    have gives : table.Moves (.release lock.owner lock.resource) _ := .gives
    have uninvolved : (table.remove lock.owner lock.resource).Uninvolved [.drain lock.resource]
        lock.owner :=
      ⟨gives.idle idle, fun task member => by simp [List.mem_singleton.mp member, Task.Concerns]⟩
    obtain ⟨regular, idle, quiet, kept⟩ := uninvolved.settle (regular.moves gives)
    obtain ⟨books, after, told⟩ := ih regular idle distinct fun other member => by
      rw [kept, mem_locksHeldBy_remove]
      refine ⟨held other (List.mem_cons_of_mem _ member), fun _ same => once ?_⟩
      exact same ▸ List.mem_map_of_mem member
    rw [List.map_cons, settle_deferred_held _ (by rw [found]; rfl), settle_release, shown]
    refine ⟨books, after, ?_⟩
    rw [Journal.about_append, Journal.about_append, quiet, told, List.append_nil]
    simp [Journal.about, Event.about?]

/-- From the grant to the wake, a request that is served has its records, and no others. -/
theorem about_span (sound : table.Sound (.drain resource :: tasks))
    {request : Request} {rest : List Request} (head : table.queueOf resource = request :: rest) :
    (table.givingBack resource request).table.Regular ∧
      (table.givingBack resource request).table.isWaiting request.owner = false ∧
        Journal.about (table.span resource request) request.owner =
          table.account resource request := by
  have filed := sound.regular.filed_head head
  have stands := sound.stands resource request (head ▸ List.mem_cons_self)
  obtain ⟨ledger, books⟩ := (sound.regular.dequeue resource).books
  have granted : ((table.dequeue resource).grant request.lock).Regular :=
    (sound.regular.dequeue resource).grant request.lock
  have idle : ((table.dequeue resource).grant request.lock).isWaiting request.owner = false :=
    LetsIn.idle ⟨resource, request, rest, head, rfl, rfl⟩ sound.one
  have distinct : (request.releases.map Lock.resource).Nodup := by
    cases stands with
    | newLock free distinct => exact distinct
    | promotion bare => simp [bare]
  have held : ∀ lock ∈ request.releases,
      lock ∈ ((table.dequeue resource).grant request.lock).locksHeldBy request.owner := by
    intro lock released
    obtain ⟨before, elsewhere⟩ := stands.of_mem released
    obtain ⟨known, mine⟩ := books.mem_locksHeldBy.mp (by rwa [locksHeldBy_dequeue])
    have other : lock.sameGrant request.lock = false := by
      rw [Bool.eq_false_iff, ne_eq, Lock.sameGrant_iff, filed.here]
      exact fun same => elsewhere same.2
    exact (books.grant request.lock).mem_locksHeldBy.mpr ⟨Ledger.mem_put_of_mem known other, mine⟩
  obtain ⟨regular, after, told⟩ := @settle_own_releases _ _ request _ granted idle distinct held
  refine ⟨regular, after, ?_⟩
  have grant : ∀ event ∈ [(table.dequeue resource).grantEvent request.lock],
      event.about? = some request.owner := by
    intro event member
    rw [List.mem_singleton.mp member, about?_grantEvent]
    rfl
  have commit : ∀ event ∈ [Event.committed request, .woken request.caller],
      event.about? = some request.owner := by
    simp [Event.about?, filed.caller]
  have split : table.span resource request = [(table.dequeue resource).grantEvent request.lock] ++
      (table.givingBack resource request).events ++ [.committed request, .woken request.caller] := rfl
  rw [split, Journal.about_append, Journal.about_append, Journal.about_eq_self grant,
    Journal.about_eq_self commit, givingBack, told]
  rfl

end Table

namespace Stage

variable {stage : Stage} {count later : Nat} {resource other : Resource} {request second : Request}

/-- A call tells of a transaction that it serves the records of the request, and nothing else. -/
theorem Serves.about (serves : (stage.after count).Serves resource request)
    (sound : stage.table.Sound stage.tasks) (engaged : stage.table.Engaged stage.tasks)
    (clear : stage.table.isWaiting request.owner = true →
      Journal.about stage.journal request.owner = []) :
    Journal.about stage.settled.events request.owner =
      (stage.after count).table.account resource request := by
  have path : stage.Leads (stage.after count) := stage.leads_after (Nat.zero_le count)
  have reached : (stage.after count).table.Sound (stage.after count).tasks ∧
      (stage.after count).table.Engaged (stage.after count).tasks ∧
      ((stage.after count).table.isWaiting request.owner = true →
        Journal.about (stage.after count).journal request.owner = []) := by
    refine path.invariant
      (motive := fun table journal tasks => table.Sound tasks ∧ table.Engaged tasks ∧
        (table.isWaiting request.owner = true → Journal.about journal request.owner = []))
      (fun before move => ?_) ⟨sound, engaged, clear⟩
    obtain ⟨sound, engaged, clear⟩ := before
    refine ⟨sound.moves move, engaged.moves sound.regular sound.one move, fun waiting => ?_⟩
    rw [Journal.about_append, clear (move.isWaiting waiting), engaged.quiet sound.one move waiting]
    rfl
  obtain ⟨sound, engaged, clear⟩ := reached
  obtain ⟨rest, queue⟩ := List.head?_eq_some_iff.mp serves.head
  obtain ⟨left, tasks⟩ := List.head?_eq_some_iff.mp serves.task
  have waiting : (stage.after count).table.isWaiting request.owner = true :=
    Table.isWaiting_iff.mpr ⟨resource, request, queue ▸ List.mem_cons_self, rfl⟩
  have unconcerned : ∀ task ∈ (stage.after count).tasks, ¬ task.Concerns request.owner := by
    intro task member concerns
    rw [engaged task member _ concerns] at waiting
    contradiction
  rw [tasks] at sound
  obtain ⟨regular, idle, records⟩ := Table.about_span sound queue
  have uninvolved : ((stage.after count).table.givingBack resource request).table.Uninvolved
      (stage.after count).tasks request.owner := ⟨idle, unconcerned⟩
  obtain ⟨-, -, quiet, -⟩ := uninvolved.settle regular
  rw [← path.settled_eq, serves.settled_eq, settled, Journal.about_append, Journal.about_append,
    clear waiting, records, quiet, List.nil_append, List.append_nil]

end Stage

namespace Sample

/-- Each of the two waits to exchange what it has for what the other one has. -/
def swap : List Turn :=
  [⟨⟨1⟩, .acquire orders .exclusive⟩, ⟨⟨2⟩, .acquire stock .exclusive⟩,
    ⟨⟨1⟩, .exchange stock .shared [orders]⟩, ⟨⟨2⟩, .exchange orders .shared [stock]⟩]

end Sample

/-- A caller that waits can cut its own records short. The second transaction gives up the stock
while it waits to exchange it, so that its exchange has no stock to release when it is served. -/
example :
    let opening : Stage := ⟨Table.empty.run Sample.swap, [], [.release ⟨2⟩ Sample.stock]⟩
    let exchange : Request := ⟨⟨2⟩, ⟨Sample.orders, .shared, ⟨2⟩⟩, [⟨Sample.stock, .exclusive, ⟨2⟩⟩]⟩
    Table.empty.Disciplined Sample.swap ∧
    (Table.empty.run Sample.swap).isWaiting ⟨2⟩ = true ∧
    (opening.after 4).Serves Sample.orders exchange ∧
    Journal.about ((opening.after 4).table.span Sample.orders exchange) ⟨2⟩ =
      [.granted ⟨Sample.orders, .shared, ⟨2⟩⟩,
        .staleRelease exchange ⟨Sample.stock, .exclusive, ⟨2⟩⟩, .committed exchange, .woken ⟨2⟩] := by
  decide +kernel

end LockManager
