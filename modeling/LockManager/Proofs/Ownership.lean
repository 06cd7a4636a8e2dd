import LockManager.Proofs.Pledges
import LockManager.Proofs.Tickets

/-! Ownership. In a disciplined run a transaction keeps a lock until it gives it up itself, by
releasing it or when an exchange of its own that names it is granted. Until then the lock stays
where it is among the others that stay, and only a promotion of its owner's changes its mode, to a
stronger one. -/
namespace LockManager

/-! ### Locks that stay -/

namespace Ledger

/-- Those of the given locks that are in the ledger, in its order. -/
def lasting (keys : List (Txn × Resource)) (ledger : Ledger) : List (Txn × Resource) :=
  (ledger.map Lock.key).filter (· ∈ keys)

variable {keys : List (Txn × Resource)} {ledger : Ledger}

theorem mem_lasting {key : Txn × Resource} :
    key ∈ lasting keys ledger ↔ key ∈ keys ∧ ∃ held ∈ ledger, held.key = key := by
  simp [lasting, and_comm]

/-- Entering a grant moves no lock that is there already. -/
theorem lasting_put {lock : Lock}
    (known : lock.key ∈ keys → ∃ held ∈ ledger, held.sameGrant lock = true) :
    lasting keys (ledger.put lock) = lasting keys ledger := by
  by_cases present : ∃ held ∈ ledger, held.sameGrant lock = true
  · obtain ⟨held, member, same⟩ := present
    have unmoved : (Lock.key ∘ fun held : Lock => if held.sameGrant lock then lock else held) =
        Lock.key := by
      funext other
      simp only [Function.comp_apply]
      split
      · next equal =>
        obtain ⟨owner, resource⟩ := Lock.sameGrant_iff.mp equal
        rw [Lock.key, Lock.key, owner, resource]
      · rfl
    rw [put_of_mem member same, lasting, List.map_map, unmoved, lasting]
  · have fresh : ∀ held ∈ ledger, held.sameGrant lock = false := by simpa using present
    rw [put_of_fresh fresh, lasting, List.map_append, List.filter_append, lasting]
    simp [mt known present]

theorem lasting_without {others : List (Txn × Resource)} (apart : ∀ key ∈ keys, key ∉ others) :
    lasting keys (ledger.without others) = lasting keys ledger := by
  rw [lasting, without, lasting, List.filter_map, List.filter_map, List.filter_filter]
  congr 1
  refine List.filter_congr fun held _ => ?_
  by_cases member : held.key ∈ keys
  · simp [member, apart held.key member]
  · simp [member]

end Ledger

namespace Table

variable {table after : Table} {keys : List (Txn × Resource)} {task : Task} {tasks : List Task}
  {done : Step}

/-- Both views show the same ones of the given locks, in the same order. -/
structure Preserves (keys : List (Txn × Resource)) (table after : Table) : Prop where
  held : ∀ txn,
    Ledger.lasting keys (after.locksHeldBy txn) = Ledger.lasting keys (table.locksHeldBy txn)
  active : ∀ resource,
    Ledger.lasting keys (after.locksOn resource) = Ledger.lasting keys (table.locksOn resource)

theorem Regular.mem_lasting (regular : table.Regular) {key : Txn × Resource} :
    key ∈ Ledger.lasting keys (table.locksHeldBy key.1) ↔
      key ∈ keys ∧ table.Holds key.1 key.2 := by
  obtain ⟨ledger, books⟩ := regular.books
  rw [Ledger.mem_lasting]
  refine and_congr_right fun _ => ⟨?_, ?_⟩
  · rintro ⟨held, mine, same⟩
    exact ⟨held, mine, congrArg Prod.snd same⟩
  · rintro ⟨held, mine, here⟩
    exact ⟨held, mine, Prod.ext (books.mem_locksHeldBy.mp mine).2 here⟩

namespace Preserves

theorem refl (keys : List (Txn × Resource)) (table : Table) : table.Preserves keys table :=
  ⟨fun _ => rfl, fun _ => rfl⟩

theorem trans {middle : Table} (first : table.Preserves keys middle)
    (second : middle.Preserves keys after) : table.Preserves keys after :=
  ⟨fun txn => (second.held txn).trans (first.held txn),
    fun resource => (second.active resource).trans (first.active resource)⟩

theorem grant (regular : table.Regular) (lock : Lock)
    (held : ∀ key ∈ keys, table.Holds key.1 key.2) : table.Preserves keys (table.grant lock) := by
  obtain ⟨ledger, books⟩ := regular.books
  have known (member : lock.key ∈ keys) : ∃ held ∈ ledger, held.sameGrant lock = true := by
    obtain ⟨mine, there, here⟩ := held lock.key member
    obtain ⟨known, owner⟩ := books.mem_locksHeldBy.mp there
    exact ⟨mine, known, Lock.sameGrant_iff.mpr ⟨owner, here⟩⟩
  constructor
  · intro txn
    rw [books.locksHeldBy_grant]
    split
    · next same =>
      refine Ledger.lasting_put fun member => ?_
      obtain ⟨mine, entered, equal⟩ := known member
      have owner := (Lock.sameGrant_iff.mp equal).1
      exact ⟨mine, books.mem_locksHeldBy.mpr ⟨entered, owner.trans same.symm⟩, equal⟩
    · rfl
  · intro resource
    rw [books.locksOn_grant]
    split
    · next same =>
      refine Ledger.lasting_put fun member => ?_
      obtain ⟨mine, entered, equal⟩ := known member
      have here := (Lock.sameGrant_iff.mp equal).2
      exact ⟨mine, books.mem_locksOn.mpr ⟨entered, here.trans same.symm⟩, equal⟩
    · rfl

theorem remove (regular : table.Regular) {txn : Txn} {resource : Resource}
    (apart : (txn, resource) ∉ keys) : table.Preserves keys (table.remove txn resource) := by
  obtain ⟨ledger, books⟩ := regular.books
  have struck := books.remove txn resource
  have apart : ∀ key ∈ keys, key ∉ [(txn, resource)] := by
    rintro key member only
    exact apart (List.mem_singleton.mp only ▸ member)
  constructor
  · intro other
    rw [struck.held, books.held, Ledger.strike_eq_without, Ledger.filter_without,
      Ledger.lasting_without apart]
  · intro other
    rw [struck.active, books.active, Ledger.strike_eq_without, Ledger.filter_without,
      Ledger.lasting_without apart]

theorem of_views (held : ∀ txn, after.locksHeldBy txn = table.locksHeldBy txn)
    (active : ∀ resource, after.locksOn resource = table.locksOn resource) :
    table.Preserves keys after :=
  ⟨fun txn => by rw [held], fun resource => by rw [active]⟩

theorem holds (preserves : table.Preserves keys after) (regular : table.Regular)
    (later : after.Regular) {key : Txn × Resource} (member : key ∈ keys)
    (held : table.Holds key.1 key.2) : after.Holds key.1 key.2 := by
  have shown := regular.mem_lasting.mpr ⟨member, held⟩
  rw [← preserves.held] at shown
  exact (later.mem_lasting.mp shown).2

end Preserves

/-- A move takes no lock away that is not to be given back. -/
theorem Moves.preserves (move : table.Moves task done) (sound : table.Sound (task :: tasks))
    (held : ∀ key ∈ keys, table.Holds key.1 key.2)
    (kept : ∀ key ∈ keys, key ∉ Task.pledges (task :: tasks)) :
    table.Preserves keys done.table := by
  cases move with
  | rests =>
    exact .of_views (fun _ => table.locksHeldBy_prune _ _) fun _ => table.locksOn_prune _ _
  | @serves resource request =>
    have taken : table.Preserves keys (table.dequeue resource) :=
      .of_views (fun _ => rfl) fun _ => table.locksOn_dequeue _ _
    exact taken.trans (.grant (sound.regular.dequeue resource) request.lock held)
  | gives => exact .remove sound.regular fun member => kept _ member List.mem_cons_self
  | defers | skips | completes => exact .refl keys table

variable {txn : Txn} {call : Call} {stage : Stage} {closing : Journal}

theorem Opens.preserves (opens : table.Opens txn call stage closing) (regular : table.Regular)
    (held : ∀ key ∈ keys, table.Holds key.1 key.2) : table.Preserves keys stage.table := by
  cases opens with
  | acquireGranted | exchangeGranted | promoteGranted => exact .grant regular _ held
  | acquireQueued | exchangeQueued | promoteQueued =>
    exact .of_views (fun _ => rfl) fun _ => table.locksOn_enqueue _ _ _
  | releaseStarted => exact .refl keys table

/-! ### Changes of mode -/

variable {owner : Txn} {resource : Resource} {before now : Lock}

theorem Regular.eq_of_grant (regular : table.Regular) {lock : Lock}
    (first : table.heldLock? owner resource = some before)
    (second : (table.grant lock).heldLock? owner resource = some now) :
    now = before ∨ now = lock ∧ lock.owner = owner ∧ lock.resource = resource := by
  obtain ⟨ledger, books⟩ := regular.books
  obtain ⟨entered, rfl, rfl⟩ := (books.grant lock).mem_of_heldLock? second
  rcases Ledger.mem_put entered with rfl | ⟨known, -⟩
  · exact .inr ⟨rfl, rfl, rfl⟩
  · rw [books.heldLock?_of_mem known, Option.some.injEq] at first
    exact .inl first

theorem Regular.replaced_of_grantEvent (regular : table.Regular) {lock held : Lock}
    {previous : Mode} (noted : table.grantEvent lock = .replaced held previous) :
    held = lock ∧ ∃ earlier, table.heldLock? lock.owner lock.resource = some earlier ∧
      earlier.mode = previous := by
  obtain ⟨ledger, books⟩ := regular.books
  rw [books.heldLock?, ← books.lockOf?]
  rw [grantEvent] at noted
  split at noted
  · cases noted
  · next earlier found =>
    cases noted
    exact ⟨rfl, earlier, found, rfl⟩

/-- A request for a lock that its owner has already wants a stronger mode. -/
theorem Sound.strengthens (sound : table.Sound tasks) {request : Request}
    (queued : request ∈ table.queueOf resource)
    (found : table.heldLock? request.owner resource = some before) :
    request.lock.mode ≠ before.mode ∧ request.lock.mode.covers before.mode = true := by
  cases sound.stands resource request queued with
  | newLock free =>
    rw [heldLock?_eq_none_iff.mpr free] at found
    contradiction
  | promotion bare held differs stronger =>
    obtain ⟨ledger, books⟩ := sound.regular.books
    have present := books.heldLock?_of_mem (books.mem_locksHeldBy.mp held).1
    rw [found, Option.some.injEq] at present
    subst present
    exact ⟨differs, stronger⟩

/-- A lock changes in a move when it is given to its owner again. -/
theorem Moves.changed (move : table.Moves task done) (sound : table.Sound (task :: tasks))
    (first : table.heldLock? owner resource = some before)
    (second : done.table.heldLock? owner resource = some now) (changed : now ≠ before) :
    ∃ request rest, task = .drain resource ∧ table.queueOf resource = request :: rest ∧
      request.lock = now ∧ request.owner = owner ∧
        done.table = (table.dequeue resource).grant request.lock := by
  cases move with
  | @serves drained request rest head fits =>
    have regular := sound.regular.dequeue drained
    obtain ⟨rfl, mine, rfl⟩ := (regular.eq_of_grant first second).resolve_left changed
    have here := (sound.regular.filed_head head).here
    subst here
    exact ⟨request, rest, rfl, head, rfl, mine, rfl⟩
  | @gives giver released =>
    obtain ⟨ledger, books⟩ := sound.regular.books
    obtain ⟨kept, rfl, rfl⟩ := (books.remove giver released).mem_of_heldLock? second
    rw [books.heldLock?_of_mem (List.mem_filter.mp kept).1, Option.some.injEq] at first
    exact absurd first changed
  | rests =>
    rw [heldLock?, locksHeldBy_prune, ← heldLock?, first, Option.some.injEq] at second
    exact absurd second.symm changed
  | defers | skips | completes =>
    rw [first, Option.some.injEq] at second
    exact absurd second.symm changed

theorem Opens.changed (opens : table.Opens txn call stage closing) (regular : table.Regular)
    (first : table.heldLock? owner resource = some before)
    (second : stage.table.heldLock? owner resource = some now) (changed : now ≠ before) :
    call = .promote resource now.mode ∧ txn = owner ∧ now.mode ≠ before.mode ∧
      now.mode.covers before.mode = true := by
  cases opens with
  | acquireGranted free | exchangeGranted free =>
    obtain ⟨rfl, rfl, rfl⟩ := (regular.eq_of_grant first second).resolve_left changed
    rw [free] at first
    contradiction
  | promoteGranted held differs stronger =>
    obtain ⟨rfl, rfl, rfl⟩ := (regular.eq_of_grant first second).resolve_left changed
    rw [held, Option.some.injEq] at first
    subst first
    exact ⟨rfl, rfl, differs.symm, stronger⟩
  | acquireQueued | exchangeQueued | promoteQueued | releaseStarted =>
    have same : table.heldLock? owner resource = some now := second
    rw [first, Option.some.injEq] at same
    exact absurd same.symm changed

/-! ### What the journal tells of changes -/

variable {lock : Lock} {previous : Mode}

theorem Opens.strengthens (opens : table.Opens txn call stage closing) (regular : table.Regular)
    (noted : .replaced lock previous ∈ stage.journal ++ closing) :
    lock.mode ≠ previous ∧ lock.mode.covers previous = true := by
  cases opens with
  | acquireGranted free | exchangeGranted free =>
    simp only [List.append_nil, List.mem_singleton] at noted
    obtain ⟨rfl, earlier, found, -⟩ := regular.replaced_of_grantEvent noted.symm
    rw [free] at found
    contradiction
  | promoteGranted held differs stronger =>
    simp only [List.append_nil, List.mem_singleton] at noted
    obtain ⟨rfl, earlier, found, rfl⟩ := regular.replaced_of_grantEvent noted.symm
    rw [held, Option.some.injEq] at found
    subst found
    exact ⟨differs.symm, stronger⟩
  | acquireQueued | exchangeQueued | promoteQueued => simp [noteConflict, wait] at noted
  | releaseStarted => simp at noted

theorem Moves.strengthens (move : table.Moves task done) (sound : table.Sound (task :: tasks))
    (noted : .replaced lock previous ∈ done.events) :
    lock.mode ≠ previous ∧ lock.mode.covers previous = true := by
  cases move with
  | rests blocked conflicts =>
    obtain ⟨mode, held, same⟩ := conflicts _ noted
    cases same
  | @serves resource request rest head fits =>
    have regular := sound.regular.dequeue resource
    obtain ⟨rfl, earlier, found, rfl⟩ :=
      regular.replaced_of_grantEvent (List.mem_singleton.mp noted).symm
    have here := (sound.regular.filed_head head).here
    subst here
    exact sound.strengthens (head ▸ List.mem_cons_self) found
  | gives => simp at noted
  | defers => cases noted
  | skips | completes => simp at noted

end Table

/-! ### Steps of disciplined runs -/

namespace Turn

variable {turn : Turn} {lock : Lock}

/-- A turn that asks for a lock and gives others up is an exchange. -/
theorem eq_exchange {name : Resource} (asked : turn.wanted? = some lock)
    (named : name ∈ turn.call.gives) :
    ∃ names, turn = ⟨lock.owner, .exchange lock.resource lock.mode names⟩ ∧ name ∈ names := by
  obtain ⟨txn, call⟩ := turn
  cases call with
  | exchange wanted mode names =>
    cases asked
    exact ⟨names, rfl, named⟩
  | acquire | promote => cases named
  | release => cases asked

theorem eq_promote {resource : Resource} {mode : Mode} (asked : turn.wanted? = some lock)
    (promotes : turn.call = .promote resource mode) :
    turn = ⟨lock.owner, .promote lock.resource lock.mode⟩ := by
  obtain ⟨txn, call⟩ := turn
  cases promotes
  cases asked
  rfl

end Turn

namespace Register

theorem issued_follow (register : Register) {before after : Table} {task : Task} :
    (register.follow before after task).issued = register.issued := by
  cases task with
  | drain resource =>
    rw [follow]
    split <;> rfl
  | release | deferred | commit => rfl

theorem mem_line_follow (register : Register) {before after : Table} {task : Task}
    {resource : Resource} {ticket : Ticket}
    (waits : ticket ∈ (register.follow before after task).line resource) :
    ticket ∈ register.line resource := by
  cases task with
  | drain drained =>
    rw [follow] at waits
    split at waits
    · exact waits
    · rw [line_callUp] at waits
      split at waits
      · exact List.mem_of_mem_tail waits
      · exact waits
  | release | deferred | commit => exact waits

end Register

namespace Moment

/-- A step of a disciplined run, and the turn it opens if it opens one. -/
inductive Acts : Moment → Option Turn → Moment → Prop
  /-- Once the call before has come to its end, a transaction that is not waiting may call. -/
  | call {table : Table} {register : Register} {turn : Turn} {stage : Stage} {closing : Journal}
      (idle : table.isWaiting turn.txn = false)
      (opens : table.Opens turn.txn turn.call stage closing) :
      Acts ⟨table, [], register⟩ (some turn)
        ⟨stage.table, stage.tasks, stage.journal.foldl (Register.note turn) register⟩
  /-- The first task is done. -/
  | task (table : Table) (task : Task) (later : List Task) (register : Register) :
      Acts ⟨table, task :: later, register⟩ none
        ⟨(table.step task).table, (table.step task).next ++ later,
          register.follow table (table.step task).table task⟩

inductive Reached : Moment → Prop
  | start : Reached start
  | step {now next : Moment} {opened : Option Turn} (reached : Reached now)
      (acts : now.Acts opened next) : Reached next

/-- The turn is granted the lock it asked for. -/
inductive Grants (now : Moment) : Option Turn → Moment → Turn → Prop
  | atOnce {next : Moment} {turn : Turn} {lock : Lock} (asked : turn.wanted? = some lock)
      (got : next.table.heldLock? turn.txn lock.resource = some lock) :
      Grants now (some turn) next turn
  | fromQueue {next : Moment} {ticket : Ticket}
      (called : next.register.called = now.register.called ++ [ticket]) :
      Grants now none next ticket.turn

/-- The transaction gives up its lock on the resource: it calls for the release, or is granted an
exchange that names the resource. -/
inductive GivesUp (now : Moment) (opened : Option Turn) (next : Moment) : Txn × Resource → Prop
  | release {txn : Txn} {resource : Resource} (call : opened = some ⟨txn, .release resource⟩) :
      GivesUp now opened next (txn, resource)
  | exchange {txn : Txn} {wanted resource : Resource} {mode : Mode} {names : List Resource}
      (granted : now.Grants opened next ⟨txn, .exchange wanted mode names⟩)
      (named : resource ∈ names) : GivesUp now opened next (txn, resource)

/-- The lock was granted once, and its owner has not given it up since. -/
inductive Owned (key : Txn × Resource) : Moment → Prop
  | granted {now next : Moment} {opened : Option Turn} (reached : now.Reached)
      (acts : now.Acts opened next) (free : ¬ now.table.Holds key.1 key.2)
      (held : next.table.Holds key.1 key.2) : Owned key next
  | kept {now next : Moment} {opened : Option Turn} (owned : Owned key now)
      (acts : now.Acts opened next) (stays : ¬ now.GivesUp opened next key) : Owned key next

/-- A step in which none of these locks is given up. -/
def Spares (keys : List (Txn × Resource)) (now next : Moment) : Prop :=
  ∃ opened, now.Acts opened next ∧ ∀ key ∈ keys, ¬ now.GivesUp opened next key

/-- What holds at every moment of a disciplined run. -/
structure Orderly (now : Moment) : Prop where
  sound : now.table.Sound now.tasks
  tracks : now.Tracks
  /-- A ticket's request gives back what its turn named. -/
  named : ∀ ticket ∈ now.register.issued,
    ticket.request.releases.map Lock.resource = ticket.turn.call.gives
  /-- Only a promotion waits for a resource that its transaction has a lock on. -/
  promotes : ∀ resource, ∀ ticket ∈ now.register.line resource,
    now.table.Holds ticket.turn.txn resource → ∃ mode, ticket.turn.call = .promote resource mode

variable {now next later : Moment} {opened : Option Turn} {turn : Turn} {key : Txn × Resource}
  {keys : List (Txn × Resource)} {table : Table} {register : Register}

theorem Acts.step (acts : now.Acts opened next) : now.Next next := by
  cases acts with
  | call idle opens => exact .opens opens
  | task table task later register => exact .task table task later register

/-- What an opening adds to the register: nothing, or the ticket of a request that is now in line,
and that is for a lock its transaction has only if it is promoted. -/
theorem note_opens {stage : Stage} {closing : Journal}
    (opens : table.Opens turn.txn turn.call stage closing) (register : Register) :
    stage.journal.foldl (Register.note turn) register = register ∨
      ∃ request place, request.releases.map Lock.resource = turn.call.gives ∧
        (stage.table.Holds turn.txn request.lock.resource →
          ∃ mode, turn.call = .promote request.lock.resource mode) ∧
        stage.journal.foldl (Register.note turn) register =
          register.join turn request place := by
  obtain ⟨txn, call⟩ := turn
  cases opens with
  | acquireGranted | exchangeGranted | promoteGranted =>
    exact .inl (Register.note_grant _ register table _)
  | @acquireQueued resource mode free =>
    exact .inr ⟨⟨txn, ⟨resource, mode, txn⟩, []⟩, .back, rfl,
      fun held => absurd held (Table.heldLock?_eq_none_iff.mp free),
      Register.note_wait _ register table ⟨txn, ⟨_, _, txn⟩, _⟩ _⟩
  | @exchangeQueued resource mode names locks free listed =>
    exact .inr ⟨⟨txn, ⟨resource, mode, txn⟩, locks⟩, .front, (Table.locksToRelease_ok listed).1,
      fun held => absurd held (Table.heldLock?_eq_none_iff.mp free),
      Register.note_wait _ register table ⟨txn, ⟨_, _, txn⟩, _⟩ _⟩
  | @promoteQueued resource mode =>
    exact .inr ⟨⟨txn, ⟨resource, mode, txn⟩, []⟩, .front, rfl, fun _ => ⟨mode, rfl⟩,
      Register.note_wait _ register table ⟨txn, ⟨_, _, txn⟩, _⟩ _⟩
  | releaseStarted => exact .inl rfl

/-- A promotion gives nothing up. -/
theorem not_givesUp_promote {txn : Txn} {resource : Resource} {mode : Mode} :
    ¬ now.GivesUp (some ⟨txn, .promote resource mode⟩) next key := by
  intro given
  cases given with
  | release call => cases call
  | exchange granted => cases granted

namespace Orderly

theorem start : start.Orderly where
  sound := .empty
  tracks := .start
  named _ issued := by cases issued
  promotes _ _ waits := by cases waits

/-- Whoever has a ticket in line is waiting. -/
theorem waiting (tracks : now.Tracks) {resource : Resource} {ticket : Ticket}
    (waits : ticket ∈ now.register.line resource) :
    now.table.isWaiting ticket.turn.txn = true := by
  have issued := (tracks.kept.mem_line.mp waits).1
  have queued : ticket.request ∈ now.table.queueOf resource := by
    rw [tracks.shown]
    exact List.mem_map_of_mem waits
  exact Table.isWaiting_iff.mpr
    ⟨resource, ticket.request, queued, Turn.owner_of_wanted? (tracks.asked ticket issued)⟩

theorem call {stage : Stage} {closing : Journal} (orderly : Orderly ⟨table, [], register⟩)
    (idle : table.isWaiting turn.txn = false)
    (opens : table.Opens turn.txn turn.call stage closing)
    (tracks : Tracks
      ⟨stage.table, stage.tasks, stage.journal.foldl (Register.note turn) register⟩) :
    Orderly ⟨stage.table, stage.tasks, stage.journal.foldl (Register.note turn) register⟩ := by
  -- Those who have a ticket already are waiting, so the call is not theirs.
  have earlier : ∀ resource, ∀ ticket ∈ register.line resource,
      stage.table.Holds ticket.turn.txn resource →
        ∃ mode, ticket.turn.call = .promote resource mode := by
    intro resource ticket waits held
    have waiting := waiting orderly.tracks waits
    have other : ticket.turn.txn ≠ turn.txn := by
      rintro same
      rw [same, idle] at waiting
      contradiction
    rw [Table.Holds, opens.locksHeldBy_of_ne other] at held
    exact orderly.promotes resource ticket waits held
  have named := orderly.named
  have sound := orderly.sound.opens idle opens
  rcases note_opens opens register with same | ⟨request, place, gives, promotes, joined⟩
  · rw [same] at tracks ⊢
    exact ⟨sound, tracks, named, earlier⟩
  · rw [joined] at tracks ⊢
    refine ⟨sound, tracks, fun ticket issued => ?_, fun resource ticket waits held => ?_⟩
    · rcases List.mem_append.mp issued with old | new
      · exact named ticket old
      · rw [List.mem_singleton.mp new]
        exact gives
    · obtain ⟨issued, here, uncalled⟩ := tracks.kept.mem_line.mp waits
      rcases List.mem_append.mp issued with old | new
      · exact earlier resource ticket
          (orderly.tracks.kept.mem_line.mpr ⟨old, here, uncalled⟩) held
      · obtain rfl := List.mem_singleton.mp new
        subst here
        exact promotes held

theorem task {task : Task} {tasks : List Task} {done : Step}
    (orderly : Orderly ⟨table, task :: tasks, register⟩) (move : table.Moves task done)
    (tracks : Tracks ⟨done.table, done.next ++ tasks, register.follow table done.table task⟩) :
    Orderly ⟨done.table, done.next ++ tasks, register.follow table done.table task⟩ where
  sound := orderly.sound.moves move
  tracks := tracks
  named ticket issued := orderly.named ticket (register.issued_follow ▸ issued)
  promotes resource ticket waits held := by
    have waiting := waiting tracks waits
    rw [Table.Holds, orderly.sound.locksHeldBy_of_waiting move waiting] at held
    exact orderly.promotes resource ticket (register.mem_line_follow waits) held

theorem acts (orderly : now.Orderly) (acts : now.Acts opened next) : next.Orderly := by
  have tracks := orderly.tracks.step acts.step
  cases acts with
  | call idle opens => exact orderly.call idle opens tracks
  | task table task => exact orderly.task (table.moves_step task) tracks

theorem reached (reached : now.Reached) : now.Orderly := by
  induction reached with
  | start => exact start
  | step _ acts ih => exact ih.acts acts

/-! ### What a step does to a lock -/

/-- Whoever is served had the first ticket in line, and that turn is granted. -/
theorem grants_first {resource : Resource} {tasks : List Task} {request : Request} {rest : List Request}
    {after : Table} (orderly : Orderly ⟨table, tasks, register⟩)
    (head : table.queueOf resource = request :: rest)
    (served : after = (table.dequeue resource).grant request.lock) :
    ∃ ticket ∈ register.line resource, ticket.request = request ∧ ∀ later,
      Grants ⟨table, tasks, register⟩ none
        ⟨after, later, register.follow table after (.drain resource)⟩ ticket.turn := by
  have shown := orderly.tracks.shown resource
  rw [head] at shown
  obtain ⟨ticket, others, first, same, -⟩ := List.map_eq_cons_iff.mp shown.symm
  have taken : after.queueOf resource ≠ table.queueOf resource := by
    rw [served, Table.queueOf_grant, Table.queueOf_dequeue, if_pos rfl, head, List.tail_cons]
    exact (List.cons_ne_self _ _).symm
  refine ⟨ticket, first ▸ List.mem_cons_self, same, fun later => .fromQueue ?_⟩
  rw [Register.follow, if_neg taken, Register.callUp_of_line first]

/-- What is to be given back after a step was held before it. Either it was to be given back
before, or its owner gives it up in this step. -/
theorem pledge (orderly : now.Orderly) (acts : now.Acts opened next)
    (pledged : key ∈ Task.pledges next.tasks) :
    now.table.Holds key.1 key.2 ∧
      (key ∈ Task.pledges now.tasks ∨ now.GivesUp opened next key) := by
  cases acts with
  | @call table register turn stage closing idle opens =>
    obtain ⟨txn, call⟩ := turn
    obtain ⟨task, member, pledge⟩ := List.mem_filterMap.mp pledged
    cases opens with
    | acquireGranted | acquireQueued | promoteGranted | promoteQueued => cases member
    | exchangeQueued =>
      rw [List.mem_singleton.mp member] at pledge
      cases pledge
    | @releaseStarted resource held =>
      rw [List.mem_singleton.mp member] at pledge
      cases pledge
      exact ⟨Table.isSome_heldLock?_iff.mp held, .inr (.release rfl)⟩
    | @exchangeGranted resource mode names locks free listed =>
      obtain ⟨lock, released, rfl⟩ := List.mem_map.mp member
      cases pledge
      obtain ⟨named, held⟩ := Table.locksToRelease_ok listed
      obtain ⟨ledger, books⟩ := orderly.sound.regular.books
      refine ⟨⟨lock, held lock released, rfl⟩, .inr (.exchange (.atOnce rfl ?_) ?_)⟩
      · exact (books.grant _).heldLock?_of_mem (Ledger.lock_mem_put ledger _)
      · rw [← named]
        exact List.mem_map_of_mem released
  | task table task tasks register =>
    rcases (table.moves_step task).mem_pledges pledged with
      earlier | ⟨resource, request, rest, rfl, head, new, served⟩
    · exact ⟨orderly.sound.backed key earlier, .inl earlier⟩
    · obtain ⟨lock, released, rfl⟩ := List.mem_map.mp new
      have stands := orderly.sound.stands resource request (head ▸ List.mem_cons_self)
      have mine : lock.owner = request.owner :=
        (orderly.sound.regular.filed_head head).own lock released
      obtain ⟨ticket, waits, rfl, granted⟩ := orderly.grants_first head served
      have issued := (orderly.tracks.kept.mem_line.mp waits).1
      have named : lock.resource ∈ ticket.turn.call.gives := by
        rw [← orderly.named ticket issued]
        exact List.mem_map_of_mem released
      obtain ⟨names, exchange, named⟩ :=
        Turn.eq_exchange (orderly.tracks.asked ticket issued) named
      rw [exchange] at granted
      have held := (stands.of_mem released).1
      rw [← mine] at held
      refine ⟨⟨lock, held, rfl⟩, .inr ?_⟩
      rw [Lock.key, mine]
      exact .exchange (granted _) named

theorem preserves (orderly : now.Orderly) (acts : now.Acts opened next)
    (held : ∀ key ∈ keys, now.table.Holds key.1 key.2)
    (kept : ∀ key ∈ keys, key ∉ Task.pledges now.tasks) : now.table.Preserves keys next.table := by
  cases acts with
  | call idle opens => exact opens.preserves orderly.sound.regular held
  | task table task => exact (table.moves_step task).preserves orderly.sound held kept

/-- A lock changes when a promotion of its owner's is granted. -/
theorem changed {txn : Txn} {resource : Resource} {before after : Lock} (orderly : now.Orderly)
    (acts : now.Acts opened next) (first : now.table.heldLock? txn resource = some before)
    (second : next.table.heldLock? txn resource = some after) (changed : after ≠ before) :
    now.Grants opened next ⟨txn, .promote resource after.mode⟩ ∧ after.mode ≠ before.mode ∧
      after.mode.covers before.mode = true := by
  cases acts with
  | @call table register turn stage closing idle opens =>
    obtain ⟨caller, call⟩ := turn
    obtain ⟨rfl, rfl, stronger⟩ := opens.changed orderly.sound.regular first second changed
    obtain ⟨ledger, books⟩ := (orderly.sound.regular.opens opens).books
    obtain ⟨-, rfl, rfl⟩ := books.mem_of_heldLock? second
    exact ⟨.atOnce rfl second, stronger⟩
  | task table task tasks register =>
    obtain ⟨request, rest, rfl, head, rfl, rfl, served⟩ :=
      (table.moves_step task).changed orderly.sound first second changed
    have queued : request ∈ table.queueOf resource := head ▸ List.mem_cons_self
    obtain ⟨ticket, waits, rfl, granted⟩ := orderly.grants_first head served
    obtain ⟨issued, rfl, -⟩ := orderly.tracks.kept.mem_line.mp waits
    have asked := orderly.tracks.asked ticket issued
    have holds : table.Holds ticket.turn.txn ticket.resource := by
      rw [← Turn.owner_of_wanted? asked]
      exact Table.isSome_heldLock?_iff.mp (Option.isSome_of_eq_some first)
    obtain ⟨mode, promotes⟩ := orderly.promotes _ ticket waits holds
    have granted := granted ((table.step (.drain ticket.resource)).next ++ tasks)
    rw [Turn.eq_promote asked promotes] at granted
    exact ⟨granted, orderly.sound.strengthens queued first⟩

end Orderly

/-! ### What a run does to a lock -/

theorem Owned.reached (owned : Owned key now) : now.Reached := by
  induction owned with
  | granted reached acts => exact reached.step acts
  | kept _ acts _ ih => exact ih.step acts

/-- An owned lock is held, and nobody is about to give it back. -/
theorem Owned.holds (owned : Owned key now) :
    now.table.Holds key.1 key.2 ∧ key ∉ Task.pledges now.tasks := by
  induction owned with
  | granted reached acts free held =>
    exact ⟨held, fun pledged => free ((Orderly.reached reached).pledge acts pledged).1⟩
  | @kept now next opened owned acts stays ih =>
    have orderly := Orderly.reached owned.reached
    have preserves : now.table.Preserves [key] next.table :=
      orderly.preserves acts (by simpa using ih.1) (by simpa using ih.2)
    refine ⟨?_, fun pledged => ?_⟩
    · exact preserves.holds orderly.sound.regular (orderly.acts acts).sound.regular
        (List.mem_singleton.mpr rfl) ih.1
    · exact (orderly.pledge acts pledged).2.elim ih.2 stays

/-- Locks that nobody gives up stay, and stay in order. -/
theorem Reached.preserves (reached : now.Reached) (owned : ∀ key ∈ keys, Owned key now)
    (path : Relation.ReflTransGen (Spares keys) now later) :
    now.table.Preserves keys later.table := by
  have all : later.Reached ∧ (∀ key ∈ keys, Owned key later) ∧
      now.table.Preserves keys later.table := by
    induction path with
    | refl => exact ⟨reached, owned, .refl keys now.table⟩
    | tail _ last ih =>
      obtain ⟨opened, acts, spared⟩ := last
      obtain ⟨reached, owned, preserves⟩ := ih
      refine ⟨reached.step acts, fun key member => (owned key member).kept acts (spared key member),
        preserves.trans ((Orderly.reached reached).preserves acts ?_ ?_)⟩
      · exact fun key member => (owned key member).holds.1
      · exact fun key member => (owned key member).holds.2
  exact all.2.2

theorem Reached.stage {stage now : Stage} (path : stage.Leads now) {register : Register}
    (reached : Reached ⟨stage.table, stage.tasks, register⟩) :
    ∃ kept, Reached ⟨now.table, now.tasks, kept⟩ := by
  induction path with
  | refl => exact ⟨register, reached⟩
  | tail _ last ih =>
    obtain ⟨kept, reached⟩ := ih
    cases last with
    | task table journal task later => exact ⟨_, reached.step (.task table task later kept)⟩

/-- Every disciplined run has its moments. -/
theorem reached_run {turns : List Turn} (disciplined : Table.empty.Disciplined turns) :
    ∃ register, Reached ⟨Table.empty.run turns, [], register⟩ := by
  refine Table.disciplined_invariant
    (motive := fun table => ∃ register, Reached ⟨table, [], register⟩)
    (fun table turn ⟨register, before⟩ idle => ?_) ⟨{}, .start⟩ disciplined
  refine Table.take_cases
    (motive := fun after => ∃ register, Reached ⟨after.table, [], register⟩) table turn
    ⟨register, before⟩ fun stage _ opens => ?_
  exact (before.step (.call idle opens)).stage stage.leads_settled

end Moment

theorem Table.Sound.strengthens_journal {turns : List Turn}
    (disciplined : Table.empty.Disciplined turns) {lock : Lock} {previous : Mode}
    (noted : .replaced lock previous ∈ Table.empty.journal turns) :
    lock.mode ≠ previous ∧ lock.mode.covers previous = true := by
  refine Table.Sound.empty.journal_all (motive := fun event => ∀ lock previous,
      event = .replaced lock previous → lock.mode ≠ previous ∧ lock.mode.covers previous = true)
    (fun sound opens event member lock previous same => ?_)
    (fun sound move event member lock previous same => ?_) disciplined _ noted lock previous rfl
  · exact opens.strengthens sound.regular (same ▸ member)
  · exact move.strengthens sound (same ▸ member)

/-- In disciplined runs a lock stays with its owner until the owner gives it up. Until then it
keeps its place among the others that stay, in both views. Its mode changes with a granted
promotion of its owner's only, to a stronger one, as the journal tells as well. -/
theorem ownership_is_stable :
    (∀ turns, Table.empty.Disciplined turns →
      (∃ register, Moment.Reached ⟨Table.empty.run turns, [], register⟩) ∧
      ∀ lock previous, .replaced lock previous ∈ Table.empty.journal turns →
        lock.mode ≠ previous ∧ lock.mode.covers previous = true) ∧
    ∀ now, Moment.Reached now →
      (∀ key, Moment.Owned key now → now.table.Holds key.1 key.2) ∧
      (∀ keys later, (∀ key ∈ keys, Moment.Owned key now) →
        Relation.ReflTransGen (Moment.Spares keys) now later →
          now.table.Preserves keys later.table) ∧
      ∀ opened next, now.Acts opened next → ∀ txn resource before after,
        now.table.heldLock? txn resource = some before →
          next.table.heldLock? txn resource = some after → after ≠ before →
            now.Grants opened next ⟨txn, .promote resource after.mode⟩ ∧
              after.mode ≠ before.mode ∧ after.mode.covers before.mode = true := by
  constructor
  · intro turns disciplined
    exact ⟨Moment.reached_run disciplined,
      fun _ _ noted => Table.Sound.strengthens_journal disciplined noted⟩
  · intro now reached
    refine ⟨fun key owned => owned.holds.1, fun keys later owned path => ?_, ?_⟩
    · exact reached.preserves owned path
    · exact fun _ _ acts _ _ _ _ first second changed =>
        (Moment.Orderly.reached reached).changed acts first second changed

/-- A shared lock is granted, and stays its owner's while a promotion makes it exclusive. -/
theorem promotion_of_owned :
    let key := (⟨1⟩, Sample.stock)
    let promote : Turn := ⟨⟨1⟩, .promote Sample.stock .exclusive⟩
    ∃ now next, Moment.Owned key now ∧ now.Acts (some promote) next ∧
      now.Grants (some promote) next promote ∧ now.table.Preserves [key] next.table ∧
      next.table.Holds key.1 key.2 := by
  intro key promote
  let shared : Lock := ⟨Sample.stock, .shared, ⟨1⟩⟩
  let exclusive : Lock := ⟨Sample.stock, .exclusive, ⟨1⟩⟩
  let table := Table.empty.grant shared
  let register :=
    [Table.empty.grantEvent shared].foldl (Register.note ⟨⟨1⟩, .acquire Sample.stock .shared⟩) {}
  let now : Moment := ⟨table, [], register⟩
  let next : Moment :=
    ⟨table.grant exclusive, [], [table.grantEvent exclusive].foldl (Register.note promote) register⟩
  have acquires : Table.empty.Opens ⟨1⟩ (.acquire Sample.stock .shared)
      ⟨table, [Table.empty.grantEvent shared], []⟩ [] :=
    .acquireGranted (by decide +kernel) (by decide +kernel)
  have found : table.heldLock? ⟨1⟩ Sample.stock = some shared := by
    decide +kernel
  have promotes : table.Opens ⟨1⟩ (.promote Sample.stock .exclusive)
      ⟨table.grant exclusive, [table.grantEvent exclusive], []⟩ [] :=
    .promoteGranted found (by decide) (by decide) (by decide +kernel)
  have idle : Table.empty.isWaiting ⟨1⟩ = false ∧ table.isWaiting ⟨1⟩ = false := by
    decide +kernel
  have first : Moment.start.Acts (some ⟨⟨1⟩, .acquire Sample.stock .shared⟩) now :=
    @Moment.Acts.call _ {} ⟨⟨1⟩, _⟩ _ _ idle.1 acquires
  have second : now.Acts (some promote) next :=
    @Moment.Acts.call _ register promote _ _ idle.2 promotes
  have free : ¬ Table.empty.Holds ⟨1⟩ Sample.stock :=
    Table.heldLock?_eq_none_iff.mp (by decide +kernel)
  have held : table.Holds ⟨1⟩ Sample.stock :=
    Table.isSome_heldLock?_iff.mp (Option.isSome_of_eq_some found)
  have owned : Moment.Owned key now := .granted .start first free held
  have stays : ¬ now.GivesUp (some promote) next key := Moment.not_givesUp_promote
  obtain ⟨-, preserves, grants⟩ := ownership_is_stable.2 now owned.reached
  have holds := (ownership_is_stable.2 next (owned.kept second stays).reached).1 key
    (owned.kept second stays)
  have granted := grants _ next second ⟨1⟩ Sample.stock shared exclusive found
    (by decide +kernel) (by decide)
  have path : Relation.ReflTransGen (Moment.Spares [key]) now next :=
    .single ⟨_, second, fun other member => List.mem_singleton.mp member ▸ stays⟩
  have places := preserves [key] next (fun other member => List.mem_singleton.mp member ▸ owned) path
  exact ⟨now, next, owned, second, granted.1, places, holds⟩

/-- A promotion leaves the lock where it stands. -/
example : (Table.empty.run [⟨⟨1⟩, .acquire Sample.stock .shared⟩,
    ⟨⟨1⟩, .acquire Sample.orders .shared⟩, ⟨⟨1⟩, .promote Sample.stock .exclusive⟩]).locksHeldBy ⟨1⟩ =
      [⟨Sample.stock, .exclusive, ⟨1⟩⟩, ⟨Sample.orders, .shared, ⟨1⟩⟩] := by decide +kernel

end LockManager
