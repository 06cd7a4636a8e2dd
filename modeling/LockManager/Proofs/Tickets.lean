import Mathlib.Data.List.Nodup
import LockManager.Proofs.Exclusion

/-! The discipline of the queues over whole runs. Each request that joins a queue draws a ticket,
numbered in the order of submission, and the tickets move as their requests do. At every moment the
tickets still waiting determine the queues, and a ticket is called up from the head of its line, at
the moment its lock is granted. -/
namespace LockManager

/-- Promotions and exchanges go ahead of plain acquires. -/
def Call.urgent : Call → Bool
  | .exchange _ _ _ | .promote _ _ => true
  | .acquire _ _ | .release _ => false

/-- The lock that the turn asks for. -/
def Turn.wanted? (turn : Turn) : Option Lock :=
  match turn.call with
  | .acquire resource mode | .exchange resource mode _ | .promote resource mode =>
      some ⟨resource, mode, turn.txn⟩
  | .release _ => none

theorem Turn.owner_of_wanted? {turn : Turn} {lock : Lock} (wanted : turn.wanted? = some lock) :
    lock.owner = turn.txn := by
  unfold wanted? at wanted
  split at wanted <;> cases wanted <;> rfl

/-- A request that joined a queue, and the turn it was submitted in. -/
structure Ticket where
  number : Nat
  turn : Turn
  request : Request
  deriving DecidableEq

namespace Ticket

def urgent (ticket : Ticket) : Bool := ticket.turn.call.urgent

def resource (ticket : Ticket) : Resource := ticket.request.lock.resource

/-- For tickets in order of submission: the urgent ones in reverse order, then the others. -/
def ranked (tickets : List Ticket) : List Ticket :=
  (tickets.filter urgent).reverse ++ tickets.filter fun ticket => !ticket.urgent

theorem ranked_concat (tickets : List Ticket) (ticket : Ticket) :
    ranked (tickets ++ [ticket]) =
      if ticket.urgent then ticket :: ranked tickets else ranked tickets ++ [ticket] := by
  cases urgent : ticket.urgent <;> simp [ranked, urgent]

theorem ranked_filter (keep : Ticket → Bool) (tickets : List Ticket) :
    ranked (tickets.filter keep) = (ranked tickets).filter keep := by
  simp only [ranked, List.filter_append, List.filter_reverse, List.filter_filter, Bool.and_comm]

theorem ranked_perm (tickets : List Ticket) : (ranked tickets).Perm tickets :=
  ((List.reverse_perm _).append_right _).trans (List.filter_append_perm urgent tickets)

end Ticket

/-- The tickets of a run: all that were issued, those called up, each in order, and the line of
tickets in front of each resource. -/
structure Register where
  issued : List Ticket := []
  called : List Ticket := []
  line : Resource → List Ticket := fun _ => []

namespace Register

/-- The tickets for a resource that were not called up yet, in order of submission. -/
def waiting (register : Register) (resource : Resource) : List Ticket :=
  register.issued.filter fun ticket => ticket.resource = resource ∧ ticket ∉ register.called

/-- A request joins the line of its resource with the next ticket. -/
def join (register : Register) (turn : Turn) (request : Request) (place : Place) : Register :=
  let ticket : Ticket := ⟨register.issued.length, turn, request⟩
  { register with
    issued := register.issued ++ [ticket]
    line := fun resource =>
      if resource = request.lock.resource then
        match place with
        | .front => ticket :: register.line resource
        | .back => register.line resource ++ [ticket]
      else register.line resource }

/-- The first ticket in line is called up. -/
def callUp (register : Register) (resource : Resource) : Register :=
  { register with
    called := register.called ++ (register.line resource).head?.toList
    line := fun other =>
      if other = resource then (register.line other).tail else register.line other }

theorem line_join_sublist (register : Register) (turn : Turn) (request : Request) (place : Place)
    (resource : Resource) :
    (register.line resource).Sublist ((register.join turn request place).line resource) := by
  rw [join]
  by_cases here : resource = request.lock.resource
  · cases place <;> simp [here]
  · simp [here]

theorem line_callUp (register : Register) (resource other : Resource) :
    (register.callUp resource).line other =
      if other = resource then (register.line other).tail else register.line other := rfl

theorem callUp_of_line {register : Register} {resource : Resource} {ticket : Ticket}
    {rest : List Ticket} (first : register.line resource = ticket :: rest) :
    (register.callUp resource).called = register.called ++ [ticket] := by
  rw [callUp, first]
  rfl

/-- The journal of a turn tells which request has joined a queue, and where. -/
def note (turn : Turn) (register : Register) : Event → Register
  | .queued request place _ => register.join turn request place
  | _ => register

/-- A ticket is called up when a look at the queue has changed it. -/
def follow (register : Register) (before after : Table) : Task → Register
  | .drain resource =>
      if after.queueOf resource = before.queueOf resource then register
      else register.callUp resource
  | .release _ _ | .deferred _ _ | .commit _ => register

end Register

/-- A moment of a run: the table, the tasks left of the call under way, and the register. -/
structure Moment where
  table : Table
  tasks : List Task
  register : Register

namespace Moment

def start : Moment := ⟨.empty, [], {}⟩

inductive Next : Moment → Moment → Prop
  /-- A call opens when the one before has come to its end. -/
  | opens {table : Table} {register : Register} {turn : Turn} {stage : Stage} {closing : Journal}
      (opens : table.Opens turn.txn turn.call stage closing) :
      Next ⟨table, [], register⟩
        ⟨stage.table, stage.tasks, stage.journal.foldl (Register.note turn) register⟩
  /-- The first task is done. -/
  | task (table : Table) (task : Task) (later : List Task) (register : Register) :
      Next ⟨table, task :: later, register⟩
        ⟨(table.step task).table, (table.step task).next ++ later,
          register.follow table (table.step task).table task⟩

abbrev Leads : Moment → Moment → Prop := Relation.ReflTransGen Next

/-- Every stage of a call has its moments. -/
theorem leads_of_stage {stage now : Stage} (path : stage.Leads now) (register : Register) :
    ∃ kept, Leads ⟨stage.table, stage.tasks, register⟩ ⟨now.table, now.tasks, kept⟩ := by
  induction path with
  | refl => exact ⟨register, .refl⟩
  | tail _ last ih =>
    obtain ⟨kept, reached⟩ := ih
    cases last with
    | task table journal task later => exact ⟨_, reached.tail (.task table task later kept)⟩

theorem leads_of_opens {now : Moment} {table : Table} {register : Register} {txn : Txn}
    {call : Call} {stage : Stage} {closing : Journal} (reached : now.Leads ⟨table, [], register⟩)
    (opens : table.Opens txn call stage closing) :
    ∃ kept, now.Leads ⟨stage.table, stage.tasks, kept⟩ := by
  let turn : Turn := ⟨txn, call⟩
  have started : table.Opens turn.txn turn.call stage closing := opens
  exact ⟨_, reached.tail (.opens started)⟩

theorem leads_run (turns : List Turn) :
    ∃ register, start.Leads ⟨Table.empty.run turns, [], register⟩ := by
  refine Table.run_invariant
    (motive := fun table => ∃ register, start.Leads ⟨table, [], register⟩)
    (fun table turn ⟨register, before⟩ => ?_) ⟨{}, .refl⟩ turns
  refine Table.take_cases
    (motive := fun after => ∃ register, start.Leads ⟨after.table, [], register⟩) table turn
    ⟨register, before⟩ fun stage _ opens => ?_
  obtain ⟨opened, during⟩ := leads_of_opens before opens
  obtain ⟨kept, through⟩ := leads_of_stage stage.leads_settled opened
  exact ⟨kept, during.trans through⟩

/-- Every table of every run has its moments. -/
theorem leads_of_occurs {table : Table} (occurs : Occurs table) :
    ∃ tasks register, start.Leads ⟨table, tasks, register⟩ := by
  cases occurs with
  | between turns =>
    obtain ⟨register, reached⟩ := leads_run turns
    exact ⟨[], register, reached⟩
  | @within turns _ _ _ now _ opens path =>
    obtain ⟨register, before⟩ := leads_run turns
    obtain ⟨opened, during⟩ := leads_of_opens before opens
    obtain ⟨kept, through⟩ := leads_of_stage path opened
    exact ⟨now.tasks, kept, during.trans through⟩

end Moment

namespace Register

variable {register : Register}

/-- Tickets are numbered as they were issued, no ticket was called up twice, and each line has the
waiting tickets in rank order. -/
structure Kept (register : Register) : Prop where
  numbered : register.issued.map Ticket.number = List.range register.issued.length
  once : register.called.Nodup
  known : register.called ⊆ register.issued
  ranked : ∀ resource, register.line resource = Ticket.ranked (register.waiting resource)

namespace Kept

theorem empty : Kept {} :=
  ⟨rfl, List.nodup_nil, List.nil_subset _, fun _ => rfl⟩

theorem nodup_issued (kept : register.Kept) : register.issued.Nodup := by
  apply List.Nodup.of_map Ticket.number
  rw [kept.numbered]
  exact List.nodup_range

theorem mem_line (kept : register.Kept) {resource : Resource} {ticket : Ticket} :
    ticket ∈ register.line resource ↔
      ticket ∈ register.issued ∧ ticket.resource = resource ∧ ticket ∉ register.called := by
  rw [kept.ranked, (Ticket.ranked_perm _).mem_iff, waiting, List.mem_filter, decide_eq_true_eq]

theorem nodup_line (kept : register.Kept) (resource : Resource) :
    (register.line resource).Nodup := by
  rw [kept.ranked, (Ticket.ranked_perm _).nodup_iff]
  exact kept.nodup_issued.filter _

/-- The next number is a new one. -/
theorem fresh (kept : register.Kept) (turn : Turn) (request : Request) :
    (⟨register.issued.length, turn, request⟩ : Ticket) ∉ register.called := by
  intro member
  have number : register.issued.length ∈ register.issued.map Ticket.number :=
    List.mem_map_of_mem (kept.known member)
  rw [kept.numbered, List.mem_range] at number
  exact Nat.lt_irrefl _ number

theorem waiting_join (kept : register.Kept) (turn : Turn) (request : Request) (place : Place)
    (resource : Resource) : (register.join turn request place).waiting resource =
      if resource = request.lock.resource then
        register.waiting resource ++ [⟨register.issued.length, turn, request⟩]
      else register.waiting resource := by
  have new := kept.fresh turn request
  change (register.issued ++ [_]).filter
    (fun ticket : Ticket => ticket.resource = resource ∧ ticket ∉ register.called) = _
  rw [List.filter_append, ← waiting]
  by_cases here : resource = request.lock.resource
  · simp [Ticket.resource, here, new]
  · simp [Ticket.resource, here, Ne.symm here]

/-- An urgent request goes to the front, any other to the back. -/
theorem join (kept : register.Kept) {turn : Turn} {request : Request} {place : Place}
    (placed : place = if turn.call.urgent then .front else .back) :
    (register.join turn request place).Kept where
  numbered := by
    simp only [Register.join, List.map_append, kept.numbered, List.map_singleton,
      List.length_append, List.length_singleton, List.range_succ]
  once := kept.once
  known := fun _ member => List.mem_append_left _ (kept.known member)
  ranked resource := by
    rw [kept.waiting_join]
    simp only [Register.join]
    split
    · rw [Ticket.ranked_concat, ← kept.ranked, placed, Ticket.urgent]
      cases turn.call.urgent <;> rfl
    · exact kept.ranked resource

/-- With the first in line called up, the others have the same ranks. -/
theorem callUp (kept : register.Kept) {resource : Resource} {ticket : Ticket} {rest : List Ticket}
    (first : register.line resource = ticket :: rest) : (register.callUp resource).Kept where
  numbered := kept.numbered
  once := by
    obtain ⟨-, -, uncalled⟩ := kept.mem_line.mp (first ▸ List.mem_cons_self)
    rw [callUp_of_line first, List.nodup_append]
    refine ⟨kept.once, List.nodup_singleton _, fun earlier member last new => ?_⟩
    rintro rfl
    exact uncalled (List.mem_singleton.mp new ▸ member)
  known := by
    rw [callUp_of_line first, List.append_subset]
    obtain ⟨issued, -, -⟩ := kept.mem_line.mp (first ▸ List.mem_cons_self)
    exact ⟨kept.known, List.cons_subset.mpr ⟨issued, List.nil_subset _⟩⟩
  ranked other := by
    obtain ⟨-, here, -⟩ := kept.mem_line.mp (first ▸ List.mem_cons_self)
    have left : (register.callUp resource).waiting other =
        (register.waiting other).filter fun waiting => waiting ≠ ticket := by
      rw [waiting, callUp_of_line first, waiting, List.filter_filter]
      apply List.filter_congr
      intro waiting _
      simp only [List.mem_append, List.mem_singleton, not_or, Bool.decide_and, ne_eq]
      ac_rfl
    rw [left, Ticket.ranked_filter, ← kept.ranked, line_callUp]
    split
    · next same =>
      subst same
      -- The head is not in line a second time, so leaving it out is taking the tail.
      have single := kept.nodup_line other
      rw [first, List.nodup_cons] at single
      rw [first, List.tail_cons, List.filter_cons_of_neg (by simp), List.filter_eq_self.mpr]
      intro waiting member
      simpa using ne_of_mem_of_not_mem member single.1
    · next different =>
      refine (List.filter_eq_self.mpr fun waiting member => ?_).symm
      obtain ⟨-, there, -⟩ := kept.mem_line.mp member
      rw [decide_eq_true_eq]
      rintro rfl
      exact different (there.symm.trans here)

end Kept

/-! ### What a turn notes -/

theorem note_grant (turn : Turn) (register : Register) (table : Table) (lock : Lock) :
    [table.grantEvent lock].foldl (note turn) register = register := by
  rw [List.foldl_cons, Table.grantEvent]
  split <;> rfl

theorem note_wait (turn : Turn) (register : Register) (table : Table) (request : Request)
    (place : Place) : (table.noteConflict request.lock ++ (table.wait request place).events).foldl
        (note turn) register = register.join turn request place := by
  have conflict : (table.noteConflict request.lock).foldl (note turn) register = register := by
    rw [Table.noteConflict]
    cases (table.entry request.lock.resource).conflict? request.lock.mode request.lock.owner <;> rfl
  rw [List.foldl_append, conflict]
  rfl

end Register

namespace Moment

variable {now next later : Moment}

/-- What one step means for the queues: nothing, or a request joins one, or the first ticket of a
line is called up and its lock is granted. -/
inductive Change (now next : Moment) : Prop
  | stays (register : next.register = now.register)
      (queues : ∀ resource, next.table.queueOf resource = now.table.queueOf resource)
  | joins {turn : Turn} {request : Request} {place : Place}
      (asked : turn.wanted? = some request.lock)
      (placed : place = if turn.call.urgent then .front else .back)
      (register : next.register = now.register.join turn request place)
      (table : next.table = now.table.enqueue request place)
  | calls {resource : Resource} {ticket : Ticket} {rest : List Ticket}
      (first : now.register.line resource = ticket :: rest)
      (register : next.register = now.register.callUp resource)
      (table : next.table = (now.table.dequeue resource).grant ticket.request.lock)

/-- The queues show the lines of tickets, and each ticket is for the lock its turn asked for. -/
structure Tracks (now : Moment) : Prop where
  regular : now.table.Regular
  kept : now.register.Kept
  shown : ∀ resource, now.table.queueOf resource = (now.register.line resource).map Ticket.request
  asked : ∀ ticket ∈ now.register.issued, ticket.turn.wanted? = some ticket.request.lock

theorem change_opens {table : Table} {register : Register} {turn : Turn} {stage : Stage}
    {closing : Journal} (opens : table.Opens turn.txn turn.call stage closing) :
    Change ⟨table, [], register⟩
      ⟨stage.table, stage.tasks, stage.journal.foldl (Register.note turn) register⟩ := by
  obtain ⟨txn, call⟩ := turn
  cases opens with
  | acquireGranted | exchangeGranted | promoteGranted =>
    exact .stays (Register.note_grant _ register table _) fun resource =>
      table.queueOf_grant _ resource
  | acquireQueued | exchangeQueued | promoteQueued =>
    exact .joins rfl rfl (Register.note_wait _ register table ⟨txn, ⟨_, _, txn⟩, _⟩ _) rfl
  | releaseStarted => exact .stays rfl fun _ => rfl

theorem change_moves {task : Task} {done : Step} (tracks : now.Tracks)
    (move : now.table.Moves task done) (tasks : List Task) :
    now.Change ⟨done.table, tasks, now.register.follow now.table done.table task⟩ := by
  cases move with
  | @rests resource =>
    exact .stays (if_pos (now.table.queueOf_prune resource resource)) fun other =>
      now.table.queueOf_prune resource other
  | @serves resource request rest head fits =>
    have shown := tracks.shown resource
    rw [head] at shown
    obtain ⟨ticket, others, first, rfl, -⟩ := List.map_eq_cons_iff.mp shown.symm
    refine .calls first (if_neg ?_) rfl
    rw [Table.queueOf_grant, Table.queueOf_dequeue, if_pos rfl, head, List.tail_cons]
    exact (List.cons_ne_self _ _).symm
  | gives => exact .stays rfl fun other => now.table.queueOf_remove _ _ other
  | defers | skips | completes => exact .stays rfl fun _ => rfl

theorem Tracks.change (tracks : now.Tracks) (step : now.Next next) : now.Change next := by
  cases step with
  | opens opens => exact change_opens opens
  | task table task later register => exact change_moves tracks (table.moves_step task) _

namespace Tracks

theorem start : start.Tracks :=
  ⟨Table.Regular.empty, Register.Kept.empty, fun resource => by simp [Moment.start, Table.queueOf],
    fun _ member => by cases member⟩

theorem regular_next (tracks : now.Tracks) (step : now.Next next) : next.table.Regular := by
  cases step with
  | opens opens => exact tracks.regular.opens opens
  | task table task => exact tracks.regular.moves (table.moves_step task)

theorem step (tracks : now.Tracks) (step : now.Next next) : next.Tracks := by
  have regular := tracks.regular_next step
  cases tracks.change step with
  | stays register queues =>
    exact ⟨regular, register ▸ tracks.kept,
      fun resource => register ▸ (queues resource).trans (tracks.shown resource),
      register ▸ tracks.asked⟩
  | @joins turn request place asked placed register table =>
    refine ⟨regular, register ▸ tracks.kept.join placed, fun resource => ?_, ?_⟩
    · rw [register, table, Table.queueOf_enqueue, Register.join, tracks.shown]
      by_cases here : resource = request.lock.resource
      · cases place <;> simp [here]
      · simp [here]
    · rw [register]
      intro ticket member
      rcases List.mem_append.mp member with earlier | new
      · exact tracks.asked ticket earlier
      · rw [List.mem_singleton.mp new]
        exact asked
  | @calls resource ticket rest first register table =>
    refine ⟨regular, register ▸ tracks.kept.callUp first, fun other => ?_, ?_⟩
    · rw [register, table, Table.queueOf_grant, Table.queueOf_dequeue, tracks.shown,
        Register.line_callUp]
      split <;> simp
    · rw [register]
      exact tracks.asked

theorem leads (tracks : now.Tracks) (path : now.Leads later) : later.Tracks := by
  induction path with
  | refl => exact tracks
  | tail _ last ih => exact ih.step last

/-- Every ticket is in its line or was called up, and then only once. -/
theorem waits_or_called (tracks : now.Tracks) {ticket : Ticket}
    (issued : ticket ∈ now.register.issued) :
    (now.register.line ticket.resource).count ticket + now.register.called.count ticket = 1 := by
  obtain ⟨-, kept, -, -⟩ := tracks
  by_cases called : ticket ∈ now.register.called
  · have gone : ticket ∉ now.register.line ticket.resource := fun waits =>
      (kept.mem_line.mp waits).2.2 called
    rw [List.count_eq_zero_of_not_mem gone, List.count_eq_one_of_mem kept.once called]
  · have waits : ticket ∈ now.register.line ticket.resource :=
      kept.mem_line.mpr ⟨issued, rfl, called⟩
    rw [List.count_eq_zero_of_not_mem called,
      List.count_eq_one_of_mem (kept.nodup_line _) waits]

end Tracks

/-- What one step does to the tickets. -/
structure Advances (now next : Moment) : Prop where
  /-- No ticket is lost. -/
  issued : now.register.issued <+: next.register.issued
  /-- Whoever is called up has waited. -/
  waited : ∀ ticket ∈ next.register.called,
    ticket ∈ now.register.called ∨ ticket ∈ now.register.line ticket.resource
  /-- A ticket that leaves its line was first there and is called up. With that its lock is granted
  as asked: it is now what the transaction holds on the resource. -/
  granted : ∀ resource, ∀ ticket ∈ now.register.line resource,
    ticket ∉ next.register.line resource →
      now.register.line resource = ticket :: next.register.line resource ∧
        next.register.called = now.register.called ++ [ticket] ∧
          next.table.heldLock? ticket.turn.txn resource = some ticket.request.lock ∧
            (next.table.entry resource).lockOf? ticket.turn.txn = some ticket.request.lock

/-- Whoever is first in line gets the lock that was asked for. -/
theorem Tracks.lock_of_first (tracks : now.Tracks) {resource : Resource} {ticket : Ticket}
    {rest : List Ticket} (first : now.register.line resource = ticket :: rest) :
    let after := (now.table.dequeue resource).grant ticket.request.lock
    after.heldLock? ticket.turn.txn resource = some ticket.request.lock ∧
      (after.entry resource).lockOf? ticket.turn.txn = some ticket.request.lock := by
  obtain ⟨issued, rfl, -⟩ := tracks.kept.mem_line.mp (first ▸ List.mem_cons_self)
  have owner : ticket.request.lock.owner = ticket.turn.txn :=
    Turn.owner_of_wanted? (tracks.asked ticket issued)
  obtain ⟨ledger, books⟩ := (tracks.regular.dequeue ticket.resource).books
  have granted := books.grant ticket.request.lock
  have entered := Ledger.lock_mem_put ledger ticket.request.lock
  rw [← owner]
  exact ⟨granted.heldLock?_of_mem entered,
    granted.lockOf?_of_mem entered (Lock.sameGrant_iff.mpr ⟨rfl, rfl⟩)⟩

theorem Tracks.advances (tracks : now.Tracks) (step : now.Next next) : now.Advances next := by
  cases tracks.change step with
  | stays register =>
    refine ⟨register ▸ List.prefix_rfl, fun _ called => .inl (register ▸ called),
      fun resource ticket waits left => absurd waits ?_⟩
    rwa [register] at left
  | joins asked placed register =>
    refine ⟨register ▸ List.prefix_append _ _, fun _ called => .inl ?_,
      fun resource ticket waits left => absurd waits fun waits => left ?_⟩
    · rwa [register] at called
    · rw [register]
      exact (now.register.line_join_sublist _ _ _ resource).subset waits
  | @calls drained first rest line register table =>
    have called := Register.callUp_of_line line
    rw [← register] at called
    refine ⟨register ▸ List.prefix_rfl, fun ticket later => ?_,
      fun resource ticket waits left => ?_⟩
    · rw [called] at later
      rcases List.mem_append.mp later with earlier | new
      · exact .inl earlier
      · obtain ⟨-, rfl, -⟩ := tracks.kept.mem_line.mp (line ▸ List.mem_cons_self)
        rw [List.mem_singleton.mp new, line]
        exact .inr List.mem_cons_self
    · rw [register, Register.line_callUp] at left ⊢
      by_cases here : resource = drained
      · subst here
        rw [if_pos rfl, line, List.tail_cons] at left ⊢
        rw [line] at waits
        obtain rfl : ticket = first := (List.mem_cons.mp waits).resolve_right left
        rw [← register, table]
        exact ⟨rfl, called, tracks.lock_of_first line⟩
      · rw [if_neg here] at left
        exact absurd waits left

/-- The tickets called up and then those in line never change their order. -/
theorem Change.sublist (change : now.Change next) (resource : Resource) :
    (now.register.called ++ now.register.line resource).Sublist
      (next.register.called ++ next.register.line resource) := by
  cases change with
  | stays register =>
    rw [register]
  | joins asked placed register =>
    rw [register]
    exact (now.register.line_join_sublist _ _ _ resource).append_left _
  | @calls drained ticket rest line register =>
    rw [register, Register.callUp_of_line line, Register.line_callUp]
    split
    · next here =>
      subst here
      simp [line]
    · simp

theorem Tracks.sublist (tracks : now.Tracks) (path : now.Leads later) (resource : Resource) :
    (now.register.called ++ now.register.line resource).Sublist
      (later.register.called ++ later.register.line resource) := by
  induction path with
  | refl => exact .refl _
  | tail before last ih => exact ih.trans (((tracks.leads before).change last).sublist resource)

/-- Of two tickets in one line, the one nearer to the front is called up first. -/
theorem Tracks.called_in_order (tracks : now.Tracks) (path : now.Leads later)
    {resource : Resource} {first second : Ticket}
    (line : [first, second].Sublist (now.register.line resource))
    (called : second ∈ later.register.called) : [first, second].Sublist later.register.called := by
  have known : second ∉ later.register.line resource := fun waits =>
    ((tracks.leads path).kept.mem_line.mp waits).2.2 called
  -- Both stay in this order among the called and the waiting, and the second no longer waits.
  have order := (line.trans (List.sublist_append_right _ _)).trans (tracks.sublist path resource)
  obtain ⟨before, after, split, front, back⟩ := List.sublist_append_iff.mp order
  rcases List.eq_nil_or_concat after with rfl | ⟨others, last, rfl⟩
  · rwa [split, List.append_nil]
  · obtain rfl : second = last := by simpa using congrArg List.getLast? split
    exact absurd (back.subset (by simp)) known

/-- What holds of the queues at one moment. -/
structure InOrder (now : Moment) : Prop where
  /-- Tickets are numbered in the order of submission, over all queues together. -/
  numbered : now.register.issued.map Ticket.number = List.range now.register.issued.length
  /-- A ticket is for the lock that its turn asked for. -/
  asked : ∀ ticket ∈ now.register.issued, ticket.turn.wanted? = some ticket.request.lock
  /-- A queue has the requests of the tickets in its line, in the same order. -/
  shown : ∀ resource, now.table.queueOf resource = (now.register.line resource).map Ticket.request
  /-- A line has the waiting promotions and exchanges in reverse order of submission, and after
  them the waiting acquires in order of submission. -/
  ranked : ∀ resource, now.register.line resource = Ticket.ranked (now.register.waiting resource)
  /-- Each ticket is in its line once, or was called up once. -/
  counted : ∀ ticket ∈ now.register.issued,
    (now.register.line ticket.resource).count ticket + now.register.called.count ticket = 1

theorem Tracks.inOrder (tracks : now.Tracks) : now.InOrder :=
  ⟨tracks.kept.numbered, tracks.asked, tracks.shown, tracks.kept.ranked,
    fun _ issued => tracks.waits_or_called issued⟩

end Moment

/-- A plain acquire that finds somebody waiting is granted nothing and goes to the back. -/
def Table.AcquiresYield (table : Table) : Prop :=
  ∀ txn resource mode outcome, table.call txn (.acquire resource mode) = .ok outcome →
    table.queueOf resource ≠ [] →
      outcome.table.queueOf resource =
          table.queueOf resource ++ [⟨txn, ⟨resource, mode, txn⟩, []⟩] ∧
        (∀ other, outcome.table.locksOn other = table.locksOn other) ∧
          ∀ other, outcome.table.locksHeldBy other = table.locksHeldBy other

theorem Table.acquiresYield (table : Table) : table.AcquiresYield := by
  intro txn resource mode outcome accepted busy
  obtain ⟨stage, closing, opens, rfl⟩ := call_ok_iff.mp accepted
  cases opens with
  | acquireGranted free room => exact absurd (mustQueue_eq_false_iff.mp room).2 busy
  | acquireQueued => simp [Stage.settled, queueOf_enqueue]

/-- At every moment of every run the queues are in order. A request leaves its queue from the head
and with a grant, and requests that wait together are granted in the order in which they stand.
Nobody who comes with a plain acquire is let past them. -/
theorem queues_in_order :
    (∀ table, Occurs table →
      table.AcquiresYield ∧ ∃ tasks register, Moment.start.Leads ⟨table, tasks, register⟩) ∧
    ∀ now, Moment.start.Leads now → now.InOrder ∧
      (∀ next, now.Next next → now.Advances next) ∧
      ∀ later, now.Leads later → ∀ resource first second,
        [first, second].Sublist (now.register.line resource) →
          second ∈ later.register.called → [first, second].Sublist later.register.called := by
  constructor
  · intro table occurs
    exact ⟨table.acquiresYield, Moment.leads_of_occurs occurs⟩
  · intro now reached
    have tracks := Moment.Tracks.start.leads reached
    exact ⟨tracks.inOrder, fun _ step => tracks.advances step,
      fun _ path _ _ _ line called => tracks.called_in_order path line called⟩

/-- The exchange came last and stands ahead of the acquire that waited before it. -/
example : ((Table.empty.run Sample.queuedExchange).queueOf Sample.orders).map Request.owner =
    [⟨2⟩, ⟨4⟩] := by decide +kernel

end LockManager
