import LockManager.Proofs.Books

/-! Nothing empty is kept. During a call an idle entry may stay only while the queue of its
resource is still to be looked at; between calls the maps have exactly the resources that are
held or awaited and the transactions that hold something. -/
namespace LockManager
open Std

structure Tidy (table : Table) (tasks : List Task) : Prop where
  entries : ∀ (resource : Resource) (entry : Entry),
    table.entries[resource]? = some entry → entry.isIdle = true → .drain resource ∈ tasks
  holdings : ∀ (txn : Txn) (locks : List Lock), table.holdings[txn]? = some locks → locks ≠ []

theorem Entry.isIdle_grant (entry : Entry) (lock : Lock) : (entry.grant lock).isIdle = false := by
  have held : (entry.grant lock).active ≠ [] := by
    unfold grant
    split
    · next found =>
      intro empty
      rw [Lock.switchFirst_eq_nil_iff] at empty
      simp [lockOf?, empty] at found
    · simp
  simp [isIdle, held]

theorem Entry.isIdle_enqueue (entry : Entry) (request : Request) (place : Place) :
    (entry.enqueue request place).isIdle = false := by
  cases place <;> simp [isIdle, enqueue]

namespace Tidy

variable {table : Table} {tasks : List Task}

theorem empty : Tidy Table.empty [] :=
  ⟨fun _ _ found => by simp [Table.empty] at found, fun _ _ found => by simp [Table.empty] at found⟩

/-- A change of one entry that does not leave it idle, or leaves it to be looked at. -/
theorem of_change {after : Table} {now : List Task} (tidy : Tidy table tasks) (resource : Resource)
    (others : ∀ other, other ≠ resource → after.entries[other]? = table.entries[other]?)
    (here : ∀ entry, after.entries[resource]? = some entry → entry.isIdle = true →
      .drain resource ∈ now)
    (later : ∀ other, other ≠ resource → Task.drain other ∈ tasks → .drain other ∈ now)
    (holdings : ∀ (txn : Txn) (locks : List Lock), after.holdings[txn]? = some locks →
      locks ≠ []) : Tidy after now := by
  refine ⟨fun other entry found idle => ?_, holdings⟩
  by_cases same : other = resource
  · subst same
    exact here entry found idle
  · rw [others other same] at found
    exact later other same (tidy.entries other entry found idle)

theorem holdings_grant (tidy : Tidy table tasks) (lock : Lock) (txn : Txn) (locks : Ledger)
    (found : (table.grant lock).holdings[txn]? = some locks) : locks ≠ [] := by
  simp only [Table.grant] at found
  split at found
  · rw [ExtTreeMap.getElem?_modify] at found
    split at found
    · obtain ⟨earlier, held, rfl⟩ := Option.map_eq_some_iff.mp found
      exact fun empty => tidy.holdings _ _ held (Lock.switchFirst_eq_nil_iff.mp empty)
    · exact tidy.holdings _ _ found
  · rw [ExtTreeMap.getElem?_insert] at found
    split at found
    · cases found
      simp
    · exact tidy.holdings _ _ found

theorem grant (tidy : Tidy table tasks) (lock : Lock) : Tidy (table.grant lock) tasks := by
  refine tidy.of_change lock.resource (fun other different => ?_) (fun entry found idle => ?_)
    (fun _ _ member => member) (tidy.holdings_grant lock)
  · simp [Table.grant, ExtTreeMap.getElem?_insert, Ne.symm different]
  · simp only [Table.grant, ExtTreeMap.getElem?_insert_self, Option.some.injEq] at found
    rw [← found, Entry.isIdle_grant] at idle
    contradiction

theorem enqueue (tidy : Tidy table tasks) (request : Request) (place : Place) :
    Tidy (table.enqueue request place) tasks := by
  refine tidy.of_change request.lock.resource (fun other different => ?_)
    (fun entry found idle => ?_) (fun _ _ member => member) tidy.holdings
  · simp [Table.enqueue, ExtTreeMap.getElem?_insert, Ne.symm different]
  · simp only [Table.enqueue, ExtTreeMap.getElem?_insert_self, Option.some.injEq] at found
    rw [← found, Entry.isIdle_enqueue] at idle
    contradiction

theorem dequeue (tidy : Tidy table tasks) (resource : Resource)
    (pending : .drain resource ∈ tasks) : Tidy (table.dequeue resource) tasks :=
  tidy.of_change resource (fun _ different => Table.getElem?_modify_of_ne _ _ different)
    (fun _ _ _ => pending) (fun _ _ member => member) tidy.holdings

theorem remove (tidy : Tidy table tasks) (txn : Txn) (resource : Resource) :
    Tidy (table.remove txn resource) (.drain resource :: tasks) := by
  refine tidy.of_change resource (fun _ different => Table.getElem?_modify_of_ne _ _ different)
    (fun _ _ _ => List.mem_cons_self) (fun _ _ member => List.mem_cons_of_mem _ member)
    fun other locks found => ?_
  simp only [Table.remove, ExtTreeMap.getElem?_alter] at found
  split at found
  · split at found
    · contradiction
    · next nonempty =>
      cases found
      exact nonempty
  · exact tidy.holdings _ _ found

theorem prune (resource : Resource) (tidy : Tidy table (.drain resource :: tasks)) :
    Tidy (table.prune resource) tasks := by
  have later : ∀ other, other ≠ resource →
      Task.drain other ∈ Task.drain resource :: tasks → .drain other ∈ tasks := by
    intro other different member
    rcases List.mem_cons.mp member with same | member
    · exact absurd (Task.drain.inj same) different
    · exact member
  unfold Table.prune
  split
  · refine tidy.of_change resource (fun other different => ?_) (fun entry found => ?_) later
      tidy.holdings
    · simp [ExtTreeMap.getElem?_erase, Ne.symm different]
    · simp at found
  · next busy =>
    refine tidy.of_change resource (fun _ _ => rfl) (fun entry found idle => ?_) later tidy.holdings
    rw [Table.entry_eq, found] at busy
    exact absurd idle busy

theorem mono {now : List Task} (tidy : Tidy table tasks)
    (later : ∀ resource, Task.drain resource ∈ tasks → .drain resource ∈ now) : Tidy table now :=
  ⟨fun resource entry found idle => later resource (tidy.entries resource entry found idle),
    tidy.holdings⟩

theorem moves {task : Task} {done : Step} (tidy : Tidy table (task :: tasks))
    (move : table.Moves task done) : Tidy done.table (done.next ++ tasks) := by
  cases move with
  | rests blocked quiet => exact prune _ tidy
  | serves head fits =>
    apply ((tidy.dequeue _ List.mem_cons_self).grant _).mono
    intro other member
    rcases List.mem_cons.mp member with same | member
    · rw [same]
      simp [Task.afterGrant]
    · exact List.mem_append_right _ member
  | gives =>
    apply (tidy.remove _ _).mono
    intro other member
    simpa using member
  | defers held | skips gone | completes => exact tidy.mono fun other member => by simpa using member

theorem opens {txn : Txn} {call : Call} {stage : Stage} {closing : Journal}
    (tidy : Tidy table []) (opens : table.Opens txn call stage closing) :
    Tidy stage.table stage.tasks := by
  have idle {now : List Task} {after : Table} (tidy : Tidy after []) : Tidy after now :=
    tidy.mono fun _ member => by simp at member
  cases opens with
  | acquireGranted | exchangeGranted | promoteGranted => exact idle (tidy.grant _)
  | acquireQueued | exchangeQueued | promoteQueued => exact idle (tidy.enqueue _ _)
  | releaseStarted => exact idle tidy

theorem take (tidy : Tidy table []) (turn : Turn) : Tidy (table.take turn).table [] := by
  refine Table.take_cases (motive := fun after => Tidy after.table []) table turn tidy
    fun stage closing started => ?_
  exact stage.leads_settled.invariant (motive := fun table _ tasks => Tidy table tasks)
    (fun before move => before.moves move) (tidy.opens started)

theorem run (turns : List Turn) : Tidy (Table.empty.run turns) [] :=
  Table.run_invariant (motive := fun table => Tidy table []) (fun _ turn tidy => tidy.take turn)
    empty turns

theorem mem_entries (tidy : Tidy table []) (resource : Resource) :
    resource ∈ table.entries ↔ table.locksOn resource ≠ [] ∨ table.queueOf resource ≠ [] := by
  rw [ExtTreeMap.mem_iff_isSome_getElem?, Table.locksOn, Table.queueOf, Table.entry_eq]
  cases found : table.entries[resource]? with
  | none => simp
  | some entry =>
    have busy : entry.isIdle ≠ true := fun idle => by simpa using tidy.entries _ _ found idle
    simpa [Entry.isIdle, Decidable.imp_iff_not_or] using busy

theorem mem_holdings (tidy : Tidy table []) (txn : Txn) :
    txn ∈ table.holdings ↔ table.locksHeldBy txn ≠ [] := by
  rw [ExtTreeMap.mem_iff_isSome_getElem?, Table.locksHeldBy_eq]
  cases found : table.holdings[txn]? with
  | none => simp
  | some locks => simpa using tidy.holdings _ _ found

/-! What there is to see of a table decides about its maps. -/

theorem getElem?_entries (tidy : Tidy table []) (resource : Resource) :
    table.entries[resource]? =
      if (table.entry resource).isIdle then none else some (table.entry resource) := by
  rw [Table.entry_eq]
  cases found : table.entries[resource]? with
  | none => rfl
  | some entry =>
    have busy : ¬ entry.isIdle = true := fun idle => by simpa using tidy.entries _ _ found idle
    exact (if_neg busy).symm

theorem getElem?_holdings (tidy : Tidy table []) (txn : Txn) :
    table.holdings[txn]? =
      if table.locksHeldBy txn = [] then none else some (table.locksHeldBy txn) := by
  rw [Table.locksHeldBy_eq]
  cases found : table.holdings[txn]? with
  | none => rfl
  | some locks => exact (if_neg (tidy.holdings _ _ found)).symm

theorem table_eq {other : Table} (tidy : Tidy table []) (neat : Tidy other [])
    (active : ∀ resource, table.locksOn resource = other.locksOn resource)
    (queues : ∀ resource, table.queueOf resource = other.queueOf resource)
    (held : ∀ txn, table.locksHeldBy txn = other.locksHeldBy txn) : table = other := by
  have entry (resource : Resource) : table.entry resource = other.entry resource :=
    congrArg₂ Entry.mk (active resource) (queues resource)
  have entries : table.entries = other.entries := ExtTreeMap.ext_getElem? fun resource => by
    rw [tidy.getElem?_entries, neat.getElem?_entries, entry]
  have holdings : table.holdings = other.holdings := ExtTreeMap.ext_getElem? fun txn => by
    rw [tidy.getElem?_holdings, neat.getElem?_holdings, held]
  obtain ⟨_, _⟩ := table
  exact congrArg₂ Table.mk entries holdings

end Tidy

/-- The ledger of a run, replayed from what happened in it. -/
def Ledger.ofRun (turns : List Turn) : Ledger := Ledger.replay [] (Table.empty.journal turns)

/-- After any run the table shows one ledger in two views, and each further turn edits it as its
events tell. Neither map has a key without contents. -/
theorem two_views_of_one_ledger (turns : List Turn) :
    (Ledger.ofRun turns).OneEach ∧
    (∀ resource, (Table.empty.run turns).locksOn resource =
      (Ledger.ofRun turns).filter fun held => held.resource = resource) ∧
    (∀ txn, (Table.empty.run turns).locksHeldBy txn =
      (Ledger.ofRun turns).filter fun held => held.owner = txn) ∧
    (∀ turn, (Ledger.ofRun turns).Edits ((Table.empty.run turns).take turn).events
      (Ledger.ofRun (turns ++ [turn]))) ∧
    (∀ resource, resource ∈ (Table.empty.run turns).entries ↔
      (Table.empty.run turns).locksOn resource ≠ [] ∨
        (Table.empty.run turns).queueOf resource ≠ []) ∧
    ∀ txn, txn ∈ (Table.empty.run turns).holdings ↔
      (Table.empty.run turns).locksHeldBy txn ≠ [] := by
  have books : Books (Ledger.ofRun turns) (Table.empty.run turns) :=
    (Records.run Books.empty turns).books
  have tidy := Tidy.run turns
  refine ⟨books.single, books.active, books.held, fun turn => ?_, tidy.mem_entries,
    tidy.mem_holdings⟩
  have further : Ledger.ofRun (turns ++ [turn]) =
      (Ledger.ofRun turns).replay ((Table.empty.run turns).take turn).events := by
    rw [Ledger.ofRun, Table.journal_append, Ledger.replay_append]
    simp only [Table.journal, List.append_nil]
    rfl
  rw [further]
  exact (Records.take books turn).edits

end LockManager
