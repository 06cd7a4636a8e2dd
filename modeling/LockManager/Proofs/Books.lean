import LockManager.Proofs.Ledger

/-! The table kept by its ledger. At every stage of every run the locks on a resource and the locks
of a transaction are the ledger's sublists, and every event edits it accordingly. The two maps
have a key for a resource or a transaction only while there is something to say about it. -/
namespace LockManager
open Std

/-- Seen from its resource, a grant is entered among the locks there. -/
theorem Entry.active_grant {entry : Entry} {lock : Lock} (single : Ledger.OneEach entry.active)
    (placed : ∀ held ∈ entry.active, held.resource = lock.resource) :
    (entry.grant lock).active = Ledger.put entry.active lock := by
  have same : ∀ held ∈ entry.active, held.sameGrant lock = true ↔ held.owner = lock.owner :=
    fun held member => by simp [Lock.sameGrant_iff, placed held member]
  by_cases present : ∃ held ∈ entry.active, held.owner = lock.owner
  · obtain ⟨held, member, owned⟩ := present
    have found : (entry.lockOf? lock.owner).isSome := by
      rw [lockOf?, List.find?_isSome]
      exact ⟨held, member, decide_eq_true owned⟩
    rw [grant, if_pos found, Ledger.put_of_mem member ((same held member).mpr owned),
      Lock.switchFirst_eq_map (single.owner_once placed lock.owner)]
    apply List.map_congr_left
    intro other known
    by_cases equal : other.owner = lock.owner
    · rw [if_pos (decide_eq_true equal), if_pos ((same other known).mpr equal)]
      exact Lock.with_mode_of_sameGrant ((same other known).mpr equal)
    · rw [if_neg (by simpa using equal), if_neg fun grant => equal ((same other known).mp grant)]
  · have fresh : ∀ held ∈ entry.active, held.sameGrant lock = false := fun held member =>
      Bool.eq_false_iff.mpr fun grant => present ⟨held, member, (same held member).mp grant⟩
    have none : (entry.lockOf? lock.owner).isSome = false := by
      rw [Option.isSome_eq_false_iff, Option.isNone_iff_eq_none, lockOf?, List.find?_eq_none]
      simpa using present
    rw [grant, none, Ledger.put_of_fresh fresh]
    rfl

/-- Both views of the table show the ledger's grants in the ledger's order. -/
structure Books (ledger : Ledger) (table : Table) : Prop where
  single : ledger.OneEach
  active : ∀ resource, table.locksOn resource = ledger.filter fun held => held.resource = resource
  held : ∀ txn, table.locksHeldBy txn = ledger.filter fun held => held.owner = txn

namespace Books

variable {ledger : Ledger} {table : Table}

theorem empty : Books [] Table.empty :=
  ⟨List.Pairwise.nil, fun _ => by simp [Table.locksOn], fun _ => by simp⟩

theorem heldLock? (books : Books ledger table) (txn : Txn) (resource : Resource) :
    table.heldLock? txn resource =
      ledger.find? fun held => held.owner = txn ∧ held.resource = resource := by
  rw [Table.heldLock?, books.held, List.find?_filter]
  simp only [Bool.decide_and, decide_eq_true_eq]

theorem lockOf? (books : Books ledger table) (txn : Txn) (resource : Resource) :
    (table.entry resource).lockOf? txn =
      ledger.find? fun held => held.owner = txn ∧ held.resource = resource := by
  rw [Entry.lockOf?, ← Table.locksOn, books.active, List.find?_filter]
  simp only [Bool.decide_and, decide_eq_true_eq, Bool.and_comm]

/-- A lock that is found is in the ledger, for that transaction and that resource. -/
theorem mem_of_heldLock? (books : Books ledger table) {txn : Txn} {resource : Resource}
    {lock : Lock} (found : table.heldLock? txn resource = some lock) :
    lock ∈ ledger ∧ lock.owner = txn ∧ lock.resource = resource := by
  rw [books.heldLock?] at found
  exact ⟨List.mem_of_find?_eq_some found, by simpa using List.find?_some found⟩

theorem absent_of_heldLock? (books : Books ledger table) {txn : Txn} {resource : Resource}
    (free : table.heldLock? txn resource = none) :
    ∀ held ∈ ledger, held.owner = txn → held.resource ≠ resource := by
  rw [books.heldLock?, List.find?_eq_none] at free
  simpa using free

/-- Both views find a lock of the ledger. -/
theorem heldLock?_of_mem (books : Books ledger table) {lock : Lock} (known : lock ∈ ledger) :
    table.heldLock? lock.owner lock.resource = some lock := by
  rw [books.heldLock?, books.single.find? known]

theorem lockOf?_of_mem (books : Books ledger table) {held lock : Lock} (known : held ∈ ledger)
    (same : held.sameGrant lock = true) :
    (table.entry lock.resource).lockOf? lock.owner = some held := by
  obtain ⟨owner, resource⟩ := Lock.sameGrant_iff.mp same
  rw [books.lockOf?, ← owner, ← resource, books.single.find? known]

theorem lockOf?_of_fresh (books : Books ledger table) {lock : Lock}
    (fresh : ∀ held ∈ ledger, held.sameGrant lock = false) :
    (table.entry lock.resource).lockOf? lock.owner = none := by
  rw [books.lockOf?, List.find?_eq_none]
  simpa [Lock.sameGrant] using fresh

theorem mem_locksOn (books : Books ledger table) {resource : Resource} {lock : Lock} :
    lock ∈ table.locksOn resource ↔ lock ∈ ledger ∧ lock.resource = resource := by
  rw [books.active, List.mem_filter, decide_eq_true_eq]

theorem mem_locksHeldBy (books : Books ledger table) {txn : Txn} {lock : Lock} :
    lock ∈ table.locksHeldBy txn ↔ lock ∈ ledger ∧ lock.owner = txn := by
  rw [books.held, List.mem_filter, decide_eq_true_eq]

theorem single_locksOn (books : Books ledger table) (resource : Resource) :
    Ledger.OneEach (table.locksOn resource) := by
  rw [books.active]
  exact books.single.sublist List.filter_sublist

theorem single_locksHeldBy (books : Books ledger table) (txn : Txn) :
    Ledger.OneEach (table.locksHeldBy txn) := by
  rw [books.held]
  exact books.single.sublist List.filter_sublist

/-! ### Granting -/

theorem locksOn_grant (books : Books ledger table) (lock : Lock) (resource : Resource) :
    (table.grant lock).locksOn resource =
      if resource = lock.resource then Ledger.put (table.locksOn resource) lock
      else table.locksOn resource := by
  rw [Table.locksOn, Table.entry_grant]
  split
  · next same =>
    subst same
    have placed : ∀ held ∈ (table.entry lock.resource).active, held.resource = lock.resource :=
      fun held member => (books.mem_locksOn.mp member).2
    rw [Entry.active_grant (books.single_locksOn lock.resource) placed]
    rfl
  · rfl

theorem locksHeldBy_grant (books : Books ledger table) (lock : Lock) (txn : Txn) :
    (table.grant lock).locksHeldBy txn =
      if txn = lock.owner then Ledger.put (table.locksHeldBy txn) lock
      else table.locksHeldBy txn := by
  rw [Table.locksHeldBy_grant]
  by_cases mine : txn = lock.owner
  · subst mine
    rw [if_neg (by simp), if_pos rfl]
    by_cases present : ∃ held ∈ ledger, held.sameGrant lock = true
    · obtain ⟨held, known, same⟩ := present
      have member : held ∈ table.locksHeldBy lock.owner :=
        books.mem_locksHeldBy.mpr ⟨known, (Lock.sameGrant_iff.mp same).1⟩
      have once := (books.single_locksHeldBy lock.owner).resource_once
        (fun held mine => (books.mem_locksHeldBy.mp mine).2) lock.resource
      rw [books.lockOf?_of_mem known same, Option.isSome_some, if_pos rfl,
        Ledger.put_of_mem member same, Lock.switchFirst_eq_map once]
      apply List.map_congr_left
      intro other mine
      have grant : other.sameGrant lock = true ↔ other.resource = lock.resource := by
        simp [Lock.sameGrant_iff, (books.mem_locksHeldBy.mp mine).2]
      by_cases equal : other.resource = lock.resource
      · rw [if_pos (decide_eq_true equal), if_pos (grant.mpr equal)]
        exact Lock.with_mode_of_sameGrant (grant.mpr equal)
      · rw [if_neg (by simpa using equal), if_neg fun same => equal (grant.mp same)]
    · have fresh : ∀ held ∈ ledger, held.sameGrant lock = false := by simpa using present
      rw [books.lockOf?_of_fresh fresh, if_neg (by simp), Ledger.put_of_fresh]
      exact fun held mine => fresh held (books.mem_locksHeldBy.mp mine).1
  · rw [if_pos mine, if_neg mine]

theorem grant (books : Books ledger table) (lock : Lock) :
    Books (ledger.put lock) (table.grant lock) where
  single := books.single.put lock
  active resource := by
    rw [books.locksOn_grant, Ledger.filter_put, books.active]
    · simp only [decide_eq_true_eq, @eq_comm _ resource]
    · intro held same
      simp only [(Lock.sameGrant_iff.mp same).2]
  held txn := by
    rw [books.locksHeldBy_grant, Ledger.filter_put, books.held]
    · simp only [decide_eq_true_eq, @eq_comm _ txn]
    · intro held same
      simp only [(Lock.sameGrant_iff.mp same).1]

/-- A grant is one edit, and the journal's event tells which. -/
theorem edit_grant (books : Books ledger table) (lock : Lock) :
    ledger.Edit (table.grantEvent lock) (ledger.put lock) ∧
      ledger.note (table.grantEvent lock) = ledger.put lock := by
  by_cases present : ∃ held ∈ ledger, held.sameGrant lock = true
  · obtain ⟨held, known, same⟩ := present
    rw [Table.grantEvent, books.lockOf?_of_mem known same]
    exact ⟨books.single.edit_replaced known same, rfl⟩
  · have fresh : ∀ held ∈ ledger, held.sameGrant lock = false := by simpa using present
    rw [Table.grantEvent, books.lockOf?_of_fresh fresh]
    refine ⟨?_, rfl⟩
    rw [Ledger.put_of_fresh fresh]
    exact .append lock fresh

/-! ### Releasing -/

/-- A transaction has one lock on the resource at most, so none of its own stays there. -/
theorem locksOn_remove (books : Books ledger table) (txn : Txn) (resource : Resource) :
    (table.remove txn resource).locksOn resource =
      (table.locksOn resource).filter fun held => held.owner ≠ txn := by
  have once := (books.single_locksOn resource).owner_once
    (fun held here => (books.mem_locksOn.mp here).2) txn
  rw [Table.locksOn, Table.entry_remove, if_pos rfl, Entry.remove, ← Table.locksOn,
    Lock.eraseP_eq_filter once]
  simp only [decide_not]

theorem remove (books : Books ledger table) (txn : Txn) (resource : Resource) :
    Books (ledger.strike txn resource) (table.remove txn resource) where
  single := books.single.strike txn resource
  active other := by
    rw [Ledger.strike, List.filter_filter]
    by_cases same : other = resource
    · subst same
      rw [books.locksOn_remove, books.active, List.filter_filter]
      apply List.filter_congr
      intro held _
      by_cases here : held.resource = other <;> simp [here]
    · rw [table.locksOn_remove_of_ne txn same, books.active]
      apply List.filter_congr
      intro held _
      by_cases here : held.resource = other <;> simp [here, same]
  held other := by
    rw [Table.locksHeldBy_remove, Ledger.strike, List.filter_filter]
    split
    · next same =>
      subst same
      rw [books.held, List.filter_filter]
      apply List.filter_congr
      intro held _
      by_cases mine : held.owner = other <;> simp [mine]
    · next different =>
      rw [books.held]
      apply List.filter_congr
      intro held _
      by_cases mine : held.owner = other <;> simp [mine, different]

/-- Nothing is struck out if the resource does not show the transaction's lock. -/
theorem edits_remove (books : Books ledger table) (txn : Txn) (resource : Resource) :
    ledger.Edits (((table.entry resource).lockOf? txn).toList.map .released)
        (ledger.strike txn resource) ∧
      ledger.replay (((table.entry resource).lockOf? txn).toList.map .released) =
        ledger.strike txn resource := by
  cases found : (table.entry resource).lockOf? txn with
  | none =>
    have absent : ∀ held ∈ ledger, held.owner = txn → held.resource ≠ resource := by
      rw [books.lockOf?, List.find?_eq_none] at found
      simpa using found
    rw [Ledger.strike_of_absent absent]
    exact ⟨.done ledger, rfl⟩
  | some lock =>
    rw [books.lockOf?] at found
    have known := List.mem_of_find?_eq_some found
    obtain ⟨rfl, rfl⟩ : lock.owner = txn ∧ lock.resource = resource := by
      simpa using List.find?_some found
    exact ⟨.next (books.single.edit_released known) (.done _), rfl⟩

/-! ### Changes that concern no grant -/

theorem of_views {after : Table} (books : Books ledger table)
    (active : ∀ resource, after.locksOn resource = table.locksOn resource)
    (held : ∀ txn, after.locksHeldBy txn = table.locksHeldBy txn) : Books ledger after :=
  ⟨books.single, fun resource => (active resource).trans (books.active resource),
    fun txn => (held txn).trans (books.held txn)⟩

theorem enqueue (books : Books ledger table) (request : Request) (place : Place) :
    Books ledger (table.enqueue request place) :=
  books.of_views (fun resource => table.locksOn_enqueue request place resource) fun _ => rfl

theorem dequeue (books : Books ledger table) (resource : Resource) :
    Books ledger (table.dequeue resource) :=
  books.of_views (fun other => table.locksOn_dequeue resource other) fun _ => rfl

theorem prune (books : Books ledger table) (resource : Resource) :
    Books ledger (table.prune resource) :=
  books.of_views (fun other => table.locksOn_prune resource other)
    fun txn => table.locksHeldBy_prune resource txn

end Books

/-- The journal edits the ledger event by event, and the table shows what comes out. -/
structure Records (ledger : Ledger) (journal : Journal) (table : Table) : Prop where
  edits : ledger.Edits journal (ledger.replay journal)
  books : Books (ledger.replay journal) table

namespace Records

variable {ledger : Ledger} {table : Table}

theorem append {first second : Journal} {after : Table} (start : Records ledger first table)
    (rest : Records (ledger.replay first) second after) : Records ledger (first ++ second) after := by
  constructor
  · rw [Ledger.replay_append]
    exact start.edits.append rest.edits
  · rw [Ledger.replay_append]
    exact rest.books

theorem silent {journal : Journal} (books : Books ledger table)
    (other : ∀ event ∈ journal, event.changesGrants = false) : Records ledger journal table := by
  constructor
  · rw [Ledger.replay_silent ledger other]
    exact .silent ledger other
  · rw [Ledger.replay_silent ledger other]
    exact books

theorem grant (books : Books ledger table) (lock : Lock) :
    Records ledger [table.grantEvent lock] (table.grant lock) := by
  obtain ⟨edit, noted⟩ := books.edit_grant lock
  have result : ledger.replay [table.grantEvent lock] = ledger.put lock := noted
  constructor
  · rw [result]
    exact .next edit (.done _)
  · rw [result]
    exact books.grant lock

theorem remove (books : Books ledger table) (txn : Txn) (resource : Resource) :
    Records ledger (((table.entry resource).lockOf? txn).toList.map .released)
      (table.remove txn resource) := by
  obtain ⟨edits, replayed⟩ := books.edits_remove txn resource
  constructor
  · rw [replayed]
    exact edits
  · rw [replayed]
    exact books.remove txn resource

theorem moves {task : Task} {done : Step} (books : Books ledger table)
    (move : table.Moves task done) : Records ledger done.events done.table := by
  cases move with
  | rests blocked noted =>
    apply silent (books.prune _)
    intro event member
    obtain ⟨mode, held, rfl⟩ := noted event member
    rfl
  | serves head fits => exact grant (books.dequeue _) _
  | gives => exact remove books _ _
  | defers held => exact silent books (by simp)
  | skips gone => exact silent books (by simp [Event.changesGrants])
  | completes => exact silent books (by simp [Event.changesGrants])

theorem wait_silent (table : Table) (request : Request) (place : Place) :
    ∀ event ∈ table.noteConflict request.lock ++ (table.wait request place).events,
      event.changesGrants = false := by
  intro event member
  rcases List.mem_append.mp member with noted | waiting
  · obtain ⟨held, -, rfl⟩ := List.mem_map.mp noted
    rfl
  · simp only [Table.wait, List.mem_cons, List.not_mem_nil, or_false] at waiting
    rcases waiting with rfl | rfl <;> rfl

theorem opens {txn : Txn} {call : Call} {stage : Stage} {closing : Journal}
    (books : Books ledger table) (opens : table.Opens txn call stage closing) :
    Records ledger stage.journal stage.table := by
  cases opens with
  | acquireGranted | exchangeGranted | promoteGranted => exact grant books _
  | acquireQueued | exchangeQueued | promoteQueued =>
    exact silent (books.enqueue _ _) (wait_silent table ⟨_, _, _⟩ _)
  | releaseStarted => exact silent books (by simp)

theorem closing_silent {txn : Txn} {call : Call} {stage : Stage} {closing : Journal}
    (opens : table.Opens txn call stage closing) :
    ∀ event ∈ closing, event.changesGrants = false := by
  cases opens <;> simp [Event.changesGrants]

/-- At every stage of a call the ledger has followed the journal. -/
theorem leads {stage now : Stage} (start : Records ledger stage.journal stage.table)
    (path : stage.Leads now) : Records ledger now.journal now.table :=
  Stage.Leads.invariant (motive := fun table journal _ => Records ledger journal table)
    (fun before move => before.append (moves before.books move)) path start

theorem take (books : Books ledger table) (turn : Turn) :
    Records ledger (table.take turn).events (table.take turn).table := by
  refine Table.take_cases (motive := fun after => Records ledger after.events after.table)
    table turn (silent books (by simp)) fun stage closing started => ?_
  have ended := (opens books started).leads stage.leads_settled
  exact ended.append (silent ended.books (closing_silent started))

theorem run (books : Books ledger table) (turns : List Turn) :
    Records ledger (table.journal turns) (table.run turns) := by
  induction turns generalizing ledger table with
  | nil => exact silent books (by simp [Table.journal])
  | cons turn later ih =>
    have first := take books turn
    exact first.append (ih first.books)

end Records
end LockManager
