import Mathlib.Logic.Relation
import LockManager.Table.Calls

/-! A call under way, one task at a time. A call opens with a single change of the table and the
tasks it sets off, and each task makes one move. What every opening establishes and every move
keeps holds at every stage of every call. -/
namespace LockManager

namespace Table

/-- No lock that another transaction holds on the resource stands against this one. -/
def Fits (table : Table) (resource : Resource) (lock : Lock) : Prop :=
  ∀ held ∈ table.locksOn resource, held.owner ≠ lock.owner →
    lock.mode.compatible held.mode = true

/-- The next in line, if there is one, waits for a lock that another transaction holds. -/
def Rests (table : Table) (resource : Resource) : Prop :=
  ∀ request ∈ (table.queueOf resource).head?, ∃ held ∈ table.locksOn resource,
    held.owner ≠ request.owner ∧ request.lock.mode.compatible held.mode = false

/-- What a task can do, with what it finds. -/
inductive Moves (table : Table) : Task → Step → Prop
  | rests (blocked : table.Rests resource)
      (noted : ∀ event ∈ events, ∃ mode held, event = .conflict mode held) :
      Moves table (.drain resource) { table := table.prune resource, events }
  | serves (head : table.queueOf resource = request :: rest)
      (fits : table.Fits resource request.lock) :
      Moves table (.drain resource)
        { table := (table.dequeue resource).grant request.lock
          events := [(table.dequeue resource).grantEvent request.lock]
          next := Task.afterGrant request resource }
  | gives :
      Moves table (.release txn resource)
        { table := table.remove txn resource
          events := ((table.entry resource).lockOf? txn).toList.map .released
          next := [.drain resource] }
  | defers (held : (table.heldLock? lock.owner lock.resource).isSome) :
      Moves table (.deferred request lock)
        { table, next := [.release lock.owner lock.resource] }
  | skips (gone : table.heldLock? lock.owner lock.resource = none) :
      Moves table (.deferred request lock) { table, events := [.staleRelease request lock] }
  | completes :
      Moves table (.commit request) { table, events := [.committed request, .woken request.caller] }

end Table

namespace Entry

theorem conflict?_eq_none_iff {entry : Entry} {mode : Mode} {txn : Txn} :
    entry.conflict? mode txn = none ↔
      ∀ held ∈ entry.active, held.owner ≠ txn → mode.compatible held.mode = true := by
  simp [conflict?, List.find?_eq_none]

theorem conflict?_some {entry : Entry} {mode : Mode} {txn : Txn} {held : Lock}
    (found : entry.conflict? mode txn = some held) :
    held ∈ entry.active ∧ held.owner ≠ txn ∧ mode.compatible held.mode = false := by
  refine ⟨List.mem_of_find?_eq_some found, ?_⟩
  simpa using List.find?_some found

end Entry

namespace Table

theorem admits_iff {table : Table} {lock : Lock} :
    table.admits lock = true ↔ table.Fits lock.resource lock := by
  rw [admits, Entry.admits, Option.isNone_iff_eq_none, Entry.conflict?_eq_none_iff]
  rfl

/-- The lock that the journal notes as standing in the way does stand in the way. -/
theorem exists_conflict {table : Table} {lock : Lock} (refused : table.admits lock = false) :
    ∃ held ∈ table.locksOn lock.resource,
      held.owner ≠ lock.owner ∧ lock.mode.compatible held.mode = false := by
  rw [admits, Entry.admits, Option.isNone_eq_false_iff] at refused
  obtain ⟨held, found⟩ := Option.isSome_iff_exists.mp refused
  exact ⟨held, Entry.conflict?_some found⟩

theorem mustQueue_eq_false_iff {table : Table} {lock : Lock} :
    table.mustQueue lock = false ↔
      table.Fits lock.resource lock ∧ table.queueOf lock.resource = [] := by
  rw [mustQueue, Bool.or_eq_false_iff, Bool.not_eq_false', Bool.not_eq_false', admits_iff,
    List.isEmpty_iff]

theorem rests_of_queueOf_eq_nil {table : Table} {resource : Resource}
    (idle : table.queueOf resource = []) : table.Rests resource := by
  simp [Rests, idle]

theorem moves_step (table : Table) (task : Task) : table.Moves task (table.step task) := by
  cases task with
  | drain resource =>
    simp only [step]
    split
    · next idle => exact .rests (rests_of_queueOf_eq_nil idle) (by simp)
    · next request rest head =>
      split
      · next held found =>
        refine .rests ?_ ?_
        · intro first next
          rw [head, List.head?_cons, Option.mem_some_iff] at next
          subst next
          exact ⟨held, Entry.conflict?_some found⟩
        · intro event member
          exact ⟨_, held, List.mem_singleton.mp member⟩
      · next none => exact .serves head (Entry.conflict?_eq_none_iff.mp none)
  | release txn resource => exact .gives
  | deferred request lock =>
    simp only [step]
    split
    · next held => exact .defers held
    · next gone => exact .skips (by simpa using gone)
  | commit request => exact .completes

end Table

/-- A call under way: the table, what happened so far, and the tasks that are left. -/
structure Stage where
  table : Table
  journal : Journal
  tasks : List Task

namespace Stage

/-- The first task is done, and what it sets off comes before the others. -/
inductive Next : Stage → Stage → Prop
  | task (table : Table) (journal : Journal) (task : Task) (later : List Task) :
      Next ⟨table, journal, task :: later⟩
        ⟨(table.step task).table, journal ++ (table.step task).events,
          (table.step task).next ++ later⟩

abbrev Leads : Stage → Stage → Prop := Relation.ReflTransGen Next

/-- How the call goes on to its end. -/
def settled (stage : Stage) : Outcome :=
  let rest := stage.table.settle stage.tasks
  ⟨rest.table, stage.journal ++ rest.events⟩

theorem settled_cons (table : Table) (journal : Journal) (task : Task) (later : List Task) :
    settled ⟨table, journal, task :: later⟩ =
      settled ⟨(table.step task).table, journal ++ (table.step task).events,
        (table.step task).next ++ later⟩ := by
  simp only [settled, Table.settle_cons, List.append_assoc]

/-- The first tasks are done, with all that they set off, while the others wait. -/
theorem leads_settle (table : Table) (journal : Journal) (first below : List Task) :
    Leads ⟨table, journal, first ++ below⟩
      ⟨(table.settle first).table, journal ++ (table.settle first).events, below⟩ := by
  fun_induction Table.settle table first generalizing journal with
  | case1 table => simpa using .refl
  | case2 table task later done rest ih =>
    refine .head (.task table journal task (later ++ below)) ?_
    simpa only [List.append_assoc] using ih (journal ++ done.events)

theorem leads_settled (stage : Stage) :
    stage.Leads ⟨stage.settled.table, stage.settled.events, []⟩ := by
  simpa only [settled, List.append_nil] using leads_settle stage.table stage.journal stage.tasks []

/-- What every move keeps holds at each stage that follows. -/
theorem Leads.invariant {motive : Table → Journal → List Task → Prop}
    (keeps : ∀ {table journal task later done}, motive table journal (task :: later) →
      table.Moves task done → motive done.table (journal ++ done.events) (done.next ++ later))
    {stage now : Stage} (path : stage.Leads now)
    (initial : motive stage.table stage.journal stage.tasks) :
    motive now.table now.journal now.tasks := by
  induction path with
  | refl => exact initial
  | tail _ last ih =>
    cases last with
    | task table journal task later => exact keeps ih (table.moves_step task)

end Stage
end LockManager
