import Mathlib.Data.Fintype.Order
import Mathlib.Data.Set.Finite.List
import LockManager.Proofs.Pledges
import LockManager.Proofs.Tidy

/-! Deadlock. A transaction waits for those who hold a conflicting lock and for those ahead of it in
the queue. Nothing that happens during a call adds to whom anybody waits for, and transactions that
wait for each other are never served. So once everybody who can has given all locks back, the table
is empty, unless some transactions waited for each other from the start. -/
namespace LockManager
open Std

/-- No member of a finite set waits for ever without a cycle. -/
theorem exists_cycle {α : Type} {step : α → α → Prop} {members : List α} (some : members ≠ [])
    (next : ∀ a ∈ members, ∃ b ∈ members, step a b) : ∃ a, Relation.TransGen step a a := by
  by_contra none
  let Member := { a // a ∈ members }
  let reaches (b a : Member) : Prop := Relation.TransGen step a.1 b.1
  have finite : Finite Member := members.finite_toSet.to_subtype
  have transitive : IsTrans Member reaches := ⟨fun _ _ _ first second => second.trans first⟩
  have irreflexive : Std.Irrefl reaches := ⟨fun a cycle => none ⟨a.1, cycle⟩⟩
  have founded : WellFounded reaches := Finite.wellFounded_of_trans_of_irrefl reaches
  obtain ⟨first, member⟩ := List.exists_mem_of_ne_nil members some
  refine founded.induction (C := fun _ => False) ⟨first, member⟩ fun a ih => ?_
  obtain ⟨b, there, edge⟩ := next a.1 a.2
  exact ih ⟨b, there⟩ (.single edge)

namespace Entry

/-- The number of locks and requests on a resource. -/
def load (entry : Entry) : Nat := entry.active.length + entry.queue.length

theorem load_empty : load {} = 0 := rfl

theorem load_grant (entry : Entry) (lock : Lock) : (entry.grant lock).load ≤ entry.load + 1 := by
  rw [load, queue_grant, grant, load]
  split
  · rw [Lock.length_switchFirst]
    omega
  · rw [List.length_append, List.length_singleton]
    omega

theorem load_remove (entry : Entry) (txn : Txn) : (entry.remove txn).load ≤ entry.load ∧
    ((∃ held ∈ entry.active, held.owner = txn) → (entry.remove txn).load < entry.load) := by
  simp only [load, remove]
  constructor
  · have fewer := List.length_eraseP_le (p := fun held => decide (held.owner = txn))
      (l := entry.active)
    omega
  · rintro ⟨held, here, mine⟩
    have fewer := List.length_eraseP_of_mem (p := fun held => decide (held.owner = txn)) here
      (decide_eq_true mine)
    have some := List.length_pos_of_mem here
    omega

end Entry

def Acyclic {α : Type} (step : α → α → Prop) : Prop := ∀ a, ¬ Relation.TransGen step a a

namespace Table

/-- Whom a transaction with a request in a queue waits for. -/
inductive WaitsFor (table : Table) (txn other : Txn) : Prop
  /-- The other one has a lock that the requested one may not stand beside. -/
  | holder {resource : Resource} {request : Request} {held : Lock}
      (queued : request ∈ table.queueOf resource) (mine : request.owner = txn)
      (here : held ∈ table.locksOn resource) (theirs : held.owner = other) (different : other ≠ txn)
      (conflict : request.lock.mode.compatible held.mode = false)
  /-- The other one has a request ahead in the queue. -/
  | ahead {resource : Resource} {earlier request : Request}
      (order : [earlier, request].Sublist (table.queueOf resource)) (mine : request.owner = txn)
      (theirs : earlier.owner = other)

/-- A transaction that is not waiting gives back a lock. -/
inductive GivesBack (table : Table) : Table → Prop
  | release {txn : Txn} {resource : Resource} (idle : table.isWaiting txn = false)
      (held : table.Holds txn resource) :
      GivesBack table (table.take ⟨txn, .release resource⟩).table

/-- The number of locks held on all resources. -/
def heldCount (table : Table) : Nat := table.tally fun entry => entry.active.length

/-- The number of requests in all queues. -/
def queuedCount (table : Table) : Nat := table.tally fun entry => entry.queue.length

/-- Each of these transactions waits for another one of them. -/
def Knot (table : Table) (stuck : Txn → Prop) : Prop :=
  ∀ txn, stuck txn → ∃ other, stuck other ∧ table.WaitsFor txn other

variable {table after : Table} {txn other : Txn} {task : Task} {tasks : List Task} {done : Step}

theorem mem_waiters : txn ∈ table.waiters ↔ table.isWaiting txn = true := by
  simp [waiters, isWaiting, Entry.isWaiting]

namespace WaitsFor

theorem isWaiting (waits : table.WaitsFor txn other) : table.isWaiting txn = true := by
  cases waits with
  | holder queued mine => exact isWaiting_iff.mpr ⟨_, _, queued, mine⟩
  | ahead order mine => exact isWaiting_iff.mpr ⟨_, _, order.subset (by simp), mine⟩

/-- A transaction waits on while its request and what stands in its way are there. -/
theorem mono (waits : table.WaitsFor txn other)
    (queued : ∀ resource, ∀ request ∈ table.queueOf resource, request.owner = txn →
      request ∈ after.queueOf resource)
    (order : ∀ resource earlier request, [earlier, request].Sublist (table.queueOf resource) →
      request.owner = txn → earlier.owner = other →
        [earlier, request].Sublist (after.queueOf resource))
    (locks : ∀ resource, ∀ held ∈ table.locksOn resource, held.owner = other →
      held ∈ after.locksOn resource) : after.WaitsFor txn other := by
  cases waits with
  | holder inQueue mine here theirs different conflict =>
    exact .holder (queued _ _ inQueue mine) mine (locks _ _ here theirs) theirs different conflict
  | ahead stands mine theirs => exact .ahead (order _ _ _ stands mine theirs) mine theirs

/-- A move adds nobody to those a transaction waits for: whoever is served was ahead of all who
wait for the new lock. -/
theorem of_moves (waits : done.table.WaitsFor txn other) (regular : table.Regular)
    (move : table.Moves task done) : table.WaitsFor txn other := by
  have fewer := move.queueOf_sublist
  cases waits with
  | ahead order mine theirs => exact .ahead (order.trans (fewer _)) mine theirs
  | @holder resource request held queued mine here theirs different conflict =>
    have before := (fewer resource).subset queued
    have still (known : held ∈ table.locksOn resource) : table.WaitsFor txn other :=
      .holder before mine known theirs different conflict
    cases move with
    | rests => exact still (by simpa using here)
    | defers | skips | completes => exact still here
    | @gives giver released =>
      by_cases same : resource = released
      · rw [locksOn, entry_remove, if_pos same] at here
        exact still (List.mem_of_mem_eraseP here)
      · rw [locksOn_remove_of_ne table giver same] at here
        exact still here
    | @serves drained served rest head fits =>
      obtain ⟨ledger, books⟩ := (regular.dequeue drained).books
      rw [books.locksOn_grant, locksOn_dequeue] at here
      split at here
      · next same =>
        rcases Ledger.mem_put here with rfl | ⟨known, -⟩
        · -- The new lock was asked for by the request that stood first.
          rw [queueOf_grant, queueOf_dequeue, same, (regular.filed_head head).here, if_pos rfl,
            head] at queued
          refine @WaitsFor.ahead _ _ _ drained served request ?_ mine theirs
          rw [head]
          exact (List.singleton_sublist.mpr queued).cons_cons served
        · exact still known
      · exact still here

/-- Whoever is served waited for nobody. -/
theorem not_of_served {resource : Resource} {request : Request} {rest : List Request}
    (one : OneRequestEach table.queueOf) (head : table.queueOf resource = request :: rest)
    (fits : table.Fits resource request.lock) : ¬ table.WaitsFor request.owner other := by
  have inQueue : request ∈ table.queueOf resource := head ▸ List.mem_cons_self
  have single := one.within resource
  rw [head, List.map_cons, List.nodup_cons] at single
  intro waits
  cases waits with
  | @holder there waiting held queued mine here theirs different conflict =>
    obtain rfl : there = resource := one.across waiting queued request inQueue mine
    rw [head] at queued
    rcases List.mem_cons.mp queued with rfl | behind
    · rw [fits held here (theirs ▸ different)] at conflict
      contradiction
    · exact single.1 (mine ▸ List.mem_map_of_mem behind)
  | @ahead there earlier waiting order mine theirs =>
    have queued : waiting ∈ table.queueOf there := order.subset (by simp)
    obtain rfl : there = resource := one.across waiting queued request inQueue mine
    rw [head] at order
    have behind : waiting ∈ rest := by
      cases order with
      | cons _ later => exact later.subset (by simp)
      | cons_cons _ later => exact List.singleton_sublist.mp later
    exact single.1 (mine ▸ List.mem_map_of_mem behind)

/-- Serving somebody else leaves it as it is whom a transaction waits for. -/
theorem serve (waits : table.WaitsFor txn other) (regular : table.Regular) {resource : Resource}
    {served : Request} {rest : List Request} (head : table.queueOf resource = served :: rest)
    (neither : served.owner ≠ txn ∧ served.owner ≠ other) :
    ((table.dequeue resource).grant served.lock).WaitsFor txn other := by
  obtain ⟨ledger, books⟩ := (regular.dequeue resource).books
  refine waits.mono (fun place request queued mine => ?_)
    (fun place earlier request order mine theirs => ?_) (fun place held here theirs => ?_)
  · rw [queueOf_grant, queueOf_dequeue]
    split
    · next same =>
      rw [same, head] at queued
      rw [same, head]
      refine (List.mem_cons.mp queued).resolve_left ?_
      rintro rfl
      exact neither.1 mine
    · exact queued
  · rw [queueOf_grant, queueOf_dequeue]
    split
    · next same =>
      rw [same, head] at order
      rw [same, head]
      refine order.of_cons_of_ne ?_
      rintro rfl
      exact neither.2 theirs
    · exact order
  · rw [books.locksOn_grant, locksOn_dequeue]
    split
    · refine Ledger.mem_put_of_mem here (Bool.eq_false_iff.mpr fun same => ?_)
      exact neither.2 ((Lock.sameGrant_iff.mp same).1.symm.trans theirs)
    · exact here

end WaitsFor

/-! ### Knots -/

theorem Knot.isWaiting {stuck : Txn → Prop} (knot : table.Knot stuck) (member : stuck txn) :
    table.isWaiting txn = true := by
  obtain ⟨other, -, waits⟩ := knot txn member
  exact waits.isWaiting

/-- Nobody in a knot is served, and nobody in it gives anything back. -/
theorem Knot.moves {stuck : Txn → Prop} (knot : table.Knot stuck)
    (sound : table.Sound (task :: tasks)) (move : table.Moves task done) :
    done.table.Knot stuck := by
  intro txn member
  obtain ⟨other, also, waits⟩ := knot txn member
  refine ⟨other, also, ?_⟩
  cases move with
  | rests =>
    exact waits.mono (by simp +contextual) (by simp +contextual) (by simp +contextual)
  | defers | skips | completes => exact waits
  | @gives giver resource =>
    have pledged : (giver, resource) ∈ Task.pledges (.release giver resource :: tasks) :=
      List.mem_cons_self
    have idle : table.isWaiting giver = false := sound.idle_of_pledge pledged
    refine waits.mono (by simp +contextual) (by simp +contextual) fun place held here theirs => ?_
    rw [locksOn, entry_remove]
    split
    · refine (List.mem_eraseP_of_neg ?_).mpr here
      rw [decide_eq_true_eq]
      rintro rfl
      rw [theirs, knot.isWaiting also] at idle
      contradiction
    · exact here
  | @serves _ served _ head fits =>
    have unserved : ∀ txn, stuck txn → served.owner ≠ txn := by
      rintro _ member rfl
      obtain ⟨_, _, waits⟩ := knot _ member
      exact waits.not_of_served sound.one head fits
    exact waits.serve sound.regular head ⟨unserved txn member, unserved other also⟩

/-- Whoever is on a cycle waits for someone on a cycle. -/
theorem knot_of_cycles (table : Table) :
    table.Knot fun txn => Relation.TransGen table.WaitsFor txn txn := by
  intro txn cycle
  obtain ⟨other, edge, back⟩ := Relation.TransGen.head'_iff.mp cycle
  exact ⟨other, .tail' back edge, edge⟩

/-! ### How much there is to give back -/

theorem heldCount_add_queuedCount (table : Table) :
    table.heldCount + table.queuedCount = table.tally Entry.load := by
  simp only [heldCount, queuedCount, tally, ← List.sum_eq_foldr]
  rw [← List.sum_map_add]
  rfl

theorem load_grant (table : Table) (lock : Lock) :
    (table.grant lock).tally Entry.load ≤ table.tally Entry.load + 1 := by
  have moved := tally_add_weight table (table.grant lock) Entry.load_empty lock.resource fun key other => by
    simp [grant, ExtTreeMap.getElem?_insert, Ne.symm other]
  have more := Entry.load_grant (table.entry lock.resource) lock
  rw [entry_grant, if_pos rfl] at moved
  omega

theorem load_dequeue (table : Table) {resource : Resource} {request : Request}
    {rest : List Request} (head : table.queueOf resource = request :: rest) :
    (table.dequeue resource).tally Entry.load + 1 = table.tally Entry.load := by
  have moved := tally_add_weight table (table.dequeue resource) Entry.load_empty resource
    fun _ other => getElem?_modify_of_ne _ _ other
  have less : ((table.dequeue resource).entry resource).load + 1 = (table.entry resource).load := by
    rw [queueOf] at head
    simp [entry_dequeue, Entry.load, head]
    omega
  omega

theorem load_remove (table : Table) (txn : Txn) (resource : Resource) :
    (table.remove txn resource).tally Entry.load ≤ table.tally Entry.load ∧
      ((∃ held ∈ table.locksOn resource, held.owner = txn) →
        (table.remove txn resource).tally Entry.load < table.tally Entry.load) := by
  have moved := tally_add_weight table (table.remove txn resource) Entry.load_empty resource
    fun _ other => getElem?_modify_of_ne _ _ other
  have less := Entry.load_remove (table.entry resource) txn
  rw [entry_remove, if_pos rfl] at moved
  refine ⟨by omega, fun present => ?_⟩
  have strictly := less.2 present
  omega

theorem Moves.load_le (move : table.Moves task done) :
    done.table.tally Entry.load ≤ table.tally Entry.load := by
  cases move with
  | rests => exact (tally_prune Entry.load_empty table _).le
  | defers | skips | completes => exact Nat.le_refl _
  | @gives txn resource => exact (load_remove table txn resource).1
  | @serves resource request rest head fits =>
    have taken := load_dequeue table head
    have granted := load_grant (table.dequeue resource) request.lock
    exact granted.trans taken.le

theorem load_leads {stage now : Stage} (path : stage.Leads now) :
    now.table.tally Entry.load ≤ stage.table.tally Entry.load :=
  path.invariant
    (motive := fun table _ _ => table.tally Entry.load ≤ stage.table.tally Entry.load)
    (fun before move => move.load_le.trans before) (Nat.le_refl _)

/-! ### Giving back -/

/-- The table comes from a disciplined run. -/
def Arises (table : Table) : Prop :=
  ∃ turns, Table.empty.Disciplined turns ∧ table = Table.empty.run turns

theorem Arises.take (arises : table.Arises) {turn : Turn} (idle : table.isWaiting turn.txn = false) :
    (table.take turn).table.Arises := by
  obtain ⟨turns, disciplined, rfl⟩ := arises
  refine ⟨turns ++ [turn], disciplined.append ⟨idle, trivial⟩, ?_⟩
  rw [run_append, run_cons, run_nil]

namespace GivesBack

theorem leads (back : table.GivesBack after) : ∃ txn resource journal,
    table.isWaiting txn = false ∧ (table.heldLock? txn resource).isSome ∧
      Stage.Leads ⟨table, [], [.release txn resource]⟩ ⟨after, journal, []⟩ := by
  cases back with
  | @release txn resource idle held =>
    have found := isSome_heldLock?_iff.mpr held
    have accepted := call_ok_iff.mpr ⟨_, _, .releaseStarted found, rfl⟩
    let stage : Stage := ⟨table, [], [.release txn resource]⟩
    refine ⟨txn, resource, stage.settled.events, idle, found, ?_⟩
    rw [take, accepted]
    exact stage.leads_settled

theorem arises (back : table.GivesBack after) (arises : table.Arises) : after.Arises := by
  cases back with
  | release idle held => exact arises.take idle

theorem keeps {motive : Table → Prop}
    (moves : ∀ {table : Table} {task : Task} {tasks : List Task} {done : Step},
      table.Sound (task :: tasks) → motive table → table.Moves task done → motive done.table)
    (sound : table.Sound []) (back : table.GivesBack after) (initial : motive table) :
    motive after := by
  obtain ⟨txn, resource, journal, idle, held, path⟩ := back.leads
  have both := path.invariant (motive := fun table _ tasks => table.Sound tasks ∧ motive table)
    (fun before move => ⟨before.1.moves move, moves before.1 before.2 move⟩)
    ⟨sound.opens idle (.releaseStarted held), initial⟩
  exact both.2

/-- The lock that is given back is gone for good, and whoever is served had its request counted. -/
theorem load_lt (regular : table.Regular) (back : table.GivesBack after) :
    after.tally Entry.load < table.tally Entry.load := by
  obtain ⟨txn, resource, journal, -, held, path⟩ := back.leads
  rcases path.cases_head with same | ⟨middle, first, rest⟩
  · cases congrArg Stage.tasks same
  · cases first
    obtain ⟨ledger, books⟩ := regular.books
    obtain ⟨lock, found⟩ := Option.isSome_iff_exists.mp held
    obtain ⟨known, mine, here⟩ := books.mem_of_heldLock? found
    have less := (load_remove table txn resource).2 ⟨lock, books.mem_locksOn.mpr ⟨known, here⟩, mine⟩
    exact (load_leads rest).trans_lt less

end GivesBack

namespace Arises

theorem sound (arises : table.Arises) : table.Sound [] := by
  obtain ⟨turns, disciplined, rfl⟩ := arises
  exact .run disciplined

theorem attended (arises : table.Arises) : table.Attended [] := by
  obtain ⟨turns, -, rfl⟩ := arises
  exact .run turns

theorem tidy (arises : table.Arises) : Tidy table [] := by
  obtain ⟨turns, -, rfl⟩ := arises
  exact .run turns

/-- What moves keep on tables of disciplined runs holds as long as locks are given back. -/
theorem keeps {motive : Table → Prop}
    (moves : ∀ {table : Table} {task : Task} {tasks : List Task} {done : Step},
      table.Sound (task :: tasks) → motive table → table.Moves task done → motive done.table)
    {count : Nat} (arises : table.Arises) (path : Steps GivesBack count table after)
    (initial : motive table) : motive after := by
  induction path with
  | refl => exact initial
  | next back rest ih => exact ih (back.arises arises) (back.keeps moves arises.sound initial)

theorem steps {count : Nat} (arises : table.Arises) (path : Steps GivesBack count table after) :
    after.Arises := by
  induction path with
  | refl => exact arises
  | next back rest ih => exact ih (back.arises arises)

end Arises

theorem count_le_load {count : Nat} (arises : table.Arises)
    (path : Steps GivesBack count table after) : count ≤ table.tally Entry.load := by
  induction path with
  | refl => exact Nat.zero_le _
  | next head rest ih =>
    have later := ih (head.arises arises)
    exact Nat.succ_le_of_lt (later.trans_lt (head.load_lt arises.sound.regular))

theorem Knot.stays {count : Nat} {stuck : Txn → Prop} (knot : table.Knot stuck)
    (arises : table.Arises) (path : Steps GivesBack count table after) : after.Knot stuck :=
  arises.keeps (motive := fun table => table.Knot stuck)
    (fun sound before move => before.moves sound move) path knot

/-- Whoever waits for another one at the end did so from the start. -/
theorem WaitsFor.earlier {count : Nat} (waits : after.WaitsFor txn other) (arises : table.Arises)
    (path : Steps GivesBack count table after) : table.WaitsFor txn other :=
  arises.keeps
    (motive := fun now => ∀ {txn other}, now.WaitsFor txn other → table.WaitsFor txn other)
    (fun sound before move _ _ waits => before (waits.of_moves sound.regular move)) path id waits

/-! ### When nobody can give anything back -/

theorem isWaiting_of_holds (final : Final GivesBack table) {resource : Resource}
    (held : table.Holds txn resource) : table.isWaiting txn = true := by
  by_contra idle
  exact final _ (.release (by simpa using idle) held)

theorem final_of_holders_wait (waiting : ∀ txn ∈ table.holdings.keys, table.isWaiting txn = true) :
    Final GivesBack table := by
  intro next back
  cases back with
  | @release txn resource idle held =>
    obtain ⟨lock, member, -⟩ := held
    have holder : txn ∈ table.holdings.keys := by
      rw [ExtTreeMap.mem_keys]
      by_contra absent
      rw [locksHeldBy, ExtTreeMap.getD_eq_fallback absent] at member
      cases member
    rw [waiting txn holder] at idle
    contradiction

/-- Everybody who waits then waits for somebody who waits. -/
theorem waits_for_waiter (arises : table.Arises) (final : Final GivesBack table)
    (waiting : table.isWaiting txn = true) :
    ∃ other, other ≠ txn ∧ table.isWaiting other = true ∧ table.WaitsFor txn other := by
  obtain ⟨resource, request, queued, rfl⟩ := isWaiting_iff.mp waiting
  cases queue : table.queueOf resource with
  | nil =>
    rw [queue] at queued
    cases queued
  | cons first rest =>
    rw [queue] at queued
    rcases List.mem_cons.mp queued with rfl | behind
    · obtain ⟨held, here, different, conflict⟩ :=
        arises.attended.rests resource request (by rw [queue]; rfl)
      obtain ⟨ledger, books⟩ := arises.sound.regular.books
      obtain ⟨known, rfl⟩ := books.mem_locksOn.mp here
      have holds : table.Holds held.owner held.resource :=
        ⟨held, books.mem_locksHeldBy.mpr ⟨known, rfl⟩, rfl⟩
      have member : request ∈ table.queueOf held.resource := queue ▸ List.mem_cons_self
      exact ⟨held.owner, different, isWaiting_of_holds final holds,
        .holder member rfl here rfl different conflict⟩
    · have single := arises.sound.one.within resource
      rw [queue, List.map_cons, List.nodup_cons] at single
      have order : [first, request].Sublist (table.queueOf resource) :=
        queue ▸ (List.singleton_sublist.mpr behind).cons_cons first
      refine ⟨first.owner, ?_, ?_, .ahead order rfl rfl⟩
      · rintro same
        exact single.1 (same ▸ List.mem_map_of_mem behind)
      · exact isWaiting_iff.mpr ⟨resource, first, queue ▸ List.mem_cons_self, rfl⟩

theorem quiet_iff_acyclic {count : Nat} (arises : table.Arises)
    (path : Steps GivesBack count table after) (final : Final GivesBack after) :
    (∀ txn, after.isWaiting txn = false) ↔ Acyclic table.WaitsFor := by
  constructor
  · -- Transactions on a cycle are a knot, and still wait at the end.
    intro quiet txn cycle
    have waiting := ((knot_of_cycles table).stays arises path).isWaiting cycle
    rw [quiet] at waiting
    contradiction
  · -- Those who wait at the end wait for each other, as they did at the start.
    intro acyclic
    by_contra busy
    obtain ⟨txn, waiting⟩ : ∃ txn, after.isWaiting txn = true := by simpa using busy
    obtain ⟨start, cycle⟩ : ∃ txn, Relation.TransGen after.WaitsFor txn txn :=
      exists_cycle (List.ne_nil_of_mem (mem_waiters.mpr waiting)) fun txn member => by
        obtain ⟨other, -, also, waits⟩ :=
          waits_for_waiter (arises.steps path) final (mem_waiters.mp member)
        exact ⟨other, mem_waiters.mpr also, waits⟩
    exact acyclic start (cycle.lift id fun _ _ waits => waits.earlier arises path)

theorem eq_empty (arises : table.Arises) (final : Final GivesBack table)
    (quiet : ∀ txn, table.isWaiting txn = false) : table = .empty := by
  obtain ⟨ledger, books⟩ := arises.sound.regular.books
  have unheld (txn : Txn) : table.locksHeldBy txn = [] := by
    refine List.eq_nil_iff_forall_not_mem.mpr fun lock member => ?_
    have waiting := isWaiting_of_holds final ⟨lock, member, rfl⟩
    rw [quiet] at waiting
    contradiction
  have unlocked (resource : Resource) : table.locksOn resource = [] := by
    refine List.eq_nil_iff_forall_not_mem.mpr fun lock member => ?_
    have held := books.mem_locksHeldBy.mpr ⟨(books.mem_locksOn.mp member).1, rfl⟩
    rw [unheld] at held
    cases held
  have unqueued (resource : Resource) : table.queueOf resource = [] := by
    refine List.eq_nil_iff_forall_not_mem.mpr fun request member => ?_
    exact isWaiting_eq_false_iff.mp (quiet request.owner) resource request member rfl
  have entries : table.entries = ∅ := ExtTreeMap.eq_empty_iff_forall_not_mem.mpr
    fun resource => by simp [arises.tidy.mem_entries, unlocked, unqueued]
  have holdings : table.holdings = ∅ := ExtTreeMap.eq_empty_iff_forall_not_mem.mpr
    fun txn => by simp [arises.tidy.mem_holdings, unheld]
  obtain ⟨_, _⟩ := table
  exact congrArg₂ Table.mk entries holdings

end Table

/-- Whoever can gives locks back, in any order, until nobody can. This comes to an end, and the
table is then empty, unless some transactions waited for each other from the start; in that case
whoever is left waits for another one that is left. -/
theorem drains_unless_deadlocked {turns : List Turn} (disciplined : Table.empty.Disciplined turns)
    {count : Nat} {last : Table} (path : Steps Table.GivesBack count (Table.empty.run turns) last) :
    count ≤ (Table.empty.run turns).heldCount + (Table.empty.run turns).queuedCount ∧
    (Final Table.GivesBack last →
      ((last = .empty ∧ ∀ txn, last.isWaiting txn = false) ↔
        Acyclic (Table.empty.run turns).WaitsFor) ∧
      (¬ Acyclic (Table.empty.run turns).WaitsFor →
        (∃ txn, last.isWaiting txn = true) ∧ ∀ txn, last.isWaiting txn = true →
          ∃ other, other ≠ txn ∧ last.isWaiting other = true ∧ last.WaitsFor txn other)) := by
  have arises : (Table.empty.run turns).Arises := ⟨turns, disciplined, rfl⟩
  have ends := arises.steps path
  constructor
  · rw [Table.heldCount_add_queuedCount]
    exact Table.count_le_load arises path
  · intro final
    have quiet_iff := Table.quiet_iff_acyclic arises path final
    refine ⟨⟨fun drained => quiet_iff.mp drained.2, fun acyclic => ?_⟩, fun cyclic => ⟨?_, ?_⟩⟩
    · have quiet := quiet_iff.mpr acyclic
      exact ⟨Table.eq_empty ends final quiet, quiet⟩
    · simpa using mt quiet_iff.mp cyclic
    · exact fun txn waiting => Table.waits_for_waiter ends final waiting

namespace Sample

/-- Each of the two has what the other one waits for. -/
def standoff : List Turn :=
  [⟨⟨1⟩, .acquire orders .exclusive⟩, ⟨⟨2⟩, .acquire stock .exclusive⟩,
    ⟨⟨1⟩, .acquire stock .shared⟩, ⟨⟨2⟩, .acquire orders .shared⟩]

end Sample

/-- After the exchange four releases empty the table, so no transactions waited for each other. In
the standoff nobody can release anything, and the first waits for one that waits itself. -/
theorem queuedExchange_drains :
    4 ≤ (Table.empty.run Sample.queuedExchange).heldCount +
        (Table.empty.run Sample.queuedExchange).queuedCount ∧
      Acyclic (Table.empty.run Sample.queuedExchange).WaitsFor ∧
      ¬ Acyclic (Table.empty.run Sample.standoff).WaitsFor ∧
      ∃ other, other ≠ ⟨1⟩ ∧ (Table.empty.run Sample.standoff).WaitsFor ⟨1⟩ other := by
  let returns : List Turn := [⟨⟨1⟩, .release Sample.orders⟩, ⟨⟨2⟩, .release Sample.orders⟩,
    ⟨⟨4⟩, .release Sample.orders⟩, ⟨⟨3⟩, .release Sample.stock⟩]
  let drained := (Table.empty.run Sample.queuedExchange).run returns
  let stuck := Table.empty.run Sample.standoff
  have gives {table : Table} {txn : Txn} {resource : Resource}
      (idle : table.isWaiting txn = false) (held : (table.heldLock? txn resource).isSome) :
      table.GivesBack (table.take ⟨txn, .release resource⟩).table :=
    .release idle (Table.isSome_heldLock?_iff.mp held)
  have path : Steps Table.GivesBack 4 (Table.empty.run Sample.queuedExchange) drained :=
    .next (gives (by decide +kernel) (by decide +kernel)) <|
      .next (gives (by decide +kernel) (by decide +kernel)) <|
        .next (gives (by decide +kernel) (by decide +kernel)) <|
          .next (gives (by decide +kernel) (by decide +kernel)) (.refl drained)
  have disciplined : Table.empty.Disciplined Sample.queuedExchange ∧
      Table.empty.Disciplined Sample.standoff := by
    decide +kernel
  have arises : drained.Arises := Table.Arises.steps ⟨_, disciplined.1, rfl⟩ path
  have final : Final Table.GivesBack drained ∧ Final Table.GivesBack stuck :=
    ⟨Table.final_of_holders_wait (by decide +kernel),
      Table.final_of_holders_wait (by decide +kernel)⟩
  have nobody : drained.waiters = [] := by
    decide +kernel
  have quiet : ∀ txn, drained.isWaiting txn = false := fun txn => by
    rw [Bool.eq_false_iff, ne_eq, ← Table.mem_waiters, nobody]
    exact List.not_mem_nil
  have waiting : stuck.isWaiting ⟨1⟩ = true := by
    decide +kernel
  obtain ⟨bound, ends⟩ := drains_unless_deadlocked disciplined.1 path
  have stays := (drains_unless_deadlocked disciplined.2 (.refl stuck)).2 final.2
  have cyclic : ¬ Acyclic stuck.WaitsFor := by
    intro acyclic
    rw [(stays.1.mpr acyclic).2] at waiting
    contradiction
  obtain ⟨other, different, -, waits⟩ := (stays.2 cyclic).2 ⟨1⟩ waiting
  exact ⟨bound, (ends final.1).1.mp ⟨Table.eq_empty arises final.1 quiet, quiet⟩, cyclic, other,
    different, waits⟩

end LockManager
