import LockManager.Proofs.Refusals
import LockManager.Proofs.Settlement
import LockManager.Proofs.Wakeups

/-! Pledges. A waiting request names locks that its owner is to give back, and a task under way
carries out what was named. In a disciplined run the locks of a transaction stay as they are while
it waits, so what a request says of them when it is made still holds when it is granted, and no
release comes too late. -/
namespace LockManager

/-- The lock that the task is to give back. -/
def Task.pledge? : Task → Option (Txn × Resource)
  | .release txn resource => some (txn, resource)
  | .deferred _ lock => some lock.key
  | .drain _ | .commit _ => none

/-- The locks that are still to be given back, in order. -/
def Task.pledges (tasks : List Task) : List (Txn × Resource) := tasks.filterMap pledge?

/-- The resources that the call gives up by name. -/
def Call.gives : Call → List Resource
  | .exchange _ _ releases => releases
  | .release resource => [resource]
  | .acquire _ _ | .promote _ _ => []

/-- What a waiting request says of its owner's locks. -/
inductive Request.Stands (table : Table) (resource : Resource) (request : Request) : Prop
  /-- The owner has no lock here yet, and has the locks to give back, with the modes noted. -/
  | newLock (free : ¬ table.Holds request.owner resource)
      (distinct : (request.releases.map Lock.resource).Nodup)
      (elsewhere : ∀ lock ∈ request.releases, lock.resource ≠ resource)
      (held : ∀ lock ∈ request.releases, lock ∈ table.locksHeldBy request.owner)
  /-- The owner has a lock here, to be replaced by a stronger one. -/
  | promotion {current : Mode} (bare : request.releases = [])
      (held : ⟨resource, current, request.owner⟩ ∈ table.locksHeldBy request.owner)
      (differs : request.lock.mode ≠ current)
      (stronger : request.lock.mode.covers current = true)

namespace Task

theorem giver?_eq (task : Task) : task.giver? = task.pledge?.map Prod.fst := by
  cases task <;> rfl

theorem pledges_append (first second : List Task) :
    pledges (first ++ second) = pledges first ++ pledges second :=
  List.filterMap_append

theorem pledges_afterGrant (request : Request) (resource : Resource) :
    pledges (afterGrant request resource) = request.releases.map Lock.key := by
  have deferred (locks : List Lock) :
      pledges (locks.map (.deferred request)) = locks.map Lock.key := by
    induction locks with
    | nil => rfl
    | cons lock later ih => exact congrArg (lock.key :: ·) ih
  rw [afterGrant, pledges_append, deferred]
  exact List.append_nil _

theorem exists_giver {tasks : List Task} {key : Txn × Resource} (pledged : key ∈ pledges tasks) :
    ∃ task ∈ tasks, key.1 ∈ task.giver? := by
  obtain ⟨task, member, pledge⟩ := List.mem_filterMap.mp pledged
  refine ⟨task, member, ?_⟩
  rw [giver?_eq, pledge]
  rfl

end Task

namespace Table

variable {table : Table} {txn : Txn}

theorem nodup_of_locksToRelease {names : List Resource} {locks : List Lock}
    (listed : table.locksToRelease txn [] names = .ok locks) :
    (locks.map Lock.resource).Nodup := by
  have sound := (exists_locksToRelease_iff Releasable.nil).mp ⟨locks, listed⟩
  rw [List.append_nil, Releasable.reverse_iff] at sound
  rw [(locksToRelease_ok listed).1]
  exact sound.distinct

/-! ### What becomes of a transaction's locks -/

theorem Regular.holds_grant (regular : table.Regular) (lock : Lock) {resource : Resource}
    (held : table.Holds txn resource) : (table.grant lock).Holds txn resource := by
  obtain ⟨ledger, books⟩ := regular.books
  obtain ⟨mine, member, rfl⟩ := held
  by_cases same : mine.sameGrant lock = true
  · obtain ⟨known, rfl⟩ := books.mem_locksHeldBy.mp member
    obtain ⟨owner, resource⟩ := Lock.sameGrant_iff.mp same
    refine ⟨lock, ?_, resource.symm⟩
    rw [(books.grant lock).mem_locksHeldBy]
    exact ⟨Ledger.lock_mem_put ledger lock, owner.symm⟩
  · obtain ⟨known, rfl⟩ := books.mem_locksHeldBy.mp member
    refine ⟨mine, ?_, rfl⟩
    rw [(books.grant lock).mem_locksHeldBy]
    exact ⟨Ledger.mem_put_of_mem known (by simpa using same), rfl⟩

theorem locksHeldBy_grant_of_ne (table : Table) {lock : Lock} (other : txn ≠ lock.owner) :
    (table.grant lock).locksHeldBy txn = table.locksHeldBy txn := by
  rw [locksHeldBy_grant, if_pos other]

theorem locksHeldBy_remove_of_ne (table : Table) {giver : Txn} (resource : Resource)
    (other : txn ≠ giver) :
    (table.remove giver resource).locksHeldBy txn = table.locksHeldBy txn := by
  rw [locksHeldBy_remove, if_neg other]

/-- A lock that is given back is the only one that goes. -/
theorem mem_locksHeldBy_remove {giver : Txn} {resource : Resource} {lock : Lock} :
    lock ∈ (table.remove giver resource).locksHeldBy txn ↔
      lock ∈ table.locksHeldBy txn ∧ (txn = giver → lock.resource ≠ resource) := by
  rw [locksHeldBy_remove]
  by_cases same : txn = giver
  · simp [same]
  · simp [same]

theorem holds_remove {giver : Txn} {released resource : Resource} :
    (table.remove giver released).Holds txn resource ↔
      table.Holds txn resource ∧ (txn, resource) ≠ (giver, released) := by
  simp only [Holds, mem_locksHeldBy_remove]
  constructor
  · rintro ⟨held, ⟨member, kept⟩, rfl⟩
    exact ⟨⟨held, member, rfl⟩, fun same => kept (congrArg Prod.fst same) (congrArg Prod.snd same)⟩
  · rintro ⟨⟨held, member, rfl⟩, other⟩
    exact ⟨held, ⟨member, fun mine same => other (by rw [mine, same])⟩, rfl⟩

/-- A move changes the locks of one transaction at most: of the one that gives back, or of the one
that is served. -/
theorem Moves.locksHeldBy {task : Task} {done : Step} (move : table.Moves task done) (txn : Txn) :
    done.table.locksHeldBy txn = table.locksHeldBy txn ∨
      (∃ resource, task = .release txn resource ∧ done.table = table.remove txn resource) ∨
        ∃ resource request rest, task = .drain resource ∧
          table.queueOf resource = request :: rest ∧ request.owner = txn ∧
            done.table = (table.dequeue resource).grant request.lock := by
  cases move with
  | rests => exact .inl (locksHeldBy_prune table _ txn)
  | @serves resource request rest head fits =>
    by_cases mine : request.owner = txn
    · exact .inr (.inr ⟨resource, request, rest, rfl, head, mine, rfl⟩)
    · exact .inl (locksHeldBy_grant_of_ne (table.dequeue resource) (Ne.symm mine))
  | @gives giver resource =>
    by_cases mine : giver = txn
    · subst mine
      exact .inr (.inl ⟨resource, rfl, rfl⟩)
    · exact .inl (locksHeldBy_remove_of_ne table resource (Ne.symm mine))
  | defers | skips | completes => exact .inl rfl

/-- A pledge is an earlier one, or one of the request that is served. -/
theorem Moves.mem_pledges {task : Task} {tasks : List Task} {done : Step}
    (move : table.Moves task done) {key : Txn × Resource}
    (pledged : key ∈ Task.pledges (done.next ++ tasks)) :
    key ∈ Task.pledges (task :: tasks) ∨
      ∃ resource request rest, task = .drain resource ∧
        table.queueOf resource = request :: rest ∧ key ∈ request.releases.map Lock.key ∧
          done.table = (table.dequeue resource).grant request.lock := by
  cases move with
  | rests | defers | completes => exact .inl pledged
  | gives | skips => exact .inl (List.mem_cons_of_mem _ pledged)
  | @serves resource request rest head fits =>
    rw [Task.pledges_append, Task.pledges_afterGrant] at pledged
    rcases List.mem_append.mp pledged with new | old
    · exact .inr ⟨resource, request, rest, rfl, head, new, rfl⟩
    · exact .inl old

/-! ### What a call leaves alone when it opens -/

variable {other : Txn} {call : Call} {stage : Stage} {closing : Journal}

theorem Opens.mem_queueOf (opens : table.Opens txn call stage closing) {resource : Resource}
    {request : Request} (queued : request ∈ table.queueOf resource) :
    request ∈ stage.table.queueOf resource := by
  cases opens with
  | acquireGranted | exchangeGranted | promoteGranted => rwa [queueOf_grant]
  | acquireQueued | exchangeQueued | promoteQueued => exact mem_queueOf_enqueue.mpr (.inl queued)
  | releaseStarted => exact queued

theorem Opens.locksHeldBy_of_ne (opens : table.Opens txn call stage closing)
    (different : other ≠ txn) : stage.table.locksHeldBy other = table.locksHeldBy other := by
  cases opens with
  | acquireGranted | exchangeGranted | promoteGranted =>
    exact locksHeldBy_grant_of_ne table different
  | acquireQueued | exchangeQueued | promoteQueued | releaseStarted => rfl

theorem Opens.isWaiting_of_ne (opens : table.Opens txn call stage closing)
    (different : other ≠ txn) (idle : table.isWaiting other = false) :
    stage.table.isWaiting other = false := by
  cases opens with
  | acquireGranted | exchangeGranted | promoteGranted => rwa [isWaiting_grant]
  | acquireQueued | exchangeQueued | promoteQueued =>
    rw [Bool.eq_false_iff] at idle ⊢
    intro waiting
    rcases isWaiting_enqueue.mp waiting with earlier | mine
    · exact idle earlier
    · exact different mine.symm
  | releaseStarted => exact idle

/-- Nobody comes to wait through the call of another transaction. -/
theorem isWaiting_take_of_ne {turn : Turn} (different : other ≠ turn.txn)
    (idle : table.isWaiting other = false) :
    (table.take turn).table.isWaiting other = false := by
  refine take_cases (motive := fun after => after.table.isWaiting other = false) table turn idle
    fun stage closing started => ?_
  exact stage.leads_settled.invariant (motive := fun table _ _ => table.isWaiting other = false)
    (fun before move => move.idle before) (started.isWaiting_of_ne different idle)

/-- A call gives back locks of its own transaction only. -/
theorem Opens.own_pledges (opens : table.Opens txn call stage closing) {key : Txn × Resource}
    (pledged : key ∈ Task.pledges stage.tasks) : key.1 = txn := by
  obtain ⟨task, member, pledge⟩ := List.mem_filterMap.mp pledged
  cases opens with
  | acquireGranted | acquireQueued | promoteGranted | promoteQueued => cases member
  | exchangeGranted =>
    obtain ⟨lock, -, rfl⟩ := List.mem_map.mp member
    cases pledge
    rfl
  | exchangeQueued =>
    rw [List.mem_singleton.mp member] at pledge
    cases pledge
  | releaseStarted =>
    rw [List.mem_singleton.mp member] at pledge
    cases pledge
    rfl

/-! ### Tables of disciplined runs -/

/-- What holds at every stage of a disciplined run, of the table and the tasks that are left. -/
structure Sound (table : Table) (tasks : List Task) : Prop where
  regular : table.Regular
  one : OneRequestEach table.queueOf
  apart : table.Apart tasks
  stands : ∀ resource, ∀ request ∈ table.queueOf resource, request.Stands table resource
  /-- Nothing is to be given back twice. -/
  distinct : (Task.pledges tasks).Nodup
  /-- What is to be given back is held. -/
  backed : ∀ key ∈ Task.pledges tasks, table.Holds key.1 key.2

end Table

namespace Request.Stands

variable {table after : Table} {resource : Resource} {request : Request}

/-- Whether a request stands depends on the locks of its owner. -/
theorem congr (stands : request.Stands table resource)
    (same : after.locksHeldBy request.owner = table.locksHeldBy request.owner) :
    request.Stands after resource := by
  cases stands with
  | newLock free distinct elsewhere held =>
    refine .newLock (fun taken => free ?_) distinct elsewhere (fun lock member => ?_)
    · rwa [Table.Holds, same] at taken
    · rw [same]
      exact held lock member
  | promotion bare held differs stronger =>
    refine .promotion bare ?_ differs stronger
    rw [same]
    exact held

theorem nodup_keys (stands : request.Stands table resource) :
    (request.releases.map Lock.key).Nodup := by
  cases stands with
  | newLock free distinct =>
    apply List.Nodup.of_map Prod.snd
    rwa [List.map_map]
  | promotion bare => simp [bare]

/-- What a request gives back is held, and is no lock on the resource it waits for. -/
theorem of_mem (stands : request.Stands table resource) {lock : Lock}
    (released : lock ∈ request.releases) :
    lock ∈ table.locksHeldBy request.owner ∧ lock.resource ≠ resource := by
  cases stands with
  | newLock free distinct elsewhere held => exact ⟨held lock released, elsewhere lock released⟩
  | promotion bare => simp [bare] at released

end Request.Stands

namespace Table.Sound

variable {table : Table} {task : Task} {tasks : List Task} {done : Step} {txn : Txn}

theorem empty : Table.empty.Sound [] where
  regular := .empty
  one := .empty
  apart := by simp [Apart]
  stands resource request member := by simp [queueOf] at member
  distinct := List.nodup_nil
  backed key pledged := by cases pledged

/-- Whoever is to give a lock back is not waiting. -/
theorem idle_of_pledge (sound : table.Sound tasks) {key : Txn × Resource}
    (pledged : key ∈ Task.pledges tasks) : table.isWaiting key.1 = false := by
  obtain ⟨task, member, giver⟩ := Task.exists_giver pledged
  exact isWaiting_eq_false_iff.mpr (sound.apart task member key.1 giver)

/-- While a transaction waits, its locks stay as they are. -/
theorem locksHeldBy_of_waiting (sound : table.Sound (task :: tasks))
    (move : table.Moves task done) (waiting : done.table.isWaiting txn = true) :
    done.table.locksHeldBy txn = table.locksHeldBy txn := by
  rcases move.locksHeldBy txn with
    same | ⟨resource, rfl, -⟩ | ⟨resource, request, rest, rfl, head, rfl, after⟩
  · exact same
  · have pledged : (txn, resource) ∈ Task.pledges (.release txn resource :: tasks) :=
      List.mem_cons_self
    have idle : table.isWaiting txn = false := sound.idle_of_pledge pledged
    rw [move.isWaiting waiting] at idle
    contradiction
  · obtain ⟨other, waiter, queued, owned⟩ := isWaiting_iff.mp waiting
    rw [after, queueOf_grant] at queued
    exact absurd owned (sound.one.gone_of_head head other waiter queued)

theorem stands_moves (sound : table.Sound (task :: tasks)) (move : table.Moves task done)
    {resource : Resource} {request : Request} (queued : request ∈ done.table.queueOf resource) :
    request.Stands done.table resource := by
  have before := (move.queueOf_sublist resource).subset queued
  have waiting : done.table.isWaiting request.owner = true :=
    isWaiting_iff.mpr ⟨resource, request, queued, rfl⟩
  exact (sound.stands resource request before).congr (sound.locksHeldBy_of_waiting move waiting)

/-- A request that is served leaves its own pledges to be carried out before the others. -/
theorem pledges_moves (sound : table.Sound (task :: tasks)) (move : table.Moves task done) :
    (Task.pledges (done.next ++ tasks)).Nodup ∧
      ∀ key ∈ Task.pledges (done.next ++ tasks), done.table.Holds key.1 key.2 := by
  cases move with
  | @rests resource =>
    refine ⟨sound.distinct, fun key pledged => ?_⟩
    rw [Holds, locksHeldBy_prune]
    exact sound.backed key pledged
  | @serves resource request rest head fits =>
    have queued : request ∈ table.queueOf resource := head ▸ List.mem_cons_self
    have stands := sound.stands resource request queued
    have waiting : table.isWaiting request.owner = true :=
      isWaiting_iff.mpr ⟨resource, request, queued, rfl⟩
    have own : ∀ lock ∈ request.releases, lock.owner = request.owner :=
      (sound.regular.filed_head head).own
    rw [Task.pledges_append, Task.pledges_afterGrant]
    constructor
    · refine List.nodup_append.mpr ⟨stands.nodup_keys, sound.distinct, ?_⟩
      rintro key new _ old rfl
      obtain ⟨lock, released, rfl⟩ := List.mem_map.mp new
      have idle : table.isWaiting lock.owner = false := sound.idle_of_pledge old
      rw [own lock released, waiting] at idle
      contradiction
    · intro key pledged
      apply (sound.regular.dequeue resource).holds_grant
      rcases List.mem_append.mp pledged with new | old
      · obtain ⟨lock, released, rfl⟩ := List.mem_map.mp new
        refine ⟨lock, ?_, rfl⟩
        rw [Lock.key, own lock released]
        exact (stands.of_mem released).1
      · exact sound.backed key old
  | @gives giver resource =>
    obtain ⟨once, distinct⟩ := List.nodup_cons.mp sound.distinct
    refine ⟨distinct, fun key pledged => holds_remove.mpr ⟨?_, ?_⟩⟩
    · exact sound.backed key (List.mem_cons_of_mem _ pledged)
    · rintro same
      exact once (same ▸ pledged)
  | defers | completes => exact ⟨sound.distinct, sound.backed⟩
  | @skips request lock gone =>
    exact ⟨(List.nodup_cons.mp sound.distinct).2,
      fun key pledged => sound.backed key (List.mem_cons_of_mem _ pledged)⟩

/-- A pledge stays until the lock is gone. -/
theorem pledge_kept_or_gone (sound : table.Sound (task :: tasks)) (move : table.Moves task done)
    {key : Txn × Resource} (pledged : key ∈ Task.pledges (task :: tasks)) :
    key ∈ Task.pledges (done.next ++ tasks) ∨ ¬ done.table.Holds key.1 key.2 := by
  cases move with
  | rests | defers | completes => exact .inl pledged
  | serves =>
    rw [Task.pledges_append]
    exact .inl (List.mem_append_right _ pledged)
  | gives =>
    rcases List.mem_cons.mp pledged with rfl | later
    · exact .inr fun held => (holds_remove.mp held).2 rfl
    · exact .inl later
  | @skips request lock gone =>
    have held := sound.backed lock.key List.mem_cons_self
    exact absurd held (heldLock?_eq_none_iff.mp gone)

theorem moves (sound : table.Sound (task :: tasks)) (move : table.Moves task done) :
    done.table.Sound (done.next ++ tasks) where
  regular := sound.regular.moves move
  one := sound.one.moves move
  apart := sound.apart.moves sound.regular sound.one move
  stands _ _ queued := sound.stands_moves move queued
  distinct := (sound.pledges_moves move).1
  backed := (sound.pledges_moves move).2

/-- No release comes too late: what is to be given back is still held. -/
theorem no_staleRelease (sound : table.Sound (task :: tasks)) (move : table.Moves task done)
    (request : Request) (lock : Lock) : .staleRelease request lock ∉ done.events := by
  intro noted
  cases move with
  | rests blocked conflicts =>
    obtain ⟨mode, held, same⟩ := conflicts _ noted
    cases same
  | @serves resource served =>
    rw [List.mem_singleton, grantEvent] at noted
    split at noted <;> cases noted
  | gives =>
    obtain ⟨held, -, same⟩ := List.mem_map.mp noted
    cases same
  | defers => cases noted
  | @skips other gone free =>
    have held := sound.backed gone.key List.mem_cons_self
    exact heldLock?_eq_none_iff.mp free held
  | completes => simp at noted

/-! ### Openings -/

theorem grant (sound : table.Sound []) {lock : Lock} (idle : table.isWaiting lock.owner = false) :
    (table.grant lock).Sound [] where
  regular := sound.regular.grant lock
  one := sound.one.of_sublist fun _ => by simp
  apart := by simp [Apart]
  stands resource request queued := by
    rw [queueOf_grant] at queued
    have other : request.owner ≠ lock.owner := isWaiting_eq_false_iff.mp idle resource request queued
    exact (sound.stands resource request queued).congr (locksHeldBy_grant_of_ne table other)
  distinct := List.nodup_nil
  backed key pledged := by cases pledged

theorem enqueue (sound : table.Sound []) {request : Request} (place : Place)
    (idle : table.isWaiting request.owner = false) (filed : request.Filed request.lock.resource)
    (stands : request.Stands table request.lock.resource) :
    (table.enqueue request place).Sound [] where
  regular := sound.regular.enqueue place filed
  one := sound.one.enqueue idle
  apart := by simp [Apart]
  stands resource waiter queued := by
    rcases mem_queueOf_enqueue.mp queued with earlier | ⟨rfl, rfl⟩
    · exact (sound.stands resource waiter earlier).congr rfl
    · exact stands.congr rfl
  distinct := List.nodup_nil
  backed key pledged := by cases pledged

/-- A transaction that is not waiting sets about giving back locks that it holds. -/
theorem schedule (sound : table.Sound []) (txn : Txn) (tasks : List Task)
    (own : ∀ key ∈ Task.pledges tasks, key.1 = txn) (idle : table.isWaiting txn = false)
    (distinct : (Task.pledges tasks).Nodup)
    (backed : ∀ key ∈ Task.pledges tasks, table.Holds key.1 key.2) : table.Sound tasks where
  regular := sound.regular
  one := sound.one
  apart task member giver gives := by
    rw [Task.giver?_eq] at gives
    obtain ⟨key, pledge, rfl⟩ := Option.map_eq_some_iff.mp gives
    rw [own key (List.mem_filterMap.mpr ⟨task, member, pledge⟩)]
    exact isWaiting_eq_false_iff.mp idle
  stands := sound.stands
  distinct := distinct
  backed := backed

variable {call : Call} {stage now : Stage} {closing : Journal}

theorem opens (sound : table.Sound []) (idle : table.isWaiting txn = false)
    (opens : table.Opens txn call stage closing) : stage.table.Sound stage.tasks := by
  cases opens with
  | acquireGranted | promoteGranted => exact sound.grant idle
  | @exchangeGranted resource mode releases locks free listed room =>
    obtain ⟨-, held⟩ := locksToRelease_ok listed
    have pledges : Task.pledges (locks.map fun held => .release txn held.resource) =
        (locks.map Lock.resource).map (Prod.mk txn) := by
      rw [Task.pledges, List.filterMap_map, List.map_map, ← List.filterMap_eq_map]
      rfl
    refine (sound.grant idle).schedule txn _ ?_ (by simpa using idle) ?_ ?_ <;> rw [pledges]
    · intro key member
      obtain ⟨name, -, rfl⟩ := List.mem_map.mp member
      rfl
    · exact (nodup_of_locksToRelease listed).map fun _ _ same => congrArg Prod.snd same
    · intro key member
      obtain ⟨name, named, rfl⟩ := List.mem_map.mp member
      obtain ⟨lock, listed, rfl⟩ := List.mem_map.mp named
      exact sound.regular.holds_grant _ ⟨lock, held lock listed, rfl⟩
  | acquireQueued free =>
    exact sound.enqueue .back idle ⟨rfl, rfl, by simp⟩
      (.newLock (heldLock?_eq_none_iff.mp free) (by simp) (by simp) (by simp))
  | @exchangeQueued resource mode releases locks free listed busy =>
    obtain ⟨-, held⟩ := locksToRelease_ok listed
    have elsewhere : ∀ lock ∈ locks, lock.resource ≠ resource := by
      rintro lock member rfl
      exact heldLock?_eq_none_iff.mp free ⟨lock, held lock member, rfl⟩
    have queued : (table.enqueue ⟨txn, ⟨resource, mode, txn⟩, locks⟩ .front).Sound [] :=
      sound.enqueue .front idle ⟨rfl, rfl, owner_of_locksToRelease sound.regular listed⟩
        (.newLock (heldLock?_eq_none_iff.mp free) (nodup_of_locksToRelease listed) elsewhere held)
    exact { queued with apart := by simp [Apart, Task.giver?] }
  | @releaseStarted resource held =>
    refine sound.schedule txn [.release txn resource] ?_ idle (List.nodup_singleton _) ?_
    · intro key pledged
      rw [List.mem_singleton.mp pledged]
    · intro key pledged
      rw [List.mem_singleton.mp pledged]
      exact isSome_heldLock?_iff.mp held
  | promoteQueued found differs stronger busy =>
    obtain ⟨ledger, books⟩ := sound.regular.books
    obtain ⟨known, rfl, rfl⟩ := books.mem_of_heldLock? found
    exact sound.enqueue .front idle ⟨rfl, rfl, by simp⟩
      (.promotion rfl (books.mem_locksHeldBy.mpr ⟨known, rfl⟩) (Ne.symm differs) stronger)

theorem leads (sound : stage.table.Sound stage.tasks) (path : stage.Leads now) :
    now.table.Sound now.tasks :=
  path.invariant (motive := fun table _ tasks => table.Sound tasks)
    (fun before move => before.moves move) sound

theorem take (sound : table.Sound []) {turn : Turn} (idle : table.isWaiting turn.txn = false) :
    (table.take turn).table.Sound [] :=
  take_cases (motive := fun after => after.table.Sound []) table turn sound
    fun stage _ started => (sound.opens idle started).leads stage.leads_settled

theorem run {turns : List Turn} (disciplined : Table.empty.Disciplined turns) :
    (Table.empty.run turns).Sound [] :=
  disciplined_invariant (motive := fun table => table.Sound [])
    (fun _ _ sound idle => sound.take idle) empty disciplined

/-! ### What the journal tells -/

/-- What is true of all events that openings and moves note in disciplined runs is true of the
whole journal. -/
theorem journal_all {motive : Event → Prop}
    (opens : ∀ {table : Table} {txn : Txn} {call : Call} {stage : Stage} {closing : Journal},
      table.Sound [] → table.Opens txn call stage closing →
        ∀ event ∈ stage.journal ++ closing, motive event)
    (moves : ∀ {table : Table} {task : Task} {tasks : List Task} {done : Step},
      table.Sound (task :: tasks) → table.Moves task done → ∀ event ∈ done.events, motive event)
    (sound : table.Sound []) {turns : List Turn} (disciplined : table.Disciplined turns) :
    ∀ event ∈ table.journal turns, motive event := by
  have takes {table : Table} {turn : Turn} (sound : table.Sound [])
      (idle : table.isWaiting turn.txn = false) : ∀ event ∈ (table.take turn).events, motive event := by
    refine take_cases (motive := fun after => ∀ event ∈ after.events, motive event) table turn
      (by simp) fun stage closing started => ?_
    have opening := List.forall_mem_append.mp (opens sound started)
    have ended := stage.leads_settled.invariant
      (motive := fun table journal tasks => table.Sound tasks ∧ ∀ event ∈ journal, motive event)
      (fun before move =>
        ⟨before.1.moves move, List.forall_mem_append.mpr ⟨before.2, moves before.1 move⟩⟩)
      ⟨sound.opens idle started, opening.1⟩
    exact List.forall_mem_append.mpr ⟨ended.2, opening.2⟩
  induction turns generalizing table with
  | nil => exact fun event member => absurd member List.not_mem_nil
  | cons turn later ih =>
    obtain ⟨idle, rest⟩ := disciplined
    exact List.forall_mem_append.mpr ⟨takes sound idle, ih (sound.take idle) rest⟩

theorem no_staleRelease_opens (opens : table.Opens txn call stage closing) (request : Request)
    (lock : Lock) : .staleRelease request lock ∉ stage.journal ++ closing := by
  have granted (other : Table) (lock' : Lock) :
      .staleRelease request lock ∉ [other.grantEvent lock'] := by
    rw [List.mem_singleton, grantEvent]
    split <;> exact Event.noConfusion
  have queued (waiter : Request) (place : Place) : .staleRelease request lock ∉
      table.noteConflict waiter.lock ++ (table.wait waiter place).events ++
        [.suspended txn] := by
    simp [noteConflict, wait]
  cases opens with
  | acquireGranted | exchangeGranted | promoteGranted => simpa using granted table _
  | acquireQueued | exchangeQueued | promoteQueued => exact queued ⟨_, ⟨_, _, txn⟩, _⟩ _
  | releaseStarted => simp

theorem no_staleRelease_journal (sound : table.Sound []) {turns : List Turn}
    (disciplined : table.Disciplined turns) (request : Request) (lock : Lock) :
    .staleRelease request lock ∉ table.journal turns := by
  intro noted
  refine sound.journal_all (motive := fun event => event ≠ .staleRelease request lock)
    (fun _ opens event member => ?_) (fun sound move event member => ?_) disciplined _ noted rfl
  · rintro rfl
    exact no_staleRelease_opens opens request lock member
  · rintro rfl
    exact sound.no_staleRelease move request lock member

end Table.Sound

/-- How requests wait when transactions call only while they have none. -/
structure Table.Standing (table : Table) : Prop where
  /-- A transaction has one request at most, in all queues together. -/
  one : OneRequestEach table.queueOf
  /-- It waits for the resource that its lock names, for its own transaction. -/
  filed : ∀ resource, ∀ request ∈ table.queueOf resource,
    request.lock.resource = resource ∧ request.caller = request.lock.owner
  stands : ∀ resource, ∀ request ∈ table.queueOf resource, request.Stands table resource

theorem Table.Sound.standing {table : Table} {tasks : List Task} (sound : table.Sound tasks) :
    table.Standing where
  one := sound.one
  filed resource request queued :=
    have filed := sound.regular.filed resource request queued
    ⟨filed.here, filed.caller⟩
  stands := sound.stands

/-- In a disciplined run every waiting request stands, between calls and at each stage of a call,
and no deferred release finds its lock gone. -/
theorem requests_stand {turns : List Turn} (disciplined : Table.empty.Disciplined turns) :
    (Table.empty.run turns).Standing ∧
    (∀ txn call stage closing now, (Table.empty.run turns).isWaiting txn = false →
      (Table.empty.run turns).Opens txn call stage closing → stage.Leads now →
        now.table.Standing) ∧
    ∀ request lock, .staleRelease request lock ∉ Table.empty.journal turns := by
  have sound := Table.Sound.run disciplined
  refine ⟨sound.standing, fun txn call stage closing now idle opens path => ?_, fun request lock => ?_⟩
  · exact ((sound.opens idle opens).leads path).standing
  · exact Table.Sound.empty.no_staleRelease_journal disciplined request lock

/-- The exchange has noted the stock as its transaction holds it, and the stock is given back. -/
theorem queuedExchange_stands :
    let turns := Sample.queuedExchange ++ [⟨⟨1⟩, .release Sample.orders⟩]
    let stock : Lock := ⟨Sample.stock, .exclusive, ⟨2⟩⟩
    stock ∈ ((Table.empty.run Sample.queuedExchange).queueOf Sample.orders).flatMap Request.releases ∧
      (Table.empty.run Sample.queuedExchange).Standing ∧
      .released stock ∈ Table.empty.journal turns ∧
      ∀ request lock, .staleRelease request lock ∉ Table.empty.journal turns := by
  intro turns stock
  have noted : stock ∈
      ((Table.empty.run Sample.queuedExchange).queueOf Sample.orders).flatMap Request.releases := by
    decide +kernel
  have released : .released stock ∈ Table.empty.journal turns := by
    decide +kernel
  have before : Table.empty.Disciplined Sample.queuedExchange := by
    decide +kernel
  have disciplined : Table.empty.Disciplined turns := by
    decide +kernel
  exact ⟨noted, (requests_stand before).1, released, (requests_stand disciplined).2.2⟩

end LockManager
