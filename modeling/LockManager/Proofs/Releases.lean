import LockManager.Proofs.Deadlock
import LockManager.Proofs.Locality

/-! Releases one after another. What a release leaves is where commits end once its lock is gone,
and locks of transactions that are not waiting may go before those commits as well as after them.
So several releases leave what commits come to once all their locks are gone, in whatever order
they are called. -/
namespace LockManager
open Std

/-- Which locks go, and not in which order, decides about what is left. -/
theorem Ledger.without_congr (ledger : Ledger) {first second : List (Txn × Resource)}
    (same : ∀ key, key ∈ first ↔ key ∈ second) : ledger.without first = ledger.without second :=
  List.filter_congr fun held _ => by
    rw [Bool.eq_iff_iff]
    simp [same held.key]

namespace Picture

variable {picture next : Picture} {keys : List (Txn × Resource)}

theorem without_congr (picture : Picture) {first second : List (Txn × Resource)}
    (same : ∀ key, key ∈ first ↔ key ∈ second) :
    picture.without first = picture.without second := by
  simp only [without, Ledger.without_congr _ same]

/-- None of these locks belongs to a transaction with a request in a queue. -/
def Apart (picture : Picture) (keys : List (Txn × Resource)) : Prop :=
  ∀ resource, ∀ request ∈ picture.queue resource, ∀ key ∈ keys, request.owner ≠ key.1

/-- A commit may be made before the locks of others are gone or after it. -/
theorem Commits.without (commits : picture.Commits next) (apart : picture.Apart keys) :
    (picture.without keys).Commits (next.without keys) := by
  cases commits with
  | @commit resource request rest head fits =>
    have queued : request ∈ picture.queue resource := head ▸ List.mem_cons_self
    have kept : request.lock.key ∉ keys := fun member =>
      apart resource request queued request.lock.key member rfl
    rw [← serve_without kept]
    exact .commit head fun held member => fits held (Ledger.mem_without.mp member).1

theorem Apart.commits (apart : picture.Apart keys) (commits : picture.Commits next) :
    next.Apart keys := by
  cases commits with
  | @commit resource request rest head fits =>
    intro other waiting queued
    exact apart other waiting ((picture.serve_queue_sublist resource request other).subset queued)

end Picture

theorem Steps.without {count : Nat} {first last : Picture} {keys : List (Txn × Resource)}
    (path : Steps Picture.Commits count first last) (apart : first.Apart keys) :
    Steps Picture.Commits count (first.without keys) (last.without keys) := by
  induction path with
  | refl => exact .refl _
  | next head rest ih => exact .next (head.without apart) (ih (apart.commits head))

namespace Table

variable {table : Table} {giver : Txn} {released : Resource}

/-- A release takes no lock but the one it names from those who are not waiting. -/
theorem holds_take_release (regular : table.Regular) {key : Txn × Resource}
    (holds : table.Holds key.1 key.2) (idle : table.isWaiting key.1 = false)
    (other : key ≠ (giver, released)) :
    (table.take ⟨giver, .release released⟩).table.Holds key.1 key.2 := by
  rcases (Spares.take regular ⟨giver, .release released⟩).lost key holds with still | given
  · exact still
  · cases given with
    | named member =>
      rw [List.mem_singleton.mp member] at other
      exact absurd rfl other
    | @released noted resource request lock lets owned member =>
      rcases lets.mem_queueOf with queued | asked
      · exact absurd owned.symm (isWaiting_eq_false_iff.mp idle resource request queued)
      · cases asked

theorem GivesBack.idle {after : Table} (back : table.GivesBack after) (sound : table.Sound [])
    {txn : Txn} (idle : table.isWaiting txn = false) : after.isWaiting txn = false :=
  back.keeps (motive := fun table => table.isWaiting txn = false)
    (fun _ before move => Bool.eq_false_iff.mpr fun waiting => by
      rw [move.isWaiting waiting] at before
      cases before) sound idle

end Table

/-- Turns that release the locks one after another. -/
def Turn.releasing (keys : List (Txn × Resource)) : List Turn :=
  keys.map fun key => ⟨key.1, .release key.2⟩

namespace Manager

/-- What the callers of a run are told in turn: the kind of failure, if the call is refused. -/
def outcomes (manager : Manager) : List Turn → List (Option FaultKind)
  | [] => []
  | turn :: later => manager.failure? turn.txn turn.call :: (manager.take turn).outcomes later

variable {manager : Manager} {keys : List (Txn × Resource)}

/-- A call that does not fail leads to the next state. -/
theorem accepted_of_failure? {txn : Txn} {call : Call}
    (succeeds : manager.failure? txn call = none) :
    ∃ journal, manager.call txn call = .ok (manager.take ⟨txn, call⟩, journal) := by
  rw [failure?] at succeeds
  split at succeeds
  · next result accepted => exact ⟨result.2, by rw [take, accepted]⟩
  · cases succeeds

theorem orderly_without (arises : manager.table.Arises) (keys : List (Txn × Resource)) :
    (manager.picture.without keys).Orderly :=
  ⟨arises.sound.regular.filed, arises.sound.one⟩

/-- What a release leaves, without the locks that are to go after it, is on the way to where commits
end once all these locks are gone. -/
theorem release_advances {txn : Txn} {resource : Resource} (arises : manager.table.Arises)
    (succeeds : manager.failure? txn (.release resource) = none)
    (idle : ∀ key ∈ keys, manager.table.isWaiting key.1 = false) :
    ∃ count, Steps Picture.Commits count (manager.picture.without ((txn, resource) :: keys))
      ((manager.take ⟨txn, .release resource⟩).picture.without keys) := by
  obtain ⟨journal, accepted⟩ := accepted_of_failure? succeeds
  obtain ⟨count, commits, -⟩ :=
    release_settles arises.sound.regular arises.attended arises.sound.one accepted
  have apart : (manager.picture.without [(txn, resource)]).Apart keys :=
    fun waited request queued key member =>
      Table.isWaiting_eq_false_iff.mp (idle key member) waited request queued
  have path := commits.without apart
  rw [Picture.without_without] at path
  exact ⟨count, path⟩

/-- Releases all succeed, and leave what commits come to once all the locks are gone. -/
theorem releases_settle (arises : manager.table.Arises) (distinct : keys.Nodup)
    (held : ∀ key ∈ keys, manager.table.Holds key.1 key.2)
    (idle : ∀ key ∈ keys, manager.table.isWaiting key.1 = false) :
    (∀ outcome ∈ manager.outcomes (Turn.releasing keys), outcome = none) ∧
      SettlesTo Picture.Commits (manager.picture.without keys)
        (manager.run (Turn.releasing keys)).picture := by
  induction keys generalizing manager with
  | nil =>
    have path : Steps Picture.Commits 0 (manager.picture.without []) manager.picture := by
      rw [Picture.without_nil]
      exact .refl _
    refine ⟨fun _ member => absurd member List.not_mem_nil, ?_⟩
    exact (orderly_without arises []).settlesTo path
      (final_of_attended arises.attended manager.handles)
  | cons key later ih =>
    obtain ⟨txn, resource⟩ := key
    obtain ⟨fresh, distinct⟩ := List.nodup_cons.mp distinct
    obtain ⟨here, held⟩ := List.forall_mem_cons.mp held
    obtain ⟨rests, idle⟩ := List.forall_mem_cons.mp idle
    have sound := arises.sound
    have back : manager.table.GivesBack (manager.take ⟨txn, .release resource⟩).table := by
      rw [table_take]
      exact .release rests here
    have succeeds : manager.failure? txn (.release resource) = none :=
      (failure?_release sound.regular resource).trans (if_pos here)
    have still : ∀ key ∈ later,
        (manager.take ⟨txn, .release resource⟩).table.Holds key.1 key.2 := by
      intro key member
      rw [table_take]
      refine Table.holds_take_release sound.regular (held key member) (idle key member) ?_
      rintro rfl
      exact fresh member
    obtain ⟨others, more, onward, final, -⟩ := ih (back.arises arises) distinct still
      fun key member => back.idle sound (idle key member)
    obtain ⟨count, path⟩ := release_advances arises succeeds idle
    exact ⟨List.forall_mem_cons.mpr ⟨succeeds, others⟩,
      (orderly_without arises _).settlesTo (path.append onward) final⟩

end Manager

/-- Locks of transactions that are not waiting may be released in any order in disciplined runs:
each release succeeds, and in the end the table is the same, and so are the marks of those who
wait. -/
theorem releases_commute {turns : List Turn} (disciplined : Table.empty.Disciplined turns)
    {keys others : List (Txn × Resource)} (distinct : keys.Nodup)
    (held : ∀ key ∈ keys, (Manager.run {} turns).table.Holds key.1 key.2)
    (idle : ∀ key ∈ keys, (Manager.run {} turns).table.isWaiting key.1 = false)
    (reordered : others.Perm keys) :
    (∀ outcome ∈ (Manager.run {} turns).outcomes (Turn.releasing keys), outcome = none) ∧
    (∀ outcome ∈ (Manager.run {} turns).outcomes (Turn.releasing others), outcome = none) ∧
    (Manager.run {} (turns ++ Turn.releasing others)).table =
      (Manager.run {} (turns ++ Turn.releasing keys)).table ∧
    ∀ txn, (Manager.run {} (turns ++ Turn.releasing others)).isBlocked txn =
      (Manager.run {} (turns ++ Turn.releasing keys)).isBlocked txn := by
  have arises : (Manager.run {} turns).table.Arises :=
    ⟨turns, disciplined, Manager.table_run {} turns⟩
  have same : ∀ key, key ∈ others ↔ key ∈ keys := fun _ => reordered.mem_iff
  obtain ⟨succeed, settles⟩ := Manager.releases_settle arises distinct held idle
  obtain ⟨alsoSucceed, alsoSettles⟩ :=
    Manager.releases_settle arises (reordered.nodup_iff.mpr distinct)
      (fun key member => held key ((same key).mp member))
      (fun key member => idle key ((same key).mp member))
  rw [Picture.without_congr _ same] at alsoSettles
  have picture := alsoSettles.unique settles
  have run (keys : List (Txn × Resource)) : (Manager.run {} turns).run (Turn.releasing keys) =
      Manager.run {} (turns ++ Turn.releasing keys) := List.foldl_append.symm
  rw [run, run] at picture
  have tidy (turns : List Turn) : Tidy (Manager.run {} turns).table [] := by
    rw [Manager.table_run]
    exact Tidy.run turns
  refine ⟨succeed, alsoSucceed, (tidy _).table_eq (tidy _) (fun resource => ?_) (fun resource => ?_)
    fun txn => ?_, fun txn => ?_⟩
  · exact congrFun (congrArg Picture.active picture) resource
  · exact congrFun (congrArg Picture.queue picture) resource
  · exact congrFun (congrArg Picture.held picture) txn
  · exact congrFun (congrArg Picture.blocked picture) txn

namespace Sample

/-- The first two transactions share the orders. The third waits to exchange the stock for them,
and the fourth waits for the stock. -/
def sharedOrders : List Turn :=
  [⟨⟨1⟩, .acquire orders .shared⟩, ⟨⟨2⟩, .acquire orders .shared⟩,
    ⟨⟨3⟩, .acquire stock .exclusive⟩, ⟨⟨4⟩, .acquire stock .shared⟩,
    ⟨⟨3⟩, .exchange orders .exclusive [stock]⟩]

end Sample

/-- Whichever of the two gives the orders back last, the exchange is served then. -/
theorem sharedOrders_released :
    let keys := [(⟨1⟩, Sample.orders), (⟨2⟩, Sample.orders)]
    let turns := Sample.sharedOrders ++ Turn.releasing keys
    let swapped := Sample.sharedOrders ++ Turn.releasing keys.reverse
    (Manager.run {} turns).table.locksHeldBy ⟨4⟩ = [⟨Sample.stock, .shared, ⟨4⟩⟩] ∧
      (Manager.run {} swapped).table = (Manager.run {} turns).table ∧
      ∀ txn, (Manager.run {} swapped).isBlocked txn = (Manager.run {} turns).isBlocked txn := by
  intro keys turns swapped
  have served : (Manager.run {} turns).table.locksHeldBy ⟨4⟩ = [⟨Sample.stock, .shared, ⟨4⟩⟩] := by
    decide +kernel
  have disciplined : Table.empty.Disciplined Sample.sharedOrders := by
    decide +kernel
  have held : ∀ key ∈ keys, (Manager.run {} Sample.sharedOrders).table.Holds key.1 key.2 := by
    decide +kernel
  have idle : ∀ key ∈ keys,
      (Manager.run {} Sample.sharedOrders).table.isWaiting key.1 = false := by
    decide +kernel
  exact ⟨served, (releases_commute disciplined (by decide) held idle keys.reverse_perm).2.2⟩

end LockManager
