import LockManager.Proofs.Regular

/-! Disciplined runs, in which only transactions without a queued request call: each transaction
has at most one request in all queues together. -/
namespace LockManager

/-- Each transaction has at most one request in all queues together. -/
structure OneRequestEach (queue : Resource → List Request) : Prop where
  across : ∀ {first second : Resource}, ∀ a ∈ queue first, ∀ b ∈ queue second,
    a.owner = b.owner → first = second
  within : ∀ resource, ((queue resource).map Request.owner).Nodup

namespace OneRequestEach

variable {table : Table}

theorem of_sublist {before after : Resource → List Request}
    (one : OneRequestEach before) (fewer : ∀ resource, (after resource).Sublist (before resource)) :
    OneRequestEach after where
  across a here b there same :=
    one.across a ((fewer _).subset here) b ((fewer _).subset there) same
  within resource := (one.within resource).sublist ((fewer resource).map _)

theorem empty : OneRequestEach Table.empty.queueOf where
  across _ member := by simp [Table.queueOf] at member
  within _ := by simp [Table.queueOf]

/-- Once its request is taken, a transaction has none left. -/
theorem gone_of_head (one : OneRequestEach table.queueOf) {resource : Resource} {request : Request}
    {rest : List Request} (head : table.queueOf resource = request :: rest) :
    ∀ other, ∀ waiting ∈ (table.dequeue resource).queueOf other,
      waiting.owner ≠ request.owner := by
  intro other waiting queued same
  rw [Table.queueOf_dequeue] at queued
  split at queued
  · next here =>
    have single := one.within resource
    rw [here, head, List.tail_cons] at queued
    rw [head, List.map_cons, List.nodup_cons] at single
    exact single.1 (same ▸ List.mem_map_of_mem queued)
  · next elsewhere =>
    exact elsewhere (one.across waiting queued request (head ▸ List.mem_cons_self) same)

theorem moves {task : Task} {done : Step} (one : OneRequestEach table.queueOf)
    (move : table.Moves task done) : OneRequestEach done.table.queueOf :=
  one.of_sublist move.queueOf_sublist

/-- A transaction without a request may add one. -/
theorem enqueue (one : OneRequestEach table.queueOf) {request : Request} {place : Place}
    (idle : table.isWaiting request.owner = false) :
    OneRequestEach (table.enqueue request place).queueOf := by
  have fresh : ∀ resource, ∀ waiting ∈ table.queueOf resource, waiting.owner ≠ request.owner :=
    Table.isWaiting_eq_false_iff.mp idle
  constructor
  · intro first second a here b there same
    rcases Table.mem_queueOf_enqueue.mp here with old | ⟨rfl, new⟩ <;>
      rcases Table.mem_queueOf_enqueue.mp there with other | ⟨rfl, added⟩
    · exact one.across a old b other same
    · exact absurd same (fresh first a old)
    · exact absurd same.symm (fresh second b other)
    · rw [new, added]
  · intro resource
    have before := one.within resource
    have absent : request.owner ∉ (table.queueOf resource).map Request.owner := by
      intro member
      obtain ⟨waiting, queued, same⟩ := List.mem_map.mp member
      exact fresh resource waiting queued same
    rw [Table.queueOf_enqueue]
    split
    · cases place with
      | front => exact List.nodup_cons.mpr ⟨absent, before⟩
      | back =>
        rw [List.map_append, List.nodup_append]
        refine ⟨before, List.pairwise_singleton _ _, ?_⟩
        intro owner member last new same
        rw [List.map_singleton, List.mem_singleton] at new
        exact absent (new ▸ same ▸ member)
    · exact before

theorem opens {txn : Txn} {call : Call} {stage : Stage} {closing : Journal}
    (one : OneRequestEach table.queueOf) (idle : table.isWaiting txn = false)
    (opens : table.Opens txn call stage closing) : OneRequestEach stage.table.queueOf := by
  cases opens with
  | acquireGranted | exchangeGranted | promoteGranted =>
    exact one.of_sublist fun _ => by simp
  | acquireQueued | exchangeQueued | promoteQueued => exact one.enqueue idle
  | releaseStarted => exact one

theorem take (one : OneRequestEach table.queueOf) {turn : Turn}
    (idle : table.isWaiting turn.txn = false) :
    OneRequestEach (table.take turn).table.queueOf :=
  Table.take_cases (motive := fun after => OneRequestEach after.table.queueOf) table turn one
    fun stage _ started => stage.leads_settled.invariant
      (motive := fun table _ _ => OneRequestEach table.queueOf) (fun before move => before.moves move)
      (one.opens idle started)

theorem run {turns : List Turn} (disciplined : Table.empty.Disciplined turns) :
    OneRequestEach (Table.empty.run turns).queueOf :=
  Table.disciplined_invariant (motive := fun table => OneRequestEach table.queueOf)
    (fun _ _ one idle => one.take idle) empty disciplined

end OneRequestEach
end LockManager
