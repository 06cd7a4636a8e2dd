import Mathlib.Data.List.Forall2
import LockManager.Proofs.Releases

/-! The order in which an exchange lists the locks it gives up. Two runs that differ in nothing else
go through different cascades, but at the end of each call they show the same, apart from the order
of the locks that waiting requests are to give back. Where a call starts is told by what there is to
see before it, and each commit on the one side is answered on the other. -/
namespace LockManager

/-- The same call, apart from the order in which an exchange lists what it gives up. -/
inductive Call.Reorders : Call → Call → Prop
  | acquire (resource : Resource) (mode : Mode) :
      Reorders (.acquire resource mode) (.acquire resource mode)
  | exchange (resource : Resource) (mode : Mode) {names others : List Resource}
      (reordered : names.Perm others) :
      Reorders (.exchange resource mode names) (.exchange resource mode others)
  | release (resource : Resource) : Reorders (.release resource) (.release resource)
  | promote (resource : Resource) (mode : Mode) :
      Reorders (.promote resource mode) (.promote resource mode)

structure Turn.Reorders (turn other : Turn) : Prop where
  txn : turn.txn = other.txn
  call : turn.call.Reorders other.call

/-- The same request, apart from the order of the locks to be given back. -/
structure Request.Alike (request other : Request) : Prop where
  caller : request.caller = other.caller
  lock : request.lock = other.lock
  releases : request.releases.Perm other.releases

/-- There is the same to see, apart from the order of the locks that requests are to give back. -/
structure Picture.Alike (picture other : Picture) : Prop where
  active : picture.active = other.active
  held : picture.held = other.held
  queue : ∀ resource, List.Forall₂ Request.Alike (picture.queue resource) (other.queue resource)
  blocked : picture.blocked = other.blocked

namespace Request.Alike

variable {request other : Request}

theorem symm (alike : request.Alike other) : other.Alike request :=
  ⟨alike.caller.symm, alike.lock.symm, alike.releases.symm⟩

theorem owner (alike : request.Alike other) : request.owner = other.owner :=
  congrArg Lock.owner alike.lock

end Request.Alike

namespace Picture

/-! ### Where a call starts -/

/-- The entry of a resource, as far as it can be seen. -/
def entry (picture : Picture) (resource : Resource) : Entry :=
  ⟨picture.active resource, picture.queue resource⟩

def admits (picture : Picture) (lock : Lock) : Bool :=
  (picture.entry lock.resource).admits lock.mode lock.owner

def mustQueue (picture : Picture) (lock : Lock) : Bool :=
  !picture.admits lock || !(picture.queue lock.resource).isEmpty

/-- The locks of the transaction on the named resources. -/
def named (picture : Picture) (txn : Txn) (names : List Resource) : List Lock :=
  names.filterMap fun name => (picture.held txn).find? fun held => held.resource = name

/-- The request is in the queue it joins, and its caller is marked. -/
def wait (picture : Picture) (request : Request) (place : Place) : Picture :=
  { picture with
    queue := fun resource =>
      if resource = request.lock.resource then
        match place with
        | .front => request :: picture.queue resource
        | .back => picture.queue resource ++ [request]
      else picture.queue resource
    blocked := fun txn => if txn = request.caller then true else picture.blocked txn }

/-- What a call does by itself if it is accepted, with the locks gone that it is to release. -/
def start (picture : Picture) (txn : Txn) : Call → Picture
  | .acquire resource mode =>
      let lock : Lock := ⟨resource, mode, txn⟩
      if picture.mustQueue lock then picture.wait ⟨txn, lock, []⟩ .back else picture.grant lock
  | .exchange resource mode names =>
      let lock : Lock := ⟨resource, mode, txn⟩
      if picture.mustQueue lock then picture.wait ⟨txn, lock, picture.named txn names⟩ .front
      else (picture.grant lock).without (names.map (Prod.mk txn))
  | .release resource => picture.without [(txn, resource)]
  | .promote resource mode =>
      let lock : Lock := ⟨resource, mode, txn⟩
      if picture.admits lock then picture.grant lock else picture.wait ⟨txn, lock, []⟩ .front

end Picture

namespace Manager

variable {manager : Manager} {txn : Txn} {call : Call} {stage : Stage} {closing : Journal}

theorem picture_wait (manager : Manager) (request : Request) (place : Place) :
    picture ⟨manager.table.enqueue request place, (manager.table.noteConflict request.lock ++
        (manager.table.wait request place).events).foldl notify manager.handles⟩ =
      manager.picture.wait request place := by
  ext1
  · funext resource
    exact Table.locksOn_enqueue manager.table request place resource
  · rfl
  · funext resource
    exact Table.queueOf_enqueue manager.table request place resource
  · funext other
    exact Table.isBlocked_wait manager.table _ request place other

theorem picture_granted (regular : manager.table.Regular) (lock : Lock) :
    picture ⟨manager.table.grant lock,
        [manager.table.grantEvent lock].foldl notify manager.handles⟩ =
      manager.picture.grant lock := by
  obtain ⟨ledger, books⟩ := regular.books
  rw [Table.foldl_notify_grantEvent, picture_grant books]

/-- What there is to see when a call has opened is told by what there was before. -/
theorem picture_opens (regular : manager.table.Regular)
    (opens : manager.table.Opens txn call stage closing) :
    (picture ⟨stage.table, stage.journal.foldl notify manager.handles⟩).ahead stage.tasks =
      manager.picture.start txn call := by
  cases opens with
  | acquireGranted free room =>
    exact (picture_granted regular _).trans (if_neg (Bool.eq_false_iff.mp room)).symm
  | acquireQueued free busy =>
    exact (picture_wait manager ⟨txn, ⟨_, _, txn⟩, []⟩ .back).trans (if_pos busy).symm
  | exchangeGranted free listed room =>
    dsimp only
    rw [picture_granted regular, Picture.ahead_map _ _ _ (fun held => (txn, held.resource))
      fun _ _ => rfl, ← (Table.locksToRelease_ok listed).1]
    refine Eq.trans ?_ (if_neg (Bool.eq_false_iff.mp room)).symm
    rw [List.map_map]
    rfl
  | exchangeQueued free listed busy =>
    rw [Table.eq_of_locksToRelease listed]
    exact (picture_wait manager ⟨txn, ⟨_, _, txn⟩, _⟩ .front).trans (if_pos busy).symm
  | releaseStarted => rfl
  | promoteGranted held differs stronger room =>
    exact (picture_granted regular _).trans (if_pos room).symm
  | promoteQueued held differs stronger busy =>
    exact (picture_wait manager ⟨txn, ⟨_, _, txn⟩, []⟩ .front).trans
      (if_neg (Bool.eq_false_iff.mp busy)).symm

/-- An accepted call leaves what commits come to from its start. -/
theorem take_settles (arises : manager.table.Arises) (idle : manager.table.isWaiting txn = false)
    (succeeds : manager.failure? txn call = none) :
    SettlesTo Picture.Commits (manager.picture.start txn call)
      (manager.take ⟨txn, call⟩).picture := by
  obtain ⟨journal, accepted⟩ := accepted_of_failure? succeeds
  obtain ⟨stage, closing, opens, after⟩ := opens_of_accepted accepted
  have sound := arises.sound.opens idle opens
  have attended := arises.attended.opens arises.sound.regular opens
  have closed : (manager.take ⟨txn, call⟩).picture =
      picture ⟨stage.settled.table, stage.settled.events.foldl notify manager.handles⟩ := by
    rw [after, List.foldl_append]
    ext1
    · rfl
    · rfl
    · rfl
    · exact funext fun other => opens.isBlocked_closing stage.settled.table other
  rw [closed, ← picture_opens arises.sound.regular opens]
  exact stage.settles manager.handles sound.regular sound.one sound.apart attended

theorem take_of_failure? {kind : FaultKind} (fails : manager.failure? txn call = some kind) :
    manager.take ⟨txn, call⟩ = manager := by
  rw [failure?] at fails
  rw [take]
  split at fails
  · cases fails
  · next rejection refused => rw [refused]

end Manager

/-! ### Two sides -/

namespace Picture.Alike

variable {picture other next : Picture}

theorem refl (picture : Picture) : picture.Alike picture :=
  ⟨rfl, rfl, fun _ => List.forall₂_same.mpr fun _ _ => ⟨rfl, rfl, .refl _⟩, rfl⟩

theorem symm (alike : picture.Alike other) : other.Alike picture :=
  ⟨alike.active.symm, alike.held.symm,
    fun resource => (alike.queue resource).flip.imp fun _ _ same => same.symm, alike.blocked.symm⟩

theorem dequeue (alike : picture.Alike other) (resource : Resource) :
    (picture.dequeue resource).Alike (other.dequeue resource) where
  active := alike.active
  held := alike.held
  queue place := by
    simp only [Picture.dequeue]
    split
    · simpa using List.forall₂_drop 1 (alike.queue place)
    · exact alike.queue place
  blocked := alike.blocked

theorem grant (alike : picture.Alike other) (lock : Lock) :
    (picture.grant lock).Alike (other.grant lock) where
  active := by simp only [Picture.grant, alike.active]
  held := by simp only [Picture.grant, alike.held]
  queue := alike.queue
  blocked := alike.blocked

theorem without (alike : picture.Alike other) {first second : List (Txn × Resource)}
    (same : ∀ key, key ∈ first ↔ key ∈ second) :
    (picture.without first).Alike (other.without second) := by
  rw [picture.without_congr same]
  exact ⟨by simp only [Picture.without, alike.active], by simp only [Picture.without, alike.held],
    alike.queue, alike.blocked⟩

theorem wake (alike : picture.Alike other) (txn : Txn) :
    (picture.wake txn).Alike (other.wake txn) where
  active := alike.active
  held := alike.held
  queue := alike.queue
  blocked := by simp only [Picture.wake, alike.blocked]

theorem wait (alike : picture.Alike other) {request joining : Request}
    (same : request.Alike joining) (place : Place) :
    (picture.wait request place).Alike (other.wait joining place) where
  active := alike.active
  held := alike.held
  queue resource := by
    have queue := alike.queue resource
    simp only [Picture.wait, same.lock]
    split
    · cases place with
      | front => exact .cons same queue
      | back => exact List.rel_append queue (.cons same .nil)
    · exact queue
  blocked := by simp only [Picture.wait, alike.blocked, same.caller]

theorem serve (alike : picture.Alike other) (resource : Resource) {request served : Request}
    (same : request.Alike served) :
    (picture.serve resource request).Alike (other.serve resource served) := by
  have keys : ∀ key, key ∈ request.releases.map Lock.key ↔ key ∈ served.releases.map Lock.key :=
    fun _ => (same.releases.map Lock.key).mem_iff
  have granted := (alike.dequeue resource).grant request.lock
  rw [Picture.serve, Picture.serve, ← same.lock, ← same.owner]
  exact (granted.without keys).wake request.owner

theorem commits : Answers Commits Alike := by
  intro picture other next alike commits
  cases commits with
  | @commit resource request rest head fits =>
    have queue := alike.queue resource
    rw [head] at queue
    obtain ⟨served, behind, same, -, there⟩ := List.forall₂_cons_left_iff.mp queue
    refine ⟨_, .commit there ?_, alike.serve resource same⟩
    rw [← alike.active, ← same.lock, ← same.owner]
    exact fits

theorem settles {last after : Picture} (alike : picture.Alike other)
    (one : SettlesTo Commits picture last) (two : SettlesTo Commits other after) :
    last.Alike after := by
  have back : Answers Commits fun picture other => Alike other picture := by
    intro picture other next alike head
    obtain ⟨after, answer, same⟩ := commits alike.symm head
    exact ⟨after, answer, same.symm⟩
  exact SettlesTo.related commits back alike one two

/-- The order of the names decides neither whether the call has to wait nor what it takes and
gives, only in which order its request lists it. -/
theorem start {call twin : Call} (alike : picture.Alike other) (reorders : call.Reorders twin)
    (txn : Txn) : (picture.start txn call).Alike (other.start txn twin) := by
  have admits (lock : Lock) : picture.admits lock = other.admits lock := by
    simp only [Picture.admits, Picture.entry, Entry.admits, Entry.conflict?, alike.active]
  have mustQueue (lock : Lock) : picture.mustQueue lock = other.mustQueue lock := by
    have queue := alike.queue lock.resource
    rw [Picture.mustQueue, Picture.mustQueue, admits]
    generalize picture.queue lock.resource = waiting at queue ⊢
    generalize other.queue lock.resource = others at queue ⊢
    cases queue <;> rfl
  have listed {names others : List Resource} (reordered : names.Perm others) :
      (picture.named txn names).Perm (other.named txn others) := by
    rw [Picture.named, Picture.named, alike.held]
    exact reordered.filterMap _
  cases reorders with
  | acquire =>
    simp only [Picture.start, mustQueue]
    split
    · exact alike.wait ⟨rfl, rfl, .refl _⟩ .back
    · exact alike.grant _
  | exchange resource mode reordered =>
    simp only [Picture.start, mustQueue]
    split
    · refine alike.wait ?_ .front
      exact ⟨rfl, rfl, listed reordered⟩
    · exact (alike.grant _).without fun _ => (reordered.map _).mem_iff
  | release => exact alike.without fun _ => Iff.rfl
  | promote =>
    simp only [Picture.start, admits]
    split
    · exact alike.grant _
    · exact alike.wait ⟨rfl, rfl, .refl _⟩ .front

theorem owners (alike : picture.Alike other) (resource : Resource) :
    (picture.queue resource).map Request.owner = (other.queue resource).map Request.owner := by
  rw [← List.forall₂_eq_eq_eq, List.forall₂_map_left_iff, List.forall₂_map_right_iff]
  exact (alike.queue resource).imp fun _ _ same => same.owner

end Picture.Alike

namespace Manager

variable {manager rival : Manager} {txn : Txn}

theorem isWaiting_of_alike (alike : manager.picture.Alike rival.picture)
    (idle : manager.table.isWaiting txn = false) : rival.table.isWaiting txn = false := by
  rw [Table.isWaiting_eq_false_iff] at idle ⊢
  intro resource request queued
  have owners : (manager.table.queueOf resource).map Request.owner =
      (rival.table.queueOf resource).map Request.owner := alike.owners resource
  have member : request.owner ∈ (manager.table.queueOf resource).map Request.owner :=
    owners ▸ List.mem_map_of_mem queued
  obtain ⟨waiter, present, same⟩ := List.mem_map.mp member
  exact same ▸ idle resource waiter present

/-- The locks of the caller decide whether a call fails, and how. The order of the names does not
matter, as one that is bad is told as the same kind of failure wherever it stands. -/
theorem failure?_of_alike {call twin : Call} (regular : manager.table.Regular)
    (also : rival.table.Regular) (alike : manager.picture.Alike rival.picture)
    (reorders : call.Reorders twin) :
    manager.failure? txn call = rival.failure? txn twin := by
  have holds (resource : Resource) :
      manager.table.Holds txn resource ↔ rival.table.Holds txn resource := by
    have same : manager.table.locksHeldBy txn = rival.table.locksHeldBy txn :=
      congrFun alike.held txn
    rw [Table.Holds, Table.Holds, same]
  have modes (resource : Resource) :
      manager.table.modeOf txn resource = rival.table.modeOf txn resource := by
    have same : (manager.table.entry resource).active = (rival.table.entry resource).active :=
      congrFun alike.active resource
    rw [Table.modeOf, Table.modeOf, Entry.modeOf, Entry.modeOf, Entry.lockOf?, Entry.lockOf?, same]
  cases reorders with
  | acquire => simp only [failure?_acquire regular, failure?_acquire also, holds]
  | exchange resource mode reordered =>
    simp only [failure?_exchange regular, failure?_exchange also, holds, reordered.nodup_iff,
      reordered.mem_iff]
  | release => simp only [failure?_release regular, failure?_release also, holds]
  | promote => simp only [failure?_promote regular, failure?_promote also, holds, modes]

theorem take_alike {turn other : Turn} (arises : manager.table.Arises) (also : rival.table.Arises)
    (alike : manager.picture.Alike rival.picture) (reorders : turn.Reorders other)
    (idle : manager.table.isWaiting turn.txn = false) :
    (manager.take turn).picture.Alike (rival.take other).picture := by
  obtain ⟨txn, call⟩ := turn
  obtain ⟨_, twin⟩ := other
  obtain ⟨rfl, reorders⟩ := reorders
  have same : manager.failure? txn call = rival.failure? txn twin :=
    failure?_of_alike arises.sound.regular also.sound.regular alike reorders
  cases result : manager.failure? txn call with
  | some kind =>
    rw [take_of_failure? result, take_of_failure? (same.symm.trans result)]
    exact alike
  | none =>
    have settles := take_settles arises idle result
    have alsoSettles := take_settles also (isWaiting_of_alike alike idle) (same.symm.trans result)
    exact (alike.start reorders txn).settles settles alsoSettles

theorem run_alike {first second : List Turn} (reorders : List.Forall₂ Turn.Reorders first second)
    (arises : manager.table.Arises) (also : rival.table.Arises)
    (alike : manager.picture.Alike rival.picture) (disciplined : manager.table.Disciplined first) :
    manager.outcomes first = rival.outcomes second ∧
      (manager.run first).picture.Alike (rival.run second).picture := by
  induction reorders generalizing manager rival with
  | nil => exact ⟨rfl, alike⟩
  | @cons turn other later others head rest ih =>
    obtain ⟨idle, disciplined⟩ := disciplined
    have waits : rival.table.isWaiting other.txn = false :=
      head.txn ▸ isWaiting_of_alike alike idle
    have after : (manager.take turn).table.Arises := table_take manager turn ▸ arises.take idle
    have alsoAfter : (rival.take other).table.Arises := table_take rival other ▸ also.take waits
    obtain ⟨outcomes, shown⟩ := ih after alsoAfter (take_alike arises also alike head idle)
      (table_take manager turn ▸ disciplined)
    have told : manager.failure? turn.txn turn.call = rival.failure? other.txn other.call :=
      head.txn ▸ failure?_of_alike arises.sound.regular also.sound.regular alike head.call
    exact ⟨congrArg₂ List.cons told outcomes, shown⟩

end Manager

theorem Table.Disciplined.of_append {table : Table} {first second : List Turn}
    (disciplined : table.Disciplined (first ++ second)) : table.Disciplined first := by
  induction first generalizing table with
  | nil => trivial
  | cons turn later ih => exact ⟨disciplined.1, ih disciplined.2⟩

/-- Take two runs of the same calls, with the locks that exchanges give up listed in any order. If
only transactions that are not waiting call in the one, then after equally many calls the callers
have been told the same kinds of results in both, and there is the same to see, apart from the order
of the locks that waiting requests are to give back. -/
theorem listing_order_irrelevant {first second : List Turn}
    (reorders : List.Forall₂ Turn.Reorders first second)
    (disciplined : Table.empty.Disciplined first) (count : Nat) :
    Manager.outcomes {} (first.take count) = Manager.outcomes {} (second.take count) ∧
      (Manager.run {} (first.take count)).picture.Alike
        (Manager.run {} (second.take count)).picture := by
  have arises : Table.empty.Arises := ⟨[], trivial, rfl⟩
  have started : Table.empty.Disciplined (first.take count) := by
    rw [← List.take_append_drop count first] at disciplined
    exact disciplined.of_append
  exact Manager.run_alike (List.forall₂_take count reorders) arises arises (.refl _) started

namespace Sample

def cash : Resource := .top ⟨"cash", by decide, by decide⟩

/-- The second transaction waits to exchange the stock and the cash for the orders, until the first
one gives them back. The third waits for the stock, and the fourth for the cash. -/
def exchangeOf (names : List Resource) : List Turn :=
  [⟨⟨1⟩, .acquire orders .exclusive⟩, ⟨⟨2⟩, .acquire stock .exclusive⟩,
    ⟨⟨2⟩, .acquire cash .exclusive⟩, ⟨⟨3⟩, .acquire stock .shared⟩, ⟨⟨4⟩, .acquire cash .shared⟩,
    ⟨⟨2⟩, .exchange orders .shared names⟩, ⟨⟨1⟩, .release orders⟩]

end Sample

/-- The lists name the stock and the cash in different orders. -/
theorem exchangeOf_listed :
    let first := Sample.exchangeOf [Sample.stock, Sample.cash]
    let second := Sample.exchangeOf [Sample.cash, Sample.stock]
    (Manager.run {} first).table.locksOn Sample.cash = [⟨Sample.cash, .shared, ⟨4⟩⟩] ∧
      (Manager.run {} (first.take 6)).table.queueOf Sample.orders ≠
        (Manager.run {} (second.take 6)).table.queueOf Sample.orders ∧
      ∀ count, Manager.outcomes {} (first.take count) = Manager.outcomes {} (second.take count) ∧
        (Manager.run {} (first.take count)).picture.Alike
          (Manager.run {} (second.take count)).picture := by
  intro first second
  have served : (Manager.run {} first).table.locksOn Sample.cash =
      [⟨Sample.cash, .shared, ⟨4⟩⟩] := by
    decide +kernel
  have listed : (Manager.run {} (first.take 6)).table.queueOf Sample.orders ≠
      (Manager.run {} (second.take 6)).table.queueOf Sample.orders := by
    decide +kernel
  have disciplined : Table.empty.Disciplined first := by
    decide +kernel
  have reorders : List.Forall₂ Turn.Reorders first second :=
    .cons ⟨rfl, .acquire _ _⟩ <| .cons ⟨rfl, .acquire _ _⟩ <| .cons ⟨rfl, .acquire _ _⟩ <|
      .cons ⟨rfl, .acquire _ _⟩ <| .cons ⟨rfl, .acquire _ _⟩ <|
        .cons ⟨rfl, .exchange _ _ (.swap _ _ [])⟩ <| .cons ⟨rfl, .release _⟩ .nil
  exact ⟨served, listed, listing_order_irrelevant reorders disciplined⟩

end LockManager
