import LockManager.Proofs.Confluence
import LockManager.Proofs.Discipline

/-! Requests granted in one step each. A commit takes the next in line off any queue where it fits,
enters its grant, gives its other locks back in both views and wakes its transaction, all at once
and with no regard to the other queues. With one request of each transaction, commits commute. -/
namespace LockManager

/-- The owner and the resource of a lock. -/
def Lock.key (lock : Lock) : Txn × Resource := (lock.owner, lock.resource)

/-- A request gives back no lock of another transaction. -/
theorem Request.Filed.keeps {request : Request} {resource : Resource}
    (filed : request.Filed resource) {lock : Lock} (other : lock.owner ≠ request.owner) :
    lock.key ∉ request.releases.map Lock.key := by
  intro member
  obtain ⟨released, own, same⟩ := List.mem_map.mp member
  have owner : released.owner = lock.owner := congrArg Prod.fst same
  exact other (owner.symm.trans (filed.own released own))

def Ledger.without (ledger : Ledger) (keys : List (Txn × Resource)) : Ledger :=
  ledger.filter fun held => !(keys.contains held.key)

/-- What there is to see of a table and its transactions. -/
@[ext] structure Picture where
  active : Resource → Ledger
  held : Txn → Ledger
  queue : Resource → List Request
  blocked : Txn → Bool

namespace Picture

/-- The next in line on the resource is no longer in its queue. -/
def dequeue (picture : Picture) (resource : Resource) : Picture :=
  { picture with
    queue := fun other =>
      if other = resource then (picture.queue other).tail else picture.queue other }

/-- The lock is entered on its resource and for its owner. -/
def grant (picture : Picture) (lock : Lock) : Picture :=
  { picture with
    active := fun resource =>
      if resource = lock.resource then (picture.active resource).put lock
      else picture.active resource
    held := fun txn =>
      if txn = lock.owner then (picture.held txn).put lock else picture.held txn }

/-- The given locks are gone from both views. -/
def without (picture : Picture) (keys : List (Txn × Resource)) : Picture :=
  { picture with
    active := fun resource => (picture.active resource).without keys
    held := fun txn => (picture.held txn).without keys }

def wake (picture : Picture) (txn : Txn) : Picture :=
  { picture with blocked := fun other => if other = txn then false else picture.blocked other }

/-- A request commits that is next in line on the resource: grant, deferred releases, wake. -/
def serve (picture : Picture) (resource : Resource) (request : Request) : Picture :=
  (((picture.dequeue resource).grant request.lock).without (request.releases.map Lock.key)).wake
    request.owner

/-- One commit, on any resource where the next in line fits beside the locks of others. -/
inductive Commits (picture : Picture) : Picture → Prop
  | commit {resource : Resource} {request : Request} {rest : List Request}
      (head : picture.queue resource = request :: rest)
      (fits : ∀ held ∈ picture.active resource, held.owner ≠ request.owner →
        request.lock.mode.compatible held.mode = true) :
      Commits picture (picture.serve resource request)

end Picture

namespace Ledger

theorem mem_without {ledger : Ledger} {keys : List (Txn × Resource)} {held : Lock} :
    held ∈ ledger.without keys ↔ held ∈ ledger ∧ held.key ∉ keys := by
  simp [without]

theorem without_without (ledger : Ledger) (first second : List (Txn × Resource)) :
    (ledger.without first).without second = ledger.without (first ++ second) := by
  rw [without, without, without, List.filter_filter]
  exact List.filter_congr fun held _ => by simp [Bool.and_comm]

theorem without_comm (ledger : Ledger) (first second : List (Txn × Resource)) :
    (ledger.without first).without second = (ledger.without second).without first := by
  rw [without, without, without, without, List.filter_filter, List.filter_filter]
  exact List.filter_congr fun held _ => Bool.and_comm _ _

theorem put_without (ledger : Ledger) {lock : Lock} {keys : List (Txn × Resource)}
    (kept : lock.key ∉ keys) : (ledger.put lock).without keys = (ledger.without keys).put lock := by
  rw [without, filter_put, if_pos (by simpa using kept), without]
  intro held same
  obtain ⟨owner, resource⟩ := Lock.sameGrant_iff.mp same
  rw [Lock.key, Lock.key, owner, resource]

end Ledger

namespace Picture

variable {picture : Picture}

/-- Each request waits where it belongs, with its owner's own locks to give back, and no other
request of the same transaction waits anywhere. -/
structure Orderly (picture : Picture) : Prop where
  filed : ∀ resource, ∀ request ∈ picture.queue resource, request.Filed resource
  one : OneRequestEach picture.queue

theorem serve_queue_sublist (picture : Picture) (resource : Resource) (request : Request)
    (other : Resource) :
    ((picture.serve resource request).queue other).Sublist (picture.queue other) := by
  simp only [serve, wake, without, grant, dequeue]
  split
  · exact List.tail_sublist _
  · exact List.Sublist.refl _

theorem Orderly.commits {next : Picture} (orderly : picture.Orderly)
    (commits : picture.Commits next) : next.Orderly := by
  cases commits with
  | @commit resource request rest head fits =>
    have fewer := picture.serve_queue_sublist resource request
    exact ⟨fun other waiting member => orderly.filed other waiting ((fewer other).subset member),
      orderly.one.of_sublist fewer⟩

/-! ### Commits on two resources -/

theorem dequeue_comm (picture : Picture) (first second : Resource) :
    (picture.dequeue first).dequeue second = (picture.dequeue second).dequeue first := by
  ext1
  · rfl
  · rfl
  · funext resource
    simp only [dequeue]
    split <;> split <;> rfl
  · rfl

theorem grant_comm {a b : Lock} (owners : a.owner ≠ b.owner) (resources : a.resource ≠ b.resource) :
    (picture.grant a).grant b = (picture.grant b).grant a := by
  ext1
  · funext resource
    simp only [grant]
    by_cases ofA : resource = a.resource
    · have notB : resource ≠ b.resource := ofA ▸ resources
      rw [if_neg notB, if_pos ofA, if_pos ofA, if_neg notB]
    · rw [if_neg ofA, if_neg ofA]
  · funext txn
    simp only [grant]
    by_cases ofA : txn = a.owner
    · have notB : txn ≠ b.owner := ofA ▸ owners
      rw [if_neg notB, if_pos ofA, if_pos ofA, if_neg notB]
    · rw [if_neg ofA, if_neg ofA]
  · rfl
  · rfl

theorem without_comm (picture : Picture) (first second : List (Txn × Resource)) :
    (picture.without first).without second = (picture.without second).without first := by
  ext1
  · funext resource
    exact Ledger.without_comm _ first second
  · funext txn
    exact Ledger.without_comm _ first second
  · rfl
  · rfl

theorem wake_comm (picture : Picture) (first second : Txn) :
    (picture.wake first).wake second = (picture.wake second).wake first := by
  ext1
  · rfl
  · rfl
  · rfl
  · funext txn
    simp only [wake]
    split <;> split <;> rfl

theorem grant_without {keys : List (Txn × Resource)} {lock : Lock} (kept : lock.key ∉ keys) :
    (picture.without keys).grant lock = (picture.grant lock).without keys := by
  ext1
  · funext resource
    simp only [grant, without]
    split
    · exact (Ledger.put_without _ kept).symm
    · rfl
  · funext txn
    simp only [grant, without]
    split
    · exact (Ledger.put_without _ kept).symm
    · rfl
  · rfl
  · rfl

theorem serve_without {keys : List (Txn × Resource)} {resource : Resource} {request : Request}
    (kept : request.lock.key ∉ keys) :
    (picture.without keys).serve resource request =
      (picture.serve resource request).without keys := by
  have entered : ((picture.dequeue resource).without keys).grant request.lock =
      ((picture.dequeue resource).grant request.lock).without keys := grant_without kept
  change ((((picture.dequeue resource).without keys).grant request.lock).without _).wake _ = _
  rw [entered, without_comm]
  rfl

theorem serve_wake {txn : Txn} {resource : Resource} {request : Request} :
    (picture.wake txn).serve resource request = (picture.serve resource request).wake txn :=
  wake_comm (((picture.dequeue resource).grant request.lock).without
    (request.releases.map Lock.key)) txn request.owner

/-- Requests of two transactions, each first in line on a resource of its own, commute. -/
theorem serve_comm {a b : Request} {first second : Resource} (apart : first ≠ second)
    (different : a.owner ≠ b.owner) (filedA : a.Filed first) (filedB : b.Filed second) :
    (picture.serve first a).serve second b = (picture.serve second b).serve first a := by
  have keptA : a.lock.key ∉ b.releases.map Lock.key := filedB.keeps different
  have keptB : b.lock.key ∉ a.releases.map Lock.key := filedA.keeps different.symm
  have resources : a.lock.resource ≠ b.lock.resource := by
    rw [filedA.here, filedB.here]
    exact apart
  have entered : (((picture.dequeue first).grant a.lock).dequeue second).grant b.lock =
      (((picture.dequeue second).grant b.lock).dequeue first).grant a.lock :=
    calc (((picture.dequeue first).grant a.lock).dequeue second).grant b.lock
      _ = (((picture.dequeue first).dequeue second).grant a.lock).grant b.lock := rfl
      _ = (((picture.dequeue second).dequeue first).grant b.lock).grant a.lock := by
        rw [dequeue_comm, grant_comm different resources]
      _ = (((picture.dequeue second).grant b.lock).dequeue first).grant a.lock := rfl
  calc (picture.serve first a).serve second b
    _ = ((((picture.dequeue first).grant a.lock).serve second b).without
          (a.releases.map Lock.key)).wake a.owner := by
      rw [← serve_without keptB, ← serve_wake]
      rfl
    _ = ((((picture.dequeue second).grant b.lock).serve first a).without
          (b.releases.map Lock.key)).wake b.owner := by
      rw [serve, serve, entered]
      generalize (((picture.dequeue second).grant b.lock).dequeue first).grant a.lock = granted
      change (((granted.without (b.releases.map Lock.key)).without (a.releases.map Lock.key)).wake
        b.owner).wake a.owner = _
      rw [without_comm, wake_comm]
      rfl
    _ = (picture.serve second b).serve first a := by
      rw [← serve_without keptA, ← serve_wake]
      rfl

/-- A request that is next in line and fits does so after a commit elsewhere. -/
theorem Commits.after_other {a b : Request} {first second : Resource} {rest : List Request}
    (apart : first ≠ second) (filed : a.Filed first) (head : picture.queue second = b :: rest)
    (fits : ∀ held ∈ picture.active second, held.owner ≠ b.owner →
      b.lock.mode.compatible held.mode = true) :
    (picture.serve first a).Commits ((picture.serve first a).serve second b) := by
  refine @Commits.commit _ _ _ rest ?_ fun held member => ?_
  · simp only [serve, wake, without, grant, dequeue, if_neg apart.symm, head]
  · simp only [serve, wake, without, grant, dequeue, filed.here, if_neg apart.symm] at member
    exact fits held (Ledger.mem_without.mp member).1

theorem commits_diamond : Diamond Commits Orderly := by
  intro picture left right orderly toLeft toRight
  cases toLeft with
  | @commit first a restA headA fitsA =>
    cases toRight with
    | @commit second b restB headB fitsB =>
      have inA : a ∈ picture.queue first := headA ▸ List.mem_cons_self
      have inB : b ∈ picture.queue second := headB ▸ List.mem_cons_self
      by_cases same : first = second
      · subst same
        rw [headA] at headB
        cases headB
        exact .inl rfl
      · have different : a.owner ≠ b.owner := fun equal =>
          same (orderly.one.across a inA b inB equal)
        have filedA := orderly.filed first a inA
        have filedB := orderly.filed second b inB
        refine .inr ⟨_, Commits.after_other same filedA headB fitsB, ?_⟩
        rw [serve_comm same different filedA filedB]
        exact Commits.after_other (Ne.symm same) filedB headA fitsA

theorem Orderly.settlesTo {count : Nat} {last : Picture} (orderly : picture.Orderly)
    (path : Steps Commits count picture last) (final : Final Commits last) :
    SettlesTo Commits picture last :=
  path.settlesTo (fun _ _ before => before.commits) commits_diamond orderly final

end Picture
end LockManager
